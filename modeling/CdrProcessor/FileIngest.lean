import CdrProcessor.Deposit
import CdrProcessor.FileSource
import CdrProcessor.Lib.Run

/-! The file path as a system: the four directories, the watcher's claims, the
workers of the pool with the thread-local state each of them has, the store they
share, and a process that may end at any point and start again. -/

namespace CdrProcessor

/-! ## Files and directories -/

/-- The name of a file in a directory. -/
abbrev FileName := { n : Text // n ≠ [] ∧ '/' ∉ n }

inductive Dir where
  | ready | process | done | fail
  deriving DecidableEq, Repr

/-- `FileDirs`, each ending with a separator. -/
structure FileDirs where
  path : Dir → Text
  ends : ∀ d, ∃ p, path d = p ++ ['/']

/-- `basename_of`: what stands behind the last separator. -/
def basenameOf (path : Text) : Text := (path.reverse.takeWhile (· ≠ '/')).reverse

/-- The path of a file in one of the directories. -/
def FileDirs.file (dirs : FileDirs) (d : Dir) (f : FileName) : Text := dirs.path d ++ f.1

theorem basenameOf_file (dirs : FileDirs) (d : Dir) (f : FileName) :
    basenameOf (dirs.file d f) = f.1 := by
  obtain ⟨p, hp⟩ := dirs.ends d
  have hn : '/' ∉ f.1.reverse := fun h => f.2.2 (List.mem_reverse.mp h)
  have hrev : (dirs.path d ++ f.1).reverse = f.1.reverse ++ '/' :: p.reverse := by
    rw [hp]
    simp
  unfold basenameOf FileDirs.file
  rw [hrev, takeWhile_before hn, List.reverse_reverse]

/-! ## The state -/

/-- What the ingestor is set up with. -/
structure Setup where
  dirs : FileDirs
  parser : IParser
  readers : Nat

/-- A file being worked on: its source once it is open.  `kept` is a history: every
batch handed on so far was run by the store without an error. -/
structure Job where
  name : FileName
  src : Option FileSource := none
  kept : Bool := true

/-- A worker with its thread-local connection, queue counter, batch flag and delta. -/
structure Thread where
  link : Option Link := none
  queued : Nat := 0
  openBatch : Bool := false
  delta : Delta := {}
  job : Option Job := none

/-- A history of the batches handed to the sink: the calls they amount to, and the
commands the store ran for them. -/
structure Entry where
  name : FileName
  batch : List CdrRecord
  calls : List Call
  ran : List (Command × Bool)

/-- All of it was run, and without an error. -/
def Entry.whole (e : Entry) : Bool := e.ran = e.calls.map fun c => (c.command, true)

structure Ingest where
  db : Db
  files : Dir → Table FileName Text := fun _ => ∅
  running : Bool := false
  stopping : Bool := false
  /-- Claimed and not yet taken by a worker. -/
  queue : List FileName := []
  threads : Nat → Thread := fun _ => {}
  runTotals : RunTotals := {}
  log : List Entry := []

/-- The name a file is known by to the store. -/
def Setup.source (cfg : Setup) (f : FileName) : Text := basenameOf (cfg.dirs.file .process f)

/-- `rename` between two of the directories: over a file that is there. -/
def Ingest.rename (s : Ingest) (f : FileName) (a b : Dir) : Ingest :=
  match (s.files a).lookup f with
  | none => s
  | some text =>
    let files := Function.update s.files a ((s.files a).erase f)
    { s with files := Function.update files b ((files b).insert f text) }

/-- What a worker works on while it is inside the sink. -/
def Ingest.world (s : Ingest) (i : Nat) (script : List Event) : World Db where
  host := { state := s.db }
  link := (s.threads i).link
  queued := (s.threads i).queued
  openBatch := (s.threads i).openBatch
  delta := (s.threads i).delta
  runTotals := s.runTotals
  script := script

/-- The process is gone: what it had in memory and its connections with it. -/
def Ingest.crashed (s : Ingest) : Ingest :=
  { s with running := false, stopping := false, queue := [], threads := fun _ => {},
           runTotals := {} }

/-- A worker back from the sink, or the end of the process when it died inside. -/
def Ingest.back (s : Ingest) (i : Nat) (w : World Db) (job : Option Job) : Ingest :=
  if w.alive then
    { s with db := w.host.state, runTotals := w.runTotals,
             threads := Function.update s.threads i
              { link := w.link, queued := w.queued, openBatch := w.openBatch, delta := w.delta,
                job := job } }
  else { s with db := w.host.state }.crashed

/-- A worker that turned to something else. -/
def Ingest.setJob (s : Ingest) (i : Nat) (job : Option Job) : Ingest :=
  { s with threads := Function.update s.threads i { s.threads i with job := job } }

/-! ## Steps -/

inductive Act where
  /-- A sender renames a finished file into the ready directory. -/
  | deliver (f : FileName) (text : Text)
  /-- The process comes up and sweeps what an earlier one had claimed. -/
  | start (swept : List FileName)
  /-- The watcher claims a file, from a sweep of the ready directory or an event. -/
  | claim (f : FileName)
  | stop
  /-- A worker takes the next claimed file; after `stop` it only drops it. -/
  | take (i : Nat)
  /-- `resume_at` and the `FileSource` behind it. -/
  | opens (i : Nat) (readable : Bool) (script : List Event)
  /-- One more batch, through the sink. -/
  | consume (i : Nat) (visit : Visit) (script : List Event)
  /-- No more batches: the file is moved to done or failed, if the rename works. -/
  | dispose (i : Nat) (moved : Bool)
  | crash

/-- `resume_at`, then the constructor of the source. -/
def Ingest.opens (cfg : Setup) (s : Ingest) (i : Nat) (readable : Bool) (script : List Event) :
    Option Ingest :=
  match (s.threads i).job with
  | some { name, src := none, kept } =>
    match AggregateSink.resumeAt (redisStore redis) (cfg.source name) (s.world i script) with
    | some (resume, w) =>
      if w.script ≠ [] then none
      else
        let map := if readable then (s.files .process).lookup name else none
        some (s.back i w
          (some { name, src := some (FileSource.make map cfg.parser resume), kept }))
    | none => none
  | _ => none

/-- A turn of the loop of `process`. -/
def Ingest.consume (cfg : Setup) (s : Ingest) (i : Nat) (visit : Visit) (script : List Event) :
    Option Ingest :=
  match (s.threads i).job with
  | some { name, src := some src, kept } =>
    match src.next with
    | (.ok, batch, src') =>
      match AggregateSink.consume (redisStore redis) visit batch (cfg.source name)
          (s.world i script) with
      | some (_, w) =>
        if w.script ≠ [] then none
        else
          let e : Entry :=
            { name, batch, calls := consumeCalls visit batch (cfg.source name), ran := w.host.ran }
          let s' := s.back i w (some { name, src := some src', kept := kept && e.whole })
          some { s' with log := s.log ++ [e] }
      | none => none
    | _ => none
  | _ => none

/-- The end of `process`. -/
def Ingest.dispose (s : Ingest) (i : Nat) (moved : Bool) : Option Ingest :=
  match (s.threads i).job with
  | some { name, src := some src, .. } =>
    match src.next with
    | (.done, _, _) =>
      some ((if moved then s.rename name .process .done else s).setJob i none)
    | (.fail, _, _) =>
      some ((if moved then s.rename name .process .fail else s).setJob i none)
    | _ => none
  | _ => none

def step (cfg : Setup) (s : Ingest) : Act → Option Ingest
  | .deliver f text =>
    some { s with files := Function.update s.files .ready ((s.files .ready).insert f text) }
  | .start swept =>
    if s.running = false ∧ swept.Perm (s.files .process).keys then
      some { s with running := true, queue := swept }
    else none
  | .claim f =>
    if s.running = true ∧ f ∈ s.files .ready then
      some { s.rename f .ready .process with queue := s.queue ++ [f] }
    else none
  | .stop => if s.running then some { s with stopping := true } else none
  | .take i =>
    match s.queue, (s.threads i).job with
    | f :: queue, none =>
      if s.running = true ∧ i < cfg.readers then
        let s' := { s with queue }
        some (if s.stopping then s' else s'.setJob i (some { name := f }))
      else none
    | _, _ => none
  | .opens i readable script => s.opens cfg i readable script
  | .consume i visit script => s.consume cfg i visit script
  | .dispose i moved => s.dispose i moved
  | .crash => some s.crashed

end CdrProcessor
