import CdrProcessor.FileIngest
import CdrProcessor.Lib.Dirs
import CdrProcessor.ThreadPool

/-! `FileIngestor` with all its threads: the feeder inside the watcher and inside `submit`, the
workers inside `process`, and a call of `stop()`. -/

namespace CdrProcessor.FileIngestor

open ThreadPool (Pool Size)

/-! ## The ingestor -/

structure Config where
  parser : IParser
  readers : Nat
  readers_pos : 0 < readers

/-- `m_thread_pool`, over a queue twice the number of its workers. -/
def Config.size (cfg : Config) : Size where
  workers := cfg.readers
  capacity := 2 * cfg.readers
  workers_pos := cfg.readers_pos
  capacity_pos := Nat.mul_pos Nat.two_pos cfg.readers_pos

/-- The constructor of the pool does not throw. -/
theorem Config.make_size (cfg : Config) :
    Size.make cfg.readers (2 * cfg.readers) = some cfg.size :=
  dif_pos ⟨cfg.readers_pos, Nat.mul_pos Nat.two_pos cfg.readers_pos⟩

/-- Where the feeder is, from the two sweeps of the watcher's constructor on: at the test of
`m_stop`, at that of the watcher's queue, in `read_events`, with a path in hand, in `submit`,
or out of its loop. -/
inductive Feeder where
  | targetSweep | sourceSweep | looping | watching | reading | claimed | submitting | ended
  deriving DecidableEq, Repr

/-- Behind `start()`, which sets `m_running`. -/
def Feeder.started : Feeder → Bool
  | .targetSweep => false
  | .sourceSweep => false
  | _ => true

/-- A file open in `process`: the file found at the path, the mapping of it, what
`resume_at` said, and the source.  `passed` is a history of the batches handed to the sink. -/
structure Reading where
  found : Option Nat
  map : Option Text
  resume : UInt64
  src : FileSource
  passed : List (List CdrRecord) := []

/-- How far a task has come in `process`: not begun, back at once with `m_stop` set, about to
open its file, in the loop, or through it, with the directory the file was to be moved to. -/
inductive Work where
  | fresh
  | skipped
  | begun
  | reading (r : Reading)
  | through (r : Reading) (dir : Dir)

def Work.isThrough : Work → Bool
  | .through _ _ => true
  | _ => false

/-- `process` has returned. -/
def Work.returned : Work → Bool
  | .skipped => true
  | .through _ _ => true
  | _ => false

def Work.reading? : Work → Option Reading
  | .reading r => some r
  | .through r _ => some r
  | _ => none

/-- How far `stop()` has come. -/
inductive Stopping where
  | uncalled | flagged | woken | joined | returned
  deriving DecidableEq, Repr

/-- Files go by the numbers they were delivered under.  `watch` is the watcher's queue,
`eventFd` says whether `wake` was called.  `handed` is a history of what `next_file` handed
out; the task with a number is the one for the path handed out under it. -/
structure Ingestor where
  links : Dirs Dir FileName := fun _ => ∅
  texts : Nat → Text := fun _ => []
  next : Nat := 0
  watch : List (FileName × Nat) := []
  eventFd : Bool := false
  feeder : Feeder := .targetSweep
  pool : Pool := {}
  works : Nat → Work := fun _ => .fresh
  mStop : Bool := false
  stopping : Stopping := .uncalled
  handed : List (FileName × Nat) := []

def Ingestor.setWork (s : Ingestor) (k : Nat) (work : Work) : Ingestor :=
  { s with works := Function.update s.works k work }

/-! ## Steps -/

inductive Act where
  /-- A sender renames a finished file into the ready directory. -/
  | deliver (f : FileName) (text : Text)
  /-- The sweep of the process directory comes by a file an earlier run has left there. -/
  | leave (f : FileName) (text : Text)
  /-- A sweep is over; behind the second one the feeder is started. -/
  | turn
  /-- `claim`, from the sweep of the ready directory or an event. -/
  | claim (f : FileName)
  /-- The test of `m_stop` in the loop of `feed`. -/
  | testStop (seen : Bool)
  /-- `next_file` finds its queue empty. -/
  | poll
  /-- `read_events` returns true: for what it has read, or to try again. -/
  | readDone
  /-- It returns false: woken, or for an error. -/
  | giveUp (failed : Bool)
  /-- `next_file` hands out a path. -/
  | handOut
  | submit
  /-- `submit` has returned. -/
  | submitted
  /-- What the pool does by itself, or in its destructor. -/
  | pool (a : ThreadPool.Act)
  /-- A worker enters `process`. -/
  | begin (i : Nat) (seen : Bool)
  /-- `resume_at`, and the constructor of the source. -/
  | opens (i : Nat) (readable : Bool) (resume : UInt64)
  | consume (i : Nat)
  | dispose (i : Nat) (moved : Bool)
  /-- The four statements of `stop()`. -/
  | stop
  | wake
  | join
  | reset

/-- What the pool can do: only the feeder submits, a task ends when its `process` has
returned, which it does without an exception, and `stop()` destroys the pool. -/
def Ingestor.grants (s : Ingestor) : ThreadPool.Act → Bool
  | .submit _ => false
  | .finish i threw =>
    match s.pool.loops i with
    | .running k => !threw && (s.works k).returned
    | _ => false
  | .stop => s.stopping = .joined
  | .notifyAllEmpty => s.stopping = .joined
  | .notifyAllFull => s.stopping = .joined
  | .join => s.stopping = .joined
  | _ => true

/-- `DirWatcher::claim`. -/
def Ingestor.claim (s : Ingestor) (f : FileName) : Option Ingestor :=
  if s.feeder = .sourceSweep ∨ s.feeder = .reading then
    (s.links.find .ready f).map fun n =>
      { s with links := s.links.move .ready f .process f n, watch := s.watch ++ [(f, n)] }
  else none

/-- `next_file`, with something in its queue. -/
def Ingestor.handOut (s : Ingestor) : Option Ingestor :=
  match s.feeder, s.watch with
  | .watching, e :: watch =>
    some { s with watch, feeder := .claimed, handed := s.handed ++ [e] }
  | _, _ => none

/-- `process`, the test of `m_stop`. -/
def Ingestor.begin (s : Ingestor) (i : Nat) (seen : Bool) : Option Ingestor :=
  match s.pool.loops i with
  | .running k =>
    match s.works k with
    | .fresh =>
      if seen = true → s.mStop = true then
        some (s.setWork k (if seen then .skipped else .begun))
      else none
    | _ => none
  | _ => none

def Ingestor.opens (cfg : Config) (s : Ingestor) (i : Nat) (readable : Bool) (resume : UInt64) :
    Option Ingestor :=
  match s.pool.loops i with
  | .running k =>
    match s.works k, s.handed[k]? with
    | .begun, some (f, _) =>
      let found := s.links.find .process f
      let map := if readable then found.map s.texts else none
      some (s.setWork k
        (.reading { found, map, resume, src := FileSource.make map cfg.parser resume }))
    | _, _ => none
  | _ => none

/-- A turn of the loop of `process`. -/
def Ingestor.consume (s : Ingestor) (i : Nat) : Option Ingestor :=
  match s.pool.loops i with
  | .running k =>
    match s.works k with
    | .reading r =>
      match r.src.next with
      | (.ok, batch, src) =>
        some (s.setWork k (.reading { r with src, passed := r.passed ++ [batch] }))
      | _ => none
    | _ => none
  | _ => none

/-- The end of the loop, and `dispose`: whatever file is at the path by now is moved. -/
def Ingestor.dispose (s : Ingestor) (i : Nat) (moved : Bool) : Option Ingestor :=
  match s.pool.loops i with
  | .running k =>
    match s.works k, s.handed[k]? with
    | .reading r, some (f, _) =>
      if r.src.next.1 = .ok then none
      else
        let dir := if r.src.next.1 = .done then .done else .fail
        let s' := s.setWork k (.through r dir)
        if moved then
          (s.links.find .process f).map fun n =>
            { s' with links := s.links.move .process f dir f n }
        else some s'
    | _, _ => none
  | _ => none

def step (cfg : Config) (s : Ingestor) : Act → Option Ingestor
  | .deliver f text =>
    some { s with
      links := s.links.link .ready f s.next
      texts := Function.update s.texts s.next text
      next := s.next + 1 }
  | .leave f text =>
    if s.feeder = .targetSweep ∧ s.links.find .process f = none then
      some { s with
        links := s.links.link .process f s.next
        texts := Function.update s.texts s.next text
        next := s.next + 1
        watch := s.watch ++ [(f, s.next)] }
    else none
  | .turn =>
    match s.feeder with
    | .targetSweep => some { s with feeder := .sourceSweep }
    | .sourceSweep => some { s with feeder := .looping }
    | _ => none
  | .claim f => s.claim f
  | .testStop seen =>
    if s.feeder = .looping ∧ (seen = true → s.mStop = true) then
      some { s with feeder := if seen then .ended else .watching }
    else none
  | .poll =>
    if s.feeder = .watching ∧ s.watch = [] then some { s with feeder := .reading } else none
  | .readDone => if s.feeder = .reading then some { s with feeder := .watching } else none
  | .giveUp failed =>
    if s.feeder = .reading ∧ (failed = true ∨ s.eventFd = true) then
      some { s with feeder := .ended, eventFd := s.eventFd && failed }
    else none
  | .handOut => s.handOut
  | .submit =>
    if s.feeder = .claimed then
      (ThreadPool.step cfg.size s.pool (.submit (.producer 0))).map fun pool =>
        { s with pool, feeder := .submitting }
    else none
  | .submitted =>
    if s.feeder = .submitting ∧ s.pool.calls (.producer 0) = .idle then
      some { s with feeder := .looping }
    else none
  | .pool a =>
    if s.grants a then
      (ThreadPool.step cfg.size s.pool a).map fun pool => { s with pool }
    else none
  | .begin i seen => s.begin i seen
  | .opens i readable resume => s.opens cfg i readable resume
  | .consume i => s.consume i
  | .dispose i moved => s.dispose i moved
  | .stop =>
    if s.stopping = .uncalled ∧ s.feeder.started then
      some { s with mStop := true, stopping := .flagged }
    else none
  | .wake =>
    if s.stopping = .flagged then some { s with eventFd := true, stopping := .woken } else none
  | .join =>
    if s.stopping = .woken ∧ s.feeder = .ended then some { s with stopping := .joined } else none
  | .reset =>
    if s.stopping = .joined ∧ s.pool.closing = .gone then
      some { s with stopping := .returned }
    else none

end CdrProcessor.FileIngestor
