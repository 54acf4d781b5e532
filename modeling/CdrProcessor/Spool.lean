import CdrProcessor.FileIngest
import CdrProcessor.Lib.Dirs

/-! The directories between the generator and the workers, as a system: the generator's file
sink, any number of watchers with the kernel queue each of them has, and the workers behind
them, in any order and with any of them gone at any point. -/

namespace CdrProcessor

/-! ## FileSink -/

/-- What `datetime.now()` says, down to the second. -/
structure Stamp where
  year : Nat
  month : Nat
  day : Nat
  hour : Nat
  minute : Nat
  second : Nat
  deriving DecidableEq, Repr

/-- `%Y%m%d_%H%M%S`. -/
def Stamp.text (s : Stamp) : Text :=
  padded 4 s.year ++ padded 2 s.month ++ padded 2 s.day ++ '_' ::
    (padded 2 s.hour ++ padded 2 s.minute ++ padded 2 s.second)

theorem slash_notMem_padded (width n : Nat) : '/' ∉ padded width n := by
  unfold padded
  rw [List.mem_append, not_or]
  refine ⟨fun h => ?_, Decimal.not_mem_digits (by decide)⟩
  have := List.eq_of_mem_replicate h
  revert this
  decide

theorem slash_notMem_stamp (s : Stamp) : '/' ∉ s.text := by
  unfold Stamp.text
  simp only [List.mem_append, List.mem_cons, not_or]
  exact ⟨⟨⟨slash_notMem_padded _ _, slash_notMem_padded _ _⟩, slash_notMem_padded _ _⟩, by decide,
    ⟨slash_notMem_padded _ _, slash_notMem_padded _ _⟩, slash_notMem_padded _ _⟩

/-- The name a file gets in the end. -/
def Stamp.cdr (s : Stamp) : FileName :=
  ⟨s.text ++ ".cdr".toList, by simp, by
    rw [List.mem_append, not_or]
    exact ⟨slash_notMem_stamp s, by decide⟩⟩

/-- The name it is written under. -/
def Stamp.tmp (s : Stamp) : FileName :=
  ⟨s.text ++ ".cdr.tmp".toList, by simp, by
    rw [List.mem_append, not_or]
    exact ⟨slash_notMem_stamp s, by decide⟩⟩

def csvHeader (fmt : Text) (count : Nat) : Text :=
  "CDR|".toList ++ fmt ++ "|".toList ++ Decimal.digits count

/-- Where the sink stands in `_rotate`. -/
inductive SinkStage where
  | idle
  /-- Inside `_write`, the file open, with the lines that are still to be written. -/
  | writing (stamp : Stamp) (file : Nat) (left : List Text)
  /-- `_write` is through, the records are not dropped yet. -/
  | saved

structure FileSink where
  records : List Text := []
  stage : SinkStage := .idle

/-! ## DirWatcher -/

/-- A directory being iterated: what was in it at the start, and what came up so far. -/
structure Scan where
  before : List (FileName × Nat)
  seen : List (FileName × Nat) := []

/-- The watch is set before the first of the two sweeps. -/
inductive WatchPhase where
  | off
  /-- `sweep(m_target_dir, true)`. -/
  | target (scan : Scan)
  /-- `sweep(m_source_dir, false)`. -/
  | source (scan : Scan)
  | running

/-- A watcher, with the kernel's queue for it and what is left of the events it has read.
Each path comes with the number of the file it was the path of.  `taken` is a history of
what `next_file` handed out, `working` what of it is not disposed of yet. -/
structure DirWatcher where
  phase : WatchPhase := .off
  events : List (Option FileName) := []
  buffer : List (Option FileName) := []
  queue : List (FileName × Nat) := []
  taken : List (FileName × Nat) := []
  working : List (FileName × Nat) := []

def DirWatcher.armed (w : DirWatcher) : Bool :=
  match w.phase with
  | .off => false
  | _ => true

/-- The kernel's queue: full, it takes one event without a name and drops the rest. -/
def queueEvent (cap : Nat) (events : List (Option FileName)) (f : FileName) :
    List (Option FileName) :=
  if events.length < cap then events ++ [some f]
  else if none ∈ events then events
  else events ++ [none]

/-- `IN_MOVED_TO` of a name, for who watches. -/
def DirWatcher.notify (cap : Nat) (f : FileName) (w : DirWatcher) : DirWatcher :=
  if w.armed then { w with events := queueEvent cap w.events f } else w

/-! ## The system -/

/-- What a file holds, and whether its writer is through with it and has put it under its
final name. -/
structure SpoolFile where
  lines : List Text := []
  whole : Bool := false

structure SpoolSetup where
  /-- The capacity of a kernel queue. -/
  cap : Nat
  fmt : Text

/-- `replaced` is a history of the files that went when another was renamed over them,
`written` of the lines the sink has written, with their files. -/
structure Spool where
  links : Dirs Dir FileName := fun _ => ∅
  files : Nat → SpoolFile := fun _ => {}
  next : Nat := 0
  sink : FileSink := {}
  watchers : Nat → DirWatcher := fun _ => {}
  replaced : List Nat := []
  written : List (Nat × Text) := []

def Spool.setWatcher (s : Spool) (w : Nat) (watcher : DirWatcher) : Spool :=
  { s with watchers := Function.update s.watchers w watcher }

def Spool.notify (s : Spool) (cap : Nat) (f : FileName) : Spool :=
  { s with watchers := fun w => (s.watchers w).notify cap f }

/-- `rename`, when there is such a file. -/
def Spool.rename (s : Spool) (d : Dir) (f : FileName) (d' : Dir) (f' : FileName) :
    Option (Nat × Spool) :=
  (s.links.find d f).map fun i =>
    (i, { s with
      links := s.links.move d f d' f' i
      replaced := s.replaced ++ (s.links.find d' f').toList })

/-- `DirWatcher::claim`; without `ok`, the rename fails for a reason of its own. -/
def Spool.claim (s : Spool) (w : Nat) (f : FileName) (ok : Bool) : Spool :=
  match if ok then s.rename .ready f .process f else none with
  | some (i, s') =>
    s'.setWatcher w { s.watchers w with queue := (s.watchers w).queue ++ [(f, i)] }
  | none => s

/-! ## Steps -/

inductive SpoolAct where
  /-- `FileSink.emit`, up to the test of the time. -/
  | emit (record : Text)
  /-- `_rotate` with records, up to `open(tmp, "w")`. -/
  | openTmp (stamp : Stamp)
  /-- One more line of the file. -/
  | write
  /-- `os.replace`; when the file is gone, the sink gives up with what it has. -/
  | replace
  /-- The records are dropped. -/
  | reset
  /-- An exception out of `_write`, or behind it; `close` is still to come. -/
  | interrupt
  /-- The generator is gone, and what it had not written with it. -/
  | die
  /-- Another sender renames a finished file into the ready directory. -/
  | deliver (f : FileName) (lines : List Text)
  /-- A watcher comes up: the watch is set, the first sweep begins. -/
  | start (w : Nat)
  /-- An entry of the directory being swept; `ok` when the claim is not refused. -/
  | visit (w : Nat) (f : FileName) (i : Nat) (ok : Bool)
  /-- The sweep is at its end. -/
  | turn (w : Nat)
  /-- The read of the descriptor, with as many events as it came back with. -/
  | readEvents (w : Nat) (n : Nat)
  /-- One of these events. -/
  | handle (w : Nat) (ok : Bool)
  | nextFile (w : Nat)
  /-- A worker is through with a file, and moves it if the rename works. -/
  | dispose (w : Nat) (f : FileName) (i : Nat) (done : Bool) (ok : Bool)
  /-- A processor is gone. -/
  | crash (w : Nat)

/-- An iteration brings up what is in the directory, or was when it began, and no entry
twice. -/
def Scan.brings (scan : Scan) (listing : List (FileName × Nat)) (e : FileName × Nat) : Bool :=
  (e ∈ scan.before ∨ e ∈ listing) ∧ e ∉ scan.seen

/-- It misses none that was there all the time. -/
def Scan.over (scan : Scan) (listing : List (FileName × Nat)) : Bool :=
  scan.before.all fun e => e ∉ listing ∨ e ∈ scan.seen

def Scan.see (scan : Scan) (e : FileName × Nat) : Scan := { scan with seen := scan.seen ++ [e] }

def Spool.openTmp (cfg : SpoolSetup) (s : Spool) (stamp : Stamp) : Option Spool :=
  match s.sink.stage with
  | .idle =>
    if s.sink.records = [] then none
    else
      let left := csvHeader cfg.fmt s.sink.records.length :: s.sink.records
      match s.links.find .ready stamp.tmp with
      | some i =>
        some { s with
          files := Function.update s.files i {}
          sink := { s.sink with stage := .writing stamp i left } }
      | none =>
        some { s with
          links := s.links.link .ready stamp.tmp s.next
          files := Function.update s.files s.next {}
          next := s.next + 1
          sink := { s.sink with stage := .writing stamp s.next left } }
  | _ => none

def Spool.replace (cfg : SpoolSetup) (s : Spool) : Option Spool :=
  match s.sink.stage with
  | .writing stamp i [] =>
    match s.rename .ready stamp.tmp .ready stamp.cdr with
    | some (j, s') =>
      some ({ s' with
        files := Function.update s.files j
          { s.files j with whole := (s.files j).whole || i = j }
        sink := { s.sink with stage := .saved } }.notify cfg.cap stamp.cdr)
    | none => some { s with sink := { s.sink with stage := .idle } }
  | _ => none

def Spool.visit (s : Spool) (w : Nat) (f : FileName) (i : Nat) (ok : Bool) : Option Spool :=
  let watcher := s.watchers w
  match watcher.phase with
  | .target scan =>
    if scan.brings (s.links.listing .process) (f, i) then
      some (s.setWatcher w { watcher with
        phase := .target (scan.see (f, i)), queue := watcher.queue ++ [(f, i)] })
    else none
  | .source scan =>
    if scan.brings (s.links.listing .ready) (f, i) then
      some ((s.setWatcher w { watcher with phase := .source (scan.see (f, i)) }).claim w f ok)
    else none
  | _ => none

def Spool.turn (s : Spool) (w : Nat) : Option Spool :=
  let watcher := s.watchers w
  match watcher.phase with
  | .target scan =>
    if scan.over (s.links.listing .process) then
      some (s.setWatcher w { watcher with phase := .source { before := s.links.listing .ready } })
    else none
  | .source scan =>
    if scan.over (s.links.listing .ready) then
      some (s.setWatcher w { watcher with phase := .running })
    else none
  | _ => none

/-- `read_events` is called with nothing in the queue. -/
def DirWatcher.readEvents (w : DirWatcher) (n : Nat) : Option DirWatcher :=
  match w.phase, w.buffer, w.queue with
  | .running, [], [] =>
    if 0 < n ∧ n ≤ w.events.length then
      some { w with events := w.events.drop n, buffer := w.events.take n }
    else none
  | _, _, _ => none

def Spool.handle (s : Spool) (w : Nat) (ok : Bool) : Option Spool :=
  match (s.watchers w).buffer with
  | some f :: buffer => some ((s.setWatcher w { s.watchers w with buffer }).claim w f ok)
  | none :: buffer => some (s.setWatcher w { s.watchers w with buffer })
  | [] => none

def DirWatcher.nextFile (w : DirWatcher) : Option DirWatcher :=
  match w.phase, w.buffer, w.queue with
  | .running, [], e :: queue =>
    some { w with queue, taken := w.taken ++ [e], working := w.working ++ [e] }
  | _, _, _ => none

/-- `FileIngestor::dispose`. -/
def Spool.dispose (s : Spool) (w : Nat) (f : FileName) (i : Nat) (done ok : Bool) : Option Spool :=
  let watcher := s.watchers w
  if (f, i) ∈ watcher.working then
    let s' := s.setWatcher w { watcher with working := watcher.working.erase (f, i) }
    match if ok then s'.rename .process f (if done then .done else .fail) f else none with
    | some (_, s'') => some s''
    | none => some s'
  else none

def spoolStep (cfg : SpoolSetup) (s : Spool) : SpoolAct → Option Spool
  | .emit record =>
    match s.sink.stage with
    | .idle => some { s with sink := { s.sink with records := s.sink.records ++ [record] } }
    | _ => none
  | .openTmp stamp => s.openTmp cfg stamp
  | .write =>
    match s.sink.stage with
    | .writing stamp i (line :: left) =>
      some { s with
        files := Function.update s.files i
          { s.files i with lines := (s.files i).lines ++ [line] }
        written := s.written ++ [(i, line)]
        sink := { s.sink with stage := .writing stamp i left } }
    | _ => none
  | .replace => s.replace cfg
  | .reset =>
    match s.sink.stage with
    | .saved => some { s with sink := {} }
    | _ => none
  | .interrupt => some { s with sink := { s.sink with stage := .idle } }
  | .die => some { s with sink := {} }
  | .deliver f lines =>
    some ({ s with
      links := s.links.link .ready f s.next
      files := Function.update s.files s.next { lines, whole := true }
      next := s.next + 1 }.notify cfg.cap f)
  | .start w =>
    match (s.watchers w).phase with
    | .off => some (s.setWatcher w { phase := .target { before := s.links.listing .process } })
    | _ => none
  | .visit w f i ok => s.visit w f i ok
  | .turn w => s.turn w
  | .readEvents w n => ((s.watchers w).readEvents n).map (s.setWatcher w)
  | .handle w ok => s.handle w ok
  | .nextFile w => (s.watchers w).nextFile.map (s.setWatcher w)
  | .dispose w f i done ok => s.dispose w f i done ok
  | .crash w => some (s.setWatcher w {})

/-! ## Short runs -/

/-- A second of the clock. -/
def noon : Stamp := ⟨2024, 2, 1, 12, 0, 0⟩

/-- One record is written to a file of its own, and the file is put in place. -/
def rotation (stamp : Stamp) (record : Text) : List SpoolAct :=
  [.emit record, .openTmp stamp, .write, .write, .replace, .reset]

def spoolSetup : SpoolSetup := ⟨8, "csv".toList⟩

/-- A delivered file, by its name. -/
def inbox (n : Nat) : FileName :=
  ⟨'d' :: Decimal.digits n, by simp, by
    rw [List.mem_cons, not_or]
    exact ⟨by decide, Decimal.not_mem_digits (by decide)⟩⟩

end CdrProcessor
