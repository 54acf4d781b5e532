import CdrProcessor.RedisStore

/-! The sink: what a batch adds up to is written through a store, counter after
counter, in the order `AggregateSink::consume` goes through them. -/

namespace CdrProcessor

/-! ## The counters of a delta -/

inductive SubField where
  | voiceOut | voiceIn | dataRx | dataTx | smsOut | smsIn | noans | busy | failed
  deriving DecidableEq, Repr

inductive OpField where
  | voiceOut | voiceIn | smsOut | smsIn
  deriving DecidableEq, Repr

inductive LinkField where
  | dur | sms | cnt
  deriving DecidableEq, Repr

inductive SubBoard where
  | voice | sms | data | fail
  deriving DecidableEq, Repr

inductive OpBoard where
  | voice | sms
  deriving DecidableEq, Repr

/-- The fields in the order they are written. -/
def SubField.all : List SubField :=
  [.voiceOut, .voiceIn, .dataRx, .dataTx, .smsOut, .smsIn, .noans, .busy, .failed]

def OpField.all : List OpField := [.voiceOut, .voiceIn, .smsOut, .smsIn]

def LinkField.all : List LinkField := [.dur, .sms, .cnt]

def SubBoard.all : List SubBoard := [.voice, .sms, .data, .fail]

def OpBoard.all : List OpBoard := [.voice, .sms]

def SubField.name : SubField → Text
  | .voiceOut => kFieldVoiceOut
  | .voiceIn => kFieldVoiceIn
  | .dataRx => kFieldDataRx
  | .dataTx => kFieldDataTx
  | .smsOut => kFieldSmsOut
  | .smsIn => kFieldSmsIn
  | .noans => kFieldNoans
  | .busy => kFieldBusy
  | .failed => kFieldFailed

def OpField.name : OpField → Text
  | .voiceOut => kFieldVoiceOut
  | .voiceIn => kFieldVoiceIn
  | .smsOut => kFieldSmsOut
  | .smsIn => kFieldSmsIn

def LinkField.suffix : LinkField → Text
  | .dur => kFieldDurSuffix
  | .sms => kFieldSmsSuffix
  | .cnt => kFieldCntSuffix

def TotalField.name : TotalField → Text
  | .records => kFieldRecords
  | .mocCnt => kFieldMocCnt
  | .mtcCnt => kFieldMtcCnt
  | .smsMoCnt => kFieldSmsMoCnt
  | .smsMtCnt => kFieldSmsMtCnt
  | .dataCnt => kFieldDataCnt
  | .noansCnt => kFieldNoansCnt
  | .busyCnt => kFieldBusyCnt
  | .failedCnt => kFieldFailedCnt
  | .mocDur => kFieldMocDur
  | .mtcDur => kFieldMtcDur
  | .dataDur => kFieldDataDur
  | .dataRx => kFieldDataRx
  | .dataTx => kFieldDataTx

def SubBoard.key : SubBoard → Text
  | .voice => kVoiceBoard
  | .sms => kSmsBoard
  | .data => kDataBoard
  | .fail => kFailBoard

def OpBoard.key : OpBoard → Text
  | .voice => kOpVoiceBoard
  | .sms => kOpSmsBoard

def SubDelta.get (d : SubDelta) : SubField → UInt64
  | .voiceOut => d.voiceOut
  | .voiceIn => d.voiceIn
  | .dataRx => d.dataRx
  | .dataTx => d.dataTx
  | .smsOut => d.smsOut
  | .smsIn => d.smsIn
  | .noans => d.noans
  | .busy => d.busy
  | .failed => d.failed

def OpDelta.get (d : OpDelta) : OpField → UInt64
  | .voiceOut => d.voiceOut
  | .voiceIn => d.voiceIn
  | .smsOut => d.smsOut
  | .smsIn => d.smsIn

def LinkDelta.get (d : LinkDelta) : LinkField → UInt64
  | .dur => d.dur
  | .sms => d.sms
  | .cnt => d.cnt

/-- What a subscriber adds to a board. -/
def SubDelta.score (d : SubDelta) : SubBoard → UInt64
  | .voice => d.voiceOut + d.voiceIn
  | .sms => d.smsOut + d.smsIn
  | .data => d.dataRx + d.dataTx
  | .fail => d.noans + d.busy + d.failed

def OpDelta.score (d : OpDelta) : OpBoard → UInt64
  | .voice => d.voiceOut + d.voiceIn
  | .sms => d.smsOut + d.smsIn

/-- The order in which a walk over the hash maps of a delta meets their entries:
any order, every entry once. -/
structure Visit where
  subs : SubMap → List (Sigma fun _ : UInt64 => SubDelta)
  ops : OpMap → List (Sigma fun _ : UInt32 => OpDelta)
  links : LinkMap → List (Sigma fun _ : LinkKey => LinkDelta)
  subs_perm : ∀ m, (subs m).Perm m.entries
  ops_perm : ∀ m, (ops m).Perm m.entries
  links_perm : ∀ m, (links m).Perm m.entries

/-- The entries as the tables hold them. -/
def Visit.plain : Visit where
  subs m := m.entries
  ops m := m.entries
  links m := m.entries
  subs_perm _ := .refl _
  ops_perm _ := .refl _
  links_perm _ := .refl _

/-! ## Writers -/

variable {m : Type → Type} [Monad m]

/-- `ok = add(...) && ok` down a list of key, field and value: every one is tried. -/
def addAll (add : Text → Text → UInt64 → m Bool) : List (Text × Text × UInt64) → Bool → m Bool
  | [], ok => pure ok
  | (key, field, value) :: rest, ok => do
    let added ← add key field value
    addAll add rest (added && ok)

namespace AggregateWriter

/-- A value of 0 is not worth a command. -/
def add (store : IStore m) (key field : Text) (value : UInt64) : m Bool :=
  if value = 0 then pure true else store.increment key field value

def subCounters (e : Sigma fun _ : UInt64 => SubDelta) : List (Text × Text × UInt64) :=
  SubField.all.map fun f => (appendNumber kSubPrefix e.1, f.name, e.2.get f)

def opCounters (e : Sigma fun _ : UInt32 => OpDelta) : List (Text × Text × UInt64) :=
  OpField.all.map fun f => (appendNumber kOpPrefix e.1.toUInt64, f.name, e.2.get f)

def linkCounters (e : Sigma fun _ : LinkKey => LinkDelta) : List (Text × Text × UInt64) :=
  LinkField.all.map fun f =>
    (appendNumber kLinkPrefix e.1.owner, appendNumber [] e.1.peer ++ f.suffix, e.2.get f)

/-- The counters of `write(const Delta&)`, in order. -/
def deltaCounters (visit : Visit) (delta : Delta) : List (Text × Text × UInt64) :=
  (visit.subs delta.subs).flatMap subCounters ++
    ((visit.ops delta.ops).flatMap opCounters ++ (visit.links delta.links).flatMap linkCounters)

/-- The counters of `write(const Totals&)`, in order. -/
def totalCounters (totals : Totals) : List (Text × Text × UInt64) :=
  TotalField.all.map fun f => (kTotalKey, f.name, totals.get f)

/-- `AggregateWriter::write(const Delta&)`: the flush comes last, whatever failed before. -/
def writeDelta (store : IStore m) (visit : Visit) (delta : Delta) : m Bool := do
  let ok ← addAll (add store) (deltaCounters visit delta) true
  let flushed ← store.flush
  return flushed && ok

/-- `AggregateWriter::write(const Totals&)`, which does not flush. -/
def writeTotals (store : IStore m) (totals : Totals) : m Bool :=
  addAll (add store) (totalCounters totals) true

end AggregateWriter

namespace RankWriter

def add (store : IStore m) (board member : Text) (value : UInt64) : m Bool :=
  if value = 0 then pure true else store.rank board member value

def subScores (e : Sigma fun _ : UInt64 => SubDelta) : List (Text × Text × UInt64) :=
  SubBoard.all.map fun b => (b.key, appendNumber [] e.1, e.2.score b)

def opScores (e : Sigma fun _ : UInt32 => OpDelta) : List (Text × Text × UInt64) :=
  OpBoard.all.map fun b => (b.key, appendNumber [] e.1.toUInt64, e.2.score b)

/-- The scores of `write`, in order. -/
def scores (visit : Visit) (delta : Delta) : List (Text × Text × UInt64) :=
  (visit.subs delta.subs).flatMap subScores ++ (visit.ops delta.ops).flatMap opScores

/-- `RankWriter::write`, which does not flush. -/
def write (store : IStore m) (visit : Visit) (delta : Delta) : m Bool :=
  addAll (add store) (scores visit delta) true

end RankWriter

/-! ## AggregateSink -/

variable {σ : Type}

namespace AggregateSink

/-- The highest sequence of a batch, 0 when it is empty. -/
def highest (batch : List CdrRecord) : UInt64 :=
  batch.foldl (fun high record => max high record.sequence) 0

/-- `AggregateSink::consume`.  What the writers and the mark return is not looked at. -/
def consume (store : IStore (Client σ)) (visit : Visit) (batch : List CdrRecord)
    (source : Text) : Client σ Unit := do
  modify fun w => { w with delta := fold batch w.delta }
  let batchTotals := ({} : Totals).addBatch batch
  modify fun w => { w with runTotals := w.runTotals.merge batchTotals }
  let _ ← AggregateWriter.writeTotals store batchTotals
  if source ≠ [] ∧ highest batch ≠ 0 then
    let _ ← store.mark source (highest batch)
  let delta := (← get).delta
  let _ ← RankWriter.write store visit delta
  let _ ← AggregateWriter.writeDelta store visit delta

/-- `AggregateSink::resume_at`. -/
def resumeAt (store : IStore (Client σ)) (source : Text) : Client σ UInt64 :=
  store.resumeAt source

/-- `AggregateSink::snapshot`. -/
def snapshot (w : World σ) : Totals := w.runTotals.snapshot

end AggregateSink

end CdrProcessor
