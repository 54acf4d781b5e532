import CdrProcessor.Basic
import CdrProcessor.Lib.Table
import Mathlib.Logic.Function.Basic

/-! A batch of records as the increments it adds up to (`Delta`, `Aggregator`)
and as the fourteen counters of the run (`Totals`, `RunTotals`).  Every counter
is a `uint64_t`, so additions wrap. -/

namespace CdrProcessor

/-! ## Delta -/

structure SubDelta where
  voiceOut : UInt64 := 0
  voiceIn : UInt64 := 0
  dataRx : UInt64 := 0
  dataTx : UInt64 := 0
  smsOut : UInt64 := 0
  smsIn : UInt64 := 0
  noans : UInt64 := 0
  busy : UInt64 := 0
  failed : UInt64 := 0
  deriving DecidableEq, Repr

structure OpDelta where
  voiceOut : UInt64 := 0
  voiceIn : UInt64 := 0
  smsOut : UInt64 := 0
  smsIn : UInt64 := 0
  deriving DecidableEq, Repr

structure LinkDelta where
  dur : UInt64 := 0
  sms : UInt64 := 0
  cnt : UInt64 := 0
  deriving DecidableEq, Repr

/-- A directed pair, owner to peer. -/
structure LinkKey where
  owner : UInt64
  peer : UInt64
  deriving DecidableEq, Repr

instance : Inhabited SubDelta := ⟨{}⟩
instance : Inhabited OpDelta := ⟨{}⟩
instance : Inhabited LinkDelta := ⟨{}⟩

abbrev SubMap := Table UInt64 SubDelta
abbrev OpMap := Table UInt32 OpDelta
abbrev LinkMap := Table LinkKey LinkDelta

structure Delta where
  subs : SubMap := ∅
  ops : OpMap := ∅
  links : LinkMap := ∅

/-! ## Aggregator -/

/-- Adds what one record carried to both legs, nothing when `b` is 0. -/
def addLink (links : LinkMap) (a b dur sms cnt : UInt64) : LinkMap :=
  if b = 0 then links
  else
    let add := fun (l : LinkDelta) =>
      { l with dur := l.dur + dur, sms := l.sms + sms, cnt := l.cnt + cnt }
    (links.modify ⟨a, b⟩ add).modify ⟨b, a⟩ add

/-- The operator code of a record's own IMSI. -/
def mccmncOf (r : CdrRecord) : UInt32 := (r.subscriberImsi / kMsinDivisor).toUInt32

/-- What the switch of `fold` adds through the references `sub` and `op`; both
entries are made for every record, the operator's only when its code is not 0. -/
def countRecord (out : Delta) (r : CdrRecord) (sub : SubDelta → SubDelta)
    (op : OpDelta → OpDelta) : Delta :=
  { out with
    subs := out.subs.modify r.subscriberMSISDN sub
    ops := if mccmncOf r = 0 then out.ops else out.ops.modify (mccmncOf r) op }

/-- `addLink` on the links of a delta, between the two parties of a record. -/
def linkRecord (out : Delta) (r : CdrRecord) (dur sms cnt : UInt64) : Delta :=
  { out with links := addLink out.links r.subscriberMSISDN r.secondPartyMSISDN dur sms cnt }

/-- The loop body of `Aggregator::fold`. -/
def foldRecord (out : Delta) (r : CdrRecord) : Delta :=
  if r.subscriberMSISDN = 0 then out
  else
    match r.usageType with
    | .moc =>
      linkRecord (countRecord out r
        (fun s => { s with voiceOut := s.voiceOut + r.duration })
        (fun o => { o with voiceOut := o.voiceOut + r.duration })) r r.duration 0 1
    | .mtc =>
      linkRecord (countRecord out r
        (fun s => { s with voiceIn := s.voiceIn + r.duration })
        (fun o => { o with voiceIn := o.voiceIn + r.duration })) r r.duration 0 1
    | .smsMo =>
      linkRecord (countRecord out r
        (fun s => { s with smsOut := s.smsOut + 1 })
        (fun o => { o with smsOut := o.smsOut + 1 })) r 0 1 0
    | .smsMt =>
      linkRecord (countRecord out r
        (fun s => { s with smsIn := s.smsIn + 1 })
        (fun o => { o with smsIn := o.smsIn + 1 })) r 0 1 0
    | .d =>
      countRecord out r
        (fun s => { s with
          dataRx := s.dataRx + r.bytesReceived, dataTx := s.dataTx + r.bytesTransmitted }) id
    | .u => countRecord out r (fun s => { s with noans := s.noans + 1 }) id
    | .b => countRecord out r (fun s => { s with busy := s.busy + 1 }) id
    | .x => countRecord out r (fun s => { s with failed := s.failed + 1 }) id

/-- `Aggregator::fold`: clears the delta it is handed, then adds every record. -/
def fold (batch : List CdrRecord) (out : Delta) : Delta :=
  batch.foldl foldRecord { out with subs := ∅, ops := ∅, links := ∅ }

/-! ## Totals -/

structure Totals where
  records : UInt64 := 0
  mocCnt : UInt64 := 0
  mtcCnt : UInt64 := 0
  smsMoCnt : UInt64 := 0
  smsMtCnt : UInt64 := 0
  dataCnt : UInt64 := 0
  noansCnt : UInt64 := 0
  busyCnt : UInt64 := 0
  failedCnt : UInt64 := 0
  mocDur : UInt64 := 0
  mtcDur : UInt64 := 0
  dataDur : UInt64 := 0
  dataRx : UInt64 := 0
  dataTx : UInt64 := 0
  deriving DecidableEq, Repr

/-- `Totals::add` of one record. -/
def Totals.add (t : Totals) (record : CdrRecord) : Totals :=
  let t := { t with records := t.records + 1 }
  match record.usageType with
  | .moc => { t with mocCnt := t.mocCnt + 1, mocDur := t.mocDur + record.duration }
  | .mtc => { t with mtcCnt := t.mtcCnt + 1, mtcDur := t.mtcDur + record.duration }
  | .smsMo => { t with smsMoCnt := t.smsMoCnt + 1 }
  | .smsMt => { t with smsMtCnt := t.smsMtCnt + 1 }
  | .d => { t with
      dataCnt := t.dataCnt + 1
      dataDur := t.dataDur + record.duration
      dataRx := t.dataRx + record.bytesReceived
      dataTx := t.dataTx + record.bytesTransmitted }
  | .u => { t with noansCnt := t.noansCnt + 1 }
  | .b => { t with busyCnt := t.busyCnt + 1 }
  | .x => { t with failedCnt := t.failedCnt + 1 }

/-- `Totals::add` of a batch. -/
def Totals.addBatch (t : Totals) (batch : List CdrRecord) : Totals := batch.foldl Totals.add t

/-- The fourteen counters, in the order they are declared, merged and written. -/
inductive TotalField where
  | records | mocCnt | mtcCnt | smsMoCnt | smsMtCnt | dataCnt | noansCnt | busyCnt
  | failedCnt | mocDur | mtcDur | dataDur | dataRx | dataTx
  deriving DecidableEq, Repr

def TotalField.all : List TotalField :=
  [.records, .mocCnt, .mtcCnt, .smsMoCnt, .smsMtCnt, .dataCnt, .noansCnt, .busyCnt,
    .failedCnt, .mocDur, .mtcDur, .dataDur, .dataRx, .dataTx]

def Totals.get (t : Totals) : TotalField → UInt64
  | .records => t.records
  | .mocCnt => t.mocCnt
  | .mtcCnt => t.mtcCnt
  | .smsMoCnt => t.smsMoCnt
  | .smsMtCnt => t.smsMtCnt
  | .dataCnt => t.dataCnt
  | .noansCnt => t.noansCnt
  | .busyCnt => t.busyCnt
  | .failedCnt => t.failedCnt
  | .mocDur => t.mocDur
  | .mtcDur => t.mtcDur
  | .dataDur => t.dataDur
  | .dataRx => t.dataRx
  | .dataTx => t.dataTx

theorem TotalField.mem_all (f : TotalField) : f ∈ TotalField.all := by cases f <;> decide

/-! ## RunTotals -/

/-- The same fourteen counters for the whole run, each an atomic of its own. -/
structure RunTotals where
  counter : TotalField → UInt64 := fun _ => 0

/-- One relaxed `fetch_add`, none for an amount of 0. -/
def RunTotals.bump (t : RunTotals) (f : TotalField) (value : UInt64) : RunTotals :=
  if value = 0 then t else ⟨Function.update t.counter f (t.counter f + value)⟩

/-- `RunTotals::merge`: one `bump` for each counter, in order. -/
def RunTotals.merge (t : RunTotals) (totals : Totals) : RunTotals :=
  TotalField.all.foldl (fun t f => t.bump f (totals.get f)) t

/-- `RunTotals::snapshot`. -/
def RunTotals.snapshot (t : RunTotals) : Totals where
  records := t.counter .records
  mocCnt := t.counter .mocCnt
  mtcCnt := t.counter .mtcCnt
  smsMoCnt := t.counter .smsMoCnt
  smsMtCnt := t.counter .smsMtCnt
  dataCnt := t.counter .dataCnt
  noansCnt := t.counter .noansCnt
  busyCnt := t.counter .busyCnt
  failedCnt := t.counter .failedCnt
  mocDur := t.counter .mocDur
  mtcDur := t.counter .mtcDur
  dataDur := t.counter .dataDur
  dataRx := t.counter .dataRx
  dataTx := t.counter .dataTx

@[simp] theorem RunTotals.snapshot_get (t : RunTotals) (f : TotalField) :
    t.snapshot.get f = t.counter f := by cases f <;> rfl

theorem RunTotals.bump_counter (t : RunTotals) (f g : TotalField) (value : UInt64) :
    (t.bump f value).counter g = if g = f then t.counter g + value else t.counter g := by
  unfold RunTotals.bump
  by_cases hv : value = 0
  · subst hv; simp
  · rw [if_neg hv]
    by_cases hg : g = f
    · subst hg; simp
    · simp [hg]

end CdrProcessor
