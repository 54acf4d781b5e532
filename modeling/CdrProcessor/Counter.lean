import CdrProcessor.Consume
import Mathlib.Algebra.BigOperators.Group.List.Lemmas
import Mathlib.Data.UInt

/-! The counters a batch is worth.  `adds` says what one record is to each of them,
and `batchValue_eq` that fold, totals and boards come to the sum of it, modulo the
width of a counter. -/

namespace CdrProcessor

/-- Every number the processor keeps in the store, the progress marks apart. -/
inductive Counter where
  | sub (msisdn : UInt64) (f : SubField)
  | op (mccmnc : UInt32) (f : OpField)
  | link (owner peer : UInt64) (f : LinkField)
  | subBoard (msisdn : UInt64) (b : SubBoard)
  | opBoard (mccmnc : UInt32) (b : OpBoard)
  | total (f : TotalField)
  deriving DecidableEq, Repr

/-! ## What one record adds -/

def subAdds (r : CdrRecord) (f : SubField) : Nat :=
  match r.usageType, f with
  | .moc, .voiceOut => r.duration.toNat
  | .mtc, .voiceIn => r.duration.toNat
  | .smsMo, .smsOut => 1
  | .smsMt, .smsIn => 1
  | .d, .dataRx => r.bytesReceived.toNat
  | .d, .dataTx => r.bytesTransmitted.toNat
  | .u, .noans => 1
  | .b, .busy => 1
  | .x, .failed => 1
  | _, _ => 0

def opAdds (r : CdrRecord) (f : OpField) : Nat :=
  match r.usageType, f with
  | .moc, .voiceOut => r.duration.toNat
  | .mtc, .voiceIn => r.duration.toNat
  | .smsMo, .smsOut => 1
  | .smsMt, .smsIn => 1
  | _, _ => 0

def linkAdds (r : CdrRecord) (f : LinkField) : Nat :=
  match r.usageType, f with
  | .moc, .dur => r.duration.toNat
  | .moc, .cnt => 1
  | .mtc, .dur => r.duration.toNat
  | .mtc, .cnt => 1
  | .smsMo, .sms => 1
  | .smsMt, .sms => 1
  | _, _ => 0

def totalAdds (r : CdrRecord) (f : TotalField) : Nat :=
  match r.usageType, f with
  | _, .records => 1
  | .moc, .mocCnt => 1
  | .moc, .mocDur => r.duration.toNat
  | .mtc, .mtcCnt => 1
  | .mtc, .mtcDur => r.duration.toNat
  | .smsMo, .smsMoCnt => 1
  | .smsMt, .smsMtCnt => 1
  | .d, .dataCnt => 1
  | .d, .dataDur => r.duration.toNat
  | .d, .dataRx => r.bytesReceived.toNat
  | .d, .dataTx => r.bytesTransmitted.toNat
  | .u, .noansCnt => 1
  | .b, .busyCnt => 1
  | .x, .failedCnt => 1
  | _, _ => 0

/-- A record of this subscriber counts for it. -/
def subPart (r : CdrRecord) (msisdn : UInt64) (f : SubField) : Nat :=
  if r.subscriberMSISDN ≠ 0 ∧ r.subscriberMSISDN = msisdn then subAdds r f else 0

def opPart (r : CdrRecord) (mccmnc : UInt32) (f : OpField) : Nat :=
  if r.subscriberMSISDN ≠ 0 ∧ mccmncOf r ≠ 0 ∧ mccmncOf r = mccmnc then opAdds r f else 0

/-- A record between two numbers counts on the leg of each, twice when they are one. -/
def linkPart (r : CdrRecord) (owner peer : UInt64) (f : LinkField) : Nat :=
  if r.subscriberMSISDN ≠ 0 ∧ r.secondPartyMSISDN ≠ 0 then
    (if r.subscriberMSISDN = owner ∧ r.secondPartyMSISDN = peer then linkAdds r f else 0) +
      (if r.secondPartyMSISDN = owner ∧ r.subscriberMSISDN = peer then linkAdds r f else 0)
  else 0

/-- Both legs of a link hold the same. -/
theorem linkPart_comm (r : CdrRecord) (a b : UInt64) (f : LinkField) :
    linkPart r a b f = linkPart r b a f := by
  unfold linkPart
  split
  · rw [Nat.add_comm]
    simp only [and_comm]
  · rfl

/-- What a record is worth to a counter, as a number without a bound. -/
def adds (r : CdrRecord) : Counter → Nat
  | .sub msisdn f => subPart r msisdn f
  | .op mccmnc f => opPart r mccmnc f
  | .link owner peer f => linkPart r owner peer f
  | .subBoard msisdn .voice => subPart r msisdn .voiceOut + subPart r msisdn .voiceIn
  | .subBoard msisdn .sms => subPart r msisdn .smsOut + subPart r msisdn .smsIn
  | .subBoard msisdn .data => subPart r msisdn .dataRx + subPart r msisdn .dataTx
  | .subBoard msisdn .fail =>
    subPart r msisdn .noans + subPart r msisdn .busy + subPart r msisdn .failed
  | .opBoard mccmnc .voice => opPart r mccmnc .voiceOut + opPart r mccmnc .voiceIn
  | .opBoard mccmnc .sms => opPart r mccmnc .smsOut + opPart r mccmnc .smsIn
  | .total f => totalAdds r f

/-- What a list of records is worth to a counter. -/
def amount (rs : List CdrRecord) (c : Counter) : Nat := (rs.map fun r => adds r c).sum

@[simp] theorem amount_nil (c : Counter) : amount [] c = 0 := rfl

@[simp] theorem amount_cons (r : CdrRecord) (rs : List CdrRecord) (c : Counter) :
    amount (r :: rs) c = adds r c + amount rs c := by simp [amount]

@[simp] theorem amount_append (rs rs' : List CdrRecord) (c : Counter) :
    amount (rs ++ rs') c = amount rs c + amount rs' c := by simp [amount]

/-! ## What the code makes of it -/

/-- The value the writers take from a delta and a batch's totals for a counter. -/
def countedValue (delta : Delta) (totals : Totals) : Counter → UInt64
  | .sub msisdn f => (delta.subs.read msisdn).get f
  | .op mccmnc f => (delta.ops.read mccmnc).get f
  | .link owner peer f => (delta.links.read ⟨owner, peer⟩).get f
  | .subBoard msisdn b => (delta.subs.read msisdn).score b
  | .opBoard mccmnc b => (delta.ops.read mccmnc).score b
  | .total f => totals.get f

/-- The value a batch is written with. -/
def batchValue (batch : List CdrRecord) (c : Counter) : UInt64 :=
  countedValue (fold batch {}) (({} : Totals).addBatch batch) c

/-- What the switch of `fold` adds to a subscriber. -/
def addSub (r : CdrRecord) (s : SubDelta) : SubDelta :=
  match r.usageType with
  | .moc => { s with voiceOut := s.voiceOut + r.duration }
  | .mtc => { s with voiceIn := s.voiceIn + r.duration }
  | .smsMo => { s with smsOut := s.smsOut + 1 }
  | .smsMt => { s with smsIn := s.smsIn + 1 }
  | .d => { s with
      dataRx := s.dataRx + r.bytesReceived, dataTx := s.dataTx + r.bytesTransmitted }
  | .u => { s with noans := s.noans + 1 }
  | .b => { s with busy := s.busy + 1 }
  | .x => { s with failed := s.failed + 1 }

def addOp (r : CdrRecord) (o : OpDelta) : OpDelta :=
  match r.usageType with
  | .moc => { o with voiceOut := o.voiceOut + r.duration }
  | .mtc => { o with voiceIn := o.voiceIn + r.duration }
  | .smsMo => { o with smsOut := o.smsOut + 1 }
  | .smsMt => { o with smsIn := o.smsIn + 1 }
  | _ => o

def addLeg (r : CdrRecord) (l : LinkDelta) : LinkDelta :=
  match r.usageType with
  | .moc => { l with dur := l.dur + r.duration, sms := l.sms + 0, cnt := l.cnt + 1 }
  | .mtc => { l with dur := l.dur + r.duration, sms := l.sms + 0, cnt := l.cnt + 1 }
  | .smsMo => { l with dur := l.dur + 0, sms := l.sms + 1, cnt := l.cnt + 0 }
  | .smsMt => { l with dur := l.dur + 0, sms := l.sms + 1, cnt := l.cnt + 0 }
  | _ => l

theorem addSub_get (r : CdrRecord) (s : SubDelta) (f : SubField) :
    (addSub r s).get f = s.get f + UInt64.ofNat (subAdds r f) := by
  unfold addSub subAdds
  cases r.usageType <;> cases f <;> simp [SubDelta.get]

theorem addOp_get (r : CdrRecord) (o : OpDelta) (f : OpField) :
    (addOp r o).get f = o.get f + UInt64.ofNat (opAdds r f) := by
  unfold addOp opAdds
  cases r.usageType <;> cases f <;> simp [OpDelta.get]

theorem addLeg_get (r : CdrRecord) (l : LinkDelta) (f : LinkField) :
    (addLeg r l).get f = l.get f + UInt64.ofNat (linkAdds r f) := by
  unfold addLeg linkAdds
  cases r.usageType <;> cases f <;> simp [LinkDelta.get]

theorem foldRecord_subs (out : Delta) (r : CdrRecord) :
    (foldRecord out r).subs = if r.subscriberMSISDN = 0 then out.subs
      else out.subs.modify r.subscriberMSISDN (addSub r) := by
  unfold foldRecord
  split
  · rfl
  · unfold addSub; cases r.usageType <;> rfl

/-- The types that count for no operator leave its entry as it is. -/
theorem foldRecord_ops (out : Delta) (r : CdrRecord) :
    (foldRecord out r).ops = if r.subscriberMSISDN = 0 ∨ mccmncOf r = 0 then out.ops
      else out.ops.modify (mccmncOf r) (addOp r) := by
  unfold foldRecord
  by_cases hs : r.subscriberMSISDN = 0
  · simp [hs]
  · by_cases hm : mccmncOf r = 0
    · rw [if_neg hs, if_pos (.inr hm)]
      cases r.usageType <;> simp [countRecord, linkRecord, hm]
    · rw [if_neg hs, if_neg (by simp [hs, hm])]
      unfold addOp
      cases r.usageType <;> simp [countRecord, linkRecord, hm] <;> rfl

/-- The types that name two parties. -/
def linked : UsageType → Bool
  | .moc | .mtc | .smsMo | .smsMt => true
  | _ => false

theorem foldRecord_links (out : Delta) (r : CdrRecord) :
    (foldRecord out r).links =
      if r.subscriberMSISDN ≠ 0 ∧ r.secondPartyMSISDN ≠ 0 ∧ linked r.usageType then
        (out.links.modify ⟨r.subscriberMSISDN, r.secondPartyMSISDN⟩ (addLeg r)).modify
          ⟨r.secondPartyMSISDN, r.subscriberMSISDN⟩ (addLeg r)
      else out.links := by
  unfold foldRecord
  by_cases hs : r.subscriberMSISDN = 0
  · simp [hs]
  · unfold addLeg
    by_cases hp : r.secondPartyMSISDN = 0
    · cases r.usageType <;> simp [hs, hp, linkRecord, countRecord, addLink]
    · cases r.usageType <;> simp [hs, hp, linkRecord, countRecord, addLink, linked]

theorem foldRecord_sub_get (out : Delta) (r : CdrRecord) (m : UInt64) (f : SubField) :
    ((foldRecord out r).subs.read m).get f =
      (out.subs.read m).get f + UInt64.ofNat (subPart r m f) := by
  rw [foldRecord_subs]
  unfold subPart
  by_cases hs : r.subscriberMSISDN = 0
  · simp [hs]
  · rw [if_neg hs, Table.measure_modify _ _ _ (g := fun s => s.get f) (addSub_get r · f)]
    by_cases hm : m = r.subscriberMSISDN
    · rw [if_pos hm, if_pos ⟨hs, hm.symm⟩]
    · rw [if_neg hm, if_neg (fun h => hm h.2.symm)]
      rfl

theorem foldRecord_op_get (out : Delta) (r : CdrRecord) (k : UInt32) (f : OpField) :
    ((foldRecord out r).ops.read k).get f =
      (out.ops.read k).get f + UInt64.ofNat (opPart r k f) := by
  rw [foldRecord_ops]
  unfold opPart
  by_cases hs : r.subscriberMSISDN = 0 ∨ mccmncOf r = 0
  · rw [if_pos hs, if_neg (by tauto)]
    simp
  · rw [if_neg hs, Table.measure_modify _ _ _ (g := fun o => o.get f) (addOp_get r · f)]
    push Not at hs
    by_cases hk : k = mccmncOf r
    · rw [if_pos hk, if_pos ⟨hs.1, hs.2, hk.symm⟩]
    · rw [if_neg hk, if_neg (fun h => hk h.2.2.symm)]
      rfl

theorem foldRecord_link_get (out : Delta) (r : CdrRecord) (a b : UInt64) (f : LinkField) :
    ((foldRecord out r).links.read ⟨a, b⟩).get f =
      (out.links.read ⟨a, b⟩).get f + UInt64.ofNat (linkPart r a b f) := by
  rw [foldRecord_links]
  unfold linkPart
  by_cases hsp : r.subscriberMSISDN ≠ 0 ∧ r.secondPartyMSISDN ≠ 0
  · rw [if_pos hsp]
    by_cases hl : linked r.usageType = true
    · rw [if_pos ⟨hsp.1, hsp.2, hl⟩,
        Table.measure_modify _ _ _ (g := fun l => l.get f) (addLeg_get r · f),
        Table.measure_modify _ _ _ (g := fun l => l.get f) (addLeg_get r · f),
        UInt64.ofNat_add, add_assoc]
      have hleg : ∀ x y : UInt64, (if (⟨a, b⟩ : LinkKey) = ⟨x, y⟩ then
          UInt64.ofNat (linkAdds r f) else 0) =
            UInt64.ofNat (if x = a ∧ y = b then linkAdds r f else 0) := by
        intro x y
        by_cases hk : x = a ∧ y = b
        · obtain ⟨rfl, rfl⟩ := hk; simp
        · rw [if_neg hk, if_neg (by rintro h; cases h; exact hk ⟨rfl, rfl⟩)]; rfl
      rw [hleg, hleg]
    · have h0 : linkAdds r f = 0 := by
        unfold linked at hl
        unfold linkAdds
        cases hu : r.usageType <;> simp_all
      rw [if_neg (fun h => hl h.2.2), h0]
      simp
  · rw [if_neg hsp, if_neg (fun h => hsp ⟨h.1, h.2.1⟩)]
    simp

theorem totals_add_get (t : Totals) (r : CdrRecord) (f : TotalField) :
    (t.add r).get f = t.get f + UInt64.ofNat (totalAdds r f) := by
  unfold Totals.add totalAdds
  cases r.usageType <;> cases f <;> simp [Totals.get]

/-- **One record.**  It raises every value by what it adds to the counter. -/
theorem countedValue_step (out : Delta) (t : Totals) (r : CdrRecord) (c : Counter) :
    countedValue (foldRecord out r) (t.add r) c =
      countedValue out t c + UInt64.ofNat (adds r c) := by
  cases c with
  | sub m f => exact foldRecord_sub_get out r m f
  | op k f => exact foldRecord_op_get out r k f
  | link a b f => exact foldRecord_link_get out r a b f
  | subBoard m b =>
    have h := foldRecord_sub_get out r m
    cases b <;> simp only [countedValue, adds, SubDelta.score, UInt64.ofNat_add]
    · exact (congrArg₂ (· + ·) (h .voiceOut) (h .voiceIn)).trans (add_add_add_comm _ _ _ _)
    · exact (congrArg₂ (· + ·) (h .smsOut) (h .smsIn)).trans (add_add_add_comm _ _ _ _)
    · exact (congrArg₂ (· + ·) (h .dataRx) (h .dataTx)).trans (add_add_add_comm _ _ _ _)
    · have h2 := (congrArg₂ (· + ·) (h .noans) (h .busy)).trans (add_add_add_comm _ _ _ _)
      exact (congrArg₂ (· + ·) h2 (h .failed)).trans (add_add_add_comm _ _ _ _)
  | opBoard k b =>
    have h := foldRecord_op_get out r k
    cases b <;> simp only [countedValue, adds, OpDelta.score, UInt64.ofNat_add]
    · exact (congrArg₂ (· + ·) (h .voiceOut) (h .voiceIn)).trans (add_add_add_comm _ _ _ _)
    · exact (congrArg₂ (· + ·) (h .smsOut) (h .smsIn)).trans (add_add_add_comm _ _ _ _)
  | total f => exact totals_add_get t r f

theorem countedValue_fold (batch : List CdrRecord) (out : Delta) (t : Totals) (c : Counter) :
    countedValue (batch.foldl foldRecord out) (batch.foldl Totals.add t) c =
      countedValue out t c + UInt64.ofNat (amount batch c) := by
  induction batch generalizing out t with
  | nil => simp
  | cons r batch ih =>
    rw [List.foldl_cons, List.foldl_cons, ih, countedValue_step, amount_cons, UInt64.ofNat_add,
      add_assoc]

theorem countedValue_empty (c : Counter) : countedValue {} {} c = 0 := by
  cases c with
  | sub m f => cases f <;> rfl
  | op k f => cases f <;> rfl
  | link a b f => cases f <;> rfl
  | subBoard m b => cases b <;> rfl
  | opBoard k b => cases b <;> rfl
  | total f => cases f <;> rfl

/-- **A whole batch.**  What it is written with is what its records add up to,
modulo 2^64. -/
theorem batchValue_eq (batch : List CdrRecord) (c : Counter) :
    batchValue batch c = UInt64.ofNat (amount batch c) := by
  have h := countedValue_fold batch {} {} c
  rw [countedValue_empty, zero_add] at h
  exact h

theorem batchValue_toNat {batch : List CdrRecord} {c : Counter}
    (h : amount batch c < 2 ^ 64) : (batchValue batch c).toNat = amount batch c := by
  rw [batchValue_eq, UInt64.toNat_ofNat']
  exact Nat.mod_eq_of_lt h

end CdrProcessor
