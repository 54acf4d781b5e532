import CdrProcessor.Counter

/-! The totals of a batch against what it was folded into.  The two are counted apart, by
two switches with checks of their own; here each of the totals is found again in the
entries, and in the records that made none. -/

namespace CdrProcessor

/-- The sum of `g` over the records that `p` holds of, as a counter adds it up. -/
def tally (batch : List CdrRecord) (p : CdrRecord → Prop) [DecidablePred p]
    (g : CdrRecord → UInt64) : UInt64 := ((batch.filter p).map g).sum

theorem tally_eq (batch : List CdrRecord) (p : CdrRecord → Prop) [DecidablePred p]
    (g : CdrRecord → UInt64) :
    tally batch p g = (batch.map fun r => if p r then g r else 0).sum := by
  unfold tally
  induction batch with
  | nil => rfl
  | cons r batch ih =>
    by_cases hp : p r
    · simp [hp, ih]
    · simp [hp, ih]

/-- Its operator code is not 0. -/
def OfOperator (r : CdrRecord) : Prop := 10000000000 ≤ r.subscriberImsi ∧ r.subscriberMSISDN ≠ 0

instance : DecidablePred OfOperator := fun _ => inferInstanceAs (Decidable (_ ∧ _))

/-- What a batch's totals and its delta say of each other, modulo 2^64. -/
structure Conserved (batch : List CdrRecord) (delta : Delta) (t : Totals) : Prop where
  records : t.records = UInt64.ofNat batch.length
  types : t.records = t.mocCnt + t.mtcCnt + t.smsMoCnt + t.smsMtCnt + t.dataCnt + t.noansCnt +
    t.busyCnt + t.failedCnt
  mocDur : t.mocDur = delta.subs.total (·.voiceOut) +
    tally batch (fun r => r.usageType = .moc ∧ r.subscriberMSISDN = 0) (·.duration)
  mtcDur : t.mtcDur = delta.subs.total (·.voiceIn) +
    tally batch (fun r => r.usageType = .mtc ∧ r.subscriberMSISDN = 0) (·.duration)
  smsMoCnt : t.smsMoCnt = delta.subs.total (·.smsOut) +
    tally batch (fun r => r.usageType = .smsMo ∧ r.subscriberMSISDN = 0) (fun _ => 1)
  smsMtCnt : t.smsMtCnt = delta.subs.total (·.smsIn) +
    tally batch (fun r => r.usageType = .smsMt ∧ r.subscriberMSISDN = 0) (fun _ => 1)
  dataRx : t.dataRx = delta.subs.total (·.dataRx) +
    tally batch (fun r => r.usageType = .d ∧ r.subscriberMSISDN = 0) (·.bytesReceived)
  dataTx : t.dataTx = delta.subs.total (·.dataTx) +
    tally batch (fun r => r.usageType = .d ∧ r.subscriberMSISDN = 0) (·.bytesTransmitted)
  noansCnt : t.noansCnt = delta.subs.total (·.noans) +
    tally batch (fun r => r.usageType = .u ∧ r.subscriberMSISDN = 0) (fun _ => 1)
  busyCnt : t.busyCnt = delta.subs.total (·.busy) +
    tally batch (fun r => r.usageType = .b ∧ r.subscriberMSISDN = 0) (fun _ => 1)
  failedCnt : t.failedCnt = delta.subs.total (·.failed) +
    tally batch (fun r => r.usageType = .x ∧ r.subscriberMSISDN = 0) (fun _ => 1)
  opVoiceOut : delta.ops.total (·.voiceOut) =
    tally batch (fun r => r.usageType = .moc ∧ OfOperator r) (·.duration)
  opVoiceIn : delta.ops.total (·.voiceIn) =
    tally batch (fun r => r.usageType = .mtc ∧ OfOperator r) (·.duration)
  opSmsOut : delta.ops.total (·.smsOut) =
    tally batch (fun r => r.usageType = .smsMo ∧ OfOperator r) (fun _ => 1)
  opSmsIn : delta.ops.total (·.smsIn) =
    tally batch (fun r => r.usageType = .smsMt ∧ OfOperator r) (fun _ => 1)
  linkCnt : delta.links.total (·.cnt) =
    2 * tally batch (fun r => (r.usageType = .moc ∨ r.usageType = .mtc) ∧
      r.subscriberMSISDN ≠ 0 ∧ r.secondPartyMSISDN ≠ 0) (fun _ => 1)

/-! ## One record -/

theorem foldRecord_subs_total (out : Delta) (r : CdrRecord) (f : SubField) :
    (foldRecord out r).subs.total (·.get f) = out.subs.total (·.get f) +
      if r.subscriberMSISDN = 0 then 0 else UInt64.ofNat (subAdds r f) := by
  rw [foldRecord_subs]
  split
  · exact (add_zero _).symm
  · exact Table.total_modify _ _ (by cases f <;> rfl) fun s => addSub_get r s f

theorem foldRecord_ops_total (out : Delta) (r : CdrRecord) (f : OpField) :
    (foldRecord out r).ops.total (·.get f) = out.ops.total (·.get f) +
      if r.subscriberMSISDN = 0 ∨ mccmncOf r = 0 then 0 else UInt64.ofNat (opAdds r f) := by
  rw [foldRecord_ops]
  split
  · exact (add_zero _).symm
  · exact Table.total_modify _ _ (by cases f <;> rfl) fun o => addOp_get r o f

/-- Both legs are entered, also where they are one. -/
theorem foldRecord_links_total (out : Delta) (r : CdrRecord) (f : LinkField) :
    (foldRecord out r).links.total (·.get f) = out.links.total (·.get f) +
      if r.subscriberMSISDN ≠ 0 ∧ r.secondPartyMSISDN ≠ 0 ∧ linked r.usageType then
        UInt64.ofNat (linkAdds r f) + UInt64.ofNat (linkAdds r f) else 0 := by
  have h0 : (default : LinkDelta).get f = 0 := by cases f <;> rfl
  rw [foldRecord_links]
  split
  · rw [Table.total_modify _ _ h0 fun l => addLeg_get r l f,
      Table.total_modify _ _ h0 fun l => addLeg_get r l f, add_assoc]
  · exact (add_zero _).symm

/-! ## A whole batch -/

/-- What every record raises by an amount of its own is raised by their sum. -/
theorem foldl_measure {σ : Type} (step : σ → CdrRecord → σ) (g : σ → UInt64)
    (d : CdrRecord → UInt64) (h : ∀ s r, g (step s r) = g s + d r) (batch : List CdrRecord)
    (s : σ) : g (batch.foldl step s) = g s + (batch.map d).sum := by
  induction batch generalizing s with
  | nil => simp
  | cons r batch ih => rw [List.foldl_cons, ih, h, List.map_cons, List.sum_cons, add_assoc]

theorem fold_subs_total (batch : List CdrRecord) (out : Delta) (f : SubField) :
    (fold batch out).subs.total (·.get f) =
      tally batch (fun r => r.subscriberMSISDN ≠ 0) (fun r => UInt64.ofNat (subAdds r f)) := by
  unfold fold
  rw [foldl_measure foldRecord (fun d => d.subs.total (·.get f)) _
    (fun s r => foldRecord_subs_total s r f), tally_eq]
  simp

theorem fold_ops_total (batch : List CdrRecord) (out : Delta) (f : OpField) :
    (fold batch out).ops.total (·.get f) =
      tally batch (fun r => ¬ (r.subscriberMSISDN = 0 ∨ mccmncOf r = 0))
        (fun r => UInt64.ofNat (opAdds r f)) := by
  unfold fold
  rw [foldl_measure foldRecord (fun d => d.ops.total (·.get f)) _
    (fun s r => foldRecord_ops_total s r f), tally_eq]
  simp only [Table.total_empty, zero_add, ite_not]

theorem fold_links_total (batch : List CdrRecord) (out : Delta) (f : LinkField) :
    (fold batch out).links.total (·.get f) =
      tally batch (fun r => r.subscriberMSISDN ≠ 0 ∧ r.secondPartyMSISDN ≠ 0 ∧
        linked r.usageType = true)
        (fun r => UInt64.ofNat (linkAdds r f) + UInt64.ofNat (linkAdds r f)) := by
  unfold fold
  rw [foldl_measure foldRecord (fun d => d.links.total (·.get f)) _
    (fun s r => foldRecord_links_total s r f), tally_eq]
  simp only [Table.total_empty, zero_add]

theorem addBatch_get (batch : List CdrRecord) (f : TotalField) :
    (({} : Totals).addBatch batch).get f =
      (batch.map fun r => UInt64.ofNat (totalAdds r f)).sum := by
  unfold Totals.addBatch
  rw [foldl_measure Totals.add (·.get f) _ fun t r => totals_add_get t r f]
  have h0 : ({} : Totals).get f = 0 := by cases f <;> rfl
  rw [h0, zero_add]

/-! ## What is found again where -/

/-- An IMSI of eleven digits and more has an operator code: the cast loses nothing. -/
theorem mccmncOf_eq_zero (r : CdrRecord) : mccmncOf r = 0 ↔ r.subscriberImsi < 10000000000 := by
  unfold mccmncOf kMsinDivisor
  have hlt := r.subscriberImsi.toNat_lt
  rw [← UInt32.toNat_inj, UInt64.lt_iff_toNat_lt, UInt64.toNat_toUInt32, UInt64.toNat_div]
  change r.subscriberImsi.toNat / 10000000000 % 2 ^ 32 = 0 ↔ r.subscriberImsi.toNat < 10000000000
  omega

/-- A total that counts what a subscriber's counter does is that counter over all entries,
and the records that no entry was made for. -/
theorem total_conserved (batch : List CdrRecord) (out : Delta) {F : TotalField} {f : SubField}
    (type : UsageType) (g : CdrRecord → UInt64)
    (hF : ∀ r, UInt64.ofNat (totalAdds r F) = if r.usageType = type then g r else 0)
    (hf : ∀ r, UInt64.ofNat (subAdds r f) = if r.usageType = type then g r else 0) :
    (({} : Totals).addBatch batch).get F = (fold batch out).subs.total (·.get f) +
      tally batch (fun r => r.usageType = type ∧ r.subscriberMSISDN = 0) g := by
  rw [addBatch_get, fold_subs_total, tally_eq, tally_eq, ← List.sum_map_add]
  refine congrArg List.sum (List.map_congr_left fun r _ => ?_)
  rw [hF, hf]
  by_cases hu : r.usageType = type
  · by_cases hs : r.subscriberMSISDN = 0
    · simp [hu, hs]
    · simp [hu, hs]
  · simp [hu]

theorem ops_conserved (batch : List CdrRecord) (out : Delta) {f : OpField} (type : UsageType)
    (g : CdrRecord → UInt64)
    (hf : ∀ r, UInt64.ofNat (opAdds r f) = if r.usageType = type then g r else 0) :
    (fold batch out).ops.total (·.get f) =
      tally batch (fun r => r.usageType = type ∧ OfOperator r) g := by
  rw [fold_ops_total, tally_eq, tally_eq]
  refine congrArg List.sum (List.map_congr_left fun r _ => ?_)
  have hop : ¬ (r.subscriberMSISDN = 0 ∨ mccmncOf r = 0) ↔ OfOperator r := by
    unfold OfOperator
    rw [mccmncOf_eq_zero, not_or, UInt64.not_lt, and_comm]
  simp only [hf, hop]
  by_cases hu : r.usageType = type
  · simp [hu]
  · simp [hu]

theorem links_conserved (batch : List CdrRecord) (out : Delta) :
    (fold batch out).links.total (·.get .cnt) =
      2 * tally batch (fun r => (r.usageType = .moc ∨ r.usageType = .mtc) ∧
        r.subscriberMSISDN ≠ 0 ∧ r.secondPartyMSISDN ≠ 0) (fun _ => 1) := by
  have htwo : ∀ x : UInt64, 2 * x = x + x := by grind
  rw [fold_links_total, htwo, tally_eq, tally_eq, ← List.sum_map_add]
  refine congrArg List.sum (List.map_congr_left fun r _ => ?_)
  by_cases h : r.subscriberMSISDN ≠ 0 ∧ r.secondPartyMSISDN ≠ 0
  · cases hu : r.usageType <;> simp [h.1, h.2, hu, linked, linkAdds]
  · rw [if_neg fun hc => h ⟨hc.1, hc.2.1⟩, if_neg fun hc => h hc.2]
    rfl

theorem sum_ones (batch : List CdrRecord) :
    (batch.map fun _ => (1 : UInt64)).sum = UInt64.ofNat batch.length := by
  induction batch with
  | nil => rfl
  | cons r batch ih =>
    rw [List.map_cons, List.sum_cons, ih, List.length_cons, UInt64.ofNat_add, add_comm]
    rfl

/-- **Totals and entries conserve each other**, for every batch. -/
theorem totals_conserved (batch : List CdrRecord) (out : Delta) :
    Conserved batch (fold batch out) (({} : Totals).addBatch batch) where
  records := by
    refine (addBatch_get batch .records).trans ((congrArg List.sum ?_).trans (sum_ones batch))
    refine List.map_congr_left fun r _ => ?_
    unfold totalAdds
    cases r.usageType <;> rfl
  types := by
    have h := addBatch_get batch
    refine (h .records).trans ?_
    refine Eq.trans ?_ (congrArg₂ (· + ·) (congrArg₂ (· + ·) (congrArg₂ (· + ·) (congrArg₂ (· + ·)
      (congrArg₂ (· + ·) (congrArg₂ (· + ·) (congrArg₂ (· + ·) (h .mocCnt) (h .mtcCnt)) (h .smsMoCnt))
      (h .smsMtCnt)) (h .dataCnt)) (h .noansCnt)) (h .busyCnt)) (h .failedCnt)).symm
    simp only [← List.sum_map_add]
    refine congrArg List.sum (List.map_congr_left fun r _ => ?_)
    unfold totalAdds
    cases r.usageType <;> rfl
  mocDur := total_conserved batch out (F := .mocDur) (f := .voiceOut) .moc (·.duration)
    (fun r => by unfold totalAdds; cases r.usageType <;> simp)
    (fun r => by unfold subAdds; cases r.usageType <;> simp)
  mtcDur := total_conserved batch out (F := .mtcDur) (f := .voiceIn) .mtc (·.duration)
    (fun r => by unfold totalAdds; cases r.usageType <;> simp)
    (fun r => by unfold subAdds; cases r.usageType <;> simp)
  smsMoCnt := total_conserved batch out (F := .smsMoCnt) (f := .smsOut) .smsMo (fun _ => 1)
    (fun r => by unfold totalAdds; cases r.usageType <;> simp)
    (fun r => by unfold subAdds; cases r.usageType <;> simp)
  smsMtCnt := total_conserved batch out (F := .smsMtCnt) (f := .smsIn) .smsMt (fun _ => 1)
    (fun r => by unfold totalAdds; cases r.usageType <;> simp)
    (fun r => by unfold subAdds; cases r.usageType <;> simp)
  dataRx := total_conserved batch out (F := .dataRx) (f := .dataRx) .d (·.bytesReceived)
    (fun r => by unfold totalAdds; cases r.usageType <;> simp)
    (fun r => by unfold subAdds; cases r.usageType <;> simp)
  dataTx := total_conserved batch out (F := .dataTx) (f := .dataTx) .d (·.bytesTransmitted)
    (fun r => by unfold totalAdds; cases r.usageType <;> simp)
    (fun r => by unfold subAdds; cases r.usageType <;> simp)
  noansCnt := total_conserved batch out (F := .noansCnt) (f := .noans) .u (fun _ => 1)
    (fun r => by unfold totalAdds; cases r.usageType <;> simp)
    (fun r => by unfold subAdds; cases r.usageType <;> simp)
  busyCnt := total_conserved batch out (F := .busyCnt) (f := .busy) .b (fun _ => 1)
    (fun r => by unfold totalAdds; cases r.usageType <;> simp)
    (fun r => by unfold subAdds; cases r.usageType <;> simp)
  failedCnt := total_conserved batch out (F := .failedCnt) (f := .failed) .x (fun _ => 1)
    (fun r => by unfold totalAdds; cases r.usageType <;> simp)
    (fun r => by unfold subAdds; cases r.usageType <;> simp)
  opVoiceOut := ops_conserved batch out (f := .voiceOut) .moc (·.duration)
    (fun r => by unfold opAdds; cases r.usageType <;> simp)
  opVoiceIn := ops_conserved batch out (f := .voiceIn) .mtc (·.duration)
    (fun r => by unfold opAdds; cases r.usageType <;> simp)
  opSmsOut := ops_conserved batch out (f := .smsOut) .smsMo (fun _ => 1)
    (fun r => by unfold opAdds; cases r.usageType <;> simp)
  opSmsIn := ops_conserved batch out (f := .smsIn) .smsMt (fun _ => 1)
    (fun r => by unfold opAdds; cases r.usageType <;> simp)
  linkCnt := links_conserved batch out

end CdrProcessor
