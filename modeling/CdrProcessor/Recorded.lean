import CdrProcessor.Batching
import CdrProcessor.Links

/-! What a list of batches leaves in a store that was empty: under the key of every number
stands what its records come to, and nothing else. -/

namespace CdrProcessor

/-- Calls of `consume` one after the other, on a store that was empty. -/
def consumed (calls : List ConsumeCall) : Db := calls.foldl (fun db c => c.run db) {}

def recordsOf (calls : List ConsumeCall) : List CdrRecord := calls.flatMap ConsumeCall.batch

/-- The totals below which every number is exact. -/
def Exact (records : List CdrRecord) : Prop := ∀ c, amount records c < 2 ^ 53

/-- Only the counters the records name have to be looked at. -/
theorem exact_of_touched {records : List CdrRecord}
    (h : ∀ c ∈ records.flatMap touched, amount records c < 2 ^ 53) : Exact records := by
  intro c
  by_cases h0 : amount records c = 0
  · rw [h0]
    decide
  · exact h c (mem_flatMap_touched h0)

variable {calls : List ConsumeCall}

/-! ## Values -/

theorem consumed_value (hx : Exact (recordsOf calls)) (c : Counter) :
    (consumed calls).value c.place = if amount (recordsOf calls) c = 0 then none
      else some (amount (recordsOf calls) c) := by
  have hzero : ∀ p : Place, ({} : Db).value p = none := by
    intro p
    cases p <;> rfl
  have hcount : ∀ p : Place, ({} : Db).count p = 0 := by
    intro p
    unfold Db.count
    rw [hzero]
    rfl
  unfold consumed
  rw [calls_deposit calls {} (fun c _ => ?_), hzero, hcount, Nat.zero_add]
  · rfl
  · rw [hcount, Nat.zero_add]
    exact lt_of_lt_of_le (hx c) (le_bound c)

theorem consumed_count (hx : Exact (recordsOf calls)) (c : Counter) :
    (consumed calls).count c.place = amount (recordsOf calls) c := by
  unfold Db.count
  rw [consumed_value hx]
  split
  · next h => exact h.symm
  · rfl

/-- **Nothing else.**  What is found behind a key that is no source's mark belongs to a
counter. -/
theorem consumed_some (hx : Exact (recordsOf calls)) {key field : Text} {v : Nat}
    (hkey : key ≠ kProgressKey) (h : (consumed calls).value (.hash key field) = some v) :
    ∃ c : Counter, c.place = .hash key field ∧ amount (recordsOf calls) c ≠ 0 := by
  by_cases hc : ∃ c : Counter, c.place = .hash key field
  · obtain ⟨c, hc⟩ := hc
    refine ⟨c, hc, fun h0 => ?_⟩
    rw [← hc, consumed_value hx, if_pos h0] at h
    cases h
  · have hm : ∀ source, Place.hash key field ≠ markPlace source := by
      intro source heq
      simp only [markPlace, Place.hash.injEq] at heq
      exact hkey heq.1
    have := calls_other calls {} (fun c hp => hc ⟨c, hp.symm⟩) hm
    unfold consumed at h
    rw [this] at h
    cases h

/-! ## Keys -/

theorem sub_place {c : Counter} {n : Nat} {field : Text}
    (h : c.place = .hash (kSubPrefix ++ Decimal.digits n) field) :
    ∃ m f, c = .sub m f ∧ m.toNat = n ∧ f.name = field := by
  have hi := hash_initial h
  cases c with
  | sub m f =>
    simp only [Counter.place, Place.hash.injEq] at h
    exact ⟨m, f, rfl, Decimal.digits_injective (List.append_cancel_left h.1), h.2⟩
  | op | link | subBoard | opBoard | total => simp [initialOf, kSubPrefix] at hi

theorem op_place {c : Counter} {n : Nat} {field : Text}
    (h : c.place = .hash (kOpPrefix ++ Decimal.digits n) field) :
    ∃ k f, c = .op k f ∧ k.toNat = n ∧ f.name = field := by
  have hi := hash_initial h
  cases c with
  | op k f =>
    simp only [Counter.place, Place.hash.injEq] at h
    refine ⟨k, f, rfl, ?_, h.2⟩
    rw [← UInt32.toNat_toUInt64]
    exact Decimal.digits_injective (List.append_cancel_left h.1)
  | sub | link | subBoard | opBoard | total => simp [initialOf, kOpPrefix] at hi

theorem link_place {c : Counter} {s field : Text} (h : c.place = .hash (linkKey s) field) :
    ∃ a b f, c = .link a b f ∧ Decimal.digits a.toNat = s ∧
      Decimal.digits b.toNat ++ f.suffix = field := by
  have hi := hash_initial h
  cases c with
  | link a b f =>
    simp only [Counter.place, Place.hash.injEq] at h
    exact ⟨a, b, f, rfl, List.append_cancel_left h.1, h.2⟩
  | sub | op | subBoard | opBoard | total => simp [initialOf, linkKey, kLinkPrefix] at hi

theorem ne_progress {pre : Text} (hne : pre ≠ []) (hp : pre.head? ≠ some 'p') (s : Text) :
    pre ++ s ≠ kProgressKey := by
  intro h
  have hh := congrArg List.head? h
  rw [List.head?_append_of_ne_nil _ hne] at hh
  exact hp (hh.trans (by decide))

/-! ## Sums over records -/

/-- The sum of `g` over the records that `p` holds of. -/
def sumOver (records : List CdrRecord) (p : CdrRecord → Prop) [DecidablePred p]
    (g : CdrRecord → Nat) : Nat := ((records.filter p).map g).sum

theorem sumOver_eq (records : List CdrRecord) (p : CdrRecord → Prop) [DecidablePred p]
    (g : CdrRecord → Nat) :
    sumOver records p g = (records.map fun r => if p r then g r else 0).sum := by
  unfold sumOver
  induction records with
  | nil => rfl
  | cons r records ih =>
    by_cases hp : p r
    · simp [hp, ih]
    · simp [hp, ih]

/-- A record counts for subscriber `n`. -/
def OfSub (n : Nat) (r : CdrRecord) : Prop := r.subscriberMSISDN.toNat = n

/-- A record counts for operator `n`: without a subscriber it counts nowhere. -/
def OfOp (n : Nat) (r : CdrRecord) : Prop := r.subscriberMSISDN ≠ 0 ∧ (mccmncOf r).toNat = n

/-- A record names `a` and `b` as its two parties, in either role; 0 is no party. -/
def Names (a b : Nat) (r : CdrRecord) : Prop :=
  r.subscriberMSISDN ≠ 0 ∧ r.secondPartyMSISDN ≠ 0 ∧
    (r.subscriberMSISDN.toNat = a ∧ r.secondPartyMSISDN.toNat = b ∨
      r.subscriberMSISDN.toNat = b ∧ r.secondPartyMSISDN.toNat = a)

instance (n : Nat) : DecidablePred (OfSub n) := fun _ => inferInstanceAs (Decidable (_ = _))
instance (n : Nat) : DecidablePred (OfOp n) := fun _ => inferInstanceAs (Decidable (_ ∧ _))
instance (a b : Nat) : DecidablePred (Names a b) := fun _ => inferInstanceAs (Decidable (_ ∧ _))

theorem sumOver_sub (records : List CdrRecord) {m : UInt64} (hm : m ≠ 0) (f : SubField) :
    sumOver records (OfSub m.toNat) (subAdds · f) = amount records (.sub m f) := by
  rw [sumOver_eq]
  unfold amount
  refine congrArg List.sum (List.map_congr_left fun r _ => ?_)
  simp only [adds, subPart, OfSub, UInt64.toNat_inj]
  by_cases h : r.subscriberMSISDN = m
  · rw [if_pos h, if_pos ⟨h ▸ hm, h⟩]
  · rw [if_neg h, if_neg fun hc => h hc.2]

theorem sumOver_op (records : List CdrRecord) {k : UInt32} (hk : k ≠ 0) (f : OpField) :
    sumOver records (OfOp k.toNat) (opAdds · f) = amount records (.op k f) := by
  rw [sumOver_eq]
  unfold amount
  refine congrArg List.sum (List.map_congr_left fun r _ => ?_)
  simp only [adds, opPart, OfOp, UInt32.toNat_inj]
  by_cases h : mccmncOf r = k
  · by_cases hs : r.subscriberMSISDN = 0
    · rw [if_neg fun hc => hc.1 hs, if_neg fun hc => hc.1 hs]
    · rw [if_pos ⟨hs, h⟩, if_pos ⟨hs, h ▸ hk, h⟩]
  · rw [if_neg fun hc => h hc.2, if_neg fun hc => h hc.2.2]

/-- Between two different parties a record counts once on the leg. -/
theorem sumOver_link (records : List CdrRecord) {a b : UInt64} (hab : a ≠ b) (f : LinkField) :
    sumOver records (Names a.toNat b.toNat) (linkAdds · f) = amount records (.link a b f) := by
  rw [sumOver_eq]
  unfold amount
  refine congrArg List.sum (List.map_congr_left fun r _ => ?_)
  simp only [adds, linkPart, Names, UInt64.toNat_inj]
  by_cases h₀ : r.subscriberMSISDN ≠ 0 ∧ r.secondPartyMSISDN ≠ 0
  · rw [if_pos h₀]
    by_cases h₁ : r.subscriberMSISDN = a ∧ r.secondPartyMSISDN = b
    · rw [if_pos ⟨h₀.1, h₀.2, .inl h₁⟩, if_pos h₁, if_neg, Nat.add_zero]
      exact fun h₂ => hab (h₁.1.symm.trans h₂.2)
    · rw [if_neg h₁, Nat.zero_add]
      by_cases h₂ : r.secondPartyMSISDN = a ∧ r.subscriberMSISDN = b
      · rw [if_pos ⟨h₀.1, h₀.2, .inr h₂.symm⟩, if_pos h₂]
      · rw [if_neg h₂, if_neg]
        exact fun hc => hc.2.2.elim h₁ fun h => h₂ h.symm
  · rw [if_neg h₀, if_neg fun hc => h₀ ⟨hc.1, hc.2.1⟩]

theorem amount_eq_zero {c : Counter} (h : ∀ r, adds r c = 0) (records : List CdrRecord) :
    amount records c = 0 := by
  unfold amount
  simp [h]

theorem adds_sub_zero (r : CdrRecord) (f : SubField) : adds r (.sub 0 f) = 0 :=
  if_neg fun h => h.1 h.2

theorem adds_op_zero (r : CdrRecord) (f : OpField) : adds r (.op 0 f) = 0 :=
  if_neg fun h => h.2.1 h.2.2

theorem amount_link_comm (records : List CdrRecord) (a b : UInt64) (f : LinkField) :
    amount records (.link a b f) = amount records (.link b a f) :=
  congrArg List.sum (List.map_congr_left fun r _ => linkPart_comm r a b f)

/-- A contact of `a` and `b` is on record. -/
def Recorded (records : List CdrRecord) (a b : Nat) : Prop :=
  ∃ r ∈ records, Names a b r ∧ ∃ f, linkAdds r f ≠ 0

theorem linkPart_ne_zero {r : CdrRecord} {a b : UInt64} {f : LinkField} :
    linkPart r a b f ≠ 0 ↔ Names a.toNat b.toNat r ∧ linkAdds r f ≠ 0 := by
  unfold linkPart Names
  simp only [UInt64.toNat_inj]
  by_cases h : r.subscriberMSISDN ≠ 0 ∧ r.secondPartyMSISDN ≠ 0
  · rw [if_pos h, ne_eq, Nat.add_eq_zero_iff, ite_eq_right_iff, ite_eq_right_iff]
    tauto
  · rw [if_neg h]
    exact iff_of_false (fun hn => hn rfl) fun hn => h ⟨hn.1.1, hn.1.2.1⟩

/-- A pair has a contact on record where one of its numbers counts something. -/
theorem recorded_iff {records : List CdrRecord} {a b : UInt64} :
    Recorded records a.toNat b.toNat ↔ ∃ f, amount records (.link a b f) ≠ 0 := by
  have hsum : ∀ f, amount records (.link a b f) ≠ 0 ↔
      ∃ r ∈ records, linkPart r a b f ≠ 0 := by
    intro f
    unfold amount
    rw [ne_eq, List.sum_eq_zero_iff_forall_eq_nat]
    simp [adds]
  simp only [hsum, linkPart_ne_zero]
  constructor
  · rintro ⟨r, hr, hnames, f, hf⟩
    exact ⟨f, r, hr, hnames, hf⟩
  · rintro ⟨f, r, hr, hnames, hf⟩
    exact ⟨r, hr, hnames, f, hf⟩

/-- Whoever has a contact on record is a subscriber number. -/
theorem Recorded.numbers {records : List CdrRecord} {a b : Nat} (h : Recorded records a b) :
    ∃ x y : UInt64, x.toNat = a ∧ y.toNat = b := by
  obtain ⟨r, -, ⟨-, -, ⟨ha, hb⟩ | ⟨hb, ha⟩⟩, -⟩ := h
  · exact ⟨_, _, ha, hb⟩
  · exact ⟨_, _, ha, hb⟩

/-! ## Batch after batch -/

theorem amount_take_le (calls : List ConsumeCall) (n : Nat) (c : Counter) :
    amount (recordsOf (calls.take n)) c ≤ amount (recordsOf calls) c := by
  conv_rhs => rw [← List.take_append_drop n calls]
  unfold recordsOf
  rw [List.flatMap_append, amount_append]
  exact Nat.le_add_right _ _

end CdrProcessor
