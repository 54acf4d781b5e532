import CdrProcessor.Conserved
import Mathlib.Algebra.Order.BigOperators.Group.List
import Mathlib.Algebra.Order.Group.Nat

/-! What the links of a batch hold of the contacts in it.  A record counts on the leg of
each of its two parties, and twice over where the two are one number. -/

namespace CdrProcessor

/-- A record names `o` and `p` as its two parties, in either role; 0 is no party. -/
def Between (o p : UInt64) (r : CdrRecord) : Prop :=
  r.subscriberMSISDN ≠ 0 ∧ r.secondPartyMSISDN ≠ 0 ∧
    (r.subscriberMSISDN = o ∧ r.secondPartyMSISDN = p ∨
      r.secondPartyMSISDN = o ∧ r.subscriberMSISDN = p)

instance (o p : UInt64) : DecidablePred (Between o p) :=
  fun _ => inferInstanceAs (Decidable (_ ∧ _))

/-- Each contact between `o` and `p` counted once: the seconds and the number of their
calls, and the number of their messages. -/
def contactsOf (batch : List CdrRecord) (o p : UInt64) : LinkDelta where
  dur := tally batch
    (fun r => (r.usageType = .moc ∨ r.usageType = .mtc) ∧ Between o p r) (·.duration)
  sms := tally batch
    (fun r => (r.usageType = .smsMo ∨ r.usageType = .smsMt) ∧ Between o p r) (fun _ => 1)
  cnt := tally batch
    (fun r => (r.usageType = .moc ∨ r.usageType = .mtc) ∧ Between o p r) (fun _ => 1)

/-- The entry from `o` to `p` has each of their contacts once, and so has the one back. -/
def CountedOnce (batch : List CdrRecord) (delta : Delta) (o p : UInt64) : Prop :=
  delta.links.read ⟨o, p⟩ = contactsOf batch o p ∧
    delta.links.read ⟨o, p⟩ = delta.links.read ⟨p, o⟩

/-- A call or a message of a number with itself. -/
def SelfContact (r : CdrRecord) : Prop :=
  linked r.usageType = true ∧ r.subscriberMSISDN ≠ 0 ∧ r.subscriberMSISDN = r.secondPartyMSISDN

instance : DecidablePred SelfContact := fun _ => inferInstanceAs (Decidable (_ ∧ _))

/-! ## Entries field by field -/

theorem LinkDelta.ext_get {l l' : LinkDelta} (h : ∀ f, l.get f = l'.get f) : l = l' := by
  obtain ⟨dur, sms, cnt⟩ := l
  obtain ⟨dur', sms', cnt'⟩ := l'
  have hd := h .dur
  have hs := h .sms
  have hc := h .cnt
  simp only [LinkDelta.get] at hd hs hc
  rw [hd, hs, hc]

theorem fold_link_get (batch : List CdrRecord) (out : Delta) (o p : UInt64) (f : LinkField) :
    ((fold batch out).links.read ⟨o, p⟩).get f =
      (batch.map fun r => UInt64.ofNat (linkPart r o p f)).sum := by
  unfold fold
  rw [foldl_measure foldRecord (fun d => (d.links.read ⟨o, p⟩).get f) _
    fun s r => foldRecord_link_get s r o p f]
  have h0 : (default : LinkDelta).get f = 0 := by cases f <;> rfl
  rw [Table.read_empty, h0, zero_add]

theorem linkAdds_zero {r : CdrRecord} (h : ¬ linked r.usageType = true) (f : LinkField) :
    linkAdds r f = 0 := by
  unfold linked at h
  unfold linkAdds
  cases hu : r.usageType <;> simp_all

theorem contactsOf_get (batch : List CdrRecord) (o p : UInt64) (f : LinkField) :
    (contactsOf batch o p).get f =
      (batch.map fun r => if Between o p r then UInt64.ofNat (linkAdds r f) else 0).sum := by
  have hall : ∀ (types : CdrRecord → Prop) [DecidablePred types] (g : CdrRecord → UInt64),
      (∀ r, (if types r then g r else 0) = UInt64.ofNat (linkAdds r f)) →
      tally batch (fun r => types r ∧ Between o p r) g =
        (batch.map fun r => if Between o p r then UInt64.ofNat (linkAdds r f) else 0).sum := by
    intro types _ g hg
    rw [tally_eq]
    refine congrArg List.sum (List.map_congr_left fun r _ => ?_)
    rw [← hg]
    by_cases hb : Between o p r
    · simp [hb]
    · simp [hb]
  cases f with
  | dur => exact hall _ _ fun r => by unfold linkAdds; cases r.usageType <;> simp
  | sms => exact hall _ _ fun r => by unfold linkAdds; cases r.usageType <;> simp
  | cnt => exact hall _ _ fun r => by unfold linkAdds; cases r.usageType <;> simp

/-! ## One record -/

theorem linkPart_of_between {r : CdrRecord} (hs : ¬ SelfContact r) (o p : UInt64)
    (f : LinkField) : linkPart r o p f = if Between o p r then linkAdds r f else 0 := by
  by_cases hl : linked r.usageType = true
  · have hne : r.subscriberMSISDN ≠ 0 → r.subscriberMSISDN ≠ r.secondPartyMSISDN :=
      fun h0 he => hs ⟨hl, h0, he⟩
    unfold linkPart
    by_cases h0 : r.subscriberMSISDN ≠ 0 ∧ r.secondPartyMSISDN ≠ 0
    · rw [if_pos h0]
      by_cases h₁ : r.subscriberMSISDN = o ∧ r.secondPartyMSISDN = p
      · -- in both roles at once it would be a contact with itself
        have h₂ : ¬ (r.secondPartyMSISDN = o ∧ r.subscriberMSISDN = p) :=
          fun h₂ => hne h0.1 (h₁.1.trans h₂.1.symm)
        rw [if_pos h₁, if_neg h₂, if_pos ⟨h0.1, h0.2, .inl h₁⟩, Nat.add_zero]
      · rw [if_neg h₁, Nat.zero_add]
        by_cases h₂ : r.secondPartyMSISDN = o ∧ r.subscriberMSISDN = p
        · rw [if_pos h₂, if_pos ⟨h0.1, h0.2, .inr h₂⟩]
        · rw [if_neg h₂, if_neg fun hb => hb.2.2.elim h₁ h₂]
    · rw [if_neg h0, if_neg fun hb => h0 ⟨hb.1, hb.2.1⟩]
  · have h0 : linkAdds r f = 0 := linkAdds_zero hl f
    unfold linkPart
    simp [h0]

/-- On the leg of a number to itself a record counts twice. -/
theorem linkPart_self (r : CdrRecord) (o : UInt64) (f : LinkField) :
    linkPart r o o f = if Between o o r then linkAdds r f + linkAdds r f else 0 := by
  unfold linkPart
  by_cases hb : Between o o r
  · obtain ⟨h1, h2, h3⟩ := hb
    have hboth : r.subscriberMSISDN = o ∧ r.secondPartyMSISDN = o :=
      h3.elim id And.symm
    rw [if_pos ⟨h1, h2⟩, if_pos hboth, if_pos hboth.symm, if_pos ⟨h1, h2, h3⟩]
  · rw [if_neg hb]
    by_cases h0 : r.subscriberMSISDN ≠ 0 ∧ r.secondPartyMSISDN ≠ 0
    · rw [if_pos h0, if_neg fun h => hb ⟨h0.1, h0.2, .inl h⟩,
        if_neg fun h => hb ⟨h0.1, h0.2, .inr h⟩]
    · rw [if_neg h0]

/-! ## A whole batch -/

theorem sum_ofNat (batch : List CdrRecord) (g : CdrRecord → Nat) :
    (batch.map fun r => UInt64.ofNat (g r)).sum = UInt64.ofNat (batch.map g).sum := by
  induction batch with
  | nil => rfl
  | cons r batch ih =>
    rw [List.map_cons, List.sum_cons, ih, List.map_cons, List.sum_cons, UInt64.ofNat_add]

/-- A batch with a contact of a number with itself has an entry that holds it twice. -/
theorem self_counted_twice {batch : List CdrRecord} (hb : batch.length < 2 ^ 64) (out : Delta)
    {r : CdrRecord} (hr : r ∈ batch) (hs : SelfContact r) :
    (fold batch out).links.read ⟨r.subscriberMSISDN, r.subscriberMSISDN⟩ ≠
      contactsOf batch r.subscriberMSISDN r.subscriberMSISDN := by
  obtain ⟨hl, h0, heq⟩ := hs
  generalize ho : r.subscriberMSISDN = o at h0 heq ⊢
  -- a call has one in `cnt`, a message in `sms`, and no record more than one
  obtain ⟨f, hone, hle⟩ : ∃ f, linkAdds r f = 1 ∧ ∀ r', linkAdds r' f ≤ 1 := by
    cases hu : r.usageType with
    | moc | mtc =>
      refine ⟨.cnt, by simp [linkAdds, hu], fun r' => ?_⟩
      unfold linkAdds
      cases r'.usageType <;> simp
    | smsMo | smsMt =>
      refine ⟨.sms, by simp [linkAdds, hu], fun r' => ?_⟩
      unfold linkAdds
      cases r'.usageType <;> simp
    | d | u | b | x => rw [hu] at hl; cases hl
  let g : CdrRecord → Nat := fun r' => if Between o o r' then linkAdds r' f else 0
  have hg : ∀ r', g r' ≤ 1 := by
    intro r'
    change (if Between o o r' then linkAdds r' f else 0) ≤ 1
    split
    · exact hle r'
    · exact Nat.zero_le 1
  have hbetween : Between o o r := ⟨ho ▸ h0, heq ▸ h0, .inl ⟨ho, heq.symm⟩⟩
  have hgr : g r = 1 := (if_pos hbetween).trans hone
  have hpos : 1 ≤ (batch.map g).sum :=
    hgr ▸ List.single_le_sum (fun _ _ => Nat.zero_le _) _ (List.mem_map_of_mem hr)
  have hlen : (batch.map g).sum ≤ batch.length := by
    have h := List.sum_le_card_nsmul (batch.map g) 1 (by simpa using fun r' _ => hg r')
    simpa using h
  have honce : (contactsOf batch o o).get f = UInt64.ofNat (batch.map g).sum := by
    rw [contactsOf_get, ← sum_ofNat]
    refine congrArg List.sum (List.map_congr_left fun r' _ => ?_)
    change _ = UInt64.ofNat (if Between o o r' then linkAdds r' f else 0)
    split <;> rfl
  have htwice : ((fold batch out).links.read ⟨o, o⟩).get f =
      UInt64.ofNat (batch.map g).sum + UInt64.ofNat (batch.map g).sum := by
    rw [fold_link_get, ← sum_ofNat, ← List.sum_map_add]
    refine congrArg List.sum (List.map_congr_left fun r' _ => ?_)
    rw [linkPart_self]
    change _ = UInt64.ofNat (if Between o o r' then linkAdds r' f else 0) +
      UInt64.ofNat (if Between o o r' then linkAdds r' f else 0)
    split
    · exact UInt64.ofNat_add ..
    · rfl
  intro he
  have hf := congrArg (fun l => (LinkDelta.get l f).toNat) he
  simp only [honce, htwice] at hf
  rw [UInt64.toNat_add, UInt64.toNat_ofNat'] at hf
  omega

/-- **Each contact once on each leg**, exactly when no number is in contact with itself. -/
theorem counted_once_iff {batch : List CdrRecord} (hb : batch.length < 2 ^ 64) (out : Delta) :
    (∀ o p, CountedOnce batch (fold batch out) o p) ↔ ∀ r ∈ batch, ¬ SelfContact r := by
  constructor
  · intro h r hr hs
    exact self_counted_twice hb out hr hs (h _ _).1
  · intro h o p
    constructor
    · refine LinkDelta.ext_get fun f => ?_
      rw [fold_link_get, contactsOf_get]
      refine congrArg List.sum (List.map_congr_left fun r hr => ?_)
      rw [linkPart_of_between (h r hr)]
      split <;> rfl
    · refine LinkDelta.ext_get fun f => ?_
      rw [fold_link_get, fold_link_get]
      refine congrArg List.sum (List.map_congr_left fun r _ => ?_)
      rw [linkPart_comm]

theorem counted_once_iff_short :
    [shortCall].length < 2 ^ 64 ∧
      ((∀ o p, CountedOnce [shortCall] (fold [shortCall] {}) o p) ↔
        ∀ r ∈ [shortCall], ¬ SelfContact r) :=
  ⟨by decide, counted_once_iff (by decide) {}⟩

/-- A call of three seconds of a number with itself makes six, and two calls. -/
theorem self_call_twice :
    ¬ ∀ o p, CountedOnce [{ shortCall with secondPartyMSISDN := 1 }]
      (fold [{ shortCall with secondPartyMSISDN := 1 }] {}) o p := by
  intro h
  have h1 := congrArg LinkDelta.cnt (h 1 1).1
  revert h1
  decide +kernel

end CdrProcessor
