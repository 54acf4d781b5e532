import CdrProcessor.Boards
import CdrProcessor.Parser
import Mathlib.Algebra.Order.BigOperators.Group.List

/-! The range of the counters: when what a batch of lines adds up to stays exact all the way
from the parser to the amounts the server is handed. -/

namespace CdrProcessor

/-- Lines the parser takes, with the records it makes of them. -/
def Accepted (sep : Char) (lines : List Text) (batch : List CdrRecord) : Prop :=
  List.Forall₂ (fun line record => Parser.csvParser sep line = some record) lines batch

/-- The amount a call asks the store to add. -/
def Call.raises : Call → Option UInt64
  | .increment _ _ value => some value
  | .rank _ _ value => some value
  | .mark _ _ => none

/-- No counter of the batch wraps, none that is not 0 is left out, and every amount is one
the server takes. -/
structure InRange (visit : Visit) (batch : List CdrRecord) : Prop where
  exact : ∀ c, (batchValue batch c).toNat = amount batch c
  sent : ∀ c, amount batch c ≠ 0 → ∀ source,
    c.call (.ofNat (amount batch c)) ∈ consumeCalls visit batch source
  taken : ∀ source, ∀ call ∈ consumeCalls visit batch source, ∀ value,
    call.raises = some value → value.toNat ≤ 2 ^ 63 - 1

/-! ## What the lines have to add up to -/

/-- The types that carry a duration for both parties. -/
def isCall : UsageType → Bool
  | .moc | .mtc => true
  | _ => false

/-- The records of one type, of any subscriber. -/
def OfType (t : UsageType) (r : CdrRecord) : Prop := r.usageType = t

/-- The calls of one subscriber, and its data sessions. -/
def CallsOf (m : UInt64) (r : CdrRecord) : Prop := isCall r.usageType ∧ r.subscriberMSISDN = m

def DataOf (m : UInt64) (r : CdrRecord) : Prop := r.usageType = .d ∧ r.subscriberMSISDN = m

/-- The calls of one operator's subscribers. -/
def CallsUnder (k : UInt32) (r : CdrRecord) : Prop :=
  isCall r.usageType ∧ r.subscriberMSISDN ≠ 0 ∧ mccmncOf r = k

/-- The calls between two parties. -/
def CallsBetween (a b : UInt64) (r : CdrRecord) : Prop := isCall r.usageType ∧ Names a.toNat b.toNat r

instance (t : UsageType) : DecidablePred (OfType t) :=
  fun _ => inferInstanceAs (Decidable (_ = _))
instance (m : UInt64) : DecidablePred (CallsOf m) :=
  fun _ => inferInstanceAs (Decidable (_ ∧ _))
instance (m : UInt64) : DecidablePred (DataOf m) :=
  fun _ => inferInstanceAs (Decidable (_ ∧ _))
instance (k : UInt32) : DecidablePred (CallsUnder k) :=
  fun _ => inferInstanceAs (Decidable (_ ∧ _))
instance (a b : UInt64) : DecidablePred (CallsBetween a b) :=
  fun _ => inferInstanceAs (Decidable (_ ∧ _))

def seconds (r : CdrRecord) : Nat := r.duration.toNat

/-- The durations and byte counts of the lines leave room: the sums that are formed of them,
over the whole batch and for every subscriber, operator and pair, are below 2^63. -/
structure Room (batch : List CdrRecord) : Prop where
  moc : sumOver batch (OfType .moc) seconds < 2 ^ 63
  mtc : sumOver batch (OfType .mtc) seconds < 2 ^ 63
  sessions : sumOver batch (OfType .d) seconds < 2 ^ 63
  received : sumOver batch (OfType .d) (·.bytesReceived.toNat) < 2 ^ 63
  transmitted : sumOver batch (OfType .d) (·.bytesTransmitted.toNat) < 2 ^ 63
  calls : ∀ m, m ≠ 0 → sumOver batch (CallsOf m) seconds < 2 ^ 63
  data : ∀ m, m ≠ 0 →
    sumOver batch (DataOf m) (fun r => r.bytesReceived.toNat + r.bytesTransmitted.toNat) < 2 ^ 63
  operator : ∀ k, k ≠ 0 → sumOver batch (CallsUnder k) seconds < 2 ^ 63
  pair : ∀ a b, a ≠ b → sumOver batch (CallsBetween a b) seconds < 2 ^ 63
  /-- A call of a number to itself is counted on both legs of one link. -/
  self : ∀ a, sumOver batch (CallsBetween a a) (fun r => 2 * seconds r) < 2 ^ 63

/-! ## Sums as counters -/

variable {batch : List CdrRecord}

/-- A sum over some of the records is a counter, record by record. -/
theorem sumOver_eq_amount {p : CdrRecord → Prop} [DecidablePred p] {g : CdrRecord → Nat}
    {c : Counter} (h : ∀ r, (if p r then g r else 0) = adds r c) (batch : List CdrRecord) :
    sumOver batch p g = amount batch c := by
  rw [sumOver_eq]
  exact congrArg List.sum (List.map_congr_left fun r _ => h r)

theorem subPart_own (r : CdrRecord) {m : UInt64} (hm : m ≠ 0) (f : SubField) :
    subPart r m f = if r.subscriberMSISDN = m then subAdds r f else 0 := by
  unfold subPart
  by_cases h : r.subscriberMSISDN = m
  · rw [if_pos ⟨h ▸ hm, h⟩, if_pos h]
  · rw [if_neg fun hc => h hc.2, if_neg h]

theorem opPart_own (r : CdrRecord) {k : UInt32} (hk : k ≠ 0) (f : OpField) :
    opPart r k f = if r.subscriberMSISDN ≠ 0 ∧ mccmncOf r = k then opAdds r f else 0 := by
  unfold opPart
  by_cases h : r.subscriberMSISDN ≠ 0 ∧ mccmncOf r = k
  · rw [if_pos ⟨h.1, h.2 ▸ hk, h.2⟩, if_pos h]
  · rw [if_neg fun hc => h ⟨hc.1, hc.2.2⟩, if_neg h]

theorem voice_eq (r : CdrRecord) :
    subAdds r .voiceOut + subAdds r .voiceIn = if isCall r.usageType then seconds r else 0 := by
  unfold subAdds seconds
  cases r.usageType <;> simp [isCall]

theorem opVoice_eq (r : CdrRecord) :
    opAdds r .voiceOut + opAdds r .voiceIn = if isCall r.usageType then seconds r else 0 := by
  unfold opAdds seconds
  cases r.usageType <;> simp [isCall]

theorem dur_eq (r : CdrRecord) : linkAdds r .dur = if isCall r.usageType then seconds r else 0 := by
  unfold linkAdds seconds
  cases r.usageType <;> simp [isCall]

theorem bytes_eq (r : CdrRecord) : subAdds r .dataRx + subAdds r .dataTx =
    if r.usageType = .d then r.bytesReceived.toNat + r.bytesTransmitted.toNat else 0 := by
  unfold subAdds
  cases r.usageType <;> simp

theorem calls_amount {m : UInt64} (hm : m ≠ 0) (batch : List CdrRecord) :
    sumOver batch (CallsOf m) seconds = amount batch (.subBoard m .voice) := by
  refine sumOver_eq_amount (fun r => ?_) batch
  simp only [adds, subPart_own r hm]
  by_cases h : r.subscriberMSISDN = m
  · rw [if_pos h, if_pos h, voice_eq]
    by_cases hc : isCall r.usageType = true
    · rw [if_pos hc, if_pos ⟨hc, h⟩]
    · rw [if_neg hc, if_neg fun hm => hc hm.1]
  · rw [if_neg h, if_neg h, if_neg fun hm => h hm.2]

theorem data_amount {m : UInt64} (hm : m ≠ 0) (batch : List CdrRecord) :
    sumOver batch (DataOf m) (fun r => r.bytesReceived.toNat + r.bytesTransmitted.toNat) =
      amount batch (.subBoard m .data) := by
  refine sumOver_eq_amount (fun r => ?_) batch
  simp only [adds, subPart_own r hm]
  by_cases h : r.subscriberMSISDN = m
  · rw [if_pos h, if_pos h, bytes_eq]
    by_cases hc : r.usageType = .d
    · rw [if_pos hc, if_pos ⟨hc, h⟩]
    · rw [if_neg hc, if_neg fun hm => hc hm.1]
  · rw [if_neg h, if_neg h, if_neg fun hm => h hm.2]

theorem operator_amount {k : UInt32} (hk : k ≠ 0) (batch : List CdrRecord) :
    sumOver batch (CallsUnder k) seconds = amount batch (.opBoard k .voice) := by
  refine sumOver_eq_amount (fun r => ?_) batch
  simp only [adds, opPart_own r hk]
  by_cases h : r.subscriberMSISDN ≠ 0 ∧ mccmncOf r = k
  · rw [if_pos h, if_pos h, opVoice_eq]
    by_cases hc : isCall r.usageType = true
    · rw [if_pos hc, if_pos ⟨hc, h⟩]
    · rw [if_neg hc, if_neg fun hm => hc hm.1]
  · rw [if_neg h, if_neg h, if_neg fun hm => h hm.2]

theorem pair_amount {a b : UInt64} (hab : a ≠ b) (batch : List CdrRecord) :
    sumOver batch (CallsBetween a b) seconds = amount batch (.link a b .dur) := by
  rw [← sumOver_link batch hab, sumOver_eq, sumOver_eq]
  refine congrArg List.sum (List.map_congr_left fun r _ => ?_)
  rw [dur_eq]
  by_cases hn : Names a.toNat b.toNat r
  · rw [if_pos hn]
    by_cases hc : isCall r.usageType = true
    · rw [if_pos hc, if_pos ⟨hc, hn⟩]
    · rw [if_neg hc, if_neg fun h => hc h.1]
  · rw [if_neg hn, if_neg fun h => hn h.2]

theorem self_amount (a : UInt64) (batch : List CdrRecord) :
    sumOver batch (CallsBetween a a) (fun r => 2 * seconds r) = amount batch (.link a a .dur) := by
  refine sumOver_eq_amount (fun r => ?_) batch
  simp only [adds, linkPart, dur_eq]
  by_cases hp : r.subscriberMSISDN ≠ 0 ∧ r.secondPartyMSISDN ≠ 0
  · rw [if_pos hp]
    by_cases hs : r.subscriberMSISDN = a ∧ r.secondPartyMSISDN = a
    · rw [if_pos hs, if_pos hs.symm]
      have hn : Names a.toNat a.toNat r := by
        rw [Names, hs.1, hs.2]
        exact ⟨hs.1 ▸ hp.1, hs.2 ▸ hp.2, .inl ⟨rfl, rfl⟩⟩
      by_cases hc : isCall r.usageType = true
      · rw [if_pos hc, if_pos ⟨hc, hn⟩, Nat.two_mul]
      · rw [if_neg hc, if_neg fun h => hc h.1]
    · have hn : ¬ CallsBetween a a r := by
        rintro ⟨-, -, -, h | h⟩
        · exact hs ⟨UInt64.toNat.inj h.1, UInt64.toNat.inj h.2⟩
        · exact hs ⟨UInt64.toNat.inj h.1, UInt64.toNat.inj h.2⟩
      have hs' : ¬ (r.secondPartyMSISDN = a ∧ r.subscriberMSISDN = a) := fun h => hs h.symm
      rw [if_neg hn, if_neg hs, if_neg hs']
  · rw [if_neg hp, if_neg fun h => hp ⟨h.2.1, h.2.2.1⟩]

/-! ## Every counter below 2^63 -/

theorem amount_mono {c c' : Counter} (h : ∀ r, adds r c ≤ adds r c') (batch : List CdrRecord) :
    amount batch c ≤ amount batch c' :=
  List.sum_le_sum fun r _ => h r

/-- A counter of events: no record is worth more than three of it. -/
theorem amount_events {c : Counter} (h : ∀ r, adds r c ≤ 3) (batch : List CdrRecord) :
    amount batch c ≤ 3 * batch.length := by
  induction batch with
  | nil => exact Nat.zero_le _
  | cons r batch ih =>
    have := h r
    rw [amount_cons, List.length_cons]
    omega

theorem totalAdds_of {t : UsageType} {f : TotalField} {g : CdrRecord → Nat}
    (h : ∀ r, totalAdds r f = if r.usageType = t then g r else 0) (batch : List CdrRecord) :
    amount batch (.total f) = sumOver batch (OfType t) g :=
  (sumOver_eq_amount (fun r => (h r).symm) batch).symm

theorem moc_amount (batch : List CdrRecord) :
    amount batch (.total .mocDur) = sumOver batch (OfType .moc) seconds :=
  totalAdds_of (fun r => by unfold totalAdds seconds; cases r.usageType <;> rfl) batch

theorem mtc_amount (batch : List CdrRecord) :
    amount batch (.total .mtcDur) = sumOver batch (OfType .mtc) seconds :=
  totalAdds_of (fun r => by unfold totalAdds seconds; cases r.usageType <;> rfl) batch

theorem sessions_amount (batch : List CdrRecord) :
    amount batch (.total .dataDur) = sumOver batch (OfType .d) seconds :=
  totalAdds_of (fun r => by unfold totalAdds seconds; cases r.usageType <;> rfl) batch

theorem received_amount (batch : List CdrRecord) :
    amount batch (.total .dataRx) = sumOver batch (OfType .d) (·.bytesReceived.toNat) :=
  totalAdds_of (fun r => by unfold totalAdds; cases r.usageType <;> rfl) batch

theorem transmitted_amount (batch : List CdrRecord) :
    amount batch (.total .dataTx) = sumOver batch (OfType .d) (·.bytesTransmitted.toNat) :=
  totalAdds_of (fun r => by unfold totalAdds; cases r.usageType <;> rfl) batch

theorem subPart_event (r : CdrRecord) (m : UInt64) {f : SubField}
    (hf : f ∈ [SubField.smsOut, .smsIn, .noans, .busy, .failed]) : subPart r m f ≤ 1 := by
  have : subAdds r f ≤ 1 := by
    unfold subAdds
    cases r.usageType <;> cases f <;> simp at hf ⊢
  unfold subPart
  split
  · exact this
  · exact Nat.zero_le 1

theorem opPart_event (r : CdrRecord) (k : UInt32) {f : OpField}
    (hf : f ∈ [OpField.smsOut, .smsIn]) : opPart r k f ≤ 1 := by
  have : opAdds r f ≤ 1 := by
    unfold opAdds
    cases r.usageType <;> cases f <;> simp at hf ⊢
  unfold opPart
  split
  · exact this
  · exact Nat.zero_le 1

theorem linkPart_event (r : CdrRecord) (a b : UInt64) {f : LinkField} (hf : f ≠ .dur) :
    linkPart r a b f ≤ 2 := by
  have : linkAdds r f ≤ 1 := by
    unfold linkAdds
    cases r.usageType <;> cases f <;> simp at hf ⊢
  unfold linkPart
  split
  · split <;> split <;> omega
  · exact Nat.zero_le 2

theorem totalAdds_event (r : CdrRecord) {f : TotalField}
    (hf : f ∉ [TotalField.mocDur, .mtcDur, .dataDur, .dataRx, .dataTx]) : totalAdds r f ≤ 1 := by
  unfold totalAdds
  cases r.usageType <;> cases f <;> simp at hf ⊢

/-- A full batch has too few lines for a counter of events to reach 2^63. -/
theorem events_lt {c : Counter} (h : ∀ r, adds r c ≤ 3) (hlen : batch.length ≤ kBatchSize) :
    amount batch c < 2 ^ 63 := by
  have hle := amount_events h batch
  unfold kBatchSize at hlen
  omega

theorem amount_subBoard_zero (b : SubBoard) (batch : List CdrRecord) :
    amount batch (.subBoard 0 b) = 0 := by
  rw [amount_subBoard]
  cases b <;> simp [SubBoard.fields, amount_eq_zero (adds_sub_zero · _)]

theorem amount_opBoard_zero (b : OpBoard) (batch : List CdrRecord) :
    amount batch (.opBoard 0 b) = 0 := by
  rw [amount_opBoard]
  cases b <;> simp [OpBoard.fields, amount_eq_zero (adds_op_zero · _)]

theorem Room.voice_lt (h : Room batch) (m : UInt64) :
    amount batch (.subBoard m .voice) < 2 ^ 63 := by
  by_cases hm : m = 0
  · rw [hm, amount_subBoard_zero]
    decide
  · exact calls_amount hm batch ▸ h.calls m hm

theorem Room.data_lt (h : Room batch) (m : UInt64) :
    amount batch (.subBoard m .data) < 2 ^ 63 := by
  by_cases hm : m = 0
  · rw [hm, amount_subBoard_zero]
    decide
  · exact data_amount hm batch ▸ h.data m hm

theorem Room.opVoice_lt (h : Room batch) (k : UInt32) :
    amount batch (.opBoard k .voice) < 2 ^ 63 := by
  by_cases hk : k = 0
  · rw [hk, amount_opBoard_zero]
    decide
  · exact operator_amount hk batch ▸ h.operator k hk

theorem Room.dur_lt (h : Room batch) (a b : UInt64) : amount batch (.link a b .dur) < 2 ^ 63 := by
  by_cases hab : a = b
  · subst hab
    exact self_amount a batch ▸ h.self a
  · exact pair_amount hab batch ▸ h.pair a b hab

theorem Room.total_lt (h : Room batch) {f : TotalField}
    (hf : f ∈ [TotalField.mocDur, .mtcDur, .dataDur, .dataRx, .dataTx]) :
    amount batch (.total f) < 2 ^ 63 := by
  simp only [List.mem_cons, List.not_mem_nil, or_false] at hf
  rcases hf with rfl | rfl | rfl | rfl | rfl
  · exact moc_amount batch ▸ h.moc
  · exact mtc_amount batch ▸ h.mtc
  · exact sessions_amount batch ▸ h.sessions
  · exact received_amount batch ▸ h.received
  · exact transmitted_amount batch ▸ h.transmitted

/-- With the room the lines have to leave, no counter reaches 2^63. -/
theorem Room.amount_lt (h : Room batch) (hlen : batch.length ≤ kBatchSize) (c : Counter) :
    amount batch c < 2 ^ 63 := by
  cases c with
  | sub m f =>
    cases f with
    | voiceOut => exact (amount_mono (fun _ => Nat.le_add_right _ _) batch).trans_lt (h.voice_lt m)
    | voiceIn => exact (amount_mono (fun _ => Nat.le_add_left _ _) batch).trans_lt (h.voice_lt m)
    | dataRx => exact (amount_mono (fun _ => Nat.le_add_right _ _) batch).trans_lt (h.data_lt m)
    | dataTx => exact (amount_mono (fun _ => Nat.le_add_left _ _) batch).trans_lt (h.data_lt m)
    | smsOut | smsIn | noans | busy | failed =>
      exact events_lt (fun r => (subPart_event r m (by simp)).trans (by decide)) hlen
  | op k f =>
    cases f with
    | voiceOut =>
      exact (amount_mono (fun _ => Nat.le_add_right _ _) batch).trans_lt (h.opVoice_lt k)
    | voiceIn =>
      exact (amount_mono (fun _ => Nat.le_add_left _ _) batch).trans_lt (h.opVoice_lt k)
    | smsOut | smsIn =>
      exact events_lt (fun r => (opPart_event r k (by simp)).trans (by decide)) hlen
  | link a b f =>
    by_cases hf : f = .dur
    · exact hf ▸ h.dur_lt a b
    · exact events_lt (fun r => (linkPart_event r a b hf).trans (by decide)) hlen
  | subBoard m b =>
    cases b with
    | voice => exact h.voice_lt m
    | data => exact h.data_lt m
    | sms =>
      refine events_lt (fun r => ?_) hlen
      have h₁ := subPart_event r m (f := .smsOut) (by simp)
      have h₂ := subPart_event r m (f := .smsIn) (by simp)
      simp only [adds]
      omega
    | fail =>
      refine events_lt (fun r => ?_) hlen
      have h₁ := subPart_event r m (f := .noans) (by simp)
      have h₂ := subPart_event r m (f := .busy) (by simp)
      have h₃ := subPart_event r m (f := .failed) (by simp)
      simp only [adds]
      omega
  | opBoard k b =>
    cases b with
    | voice => exact h.opVoice_lt k
    | sms =>
      refine events_lt (fun r => ?_) hlen
      have h₁ := opPart_event r k (f := .smsOut) (by simp)
      have h₂ := opPart_event r k (f := .smsIn) (by simp)
      simp only [adds]
      omega
  | total f =>
    by_cases hf : f ∈ [TotalField.mocDur, .mtcDur, .dataDur, .dataRx, .dataTx]
    · exact h.total_lt hf
    · exact events_lt (fun r => (totalAdds_event r hf).trans (by decide)) hlen

/-- The sums are counters themselves. -/
theorem room_of_amounts (h : ∀ c, amount batch c < 2 ^ 63) : Room batch where
  moc := moc_amount batch ▸ h _
  mtc := mtc_amount batch ▸ h _
  sessions := sessions_amount batch ▸ h _
  received := received_amount batch ▸ h _
  transmitted := transmitted_amount batch ▸ h _
  calls _ hm := calls_amount hm batch ▸ h _
  data _ hm := data_amount hm batch ▸ h _
  operator _ hk := operator_amount hk batch ▸ h _
  pair _ _ hab := pair_amount hab batch ▸ h _
  self a := self_amount a batch ▸ h _

/-! ## What is sent -/

/-- Every counter of a batch that is not 0 is among the writes, with its value. -/
theorem mem_batchWrites (visit : Visit) {c : Counter} (h : batchValue batch c ≠ 0) :
    (c, batchValue batch c) ∈ batchWrites visit batch := by
  unfold batchWrites scoreWrites deltaWrites totalWrites
  simp only [List.mem_append, List.mem_flatMap, List.mem_map]
  have entry : ∀ {κ β : Type} [DecidableEq κ] [Inhabited β] {t : Table κ β} {k : κ}
      {l : List (Sigma fun _ : κ => β)} (g : β → UInt64), l.Perm t.entries → g default = 0 →
      g (t.read k) ≠ 0 → (⟨k, t.read k⟩ : Sigma fun _ : κ => β) ∈ l :=
    fun g hl h0 h => hl.mem_iff.mpr (Table.entry_of_measure h0 h)
  cases c with
  | total f => exact .inl ⟨f, TotalField.mem_all f, rfl⟩
  | subBoard m b =>
    have he := entry (fun s => s.score b) (visit.subs_perm _) (by cases b <;> rfl) h
    exact .inr (.inl (.inl ⟨_, he, b, by cases b <;> decide, rfl⟩))
  | opBoard k b =>
    have he := entry (fun s => s.score b) (visit.ops_perm _) (by cases b <;> rfl) h
    exact .inr (.inl (.inr ⟨_, he, b, by cases b <;> decide, rfl⟩))
  | sub m f =>
    have he := entry (fun s => s.get f) (visit.subs_perm _) (by cases f <;> rfl) h
    exact .inr (.inr (.inl ⟨_, he, f, by cases f <;> decide, rfl⟩))
  | op k f =>
    have he := entry (fun s => s.get f) (visit.ops_perm _) (by cases f <;> rfl) h
    exact .inr (.inr (.inr (.inl ⟨_, he, f, by cases f <;> decide, rfl⟩)))
  | link a b f =>
    have he := entry (fun s => s.get f) (visit.links_perm _) (by cases f <;> rfl) h
    exact .inr (.inr (.inr (.inr ⟨_, he, f, by cases f <;> decide, rfl⟩)))

theorem mem_consumeCalls {visit : Visit} {source : Text} {call : Call} :
    call ∈ consumeCalls visit batch source ↔
      call ∈ writeCalls (batchWrites visit batch) ∨ call ∈ markCalls batch source := by
  rw [consumeCalls_eq, batchWrites]
  simp only [writeCalls_append, List.mem_append]
  tauto

@[simp] theorem raises_call (c : Counter) (value : UInt64) :
    (c.call value).raises = some value := by
  cases c <;> rfl

theorem mem_writeCalls {ws : List (Counter × UInt64)} {call : Call} :
    call ∈ writeCalls ws ↔ ∃ c value, (c, value) ∈ ws ∧ value ≠ 0 ∧ c.call value = call := by
  unfold writeCalls
  simp [and_assoc]

/-- What is written for a counter is its value and no more. -/
theorem write_le {visit : Visit} {c : Counter} {value : UInt64}
    (h : (c, value) ∈ batchWrites visit batch) : value.toNat ≤ (batchValue batch c).toNat := by
  rw [← written_batch visit batch c]
  exact List.single_le_sum (fun _ _ => Nat.zero_le _) _ (List.mem_map.mpr ⟨_, h, if_pos rfl⟩)

theorem sent_value {visit : Visit} {source : Text} {call : Call} {value : UInt64}
    (hc : call ∈ consumeCalls visit batch source) (hv : call.raises = some value) :
    ∃ c, value.toNat ≤ (batchValue batch c).toNat := by
  rcases mem_consumeCalls.mp hc with hc | hc
  · obtain ⟨c, v, hw, -, rfl⟩ := mem_writeCalls.mp hc
    rw [raises_call, Option.some_inj] at hv
    exact ⟨c, hv ▸ write_le hw⟩
  · unfold markCalls at hc
    split at hc
    · obtain rfl := List.mem_singleton.mp hc
      cases hv
    · cases hc

/-- **The counters stay in range exactly when the lines leave room.**  The parser sets no
limit to a duration or a byte count but that of 64 bits. -/
theorem in_range_iff (visit : Visit) {batch : List CdrRecord} (hlen : batch.length ≤ kBatchSize) :
    InRange visit batch ↔ Room batch := by
  constructor
  · intro h
    refine room_of_amounts fun c => ?_
    by_cases h0 : amount batch c = 0
    · rw [h0]
      decide
    · have hv : UInt64.ofNat (amount batch c) = batchValue batch c := by
        rw [batchValue_eq]
      have hle := h.taken [] _ (h.sent c h0 []) _ (raises_call c _)
      rw [hv, h.exact] at hle
      omega
  · intro h
    have hlt := h.amount_lt hlen
    have hexact : ∀ c, (batchValue batch c).toNat = amount batch c :=
      fun c => batchValue_toNat (by have := hlt c; omega)
    refine ⟨hexact, fun c h0 source => ?_, fun source call hc value hv => ?_⟩
    · have hne : batchValue batch c ≠ 0 := by
        intro hz
        have := hexact c
        rw [hz] at this
        exact h0 this.symm
      refine mem_consumeCalls.mpr (.inl ?_)
      rw [← batchValue_eq]
      exact mem_writeCalls.mpr ⟨c, _, mem_batchWrites visit hne, hne, rfl⟩
    · obtain ⟨c, hle⟩ := sent_value hc hv
      have := hlt c
      rw [hexact c] at hle
      omega

/-- A call of a minute, and the largest session that leaves room. -/
def roomyLines : List Text :=
  ["1|425010000000001|3|MOC|972501|01/02/2024|10:20:30|60|||4|972502".toList,
    "2|425010000000001|3|D|972501|01/02/2024|10:22:30|5|4611686018427387904|4611686018427387903||".toList]

/-- A call of 2^63 seconds. -/
def longLine : Text :=
  "1|425010000000001|3|MOC|972501|01/02/2024|10:20:30|9223372036854775808|||4|972502".toList

/-- The record of such a line. -/
def callOf (seconds : UInt64) : CdrRecord where
  sequence := 1
  subscriberImsi := 425010000000001
  subscriberImei := "3".toList
  usageType := .moc
  subscriberMSISDN := 972501
  callTime := 1706782830
  duration := seconds
  bytesReceived := 0
  bytesTransmitted := 0
  secondPartyIMSI := 4
  secondPartyMSISDN := 972502

/-- The record of the largest session. -/
def sessionOf : CdrRecord :=
  { callOf 5 with
    sequence := 2, usageType := .d, callTime := 1706782950, bytesReceived := 4611686018427387904,
    bytesTransmitted := 4611686018427387903, secondPartyIMSI := 0, secondPartyMSISDN := 0 }

theorem in_range_iff_roomy :
    Accepted '|' roomyLines [callOf 60, sessionOf] ∧
      (InRange .plain [callOf 60, sessionOf] ↔ Room [callOf 60, sessionOf]) := by
  have hacc : Accepted '|' roomyLines [callOf 60, sessionOf] :=
    .cons (by decide +kernel) (.cons (by decide +kernel) .nil)
  exact ⟨hacc, in_range_iff .plain (by decide)⟩

/-- Two calls of 2^63 seconds come to nothing. -/
theorem long_calls_wrap :
    ¬ ∀ (visit : Visit) (sep : Char) (lines : List Text) (batch : List CdrRecord),
      Accepted sep lines batch → batch.length ≤ kBatchSize → InRange visit batch := by
  intro h
  have hline : Parser.csvParser '|' longLine = some (callOf 9223372036854775808) := by
    decide +kernel
  have hr := h .plain '|' [longLine, longLine] _ (.cons hline (.cons hline .nil)) (by decide)
  have hsum := hr.exact (.sub 972501 .voiceOut)
  revert hsum
  decide +kernel

end CdrProcessor
