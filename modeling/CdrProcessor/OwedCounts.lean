import CdrProcessor.Standings

/-! What is sent about subscribers, operators and the whole run is owed by the counters. -/

namespace CdrProcessor

open Ledger Script

variable {calls : List ConsumeCall} {store : IQueryStore}

theorem numberOf_digits (m : UInt64) : numberOf (Decimal.digits m.toNat) = m := by
  unfold numberOf
  rw [Decimal.value_digits, UInt64.ofNat_toNat]

/-! ## Subscribers, operators and totals -/

/-- A hash that is read whole: it is there when one of its counters is, and its fields are
the numbers of the store. -/
theorem entity_run (hx : Exact (recordsOf calls)) (hs : store.Serves (consumed calls).hashes)
    (hup : store.Up) {pre id : Text} (hkey : pre ++ id ≠ kProgressKey) (name missing : Text)
    (names : List (Text × Text)) :
    ∃ fields, QueryService.entity store pre name id missing names [] =
        some (if fields = [] then ⟨404, Json.error missing⟩
          else ⟨200, (addFields (({} : Json).addText name id) fields names).str⟩,
          [.hgetall (pre ++ id)]) ∧
      (fields ≠ [] ↔ ∃ (c : Counter) (field : Text), c.place = .hash (pre ++ id) field ∧
        amount (recordsOf calls) c ≠ 0) ∧
      ∀ field, fieldNum fields field = .ofNat ((consumed calls).count (.hash (pre ++ id) field)) := by
  obtain ⟨fields, hr⟩ := Option.isSome_iff_exists.mp (hup.hgetall 0 (pre ++ id))
  refine ⟨fields, ?_, ⟨fun hne => found_value hx hs hkey hr hne, ?_⟩, fun field => ?_⟩
  · have hread : store.readAll (pre ++ id) [] = some (some fields, [.hgetall (pre ++ id)]) := by
      unfold IQueryStore.readAll
      rw [List.length_nil, hr]
      rfl
    unfold QueryService.entity
    rw [bind_of_eq_some hread]
    dsimp only
    rw [apply_ite (fun result : Result => some (result, [Read.hgetall (pre ++ id)]))]
    split <;> rfl
  · rintro ⟨c, field, hc, hne⟩ rfl
    have hmem : field ∈ ((consumed calls).hashes (pre ++ id)).keys := by
      refine ((consumed calls).mem_hashes _ _).mpr ⟨amount (recordsOf calls) c, ?_⟩
      rw [← hc, consumed_value hx, if_neg hne]
    rw [← (hs.keys_perm hr).mem_iff] at hmem
    cases hmem
  · exact fieldNum_read hs hr (count_lt hx hkey)

theorem sub_key {c : Counter} {id field : Text} :
    c.place = .hash (kSubPrefix ++ id) field ↔
      ∃ m f, c = .sub m f ∧ id = Decimal.digits m.toNat ∧ field = f.name := by
  constructor
  · intro h
    have hi := hash_initial h
    cases c with
    | sub m f =>
      simp only [Counter.place, Place.hash.injEq] at h
      exact ⟨m, f, rfl, (List.append_cancel_left h.1).symm, h.2.symm⟩
    | op | link | subBoard | opBoard | total => simp [initialOf, kSubPrefix] at hi
  · rintro ⟨m, f, rfl, rfl, rfl⟩
    rfl

theorem op_key {c : Counter} {id field : Text} :
    c.place = .hash (kOpPrefix ++ id) field ↔
      ∃ k f, c = .op k f ∧ id = Decimal.digits k.toNat ∧ field = f.name := by
  constructor
  · intro h
    have hi := hash_initial h
    cases c with
    | op k f =>
      simp only [Counter.place, Place.hash.injEq] at h
      refine ⟨k, f, rfl, ?_, h.2.symm⟩
      rw [← UInt32.toNat_toUInt64]
      exact (List.append_cancel_left h.1).symm
    | sub | link | subBoard | opBoard | total => simp [initialOf, kOpPrefix] at hi
  · rintro ⟨k, f, rfl, rfl, rfl⟩
    simp [Counter.place, appendNumber]

theorem SubField.mem_all (f : SubField) : f ∈ SubField.all := by cases f <;> decide

theorem OpField.mem_all (f : OpField) : f ∈ OpField.all := by cases f <;> decide

theorem LinkField.mem_all (f : LinkField) : f ∈ LinkField.all := by cases f <;> decide

theorem subscriber_owed (hx : Exact (recordsOf calls))
    (hs : store.Serves (consumed calls).hashes) (hup : store.Up) (id : Text) :
    ∃ reads, QueryService.msisdn store id [] =
      some (Ledger.subscriber (amount (recordsOf calls)) id, reads) := by
  have hkey : kSubPrefix ++ id ≠ kProgressKey := ne_progress (by decide) (by decide) id
  obtain ⟨fields, hrun, hfound, hfields⟩ :=
    entity_run hx hs hup hkey "msisdn".toList "subscriber not found".toList
      QueryService.kSubFields
  refine ⟨_, hrun.trans (congrArg (fun result => some (result, _)) ?_)⟩
  have hiff : fields ≠ [] ↔ id = Decimal.digits (numberOf id).toNat ∧
      ∃ f ∈ SubField.all, amount (recordsOf calls) (.sub (numberOf id) f) ≠ 0 := by
    rw [hfound]
    constructor
    · rintro ⟨c, field, hc, hne⟩
      obtain ⟨m, f, rfl, rfl, rfl⟩ := sub_key.mp hc
      rw [numberOf_digits]
      exact ⟨rfl, f, f.mem_all, hne⟩
    · rintro ⟨hid, f, -, hne⟩
      exact ⟨_, _, sub_key.mpr ⟨_, f, rfl, hid, rfl⟩, hne⟩
  unfold Ledger.subscriber
  dsimp only
  by_cases hne : fields = []
  · rw [if_pos hne, if_neg (hiff.not.mp (not_not.mpr hne))]
  · obtain ⟨hid, hcounts⟩ := hiff.mp hne
    rw [if_neg hne, if_pos ⟨hid, hcounts⟩]
    refine congrArg (fun json : Json => (⟨200, json.str⟩ : Result)) (subscriberJson_read ?_ id)
    intro f
    have hplace : Place.hash (kSubPrefix ++ id) f.name = (Counter.sub (numberOf id) f).place :=
      (sub_key.mpr ⟨_, f, rfl, hid, rfl⟩).symm
    rw [hfields, hplace, consumed_count hx]

theorem operator_owed (hx : Exact (recordsOf calls))
    (hs : store.Serves (consumed calls).hashes) (hup : store.Up) (id : Text) :
    ∃ reads, QueryService.op store id [] =
      some (Ledger.operator (amount (recordsOf calls)) id, reads) := by
  have hkey : kOpPrefix ++ id ≠ kProgressKey := ne_progress (by decide) (by decide) id
  obtain ⟨fields, hrun, hfound, hfields⟩ :=
    entity_run hx hs hup hkey "mccmnc".toList "operator not found".toList
      QueryService.kOpFields
  refine ⟨_, hrun.trans (congrArg (fun result => some (result, _)) ?_)⟩
  have hnumber : ∀ k : UInt32, (numberOf (Decimal.digits k.toNat)).toUInt32 = k := by
    intro k
    rw [← UInt32.toNat_toUInt64, numberOf_digits, UInt32.toUInt32_toUInt64]
  have hiff : fields ≠ [] ↔ id = Decimal.digits (numberOf id).toUInt32.toNat ∧
      ∃ f ∈ OpField.all, amount (recordsOf calls) (.op (numberOf id).toUInt32 f) ≠ 0 := by
    rw [hfound]
    constructor
    · rintro ⟨c, field, hc, hne⟩
      obtain ⟨k, f, rfl, rfl, rfl⟩ := op_key.mp hc
      rw [hnumber]
      exact ⟨rfl, f, f.mem_all, hne⟩
    · rintro ⟨hid, f, -, hne⟩
      exact ⟨_, _, op_key.mpr ⟨_, f, rfl, hid, rfl⟩, hne⟩
  unfold Ledger.operator
  dsimp only
  by_cases hne : fields = []
  · rw [if_pos hne, if_neg (hiff.not.mp (not_not.mpr hne))]
  · obtain ⟨hid, hcounts⟩ := hiff.mp hne
    rw [if_neg hne, if_pos ⟨hid, hcounts⟩]
    refine congrArg (fun json : Json => (⟨200, json.str⟩ : Result)) (operatorJson_read ?_ id)
    intro f
    have hplace : Place.hash (kOpPrefix ++ id) f.name =
        (Counter.op (numberOf id).toUInt32 f).place := (op_key.mpr ⟨_, f, rfl, hid, rfl⟩).symm
    rw [hfields, hplace, consumed_count hx]

theorem totals_owed (hx : Exact (recordsOf calls)) (hs : store.Serves (consumed calls).hashes)
    (hup : store.Up) :
    ∃ reads, StatsService.totals store [] =
      some (Ledger.totals (amount (recordsOf calls)), reads) := by
  obtain ⟨fields, hr⟩ := Option.isSome_iff_exists.mp (hup.hgetall 0 kTotalKey)
  exact ⟨_, totals_answers hx hs hr⟩

end CdrProcessor
