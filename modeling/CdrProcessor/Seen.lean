import CdrProcessor.Ranges
import CdrProcessor.ReadBack

/-! Who is found: a subscriber is in the store once a counter of its own was written, and
`msisdn` answers 404 for everybody else. -/

namespace CdrProcessor

open Script

/-! ## The places calls write -/

def Call.place : Call → Place
  | .increment key field _ => .hash key field
  | .rank board member _ => .board board member
  | .mark source _ => markPlace source

@[simp] theorem place_call (c : Counter) (value : UInt64) : (c.call value).place = c.place := by
  cases c <;> rfl

/-- What an accepted command leaves: its own place filled, every other as it was. -/
theorem runCommand_filled {call : Call} {db db' : Db} (h : runCommand call.command db = some db')
    (p : Place) : (db'.value p).isSome ↔ (db.value p).isSome ∨ call.place = p := by
  have filled : ∀ (m : Text → Table Text Nat) (key field key' field' : Text) (value : Nat),
      (((put m key field value) key').lookup field').isSome ↔
        ((m key').lookup field').isSome ∨ (key = key' ∧ field = field') := by
    intro m key field key' field' value
    rw [put_value]
    by_cases hk : key' = key ∧ field' = field
    · obtain ⟨rfl, rfl⟩ := hk
      simp
    · have hk' : ¬ (key = key' ∧ field = field') := fun h => hk ⟨h.1.symm, h.2.symm⟩
      simp [hk, hk']
  cases call with
  | increment key field value =>
    obtain ⟨-, h⟩ := Option.ite_none_right_eq_some.mp h
    cases h
    cases p with
    | hash key' field' => simp [Db.value, Call.place, filled]
    | board key' member' => simp [Db.value, Call.place]
  | rank board member value =>
    cases h
    cases p with
    | hash key' field' => simp [Db.value, Call.place]
    | board key' member' => simp [Db.value, Call.place, filled]
  | mark source seq =>
    cases h
    cases p with
    | hash key' field' => simp [Db.value, Call.place, markPlace, filled]
    | board key' member' => simp [Db.value, Call.place, markPlace]

/-- Every command of a list was accepted. -/
def AllTaken (ran : List (Command × Bool)) : Prop := ∀ e ∈ ran, e.2 = true

theorem runAll_filled {cs : List Call} {db : Db}
    (h : AllTaken (runAll redis (cs.map Call.command) db).1) (p : Place) :
    ((runAll redis (cs.map Call.command) db).2.value p).isSome ↔
      (db.value p).isSome ∨ ∃ call ∈ cs, call.place = p := by
  induction cs generalizing db with
  | nil => simp [runAll]
  | cons call cs ih =>
    obtain ⟨hfirst, hrest⟩ := List.forall_mem_cons.mp h
    cases hrun : runCommand call.command db with
    | none =>
      rw [redis_run_refused hrun] at hfirst
      cases hfirst
    | some db' =>
      have hdb := redis_run hrun
      have ih := @ih (redis.run call.command db).2 hrest
      simp only [List.map_cons, runAll]
      rw [ih, hdb, runCommand_filled hrun p, List.exists_mem_cons_iff, or_assoc]

/-! ## The store behind a list of batches -/

/-- Every write of the calls is accepted, one call after the other. -/
def Taken : List ConsumeCall → Db → Prop
  | [], _ => True
  | call :: calls, db => AllTaken (runAll redis call.commands db).1 ∧ Taken calls (call.run db)

variable {calls : List ConsumeCall}

theorem foldl_filled {calls : List ConsumeCall} {db : Db} (h : Taken calls db) (p : Place) :
    ((calls.foldl (fun db c => c.run db) db).value p).isSome ↔ (db.value p).isSome ∨
      ∃ c ∈ calls, ∃ call ∈ consumeCalls c.visit c.batch c.source, call.place = p := by
  induction calls generalizing db with
  | nil => simp
  | cons c calls ih =>
    rw [List.foldl_cons, ih h.2, List.exists_mem_cons_iff, ← or_assoc]
    exact or_congr_left (runAll_filled h.1 p)

theorem consumed_filled (h : Taken calls {}) (p : Place) :
    ((consumed calls).value p).isSome ↔
      ∃ c ∈ calls, ∃ call ∈ consumeCalls c.visit c.batch c.source, call.place = p := by
  have hnone : ({} : Db).value p = none := by
    cases p <;> rfl
  unfold consumed
  rw [foldl_filled h, hnone]
  simp

/-- A counter is called for in a batch exactly when its value is not 0. -/
theorem called_iff {visit : Visit} {batch : List CdrRecord} {source : Text} {c : Counter} :
    (∃ call ∈ consumeCalls visit batch source, call.place = c.place) ↔
      batchValue batch c ≠ 0 := by
  constructor
  · rintro ⟨call, hcall, hp⟩ h0
    rcases mem_consumeCalls.mp hcall with hcall | hm
    · obtain ⟨d, v, hw, hv, rfl⟩ := mem_writeCalls.mp hcall
      obtain rfl : d = c := place_injective (by rw [← hp, place_call])
      have hle := write_le hw
      rw [h0] at hle
      exact hv (UInt64.toNat.inj (Nat.le_zero.mp hle))
    · unfold markCalls at hm
      split at hm
      · obtain rfl := List.mem_singleton.mp hm
        exact mark_ne_place source c hp
      · cases hm
  · intro hne
    have hw := mem_writeCalls.mpr ⟨c, _, mem_batchWrites visit hne, hne, rfl⟩
    exact ⟨_, mem_consumeCalls.mpr (.inl hw), place_call c _⟩

/-- Behind a subscriber's key there is something exactly when one of the batches had a
counter of it to write. -/
theorem subscriber_filled (h : Taken calls {}) (m : UInt64) :
    ((consumed calls).hashes (kSubPrefix ++ Decimal.digits m.toNat)).keys ≠ [] ↔
      ∃ c ∈ calls, ∃ f, batchValue c.batch (.sub m f) ≠ 0 := by
  have hkeys : ∀ field, field ∈ ((consumed calls).hashes (kSubPrefix ++ Decimal.digits m.toNat)).keys
      ↔ ∃ c ∈ calls, ∃ call ∈ consumeCalls c.visit c.batch c.source,
        call.place = .hash (kSubPrefix ++ Decimal.digits m.toNat) field := by
    intro field
    rw [Db.mem_hashes, ← Option.isSome_iff_exists, consumed_filled h]
  constructor
  · intro hne
    obtain ⟨field, hfield⟩ := List.exists_mem_of_ne_nil _ hne
    obtain ⟨c, hc, call, hcall, hp⟩ := (hkeys field).mp hfield
    have hcounter : ∃ d : Counter, d.place = .hash (kSubPrefix ++ Decimal.digits m.toNat) field := by
      rcases mem_consumeCalls.mp hcall with hw | hm
      · obtain ⟨d, v, -, -, rfl⟩ := mem_writeCalls.mp hw
        exact ⟨d, by rw [← hp, place_call]⟩
      · unfold markCalls at hm
        split at hm
        · obtain rfl := List.mem_singleton.mp hm
          simp only [Call.place, markPlace, Place.hash.injEq] at hp
          exact absurd hp.1.symm (subKey_ne _)
        · cases hm
    obtain ⟨d, hd⟩ := hcounter
    obtain ⟨m', f, rfl, hm, rfl⟩ := sub_place hd
    obtain rfl : m' = m := UInt64.toNat.inj hm
    exact ⟨c, hc, f, called_iff.mp ⟨call, hcall, hp.trans hd.symm⟩⟩
  · rintro ⟨c, hc, f, hne⟩
    obtain ⟨call, hcall, hp⟩ : ∃ call ∈ consumeCalls c.visit c.batch c.source,
        call.place = (Counter.sub m f).place := called_iff.mpr hne
    exact List.ne_nil_of_mem ((hkeys f.name).mpr ⟨c, hc, call, hcall, hp⟩)

/-! ## Found or not -/

/-- A record that adds something to its subscriber: any but a call of no seconds and a
session of no bytes. -/
def Worth (r : CdrRecord) : Prop :=
  match r.usageType with
  | .moc | .mtc => r.duration ≠ 0
  | .d => r.bytesReceived ≠ 0 ∨ r.bytesTransmitted ≠ 0
  | _ => True

/-- In one of the batches, what the records of `m` come to in one of the nine sums is no
multiple of 2^64. -/
def Counts (calls : List ConsumeCall) (m : UInt64) : Prop :=
  ∃ c ∈ calls, ∃ f, sumOver c.batch (OfSub m.toNat) (subAdds · f) % 2 ^ 64 ≠ 0

theorem worth_iff (r : CdrRecord) : Worth r ↔ ∃ f, subAdds r f ≠ 0 := by
  have hnat : ∀ n : UInt64, n ≠ 0 ↔ n.toNat ≠ 0 := fun n => by
    rw [Ne, ← UInt64.toNat_inj]
    rfl
  unfold Worth
  constructor
  · intro h
    unfold subAdds
    cases hu : r.usageType <;> rw [hu] at h
    · exact ⟨.voiceOut, (hnat _).mp h⟩
    · exact ⟨.voiceIn, (hnat _).mp h⟩
    · exact ⟨.smsOut, one_ne_zero⟩
    · exact ⟨.smsIn, one_ne_zero⟩
    · rcases h with h | h
      · exact ⟨.dataRx, (hnat _).mp h⟩
      · exact ⟨.dataTx, (hnat _).mp h⟩
    · exact ⟨.noans, one_ne_zero⟩
    · exact ⟨.busy, one_ne_zero⟩
    · exact ⟨.failed, one_ne_zero⟩
  · rintro ⟨f, hf⟩
    unfold subAdds at hf
    cases hu : r.usageType <;> rw [hu] at hf <;> cases f <;>
      simp only [ne_eq, not_true_eq_false] at hf ⊢
    · exact (hnat _).mpr hf
    · exact (hnat _).mpr hf
    · exact .inl ((hnat _).mpr hf)
    · exact .inr ((hnat _).mpr hf)

/-- Where no sum of a batch reaches 2^64, one record that adds something is enough. -/
theorem counts_iff_worth {m : UInt64}
    (h : ∀ c ∈ calls, ∀ f, sumOver c.batch (OfSub m.toNat) (subAdds · f) < 2 ^ 64) :
    Counts calls m ↔ ∃ r ∈ recordsOf calls, r.subscriberMSISDN = m ∧ Worth r := by
  have hpos : ∀ (batch : List CdrRecord) (f : SubField),
      sumOver batch (OfSub m.toNat) (subAdds · f) ≠ 0 ↔
        ∃ r ∈ batch, r.subscriberMSISDN = m ∧ subAdds r f ≠ 0 := by
    intro batch f
    unfold sumOver
    rw [Ne, List.sum_eq_zero_iff]
    simp only [List.mem_map, List.mem_filter, decide_eq_true_eq, OfSub, UInt64.toNat_inj]
    push Not
    constructor
    · rintro ⟨_, ⟨r, ⟨hr, hm⟩, rfl⟩, hne⟩
      exact ⟨r, hr, hm, hne⟩
    · rintro ⟨r, hr, hm, hne⟩
      exact ⟨_, ⟨r, ⟨hr, hm⟩, rfl⟩, hne⟩
  unfold Counts recordsOf
  simp only [worth_iff, List.mem_flatMap]
  constructor
  · rintro ⟨c, hc, f, hne⟩
    rw [Nat.mod_eq_of_lt (h c hc f)] at hne
    obtain ⟨r, hr, hm, hadd⟩ := (hpos c.batch f).mp hne
    exact ⟨r, ⟨c, hc, hr⟩, hm, f, hadd⟩
  · rintro ⟨r, ⟨c, hc, hr⟩, hm, f, hadd⟩
    refine ⟨c, hc, f, ?_⟩
    rw [Nat.mod_eq_of_lt (h c hc f)]
    exact (hpos c.batch f).mpr ⟨r, hr, hm, hadd⟩

variable {store : IQueryStore}

/-- The status of an entity: 404 for a hash without a field. -/
theorem entity_status {hashes : Hashes} (hs : store.Serves hashes) (hup : store.Up)
    (pre name id missing : Text) (names : List (Text × Text)) (log : List Read) :
    (QueryService.entity store pre name id missing names log).map (·.1.status) =
      some (if (hashes (pre ++ id)).keys = [] then 404 else 200) := by
  obtain ⟨fields, hr⟩ := Option.isSome_iff_exists.mp (hup.hgetall log.length (pre ++ id))
  have hread : store.readAll (pre ++ id) log =
      some (some fields, log ++ [.hgetall (pre ++ id)]) := by
    unfold IQueryStore.readAll
    rw [hr]
  have hempty : fields = [] ↔ (hashes (pre ++ id)).keys = [] := by
    have hp := hs.hgetall _ _ _ hr
    rw [← List.length_eq_zero_iff, hp.length_eq, List.length_map, List.length_eq_zero_iff]
    exact List.map_eq_nil_iff.symm
  unfold QueryService.entity
  rw [bind_of_eq_some hread]
  by_cases h0 : fields = []
  · rw [if_pos (hempty.mp h0)]
    simp [h0]
  · rw [if_neg fun h => h0 (hempty.mpr h)]
    simp [h0]

/-- The status `msisdn` answers a number with. -/
def subscriberStatus (store : IQueryStore) (m : UInt64) (log : List Read) : Option Nat :=
  (QueryService.msisdn store (Decimal.digits m.toNat) log).map (·.1.status)

theorem subscriber_status (h : Taken calls {}) (hs : store.Serves (consumed calls).hashes)
    (hup : store.Up) (m : UInt64) (log : List Read) :
    subscriberStatus store m log = some 200 ∧ (∃ c ∈ calls, ∃ f, batchValue c.batch (.sub m f) ≠ 0) ∨
      subscriberStatus store m log = some 404 ∧
        ¬ ∃ c ∈ calls, ∃ f, batchValue c.batch (.sub m f) ≠ 0 := by
  have hstatus := entity_status hs hup kSubPrefix "msisdn".toList (Decimal.digits m.toNat)
    "subscriber not found".toList QueryService.kSubFields log
  by_cases h0 : ((consumed calls).hashes (kSubPrefix ++ Decimal.digits m.toNat)).keys = []
  · rw [if_pos h0] at hstatus
    exact .inr ⟨hstatus, fun hc => (subscriber_filled h m).mpr hc h0⟩
  · rw [if_neg h0] at hstatus
    exact .inl ⟨hstatus, (subscriber_filled h m).mp h0⟩

theorem batchValue_ne_zero {batch : List CdrRecord} {c : Counter} :
    batchValue batch c ≠ 0 ↔ amount batch c % 2 ^ 64 ≠ 0 := by
  rw [batchValue_eq, Ne, ← UInt64.toNat_inj, UInt64.toNat_ofNat']
  rfl

/-- **Who is found.**  When every write was accepted, a subscriber of some record is answered
with 200 exactly when one of its sums counted in one of the batches, and whoever is the
subscriber of none with 404. -/
theorem found_iff_counts (h : Taken calls {}) (hs : store.Serves (consumed calls).hashes)
    (hup : store.Up) (m : UInt64) (log : List Read) :
    (m ≠ 0 → (∃ r ∈ recordsOf calls, r.subscriberMSISDN = m) →
      (subscriberStatus store m log = some 200 ↔ Counts calls m)) ∧
    ((∀ r ∈ recordsOf calls, r.subscriberMSISDN ≠ m) →
      subscriberStatus store m log = some 404) := by
  have hstatus := subscriber_status h hs hup m log
  constructor
  · intro hm _
    have hcounts : Counts calls m ↔ ∃ c ∈ calls, ∃ f, batchValue c.batch (.sub m f) ≠ 0 := by
      unfold Counts
      simp only [sumOver_sub _ hm, batchValue_ne_zero]
    rw [hcounts]
    rcases hstatus with ⟨hs, hc⟩ | ⟨hs, hc⟩
    · exact ⟨fun _ => hc, fun _ => hs⟩
    · rw [hs]
      exact ⟨nofun, fun h => absurd h hc⟩
  · intro hnone
    have hzero : ∀ c ∈ calls, ∀ f, amount c.batch (.sub m f) = 0 := by
      intro c hc f
      refine List.sum_eq_zero fun n hn => ?_
      obtain ⟨r, hr, rfl⟩ := List.mem_map.mp hn
      have hne := hnone r (List.mem_flatMap.mpr ⟨c, hc, hr⟩)
      exact if_neg fun h => hne h.2
    rcases hstatus with ⟨-, c, hc, f, hne⟩ | ⟨hs, -⟩
    · rw [batchValue_ne_zero, hzero c hc f] at hne
      exact absurd rfl hne
    · exact hs

/-- An outgoing call that was over at once. -/
def callOfNoSeconds : CdrRecord := { shortCall with duration := 0 }

/-- A call and a text in two batches, beside a call of no seconds. -/
def seenCalls : List ConsumeCall :=
  [countCall [shortCall, { callOfNoSeconds with subscriberMSISDN := 5 }],
    countCall [{ shortCall with usageType := .smsMo, subscriberMSISDN := 7 }]]

theorem found_iff_counts_call :
    subscriberStatus (consumed seenCalls).hashes.store 1 [] = some 200 ∧
      subscriberStatus (consumed seenCalls).hashes.store 7 [] = some 200 ∧
      subscriberStatus (consumed seenCalls).hashes.store 9 [] = some 404 := by
  have htaken : Taken seenCalls {} := ⟨by unfold AllTaken; decide +kernel,
    by unfold AllTaken; decide +kernel, trivial⟩
  have hfound := fun m => found_iff_counts htaken (Hashes.store_serves _) (Hashes.store_up _) m []
  have hcall : Counts seenCalls 1 := ⟨_, List.mem_cons_self, .voiceOut, by decide +kernel⟩
  have htext : Counts seenCalls 7 :=
    ⟨_, List.mem_cons_of_mem _ List.mem_cons_self, .smsOut, by decide +kernel⟩
  exact ⟨((hfound 1).1 (by decide) (by decide)).mpr hcall,
    ((hfound 7).1 (by decide) (by decide)).mpr htext, (hfound 9).2 (by decide)⟩

/-- Its subscriber was seen and is not found. -/
theorem seen_and_not_found :
    ¬ ∀ (calls : List ConsumeCall) (store : IQueryStore) (m : UInt64) (log : List Read),
      Taken calls {} → store.Serves (consumed calls).hashes → store.Up → m ≠ 0 →
      (∃ r ∈ recordsOf calls, r.subscriberMSISDN = m) →
      subscriberStatus store m log = some 200 := by
  intro h
  have htaken : Taken [countCall [callOfNoSeconds]] {} :=
    ⟨by unfold AllTaken; decide +kernel, trivial⟩
  have hfound := h _ _ 1 [] htaken (Hashes.store_serves _) (Hashes.store_up _) (by decide)
    ⟨callOfNoSeconds, by decide, rfl⟩
  revert hfound
  decide +kernel

end CdrProcessor
