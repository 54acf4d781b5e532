import CdrProcessor.PathRoute
import CdrProcessor.Recorded
import CdrProcessor.Weights

/-! What is read back is what was recorded: every reader, over the store that a list of
batches leaves. -/

namespace CdrProcessor

open Script

/-! ## Hashes on the wire -/

/-- The hashes of a store of numbers, as they are read. -/
def Db.hashes (db : Db) : Hashes := fun key =>
  ⟨(db.hash key).entries.map (Sigma.map id fun _ => Decimal.digits),
    (db.hash key).nodupKeys.map₂ _ _⟩

theorem Db.hashes_lookup (db : Db) (key field : Text) :
    (db.hashes key).lookup field = (db.value (.hash key field)).map Decimal.digits :=
  List.dlookup_map₂ (l := (db.hash key).entries) (f := fun _ => Decimal.digits) field

theorem Db.mem_hashes (db : Db) (key field : Text) :
    field ∈ (db.hashes key).keys ↔ ∃ v, db.value (.hash key field) = some v := by
  rw [← AList.mem_keys, ← AList.lookup_isSome, Db.hashes_lookup, Option.isSome_map,
    Option.isSome_iff_exists]

/-- A value that is stored reads as itself, a missing one as 0. -/
theorem Db.toNum_lookup (db : Db) {key field : Text} (h : db.count (.hash key field) < 2 ^ 64) :
    toNum (((db.hashes key).lookup field).getD []) = .ofNat (db.count (.hash key field)) := by
  unfold Db.count at h ⊢
  rw [Db.hashes_lookup]
  cases hv : db.value (.hash key field) with
  | none => exact toNum_nil
  | some v =>
    rw [hv] at h
    exact toNum_digits h

variable {store : IQueryStore} {calls : List ConsumeCall}

theorem fieldNum_read {db : Db} (hs : store.Serves db.hashes) {n : Nat} {key : Text}
    {fields : List (Text × Text)} (hr : store.hgetall n key = some fields) {field : Text}
    (h : db.count (.hash key field) < 2 ^ 64) :
    fieldNum fields field = .ofNat (db.count (.hash key field)) := by
  rw [fieldNum_perm (hs.hgetall n key fields hr), db.toNum_lookup h]

/-! ## Numbers of the recorded store -/

theorem count_lt (hx : Exact (recordsOf calls)) {key field : Text} (hkey : key ≠ kProgressKey) :
    (consumed calls).count (.hash key field) < 2 ^ 64 := by
  cases hv : (consumed calls).value (.hash key field) with
  | none =>
    unfold Db.count
    rw [hv]
    decide
  | some v =>
    obtain ⟨c, hc, -⟩ := consumed_some hx hkey hv
    rw [← hc, consumed_count hx]
    exact (hx c).trans (by decide)

/-- A key that no counter lives under counts nothing. -/
theorem count_eq_zero (hx : Exact (recordsOf calls)) {key field : Text}
    (hkey : key ≠ kProgressKey) (h : ∀ c : Counter, c.place ≠ .hash key field) :
    (consumed calls).count (.hash key field) = 0 := by
  unfold Db.count
  cases hv : (consumed calls).value (.hash key field) with
  | none => rfl
  | some v =>
    obtain ⟨c, hc, -⟩ := consumed_some hx hkey hv
    exact absurd hc (h c)

theorem sumOver_eq_zero (records : List CdrRecord) (p : CdrRecord → Prop) [DecidablePred p]
    (g : CdrRecord → Nat) (h : ∀ r, ¬ p r) : sumOver records p g = 0 := by
  rw [sumOver_eq]
  simp [h]

theorem subKey_ne (n : Nat) : kSubPrefix ++ Decimal.digits n ≠ kProgressKey :=
  ne_progress (by decide) (by decide) _

theorem opKey_ne (n : Nat) : kOpPrefix ++ Decimal.digits n ≠ kProgressKey :=
  ne_progress (by decide) (by decide) _

theorem linkKey_ne (s : Text) : linkKey s ≠ kProgressKey :=
  ne_progress (by decide) (by decide) _

theorem count_sub (hx : Exact (recordsOf calls)) {n : Nat} (hn : n ≠ 0) (f : SubField) :
    (consumed calls).count (.hash (kSubPrefix ++ Decimal.digits n) f.name) =
      sumOver (recordsOf calls) (OfSub n) (subAdds · f) := by
  by_cases hlt : n < 2 ^ 64
  · obtain ⟨m, rfl⟩ : ∃ m : UInt64, m.toNat = n := ⟨.ofNat n, UInt64.toNat_ofNat_of_lt' hlt⟩
    have hm : m ≠ 0 := by
      rintro rfl
      exact hn rfl
    rw [sumOver_sub _ hm]
    exact consumed_count hx (.sub m f)
  · rw [sumOver_eq_zero _ _ _ fun r (h : OfSub n r) =>
      hlt (lt_of_eq_of_lt h.symm r.subscriberMSISDN.toNat_lt)]
    refine count_eq_zero hx (subKey_ne n) fun c hc => ?_
    obtain ⟨m, -, -, rfl, -⟩ := sub_place hc
    exact hlt m.toNat_lt

theorem count_op (hx : Exact (recordsOf calls)) {n : Nat} (hn : n ≠ 0) (f : OpField) :
    (consumed calls).count (.hash (kOpPrefix ++ Decimal.digits n) f.name) =
      sumOver (recordsOf calls) (OfOp n) (opAdds · f) := by
  by_cases hlt : n < 2 ^ 32
  · obtain ⟨k, rfl⟩ : ∃ k : UInt32, k.toNat = n := ⟨.ofNat n, UInt32.toNat_ofNat_of_lt' hlt⟩
    have hk : k ≠ 0 := by
      rintro rfl
      exact hn rfl
    rw [sumOver_op _ hk, ← UInt32.toNat_toUInt64]
    exact consumed_count hx (.op k f)
  · rw [sumOver_eq_zero _ _ _ fun r (h : OfOp n r) => hlt (h.2 ▸ (mccmncOf r).toNat_lt)]
    refine count_eq_zero hx (opKey_ne n) fun c hc => ?_
    obtain ⟨k, -, -, rfl, -⟩ := op_place hc
    exact hlt k.toNat_lt

theorem count_link (hx : Exact (recordsOf calls)) {a b : Nat} (hab : a ≠ b) (f : LinkField) :
    (consumed calls).count (.hash (linkKey (Decimal.digits a)) (Decimal.digits b ++ f.suffix)) =
      sumOver (recordsOf calls) (Names a b) (linkAdds · f) := by
  by_cases hlt : a < 2 ^ 64 ∧ b < 2 ^ 64
  · obtain ⟨x, rfl⟩ : ∃ x : UInt64, x.toNat = a := ⟨.ofNat a, UInt64.toNat_ofNat_of_lt' hlt.1⟩
    obtain ⟨y, rfl⟩ : ∃ y : UInt64, y.toNat = b := ⟨.ofNat b, UInt64.toNat_ofNat_of_lt' hlt.2⟩
    rw [sumOver_link _ (fun h => hab (congrArg _ h))]
    exact consumed_count hx (.link x y f)
  · rw [sumOver_eq_zero _ _ _ fun r (h : Names a b r) => hlt ?_]
    · refine count_eq_zero hx (linkKey_ne _) fun c hc => hlt ?_
      obtain ⟨x, y, g, -, hx', hf⟩ := link_place hc
      rw [← Decimal.digits_injective hx', ← Decimal.digits_injective (field_injective hf).1]
      exact ⟨x.toNat_lt, y.toNat_lt⟩
    · have h₁ := r.subscriberMSISDN.toNat_lt
      have h₂ := r.secondPartyMSISDN.toNat_lt
      rcases h.2.2 with ⟨rfl, rfl⟩ | ⟨rfl, rfl⟩
      · exact ⟨h₁, h₂⟩
      · exact ⟨h₂, h₁⟩

/-! ## Who is linked -/

theorem linked_recorded (hx : Exact (recordsOf calls)) {s t : Text} :
    Linked (consumed calls).hashes s t ↔ ∃ a b f, s = Decimal.digits a.toNat ∧
      t = Decimal.digits b.toNat ∧ amount (recordsOf calls) (.link a b f) ≠ 0 := by
  constructor
  · rintro ⟨field, hfield, rfl⟩
    obtain ⟨v, hv⟩ := ((consumed calls).mem_hashes _ _).mp hfield
    obtain ⟨c, hc, hne⟩ := consumed_some hx (linkKey_ne s) hv
    obtain ⟨a, b, f, rfl, rfl, rfl⟩ := link_place hc
    exact ⟨a, b, f, rfl, peerOf_field _ f, hne⟩
  · rintro ⟨a, b, f, rfl, rfl, hne⟩
    refine ⟨Decimal.digits b.toNat ++ f.suffix, ?_, peerOf_field _ f⟩
    exact ((consumed calls).mem_hashes _ _).mpr
      ⟨_, (consumed_value hx (.link a b f)).trans (if_neg hne)⟩

theorem linked_digits (hx : Exact (recordsOf calls)) {a b : Nat} :
    Linked (consumed calls).hashes (Decimal.digits a) (Decimal.digits b) ↔
      Recorded (recordsOf calls) a b := by
  rw [linked_recorded hx]
  constructor
  · rintro ⟨x, y, f, ha, hb, hne⟩
    rw [Decimal.digits_injective ha, Decimal.digits_injective hb]
    exact recorded_iff.mpr ⟨f, hne⟩
  · intro h
    obtain ⟨x, y, rfl, rfl⟩ := h.numbers
    obtain ⟨f, hne⟩ := recorded_iff.mp h
    exact ⟨x, y, f, rfl, rfl, hne⟩

theorem linked_symmetric (hx : Exact (recordsOf calls)) (s t : Text)
    (h : Linked (consumed calls).hashes s t) : Linked (consumed calls).hashes t s := by
  obtain ⟨a, b, f, rfl, rfl, hne⟩ := (linked_recorded hx).mp h
  rw [amount_link_comm] at hne
  exact (linked_recorded hx).mpr ⟨b, a, f, rfl, rfl, hne⟩

/-- A route between numbers goes over numbers, from contact to contact. -/
theorem route_numbers (hx : Exact (recordsOf calls)) {a b : Nat} {route : List Text}
    (h : IsRoute (Linked (consumed calls).hashes) (Decimal.digits a) (Decimal.digits b) route) :
    ∃ ids : List Nat, route = ids.map Decimal.digits ∧
      IsRoute (Recorded (recordsOf calls)) a b ids := by
  induction route generalizing a with
  | nil => cases h.head
  | cons s route ih =>
    obtain rfl : s = Decimal.digits a := by simpa using h.head
    cases route with
    | nil =>
      have hlast : some (Decimal.digits a) = some (Decimal.digits b) := h.last
      obtain rfl := Decimal.digits_injective (Option.some.inj hlast)
      exact ⟨[a], rfl, .single a⟩
    | cons s' route =>
      have hlink := h.chain.rel_head? rfl
      obtain ⟨x, y, f, -, rfl, -⟩ := (linked_recorded hx).mp hlink
      obtain ⟨ids, hids, hroute⟩ := ih (h.split (l := [Decimal.digits a])).2
      exact ⟨a :: ids, by rw [hids]; rfl, .cons ((linked_digits hx).mp hlink) hroute⟩

/-! ## Every reader -/

/-- Numbers under their names, in order. -/
def Json.addNumbers (json : Json) (numbers : List (Text × Nat)) : Json :=
  numbers.foldl (fun json e => json.addNumber e.1 (.ofNat e.2)) json

/-- The answer about a subscriber. -/
def subscriberJson (id : Text) (sum : SubField → Nat) : Json :=
  (({} : Json).addText "msisdn".toList id).addNumbers
    [("voice-out".toList, sum .voiceOut), ("voice-in".toList, sum .voiceIn),
      ("data-out".toList, sum .dataTx), ("data-in".toList, sum .dataRx),
      ("sms-out".toList, sum .smsOut), ("sms-in".toList, sum .smsIn),
      ("no-answer".toList, sum .noans), ("busy".toList, sum .busy), ("failed".toList, sum .failed)]

/-- The answer about an operator. -/
def operatorJson (id : Text) (sum : OpField → Nat) : Json :=
  (({} : Json).addText "mccmnc".toList id).addNumbers
    [("voice-out".toList, sum .voiceOut), ("voice-in".toList, sum .voiceIn),
      ("sms-out".toList, sum .smsOut), ("sms-in".toList, sum .smsIn)]

/-- The answer about the whole run. -/
def totalsJson (sum : TotalField → Nat) : Json :=
  ({} : Json).addNumbers
    [("records".toList, sum .records), ("moc-cnt".toList, sum .mocCnt),
      ("mtc-cnt".toList, sum .mtcCnt), ("sms-mo-cnt".toList, sum .smsMoCnt),
      ("sms-mt-cnt".toList, sum .smsMtCnt), ("data-cnt".toList, sum .dataCnt),
      ("noans-cnt".toList, sum .noansCnt), ("busy-cnt".toList, sum .busyCnt),
      ("failed-cnt".toList, sum .failedCnt), ("moc-dur".toList, sum .mocDur),
      ("mtc-dur".toList, sum .mtcDur), ("data-dur".toList, sum .dataDur),
      ("data-rx".toList, sum .dataRx), ("data-tx".toList, sum .dataTx)]

/-- The three numbers of every ordered pair. -/
abbrev Exchanged := Nat → Nat → LinkField → UInt64

/-- An object about a pair, closed with its three numbers. -/
def Exchanged.close (three : Exchanged) (a b : Nat) (json : Json) : Json :=
  json.addExchanged (three a b .dur) (three a b .cnt) (three a b .sms)

/-- Every answer about a pair carries the same three numbers, and both listings and their
count name the same peers, each once: those with a contact on record.  While the store can
be reached, whoever has one is answered. -/
structure PairsRead (store : IQueryStore) (records : List CdrRecord) (three : Exchanged) :
    Prop where
  link : ∀ a b log log' body,
    QueryService.link store (Decimal.digits a) (Decimal.digits b) log =
      some (⟨200, body⟩, log') →
    body = (three.close a b ((({} : Json).addText "first-party".toList (Decimal.digits a)).addText
      "second-party".toList (Decimal.digits b))).str
  peers : ∀ a, ∃ ids : List Nat, ids.Nodup ∧ (∀ b, b ∈ ids ↔ Recorded records a b) ∧
    (∀ visit params log log' body, params.weights = false →
      QueryService.peers store visit (Decimal.digits a) params log = some (⟨200, body⟩, log') →
      body = ((QueryService.listing (Decimal.digits a) ids.length params).addTexts "peers".toList
        (page (ids.map Decimal.digits) params)).str) ∧
    ∀ visit params log log' body, params.weights = true →
      QueryService.peers store visit (Decimal.digits a) params log = some (⟨200, body⟩, log') →
      ∃ all : List Peer,
        all.Perm (ids.map fun b =>
          ⟨Decimal.digits b, three a b .dur, three a b .sms, three a b .cnt⟩) ∧
        body = (((QueryService.listing (Decimal.digits a) ids.length params).addText "sort".toList
          (if params.sort = .sms then "sms".toList else "dur".toList)).addJsons "peers".toList
            ((page (orderPeers all params.sort) params).map QueryService.peerJson)).str
  path : ∀ cfg a b log log' body,
    PathService.path store cfg (Decimal.digits a) (Decimal.digits b) true log =
      some (⟨200, body⟩, log') →
    ∃ route : List Nat, IsRoute (Recorded records) a b route ∧
      body = ((({} : Json).addTexts "path".toList (route.map Decimal.digits)).addJsons
        "hops".toList ((route.zip route.tail).map fun pair =>
          three.close pair.1 pair.2 ((({} : Json).addText "from".toList
            (Decimal.digits pair.1)).addText "to".toList (Decimal.digits pair.2)))).str
  answered : store.Up → ∀ a b, Recorded records a b →
    (∀ log, ∃ body log', QueryService.link store (Decimal.digits a) (Decimal.digits b) log =
      some (⟨200, body⟩, log')) ∧
    ∀ visit params log, ∃ body log',
      QueryService.peers store visit (Decimal.digits a) params log = some (⟨200, body⟩, log')

/-- Every reader answers what the records come to. -/
structure ReadBack (store : IQueryStore) (records : List CdrRecord) : Prop where
  subscriber : ∀ n log log' body,
    QueryService.msisdn store (Decimal.digits n) log = some (⟨200, body⟩, log') →
    body = (subscriberJson (Decimal.digits n) fun f =>
      sumOver records (OfSub n) (subAdds · f)).str
  operator : ∀ n log log' body,
    QueryService.op store (Decimal.digits n) log = some (⟨200, body⟩, log') →
    body = (operatorJson (Decimal.digits n) fun f => sumOver records (OfOp n) (opAdds · f)).str
  pairs : ∃ three : Exchanged, PairsRead store records three ∧
    ∀ a b f, a ≠ b → three a b f = .ofNat (sumOver records (Names a b) (linkAdds · f))
  totals : ∀ log log' body, StatsService.totals store log = some (⟨200, body⟩, log') →
    body = (totalsJson fun f => (records.map fun r => totalAdds r f).sum).str
  totalsAnswered : store.Up → ∀ log, ∃ log', StatsService.totals store log =
    some (⟨200, (totalsJson fun f => (records.map fun r => totalAdds r f).sum).str⟩, log')

/-! ## Entities and totals -/

/-- The fields of a subscriber, as they go out. -/
theorem subscriberJson_read {fields : List (Text × Text)} {sum : SubField → Nat}
    (h : ∀ f : SubField, fieldNum fields f.name = .ofNat (sum f)) (id : Text) :
    addFields (({} : Json).addText "msisdn".toList id) fields QueryService.kSubFields =
      subscriberJson id sum := by
  have hnames : QueryService.kSubFields = [(SubField.voiceOut.name, "voice-out".toList),
      (SubField.voiceIn.name, "voice-in".toList), (SubField.dataTx.name, "data-out".toList),
      (SubField.dataRx.name, "data-in".toList), (SubField.smsOut.name, "sms-out".toList),
      (SubField.smsIn.name, "sms-in".toList), (SubField.noans.name, "no-answer".toList),
      (SubField.busy.name, "busy".toList), (SubField.failed.name, "failed".toList)] := rfl
  unfold addFields
  rw [hnames]
  simp only [List.foldl_cons, List.foldl_nil, h]
  rfl

theorem operatorJson_read {fields : List (Text × Text)} {sum : OpField → Nat}
    (h : ∀ f : OpField, fieldNum fields f.name = .ofNat (sum f)) (id : Text) :
    addFields (({} : Json).addText "mccmnc".toList id) fields QueryService.kOpFields =
      operatorJson id sum := by
  have hnames : QueryService.kOpFields = [(OpField.voiceOut.name, "voice-out".toList),
      (OpField.voiceIn.name, "voice-in".toList), (OpField.smsOut.name, "sms-out".toList),
      (OpField.smsIn.name, "sms-in".toList)] := rfl
  unfold addFields
  rw [hnames]
  simp only [List.foldl_cons, List.foldl_nil, h]
  rfl

theorem totalsJson_read {fields : List (Text × Text)} {sum : TotalField → Nat}
    (h : ∀ f : TotalField, fieldNum fields f.name = .ofNat (sum f)) :
    addFields {} fields (StatsService.kTotalFields.map fun field =>
      (field, StatsService.reported field)) = totalsJson sum := by
  have hnames : (StatsService.kTotalFields.map fun field => (field, StatsService.reported field)) =
      [(TotalField.records.name, "records".toList), (TotalField.mocCnt.name, "moc-cnt".toList),
        (TotalField.mtcCnt.name, "mtc-cnt".toList), (TotalField.smsMoCnt.name, "sms-mo-cnt".toList),
        (TotalField.smsMtCnt.name, "sms-mt-cnt".toList), (TotalField.dataCnt.name, "data-cnt".toList),
        (TotalField.noansCnt.name, "noans-cnt".toList), (TotalField.busyCnt.name, "busy-cnt".toList),
        (TotalField.failedCnt.name, "failed-cnt".toList), (TotalField.mocDur.name, "moc-dur".toList),
        (TotalField.mtcDur.name, "mtc-dur".toList), (TotalField.dataDur.name, "data-dur".toList),
        (TotalField.dataRx.name, "data-rx".toList), (TotalField.dataTx.name, "data-tx".toList)] := by
    decide
  unfold addFields
  rw [hnames]
  simp only [List.foldl_cons, List.foldl_nil, h]
  rfl

theorem entity_some {pre name id missing body : Text} {names : List (Text × Text)}
    {log log' : List Read}
    (h : QueryService.entity store pre name id missing names log = some (⟨200, body⟩, log')) :
    ∃ fields, store.hgetall log.length (pre ++ id) = some fields ∧ fields ≠ [] ∧
      body = (addFields (({} : Json).addText name id) fields names).str := by
  have hread : store.readAll (pre ++ id) log =
    some (store.hgetall log.length (pre ++ id), log ++ [.hgetall (pre ++ id)]) := rfl
  unfold QueryService.entity at h
  rw [bind_of_eq_some hread] at h
  cases hr : store.hgetall log.length (pre ++ id) with
  | none => rw [hr] at h; cases h
  | some fields =>
    rw [hr] at h
    dsimp only at h
    by_cases hne : fields = []
    · rw [if_pos hne] at h; cases h
    · rw [if_neg hne] at h
      cases h
      exact ⟨fields, rfl, hne, rfl⟩

/-- An answer means that something stands under the key. -/
theorem found_value {key : Text} {n : Nat} {fields : List (Text × Text)}
    (hx : Exact (recordsOf calls)) (hs : store.Serves (consumed calls).hashes)
    (hkey : key ≠ kProgressKey) (hr : store.hgetall n key = some fields) (hne : fields ≠ []) :
    ∃ (c : Counter) (field : Text), c.place = .hash key field ∧
      amount (recordsOf calls) c ≠ 0 := by
  obtain ⟨e, fields, rfl⟩ := List.exists_cons_of_ne_nil hne
  obtain ⟨e', he', rfl⟩ := List.mem_map.mp ((hs.hgetall _ _ _ hr).mem_iff.mp List.mem_cons_self)
  have hfield : e'.1 ∈ ((consumed calls).hashes key).keys := List.mem_map_of_mem he'
  obtain ⟨v, hv⟩ := ((consumed calls).mem_hashes _ _).mp hfield
  obtain ⟨c, hc, hamount⟩ := consumed_some hx hkey hv
  exact ⟨c, e'.1, hc, hamount⟩

theorem subscriber_read (hx : Exact (recordsOf calls)) (hs : store.Serves (consumed calls).hashes)
    {n : Nat} {log log' : List Read} {body : Text}
    (h : QueryService.msisdn store (Decimal.digits n) log = some (⟨200, body⟩, log')) :
    body = (subscriberJson (Decimal.digits n) fun f =>
      sumOver (recordsOf calls) (OfSub n) (subAdds · f)).str := by
  obtain ⟨fields, hr, hne, rfl⟩ := entity_some h
  obtain ⟨c, field, hc, hamount⟩ := found_value hx hs (subKey_ne n) hr hne
  have hn : n ≠ 0 := by
    rintro rfl
    obtain ⟨m, f, rfl, hm, -⟩ := sub_place hc
    obtain rfl : m = 0 := UInt64.toNat_inj.mp hm
    exact hamount (amount_eq_zero (adds_sub_zero · f) _)
  have hnum : ∀ f : SubField, fieldNum fields f.name =
      .ofNat (sumOver (recordsOf calls) (OfSub n) (subAdds · f)) := by
    intro f
    rw [fieldNum_read hs hr (count_lt hx (subKey_ne n)), count_sub hx hn]
  exact congrArg Json.str (subscriberJson_read hnum _)

theorem operator_read (hx : Exact (recordsOf calls)) (hs : store.Serves (consumed calls).hashes)
    {n : Nat} {log log' : List Read} {body : Text}
    (h : QueryService.op store (Decimal.digits n) log = some (⟨200, body⟩, log')) :
    body = (operatorJson (Decimal.digits n) fun f =>
      sumOver (recordsOf calls) (OfOp n) (opAdds · f)).str := by
  obtain ⟨fields, hr, hne, rfl⟩ := entity_some h
  obtain ⟨c, field, hc, hamount⟩ := found_value hx hs (opKey_ne n) hr hne
  have hn : n ≠ 0 := by
    rintro rfl
    obtain ⟨k, f, rfl, hk, -⟩ := op_place hc
    obtain rfl : k = 0 := UInt32.toNat_inj.mp hk
    exact hamount (amount_eq_zero (adds_op_zero · f) _)
  have hnum : ∀ f : OpField, fieldNum fields f.name =
      .ofNat (sumOver (recordsOf calls) (OfOp n) (opAdds · f)) := by
    intro f
    rw [fieldNum_read hs hr (count_lt hx (opKey_ne n)), count_op hx hn]
  exact congrArg Json.str (operatorJson_read hnum _)

/-- What the totals are answered with, once read. -/
theorem totals_answers (hx : Exact (recordsOf calls))
    (hs : store.Serves (consumed calls).hashes) {log : List Read} {fields : List (Text × Text)}
    (hr : store.hgetall log.length kTotalKey = some fields) :
    StatsService.totals store log = some (⟨200, (totalsJson fun f =>
      ((recordsOf calls).map fun r => totalAdds r f).sum).str⟩, log ++ [.hgetall kTotalKey]) := by
  have hread : store.readAll kTotalKey log = some (some fields, log ++ [.hgetall kTotalKey]) := by
    unfold IQueryStore.readAll
    rw [hr]
  have hnum : ∀ f : TotalField, fieldNum fields f.name =
      .ofNat ((recordsOf calls).map fun r => totalAdds r f).sum := by
    intro f
    rw [fieldNum_read hs hr (count_lt hx (by decide))]
    exact congrArg UInt64.ofNat (consumed_count hx (.total f))
  unfold StatsService.totals
  rw [bind_of_eq_some hread, ← totalsJson_read hnum]
  rfl

theorem totals_read (hx : Exact (recordsOf calls)) (hs : store.Serves (consumed calls).hashes)
    {log log' : List Read} {body : Text}
    (h : StatsService.totals store log = some (⟨200, body⟩, log')) :
    body = (totalsJson fun f => ((recordsOf calls).map fun r => totalAdds r f).sum).str := by
  cases hr : store.hgetall log.length kTotalKey with
  | none =>
    have hread : store.readAll kTotalKey log = some (none, log ++ [.hgetall kTotalKey]) := by
      unfold IQueryStore.readAll
      rw [hr]
    unfold StatsService.totals at h
    rw [bind_of_eq_some hread] at h
    cases h
  | some fields =>
    rw [totals_answers hx hs hr] at h
    cases h
    rfl

/-! ## Pairs -/

/-- The three numbers of a pair, as the link hash of the first holds them. -/
def storedThree (hashes : Hashes) : Exchanged := fun a b f =>
  PathService.stored hashes (Decimal.digits a) (Decimal.digits b) f.suffix

theorem storedThree_eq (hx : Exact (recordsOf calls)) {a b : Nat} (hab : a ≠ b) (f : LinkField) :
    storedThree (consumed calls).hashes a b f =
      .ofNat (sumOver (recordsOf calls) (Names a b) (linkAdds · f)) := by
  unfold storedThree PathService.stored
  rw [Db.toNum_lookup _ (count_lt hx (linkKey_ne _)), count_link hx hab]

theorem link_read {hashes : Hashes} (hs : store.Serves hashes) {a b : Nat}
    {log log' : List Read} {body : Text}
    (h : QueryService.link store (Decimal.digits a) (Decimal.digits b) log =
      some (⟨200, body⟩, log')) :
    body = ((storedThree hashes).close a b ((({} : Json).addText "first-party".toList
      (Decimal.digits a)).addText "second-party".toList (Decimal.digits b))).str := by
  generalize hfields : [Decimal.digits b ++ kFieldDurSuffix, Decimal.digits b ++ kFieldSmsSuffix,
    Decimal.digits b ++ kFieldCntSuffix] = fields at h
  have hread : store.readSome (linkKey (Decimal.digits a)) fields log =
    some (store.hmget log.length (linkKey (Decimal.digits a)) fields,
      log ++ [.hmget (linkKey (Decimal.digits a)) fields]) := rfl
  unfold QueryService.link at h
  rw [hfields, bind_of_eq_some hread] at h
  cases hv : store.hmget log.length (linkKey (Decimal.digits a)) fields with
  | none => rw [hv] at h; cases h
  | some values =>
    rw [hv] at h
    dsimp only at h
    split at h
    · cases h
    · cases h
      rw [hs.hmget _ _ _ _ hv, ← hfields]
      rfl

/-- The fields of a link hash are those of the three metrics, each field once. -/
theorem linkFields_read (hx : Exact (recordsOf calls)) (hs : store.Serves (consumed calls).hashes)
    {n : Nat} {s : Text} {fields : List (Text × Text)}
    (hr : store.hgetall n (linkKey s) = some fields) :
    LinkFields fields ∧ (fields.map Prod.fst).Nodup ∧
      ∀ t, Linked (consumed calls).hashes s t ↔ ∃ e ∈ fields, peerOf e.1 = t := by
  have hkeys := hs.keys_perm hr
  refine ⟨fun e he => ?_, hkeys.nodup_iff.mpr (AList.keys_nodup _), hs.linked_iff hr⟩
  obtain ⟨v, hv⟩ := ((consumed calls).mem_hashes _ _).mp
    (hkeys.mem_iff.mp (List.mem_map_of_mem he))
  obtain ⟨c, hc, -⟩ := consumed_some hx (linkKey_ne s) hv
  obtain ⟨a, b, f, -, -, hf⟩ := link_place hc
  exact ⟨_, f, hf.symm⟩

/-- Everybody linked to a number, ascending. -/
theorem linked_numbers (hx : Exact (recordsOf calls)) (s : Text) :
    ∃ ids : List Nat, (ids.map Decimal.digits).Pairwise (· < ·) ∧
      ∀ t, t ∈ ids.map Decimal.digits ↔ Linked (consumed calls).hashes s t := by
  have hmem : ∀ t, t ∈ unique ((((consumed calls).hashes (linkKey s)).keys.map
      peerOf).insertionSort (· ≤ ·)) ↔ Linked (consumed calls).hashes s t := by
    intro t
    rw [mem_unique, List.mem_insertionSort, List.mem_map]
    rfl
  have hsorted := unique_sorted (List.pairwise_insertionSort (· ≤ ·)
    (((consumed calls).hashes (linkKey s)).keys.map peerOf))
  generalize unique ((((consumed calls).hashes (linkKey s)).keys.map
    peerOf).insertionSort (· ≤ ·)) = names at hmem hsorted
  obtain ⟨ids, rfl⟩ : ∃ ids : List Nat, ids.map Decimal.digits = names := by
    have hnum : ∀ t ∈ names, ∃ n, Decimal.digits n = t := by
      intro t ht
      obtain ⟨a, b, f, -, rfl, -⟩ := (linked_recorded hx).mp ((hmem t).mp ht)
      exact ⟨_, rfl⟩
    choose! num hnum using hnum
    refine ⟨names.map num, ?_⟩
    rw [List.map_map]
    exact (List.map_congr_left hnum).trans (List.map_id names)
  exact ⟨ids, hsorted, hmem⟩

theorem peers_read (hs : store.Serves (consumed calls).hashes) {s : Text}
    {ids : List Nat} (hsorted : (ids.map Decimal.digits).Pairwise (· < ·))
    (hids : ∀ t, t ∈ ids.map Decimal.digits ↔ Linked (consumed calls).hashes s t)
    {visit : PeerVisit} {params : QueryParams} (hw : params.weights = false)
    {log log' : List Read} {body : Text}
    (h : QueryService.peers store visit s params log = some (⟨200, body⟩, log')) :
    body = ((QueryService.listing s ids.length params).addTexts "peers".toList
      (page (ids.map Decimal.digits) params)).str := by
  unfold QueryService.peers at h
  rw [hw, if_neg Bool.false_ne_true] at h
  obtain ⟨answer, log₁, hrun, h⟩ := bind_eq_some.mp h
  cases answer with
  | none => cases h
  | some all =>
    obtain ⟨hmem, hpair⟩ := linkPeers_some hs hrun
    obtain rfl : all = ids.map Decimal.digits :=
      hpair.eq_of_mem_iff hsorted fun t => (hmem t).trans (hids t).symm
    dsimp only at h
    split at h
    · cases h
    · cases h
      rw [List.length_map]

theorem weighted_read (hx : Exact (recordsOf calls)) (hs : store.Serves (consumed calls).hashes)
    {a : Nat} {ids : List Nat} (hsorted : (ids.map Decimal.digits).Pairwise (· < ·))
    (hids : ∀ t, t ∈ ids.map Decimal.digits ↔
      Linked (consumed calls).hashes (Decimal.digits a) t)
    {visit : PeerVisit} {params : QueryParams} (hw : params.weights = true)
    {log log' : List Read} {body : Text}
    (h : QueryService.peers store visit (Decimal.digits a) params log =
      some (⟨200, body⟩, log')) :
    ∃ all : List Peer,
      all.Perm (ids.map fun b => ⟨Decimal.digits b, storedThree (consumed calls).hashes a b .dur,
        storedThree (consumed calls).hashes a b .sms,
        storedThree (consumed calls).hashes a b .cnt⟩) ∧
      body = (((QueryService.listing (Decimal.digits a) ids.length params).addText "sort".toList
        (if params.sort = .sms then "sms".toList else "dur".toList)).addJsons "peers".toList
          ((page (orderPeers all params.sort) params).map QueryService.peerJson)).str := by
  unfold QueryService.peers at h
  rw [hw, if_pos rfl] at h
  unfold QueryService.weighted at h
  rw [bind_of_eq_some (linkWeights_eq store visit _ log)] at h
  cases hr : store.hgetall log.length (linkKey (Decimal.digits a)) with
  | none => rw [hr] at h; cases h
  | some fields =>
    rw [hr, Option.map_some] at h
    obtain ⟨hn, hd, hlinked⟩ := linkFields_read hx hs hr
    have hnodup : (ids.map Decimal.digits).Nodup := hsorted.imp fun h => ne_of_lt h
    have hperm := weighed_perm visit hn hd hnodup fun t => (hids t).trans (hlinked t)
    rw [List.map_map] at hperm
    have hpeer : ∀ b, peerNamed fields (Decimal.digits b) = ⟨Decimal.digits b,
        storedThree (consumed calls).hashes a b .dur, storedThree (consumed calls).hashes a b .sms,
        storedThree (consumed calls).hashes a b .cnt⟩ := by
      intro b
      unfold peerNamed
      simp only [fieldNum_perm (hs.hgetall _ _ _ hr)]
      rfl
    have hpeers : ids.map (peerNamed fields ∘ Decimal.digits) = _ :=
      List.map_congr_left fun b _ => hpeer b
    rw [hpeers] at hperm
    refine ⟨_, hperm, ?_⟩
    have hlen := hperm.length_eq
    rw [List.length_map] at hlen
    dsimp only at h
    split at h
    · cases h
    · cases h
      rw [hlen]
      rfl

theorem path_read (hx : Exact (recordsOf calls)) (hs : store.Serves (consumed calls).hashes)
    {cfg : QueryConfig} {a b : Nat} {log log' : List Read} {body : Text}
    (h : PathService.path store cfg (Decimal.digits a) (Decimal.digits b) true log =
      some (⟨200, body⟩, log')) :
    ∃ route : List Nat, IsRoute (Recorded (recordsOf calls)) a b route ∧
      body = ((({} : Json).addTexts "path".toList (route.map Decimal.digits)).addJsons
        "hops".toList ((route.zip route.tail).map fun pair =>
          (storedThree (consumed calls).hashes).close pair.1 pair.2 ((({} : Json).addText
            "from".toList (Decimal.digits pair.1)).addText "to".toList
              (Decimal.digits pair.2)))).str := by
  obtain ⟨route, rfl, hroute, -⟩ := PathService.path_answer hs (linked_symmetric hx) h
  obtain ⟨ids, rfl, hids⟩ := route_numbers hx hroute
  refine ⟨ids, hids, ?_⟩
  unfold PathService.routeBody PathService.storedHops
  rw [← List.map_tail, List.zip_map, List.map_map]
  rfl

/-! ## Whoever has a contact is answered -/

theorem link_answered (hx : Exact (recordsOf calls)) (hs : store.Serves (consumed calls).hashes)
    (hup : store.Up) {a b : Nat} (hab : Recorded (recordsOf calls) a b) (log : List Read) :
    ∃ body log', QueryService.link store (Decimal.digits a) (Decimal.digits b) log =
      some (⟨200, body⟩, log') := by
  generalize hfields : [Decimal.digits b ++ kFieldDurSuffix, Decimal.digits b ++ kFieldSmsSuffix,
    Decimal.digits b ++ kFieldCntSuffix] = fields
  obtain ⟨values, hr⟩ := Option.isSome_iff_exists.mp
    (hup.hmget log.length (linkKey (Decimal.digits a)) fields)
  have hread : store.readSome (linkKey (Decimal.digits a)) fields log =
      some (some values, log ++ [.hmget (linkKey (Decimal.digits a)) fields]) := by
    unfold IQueryStore.readSome
    rw [hr]
  obtain ⟨x, y, rfl, rfl⟩ := hab.numbers
  obtain ⟨f, hne⟩ := recorded_iff.mp hab
  -- the field of a number that counts something is not empty
  have hfilled : (((consumed calls).hashes (linkKey (Decimal.digits x.toNat))).lookup
      (Decimal.digits y.toNat ++ f.suffix)).getD [] ≠ [] := by
    have hvalue : (consumed calls).value (.hash (linkKey (Decimal.digits x.toNat))
        (Decimal.digits y.toNat ++ f.suffix)) = some (amount (recordsOf calls) (.link x y f)) :=
      (consumed_value hx (.link x y f)).trans (if_neg hne)
    rw [Db.hashes_lookup, hvalue]
    exact Decimal.digits_ne_nil _
  unfold QueryService.link
  rw [hfields, bind_of_eq_some hread]
  dsimp only
  rw [if_neg]
  · exact ⟨_, _, rfl⟩
  · rw [hs.hmget _ _ _ _ hr, ← hfields]
    rintro ⟨hdur, hsms, hcnt⟩
    cases f with
    | dur => exact hfilled hdur
    | cnt => exact hfilled hcnt
    | sms => exact hfilled hsms

theorem peers_answered (hx : Exact (recordsOf calls)) (hs : store.Serves (consumed calls).hashes)
    (hup : store.Up) {a b : Nat} (hab : Recorded (recordsOf calls) a b) (visit : PeerVisit)
    (params : QueryParams) (log : List Read) :
    ∃ body log', QueryService.peers store visit (Decimal.digits a) params log =
      some (⟨200, body⟩, log') := by
  have hlinked := (linked_digits hx).mpr hab
  unfold QueryService.peers
  cases params.weights with
  | false =>
    obtain ⟨fields, hr⟩ := Option.isSome_iff_exists.mp
      (hup.hkeys log.length (linkKey (Decimal.digits a)))
    have hrun := linkPeers_eq store (Decimal.digits a) log
    rw [hr, Option.map_some] at hrun
    have hmem := ((linkPeers_some hs hrun).1 _).mpr hlinked
    rw [if_neg Bool.false_ne_true, bind_of_eq_some hrun]
    dsimp only
    rw [if_neg (List.ne_nil_of_mem hmem)]
    exact ⟨_, _, rfl⟩
  | true =>
    obtain ⟨fields, hr⟩ := Option.isSome_iff_exists.mp
      (hup.hgetall log.length (linkKey (Decimal.digits a)))
    have hrun := linkWeights_eq store visit (Decimal.digits a) log
    rw [hr, Option.map_some] at hrun
    obtain ⟨ids, hsorted, hids⟩ := linked_numbers hx (Decimal.digits a)
    obtain ⟨hn, hd, hfields⟩ := linkFields_read hx hs hr
    have hperm := weighed_perm visit hn hd (hsorted.imp fun h => ne_of_lt h)
      fun t => (hids t).trans (hfields t)
    have hne : visit.peers (fields.foldl weigh ∅) ≠ [] := by
      intro hnil
      rw [hnil] at hperm
      have hmem := (hids _).mpr hlinked
      rw [List.map_eq_nil_iff.mp (List.nil_perm.mp hperm)] at hmem
      cases hmem
    unfold QueryService.weighted
    rw [if_pos rfl, bind_of_eq_some hrun]
    dsimp only
    rw [if_neg hne]
    exact ⟨_, _, rfl⟩

/-- **What is read back is what was recorded.**  After any list of batches on a store that
was empty, with totals below 2^53, every answer about a subscriber, an operator, a pair,
the peers of a subscriber, a path or the whole run carries what the records come to; the
pairs are those with a contact on record. -/
theorem read_back (hx : Exact (recordsOf calls)) (hs : store.Serves (consumed calls).hashes) :
    ReadBack store (recordsOf calls) where
  subscriber _ _ _ _ := subscriber_read hx hs
  operator _ _ _ _ := operator_read hx hs
  totals _ _ _ := totals_read hx hs
  totalsAnswered hup log := by
    obtain ⟨fields, hr⟩ := Option.isSome_iff_exists.mp (hup.hgetall log.length kTotalKey)
    exact ⟨_, totals_answers hx hs hr⟩
  pairs := by
    refine ⟨storedThree (consumed calls).hashes, ⟨fun _ _ _ _ _ => link_read hs, fun a => ?_,
      fun _ _ _ _ _ _ => path_read hx hs, fun hup a b hab => ⟨link_answered hx hs hup hab,
        peers_answered hx hs hup hab⟩⟩, fun _ _ f hab => storedThree_eq hx hab f⟩
    obtain ⟨ids, hsorted, hids⟩ := linked_numbers hx (Decimal.digits a)
    refine ⟨ids, List.Nodup.of_map _ (hsorted.imp fun h => ne_of_lt h), fun b => ?_,
      fun _ _ _ _ _ hw => peers_read hs hsorted hids hw,
      fun _ _ _ _ _ hw => weighted_read hx hs hsorted hids hw⟩
    rw [← linked_digits hx, ← hids, List.mem_map_of_injective Decimal.digits_injective]

/-- The answer about subscriber 1 behind one outgoing call of three seconds. -/
def callAnswer : Text :=
  "\x7b\"msisdn\":\"1\",\"voice-out\":3,\"voice-in\":0,\"data-out\":0,\"data-in\":0,".toList ++
    "\"sms-out\":0,\"sms-in\":0,\"no-answer\":0,\"busy\":0,\"failed\":0\x7d".toList

theorem read_back_call :
    callAnswer = (subscriberJson ['1'] fun f => sumOver [shortCall] (OfSub 1) (subAdds · f)).str := by
  have hx : Exact (recordsOf [countCall [shortCall]]) := exact_of_touched (by decide +kernel)
  have hrun : (QueryService.msisdn (consumed [countCall [shortCall]]).hashes.store
      (Decimal.digits 1) []).map Prod.fst = some ⟨200, callAnswer⟩ := by decide +kernel
  obtain ⟨⟨result, log'⟩, hread, hresult⟩ := Option.map_eq_some_iff.mp hrun
  dsimp only at hresult
  subst hresult
  exact (read_back hx (Hashes.store_serves _)).subscriber 1 _ _ _ hread

end CdrProcessor
