import CdrProcessor.Counter
import CdrProcessor.Format
import CdrProcessor.QueryService

/-! A lookup by the digits of a line: the keys the writer makes of its numbers, and the keys
the gateway makes of the same texts. -/

namespace CdrProcessor

open Decimal

/-! ## Both sides -/

/-- A line the parser takes, with its record and the texts of its IMSI and MSISDN. -/
structure LineOf (sep : Char) (line imsi msisdn : Text) (r : CdrRecord) : Prop where
  record : Parser.csvParser sep line = some r
  fields : ∃ fields, Parser.split sep kFieldCount line = some fields ∧
    fields.getD 1 [] = imsi ∧ fields.getD 4 [] = msisdn

/-- An IMSI without its last ten digits. -/
def operatorDigits (imsi : Text) : Text := imsi.take (imsi.length - 10)

def NotZeros (s : Text) : Prop := ∃ c ∈ s, c ≠ '0'

/-- A line that names a subscriber and an operator. -/
structure Identified (sep : Char) (line imsi msisdn : Text) (r : CdrRecord) : Prop
    extends LineOf sep line imsi msisdn r where
  named : NotZeros msisdn
  long : 11 ≤ imsi.length ∧ imsi.length ≤ 15
  operated : NotZeros (operatorDigits imsi)

/-- The keys the writer uses for a record. -/
def writtenKeys (visit : Visit) (r : CdrRecord) : List Text :=
  (AggregateWriter.deltaCounters visit (fold [r] {})).map Prod.fst

def Read.key : Read → Text
  | .hgetall key | .hkeys key | .hmget key _ => key

/-- The keys a request reads, in order. -/
def keysRead {α : Type} (q : Query α) : List Text :=
  ((q []).map fun answer => answer.2.map Read.key).getD []

/-- The requests for the texts of a line read the hashes the writer keeps its record in. -/
structure Finds (visit : Visit) (store : IQueryStore) (r : CdrRecord) (imsi msisdn : Text) :
    Prop where
  subscriber : ∀ key, kSubPrefix <+: key →
    (key ∈ writtenKeys visit r ↔ keysRead (QueryService.msisdn store msisdn) = [key])
  operator : ∀ key, kOpPrefix <+: key →
    (key ∈ writtenKeys visit r ↔ keysRead (QueryService.op store (operatorDigits imsi)) = [key])
  link : ∀ e ∈ visit.links (fold [r] {}).links, e.1.owner = r.subscriberMSISDN →
    ∀ counter ∈ AggregateWriter.linkCounters e, ∀ order params,
      keysRead (QueryService.peers store order msisdn params) = [counter.1]

/-- One operator hash holds both records. -/
def ShareOperator (visit : Visit) (r r' : CdrRecord) : Prop :=
  ∃ key, kOpPrefix <+: key ∧ key ∈ writtenKeys visit r ∧ key ∈ writtenKeys visit r'

/-! ## What is read -/

variable {store : IQueryStore}

theorem entity_key (pre name id missing : Text) (names : List (Text × Text)) :
    keysRead (QueryService.entity store pre name id missing names) = [pre ++ id] := by
  have hread : store.readAll (pre ++ id) [] =
      some (store.hgetall 0 (pre ++ id), [.hgetall (pre ++ id)]) := rfl
  unfold keysRead QueryService.entity
  rw [Script.bind_of_eq_some hread]
  cases store.hgetall 0 (pre ++ id) with
  | none => rfl
  | some fields =>
    by_cases h0 : fields = []
    · simp [h0, Read.key]
    · simp [h0, Read.key]

theorem peers_key (order : PeerVisit) (id : Text) (params : QueryParams) :
    keysRead (QueryService.peers store order id params) = [linkKey id] := by
  unfold keysRead QueryService.peers
  by_cases hw : params.weights = true
  · rw [if_pos hw]
    unfold QueryService.weighted
    rw [Script.bind_of_eq_some (linkWeights_eq store order id [])]
    cases store.hgetall 0 (linkKey id) with
    | none => rfl
    | some fields =>
      by_cases h0 : order.peers (fields.foldl weigh ∅) = []
      · simp [h0, Read.key]
      · simp [h0, Read.key]
  · rw [if_neg hw, Script.bind_of_eq_some (linkPeers_eq store id [])]
    cases store.hkeys 0 (linkKey id) with
    | none => rfl
    | some fields =>
      by_cases h0 : unique ((fields.map peerOf).insertionSort (· ≤ ·)) = []
      · simp [h0, Read.key]
      · simp [h0, Read.key]

/-! ## What is written -/

variable {visit : Visit} {r : CdrRecord}

theorem mem_writtenKeys {key : Text} : key ∈ writtenKeys visit r ↔
    (∃ e ∈ visit.subs (fold [r] {}).subs, appendNumber kSubPrefix e.1 = key) ∨
    (∃ e ∈ visit.ops (fold [r] {}).ops, appendNumber kOpPrefix e.1.toUInt64 = key) ∨
    ∃ e ∈ visit.links (fold [r] {}).links, appendNumber kLinkPrefix e.1.owner = key := by
  have some_field : ∀ {α : Type} {l : List α} {x : α}, x ∈ l → ∀ p : Prop, (∃ f ∈ l, p) ↔ p :=
    fun hx p => ⟨fun ⟨_, _, h⟩ => h, fun h => ⟨_, hx, h⟩⟩
  unfold writtenKeys AggregateWriter.deltaCounters AggregateWriter.subCounters
    AggregateWriter.opCounters AggregateWriter.linkCounters
  simp only [List.map_append, List.map_flatMap, List.map_map, List.mem_append, List.mem_flatMap,
    List.mem_map, Function.comp_def]
  simp only [some_field (show SubField.voiceOut ∈ SubField.all by decide),
    some_field (show OpField.voiceOut ∈ OpField.all by decide),
    some_field (show LinkField.dur ∈ LinkField.all by decide)]

theorem single_entry {κ β : Type} [DecidableEq κ] [Inhabited β] {l : List (Sigma fun _ : κ => β)}
    {k : κ} {f : β → β} (h : l.Perm ((∅ : Table κ β).modify k f).entries) :
    l = [⟨k, f default⟩] :=
  List.perm_singleton.mp h

theorem sub_entries (hs : r.subscriberMSISDN ≠ 0) :
    ∃ d, visit.subs (fold [r] {}).subs = [⟨r.subscriberMSISDN, d⟩] := by
  have h := visit.subs_perm (fold [r] {}).subs
  have hsubs : (fold [r] {}).subs = (∅ : SubMap).modify r.subscriberMSISDN (addSub r) := by
    refine (foldRecord_subs _ r).trans ?_
    rw [if_neg hs]
  rw [hsubs] at h ⊢
  exact ⟨_, single_entry h⟩

theorem op_entries (hs : r.subscriberMSISDN ≠ 0) (hm : mccmncOf r ≠ 0) :
    ∃ d, visit.ops (fold [r] {}).ops = [⟨mccmncOf r, d⟩] := by
  have h := visit.ops_perm (fold [r] {}).ops
  have hops : (fold [r] {}).ops = (∅ : OpMap).modify (mccmncOf r) (addOp r) := by
    refine (foldRecord_ops _ r).trans ?_
    rw [if_neg (by simp [hs, hm])]
  rw [hops] at h ⊢
  exact ⟨_, single_entry h⟩

/-- A key opens with the letter of each of its prefixes. -/
theorem prefix_ne {pre pre' s : Text} (h : pre <+: pre' ++ s) (hne : pre ≠ [])
    (hne' : pre' ≠ []) : pre.head? = pre'.head? := by
  obtain ⟨t, ht⟩ := h
  have hhead : (pre ++ t).head? = pre.head? := List.head?_append_of_ne_nil pre hne
  rw [← hhead, ht, List.head?_append_of_ne_nil pre' hne']

theorem written_sub (hs : r.subscriberMSISDN ≠ 0) {key : Text} (hkey : kSubPrefix <+: key) :
    key ∈ writtenKeys visit r ↔ key = appendNumber kSubPrefix r.subscriberMSISDN := by
  obtain ⟨d, hd⟩ : ∃ d, visit.subs (fold [r] {}).subs = [⟨r.subscriberMSISDN, d⟩] := sub_entries hs
  rw [mem_writtenKeys, hd]
  constructor
  · rintro (⟨e, he, rfl⟩ | ⟨e, -, rfl⟩ | ⟨e, -, rfl⟩)
    · rw [List.mem_singleton.mp he]
    · exact absurd (prefix_ne hkey (by decide) (by decide)) (by decide)
    · exact absurd (prefix_ne hkey (by decide) (by decide)) (by decide)
  · rintro rfl
    exact .inl ⟨_, List.mem_singleton_self _, rfl⟩

theorem written_op (hs : r.subscriberMSISDN ≠ 0) (hm : mccmncOf r ≠ 0) {key : Text}
    (hkey : kOpPrefix <+: key) :
    key ∈ writtenKeys visit r ↔ key = appendNumber kOpPrefix (mccmncOf r).toUInt64 := by
  obtain ⟨d, hd⟩ : ∃ d, visit.ops (fold [r] {}).ops = [⟨mccmncOf r, d⟩] := op_entries hs hm
  rw [mem_writtenKeys, hd]
  constructor
  · rintro (⟨e, -, rfl⟩ | ⟨e, he, rfl⟩ | ⟨e, -, rfl⟩)
    · exact absurd (prefix_ne hkey (by decide) (by decide)) (by decide)
    · rw [List.mem_singleton.mp he]
    · exact absurd (prefix_ne hkey (by decide) (by decide)) (by decide)
  · rintro rfl
    exact .inr (.inl ⟨_, List.mem_singleton_self _, rfl⟩)

/-! ## The texts and their numbers -/

variable {sep : Char} {line imsi msisdn : Text}

/-- The two fields are short texts of digits, and the record holds their values. -/
theorem LineOf.numbers (h : LineOf sep line imsi msisdn r) :
    (Parser.IsShort 15 imsi ∧ r.subscriberImsi = .ofNat (value imsi)) ∧
      Parser.IsShort 15 msisdn ∧ r.subscriberMSISDN = .ofNat (value msisdn) := by
  obtain ⟨fields, hsplit, rfl, rfl⟩ := h.fields
  have hr : Parser.parseFields fields = some r := by
    have := h.record
    unfold Parser.csvParser at this
    rwa [hsplit] at this
  have short : ∀ {s : Text} {v : UInt64}, Parser.parseU64 s false 15 = some v →
      Parser.IsShort 15 s ∧ v = .ofNat (value s) := by
    intro s v hv
    refine ⟨Parser.exists_short.mp ⟨v, hv⟩, ?_⟩
    rcases Parser.parseU64_eq_some.mp hv with ⟨-, h, -⟩ | ⟨-, -, h⟩
    · cases h
    · exact h.symm
  unfold Parser.parseFields at hr
  simp only [Option.bind_eq_bind, Option.bind_eq_some_iff, kMaxImsiDigits,
    kMaxMsisdnDigits] at hr
  obtain ⟨_, -, _, h1, _, -, _, h4, _, -, _, -, _, -, _, -, _, -, _, -, hr⟩ := hr
  cases hr
  exact ⟨short h1, short h4⟩

theorem trim_ne_nil {s : Text} (h : NotZeros s) : trim s ≠ [] := by
  obtain ⟨c, hc, hne⟩ := h
  intro hnil
  have := List.dropWhile_eq_nil_iff.mp hnil c hc
  exact hne (of_decide_eq_true this)

theorem value_pos {s : Text} (hs : AllDigits s) (h : NotZeros s) : value s ≠ 0 := by
  intro h0
  have hd := digits_value_trim hs (trim_ne_nil h)
  rw [h0] at hd
  exact head_trim s (by rw [← hd]; rfl)

/-- The number of an operator is worth the digits it is made of. -/
theorem operator_number (h : Identified sep line imsi msisdn r) :
    AllDigits (operatorDigits imsi) ∧ (mccmncOf r).toUInt64.toNat = value (operatorDigits imsi) := by
  obtain ⟨⟨⟨-, hall, hshort⟩, himsi⟩, -⟩ := h.numbers
  obtain ⟨hlong, -⟩ := h.long
  have hsplit : imsi = operatorDigits imsi ++ imsi.drop (imsi.length - 10) :=
    (List.take_append_drop _ _).symm
  have hp : AllDigits (operatorDigits imsi) := fun c hc => hall c (List.mem_of_mem_take hc)
  have htail : value (imsi.drop (imsi.length - 10)) < 10 ^ 10 := by
    have := value_lt (s := imsi.drop (imsi.length - 10))
      fun c hc => hall c (List.mem_of_mem_drop hc)
    rwa [List.length_drop, show imsi.length - (imsi.length - 10) = 10 by omega] at this
  have hhead : value (operatorDigits imsi) < 10 ^ 5 := by
    refine lt_of_lt_of_le (value_lt hp) (Nat.pow_le_pow_right (by decide) ?_)
    unfold operatorDigits
    rw [List.length_take]
    omega
  have hvalue : value imsi = 10 ^ 10 * value (operatorDigits imsi) +
      value (imsi.drop (imsi.length - 10)) := by
    conv_lhs => rw [hsplit, value_append, List.length_drop,
      show imsi.length - (imsi.length - 10) = 10 by omega]
  refine ⟨hp, ?_⟩
  have hnat : r.subscriberImsi.toNat = value imsi := by
    rw [himsi, UInt64.toNat_ofNat']
    exact Nat.mod_eq_of_lt (by omega)
  have hdiv : (r.subscriberImsi / kMsinDivisor).toNat = value (operatorDigits imsi) := by
    rw [UInt64.toNat_div, hnat, hvalue]
    change _ / 10 ^ 10 = _
    rw [Nat.mul_add_div (by decide), Nat.div_eq_of_lt htail, Nat.add_zero]
  unfold mccmncOf
  rw [UInt32.toNat_toUInt64, UInt64.toNat_toUInt32, hdiv]
  exact Nat.mod_eq_of_lt (by omega)

theorem subscriber_number (h : Identified sep line imsi msisdn r) :
    AllDigits msisdn ∧ r.subscriberMSISDN.toNat = value msisdn := by
  obtain ⟨-, hshort, hmsisdn⟩ := h.numbers
  obtain ⟨-, hall, hlt⟩ := hshort.isNumber (by decide)
  refine ⟨hall, ?_⟩
  rw [hmsisdn, UInt64.toNat_ofNat']
  exact Nat.mod_eq_of_lt hlt

theorem Identified.nonzero (h : Identified sep line imsi msisdn r) :
    r.subscriberMSISDN ≠ 0 ∧ mccmncOf r ≠ 0 := by
  obtain ⟨hall, hvalue⟩ := subscriber_number h
  obtain ⟨hall', hvalue'⟩ := operator_number h
  constructor
  · intro h0
    rw [h0] at hvalue
    exact value_pos hall h.named hvalue.symm
  · intro h0
    rw [h0] at hvalue'
    exact value_pos hall' h.operated hvalue'.symm

/-! ## Found -/

/-- The requests find a record exactly when neither text opens with a zero. -/
theorem finds_iff (visit : Visit) (store : IQueryStore) (h : Identified sep line imsi msisdn r) :
    Finds visit store r imsi msisdn ↔
      msisdn.head? ≠ some '0' ∧ (operatorDigits imsi).head? ≠ some '0' := by
  obtain ⟨hs, hm⟩ := h.nonzero
  obtain ⟨hall, hvalue⟩ := subscriber_number h
  obtain ⟨hall', hvalue'⟩ := operator_number h
  have hsub : appendNumber kSubPrefix r.subscriberMSISDN = kSubPrefix ++ msisdn ↔
      msisdn.head? ≠ some '0' := by
    unfold appendNumber
    rw [hvalue, List.append_right_inj, digits_value_eq_self hall (trim_ne_nil h.named)]
  have hop : appendNumber kOpPrefix (mccmncOf r).toUInt64 = kOpPrefix ++ operatorDigits imsi ↔
      (operatorDigits imsi).head? ≠ some '0' := by
    unfold appendNumber
    rw [hvalue', List.append_right_inj, digits_value_eq_self hall' (trim_ne_nil h.operated)]
  have hsubKey : keysRead (QueryService.msisdn store msisdn) = [kSubPrefix ++ msisdn] :=
    entity_key ..
  have hopKey : keysRead (QueryService.op store (operatorDigits imsi)) =
      [kOpPrefix ++ operatorDigits imsi] := entity_key ..
  constructor
  · intro hf
    refine ⟨hsub.mp ?_, hop.mp ?_⟩
    · have := (hf.subscriber _ (List.prefix_append _ _)).mp
        ((written_sub hs (List.prefix_append _ _)).mpr rfl)
      rw [hsubKey] at this
      exact (List.cons.inj this).1.symm
    · have := (hf.operator _ (List.prefix_append _ _)).mp
        ((written_op hs hm (List.prefix_append _ _)).mpr rfl)
      rw [hopKey] at this
      exact (List.cons.inj this).1.symm
  · rintro ⟨hd, hp⟩
    refine ⟨fun key hkey => ?_, fun key hkey => ?_, fun e _ howner counter hc order params => ?_⟩
    · rw [written_sub hs hkey, hsub.mpr hd, hsubKey, List.singleton_inj, eq_comm]
    · rw [written_op hs hm hkey, hop.mpr hp, hopKey, List.singleton_inj, eq_comm]
    · obtain ⟨f, -, rfl⟩ := List.mem_map.mp hc
      rw [peers_key, howner]
      unfold appendNumber linkKey
      rw [hvalue, (digits_value_eq_self hall (trim_ne_nil h.named)).mpr hd]

/-- Two operators share a hash exactly when they differ in leading zeros alone. -/
theorem shareOperator_iff (visit : Visit) {line' imsi' msisdn' : Text} {r' : CdrRecord}
    (h : Identified sep line imsi msisdn r) (h' : Identified sep line' imsi' msisdn' r') :
    ShareOperator visit r r' ↔ trim (operatorDigits imsi) = trim (operatorDigits imsi') := by
  obtain ⟨hs, hm⟩ := h.nonzero
  obtain ⟨hs', hm'⟩ := h'.nonzero
  obtain ⟨hall, hvalue⟩ := operator_number h
  obtain ⟨hall', hvalue'⟩ := operator_number h'
  rw [← value_eq_iff hall hall' (trim_ne_nil h.operated) (trim_ne_nil h'.operated), ← hvalue,
    ← hvalue', UInt64.toNat_inj]
  constructor
  · rintro ⟨key, hkey, hw, hw'⟩
    have := (written_op hs hm hkey).mp hw
    exact appendNumber_injective _ (this.symm.trans ((written_op hs' hm' hkey).mp hw'))
  · intro heq
    refine ⟨appendNumber kOpPrefix (mccmncOf r).toUInt64, List.prefix_append _ _,
      (written_op hs hm (List.prefix_append _ _)).mpr rfl, ?_⟩
    rw [heq]
    exact (written_op hs' hm' (List.prefix_append _ _)).mpr rfl

/-- **A lookup by the digits of a line.**  The keys agree exactly when the texts open with no
zero, and two operators keep apart exactly when more than leading zeros tells them apart. -/
theorem lookup_iff (visit : Visit) (store : IQueryStore) {line' imsi' msisdn' : Text}
    {r' : CdrRecord} (h : Identified sep line imsi msisdn r)
    (h' : Identified sep line' imsi' msisdn' r') :
    (Finds visit store r imsi msisdn ↔
      msisdn.head? ≠ some '0' ∧ (operatorDigits imsi).head? ≠ some '0') ∧
    (operatorDigits imsi ≠ operatorDigits imsi' →
      (¬ ShareOperator visit r r' ↔ trim (operatorDigits imsi) ≠ trim (operatorDigits imsi'))) :=
  ⟨finds_iff visit store h, fun _ => not_congr (shareOperator_iff visit h h')⟩

/-- The fields of a call of a minute. -/
def fieldsFrom (imsi msisdn : Text) : List Text :=
  ["1".toList, imsi, "3".toList, "MOC".toList, msisdn, "01/02/2024".toList, "10:20:30".toList,
    "60".toList, [], [], "4".toList, "972502".toList]

def lineFrom (imsi msisdn : Text) : Text := ['|'].intercalate (fieldsFrom imsi msisdn)

/-- The record of such a line. -/
def recordFrom (imsi msisdn : UInt64) : CdrRecord where
  sequence := 1
  subscriberImsi := imsi
  subscriberImei := "3".toList
  usageType := .moc
  subscriberMSISDN := msisdn
  callTime := 1706782830
  duration := 60
  bytesReceived := 0
  bytesTransmitted := 0
  secondPartyIMSI := 4
  secondPartyMSISDN := 972502

def imsiText : Text := "425010000000001".toList

def otherImsiText : Text := "425020000000001".toList

theorem lookup_iff_two :
    (Finds .plain (Hashes.store fun _ => ∅) (recordFrom 425010000000001 972501) imsiText
        "972501".toList ↔
      "972501".toList.head? ≠ some '0' ∧ (operatorDigits imsiText).head? ≠ some '0') ∧
    (operatorDigits imsiText ≠ operatorDigits otherImsiText →
      (¬ ShareOperator .plain (recordFrom 425010000000001 972501)
          (recordFrom 425020000000001 972501) ↔
        trim (operatorDigits imsiText) ≠ trim (operatorDigits otherImsiText))) := by
  have h : Identified '|' (lineFrom imsiText "972501".toList) imsiText "972501".toList
      (recordFrom 425010000000001 972501) :=
    { record := by decide +kernel
      fields := ⟨fieldsFrom imsiText "972501".toList, by decide +kernel, rfl, rfl⟩
      named := ⟨'9', by decide, by decide⟩
      long := by decide
      operated := ⟨'4', by decide, by decide⟩ }
  have h' : Identified '|' (lineFrom otherImsiText "972501".toList) otherImsiText "972501".toList
      (recordFrom 425020000000001 972501) :=
    { record := by decide +kernel
      fields := ⟨fieldsFrom otherImsiText "972501".toList, by decide +kernel, rfl, rfl⟩
      named := ⟨'9', by decide, by decide⟩
      long := by decide
      operated := ⟨'4', by decide, by decide⟩ }
  exact lookup_iff .plain _ h h'

/-- `0972501` is taken as `972501` and asked for as it stands. -/
theorem leading_zero_is_lost :
    ¬ ∀ (visit : Visit) (store : IQueryStore) (sep : Char) (line imsi msisdn : Text)
      (r : CdrRecord), Identified sep line imsi msisdn r → Finds visit store r imsi msisdn := by
  intro hall
  have h : Identified '|' (lineFrom imsiText "0972501".toList) imsiText "0972501".toList
      (recordFrom 425010000000001 972501) :=
    { record := by decide +kernel
      fields := ⟨fieldsFrom imsiText "0972501".toList, by decide +kernel, rfl, rfl⟩
      named := ⟨'9', by decide, by decide⟩
      long := by decide
      operated := ⟨'4', by decide, by decide⟩ }
  have hf := hall .plain (Hashes.store fun _ => ∅) _ _ _ _ _ h
  have hkey := (hf.subscriber "sub:972501".toList (by decide)).mp (by decide +kernel)
  revert hkey
  decide +kernel

end CdrProcessor
