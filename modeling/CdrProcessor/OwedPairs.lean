import CdrProcessor.Crowd
import CdrProcessor.OwedCounts
import CdrProcessor.PeerPages

/-! What is sent about pairs, the peers of one and the chain between two is owed by the
counters of the links. -/

namespace CdrProcessor

open Ledger Script

variable {calls : List ConsumeCall} {store : IQueryStore}

/-! ## Contacts in the store -/

theorem linked_inContact (hx : Exact (recordsOf calls)) {s t : Text} :
    Linked (consumed calls).hashes s t ↔ InContact (amount (recordsOf calls)) s t := by
  rw [linked_recorded hx]
  constructor
  · rintro ⟨a, b, f, rfl, rfl, hne⟩
    exact ⟨a, b, rfl, rfl, f, f.mem_all, hne⟩
  · rintro ⟨a, b, rfl, rfl, f, -, hne⟩
    exact ⟨a, b, f, rfl, rfl, hne⟩

/-- A number that is kept about a pair. -/
theorem link_value (hx : Exact (recordsOf calls)) {s t : Text} {f : LinkField} {v : Nat} :
    (consumed calls).value (.hash (linkKey s) (t ++ f.suffix)) = some v ↔
      v ≠ 0 ∧ ∃ a b, s = Decimal.digits a.toNat ∧ t = Decimal.digits b.toNat ∧
        amount (recordsOf calls) (.link a b f) = v := by
  constructor
  · intro h
    obtain ⟨c, hc, hne⟩ := consumed_some hx (linkKey_ne s) h
    obtain ⟨a, b, g, rfl, rfl, hf⟩ := link_place hc
    obtain ⟨rfl, rfl⟩ := field_injective hf
    rw [← hc, consumed_value hx, if_neg hne] at h
    obtain rfl := Option.some.inj h
    exact ⟨hne, a, b, rfl, rfl, rfl⟩
  · rintro ⟨hne, a, b, rfl, rfl, rfl⟩
    exact (consumed_value hx (.link a b f)).trans (if_neg hne)

/-- What a pair is said to have exchanged. -/
theorem stored_link (hx : Exact (recordsOf calls)) (a b : UInt64) (f : LinkField) :
    PathService.stored (consumed calls).hashes (Decimal.digits a.toNat) (Decimal.digits b.toNat)
      f.suffix = .ofNat (amount (recordsOf calls) (.link a b f)) := by
  unfold PathService.stored
  rw [Db.toNum_lookup _ (count_lt hx (linkKey_ne _))]
  exact congrArg UInt64.ofNat (consumed_count hx (.link a b f))

theorem stored_contact (hx : Exact (recordsOf calls)) {s t : Text}
    (h : InContact (amount (recordsOf calls)) s t) (f : LinkField) :
    PathService.stored (consumed calls).hashes s t f.suffix =
      .ofNat (amount (recordsOf calls) (.link (numberOf s) (numberOf t) f)) := by
  obtain ⟨a, b, rfl, rfl, -⟩ := h
  rw [numberOf_digits, numberOf_digits, stored_link hx]

/-! ## One pair -/

theorem link_owed (hx : Exact (recordsOf calls)) (hs : store.Serves (consumed calls).hashes)
    (hup : store.Up) (first second : Text) :
    ∃ reads, QueryService.link store first second [] =
      some (Ledger.link (amount (recordsOf calls)) first second, reads) := by
  generalize hfields : [second ++ kFieldDurSuffix, second ++ kFieldSmsSuffix,
    second ++ kFieldCntSuffix] = fields
  obtain ⟨values, hr⟩ := Option.isSome_iff_exists.mp (hup.hmget 0 (linkKey first) fields)
  have hread : store.readSome (linkKey first) fields [] =
      some (some values, [.hmget (linkKey first) fields]) := by
    unfold IQueryStore.readSome
    rw [List.length_nil, hr]
    rfl
  have hvalues := hs.hmget _ _ _ _ hr
  rw [← hfields] at hvalues
  subst hvalues
  -- a field is empty exactly when the pair has nothing of its kind
  have hempty : ∀ f : LinkField,
      (((consumed calls).hashes (linkKey first)).lookup (second ++ f.suffix)).getD [] = [] ↔
        ∀ v, (consumed calls).value (.hash (linkKey first) (second ++ f.suffix)) ≠ some v := by
    intro f
    rw [Db.hashes_lookup]
    cases (consumed calls).value (.hash (linkKey first) (second ++ f.suffix)) with
    | none => simp
    | some v => simp [Decimal.digits_ne_nil]
  have hcontact : InContact (amount (recordsOf calls)) first second ↔
      ¬ ∀ f : LinkField, (((consumed calls).hashes (linkKey first)).lookup
        (second ++ f.suffix)).getD [] = [] := by
    simp only [hempty]
    constructor
    · rintro ⟨a, b, rfl, rfl, f, -, hne⟩ hnone
      exact hnone f _ ((link_value hx).mpr ⟨hne, a, b, rfl, rfl, rfl⟩)
    · intro h
      push Not at h
      obtain ⟨f, v, hv⟩ := h
      obtain ⟨hne, a, b, rfl, rfl, rfl⟩ := (link_value hx).mp hv
      exact ⟨a, b, rfl, rfl, f, f.mem_all, hne⟩
  have hknown : InContact (amount (recordsOf calls)) first second ↔
      (first = Decimal.digits (numberOf first).toNat ∧
        second = Decimal.digits (numberOf second).toNat) ∧
          Contact (amount (recordsOf calls)) (numberOf first) (numberOf second) := by
    constructor
    · rintro ⟨a, b, rfl, rfl, hab⟩
      rw [numberOf_digits, numberOf_digits]
      exact ⟨⟨rfl, rfl⟩, hab⟩
    · rintro ⟨⟨ha, hb⟩, hab⟩
      exact ⟨_, _, ha, hb, hab⟩
  unfold QueryService.link Ledger.link
  rw [hfields, bind_of_eq_some hread]
  dsimp only
  by_cases h : InContact (amount (recordsOf calls)) first second
  · rw [if_pos (hknown.mp h), if_neg]
    · refine ⟨[.hmget (linkKey first) fields], ?_⟩
      have hstored := stored_contact hx h
      unfold PathService.stored at hstored
      unfold Ledger.close
      simp only [← hstored]
      rfl
    · rintro ⟨h₁, h₂, h₃⟩
      refine hcontact.mp h fun f => ?_
      cases f
      · exact h₁
      · exact h₂
      · exact h₃
  · have hall := not_not.mp (hcontact.not.mp h)
    rw [if_neg (hknown.not.mp h), if_pos ⟨hall .dur, hall .sms, hall .cnt⟩]
    exact ⟨[.hmget (linkKey first) fields], rfl⟩

/-! ## The peers of one -/

theorem peer_stored (hx : Exact (recordsOf calls)) {id name : Text}
    (h : Linked (consumed calls).hashes id name) :
    storedPeer (consumed calls).hashes id name =
      Ledger.peer (amount (recordsOf calls)) id name := by
  have hstored := stored_contact hx ((linked_inContact hx).mp h)
  unfold storedPeer Ledger.peer
  simp only [← hstored]
  rfl

theorem peers_owed (hx : Exact (recordsOf calls)) (hs : store.Serves (consumed calls).hashes)
    (hup : store.Up) (visit : PeerVisit) (id : Text) (params : QueryParams) :
    ∃ names reads, Ledger.Contacts (amount (recordsOf calls)) id names ∧
      QueryService.peers store visit id params [] =
        some (Ledger.peers (amount (recordsOf calls)) id names params, reads) := by
  cases hw : params.weights with
  | false =>
    obtain ⟨fields, hr⟩ := Option.isSome_iff_exists.mp (hup.hkeys 0 (linkKey id))
    have hrun := linkPeers_eq store id []
    rw [List.length_nil, hr, Option.map_some] at hrun
    obtain ⟨hmem, hsorted⟩ := linkPeers_some hs hrun
    generalize unique ((fields.map peerOf).insertionSort (· ≤ ·)) = names at hrun hmem hsorted
    refine ⟨names, [.hkeys (linkKey id)],
      ⟨hsorted, fun t => (hmem t).trans (linked_inContact hx)⟩, ?_⟩
    unfold QueryService.peers Ledger.peers
    rw [hw, if_neg Bool.false_ne_true, bind_of_eq_some hrun]
    dsimp only
    by_cases hnames : names = []
    · rw [if_pos hnames, if_pos hnames]
      rfl
    · rw [if_neg hnames, if_neg hnames]
      rfl
  | true =>
    obtain ⟨fields, hr⟩ := Option.isSome_iff_exists.mp (hup.hgetall 0 (linkKey id))
    have hpages := pagesTile_of_isLinkHash (consumed_isLinkHash calls id) params.sort
    have hrun := hpages.answers store visit params [] fields hs hw rfl hr
    have hmem : ∀ b, b ∈ namesAt (consumed calls).hashes id ↔ Linked (consumed calls).hashes id b :=
      namesAt_spec.2
    have hpeers : (namesAt (consumed calls).hashes id).map
        (Ledger.peer (amount (recordsOf calls)) id) = peersAt (consumed calls).hashes id :=
      List.map_congr_left fun name hname => (peer_stored hx ((hmem name).mp hname)).symm
    have hlen : (orderPeers (peersAt (consumed calls).hashes id) params.sort).length =
        (namesAt (consumed calls).hashes id).length := by
      rw [(orderPeers_perm _ _).length_eq]
      exact List.length_map _
    refine ⟨namesAt (consumed calls).hashes id, [.hgetall (linkKey id)], ⟨?_, fun t => ?_⟩, ?_⟩
    · exact unique_sorted (List.pairwise_insertionSort _ _)
    · exact (hmem t).trans (linked_inContact hx)
    · rw [hrun]
      unfold weightedAnswer Ledger.peers
      rw [hpeers, hw, if_pos rfl, hlen]
      have hnil : orderPeers (peersAt (consumed calls).hashes id) params.sort = [] ↔
          namesAt (consumed calls).hashes id = [] := by
        rw [← List.length_eq_zero_iff, hlen, List.length_eq_zero_iff]
      rw [if_congr hnil rfl rfl, List.nil_append]

/-! ## A chain between two -/

theorem chainBody_eq (hx : Exact (recordsOf calls)) {first second : Text} {chain : List Text}
    (h : IsRoute (InContact (amount (recordsOf calls))) first second chain) (weights : Bool) :
    PathService.routeBody (consumed calls).hashes chain weights =
      Ledger.chainBody (amount (recordsOf calls)) chain weights := by
  have hhops : PathService.storedHops (consumed calls).hashes chain =
      (chain.zip chain.tail).map fun hop => Ledger.close (amount (recordsOf calls)) hop.1 hop.2
        ((({} : Json).addText "from".toList hop.1).addText "to".toList hop.2) := by
    refine List.map_congr_left fun hop hhop => ?_
    have hstored := stored_contact hx (h.hop hhop)
    unfold PathService.storedHop Ledger.close
    simp only [← hstored]
    rfl
  unfold PathService.routeBody Ledger.chainBody
  rw [hhops]

theorem path_owed (hx : Exact (recordsOf calls)) (hs : store.Serves (consumed calls).hashes)
    (hup : store.Up) (cfg : QueryConfig) (first second : Text) (weights : Bool) :
    ∃ result reads, PathService.path store cfg first second weights [] = some (result, reads) ∧
      Ledger.Path (amount (recordsOf calls)) cfg first second weights result := by
  have hlinked : Linked (consumed calls).hashes = InContact (amount (recordsOf calls)) := by
    funext s t
    exact propext (linked_inContact hx)
  have hsym := linked_symmetric hx
  obtain ⟨result, reads, hrun, houtcome⟩ :=
    PathService.path_outcome hs hup hsym cfg first second weights []
  refine ⟨result, reads, hrun, ?_⟩
  rcases houtcome with ⟨chain, rfl, hchain, hshortest, hhops⟩ | ⟨rfl, hnone⟩
  · rw [hlinked] at hchain hshortest
    rw [chainBody_eq hx hchain]
    exact .found hchain hshortest hhops
  · rw [hlinked] at hnone
    exact .missing hnone

end CdrProcessor
