import CdrProcessor.ListingParams
import CdrProcessor.ReadBack
import Mathlib.Data.Prod.Lex

/-! The pages of a weighted listing: one order of the peers, whatever the store and the hash
map make of theirs, and pages that follow one another through it. -/

namespace CdrProcessor

/-! ## The order -/

/-- The metric a listing is ordered by, and the one that breaks a tie. -/
def Peer.metric (p : Peer) : SortBy → UInt64
  | .duration => p.duration
  | .sms => p.sms

def Peer.other (p : Peer) : SortBy → UInt64
  | .duration => p.sms
  | .sms => p.duration

/-- The metric descending, then the other metric descending, then msisdn ascending. -/
def Precedes (sort : SortBy) (p q : Peer) : Prop :=
  q.metric sort < p.metric sort ∨ p.metric sort = q.metric sort ∧
    (q.other sort < p.other sort ∨ p.other sort = q.other sort ∧ p.msisdn < q.msisdn)

/-- The same as a place in a linear order. -/
def Peer.standing (sort : SortBy) (p : Peer) : ℕᵒᵈ ×ₗ ℕᵒᵈ ×ₗ Text :=
  toLex (.toDual (p.metric sort).toNat, toLex (.toDual (p.other sort).toNat, p.msisdn))

theorem precedes_iff (sort : SortBy) (p q : Peer) :
    Precedes sort p q ↔ p.standing sort < q.standing sort := by
  unfold Precedes Peer.standing
  simp only [Prod.Lex.toLex_lt_toLex, OrderDual.toDual_lt_toDual, EmbeddingLike.apply_eq_iff_eq,
    UInt64.lt_iff_toNat_lt, UInt64.toNat_inj]

theorem peerBefore_iff (sort : SortBy) (p q : Peer) :
    peerBefore sort p q = true ↔ Precedes sort p q := by
  have step : ∀ (a b : UInt64) (rest : Bool), (if a ≠ b then decide (b < a) else rest) = true ↔
      b < a ∨ a = b ∧ rest = true := by
    intro a b rest
    by_cases h : a = b
    · subst h
      simp
    · simp [h]
  have name : decide (p.msisdn < q.msisdn) = true ↔ p.msisdn < q.msisdn := decide_eq_true_iff
  cases sort <;> exact (step _ _ _).trans (or_congr_right (and_congr_right fun _ =>
    (step _ _ _).trans (or_congr_right (and_congr_right fun _ => name))))

/-- The order of `orderPeers`, ties included. -/
theorem notAfter_iff (sort : SortBy) (p q : Peer) :
    (!peerBefore sort q p) = true ↔ p.standing sort ≤ q.standing sort := by
  rw [Bool.not_eq_true', ← Bool.not_eq_true, peerBefore_iff, precedes_iff, not_lt]

instance (sort : SortBy) :
    Std.Total fun left right : Peer => (!peerBefore sort right left) = true where
  total p q := by
    rw [notAfter_iff, notAfter_iff]
    exact le_total _ _

instance (sort : SortBy) :
    IsTrans Peer fun left right : Peer => (!peerBefore sort right left) = true where
  trans p q r := by
    rw [notAfter_iff, notAfter_iff, notAfter_iff]
    exact le_trans

theorem orderPeers_perm (peers : List Peer) (sort : SortBy) :
    (orderPeers peers sort).Perm peers := List.perm_insertionSort _ _

/-- Peers of different names end up in a strict order. -/
theorem orderPeers_sorted {peers : List Peer} (hn : (peers.map Peer.msisdn).Nodup)
    (sort : SortBy) : (orderPeers peers sort).Pairwise (Precedes sort) := by
  have hle : (orderPeers peers sort).Pairwise fun p q => p.standing sort ≤ q.standing sort :=
    (List.pairwise_insertionSort _ peers).imp fun h => (notAfter_iff sort _ _).mp h
  have hne : (orderPeers peers sort).Pairwise fun p q => p.msisdn ≠ q.msisdn :=
    List.pairwise_map.mp (((orderPeers_perm peers sort).map Peer.msisdn).nodup_iff.mpr hn)
  refine (hle.and hne).imp fun {p q} h => (precedes_iff sort p q).mpr (lt_of_le_of_ne h.1 ?_)
  intro heq
  exact h.2 (congrArg (fun s => (ofLex (ofLex s).2).2) heq)

/-- **One order.**  However the peers come, they go out the same. -/
theorem orderPeers_unique {peers peers' : List Peer} (hp : peers.Perm peers')
    (hn : (peers.map Peer.msisdn).Nodup) (sort : SortBy) :
    orderPeers peers sort = orderPeers peers' sort := by
  have hn' := ((hp.map Peer.msisdn).nodup_iff).mp hn
  refine @List.Perm.eq_of_pairwise _ (Precedes sort) _ _ (fun p q _ _ hpq hqp => ?_)
    (orderPeers_sorted hn sort) (orderPeers_sorted hn' sort)
    ((orderPeers_perm peers sort).trans (hp.trans (orderPeers_perm peers' sort).symm))
  rw [precedes_iff] at hpq hqp
  exact absurd hqp hpq.asymm

/-! ## The peers of a link hash -/

/-- What the writer makes of a link hash: fields of a peer's number and one of the metrics. -/
def IsLinkHash (hash : Table Text Text) : Prop :=
  ∀ field ∈ hash.keys, ∃ (b : UInt64) (f : LinkField), field = Decimal.digits b.toNat ++ f.suffix

/-- Every link hash is one, in whatever order the batches came and whichever of the writes
were refused. -/
theorem consumed_isLinkHash (calls : List ConsumeCall) (id : Text) :
    IsLinkHash ((consumed calls).hashes (linkKey id)) := by
  intro field hfield
  obtain ⟨v, hv⟩ := ((consumed calls).mem_hashes _ _).mp hfield
  by_cases hc : ∃ c : Counter, c.place = .hash (linkKey id) field
  · obtain ⟨c, hc⟩ := hc
    obtain ⟨a, b, f, -, -, hf⟩ := link_place hc
    exact ⟨b, f, hf.symm⟩
  · have hm : ∀ source, Place.hash (linkKey id) field ≠ markPlace source := by
      intro source heq
      simp only [markPlace, Place.hash.injEq] at heq
      exact linkKey_ne id heq.1
    have := calls_other calls {} (fun c hp => hc ⟨c, hp.symm⟩) hm
    unfold consumed at hv
    rw [this] at hv
    cases hv

/-- The names in a link hash, each once. -/
def namesAt (hashes : Hashes) (id : Text) : List Text :=
  unique (((hashes (linkKey id)).keys.map peerOf).insertionSort (· ≤ ·))

/-- A name with the three numbers the link hash holds for it. -/
def storedPeer (hashes : Hashes) (id name : Text) : Peer where
  msisdn := name
  duration := PathService.stored hashes id name kFieldDurSuffix
  sms := PathService.stored hashes id name kFieldSmsSuffix
  calls := PathService.stored hashes id name kFieldCntSuffix

/-- The peers in a link hash, each once. -/
def peersAt (hashes : Hashes) (id : Text) : List Peer :=
  (namesAt hashes id).map (storedPeer hashes id)

variable {hashes : Hashes} {id : Text}

theorem namesAt_spec : (namesAt hashes id).Nodup ∧
    ∀ b, b ∈ namesAt hashes id ↔ Linked hashes id b := by
  refine ⟨(unique_sorted (List.pairwise_insertionSort _ _)).imp fun h => ne_of_lt h, fun b => ?_⟩
  unfold namesAt
  rw [mem_unique, List.mem_insertionSort, List.mem_map]
  rfl

theorem peersAt_names : (peersAt hashes id).map Peer.msisdn = namesAt hashes id := by
  unfold peersAt
  rw [List.map_map]
  exact List.map_id _

/-- No more peers than there are numbers. -/
theorem peersAt_length (h : IsLinkHash (hashes (linkKey id))) :
    (peersAt hashes id).length ≤ 2 ^ 64 := by
  have hsub : namesAt hashes id ⊆ (List.range (2 ^ 64)).map Decimal.digits := by
    intro name hname
    obtain ⟨field, hfield, rfl⟩ := (namesAt_spec.2 name).mp hname
    obtain ⟨b, f, rfl⟩ := h field hfield
    rw [peerOf_field]
    exact List.mem_map_of_mem (List.mem_range.mpr b.toNat_lt)
  have hle := (List.subperm_of_subset namesAt_spec.1 hsub).length_le
  have hlen : ((peersAt hashes id).map Peer.msisdn).length = (peersAt hashes id).length :=
    List.length_map _
  rw [← hlen, peersAt_names]
  rwa [List.length_map, List.length_range] at hle

/-- What `link_weights` reads, up to the order. -/
theorem weights_perm {store : IQueryStore} (hs : store.Serves hashes)
    (h : IsLinkHash (hashes (linkKey id))) (visit : PeerVisit) {n : Nat}
    {fields : List (Text × Text)} (hr : store.hgetall n (linkKey id) = some fields) :
    (visit.peers (fields.foldl weigh ∅)).Perm (peersAt hashes id) := by
  have hperm := hs.hgetall _ _ _ hr
  have hkeys := hs.keys_perm hr
  have hfields : LinkFields fields := by
    intro e he
    obtain ⟨b, f, hf⟩ := h e.1 (hkeys.mem_iff.mp (List.mem_map_of_mem he))
    exact ⟨_, f, hf⟩
  have hmem : ∀ b, b ∈ namesAt hashes id ↔ ∃ e ∈ fields, peerOf e.1 = b := by
    intro b
    exact (namesAt_spec.2 b).trans (hs.linked_iff hr b)
  refine (weighed_perm visit hfields (hkeys.nodup_iff.mpr (AList.keys_nodup _)) namesAt_spec.1
    hmem).trans (List.Perm.of_eq ?_)
  refine List.map_congr_left fun name _ => ?_
  unfold peerNamed
  simp only [fieldNum_perm hperm]
  rfl

/-! ## The pages -/

/-- The answer with one page of an order of peers. -/
def weightedAnswer (id : Text) (ordered : List Peer) (params : QueryParams) : Result :=
  if ordered = [] then ⟨404, Json.error "subscriber not found".toList⟩
  else ⟨200, (((QueryService.listing id ordered.length params).addText "sort".toList
    (if params.sort = .sms then QueryService.kSortSms else QueryService.kSortDur)).addJsons
      "peers".toList ((page ordered params).map QueryService.peerJson)).str⟩

/-- The pages of a listing at the offsets 0, `limit`, 2 `limit` and so on. -/
def pagesFrom {α : Type} (all : List α) (limit : UInt64) : List (List α) :=
  (List.range ((all.length + limit.toNat - 1) / limit.toNat)).map fun i =>
    page all { weights := true, offset := .ofNat (i * limit.toNat), limit := limit }

theorem pagesFrom_flatten {α : Type} {all : List α} (hsize : all.length ≤ 2 ^ 64)
    {limit : UInt64} (h : limit ≠ 0) : (pagesFrom all limit).flatten = all := by
  have hl : 0 < limit.toNat := Nat.pos_of_ne_zero fun h0 => h (UInt64.toNat.inj h0)
  have hdiv := Nat.div_add_mod (all.length + limit.toNat - 1) limit.toNat
  have hmod := Nat.mod_lt (all.length + limit.toNat - 1) hl
  generalize hn : (all.length + limit.toNat - 1) / limit.toNat = pages at hdiv
  have hcover : all.length ≤ pages * limit.toNat := by
    rw [Nat.mul_comm]
    omega
  have hoffset : ∀ i < pages, i * limit.toNat < all.length := by
    intro i hi
    have := Nat.mul_le_mul_right limit.toNat (Nat.succ_le_of_lt hi)
    rw [Nat.succ_mul, Nat.mul_comm pages] at this
    omega
  unfold pagesFrom
  rw [hn, ← List.flatMap_def]
  refine Eq.trans ?_ (Pages.tiled_all hcover)
  unfold Pages.tiled
  refine List.flatMap_congr fun i hi => ?_
  have hlt := hoffset i (List.mem_range.mp hi)
  rw [page_eq_slice _ h, UInt64.toNat_ofNat_of_lt' (lt_of_lt_of_le hlt hsize)]

/-- A weighted listing goes out in one order, page after page. -/
structure PagesTile (hashes : Hashes) (id : Text) (sort : SortBy) (ordered : List Peer) :
    Prop where
  answers : ∀ (store : IQueryStore) (visit : PeerVisit) (params : QueryParams) (log : List Read)
    (fields : List (Text × Text)), store.Serves hashes → params.weights = true →
    params.sort = sort → store.hgetall log.length (linkKey id) = some fields →
    QueryService.peers store visit id params log =
      some (weightedAnswer id ordered params, log ++ [.hgetall (linkKey id)])
  everyone : (ordered.map Peer.msisdn).Nodup ∧
    ∀ b, b ∈ ordered.map Peer.msisdn ↔ Linked hashes id b
  numbers : ∀ p ∈ ordered, p = storedPeer hashes id p.msisdn
  sorted : ordered.Pairwise (Precedes sort)
  tiled : ∀ limit, limit ≠ 0 → (pagesFrom ordered limit).flatten = ordered
  past : ∀ params, ordered.length ≤ params.offset.toNat → page ordered params = []

theorem pagesTile_of_isLinkHash (h : IsLinkHash (hashes (linkKey id))) (sort : SortBy) :
    PagesTile hashes id sort (orderPeers (peersAt hashes id) sort) where
  answers := by
    rintro store visit params log fields hs hw rfl hr
    have hperm := weights_perm hs h visit hr
    have hnodup : ((visit.peers (fields.foldl weigh ∅)).map Peer.msisdn).Nodup := by
      rw [(hperm.map Peer.msisdn).nodup_iff, peersAt_names]
      exact namesAt_spec.1
    have horder := orderPeers_unique hperm hnodup params.sort
    have hlen := (orderPeers_perm (visit.peers (fields.foldl weigh ∅)) params.sort).length_eq
    unfold QueryService.peers
    rw [hw, if_pos rfl]
    unfold QueryService.weighted
    rw [Script.bind_of_eq_some (linkWeights_eq store visit _ log), hr, Option.map_some]
    unfold weightedAnswer
    rw [← horder]
    dsimp only
    by_cases h0 : visit.peers (fields.foldl weigh ∅) = []
    · rw [h0] at hlen ⊢
      rfl
    · have h0' : orderPeers (visit.peers (fields.foldl weigh ∅)) params.sort ≠ [] := by
        intro hnil
        rw [hnil] at hlen
        exact h0 (List.length_eq_zero_iff.mp hlen.symm)
      rw [if_neg h0, if_neg h0', hlen]
      rfl
  everyone := by
    have hp := (orderPeers_perm (peersAt hashes id) sort).map Peer.msisdn
    rw [peersAt_names] at hp
    exact ⟨hp.nodup_iff.mpr namesAt_spec.1, fun b => hp.mem_iff.trans (namesAt_spec.2 b)⟩
  numbers := by
    intro p hp
    obtain ⟨name, -, rfl⟩ := List.mem_map.mp ((orderPeers_perm _ _).mem_iff.mp hp)
    rfl
  sorted := orderPeers_sorted (by rw [peersAt_names]; exact namesAt_spec.1) sort
  tiled limit hl := by
    refine pagesFrom_flatten ?_ hl
    rw [(orderPeers_perm _ _).length_eq]
    exact peersAt_length h
  past _ := page_past

/-- **Weighted pages tile one fixed order**, in every link hash the writer leaves. -/
theorem weighted_pages_tile (calls : List ConsumeCall) (id : Text) (sort : SortBy) :
    ∃ ordered, PagesTile (consumed calls).hashes id sort ordered :=
  ⟨_, pagesTile_of_isLinkHash (consumed_isLinkHash calls id) sort⟩

end CdrProcessor
