import CdrProcessor.QueryStore
import Mathlib.Data.Char
import Mathlib.Data.List.Lex
import Mathlib.Data.List.Sort

/-! `links.cpp`: the peers of a subscriber, and what it exchanged with each, read off the
fields of its link hash; and the page of a listing (`query_params.hpp`). -/

namespace CdrProcessor

instance : Inhabited Text := ⟨[]⟩

/-- One stored value as a number, 0 when it does not parse. -/
def toNum (value : Text) : UInt64 := ((fromChars value).map Prod.fst).getD 0

def linkKey (msisdn : Text) : Text := kLinkPrefix ++ msisdn

/-- A field cut at `field.rfind(':')`: what stands before the last colon, and the rest
from the colon on. -/
def splitColon : Text → Option (Text × Text)
  | [] => none
  | c :: s =>
    match splitColon s with
    | some (name, suffix) => some (c :: name, suffix)
    | none => if c = ':' then some ([], c :: s) else none

/-- The peer a field is about, the whole field when it has no colon. -/
def peerOf (field : Text) : Text := ((splitColon field).map Prod.fst).getD field

/-- `std::unique`: of equal neighbours the first stays. -/
def unique : List Text → List Text
  | a :: b :: l => if a = b then unique (b :: l) else a :: unique (b :: l)
  | l => l

/-- `link_peers`: every peer of one subscriber, ascending. -/
def linkPeers (store : IQueryStore) (msisdn : Text) : Query (Option (List Text)) := do
  match ← store.readKeys (linkKey msisdn) with
  | none => return none
  | some fields => return some (unique ((fields.map peerOf).insertionSort (· ≤ ·)))

/-! ## Weights -/

/-- One peer with what it exchanged with the subscriber it belongs to. -/
structure Peer where
  msisdn : Text := []
  duration : UInt64 := 0
  sms : UInt64 := 0
  calls : UInt64 := 0
  deriving DecidableEq, Repr

instance : Inhabited Peer := ⟨{}⟩

/-- The loop body of `link_weights`: a field of any other suffix is read as a duration. -/
def weigh (byMsisdn : Table Text Peer) (field : Text × Text) : Table Text Peer :=
  match splitColon field.1 with
  | none => byMsisdn
  | some (name, suffix) =>
    byMsisdn.modify name fun peer =>
      if suffix = kFieldSmsSuffix then { peer with msisdn := name, sms := toNum field.2 }
      else if suffix = kFieldCntSuffix then { peer with msisdn := name, calls := toNum field.2 }
      else { peer with msisdn := name, duration := toNum field.2 }

/-- The order in which the loop over `byMsisdn` meets its entries: any order, every entry
once. -/
structure PeerVisit where
  peers : Table Text Peer → List Peer
  peers_perm : ∀ m, (peers m).Perm (m.entries.map Sigma.snd)

def PeerVisit.plain : PeerVisit := ⟨fun m => m.entries.map Sigma.snd, fun _ => .refl _⟩

/-- `link_weights`. -/
def linkWeights (store : IQueryStore) (visit : PeerVisit) (msisdn : Text) :
    Query (Option (List Peer)) := do
  match ← store.readAll (linkKey msisdn) with
  | none => return none
  | some fields => return some (visit.peers (fields.foldl weigh ∅))

/-- `Sort`, the metric a weighted listing is ordered by. -/
inductive SortBy where
  | duration | sms
  deriving DecidableEq, Repr

/-- The comparison of `order_peers`: by the metric, then the other one, then msisdn. -/
def peerBefore (sort : SortBy) (left right : Peer) : Bool :=
  let leftBy := if sort = .sms then left.sms else left.duration
  let rightBy := if sort = .sms then right.sms else right.duration
  if leftBy ≠ rightBy then decide (rightBy < leftBy)
  else
    let leftTie := if sort = .sms then left.duration else left.sms
    let rightTie := if sort = .sms then right.duration else right.sms
    if leftTie ≠ rightTie then decide (rightTie < leftTie)
    else decide (left.msisdn < right.msisdn)

def orderPeers (peers : List Peer) (sort : SortBy) : List Peer :=
  peers.insertionSort fun left right => !peerBefore sort right left

/-! ## Pages -/

/-- The optional parameters a listing takes, a limit of 0 asks for every entry. -/
structure QueryParams where
  weights : Bool := false
  sort : SortBy := .duration
  offset : UInt64 := 0
  limit : UInt64 := 0
  deriving DecidableEq, Repr

/-- The page of a listing the parameters ask for. -/
def page {α : Type} (all : List α) (params : QueryParams) : List α :=
  if all.length ≤ params.offset.toNat then []
  else
    let left := all.length - params.offset.toNat
    let taken := if params.limit = 0 then left else min params.limit.toNat left
    (all.drop params.offset.toNat).take taken

/-! ## Who is linked -/

/-- `b` is a peer of `a`: a field of the link hash of `a` is about `b`. -/
def Linked (hashes : Hashes) (a b : Text) : Prop :=
  ∃ field ∈ (hashes (linkKey a)).keys, peerOf field = b

/-- The peers that are read off a link hash. -/
theorem IQueryStore.Serves.linked_iff {store : IQueryStore} {hashes : Hashes}
    (hs : store.Serves hashes) {n : Nat} {a : Text} {fields : List (Text × Text)}
    (hr : store.hgetall n (linkKey a) = some fields) (b : Text) :
    Linked hashes a b ↔ ∃ e ∈ fields, peerOf e.1 = b := by
  unfold Linked
  simp only [← (hs.keys_perm hr).mem_iff, List.mem_map]
  constructor
  · rintro ⟨_, ⟨e, he, rfl⟩, rfl⟩
    exact ⟨e, he, rfl⟩
  · rintro ⟨e, he, rfl⟩
    exact ⟨e.1, ⟨e, he, rfl⟩, rfl⟩

theorem splitColon_append {name suffix : Text} (h : ':' ∉ suffix) :
    splitColon (name ++ ':' :: suffix) = some (name, ':' :: suffix) := by
  have hnone : ∀ s : Text, ':' ∉ s → splitColon s = none := by
    intro s hs
    induction s with
    | nil => rfl
    | cons c s ih =>
      rw [List.mem_cons, not_or] at hs
      simp [splitColon, ih hs.2, Ne.symm hs.1]
  induction name with
  | nil => simp [splitColon, hnone suffix h]
  | cons c name ih => simp [splitColon, ih]

theorem mem_unique (l : List Text) (x : Text) : x ∈ unique l ↔ x ∈ l := by
  induction l using unique.induct with
  | case1 a l ih =>
    rw [unique, if_pos rfl, ih]
    simp
  | case2 a b l hab ih =>
    rw [unique, if_neg hab, List.mem_cons, ih, List.mem_cons (a := x) (b := a)]
  | case3 l h => rw [unique.eq_def]; split <;> simp_all

/-- Of a sorted list every value stays once, ascending. -/
theorem unique_sorted {l : List Text} (h : l.Pairwise (· ≤ ·)) : (unique l).Pairwise (· < ·) := by
  induction l using unique.induct with
  | case1 a l ih =>
    rw [unique, if_pos rfl]
    exact ih h.tail
  | case2 a b l hab ih =>
    rw [unique, if_neg hab]
    refine List.pairwise_cons.mpr ⟨fun x hx => ?_, ih h.tail⟩
    have hb : a < b := lt_of_le_of_ne (List.rel_of_pairwise_cons h (by simp)) hab
    rcases List.mem_cons.mp ((mem_unique _ _).mp hx) with rfl | hx
    · exact hb
    · exact hb.trans_le (List.rel_of_pairwise_cons h.tail hx)
  | case3 l hl =>
    rw [unique.eq_def]
    match l, hl with
    | [], _ => exact .nil
    | [a], _ => simp
    | a :: b :: l, hl => exact absurd rfl (hl a b l)

/-- One read, whose answer is put in order. -/
theorem linkPeers_eq (store : IQueryStore) (msisdn : Text) (log : List Read) :
    linkPeers store msisdn log =
      some ((store.hkeys log.length (linkKey msisdn)).map fun fields =>
        unique ((fields.map peerOf).insertionSort (· ≤ ·)), log ++ [.hkeys (linkKey msisdn)]) := by
  change (match store.hkeys log.length (linkKey msisdn) with
    | none => (pure none : Query (Option (List Text)))
    | some fields => pure (some (unique ((fields.map peerOf).insertionSort (· ≤ ·)))))
      (log ++ [Read.hkeys (linkKey msisdn)]) = _
  cases store.hkeys log.length (linkKey msisdn) <;> rfl

theorem linkWeights_eq (store : IQueryStore) (visit : PeerVisit) (msisdn : Text)
    (log : List Read) :
    linkWeights store visit msisdn log =
      some ((store.hgetall log.length (linkKey msisdn)).map fun fields =>
        visit.peers (fields.foldl weigh ∅), log ++ [.hgetall (linkKey msisdn)]) := by
  change (match store.hgetall log.length (linkKey msisdn) with
    | none => (pure none : Query (Option (List Peer)))
    | some fields => pure (some (visit.peers (fields.foldl weigh ∅))))
      (log ++ [Read.hgetall (linkKey msisdn)]) = _
  cases store.hgetall log.length (linkKey msisdn) <;> rfl

/-- **What `link_peers` reads**: everybody linked, each once. -/
theorem linkPeers_some {store : IQueryStore} {hashes : Hashes} (hs : store.Serves hashes)
    {msisdn : Text} {log log' : List Read} {peers : List Text}
    (h : linkPeers store msisdn log = some (some peers, log')) :
    (∀ b, b ∈ peers ↔ Linked hashes msisdn b) ∧ peers.Pairwise (· < ·) := by
  rw [linkPeers_eq, Option.some_inj, Prod.mk.injEq, Option.map_eq_some_iff] at h
  obtain ⟨⟨fields, hk, rfl⟩, -⟩ := h
  refine ⟨fun b => ?_, unique_sorted (List.pairwise_insertionSort _ _)⟩
  rw [mem_unique, List.mem_insertionSort, List.mem_map]
  unfold Linked
  simp only [(hs.hkeys _ _ _ hk).mem_iff]

/-- One read, which fails or finds everybody linked. -/
theorem linkPeers_read {store : IQueryStore} {hashes : Hashes} (hs : store.Serves hashes)
    (msisdn : Text) (log : List Read) :
    ∃ answer, linkPeers store msisdn log = some (answer, log ++ [.hkeys (linkKey msisdn)]) ∧
      (answer = none → ¬ store.Up) ∧
      ∀ peers, answer = some peers → ∀ b, b ∈ peers ↔ Linked hashes msisdn b := by
  refine ⟨_, linkPeers_eq store msisdn log, fun hnone hup => ?_, ?_⟩
  · have := hup.hkeys log.length (linkKey msisdn)
    rw [Option.map_eq_none_iff.mp hnone] at this
    cases this
  · rintro peers hsome
    exact (linkPeers_some hs ((linkPeers_eq store msisdn log).trans (by rw [hsome]))).1

end CdrProcessor
