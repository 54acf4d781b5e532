import CdrProcessor.Lib.Traced
import CdrProcessor.PathRoute

/-! The path search over a store that may answer anything, and differently from one read to
the next: it comes to an end with an answer, and stops at the first read that fails. -/

namespace CdrProcessor

open Script

/-- A read is answered, when `n` went before it. -/
def IQueryStore.served (store : IQueryStore) (n : Nat) : Read → Bool
  | .hgetall key => (store.hgetall n key).isSome
  | .hkeys key => (store.hkeys n key).isSome
  | .hmget key fields => (store.hmget n key fields).isSome

theorem readAll_traced (store : IQueryStore) (key : Text) :
    Traced store.served (store.readAll key) Option.isSome fun _ => True :=
  .ask (store.hgetall · key) fun _ => rfl

theorem readKeys_traced (store : IQueryStore) (key : Text) :
    Traced store.served (store.readKeys key) Option.isSome fun _ => True :=
  .ask (store.hkeys · key) fun _ => rfl

theorem readSome_traced (store : IQueryStore) (key : Text) (fields : List Text) :
    Traced store.served (store.readSome key fields) Option.isSome fun _ => True :=
  .ask (store.hmget · key fields) fun _ => rfl

theorem linkPeers_traced (store : IQueryStore) (msisdn : Text) :
    Traced store.served (linkPeers store msisdn) Option.isSome fun _ => True := by
  refine (readKeys_traced store _).bind (fun answer _ hok => ?_) fun answer _ hok => ?_
  · obtain ⟨fields, rfl⟩ := Option.isSome_iff_exists.mp hok
    exact .pure rfl trivial
  · cases answer with
    | none => exact ⟨none, rfl, rfl, trivial⟩
    | some fields => cases hok

namespace PathService

variable {store : IQueryStore} {root : Side → Text}

/-! ## Trails over links that may change -/

/-- Nothing is asked of the links a trail was grown over. -/
abbrev AnyLink : Text → Text → Prop := fun _ _ => True

/-- Every trail leads to its root, and the frontiers hold what the trails hold. -/
structure Grounded (root : Side → Text) (s : Search) : Prop where
  trail : ∀ side, ∀ x ∈ s.seen side, ∃ r, Rooted AnyLink (s.seen side) (root side) r x
  held : ∀ side, ∀ x ∈ s.frontier side, x ∈ s.seen side

/-- What the loops are left with: a subscriber both trails hold. -/
def MetBoth (s : Search) : Option Stop → Prop
  | some (.met peer) => ∀ side, peer ∈ s.seen side
  | _ => True

theorem Grounded.start (first second : Text) :
    Grounded (ends first second) (.start first second) := by
  have hone : ∀ y : Text, ∀ x ∈ (∅ : Trail).insert y y,
      ∃ r, Rooted AnyLink ((∅ : Trail).insert y y) y r x :=
    fun y x hx => ⟨0, (Grown.start (R := AnyLink) y).trail x hx⟩
  constructor
  · intro side
    cases side with
    | first => exact hone first
    | second => exact hone second
  · intro side x hx
    cases side with
    | first => exact (Grown.start (R := AnyLink) first).held x hx
    | second => exact (Grown.start (R := AnyLink) second).held x hx

theorem Side.eq_or_other (side side' : Side) : side' = side ∨ side' = side.other := by
  cases side <;> cases side' <;> simp [Side.other]

/-- One subscriber more on a trail, put there from one it holds. -/
theorem Grounded.mark {s : Search} (h : Grounded root s) {side : Side} {peer node : Text}
    (hnew : peer ∉ s.seen side) (hnode : node ∈ s.seen side) :
    Grounded root (s.mark side peer node) := by
  constructor
  · intro side' x hx
    obtain rfl | rfl := side.eq_or_other side'
    · rw [mark_seen] at hx ⊢
      rcases (AList.mem_insert _).mp hx with rfl | hx
      · obtain ⟨r, hr⟩ := h.trail _ node hnode
        exact ⟨r + 1, hr.reached hnew hnode trivial⟩
      · obtain ⟨r, hr⟩ := h.trail _ x hx
        exact ⟨r, hr.insert hnew⟩
    · rw [mark_seen_other] at hx ⊢
      exact h.trail _ x hx
  · intro side' x hx
    rw [mark_frontier] at hx
    have hheld := h.held side' x hx
    obtain rfl | rfl := side.eq_or_other side'
    · rw [mark_seen]
      exact (AList.mem_insert _).mpr (.inr hheld)
    · rwa [mark_seen_other]

theorem Grounded.push {s : Search} (h : Grounded root s) {side : Side} {peer : Text}
    (hpeer : peer ∈ s.seen side) : Grounded root (s.push side peer) := by
  refine ⟨h.trail, fun side' x hx => ?_⟩
  obtain rfl | rfl := side.eq_or_other side'
  · rw [push_frontier] at hx
    rcases List.mem_append.mp hx with hx | hx
    · exact h.held _ x hx
    · rw [List.mem_singleton.mp hx]
      exact hpeer
  · rw [push_frontier_other] at hx
    exact h.held _ x hx

/-! ## The loops -/

/-- The peers of one node: nothing is taken off a frontier. -/
theorem visitPeers_grounded (full : Nat → Bool) {side : Side} {node : Text} (peers : List Text)
    {s : Search} (h : Grounded root s) (hnode : node ∈ s.seen side) {s' : Search}
    {stop : Option Stop} (hv : visitPeers full side node peers s = (s', stop)) :
    Grounded root s' ∧ MetBoth s' stop ∧ stop ≠ some .unreadable ∧
      (s.frontier side).length ≤ (s'.frontier side).length := by
  induction peers generalizing s with
  | nil =>
    cases hv
    exact ⟨h, trivial, nofun, le_refl _⟩
  | cons peer peers ih =>
    rw [visitPeers] at hv
    by_cases hseen : peer ∈ s.seen side
    · rw [if_pos hseen] at hv
      exact ih h hnode hv
    · rw [if_neg hseen] at hv
      dsimp only at hv
      have hm : Grounded root (s.count.mark side peer node) :=
        Grounded.mark (s := s.count) ⟨h.trail, h.held⟩ hseen hnode
      have hin : ∀ x, x ∈ (s.count.mark side peer node).seen side ↔ x = peer ∨ x ∈ s.seen side :=
        fun x => by rw [mark_seen, AList.mem_insert, count_seen]
      split at hv
      · cases hv
        exact ⟨⟨h.trail, h.held⟩, trivial, nofun, le_refl _⟩
      · split at hv
        · next hmet =>
          cases hv
          refine ⟨hm, fun side' => ?_, nofun, le_refl _⟩
          obtain rfl | rfl := side.eq_or_other side'
          · exact (hin _).mpr (.inl rfl)
          · exact hmet
        · obtain ⟨hg, hb, hs, hlen⟩ :=
            ih (hm.push ((hin _).mpr (.inl rfl))) ((hin _).mpr (.inr hnode)) hv
          refine ⟨hg, hb, hs, le_trans ?_ hlen⟩
          rw [push_frontier, mark_frontier, count_frontier, List.length_append]
          exact Nat.le_add_right _ _

/-- What a level and the whole search are left with. -/
def LeftGrounded (root : Side → Text) (out : Search × Option Stop) : Prop :=
  Grounded root out.1 ∧ MetBoth out.1 out.2

/-- No read failed. -/
def readable (out : Search × Option Stop) : Bool := out.2 ≠ some .unreadable

/-- **A level** finds a node for every turn of its loop. -/
theorem expandLevel_traced (full : Nat → Bool) {side : Side} (width : Nat) {s : Search}
    (h : Grounded root s) (hwidth : width ≤ (s.frontier side).length) :
    Traced store.served (expandLevel store full side width s) readable (LeftGrounded root) := by
  induction width generalizing s with
  | zero => exact .pure rfl ⟨h, trivial⟩
  | succ width ih =>
    rw [expandLevel]
    cases hfront : s.frontier side with
    | nil =>
      rw [hfront] at hwidth
      cases hwidth
    | cons node rest =>
      have hnode : node ∈ s.seen side := h.held side node (by rw [hfront]; exact List.mem_cons_self)
      have hpop : Grounded root (s.setFrontier side rest) := by
        refine ⟨h.trail, fun side' x hx => ?_⟩
        obtain rfl | rfl := side.eq_or_other side'
        · rw [setFrontier_frontier] at hx
          exact h.held _ x (by rw [hfront]; exact List.mem_cons_of_mem _ hx)
        · rw [setFrontier_frontier_other] at hx
          exact h.held _ x hx
      dsimp only
      refine (linkPeers_traced store node).bind (fun answer _ hok => ?_) fun answer _ hok => ?_
      · obtain ⟨peers, rfl⟩ := Option.isSome_iff_exists.mp hok
        dsimp only
        cases hv : visitPeers full side node peers (s.setFrontier side rest) with
        | mk s' stop =>
          obtain ⟨hg, hb, hs, hlen⟩ := visitPeers_grounded full peers hpop hnode hv
          cases stop with
          | some stop => exact .pure (by simpa [readable] using hs) ⟨hg, hb⟩
          | none =>
            refine ih hg (le_trans ?_ hlen)
            rw [setFrontier_frontier]
            rw [hfront, List.length_cons] at hwidth
            omega
      · cases answer with
        | none => exact ⟨_, rfl, rfl, hpop, trivial⟩
        | some peers => cases hok

theorem searchHops_traced (full : Nat → Bool) (hops : Nat) {s : Search} (h : Grounded root s) :
    Traced store.served (searchHops store full hops s) readable (LeftGrounded root) := by
  induction hops generalizing s with
  | zero => exact .pure rfl ⟨h, trivial⟩
  | succ hops ih =>
    rw [searchHops]
    refine (expandLevel_traced full _ h (le_refl _)).bind ?_ ?_
    · rintro ⟨s', stop⟩ hleft hok
      cases stop with
      | some stop => exact .pure hok hleft
      | none =>
        dsimp only
        split
        · exact .pure rfl hleft
        · exact ih hleft.1
    · rintro ⟨s', stop⟩ hleft hok
      cases stop with
      | some stop => exact ⟨_, rfl, hok, hleft⟩
      | none => cases hok

/-- A subscriber both trails hold is walked from to both ends. -/
theorem Grounded.walk {s : Search} (h : Grounded root s) {peer : Text}
    (hmet : ∀ side, peer ∈ s.seen side) :
    ∃ route, walk (s.seen .first) (s.seen .second) peer = some route := by
  obtain ⟨r, l, hc, hl, -, hsize⟩ := h.trail .first peer (hmet .first)
  obtain ⟨r', l', hc', -, -, hsize'⟩ := h.trail .second peer (hmet .second)
  exact ⟨_, walk_eq hc hl.head hc' hsize hsize'⟩

end PathService

end CdrProcessor
