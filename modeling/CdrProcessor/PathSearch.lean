import CdrProcessor.PathService
import CdrProcessor.Lib.Trails

/-! What the loops of the path search keep.  Between two levels the two trails hold two
balls that do not meet, and their radii add up to the rounds made; so the first
subscriber that both come to hold lies on a shortest route. -/

namespace CdrProcessor.PathService

open Script

variable {store : IQueryStore} {hashes : Hashes} {root : Side → Text} {radius : Side → Nat}
  {full : Nat → Bool} {side : Side}

theorem Side.other_ne (side : Side) : side.other ≠ side := by cases side <;> decide

@[simp] theorem mark_seen (s : Search) (side : Side) (peer node : Text) :
    (s.mark side peer node).seen side = (s.seen side).insert peer node := Function.update_self ..

@[simp] theorem mark_seen_other (s : Search) (side : Side) (peer node : Text) :
    (s.mark side peer node).seen side.other = s.seen side.other :=
  Function.update_of_ne side.other_ne ..

@[simp] theorem setFrontier_frontier (s : Search) (side : Side) (frontier : List Text) :
    (s.setFrontier side frontier).frontier side = frontier := Function.update_self ..

@[simp] theorem setFrontier_frontier_other (s : Search) (side : Side) (frontier : List Text) :
    (s.setFrontier side frontier).frontier side.other = s.frontier side.other :=
  Function.update_of_ne side.other_ne ..

@[simp] theorem mark_frontier (s : Search) (side : Side) (peer node : Text) :
    (s.mark side peer node).frontier = s.frontier := rfl

@[simp] theorem push_seen (s : Search) (side : Side) (peer : Text) :
    (s.push side peer).seen = s.seen := rfl

@[simp] theorem push_frontier (s : Search) (side : Side) (peer : Text) :
    (s.push side peer).frontier side = s.frontier side ++ [peer] := setFrontier_frontier ..

@[simp] theorem push_frontier_other (s : Search) (side : Side) (peer : Text) :
    (s.push side peer).frontier side.other = s.frontier side.other := setFrontier_frontier_other ..

@[simp] theorem count_seen (s : Search) : s.count.seen = s.seen := rfl

@[simp] theorem count_frontier (s : Search) : s.count.frontier = s.frontier := rfl

/-! ## Between two levels and in the middle of one -/

/-- The two balls of a search between two levels. -/
structure Balls (hashes : Hashes) (root : Side → Text) (radius : Side → Nat) (s : Search) :
    Prop where
  grown : ∀ side, Grown (Linked hashes) (root side) (radius side) (s.seen side) (s.frontier side)
  apart : ∀ x, x ∈ s.seen .first → x ∉ s.seen .second

/-- A search in the middle of a level of one side. -/
structure Middle (hashes : Hashes) (root : Side → Text) (radius : Side → Nat) (side : Side)
    (s : Search) (todo fresh : List Text) : Prop where
  growing : Growing (Linked hashes) (root side) (radius side) (s.seen side) todo fresh
  grown : Grown (Linked hashes) (root side.other) (radius side.other) (s.seen side.other)
    (s.frontier side.other)
  apart : ∀ x, x ∈ s.seen side → x ∉ s.seen side.other

theorem Balls.apart_side {s : Search} (h : Balls hashes root radius s) (side : Side) (x : Text)
    (hx : x ∈ s.seen side) : x ∉ s.seen side.other := by
  cases side with
  | first => exact h.apart x hx
  | second => exact fun hx' => h.apart x hx' hx

theorem Balls.middle {s : Search} (h : Balls hashes root radius s) (side : Side) :
    Middle hashes root radius side s (s.frontier side) [] :=
  ⟨(h.grown side).growing, h.grown side.other, h.apart_side side⟩

/-- The radii once a level of one side was expanded. -/
def widen (radius : Side → Nat) (side : Side) : Side → Nat :=
  Function.update radius side (radius side + 1)

theorem widen_sum (radius : Side → Nat) (side : Side) :
    widen radius side .first + widen radius side .second =
      radius .first + radius .second + 1 := by
  cases side <;> simp [widen, Function.update] <;> omega

theorem Middle.balls {s : Search}
    (h : Middle hashes root radius side s [] (s.frontier side)) :
    Balls hashes root (widen radius side) s := by
  have hside : ∀ side', side' = side ∨ side' = side.other := by
    intro side'
    cases side <;> cases side' <;> simp [Side.other]
  refine ⟨fun side' => ?_, fun x hx hx' => ?_⟩
  · rcases hside side' with rfl | rfl
    · unfold widen
      rw [Function.update_self]
      exact h.growing.grown
    · unfold widen
      rw [Function.update_of_ne side.other_ne]
      exact h.grown
  · cases side with
    | first => exact h.apart x hx hx'
    | second => exact h.apart x hx' hx

theorem Middle.expanded {s : Search} {node : Text} {todo fresh : List Text}
    (h : Middle hashes root radius side s (node :: todo) fresh)
    (hall : ∀ y, Linked hashes node y → y ∈ s.seen side) :
    Middle hashes root radius side s todo fresh :=
  ⟨h.growing.expanded hall, h.grown, h.apart⟩

/-! ## Meeting -/

/-- Both trails lead from `peer` to their roots, and no route between the roots has fewer
links than the two together. -/
def Meets (hashes : Hashes) (root : Side → Text) (n : Nat) (s : Search) (peer : Text) : Prop :=
  ∃ depth : Side → Nat, depth .first + depth .second = n ∧
    (∀ side, Rooted (Linked hashes) (s.seen side) (root side) (depth side) peer) ∧
    ∀ l, IsRoute (Linked hashes) (root .first) (root .second) l → n + 1 ≤ l.length

/-- What the loops are left with: `goOn` when they came to their end. -/
def Left (store : IQueryStore) (hashes : Hashes) (root : Side → Text) (full : Nat → Bool)
    (n : Nat) (s : Search) (goOn : Prop) : Option Stop → Prop
  | none => goOn
  | some (.met peer) => ∃ k ≤ n, Meets hashes root k s peer
  | some .gaveUp => full s.visited = true
  | some .unreadable => ¬ store.Up

theorem Left.imp {n : Nat} {s : Search} {goOn goOn' : Prop} {stop : Option Stop}
    (hg : goOn → goOn') (h : Left store hashes root full n s goOn stop) :
    Left store hashes root full n s goOn' stop := by
  cases stop with
  | none => exact hg h
  | some stop => cases stop <;> exact h

variable (hR : ∀ a b, Linked hashes a b → Linked hashes b a)

include hR

/-- As long as the balls do not meet, no route is shorter than what both make up. -/
theorem far_apart (side : Side) {s t : Text → Prop}
    (hs : ∀ x, Reaches (Linked hashes) (radius side) (root side) x → s x)
    (ht : ∀ x, Reaches (Linked hashes) (radius side.other) (root side.other) x → t x)
    (hst : ∀ x, s x → ¬ t x) {l : List Text}
    (hl : IsRoute (Linked hashes) (root .first) (root .second) l) :
    radius .first + radius .second + 2 ≤ l.length := by
  cases side with
  | first => exact hl.far hR hs ht hst
  | second =>
    have := (hl.reverse hR).far hR hs ht hst
    rw [List.length_reverse] at this
    change radius .second + radius .first + 2 ≤ _ at this
    omega

theorem Balls.far {s : Search} (h : Balls hashes root radius s) {l : List Text}
    (hl : IsRoute (Linked hashes) (root .first) (root .second) l) :
    radius .first + radius .second + 2 ≤ l.length :=
  far_apart hR .first (h.grown .first).inner (h.grown .second).inner h.apart hl

/-- A side that has nothing left to expand was cut off from the other one. -/
theorem Balls.cut_off {s : Search} (h : Balls hashes root radius s) {side : Side}
    (hempty : s.frontier side = []) {l : List Text} :
    ¬ IsRoute (Linked hashes) (root .first) (root .second) l := by
  intro hl
  have hg := h.grown side
  rw [hempty] at hg
  have hroot : ∀ side, root side ∈ s.seen side := fun side =>
    (h.grown side).inner _ (.self _ _)
  cases side with
  | first => exact h.apart _ (hg.exhausted hl) (hroot .second)
  | second => exact h.apart _ (hroot .first) (hg.exhausted (hl.reverse hR))

/-- A subscriber that the side being expanded reaches and the other one holds. -/
theorem Middle.meets {s : Search} {todo fresh : List Text} {peer node : Text}
    (h : Middle hashes root radius side s todo fresh) (hnode : node ∈ todo)
    (hlink : Linked hashes node peer) (hnew : peer ∉ s.seen side)
    (hmet : peer ∈ s.seen side.other) :
    Meets hashes root (radius .first + radius .second + 1) (s.count.mark side peer node) peer := by
  have hnear := h.growing.near node hnode
  refine ⟨widen radius side, widen_sum radius side, fun side' => ?_, fun l hl => ?_⟩
  · by_cases hs : side' = side
    · subst hs
      unfold widen
      rw [mark_seen, Function.update_self]
      exact hnear.reached hnew hnear.mem (hR _ _ hlink)
    · obtain rfl : side' = side.other := by revert hs; cases side <;> cases side' <;> simp [Side.other]
      unfold widen
      rw [mark_seen_other, Function.update_of_ne side.other_ne]
      exact h.grown.trail peer hmet
  · have := far_apart hR side h.growing.inner h.grown.inner h.apart hl
    omega

/-- A subscriber that is new to both sides. -/
theorem Middle.push {s : Search} {todo fresh : List Text} {peer node : Text}
    (h : Middle hashes root radius side s todo fresh) (hnode : node ∈ todo)
    (hlink : Linked hashes node peer) (hnew : peer ∉ s.seen side)
    (hmet : peer ∉ s.seen side.other) :
    Middle hashes root radius side ((s.count.mark side peer node).push side peer) todo
      (fresh ++ [peer]) where
  growing := by
    rw [push_seen, mark_seen]
    exact h.growing.insert hnew hnode (hR _ _ hlink)
  grown := by
    rw [push_seen, push_frontier_other, mark_seen_other]
    exact h.grown
  apart x hx := by
    rw [push_seen, mark_seen_other]
    rw [push_seen, mark_seen, AList.mem_insert] at hx
    rcases hx with rfl | hx
    · exact hmet
    · exact h.apart x hx

/-! ## The loops -/

/-- **The peers of one node.**  Unless the loop is left, the level is where it was, with
every peer in the trail. -/
theorem visitPeers_spec (store : IQueryStore) (full : Nat → Bool) {node : Text}
    {rest : List Text} (peers : List Text)
    (hpeers : ∀ p ∈ peers, Linked hashes node p) {s : Search} {fresh : List Text}
    (h : Middle hashes root radius side s (node :: rest) fresh)
    (hfront : s.frontier side = rest ++ fresh) :
    Left store hashes root full (radius .first + radius .second + 1)
      (visitPeers full side node peers s).1
      (∃ fresh', Middle hashes root radius side (visitPeers full side node peers s).1
          (node :: rest) fresh' ∧
        (visitPeers full side node peers s).1.frontier side = rest ++ fresh' ∧
        (∀ x ∈ s.seen side, x ∈ (visitPeers full side node peers s).1.seen side) ∧
        ∀ p ∈ peers, p ∈ (visitPeers full side node peers s).1.seen side)
      (visitPeers full side node peers s).2 := by
  induction peers generalizing s fresh with
  | nil => exact ⟨fresh, h, hfront, fun _ hx => hx, by simp⟩
  | cons peer peers ih =>
    have hrest : ∀ p ∈ peers, Linked hashes node p := fun p hp => hpeers p (List.mem_cons_of_mem _ hp)
    have hpeer : Linked hashes node peer := hpeers peer List.mem_cons_self
    unfold visitPeers
    by_cases hseen : peer ∈ s.seen side
    · rw [if_pos hseen]
      refine (ih hrest h hfront).imp ?_
      rintro ⟨fresh', hm, hf, hkeep, hall⟩
      exact ⟨fresh', hm, hf, hkeep, List.forall_mem_cons.mpr ⟨hkeep peer hseen, hall⟩⟩
    · rw [if_neg hseen]
      dsimp only
      by_cases hfull : full s.count.visited = true
      · rw [if_pos hfull]
        exact hfull
      · rw [if_neg hfull, mark_seen_other, count_seen]
        by_cases hmet : peer ∈ s.seen side.other
        · rw [if_pos hmet]
          exact ⟨_, le_refl _, h.meets hR List.mem_cons_self hpeer hseen hmet⟩
        · rw [if_neg hmet]
          have hm := h.push hR List.mem_cons_self hpeer hseen hmet
          have hmem : ∀ x, x ∈ ((s.count.mark side peer node).push side peer).seen side ↔
              x = peer ∨ x ∈ s.seen side := by
            intro x
            rw [push_seen, mark_seen, AList.mem_insert, count_seen]
          refine (ih hrest hm (by simp [hfront])).imp ?_
          rintro ⟨fresh', hm', hf, hkeep, hall⟩
          exact ⟨fresh', hm', hf, fun x hx => hkeep x ((hmem x).mpr (.inr hx)),
            List.forall_mem_cons.mpr ⟨hkeep peer ((hmem peer).mpr (.inl rfl)), hall⟩⟩

/-- **A level.**  Unless the loop is left, it makes the ball of its side one link wider. -/
theorem expandLevel_spec (hs : store.Serves hashes) (full : Nat → Bool) (todo : List Text)
    {s : Search} {fresh : List Text} (log : List Read)
    (h : Middle hashes root radius side s todo fresh)
    (hfront : s.frontier side = todo ++ fresh) :
    ∃ s' stop log', expandLevel store full side todo.length s log = some ((s', stop), log') ∧
      Left store hashes root full (radius .first + radius .second + 1) s'
        (Balls hashes root (widen radius side) s') stop := by
  induction todo generalizing s fresh log with
  | nil =>
    have hm : Middle hashes root radius side s [] (s.frontier side) := by
      rw [hfront]
      exact h
    exact ⟨s, none, log, rfl, hm.balls⟩
  | cons node rest ih =>
    have hm : Middle hashes root radius side (s.setFrontier side (rest ++ fresh)) (node :: rest)
        fresh := by
      refine ⟨h.growing, ?_, h.apart⟩
      rw [setFrontier_frontier_other]
      exact h.grown
    rw [List.length_cons, expandLevel, hfront]
    dsimp only [List.cons_append]
    obtain ⟨answer, hread, hdown, hpeers⟩ := linkPeers_read hs node log
    rw [bind_of_eq_some hread]
    cases answer with
    | none => exact ⟨_, _, _, rfl, hdown rfl⟩
    | some peers =>
      have hv := visitPeers_spec hR store full peers
        (fun p hp => (hpeers peers rfl p).mp hp) hm (setFrontier_frontier ..)
      dsimp only
      generalize visitPeers full side node peers (s.setFrontier side (rest ++ fresh)) = v at hv
      obtain ⟨s', stop⟩ := v
      cases stop with
      | some stop => exact ⟨s', some stop, _, rfl, by cases stop <;> exact hv⟩
      | none =>
        obtain ⟨fresh', hm', hf, -, hall⟩ := hv
        exact ih _ (hm'.expanded fun y hy => hall y ((hpeers peers rfl y).mpr hy)) hf

/-- **The whole search** ends, and unless it is left, no route is within its rounds. -/
theorem searchHops_spec (hs : store.Serves hashes) (full : Nat → Bool) (hops : Nat)
    {s : Search} (log : List Read) (h : Balls hashes root radius s) :
    ∃ s' stop log', searchHops store full hops s log = some ((s', stop), log') ∧
      Left store hashes root full (radius .first + radius .second + hops) s'
        (∀ l, IsRoute (Linked hashes) (root .first) (root .second) l →
          radius .first + radius .second + hops + 2 ≤ l.length) stop := by
  induction hops generalizing radius s log with
  | zero => exact ⟨s, none, log, rfl, fun l hl => h.far hR hl⟩
  | succ hops ih =>
    obtain ⟨s', stop, log', hrun, hleft⟩ := expandLevel_spec hR hs full
      (s.frontier s.side) log (h.middle s.side) (List.append_nil _).symm
    rw [searchHops, bind_of_eq_some hrun]
    cases stop with
    | some stop =>
      refine ⟨s', some stop, log', rfl, ?_⟩
      cases stop with
      | met peer =>
        obtain ⟨k, hk, hm⟩ := hleft
        exact ⟨k, by omega, hm⟩
      | gaveUp => exact hleft
      | unreadable => exact hleft
    | none =>
      have hb : Balls hashes root (widen radius s.side) s' := hleft
      dsimp only
      by_cases hempty : s'.frontier s.side = []
      · rw [if_pos hempty]
        exact ⟨s', none, log', rfl, fun l hl => absurd hl (hb.cut_off hR hempty)⟩
      · rw [if_neg hempty]
        obtain ⟨s'', stop, log'', hrun', hleft'⟩ := ih log' hb
        rw [widen_sum] at hleft'
        refine ⟨s'', stop, log'', hrun', ?_⟩
        rw [show radius .first + radius .second + (hops + 1) =
          radius .first + radius .second + 1 + hops by omega]
        exact hleft'

end CdrProcessor.PathService
