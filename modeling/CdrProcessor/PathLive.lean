import CdrProcessor.Lib.Spread
import CdrProcessor.PathTotal

/-! The path search while the links change under it: each read finds at least the links that
are there all the while, `lo`, and none but those that are there at some time, `hi`. -/

namespace CdrProcessor.PathService

open Script

variable {store : IQueryStore} {lo hi : Text → Text → Prop} {root : Side → Text}
  {radius : Side → Nat} {full : Nat → Bool} {side : Side}

/-- Whenever the peers of a subscriber are read, all of `lo` are found and only `hi`. -/
def Reports (store : IQueryStore) (lo hi : Text → Text → Prop) : Prop :=
  ∀ node log peers log', linkPeers store node log = some (some peers, log') →
    (∀ p ∈ peers, hi node p) ∧ ∀ p, lo node p → p ∈ peers

theorem linkPeers_reported (h : Reports store lo hi) (node : Text) (log : List Read) :
    ∃ answer, linkPeers store node log = some (answer, log ++ [.hkeys (linkKey node)]) ∧
      (answer = none → ¬ store.Up) ∧
      ∀ peers, answer = some peers → (∀ p ∈ peers, hi node p) ∧ ∀ p, lo node p → p ∈ peers := by
  refine ⟨_, linkPeers_eq store node log, fun hnone hup => ?_, fun peers hsome => ?_⟩
  · have := hup.hkeys log.length (linkKey node)
    rw [Option.map_eq_none_iff.mp hnone] at this
    cases this
  · exact h node log peers _ ((linkPeers_eq store node log).trans (by rw [hsome]))

/-! ## Between two levels and in the middle of one -/

/-- The two trails of a search between two levels. -/
structure Fronts (lo hi : Text → Text → Prop) (root : Side → Text) (radius : Side → Nat)
    (s : Search) : Prop where
  spread : ∀ side, Spread lo hi (root side) (radius side) (s.seen side) (s.frontier side)
  apart : ∀ x, x ∈ s.seen .first → x ∉ s.seen .second

/-- A search in the middle of a level of one side. -/
structure Midway (lo hi : Text → Text → Prop) (root : Side → Text) (radius : Side → Nat)
    (side : Side) (s : Search) (todo fresh : List Text) : Prop where
  spreading : Spreading lo hi (root side) (radius side) (s.seen side) todo fresh
  spread : Spread lo hi (root side.other) (radius side.other) (s.seen side.other)
    (s.frontier side.other)
  apart : ∀ x, x ∈ s.seen side → x ∉ s.seen side.other

theorem Fronts.start {first second : Text} (hne : first ≠ second) :
    Fronts lo hi (ends first second) (fun _ => 0) (.start first second) where
  spread side := by
    cases side with
    | first => exact .start lo hi first
    | second => exact .start lo hi second
  apart x hx hx' := by
    have hmem : ∀ y, x ∈ (∅ : Trail).insert y y → x = y := fun y hy =>
      ((AList.mem_insert ∅).mp hy).resolve_right (AList.notMem_empty x)
    exact hne ((hmem first hx).symm.trans (hmem second hx'))

theorem Fronts.midway {s : Search} (h : Fronts lo hi root radius s) (side : Side) :
    Midway lo hi root radius side s (s.frontier side) [] where
  spreading := (h.spread side).spreading
  spread := h.spread side.other
  apart x hx hx' := by
    cases side with
    | first => exact h.apart x hx hx'
    | second => exact h.apart x hx' hx

theorem Midway.fronts {s : Search}
    (h : Midway lo hi root radius side s [] (s.frontier side)) :
    Fronts lo hi root (widen radius side) s where
  spread side' := by
    unfold widen
    rcases side.eq_or_other side' with rfl | rfl
    · rw [Function.update_self]
      exact h.spreading.spread
    · rw [Function.update_of_ne side.other_ne]
      exact h.spread
  apart x hx hx' := by
    cases side with
    | first => exact h.apart x hx hx'
    | second => exact h.apart x hx' hx

theorem Midway.expanded {s : Search} {node : Text} {todo fresh : List Text}
    (h : Midway lo hi root radius side s (node :: todo) fresh)
    (hall : ∀ y, lo node y → y ∈ s.seen side) :
    Midway lo hi root radius side s todo fresh :=
  ⟨h.spreading.expanded hall, h.spread, h.apart⟩

/-! ## Meeting -/

/-- Both trails lead from `peer` to their roots and have nobody else in common, and no route
of `lo` between the roots has fewer links than the two together. -/
structure Joined (lo hi : Text → Text → Prop) (root : Side → Text) (n : Nat) (s : Search)
    (peer : Text) : Prop where
  trails : ∃ depth : Side → Nat, depth .first + depth .second = n ∧
    ∀ side, Rooted hi (s.seen side) (root side) (depth side) peer
  least : ∀ l, IsRoute lo (root .first) (root .second) l → n + 1 ≤ l.length
  only : ∀ x, x ∈ s.seen .first → x ∈ s.seen .second → x = peer

/-- Everybody on the trails is near its end, and both trails together go no further than `n`. -/
def Around (hi : Text → Text → Prop) (root : Side → Text) (n : Nat) (s : Search) : Prop :=
  ∃ depth : Side → Nat, depth .first + depth .second ≤ n ∧
    ∀ side, ∀ x ∈ s.seen side, Reaches hi (depth side) (root side) x

/-- What the loops end with: `goOn` when they came to their end. -/
def Halted (store : IQueryStore) (lo hi : Text → Text → Prop) (root : Side → Text)
    (full : Nat → Bool) (n : Nat) (s : Search) (goOn : Prop) : Option Stop → Prop
  | none => goOn
  | some (.met peer) => ∃ k ≤ n, Joined lo hi root k s peer
  | some .gaveUp => full s.visited = true ∧ Around hi root n s
  | some .unreadable => ¬ store.Up

theorem Halted.imp {n m : Nat} {s : Search} {goOn goOn' : Prop} {stop : Option Stop}
    (hnm : n ≤ m) (hg : goOn → goOn') (h : Halted store lo hi root full n s goOn stop) :
    Halted store lo hi root full m s goOn' stop := by
  cases stop with
  | none => exact hg h
  | some stop =>
    cases stop with
    | met peer =>
      obtain ⟨k, hk, hjoined⟩ := h
      exact ⟨k, hk.trans hnm, hjoined⟩
    | gaveUp =>
      obtain ⟨hfull, depth, hdepth, haround⟩ := h
      exact ⟨hfull, depth, hdepth.trans hnm, haround⟩
    | unreadable => exact h

section Symmetric

variable (hlo : ∀ a b, lo a b → lo b a) (hhi : ∀ a b, hi a b → hi b a)

include hlo

/-- As long as the trails do not meet, no route of `lo` is shorter than what both make up. -/
theorem Midway.far {s : Search} {todo fresh : List Text}
    (h : Midway lo hi root radius side s todo fresh) {l : List Text}
    (hl : IsRoute lo (root .first) (root .second) l) :
    radius .first + radius .second + 2 ≤ l.length := by
  cases side with
  | first => exact hl.far hlo h.spreading.inner h.spread.inner h.apart
  | second =>
    have := (hl.reverse hlo).far hlo h.spreading.inner h.spread.inner h.apart
    rw [List.length_reverse] at this
    rw [Nat.add_comm (radius .first)]
    exact this

theorem Fronts.far {s : Search} (h : Fronts lo hi root radius s) {l : List Text}
    (hl : IsRoute lo (root .first) (root .second) l) :
    radius .first + radius .second + 2 ≤ l.length :=
  (h.midway .first).far hlo hl

/-- A side that has nothing left to expand was cut off from the other one. -/
theorem Fronts.cut_off {s : Search} (h : Fronts lo hi root radius s)
    (hempty : s.frontier side = []) {l : List Text} :
    ¬ IsRoute lo (root .first) (root .second) l := by
  intro hl
  have hside := h.spread side
  rw [hempty] at hside
  have hroot : ∀ side, root side ∈ s.seen side := fun side =>
    (h.spread side).inner _ (.self _ _)
  cases side with
  | first => exact h.apart _ (hside.exhausted hl) (hroot .second)
  | second => exact h.apart _ (hroot .first) (hside.exhausted (hl.reverse hlo))

include hhi

/-- A subscriber that the side being expanded reaches and the other one holds. -/
theorem Midway.joined {s : Search} {todo fresh : List Text} {peer node : Text}
    (h : Midway lo hi root radius side s todo fresh) (hnode : node ∈ todo)
    (hlink : hi node peer) (hnew : peer ∉ s.seen side) (hmet : peer ∈ s.seen side.other) :
    Joined lo hi root (radius .first + radius .second + 1) (s.count.mark side peer node) peer where
  trails := by
    refine ⟨widen radius side, widen_sum radius side, fun side' => ?_⟩
    unfold widen
    rcases side.eq_or_other side' with rfl | rfl
    · rw [mark_seen, Function.update_self]
      have hnear := h.spreading.near node hnode
      exact hnear.reached hnew hnear.mem (hhi _ _ hlink)
    · rw [mark_seen_other, Function.update_of_ne side.other_ne]
      exact h.spread.trail peer hmet
  least l hl := by
    have := h.far hlo hl
    omega
  only x hx hx' := by
    have hside : ∀ x, x ∈ (s.count.mark side peer node).seen side → x ∈ s.seen side.other →
        x = peer := by
      intro x hx hother
      rw [mark_seen, count_seen, AList.mem_insert] at hx
      rcases hx with rfl | hx
      · rfl
      · exact absurd hother (h.apart x hx)
    have hother : (s.count.mark side peer node).seen side.other = s.seen side.other :=
      mark_seen_other ..
    cases side with
    | first => exact hside x hx (hother ▸ hx')
    | second => exact hside x hx' (hother ▸ hx)

omit hlo in
/-- Nobody on the trails is further from its end than the level goes. -/
theorem Midway.around {s : Search} {todo fresh : List Text}
    (h : Midway lo hi root radius side s todo fresh) :
    Around hi root (radius .first + radius .second + 1) s := by
  have hreaches : ∀ {side' : Side} {r : Nat} {x : Text},
      Rooted hi (s.seen side') (root side') r x → Reaches hi r (root side') x := by
    rintro side' r x ⟨l, -, hl, hlen, -⟩
    exact ⟨l.reverse, hl.reverse hhi, by rw [List.length_reverse]; exact hlen⟩
  refine ⟨widen radius side, (widen_sum radius side).le, fun side' x hx => ?_⟩
  unfold widen
  rcases side.eq_or_other side' with rfl | rfl
  · rw [Function.update_self]
    exact hreaches (h.spreading.trail x hx)
  · rw [Function.update_of_ne side.other_ne]
    exact hreaches (h.spread.trail x hx)

omit hlo in
/-- A subscriber that is new to both sides. -/
theorem Midway.push {s : Search} {todo fresh : List Text} {peer node : Text}
    (h : Midway lo hi root radius side s todo fresh) (hnode : node ∈ todo)
    (hlink : hi node peer) (hnew : peer ∉ s.seen side) (hmet : peer ∉ s.seen side.other) :
    Midway lo hi root radius side ((s.count.mark side peer node).push side peer) todo
      (fresh ++ [peer]) where
  spreading := by
    rw [push_seen, mark_seen]
    exact h.spreading.insert hnew hnode (hhi _ _ hlink)
  spread := by
    rw [push_seen, push_frontier_other, mark_seen_other]
    exact h.spread
  apart x hx := by
    rw [push_seen, mark_seen_other]
    rw [push_seen, mark_seen, AList.mem_insert] at hx
    rcases hx with rfl | hx
    · exact hmet
    · exact h.apart x hx

/-! ## The loops -/

/-- **The peers of one node.**  Unless the loop is left, the level is where it was, with
every peer in the trail. -/
theorem visitPeers_live (store : IQueryStore) (full : Nat → Bool) {node : Text}
    {rest : List Text} (peers : List Text) (hpeers : ∀ p ∈ peers, hi node p) {s : Search}
    {fresh : List Text} (h : Midway lo hi root radius side s (node :: rest) fresh)
    (hfront : s.frontier side = rest ++ fresh) :
    Halted store lo hi root full (radius .first + radius .second + 1)
      (visitPeers full side node peers s).1
      (∃ fresh', Midway lo hi root radius side (visitPeers full side node peers s).1
          (node :: rest) fresh' ∧
        (visitPeers full side node peers s).1.frontier side = rest ++ fresh' ∧
        (∀ x ∈ s.seen side, x ∈ (visitPeers full side node peers s).1.seen side) ∧
        ∀ p ∈ peers, p ∈ (visitPeers full side node peers s).1.seen side)
      (visitPeers full side node peers s).2 := by
  induction peers generalizing s fresh with
  | nil => exact ⟨fresh, h, hfront, fun _ hx => hx, by simp⟩
  | cons peer peers ih =>
    obtain ⟨hpeer, hrest⟩ := List.forall_mem_cons.mp hpeers
    unfold visitPeers
    by_cases hseen : peer ∈ s.seen side
    · rw [if_pos hseen]
      refine (ih hrest h hfront).imp (le_refl _) ?_
      rintro ⟨fresh', hm, hf, hkeep, hall⟩
      exact ⟨fresh', hm, hf, hkeep, List.forall_mem_cons.mpr ⟨hkeep peer hseen, hall⟩⟩
    · rw [if_neg hseen]
      dsimp only
      by_cases hfull : full s.count.visited = true
      · rw [if_pos hfull]
        exact ⟨hfull, h.around hhi⟩
      · rw [if_neg hfull, mark_seen_other, count_seen]
        by_cases hmet : peer ∈ s.seen side.other
        · rw [if_pos hmet]
          exact ⟨_, le_refl _, h.joined hlo hhi List.mem_cons_self hpeer hseen hmet⟩
        · rw [if_neg hmet]
          have hm := h.push hhi List.mem_cons_self hpeer hseen hmet
          have hmem : ∀ x, x ∈ ((s.count.mark side peer node).push side peer).seen side ↔
              x = peer ∨ x ∈ s.seen side := by
            intro x
            rw [push_seen, mark_seen, AList.mem_insert, count_seen]
          refine (ih hrest hm (by simp [hfront])).imp (le_refl _) ?_
          rintro ⟨fresh', hm', hf, hkeep, hall⟩
          exact ⟨fresh', hm', hf, fun x hx => hkeep x ((hmem x).mpr (.inr hx)),
            List.forall_mem_cons.mpr ⟨hkeep peer ((hmem peer).mpr (.inl rfl)), hall⟩⟩

/-- **A level.**  Unless the loop is left, it makes the trail of its side one link wider. -/
theorem expandLevel_live (hreports : Reports store lo hi) (full : Nat → Bool) (todo : List Text)
    {s : Search} {fresh : List Text} (log : List Read)
    (h : Midway lo hi root radius side s todo fresh)
    (hfront : s.frontier side = todo ++ fresh) :
    ∃ s' stop log', expandLevel store full side todo.length s log = some ((s', stop), log') ∧
      Halted store lo hi root full (radius .first + radius .second + 1) s'
        (Fronts lo hi root (widen radius side) s') stop := by
  induction todo generalizing s fresh log with
  | nil =>
    have hm : Midway lo hi root radius side s [] (s.frontier side) := by
      rw [hfront]
      exact h
    exact ⟨s, none, log, rfl, hm.fronts⟩
  | cons node rest ih =>
    have hm : Midway lo hi root radius side (s.setFrontier side (rest ++ fresh)) (node :: rest)
        fresh := by
      refine ⟨h.spreading, ?_, h.apart⟩
      rw [setFrontier_frontier_other]
      exact h.spread
    rw [List.length_cons, expandLevel, hfront]
    dsimp only [List.cons_append]
    obtain ⟨answer, hread, hdown, hpeers⟩ := linkPeers_reported hreports node log
    rw [bind_of_eq_some hread]
    cases answer with
    | none => exact ⟨_, _, _, rfl, hdown rfl⟩
    | some peers =>
      obtain ⟨honly, hevery⟩ := hpeers peers rfl
      have hv := visitPeers_live hlo hhi store full peers honly hm (setFrontier_frontier ..)
      dsimp only
      generalize visitPeers full side node peers (s.setFrontier side (rest ++ fresh)) = v at hv
      obtain ⟨s', stop⟩ := v
      cases stop with
      | some stop => exact ⟨s', some stop, _, rfl, by cases stop <;> exact hv⟩
      | none =>
        obtain ⟨fresh', hm', hf, -, hall⟩ := hv
        exact ih _ (hm'.expanded fun y hy => hall y (hevery y hy)) hf

/-- **The whole search** ends, and unless it is left, no route of `lo` is within its rounds. -/
theorem searchHops_live (hreports : Reports store lo hi) (full : Nat → Bool) (hops : Nat)
    {s : Search} (log : List Read) (h : Fronts lo hi root radius s) :
    ∃ s' stop log', searchHops store full hops s log = some ((s', stop), log') ∧
      Halted store lo hi root full (radius .first + radius .second + hops) s'
        (∀ l, IsRoute lo (root .first) (root .second) l →
          radius .first + radius .second + hops + 2 ≤ l.length) stop := by
  induction hops generalizing radius s log with
  | zero => exact ⟨s, none, log, rfl, fun l hl => h.far hlo hl⟩
  | succ hops ih =>
    obtain ⟨s', stop, log', hrun, hhalted⟩ := expandLevel_live hlo hhi hreports full
      (s.frontier s.side) log (h.midway s.side) (List.append_nil _).symm
    rw [searchHops, bind_of_eq_some hrun]
    cases stop with
    | some stop =>
      refine ⟨s', some stop, log', rfl, ?_⟩
      have hwider : Halted store lo hi root full (radius .first + radius .second + (hops + 1)) s'
          (Fronts lo hi root (widen radius s.side) s') (some stop) := hhalted.imp (by omega) id
      cases stop <;> exact hwider
    | none =>
      have hfronts : Fronts lo hi root (widen radius s.side) s' := hhalted
      dsimp only
      by_cases hempty : s'.frontier s.side = []
      · rw [if_pos hempty]
        exact ⟨s', none, log', rfl, fun l hl => absurd hl (hfronts.cut_off hlo hempty)⟩
      · rw [if_neg hempty]
        obtain ⟨s'', stop, log'', hrun', hhalted'⟩ := ih log' hfronts
        rw [widen_sum] at hhalted'
        refine ⟨s'', stop, log'', hrun', ?_⟩
        rw [show radius .first + radius .second + (hops + 1) =
          radius .first + radius .second + 1 + hops by omega]
        exact hhalted'

end Symmetric

/-! ## The route -/

/-- **A meeting is a route**, through nobody twice and no longer than any of `lo`. -/
theorem Joined.route (hhi : ∀ a b, hi a b → hi b a) {n : Nat} {s : Search} {peer : Text}
    (h : Joined lo hi root n s peer) :
    ∃ route, walk (s.seen .first) (s.seen .second) peer = some route ∧
      IsRoute hi (root .first) (root .second) route ∧ route.Nodup ∧ route.length ≤ n + 1 := by
  obtain ⟨depth, hdepth, htrails⟩ := h.trails
  obtain ⟨l, hc, hl, hlen, hsize⟩ := htrails .first
  obtain ⟨l', hc', hl', hlen', hsize'⟩ := htrails .second
  obtain ⟨t, rfl⟩ : ∃ t, l' = peer :: t := by
    cases hc' with
    | root hx => exact ⟨[], rfl⟩
    | step hx hne hp => exact ⟨_, rfl⟩
  have hnodup := List.nodup_cons.mp hc'.nodup
  refine ⟨_, walk_eq hc hl.head hc' hsize hsize', (hl.reverse hhi).join hl', ?_, ?_⟩
  · refine List.nodup_append.mpr ⟨List.nodup_reverse.mpr hc.nodup, hnodup.2, ?_⟩
    rintro x hx y hy rfl
    -- whoever lies on both climbs is where they meet
    have hx' := hc.mem (List.mem_reverse.mp hx)
    have hpeer := h.only x hx' (hc'.mem (List.mem_cons_of_mem _ hy))
    exact hnodup.1 (hpeer ▸ hy)
  · simp only [List.length_append, List.length_reverse, List.tail_cons, List.length_cons] at *
    omega

end CdrProcessor.PathService
