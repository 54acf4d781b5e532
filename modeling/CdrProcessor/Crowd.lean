import CdrProcessor.PathComplete
import CdrProcessor.PathLive

/-! A search that gives up has met a crowd: all it counted are different subscribers around the
two ends, but for the last that it may have come to from both. -/

namespace CdrProcessor.PathService

open Script

variable {store : IQueryStore} {hashes : Hashes} {lo hi : Text → Text → Prop}
  {root : Side → Text}

/-- Those discovered, each once: both trails hold nobody else but the two ends. -/
structure Crowd (root : Side → Text) (s : Search) (names : List Text) : Prop where
  nodup : names.Nodup
  held : ∀ x ∈ names, ∃ side, x ∈ s.seen side
  roots : ∀ side, root side ∈ s.seen side
  others : ∀ x ∈ names, ∀ side, x ≠ root side

variable {s s' : Search} {names : List Text} {stop : Option Stop} {log log' : List Read}

/-- Nobody is discovered yet but the two ends. -/
theorem Crowd.start (first second : Text) :
    Crowd (ends first second) (.start first second) [] where
  nodup := List.nodup_nil
  held x hx := by cases hx
  roots side := by cases side <;> exact (AList.mem_insert ∅).mpr (.inl rfl)
  others x hx := by cases hx

/-- Nothing is asked of the frontiers. -/
theorem Crowd.congr (h : Crowd root s names) (hseen : s'.seen = s.seen) :
    Crowd root s' names :=
  ⟨h.nodup, by rw [hseen]; exact h.held, by rw [hseen]; exact h.roots, h.others⟩

theorem seen_mark {x : Text} {side side' : Side} (peer node : Text) (hx : x ∈ s.seen side') :
    x ∈ (s.mark side peer node).seen side' := by
  obtain rfl | rfl := side.eq_or_other side'
  · rw [mark_seen]
    exact (AList.mem_insert _).mpr (.inr hx)
  · rwa [mark_seen_other]

theorem Crowd.marked (h : Crowd root s names) (side : Side) (peer node : Text) :
    Crowd root (s.mark side peer node) names where
  nodup := h.nodup
  held x hx := by
    obtain ⟨side', hside'⟩ := h.held x hx
    exact ⟨side', seen_mark peer node hside'⟩
  roots side' := seen_mark peer node (h.roots side')
  others := h.others

/-- One more on a trail, whom the other does not hold. -/
theorem Crowd.mark (h : Crowd root s names) {side : Side} {peer : Text} (node : Text)
    (hseen : peer ∉ s.seen side) (hother : peer ∉ s.seen side.other) :
    Crowd root (s.mark side peer node) (names ++ [peer]) := by
  have hnew : ∀ side', peer ∉ s.seen side' := by
    intro side'
    obtain rfl | rfl := side.eq_or_other side'
    · exact hseen
    · exact hother
  refine ⟨?_, fun x hx => ?_, (h.marked side peer node).roots, fun x hx side' => ?_⟩
  · rw [List.nodup_append]
    refine ⟨h.nodup, List.nodup_singleton peer, ?_⟩
    rintro x hx y hy rfl
    obtain ⟨side', hside'⟩ := h.held x hx
    exact hnew side' (List.mem_singleton.mp hy ▸ hside')
  · rcases List.mem_append.mp hx with hx | hx
    · exact (h.marked side peer node).held x hx
    · refine ⟨side, ?_⟩
      rw [mark_seen, List.mem_singleton.mp hx]
      exact (AList.mem_insert _).mpr (.inl rfl)
  · rcases List.mem_append.mp hx with hx | hx
    · exact h.others x hx side'
    · rintro rfl
      exact hnew side' (List.mem_singleton.mp hx ▸ h.roots side')

/-- All that were counted are in the crowd, but for the one the search stopped at. -/
def Counted (root : Side → Text) (s : Search) (stop : Option Stop) : Prop :=
  ∃ names, Crowd root s names ∧ s.visited ≤ names.length + 1 ∧
    (stop = none → s.visited = names.length)

/-- Nothing was counted since, whatever is left to do. -/
theorem Counted.popped (h : Counted root s none) (side : Side) (rest : List Text)
    (stop : Option Stop) : Counted root (s.setFrontier side rest) stop := by
  obtain ⟨names, hcrowd, hle, hvisited⟩ := h
  exact ⟨names, hcrowd.congr rfl, hle, fun _ => hvisited rfl⟩

theorem visitPeers_counted (full : Nat → Bool) (side : Side) (node : Text) (peers : List Text)
    (hs : Counted root s none) :
    Counted root (visitPeers full side node peers s).1
      (visitPeers full side node peers s).2 := by
  induction peers generalizing s with
  | nil => exact hs
  | cons peer peers ih =>
    obtain ⟨names, hcrowd, -, hvisited⟩ := hs
    have hcount : s.count.visited = names.length + 1 := congrArg Nat.succ (hvisited rfl)
    have hcounted : ∀ stop : Stop, Counted root s.count (some stop) :=
      fun _ => ⟨names, hcrowd.congr rfl, hcount.le, fun h => by cases h⟩
    rw [visitPeers]
    by_cases hseen : peer ∈ s.seen side
    · rw [if_pos hseen]
      exact ih ⟨names, hcrowd, by rw [hvisited rfl]; omega, hvisited⟩
    · rw [if_neg hseen]
      dsimp only
      by_cases hfull : full s.count.visited = true
      · rw [if_pos hfull]
        exact hcounted _
      · rw [if_neg hfull]
        have hcounted : Crowd root s.count names := hcrowd.congr rfl
        by_cases hmet : peer ∈ (s.count.mark side peer node).seen side.other
        · -- the two trails meet: the peer may be in the crowd already
          rw [if_pos hmet]
          exact ⟨names, hcounted.marked side peer node, hcount.le, fun h => by cases h⟩
        · rw [if_neg hmet]
          rw [mark_seen_other] at hmet
          have hmark := hcounted.mark node hseen hmet
          refine ih ⟨names ++ [peer], hmark.congr rfl, ?_, fun _ => ?_⟩
          · change s.count.visited ≤ (names ++ [peer]).length + 1
            rw [hcount, List.length_append, List.length_singleton]
            omega
          · change s.count.visited = (names ++ [peer]).length
            rw [hcount, List.length_append, List.length_singleton]

theorem expandLevel_counted (full : Nat → Bool) (side : Side)
    (width : Nat) (hs : Counted root s none)
    (h : expandLevel store full side width s log = some ((s', stop), log')) :
    Counted root s' stop := by
  induction width generalizing s log with
  | zero =>
    cases h
    exact hs
  | succ width ih =>
    rw [expandLevel] at h
    cases hfront : s.frontier side with
    | nil => rw [hfront] at h; cases h
    | cons node rest =>
      rw [hfront] at h
      dsimp only at h
      have hpopped : Counted root (s.setFrontier side rest) none :=
        hs.popped side rest none
      obtain ⟨answer, log₁, -, h⟩ := bind_eq_some.mp h
      cases answer with
      | none =>
        cases h
        exact hs.popped side rest _
      | some peers =>
        have hv := visitPeers_counted full side node peers hpopped
        dsimp only at h
        generalize visitPeers full side node peers (s.setFrontier side rest) = visited at h hv
        obtain ⟨s₁, stop₁⟩ := visited
        cases stop₁ with
        | some stop₁ =>
          cases h
          exact hv
        | none => exact ih hv h

theorem searchHops_counted (full : Nat → Bool) (hops : Nat)
    (hs : Counted root s none)
    (h : searchHops store full hops s log = some ((s', stop), log')) : Counted root s' stop := by
  induction hops generalizing s log with
  | zero =>
    cases h
    exact hs
  | succ hops ih =>
    rw [searchHops] at h
    obtain ⟨⟨s₁, stop₁⟩, log₁, hrun, h⟩ := bind_eq_some.mp h
    have hlevel := expandLevel_counted full s.side _ hs hrun
    cases stop₁ with
    | some stop₁ =>
      cases h
      exact hlevel
    | none =>
      dsimp only at h
      split at h
      · cases h
        exact hlevel
      · exact ih hlevel h

/-- **What a path request comes to**: a route, which is then answered, or no route of `lo` in
reach, or a crowd of as many as may be visited, or a read that failed. -/
theorem path_reported (hreports : Reports store lo hi) (hlo : ∀ a b, lo a b → lo b a)
    (hhi : ∀ a b, hi a b → hi b a) (cfg : QueryConfig) (first second : Text) (weights : Bool)
    (log : List Read) :
    (∃ route log', path store cfg first second weights log = found store route weights log' ∧
      IsRoute hi first second route ∧ route.Nodup ∧
      (∀ l, IsRoute lo first second l → route.length ≤ l.length) ∧
      route.length ≤ cfg.maxHops.toNat + 1) ∨
    (∃ log', path store cfg first second weights log = some (⟨404, notFound cfg⟩, log') ∧
      ((¬ ∃ l, IsRoute lo first second l ∧ l.length ≤ cfg.maxHops.toNat + 1) ∨
        Surrounded hi cfg.maxHops.toNat cfg.maxVisited.toNat first second)) ∨
    ∃ log', path store cfg first second weights log = some (unavailable, log') ∧ ¬ store.Up := by
  by_cases hne : first = second
  · subst hne
    refine .inl ⟨[first], log, by rw [path, if_pos rfl], .single first, by simp, ?_, by simp⟩
    exact fun l hl => List.length_pos_iff.mpr hl.ne_nil
  · obtain ⟨s, stop, log', hrun, hhalted⟩ := searchHops_live hlo hhi hreports cfg.full
      cfg.maxHops.toNat log (Fronts.start hne)
    simp only [Nat.zero_add, ends] at hhalted
    by_cases hmet : ∃ peer, stop = some (.met peer)
    · obtain ⟨peer, rfl⟩ := hmet
      obtain ⟨n, hn, hjoined⟩ := hhalted
      obtain ⟨route, hwalk, hroute, hnodup, hlen⟩ := hjoined.route hhi
      exact .inl ⟨route, log', path_met hne hrun hwalk, hroute, hnodup,
        fun l hl => hlen.trans (hjoined.least l hl), by omega⟩
    · have hpath : path store cfg first second weights log =
          some (if stop = some .unreadable then unavailable else ⟨404, notFound cfg⟩, log') :=
        path_stopped hne hrun (not_exists.mp hmet)
      cases stop with
      | none =>
        refine .inr (.inl ⟨log', hpath, .inl ?_⟩)
        rintro ⟨l, hl, hlen⟩
        have := hhalted l hl
        omega
      | some stop =>
        cases stop with
        | gaveUp =>
          have hstart : Counted (ends first second) (.start first second) none :=
            ⟨[], .start first second, Nat.zero_le _, fun _ => rfl⟩
          obtain ⟨names, hcrowd, hvisited, -⟩ := searchHops_counted _ _ hstart hrun
          obtain ⟨hfull, depth, hdepth, haround⟩ := hhalted
          have hover : cfg.maxVisited.toNat < s.visited := of_decide_eq_true hfull
          refine .inr (.inl ⟨log', hpath, .inr ⟨depth .first, depth .second, hdepth, names,
            hcrowd.nodup, by omega, fun x hx => ⟨⟨?_, ?_⟩, ?_⟩⟩⟩)
          · exact hcrowd.others x hx .first
          · exact hcrowd.others x hx .second
          · obtain ⟨side, hside⟩ := hcrowd.held x hx
            cases side with
            | first => exact .inl (haround .first x hside)
            | second => exact .inr (haround .second x hside)
        | unreadable => exact .inr (.inr ⟨log', hpath, hhalted⟩)
        | met peer => exact absurd ⟨peer, rfl⟩ hmet

/-- A store that stands still reports its links. -/
theorem reports_serves (hserves : store.Serves hashes) :
    Reports store (Linked hashes) (Linked hashes) := fun _ _ _ _ hread =>
  have hpeers := (linkPeers_some hserves hread).1
  ⟨fun p => (hpeers p).mp, fun p => (hpeers p).mpr⟩

/-- Over a store that stands still and answers, the route is a shortest one. -/
theorem path_outcome (hserves : store.Serves hashes) (hup : store.Up)
    (hsym : ∀ a b, Linked hashes a b → Linked hashes b a) (cfg : QueryConfig)
    (first second : Text) (weights : Bool) (log : List Read) :
    ∃ result log', path store cfg first second weights log = some (result, log') ∧
      ((∃ route, result = ⟨200, routeBody hashes route weights⟩ ∧
          IsRoute (Linked hashes) first second route ∧
          (∀ l, IsRoute (Linked hashes) first second l → route.length ≤ l.length) ∧
          route.length ≤ cfg.maxHops.toNat + 1) ∨
        result = ⟨404, notFound cfg⟩ ∧
          ((¬ ∃ l, IsRoute (Linked hashes) first second l ∧ l.length ≤ cfg.maxHops.toNat + 1) ∨
            Surrounded (Linked hashes) cfg.maxHops.toNat cfg.maxVisited.toNat first second)) := by
  rcases path_reported (reports_serves hserves) hsym hsym cfg first second weights log with
    ⟨route, log₁, hpath, hroute, -, hmin, hlen⟩ | ⟨log', hpath, hwhy⟩ | ⟨-, -, hdown⟩
  · obtain ⟨result, log', hrun, -, hresult⟩ := found_read hserves route weights log₁
    exact ⟨result, log', hpath.trans hrun,
      .inl ⟨route, hresult.resolve_right fun hdown => hdown.2 hup, hroute, hmin, hlen⟩⟩
  · exact ⟨_, log', hpath, .inr ⟨rfl, hwhy⟩⟩
  · exact absurd hup hdown

end CdrProcessor.PathService
