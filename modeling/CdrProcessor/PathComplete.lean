import CdrProcessor.PathRoute

/-! The search is complete within its bounds: how many subscribers it discovers, what it
reads for them, and that a bound it does not reach makes no difference to it. -/

namespace CdrProcessor.PathService

open Script

variable {store : IQueryStore} {hashes : Hashes} {full : Nat → Bool} {side : Side}

/-- The nodes waiting on both frontiers. -/
def Search.waiting (s : Search) : Nat :=
  (s.frontier .first).length + (s.frontier .second).length

theorem waiting_eq (s : Search) (side : Side) :
    s.waiting = (s.frontier side).length + (s.frontier side.other).length := by
  unfold Search.waiting
  cases side with
  | first => rfl
  | second => exact Nat.add_comm ..

theorem push_waiting (s : Search) (side : Side) (peer : Text) :
    (s.push side peer).waiting = s.waiting + 1 := by
  rw [waiting_eq _ side, waiting_eq _ side, push_frontier, push_frontier_other]
  simp
  omega

/-- One node expanded: its peers are read, and the bound has a say only in what follows. -/
theorem expandLevel_cons (store : IQueryStore) {side : Side} {s : Search} {node : Text}
    {rest : List Text} (hfront : s.frontier side = node :: rest) (width : Nat) (log : List Read) :
    ∃ answer : Option (List Text), ∀ full, expandLevel store full side (width + 1) s log =
      match answer with
      | none => some ((s.setFrontier side rest, some .unreadable), log ++ [.hkeys (linkKey node)])
      | some peers =>
        match visitPeers full side node peers (s.setFrontier side rest) with
        | (s', some stop) => some ((s', some stop), log ++ [.hkeys (linkKey node)])
        | (s', none) => expandLevel store full side width s' (log ++ [.hkeys (linkKey node)]) := by
  have hread := linkPeers_eq store node log
  generalize (store.hkeys log.length (linkKey node)).map (fun fields =>
    unique ((fields.map peerOf).insertionSort (· ≤ ·))) = answer at hread
  refine ⟨answer, fun full => ?_⟩
  rw [expandLevel, hfront]
  dsimp only
  rw [bind_of_eq_some hread]
  cases answer with
  | none => rfl
  | some peers =>
    dsimp only
    obtain ⟨s', stop⟩ := visitPeers full side node peers (s.setFrontier side rest)
    cases stop <;> rfl

theorem expandLevel_nil (store : IQueryStore) {side : Side} {s : Search}
    (hfront : s.frontier side = []) (width : Nat) (log : List Read) :
    expandLevel store full side (width + 1) s log = none := by
  rw [expandLevel, hfront]

/-! ## What is discovered and read -/

/-- Every node that is put on a frontier was discovered, within the bound. -/
theorem visitPeers_count {limit : Nat} (side : Side) (node : Text) (peers : List Text) {s : Search}
    (hs : s.visited ≤ limit) :
    s.visited ≤ (visitPeers (fun v => decide (limit < v)) side node peers s).1.visited ∧
      ((visitPeers (fun v => decide (limit < v)) side node peers s).2 ≠ some .gaveUp →
        (visitPeers (fun v => decide (limit < v)) side node peers s).1.visited ≤ limit) ∧
      (visitPeers (fun v => decide (limit < v)) side node peers s).1.waiting + s.visited ≤
        s.waiting + min (visitPeers (fun v => decide (limit < v)) side node peers s).1.visited
          limit := by
  induction peers generalizing s with
  | nil =>
    change s.visited ≤ s.visited ∧ (none ≠ some Stop.gaveUp → s.visited ≤ limit) ∧
      s.waiting + s.visited ≤ s.waiting + min s.visited limit
    omega
  | cons peer peers ih =>
    rw [visitPeers]
    by_cases hseen : peer ∈ s.seen side
    · rw [if_pos hseen]
      exact ih hs
    · rw [if_neg hseen]
      dsimp only
      have hv : s.count.visited = s.visited + 1 := rfl
      by_cases hfull : limit < s.count.visited
      · rw [if_pos (by simpa using hfull)]
        change s.visited ≤ s.visited + 1 ∧ (some Stop.gaveUp ≠ some .gaveUp → _) ∧
          s.waiting + s.visited ≤ s.waiting + min (s.visited + 1) limit
        exact ⟨by omega, fun hstop => absurd rfl hstop, by omega⟩
      · rw [if_neg (by simpa using hfull)]
        by_cases hmet : peer ∈ (s.count.mark side peer node).seen side.other
        · rw [if_pos hmet]
          change s.visited ≤ s.visited + 1 ∧ (_ → s.visited + 1 ≤ limit) ∧
            s.waiting + s.visited ≤ s.waiting + min (s.visited + 1) limit
          omega
        · rw [if_neg hmet]
          have hp : ((s.count.mark side peer node).push side peer).visited = s.visited + 1 := rfl
          have hpw : ((s.count.mark side peer node).push side peer).waiting = s.waiting + 1 := by
            rw [push_waiting]
            rfl
          obtain ⟨h₁, h₂, h₃⟩ := ih (s := (s.count.mark side peer node).push side peer) (by omega)
          exact ⟨by omega, h₂, by omega⟩

/-- A read is paid for by a node that leaves its frontier. -/
theorem expandLevel_count {limit : Nat} (width : Nat) {s s' : Search} {stop : Option Stop}
    {log log' : List Read} (hs : s.visited ≤ limit)
    (h : expandLevel store (fun v => decide (limit < v)) side width s log =
      some ((s', stop), log')) :
    s.visited ≤ s'.visited ∧ (stop ≠ some .gaveUp → s'.visited ≤ limit) ∧
      log'.countP linkRead + s'.waiting + s.visited ≤
        log.countP linkRead + s.waiting + min s'.visited limit := by
  induction width generalizing s log with
  | zero =>
    cases h
    exact ⟨le_refl _, fun _ => hs, by omega⟩
  | succ width ih =>
    cases hfront : s.frontier side with
    | nil => rw [expandLevel_nil store hfront] at h; cases h
    | cons node rest =>
      obtain ⟨answer, hstep⟩ := expandLevel_cons store hfront width log
      rw [hstep] at h
      have hpop : (s.setFrontier side rest).waiting + 1 = s.waiting := by
        rw [waiting_eq _ side, waiting_eq _ side, setFrontier_frontier,
          setFrontier_frontier_other, hfront, List.length_cons]
        omega
      have hpv : (s.setFrontier side rest).visited = s.visited := rfl
      have hlog : (log ++ [Read.hkeys (linkKey node)]).countP linkRead =
          log.countP linkRead + 1 := by simp [linkRead]
      cases answer with
      | none =>
        cases h
        exact ⟨by omega, fun _ => by omega, by omega⟩
      | some peers =>
        have hc := visitPeers_count side node peers (s := s.setFrontier side rest) hs
        dsimp only at h
        generalize visitPeers (fun v => decide (limit < v)) side node peers
          (s.setFrontier side rest) = v at h hc
        obtain ⟨s₁, stop₁⟩ := v
        obtain ⟨h₁, h₂, h₃⟩ := hc
        dsimp only at h₁ h₂ h₃
        cases stop₁ with
        | some stop₁ =>
          cases h
          exact ⟨h₁, h₂, by omega⟩
        | none =>
          have hlim : s₁.visited ≤ limit := h₂ (Option.some_ne_none _).symm
          obtain ⟨k₁, k₂, k₃⟩ := ih hlim h
          exact ⟨by omega, k₂, by omega⟩

theorem searchHops_count {limit : Nat} (hops : Nat) {s s' : Search} {stop : Option Stop}
    {log log' : List Read} (hs : s.visited ≤ limit)
    (h : searchHops store (fun v => decide (limit < v)) hops s log = some ((s', stop), log')) :
    log'.countP linkRead + s.visited ≤ log.countP linkRead + s.waiting + limit := by
  induction hops generalizing s log with
  | zero =>
    cases h
    omega
  | succ hops ih =>
    rw [searchHops] at h
    obtain ⟨⟨s₁, stop₁⟩, log₁, hrun, h⟩ := bind_eq_some.mp h
    obtain ⟨h₁, h₂, h₃⟩ := expandLevel_count _ hs hrun
    cases stop₁ with
    | some stop₁ =>
      cases h
      omega
    | none =>
      dsimp only at h
      split at h
      · cases h
        omega
      · have hlim := h₂ (Option.some_ne_none _).symm
        have := ih hlim h
        omega

/-! ## A bound that is not reached -/

theorem visitPeers_grows (full : Nat → Bool) (side : Side) (node : Text) (peers : List Text)
    (s : Search) :
    s.visited ≤ (visitPeers full side node peers s).1.visited := by
  induction peers generalizing s with
  | nil => exact le_refl _
  | cons peer peers ih =>
    have hv : s.visited ≤ s.count.visited := Nat.le_succ _
    rw [visitPeers]
    split
    · exact ih s
    · dsimp only
      split
      · exact hv
      · split
        · exact hv
        · exact hv.trans (ih ((s.count.mark side peer node).push side peer))

/-- Either the bound makes no difference, or it was exceeded. -/
theorem visitPeers_limit (limit : Nat) (side : Side) (node : Text) (peers : List Text)
    (s : Search) :
    visitPeers (fun v => decide (limit < v)) side node peers s =
        visitPeers (fun _ => false) side node peers s ∨
      (visitPeers (fun v => decide (limit < v)) side node peers s).2 = some .gaveUp ∧
        limit < (visitPeers (fun _ => false) side node peers s).1.visited := by
  induction peers generalizing s with
  | nil => exact .inl rfl
  | cons peer peers ih =>
    rw [visitPeers, visitPeers]
    by_cases hseen : peer ∈ s.seen side
    · rw [if_pos hseen, if_pos hseen]
      exact ih s
    · rw [if_neg hseen, if_neg hseen]
      dsimp only
      rw [if_neg Bool.false_ne_true]
      by_cases hfull : limit < s.count.visited
      · rw [if_pos (by simpa using hfull)]
        refine .inr ⟨rfl, lt_of_lt_of_le hfull ?_⟩
        split
        · exact le_refl _
        · exact visitPeers_grows _ side node peers ((s.count.mark side peer node).push side peer)
      · rw [if_neg (by simpa using hfull)]
        split
        · exact .inl rfl
        · exact ih _

/-- What a run without a bound tells of the one with it. -/
def Limited (limit : Nat) (run free : Option ((Search × Option Stop) × List Read)) : Prop :=
  ∀ r, free = some r → run = some r ∨
    limit < r.1.1.visited ∧ ∃ s log, run = some ((s, some .gaveUp), log)

theorem expandLevel_grows (width : Nat) {s s' : Search} {stop : Option Stop}
    {log log' : List Read} (h : expandLevel store full side width s log = some ((s', stop), log')) :
    s.visited ≤ s'.visited := by
  induction width generalizing s log with
  | zero => cases h; exact le_refl _
  | succ width ih =>
    cases hfront : s.frontier side with
    | nil => rw [expandLevel_nil store hfront] at h; cases h
    | cons node rest =>
      obtain ⟨answer, hstep⟩ := expandLevel_cons store hfront width log
      rw [hstep] at h
      cases answer with
      | none => cases h; exact le_refl _
      | some peers =>
        have hg := visitPeers_grows full side node peers (s.setFrontier side rest)
        dsimp only at h
        generalize visitPeers full side node peers (s.setFrontier side rest) = v at h hg
        obtain ⟨s₁, stop₁⟩ := v
        cases stop₁ with
        | some stop₁ => cases h; exact hg
        | none => exact hg.trans (ih h)

theorem searchHops_grows (hops : Nat) {s s' : Search} {stop : Option Stop}
    {log log' : List Read} (h : searchHops store full hops s log = some ((s', stop), log')) :
    s.visited ≤ s'.visited := by
  induction hops generalizing s log with
  | zero => cases h; exact le_refl _
  | succ hops ih =>
    rw [searchHops] at h
    obtain ⟨⟨s₁, stop₁⟩, log₁, hrun, h⟩ := bind_eq_some.mp h
    have hg := expandLevel_grows _ hrun
    cases stop₁ with
    | some stop₁ => cases h; exact hg
    | none =>
      dsimp only at h
      split at h
      · cases h
        exact hg
      · exact hg.trans (ih h)

theorem expandLevel_limit (limit width : Nat) (s : Search) (log : List Read) :
    Limited limit (expandLevel store (fun v => decide (limit < v)) side width s log)
      (expandLevel store (fun _ => false) side width s log) := by
  induction width generalizing s log with
  | zero => exact fun r hr => .inl hr
  | succ width ih =>
    cases hfront : s.frontier side with
    | nil => rw [expandLevel_nil store hfront, expandLevel_nil store hfront]; nofun
    | cons node rest =>
      obtain ⟨answer, hstep⟩ := expandLevel_cons store hfront width log
      rw [hstep, hstep]
      cases answer with
      | none => exact fun r hr => .inl hr
      | some peers =>
        dsimp only
        rcases visitPeers_limit limit side node peers (s.setFrontier side rest) with heq | ⟨hgave, hmore⟩
        · rw [heq]
          generalize visitPeers (fun _ => false) side node peers (s.setFrontier side rest) = v
          obtain ⟨s₁, stop₁⟩ := v
          cases stop₁ with
          | some stop₁ => exact fun r hr => .inl hr
          | none => exact ih _ _
        · generalize visitPeers (fun v => decide (limit < v)) side node peers
            (s.setFrontier side rest) = v at hgave
          generalize visitPeers (fun _ => false) side node peers (s.setFrontier side rest) = u
            at hmore
          obtain ⟨s₁, stop₁⟩ := v
          obtain ⟨s₂, stop₂⟩ := u
          dsimp only at hgave hmore
          subst hgave
          rintro ⟨⟨s', stop⟩, log'⟩ hr
          refine .inr ⟨?_, _, _, rfl⟩
          cases stop₂ with
          | some stop₂ => cases hr; exact hmore
          | none => exact lt_of_lt_of_le hmore (expandLevel_grows _ hr)

theorem searchHops_limit (limit hops : Nat) (s : Search) (log : List Read) :
    Limited limit (searchHops store (fun v => decide (limit < v)) hops s log)
      (searchHops store (fun _ => false) hops s log) := by
  induction hops generalizing s log with
  | zero => exact fun r hr => .inl hr
  | succ hops ih =>
    intro r hr
    rw [searchHops] at hr
    obtain ⟨⟨s₁, stop₁⟩, log₁, hrun, hr⟩ := bind_eq_some.mp hr
    rw [searchHops]
    rcases expandLevel_limit limit _ s log _ hrun with hsame | ⟨hmore, s₂, log₂, hgave⟩
    · rw [bind_of_eq_some hsame]
      cases stop₁ with
      | some stop₁ => exact .inl hr
      | none =>
        dsimp only at hr ⊢
        split at hr
        · next hempty => rw [if_pos hempty]; exact .inl hr
        · next hmore => rw [if_neg hmore]; exact ih _ _ _ hr
    · rw [bind_of_eq_some hgave]
      refine .inr ⟨?_, _, _, rfl⟩
      cases stop₁ with
      | some stop₁ => cases hr; exact hmore
      | none =>
        dsimp only at hr
        split at hr
        · cases hr
          exact hmore
        · exact lt_of_lt_of_le hmore (searchHops_grows _ hr)

/-! ## Completeness -/

/-- How many subscribers the search discovers, up to and including the one where it
meets, when nothing bounds their number. -/
def discovered (store : IQueryStore) (cfg : QueryConfig) (first second : Text)
    (log : List Read) : Nat :=
  ((searchHops store (fun _ => false) cfg.maxHops.toNat (.start first second) log).map
    fun r => r.1.1.visited).getD 0

/-- Within its bounds the search meets, whenever there is a route to be met on. -/
theorem search_meets (hsym : ∀ a b, Linked hashes a b → Linked hashes b a)
    (hs : store.Serves hashes) (hup : store.Up) {cfg : QueryConfig} {first second : Text}
    (hne : first ≠ second) {log : List Read} {l : List Text}
    (hl : IsRoute (Linked hashes) first second l) (hlen : l.length ≤ cfg.maxHops.toNat + 1)
    (hvisited : discovered store cfg first second log ≤ cfg.maxVisited.toNat) :
    ∃ s peer log', searchHops store cfg.full cfg.maxHops.toNat (.start first second) log =
      some ((s, some (.met peer)), log') := by
  obtain ⟨s, stop, log', hrun, hleft⟩ :=
    search_spec hsym hs (fun _ => false) cfg.maxHops.toNat hne log
  unfold discovered at hvisited
  rw [hrun] at hvisited
  have hsame : searchHops store cfg.full cfg.maxHops.toNat (.start first second) log =
      some ((s, stop), log') := by
    rcases searchHops_limit cfg.maxVisited.toNat _ _ _ _ hrun with hsame | ⟨hmore, -⟩
    · exact hsame
    · exact absurd hmore (Nat.not_lt.mpr hvisited)
  match stop, hleft with
  | some (.met peer), _ => exact ⟨s, peer, log', hsame⟩
  | some .gaveUp, hfull => exact absurd hfull Bool.false_ne_true
  | some .unreadable, hdown => exact absurd hup hdown
  | none, hfar =>
    have := hfar l hl
    omega

/-- **The search is complete within its bounds.**  Over a store that answers every read,
two subscribers within `maxHops` links of each other are found to be linked, unless more
than `maxVisited` others had to be discovered; a 404 says that it is one or the other; and
the peers of at most `maxVisited + 2` subscribers are read. -/
theorem path_complete (hs : store.Serves hashes) (hup : store.Up)
    (hsym : ∀ a b, Linked hashes a b → Linked hashes b a) {first second : Text}
    (hne : first ≠ second) (cfg : QueryConfig) (weights : Bool) (log : List Read) :
    ∃ result log', path store cfg first second weights log = some (result, log') ∧
      ((∃ l, IsRoute (Linked hashes) first second l ∧ l.length ≤ cfg.maxHops.toNat + 1) →
        discovered store cfg first second log ≤ cfg.maxVisited.toNat → result.status = 200) ∧
      (result.status = 404 →
        (¬ ∃ l, IsRoute (Linked hashes) first second l ∧ l.length ≤ cfg.maxHops.toNat + 1) ∨
          cfg.maxVisited.toNat < discovered store cfg first second log) ∧
      log'.countP linkRead ≤ log.countP linkRead + cfg.maxVisited.toNat + 2 := by
  obtain ⟨s, stop, log₁, hrun, hleft⟩ := search_spec hsym hs cfg.full cfg.maxHops.toNat hne log
  have hreads : log₁.countP linkRead ≤ log.countP linkRead + cfg.maxVisited.toNat + 2 := by
    have := searchHops_count _ (Nat.zero_le _) hrun
    have hstart : (Search.start first second).waiting = 2 := rfl
    have hzero : (Search.start first second).visited = 0 := rfl
    omega
  -- a 404 is only given where the search did not meet
  suffices h : ∃ result log', path store cfg first second weights log = some (result, log') ∧
      (∀ peer, stop = some (.met peer) → result.status = 200) ∧
      log'.countP linkRead = log₁.countP linkRead by
    obtain ⟨result, log', hpath, hmet, hcount⟩ := h
    have hfound : (∃ l, IsRoute (Linked hashes) first second l ∧
        l.length ≤ cfg.maxHops.toNat + 1) →
        discovered store cfg first second log ≤ cfg.maxVisited.toNat → result.status = 200 := by
      rintro ⟨l, hl, hlen⟩ hvisited
      obtain ⟨s', peer, log₂, hmeets⟩ := search_meets hsym hs hup hne hl hlen hvisited
      rw [hmeets, Option.some_inj, Prod.mk.injEq, Prod.mk.injEq] at hrun
      exact hmet peer hrun.1.2.symm
    refine ⟨result, log', hpath, hfound, fun h404 => ?_, by omega⟩
    by_contra hno
    rw [not_or, not_not, Nat.not_lt] at hno
    rw [hfound hno.1 hno.2] at h404
    cases h404
  by_cases hstop : ∃ peer, stop = some (.met peer)
  · obtain ⟨peer, rfl⟩ := hstop
    obtain ⟨n, -, hmeets⟩ := hleft
    obtain ⟨route, hw, -⟩ := hmeets.route hsym
    obtain ⟨result, log', hf, hcount, hresult⟩ := found_read hs route weights log₁
    refine ⟨result, log', (path_met hne hrun hw).trans hf, fun _ _ => ?_, hcount⟩
    rcases hresult with rfl | ⟨-, hdown⟩
    · rfl
    · exact absurd hup hdown
  · exact ⟨_, log₁, path_stopped hne hrun (not_exists.mp hstop),
      fun peer hp => absurd ⟨peer, hp⟩ hstop, rfl⟩

/-- Two in contact are found, with one peer list read. -/
theorem path_complete_contact :
    ∃ result log', path contact.store ⟨1, 1⟩ ['1'] ['2'] false [] = some (result, log') ∧
      result.status = 200 ∧ log'.countP linkRead ≤ 3 := by
  obtain ⟨result, log', hpath, hfound, -, hreads⟩ := path_complete contact.store_serves
    contact.store_up contact_symmetric (by decide : ['1'] ≠ ['2']) ⟨1, 1⟩ false []
  have hlink : Linked contact ['1'] ['2'] := ⟨"2:dur".toList, by decide, by decide⟩
  refine ⟨result, log', hpath, hfound ⟨_, (IsRoute.single _).cons hlink, by decide⟩ ?_, hreads⟩
  decide +kernel

end CdrProcessor.PathService
