import CdrProcessor.Lib.Trails

/-! Trails of a breadth-first search whose links change under it.  `lo` are the links that
are seen whenever one looks, `hi` those that are seen at some time: a trail holds at least
what `lo` reaches, and each of its entries was reached over `hi`. -/

namespace CdrProcessor

variable {α : Type} [DecidableEq α] {lo hi : α → α → Prop}

/-! ## Climbs -/

/-- There is one way up. -/
theorem Climb.unique {t : Table α α} {x : α} {l l' : List α} (h : Climb t x l)
    (h' : Climb t x l') : l = l' := by
  induction h generalizing l' with
  | root hx =>
    cases h' with
    | root _ => rfl
    | step hx' hne _ =>
      rw [hx] at hx'
      cases hx'
      exact absurd rfl hne
  | step hx hne _ ih =>
    cases h' with
    | root hx' =>
      rw [hx] at hx'
      cases hx'
      exact absurd rfl hne
    | step hx' _ h' =>
      rw [hx] at hx'
      cases hx'
      rw [ih h']

/-- From each of its stops the way goes on up. -/
theorem Climb.from_mem {t : Table α α} {x y : α} {l : List α} (h : Climb t x l) (hy : y ∈ l) :
    ∃ l', Climb t y l' ∧ l'.length ≤ l.length ∧ (y ≠ x → l'.length < l.length) := by
  induction h with
  | root hx =>
    obtain rfl := List.mem_singleton.mp hy
    exact ⟨_, .root hx, le_refl _, fun hne => absurd rfl hne⟩
  | step hx hne hp ih =>
    rcases List.mem_cons.mp hy with rfl | hy
    · exact ⟨_, .step hx hne hp, le_refl _, fun hne => absurd rfl hne⟩
    · obtain ⟨l', hl', hlen, -⟩ := ih hy
      rw [List.length_cons]
      exact ⟨l', hl', by omega, fun _ => by omega⟩

/-- A climb stops nowhere twice. -/
theorem Climb.nodup {t : Table α α} {x : α} {l : List α} (h : Climb t x l) : l.Nodup := by
  induction h with
  | root _ => exact List.nodup_singleton _
  | @step x p l hx hne hp ih =>
    refine List.nodup_cons.mpr ⟨fun hmem => ?_, ih⟩
    -- the climb from `x` would be shorter than itself
    obtain ⟨l', hl', hlen, -⟩ := hp.from_mem hmem
    have heq := (Climb.step hx hne hp).unique hl'
    rw [← heq, List.length_cons] at hlen
    omega

/-- A climb stays in its table. -/
theorem Climb.mem {t : Table α α} {x y : α} {l : List α} (h : Climb t x l) (hy : y ∈ l) :
    y ∈ t := by
  obtain ⟨l', hl', -⟩ := h.from_mem hy
  cases hl' with
  | root hx => exact AList.lookup_isSome.mp (by simp [hx])
  | step hx _ _ => exact AList.lookup_isSome.mp (by simp [hx])

/-! ## Levels -/

/-- A trail between two levels: it holds the ball of radius `r` of `lo`, and only what is on
the frontier may have links of `lo` that were not followed. -/
structure Spread (lo hi : α → α → Prop) (root : α) (r : Nat) (t : Table α α)
    (front : List α) : Prop where
  inner : ∀ x, Reaches lo r root x → x ∈ t
  trail : ∀ x ∈ t, Rooted hi t root r x
  held : ∀ x ∈ front, x ∈ t
  closed : ∀ x ∈ t, x ∉ front → ∀ y, lo x y → y ∈ t

/-- A trail in the middle of a level: of the frontier `todo` is left to be expanded, and
`fresh` was reached from the rest. -/
structure Spreading (lo hi : α → α → Prop) (root : α) (r : Nat) (t : Table α α)
    (todo fresh : List α) : Prop where
  inner : ∀ x, Reaches lo r root x → x ∈ t
  trail : ∀ x ∈ t, Rooted hi t root (r + 1) x
  near : ∀ x ∈ todo, Rooted hi t root r x
  outer : ∀ x ∈ fresh, x ∈ t ∧ ¬ Reaches lo r root x
  closed : ∀ x ∈ t, x ∉ todo → x ∉ fresh → ∀ y, lo x y → y ∈ t

variable {root : α} {r : Nat} {t : Table α α}

theorem Spread.start (lo hi : α → α → Prop) (root : α) :
    Spread lo hi root 0 ((∅ : Table α α).insert root root) [root] := by
  have hlo := Grown.start (R := lo) root
  exact ⟨hlo.inner, (Grown.start (R := hi) root).trail, hlo.held, hlo.closed⟩

theorem Spread.spreading {front : List α} (h : Spread lo hi root r t front) :
    Spreading lo hi root r t front [] where
  inner := h.inner
  trail x hx := (h.trail x hx).mono (Nat.le_succ r)
  near x hx := h.trail x (h.held x hx)
  outer _ hx := absurd hx List.not_mem_nil
  closed x hx hf _ := h.closed x hx hf

/-- **A level expanded whole** makes the ball one link wider. -/
theorem Spreading.spread {fresh : List α} (h : Spreading lo hi root r t [] fresh) :
    Spread lo hi root (r + 1) t fresh where
  inner y hy := by
    rcases hy.cases_succ with hy | ⟨x, hx, hxy⟩
    · exact h.inner y hy
    · -- what lies in the ball is not fresh, so its links were followed
      exact h.closed x (h.inner x hx) List.not_mem_nil (fun hf => (h.outer x hf).2 hx) y hxy
  trail := h.trail
  held x hx := (h.outer x hx).1
  closed x hx := h.closed x hx List.not_mem_nil

/-- A new entry, reached from one of the level being expanded. -/
theorem Spreading.insert {todo fresh : List α} {x p : α}
    (h : Spreading lo hi root r t todo fresh) (hx : x ∉ t) (hp : p ∈ todo) (hlink : hi x p) :
    Spreading lo hi root r (t.insert x p) todo (fresh ++ [x]) where
  inner y hy := (AList.mem_insert t).mpr (.inr (h.inner y hy))
  trail y hy := by
    rcases (AList.mem_insert t).mp hy with rfl | hy
    · exact (h.near p hp).reached hx (h.near p hp).mem hlink
    · exact (h.trail y hy).insert hx
  near y hy := (h.near y hy).insert hx
  outer y hy := by
    rcases List.mem_append.mp hy with hy | hy
    · exact ⟨(AList.mem_insert t).mpr (.inr (h.outer y hy).1), (h.outer y hy).2⟩
    · obtain rfl := List.mem_singleton.mp hy
      exact ⟨(AList.mem_insert t).mpr (.inl rfl), fun hr => hx (h.inner y hr)⟩
  closed y hy htodo hfresh z hz := by
    rw [List.mem_append, not_or] at hfresh
    rcases (AList.mem_insert t).mp hy with rfl | hy
    · exact absurd (List.mem_singleton.mpr rfl) hfresh.2
    · exact (AList.mem_insert t).mpr (.inr (h.closed y hy htodo hfresh.1 z hz))

/-- An entry whose links were all followed is done with. -/
theorem Spreading.expanded {todo fresh : List α} {x : α}
    (h : Spreading lo hi root r t (x :: todo) fresh) (hx : ∀ y, lo x y → y ∈ t) :
    Spreading lo hi root r t todo fresh where
  inner := h.inner
  trail := h.trail
  near y hy := h.near y (List.mem_cons_of_mem x hy)
  outer := h.outer
  closed y hy htodo hfresh := by
    by_cases hyx : y = x
    · rw [hyx]
      exact hx
    · exact h.closed y hy (by simp [hyx, htodo]) hfresh

/-- **An empty frontier.**  Everything a route of `lo` leads to was reached. -/
theorem Spread.exhausted {b : α} (h : Spread lo hi root r t []) {l : List α}
    (hl : IsRoute lo root b l) : b ∈ t :=
  hl.mem_of_closed (fun x hx => h.closed x hx List.not_mem_nil) (h.inner root (.self r root))

end CdrProcessor
