import CdrProcessor.Lib.Routes
import CdrProcessor.Lib.Table

/-! Trails of a breadth-first search: tables that map what was reached to where it was
reached from, the root to itself.  `Grown` says what a trail holds between two levels
and `Growing` what it holds in the middle of one. -/

namespace CdrProcessor

variable {α : Type} [DecidableEq α] {R : α → α → Prop}

/-! ## Climbing to the root -/

/-- The way from an entry up to the one that maps to itself, both in it. -/
inductive Climb (t : Table α α) : α → List α → Prop
  | root {x : α} : t.lookup x = some x → Climb t x [x]
  | step {x p : α} {l : List α} : t.lookup x = some p → p ≠ x → Climb t p l → Climb t x (x :: l)

theorem Climb.insert {t : Table α α} {x y p : α} {l : List α} (hy : y ∉ t) (h : Climb t x l) :
    Climb (t.insert y p) x l := by
  have hkeep : ∀ {z v : α}, t.lookup z = some v → (t.insert y p).lookup z = some v := by
    intro z v hz
    rw [AList.lookup_insert_ne (by rintro rfl; exact hy (AList.lookup_isSome.mp (by simp [hz])))]
    exact hz
  induction h with
  | root hx => exact .root (hkeep hx)
  | step hx hne _ ih => exact .step (hkeep hx) hne ih

/-- The climb from `x` is a route of at most `r` links to the root. -/
def Rooted (R : α → α → Prop) (t : Table α α) (root : α) (r : Nat) (x : α) : Prop :=
  ∃ l, Climb t x l ∧ IsRoute R x root l ∧ l.length ≤ r + 1 ∧ l.length ≤ t.entries.length

theorem Rooted.mono {t : Table α α} {root x : α} {r r' : Nat} (hr : r ≤ r')
    (h : Rooted R t root r x) : Rooted R t root r' x := by
  obtain ⟨l, hc, hl, hlen, hsize⟩ := h
  exact ⟨l, hc, hl, by omega, hsize⟩

theorem Rooted.insert {t : Table α α} {root x y p : α} {r : Nat} (hy : y ∉ t)
    (h : Rooted R t root r x) : Rooted R (t.insert y p) root r x := by
  obtain ⟨l, hc, hl, hlen, hsize⟩ := h
  refine ⟨l, hc.insert hy, hl, hlen, ?_⟩
  rw [AList.entries_insert_of_notMem hy, List.length_cons]
  omega

/-- What is reached from an entry is a link further from the root. -/
theorem Rooted.reached {t : Table α α} {root x p : α} {r : Nat} (hx : x ∉ t) (hp : p ∈ t)
    (hR : R x p) (h : Rooted R t root r p) : Rooted R (t.insert x p) root (r + 1) x := by
  obtain ⟨l, hc, hl, hlen, hsize⟩ := h
  have hne : p ≠ x := by
    rintro rfl
    exact hx hp
  refine ⟨x :: l, .step (AList.lookup_insert t) hne (hc.insert hx), hl.cons hR, ?_, ?_⟩
  · simpa using hlen
  · rw [AList.entries_insert_of_notMem hx]
    simpa using hsize

theorem Rooted.mem {t : Table α α} {root x : α} {r : Nat} (h : Rooted R t root r x) : x ∈ t := by
  obtain ⟨l, hc, -⟩ := h
  cases hc with
  | root hx => exact AList.lookup_isSome.mp (by simp [hx])
  | step hx _ _ => exact AList.lookup_isSome.mp (by simp [hx])

/-! ## Levels -/

/-- A trail between two levels: it holds the ball of radius `r` about its root, and only
what is on the frontier has links that were not followed. -/
structure Grown (R : α → α → Prop) (root : α) (r : Nat) (t : Table α α) (front : List α) : Prop where
  inner : ∀ x, Reaches R r root x → x ∈ t
  trail : ∀ x ∈ t, Rooted R t root r x
  held : ∀ x ∈ front, x ∈ t
  closed : ∀ x ∈ t, x ∉ front → ∀ y, R x y → y ∈ t

/-- A trail in the middle of a level: of the frontier `todo` is left to be expanded, and
`fresh` was reached from the rest. -/
structure Growing (R : α → α → Prop) (root : α) (r : Nat) (t : Table α α)
    (todo fresh : List α) : Prop where
  inner : ∀ x, Reaches R r root x → x ∈ t
  trail : ∀ x ∈ t, Rooted R t root (r + 1) x
  near : ∀ x ∈ todo, Rooted R t root r x
  outer : ∀ x ∈ fresh, x ∈ t ∧ ¬ Reaches R r root x
  closed : ∀ x ∈ t, x ∉ todo → x ∉ fresh → ∀ y, R x y → y ∈ t

theorem Grown.start (root : α) : Grown R root 0 ((∅ : Table α α).insert root root) [root] := by
  have hmem : ∀ x, x ∈ (∅ : Table α α).insert root root ↔ x = root := by
    intro x
    rw [AList.mem_insert]
    simp [AList.notMem_empty]
  refine ⟨fun x hx => (hmem x).mpr hx.eq_of_zero.symm, fun x hx => ?_, fun x hx => ?_, ?_⟩
  · rw [hmem] at hx
    subst hx
    exact ⟨[x], .root (AList.lookup_insert ∅), .single x, by simp, by simp⟩
  · exact (hmem x).mpr (List.mem_singleton.mp hx)
  · intro x hx hf
    exact absurd (List.mem_singleton.mpr ((hmem x).mp hx)) hf

theorem Grown.growing {root : α} {r : Nat} {t : Table α α} {front : List α}
    (h : Grown R root r t front) : Growing R root r t front [] where
  inner := h.inner
  trail x hx := (h.trail x hx).mono (by omega)
  near x hx := h.trail x (h.held x hx)
  outer x hx := absurd hx List.not_mem_nil
  closed x hx hf _ := h.closed x hx hf

/-- **A level expanded whole** makes the ball one link wider. -/
theorem Growing.grown {root : α} {r : Nat} {t : Table α α} {fresh : List α}
    (h : Growing R root r t [] fresh) : Grown R root (r + 1) t fresh where
  inner y hy := by
    obtain hy | ⟨x, hx, hxy⟩ := hy.cases_succ
    · exact h.inner y hy
    · -- what lies in the ball is not fresh, so its links were followed
      exact h.closed x (h.inner x hx) List.not_mem_nil (fun hf => (h.outer x hf).2 hx) y hxy
  trail := h.trail
  held x hx := (h.outer x hx).1
  closed x hx := h.closed x hx List.not_mem_nil

/-- A new entry, reached from one of the level being expanded. -/
theorem Growing.insert {root : α} {r : Nat} {t : Table α α} {todo fresh : List α} {x p : α}
    (h : Growing R root r t todo fresh) (hx : x ∉ t) (hp : p ∈ todo) (hR : R x p) :
    Growing R root r (t.insert x p) todo (fresh ++ [x]) where
  inner y hy := AList.mem_insert t |>.mpr (.inr (h.inner y hy))
  trail y hy := by
    rcases (AList.mem_insert t).mp hy with rfl | hy
    · exact (h.near p hp).reached hx (h.near p hp).mem hR
    · exact (h.trail y hy).insert hx
  near y hy := (h.near y hy).insert hx
  outer y hy := by
    rcases List.mem_append.mp hy with hy | hy
    · exact ⟨(AList.mem_insert t).mpr (.inr (h.outer y hy).1), (h.outer y hy).2⟩
    · obtain rfl := List.mem_singleton.mp hy
      exact ⟨(AList.mem_insert t).mpr (.inl rfl), fun hr => hx (h.inner y hr)⟩
  closed y hy htodo hfresh z hz := by
    rw [List.mem_append, not_or] at hfresh
    rcases (AList.mem_insert t).mp hy with rfl | hy
    · exact absurd (List.mem_singleton.mpr rfl) hfresh.2
    · exact (AList.mem_insert t).mpr (.inr (h.closed y hy htodo hfresh.1 z hz))

/-- An entry whose links were all followed is done with. -/
theorem Growing.expanded {root : α} {r : Nat} {t : Table α α} {todo fresh : List α} {x : α}
    (h : Growing R root r t (x :: todo) fresh) (hx : ∀ y, R x y → y ∈ t) :
    Growing R root r t todo fresh where
  inner := h.inner
  trail := h.trail
  near y hy := h.near y (List.mem_cons_of_mem x hy)
  outer := h.outer
  closed y hy htodo hfresh := by
    by_cases hyx : y = x
    · rw [hyx]
      exact hx
    · exact h.closed y hy (by simp [hyx, htodo]) hfresh

/-- **An empty frontier.**  Everything a route leads to from the root was reached. -/
theorem Grown.exhausted {root b : α} {r : Nat} {t : Table α α} (h : Grown R root r t [])
    {l : List α} (hl : IsRoute R root b l) : b ∈ t :=
  hl.mem_of_closed (fun x hx => h.closed x hx List.not_mem_nil) (h.inner root (.self r root))

end CdrProcessor
