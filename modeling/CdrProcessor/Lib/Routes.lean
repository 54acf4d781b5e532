import Mathlib.Data.List.Chain

/-! Routes of a relation: lists whose neighbours are related, how they are turned
round, joined and cut, and how far apart their ends have to be. -/

namespace CdrProcessor

variable {α : Type} {R : α → α → Prop}

/-- A route from `a` to `b`, both ends in it. -/
structure IsRoute (R : α → α → Prop) (a b : α) (l : List α) : Prop where
  head : l.head? = some a
  last : l.getLast? = some b
  chain : l.IsChain R

/-- A route of at most `n` links leads from `a` to `b`. -/
def Reaches (R : α → α → Prop) (n : Nat) (a b : α) : Prop :=
  ∃ l, IsRoute R a b l ∧ l.length ≤ n + 1

/-- At least `size` others lie around the two, each within `k` links of the one or within `m` of
the other, where the two ways make up at most `n`. -/
def Surrounded (R : α → α → Prop) (n size : Nat) (a b : α) : Prop :=
  ∃ k m, k + m ≤ n ∧ ∃ names : List α, names.Nodup ∧ size ≤ names.length ∧
    ∀ x ∈ names, (x ≠ a ∧ x ≠ b) ∧ (Reaches R k a x ∨ Reaches R m b x)

/-! ## Routes -/

theorem IsRoute.single (a : α) : IsRoute R a a [a] := ⟨rfl, rfl, .singleton a⟩

/-- Every hop of a route is a link. -/
theorem IsRoute.hop {a b : α} {l : List α} (h : IsRoute R a b l) {pair : α × α}
    (hpair : pair ∈ l.zip l.tail) : R pair.1 pair.2 := by
  have hchain := h.chain
  clear h
  induction l with
  | nil => cases hpair
  | cons x l ih =>
    cases l with
    | nil => cases hpair
    | cons y l =>
      rw [List.isChain_cons_cons] at hchain
      rcases List.mem_cons.mp hpair with rfl | hpair
      · exact hchain.1
      · exact ih hpair hchain.2

theorem IsRoute.ne_nil {a b : α} {l : List α} (h : IsRoute R a b l) : l ≠ [] := by
  rintro rfl
  cases h.head

/-- One link more at the front. -/
theorem IsRoute.cons {a b c : α} {l : List α} (hab : R a b) (h : IsRoute R b c l) :
    IsRoute R a c (a :: l) := by
  refine ⟨rfl, ?_, ?_⟩
  · rw [List.getLast?_cons_of_ne_nil h.ne_nil, h.last]
  · refine h.chain.cons fun y hy => ?_
    rw [h.head] at hy
    cases hy
    exact hab

theorem IsRoute.reverse (hR : ∀ x y, R x y → R y x) {a b : α} {l : List α} (h : IsRoute R a b l) :
    IsRoute R b a l.reverse := by
  refine ⟨?_, ?_, ?_⟩
  · rw [List.head?_reverse, h.last]
  · rw [List.getLast?_reverse, h.head]
  · exact List.isChain_reverse.mpr (h.chain.imp fun x y hxy => hR x y hxy)

/-- A route goes on where another one starts. -/
theorem IsRoute.join {a b c : α} {l t : List α} (h : IsRoute R a b l)
    (h' : IsRoute R b c (b :: t)) : IsRoute R a c (l ++ t) := by
  refine ⟨?_, ?_, ?_⟩
  · rw [List.head?_append_of_ne_nil _ h.ne_nil, h.head]
  · cases t with
    | nil =>
      rw [List.append_nil, h.last]
      exact h'.last
    | cons d t =>
      rw [List.getLast?_append_of_ne_nil _ (by simp)]
      exact h'.last
  · refine h.chain.append h'.chain.tail fun x hx y hy => ?_
    rw [h.last] at hx
    cases hx
    exact h'.chain.rel_head? hy

/-- A route cut at one of its stops. -/
theorem IsRoute.split {a c m : α} {l t : List α} (h : IsRoute R a c (l ++ m :: t)) :
    IsRoute R a m (l ++ [m]) ∧ IsRoute R m c (m :: t) := by
  have hc := List.isChain_split.mp h.chain
  refine ⟨⟨?_, by simp, hc.1⟩, ⟨rfl, ?_, hc.2⟩⟩
  · rw [← h.head]
    cases l <;> rfl
  · rw [← h.last, List.getLast?_append_of_ne_nil _ (by simp)]

/-- A set that no link leaves holds the end of every route that starts in it. -/
theorem IsRoute.mem_of_closed {S : α → Prop} (hS : ∀ x, S x → ∀ y, R x y → S y) {a b : α}
    {l : List α} (ha : S a) (h : IsRoute R a b l) : S b := by
  induction l generalizing a with
  | nil => cases h.head
  | cons x l ih =>
    obtain rfl : x = a := by simpa using h.head
    cases l with
    | nil =>
      obtain rfl : x = b := by simpa using h.last
      exact ha
    | cons y l =>
      have hxy : R x y := h.chain.rel_head? rfl
      exact ih (hS x ha y hxy) (h.split (l := [x]) (m := y)).2

/-- **A shortest route** stops nowhere twice. -/
theorem IsRoute.nodup {a b : α} {l : List α} (h : IsRoute R a b l)
    (hmin : ∀ l', IsRoute R a b l' → l.length ≤ l'.length) : l.Nodup := by
  have hall : ∀ l₂ l₁, l = l₁ ++ l₂ → l₂.Nodup := by
    intro l₂
    induction l₂ with
    | nil => exact fun _ _ => .nil
    | cons x t ih =>
      intro l₁ hl
      refine List.nodup_cons.mpr ⟨fun hx => ?_, ih (l₁ ++ [x]) (by simp [hl])⟩
      -- the way between two stops at `x` can be left out
      obtain ⟨s, u, rfl⟩ := List.append_of_mem hx
      have h₁ : IsRoute R a x (l₁ ++ [x]) := (hl ▸ h).split.1
      have h₂ : IsRoute R x b (x :: u) := by
        have h' : IsRoute R a b ((l₁ ++ x :: s) ++ x :: u) := by simpa [hl] using h
        exact h'.split.2
      have hle := hmin _ (h₁.join h₂)
      rw [hl] at hle
      simp at hle
      omega
  exact hall l [] rfl

/-! ## Distances -/

theorem Reaches.self (n : Nat) (a : α) : Reaches R n a a := ⟨[a], .single a, by simp⟩

theorem Reaches.eq_of_zero {a b : α} (h : Reaches R 0 a b) : a = b := by
  obtain ⟨l, hl, hlen⟩ := h
  match l, hl with
  | [], hl => cases hl.head
  | [x], hl =>
    have h₁ := hl.head
    have h₂ := hl.last
    simp at h₁ h₂
    rw [← h₁, h₂]
  | _ :: _ :: _, _ => simp at hlen

/-- The last link of a route taken off. -/
theorem Reaches.cases_succ {n : Nat} {a c : α} (h : Reaches R (n + 1) a c) :
    Reaches R n a c ∨ ∃ b, Reaches R n a b ∧ R b c := by
  obtain ⟨l, hl, hlen⟩ := h
  by_cases hshort : l.length ≤ n + 1
  · exact .inl ⟨l, hl, hshort⟩
  · right
    obtain ⟨l', y, rfl⟩ := List.eq_nil_or_concat l |>.resolve_left hl.ne_nil
    rw [List.concat_eq_append] at hl hlen hshort
    obtain ⟨l'', b, rfl⟩ := List.eq_nil_or_concat l' |>.resolve_left (by rintro rfl; simp at hshort)
    rw [List.concat_eq_append] at hl hlen
    have hy : y = c := by simpa using hl.last
    subst hy
    have hs : IsRoute R a y (l'' ++ b :: [y]) := by simpa using hl
    exact ⟨b, ⟨_, hs.split.1, by simpa using hlen⟩, hs.split.2.chain.rel_head? rfl⟩

/-- **Two balls that do not meet keep their centres apart.** -/
theorem IsRoute.far (hR : ∀ x y, R x y → R y x) {p q : Nat} {a b : α} {S T : α → Prop}
    (hS : ∀ x, Reaches R p a x → S x) (hT : ∀ x, Reaches R q b x → T x)
    (hST : ∀ x, S x → ¬ T x) {l : List α} (h : IsRoute R a b l) : p + q + 2 ≤ l.length := by
  by_contra hlt
  by_cases hp : l.length ≤ p + 1
  · exact hST b (hS b ⟨l, h, hp⟩) (hT b (.self q b))
  · -- the stop `p` links behind `a` lies in both balls
    have hlen : p < l.length := by omega
    have hcut : l = l.take p ++ l[p] :: l.drop (p + 1) := by simp
    rw [hcut] at h
    obtain ⟨h₁, h₂⟩ := h.split
    refine hST l[p] (hS _ ⟨_, h₁, ?_⟩) (hT _ ⟨_, h₂.reverse hR, ?_⟩)
    · simp only [List.length_append, List.length_take, List.length_cons, List.length_nil]
      omega
    · simp only [List.length_reverse, List.length_cons, List.length_drop]
      omega

end CdrProcessor
