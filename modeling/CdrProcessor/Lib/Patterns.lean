import Mathlib.Data.List.TakeWhile

/-!
Patterns of fixed texts and captured runs of a class of characters, matched against a
whole text: what a match is, the search for one, and when there is only one to find.
-/

namespace CdrProcessor.Patterns

variable {α : Type}

/-- One piece of a pattern. -/
inductive Piece (α : Type) where
  | text (t : List α)
  /-- At least one character of the class, as many as can be, captured. -/
  | run (cls : α → Bool)

/-- The whole text matches, with what the runs captured. -/
inductive Matches : List (Piece α) → List α → List (List α) → Prop where
  | nil : Matches [] [] []
  | text (t : List α) {pieces : List (Piece α)} {s : List α} {caps : List (List α)}
      (h : Matches pieces s caps) : Matches (.text t :: pieces) (t ++ s) caps
  | run {cls : α → Bool} {r : List α} {pieces : List (Piece α)} {s : List α}
      {caps : List (List α)} (hr : r ≠ []) (hcls : ∀ c ∈ r, cls c = true)
      (h : Matches pieces s caps) : Matches (.run cls :: pieces) (r ++ s) (r :: caps)

/-- A run of at most `n` characters, the longest behind which the rest matches. -/
def longest (rest : List α → Option (List (List α))) (s : List α) :
    Nat → Option (List (List α))
  | 0 => none
  | n + 1 =>
    match rest (s.drop (n + 1)) with
    | some caps => some (s.take (n + 1) :: caps)
    | none => longest rest s n

/-- The search for a match, greedy from left to right. -/
def fullMatch [DecidableEq α] : List (Piece α) → List α → Option (List (List α))
  | [], [] => some []
  | [], _ :: _ => none
  | .text t :: pieces, s =>
    if t.isPrefixOf s then fullMatch pieces (s.drop t.length) else none
  | .run cls :: pieces, s => longest (fullMatch pieces) s (s.takeWhile cls).length

/-! ## The search -/

theorem longest_sound {rest : List α → Option (List (List α))} {s : List α} {n : Nat}
    {caps : List (List α)} (h : longest rest s n = some caps) :
    ∃ k caps', 0 < k ∧ k ≤ n ∧ rest (s.drop k) = some caps' ∧ caps = s.take k :: caps' := by
  induction n with
  | zero => cases h
  | succ n ih =>
    rw [longest] at h
    cases hrest : rest (s.drop (n + 1)) with
    | some caps' =>
      rw [hrest] at h
      exact ⟨n + 1, caps', Nat.succ_pos n, Nat.le_refl _, hrest, (Option.some.inj h).symm⟩
    | none =>
      rw [hrest] at h
      obtain ⟨k, caps', hk, hkn, hr, hc⟩ := ih h
      exact ⟨k, caps', hk, by omega, hr, hc⟩

theorem longest_complete {rest : List α → Option (List (List α))} {s : List α} {n k : Nat}
    (hk : 0 < k) (hkn : k ≤ n) (hr : (rest (s.drop k)).isSome) : (longest rest s n).isSome := by
  induction n with
  | zero => omega
  | succ n ih =>
    rw [longest]
    cases hrest : rest (s.drop (n + 1)) with
    | some caps => rfl
    | none =>
      refine ih ?_
      rcases Nat.lt_or_eq_of_le hkn with hlt | rfl
      · exact Nat.le_of_lt_succ hlt
      · rw [hrest] at hr
        cases hr

private theorem mem_take_takeWhile {cls : α → Bool} {s : List α} {k : Nat}
    (hk : k ≤ (s.takeWhile cls).length) {c : α} (hc : c ∈ s.take k) : cls c = true := by
  have hpre : s.take k = (s.takeWhile cls).take k := by
    have htake : (s.takeWhile cls ++ s.dropWhile cls).take k = _ :=
      List.take_append_of_le_length hk
    rwa [List.takeWhile_append_dropWhile] at htake
  rw [hpre] at hc
  exact List.mem_takeWhile_imp (List.mem_of_mem_take hc)

private theorem length_le_takeWhile {cls : α → Bool} {r : List α}
    (hcls : ∀ c ∈ r, cls c = true) (s : List α) :
    r.length ≤ ((r ++ s).takeWhile cls).length := by
  rw [List.takeWhile_append_of_pos hcls, List.length_append]
  exact Nat.le_add_right _ _

variable [DecidableEq α]

/-- What is found is a match. -/
theorem fullMatch_sound {pieces : List (Piece α)} {s : List α} {caps : List (List α)}
    (h : fullMatch pieces s = some caps) : Matches pieces s caps := by
  induction pieces generalizing s caps with
  | nil =>
    cases s with
    | nil =>
      cases h
      exact .nil
    | cons c s => cases h
  | cons piece pieces ih =>
    cases piece with
    | text t =>
      rw [fullMatch] at h
      split at h
      · next hp =>
        obtain ⟨s, rfl⟩ := List.isPrefixOf_iff_prefix.mp hp
        rw [List.drop_left] at h
        exact .text t (ih h)
      · cases h
    | run cls =>
      rw [fullMatch] at h
      obtain ⟨k, caps', hk, hkn, hrest, rfl⟩ := longest_sound h
      have hne : s.take k ≠ [] := by
        have hlen := List.length_take_of_le
          (Nat.le_trans hkn (List.takeWhile_prefix cls (l := s)).length_le)
        intro hnil
        rw [hnil] at hlen
        simp only [List.length_nil] at hlen
        omega
      have hm := Matches.run hne (fun c hc => mem_take_takeWhile hkn hc) (ih hrest)
      rwa [List.take_append_drop] at hm

/-- Where there is a match, one is found. -/
theorem fullMatch_complete {pieces : List (Piece α)} {s : List α} {caps : List (List α)}
    (h : Matches pieces s caps) : (fullMatch pieces s).isSome := by
  induction h with
  | nil => rfl
  | text t _ ih =>
    rw [fullMatch, if_pos (List.isPrefixOf_iff_prefix.mpr (List.prefix_append t _)),
      List.drop_left]
    exact ih
  | @run cls r pieces s caps hr hcls _ ih =>
    rw [fullMatch]
    refine longest_complete (List.length_pos_iff.mpr hr) (length_le_takeWhile hcls s) ?_
    rw [List.drop_left]
    exact ih

/-! ## One match -/

omit [DecidableEq α] in
/-- What a run can take in is decided by where the class ends. -/
private theorem takeWhile_of_outside {cls : α → Bool} {r s : List α}
    (hcls : ∀ c ∈ r, cls c = true) (hs : ∀ c ∈ s.head?, cls c = false) :
    (r ++ s).takeWhile cls = r := by
  rw [List.takeWhile_append_of_pos hcls]
  cases s with
  | nil => rw [List.takeWhile_nil, List.append_nil]
  | cons c s =>
    rw [List.takeWhile_cons_of_neg (by rw [hs c rfl]; decide), List.append_nil]

/-- Behind every run the pattern ends, or goes on with a character outside the class. -/
def Separated : List (Piece α) → Prop
  | [] => True
  | .text _ :: pieces => Separated pieces
  | .run _ :: [] => True
  | .run cls :: .text (c :: t) :: pieces => cls c = false ∧ Separated (.text (c :: t) :: pieces)
  | .run _ :: .text [] :: _ => False
  | .run _ :: .run _ :: _ => False

omit [DecidableEq α] in
private theorem Separated.outside {cls : α → Bool} {pieces : List (Piece α)}
    (h : Separated (.run cls :: pieces)) {s : List α} {caps : List (List α)}
    (hm : Matches pieces s caps) : ∀ c ∈ s.head?, cls c = false := by
  cases hm with
  | nil => simp
  | text t hm =>
    cases t with
    | nil => cases h
    | cons c t => simpa using h.1
  | run hr hcls hm => cases h

omit [DecidableEq α] in
private theorem Separated.rest {cls : α → Bool} {pieces : List (Piece α)}
    (h : Separated (.run cls :: pieces)) : Separated pieces := by
  cases pieces with
  | nil => trivial
  | cons piece pieces =>
    cases piece with
    | text t =>
      cases t with
      | nil => cases h
      | cons c t => exact h.2
    | run cls => cases h

omit [DecidableEq α] in
/-- **One match.**  The runs of a separated pattern capture the same in every match. -/
theorem Matches.unique {pieces : List (Piece α)} (hp : Separated pieces) {s : List α}
    {caps caps' : List (List α)} (h : Matches pieces s caps) (h' : Matches pieces s caps') :
    caps = caps' := by
  induction h generalizing caps' with
  | nil =>
    cases h'
    rfl
  | @text t pieces s caps hm ih =>
    generalize hs : t ++ s = text at h'
    cases h' with
    | text _ hm' => exact ih hp ((List.append_cancel_left hs) ▸ hm')
  | @run cls r pieces s caps hr hcls hm ih =>
    generalize hs : r ++ s = text at h'
    cases h' with
    | @run _ r' _ s' caps' hr' hcls' hm' =>
      have hrr : r = r' := by
        rw [← takeWhile_of_outside hcls (Separated.outside hp hm), hs,
          takeWhile_of_outside hcls' (Separated.outside hp hm')]
      subst hrr
      rw [ih hp.rest ((List.append_cancel_left hs) ▸ hm')]

/-- A separated pattern is matched without a choice. -/
theorem fullMatch_eq_some {pieces : List (Piece α)} (hp : Separated pieces) {s : List α}
    {caps : List (List α)} : fullMatch pieces s = some caps ↔ Matches pieces s caps := by
  constructor
  · exact fullMatch_sound
  · intro h
    obtain ⟨caps', hf⟩ := Option.isSome_iff_exists.mp (fullMatch_complete h)
    rw [hf, h.unique hp (fullMatch_sound hf)]

/-! ## What a match shows of the text -/

omit [DecidableEq α] in
/-- What a pattern opens with, the text opens with. -/
theorem Matches.opens {t : List α} {pieces : List (Piece α)} {s : List α}
    {caps : List (List α)} (h : Matches (.text t :: pieces) s caps) : t <+: s := by
  cases h
  exact List.prefix_append _ _

omit [DecidableEq α] in
/-- A text alone matches itself. -/
theorem Matches.text_eq {t s : List α} {caps : List (List α)} (h : Matches [.text t] s caps) :
    s = t := by
  cases h with
  | text _ h =>
    cases h
    exact List.append_nil t

/-- How often the fixed texts of a pattern hold a character. -/
def fixed (c : α) : List (Piece α) → Nat
  | [] => 0
  | .text t :: pieces => t.count c + fixed c pieces
  | .run _ :: pieces => fixed c pieces

/-- A character that no class holds is there as often as the fixed texts hold it. -/
theorem Matches.count_eq {c : α} {pieces : List (Piece α)} {s : List α} {caps : List (List α)}
    (h : Matches pieces s caps) (hc : ∀ cls, Piece.run cls ∈ pieces → cls c = false) :
    s.count c = fixed c pieces := by
  induction h with
  | nil => rfl
  | text t _ ih =>
    rw [List.count_append, fixed, ih fun cls hmem => hc cls (List.mem_cons_of_mem _ hmem)]
  | @run cls r pieces s caps hr hcls _ ih =>
    have hzero : r.count c = 0 := by
      refine List.count_eq_zero.mpr fun hmem => ?_
      have hin := hcls c hmem
      rw [hc cls List.mem_cons_self] at hin
      cases hin
    rw [List.count_append, hzero, Nat.zero_add, fixed,
      ih fun cls hmem => hc cls (List.mem_cons_of_mem _ hmem)]

end CdrProcessor.Patterns
