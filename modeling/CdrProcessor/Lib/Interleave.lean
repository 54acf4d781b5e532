import Mathlib.Data.List.Basic
import Mathlib.Data.List.Perm.Basic

/-! Threads as lists of moments, and the orders a scheduler may take them in: at each
turn the next moment of any thread that is not over. -/

namespace CdrProcessor

variable {α : Type}

/-- `acts` takes every thread to its end, each in its own order. -/
inductive Interleaved : List (List α) → List α → Prop where
  | nil {threads : List (List α)} (h : ∀ t ∈ threads, t = []) : Interleaved threads []
  | cons {before after : List (List α)} {t acts : List α} {a : α}
      (h : Interleaved (before ++ t :: after) acts) :
      Interleaved (before ++ (a :: t) :: after) (a :: acts)

/-- Whatever the scheduler does, every moment is taken once. -/
theorem Interleaved.perm {threads : List (List α)} {acts : List α}
    (h : Interleaved threads acts) : acts.Perm threads.flatten := by
  induction h with
  | nil h => rw [List.flatten_eq_nil_iff.mpr h]
  | @cons before after t acts a _ ih =>
    rw [List.flatten_append, List.flatten_cons] at ih ⊢
    exact (ih.cons a).trans List.perm_middle.symm

/-- One thread alone. -/
theorem Interleaved.single (acts : List α) : Interleaved [acts] acts := by
  induction acts with
  | nil => exact .nil fun t ht => List.mem_singleton.mp ht
  | cons a acts ih => exact @Interleaved.cons _ [] [] acts acts a ih

/-- One thread behind the other. -/
theorem Interleaved.pair (t u : List α) : Interleaved [t, u] (t ++ u) := by
  induction t with
  | cons a t ih => exact @Interleaved.cons _ [] [u] t (t ++ u) a ih
  | nil =>
    induction u with
    | nil => exact .nil (by simp)
    | cons b u ih => exact @Interleaved.cons _ [[]] [] u u b ih

end CdrProcessor
