import Mathlib.Data.List.Basic

/-! Pages of a list: so many entries from an offset on, and pages that follow one another. -/

namespace CdrProcessor.Pages

variable {α : Type}

/-- At most `limit` entries, from `offset` on. -/
def slice (all : List α) (offset limit : Nat) : List α := (all.drop offset).take limit

theorem slice_past {all : List α} {offset : Nat} (h : all.length ≤ offset) (limit : Nat) :
    slice all offset limit = [] := by
  unfold slice
  rw [List.drop_eq_nil_of_le h, List.take_nil]

/-- A limit past the end is as good as one at the end. -/
theorem slice_min (all : List α) (offset limit : Nat) :
    slice all offset (min limit (all.length - offset)) = slice all offset limit := by
  unfold slice
  rw [Nat.min_comm, ← List.length_drop, List.take_eq_take_iff]
  omega

theorem slice_rest {all : List α} {offset limit : Nat} (h : all.length - offset ≤ limit) :
    slice all offset limit = all.drop offset :=
  List.take_of_length_le (by rwa [List.length_drop])

/-- The first pages of a list, put together. -/
def tiled (all : List α) (limit pages : Nat) : List α :=
  (List.range pages).flatMap fun i => slice all (i * limit) limit

theorem tiled_take (all : List α) (limit pages : Nat) :
    tiled all limit pages = all.take (pages * limit) := by
  unfold tiled
  induction pages with
  | zero => simp
  | succ n ih =>
    rw [List.range_succ, List.flatMap_append, ih, List.flatMap_singleton, Nat.succ_mul,
      List.take_add]
    rfl

/-- **Tiles.**  Enough pages hold every entry once, in order. -/
theorem tiled_all {all : List α} {limit pages : Nat} (h : all.length ≤ pages * limit) :
    tiled all limit pages = all := by
  rw [tiled_take, List.take_of_length_le h]

end CdrProcessor.Pages
