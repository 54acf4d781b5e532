import Mathlib.Data.List.AList
import Mathlib.Algebra.BigOperators.Group.List.Basic

/-! Finite tables whose missing keys read as a default: update in place, and
sums over the entries in whatever order they are visited. -/

namespace CdrProcessor

/-- A finite map, each key held once. -/
abbrev Table (κ β : Type) := AList (fun _ : κ => β)

namespace Table

variable {κ β : Type} [DecidableEq κ] [Inhabited β]

/-- The value under `k`, the default when the table does not hold it. -/
def read (t : Table κ β) (k : κ) : β := (t.lookup k).getD default

/-- Change the value under `k`, entering the default first when it is missing. -/
def modify (t : Table κ β) (k : κ) (f : β → β) : Table κ β := t.insert k (f (t.read k))

@[simp] theorem read_empty (k : κ) : Table.read (∅ : Table κ β) k = default := rfl

@[simp] theorem read_modify_self (t : Table κ β) (k : κ) (f : β → β) :
    (t.modify k f).read k = f (t.read k) := by
  unfold Table.modify Table.read
  rw [AList.lookup_insert]
  rfl

theorem read_modify_ne (t : Table κ β) {k k' : κ} (f : β → β) (h : k' ≠ k) :
    (t.modify k f).read k' = t.read k' := by
  unfold Table.modify Table.read
  rw [AList.lookup_insert_ne h]

/-- A measure that an update raises by `d` goes up by `d` under that key alone. -/
theorem measure_modify {M : Type} [AddMonoid M] (t : Table κ β) (k k' : κ) {f : β → β} {g : β → M}
    {d : M} (hf : ∀ b, g (f b) = g b + d) :
    g ((t.modify k f).read k') = g (t.read k') + if k' = k then d else 0 := by
  by_cases h : k' = k
  · subst h; rw [read_modify_self, hf, if_pos rfl]
  · rw [read_modify_ne t f h, if_neg h, add_zero]

omit [Inhabited β] in
/-- Visiting every entry once, only the one under `k` counts. -/
theorem sum_entries {M : Type} [AddCommMonoid M] (t : Table κ β) (k : κ) (g : β → M)
    (l : List (Sigma fun _ : κ => β)) (hl : l.Perm t.entries) :
    (l.map fun e => if e.1 = k then g e.2 else 0).sum = (t.lookup k).elim 0 g := by
  rw [(hl.map _).sum_eq]
  obtain ⟨es, hn⟩ := t
  change (es.map fun e => if e.1 = k then g e.2 else 0).sum = (es.dlookup k).elim 0 g
  clear hl
  induction es with
  | nil => rfl
  | cons e es ih =>
    rw [List.map_cons, List.sum_cons, ih (List.nodupKeys_of_nodupKeys_cons hn)]
    obtain ⟨k', b⟩ := e
    by_cases h : k' = k
    · subst h
      have hm := List.notMem_keys_of_nodupKeys_cons hn
      rw [List.dlookup_eq_none.mpr hm, List.dlookup_cons_eq]
      simp
    · rw [List.dlookup_cons_ne (β := fun _ => β) es ⟨k', b⟩ (Ne.symm h)]
      simp [h]

/-- The same sum through `read`, for a measure that is zero on the default. -/
theorem sum_entries_read {M : Type} [AddCommMonoid M] (t : Table κ β) (k : κ) (g : β → M)
    (h0 : g default = 0) (l : List (Sigma fun _ : κ => β)) (hl : l.Perm t.entries) :
    (l.map fun e => if e.1 = k then g e.2 else 0).sum = g (t.read k) := by
  rw [sum_entries t k g l hl]
  unfold Table.read
  cases t.lookup k with
  | none => exact h0.symm
  | some b => rfl

/-- Where a measure that is zero on the default is not zero, an entry stands. -/
theorem entry_of_measure {M : Type} [Zero M] {t : Table κ β} {k : κ} {g : β → M}
    (h0 : g default = 0) (h : g (t.read k) ≠ 0) :
    (⟨k, t.read k⟩ : Sigma fun _ : κ => β) ∈ t.entries := by
  rw [← AList.mem_lookup_iff]
  unfold Table.read at h ⊢
  cases hl : t.lookup k with
  | none =>
    rw [hl] at h
    exact absurd h0 h
  | some b => rfl

/-- A measure summed over all entries. -/
def total {M : Type} [AddCommMonoid M] (t : Table κ β) (g : β → M) : M :=
  (t.entries.map fun e => g e.2).sum

omit [DecidableEq κ] [Inhabited β] in
@[simp] theorem total_empty {M : Type} [AddCommMonoid M] (g : β → M) :
    Table.total (∅ : Table κ β) g = 0 := rfl

/-- One entry set apart from the rest; a missing one counts for nothing. -/
theorem total_split {M : Type} [AddCommMonoid M] (t : Table κ β) (k : κ) (g : β → M)
    (h0 : g default = 0) :
    t.total g = g (t.read k) + ((t.entries.kerase k).map fun e => g e.2).sum := by
  obtain ⟨es, hn⟩ := t
  change (es.map fun e => g e.2).sum =
    g ((es.dlookup k).getD default) + ((es.kerase k).map fun e => g e.2).sum
  by_cases hk : k ∈ es.keys
  · obtain ⟨b, l₁, l₂, hl, he, hr⟩ := List.exists_of_kerase hk
    have hb : es.dlookup k = some b := List.mem_dlookup hn (by rw [he]; simp)
    rw [hb, hr, he, List.map_append, List.sum_append, List.map_cons, List.sum_cons,
      List.map_append, List.sum_append]
    exact add_left_comm _ _ _
  · rw [List.dlookup_eq_none.mpr hk, List.kerase_of_notMem_keys hk]
    change _ = g default + _
    rw [h0, zero_add]

/-- An update that raises a measure by `d` raises its sum by `d`. -/
theorem total_modify {M : Type} [AddCommMonoid M] (t : Table κ β) (k : κ) {f : β → β} {g : β → M}
    {d : M} (h0 : g default = 0) (hf : ∀ b, g (f b) = g b + d) :
    (t.modify k f).total g = t.total g + d := by
  have he : (t.modify k f).total g =
      g (f (t.read k)) + ((t.entries.kerase k).map fun e => g e.2).sum := by
    unfold Table.total Table.modify
    rw [AList.entries_insert, List.map_cons, List.sum_cons]
  rw [he, hf, total_split t k g h0, add_right_comm]

end Table

end CdrProcessor
