import CdrProcessor.Lib.Table
import Mathlib.Logic.Function.Basic

/-! Flat directories: in each of them, names with the number of the file they stand for.
A rename takes a file from one name to another, over whatever stood there. -/

namespace CdrProcessor

/-- The names in each directory. -/
abbrev Dirs (δ ν : Type) := δ → Table ν Nat

namespace Dirs

variable {δ ν : Type} [DecidableEq δ] [DecidableEq ν]

/-- The file under a name. -/
def find (n : Dirs δ ν) (d : δ) (f : ν) : Option Nat := (n d).lookup f

def link (n : Dirs δ ν) (d : δ) (f : ν) (i : Nat) : Dirs δ ν :=
  Function.update n d ((n d).insert f i)

def unlink (n : Dirs δ ν) (d : δ) (f : ν) : Dirs δ ν := Function.update n d ((n d).erase f)

/-- `rename` of the file `i`. -/
def move (n : Dirs δ ν) (d : δ) (f : ν) (d' : δ) (f' : ν) (i : Nat) : Dirs δ ν :=
  (n.unlink d f).link d' f' i

/-- A directory as it is listed. -/
def listing (n : Dirs δ ν) (d : δ) : List (ν × Nat) := (n d).entries.map fun e => (e.1, e.2)

variable {n : Dirs δ ν} {d d' e e' : δ} {f f' g g' : ν} {i j : Nat}

theorem find_link : (n.link d f i).find e g = if e = d ∧ g = f then some i else n.find e g := by
  unfold Dirs.link Dirs.find
  by_cases hd : e = d
  · subst hd
    rw [Function.update_self]
    by_cases hf : g = f
    · subst hf
      rw [AList.lookup_insert, if_pos ⟨rfl, rfl⟩]
    · rw [AList.lookup_insert_ne hf, if_neg fun h => hf h.2]
  · rw [Function.update_of_ne hd, if_neg fun h => hd h.1]

theorem find_unlink : (n.unlink d f).find e g = if e = d ∧ g = f then none else n.find e g := by
  unfold Dirs.unlink Dirs.find
  by_cases hd : e = d
  · subst hd
    rw [Function.update_self]
    by_cases hf : g = f
    · subst hf
      rw [AList.lookup_erase, if_pos ⟨rfl, rfl⟩]
    · rw [AList.lookup_erase_ne hf, if_neg fun h => hf h.2]
  · rw [Function.update_of_ne hd, if_neg fun h => hd h.1]

theorem find_move : (n.move d f d' f' i).find e g =
    if e = d' ∧ g = f' then some i else if e = d ∧ g = f then none else n.find e g := by
  unfold Dirs.move
  rw [find_link, find_unlink]

omit [DecidableEq δ] in
theorem mem_listing : (g, j) ∈ n.listing d ↔ n.find d g = some j := by
  unfold Dirs.listing Dirs.find
  rw [List.mem_map]
  constructor
  · rintro ⟨⟨g', j'⟩, hm, he⟩
    cases he
    exact AList.mem_lookup_iff.mpr hm
  · intro h
    exact ⟨⟨g, j⟩, AList.mem_lookup_iff.mp h, rfl⟩

/-! ## One name for each file -/

/-- No file is under two names. -/
def Apart (n : Dirs δ ν) : Prop :=
  ∀ d f d' f' i, n.find d f = some i → n.find d' f' = some i → d = d' ∧ f = f'

/-- No name is in two directories. -/
def OnePlace (n : Dirs δ ν) : Prop :=
  ∀ f d d' i j, n.find d f = some i → n.find d' f = some j → d = d'

/-- In no directory. -/
def Unused (n : Dirs δ ν) (f : ν) : Prop := ∀ d, n.find d f = none

/-- What is under a name after a rename was under it before, or is the file renamed. -/
theorem of_find_move (h : (n.move d f d' f' i).find e g = some j) :
    (e = d' ∧ g = f' ∧ j = i) ∨ ¬ (e = d ∧ g = f) ∧ n.find e g = some j := by
  rw [find_move] at h
  split at h
  · next he =>
    cases h
    exact .inl ⟨he.1, he.2, rfl⟩
  · split at h
    · cases h
    · next hne => exact .inr ⟨hne, h⟩

theorem of_find_link (h : (n.link d f i).find e g = some j) :
    (e = d ∧ g = f ∧ j = i) ∨ n.find e g = some j := by
  rw [find_link] at h
  split at h
  · next he =>
    cases h
    exact .inl ⟨he.1, he.2, rfl⟩
  · exact .inr h

theorem Apart.move (h : n.Apart) (hi : n.find d f = some i) : (n.move d f d' f' i).Apart := by
  intro e g e' g' j hj hj'
  rcases of_find_move hj with ⟨he, hg, hji⟩ | ⟨hne, hj⟩ <;>
    rcases of_find_move hj' with ⟨he', hg', hji'⟩ | ⟨hne', hj'⟩
  · exact ⟨he.trans he'.symm, hg.trans hg'.symm⟩
  · rw [hji] at hj'
    exact absurd (h _ _ _ _ _ hj' hi) hne'
  · rw [hji'] at hj
    exact absurd (h _ _ _ _ _ hj hi) hne
  · exact h _ _ _ _ _ hj hj'

/-- A file that is under no name yet gets one. -/
theorem Apart.link (h : n.Apart) (hi : ∀ e g, n.find e g ≠ some i) : (n.link d f i).Apart := by
  intro e g e' g' j hj hj'
  rcases of_find_link hj with ⟨he, hg, hji⟩ | hj <;>
    rcases of_find_link hj' with ⟨he', hg', hji'⟩ | hj'
  · exact ⟨he.trans he'.symm, hg.trans hg'.symm⟩
  · rw [hji] at hj'
    exact absurd hj' (hi _ _)
  · rw [hji'] at hj
    exact absurd hj (hi _ _)
  · exact h _ _ _ _ _ hj hj'

/-- From one directory to another under the same name. -/
theorem OnePlace.move (h : n.OnePlace) (hi : n.find d f = some i) :
    (n.move d f d' f i).OnePlace := by
  have hno : ∀ {e g j}, g = f → ¬ (e = d ∧ g = f) → n.find e g ≠ some j := by
    rintro e g j rfl hne hj
    exact hne ⟨h _ _ _ _ _ hj hi, rfl⟩
  intro g e e' j j' hj hj'
  rcases of_find_move hj with ⟨he, hg, -⟩ | ⟨hne, hj⟩ <;>
    rcases of_find_move hj' with ⟨he', hg', -⟩ | ⟨hne', hj'⟩
  · exact he.trans he'.symm
  · exact absurd hj' (hno hg hne')
  · exact absurd hj (hno hg' hne)
  · exact h _ _ _ _ _ hj hj'

theorem OnePlace.unlink (h : n.OnePlace) : (n.unlink d f).OnePlace := by
  intro g e e' j j' hj hj'
  rw [find_unlink] at hj hj'
  split at hj
  · cases hj
  · split at hj'
    · cases hj'
    · exact h _ _ _ _ _ hj hj'

/-- Under a name that is in no directory. -/
theorem OnePlace.link (h : n.OnePlace) (hf : n.Unused f) : (n.link d f i).OnePlace := by
  intro g e e' j j' hj hj'
  rcases of_find_link hj with ⟨he, hg, -⟩ | hj <;> rcases of_find_link hj' with ⟨he', hg', -⟩ | hj'
  · exact he.trans he'.symm
  · rw [hg, hf] at hj'
    cases hj'
  · rw [hg', hf] at hj
    cases hj
  · exact h _ _ _ _ _ hj hj'

end Dirs

end CdrProcessor
