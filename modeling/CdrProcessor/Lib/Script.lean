import Mathlib.Data.Option.Basic

/-! Programs in `StateT σ Option`: a run that gets stuck has no result.  The
rules take a run that has one apart, step by step. -/

namespace CdrProcessor.Script

variable {σ α β : Type}

theorem bind_eq_some {x : StateT σ Option α} {f : α → StateT σ Option β} {s : σ} {r : β × σ} :
    (x >>= f) s = some r ↔ ∃ a t, x s = some (a, t) ∧ f a t = some r := by
  change (x s).bind (fun p => f p.1 p.2) = some r ↔ _
  rw [Option.bind_eq_some_iff]
  constructor
  · rintro ⟨⟨a, t⟩, hx, hf⟩; exact ⟨a, t, hx, hf⟩
  · rintro ⟨a, t, hx, hf⟩; exact ⟨⟨a, t⟩, hx, hf⟩

@[simp] theorem pure_apply (a : α) (s : σ) : (pure a : StateT σ Option α) s = some (a, s) := rfl

@[simp] theorem get_bind (f : σ → StateT σ Option β) (s : σ) :
    ((get : StateT σ Option σ) >>= f) s = f s s := rfl

@[simp] theorem modify_bind (g : σ → σ) (f : PUnit → StateT σ Option β) (s : σ) :
    ((modify g : StateT σ Option PUnit) >>= f) s = f ⟨⟩ (g s) := rfl

/-- A step whose result is known is run. -/
theorem bind_of_eq_some {x : StateT σ Option α} {f : α → StateT σ Option β} {s t : σ} {a : α}
    (h : x s = some (a, t)) : (x >>= f) s = f a t := by
  change (x s).bind (fun p => f p.1 p.2) = f a t
  rw [h]
  rfl

/-! ## What every run stays within -/

/-- Whatever a program returns, it takes a state only to one that `R` relates it to. -/
def Within (R : σ → σ → Prop) (x : StateT σ Option α) : Prop :=
  ∀ s a t, x s = some (a, t) → R s t

/-- Relations that programs can be put together under. -/
structure Stable (R : σ → σ → Prop) : Prop where
  refl : ∀ s, R s s
  trans : ∀ s t u, R s t → R t u → R s u

variable {R : σ → σ → Prop}

theorem Within.pure (hR : Stable R) (a : α) : Within R (pure a : StateT σ Option α) := by
  intro s b t h
  cases h
  exact hR.refl s

theorem Within.get (hR : Stable R) : Within R (get : StateT σ Option σ) := by
  intro s b t h
  cases h
  exact hR.refl s

theorem Within.modify {g : σ → σ} (hg : ∀ s, R s (g s)) :
    Within R (modify g : StateT σ Option PUnit) := by
  intro s b t h
  cases h
  exact hg s

theorem Within.bind (hR : Stable R) {x : StateT σ Option α} {k : α → StateT σ Option β}
    (hx : Within R x) (hk : ∀ a, Within R (k a)) : Within R (x >>= k) := by
  intro s b t h
  obtain ⟨a, u, h1, h2⟩ := bind_eq_some.mp h
  exact hR.trans s u t (hx s a u h1) (hk a u b t h2)

theorem Within.ite {c : Prop} [Decidable c] {x y : StateT σ Option α} (hx : Within R x)
    (hy : Within R y) : Within R (if c then x else y) := by
  split
  · exact hx
  · exact hy

end CdrProcessor.Script
