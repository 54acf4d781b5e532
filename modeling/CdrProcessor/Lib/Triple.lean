import CdrProcessor.Lib.Script

/-! Pre- and postconditions of programs in `StateT σ Option`: from a state that meets the one
the program comes to an end, in a state that meets the other.  A program that would be stuck
has no such postcondition. -/

namespace CdrProcessor.Script

variable {σ α β : Type}

/-- Total correctness. -/
def Triple (P : σ → Prop) (x : StateT σ Option α) (Q : α → σ → Prop) : Prop :=
  ∀ s, P s → ∃ a t, x s = some (a, t) ∧ Q a t

variable {P P' : σ → Prop} {x : StateT σ Option α} {k : α → StateT σ Option β}
  {Q Q' : α → σ → Prop} {T : β → σ → Prop}

theorem Triple.pure {a : α} (h : ∀ s, P s → Q a s) : Triple P (pure a) Q :=
  fun s hs => ⟨a, s, rfl, h s hs⟩

theorem Triple.bind (hx : Triple P x Q) (hk : ∀ a, Triple (Q a) (k a) T) :
    Triple P (x >>= k) T := by
  intro s hs
  obtain ⟨a, t, hrun, ha⟩ := hx s hs
  obtain ⟨b, u, hrun', hb⟩ := hk a t ha
  exact ⟨b, u, by rw [bind_of_eq_some hrun, hrun'], hb⟩

theorem Triple.imp (hx : Triple P x Q) (hP : ∀ s, P' s → P s) (hQ : ∀ a s, Q a s → Q' a s) :
    Triple P' x Q' := by
  intro s hs
  obtain ⟨a, t, hrun, ha⟩ := hx s (hP s hs)
  exact ⟨a, t, hrun, hQ a t ha⟩

theorem Triple.get_bind {f : σ → StateT σ Option β} (h : ∀ s, P s → Triple (· = s) (f s) T) :
    Triple P ((get : StateT σ Option σ) >>= f) T :=
  fun s hs => h s hs s rfl

theorem Triple.modify_bind {g : σ → σ} {R : σ → Prop} {f : PUnit → StateT σ Option β}
    (hg : ∀ s, P s → R (g s)) (hf : Triple R (f ⟨⟩) T) :
    Triple P ((modify g : StateT σ Option PUnit) >>= f) T :=
  fun s hs => hf (g s) (hg s hs)

theorem Triple.modify {g : σ → σ} {R : σ → Prop} (h : ∀ s, P s → R (g s)) :
    Triple P (modify g : StateT σ Option PUnit) fun _ => R :=
  fun s hs => ⟨⟨⟩, g s, rfl, h s hs⟩

end CdrProcessor.Script
