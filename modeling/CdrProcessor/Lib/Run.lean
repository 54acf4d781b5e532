import Mathlib.Data.List.Induction

/-! Runs of a step function whose steps all meet a condition, and the rule that an
invariant of the step is one of the run. -/

namespace CdrProcessor

variable {σ α : Type}

/-- From one state to another by the given acts, each of them allowed where it is taken. -/
inductive Run (step : σ → α → Option σ) (allowed : σ → α → Prop) : σ → List α → σ → Prop where
  | nil (s : σ) : Run step allowed s [] s
  | cons {s s' t : σ} {a : α} {acts : List α} (ha : allowed s a) (hs : step s a = some s')
      (ht : Run step allowed s' acts t) : Run step allowed s (a :: acts) t

variable {step : σ → α → Option σ} {allowed : σ → α → Prop}

/-- **The invariant rule.** -/
theorem Run.invariant {Inv : σ → Prop}
    (h : ∀ s a s', Inv s → allowed s a → step s a = some s' → Inv s')
    {s t : σ} {acts : List α} (hr : Run step allowed s acts t) (hs : Inv s) : Inv t := by
  induction hr with
  | nil => exact hs
  | cons ha hst _ ih => exact ih (h _ _ _ hs ha hst)

theorem Run.append {s t u : σ} {acts acts' : List α} (hr : Run step allowed s acts t)
    (hr' : Run step allowed t acts' u) : Run step allowed s (acts ++ acts') u := by
  induction hr with
  | nil => exact hr'
  | cons ha hs _ ih => exact .cons ha hs (ih hr')

theorem Run.split {s u : σ} {acts acts' : List α} (hr : Run step allowed s (acts ++ acts') u) :
    ∃ t, Run step allowed s acts t ∧ Run step allowed t acts' u := by
  induction acts generalizing s with
  | nil => exact ⟨s, .nil s, hr⟩
  | cons a acts ih =>
    cases hr with
    | cons ha hs hr =>
      obtain ⟨t, ht, hu⟩ := ih hr
      exact ⟨t, .cons ha hs ht, hu⟩

/-- The same acts lead to the same state. -/
theorem Run.unique {allowed' : σ → α → Prop} {s t t' : σ} {acts : List α}
    (hr : Run step allowed s acts t) (hr' : Run step allowed' s acts t') : t = t' := by
  induction hr with
  | nil => cases hr'; rfl
  | cons ha hs _ ih =>
    cases hr' with
    | cons ha' hs' hr' =>
      rw [hs] at hs'
      cases hs'
      exact ih hr'

theorem Run.mono {allowed' : σ → α → Prop} (h : ∀ s a, allowed s a → allowed' s a) {s t : σ}
    {acts : List α} (hr : Run step allowed s acts t) : Run step allowed' s acts t := by
  induction hr with
  | nil s => exact .nil s
  | cons ha hs _ ih => exact .cons (h _ _ ha) hs ih

/-- The last act of a run. -/
theorem Run.last {s u : σ} {acts : List α} {a : α} (hr : Run step allowed s (acts ++ [a]) u) :
    ∃ t, Run step allowed s acts t ∧ allowed t a ∧ step t a = some u := by
  obtain ⟨t, ht, hu⟩ := hr.split
  cases hu with
  | cons ha hs hu =>
    cases hu
    exact ⟨t, ht, ha, hs⟩

/-- An act in the middle of a run was allowed in the state it was taken in. -/
theorem Run.allowed_at {allowed' : σ → α → Prop} {s t u : σ} {pre post : List α} {a : α}
    (hr : Run step allowed s (pre ++ a :: post) u) (ht : Run step allowed' s pre t) :
    allowed t a := by
  obtain ⟨t', ht', hu⟩ := hr.split
  rw [ht.unique ht']
  cases hu with
  | cons ha _ _ => exact ha

/-- **The history rule for acts.**  A run meets a condition if each act does that comes
behind a part of the run that met it. -/
theorem Run.allow {allowed' : σ → α → Prop} {s t : σ} {acts : List α}
    (hr : Run step allowed s acts t)
    (h : ∀ pre a post u u', acts = pre ++ a :: post → Run step allowed s pre u →
      allowed u a → step u a = some u' → allowed' u a) : Run step allowed' s acts t := by
  induction acts using List.reverseRecOn generalizing t with
  | nil => cases hr; exact .nil s
  | append_singleton acts a ih =>
    obtain ⟨u, hu, ha, hs⟩ := hr.last
    refine (ih hu fun pre b post v v' he => h pre b (post ++ [a]) v v' ?_).append
      (.cons (h acts a [] u t rfl hu ha hs) hs (.nil t))
    rw [he, List.append_assoc]
    rfl

/-- **The history rule for states.**  What holds at the end of a run and not at its start
began with one of its acts, and none of those behind it is one that ends it. -/
theorem Run.since {s t : σ} {acts : List α} (hr : Run step allowed s acts t) (mark : σ → Prop)
    (begins : σ → α → Prop) (ends : α → Prop) (h0 : ¬ mark s)
    (h : ∀ pre u a u', Run step allowed s pre u → allowed u a → step u a = some u' → mark u' →
      begins u a ∨ mark u ∧ ¬ ends a) (hm : mark t) :
    ∃ pre a mid u, acts = pre ++ a :: mid ∧ Run step allowed s pre u ∧ begins u a ∧
      ∀ b ∈ mid, ¬ ends b := by
  induction acts using List.reverseRecOn generalizing t with
  | nil =>
    cases hr
    exact absurd hm h0
  | append_singleton acts a ih =>
    obtain ⟨u, hu, ha, hs⟩ := hr.last
    rcases h acts u a t hu ha hs hm with hb | ⟨hmark, hend⟩
    · exact ⟨acts, a, [], u, rfl, hu, hb, by simp⟩
    · obtain ⟨pre, b, mid, v, rfl, hv, hb, hmid⟩ := ih hu hmark
      refine ⟨pre, b, mid ++ [a], v, by simp, hv, hb, fun c hc => ?_⟩
      rcases List.mem_append.mp hc with hc | hc
      · exact hmid c hc
      · rw [List.mem_singleton.mp hc]
        exact hend

/-- **The counting rule.**  What a run brings from each number to the next, a run brings to
any number. -/
theorem Run.climb {P : Nat → σ → Prop} {n : Nat}
    (h : ∀ k < n, ∀ s, P k s → ∃ acts t, Run step allowed s acts t ∧ P (k + 1) t)
    {s : σ} (hs : P 0 s) : ∃ acts t, Run step allowed s acts t ∧ P n t := by
  induction n with
  | zero => exact ⟨[], s, .nil s, hs⟩
  | succ n ih =>
    obtain ⟨acts, t, hr, ht⟩ := ih fun k hk => h k (Nat.lt_succ_of_lt hk)
    obtain ⟨acts', u, hr', hu⟩ := h n (Nat.lt_succ_self n) t ht
    exact ⟨acts ++ acts', u, hr.append hr', hu⟩

/-- The acts taken one after the other, as far as each of them passes a check. -/
def runChecked (step : σ → α → Option σ) (check : σ → α → Bool) : σ → List α → Option σ
  | s, [] => some s
  | s, a :: acts =>
    if check s a then (step s a).bind fun s' => runChecked step check s' acts else none

theorem Run.of_checked {check : σ → α → Bool} (hc : ∀ s a, check s a = true → allowed s a)
    {s t : σ} {acts : List α} (h : runChecked step check s acts = some t) :
    Run step allowed s acts t := by
  induction acts generalizing s with
  | nil => cases h; exact .nil t
  | cons a acts ih =>
    unfold runChecked at h
    split at h
    · next ha =>
      obtain ⟨s', hs, ht⟩ := Option.bind_eq_some_iff.mp h
      exact .cons (hc s a ha) hs (ih ht)
    · cases h

end CdrProcessor
