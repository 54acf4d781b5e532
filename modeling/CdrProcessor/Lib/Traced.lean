import CdrProcessor.Lib.Script

/-!
Programs that log the requests they make, a request being answered or not by its number and
itself.  `Traced` says that a program goes on only as long as its requests are answered: it
always has a result, and reports a failure exactly when the last request it made was the one
that was not answered.
-/

namespace CdrProcessor.Script

variable {ρ α β : Type} {served : Nat → ρ → Bool}

/-- The requests from number `n` on, all of them answered, or all but the last. -/
inductive Trace (served : Nat → ρ → Bool) : Nat → List ρ → Bool → Prop
  | done (n : Nat) : Trace served n [] true
  | refused {n : Nat} {request : ρ} (h : served n request = false) :
      Trace served n [request] false
  | step {n : Nat} {request : ρ} {rest : List ρ} {ok : Bool} (h : served n request = true)
      (hrest : Trace served (n + 1) rest ok) : Trace served n (request :: rest) ok

theorem Trace.append {n : Nat} {requests more : List ρ} {ok : Bool}
    (h : Trace served n requests true) (hmore : Trace served (n + requests.length) more ok) :
    Trace served n (requests ++ more) ok := by
  generalize hok : true = all at h
  induction h with
  | done n => simpa using hmore
  | refused h => cases hok
  | @step n request rest _ hr _ ih =>
    refine .step hr (ih ?_ hok)
    rwa [List.length_cons, show n + (rest.length + 1) = n + 1 + rest.length by omega] at hmore

/-- Every request but the last was answered. -/
theorem Trace.before_last {n : Nat} {requests : List ρ} {ok : Bool}
    (h : Trace served n requests ok) {i : Nat} {request : ρ} (hi : requests[i]? = some request)
    (hlast : i + 1 < requests.length) : served (n + i) request = true := by
  induction h generalizing i with
  | done n => cases hi
  | refused h => simp at hlast
  | @step n first rest ok hr _ ih =>
    cases i with
    | zero =>
      cases hi
      exact hr
    | succ i =>
      rw [show n + (i + 1) = n + 1 + i by omega]
      exact ih hi (by simpa using hlast)

/-- A failure is a request that was not answered. -/
theorem Trace.failed_iff {n : Nat} {requests : List ρ} {ok : Bool}
    (h : Trace served n requests ok) :
    ok = false ↔ ∃ i request, requests[i]? = some request ∧ served (n + i) request = false := by
  induction h with
  | done n => simp
  | @refused n request h => exact iff_of_true rfl ⟨0, request, rfl, h⟩
  | @step n first rest ok hr _ ih =>
    rw [ih]
    constructor
    · rintro ⟨i, request, hi, h⟩
      exact ⟨i + 1, request, hi, by rwa [show n + (i + 1) = n + 1 + i by omega]⟩
    · rintro ⟨i, request, hi, h⟩
      cases i with
      | zero =>
        cases hi
        rw [Nat.add_zero, hr] at h
        cases h
      | succ i => exact ⟨i, request, hi, by rwa [show n + (i + 1) = n + 1 + i by omega] at h⟩

/-- Requests under other names. -/
theorem Trace.map {σ : Type} {served' : Nat → σ → Bool} {f : ρ → σ} {n : Nat}
    {requests : List ρ} {ok : Bool} (h : Trace served n requests ok)
    (hf : ∀ n request, served' n (f request) = served n request) :
    Trace served' n (requests.map f) ok := by
  induction h with
  | done n => exact .done n
  | refused h => exact .refused ((hf _ _).trans h)
  | step h _ ih => exact .step ((hf _ _).trans h) ih

/-- From any log the program returns, its result meets `post`, and `ok` of the result tells
whether every request it made was answered. -/
def Traced (served : Nat → ρ → Bool) (x : StateT (List ρ) Option α) (ok : α → Bool)
    (post : α → Prop) : Prop :=
  ∀ log, ∃ a requests, x log = some (a, log ++ requests) ∧
    Trace served log.length requests (ok a) ∧ post a

variable {x : StateT (List ρ) Option α} {k : α → StateT (List ρ) Option β} {ok : α → Bool}
  {ok' : β → Bool} {post post' : α → Prop} {Q : β → Prop}

theorem Traced.pure {a : α} (hok : ok a = true) (hpost : post a) :
    Traced served (pure a) ok post :=
  fun log => ⟨a, [], by rw [List.append_nil]; rfl, hok ▸ .done _, hpost⟩

theorem Traced.imp (h : Traced served x ok post) (hpost : ∀ a, post a → post' a) :
    Traced served x ok post' := by
  intro log
  obtain ⟨a, requests, hrun, ht, ha⟩ := h log
  exact ⟨a, requests, hrun, ht, hpost a ha⟩

/-- One program behind another one, which is left at once when that one failed. -/
theorem Traced.bind (hx : Traced served x ok post)
    (hgo : ∀ a, post a → ok a = true → Traced served (k a) ok' Q)
    (hstop : ∀ a, post a → ok a = false → ∃ b, k a = Pure.pure b ∧ ok' b = false ∧ Q b) :
    Traced served (x >>= k) ok' Q := by
  intro log
  obtain ⟨a, requests, hrun, ht, ha⟩ := hx log
  cases hok : ok a with
  | true =>
    rw [hok] at ht
    obtain ⟨b, more, hrun', ht', hb⟩ := hgo a ha hok (log ++ requests)
    refine ⟨b, requests ++ more, ?_, ht.append ?_, hb⟩
    · rw [bind_of_eq_some hrun, hrun', List.append_assoc]
    · rwa [List.length_append] at ht'
  | false =>
    rw [hok] at ht
    obtain ⟨b, hk, hb, hq⟩ := hstop a ha hok
    exact ⟨b, requests, by rw [bind_of_eq_some hrun, hk]; rfl, hb ▸ ht, hq⟩

/-- A single request. -/
theorem Traced.ask {request : ρ} (answer : Nat → Option α)
    (hanswer : ∀ n, served n request = (answer n).isSome) :
    Traced served (fun log => some (answer log.length, log ++ [request])) Option.isSome
      fun _ => True := by
  intro log
  refine ⟨_, _, rfl, ?_, trivial⟩
  rw [← hanswer]
  cases hs : served log.length request with
  | true => exact .step hs (.done _)
  | false => exact .refused hs

end CdrProcessor.Script
