import CdrProcessor.Lib.Run
import Mathlib.Data.List.Nodup
import Mathlib.Data.List.Range
import Mathlib.Logic.Function.Basic

/-! `ThreadPool`: a bounded queue, the loop of its workers, calls of `submit` from outside
and from inside a running task, and the destructor.  Every step is one hold of the mutex,
or one notification. -/

namespace CdrProcessor.ThreadPool

/-! ## The pool -/

/-- What the constructor takes. -/
structure Size where
  workers : Nat
  capacity : Nat
  workers_pos : 0 < workers
  capacity_pos : 0 < capacity

/-- The check of the constructor, which throws when there is to be no worker or no slot. -/
def Size.make (workersCount capacity : Nat) : Option Size :=
  if h : 0 < workersCount ∧ 0 < capacity then
    some { workers := workersCount, capacity, workers_pos := h.1, capacity_pos := h.2 }
  else none

/-- Who calls `submit`: a thread outside the pool, or the task a worker runs. -/
inductive Caller where
  | producer (p : Nat)
  | worker (i : Nat)
  deriving DecidableEq, Repr

/-- Where a caller is in `submit`: at the lock or asleep behind it, or past the push. -/
inductive Call where
  | idle
  | asking (task : Nat)
  | pushed (task : Nat)
  deriving DecidableEq, Repr

/-- Where a worker is in `run`: at the lock or asleep behind it, past the pop, inside the
task, or out of the loop. -/
inductive Loop where
  | ready
  | popped (task : Nat)
  | running (task : Nat)
  | exited
  deriving DecidableEq, Repr

/-- How far the destructor has come. -/
inductive Closing where
  | up | stopped | toldWorkers | joining | gone
  deriving DecidableEq, Repr

/-- Tasks are numbered as their calls begin.  `accepted`, `returned`, `taken` and `finished`
are histories: the tasks pushed, what each call returned, the tasks popped, and those that
came to an end. -/
structure Pool where
  queue : List Nat := []
  stop : Bool := false
  loops : Nat → Loop := fun _ => .ready
  calls : Caller → Call := fun _ => .idle
  /-- Asleep in `m_cv_empty.wait`. -/
  cvEmpty : List Nat := []
  /-- Asleep in `m_cv_full.wait`. -/
  cvFull : List Caller := []
  closing : Closing := .up
  next : Nat := 0
  accepted : List Nat := []
  returned : List (Nat × Bool) := []
  taken : List Nat := []
  finished : List Nat := []

/-- `notify_one`: some sleeper, when there is one. -/
def notifyOne {α : Type} [DecidableEq α] (asleep : List α) : Option α → Option (List α)
  | none => if asleep = [] then some [] else none
  | some x => if x ∈ asleep then some (asleep.erase x) else none

/-! ## Steps -/

inductive Act where
  /-- A call of `submit` begins. -/
  | submit (c : Caller)
  /-- The predicate of `m_cv_full.wait` under the lock, and what follows it. -/
  | checkFull (c : Caller)
  | notifyEmpty (c : Caller) (woken : Option Nat)
  /-- The predicate of `m_cv_empty.wait` under the lock, and what follows it. -/
  | checkEmpty (i : Nat)
  | notifyFull (i : Nat) (woken : Option Caller)
  /-- A task returns, or throws and is caught. -/
  | finish (i : Nat) (threw : Bool)
  /-- A wake-up without a notification. -/
  | wakeWorker (i : Nat)
  | wakeCaller (c : Caller)
  /-- The destructor sets the flag, tells both sides, and joins. -/
  | stop
  | notifyAllEmpty
  | notifyAllFull
  | join
  deriving DecidableEq, Repr

def Loop.isRunning : Loop → Bool
  | .running _ => true
  | _ => false

/-- A task submits while it runs; outside anyone does as long as there is a pool. -/
def Pool.mayCall (s : Pool) : Caller → Bool
  | .producer _ => s.closing ≠ .gone
  | .worker i => (s.loops i).isRunning

def Pool.setCall (s : Pool) (c : Caller) (call : Call) : Pool :=
  { s with calls := Function.update s.calls c call }

def Pool.setLoop (s : Pool) (i : Nat) (loop : Loop) : Pool :=
  { s with loops := Function.update s.loops i loop }

@[simp] theorem Pool.setLoop_self (s : Pool) (i : Nat) (loop : Loop) :
    (s.setLoop i loop).loops i = loop := Function.update_self ..

theorem Pool.setLoop_of_ne (s : Pool) {i j : Nat} (h : j ≠ i) (loop : Loop) :
    (s.setLoop i loop).loops j = s.loops j := Function.update_of_ne h ..

@[simp] theorem Pool.setCall_self (s : Pool) (c : Caller) (call : Call) :
    (s.setCall c call).calls c = call := Function.update_self ..

theorem Pool.setCall_of_ne (s : Pool) {c c' : Caller} (h : c' ≠ c) (call : Call) :
    (s.setCall c call).calls c' = s.calls c' := Function.update_of_ne h ..

/-- The part of `submit` under the lock. -/
def Pool.checkFull (size : Size) (s : Pool) (c : Caller) : Option Pool :=
  match s.calls c with
  | .asking task =>
    if c ∈ s.cvFull then none
    else if s.stop then
      some { s.setCall c .idle with returned := s.returned ++ [(task, false)] }
    else if s.queue.length < size.capacity then
      some { s.setCall c (.pushed task) with
        queue := s.queue ++ [task], accepted := s.accepted ++ [task] }
    else some { s with cvFull := s.cvFull ++ [c] }
  | _ => none

/-- The part of `run` under the lock. -/
def Pool.checkEmpty (size : Size) (s : Pool) (i : Nat) : Option Pool :=
  if i < size.workers ∧ s.loops i = .ready ∧ i ∉ s.cvEmpty then
    match s.queue with
    | [] => some (if s.stop then s.setLoop i .exited else { s with cvEmpty := s.cvEmpty ++ [i] })
    | task :: queue => some { s.setLoop i (.popped task) with queue, taken := s.taken ++ [task] }
  else none

def step (size : Size) (s : Pool) : Act → Option Pool
  | .submit c =>
    if s.calls c = .idle ∧ s.mayCall c then
      some { s.setCall c (.asking s.next) with next := s.next + 1 }
    else none
  | .checkFull c => s.checkFull size c
  | .notifyEmpty c woken =>
    match s.calls c with
    | .pushed task => (notifyOne s.cvEmpty woken).map fun cvEmpty =>
      { s.setCall c .idle with cvEmpty, returned := s.returned ++ [(task, true)] }
    | _ => none
  | .checkEmpty i => s.checkEmpty size i
  | .notifyFull i woken =>
    match s.loops i with
    | .popped task => (notifyOne s.cvFull woken).map fun cvFull =>
      { s.setLoop i (.running task) with cvFull }
    | _ => none
  | .finish i _ =>
    match s.loops i with
    | .running task =>
      if s.calls (.worker i) = .idle then
        some { s.setLoop i .ready with finished := s.finished ++ [task] }
      else none
    | _ => none
  | .wakeWorker i =>
    if i ∈ s.cvEmpty then some { s with cvEmpty := s.cvEmpty.erase i } else none
  | .wakeCaller c =>
    if c ∈ s.cvFull then some { s with cvFull := s.cvFull.erase c } else none
  | .stop => if s.closing = .up then some { s with stop := true, closing := .stopped } else none
  | .notifyAllEmpty =>
    if s.closing = .stopped then some { s with cvEmpty := [], closing := .toldWorkers } else none
  | .notifyAllFull =>
    if s.closing = .toldWorkers then some { s with cvFull := [], closing := .joining } else none
  | .join =>
    if s.closing = .joining ∧ ∀ i < size.workers, s.loops i = .exited then
      some { s with closing := .gone }
    else none

/-! ## What a step does -/

variable {size : Size} {s s' : Pool} {c : Caller} {i : Nat}

theorem submit_cases (h : step size s (.submit c) = some s') :
    s.calls c = .idle ∧ s.mayCall c = true ∧
      s' = { s.setCall c (.asking s.next) with next := s.next + 1 } := by
  dsimp only [step] at h
  split at h
  · next hc => exact ⟨hc.1, hc.2, (Option.some.inj h).symm⟩
  · cases h

theorem checkFull_cases (h : s.checkFull size c = some s') :
    ∃ t, s.calls c = .asking t ∧ c ∉ s.cvFull ∧
      ((s.stop = true ∧
          s' = { s.setCall c .idle with returned := s.returned ++ [(t, false)] }) ∨
        (s.stop = false ∧ s.queue.length < size.capacity ∧
          s' = { s.setCall c (.pushed t) with
            queue := s.queue ++ [t], accepted := s.accepted ++ [t] }) ∨
        (s.stop = false ∧ size.capacity ≤ s.queue.length ∧
          s' = { s with cvFull := s.cvFull ++ [c] })) := by
  unfold Pool.checkFull at h
  split at h
  · next t ht =>
    refine ⟨t, ht, ?_⟩
    split at h
    · cases h
    · next hc =>
      refine ⟨hc, ?_⟩
      split at h
      · next hs => exact .inl ⟨hs, (Option.some.inj h).symm⟩
      · next hs =>
        rw [Bool.not_eq_true] at hs
        split at h
        · next hlt => exact .inr (.inl ⟨hs, hlt, (Option.some.inj h).symm⟩)
        · next hlt => exact .inr (.inr ⟨hs, Nat.not_lt.mp hlt, (Option.some.inj h).symm⟩)
  · cases h

theorem checkEmpty_cases (h : s.checkEmpty size i = some s') :
    (i < size.workers ∧ s.loops i = .ready ∧ i ∉ s.cvEmpty) ∧
      ((s.queue = [] ∧ s.stop = true ∧ s' = s.setLoop i .exited) ∨
        (s.queue = [] ∧ s.stop = false ∧ s' = { s with cvEmpty := s.cvEmpty ++ [i] }) ∨
        ∃ t queue, s.queue = t :: queue ∧
          s' = { s.setLoop i (.popped t) with queue, taken := s.taken ++ [t] }) := by
  unfold Pool.checkEmpty at h
  split at h
  · next hc =>
    refine ⟨hc, ?_⟩
    split at h
    · next hq =>
      cases hs : s.stop with
      | true =>
        rw [hs, if_pos rfl] at h
        exact .inl ⟨hq, rfl, (Option.some.inj h).symm⟩
      | false =>
        rw [hs, if_neg (by decide)] at h
        exact .inr (.inl ⟨hq, rfl, (Option.some.inj h).symm⟩)
    · next t queue hq => exact .inr (.inr ⟨t, queue, hq, (Option.some.inj h).symm⟩)
  · cases h

theorem notifyEmpty_cases {woken : Option Nat} (h : step size s (.notifyEmpty c woken) = some s') :
    ∃ t cvEmpty, s.calls c = .pushed t ∧ notifyOne s.cvEmpty woken = some cvEmpty ∧
      s' = { s.setCall c .idle with cvEmpty, returned := s.returned ++ [(t, true)] } := by
  dsimp only [step] at h
  split at h
  · next t hc =>
    obtain ⟨cvEmpty, hn, rfl⟩ := Option.map_eq_some_iff.mp h
    exact ⟨t, cvEmpty, hc, hn, rfl⟩
  · cases h

theorem notifyFull_cases {woken : Option Caller} (h : step size s (.notifyFull i woken) = some s') :
    ∃ t cvFull, s.loops i = .popped t ∧ notifyOne s.cvFull woken = some cvFull ∧
      s' = { s.setLoop i (.running t) with cvFull } := by
  dsimp only [step] at h
  split at h
  · next t hl =>
    obtain ⟨cvFull, hn, rfl⟩ := Option.map_eq_some_iff.mp h
    exact ⟨t, cvFull, hl, hn, rfl⟩
  · cases h

theorem finish_cases {threw : Bool} (h : step size s (.finish i threw) = some s') :
    ∃ t, s.loops i = .running t ∧ s.calls (.worker i) = .idle ∧
      s' = { s.setLoop i .ready with finished := s.finished ++ [t] } := by
  dsimp only [step] at h
  split at h
  · next t hl =>
    split at h
    · next hc => exact ⟨t, hl, hc, (Option.some.inj h).symm⟩
    · cases h
  · cases h

theorem wakeWorker_cases (h : step size s (.wakeWorker i) = some s') :
    i ∈ s.cvEmpty ∧ s' = { s with cvEmpty := s.cvEmpty.erase i } := by
  dsimp only [step] at h
  split at h
  · next hm => exact ⟨hm, (Option.some.inj h).symm⟩
  · cases h

theorem wakeCaller_cases (h : step size s (.wakeCaller c) = some s') :
    c ∈ s.cvFull ∧ s' = { s with cvFull := s.cvFull.erase c } := by
  dsimp only [step] at h
  split at h
  · next hm => exact ⟨hm, (Option.some.inj h).symm⟩
  · cases h

theorem stop_cases (h : step size s .stop = some s') :
    s.closing = .up ∧ s' = { s with stop := true, closing := .stopped } := by
  dsimp only [step] at h
  split at h
  · next hc => exact ⟨hc, (Option.some.inj h).symm⟩
  · cases h

theorem notifyAllEmpty_cases (h : step size s .notifyAllEmpty = some s') :
    s.closing = .stopped ∧ s' = { s with cvEmpty := [], closing := .toldWorkers } := by
  dsimp only [step] at h
  split at h
  · next hc => exact ⟨hc, (Option.some.inj h).symm⟩
  · cases h

theorem notifyAllFull_cases (h : step size s .notifyAllFull = some s') :
    s.closing = .toldWorkers ∧ s' = { s with cvFull := [], closing := .joining } := by
  dsimp only [step] at h
  split at h
  · next hc => exact ⟨hc, (Option.some.inj h).symm⟩
  · cases h

theorem join_cases (h : step size s .join = some s') :
    s.closing = .joining ∧ (∀ i < size.workers, s.loops i = .exited) ∧
      s' = { s with closing := .gone } := by
  dsimp only [step] at h
  split at h
  · next hc => exact ⟨hc.1, hc.2, (Option.some.inj h).symm⟩
  · cases h

/-! ## Steps that can be taken -/

section Taken

variable {t : Nat}

theorem step_refuse (hc : s.calls c = .asking t) (ha : c ∉ s.cvFull) (hs : s.stop = true) :
    step size s (.checkFull c) =
      some { s.setCall c .idle with returned := s.returned ++ [(t, false)] } := by
  change s.checkFull size c = _
  unfold Pool.checkFull
  rw [hc]
  dsimp only
  rw [if_neg ha, if_pos hs]

/-- Nobody is asleep to be woken. -/
theorem step_answer (hc : s.calls c = .pushed t) (hn : s.cvEmpty = []) :
    step size s (.notifyEmpty c none) =
      some { s.setCall c .idle with cvEmpty := [], returned := s.returned ++ [(t, true)] } := by
  dsimp only [step]
  rw [hc, hn]
  rfl

theorem step_exit (hi : i < size.workers) (hl : s.loops i = .ready) (ha : i ∉ s.cvEmpty)
    (hq : s.queue = []) (hs : s.stop = true) :
    step size s (.checkEmpty i) = some (s.setLoop i .exited) := by
  change s.checkEmpty size i = _
  unfold Pool.checkEmpty
  rw [if_pos ⟨hi, hl, ha⟩, hq, hs]
  rfl

theorem step_take {queue : List Nat} (hi : i < size.workers) (hl : s.loops i = .ready)
    (ha : i ∉ s.cvEmpty) (hq : s.queue = t :: queue) :
    step size s (.checkEmpty i) =
      some { s.setLoop i (.popped t) with queue, taken := s.taken ++ [t] } := by
  change s.checkEmpty size i = _
  unfold Pool.checkEmpty
  rw [if_pos ⟨hi, hl, ha⟩, hq]

theorem step_run (hl : s.loops i = .popped t) (hn : s.cvFull = []) :
    step size s (.notifyFull i none) = some { s.setLoop i (.running t) with cvFull := [] } := by
  dsimp only [step]
  rw [hl, hn]
  rfl

theorem step_finish (hl : s.loops i = .running t) (hc : s.calls (.worker i) = .idle)
    (threw : Bool) :
    step size s (.finish i threw) =
      some { s.setLoop i .ready with finished := s.finished ++ [t] } := by
  dsimp only [step]
  rw [hl]
  exact if_pos hc

end Taken

/-! ## What no step does -/

/-- What a step can do to the calls, the queue, the flag and the histories. -/
structure Change (size : Size) (s : Pool) (a : Act) (s' : Pool) : Prop where
  next : s'.next = s.next ∨ ∃ c, a = .submit c
  idle : ∀ c, s.calls c = .idle → s'.calls c = .idle ∨ a = .submit c
  refused : ∀ t, (t, false) ∈ s'.returned →
    (t, false) ∈ s.returned ∨ s.stop = true ∧ ∃ c, s.calls c ≠ .idle
  finished : ∀ t ∈ s'.finished, t ∈ s.finished ∨
    ∃ i threw, a = .finish i threw ∧ s.loops i = .running t
  queue : s.queue.length ≤ s'.queue.length ∧ s'.taken = s.taken ∨
    ∃ i, a = .checkEmpty i ∧ i < size.workers ∧ s.loops i = .ready
  stop : s'.stop = s.stop ∨ a = .stop ∧ s'.stop = true
  closing : s'.closing = s.closing ∨ s.closing ≠ .gone ∧ (s.closing = .up → a = .stop)

variable {a : Act}

/-- A step that is about who sleeps, or about a worker's loop. -/
theorem Change.of_same (hn : s'.next = s.next) (hc : s'.calls = s.calls)
    (hr : s'.returned = s.returned) (hf : s'.finished = s.finished) (hq : s'.queue = s.queue)
    (ht : s'.taken = s.taken) (hst : s'.stop = s.stop) (hcl : s'.closing = s.closing) :
    Change size s a s' where
  next := .inl hn
  idle c h := by rw [hc]; exact .inl h
  refused t h := by rw [hr] at h; exact .inl h
  finished t h := by rw [hf] at h; exact .inl h
  queue := by rw [hq]; exact .inl ⟨le_refl _, ht⟩
  stop := .inl hst
  closing := .inl hcl

/-- A call that goes on. -/
theorem Change.of_call {call : Call} (hc : s.calls c ≠ .idle)
    (hcalls : s'.calls = Function.update s.calls c call) (hn : s'.next = s.next)
    (hr : ∀ t, (t, false) ∈ s'.returned → (t, false) ∈ s.returned ∨ s.stop = true)
    (hf : s'.finished = s.finished) (hq : s.queue.length ≤ s'.queue.length)
    (ht : s'.taken = s.taken) (hst : s'.stop = s.stop) (hcl : s'.closing = s.closing) :
    Change size s a s' where
  next := .inl hn
  idle c' h := by
    rw [hcalls, Function.update_of_ne]
    · exact .inl h
    · rintro rfl
      exact hc h
  refused t h := (hr t h).imp id fun hstop => ⟨hstop, c, hc⟩
  finished t h := by rw [hf] at h; exact .inl h
  queue := .inl ⟨hq, ht⟩
  stop := .inl hst
  closing := .inl hcl

theorem change_of_step (hs : step size s a = some s') : Change size s a s' := by
  cases a with
  | submit c =>
    obtain ⟨-, -, rfl⟩ := submit_cases hs
    refine ⟨.inr ⟨c, rfl⟩, fun c' h => ?_, fun _ h => .inl h, fun _ h => .inl h,
      .inl ⟨le_refl _, rfl⟩, .inl rfl, .inl rfl⟩
    by_cases hc : c' = c
    · exact .inr (congrArg _ hc.symm)
    · exact .inl ((Pool.setCall_of_ne s hc _).trans h)
  | checkFull c =>
    obtain ⟨t, hc, -, ⟨hstop, rfl⟩ | ⟨-, -, rfl⟩ | ⟨-, -, rfl⟩⟩ := checkFull_cases hs
    · exact .of_call (by rw [hc]; exact Call.noConfusion) rfl rfl (fun _ _ => .inr hstop) rfl
        (le_refl _) rfl rfl rfl
    · exact .of_call (by rw [hc]; exact Call.noConfusion) rfl rfl (fun _ h => .inl h) rfl
        (by simp) rfl rfl rfl
    · exact .of_same rfl rfl rfl rfl rfl rfl rfl rfl
  | notifyEmpty c woken =>
    obtain ⟨t, cvEmpty, hc, -, rfl⟩ := notifyEmpty_cases hs
    refine .of_call (by rw [hc]; exact Call.noConfusion) rfl rfl (fun t' h => .inl ?_) rfl
      (le_refl _) rfl rfl rfl
    rcases List.mem_append.mp h with h | h
    · exact h
    · cases List.mem_singleton.mp h
  | checkEmpty i =>
    obtain ⟨⟨hi, hl, -⟩, ⟨-, -, rfl⟩ | ⟨-, -, rfl⟩ | ⟨t, queue, -, rfl⟩⟩ := checkEmpty_cases hs
    · exact .of_same rfl rfl rfl rfl rfl rfl rfl rfl
    · exact .of_same rfl rfl rfl rfl rfl rfl rfl rfl
    · exact ⟨.inl rfl, fun _ h => .inl h, fun _ h => .inl h, fun _ h => .inl h,
        .inr ⟨i, rfl, hi, hl⟩, .inl rfl, .inl rfl⟩
  | notifyFull i woken =>
    obtain ⟨t, cvFull, -, -, rfl⟩ := notifyFull_cases hs
    exact .of_same rfl rfl rfl rfl rfl rfl rfl rfl
  | finish i threw =>
    obtain ⟨t, hl, -, rfl⟩ := finish_cases hs
    refine ⟨.inl rfl, fun _ h => .inl h, fun _ h => .inl h, fun t' h => ?_, .inl ⟨le_refl _, rfl⟩,
      .inl rfl, .inl rfl⟩
    rcases List.mem_append.mp h with h | h
    · exact .inl h
    · rw [List.mem_singleton.mp h]
      exact .inr ⟨i, threw, rfl, hl⟩
  | wakeWorker i =>
    obtain ⟨-, rfl⟩ := wakeWorker_cases hs
    exact .of_same rfl rfl rfl rfl rfl rfl rfl rfl
  | wakeCaller c =>
    obtain ⟨-, rfl⟩ := wakeCaller_cases hs
    exact .of_same rfl rfl rfl rfl rfl rfl rfl rfl
  | stop =>
    obtain ⟨hc, rfl⟩ := stop_cases hs
    exact ⟨.inl rfl, fun _ h => .inl h, fun _ h => .inl h, fun _ h => .inl h,
      .inl ⟨le_refl _, rfl⟩, .inr ⟨rfl, rfl⟩, .inr ⟨by rw [hc]; decide, fun _ => rfl⟩⟩
  | notifyAllEmpty =>
    obtain ⟨hc, rfl⟩ := notifyAllEmpty_cases hs
    exact ⟨.inl rfl, fun _ h => .inl h, fun _ h => .inl h, fun _ h => .inl h,
      .inl ⟨le_refl _, rfl⟩, .inl rfl, .inr (by rw [hc]; decide)⟩
  | notifyAllFull =>
    obtain ⟨hc, rfl⟩ := notifyAllFull_cases hs
    exact ⟨.inl rfl, fun _ h => .inl h, fun _ h => .inl h, fun _ h => .inl h,
      .inl ⟨le_refl _, rfl⟩, .inl rfl, .inr (by rw [hc]; decide)⟩
  | join =>
    obtain ⟨hc, -, rfl⟩ := join_cases hs
    exact ⟨.inl rfl, fun _ h => .inl h, fun _ h => .inl h, fun _ h => .inl h,
      .inl ⟨le_refl _, rfl⟩, .inl rfl, .inr (by rw [hc]; decide)⟩

end CdrProcessor.ThreadPool
