import CdrProcessor.PoolDrains
import Mathlib.Data.Finset.Card

/-! A task that submits to the pool that runs it waits for a slot as any other caller does.
Too few tasks that do so cannot hold up every worker; enough of them can. -/

namespace CdrProcessor.ThreadPool

variable {size : Size} {s s' : Pool} {acts : List Act} {a : Act} {c : Caller} {i : Nat}

/-! ## Stuck -/

/-- Asleep in `submit`, inside the task it runs, until a slot is free. -/
def Blocked (s : Pool) (i : Nat) : Prop := Caller.worker i ∈ s.cvFull

/-- The pool is not stopping, tasks are queued, and no worker is left to take them. -/
structure Stuck (size : Size) (s : Pool) : Prop where
  up : s.stop = false
  queued : s.queue ≠ []
  blocked : ∀ i < size.workers, Blocked s i

/-- Every worker is asleep in a submit, whatever is queued. -/
def AllBlocked (size : Size) (s : Pool) : Prop :=
  s.stop = false ∧ ∀ i < size.workers, Blocked s i

/-- The submit of a task that meets a full queue while every other worker sleeps in one. -/
def LastAwake (size : Size) (s : Pool) (a : Act) : Prop :=
  ∃ i, a = .checkFull (.worker i) ∧ s.stop = false ∧ size.capacity ≤ s.queue.length ∧
    ∀ j < size.workers, j ≠ i → Blocked s j

/-! ## How it comes to that -/

theorem notifyOne_subset {α : Type} [DecidableEq α] {asleep l : List α} {woken : Option α}
    (h : notifyOne asleep woken = some l) : l ⊆ asleep := by
  cases woken with
  | none =>
    dsimp only [notifyOne] at h
    split at h
    · cases h
      exact List.nil_subset asleep
    · cases h
  | some x =>
    dsimp only [notifyOne] at h
    split at h
    · cases h
      exact List.erase_subset
    · cases h

/-- Only a look at a full queue puts a caller to sleep. -/
theorem cvFull_step (hs : step size s a = some s') (hc : c ∈ s'.cvFull) :
    c ∈ s.cvFull ∨
      a = .checkFull c ∧ s.stop = false ∧ size.capacity ≤ s.queue.length := by
  cases a with
  | checkFull c' =>
    obtain ⟨t, -, -, ⟨-, rfl⟩ | ⟨-, -, rfl⟩ | ⟨hup, hfull, rfl⟩⟩ := checkFull_cases hs
    · exact .inl hc
    · exact .inl hc
    · rcases List.mem_append.mp hc with hc | hc
      · exact .inl hc
      · rw [List.mem_singleton.mp hc]
        exact .inr ⟨rfl, hup, hfull⟩
  | notifyFull i woken =>
    obtain ⟨t, cvFull, -, hn, rfl⟩ := notifyFull_cases hs
    exact .inl (notifyOne_subset hn hc)
  | wakeCaller c' =>
    obtain ⟨-, rfl⟩ := wakeCaller_cases hs
    exact .inl (List.mem_of_mem_erase hc)
  | notifyAllFull =>
    obtain ⟨-, rfl⟩ := notifyAllFull_cases hs
    cases hc
  | submit c' =>
    obtain ⟨-, -, rfl⟩ := submit_cases hs
    exact .inl hc
  | notifyEmpty c' woken =>
    obtain ⟨t, cvEmpty, -, -, rfl⟩ := notifyEmpty_cases hs
    exact .inl hc
  | checkEmpty i =>
    obtain ⟨-, ⟨-, -, rfl⟩ | ⟨-, -, rfl⟩ | ⟨t, queue, -, rfl⟩⟩ := checkEmpty_cases hs
    · exact .inl hc
    · exact .inl hc
    · exact .inl hc
  | finish i threw =>
    obtain ⟨t, -, -, rfl⟩ := finish_cases hs
    exact .inl hc
  | wakeWorker i =>
    obtain ⟨-, rfl⟩ := wakeWorker_cases hs
    exact .inl hc
  | stop =>
    obtain ⟨-, rfl⟩ := stop_cases hs
    exact .inl hc
  | notifyAllEmpty =>
    obtain ⟨-, rfl⟩ := notifyAllEmpty_cases hs
    exact .inl hc
  | join =>
    obtain ⟨-, -, rfl⟩ := join_cases hs
    exact .inl hc

/-- The flag is never taken down. -/
theorem up_step (hs : step size s a = some s') (hup : s'.stop = false) : s.stop = false := by
  rcases (change_of_step hs).stop with hsame | ⟨-, hstop⟩
  · rw [← hsame]
    exact hup
  · rw [hup] at hstop
    cases hstop

/-- All workers are asleep only where they were before, or the last of them just went. -/
theorem allBlocked_step (hs : step size s a = some s') (hb : AllBlocked size s') :
    AllBlocked size s ∨ LastAwake size s a := by
  have hup := up_step hs hb.1
  by_cases hall : ∀ i < size.workers, Blocked s i
  · exact .inl ⟨hup, hall⟩
  · simp only [not_forall] at hall
    obtain ⟨i, hi, hawake⟩ := hall
    obtain ⟨ha, -, hfull⟩ := (cvFull_step hs (hb.2 i hi)).resolve_left hawake
    refine .inr ⟨i, ha, hup, hfull, fun j hj hne => ?_⟩
    refine (cvFull_step hs (hb.2 j hj)).resolve_right fun hgone => ?_
    rw [ha] at hgone
    injection hgone.1 with hc
    injection hc with hij
    exact hne hij.symm

/-! ## Stuck for good -/

/-- Whoever sleeps in `m_cv_full.wait` asks for a slot. -/
def Asking (s : Pool) : Prop := ∀ c ∈ s.cvFull, ∃ t, s.calls c = .asking t

/-- A call that is not asleep goes on. -/
theorem Asking.update (h : Asking s) (hc : c ∉ s.cvFull) (call : Call) :
    ∀ c' ∈ s.cvFull, ∃ t, Function.update s.calls c call c' = .asking t := by
  intro c' hc'
  rw [Function.update_of_ne]
  · exact h c' hc'
  · rintro rfl
    exact hc hc'

theorem Asking.not_mem (h : Asking s) (hc : ∀ t, s.calls c ≠ .asking t) : c ∉ s.cvFull := by
  intro hm
  obtain ⟨t, ht⟩ := h c hm
  exact hc t ht

theorem Asking.step (h : Asking s) (hs : step size s a = some s') : Asking s' := by
  cases a with
  | submit c =>
    obtain ⟨hc, -, rfl⟩ := submit_cases hs
    exact h.update (h.not_mem (by simp [hc])) _
  | checkFull c =>
    obtain ⟨t, hc, hnot, ⟨-, rfl⟩ | ⟨-, -, rfl⟩ | ⟨-, -, rfl⟩⟩ := checkFull_cases hs
    · exact h.update hnot _
    · exact h.update hnot _
    · intro c' hc'
      rcases List.mem_append.mp hc' with hc' | hc'
      · exact h c' hc'
      · rw [List.mem_singleton.mp hc']
        exact ⟨t, hc⟩
  | notifyEmpty c woken =>
    obtain ⟨t, cvEmpty, hc, -, rfl⟩ := notifyEmpty_cases hs
    exact h.update (h.not_mem (by simp [hc])) _
  | checkEmpty i =>
    obtain ⟨-, ⟨-, -, rfl⟩ | ⟨-, -, rfl⟩ | ⟨t, queue, -, rfl⟩⟩ := checkEmpty_cases hs
    · exact h
    · exact h
    · exact h
  | notifyFull i woken =>
    obtain ⟨t, cvFull, -, hn, rfl⟩ := notifyFull_cases hs
    exact fun c hc => h c (notifyOne_subset hn hc)
  | finish i threw => obtain ⟨t, -, -, rfl⟩ := finish_cases hs; exact h
  | wakeWorker i => obtain ⟨-, rfl⟩ := wakeWorker_cases hs; exact h
  | wakeCaller c =>
    obtain ⟨-, rfl⟩ := wakeCaller_cases hs
    exact fun c' hc' => h c' (List.mem_of_mem_erase hc')
  | stop => obtain ⟨-, rfl⟩ := stop_cases hs; exact h
  | notifyAllEmpty => obtain ⟨-, rfl⟩ := notifyAllEmpty_cases hs; exact h
  | notifyAllFull =>
    obtain ⟨-, rfl⟩ := notifyAllFull_cases hs
    exact fun c hc => by cases hc
  | join => obtain ⟨-, -, rfl⟩ := join_cases hs; exact h

/-- A worker inside a submit of its task is not at its lock. -/
theorem Inv.not_ready (h : Inv size s) {t : Nat} (hc : s.calls (.worker i) = .asking t) :
    s.loops i ≠ .ready := by
  intro hl
  have hr := h.nested i (by rw [hc]; exact Call.noConfusion)
  rw [hl] at hr
  cases hr

/-- While all workers sleep in a submit there is no slot. -/
def Packed (size : Size) (s : Pool) : Prop :=
  AllBlocked size s → size.capacity ≤ s.queue.length

theorem Packed.step (h : Packed size s) (hi : Inv size s) (ha : Asking s)
    (hs : ThreadPool.step size s a = some s') : Packed size s' := by
  intro hb
  rcases allBlocked_step hs hb with hbefore | ⟨i, rfl, -, hfull, -⟩
  · rcases (change_of_step hs).queue with ⟨hle, -⟩ | ⟨i, -, hi', hl⟩
    · exact (h hbefore).trans hle
    · obtain ⟨t, ht⟩ := ha _ (hbefore.2 i hi')
      exact absurd hl (hi.not_ready ht)
  · rcases (change_of_step hs).queue with ⟨hle, -⟩ | ⟨_, hx, -⟩
    · exact hfull.trans hle
    · cases hx

/-- Nobody is left who could make room. -/
structure Wedged (size : Size) (s : Pool) : Prop where
  up : s.stop = false
  full : size.capacity ≤ s.queue.length
  asking : ∀ i < size.workers, ∃ t, s.calls (.worker i) = .asking t

/-- What changes a call that asks is a look that finds the flag up, or a slot. -/
theorem asking_step {t : Nat} (hc : s.calls c = .asking t) (hup : s.stop = false)
    (hfull : size.capacity ≤ s.queue.length) (hs : step size s a = some s') :
    s'.calls c = .asking t := by
  have hkeep : ∀ c' call, s.calls c' ≠ .asking t →
      Function.update s.calls c' call c = .asking t := by
    intro c' call hne
    rw [Function.update_of_ne]
    · exact hc
    · rintro rfl
      exact hne hc
  cases a with
  | submit c' =>
    obtain ⟨hidle, -, rfl⟩ := submit_cases hs
    exact hkeep c' _ (by rw [hidle]; exact Call.noConfusion)
  | checkFull c' =>
    obtain ⟨t', -, -, ⟨hstop, -⟩ | ⟨-, hroom, -⟩ | ⟨-, -, rfl⟩⟩ := checkFull_cases hs
    · rw [hup] at hstop
      cases hstop
    · exact absurd hroom (Nat.not_lt.mpr hfull)
    · exact hc
  | notifyEmpty c' woken =>
    obtain ⟨t', cvEmpty, hpushed, -, rfl⟩ := notifyEmpty_cases hs
    exact hkeep c' _ (by rw [hpushed]; exact Call.noConfusion)
  | checkEmpty i =>
    obtain ⟨-, ⟨-, -, rfl⟩ | ⟨-, -, rfl⟩ | ⟨t', queue, -, rfl⟩⟩ := checkEmpty_cases hs
    · exact hc
    · exact hc
    · exact hc
  | notifyFull i woken => obtain ⟨t', cvFull, -, -, rfl⟩ := notifyFull_cases hs; exact hc
  | finish i threw => obtain ⟨t', -, -, rfl⟩ := finish_cases hs; exact hc
  | wakeWorker i => obtain ⟨-, rfl⟩ := wakeWorker_cases hs; exact hc
  | wakeCaller c' => obtain ⟨-, rfl⟩ := wakeCaller_cases hs; exact hc
  | stop => obtain ⟨-, rfl⟩ := stop_cases hs; exact hc
  | notifyAllEmpty => obtain ⟨-, rfl⟩ := notifyAllEmpty_cases hs; exact hc
  | notifyAllFull => obtain ⟨-, rfl⟩ := notifyAllFull_cases hs; exact hc
  | join => obtain ⟨-, -, rfl⟩ := join_cases hs; exact hc

/-- Short of the destructor, nothing moves a wedged pool. -/
theorem Wedged.step (h : Wedged size s) (hi : Inv size s) (ha : a ≠ .stop)
    (hs : ThreadPool.step size s a = some s') : Wedged size s' ∧ s'.taken = s.taken := by
  rcases (change_of_step hs).queue with ⟨hle, htaken⟩ | ⟨i, -, hin, hl⟩
  · refine ⟨⟨?_, h.full.trans hle, fun i hin => ?_⟩, htaken⟩
    · rw [(change_of_step hs).stop.resolve_right fun hstop => ha hstop.1]
      exact h.up
    · obtain ⟨t, ht⟩ := h.asking i hin
      exact ⟨t, asking_step ht h.up h.full hs⟩
  · obtain ⟨t, ht⟩ := h.asking i hin
    exact absurd hl (hi.not_ready ht)

/-- Once stuck, no queued task is taken until the pool is destroyed. -/
theorem Stuck.for_good {acts' : List Act} (h : Stuck size s)
    (hr : Run (ThreadPool.step size) anyOrder {} acts s)
    (hr' : Run (ThreadPool.step size) (fun _ a => a ≠ .stop) s acts' s') :
    s'.taken = s.taken := by
  have hreach : ∀ s a s', (Inv size s ∧ Asking s ∧ Packed size s) → anyOrder s a →
      ThreadPool.step size s a = some s' → Inv size s' ∧ Asking s' ∧ Packed size s' :=
    fun _ _ _ ⟨hi, ha, hp⟩ _ hs => ⟨hi.step hs, ha.step hs, hp.step hi ha hs⟩
  have hstart : Inv size {} ∧ Asking {} ∧ Packed size {} := by
    refine ⟨.initial size, fun c hc => ?_, fun hb => ?_⟩
    · cases hc
    · cases hb.2 0 size.workers_pos
  obtain ⟨hi, ha, hp⟩ := hr.invariant hreach hstart
  have hwedged : Wedged size s := ⟨h.up, hp ⟨h.up, h.blocked⟩, fun i hin => ha _ (h.blocked i hin)⟩
  have hkeep : ∀ s₁ a s₂, (Inv size s₁ ∧ Wedged size s₁ ∧ s₁.taken = s.taken) → a ≠ .stop →
      ThreadPool.step size s₁ a = some s₂ →
      Inv size s₂ ∧ Wedged size s₂ ∧ s₂.taken = s.taken := by
    intro s₁ a s₂ ⟨hi, hw, htaken⟩ ha hs
    obtain ⟨hw', hsame⟩ := hw.step hi ha hs
    exact ⟨hi.step hs, hw', hsame.trans htaken⟩
  exact (hr'.invariant hkeep ⟨hi, hwedged, rfl⟩).2.2

/-- A task that submits two more to a pool of one worker and one slot. -/
theorem nested_submit_sticks :
    ∃ acts s, Run (step oneWorker) anyOrder {} acts s ∧ Stuck oneWorker s ∧
      ∀ acts' s', Run (step oneWorker) (fun _ a => a ≠ .stop) s acts' s' → s'.taken = s.taken := by
  have hrun : (runChecked (step oneWorker) (fun _ _ => true) {}
      [.submit (.producer 0), .checkFull (.producer 0), .notifyEmpty (.producer 0) none,
        .checkEmpty 0, .notifyFull 0 none, .submit (.worker 0), .checkFull (.worker 0),
        .notifyEmpty (.worker 0) none, .submit (.worker 0), .checkFull (.worker 0)]).map
      (fun s => (s.stop, s.queue, s.cvFull)) = some (false, [1], [.worker 0]) := by decide
  obtain ⟨s, hs, hobs⟩ := Option.map_eq_some_iff.mp hrun
  obtain ⟨hup, hrest⟩ := Prod.mk.inj hobs
  obtain ⟨hqueue, hasleep⟩ := Prod.mk.inj hrest
  have hr : Run (step oneWorker) anyOrder {} _ s := Run.of_checked (fun _ _ _ => trivial) hs
  have hstuck : Stuck oneWorker s := by
    refine ⟨hup, by rw [hqueue]; decide, fun i hi => ?_⟩
    rw [Nat.lt_one_iff.mp hi]
    unfold Blocked
    rw [hasleep]
    exact List.mem_singleton_self _
  exact ⟨_, s, hr, hstuck, fun acts' s' hr' => hstuck.for_good hr hr'⟩

/-! ## Too few to stick -/

/-- Submits from inside the pool are those of the given tasks. -/
def Within (parents : Finset Nat) (s : Pool) : Act → Prop
  | .submit (.worker i) => ∀ t, s.loops i = .running t → t ∈ parents
  | _ => True

/-- Whoever is inside a submit of its task runs one of the given ones. -/
def Owned (parents : Finset Nat) (s : Pool) : Prop :=
  ∀ i, s.calls (.worker i) ≠ .idle → ∃ t ∈ parents, s.loops i = .running t

theorem Loop.running_of {loop : Loop} (h : loop.isRunning = true) : ∃ t, loop = .running t := by
  cases loop with
  | running t => exact ⟨t, rfl⟩
  | ready => cases h
  | popped t => cases h
  | exited => cases h

/-- A worker inside a call stays where it is in its loop. -/
theorem Inv.loop_step (h : Inv size s) (hs : ThreadPool.step size s a = some s')
    (hi : s.calls (.worker i) ≠ .idle) : s'.loops i = s.loops i := by
  have hrun := h.nested i hi
  have hkeep : ∀ j loop, (s.loops j).isRunning = false →
      Function.update s.loops j loop i = s.loops i := by
    intro j loop hj
    rw [Function.update_of_ne]
    rintro rfl
    rw [hrun] at hj
    cases hj
  cases a with
  | submit c => obtain ⟨-, -, rfl⟩ := submit_cases hs; rfl
  | checkFull c =>
    obtain ⟨t, -, -, ⟨-, rfl⟩ | ⟨-, -, rfl⟩ | ⟨-, -, rfl⟩⟩ := checkFull_cases hs
    · rfl
    · rfl
    · rfl
  | notifyEmpty c woken => obtain ⟨t, cvEmpty, -, -, rfl⟩ := notifyEmpty_cases hs; rfl
  | checkEmpty j =>
    obtain ⟨⟨-, hl, -⟩, ⟨-, -, rfl⟩ | ⟨-, -, rfl⟩ | ⟨t, queue, -, rfl⟩⟩ := checkEmpty_cases hs
    · exact hkeep j _ (by rw [hl]; rfl)
    · rfl
    · exact hkeep j _ (by rw [hl]; rfl)
  | notifyFull j woken =>
    obtain ⟨t, cvFull, hl, -, rfl⟩ := notifyFull_cases hs
    exact hkeep j _ (by rw [hl]; rfl)
  | finish j threw =>
    obtain ⟨t, -, hidle, rfl⟩ := finish_cases hs
    change Function.update s.loops j .ready i = _
    rw [Function.update_of_ne]
    rintro rfl
    exact hi hidle
  | wakeWorker j => obtain ⟨-, rfl⟩ := wakeWorker_cases hs; rfl
  | wakeCaller c => obtain ⟨-, rfl⟩ := wakeCaller_cases hs; rfl
  | stop => obtain ⟨-, rfl⟩ := stop_cases hs; rfl
  | notifyAllEmpty => obtain ⟨-, rfl⟩ := notifyAllEmpty_cases hs; rfl
  | notifyAllFull => obtain ⟨-, rfl⟩ := notifyAllFull_cases hs; rfl
  | join => obtain ⟨-, -, rfl⟩ := join_cases hs; rfl

theorem Owned.step {parents : Finset Nat} (h : Owned parents s) (hi : Inv size s)
    (hw : Within parents s a) (hs : ThreadPool.step size s a = some s') : Owned parents s' := by
  intro i hcall
  by_cases hidle : s.calls (.worker i) = .idle
  · -- the call is new: the task makes it now
    rcases (change_of_step hs).idle _ hidle with hsame | rfl
    · exact absurd hsame hcall
    · obtain ⟨-, hmay, rfl⟩ := submit_cases hs
      obtain ⟨t, ht⟩ := Loop.running_of hmay
      exact ⟨t, hw t ht, ht⟩
  · rw [hi.loop_step hs hidle]
    exact h i hidle

/-- What holds of a pool in which only the given tasks submit. -/
structure Kept (size : Size) (parents : Finset Nat) (s : Pool) : Prop where
  inv : Inv size s
  asking : Asking s
  packed : Packed size s
  owned : Owned parents s

theorem Kept.initial (size : Size) (parents : Finset Nat) : Kept size parents {} where
  inv := .initial size
  asking c hc := by cases hc
  packed hb := by cases hb.2 0 size.workers_pos
  owned i hi := absurd rfl hi

theorem Kept.run {parents : Finset Nat}
    (hr : Run (step size) (Within parents) {} acts s) : Kept size parents s := by
  have hstep : ∀ s a s', Kept size parents s → Within parents s a → step size s a = some s' →
      Kept size parents s' := fun s a s' h hw hs =>
    ⟨h.inv.step hs, h.asking.step hs, h.packed.step h.inv h.asking hs, h.owned.step h.inv hw hs⟩
  exact hr.invariant hstep (.initial size parents)

/-- With each worker at a task of its own, the tasks in hand are those. -/
theorem inHand_running {t : Nat → Nat} (ht : ∀ i < size.workers, s.loops i = .running (t i)) :
    inHand size s.loops = (List.range size.workers).map t := by
  have hall : ∀ i ∈ List.range size.workers, (s.loops i).task = some (t i) := by
    intro i hi
    rw [ht i (List.mem_range.mp hi)]
    rfl
  unfold inHand
  rw [List.filterMap_congr hall]
  exact congrFun List.filterMap_eq_map _

/-- Each worker of a stuck pool runs one of the tasks, and waits with another. -/
theorem Stuck.submits {parents : Finset Nat} (h : Stuck size s) (hk : Kept size parents s) :
    ∃ t u : Nat → Nat, ∀ i < size.workers,
      t i ∈ parents ∧ s.loops i = .running (t i) ∧ s.calls (.worker i) = .asking (u i) := by
  have hall : ∀ i, ∃ t u, i < size.workers →
      t ∈ parents ∧ s.loops i = .running t ∧ s.calls (.worker i) = .asking u := by
    intro i
    by_cases hi : i < size.workers
    · obtain ⟨u, hu⟩ := hk.asking _ (h.blocked i hi)
      obtain ⟨t, hmem, ht⟩ := hk.owned i (by rw [hu]; exact Call.noConfusion)
      exact ⟨t, u, fun _ => ⟨hmem, ht, hu⟩⟩
    · exact ⟨0, 0, fun hin => absurd hin hi⟩
  choose t u htu using hall
  exact ⟨t, u, htu⟩

theorem Kept.held {parents : Finset Nat} (hk : Kept size parents s) {t : Nat → Nat}
    (ht : ∀ i < size.workers, s.loops i = .running (t i)) :
    s.taken.Perm (s.finished ++ (List.range size.workers).map t) := by
  rw [← inHand_running ht]
  exact hk.inv.hands.held

/-- A stuck pool has a submitting task to each worker. -/
theorem Stuck.workers_le {parents : Finset Nat} (h : Stuck size s) (hk : Kept size parents s) :
    size.workers ≤ parents.card := by
  obtain ⟨t, u, htu⟩ := h.submits hk
  have hheld := hk.held fun i hi => (htu i hi).2.1
  have hnodup : ((List.range size.workers).map t).Nodup :=
    (hheld.nodup_iff.mp hk.inv.taken_nodup).of_append_right
  have hsub : ((List.range size.workers).map t).toFinset ⊆ parents := by
    intro task htask
    obtain ⟨i, hi, rfl⟩ := List.mem_map.mp (List.mem_toFinset.mp htask)
    exact (htu i (List.mem_range.mp hi)).1
  have hcard := Finset.card_le_card hsub
  rw [List.toFinset_card_of_nodup hnodup, List.length_map, List.length_range] at hcard
  exact hcard

/-- It has, to each worker, a task that runs and one that waits for a slot, and a full queue. -/
theorem Stuck.tasks_le {parents : Finset Nat} (h : Stuck size s) (hk : Kept size parents s) :
    size.capacity + 2 * size.workers ≤ s.next := by
  have hfull := hk.packed ⟨h.up, h.blocked⟩
  obtain ⟨t, u, htu⟩ := h.submits hk
  have hasks : ∀ i < size.workers, s.calls (.worker i) = .asking (u i) :=
    fun i hi => (htu i hi).2.2
  -- the tasks accepted and those that wait are all different, and numbered below `next`
  have hasked : ∀ v ∈ (List.range size.workers).map u, v < s.next ∧ v ∉ s.accepted := by
    intro v hv
    obtain ⟨i, hi, rfl⟩ := List.mem_map.mp hv
    obtain ⟨hlt, hnot, -⟩ := hk.inv.books.asked _ _ (hasks i (List.mem_range.mp hi))
    exact ⟨hlt, hnot⟩
  have hapart : ((List.range size.workers).map u).Nodup := by
    refine List.Nodup.map_on (fun i hi j hj heq => ?_) List.nodup_range
    have hj' := hasks j (List.mem_range.mp hj)
    rw [← heq] at hj'
    injection hk.inv.books.apart _ _ _ (hasks i (List.mem_range.mp hi)) hj'
  have hnodup : (s.accepted ++ (List.range size.workers).map u).Nodup :=
    hk.inv.books.nodup.append hapart fun v hv hv' => (hasked v hv').2 hv
  have hsub : s.accepted ++ (List.range size.workers).map u ⊆ List.range s.next := by
    intro v hv
    rcases List.mem_append.mp hv with hv | hv
    · exact List.mem_range.mpr (hk.inv.books.made v hv)
    · exact List.mem_range.mpr (hasked v hv).1
  have hlen := (hnodup.subperm hsub).length_le
  have htaken := (hk.held fun i hi => (htu i hi).2.1).length_eq
  rw [← hk.inv.order] at hlen
  simp only [List.length_append, List.length_map, List.length_range] at hlen htaken
  omega

/-! ## Enough to stick -/

/-- On the way to a stuck pool: some workers run the task of their own number, some slots are
taken, and some of the workers sleep in a submit. -/
structure Staged (running queued blocked : Nat) (s : Pool) : Prop where
  up : s.stop = false
  alive : s.closing = .up
  awake : s.cvEmpty = []
  loops : ∀ i, s.loops i = if i < running then .running i else .ready
  queue : s.queue.length = queued
  full : s.cvFull = (List.range blocked).map .worker
  outside : s.calls (.producer 0) = .idle
  own : ∀ i, blocked ≤ i → s.calls (.worker i) = .idle
  next : s.next = running + queued + blocked

theorem Staged.initial : Staged 0 0 0 {} where
  up := rfl
  alive := rfl
  awake := rfl
  loops i := (if_neg (Nat.not_lt_zero i)).symm
  queue := rfl
  full := rfl
  outside := rfl
  own _ _ := rfl
  next := rfl

theorem step_push {t : Nat} (hc : s.calls c = .asking t) (ha : c ∉ s.cvFull)
    (hs : s.stop = false) (hq : s.queue.length < size.capacity) :
    step size s (.checkFull c) = some { s.setCall c (.pushed t) with
      queue := s.queue ++ [t], accepted := s.accepted ++ [t] } := by
  change s.checkFull size c = _
  unfold Pool.checkFull
  rw [hc]
  dsimp only
  rw [if_neg ha, hs, if_neg Bool.false_ne_true, if_pos hq]

theorem step_sleep {t : Nat} (hc : s.calls c = .asking t) (ha : c ∉ s.cvFull)
    (hs : s.stop = false) (hq : size.capacity ≤ s.queue.length) :
    step size s (.checkFull c) = some { s with cvFull := s.cvFull ++ [c] } := by
  change s.checkFull size c = _
  unfold Pool.checkFull
  rw [hc]
  dsimp only
  rw [if_neg ha, hs, if_neg Bool.false_ne_true, if_neg (Nat.not_lt.mpr hq)]

/-- A call begins. -/
def Pool.asks (s : Pool) (c : Caller) : Pool :=
  { s.setCall c (.asking s.next) with next := s.next + 1 }

@[simp] theorem Pool.asks_self (s : Pool) (c : Caller) :
    (s.asks c).calls c = .asking s.next := s.setCall_self c _

theorem Pool.asks_of_ne (s : Pool) {c c' : Caller} (h : c' ≠ c) :
    (s.asks c).calls c' = s.calls c' := s.setCall_of_ne h _

theorem step_submit (hc : s.calls c = .idle) (hm : s.mayCall c = true) :
    step size s (.submit c) = some (s.asks c) :=
  if_pos ⟨hc, hm⟩

variable {parents : Finset Nat} {running queued blocked : Nat}

/-- A thread outside submits a task, and there is a slot. -/
theorem Staged.fill (h : Staged running queued 0 s) (hq : queued < size.capacity) :
    ∃ acts s', Run (step size) (Within parents) s acts s' ∧ Staged running (queued + 1) 0 s' ∧
      s'.queue = s.queue ++ [s.next] := by
  have hasks : step size s (.submit (.producer 0)) = some (s.asks (.producer 0)) :=
    step_submit h.outside (by simp [Pool.mayCall, h.alive])
  have hnot : Caller.producer 0 ∉ (s.asks (.producer 0)).cvFull := by
    change _ ∉ s.cvFull
    rw [h.full]
    exact List.not_mem_nil
  have hpushes := step_push (s.asks_self _) hnot h.up (h.queue.trans_lt hq)
  have hpushed := (s.asks (.producer 0)).setCall_self (.producer 0) (.pushed s.next)
  refine ⟨[.submit (.producer 0), .checkFull (.producer 0), .notifyEmpty (.producer 0) none], _,
    .cons trivial hasks (.cons trivial hpushes (.cons trivial (step_answer hpushed h.awake) (.nil _))),
    ?_, rfl⟩
  refine ⟨h.up, h.alive, rfl, h.loops, ?_, h.full, ?_, fun i hi => ?_, ?_⟩
  · change (s.queue ++ [s.next]).length = queued + 1
    rw [List.length_append, h.queue]
    rfl
  · simp [Pool.setCall]
  · simp only [Pool.setCall, Pool.asks, Function.update_idem]
    rw [Function.update_of_ne (by simp)]
    exact h.own i hi
  · change s.next + 1 = _
    rw [h.next]
    omega

/-- The next worker takes what is queued. -/
theorem Staged.takes (h : Staged running 1 0 s) (hq : s.queue = [running])
    (hi : running < size.workers) :
    ∃ acts s', Run (step size) (Within parents) s acts s' ∧ Staged (running + 1) 0 0 s' := by
  have hready : s.loops running = .ready := by rw [h.loops, if_neg (lt_irrefl _)]
  have hawake : running ∉ s.cvEmpty := by rw [h.awake]; exact List.not_mem_nil
  have htakes := step_take hi hready hawake hq
  have hpopped := s.setLoop_self running (.popped running)
  refine ⟨[.checkEmpty running, .notifyFull running none], _,
    .cons trivial htakes (.cons trivial (step_run hpopped h.full) (.nil _)), ?_⟩
  refine ⟨h.up, h.alive, h.awake, fun i => ?_, rfl, rfl, h.outside, h.own, h.next⟩
  change Function.update (Function.update s.loops running (.popped running)) running
    (.running running) i = _
  rw [Function.update_idem]
  by_cases hne : i = running
  · rw [hne, Function.update_self, if_pos (Nat.lt_succ_self running)]
  · rw [Function.update_of_ne hne, h.loops]
    exact if_congr (by omega) rfl rfl

/-- A worker's task submits, and there is no slot. -/
theorem Staged.sleeps (h : Staged running queued blocked s) (hp : blocked ∈ parents)
    (hi : blocked < running) (hq : size.capacity ≤ queued) :
    ∃ acts s', Run (step size) (Within parents) s acts s' ∧
      Staged running queued (blocked + 1) s' := by
  have hruns : s.loops blocked = .running blocked := by rw [h.loops, if_pos hi]
  have hasks : step size s (.submit (.worker blocked)) = some (s.asks (.worker blocked)) :=
    step_submit (h.own blocked (le_refl _)) (by rw [Pool.mayCall, hruns]; rfl)
  have hnot : Caller.worker blocked ∉ s.cvFull := by
    rw [h.full]
    intro hm
    obtain ⟨i, hi, heq⟩ := List.mem_map.mp hm
    injection heq with heq
    exact absurd (List.mem_range.mp hi) (by omega)
  have hsleeps := step_sleep (s.asks_self _) hnot h.up (hq.trans_eq h.queue.symm)
  have hwithin : Within parents s (.submit (.worker blocked)) := by
    intro t ht
    rw [hruns] at ht
    cases ht
    exact hp
  refine ⟨[.submit (.worker blocked), .checkFull (.worker blocked)], _,
    .cons hwithin hasks (.cons trivial hsleeps (.nil _)), ?_⟩
  refine ⟨h.up, h.alive, h.awake, h.loops, h.queue, ?_, ?_, fun i hge => ?_, ?_⟩
  · change s.cvFull ++ [.worker blocked] = _
    rw [h.full, List.range_succ, List.map_append]
    rfl
  · have hne : Caller.producer 0 ≠ .worker blocked := by simp
    exact (s.asks_of_ne hne).trans h.outside
  · refine (s.asks_of_ne fun heq => ?_).trans (h.own i (by omega))
    injection heq with heq
    omega
  · change s.next + 1 = _
    rw [h.next]
    omega

theorem Staged.stuck (h : Staged size.workers size.capacity size.workers s) :
    Stuck size s where
  up := h.up
  queued hq := by
    have hlen := h.queue
    rw [hq] at hlen
    exact absurd hlen.symm size.capacity_pos.ne'
  blocked i hi := by
    unfold Blocked
    rw [h.full]
    exact List.mem_map_of_mem (List.mem_range.mpr hi)

/-- Every worker takes a task, the queue is filled, and then each task submits one more. -/
theorem sticks (size : Size) : ∃ acts s,
    Run (step size) (Within (Finset.range size.workers)) {} acts s ∧ Stuck size s ∧
      s.next = size.capacity + 2 * size.workers := by
  have htake : ∀ k < size.workers, ∀ s, Staged k 0 0 s → ∃ acts s',
      Run (step size) (Within (Finset.range size.workers)) s acts s' ∧ Staged (k + 1) 0 0 s' := by
    intro k hk s h
    obtain ⟨acts, s₁, hr, h₁, hq⟩ := h.fill size.capacity_pos
    rw [List.eq_nil_of_length_eq_zero h.queue, h.next] at hq
    obtain ⟨acts', s₂, hr', h₂⟩ := h₁.takes hq hk
    exact ⟨_, s₂, hr.append hr', h₂⟩
  have hfill : ∀ k < size.capacity, ∀ s, Staged size.workers k 0 s → ∃ acts s',
      Run (step size) (Within (Finset.range size.workers)) s acts s' ∧
        Staged size.workers (k + 1) 0 s' := by
    intro k hk s h
    obtain ⟨acts, s', hr, h', -⟩ := h.fill hk
    exact ⟨acts, s', hr, h'⟩
  have hsleep : ∀ k < size.workers, ∀ s, Staged size.workers size.capacity k s → ∃ acts s',
      Run (step size) (Within (Finset.range size.workers)) s acts s' ∧
        Staged size.workers size.capacity (k + 1) s' :=
    fun k hk s h => h.sleeps (Finset.mem_range.mpr hk) hk (le_refl _)
  obtain ⟨acts₁, s₁, hr₁, h₁⟩ := Run.climb htake .initial
  obtain ⟨acts₂, s₂, hr₂, h₂⟩ := Run.climb hfill h₁
  obtain ⟨acts₃, s₃, hr₃, h₃⟩ := Run.climb hsleep h₂
  refine ⟨_, s₃, (hr₁.append hr₂).append hr₃, h₃.stuck, ?_⟩
  rw [h₃.next]
  omega

/-- **When nested submits are safe.**  A pool to which at most `n` tasks are submitted, at most
`p` of which submit some of their own, never sticks, exactly when `p` leaves a worker over or
`n` cannot fill the queue behind and in front of the workers. -/
theorem never_stuck_iff (size : Size) (p n : Nat) :
    (∀ (parents : Finset Nat) acts s, parents.card ≤ p →
      Run (step size) (Within parents) {} acts s → s.next ≤ n → ¬ Stuck size s) ↔
      p < size.workers ∨ n < size.capacity + 2 * size.workers := by
  constructor
  · intro h
    by_contra hn
    rw [not_or, Nat.not_lt, Nat.not_lt] at hn
    obtain ⟨acts, s, hr, hstuck, hnext⟩ := sticks size
    refine h _ acts s ?_ hr (hnext.trans_le hn.2) hstuck
    rw [Finset.card_range]
    exact hn.1
  · intro h parents acts s hp hr hn hstuck
    have hworkers := hstuck.workers_le (Kept.run hr)
    have htasks := hstuck.tasks_le (Kept.run hr)
    omega

end CdrProcessor.ThreadPool
