import CdrProcessor.ThreadPool
import Mathlib.Algebra.BigOperators.Group.List.Basic
import Mathlib.Algebra.GroupWithZero.Nat

/-! A pool loses no task and runs none twice: the books kept over the calls, the tasks in
the workers' hands, and the way out of the loop. -/

namespace CdrProcessor.ThreadPool

/-! ## The books -/

/-- What the calls, the tasks accepted and the answers given have to do with each other. -/
structure Books (calls : Caller → Call) (next : Nat) (accepted : List Nat)
    (returned : List (Nat × Bool)) : Prop where
  nodup : accepted.Nodup
  made : ∀ t ∈ accepted, t < next
  asked : ∀ c t, calls c = .asking t → t < next ∧ t ∉ accepted ∧ ∀ b, (t, b) ∉ returned
  apart : ∀ c c' t, calls c = .asking t → calls c' = .asking t → c = c'
  pushed : ∀ c t, calls c = .pushed t → t ∈ accepted
  answered : ∀ t b, (t, b) ∈ returned → t < next ∧ (t ∈ accepted ↔ b = true)
  placed : ∀ t < next, t ∈ accepted ∨ (t, false) ∈ returned ∨ ∃ c, calls c = .asking t

variable {calls : Caller → Call} {next : Nat} {accepted : List Nat}
  {returned : List (Nat × Bool)} {c : Caller} {t : Nat}

/-- A call that turned to something else leaves the calls of the others. -/
theorem call_of_update {call call' : Call} {c c' : Caller}
    (h : Function.update calls c call c' = call') : c' = c ∧ call = call' ∨ c' ≠ c ∧ calls c' = call' := by
  by_cases hc : c' = c
  · subst hc
    rw [Function.update_self] at h
    exact .inl ⟨rfl, h⟩
  · rw [Function.update_of_ne hc] at h
    exact .inr ⟨hc, h⟩

theorem Books.initial : Books (fun _ => .idle) 0 [] [] where
  nodup := .nil
  made t ht := by cases ht
  asked c t h := by cases h
  apart c c' t h := by cases h
  pushed c t h := by cases h
  answered t b h := by cases h
  placed t h := absurd h (Nat.not_lt_zero t)

/-- A call begins, under a number that was not used before. -/
theorem Books.submit (h : Books calls next accepted returned) (hc : calls c = .idle) :
    Books (Function.update calls c (.asking next)) (next + 1) accepted returned where
  nodup := h.nodup
  made t ht := Nat.lt_succ_of_lt (h.made t ht)
  asked c' t ht := by
    rcases call_of_update ht with ⟨-, ht⟩ | ⟨-, ht⟩
    · cases ht
      exact ⟨Nat.lt_succ_self next, fun hm => absurd (h.made next hm) (lt_irrefl _),
        fun b hb => absurd (h.answered next b hb).1 (lt_irrefl _)⟩
    · obtain ⟨hlt, hrest⟩ := h.asked c' t ht
      exact ⟨Nat.lt_succ_of_lt hlt, hrest⟩
  apart c' c'' t ht ht' := by
    rcases call_of_update ht with ⟨hc', hn⟩ | ⟨-, hold⟩ <;>
      rcases call_of_update ht' with ⟨hc'', hn'⟩ | ⟨-, hold'⟩
    · rw [hc', hc'']
    · cases hn
      exact absurd (h.asked c'' next hold').1 (lt_irrefl _)
    · cases hn'
      exact absurd (h.asked c' next hold).1 (lt_irrefl _)
    · exact h.apart c' c'' t hold hold'
  pushed c' t ht := by
    rcases call_of_update ht with ⟨-, hn⟩ | ⟨-, ht⟩
    · cases hn
    · exact h.pushed c' t ht
  answered t b ht := by
    obtain ⟨hlt, hrest⟩ := h.answered t b ht
    exact ⟨Nat.lt_succ_of_lt hlt, hrest⟩
  placed t ht := by
    rcases Nat.lt_succ_iff_lt_or_eq.mp ht with ht | rfl
    · rcases h.placed t ht with hm | hf | ⟨c', hc'⟩
      · exact .inl hm
      · exact .inr (.inl hf)
      · refine .inr (.inr ⟨c', ?_⟩)
        rw [Function.update_of_ne]
        · exact hc'
        · rintro rfl
          rw [hc] at hc'
          cases hc'
    · exact .inr (.inr ⟨c, Function.update_self ..⟩)

/-- A call that asked is no longer one that asks: what the others asked for stays. -/
theorem Books.others (h : Books calls next accepted returned) (hc : calls c = .asking t)
    {call : Call} (hcall : ∀ t, call ≠ .asking t) {c' : Caller} {t' : Nat}
    (ht : Function.update calls c call c' = .asking t') : calls c' = .asking t' ∧ t' ≠ t := by
  rcases call_of_update ht with ⟨-, hn⟩ | ⟨hne, hold⟩
  · exact absurd hn (hcall t')
  · refine ⟨hold, ?_⟩
    rintro rfl
    exact hne (h.apart c' c t' hold hc)

theorem asking_of_ne {call : Call} {c c' : Caller} {t t' : Nat} (hc : calls c = .asking t)
    (hc' : calls c' = .asking t') (hne : t' ≠ t) :
    Function.update calls c call c' = .asking t' := by
  rw [Function.update_of_ne]
  · exact hc'
  · rintro rfl
    rw [hc] at hc'
    cases hc'
    exact hne rfl

/-- The pool is stopping: the task is turned away. -/
theorem Books.refuse (h : Books calls next accepted returned) (hc : calls c = .asking t) :
    Books (Function.update calls c .idle) next accepted (returned ++ [(t, false)]) := by
  obtain ⟨hlt, hnot, hnew⟩ := h.asked c t hc
  have hothers : ∀ c' t', Function.update calls c .idle c' = .asking t' →
      calls c' = .asking t' ∧ t' ≠ t := fun c' t' => h.others hc (by simp)
  refine ⟨h.nodup, h.made, ?_, ?_, ?_, ?_, ?_⟩
  · intro c' t' ht
    obtain ⟨hold, hne⟩ := hothers c' t' ht
    obtain ⟨hlt', hnot', hnew'⟩ := h.asked c' t' hold
    refine ⟨hlt', hnot', fun b hb => ?_⟩
    rcases List.mem_append.mp hb with hb | hb
    · exact hnew' b hb
    · exact hne (Prod.mk.inj (List.mem_singleton.mp hb)).1
  · exact fun c' c'' t' ht ht' => h.apart c' c'' t' (hothers c' t' ht).1 (hothers c'' t' ht').1
  · intro c' t' ht
    rcases call_of_update ht with ⟨-, hn⟩ | ⟨-, hold⟩
    · cases hn
    · exact h.pushed c' t' hold
  · intro t' b hb
    rcases List.mem_append.mp hb with hb | hb
    · exact h.answered t' b hb
    · obtain ⟨rfl, rfl⟩ := Prod.mk.inj (List.mem_singleton.mp hb)
      exact ⟨hlt, fun hm => absurd hm hnot, fun hf => by cases hf⟩
  · intro t' ht
    rcases h.placed t' ht with hm | hf | ⟨c', hc'⟩
    · exact .inl hm
    · exact .inr (.inl (List.mem_append_left _ hf))
    · by_cases hne : t' = t
      · exact .inr (.inl (List.mem_append_right _ (by rw [hne]; exact List.mem_singleton_self _)))
      · exact .inr (.inr ⟨c', asking_of_ne hc hc' hne⟩)

/-- There is room: the task goes to the end of the queue. -/
theorem Books.push (h : Books calls next accepted returned) (hc : calls c = .asking t) :
    Books (Function.update calls c (.pushed t)) next (accepted ++ [t]) returned := by
  obtain ⟨hlt, hnot, hnew⟩ := h.asked c t hc
  have hothers : ∀ c' t', Function.update calls c (.pushed t) c' = .asking t' →
      calls c' = .asking t' ∧ t' ≠ t := fun c' t' => h.others hc (by simp)
  refine ⟨?_, ?_, ?_, ?_, ?_, ?_, ?_⟩
  · rw [List.nodup_append]
    exact ⟨h.nodup, List.nodup_singleton t, fun a ha b hb hab =>
      hnot (by rw [← List.mem_singleton.mp hb, ← hab]; exact ha)⟩
  · intro t' ht
    rcases List.mem_append.mp ht with ht | ht
    · exact h.made t' ht
    · rw [List.mem_singleton.mp ht]
      exact hlt
  · intro c' t' ht
    obtain ⟨hold, hne⟩ := hothers c' t' ht
    obtain ⟨hlt', hnot', hnew'⟩ := h.asked c' t' hold
    refine ⟨hlt', fun hm => ?_, hnew'⟩
    rcases List.mem_append.mp hm with hm | hm
    · exact hnot' hm
    · exact hne (List.mem_singleton.mp hm)
  · exact fun c' c'' t' ht ht' => h.apart c' c'' t' (hothers c' t' ht).1 (hothers c'' t' ht').1
  · intro c' t' ht
    rcases call_of_update ht with ⟨-, hn⟩ | ⟨-, hold⟩
    · cases hn
      exact List.mem_append_right _ (List.mem_singleton_self _)
    · exact List.mem_append_left _ (h.pushed c' t' hold)
  · intro t' b hb
    obtain ⟨hlt', hiff⟩ := h.answered t' b hb
    refine ⟨hlt', ?_⟩
    rw [List.mem_append, List.mem_singleton, ← hiff]
    refine or_iff_left ?_
    rintro rfl
    exact hnew b hb
  · intro t' ht
    rcases h.placed t' ht with hm | hf | ⟨c', hc'⟩
    · exact .inl (List.mem_append_left _ hm)
    · exact .inr (.inl hf)
    · by_cases hne : t' = t
      · exact .inl (List.mem_append_right _ (by rw [hne]; exact List.mem_singleton_self _))
      · exact .inr (.inr ⟨c', asking_of_ne hc hc' hne⟩)

/-- The push is answered. -/
theorem Books.answer (h : Books calls next accepted returned) (hc : calls c = .pushed t) :
    Books (Function.update calls c .idle) next accepted (returned ++ [(t, true)]) := by
  have hmem := h.pushed c t hc
  have hothers : ∀ c' t', Function.update calls c .idle c' = .asking t' →
      calls c' = .asking t' := by
    intro c' t' ht
    rcases call_of_update ht with ⟨-, hn⟩ | ⟨-, hold⟩
    · cases hn
    · exact hold
  refine ⟨h.nodup, h.made, ?_, ?_, ?_, ?_, ?_⟩
  · intro c' t' ht
    obtain ⟨hlt', hnot', hnew'⟩ := h.asked c' t' (hothers c' t' ht)
    refine ⟨hlt', hnot', fun b hb => ?_⟩
    rcases List.mem_append.mp hb with hb | hb
    · exact hnew' b hb
    · obtain ⟨rfl, -⟩ := Prod.mk.inj (List.mem_singleton.mp hb)
      exact hnot' hmem
  · exact fun c' c'' t' ht ht' => h.apart c' c'' t' (hothers c' t' ht) (hothers c'' t' ht')
  · intro c' t' ht
    rcases call_of_update ht with ⟨-, hn⟩ | ⟨-, hold⟩
    · cases hn
    · exact h.pushed c' t' hold
  · intro t' b hb
    rcases List.mem_append.mp hb with hb | hb
    · exact h.answered t' b hb
    · obtain ⟨rfl, rfl⟩ := Prod.mk.inj (List.mem_singleton.mp hb)
      exact ⟨h.made t' hmem, fun _ => rfl, fun _ => hmem⟩
  · intro t' ht
    rcases h.placed t' ht with hm | hf | ⟨c', hc'⟩
    · exact .inl hm
    · exact .inr (.inl (List.mem_append_left _ hf))
    · refine .inr (.inr ⟨c', ?_⟩)
      rw [Function.update_of_ne]
      · exact hc'
      · rintro rfl
        rw [hc] at hc'
        cases hc'

/-! ## The tasks in the workers' hands -/

def Loop.task : Loop → Option Nat
  | .popped task => some task
  | .running task => some task
  | _ => none

def inHand (size : Size) (loops : Nat → Loop) : List Nat :=
  (List.range size.workers).filterMap fun i => (loops i).task

/-- A worker's hand apart from those of the others. -/
theorem inHand_split (size : Size) (loops : Nat → Loop) {i : Nat} (hi : i < size.workers) :
    ∃ rest, ∀ loop, (inHand size (Function.update loops i loop)).Perm
      (loop.task.toList ++ rest) := by
  refine ⟨((List.range size.workers).erase i).filterMap fun j => (loops j).task, fun loop => ?_⟩
  have hperm := List.perm_cons_erase (List.mem_range.mpr hi)
  refine (hperm.filterMap fun j => (Function.update loops i loop j).task).trans ?_
  have hrest : ((List.range size.workers).erase i).filterMap
        (fun j => (Function.update loops i loop j).task) =
      ((List.range size.workers).erase i).filterMap fun j => (loops j).task := by
    refine List.filterMap_congr fun j hj => ?_
    rw [Function.update_of_ne (List.nodup_range.mem_erase_iff.mp hj).1]
  rw [List.filterMap_cons, hrest, Function.update_self]
  cases loop.task with
  | none => exact .refl _
  | some task => exact .refl _

/-- What was taken is finished or in a worker's hands. -/
structure Hands (size : Size) (loops : Nat → Loop) (taken finished : List Nat) : Prop where
  outside : ∀ i, size.workers ≤ i → loops i = .ready
  held : taken.Perm (finished ++ inHand size loops)

variable {size : Size} {loops : Nat → Loop} {taken finished : List Nat} {i : Nat}

theorem Hands.inside (h : Hands size loops taken finished) (hi : loops i ≠ .ready) :
    i < size.workers := by
  by_contra hn
  exact hi (h.outside i (Nat.not_lt.mp hn))

theorem Hands.outside_update (h : Hands size loops taken finished) (hi : i < size.workers)
    (loop : Loop) (j : Nat) (hj : size.workers ≤ j) :
    Function.update loops i loop j = .ready := by
  rw [Function.update_of_ne (by omega)]
  exact h.outside j hj

/-- A worker that goes on with the same task, or with none. -/
theorem Hands.same (h : Hands size loops taken finished) (hi : i < size.workers) {loop : Loop}
    (ht : loop.task = (loops i).task) :
    Hands size (Function.update loops i loop) taken finished := by
  obtain ⟨rest, hsplit⟩ := inHand_split size loops hi
  have hnow := hsplit (loops i)
  rw [Function.update_eq_self] at hnow
  have hthen := hsplit loop
  rw [ht] at hthen
  exact ⟨h.outside_update hi loop, h.held.trans ((hnow.trans hthen.symm).append_left finished)⟩

open List in
theorem Hands.take (h : Hands size loops taken finished) (hi : i < size.workers)
    (hl : loops i = .ready) (t : Nat) :
    Hands size (Function.update loops i (.popped t)) (taken ++ [t]) finished := by
  obtain ⟨rest, hsplit⟩ := inHand_split size loops hi
  have hnow := hsplit (loops i)
  rw [Function.update_eq_self, hl] at hnow
  have hthen : (inHand size (Function.update loops i (.popped t))).Perm (t :: rest) :=
    hsplit (.popped t)
  refine ⟨h.outside_update hi _, ?_⟩
  calc taken ++ [t] ~ (finished ++ inHand size loops) ++ [t] := h.held.append_right [t]
    _ ~ (finished ++ rest) ++ [t] := (hnow.append_left finished).append_right [t]
    _ ~ t :: (finished ++ rest) := perm_append_singleton t _
    _ ~ finished ++ t :: rest := perm_middle.symm
    _ ~ finished ++ inHand size (Function.update loops i (.popped t)) :=
      hthen.symm.append_left finished

theorem Hands.finish (h : Hands size loops taken finished) (hi : i < size.workers) {t : Nat}
    (hl : loops i = .running t) :
    Hands size (Function.update loops i .ready) taken (finished ++ [t]) := by
  obtain ⟨rest, hsplit⟩ := inHand_split size loops hi
  have hnow := hsplit (loops i)
  rw [Function.update_eq_self, hl] at hnow
  have hthen : (inHand size (Function.update loops i .ready)).Perm rest := hsplit .ready
  refine ⟨h.outside_update hi _, ?_⟩
  rw [List.append_assoc]
  exact h.held.trans ((hnow.trans (hthen.symm.cons t)).append_left finished)

/-! ## The way out -/

/-- Nobody leaves the loop, or is turned away, before the pool is stopping; the workers
leave an empty queue behind, and the destructor is the last to go. -/
structure Exits (size : Size) (s : Pool) : Prop where
  stopped : s.stop = true ↔ s.closing ≠ .up
  left : ∀ i < size.workers, s.loops i = .exited → s.stop = true ∧ s.queue = []
  refused : ∀ t, (t, false) ∈ s.returned → s.stop = true
  joined : s.closing = .gone → ∀ i < size.workers, s.loops i = .exited

/-- What holds of a pool whatever steps it has taken. -/
structure Inv (size : Size) (s : Pool) : Prop where
  books : Books s.calls s.next s.accepted s.returned
  hands : Hands size s.loops s.taken s.finished
  exits : Exits size s
  order : s.taken ++ s.queue = s.accepted
  bounded : s.queue.length ≤ size.capacity
  nested : ∀ i, s.calls (.worker i) ≠ .idle → (s.loops i).isRunning = true

theorem inHand_ready (size : Size) : inHand size (fun _ => .ready) = [] := by
  unfold inHand
  rw [List.filterMap_eq_nil_iff]
  exact fun _ _ => rfl

theorem Inv.initial (size : Size) : Inv size {} where
  books := .initial
  hands := ⟨fun _ _ => rfl, by rw [inHand_ready]; exact .refl _⟩
  exits := by
    refine ⟨by simp, fun i _ h => ?_, fun t h => ?_, fun h => ?_⟩
    · cases h
    · cases h
    · cases h
  order := rfl
  bounded := Nat.zero_le _
  nested i h := absurd rfl h

variable {s s' : Pool} {acts : List Act}

theorem Exits.running (h : Exits size s) (hs : s.stop = false) {i : Nat}
    (hi : i < size.workers) : s.loops i ≠ .exited := by
  intro he
  rw [(h.left i hi he).1] at hs
  cases hs

/-- Only a worker that runs a task makes calls, so one that is not running has none. -/
theorem Inv.quiet (h : Inv size s) {i : Nat} (hi : (s.loops i).isRunning = false) :
    s.calls (.worker i) = .idle := by
  by_contra hc
  rw [h.nested i hc] at hi
  cases hi

/-- A call that changes: of a worker's, only while it runs a task. -/
theorem nested_call (h : ∀ i, s.calls (.worker i) ≠ .idle → (s.loops i).isRunning = true)
    {call : Call} (hc : ∀ i, c = .worker i → call ≠ .idle → (s.loops i).isRunning = true) (i : Nat)
    (hi : Function.update s.calls c call (.worker i) ≠ .idle) : (s.loops i).isRunning = true := by
  by_cases heq : Caller.worker i = c
  · rw [heq, Function.update_self] at hi
    exact hc i heq.symm hi
  · rw [Function.update_of_ne heq] at hi
    exact h i hi

/-- A worker that turns to something else while it makes no call. -/
theorem nested_loop (h : ∀ i, s.calls (.worker i) ≠ .idle → (s.loops i).isRunning = true)
    {loop : Loop} (hc : s.calls (.worker i) = .idle) (j : Nat)
    (hj : s.calls (.worker j) ≠ .idle) : (Function.update s.loops i loop j).isRunning = true := by
  by_cases heq : j = i
  · rw [heq] at hj
    exact absurd hc hj
  · rw [Function.update_of_ne heq]
    exact h j hj

/-- The exit of a worker among what the others do. -/
theorem Exits.loop (h : Exits size s) {loop : Loop} (hn : s.closing = .gone → loop = .exited)
    (hl : loop = .exited → s.stop = true ∧ s.queue = []) : Exits size (s.setLoop i loop) where
  stopped := h.stopped
  left j hj hx := by
    by_cases heq : j = i
    · rw [heq, Pool.setLoop_self] at hx
      exact hl hx
    · rw [Pool.setLoop_of_ne s heq] at hx
      exact h.left j hj hx
  refused := h.refused
  joined hg j hj := by
    by_cases heq : j = i
    · rw [heq, Pool.setLoop_self]
      exact hn hg
    · rw [Pool.setLoop_of_ne s heq]
      exact h.joined hg j hj

/-- A worker that goes on is not the last thing the destructor waited for. -/
theorem Exits.goesOn (h : Exits size s) (hi : i < size.workers) (hl : s.loops i ≠ .exited)
    {loop : Loop} (hn : loop ≠ .exited) : Exits size (s.setLoop i loop) :=
  h.loop (fun hg => absurd (h.joined hg i hi) hl) fun hx => absurd hx hn

theorem Inv.checkFull (h : Inv size s) (hs : s.checkFull size c = some s') : Inv size s' := by
  obtain ⟨t, hc, -, ⟨hstop, rfl⟩ | ⟨hstop, hlt, rfl⟩ | ⟨-, -, rfl⟩⟩ := checkFull_cases hs
  · refine ⟨h.books.refuse hc, h.hands, ?_, h.order, h.bounded,
      nested_call h.nested fun _ _ hn => absurd rfl hn⟩
    exact ⟨h.exits.stopped, h.exits.left, fun _ _ => hstop, h.exits.joined⟩
  · refine ⟨h.books.push hc, h.hands, ?_, ?_, ?_, nested_call h.nested fun i hi _ => ?_⟩
    · refine ⟨h.exits.stopped, fun i hi hx => ?_, h.exits.refused, h.exits.joined⟩
      exact absurd hx (h.exits.running hstop hi)
    · change s.taken ++ (s.queue ++ [t]) = s.accepted ++ [t]
      rw [← List.append_assoc, h.order]
    · change (s.queue ++ [t]).length ≤ size.capacity
      rw [List.length_append]
      exact hlt
    · refine h.nested i ?_
      rw [← hi, hc]
      exact Call.noConfusion
  · exact ⟨h.books, h.hands, ⟨h.exits.stopped, h.exits.left, h.exits.refused, h.exits.joined⟩,
      h.order, h.bounded, h.nested⟩

theorem Inv.checkEmpty (h : Inv size s) (hs : s.checkEmpty size i = some s') : Inv size s' := by
  obtain ⟨⟨hi, hl, -⟩, ⟨hq, hstop, rfl⟩ | ⟨-, -, rfl⟩ | ⟨t, queue, hq, rfl⟩⟩ := checkEmpty_cases hs
  · have hidle := h.quiet (i := i) (by rw [hl]; rfl)
    exact ⟨h.books, h.hands.same hi (by rw [hl]; rfl),
      h.exits.loop (fun _ => rfl) fun _ => ⟨hstop, hq⟩, h.order, h.bounded,
      nested_loop h.nested hidle⟩
  · exact ⟨h.books, h.hands, ⟨h.exits.stopped, h.exits.left, h.exits.refused, h.exits.joined⟩,
      h.order, h.bounded, h.nested⟩
  · have hidle := h.quiet (i := i) (by rw [hl]; rfl)
    have hexits : Exits size (s.setLoop i (.popped t)) :=
      h.exits.goesOn hi (by rw [hl]; exact Loop.noConfusion) Loop.noConfusion
    refine ⟨h.books, h.hands.take hi hl t, ?_, ?_, ?_, nested_loop h.nested hidle⟩
    · refine ⟨hexits.stopped, fun j hj hx => ?_, hexits.refused, hexits.joined⟩
      -- a worker that has left leaves no task to take
      have hempty := (hexits.left j hj hx).2
      change s.queue = [] at hempty
      rw [hempty] at hq
      cases hq
    · change (s.taken ++ [t]) ++ queue = s.accepted
      rw [List.append_assoc, List.singleton_append, ← hq, h.order]
    · have hb := h.bounded
      rw [hq] at hb
      exact Nat.le_of_succ_le hb

theorem Inv.step {a : Act} (h : Inv size s) (hs : ThreadPool.step size s a = some s') :
    Inv size s' := by
  cases a with
  | submit c =>
    obtain ⟨hc, hmay, rfl⟩ := submit_cases hs
    refine ⟨h.books.submit hc, h.hands,
      ⟨h.exits.stopped, h.exits.left, h.exits.refused, h.exits.joined⟩, h.order, h.bounded,
      nested_call h.nested fun i hi _ => ?_⟩
    rw [hi] at hmay
    exact hmay
  | checkFull c => exact h.checkFull hs
  | notifyEmpty c woken =>
    obtain ⟨t, cvEmpty, hc, -, rfl⟩ := notifyEmpty_cases hs
    refine ⟨h.books.answer hc, h.hands, ?_, h.order, h.bounded,
      nested_call h.nested fun _ _ hn => absurd rfl hn⟩
    refine ⟨h.exits.stopped, h.exits.left, fun t' ht => ?_, h.exits.joined⟩
    rcases List.mem_append.mp ht with ht | ht
    · exact h.exits.refused t' ht
    · cases List.mem_singleton.mp ht
  | checkEmpty i => exact h.checkEmpty hs
  | notifyFull i woken =>
    obtain ⟨t, cvFull, hl, -, rfl⟩ := notifyFull_cases hs
    have hi := h.hands.inside (i := i) (by rw [hl]; exact Loop.noConfusion)
    have hexits : Exits size (s.setLoop i (.running t)) :=
      h.exits.goesOn hi (by rw [hl]; exact Loop.noConfusion) Loop.noConfusion
    exact ⟨h.books, h.hands.same hi (by rw [hl]; rfl),
      ⟨hexits.stopped, hexits.left, hexits.refused, hexits.joined⟩, h.order, h.bounded,
      nested_loop h.nested (h.quiet (by rw [hl]; rfl))⟩
  | finish i threw =>
    obtain ⟨t, hl, hc, rfl⟩ := finish_cases hs
    have hi := h.hands.inside (i := i) (by rw [hl]; exact Loop.noConfusion)
    have hexits : Exits size (s.setLoop i .ready) :=
      h.exits.goesOn hi (by rw [hl]; exact Loop.noConfusion) Loop.noConfusion
    exact ⟨h.books, h.hands.finish hi hl,
      ⟨hexits.stopped, hexits.left, hexits.refused, hexits.joined⟩, h.order, h.bounded,
      nested_loop h.nested hc⟩
  | wakeWorker i =>
    obtain ⟨-, rfl⟩ := wakeWorker_cases hs
    exact ⟨h.books, h.hands, ⟨h.exits.stopped, h.exits.left, h.exits.refused, h.exits.joined⟩,
      h.order, h.bounded, h.nested⟩
  | wakeCaller c =>
    obtain ⟨-, rfl⟩ := wakeCaller_cases hs
    exact ⟨h.books, h.hands, ⟨h.exits.stopped, h.exits.left, h.exits.refused, h.exits.joined⟩,
      h.order, h.bounded, h.nested⟩
  | stop =>
    obtain ⟨-, rfl⟩ := stop_cases hs
    refine ⟨h.books, h.hands, ⟨by simp, fun i hi hx => ?_, fun _ _ => rfl, fun hg => by cases hg⟩,
      h.order, h.bounded, h.nested⟩
    exact ⟨rfl, (h.exits.left i hi hx).2⟩
  | notifyAllEmpty =>
    obtain ⟨hc, rfl⟩ := notifyAllEmpty_cases hs
    have hstop := h.exits.stopped.mpr (by rw [hc]; decide)
    exact ⟨h.books, h.hands, ⟨by simp [hstop], h.exits.left, h.exits.refused, fun hg => by cases hg⟩,
      h.order, h.bounded, h.nested⟩
  | notifyAllFull =>
    obtain ⟨hc, rfl⟩ := notifyAllFull_cases hs
    have hstop := h.exits.stopped.mpr (by rw [hc]; decide)
    exact ⟨h.books, h.hands, ⟨by simp [hstop], h.exits.left, h.exits.refused, fun hg => by cases hg⟩,
      h.order, h.bounded, h.nested⟩
  | join =>
    obtain ⟨hc, hall, rfl⟩ := join_cases hs
    have hstop := h.exits.stopped.mpr (by rw [hc]; decide)
    exact ⟨h.books, h.hands, ⟨by simp [hstop], h.exits.left, h.exits.refused, fun _ => hall⟩,
      h.order, h.bounded, h.nested⟩

/-! ## The destructor comes to its end -/

/-- Once told, nobody sleeps again: the flag is up wherever the predicates are looked at. -/
structure Awake (s : Pool) : Prop where
  workers : s.closing = .toldWorkers ∨ s.closing = .joining → s.cvEmpty = []
  callers : s.closing = .joining → s.cvFull = []

theorem Awake.initial : Awake {} := ⟨fun _ => rfl, fun _ => rfl⟩

theorem notifyOne_nil {α : Type} [DecidableEq α] {woken : Option α} {l : List α}
    (h : notifyOne [] woken = some l) : l = [] := by
  cases woken with
  | none => cases h; rfl
  | some x => cases h

theorem Awake.step {a : Act} (h : Awake s) (hi : Inv size s)
    (hs : ThreadPool.step size s a = some s') : Awake s' := by
  have hstop : s.closing = .toldWorkers ∨ s.closing = .joining → s.stop = true := by
    intro hc
    refine hi.exits.stopped.mpr ?_
    rcases hc with hc | hc <;> rw [hc] <;> exact Closing.noConfusion
  cases a with
  | submit c =>
    obtain ⟨-, -, rfl⟩ := submit_cases hs
    exact ⟨h.workers, h.callers⟩
  | checkFull c =>
    obtain ⟨t, -, -, ⟨-, rfl⟩ | ⟨-, -, rfl⟩ | ⟨hup, -, rfl⟩⟩ := checkFull_cases hs
    · exact ⟨h.workers, h.callers⟩
    · exact ⟨h.workers, h.callers⟩
    · refine ⟨h.workers, fun hc => ?_⟩
      rw [hstop (.inr hc)] at hup
      cases hup
  | notifyEmpty c woken =>
    obtain ⟨t, cvEmpty, -, hn, rfl⟩ := notifyEmpty_cases hs
    refine ⟨fun hc => ?_, h.callers⟩
    rw [h.workers hc] at hn
    exact notifyOne_nil hn
  | checkEmpty i =>
    obtain ⟨-, ⟨-, -, rfl⟩ | ⟨-, hup, rfl⟩ | ⟨t, queue, -, rfl⟩⟩ := checkEmpty_cases hs
    · exact ⟨h.workers, h.callers⟩
    · refine ⟨fun hc => ?_, h.callers⟩
      rw [hstop hc] at hup
      cases hup
    · exact ⟨h.workers, h.callers⟩
  | notifyFull i woken =>
    obtain ⟨t, cvFull, -, hn, rfl⟩ := notifyFull_cases hs
    refine ⟨h.workers, fun hc => ?_⟩
    rw [h.callers hc] at hn
    exact notifyOne_nil hn
  | finish i threw =>
    obtain ⟨t, -, -, rfl⟩ := finish_cases hs
    exact ⟨h.workers, h.callers⟩
  | wakeWorker i =>
    obtain ⟨hm, rfl⟩ := wakeWorker_cases hs
    refine ⟨fun hc => ?_, h.callers⟩
    rw [h.workers hc] at hm
    cases hm
  | wakeCaller c =>
    obtain ⟨hm, rfl⟩ := wakeCaller_cases hs
    refine ⟨h.workers, fun hc => ?_⟩
    rw [h.callers hc] at hm
    cases hm
  | stop =>
    obtain ⟨-, rfl⟩ := stop_cases hs
    exact ⟨fun hc => by simp at hc, fun hc => by cases hc⟩
  | notifyAllEmpty =>
    obtain ⟨-, rfl⟩ := notifyAllEmpty_cases hs
    exact ⟨fun _ => rfl, fun hc => by cases hc⟩
  | notifyAllFull =>
    obtain ⟨hc, rfl⟩ := notifyAllFull_cases hs
    exact ⟨fun _ => h.workers (.inl hc), fun _ => rfl⟩
  | join =>
    obtain ⟨-, -, rfl⟩ := join_cases hs
    exact ⟨fun hc => by simp at hc, fun hc => by cases hc⟩

def Loop.work : Loop → Nat
  | .ready => 1
  | .popped _ => 3
  | .running _ => 2
  | .exited => 0

def Call.work : Call → Nat
  | .idle => 0
  | .asking _ => 2
  | .pushed _ => 1

/-- What a worker has left to do with what it has in hand. -/
def Pool.left (s : Pool) (i : Nat) : Nat := (s.loops i).work + (s.calls (.worker i)).work

/-- What the workers have left to do when no more tasks come. -/
def Pool.work (size : Size) (s : Pool) : Nat :=
  4 * s.queue.length + ((List.range size.workers).map s.left).sum

theorem work_lt (hi : i < size.workers) (hothers : ∀ j, j ≠ i → s'.left j = s.left j)
    (h : 4 * s'.queue.length + s'.left i < 4 * s.queue.length + s.left i) :
    s'.work size < s.work size := by
  have hmem := List.mem_range.mpr hi
  have hrest : ((List.range size.workers).erase i).map s'.left =
      ((List.range size.workers).erase i).map s.left :=
    List.map_congr_left fun j hj => hothers j (List.nodup_range.mem_erase_iff.mp hj).1
  unfold Pool.work
  rw [← List.sum_map_erase s'.left hmem, ← List.sum_map_erase s.left hmem, hrest]
  omega

theorem left_setLoop (s : Pool) (i : Nat) (loop : Loop) :
    (s.setLoop i loop).left i = loop.work + (s.calls (.worker i)).work := by
  unfold Pool.left
  rw [Pool.setLoop_self]
  rfl

theorem left_setLoop_of_ne (s : Pool) (loop : Loop) (j : Nat) (h : j ≠ i) :
    (s.setLoop i loop).left j = s.left j := by
  unfold Pool.left
  rw [Pool.setLoop_of_ne s h]
  rfl

theorem left_setCall (s : Pool) (i : Nat) (call : Call) :
    (s.setCall (.worker i) call).left i = (s.loops i).work + call.work := by
  unfold Pool.left
  rw [Pool.setCall_self]
  rfl

theorem left_setCall_of_ne (s : Pool) (call : Call) (j : Nat) (h : j ≠ i) :
    (s.setCall (.worker i) call).left j = s.left j := by
  unfold Pool.left
  rw [Pool.setCall_of_ne s (by simpa using h)]
  rfl

/-- A worker that turns to less, with the queue as it was. -/
theorem work_setLoop {loop : Loop} (hi : i < size.workers) (hs : s'.queue = s.queue)
    (hl : s'.left = (s.setLoop i loop).left) (h : loop.work < (s.loops i).work) :
    s'.work size < s.work size := by
  refine work_lt hi (fun j hj => ?_) ?_
  · rw [hl]
    exact left_setLoop_of_ne s loop j hj
  · rw [hs, hl, left_setLoop]
    unfold Pool.left
    omega

/-- A task's own call that comes to its end. -/
theorem work_setCall (hi : i < size.workers) (hs : s'.queue = s.queue)
    (hl : s'.left = (s.setCall (.worker i) .idle).left) (h : 0 < (s.calls (.worker i)).work) :
    s'.work size < s.work size := by
  refine work_lt hi (fun j hj => ?_) ?_
  · rw [hl]
    exact left_setCall_of_ne s .idle j hj
  · have hidle : Call.work .idle = 0 := rfl
    rw [hs, hl, left_setCall, hidle]
    unfold Pool.left
    omega

/-- While the destructor waits for a worker, that worker can go on. -/
theorem goes_on (h : Inv size s) (hw : Awake s) (hj : s.closing = .joining)
    (hi : i < size.workers) (hl : s.loops i ≠ .exited) :
    ∃ a s', ThreadPool.step size s a = some s' ∧ s'.closing = .joining ∧
      s'.work size < s.work size := by
  have hstop : s.stop = true := h.exits.stopped.mpr (by rw [hj]; decide)
  have hempty := hw.workers (.inr hj)
  have hfull := hw.callers hj
  have hawake : i ∉ s.cvEmpty := by rw [hempty]; exact List.not_mem_nil
  cases hnow : s.loops i with
  | ready =>
    cases hq : s.queue with
    | nil =>
      refine ⟨_, _, step_exit hi hnow hawake hq hstop, hj, work_setLoop hi rfl rfl ?_⟩
      rw [hnow]
      exact Nat.zero_lt_one
    | cons t queue =>
      refine ⟨_, _, step_take hi hnow hawake hq, hj,
        work_lt hi (left_setLoop_of_ne s (.popped t)) ?_⟩
      -- the task leaves the queue, where it counts four, for the worker's hands
      change 4 * queue.length + (s.setLoop i (.popped t)).left i < _
      rw [left_setLoop, hq, List.length_cons, Pool.left, hnow]
      simp only [Loop.work]
      omega
  | popped t =>
    refine ⟨_, _, step_run hnow hfull, hj, work_setLoop hi rfl rfl ?_⟩
    rw [hnow]
    exact Nat.lt_succ_self 2
  | running t =>
    cases hcalls : s.calls (.worker i) with
    | idle =>
      refine ⟨_, _, step_finish hnow hcalls false, hj, work_setLoop hi rfl rfl ?_⟩
      rw [hnow]
      exact Nat.lt_succ_self 1
    | asking t' =>
      have hnot : Caller.worker i ∉ s.cvFull := by rw [hfull]; exact List.not_mem_nil
      refine ⟨_, _, step_refuse hcalls hnot hstop, hj, work_setCall hi rfl rfl ?_⟩
      rw [hcalls]
      exact Nat.zero_lt_two
    | pushed t' =>
      refine ⟨_, _, step_answer hcalls hempty, hj, work_setCall hi rfl rfl ?_⟩
      rw [hcalls]
      exact Nat.zero_lt_one
  | exited => exact absurd hnow hl

/-- Anyone at any time: nothing is asked of the order of the steps. -/
abbrev anyOrder (_ : Pool) (_ : Act) : Prop := True

theorem holds (hr : Run (ThreadPool.step size) anyOrder s acts s') (h : Inv size s)
    (hw : Awake s) : Inv size s' ∧ Awake s' := by
  have hstep : ∀ s a s', Inv size s ∧ Awake s → anyOrder s a → ThreadPool.step size s a = some s' →
      Inv size s' ∧ Awake s' := fun _ _ _ h _ hs => ⟨h.1.step hs, h.2.step h.1 hs⟩
  exact hr.invariant hstep ⟨h, hw⟩

/-- The workers the destructor waits for leave one after the other. -/
theorem workers_leave (h : Inv size s) (hw : Awake s) (hj : s.closing = .joining) :
    ∃ acts s', Run (ThreadPool.step size) anyOrder s acts s' ∧ s'.closing = .joining ∧
      ∀ i < size.workers, s'.loops i = .exited := by
  induction hn : s.work size using Nat.strong_induction_on generalizing s with
  | _ n ih =>
    by_cases hall : ∀ i < size.workers, s.loops i = .exited
    · exact ⟨[], s, .nil s, hj, hall⟩
    · simp only [not_forall] at hall
      obtain ⟨i, hi, hl⟩ := hall
      obtain ⟨a, mid, hs, hmid, hlt⟩ := goes_on h hw hj hi hl
      rw [hn] at hlt
      obtain ⟨acts, s', hr, hs', hout⟩ := ih _ hlt (h.step hs) (hw.step h hs) hmid rfl
      exact ⟨a :: acts, s', .cons trivial hs hr, hs', hout⟩

/-- Wherever it is, the destructor comes to its end from there. -/
theorem destructor_returns (h : Inv size s) (hw : Awake s) :
    ∃ acts s', Run (ThreadPool.step size) anyOrder s acts s' ∧ s'.closing = .gone := by
  -- from each phase, its own step and then what the next phase does
  have hjoining : ∀ s, Inv size s → Awake s → s.closing = .joining →
      ∃ acts s', Run (ThreadPool.step size) anyOrder s acts s' ∧ s'.closing = .gone := by
    intro s h hw hc
    obtain ⟨acts, s', hr, hs', hall⟩ := workers_leave h hw hc
    have hjoin : ThreadPool.step size s' .join = some { s' with closing := .gone } :=
      if_pos ⟨hs', hall⟩
    exact ⟨acts ++ [.join], _, hr.append (.cons trivial hjoin (.nil _)), rfl⟩
  have htold : ∀ s, Inv size s → Awake s → s.closing = .toldWorkers →
      ∃ acts s', Run (ThreadPool.step size) anyOrder s acts s' ∧ s'.closing = .gone := by
    intro s h hw hc
    have hs : ThreadPool.step size s .notifyAllFull =
        some { s with cvFull := [], closing := .joining } := if_pos hc
    obtain ⟨acts, s', hr, hs'⟩ := hjoining _ (h.step hs) (hw.step h hs) rfl
    exact ⟨.notifyAllFull :: acts, s', .cons trivial hs hr, hs'⟩
  have hstopped : ∀ s, Inv size s → Awake s → s.closing = .stopped →
      ∃ acts s', Run (ThreadPool.step size) anyOrder s acts s' ∧ s'.closing = .gone := by
    intro s h hw hc
    have hs : ThreadPool.step size s .notifyAllEmpty =
        some { s with cvEmpty := [], closing := .toldWorkers } := if_pos hc
    obtain ⟨acts, s', hr, hs'⟩ := htold _ (h.step hs) (hw.step h hs) rfl
    exact ⟨.notifyAllEmpty :: acts, s', .cons trivial hs hr, hs'⟩
  cases hc : s.closing with
  | up =>
    have hs : ThreadPool.step size s .stop = some { s with stop := true, closing := .stopped } :=
      if_pos hc
    obtain ⟨acts, s', hr, hs'⟩ := hstopped _ (h.step hs) (hw.step h hs) rfl
    exact ⟨.stop :: acts, s', .cons trivial hs hr, hs'⟩
  | stopped => exact hstopped s h hw hc
  | toldWorkers => exact htold s h hw hc
  | joining => exact hjoining s h hw hc
  | gone => exact ⟨[], s, .nil s, hc⟩

/-! ## Once each -/

theorem Inv.gone_finished (h : Inv size s) (hg : s.closing = .gone) :
    s.queue = [] ∧ s.taken.Perm s.finished := by
  have hout := h.exits.joined hg
  refine ⟨(h.exits.left 0 size.workers_pos (hout 0 size.workers_pos)).2, ?_⟩
  have hnone : inHand size s.loops = [] := by
    unfold inHand
    rw [List.filterMap_eq_nil_iff]
    intro i hi
    rw [hout i (List.mem_range.mp hi)]
    rfl
  have hheld := h.hands.held
  rw [hnone, List.append_nil] at hheld
  exact hheld

theorem Inv.taken_nodup (h : Inv size s) : s.taken.Nodup := by
  have hn := h.books.nodup
  rw [← h.order] at hn
  exact hn.of_append_left

/-- A pool loses nothing and repeats nothing, whoever submits when, however the tasks end,
whenever the destructor comes and whoever is woken for nothing. -/
theorem nothing_lost_or_repeated (size : Size) {acts : List Act} {s : Pool}
    (hr : Run (ThreadPool.step size) anyOrder {} acts s) :
    s.taken ++ s.queue = s.accepted ∧ s.queue.length ≤ size.capacity ∧
      (∀ t, (t, false) ∈ s.returned → t ∉ s.taken) ∧
      (∀ t, (t, true) ∈ s.returned → s.accepted.count t = 1 ∧ s.taken.count t ≤ 1) ∧
      (s.closing = .gone → ∀ t, (t, true) ∈ s.returned →
        s.taken.count t = 1 ∧ s.finished.count t = 1) ∧
      ∃ acts' s', Run (ThreadPool.step size) anyOrder s acts' s' ∧ s'.closing = .gone := by
  obtain ⟨h, hw⟩ := holds hr (.initial size) .initial
  refine ⟨h.order, h.bounded, fun t hf ht => ?_, fun t ht => ⟨?_, ?_⟩, fun hg t ht => ?_,
    destructor_returns h hw⟩
  · have hin : t ∈ s.accepted := by
      rw [← h.order]
      exact List.mem_append_left _ ht
    cases (h.books.answered t false hf).2.mp hin
  · exact List.count_eq_one_of_mem h.books.nodup ((h.books.answered t true ht).2.mpr rfl)
  · exact List.nodup_iff_count_le_one.mp h.taken_nodup t
  · obtain ⟨hq, hperm⟩ := h.gone_finished hg
    have hin : t ∈ s.taken := by
      have hm := (h.books.answered t true ht).2.mpr rfl
      rw [← h.order, hq, List.append_nil] at hm
      exact hm
    have hone := List.count_eq_one_of_mem h.taken_nodup hin
    exact ⟨hone, by rw [← hperm.count_eq]; exact hone⟩

def oneWorker : Size where
  workers := 1
  capacity := 1
  workers_pos := Nat.one_pos
  capacity_pos := Nat.one_pos

/-- A task that is turned away inside another, which throws as the pool is destroyed. -/
def lifetime : List Act :=
  [.submit (.producer 0), .checkFull (.producer 0), .checkEmpty 0, .notifyEmpty (.producer 0) none,
    .notifyFull 0 none, .submit (.worker 0), .stop, .checkFull (.worker 0), .notifyAllEmpty,
    .finish 0 true, .notifyAllFull, .checkEmpty 0, .join]

theorem nothing_lost_or_repeated_once :
    ∃ s, Run (ThreadPool.step oneWorker) anyOrder {} lifetime s ∧ s.closing = .gone ∧
      s.returned = [(0, true), (1, false)] ∧ s.finished.count 0 = 1 ∧ 1 ∉ s.taken := by
  have hrun : (runChecked (ThreadPool.step oneWorker) (fun _ _ => true) {} lifetime).map
      (fun s => (s.closing, s.returned)) = some (.gone, [(0, true), (1, false)]) := by decide
  obtain ⟨s, hs, hobs⟩ := Option.map_eq_some_iff.mp hrun
  obtain ⟨hgone, hreturned⟩ := Prod.mk.inj hobs
  have hr : Run (ThreadPool.step oneWorker) anyOrder {} lifetime s :=
    Run.of_checked (fun _ _ _ => trivial) hs
  obtain ⟨-, -, hfalse, -, hdone, -⟩ := nothing_lost_or_repeated oneWorker hr
  exact ⟨s, hr, hgone, hreturned, (hdone hgone 0 (by simp [hreturned])).2,
    hfalse 1 (by simp [hreturned])⟩

end CdrProcessor.ThreadPool
