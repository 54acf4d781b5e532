import CdrProcessor.SpoolSteps

/-! Whether two watchers can work on one file.  They cannot as long as no watcher that comes
up finds what another one holds in the process directory. -/

namespace CdrProcessor

variable {cfg : SpoolSetup} {s s' : Spool}

/-! ## The invariant -/

/-- What a watcher has handed out and what it is about to. -/
def DirWatcher.held (w : DirWatcher) : List (FileName × Nat) := w.taken ++ w.queue

/-- Every name is delivered once, and a sweep of the process directory comes by nothing that
another watcher holds. -/
def Unshared (s : Spool) (a : SpoolAct) : Prop :=
  Fresh s a ∧
    match a with
    | .visit w f i _ => ∀ scan, (s.watchers w).phase = .target scan →
      ∀ v, v ≠ w → (f, i) ∉ (s.watchers v).held
    | _ => True

/-- The file is under that name, and past the ready directory. -/
def Dirs.Past (n : Dirs Dir FileName) (e : FileName × Nat) : Prop :=
  ∃ d, d ≠ .ready ∧ n.find d e.1 = some e.2

/-- What a watcher holds is past the ready directory, and it holds it once; while it sweeps
the process directory, it holds what it came by. -/
structure Holds (n : Dirs Dir FileName) (w : DirWatcher) : Prop where
  past : ∀ e ∈ w.held, n.Past e
  nodup : w.held.Nodup
  before : ∀ scan, w.phase = .target scan → ∀ e ∈ scan.before, n.Past e
  quiet : ∀ scan, w.phase = .target scan → w.buffer = []
  seen : ∀ scan, w.phase = .target scan → ∀ e ∈ w.held, e ∈ scan.seen

structure Sole (s : Spool) : Prop extends Tidy s where
  holds : ∀ w, Holds s.links (s.watchers w)
  disjoint : ∀ v w, v ≠ w → ∀ e ∈ (s.watchers v).held, e ∉ (s.watchers w).held

theorem Sole.initial : Sole {} where
  toTidy := .initial
  holds w := {
    past := fun e h => by cases h
    nodup := .nil
    before := fun scan h => by cases h
    quiet := fun scan h => by cases h
    seen := fun scan h => by cases h }
  disjoint v w _ e h := by cases h

/-! ## Its steps -/

/-- A file that is past the ready directory stays so. -/
theorem Tidy.past_step (h : Tidy s) {a : SpoolAct} (ha : Fresh s a)
    (hs : spoolStep cfg s a = some s') {e : FileName × Nat} (he : s.links.Past e) :
    s'.links.Past e := by
  obtain ⟨d, hd, hf⟩ := he
  rcases spoolStep_names hs with ⟨hl, -, -⟩ | ⟨g, -, hl, -, -⟩ | ⟨d₁, g, d₂, g', j, hm, hj, hl, -, -⟩ <;>
    rw [hl]
  · exact ⟨d, hd, hf⟩
  · refine ⟨d, hd, ?_⟩
    rw [Dirs.find_link, if_neg fun h => hd h.1]
    exact hf
  · by_cases hmoved : d = d₁ ∧ e.1 = g
    · -- the worker that has it is through with it
      obtain ⟨rfl, rfl⟩ := hmoved
      rw [hj] at hf
      cases hf
      rcases hm.onward with ⟨rfl, -, hr⟩ | ⟨stamp, k, rfl, -, -, -⟩
      · exact ⟨d₂, hr, by rw [Dirs.find_move, if_pos ⟨rfl, rfl⟩]⟩
      · exact absurd hm.of_replace.1 hd
    · refine ⟨d, hd, ?_⟩
      rw [Dirs.find_move, if_neg, if_neg hmoved]
      · exact hf
      · rintro ⟨rfl, rfl⟩
        rw [h.vacant ha hm hj] at hf
        cases hf

/-- What is still in the ready directory nobody holds. -/
theorem Sole.ready_free (h : Sole s) {f : FileName} {i : Nat}
    (hi : s.links.find .ready f = some i) (w : Nat) : (f, i) ∉ (s.watchers w).held := by
  intro hm
  obtain ⟨d, hd, hf⟩ := (h.holds w).past _ hm
  exact hd (h.one _ _ _ _ _ hi hf).symm

theorem Claims.of_mem {f : FileName} {ok : Bool} {new : List (FileName × Nat)}
    (h : Claims s s' f ok new) {e : FileName × Nat} (he : e ∈ new) :
    s.links.find .ready e.1 = some e.2 ∧ s'.links.Past e := by
  cases h with
  | missed => cases he
  | got i hi hl =>
    rw [List.mem_singleton.mp he]
    refine ⟨hi, .process, by decide, ?_⟩
    rw [hl, Dirs.find_move, if_pos ⟨rfl, rfl⟩]

theorem Claims.nodup {f : FileName} {ok : Bool} {new : List (FileName × Nat)}
    (h : Claims s s' f ok new) : new.Nodup := by
  cases h with
  | missed => exact .nil
  | got i hi hl => exact List.nodup_singleton _

/-- The watcher that may come to hold one file more. -/
def SpoolAct.taker : SpoolAct → Option Nat
  | .visit w _ _ _ | .handle w _ => some w
  | _ => none

/-- What a step adds to what a watcher holds: what it claims, or what its first sweep comes
by. -/
theorem held_step {a : SpoolAct} (hs : spoolStep cfg s a = some s') (w : Nat) :
    (s'.watchers w).held = (s.watchers w).held ∨ (s'.watchers w).held = [] ∨
      a.taker = some w ∧ ∃ new, (s'.watchers w).held = (s.watchers w).held ++ new ∧
        ((∃ f ok, Claims s s' f ok new) ∨
          ∃ scan f i ok, a = .visit w f i ok ∧ (s.watchers w).phase = .target scan ∧
            new = [(f, i)]) := by
  rcases spoolStep_watcher hs w with h' | ⟨g, -, h'⟩ | ⟨-, h'⟩ | ⟨scan, f, i, ok, rfl, hp, -, -, h'⟩ |
    ⟨scan, f, i, ok, new, rfl, -, hc, h'⟩ | ⟨scan, -, -, h'⟩ | ⟨scan, -, -, -, h'⟩ |
    ⟨n, -, -, h'⟩ | ⟨buffer, -, h'⟩ | ⟨f, buffer, ok, new, rfl, -, hc, h'⟩ |
    ⟨e, queue, hq, -, h'⟩ | ⟨working, h'⟩ | h' <;> rw [h']
  · exact .inl rfl
  · left
    unfold DirWatcher.notify
    split <;> rfl
  · exact .inr (.inl rfl)
  · exact .inr (.inr ⟨rfl, _, (List.append_assoc _ _ _).symm, .inr ⟨scan, f, i, ok, rfl, hp, rfl⟩⟩)
  · exact .inr (.inr ⟨rfl, new, (List.append_assoc _ _ _).symm, .inl ⟨f, ok, hc⟩⟩)
  · exact .inl rfl
  · exact .inl rfl
  · exact .inl rfl
  · exact .inl rfl
  · exact .inr (.inr ⟨rfl, new, (List.append_assoc _ _ _).symm, .inl ⟨f, ok, hc⟩⟩)
  · left
    unfold DirWatcher.held
    rw [hq]
    exact List.append_assoc _ _ _
  · exact .inl rfl
  · exact .inr (.inl rfl)

/-- What a watcher comes to hold, no other one holds. -/
theorem Sole.new_free (h : Sole s) {a : SpoolAct} (ha : Unshared s a) {w : Nat}
    {new : List (FileName × Nat)}
    (hnew : (∃ f ok, Claims s s' f ok new) ∨
      ∃ scan f i ok, a = .visit w f i ok ∧ (s.watchers w).phase = .target scan ∧ new = [(f, i)])
    {v : Nat} (hv : v ≠ w) : ∀ e ∈ new, e ∉ (s.watchers v).held := by
  intro e he
  rcases hnew with ⟨f, ok, hc⟩ | ⟨scan, f, i, ok, rfl, hp, rfl⟩
  · exact h.ready_free (hc.of_mem he).1 v
  · rw [List.mem_singleton.mp he]
    exact ha.2 scan hp v hv

theorem Sole.step_apart (h : Sole s) {a : SpoolAct} (ha : Unshared s a)
    (hs : spoolStep cfg s a = some s') {v w : Nat} (hvw : v ≠ w) :
    ∀ e ∈ (s'.watchers v).held, e ∉ (s'.watchers w).held := by
  intro e hev hew
  rcases held_step hs v with hv | hv | ⟨htv, newv, hv, hnewv⟩ <;>
    rcases held_step hs w with hw | hw | ⟨htw, neww, hw, hneww⟩ <;> rw [hv] at hev <;> rw [hw] at hew
  · exact h.disjoint v w hvw e hev hew
  · cases hew
  · rcases List.mem_append.mp hew with hew | hew
    · exact h.disjoint v w hvw e hev hew
    · exact h.new_free ha hneww hvw e hew hev
  · cases hev
  · cases hev
  · cases hev
  · rcases List.mem_append.mp hev with hev | hev
    · exact h.disjoint v w hvw e hev hew
    · exact h.new_free ha hnewv hvw.symm e hev hew
  · cases hew
  · rw [htv] at htw
    exact hvw (Option.some.inj htw)

theorem Holds.mono {n n' : Dirs Dir FileName} {w : DirWatcher} (h : Holds n w)
    (hpast : ∀ {e}, n.Past e → n'.Past e) : Holds n' w where
  past e he := hpast (h.past e he)
  nodup := h.nodup
  before scan hp e he := hpast (h.before scan hp e he)
  quiet := h.quiet
  seen := h.seen

/-- A watcher that comes up holds nothing yet, and sweeps the process directory. -/
theorem Holds.started (n : Dirs Dir FileName) {scan : Scan}
    (hb : ∀ e ∈ scan.before, n.Past e) : Holds n { phase := .target scan } where
  past e he := by cases he
  nodup := .nil
  before scan' hp e he := by
    cases hp
    exact hb e he
  quiet _ _ := rfl
  seen scan' _ e he := by cases he

theorem Holds.crashed (n : Dirs Dir FileName) : Holds n {} where
  past e he := by cases he
  nodup := .nil
  before scan hp := by cases hp
  quiet scan hp := by cases hp
  seen scan hp := by cases hp

/-- The first sweep comes by a file, which is among those held no more than once. -/
theorem Holds.sweep {n : Dirs Dir FileName} {w : DirWatcher} (h : Holds n w) {scan : Scan}
    (hp : w.phase = .target scan) {e : FileName × Nat} (he : n.Past e) (hnew : e ∉ scan.seen) :
    Holds n { w with phase := .target (scan.see e), queue := w.queue ++ [e] } := by
  have hheld : w.taken ++ (w.queue ++ [e]) = w.held ++ [e] := (List.append_assoc _ _ _).symm
  refine ⟨fun x hx => ?_, ?_, fun scan' hp' x hx => ?_, fun _ _ => h.quiet scan hp,
    fun scan' hp' x hx => ?_⟩
  · change x ∈ w.taken ++ (w.queue ++ [e]) at hx
    rw [hheld] at hx
    rcases List.mem_append.mp hx with hx | hx
    · exact h.past x hx
    · rw [List.mem_singleton.mp hx]
      exact he
  · change (w.taken ++ (w.queue ++ [e])).Nodup
    rw [hheld]
    refine List.nodup_append.mpr ⟨h.nodup, List.nodup_singleton _, ?_⟩
    intro x hx x' hx' heq
    rw [heq, List.mem_singleton.mp hx'] at hx
    exact hnew (h.seen scan hp _ hx)
  · cases hp'
    exact h.before scan hp x hx
  · cases hp'
    change x ∈ w.taken ++ (w.queue ++ [e]) at hx
    rw [hheld] at hx
    exact (List.mem_append.mp hx).elim
      (fun hx => List.mem_append_left _ (h.seen scan hp x hx)) (List.mem_append_right _)

/-- What is claimed was in the ready directory, where nothing is that is held. -/
theorem Sole.claims (h : Sole s) {w : Nat} {f : FileName} {ok : Bool} {new : List (FileName × Nat)}
    (hpast : ∀ e ∈ (s.watchers w).held, s'.links.Past e) (hc : Claims s s' f ok new) :
    (∀ e ∈ (s.watchers w).taken ++ ((s.watchers w).queue ++ new), s'.links.Past e) ∧
      ((s.watchers w).taken ++ ((s.watchers w).queue ++ new)).Nodup := by
  rw [← List.append_assoc]
  refine ⟨fun e he => ?_, List.nodup_append.mpr ⟨(h.holds w).nodup, hc.nodup, ?_⟩⟩
  · rcases List.mem_append.mp he with he | he
    · exact hpast e he
    · exact (hc.of_mem he).2
  · rintro e he e' he' rfl
    exact h.ready_free (hc.of_mem he').1 w he

theorem Sole.step_holds (h : Sole s) {a : SpoolAct} (ha : Unshared s a)
    (hs : spoolStep cfg s a = some s') (w : Nat) : Holds s'.links (s'.watchers w) := by
  have hpast : ∀ {e}, s.links.Past e → s'.links.Past e := h.past_step ha.1 hs
  have hkeep : Holds s'.links (s.watchers w) := (h.holds w).mono hpast
  rcases spoolStep_watcher hs w with h' | ⟨g, -, h'⟩ | ⟨hl, h'⟩ | ⟨scan, f, i, ok, rfl, hp, hb, hl, h'⟩ |
    ⟨scan, f, i, ok, new, rfl, -, hc, h'⟩ | ⟨scan, -, -, h'⟩ | ⟨scan, -, -, -, h'⟩ |
    ⟨n, hp, -, h'⟩ | ⟨buffer, hb, h'⟩ | ⟨f, buffer, ok, new, rfl, hb, hc, h'⟩ |
    ⟨e, queue, hq, hp, h'⟩ | ⟨working, h'⟩ | h' <;> rw [h']
  · exact hkeep
  · unfold DirWatcher.notify
    split
    · exact ⟨hkeep.past, hkeep.nodup, hkeep.before, hkeep.quiet, hkeep.seen⟩
    · exact hkeep
  · exact .started _ fun e he => hpast ⟨.process, by decide, Dirs.mem_listing.mp he⟩
  · obtain ⟨hin, hnew⟩ := of_decide_eq_true hb
    have hentry : s'.links.Past (f, i) := by
      rcases hin with hin | hin
      · exact hkeep.before scan hp _ hin
      · exact hpast ⟨.process, by decide, Dirs.mem_listing.mp hin⟩
    exact hkeep.sweep hp hentry hnew
  · obtain ⟨hall, hnodup⟩ := h.claims hkeep.past hc
    exact ⟨hall, hnodup, fun _ hp' => (by cases hp'), fun _ hp' => (by cases hp'),
      fun _ hp' => (by cases hp')⟩
  · exact ⟨hkeep.past, hkeep.nodup, fun _ hp' => (by cases hp'), fun _ hp' => (by cases hp'),
      fun _ hp' => (by cases hp')⟩
  · exact ⟨hkeep.past, hkeep.nodup, fun _ hp' => (by cases hp'), fun _ hp' => (by cases hp'),
      fun _ hp' => (by cases hp')⟩
  · refine ⟨hkeep.past, hkeep.nodup, hkeep.before, fun scan hp' => ?_, hkeep.seen⟩
    cases hp.symm.trans hp'
  · refine ⟨hkeep.past, hkeep.nodup, hkeep.before, fun scan hp' => ?_, hkeep.seen⟩
    rw [hkeep.quiet scan hp'] at hb
    cases hb
  · -- the first sweep is over when an event is handled
    have hno : ∀ scan, (s.watchers w).phase ≠ .target scan := by
      intro scan hp'
      rw [hkeep.quiet scan hp'] at hb
      cases hb
    obtain ⟨hall, hnodup⟩ := h.claims hkeep.past hc
    exact ⟨hall, hnodup, fun scan hp' => absurd hp' (hno scan),
      fun scan hp' => absurd hp' (hno scan), fun scan hp' => absurd hp' (hno scan)⟩
  · have hheld : ((s.watchers w).taken ++ [e]) ++ queue = (s.watchers w).held := by
      unfold DirWatcher.held
      rw [hq]
      exact List.append_assoc _ _ _
    refine ⟨fun x hx => hkeep.past x (hheld ▸ hx), ?_, hkeep.before, hkeep.quiet,
      fun scan hp' => ?_⟩
    · change (((s.watchers w).taken ++ [e]) ++ queue).Nodup
      rw [hheld]
      exact hkeep.nodup
    · cases hp.symm.trans hp'
  · exact ⟨hkeep.past, hkeep.nodup, hkeep.before, hkeep.quiet, hkeep.seen⟩
  · exact .crashed _

theorem Sole.step (h : Sole s) {a : SpoolAct} (ha : Unshared s a)
    (hs : spoolStep cfg s a = some s') : Sole s' where
  toTidy := h.toTidy.step ha.1 hs
  holds := h.step_holds ha hs
  disjoint _ _ := h.step_apart ha hs

/-! ## Whole runs -/

/-- **No two watchers work on one file**, in any run that meets the condition: none hands a
name out twice, and no two of them the same one. -/
theorem handed_out_once {acts : List SpoolAct} (hr : Run (spoolStep cfg) Unshared {} acts s) :
    (∀ w, ((s.watchers w).taken.map Prod.fst).Nodup) ∧
      ∀ v w, v ≠ w → ∀ e ∈ (s.watchers v).taken, ∀ e' ∈ (s.watchers w).taken, e.1 ≠ e'.1 := by
  have h := hr.invariant (fun _ _ _ hi ha hs => Sole.step hi ha hs) Sole.initial
  have hheld : ∀ {w e}, e ∈ (s.watchers w).taken → e ∈ (s.watchers w).held :=
    fun he => List.mem_append_left _ he
  -- a name stands for one file
  have hname : ∀ {v w e e'}, e ∈ (s.watchers v).taken → e' ∈ (s.watchers w).taken → e.1 = e'.1 →
      e = e' := by
    intro v w e e' he he' heq
    obtain ⟨d, -, hf⟩ := (h.holds v).past e (hheld he)
    obtain ⟨d', -, hf'⟩ := (h.holds w).past e' (hheld he')
    rw [← heq] at hf'
    obtain rfl := h.one _ _ _ _ _ hf hf'
    rw [hf] at hf'
    exact Prod.ext heq (Option.some.inj hf')
  refine ⟨fun w => ?_, fun v w hvw e he e' he' heq => ?_⟩
  · have hn : (s.watchers w).taken.Nodup := (List.nodup_append.mp (h.holds w).nodup).1
    exact List.Nodup.map_on (fun e he e' he' heq => hname he he' heq) hn
  · rw [hname he he' heq] at he
    exact h.disjoint v w hvw e' (hheld he) (hheld he')

/-- What is checked of the deliveries and the sweeps; a sweep of the process directory is to
find nothing at all. -/
def unshared (s : Spool) (a : SpoolAct) : Bool :=
  fresh s a &&
    match a with
    | .visit w _ _ _ =>
      match (s.watchers w).phase with
      | .target _ => false
      | _ => true
    | _ => true

theorem unshared_unshared (s : Spool) (a : SpoolAct) (h : unshared s a = true) : Unshared s a := by
  unfold unshared at h
  obtain ⟨hf, hu⟩ := Bool.and_eq_true_iff.mp h
  refine ⟨fresh_fresh s a hf, ?_⟩
  cases a with
  | visit w f i ok =>
    intro scan hp
    dsimp only at hu
    rw [hp] at hu
    cases hu
  | _ => trivial

/-- Two watchers come up, and are told of one file. -/
theorem handed_out_once_two :
    ∃ s, Run (spoolStep spoolSetup) Unshared {}
        [.start 0, .turn 0, .turn 0, .start 1, .turn 1, .turn 1, .deliver (inbox 1) [],
          .readEvents 0 1, .readEvents 1 1, .handle 0 true, .handle 1 true, .nextFile 0] s ∧
      (s.watchers 0).taken = [(inbox 1, 0)] ∧ (s.watchers 1).held = [] ∧
      (∀ w, ((s.watchers w).taken.map Prod.fst).Nodup) ∧
      ∀ v w, v ≠ w → ∀ e ∈ (s.watchers v).taken, ∀ e' ∈ (s.watchers w).taken, e.1 ≠ e'.1 := by
  have hrun : (runChecked (spoolStep spoolSetup) unshared {}
      [.start 0, .turn 0, .turn 0, .start 1, .turn 1, .turn 1, .deliver (inbox 1) [],
        .readEvents 0 1, .readEvents 1 1, .handle 0 true, .handle 1 true, .nextFile 0]).map
      (fun s => ((s.watchers 0).taken, (s.watchers 1).held)) = some ([(inbox 1, 0)], []) := by
    decide +kernel
  obtain ⟨s, hs, hobs⟩ := Option.map_eq_some_iff.mp hrun
  obtain ⟨htaken, hheld⟩ := Prod.mk.inj hobs
  have hr := Run.of_checked unshared_unshared hs
  exact ⟨s, hr, htaken, hheld, handed_out_once hr⟩

/-- A second watcher comes up while the first has handed a file out. -/
theorem swept_from_another :
    ∃ acts s, Run (spoolStep spoolSetup) Fresh {} acts s ∧
      ¬ ((∀ w, ((s.watchers w).taken.map Prod.fst).Nodup) ∧
        ∀ v w, v ≠ w → ∀ e ∈ (s.watchers v).taken, ∀ e' ∈ (s.watchers w).taken, e.1 ≠ e'.1) := by
  have hrun : (runChecked (spoolStep spoolSetup) fresh {}
      [.start 0, .turn 0, .turn 0, .deliver (inbox 1) [], .readEvents 0 1, .handle 0 true,
        .nextFile 0, .start 1, .visit 1 (inbox 1) 0 true, .turn 1, .turn 1, .nextFile 1]).map
      (fun s => ((s.watchers 0).taken, (s.watchers 1).taken)) =
        some ([(inbox 1, 0)], [(inbox 1, 0)]) := by decide +kernel
  obtain ⟨s, hs, hobs⟩ := Option.map_eq_some_iff.mp hrun
  obtain ⟨h0, h1⟩ := Prod.mk.inj hobs
  refine ⟨_, s, Run.of_checked fresh_fresh hs, fun h => ?_⟩
  refine h.2 0 1 (by decide) (inbox 1, 0) ?_ (inbox 1, 0) ?_ rfl
  · rw [h0]
    exact List.mem_cons_self
  · rw [h1]
    exact List.mem_cons_self

end CdrProcessor
