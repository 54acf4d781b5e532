import CdrProcessor.SpoolSteps

/-! Whether a watcher can take a file its writer is not through with.  It cannot by an event;
a sweep of the ready directory takes whatever has a name there. -/

namespace CdrProcessor

variable {cfg : SpoolSetup} {s s' : Spool}

/-! ## Names -/

/-- A name a file is written under. -/
def FileName.Tmp (f : FileName) : Prop := ".cdr.tmp".toList <:+ f.1

instance (f : FileName) : Decidable f.Tmp := inferInstanceAs (Decidable (_ <:+ _))

theorem Stamp.tmp_tmp (stamp : Stamp) : stamp.tmp.Tmp := List.suffix_append _ _

theorem Stamp.cdr_not_tmp (stamp : Stamp) : ¬ stamp.cdr.Tmp := by
  rintro ⟨l, hl⟩
  -- the last letters differ
  have h := congrArg List.getLast? (show l ++ ".cdr.tmp".toList = stamp.text ++ ".cdr".toList from hl)
  rw [List.getLast?_append_of_ne_nil _ (by decide), List.getLast?_append_of_ne_nil _ (by decide)] at h
  revert h
  decide

/-- No sweep of the ready directory claims a file under a temporary name, and other senders
do not use such names. -/
def NoTmpSwept (s : Spool) : SpoolAct → Prop
  | .visit w f _ ok => ∀ scan, (s.watchers w).phase = .source scan → f.Tmp → ok = true →
    s.links.find .ready f = none
  | .deliver f _ => ¬ f.Tmp
  | _ => True

/-! ## The invariant -/

/-- What a watcher knows of is finished. -/
structure Handles (files : Nat → SpoolFile) (w : DirWatcher) : Prop where
  held : ∀ e ∈ w.taken ++ w.queue, (files e.2).whole = true
  scan : ∀ scan, w.phase = .target scan → ∀ e ∈ scan.before, (files e.2).whole = true
  events : ∀ f, some f ∈ w.events ∨ some f ∈ w.buffer → ¬ f.Tmp

structure Finished (s : Spool) : Prop extends Numbered s where
  tmp : ∀ f i, s.links.find .ready f = some i → f.Tmp → (s.files i).whole = false
  final : ∀ f i, s.links.find .ready f = some i → ¬ f.Tmp → (s.files i).whole = true
  claimed : ∀ d f i, d ≠ .ready → s.links.find d f = some i → (s.files i).whole = true
  sink : ∀ stamp i left, s.sink.stage = .writing stamp i left →
    i < s.next ∧ (s.files i).whole = false ∧ ∀ j, s.links.find .ready stamp.tmp = some j → j = i
  watchers : ∀ w, Handles s.files (s.watchers w)

theorem Finished.initial : Finished {} where
  toNumbered := .initial
  tmp f i h := by cases h
  final f i h := by cases h
  claimed d f i _ h := by cases h
  sink stamp i left h := by cases h
  watchers w := {
    held := fun e h => by cases h
    scan := fun scan h => by cases h
    events := fun f h => by rcases h with h | h <;> cases h }

/-! ## Its steps -/

/-- A file that is finished stays so. -/
theorem Finished.whole_mono (h : Finished s) {a : SpoolAct} (hf : FileStep s a s') {i : Nat}
    (hi : (s.files i).whole = true) : (s'.files i).whole = true := by
  have hne : ∀ {j}, (s.files j).whole = false → i ≠ j := by
    rintro j hj rfl
    rw [hi] at hj
    cases hj
  rcases hf with ⟨hf, -, -⟩ | ⟨stamp, j, left, -, hj, -, hf, -, -⟩ |
    ⟨stamp, j, line, left, -, hf, -, -⟩ | ⟨stamp, k, j, -, -, -, -, hf, -, -⟩ |
    ⟨f, lines, -, -, hf, -, -⟩ <;> rw [hf]
  · exact hi
  · have hj' : (s.files j).whole = false := by
      rcases hj with hj | ⟨-, rfl, -⟩
      · exact h.tmp _ _ hj stamp.tmp_tmp
      · exact h.unborn _ (le_refl _)
    rw [Function.update_of_ne (hne hj')]
    exact hi
  · by_cases hij : i = j
    · subst hij
      rw [Function.update_self]
      exact hi
    · rw [Function.update_of_ne hij]
      exact hi
  · by_cases hij : i = j
    · subst hij
      rw [Function.update_self]
      dsimp only
      rw [hi, Bool.true_or]
    · rw [Function.update_of_ne hij]
      exact hi
  · rw [Function.update_of_ne (hne (h.unborn _ (le_refl _)))]
    exact hi

/-- What is put in place is finished. -/
theorem Finished.put_whole (h : Finished s) {a : SpoolAct} {f : FileName} {i : Nat}
    (hp : Puts s a f) (hs : spoolStep cfg s a = some s') (hi : s'.links.find .ready f = some i) :
    (s'.files i).whole = true := by
  cases hp with
  | deliver f lines =>
    cases hs
    change (s.links.link .ready f s.next).find .ready f = some i at hi
    rw [Dirs.find_link, if_pos ⟨rfl, rfl⟩] at hi
    cases hi
    change (Function.update s.files s.next _ s.next).whole = true
    rw [Function.update_self]
  | replace stamp j hst =>
    change s.replace cfg = _ at hs
    unfold Spool.replace at hs
    rw [hst] at hs
    dsimp only at hs
    split at hs
    · next k t ht =>
      obtain ⟨hk, rfl⟩ := rename_eq_some ht
      rw [(h.sink stamp j [] hst).2.2 k hk] at hs
      cases hs
      change (s.links.move .ready stamp.tmp .ready stamp.cdr j).find .ready stamp.cdr = some i at hi
      rw [Dirs.find_move, if_pos ⟨rfl, rfl⟩] at hi
      cases hi
      change (Function.update s.files i _ i).whole = true
      rw [Function.update_self]
      simp
    · cases hs
      exact h.final _ _ hi stamp.cdr_not_tmp

/-- What has a temporary name is not finished. -/
theorem Finished.step_tmp (h : Finished s) {a : SpoolAct} (ha : NoTmpSwept s a)
    (hs : spoolStep cfg s a = some s') {f : FileName} {i : Nat}
    (hi : s'.links.find .ready f = some i) (hf : f.Tmp) : (s'.files i).whole = false := by
  have hn := spoolStep_names hs
  have hold : (s.files i).whole = false := by
    rcases hn with ⟨hl, -, -⟩ | ⟨g, -, hl, -, -⟩ | ⟨d, g, d', g', j, hm, hj, hl, -, -⟩ <;> rw [hl] at hi
    · exact h.tmp f i hi hf
    · rcases Dirs.of_find_link hi with ⟨-, -, rfl⟩ | hi
      · exact h.unborn _ (le_refl _)
      · exact h.tmp f i hi hf
    · rcases Dirs.of_find_move hi with ⟨hd, hg, -⟩ | ⟨-, hi⟩
      · rcases hm.onward with ⟨-, -, hr⟩ | ⟨stamp, k, -, -, -, rfl⟩
        · exact absurd hd.symm hr
        · rw [hg] at hf
          exact absurd hf stamp.cdr_not_tmp
      · exact h.tmp f i hi hf
  -- nothing is put in place under a temporary name
  rw [Bool.eq_false_iff]
  intro hw
  rcases whole_new (spoolStep_files hs) hw with hw | ⟨g, hp, hg⟩
  · rw [hold] at hw
    cases hw
  · obtain ⟨-, rfl⟩ := hn.apart h.below h.apart _ _ _ _ _ hi hg
    cases hp with
    | deliver f lines => exact ha hf
    | replace stamp j hst => exact stamp.cdr_not_tmp hf

theorem Finished.step_final (h : Finished s) {a : SpoolAct} (hs : spoolStep cfg s a = some s')
    {f : FileName} {i : Nat} (hi : s'.links.find .ready f = some i) (hf : ¬ f.Tmp) :
    (s'.files i).whole = true := by
  have hmono : ∀ {j}, s.links.find .ready f = some j → (s'.files j).whole = true :=
    fun hj => h.whole_mono (spoolStep_files hs) (h.final f _ hj hf)
  rcases spoolStep_names hs with ⟨hl, -, -⟩ | ⟨g, hg, hl, -, -⟩ | ⟨d, g, d', g', j, hm, hj, hl, -, -⟩
  · rw [hl] at hi
    exact hmono hi
  · have hi' := hi
    rw [hl] at hi'
    rcases Dirs.of_find_link hi' with ⟨-, rfl, -⟩ | hi'
    · cases hg with
      | deliver f lines => exact h.put_whole (.deliver f lines) hs hi
      | openTmp stamp => exact absurd stamp.tmp_tmp hf
    · exact hmono hi'
  · have hi' := hi
    rw [hl] at hi'
    rcases Dirs.of_find_move hi' with ⟨hd, hg, -⟩ | ⟨-, hi'⟩
    · rcases hm.onward with ⟨-, -, hr⟩ | ⟨stamp, k, rfl, hst, -, hg'⟩
      · exact absurd hd.symm hr
      · rw [hg, hg'] at hi
        exact h.put_whole (.replace stamp k hst) hs hi
    · exact hmono hi'

/-- What is renamed out of the ready directory is finished. -/
theorem Finished.claims_whole (h : Finished s) {a : SpoolAct} (ha : NoTmpSwept s a) {d d' : Dir}
    {f f' : FileName} {i : Nat} (hm : Renames s a d f d' f') (hd : d' ≠ .ready)
    (hi : s.links.find d f = some i) : (s.files i).whole = true := by
  cases hm with
  | swept w f k scan hp =>
    refine h.final f i hi fun hf => ?_
    rw [ha scan hp hf rfl] at hi
    cases hi
  | event w f buffer hb =>
    refine h.final f i hi ((h.watchers w).events f (.inr ?_))
    rw [hb]
    exact List.mem_cons_self
  | disposed w f k done => exact h.claimed _ f i (by decide) hi
  | replace stamp k hst => exact absurd rfl hd

theorem Finished.step_claimed (h : Finished s) {a : SpoolAct} (ha : NoTmpSwept s a)
    (hs : spoolStep cfg s a = some s') {d : Dir} {f : FileName} {i : Nat} (hd : d ≠ .ready)
    (hi : s'.links.find d f = some i) : (s'.files i).whole = true := by
  refine h.whole_mono (spoolStep_files hs) ?_
  rcases spoolStep_names hs with ⟨hl, -, -⟩ | ⟨g, -, hl, -, -⟩ | ⟨e, g, e', g', j, hm, hj, hl, -, -⟩ <;>
    rw [hl] at hi
  · exact h.claimed d f i hd hi
  · rcases Dirs.of_find_link hi with ⟨he, -, -⟩ | hi
    · exact absurd he hd
    · exact h.claimed d f i hd hi
  · rcases Dirs.of_find_move hi with ⟨he, -, rfl⟩ | ⟨-, hi⟩
    · exact h.claims_whole ha hm (he ▸ hd) hj
    · exact h.claimed d f i hd hi

/-- The file the sink writes is the one under its temporary name, if there is one. -/
theorem Finished.step_writing (h : Finished s) {a : SpoolAct} (ha : NoTmpSwept s a)
    (hs : spoolStep cfg s a = some s') {stamp : Stamp} {i j : Nat} {left : List Text}
    (hst : s.sink.stage = .writing stamp i left) (hj : s'.links.find .ready stamp.tmp = some j) :
    j = i := by
  have hold := (h.sink stamp i left hst).2.2
  rcases spoolStep_names hs with ⟨hl, -, -⟩ | ⟨g, hg, hl, -, -⟩ | ⟨d, g, d', g', k, hm, -, hl, -, -⟩ <;>
    rw [hl] at hj
  · exact hold j hj
  · rcases Dirs.of_find_link hj with ⟨-, he, -⟩ | hj
    · cases hg with
      | deliver f lines =>
        rw [← he] at ha
        exact absurd stamp.tmp_tmp ha
      | openTmp stamp' =>
        -- the sink does not open another one
        change s.openTmp cfg stamp' = _ at hs
        unfold Spool.openTmp at hs
        rw [hst] at hs
        cases hs
    · exact hold j hj
  · rcases Dirs.of_find_move hj with ⟨hd, he, -⟩ | ⟨-, hj⟩
    · rcases hm.onward with ⟨-, -, hr⟩ | ⟨stamp', k', -, -, -, he'⟩
      · exact absurd hd.symm hr
      · have htmp := stamp.tmp_tmp
        rw [he, he'] at htmp
        exact absurd htmp stamp'.cdr_not_tmp
    · exact hold j hj

theorem Finished.step_sink (h : Finished s) {a : SpoolAct} (ha : NoTmpSwept s a)
    (hs : spoolStep cfg s a = some s') {stamp : Stamp} {i : Nat} {left : List Text}
    (hst : s'.sink.stage = .writing stamp i left) :
    i < s'.next ∧ (s'.files i).whole = false ∧
      ∀ j, s'.links.find .ready stamp.tmp = some j → j = i := by
  have hnext := (spoolStep_names hs).next_le
  rcases spoolStep_files hs with ⟨hf, -, hsink⟩ | ⟨stamp', k, left', rfl, hk, hk', hf, -, hsink⟩ |
    ⟨stamp', k, line, left', hst', hf, -, hsink⟩ | ⟨_, _, _, -, -, -, -, -, -, hsink⟩ |
    ⟨_, _, -, -, hf, -, hsink⟩
  · have hold := hsink stamp i left hst
    obtain ⟨hlt, hw, -⟩ := h.sink stamp i left hold
    rw [hf]
    exact ⟨by omega, hw, fun j hj => h.step_writing ha hs hold hj⟩
  · rw [hsink] at hst
    cases hst
    refine ⟨?_, ?_, fun j hj => ?_⟩
    · rcases hk with hk | ⟨-, rfl, hn⟩
      · have := h.below _ _ _ hk
        omega
      · omega
    · rw [hf, Function.update_self]
    · rw [hk'] at hj
      exact (Option.some.inj hj).symm
  · rw [hsink] at hst
    cases hst
    obtain ⟨hlt, hw, -⟩ := h.sink _ _ _ hst'
    refine ⟨by omega, ?_, fun j hj => h.step_writing ha hs hst' hj⟩
    rw [hf, Function.update_self]
    exact hw
  · rw [hsink] at hst
    cases hst
  · rw [hsink] at hst
    obtain ⟨hlt, hw, -⟩ := h.sink stamp i left hst
    refine ⟨by omega, ?_, fun j hj => h.step_writing ha hs hst hj⟩
    rw [hf, Function.update_of_ne (Nat.ne_of_lt hlt)]
    exact hw

/-- What a claim takes is finished. -/
theorem Finished.new_whole (h : Finished s) {a : SpoolAct} (ha : NoTmpSwept s a)
    (hs : spoolStep cfg s a = some s') {f : FileName} {ok : Bool} {new : List (FileName × Nat)}
    (hc : Claims s s' f ok new) : ∀ e ∈ new, (s'.files e.2).whole = true := by
  intro e he
  cases hc with
  | missed => cases he
  | got i hi hl =>
    rw [List.mem_singleton.mp he]
    refine h.step_claimed ha hs (d := .process) (f := f) (by decide) ?_
    rw [hl, Dirs.find_move, if_pos ⟨rfl, rfl⟩]

theorem mem_queueEvent {cap : Nat} {events : List (Option FileName)} {f g : FileName}
    (h : some g ∈ queueEvent cap events f) : some g ∈ events ∨ g = f := by
  unfold queueEvent at h
  split at h
  · rcases List.mem_append.mp h with h | h
    · exact .inl h
    · exact .inr (Option.some.inj (List.mem_singleton.mp h))
  · split at h
    · exact .inl h
    · rcases List.mem_append.mp h with h | h
      · exact .inl h
      · cases List.mem_singleton.mp h

theorem Puts.not_tmp {a : SpoolAct} {f : FileName} (h : Puts s a f) (ha : NoTmpSwept s a) :
    ¬ f.Tmp := by
  cases h with
  | deliver f lines => exact ha
  | replace stamp i hst => exact stamp.cdr_not_tmp

theorem Finished.step_watcher (h : Finished s) {a : SpoolAct} (ha : NoTmpSwept s a)
    (hs : spoolStep cfg s a = some s') (w : Nat) : Handles s'.files (s'.watchers w) := by
  have hmono : ∀ {i}, (s.files i).whole = true → (s'.files i).whole = true :=
    h.whole_mono (spoolStep_files hs)
  have hw : Handles s'.files (s.watchers w) :=
    ⟨fun e he => hmono ((h.watchers w).held e he),
      fun scan hp e he => hmono ((h.watchers w).scan scan hp e he), (h.watchers w).events⟩
  have hgrow : ∀ {new : List (FileName × Nat)}, (∀ e ∈ new, (s'.files e.2).whole = true) →
      ∀ e ∈ (s.watchers w).taken ++ ((s.watchers w).queue ++ new), (s'.files e.2).whole = true := by
    intro new hnew e he
    rw [← List.append_assoc] at he
    exact (List.mem_append.mp he).elim (hw.held e) (hnew e)
  rcases spoolStep_watcher hs w with h' | ⟨f, hf, h'⟩ | ⟨hl, h'⟩ | ⟨scan, f, i, ok, rfl, hp, hb, hl, h'⟩ |
    ⟨scan, f, i, ok, new, rfl, hp, hc, h'⟩ | ⟨scan, hp, hl, h'⟩ | ⟨scan, hp, ho, hl, h'⟩ |
    ⟨n, hp, hb, h'⟩ | ⟨buffer, hb, h'⟩ | ⟨f, buffer, ok, new, rfl, hb, hc, h'⟩ |
    ⟨e, queue, hq, hp, h'⟩ | ⟨working, h'⟩ | h' <;> rw [h']
  · exact hw
  · unfold DirWatcher.notify
    split
    · refine ⟨hw.held, hw.scan, fun g hg => ?_⟩
      rcases hg with hg | hg
      · rcases mem_queueEvent hg with hg | rfl
        · exact hw.events g (.inl hg)
        · exact hf.not_tmp ha
      · exact hw.events g (.inr hg)
    · exact hw
  · refine ⟨(fun e he => by cases he), fun scan hp e he => ?_, fun f hf => ?_⟩
    · cases hp
      exact hmono (h.claimed .process _ _ (by decide) (Dirs.mem_listing.mp he))
    · rcases hf with hf | hf <;> cases hf
  · have hentry : (s'.files i).whole = true := by
      obtain ⟨hin, -⟩ := of_decide_eq_true hb
      rcases hin with hin | hin
      · exact hw.scan scan hp _ hin
      · exact hmono (h.claimed .process f i (by decide) (Dirs.mem_listing.mp hin))
    refine ⟨hgrow fun e he => ?_, fun scan' hp' e he => ?_, hw.events⟩
    · rw [List.mem_singleton.mp he]
      exact hentry
    · cases hp'
      exact hw.scan scan hp e he
  · exact ⟨hgrow (h.new_whole ha hs hc), (fun scan' hp' => by cases hp'), hw.events⟩
  · exact ⟨hw.held, (fun scan' hp' => by cases hp'), hw.events⟩
  · exact ⟨hw.held, (fun scan' hp' => by cases hp'), hw.events⟩
  · refine ⟨hw.held, hw.scan, fun f hf => hw.events f (.inl ?_)⟩
    rcases hf with hf | hf
    · exact List.mem_of_mem_drop hf
    · exact List.mem_of_mem_take hf
  · refine ⟨hw.held, hw.scan, fun f hf => hw.events f (hf.imp_right fun hf => ?_)⟩
    rw [hb]
    exact List.mem_cons_of_mem _ hf
  · refine ⟨hgrow (h.new_whole ha hs hc), hw.scan, fun g hg => hw.events g (hg.imp_right fun hg => ?_)⟩
    rw [hb]
    exact List.mem_cons_of_mem _ hg
  · refine ⟨fun x hx => hw.held x ?_, hw.scan, hw.events⟩
    rw [hq]
    simpa using hx
  · exact ⟨hw.held, hw.scan, hw.events⟩
  · refine ⟨(fun e he => by cases he), (fun scan' hp' => by cases hp'), fun f hf => ?_⟩
    rcases hf with hf | hf <;> cases hf

theorem Finished.step (h : Finished s) {a : SpoolAct} (ha : NoTmpSwept s a)
    (hs : spoolStep cfg s a = some s') : Finished s' where
  toNumbered := h.toNumbered.step hs
  tmp _ _ hi hf := h.step_tmp ha hs hi hf
  final _ _ hi hf := h.step_final hs hi hf
  claimed _ _ _ hd hi := h.step_claimed ha hs hd hi
  sink _ _ _ hst := h.step_sink ha hs hst
  watchers := h.step_watcher ha hs

/-! ## Whole runs -/

/-- **Only finished files are taken**, in any run that meets the condition: what a watcher
has claimed, and what it has handed out, was put in place by its writer. -/
theorem only_finished_taken {acts : List SpoolAct}
    (hr : Run (spoolStep cfg) NoTmpSwept {} acts s) (w : Nat) :
    ∀ e ∈ (s.watchers w).taken ++ (s.watchers w).queue, (s.files e.2).whole = true :=
  ((hr.invariant (fun _ _ _ hi ha hs => Finished.step hi ha hs) Finished.initial).watchers w).held

/-- What is checked of the sweeps. -/
def noTmpSwept (s : Spool) : SpoolAct → Bool
  | .visit w f _ _ =>
    match (s.watchers w).phase with
    | .source _ => ¬ f.Tmp
    | _ => true
  | .deliver f _ => ¬ f.Tmp
  | _ => true

theorem noTmpSwept_noTmpSwept (s : Spool) (a : SpoolAct) (h : noTmpSwept s a = true) :
    NoTmpSwept s a := by
  cases a with
  | visit w f i ok =>
    intro scan hp hf
    dsimp only [noTmpSwept] at h
    rw [hp] at h
    exact absurd hf (of_decide_eq_true h)
  | deliver f lines =>
    have hf : ¬ f.Tmp := of_decide_eq_true h
    exact hf
  | _ => trivial

/-- A file rotated out while a watcher runs. -/
theorem only_finished_taken_once :
    ∃ s, Run (spoolStep spoolSetup) NoTmpSwept {} ([.start 0, .turn 0, .turn 0] ++
        rotation noon "1".toList ++ [.readEvents 0 1, .handle 0 true, .nextFile 0]) s ∧
      (s.watchers 0).taken = [(noon.cdr, 0)] ∧
      ∀ e ∈ (s.watchers 0).taken ++ (s.watchers 0).queue, (s.files e.2).whole = true := by
  have hrun : (runChecked (spoolStep spoolSetup) noTmpSwept {} ([.start 0, .turn 0, .turn 0] ++
      rotation noon "1".toList ++ [.readEvents 0 1, .handle 0 true, .nextFile 0])).map
      (fun s => (s.watchers 0).taken) = some [(noon.cdr, 0)] := by decide +kernel
  obtain ⟨s, hs, htaken⟩ := Option.map_eq_some_iff.mp hrun
  have hr := Run.of_checked noTmpSwept_noTmpSwept hs
  exact ⟨s, hr, htaken, only_finished_taken hr 0⟩

/-- The processor comes up while the sink has written the header. -/
theorem half_written_taken :
    ∃ acts s, Run (spoolStep spoolSetup) (fun _ _ => True) {} acts s ∧
      ¬ ∀ w, ∀ e ∈ (s.watchers w).taken ++ (s.watchers w).queue, (s.files e.2).whole = true := by
  have hrun : (runChecked (spoolStep spoolSetup) (fun _ _ => true) {}
      [.emit "1".toList, .openTmp noon, .write, .start 0, .turn 0, .visit 0 noon.tmp 0 true, .turn 0,
        .nextFile 0]).map (fun s => ((s.watchers 0).taken, (s.files 0).whole)) =
      some ([(noon.tmp, 0)], false) := by decide +kernel
  obtain ⟨s, hs, hobs⟩ := Option.map_eq_some_iff.mp hrun
  obtain ⟨htaken, hwhole⟩ := Prod.mk.inj hobs
  refine ⟨_, s, Run.of_checked (fun _ _ _ => trivial) hs, fun h => ?_⟩
  have htrue := h 0 (noon.tmp, 0) (by rw [htaken]; exact List.mem_cons_self)
  rw [hwhole] at htrue
  cases htrue

end CdrProcessor
