import CdrProcessor.SpoolSteps

/-! Whether a rename of the pipeline can destroy a file.  None does as long as a name that is
put into the ready directory is not on its way already, and none is taken where a file ends. -/

namespace CdrProcessor

variable {cfg : SpoolSetup} {s s' : Spool}

/-! ## What is not in the way -/

/-- Neither in the ready nor in the process directory. -/
def Spool.Free (s : Spool) (f : FileName) : Prop :=
  s.links.find .ready f = none ∧ s.links.find .process f = none

instance (s : Spool) (f : FileName) : Decidable (s.Free f) := inferInstanceAs (Decidable (_ ∧ _))

/-- A name that is put into the ready directory is free, and a file that is put away finds no
other one under its name there. -/
def Unblocked (s : Spool) : SpoolAct → Prop
  | .deliver f _ => s.Free f
  | .openTmp stamp => s.Free stamp.tmp
  | .replace => ∀ stamp i left, s.sink.stage = .writing stamp i left → s.Free stamp.cdr
  | .dispose _ f _ done ok => ok = true → ∀ j, s.links.find .process f = some j →
      s.links.find (if done then .done else .fail) f = none
  | _ => True

/-- What is checked of the names. -/
def unblocked (s : Spool) (a : SpoolAct) : Bool :=
  match a, s.sink.stage with
  | .deliver f _, _ => s.Free f
  | .openTmp stamp, _ => s.Free stamp.tmp
  | .replace, .writing stamp _ _ => s.Free stamp.cdr
  | .dispose _ f _ done _, _ => s.links.find (if done then .done else .fail) f = none
  | _, _ => true

theorem unblocked_unblocked (s : Spool) (a : SpoolAct) (h : unblocked s a = true) :
    Unblocked s a := by
  cases a with
  | deliver f lines => exact of_decide_eq_true (p := s.Free f) h
  | openTmp stamp => exact of_decide_eq_true (p := s.Free stamp.tmp) h
  | replace =>
    intro stamp i left hst
    unfold unblocked at h
    rw [hst] at h
    exact of_decide_eq_true h
  | dispose w f i done ok => exact fun _ _ _ => of_decide_eq_true h
  | _ => trivial

/-! ## The invariant -/

/-- There is a name for the file. -/
def Spool.Named (s : Spool) (i : Nat) : Prop := ∃ d f, s.links.find d f = some i

/-- Nothing was renamed over, all that was written is still there, and no name is both to be
claimed and claimed. -/
structure Intact (s : Spool) : Prop extends Numbered s where
  lane : ∀ f, s.links.find .ready f = none ∨ s.links.find .process f = none
  replaced : s.replaced = []
  written : ∀ e ∈ s.written, e.2 ∈ (s.files e.1).lines ∧ s.Named e.1
  writing : ∀ stamp i left, s.sink.stage = .writing stamp i left → s.Named i

theorem Intact.initial : Intact {} where
  toNumbered := .initial
  lane _ := .inl rfl
  replaced := rfl
  written e h := by cases h
  writing stamp i left h := by cases h

theorem Numbered.named_lt (h : Numbered s) {i : Nat} (hi : s.Named i) : i < s.next := by
  obtain ⟨d, f, hf⟩ := hi
  exact h.below d f i hf

theorem Makes.free {a : SpoolAct} {f : FileName} (h : Makes s a f) (ha : Unblocked s a) :
    s.Free f := by
  cases h with
  | deliver => exact ha
  | openTmp => exact ha

/-- Nothing stands where a file is renamed to. -/
theorem Intact.vacant (h : Intact s) {a : SpoolAct} (ha : Unblocked s a) {d d' : Dir}
    {f f' : FileName} {i : Nat} (hm : Renames s a d f d' f') (hi : s.links.find d f = some i) :
    s.links.find d' f' = none := by
  cases hm with
  | swept | event =>
    refine (h.lane f).resolve_left fun hn => ?_
    rw [hn] at hi
    cases hi
  | disposed => exact ha rfl i hi
  | replace stamp k hst => exact (ha stamp k [] hst).1

/-- A name that is claimed is not in the ready directory any more. -/
theorem Intact.lane_step (h : Intact s) {a : SpoolAct} (ha : Unblocked s a)
    (hs : spoolStep cfg s a = some s') (g : FileName) :
    s'.links.find .ready g = none ∨ s'.links.find .process g = none := by
  rcases spoolStep_names hs with ⟨hl, -, -⟩ | ⟨f, hf, hl, -, -⟩ | ⟨d, f, d', f', j, hm, hj, hl, -, -⟩ <;>
    rw [hl]
  · exact h.lane g
  · simp only [Dirs.find_link]
    by_cases hg : g = f
    · subst hg
      exact .inr (by simpa using (hf.free ha).2)
    · simpa [hg] using h.lane g
  · cases hm with
    | swept | event =>
      simp only [Dirs.find_move]
      by_cases hg : g = f
      · exact .inl (by simp [hg])
      · simpa [hg] using h.lane g
    | disposed w f i done =>
      simp only [Dirs.find_move]
      by_cases hg : g = f
      · exact .inr (by cases done <;> simp [hg])
      · cases done <;> simpa [hg] using h.lane g
    | replace stamp k hst =>
      simp only [Dirs.find_move]
      by_cases hg : g = stamp.cdr
      · subst hg
        exact .inr (by simpa using (ha stamp k [] hst).2)
      · refine (h.lane g).imp (fun hr => ?_) fun hp => by simpa using hp
        rw [if_neg fun he => hg he.2]
        split
        · rfl
        · exact hr

/-- A file keeps a name, whatever is renamed. -/
theorem Intact.named_step (h : Intact s) {a : SpoolAct} (ha : Unblocked s a)
    (hs : spoolStep cfg s a = some s') {i : Nat} (hi : s.Named i) : s'.Named i := by
  obtain ⟨e, g, hg⟩ := hi
  rcases spoolStep_names hs with ⟨hl, -, -⟩ | ⟨f, hf, hl, -, -⟩ | ⟨d, f, d', f', j, hm, hj, hl, -, -⟩
  · exact ⟨e, g, hl ▸ hg⟩
  · refine ⟨e, g, ?_⟩
    rw [hl, Dirs.find_link, if_neg]
    · exact hg
    · rintro ⟨rfl, rfl⟩
      rw [(hf.free ha).1] at hg
      cases hg
  · by_cases hmoved : e = d ∧ g = f
    · -- the file that is renamed
      obtain ⟨rfl, rfl⟩ := hmoved
      rw [hj] at hg
      cases hg
      exact ⟨d', f', by rw [hl, Dirs.find_move, if_pos ⟨rfl, rfl⟩]⟩
    · refine ⟨e, g, ?_⟩
      rw [hl, Dirs.find_move, if_neg, if_neg hmoved]
      · exact hg
      · rintro ⟨rfl, rfl⟩
        rw [h.vacant ha hm hj] at hg
        cases hg

theorem Intact.step (h : Intact s) {a : SpoolAct} (ha : Unblocked s a)
    (hs : spoolStep cfg s a = some s') : Intact s' := by
  have hnamed : ∀ {i}, s.Named i → s'.Named i := h.named_step ha hs
  -- a line that was written is in a file that was there before
  have hold : ∀ {files : Nat → SpoolFile},
      (∀ i, s.Named i → ∀ l ∈ (s.files i).lines, l ∈ (files i).lines) →
      ∀ e ∈ s.written, e.2 ∈ (files e.1).lines ∧ s'.Named e.1 := fun hf e he =>
    ⟨hf e.1 (h.written e he).2 e.2 (h.written e he).1, hnamed (h.written e he).2⟩
  have hne : ∀ {i}, s.Named i → i ≠ s.next := fun hi => Nat.ne_of_lt (h.named_lt hi)
  have hreplaced : s'.replaced = [] := by
    rcases spoolStep_names hs with ⟨-, -, hr⟩ | ⟨f, hf, -, -, hr⟩ | ⟨d, f, d', f', j, hm, hj, -, -, hr⟩
    · rw [hr, h.replaced]
    · rw [hr, h.replaced]
    · rw [hr, h.replaced, h.vacant ha hm hj]
      rfl
  refine ⟨h.toNumbered.step hs, h.lane_step ha hs, hreplaced, ?_, ?_⟩
  · rcases spoolStep_files hs with ⟨hf, hw, -⟩ | ⟨stamp, i, left, rfl, hi, -, hf, hw, -⟩ |
      ⟨stamp, i, line, left, hst, hf, hw, -⟩ | ⟨stamp, i, j, -, -, -, -, hf, hw, -⟩ |
      ⟨f, lines, -, -, hf, hw, -⟩ <;> rw [hf, hw]
    · exact hold fun i _ l hl => hl
    · refine hold fun k hk l hl => ?_
      rcases hi with hi | ⟨-, rfl, -⟩
      · rw [show s.links.find .ready stamp.tmp = none from ha.1] at hi
        cases hi
      · rw [Function.update_of_ne (hne hk)]
        exact hl
    · have hgrow : ∀ k, ∀ l ∈ (s.files k).lines, l ∈ (Function.update s.files i
          { s.files i with lines := (s.files i).lines ++ [line] } k).lines := by
        intro k l hl
        by_cases hk : k = i
        · subst hk
          rw [Function.update_self]
          exact List.mem_append_left _ hl
        · rw [Function.update_of_ne hk]
          exact hl
      intro e he
      rcases List.mem_append.mp he with he | he
      · exact hold (fun k _ => hgrow k) e he
      · rw [List.mem_singleton.mp he]
        refine ⟨?_, hnamed (h.writing stamp i _ hst)⟩
        dsimp only
        rw [Function.update_self]
        exact List.mem_append_right _ (List.mem_singleton_self _)
    · refine hold fun k _ l hl => ?_
      by_cases hk : k = j
      · subst hk
        rw [Function.update_self]
        exact hl
      · rw [Function.update_of_ne hk]
        exact hl
    · refine hold fun k hk l hl => ?_
      rw [Function.update_of_ne (hne hk)]
      exact hl
  · intro stamp i left hst
    rcases spoolStep_files hs with ⟨-, -, hsink⟩ | ⟨stamp', i', left', -, -, hi', -, -, hsink⟩ |
      ⟨stamp', i', line, left', hst', -, -, hsink⟩ | ⟨_, _, _, -, -, -, -, -, -, hsink⟩ |
      ⟨_, _, -, -, -, -, hsink⟩
    · exact hnamed (h.writing stamp i left (hsink stamp i left hst))
    · rw [hsink] at hst
      cases hst
      exact ⟨.ready, _, hi'⟩
    · rw [hsink] at hst
      cases hst
      exact hnamed (h.writing _ _ _ hst')
    · rw [hsink] at hst
      cases hst
    · rw [hsink] at hst
      exact hnamed (h.writing stamp i left hst)

/-- **No rename destroys a file**, in any run that meets the condition: nothing is ever
renamed over, and every line the sink has written is in a file that has a name. -/
theorem no_rename_destroys {acts : List SpoolAct} (hr : Run (spoolStep cfg) Unblocked {} acts s) :
    s.replaced = [] ∧
      ∀ e ∈ s.written, ∃ d f, s.links.find d f = some e.1 ∧ e.2 ∈ (s.files e.1).lines := by
  have h := hr.invariant (fun _ _ _ hi ha hs => Intact.step hi ha hs) Intact.initial
  refine ⟨h.replaced, fun e he => ?_⟩
  obtain ⟨hl, d, f, hf⟩ := h.written e he
  exact ⟨d, f, hf, hl⟩

/-- A file is rotated out, claimed by a sweep, read and moved to done; one of the same name is
delivered then, and ends in failed. -/
def twiceNamed : List SpoolAct :=
  rotation noon "1".toList ++
    [.start 0, .turn 0, .visit 0 noon.cdr 0 true, .turn 0, .nextFile 0,
      .dispose 0 noon.cdr 0 true true, .deliver noon.cdr [], .readEvents 0 1, .handle 0 true,
      .nextFile 0, .dispose 0 noon.cdr 1 false true]

theorem no_rename_destroys_once :
    ∃ s, Run (spoolStep spoolSetup) Unblocked {} twiceNamed s ∧
      s.links.find .done noon.cdr = some 0 ∧ s.links.find .fail noon.cdr = some 1 ∧
      s.written.length = 2 ∧ s.replaced = [] ∧
      ∀ e ∈ s.written, ∃ d f, s.links.find d f = some e.1 ∧ e.2 ∈ (s.files e.1).lines := by
  have hrun : (runChecked (spoolStep spoolSetup) unblocked {} twiceNamed).map
      (fun s => (s.links.find .done noon.cdr, s.links.find .fail noon.cdr, s.written.length)) =
        some (some 0, some 1, 2) := by decide +kernel
  obtain ⟨s, hs, hobs⟩ := Option.map_eq_some_iff.mp hrun
  obtain ⟨hdone, hobs⟩ := Prod.mk.inj hobs
  obtain ⟨hfail, hlen⟩ := Prod.mk.inj hobs
  have hr := Run.of_checked unblocked_unblocked hs
  exact ⟨s, hr, hdone, hfail, hlen, no_rename_destroys hr⟩

/-- A rotation, one more record, and the shutdown within the same second. -/
theorem rotated_twice_in_a_second :
    ∃ acts s, Run (spoolStep spoolSetup) (fun _ _ => True) {} acts s ∧
      ¬ (s.replaced = [] ∧
        ∀ e ∈ s.written, ∃ d f, s.links.find d f = some e.1 ∧ e.2 ∈ (s.files e.1).lines) := by
  have hrun : (runChecked (spoolStep spoolSetup) (fun _ _ => true) {}
      (rotation noon "1".toList ++ rotation noon "2".toList)).map Spool.replaced = some [0] := by
    decide +kernel
  obtain ⟨s, hs, hobs⟩ := Option.map_eq_some_iff.mp hrun
  refine ⟨_, s, Run.of_checked (fun _ _ _ => trivial) hs, fun h => ?_⟩
  rw [h.1] at hobs
  cases hobs

end CdrProcessor
