import CdrProcessor.Spool

/-! What each step of the spool does to the names, to the files and to a watcher, and what
follows when every name that is put into the ready directory is a new one. -/

namespace CdrProcessor

variable {cfg : SpoolSetup} {s s' : Spool}

/-! ## Renames -/

theorem rename_eq_some {d d' : Dir} {f f' : FileName} {i : Nat} {t : Spool}
    (h : s.rename d f d' f' = some (i, t)) : s.links.find d f = some i ∧ t = { s with
      links := s.links.move d f d' f' i
      replaced := s.replaced ++ (s.links.find d' f').toList } := by
  obtain ⟨j, hj, he⟩ := Option.map_eq_some_iff.mp h
  cases he
  exact ⟨hj, rfl⟩

theorem rename_eq_none {d d' : Dir} {f f' : FileName} (h : s.rename d f d' f' = none) :
    s.links.find d f = none := Option.map_eq_none_iff.mp h

/-- A claim takes the file under the name, if there is one and the rename works. -/
theorem claim_cases (s : Spool) (w : Nat) (f : FileName) (ok : Bool) :
    (s.claim w f ok = s ∧ (ok = true → s.links.find .ready f = none)) ∨
      ∃ i, s.links.find .ready f = some i ∧ ok = true ∧ s.claim w f ok = { s with
        links := s.links.move .ready f .process f i
        replaced := s.replaced ++ (s.links.find .process f).toList
        watchers := Function.update s.watchers w
          { s.watchers w with queue := (s.watchers w).queue ++ [(f, i)] } } := by
  unfold Spool.claim
  cases ok with
  | false => exact .inl ⟨rfl, fun h => by cases h⟩
  | true =>
    rw [if_pos rfl]
    split
    · next i t ht =>
      obtain ⟨hi, rfl⟩ := rename_eq_some ht
      exact .inr ⟨i, hi, rfl, rfl⟩
    · next hn => exact .inl ⟨rfl, fun _ => rename_eq_none hn⟩

/-! ## What there is of each step -/

/-- The sink opens the file of that name if there is one, and a new one if not. -/
theorem openTmp_cases {stamp : Stamp} (h : s.openTmp cfg stamp = some s') :
    ∃ left, (∃ i, s.links.find .ready stamp.tmp = some i ∧ s' = { s with
        files := Function.update s.files i {}
        sink := { s.sink with stage := .writing stamp i left } }) ∨
      s.links.find .ready stamp.tmp = none ∧ s' = { s with
        links := s.links.link .ready stamp.tmp s.next
        files := Function.update s.files s.next {}
        next := s.next + 1
        sink := { s.sink with stage := .writing stamp s.next left } } := by
  unfold Spool.openTmp at h
  split at h
  · split at h
    · cases h
    · dsimp only at h
      split at h
      · next i hi =>
        cases h
        exact ⟨_, .inl ⟨i, hi, rfl⟩⟩
      · next hn =>
        cases h
        exact ⟨_, .inr ⟨hn, rfl⟩⟩
  · cases h

theorem replace_cases (h : s.replace cfg = some s') :
    ∃ stamp i, s.sink.stage = .writing stamp i [] ∧
      ((∃ j, s.links.find .ready stamp.tmp = some j ∧ s' = ({ s with
          links := s.links.move .ready stamp.tmp .ready stamp.cdr j
          replaced := s.replaced ++ (s.links.find .ready stamp.cdr).toList
          files := Function.update s.files j
            { s.files j with whole := (s.files j).whole || i = j }
          sink := { s.sink with stage := .saved } } : Spool).notify cfg.cap stamp.cdr) ∨
        s' = { s with sink := { s.sink with stage := .idle } }) := by
  unfold Spool.replace at h
  split at h
  · next stamp i hst =>
    refine ⟨stamp, i, hst, ?_⟩
    split at h
    · next j t ht =>
      obtain ⟨hj, rfl⟩ := rename_eq_some ht
      cases h
      exact .inl ⟨j, hj, rfl⟩
    · cases h
      exact .inr rfl
  · cases h

/-- An entry of the process directory is queued, one of the ready directory claimed. -/
theorem visit_cases {w : Nat} {f : FileName} {i : Nat} {ok : Bool}
    (h : s.visit w f i ok = some s') :
    (∃ scan, (s.watchers w).phase = .target scan ∧
      scan.brings (s.links.listing .process) (f, i) = true ∧
      s' = s.setWatcher w { s.watchers w with
        phase := .target (scan.see (f, i)), queue := (s.watchers w).queue ++ [(f, i)] }) ∨
    ∃ scan, (s.watchers w).phase = .source scan ∧ s' = (s.setWatcher w { s.watchers w with
      phase := .source (scan.see (f, i)) }).claim w f ok := by
  unfold Spool.visit at h
  dsimp only at h
  split at h
  · next scan hp =>
    split at h
    · next hb =>
      cases h
      exact .inl ⟨scan, hp, hb, rfl⟩
    · cases h
  · next scan hp =>
    split at h
    · cases h
      exact .inr ⟨scan, hp, rfl⟩
    · cases h
  · cases h

theorem turn_cases {w : Nat} (h : s.turn w = some s') :
    (∃ scan, (s.watchers w).phase = .target scan ∧ s' = s.setWatcher w { s.watchers w with
      phase := .source { before := s.links.listing .ready } }) ∨
    ∃ scan, (s.watchers w).phase = .source scan ∧ scan.over (s.links.listing .ready) = true ∧
      s' = s.setWatcher w { s.watchers w with phase := .running } := by
  unfold Spool.turn at h
  dsimp only at h
  split at h
  · next scan hp =>
    split at h <;> cases h
    exact .inl ⟨scan, hp, rfl⟩
  · next scan hp =>
    split at h
    · next ho =>
      cases h
      exact .inr ⟨scan, hp, ho, rfl⟩
    · cases h
  · cases h

/-- An event with a name is a claim, one without is passed over. -/
theorem handle_cases {w : Nat} {ok : Bool} (h : s.handle w ok = some s') :
    (∃ f buffer, (s.watchers w).buffer = some f :: buffer ∧
      s' = (s.setWatcher w { s.watchers w with buffer }).claim w f ok) ∨
    ∃ buffer, (s.watchers w).buffer = none :: buffer ∧
      s' = s.setWatcher w { s.watchers w with buffer } := by
  unfold Spool.handle at h
  split at h
  · next f buffer hb =>
    cases h
    exact .inl ⟨f, buffer, hb, rfl⟩
  · next buffer hb =>
    cases h
    exact .inr ⟨buffer, hb, rfl⟩
  · cases h

/-- A worker lets go of a file, which is moved if it is there and the rename works. -/
theorem Spool.dispose_cases {w : Nat} {f : FileName} {i : Nat} {done ok : Bool}
    (h : s.dispose w f i done ok = some s') :
    ∃ t, t = s.setWatcher w { s.watchers w with
        working := (s.watchers w).working.erase (f, i) } ∧
      (s' = t ∨ ∃ j, ok = true ∧ s.links.find .process f = some j ∧ s' = { t with
        links := s.links.move .process f (if done then .done else .fail) f j
        replaced := s.replaced ++ (s.links.find (if done then .done else .fail) f).toList }) := by
  unfold Spool.dispose at h
  dsimp only at h
  split at h
  · refine ⟨_, rfl, ?_⟩
    cases ok with
    | false =>
      cases h
      exact .inl rfl
    | true =>
      rw [if_pos rfl] at h
      split at h
      · next j t ht =>
        obtain ⟨hj, rfl⟩ := rename_eq_some ht
        cases h
        exact .inr ⟨j, rfl, hj, rfl⟩
      · cases h
        exact .inl rfl
  · cases h

/-! ## What a step does to the names -/

/-- The name a step puts into the ready directory. -/
inductive Makes (s : Spool) : SpoolAct → FileName → Prop where
  | deliver (f : FileName) (lines : List Text) : Makes s (.deliver f lines) f
  | openTmp (stamp : Stamp) (h : s.links.find .ready stamp.tmp = none) :
    Makes s (.openTmp stamp) stamp.tmp

/-- The renames of the system: a claim out of a sweep or behind an event, the end of a
worker, and the sink putting a file in place. -/
inductive Renames (s : Spool) : SpoolAct → Dir → FileName → Dir → FileName → Prop where
  | swept (w : Nat) (f : FileName) (i : Nat) (scan : Scan)
    (hp : (s.watchers w).phase = .source scan) :
    Renames s (.visit w f i true) .ready f .process f
  | event (w : Nat) (f : FileName) (buffer : List (Option FileName))
    (hb : (s.watchers w).buffer = some f :: buffer) :
    Renames s (.handle w true) .ready f .process f
  | disposed (w : Nat) (f : FileName) (i : Nat) (done : Bool) :
    Renames s (.dispose w f i done true) .process f (if done then .done else .fail) f
  | replace (stamp : Stamp) (i : Nat) (h : s.sink.stage = .writing stamp i []) :
    Renames s .replace .ready stamp.tmp .ready stamp.cdr

/-- But for the last, the name stays and the directory is another. -/
theorem Renames.onward {a : SpoolAct} {d d' : Dir} {f f' : FileName} (h : Renames s a d f d' f') :
    (f' = f ∧ d ≠ d' ∧ d' ≠ .ready) ∨ ∃ stamp i, a = .replace ∧
      s.sink.stage = .writing stamp i [] ∧ f = stamp.tmp ∧ f' = stamp.cdr := by
  cases h with
  | swept | event => exact .inl ⟨rfl, by decide, by decide⟩
  | disposed w f i done => exact .inl ⟨rfl, by cases done <;> decide, by cases done <;> decide⟩
  | replace stamp i h => exact .inr ⟨stamp, i, rfl, h, rfl, rfl⟩

theorem Renames.of_replace {d d' : Dir} {f f' : FileName} (h : Renames s .replace d f d' f') :
    d = .ready ∧ d' = .ready := by
  cases h
  exact ⟨rfl, rfl⟩

inductive NameStep (s : Spool) (a : SpoolAct) (s' : Spool) : Prop where
  | same (hl : s'.links = s.links) (hn : s'.next = s.next) (hr : s'.replaced = s.replaced)
  | made (f : FileName) (hf : Makes s a f) (hl : s'.links = s.links.link .ready f s.next)
    (hn : s'.next = s.next + 1) (hr : s'.replaced = s.replaced)
  | moved (d : Dir) (f : FileName) (d' : Dir) (f' : FileName) (i : Nat)
    (hm : Renames s a d f d' f') (hi : s.links.find d f = some i)
    (hl : s'.links = s.links.move d f d' f' i) (hn : s'.next = s.next)
    (hr : s'.replaced = s.replaced ++ (s.links.find d' f').toList)

theorem NameStep.claim {a : SpoolAct} (w : Nat) (watcher : DirWatcher) (f : FileName) (ok : Bool)
    (h : ok = true → Renames s a .ready f .process f) :
    NameStep s a ((s.setWatcher w watcher).claim w f ok) := by
  rcases claim_cases (s.setWatcher w watcher) w f ok with ⟨he, -⟩ | ⟨i, hi, hok, he⟩
  · rw [he]
    exact .same rfl rfl rfl
  · rw [he]
    exact .moved .ready f .process f i (h hok) hi rfl rfl rfl

theorem spoolStep_names {a : SpoolAct} (hs : spoolStep cfg s a = some s') : NameStep s a s' := by
  cases a with
  | emit record =>
    dsimp only [spoolStep] at hs
    split at hs <;> cases hs
    exact .same rfl rfl rfl
  | openTmp stamp =>
    obtain ⟨left, ⟨i, -, rfl⟩ | ⟨hn, rfl⟩⟩ := openTmp_cases hs
    · exact .same rfl rfl rfl
    · exact .made _ (.openTmp stamp hn) rfl rfl rfl
  | write =>
    dsimp only [spoolStep] at hs
    split at hs <;> cases hs
    exact .same rfl rfl rfl
  | replace =>
    obtain ⟨stamp, i, hst, ⟨j, hj, rfl⟩ | rfl⟩ := replace_cases hs
    · exact .moved _ _ _ _ j (.replace stamp i hst) hj rfl rfl rfl
    · exact .same rfl rfl rfl
  | reset =>
    dsimp only [spoolStep] at hs
    split at hs <;> cases hs
    exact .same rfl rfl rfl
  | interrupt | die | crash w =>
    cases hs
    exact .same rfl rfl rfl
  | deliver f lines =>
    cases hs
    exact .made f (.deliver f lines) rfl rfl rfl
  | start w =>
    dsimp only [spoolStep] at hs
    split at hs <;> cases hs
    exact .same rfl rfl rfl
  | visit w f i ok =>
    obtain ⟨scan, -, -, rfl⟩ | ⟨scan, hp, rfl⟩ := visit_cases hs
    · exact .same rfl rfl rfl
    · refine .claim w _ f ok fun hok => ?_
      subst hok
      exact .swept w f i scan hp
  | turn w =>
    obtain ⟨scan, -, rfl⟩ | ⟨scan, -, -, rfl⟩ := turn_cases hs <;> exact .same rfl rfl rfl
  | readEvents w n | nextFile w =>
    obtain ⟨watcher, -, rfl⟩ := Option.map_eq_some_iff.mp hs
    exact .same rfl rfl rfl
  | handle w ok =>
    obtain ⟨f, buffer, hb, rfl⟩ | ⟨buffer, -, rfl⟩ := handle_cases hs
    · refine .claim w _ f ok fun hok => ?_
      subst hok
      exact .event w f buffer hb
    · exact .same rfl rfl rfl
  | dispose w f i done ok =>
    obtain ⟨t, rfl, rfl | ⟨j, rfl, hj, rfl⟩⟩ := Spool.dispose_cases hs
    · exact .same rfl rfl rfl
    · exact .moved _ _ _ _ j (.disposed w f i done) hj rfl rfl rfl

/-- Files are numbered in the order they come up. -/
theorem NameStep.below {a : SpoolAct} (hn : NameStep s a s')
    (h : ∀ d f i, s.links.find d f = some i → i < s.next) :
    ∀ d f i, s'.links.find d f = some i → i < s'.next := by
  intro e g j hj
  rcases hn with ⟨hl, hn, -⟩ | ⟨f, -, hl, hn, -⟩ | ⟨d, f, d', f', i, -, hi, hl, hn, -⟩ <;>
    rw [hl] at hj <;> rw [hn]
  · exact h e g j hj
  · rcases Dirs.of_find_link hj with ⟨-, -, rfl⟩ | hj
    · exact Nat.lt_succ_self _
    · exact Nat.lt_succ_of_lt (h _ _ _ hj)
  · rcases Dirs.of_find_move hj with ⟨-, -, rfl⟩ | ⟨-, hj⟩
    · exact h _ _ _ hi
    · exact h _ _ _ hj

theorem NameStep.apart {a : SpoolAct} (hn : NameStep s a s')
    (hb : ∀ d f i, s.links.find d f = some i → i < s.next) (h : s.links.Apart) :
    s'.links.Apart := by
  rcases hn with ⟨hl, -, -⟩ | ⟨f, -, hl, -, -⟩ | ⟨d, f, d', f', i, -, hi, hl, -, -⟩ <;> rw [hl]
  · exact h
  · exact h.link fun e g he => lt_irrefl _ (hb e g _ he)
  · exact h.move hi

theorem NameStep.next_le {a : SpoolAct} (h : NameStep s a s') : s.next ≤ s'.next := by
  rcases h with ⟨-, hn, -⟩ | ⟨f, -, -, hn, -⟩ | ⟨d, f, d', f', i, -, -, -, hn, -⟩ <;> omega

/-! ## What a step does to the files -/

/-- A file is put in place under its final name. -/
inductive Puts (s : Spool) : SpoolAct → FileName → Prop where
  | deliver (f : FileName) (lines : List Text) : Puts s (.deliver f lines) f
  | replace (stamp : Stamp) (i : Nat) (hst : s.sink.stage = .writing stamp i []) :
    Puts s .replace stamp.cdr

inductive FileStep (s : Spool) (a : SpoolAct) (s' : Spool) : Prop where
  | same (hf : s'.files = s.files) (hw : s'.written = s.written)
    (hs : ∀ stamp i left, s'.sink.stage = .writing stamp i left →
      s.sink.stage = .writing stamp i left)
  /-- The sink opens a file under a temporary name, over one that is there. -/
  | opened (stamp : Stamp) (i : Nat) (left : List Text) (ha : a = .openTmp stamp)
    (hi : s.links.find .ready stamp.tmp = some i ∨
      s.links.find .ready stamp.tmp = none ∧ i = s.next ∧ s'.next = s.next + 1)
    (hi' : s'.links.find .ready stamp.tmp = some i)
    (hf : s'.files = Function.update s.files i {}) (hw : s'.written = s.written)
    (hs : s'.sink.stage = .writing stamp i left)
  | wrote (stamp : Stamp) (i : Nat) (line : Text) (left : List Text)
    (hst : s.sink.stage = .writing stamp i (line :: left))
    (hf : s'.files = Function.update s.files i
      { s.files i with lines := (s.files i).lines ++ [line] })
    (hw : s'.written = s.written ++ [(i, line)]) (hs : s'.sink.stage = .writing stamp i left)
  /-- The sink puts a file in place. -/
  | placed (stamp : Stamp) (i j : Nat) (ha : a = .replace)
    (hst : s.sink.stage = .writing stamp i [])
    (hj : s.links.find .ready stamp.tmp = some j)
    (hl : s'.links = s.links.move .ready stamp.tmp .ready stamp.cdr j)
    (hf : s'.files = Function.update s.files j
      { s.files j with whole := (s.files j).whole || i = j })
    (hw : s'.written = s.written) (hs : s'.sink.stage = .saved)
  | delivered (f : FileName) (lines : List Text) (ha : a = .deliver f lines)
    (hl : s'.links = s.links.link .ready f s.next)
    (hf : s'.files = Function.update s.files s.next { lines, whole := true })
    (hw : s'.written = s.written) (hs : s'.sink = s.sink)

theorem FileStep.claim {a : SpoolAct} (w : Nat) (watcher : DirWatcher) (f : FileName) (ok : Bool) :
    FileStep s a ((s.setWatcher w watcher).claim w f ok) := by
  rcases claim_cases (s.setWatcher w watcher) w f ok with ⟨h, -⟩ | ⟨i, -, -, h⟩ <;> rw [h] <;>
    exact .same rfl rfl fun _ _ _ h => h

theorem spoolStep_files {a : SpoolAct} (hs : spoolStep cfg s a = some s') : FileStep s a s' := by
  cases a with
  | emit record =>
    dsimp only [spoolStep] at hs
    split at hs <;> cases hs
    exact .same rfl rfl fun _ _ _ h => h
  | openTmp stamp =>
    obtain ⟨left, ⟨i, hi, rfl⟩ | ⟨hn, rfl⟩⟩ := openTmp_cases hs
    · exact .opened stamp i left rfl (.inl hi) hi rfl rfl rfl
    · refine .opened stamp s.next left rfl (.inr ⟨hn, rfl, rfl⟩) ?_ rfl rfl rfl
      exact Dirs.find_link.trans (if_pos ⟨rfl, rfl⟩)
  | write =>
    dsimp only [spoolStep] at hs
    split at hs
    · next stamp i line left hst =>
      cases hs
      exact .wrote stamp i line left hst rfl rfl rfl
    · cases hs
  | replace =>
    obtain ⟨stamp, i, hst, ⟨j, hj, rfl⟩ | rfl⟩ := replace_cases hs
    · exact .placed stamp i j rfl hst hj rfl rfl rfl rfl
    · exact .same rfl rfl fun _ _ _ h => by cases h
  | reset =>
    dsimp only [spoolStep] at hs
    split at hs <;> cases hs
    exact .same rfl rfl fun _ _ _ h => by cases h
  | interrupt | die =>
    cases hs
    exact .same rfl rfl fun _ _ _ h => by cases h
  | crash w =>
    cases hs
    exact .same rfl rfl fun _ _ _ h => h
  | deliver f lines =>
    cases hs
    exact .delivered f lines rfl rfl rfl rfl rfl
  | start w =>
    dsimp only [spoolStep] at hs
    split at hs <;> cases hs
    exact .same rfl rfl fun _ _ _ h => h
  | visit w f i ok =>
    obtain ⟨scan, -, -, rfl⟩ | ⟨scan, -, rfl⟩ := visit_cases hs
    · exact .same rfl rfl fun _ _ _ h => h
    · exact .claim w _ f ok
  | turn w =>
    obtain ⟨scan, -, rfl⟩ | ⟨scan, -, -, rfl⟩ := turn_cases hs <;>
      exact .same rfl rfl fun _ _ _ h => h
  | readEvents w n | nextFile w =>
    obtain ⟨watcher, -, rfl⟩ := Option.map_eq_some_iff.mp hs
    exact .same rfl rfl fun _ _ _ h => h
  | handle w ok =>
    obtain ⟨f, buffer, -, rfl⟩ | ⟨buffer, -, rfl⟩ := handle_cases hs
    · exact .claim w _ f ok
    · exact .same rfl rfl fun _ _ _ h => h
  | dispose w f i done ok =>
    obtain ⟨t, rfl, rfl | ⟨j, -, -, rfl⟩⟩ := Spool.dispose_cases hs <;>
      exact .same rfl rfl fun _ _ _ h => h

/-- A file comes to be finished by being put in place. -/
theorem whole_new {a : SpoolAct} (hf : FileStep s a s') {i : Nat}
    (hi : (s'.files i).whole = true) :
    (s.files i).whole = true ∨ ∃ f, Puts s a f ∧ s'.links.find .ready f = some i := by
  rcases hf with ⟨hf, -, -⟩ | ⟨stamp, j, left, -, hj, -, hf, -, -⟩ |
    ⟨stamp, j, line, left, -, hf, -, -⟩ | ⟨stamp, k, j, rfl, hst, -, hl, hf, -, -⟩ |
    ⟨f, lines, rfl, hl, hf, -, -⟩ <;> rw [hf] at hi
  · exact .inl hi
  · by_cases hij : i = j
    · subst hij
      rw [Function.update_self] at hi
      cases hi
    · rw [Function.update_of_ne hij] at hi
      exact .inl hi
  · by_cases hij : i = j
    · subst hij
      rw [Function.update_self] at hi
      exact .inl hi
    · rw [Function.update_of_ne hij] at hi
      exact .inl hi
  · by_cases hij : i = j
    · subst hij
      exact .inr ⟨_, .replace stamp k hst, by rw [hl, Dirs.find_move, if_pos ⟨rfl, rfl⟩]⟩
    · rw [Function.update_of_ne hij] at hi
      exact .inl hi
  · by_cases hij : i = s.next
    · subst hij
      exact .inr ⟨f, .deliver f lines, by rw [hl, Dirs.find_link, if_pos ⟨rfl, rfl⟩]⟩
    · rw [Function.update_of_ne hij] at hi
      exact .inl hi

/-- Files are numbered in the order they come up, and each has one name at most. -/
structure Numbered (s : Spool) : Prop where
  below : ∀ d f i, s.links.find d f = some i → i < s.next
  apart : s.links.Apart
  unborn : ∀ i, s.next ≤ i → (s.files i).whole = false

theorem Numbered.initial : Numbered {} where
  below d f i h := by cases h
  apart d f d' f' i h := by cases h
  unborn _ _ := rfl

theorem Numbered.step (h : Numbered s) {a : SpoolAct} (hs : spoolStep cfg s a = some s') :
    Numbered s' := by
  have hn := spoolStep_names hs
  refine ⟨hn.below h.below, hn.apart h.below h.apart, fun i hi => ?_⟩
  have hnext := hn.next_le
  rw [Bool.eq_false_iff]
  intro hw
  rcases whole_new (spoolStep_files hs) hw with hw | ⟨f, -, hf⟩
  · rw [h.unborn i (by omega)] at hw
    cases hw
  · have := hn.below h.below _ _ _ hf
    omega

/-! ## What a step does to a watcher -/

/-- What a claim of a name comes to. -/
inductive Claims (s s' : Spool) (f : FileName) (ok : Bool) : List (FileName × Nat) → Prop where
  | missed (h : ok = true → s.links.find .ready f = none) (hl : s'.links = s.links) :
    Claims s s' f ok []
  | got (i : Nat) (hi : s.links.find .ready f = some i)
    (hl : s'.links = s.links.move .ready f .process f i) : Claims s s' f ok [(f, i)]

inductive WatchStep (cfg : SpoolSetup) (s : Spool) (a : SpoolAct) (s' : Spool) (w : Nat) : Prop where
  | same (h : s'.watchers w = s.watchers w)
  | notified (f : FileName) (hf : Puts s a f)
    (h : s'.watchers w = (s.watchers w).notify cfg.cap f)
  | started (hl : s'.links = s.links)
    (h : s'.watchers w = { phase := .target { before := s.links.listing .process } })
  | swept (scan : Scan) (f : FileName) (i : Nat) (ok : Bool) (ha : a = .visit w f i ok)
    (hp : (s.watchers w).phase = .target scan)
    (hb : scan.brings (s.links.listing .process) (f, i) = true) (hl : s'.links = s.links)
    (h : s'.watchers w = { s.watchers w with
      phase := .target (scan.see (f, i)), queue := (s.watchers w).queue ++ [(f, i)] })
  | visited (scan : Scan) (f : FileName) (i : Nat) (ok : Bool) (new : List (FileName × Nat))
    (ha : a = .visit w f i ok) (hp : (s.watchers w).phase = .source scan)
    (hc : Claims s s' f ok new)
    (h : s'.watchers w = { s.watchers w with
      phase := .source (scan.see (f, i)), queue := (s.watchers w).queue ++ new })
  | toSource (scan : Scan) (hp : (s.watchers w).phase = .target scan) (hl : s'.links = s.links)
    (h : s'.watchers w = { s.watchers w with
      phase := .source { before := s.links.listing .ready } })
  | toRunning (scan : Scan) (hp : (s.watchers w).phase = .source scan)
    (ho : scan.over (s.links.listing .ready) = true) (hl : s'.links = s.links)
    (h : s'.watchers w = { s.watchers w with phase := .running })
  | read (n : Nat) (hp : (s.watchers w).phase = .running) (hb : (s.watchers w).buffer = [])
    (h : s'.watchers w = { s.watchers w with
      events := (s.watchers w).events.drop n, buffer := (s.watchers w).events.take n })
  | skipped (buffer : List (Option FileName)) (hb : (s.watchers w).buffer = none :: buffer)
    (h : s'.watchers w = { s.watchers w with buffer })
  | handled (f : FileName) (buffer : List (Option FileName)) (ok : Bool)
    (new : List (FileName × Nat)) (ha : a = .handle w ok)
    (hb : (s.watchers w).buffer = some f :: buffer) (hc : Claims s s' f ok new)
    (h : s'.watchers w = { s.watchers w with buffer, queue := (s.watchers w).queue ++ new })
  | took (e : FileName × Nat) (queue : List (FileName × Nat)) (hq : (s.watchers w).queue = e :: queue)
    (hp : (s.watchers w).phase = .running)
    (h : s'.watchers w = { s.watchers w with
      queue, taken := (s.watchers w).taken ++ [e], working := (s.watchers w).working ++ [e] })
  | worked (working : List (FileName × Nat)) (h : s'.watchers w = { s.watchers w with working })
  | crashed (h : s'.watchers w = {})

theorem setWatcher_self (s : Spool) (w : Nat) (watcher : DirWatcher) :
    (s.setWatcher w watcher).watchers w = watcher := Function.update_self ..

theorem setWatcher_of_ne (s : Spool) {v w : Nat} (watcher : DirWatcher) (h : v ≠ w) :
    (s.setWatcher w watcher).watchers v = s.watchers v := Function.update_of_ne h ..

/-- A claim is one for the watcher that makes it, and nothing to the others. -/
theorem setWatcher_claim (s : Spool) (w : Nat) (watcher : DirWatcher) (f : FileName) (ok : Bool) :
    (∃ new, Claims s ((s.setWatcher w watcher).claim w f ok) f ok new ∧
      ((s.setWatcher w watcher).claim w f ok).watchers w =
        { watcher with queue := watcher.queue ++ new }) ∧
      ∀ v, v ≠ w → ((s.setWatcher w watcher).claim w f ok).watchers v = s.watchers v := by
  rcases claim_cases (s.setWatcher w watcher) w f ok with ⟨h, hn⟩ | ⟨i, hi, -, h⟩
  · rw [h]
    refine ⟨⟨[], .missed hn rfl, ?_⟩, fun v hv => setWatcher_of_ne s watcher hv⟩
    rw [setWatcher_self, List.append_nil]
  · rw [h]
    refine ⟨⟨[(f, i)], .got i hi rfl, ?_⟩, fun v hv => ?_⟩
    · dsimp only
      rw [Function.update_self, setWatcher_self]
    · dsimp only
      rw [Function.update_of_ne hv, setWatcher_of_ne s watcher hv]

theorem spoolStep_watcher {a : SpoolAct} (hs : spoolStep cfg s a = some s') (v : Nat) :
    WatchStep cfg s a s' v := by
  -- a watcher that moves on its own, seen from itself and from the others
  have hmove : ∀ {w : Nat} {watcher : DirWatcher}, s'.watchers = Function.update s.watchers w watcher →
      (v = w → s'.watchers v = watcher → WatchStep cfg s a s' v) → WatchStep cfg s a s' v := by
    intro w watcher he h
    by_cases hv : v = w
    · subst hv
      exact h rfl (by rw [he, Function.update_self])
    · exact .same (by rw [he, Function.update_of_ne hv])
  cases a with
  | emit record | write | reset =>
    dsimp only [spoolStep] at hs
    split at hs <;> cases hs
    exact .same rfl
  | openTmp stamp =>
    obtain ⟨left, ⟨i, -, rfl⟩ | ⟨-, rfl⟩⟩ := openTmp_cases hs <;> exact .same rfl
  | replace =>
    obtain ⟨stamp, i, hst, ⟨j, -, rfl⟩ | rfl⟩ := replace_cases hs
    · exact .notified _ (.replace stamp i hst) rfl
    · exact .same rfl
  | interrupt | die =>
    cases hs
    exact .same rfl
  | deliver f lines =>
    cases hs
    exact .notified f (.deliver f lines) rfl
  | crash w =>
    cases hs
    exact hmove rfl fun _ h => .crashed h
  | start w =>
    dsimp only [spoolStep] at hs
    split at hs <;> cases hs
    exact hmove rfl fun _ h => .started rfl h
  | visit w f i ok =>
    obtain ⟨scan, hp, hb, rfl⟩ | ⟨scan, hp, rfl⟩ := visit_cases hs
    · refine hmove rfl fun hv h => ?_
      subst hv
      exact .swept scan f i ok rfl hp hb rfl h
    · obtain ⟨⟨new, hc, hself⟩, hothers⟩ := setWatcher_claim s w
        { s.watchers w with phase := .source (scan.see (f, i)) } f ok
      by_cases hv : v = w
      · subst hv
        exact .visited scan f i ok new rfl hp hc hself
      · exact .same (hothers v hv)
  | turn w =>
    obtain ⟨scan, hp, rfl⟩ | ⟨scan, hp, ho, rfl⟩ := turn_cases hs <;>
      refine hmove rfl fun hv h => ?_ <;> subst hv
    · exact .toSource scan hp rfl h
    · exact .toRunning scan hp ho rfl h
  | readEvents w n =>
    obtain ⟨watcher, hr, rfl⟩ := Option.map_eq_some_iff.mp hs
    refine hmove rfl fun hv h => ?_
    subst hv
    unfold DirWatcher.readEvents at hr
    split at hr
    · next hp hb _ =>
      split at hr <;> cases hr
      exact .read n hp hb h
    · cases hr
  | handle w ok =>
    obtain ⟨f, buffer, hb, rfl⟩ | ⟨buffer, hb, rfl⟩ := handle_cases hs
    · obtain ⟨⟨new, hc, hself⟩, hothers⟩ := setWatcher_claim s w { s.watchers w with buffer } f ok
      by_cases hv : v = w
      · subst hv
        exact .handled f buffer ok new rfl hb hc hself
      · exact .same (hothers v hv)
    · refine hmove rfl fun hv h => ?_
      subst hv
      exact .skipped buffer hb h
  | nextFile w =>
    obtain ⟨watcher, hn, rfl⟩ := Option.map_eq_some_iff.mp hs
    refine hmove rfl fun hv h => ?_
    subst hv
    unfold DirWatcher.nextFile at hn
    split at hn
    · next e queue hp _ hq =>
      cases hn
      exact .took e queue hq hp h
    · cases hn
  | dispose w f i done ok =>
    obtain ⟨t, rfl, rfl | ⟨j, -, -, rfl⟩⟩ := Spool.dispose_cases hs
    · refine hmove rfl fun hv h => ?_
      subst hv
      exact .worked _ h
    · refine hmove rfl fun hv h => ?_
      subst hv
      exact .worked _ h

/-! ## Names that are used once -/

/-- A name that is put into the ready directory is in none of the directories. -/
def Fresh (s : Spool) : SpoolAct → Prop
  | .deliver f _ => s.links.Unused f
  | .openTmp stamp => s.links.Unused stamp.tmp
  | .replace => ∀ stamp i left, s.sink.stage = .writing stamp i left → s.links.Unused stamp.cdr
  | _ => True

/-- What is checked of the names. -/
def fresh (s : Spool) (a : SpoolAct) : Bool :=
  let unused (f : FileName) : Bool :=
    [Dir.ready, .process, .done, .fail].all fun d => s.links.find d f = none
  match a, s.sink.stage with
  | .deliver f _, _ => unused f
  | .openTmp stamp, _ => unused stamp.tmp
  | .replace, .writing stamp _ _ => unused stamp.cdr
  | _, _ => true

theorem fresh_fresh (s : Spool) (a : SpoolAct) (h : fresh s a = true) : Fresh s a := by
  have hunused : ∀ {f : FileName},
      ([Dir.ready, .process, .done, .fail].all fun d => s.links.find d f = none) = true →
      s.links.Unused f := by
    intro f hf d
    have hd : d ∈ [Dir.ready, .process, .done, .fail] := by cases d <;> decide
    simpa using List.all_eq_true.mp hf d hd
  cases a with
  | deliver f lines => exact hunused h
  | openTmp stamp => exact hunused h
  | replace =>
    intro stamp i left hst
    unfold fresh at h
    rw [hst] at h
    exact hunused h
  | _ => trivial

/-- Every file has one name, and every name is in one directory. -/
structure Tidy (s : Spool) : Prop extends Numbered s where
  one : s.links.OnePlace

theorem Tidy.initial : Tidy {} where
  toNumbered := .initial
  one f d d' i j h := by cases h

theorem Makes.unused {a : SpoolAct} {f : FileName} (h : Makes s a f) (ha : Fresh s a) :
    s.links.Unused f := by
  cases h with
  | deliver => exact ha
  | openTmp => exact ha

/-- Nothing stands where a file is renamed to. -/
theorem Tidy.vacant (h : Tidy s) {a : SpoolAct} (ha : Fresh s a) {d d' : Dir} {f f' : FileName}
    {i : Nat} (hm : Renames s a d f d' f') (hi : s.links.find d f = some i) :
    s.links.find d' f' = none := by
  rcases hm.onward with ⟨rfl, hd, -⟩ | ⟨stamp, k, rfl, hst, -, rfl⟩
  · cases hj : s.links.find d' f' with
    | none => rfl
    | some j => exact absurd (h.one _ _ _ _ _ hi hj) hd
  · exact ha stamp k [] hst d'

theorem Tidy.step (h : Tidy s) {a : SpoolAct} (ha : Fresh s a)
    (hs : spoolStep cfg s a = some s') : Tidy s' := by
  refine ⟨h.toNumbered.step hs, ?_⟩
  rcases spoolStep_names hs with ⟨hl, -, -⟩ | ⟨f, hf, hl, -, -⟩ | ⟨d, f, d', f', i, hm, hi, hl, -, -⟩ <;> rw [hl]
  · exact h.one
  · exact h.one.link (hf.unused ha)
  · rcases hm.onward with ⟨rfl, -, -⟩ | ⟨stamp, k, rfl, hst, -, rfl⟩
    · exact h.one.move hi
    · refine h.one.unlink.link fun e => ?_
      rw [Dirs.find_unlink]
      split
      · rfl
      · exact ha stamp k [] hst e

end CdrProcessor
