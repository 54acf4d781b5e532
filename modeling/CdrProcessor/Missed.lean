import CdrProcessor.SpoolSteps

/-! Whether a file that was delivered can stay in the ready directory with nobody to notice.
It cannot as long as the kernel has room for every event behind the start of the last sweep. -/

namespace CdrProcessor

variable {cfg : SpoolSetup} {s s' : Spool} {w : Nat}

/-! ## The invariant -/

/-- The sweep of the ready directory has begun, and what comes now may be too late for it. -/
def DirWatcher.swept (w : DirWatcher) : Bool :=
  match w.phase with
  | .off | .target _ => false
  | .source _ | .running => true

/-- The claims of the watcher are not refused, and there is room for what it is told and may not
come by. -/
def Heard (cfg : SpoolSetup) (w : Nat) (s : Spool) : SpoolAct → Prop
  | .visit v _ _ ok | .handle v ok => v = w → ok = true
  | .deliver _ _ | .replace =>
    (s.watchers w).swept = true → (s.watchers w).events.length < cfg.cap
  | _ => True

/-- The watcher will come by a name: its second sweep is still to begin, or to get there, or
there is an event for it. -/
def DirWatcher.Awaits (watcher : DirWatcher) (f : FileName) (i : Nat) : Prop :=
  match watcher.phase with
  | .off | .target _ => True
  | .source scan => some f ∈ watcher.events ∨ (f, i) ∈ scan.before ∧ (f, i) ∉ scan.seen
  | .running => some f ∈ watcher.events ∨ some f ∈ watcher.buffer

structure Attended (w : Nat) (s : Spool) : Prop extends Numbered s where
  awaited : ∀ f i, s.links.find .ready f = some i → (s.files i).whole = true →
    (s.watchers w).Awaits f i

theorem Attended.initial (w : Nat) : Attended w {} where
  toNumbered := .initial
  awaited f i h := by cases h

/-! ## Its steps -/

/-- A file in the ready directory was there, or is just put in place, and all who watch are
told. -/
theorem Numbered.step_ready (h : Numbered s) {a : SpoolAct} (hs : spoolStep cfg s a = some s')
    {f : FileName} {i : Nat} (hi : s'.links.find .ready f = some i)
    (hw : (s'.files i).whole = true) :
    s.links.find .ready f = some i ∧ (s.files i).whole = true ∨ Puts s a f := by
  have hn := spoolStep_names hs
  rcases whole_new (spoolStep_files hs) hw with hw | ⟨g, hp, hg⟩
  · have hi' := hi
    rcases hn with ⟨hl, -, -⟩ | ⟨g, -, hl, -, -⟩ | ⟨d, g, d', g', j, hm, hj, hl, -, -⟩ <;>
      rw [hl] at hi'
    · exact .inl ⟨hi', hw⟩
    · rcases Dirs.of_find_link hi' with ⟨-, -, rfl⟩ | hi'
      · rw [h.unborn _ (le_refl _)] at hw
        cases hw
      · exact .inl ⟨hi', hw⟩
    · rcases Dirs.of_find_move hi' with ⟨hd, hg, -⟩ | ⟨-, hi'⟩
      · rcases hm.onward with ⟨-, -, hr⟩ | ⟨stamp, k, rfl, hst, -, hg'⟩
        · exact absurd hd.symm hr
        · rw [hg, hg']
          exact .inr (.replace stamp k hst)
      · exact .inl ⟨hi', hw⟩
  · obtain ⟨-, rfl⟩ := hn.apart h.below h.apart _ _ _ _ _ hi hg
    exact .inr hp

/-- All who watch are told of what is put in place, if it is. -/
theorem puts_notifies {a : SpoolAct} {f : FileName} (hp : Puts s a f)
    (hs : spoolStep cfg s a = some s') :
    (∀ w, s'.watchers w = (s.watchers w).notify cfg.cap f) ∨
      s'.links = s.links ∧ s'.files = s.files ∧ s'.watchers = s.watchers := by
  cases hp with
  | deliver f lines =>
    cases hs
    exact .inl fun w => rfl
  | replace stamp i hst =>
    change s.replace cfg = _ at hs
    unfold Spool.replace at hs
    rw [hst] at hs
    dsimp only at hs
    split at hs
    · next k t ht =>
      obtain ⟨-, rfl⟩ := rename_eq_some ht
      cases hs
      exact .inl fun w => rfl
    · cases hs
      exact .inr ⟨rfl, rfl, rfl⟩

/-- With room for it, the event is in the queue. -/
theorem DirWatcher.notify_awaits {watcher : DirWatcher} {cap : Nat} {f : FileName} {i : Nat}
    (h : watcher.swept = true → watcher.events.length < cap) :
    (watcher.notify cap f).Awaits f i := by
  have hin : watcher.swept = true → some f ∈ queueEvent cap watcher.events f := by
    intro hsw
    unfold queueEvent
    rw [if_pos (h hsw)]
    exact List.mem_append_right _ (List.mem_singleton_self _)
  unfold DirWatcher.swept at hin
  unfold DirWatcher.notify DirWatcher.armed DirWatcher.Awaits
  cases hp : watcher.phase with
  | off => simp [hp]
  | target scan => simp
  | source scan =>
    rw [hp] at hin
    exact .inl (hin rfl)
  | running =>
    rw [hp] at hin
    exact .inl (hin rfl)

theorem queueEvent_mem {cap : Nat} {events : List (Option FileName)} {f g : FileName}
    (h : some g ∈ events) : some g ∈ queueEvent cap events f := by
  unfold queueEvent
  split
  · exact List.mem_append_left _ h
  · split
    · exact h
    · exact List.mem_append_left _ h

/-- No event is dropped once it is in the queue. -/
theorem DirWatcher.Awaits.notify {watcher : DirWatcher} {f : FileName} {i : Nat}
    (h : watcher.Awaits f i) (cap : Nat) (g : FileName) : (watcher.notify cap g).Awaits f i := by
  unfold DirWatcher.notify
  split
  · unfold DirWatcher.Awaits at h ⊢
    dsimp only
    split
    · trivial
    · trivial
    · next hp =>
      rw [hp] at h
      exact h.imp_left queueEvent_mem
    · next hp =>
      rw [hp] at h
      exact h.imp_left queueEvent_mem
  · exact h

/-- A claim that is not refused leaves nothing under the name. -/
theorem Claims.gone {f : FileName} {new : List (FileName × Nat)} (h : Claims s s' f true new) :
    s'.links.find .ready f = none := by
  cases h with
  | missed h hl =>
    rw [hl]
    exact h rfl
  | got i hi hl =>
    rw [hl, Dirs.find_move, if_neg (fun h => by cases h.1), if_pos ⟨rfl, rfl⟩]

theorem Attended.step_old (h : Attended w s) {a : SpoolAct} (ha : Heard cfg w s a)
    (hs : spoolStep cfg s a = some s') {f : FileName} {i : Nat}
    (hi : s.links.find .ready f = some i) (hw : (s.files i).whole = true)
    (hi' : s'.links.find .ready f = some i) : (s'.watchers w).Awaits f i := by
  have hold := h.awaited f i hi hw
  rcases spoolStep_watcher hs w with h' | ⟨g, -, h'⟩ | ⟨-, h'⟩ | ⟨scan, g, j, ok, -, -, -, -, h'⟩ |
    ⟨scan, g, j, ok, new, rfl, hp, hc, h'⟩ | ⟨scan, -, -, h'⟩ | ⟨scan, hp, ho, -, h'⟩ |
    ⟨n, hp, hb, h'⟩ | ⟨buffer, hb, h'⟩ | ⟨g, buffer, ok, new, rfl, hb, hc, h'⟩ |
    ⟨e, queue, -, -, h'⟩ | ⟨working, h'⟩ | h' <;> rw [h']
  · exact hold
  · exact hold.notify cfg.cap g
  · trivial
  · trivial
  · -- the sweep came by another name
    have hne : (f, i) ≠ (g, j) := by
      rintro heq
      cases heq
      rw [ha rfl] at hc
      rw [hc.gone] at hi'
      cases hi'
    unfold DirWatcher.Awaits at hold
    rw [hp] at hold
    refine hold.imp_right fun hb => ⟨hb.1, fun hin => ?_⟩
    rcases List.mem_append.mp hin with hin | hin
    · exact hb.2 hin
    · exact hne (List.mem_singleton.mp hin)
  · exact .inr ⟨Dirs.mem_listing.mpr hi, List.not_mem_nil⟩
  · -- the sweep is at its end, and came by all that was there when it began
    unfold DirWatcher.Awaits at hold
    rw [hp] at hold
    rcases hold with hev | ⟨hbefore, hseen⟩
    · exact .inl hev
    · have hover := List.all_eq_true.mp ho (f, i) hbefore
      rcases of_decide_eq_true hover with hno | hin
      · exact absurd (Dirs.mem_listing.mpr hi) hno
      · exact absurd hin hseen
  · unfold DirWatcher.Awaits at hold ⊢
    rw [hp] at hold
    rw [hb] at hold
    rw [hp]
    rcases hold with hev | hev
    · rw [← List.take_append_drop n (s.watchers w).events] at hev
      exact (List.mem_append.mp hev).symm
    · cases hev
  · unfold DirWatcher.Awaits at hold ⊢
    dsimp only
    split
    · trivial
    · trivial
    · next hp =>
      rw [hp] at hold
      exact hold
    · next hp =>
      rw [hp, hb] at hold
      exact hold.imp_right fun hin => (List.mem_cons.mp hin).resolve_left (by simp)
  · -- the event was for another name
    have hne : f ≠ g := by
      rintro rfl
      rw [ha rfl] at hc
      rw [hc.gone] at hi'
      cases hi'
    unfold DirWatcher.Awaits at hold ⊢
    dsimp only
    split
    · trivial
    · trivial
    · next hp =>
      rw [hp] at hold
      exact hold
    · next hp =>
      rw [hp, hb] at hold
      exact hold.imp_right fun hin => (List.mem_cons.mp hin).resolve_left (by simpa using hne)
  · exact hold
  · exact hold
  · trivial

theorem Attended.step (h : Attended w s) {a : SpoolAct} (ha : Heard cfg w s a)
    (hs : spoolStep cfg s a = some s') : Attended w s' := by
  refine ⟨h.toNumbered.step hs, fun f i hi hw => ?_⟩
  rcases h.toNumbered.step_ready hs hi hw with ⟨hold, hwhole⟩ | hp
  · exact h.step_old ha hs hold hwhole hi
  · rcases puts_notifies hp hs with hnotified | ⟨hl, hf, -⟩
    · rw [hnotified w]
      refine DirWatcher.notify_awaits ?_
      cases hp with
      | deliver => exact ha
      | replace => exact ha
    · rw [hl] at hi
      rw [hf] at hw
      exact h.step_old ha hs hi hw (by rw [hl]; exact hi)

/-! ## Whole runs -/

/-- **No delivered file is missed**, in any run that meets the condition: with every event
read and handled, no finished file is left in the ready directory. -/
theorem nothing_missed {acts : List SpoolAct} (hr : Run (spoolStep cfg) (Heard cfg w) {} acts s)
    (hp : (s.watchers w).phase = .running) (he : (s.watchers w).events = [])
    (hb : (s.watchers w).buffer = []) (f : FileName) (i : Nat)
    (hi : s.links.find .ready f = some i) : (s.files i).whole = false := by
  have h := hr.invariant (fun _ _ _ hi ha hs => Attended.step hi ha hs) (Attended.initial w)
  rw [Bool.eq_false_iff]
  intro hw
  have haw := h.awaited f i hi hw
  unfold DirWatcher.Awaits at haw
  rw [hp, he, hb] at haw
  rcases haw with haw | haw <;> cases haw

/-- What is checked of the watcher's events. -/
def heard (cfg : SpoolSetup) (w : Nat) (s : Spool) : SpoolAct → Bool
  | .visit _ _ _ ok | .handle _ ok => ok
  | .deliver _ _ | .replace => !(s.watchers w).swept || (s.watchers w).events.length < cfg.cap
  | _ => true

theorem heard_heard (s : Spool) (a : SpoolAct) (h : heard cfg w s a = true) : Heard cfg w s a := by
  cases a with
  | visit v f i ok => exact fun _ => h
  | handle v ok => exact fun _ => h
  | deliver f lines => exact fun hsw => by simpa [heard, hsw] using h
  | replace => exact fun hsw => by simpa [heard, hsw] using h
  | _ => trivial

/-- The watcher runs, and there is nothing for it to read or to handle. -/
def DirWatcher.caughtUp (watcher : DirWatcher) : Bool :=
  match watcher.phase with
  | .running => watcher.events = [] ∧ watcher.buffer = []
  | _ => false

theorem DirWatcher.caughtUp_iff {watcher : DirWatcher} : watcher.caughtUp = true ↔
    watcher.phase = .running ∧ watcher.events = [] ∧ watcher.buffer = [] := by
  unfold DirWatcher.caughtUp
  split
  · next hp => simp [hp]
  · next hp => simpa using fun h => absurd h hp

/-- With room for one event, two files come while the watcher sweeps the process directory, and
another one when it runs. -/
def lateRun : List SpoolAct :=
  [.start 0, .deliver (inbox 1) [], .deliver (inbox 2) [], .turn 0, .visit 0 (inbox 1) 0 true,
    .visit 0 (inbox 2) 1 true, .turn 0, .nextFile 0, .nextFile 0, .readEvents 0 2, .handle 0 true,
    .handle 0 true, .deliver (inbox 3) [], .readEvents 0 1, .handle 0 true]

theorem nothing_missed_twice :
    ∃ s, Run (spoolStep ⟨1, []⟩) (Heard ⟨1, []⟩ 0) {} lateRun s ∧
      (s.watchers 0).taken.map Prod.snd = [0, 1] ∧
      (s.watchers 0).queue.map Prod.snd = [2] ∧
      ∀ f i, s.links.find .ready f = some i → (s.files i).whole = false := by
  have hrun : (runChecked (spoolStep ⟨1, []⟩) (heard ⟨1, []⟩ 0) {} lateRun).map
      (fun s => ((s.watchers 0).taken.map Prod.snd, (s.watchers 0).queue.map Prod.snd,
        (s.watchers 0).caughtUp)) =
      some ([0, 1], [2], true) := by decide +kernel
  obtain ⟨s, hs, hobs⟩ := Option.map_eq_some_iff.mp hrun
  obtain ⟨htaken, hobs⟩ := Prod.mk.inj hobs
  obtain ⟨hqueue, hcaught⟩ := Prod.mk.inj hobs
  obtain ⟨hp, hevents, hbuffer⟩ := DirWatcher.caughtUp_iff.mp hcaught
  have hr := Run.of_checked heard_heard hs
  exact ⟨s, hr, htaken, hqueue, nothing_missed hr hp hevents hbuffer⟩

/-- Two files come before the watcher reads, and the kernel has room for one event. -/
theorem overflow_missed :
    ∃ acts s, Run (spoolStep ⟨1, []⟩) (fun _ a => match a with
        | .visit _ _ _ ok | .handle _ ok => ok = true
        | _ => True) {} acts s ∧
      (s.watchers 0).phase = .running ∧ (s.watchers 0).events = [] ∧ (s.watchers 0).buffer = [] ∧
      ¬ ∀ f i, s.links.find .ready f = some i → (s.files i).whole = false := by
  have hrun : (runChecked (spoolStep ⟨1, []⟩) (fun _ a => match a with
      | .visit _ _ _ ok | .handle _ ok => ok
      | _ => true) {}
      [.start 0, .turn 0, .turn 0, .deliver (inbox 1) [], .deliver (inbox 2) [], .readEvents 0 2,
        .handle 0 true, .handle 0 true]).map
      (fun s => ((s.watchers 0).caughtUp, s.links.find .ready (inbox 2), (s.files 1).whole)) =
      some (true, some 1, true) := by decide +kernel
  obtain ⟨s, hs, hobs⟩ := Option.map_eq_some_iff.mp hrun
  simp only [Prod.mk.injEq] at hobs
  obtain ⟨hcaught, hfile, hwhole⟩ := hobs
  obtain ⟨hp, hevents, hbuffer⟩ := DirWatcher.caughtUp_iff.mp hcaught
  refine ⟨_, s, Run.of_checked (fun s a h => ?_) hs, hp, hevents, hbuffer, fun h => ?_⟩
  · cases a with
    | visit | handle => exact h
    | _ => trivial
  · rw [h _ _ hfile] at hwhole
    cases hwhole

end CdrProcessor
