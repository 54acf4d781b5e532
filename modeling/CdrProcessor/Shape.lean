import CdrProcessor.FileSteps

/-! What holds of the file path whatever fails, as long as every file comes under a
name of its own: where the files are, who works on which, and what is left to read. -/

namespace CdrProcessor

/-! ## The steps it holds under -/

/-- A sender delivers a file in order, under a name no file there has, and for records above
whatever mark the name has. -/
structure Delivers (cfg : Setup) (s : Ingest) (f : FileName) (text : Text) : Prop where
  fresh : ∀ d, f ∉ s.files d
  above : ∀ r ∈ accepted cfg.parser text, s.mark cfg f < r.sequence.toNat
  ordered : Ordered cfg.parser text

instance (cfg : Setup) (s : Ingest) (f : FileName) (text : Text) :
    Decidable (Delivers cfg s f text) :=
  decidable_of_iff ((f ∉ s.files .ready ∧ f ∉ s.files .process ∧ f ∉ s.files .done ∧
      f ∉ s.files .fail) ∧ (∀ r ∈ accepted cfg.parser text, s.mark cfg f < r.sequence.toNat) ∧
      Ordered cfg.parser text)
    ⟨fun h => ⟨fun d => by cases d <;> simp [h.1], h.2.1, h.2.2⟩,
      fun h => ⟨⟨h.1 _, h.1 _, h.1 _, h.1 _⟩, h.2, h.3⟩⟩

/-- The only condition is on what the senders do. -/
def Arrives (cfg : Setup) (s : Ingest) : Act → Prop
  | .deliver f text => Delivers cfg s f text
  | _ => True

/-- No visit to the sink lands in part. -/
def Steady (cfg : Setup) (s : Ingest) : Act → Prop
  | .deliver f text => Delivers cfg s f text
  | .consume _ _ script => ¬ (Reopened script ∧ Lands script)
  | _ => True

theorem Steady.arrives {cfg : Setup} {s : Ingest} {a : Act} (h : Steady cfg s a) :
    Arrives cfg s a := by
  cases a with
  | deliver f text => exact h
  | _ => trivial

/-! ## The invariant -/

structure Shape (cfg : Setup) (s : Ingest) : Prop where
  idle : ∀ i, (s.threads i).Idle
  onePlace : s.OnePlace
  ordered : ∀ f text, s.Holds f text → Ordered cfg.parser text
  marks : ∀ f, s.mark cfg f < 2 ^ 64
  queued : ∀ f ∈ s.queue, f ∈ s.files .process
  nodup : s.queue.Nodup
  jobs : ∀ i job, (s.threads i).job = some job →
    job.name ∈ s.files .process ∧ job.name ∉ s.queue
  apart : ∀ i i' job job', (s.threads i).job = some job → (s.threads i').job = some job' →
    job.name = job'.name → i = i'
  source : ∀ i job src text, (s.threads i).job = some job → job.src = some src →
    s.Holds job.name text → src.upcoming.Sublist (accepted cfg.parser text)
  logged : ∀ e ∈ s.log, ∃ text, s.Holds e.name text
  running : s.running = false → s.queue = [] ∧ ∀ i, (s.threads i).job = none

/-- Nothing has been delivered, and nothing runs. -/
def Ingest.initial (db : Db) : Ingest := { db }

theorem Thread.idle_default : Thread.Idle {} := ⟨rfl, rfl, fun l hl => by cases hl⟩

theorem Shape.initial (cfg : Setup) {db : Db} (hm : ∀ f, (Ingest.initial db).mark cfg f < 2 ^ 64) :
    Shape cfg (Ingest.initial db) where
  idle _ := Thread.idle_default
  onePlace f d d' h := by cases h
  ordered f text h := by
    obtain ⟨d, h⟩ := h
    cases h
  marks := hm
  queued f h := by cases h
  nodup := List.nodup_nil
  jobs i job h := by cases h
  apart i i' job job' h := by cases h
  source i job src text h := by cases h
  logged e h := by cases h
  running _ := ⟨rfl, fun _ => rfl⟩

/-! ## What a step does to it -/

variable {cfg : Setup} {s : Ingest}

/-- The process ends. -/
theorem Shape.crash (h : Shape cfg s) {t : Ingest} (hf : t.files = s.files)
    (hm : ∀ f, t.mark cfg f < 2 ^ 64) (hl : ∀ e ∈ t.log, ∃ text, s.Holds e.name text) :
    Shape cfg t.crashed := by
  have hholds : ∀ f text, t.crashed.Holds f text ↔ s.Holds f text := by
    intro f text
    unfold Ingest.Holds Ingest.crashed
    rw [hf]
  refine {
    idle := fun _ => Thread.idle_default
    onePlace := ?_
    ordered := fun f text hh => h.ordered f text ((hholds f text).mp hh)
    marks := hm
    queued := by intro f hq; cases hq
    nodup := List.nodup_nil
    jobs := by intro i job hj; cases hj
    apart := by intro i i' job job' hj; cases hj
    source := by intro i job src text hj; cases hj
    logged := ?_
    running := fun _ => ⟨rfl, fun _ => rfl⟩ }
  · intro f d d' hd hd'
    exact h.onePlace f d d' (by rw [← hf]; exact hd) (by rw [← hf]; exact hd')
  · intro e he
    obtain ⟨text, ht⟩ := hl e he
    exact ⟨text, (hholds _ _).mpr ht⟩

/-- A worker with a job comes to another thread state, on the same file or on none. -/
theorem Shape.work (h : Shape cfg s) {i : Nat} {job : Job} (hj : (s.threads i).job = some job)
    {t : Thread} (ht : t.Idle) (hn : ∀ job', t.job = some job' → job'.name = job.name)
    (hs : ∀ job' src text, t.job = some job' → job'.src = some src → s.Holds job.name text →
      src.upcoming.Sublist (accepted cfg.parser text))
    {db : Db} (hm : ∀ f, db.count (markPlace (cfg.source f)) < 2 ^ 64) {log : List Entry}
    (hl : ∀ e ∈ log, ∃ text, s.Holds e.name text) (runTotals : RunTotals) :
    Shape cfg { s with db, log, runTotals, threads := Function.update s.threads i t } := by
  -- a job afterwards is one of before, under its name
  have hold : ∀ i' job', (Function.update s.threads i t i').job = some job' →
      ∃ job0, (s.threads i').job = some job0 ∧ job'.name = job0.name := by
    intro i' job' hj'
    by_cases hi : i' = i
    · subst hi
      rw [Function.update_self] at hj'
      exact ⟨job, hj, hn job' hj'⟩
    · rw [Function.update_of_ne hi] at hj'
      exact ⟨job', hj', rfl⟩
  refine {
    idle := ?_
    onePlace := h.onePlace
    ordered := h.ordered
    marks := hm
    queued := h.queued
    nodup := h.nodup
    jobs := ?_
    apart := ?_
    source := ?_
    logged := hl
    running := ?_ }
  · intro i'
    change (Function.update s.threads i t i').Idle
    by_cases hi : i' = i
    · subst hi; rw [Function.update_self]; exact ht
    · rw [Function.update_of_ne hi]; exact h.idle i'
  · intro i' job' hj'
    obtain ⟨job0, h0, hname⟩ := hold i' job' hj'
    rw [hname]
    exact h.jobs i' job0 h0
  · intro i1 i2 j1 j2 h1 h2 he
    obtain ⟨k1, hk1, hn1⟩ := hold i1 j1 h1
    obtain ⟨k2, hk2, hn2⟩ := hold i2 j2 h2
    exact h.apart i1 i2 k1 k2 hk1 hk2 (by rw [← hn1, ← hn2, he])
  · intro i' job' src text hj' hsrc hh
    by_cases hi : i' = i
    · subst hi
      change (Function.update s.threads i' t i').job = some job' at hj'
      rw [Function.update_self] at hj'
      rw [hn job' hj'] at hh
      exact hs job' src text hj' hsrc hh
    · change (Function.update s.threads i t i').job = some job' at hj'
      rw [Function.update_of_ne hi] at hj'
      exact h.source i' job' src text hj' hsrc hh
  · intro hr
    rw [(h.running hr).2 i] at hj
    cases hj

/-- A file nobody works on is moved. -/
theorem Shape.move (h : Shape cfg s) {f : FileName} {a b : Dir} (hab : a ≠ b)
    (hq : f ∉ s.queue) (hj : ∀ i job, (s.threads i).job = some job → job.name ≠ f) :
    Shape cfg (s.rename f a b) ∧ ∀ g t, (s.rename f a b).Holds g t ↔ s.Holds g t := by
  cases hf : (s.files a).lookup f with
  | none =>
    have he : s.rename f a b = s := by
      unfold Ingest.rename
      rw [hf]
    rw [he]
    exact ⟨h, fun _ _ => Iff.rfl⟩
  | some text =>
    obtain ⟨hone, hh⟩ := h.onePlace.rename hf hab
    have hmem := rename_mem hf hab .process
    obtain ⟨files, he⟩ := rename_rest s f a b
    rw [he] at hone hh hmem ⊢
    refine ⟨{
      idle := h.idle
      onePlace := hone
      ordered := fun g t hg => h.ordered g t ((hh g t).mp hg)
      marks := h.marks
      queued := ?_
      nodup := h.nodup
      jobs := ?_
      apart := h.apart
      source := fun i job src t hjob hs hg => h.source i job src t hjob hs ((hh _ t).mp hg)
      logged := ?_
      running := h.running }, hh⟩
    · intro g hg
      have hgf : g ≠ f := by rintro rfl; exact hq hg
      rw [hmem, if_neg hgf]
      exact h.queued g hg
    · intro i job hjob
      rw [hmem, if_neg (hj i job hjob)]
      exact h.jobs i job hjob
    · intro e hl
      obtain ⟨t, ht⟩ := h.logged e hl
      exact ⟨t, (hh _ t).mpr ht⟩

/-- A file comes into the ready directory under a new name. -/
theorem Shape.deliver (h : Shape cfg s) {f : FileName} {text : Text}
    (hd : Delivers cfg s f text) {s' : Ingest} (hs : step cfg s (.deliver f text) = some s') :
    Shape cfg s' ∧ ∀ g t, s'.Holds g t ↔ if g = f then t = text else s.Holds g t := by
  cases hs
  have hlook : ∀ d g, (Function.update s.files .ready ((s.files .ready).insert f text) d).lookup g =
      if d = .ready ∧ g = f then some text else (s.files d).lookup g := by
    intro d g
    by_cases hr : d = .ready
    · subst hr
      rw [Function.update_self]
      by_cases hg : g = f
      · subst hg; rw [AList.lookup_insert, if_pos ⟨rfl, rfl⟩]
      · rw [AList.lookup_insert_ne hg, if_neg (fun hn => hg hn.2)]
    · rw [Function.update_of_ne hr, if_neg (fun hn => hr hn.1)]
  have hmem : ∀ d g, g ∈ Function.update s.files .ready ((s.files .ready).insert f text) d ↔
      (d = .ready ∧ g = f) ∨ g ∈ s.files d := by
    intro d g
    rw [← AList.lookup_isSome, hlook, ← AList.lookup_isSome]
    split
    · next hc => simp [hc]
    · next hc => simp [hc]
  have hnone : ∀ d, (s.files d).lookup f = none := fun d => AList.lookup_eq_none.mpr (hd.fresh d)
  have hh : ∀ g t, (∃ d, (Function.update s.files .ready ((s.files .ready).insert f text) d).lookup g
      = some t) ↔ if g = f then t = text else s.Holds g t := by
    intro g t
    simp only [hlook]
    by_cases hg : g = f
    · subst hg
      rw [if_pos rfl]
      constructor
      · rintro ⟨d, hl⟩
        split at hl
        · cases hl; rfl
        · rw [hnone] at hl; cases hl
      · rintro rfl
        exact ⟨.ready, if_pos ⟨rfl, rfl⟩⟩
    · rw [if_neg hg]
      simp only [hg, and_false, if_false]
      exact Iff.rfl
  -- whoever is known already is not the new file
  have hne : ∀ g d, g ∈ s.files d → g ≠ f := by
    rintro g d hg rfl
    exact hd.fresh d hg
  refine ⟨{
    idle := h.idle
    onePlace := ?_
    ordered := ?_
    marks := h.marks
    queued := fun g hg => (hmem _ _).mpr (.inr (h.queued g hg))
    nodup := h.nodup
    jobs := fun i job hj => ⟨(hmem _ _).mpr (.inr (h.jobs i job hj).1), (h.jobs i job hj).2⟩
    apart := h.apart
    source := ?_
    logged := ?_
    running := h.running }, hh⟩
  · intro g d d' h1 h2
    rcases (hmem d g).mp h1 with ⟨rfl, hg⟩ | h1 <;> rcases (hmem d' g).mp h2 with ⟨rfl, hg'⟩ | h2
    · rfl
    · exact absurd hg (hne g d' h2)
    · exact absurd hg' (hne g d h1)
    · exact h.onePlace g d d' h1 h2
  · intro g t ht
    have ht := (hh g t).mp ht
    split at ht
    · subst ht; exact hd.ordered
    · exact h.ordered g t ht
  · intro i job src t hj hsrc ht
    have ht := (hh _ t).mp ht
    rw [if_neg (hne job.name .process (h.jobs i job hj).1)] at ht
    exact h.source i job src t hj hsrc ht
  · intro e he
    obtain ⟨t, ht⟩ := h.logged e he
    refine ⟨t, (hh _ t).mpr ?_⟩
    obtain ⟨d, hl⟩ := ht
    rw [if_neg (hne e.name d (mem_of_lookup hl))]
    exact ⟨d, hl⟩

/-- The process comes up and takes over what was claimed. -/
theorem Shape.start (h : Shape cfg s) {swept : List FileName} {s' : Ingest}
    (hs : step cfg s (.start swept) = some s') :
    Shape cfg s' ∧ s' = { s with running := true, queue := swept } ∧
      ∀ i, (s.threads i).job = none := by
  obtain ⟨hc, rfl⟩ := start_cases hs
  have hjobs := (h.running hc.1).2
  refine ⟨{
    idle := h.idle
    onePlace := h.onePlace
    ordered := h.ordered
    marks := h.marks
    queued := fun f hf => AList.mem_keys.mpr (hc.2.mem_iff.mp hf)
    nodup := hc.2.nodup_iff.mpr (AList.keys_nodup _)
    jobs := fun i job hj => absurd hj (by rw [hjobs i]; simp)
    apart := h.apart
    source := h.source
    logged := h.logged
    running := fun hr => by cases hr }, rfl, hjobs⟩

/-- The watcher claims a file, which nobody works on before. -/
theorem Shape.claim (h : Shape cfg s) {f : FileName} {s' : Ingest}
    (hs : step cfg s (.claim f) = some s') :
    Shape cfg s' ∧ (∃ files queue, s' = { s with files, queue }) ∧
      (∀ g t, s'.Holds g t ↔ s.Holds g t) ∧
      ∀ g d, g ∈ s'.files d → d ≠ .process → g ∈ s.files d := by
  obtain ⟨hc, rfl⟩ := Ingest.claim_cases hs
  have hp : f ∉ s.files .process := fun hp => by cases h.onePlace f _ _ hc.2 hp
  have hq : f ∉ s.queue := fun hq => hp (h.queued f hq)
  have hj : ∀ i job, (s.threads i).job = some job → job.name ≠ f := by
    rintro i job hj rfl
    exact hp (h.jobs i job hj).1
  obtain ⟨h', hh⟩ := h.move (a := .ready) (b := .process) (by decide) hq hj
  obtain ⟨text, ht⟩ := Option.isSome_iff_exists.mp (AList.lookup_isSome.mpr hc.2)
  have hmem := rename_mem ht (b := .process) (by decide)
  obtain ⟨files, he⟩ := rename_rest s f .ready .process
  rw [he] at h' hh hmem ⊢
  refine ⟨{
    idle := h'.idle
    onePlace := h'.onePlace
    ordered := h'.ordered
    marks := h'.marks
    queued := ?_
    nodup := ?_
    jobs := ?_
    apart := h'.apart
    source := h'.source
    logged := h'.logged
    running := fun hr => absurd hc.1 (by rw [hr]; simp) }, ⟨files, _, rfl⟩, hh, ?_⟩
  · intro g hg
    rcases List.mem_append.mp hg with hg | hg
    · exact h'.queued g hg
    · rw [List.mem_singleton.mp hg, hmem, if_pos rfl]
      exact .inl rfl
  · exact List.nodup_append.mpr ⟨h.nodup, List.nodup_singleton f, by
      rintro g hg g' hg' rfl
      rw [List.mem_singleton.mp hg'] at hg
      exact hq hg⟩
  · intro i job hjob
    refine ⟨(h'.jobs i job hjob).1, fun hm => ?_⟩
    rcases List.mem_append.mp hm with hm | hm
    · exact (h.jobs i job hjob).2 hm
    · exact hj i job hjob (List.mem_singleton.mp hm)
  · intro g d hg hd
    rw [hmem] at hg
    split at hg
    · exact (hg.resolve_left hd).2
    · exact hg

/-- The head of the queue is dropped. -/
theorem Shape.drop (h : Shape cfg s) {f : FileName} {queue : List FileName}
    (hq : s.queue = f :: queue) : Shape cfg { s with queue } := by
  have hsub : ∀ g, g ∈ queue → g ∈ s.queue := fun g hg => hq ▸ List.mem_cons_of_mem f hg
  refine { h with
    queued := fun g hg => h.queued g (hsub g hg)
    nodup := (List.nodup_cons.mp (hq ▸ h.nodup)).2
    jobs := fun i job hj => ⟨(h.jobs i job hj).1, fun hm => (h.jobs i job hj).2 (hsub _ hm)⟩
    running := fun hr => ?_ }
  have hnil := (h.running hr).1
  rw [hq] at hnil
  cases hnil

/-- An idle worker turns to a file nobody else has. -/
theorem Shape.turn (h : Shape cfg s) {i : Nat} {f : FileName} (hr : s.running = true)
    (hp : f ∈ s.files .process) (hq : f ∉ s.queue)
    (hf : ∀ i job, (s.threads i).job = some job → job.name ≠ f) :
    Shape cfg (s.setJob i (some { name := f })) := by
  have hnew : ∀ i' job, (Function.update s.threads i { s.threads i with job := some { name := f } }
      i').job = some job → (i' = i ∧ job = { name := f }) ∨
        (i' ≠ i ∧ (s.threads i').job = some job) := by
    intro i' job hj
    by_cases hi : i' = i
    · subst hi
      rw [Function.update_self] at hj
      exact .inl ⟨rfl, (Option.some.inj hj).symm⟩
    · rw [Function.update_of_ne hi] at hj
      exact .inr ⟨hi, hj⟩
  refine {
    idle := ?_
    onePlace := h.onePlace
    ordered := h.ordered
    marks := h.marks
    queued := h.queued
    nodup := h.nodup
    jobs := ?_
    apart := ?_
    source := ?_
    logged := h.logged
    running := fun hr' => absurd hr (by rw [show s.running = false from hr']; simp) }
  · intro i'
    change (Function.update s.threads i { s.threads i with job := some { name := f } } i').Idle
    by_cases hi : i' = i
    · subst hi; rw [Function.update_self]; exact h.idle i'
    · rw [Function.update_of_ne hi]; exact h.idle i'
  · intro i' job hj
    rcases hnew i' job hj with ⟨-, rfl⟩ | ⟨-, hj⟩
    · exact ⟨hp, hq⟩
    · exact h.jobs i' job hj
  · intro i1 i2 j1 j2 h1 h2 he
    rcases hnew i1 j1 h1 with ⟨hi1, hj1⟩ | ⟨-, k1⟩ <;> rcases hnew i2 j2 h2 with ⟨hi2, hj2⟩ | ⟨-, k2⟩
    · rw [hi1, hi2]
    · rw [hj1] at he
      exact absurd he.symm (hf i2 j2 k2)
    · rw [hj2] at he
      exact absurd he (hf i1 j1 k1)
    · exact h.apart i1 i2 j1 j2 k1 k2 he
  · intro i' job src text hj hs ht
    rcases hnew i' job hj with ⟨-, rfl⟩ | ⟨-, hj⟩
    · cases hs
    · exact h.source i' job src text hj hs ht

/-- A worker takes a file out of the queue, or drops it. -/
theorem Shape.take (h : Shape cfg s) {i : Nat} {s' : Ingest}
    (hs : step cfg s (.take i) = some s') :
    Shape cfg s' ∧ ∃ f queue, s' = { s with queue } ∨
      s' = { s with queue }.setJob i (some { name := f }) := by
  obtain ⟨f, queue, hq, hr, -, hcase⟩ := take_cases hs
  have hdrop := h.drop hq
  refine ⟨?_, f, queue, hcase⟩
  rcases hcase with rfl | rfl
  · exact hdrop
  · exact hdrop.turn hr (h.queued f (hq ▸ List.mem_cons_self))
      (List.nodup_cons.mp (hq ▸ h.nodup)).1
      (fun i' job hj hn => (h.jobs i' job hj).2 (by rw [hn, hq]; exact List.mem_cons_self))

/-! ## One step -/

/-- What a step does to the store, the history, and the jobs. -/
inductive Effect (cfg : Setup) (s : Ingest) : Act → Ingest → Prop where
  /-- Files move, or workers turn elsewhere, or all of them are gone. -/
  | quiet {a : Act} {s' : Ingest} (hdb : s'.db = s.db) (hlog : s'.log = s.log)
      (hh : ∀ f text, s.Holds f text → s'.Holds f text)
      (hnew : ∀ f text, s'.Holds f text → s.Holds f text ∨ Delivers cfg s f text)
      (hjobs : ∀ i job, (s'.threads i).job = some job →
        (s.threads i).job = some job ∨ job.src = none ∧ job.kept = true)
      (hdone : ∀ f, f ∈ s'.files .done → f ∈ s.files .done) : Effect cfg s a s'
  /-- A worker opens its file behind the answer of the store. -/
  | opened {i : Nat} {readable : Bool} {script : List Event} {name : FileName} {kept : Bool}
      {t : Thread} {resume : UInt64}
      (hj : (s.threads i).job = some { name, src := none, kept })
      (hk : script.any Event.isKill = false)
      (ht : t.job = some { name, kept, src := some (FileSource.make
        (if readable then (s.files .process).lookup name else none) cfg.parser resume) })
      (hr : resume.toNat = s.mark cfg name ∨ ¬ Undisturbed script ∧ resume = 0) :
      Effect cfg s (.opens i readable script)
        { s with threads := Function.update s.threads i t }
  /-- A batch is handed to the sink. -/
  | handed {i : Nat} {visit : Visit} {script : List Event} {name : FileName} {src : FileSource}
      {kept : Bool} {batch : List CdrRecord} {src' : FileSource} {ran : List (Command × Bool)}
      {s' : Ingest} (hj : (s.threads i).job = some { name, src := some src, kept })
      (hn : src.next = (.ok, batch, src'))
      (hv : Visited ((consumeCalls visit batch (cfg.source name)).map Call.command) script
        s.db s'.db ran)
      (hlog : s'.log = s.log ++
        [{ name, batch, calls := consumeCalls visit batch (cfg.source name), ran }])
      (hfiles : s'.files = s.files)
      (hjobs : ∀ i' job, (s'.threads i').job = some job →
        (i' ≠ i ∧ (s.threads i').job = some job) ∨
        (i' = i ∧ script.any Event.isKill = false ∧ job = { name, src := some src', kept := (kept &&
          Entry.whole { name, batch, calls := consumeCalls visit batch (cfg.source name), ran }) })) :
      Effect cfg s (.consume i visit script) s'
  /-- A file goes where it ends. -/
  | finished {i : Nat} {moved : Bool} {name : FileName} {src : FileSource} {kept : Bool} {d : Dir}
      {s' : Ingest} (hj : (s.threads i).job = some { name, src := some src, kept })
      (hd : d = .done ∧ src.next.1 = .done ∨ d = .fail)
      (hdb : s'.db = s.db) (hlog : s'.log = s.log) (hh : ∀ f text, s'.Holds f text ↔ s.Holds f text)
      (hjobs : ∀ i job, (s'.threads i).job = some job → (s.threads i).job = some job)
      (hdone : ∀ f, f ∈ s'.files .done →
        f ∈ s.files .done ∨ f = name ∧ d = .done ∧ moved = true) :
      Effect cfg s (.dispose i moved) s'

theorem Setup.source_eq (cfg : Setup) (f : FileName) : cfg.source f = f.1 :=
  basenameOf_file cfg.dirs .process f

theorem Setup.source_injective (cfg : Setup) : Function.Injective cfg.source := by
  intro f g h
  rw [cfg.source_eq, cfg.source_eq] at h
  exact Subtype.ext h

/-- A batch that lands whole leaves its highest sequence as the mark of its file. -/
theorem visited_mark {visit : Visit} {batch : List CdrRecord} {name : FileName}
    {script : List Event} {db db' : Db} {ran : List (Command × Bool)}
    (hv : Visited ((consumeCalls visit batch (cfg.source name)).map Call.command) script db db' ran)
    (hl : Lands script) (hr : ¬ Reopened script) (hh : AggregateSink.highest batch ≠ 0)
    (f : FileName) : db'.count (markPlace (cfg.source f)) =
      if f = name then (AggregateSink.highest batch).toNat
      else db.count (markPlace (cfg.source f)) := by
  have hdb := congrArg Prod.snd (hv.whole hl hr)
  dsimp only at hdb
  have hne : cfg.source name ≠ [] := by
    rw [cfg.source_eq]
    exact name.2.1
  unfold Db.count
  rw [hdb, batch_mark]
  unfold marked
  by_cases hf : f = name
  · subst hf
    rw [if_pos rfl, if_pos ⟨rfl, hne, hh⟩]
    rfl
  · rw [if_neg hf, if_neg (fun h => hf (cfg.source_injective h.1))]

theorem Shape.opens (h : Shape cfg s) {i : Nat} {readable : Bool} {script : List Event}
    {s' : Ingest} (hs : s.opens cfg i readable script = some s') :
    Shape cfg s' ∧ Effect cfg s (.opens i readable script) s' := by
  obtain ⟨name, kept, hj, ⟨hk, rfl⟩ | ⟨hk, t, resume, hidle, ht, rfl, hr⟩⟩ :=
    opens_cases (h.idle i) h.marks hs
  · refine ⟨h.crash rfl h.marks h.logged, .quiet rfl rfl (fun _ _ hh => hh) (fun _ _ hh => .inl hh)
      (fun i' job hj' => ?_) (fun _ hd => hd)⟩
    cases hj'
  · refine ⟨h.work hj hidle ?_ ?_ h.marks h.logged s.runTotals, .opened hj hk ht hr⟩
    · intro job' hj'
      rw [ht] at hj'
      cases hj'
      rfl
    · intro job' src text hj' hsrc hh
      rw [ht] at hj'
      cases hj'
      cases hsrc
      rcases make_upcoming (if readable then (s.files .process).lookup name else none) cfg.parser
        resume with ⟨-, hup⟩ | ⟨data, hdata, -, hup⟩
      · rw [hup]
        exact List.nil_sublist _
      · rw [hup]
        have hd : s.Holds name data := by
          cases readable
          · cases hdata
          · exact ⟨.process, hdata⟩
        rw [h.onePlace.holds_unique hh hd]
        exact List.filter_sublist

/-- The sequences of a batch that is a part of a file in order. -/
theorem Ordered.highest {parser : IParser} {text : Text} (ho : Ordered parser text)
    {batch rest : List CdrRecord} (hb : batch ≠ [])
    (hs : (batch ++ rest).Sublist (accepted parser text)) :
    AggregateSink.highest batch ≠ 0 ∧
      ∀ r ∈ rest, AggregateSink.highest batch < r.sequence := by
  have h0 : AggregateSink.highest batch ≠ 0 := by
    refine highest_ne_zero hb fun r hr => ho.2 r (hs.subset ?_)
    exact List.mem_append_left _ hr
  refine ⟨h0, fun r hr => ?_⟩
  obtain ⟨r', hr', he⟩ := highest_mem h0
  rw [← he]
  exact (List.pairwise_append.mp (ho.1.sublist hs)).2.2 r' hr' r hr

theorem Shape.consume (h : Shape cfg s) {i : Nat} {visit : Visit} {script : List Event}
    {s' : Ingest} (hs : s.consume cfg i visit script = some s') :
    Shape cfg s' ∧ Effect cfg s (.consume i visit script) s' := by
  obtain ⟨name, src, kept, batch, src', db', ran, hj, hnext, hv, hcase⟩ :=
    consume_cases (h.idle i) hs
  obtain ⟨-, -, hb, hup⟩ := next_ok hnext
  obtain ⟨text, htext⟩ : ∃ text, s.Holds name text := by
    have hm := (h.jobs i _ hj).1
    obtain ⟨text, ht⟩ := Option.isSome_iff_exists.mp (AList.lookup_isSome.mpr hm)
    exact ⟨text, .process, ht⟩
  have hsub := h.source i _ src text hj rfl htext
  rw [hup] at hsub
  have hm : ∀ f, db'.count (markPlace (cfg.source f)) < 2 ^ 64 := by
    intro f
    rcases hv.run with ⟨t, hrun⟩
    rw [show db' = (runAll redis t s.db).2 from congrArg Prod.snd hrun]
    exact runAll_hash_lt t (h.marks f)
  have hl : ∀ e ∈ s.log ++
      [{ name, batch, calls := consumeCalls visit batch (cfg.source name), ran : Entry }],
      ∃ text, s.Holds e.name text := by
    intro e he
    rcases List.mem_append.mp he with he | he
    · exact h.logged e he
    · rw [List.mem_singleton.mp he]
      exact ⟨text, htext⟩
  rcases hcase with ⟨-, rfl⟩ | ⟨hk, t, runTotals, hidle, ht, rfl⟩
  · refine ⟨h.crash rfl hm hl, .handed hj hnext hv rfl rfl fun i' job hj' => ?_⟩
    cases hj'
  · refine ⟨h.work hj hidle ?_ ?_ hm hl runTotals, .handed hj hnext hv rfl rfl ?_⟩
    · intro job' hj'
      rw [ht] at hj'
      cases hj'
      rfl
    · intro job' src1 text1 hj' hsrc hh
      rw [ht] at hj'
      cases hj'
      cases hsrc
      rw [h.onePlace.holds_unique hh htext]
      exact (List.sublist_append_right _ _).trans hsub
    · intro i' job hj'
      by_cases hi : i' = i
      · subst hi
        change (Function.update s.threads i' t i').job = _ at hj'
        rw [Function.update_self, ht] at hj'
        cases hj'
        exact .inr ⟨rfl, hk, rfl⟩
      · change (Function.update s.threads i t i').job = _ at hj'
        rw [Function.update_of_ne hi] at hj'
        exact .inl ⟨hi, hj'⟩

theorem Shape.dispose (h : Shape cfg s) {i : Nat} {moved : Bool} {s' : Ingest}
    (hs : s.dispose i moved = some s') :
    Shape cfg s' ∧ Effect cfg s (.dispose i moved) s' := by
  obtain ⟨name, src, kept, d, hj, hd, rfl⟩ := dispose_cases hs
  have hpd : Dir.process ≠ d := by
    rcases hd with ⟨rfl, -⟩ | rfl <;> decide
  -- the worker lets go of the file first
  have hfree : Shape cfg (s.setJob i none) := by
    refine h.work hj (t := { s.threads i with job := none }) (h.idle i) ?_ ?_ h.marks h.logged
      s.runTotals
    · intro job' hj'; cases hj'
    · intro job' src text hj'; cases hj'
  have hold : ∀ i' job, ((s.setJob i none).threads i').job = some job →
      (s.threads i').job = some job ∧ i' ≠ i := by
    intro i' job hj'
    change (Function.update s.threads i { s.threads i with job := none } i').job = _ at hj'
    by_cases hi : i' = i
    · subst hi
      rw [Function.update_self] at hj'
      cases hj'
    · rw [Function.update_of_ne hi] at hj'
      exact ⟨hj', hi⟩
  cases moved with
  | false =>
    exact ⟨hfree, .finished hj hd rfl rfl (fun _ _ => Iff.rfl) (fun i' job hj' => (hold i' job hj').1)
      (fun f hf => .inl hf)⟩
  | true =>
    obtain ⟨hmoved, hh⟩ := hfree.move (f := name) hpd (h.jobs i _ hj).2 (by
      rintro i' job hj' hname
      obtain ⟨hj', hi⟩ := hold i' job hj'
      exact hi (h.apart i' i job _ hj' hj hname))
    have hcomm : (s.rename name .process d).setJob i none = (s.setJob i none).rename name .process d := by
      unfold Ingest.rename Ingest.setJob
      dsimp only
      cases (s.files .process).lookup name <;> rfl
    rw [if_pos rfl, hcomm]
    refine ⟨hmoved, ?_⟩
    obtain ⟨text, ht⟩ := Option.isSome_iff_exists.mp (AList.lookup_isSome.mpr (h.jobs i _ hj).1)
    have hmem := rename_mem (s := s.setJob i none) ht hpd .done
    obtain ⟨files, he⟩ := rename_rest (s.setJob i none) name .process d
    rw [he] at hh hmem ⊢
    refine .finished hj hd rfl rfl hh (fun i' job hj' => (hold i' job hj').1) ?_
    intro f hf
    rw [hmem] at hf
    split at hf
    · next hfn =>
      rcases hf with hf | hf
      · exact .inr ⟨hfn, hf.symm, rfl⟩
      · exact .inl hf.2
    · exact .inl hf

/-- **One step.**  The invariant is kept, and the step is one of the four kinds. -/
theorem step_shape (h : Shape cfg s) {a : Act} {s' : Ingest} (ha : Arrives cfg s a)
    (hs : step cfg s a = some s') : Shape cfg s' ∧ Effect cfg s a s' := by
  cases a with
  | deliver f text =>
    obtain ⟨h', hh⟩ := h.deliver ha hs
    cases hs
    refine ⟨h', .quiet rfl rfl ?_ ?_ (fun _ _ hj => .inl hj) ?_⟩
    · intro g t hg
      rw [hh]
      have hgf : g ≠ f := by
        rintro rfl
        obtain ⟨d, hl⟩ := hg
        exact ha.fresh d (mem_of_lookup hl)
      rw [if_neg hgf]
      exact hg
    · intro g t hg
      rw [hh] at hg
      split at hg
      · next hgf => subst hgf hg; exact .inr ha
      · exact .inl hg
    · intro g hg
      change g ∈ Function.update s.files .ready ((s.files .ready).insert f text) .done at hg
      rwa [Function.update_of_ne (by decide)] at hg
  | start swept =>
    obtain ⟨h', rfl, hjobs⟩ := h.start hs
    exact ⟨h', .quiet rfl rfl (fun _ _ hh => hh) (fun _ _ hh => .inl hh) (fun _ _ hj => .inl hj)
      (fun _ hd => hd)⟩
  | claim f =>
    obtain ⟨h', ⟨files, queue, rfl⟩, hh, hmem⟩ := h.claim hs
    exact ⟨h', .quiet rfl rfl (fun g t hg => (hh g t).mpr hg) (fun g t hg => .inl ((hh g t).mp hg))
      (fun _ _ hj => .inl hj) (fun g hg => hmem g .done hg (by decide))⟩
  | stop =>
    obtain rfl := stop_cases hs
    exact ⟨{ h with }, .quiet rfl rfl (fun _ _ hh => hh) (fun _ _ hh => .inl hh)
      (fun _ _ hj => .inl hj) (fun _ hd => hd)⟩
  | take i =>
    obtain ⟨h', f, queue, rfl | rfl⟩ := h.take hs
    · exact ⟨h', .quiet rfl rfl (fun _ _ hh => hh) (fun _ _ hh => .inl hh) (fun _ _ hj => .inl hj)
        (fun _ hd => hd)⟩
    · refine ⟨h', .quiet rfl rfl (fun _ _ hh => hh) (fun _ _ hh => .inl hh) ?_ (fun _ hd => hd)⟩
      intro i' job hj
      change (Function.update s.threads i { s.threads i with job := some { name := f } } i').job =
        _ at hj
      by_cases hi : i' = i
      · subst hi
        rw [Function.update_self] at hj
        cases hj
        exact .inr ⟨rfl, rfl⟩
      · rw [Function.update_of_ne hi] at hj
        exact .inl hj
  | opens i readable script => exact h.opens hs
  | consume i visit script => exact h.consume hs
  | dispose i moved => exact h.dispose hs
  | crash =>
    cases hs
    refine ⟨h.crash rfl h.marks h.logged, .quiet rfl rfl (fun _ _ hh => hh) (fun _ _ hh => .inl hh)
      (fun i job hj => ?_) (fun _ hd => hd)⟩
    cases hj

/-! ## A batch handed over -/

/-- A visit of a worker: the batch is the front of what is left of the file, and the
store ran all of it or nothing. -/
structure Handed (cfg : Setup) (s s' : Ingest) (name : FileName) (src src' : FileSource)
    (calls : List Call) (batch : List CdrRecord) (script : List Event)
    (ran : List (Command × Bool)) : Prop where
  upcoming : src.upcoming = batch ++ src'.upcoming
  called : calls ≠ []
  highest : AggregateSink.highest batch ≠ 0
  ahead : ∀ r ∈ src'.upcoming, AggregateSink.highest batch < r.sequence
  accepted : ∀ text, s.Holds name text → ∀ r ∈ batch, r ∈ accepted cfg.parser text
  increasing : batch.Pairwise fun r r' => r.sequence < r'.sequence
  missed : ¬ Lands script → ran = [] ∧ s'.db = s.db
  landed : Lands script → ran ≠ [] ∧ (ran, s'.db) = runAll redis (calls.map Call.command) s.db ∧
    ∀ f, s'.mark cfg f =
      if f = name then (AggregateSink.highest batch).toNat else s.mark cfg f

theorem consumeCalls_ne_nil {visit : Visit} {batch : List CdrRecord} {source : Text}
    (hs : source ≠ []) (hh : AggregateSink.highest batch ≠ 0) :
    consumeCalls visit batch source ≠ [] := by
  unfold consumeCalls markCalls
  rw [if_pos ⟨hs, hh⟩]
  simp

theorem Shape.handed (h : Shape cfg s) {s' : Ingest} {i : Nat} {visit : Visit}
    {script : List Event} {name : FileName} {src src' : FileSource} {kept : Bool}
    {batch : List CdrRecord} {ran : List (Command × Bool)}
    (hj : (s.threads i).job = some { name, src := some src, kept })
    (hn : src.next = (.ok, batch, src'))
    (hv : Visited ((consumeCalls visit batch (cfg.source name)).map Call.command) script
      s.db s'.db ran) (hr : ¬ (Reopened script ∧ Lands script)) :
    Handed cfg s s' name src src' (consumeCalls visit batch (cfg.source name)) batch script ran := by
  obtain ⟨-, -, hb, hup⟩ := next_ok hn
  obtain ⟨text, ht⟩ := Option.isSome_iff_exists.mp (AList.lookup_isSome.mpr (h.jobs i _ hj).1)
  have htext : s.Holds name text := ⟨.process, ht⟩
  have hsub := h.source i _ src text hj rfl htext
  rw [hup] at hsub
  have ho := h.ordered name text htext
  obtain ⟨hhigh, hahead⟩ := ho.highest hb hsub
  have hne : cfg.source name ≠ [] := by
    rw [cfg.source_eq]
    exact name.2.1
  have hcalls : consumeCalls visit batch (cfg.source name) ≠ [] := consumeCalls_ne_nil hne hhigh
  refine ⟨hup, hcalls, hhigh, hahead, ?_, ?_, hv.none, ?_⟩
  · intro text' ht' r hm
    rw [h.onePlace.holds_unique ht' htext]
    exact hsub.subset (List.mem_append_left _ hm)
  · exact (List.pairwise_append.mp (ho.1.sublist hsub)).1
  · intro hl
    have hno : ¬ Reopened script := fun hre => hr ⟨hre, hl⟩
    exact ⟨hv.ran_ne_nil hl hno fun hnil => hcalls (List.map_eq_nil_iff.mp hnil),
      hv.whole hl hno, visited_mark hv hl hno hhigh⟩

end CdrProcessor
