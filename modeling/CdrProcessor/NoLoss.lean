import CdrProcessor.NoRepeat

/-! Whether a record of a file can be given up without having been counted.  It cannot
as long as no batch is committed, and no file put away, behind a batch that was not
brought whole. -/

namespace CdrProcessor

/-! ## What may come behind what -/

/-- The batch a worker hands over is brought whole: its EXEC gets through, on the connection it
was begun on, and the server fails none of its commands. -/
def Ingest.Brings (cfg : Setup) (s : Ingest) (i : Nat) (visit : Visit) (script : List Event) :
    Prop :=
  Lands script ∧ ¬ Reopened script ∧ ∀ job, (s.threads i).job = some job →
    Succeeds redis
      ((consumeCalls visit (s.nextBatch i) (cfg.source job.name)).map Call.command) s.db

/-- What gets through to the store is a batch brought whole. -/
def Careful (cfg : Setup) (s : Ingest) : Act → Prop
  | .deliver f text => Delivers cfg s f text
  | .consume i visit script => Lands script → s.Brings cfg i visit script
  | _ => True

/-- A batch of the worker gets through to the store. -/
def Act.Commits (i : Nat) : Act → Prop
  | .consume j _ script => j = i ∧ Lands script
  | _ => False

/-- A batch of the worker gets through to the store, or its file is put away. -/
def Act.Settles (i : Nat) : Act → Prop
  | .consume j _ script => j = i ∧ Lands script
  | .dispose j moved => j = i ∧ moved = true
  | _ => False

/-- Until it takes another file, a worker does nothing of the kind behind a batch that was not
brought whole. -/
def NoneBehind (cfg : Setup) (later : Nat → Act → Prop) (s : Ingest) (acts : List Act) : Prop :=
  ∀ pre i visit script mid a post t,
    acts = pre ++ .consume i visit script :: (mid ++ a :: post) → (∀ b ∈ mid, b ≠ .take i) →
    Run (step cfg) (fun _ _ => True) s pre t → later i a → t.Brings cfg i visit script

/-! ## The invariant -/

/-- A batch with the record in it was run whole, and without an error. -/
def Ingest.Counted (s : Ingest) (f : FileName) (r : CdrRecord) : Prop :=
  ∃ e ∈ s.log, e.name = f ∧ e.whole = true ∧ r ∈ e.batch

/-- The batches of the worker's file, as far as the worker remembers, were all brought whole. -/
def Ingest.Kept (s : Ingest) (i : Nat) : Prop :=
  ∀ job, (s.threads i).job = some job → job.kept = true

/-- A visit whose EXEC gets through brings a whole batch, behind others that were. -/
def Unskipped (cfg : Setup) (s : Ingest) (a : Act) : Prop :=
  Careful cfg s a ∧ ∀ i, a.Commits i → s.Kept i

/-- And a file is put away behind such batches only. -/
def Unlost (cfg : Setup) (s : Ingest) (a : Act) : Prop :=
  Careful cfg s a ∧ ∀ i, a.Settles i → s.Kept i

/-- What a mark gives up is counted, and so is whatever a reader that kept all its
batches does not have in front of it. -/
structure Unhidden (cfg : Setup) (s : Ingest) : Prop where
  shape : Shape cfg s
  counted : ∀ f text, s.Holds f text → ∀ r ∈ accepted cfg.parser text,
    r.sequence.toNat ≤ s.mark cfg f → s.Counted f r
  reader : ∀ i job src text, (s.threads i).job = some job → job.src = some src →
    job.kept = true → src.failed = false → s.Holds job.name text →
    ∀ r ∈ accepted cfg.parser text, r ∈ src.upcoming ∨ s.Counted job.name r

/-- What a mark or the done directory gives up is counted, and so is whatever a reader
that kept all its batches does not have in front of it. -/
structure NoLoss (cfg : Setup) (s : Ingest) : Prop where
  shape : Shape cfg s
  counted : ∀ f text, s.Holds f text → ∀ r ∈ accepted cfg.parser text,
    r.sequence.toNat ≤ s.mark cfg f → s.Counted f r
  ended : ∀ f text, s.Holds f text → f ∈ s.files .done → ∀ r ∈ accepted cfg.parser text,
    s.Counted f r
  reader : ∀ i job src text, (s.threads i).job = some job → job.src = some src →
    job.kept = true → src.failed = false → s.Holds job.name text →
    ∀ r ∈ accepted cfg.parser text, r ∈ src.upcoming ∨ s.Counted job.name r

variable {cfg : Setup} {s s' : Ingest}

theorem Careful.steady {a : Act} (h : Careful cfg s a) : Steady cfg s a := by
  cases a with
  | deliver f text => exact h
  | consume i visit script => exact fun hc => (h hc.2).2.1 hc.1
  | _ => trivial

theorem Act.Commits.settles {i : Nat} {a : Act} (h : a.Commits i) : a.Settles i := by
  cases a with
  | consume j visit script => exact h
  | _ => exact h.elim

theorem Unlost.unskipped {a : Act} (h : Unlost cfg s a) : Unskipped cfg s a :=
  ⟨h.1, fun i hc => h.2 i hc.settles⟩

theorem Unhidden.initial (cfg : Setup) {db : Db}
    (hm : ∀ f, (Ingest.initial db).mark cfg f < 2 ^ 64) : Unhidden cfg (Ingest.initial db) where
  shape := .initial cfg hm
  counted f text h := by obtain ⟨d, h⟩ := h; cases h
  reader i job src text h := by cases h

theorem NoLoss.unhidden (h : NoLoss cfg s) : Unhidden cfg s := ⟨h.shape, h.counted, h.reader⟩

theorem Unhidden.noLoss (h : Unhidden cfg s) (he : ∀ f text, s.Holds f text →
    f ∈ s.files .done → ∀ r ∈ accepted cfg.parser text, s.Counted f r) : NoLoss cfg s :=
  ⟨h.shape, h.counted, he, h.reader⟩

theorem NoLoss.initial (cfg : Setup) {db : Db}
    (hm : ∀ f, (Ingest.initial db).mark cfg f < 2 ^ 64) : NoLoss cfg (Ingest.initial db) :=
  (Unhidden.initial cfg hm).noLoss fun f text h => by obtain ⟨d, h⟩ := h; cases h

theorem Ingest.Counted.mono {f : FileName} {r : CdrRecord} (h : s.Counted f r)
    (hlog : ∀ e ∈ s.log, e ∈ s'.log) : s'.Counted f r := by
  obtain ⟨e, he, hrest⟩ := h
  exact ⟨e, hlog e he, hrest⟩

/-- A batch counts as kept exactly when its EXEC got through, on the connection it
began on, and every command succeeded. -/
theorem whole_iff (name : FileName) (batch : List CdrRecord) {calls : List Call}
    {script : List Event} {ran : List (Command × Bool)} {db db' : Db}
    (hv : Visited (calls.map Call.command) script db db' ran) (hc : calls ≠ []) :
    Entry.whole ⟨name, batch, calls, ran⟩ = true ↔
      Lands script ∧ ¬ Reopened script ∧ Succeeds redis (calls.map Call.command) db := by
  unfold Entry.whole
  rw [decide_eq_true_eq]
  exact hv.whole_iff hc

/-! ## Its steps -/

/-- A step that only adds to the history keeps what it says of the files there were. -/
theorem Unhidden.grow (h : Unhidden cfg s) (h' : Shape cfg s') (hlog : ∀ e ∈ s.log, e ∈ s'.log)
    (hcounted : ∀ f text, s'.Holds f text → ∀ r ∈ accepted cfg.parser text,
      r.sequence.toNat ≤ s'.mark cfg f →
        s.Holds f text ∧ r.sequence.toNat ≤ s.mark cfg f ∨ s'.Counted f r)
    (hreader : ∀ i job src text, (s'.threads i).job = some job → job.src = some src →
      job.kept = true → src.failed = false → s'.Holds job.name text →
      ∀ r ∈ accepted cfg.parser text,
        (s.threads i).job = some job ∧ s.Holds job.name text ∨
          r ∈ src.upcoming ∨ s'.Counted job.name r) : Unhidden cfg s' where
  shape := h'
  counted f text ht r hr hm := by
    rcases hcounted f text ht r hr hm with ⟨ht, hm⟩ | hc
    · exact (h.counted f text ht r hr hm).mono hlog
    · exact hc
  reader i job src text hj hs hk hf ht r hr := by
    rcases hreader i job src text hj hs hk hf ht r hr with ⟨hj, ht⟩ | hc
    · exact (h.reader i job src text hj hs hk hf ht r hr).imp_right fun hc => hc.mono hlog
    · exact hc

/-- A file just opened has in front of it what lies behind the mark. -/
theorem Unhidden.opened (h : Unhidden cfg s) {name : FileName} {text : Text} {readable : Bool}
    {resume : UInt64} (hr : resume.toNat ≤ s.mark cfg name)
    (hf : (FileSource.make (if readable then (s.files .process).lookup name else none) cfg.parser
      resume).failed = false) (ht : s.Holds name text) {r : CdrRecord}
    (hm : r ∈ accepted cfg.parser text) :
    r ∈ (FileSource.make (if readable then (s.files .process).lookup name else none) cfg.parser
      resume).upcoming ∨ s.Counted name r := by
  rcases make_upcoming (if readable then (s.files .process).lookup name else none) cfg.parser
    resume with ⟨hfail, -⟩ | ⟨data, hdata, -, hup⟩
  · rw [hfail] at hf
    cases hf
  · have hd : s.Holds name data := by
      cases readable
      · cases hdata
      · exact ⟨.process, hdata⟩
    rw [h.shape.onePlace.holds_unique hd ht] at hup
    by_cases hle : r.sequence ≤ resume
    · exact .inr (h.counted name text ht r hm (le_trans (UInt64.le_iff_toNat_le.mp hle) hr))
    · left
      rw [hup]
      exact List.mem_filter.mpr ⟨hm, by simpa using hle⟩

/-- A batch that is kept whole behind others that were. -/
theorem Unhidden.land (h : Unhidden cfg s) (h' : Shape cfg s') {i : Nat} {name : FileName}
    {src src' : FileSource} {calls : List Call} {batch : List CdrRecord} {script : List Event}
    {ran : List (Command × Bool)}
    (hj : (s.threads i).job = some { name, src := some src, kept := true })
    (hfail : src.failed = false)
    (hd : Handed cfg s s' name src src' calls batch script ran) (hl : Lands script)
    (hw : Entry.whole ⟨name, batch, calls, ran⟩ = true)
    (hlog : s'.log = s.log ++ [⟨name, batch, calls, ran⟩]) (hfiles : s'.files = s.files)
    (hjobs : ∀ i' job, (s'.threads i').job = some job →
      (i' ≠ i ∧ (s.threads i').job = some job) ∨
      (i' = i ∧ ∃ kept', job = { name, src := some src', kept := kept' })) : Unhidden cfg s' := by
  obtain ⟨-, -, hmark⟩ := hd.landed hl
  have hold : ∀ e ∈ s.log, e ∈ s'.log := fun e he => by
    rw [hlog]
    exact List.mem_append_left _ he
  have hnew : ∀ r ∈ batch, s'.Counted name r := fun r hr =>
    ⟨⟨name, batch, calls, ran⟩, by rw [hlog]; simp, rfl, hw, hr⟩
  have hholds : ∀ f text, s'.Holds f text → s.Holds f text := fun f text ht => by
    unfold Ingest.Holds at ht
    rwa [hfiles] at ht
  -- a record of the file is counted by now, or further on
  have hfront : ∀ text, s.Holds name text → ∀ r ∈ accepted cfg.parser text,
      r ∈ src'.upcoming ∨ s'.Counted name r := by
    intro text ht r hr
    rcases h.reader i _ src text hj rfl rfl hfail ht r hr with hup | hc
    · rw [hd.upcoming] at hup
      exact (List.mem_append.mp hup).symm.imp_right fun hb => hnew r hb
    · exact .inr (hc.mono hold)
  refine h.grow h' hold ?_ ?_
  · intro f text ht r hr hm
    rw [hmark] at hm
    split at hm
    · next hf =>
      subst hf
      right
      rcases hfront text (hholds _ _ ht) r hr with hup | hc
      · have hlt := UInt64.lt_iff_toNat_lt.mp (hd.ahead r hup)
        omega
      · exact hc
    · exact .inl ⟨hholds f text ht, hm⟩
  · intro i' job src1 text hj' hsrc hk hf ht r hr
    rcases hjobs i' job hj' with ⟨-, hj'⟩ | ⟨-, kept', rfl⟩
    · exact .inl ⟨hj', hholds _ _ ht⟩
    · cases hsrc
      exact .inr (hfront text (hholds _ _ ht) r hr)

theorem Unhidden.step {a : Act} (h : Unhidden cfg s) (ha : Unskipped cfg s a)
    (hs : CdrProcessor.step cfg s a = some s') : Unhidden cfg s' := by
  obtain ⟨h', heff⟩ := step_shape h.shape ha.1.steady.arrives hs
  cases heff with
  | quiet hdb hlog hh hnew hjobs hdone =>
    have hold : ∀ e ∈ s.log, e ∈ s'.log := fun e he => hlog ▸ he
    refine h.grow h' hold ?_ ?_
    · intro f text ht r hr hm
      rw [mark_congr hdb] at hm
      rcases hnew f text ht with ht | hd
      · exact .inl ⟨ht, hm⟩
      · exact absurd hm (Nat.not_le_of_lt (hd.above r hr))
    · intro i job src text hj hsrc hk hf ht r hr
      rcases hjobs i job hj with hj | ⟨hnone, -⟩
      · rcases hnew job.name text ht with ht | hd
        · exact .inl ⟨hj, ht⟩
        · exact absurd (h.shape.jobs i job hj).1 (hd.fresh .process)
      · rw [hnone] at hsrc
        cases hsrc
  | @opened i readable script name kept t resume hj hk ht hr =>
    refine h.grow h' (fun _ he => he) (fun _ _ ht _ _ hm => .inl ⟨ht, hm⟩) ?_
    intro i' job src text hj' hsrc hk' hf hh r hm
    by_cases hi : i' = i
    · subst hi
      change (Function.update s.threads i' t i').job = some job at hj'
      rw [Function.update_self, ht] at hj'
      cases hj'
      cases hsrc
      have hle : resume.toNat ≤ s.mark cfg name := by
        rcases hr with hr | ⟨-, rfl⟩
        · exact le_of_eq hr
        · exact Nat.zero_le _
      exact .inr (h.opened hle hf hh hm)
    · change (Function.update s.threads i t i').job = some job at hj'
      rw [Function.update_of_ne hi] at hj'
      exact .inl ⟨hj', hh⟩
  | @handed i visit script name src kept batch src' ran _ hj hn hv hlog hfiles hjobs =>
    have hd := h.shape.handed hj hn hv ha.1.steady
    by_cases hl : Lands script
    · obtain ⟨-, hre, hsucc⟩ := ha.1 hl
      have hkept : kept = true := ha.2 i ⟨rfl, hl⟩ _ hj
      have hsucc := hsucc _ hj
      rw [nextBatch_eq hj rfl hn] at hsucc
      subst hkept
      have hw := (whole_iff name batch hv hd.called).mpr ⟨hl, hre, hsucc⟩
      refine h.land h' hj (next_ok hn).1 hd hl hw hlog hfiles fun i' job hj' => ?_
      exact (hjobs i' job hj').imp_right fun hi => ⟨hi.1, _, hi.2.2⟩
    · obtain ⟨rfl, hdb⟩ := hd.missed hl
      have hholds : ∀ f text, s'.Holds f text → s.Holds f text := fun f text ht => by
        unfold Ingest.Holds at ht
        rwa [hfiles] at ht
      refine h.grow h' (fun e he => by rw [hlog]; exact List.mem_append_left _ he) ?_ ?_
      · intro f text ht r hr hm
        rw [mark_congr hdb] at hm
        exact .inl ⟨hholds f text ht, hm⟩
      · intro i' job src1 text hj' hsrc hk hf ht r hr
        rcases hjobs i' job hj' with ⟨-, hj'⟩ | ⟨-, -, rfl⟩
        · exact .inl ⟨hj', hholds _ _ ht⟩
        · -- the reader does not count as one that kept its batches
          have hw := ((Bool.and_eq_true _ _).mp hk).2
          exact absurd ((whole_iff _ _ hv hd.called).mp hw).1 hl
  | finished hj hd hdb hlog hh hjobs hdone =>
    refine h.grow h' (fun e he => hlog ▸ he) ?_ ?_
    · intro f text ht r hr hm
      rw [mark_congr hdb] at hm
      exact .inl ⟨(hh f text).mp ht, hm⟩
    · intro i' job src1 text hj' hsrc hk hf ht r hr
      exact .inl ⟨hjobs i' job hj', (hh _ text).mp ht⟩

theorem NoLoss.step {a : Act} (h : NoLoss cfg s) (ha : Unlost cfg s a)
    (hs : CdrProcessor.step cfg s a = some s') : NoLoss cfg s' := by
  have h' := h.unhidden.step ha.unskipped hs
  refine h'.noLoss fun f text ht hf r hr => ?_
  obtain ⟨-, heff⟩ := step_shape h.shape ha.1.steady.arrives hs
  cases heff with
  | quiet hdb hlog hh hnew hjobs hdone =>
    have hf := hdone f hf
    rcases hnew f text ht with ht | hd
    · exact (h.ended f text ht hf r hr).mono fun e he => hlog ▸ he
    · exact absurd hf (hd.fresh .done)
  | opened hj hk ht' hr' => exact h.ended f text ht hf r hr
  | handed hj hn hv hlog hfiles hjobs =>
    have hheld : s.Holds f text := by
      unfold Ingest.Holds at ht
      rwa [hfiles] at ht
    rw [hfiles] at hf
    exact (h.ended f text hheld hf r hr).mono fun e he => by
      rw [hlog]
      exact List.mem_append_left _ he
  | @finished i moved name src kept d _ hj hd hdb hlog hh hjobs hdone =>
    have hold : ∀ e ∈ s.log, e ∈ s'.log := fun e he => hlog ▸ he
    have ht := (hh f text).mp ht
    rcases hdone f hf with hf | ⟨rfl, rfl, rfl⟩
    · exact (h.ended f text ht hf r hr).mono hold
    · -- the source came to its end, so nothing is left in front of the reader
      obtain ⟨-, hend⟩ := hd.resolve_right (by decide)
      obtain ⟨hfail, hup⟩ := next_done hend
      have hkept : kept = true := ha.2 i ⟨rfl, rfl⟩ _ hj
      rcases h.reader i _ src text hj rfl hkept hfail ht r hr with hm | hc
      · rw [hup] at hm
        cases hm
      · exact hc.mono hold

/-! ## Whole runs -/

/-- A worker comes to have lost a batch of its file by handing over one that is not brought
whole, and by nothing else. -/
theorem kept_step {a : Act} (hshape : Shape cfg s) (ha : Arrives cfg s a)
    (hs : CdrProcessor.step cfg s a = some s') {i : Nat} (hk : ¬ s'.Kept i) :
    (∃ visit script, a = .consume i visit script ∧ ¬ s.Brings cfg i visit script) ∨
      ¬ s.Kept i ∧ a ≠ .take i := by
  obtain ⟨-, heff⟩ := step_shape hshape ha hs
  unfold Ingest.Kept at hk
  push Not at hk
  obtain ⟨job, hj', hk⟩ := hk
  -- a worker that has a file to lose batches of takes no other one
  have hstay : (s.threads i).job = some job → ¬ s.Kept i ∧ a ≠ .take i := by
    intro hj
    refine ⟨fun h => hk (h job hj), ?_⟩
    rintro rfl
    obtain ⟨f, queue, -, -, hnone, -⟩ := take_cases hs
    rw [hnone] at hj
    cases hj
  cases heff with
  | quiet hdb hlog hh hnew hjobs hdone =>
    rcases hjobs i job hj' with hj | ⟨-, hkept⟩
    · exact .inr (hstay hj)
    · exact absurd hkept hk
  | @opened i' readable script name kept t resume hj hkill ht hr =>
    by_cases hi : i = i'
    · subst hi
      change (Function.update s.threads i t i).job = some job at hj'
      rw [Function.update_self, ht] at hj'
      cases hj'
      refine .inr ⟨fun h => ?_, by simp⟩
      have hkept := h _ hj
      exact hk hkept
    · change (Function.update s.threads i' t i).job = some job at hj'
      rw [Function.update_of_ne hi] at hj'
      exact .inr (hstay hj')
  | @handed i' visit script name src kept batch src' ran _ hj hn hv hlog hfiles hjobs =>
    rcases hjobs i job hj' with ⟨-, hj'⟩ | ⟨rfl, -, rfl⟩
    · exact .inr (hstay hj')
    · cases kept with
      | false => exact .inr ⟨fun h => Bool.false_ne_true (h _ hj), by simp⟩
      | true =>
        refine .inl ⟨visit, script, rfl, fun ⟨hl, hre, hsucc⟩ => hk ?_⟩
        have hsucc := hsucc _ hj
        rw [nextBatch_eq hj rfl hn] at hsucc
        exact decide_eq_true (hv.all_ran hl hre hsucc)
  | finished hj hd hdb hlog hh hjobs hdone => exact .inr (hstay (hjobs i job hj'))

/-- Where nothing of the kind is done behind a batch that was not brought whole, no worker
remembers such a batch when it does it. -/
theorem NoneBehind.kept {later : Nat → Act → Prop} {db : Db}
    (hm : ∀ f, (Ingest.initial db).mark cfg f < 2 ^ 64) {acts : List Act}
    (hr : Run (step cfg) (Careful cfg) (Ingest.initial db) acts s)
    (hb : NoneBehind cfg later (Ingest.initial db) acts) :
    Run (step cfg) (fun s a => Careful cfg s a ∧ ∀ i, later i a → s.Kept i)
      (Ingest.initial db) acts s := by
  refine hr.allow fun pre a post u u' hacts hu ha hs => ⟨ha, fun i hlater => ?_⟩
  by_contra hk
  have hback : ∀ pre x b x', Run (step cfg) (Careful cfg) (Ingest.initial db) pre x →
      Careful cfg x b → step cfg x b = some x' → ¬ x'.Kept i →
      (∃ visit script, b = .consume i visit script ∧ ¬ x.Brings cfg i visit script) ∨
        ¬ x.Kept i ∧ ¬ b = .take i := by
    intro pre x b x' hx hb hs hk
    have hshape : Shape cfg x := hx.invariant
      (fun _ _ _ hi ha hs => (step_shape hi ha.steady.arrives hs).1) (.initial cfg hm)
    exact kept_step hshape hb.steady.arrives hs hk
  obtain ⟨pre', b, mid, t, rfl, ht, ⟨visit, script, rfl, hbrings⟩, hmid⟩ :=
    hu.since (fun x => ¬ x.Kept i) _ _ (fun h => h fun job hj => by cases hj) hback hk
  refine hbrings (hb pre' i visit script mid a post t ?_ hmid (ht.mono fun _ _ _ => trivial)
    hlater)
  rw [hacts, List.append_assoc]
  rfl

/-- **No record is given up uncounted**, in any run that meets the condition. -/
theorem given_up_counted {db : Db} (hm : ∀ f, (Ingest.initial db).mark cfg f < 2 ^ 64)
    {acts : List Act} (hr : Run (step cfg) (Careful cfg) (Ingest.initial db) acts s)
    (hb : NoneBehind cfg Act.Settles (Ingest.initial db) acts)
    {f : FileName} {text : Text} (ht : s.Holds f text) {r : CdrRecord}
    (ha : r ∈ accepted cfg.parser text)
    (hg : f ∈ s.files .done ∨ r.sequence.toNat ≤ s.mark cfg f) : s.Counted f r := by
  have h : NoLoss cfg s :=
    (hb.kept hm hr).invariant (fun _ _ _ hi ha hs => NoLoss.step hi ha hs) (.initial cfg hm)
  rcases hg with hd | hmark
  · exact h.ended f text ht hd r ha
  · exact h.counted f text ht r ha hmark

/-- Every batch is brought whole. -/
def Unfailing (cfg : Setup) (s : Ingest) : Act → Prop
  | .deliver f text => Delivers cfg s f text
  | .consume i visit script => s.Brings cfg i visit script
  | _ => True

theorem Unfailing.careful {a : Act} (h : Unfailing cfg s a) : Careful cfg s a := by
  cases a with
  | deliver f text => exact h
  | consume i visit script => exact fun _ => h
  | _ => trivial

theorem noneBehind_of_unfailing {acts : List Act} (hr : Run (step cfg) (Unfailing cfg) s acts s')
    (later : Nat → Act → Prop) : NoneBehind cfg later s acts := by
  rintro pre i visit script mid a post t rfl - ht -
  exact hr.allowed_at ht

/-- What is checked of a step: nothing fails on the way to the store, and no command does there. -/
def unfailing (cfg : Setup) (s : Ingest) : Act → Bool
  | .deliver f text => decide (Delivers cfg s f text)
  | .consume i visit script => (script.all (fun e => !e.fails) && decide (.exec true ∈ script)) &&
      (s.threads i).job.all fun job =>
        (runAll redis ((consumeCalls visit (s.nextBatch i) (cfg.source job.name)).map
          Call.command) s.db).1.all Prod.snd
  | _ => true

theorem unfailing_unfailing (cfg : Setup) (s : Ingest) (a : Act)
    (h : unfailing cfg s a = true) : Unfailing cfg s a := by
  cases a with
  | deliver f text => exact of_decide_eq_true (p := Delivers cfg s f text) h
  | consume i visit script =>
    obtain ⟨hscript, hjob⟩ := (Bool.and_eq_true _ _).mp h
    obtain ⟨hall, hexec⟩ := (Bool.and_eq_true _ _).mp hscript
    have hu := undisturbed_of_all hall
    refine ⟨hu.lands (of_decide_eq_true hexec), hu.not_reopened, fun job hj p hp => ?_⟩
    rw [hj] at hjob
    rw [queueAll_redis] at hp
    exact List.all_eq_true.mp hjob p hp
  | _ => trivial

/-- Two calls of one caller. -/
def twoCalls : Text :=
  "CDR|csv|1\n1|1|3|MOC|1|01/02/2024|10:20:30|3|||0|2\n2|1|3|MOC|1|01/02/2024|10:20:40|4|||0|2\n".toList

/-- The process dies with the file claimed, and again behind the commit of its records, before
the file is put away: at the third reading there is nothing left above the mark. -/
def restartedRun : List Act :=
  [.deliver oneName twoCalls, .start [], .claim oneName, .take 0, .crash, .start [oneName],
    .take 0, .opens 0 true askRun, .consume 0 .plain landRun, .crash, .start [oneName],
    .take 0, .opens 0 true askRun, .dispose 0 true]

theorem given_up_counted_one :
    ∃ s, Run (step oneReader) (Careful oneReader) (Ingest.initial {}) restartedRun s ∧
      NoneBehind oneReader Act.Settles (Ingest.initial {}) restartedRun ∧
      oneName ∈ s.files .done ∧ (accepted oneReader.parser twoCalls).length = 2 ∧
      ∀ r ∈ accepted oneReader.parser twoCalls, s.Counted oneName r := by
  have hrun : (runChecked (step oneReader) (unfailing oneReader) (Ingest.initial {})
      restartedRun).map (fun s => (s.files .done).lookup oneName) = some (some twoCalls) := by
    decide +kernel
  obtain ⟨s, hs, hdone⟩ := Option.map_eq_some_iff.mp hrun
  have hr := Run.of_checked (unfailing_unfailing oneReader) hs
  have hb := noneBehind_of_unfailing hr Act.Settles
  have hc := hr.mono fun _ _ h => h.careful
  exact ⟨s, hc, hb, mem_of_lookup hdone, by decide +kernel, fun r hm =>
    given_up_counted (unmarked_at_first oneReader) hc hb ⟨.done, hdone⟩ hm
      (.inl (mem_of_lookup hdone))⟩

/-- The store goes away under the one batch of a file, and the file is done all the same. -/
theorem done_uncounted :
    ∃ acts s, Run (step oneReader) (Arrives oneReader) (Ingest.initial {}) acts s ∧
      ¬ ∀ f text r, s.Holds f text → r ∈ accepted oneReader.parser text →
        (f ∈ s.files .done ∨ r.sequence.toNat ≤ s.mark oneReader f) → s.Counted f r := by
  have hrun : (runChecked (step oneReader) (arrives oneReader) (Ingest.initial {})
      [.deliver oneName oneCall, .start [], .claim oneName, .take 0, .opens 0 true askRun,
        .consume 0 .plain (.append false :: List.replicate 9 (.connect false)),
        .dispose 0 true]).map
      (fun s => ((s.files .done).lookup oneName, s.log.all fun e => !e.whole)) =
        some (some oneCall, true) := by decide +kernel
  obtain ⟨s, hs, hobs⟩ := Option.map_eq_some_iff.mp hrun
  obtain ⟨hdone, hlog⟩ := Prod.mk.inj hobs
  refine ⟨_, s, Run.of_checked (arrives_sound oneReader) hs, fun h => ?_⟩
  obtain ⟨e, he, -, hw, -⟩ := h oneName oneCall oneRecord ⟨.done, hdone⟩ (by decide +kernel)
    (.inl (mem_of_lookup hdone))
  have hn := List.all_eq_true.mp hlog e he
  rw [hw] at hn
  cases hn

end CdrProcessor
