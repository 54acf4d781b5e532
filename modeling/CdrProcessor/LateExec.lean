import CdrProcessor.NoRepeat

/-! Whether a record of a file can be committed twice, with the transactions in the state
that are still on their way when their connection is given up: the server may come to an
EXEC long after its reply was written off, or never. -/

namespace CdrProcessor

/-! ## Transactions on their way -/

/-- A transaction whose EXEC went out on a connection that is given up: the batch it is of,
and the commands before it on that connection. -/
structure Late where
  name : FileName
  batch : List CdrRecord
  calls : List Call
  commands : List Command

/-- The file path, and what is on its way to the server. -/
structure Afloat where
  ingest : Ingest
  late : List Late := []

inductive LateAct where
  | act (a : Act)
  /-- The server comes to one of them. -/
  | serve (n : Nat)
  /-- One of them never gets there. -/
  | drop (n : Nat)

/-- What a worker meets on its visit to the sink. -/
def Act.script : Act → List Event
  | .opens _ _ script => script
  | .consume _ _ script => script
  | _ => []

/-- What a visit leaves on its way: an EXEC that went out, and of which nothing was run. -/
def Entry.afloat (script : List Event) (e : Entry) : Option Late :=
  if .exec true ∈ script ∧ e.ran = [] then
    some { name := e.name, batch := e.batch, calls := e.calls,
           commands := behind (e.calls.map Call.command) script }
  else none

def lateStep (cfg : Setup) (s : Afloat) : LateAct → Option Afloat
  | .act a =>
    (step cfg s.ingest a).map fun t =>
      { ingest := t
        late := s.late ++
          (t.log.drop s.ingest.log.length).filterMap (Entry.afloat a.script) }
  | .serve n =>
    s.late[n]?.map fun l =>
      let r := runAll redis l.commands s.ingest.db
      let e : Entry := { name := l.name, batch := l.batch, calls := l.calls, ran := r.1 }
      { ingest := { s.ingest with db := r.2, log := s.ingest.log ++ [e] }
        late := s.late.eraseIdx n }
  | .drop n => if n < s.late.length then some { s with late := s.late.eraseIdx n } else none

/-- The records of a file that are on their way. -/
def pending (late : List Late) (f : FileName) : List CdrRecord :=
  (late.filter fun l => l.name = f).flatMap Late.batch

/-- How often a record was committed or may still be, without a reader handing it on. -/
def Afloat.taken (s : Afloat) (f : FileName) (r : CdrRecord) : Nat :=
  (s.ingest.applied f).count r + (pending s.late f).count r

/-- Where a file is opened by a process that lives on, nothing of it is on its way, and
either nothing of it was committed, or nothing fails on the way to the answer and no record
committed of it is above the mark the store holds. -/
def Resumed (cfg : Setup) (s : Afloat) : LateAct → Prop
  | .act (.deliver f text) => Delivers cfg s.ingest f text
  | .act (.opens i _ script) => script.any Event.isKill = true ∨
      ∀ job, (s.ingest.threads i).job = some job →
        (∀ l ∈ s.late, l.name ≠ job.name) ∧ (s.ingest.applied job.name = [] ∨
          Undisturbed script ∧
            ∀ r ∈ s.ingest.applied job.name, r.sequence.toNat ≤ s.ingest.mark cfg job.name)
  | _ => True

/-- A record of a file is in one place at most: committed, on its way, or still to be read. -/
structure InOnePlace (cfg : Setup) (s : Afloat) : Prop where
  shape : Shape cfg s.ingest
  held : ∀ l ∈ s.late, ∃ text, s.ingest.Holds l.name text
  once : ∀ f r, s.taken f r ≤ 1
  ahead : ∀ i job src, (s.ingest.threads i).job = some job → job.src = some src →
    ∀ r, s.taken job.name r + src.upcoming.count r ≤ 1

theorem InOnePlace.initial (cfg : Setup) {db : Db}
    (hm : ∀ f, (Ingest.initial db).mark cfg f < 2 ^ 64) :
    InOnePlace cfg { ingest := Ingest.initial db } where
  shape := .initial cfg hm
  held l h := by cases h
  once f r := Nat.zero_le 1
  ahead i job src h := by cases h

variable {cfg : Setup} {s s' : Afloat}

/-! ## What is on its way -/

theorem pending_append (late late' : List Late) (f : FileName) :
    pending (late ++ late') f = pending late f ++ pending late' f := by
  unfold pending
  rw [List.filter_append, List.flatMap_append]

theorem pending_single (l : Late) (f : FileName) :
    pending [l] f = if l.name = f then l.batch else [] := by
  unfold pending
  by_cases h : l.name = f <;> simp [h]

theorem pending_eq_nil {late : List Late} {f : FileName} (h : ∀ l ∈ late, l.name ≠ f) :
    pending late f = [] := by
  unfold pending
  rw [List.filter_eq_nil_iff.mpr fun l hl => by simp [h l hl]]
  rfl

/-- A batch that goes out is one of which nothing was run. -/
theorem pending_afloat (script : List Event) (e : Entry) (f : FileName) (r : CdrRecord) :
    (pending ([e].filterMap (Entry.afloat script)) f).count r ≤
      if e.name = f ∧ e.ran = [] then e.batch.count r else 0 := by
  cases he : Entry.afloat script e with
  | none =>
    rw [List.filterMap_cons_none he]
    exact Nat.zero_le _
  | some l =>
    rw [List.filterMap_cons_some he, List.filterMap_nil, pending_single]
    unfold Entry.afloat at he
    obtain ⟨⟨-, hran⟩, he⟩ := Option.ite_none_right_eq_some.mp he
    cases he
    by_cases hf : e.name = f <;> simp [hf, hran]

/-- One of them taken out. -/
theorem pending_eraseIdx {late : List Late} {n : Nat} {l : Late} (h : late[n]? = some l)
    (f : FileName) (r : CdrRecord) : (pending late f).count r =
      (pending (late.eraseIdx n) f).count r + if l.name = f then l.batch.count r else 0 := by
  obtain ⟨hn, rfl⟩ := List.getElem?_eq_some_iff.mp h
  have hsplit : late = late.take n ++ ([late[n]] ++ late.drop (n + 1)) := by
    rw [List.singleton_append, ← List.drop_eq_getElem_cons hn, List.take_append_drop]
  have hleft : (pending late f).count r = (pending (late.take n) f).count r +
      ((pending [late[n]] f).count r + (pending (late.drop (n + 1)) f).count r) := by
    conv_lhs => rw [hsplit]
    rw [pending_append, pending_append, List.count_append, List.count_append]
  rw [hleft, List.eraseIdx_eq_take_drop_succ, pending_append, List.count_append, pending_single]
  split
  · omega
  · rw [List.count_nil]
    omega

/-! ## Steps -/

/-- A reader has no record of its file before it twice. -/
theorem Shape.upcoming_nodup {s : Ingest} (h : Shape cfg s) {i : Nat} {job : Job}
    {src : FileSource} (hj : (s.threads i).job = some job) (hs : job.src = some src) :
    src.upcoming.Nodup := by
  obtain ⟨text, ht⟩ := Option.isSome_iff_exists.mp (AList.lookup_isSome.mpr (h.jobs i job hj).1)
  have htext : s.Holds job.name text := ⟨.process, ht⟩
  refine List.Nodup.sublist (h.source i job src text hj hs htext) ?_
  refine (h.ordered job.name text htext).1.imp fun hlt he => ?_
  rw [he] at hlt
  exact UInt64.lt_irrefl _ hlt

/-- Nothing is read anew, and nothing more is committed or sent. -/
theorem InOnePlace.keep (h : InOnePlace cfg s) (h' : Shape cfg s'.ingest)
    (hh : ∀ l ∈ s'.late, ∃ text, s'.ingest.Holds l.name text)
    (ht : ∀ f r, s'.taken f r ≤ s.taken f r)
    (hj : ∀ i job src, (s'.ingest.threads i).job = some job → job.src = some src →
      (s.ingest.threads i).job = some job) : InOnePlace cfg s' where
  shape := h'
  held := hh
  once f r := le_trans (ht f r) (h.once f r)
  ahead i job src hjob hs r := by
    have hold := h.ahead i job src (hj i job src hjob hs) hs r
    have hle := ht job.name r
    omega

/-- A step of the ingestor that hands nothing to the sink. -/
theorem InOnePlace.quiet (h : InOnePlace cfg s) {t : Ingest} (h' : Shape cfg t)
    {script : List Event} (hlog : t.log = s.ingest.log)
    (hh : ∀ f text, s.ingest.Holds f text → t.Holds f text)
    (hj : ∀ i job src, (t.threads i).job = some job → job.src = some src →
      (s.ingest.threads i).job = some job) :
    InOnePlace cfg { ingest := t, late := s.late ++
      (t.log.drop s.ingest.log.length).filterMap (Entry.afloat script) } := by
  rw [hlog, List.drop_length, List.filterMap_nil, List.append_nil]
  refine h.keep h' (fun l hl => ?_) (fun f r => ?_) hj
  · obtain ⟨text, ht⟩ := h.held l hl
    exact ⟨text, hh _ _ ht⟩
  · unfold Afloat.taken
    rw [applied_congr hlog]

/-- A file is opened where the answer of the store is right. -/
theorem InOnePlace.open (h : InOnePlace cfg s) {i : Nat} {readable : Bool}
    {script : List Event} {name : FileName} {kept : Bool} {t : Thread} {resume : UInt64}
    (h' : Shape cfg { s.ingest with threads := Function.update s.ingest.threads i t })
    (ha : Resumed cfg s (.act (.opens i readable script)))
    (hj : (s.ingest.threads i).job = some { name, src := none, kept })
    (hk : script.any Event.isKill = false)
    (ht : t.job = some { name, kept, src := some (FileSource.make
      (if readable then (s.ingest.files .process).lookup name else none) cfg.parser resume) })
    (hr : resume.toNat = s.ingest.mark cfg name ∨ ¬ Undisturbed script ∧ resume = 0) :
    InOnePlace cfg
      { s with ingest := { s.ingest with threads := Function.update s.ingest.threads i t } } := by
  refine ⟨h', h.held, h.once, fun i' job src hj' hs r => ?_⟩
  by_cases hi : i' = i
  swap
  · change (Function.update s.ingest.threads i t i').job = some job at hj'
    rw [Function.update_of_ne hi] at hj'
    exact h.ahead i' job src hj' hs r
  subst hi
  have hnew := hj'
  change (Function.update s.ingest.threads i' t i').job = some job at hj'
  rw [Function.update_self, ht] at hj'
  cases hj'
  cases hs
  have hup := List.nodup_iff_count_le_one.mp (h'.upcoming_nodup hnew rfl) r
  by_cases hmem : r ∈ (FileSource.make
      (if readable then (s.ingest.files .process).lookup name else none) cfg.parser
      resume).upcoming
  swap
  · rw [List.count_eq_zero_of_not_mem hmem, Nat.add_zero]
    exact h.once name r
  -- what the source hands out is above the mark, and what was taken is not
  have hzero : s.taken name r = 0 := by
    rcases ha with ha | ha
    · rw [hk] at ha
      cases ha
    · obtain ⟨hlate, hcase⟩ := ha _ hj
      unfold Afloat.taken
      rw [pending_eq_nil hlate, List.count_nil, Nat.add_zero]
      rcases hcase with hnil | ⟨hu, hbelow⟩
      · dsimp only at hnil
        rw [hnil, List.count_nil]
      · have hmark := hr.resolve_right fun hn => hn.1 hu
        have hlt := opened_ahead _ hmark hmem
        exact List.count_eq_zero_of_not_mem fun hm => absurd (hbelow r hm) (Nat.not_le.mpr hlt)
  change s.taken name r + _ ≤ 1
  omega

/-- A batch is handed over: it is committed, or on its way, or lost. -/
theorem InOnePlace.hand (h : InOnePlace cfg s) {t : Ingest} (h' : Shape cfg t) {i : Nat}
    {script : List Event} {name : FileName} {src src' : FileSource} {kept : Bool}
    {batch : List CdrRecord} {calls : List Call} {ran : List (Command × Bool)}
    (hj : (s.ingest.threads i).job = some { name, src := some src, kept })
    (hup : src.upcoming = batch ++ src'.upcoming)
    (hlog : t.log = s.ingest.log ++ [⟨name, batch, calls, ran⟩])
    (hfiles : t.files = s.ingest.files)
    (hjobs : ∀ i' job, (t.threads i').job = some job →
      (i' ≠ i ∧ (s.ingest.threads i').job = some job) ∨
      (i' = i ∧ ∃ kept', job = { name, src := some src', kept := kept' })) :
    InOnePlace cfg { ingest := t, late := s.late ++
      (t.log.drop s.ingest.log.length).filterMap (Entry.afloat script) } := by
  have hholds : ∀ f text, s.ingest.Holds f text → t.Holds f text := by
    intro f text ht
    unfold Ingest.Holds
    rw [hfiles]
    exact ht
  have hdrop : t.log.drop s.ingest.log.length = [⟨name, batch, calls, ran⟩] := by
    rw [hlog, List.drop_left]
  -- the batch is in one of the two lists at most
  have htaken : ∀ f r, Afloat.taken { ingest := t, late := s.late ++
      (t.log.drop s.ingest.log.length).filterMap (Entry.afloat script) } f r ≤
        s.taken f r + if name = f then batch.count r else 0 := by
    intro f r
    have hp := pending_afloat script ⟨name, batch, calls, ran⟩ f r
    unfold Afloat.taken
    rw [hdrop, applied_append hlog, pending_append, List.count_append, List.count_append]
    dsimp only at hp ⊢
    by_cases hf : name = f
    · by_cases hran : ran = []
      · rw [if_pos ⟨hf, hran⟩] at hp
        rw [if_neg fun hc => hc.2 hran, if_pos hf, List.count_nil]
        omega
      · rw [if_neg fun hc => hran hc.2] at hp
        rw [if_pos ⟨hf, hran⟩, if_pos hf]
        omega
    · rw [if_neg fun hc => hf hc.1] at hp
      rw [if_neg fun hc => hf hc.1, if_neg hf, List.count_nil]
      omega
  have hold := h.ahead i _ src hj rfl
  dsimp only at hold
  refine ⟨h', fun l hl => ?_, fun f r => ?_, fun i' job src1 hj' hs r => ?_⟩
  · rcases List.mem_append.mp hl with hl | hl
    · obtain ⟨text, ht⟩ := h.held l hl
      exact ⟨text, hholds _ _ ht⟩
    · obtain ⟨e, he, hel⟩ := List.mem_filterMap.mp hl
      rw [hdrop, List.mem_singleton] at he
      have hname : l.name = name := by
        unfold Entry.afloat at hel
        split at hel
        · cases hel
          rw [he]
        · cases hel
      obtain ⟨text, ht⟩ := Option.isSome_iff_exists.mp
        (AList.lookup_isSome.mpr (h.shape.jobs i _ hj).1)
      exact ⟨text, hname ▸ hholds _ _ ⟨.process, ht⟩⟩
  · have hle := htaken f r
    have honce := h.once f r
    have hr := hold r
    rw [hup, List.count_append] at hr
    split at hle
    · next hf =>
      subst hf
      omega
    · omega
  · have hle := htaken job.name r
    rcases hjobs i' job hj' with ⟨hi, hj'⟩ | ⟨rfl, kept', rfl⟩
    · have hne : name ≠ job.name := fun he => hi (h.shape.apart i' i job _ hj' hj he.symm)
      have hr := h.ahead i' job src1 hj' hs r
      rw [if_neg hne] at hle
      omega
    · cases hs
      have hr := hold r
      rw [hup, List.count_append] at hr
      dsimp only at hle ⊢
      rw [if_pos rfl] at hle
      omega

/-- The server comes to a transaction, or it is lost. -/
theorem InOnePlace.leave (h : InOnePlace cfg s) {n : Nat} {l : Late} (hl : s.late[n]? = some l)
    {t : Ingest} (h' : Shape cfg t) (hfiles : t.files = s.ingest.files)
    (hthreads : t.threads = s.ingest.threads)
    (happ : ∀ f r, (t.applied f).count r ≤
      (s.ingest.applied f).count r + if l.name = f then l.batch.count r else 0) :
    InOnePlace cfg { ingest := t, late := s.late.eraseIdx n } := by
  refine h.keep h' (fun l' hl' => ?_) (fun f r => ?_) fun i job src hj _ => by rwa [← hthreads]
  · obtain ⟨text, ht⟩ := h.held l' (List.mem_of_mem_eraseIdx hl')
    refine ⟨text, ?_⟩
    unfold Ingest.Holds
    rw [hfiles]
    exact ht
  · have hp := pending_eraseIdx hl f r
    have hle := happ f r
    unfold Afloat.taken
    dsimp only
    omega

theorem InOnePlace.step {a : LateAct} (h : InOnePlace cfg s) (ha : Resumed cfg s a)
    (hs : lateStep cfg s a = some s') : InOnePlace cfg s' := by
  cases a with
  | act a =>
    obtain ⟨t, hstep, rfl⟩ := Option.map_eq_some_iff.mp hs
    have harrives : Arrives cfg s.ingest a := by
      cases a with
      | deliver f text => exact ha
      | _ => trivial
    obtain ⟨h', heff⟩ := step_shape h.shape harrives hstep
    cases heff with
    | quiet hdb hlog hh hnew hjobs hdone =>
      refine h.quiet h' hlog hh fun i job src hj hsrc => ?_
      rcases hjobs i job hj with hj | ⟨hnone, -⟩
      · exact hj
      · rw [hnone] at hsrc
        cases hsrc
    | opened hj hk ht hr =>
      have hopen := h.open h' ha hj hk ht hr
      simpa using hopen
    | handed hj hn hv hlog hfiles hjobs =>
      refine h.hand h' hj (next_ok hn).2.2.2 hlog hfiles fun i' job hj' => ?_
      exact (hjobs i' job hj').imp_right fun hi => ⟨hi.1, _, hi.2.2⟩
    | finished hj hd hdb hlog hh hjobs hdone =>
      exact h.quiet h' hlog (fun f text ht => (hh f text).mpr ht)
        fun i job src hj' _ => hjobs i job hj'
  | serve n =>
    obtain ⟨l, hl, rfl⟩ := Option.map_eq_some_iff.mp hs
    have hlog : ∀ e ∈ s.ingest.log ++
        [⟨l.name, l.batch, l.calls, (runAll redis l.commands s.ingest.db).1⟩],
        ∃ text, s.ingest.Holds e.name text := by
      intro e he
      rcases List.mem_append.mp he with he | he
      · exact h.shape.logged e he
      · rw [List.mem_singleton.mp he]
        exact h.held l (List.mem_of_getElem? hl)
    have h' : Shape cfg { s.ingest with
        db := (runAll redis l.commands s.ingest.db).2
        log := s.ingest.log ++
          [⟨l.name, l.batch, l.calls, (runAll redis l.commands s.ingest.db).1⟩] } :=
      { h.shape with
        marks := fun f => runAll_hash_lt l.commands (h.shape.marks f)
        logged := hlog }
    refine h.leave hl h' rfl rfl fun f r => ?_
    rw [applied_append rfl, List.count_append]
    dsimp only
    by_cases hf : l.name = f
    · rw [if_pos hf]
      split
      · exact le_refl _
      · rw [List.count_nil]
        omega
    · rw [if_neg hf, if_neg fun hc => hf hc.1, List.count_nil]
  | drop n =>
    obtain ⟨hn, he⟩ := Option.ite_none_right_eq_some.mp hs
    cases he
    exact h.leave (List.getElem?_eq_getElem hn) h.shape rfl rfl fun f r => Nat.le_add_right _ _

/-! ## Whole runs -/

/-- **No record is committed twice**, in any run that meets the condition, whenever the
server comes to what was sent to it. -/
theorem applied_at_most_once {db : Db} (hm : ∀ f, (Ingest.initial db).mark cfg f < 2 ^ 64)
    {acts : List LateAct}
    (hr : Run (lateStep cfg) (Resumed cfg) { ingest := Ingest.initial db } acts s)
    (f : FileName) (r : CdrRecord) : (s.ingest.applied f).count r ≤ 1 := by
  have h : InOnePlace cfg s :=
    hr.invariant (fun _ _ _ hi ha hs => InOnePlace.step hi ha hs) (.initial cfg hm)
  exact le_trans (Nat.le_add_right _ _) (h.once f r)

/-! ## A file of one call -/

/-- The senders keep to what they promise. -/
def Afloat.Arrives (cfg : Setup) (s : Afloat) : LateAct → Prop
  | .act a => CdrProcessor.Arrives cfg s.ingest a
  | _ => True

def Afloat.arrives (cfg : Setup) (s : Afloat) : LateAct → Bool
  | .act a => CdrProcessor.arrives cfg s.ingest a
  | _ => true

theorem Afloat.arrives_sound (cfg : Setup) (s : Afloat) (a : LateAct)
    (h : s.arrives cfg a = true) : s.Arrives cfg a := by
  cases a with
  | act a => exact CdrProcessor.arrives_sound cfg s.ingest a h
  | _ => trivial

/-- What is checked of a file that is opened. -/
def Afloat.resumes (cfg : Setup) (s : Afloat) : LateAct → Bool
  | .act (.deliver f text) => decide (Delivers cfg s.ingest f text)
  | .act (.opens i _ script) => script.all (fun e => !e.fails) &&
      (s.ingest.threads i).job.all fun job => s.late.all (fun l => l.name ≠ job.name) &&
        (s.ingest.applied job.name).all fun r => r.sequence.toNat ≤ s.ingest.mark cfg job.name
  | _ => true

theorem Afloat.resumes_sound (cfg : Setup) (s : Afloat) (a : LateAct)
    (h : s.resumes cfg a = true) : Resumed cfg s a := by
  cases a with
  | act a =>
    cases a with
    | deliver f text => exact of_decide_eq_true (p := Delivers cfg s.ingest f text) h
    | opens i readable script =>
      obtain ⟨hu, hjob⟩ := (Bool.and_eq_true _ _).mp h
      refine .inr fun job hj => ?_
      rw [hj, Option.all_some, Bool.and_eq_true] at hjob
      refine ⟨fun l hl => ?_, .inr ⟨undisturbed_of_all hu, fun r hr => ?_⟩⟩
      · exact of_decide_eq_true (List.all_eq_true.mp hjob.1 l hl)
      · exact of_decide_eq_true (List.all_eq_true.mp hjob.2 r hr)
    | _ => trivial
  | _ => trivial

/-- The process dies behind its EXEC, before the server has come to it. -/
def diesBehindExec : List Event := List.replicate 11 (.append true) ++ [.exec true, .kill false]

/-- The file comes in, is claimed, read, and sent; the process dies. -/
def sentRun : List LateAct :=
  [.act (.deliver oneName oneCall), .act (.start []), .act (.claim oneName), .act (.take 0),
    .act (.opens 0 true askRun), .act (.consume 0 .plain diesBehindExec)]

/-- The next process opens the file once the server is through with what was sent. -/
theorem applied_at_most_once_one :
    ∃ s, Run (lateStep oneReader) (Resumed oneReader) { ingest := Ingest.initial {} }
        (sentRun ++ [.serve 0, .act (.start [oneName]), .act (.take 0),
          .act (.opens 0 true askRun), .act (.dispose 0 true)]) s ∧
      oneRecord ∈ s.ingest.applied oneName ∧
      (s.ingest.applied oneName).count oneRecord ≤ 1 := by
  have hrun : (runChecked (lateStep oneReader) (Afloat.resumes oneReader)
      { ingest := Ingest.initial {} } (sentRun ++ [.serve 0, .act (.start [oneName]),
        .act (.take 0), .act (.opens 0 true askRun), .act (.dispose 0 true)])).map
      (fun s => s.ingest.applied oneName) = some [oneRecord] := by decide +kernel
  obtain ⟨s, hs, happ⟩ := Option.map_eq_some_iff.mp hrun
  have hr := Run.of_checked (Afloat.resumes_sound oneReader) hs
  exact ⟨s, hr, by rw [happ]; exact List.mem_singleton_self _,
    applied_at_most_once (unmarked_at_first oneReader) hr oneName oneRecord⟩

/-- The process dies behind a commit and comes up before the store does: the answer is
taken to be 0, and the call is counted again. -/
theorem applied_twice :
    ∃ acts s, Run (lateStep oneReader) (Afloat.Arrives oneReader)
        { ingest := Ingest.initial {} } acts s ∧
      ¬ ∀ f r, (s.ingest.applied f).count r ≤ 1 := by
  have hrun : (runChecked (lateStep oneReader) (Afloat.arrives oneReader)
      { ingest := Ingest.initial {} }
      [.act (.deliver oneName oneCall), .act (.start []), .act (.claim oneName), .act (.take 0),
        .act (.opens 0 true askRun), .act (.consume 0 .plain landRun), .act .crash,
        .act (.start [oneName]), .act (.take 0), .act (.opens 0 true [.connect false]),
        .act (.consume 0 .plain (.connect true :: landRun))]).map
      (fun s => s.ingest.applied oneName) = some [oneRecord, oneRecord] := by decide +kernel
  obtain ⟨s, hs, happ⟩ := Option.map_eq_some_iff.mp hrun
  refine ⟨_, s, Run.of_checked (Afloat.arrives_sound oneReader) hs, fun h => ?_⟩
  have h2 := h oneName oneRecord
  rw [happ] at h2
  revert h2
  decide

/-- So it is when the file is opened again while its EXEC is on its way. -/
example : (runChecked (lateStep oneReader) (Afloat.arrives oneReader)
    { ingest := Ingest.initial {} } (sentRun ++ [.act (.start [oneName]), .act (.take 0),
      .act (.opens 0 true askRun), .serve 0, .act (.consume 0 .plain landRun)])).map
    (fun s => s.ingest.applied oneName) = some [oneRecord, oneRecord] := by decide +kernel

end CdrProcessor
