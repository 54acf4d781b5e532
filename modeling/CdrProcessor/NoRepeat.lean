import CdrProcessor.Parser
import CdrProcessor.Shape

/-! The order in which the records of a file are committed: below the mark those that
were, above it those a reader has left, as long as the answer of `resume_at` is right
where a file is opened and no batch lands in part. -/

namespace CdrProcessor

/-! ## The invariant -/

/-- The records of a file in the batches the store has run anything of. -/
def Ingest.applied (s : Ingest) (f : FileName) : List CdrRecord :=
  (s.log.filter fun e => e.name = f ∧ e.ran ≠ []).flatMap Entry.batch

/-- Where a file is opened, nothing fails on the way to the answer, or the process
does not outlive it, or there is no mark to be missed. -/
def Unrepeated (cfg : Setup) (s : Ingest) : Act → Prop
  | .deliver f text => Delivers cfg s f text
  | .opens i _ script => Undisturbed script ∨ script.any Event.isKill = true ∨
      ∀ job, (s.threads i).job = some job → s.mark cfg job.name = 0
  | .consume _ _ script => ¬ (Reopened script ∧ Lands script)
  | _ => True

/-- What was applied of a file is in order and below its mark, and what its reader
will hand out is above it. -/
structure NoRepeat (cfg : Setup) (s : Ingest) : Prop where
  shape : Shape cfg s
  increasing : ∀ f, (s.applied f).Pairwise fun r r' => r.sequence < r'.sequence
  marked : ∀ f, ∀ r ∈ s.applied f, r.sequence.toNat ≤ s.mark cfg f
  accepted : ∀ f text, s.Holds f text → ∀ r ∈ s.applied f, r ∈ accepted cfg.parser text
  ahead : ∀ i job src, (s.threads i).job = some job → job.src = some src →
    ∀ r ∈ src.upcoming, s.mark cfg job.name < r.sequence.toNat

theorem Unrepeated.steady {cfg : Setup} {s : Ingest} {a : Act} (h : Unrepeated cfg s a) :
    Steady cfg s a := by
  cases a <;> first | exact h | trivial

theorem NoRepeat.initial (cfg : Setup) {db : Db}
    (hm : ∀ f, (Ingest.initial db).mark cfg f < 2 ^ 64) : NoRepeat cfg (Ingest.initial db) where
  shape := .initial cfg hm
  increasing _ := .nil
  marked f r h := by cases h
  accepted f text _ r h := by cases h
  ahead i job src h := by cases h

variable {cfg : Setup} {s s' : Ingest}

theorem applied_eq_nil {f : FileName} (h : ∀ e ∈ s.log, e.name ≠ f) : s.applied f = [] := by
  unfold Ingest.applied
  rw [List.filter_eq_nil_iff.mpr fun e he => by simp [h e he]]
  rfl

theorem applied_congr (h : s'.log = s.log) (f : FileName) : s'.applied f = s.applied f := by
  unfold Ingest.applied
  rw [h]

theorem mark_congr (h : s'.db = s.db) (f : FileName) : s'.mark cfg f = s.mark cfg f := by
  unfold Ingest.mark
  rw [h]

theorem applied_append {e : Entry} (h : s'.log = s.log ++ [e]) (f : FileName) :
    s'.applied f = s.applied f ++ if e.name = f ∧ e.ran ≠ [] then e.batch else [] := by
  unfold Ingest.applied
  rw [h, List.filter_append, List.flatMap_append]
  by_cases hc : e.name = f ∧ e.ran ≠ [] <;> simp [hc]

theorem mem_applied_append {e : Entry} (h : s'.log = s.log ++ [e]) {f : FileName}
    {r : CdrRecord} (hr : r ∈ s'.applied f) : r ∈ s.applied f ∨ e.name = f ∧ r ∈ e.batch := by
  rw [applied_append h, List.mem_append] at hr
  refine hr.imp_right fun hr => ?_
  split at hr
  · next hc => exact ⟨hc.1, hr⟩
  · cases hr

/-- A file that is delivered has nothing applied of it. -/
theorem Shape.applied_new (h : Shape cfg s) {f : FileName} {text : Text}
    (hd : Delivers cfg s f text) : s.applied f = [] := by
  apply applied_eq_nil
  rintro e he rfl
  obtain ⟨t, d, hl⟩ := h.logged e he
  exact hd.fresh d (mem_of_lookup hl)

/-! ## Its steps -/

/-- Steps that leave the marks and what was applied. -/
theorem NoRepeat.same (h : NoRepeat cfg s) (h' : Shape cfg s')
    (happ : ∀ f, s'.applied f = s.applied f) (hmark : ∀ f, s'.mark cfg f = s.mark cfg f)
    (hh : ∀ f text, s'.Holds f text → s.Holds f text ∨ s.applied f = [])
    (ha : ∀ i job src, (s'.threads i).job = some job → job.src = some src →
      ∀ r ∈ src.upcoming, s.mark cfg job.name < r.sequence.toNat) : NoRepeat cfg s' where
  shape := h'
  increasing f := by rw [happ]; exact h.increasing f
  marked f := by rw [happ, hmark]; exact h.marked f
  accepted f text ht r hr := by
    rw [happ] at hr
    rcases hh f text ht with ht | hnil
    · exact h.accepted f text ht r hr
    · rw [hnil] at hr
      cases hr
  ahead i job src hj hs := by rw [hmark]; exact ha i job src hj hs

/-- A source opened behind the mark hands out what is above it. -/
theorem opened_ahead (map : Option Text) {resume : UInt64} {n : Nat} (hn : resume.toNat = n)
    {r : CdrRecord} (hr : r ∈ (FileSource.make map cfg.parser resume).upcoming) :
    n < r.sequence.toNat := by
  rcases make_upcoming map cfg.parser resume with ⟨-, hup⟩ | ⟨data, -, -, hup⟩
  · rw [hup] at hr
    cases hr
  · rw [hup] at hr
    have hle := (List.mem_filter.mp hr).2
    rw [decide_eq_true_eq, UInt64.le_iff_toNat_le] at hle
    omega

/-- A batch that lands goes behind what was applied of its file. -/
theorem NoRepeat.land (h : NoRepeat cfg s) (h' : Shape cfg s') {i : Nat} {name : FileName}
    {src src' : FileSource} {kept : Bool} {calls : List Call} {batch : List CdrRecord}
    {script : List Event} {ran : List (Command × Bool)}
    (hj : (s.threads i).job = some { name, src := some src, kept })
    (hd : Handed cfg s s' name src src' calls batch script ran) (hl : Lands script)
    (hlog : s'.log = s.log ++ [⟨name, batch, calls, ran⟩]) (hfiles : s'.files = s.files)
    (hjobs : ∀ i' job, (s'.threads i').job = some job →
      (i' ≠ i ∧ (s.threads i').job = some job) ∨
      (i' = i ∧ ∃ kept', job = { name, src := some src', kept := kept' })) : NoRepeat cfg s' := by
  obtain ⟨-, -, hmark⟩ := hd.landed hl
  have hold : ∀ r ∈ batch, s.mark cfg name < r.sequence.toNat := by
    intro r hr
    refine h.ahead i _ src hj rfl r ?_
    rw [hd.upcoming]
    exact List.mem_append_left _ hr
  have hgrow : ∀ f, s.mark cfg f ≤ s'.mark cfg f := by
    intro f
    rw [hmark]
    split
    · next hf =>
      subst hf
      obtain ⟨r, hr, he⟩ := highest_mem hd.highest
      rw [← he]
      exact le_of_lt (hold r hr)
    · exact le_refl _
  refine ⟨h', fun f => ?_, fun f r hr => ?_, fun f text ht r hr => ?_, ?_⟩
  · rw [applied_append hlog]
    split
    · next hc =>
      obtain ⟨rfl, -⟩ := hc
      refine List.pairwise_append.mpr ⟨h.increasing _, hd.increasing, fun r hr r' hr' => ?_⟩
      rw [UInt64.lt_iff_toNat_lt]
      exact lt_of_le_of_lt (h.marked _ r hr) (hold r' hr')
    · rw [List.append_nil]
      exact h.increasing f
  · rcases mem_applied_append hlog hr with ho | ⟨rfl, hb⟩
    · exact le_trans (h.marked f r ho) (hgrow f)
    · rw [hmark, if_pos rfl]
      exact UInt64.le_iff_toNat_le.mp (le_highest hb)
  · unfold Ingest.Holds at ht
    rw [hfiles] at ht
    rcases mem_applied_append hlog hr with ho | ⟨rfl, hb⟩
    · exact h.accepted f text ht r ho
    · exact hd.accepted text ht r hb
  · intro i' job src1 hj' hsrc r hr
    rcases hjobs i' job hj' with ⟨hi, hj'⟩ | ⟨rfl, kept', rfl⟩
    · have hne : job.name ≠ name := fun he => hi (h.shape.apart i' i job _ hj' hj he)
      rw [hmark, if_neg hne]
      exact h.ahead i' job src1 hj' hsrc r hr
    · cases hsrc
      rw [hmark, if_pos rfl]
      exact UInt64.lt_iff_toNat_lt.mp (hd.ahead r hr)

theorem NoRepeat.step {a : Act} (h : NoRepeat cfg s) (ha : Unrepeated cfg s a)
    (hs : CdrProcessor.step cfg s a = some s') : NoRepeat cfg s' := by
  obtain ⟨h', heff⟩ := step_shape h.shape ha.steady.arrives hs
  cases heff with
  | quiet hdb hlog hh hnew hjobs hdone =>
    refine h.same h' (applied_congr hlog) (mark_congr hdb) ?_ ?_
    · intro f text ht
      exact (hnew f text ht).imp_right h.shape.applied_new
    · intro i job src hj hsrc
      rcases hjobs i job hj with hj | ⟨hnone, -⟩
      · exact h.ahead i job src hj hsrc
      · rw [hnone] at hsrc
        cases hsrc
  | @opened i readable script name kept t resume hj hk ht hr =>
    refine h.same h' (fun _ => rfl) (fun _ => rfl) (fun _ _ hh => .inl hh) ?_
    intro i' job src hj' hsrc r hr'
    by_cases hi : i' = i
    · subst hi
      change (Function.update s.threads i' t i').job = some job at hj'
      rw [Function.update_self, ht] at hj'
      cases hj'
      cases hsrc
      -- the answer is the mark
      refine opened_ahead _ ?_ hr'
      rcases hr with hr | ⟨hd, rfl⟩
      · exact hr
      · rcases ha with ha | ha | ha
        · exact absurd ha hd
        · rw [hk] at ha
          cases ha
        · exact (ha _ hj).symm
    · change (Function.update s.threads i t i').job = some job at hj'
      rw [Function.update_of_ne hi] at hj'
      exact h.ahead i' job src hj' hsrc r hr'
  | @handed i visit script name src kept batch src' ran _ hj hn hv hlog hfiles hjobs =>
    have hd := h.shape.handed hj hn hv ha
    by_cases hl : Lands script
    · refine h.land h' hj hd hl hlog hfiles fun i' job hj' => ?_
      exact (hjobs i' job hj').imp_right fun hi => ⟨hi.1, _, hi.2.2⟩
    · obtain ⟨rfl, hdb⟩ := hd.missed hl
      refine h.same h' (fun f => by rw [applied_append hlog]; simp) (mark_congr hdb) ?_ ?_
      · intro f text ht
        unfold Ingest.Holds at ht
        rw [hfiles] at ht
        exact .inl ht
      · intro i' job src1 hj' hsrc r hr
        rcases hjobs i' job hj' with ⟨-, hj'⟩ | ⟨rfl, -, rfl⟩
        · exact h.ahead i' job src1 hj' hsrc r hr
        · cases hsrc
          refine h.ahead i' _ src hj rfl r ?_
          rw [hd.upcoming]
          exact List.mem_append_right _ hr
  | finished hj hd hdb hlog hh hjobs hdone =>
    exact h.same h' (applied_congr hlog) (mark_congr hdb) (fun f text ht => .inl ((hh f text).mp ht))
      (fun i job src hj hsrc => h.ahead i job src (hjobs i job hj) hsrc)

/-! ## A file of one call -/

def Dir.name : Dir → Text
  | .ready => "ready".toList
  | .process => "process".toList
  | .done => "done".toList
  | .fail => "fail".toList

/-- One worker, and the directories next to each other. -/
def oneReader : Setup where
  dirs := { path := fun d => d.name ++ ['/'], ends := fun d => ⟨d.name, rfl⟩ }
  parser := Parser.csvParser '|'
  readers := 1

def oneName : FileName := ⟨"a.cdr".toList, by decide, by decide⟩

def oneCall : Text := "CDR|csv|1\n1|1|3|MOC|1|01/02/2024|10:20:30|3|||0|2\n".toList

/-- The record of the one line. -/
def oneRecord : CdrRecord :=
  { shortCall with subscriberImsi := 1, subscriberImei := ['3'], callTime := 1706782830 }

/-- The answer of `resume_at` on a connection made for it. -/
def askRun : List Event := [.connect true, .append true, .reply]

/-- The ten commands of the call on the connection that is there. -/
def landRun : List Event :=
  List.replicate 11 (.append true) ++ .exec true :: List.replicate 12 .reply

/-- What is checked of a delivery. -/
def arrives (cfg : Setup) (s : Ingest) : Act → Bool
  | .deliver f text => decide (Delivers cfg s f text)
  | _ => true

theorem arrives_sound (cfg : Setup) (s : Ingest) (a : Act) (h : arrives cfg s a = true) :
    Arrives cfg s a := by
  cases a with
  | deliver f text => exact of_decide_eq_true (p := Delivers cfg s f text) h
  | _ => trivial

theorem undisturbed_of_all {script : List Event} (h : script.all (fun e => !e.fails) = true) :
    Undisturbed script := by
  intro e he
  simpa using List.all_eq_true.mp h e he

theorem unmarked_at_first (cfg : Setup) (f : FileName) :
    (Ingest.initial {}).mark cfg f < 2 ^ 64 := by
  change 0 < 2 ^ 64
  decide

end CdrProcessor
