import CdrProcessor.HandsOut
import CdrProcessor.NoRepeat
import CdrProcessor.Smooth

/-! The progress mark of a source against all that was committed of it: every batch
writes its own highest sequence over the mark, whichever was there before. -/

namespace CdrProcessor

/-! ## The largest sequence -/

/-- The largest sequence among some records, 0 when there are none. -/
def largest (rs : List CdrRecord) : Nat := (rs.map fun r => r.sequence.toNat).foldr max 0

theorem largest_append (rs rs' : List CdrRecord) :
    largest (rs ++ rs') = max (largest rs) (largest rs') := by
  unfold largest
  induction rs with
  | nil => simp
  | cons r rs ih =>
    simp only [List.cons_append, List.map_cons, List.foldr_cons]
    rw [ih, max_assoc]

theorem le_largest {rs : List CdrRecord} {r : CdrRecord} (h : r ∈ rs) :
    r.sequence.toNat ≤ largest rs := by
  obtain ⟨rs1, rs2, rfl⟩ := List.append_of_mem h
  rw [largest_append]
  exact le_max_of_le_right (le_max_left _ _)

theorem largest_le {rs : List CdrRecord} {n : Nat} (h : ∀ r ∈ rs, r.sequence.toNat ≤ n) :
    largest rs ≤ n := by
  induction rs with
  | nil => exact Nat.zero_le n
  | cons r rs ih =>
    obtain ⟨hr, hrs⟩ := List.forall_mem_cons.mp h
    exact max_le hr (ih hrs)

/-- `consume` finds the largest sequence of its batch. -/
theorem highest_toNat (batch : List CdrRecord) :
    (AggregateSink.highest batch).toNat = largest batch := by
  apply le_antisymm
  · by_cases h0 : AggregateSink.highest batch = 0
    · rw [h0]
      exact Nat.zero_le _
    · obtain ⟨r, hr, hs⟩ := highest_mem h0
      rw [← hs]
      exact le_largest hr
  · exact largest_le fun r hr => UInt64.le_iff_toNat_le.mp (le_highest hr)

/-- What a source hands on carries no sequence 0. -/
theorem next_sequence_ne_zero {src src' : FileSource} {batch : List CdrRecord}
    (hn : src.next = (.ok, batch, src')) : ∀ r ∈ batch, r.sequence ≠ 0 := by
  obtain ⟨-, -, -, hup⟩ := next_ok hn
  intro r hr h0
  have hmem : r ∈ src.upcoming := by
    rw [hup]
    exact List.mem_append_left _ hr
  have hpast := (List.mem_filter.mp hmem).2
  rw [decide_eq_true_eq, h0] at hpast
  exact hpast UInt64.zero_le

/-! ## The invariant -/

variable {cfg : Setup} {s s' : Ingest}

/-- A batch that gets through does so whole, and its largest sequence is not below those of the
batches of its file that did before, or below the mark the file had at the start. -/
def Rising (cfg : Setup) (db : Db) (s : Ingest) : Act → Prop
  | .consume i _ script => Lands script → ¬ Reopened script ∧
      ∀ job, (s.threads i).job = some job →
        max (db.count (markPlace (cfg.source job.name))) (largest (s.applied job.name)) ≤
          largest (s.nextBatch i)
  | _ => True

/-- The workers are between visits, and every mark is the largest sequence there was or
came since. -/
structure Marked (cfg : Setup) (db : Db) (s : Ingest) : Prop where
  idle : ∀ i, (s.threads i).Idle
  bounded : ∀ f, s.mark cfg f < 2 ^ 64
  marks : ∀ f, s.mark cfg f = max (db.count (markPlace (cfg.source f))) (largest (s.applied f))

variable {db : Db}

theorem Marked.initial (hm : ∀ f, (Ingest.initial db).mark cfg f < 2 ^ 64) :
    Marked cfg db (Ingest.initial db) where
  idle _ := Thread.idle_default
  bounded := hm
  marks _ := (max_eq_left (Nat.zero_le _)).symm

/-- Nothing that the store holds or has been given has changed. -/
theorem Marked.same (h : Marked cfg db s) (hi : ∀ i, (s'.threads i).Idle) (hdb : s'.db = s.db)
    (hlog : s'.log = s.log) : Marked cfg db s' ∧ s.log <+: s'.log := by
  refine ⟨⟨hi, fun f => ?_, fun f => ?_⟩, by rw [hlog]⟩
  · rw [mark_congr hdb]
    exact h.bounded f
  · rw [mark_congr hdb, applied_congr hlog]
    exact h.marks f

/-- The mark is among the commands of a batch, so there are some. -/
theorem batch_commands_ne_nil {visit : Visit} {name : FileName} {src src' : FileSource}
    {batch : List CdrRecord} (hn : src.next = (.ok, batch, src')) :
    (consumeCalls visit batch (cfg.source name)).map Call.command ≠ [] := by
  obtain ⟨-, -, hb, -⟩ := next_ok hn
  have hsource : cfg.source name ≠ [] := by
    rw [cfg.source_eq]
    exact name.2.1
  exact fun hnil => consumeCalls_ne_nil hsource (highest_ne_zero hb (next_sequence_ne_zero hn))
    (List.map_eq_nil_iff.mp hnil)

/-- A batch that lands whole writes its own largest sequence, higher or lower. -/
theorem landed_mark {visit : Visit} {script : List Event} {name : FileName}
    {src src' : FileSource} {batch : List CdrRecord} {ran : List (Command × Bool)} {db' : Db}
    (hn : src.next = (.ok, batch, src'))
    (hv : Visited ((consumeCalls visit batch (cfg.source name)).map Call.command) script
      s.db db' ran) (hl : Lands script) (hr : ¬ Reopened script) :
    ran ≠ [] ∧ ∀ f, db'.count (markPlace (cfg.source f)) =
      if f = name then largest batch else s.mark cfg f := by
  obtain ⟨-, -, hb, -⟩ := next_ok hn
  refine ⟨hv.ran_ne_nil hl hr (batch_commands_ne_nil hn), ?_⟩
  rw [← highest_toNat]
  exact visited_mark hv hl hr (highest_ne_zero hb (next_sequence_ne_zero hn))

theorem Marked.land (h : Marked cfg db s) {visit : Visit} {script : List Event} {name : FileName}
    {src src' : FileSource} {batch : List CdrRecord} {ran : List (Command × Bool)}
    (hn : src.next = (.ok, batch, src'))
    (hv : Visited ((consumeCalls visit batch (cfg.source name)).map Call.command) script
      s.db s'.db ran)
    (hrise : Lands script → ¬ Reopened script ∧
      max (db.count (markPlace (cfg.source name))) (largest (s.applied name)) ≤ largest batch)
    (hi : ∀ i, (s'.threads i).Idle)
    (hlog : s'.log = s.log ++
      [{ name, batch, calls := consumeCalls visit batch (cfg.source name), ran }]) :
    Marked cfg db s' ∧ s.log <+: s'.log := by
  refine ⟨?_, by rw [hlog]; exact List.prefix_append _ _⟩
  by_cases hl : Lands script
  · obtain ⟨hr, hlarge⟩ := hrise hl
    obtain ⟨hran, hmark'⟩ := landed_mark hn hv hl hr
    have hmark : ∀ f, s'.mark cfg f = if f = name then largest batch else s.mark cfg f := hmark'
    rw [← h.marks name] at hlarge
    refine ⟨hi, fun f => ?_, fun f => ?_⟩
    · rw [hmark]
      split
      · rw [← highest_toNat]
        exact (AggregateSink.highest batch).toNat_lt
      · exact h.bounded f
    · have hf := h.marks f
      rw [hmark, applied_append hlog]
      by_cases hname : f = name
      · subst hname
        rw [if_pos rfl, if_pos ⟨rfl, hran⟩, largest_append, ← max_assoc, ← hf]
        exact (max_eq_right hlarge).symm
      · rw [if_neg hname, if_neg fun hc => hname hc.1.symm, List.append_nil]
        exact hf
  · -- what was sent is gone, or never left
    obtain ⟨rfl, hdb⟩ := hv.none hl
    refine ⟨hi, fun f => ?_, fun f => ?_⟩
    · rw [mark_congr hdb]
      exact h.bounded f
    · rw [mark_congr hdb, applied_append hlog, if_neg fun hc => hc.2 rfl, List.append_nil]
      exact h.marks f

/-- A worker that changes leaves the others between visits. -/
theorem idle_update {threads : Nat → Thread} (h : ∀ i, (threads i).Idle) {i : Nat} {t : Thread}
    (ht : t.Idle) (j : Nat) : (Function.update threads i t j).Idle := by
  by_cases hj : j = i
  · rw [hj, Function.update_self]
    exact ht
  · rw [Function.update_of_ne hj]
    exact h j

/-- What a step does to the marks, and that nothing committed is forgotten. -/
theorem Marked.step {a : Act} (h : Marked cfg db s) (ha : Rising cfg db s a)
    (hs : CdrProcessor.step cfg s a = some s') : Marked cfg db s' ∧ s.log <+: s'.log := by
  cases a with
  | deliver f text =>
    cases hs
    exact h.same h.idle rfl rfl
  | start swept =>
    obtain ⟨-, rfl⟩ := start_cases hs
    exact h.same h.idle rfl rfl
  | claim f =>
    obtain ⟨-, rfl⟩ := Ingest.claim_cases hs
    obtain ⟨files, hf⟩ := rename_rest s f .ready .process
    rw [hf]
    exact h.same h.idle rfl rfl
  | stop =>
    rw [stop_cases hs]
    exact h.same h.idle rfl rfl
  | take i =>
    obtain ⟨f, queue, -, -, -, rfl | rfl⟩ := take_cases hs
    · exact h.same h.idle rfl rfl
    · exact h.same (idle_update h.idle (h.idle i)) rfl rfl
  | opens i readable script =>
    obtain ⟨name, kept, -, ⟨-, rfl⟩ | ⟨-, t, resume, ht, -, rfl, -⟩⟩ :=
      opens_cases (h.idle i) h.bounded hs
    · exact h.same (fun _ => Thread.idle_default) rfl rfl
    · exact h.same (idle_update h.idle ht) rfl rfl
  | consume i visit script =>
    obtain ⟨name, src, kept, batch, src', db', ran, hj, hn, hv, hcase⟩ :=
      consume_cases (h.idle i) hs
    have hrise : Lands script → ¬ Reopened script ∧
        max (db.count (markPlace (cfg.source name))) (largest (s.applied name)) ≤
          largest batch := by
      intro hl
      obtain ⟨hr, hjob⟩ := ha hl
      exact ⟨hr, nextBatch_eq hj rfl hn ▸ hjob _ hj⟩
    rcases hcase with ⟨-, rfl⟩ | ⟨-, t, runTotals, ht, -, rfl⟩
    · exact h.land hn hv hrise (fun _ => Thread.idle_default) rfl
    · exact h.land hn hv hrise (idle_update h.idle ht) rfl
  | dispose i moved =>
    obtain ⟨name, src, kept, d, -, -, rfl⟩ := dispose_cases hs
    obtain ⟨files, hf⟩ := rename_rest s name .process d
    cases moved with
    | true =>
      rw [if_pos rfl, hf]
      exact h.same (idle_update h.idle (h.idle i)) rfl rfl
    | false => exact h.same (idle_update h.idle (h.idle i)) rfl rfl
  | crash =>
    cases hs
    exact h.same (fun _ => Thread.idle_default) rfl rfl

theorem Marked.run {t : Ingest} {acts : List Act} (h : Marked cfg db s)
    (hr : Run (CdrProcessor.step cfg) (Rising cfg db) s acts t) :
    Marked cfg db t ∧ s.log <+: t.log := by
  have hstep : ∀ u a u', (Marked cfg db u ∧ s.log <+: u.log) → Rising cfg db u a →
      CdrProcessor.step cfg u a = some u' → Marked cfg db u' ∧ s.log <+: u'.log := by
    intro u a u' hu ha hs
    obtain ⟨hu', hlog⟩ := hu.1.step ha hs
    exact ⟨hu', hu.2.trans hlog⟩
  exact hr.invariant hstep ⟨h, List.prefix_refl _⟩

/-- What has been applied stays applied. -/
theorem largest_applied_mono {t : Ingest} (h : s.log <+: t.log) (f : FileName) :
    largest (s.applied f) ≤ largest (t.applied f) := by
  obtain ⟨es, hes⟩ := h
  unfold Ingest.applied
  rw [← hes, List.filter_append, List.flatMap_append, largest_append]
  exact le_max_left _ _

/-- The answer of `resume_at` to a worker that nothing disturbs. -/
theorem resumeAt_mark {i : Nat} {script : List Event} {f : FileName} {r : UInt64}
    {w' : World Db} (hi : (s.threads i).Idle) (hb : s.mark cfg f < 2 ^ 64)
    (hu : Undisturbed script)
    (hx : AggregateSink.resumeAt (redisStore redis) (cfg.source f) (s.world i script) =
      some (r, w')) : r.toNat = s.mark cfg f := by
  obtain ⟨es, he, -, -, -, hcase⟩ := resumeAt_idle (hi.world script) hx
  have he' : script = es ++ w'.script := he
  rcases hcase with ⟨-, -, rfl⟩ | ⟨⟨e, hmem, hf⟩, -⟩
  · exact markOf_value s.db (cfg.source f) hb
  · rw [hu e (by rw [he']; exact List.mem_append_left _ hmem)] at hf
    cases hf

/-- **The mark of a source is the highest sequence applied** in every run whose commits
each come up to those of the file before: `resume_at` returns it, and it never goes down. -/
theorem mark_largest (hm : ∀ f, (Ingest.initial db).mark cfg f < 2 ^ 64) {acts : List Act}
    (hr : Run (step cfg) (Rising cfg db) (Ingest.initial db) acts s) (f : FileName) :
    s.mark cfg f = max ((Ingest.initial db).mark cfg f) (largest (s.applied f)) ∧
      (∀ i script r w', Undisturbed script →
        AggregateSink.resumeAt (redisStore redis) (cfg.source f) (s.world i script) =
          some (r, w') →
        r.toNat = max ((Ingest.initial db).mark cfg f) (largest (s.applied f))) ∧
      ∀ acts' t, Run (step cfg) (Rising cfg db) s acts' t → s.mark cfg f ≤ t.mark cfg f := by
  obtain ⟨h, -⟩ := (Marked.initial hm).run hr
  refine ⟨h.marks f, fun i script r w' hu hx =>
    (resumeAt_mark (h.idle i) (h.bounded f) hu hx).trans (h.marks f), ?_⟩
  intro acts' t ht
  obtain ⟨h', hlog⟩ := h.run ht
  rw [h.marks f, h'.marks f]
  exact max_le_max_left _ (largest_applied_mono hlog f)

/-- A commit whose records are all below the mark takes it down. -/
theorem mark_falls {visit : Visit} {script : List Event} {name : FileName}
    {src src' : FileSource} {batch : List CdrRecord} {ran : List (Command × Bool)}
    (hn : src.next = (.ok, batch, src'))
    (hv : Visited ((consumeCalls visit batch (cfg.source name)).map Call.command) script
      s.db s'.db ran) (hl : Lands script) (hr : ¬ Reopened script)
    (hlow : ∀ r ∈ batch, r.sequence.toNat < s.mark cfg name) :
    s'.mark cfg name < s.mark cfg name := by
  obtain ⟨-, -, hb, -⟩ := next_ok hn
  obtain ⟨r, hr'⟩ := List.exists_mem_of_ne_nil batch hb
  have hpos : 0 < s.mark cfg name := Nat.zero_lt_of_lt (hlow r hr')
  refine lt_of_eq_of_lt (((landed_mark hn hv hl hr).2 name).trans (if_pos rfl)) ?_
  exact Nat.lt_of_le_pred hpos (largest_le fun r hr => Nat.le_pred_of_lt (hlow r hr))

/-! ## A file that goes back -/

/-- What is checked of a step: nothing fails, and a batch comes up to those before it. -/
def rising (cfg : Setup) (db : Db) (s : Ingest) : Act → Bool
  | .consume i _ script => script.all (fun e => !e.fails) &&
      (s.threads i).job.all fun job =>
        decide (max (db.count (markPlace (cfg.source job.name))) (largest (s.applied job.name)) ≤
          largest (s.nextBatch i))
  | _ => true

theorem rising_sound (cfg : Setup) (s : Ingest) (a : Act) (h : rising cfg db s a = true) :
    Rising cfg db s a := by
  cases a with
  | consume i visit script =>
    obtain ⟨hall, hjob⟩ := (Bool.and_eq_true _ _).mp h
    refine fun _ => ⟨(undisturbed_of_all hall).not_reopened, fun job hj => ?_⟩
    rw [hj] at hjob
    exact of_decide_eq_true hjob
  | _ => trivial

/-- Two calls whose sequences go back. -/
def mixedCalls : Text :=
  "CDR|csv|1\n3|1|3|MOC|1|01/02/2024|10:20:30|3|||0|2\n1|1|3|MOC|1|01/02/2024|10:20:40|4|||0|2\n".toList

/-- They are committed, and the process dies before the file is put away. -/
def mixedRun : List Act :=
  [.deliver oneName mixedCalls, .start [], .claim oneName, .take 0, .opens 0 true askRun,
    .consume 0 .plain landRun, .crash, .start [oneName], .take 0, .opens 0 true askRun,
    .dispose 0 true]

theorem mark_largest_one :
    ∃ s, Run (step oneReader) (Rising oneReader {}) (Ingest.initial {}) mixedRun s ∧
      s.log.map (·.batch.length) = [2] ∧
      s.mark oneReader oneName = max ((Ingest.initial {}).mark oneReader oneName)
        (largest (s.applied oneName)) := by
  have hrun : (runChecked (step oneReader) (rising oneReader {}) (Ingest.initial {}) mixedRun).map
      (·.log.map (·.batch.length)) = some [2] := by decide +kernel
  obtain ⟨s, hs, hlog⟩ := Option.map_eq_some_iff.mp hrun
  have hr := Run.of_checked (rising_sound oneReader) hs
  exact ⟨s, hr, hlog, (mark_largest (unmarked_at_first oneReader) hr oneName).1⟩

/-- The store is there and nothing fails on the way to it. -/
def Calm : Act → Prop
  | .opens _ _ script => Undisturbed script
  | .consume _ _ script => Undisturbed script
  | _ => True

theorem undisturbed_not_kill {script : List Event} (h : Undisturbed script) :
    script.any Event.isKill = false := by
  rw [List.any_eq_false]
  intro e he hk
  have hf := h e he
  cases e <;> simp [Event.isKill, Event.fails] at hk hf

/-- A worker with a batch to hand on can hand it on, and the store then holds its largest
sequence, whatever was there. -/
theorem consume_goes {i : Nat} {name : FileName} {src src' : FileSource} {kept : Bool}
    {batch : List CdrRecord} (hi : ∀ i, (s.threads i).Idle)
    (hj : (s.threads i).job = some { name, src := some src, kept })
    (hn : src.next = (.ok, batch, src')) (visit : Visit) :
    ∃ script s' kept', Undisturbed script ∧ step cfg s (.consume i visit script) = some s' ∧
      (∀ i, (s'.threads i).Idle) ∧
      (s'.threads i).job = some { name, src := some src', kept := kept' } ∧
      s'.mark cfg name = largest batch ∧ s'.applied name = s.applied name ++ batch := by
  obtain ⟨script, ⟨⟩, w', hu, hx, -⟩ :=
    (((hi i).world []).ready.consume visit batch (cfg.source name)).whole
  replace hx : AggregateSink.consume (redisStore redis) visit batch (cfg.source name)
      (s.world i script) = some ((), { w' with script := [] }) := hx
  have hsome : (s.consume cfg i visit script).isSome = true := by
    unfold Ingest.consume
    rw [hj]
    dsimp only
    rw [hn]
    dsimp only
    rw [hx]
    rfl
  obtain ⟨s', hs⟩ := Option.isSome_iff_exists.mp hsome
  obtain ⟨name', src0, kept0, batch0, src0', db', ran, hj', hn', hv, hcase⟩ :=
    consume_cases (hi i) hs
  rw [hj] at hj'
  cases hj'
  rw [hn] at hn'
  cases hn'
  rcases hcase with ⟨hk, -⟩ | ⟨-, t, runTotals, ht, htjob, rfl⟩
  · rw [undisturbed_not_kill hu] at hk
    cases hk
  · have hl := hv.quiet hu (batch_commands_ne_nil hn)
    obtain ⟨hran, hmark⟩ := landed_mark hn hv hl hu.not_reopened
    refine ⟨script, _, _, hu, hs, idle_update hi ht,
      (congrArg Thread.job (Function.update_self i t s.threads)).trans htjob,
      (hmark name).trans (if_pos rfl), ?_⟩
    rw [applied_append rfl, if_pos ⟨rfl, hran⟩]

/-! The lines of a file that starts with 4096 calls under the sequence 9. -/

def nineLine : Text := "9|1|3|MOC|1|01/02/2024|10:20:30|3|||0|2".toList

def fiveLine : Text := "5|1|3|MOC|1|01/02/2024|10:20:30|3|||0|2".toList

def nineRecord : CdrRecord := { oneRecord with sequence := 9 }

def fiveRecord : CdrRecord := { oneRecord with sequence := 5 }

/-- A full batch under the sequence 9, and one more call under 5. -/
def backBody : Text :=
  (List.replicate kFileBatchSize (nineLine ++ ['\n'])).flatten ++ fiveLine

def backText : Text := "CDR|csv|1\n".toList ++ backBody

theorem parseHeader_csv (body : Text) :
    parseHeader ("CDR|csv|1\n".toList ++ body) = some (⟨"csv".toList, 1⟩, body) := by
  rfl

theorem records_line (parser : IParser) {line : Text} (h : '\n' ∉ line) (rest : Text) :
    records parser (line ++ '\n' :: rest) = (parser line).toList ++ records parser rest := by
  unfold records
  rw [lines_of_ne_nil (by simp), takeWhile_before h, dropWhile_before h, List.drop_one,
    List.tail_cons]
  cases hp : parser line with
  | none => rw [List.filterMap_cons_none hp]; rfl
  | some r => rw [List.filterMap_cons_some hp]; rfl

theorem records_backText (n : Nat) :
    records (Parser.csvParser '|')
        ((List.replicate n (nineLine ++ ['\n'])).flatten ++ fiveLine) =
      List.replicate n nineRecord ++ [fiveRecord] := by
  have hnine : Parser.csvParser '|' nineLine = some nineRecord := by decide +kernel
  have hfive : records (Parser.csvParser '|') fiveLine = [fiveRecord] := by decide +kernel
  induction n with
  | zero => exact hfive
  | succ n ih =>
    rw [List.replicate_succ, List.flatten_cons, List.append_assoc, List.append_assoc,
      List.singleton_append, records_line _ (by decide), hnine, ih]
    rfl

def calm (_ : Ingest) : Act → Bool
  | .opens _ _ script => script.all fun e => !e.fails
  | .consume _ _ script => script.all fun e => !e.fails
  | _ => true

theorem calm_sound (s : Ingest) (a : Act) (h : calm s a = true) : Calm a := by
  cases a with
  | opens i readable script => exact undisturbed_of_all h
  | consume i visit script => exact undisturbed_of_all h
  | _ => trivial

/-- A file that has been opened, and nothing has been read of it yet. -/
def unread (text : Text) : Job where
  name := oneName
  src := some (FileSource.make (some text) (Parser.csvParser '|') 0)

theorem opened_unread (text : Text) :
    ∃ s, Run (step oneReader) (fun _ => Calm) (Ingest.initial {})
        [.deliver oneName text, .start [], .claim oneName, .take 0, .opens 0 true askRun] s ∧
      (∀ i, (s.threads i).Idle) ∧ s.applied oneName = [] ∧
      (s.threads 0).job = some (unread text) := by
  have hrun : (runChecked (step oneReader) calm (Ingest.initial {})
      [.deliver oneName text, .start [], .claim oneName, .take 0, .opens 0 true askRun]).map
        (fun s => (s.applied oneName, s.threads)) =
      some ([], Function.update (Function.update (fun _ => {}) 0 { job := some { name := oneName } })
        0 { link := some {}, job := some (unread text) }) := rfl
  obtain ⟨s, hs, he⟩ := Option.map_eq_some_iff.mp hrun
  obtain ⟨happ, hthreads⟩ := Prod.mk.inj he
  refine ⟨s, Run.of_checked calm_sound hs, ?_, happ, ?_⟩
  · rw [hthreads]
    have htaken : Thread.Idle { job := some { name := oneName } } :=
      ⟨rfl, rfl, fun l hl => by cases hl⟩
    have hasked : Thread.Idle { link := some {}, job := some (unread text) } :=
      ⟨rfl, rfl, fun l hl _ => by cases hl; rfl⟩
    exact idle_update (idle_update (fun _ => Thread.idle_default) htaken) hasked
  · rw [hthreads, Function.update_self]

/-- The first batch takes the calls under 9, the second what is left. -/
theorem backText_batches :
    ∃ src src' src'', (unread backText).src = some src ∧
      src.next = (.ok, List.replicate kFileBatchSize nineRecord, src') ∧
      src'.next = (.ok, [fiveRecord], src'') := by
  have hsrc : (unread backText).src =
      some { parser := Parser.csvParser '|', resumeSeq := 0, pos := backBody } :=
    congrArg some (make_of_header (parseHeader_csv backBody))
  have hup : past (Parser.csvParser '|') 0 backBody =
      List.replicate kFileBatchSize nineRecord ++ [fiveRecord] := by
    have hkeep : ∀ r ∈ List.replicate kFileBatchSize nineRecord ++ [fiveRecord],
        decide (r.sequence ≠ 0) = true := by
      intro r hr
      rcases List.mem_append.mp hr with hr | hr
      · rw [(List.mem_replicate.mp hr).2]
        decide
      · rw [List.mem_singleton.mp hr]
        decide
    rw [past_zero, backBody, records_backText, List.filter_eq_self.mpr hkeep]
  obtain ⟨batch, src', hn, hsplit, hf', hfull, hle⟩ := @next_batch
    { parser := Parser.csvParser '|', resumeSeq := 0, pos := backBody } rfl
  replace hsplit := hup.symm.trans hsplit
  have hlen : batch.length = kFileBatchSize := by
    refine hfull fun hnil => ?_
    have h := congrArg List.length hsplit
    rw [hnil, List.append_nil, List.length_append, List.length_replicate, List.length_singleton]
      at h
    omega
  obtain ⟨hbatch, hrest⟩ := List.append_inj hsplit (by rw [List.length_replicate, hlen])
  obtain ⟨batch', src'', hn', hsplit', -, hfull', -⟩ := next_batch hf'
  have hone : batch' = [fiveRecord] := by
    rw [← hrest] at hsplit'
    have hnil : src''.upcoming = [] := by
      by_contra hne
      have h := congrArg List.length hsplit'
      have hbig : 1 < kFileBatchSize := by decide
      rw [List.length_append, hfull' hne, List.length_singleton] at h
      omega
    rw [hnil, List.append_nil] at hsplit'
    exact hsplit'.symm
  subst hbatch hone
  exact ⟨_, src', src'', hsrc, by rw [hn, if_neg (by rw [List.replicate_eq_nil_iff]; decide)], hn'⟩

/-- **The mark goes back with the sequences.**  Both batches of the file are committed, and
`resume_at` is told 5 where 9 has been applied. -/
theorem mark_behind_applied :
    ∃ acts s, Run (step oneReader) (fun _ => Calm) (Ingest.initial {}) acts s ∧
      ∃ script r w', Undisturbed script ∧
        AggregateSink.resumeAt (redisStore redis) (oneReader.source oneName) (s.world 0 script) =
          some (r, w') ∧
        ¬ r.toNat = max ((Ingest.initial {}).mark oneReader oneName)
          (largest (s.applied oneName)) := by
  obtain ⟨src, src', src'', hsrc, hn, hn'⟩ := backText_batches
  obtain ⟨s, hr, hi, happ, hj⟩ := opened_unread backText
  have hj' : (s.threads 0).job = some { name := oneName, src := some src, kept := true } := by
    rw [hj, ← hsrc]
    rfl
  obtain ⟨script, t, kept, hu, hs, hit, hjt, -, happt⟩ :=
    @consume_goes oneReader _ 0 oneName _ _ _ _ hi hj' hn .plain
  obtain ⟨script', u, kept', hu', hs', hiu, -, hmark, happu⟩ :=
    @consume_goes oneReader _ 0 oneName _ _ _ _ hit hjt hn' .plain
  have hcalm : Calm (.consume 0 .plain script) := hu
  have hcalm' : Calm (.consume 0 .plain script') := hu'
  have hfive : largest [fiveRecord] = 5 := by decide
  obtain ⟨script'', r, w', hu'', hx, -⟩ :=
    (((hiu 0).world []).ready.resumeAt (oneReader.source oneName)).whole
  have hr5 := resumeAt_mark (hiu 0) (by rw [hmark, hfive]; decide) hu'' hx
  refine ⟨_, u, hr.append (.cons hcalm hs (.cons hcalm' hs' (.nil u))), script'', r, _, hu'', hx,
    fun heq => ?_⟩
  have hnine : nineRecord ∈ u.applied oneName := by
    rw [happu, happt, happ, List.nil_append]
    exact List.mem_append_left _ (List.mem_replicate.mpr ⟨by decide, rfl⟩)
  have hle := le_largest hnine
  rw [hr5, hmark] at heq
  have hnine' : nineRecord.sequence.toNat = 9 := by decide
  omega

end CdrProcessor
