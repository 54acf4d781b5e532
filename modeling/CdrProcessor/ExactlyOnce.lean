import CdrProcessor.NoLoss

/-! The file path before a store that stays within reach: whatever the process dies in
the middle of, the counters come to what the marks say. -/

namespace CdrProcessor

/-! ## The steps -/

/-- Nothing fails but the process itself. -/
def Reachable (script : List Event) : Prop :=
  ∃ pre, Undisturbed pre ∧ (script = pre ∨ ∃ served, script = pre ++ [.kill served])

/-- The store is reachable, and it has room for what each batch adds. -/
def Healthy (cfg : Setup) (s : Ingest) : Act → Prop
  | .deliver f text => Delivers cfg s f text
  | .opens _ _ script => Reachable script
  | .consume i _ script => Reachable script ∧ Fits s.db (s.nextBatch i)
  | _ => True

theorem Reachable.undisturbed {script : List Event} (h : Reachable script)
    (hk : script.any Event.isKill = false) : Undisturbed script := by
  obtain ⟨pre, hu, rfl | ⟨served, rfl⟩⟩ := h
  · exact hu
  · simp [Event.isKill] at hk

theorem Reachable.not_reopened {script : List Event} (h : Reachable script) :
    ¬ Reopened script := by
  obtain ⟨pre, hu, rfl | ⟨served, rfl⟩⟩ := h
  · exact hu.not_reopened
  · exact hu.not_reopened_append (by simp)

variable {cfg : Setup} {s s' : Ingest}

theorem Healthy.unrepeated {a : Act} (h : Healthy cfg s a) : Unrepeated cfg s a := by
  cases a with
  | deliver f text => exact h
  | opens i readable script =>
    have h : Reachable script := h
    cases hk : script.any Event.isKill with
    | true => exact .inr (.inl hk)
    | false => exact .inl (h.undisturbed hk)
  | consume i visit script => exact fun hc => h.1.not_reopened hc.1
  | _ => trivial

theorem Fits.succeeds {visit : Visit} {batch : List CdrRecord} {source : Text} {db : Db}
    (h : Fits db batch) : Succeeds redis ((consumeCalls visit batch source).map Call.command) db := by
  obtain ⟨db', hr, -⟩ := batch_deposit visit source h
  intro p hp
  rw [queueAll_redis, hr] at hp
  obtain ⟨c, -, rfl⟩ := List.mem_map.mp hp
  rfl

theorem Healthy.unlost {a : Act} (h : Healthy cfg s a) (hk : ∀ i, s.Kept i) :
    Unlost cfg s a := by
  refine ⟨?_, fun i _ => hk i⟩
  cases a with
  | deliver f text => exact h
  | consume i visit script => exact fun hl => ⟨hl, h.1.not_reopened, fun job hj => h.2.succeeds⟩
  | _ => trivial

/-! ## The invariant -/

/-- What the committed batches add up to. -/
def Ingest.tally (s : Ingest) (c : Counter) : Nat :=
  ((s.log.filter fun e => e.ran ≠ []).map fun e => amount e.batch c).sum

/-- The counters are those at the start and what the committed batches add up to. -/
structure Once (cfg : Setup) (db : Db) (s : Ingest) : Prop where
  noRepeat : NoRepeat cfg s
  noLoss : NoLoss cfg s
  kept : ∀ i, s.Kept i
  called : ∀ e ∈ s.log, e.calls ≠ []
  counts : ∀ c : Counter, s.db.count c.place = db.count c.place + s.tally c

theorem Once.initial (cfg : Setup) {db : Db}
    (hm : ∀ f, (Ingest.initial db).mark cfg f < 2 ^ 64) : Once cfg db (Ingest.initial db) where
  noRepeat := .initial cfg hm
  noLoss := .initial cfg hm
  kept i job h := by cases h
  called e h := by cases h
  counts _ := rfl

theorem tally_congr (h : s'.log = s.log) (c : Counter) : s'.tally c = s.tally c := by
  unfold Ingest.tally
  rw [h]

theorem tally_append {e : Entry} (h : s'.log = s.log ++ [e]) (c : Counter) :
    s'.tally c = s.tally c + if e.ran ≠ [] then amount e.batch c else 0 := by
  unfold Ingest.tally
  rw [h, List.filter_append, List.map_append, List.sum_append]
  by_cases hr : e.ran = [] <;> simp [hr]

theorem Once.step {db : Db} {a : Act} (h : Once cfg db s) (ha : Healthy cfg s a)
    (hs : CdrProcessor.step cfg s a = some s') : Once cfg db s' := by
  have hun := ha.unrepeated
  suffices hrest : (∀ i, s'.Kept i) ∧
      (∀ e ∈ s'.log, e.calls ≠ []) ∧
      ∀ c : Counter, s'.db.count c.place = db.count c.place + s'.tally c from
    ⟨h.noRepeat.step hun hs, h.noLoss.step (ha.unlost h.kept) hs, hrest.1, hrest.2.1, hrest.2.2⟩
  obtain ⟨-, heff⟩ := step_shape h.noRepeat.shape hun.steady.arrives hs
  have hcongr : ∀ {t : Ingest}, t.db = s.db → t.log = s.log → (∀ e ∈ t.log, e.calls ≠ []) ∧
      ∀ c : Counter, t.db.count c.place = db.count c.place + t.tally c := by
    intro t hdb hlog
    refine ⟨by rw [hlog]; exact h.called, fun c => ?_⟩
    rw [hdb, tally_congr hlog]
    exact h.counts c
  cases heff with
  | quiet hdb hlog hh hnew hjobs hdone =>
    refine ⟨fun i job hj => ?_, hcongr hdb hlog⟩
    rcases hjobs i job hj with hj | ⟨-, hk⟩
    · exact h.kept i job hj
    · exact hk
  | @opened i readable script name kept t resume hj hk ht hr =>
    refine ⟨fun i' job hj' => ?_, hcongr rfl rfl⟩
    by_cases hi : i' = i
    · subst hi
      change (Function.update s.threads i' t i').job = some job at hj'
      rw [Function.update_self, ht] at hj'
      cases hj'
      have hkept : kept = true := h.kept i' _ hj
      exact hkept
    · change (Function.update s.threads i t i').job = some job at hj'
      rw [Function.update_of_ne hi] at hj'
      exact h.kept i' job hj'
  | @handed i visit script name src kept batch src' ran _ hj hn hv hlog hfiles hjobs =>
    have hd := h.noRepeat.shape.handed hj hn hv hun.steady
    have hfits : Fits s.db batch := nextBatch_eq hj rfl hn ▸ ha.2
    have hcalled : ∀ e ∈ s'.log, e.calls ≠ [] := by
      intro e he
      rw [hlog] at he
      rcases List.mem_append.mp he with he | he
      · exact h.called e he
      · rw [List.mem_singleton.mp he]
        exact hd.called
    by_cases hl : Lands script
    · obtain ⟨hran, hrun, -⟩ := hd.landed hl
      refine ⟨fun i' job hj' => ?_, hcalled, fun c => ?_⟩
      · rcases hjobs i' job hj' with ⟨-, hj'⟩ | ⟨-, -, rfl⟩
        · exact h.kept i' job hj'
        · have hkept : kept = true := h.kept i _ hj
          change (kept && Entry.whole ⟨name, batch, _, ran⟩) = true
          rw [hkept, Bool.true_and]
          exact (whole_iff _ _ hv hd.called).mpr ⟨hl, ha.1.not_reopened, hfits.succeeds⟩
      · obtain ⟨db1, hr, hvalue⟩ := batch_deposit visit (cfg.source name) hfits
        have hdb : s'.db = db1 := (congrArg Prod.snd hrun).trans (congrArg Prod.snd hr)
        rw [tally_append hlog, if_pos hran, ← Nat.add_assoc, ← h.counts c]
        unfold Db.count
        rw [hdb, hvalue]
        split
        · next h0 => rw [h0, Nat.add_zero]
        · rfl
    · obtain ⟨rfl, hdb⟩ := hd.missed hl
      refine ⟨fun i' job hj' => ?_, hcalled, fun c => ?_⟩
      · rcases hjobs i' job hj' with ⟨-, hj'⟩ | ⟨-, hk, -⟩
        · exact h.kept i' job hj'
        · -- a process that lives on has met nothing that fails
          refine absurd (hv.quiet (ha.1.undisturbed hk) fun hnil => ?_) hl
          exact hd.called (List.map_eq_nil_iff.mp hnil)
      · rw [tally_append hlog, if_neg (by simp), Nat.add_zero, hdb]
        exact h.counts c
  | finished hj hd hdb hlog hh hjobs hdone =>
    exact ⟨fun i job hj => h.kept i job (hjobs i job hj), hcongr hdb hlog⟩

/-! ## File by file -/

/-- Sums over groups whose keys are all there, each once. -/
theorem sum_groups {α κ : Type} [DecidableEq κ] (key : α → κ) (g : α → Nat) {l : List α}
    {ks : List κ} (hn : ks.Nodup) (h : ∀ a ∈ l, key a ∈ ks) :
    (ks.map fun k => ((l.filter fun a => key a = k).map g).sum).sum = (l.map g).sum := by
  induction l with
  | nil => simp
  | cons a l ih =>
    obtain ⟨ha, hl⟩ := List.forall_mem_cons.mp h
    have hk : ∀ k, (((a :: l).filter fun a => key a = k).map g).sum =
        (if key a = k then g a else 0) + ((l.filter fun a => key a = k).map g).sum := by
      intro k
      by_cases hak : key a = k <;> simp [hak]
    simp only [hk]
    rw [List.sum_map_add, ih hl,
      List.sum_map_eq_nsmul_single (key a) _ (fun k hne _ => if_neg (Ne.symm hne)),
      List.count_eq_one_of_mem hn ha, if_pos rfl, Nat.nsmul_eq_mul, Nat.one_mul, List.map_cons, List.sum_cons]

def Dir.all : List Dir := [.ready, .process, .done, .fail]

theorem Dir.mem_all (d : Dir) : d ∈ Dir.all := by cases d <;> decide

/-- Every file there is, with its text. -/
def Ingest.entries (s : Ingest) : List (Sigma fun _ : FileName => Text) :=
  Dir.all.flatMap fun d => (s.files d).entries

theorem mem_entries {e : Sigma fun _ : FileName => Text} :
    e ∈ s.entries ↔ s.Holds e.1 e.2 := by
  unfold Ingest.entries Ingest.Holds
  rw [List.mem_flatMap]
  constructor
  · rintro ⟨d, -, he⟩
    exact ⟨d, AList.mem_lookup_iff.mpr he⟩
  · rintro ⟨d, he⟩
    exact ⟨d, Dir.mem_all d, AList.mem_lookup_iff.mp he⟩

/-- With every name in one place, no name comes twice. -/
theorem entries_nodup (h : s.OnePlace) : (s.entries.map Sigma.fst).Nodup := by
  unfold Ingest.entries
  rw [List.map_flatMap]
  refine List.nodup_flatMap.mpr ⟨fun d _ => (s.files d).nodupKeys, ?_⟩
  refine List.Pairwise.imp (R := fun d d' => d ≠ d') (fun hne => ?_) (by decide)
  intro f hf hf'
  exact hne (h f _ _ hf hf')

/-- What a file is due: its accepted records up to its mark. -/
def Ingest.due (cfg : Setup) (s : Ingest) (f : FileName) (text : Text) : List CdrRecord :=
  (accepted cfg.parser text).filter fun r => r.sequence.toNat ≤ s.mark cfg f

/-- A batch that was run whole is one of those applied. -/
theorem Once.applied_of_counted {db : Db} (h : Once cfg db s) {f : FileName} {r : CdrRecord}
    (hc : s.Counted f r) : r ∈ s.applied f := by
  obtain ⟨e, he, hn, hw, hb⟩ := hc
  refine List.mem_flatMap.mpr ⟨e, List.mem_filter.mpr ⟨he, ?_⟩, hb⟩
  rw [decide_eq_true_eq]
  refine ⟨hn, fun hnil => h.called e he ?_⟩
  unfold Entry.whole at hw
  rw [decide_eq_true_eq, hnil] at hw
  exact List.map_eq_nil_iff.mp hw.symm

/-- Neither more nor less than what is due was applied of a file. -/
theorem Once.applied {db : Db} (h : Once cfg db s) {f : FileName} {text : Text}
    (ht : s.Holds f text) : s.applied f = s.due cfg f text := by
  have hlt : ∀ r r' : CdrRecord, r.sequence < r'.sequence ↔
      r.sequence.toNat < r'.sequence.toNat := fun _ _ => UInt64.lt_iff_toNat_lt
  have : Std.Irrefl fun r r' : CdrRecord => r.sequence < r'.sequence :=
    ⟨fun r => by rw [hlt]; omega⟩
  have : Std.Antisymm fun r r' : CdrRecord => r.sequence < r'.sequence :=
    ⟨fun r r' h1 h2 => by rw [hlt] at h1 h2; omega⟩
  refine List.Pairwise.eq_of_mem_iff (h.noRepeat.increasing f)
    ((h.noRepeat.shape.ordered f text ht).1.sublist List.filter_sublist) fun r => ?_
  unfold Ingest.due
  rw [List.mem_filter, decide_eq_true_eq]
  constructor
  · intro hr
    exact ⟨h.noRepeat.accepted f text ht r hr, h.noRepeat.marked f r hr⟩
  · rintro ⟨hr, hm⟩
    exact h.applied_of_counted (h.noLoss.counted f text ht r hr hm)

theorem amount_flatMap {α : Type} (l : List α) (g : α → List CdrRecord) (c : Counter) :
    amount (l.flatMap g) c = (l.map fun a => amount (g a) c).sum := by
  induction l with
  | nil => rfl
  | cons a l ih => rw [List.flatMap_cons, amount_append, ih, List.map_cons, List.sum_cons]

/-- The committed batches, put together file by file. -/
theorem Once.tally_eq {db : Db} (h : Once cfg db s) (c : Counter) :
    s.tally c = (s.entries.map fun e => amount (s.due cfg e.1 e.2) c).sum := by
  have happ : (s.entries.map fun e => amount (s.due cfg e.1 e.2) c) =
      (s.entries.map Sigma.fst).map fun f => amount (s.applied f) c := by
    rw [List.map_map]
    refine List.map_congr_left fun e he => ?_
    rw [← h.applied (mem_entries.mp he)]
    rfl
  have hgroup : ∀ f, amount (s.applied f) c = (((s.log.filter fun e => e.ran ≠ []).filter
      fun e => e.name = f).map fun e => amount e.batch c).sum := by
    intro f
    unfold Ingest.applied
    rw [amount_flatMap, List.filter_filter]
    simp only [ne_eq, decide_not, Bool.decide_and]
  rw [happ]
  simp only [hgroup]
  refine (sum_groups Entry.name _ (entries_nodup h.noRepeat.shape.onePlace) ?_).symm
  intro e he
  obtain ⟨text, ht⟩ := h.noRepeat.shape.logged e (List.mem_of_mem_filter he)
  exact List.mem_map.mpr ⟨⟨e.name, text⟩, mem_entries.mpr ht, rfl⟩

/-! ## Whole runs -/

/-- **Exactly once, whatever the process dies in the middle of.**  Of every file just
what is at or below its mark was applied, each record once; the counters are what
these records come to; and a file that is done has been applied whole. -/
theorem exactly_once {db : Db} (hm : ∀ f, (Ingest.initial db).mark cfg f < 2 ^ 64)
    {acts : List Act} (hr : Run (step cfg) (Healthy cfg) (Ingest.initial db) acts s) :
    (∀ f text, s.Holds f text → s.applied f = s.due cfg f text) ∧
    (∀ c : Counter, s.db.count c.place =
      db.count c.place + (s.entries.map fun e => amount (s.due cfg e.1 e.2) c).sum) ∧
    ∀ f text, s.Holds f text → f ∈ s.files .done →
      s.applied f = accepted cfg.parser text := by
  have h : Once cfg db s :=
    hr.invariant (fun _ _ _ hi ha hs => Once.step hi ha hs) (.initial cfg hm)
  refine ⟨fun f text => h.applied, fun c => ?_, fun f text ht hd => ?_⟩
  · rw [h.counts, h.tally_eq]
  · rw [h.applied ht]
    refine List.filter_eq_self.mpr fun r hr => ?_
    rw [decide_eq_true_eq]
    exact h.noRepeat.marked f r (h.applied_of_counted (h.noLoss.ended f text ht hd r hr))

/-- The store is reachable, whatever the counters hold. -/
def Reached (cfg : Setup) (s : Ingest) : Act → Prop
  | .deliver f text => Delivers cfg s f text
  | .opens _ _ script => Reachable script
  | .consume _ _ script => Reachable script
  | _ => True

/-- What is checked of a run in which nothing fails, with room for it or without. -/
def clear (room : Bool) (cfg : Setup) (s : Ingest) : Act → Bool
  | .deliver f text => decide (Delivers cfg s f text)
  | .opens _ _ script => script.all fun e => !e.fails
  | .consume i _ script =>
    script.all (fun e => !e.fails) && (!room || decide (Fits s.db (s.nextBatch i)))
  | _ => true

theorem reachable_of_all {script : List Event} (h : script.all (fun e => !e.fails) = true) :
    Reachable script := ⟨script, undisturbed_of_all h, .inl rfl⟩

theorem clear_healthy (cfg : Setup) (s : Ingest) (a : Act) (h : clear true cfg s a = true) :
    Healthy cfg s a := by
  cases a with
  | deliver f text => exact of_decide_eq_true (p := Delivers cfg s f text) h
  | opens i readable script => exact reachable_of_all h
  | consume i visit script =>
    obtain ⟨hall, hroom⟩ := (Bool.and_eq_true _ _).mp h
    exact ⟨reachable_of_all hall, of_decide_eq_true hroom⟩
  | _ => trivial

theorem clear_reached (cfg : Setup) (s : Ingest) (a : Act) (h : clear false cfg s a = true) :
    Reached cfg s a := by
  cases a with
  | deliver f text => exact of_decide_eq_true (p := Delivers cfg s f text) h
  | opens i readable script => exact reachable_of_all h
  | consume i visit script => exact reachable_of_all ((Bool.and_eq_true _ _).mp h).1
  | _ => trivial

theorem exactly_once_one :
    ∃ acts s, Run (step oneReader) (Healthy oneReader) (Ingest.initial {}) acts s ∧
      oneName ∈ s.files .done ∧ s.log.map (·.batch.length) = [2] ∧
      s.applied oneName = accepted oneReader.parser twoCalls := by
  have hrun : (runChecked (step oneReader) (clear true oneReader) (Ingest.initial {})
      restartedRun).map (fun s => ((s.files .done).lookup oneName, s.log.map (·.batch.length))) =
        some (some twoCalls, [2]) := by decide +kernel
  obtain ⟨s, hs, hobs⟩ := Option.map_eq_some_iff.mp hrun
  obtain ⟨hdone, hlog⟩ := Prod.mk.inj hobs
  have hr := Run.of_checked (clear_healthy oneReader) hs
  have hd := mem_of_lookup hdone
  exact ⟨_, s, hr, hd, hlog,
    (exactly_once (unmarked_at_first oneReader) hr).2.2 oneName twoCalls ⟨.done, hdone⟩ hd⟩

/-- A call longer than a double holds exactly. -/
def longCall : Text :=
  "CDR|csv|1\n1|1|3|MOC|1|01/02/2024|10:20:30|9007199254740993|||0|2\n".toList

/-- A score past 2^53 is not what the records come to, though nothing failed. -/
theorem score_rounded :
    ∃ acts s, Run (step oneReader) (Reached oneReader) (Ingest.initial {}) acts s ∧
      ¬ ∀ c : Counter, s.db.count c.place = ({} : Db).count c.place +
        (s.entries.map fun e => amount (s.due oneReader e.1 e.2) c).sum := by
  have hrun : (runChecked (step oneReader) (clear false oneReader) (Ingest.initial {})
      [.deliver oneName longCall, .start [], .claim oneName, .take 0, .opens 0 true askRun,
        .consume 0 .plain landRun]).map
      (fun s => (s.db.count (Counter.subBoard 1 .voice).place, (s.entries.map fun e =>
        amount (s.due oneReader e.1 e.2) (.subBoard 1 .voice)).sum)) =
        some (9007199254740992, 9007199254740993) := by decide +kernel
  obtain ⟨s, hs, hobs⟩ := Option.map_eq_some_iff.mp hrun
  obtain ⟨hcount, hdue⟩ := Prod.mk.inj hobs
  refine ⟨_, s, Run.of_checked (clear_reached oneReader) hs, fun h => ?_⟩
  have hv := h (.subBoard 1 .voice)
  rw [hcount, hdue] at hv
  revert hv
  decide

end CdrProcessor
