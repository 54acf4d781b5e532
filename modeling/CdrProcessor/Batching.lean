import CdrProcessor.Deposit
import CdrProcessor.Lib.Interleave

/-! Batches consumed by any number of threads at once: how the records were cut and in
which order the threads got on makes no difference to the store or the run's totals. -/

namespace CdrProcessor

open Script

/-! ## A call, moment by moment -/

/-- One call of `consume`. -/
structure ConsumeCall where
  visit : Visit
  batch : List CdrRecord
  source : Text

/-- What a thread does to the state it shares: one `fetch_add` of `merge`, or the
transaction of a whole call. -/
inductive Moment where
  | bump (f : TotalField) (value : UInt64)
  | commit (call : ConsumeCall)

structure Shared where
  db : Db
  runTotals : RunTotals := {}

def ConsumeCall.commands (c : ConsumeCall) : List Command :=
  (consumeCalls c.visit c.batch c.source).map Call.command

def ConsumeCall.run (c : ConsumeCall) (db : Db) : Db := (runAll redis c.commands db).2

def Shared.act (s : Shared) : Moment → Shared
  | .bump f value => { s with runTotals := s.runTotals.bump f value }
  | .commit call => { s with db := call.run s.db }

def Shared.run (s : Shared) (acts : List Moment) : Shared := acts.foldl Shared.act s

/-- The moments of one call, in order. -/
def ConsumeCall.moments (c : ConsumeCall) : List Moment :=
  TotalField.all.map (fun f => .bump f ((({} : Totals).addBatch c.batch).get f)) ++ [.commit c]

theorem run_bumps (s : Shared) (totals : Totals) (fs : List TotalField) :
    s.run (fs.map fun f => .bump f (totals.get f)) =
      { s with runTotals := fs.foldl (fun t f => t.bump f (totals.get f)) s.runTotals } := by
  induction fs generalizing s with
  | nil => rfl
  | cons f fs ih => exact ih _

/-- A call that nothing disturbs has the server run all of its commands, and leaves the
thread ready for the next. -/
theorem consume_undisturbed {c : ConsumeCall} {w w' : World Db} (hi : Idle w)
    (hu : Undisturbed w.script)
    (hx : AggregateSink.consume (redisStore redis) c.visit c.batch c.source w = some ((), w')) :
    Idle w' ∧ Undisturbed w'.script ∧ w'.host.state = c.run w.host.state := by
  obtain ⟨rs, flushed, ht⟩ := consume_transaction hx
  obtain ⟨es, he, hl⟩ := transaction_landing (hi.folded c.batch) ht
  have he' : w.script = es ++ w'.script := he
  rw [he'] at hu
  have hes : Undisturbed es := fun e hm => hu e (List.mem_append_left _ hm)
  have hrest : Undisturbed w'.script := fun e hm => hu e (List.mem_append_right _ hm)
  have halive : w'.alive = true := by
    obtain ⟨es', he'', ha⟩ := (frame_lives redis).wires.transaction _ _ _ _ ht
    have hes' : es' = es := List.append_cancel_right (he''.symm.trans he)
    rw [ha, hes', (hi.folded c.batch).alive, Bool.true_and, Bool.not_eq_true', List.any_eq_false]
    intro e hm hk
    have hf := hes e hm
    cases e <;> simp [Event.isKill, Event.fails] at hk hf
  refine ⟨hl.state.resolve_right fun hd => ?_, hrest, ?_⟩
  · rw [hd.alive] at halive
    cases halive
  · by_cases hc : c.commands = []
    · have hnone : ¬ Lands es := fun hlands => (hl.whole hlands hes.not_reopened).1 hc
      refine ((hl.none hnone).state quiet_redis).trans ?_
      unfold ConsumeCall.run
      rw [hc]
      rfl
    · obtain ⟨hlands, -⟩ := hl.quiet hes hc
      rw [(hl.whole hlands hes.not_reopened).2, closed_redis _ rfl]
      rfl

/-- **A call that nothing disturbs** comes to its moments, whatever the thread's delta
held before. -/
theorem consume_moments {c : ConsumeCall} {w w' : World Db} (hi : Idle w)
    (hu : Undisturbed w.script)
    (hx : AggregateSink.consume (redisStore redis) c.visit c.batch c.source w = some ((), w')) :
    (⟨w'.host.state, w'.runTotals⟩ : Shared) =
      Shared.run ⟨w.host.state, w.runTotals⟩ c.moments := by
  obtain ⟨-, -, hdb⟩ := consume_undisturbed hi hu hx
  obtain ⟨rs, flushed, ht⟩ := consume_transaction hx
  have htotals : w'.runTotals = w.runTotals.merge (({} : Totals).addBatch c.batch) :=
    congrArg Prod.snd ((frame_sinkState redis).wires.transaction _ _ _ _ ht)
  have hrun : Shared.run ⟨w.host.state, w.runTotals⟩ c.moments =
      (Shared.run ⟨w.host.state, w.runTotals⟩ (TotalField.all.map fun f =>
        .bump f ((({} : Totals).addBatch c.batch).get f))).act (.commit c) := List.foldl_concat ..
  rw [hrun, run_bumps, hdb, htotals]
  rfl

/-! ## What a run adds up to -/

/-- What a moment adds to a counter of the run. -/
def Moment.bumped (f : TotalField) : Moment → UInt64
  | .bump g value => if g = f then value else 0
  | .commit _ => 0

def Moment.committed : Moment → Option ConsumeCall
  | .bump _ _ => none
  | .commit call => some call

theorem run_counter (s : Shared) (acts : List Moment) (f : TotalField) :
    (s.run acts).runTotals.counter f =
      s.runTotals.counter f + (acts.map (Moment.bumped f)).sum := by
  induction acts generalizing s with
  | nil => simp [Shared.run]
  | cons a acts ih =>
    have hstep : (s.act a).runTotals.counter f = s.runTotals.counter f + a.bumped f := by
      cases a with
      | bump g value =>
        change (s.runTotals.bump g value).counter f =
          s.runTotals.counter f + if g = f then value else 0
        rw [RunTotals.bump_counter]
        by_cases hg : g = f
        · rw [if_pos hg.symm, if_pos hg]
        · rw [if_neg (Ne.symm hg), if_neg hg, add_zero]
      | commit call => exact (add_zero _).symm
    rw [List.map_cons, List.sum_cons, ← add_assoc, ← hstep]
    exact ih _

theorem run_db (s : Shared) (acts : List Moment) :
    (s.run acts).db = (acts.filterMap Moment.committed).foldl (fun db c => c.run db) s.db := by
  induction acts generalizing s with
  | nil => rfl
  | cons a acts ih =>
    cases a with
    | bump g value => exact ih _
    | commit call => exact ih _

/-- Over a call every counter of the run goes up by what the batch is worth to it. -/
theorem moments_bumped (c : ConsumeCall) (f : TotalField) :
    (c.moments.map (Moment.bumped f)).sum = UInt64.ofNat (amount c.batch (.total f)) := by
  rw [← batchValue_eq]
  unfold ConsumeCall.moments
  rw [List.map_append, List.sum_append, List.map_map]
  cases f <;> simp [TotalField.all, Moment.bumped, batchValue, countedValue]

theorem moments_committed (c : ConsumeCall) : c.moments.filterMap Moment.committed = [c] := rfl

theorem calls_bumped (calls : List ConsumeCall) (f : TotalField) :
    ((calls.flatMap ConsumeCall.moments).map (Moment.bumped f)).sum =
      UInt64.ofNat (amount (calls.flatMap ConsumeCall.batch) (.total f)) := by
  induction calls with
  | nil => rfl
  | cons c calls ih =>
    rw [List.flatMap_cons, List.flatMap_cons, List.map_append, List.sum_append, ih,
      moments_bumped, amount_append, UInt64.ofNat_add]

theorem calls_committed (calls : List ConsumeCall) :
    (calls.flatMap ConsumeCall.moments).filterMap Moment.committed = calls := by
  induction calls with
  | nil => rfl
  | cons c calls ih =>
    rw [List.flatMap_cons, List.filterMap_append, moments_committed, ih]
    rfl

/-! ## What is left in the store -/

/-- Calls one after the other, as long as the store has room for all of them. -/
theorem calls_deposit (calls : List ConsumeCall) (db : Db)
    (h : ∀ c, amount (calls.flatMap ConsumeCall.batch) c ≠ 0 →
      db.count c.place + amount (calls.flatMap ConsumeCall.batch) c < c.bound) (c : Counter) :
    (calls.foldl (fun db c => c.run db) db).value c.place =
      if amount (calls.flatMap ConsumeCall.batch) c = 0 then db.value c.place
      else some (db.count c.place + amount (calls.flatMap ConsumeCall.batch) c) := by
  induction calls generalizing db with
  | nil => rfl
  | cons call calls ih =>
    simp only [List.flatMap_cons, amount_append] at h ⊢
    have hfits : Fits db call.batch := by
      intro c hc
      have := h c (by omega)
      omega
    obtain ⟨db', hr, hv⟩ := batch_deposit call.visit call.source hfits
    have hdb : call.run db = db' := congrArg Prod.snd hr
    have hcount : ∀ c : Counter, db'.count c.place = db.count c.place + amount call.batch c := by
      intro c
      unfold Db.count
      rw [hv]
      split
      · next h0 => rw [h0, Nat.add_zero]
      · rfl
    rw [List.foldl_cons, hdb, ih db' (fun c hc => by
      have := h c (by omega)
      rw [hcount]
      omega), hv, hcount]
    by_cases h0 : amount call.batch c = 0
    · rw [h0, if_pos rfl, Nat.zero_add, Nat.add_zero]
    · by_cases h1 : amount (calls.flatMap ConsumeCall.batch) c = 0
      · rw [h1, if_pos rfl, if_neg h0, if_neg (by omega), Nat.add_zero]
      · rw [if_neg h1, if_neg (by omega), Nat.add_assoc]

/-- Nothing is touched but counters and marks. -/
theorem calls_other (calls : List ConsumeCall) (db : Db) {p : Place}
    (hc : ∀ c : Counter, p ≠ c.place) (hm : ∀ source, p ≠ markPlace source) :
    (calls.foldl (fun db c => c.run db) db).value p = db.value p := by
  induction calls generalizing db with
  | nil => rfl
  | cons call calls ih =>
    exact (ih _).trans (batch_other call.visit call.batch call.source db hc (hm call.source))

theorem amount_perm {rs rs' : List CdrRecord} (h : rs.Perm rs') (c : Counter) :
    amount rs c = amount rs' c := (h.map _).sum_eq

/-- What any schedule leaves: every counter goes up by what all the records are worth
to it, and the run's totals by the same. -/
theorem schedule_result {db : Db} {records : List CdrRecord} {work : List (List ConsumeCall)}
    {acts : List Moment} (hcut : (work.flatten.flatMap ConsumeCall.batch).Perm records)
    (hfit : ∀ c, amount records c ≠ 0 → db.count c.place + amount records c < 2 ^ 53)
    (hacts : Interleaved (work.map fun calls => calls.flatMap ConsumeCall.moments) acts) :
    (∀ c, (Shared.run ⟨db, {}⟩ acts).db.value c.place =
      if amount records c = 0 then db.value c.place
      else some (db.count c.place + amount records c)) ∧
    (∀ p : Place, (∀ c : Counter, p ≠ c.place) → (∀ source, p ≠ markPlace source) →
      (Shared.run ⟨db, {}⟩ acts).db.value p = db.value p) ∧
    ∀ f, ((Shared.run ⟨db, {}⟩ acts).runTotals.snapshot.get f).toNat =
      amount records (.total f) := by
  have hperm : acts.Perm (work.flatten.flatMap ConsumeCall.moments) := by
    refine hacts.perm.trans (List.Perm.of_eq ?_)
    rw [List.flatMap_def, List.map_flatten, List.flatten_flatten, List.map_map]
    rfl
  have hcalls : (acts.filterMap Moment.committed).Perm work.flatten := by
    have h := hperm.filterMap Moment.committed
    rwa [calls_committed] at h
  have hamount : ∀ c, amount ((acts.filterMap Moment.committed).flatMap ConsumeCall.batch) c =
      amount records c := by
    intro c
    exact (amount_perm (List.Perm.flatMap_right _ hcalls) c).trans (amount_perm hcut c)
  refine ⟨fun c => ?_, fun p hc hm => ?_, fun f => ?_⟩
  · rw [run_db, calls_deposit _ db (fun c hc => ?_), hamount]
    rw [hamount] at hc ⊢
    exact lt_of_lt_of_le (hfit c hc) (le_bound c)
  · rw [run_db]
    exact calls_other _ db hc hm
  · rw [RunTotals.snapshot_get, run_counter, (hperm.map _).sum_eq, calls_bumped,
      amount_perm hcut]
    change ((0 : UInt64) + _).toNat = _
    rw [zero_add, UInt64.toNat_ofNat']
    refine Nat.mod_eq_of_lt ?_
    by_cases h0 : amount records (.total f) = 0
    · rw [h0]
      decide
    · have := hfit _ h0
      omega

/-- **Batching and thread order make no difference.**  However the records are cut and
dealt out to threads, and however these get on, the store ends as if one thread had
consumed them all at once, the progress marks apart, and the run's totals are what was
added to `total:proc`. -/
theorem batching_irrelevant {db : Db} {records : List CdrRecord}
    {work : List (List ConsumeCall)} {acts : List Moment} {whole : ConsumeCall}
    (hcut : (work.flatten.flatMap ConsumeCall.batch).Perm records)
    (hfit : ∀ c, amount records c ≠ 0 → db.count c.place + amount records c < 2 ^ 53)
    (hacts : Interleaved (work.map fun calls => calls.flatMap ConsumeCall.moments) acts)
    (hwhole : whole.batch = records) :
    (∀ p : Place, (∀ source, p ≠ markPlace source) →
      (Shared.run ⟨db, {}⟩ acts).db.value p =
        (Shared.run ⟨db, {}⟩ whole.moments).db.value p) ∧
    ∀ f, (Shared.run ⟨db, {}⟩ acts).db.count (Counter.total f).place =
      db.count (Counter.total f).place +
        ((Shared.run ⟨db, {}⟩ acts).runTotals.snapshot.get f).toNat := by
  obtain ⟨hvalue, hother, htotals⟩ := schedule_result hcut hfit hacts
  -- the single call is a schedule of its own
  have hone : Interleaved ([[whole]].map fun calls => calls.flatMap ConsumeCall.moments)
      whole.moments := by
    simpa using Interleaved.single whole.moments
  have hcut' : (([[whole]] : List (List ConsumeCall)).flatten.flatMap ConsumeCall.batch).Perm
      records := by simp [hwhole]
  obtain ⟨hvalue', hother', -⟩ := schedule_result hcut' hfit hone
  refine ⟨fun p hp => ?_, fun f => ?_⟩
  · by_cases hc : ∀ c : Counter, p ≠ c.place
    · rw [hother p hc hp, hother' p hc hp]
    · obtain ⟨c, hc⟩ := not_forall.mp hc
      rw [not_not.mp hc, hvalue, hvalue']
  · rw [htotals]
    unfold Db.count
    rw [hvalue]
    split
    · next h0 => rw [h0, Nat.add_zero]
    · rfl

/-- One call to count, on any thread. -/
def countCall (batch : List CdrRecord) : ConsumeCall := ⟨.plain, batch, []⟩

/-- Two calls on two threads come to what both records in one batch do. -/
theorem batching_irrelevant_two :
    (Shared.run ⟨{}, {}⟩ ((countCall [shortCall]).moments ++ (countCall [shortCall]).moments)).db.value
        (Counter.sub 1 .voiceOut).place =
      (Shared.run ⟨{}, {}⟩ (countCall [shortCall, shortCall]).moments).db.value
        (Counter.sub 1 .voiceOut).place := by
  have hfit : ∀ c, amount [shortCall, shortCall] c ≠ 0 →
      ({} : Db).count c.place + amount [shortCall, shortCall] c < 2 ^ 53 := by
    have hall : ∀ c ∈ [shortCall, shortCall].flatMap touched,
        ({} : Db).count c.place + amount [shortCall, shortCall] c < 2 ^ 53 := by decide +kernel
    exact fun c hc => hall c (mem_flatMap_touched hc)
  have hacts : Interleaved ([[countCall [shortCall]], [countCall [shortCall]]].map
      fun calls => calls.flatMap ConsumeCall.moments)
      ((countCall [shortCall]).moments ++ (countCall [shortCall]).moments) := by
    simpa using Interleaved.pair (countCall [shortCall]).moments (countCall [shortCall]).moments
  have hcut : (([[countCall [shortCall]], [countCall [shortCall]]] : List (List ConsumeCall)).flatten.flatMap
      ConsumeCall.batch).Perm [shortCall, shortCall] := .refl _
  have hwhole : (countCall [shortCall, shortCall]).batch = [shortCall, shortCall] := rfl
  exact (batching_irrelevant hcut hfit hacts hwhole).1 _
    fun source h => mark_ne_place source (.sub 1 .voiceOut) h.symm

end CdrProcessor
