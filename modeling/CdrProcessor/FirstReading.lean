import CdrProcessor.Batching
import CdrProcessor.HandsOut
import CdrProcessor.NoRepeat
import CdrProcessor.Smooth

/-! A file worked through from its open to its end, `FileIngestor::process`, and what a
first reading of it adds to the records counted. -/

namespace CdrProcessor

open Script

variable {σ : Type}

/-! ## process -/

/-- The loop of `process`; `k` batches have gone before. -/
def feedSource (store : IStore (Client σ)) (visits : Nat → Visit) (source : Text) :
    Nat → FileSource → Nat → Client σ Status
  | 0, _, _ => fun _ => none
  | fuel + 1, src, k =>
    match src.next with
    | (.ok, batch, src') => do
      AggregateSink.consume store (visits k) batch source
      feedSource store visits source fuel src' (k + 1)
    | (st, _, _) => pure st

/-- `FileIngestor::process` up to the rename: the directory the file goes to, and none
when the ingestor is stopping.  Every batch takes a byte at least off what is left. -/
def process (store : IStore (Client σ)) (visits : Nat → Visit) (parser : IParser)
    (stopping : Bool) (filePath : Text) (map : Option Text) : Client σ (Option Dir) := do
  if stopping then
    return none
  let source := basenameOf filePath
  let resume ← AggregateSink.resumeAt store source
  let src := FileSource.make map parser resume
  let st ← feedSource store visits source (src.pos.length + 1) src 0
  return some (if st = .done then .done else .fail)

/-- The batches of a list, one call after the other. -/
def consumeAll (store : IStore (Client σ)) (visits : Nat → Visit) (source : Text) :
    Nat → List (List CdrRecord) → Client σ Unit
  | _, [] => pure ()
  | k, batch :: batches => do
    AggregateSink.consume store (visits k) batch source
    consumeAll store visits source (k + 1) batches

/-- Every line takes a byte at least. -/
theorem length_lines_le (text : Text) : (lines text).length ≤ text.length := by
  induction text with
  | nil => exact le_refl _
  | cons c text ih =>
    unfold lines
    split
    · exact Nat.succ_le_succ ih
    · split
      · exact Nat.succ_le_succ (Nat.zero_le _)
      · next l ls h =>
        rw [h] at ih
        exact Nat.le_succ_of_le ih

theorem FileSource.length_upcoming_le (src : FileSource) :
    src.upcoming.length ≤ src.pos.length :=
  le_trans (List.length_filter_le _ _)
    (le_trans (List.length_filterMap_le _ _) (length_lines_le src.pos))

/-- **The loop comes to an end**: it consumes batch after batch until the source is
drained. -/
theorem feedSource_batches (store : IStore (Client σ)) (visits : Nat → Visit) (source : Text)
    (fuel : Nat) {src : FileSource} (hf : src.failed = false)
    (hl : src.upcoming.length < fuel) (k : Nat) :
    ∃ batches : List (List CdrRecord), batches.flatten = src.upcoming ∧
      (∀ b ∈ batches, b.length ≤ kFileBatchSize) ∧
      feedSource store visits source fuel src k = (do
        consumeAll store visits source k batches
        return .done) := by
  induction fuel generalizing src k with
  | zero => omega
  | succ fuel ih =>
    unfold feedSource
    rcases next_cases hf with ⟨batch, src', hn, hne, hb, hup, hf', -⟩ | ⟨src', hn, hup⟩
    · have hpos := List.length_pos_iff.mpr hne
      rw [hup, List.length_append] at hl
      obtain ⟨batches, hflat, hsize, hrun⟩ := ih hf' (by omega) (k + 1)
      refine ⟨batch :: batches, ?_, List.forall_mem_cons.mpr ⟨hb, hsize⟩, ?_⟩
      · rw [List.flatten_cons, hflat, hup]
      · rw [hn]
        dsimp only
        rw [hrun, consumeAll, bind_assoc]
    · refine ⟨[], hup.symm, by simp, ?_⟩
      rw [hn, consumeAll, pure_bind]

theorem Ready.consumeAll {srv : Server σ} {w : World σ} (h : Ready w) (visits : Nat → Visit)
    (source : Text) (k : Nat) (batches : List (List CdrRecord)) :
    Smooth (consumeAll (redisStore srv) visits source k batches) w fun _ w' => Ready w' := by
  induction batches generalizing w k with
  | nil => exact Smooth.pure h
  | cons batch batches ih =>
    rw [CdrProcessor.consumeAll]
    exact (h.consume _ _ _).bind fun _ v hv => ih hv _

/-- **`process` comes to its end** on any file, when the store can be reached. -/
theorem Ready.process {srv : Server σ} {w : World σ} (h : Ready w) (visits : Nat → Visit)
    (parser : IParser) (stopping : Bool) (filePath : Text) (map : Option Text) :
    Smooth (process (redisStore srv) visits parser stopping filePath map) w
      fun _ w' => Ready w' := by
  unfold CdrProcessor.process
  split
  · exact Smooth.pure h
  · refine (h.resumeAt _).bind fun resume v hv => ?_
    refine Smooth.bind (P := fun _ w' => Ready w') ?_ fun st v' hv' => Smooth.pure hv'
    cases hf : (FileSource.make map parser resume).failed with
    | true =>
      unfold feedSource
      rw [next_failed hf]
      exact Smooth.pure hv
    | false =>
      obtain ⟨batches, -, -, hrun⟩ := feedSource_batches (redisStore srv) visits
        (basenameOf filePath) ((FileSource.make map parser resume).pos.length + 1) hf
        (Nat.lt_succ_of_le (FileSource.length_upcoming_le _)) 0
      rw [hrun]
      exact (hv.consumeAll _ _ _ _).bind fun _ v' hv' => Smooth.pure hv'

/-! ## The records field -/

/-- Where the number of all records is kept. -/
def recordsPlace : Place := (Counter.total .records).place

theorem amount_records (batch : List CdrRecord) :
    amount batch (.total .records) = batch.length := by
  induction batch with
  | nil => rfl
  | cons r batch ih =>
    have hr : adds r (.total .records) = 1 := by
      change totalAdds r .records = 1
      unfold totalAdds
      cases r.usageType <;> rfl
    rw [amount_cons, ih, hr, List.length_cons, Nat.add_comm]

/-- An increment of a total that leaves the signed range is refused. -/
theorem run_total (f : TotalField) (v : UInt64) (db : Db) :
    (redis.run ((Counter.total f).call v).command db).2.count (Counter.total f).place =
      if db.count (Counter.total f).place + v.toNat < int64Bound then
        db.count (Counter.total f).place + v.toNat
      else db.count (Counter.total f).place := by
  by_cases h : db.count (Counter.total f).place + v.toNat < int64Bound
  · obtain ⟨db', hr, hv⟩ := @runCommand_call db (.total f) v h
    rw [if_pos h, redis_run hr]
    unfold Db.count
    rw [hv, if_pos rfl]
    rfl
  · rw [if_neg h]
    have hr : runCommand ((Counter.total f).call v).command db = none := if_neg h
    rw [redis_run_refused hr]

/-- The writes behind the first do not meet the records field. -/
theorem later_writes_other (visit : Visit) (delta : Delta) (totals : Totals) :
    (∀ w ∈ (totalWrites totals).tail, recordsPlace ≠ w.1.place) ∧
      ∀ w ∈ scoreWrites visit delta ++ deltaWrites visit delta, recordsPlace ≠ w.1.place := by
  have hne : ∀ c : Counter, c ≠ .total .records → recordsPlace ≠ c.place :=
    fun c hc h => hc (place_injective h).symm
  constructor
  · intro w hw
    apply hne
    simp only [totalWrites, TotalField.all, List.map_cons, List.map_nil, List.tail_cons,
      List.mem_cons, List.not_mem_nil, or_false] at hw
    rcases hw with rfl | rfl | rfl | rfl | rfl | rfl | rfl | rfl | rfl | rfl | rfl | rfl | rfl <;>
      simp
  · intro w hw
    apply hne
    simp only [scoreWrites, deltaWrites, List.mem_append, List.mem_flatMap, List.mem_map] at hw
    rcases hw with (⟨e, -, b, -, rfl⟩ | ⟨e, -, b, -, rfl⟩) |
      ⟨e, -, f, -, rfl⟩ | ⟨e, -, f, -, rfl⟩ | ⟨e, -, f, -, rfl⟩ <;> simp

/-- A batch adds its length, unless that leaves the signed range; whether the other
counters have room for it makes no difference. -/
theorem run_records (c : ConsumeCall) (db : Db) (hb : c.batch.length < 2 ^ 64) :
    (c.run db).count recordsPlace =
      if db.count recordsPlace + c.batch.length < int64Bound then
        db.count recordsPlace + c.batch.length
      else db.count recordsPlace := by
  have hv : ((({} : Totals).addBatch c.batch).get .records).toNat = c.batch.length := by
    have h := @batchValue_toNat c.batch (.total .records) (by rwa [amount_records])
    rwa [amount_records] at h
  obtain ⟨htail, hrest⟩ :=
    later_writes_other c.visit (fold c.batch {}) (({} : Totals).addBatch c.batch)
  -- nothing but the first increment counts
  have hother : ∀ db, (runAll redis (((markCalls c.batch c.source ++ writeCalls
      (scoreWrites c.visit (fold c.batch {}) ++ deltaWrites c.visit (fold c.batch {})))).map
        Call.command) db).2.count recordsPlace = db.count recordsPlace := by
    intro db
    obtain ⟨db', hr, hc, -⟩ := markCalls_value c.batch c.source db
    unfold Db.count
    rw [List.map_append, runAll_append, runAll_writes_other _ _ hrest, hr]
    exact congrArg (Option.getD · 0) (hc (.total .records))
  have hfirst : ∀ db, (runAll redis ((writeCalls (totalWrites
      (({} : Totals).addBatch c.batch))).map Call.command) db).2.count recordsPlace =
        if db.count recordsPlace + c.batch.length < int64Bound then
          db.count recordsPlace + c.batch.length
        else db.count recordsPlace := by
    intro db
    have hcons : totalWrites (({} : Totals).addBatch c.batch) =
        [(.total .records, (({} : Totals).addBatch c.batch).get .records)] ++
          (totalWrites (({} : Totals).addBatch c.batch)).tail := rfl
    rw [hcons, writeCalls_append, List.map_append, runAll_append]
    refine (congrArg (Option.getD · 0) (runAll_writes_other _ _ htail)).trans ?_
    by_cases h0 : (({} : Totals).addBatch c.batch).get .records = 0
    · rw [h0] at hv ⊢
      rw [← hv]
      exact (ite_self (db.count recordsPlace)).symm
    · have hone : writeCalls [(.total .records, (({} : Totals).addBatch c.batch).get .records)] =
          [(Counter.total .records).call ((({} : Totals).addBatch c.batch).get .records)] := by
        simp [writeCalls, h0]
      rw [hone, ← hv]
      exact run_total .records _ db
  unfold ConsumeCall.run ConsumeCall.commands
  rw [consumeCalls_eq, List.map_append, runAll_append, hother, hfirst]

/-- Calls one after the other: the records field goes up by no more than the records in
them, and by all of them exactly when they fit. -/
theorem calls_records (calls : List ConsumeCall) (db : Db)
    (hb : ∀ c ∈ calls, c.batch.length < 2 ^ 64) :
    let n := (calls.map fun c => c.batch.length).sum
    let count' := (calls.foldl (fun db c => c.run db) db).count recordsPlace
    count' ≤ db.count recordsPlace + n ∧
      (count' = db.count recordsPlace + n ↔ n = 0 ∨ db.count recordsPlace + n < int64Bound) := by
  induction calls generalizing db with
  | nil => simp
  | cons c calls ih =>
    obtain ⟨hc, hcalls⟩ := List.forall_mem_cons.mp hb
    obtain ⟨hle, hiff⟩ := ih (c.run db) hcalls
    rw [run_records c db hc] at hle hiff
    simp only [List.foldl_cons, List.map_cons, List.sum_cons]
    split at hle
    · next hfits =>
      rw [if_pos hfits] at hiff
      omega
    · next hfull =>
      rw [if_neg hfull] at hiff
      omega

/-! ## A first reading -/

/-- The calls `consumeAll` makes. -/
def callsOf (visits : Nat → Visit) (source : Text) :
    Nat → List (List CdrRecord) → List ConsumeCall
  | _, [] => []
  | k, batch :: batches => ⟨visits k, batch, source⟩ :: callsOf visits source (k + 1) batches

theorem callsOf_batches (visits : Nat → Visit) (source : Text) (k : Nat)
    (batches : List (List CdrRecord)) :
    (callsOf visits source k batches).map ConsumeCall.batch = batches := by
  induction batches generalizing k with
  | nil => rfl
  | cons batch batches ih =>
    unfold callsOf
    rw [List.map_cons, ih]

theorem consumeAll_undisturbed {visits : Nat → Visit} {source : Text} {k : Nat}
    {batches : List (List CdrRecord)} {w w' : World Db} (hi : Idle w) (hu : Undisturbed w.script)
    (hx : consumeAll (redisStore redis) visits source k batches w = some ((), w')) :
    w'.host.state =
      (callsOf visits source k batches).foldl (fun db c => c.run db) w.host.state := by
  induction batches generalizing k w with
  | nil =>
    cases hx
    rfl
  | cons batch batches ih =>
    unfold consumeAll at hx
    obtain ⟨⟨⟩, v, hv, hx⟩ := bind_eq_some.mp hx
    obtain ⟨hiv, huv, hstate⟩ :=
      @consume_undisturbed ⟨visits k, batch, source⟩ w v hi hu hv
    rw [ih hiv huv hx, hstate]
    rfl

/-- An unknown source is read from the start. -/
theorem resumeAt_unknown {source : Text} {w w' : World Db} {r : UInt64} (hi : Idle w)
    (hu : Undisturbed w.script) (hm : w.host.state.value (markPlace source) = none)
    (hx : AggregateSink.resumeAt (redisStore redis) source w = some (r, w')) :
    r = 0 ∧ Idle w' ∧ Undisturbed w'.script ∧ w'.host.state = w.host.state := by
  obtain ⟨es, he, -, hstate, -, hcase⟩ := resumeAt_idle hi hx
  rw [he] at hu
  have hrest : Undisturbed w'.script := fun e hm => hu e (List.mem_append_right _ hm)
  rcases hcase with ⟨-, hidle, hr⟩ | ⟨⟨e, hmem, hf⟩, -⟩
  · have hlookup : (w.host.state.hash kProgressKey).lookup source = none := hm
    rw [redis_hget_absent hlookup] at hr
    exact ⟨hr, hidle, hrest, hstate⟩
  · rw [hu e (List.mem_append_left _ hmem)] at hf
    cases hf

/-- What a first reading comes to in the records field. -/
theorem first_reading {visits : Nat → Visit} {parser : IParser} {filePath data body : Text}
    {header : Fileheader} {w w' : World Db} {r : Option Dir} (hi : Idle w)
    (hu : Undisturbed w.script) (hh : parseHeader data = some (header, body))
    (hm : w.host.state.value (markPlace (basenameOf filePath)) = none)
    (hx : process (redisStore redis) visits parser false filePath (some data) w = some (r, w')) :
    let n := ((accepted parser data).filter fun r => r.sequence ≠ 0).length
    w'.host.state.count recordsPlace ≤ w.host.state.count recordsPlace + n ∧
      (w'.host.state.count recordsPlace = w.host.state.count recordsPlace + n ↔
        n = 0 ∨ w.host.state.count recordsPlace + n < int64Bound) := by
  unfold process at hx
  rw [if_neg (by decide)] at hx
  obtain ⟨resume, v, hres, hx⟩ := bind_eq_some.mp hx
  obtain ⟨rfl, hiv, huv, hv⟩ := resumeAt_unknown hi hu hm hres
  rw [make_of_header hh] at hx
  dsimp only at hx
  obtain ⟨st, v', hfeed, hx⟩ := bind_eq_some.mp hx
  cases hx
  obtain ⟨batches, hflat, hsize, hrun⟩ := @feedSource_batches _ (redisStore redis) visits
    (basenameOf filePath) (body.length + 1) { parser, resumeSeq := 0, pos := body } rfl
    (Nat.lt_succ_of_le (FileSource.length_upcoming_le _)) 0
  rw [hrun] at hfeed
  obtain ⟨⟨⟩, v'', hall, hfeed⟩ := bind_eq_some.mp hfeed
  cases hfeed
  have hlen : ((callsOf visits (basenameOf filePath) 0 batches).map fun c => c.batch.length).sum =
      ((accepted parser data).filter fun r => r.sequence ≠ 0).length := by
    have hmap : (callsOf visits (basenameOf filePath) 0 batches).map (fun c => c.batch.length) =
        batches.map List.length :=
      List.map_map.symm.trans (congrArg (List.map List.length) (callsOf_batches _ _ 0 batches))
    have haccepted : accepted parser data = records parser body := by
      unfold accepted
      rw [hh]
    rw [hmap, ← List.length_flatten, hflat, haccepted]
    exact congrArg List.length (past_zero parser body)
  have hcalls := calls_records (callsOf visits (basenameOf filePath) 0 batches) w.host.state (by
    intro c hc
    have hmem := List.mem_map_of_mem (f := ConsumeCall.batch) hc
    rw [callsOf_batches] at hmem
    exact lt_of_le_of_lt (hsize _ hmem) (by decide))
  rw [hlen] at hcalls
  rw [consumeAll_undisturbed hiv huv hall, hv]
  exact hcalls

/-- **A first reading counts every accepted line** exactly when none of them carries the
sequence 0, and their number fits, or there is none; an ingestor that is stopping reads
nothing.  That nothing disturbs the run also says that the worker is not inside the backoff
window of a connect that failed: there it would be given no connection. -/
theorem first_reading_counts_iff {visits : Nat → Visit} {parser : IParser} {stopping : Bool}
    {filePath data body : Text} {header : Fileheader} {w w' : World Db} {r : Option Dir}
    (hi : Idle w) (hu : Undisturbed w.script) (hh : parseHeader data = some (header, body))
    (hm : w.host.state.value (markPlace (basenameOf filePath)) = none)
    (hx : process (redisStore redis) visits parser stopping filePath (some data) w =
      some (r, w')) :
    w'.host.state.count recordsPlace =
        w.host.state.count recordsPlace + (accepted parser data).length ↔
      accepted parser data = [] ∨ (stopping = false ∧
        (∀ r ∈ accepted parser data, r.sequence ≠ 0) ∧
        w.host.state.count recordsPlace + (accepted parser data).length < int64Bound) := by
  cases stopping with
  | true =>
    cases hx
    simp
  | false =>
    obtain ⟨hle, hiff⟩ := first_reading hi hu hh hm hx
    have hfilter := List.length_filter_le (fun r => decide (r.sequence ≠ 0)) (accepted parser data)
    have hall : ((accepted parser data).filter fun r => r.sequence ≠ 0).length =
        (accepted parser data).length ↔ ∀ r ∈ accepted parser data, r.sequence ≠ 0 := by
      rw [List.length_filter_eq_length_iff]
      simp
    rw [← List.length_eq_zero_iff, ← hall]
    simp only [true_and]
    omega

/-- The file of one call is opened, asked for and counted on a connection made for it. -/
theorem oneCall_counted :
    ∃ r w', process (redisStore redis) (fun _ => .plain) (Parser.csvParser '|') false
        "process/a.cdr".toList (some oneCall) (World.start (askRun ++ landRun)) = some (r, w') ∧
      (w'.host.state.count recordsPlace =
          ({} : Db).count recordsPlace + (accepted (Parser.csvParser '|') oneCall).length ↔
        accepted (Parser.csvParser '|') oneCall = [] ∨ (false = false ∧
          (∀ r ∈ accepted (Parser.csvParser '|') oneCall, r.sequence ≠ 0) ∧
          ({} : Db).count recordsPlace + (accepted (Parser.csvParser '|') oneCall).length <
            int64Bound)) := by
  have hrun : (process (redisStore redis) (fun _ => .plain) (Parser.csvParser '|') false
      "process/a.cdr".toList (some oneCall) (World.start (askRun ++ landRun))).isSome = true := by
    decide +kernel
  have hh : parseHeader oneCall = some (⟨"csv".toList, 1⟩, oneCall.drop 10) := by decide +kernel
  obtain ⟨⟨r, w'⟩, hx⟩ := Option.isSome_iff_exists.mp hrun
  exact ⟨r, w', hx, first_reading_counts_iff (World.start_idle _)
    (undisturbed_of_all (by decide)) hh rfl hx⟩

/-- The call of `oneCall` under the sequence 0. -/
def zeroCall : Text := "CDR|csv|1\n0|1|3|MOC|1|01/02/2024|10:20:30|3|||0|2\n".toList

/-- A call under the sequence 0 is accepted, in a file no one has read before, and goes to
done uncounted. -/
theorem zeroCall_uncounted :
    (accepted (Parser.csvParser '|') zeroCall).length = 1 ∧ Undisturbed askRun ∧
      ({} : Db).value (markPlace (basenameOf "process/a.cdr".toList)) = none ∧
      ∃ w', process (redisStore redis) (fun _ => .plain) (Parser.csvParser '|') false
          "process/a.cdr".toList (some zeroCall) (World.start askRun) = some (some .done, w') ∧
        ¬ w'.host.state.count recordsPlace =
          ({} : Db).count recordsPlace + (accepted (Parser.csvParser '|') zeroCall).length := by
  have hlen : (accepted (Parser.csvParser '|') zeroCall).length = 1 := by decide +kernel
  have hrun : (process (redisStore redis) (fun _ => .plain) (Parser.csvParser '|') false
      "process/a.cdr".toList (some zeroCall) (World.start askRun)).map
        (fun p => (p.1, p.2.host.state.count recordsPlace)) = some (some .done, 0) := by
    decide +kernel
  obtain ⟨⟨r, w'⟩, hx, he⟩ := Option.map_eq_some_iff.mp hrun
  obtain ⟨rfl, hc⟩ := Prod.mk.inj he
  refine ⟨hlen, undisturbed_of_all (by decide), rfl, w', hx, ?_⟩
  rw [hc, hlen]
  decide

end CdrProcessor
