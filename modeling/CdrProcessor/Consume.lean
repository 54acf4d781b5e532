import CdrProcessor.Frame
import CdrProcessor.Landing

/-! `AggregateSink::consume` as one transaction: the calls a batch amounts to, and
whether they land whole or not at all. -/

namespace CdrProcessor

open Script RedisStore

/-! ## The calls of a batch -/

/-- The increments of the counters that are not 0. -/
def incrementCalls (l : List (Text × Text × UInt64)) : List Call :=
  (l.filter fun e => e.2.2 ≠ 0).map fun e => .increment e.1 e.2.1 e.2.2

def rankCalls (l : List (Text × Text × UInt64)) : List Call :=
  (l.filter fun e => e.2.2 ≠ 0).map fun e => .rank e.1 e.2.1 e.2.2

/-- The mark behind a batch, when its source is resumable. -/
def markCalls (batch : List CdrRecord) (source : Text) : List Call :=
  if source ≠ [] ∧ AggregateSink.highest batch ≠ 0 then
    [.mark source (AggregateSink.highest batch)]
  else []

/-- Everything `consume` sends to the store, in order. -/
def consumeCalls (visit : Visit) (batch : List CdrRecord) (source : Text) : List Call :=
  incrementCalls (AggregateWriter.totalCounters (({} : Totals).addBatch batch)) ++
    (markCalls batch source ++
      (rankCalls (RankWriter.scores visit (fold batch {})) ++
        incrementCalls (AggregateWriter.deltaCounters visit (fold batch {}))))

variable {σ : Type}

theorem runCalls_append {store : IStore (Client σ)} {cs cs' : List Call} {rs rs' : List Bool}
    {w v w' : World σ} (h : runCalls store cs w = some (rs, v))
    (h' : runCalls store cs' v = some (rs', w')) :
    runCalls store (cs ++ cs') w = some (rs ++ rs', w') := by
  induction cs generalizing w rs with
  | nil => cases h; exact h'
  | cons c cs ih =>
    unfold runCalls at h
    obtain ⟨r, u, hc, h⟩ := bind_eq_some.mp h
    obtain ⟨rs1, u', hcs, h⟩ := bind_eq_some.mp h
    cases h
    change runCalls store (c :: (cs ++ cs')) w = _
    unfold runCalls
    rw [bind_of_eq_some hc, bind_of_eq_some (ih hcs)]
    rfl

/-- A writer's walk over its counters makes one call for each that is not 0. -/
theorem addAll_calls {store : IStore (Client σ)} {add : Text → Text → UInt64 → Client σ Bool}
    {call : Text → Text → UInt64 → Call}
    (hadd : ∀ key field value,
      add key field value = if value = 0 then pure true else (call key field value).run store)
    {l : List (Text × Text × UInt64)} {ok b : Bool} {w w' : World σ}
    (h : addAll add l ok w = some (b, w')) :
    ∃ rs, runCalls store ((l.filter fun e => e.2.2 ≠ 0).map fun e => call e.1 e.2.1 e.2.2) w =
      some (rs, w') ∧ b = (rs.all id && ok) := by
  induction l generalizing w ok with
  | nil => cases h; exact ⟨[], rfl, rfl⟩
  | cons e l ih =>
    obtain ⟨key, field, value⟩ := e
    unfold addAll at h
    obtain ⟨added, v, ha, h⟩ := bind_eq_some.mp h
    rw [hadd] at ha
    obtain ⟨rs, hr, hb⟩ := ih h
    by_cases hv : value = 0
    · rw [if_pos hv] at ha
      cases ha
      refine ⟨rs, ?_, by simpa using hb⟩
      rw [List.filter_cons_of_neg (by simpa using hv)]
      exact hr
    · rw [if_neg hv] at ha
      refine ⟨added :: rs, ?_, ?_⟩
      · rw [List.filter_cons_of_pos (by simpa using hv), List.map_cons]
        unfold runCalls
        rw [bind_of_eq_some ha, bind_of_eq_some hr]
        rfl
      · rw [hb, List.all_cons]
        cases added <;> simp

/-! ## consume -/

/-- `fold` starts from cleared maps, whatever the delta held before. -/
theorem fold_cleared (batch : List CdrRecord) (out : Delta) : fold batch out = fold batch {} := rfl

/-- The state in which `consume` begins to write. -/
def folded (batch : List CdrRecord) (w : World σ) : World σ :=
  { w with delta := fold batch {}
           runTotals := w.runTotals.merge (({} : Totals).addBatch batch) }

/-- `consume` is the transaction over its calls, its results thrown away. -/
theorem consume_transaction {srv : Server σ} {visit : Visit} {batch : List CdrRecord}
    {source : Text} {w w' : World σ}
    (h : AggregateSink.consume (redisStore srv) visit batch source w = some ((), w')) :
    ∃ rs flushed, transaction (redisStore srv) (consumeCalls visit batch source)
        (folded batch w) = some ((rs, flushed), w') := by
  unfold AggregateSink.consume at h
  rw [modify_bind, modify_bind, fold_cleared] at h
  obtain ⟨b1, v1, h1, h⟩ := bind_eq_some.mp h
  have hadd : ∀ key field value, AggregateWriter.add (redisStore srv) key field value =
      if value = 0 then pure true else (Call.increment key field value).run (redisStore srv) :=
    fun _ _ _ => rfl
  have hrank : ∀ board member value, RankWriter.add (redisStore srv) board member value =
      if value = 0 then pure true else (Call.rank board member value).run (redisStore srv) :=
    fun _ _ _ => rfl
  obtain ⟨rs1, hr1, -⟩ := addAll_calls hadd h1
  -- the mark, when there is one
  have hmark : ∃ rs2 v2, runCalls (redisStore srv) (markCalls batch source) v1 = some (rs2, v2) ∧
      (do
        let delta := (← get).delta
        let _ ← RankWriter.write (redisStore srv) visit delta
        let _ ← AggregateWriter.writeDelta (redisStore srv) visit delta : Client σ Unit) v2 =
          some ((), w') := by
    unfold markCalls
    split at h
    · next hc =>
      obtain ⟨r, v2, hm, h⟩ := bind_eq_some.mp h
      rw [if_pos hc]
      refine ⟨[r], v2, ?_, h⟩
      unfold runCalls
      rw [bind_of_eq_some (show (Call.mark source _).run (redisStore srv) v1 = some (r, v2) from hm)]
      rfl
    · next hc =>
      rw [if_neg hc]
      exact ⟨[], v1, rfl, h⟩
  obtain ⟨rs2, v2, hr2, h⟩ := hmark
  have hr12 := runCalls_append hr1 hr2
  have hd : v2.delta = fold batch {} :=
    congrArg Prod.fst ((frame_sinkState srv).wires.runCalls _ _ _ _ hr12)
  rw [get_bind, hd] at h
  obtain ⟨b3, v3, h3, h⟩ := bind_eq_some.mp h
  obtain ⟨rs3, hr3, -⟩ := addAll_calls hrank h3
  obtain ⟨b4, v4, h4, h⟩ := bind_eq_some.mp h
  cases h
  unfold AggregateWriter.writeDelta at h4
  obtain ⟨ok, v5, h5, h4⟩ := bind_eq_some.mp h4
  obtain ⟨rs4, hr4, -⟩ := addAll_calls hadd h5
  obtain ⟨flushed, v6, hf, h4⟩ := bind_eq_some.mp h4
  cases h4
  have hall : runCalls (redisStore srv) (consumeCalls visit batch source) (folded batch w) =
      some (rs1 ++ (rs2 ++ (rs3 ++ rs4)), v5) :=
    runCalls_append hr1 (runCalls_append hr2 (runCalls_append hr3 hr4))
  refine ⟨rs1 ++ (rs2 ++ (rs3 ++ rs4)), flushed, ?_⟩
  unfold transaction
  rw [bind_of_eq_some hall, bind_of_eq_some hf]
  rfl

theorem Idle.folded {w : World σ} (hi : Idle w) (batch : List CdrRecord) :
    Idle (folded batch w) := ⟨hi.alive, hi.closed, hi.drained, hi.quiet⟩

/-! ## Whole or not at all -/

/-- The commands the server ran without an error in between, in order. -/
def committed (w w' : World σ) : List Command :=
  ((w'.host.ran.drop w.host.ran.length).filter Prod.snd).map Prod.fst

/-- The commands of a call that went out on its last connection. -/
def behind (cs : List Command) (es : List Event) : List Command :=
  cs.drop (cs.length + 1 - appends es)

/-- The server fails every one of these commands. -/
def Refused (cs : List Command) (db : Db) : Prop := ∀ c ∈ cs, runCommand c db = none

theorem committed_of_unmoved {srv : Server σ} {w w' : World σ}
    (h : Unmoved srv w.host w'.host) : committed w w' = [] := by
  unfold committed
  rw [h.ran, List.drop_length]
  rfl

/-- What a server that ran `t` committed of it. -/
theorem committed_of_closed {w w' : World Db} {h : Host Db} {t : List Command}
    (hm : h.multi = none) (hr : h.ran = w.host.ran) (hw : w'.host = closed redis t h) :
    committed w w' = ((runAll redis t h.state).1.filter Prod.snd).map Prod.fst := by
  unfold committed
  rw [hw, closed_redis t hm, hr, List.drop_left]

theorem filter_runAll_length (t : List Command) (db : Db) :
    (((runAll redis t db).1.filter Prod.snd).map Prod.fst).length ≤ t.length := by
  calc (((runAll redis t db).1.filter Prod.snd).map Prod.fst).length
      = ((runAll redis t db).1.filter Prod.snd).length := List.length_map _
    _ ≤ (runAll redis t db).1.length := List.length_filter_le _ _
    _ = t.length := by
        have hlen := congrArg List.length (@runAll_commands _ redis t db)
        rwa [List.length_map] at hlen

/-- All of it is committed when no command fails. -/
theorem filter_runAll_all_iff (t : List Command) (db : Db) :
    ((runAll redis t db).1.filter Prod.snd).map Prod.fst = t ↔ Succeeds redis t db := by
  have hcs := @runAll_commands _ redis t db
  have hs : Succeeds redis t db ↔ ∀ p ∈ (runAll redis t db).1, p.2 = true := by
    unfold Succeeds
    rw [queueAll_redis]
  rw [hs]
  constructor
  · intro h
    have hlen := congrArg List.length (h.trans hcs.symm)
    rw [List.length_map, List.length_map] at hlen
    exact List.length_filter_eq_length_iff.mp hlen
  · intro h
    rw [List.filter_eq_self.mpr h]
    exact hcs

/-- None of it is when every command fails: a failed command changes nothing. -/
theorem filter_runAll_nil_iff (t : List Command) (db : Db) :
    ((runAll redis t db).1.filter Prod.snd).map Prod.fst = [] ↔ Refused t db := by
  induction t generalizing db with
  | nil => simp [runAll, Refused]
  | cons c t ih =>
    unfold Refused at ih ⊢
    rw [List.forall_mem_cons]
    cases hc : runCommand c db with
    | some db' => simp [runAll, redis_run hc]
    | none =>
      rw [← ih db]
      simp [runAll, redis_run_refused hc]

theorem behind_whole {cs : List Command} {es : List Event} (h : appends es = cs.length + 1) :
    behind cs es = cs := by
  unfold behind
  rw [h, Nat.sub_self, List.drop_zero]

theorem behind_suffix {cs t : List Command} {es : List Event} (ht : t <:+ cs)
    (h : appends es = t.length + 1) : behind cs es = t := by
  unfold behind
  rw [h, Nat.add_sub_add_right]
  exact (List.suffix_iff_eq_drop.mp ht).symm

/-- **A batch lands whole or not at all**, exactly when its EXEC, if the server gets it,
either finds every command of the call queued and fails none of them, or fails all it finds:
those behind the last connection made within the call. -/
theorem consume_all_or_none_iff {visit : Visit} {batch : List CdrRecord} {source : Text}
    {w w' : World Db} (hi : Idle w)
    (hx : AggregateSink.consume (redisStore redis) visit batch source w = some ((), w'))
    (hs : w'.script = []) :
    (committed w w' = (consumeCalls visit batch source).map Call.command ∨
        committed w w' = []) ↔
      (Lands w.script →
        (¬ Reopened w.script ∧
            Succeeds redis ((consumeCalls visit batch source).map Call.command) w.host.state) ∨
          Refused (behind ((consumeCalls visit batch source).map Call.command) w.script)
            w.host.state) := by
  obtain ⟨rs, flushed, ht⟩ := consume_transaction hx
  obtain ⟨es, he, hl⟩ := transaction_landing (hi.folded batch) ht
  rw [hs, List.append_nil] at he
  have he' : w.script = es := he
  rw [he']
  by_cases hlands : Lands es
  swap
  · have hnone : committed w w' = [] := committed_of_unmoved (hl.none hlands)
    exact ⟨fun _ h => absurd h hlands, fun _ => .inr hnone⟩
  by_cases hr : Reopened es
  · -- the EXEC ran what came behind the last connection, and not all of the call did
    obtain ⟨h, t, hm, hu, -, hsuf, hlt, hw, ha⟩ := hl.part hlands hr
    have hcm := committed_of_closed (w := w) hm hu.ran hw
    have hstate : h.state = w.host.state := hu.state quiet_redis
    rw [hstate] at hcm
    rw [behind_suffix hsuf ha, hcm, filter_runAll_nil_iff]
    have hne : ((runAll redis t w.host.state).1.filter Prod.snd).map Prod.fst ≠
        (consumeCalls visit batch source).map Call.command := by
      intro hall
      have hle := filter_runAll_length t w.host.state
      rw [hall] at hle
      exact absurd hlt (Nat.not_lt.mpr hle)
    constructor
    · intro h _
      exact .inr (h.resolve_left hne)
    · intro h
      exact .inr ((h hlands).resolve_left fun hw => hw.1 hr)
  · have hcm : committed w w' = _ :=
      committed_of_closed (h := w.host.fresh) rfl rfl (hl.whole hlands hr).2
    rw [behind_whole (hl.full hlands hr), hcm, filter_runAll_all_iff, filter_runAll_nil_iff]
    constructor
    · intro h _
      exact h.imp_left fun hall => ⟨hr, hall⟩
    · intro h
      exact (h hlands).imp_left fun hall => hall.2

/-- One outgoing call of three seconds from 1 to 2. -/
def shortCall : CdrRecord where
  sequence := 1
  subscriberImsi := 0
  subscriberImei := []
  usageType := .moc
  subscriberMSISDN := 1
  callTime := 0
  duration := 3
  bytesReceived := 0
  bytesTransmitted := 0
  secondPartyIMSI := 0
  secondPartyMSISDN := 2

/-- Nine commands go out at once and are answered. -/
def smoothRun : List Event :=
  .connect true :: (List.replicate 10 (.append true) ++ .exec true :: List.replicate 11 .reply)

/-- The first append breaks the connection, the next one is made again. -/
def brokenRun : List Event :=
  [.connect true, .append true, .append false, .connect true] ++
    (List.replicate 9 (.append true) ++ .exec true :: List.replicate 10 .reply)

theorem consume_all_or_none_iff_smooth :
    ∃ w', AggregateSink.consume (redisStore redis) .plain [shortCall] [] (World.start smoothRun) =
        some ((), w') ∧ w'.script = [] ∧
      ((committed (World.start smoothRun) w' =
            (consumeCalls .plain [shortCall] []).map Call.command ∨
          committed (World.start smoothRun) w' = []) ↔
        (Lands (World.start smoothRun).script →
          (¬ Reopened (World.start smoothRun).script ∧
              Succeeds redis ((consumeCalls .plain [shortCall] []).map Call.command)
                (World.start smoothRun).host.state) ∨
            Refused (behind ((consumeCalls .plain [shortCall] []).map Call.command)
              (World.start smoothRun).script) (World.start smoothRun).host.state)) := by
  have hrun : (AggregateSink.consume (redisStore redis) .plain [shortCall] []
      (World.start smoothRun)).map (fun p => p.2.script) = some [] := by
    decide +kernel
  obtain ⟨⟨u, w'⟩, hx, hs⟩ := Option.map_eq_some_iff.mp hrun
  exact ⟨w', hx, hs, consume_all_or_none_iff (World.start_idle smoothRun) hx hs⟩

/-- A failure on the first append leaves the eight commands behind it committed. -/
theorem consume_lands_in_part :
    ∃ w', AggregateSink.consume (redisStore redis) .plain [shortCall] [] (World.start brokenRun) =
        some ((), w') ∧ w'.script = [] ∧
      ¬ (committed (World.start brokenRun) w' =
            (consumeCalls .plain [shortCall] []).map Call.command ∨
          committed (World.start brokenRun) w' = []) := by
  have hrun : (AggregateSink.consume (redisStore redis) .plain [shortCall] []
      (World.start brokenRun)).map
        (fun p => (p.2.script, (committed (World.start brokenRun) p.2).length)) = some ([], 8) := by
    decide +kernel
  obtain ⟨⟨u, w'⟩, hx, he⟩ := Option.map_eq_some_iff.mp hrun
  obtain ⟨hs, hc⟩ := Prod.mk.inj he
  refine ⟨w', hx, hs, ?_⟩
  rintro (h | h)
  · rw [h] at hc
    revert hc
    decide +kernel
  · rw [h] at hc
    cases hc

/-! ## A visit to the sink -/

theorem frame_lives_alive {w w' : World Db} (h : Lives w w') (ha : w.alive = true)
    (hs : w'.script = []) : w'.alive = !w.script.any Event.isKill := by
  obtain ⟨es, he, hw⟩ := h
  rw [hs, List.append_nil] at he
  rw [hw, ha, he, Bool.true_and]

/-- What the server has run of `cs` for a thread, read off the events it met. -/
structure Visited (cs : List Command) (script : List Event) (db db' : Db)
    (ran : List (Command × Bool)) : Prop where
  whole : Lands script → ¬ Reopened script → (ran, db') = runAll redis cs db
  part : Lands script → Reopened script →
    ∃ t, t.length < cs.length ∧ (ran, db') = runAll redis t db
  none : ¬ Lands script → ran = [] ∧ db' = db
  quiet : Undisturbed script → cs ≠ [] → Lands script

/-- Commands that get through on one connection are all run, so some of them are. -/
theorem Visited.ran_ne_nil {cs : List Command} {script : List Event} {db db' : Db}
    {ran : List (Command × Bool)} (h : Visited cs script db db' ran) (hl : Lands script)
    (hr : ¬ Reopened script) (hc : cs ≠ []) : ran ≠ [] := by
  rintro rfl
  have hmap := @runAll_commands _ redis cs db
  rw [← h.whole hl hr] at hmap
  exact hc hmap.symm

/-- Whatever happened, the server ran some commands one behind the other. -/
theorem Visited.run {cs : List Command} {script : List Event} {db db' : Db}
    {ran : List (Command × Bool)} (h : Visited cs script db db' ran) :
    ∃ t, (ran, db') = runAll redis t db := by
  by_cases hl : Lands script
  · by_cases hr : Reopened script
    · obtain ⟨t, -, ht⟩ := h.part hl hr
      exact ⟨t, ht⟩
    · exact ⟨cs, h.whole hl hr⟩
  · obtain ⟨rfl, rfl⟩ := h.none hl
    exact ⟨[], rfl⟩

theorem consume_visited {visit : Visit} {batch : List CdrRecord} {source : Text}
    {w w' : World Db} (hi : Idle w) (hr : w.host.ran = [])
    (hx : AggregateSink.consume (redisStore redis) visit batch source w = some ((), w'))
    (hs : w'.script = []) :
    (Idle w' ∨ Dead w') ∧ w'.alive = !w.script.any Event.isKill ∧
      Visited ((consumeCalls visit batch source).map Call.command) w.script w.host.state
        w'.host.state w'.host.ran := by
  obtain ⟨rs, flushed, ht⟩ := consume_transaction hx
  obtain ⟨es, he, hl⟩ := transaction_landing (hi.folded batch) ht
  have he' : w.script = es := by
    rw [hs, List.append_nil] at he
    exact he
  have hlives := (frame_lives redis).wires.transaction _ _ _ _ ht
  refine ⟨hl.state, ?_, ?_⟩
  · exact frame_lives_alive (w := folded batch w) hlives hi.alive hs
  · rw [he']
    refine ⟨?_, ?_, ?_, fun hu hc => (hl.quiet hu hc).1⟩
    · intro hlands hre
      have hw := (hl.whole hlands hre).2
      rw [closed_redis _ rfl] at hw
      rw [hw]
      change (w.host.ran ++ _, _) = _
      rw [hr]
      rfl
    · intro hlands hre
      obtain ⟨h, t, hm, hu, -, -, hlt, hw, -⟩ := hl.part hlands hre
      have hran : h.ran = [] := hu.ran.trans hr
      have hstate : h.state = w.host.state := hu.state quiet_redis
      rw [closed_redis t hm, hran, List.nil_append, hstate] at hw
      exact ⟨t, hlt, by rw [hw]⟩
    · intro hn
      have hu := hl.none hn
      exact ⟨hu.ran.trans hr, hu.state quiet_redis⟩

/-- A batch whose EXEC gets through, on the connection it began on, and of which the server
fails nothing, is run to the last command. -/
theorem Visited.all_ran {calls : List Call} {script : List Event} {db db' : Db}
    {ran : List (Command × Bool)} (h : Visited (calls.map Call.command) script db db' ran)
    (hl : Lands script) (hr : ¬ Reopened script)
    (hs : Succeeds redis (calls.map Call.command) db) :
    ran = calls.map fun c => (c.command, true) := by
  have hran : ran = (runAll redis (calls.map Call.command) db).1 :=
    congrArg Prod.fst (h.whole hl hr)
  unfold Succeeds at hs
  rw [queueAll_redis, ← hran] at hs
  have hmap : (calls.map fun c => (c.command, true)) =
      (calls.map Call.command).map fun c => (c, true) := by simp
  rw [hmap]
  refine (ran_eq_iff ?_).mpr hs
  rw [hran]
  exact runAll_commands _ _

/-- Everything was run without an error exactly when the EXEC got through, on the
connection the batch began on, and the server failed none of it. -/
theorem Visited.whole_iff {calls : List Call} {script : List Event} {db db' : Db}
    {ran : List (Command × Bool)} (h : Visited (calls.map Call.command) script db db' ran)
    (hc : calls ≠ []) : (ran = calls.map fun c => (c.command, true)) ↔
      Lands script ∧ ¬ Reopened script ∧ Succeeds redis (calls.map Call.command) db := by
  refine ⟨fun hran => ?_, fun ⟨hl, hr, hs⟩ => h.all_ran hl hr hs⟩
  have hl : Lands script := by
    by_contra hn
    rw [(h.none hn).1] at hran
    exact hc (List.map_eq_nil_iff.mp hran.symm)
  have hr : ¬ Reopened script := by
    intro hre
    obtain ⟨t, hlt, ht⟩ := h.part hl hre
    have hlen := congrArg List.length (@runAll_commands _ redis t db)
    rw [← ht, hran] at hlen
    simp only [List.length_map] at hlen hlt
    omega
  refine ⟨hl, hr, ?_⟩
  unfold Succeeds
  rw [queueAll_redis, ← congrArg Prod.fst (h.whole hl hr), hran]
  intro p hp
  obtain ⟨c, -, rfl⟩ := List.mem_map.mp hp
  rfl

end CdrProcessor
