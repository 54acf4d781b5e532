import CdrProcessor.Owed
import CdrProcessor.RabbitTags

/-!
From the queue to the answers: whatever the broker, the connections and the process do, the
gateway sends what the deliveries that were counted come to, each once, and none is acked that
has a record and was not.
-/

namespace CdrProcessor

variable {parser : IParser} {s s' : Rabbit}

/-- The server ran all of it, whether the processor heard of it or not. -/
def Handover.landed (h : Handover) : Bool := h.ran.map Prod.fst = h.calls.map Call.command

/-- The deliveries that were counted. -/
def Rabbit.counted (s : Rabbit) : List Delivery :=
  (s.log.filter Handover.landed).flatMap Handover.deliveries

/-- What the records in them come to. -/
def Rabbit.ledger (parser : IParser) (s : Rabbit) : Ledger :=
  amount (s.counted.filterMap fun d => parser d.body)

/-- No batch lands in part, and nobody else writes to the store. -/
def Carried : RabbitAct → Prop
  | .consume _ _ script => ¬ (Reopened script ∧ Lands script)
  | .others _ => False
  | _ => True

/-! ## The batch of a consumer -/

/-- As long as a batch is to be handed over, it is the records of what was read. -/
def Consumer.Matched (parser : IParser) (c : Consumer) : Prop :=
  c.stage = .reading ∨ c.stage = .full → c.read.filterMap (fun d => parser d.body) = c.batch

/-- A consumer that has nothing to hand over. -/
theorem Consumer.matched_of_stage {c : Consumer} (hr : c.stage ≠ .reading) (hf : c.stage ≠ .full) :
    c.Matched parser := by
  rintro (h | h)
  · exact absurd h hr
  · exact absurd h hf

/-- Nothing is asked of the channel. -/
theorem Consumer.Matched.rewired {c : Consumer} (h : c.Matched parser) (channel : Channel) :
    ({ c with channel } : Consumer).Matched parser := h

theorem Consumer.Matched.turn {c c' : Consumer} {stopping : Bool}
    (ht : c.turn stopping = some c') : c'.Matched parser := by
  obtain ⟨-, rfl | rfl⟩ := Consumer.turn_cases ht
  · exact matched_of_stage (by simp) (by simp)
  · exact fun _ => rfl

theorem Consumer.Matched.message {c c' : Consumer} (h : c.Matched parser)
    (hm : c.message parser = some c') : c'.Matched parser := by
  obtain ⟨hst, d, unread, -, rfl⟩ := Consumer.message_cases hm
  intro _
  have hbatch := h (.inl hst)
  dsimp only
  unfold RabbitSource.message
  cases hp : parser d.body with
  | none => simpa using hbatch
  | some record => simp [hbatch, hp]

theorem Consumer.Matched.timeout {c c' : Consumer} (h : c.Matched parser)
    (ht : c.timeout = some c') : c'.Matched parser := by
  obtain ⟨hst, rfl⟩ := Consumer.timeout_cases ht
  exact fun _ => h (.inl hst)

theorem matched_set (h : ∀ i, (s.consumers i).Matched parser) {i : Nat} {c : Consumer}
    (hc : c.Matched parser) (j : Nat) : ((s.set i c).consumers j).Matched parser := by
  change (Function.update s.consumers i c j).Matched parser
  by_cases hj : j = i
  · subst hj
    rwa [Function.update_self]
  · rw [Function.update_of_ne hj]
    exact h j

theorem matched_step {a : RabbitAct} (h : ∀ i, (s.consumers i).Matched parser)
    (hidle : ∀ i, (s.consumers i).Idle) (hs : rabbitStep parser s a = some s') (j : Nat) :
    (s'.consumers j).Matched parser := by
  cases a with
  | opens i up =>
    obtain ⟨hst, rfl | rfl⟩ := Rabbit.opens_cases hs
    · exact matched_set h ((h i).rewired _) j
    · exact matched_set h (Consumer.matched_of_stage (by simp) (by simp)) j
  | turn i =>
    obtain ⟨c, hc, rfl⟩ := Option.map_eq_some_iff.mp hs
    exact matched_set h (.turn hc) j
  | push i body =>
    obtain ⟨channel, -, rfl⟩ := Option.map_eq_some_iff.mp hs
    exact matched_set h ((h i).rewired _) j
  | cut i =>
    cases hs
    exact matched_set h ((h i).rewired _) j
  | message i =>
    obtain ⟨c, hc, rfl⟩ := Option.map_eq_some_iff.mp hs
    exact matched_set h ((h i).message hc) j
  | timeout i =>
    obtain ⟨c, hc, rfl⟩ := Option.map_eq_some_iff.mp hs
    exact matched_set h ((h i).timeout hc) j
  | fail i =>
    obtain ⟨-, rfl⟩ := Rabbit.fail_cases hs
    exact matched_set h (Consumer.matched_of_stage (by simp) (by simp)) j
  | consume i visit script =>
    obtain ⟨-, db, ran, -, ⟨-, rfl⟩ | ⟨-, link, queued, openBatch, delta, runTotals, -, rfl⟩⟩ :=
      Rabbit.consume_cases (hidle i) hs
    · exact Consumer.matched_of_stage (by simp [Rabbit.crashed]) (by simp [Rabbit.crashed])
    · exact matched_set h (Consumer.matched_of_stage (by simp) (by simp)) j
  | ack i ok =>
    obtain ⟨-, ⟨-, rfl⟩ | ⟨-, rfl⟩⟩ := Rabbit.ack_cases hs
    · exact matched_set h (Consumer.matched_of_stage (by simp) (by simp)) j
    · exact matched_set h (Consumer.matched_of_stage (by simp) (by simp)) j
  | others db | stop =>
    cases hs
    exact h j
  | leave i =>
    obtain rfl := Rabbit.leave_cases hs
    exact matched_set h (Consumer.matched_of_stage (by simp) (by simp)) j
  | crash =>
    cases hs
    exact Consumer.matched_of_stage (by simp [Rabbit.crashed]) (by simp [Rabbit.crashed])

/-! ## The store -/

/-- A batch that does not land in part is in the store, or left no trace there. -/
theorem Visited.landed {call : ConsumeCall} {script : List Event} {db db' : Db}
    {ran : List (Command × Bool)} (h : Visited call.commands script db db' ran)
    (hpart : ¬ (Reopened script ∧ Lands script)) :
    (ran.map Prod.fst = call.commands ∧ db' = call.run db) ∨
      ran.map Prod.fst ≠ call.commands ∧ db' = db := by
  by_cases hl : Lands script
  · have hrun := h.whole hl fun hre => hpart ⟨hre, hl⟩
    have hran : ran = (runAll redis call.commands db).1 := congrArg Prod.fst hrun
    refine .inl ⟨?_, congrArg Prod.snd hrun⟩
    rw [hran]
    exact runAll_commands _ _
  · obtain ⟨rfl, hdb⟩ := h.none hl
    by_cases hc : call.commands = []
    · refine .inl ⟨hc.symm, hdb.trans ?_⟩
      unfold ConsumeCall.run
      rw [hc]
      rfl
    · exact .inr ⟨Ne.symm hc, hdb⟩

/-- The database is what the calls that got through leave, and their records are those of the
deliveries that were counted. -/
structure Queued (parser : IParser) (s : Rabbit) : Prop where
  steered : Steered parser s
  matched : ∀ i, (s.consumers i).Matched parser
  counted : ∃ calls, s.db = consumed calls ∧
    recordsOf calls = s.counted.filterMap fun d => parser d.body

theorem Queued.initial (parser : IParser) : Queued parser (Rabbit.initial {}) where
  steered := Steered.initial parser {}
  matched _ := Consumer.matched_of_stage (by simp [Rabbit.initial]) (by simp [Rabbit.initial])
  counted := ⟨[], rfl, rfl⟩

/-- Only a visit to the sink gets to the store, or a client of its own. -/
theorem rabbit_quiet {a : RabbitAct} (hs : rabbitStep parser s a = some s') :
    (s'.db = s.db ∧ s'.log = s.log) ∨ (∃ db, a = .others db) ∨
      ∃ i visit script, a = .consume i visit script := by
  cases a with
  | opens i up =>
    obtain ⟨-, rfl | rfl⟩ := Rabbit.opens_cases hs <;> exact .inl ⟨rfl, rfl⟩
  | turn i | push i body | message i | timeout i =>
    obtain ⟨c, -, rfl⟩ := Option.map_eq_some_iff.mp hs
    exact .inl ⟨rfl, rfl⟩
  | cut i | stop | crash =>
    cases hs
    exact .inl ⟨rfl, rfl⟩
  | fail i =>
    obtain ⟨-, rfl⟩ := Rabbit.fail_cases hs
    exact .inl ⟨rfl, rfl⟩
  | leave i =>
    obtain rfl := Rabbit.leave_cases hs
    exact .inl ⟨rfl, rfl⟩
  | ack i ok =>
    obtain ⟨-, ⟨-, rfl⟩ | ⟨-, rfl⟩⟩ := Rabbit.ack_cases hs <;> exact .inl ⟨rfl, rfl⟩
  | others db => exact .inr (.inl ⟨db, rfl⟩)
  | consume i visit script => exact .inr (.inr ⟨i, visit, script, rfl⟩)

theorem counted_append {e : Handover} (hlog : s'.log = s.log ++ [e]) :
    s'.counted = s.counted ++ if e.landed then e.deliveries else [] := by
  unfold Rabbit.counted
  rw [hlog, List.filter_append, List.flatMap_append]
  cases he : e.landed <;> simp [he]

/-- What a visit to the sink leaves, also of a process that dies in it. -/
theorem Rabbit.consume_left {i : Nat} {visit : Visit} {script : List Event}
    (hi : (s.consumers i).Idle) (hs : s.consume i visit script = some s') :
    (s.consumers i).stage = .full ∧ ∃ e : Handover, s'.log = s.log ++ [e] ∧
      e.deliveries = (s.consumers i).read ∧
      e.calls = consumeCalls visit (s.consumers i).batch [] ∧
      Visited (e.calls.map Call.command) script s.db s'.db e.ran := by
  obtain ⟨hst, db, ran, hv, ⟨-, rfl⟩ | ⟨-, link, queued, openBatch, delta, runTotals, -, rfl⟩⟩ :=
    Rabbit.consume_cases hi hs
  · exact ⟨hst, _, rfl, rfl, rfl, hv⟩
  · exact ⟨hst, _, rfl, rfl, rfl, hv⟩

theorem Queued.step {a : RabbitAct} (h : Queued parser s) (ha : Carried a)
    (hs : rabbitStep parser s a = some s') : Queued parser s' := by
  refine ⟨h.steered.step hs, matched_step h.matched h.steered.idle hs, ?_⟩
  obtain ⟨calls, hdb, hrecords⟩ := h.counted
  rcases rabbit_quiet hs with ⟨hdb', hlog⟩ | ⟨db, rfl⟩ | ⟨i, visit, script, rfl⟩
  · refine ⟨calls, hdb'.trans hdb, ?_⟩
    unfold Rabbit.counted at hrecords ⊢
    rw [hlog, hrecords]
  · exact absurd ha id
  · obtain ⟨hst, e, hlog, hread, hcalls, hv⟩ := Rabbit.consume_left (h.steered.idle i) hs
    have hbatch := h.matched i (.inr hst)
    rw [counted_append hlog]
    let call : ConsumeCall := ⟨visit, (s.consumers i).batch, []⟩
    have hcommands : e.calls.map Call.command = call.commands := by rw [hcalls]; rfl
    have hlanded : e.landed = true ↔ e.ran.map Prod.fst = call.commands := by
      rw [← hcommands]
      exact decide_eq_true_iff
    rw [hcommands] at hv
    rcases hv.landed ha with ⟨hran, hrun⟩ | ⟨hran, hrun⟩
    · refine ⟨calls ++ [call], ?_, ?_⟩
      · unfold consumed at hdb ⊢
        rw [hrun, hdb, List.foldl_append]
        rfl
      · rw [if_pos (hlanded.mpr hran), hread, List.filterMap_append, hbatch, ← hrecords]
        simp [recordsOf, call]
    · refine ⟨calls, hrun.trans hdb, ?_⟩
      rw [if_neg (fun hl => hran (hlanded.mp hl)), List.append_nil]
      exact hrecords

/-! ## Whole runs -/

theorem Queued.run {acts : List RabbitAct}
    (hr : Run (rabbitStep parser) (fun _ => Carried) (Rabbit.initial {}) acts s) : Queued parser s :=
  hr.invariant (fun _ _ _ hi ha hs => hi.step ha hs) (.initial parser)

/-- What was saved whole was counted. -/
theorem Saved.counted {d : Delivery} {n : Nat} (h : Saved parser (s.log.take n) d) :
    d ∈ s.counted := by
  obtain ⟨e, he, hwhole, hd, -⟩ := h
  refine List.mem_flatMap.mpr ⟨e, List.mem_filter.mpr ⟨List.mem_of_mem_take he, ?_⟩, hd⟩
  have hran : e.ran = e.calls.map fun c => (c.command, true) := of_decide_eq_true hwhole
  exact decide_eq_true (by simp [hran])

/-- What is checked of a step. -/
def carried (s : Rabbit) : RabbitAct → Bool
  | .others _ => false
  | .consume i visit script => script.all (fun e => !e.fails) && brings s (.consume i visit script)
  | _ => true

end CdrProcessor
