import CdrProcessor.Sink
import CdrProcessor.Transaction

/-! What the server has run once a transaction is over: whether a flush that
succeeded means what it says, and whether a batch lands whole or not at all. -/

namespace CdrProcessor

open Script RedisStore

variable {σ : Type} {srv : Server σ}

/-! ## A transaction on the server -/

/-- Whether every command of a list is queued, and the state that leaves. -/
def queueAll (srv : Server σ) : List Command → σ → Bool × σ
  | [], s => (true, s)
  | c :: cs, s =>
    let r := srv.queue c s
    let rest := queueAll srv cs r.2
    (r.1 && rest.1, rest.2)

theorem serveAll_queue (cs : List Command) (h : Host σ) (q : List Command)
    (hq : h.multi = some q) :
    clean (replies srv (cs.map .command) h) = (queueAll srv cs h.state).1 ∧
    ∃ q', serveAll srv (cs.map .command) h =
        { h with state := (queueAll srv cs h.state).2, multi := some q',
                 dirty := h.dirty || !(queueAll srv cs h.state).1 } ∧
      ((queueAll srv cs h.state).1 = true → q' = q ++ cs) := by
  induction cs generalizing h q with
  | nil => exact ⟨rfl, q, by simp [queueAll, ← hq], by simp⟩
  | cons c cs ih =>
    simp only [List.map_cons, replies, clean_cons, serveAll_cons, queueAll]
    cases hr : (srv.queue c h.state).1 with
    | true =>
      have hs : serve srv (.command c) h = (.status,
          { h with state := (srv.queue c h.state).2, multi := some (q ++ [c]) }) := by
        unfold serve; rw [hq]; dsimp only; rw [if_pos hr]
      rw [hs]
      obtain ⟨hc, q', he, hq'⟩ :=
        ih { h with state := (srv.queue c h.state).2, multi := some (q ++ [c]) } (q ++ [c]) rfl
      exact ⟨by simpa [Reply.isError] using hc, q', by simpa using he,
        fun hall => by simpa using hq' (by simpa using hall)⟩
    | false =>
      have hs : serve srv (.command c) h = (.error,
          { h with state := (srv.queue c h.state).2, multi := some q, dirty := true }) := by
        unfold serve; rw [hq]; dsimp only; rw [if_neg (by simp [hr])]
      rw [hs]
      obtain ⟨-, q', he, -⟩ :=
        ih { h with state := (srv.queue c h.state).2, multi := some q, dirty := true } q rfl
      exact ⟨by simp [Reply.isError], q', by simpa using he, by simp⟩

/-- What EXEC does with a queue that was refused nothing, and with one that was. -/
theorem closed_eq (cs : List Command) {h : Host σ} (hm : h.multi = none) :
    closed srv cs h =
      if (queueAll srv cs h.state).1 then
        { state := (runAll srv cs (queueAll srv cs h.state).2).2
          ran := h.ran ++ (runAll srv cs (queueAll srv cs h.state).2).1 }
      else { state := (queueAll srv cs h.state).2, ran := h.ran } := by
  have hs : (serve srv .multi h).2 = { h with multi := some [], dirty := false } := by
    unfold serve; rw [hm]
  have hqueue := @serveAll_queue _ srv cs { h with multi := some [], dirty := false } [] rfl
  obtain ⟨-, q', he, hq⟩ := hqueue
  unfold closed opening
  rw [serveAll_append, serveAll_cons srv .multi, hs, he]
  cases hall : (queueAll srv cs h.state).1 with
  | true =>
    have hq' : q' = cs := by simpa using hq hall
    subst hq'
    simp [serve]
  | false => simp [serve]

/-- The replies are all good when the whole queue was taken: an error of a command
inside EXEC is not among them. -/
theorem clean_closed (cs : List Command) {h : Host σ} (hm : h.multi = none) :
    clean (replies srv (opening cs ++ [.exec]) h) = (queueAll srv cs h.state).1 := by
  have hs : serve srv .multi h = (.status, { h with multi := some [], dirty := false }) := by
    unfold serve; rw [hm]
  have hqueue := @serveAll_queue _ srv cs { h with multi := some [], dirty := false } [] rfl
  obtain ⟨hc, q', he, -⟩ := hqueue
  unfold opening
  rw [replies_append, clean_append, replies, clean_cons, serveAll_cons, hs, hc, he]
  cases hall : (queueAll srv cs h.state).1 with
  | true => simp [replies, serve, Reply.isError]
  | false => simp

theorem runAll_commands (cs : List Command) (s : σ) : (runAll srv cs s).1.map Prod.fst = cs := by
  induction cs generalizing s with
  | nil => rfl
  | cons c cs ih => simp [runAll, ih]

theorem ran_eq_iff {ran : List (Command × Bool)} {cs : List Command}
    (h : ran.map Prod.fst = cs) :
    ran = cs.map (fun c => (c, true)) ↔ ∀ p ∈ ran, p.2 = true := by
  subst h
  induction ran with
  | nil => simp
  | cons p ran ih =>
    rw [List.map_cons, List.map_cons, List.cons.injEq, ih, List.forall_mem_cons, Prod.ext_iff]
    simp

theorem queueAll_redis (cs : List Command) (db : Db) : queueAll redis cs db = (true, db) := by
  induction cs with
  | nil => rfl
  | cons c cs ih =>
    change (true && (queueAll redis cs db).1, (queueAll redis cs db).2) = _
    rw [ih]
    rfl

theorem quiet_redis : Quiet redis := fun _ _ => rfl

/-- The documented server queues everything, and runs all it queued. -/
theorem closed_redis (cs : List Command) {h : Host Db} (hm : h.multi = none) :
    closed redis cs h =
      { state := (runAll redis cs h.state).2, ran := h.ran ++ (runAll redis cs h.state).1 } := by
  rw [closed_eq cs hm, queueAll_redis, if_pos rfl]

theorem transaction_nil_outcome {w0 w : World σ} {es : List Event} {ok : Bool}
    (hl : Landing srv w0 [] es ok w) : ¬ Lands es := by
  intro hlands
  by_cases hr : Reopened es
  · obtain ⟨h, t, -, -, -, -, hlt, -⟩ := hl.part hlands hr
    simp at hlt
  · exact (hl.whole hlands hr).1 rfl

/-! ## A successful flush -/

/-- Every command succeeds when the EXEC behind the whole queue runs it. -/
def Succeeds (srv : Server σ) (cs : List Command) (s : σ) : Prop :=
  ∀ p ∈ (runAll srv cs (queueAll srv cs s).2).1, p.2 = true

/-- The server ran every one of the calls without an error. -/
def Written (w w' : World σ) (calls : List Call) : Prop :=
  w'.host.ran = w.host.ran ++ calls.map fun c => (c.command, true)

/-- **A successful flush means every counter was written**, exactly when EXEC fails
none of the commands it is given: `drain` looks at the replies, and not into the
array EXEC answers with. -/
theorem flush_written_iff {calls : List Call} {w w' : World σ} {rs : List Bool} {flushed : Bool}
    (hi : Idle w) (hx : transaction (redisStore srv) calls w = some ((rs, flushed), w'))
    (hs : w'.script = []) :
    ((∀ r ∈ rs, r = true) ∧ flushed = true → Written w w' calls) ↔
      (Undisturbed w.script → (queueAll srv (calls.map Call.command) w.host.state).1 = true →
        Succeeds srv (calls.map Call.command) w.host.state) := by
  obtain ⟨es, he, hl⟩ := transaction_landing hi hx
  rw [hs, List.append_nil] at he
  subst he
  have hok : ((∀ r ∈ rs, r = true) ∧ flushed = true) ↔ (rs.all id && flushed) = true := by
    simp [List.all_eq_true]
  have hmap : (calls.map fun c => (c.command, true)) =
      (calls.map Call.command).map fun c => (c, true) := by simp
  unfold Written
  rw [hok, hmap]
  by_cases hne : calls.map Call.command = []
  · rw [hne] at hl ⊢
    have hu := hl.none (transaction_nil_outcome hl)
    have hrun : Succeeds srv [] w.host.state := by intro p hp; cases hp
    simp [hu.ran, hrun]
  · have hran : ∀ (hlands : Lands w.script) (hu : Undisturbed w.script)
        (hq : (queueAll srv (calls.map Call.command) w.host.state).1 = true),
        w'.host.ran = w.host.ran ++
          (runAll srv (calls.map Call.command)
            (queueAll srv (calls.map Call.command) w.host.state).2).1 := by
      intro hlands hu hq
      rw [(hl.whole hlands hu.not_reopened).2, closed_eq _ rfl]
      change Host.ran (if (queueAll srv _ w.host.state).1 = true then _ else _) = _
      rw [if_pos hq]
      rfl
    have hclean : clean (replies srv (opening (calls.map Call.command) ++ [.exec]) w.host.fresh) =
        (queueAll srv (calls.map Call.command) w.host.state).1 := clean_closed _ rfl
    constructor
    · intro himp hu hq
      obtain ⟨hlands, hok'⟩ := hl.quiet hu hne
      have h1 := himp (by rw [hok', hclean, hq])
      rw [hran hlands hu hq] at h1
      exact (ran_eq_iff (runAll_commands _ _)).mp (List.append_cancel_left h1)
    · intro himp hall
      have hu : Undisturbed w.script := by
        by_contra hu
        rw [hl.failed hu] at hall
        cases hall
      obtain ⟨hlands, hok'⟩ := hl.quiet hu hne
      have hq : (queueAll srv (calls.map Call.command) w.host.state).1 = true := by
        rw [← hclean, ← hok', hall]
      rw [hran hlands hu hq, (ran_eq_iff (runAll_commands _ _)).mpr (himp hu hq)]

/-- A thread that has not connected yet, before an empty store. -/
def World.start (script : List Event) : World Db := { host := { state := {} }, script := script }

theorem World.start_idle (script : List Event) : Idle (World.start script) :=
  ⟨rfl, rfl, rfl, by rintro l hl; cases hl⟩

/-- What a run is known by: its result, the events it did not use, and the history. -/
def seen {α : Type} (p : α × World σ) : α × List Event × List (Command × Bool) :=
  (p.1, p.2.script, p.2.host.ran)

theorem run_of_seen {α : Type} {x : Option (α × World σ)} {a : α} {s : List Event}
    {ran : List (Command × Bool)} (h : x.map seen = some (a, s, ran)) :
    ∃ w', x = some (a, w') ∧ w'.script = s ∧ w'.host.ran = ran := by
  obtain ⟨⟨b, w'⟩, hx, he⟩ := Option.map_eq_some_iff.mp h
  cases he
  exact ⟨w', hx, rfl, rfl⟩

/-- The events of one command, connected, queued, executed and answered. -/
def singleRun : List Event :=
  [.connect true, .append true, .append true, .exec true, .reply, .reply, .reply]

theorem flush_written_iff_single :
    ∃ w', transaction (redisStore redis) [.increment kTotalKey kFieldMocDur 60]
        (World.start singleRun) = some (([true], true), w') ∧ w'.script = [] ∧
      (((∀ r ∈ [true], r = true) ∧ true = true →
          Written (World.start singleRun) w' [.increment kTotalKey kFieldMocDur 60]) ↔
        (Undisturbed (World.start singleRun).script →
          (queueAll redis [.hincrby kTotalKey kFieldMocDur 60] {}).1 = true →
          Succeeds redis [.hincrby kTotalKey kFieldMocDur 60] {})) := by
  have hrun : (transaction (redisStore redis) [.increment kTotalKey kFieldMocDur 60]
      (World.start singleRun)).map seen =
        some (([true], true), [], [(.hincrby kTotalKey kFieldMocDur 60, true)]) := by
    decide +kernel
  obtain ⟨w', hx, hs, -⟩ := run_of_seen hrun
  exact ⟨w', hx, hs, flush_written_iff (World.start_idle singleRun) hx hs⟩

/-- Every call and the flush return true for an amount past the signed range, and
EXEC has run the command with an error. -/
theorem flush_hides_rejection :
    ∃ w', transaction (redisStore redis) [.increment kTotalKey kFieldMocDur 9223372036854775808]
        (World.start singleRun) = some (([true], true), w') ∧
      ¬ ((∀ r ∈ [true], r = true) ∧ true = true → Written (World.start singleRun) w'
          [.increment kTotalKey kFieldMocDur 9223372036854775808]) := by
  have hrun : (transaction (redisStore redis)
      [.increment kTotalKey kFieldMocDur 9223372036854775808]
      (World.start singleRun)).map seen =
        some (([true], true), [],
          [(.hincrby kTotalKey kFieldMocDur 9223372036854775808, false)]) := by
    decide +kernel
  obtain ⟨w', hx, -, hran⟩ := run_of_seen hrun
  refine ⟨w', hx, fun h => ?_⟩
  have hw := h ⟨by simp, rfl⟩
  unfold Written at hw
  rw [hran] at hw
  revert hw
  decide

end CdrProcessor
