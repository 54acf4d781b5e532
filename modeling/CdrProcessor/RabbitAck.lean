import CdrProcessor.RabbitIngest

/-! Whether the broker can be acked for a message whose record is not in the store.  It
cannot as long as every ack comes behind a visit to the sink that brought its batch whole. -/

namespace CdrProcessor

/-! ## What an ack may come behind -/

/-- The batch a consumer hands over is brought whole: its EXEC gets through, on the connection
it was begun on, and the server fails none of its commands. -/
def Rabbit.Brings (s : Rabbit) (i : Nat) (visit : Visit) (script : List Event) : Prop :=
  Lands script ∧ ¬ Reopened script ∧
    Succeeds redis ((consumeCalls visit (s.consumers i).batch []).map Call.command) s.db

/-- The consumer hands its batch over. -/
def RabbitAct.Hands (i : Nat) : RabbitAct → Prop
  | .consume j _ _ => j = i
  | _ => False

/-- An ack that gets to the broker comes behind a batch that was brought whole. -/
def AckedWhole (parser : IParser) (s : Rabbit) (acts : List RabbitAct) : Prop :=
  ∀ pre i visit script mid post t u,
    acts = pre ++ .consume i visit script :: (mid ++ .ack i true :: post) →
    (∀ a ∈ mid, ¬ a.Hands i) →
    Run (rabbitStep parser) (fun _ _ => True) s pre t →
    Run (rabbitStep parser) (fun _ _ => True) s (pre ++ .consume i visit script :: mid) u →
    (u.consumers i).channel.up = true → t.Brings i visit script

/-! ## The invariant -/

/-- The same of one step, by what the consumer remembers of its batch. -/
def Sound (s : Rabbit) : RabbitAct → Prop
  | .ack i ok => ok = true → (s.consumers i).channel.up = true → (s.consumers i).kept = true
  | _ => True

/-- The record of a delivery is in a batch that was run whole, without an error. -/
def Saved (parser : IParser) (log : List Handover) (d : Delivery) : Prop :=
  ∃ h ∈ log, h.whole = true ∧ d ∈ h.deliveries ∧ ∃ r ∈ h.batch, parser d.body = some r

/-- A consumer with a channel: what is unacked on it waits to be read, was rejected,
or is part of the batch. -/
structure Steering (parser : IParser) (log : List Handover) (c : Consumer) : Prop where
  unread : c.channel.unread.Pairwise fun d d' => d.tag < d'.tag
  ahead : ∀ d ∈ c.channel.unread, c.source.lastTag < d.tag
  below : ∀ d ∈ c.channel.unread, d.tag < c.channel.nextTag
  last : c.source.lastTag < c.channel.nextTag
  tags : ∀ d ∈ c.read, d.tag ≤ c.source.lastTag
  batch : ∀ d ∈ c.read, ∃ r ∈ c.batch, parser d.body = some r
  empty : c.stage = .head → c.read = []
  unacked : ∀ d ∈ c.channel.unacked, d ∈ c.channel.unread ∨ parser d.body = none ∨ d ∈ c.read
  dropped : c.channel.up = false → c.channel.unacked = []
  kept : c.stage = .written → c.kept = true → ∀ d ∈ c.read, Saved parser log d

/-- A consumer that has no channel is held to nothing. -/
def Consumer.Adrift (c : Consumer) : Prop := c.stage = .down ∨ c.stage = .over

/-- A consumer between two visits to the sink. -/
def Consumer.Idle (c : Consumer) : Prop :=
  c.openBatch = false ∧ c.queued = 0 ∧ ∀ l, c.link = some l → l.err = false → l.pipe = []

/-- What holds of the consumers whatever the acks are behind. -/
structure Steered (parser : IParser) (s : Rabbit) : Prop where
  idle : ∀ i, (s.consumers i).Idle
  consumers : ∀ i, (s.consumers i).Adrift ∨ Steering parser s.log (s.consumers i)

structure Acks (parser : IParser) (s : Rabbit) : Prop where
  idle : ∀ i, (s.consumers i).Idle
  consumers : ∀ i, (s.consumers i).Adrift ∨ Steering parser s.log (s.consumers i)
  acked : ∀ d n, (d, n) ∈ s.acked → n ≤ s.log.length ∧
    (parser d.body = none ∨ Saved parser (s.log.take n) d)

theorem Acks.steered {parser : IParser} {s : Rabbit} (h : Acks parser s) : Steered parser s :=
  ⟨h.idle, h.consumers⟩

/-- Nothing has been handed over, and nobody is connected. -/
def Rabbit.initial (db : Db) : Rabbit := { db }

variable {parser : IParser} {s s' : Rabbit}

theorem Consumer.idle_default : Consumer.Idle {} := ⟨rfl, rfl, fun l hl => by cases hl⟩

theorem Acks.initial (parser : IParser) (db : Db) : Acks parser (Rabbit.initial db) where
  idle _ := Consumer.idle_default
  consumers _ := .inl (.inl rfl)
  acked d n h := by cases h

theorem Steered.initial (parser : IParser) (db : Db) : Steered parser (Rabbit.initial db) :=
  (Acks.initial parser db).steered

theorem Saved.mono {log log' : List Handover} {d : Delivery} (h : Saved parser log d)
    (hl : ∀ e ∈ log, e ∈ log') : Saved parser log' d := by
  obtain ⟨e, he, hrest⟩ := h
  exact ⟨e, hl e he, hrest⟩

theorem Steering.mono {log log' : List Handover} {c : Consumer} (h : Steering parser log c)
    (hl : ∀ e ∈ log, e ∈ log') : Steering parser log' c :=
  { h with kept := fun hs hk d hd => (h.kept hs hk d hd).mono hl }

/-! ## What there is of each move -/

theorem Channel.push_cases {c c' : Channel} {body : Text} (h : c.push body = some c') :
    (c.up = true ∧ c.unacked.length < kRabbitPrefetch) ∧ c' = { c with
      nextTag := c.nextTag + 1
      unacked := c.unacked ++ [⟨c.id, c.nextTag, body⟩]
      unread := c.unread ++ [⟨c.id, c.nextTag, body⟩] } := by
  unfold Channel.push at h
  split at h
  · next hc =>
    cases h
    exact ⟨hc, rfl⟩
  · cases h

theorem Consumer.turn_cases {c c' : Consumer} {stopping : Bool}
    (h : c.turn stopping = some c') : c.stage = .head ∧ (c' = { c with stage := .down } ∨
      c' = { c with stage := .reading, batch := [], read := [] }) := by
  unfold Consumer.turn at h
  split at h
  · next hst =>
    cases h
    cases stopping with
    | true => exact ⟨hst, .inl rfl⟩
    | false => exact ⟨hst, .inr rfl⟩
  · cases h

theorem Consumer.message_cases {c c' : Consumer} (h : c.message parser = some c') :
    c.stage = .reading ∧ ∃ d unread, c.channel.unread = d :: unread ∧ c' = { c with
      channel := { c.channel with unread }
      source := (c.source.message parser c.batch d).1
      batch := (c.source.message parser c.batch d).2
      read := if (parser d.body).isSome then c.read ++ [d] else c.read
      stage := if (c.source.message parser c.batch d).2.length < kRabbitBatchSize then .reading
        else .full } := by
  unfold Consumer.message at h
  split at h
  · next d unread hst hun =>
    cases h
    exact ⟨hst, d, unread, hun, rfl⟩
  · cases h

theorem Consumer.timeout_cases {c c' : Consumer} (h : c.timeout = some c') :
    c.stage = .reading ∧ c' = { c with stage := if c.batch = [] then .head else .full } := by
  unfold Consumer.timeout at h
  split at h
  · next hst =>
    cases h
    exact ⟨hst, rfl⟩
  · cases h

theorem Rabbit.opens_cases {i : Nat} {up : Bool} (h : s.opens i up = some s') :
    (s.consumers i).stage = .down ∧
      (s' = s.set i { s.consumers i with channel := {} } ∨
        s' = ({ s with channels := s.channels + 1 } : Rabbit).set i { s.consumers i with
          channel := { id := s.channels, up := true }, source := {}, read := []
          stage := .head }) := by
  unfold Rabbit.opens at h
  dsimp only at h
  split at h
  · next hc =>
    cases up <;> cases h
    · exact ⟨hc.1, .inl rfl⟩
    · exact ⟨hc.1, .inr rfl⟩
  · cases h

/-- An ack goes out behind a batch just written, and gets to the broker or not. -/
theorem Rabbit.ack_cases {i : Nat} {ok : Bool} (h : s.ack i ok = some s') :
    (s.consumers i).stage = .written ∧
      (ok = false ∧ s' = s.set i { s.consumers i with stage := .down } ∨
        ok = true ∧ s' = ({ s with
          acked := s.acked ++ ((s.consumers i).channel.ack (s.consumers i).source.lastTag).1.map
            fun d => (d, s.log.length) } : Rabbit).set i { s.consumers i with
          channel := ((s.consumers i).channel.ack (s.consumers i).source.lastTag).2
          stage := .head, read := [] }) := by
  unfold Rabbit.ack at h
  dsimp only at h
  split at h
  · next hst =>
    cases ok <;> cases h
    · exact ⟨hst, .inl ⟨rfl, rfl⟩⟩
    · exact ⟨hst, .inr ⟨rfl, rfl⟩⟩
  · cases h

theorem Rabbit.fail_cases {i : Nat} (h : rabbitStep parser s (.fail i) = some s') :
    (s.consumers i).stage = .reading ∧ s' = s.set i { s.consumers i with stage := .down } := by
  dsimp only [rabbitStep] at h
  split at h
  · next hst =>
    cases h
    exact ⟨hst, rfl⟩
  · cases h

theorem Rabbit.leave_cases {i : Nat} (h : rabbitStep parser s (.leave i) = some s') :
    s' = s.set i { s.consumers i with stage := .over } := by
  dsimp only [rabbitStep] at h
  split at h
  · cases h
    rfl
  · cases h

/-! ## Its steps -/

/-- One consumer moves, the history and the acks stay. -/
theorem Steered.set (h : Steered parser s) {i : Nat} {c : Consumer} (hidle : c.Idle)
    (hc : c.Adrift ∨ Steering parser s.log c) : Steered parser (s.set i c) := by
  have hall : ∀ i', (Function.update s.consumers i c i').Idle ∧
      ((Function.update s.consumers i c i').Adrift ∨
        Steering parser s.log (Function.update s.consumers i c i')) := by
    intro i'
    by_cases hi : i' = i
    · subst hi
      rw [Function.update_self]
      exact ⟨hidle, hc⟩
    · rw [Function.update_of_ne hi]
      exact ⟨h.idle i', h.consumers i'⟩
  exact ⟨fun i' => (hall i').1, fun i' => (hall i').2⟩

/-- A stage in which a consumer has a channel. -/
theorem Consumer.not_adrift {c : Consumer} {stage : Stage} (hs : c.stage = stage)
    (hd : stage ≠ .down) (ho : stage ≠ .over) : ¬ c.Adrift := by
  rintro (ha | ha)
  · exact hd (hs.symm.trans ha)
  · exact ho (hs.symm.trans ha)

theorem Steered.steering (h : Steered parser s) {i : Nat} {stage : Stage}
    (hs : (s.consumers i).stage = stage) (hd : stage ≠ .down) (ho : stage ≠ .over) :
    Steering parser s.log (s.consumers i) :=
  (h.consumers i).resolve_left (Consumer.not_adrift hs hd ho)

theorem Steering.push {log : List Handover} {c : Consumer} (h : Steering parser log c)
    {body : Text} {channel : Channel} (hp : c.channel.push body = some channel) :
    Steering parser log { c with channel } := by
  obtain ⟨hup, rfl⟩ := Channel.push_cases hp
  refine { h with
    unread := ?_, ahead := ?_, below := ?_, last := ?_, unacked := ?_, dropped := ?_ }
  · refine List.pairwise_append.mpr ⟨h.unread, List.pairwise_singleton _ _, ?_⟩
    intro d hd d' hd'
    rw [List.mem_singleton.mp hd']
    exact h.below d hd
  · intro d hd
    rcases List.mem_append.mp hd with hd | hd
    · exact h.ahead d hd
    · rw [List.mem_singleton.mp hd]
      exact h.last
  · intro d hd
    rcases List.mem_append.mp hd with hd | hd
    · exact Nat.lt_succ_of_lt (h.below d hd)
    · rw [List.mem_singleton.mp hd]
      exact Nat.lt_succ_self _
  · exact Nat.lt_succ_of_lt h.last
  · intro d hd
    rcases List.mem_append.mp hd with hd | hd
    · exact (h.unacked d hd).imp_left fun hu => List.mem_append_left _ hu
    · exact .inl (List.mem_append_right _ hd)
  · intro hdown
    exact absurd hup.1 (by rw [show c.channel.up = false from hdown]; simp)

theorem Steering.cut {log : List Handover} {c : Consumer} (h : Steering parser log c) :
    Steering parser log { c with channel := c.channel.cut } :=
  { h with
    unacked := fun d hd => by cases hd
    dropped := fun _ => rfl }

theorem Steering.message {log : List Handover} {c c' : Consumer} (h : Steering parser log c)
    (hm : c.message parser = some c') : Steering parser log c' := by
  obtain ⟨-, d, unread, hun, rfl⟩ := Consumer.message_cases hm
  have hpair := h.unread
  rw [hun] at hpair
  obtain ⟨hfirst, hrest⟩ := List.pairwise_cons.mp hpair
  have hd : d ∈ c.channel.unread := hun ▸ List.mem_cons_self
  have hsub : ∀ d' ∈ unread, d' ∈ c.channel.unread :=
    fun d' hd' => hun ▸ List.mem_cons_of_mem d hd'
  have htag : (c.source.message parser c.batch d).1.lastTag = d.tag := by
    unfold RabbitSource.message
    split <;> rfl
  have hlast : c.source.lastTag < d.tag := h.ahead d hd
  -- the batch only grows, by the record of the message if it has one
  have hgrow : ∀ r ∈ c.batch, r ∈ (c.source.message parser c.batch d).2 := by
    intro r hr
    unfold RabbitSource.message
    split
    · exact List.mem_append_left _ hr
    · exact hr
  have hread : ∀ d' ∈ (if (parser d.body).isSome then c.read ++ [d] else c.read),
      d' ∈ c.read ∨ d' = d ∧ (parser d.body).isSome = true := by
    intro d' hd'
    split at hd'
    · next hsome => exact (List.mem_append.mp hd').imp_right fun he => ⟨List.mem_singleton.mp he, hsome⟩
    · exact .inl hd'
  refine ⟨hrest, ?_, fun d' hd' => h.below d' (hsub d' hd'), ?_, ?_, ?_, ?_, ?_, h.dropped, ?_⟩
  · intro d' hd'
    dsimp only
    rw [htag]
    exact hfirst d' hd'
  · dsimp only
    rw [htag]
    exact h.below d hd
  · intro d' hd'
    dsimp only
    rw [htag]
    rcases hread d' hd' with hd' | ⟨rfl, -⟩
    · exact le_of_lt (lt_of_le_of_lt (h.tags d' hd') hlast)
    · exact le_refl _
  · intro d' hd'
    rcases hread d' hd' with hd' | ⟨rfl, hsome⟩
    · obtain ⟨r, hr, hp⟩ := h.batch d' hd'
      exact ⟨r, hgrow r hr, hp⟩
    · obtain ⟨r, hp⟩ := Option.isSome_iff_exists.mp hsome
      refine ⟨r, ?_, hp⟩
      unfold RabbitSource.message
      rw [hp]
      exact List.mem_append_right _ (List.mem_singleton_self r)
  · intro hh
    dsimp only at hh
    split at hh <;> cases hh
  · intro d' hd'
    rcases h.unacked d' hd' with hu | hn | hr
    · rw [hun] at hu
      rcases List.mem_cons.mp hu with rfl | hu
      · cases hp : parser d'.body with
        | none => exact .inr (.inl rfl)
        | some r => exact .inr (.inr (by simp))
      · exact .inl hu
    · exact .inr (.inl hn)
    · right; right
      dsimp only
      split
      · exact List.mem_append_left _ hr
      · exact hr
  · intro hw
    dsimp only at hw
    split at hw <;> cases hw

theorem Consumer.turn_keeps {c c' : Consumer} {stopping : Bool}
    (ht : c.turn stopping = some c') : c'.channel = c.channel := by
  obtain ⟨-, rfl | rfl⟩ := Consumer.turn_cases ht <;> rfl

theorem Consumer.message_keeps {c c' : Consumer} (hm : c.message parser = some c') :
    ∃ unread, c'.channel = { c.channel with unread } := by
  obtain ⟨-, d, unread, -, rfl⟩ := Consumer.message_cases hm
  exact ⟨unread, rfl⟩

theorem Consumer.timeout_keeps {c c' : Consumer} (ht : c.timeout = some c') :
    c'.channel = c.channel := by
  obtain ⟨-, rfl⟩ := Consumer.timeout_cases ht
  rfl

/-- Moves of a consumer that leave its side of the store alone. -/
theorem Consumer.Idle.turn {c c' : Consumer} (h : c.Idle) {stopping : Bool}
    (ht : c.turn stopping = some c') : c'.Idle := by
  obtain ⟨-, rfl | rfl⟩ := Consumer.turn_cases ht <;> exact h

theorem Consumer.Idle.message {c c' : Consumer} (h : c.Idle)
    (hm : c.message parser = some c') : c'.Idle := by
  obtain ⟨-, d, unread, -, rfl⟩ := Consumer.message_cases hm
  exact h

theorem Consumer.Idle.timeout {c c' : Consumer} (h : c.Idle) (ht : c.timeout = some c') :
    c'.Idle := by
  obtain ⟨-, rfl⟩ := Consumer.timeout_cases ht
  exact h

theorem Steering.turn {log : List Handover} {c c' : Consumer} (h : Steering parser log c)
    {stopping : Bool} (ht : c.turn stopping = some c') : c'.Adrift ∨ Steering parser log c' := by
  obtain ⟨hst, rfl | rfl⟩ := Consumer.turn_cases ht
  · exact .inl (.inl rfl)
  · refine .inr { h with
      tags := fun d hd => by cases hd
      batch := fun d hd => by cases hd
      empty := fun _ => rfl
      unacked := fun d hd => ?_
      kept := fun hw => by cases hw }
    have hu := h.unacked d hd
    rw [h.empty hst] at hu
    exact hu

theorem Steering.timeout {log : List Handover} {c c' : Consumer} (h : Steering parser log c)
    (ht : c.timeout = some c') : Steering parser log c' := by
  obtain ⟨-, rfl⟩ := Consumer.timeout_cases ht
  by_cases hb : c.batch = []
  · rw [if_pos hb]
    refine { h with empty := fun _ => ?_, kept := (fun hw => by cases hw) }
    refine List.eq_nil_iff_forall_not_mem.mpr fun d hd => ?_
    obtain ⟨r, hr, -⟩ := h.batch d hd
    rw [hb] at hr
    cases hr
  · rw [if_neg hb]
    exact { h with empty := (fun hh => by cases hh), kept := (fun hw => by cases hw) }

/-- A channel just opened has nothing on it. -/
theorem steering_fresh (log : List Handover) (c : Consumer) (id : Nat) :
    Steering parser log { c with
      channel := { id, up := true }, source := {}, read := [], stage := .head } where
  unread := .nil
  ahead d hd := by cases hd
  below d hd := by cases hd
  last := Nat.zero_lt_one
  tags d hd := by cases hd
  batch d hd := by cases hd
  empty _ := rfl
  unacked d hd := by cases hd
  dropped _ := rfl
  kept hw := by cases hw

theorem Steered.opens (h : Steered parser s) {i : Nat} {up : Bool} (hs : s.opens i up = some s') :
    Steered parser s' := by
  obtain ⟨hst, rfl | rfl⟩ := Rabbit.opens_cases hs
  · exact h.set (h.idle i) (.inl (.inl hst))
  · have h' : Steered parser { s with channels := s.channels + 1 } := ⟨h.idle, h.consumers⟩
    exact h'.set (h.idle i) (.inr (steering_fresh s.log _ _))

/-- The history grows by one batch. -/
theorem Steered.log (h : Steered parser s) (e : Handover) (db : Db) :
    Steered parser { s with db, log := s.log ++ [e] } :=
  ⟨h.idle, fun i => (h.consumers i).imp_right
    fun hc => hc.mono fun _ he => List.mem_append_left _ he⟩

theorem Steered.crash (s : Rabbit) : Steered parser s.crashed :=
  ⟨fun _ => Consumer.idle_default, fun _ => .inl (.inl rfl)⟩

/-- A visit to the sink, and what comes back. -/
theorem Rabbit.consume_cases {i : Nat} {visit : Visit} {script : List Event}
    (hi : (s.consumers i).Idle) (hs : s.consume i visit script = some s') :
    (s.consumers i).stage = .full ∧ ∃ db ran,
      Visited ((consumeCalls visit (s.consumers i).batch []).map Call.command) script s.db db ran ∧
      let e : Handover := ⟨(s.consumers i).read, (s.consumers i).batch,
        consumeCalls visit (s.consumers i).batch [], ran⟩
      (script.any Event.isKill = true ∧
          s' = ({ s with db, log := s.log ++ [e] } : Rabbit).crashed) ∨
        (script.any Event.isKill = false ∧ ∃ link queued openBatch delta runTotals,
          let c : Consumer := { s.consumers i with
            link, queued, openBatch, delta, stage := .written, kept := e.whole }
          c.Idle ∧ s' = ({ s with db, log := s.log ++ [e], runTotals } : Rabbit).set i c) := by
  unfold Rabbit.consume at hs
  dsimp only at hs
  split at hs
  · next hst =>
    split at hs
    · next w hx =>
      split at hs
      · cases hs
      · next hw =>
        rw [ne_eq, not_not] at hw
        have hworld : Idle (s.world i script) :=
          ⟨rfl, hi.1, hi.2.1, fun l hl he => ⟨hi.2.2 l hl he, rfl⟩⟩
        obtain ⟨hstate, halive, hv⟩ := consume_visited hworld rfl hx hw
        change w.alive = !script.any Event.isKill at halive
        refine ⟨hst, w.host.state, w.host.ran, hv, ?_⟩
        cases hk : script.any Event.isKill with
        | true =>
          rw [halive, hk] at hs
          cases hs
          exact .inl ⟨rfl, rfl⟩
        | false =>
          rw [halive, hk] at hs
          cases hs
          have hidle : Idle w := by
            rcases hstate with hd | hd
            · exact hd
            · rw [hd.alive, hk] at halive
              cases halive
          exact .inr ⟨rfl, w.link, w.queued, w.openBatch, w.delta, w.runTotals,
            ⟨hidle.closed, hidle.drained, fun l hl he => (hidle.quiet l hl he).1⟩, rfl⟩
    · cases hs
  · cases hs

theorem Steered.consume (h : Steered parser s) {i : Nat} {visit : Visit} {script : List Event}
    (hs : s.consume i visit script = some s') : Steered parser s' := by
  obtain ⟨hst, db, ran, -, hcase⟩ := Rabbit.consume_cases (h.idle i) hs
  have hc := h.steering hst (by simp) (by simp)
  generalize he : (⟨(s.consumers i).read, (s.consumers i).batch,
    consumeCalls visit (s.consumers i).batch [], ran⟩ : Handover) = e at hcase
  have hlog := h.log e db
  rcases hcase with ⟨-, rfl⟩ | ⟨-, link, queued, openBatch, delta, runTotals, hidle, rfl⟩
  · exact .crash _
  · have h' : Steered parser { s with db, log := s.log ++ [e], runTotals } :=
      ⟨hlog.idle, hlog.consumers⟩
    refine h'.set hidle (.inr ?_)
    have hmem : ∀ e' ∈ s.log, e' ∈ s.log ++ [e] := fun e' he' => List.mem_append_left _ he'
    refine { hc.mono hmem with empty := (fun hh => by cases hh), kept := fun _ hk d hd => ?_ }
    subst he
    exact ⟨_, List.mem_append_right _ (List.mem_singleton_self _), hk, hd, hc.batch d hd⟩

/-- A batch that was brought whole counts as kept. -/
theorem Steered.kept (h : Steered parser s) {i : Nat} {visit : Visit} {script : List Event}
    (hs : s.consume i visit script = some s') (hst : (s'.consumers i).stage = .written)
    (hb : s.Brings i visit script) : (s'.consumers i).kept = true := by
  obtain ⟨-, db, ran, hv, ⟨-, rfl⟩ | ⟨-, link, queued, openBatch, delta, runTotals, -, rfl⟩⟩ :=
    Rabbit.consume_cases (h.idle i) hs
  · cases hst
  · change (Function.update s.consumers i _ i).kept = true
    rw [Function.update_self]
    exact decide_eq_true (hv.all_ran hb.1 hb.2.1 hb.2.2)

/-- What is unacked up to the last tag was rejected, or is in the batch just written. -/
theorem Steered.covered (h : Steered parser s) {i : Nat} (hst : (s.consumers i).stage = .written)
    (hk : (s.consumers i).channel.up = true → (s.consumers i).kept = true) {d : Delivery}
    (hd : d ∈ (s.consumers i).channel.unacked) (htag : d.tag ≤ (s.consumers i).source.lastTag) :
    parser d.body = none ∨ Saved parser s.log d := by
  have hc := h.steering hst (by simp) (by simp)
  rcases hc.unacked d hd with hu | hn | hr
  · have := hc.ahead d hu
    omega
  · exact .inl hn
  · cases hup : (s.consumers i).channel.up with
    | false =>
      rw [hc.dropped hup] at hd
      cases hd
    | true => exact .inr (hc.kept hst (hk hup) d hr)

/-- Behind an ack, what is unacked is yet to be read, or was rejected. -/
theorem Steering.acked {log : List Handover} {c : Consumer} (h : Steering parser log c) :
    Steering parser log { c with
      channel := (c.channel.ack c.source.lastTag).2, stage := .head, read := [] } := by
  refine { h with
    tags := (fun d hd => by cases hd)
    batch := (fun d hd => by cases hd)
    empty := fun _ => rfl
    unacked := fun d hd => ?_
    dropped := fun hup => ?_
    kept := (fun hw => by cases hw) }
  · obtain ⟨hmem, htag⟩ := List.mem_filter.mp hd
    have hlt : ¬ d.tag ≤ c.source.lastTag := by simpa using htag
    rcases h.unacked d hmem with hu | hn | hr
    · exact .inl hu
    · exact .inr (.inl hn)
    · exact absurd (h.tags d hr) hlt
  · change List.filter _ c.channel.unacked = []
    rw [h.dropped hup]
    rfl

theorem Steered.ack (h : Steered parser s) {i : Nat} {ok : Bool} (hs : s.ack i ok = some s') :
    Steered parser s' := by
  obtain ⟨hst, ⟨-, rfl⟩ | ⟨-, rfl⟩⟩ := Rabbit.ack_cases hs
  · exact h.set (h.idle i) (.inl (.inl rfl))
  · have hc := h.steering hst (by simp) (by simp)
    have h' : Steered parser { s with
        acked := s.acked ++ ((s.consumers i).channel.ack (s.consumers i).source.lastTag).1.map
          (fun d => (d, s.log.length)) } := ⟨h.idle, h.consumers⟩
    exact h'.set (h.idle i) (.inr hc.acked)

/-- Whatever a step is, the consumers it leaves are steered. -/
theorem Steered.step (h : Steered parser s) {a : RabbitAct}
    (hs : rabbitStep parser s a = some s') : Steered parser s' := by
  -- a consumer that moves on its own, if it has a channel or not
  have hmove : ∀ {i : Nat} {c : Consumer}, c.Idle → ((s.consumers i).Adrift → c.Adrift) →
      (Steering parser s.log (s.consumers i) → Steering parser s.log c) →
      Steered parser (s.set i c) :=
    fun hidle hdown hup => h.set hidle ((h.consumers _).imp hdown hup)
  cases a with
  | opens i up => exact h.opens hs
  | turn i =>
    obtain ⟨c, hc, rfl⟩ := Option.map_eq_some_iff.mp hs
    exact h.set ((h.idle i).turn hc)
      ((h.steering (Consumer.turn_cases hc).1 (by simp) (by simp)).turn hc)
  | push i body =>
    obtain ⟨channel, hp, rfl⟩ := Option.map_eq_some_iff.mp hs
    exact hmove (h.idle i) id fun hc => hc.push hp
  | cut i =>
    cases hs
    exact hmove (h.idle i) id Steering.cut
  | message i =>
    obtain ⟨c, hc, rfl⟩ := Option.map_eq_some_iff.mp hs
    exact h.set ((h.idle i).message hc)
      (.inr ((h.steering (Consumer.message_cases hc).1 (by simp) (by simp)).message hc))
  | timeout i =>
    obtain ⟨c, hc, rfl⟩ := Option.map_eq_some_iff.mp hs
    exact h.set ((h.idle i).timeout hc)
      (.inr ((h.steering (Consumer.timeout_cases hc).1 (by simp) (by simp)).timeout hc))
  | fail i =>
    obtain ⟨-, rfl⟩ := Rabbit.fail_cases hs
    exact h.set (h.idle i) (.inl (.inl rfl))
  | consume i visit script => exact h.consume hs
  | ack i ok => exact h.ack hs
  | others db =>
    cases hs
    exact ⟨h.idle, h.consumers⟩
  | stop =>
    cases hs
    exact ⟨h.idle, h.consumers⟩
  | leave i =>
    obtain rfl := Rabbit.leave_cases hs
    exact h.set (h.idle i) (.inl (.inr rfl))
  | crash =>
    cases hs
    exact .crash s

/-- What a step does to the histories: batches are only added, and what is acked is what
the broker still held up to the last tag of a batch just written. -/
theorem step_acked {a : RabbitAct} (hs : rabbitStep parser s a = some s')
    (hidle : ∀ i, (s.consumers i).Idle) :
    (∃ l, s'.log = s.log ++ l) ∧
      (s'.acked = s.acked ∨ ∃ i, a = .ack i true ∧ (s.consumers i).stage = .written ∧
        s'.log = s.log ∧ s'.acked = s.acked ++
          ((s.consumers i).channel.ack (s.consumers i).source.lastTag).1.map
            fun d => (d, s.log.length)) := by
  have hsame : ∀ {t : Rabbit}, t.log = s.log → t.acked = s.acked →
      (∃ l, t.log = s.log ++ l) ∧ (t.acked = s.acked ∨ ∃ i, a = .ack i true ∧
        (s.consumers i).stage = .written ∧ t.log = s.log ∧ t.acked = s.acked ++
          ((s.consumers i).channel.ack (s.consumers i).source.lastTag).1.map
            fun d => (d, s.log.length)) :=
    fun hl ha => ⟨⟨[], by rw [hl, List.append_nil]⟩, .inl ha⟩
  cases a with
  | opens i up =>
    obtain ⟨-, rfl | rfl⟩ := Rabbit.opens_cases hs <;> exact hsame rfl rfl
  | turn i | push i body | message i | timeout i =>
    obtain ⟨c, -, rfl⟩ := Option.map_eq_some_iff.mp hs
    exact hsame rfl rfl
  | cut i | others db | stop | crash =>
    cases hs
    exact hsame rfl rfl
  | fail i =>
    obtain ⟨-, rfl⟩ := Rabbit.fail_cases hs
    exact hsame rfl rfl
  | leave i =>
    obtain rfl := Rabbit.leave_cases hs
    exact hsame rfl rfl
  | consume i visit script =>
    obtain ⟨-, db, ran, -, ⟨-, rfl⟩ | ⟨-, link, queued, openBatch, delta, runTotals, -, rfl⟩⟩ :=
      Rabbit.consume_cases (hidle i) hs
    · exact ⟨⟨_, rfl⟩, .inl rfl⟩
    · exact ⟨⟨_, rfl⟩, .inl rfl⟩
  | ack i ok =>
    obtain ⟨hst, ⟨-, rfl⟩ | ⟨rfl, rfl⟩⟩ := Rabbit.ack_cases hs
    · exact hsame rfl rfl
    · exact ⟨⟨[], (List.append_nil _).symm⟩, .inr ⟨i, rfl, hst, rfl, rfl⟩⟩

theorem Acks.step (h : Acks parser s) {a : RabbitAct} (ha : Sound s a)
    (hs : rabbitStep parser s a = some s') : Acks parser s' := by
  have h' := h.steered.step hs
  obtain ⟨⟨l, hlog⟩, hacked⟩ := step_acked hs h.idle
  -- what was acked before stays behind the batches there were
  have hold : ∀ d n, (d, n) ∈ s.acked → n ≤ s'.log.length ∧
      (parser d.body = none ∨ Saved parser (s'.log.take n) d) := by
    intro d n hd
    obtain ⟨hn, hsafe⟩ := h.acked d n hd
    rw [hlog, List.take_append_of_le_length hn, List.length_append]
    exact ⟨Nat.le_add_right_of_le hn, hsafe⟩
  refine ⟨h'.idle, h'.consumers, fun d n hd => ?_⟩
  rcases hacked with hacked | ⟨i, rfl, hst, hsame, hacked⟩
  · rw [hacked] at hd
    exact hold d n hd
  · rw [hacked] at hd
    rcases List.mem_append.mp hd with hd | hd
    · exact hold d n hd
    · obtain ⟨d', hd', he⟩ := List.mem_map.mp hd
      cases he
      obtain ⟨hmem, htag⟩ := List.mem_filter.mp hd'
      rw [hsame]
      refine ⟨le_refl _, ?_⟩
      rw [List.take_length]
      exact h.steered.covered hst (ha rfl) hmem (by simpa using htag)

/-! ## Whole runs -/

theorem Steered.run (h : Steered parser s) {allowed : Rabbit → RabbitAct → Prop}
    {acts : List RabbitAct} (hr : Run (rabbitStep parser) allowed s acts s') :
    Steered parser s' :=
  hr.invariant (fun _ _ _ hi _ hs => hi.step hs) h

/-- A consumer comes to be behind its batch by handing it over, and by nothing else. -/
theorem written_step {a : RabbitAct} (hs : rabbitStep parser s a = some s')
    (hidle : ∀ i, (s.consumers i).Idle) {i : Nat} (hst : (s'.consumers i).stage = .written) :
    a.Hands i ∨ ¬ a.Hands i ∧ (s.consumers i).stage = .written ∧
      (s'.consumers i).kept = (s.consumers i).kept := by
  -- a consumer that moves on its own is not behind its batch, if it was not before
  have hset : ∀ {t : Rabbit} {j : Nat} {c : Consumer}, t.consumers = s.consumers →
      ((t.set j c).consumers i).stage = .written →
      (c.stage = .written → (s.consumers j).stage = .written ∧ c.kept = (s.consumers j).kept) →
      (s.consumers i).stage = .written ∧ ((t.set j c).consumers i).kept = (s.consumers i).kept := by
    intro t j c ht hw hc
    change (Function.update t.consumers j c i).stage = .written at hw
    change _ ∧ (Function.update t.consumers j c i).kept = _
    by_cases hi : i = j
    · subst hi
      rw [Function.update_self] at hw ⊢
      exact hc hw
    · rw [Function.update_of_ne hi, ht] at hw ⊢
      exact ⟨hw, rfl⟩
  cases a with
  | opens j up =>
    obtain ⟨-, rfl | rfl⟩ := Rabbit.opens_cases hs
    · exact .inr ⟨id, hset rfl hst fun hw => ⟨hw, rfl⟩⟩
    · exact .inr ⟨id, hset rfl hst (by simp)⟩
  | turn j =>
    obtain ⟨c, hc, rfl⟩ := Option.map_eq_some_iff.mp hs
    obtain ⟨-, rfl | rfl⟩ := Consumer.turn_cases hc <;> exact .inr ⟨id, hset rfl hst (by simp)⟩
  | push j body =>
    obtain ⟨channel, -, rfl⟩ := Option.map_eq_some_iff.mp hs
    exact .inr ⟨id, hset rfl hst fun hw => ⟨hw, rfl⟩⟩
  | cut j =>
    cases hs
    exact .inr ⟨id, hset rfl hst fun hw => ⟨hw, rfl⟩⟩
  | message j =>
    obtain ⟨c, hc, rfl⟩ := Option.map_eq_some_iff.mp hs
    obtain ⟨-, d, unread, -, rfl⟩ := Consumer.message_cases hc
    refine .inr ⟨id, hset rfl hst fun hw => ?_⟩
    dsimp only at hw
    split at hw <;> cases hw
  | timeout j =>
    obtain ⟨c, hc, rfl⟩ := Option.map_eq_some_iff.mp hs
    obtain ⟨-, rfl⟩ := Consumer.timeout_cases hc
    refine .inr ⟨id, hset rfl hst fun hw => ?_⟩
    dsimp only at hw
    split at hw <;> cases hw
  | fail j =>
    obtain ⟨-, rfl⟩ := Rabbit.fail_cases hs
    exact .inr ⟨id, hset rfl hst (by simp)⟩
  | consume j visit script =>
    by_cases hj : j = i
    · exact .inl hj
    · obtain ⟨-, db, ran, -, ⟨-, rfl⟩ | ⟨-, link, queued, openBatch, delta, runTotals, -, rfl⟩⟩ :=
        Rabbit.consume_cases (hidle j) hs
      · cases hst
      · change (Function.update s.consumers j _ i).stage = .written at hst
        change _ ∨ _ ∧ _ ∧ (Function.update s.consumers j _ i).kept = _
        rw [Function.update_of_ne (Ne.symm hj)] at hst ⊢
        exact .inr ⟨hj, hst, rfl⟩
  | ack j ok =>
    obtain ⟨-, ⟨-, rfl⟩ | ⟨-, rfl⟩⟩ := Rabbit.ack_cases hs
    · exact .inr ⟨id, hset rfl hst (by simp)⟩
    · exact .inr ⟨id, hset rfl hst (by simp)⟩
  | others db | stop =>
    cases hs
    exact .inr ⟨id, hst, rfl⟩
  | leave j =>
    obtain rfl := Rabbit.leave_cases hs
    exact .inr ⟨id, hset rfl hst (by simp)⟩
  | crash =>
    cases hs
    cases hst

/-- Where every ack comes behind a batch brought whole, so does each of the steps. -/
theorem AckedWhole.sound {db : Db} {allowed : Rabbit → RabbitAct → Prop} {acts : List RabbitAct}
    (hw : AckedWhole parser (Rabbit.initial db) acts)
    (hr : Run (rabbitStep parser) allowed (Rabbit.initial db) acts s) :
    Run (rabbitStep parser) (fun s a => allowed s a ∧ Sound s a) (Rabbit.initial db) acts s := by
  refine hr.allow fun pre a post u u' hacts hu ha hs => ⟨ha, ?_⟩
  cases a with
  | ack i ok =>
    rintro rfl hup
    by_contra hk
    have hfree := hu.mono fun _ _ _ => trivial
    -- a batch comes to be one that was not kept by being handed over, and not brought whole
    have hback : ∀ pre x b x', Run (rabbitStep parser) (fun _ _ => True) (Rabbit.initial db) pre x →
        True → rabbitStep parser x b = some x' →
        (x'.consumers i).stage = .written ∧ ¬ (x'.consumers i).kept = true →
        (∃ visit script, b = .consume i visit script ∧ ¬ x.Brings i visit script) ∨
          ((x.consumers i).stage = .written ∧ ¬ (x.consumers i).kept = true) ∧ ¬ b.Hands i := by
      rintro pre x b x' hx - hb ⟨hst, hk⟩
      have hsteered := (Steered.initial parser db).run hx
      rcases written_step hb hsteered.idle hst with hh | ⟨hh, hst', hk'⟩
      · cases b with
        | consume j visit script =>
          obtain rfl : j = i := hh
          exact .inl ⟨visit, script, rfl, fun hbrings => hk (hsteered.kept hb hst hbrings)⟩
        | _ => exact hh.elim
      · exact .inr ⟨⟨hst', hk' ▸ hk⟩, hh⟩
    obtain ⟨pre', b, mid, t, rfl, ht, ⟨visit, script, rfl, hb⟩, hmid⟩ :=
      hfree.since _ _ _ (fun h => by cases h.1) hback ⟨(Rabbit.ack_cases hs).1, hk⟩
    refine hb (hw pre' i visit script mid post t u ?_ hmid ht hfree hup)
    rw [hacts, List.append_assoc]
    rfl
  | _ => trivial

/-- **No ack for what is not saved**, in any run that meets the condition: what the
broker was acked for was rejected, or was in a batch run whole before the ack. -/
theorem acked_saved {db : Db} {acts : List RabbitAct}
    (hr : Run (rabbitStep parser) (fun _ _ => True) (Rabbit.initial db) acts s)
    (hw : AckedWhole parser (Rabbit.initial db) acts) {d : Delivery} {n : Nat}
    (hd : (d, n) ∈ s.acked) : parser d.body = none ∨ Saved parser (s.log.take n) d := by
  have hacks : Acks parser s :=
    (hw.sound hr).invariant (fun _ _ _ hi ha hs => hi.step ha.2 hs) (.initial parser db)
  exact (hacks.acked d n hd).2

/-- One message with a call in it. -/
def callBody : Text := "1|1|3|MOC|1|01/02/2024|10:20:30|3|||0|2".toList

/-- Connected, the message read, handed to the sink under the given events, and acked. -/
def ackRun (script : List Event) : List RabbitAct :=
  [.opens 0 true, .turn 0, .push 0 callBody, .message 0, .timeout 0, .consume 0 .plain script,
    .ack 0 true]

/-- What is checked of a visit: the process dies in it, or nothing fails and every command
succeeds. -/
def brings (s : Rabbit) : RabbitAct → Bool
  | .consume i visit script => script.any Event.isKill ||
      (script.all (fun e => !e.fails) && decide (.exec true ∈ script) &&
        (runAll redis ((consumeCalls visit (s.consumers i).batch []).map Call.command) s.db).1.all
          Prod.snd)
  | _ => true

/-- A visit to the sink that the process does not survive, or that brings the batch whole. -/
def Rabbit.Hardy (s : Rabbit) : RabbitAct → Prop
  | .consume i visit script => script.any Event.isKill = true ∨ s.Brings i visit script
  | _ => True

theorem brings_hardy (s : Rabbit) (a : RabbitAct) (h : brings s a = true) : s.Hardy a := by
  cases a with
  | consume i visit script =>
    refine ((Bool.or_eq_true _ _).mp h).imp_right fun h => ?_
    obtain ⟨hsmooth, hran⟩ := (Bool.and_eq_true _ _).mp h
    obtain ⟨hall, hexec⟩ := (Bool.and_eq_true _ _).mp hsmooth
    have hu : Undisturbed script := fun e he => by simpa using List.all_eq_true.mp hall e he
    refine ⟨hu.lands (of_decide_eq_true hexec), hu.not_reopened, fun p hp => ?_⟩
    rw [queueAll_redis] at hp
    exact List.all_eq_true.mp hran p hp
  | _ => trivial

/-- No consumer that a dead process had gets to an ack without another batch. -/
theorem ackedWhole_of_hardy {db : Db} {acts : List RabbitAct}
    (hr : Run (rabbitStep parser) Rabbit.Hardy (Rabbit.initial db) acts s) :
    AckedWhole parser (Rabbit.initial db) acts := by
  rintro pre i visit script mid post t u rfl hmid ht hu -
  refine (hr.allowed_at ht : t.Hardy (.consume i visit script)).resolve_left fun hkill => ?_
  -- the ack is possible behind a batch only
  have hst : (u.consumers i).stage = .written := by
    have hfront : pre ++ .consume i visit script :: (mid ++ .ack i true :: post) =
        (pre ++ .consume i visit script :: mid) ++ .ack i true :: post := by simp
    rw [hfront] at hr
    obtain ⟨u', hu', hrest⟩ := hr.split
    rw [hu.unique hu']
    cases hrest with
    | cons _ hs _ => exact (Rabbit.ack_cases hs).1
  obtain ⟨t', ht', hrest⟩ := hu.split
  obtain rfl := ht.unique ht'
  cases hrest with
  | @cons _ v _ _ _ _ hs hrest =>
    have hsteered := ((Steered.initial parser db).run ht).step hs
    have hdown : ¬ (v.consumers i).stage = .written := by
      obtain ⟨-, db, ran, -, ⟨-, rfl⟩ | ⟨hk, -⟩⟩ :=
        Rabbit.consume_cases (((Steered.initial parser db).run ht).idle i) hs
      · intro hw
        cases hw
      · rw [hk] at hkill
        cases hkill
    obtain ⟨pre', b, mid', w, rfl, -, hb, -⟩ := hrest.since
      (fun x => (x.consumers i).stage = .written) (fun _ b => b.Hands i) (fun _ => False) hdown
      (fun pre' x b x' hx _ hb hst => by
        exact (written_step hb (hsteered.run hx).idle hst).imp_right fun h => ⟨h.2.1, id⟩) hst
    exact hmid b (by simp) hb

/-- The process dies in the middle of a batch, and the message is read once more. -/
def redeliveredRun : List RabbitAct :=
  (ackRun [.connect true, .append true, .kill false]).dropLast ++ ackRun smoothRun

theorem acked_saved_one :
    ∃ s, Run (rabbitStep (Parser.csvParser '|')) (fun _ _ => True) (Rabbit.initial {})
        redeliveredRun s ∧
      AckedWhole (Parser.csvParser '|') (Rabbit.initial {}) redeliveredRun ∧
      (⟨1, 1, callBody⟩, 2) ∈ s.acked ∧
      (Parser.csvParser '|' callBody = none ∨
        Saved (Parser.csvParser '|') (s.log.take 2) ⟨1, 1, callBody⟩) := by
  have hrun : (runChecked (rabbitStep (Parser.csvParser '|')) brings (Rabbit.initial {})
      redeliveredRun).map Rabbit.acked = some [(⟨1, 1, callBody⟩, 2)] := by decide +kernel
  obtain ⟨s, hs, hacked⟩ := Option.map_eq_some_iff.mp hrun
  have hr := Run.of_checked brings_hardy hs
  have hfree : Run _ (fun _ _ => True) _ _ s := hr.mono fun _ _ _ => trivial
  have hw := ackedWhole_of_hardy hr
  have hd : ((⟨1, 1, callBody⟩ : Delivery), 2) ∈ s.acked := by
    rw [hacked]
    exact List.mem_singleton_self _
  exact ⟨s, hfree, hw, hd, acked_saved hfree hw hd⟩

/-- The store refuses every connect of a batch, and the broker is acked all the same. -/
theorem acked_unsaved :
    ∃ acts s, Run (rabbitStep (Parser.csvParser '|')) (fun _ _ => True) (Rabbit.initial {}) acts s ∧
      ¬ ∀ d n, (d, n) ∈ s.acked → Parser.csvParser '|' d.body = none ∨
        Saved (Parser.csvParser '|') (s.log.take n) d := by
  have hrun : (runChecked (rabbitStep (Parser.csvParser '|')) (fun _ _ => true) (Rabbit.initial {})
      (ackRun (List.replicate 9 (.connect false)))).map
      (fun s => (s.acked, s.log.all fun h => !h.whole)) =
        some ([(⟨0, 1, callBody⟩, 1)], true) := by decide +kernel
  obtain ⟨s, hs, hobs⟩ := Option.map_eq_some_iff.mp hrun
  obtain ⟨hacked, hlog⟩ := Prod.mk.inj hobs
  refine ⟨_, s, Run.of_checked (fun _ _ _ => trivial) hs, fun h => ?_⟩
  rcases h ⟨0, 1, callBody⟩ 1 (by rw [hacked]; exact List.mem_singleton_self _) with hn | hsaved
  · revert hn
    decide +kernel
  · obtain ⟨e, he, hw, -⟩ := hsaved
    have hfalse := List.all_eq_true.mp hlog e (List.mem_of_mem_take he)
    rw [hw] at hfalse
    cases hfalse

end CdrProcessor
