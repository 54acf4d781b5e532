import CdrProcessor.Consume

/-! A store that is reachable lets every call through: from a state in which nothing is
broken there are events, none of them a failure, on which the call comes to its end. -/

namespace CdrProcessor

open Script RedisStore

variable {σ α β : Type}

/-! ## Programs that come to their end -/

/-- On some events without a failure, whatever follows them, the program ends so that `Q`
holds of its result and the state it leaves. -/
def Smooth (x : Client σ α) (w : World σ) (Q : α → World σ → Prop) : Prop :=
  ∃ es a w', Undisturbed es ∧
    (∀ t, x { w with script := es ++ t } = some (a, { w' with script := t })) ∧ Q a w'

namespace Smooth

variable {w : World σ} {Q : α → World σ → Prop} {P : β → World σ → Prop}

theorem pure {a : α} (h : Q a w) : Smooth (pure a : Client σ α) w Q :=
  ⟨[], a, w, List.forall_mem_nil _, fun _ => rfl, h⟩

theorem bind {x : Client σ β} {f : β → Client σ α} (hx : Smooth x w P)
    (hf : ∀ b w', P b w' → Smooth (f b) w' Q) : Smooth (x >>= f) w Q := by
  obtain ⟨es, b, v, hu, hrun, hp⟩ := hx
  obtain ⟨es', a, w', hu', hrun', hq⟩ := hf b v hp
  refine ⟨es ++ es', a, w', hu.append hu', fun t => ?_, hq⟩
  rw [List.append_assoc, bind_of_eq_some (hrun (es' ++ t))]
  exact hrun' t

/-- What is done next does not depend on the events to come. -/
theorem get {f : World σ → Client σ α} (hf : ∀ t, f { w with script := t } = f w)
    (h : Smooth (f w) w Q) : Smooth ((MonadState.get : Client σ (World σ)) >>= f) w Q := by
  obtain ⟨es, a, w', hu, hrun, hq⟩ := h
  refine ⟨es, a, w', hu, fun t => ?_, hq⟩
  change f { w with script := es ++ t } { w with script := es ++ t } = _
  rw [hf]
  exact hrun t

theorem modify {g : World σ → World σ} {f : PUnit → Client σ α}
    (hg : ∀ t, g { w with script := t } = { g w with script := t })
    (h : Smooth (f ⟨⟩) (g w) Q) : Smooth ((modify g : Client σ PUnit) >>= f) w Q := by
  obtain ⟨es, a, w', hu, hrun, hq⟩ := h
  refine ⟨es, a, w', hu, fun t => ?_, hq⟩
  rw [modify_bind, hg]
  exact hrun t

/-- One event is met, and no failure. -/
theorem event {x : Client σ α} (e : Event) (a : α) (w' : World σ) (he : e.fails = false)
    (hrun : ∀ t, x { w with script := e :: t } = some (a, { w' with script := t }))
    (h : Q a w') : Smooth x w Q :=
  ⟨[e], a, w', fun e' hm => by rw [List.mem_singleton.mp hm]; exact he, hrun, h⟩

/-- With nothing behind them, the events are all used. -/
theorem whole {x : Client σ α} (h : Smooth x w Q) :
    ∃ es a w', Undisturbed es ∧ x { w with script := es } = some (a, { w' with script := [] }) ∧
      Q a w' := by
  obtain ⟨es, a, w', hu, hrun, hq⟩ := h
  refine ⟨es, a, w', hu, ?_, hq⟩
  have hnil := hrun []
  rwa [List.append_nil] at hnil

end Smooth

/-! ## The connection -/

/-- Connected, with so many replies unread. -/
def Connected (n : Nat) (w : World σ) : Prop :=
  w.alive = true ∧ ∃ pipe, w.link = some { pipe } ∧ pipe.length = n

/-- Connected with the replies unread that the thread has counted, or about to connect:
a broken connection has left nothing behind. -/
def Ready (w : World σ) : Prop :=
  Connected w.queued w ∨
    (w.alive = true ∧ w.healthy = false ∧ w.queued = 0 ∧ w.openBatch = false)

theorem Idle.ready {w : World σ} (h : Idle w) : Ready w := by
  by_cases hh : w.healthy = true
  · left
    cases hl : w.link with
    | none => simp [World.healthy, hl] at hh
    | some l =>
      obtain ⟨err, pipe⟩ := l
      simp only [World.healthy, hl, Option.any_some, Bool.not_eq_true'] at hh
      cases hh
      obtain ⟨hp, -⟩ := h.quiet _ hl rfl
      exact ⟨h.alive, pipe, hl, by rw [h.drained, show pipe = [] from hp]; rfl⟩
  · exact .inr ⟨h.alive, Bool.eq_false_iff.mpr hh, h.drained, h.closed⟩

variable {srv : Server σ} {w : World σ} {n : Nat}

theorem Connected.healthy (h : Connected n w) : w.healthy = true := by
  obtain ⟨-, pipe, hl, -⟩ := h
  simp [World.healthy, hl]

theorem Connected.append (h : Connected n w) (req : Request) :
    Smooth (append srv req) w fun sent w' =>
      sent = true ∧ Connected (n + 1) w' ∧ w'.queued = w.queued ∧ w'.openBatch = w.openBatch := by
  obtain ⟨ha, pipe, hl, hp⟩ := h
  have he : (appendEvent req true).fails = false := by
    unfold appendEvent
    split <;> rfl
  refine Smooth.event _ true { w with link := some { pipe := pipe ++ [req] } } he (fun t => ?_)
    ⟨rfl, ⟨ha, _, rfl, by rw [List.length_append, hp]; rfl⟩, rfl, rfl⟩
  unfold CdrProcessor.append
  dsimp only
  rw [ha, hl]
  dsimp only
  rw [if_pos rfl]

theorem Connected.getReply (h : Connected (n + 1) w) :
    Smooth (getReply srv) w fun reply w' =>
      reply.isSome = true ∧ Connected n w' ∧ w'.queued = w.queued ∧ w'.openBatch = w.openBatch := by
  obtain ⟨ha, pipe, hl, hp⟩ := h
  cases pipe with
  | nil => cases hp
  | cons req pipe =>
    refine Smooth.event .reply (some (serve srv req w.host).1)
      { w with host := (serve srv req w.host).2, link := some { pipe } } rfl
      (fun t => ?_) ⟨rfl, ⟨ha, pipe, rfl, Nat.succ.inj hp⟩, rfl, rfl⟩
    unfold CdrProcessor.getReply
    dsimp only
    rw [ha, hl]

theorem Ready.conn (h : Ready w) :
    Smooth (RedisConn.get srv) w fun up w' =>
      up = true ∧ Connected w'.queued w' ∧ w'.openBatch = w.openBatch := by
  unfold RedisConn.get
  refine Smooth.get (fun t => rfl) ?_
  rcases h with h | ⟨ha, hh, hq, -⟩
  · rw [if_pos h.healthy]
    exact Smooth.pure ⟨rfl, h, rfl⟩
  · rw [if_neg (by rw [hh]; decide)]
    refine Smooth.modify (fun t => rfl) ?_
    refine Smooth.event (.connect true) true
      { w with link := some {}, host := { w.host with multi := none, dirty := false } } rfl
      (fun t => ?_) ⟨rfl, ⟨ha, [], rfl, hq.symm⟩, rfl⟩
    unfold dial
    dsimp only
    rw [ha]

/-! ## The store -/

theorem Ready.batch (h : Ready w) :
    Smooth (batch srv) w fun opened w' => opened = true ∧ Connected w'.queued w' := by
  unfold RedisStore.batch
  have hready : Ready (if w.broken then { w with link := none, queued := 0, openBatch := false }
      else w) := by
    split
    · next hb =>
      rcases h with ⟨ha, pipe, hl, -⟩ | ⟨ha, -⟩
      · simp [World.broken, hl] at hb
      · exact .inr ⟨ha, rfl, rfl, rfl⟩
    · exact h
  refine Smooth.modify (fun t => ?_) (hready.conn.bind fun up v hv => ?_)
  · change (if w.broken then _ else _) = _
    split <;> rfl
  · obtain ⟨rfl, hconn, -⟩ := hv
    rw [if_neg (by decide)]
    refine Smooth.get (fun t => rfl) ?_
    split
    · exact Smooth.pure ⟨rfl, hconn⟩
    · refine (hconn.append .multi).bind fun sent v' hv' => ?_
      obtain ⟨rfl, hsent, hq, -⟩ := hv'
      rw [← hq] at hsent
      rw [if_neg (by decide)]
      exact Smooth.modify (fun t => rfl) (Smooth.pure ⟨rfl, hsent⟩)

theorem Connected.readReplies (h : Connected n w) :
    Smooth (readReplies srv n) w fun _ w' => Connected 0 w' ∧ w'.openBatch = w.openBatch := by
  induction n generalizing w with
  | zero => exact Smooth.pure ⟨h, rfl⟩
  | succ n ih =>
    unfold RedisStore.readReplies
    refine h.getReply.bind fun reply v hv => ?_
    obtain ⟨hreply, hconn, -, hopen⟩ := hv
    cases reply with
    | none => cases hreply
    | some reply =>
      refine (ih hconn).bind fun ok v' hv' => ?_
      exact Smooth.pure ⟨hv'.1, hv'.2.trans hopen⟩

/-- Whatever the replies say, all of them are read. -/
theorem Ready.drain (h : Ready w) :
    Smooth (drain srv) w fun _ w' => Ready w' := by
  unfold RedisStore.drain
  refine Smooth.get (fun t => rfl) ?_
  split
  · exact Smooth.pure h
  · next hq =>
    refine Smooth.get (fun t => rfl) ?_
    rcases h with h | ⟨-, -, h0, -⟩
    · rw [if_neg (by rw [h.healthy]; decide)]
      refine Smooth.get (fun t => rfl) (h.readReplies.bind fun ok v hv => ?_)
      exact Smooth.modify (fun t => rfl) (Smooth.pure (.inl hv.1))
    · exact absurd h0 hq

theorem Ready.enqueue (h : Ready w) (drains : Bool) (c : Command) :
    Smooth (enqueue srv drains c) w fun _ w' => Ready w' := by
  unfold RedisStore.enqueue
  refine h.batch.bind fun opened v hv => ?_
  obtain ⟨rfl, hconn⟩ := hv
  rw [if_neg (by decide)]
  refine (hconn.append (.command c)).bind fun sent v' hv' => ?_
  obtain ⟨rfl, hsent, hq, -⟩ := hv'
  rw [← hq] at hsent
  rw [if_neg (by decide)]
  have hready : Ready { v' with queued := v'.queued + 1 } := .inl hsent
  refine Smooth.modify (fun t => rfl) (Smooth.get (fun t => rfl) ?_)
  split
  · exact hready.drain
  · exact Smooth.pure hready

theorem Ready.flush (h : Ready w) : Smooth (flush srv) w fun _ w' => Ready w' := by
  unfold RedisStore.flush
  refine Smooth.get (fun t => rfl) ?_
  split
  · exact h.drain
  · next ho =>
    refine Smooth.get (fun t => rfl) ?_
    rcases h with h | ⟨-, -, -, hclosed⟩
    · rw [if_neg (by rw [h.healthy]; decide)]
      refine (h.append .exec).bind fun sent v hv => ?_
      obtain ⟨rfl, hsent, hq, -⟩ := hv
      rw [← hq] at hsent
      refine Smooth.modify (fun t => rfl) ?_
      rw [if_neg (by decide)]
      have hready : Ready { v with openBatch := false, queued := v.queued + 1 } := .inl hsent
      exact Smooth.modify (fun t => rfl) hready.drain
    · rw [hclosed] at ho
      exact absurd rfl ho

theorem Ready.resumeAt (h : Ready w) (source : Text) :
    Smooth (resumeAt srv source) w fun _ w' => Ready w' := by
  unfold RedisStore.resumeAt
  refine h.flush.bind fun flushed v hv => hv.conn.bind fun up v' hv' => ?_
  obtain ⟨rfl, hconn, -⟩ := hv'
  rw [if_neg (by decide)]
  refine (hconn.append _).bind fun sent u hu => ?_
  obtain ⟨rfl, hsent, hq, -⟩ := hu
  rw [if_pos rfl]
  refine hsent.getReply.bind fun reply u' hu' => ?_
  obtain ⟨hreply, hread, hq', -⟩ := hu'
  rw [← hq, ← hq'] at hread
  cases reply with
  | none => cases hreply
  | some reply => cases reply <;> exact Smooth.pure (.inl hread)

/-! ## The sink -/

theorem Ready.addAll {add : Text → Text → UInt64 → Client σ Bool}
    (hadd : ∀ key field value (w : World σ), Ready w →
      Smooth (add key field value) w fun _ w' => Ready w')
    (l : List (Text × Text × UInt64)) (ok : Bool) (h : Ready w) :
    Smooth (addAll add l ok) w fun _ w' => Ready w' := by
  induction l generalizing w ok with
  | nil => exact Smooth.pure h
  | cons e l ih =>
    unfold CdrProcessor.addAll
    exact (hadd e.1 e.2.1 e.2.2 w h).bind fun added v hv => ih _ hv

/-- A writer's command, or none for a value of 0. -/
theorem Ready.write (command : Text → Text → UInt64 → Command) (key field : Text) (value : UInt64)
    (h : Ready w) :
    Smooth (if value = 0 then pure true
      else RedisStore.enqueue srv true (command key field value)) w
      fun _ w' => Ready w' := by
  split
  · exact Smooth.pure h
  · exact h.enqueue _ _

/-- **A call of `consume` comes to its end**, and leaves the thread ready for the next. -/
theorem Ready.consume (h : Ready w) (visit : Visit) (batch : List CdrRecord) (source : Text) :
    Smooth (AggregateSink.consume (redisStore srv) visit batch source) w fun _ w' => Ready w' := by
  have hadd : ∀ key field value (w : World σ), Ready w →
      Smooth (AggregateWriter.add (redisStore srv) key field value) w fun _ w' => Ready w' :=
    fun key field value w h => h.write (fun key field value => .hincrby key field value) _ _ _
  have hrank : ∀ board member value (w : World σ), Ready w →
      Smooth (RankWriter.add (redisStore srv) board member value) w fun _ w' => Ready w' :=
    fun board member value w h => h.write (fun board member value => .zincrby board value member) _ _ _
  have hrest : ∀ w : World σ, Ready w → Smooth (do
      let delta := (← MonadState.get).delta
      let _ ← RankWriter.write (redisStore srv) visit delta
      let _ ← AggregateWriter.writeDelta (redisStore srv) visit delta : Client σ Unit) w
        fun _ w' => Ready w' := by
    intro w h
    refine Smooth.get (fun t => rfl) ((h.addAll hrank _ _).bind fun _ v hv => ?_)
    refine Smooth.bind (P := fun _ w' => Ready w') ?_ fun _ v' hv' => Smooth.pure hv'
    exact (hv.addAll hadd _ _).bind fun _ v' hv' => Smooth.bind hv'.flush fun _ u hu => Smooth.pure hu
  unfold AggregateSink.consume
  refine Smooth.modify (fun t => rfl) (Smooth.modify (fun t => rfl) ?_)
  have hready : Ready (folded batch w) := h
  refine (hready.addAll hadd _ _).bind fun _ v hv => ?_
  split
  · exact Smooth.bind (hv.enqueue false _) fun _ v' hv' => hrest v' hv'
  · exact hrest v hv

end CdrProcessor
