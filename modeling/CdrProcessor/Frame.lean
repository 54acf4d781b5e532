import CdrProcessor.Transaction

/-! What the calls on the store leave alone.  A relation that holds across the three
calls into hiredis, and that does not see a thread's own connection state, holds
across every call made of them. -/

namespace CdrProcessor

open Script RedisStore

variable {σ : Type}

/-- A relation between the states before and after that no call of the store leaves: it
holds across the calls into hiredis, and when a thread sets its counters or drops its
connection. -/
structure Wires (srv : Server σ) (R : World σ → World σ → Prop) : Prop where
  stable : Stable R
  own : ∀ w link queued openBatch, link = w.link ∨ link = none →
    R w { w with link, queued, openBatch }
  dial : Within R (dial srv)
  append : ∀ req, Within R (append srv req)
  getReply : Within R (getReply srv)

namespace Wires

variable {srv : Server σ} {R : World σ → World σ → Prop} (F : Wires srv R)

include F

theorem counters (w : World σ) (queued : Nat) (openBatch : Bool) :
    R w { w with queued, openBatch } := F.own w w.link queued openBatch (.inl rfl)

theorem drop (w : World σ) (queued : Nat) (openBatch : Bool) :
    R w { w with link := none, queued, openBatch } := F.own w none queued openBatch (.inr rfl)

theorem conn : Within R (RedisConn.get srv) :=
  .bind F.stable (.get F.stable) fun _ => .ite (.pure F.stable _)
    (.bind F.stable (.modify fun w => F.drop w _ _) fun _ => F.dial)

theorem batch : Within R (batch srv) := by
  refine .bind F.stable (.modify ?_) fun _ => .bind F.stable F.conn fun _ =>
    .ite (.pure F.stable _) (.bind F.stable (.get F.stable) fun _ => .ite (.pure F.stable _)
      (.bind F.stable (F.append _) fun _ => .ite (.pure F.stable _)
        (.bind F.stable (.modify fun w => F.counters w _ _) fun _ => .pure F.stable _)))
  intro w
  split
  · exact F.drop w _ _
  · exact F.stable.refl w

theorem readReplies (n : Nat) : Within R (readReplies srv n) := by
  induction n with
  | zero => exact .pure F.stable _
  | succ n ih =>
    refine .bind F.stable F.getReply fun reply => ?_
    cases reply with
    | none => exact .bind F.stable (.modify fun w => F.counters w _ _) fun _ => .pure F.stable _
    | some reply => exact .bind F.stable ih fun _ => .pure F.stable _

theorem drain : Within R (drain srv) :=
  .bind F.stable (.get F.stable) fun _ => .ite (.pure F.stable _)
    (.bind F.stable (.get F.stable) fun _ => .ite
      (.bind F.stable (.modify fun w => F.counters w _ _) fun _ => .pure F.stable _)
      (.bind F.stable (.get F.stable) fun _ => .bind F.stable (F.readReplies _) fun _ =>
        .bind F.stable (.modify fun w => F.counters w _ _) fun _ => .pure F.stable _))

theorem enqueue (drains : Bool) (c : Command) : Within R (enqueue srv drains c) :=
  .bind F.stable F.batch fun _ => .ite (.pure F.stable _)
    (.bind F.stable (F.append _) fun _ => .ite (.pure F.stable _)
      (.bind F.stable (.modify fun w => F.counters w _ _) fun _ =>
        .bind F.stable (.get F.stable) fun _ => .ite F.drain (.pure F.stable _)))

theorem flush : Within R (flush srv) :=
  .bind F.stable (.get F.stable) fun _ => .ite F.drain
    (.bind F.stable (.get F.stable) fun _ => .ite
      (.bind F.stable (.modify fun w => F.counters w _ _) fun _ => .pure F.stable _)
      (.bind F.stable (F.append _) fun _ => .bind F.stable (.modify fun w => F.counters w _ _) fun _ =>
        .ite (.bind F.stable (.modify fun w => F.counters w _ _) fun _ => .pure F.stable _)
          (.bind F.stable (.modify fun w => F.counters w _ _) fun _ => F.drain)))

theorem runCalls (cs : List Call) : Within R (runCalls (redisStore srv) cs) := by
  induction cs with
  | nil => exact .pure F.stable _
  | cons c cs ih =>
    refine .bind F.stable ?_ fun _ => .bind F.stable ih fun _ => .pure F.stable _
    rw [Call.run_eq]
    exact F.enqueue _ _

theorem transaction (cs : List Call) : Within R (transaction (redisStore srv) cs) :=
  .bind F.stable (F.runCalls cs) fun _ => .bind F.stable F.flush fun _ => .pure F.stable _

theorem resumeAt (source : Text) : Within R (resumeAt srv source) := by
  refine .bind F.stable F.flush fun _ => .bind F.stable F.conn fun _ =>
    .ite (.pure F.stable _) (.bind F.stable (F.append _) fun sent =>
      .ite (.bind F.stable F.getReply fun reply => ?_)
        (.bind F.stable (.pure F.stable _) fun reply => ?_))
  -- what is done with the reply, the same on both ways
  all_goals
    cases reply with
    | none => exact .bind F.stable (.modify fun w => F.drop w _ _) fun _ => .pure F.stable _
    | some reply => cases reply <;> exact .pure F.stable _

end Wires

/-- Such a relation that does not see a thread's own connection state at all. -/
structure Frame (srv : Server σ) (R : World σ → World σ → Prop) : Prop where
  stable : Stable R
  own : ∀ w link queued openBatch, R w { w with link, queued, openBatch }
  dial : Within R (dial srv)
  append : ∀ req, Within R (append srv req)
  getReply : Within R (getReply srv)

theorem Frame.wires {srv : Server σ} {R : World σ → World σ → Prop} (F : Frame srv R) :
    Wires srv R where
  stable := F.stable
  own w link queued openBatch _ := F.own w link queued openBatch
  dial := F.dial
  append := F.append
  getReply := F.getReply

/-! ## The sink's own state -/

/-- The delta and the totals are the sink's, no call on the store touches them. -/
def sinkState (w : World σ) : Delta × RunTotals := (w.delta, w.runTotals)

theorem frame_sinkState (srv : Server σ) :
    Frame srv fun w w' => sinkState w' = sinkState w where
  stable := ⟨fun _ => rfl, fun _ _ _ h h' => h'.trans h⟩
  own _ _ _ _ := rfl
  dial := by
    intro w r w' h
    unfold CdrProcessor.dial at h
    split at h <;> cases h <;> rfl
  append := by
    intro req w r w' h
    unfold CdrProcessor.append at h
    split at h
    · cases h; rfl
    · split at h
      · cases h; rfl
      · split at h
        · cases h; rfl
        · split at h <;> cases h
          rfl
    · cases h
  getReply := by
    intro w r w' h
    unfold CdrProcessor.getReply at h
    split at h <;> cases h <;> rfl

/-! ## The life of the process -/

def Event.isKill : Event → Bool
  | .kill _ => true
  | _ => false

/-- A process is alive as long as none of the events it met was a kill. -/
def Lives (w w' : World σ) : Prop :=
  ∃ es, w.script = es ++ w'.script ∧ w'.alive = (w.alive && !es.any Event.isKill)

theorem appendEvent_isKill (req : Request) (ok : Bool) : (appendEvent req ok).isKill = false := by
  unfold appendEvent
  split <;> rfl

theorem frame_lives (srv : Server σ) : Frame srv Lives where
  stable := by
    refine ⟨fun w => ⟨[], rfl, by simp⟩, ?_⟩
    rintro w v u ⟨es, hs, ha⟩ ⟨es', hs', ha'⟩
    exact ⟨es ++ es', by rw [hs, hs', List.append_assoc], by
      rw [ha', ha, List.any_append, Bool.not_or, Bool.and_assoc]⟩
  own w _ _ _ := ⟨[], rfl, by simp⟩
  dial := by
    intro w r w' h
    rcases Bool.eq_false_or_eq_true w.alive with ha | ha
    · rcases dial_cases ha h with ⟨s, hs, -, rfl⟩ | ⟨s, hs, -, rfl⟩ | ⟨s, served, hs, -, rfl⟩
      · exact ⟨[.connect true], hs, by simp [ha, Event.isKill]⟩
      · exact ⟨[.connect false], hs, by simp [ha, Event.isKill]⟩
      · exact ⟨[.kill served], hs, by simp [World.die, Event.isKill]⟩
    · rw [dial_dead ha] at h
      cases h
      exact ⟨[], rfl, by simp⟩
  append := by
    intro req w r w' h
    rcases Bool.eq_false_or_eq_true w.alive with ha | ha
    · obtain ⟨l, e, -, hs, ⟨rfl, -, hw⟩ | ⟨rfl, -, hw⟩ | ⟨served, rfl, -, hw⟩⟩ := append_cases ha h
      · exact ⟨[appendEvent req true], hs, by rw [hw]; simp [ha, appendEvent_isKill]⟩
      · exact ⟨[appendEvent req false], hs, by rw [hw]; simp [ha, appendEvent_isKill]⟩
      · exact ⟨[.kill served], hs, by rw [hw]; simp [World.die, Event.isKill]⟩
    · unfold CdrProcessor.append at h
      rw [ha] at h
      cases h
      exact ⟨[], rfl, by simp⟩
  getReply := by
    intro w r w' h
    rcases Bool.eq_false_or_eq_true w.alive with ha | ha
    · obtain ⟨l, e, -, hs, ⟨req, pipe, rfl, -, -, hw⟩ | ⟨served, rfl, -, hw⟩ |
        ⟨served, rfl, -, hw⟩⟩ := getReply_cases ha h
      · exact ⟨[.reply], hs, by rw [hw]; simp [ha, Event.isKill]⟩
      · exact ⟨[.lost served], hs, by rw [hw]; simp [ha, Event.isKill]⟩
      · exact ⟨[.kill served], hs, by rw [hw]; simp [World.die, Event.isKill]⟩
    · unfold CdrProcessor.getReply at h
      rw [ha] at h
      cases h
      exact ⟨[], rfl, by simp⟩

end CdrProcessor
