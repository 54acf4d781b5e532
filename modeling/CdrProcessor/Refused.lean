import CdrProcessor.Consume

/-! A store that takes nothing: whatever the sink asks of it is refused, and the sink comes
back all the same. -/

namespace CdrProcessor

open Script RedisStore

variable {σ α β : Type} {srv : Server σ}

/-- A live thread with nothing queued and nothing open. -/
structure AtRest (w : World σ) : Prop where
  alive : w.alive = true
  closed : w.openBatch = false
  drained : w.queued = 0

/-- A program that comes back, and leaves the thread at rest, under some events. -/
def Refusable (x : Client σ α) : Prop :=
  ∀ w : World σ, AtRest w → ∃ es a v, AtRest v ∧
    ∀ rest, x { w with script := es ++ rest } = some (a, { v with script := rest })

theorem Refusable.pure (a : α) : Refusable (pure a : Client σ α) :=
  fun w hw => ⟨[], a, w, hw, fun _ => rfl⟩

theorem Refusable.bind {x : Client σ α} {k : α → Client σ β} (hx : Refusable x)
    (hk : ∀ a, Refusable (k a)) : Refusable (x >>= k) := by
  intro w hw
  obtain ⟨es, a, v, hv, h1⟩ := hx w hw
  obtain ⟨es', b, u, hu, h2⟩ := hk a v hv
  refine ⟨es ++ es', b, u, hu, fun rest => ?_⟩
  rw [List.append_assoc, bind_of_eq_some (h1 (es' ++ rest))]
  exact h2 rest

/-- A program that goes by the delta it finds. -/
theorem Refusable.read {k : Delta → Client σ α} (hk : ∀ d, Refusable (k d)) :
    Refusable (do k (← get).delta) := by
  intro w hw
  obtain ⟨es, a, v, hv, h⟩ := hk w.delta w hw
  exact ⟨es, a, v, hv, h⟩

/-- A change to what the connection does not go by. -/
theorem Refusable.modify {g : World σ → World σ} (hg : ∀ w, AtRest w → AtRest (g w))
    (hs : ∀ w s, g { w with script := s } = { g w with script := s }) :
    Refusable (modify g : Client σ PUnit) := by
  intro w hw
  refine ⟨[], ⟨⟩, g w, hg w hw, fun rest => ?_⟩
  rw [← hs]
  rfl

/-! ## The calls -/

/-- A connection that is there breaks on the MULTI, any other is not made again. -/
theorem refusable_enqueue (drains : Bool) (c : Command) : Refusable (enqueue srv drains c) := by
  rintro ⟨host, link, queued, openBatch, delta, totals, alive, script⟩ ⟨ha, ho, hq⟩
  cases ha
  cases ho
  cases hq
  rcases link with _ | ⟨_ | _, pipe⟩
  · exact ⟨[.connect false], false, { host, delta, runTotals := totals }, ⟨rfl, rfl, rfl⟩,
      fun _ => rfl⟩
  · exact ⟨[.append false], false, { host, link := some { err := true }, delta, runTotals := totals },
      ⟨rfl, rfl, rfl⟩, fun _ => rfl⟩
  · exact ⟨[.connect false], false, { host, delta, runTotals := totals }, ⟨rfl, rfl, rfl⟩,
      fun _ => rfl⟩

theorem refusable_flush : Refusable (flush srv) := by
  rintro ⟨host, link, queued, openBatch, delta, totals, alive, script⟩ ⟨ha, ho, hq⟩
  cases ha
  cases ho
  cases hq
  exact ⟨[], true, { host, link, delta, runTotals := totals }, ⟨rfl, rfl, rfl⟩, fun _ => rfl⟩

theorem refusable_addAll {add : Text → Text → UInt64 → Client σ Bool}
    (h : ∀ key field value, Refusable (add key field value)) (l : List (Text × Text × UInt64))
    (ok : Bool) : Refusable (addAll add l ok) := by
  induction l generalizing ok with
  | nil => exact .pure ok
  | cons e l ih => exact (h e.1 e.2.1 e.2.2).bind fun added => ih _

/-- **The sink comes back**, with every one of its calls refused. -/
theorem refusable_consume (visit : Visit) (batch : List CdrRecord) (source : Text) :
    Refusable (AggregateSink.consume (redisStore srv) visit batch source) := by
  have hadd : ∀ key field value, Refusable (AggregateWriter.add (redisStore srv) key field value) := by
    intro key field value
    unfold AggregateWriter.add
    split
    · exact .pure true
    · exact refusable_enqueue _ _
  have hrank : ∀ board member value, Refusable (RankWriter.add (redisStore srv) board member value) := by
    intro board member value
    unfold RankWriter.add
    split
    · exact .pure true
    · exact refusable_enqueue _ _
  have hwrite : ∀ delta, Refusable (AggregateWriter.writeDelta (redisStore srv) visit delta) :=
    fun delta => (refusable_addAll hadd _ _).bind fun ok => refusable_flush.bind fun _ => .pure _
  have hlast : Refusable (do
      let delta := (← get).delta
      let _ ← RankWriter.write (redisStore srv) visit delta
      let _ ← AggregateWriter.writeDelta (redisStore srv) visit delta : Client σ Unit) :=
    .read fun delta => (refusable_addAll hrank _ _).bind fun _ => (hwrite delta).bind fun _ => .pure ()
  unfold AggregateSink.consume
  apply Refusable.bind
  · exact .modify (fun w hw => ⟨hw.alive, hw.closed, hw.drained⟩) fun _ _ => rfl
  intro _
  apply Refusable.bind
  · exact .modify (fun w hw => ⟨hw.alive, hw.closed, hw.drained⟩) fun _ _ => rfl
  intro _
  apply Refusable.bind
  · exact refusable_addAll hadd _ _
  intro _
  dsimp only
  split
  · exact (refusable_enqueue _ _).bind fun _ => hlast
  · exact hlast

end CdrProcessor
