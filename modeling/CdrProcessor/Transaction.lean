import CdrProcessor.StoreCalls

/-! Calls on the store and the flush behind them, as one transaction.  Every call
moves the batch from one phase to the next, and the flush settles what is left:
all of it, a part of it when the connection came back half way, or nothing. -/

namespace CdrProcessor

open Script RedisStore

/-! ## Calls -/

/-- The calls that change the store. -/
inductive Call where
  | increment (key field : Text) (value : UInt64)
  | rank (board member : Text) (value : UInt64)
  | mark (source : Text) (seq : UInt64)
  deriving DecidableEq, Repr

/-- The command a call sends. -/
def Call.command : Call → Command
  | .increment key field value => .hincrby key field value
  | .rank board member value => .zincrby board value member
  | .mark source seq => .hset kProgressKey source seq

/-- Whether a call drains a full pipeline. -/
def Call.drains : Call → Bool
  | .mark _ _ => false
  | _ => true

variable {m : Type → Type} [Monad m]

def Call.run (store : IStore m) : Call → m Bool
  | .increment key field value => store.increment key field value
  | .rank board member value => store.rank board member value
  | .mark source seq => store.mark source seq

/-- The calls in order, and what each of them returned. -/
def runCalls (store : IStore m) : List Call → m (List Bool)
  | [] => pure []
  | c :: cs => do
    let r ← c.run store
    let rs ← runCalls store cs
    pure (r :: rs)

/-- The calls, then a flush. -/
def transaction (store : IStore m) (cs : List Call) : m (List Bool × Bool) := do
  let rs ← runCalls store cs
  let flushed ← store.flush
  pure (rs, flushed)

variable {σ : Type} {srv : Server σ}

theorem Call.run_eq (c : Call) :
    c.run (redisStore srv) = enqueue srv c.drains c.command := by cases c <;> rfl

/-! ## Phases -/

/-- Where a batch stands after the commands `cs`, begun in the state `w0`, with
the events `es` behind it and `ok` telling whether all went well. -/
inductive Phase (srv : Server σ) (w0 : World σ) (cs : List Command) (es : List Event)
    (ok : Bool) (w : World σ) : Prop where
  | start (hcs : cs = []) (hes : es = []) (hok : ok = true) (hw : w = w0)
  /-- Every command is in the open transaction. -/
  | whole (hcs : cs ≠ []) (sent pend : List Request)
      (ho : Opened srv w0.host.fresh cs sent pend w)
      (hu : Undisturbed es) (hn : NoExec es) (ha : appends es = cs.length + 1)
      (hok : ok = clean (replies srv sent w0.host.fresh))
  /-- Only the commands behind a failure are. -/
  | part (h : Host σ) (t : List Command) (sent pend : List Request) (hm : h.multi = none)
      (hh : Unmoved srv w0.host h) (ho : Opened srv h t sent pend w) (ht : t ≠ [])
      (hs : t <:+ cs) (hl : t.length < cs.length) (hr : Reopened es) (hn : NoExec es)
      (ha : appends es = t.length + 1) (hok : ok = false)
  /-- There is no open transaction, or no one to carry it on. -/
  | struck (hcs : cs ≠ []) (hst : Struck srv w0.host es w) (hok : ok = false)

theorem connects_undisturbed (w : World σ) : Undisturbed (connects w) := by
  intro e he
  unfold connects at he
  split at he
  · cases he
  · rw [List.mem_singleton.mp he]; rfl

theorem connects_noExec (w : World σ) : NoExec (connects w) := by
  intro ok he
  unfold connects at he
  split at he <;> simp at he

theorem connects_appends (w : World σ) : appends (connects w) = 0 := by
  unfold connects
  split <;> rfl

theorem Struck.prepend {h h' : Host σ} {es es' : List Event} {w : World σ}
    (hu : Unmoved srv h h') (hn : NoExec es) (hst : Struck srv h' es' w) :
    Struck srv h (es ++ es') w := by
  obtain ⟨e, he, hf⟩ := hst.failed
  exact ⟨hu.trans hst.unmoved, ⟨e, List.mem_append_right _ he, hf⟩, hn.append hst.noExec, hst.state⟩

/-- **Step lemma.**  One more command takes a batch from one phase to another. -/
theorem Phase.step {w0 w w' : World σ} {cs : List Command} {es : List Event} {ok r : Bool}
    {c : Command} {drains : Bool} (hi : Idle w0) (hp : Phase srv w0 cs es ok w)
    (hx : enqueue srv drains c w = some (r, w')) :
    ∃ es', w.script = es' ++ w'.script ∧ Phase srv w0 (cs ++ [c]) (es ++ es') (ok && r) w' := by
  cases hp with
  | start hcs hes hok hw =>
    subst hcs hes hok hw
    obtain ⟨es', hs, ⟨sent, pend, es'', ho, rfl, hu, hn, ha, hr⟩ | ⟨rfl, hst⟩⟩ :=
      enqueue_ready (.inl hi) hx
    · refine ⟨_, hs, .whole (by simp) sent pend ho ((connects_undisturbed _).append hu)
        ((connects_noExec _).append hn) ?_ ?_⟩
      · rw [List.nil_append, ha, connects_appends]
        rfl
      · rw [hr, Bool.true_and]
    · exact ⟨es', hs, .struck (by simp) hst rfl⟩
  | whole hcs sent pend ho hu hn ha hok =>
    obtain ⟨es', hs, ⟨sent', pend', ho', hu', hn', ha', hr⟩ | ⟨rfl, hst⟩⟩ :=
      enqueue_opened rfl ho hx
    · refine ⟨es', hs, .whole (by simp) sent' pend' ho' (hu.append hu') (hn.append hn') ?_ ?_⟩
      · rw [ha', ha, List.length_append]
        rfl
      · rw [hr, hok]
    · exact ⟨es', hs, .struck (by simp) (.prepend (.fresh srv _) hn hst) (Bool.and_false ok)⟩
  | part h t sent pend hm hh ho ht hs hl hr hn ha hok =>
    subst hok
    obtain ⟨es', hs', ⟨sent', pend', ho', -, hn', ha', -⟩ | ⟨rfl, hst⟩⟩ := enqueue_opened hm ho hx
    · refine ⟨es', hs', .part h (t ++ [c]) sent' pend' hm hh ho' (by simp) ?_ ?_ (hr.append es')
        (hn.append hn') ?_ rfl⟩
      · obtain ⟨u, rfl⟩ := hs
        exact ⟨u, by simp⟩
      · simpa using hl
      · rw [ha', ha, List.length_append]
        rfl
    · exact ⟨es', hs', .struck (by simp) (.prepend hh hn hst) rfl⟩
  | struck hcs hst hok =>
    subst hok
    rcases hst.state with hd | hd
    · obtain ⟨es', hs, ⟨sent, pend, es'', ho, rfl, -, hn, ha, -⟩ | ⟨rfl, hst'⟩⟩ :=
        enqueue_ready (.inr hd) hx
      · -- the connection came back, and the commands before this one are gone
        refine ⟨_, hs, .part w.host.fresh [c] sent pend rfl
          (hst.unmoved.trans (.fresh srv _)) ho (by simp) ⟨cs, rfl⟩ ?_ ?_
          (hst.noExec.append ((connects_noExec _).append hn)) ?_ rfl⟩
        · have := List.length_pos_iff.mpr hcs
          simpa using this
        · refine ⟨es, es'', ?_, hst.failed⟩
          simp [connects, hd.unhealthy]
        · have hc : connects w = [.connect true] := by simp [connects, hd.unhealthy]
          rw [hc, ← List.append_assoc, ha, appends_connect]
          rfl
      · exact ⟨es', hs, .struck (by simp) (.prepend hst.unmoved hst.noExec hst') rfl⟩
    · obtain ⟨rfl, rfl⟩ := enqueue_dead hd hx
      exact ⟨[], rfl, .struck (by simp) (by rw [List.append_nil]; exact hst) rfl⟩

/-- **Run lemma.**  A whole list of calls. -/
theorem Phase.run {w0 w w' : World σ} {done : List Command} {es : List Event} {ok : Bool}
    {cs : List Call} {rs : List Bool} (hi : Idle w0) (hp : Phase srv w0 done es ok w)
    (hx : runCalls (redisStore srv) cs w = some (rs, w')) :
    ∃ es', w.script = es' ++ w'.script ∧
      Phase srv w0 (done ++ cs.map Call.command) (es ++ es') (ok && rs.all id) w' := by
  induction cs generalizing w done es ok rs with
  | nil =>
    cases hx
    exact ⟨[], rfl, by simpa using hp⟩
  | cons c cs ih =>
    unfold runCalls at hx
    obtain ⟨r, v, hc, hx⟩ := bind_eq_some.mp hx
    obtain ⟨rs', v', hcs, hx⟩ := bind_eq_some.mp hx
    cases hx
    rw [Call.run_eq] at hc
    obtain ⟨es1, hs1, hp1⟩ := hp.step hi hc
    obtain ⟨es2, hs2, hp2⟩ := ih hp1 hcs
    refine ⟨es1 ++ es2, by rw [hs1, hs2, List.append_assoc], ?_⟩
    simpa [Bool.and_assoc] using hp2

/-! ## What the flush leaves -/

/-- The outcome of a transaction over the commands `cs`, read off its events. -/
structure Landing (srv : Server σ) (w0 : World σ) (cs : List Command) (es : List Event)
    (ok : Bool) (w : World σ) : Prop where
  state : Idle w ∨ Dead w
  whole : Lands es → ¬ Reopened es → cs ≠ [] ∧ w.host = closed srv cs w0.host.fresh
  full : Lands es → ¬ Reopened es → appends es = cs.length + 1
  part : Lands es → Reopened es → ∃ h t, h.multi = none ∧ Unmoved srv w0.host h ∧ t ≠ [] ∧
    t <:+ cs ∧ t.length < cs.length ∧ w.host = closed srv t h ∧ appends es = t.length + 1
  none : ¬ Lands es → Unmoved srv w0.host w.host
  quiet : Undisturbed es → cs ≠ [] →
    Lands es ∧ ok = clean (replies srv (opening cs ++ [.exec]) w0.host.fresh)
  failed : ¬ Undisturbed es → ok = false

theorem not_undisturbed {es : List Event} (h : ∃ e ∈ es, e.fails = true) :
    ¬ Undisturbed es := by
  obtain ⟨e, he, hf⟩ := h
  intro hu
  rw [hu e he] at hf
  cases hf

theorem lands_append_iff {es es' : List Event} (hn : NoExec es) :
    Lands (es ++ es') ↔ Lands es' := by
  constructor
  · rintro ⟨pre, post, h, hl⟩
    rcases List.append_eq_append_iff.mp h with ⟨a, hp, he⟩ | ⟨a, hp, he⟩
    · exact ⟨a, post, he, hl⟩
    · cases a with
      | nil => exact ⟨[], post, by simpa using he.symm, hl⟩
      | cons x a =>
        -- the EXEC would be one of `es`
        rw [List.cons_append] at he
        cases (List.cons.inj he).1
        exact absurd (by rw [hp]; simp) (hn true)
  · rintro ⟨pre, post, rfl, hl⟩
    exact ⟨es ++ pre, post, by simp, hl⟩

theorem Undisturbed.not_reopened_append {es es' : List Event} (hu : Undisturbed es)
    (hc : .connect true ∉ es') : ¬ Reopened (es ++ es') := by
  rintro ⟨pre, post, h, e, he, hf⟩
  rcases List.append_eq_append_iff.mp h with ⟨a, hp, hq⟩ | ⟨a, hp, hq⟩
  · exact hc (by rw [hq]; simp)
  · rw [hu e (by rw [hp]; exact List.mem_append_left _ he)] at hf
    cases hf

/-- **The outcome of every transaction**, whatever failed on the way. -/
theorem transaction_landing {w0 w : World σ} {cs : List Call} {rs : List Bool} {flushed : Bool}
    (hi : Idle w0) (hx : transaction (redisStore srv) cs w0 = some ((rs, flushed), w)) :
    ∃ es, w0.script = es ++ w.script ∧
      Landing srv w0 (cs.map Call.command) es (rs.all id && flushed) w := by
  unfold transaction at hx
  obtain ⟨rs', v, hr, hx⟩ := bind_eq_some.mp hx
  obtain ⟨f', v', hf, hx⟩ := bind_eq_some.mp hx
  cases hx
  obtain ⟨es, hs, hp⟩ := Phase.run hi (.start rfl rfl rfl rfl) hr
  rw [List.nil_append, List.nil_append, Bool.true_and] at hp
  cases hp with
  | start hcs hes hok hw =>
    subst hes hw
    have hff := @flush_idle _ srv _ hi
    cases hff.symm.trans hf
    have hn : NoExec [] := by intro ok he; cases he
    refine ⟨[], rfl, .inl hi, fun hl => absurd hl hn.not_lands, fun hl => absurd hl hn.not_lands,
      fun hl => absurd hl hn.not_lands, fun _ => .refl srv _, fun _ hcs' => absurd hcs hcs', fun hu => ?_⟩
    exact absurd (by intro e he; cases he) hu
  | whole hcs sent pend ho hu hn ha hok =>
    obtain ⟨es', hs', hc, hst, hcase⟩ := flush_opened rfl ho hf
    have hnr : ¬ Reopened (es ++ es') := hu.not_reopened_append hc.1
    refine ⟨es ++ es', by rw [hs, hs', List.append_assoc], hst, ?_,
      fun _ _ => (hc.appends es).trans ha, fun _ hr => absurd hr hnr, ?_, ?_, ?_⟩
    · intro hl _
      rw [lands_append_iff hn] at hl
      rcases hcase with ⟨-, -, -, hh, -⟩ | ⟨-, -, -, hh⟩ | ⟨-, -, hl', -⟩
      · exact ⟨hcs, hh⟩
      · exact ⟨hcs, hh⟩
      · exact absurd hl hl'
    · intro hl
      rw [lands_append_iff hn] at hl
      rcases hcase with ⟨-, hl', -⟩ | ⟨-, -, hl', -⟩ | ⟨-, -, -, hh⟩
      · exact absurd hl' hl
      · exact absurd hl' hl
      · exact (Unmoved.fresh srv _).trans hh
    · intro hu' _
      have hu'' : Undisturbed es' := fun e he => hu' e (List.mem_append_right _ he)
      rcases hcase with ⟨-, hl, -, -, hok'⟩ | ⟨-, hf, -⟩ | ⟨-, hf, -⟩
      · exact ⟨(lands_append_iff hn).mpr hl, by rw [hok]; exact hok'⟩
      · exact absurd hu'' (not_undisturbed hf)
      · exact absurd hu'' (not_undisturbed hf)
    · intro hu'
      rcases hcase with ⟨hu'', -⟩ | ⟨rfl, -⟩ | ⟨rfl, -⟩
      · exact absurd (hu.append hu'') hu'
      · simp
      · simp
  | part h t sent pend hm hh ho ht hsuf hl hr hn ha hok =>
    obtain ⟨es', hs', hc, hst, hcase⟩ := flush_opened hm ho hf
    have hnu : ¬ Undisturbed (es ++ es') := fun hu => hu.not_reopened (hr.append es')
    refine ⟨es ++ es', by rw [hs, hs', List.append_assoc], hst,
      fun _ hnr => absurd (hr.append es') hnr, fun _ hnr => absurd (hr.append es') hnr, ?_, ?_,
      fun hu => absurd hu hnu, ?_⟩
    · intro hl' _
      rw [lands_append_iff hn] at hl'
      rcases hcase with ⟨-, -, -, hh', -⟩ | ⟨-, -, -, hh'⟩ | ⟨-, -, hl'', -⟩
      · exact ⟨h, t, hm, hh, ht, hsuf, hl, hh', (hc.appends es).trans ha⟩
      · exact ⟨h, t, hm, hh, ht, hsuf, hl, hh', (hc.appends es).trans ha⟩
      · exact absurd hl' hl''
    · intro hl'
      rw [lands_append_iff hn] at hl'
      rcases hcase with ⟨-, hl'', -⟩ | ⟨-, -, hl'', -⟩ | ⟨-, -, -, hh'⟩
      · exact absurd hl'' hl'
      · exact absurd hl'' hl'
      · exact hh.trans hh'
    · intro _; rw [hok]; rfl
  | struck hcs hst hok =>
    have hnl : ¬ Lands es := hst.noExec.not_lands
    have hnu : ¬ Undisturbed es := not_undisturbed hst.failed
    have hw : w.script = v.script ∧ w.host = v.host ∧ (Idle w ∨ Dead w) := by
      rcases hst.state with hd | hd
      · obtain ⟨h1, h2, h3⟩ := flush_down hd hf
        exact ⟨h1, h2, .inl h3⟩
      · have hff := @flush_dead _ srv _ hd
        cases hff.symm.trans hf
        exact ⟨rfl, rfl, .inr hd⟩
    obtain ⟨h1, h2, h3⟩ := hw
    exact ⟨es, by rw [hs, h1], h3, fun hl => absurd hl hnl, fun hl => absurd hl hnl,
      fun hl => absurd hl hnl, fun _ => by rw [h2]; exact hst.unmoved, fun hu => absurd hu hnu,
      fun _ => by rw [hok]; rfl⟩

end CdrProcessor
