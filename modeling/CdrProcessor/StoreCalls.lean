import CdrProcessor.Connection

/-! One specification for each call on the store, from every state a thread can
be in: what it returns, which events it met, and where it leaves the batch. -/

namespace CdrProcessor

open Script RedisStore

variable {σ : Type} {srv : Server σ}

/-! ## RedisConn -/

theorem conn_healthy {w : World σ} (h : w.healthy = true) :
    RedisConn.get srv w = some (true, w) := by
  unfold RedisConn.get
  rw [get_bind, if_pos h, pure_apply]

theorem conn_unhealthy {w : World σ} (h : w.healthy = false) :
    RedisConn.get srv w = dial srv { w with link := none } := by
  unfold RedisConn.get
  rw [get_bind, if_neg (by simp [h]), modify_bind]

/-! ## drain -/

/-- The replies to `pipe` were being read when the connection, or the process,
went: `done` had been answered, and the server may still have got the rest. -/
def Cut (srv : Server σ) (pipe : List Request) (w w' : World σ) : Prop :=
  ∃ done rest served e, pipe = done ++ rest ∧ rest ≠ [] ∧
    (e = .lost served ∨ e = .kill served) ∧
    w.script = List.replicate done.length .reply ++ e :: w'.script ∧
    w'.host = serveAll srv (if served then pipe else done) w.host ∧
    w'.openBatch = false ∧
    ((w'.alive = true ∧ w'.link = some { err := true }) ∨ (w'.alive = false ∧ w'.link = none))

/-- One reply after the other, until all are in or the connection goes. -/
theorem readReplies_cases {w w' : World σ} {pipe : List Request} {ok : Bool}
    (ha : w.alive = true) (hl : w.link = some { pipe })
    (h : readReplies srv pipe.length w = some (ok, w')) :
    (ok = clean (replies srv pipe w.host) ∧
      w.script = List.replicate pipe.length .reply ++ w'.script ∧
      w' = { w with script := w'.script, host := serveAll srv pipe w.host, link := some {} }) ∨
    (ok = false ∧ Cut srv pipe w w') := by
  induction pipe generalizing w ok with
  | nil =>
    cases h
    exact .inl ⟨rfl, rfl, by rw [← hl]; rfl⟩
  | cons req pipe ih =>
    rw [List.length_cons] at h
    unfold readReplies at h
    obtain ⟨reply, v, hg, h⟩ := bind_eq_some.mp h
    obtain ⟨l, e, hl', hs, hc⟩ := getReply_cases ha hg
    cases hl.symm.trans hl'
    rcases hc with ⟨req', pipe', rfl, hp, rfl, hv⟩ | ⟨served, rfl, rfl, hv⟩ |
      ⟨served, rfl, rfl, hv⟩
    · -- the reply is in, the rest of the pipe follows
      cases hp
      obtain ⟨ok', v', hr, h⟩ := bind_eq_some.mp h
      cases h
      have hv' : v = { w with script := v.script, host := (serve srv req w.host).2,
                              link := some { pipe } } := hv
      rcases ih (by rw [hv']; exact ha) (by rw [hv']) hr with
        ⟨rfl, hs', hw⟩ | ⟨rfl, done, rest, served, e, rfl, hn, he, hs', hh, ho, hst⟩
      · refine .inl ⟨?_, ?_, ?_⟩
        · rw [hv']; rfl
        · rw [hs, hs', List.length_cons, List.replicate_succ]; rfl
        · rw [hw, hv']; rfl
      · refine .inr ⟨by simp, req :: done, rest, served, e, rfl, hn, he, ?_, ?_, ho, hst⟩
        · rw [hs, hs', List.length_cons, List.replicate_succ]; rfl
        · rw [hh, hv']; cases served <;> rfl
    · dsimp only at h
      rw [modify_bind] at h
      cases h
      refine .inr ⟨rfl, [], req :: pipe, served, _, rfl, by simp, .inl rfl, hs, ?_, rfl, .inl ?_⟩
      · rw [hv]
        cases served
        · rfl
        · exact w.settle_true srv (req :: pipe) false hl
      · rw [hv]; exact ⟨ha, rfl⟩
    · dsimp only at h
      rw [modify_bind] at h
      cases h
      refine .inr ⟨rfl, [], req :: pipe, served, _, rfl, by simp, .inr rfl, ?_, ?_, rfl, .inr ?_⟩
      · rw [hs]; rfl
      · rw [hv]
        cases served
        · rfl
        · exact w.settle_true srv (req :: pipe) false hl
      · rw [hv]; exact ⟨rfl, rfl⟩

/-- The state after a cut, once the counters are reset. -/
theorem down_of_err {w : World σ} (ha : w.alive = true) (hl : w.link = some { err := true }) :
    Down w :=
  ⟨ha, by simp [World.healthy, hl], by simp [hl]⟩

/-- `drain` with `pipe` in flight on a healthy connection. -/
theorem drain_cases {w w' : World σ} {pipe : List Request} {ok : Bool} (ha : w.alive = true)
    (hl : w.link = some { pipe }) (hq : w.queued = pipe.length) (hn : pipe ≠ [])
    (h : drain srv w = some (ok, w')) :
    (ok = clean (replies srv pipe w.host) ∧
      w.script = List.replicate pipe.length .reply ++ w'.script ∧
      w' = { w with script := w'.script, host := serveAll srv pipe w.host, link := some {},
                    queued := 0 }) ∨
    (ok = false ∧ w'.queued = 0 ∧ Cut srv pipe w w') := by
  unfold drain at h
  rw [get_bind, if_neg (by rw [hq]; simpa using hn), get_bind,
    if_neg (by simp [World.healthy, hl]), get_bind, hq] at h
  obtain ⟨ok', v, hr, h⟩ := bind_eq_some.mp h
  rw [modify_bind] at h
  cases h
  rcases readReplies_cases ha hl hr with
    ⟨rfl, hs, hv⟩ | ⟨rfl, hc⟩
  · exact .inl ⟨rfl, hs, by rw [hv]⟩
  · exact .inr ⟨rfl, rfl, hc⟩

/-! ## batch -/

/-- The events of a connection attempt that went through, none when one is there. -/
def connects (w : World σ) : List Event := if w.healthy then [] else [.connect true]

/-- What `batch` makes of a broken connection before it asks for one. -/
private def reset (w : World σ) : World σ :=
  if w.broken then { w with link := none, queued := 0, openBatch := false } else w

private theorem reset_of_healthy {w : World σ} (h : w.healthy = true) : reset w = w := by
  unfold reset World.broken
  unfold World.healthy at h
  cases hl : w.link with
  | none => rfl
  | some l => rw [hl] at h; simp at h; simp [h]

private theorem reset_of_unhealthy {w : World σ} (h : w.healthy = false)
    (hr : w.link = none → w.openBatch = false ∧ w.queued = 0) :
    reset w = { w with link := none, queued := 0, openBatch := false } := by
  unfold reset World.broken
  unfold World.healthy at h
  cases hl : w.link with
  | none =>
    obtain ⟨ho, hq⟩ := hr hl
    obtain ⟨host, link, queued, openBatch, delta, totals, alive, script⟩ := w
    cases hl; cases ho; cases hq
    rfl
  | some l => rw [hl] at h; simp at h; simp [h]

private theorem batch_eq (w : World σ) :
    batch srv w = (do
      if !(← RedisConn.get srv) then
        return false
      if (← get).openBatch then
        return true
      if !(← append srv .multi) then
        return false
      modify fun w => { w with openBatch := true, queued := w.queued + 1 }
      return true : Client σ Bool) (reset w) := by
  unfold batch
  rw [modify_bind]
  rfl

theorem batch_dead {w w' : World σ} {r : Bool} (hd : Dead w)
    (h : batch srv w = some (r, w')) : r = false ∧ w' = w := by
  have hh : w.healthy = false := by simp [World.healthy, hd.link]
  rw [batch_eq] at h
  have hr : reset w = w := by
    rw [reset_of_unhealthy hh fun _ => ⟨hd.closed, hd.drained⟩, ← hd.link, ← hd.closed, ← hd.drained]
  obtain ⟨up, v, hg, h⟩ := bind_eq_some.mp h
  rw [hr, conn_unhealthy hh, ← hd.link, dial_dead hd.alive] at hg
  cases hg
  cases h
  exact ⟨rfl, rfl⟩

theorem batch_opened {h : Host σ} {t : List Command} {sent pend : List Request} {w : World σ}
    (ho : Opened srv h t sent pend w) : batch srv w = some (true, w) := by
  have hh : w.healthy = true := by simp [World.healthy, ho.link]
  rw [batch_eq, reset_of_healthy hh, bind_of_eq_some (conn_healthy hh), if_neg (by simp),
    get_bind, if_pos ho.opened, pure_apply]

/-- The MULTI goes out on the connection at hand. -/
private theorem open_cases {w w' : World σ} {r : Bool} (ha : w.alive = true)
    (ho : w.openBatch = false) (hq : w.queued = 0) (hl : w.link = some {})
    (hm : w.host = w.host.fresh)
    (h : (do
      if (← get).openBatch then
        return true
      if !(← append srv .multi) then
        return false
      modify fun w => { w with openBatch := true, queued := w.queued + 1 }
      return true : Client σ Bool) w = some (r, w')) :
    ∃ e, w.script = e :: w'.script ∧
      ((r = true ∧ e = .append true ∧ Opened srv w.host.fresh [] [] [.multi] w') ∨
        (r = false ∧ Struck srv w.host [e] w')) := by
  rw [get_bind, if_neg (by simp [ho])] at h
  obtain ⟨sent, v, hs, h⟩ := bind_eq_some.mp h
  obtain ⟨l, e, hl', hsc, hc⟩ := append_cases ha hs
  cases hl.symm.trans hl'
  rcases hc with ⟨rfl, rfl, hv⟩ | ⟨rfl, rfl, hv⟩ | ⟨served, rfl, rfl, hv⟩
  · rw [if_neg (by simp), modify_bind] at h
    cases h
    refine ⟨_, hsc, .inl ⟨rfl, rfl, ?_⟩⟩
    rw [hv]
    exact ⟨ha, rfl, rfl, rfl, by simp [hq], hm⟩
  · cases h
    refine ⟨_, hsc, .inr ⟨rfl, .single rfl (by simp [appendEvent]) ?_ (.inl ?_)⟩⟩
    · rw [hv]; exact .refl srv _
    · rw [hv]; exact down_of_err ha rfl
  · cases h
    refine ⟨_, hsc, .inr ⟨rfl, .single rfl (by simp) ?_ (.inr ?_)⟩⟩
    · rw [hv]
      cases served
      · exact .refl srv _
      · change Unmoved srv w.host (w.settle srv true)
        rw [w.settle_true srv [] false hl]
        exact .refl srv _
    · rw [hv]; exact w.die_dead srv served _

/-- With no batch open, `batch` opens one, on a new connection when it has to. -/
theorem batch_ready {w w' : World σ} {r : Bool} (hw : Idle w ∨ Down w)
    (h : batch srv w = some (r, w')) :
    ∃ es, w.script = es ++ w'.script ∧
      ((r = true ∧ es = connects w ++ [.append true] ∧
          Opened srv w.host.fresh [] [] [.multi] w') ∨
        (r = false ∧ Struck srv w.host es w')) := by
  rw [batch_eq] at h
  cases hh : w.healthy with
  | true =>
    -- a healthy connection with nothing open is an idle one
    have hi : Idle w := by
      rcases hw with hi | hd
      · exact hi
      · rw [hd.unhealthy] at hh; cases hh
    have hl : w.link = some {} := by
      cases hl : w.link with
      | none => simp [World.healthy, hl] at hh
      | some l =>
        obtain ⟨err, pipe⟩ := l
        simp only [World.healthy, hl, Option.any_some, Bool.not_eq_true'] at hh
        cases hh
        have hp : pipe = [] := (hi.quiet _ hl rfl).1
        rw [hp]
    have hf : w.host = w.host.fresh := (hi.quiet _ hl rfl).2
    rw [reset_of_healthy hh, bind_of_eq_some (conn_healthy hh), if_neg (by simp)] at h
    obtain ⟨e, hs, ⟨rfl, rfl, ho⟩ | ⟨rfl, hst⟩⟩ := open_cases hi.alive hi.closed hi.drained hl hf h
    · exact ⟨[_], hs, .inl ⟨rfl, by simp [connects, hh], ho⟩⟩
    · exact ⟨[e], hs, .inr ⟨rfl, hst⟩⟩
  | false =>
    have ha : w.alive = true := by
      rcases hw with hi | hd
      · exact hi.alive
      · exact hd.alive
    have hr : w.link = none → w.openBatch = false ∧ w.queued = 0 := by
      rcases hw with hi | hd
      · exact fun _ => ⟨hi.closed, hi.drained⟩
      · exact hd.reset
    rw [reset_of_unhealthy hh hr] at h
    obtain ⟨up, v, hg, h⟩ := bind_eq_some.mp h
    rw [conn_unhealthy (by rfl)] at hg
    rcases dial_cases (by exact ha) hg with ⟨s, hs, rfl, hv⟩ | ⟨s, hs, rfl, hv⟩ |
      ⟨s, served, hs, rfl, hv⟩
    · rw [if_neg (by simp)] at h
      have hvs : v.script = s := by rw [hv]
      have hvf : v.host = w.host.fresh := by rw [hv]
      obtain ⟨e, hs', hc⟩ := open_cases (by rw [hv]; exact ha) (by rw [hv]) (by rw [hv])
        (by rw [hv]) (by rw [hvf]; rfl) h
      rw [hvf] at hc
      refine ⟨[.connect true, e], by rw [← hvs, hs'] at hs; exact hs, ?_⟩
      rcases hc with ⟨rfl, rfl, ho⟩ | ⟨rfl, hst⟩
      · exact .inl ⟨rfl, by simp [connects, hh], ho⟩
      · refine .inr ⟨rfl, (Unmoved.fresh srv _).trans hst.unmoved, ?_, ?_, hst.state⟩
        · obtain ⟨e', he, hf⟩ := hst.failed
          exact ⟨e', List.mem_cons_of_mem _ he, hf⟩
        · intro ok hm
          rcases List.mem_cons.mp hm with hm | hm
          · cases hm
          · exact hst.noExec ok hm
    · cases h
      refine ⟨[.connect false], by rw [hv]; exact hs,
        .inr ⟨rfl, .single rfl (by simp) ?_ (.inl ?_)⟩⟩
      · rw [hv]; exact .refl srv _
      · rw [hv]; exact ⟨ha, rfl, fun _ => ⟨rfl, rfl⟩⟩
    · cases h
      refine ⟨[.kill served], by rw [hv]; exact hs,
        .inr ⟨rfl, .single rfl (by simp) ?_ (.inr ?_)⟩⟩
      · rw [hv]; cases served <;> exact .refl srv _
      · rw [hv]; exact World.die_dead srv _ served s

/-! ## enqueue -/

theorem Opened.unmoved {h : Host σ} (hm : h.multi = none) {t : List Command}
    {sent pend : List Request} {w : World σ} (ho : Opened srv h t sent pend w) :
    Unmoved srv h w.host := by
  rw [ho.host]
  exact serveAll_opening ho.split hm

/-- Before its EXEC is out, an open batch runs nothing, whatever the server was served. -/
theorem Opened.settle_unmoved {h : Host σ} (hm : h.multi = none) {t : List Command}
    {sent pend : List Request} {w : World σ} (ho : Opened srv h t sent pend w) (served : Bool) :
    Unmoved srv h (w.settle srv served) := by
  cases served with
  | false => exact ho.unmoved hm
  | true =>
    rw [w.settle_true srv pend false ho.link, ho.host, ← serveAll_append]
    exact serveAll_whole ho.split hm

/-- The command goes out inside an open batch. -/
private theorem append_command {h : Host σ} (hm : h.multi = none) {t : List Command}
    {sent pend : List Request} {c : Command} {w w' : World σ} {r : Bool}
    (ho : Opened srv h t sent pend w) (ha : append srv (.command c) w = some (r, w')) :
    ∃ e, w.script = e :: w'.script ∧
      ((r = true ∧ e = .append true ∧
          Opened srv h (t ++ [c]) sent (pend ++ [.command c])
            { w' with queued := w'.queued + 1 }) ∨
        (r = false ∧ Struck srv h [e] w')) := by
  obtain ⟨l, e, hl, hs, hc⟩ := append_cases ho.alive ha
  cases ho.link.symm.trans hl
  rcases hc with ⟨rfl, rfl, hv⟩ | ⟨rfl, rfl, hv⟩ | ⟨served, rfl, rfl, hv⟩
  · refine ⟨_, hs, .inl ⟨rfl, rfl, ?_⟩⟩
    rw [hv]
    refine ⟨ho.alive, ho.opened, ?_, rfl, by simp [ho.queued], ho.host⟩
    have hsp := ho.split
    unfold opening at hsp ⊢
    rw [← List.append_assoc, ← hsp]
    simp
  · refine ⟨_, hs, .inr ⟨rfl, .single rfl (by simp [appendEvent]) ?_ (.inl ?_)⟩⟩
    · rw [hv]; exact ho.unmoved hm
    · rw [hv]; exact down_of_err ho.alive rfl
  · refine ⟨_, hs, .inr ⟨rfl, .single rfl (by simp) ?_ (.inr ?_)⟩⟩
    · rw [hv]; exact ho.settle_unmoved hm served
    · rw [hv]; exact w.die_dead srv served _

/-- Inside an open batch a cut read loses all of it. -/
theorem Cut.struck {h : Host σ} (hm : h.multi = none) {t : List Command}
    {sent pend : List Request} {w w' : World σ} (ho : Opened srv h t sent pend w)
    (hc : Cut srv pend w w') (hq : w'.queued = 0) :
    ∃ es, w.script = es ++ w'.script ∧ Struck srv h es w' := by
  obtain ⟨done, rest, served, e, hp, -, he, hs, hh, hb, hst⟩ := hc
  have hf : e.fails = true := by rcases he with rfl | rfl <;> rfl
  have hx : ∀ ok, e ≠ .exec ok := by rcases he with rfl | rfl <;> simp
  refine ⟨List.replicate done.length .reply ++ [e], by rw [hs]; simp, ?_, ⟨e, by simp, hf⟩, ?_, ?_⟩
  · rw [hh, ho.host, ← serveAll_append]
    cases served with
    | true => exact serveAll_whole ho.split hm
    | false =>
      have hsp : opening t = (sent ++ done) ++ rest := by
        rw [ho.split, hp, List.append_assoc]
      exact serveAll_opening hsp hm
  · intro ok hmem
    rcases List.mem_append.mp hmem with hmem | hmem
    · cases List.eq_of_mem_replicate hmem
    · exact hx ok (List.mem_singleton.mp hmem).symm
  · rcases hst with ⟨ha, hl⟩ | ⟨ha, hl⟩
    · exact .inl (down_of_err ha hl)
    · exact .inr ⟨ha, hl, hb, hq⟩

theorem undisturbed_replicate (n : Nat) : Undisturbed (List.replicate n .reply) := by
  intro e he
  rw [List.eq_of_mem_replicate he]
  rfl

theorem noExec_replicate (n : Nat) : NoExec (List.replicate n .reply) := by
  intro ok he
  cases List.eq_of_mem_replicate he

/-- The rest of a call once `batch` has said yes: the command joins the batch, or
the batch is lost. -/
private theorem push_cases {h : Host σ} (hm : h.multi = none) {t : List Command}
    {sent pend : List Request} {c : Command} {drains : Bool} {w w' : World σ} {r : Bool}
    (ho : Opened srv h t sent pend w)
    (hx : (do
      if !(← append srv (.command c)) then
        return false
      modify fun w => { w with queued := w.queued + 1 }
      if drains ∧ ¬ (← get).queued < kRedisPipelineDepth then
        drain srv
      else
        return true : Client σ Bool) w = some (r, w')) :
    ∃ es, w.script = es ++ w'.script ∧
      ((∃ sent' pend', Opened srv h (t ++ [c]) sent' pend' w' ∧ Undisturbed es ∧ NoExec es ∧
          (∀ pre, appends (pre ++ es) = appends pre + 1) ∧
          clean (replies srv sent' h) = (clean (replies srv sent h) && r)) ∨
        (r = false ∧ Struck srv h es w')) := by
  obtain ⟨ok, v, ha, hx⟩ := bind_eq_some.mp hx
  obtain ⟨e, hs, ⟨rfl, rfl, hv⟩ | ⟨rfl, hst⟩⟩ := append_command hm ho ha
  · rw [if_neg (by simp), modify_bind, get_bind] at hx
    have h1 : Undisturbed [.append true] := by
      intro e he; rw [List.mem_singleton.mp he]; rfl
    have h2 : NoExec [.append true] := by
      intro ok he; cases List.mem_singleton.mp he
    split at hx
    · -- the pipeline is full
      rcases drain_cases hv.alive hv.link hv.queued (by simp) hx with
        ⟨rfl, hs', hw⟩ | ⟨rfl, hq, hc⟩
      · refine ⟨.append true :: List.replicate (pend ++ [Request.command c]).length .reply, ?_, .inl
          ⟨sent ++ (pend ++ [.command c]), [], ?_, h1.append (undisturbed_replicate _),
            h2.append (noExec_replicate _), ?_, ?_⟩⟩
        · rw [hs, List.cons_append, ← hs']
        · rw [hw]
          refine ⟨hv.alive, hv.opened, by rw [List.append_nil]; exact hv.split, rfl, rfl, ?_⟩
          exact (congrArg (serveAll srv _) hv.host).trans (serveAll_append srv sent _ h).symm
        · intro pre
          rw [List.append_cons, (mute_replicate _).appends, appends_append]
        · rw [replies_append, clean_append, hv.host]
      · obtain ⟨es, hs', hst⟩ := hc.struck hm hv hq
        refine ⟨.append true :: es, by rw [hs, List.cons_append, ← hs'],
          .inr ⟨rfl, hst.unmoved, ?_, ?_, hst.state⟩⟩
        · obtain ⟨e, he, hf⟩ := hst.failed
          exact ⟨e, List.mem_cons_of_mem _ he, hf⟩
        · exact h2.append hst.noExec
    · cases hx
      exact ⟨[_], hs, .inl ⟨_, _, hv, h1, h2, appends_append, by simp⟩⟩
  · cases hx
    exact ⟨[e], hs, .inr ⟨rfl, hst⟩⟩

theorem enqueue_opened {h : Host σ} (hm : h.multi = none) {t : List Command}
    {sent pend : List Request} {c : Command} {drains : Bool} {w w' : World σ} {r : Bool}
    (ho : Opened srv h t sent pend w) (hx : enqueue srv drains c w = some (r, w')) :
    ∃ es, w.script = es ++ w'.script ∧
      ((∃ sent' pend', Opened srv h (t ++ [c]) sent' pend' w' ∧ Undisturbed es ∧ NoExec es ∧
          (∀ pre, appends (pre ++ es) = appends pre + 1) ∧
          clean (replies srv sent' h) = (clean (replies srv sent h) && r)) ∨
        (r = false ∧ Struck srv h es w')) := by
  unfold enqueue at hx
  rw [bind_of_eq_some (batch_opened ho), if_neg (by simp)] at hx
  exact push_cases hm ho hx

/-- The first command after a flush, or after a failure, opens a batch of its own. -/
theorem enqueue_ready {c : Command} {drains : Bool} {w w' : World σ} {r : Bool}
    (hw : Idle w ∨ Down w) (hx : enqueue srv drains c w = some (r, w')) :
    ∃ es, w.script = es ++ w'.script ∧
      ((∃ sent pend es', Opened srv w.host.fresh [c] sent pend w' ∧ es = connects w ++ es' ∧
          Undisturbed es' ∧ NoExec es' ∧ (∀ pre, appends (pre ++ es') = appends pre + 2) ∧
          clean (replies srv sent w.host.fresh) = r) ∨
        (r = false ∧ Struck srv w.host es w')) := by
  unfold enqueue at hx
  obtain ⟨ok, v, hb, hx⟩ := bind_eq_some.mp hx
  obtain ⟨es, hs, ⟨rfl, rfl, ho⟩ | ⟨rfl, hst⟩⟩ := batch_ready hw hb
  · rw [if_neg (by simp)] at hx
    obtain ⟨es', hs', ⟨sent, pend, ho', hu, hn, hap, hr⟩ | ⟨rfl, hst⟩⟩ := push_cases rfl ho hx
    · refine ⟨connects w ++ ([.append true] ++ es'), by rw [hs, hs']; simp,
        .inl ⟨sent, pend, _, ho', rfl, ?_, ?_, ?_, hr.trans (Bool.true_and r)⟩⟩
      · intro e he
        rcases List.mem_cons.mp he with rfl | he
        · rfl
        · exact hu e he
      · intro ok he
        rcases List.mem_cons.mp he with he | he
        · cases he
        · exact hn ok he
      · intro pre
        rw [← List.append_assoc, hap, appends_append]
    · refine ⟨connects w ++ ([.append true] ++ es'), by rw [hs, hs']; simp,
        .inr ⟨rfl, (Unmoved.fresh srv _).trans hst.unmoved, ?_, ?_, hst.state⟩⟩
      · obtain ⟨e, he, hf⟩ := hst.failed
        exact ⟨e, by simp [he], hf⟩
      · refine NoExec.append ?_ (NoExec.append ?_ hst.noExec)
        · intro ok he; unfold connects at he; split at he <;> simp at he
        · intro ok he; cases List.mem_singleton.mp he
  · cases hx
    exact ⟨es, hs, .inr ⟨rfl, hst⟩⟩

theorem enqueue_dead {c : Command} {drains : Bool} {w w' : World σ} {r : Bool}
    (hd : Dead w) (hx : enqueue srv drains c w = some (r, w')) : r = false ∧ w' = w := by
  unfold enqueue at hx
  obtain ⟨ok, v, hb, hx⟩ := bind_eq_some.mp hx
  obtain ⟨rfl, hv⟩ := batch_dead hd hb
  cases hx
  exact ⟨rfl, hv⟩

/-! ## flush -/

theorem flush_idle {w : World σ} (hi : Idle w) : flush srv w = some (true, w) := by
  unfold flush
  rw [get_bind, if_pos (by simp [hi.closed])]
  unfold drain
  rw [get_bind, if_pos hi.drained, pure_apply]

theorem flush_dead {w : World σ} (hd : Dead w) : flush srv w = some (true, w) := by
  unfold flush
  rw [get_bind, if_pos (by simp [hd.closed])]
  unfold drain
  rw [get_bind, if_pos hd.drained, pure_apply]

/-- Without a healthy connection there is nothing to send; the counters are reset. -/
theorem flush_down {w w' : World σ} {r : Bool} (hd : Down w)
    (h : flush srv w = some (r, w')) :
    w'.script = w.script ∧ w'.host = w.host ∧ Idle w' := by
  have hq : ∀ l, w.link = some l → l.err = false → l.pipe = [] ∧ w.host = w.host.fresh := by
    intro l hl he
    have hu := hd.unhealthy
    simp [World.healthy, hl, he] at hu
  unfold flush at h
  rw [get_bind] at h
  cases ho : w.openBatch with
  | false =>
    rw [if_pos (by simp [ho])] at h
    unfold drain at h
    rw [get_bind] at h
    by_cases h0 : w.queued = 0
    · rw [if_pos h0, pure_apply] at h
      cases h
      exact ⟨rfl, rfl, hd.alive, ho, h0, hq⟩
    · rw [if_neg h0, get_bind, if_pos (by simp [hd.unhealthy]), modify_bind] at h
      cases h
      exact ⟨rfl, rfl, hd.alive, rfl, rfl, hq⟩
  | true =>
    rw [if_neg (by simp [ho]), get_bind, if_pos (by simp [hd.unhealthy]), modify_bind] at h
    cases h
    exact ⟨rfl, rfl, hd.alive, rfl, rfl, hq⟩

theorem opening_multi (srv : Server σ) (t : List Command) {h : Host σ} (hm : h.multi = none) :
    ∃ q, (serveAll srv (opening t) h).multi = some q := by
  have ht : ∀ (t : List Command) (h : Host σ) (q : List Command), h.multi = some q →
      ∃ q, (serveAll srv (t.map .command) h).multi = some q := by
    intro t
    induction t with
    | nil => intro h q hq; exact ⟨q, hq⟩
    | cons c t ih =>
      intro h q hq
      obtain ⟨-, q', hq'⟩ := serve_command srv c h q hq
      exact ih _ q' hq'
  exact ht t (serve srv .multi h).2 [] (by unfold serve; rw [hm])

/-- An EXEC closes the transaction on the server, whatever came of it. -/
theorem serve_exec_fresh (srv : Server σ) {h : Host σ} {q : List Command}
    (hq : h.multi = some q) : (serve srv .exec h).2 = (serve srv .exec h).2.fresh := by
  unfold serve
  rw [hq]
  dsimp only
  split
  · rfl
  · next hd => simp [Host.fresh, hd]

/-- The whole transaction, served. -/
def closed (srv : Server σ) (t : List Command) (h : Host σ) : Host σ :=
  serveAll srv (opening t ++ [.exec]) h

theorem closed_fresh (srv : Server σ) (t : List Command) {h : Host σ} (hm : h.multi = none) :
    closed srv t h = (closed srv t h).fresh := by
  obtain ⟨q, hq⟩ := opening_multi srv t hm
  unfold closed
  rw [serveAll_append]
  exact serve_exec_fresh srv hq

theorem lands_exec (es : List Event) (h : .lost false ∉ es) (h' : .kill false ∉ es) :
    Lands (.exec true :: es) := ⟨[], es, rfl, h, h'⟩

/-- An EXEC whose replies end with a loss the server did not see was not served. -/
theorem not_lands_cut {es : List Event} {e : Event} (he : e = .lost false ∨ e = .kill false) :
    ¬ Lands (es ++ [e]) := by
  rintro ⟨pre, post, h, hl, hk⟩
  rcases List.eq_nil_or_concat post with rfl | ⟨post, e', rfl⟩
  · cases (List.append_inj' h rfl).2
    rcases he with he | he <;> cases he
  · rw [List.concat_eq_append] at h hl hk
    have h1 : es ++ [e] = (pre ++ .exec true :: post) ++ [e'] := by rw [h]; simp
    cases (List.append_inj' h1 rfl).2
    rcases he with rfl | rfl
    · exact hl (by simp)
    · exact hk (by simp)

theorem not_lands_single {e : Event} (he : e ≠ .exec true) : ¬ Lands [e] := by
  rintro ⟨pre, post, h, -⟩
  have hmem : Event.exec true ∈ [e] := by rw [h]; simp
  exact he (List.mem_singleton.mp hmem).symm

/-- What is in flight once the EXEC is out completes the batch. -/
theorem Opened.closing {h : Host σ} {t : List Command} {sent pend : List Request} {w : World σ}
    (ho : Opened srv h t sent pend w) : serveAll srv (pend ++ [.exec]) w.host = closed srv t h := by
  rw [ho.host, ← serveAll_append, ← List.append_assoc, ← ho.split]
  rfl

/-- The replies are cut behind the EXEC: the batch was run, or it never will be. -/
theorem Cut.closing {h : Host σ} (hm : h.multi = none) {t : List Command}
    {sent pend : List Request} {w v w' : World σ} (ho : Opened srv h t sent pend w)
    (hv : v.host = w.host) (hc : Cut srv (pend ++ [.exec]) v w') (hq : w'.queued = 0) :
    ∃ es, v.script = es ++ w'.script ∧ Mute es ∧ (∃ e ∈ es, e.fails = true) ∧
      (Idle w' ∨ Dead w') ∧
      ((Lands (.exec true :: es) ∧ w'.host = closed srv t h) ∨
        (¬ Lands (.exec true :: es) ∧ Unmoved srv h w'.host)) := by
  obtain ⟨done, rest, served, e, hp, hn, he, hs, hh, hb, hst⟩ := hc
  have hf : e.fails = true := by rcases he with rfl | rfl <;> rfl
  refine ⟨List.replicate done.length .reply ++ [e], ?_, ?_, ⟨e, by simp, hf⟩, ?_, ?_⟩
  · rw [hs, List.append_assoc]
    rfl
  · unfold Mute
    rcases he with rfl | rfl <;> simp
  · rcases hst with ⟨ha, hl⟩ | ⟨ha, hl⟩
    · exact .inl ⟨ha, hb, hq, by rintro l' hl' he'; cases hl.symm.trans hl'; cases he'⟩
    · exact .inr ⟨ha, hl, hb, hq⟩
  · rw [hv] at hh
    cases served with
    | true =>
      refine .inl ⟨lands_exec _ ?_ ?_, ?_⟩
      · rcases he with rfl | rfl <;> simp
      · rcases he with rfl | rfl <;> simp
      · rw [hh, if_pos rfl]
        exact ho.closing
    | false =>
      refine .inr ⟨?_, ?_⟩
      · rw [← List.cons_append]
        exact not_lands_cut he
      · -- the EXEC is the last of the pipe, so what was served stops short of it
        obtain ⟨rest', x, rfl⟩ := (List.eq_nil_or_concat rest).resolve_left hn
        rw [List.concat_eq_append, ← List.append_assoc] at hp
        have hsp : opening t = (sent ++ done) ++ rest' := by
          rw [ho.split, (List.append_inj' hp rfl).1, List.append_assoc]
        rw [hh, if_neg (by simp), ho.host, ← serveAll_append]
        exact serveAll_opening hsp hm

/-- `flush` of an open batch: either all of it was run, with nothing disturbed or
with the replies lost, or none of it will ever be. -/
theorem flush_opened {h : Host σ} (hm : h.multi = none) {t : List Command}
    {sent pend : List Request} {w w' : World σ} {r : Bool}
    (ho : Opened srv h t sent pend w) (hx : flush srv w = some (r, w')) :
    ∃ es, w.script = es ++ w'.script ∧ Mute es ∧ (Idle w' ∨ Dead w') ∧
      ((Undisturbed es ∧ Lands es ∧ Idle w' ∧ w'.host = closed srv t h ∧
          (clean (replies srv sent h) && r) = clean (replies srv (opening t ++ [.exec]) h)) ∨
        (r = false ∧ (∃ e ∈ es, e.fails = true) ∧ Lands es ∧ w'.host = closed srv t h) ∨
        (r = false ∧ (∃ e ∈ es, e.fails = true) ∧ ¬ Lands es ∧ Unmoved srv h w'.host)) := by
  unfold flush at hx
  rw [get_bind, if_neg (by simp [ho.opened]), get_bind,
    if_neg (by simp [World.healthy, ho.link])] at hx
  obtain ⟨appended, v, ha, hx⟩ := bind_eq_some.mp hx
  rw [modify_bind] at hx
  obtain ⟨l, e, hl, hs, hc⟩ := append_cases ho.alive ha
  cases ho.link.symm.trans hl
  rcases hc with ⟨rfl, rfl, hv⟩ | ⟨rfl, rfl, hv⟩ | ⟨served, rfl, rfl, hv⟩
  · -- the EXEC is out, its replies decide
    rw [if_neg (by simp), modify_bind] at hx
    have hvh : v.host = w.host := by rw [hv]
    have hvl : v.link = some { pipe := pend ++ [.exec] } := by rw [hv]
    have hvq : v.queued + 1 = (pend ++ [Request.exec]).length := by rw [hv]; simp [ho.queued]
    rcases drain_cases (w := { v with openBatch := false, queued := v.queued + 1 })
      (by rw [hv]; exact ho.alive) hvl hvq (by simp) hx with ⟨rfl, hs', hw⟩ | ⟨rfl, hq, hc⟩
    · have hh : serveAll srv (pend ++ [.exec]) v.host = closed srv t h := by
        rw [hvh]
        exact ho.closing
      have hi : Idle w' := by
        rw [hw]
        refine ⟨by rw [hv]; exact ho.alive, rfl, rfl, ?_⟩
        rintro l hl -
        cases hl
        change _ ∧ serveAll srv (pend ++ [.exec]) v.host = Host.fresh (serveAll srv _ v.host)
        rw [hh]
        exact ⟨rfl, closed_fresh srv t hm⟩
      refine ⟨.exec true :: List.replicate (pend ++ [Request.exec]).length .reply, ?_, ?_, .inl hi,
        .inl ⟨?_, ?_, hi, ?_, ?_⟩⟩
      · rw [hs, List.cons_append, ← hs']; rfl
      · simp [Mute]
      · intro e he
        rcases List.mem_cons.mp he with rfl | he
        · rfl
        · exact undisturbed_replicate _ e he
      · exact lands_exec _ (by simp) (by simp)
      · rw [hw]; exact hh
      · rw [ho.split, List.append_assoc, replies_append srv sent, clean_append, ← ho.host, hv]
    · obtain ⟨es, hs', hnc, ⟨e, he, hf⟩, hst, hc⟩ := hc.closing hm ho hvh hq
      have hfail : ∃ e ∈ Event.exec true :: es, e.fails = true :=
        ⟨e, List.mem_cons_of_mem _ he, hf⟩
      refine ⟨.exec true :: es, ?_, ?_, hst, .inr ?_⟩
      · rw [hs]
        exact congrArg _ hs'
      · simpa [Mute] using hnc
      · exact hc.imp (fun hc => ⟨rfl, hfail, hc⟩) fun hc => ⟨rfl, hfail, hc⟩
  · rw [if_pos (by rfl), modify_bind] at hx
    cases hx
    refine ⟨[.exec false], hs, by simp [Mute], .inl ?_, .inr (.inr
      ⟨rfl, ⟨_, List.mem_singleton_self _, rfl⟩, not_lands_single (by simp), ?_⟩)⟩
    · refine ⟨by rw [hv]; exact ho.alive, rfl, rfl, ?_⟩
      intro l hl he
      rw [hv] at hl
      cases hl
      cases he
    · rw [hv]
      exact ho.unmoved hm
  · rw [if_pos (by rfl), modify_bind] at hx
    cases hx
    refine ⟨[.kill served], hs, by simp [Mute], .inr ?_, .inr (.inr
      ⟨rfl, ⟨_, List.mem_singleton_self _, rfl⟩, not_lands_single (by simp), ?_⟩)⟩
    · rw [hv]; exact ⟨rfl, rfl, rfl, rfl⟩
    · rw [hv]
      exact ho.settle_unmoved hm served

/-! ## resume_at -/

/-- What the answer to the HGET is taken for. -/
def markOf : Reply → UInt64
  | .string str => ((fromChars str).map Prod.fst).getD 0
  | _ => 0

/-- A served HGET leaves the server as it was. -/
theorem World.settle_hget {source : Text} {w : World σ} (hm : w.host = w.host.fresh)
    (hl : w.link = some { pipe := [.hget kProgressKey source] }) (served : Bool) :
    w.settle srv served = w.host := by
  cases served with
  | false => rfl
  | true =>
    rw [w.settle_true srv _ false hl, hm]
    rfl

theorem World.settle_quiet {w : World σ} (hl : w.link = some {}) (served : Bool) :
    w.settle srv served = w.host := by
  cases served with
  | false => rfl
  | true => rw [w.settle_true srv [] false hl, serveAll_nil]

/-- The HGET and its reply, on a connection with nothing in flight. -/
private theorem ask_cases {source : Text} {w w' : World σ} {r : UInt64} (ha : w.alive = true)
    (ho : w.openBatch = false) (hq : w.queued = 0) (hl : w.link = some {})
    (hm : w.host = w.host.fresh)
    (hx : (do
      let sent ← append srv (.hget kProgressKey source)
      let reply ← if sent then getReply srv else pure none
      match reply with
      | none =>
        modify fun w => { w with link := none }
        return 0
      | some (.string str) => return ((fromChars str).map Prod.fst).getD 0
      | some _ => return 0 : Client σ UInt64) w = some (r, w')) :
    ∃ es, w.script = es ++ w'.script ∧ (Idle w' ∨ Dead w') ∧
      w'.host.state = w.host.state ∧ w'.host.ran = w.host.ran ∧
      ((Undisturbed es ∧ Idle w' ∧ r = markOf (srv.hget kProgressKey source w.host.state)) ∨
        ((∃ e ∈ es, e.fails = true) ∧ r = 0)) := by
  have hserve : serve srv (.hget kProgressKey source) w.host =
      (srv.hget kProgressKey source w.host.state, w.host) := by
    rw [hm]; rfl
  -- without a reply the connection is dropped and the answer is 0
  have hdrop : ∀ {v : World σ} {es : List Event} {e : Event}, w.script = es ++ v.script →
      e ∈ es → e.fails = true → v.host = w.host → v.openBatch = false → v.queued = 0 → r = 0 →
      w' = { v with link := none } →
      ∃ es, w.script = es ++ w'.script ∧ (Idle w' ∨ Dead w') ∧
        w'.host.state = w.host.state ∧ w'.host.ran = w.host.ran ∧
        ((Undisturbed es ∧ Idle w' ∧ r = markOf (srv.hget kProgressKey source w.host.state)) ∨
          ((∃ e ∈ es, e.fails = true) ∧ r = 0)) := by
    intro v es e hs he hf hh hb hq' hr hw
    refine ⟨es, by rw [hs, hw], ?_, by rw [hw, ← hh], by rw [hw, ← hh],
      .inr ⟨⟨e, he, hf⟩, hr⟩⟩
    rw [hw]
    rcases Bool.eq_false_or_eq_true v.alive with hva | hva
    · exact .inl ⟨hva, hb, hq', by simp⟩
    · exact .inr ⟨hva, rfl, hb, hq'⟩
  obtain ⟨sent, v, hap, hx⟩ := bind_eq_some.mp hx
  obtain ⟨l, e, hl', hs, hc⟩ := append_cases ha hap
  cases hl.symm.trans hl'
  rcases hc with ⟨rfl, rfl, hv⟩ | ⟨rfl, rfl, hv⟩ | ⟨served, rfl, rfl, hv⟩
  · rw [if_pos rfl] at hx
    obtain ⟨reply, u, hg, hx⟩ := bind_eq_some.mp hx
    have hvl : v.link = some { pipe := [.hget kProgressKey source] } := by rw [hv]; rfl
    have hvh : v.host = w.host := by rw [hv]
    have hvo : v.openBatch = false := by rw [hv]; exact ho
    have hvq : v.queued = 0 := by rw [hv]; exact hq
    obtain ⟨l, e, hl', hs', hc⟩ := getReply_cases (by rw [hv]; exact ha) hg
    cases hvl.symm.trans hl'
    have hcons : [Event.append true] ++ [e] ++ u.script = w.script := by rw [hs, hs']; rfl
    rcases hc with ⟨req, pipe, rfl, hp, rfl, hu⟩ | ⟨served, rfl, rfl, hu⟩ | ⟨served, rfl, rfl, hu⟩
    · cases hp
      rw [hvh, hserve] at hx hu
      have hui : Idle u := by
        rw [hu]
        refine ⟨by rw [hv]; exact ha, hvo, hvq, ?_⟩
        rintro l hl -
        cases hl
        exact ⟨rfl, hm⟩
      have hr : r = markOf (srv.hget kProgressKey source w.host.state) ∧ w' = u := by
        revert hx
        cases srv.hget kProgressKey source w.host.state <;> (intro hx; cases hx; exact ⟨rfl, rfl⟩)
      obtain ⟨rfl, rfl⟩ := hr
      refine ⟨_, hcons.symm, .inl hui, by rw [hu], by rw [hu], .inl ⟨?_, hui, rfl⟩⟩
      intro e he
      rcases List.mem_append.mp he with he | he <;> rw [List.mem_singleton.mp he] <;> rfl
    · cases hx
      refine hdrop (e := .lost served) hcons.symm (by simp) rfl ?_ (by rw [hu]; exact hvo)
        (by rw [hu]; exact hvq) rfl rfl
      rw [hu]
      exact (World.settle_hget (hvh ▸ hm) hvl served).trans hvh
    · cases hx
      refine hdrop (e := .kill served) hcons.symm (by simp) rfl ?_ (by rw [hu]; rfl)
        (by rw [hu]; rfl) rfl rfl
      rw [hu]
      exact (World.settle_hget (hvh ▸ hm) hvl served).trans hvh
  · cases hx
    have hs' : w.script = [.append false] ++ v.script := hs
    exact hdrop hs' (List.mem_singleton_self _) rfl (by rw [hv]) (by rw [hv]; exact ho)
      (by rw [hv]; exact hq) rfl rfl
  · cases hx
    have hs' : w.script = [.kill served] ++ v.script := hs
    refine hdrop hs' (List.mem_singleton_self _) rfl ?_ (by rw [hv]; rfl) (by rw [hv]; rfl) rfl rfl
    rw [hv]
    exact World.settle_quiet hl served

/-- `resume_at` between two batches changes nothing on the server.  The answer is
the mark when nothing failed, and 0 otherwise. -/
theorem resumeAt_idle {source : Text} {w w' : World σ} {r : UInt64} (hi : Idle w)
    (hx : resumeAt srv source w = some (r, w')) :
    ∃ es, w.script = es ++ w'.script ∧ (Idle w' ∨ Dead w') ∧
      w'.host.state = w.host.state ∧ w'.host.ran = w.host.ran ∧
      ((Undisturbed es ∧ Idle w' ∧ r = markOf (srv.hget kProgressKey source w.host.state)) ∨
        ((∃ e ∈ es, e.fails = true) ∧ r = 0)) := by
  unfold resumeAt at hx
  rw [bind_of_eq_some (flush_idle hi)] at hx
  cases hh : w.healthy with
  | true =>
    rw [bind_of_eq_some (conn_healthy hh), if_neg (by simp)] at hx
    cases hl : w.link with
    | none => simp [World.healthy, hl] at hh
    | some l =>
      obtain ⟨err, pipe⟩ := l
      simp only [World.healthy, hl, Option.any_some, Bool.not_eq_true'] at hh
      cases hh
      obtain ⟨hp, hf⟩ := hi.quiet _ hl rfl
      cases (show pipe = [] from hp)
      exact ask_cases hi.alive hi.closed hi.drained hl hf hx
  | false =>
    obtain ⟨up, v, hg, hx⟩ := bind_eq_some.mp hx
    rw [conn_unhealthy hh] at hg
    rcases dial_cases (by exact hi.alive) hg with ⟨s, hs, rfl, hv⟩ | ⟨s, hs, rfl, hv⟩ |
      ⟨s, served, hs, rfl, hv⟩
    · rw [if_neg (by simp)] at hx
      have hvs : v.script = s := by rw [hv]
      have hvf : v.host = w.host.fresh := by rw [hv]
      obtain ⟨es, hs', hst, h1, h2, hc⟩ := ask_cases (by rw [hv]; exact hi.alive)
        (by rw [hv]; exact hi.closed) (by rw [hv]; exact hi.drained) (by rw [hv])
        (by rw [hvf]; rfl) hx
      rw [hvf] at h1 h2 hc
      refine ⟨.connect true :: es, by rw [← hvs, hs'] at hs; exact hs, hst, h1, h2, ?_⟩
      rcases hc with ⟨hu, hi', hr⟩ | ⟨⟨e, he, hf⟩, hr⟩
      · refine .inl ⟨?_, hi', hr⟩
        intro e he
        rcases List.mem_cons.mp he with rfl | he
        · rfl
        · exact hu e he
      · exact .inr ⟨⟨e, List.mem_cons_of_mem _ he, hf⟩, hr⟩
    · cases hx
      refine ⟨[.connect false], by rw [hv]; exact hs, .inl ?_, by rw [hv], by rw [hv],
        .inr ⟨⟨_, List.mem_singleton_self _, rfl⟩, rfl⟩⟩
      rw [hv]
      exact ⟨hi.alive, hi.closed, hi.drained, by simp⟩
    · cases hx
      refine ⟨[.kill served], by rw [hv]; exact hs, .inr ?_, ?_, ?_,
        .inr ⟨⟨_, List.mem_singleton_self _, rfl⟩, rfl⟩⟩
      · rw [hv]; exact World.die_dead srv _ served s
      · rw [hv]; cases served <;> rfl
      · rw [hv]; cases served <;> rfl

end CdrProcessor
