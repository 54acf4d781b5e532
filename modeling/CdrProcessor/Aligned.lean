import CdrProcessor.Frame

/-! What a thread has sent on the connection it holds, beside what its counters say it has:
so many replies are unread, a transaction is open, and no reply is taken for another's. -/

namespace CdrProcessor

open Script RedisStore

variable {σ : Type} {srv : Server σ}

/-! ## What was sent -/

/-- The requests sent on the connection at hand, from the state `w0` on: made anew with
every connection, and one longer with every request that went out. -/
inductive Sent (srv : Server σ) (w0 : World σ) : World σ → List Request → Prop where
  | start : Sent srv w0 w0 []
  | own {w : World σ} {log : List Request} (link : Option Link) (queued : Nat) (openBatch : Bool)
      (h : Sent srv w0 w log) (hl : link = w.link ∨ link = none) :
      Sent srv w0 { w with link, queued, openBatch } log
  | dialled {w w' : World σ} {log : List Request} (h : Sent srv w0 w log)
      (hx : dial srv w = some (true, w')) : Sent srv w0 w' []
  | refused {w w' : World σ} {log : List Request} (h : Sent srv w0 w log)
      (hx : dial srv w = some (false, w')) : Sent srv w0 w' log
  | appended {w w' : World σ} {log : List Request} {req : Request} (h : Sent srv w0 w log)
      (hx : append srv req w = some (true, w')) : Sent srv w0 w' (log ++ [req])
  | failed {w w' : World σ} {log : List Request} {req : Request} (h : Sent srv w0 w log)
      (hx : append srv req w = some (false, w')) : Sent srv w0 w' log
  | read {w w' : World σ} {log : List Request} {reply : Option Reply} (h : Sent srv w0 w log)
      (hx : getReply srv w = some (reply, w')) : Sent srv w0 w' log

/-- Whether a MULTI stands without its EXEC. -/
def transacting (reqs : List Request) (opened : Bool := false) : Bool :=
  reqs.foldl (fun opened req =>
    match req with
    | .multi => true
    | .exec => false
    | _ => opened) opened

theorem transacting_append (reqs reqs' : List Request) (opened : Bool) :
    transacting (reqs ++ reqs') opened = transacting reqs' (transacting reqs opened) :=
  List.foldl_append

/-- The server holds a transaction for a connection when what it served says so. -/
theorem serve_transacting (req : Request) (h : Host σ) :
    (serve srv req h).2.multi.isSome = transacting [req] h.multi.isSome := by
  cases req with
  | multi => cases hm : h.multi <;> simp [serve, hm, transacting]
  | exec =>
    cases hm : h.multi with
    | none => simp [serve, hm, transacting]
    | some q =>
      simp only [serve, hm, transacting]
      split <;> rfl
  | hget => cases hm : h.multi <;> simp [serve, hm, transacting]
  | command c =>
    cases hm : h.multi with
    | none => simp [serve, hm, transacting]
    | some q =>
      simp only [serve, hm, transacting]
      split <;> rfl

theorem serveAll_transacting (reqs : List Request) (h : Host σ) :
    (serveAll srv reqs h).multi.isSome = transacting reqs h.multi.isSome := by
  induction reqs generalizing h with
  | nil => rfl
  | cons req reqs ih =>
    rw [serveAll_cons, ih, serve_transacting]
    rfl

/-- **The wire.**  What was sent is what the server has served, then what is unread. -/
theorem Sent.split {w0 w : World σ} {log : List Request} (h0 : w0.link = none)
    (h : Sent srv w0 w log) {l : Link} (hl : w.link = some l) (he : l.err = false) :
    ∃ served, log = served ++ l.pipe ∧ w.host.multi.isSome = transacting served := by
  induction h generalizing l with
  | start =>
    rw [h0] at hl
    cases hl
  | @own w log link queued openBatch h hlink ih =>
    rcases hlink with rfl | rfl
    · exact ih hl he
    · cases hl
  | @dialled w w' log h hx ih =>
    rcases Bool.eq_false_or_eq_true w.alive with ha | ha
    · rcases dial_cases ha hx with ⟨s, -, -, rfl⟩ | ⟨s, -, hf, -⟩ | ⟨s, served, -, hf, -⟩
      · cases hl
        exact ⟨[], rfl, rfl⟩
      · cases hf
      · cases hf
    · rw [dial_dead ha] at hx
      cases hx
  | @refused w w' log h hx ih =>
    rcases Bool.eq_false_or_eq_true w.alive with ha | ha
    · rcases dial_cases ha hx with ⟨s, -, hf, -⟩ | ⟨s, -, -, rfl⟩ | ⟨s, served, -, -, rfl⟩
      · cases hf
      · exact ih hl he
      · cases hl
    · rw [dial_dead ha] at hx
      cases hx
      exact ih hl he
  | @appended w w' log req h hx ih =>
    rcases Bool.eq_false_or_eq_true w.alive with ha | ha
    · obtain ⟨l', e, hl', -, ⟨-, -, hw⟩ | ⟨-, hf, -⟩ | ⟨served, -, hf, -⟩⟩ := append_cases ha hx
      · rw [hw] at hl ⊢
        cases hl
        obtain ⟨served, rfl, hm⟩ := ih hl' he
        exact ⟨served, List.append_assoc _ _ _, hm⟩
      · cases hf
      · cases hf
    · unfold append at hx
      rw [ha] at hx
      cases hx
  | @failed w w' log req h hx ih =>
    rcases Bool.eq_false_or_eq_true w.alive with ha | ha
    · obtain ⟨l', e, hl', -, ⟨-, hf, -⟩ | ⟨-, -, hw⟩ | ⟨served, -, -, hw⟩⟩ := append_cases ha hx
      · cases hf
      · rw [hw] at hl
        cases hl
        cases he
      · rw [hw] at hl
        cases hl
    · unfold append at hx
      rw [ha] at hx
      cases hx
      exact ih hl he
  | @read w w' log reply h hx ih =>
    rcases Bool.eq_false_or_eq_true w.alive with ha | ha
    · obtain ⟨l', e, hl', -, ⟨req, pipe, -, hp, -, hw⟩ | ⟨served, -, -, hw⟩ |
        ⟨served, -, -, hw⟩⟩ := getReply_cases ha hx
      · rw [hw] at hl ⊢
        cases hl
        obtain ⟨served, rfl, hm⟩ := ih hl' he
        refine ⟨served ++ [req], ?_, ?_⟩
        · rw [hp, List.append_assoc, List.singleton_append]
        · change (serve srv req w.host).2.multi.isSome = _
          rw [serve_transacting, hm, transacting_append]
      · rw [hw] at hl
        cases hl
        cases he
      · rw [hw] at hl
        cases hl
    · unfold getReply at hx
      rw [ha] at hx
      cases hx
      exact ih hl he

/-- Every call on the store sends what it sends, on the connection it has. -/
theorem wires_sent (srv : Server σ) (w0 : World σ) : Wires srv fun w w' =>
    ∀ log, Sent srv w0 w log → ∃ log', Sent srv w0 w' log' where
  stable := by
    refine ⟨fun w log h => ⟨log, h⟩, fun w v u h1 h2 log h => ?_⟩
    obtain ⟨log', h'⟩ := h1 log h
    exact h2 log' h'
  own w link queued openBatch hl log h := ⟨log, .own link queued openBatch h hl⟩
  dial := by
    intro w r w' hx log h
    cases r with
    | false => exact ⟨log, .refused h hx⟩
    | true => exact ⟨[], .dialled h hx⟩
  append := by
    intro req w r w' hx log h
    cases r with
    | false => exact ⟨log, .failed h hx⟩
    | true => exact ⟨log ++ [req], .appended h hx⟩
  getReply := by
    intro w r w' hx log h
    exact ⟨log, .read h hx⟩

/-! ## The states between calls -/

/-- The states a thread is in between two calls on the store. -/
inductive Settled (srv : Server σ) (w : World σ) : Prop where
  | idle (h : Idle w)
  | opened {h : Host σ} {t : List Command} {sent pend : List Request} (hm : h.multi = none)
      (ho : Opened srv h t sent pend w)
  | down (h : Down w)
  | dead (h : Dead w)

theorem Settled.of_struck {h : Host σ} {es : List Event} {w : World σ}
    (hst : Struck srv h es w) : Settled srv w := by
  rcases hst.state with hd | hd
  · exact .down hd
  · exact .dead hd

theorem Settled.enqueue {w w' : World σ} {drains r : Bool} {c : Command} (h : Settled srv w)
    (hx : enqueue srv drains c w = some (r, w')) : Settled srv w' := by
  cases h with
  | idle h =>
    obtain ⟨es, -, ⟨sent, pend, es', ho, -⟩ | ⟨-, hst⟩⟩ := enqueue_ready (.inl h) hx
    · exact .opened rfl ho
    · exact .of_struck hst
  | opened hm ho =>
    obtain ⟨es, -, ⟨sent, pend, ho', -⟩ | ⟨-, hst⟩⟩ := enqueue_opened hm ho hx
    · exact .opened hm ho'
    · exact .of_struck hst
  | down h =>
    obtain ⟨es, -, ⟨sent, pend, es', ho, -⟩ | ⟨-, hst⟩⟩ := enqueue_ready (.inr h) hx
    · exact .opened rfl ho
    · exact .of_struck hst
  | dead h =>
    obtain ⟨-, rfl⟩ := enqueue_dead h hx
    exact .dead h

/-- Behind a flush nothing is open. -/
theorem Settled.flush {w w' : World σ} {r : Bool} (h : Settled srv w)
    (hx : flush srv w = some (r, w')) : Idle w' ∨ Dead w' := by
  cases h with
  | idle h =>
    rw [flush_idle h] at hx
    cases hx
    exact .inl h
  | opened hm ho =>
    obtain ⟨es, -, -, hst, -⟩ := flush_opened hm ho hx
    exact hst
  | down h => exact .inl (flush_down h hx).2.2
  | dead h =>
    rw [flush_dead h] at hx
    cases hx
    exact .inr h

/-! ## resume_at -/

/-- What `resume_at` comes to, call by call: what it reads, when it reads, is the reply to
its own HGET, the one request unread on the connection. -/
inductive Answered (srv : Server σ) (source : Text) (w : World σ) (r : UInt64) (w' : World σ) :
    Prop where
  | unreachable {flushed : Bool} {u : World σ} (hf : flush srv w = some (flushed, u))
      (hc : RedisConn.get srv u = some (false, w')) (hr : r = 0)
  | unsent {flushed : Bool} {u v x : World σ} (hf : flush srv w = some (flushed, u))
      (hc : RedisConn.get srv u = some (true, v))
      (ha : append srv (.hget kProgressKey source) v = some (false, x)) (hr : r = 0)
      (hw : w' = { x with link := none })
  | unanswered {flushed : Bool} {u v x y : World σ} (hf : flush srv w = some (flushed, u))
      (hc : RedisConn.get srv u = some (true, v))
      (ha : append srv (.hget kProgressKey source) v = some (true, x))
      (hg : getReply srv x = some (none, y)) (hr : r = 0) (hw : w' = { y with link := none })
  | answered {flushed : Bool} {u v x : World σ} {reply : Reply}
      (hf : flush srv w = some (flushed, u)) (hc : RedisConn.get srv u = some (true, v))
      (ha : append srv (.hget kProgressKey source) v = some (true, x))
      (hl : x.link = some { pipe := [.hget kProgressKey source] })
      (hg : getReply srv x = some (some reply, w'))
      (hown : reply = srv.hget kProgressKey source x.host.state) (hr : r = markOf reply)

/-- A connection with nothing open: the one at hand, or a new one. -/
theorem conn_idle {u v : World σ} (h : Idle u ∨ Dead u)
    (hc : RedisConn.get srv u = some (true, v)) :
    v.alive = true ∧ v.link = some {} ∧ v.host = v.host.fresh := by
  cases hh : u.healthy with
  | true =>
    rw [conn_healthy hh] at hc
    cases hc
    rcases h with h | h
    · cases hl : u.link with
      | none => simp [World.healthy, hl] at hh
      | some l =>
        obtain ⟨err, pipe⟩ := l
        simp only [World.healthy, hl, Option.any_some, Bool.not_eq_true'] at hh
        cases hh
        obtain ⟨hp, hf⟩ := h.quiet _ hl rfl
        cases (show pipe = [] from hp)
        exact ⟨h.alive, rfl, hf⟩
    · simp [World.healthy, h.link] at hh
  | false =>
    rw [conn_unhealthy hh] at hc
    rcases Bool.eq_false_or_eq_true u.alive with ha | ha
    · rcases dial_cases (by exact ha) hc with ⟨s, -, -, rfl⟩ | ⟨s, -, hf, -⟩ | ⟨s, served, -, hf, -⟩
      · exact ⟨ha, rfl, rfl⟩
      · cases hf
      · cases hf
    · rw [dial_dead (by exact ha)] at hc
      cases hc

/-- **Its own reply.** -/
theorem Settled.resumeAt {w w' : World σ} {source : Text} {r : UInt64} (h : Settled srv w)
    (hx : resumeAt srv source w = some (r, w')) : Answered srv source w r w' := by
  unfold RedisStore.resumeAt at hx
  obtain ⟨flushed, u, hf, hx⟩ := bind_eq_some.mp hx
  obtain ⟨up, v, hc, hx⟩ := bind_eq_some.mp hx
  cases up with
  | false =>
    cases hx
    exact .unreachable hf hc rfl
  | true =>
    obtain ⟨halive, hl, hfresh⟩ := conn_idle (h.flush hf) hc
    rw [if_neg (by simp)] at hx
    obtain ⟨sent, x, ha, hx⟩ := bind_eq_some.mp hx
    cases sent with
    | false =>
      cases hx
      exact .unsent hf hc ha rfl rfl
    | true =>
      obtain ⟨l, e, hl', -, ⟨-, -, hxw⟩ | ⟨-, hfalse, -⟩ | ⟨served, -, hfalse, -⟩⟩ :=
        append_cases halive ha
      · cases hl.symm.trans hl'
        have hxl : x.link = some { pipe := [.hget kProgressKey source] } := by rw [hxw]; rfl
        have hxh : x.host = v.host := by rw [hxw]
        have hxa : x.alive = true := by rw [hxw]; exact halive
        rw [if_pos rfl] at hx
        obtain ⟨reply, y, hg, hx⟩ := bind_eq_some.mp hx
        cases reply with
        | none =>
          cases hx
          exact .unanswered hf hc ha hg rfl rfl
        | some reply =>
          have hr : r = markOf reply ∧ w' = y := by
            cases reply <;> (cases hx; exact ⟨rfl, rfl⟩)
          obtain ⟨hr, rfl⟩ := hr
          obtain ⟨l, e, hl'', -, ⟨req, pipe, -, hp, hreply, -⟩ | ⟨served, -, hno, -⟩ |
            ⟨served, -, hno, -⟩⟩ := getReply_cases hxa hg
          · cases hxl.symm.trans hl''
            cases hp
            refine .answered hf hc ha hxl hg ?_ hr
            rw [Option.some.inj hreply, hxh, hfresh]
            rfl
          · cases hno
          · cases hno
      · cases hfalse
      · cases hfalse

theorem Settled.after_resumeAt {w w' : World σ} {source : Text} {r : UInt64} (h : Settled srv w)
    (hx : RedisStore.resumeAt srv source w = some (r, w')) : Settled srv w' := by
  unfold RedisStore.resumeAt at hx
  obtain ⟨flushed, u, hf, hx⟩ := bind_eq_some.mp hx
  rcases h.flush hf with hu | hu
  · -- a second flush would change nothing
    have hx' : RedisStore.resumeAt srv source u = some (r, w') := by
      unfold RedisStore.resumeAt
      rw [bind_of_eq_some (flush_idle hu)]
      exact hx
    obtain ⟨es, -, hi | hd, -⟩ := resumeAt_idle hu hx'
    · exact .idle hi
    · exact .dead hd
  · obtain ⟨up, v, hc, hx⟩ := bind_eq_some.mp hx
    rw [conn_unhealthy (by simp [World.healthy, hu.link]), ← hu.link, dial_dead hu.alive] at hc
    cases hc
    cases hx
    exact .dead hu

/-! ## Any sequence of calls -/

/-- The calls of `IStore`. -/
inductive StoreCall where
  | write (c : Call)
  | flush
  | resumeAt (source : Text)

/-- A call, whatever it returns. -/
def StoreCall.run (srv : Server σ) : StoreCall → Client σ Unit
  | .write c => do let _ ← c.run (redisStore srv)
  | .flush => do let _ ← (redisStore srv).flush
  | .resumeAt source => do let _ ← (redisStore srv).resumeAt source

def runStore (srv : Server σ) : List StoreCall → Client σ Unit
  | [] => pure ()
  | c :: cs => do
    c.run srv
    runStore srv cs

theorem Settled.call {w w' : World σ} {c : StoreCall} (h : Settled srv w)
    (hx : c.run srv w = some ((), w')) : Settled srv w' := by
  cases c with
  | write c =>
    obtain ⟨r, v, hx, hp⟩ := bind_eq_some.mp hx
    cases hp
    rw [Call.run_eq] at hx
    exact h.enqueue hx
  | flush =>
    obtain ⟨r, v, hx, hp⟩ := bind_eq_some.mp hx
    cases hp
    rcases h.flush hx with hi | hd
    · exact .idle hi
    · exact .dead hd
  | resumeAt source =>
    obtain ⟨r, v, hx, hp⟩ := bind_eq_some.mp hx
    cases hp
    exact h.after_resumeAt hx

theorem Settled.run {w w' : World σ} {cs : List StoreCall} (h : Settled srv w)
    (hx : runStore srv cs w = some ((), w')) : Settled srv w' := by
  induction cs generalizing w with
  | nil =>
    cases hx
    exact h
  | cons c cs ih =>
    obtain ⟨⟨⟩, v, hc, hx⟩ := bind_eq_some.mp hx
    exact ih (h.call hc) hx

theorem wires_runStore {R : World σ → World σ → Prop} (F : Wires srv R) (cs : List StoreCall) :
    Within R (runStore srv cs) := by
  induction cs with
  | nil => exact .pure F.stable _
  | cons c cs ih =>
    refine .bind F.stable ?_ fun _ => ih
    cases c with
    | write c =>
      refine .bind F.stable ?_ fun _ => .pure F.stable _
      rw [Call.run_eq]
      exact F.enqueue _ _
    | flush => exact .bind F.stable F.flush fun _ => .pure F.stable _
    | resumeAt source => exact .bind F.stable (F.resumeAt source) fun _ => .pure F.stable _

/-- The replies that were not read yet. -/
def World.unread (w : World σ) : Nat := ((w.link.map Link.pipe).getD []).length

/-- On a healthy connection the counters of the thread are right. -/
theorem Settled.aligned {w0 w : World σ} {log : List Request} (h0 : w0.link = none)
    (h : Settled srv w) (hh : w.healthy = true) (hs : Sent srv w0 w log) :
    w.unread = w.queued ∧ w.openBatch = transacting log := by
  cases h with
  | idle hi =>
    cases hl : w.link with
    | none => simp [World.healthy, hl] at hh
    | some l =>
      have he : l.err = false := by simpa [World.healthy, hl] using hh
      obtain ⟨hp, hf⟩ := hi.quiet l hl he
      obtain ⟨served, rfl, hm⟩ := hs.split h0 hl he
      refine ⟨by simp [World.unread, hl, hp, hi.drained], ?_⟩
      rw [hp, List.append_nil, ← hm, hi.closed, hf]
      rfl
  | @opened h t sent pend hnone ho =>
    obtain ⟨served, rfl, hm⟩ := hs.split h0 ho.link rfl
    refine ⟨by simp [World.unread, ho.link, ho.queued], ?_⟩
    obtain ⟨q, hq⟩ := opening_multi srv t hnone
    rw [ho.opened, transacting_append, ← hm, ← @serveAll_transacting _ srv, ho.host,
      ← serveAll_append, ← ho.split, hq]
    rfl
  | down hd =>
    rw [hd.unhealthy] at hh
    cases hh
  | dead hd => simp [World.healthy, hd.link] at hh

/-- **No reply is taken for another's.** -/
theorem replies_aligned (srv : Server σ) {w0 w : World σ} (ha : w0.alive = true)
    (hl : w0.link = none) (hq : w0.queued = 0) (ho : w0.openBatch = false)
    (calls : List StoreCall) (hx : runStore srv calls w0 = some ((), w)) :
    (∃ log, Sent srv w0 w log) ∧
      (w.healthy = true → ∀ log, Sent srv w0 w log →
        w.unread = w.queued ∧ w.openBatch = transacting log) ∧
      ∀ source r w', resumeAt srv source w = some (r, w') → Answered srv source w r w' := by
  have hi : Idle w0 := ⟨ha, ho, hq, by simp [hl]⟩
  have hs : Settled srv w := (Settled.idle hi).run hx
  refine ⟨wires_runStore (wires_sent srv w0) calls w0 _ w hx [] .start, ?_, ?_⟩
  · exact fun hh log hlog => hs.aligned hl hh hlog
  · exact fun source r w' hr => hs.resumeAt hr

/-- An append that fails inside a batch, and a `resume_at` that connects again. -/
def brokenOff : World Db where
  host := { state := {} }
  script := [.connect true, .append true, .append true, .append false, .connect true, .append true,
    .reply]

def brokenCalls : List StoreCall :=
  [.write (.increment kTotalKey kFieldRecords 1), .write (.rank kVoiceBoard "1".toList 2),
    .resumeAt "a".toList]

theorem brokenOff_aligned :
    ∃ w, runStore redis brokenCalls brokenOff = some ((), w) ∧
      (∃ log, Sent redis brokenOff w log) ∧
      (w.healthy = true → ∀ log, Sent redis brokenOff w log →
        w.unread = w.queued ∧ w.openBatch = transacting log) ∧
      ∀ source r w', resumeAt redis source w = some (r, w') → Answered redis source w r w' := by
  have h : (runStore redis brokenCalls brokenOff).isSome = true := by decide +kernel
  obtain ⟨⟨⟨⟩, w⟩, hx⟩ := Option.isSome_iff_exists.mp h
  exact ⟨w, hx, replies_aligned redis rfl rfl rfl rfl brokenCalls hx⟩

end CdrProcessor
