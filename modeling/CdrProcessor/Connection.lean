import CdrProcessor.RedisStore

/-! What one call on the store does to the connection under it: the state a
thread is in between two batches, inside one, and after something failed, and
what the server holds in each of them. -/

namespace CdrProcessor

open Script

variable {σ : Type}

/-! ## Events -/

/-- The events that cut short what is under way. -/
def Event.fails : Event → Bool
  | .connect up => !up
  | .append ok => !ok
  | .exec ok => !ok
  | .reply => false
  | .lost _ => true
  | .kill _ => true

/-- Something failed, and a later call connected again. -/
def Reopened (es : List Event) : Prop :=
  ∃ pre post, es = pre ++ .connect true :: post ∧ ∃ e ∈ pre, e.fails = true

/-- An EXEC was sent, and the server got it. -/
def Lands (es : List Event) : Prop :=
  ∃ pre post, es = pre ++ .exec true :: post ∧ .lost false ∉ post ∧ .kill false ∉ post

/-- No EXEC was sent. -/
def NoExec (es : List Event) : Prop := ∀ ok, .exec ok ∉ es

/-- Nothing failed. -/
def Undisturbed (es : List Event) : Prop := ∀ e ∈ es, e.fails = false

theorem Undisturbed.append {es es' : List Event} (h : Undisturbed es) (h' : Undisturbed es') :
    Undisturbed (es ++ es') := by
  intro e he
  rcases List.mem_append.mp he with he | he
  · exact h e he
  · exact h' e he

theorem NoExec.append {es es' : List Event} (h : NoExec es) (h' : NoExec es') :
    NoExec (es ++ es') := by
  intro ok he
  rcases List.mem_append.mp he with he | he
  · exact h ok he
  · exact h' ok he

theorem Reopened.append {es : List Event} (h : Reopened es) (es' : List Event) :
    Reopened (es ++ es') := by
  obtain ⟨pre, post, rfl, hf⟩ := h
  exact ⟨pre, post ++ es', by simp, hf⟩

theorem Undisturbed.not_reopened {es : List Event} (h : Undisturbed es) : ¬ Reopened es := by
  rintro ⟨pre, post, rfl, e, he, hf⟩
  rw [h e (List.mem_append_left _ he)] at hf
  cases hf

theorem Undisturbed.lands {es : List Event} (h : Undisturbed es) (he : .exec true ∈ es) :
    Lands es := by
  obtain ⟨pre, post, rfl⟩ := List.append_of_mem he
  have hpost : ∀ e, e.fails = true → e ∉ post := by
    intro e hf hm
    rw [h e (by simp [hm])] at hf
    cases hf
  exact ⟨pre, post, rfl, hpost _ rfl, hpost _ rfl⟩

theorem NoExec.not_lands {es : List Event} (h : NoExec es) : ¬ Lands es := by
  rintro ⟨pre, post, rfl, -⟩
  exact h true (by simp)

/-- What one event makes of the number of appends on the connection at hand. -/
def Event.counted (n : Nat) : Event → Nat
  | .connect true => 0
  | .append true => n + 1
  | _ => n

/-- The appends that went through since the connection was last made. -/
def appends (es : List Event) : Nat := es.foldl Event.counted 0

/-- No connection is made and nothing but an EXEC goes out. -/
def Mute (es : List Event) : Prop := .connect true ∉ es ∧ .append true ∉ es

theorem Mute.foldl {es : List Event} (h : Mute es) (n : Nat) : es.foldl Event.counted n = n := by
  induction es with
  | nil => rfl
  | cons e es ih =>
    have hes : Mute es :=
      ⟨fun hm => h.1 (List.mem_cons_of_mem e hm), fun hm => h.2 (List.mem_cons_of_mem e hm)⟩
    have he : Event.counted n e = n := by
      unfold Event.counted
      split
      · exact absurd (List.mem_cons_self ..) h.1
      · exact absurd (List.mem_cons_self ..) h.2
      · rfl
    rw [List.foldl_cons, he]
    exact ih hes

theorem Mute.appends {es : List Event} (h : Mute es) (pre : List Event) :
    appends (pre ++ es) = appends pre := by
  unfold CdrProcessor.appends
  rw [List.foldl_append, h.foldl]

theorem appends_connect (pre : List Event) : appends (pre ++ [.connect true]) = 0 := by
  unfold appends
  rw [List.foldl_append]
  rfl

theorem appends_append (pre : List Event) :
    appends (pre ++ [.append true]) = appends pre + 1 := by
  unfold appends
  rw [List.foldl_append]
  rfl

theorem mute_replicate (n : Nat) : Mute (List.replicate n .reply) := by
  constructor
  · intro h
    cases List.eq_of_mem_replicate h
  · intro h
    cases List.eq_of_mem_replicate h

/-! ## What the server holds -/

/-- A server whose queueing leaves its state alone. -/
def Quiet (srv : Server σ) : Prop := ∀ c s, (srv.queue c s).2 = s

/-- Nothing was run for the connection in between. -/
structure Unmoved (srv : Server σ) (h h' : Host σ) : Prop where
  ran : h'.ran = h.ran
  state : Quiet srv → h'.state = h.state

theorem Unmoved.refl (srv : Server σ) (h : Host σ) : Unmoved srv h h := ⟨rfl, fun _ => rfl⟩

theorem Unmoved.trans {srv : Server σ} {h h' h'' : Host σ} (a : Unmoved srv h h')
    (b : Unmoved srv h' h'') : Unmoved srv h h'' :=
  ⟨b.ran.trans a.ran, fun q => (b.state q).trans (a.state q)⟩

/-- A connection just made: whatever it had open before is discarded. -/
def Host.fresh (h : Host σ) : Host σ := { h with multi := none, dirty := false }

theorem Unmoved.fresh (srv : Server σ) (h : Host σ) : Unmoved srv h h.fresh :=
  ⟨rfl, fun _ => rfl⟩

/-- The requests of a transaction, its EXEC apart. -/
def opening (t : List Command) : List Request := .multi :: t.map .command

/-- A command inside a transaction is queued, or refused and remembered. -/
theorem serve_command (srv : Server σ) (c : Command) (h : Host σ) (q : List Command)
    (hq : h.multi = some q) :
    Unmoved srv h (serve srv (.command c) h).2 ∧
      ∃ q', (serve srv (.command c) h).2.multi = some q' := by
  unfold serve
  rw [hq]
  dsimp only
  split
  · exact ⟨⟨rfl, fun quiet => quiet c h.state⟩, _, rfl⟩
  · exact ⟨⟨rfl, fun quiet => quiet c h.state⟩, q, rfl⟩

/-- Nothing of a transaction runs before its EXEC. -/
theorem serveAll_commands (srv : Server σ) (t : List Command) (h : Host σ) (q : List Command)
    (hq : h.multi = some q) : Unmoved srv h (serveAll srv (t.map .command) h) := by
  induction t generalizing h q with
  | nil => exact .refl srv h
  | cons c t ih =>
    obtain ⟨hu, q', hq'⟩ := serve_command srv c h q hq
    exact hu.trans (ih _ q' hq')

/-- Nor does any part of it that the server got. -/
theorem serveAll_opening {srv : Server σ} {t : List Command} {sent pend : List Request}
    (ht : opening t = sent ++ pend) {h : Host σ} (hm : h.multi = none) :
    Unmoved srv h (serveAll srv sent h) := by
  cases sent with
  | nil => exact .refl srv h
  | cons req sent =>
    unfold opening at ht
    simp only [List.cons_append, List.cons.injEq] at ht
    obtain ⟨rfl, ht⟩ := ht
    obtain ⟨u, v, -, rfl, -⟩ := List.map_eq_append_iff.mp ht
    have ho : Unmoved srv h (serve srv .multi h).2 := by
      unfold serve; rw [hm]; exact ⟨rfl, fun _ => rfl⟩
    exact ho.trans (serveAll_commands srv u _ [] (by unfold serve; rw [hm]))

theorem serveAll_whole {srv : Server σ} {t : List Command} {sent pend : List Request}
    (ht : opening t = sent ++ pend) {h : Host σ} (hm : h.multi = none) :
    Unmoved srv h (serveAll srv (sent ++ pend) h) := by
  have hs : opening t = (sent ++ pend) ++ [] := by rw [ht, List.append_nil]
  exact serveAll_opening hs hm

/-- The replies to requests served in order. -/
def replies (srv : Server σ) : List Request → Host σ → List Reply
  | [], _ => []
  | req :: reqs, h => (serve srv req h).1 :: replies srv reqs (serve srv req h).2

theorem replies_append (srv : Server σ) (reqs reqs' : List Request) (h : Host σ) :
    replies srv (reqs ++ reqs') h = replies srv reqs h ++ replies srv reqs' (serveAll srv reqs h) := by
  induction reqs generalizing h with
  | nil => rfl
  | cons req reqs ih => simp [replies, ih]

/-- No reply is an error. -/
def clean (rs : List Reply) : Bool := rs.all fun r => !r.isError

@[simp] theorem clean_nil : clean [] = true := rfl

@[simp] theorem clean_cons (r : Reply) (rs : List Reply) :
    clean (r :: rs) = (!r.isError && clean rs) := rfl

@[simp] theorem clean_append (rs rs' : List Reply) :
    clean (rs ++ rs') = (clean rs && clean rs') := List.all_append

/-! ## The states of a thread -/

/-- Between two batches: nothing queued, nothing open. -/
structure Idle (w : World σ) : Prop where
  alive : w.alive = true
  closed : w.openBatch = false
  drained : w.queued = 0
  quiet : ∀ l, w.link = some l → l.err = false → l.pipe = [] ∧ w.host = w.host.fresh

/-- Inside the batch `t`, opened over the host `h`: the requests the server has
served and those still in flight make up the transaction. -/
structure Opened (srv : Server σ) (h : Host σ) (t : List Command) (sent pend : List Request)
    (w : World σ) : Prop where
  alive : w.alive = true
  opened : w.openBatch = true
  split : opening t = sent ++ pend
  link : w.link = some { pipe := pend }
  queued : w.queued = pend.length
  host : w.host = serveAll srv sent h

/-- The connection is gone, or broken and not yet given up. -/
structure Down (w : World σ) : Prop where
  alive : w.alive = true
  unhealthy : w.healthy = false
  reset : w.link = none → w.openBatch = false ∧ w.queued = 0

/-- The process has ended. -/
structure Dead (w : World σ) : Prop where
  alive : w.alive = false
  link : w.link = none
  closed : w.openBatch = false
  drained : w.queued = 0

/-- What a failed call leaves behind. -/
structure Struck (srv : Server σ) (h : Host σ) (es : List Event) (w : World σ) : Prop where
  unmoved : Unmoved srv h w.host
  failed : ∃ e ∈ es, e.fails = true
  noExec : NoExec es
  state : Down w ∨ Dead w

theorem Struck.single {srv : Server σ} {h : Host σ} {e : Event} {w : World σ}
    (hf : e.fails = true) (he : ∀ ok, e ≠ .exec ok) (hu : Unmoved srv h w.host)
    (hs : Down w ∨ Dead w) : Struck srv h [e] w :=
  ⟨hu, ⟨e, List.mem_singleton_self e, hf⟩, fun ok hm => he ok (List.mem_singleton.mp hm).symm, hs⟩

theorem World.settle_true (srv : Server σ) (w : World σ) (pipe : List Request) (err : Bool)
    (h : w.link = some { err, pipe }) : w.settle srv true = serveAll srv pipe w.host := by
  simp [World.settle, h]

theorem World.die_dead (srv : Server σ) (w : World σ) (served : Bool) (s : List Event) :
    Dead (w.die srv served s) := ⟨rfl, rfl, rfl, rfl⟩

/-! ## Single calls -/

/-- A connection attempt of a live process: made, refused, or cut short. -/
theorem dial_cases {srv : Server σ} {w w' : World σ} {r : Bool} (ha : w.alive = true)
    (h : dial srv w = some (r, w')) :
    (∃ s, w.script = .connect true :: s ∧ r = true ∧
      w' = { w with script := s, link := some {}, host := w.host.fresh }) ∨
    (∃ s, w.script = .connect false :: s ∧ r = false ∧ w' = { w with script := s }) ∨
    (∃ s served, w.script = .kill served :: s ∧ r = false ∧ w' = w.die srv served s) := by
  obtain ⟨host, link, queued, openBatch, delta, totals, alive, script⟩ := w
  cases ha
  unfold dial at h
  split at h
  · contradiction
  · next s _ hs => cases h; exact .inl ⟨s, hs, rfl, rfl⟩
  · next s _ hs => cases h; exact .inr (.inl ⟨s, hs, rfl, rfl⟩)
  · next served s _ hs => cases h; exact .inr (.inr ⟨s, served, hs, rfl, rfl⟩)
  · cases h

theorem append_cases {srv : Server σ} {req : Request} {w w' : World σ} {r : Bool}
    (ha : w.alive = true) (h : append srv req w = some (r, w')) :
    ∃ l e, w.link = some l ∧ w.script = e :: w'.script ∧
      ((e = appendEvent req true ∧ r = true ∧
        w' = { w with script := w'.script, link := some { l with pipe := l.pipe ++ [req] } }) ∨
      (e = appendEvent req false ∧ r = false ∧
        w' = { w with script := w'.script, link := some { err := true } }) ∨
      (∃ served, e = .kill served ∧ r = false ∧ w' = w.die srv served w'.script)) := by
  obtain ⟨host, link, queued, openBatch, delta, totals, alive, script⟩ := w
  cases ha
  unfold append at h
  split at h
  · contradiction
  · next e s l _ hs hl =>
    cases hs; cases hl
    refine ⟨l, e, rfl, ?_⟩
    split at h
    · next he => cases h; exact ⟨rfl, .inl ⟨he, rfl, rfl⟩⟩
    · split at h
      · next he => cases h; exact ⟨rfl, .inr (.inl ⟨he, rfl, rfl⟩)⟩
      · split at h
        · next served _ _ _ => cases h; exact ⟨rfl, .inr (.inr ⟨served, rfl, rfl, rfl⟩)⟩
        · cases h
  · cases h

theorem getReply_cases {srv : Server σ} {w w' : World σ} {r : Option Reply}
    (ha : w.alive = true) (h : getReply srv w = some (r, w')) :
    ∃ l e, w.link = some l ∧ w.script = e :: w'.script ∧
      ((∃ req pipe, e = .reply ∧ l.pipe = req :: pipe ∧ r = some (serve srv req w.host).1 ∧
        w' = { w with script := w'.script, host := (serve srv req w.host).2,
                      link := some { err := l.err, pipe } }) ∨
      (∃ served, e = .lost served ∧ r = none ∧
        w' = { w with script := w'.script, host := w.settle srv served,
                      link := some { err := true } }) ∨
      (∃ served, e = .kill served ∧ r = none ∧ w' = w.die srv served w'.script)) := by
  obtain ⟨host, link, queued, openBatch, delta, totals, alive, script⟩ := w
  cases ha
  unfold getReply at h
  split at h
  · contradiction
  · next s err req pipe _ hs hl =>
    cases hs; cases hl; cases h
    exact ⟨_, _, rfl, rfl, .inl ⟨req, pipe, rfl, rfl, rfl, rfl⟩⟩
  · next served s l _ hs hl =>
    cases hs; cases hl; cases h
    exact ⟨_, _, rfl, rfl, .inr (.inl ⟨served, rfl, rfl, rfl⟩)⟩
  · next served s l _ hs hl =>
    cases hs; cases hl; cases h
    exact ⟨_, _, rfl, rfl, .inr (.inr ⟨served, rfl, rfl, rfl⟩)⟩
  · cases h

/-- Calls on a dead process do nothing. -/
theorem dial_dead {srv : Server σ} {w : World σ} (ha : w.alive = false) :
    dial srv w = some (false, w) := by
  unfold dial; rw [ha]

end CdrProcessor
