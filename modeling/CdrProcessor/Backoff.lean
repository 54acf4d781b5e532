import CdrProcessor.StoreCalls
import CdrProcessor.Lib.Run

/-!
`RedisConn` with its clock: what `RedisStore` sees as a connection that is up or is not is
here a context, a time before which nothing is tried, and a delay that doubles.
-/

namespace CdrProcessor.RedisConn

def kRedisBackoffMinMs : UInt32 := 100
def kRedisBackoffMaxMs : UInt32 := 5000

/-- What a thread holds.  Times are nanoseconds of a clock that starts at 0. -/
structure Holder where
  ctx : Option Link := none
  nextTry : Nat := 0
  delayMs : UInt32 := 0
  loggedDown : Bool := false

inductive Level where
  | debug | info | error
  deriving DecidableEq, Repr

/-- What a `get` meets as far as it gets: the clock before it connects, the context
`redisConnectWithTimeout` hands back by its error flag (none when out of memory), and the
clock behind a connect that failed. -/
structure Meets where
  now : Nat
  connect : Option Bool
  after : Nat

def Meets.up (m : Meets) : Bool := m.connect = some false

/-- What a `get` did: whether it connected, its answer, and the line it logged. -/
structure Got where
  dialled : Bool
  answer : Option Link
  logged : Option Level

def milliseconds (ms : Nat) : Nat := ms * 1000000

namespace Holder

def peek (held : Holder) : Option Link := held.ctx

def drop (held : Holder) : Holder := { held with ctx := none }

/-- `RedisConn::get`. -/
def get (held : Holder) (m : Meets) : Got × Holder :=
  if held.ctx.any (!·.err) then (⟨false, held.ctx, none⟩, held)
  else
    let held := held.drop
    if m.now < held.nextTry then (⟨false, none, none⟩, held)
    else if m.up then (⟨true, some {}, some .info⟩, { ctx := some {} })
    else
      let delayMs := if held.delayMs ≠ 0 then min (held.delayMs * 2) kRedisBackoffMaxMs
        else kRedisBackoffMinMs
      -- the first failure of a run speaks up
      (⟨true, none, some (if held.loggedDown then .debug else .error)⟩,
        { held with nextTry := m.after + milliseconds delayMs.toNat, delayMs, loggedDown := true })

end Holder

/-! ## A thread and its calls -/

structure Call where
  meets : Meets
  got : Got

/-- The connect was tried and did not come up. -/
def Call.failed (call : Call) : Bool := call.got.dialled && !call.meets.up

/-- A thread: what it holds, the last time its clock told, and its calls of `get`, the
newest first. -/
structure Thread where
  held : Holder := {}
  clock : Nat := 0
  calls : List Call := []

inductive Act where
  | get (meets : Meets)
  | drop
  /-- The open connection breaks: its context gets its error flag. -/
  | breaks

def step (t : Thread) : Act → Option Thread
  | .get m =>
    some { held := (t.held.get m).2, clock := m.after, calls := ⟨m, (t.held.get m).1⟩ :: t.calls }
  | .drop => some { t with held := t.held.drop }
  | .breaks => t.held.ctx.map fun link =>
      { t with held := { t.held with ctx := some { link with err := true } } }

/-- The clock never runs back. -/
def InTime (t : Thread) : Act → Prop
  | .get m => t.clock ≤ m.now ∧ m.now ≤ m.after
  | .drop => True
  | .breaks => True

def inTime (t : Thread) : Act → Bool
  | .get m => t.clock ≤ m.now && m.now ≤ m.after
  | .drop => true
  | .breaks => true

theorem inTime_sound (t : Thread) (a : Act) (h : inTime t a = true) : InTime t a := by
  cases a with
  | get m => simpa [inTime, InTime] using h
  | drop => trivial
  | breaks => trivial

/-! ## What a backoff is -/

/-- The connects that failed since one came up. -/
def failures : List Call → Nat
  | [] => 0
  | call :: before =>
    if call.got.dialled then if call.meets.up then 0 else failures before + 1 else failures before

/-- When the last connect that failed was over. -/
def failedAt : List Call → Nat
  | [] => 0
  | call :: before => if call.failed then call.meets.after else failedAt before

/-- The delay after so many failures. -/
def backoffMs : Nat → Nat
  | 0 => 0
  | n + 1 => min (kRedisBackoffMinMs.toNat * 2 ^ n) kRedisBackoffMaxMs.toNat

/-- The time up to which nothing is to be tried. -/
def waitsUntil (before : List Call) : Nat :=
  failedAt before + milliseconds (backoffMs (failures before))

/-- What is promised of one call, given the calls before it. -/
structure Kept (call : Call) (before : List Call) : Prop where
  /-- No connect before the delay has passed since the last failure. -/
  waits : call.got.dialled = true → failures before ≠ 0 → waitsUntil before ≤ call.meets.now
  /-- Null only where a connect just failed or the delay still runs. -/
  null : call.got.answer = none →
    call.failed = true ∨
      call.got.dialled = false ∧ failures before ≠ 0 ∧ call.meets.now < waitsUntil before
  /-- One line at error level for a run of failures, at the first of them. -/
  loud : call.got.logged = some .error ↔ call.failed = true ∧ failures before = 0

/-! ## The invariant -/

/-- The fields of a holder, told from the calls. -/
structure Inv (t : Thread) : Prop where
  delay : t.held.delayMs.toNat = backoffMs (failures t.calls)
  nextTry : t.held.nextTry = if failures t.calls = 0 then 0 else waitsUntil t.calls
  loggedDown : t.held.loggedDown = decide (failures t.calls ≠ 0)
  kept : ∀ call before, call :: before <:+ t.calls → Kept call before

theorem backoffMs_le (n : Nat) : backoffMs n ≤ kRedisBackoffMaxMs.toNat := by
  cases n with
  | zero => exact Nat.zero_le _
  | succ n => exact Nat.min_le_right _ _

theorem backoffMs_succ_pos (n : Nat) : 0 < backoffMs (n + 1) :=
  Nat.lt_min.mpr ⟨Nat.mul_pos (by decide) (Nat.two_pow_pos n), by decide⟩

/-- Doubling up to the cap is the next delay. -/
theorem backoffMs_double (n : Nat) :
    min (backoffMs (n + 1) * 2) kRedisBackoffMaxMs.toNat = backoffMs (n + 2) := by
  have hpow : kRedisBackoffMinMs.toNat * 2 ^ (n + 1) = kRedisBackoffMinMs.toNat * 2 ^ n * 2 := by
    rw [Nat.pow_succ, Nat.mul_assoc]
  rw [backoffMs, backoffMs, hpow]
  omega

theorem toNat_min (a b : UInt32) : (min a b).toNat = min a.toNat b.toNat := by
  change (if a ≤ b then a else b).toNat = _
  by_cases h : a ≤ b
  · rw [if_pos h, Nat.min_eq_left (UInt32.le_iff_toNat_le.mp h)]
  · rw [if_neg h, Nat.min_eq_right (Nat.le_of_not_le fun h' => h (UInt32.le_iff_toNat_le.mpr h'))]

/-- The delay a failed connect leaves is the one after one failure more. -/
theorem nextDelay {delayMs : UInt32} {n : Nat} (h : delayMs.toNat = backoffMs n) :
    (if delayMs ≠ 0 then min (delayMs * 2) kRedisBackoffMaxMs else kRedisBackoffMinMs).toNat
      = backoffMs (n + 1) := by
  cases n with
  | zero =>
    obtain rfl : delayMs = 0 := UInt32.toNat.inj h
    rfl
  | succ n =>
    have hne : delayMs ≠ 0 := by
      rintro rfl
      exact absurd h (backoffMs_succ_pos n).ne
    have hle := backoffMs_le (n + 1)
    have hcap : kRedisBackoffMaxMs.toNat = 5000 := rfl
    have hmul : (delayMs * 2).toNat = delayMs.toNat * 2 := by
      rw [UInt32.toNat_mul]
      exact Nat.mod_eq_of_lt (by change delayMs.toNat * 2 < 2 ^ 32; omega)
    rw [if_pos hne, toNat_min, hmul, h, backoffMs_double]

/-! ## One call -/

/-- All that a `get` can do. -/
theorem get_cases (held : Holder) (m : Meets) :
    (∃ link, held.ctx = some link ∧ link.err = false ∧
      held.get m = (⟨false, held.ctx, none⟩, held)) ∨
    (held.ctx.any (!·.err) = false ∧ m.now < held.nextTry ∧
      held.get m = (⟨false, none, none⟩, held.drop)) ∨
    (held.ctx.any (!·.err) = false ∧ held.nextTry ≤ m.now ∧ m.up = true ∧
      held.get m = (⟨true, some {}, some .info⟩, { ctx := some {} })) ∨
    (held.ctx.any (!·.err) = false ∧ held.nextTry ≤ m.now ∧ m.up = false ∧
      held.get m = (⟨true, none, some (if held.loggedDown then .debug else .error)⟩,
        let delayMs := if held.delayMs ≠ 0 then min (held.delayMs * 2) kRedisBackoffMaxMs
          else kRedisBackoffMinMs
        ⟨none, m.after + milliseconds delayMs.toNat, delayMs, true⟩)) := by
  unfold Holder.get
  by_cases hctx : held.ctx.any (!·.err) = true
  · left
    obtain ⟨link, hlink, herr⟩ := (Option.any_eq_true _ _).mp hctx
    exact ⟨link, hlink, by simpa using herr, if_pos hctx⟩
  · rw [if_neg hctx]
    rw [Bool.not_eq_true] at hctx
    right
    dsimp only
    by_cases hwait : m.now < held.nextTry
    · left
      exact ⟨hctx, hwait, if_pos hwait⟩
    · right
      rw [if_neg (show ¬ m.now < held.drop.nextTry from hwait)]
      cases hup : m.up with
      | true => exact .inl ⟨hctx, not_lt.mp hwait, rfl, rfl⟩
      | false => exact .inr ⟨hctx, not_lt.mp hwait, rfl, rfl⟩

/-- A null answer leaves nothing held, any other is what is held. -/
theorem get_answer (held : Holder) (m : Meets) : (held.get m).1.answer = (held.get m).2.peek := by
  rcases get_cases held m with ⟨link, -, -, h⟩ | ⟨-, -, h⟩ | ⟨-, -, -, h⟩ | ⟨-, -, -, h⟩
  · rw [h]; rfl
  · rw [h]; rfl
  · rw [h]; rfl
  · rw [h]; rfl

theorem dial_connect {σ : Type} (srv : Server σ) {w : World σ} (hw : w.alive = true) {up : Bool}
    {script : List Event} (hscript : w.script = .connect up :: script) :
    ∃ w', dial srv { w with link := none } = some (up, w') ∧
      w'.link = if up then some {} else none := by
  cases up with
  | true => exact ⟨_, by simp only [dial, hw, hscript]; rfl, rfl⟩
  | false => exact ⟨_, by simp only [dial, hw, hscript]; rfl, rfl⟩

/-- What the store sees: where the context stands it is handed out, and else the connection is
one that came up or did not, refused or not tried. -/
theorem get_conforms {σ : Type} (srv : Server σ) {w : World σ} {held : Holder}
    (hlink : w.link = held.ctx) (hup : w.alive = true) (m : Meets) {script : List Event}
    (hscript : w.healthy = false → w.script = .connect (held.get m).1.answer.isSome :: script) :
    ∃ w', RedisConn.get srv w = some ((held.get m).1.answer.isSome, w') ∧
      w'.link = (held.get m).2.ctx := by
  have hhealthy : w.healthy = held.ctx.any (!·.err) := by rw [World.healthy, hlink]
  rcases get_cases held m with ⟨link, hctx, herr, h⟩ | ⟨hctx, -, h⟩ | ⟨hctx, -, -, h⟩ |
    ⟨hctx, -, -, h⟩
  · have hstands : w.healthy = true := by simp [hhealthy, hctx, herr]
    refine ⟨w, ?_, ?_⟩
    · rw [conn_healthy hstands, h, hctx]
      rfl
    · rw [hlink, h]
  · rw [conn_unhealthy (hhealthy.trans hctx)]
    have hdial := dial_connect srv hup (hscript (hhealthy.trans hctx))
    rw [h] at hdial ⊢
    exact hdial
  · rw [conn_unhealthy (hhealthy.trans hctx)]
    have hdial := dial_connect srv hup (hscript (hhealthy.trans hctx))
    rw [h] at hdial ⊢
    exact hdial
  · rw [conn_unhealthy (hhealthy.trans hctx)]
    have hdial := dial_connect srv hup (hscript (hhealthy.trans hctx))
    rw [h] at hdial ⊢
    exact hdial

/-! ## The steps -/

theorem kept_cons {call : Call} {calls : List Call} (hcall : Kept call calls)
    (hcalls : ∀ call before, call :: before <:+ calls → Kept call before) :
    ∀ call' before, call' :: before <:+ call :: calls → Kept call' before := by
  intro call' before h
  rcases List.suffix_cons_iff.mp h with heq | h
  · cases heq
    exact hcall
  · exact hcalls call' before h

theorem inv_start : Inv {} where
  delay := rfl
  nextTry := rfl
  loggedDown := rfl
  kept := fun _ _ h => nomatch List.suffix_nil.mp h

/-- A call that does not connect changes nothing but the context. -/
theorem inv_undialled {t : Thread} (hi : Inv t) {m : Meets} {answer : Option Link} {ctx : Option Link}
    (hkept : Kept ⟨m, ⟨false, answer, none⟩⟩ t.calls) :
    Inv { held := { t.held with ctx }, clock := m.after,
          calls := ⟨m, ⟨false, answer, none⟩⟩ :: t.calls } where
  delay := hi.delay
  nextTry := hi.nextTry
  loggedDown := hi.loggedDown
  kept := kept_cons hkept hi.kept

theorem inv_get {t : Thread} (hi : Inv t) (m : Meets) :
    Inv { held := (t.held.get m).2, clock := m.after, calls := ⟨m, (t.held.get m).1⟩ :: t.calls } := by
  rcases get_cases t.held m with ⟨link, hlink, -, h⟩ | ⟨-, hwait, h⟩ | ⟨-, hgo, hup, h⟩ |
    ⟨-, hgo, hup, h⟩
  · -- the context stands
    rw [h]
    refine inv_undialled hi ⟨nofun, fun hnull => ?_, ⟨nofun, fun hloud => nomatch hloud.1⟩⟩
    rw [hlink] at hnull
    cases hnull
  · -- the delay runs
    rw [h]
    refine inv_undialled hi ⟨nofun, fun _ => .inr ⟨rfl, ?_⟩, ⟨nofun, fun hloud => nomatch hloud.1⟩⟩
    rw [hi.nextTry] at hwait
    by_cases hn : failures t.calls = 0
    · rw [if_pos hn] at hwait
      exact absurd hwait (Nat.not_lt_zero _)
    · rw [if_neg hn] at hwait
      exact ⟨hn, hwait⟩
  · -- the connection comes up
    rw [h]
    have hfailures : failures (⟨m, true, some {}, some .info⟩ :: t.calls) = 0 := by
      simp [failures, hup]
    refine ⟨?_, ?_, ?_, kept_cons ⟨fun _ hn => ?_, nofun, ⟨nofun, fun hloud => ?_⟩⟩ hi.kept⟩
    · rw [hfailures]
      rfl
    · rw [if_pos hfailures]
    · rw [hfailures]
      rfl
    · rw [hi.nextTry, if_neg hn] at hgo
      exact hgo
    · have hfailed := hloud.1
      simp [Call.failed, hup] at hfailed
  · -- it does not
    rw [h]
    have hfailed : ∀ logged, Call.failed ⟨m, true, none, logged⟩ = true := by
      simp [Call.failed, hup]
    have hfailures : ∀ logged, failures (⟨m, true, none, logged⟩ :: t.calls)
        = failures t.calls + 1 := by
      simp [failures, hup]
    have hdelay := nextDelay hi.delay
    refine ⟨?_, ?_, ?_, kept_cons ⟨fun _ hn => ?_, fun _ => .inl (hfailed _), ?_⟩ hi.kept⟩
    · rw [hfailures]
      exact hdelay
    · refine Eq.trans ?_ (if_neg (by rw [hfailures]; exact Nat.succ_ne_zero _)).symm
      rw [waitsUntil, failedAt, if_pos (hfailed _), hfailures, ← hdelay]
    · rw [hfailures]
      rfl
    · rw [hi.nextTry, if_neg hn] at hgo
      exact hgo
    · rw [hi.loggedDown]
      by_cases hn : failures t.calls = 0
      · simp [hn, hfailed]
      · simp [hn]

theorem inv_step {t t' : Thread} {a : Act} (hi : Inv t) (hs : step t a = some t') : Inv t' := by
  cases a with
  | get m =>
    cases hs
    exact inv_get hi m
  | drop =>
    cases hs
    exact ⟨hi.delay, hi.nextTry, hi.loggedDown, hi.kept⟩
  | breaks =>
    obtain ⟨link, -, rfl⟩ := Option.map_eq_some_iff.mp hs
    exact ⟨hi.delay, hi.nextTry, hi.loggedDown, hi.kept⟩

theorem inv_run {t : Thread} {acts : List Act} (hr : Run step InTime {} acts t) : Inv t :=
  hr.invariant (fun _ _ _ hi _ hs => inv_step hi hs) inv_start

/-- **One connect for each backoff.**  In every run of one thread: after `n + 1` failed
connects in a row the delay is the first one doubled `n` times, up to the cap; with none
since a connect came up there is no delay; and every call kept to it. -/
theorem one_connect_each_backoff {t : Thread} {acts : List Act} (hr : Run step InTime {} acts t) :
    (∀ n, failures t.calls = n + 1 →
      t.held.delayMs.toNat = min (kRedisBackoffMinMs.toNat * 2 ^ n) kRedisBackoffMaxMs.toNat) ∧
    (failures t.calls = 0 → t.held.delayMs = 0 ∧ t.held.nextTry = 0) ∧
    ∀ call before, call :: before <:+ t.calls → Kept call before := by
  have hi := inv_run hr
  refine ⟨fun n hn => ?_, fun hn => ⟨?_, ?_⟩, hi.kept⟩
  · rw [hi.delay, hn, backoffMs]
  · refine UInt32.toNat.inj ?_
    rw [hi.delay, hn]
    rfl
  · rw [hi.nextTry, if_pos hn]

/-- Two failures, a call in between that waits, a connect, and a failure once it broke. -/
def flapping : List Act :=
  [.get ⟨5, none, 6⟩, .get ⟨7, some true, 7⟩, .get ⟨100000006, some true, 100000009⟩, .drop,
    .get ⟨300000009, some false, 300000009⟩, .breaks, .get ⟨300000010, none, 300000011⟩]

theorem one_connect_each_backoff_flapping :
    ∃ t, Run step InTime {} flapping t ∧ failures t.calls = 1 ∧ t.held.delayMs.toNat = 100 := by
  have hr : ∃ t, Run step InTime {} flapping t ∧ failures t.calls = 1 :=
    ⟨_, Run.of_checked inTime_sound rfl, rfl⟩
  obtain ⟨t, hr, hn⟩ := hr
  exact ⟨t, hr, hn, (one_connect_each_backoff hr).1 0 hn⟩

end CdrProcessor.RedisConn
