import CdrProcessor.Answers
import CdrProcessor.Gateway
import CdrProcessor.Recorded
import CdrProcessor.Sampler

/-!
The sampler's task, in Python, and the backend's calls of the gateway.  A poll asks for the
health of the store and for the totals at once; a row is kept when both could be had, and once a
day the rows past retention are dropped.
-/

namespace CdrProcessor.Sampler

open JsonText (Value decode)

/-! ## constants.py -/

def SWEEP_INTERVAL : Nat := 86400

/-! ## gateway.py -/

/-- What comes of a call of `httpx`. -/
inductive Reply where
  | closed
  | timeout
  | failed (detail : Text)
  | answered (status : Nat) (text : Text)

/-- The status and the body the backend goes on with. -/
structure Call where
  status : Nat
  body : Value

/-- `Gateway.get`. -/
def Gateway.get (route : Text) : Reply → Call
  | .closed => ⟨502, .object [("error".toList, .text "gateway client not open".toList)]⟩
  | .timeout => ⟨504, .object [("error".toList, .text "gateway timed out".toList),
      ("route".toList, .text route)]⟩
  | .failed detail => ⟨502, .object [("error".toList, .text "gateway unreachable".toList),
      ("route".toList, .text route), ("detail".toList, .text detail)]⟩
  | .answered status text => ⟨status, (decode text).getD
      (.object [("error".toList, .text "gateway sent no json".toList),
        ("body".toList, .text (text.take 500))])⟩

/-! ## What is read off a body -/

/-- `body.get(name)`, of a name given twice the last; only an object has it. -/
def bodyGet (body : Value) (name : Text) : Option (Option Value) :=
  match body with
  | .object fields => some (fields.reverse.lookup name)
  | _ => none

/-- `int(found)`, a field that is not there being 0; nothing where it raises. -/
def intOf : Option Value → Option Int
  | none => some 0
  | some (.number n) => some n
  | some _ => none

/-- `int(found or 0)`. -/
def intOrZero : Option Value → Option Int
  | some (.text []) | some (.array []) | some (.object []) => some 0
  | found => intOf found

def isUp : Option Value → Bool
  | some (.text text) => text = "up".toList
  | _ => false

/-! ## db.py -/

/-- `int(time.time())`, off a clock of microseconds. -/
def seconds (clock : Nat) : Int := (clock / 1000000 : Nat)

/-- The row `Samples.append` makes of the totals. -/
def rowOf (ts keys : Int) (totals : Value) : Option Row := do
  let values ← COUNTERS.mapM fun e => do some (e.1, ← intOrZero (← bodyGet totals e.2))
  some ⟨ts, fun column => if column = .keys then keys else (values.lookup column).getD 0⟩

/-- `INSERT OR REPLACE`, into a table in the order of its key. -/
def append (table : List Row) (row : Row) : List Row :=
  table.filter (·.ts < row.ts) ++ row :: table.filter (row.ts < ·.ts)

/-- `Samples.sweep`. -/
def sweep (table : List Row) (clock : Nat) : List Row :=
  table.filter (seconds clock - RETENTION_DAYS * 86400 ≤ ·.ts)

/-! ## sampler.py -/

/-- `last_error`, before it is put as a text. -/
inductive LastError where
  | nothing
  | body (failed : Value)
  | storeDown

/-- Where the task stands. -/
inductive Phase where
  /-- Not started, cancelled, or ended by an exception. -/
  | off
  /-- Asleep until the next poll. -/
  | ready
  /-- Inside `gather`, with the answers that are in. -/
  | polling (health totals : Option Call)
  /-- Inside `append`. -/
  | writing (row : Row)
  | sweeping

end CdrProcessor.Sampler

namespace CdrProcessor

structure Sampler where
  phase : Sampler.Phase := .off
  polls : Nat := 0
  failures : Nat := 0
  lastSample : Int := 0
  lastError : Sampler.LastError := .nothing
  /-- Microseconds, as the clock. -/
  swept : Nat := 0

end CdrProcessor

namespace CdrProcessor.Sampler

/-- `_poll` behind its `gather`, up to the `append`; nothing where it raises. -/
def judge (s : Sampler) (clock : Nat) (health totals : Call) : Option Sampler :=
  if health.status ≠ 200 ∨ totals.status ≠ 200 then
    let failed := if health.status ≠ 200 then health else totals
    some { s with failures := s.failures + 1, lastError := .body failed.body, phase := .sweeping }
  else do
    let store ← bodyGet health.body "store".toList
    if isUp store then
      let keys ← intOf (← bodyGet health.body "keys".toList)
      let row ← rowOf (seconds clock) keys totals.body
      some { s with phase := .writing row }
    else some { s with failures := s.failures + 1, lastError := .storeDown, phase := .sweeping }

/-- `_sweep` returns at once. -/
def Rested (s : Sampler) (clock : Nat) : Prop :=
  clock - s.swept < SWEEP_INTERVAL * 1000000

instance (s : Sampler) (clock : Nat) : Decidable (s.Rested clock) :=
  inferInstanceAs (Decidable (_ < _))

/-! ## The task among the others -/

/-- The store the gateway reads, as the batches committed so far; the clock; the table; and the
task of the process that is up.  `log` is a history of the rows written. -/
structure Site where
  calls : List ConsumeCall := []
  clock : Nat := 0
  table : List Row := []
  sampler : Sampler := {}
  log : List Row := []

inductive SiteAct where
  /-- The processor commits a batch. -/
  | commit (call : ConsumeCall)
  | tick (micros : Nat)
  /-- A process comes up. -/
  | start
  /-- The sleep is over. -/
  | poll
  | health (reply : Reply)
  | totals (reply : Reply)
  /-- `gather` is done. -/
  | judge
  | write (ok : Bool)
  | sweep (ok : Bool)
  /-- The task is cancelled; what it had handed to a thread may still get done. -/
  | cancel (late : Bool)

def Site.off (s : Site) : Site := { s with sampler := { s.sampler with phase := .off } }

def Site.insert (s : Site) (row : Row) : Site :=
  { s with table := append s.table row, log := s.log ++ [row] }

def siteStep (s : Site) : SiteAct → Option Site
  | .commit call => some { s with calls := s.calls ++ [call] }
  | .tick micros => some { s with clock := s.clock + micros }
  | .start =>
    match s.sampler.phase with
    | .off => some { s with sampler := { phase := .ready } }
    | _ => none
  | .poll =>
    match s.sampler.phase with
    | .ready => some { s with
        sampler := { s.sampler with polls := s.sampler.polls + 1, phase := .polling none none } }
    | _ => none
  | .health reply =>
    match s.sampler.phase with
    | .polling none totals => some { s with sampler := { s.sampler with
        phase := .polling (some (Gateway.get "/query/health".toList reply)) totals } }
    | _ => none
  | .totals reply =>
    match s.sampler.phase with
    | .polling health none => some { s with sampler := { s.sampler with
        phase := .polling health (some (Gateway.get "/query/totals".toList reply)) } }
    | _ => none
  | .judge =>
    match s.sampler.phase with
    | .polling (some health) (some totals) =>
      match s.sampler.judge s.clock health totals with
      | some sampler => some { s with sampler }
      | none => some s.off
    | _ => none
  | .write ok =>
    match s.sampler.phase with
    | .writing row =>
      if ok then
        some { s.insert row with sampler := { s.sampler with
          lastSample := row.ts, lastError := .nothing, phase := .sweeping } }
      else some s.off
    | _ => none
  | .sweep ok =>
    match s.sampler.phase with
    | .sweeping =>
      if s.sampler.Rested s.clock then
        some { s with sampler := { s.sampler with phase := .ready } }
      else if ok then
        some { s with
          table := sweep s.table s.clock
          sampler := { s.sampler with swept := s.clock, phase := .ready } }
      else some s.off
    | _ => none
  | .cancel late =>
    match s.sampler.phase, late with
    | .writing row, true => some (s.insert row).off
    | .sweeping, true =>
      if s.sampler.Rested s.clock then some s.off
      else some { s.off with table := sweep s.table s.clock }
    | _, _ => some s.off

end CdrProcessor.Sampler
