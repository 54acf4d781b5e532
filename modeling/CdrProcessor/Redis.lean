import CdrProcessor.Basic
import CdrProcessor.Lib.Table
import Mathlib.Logic.Function.Basic

/-! The server end of a connection: what it does with the requests the store
sends.  A `Server` answers as it likes; `redis` is the documented behaviour of
the commands the processor uses. -/

namespace CdrProcessor

/-- The commands the store queues, in the order of their arguments on the wire. -/
inductive Command where
  | hincrby (key field : Text) (value : UInt64)
  | zincrby (board : Text) (value : UInt64) (member : Text)
  | hset (key field : Text) (value : UInt64)
  deriving DecidableEq, Repr

inductive Request where
  | multi
  | command (c : Command)
  | exec
  | hget (key field : Text)
  deriving DecidableEq, Repr

/-- `redisReply` by its type; an EXEC array holds one entry for each command it
ran, false for an error. -/
inductive Reply where
  | status
  | integer
  | error
  | array (oks : List Bool)
  | string (str : Text)
  | nil
  deriving DecidableEq, Repr

def Reply.isError : Reply → Bool
  | .error => true
  | _ => false

/-- A server over a state of any kind: whether it queues a command inside a
transaction, whether a command it runs succeeds, and what a field reads as.  The
state may move at every request, so it can stand for other clients as well. -/
structure Server (σ : Type) where
  queue : Command → σ → Bool × σ
  run : Command → σ → Bool × σ
  hget : Text → Text → σ → Reply

/-- The server end of one connection.  `ran` is a history of the commands run
for it, with their outcomes. -/
structure Host (σ : Type) where
  state : σ
  multi : Option (List Command) := none
  dirty : Bool := false
  ran : List (Command × Bool) := []

variable {σ : Type}

/-- Runs commands one after the other; an error does not stop the rest. -/
def runAll (srv : Server σ) : List Command → σ → List (Command × Bool) × σ
  | [], s => ([], s)
  | c :: cs, s =>
    let r := srv.run c s
    let rest := runAll srv cs r.2
    ((c, r.1) :: rest.1, rest.2)

/-- One request served.  An EXEC runs the whole queue at once, or discards it
when one of its commands was refused. -/
def serve (srv : Server σ) (req : Request) (h : Host σ) : Reply × Host σ :=
  match req, h.multi with
  | .multi, some _ => (.error, h)
  | .multi, none => (.status, { h with multi := some [], dirty := false })
  | .command c, some q =>
    let r := srv.queue c h.state
    if r.1 then (.status, { h with state := r.2, multi := some (q ++ [c]) })
    else (.error, { h with state := r.2, dirty := true })
  | .command c, none =>
    let r := srv.run c h.state
    (if r.1 then .integer else .error, { h with state := r.2, ran := h.ran ++ [(c, r.1)] })
  | .exec, none => (.error, h)
  | .exec, some q =>
    if h.dirty then (.error, { h with multi := none, dirty := false })
    else
      let r := runAll srv q h.state
      (.array (r.1.map Prod.snd),
        { h with state := r.2, multi := none, ran := h.ran ++ r.1 })
  | .hget _ _, some _ => (.status, h)
  | .hget key field, none => (srv.hget key field h.state, h)

/-- Requests served in order, the replies not looked at. -/
def serveAll (srv : Server σ) (reqs : List Request) (h : Host σ) : Host σ :=
  reqs.foldl (fun h req => (serve srv req h).2) h

@[simp] theorem serveAll_nil (srv : Server σ) (h : Host σ) : serveAll srv [] h = h := rfl

@[simp] theorem serveAll_cons (srv : Server σ) (req : Request) (reqs : List Request)
    (h : Host σ) : serveAll srv (req :: reqs) h = serveAll srv reqs (serve srv req h).2 := rfl

theorem serveAll_append (srv : Server σ) (reqs reqs' : List Request) (h : Host σ) :
    serveAll srv (reqs ++ reqs') h = serveAll srv reqs' (serveAll srv reqs h) :=
  List.foldl_append

/-! ## The documented server -/

/-- The counters it holds.  Every value the processor writes is a number, kept
here as one; hashes and sorted sets live under different keys. -/
structure Db where
  hash : Text → Table Text Nat := fun _ => ∅
  board : Text → Table Text Nat := fun _ => ∅

/-- The largest hash value an HINCRBY takes or leaves is one less. -/
def int64Bound : Nat := 2 ^ 63

/-- The double nearest to a natural number, ties to even. -/
def roundDouble (n : Nat) : Nat :=
  if n < 2 ^ 53 then n
  else
    let e := n.log2 - 52
    let q := n / 2 ^ e
    let r := n % 2 ^ e
    if 2 ^ (e - 1) < r ∨ (r = 2 ^ (e - 1) ∧ q % 2 = 1) then (q + 1) * 2 ^ e else q * 2 ^ e

/-- Store a value under a field, made when it is missing. -/
def put (m : Text → Table Text Nat) (key field : Text) (value : Nat) : Text → Table Text Nat :=
  Function.update m key ((m key).insert field value)

/-- One command run.  An HINCRBY whose amount or result leaves the signed 64-bit
range is an error and changes nothing; scores are doubles. -/
def runCommand (c : Command) (db : Db) : Option Db :=
  match c with
  | .hincrby key field value =>
    let cur := ((db.hash key).lookup field).getD 0
    if cur + value.toNat < int64Bound then
      some { db with hash := put db.hash key field (cur + value.toNat) }
    else none
  | .zincrby board value member =>
    let cur := ((db.board board).lookup member).getD 0
    some { db with board := put db.board board member (roundDouble (cur + roundDouble value.toNat)) }
  | .hset key field value => some { db with hash := put db.hash key field value.toNat }

def redis : Server Db where
  queue _ db := (true, db)
  run c db :=
    match runCommand c db with
    | some db' => (true, db')
    | none => (false, db)
  hget key field db :=
    match (db.hash key).lookup field with
    | some value => .string (Decimal.digits value)
    | none => .nil

theorem redis_run {c : Command} {db db' : Db} (h : runCommand c db = some db') :
    redis.run c db = (true, db') := by
  change (match runCommand c db with | some db' => (true, db') | none => (false, db)) = _
  rw [h]

theorem redis_run_refused {c : Command} {db : Db} (h : runCommand c db = none) :
    redis.run c db = (false, db) := by
  change (match runCommand c db with | some db' => (true, db') | none => (false, db)) = _
  rw [h]

theorem redis_hget {key field : Text} {db : Db} {value : Nat}
    (h : (db.hash key).lookup field = some value) :
    redis.hget key field db = .string (Decimal.digits value) := by
  change (match (db.hash key).lookup field with
    | some value => Reply.string (Decimal.digits value) | none => .nil) = _
  rw [h]

theorem redis_hget_absent {key field : Text} {db : Db} (h : (db.hash key).lookup field = none) :
    redis.hget key field db = .nil := by
  change (match (db.hash key).lookup field with
    | some value => Reply.string (Decimal.digits value) | none => .nil) = _
  rw [h]

end CdrProcessor
