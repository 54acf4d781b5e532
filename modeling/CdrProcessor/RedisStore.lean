import CdrProcessor.Aggregate
import CdrProcessor.Redis
import CdrProcessor.Lib.Script

/-! `IStore`, and the Redis store behind it: `RedisConn` and `RedisStore` of one
thread, over a connection that may break or be refused at every call it makes. -/

namespace CdrProcessor

/-- `IStore`, over any kind of effect. -/
structure IStore (m : Type → Type) where
  increment : Text → Text → UInt64 → m Bool
  rank : Text → Text → UInt64 → m Bool
  flush : m Bool
  resumeAt : Text → m UInt64
  mark : Text → UInt64 → m Bool

/-! ## One thread and what it meets -/

/-- What the outside decides about one call into hiredis.  A read that is `lost`
breaks the connection, a `kill` ends the process inside the call; `served` tells
whether the server still handled all that was in flight. -/
inductive Event where
  /-- `RedisConn::get` has to connect: it does, or is refused or backing off. -/
  | connect (up : Bool)
  /-- `redisAppendCommand`, of anything but an EXEC. -/
  | append (ok : Bool)
  /-- `redisAppendCommand` of an EXEC. -/
  | exec (ok : Bool)
  /-- `redisGetReply` returns the next reply. -/
  | reply
  | lost (served : Bool)
  | kill (served : Bool)
  deriving DecidableEq, Repr

/-- `redisContext`: its error flag and the requests whose replies are unread. -/
structure Link where
  err : Bool := false
  pipe : List Request := []

/-- What a thread of the sink works on: the server end of its connection, its
thread-local state, the totals it shares, and the events still to come. -/
structure World (σ : Type) where
  host : Host σ
  link : Option Link := none
  queued : Nat := 0
  openBatch : Bool := false
  delta : Delta := {}
  runTotals : RunTotals := {}
  alive : Bool := true
  script : List Event := []

/-- Code of one thread.  It has no result on a script it does not fit. -/
abbrev Client (σ : Type) := StateT (World σ) Option

variable {σ : Type}

/-- The context is there and without an error. -/
def World.healthy (w : World σ) : Bool := w.link.any fun l => !l.err

/-- The context is there and broken. -/
def World.broken (w : World σ) : Bool := w.link.any fun l => l.err

/-- What the server holds once the requests in flight are handled, or not. -/
def World.settle (w : World σ) (srv : Server σ) (served : Bool) : Host σ :=
  if served then serveAll srv ((w.link.map Link.pipe).getD []) w.host else w.host

/-- The process ends: its connection and its memory go with it. -/
def World.die (w : World σ) (srv : Server σ) (served : Bool) (script : List Event) : World σ :=
  { w with host := w.settle srv served, link := none, queued := 0, openBatch := false,
           alive := false, script := script }

/-- `redisConnectWithTimeout` behind the backoff. -/
def dial (srv : Server σ) : Client σ Bool := fun w =>
  match w.alive, w.script with
  | false, _ => some (false, w)
  | true, .connect true :: s =>
    some (true, { w with script := s, link := some {},
                         host := { w.host with multi := none, dirty := false } })
  | true, .connect false :: s => some (false, { w with script := s })
  | true, .kill served :: s => some (false, w.die srv served s)
  | true, _ => none

/-- The event that decides an append. -/
def appendEvent : Request → Bool → Event
  | .exec, ok => .exec ok
  | _, ok => .append ok

/-- `redisAppendCommand`. -/
def append (srv : Server σ) (req : Request) : Client σ Bool := fun w =>
  match w.alive, w.script, w.link with
  | false, _, _ => some (false, w)
  | true, e :: s, some l =>
    if e = appendEvent req true then
      some (true, { w with script := s, link := some { l with pipe := l.pipe ++ [req] } })
    else if e = appendEvent req false then
      some (false, { w with script := s, link := some { err := true } })
    else
      match e with
      | .kill served => some (false, w.die srv served s)
      | _ => none
  | true, _, _ => none

/-- `redisGetReply`: the server answers the oldest request in flight. -/
def getReply (srv : Server σ) : Client σ (Option Reply) := fun w =>
  match w.alive, w.script, w.link with
  | false, _, _ => some (none, w)
  | true, .reply :: s, some { err, pipe := req :: pipe } =>
    let r := serve srv req w.host
    some (some r.1, { w with script := s, host := r.2, link := some { err, pipe } })
  | true, .lost served :: s, some _ =>
    some (none, { w with script := s, host := w.settle srv served, link := some { err := true } })
  | true, .kill served :: s, some _ => some (none, w.die srv served s)
  | true, _, _ => none

namespace RedisConn

/-- `RedisConn::get`: this thread's context, opened again when it broke. -/
def get (srv : Server σ) : Client σ Bool := do
  if (← MonadState.get).healthy then
    return true
  modify fun w => { w with link := none }
  dial srv

end RedisConn

/-! ## The store -/

namespace RedisStore

/-- `RedisStore::batch`: false when there is no connection. -/
def batch (srv : Server σ) : Client σ Bool := do
  -- the queued commands went with a broken connection
  modify fun w => if w.broken then { w with link := none, queued := 0, openBatch := false } else w
  if !(← RedisConn.get srv) then
    return false
  if (← get).openBatch then
    return true
  if !(← append srv .multi) then
    return false
  modify fun w => { w with openBatch := true, queued := w.queued + 1 }
  return true

/-- The loop of `drain`: one reply for each queued command. -/
def readReplies (srv : Server σ) : Nat → Client σ Bool
  | 0 => return true
  | n + 1 => do
    match ← getReply srv with
    | none =>
      modify fun w => { w with openBatch := false }
      return false
    | some reply =>
      let ok ← readReplies srv n
      return !reply.isError && ok

/-- `RedisStore::drain`. -/
def drain (srv : Server σ) : Client σ Bool := do
  if (← get).queued = 0 then
    return true
  if !(← get).healthy then
    modify fun w => { w with queued := 0, openBatch := false }
    return false
  let ok ← readReplies srv (← get).queued
  modify fun w => { w with queued := 0 }
  return ok

/-- What `increment`, `rank` and `mark` share: the command goes into the open
batch, and the pipeline may be drained when it is full. -/
def enqueue (srv : Server σ) (drains : Bool) (c : Command) : Client σ Bool := do
  if !(← batch srv) then
    return false
  if !(← append srv (.command c)) then
    return false
  modify fun w => { w with queued := w.queued + 1 }
  if drains ∧ ¬ (← get).queued < kRedisPipelineDepth then
    drain srv
  else
    return true

/-- `RedisStore::increment`. -/
def increment (srv : Server σ) (key field : Text) (value : UInt64) : Client σ Bool :=
  enqueue srv true (.hincrby key field value)

/-- `RedisStore::rank`. -/
def rank (srv : Server σ) (board member : Text) (value : UInt64) : Client σ Bool :=
  enqueue srv true (.zincrby board value member)

/-- `RedisStore::mark`, the one command that never drains. -/
def mark (srv : Server σ) (source : Text) (seq : UInt64) : Client σ Bool :=
  enqueue srv false (.hset kProgressKey source seq)

/-- `RedisStore::flush`. -/
def flush (srv : Server σ) : Client σ Bool := do
  if !(← get).openBatch then
    drain srv
  else if !(← get).healthy then
    modify fun w => { w with queued := 0, openBatch := false }
    return false
  else
    let appended ← append srv .exec
    modify fun w => { w with openBatch := false }
    if !appended then
      modify fun w => { w with queued := 0 }
      return false
    modify fun w => { w with queued := w.queued + 1 }
    drain srv

/-- `RedisStore::resume_at`: 0 for a missing field, and for every failure. -/
def resumeAt (srv : Server σ) (source : Text) : Client σ UInt64 := do
  let _ ← flush srv
  if !(← RedisConn.get srv) then
    return 0
  let sent ← append srv (.hget kProgressKey source)
  let reply ← if sent then getReply srv else pure none
  match reply with
  | none =>
    modify fun w => { w with link := none }
    return 0
  | some (.string str) => return ((fromChars str).map Prod.fst).getD 0
  | some _ => return 0

end RedisStore

def redisStore (srv : Server σ) : IStore (Client σ) where
  increment := RedisStore.increment srv
  rank := RedisStore.rank srv
  flush := RedisStore.flush srv
  resumeAt := RedisStore.resumeAt srv
  mark := RedisStore.mark srv

end CdrProcessor
