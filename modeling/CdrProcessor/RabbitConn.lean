import CdrProcessor.Lib.Triple
import Mathlib.Logic.Function.Basic

/-!
`RabbitConn` against the library under it.  The library is one that is strict: a call on a
connection that was freed or never made, or before its time, is stuck.  What a call comes to
is decided outside.
-/

namespace CdrProcessor.RabbitConn

open Script

/-! ## librabbitmq -/

/-- How far a connection has come. -/
inductive Phase where
  | allocated | socket | connected | loggedIn | channel
  deriving DecidableEq, Repr

/-- What a call comes to; a call that cannot run into its time-out fails. -/
inductive Outcome where
  | ok | timeout | failure
  deriving DecidableEq, Repr

/-- The connections that are there, how many were made and freed, the envelopes handed out,
and what the calls still to come will come to. -/
structure Library where
  live : Nat → Option Phase := fun _ => none
  made : Nat := 0
  freed : Nat := 0
  envelopes : Nat := 0
  outcomes : Nat → Outcome
  calls : Nat := 0

/-- `m_conn` and `m_channel_open`, over the library. -/
structure World where
  lib : Library
  conn : Option Nat := none
  channelOpen : Bool := false

/-- Code that calls the library.  It is stuck at a call that is not allowed. -/
abbrev Client := StateT World Option

/-- A call on a connection in one of the phases. -/
def call (h : Nat) (allowed : Phase → Bool) (effect : Outcome → Library → Library) :
    Client Outcome := fun w =>
  match w.lib.live h with
  | some phase =>
    if allowed phase then
      let outcome := w.lib.outcomes w.lib.calls
      some (outcome, { w with lib := effect outcome { w.lib with calls := w.lib.calls + 1 } })
    else none
  | none => none

def Library.set (lib : Library) (h : Nat) (phase : Option Phase) : Library :=
  { lib with live := Function.update lib.live h phase }

/-- A call that takes a connection on when it goes well. -/
def advance (h : Nat) (from_ next : Phase) : Client Bool := do
  let outcome ← call h (· = from_) fun outcome lib =>
    if outcome = .ok then lib.set h (some next) else lib
  return outcome = .ok

/-- `amqp_new_connection`, nothing for a null pointer. -/
def amqpNewConnection : Client (Option Nat) := fun w =>
  let lib := { w.lib with calls := w.lib.calls + 1 }
  if w.lib.outcomes w.lib.calls = .ok then
    some (some lib.made, { w with lib :=
      { lib with made := lib.made + 1 }.set lib.made (some .allocated) })
  else some (none, { w with lib })

def amqpTcpSocketNew (h : Nat) : Client Bool := advance h .allocated .socket

def amqpSocketOpen (h : Nat) : Client Bool := advance h .socket .connected

def amqpLogin (h : Nat) : Client Bool := advance h .connected .loggedIn

def amqpChannelOpen (h : Nat) : Client Bool := advance h .loggedIn .channel

/-- `amqp_basic_qos`, `amqp_basic_consume` and `amqp_basic_ack`. -/
def amqpBasic (h : Nat) : Client Bool := advance h .channel .channel

def amqpMaybeReleaseBuffers (h : Nat) : Client Unit := do
  let _ ← call h (· = .channel) fun _ lib => lib

/-- `amqp_consume_message`: an envelope when a message came. -/
def amqpConsumeMessage (h : Nat) : Client Outcome :=
  call h (· = .channel) fun outcome lib =>
    if outcome = .ok then { lib with envelopes := lib.envelopes + 1 } else lib

def amqpDestroyEnvelope : Client Unit := fun w =>
  if w.lib.envelopes = 0 then none
  else some ((), { w with lib := { w.lib with envelopes := w.lib.envelopes - 1 } })

def amqpChannelClose (h : Nat) : Client Unit := do
  let _ ← call h (· = .channel) fun _ lib => lib.set h (some .loggedIn)

def amqpConnectionClose (h : Nat) : Client Unit := do
  let _ ← call h (fun _ => true) fun _ lib => lib

def amqpDestroyConnection (h : Nat) : Client Unit := do
  let _ ← call h (fun _ => true) fun _ lib => { lib with freed := lib.freed + 1 }.set h none

/-! ## RabbitConn -/

/-- `RabbitConn::close`. -/
def close : Client Unit := do
  let w ← get
  match w.conn with
  | none => return ()
  | some h =>
    if w.channelOpen then
      amqpChannelClose h
      modify fun w => { w with channelOpen := false }
    amqpConnectionClose h
    amqpDestroyConnection h
    modify fun w => { w with conn := none }

/-- What follows a call of `open`: the rest when it went well, else everything is closed. -/
def orClose (step : Client Bool) (rest : Client Bool) : Client Bool := do
  if ← step then rest
  else
    close
    return false

/-- `RabbitConn::open`, of a url that can be parsed or not. -/
def open_ (urlOk : Bool) : Client Bool := do
  close
  if !urlOk then
    return false
  let conn ← amqpNewConnection
  modify fun w => { w with conn }
  match conn with
  | none => return false
  | some h =>
    orClose (amqpTcpSocketNew h) <| orClose (amqpSocketOpen h) <| orClose (amqpLogin h) <|
      orClose (amqpChannelOpen h) do
        modify fun w => { w with channelOpen := true }
        orClose (amqpBasic h) <| orClose (amqpBasic h) <| return true

/-- `RabbitConn::Status`. -/
inductive Status where
  | ok | timeout | fail
  deriving DecidableEq, Repr

/-- `RabbitConn::consume`. -/
def consume : Client Status := do
  let w ← get
  match w.conn, w.channelOpen with
  | some h, true =>
    amqpMaybeReleaseBuffers h
    match ← amqpConsumeMessage h with
    | .timeout => return .timeout
    | .failure => return .fail
    | .ok =>
      amqpDestroyEnvelope
      return .ok
  | _, _ => return .fail

/-- `RabbitConn::ack`. -/
def ack : Client Bool := do
  let w ← get
  match w.conn, w.channelOpen with
  | some h, true => amqpBasic h
  | _, _ => return false

/-- What the owner of a connection may call, in any order. -/
inductive Op where
  | open_ (urlOk : Bool)
  | consume
  | ack
  | close
  deriving DecidableEq, Repr

def Op.run : Op → Client Unit
  | .open_ urlOk => do let _ ← RabbitConn.open_ urlOk
  | .consume => do let _ ← RabbitConn.consume
  | .ack => do let _ ← RabbitConn.ack
  | .close => RabbitConn.close

def runAll : List Op → Client Unit
  | [] => return ()
  | op :: ops => do
    op.run
    runAll ops

/-! ## What is held -/

/-- One connection is there, the one in `m_conn`. -/
structure At (h : Nat) (phase : Phase) (channelOpen : Bool) (w : World) : Prop where
  conn : w.conn = some h
  flag : w.channelOpen = channelOpen
  live : w.lib.live = Function.update (fun _ => none) h (some phase)
  count : w.lib.made = w.lib.freed + 1
  envelopes : w.lib.envelopes = 0

/-- Nothing is there. -/
structure Closed (w : World) : Prop where
  conn : w.conn = none
  flag : w.channelOpen = false
  live : w.lib.live = fun _ => none
  count : w.lib.made = w.lib.freed
  envelopes : w.lib.envelopes = 0

/-- Between two calls there is nothing, or a connection with its channel. -/
def Settled (w : World) : Prop := Closed w ∨ ∃ h, At h .channel true w

variable {h : Nat} {phase next : Phase} {flag : Bool}

/-- The number of calls is of no matter. -/
theorem At.called {w : World} (hw : At h phase flag w) (calls : Nat) :
    At h phase flag { w with lib := { w.lib with calls } } :=
  ⟨hw.conn, hw.flag, hw.live, hw.count, hw.envelopes⟩

theorem At.moved {w : World} (hw : At h phase flag w) (next : Phase) :
    At h next flag { w with lib := w.lib.set h (some next) } where
  conn := hw.conn
  flag := hw.flag
  live := by
    change Function.update w.lib.live h (some next) = _
    rw [hw.live, Function.update_idem]
  count := hw.count
  envelopes := hw.envelopes

theorem At.flagged {w : World} (hw : At h phase flag w) (channelOpen : Bool) :
    At h phase channelOpen { w with channelOpen } :=
  ⟨hw.conn, rfl, hw.live, hw.count, hw.envelopes⟩

/-- A connection with its channel, or nothing, and which of them. -/
def Opened (ok : Bool) (w : World) : Prop := if ok then ∃ h, At h .channel true w else Closed w

end CdrProcessor.RabbitConn
