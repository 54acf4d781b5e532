import CdrProcessor.Deposit
import CdrProcessor.Lib.Run
import CdrProcessor.Parser

/-! The queue path as a system: consumers with a channel each, the broker's end of the
channels, and the store behind the sink, any of which may fail between two steps. -/

namespace CdrProcessor

def kRabbitPrefetch : Nat := 2 * kRabbitBatchSize

/-! ## The broker's end -/

/-- One message on one channel. -/
structure Delivery where
  channel : Nat
  tag : Nat
  body : Text
  deriving DecidableEq, Repr

/-- A channel: what the broker has not been acked for, and what of it the consumer has
not read.  Deliveries may still be read when the broker has given the channel up. -/
structure Channel where
  id : Nat := 0
  up : Bool := false
  nextTag : Nat := 1
  unacked : List Delivery := []
  unread : List Delivery := []

/-- The broker delivers, as long as fewer than the prefetch are unacked. -/
def Channel.push (c : Channel) (body : Text) : Option Channel :=
  if c.up ∧ c.unacked.length < kRabbitPrefetch then
    let d : Delivery := ⟨c.id, c.nextTag, body⟩
    some { c with nextTag := c.nextTag + 1, unacked := c.unacked ++ [d], unread := c.unread ++ [d] }
  else none

/-- The broker gives the channel up, and what was unacked goes back to the queue. -/
def Channel.cut (c : Channel) : Channel := { c with up := false, unacked := [] }

/-- `basic.ack` of a tag and all before it: what is acked, and the channel behind it. -/
def Channel.ack (c : Channel) (tag : Nat) : List Delivery × Channel :=
  (c.unacked.filter fun d => d.tag ≤ tag,
    { c with unacked := c.unacked.filter fun d => ¬ d.tag ≤ tag })

/-! ## RabbitSource -/

structure RabbitSource where
  lastTag : Nat := 0
  parsed : Nat := 0
  rejected : Nat := 0

/-- The body of the loop of `next` with a message: the source, and the batch. -/
def RabbitSource.message (parser : IParser) (s : RabbitSource) (out : List CdrRecord)
    (msg : Delivery) : RabbitSource × List CdrRecord :=
  match parser msg.body with
  | some record => ({ s with lastTag := msg.tag, parsed := s.parsed + 1 }, out ++ [record])
  | none => ({ s with lastTag := msg.tag, rejected := s.rejected + 1 }, out)

/-! ## RabbitIngestor -/

/-- Where a consumer stands in `RabbitIngestor::consume`. -/
inductive Stage where
  /-- Before `connection.open`. -/
  | down
  /-- At the head of the inner loop. -/
  | head
  /-- Inside `source.next`. -/
  | reading
  /-- `next` came back with a batch for the sink. -/
  | full
  /-- The sink came back, the ack is due. -/
  | written
  | over
  deriving DecidableEq, Repr

/-- A consumer: its thread-local side of the store, its channel and its source.  `read`
and `kept` are histories: the deliveries whose records make up the batch, and whether
the store ran the whole of it without an error. -/
structure Consumer where
  link : Option Link := none
  queued : Nat := 0
  openBatch : Bool := false
  delta : Delta := {}
  stage : Stage := .down
  channel : Channel := {}
  source : RabbitSource := {}
  batch : List CdrRecord := []
  read : List Delivery := []
  kept : Bool := false

/-- The head of the inner loop, and `next` clearing the batch behind it. -/
def Consumer.turn (c : Consumer) (stopping : Bool) : Option Consumer :=
  if c.stage = .head then
    some (if stopping then { c with stage := .down }
      else { c with stage := .reading, batch := [], read := [] })
  else none

/-- A history of the batches handed to the sink, and of the deliveries they came from. -/
structure Handover where
  deliveries : List Delivery
  batch : List CdrRecord
  calls : List Call
  ran : List (Command × Bool)

/-- All of it was run, and without an error. -/
def Handover.whole (h : Handover) : Bool := h.ran = h.calls.map fun c => (c.command, true)

/-- `acked` has with each delivery how many batches the sink had been handed by then. -/
structure Rabbit where
  db : Db
  channels : Nat := 0
  stopping : Bool := false
  consumers : Nat → Consumer := fun _ => {}
  runTotals : RunTotals := {}
  log : List Handover := []
  acked : List (Delivery × Nat) := []

def Rabbit.set (s : Rabbit) (i : Nat) (c : Consumer) : Rabbit :=
  { s with consumers := Function.update s.consumers i c }

/-- What a consumer works on while it is inside the sink. -/
def Rabbit.world (s : Rabbit) (i : Nat) (script : List Event) : World Db where
  host := { state := s.db }
  link := (s.consumers i).link
  queued := (s.consumers i).queued
  openBatch := (s.consumers i).openBatch
  delta := (s.consumers i).delta
  runTotals := s.runTotals
  script := script

/-- The process is gone, and the broker takes back what its channels had. -/
def Rabbit.crashed (s : Rabbit) : Rabbit :=
  { s with stopping := false, consumers := fun _ => {}, runTotals := {} }

/-! ## Steps -/

inductive RabbitAct where
  /-- `connection.open`, with a fresh source behind it when it works. -/
  | opens (i : Nat) (up : Bool)
  | turn (i : Nat)
  /-- The broker delivers a message, whichever is next in the queue. -/
  | push (i : Nat) (body : Text)
  /-- The broker gives up a channel; its consumer finds out later, if at all. -/
  | cut (i : Nat)
  /-- `connection.consume` inside `next` returns the next message. -/
  | message (i : Nat)
  /-- Nothing arrives within the timeout. -/
  | timeout (i : Nat)
  /-- The read fails. -/
  | fail (i : Nat)
  /-- The batch goes through the sink. -/
  | consume (i : Nat) (visit : Visit) (script : List Event)
  /-- `connection.ack` of the last tag, multiple; `ok` when it got to the socket. -/
  | ack (i : Nat) (ok : Bool)
  /-- Other clients of the store. -/
  | others (db : Db)
  | stop
  /-- A consumer that is not connected sees the stop. -/
  | leave (i : Nat)
  | crash

/-- `sink.consume(batch, "")`. -/
def Rabbit.consume (s : Rabbit) (i : Nat) (visit : Visit) (script : List Event) :
    Option Rabbit :=
  let c := s.consumers i
  if c.stage = .full then
    match AggregateSink.consume (redisStore redis) visit c.batch [] (s.world i script) with
    | some (_, w) =>
      if w.script ≠ [] then none
      else
        let h : Handover := ⟨c.read, c.batch, consumeCalls visit c.batch [], w.host.ran⟩
        let s' := { s with db := w.host.state, log := s.log ++ [h] }
        if w.alive then
          some ({ s' with runTotals := w.runTotals }.set i
            { c with link := w.link, queued := w.queued, openBatch := w.openBatch,
                     delta := w.delta, stage := .written, kept := h.whole })
        else some s'.crashed
    | none => none
  else none

/-- A message read inside `next`. -/
def Consumer.message (parser : IParser) (c : Consumer) : Option Consumer :=
  match c.stage, c.channel.unread with
  | .reading, d :: unread =>
    let r := c.source.message parser c.batch d
    some { c with
      channel := { c.channel with unread := unread }
      source := r.1
      batch := r.2
      read := if (parser d.body).isSome then c.read ++ [d] else c.read
      stage := if r.2.length < kRabbitBatchSize then .reading else .full }
  | _, _ => none

/-- Nothing to read: `next` comes back with what it has. -/
def Consumer.timeout (c : Consumer) : Option Consumer :=
  if c.stage = .reading then
    some { c with stage := if c.batch = [] then .head else .full }
  else none

/-- `connection.ack(source.last_tag(), true)`: the broker acks what it still holds. -/
def Rabbit.ack (s : Rabbit) (i : Nat) (ok : Bool) : Option Rabbit :=
  let c := s.consumers i
  if c.stage = .written then
    if ok then
      let r := c.channel.ack c.source.lastTag
      some ({ s with acked := s.acked ++ r.1.map fun d => (d, s.log.length) }.set i
        { c with channel := r.2, stage := .head, read := [] })
    else some (s.set i { c with stage := .down })
  else none

/-- `open` closes whatever was open before. -/
def Rabbit.opens (s : Rabbit) (i : Nat) (up : Bool) : Option Rabbit :=
  let c := s.consumers i
  if c.stage = .down ∧ s.stopping = false then
    if up then
      some ({ s with channels := s.channels + 1 }.set i { c with
        channel := { id := s.channels, up := true }, source := {}, read := [], stage := .head })
    else some (s.set i { c with channel := {} })
  else none

def rabbitStep (parser : IParser) (s : Rabbit) : RabbitAct → Option Rabbit
  | .opens i up => s.opens i up
  | .turn i => ((s.consumers i).turn s.stopping).map (s.set i)
  | .push i body => ((s.consumers i).channel.push body).map fun channel =>
      s.set i { s.consumers i with channel }
  | .cut i => some (s.set i { s.consumers i with channel := (s.consumers i).channel.cut })
  | .message i => ((s.consumers i).message parser).map (s.set i)
  | .timeout i => (s.consumers i).timeout.map (s.set i)
  | .fail i =>
    if (s.consumers i).stage = .reading then some (s.set i { s.consumers i with stage := .down })
    else none
  | .consume i visit script => s.consume i visit script
  | .ack i ok => s.ack i ok
  | .others db => some { s with db }
  | .stop => some { s with stopping := true }
  | .leave i =>
    if (s.consumers i).stage = .down ∧ s.stopping = true then
      some (s.set i { s.consumers i with stage := .over })
    else none
  | .crash => some s.crashed

end CdrProcessor
