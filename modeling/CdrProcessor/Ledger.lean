import CdrProcessor.Boards
import CdrProcessor.Gateway
import CdrProcessor.ReadBack

/-!
What the gateway owes to a request, read off the counters alone: a number for every counter is
all that it is told, and there are no keys, hashes or sorted sets in it.
-/

namespace CdrProcessor

open HttpGateway (Route captured)

/-- A number for every counter. -/
abbrev Ledger := Counter → Nat

/-- A board of subscribers, or of operators. -/
inductive Board where
  | subs (b : SubBoard)
  | ops (b : OpBoard)
  deriving DecidableEq, Repr

/-- What a request calls a board. -/
def Board.name : Board → Text
  | .subs .voice => "voice".toList
  | .subs .sms => "sms".toList
  | .subs .data => "data".toList
  | .subs .fail => "fail".toList
  | .ops .voice => "op-voice".toList
  | .ops .sms => "op-sms".toList

/-- The board a counter stands on, and under which name. -/
def Counter.standing : Counter → Option (Board × Text)
  | .subBoard m b => some (.subs b, Decimal.digits m.toNat)
  | .opBoard k b => some (.ops b, Decimal.digits k.toNat)
  | _ => none

namespace Ledger

variable (ledger : Ledger)

/-! ## One counter after the other -/

/-- The number a text of digits stands for. -/
def numberOf (id : Text) : UInt64 := .ofNat (Decimal.value id)

/-- The answer about a subscriber: somebody that has counted for something, under the digits
without leading zeros. -/
def subscriber (id : Text) : Result :=
  let m := numberOf id
  if id = Decimal.digits m.toNat ∧ ∃ f ∈ SubField.all, ledger (.sub m f) ≠ 0 then
    ⟨200, (subscriberJson id fun f => ledger (.sub m f)).str⟩
  else ⟨404, Json.error "subscriber not found".toList⟩

/-- The answer about an operator. -/
def operator (id : Text) : Result :=
  let k := (numberOf id).toUInt32
  if id = Decimal.digits k.toNat ∧ ∃ f ∈ OpField.all, ledger (.op k f) ≠ 0 then
    ⟨200, (operatorJson id fun f => ledger (.op k f)).str⟩
  else ⟨404, Json.error "operator not found".toList⟩

/-- The answer about the whole run. -/
def totals : Result := ⟨200, (totalsJson fun f => ledger (.total f)).str⟩

/-! ## Pairs -/

/-- Two that have called or texted each other. -/
def Contact (a b : UInt64) : Prop := ∃ f ∈ LinkField.all, ledger (.link a b f) ≠ 0

instance (a b : UInt64) : Decidable (ledger.Contact a b) :=
  inferInstanceAs (Decidable (∃ f ∈ LinkField.all, ledger (.link a b f) ≠ 0))

/-- The same of the texts that stand for them. -/
def InContact (s t : Text) : Prop :=
  ∃ a b, s = Decimal.digits a.toNat ∧ t = Decimal.digits b.toNat ∧ ledger.Contact a b

/-- An object about a pair, closed with what the two have exchanged. -/
def close (s t : Text) (json : Json) : Json :=
  let sum (f : LinkField) := UInt64.ofNat (ledger (.link (numberOf s) (numberOf t) f))
  json.addExchanged (sum .dur) (sum .cnt) (sum .sms)

/-- The answer about a pair. -/
def link (first second : Text) : Result :=
  let a := numberOf first
  let b := numberOf second
  if (first = Decimal.digits a.toNat ∧ second = Decimal.digits b.toNat) ∧ ledger.Contact a b then
    ⟨200, (ledger.close first second ((({} : Json).addText "first-party".toList first).addText
      "second-party".toList second)).str⟩
  else ⟨404, Json.error "link not found".toList⟩

/-- Everybody one is in contact with, in the order of the texts. -/
structure Contacts (id : Text) (names : List Text) : Prop where
  sorted : names.Pairwise (· < ·)
  mem : ∀ t, t ∈ names ↔ ledger.InContact id t

/-- A peer with the three numbers of the pair. -/
def peer (id name : Text) : Peer where
  msisdn := name
  duration := .ofNat (ledger (.link (numberOf id) (numberOf name) .dur))
  sms := .ofNat (ledger (.link (numberOf id) (numberOf name) .sms))
  calls := .ofNat (ledger (.link (numberOf id) (numberOf name) .cnt))

/-- One page of the contacts, by name or by what was exchanged. -/
def peers (id : Text) (names : List Text) (params : QueryParams) : Result :=
  if names = [] then ⟨404, Json.error "subscriber not found".toList⟩
  else
    let json := QueryService.listing id names.length params
    if params.weights then
      let ordered := orderPeers (names.map (ledger.peer id)) params.sort
      ⟨200, ((json.addText "sort".toList (if params.sort = .sms then QueryService.kSortSms
        else QueryService.kSortDur)).addJsons "peers".toList
          ((page ordered params).map QueryService.peerJson)).str⟩
    else ⟨200, (json.addTexts "peers".toList (page names params)).str⟩

/-! ## Chains -/

/-- A chain from one to the other of at most so many contacts. -/
def Chained (hops : Nat) : Text → Text → Prop := Reaches ledger.InContact hops

/-- The body about a chain, with what was exchanged at each of its hops. -/
def chainBody (chain : List Text) (weights : Bool) : Text :=
  let json := ({} : Json).addTexts "path".toList chain
  if weights then
    (json.addJsons "hops".toList ((chain.zip chain.tail).map fun hop => ledger.close hop.1 hop.2
      ((({} : Json).addText "from".toList hop.1).addText "to".toList hop.2))).str
  else json.str

/-- At least `size` others are in the way, each within reach of one of the two: what is gone from
the one and from the other makes up at most so many contacts. -/
def Crowded (hops size : Nat) : Text → Text → Prop := Surrounded ledger.InContact hops size

/-- The answer to who links two is a chain of the fewest contacts, or that there is none within
`maxHops`; a search with `maxVisited` others in the way may give up. -/
inductive Path (cfg : QueryConfig) (first second : Text) (weights : Bool) : Result → Prop
  | found {chain : List Text} (hchain : IsRoute ledger.InContact first second chain)
      (hshortest : ∀ l, IsRoute ledger.InContact first second l → chain.length ≤ l.length)
      (hhops : chain.length ≤ cfg.maxHops.toNat + 1) :
      Path cfg first second weights ⟨200, ledger.chainBody chain weights⟩
  | missing (hnone : ¬ ledger.Chained cfg.maxHops.toNat first second ∨
      ledger.Crowded cfg.maxHops.toNat cfg.maxVisited.toNat first second) :
      Path cfg first second weights ⟨404, PathService.notFound cfg⟩

/-! ## Boards -/

/-- Everybody with a score, the highest first; of equal scores the last name goes first. -/
structure Standings (board : Board) (entries : List (Text × Nat)) : Prop where
  mem : ∀ name score, (name, score) ∈ entries ↔
    score ≠ 0 ∧ ∃ c : Counter, c.standing = some (board, name) ∧ ledger c = score
  sorted : entries.Pairwise fun e d => d.2 < e.2 ∨ e.2 = d.2 ∧ d.1 < e.1

/-- The first and the last place of a page are numbers the store can be asked for. -/
def Asked (params : QueryParams) : Prop :=
  params.offset.toNat < 2 ^ 63 ∧
    (params.limit = 0 ∨ params.offset.toNat + params.limit.toNat - 1 < 2 ^ 63)

instance (params : QueryParams) : Decidable (Asked params) := inferInstanceAs (Decidable (_ ∧ _))

/-- One page of a board; past the numbers the store can be asked for, it counts as out of reach. -/
def top (board : Text) (entries : List (Text × Nat)) (params : QueryParams) : Result :=
  if Asked params then
    ⟨200, ((((({} : Json).addText "board".toList board).addNumber "count".toList
      (.ofNat entries.length)).addNumber "offset".toList params.offset).addNumber "limit".toList
        params.limit).addJsons "entries".toList ((page entries params).map fun e =>
          RankService.entryJson (e.1, .ofNat e.2)) |>.str⟩
  else unavailable

/-! ## Every route -/

/-- A request whose parameters are in order is owed this, any other their refusal. -/
def OfParams (req : Params) (fallback cap : UInt64) (owed : QueryParams → Result → Prop)
    (result : Result) : Prop :=
  match parseParams req fallback cap with
  | .error refused => result = refused
  | .ok params => owed params result

/-- What a request for a route is owed; the health of the store is nothing the counters know. -/
def Owes (cfg : QueryConfig) (route : Route) (captures : List Text) (req : Params) :
    Result → Prop :=
  let first := captured captures 1
  let second := captured captures 2
  match route with
  | .msisdn => (· = ledger.subscriber first)
  | .operator => (· = ledger.operator first)
  | .peers => OfParams req kPeerLimit kPeerLimitMax fun params result =>
      ∃ names, ledger.Contacts first names ∧ result = ledger.peers first names params
  | .link => (· = ledger.link first second)
  | .path => OfParams req kPeerLimit kPeerLimitMax fun params =>
      ledger.Path cfg first second params.weights
  | .totals => (· = ledger.totals)
  | .top => OfParams req kTopLimit kTopLimitMax fun params result =>
      (∃ board : Board, board.name = first ∧ ∃ entries, ledger.Standings board entries ∧
        result = top first entries params) ∨
      (∀ board : Board, board.name ≠ first) ∧ result = ⟨400, Json.error "no such board".toList⟩
  | .health => fun _ => True

end Ledger

end CdrProcessor
