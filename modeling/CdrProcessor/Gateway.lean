import CdrProcessor.Lib.Patterns
import CdrProcessor.ListingParams
import CdrProcessor.PathService

/-! `HttpGateway`: the routes, the service each of them asks, and what is sent when there is
no route or a handler throws.  With it the services that read more of the store than its
hashes: `RankService` and the health of `StatsService`. -/

namespace CdrProcessor

/-- All of `IQueryStore`: with the number of keys, and a page of a board next to the number of
members the board holds. -/
structure QueryStore extends IQueryStore where
  dbsize : Nat → Option UInt64
  top : Nat → Text → UInt64 → UInt64 → Option (List (Text × UInt64) × UInt64)

/-- One read a request makes. -/
inductive StoreRead where
  | data (read : Read)
  | dbsize
  | top (board : Text) (offset limit : UInt64)
  deriving DecidableEq, Repr

/-- What a request comes to, with the reads it made: no result where the source would throw
or never return. -/
abbrev Served := Option (Result × List StoreRead)

/-- A service that reads hashes. -/
def Query.served (query : Query Result) : Served :=
  (query []).map fun run => (run.1, run.2.map .data)

namespace RankService

/-- The board names the route takes, under the keys they are kept in. -/
def kBoards : List (Text × Text) :=
  [("voice".toList, kVoiceBoard), ("sms".toList, kSmsBoard), ("data".toList, kDataBoard),
    ("fail".toList, kFailBoard), ("op-voice".toList, kOpVoiceBoard),
    ("op-sms".toList, kOpSmsBoard)]

/-- `RankService::keyOf`: empty for a name that is not a board. -/
def keyOf (board : Text) : Text :=
  ((kBoards.find? fun e => e.1 = board).map Prod.snd).getD []

/-- The object of one member. -/
def entryJson (entry : Text × UInt64) : Json :=
  (({} : Json).addText "id".toList entry.1).addNumber "score".toList entry.2

/-- `RankService::top`. -/
def top (store : QueryStore) (board : Text) (params : QueryParams) : Served :=
  let key := keyOf board
  if key = [] then some (⟨400, Json.error "no such board".toList⟩, [])
  else
    let read := [.top key params.offset params.limit]
    match store.top 0 key params.offset params.limit with
    | none => some (unavailable, read)
    | some (ranked, count) =>
      some (⟨200, ((((({} : Json).addText "board".toList board).addNumber "count".toList
        count).addNumber "offset".toList params.offset).addNumber "limit".toList
          params.limit).addJsons "entries".toList (ranked.map entryJson) |>.str⟩, read)

end RankService

/-- `StatsService::health`. -/
def StatsService.health (store : QueryStore) (cfg : QueryConfig) : Served :=
  let keys := store.dbsize 0
  let up := keys.isSome
  some (⟨200, ((((({} : Json).addText "status".toList "ok".toList).addText "store".toList
    (if up then "up".toList else "down".toList)).addNumber "keys".toList
      (keys.getD 0)).addNumber kJsonMaxHops cfg.maxHops).addNumber kJsonMaxVisited
        cfg.maxVisited |>.str⟩, [.dbsize])

/-! ## Routes -/

namespace HttpGateway

open Patterns (Piece fullMatch)

/-- A route, in the order the routes are registered. -/
inductive Route where
  | msisdn | operator | peers | link | path | health | totals | top
  deriving DecidableEq, Repr

/-- `(\d+)`. -/
def digits : Piece Char := .run Char.isDigit

/-- `([a-z-]+)`. -/
def lower : Piece Char := .run fun c => ('a' ≤ c ∧ c ≤ 'z') ∨ c = '-'

def Route.pattern : Route → List (Piece Char)
  | .msisdn => [.text "/query/msisdn/".toList, digits]
  | .operator => [.text "/query/operator/".toList, digits]
  | .peers => [.text "/query/link/".toList, digits]
  | .link => [.text "/query/link/".toList, digits, .text "/".toList, digits]
  | .path => [.text "/query/path/".toList, digits, .text "/".toList, digits]
  | .health => [.text "/query/health".toList]
  | .totals => [.text "/query/totals".toList]
  | .top => [.text "/query/top/".toList, lower]

def routes : List Route :=
  [.msisdn, .operator, .peers, .link, .path, .health, .totals, .top]

/-- The loop of `Server::dispatch_request`: the first route that matches the whole path, with
what it captured. -/
def dispatch (routes : List Route) (path : Text) : Option (Route × List Text) :=
  routes.findSome? fun route => (fullMatch route.pattern path).map (route, ·)

/-- `req.matches[i]`, the captures counted from 1. -/
def captured (captures : List Text) (i : Nat) : Text := captures.getD (i - 1) []

/-- A handler that reads its parameters first. -/
def withParams (req : Params) (fallback cap : UInt64) (handler : QueryParams → Served) : Served :=
  match parseParams req fallback cap with
  | .error refused => some (refused, [])
  | .ok params => handler params

/-- The handler of a route. -/
def handle (store : QueryStore) (cfg : QueryConfig) (visit : PeerVisit) (route : Route)
    (captures : List Text) (req : Params) : Served :=
  let first := captured captures 1
  let second := captured captures 2
  match route with
  | .msisdn => (QueryService.msisdn store.toIQueryStore first).served
  | .operator => (QueryService.op store.toIQueryStore first).served
  | .peers => withParams req kPeerLimit kPeerLimitMax fun params =>
      (QueryService.peers store.toIQueryStore visit first params).served
  | .link => (QueryService.link store.toIQueryStore first second).served
  | .path => withParams req kPeerLimit kPeerLimitMax fun params =>
      (PathService.path store.toIQueryStore cfg first second params.weights).served
  | .health => StatsService.health store cfg
  | .totals => (StatsService.totals store.toIQueryStore).served
  | .top => withParams req kTopLimit kTopLimitMax fun params =>
      RankService.top store first params

/-! ## Requests -/

/-- The methods a request line may name. -/
inductive Method where
  | get | head | post | put | delete | options | patch | connect | trace | pri
  deriving DecidableEq, Repr

/-- An `httplib::Request` that gets as far as the routes: its target is within the 8192 bytes of
the library, its headers are in order, and it has no body and no range. -/
structure Request where
  method : Method
  path : Text
  params : Params
  deriving DecidableEq, Repr

/-- The exception handler: a handler that throws is answered for. -/
def guarded (served : Served) : Result × List StoreRead :=
  served.getD (⟨500, Json.error "internal error".toList⟩, [])

/-- The error handler: a failure that has no body yet gets one. -/
def errorHandler (result : Result) : Result :=
  if 400 ≤ result.status ∧ result.body = [] then
    { result with body := Json.error "no such route".toList }
  else result

/-- `Server::routing`: only reads are routed, and a method there are no handlers for is a bad
request. -/
def routing (store : QueryStore) (cfg : QueryConfig) (visit : PeerVisit) (req : Request) :
    Result × List StoreRead :=
  match req.method with
  | .get | .head =>
    match dispatch routes req.path with
    | some (route, captures) => guarded (handle store cfg visit route captures req.params)
    | none => (⟨404, []⟩, [])
  | .post | .put | .delete | .options | .patch => (⟨404, []⟩, [])
  | .connect | .trace | .pri => (⟨400, []⟩, [])

/-- The status and the body the response is written from, which for a HEAD request leaves the body
out, with the reads that were made for it. -/
def respond (store : QueryStore) (cfg : QueryConfig) (visit : PeerVisit) (req : Request) :
    Result × List StoreRead :=
  let sent := routing store cfg visit req
  (errorHandler sent.1, sent.2)

end HttpGateway

end CdrProcessor
