import CdrProcessor.Json
import CdrProcessor.Links
import CdrProcessor.Lib.Script

/-! `PathService`: a search from both ends at once over the links in the store, bounded
in rounds and in subscribers. -/

namespace CdrProcessor

/-- `cfg.query`. -/
structure QueryConfig where
  maxHops : UInt64
  maxVisited : UInt64
  deriving DecidableEq, Repr

/-- `++visited > cfg.query.max_visited`, of the count already raised. -/
def QueryConfig.full (cfg : QueryConfig) (visited : Nat) : Bool :=
  decide (cfg.maxVisited.toNat < visited)

namespace PathService

/-- A subscriber to the one it was reached from, the root mapped to itself. -/
abbrev Trail := Table Text Text

/-- The index of `seen` and `frontier`: 0 grows from the first party, 1 from the second. -/
inductive Side where
  | first | second
  deriving DecidableEq, Repr

/-- `1 - side`. -/
def Side.other : Side → Side
  | .first => .second
  | .second => .first

/-- The locals of `path` that its loops work on. -/
structure Search where
  seen : Side → Trail
  frontier : Side → List Text
  visited : Nat := 0

/-- Why the loops were left before their end. -/
inductive Stop where
  /-- Both trails hold `peer`. -/
  | met (peer : Text)
  | gaveUp
  | unreadable
  deriving DecidableEq, Repr

/-- Both sides hold their own party. -/
def Search.start (first second : Text) : Search where
  seen
    | .first => (∅ : Trail).insert first first
    | .second => (∅ : Trail).insert second second
  frontier
    | .first => [first]
    | .second => [second]

/-- `seen[side][peer] = node`. -/
def Search.mark (s : Search) (side : Side) (peer node : Text) : Search :=
  { s with seen := Function.update s.seen side ((s.seen side).insert peer node) }

def Search.setFrontier (s : Search) (side : Side) (frontier : List Text) : Search :=
  { s with frontier := Function.update s.frontier side frontier }

/-- `frontier[side].push_back(peer)`. -/
def Search.push (s : Search) (side : Side) (peer : Text) : Search :=
  s.setFrontier side (s.frontier side ++ [peer])

/-- `++visited`. -/
def Search.count (s : Search) : Search := { s with visited := s.visited + 1 }

/-! ## The loops -/

/-- The loop over the peers of one expanded node.  `full` tells when too many were
discovered. -/
def visitPeers (full : Nat → Bool) (side : Side) (node : Text) :
    List Text → Search → Search × Option Stop
  | [], s => (s, none)
  | peer :: peers, s =>
    if peer ∈ s.seen side then visitPeers full side node peers s
    else
      let s := s.count
      if full s.visited then (s, some .gaveUp)
      else
        let s := s.mark side peer node
        if peer ∈ s.seen side.other then (s, some (.met peer))
        else visitPeers full side node peers (s.push side peer)

/-- The loop over the `width` nodes of one level. -/
def expandLevel (store : IQueryStore) (full : Nat → Bool) (side : Side) :
    Nat → Search → Query (Search × Option Stop)
  | 0, s => return (s, none)
  | width + 1, s =>
    match s.frontier side with
    | [] => fun _ => none
    | node :: rest => do
      let s := s.setFrontier side rest
      match ← linkPeers store node with
      | none => return (s, some .unreadable)
      | some peers =>
        match visitPeers full side node peers s with
        | (s, some stop) => return (s, some stop)
        | (s, none) => expandLevel store full side width s

/-- The narrower side. -/
def Search.side (s : Search) : Side :=
  if (s.frontier .first).length ≤ (s.frontier .second).length then .first else .second

/-- The loop over the hops. -/
def searchHops (store : IQueryStore) (full : Nat → Bool) :
    Nat → Search → Query (Search × Option Stop)
  | 0, s => return (s, none)
  | hops + 1, s => do
    let side := s.side
    match ← expandLevel store full side (s.frontier side).length s with
    | (s, some stop) => return (s, some stop)
    | (s, none) =>
      if s.frontier side = [] then return (s, none) else searchHops store full hops s

/-! ## The route -/

/-- The first loop of `walk`: back from a node to the root of its trail.  Without end it
has no result: no climb is longer than its trail. -/
def climb (head : Trail) : Nat → Text → Option (List Text)
  | 0, _ => none
  | fuel + 1, node => do
    let parent ← head.lookup node
    if parent = node then return [node]
    return node :: (← climb head fuel parent)

/-- The second loop of `walk`, on from a node to the root of the other trail. -/
def descend (tail : Trail) : Nat → List Text → Text → Option (List Text)
  | 0, _, _ => none
  | fuel + 1, path, node =>
    if path.getLast? = some node then some path
    else do
      let parent ← tail.lookup node
      if parent = node then return path ++ [node]
      descend tail fuel (path ++ [node]) parent

/-- `PathService::walk`. -/
def walk (head tail : Trail) (meet : Text) : Option (List Text) := do
  let back ← climb head (head.entries.length + 1) meet
  descend tail (tail.entries.length + 1) back.reverse (← tail.lookup meet)

/-- One hop object, from the values of the three fields, those that are missing empty. -/
def hop (here next : Text) (values : List Text) : Json :=
  ((({} : Json).addText "from".toList here).addText "to".toList next).addExchanged
    (toNum (values.getD 0 [])) (toNum (values.getD 2 [])) (toNum (values.getD 1 []))

/-- `PathService::hops`. -/
def hops (store : IQueryStore) : List Text → Query (Option (List Json))
  | here :: next :: route => do
    match ← store.readSome (linkKey here)
        [next ++ kFieldDurSuffix, next ++ kFieldSmsSuffix, next ++ kFieldCntSuffix] with
    | none => return none
    | some values =>
      match ← hops store (next :: route) with
      | none => return none
      | some out => return some (hop here next values :: out)
  | _ => return some []

/-- `PathService::found`. -/
def found (store : IQueryStore) (route : List Text) (weights : Bool) : Query Result := do
  let json := ({} : Json).addTexts "path".toList route
  if !weights then
    return ⟨200, json.str⟩
  match ← hops store route with
  | none => return unavailable
  | some carried => return ⟨200, (json.addJsons "hops".toList carried).str⟩

/-- `PathService::notFound`. -/
def notFound (cfg : QueryConfig) : Text :=
  (((({} : Json).addText "error".toList "path not found".toList).addNumber kJsonMaxHops
    cfg.maxHops).addNumber kJsonMaxVisited cfg.maxVisited).str

/-- `PathService::path`. -/
def path (store : IQueryStore) (cfg : QueryConfig) (first second : Text) (weights : Bool) :
    Query Result := do
  if first = second then
    found store [first] weights
  else
    match ← searchHops store cfg.full cfg.maxHops.toNat (.start first second) with
    | (s, some (.met peer)) => do
      let route ← (walk (s.seen .first) (s.seen .second) peer : Option (List Text))
      found store route weights
    | (_, some .unreadable) => return unavailable
    | (_, some .gaveUp) => return ⟨404, notFound cfg⟩
    | (_, none) => return ⟨404, notFound cfg⟩

end PathService

end CdrProcessor
