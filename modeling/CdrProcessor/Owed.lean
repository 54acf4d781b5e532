import CdrProcessor.OwedPairs
import CdrProcessor.Responses

/-!
The gateway against the counters.  Over a store that answers and holds what some batches left
there, every request is sent what it is owed: the hashes, the sorted sets and what is read of
them make no difference to it.
-/

namespace CdrProcessor

open Script

/-- A store that answers every read with what the database holds. -/
structure QueryStore.Holds (store : QueryStore) (db : Db) : Prop where
  serves : store.Serves db.hashes
  up : store.Up
  boards : ∃ boards, store.Boards boards ∧ ∀ key, (boards key).Keeps (db.board key)

variable {calls : List ConsumeCall} {store : QueryStore}

/-! ## A store over a database -/

/-- A board has no more members than there are counters that the records name. -/
theorem consumed_members (hx : Exact (recordsOf calls)) {records : List CdrRecord}
    (h : amount (recordsOf calls) = amount records) (key : Text) :
    ((consumed calls).board key).entries.length ≤ (records.flatMap touched).length := by
  let member : Counter → Text := fun c => match c.place with
    | .board _ name => name
    | .hash _ name => name
  have hsub : ((consumed calls).board key).keys ⊆ (records.flatMap touched).map member := by
    intro name hname
    obtain ⟨score, hscore⟩ := Option.isSome_iff_exists.mp
      (AList.lookup_isSome.mpr (AList.mem_keys.mpr hname))
    have hvalue : (consumed calls).value (.board key name) = some score := hscore
    obtain ⟨hne, c, hc, hamount⟩ := (consumed_board hx).mp hvalue
    rw [h] at hamount
    refine List.mem_map.mpr ⟨c, mem_flatMap_touched (hamount ▸ hne), ?_⟩
    change (match c.place with | .board _ name => name | .hash _ name => name) = name
    rw [hc]
  have hlen := (List.subperm_of_subset (AList.keys_nodup _) hsub).length_le
  rw [List.length_map] at hlen
  unfold AList.keys List.keys at hlen
  rwa [List.length_map] at hlen

/-- A store over a database whose boards are no larger than sorted sets may be. -/
def Db.queryStore (db : Db) (h : ∀ key, (db.board key).entries.length < 2 ^ 63) (keys : UInt64) :
    QueryStore where
  toIQueryStore := db.hashes.store
  dbsize _ := some keys
  top _ := RedisQuery.top fun argv =>
    some (serveBoards (fun key => .ofTable (db.board key) (h key)) Decimal.digits argv)

theorem Db.queryStore_holds (db : Db) (h : ∀ key, (db.board key).entries.length < 2 ^ 63)
    (keys : UInt64) : (db.queryStore h keys).Holds db where
  serves := db.hashes.store_serves
  up := db.hashes.store_up
  boards := ⟨_, fun _ => rfl, fun key => SortedSet.keeps_ofTable _ (h key)⟩

theorem Query.served_of_run {query : Query Result} {result : Result} {reads : List Read}
    (h : query [] = some (result, reads)) : query.served = some (result, reads.map .data) := by
  unfold Query.served
  rw [h]
  rfl

/-! ## Every request -/

namespace HttpGateway

theorem limit_le_cap {req : Params} {fallback cap : UInt64} {params : QueryParams}
    (h : parseParams req fallback cap = .ok params) : params.limit ≤ cap := by
  unfold parseParams at h
  simp only [bind, Except.bind, throw, throwThe, MonadExceptOf.throw, pure, Except.pure] at h
  split at h
  · cases h
  split at h
  · cases h
  cases hoffset : countOr req "offset".toList 0 with
  | error refused => rw [hoffset] at h; cases h
  | ok offset =>
    cases hlimit : countOr req "limit".toList fallback with
    | error refused => rw [hoffset, hlimit] at h; cases h
    | ok limit =>
      rw [hoffset, hlimit] at h
      cases h
      change (if limit ≤ cap then limit else cap) ≤ cap
      split
      · assumption
      · exact UInt64.le_refl cap

/-- A handler that reads its parameters answers what is owed, when it does so for those that are
in order. -/
theorem withParams_owed {req : Params} {fallback cap : UInt64} {handler : QueryParams → Served}
    {owed : QueryParams → Result → Prop}
    (h : ∀ params, params.limit ≤ cap →
      ∃ result reads, handler params = some (result, reads) ∧ owed params result) :
    ∃ result reads, withParams req fallback cap handler = some (result, reads) ∧
      Ledger.OfParams req fallback cap owed result := by
  unfold withParams Ledger.OfParams
  cases hp : parseParams req fallback cap with
  | error refused => exact ⟨refused, [], rfl, rfl⟩
  | ok params => exact h params (limit_le_cap hp)

/-- What a handler answers is owed. -/
theorem handle_owed (hx : Exact (recordsOf calls)) (hstore : store.Holds (consumed calls))
    (cfg : QueryConfig) (visit : PeerVisit) (route : Route) (captures : List Text) (req : Params) :
    ∃ result reads, handle store cfg visit route captures req = some (result, reads) ∧
      Ledger.Owes (amount (recordsOf calls)) cfg route captures req result := by
  obtain ⟨hs, hup, boards, hboards, hkeeps⟩ := hstore
  unfold handle Ledger.Owes
  cases route with
  | msisdn =>
    obtain ⟨reads, hrun⟩ := subscriber_owed hx hs hup (captured captures 1)
    exact ⟨_, _, Query.served_of_run hrun, rfl⟩
  | operator =>
    obtain ⟨reads, hrun⟩ := operator_owed hx hs hup (captured captures 1)
    exact ⟨_, _, Query.served_of_run hrun, rfl⟩
  | peers =>
    refine withParams_owed fun params _ => ?_
    obtain ⟨names, reads, hnames, hrun⟩ := peers_owed hx hs hup visit (captured captures 1) params
    exact ⟨_, _, Query.served_of_run hrun, names, hnames, rfl⟩
  | link =>
    obtain ⟨reads, hrun⟩ := link_owed hx hs hup (captured captures 1) (captured captures 2)
    exact ⟨_, _, Query.served_of_run hrun, rfl⟩
  | path =>
    refine withParams_owed fun params _ => ?_
    obtain ⟨result, reads, hrun, howed⟩ := path_owed hx hs hup cfg (captured captures 1)
      (captured captures 2) params.weights
    exact ⟨result, _, Query.served_of_run hrun, howed⟩
  | health => exact ⟨_, _, rfl, trivial⟩
  | totals =>
    obtain ⟨reads, hrun⟩ := totals_owed hx hs hup
    exact ⟨_, _, Query.served_of_run hrun, rfl⟩
  | top => exact withParams_owed fun params hlimit => top_owed hx hboards hkeeps _ hlimit

/-- **Every request is sent what it is owed**, by a store that holds what some batches left. -/
theorem respond_consumed (hx : Exact (recordsOf calls)) (hstore : store.Holds (consumed calls))
    (cfg : QueryConfig) (visit : PeerVisit) {req : Request} (hmethod : req.method = .get)
    {route : Route} {captures : List Text}
    (hroute : dispatch routes req.path = some (route, captures)) :
    Ledger.Owes (amount (recordsOf calls)) cfg route captures req.params
      (respond store cfg visit req).1 := by
  obtain ⟨result, reads, hrun, howed⟩ := handle_owed hx hstore cfg visit route captures req.params
  have hsent : (respond store cfg visit req).1 = errorHandler result := by
    unfold respond routing
    rw [hmethod, hroute]
    dsimp only
    rw [hrun]
    rfl
  -- what a handler answers has a body, and is left as it is
  have hwell : route ≠ .health → result.WellFormed := by
    intro hne
    obtain ⟨result', reads', hrun', hwell, -⟩ :=
      handle_sends store cfg visit hne captures req.params
    rw [hrun] at hrun'
    cases hrun'
    exact hwell
  rw [hsent]
  cases route with
  | health => trivial
  | msisdn | operator | peers | link | path | totals | top =>
    rw [errorHandler_wellFormed (hwell (by decide))]
    exact howed

/-- **Every request is sent what it is owed.**  Threads hand their batches over in whatever order
they get on; at any moment, a store that answers with what is there has the gateway send what the
records committed so far come to. -/
theorem respond_owed {acts : List Moment}
    (hx : Exact (recordsOf (acts.filterMap Moment.committed)))
    (hstore : store.Holds (Shared.run ⟨{}, {}⟩ acts).db) (cfg : QueryConfig) (visit : PeerVisit)
    {req : Request} (hmethod : req.method = .get) {route : Route} {captures : List Text}
    (hroute : dispatch routes req.path = some (route, captures)) :
    Ledger.Owes (amount (recordsOf (acts.filterMap Moment.committed))) cfg route captures
      req.params (respond store cfg visit req).1 := by
  rw [run_db] at hstore
  exact respond_consumed hx hstore cfg visit hmethod hroute

/-- The board of calls behind one call, and the first half of a second one on another thread. -/
theorem respond_owed_voice :
    ∃ store : QueryStore, Ledger.Owes (amount [shortCall]) ⟨6, 10000⟩ .top ["voice".toList] []
      (respond store ⟨6, 10000⟩ .plain ⟨.get, "/query/top/voice".toList, []⟩).1 := by
  have hx : Exact (recordsOf (((countCall [shortCall]).moments ++
      (countCall [shortCall]).moments.take 3).filterMap Moment.committed)) :=
    exact_of_touched (by decide +kernel)
  have hsize : ∀ key, ((Shared.run ⟨{}, {}⟩ ((countCall [shortCall]).moments ++
      (countCall [shortCall]).moments.take 3)).db.board key).entries.length < 2 ^ 63 := by
    intro key
    rw [run_db]
    exact lt_of_le_of_lt (consumed_members hx rfl key) (by decide +kernel)
  have hroute : dispatch routes "/query/top/voice".toList = some (.top, ["voice".toList]) := by
    decide
  have howed := respond_owed hx (Db.queryStore_holds _ hsize 5) ⟨6, 10000⟩ .plain
    (rfl : Request.method ⟨.get, "/query/top/voice".toList, []⟩ = .get) hroute
  exact ⟨_, howed⟩

end HttpGateway

end CdrProcessor
