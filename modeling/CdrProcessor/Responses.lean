import CdrProcessor.Answers
import CdrProcessor.Gateway

/-!
What the gateway sends.  The routes have no path in common, so it makes no difference in which
order they are registered; and whatever a store does during a request, an answer is sent that
can be read, and that tells whether the store could be reached.
-/

namespace CdrProcessor

open Script

/-! ## Routes -/

namespace HttpGateway

open Patterns (Piece Matches Separated fixed fullMatch fullMatch_eq_some fullMatch_sound)

/-- The text a pattern opens with. -/
def Route.opening (route : Route) : Text :=
  match route.pattern with
  | .text t :: _ => t
  | _ => []

theorem Route.mem_routes (route : Route) : route ∈ routes := by cases route <;> decide

theorem Route.separated (route : Route) : Separated route.pattern := by
  cases route <;> simp [Route.pattern, digits, lower, Separated]

theorem Route.opens (route : Route) {path : Text} {captures : List Text}
    (h : Matches route.pattern path captures) : route.opening <+: path := by
  cases route <;> exact h.opens

/-- No class holds a slash. -/
theorem Route.slash_outside (route : Route) :
    ∀ cls, Piece.run cls ∈ route.pattern → cls '/' = false := by
  have hdigits : ∀ cls, Piece.run cls = digits → cls '/' = false := by
    rintro cls ⟨⟩
    decide
  have hlower : ∀ cls, Piece.run cls = lower → cls '/' = false := by
    rintro cls ⟨⟩
    decide
  intro cls hcls
  cases route <;> simp only [Route.pattern, List.mem_cons, List.not_mem_nil, or_false,
    reduceCtorEq, false_or] at hcls
  case top => exact hlower cls hcls
  case link => exact hdigits cls (or_self_iff.mp hcls)
  case path => exact hdigits cls (or_self_iff.mp hcls)
  all_goals exact hdigits cls hcls

/-- Two routes open differently, or hold a different number of slashes. -/
theorem routes_differ : ∀ route ∈ routes, ∀ other ∈ routes,
    (route.opening <+: other.opening ∨ other.opening <+: route.opening) →
      fixed '/' route.pattern = fixed '/' other.pattern → route = other := by
  decide

/-- **No path in common.** -/
theorem Route.eq_of_matches {route other : Route} {path : Text} {captures captures' : List Text}
    (h : Matches route.pattern path captures) (h' : Matches other.pattern path captures') :
    route = other := by
  refine routes_differ route route.mem_routes other other.mem_routes ?_ ?_
  · exact List.prefix_or_prefix_of_prefix (route.opens h) (other.opens h')
  · rw [← h.count_eq route.slash_outside, ← h'.count_eq other.slash_outside]

/-- What is taken matches. -/
theorem Route.matches_of_dispatch {order : List Route} {path : Text} {route : Route}
    {captures : List Text} (h : dispatch order path = some (route, captures)) :
    Matches route.pattern path captures := by
  obtain ⟨_, _, hmap⟩ := List.exists_of_findSome?_eq_some h
  obtain ⟨_, hfound, heq⟩ := Option.map_eq_some_iff.mp hmap
  cases heq
  exact fullMatch_sound hfound

/-- **Dispatch is a matter of the path.**  In whichever order the routes are registered, a
route is taken, with these captures, exactly when the whole path matches it that way. -/
theorem dispatch_iff {order : List Route} (horder : order.Perm routes) (path : Text)
    (route : Route) (captures : List Text) :
    dispatch order path = some (route, captures) ↔ Matches route.pattern path captures := by
  refine ⟨Route.matches_of_dispatch, fun h => ?_⟩
  have hsome : (dispatch order path).isSome := by
    refine List.findSome?_isSome_iff.mpr ⟨route, horder.mem_iff.mpr route.mem_routes, ?_⟩
    rw [(fullMatch_eq_some route.separated).mpr h]
    rfl
  obtain ⟨⟨r, c⟩, hd⟩ := Option.isSome_iff_exists.mp hsome
  have hm := Route.matches_of_dispatch hd
  obtain rfl := Route.eq_of_matches hm h
  rw [hd, hm.unique r.separated h]

/-- The routes registered from the last to the first. -/
theorem dispatch_reversed :
    dispatch routes.reverse "/query/link/15/42".toList =
        some (.link, ["15".toList, "42".toList]) ↔
      Matches Route.link.pattern "/query/link/15/42".toList ["15".toList, "42".toList] :=
  dispatch_iff (List.reverse_perm routes) _ _ _

end HttpGateway

/-! ## Reads of a request -/

/-- A read is answered, when `n` of the request went before it. -/
def QueryStore.served (store : QueryStore) (n : Nat) : StoreRead → Bool
  | .data read => store.toIQueryStore.served n read
  | .dbsize => (store.dbsize n).isSome
  | .top board offset limit => (store.top n board offset limit).isSome

/-- What a handler comes to: an answer that can be read, and a 503 for a read that failed. -/
def Sends (store : QueryStore) (served : Served) : Prop :=
  ∃ result reads, served = some (result, reads) ∧ result.WellFormed ∧
    Trace store.served 0 reads (result.status ≠ 503)

variable {store : QueryStore}

theorem Answers.sends {query : Query Result} (h : Answers store.toIQueryStore query) :
    Sends store query.served := by
  obtain ⟨result, reads, hrun, htrace, hresult⟩ := h []
  rw [List.nil_append] at hrun
  refine ⟨result, reads.map .data, by rw [Query.served, hrun]; rfl, hresult, ?_⟩
  exact htrace.map fun n read => rfl

theorem Sends.refused {result : Result} (h : result.WellFormed) (hstatus : result.status = 400) :
    Sends store (some (result, [])) := by
  refine ⟨_, _, rfl, h, ?_⟩
  rw [hstatus]
  exact .done 0

namespace RankService

/-- The `add` calls of the object of one member. -/
def entryCalls (entry : Text × UInt64) : List Added :=
  [.text "id".toList entry.1, .number "score".toList entry.2]

theorem top_sends (board : Text) (params : QueryParams) : Sends store (top store board params) := by
  unfold top
  dsimp only
  split
  · exact .refused (Result.wellFormed_error 400 (by decide) (by decide)) rfl
  · cases hread : store.top 0 (keyOf board) params.offset params.limit with
    | none => exact ⟨_, _, rfl, wellFormed_unavailable, .refused (congrArg Option.isSome hread)⟩
    | some page =>
      refine ⟨_, _, rfl, ?_, .step (congrArg Option.isSome hread) (.done 1)⟩
      have hsent := Result.wellFormed_ok [.text "board".toList board,
        .number "count".toList page.2, .number "offset".toList params.offset,
        .number "limit".toList params.limit, .jsons "entries".toList (page.1.map entryCalls)]
        (by simp only [List.map_cons, Added.name, List.map_nil]; decide)
      simp only [Json.addAll, Json.add, Json.built_map] at hsent
      exact hsent

end RankService

theorem StatsService.health_wellFormed (store : QueryStore) (cfg : QueryConfig) :
    ∃ result, StatsService.health store cfg = some (result, [.dbsize]) ∧ result.status = 200 ∧
      result.WellFormed :=
  ⟨_, rfl, rfl, Result.wellFormed_ok [.text "status".toList "ok".toList,
    .text "store".toList _, .number "keys".toList _, .number kJsonMaxHops cfg.maxHops,
    .number kJsonMaxVisited cfg.maxVisited]
    (by simp only [List.map_cons, Added.name, List.map_nil]; decide)⟩

/-! ## Requests -/

namespace HttpGateway

/-- The parameters are refused with a 400 that names one of them. -/
theorem parseParams_refused {req : Params} {fallback cap : UInt64} {result : Result}
    (h : parseParams req fallback cap = .error result) : ∃ name, result = refused name := by
  have hcount : ∀ name fallback, countOr req name fallback = .error result →
      ∃ name, result = refused name := by
    intro name fallback hc
    unfold countOr at hc
    dsimp only at hc
    split at hc
    · cases hc
    · split at hc
      · cases hc
      · cases hc
        exact ⟨name, rfl⟩
  unfold parseParams at h
  simp only [bind, Except.bind, throw, throwThe, MonadExceptOf.throw, pure, Except.pure] at h
  split at h
  · cases h
    exact ⟨_, rfl⟩
  split at h
  · cases h
    exact ⟨_, rfl⟩
  cases hoffset : countOr req "offset".toList 0 with
  | error refused =>
    rw [hoffset] at h
    cases h
    exact hcount _ _ hoffset
  | ok offset =>
    cases hlimit : countOr req "limit".toList fallback with
    | error refused =>
      rw [hoffset, hlimit] at h
      cases h
      exact hcount _ _ hlimit
    | ok limit =>
      rw [hoffset, hlimit] at h
      cases h

theorem withParams_sends {req : Params} {fallback cap : UInt64} {handler : QueryParams → Served}
    (h : ∀ params, Sends store (handler params)) :
    Sends store (withParams req fallback cap handler) := by
  unfold withParams
  split
  · next hparams =>
    obtain ⟨name, rfl⟩ := parseParams_refused hparams
    exact .refused (Result.wellFormed_error 400 (by decide) (List.cons_ne_nil _ _)) rfl
  · exact h _

theorem handle_sends (store : QueryStore) (cfg : QueryConfig) (visit : PeerVisit) {route : Route}
    (hroute : route ≠ .health) (captures : List Text) (req : Params) :
    Sends store (handle store cfg visit route captures req) := by
  cases route with
  | msisdn => exact (QueryService.msisdn_answers _).sends
  | operator => exact (QueryService.op_answers _).sends
  | peers => exact withParams_sends fun params => (QueryService.peers_answers visit _ params).sends
  | link => exact (QueryService.link_answers _ _).sends
  | path => exact withParams_sends fun params => (PathService.path_answers cfg _ _ _).sends
  | health => exact absurd rfl hroute
  | totals => exact StatsService.totals_answers.sends
  | top => exact withParams_sends fun params => RankService.top_sends _ params

/-- What is sent: what a handler sends, the health of the store, or that there is no route. -/
inductive Sent (store : QueryStore) (req : Request) : Result × List StoreRead → Prop
  | handled {result : Result} {reads : List StoreRead} (hpath : req.path ≠ "/query/health".toList)
      (hresult : result.WellFormed) (hreads : Trace store.served 0 reads (result.status ≠ 503)) :
      Sent store req (result, reads)
  | health {result : Result} (hpath : req.path = "/query/health".toList)
      (hresult : result.WellFormed) (hstatus : result.status = 200) :
      Sent store req (result, [.dbsize])
  | unrouted {status : Nat} (hstatus : status = 400 ∨ status = 404) :
      Sent store req (⟨status, Json.error "no such route".toList⟩, [])

/-- A body that can be read is left as it is. -/
theorem errorHandler_wellFormed {result : Result} (h : result.WellFormed) :
    errorHandler result = result := by
  unfold errorHandler
  rw [if_neg]
  rintro ⟨-, hbody⟩
  obtain ⟨fields, hdecode, -⟩ := h.body
  rw [hbody] at hdecode
  cases hdecode

theorem respond_sent (store : QueryStore) (cfg : QueryConfig) (visit : PeerVisit)
    (req : Request) : Sent store req (respond store cfg visit req) := by
  have hunrouted : ∀ status, status = 400 ∨ status = 404 →
      Sent store req (errorHandler ⟨status, []⟩, []) := by
    rintro status hstatus
    rw [errorHandler, if_pos ⟨by rcases hstatus with rfl | rfl <;> decide, rfl⟩]
    exact .unrouted hstatus
  unfold respond routing
  cases req.method with
  | post | put | delete | options | patch => exact hunrouted 404 (.inr rfl)
  | connect | trace | pri => exact hunrouted 400 (.inl rfl)
  | get | head =>
    dsimp only
    cases hd : dispatch routes req.path with
    | none => exact hunrouted 404 (.inr rfl)
    | some taken =>
      obtain ⟨route, captures⟩ := taken
      dsimp only
      by_cases hroute : route = .health
      · subst hroute
        obtain ⟨result, hrun, hstatus, hresult⟩ := StatsService.health_wellFormed store cfg
        rw [handle, hrun, guarded, Option.getD_some, errorHandler_wellFormed hresult]
        have hpath := Route.matches_of_dispatch hd
        exact .health hpath.text_eq hresult hstatus
      · obtain ⟨result, reads, hrun, hresult, hreads⟩ :=
          handle_sends store cfg visit hroute captures req.params
        rw [hrun, guarded, Option.getD_some, errorHandler_wellFormed hresult]
        refine .handled (fun hpath => hroute ?_) hresult hreads
        rw [hpath, show dispatch routes "/query/health".toList = some (.health, []) by decide] at hd
        cases hd
        rfl

/-- **Every answer can be read.**  Whatever the request and whatever the store answers, from
read to read, the body is one JSON object without a name twice; it opens with an error exactly
when the status is 400, 404 or 503, and there is no other failure. -/
theorem respond_wellFormed (store : QueryStore) (cfg : QueryConfig) (visit : PeerVisit)
    (req : Request) : (respond store cfg visit req).1.WellFormed := by
  have hsent := respond_sent store cfg visit req
  generalize respond store cfg visit req = sent at hsent
  cases hsent with
  | handled hpath hresult hreads => exact hresult
  | health hpath hresult hstatus => exact hresult
  | unrouted hstatus =>
    refine Result.wellFormed_error _ ?_ (by decide)
    rcases hstatus with rfl | rfl <;> decide

/-- **A 503 is a read that failed.**  A request makes no read behind one that failed; any
request but a health check sends a 503 exactly when one did, and a health check never. -/
theorem respond_unavailable_iff (store : QueryStore) (cfg : QueryConfig) (visit : PeerVisit)
    (req : Request) :
    (∀ i read, (respond store cfg visit req).2[i]? = some read →
      i + 1 < (respond store cfg visit req).2.length → store.served i read = true) ∧
    ((respond store cfg visit req).1.status = 503 ↔ req.path ≠ "/query/health".toList ∧
      ∃ i read, (respond store cfg visit req).2[i]? = some read ∧
        store.served i read = false) := by
  have hsent := respond_sent store cfg visit req
  generalize respond store cfg visit req = sent at hsent
  cases hsent with
  | handled hpath hresult hreads =>
    refine ⟨fun i read hi hlast => ?_, ?_⟩
    · rw [← hreads.before_last hi hlast, Nat.zero_add]
    · have hfailed := hreads.failed_iff
      simp only [decide_eq_false_iff_not, not_not, Nat.zero_add] at hfailed
      rw [hfailed]
      exact (and_iff_right hpath).symm
  | health hpath hresult hstatus =>
    refine ⟨fun i read hi hlast => ?_, iff_of_false ?_ fun h => h.1 hpath⟩
    · simp at hlast
    · dsimp only
      rw [hstatus]
      decide
  | unrouted hstatus =>
    refine ⟨fun i read hi => ?_, iff_of_false ?_ ?_⟩
    · cases hi
    · rcases hstatus with rfl | rfl <;> decide
    · rintro ⟨-, i, read, hi, -⟩
      cases hi

end HttpGateway

end CdrProcessor
