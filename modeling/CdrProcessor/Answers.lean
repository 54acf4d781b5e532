import CdrProcessor.Decoded
import CdrProcessor.QueryService
import CdrProcessor.PathTotal

/-!
What the services answer over a store that may answer anything and change from read to read:
one JSON object that names an error exactly when the answer is not a 200, and a 503 exactly
when a read failed, which is then the last one made.
-/

namespace CdrProcessor

open JsonText (Value decode)
open Script

/-! ## Bodies -/

/-- What the body of an answer reads as. -/
structure Result.WellFormed (result : Result) : Prop where
  status : result.status ∈ [200, 400, 404, 503]
  body : ∃ fields, decode result.body = some (.object fields) ∧ (fields.map Prod.fst).Nodup ∧
    (result.status = 200 → ∀ field ∈ fields, field.1 ≠ "error".toList) ∧
    (result.status ≠ 200 → ∃ message rest, message ≠ [] ∧
      fields = ("error".toList, .text message) :: rest)

theorem Json.decode_addAll (calls : List Added) :
    decode (({} : Json).addAll calls).str = some (.object (Added.fields calls)) := by
  have h : (({} : Json).addAll calls).Holds (Added.fields calls) :=
    Json.holds_nil.addAll fun call _ => Json.appends call
  rw [h.str, JsonText.decode_render Json.escaped_escapes]

theorem Added.fields_names (calls : List Added) :
    (Added.fields calls).map Prod.fst = calls.map Added.name := by
  rw [Added.fields_eq_map, List.map_map]
  rfl

/-- A 200 whose body was built by `add` calls. -/
theorem Result.wellFormed_ok (calls : List Added)
    (hnames : ("error".toList :: calls.map Added.name).Nodup) :
    Result.WellFormed ⟨200, (({} : Json).addAll calls).str⟩ := by
  obtain ⟨herror, hnames⟩ := List.nodup_cons.mp hnames
  refine ⟨List.mem_cons_self, _, Json.decode_addAll calls, ?_, fun _ field hfield heq => ?_,
    fun h => absurd rfl h⟩
  · rwa [Added.fields_names]
  · rw [← Added.fields_names, ← heq] at herror
    exact herror (List.mem_map_of_mem hfield)

/-- A failure whose body opens with what went wrong. -/
theorem Result.wellFormed_failed {status : Nat} {message : Text} (calls : List Added)
    (hstatus : status ∈ [400, 404, 503]) (hmessage : message ≠ [])
    (hnames : ("error".toList :: calls.map Added.name).Nodup) :
    Result.WellFormed ⟨status, ((({} : Json).addText "error".toList message).addAll calls).str⟩ := by
  have hbody : decode ((({} : Json).addText "error".toList message).addAll calls).str =
      some (.object (("error".toList, .text message) :: Added.fields calls)) :=
    Json.decode_addAll (.text "error".toList message :: calls)
  refine ⟨List.mem_cons_of_mem _ hstatus, _, hbody, ?_, ?_, fun _ => ⟨message, _, hmessage, rfl⟩⟩
  · rwa [List.map_cons, Added.fields_names]
  · intro h
    rw [show status = 200 from h] at hstatus
    exact absurd hstatus (by decide)

theorem Result.wellFormed_error (status : Nat) {message : Text}
    (hstatus : status ∈ [400, 404, 503]) (hmessage : message ≠ []) :
    Result.WellFormed ⟨status, Json.error message⟩ :=
  Result.wellFormed_failed [] hstatus hmessage (by decide)

theorem wellFormed_unavailable : unavailable.WellFormed :=
  Result.wellFormed_error 503 (by decide) (by decide)

theorem Json.addAll_append (json : Json) (calls more : List Added) :
    json.addAll (calls ++ more) = (json.addAll calls).addAll more := by
  induction calls generalizing json with
  | nil => rfl
  | cons call calls ih => exact ih (json.add call)

theorem addFields_added (json : Json) (fields : List (Text × Text)) (names : List (Text × Text)) :
    addFields json fields names =
      json.addAll (names.map fun e => .number e.2 (fieldNum fields e.1)) := by
  induction names generalizing json with
  | nil => rfl
  | cons e names ih => exact ih _

theorem Json.built_map {α : Type} (calls : α → List Added) (l : List α) :
    Json.built (l.map calls) = l.map fun x => ({} : Json).addAll (calls x) := by
  induction l with
  | nil => rfl
  | cons x l ih => rw [List.map_cons, Json.built, ih, List.map_cons]

/-! ## The services -/

/-- The result of a service: a 503 for a read that failed, and well-formed. -/
abbrev Answers (store : IQueryStore) (query : Query Result) : Prop :=
  Traced store.served query (fun result => decide (result.status ≠ 503)) Result.WellFormed

variable {store : IQueryStore}

/-- A service that has read what it needs, or fails with the read. -/
theorem Answers.reads {α : Type} {read : Query (Option α)} {answer : Option α → Query Result}
    (hread : Traced store.served read Option.isSome fun _ => True)
    (hdown : answer none = pure unavailable) (hup : ∀ a, Answers store (answer (some a))) :
    Answers store (read >>= answer) := by
  refine hread.bind (fun a _ hok => ?_) fun a _ hok => ?_
  · obtain ⟨a, rfl⟩ := Option.isSome_iff_exists.mp hok
    exact hup a
  · cases a with
    | none => exact ⟨_, hdown, rfl, wellFormed_unavailable⟩
    | some a => cases hok

theorem Answers.missing {message : Text} (h : message ≠ []) :
    Answers store (pure ⟨404, Json.error message⟩) :=
  .pure rfl (Result.wellFormed_error 404 (by decide) h)

theorem Answers.sent (calls : List Added)
    (h : ("error".toList :: calls.map Added.name).Nodup) :
    Answers store (pure ⟨200, (({} : Json).addAll calls).str⟩) :=
  .pure rfl (Result.wellFormed_ok calls h)

namespace QueryService

theorem entity_answers {pre name id missing : Text} {names : List (Text × Text)}
    (hmissing : missing ≠ [])
    (hnames : ("error".toList :: name :: names.map Prod.snd).Nodup) :
    Answers store (entity store pre name id missing names) := by
  refine .reads (readAll_traced store _) rfl fun fields => ?_
  dsimp only
  split
  · exact .missing hmissing
  · rw [addFields_added]
    refine Answers.sent (.text name id :: _) ?_
    rwa [List.map_cons, List.map_map]

theorem msisdn_answers (id : Text) : Answers store (msisdn store id) :=
  entity_answers (by decide) (by decide)

theorem op_answers (mccmnc : Text) : Answers store (op store mccmnc) :=
  entity_answers (by decide) (by decide)

/-- The `add` calls of the object of one peer. -/
def peerCalls (peer : Peer) : List Added :=
  [.text "msisdn".toList peer.msisdn, .number kJsonDuration peer.duration,
    .number kJsonCalls peer.calls, .number kJsonSms peer.sms]

/-- Those a listing opens with. -/
def listingCalls (id : Text) (count : Nat) (params : QueryParams) : List Added :=
  [.text "msisdn".toList id, .number "count".toList (.ofNat count),
    .number "offset".toList params.offset, .number "limit".toList params.limit]

theorem weighted_answers (visit : PeerVisit) (id : Text) (params : QueryParams) :
    Answers store (weighted store visit id params) := by
  have hweights : Traced store.served (linkWeights store visit id) Option.isSome
      fun _ => True := by
    refine (readAll_traced store _).bind (fun fields _ hok => ?_) fun fields _ hok => ?_
    · obtain ⟨fields, rfl⟩ := Option.isSome_iff_exists.mp hok
      exact .pure rfl trivial
    · cases fields with
      | none => exact ⟨none, rfl, rfl, trivial⟩
      | some fields => cases hok
  refine .reads hweights rfl fun all => ?_
  dsimp only
  split
  · exact .missing (by decide)
  · have hpeers := Json.built_map peerCalls (page (orderPeers all params.sort) params)
    have hsent : Answers store _ := Answers.sent (listingCalls id all.length params ++
      [.text "sort".toList (if params.sort = .sms then kSortSms else kSortDur),
        .jsons "peers".toList ((page (orderPeers all params.sort) params).map peerCalls)])
      (by simp only [listingCalls, List.cons_append, List.nil_append, List.map_cons, Added.name,
            List.map_nil]; decide)
    rw [Json.addAll_append, Json.addAll, Json.addAll, Json.addAll, Json.add, Json.add,
      hpeers] at hsent
    exact hsent

theorem peers_answers (visit : PeerVisit) (id : Text) (params : QueryParams) :
    Answers store (peers store visit id params) := by
  unfold peers
  split
  · exact weighted_answers visit id params
  · refine .reads (linkPeers_traced store id) rfl fun all => ?_
    dsimp only
    split
    · exact .missing (by decide)
    · exact Answers.sent (listingCalls id all.length params ++
        [.texts "peers".toList (page all params)])
        (by simp only [listingCalls, List.cons_append, List.nil_append, List.map_cons,
              Added.name, List.map_nil]; decide)

theorem link_answers (first second : Text) : Answers store (link store first second) := by
  refine .reads (readSome_traced store _ _) rfl fun values => ?_
  dsimp only
  split
  · exact .missing (by decide)
  · exact Answers.sent [.text "first-party".toList first, .text "second-party".toList second,
      .number kJsonDuration _, .number kJsonCalls _, .number kJsonSms _]
      (by simp only [List.map_cons, Added.name, List.map_nil]; decide)

end QueryService

theorem StatsService.totals_answers : Answers store (StatsService.totals store) := by
  refine .reads (readAll_traced store _) rfl fun fields => ?_
  dsimp only
  rw [addFields_added]
  refine Answers.sent _ ?_
  rw [List.map_map, List.map_map]
  change ("error".toList :: StatsService.kTotalFields.map StatsService.reported).Nodup
  decide

namespace PathService

/-- The `add` calls of the object of one hop. -/
def hopCalls (hop : Text × Text × List Text) : List Added :=
  [.text "from".toList hop.1, .text "to".toList hop.2.1,
    .number kJsonDuration (toNum (hop.2.2.getD 0 [])),
    .number kJsonCalls (toNum (hop.2.2.getD 2 [])),
    .number kJsonSms (toNum (hop.2.2.getD 1 []))]

theorem hops_traced (route : List Text) :
    Traced store.served (hops store route) Option.isSome
      fun out => ∀ carried, out = some carried → ∃ objects, carried = Json.built objects := by
  induction route with
  | nil => exact .pure rfl fun carried h => ⟨[], (Option.some.inj h).symm⟩
  | cons here route ih =>
    cases route with
    | nil => exact .pure rfl fun carried h => ⟨[], (Option.some.inj h).symm⟩
    | cons next route =>
      rw [hops]
      refine (readSome_traced store _ _).bind (fun values _ hok => ?_) fun values _ hok => ?_
      · obtain ⟨values, rfl⟩ := Option.isSome_iff_exists.mp hok
        refine ih.bind (fun out hout hok => ?_) fun out _ hok => ?_
        · obtain ⟨out, rfl⟩ := Option.isSome_iff_exists.mp hok
          obtain ⟨objects, rfl⟩ := hout out rfl
          refine .pure rfl fun carried h => ⟨hopCalls (here, next, values) :: objects, ?_⟩
          exact (Option.some.inj h).symm
        · cases out with
          | none => exact ⟨none, rfl, rfl, fun _ h => absurd h (Option.some_ne_none _).symm⟩
          | some out => cases hok
      · cases values with
        | none => exact ⟨none, rfl, rfl, fun _ h => absurd h (Option.some_ne_none _).symm⟩
        | some values => cases hok

theorem found_answers (route : List Text) (weights : Bool) :
    Answers store (found store route weights) := by
  have hpath : ∀ calls : List Added, ("error".toList :: "path".toList ::
      calls.map Added.name).Nodup → Answers store
        (pure ⟨200, ((({} : Json).addTexts "path".toList route).addAll calls).str⟩) :=
    fun calls h => Answers.sent (.texts "path".toList route :: calls) h
  unfold found
  cases weights with
  | false => exact hpath [] (by decide)
  | true =>
    refine (hops_traced route).bind (fun out hout hok => ?_) fun out _ hok => ?_
    · obtain ⟨out, rfl⟩ := Option.isSome_iff_exists.mp hok
      obtain ⟨objects, rfl⟩ := hout out rfl
      exact hpath [.jsons "hops".toList objects]
        (by simp only [List.map_cons, Added.name, List.map_nil]; decide)
    · cases out with
      | none => exact ⟨_, rfl, rfl, wellFormed_unavailable⟩
      | some out => cases hok

theorem wellFormed_notFound (cfg : QueryConfig) : Result.WellFormed ⟨404, notFound cfg⟩ :=
  Result.wellFormed_failed [.number kJsonMaxHops cfg.maxHops,
    .number kJsonMaxVisited cfg.maxVisited] (by decide) (by decide)
    (by simp only [List.map_cons, Added.name, List.map_nil]; decide)

/-- **A path search** ends with an answer, whatever the store does under it. -/
theorem path_answers (cfg : QueryConfig) (first second : Text) (weights : Bool) :
    Answers store (path store cfg first second weights) := by
  unfold path
  split
  · exact found_answers [first] weights
  · refine (searchHops_traced cfg.full _ (Grounded.start first second)).bind ?_ ?_
    · rintro ⟨s, stop⟩ ⟨hg, hmet⟩ hok
      match stop, hmet, hok with
      | none, _, _ => exact .pure rfl (wellFormed_notFound cfg)
      | some .gaveUp, _, _ => exact .pure rfl (wellFormed_notFound cfg)
      | some (.met peer), hmet, _ =>
        obtain ⟨route, hroute⟩ := hg.walk hmet
        dsimp only
        rw [hroute]
        exact found_answers route weights
    · rintro ⟨s, stop⟩ - hok
      match stop, hok with
      | some .unreadable, _ => exact ⟨_, rfl, rfl, wellFormed_unavailable⟩

end PathService

end CdrProcessor
