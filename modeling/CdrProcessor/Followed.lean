import CdrProcessor.Crowd
import CdrProcessor.QueryThreads

/-! A search for a path while others write: its reads are of different moments.  It sees at
least the links that stay all the while, and only such as are there at one of the moments. -/

namespace CdrProcessor

open Script

/-! ## Reads of different moments -/

/-- Every read is told, if anything, what some of the hashes hold. -/
def IQueryStore.Follows (store : IQueryStore) (held : Hashes → Prop) : Prop :=
  ∀ n, ∃ hashes, held hashes ∧ store.Tells n hashes

namespace PathService

variable {store : IQueryStore} {held : Hashes → Prop}

/-- The links that are there all the while. -/
def Always (held : Hashes → Prop) (a b : Text) : Prop := ∀ hashes, held hashes → Linked hashes a b

/-- The links that are there at some time. -/
def Ever (held : Hashes → Prop) (a b : Text) : Prop := ∃ hashes, held hashes ∧ Linked hashes a b

theorem reports_follows (h : store.Follows held) : Reports store (Always held) (Ever held) := by
  intro node log peers log' hread
  rw [linkPeers_eq, Option.some_inj, Prod.mk.injEq, Option.map_eq_some_iff] at hread
  obtain ⟨⟨fields, hfields, rfl⟩, -⟩ := hread
  obtain ⟨hashes, hheld, htells⟩ := h log.length
  have hmem : ∀ b, b ∈ unique ((fields.map peerOf).insertionSort (· ≤ ·)) ↔
      Linked hashes node b := by
    intro b
    rw [mem_unique, List.mem_insertionSort, List.mem_map]
    unfold Linked
    simp only [(htells.hkeys _ _ hfields).mem_iff]
  exact ⟨fun b hb => ⟨hashes, hheld, (hmem b).mp hb⟩,
    fun b hb => (hmem b).mpr (hb hashes hheld)⟩

/-- The body of a found route, with the objects of its hops. -/
def carriedBody (route : List Text) (carried : List Json) (weights : Bool) : Text :=
  let json := ({} : Json).addTexts "path".toList route
  if weights then (json.addJsons "hops".toList carried).str else json.str

/-- The object of each hop is what the link is worth at some time. -/
def Carried (held : Hashes → Prop) (route : List Text) (carried : List Json) : Prop :=
  List.Forall₂ (fun hop json => ∃ hashes, held hashes ∧ json = storedHop hashes hop.1 hop.2)
    (route.zip route.tail) carried

theorem hops_followed (h : store.Follows held) (route : List Text) (log : List Read) :
    ∃ out log', hops store route log = some (out, log') ∧
      ∀ carried, out = some carried → Carried held route carried := by
  unfold Carried
  induction route generalizing log with
  | nil => exact ⟨_, _, rfl, fun _ hout => Option.some.inj hout ▸ .nil⟩
  | cons here route ih =>
    cases route with
    | nil => exact ⟨_, _, rfl, fun _ hout => Option.some.inj hout ▸ .nil⟩
    | cons next route =>
      generalize hfields : [next ++ kFieldDurSuffix, next ++ kFieldSmsSuffix,
        next ++ kFieldCntSuffix] = fields
      have hread : store.readSome (linkKey here) fields log = some (store.hmget log.length
        (linkKey here) fields, log ++ [.hmget (linkKey here) fields]) := rfl
      rw [hops, hfields, bind_of_eq_some hread]
      cases hvalues : store.hmget log.length (linkKey here) fields with
      | none => exact ⟨_, _, rfl, fun _ hout => absurd hout (Option.some_ne_none _).symm⟩
      | some values =>
        obtain ⟨out, log', hrun, hall⟩ := ih (log ++ [.hmget (linkKey here) fields])
        dsimp only
        rw [bind_of_eq_some hrun]
        cases out with
        | none => exact ⟨_, _, rfl, fun _ hout => absurd hout (Option.some_ne_none _).symm⟩
        | some out =>
          refine ⟨_, _, rfl, fun carried hout => ?_⟩
          obtain rfl := Option.some.inj hout
          obtain ⟨hashes, hheld, htells⟩ := h log.length
          refine .cons ⟨hashes, hheld, ?_⟩ (hall out rfl)
          rw [htells.hmget _ _ _ hvalues, ← hfields]
          rfl

theorem found_followed (h : store.Follows held) (route : List Text) (weights : Bool)
    (log : List Read) :
    ∃ result log', found store route weights log = some (result, log') ∧
      (result = unavailable ∨
        ∃ carried, Carried held route carried ∧
          result = ⟨200, carriedBody route carried weights⟩) := by
  unfold found carriedBody
  obtain ⟨out, log', hrun, hall⟩ := hops_followed h route log
  cases weights with
  | false =>
    obtain ⟨hashes, hheld, -⟩ := h 0
    refine ⟨_, _, rfl, .inr ⟨storedHops hashes route, ?_, rfl⟩⟩
    exact List.forall₂_map_right_iff.mpr
      (List.forall₂_same.mpr fun hop _ => ⟨hashes, hheld, rfl⟩)
  | true =>
    simp only [Bool.not_true, Bool.false_eq_true, if_false, if_true]
    rw [bind_of_eq_some hrun]
    cases out with
    | none => exact ⟨_, _, rfl, .inl rfl⟩
    | some carried => exact ⟨_, _, rfl, .inr ⟨carried, hall carried rfl, rfl⟩⟩

/-- What a search comes to while the links change: a route over links that are there at some
time, through nobody twice, where no route that is there all the while is shorter; or that
there is none such within `maxHops`, or `maxVisited` others are in the way. -/
inductive Found (held : Hashes → Prop) (cfg : QueryConfig) (first second : Text)
    (weights : Bool) : Result → Prop
  | route {route : List Text} {carried : List Json} (hcarried : Carried held route carried)
      (hroute : IsRoute (Ever held) first second route) (hnodup : route.Nodup)
      (hshortest : ∀ l, IsRoute (Always held) first second l → route.length ≤ l.length)
      (hhops : route.length ≤ cfg.maxHops.toNat + 1) :
      Found held cfg first second weights ⟨200, carriedBody route carried weights⟩
  | missing (hnone : ¬ Reaches (Always held) cfg.maxHops.toNat first second ∨
      Surrounded (Ever held) cfg.maxHops.toNat cfg.maxVisited.toNat first second) :
      Found held cfg first second weights ⟨404, notFound cfg⟩

theorem path_followed (h : store.Follows held)
    (hsym : ∀ hashes, held hashes → ∀ a b, Linked hashes a b → Linked hashes b a)
    (cfg : QueryConfig) (first second : Text) (weights : Bool) (log : List Read) :
    ∃ result log', path store cfg first second weights log = some (result, log') ∧
      (result = unavailable ∨ Found held cfg first second weights result) := by
  have hlo : ∀ a b, Always held a b → Always held b a :=
    fun a b hab hashes hheld => hsym hashes hheld a b (hab hashes hheld)
  have hhi : ∀ a b, Ever held a b → Ever held b a :=
    fun a b ⟨hashes, hheld, hab⟩ => ⟨hashes, hheld, hsym hashes hheld a b hab⟩
  rcases path_reported (reports_follows h) hlo hhi cfg first second weights log with
    ⟨route, log₁, hpath, hroute, hnodup, hshortest, hhops⟩ | ⟨log', hpath, hwhy⟩ |
      ⟨log', hpath, -⟩
  · obtain ⟨result, log', hrun, hresult⟩ := found_followed h route weights log₁
    refine ⟨result, log', hpath.trans hrun, hresult.imp id ?_⟩
    rintro ⟨carried, hcarried, rfl⟩
    exact .route hcarried hroute hnodup hshortest hhops
  · exact ⟨_, log', hpath, .inr (.missing hwhy)⟩
  · exact ⟨_, log', hpath, .inl rfl⟩

end PathService

/-! ## A thread among those who write -/

namespace RedisQuery

/-- What the server has held from a moment on. -/
def System.Since (s : System Keys) (since : Nat) (hashes : Hashes) : Prop :=
  ∃ (i : Nat) (held : Keys), since ≤ i ∧ s.moments[i]? = some held ∧ held.hashes = hashes

theorem System.moments_now (s : System Keys) : s.moments[s.now]? = some s.content :=
  List.getElem?_concat_length

theorem replay_follows {keys : Keys} {s : System Keys} {acts : List (Act Keys)}
    (h : Run step (Truthful Replies) { content := keys } acts s) {t begun since : Nat}
    (hsince : ∀ a ∈ (s.threads t).answers.drop begun, since ≤ a.sent) (hnow : since ≤ s.now) :
    (store (replay ((s.threads t).answers.drop begun))).Follows (s.Since since) := by
  intro n
  have htrue : ∀ argv reply, replay ((s.threads t).answers.drop begun) n argv = some reply → _ :=
    fun argv reply hr =>
      replay_true (fun a ha => ((System.Orderly.run h t).answers a (List.mem_of_mem_drop ha)).2) hr
  by_cases hanswered : ∃ argv reply,
      replay ((s.threads t).answers.drop begun) n argv = some reply
  · obtain ⟨argv, reply, hr⟩ := hanswered
    obtain ⟨a, hget, hargv, hreply, i, held, hsent, -, hi, htrue'⟩ := htrue argv reply hr
    have hfrom := (hsince a (List.mem_of_getElem? hget)).trans hsent
    refine ⟨held.hashes, ⟨i, held, hfrom, hi, rfl⟩, store_tells fun argv' reply' hr' => ?_⟩
    obtain ⟨a', hget', hargv', hreply', -⟩ := htrue argv' reply' hr'
    -- it is the one answer of that number
    rw [hget] at hget'
    cases hget'
    rw [hreply] at hreply'
    cases hreply'
    rwa [← hargv', hargv]
  · refine ⟨s.content.hashes, ⟨s.now, s.content, hnow, s.moments_now, rfl⟩,
      store_tells fun argv reply hr => ?_⟩
    exact absurd ⟨argv, reply, hr⟩ hanswered

/-- **A search among those who write.**  In any run, let a thread look for a path with the reads
it made since it began the request: what is sent is a 503, or a route over links that the
server held at some time since then, no longer than any that was there all the while, or that
there was none within reach all the while, or that too many were in the way. -/
theorem path_meanwhile {keys : Keys} {s : System Keys} {acts : List (Act Keys)}
    (h : Run step (Truthful Replies) { content := keys } acts s) (t begun since : Nat)
    (hsince : ∀ a ∈ (s.threads t).answers.drop begun, since ≤ a.sent) (hnow : since ≤ s.now)
    (hsym : ∀ hashes, s.Since since hashes → ∀ a b, Linked hashes a b → Linked hashes b a)
    (cfg : QueryConfig) (first second : Text) (weights : Bool) :
    ∃ result reads, PathService.path (store (replay ((s.threads t).answers.drop begun))) cfg
        first second weights [] = some (result, reads) ∧
      (result = unavailable ∨
        PathService.Found (s.Since since) cfg first second weights result) :=
  PathService.path_followed (replay_follows h hsince hnow) hsym cfg first second weights []

/-- Links that are kept from both sides. -/
theorem Keys.linked_symmetric {keys : Keys}
    (h : ∀ e ∈ keys.entries, ∀ field ∈ (e.2.getD ∅).keys,
      ∃ field' ∈ (keys.hashes (linkKey (peerOf field))).keys,
        peerOf field' = e.1.drop kLinkPrefix.length)
    (a b : Text) (hab : Linked keys.hashes a b) : Linked keys.hashes b a := by
  obtain ⟨field, hfield, rfl⟩ := hab
  cases hkey : keys.lookup (linkKey a) with
  | none => simp [Keys.hashes, Keys.hash, hkey] at hfield
  | some table =>
    have hentry := AList.mem_lookup_iff.mp (Option.mem_def.mpr hkey)
    have hfield' : field ∈ (table.getD ∅).keys := by
      simpa [Keys.hashes, Keys.hash, hkey] using hfield
    obtain ⟨back, hback, hpeer⟩ := h _ hentry field hfield'
    refine ⟨back, hback, hpeer.trans ?_⟩
    exact List.drop_left' rfl

/-- 2 is in contact with 1 and 3, and at a later moment with 4. -/
def chainKeys (later : Bool) : Keys :=
  let fields (names : List String) : Option (Table Text Text) :=
    some (names.foldl (fun table name => table.insert name.toList "60".toList) ∅)
  let early := (((∅ : Keys).insert "link:1".toList (fields ["2:dur"])).insert "link:3".toList
    (fields ["2:dur"])).insert "link:2".toList (fields ["1:dur", "3:dur"])
  if later then (early.insert "link:2".toList (fields ["1:dur", "3:dur", "4:dur"])).insert
    "link:4".toList (fields ["2:dur"])
  else early

theorem chainKeys_symmetric : ∀ later a b, Linked (chainKeys later).hashes a b →
    Linked (chainKeys later).hashes b a := by
  intro later
  cases later with
  | false => exact Keys.linked_symmetric (by decide +kernel)
  | true => exact Keys.linked_symmetric (by decide +kernel)

/-- The names of the fields under a key, and the reply with them. -/
def namesUnder (keys : Keys) (key : Text) : List Text := (keys.hashes key).keys

def askNames (key : Text) : List Text := ["HKEYS".toList, key]

theorem askNames_truthful {s : System Keys} {key : Text} {table : Table Text Text}
    (hold : s.oldest 0 = some (askNames key)) (htable : s.content.hash key = some table) :
    Truthful Replies s (.serve 0 (.array ((namesUnder s.content key).map some))) := by
  intro argv hargv
  rw [hold] at hargv
  cases hargv
  refine .hkeys htable ?_
  rw [namesUnder, Keys.hashes_eq htable]

/-- The reads of a search from 1 to 3, with a call recorded between them. -/
def chainReads : List Answer :=
  let answer (key : String) (later : Bool) (now : Nat) : Answer :=
    ⟨askNames key.toList, some (.array ((namesUnder (chainKeys later) key.toList).map some)), now,
      now⟩
  [answer "link:1" false 0, answer "link:2" true 1]

theorem run_chainReads : ∃ s acts, Run step (Truthful Replies) { content := chainKeys false } acts s ∧
    s.moments = [chainKeys false, chainKeys true] ∧ (s.threads 0).answers = chainReads := by
  let names (key : String) (later : Bool) : RedisReply :=
    .array ((namesUnder (chainKeys later) key.toList).map some)
  exact ⟨_, [.connect 0, .command 0 (askNames "link:1".toList), .serve 0 (names "link:1" false),
      .returns 0, .write (chainKeys true), .command 0 (askNames "link:2".toList),
      .serve 0 (names "link:2" true), .returns 0],
    .cons trivial rfl (.cons trivial rfl (.cons (askNames_truthful rfl rfl) rfl
      (.cons trivial rfl (.cons trivial rfl (.cons trivial rfl
        (.cons (askNames_truthful rfl rfl) rfl (.cons trivial rfl (.nil _)))))))), rfl, rfl⟩

/-- 1, 2 and 3 are the path, at whichever of the two moments. -/
theorem path_meanwhile_chain :
    ∃ s : System Keys, s.moments = [chainKeys false, chainKeys true] ∧
      PathService.Found (s.Since 0) ⟨6, 10000⟩ ['1'] ['3'] false
        ⟨200, "\x7b\"path\":[\"1\",\"2\",\"3\"]\x7d".toList⟩ := by
  obtain ⟨s, acts, hrun, hmoments, hanswers⟩ := run_chainReads
  have hsym : ∀ hashes, s.Since 0 hashes → ∀ a b, Linked hashes a b → Linked hashes b a := by
    rintro hashes ⟨i, held, -, hi, rfl⟩
    rw [hmoments] at hi
    rcases List.mem_pair.mp (List.mem_of_getElem? hi) with rfl | rfl
    · exact chainKeys_symmetric false
    · exact chainKeys_symmetric true
  obtain ⟨result, reads, hpath, hfound⟩ := path_meanwhile hrun 0 0 0 (fun _ _ => Nat.zero_le _)
    (Nat.zero_le _) hsym ⟨6, 10000⟩ ['1'] ['3'] false
  have hsent : (PathService.path (store (replay chainReads)) ⟨6, 10000⟩ ['1'] ['3'] false []).map
      Prod.fst = some ⟨200, "\x7b\"path\":[\"1\",\"2\",\"3\"]\x7d".toList⟩ := by
    decide +kernel
  rw [hanswers, List.drop_zero] at hpath
  rw [hpath] at hsent
  obtain rfl := Option.some.inj hsent
  refine ⟨s, hmoments, hfound.resolve_left fun hdown => ?_⟩
  exact absurd (congrArg Result.status hdown) (by decide)

end RedisQuery

end CdrProcessor
