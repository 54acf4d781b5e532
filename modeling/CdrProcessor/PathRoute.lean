import CdrProcessor.PathSearch

/-! What `path` answers with: the two trails are walked into one route, which is a
shortest one, and its hops are read off the links. -/

namespace CdrProcessor.PathService

open Script

variable {store : IQueryStore} {hashes : Hashes}

/-! ## Walking the trails -/

theorem climb_eq {t : Trail} {node : Text} {l : List Text} (h : Climb t node l) {fuel : Nat}
    (hf : l.length ≤ fuel) : climb t fuel node = some l := by
  induction h generalizing fuel with
  | root hx =>
    obtain ⟨fuel, rfl⟩ := Nat.exists_eq_succ_of_ne_zero (n := fuel) (by simp at hf; omega)
    simp [climb, hx]
  | step hx hne _ ih =>
    obtain ⟨fuel, rfl⟩ := Nat.exists_eq_succ_of_ne_zero (n := fuel) (by simp at hf; omega)
    simp only [List.length_cons, Nat.succ_le_succ_iff] at hf
    simp [climb, hx, hne, ih hf]

theorem descend_eq {t : Trail} {node : Text} {l : List Text} (h : Climb t node l) {fuel : Nat}
    {path : List Text} (hf : l.length ≤ fuel) (hlast : path.getLast? ≠ some node) :
    descend t fuel path node = some (path ++ l) := by
  induction h generalizing fuel path with
  | root hx =>
    obtain ⟨fuel, rfl⟩ := Nat.exists_eq_succ_of_ne_zero (n := fuel) (by simp at hf; omega)
    simp [descend, hx, hlast]
  | @step x p l hx hne _ ih =>
    obtain ⟨fuel, rfl⟩ := Nat.exists_eq_succ_of_ne_zero (n := fuel) (by simp at hf; omega)
    simp only [List.length_cons, Nat.succ_le_succ_iff] at hf
    have hi := @ih fuel (path ++ [x]) hf (by simpa using Ne.symm hne)
    simp [descend, hx, hne, hlast, hi]

/-- Both loops of `walk`: the climb up the one trail turned round, then the one up the
other, the meeting point once. -/
theorem walk_eq {head tail : Trail} {meet : Text} {l l' : List Text} (hl : Climb head meet l)
    (hlast : l.head? = some meet) (hl' : Climb tail meet l') (hlen : l.length ≤ head.entries.length)
    (hlen' : l'.length ≤ tail.entries.length) :
    walk head tail meet = some (l.reverse ++ l'.tail) := by
  have hback : climb head (head.entries.length + 1) meet = some l := climb_eq hl (by omega)
  have hend : l.reverse.getLast? = some meet := by rw [List.getLast?_reverse, hlast]
  unfold walk
  rw [hback]
  cases hl' with
  | root hx => simp [hx, descend, hlast]
  | @step _ p l' hx hne hc =>
    have hd : descend tail (tail.entries.length + 1) l.reverse p = some (l.reverse ++ l') := by
      refine descend_eq hc ?_ ?_
      · rw [List.length_cons] at hlen'
        omega
      · rw [hend]
        simpa using Ne.symm hne
    simp [hx, hd]

/-- **A meeting is a route**, as short as any. -/
theorem Meets.route (hR : ∀ a b, Linked hashes a b → Linked hashes b a) {root : Side → Text}
    {n : Nat} {s : Search} {peer : Text} (h : Meets hashes root n s peer) :
    ∃ route, walk (s.seen .first) (s.seen .second) peer = some route ∧
      IsRoute (Linked hashes) (root .first) (root .second) route ∧ route.length = n + 1 := by
  obtain ⟨depth, hdepth, htrails, hfar⟩ := h
  obtain ⟨l, hc, hl, hlen, hsize⟩ := htrails .first
  obtain ⟨l', hc', hl', hlen', hsize'⟩ := htrails .second
  obtain ⟨t, rfl⟩ : ∃ t, l' = peer :: t := by
    cases hc' with
    | root hx => exact ⟨[], rfl⟩
    | step hx hne hp => exact ⟨_, rfl⟩
  have hroute := (hl.reverse hR).join hl'
  refine ⟨_, walk_eq hc hl.head hc' hsize hsize', hroute, ?_⟩
  have := hfar _ hroute
  simp only [List.length_append, List.length_reverse, List.tail_cons, List.length_cons] at *
  omega

/-! ## The answer -/

/-- What the link hash of `a` holds about `b`. -/
def stored (hashes : Hashes) (a b suffix : Text) : UInt64 :=
  toNum (((hashes (linkKey a)).lookup (b ++ suffix)).getD [])

/-- The object of one hop. -/
def storedHop (hashes : Hashes) (a b : Text) : Json :=
  ((({} : Json).addText "from".toList a).addText "to".toList b).addExchanged
    (stored hashes a b kFieldDurSuffix) (stored hashes a b kFieldCntSuffix)
    (stored hashes a b kFieldSmsSuffix)

/-- The objects of all hops of a route, in order. -/
def storedHops (hashes : Hashes) (route : List Text) : List Json :=
  (route.zip route.tail).map fun pair => storedHop hashes pair.1 pair.2

/-- The body of a found route. -/
def routeBody (hashes : Hashes) (route : List Text) (weights : Bool) : Text :=
  let json := ({} : Json).addTexts "path".toList route
  if weights then (json.addJsons "hops".toList (storedHops hashes route)).str else json.str

/-- A read of the peers of a subscriber. -/
def linkRead : Read → Bool
  | .hkeys _ => true
  | _ => false

theorem hops_read (hs : store.Serves hashes) (route : List Text) (log : List Read) :
    ∃ out log', hops store route log = some (out, log') ∧
      log'.countP linkRead = log.countP linkRead ∧ (out = none → ¬ store.Up) ∧
      ∀ carried, out = some carried → carried = storedHops hashes route := by
  induction route generalizing log with
  | nil => exact ⟨_, _, rfl, rfl, nofun, by rintro _ ⟨⟩; rfl⟩
  | cons here route ih =>
    cases route with
    | nil => exact ⟨_, _, rfl, rfl, nofun, by rintro _ ⟨⟩; rfl⟩
    | cons next route =>
      generalize hfields : [next ++ kFieldDurSuffix, next ++ kFieldSmsSuffix,
        next ++ kFieldCntSuffix] = fields
      have hread : store.readSome (linkKey here) fields log = some (store.hmget log.length
        (linkKey here) fields, log ++ [.hmget (linkKey here) fields]) := rfl
      rw [hops, hfields, bind_of_eq_some hread]
      cases hv : store.hmget log.length (linkKey here) fields with
      | none =>
        refine ⟨_, _, rfl, by simp [linkRead], fun _ hup => ?_, nofun⟩
        have := hup.hmget log.length (linkKey here) fields
        rw [hv] at this
        cases this
      | some values =>
        obtain ⟨out, log', hrun, hcount, hdown, hall⟩ :=
          ih (log ++ [.hmget (linkKey here) fields])
        dsimp only
        rw [bind_of_eq_some hrun]
        have hcount' : log'.countP linkRead = log.countP linkRead := by
          rw [hcount]
          simp [linkRead]
        cases out with
        | none => exact ⟨_, _, rfl, hcount', hdown, nofun⟩
        | some out =>
          refine ⟨_, _, rfl, hcount', nofun, ?_⟩
          rintro _ ⟨⟩
          rw [hall out rfl, hs.hmget _ _ _ _ hv, ← hfields]
          rfl

/-- A route is answered with its body, or with a 503 when a hop could not be read. -/
theorem found_read (hs : store.Serves hashes) (route : List Text) (weights : Bool)
    (log : List Read) :
    ∃ result log', found store route weights log = some (result, log') ∧
      log'.countP linkRead = log.countP linkRead ∧
      (result = ⟨200, routeBody hashes route weights⟩ ∨ result = unavailable ∧ ¬ store.Up) := by
  unfold found routeBody
  cases weights with
  | false => exact ⟨_, _, rfl, rfl, .inl rfl⟩
  | true =>
    obtain ⟨out, log', hrun, hcount, hdown, hall⟩ := hops_read hs route log
    simp only [Bool.not_true, Bool.false_eq_true, if_false, if_true]
    rw [bind_of_eq_some hrun]
    cases out with
    | none => exact ⟨_, _, rfl, hcount, .inr ⟨rfl, hdown rfl⟩⟩
    | some carried => exact ⟨_, _, rfl, hcount, .inl (by rw [hall carried rfl])⟩

/-! ## The search -/

/-- The two ends of a search. -/
def ends (first second : Text) : Side → Text
  | .first => first
  | .second => second

theorem start_balls {first second : Text} (hne : first ≠ second) :
    Balls hashes (ends first second) (fun _ => 0) (.start first second) := by
  refine ⟨fun side => ?_, fun x hx hx' => ?_⟩
  · cases side with
    | first => exact .start first
    | second => exact .start second
  · have hmem : ∀ y, x ∈ (∅ : Trail).insert y y → x = y := fun y hy =>
      ((AList.mem_insert ∅).mp hy).resolve_right (AList.notMem_empty x)
    exact hne ((hmem first hx).symm.trans (hmem second hx'))

/-- **A search** comes to an end, with a shortest route, with none in reach, with too many
discovered or with a read that failed. -/
theorem search_spec (hR : ∀ a b, Linked hashes a b → Linked hashes b a)
    (hs : store.Serves hashes) (full : Nat → Bool) (hops : Nat) {first second : Text}
    (hne : first ≠ second) (log : List Read) :
    ∃ s stop log', searchHops store full hops (.start first second) log = some ((s, stop), log') ∧
      Left store hashes (ends first second) full hops s
        (∀ l, IsRoute (Linked hashes) first second l → hops + 2 ≤ l.length) stop := by
  have h := searchHops_spec hR hs full hops log (start_balls hne)
  simpa only [Nat.zero_add, ends] using h

/-- A search that met goes on to its route. -/
theorem path_met {cfg : QueryConfig} {first second peer : Text} {weights : Bool}
    {log log' : List Read} {s : Search} {route : List Text} (hne : first ≠ second)
    (hrun : searchHops store cfg.full cfg.maxHops.toNat (.start first second) log =
      some ((s, some (.met peer)), log'))
    (hw : walk (s.seen .first) (s.seen .second) peer = some route) :
    path store cfg first second weights log = found store route weights log' := by
  rw [path, if_neg hne, bind_of_eq_some hrun]
  dsimp only
  rw [hw]
  rfl

/-- One that did not meet answers with no route. -/
theorem path_stopped {cfg : QueryConfig} {first second : Text} {weights : Bool}
    {log log' : List Read} {s : Search} {stop : Option Stop} (hne : first ≠ second)
    (hrun : searchHops store cfg.full cfg.maxHops.toNat (.start first second) log =
      some ((s, stop), log'))
    (hstop : ∀ peer, stop ≠ some (.met peer)) :
    path store cfg first second weights log =
      some (if stop = some .unreadable then unavailable else ⟨404, notFound cfg⟩, log') := by
  rw [path, if_neg hne, bind_of_eq_some hrun]
  match stop, hstop with
  | none, _ => rfl
  | some .gaveUp, _ => rfl
  | some .unreadable, _ => rfl
  | some (.met peer), hstop => exact absurd rfl (hstop peer)

/-- A 200 carries the body of a shortest route, of at most `maxHops` links. -/
theorem path_answer (hs : store.Serves hashes)
    (hsym : ∀ a b, Linked hashes a b → Linked hashes b a) {cfg : QueryConfig}
    {first second : Text} {weights : Bool} {log log' : List Read} {body : Text}
    (h : path store cfg first second weights log = some (⟨200, body⟩, log')) :
    ∃ route, body = routeBody hashes route weights ∧
      IsRoute (Linked hashes) first second route ∧
      (∀ l, IsRoute (Linked hashes) first second l → route.length ≤ l.length) ∧
      route.length ≤ cfg.maxHops.toNat + 1 := by
  -- what `found` answers with a 200 is the body of its route
  have hbody : ∀ route log₁, found store route weights log₁ = some (⟨200, body⟩, log') →
      body = routeBody hashes route weights := by
    intro route log₁ hf
    obtain ⟨result, log₂, hr, -, hresult⟩ := found_read hs route weights log₁
    rw [hf, Option.some_inj, Prod.mk.injEq] at hr
    rcases hresult with hok | ⟨hdown, -⟩
    · rw [← hr.1, Result.mk.injEq] at hok
      exact hok.2
    · rw [← hr.1, unavailable, Result.mk.injEq] at hdown
      exact absurd hdown.1 (by decide)
  by_cases hne : first = second
  · subst hne
    rw [path, if_pos rfl] at h
    refine ⟨[first], hbody _ _ h, .single first, fun l hl => ?_, by simp⟩
    exact List.length_pos_iff.mpr hl.ne_nil
  · obtain ⟨s, stop, log₁, hrun, hleft⟩ := search_spec hsym hs cfg.full cfg.maxHops.toNat hne log
    by_cases hstop : ∃ peer, stop = some (.met peer)
    · obtain ⟨peer, rfl⟩ := hstop
      obtain ⟨n, hn, hmeets⟩ := hleft
      obtain ⟨route, hw, hroute, hlen⟩ := hmeets.route hsym
      obtain ⟨-, -, -, hfar⟩ := hmeets
      rw [path_met hne hrun hw] at h
      exact ⟨route, hbody _ _ h, hroute, fun l hl => hlen ▸ hfar l hl, by omega⟩
    · rw [path_stopped hne hrun (not_exists.mp hstop), Option.some_inj, Prod.mk.injEq] at h
      have hstatus := congrArg Result.status h.1
      split at hstatus <;> cases hstatus

/-- **A route is sound and shortest.**  Whatever the order and the failures of the reads,
the route of a 200 leads from the one end to the other over links of the store, stops
nowhere twice, is no longer than any other, and its hops are what the store holds. -/
theorem path_shortest (hs : store.Serves hashes)
    (hsym : ∀ a b, Linked hashes a b → Linked hashes b a) {cfg : QueryConfig}
    {first second : Text} {weights : Bool} {log log' : List Read} {body : Text}
    (h : path store cfg first second weights log = some (⟨200, body⟩, log')) :
    ∃ route, body = routeBody hashes route weights ∧
      IsRoute (Linked hashes) first second route ∧ route.Nodup ∧
      (∀ l, IsRoute (Linked hashes) first second l → route.length ≤ l.length) ∧
      route.length ≤ cfg.maxHops.toNat + 1 := by
  obtain ⟨route, hbody, hroute, hmin, hlen⟩ := path_answer hs hsym h
  exact ⟨route, hbody, hroute, hroute.nodup hmin, hmin, hlen⟩

/-! ## Two subscribers in contact -/

/-- One call between 1 and 2. -/
def contact : Hashes := fun key =>
  if key = linkKey ['1'] then (∅ : Table Text Text).insert "2:dur".toList "60".toList
  else if key = linkKey ['2'] then (∅ : Table Text Text).insert "1:dur".toList "60".toList
  else ∅

theorem contact_linked {a b : Text} (h : Linked contact a b) :
    a = ['1'] ∧ b = ['2'] ∨ a = ['2'] ∧ b = ['1'] := by
  obtain ⟨field, hfield, rfl⟩ := h
  unfold contact at hfield
  split at hfield
  · next ha =>
    obtain rfl : field = "2:dur".toList := by simpa using hfield
    exact .inl ⟨List.append_cancel_left ha, by decide⟩
  · split at hfield
    · next ha =>
      obtain rfl : field = "1:dur".toList := by simpa using hfield
      exact .inr ⟨List.append_cancel_left ha, by decide⟩
    · simp at hfield

theorem contact_symmetric (a b : Text) (h : Linked contact a b) : Linked contact b a := by
  rcases contact_linked h with ⟨rfl, rfl⟩ | ⟨rfl, rfl⟩
  · exact ⟨"1:dur".toList, by decide, by decide⟩
  · exact ⟨"2:dur".toList, by decide, by decide⟩

/-- The route between the two, with its one hop. -/
def contactBody : Text :=
  "\x7b\"path\":[\"1\",\"2\"],\"hops\":[\x7b\"from\":\"1\",\"to\":\"2\",".toList ++
    "\"duration\":60,\"calls\":0,\"sms\":0\x7d]\x7d".toList

theorem path_shortest_contact :
    ∃ route, contactBody = routeBody contact route true ∧
      IsRoute (Linked contact) ['1'] ['2'] route := by
  have hrun : (path contact.store ⟨6, 10000⟩ ['1'] ['2'] true []).map Prod.fst =
      some ⟨200, contactBody⟩ := by decide +kernel
  obtain ⟨⟨result, log'⟩, hpath, hresult⟩ := Option.map_eq_some_iff.mp hrun
  dsimp only at hresult
  subst hresult
  obtain ⟨route, hbody, hroute, -⟩ := path_shortest contact.store_serves contact_symmetric hpath
  exact ⟨route, hbody, hroute⟩

end CdrProcessor.PathService
