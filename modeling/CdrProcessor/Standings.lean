import CdrProcessor.Ledger
import CdrProcessor.RedisQuery

/-! The sorted sets of a server that ran some batches, and a page of them as `RankService`
sends it: the standings of the counters. -/

namespace CdrProcessor

/-- A sorted set with the members and scores of a table. -/
def SortedSet.Keeps (set : SortedSet Nat) (scores : Table Text Nat) : Prop :=
  ∀ score member, toLex (score, member) ∈ set.entries ↔ scores.lookup member = some score

/-- The sorted set of a table that is not too large for one. -/
def SortedSet.ofTable (scores : Table Text Nat) (h : scores.entries.length < 2 ^ 63) :
    SortedSet Nat where
  entries := (scores.entries.map fun e => toLex (e.2, e.1)).insertionSort (· ≤ ·)
  ascending := by
    have hnodup : (scores.entries.map fun e => toLex (e.2, e.1)).Nodup := by
      refine List.Nodup.of_map (fun e => (ofLex e).2) ?_
      rw [List.map_map]
      exact scores.nodupKeys
    have hle := List.pairwise_insertionSort (· ≤ ·) (scores.entries.map fun e => toLex (e.2, e.1))
    have hne := (List.perm_insertionSort (· ≤ ·) _).nodup_iff.mpr hnodup
    exact (hle.and hne).imp fun h => lt_of_le_of_ne h.1 h.2
  members := by
    have hperm := (List.perm_insertionSort (· ≤ ·)
      (scores.entries.map fun e => toLex (e.2, e.1))).map fun e => (ofLex e).2
    rw [hperm.nodup_iff, List.map_map]
    exact scores.nodupKeys
  size := by rwa [List.length_insertionSort, List.length_map]

theorem SortedSet.keeps_ofTable (scores : Table Text Nat) (h : scores.entries.length < 2 ^ 63) :
    (SortedSet.ofTable scores h).Keeps scores := by
  intro score member
  unfold SortedSet.ofTable
  rw [List.mem_insertionSort, List.mem_map, ← Option.mem_def, AList.mem_lookup_iff]
  constructor
  · rintro ⟨e, he, heq⟩
    obtain ⟨rfl, rfl⟩ := Prod.mk.inj heq
    exact he
  · exact fun he => ⟨⟨member, score⟩, he, rfl⟩

/-! ## Boards and their counters -/

theorem Board.name_keyOf (board : Board) :
    RankService.keyOf board.name ≠ [] ∧ ∀ c : Counter, ∀ name, c.standing = some (board, name) ↔
      c.place = .board (RankService.keyOf board.name) name := by
  have hsub : ∀ b : SubBoard, RankService.keyOf (Board.subs b).name = b.key := by
    intro b
    cases b <;> decide
  have hop : ∀ b : OpBoard, RankService.keyOf (Board.ops b).name = b.key := by
    intro b
    cases b <;> decide
  refine ⟨by rcases board with b | b <;> cases b <;> decide, fun c name => ?_⟩
  cases board with
  | subs b =>
    rw [hsub]
    cases c with
    | subBoard m b' =>
      simp only [Counter.standing, Counter.place, Option.some.injEq, Prod.mk.injEq,
        Board.subs.injEq, Place.board.injEq, SubBoard.key_injective.eq_iff]
      rfl
    | opBoard k b' =>
      simp [Counter.standing, Counter.place, (subBoard_ne_opBoard b b').symm]
    | sub | op | link | total => simp [Counter.standing, Counter.place]
  | ops b =>
    rw [hop]
    cases c with
    | subBoard m b' => simp [Counter.standing, Counter.place, subBoard_ne_opBoard b' b]
    | opBoard k b' =>
      simp only [Counter.standing, Counter.place, Option.some.injEq, Prod.mk.injEq,
        Board.ops.injEq, Place.board.injEq, OpBoard.key_injective.eq_iff, appendNumber,
        UInt32.toNat_toUInt64]
      rfl
    | sub | op | link | total => simp [Counter.standing, Counter.place]

/-- A name that is no board's has no key. -/
theorem keyOf_unknown {name : Text} (h : ∀ board : Board, board.name ≠ name) :
    RankService.keyOf name = [] := by
  have hnames : RankService.kBoards.map Prod.fst =
      [Board.subs .voice, .subs .sms, .subs .data, .subs .fail, .ops .voice, .ops .sms].map
        Board.name := by decide
  unfold RankService.keyOf
  rw [List.find?_eq_none.mpr]
  · rfl
  · intro e he heq
    have hmem : e.1 ∈ RankService.kBoards.map Prod.fst := List.mem_map_of_mem he
    rw [hnames, List.mem_map] at hmem
    obtain ⟨board, -, hboard⟩ := hmem
    exact h board (hboard.trans (of_decide_eq_true heq))

/-! ## What a server keeps -/

variable {calls : List ConsumeCall} {set : SortedSet Nat} {board : Board}

/-- Who stands on a board of the store is a counter that is not zero. -/
theorem consumed_board (hx : Exact (recordsOf calls)) {key member : Text} {v : Nat} :
    (consumed calls).value (.board key member) = some v ↔
      v ≠ 0 ∧ ∃ c : Counter, c.place = .board key member ∧ amount (recordsOf calls) c = v := by
  constructor
  · intro h
    by_cases hc : ∃ c : Counter, c.place = .board key member
    · obtain ⟨c, hc⟩ := hc
      rw [← hc, consumed_value hx] at h
      split at h
      · cases h
      · next h0 =>
        obtain rfl := Option.some.inj h
        exact ⟨h0, c, hc, rfl⟩
    · have hother := calls_other calls {} (p := .board key member)
        (fun c hp => hc ⟨c, hp.symm⟩) fun source => by simp [markPlace]
      unfold consumed at h
      rw [hother] at h
      cases h
  · rintro ⟨hv, c, hc, rfl⟩
    rw [← hc, consumed_value hx, if_neg hv]

/-- A score below 2^53 is written in digits, and read as itself. -/
theorem elementScore_digits {n : Nat} (h : n < 2 ^ 53) :
    RedisQuery.elementScore (Decimal.digits n) = .ofNat n := by
  unfold RedisQuery.elementScore RedisQuery.strtod
  rw [Decimal.takeWhile_digits, Decimal.dropWhile_digits]
  simp [Decimal.value_digits, roundDouble_of_lt h]

/-- The entries of a set from the highest down, as names with their scores. -/
def SortedSet.standings (set : SortedSet Nat) : List (Text × Nat) :=
  set.entries.reverse.map fun e => ((ofLex e).2, (ofLex e).1)

theorem SortedSet.mem_standings {name : Text} {score : Nat} :
    (name, score) ∈ set.standings ↔ toLex (score, name) ∈ set.entries := by
  unfold SortedSet.standings
  rw [List.mem_map]
  constructor
  · rintro ⟨e, he, heq⟩
    obtain ⟨rfl, rfl⟩ := Prod.mk.inj heq
    exact List.mem_reverse.mp he
  · exact fun he => ⟨_, List.mem_reverse.mpr he, rfl⟩

theorem standings_of_keeps (hx : Exact (recordsOf calls))
    (hset : set.Keeps ((consumed calls).board (RankService.keyOf board.name))) :
    Ledger.Standings (amount (recordsOf calls)) board set.standings where
  mem name score := by
    have hvalue : ((consumed calls).board (RankService.keyOf board.name)).lookup name =
        (consumed calls).value (.board (RankService.keyOf board.name) name) := rfl
    rw [SortedSet.mem_standings, hset, hvalue, consumed_board hx]
    simp only [board.name_keyOf.2]
  sorted := by
    unfold SortedSet.standings
    rw [List.pairwise_map, List.pairwise_reverse]
    refine set.ascending.imp fun {e d} hlt => ?_
    rcases Prod.Lex.lt_iff.mp hlt with h | h
    · exact .inl h
    · exact .inr ⟨h.1.symm, h.2⟩

/-- What the whole board is read as. -/
theorem ranked_of_keeps (hx : Exact (recordsOf calls))
    (hset : set.Keeps ((consumed calls).board (RankService.keyOf board.name))) :
    RedisQuery.ranked set Decimal.digits = set.standings.map fun e => (e.1, .ofNat e.2) := by
  unfold RedisQuery.ranked SortedSet.descending SortedSet.standings
  rw [List.map_map, List.map_map]
  refine List.map_congr_left fun e he => ?_
  have hscore := (hset _ _).mp (List.mem_reverse.mp he)
  obtain ⟨-, c, -, hc⟩ := (consumed_board hx).mp hscore
  change (_, RedisQuery.elementScore (Decimal.digits (ofLex e).1)) = _
  rw [elementScore_digits (hc ▸ hx c)]
  rfl

/-! ## A page of a board -/

/-- The boards of a store are a server's sorted sets. -/
def QueryStore.Boards (store : QueryStore) (boards : Text → SortedSet Nat) : Prop :=
  ∀ n, store.top n = RedisQuery.top fun argv => some (serveBoards boards Decimal.digits argv)

theorem page_map {α β : Type} (f : α → β) (all : List α) (params : QueryParams) :
    page (all.map f) params = (page all params).map f := by
  unfold page
  simp only [List.length_map]
  rw [apply_ite (List.map f), List.map_nil, List.map_take, List.map_drop]

/-- The page that is read, or nothing where the store refuses the places it is asked for. -/
theorem read_page {store : QueryStore} {boards : Text → SortedSet Nat} (hstore : store.Boards boards)
    {params : QueryParams} (hlimit : params.limit ≤ kTopLimitMax) (n : Nat) (key : Text) :
    store.top n key params.offset params.limit = if Ledger.Asked params then
      some (page (RedisQuery.ranked (boards key) Decimal.digits) params,
        .ofNat (boards key).entries.length) else none := by
  have hcap : params.limit.toNat ≤ 500 := UInt64.le_iff_toNat_le.mp hlimit
  rw [hstore]
  by_cases ho : params.offset.toNat < 2 ^ 63
  · by_cases hl : params.limit = 0
    · rw [if_pos ⟨ho, .inl hl⟩, RedisQuery.top_unlimited boards _ key ho hl, page_unlimited _ hl]
    · by_cases hs : params.offset.toNat + params.limit.toNat - 1 < 2 ^ 63
      · rw [if_pos ⟨ho, .inr hs⟩, RedisQuery.top_within boards _ key ho hl hs, page_eq_slice _ hl]
      · rw [if_neg fun h => h.2.elim hl hs, RedisQuery.top_refused boards _ key
          (.inr ⟨hl, not_lt.mp hs, by omega⟩)]
  · rw [if_neg fun h => ho h.1, RedisQuery.top_refused boards _ key (.inl (not_lt.mp ho))]

/-- What `RankService` answers is owed. -/
theorem top_owed {store : QueryStore} {boards : Text → SortedSet Nat}
    (hx : Exact (recordsOf calls)) (hstore : store.Boards boards)
    (hboards : ∀ key, (boards key).Keeps ((consumed calls).board key)) (name : Text)
    {params : QueryParams} (hlimit : params.limit ≤ kTopLimitMax) :
    ∃ result reads, RankService.top store name params = some (result, reads) ∧
      ((∃ board : Board, board.name = name ∧ ∃ entries,
          Ledger.Standings (amount (recordsOf calls)) board entries ∧
            result = Ledger.top name entries params) ∨
        (∀ board : Board, board.name ≠ name) ∧
          result = ⟨400, Json.error "no such board".toList⟩) := by
  unfold RankService.top
  dsimp only
  by_cases hboard : ∃ board : Board, board.name = name
  · obtain ⟨board, rfl⟩ := hboard
    have hset := hboards (RankService.keyOf board.name)
    have hlen : (boards (RankService.keyOf board.name)).standings.length =
        (boards (RankService.keyOf board.name)).entries.length := by
      unfold SortedSet.standings
      rw [List.length_map, List.length_reverse]
    rw [if_neg board.name_keyOf.1, read_page hstore hlimit]
    suffices howed : ∃ result reads, _ = some (result, reads) ∧ result =
        Ledger.top board.name (boards (RankService.keyOf board.name)).standings params by
      obtain ⟨result, reads, hrun, hresult⟩ := howed
      exact ⟨result, reads, hrun, .inl ⟨board, rfl, _, standings_of_keeps hx hset, hresult⟩⟩
    unfold Ledger.top
    by_cases hasked : Ledger.Asked params
    · rw [if_pos hasked, if_pos hasked]
      refine ⟨_, _, rfl, ?_⟩
      rw [ranked_of_keeps hx hset, page_map, List.map_map, hlen]
      rfl
    · rw [if_neg hasked, if_neg hasked]
      exact ⟨_, _, rfl, rfl⟩
  · have hnone : ∀ board : Board, board.name ≠ name := not_exists.mp hboard
    rw [if_pos (keyOf_unknown hnone)]
    exact ⟨_, _, rfl, .inr ⟨hnone, rfl⟩⟩

end CdrProcessor
