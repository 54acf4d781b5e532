import CdrProcessor.ListingParams
import CdrProcessor.Redis
import Mathlib.Data.Prod.Lex

/-! `RedisQuery::top` over a server that keeps sorted sets: one page of a board, next to the
page cut off the whole board. -/

namespace CdrProcessor

/-! ## The server -/

/-- A sorted set as the server keeps it, ascending by score and then by member.  Its size goes
out as a signed 64-bit number. -/
structure SortedSet (S : Type) [LinearOrder S] where
  entries : List (S ×ₗ Text) := []
  ascending : entries.Pairwise (· < ·) := by simp
  members : (entries.map fun e => (ofLex e).2).Nodup := by simp
  size : entries.length < 2 ^ 63 := by simp

/-- A reply to a command that reads. -/
inductive BoardReply where
  | integer (n : Nat)
  | array (elements : List Text)
  | error
  deriving DecidableEq, Repr

/-- An index of a range, a signed 64-bit number. -/
def readIndex : Text → Option Int
  | '-' :: s =>
    match Decimal.readNat (2 ^ 63 + 1) s with
    | some (n, []) => some (-n)
    | _ => none
  | s =>
    match Decimal.readNat (2 ^ 63) s with
    | some (n, []) => some n
    | _ => none

/-- The entries between two indices, both ends included.  A negative index counts from the
end, and one past either end stops there. -/
def indexRange {α : Type} (all : List α) (start stop : Int) : List α :=
  let length : Int := all.length
  let start := if start < 0 then max 0 (length + start) else start
  let stop := if stop < 0 then length + stop else stop
  if start > stop ∨ start ≥ length then []
  else
    let stop := if stop ≥ length then length - 1 else stop
    (all.drop start.toNat).take (stop - start + 1).toNat

variable {S : Type} [LinearOrder S]

/-- A board from its highest score down, each score as the server writes it. -/
def SortedSet.descending (set : SortedSet S) (write : S → Text) : List (Text × Text) :=
  set.entries.reverse.map fun e => ((ofLex e).2, write (ofLex e).1)

/-- ZCARD and ZREVRANGE.  An index that is no signed 64-bit number is an error. -/
def serveBoards (boards : Text → SortedSet S) (write : S → Text) : List Text → BoardReply
  | [name, key] =>
    if name = "ZCARD".toList then .integer (boards key).entries.length else .error
  | [name, key, start, stop, scores] =>
    if name = "ZREVRANGE".toList ∧ scores = "WITHSCORES".toList then
      match readIndex start, readIndex stop with
      | some start, some stop =>
        .array ((indexRange ((boards key).descending write) start stop).flatMap fun e => [e.1, e.2])
      | _, _ => .error
    else .error
  | _ => .error

/-! ## top -/

namespace RedisQuery

/-- `strtod` of a score that is not negative, cut to a whole number: digits, a fraction, a
power of ten, and the double nearest to them. -/
def strtod (text : Text) : Nat :=
  let whole := text.takeWhile Char.isDigit
  let rest := text.dropWhile Char.isDigit
  let (fraction, rest) := match rest with
    | '.' :: rest => (rest.takeWhile Char.isDigit, rest.dropWhile Char.isDigit)
    | rest => ([], rest)
  let mantissa := Decimal.value (whole ++ fraction)
  match rest with
  | 'e' :: '-' :: power =>
    mantissa / 10 ^ (Decimal.value (power.takeWhile Char.isDigit) + fraction.length)
  | 'e' :: '+' :: power =>
    roundDouble (mantissa * 10 ^ Decimal.value (power.takeWhile Char.isDigit) /
      10 ^ fraction.length)
  | _ => roundDouble (mantissa / 10 ^ fraction.length)

def elementScore (element : Text) : UInt64 := .ofNat (strtod element)

/-- `RedisQuery::command`: nothing when the store is out of reach, nor for an error. -/
def command (ask : List Text → Option BoardReply) (argv : List Text) : Option BoardReply :=
  match ask argv with
  | some .error => none
  | reply => reply

/-- The loop over the elements, a member and its score at a time. -/
def pairs : List Text → List (Text × UInt64)
  | member :: score :: rest => (member, elementScore score) :: pairs rest
  | _ => []

/-- `RedisQuery::top`: the page and the size of the board, nothing for `false`. -/
def top (ask : List Text → Option BoardReply) (board : Text) (offset limit : UInt64) :
    Option (List (Text × UInt64) × UInt64) := do
  let card ← command ask ["ZCARD".toList, board]
  let count : UInt64 := match card with
    | .integer n => .ofNat n
    | _ => 0
  let start := appendNumber [] offset
  -- -1 is the last member
  let stop := if limit = 0 then "-1".toList else appendNumber [] (offset + limit - 1)
  let reply ← command ask
    ["ZREVRANGE".toList, board, start, stop, "WITHSCORES".toList]
  let out := match reply with
    | .array elements => pairs elements
    | _ => []
  return (out, count)

end RedisQuery

/-! ## Indices and pages -/

theorem readIndex_digits (n : Nat) :
    readIndex (Decimal.digits n) = if n < 2 ^ 63 then some (n : Int) else none := by
  have hsign : ∀ s, Decimal.digits n ≠ '-' :: s := by
    intro s h
    have hd := Decimal.isDigit_of_mem_digits (n := n) (c := '-') (h ▸ List.mem_cons_self)
    cases hd
  have hread : Decimal.readNat (2 ^ 63) (Decimal.digits n) =
      if n < 2 ^ 63 then some (n, []) else none := by
    unfold Decimal.readNat
    rw [Decimal.takeWhile_digits, Decimal.dropWhile_digits, Decimal.ofDigitChars_digits,
      if_neg (Decimal.digits_ne_nil n)]
  unfold readIndex
  split
  · next s h => exact absurd h (hsign s)
  · rw [hread]
    by_cases h : n < 2 ^ 63
    · rw [if_pos h, if_pos h]
    · rw [if_neg h, if_neg h]

theorem indexRange_map {α β : Type} (f : α → β) (all : List α) (start stop : Int) :
    indexRange (all.map f) start stop = (indexRange all start stop).map f := by
  unfold indexRange
  simp only [List.length_map, ← List.map_drop, ← List.map_take]
  rw [apply_ite (List.map f), List.map_nil]

theorem indexRange_slice {α : Type} (all : List α) (start stop : Nat) :
    indexRange all start stop = Pages.slice all start (stop + 1 - start) := by
  unfold indexRange
  simp only [Int.natCast_nonneg, not_lt.mpr, if_false]
  by_cases hout : (start : Int) > stop ∨ (start : Int) ≥ all.length
  · rw [if_pos hout]
    rcases hout with h | h
    · unfold Pages.slice
      rw [show stop + 1 - start = 0 by omega, List.take_zero]
    · rw [Pages.slice_past (by omega)]
  · rw [if_neg hout, ← Pages.slice_min]
    unfold Pages.slice
    split
    · congr 1
      omega
    · congr 1
      omega

theorem indexRange_last {α : Type} (all : List α) (start : Nat) :
    indexRange all start (-1) = all.drop start := by
  unfold indexRange
  simp only [Int.natCast_nonneg, not_lt.mpr, if_false, show (-1 : Int) < 0 by decide, if_true]
  by_cases hout : all.length ≤ start
  · rw [if_pos (by omega), List.drop_eq_nil_of_le hout]
  · rw [if_neg (by omega), if_neg (by omega)]
    exact List.take_of_length_le (by rw [List.length_drop]; simp; omega)

namespace RedisQuery

/-- The whole board as `top` hands it over. -/
def ranked (set : SortedSet S) (write : S → Text) : List (Text × UInt64) :=
  (set.descending write).map fun e => (e.1, elementScore e.2)

theorem pairs_elements (l : List (Text × Text)) :
    pairs (l.flatMap fun e => [e.1, e.2]) = l.map fun e => (e.1, elementScore e.2) := by
  induction l with
  | nil => rfl
  | cons e l ih =>
    rw [List.flatMap_cons, List.map_cons, ← ih]
    rfl

/-- What `top` makes of two indices. -/
theorem top_indices (boards : Text → SortedSet S) (write : S → Text) (board : Text)
    (offset limit : UInt64) :
    top (fun argv => some (serveBoards boards write argv)) board offset limit =
      (match readIndex (Decimal.digits offset.toNat),
        readIndex (if limit = 0 then "-1".toList
          else Decimal.digits (offset + limit - 1).toNat) with
      | some start, some stop =>
        some (indexRange (ranked (boards board) write) start stop,
          .ofNat (boards board).entries.length)
      | _, _ => none) := by
  have hcard : serveBoards boards write ["ZCARD".toList, board] =
      .integer (boards board).entries.length := by
    unfold serveBoards
    exact if_pos rfl
  have hrange : ∀ start stop : Text,
      serveBoards boards write ["ZREVRANGE".toList, board, start, stop, "WITHSCORES".toList] =
        match readIndex start, readIndex stop with
        | some start, some stop => .array ((indexRange ((boards board).descending write)
            start stop).flatMap fun e => [e.1, e.2])
        | _, _ => .error := by
    intro start stop
    unfold serveBoards
    exact if_pos ⟨rfl, rfl⟩
  unfold top command
  simp only [hcard, hrange, Option.bind_eq_bind, Option.bind_some, appendNumber, List.nil_append]
  generalize readIndex (if limit = 0 then _ else _) = stop
  cases readIndex (Decimal.digits offset.toNat) with
  | none => rfl
  | some start =>
    cases stop with
    | none => rfl
    | some stop =>
      simp [pairs_elements, ranked, indexRange_map]

/-- When the indices of a page are ones the server takes and mean the page. -/
def IndicesFit (size : Nat) (offset limit : UInt64) : Prop :=
  offset.toNat < 2 ^ 63 ∧
    (limit = 0 ∨ offset.toNat + limit.toNat - 1 < 2 ^ 63 ∨
      (2 ^ 64 ≤ offset.toNat + limit.toNat - 1 ∧ size ≤ offset.toNat))

theorem toNat_stop {offset limit : UInt64} (h : limit ≠ 0) :
    (offset + limit - 1).toNat = (offset.toNat + limit.toNat - 1) % 2 ^ 64 := by
  have hl : limit.toNat ≠ 0 := fun h0 => h (UInt64.toNat.inj h0)
  have ho := offset.toNat_lt
  have hlt := limit.toNat_lt
  rw [UInt64.toNat_sub, UInt64.toNat_add]
  change (2 ^ 64 - 1 + _) % 2 ^ 64 = _
  omega

/-- `top` hands over the page and the size of the board. -/
def TopIsPage (boards : Text → SortedSet S) (write : S → Text) (board : Text)
    (params : QueryParams) : Prop :=
  ∃ count, top (fun argv => some (serveBoards boards write argv)) board params.offset
      params.limit = some (page (ranked (boards board) write) params, count) ∧
    count.toNat = (boards board).entries.length

theorem length_ranked (set : SortedSet S) (write : S → Text) :
    (ranked set write).length = set.entries.length := by
  unfold ranked SortedSet.descending
  simp

theorem page_eq_nil {α : Type} {all : List α} {params : QueryParams} (h : params.limit ≠ 0) :
    page all params = [] ↔ all.length ≤ params.offset.toNat := by
  have hl : params.limit.toNat ≠ 0 := fun h0 => h (UInt64.toNat.inj h0)
  rw [page_eq_slice all h]
  unfold Pages.slice
  rw [List.take_eq_nil_iff, List.drop_eq_nil_iff]
  exact or_iff_right hl

/-- Without a limit everything from the offset on is read. -/
theorem top_unlimited (boards : Text → SortedSet S) (write : S → Text) (board : Text)
    {offset limit : UInt64} (ho : offset.toNat < 2 ^ 63) (hl : limit = 0) :
    top (fun argv => some (serveBoards boards write argv)) board offset limit =
      some ((ranked (boards board) write).drop offset.toNat,
        .ofNat (boards board).entries.length) := by
  have hlast : readIndex "-1".toList = some (-1) := by decide
  rw [top_indices, readIndex_digits, if_pos ho, if_pos hl, hlast]
  dsimp only
  rw [indexRange_last]

/-- The stop index is the last of the page. -/
theorem top_within (boards : Text → SortedSet S) (write : S → Text) (board : Text)
    {offset limit : UInt64} (ho : offset.toNat < 2 ^ 63) (hl : limit ≠ 0)
    (hs : offset.toNat + limit.toNat - 1 < 2 ^ 63) :
    top (fun argv => some (serveBoards boards write argv)) board offset limit =
      some (Pages.slice (ranked (boards board) write) offset.toNat limit.toNat,
        .ofNat (boards board).entries.length) := by
  have hl0 : limit.toNat ≠ 0 := fun h0 => hl (UInt64.toNat.inj h0)
  have hmod : (offset.toNat + limit.toNat - 1) % 2 ^ 64 = offset.toNat + limit.toNat - 1 :=
    Nat.mod_eq_of_lt (by omega)
  rw [top_indices, readIndex_digits, if_pos ho, if_neg hl, toNat_stop hl, readIndex_digits, hmod,
    if_pos hs]
  dsimp only
  rw [indexRange_slice, show offset.toNat + limit.toNat - 1 + 1 - offset.toNat = limit.toNat by
    omega]

/-- The stop index has come round and lies before the start. -/
theorem top_wrapped (boards : Text → SortedSet S) (write : S → Text) (board : Text)
    {offset limit : UInt64} (ho : offset.toNat < 2 ^ 63) (hl : limit ≠ 0)
    (hs : 2 ^ 64 ≤ offset.toNat + limit.toNat - 1) :
    top (fun argv => some (serveBoards boards write argv)) board offset limit =
      some ([], .ofNat (boards board).entries.length) := by
  have hlt := limit.toNat_lt
  have hwrap : (offset.toNat + limit.toNat - 1) % 2 ^ 64 < offset.toNat := by omega
  rw [top_indices, readIndex_digits, if_pos ho, if_neg hl, toNat_stop hl, readIndex_digits,
    if_pos (by omega)]
  dsimp only
  rw [indexRange_slice, show (offset.toNat + limit.toNat - 1) % 2 ^ 64 + 1 - offset.toNat = 0 by
    omega]
  rfl

/-- One of the indices is none the server takes. -/
theorem top_refused (boards : Text → SortedSet S) (write : S → Text) (board : Text)
    {offset limit : UInt64}
    (h : 2 ^ 63 ≤ offset.toNat ∨ limit ≠ 0 ∧ 2 ^ 63 ≤ offset.toNat + limit.toNat - 1 ∧
      offset.toNat + limit.toNat - 1 < 2 ^ 64) :
    top (fun argv => some (serveBoards boards write argv)) board offset limit = none := by
  rw [top_indices, readIndex_digits]
  by_cases ho : offset.toNat < 2 ^ 63
  · obtain ⟨hl, hs, hsum⟩ := h.resolve_left (not_le.mpr ho)
    rw [if_pos ho, if_neg hl, toNat_stop hl, readIndex_digits, Nat.mod_eq_of_lt hsum,
      if_neg (not_lt.mpr hs)]
  · rw [if_neg ho]

/-- **Paging by the store.**  On a store that answers, `top` agrees with the page cut off the
whole board exactly when the indices it sends fit the server. -/
theorem top_is_page_iff (boards : Text → SortedSet S) (write : S → Text) (board : Text)
    (params : QueryParams) :
    TopIsPage boards write board params ↔
      IndicesFit (boards board).entries.length params.offset params.limit := by
  have hsize := (boards board).size
  have hcount : (UInt64.ofNat (boards board).entries.length).toNat =
      (boards board).entries.length := by
    rw [UInt64.toNat_ofNat']
    exact Nat.mod_eq_of_lt (by omega)
  have hlen := length_ranked (boards board) write
  unfold TopIsPage IndicesFit
  by_cases ho : params.offset.toNat < 2 ^ 63
  · by_cases hl : params.limit = 0
    · rw [top_unlimited boards write board ho hl, page_unlimited _ hl]
      exact ⟨fun _ => ⟨ho, .inl hl⟩, fun _ => ⟨_, rfl, hcount⟩⟩
    · by_cases hs : params.offset.toNat + params.limit.toNat - 1 < 2 ^ 63
      · rw [top_within boards write board ho hl hs, page_eq_slice _ hl]
        exact ⟨fun _ => ⟨ho, .inr (.inl hs)⟩, fun _ => ⟨_, rfl, hcount⟩⟩
      · by_cases hsum : params.offset.toNat + params.limit.toNat - 1 < 2 ^ 64
        · rw [top_refused boards write board (.inr ⟨hl, not_lt.mp hs, hsum⟩)]
          constructor
          · rintro ⟨_, h, -⟩
            cases h
          · rintro ⟨-, h | h | h⟩
            · exact absurd h hl
            · exact absurd h hs
            · exact absurd h.1 (not_le.mpr hsum)
        · -- nothing comes back, which is the page only past the end of the board
          rw [top_wrapped boards write board ho hl (not_lt.mp hsum)]
          constructor
          · rintro ⟨count, h, -⟩
            have hnil : page (ranked (boards board) write) params = [] :=
              (Prod.mk.inj (Option.some.inj h)).1.symm
            rw [page_eq_nil hl, hlen] at hnil
            exact ⟨ho, .inr (.inr ⟨not_lt.mp hsum, hnil⟩)⟩
          · rintro ⟨-, h⟩
            have hpast : (boards board).entries.length ≤ params.offset.toNat := by
              rcases h with h | h | h
              · exact absurd h hl
              · exact absurd h hs
              · exact h.2
            refine ⟨_, ?_, hcount⟩
            rw [page_past (by rwa [hlen])]
  · rw [top_refused boards write board (.inl (not_lt.mp ho))]
    constructor
    · rintro ⟨_, h, -⟩
      cases h
    · exact fun h => absurd h.1 ho

/-- Three members of the calls board. -/
def callsBoard : SortedSet Nat where
  entries := [toLex (3, "1".toList), toLex (3, "2".toList), toLex (40, "7".toList)]
  ascending := by decide
  members := by decide
  size := by decide

theorem top_is_page_iff_second :
    TopIsPage (fun _ => callsBoard) Decimal.digits kVoiceBoard { offset := 1, limit := 1 } :=
  (top_is_page_iff (fun _ => callsBoard) Decimal.digits kVoiceBoard _).mpr (by
    unfold IndicesFit
    decide)

/-- An offset of 2^63 is accepted and comes back as a store out of reach. -/
theorem far_offset_is_refused :
    ¬ ∀ (boards : Text → SortedSet Nat) (write : Nat → Text) (board : Text) (req : Params)
      (fallback cap : UInt64) (params : QueryParams),
      parseParams req fallback cap = .ok params → TopIsPage boards write board params := by
  intro h
  have hp : parseParams [("offset".toList, "9223372036854775808".toList)] kTopLimit
      kTopLimitMax = .ok { offset := 9223372036854775808, limit := 20 } := by decide
  obtain ⟨count, htop, -⟩ := h (fun _ => callsBoard) Decimal.digits kVoiceBoard _ _ _ _ hp
  have hnone : top (fun argv => some (serveBoards (fun _ => callsBoard) Decimal.digits argv))
      kVoiceBoard 9223372036854775808 20 = none := by decide +kernel
  rw [hnone] at htop
  cases htop

end RedisQuery

end CdrProcessor
