import CdrProcessor.Lib.Pages
import CdrProcessor.QueryService

/-! `query_params.cpp`: the parameters of a listing, read off the query string of a request,
and the page they ask for. -/

namespace CdrProcessor

/-- The parameters of an `httplib::Request`, in the order they came. -/
abbrev Params := List (Text × Text)

def kPeerLimit : UInt64 := 100
def kPeerLimitMax : UInt64 := 1000
def kTopLimit : UInt64 := 20
def kTopLimitMax : UInt64 := 500

/-- One parameter of the request, empty when it names none. -/
def param (req : Params) (name : Text) : Text :=
  ((req.find? fun e => e.1 = name).map Prod.snd).getD []

/-- The whole text as a count. -/
def countOf (text : Text) : Option UInt64 :=
  match fromChars text with
  | some (n, []) => some n
  | _ => none

/-- The 400 a refused parameter sends. -/
def refused (name : Text) : Result := ⟨400, Json.error ("bad ".toList ++ name)⟩

/-- A count that may be left out. -/
def countOr (req : Params) (name : Text) (fallback : UInt64) : Except Result UInt64 :=
  let text := param req name
  if text = [] then .ok fallback
  else
    match countOf text with
    | some n => .ok n
    | none => .error (refused name)

/-- `parseParams`: the 400 of the first parameter that is refused, else what the request
holds, the limit clamped to the cap. -/
def parseParams (req : Params) (fallback cap : UInt64) : Except Result QueryParams := do
  let weights := param req "weights".toList
  if weights ≠ [] ∧ weights ≠ "0".toList ∧ weights ≠ "1".toList then
    throw (refused "weights".toList)
  let sort := param req "sort".toList
  if sort ≠ [] ∧ sort ≠ QueryService.kSortDur ∧ sort ≠ QueryService.kSortSms then
    throw (refused "sort".toList)
  let offset ← countOr req "offset".toList 0
  let limit ← countOr req "limit".toList fallback
  return { weights := weights = "1".toList
           sort := if sort = QueryService.kSortSms then .sms else .duration
           offset := offset
           limit := min limit cap }

example : parseParams [("offset".toList, "40".toList), ("limit".toList, "9000".toList)]
    kTopLimit kTopLimitMax = .ok { offset := 40, limit := 500 } := by decide

/-! ## The page -/

/-- A page of the listing, the entries behind the offset up to the limit. -/
theorem page_eq_slice {α : Type} (all : List α) {params : QueryParams} (h : params.limit ≠ 0) :
    page all params = Pages.slice all params.offset.toNat params.limit.toNat := by
  unfold page
  by_cases hend : all.length ≤ params.offset.toNat
  · rw [if_pos hend, Pages.slice_past hend]
  · rw [if_neg hend]
    dsimp only
    rw [if_neg h, ← Pages.slice_min]
    rfl

theorem page_unlimited {α : Type} (all : List α) {params : QueryParams} (h : params.limit = 0) :
    page all params = all.drop params.offset.toNat := by
  unfold page
  by_cases hend : all.length ≤ params.offset.toNat
  · rw [if_pos hend, List.drop_eq_nil_of_le hend]
  · rw [if_neg hend]
    dsimp only
    rw [if_pos h]
    exact Pages.slice_rest (le_refl _)

theorem page_past {α : Type} {all : List α} {params : QueryParams}
    (h : all.length ≤ params.offset.toNat) : page all params = [] :=
  if_pos h

end CdrProcessor
