import CdrProcessor.Parser
import CdrProcessor.Lib.Calendar

/-! What each helper of `CsvParser` takes, told from the text alone: the split of a line,
a number, a usage code, and the numbers a date and a time open with. -/

namespace CdrProcessor.Parser

open Decimal

/-! ## The split -/

theorem split_last {delim : Char} {str : Text} (h : delim ∉ str) (n : Nat) :
    split delim (n + 1) str = if n = 0 then some [str] else none := by
  unfold split
  rw [List.dropWhile_eq_nil_iff.mpr]
  intro c hc
  rw [decide_eq_true_iff]
  rintro rfl
  exact h hc

theorem split_cons {delim : Char} {f : Text} (h : delim ∉ f) (n : Nat) (rest : Text) :
    split delim (n + 1) (f ++ delim :: rest) = (split delim n rest).map (f :: ·) := by
  rw [split, dropWhile_before h, takeWhile_before h]

/-- A line splits into the one list of separator-free fields it is the join of. -/
theorem split_eq_some {delim : Char} {n : Nat} {str : Text} {fields : List Text} :
    split delim n str = some fields ↔
      fields ≠ [] ∧ fields.length = n ∧ (∀ f ∈ fields, delim ∉ f) ∧
        [delim].intercalate fields = str := by
  constructor
  · intro h
    induction n generalizing str fields with
    | zero => cases h
    | succ n ih =>
      by_cases hd : delim ∈ str
      · obtain ⟨f, rest, rfl, hf⟩ := List.eq_append_cons_of_mem hd
        rw [split_cons hf] at h
        obtain ⟨fs, hfs, rfl⟩ := Option.map_eq_some_iff.mp h
        obtain ⟨hne, hlen, hfree, rfl⟩ := ih hfs
        refine ⟨List.cons_ne_nil _ _, congrArg (· + 1) hlen, ?_, ?_⟩
        · exact List.forall_mem_cons.mpr ⟨hf, hfree⟩
        · rw [List.intercalate_cons_of_ne_nil hne, List.append_assoc, List.singleton_append]
      · rw [split_last hd] at h
        split at h
        · next hn =>
          subst hn
          cases h
          exact ⟨List.cons_ne_nil _ _, rfl, by simpa using hd, List.intercalate_singleton⟩
        · cases h
  · rintro ⟨hne, rfl, hfree, rfl⟩
    induction fields with
    | nil => exact absurd rfl hne
    | cons f fs ih =>
      obtain ⟨hf, hfs⟩ := List.forall_mem_cons.mp hfree
      cases fs with
      | nil =>
        rw [List.intercalate_singleton]
        exact split_last hf 0
      | cons g gs =>
        have hr := ih (List.cons_ne_nil _ _) hfs
        rw [List.intercalate_cons_of_ne_nil (List.cons_ne_nil _ _), List.append_assoc,
          List.singleton_append, List.length_cons, split_cons hf, hr]
        rfl

/-! ## Numbers and codes -/

/-- Nothing but digits, at least one, and a value a counter holds. -/
def IsNumber (s : Text) : Prop := s ≠ [] ∧ AllDigits s ∧ value s < UInt64.size

/-- Nothing but digits, from one up to so many. -/
def IsShort (maxDigits : Nat) (s : Text) : Prop := s ≠ [] ∧ AllDigits s ∧ s.length ≤ maxDigits

instance (s : Text) : Decidable (IsNumber s) := inferInstanceAs (Decidable (_ ∧ _))

instance (m : Nat) (s : Text) : Decidable (IsShort m s) := inferInstanceAs (Decidable (_ ∧ _))

theorem IsShort.isNumber {m : Nat} {s : Text} (h : IsShort m s) (hm : m ≤ 19) : IsNumber s := by
  obtain ⟨hne, hall, hlen⟩ := h
  refine ⟨hne, hall, lt_of_lt_of_le (value_lt hall) ?_⟩
  calc 10 ^ s.length ≤ 10 ^ 19 := Nat.pow_le_pow_right (by decide) (by omega)
    _ ≤ UInt64.size := by decide

theorem fromChars_whole {s : Text} {v : UInt64} :
    fromChars s = some (v, []) ↔ IsNumber s ∧ UInt64.ofNat (value s) = v := by
  rw [fromChars_eq_some]
  constructor
  · rintro ⟨number, rfl, hne, hall, -, hlt, rfl⟩
    rw [List.append_nil]
    exact ⟨⟨hne, hall, hlt⟩, rfl⟩
  · rintro ⟨⟨hne, hall, hlt⟩, rfl⟩
    exact ⟨s, (List.append_nil s).symm, hne, hall, stops_nil, hlt, rfl⟩

/-- A field that may be empty is 0 then; any other is a number within the limits. -/
theorem parseU64_eq_some {s : Text} {optional : Bool} {maxDigits : Nat} {v : UInt64} :
    parseU64 s optional maxDigits = some v ↔
      (s = [] ∧ optional = true ∧ v = 0) ∨
        (IsNumber s ∧ (maxDigits ≠ 0 → s.length ≤ maxDigits) ∧ UInt64.ofNat (value s) = v) := by
  unfold parseU64
  by_cases hs : s = []
  · subst hs
    cases optional <;> simp [IsNumber, eq_comm]
  rw [if_neg hs]
  by_cases hm : maxDigits ≠ 0 ∧ s.length > maxDigits
  · rw [if_pos hm]
    constructor
    · intro h
      cases h
    · rintro (⟨h, -⟩ | ⟨-, h, -⟩)
      · exact absurd h hs
      · have := h hm.1
        omega
  · have hlen : maxDigits ≠ 0 → s.length ≤ maxDigits := by
      intro h0
      by_contra hgt
      exact hm ⟨h0, by omega⟩
    rw [if_neg hm]
    constructor
    · intro h
      split at h
      · next hv =>
        cases h
        obtain ⟨hn, hv⟩ := fromChars_whole.mp hv
        exact .inr ⟨hn, hlen, hv⟩
      · cases h
    · rintro (⟨h, -⟩ | ⟨hn, -, hv⟩)
      · exact absurd h hs
      · rw [fromChars_whole.mpr ⟨hn, hv⟩]

/-- The code of a usage type in a line. -/
def usageCode : UsageType → Text
  | .moc => "MOC".toList
  | .mtc => "MTC".toList
  | .smsMo => "SMS-MO".toList
  | .smsMt => "SMS-MT".toList
  | .d => "D".toList
  | .u => "U".toList
  | .b => "B".toList
  | .x => "X".toList

theorem parseUsage_usageCode (t : UsageType) : parseUsage (usageCode t) = some t := by
  cases t <;> rfl

theorem parseUsage_eq_some {s : Text} {t : UsageType} :
    parseUsage s = some t ↔ s = usageCode t := by
  constructor
  · intro h
    unfold parseUsage at h
    repeat' split at h
    all_goals
      cases h
    all_goals assumption
  · rintro rfl
    exact parseUsage_usageCode t

end CdrProcessor.Parser
