import Mathlib.Data.List.Induction
import Mathlib.Data.List.TakeWhile
import Mathlib.Data.Nat.Digits.Defs

/-! Decimal numbers as text: what `Nat.toDigits 10` writes, and a reader that
takes the longest run of digits and refuses a value past a bound. -/

namespace CdrProcessor.Decimal

/-- The digits of `n`, no leading zero. -/
def digits (n : Nat) : List Char := Nat.toDigits 10 n

/-- Reads the digits `s` opens with.  Nothing when there is none, or when they
are worth `bound` or more; else the value and the text behind the digits. -/
def readNat (bound : Nat) (s : List Char) : Option (Nat × List Char) :=
  if s.takeWhile Char.isDigit = [] then none
  else if Nat.ofDigitChars 10 (s.takeWhile Char.isDigit) 0 < bound then
    some (Nat.ofDigitChars 10 (s.takeWhile Char.isDigit) 0, s.dropWhile Char.isDigit)
  else none

@[simp] theorem digits_ne_nil (n : Nat) : digits n ≠ [] := Nat.toDigits_ne_nil

theorem isDigit_of_mem_digits {n : Nat} {c : Char} (h : c ∈ digits n) : c.isDigit = true :=
  Nat.isDigit_of_mem_toDigits (by decide) (by decide) h

theorem ofDigitChars_digits (n : Nat) : Nat.ofDigitChars 10 (digits n) 0 = n :=
  Nat.ofDigitChars_toDigits (by decide) (by decide)

theorem digits_injective : Function.Injective digits := by
  intro a b h
  rw [← ofDigitChars_digits a, h, ofDigitChars_digits]

theorem not_mem_digits {n : Nat} {c : Char} (hc : c.isDigit = false) : c ∉ digits n := by
  intro h
  rw [isDigit_of_mem_digits h] at hc
  cases hc

/-! ## Texts of nothing but digits -/

/-- What a text of digits is worth. -/
def value (s : List Char) : Nat := Nat.ofDigitChars 10 s 0

/-- Digits and nothing else. -/
def AllDigits (s : List Char) : Prop := ∀ c ∈ s, c.isDigit = true

instance (s : List Char) : Decidable (AllDigits s) :=
  List.decidableBAll (fun c : Char => c.isDigit = true) s

theorem allDigits_digits (n : Nat) : AllDigits (digits n) := fun _ h => isDigit_of_mem_digits h

@[simp] theorem value_digits (n : Nat) : value (digits n) = n := ofDigitChars_digits n

theorem length_digits_le {n w : Nat} (hw : 0 < w) (h : n < 10 ^ w) : (digits n).length ≤ w :=
  Nat.toDigits_length 10 n w hw h

/-- A text that a number before it does not run on into. -/
def Stops (s : List Char) : Prop := ∀ c, s.head? = some c → c.isDigit = false

theorem stops_nil : Stops [] := fun _ h => nomatch h

theorem stops_cons {c : Char} (h : c.isDigit = false) (s : List Char) : Stops (c :: s) := by
  intro d hd
  cases hd
  exact h

theorem stops_dropWhile (s : List Char) : Stops (s.dropWhile Char.isDigit) := by
  intro c hc
  have hneg := List.head?_dropWhile_not Char.isDigit s
  rw [hc] at hneg
  simpa using hneg

theorem AllDigits.takeWhile_append {s rest : List Char} (hs : AllDigits s) (hr : Stops rest) :
    (s ++ rest).takeWhile Char.isDigit = s := by
  rw [List.takeWhile_append_of_pos hs]
  cases rest with
  | nil => rw [List.takeWhile_nil, List.append_nil]
  | cons c rest => rw [List.takeWhile_cons_of_neg (by rw [hr c rfl]; decide), List.append_nil]

theorem AllDigits.dropWhile_append {s rest : List Char} (hs : AllDigits s) (hr : Stops rest) :
    (s ++ rest).dropWhile Char.isDigit = rest := by
  rw [List.dropWhile_append_of_pos hs]
  cases rest with
  | nil => rw [List.dropWhile_nil]
  | cons c rest => rw [List.dropWhile_cons_of_neg (by rw [hr c rfl]; decide)]

theorem takeWhile_digits (n : Nat) : (digits n).takeWhile Char.isDigit = digits n :=
  List.takeWhile_eq_self_iff.mpr (allDigits_digits n)

theorem dropWhile_digits (n : Nat) : (digits n).dropWhile Char.isDigit = [] :=
  List.dropWhile_eq_nil_iff.mpr (allDigits_digits n)

/-! ## Reading -/

/-- What is read is the run of digits in front, what is left is the rest. -/
theorem readNat_eq_some {bound n : Nat} {s rest : List Char} :
    readNat bound s = some (n, rest) ↔
      ∃ number, s = number ++ rest ∧ number ≠ [] ∧ AllDigits number ∧ Stops rest ∧
        value number = n ∧ n < bound := by
  constructor
  · intro h
    unfold readNat at h
    split at h
    · cases h
    · next hne =>
      split at h
      · next hlt =>
        cases h
        refine ⟨s.takeWhile Char.isDigit, List.takeWhile_append_dropWhile.symm, hne, ?_,
          stops_dropWhile s, rfl, hlt⟩
        exact fun c hc => List.mem_takeWhile_imp hc
      · cases h
  · rintro ⟨number, rfl, hne, hall, hstops, rfl, hlt⟩
    unfold readNat
    rw [hall.takeWhile_append hstops, hall.dropWhile_append hstops, if_neg hne]
    exact if_pos hlt

/-- The whole text is read exactly when it is a number below the bound. -/
theorem readNat_whole {bound n : Nat} {s : List Char} :
    readNat bound s = some (n, []) ↔ s ≠ [] ∧ AllDigits s ∧ value s = n ∧ n < bound := by
  rw [readNat_eq_some]
  constructor
  · rintro ⟨number, rfl, hne, hall, -, hvalue, hlt⟩
    rw [List.append_nil]
    exact ⟨hne, hall, hvalue, hlt⟩
  · rintro ⟨hne, hall, hvalue, hlt⟩
    exact ⟨s, (List.append_nil s).symm, hne, hall, stops_nil, hvalue, hlt⟩

/-- **Round trip.**  A number below the bound reads back as itself. -/
theorem readNat_digits (bound n : Nat) (h : n < bound) :
    readNat bound (digits n) = some (n, []) :=
  readNat_whole.mpr ⟨digits_ne_nil n, allDigits_digits n, value_digits n, h⟩

/-! ## What a text of digits is worth -/

theorem digit_le_nine {c : Char} (h : c.isDigit = true) : c.toNat - '0'.toNat ≤ 9 := by
  have h9 := (Char.isDigit_iff_toNat.mp h).2
  simp only [Char.reduceToNat] at h9 ⊢
  omega

theorem ofDigitChars_lt {s : List Char} (h : AllDigits s) (init : Nat) :
    Nat.ofDigitChars 10 s init < 10 ^ s.length * (init + 1) := by
  induction s generalizing init with
  | nil => simp
  | cons c s ih =>
    have hc := digit_le_nine (h c List.mem_cons_self)
    have := ih (fun d hd => h d (List.mem_cons_of_mem _ hd)) (10 * init + (c.toNat - '0'.toNat))
    rw [Nat.ofDigitChars_cons]
    refine lt_of_lt_of_le this ?_
    rw [List.length_cons, Nat.pow_succ, Nat.mul_assoc]
    exact Nat.mul_le_mul_left _ (by omega)

theorem value_lt {s : List Char} (h : AllDigits s) : value s < 10 ^ s.length := by
  have := ofDigitChars_lt h 0
  rwa [Nat.mul_one] at this

/-- Two numbers that open a text before the same kind of mark are told apart. -/
theorem digits_append_inj {a b : Nat} {c d : Char} (hc : c.isDigit = false)
    (hd : d.isDigit = false) {s t : List Char} (h : digits a ++ c :: s = digits b ++ d :: t) :
    a = b ∧ c :: s = d :: t := by
  have ht := congrArg (List.takeWhile Char.isDigit) h
  have hr := congrArg (List.dropWhile Char.isDigit) h
  rw [(allDigits_digits a).takeWhile_append (stops_cons hc s),
    (allDigits_digits b).takeWhile_append (stops_cons hd t)] at ht
  rw [(allDigits_digits a).dropWhile_append (stops_cons hc s),
    (allDigits_digits b).dropWhile_append (stops_cons hd t)] at hr
  exact ⟨digits_injective ht, hr⟩

/-! ## Leading zeros -/

/-- A text without the zeros it opens with. -/
def trim (s : List Char) : List Char := s.dropWhile (· = '0')

theorem value_append (s t : List Char) : value (s ++ t) = 10 ^ t.length * value s + value t := by
  unfold value
  rw [Nat.ofDigitChars_append, Nat.ofDigitChars_eq_ofDigitChars_zero]

theorem value_trim (s : List Char) : value (trim s) = value s := by
  have hz : value (s.takeWhile (· = '0')) = 0 := by
    have hr : s.takeWhile (· = '0') = List.replicate (s.takeWhile (· = '0')).length '0' :=
      List.eq_replicate_of_mem fun c hc => by
        simpa using List.mem_takeWhile_imp hc
    rw [hr]
    unfold value
    rw [Nat.ofDigitChars_replicate_zero, Nat.mul_zero]
  conv_rhs => rw [← List.takeWhile_append_dropWhile (p := (· = '0')) (l := s), value_append, hz]
  simp [trim]

theorem AllDigits.trim {s : List Char} (h : AllDigits s) : AllDigits (trim s) :=
  fun c hc => h c ((List.dropWhile_suffix _).subset hc)

theorem trim_eq_self {s : List Char} : trim s = s ↔ s.head? ≠ some '0' := by
  cases s with
  | nil => simp [Decimal.trim]
  | cons c s =>
    unfold Decimal.trim
    by_cases hc : c = '0'
    · subst hc
      simp only [List.dropWhile_cons, decide_true, if_true, List.head?_cons, ne_eq,
        not_true_eq_false, iff_false]
      intro h
      have := (List.dropWhile_suffix (· = '0') (l := s)).length_le
      rw [h] at this
      simp at this
    · simp [hc]

theorem head_trim (s : List Char) : (trim s).head? ≠ some '0' := by
  unfold Decimal.trim
  intro h
  have := List.head?_dropWhile_not (fun c => decide (c = '0')) s
  rw [h] at this
  simp at this

theorem digitChar_digit {c : Char} (h : c.isDigit = true) :
    Nat.digitChar (c.toNat - '0'.toNat) = c := by
  obtain ⟨h0, h9⟩ := Char.isDigit_iff_toNat.mp h
  have hall : ∀ n < 10, Nat.digitChar n = Char.ofNat ('0'.toNat + n) := by decide
  have hle := digit_le_nine h
  rw [hall _ (by omega), Nat.add_sub_cancel' h0, Char.ofNat_toNat]

/-- **The other way round.**  A number that opens with no zero is what its value writes. -/
theorem digits_value {s : List Char} (h : AllDigits s) (hne : s ≠ []) (hz : s.head? ≠ some '0') :
    digits (value s) = s := by
  induction s using List.reverseRecOn with
  | nil => exact absurd rfl hne
  | append_singleton s c ih =>
    have hc : c.isDigit = true := h c (by simp)
    have hdigit : value [c] = c.toNat - '0'.toNat := by
      unfold value
      rw [Nat.ofDigitChars_cons]
      simp
    have hlt : value [c] < 10 := by
      have := digit_le_nine hc
      omega
    have hone : digits (value [c]) = [c] := by
      unfold digits
      rw [Nat.toDigits_of_lt_base hlt, hdigit]
      rw [digitChar_digit hc]
    by_cases hs : s = []
    · subst hs
      exact hone
    · have hs' : AllDigits s := fun d hd => h d (List.mem_append_left _ hd)
      rw [List.head?_append, Option.or_of_isSome (by simpa using hs)] at hz
      have ih := ih hs' hs hz
      have hpos : 0 < value s := by
        rcases Nat.eq_zero_or_pos (value s) with h0 | h0
        · rw [h0] at ih
          rw [← ih] at hz
          exact absurd rfl hz
        · exact h0
      rw [value_append, List.length_singleton, Nat.pow_one]
      unfold digits at ih hone ⊢
      rw [← Nat.toDigits_append_toDigits (by decide) hpos hlt, ih, hone]

theorem digits_value_trim {s : List Char} (h : AllDigits s) (hz : trim s ≠ []) :
    digits (value s) = trim s := by
  rw [← value_trim]
  exact digits_value h.trim hz (head_trim s)

/-- A text is what its value writes exactly when it opens with no zero. -/
theorem digits_value_eq_self {s : List Char} (h : AllDigits s) (hz : trim s ≠ []) :
    digits (value s) = s ↔ s.head? ≠ some '0' := by
  rw [digits_value_trim h hz, trim_eq_self]

/-- Two numbers are the same when they differ in leading zeros alone. -/
theorem value_eq_iff {s t : List Char} (hs : AllDigits s) (ht : AllDigits t) (hsz : trim s ≠ [])
    (htz : trim t ≠ []) : value s = value t ↔ trim s = trim t := by
  rw [← digits_value_trim hs hsz, ← digits_value_trim ht htz]
  exact digits_injective.eq_iff.symm

end CdrProcessor.Decimal
