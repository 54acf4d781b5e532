import CdrProcessor.Fields

/-! `parseDateTime` against the calendar: what it returns for a date and a time that exist,
and what else it takes. -/

namespace CdrProcessor.Parser

open Decimal

/-! ## The calendar -/

theorem dayCount_epoch : Calendar.dayCount 1970 1 1 = 719528 := by
  unfold Calendar.dayCount
  rw [Calendar.sum_yearDays]
  rfl

/-- The formula for a month's first day is the count of the days before it. -/
theorem daysToMonth_eq (year month : Nat) (hm : 1 ≤ month ∧ month ≤ 12) :
    daysToMonth year month = (Calendar.dayCount year month 1 : Int) - 719528 := by
  have hmonths := Calendar.sum_monthDays year month hm
  unfold Calendar.dayCount
  rw [Calendar.sum_yearDays, hmonths]
  unfold daysToMonth Calendar.isLeap
  by_cases h2 : month ≤ 2
  · have h2' : (month : Int) ≤ 2 := by omega
    simp only [h2', if_true, not_lt.mpr h2, not_lt.mpr h2', if_false, false_and]
    omega
  · have h2' : ¬ (month : Int) ≤ 2 := by omega
    simp only [h2', if_false, not_le.mp h2, not_le.mp h2', if_true, true_and]
    by_cases hl : year % 4 = 0 ∧ (year % 100 ≠ 0 ∨ year % 400 = 0)
    · rw [if_pos hl]
      omega
    · rw [if_neg hl]
      omega

/-- **`timegm` counts seconds by the calendar**, a day past its month's end running on. -/
theorem timegm_eq (year month day hour minute second : Nat) (hm : 1 ≤ month ∧ month ≤ 12)
    (hd : 1 ≤ day) :
    timegm year month day hour minute second
      = Calendar.unixSecond year month day hour minute second := by
  have hday : Calendar.dayCount year month day = Calendar.dayCount year month 1 + (day - 1) := by
    unfold Calendar.dayCount
    omega
  unfold timegm Calendar.unixSecond
  rw [daysToMonth_eq year month hm, dayCount_epoch, hday]
  omega

/-! ## The texts -/

/-- "DD/MM/YYYY", every letter a digit, of a day the calendar has. -/
def NamesDate (date : Text) (year month day : Nat) : Prop :=
  ∃ dd mm yyyy, date = dd ++ '/' :: (mm ++ '/' :: yyyy) ∧
    (dd.length = 2 ∧ mm.length = 2 ∧ yyyy.length = 4) ∧
    (AllDigits dd ∧ AllDigits mm ∧ AllDigits yyyy) ∧
    (value dd = day ∧ value mm = month ∧ value yyyy = year) ∧ Calendar.IsDate year month day

/-- "HH:MM:SS", every letter a digit, of a second of the day. -/
def NamesTime (time : Text) (hour minute second : Nat) : Prop :=
  ∃ hh mm ss, time = hh ++ ':' :: (mm ++ ':' :: ss) ∧
    (hh.length = 2 ∧ mm.length = 2 ∧ ss.length = 2) ∧
    (AllDigits hh ∧ AllDigits mm ∧ AllDigits ss) ∧
    (value hh = hour ∧ value mm = minute ∧ value ss = second) ∧
    (hour ≤ 23 ∧ minute ≤ 59 ∧ second ≤ 59)

/-- Two characters that open with a number from `lo` to `hi`: two digits, a digit in front
of anything else, or, where 0 will do, a minus sign in front of it. -/
def Opens (lo hi : Nat) : Text → Prop
  | [a, b] =>
    (a.isDigit = true ∧ b.isDigit = true ∧ lo ≤ value [a, b] ∧ value [a, b] ≤ hi) ∨
      (a.isDigit = true ∧ b.isDigit = false ∧ lo ≤ value [a] ∧ value [a] ≤ hi) ∨
      (a = '-' ∧ b = '0' ∧ lo = 0)
  | _ => False

/-- Four characters that open with a digit, or with a minus sign and a digit. -/
def OpensYear : Text → Prop
  | [a, b, _, _] => a.isDigit = true ∨ (a = '-' ∧ b.isDigit = true)
  | _ => False

theorem fromCharsInt_digits {s : Text} (hne : s ≠ []) (h : AllDigits s) (hv : value s < 2 ^ 31) :
    fromCharsInt s = some (value s : Int) := by
  have hr : readNat (2 ^ 31) s = some (value s, []) := readNat_whole.mpr ⟨hne, h, rfl, hv⟩
  unfold fromCharsInt
  split
  · have := h '-' List.mem_cons_self
    cases this
  · rw [hr]
    rfl

theorem fromCharsInt_minus (rest : Text) :
    fromCharsInt ('-' :: rest) = (readNat (2 ^ 31 + 1) rest).map fun p => -(p.1 : Int) := rfl

theorem fromCharsInt_plain {a : Char} (ha : a ≠ '-') (rest : Text) :
    fromCharsInt (a :: rest) = (readNat (2 ^ 31) (a :: rest)).map fun p => (p.1 : Int) := by
  unfold fromCharsInt
  split
  · next h => exact absurd (List.cons.inj h).1 ha
  · rfl

theorem readNat_none {bound : Nat} {a : Char} {rest : Text} (ha : a.isDigit = false) :
    readNat bound (a :: rest) = none := by
  unfold readNat
  rw [List.takeWhile_cons_of_neg (by rw [ha]; decide)]
  exact if_pos rfl

/-- A number ends where the digits do. -/
theorem readNat_pair {bound : Nat} {a b : Char} (ha : a.isDigit = true) (hb : b.isDigit = false)
    (hv : value [a] < bound) : readNat bound [a, b] = some (value [a], [b]) := by
  unfold readNat
  simp only [List.takeWhile_cons_of_pos ha, List.dropWhile_cons_of_pos ha,
    List.takeWhile_cons_of_neg (show ¬ b.isDigit = true by rw [hb]; decide),
    List.dropWhile_cons_of_neg (show ¬ b.isDigit = true by rw [hb]; decide)]
  exact if_pos hv

theorem value_lt_ten {c : Char} (hc : c.isDigit = true) : value [c] < 10 :=
  value_lt (s := [c]) (by simpa [AllDigits] using hc)

theorem value_eq_zero {b : Char} (hb : b.isDigit = true) : value [b] = 0 ↔ b = '0' := by
  have h0 := (Char.isDigit_iff_toNat.mp hb).1
  have hv : value [b] = b.toNat - '0'.toNat := by
    unfold value
    rw [Nat.ofDigitChars_cons, Nat.ofDigitChars_nil, Nat.mul_zero, Nat.zero_add]
  rw [hv]
  constructor
  · intro h
    exact Char.toNat_inj.mp (by omega)
  · rintro rfl
    rfl

/-- What two characters open with lies between two bounds. -/
theorem opens_iff {lo hi : Nat} {s : Text} (hs : s.length = 2) :
    ((lo : Int) ≤ (fromCharsInt s).getD (-1) ∧ (fromCharsInt s).getD (-1) ≤ hi) ↔
      Opens lo hi s := by
  obtain ⟨a, b, rfl⟩ := List.length_eq_two.mp hs
  simp only [Opens]
  by_cases hm : a = '-'
  · subst hm
    rw [fromCharsInt_minus]
    cases hb : b.isDigit with
    | true =>
      have hr : readNat (2 ^ 31 + 1) [b] = some (value [b], []) :=
        readNat_whole.mpr ⟨List.cons_ne_nil _ _, by simpa [AllDigits] using hb, rfl,
          by have := value_lt_ten hb; omega⟩
      have h0 := value_eq_zero hb
      rw [hr, ← h0]
      simp
      omega
    | false =>
      have hb0 : b ≠ '0' := by
        rintro rfl
        cases hb
      rw [readNat_none hb]
      simp [hb0]
      omega
  · rw [fromCharsInt_plain hm]
    cases ha : a.isDigit with
    | true =>
      have hlt := value_lt_ten ha
      cases hb : b.isDigit with
      | true =>
        have hall : AllDigits [a, b] := by simp [AllDigits, ha, hb]
        have hv : value [a, b] < 100 := value_lt hall
        rw [readNat_whole.mpr ⟨List.cons_ne_nil _ _, hall, rfl, by omega⟩]
        simp [hm]
      | false =>
        rw [readNat_pair ha hb (by omega)]
        simp [hm]
    | false =>
      rw [readNat_none ha]
      simp [hm]
      omega

theorem readNat_digit {bound : Nat} {a : Char} {rest : Text} (ha : a.isDigit = true)
    (hb : 10 ^ (rest.length + 1) ≤ bound) : ∃ p, readNat bound (a :: rest) = some p := by
  have hall : AllDigits ((a :: rest).takeWhile Char.isDigit) := fun c hc =>
    List.mem_takeWhile_imp hc
  have hle := (List.takeWhile_sublist (l := a :: rest) Char.isDigit).length_le
  unfold readNat
  rw [if_neg, if_pos]
  · exact ⟨_, rfl⟩
  · refine lt_of_lt_of_le (value_lt hall) (le_trans ?_ hb)
    exact Nat.pow_le_pow_right (by decide) hle
  · rw [List.takeWhile_cons_of_pos ha]
    exact List.cons_ne_nil _ _

theorem opensYear_iff {s : Text} (hs : s.length = 4) :
    (∃ year, fromCharsInt s = some year) ↔ OpensYear s := by
  obtain ⟨a, b, c, d, rfl⟩ : ∃ a b c d, s = [a, b, c, d] := by
    match s, hs with
    | [a, b, c, d], _ => exact ⟨a, b, c, d, rfl⟩
  simp only [OpensYear]
  by_cases hm : a = '-'
  · subst hm
    rw [fromCharsInt_minus]
    cases hb : b.isDigit with
    | true =>
      obtain ⟨p, hp⟩ : ∃ p, readNat (2 ^ 31 + 1) [b, c, d] = some p :=
        readNat_digit hb (by simp)
      rw [hp]
      simp
    | false =>
      rw [readNat_none hb]
      simp
  · rw [fromCharsInt_plain hm]
    cases ha : a.isDigit with
    | true =>
      obtain ⟨p, hp⟩ : ∃ p, readNat (2 ^ 31) [a, b, c, d] = some p :=
        readNat_digit ha (by simp)
      rw [hp]
      simp
    | false =>
      rw [readNat_none ha]
      simp [hm]

/-! ## The split at the marks -/

theorem cut {s : Text} {k : Nat} {c : Char} (hk : k < s.length) (hc : s.getD k ' ' = c) :
    s = s.take k ++ c :: s.drop (k + 1) := by
  rw [List.getD_eq_getElem?_getD, List.getElem?_eq_getElem hk, Option.getD_some] at hc
  rw [← hc, ← List.drop_eq_getElem_cons hk, List.take_append_drop]

/-- Two characters, a mark, two more, the same mark, and the rest. -/
theorem cut_twice {s : Text} {mark : Char} (hlen : 6 ≤ s.length) (h2 : s.getD 2 ' ' = mark)
    (h5 : s.getD 5 ' ' = mark) :
    s = s.take 2 ++ mark :: ((s.drop 3).take 2 ++ mark :: s.drop 6) := by
  have hc := cut (by omega) h2
  have hd : s.drop 3 = (s.drop 3).take 2 ++ mark :: (s.drop 3).drop (2 + 1) := by
    apply cut
    · rw [List.length_drop]
      omega
    · rw [List.getD_eq_getElem?_getD, List.getElem?_drop, ← List.getD_eq_getElem?_getD]
      exact h5
  rw [List.drop_drop] at hd
  rw [← hd]
  exact hc

/-- A date and a time the parser takes have their marks in place. -/
theorem parseDateTime_marks {date time : Text} {t : Int} (h : parseDateTime date time = some t) :
    (∃ dd mm yyyy, date = dd ++ '/' :: (mm ++ '/' :: yyyy) ∧
      dd.length = 2 ∧ mm.length = 2 ∧ yyyy.length = 4) ∧
    ∃ hh mi ss, time = hh ++ ':' :: (mi ++ ':' :: ss) ∧
      hh.length = 2 ∧ mi.length = 2 ∧ ss.length = 2 := by
  unfold parseDateTime at h
  split at h
  · cases h
  · next hlen =>
    split at h
    · cases h
    · next hdate =>
      split at h
      · cases h
      · next htime =>
        rw [not_or, not_not, not_not] at hlen hdate htime
        refine ⟨⟨_, _, _, cut_twice (by omega) hdate.1 hdate.2, ?_, ?_, ?_⟩,
          ⟨_, _, _, cut_twice (by omega) htime.1 htime.2, ?_, ?_, ?_⟩⟩
        all_goals
          simp only [List.length_take, List.length_drop]
          omega

/-- What the parser makes of the numbers between the marks. -/
theorem parseDateTime_parts {dd mm yyyy hh mi ss : Text} {t : Int} (hdd : dd.length = 2)
    (hmm : mm.length = 2) (hyy : yyyy.length = 4) (hhh : hh.length = 2) (hmi : mi.length = 2)
    (hss : ss.length = 2) :
    parseDateTime (dd ++ '/' :: (mm ++ '/' :: yyyy)) (hh ++ ':' :: (mi ++ ':' :: ss)) = some t ↔
      (∃ year, fromCharsInt yyyy = some year ∧
        timegm year ((fromCharsInt mm).getD (-1)) ((fromCharsInt dd).getD (-1))
          ((fromCharsInt hh).getD (-1)) ((fromCharsInt mi).getD (-1))
          ((fromCharsInt ss).getD (-1)) = t) ∧
      (Opens 1 31 dd ∧ Opens 1 12 mm) ∧ (Opens 0 23 hh ∧ Opens 0 59 mi ∧ Opens 0 59 ss) := by
  rw [← opens_iff hdd, ← opens_iff hmm, ← opens_iff hhh, ← opens_iff hmi, ← opens_iff hss]
  obtain ⟨d1, d0, rfl⟩ := List.length_eq_two.mp hdd
  obtain ⟨m1, m0, rfl⟩ := List.length_eq_two.mp hmm
  obtain ⟨h1, h0, rfl⟩ := List.length_eq_two.mp hhh
  obtain ⟨i1, i0, rfl⟩ := List.length_eq_two.mp hmi
  obtain ⟨s1, s0, rfl⟩ := List.length_eq_two.mp hss
  have hdate : ([d1, d0] ++ '/' :: ([m1, m0] ++ '/' :: yyyy)).length = 10 := by simp [hyy]
  have hyear : (([d1, d0] ++ '/' :: ([m1, m0] ++ '/' :: yyyy)).drop 6).take 4 = yyyy :=
    List.take_of_length_le (by simp [hyy])
  unfold parseDateTime
  rw [hdate, hyear]
  simp only [d2, List.cons_append, List.nil_append, List.drop_zero, List.drop_succ_cons,
    List.take_succ_cons, List.take_zero, List.length_cons, List.length_nil, List.getD_cons_succ,
    List.getD_cons_zero, ne_eq, not_true_eq_false, or_false, if_false, Nat.reduceAdd]
  generalize (fromCharsInt [d1, d0]).getD (-1) = mday
  generalize (fromCharsInt [m1, m0]).getD (-1) = mon
  generalize (fromCharsInt [h1, h0]).getD (-1) = hour
  generalize (fromCharsInt [i1, i0]).getD (-1) = min
  generalize (fromCharsInt [s1, s0]).getD (-1) = sec
  cases fromCharsInt yyyy with
  | none => simp
  | some year =>
    simp only [Option.some.injEq, exists_eq_left', Int.sub_add_cancel]
    split
    · constructor
      · intro h
        cases h
      · omega
    · split
      · constructor
        · intro h
          cases h
        · omega
      · split
        · constructor
          · intro h
            cases h
          · omega
        · constructor
          · intro h
            cases h
            exact ⟨rfl, by omega, by omega⟩
          · rintro ⟨rfl, -⟩
            rfl

theorem fromCharsInt_short {s : Text} {n : Nat} (hs : s.length = n + 1) (hn : n ≤ 8)
    (h : AllDigits s) : fromCharsInt s = some (value s : Int) := by
  refine fromCharsInt_digits ?_ h (lt_of_lt_of_le (value_lt h) ?_)
  · rintro rfl
    cases hs
  · rw [hs]
    exact le_trans (Nat.pow_le_pow_right (by decide) (by omega)) (show 10 ^ 9 ≤ 2 ^ 31 by decide)

/-- Two digits open with what they are worth. -/
theorem opens_digits {lo hi : Nat} {s : Text} (hs : s.length = 2) (h : AllDigits s) :
    Opens lo hi s ↔ lo ≤ value s ∧ value s ≤ hi := by
  rw [← opens_iff hs, fromCharsInt_short hs (by decide) h, Option.getD_some]
  omega

/-- **A date and a time that exist are read as the second they name.** -/
theorem parseDateTime_named {date time : Text} {year month day hour minute second : Nat}
    (hd : NamesDate date year month day) (ht : NamesTime time hour minute second) :
    parseDateTime date time = some (Calendar.unixSecond year month day hour minute second) := by
  obtain ⟨dd, mm, yyyy, rfl, ⟨ldd, lmm, lyy⟩, ⟨add, amm, ayy⟩, ⟨rfl, rfl, rfl⟩, hdate⟩ := hd
  obtain ⟨hh, mi, ss, rfl, ⟨lhh, lmi, lss⟩, ⟨ahh, ami, ass⟩, ⟨rfl, rfl, rfl⟩, hhour, hmin, hsec⟩ :=
    ht
  have hm31 := Calendar.monthDays_le (value yyyy) (value mm)
  have hday := hdate.day_le
  rw [parseDateTime_parts ldd lmm lyy lhh lmi lss, opens_digits ldd add, opens_digits lmm amm,
    opens_digits lhh ahh, opens_digits lmi ami, opens_digits lss ass,
    fromCharsInt_short lyy (by decide) ayy, fromCharsInt_short ldd (by decide) add,
    fromCharsInt_short lmm (by decide) amm, fromCharsInt_short lhh (by decide) ahh,
    fromCharsInt_short lmi (by decide) ami, fromCharsInt_short lss (by decide) ass]
  refine ⟨⟨_, rfl, ?_⟩, ⟨⟨hdate.day_pos, by omega⟩, hdate.month_pos, hdate.month_le⟩,
    ⟨Nat.zero_le _, hhour⟩, ⟨Nat.zero_le _, hmin⟩, Nat.zero_le _, hsec⟩
  exact timegm_eq _ _ _ _ _ _ ⟨hdate.month_pos, hdate.month_le⟩ hdate.day_pos

end CdrProcessor.Parser
