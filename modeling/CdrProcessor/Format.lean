import CdrProcessor.Dates

/-! The format of a line, stated without the parser, and the lines the parser takes
besides: those with a date or a time that only opens well. -/

namespace CdrProcessor.Parser

open Decimal

/-- The line is twelve fields with a separator between each two. -/
structure SplitsInto (sep : Char) (line : Text) (fields : List Text) : Prop where
  count : fields.length = 12
  free : ∀ f ∈ fields, sep ∉ f
  join : [sep].intercalate fields = line

/-- The ten fields besides the date and the time are as they should be. -/
structure OthersFit (fields : List Text) : Prop where
  sequence : IsNumber (fields.getD 0 [])
  subscriberImsi : IsShort 15 (fields.getD 1 [])
  usage : ∃ t, fields.getD 3 [] = usageCode t
  subscriberMsisdn : IsShort 15 (fields.getD 4 [])
  duration : IsNumber (fields.getD 7 [])
  bytesReceived : fields.getD 8 [] = [] ∨ IsNumber (fields.getD 8 [])
  bytesTransmitted : fields.getD 9 [] = [] ∨ IsNumber (fields.getD 9 [])
  secondPartyImsi : fields.getD 10 [] = [] ∨ IsShort 15 (fields.getD 10 [])
  secondPartyMsisdn : fields.getD 11 [] = [] ∨ IsShort 15 (fields.getD 11 [])

/-- The line is in the format, and its date and time are the second `t`. -/
def InFormat (sep : Char) (line : Text) (t : Int) : Prop :=
  ∃ fields year month day hour minute second, SplitsInto sep line fields ∧ OthersFit fields ∧
    NamesDate (fields.getD 5 []) year month day ∧
    NamesTime (fields.getD 6 []) hour minute second ∧
    t = Calendar.unixSecond year month day hour minute second

/-- The parser takes the line if it is in the format and only then, with the right time. -/
def AcceptsExactly (sep : Char) (line : Text) : Prop :=
  ((∃ r, csvParser sep line = some r) ↔ ∃ t, InFormat sep line t) ∧
    ∀ r t, csvParser sep line = some r → InFormat sep line t → r.callTime = t

/-- The line is right but for its date and time, whose marks are in place and whose numbers
open in range: yet a letter of them is no digit, or the day is past the end of its month. -/
def Slack (sep : Char) (line : Text) : Prop :=
  ∃ fields dd mm yyyy hh mi ss, SplitsInto sep line fields ∧ OthersFit fields ∧
    fields.getD 5 [] = dd ++ '/' :: (mm ++ '/' :: yyyy) ∧
    fields.getD 6 [] = hh ++ ':' :: (mi ++ ':' :: ss) ∧
    (Opens 1 31 dd ∧ Opens 1 12 mm ∧ OpensYear yyyy) ∧
    (Opens 0 23 hh ∧ Opens 0 59 mi ∧ Opens 0 59 ss) ∧
    (¬ AllDigits (dd ++ mm ++ yyyy ++ hh ++ mi ++ ss) ∨
      Calendar.monthDays (value yyyy) (value mm) < value dd)

/-! ## The other ten fields -/

theorem exists_number {s : Text} : (∃ v, parseU64 s = some v) ↔ IsNumber s := by
  simp [parseU64_eq_some]

theorem exists_short {s : Text} : (∃ v, parseU64 s false 15 = some v) ↔ IsShort 15 s := by
  simp only [parseU64_eq_some]
  constructor
  · rintro ⟨v, ⟨-, h, -⟩ | ⟨hn, hlen, -⟩⟩
    · cases h
    · exact ⟨hn.1, hn.2.1, hlen (by decide)⟩
  · intro h
    exact ⟨_, .inr ⟨h.isNumber (by decide), fun _ => h.2.2, rfl⟩⟩

theorem exists_count {s : Text} : (∃ v, parseU64 s true = some v) ↔ s = [] ∨ IsNumber s := by
  simp only [parseU64_eq_some]
  constructor
  · rintro ⟨v, ⟨h, -⟩ | ⟨hn, -⟩⟩
    · exact .inl h
    · exact .inr hn
  · rintro (h | hn)
    · exact ⟨0, .inl ⟨h, trivial, rfl⟩⟩
    · exact ⟨_, .inr ⟨hn, fun h0 => absurd rfl h0, rfl⟩⟩

theorem exists_party {s : Text} :
    (∃ v, parseU64 s true 15 = some v) ↔ s = [] ∨ IsShort 15 s := by
  simp only [parseU64_eq_some]
  constructor
  · rintro ⟨v, ⟨h, -⟩ | ⟨hn, hlen, -⟩⟩
    · exact .inl h
    · exact .inr ⟨hn.1, hn.2.1, hlen (by decide)⟩
  · rintro (h | hn)
    · exact ⟨0, .inl ⟨h, trivial, rfl⟩⟩
    · exact ⟨_, .inr ⟨hn.isNumber (by decide), fun _ => hn.2.2, rfl⟩⟩

/-- The fields are taken when ten of them fit and the two others make a time. -/
theorem parseFields_eq_some {fields : List Text} {t : Int} :
    (∃ r, parseFields fields = some r ∧ r.callTime = t) ↔
      OthersFit fields ∧ parseDateTime (fields.getD 5 []) (fields.getD 6 []) = some t := by
  constructor
  · rintro ⟨r, hr, rfl⟩
    unfold parseFields at hr
    simp only [Option.bind_eq_bind, Option.bind_eq_some_iff, kMaxImsiDigits,
      kMaxMsisdnDigits] at hr
    obtain ⟨_, h0, _, h1, _, h3, _, h4, time, htime, _, h7, _, h8, _, h9, _, h10, _, h11, hr⟩ := hr
    cases hr
    exact ⟨{
      sequence := exists_number.mp ⟨_, h0⟩
      subscriberImsi := exists_short.mp ⟨_, h1⟩
      usage := ⟨_, parseUsage_eq_some.mp h3⟩
      subscriberMsisdn := exists_short.mp ⟨_, h4⟩
      duration := exists_number.mp ⟨_, h7⟩
      bytesReceived := exists_count.mp ⟨_, h8⟩
      bytesTransmitted := exists_count.mp ⟨_, h9⟩
      secondPartyImsi := exists_party.mp ⟨_, h10⟩
      secondPartyMsisdn := exists_party.mp ⟨_, h11⟩ }, htime⟩
  · rintro ⟨h, htime⟩
    obtain ⟨_, h0⟩ := exists_number.mpr h.sequence
    obtain ⟨_, h1⟩ := exists_short.mpr h.subscriberImsi
    obtain ⟨_, h3⟩ := h.usage
    obtain ⟨_, h4⟩ := exists_short.mpr h.subscriberMsisdn
    obtain ⟨_, h7⟩ := exists_number.mpr h.duration
    obtain ⟨_, h8⟩ := exists_count.mpr h.bytesReceived
    obtain ⟨_, h9⟩ := exists_count.mpr h.bytesTransmitted
    obtain ⟨_, h10⟩ := exists_party.mpr h.secondPartyImsi
    obtain ⟨_, h11⟩ := exists_party.mpr h.secondPartyMsisdn
    unfold parseFields
    simp only [kMaxImsiDigits, kMaxMsisdnDigits]
    rw [h0, h1, parseUsage_eq_some.mpr h3, h4, htime, h7, h8, h9, h10, h11]
    exact ⟨_, rfl, rfl⟩

theorem splitsInto_iff {sep : Char} {line : Text} {fields : List Text} :
    SplitsInto sep line fields ↔ split sep kFieldCount line = some fields := by
  constructor
  · intro h
    have hne : fields ≠ [] := by
      rintro rfl
      cases h.count
    exact split_eq_some.mpr ⟨hne, h.count, h.free, h.join⟩
  · intro h
    obtain ⟨-, hcount, hfree, hjoin⟩ := split_eq_some.mp h
    exact ⟨hcount, hfree, hjoin⟩

theorem SplitsInto.unique {sep : Char} {line : Text} {fields fields' : List Text}
    (h : SplitsInto sep line fields) (h' : SplitsInto sep line fields') : fields = fields' := by
  have hs := splitsInto_iff.mp h'
  rw [splitsInto_iff.mp h] at hs
  exact Option.some.inj hs

/-- The whole line: a split, ten fields that fit and a time out of the two others. -/
theorem csvParser_eq_some {sep : Char} {line : Text} {t : Int} :
    (∃ r, csvParser sep line = some r ∧ r.callTime = t) ↔
      ∃ fields, SplitsInto sep line fields ∧ OthersFit fields ∧
        parseDateTime (fields.getD 5 []) (fields.getD 6 []) = some t := by
  unfold csvParser
  constructor
  · rintro ⟨r, hr, ht⟩
    obtain ⟨fields, hs, hf⟩ := Option.bind_eq_some_iff.mp hr
    exact ⟨fields, splitsInto_iff.mpr hs, parseFields_eq_some.mp ⟨r, hf, ht⟩⟩
  · rintro ⟨fields, hs, hf⟩
    obtain ⟨r, hr, ht⟩ := parseFields_eq_some.mpr hf
    refine ⟨r, ?_, ht⟩
    rw [splitsInto_iff.mp hs]
    exact hr

/-! ## Exactly the format, but for the slack -/

/-- A line of the format is taken, with its time. -/
theorem csvParser_of_inFormat {sep : Char} {line : Text} {t : Int} (h : InFormat sep line t) :
    ∃ r, csvParser sep line = some r ∧ r.callTime = t := by
  obtain ⟨fields, year, month, day, hour, minute, second, hs, hf, hd, ht, hsecond⟩ := h
  have htime := parseDateTime_named hd ht
  rw [← hsecond] at htime
  exact csvParser_eq_some.mpr ⟨fields, hs, hf, htime⟩

/-- A line that is taken opens well, and is of the format unless it has the slack. -/
theorem inFormat_of_csvParser {sep : Char} {line : Text} {r : CdrRecord}
    (h : csvParser sep line = some r) (hslack : ¬ Slack sep line) :
    ∃ t, InFormat sep line t := by
  obtain ⟨fields, hs, hf, hdt⟩ := csvParser_eq_some.mp ⟨r, h, rfl⟩
  obtain ⟨⟨dd, mm, yyyy, hdate, ldd, lmm, lyy⟩, hh, mi, ss, htime, lhh, lmi, lss⟩ :=
    parseDateTime_marks hdt
  rw [hdate, htime, parseDateTime_parts ldd lmm lyy lhh lmi lss] at hdt
  obtain ⟨⟨year, hyear, -⟩, ⟨odd, omm⟩, ohh, omi, oss⟩ := hdt
  have hstrict : AllDigits (dd ++ mm ++ yyyy ++ hh ++ mi ++ ss) ∧
      value dd ≤ Calendar.monthDays (value yyyy) (value mm) := by
    by_contra hno
    refine hslack ⟨fields, dd, mm, yyyy, hh, mi, ss, hs, hf, hdate, htime,
      ⟨odd, omm, (opensYear_iff lyy).mp ⟨year, hyear⟩⟩, ⟨ohh, omi, oss⟩, ?_⟩
    by_cases hall : AllDigits (dd ++ mm ++ yyyy ++ hh ++ mi ++ ss)
    · exact .inr (by by_contra hle; exact hno ⟨hall, by omega⟩)
    · exact .inl hall
  obtain ⟨hall, hday⟩ := hstrict
  unfold AllDigits at hall
  simp only [List.forall_mem_append] at hall
  obtain ⟨⟨⟨⟨⟨add, amm⟩, ayy⟩, ahh⟩, ami⟩, ass⟩ := hall
  obtain ⟨hd1, -⟩ := (opens_digits ldd add).mp odd
  obtain ⟨hm1, hm12⟩ := (opens_digits lmm amm).mp omm
  exact ⟨_, fields, _, _, _, _, _, _, hs, hf,
    ⟨dd, mm, yyyy, hdate, ⟨ldd, lmm, lyy⟩, ⟨add, amm, ayy⟩, ⟨rfl, rfl, rfl⟩, hm1, hm12, hd1, hday⟩,
    ⟨hh, mi, ss, htime, ⟨lhh, lmi, lss⟩, ⟨ahh, ami, ass⟩, ⟨rfl, rfl, rfl⟩,
      ((opens_digits lhh ahh).mp ohh).2, ((opens_digits lmi ami).mp omi).2,
      ((opens_digits lss ass).mp oss).2⟩, rfl⟩

theorem Opens.length {lo hi : Nat} {s : Text} (h : Opens lo hi s) : s.length = 2 := by
  unfold Opens at h
  split at h
  · rfl
  · exact h.elim

theorem OpensYear.length {s : Text} (h : OpensYear s) : s.length = 4 := by
  unfold OpensYear at h
  split at h
  · rfl
  · exact h.elim

/-- Two characters, a mark, two more, the mark, the rest: in one way only. -/
theorem marked_inj {a b c a' b' c' : Text} {mark : Char} (ha : a.length = a'.length)
    (hb : b.length = b'.length)
    (h : a ++ mark :: (b ++ mark :: c) = a' ++ mark :: (b' ++ mark :: c')) :
    a = a' ∧ b = b' ∧ c = c' := by
  obtain ⟨rfl, h1⟩ := List.append_inj h ha
  obtain ⟨rfl, h2⟩ := List.append_inj (List.cons.inj h1).2 hb
  exact ⟨rfl, rfl, (List.cons.inj h2).2⟩

/-- The slack is taken though it is not of the format. -/
theorem not_acceptsExactly_of_slack {sep : Char} {line : Text} (h : Slack sep line) :
    ¬ AcceptsExactly sep line := by
  obtain ⟨fields, dd, mm, yyyy, hh, mi, ss, hs, hf, hdate, htime, ⟨odd, omm, oyy⟩,
    ⟨ohh, omi, oss⟩, hbad⟩ := h
  obtain ⟨year, hyear⟩ := (opensYear_iff oyy.length).mpr oyy
  have htaken := (parseDateTime_parts odd.length omm.length oyy.length ohh.length omi.length
    oss.length).mpr ⟨⟨year, hyear, rfl⟩, ⟨odd, omm⟩, ohh, omi, oss⟩
  rw [← hdate, ← htime] at htaken
  obtain ⟨r, hr, -⟩ := csvParser_eq_some.mpr ⟨fields, hs, hf, htaken⟩
  rintro ⟨hiff, -⟩
  obtain ⟨t, fields', _, _, _, _, _, _, hs', -, hd, ht, -⟩ := hiff.mp ⟨r, hr⟩
  obtain rfl := hs.unique hs'
  obtain ⟨dd', mm', yyyy', hdate', ⟨ldd, lmm, -⟩, ⟨add, amm, ayy⟩, ⟨rfl, rfl, rfl⟩, hisDate⟩ := hd
  obtain ⟨hh', mi', ss', htime', ⟨lhh, lmi, -⟩, ⟨ahh, ami, ass⟩, -⟩ := ht
  rw [hdate] at hdate'
  rw [htime] at htime'
  obtain ⟨rfl, rfl, rfl⟩ := marked_inj (odd.length.trans ldd.symm) (omm.length.trans lmm.symm) hdate'
  obtain ⟨rfl, rfl, rfl⟩ := marked_inj (ohh.length.trans lhh.symm) (omi.length.trans lmi.symm) htime'
  rcases hbad with hbad | hbad
  · apply hbad
    unfold AllDigits
    simp only [List.forall_mem_append]
    exact ⟨⟨⟨⟨⟨add, amm⟩, ayy⟩, ahh⟩, ami⟩, ass⟩
  · have := hisDate.day_le
    omega

/-- **Exactly the format, but for the slack.** -/
theorem acceptsExactly_iff (sep : Char) (line : Text) :
    AcceptsExactly sep line ↔ ¬ Slack sep line := by
  constructor
  · intro h hslack
    exact not_acceptsExactly_of_slack hslack h
  · intro hslack
    refine ⟨⟨?_, ?_⟩, ?_⟩
    · rintro ⟨r, hr⟩
      exact inFormat_of_csvParser hr hslack
    · rintro ⟨t, ht⟩
      obtain ⟨r, hr, -⟩ := csvParser_of_inFormat ht
      exact ⟨r, hr⟩
    · intro r t hr ht
      obtain ⟨r', hr', ht'⟩ := csvParser_of_inFormat ht
      rw [hr] at hr'
      cases hr'
      exact ht'

/-- A letter in the place of a digit: "1x" of February is taken for the first. -/
theorem letter_in_a_date_is_taken : ¬ AcceptsExactly '|'
    "1|425010000000001|3|MOC|972501|1x/02/2024|10:20:30|60|||4|972502".toList := by
  refine not_acceptsExactly_of_slack ⟨["1".toList, "425010000000001".toList, "3".toList,
    "MOC".toList, "972501".toList, "1x/02/2024".toList, "10:20:30".toList, "60".toList, [], [],
    "4".toList, "972502".toList], "1x".toList, "02".toList, "2024".toList, "10".toList,
    "20".toList, "30".toList, ⟨rfl, by decide, by decide⟩, ?_, rfl, rfl, ?_, ?_, .inl (by decide)⟩
  · exact ⟨by decide, by decide, ⟨.moc, rfl⟩, by decide, by decide, .inl rfl, .inl rfl,
      .inr (by decide), .inr (by decide)⟩
  · exact ⟨.inr (.inl (by decide)), .inl (by decide), .inl (by decide)⟩
  · exact ⟨.inl (by decide), .inl (by decide), .inl (by decide)⟩

end CdrProcessor.Parser
