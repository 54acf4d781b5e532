import CdrProcessor.Generator
import CdrProcessor.Dates

/-! What the generator writes, `CsvParser` reads: field by field, then the line. -/

namespace CdrProcessor.Generator

open CdrProcessor.Parser CdrProcessor.Decimal

/-- A record every field of which has its width: counters of 64 bits, numbers of at most
fifteen digits, a usage of the eight, a year of four digits. -/
structure Cdr.InRange (cdr : Cdr) : Prop where
  seq : cdr.seq < 2 ^ 64
  imsi : IsShort 15 cdr.imsi
  usage : cdr.usage ∈ USAGE_TYPES
  msisdn : IsShort 15 cdr.msisdn
  year : 1000 ≤ cdr.when.year
  duration : cdr.duration < 2 ^ 64
  bytesRx : ∀ n ∈ cdr.bytesRx, n < 2 ^ 64
  bytesTx : ∀ n ∈ cdr.bytesTx, n < 2 ^ 64
  secondPartyImsi : cdr.secondPartyImsi = [] ∨ IsShort 15 cdr.secondPartyImsi
  secondPartyMsisdn : cdr.secondPartyMsisdn = [] ∨ IsShort 15 cdr.secondPartyMsisdn

/-- The processor's record holds what the generator's does; what is absent is 0. -/
structure Cdr.Reads (cdr : Cdr) (r : CdrRecord) : Prop where
  sequence : r.sequence.toNat = cdr.seq
  subscriberImsi : r.subscriberImsi.toNat = value cdr.imsi
  subscriberImei : r.subscriberImei = cdr.imei
  usageType : usageCode r.usageType = cdr.usage
  subscriberMSISDN : r.subscriberMSISDN.toNat = value cdr.msisdn
  callTime : r.callTime = Calendar.unixSecond cdr.when.year cdr.when.month cdr.when.day
    cdr.when.hour cdr.when.minute cdr.when.second
  duration : r.duration.toNat = cdr.duration
  bytesReceived : r.bytesReceived.toNat = cdr.bytesRx.getD 0
  bytesTransmitted : r.bytesTransmitted.toNat = cdr.bytesTx.getD 0
  secondPartyIMSI : r.secondPartyIMSI.toNat = value cdr.secondPartyImsi
  secondPartyMSISDN : r.secondPartyMSISDN.toNat = value cdr.secondPartyMsisdn

/-! ## Field by field -/

theorem parseU64_digits {n : Nat} (h : n < 2 ^ 64) (optional : Bool) :
    parseU64 (digits n) optional = some (UInt64.ofNat n) := by
  refine parseU64_eq_some.mpr (.inr ⟨⟨digits_ne_nil n, allDigits_digits n, ?_⟩, ?_, ?_⟩)
  · rw [value_digits]
    exact h
  · intro h0
    exact absurd rfl h0
  · rw [value_digits]

theorem parseU64_short {s : Text} (h : IsShort 15 s) (optional : Bool) :
    parseU64 s optional 15 = some (UInt64.ofNat (value s)) :=
  parseU64_eq_some.mpr (.inr ⟨h.isNumber (by decide), fun _ => h.2.2, rfl⟩)

theorem parseU64_absent {s : Text} (h : s = [] ∨ IsShort 15 s) :
    parseU64 s true 15 = some (UInt64.ofNat (value s)) := by
  rcases h with rfl | h
  · rfl
  · exact parseU64_short h true

theorem parseU64_count {count : Option Nat} (h : ∀ n ∈ count, n < 2 ^ 64) :
    parseU64 (orEmpty count) true = some (UInt64.ofNat (count.getD 0)) := by
  cases count with
  | none => rfl
  | some n => exact parseU64_digits (h n rfl) true

theorem exists_usage {usage : Text} (h : usage ∈ USAGE_TYPES) :
    ∃ t, usageCode t = usage := by
  simp only [USAGE_TYPES, List.mem_cons, List.not_mem_nil, or_false] at h
  rcases h with rfl | rfl | rfl | rfl | rfl | rfl | rfl | rfl
  · exact ⟨.moc, rfl⟩
  · exact ⟨.mtc, rfl⟩
  · exact ⟨.smsMo, rfl⟩
  · exact ⟨.smsMt, rfl⟩
  · exact ⟨.d, rfl⟩
  · exact ⟨.u, rfl⟩
  · exact ⟨.b, rfl⟩
  · exact ⟨.x, rfl⟩

/-- The day is written so that it names itself. -/
theorem namesDate (w : DateTime) (hy : 1000 ≤ w.year) :
    NamesDate (padded 2 w.day ++ '/' :: (padded 2 w.month ++ '/' :: digits w.year))
      w.year w.month w.day := by
  have hday := w.isDate.day_le
  have h31 := Calendar.monthDays_le w.year w.month
  have hmonth := w.isDate.month_le
  have hyear := w.year_le
  refine ⟨_, _, _, rfl, ⟨length_padded (by decide) (by omega), length_padded (by decide) (by omega),
    ?_⟩, ⟨allDigits_padded _ _, allDigits_padded _ _, allDigits_digits _⟩,
    ⟨value_padded _ _, value_padded _ _, value_digits _⟩, w.isDate⟩
  have hle := length_digits_le (n := w.year) (w := 4) (by decide) (by omega)
  have hgt : ¬ (digits w.year).length ≤ 3 := by
    intro h3
    have := value_lt (allDigits_digits w.year)
    rw [value_digits] at this
    have := lt_of_lt_of_le this (Nat.pow_le_pow_right (by decide) h3)
    omega
  omega

theorem namesTime (w : DateTime) :
    NamesTime (padded 2 w.hour ++ ':' :: (padded 2 w.minute ++ ':' :: padded 2 w.second))
      w.hour w.minute w.second := by
  have hh := w.hour_lt
  have hm := w.minute_lt
  have hs := w.second_lt
  exact ⟨_, _, _, rfl, ⟨length_padded (by decide) (by omega), length_padded (by decide) (by omega),
    length_padded (by decide) (by omega)⟩,
    ⟨allDigits_padded _ _, allDigits_padded _ _, allDigits_padded _ _⟩,
    ⟨value_padded _ _, value_padded _ _, value_padded _ _⟩, by omega, by omega, by omega⟩

/-! ## The line -/

theorem parseFields_fields {cdr : Cdr} (h : cdr.InRange) :
    ∃ r, parseFields cdr.fields = some r ∧ cdr.Reads r := by
  obtain ⟨t, ht⟩ := exists_usage h.usage
  have hsmall : ∀ {s : Text}, s = [] ∨ IsShort 15 s → value s < UInt64.size := by
    rintro s (rfl | hs)
    · decide
    · exact (hs.isNumber (by decide)).2.2
  have hcount : ∀ {count : Option Nat}, (∀ n ∈ count, n < 2 ^ 64) → count.getD 0 < UInt64.size := by
    intro count hc
    cases count with
    | none => decide
    | some n => exact hc n rfl
  unfold parseFields Cdr.fields
  simp only [List.getD_cons_zero, List.getD_cons_succ, kMaxImsiDigits, kMaxMsisdnDigits]
  rw [parseU64_digits h.seq, parseU64_short h.imsi, parseU64_short h.msisdn,
    parseU64_digits h.duration, parseU64_count h.bytesRx, parseU64_count h.bytesTx,
    parseU64_absent h.secondPartyImsi, parseU64_absent h.secondPartyMsisdn, ← ht,
    parseUsage_usageCode, parseDateTime_named (namesDate cdr.when h.year) (namesTime cdr.when)]
  exact ⟨_, rfl, {
    sequence := UInt64.toNat_ofNat_of_lt' h.seq
    subscriberImsi := UInt64.toNat_ofNat_of_lt' (hsmall (.inr h.imsi))
    subscriberImei := rfl
    usageType := ht
    subscriberMSISDN := UInt64.toNat_ofNat_of_lt' (hsmall (.inr h.msisdn))
    callTime := rfl
    duration := UInt64.toNat_ofNat_of_lt' h.duration
    bytesReceived := UInt64.toNat_ofNat_of_lt' (hcount h.bytesRx)
    bytesTransmitted := UInt64.toNat_ofNat_of_lt' (hcount h.bytesTx)
    secondPartyIMSI := UInt64.toNat_ofNat_of_lt' (hsmall h.secondPartyImsi)
    secondPartyMSISDN := UInt64.toNat_ofNat_of_lt' (hsmall h.secondPartyMsisdn) }⟩

theorem split_csvRecord {cdr : Cdr} {sep : Char} (hsep : ∀ f ∈ cdr.fields, sep ∉ f) :
    split sep kFieldCount (csvRecord cdr sep) = some cdr.fields :=
  split_eq_some.mpr ⟨List.cons_ne_nil _ _, rfl, hsep, rfl⟩

/-- **Every record the generator can write is read back.** -/
theorem csvRecord_reads_back (cdr : Cdr) (sep : Char) (h : cdr.InRange)
    (hsep : ∀ f ∈ cdr.fields, sep ∉ f) :
    ∃ r, csvParser sep (csvRecord cdr sep) = some r ∧ cdr.Reads r := by
  obtain ⟨r, hr, hreads⟩ := parseFields_fields h
  refine ⟨r, ?_, hreads⟩
  unfold csvParser
  rw [split_csvRecord hsep]
  exact hr

/-- A data session on the last day of a leap year's February. -/
def dataSession : Cdr where
  seq := 7
  imsi := "425010000000001".toList
  imei := "35-209900-176148-1".toList
  usage := "D".toList
  msisdn := "097250".toList
  when := ⟨2024, 2, 29, 23, 5, 9, by decide, by decide, by decide, by decide, by decide, by decide⟩
  duration := 60
  bytesRx := some 18446744073709551615
  bytesTx := some 0
  secondPartyImsi := []
  secondPartyMsisdn := []

theorem dataSession_inRange : dataSession.InRange where
  seq := by decide
  imsi := by decide
  usage := by decide
  msisdn := by decide
  year := by decide
  duration := by decide
  bytesRx := by rintro n ⟨⟩; decide
  bytesTx := by rintro n ⟨⟩; decide
  secondPartyImsi := .inl rfl
  secondPartyMsisdn := .inl rfl

theorem dataSession_reads_back :
    (dataSession.InRange ∧ ∀ f ∈ dataSession.fields, ',' ∉ f) ∧
      ∃ r, csvParser ',' (csvRecord dataSession ',') = some r ∧ dataSession.Reads r :=
  have hsep : ∀ f ∈ dataSession.fields, ',' ∉ f := by decide +kernel
  ⟨⟨dataSession_inRange, hsep⟩, csvRecord_reads_back dataSession ',' dataSession_inRange hsep⟩

end CdrProcessor.Generator
