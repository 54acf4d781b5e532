import CdrProcessor.Basic

/-! `CsvParser`: one separated line into a record, or nothing when it does not fit. -/

namespace CdrProcessor.Parser

/-- The fields of `str`, nothing when the line does not hold exactly `n`. -/
def split (delim : Char) : Nat → Text → Option (List Text)
  | 0, _ => none
  | n + 1, str =>
    match str.dropWhile (· ≠ delim) with
    | [] => if n = 0 then some [str] else none
    | _ :: rest => (split delim n rest).map (str.takeWhile (· ≠ delim) :: ·)

/-- An empty field is the sentinel 0 where it may be empty; `maxDigits` 0 is no limit. -/
def parseU64 (str : Text) (optional : Bool := false) (maxDigits : Nat := 0) : Option UInt64 :=
  if str = [] then
    if optional then some 0 else none
  else if maxDigits ≠ 0 ∧ str.length > maxDigits then none
  else
    match fromChars str with
    | some (value, []) => some value
    | _ => none

def parseUsage (sv : Text) : Option UsageType :=
  if sv = "MOC".toList then some .moc
  else if sv = "MTC".toList then some .mtc
  else if sv = "SMS-MO".toList then some .smsMo
  else if sv = "SMS-MT".toList then some .smsMt
  else if sv = "D".toList then some .d
  else if sv = "U".toList then some .u
  else if sv = "B".toList then some .b
  else if sv = "X".toList then some .x
  else none

/-- `std::from_chars` into an `int` over a few characters: a minus sign is taken. -/
def fromCharsInt : Text → Option Int
  | '-' :: s => (Decimal.readNat (2 ^ 31 + 1) s).map fun p => -(p.1 : Int)
  | s => (Decimal.readNat (2 ^ 31) s).map fun p => (p.1 : Int)

/-- Days from 1970-01-01 to the first of a month, proleptic Gregorian calendar. -/
def daysToMonth (year month : Int) : Int :=
  let y := if month ≤ 2 then year - 1 else year
  let era := y / 400
  let yoe := y - era * 400
  let doy := (153 * (month + (if month > 2 then -3 else 9)) + 2) / 5
  era * 146097 + (yoe * 365 + yoe / 4 - yoe / 100 + doy) - 719468

/-- `timegm`: a day past the end of its month runs on into the next one. -/
def timegm (year month mday hour min sec : Int) : Int :=
  (daysToMonth year month + mday - 1) * 86400 + hour * 3600 + min * 60 + sec

/-- The lambda `d2`: two characters as a number, -1 when they do not open with one. -/
def d2 (s : Text) (off : Nat) : Int := (fromCharsInt ((s.drop off).take 2)).getD (-1)

/-- "DD/MM/YYYY" and "HH:MM:SS" as a Unix second. -/
def parseDateTime (date time : Text) : Option Int :=
  if date.length ≠ 10 ∨ time.length ≠ 8 then none
  else if date.getD 2 ' ' ≠ '/' ∨ date.getD 5 ' ' ≠ '/' then none
  else if time.getD 2 ' ' ≠ ':' ∨ time.getD 5 ' ' ≠ ':' then none
  else
    let mday := d2 date 0
    let mon := d2 date 3 - 1
    match fromCharsInt ((date.drop 6).take 4) with
    | none => none
    | some year =>
      let hour := d2 time 0
      let min := d2 time 3
      let sec := d2 time 6
      if mday < 1 ∨ mday > 31 ∨ mon < 0 ∨ mon > 11 then none
      else if hour < 0 ∨ hour > 23 then none
      else if min < 0 ∨ min > 59 ∨ sec < 0 ∨ sec > 59 then none
      else some (timegm year (mon + 1) mday hour min sec)

/-- `CsvParser::parse` over the fields of a line, first failure first. -/
def parseFields (fields : List Text) : Option CdrRecord := do
  let field := fun i => fields.getD i []
  let sequence ← parseU64 (field 0)
  let subscriberImsi ← parseU64 (field 1) false kMaxImsiDigits
  let usageType ← parseUsage (field 3)
  let subscriberMSISDN ← parseU64 (field 4) false kMaxMsisdnDigits
  let callTime ← parseDateTime (field 5) (field 6)
  let duration ← parseU64 (field 7)
  let bytesReceived ← parseU64 (field 8) true
  let bytesTransmitted ← parseU64 (field 9) true
  let secondPartyIMSI ← parseU64 (field 10) true kMaxImsiDigits
  let secondPartyMSISDN ← parseU64 (field 11) true kMaxMsisdnDigits
  return { sequence, subscriberImsi, subscriberImei := field 2, usageType, subscriberMSISDN,
           callTime, duration, bytesReceived, bytesTransmitted, secondPartyIMSI,
           secondPartyMSISDN }

/-- `CsvParser(sep).parse`. -/
def csvParser (sep : Char) : IParser := fun line =>
  (split sep kFieldCount line).bind parseFields

example : (csvParser '|' "1|425010000000001|3|MOC|972501|01/02/2024|10:20:30|60|||4|972502".toList).map
    (fun r => (r.sequence, r.callTime, r.secondPartyMSISDN)) = some (1, 1706782830, 972502) := by
  decide +kernel

end CdrProcessor.Parser
