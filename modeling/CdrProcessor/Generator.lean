import CdrProcessor.Basic
import CdrProcessor.Lib.Calendar
import Mathlib.Logic.Function.Basic

/-! The generator's side, in Python: a record as it makes one up, the line it writes, and
its own fourteen totals. -/

namespace CdrProcessor.Generator

/-! ## records.py -/

def USAGE_TYPES : List Text :=
  ["MOC".toList, "MTC".toList, "SMS-MO".toList, "SMS-MT".toList, "D".toList, "U".toList,
    "B".toList, "X".toList]

/-- A `datetime` down to the second: always a day of the calendar. -/
structure DateTime where
  year : Nat
  month : Nat
  day : Nat
  hour : Nat
  minute : Nat
  second : Nat
  year_pos : 1 ≤ year
  year_le : year ≤ 9999
  isDate : Calendar.IsDate year month day
  hour_lt : hour < 24
  minute_lt : minute < 60
  second_lt : second < 60

structure Cdr where
  seq : Nat
  imsi : Text
  imei : Text
  usage : Text
  msisdn : Text
  when : DateTime
  duration : Nat
  /-- Data sessions only, none elsewhere. -/
  bytesRx : Option Nat
  bytesTx : Option Nat
  /-- Empty on data sessions. -/
  secondPartyImsi : Text
  secondPartyMsisdn : Text

/-- `"" if count is None else count`, as text. -/
def orEmpty (count : Option Nat) : Text :=
  match count with
  | none => []
  | some n => Decimal.digits n

/-- The twelve fields as they are written. -/
def Cdr.fields (cdr : Cdr) : List Text :=
  let w := cdr.when
  let date := padded 2 w.day ++ '/' :: (padded 2 w.month ++ '/' :: Decimal.digits w.year)
  let clock := padded 2 w.hour ++ ':' :: (padded 2 w.minute ++ ':' :: padded 2 w.second)
  let rx := orEmpty cdr.bytesRx
  let tx := orEmpty cdr.bytesTx
  [Decimal.digits cdr.seq, cdr.imsi, cdr.imei, cdr.usage, cdr.msisdn, date, clock,
    Decimal.digits cdr.duration, rx, tx, cdr.secondPartyImsi, cdr.secondPartyMsisdn]

def csvRecord (cdr : Cdr) (sep : Char) : Text := [sep].intercalate cdr.fields

/-! ## totals.py -/

def NAME_WIDTH : Nat := 12

def FIELDS : List Text :=
  ["records".toList, "moc_cnt".toList, "mtc_cnt".toList, "sms_mo_cnt".toList,
    "sms_mt_cnt".toList, "data_cnt".toList, "noans_cnt".toList, "busy_cnt".toList,
    "failed_cnt".toList, "moc_dur".toList, "mtc_dur".toList, "data_dur".toList,
    "data_rx".toList, "data_tx".toList]

/-- The attributes of a `Totals`, by name. -/
structure Totals where
  attr : Text → Nat := fun _ => 0

/-- `self.field += n` -/
def Totals.bump (t : Totals) (field : Text) (n : Nat) : Totals :=
  ⟨Function.update t.attr field (t.attr field + n)⟩

/-- `Totals.add`.  Nothing where Python raises: `int += None`. -/
def Totals.add (t : Totals) (cdr : Cdr) : Option Totals :=
  let t := t.bump "records".toList 1
  let usage := cdr.usage
  if usage = "MOC".toList then
    some ((t.bump "moc_cnt".toList 1).bump "moc_dur".toList cdr.duration)
  else if usage = "MTC".toList then
    some ((t.bump "mtc_cnt".toList 1).bump "mtc_dur".toList cdr.duration)
  else if usage = "SMS-MO".toList then
    some (t.bump "sms_mo_cnt".toList 1)
  else if usage = "SMS-MT".toList then
    some (t.bump "sms_mt_cnt".toList 1)
  else if usage = "D".toList then do
    let t := (t.bump "data_cnt".toList 1).bump "data_dur".toList cdr.duration
    let t := t.bump "data_rx".toList (← cdr.bytesRx)
    return t.bump "data_tx".toList (← cdr.bytesTx)
  else if usage = "U".toList then
    some (t.bump "noans_cnt".toList 1)
  else if usage = "B".toList then
    some (t.bump "busy_cnt".toList 1)
  else if usage = "X".toList then
    some (t.bump "failed_cnt".toList 1)
  else some t

/-- The records of a run, one after the other. -/
def Totals.addAll (t : Totals) (cdrs : List Cdr) : Option Totals := cdrs.foldlM Totals.add t

/-- A text with blanks behind it. -/
def ljust (width : Nat) (s : Text) : Text := s ++ List.replicate (width - s.length) ' '

def Totals.format (t : Totals) : Text :=
  FIELDS.flatMap fun field =>
    "\n\t".toList ++ ljust NAME_WIDTH field ++ Decimal.digits (t.attr field)

end CdrProcessor.Generator
