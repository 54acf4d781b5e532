import CdrProcessor.Lib.Decimal

/-! What every part of the processor shares: texts, the constants of
`constants.hpp`, and the record of `cdr_record.hpp`. -/

namespace CdrProcessor

/-- A `std::string` or `std::string_view`, one character for each byte. -/
abbrev Text := List Char

private theorem all_before {stop : Char} {s : Text} (h : stop ∉ s) :
    ∀ c ∈ s, decide (c ≠ stop) = true := by
  intro c hc
  rw [decide_eq_true_eq]
  rintro rfl
  exact h hc

/-- What stands before the first of a character. -/
theorem takeWhile_before {stop : Char} {s : Text} (h : stop ∉ s) (rest : Text) :
    (s ++ stop :: rest).takeWhile (· ≠ stop) = s := by
  rw [List.takeWhile_append_of_pos (all_before h)]
  simp

/-- What stands behind it. -/
theorem dropWhile_before {stop : Char} {s : Text} (h : stop ∉ s) (rest : Text) :
    (s ++ stop :: rest).dropWhile (· ≠ stop) = stop :: rest := by
  rw [List.dropWhile_append_of_pos (all_before h)]
  simp

/-! ## Constants -/

def kFieldCount : Nat := 12
def kMaxImsiDigits : Nat := 15
def kMaxMsisdnDigits : Nat := 15

def kBatchSize : Nat := 4096
def kFileBatchSize : Nat := kBatchSize
def kRabbitBatchSize : Nat := kBatchSize

/-- Strips the MSIN off an IMSI, leaving MCC and MNC. -/
def kMsinDivisor : UInt64 := 10000000000

def kRedisPipelineDepth : Nat := 1024

def kSubPrefix : Text := "sub:".toList
def kOpPrefix : Text := "op:".toList
def kLinkPrefix : Text := "link:".toList

def kVoiceBoard : Text := "top:voice".toList
def kSmsBoard : Text := "top:sms".toList
def kDataBoard : Text := "top:data".toList
def kFailBoard : Text := "top:fail".toList
def kOpVoiceBoard : Text := "top:op-voice".toList
def kOpSmsBoard : Text := "top:op-sms".toList

def kFieldVoiceOut : Text := "voice_out".toList
def kFieldVoiceIn : Text := "voice_in".toList
def kFieldDataRx : Text := "data_rx".toList
def kFieldDataTx : Text := "data_tx".toList
def kFieldSmsOut : Text := "sms_out".toList
def kFieldSmsIn : Text := "sms_in".toList
def kFieldNoans : Text := "noans".toList
def kFieldBusy : Text := "busy".toList
def kFieldFailed : Text := "failed".toList
def kFieldDurSuffix : Text := ":dur".toList
def kFieldSmsSuffix : Text := ":sms".toList
def kFieldCntSuffix : Text := ":cnt".toList

def kTotalKey : Text := "total:proc".toList

/-- One field per source, the highest sequence applied from it. -/
def kProgressKey : Text := "prog:file".toList

def kFieldRecords : Text := "records".toList
def kFieldMocCnt : Text := "moc_cnt".toList
def kFieldMtcCnt : Text := "mtc_cnt".toList
def kFieldSmsMoCnt : Text := "sms_mo_cnt".toList
def kFieldSmsMtCnt : Text := "sms_mt_cnt".toList
def kFieldDataCnt : Text := "data_cnt".toList
def kFieldNoansCnt : Text := "noans_cnt".toList
def kFieldBusyCnt : Text := "busy_cnt".toList
def kFieldFailedCnt : Text := "failed_cnt".toList
def kFieldMocDur : Text := "moc_dur".toList
def kFieldMtcDur : Text := "mtc_dur".toList
def kFieldDataDur : Text := "data_dur".toList

/-- Values line up past the longest name. -/
def kTotalsNameWidth : Nat := 12

/-! ## Numbers in texts -/

/-- `std::to_chars` of a `uint64_t` behind what the text already holds. -/
def appendNumber (out : Text) (value : UInt64) : Text := out ++ Decimal.digits value.toNat

/-- `std::from_chars` into a `uint64_t`: no sign, no blanks, the longest run of
digits; nothing on an error, else the value and what stands behind it. -/
def fromChars (s : Text) : Option (UInt64 × Text) :=
  (Decimal.readNat UInt64.size s).map fun p => (UInt64.ofNat p.1, p.2)

/-- What is read is the number a text opens with, what is left is the rest. -/
theorem fromChars_eq_some {s rest : Text} {n : UInt64} :
    fromChars s = some (n, rest) ↔
      ∃ number, s = number ++ rest ∧ number ≠ [] ∧ Decimal.AllDigits number ∧ Decimal.Stops rest ∧
        Decimal.value number < UInt64.size ∧ n = UInt64.ofNat (Decimal.value number) := by
  unfold fromChars
  rw [Option.map_eq_some_iff]
  constructor
  · rintro ⟨⟨m, left⟩, hread, heq⟩
    cases heq
    obtain ⟨number, hs, hne, hall, hstops, rfl, hlt⟩ := Decimal.readNat_eq_some.mp hread
    exact ⟨number, hs, hne, hall, hstops, hlt, rfl⟩
  · rintro ⟨number, hs, hne, hall, hstops, hlt, rfl⟩
    exact ⟨(Decimal.value number, rest),
      Decimal.readNat_eq_some.mpr ⟨number, hs, hne, hall, hstops, rfl, hlt⟩, rfl⟩

theorem fromChars_digits (value : UInt64) :
    fromChars (Decimal.digits value.toNat) = some (value, []) := by
  unfold fromChars
  rw [Decimal.readNat_digits _ _ value.toNat_lt_size]
  simp

theorem appendNumber_injective (out : Text) : Function.Injective (appendNumber out) := by
  intro a b h
  exact UInt64.toNat.inj (Decimal.digits_injective (List.append_cancel_left h))

/-- A number with zeros in front of it. -/
def padded (width n : Nat) : Text :=
  List.replicate (width - (Decimal.digits n).length) '0' ++ Decimal.digits n

theorem length_padded {width n : Nat} (hw : 0 < width) (h : n < 10 ^ width) :
    (padded width n).length = width := by
  have := Decimal.length_digits_le hw h
  unfold padded
  rw [List.length_append, List.length_replicate]
  omega

theorem allDigits_padded (width n : Nat) : Decimal.AllDigits (padded width n) := by
  intro c hc
  rcases List.mem_append.mp hc with h | h
  · rw [List.eq_of_mem_replicate h]
    rfl
  · exact Decimal.isDigit_of_mem_digits h

@[simp] theorem value_padded (width n : Nat) : Decimal.value (padded width n) = n := by
  unfold padded Decimal.value
  rw [Nat.ofDigitChars_append, Nat.ofDigitChars_replicate_zero, Nat.mul_zero]
  exact Decimal.ofDigitChars_digits n

/-! ## The record -/

inductive UsageType where
  | moc | mtc | smsMo | smsMt | d | u | b | x
  deriving DecidableEq, Repr

structure CdrRecord where
  sequence : UInt64
  subscriberImsi : UInt64
  subscriberImei : Text
  usageType : UsageType
  subscriberMSISDN : UInt64
  callTime : Int
  duration : UInt64
  bytesReceived : UInt64
  bytesTransmitted : UInt64
  /-- 0 when the record names no second party. -/
  secondPartyIMSI : UInt64
  secondPartyMSISDN : UInt64
  deriving DecidableEq, Repr

/-- Parses one line into a record, or refuses it. -/
abbrev IParser := Text → Option CdrRecord

end CdrProcessor
