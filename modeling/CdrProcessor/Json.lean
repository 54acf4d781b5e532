import CdrProcessor.Basic

/-! `Json`, the builder of the bodies that are sent, and `Result`. -/

namespace CdrProcessor

/-- The text between the braces. -/
structure Json where
  body : Text := []
  deriving DecidableEq, Repr

/-- The status to send and the body to send with it. -/
structure Result where
  status : Nat := 200
  body : Text
  deriving DecidableEq, Repr

namespace Json

def kHex : Text := "0123456789abcdef".toList

/-- One character of a text in quotes: quotes, backslashes and control characters are
escaped. -/
def escaped (character : Char) : Text :=
  if character = '"' ∨ character = '\\' then ['\\', character]
  else if character.toNat < 0x20 then
    "\\u00".toList ++ [kHex.getD (character.toNat / 16) '0', kHex.getD (character.toNat % 16) '0']
  else [character]

def quoted (text : Text) : Text := '"' :: (text.flatMap escaped ++ ['"'])

/-- The separator and the field name. -/
def key (json : Json) (name : Text) : Text :=
  json.body ++ ((if json.body = [] then [] else [',']) ++ (quoted name ++ [':']))

def str (json : Json) : Text := '\x7b' :: (json.body ++ ['\x7d'])

/-- Values in brackets, commas between them. -/
def array (values : List Text) : Text := '[' :: (List.intercalate [','] values ++ [']'])

def addText (json : Json) (name value : Text) : Json := ⟨json.key name ++ quoted value⟩

def addNumber (json : Json) (name : Text) (value : UInt64) : Json :=
  ⟨appendNumber (json.key name) value⟩

def addTexts (json : Json) (name : Text) (values : List Text) : Json :=
  ⟨json.key name ++ array (values.map quoted)⟩

def addJsons (json : Json) (name : Text) (values : List Json) : Json :=
  ⟨json.key name ++ array (values.map str)⟩

def error (msg : Text) : Text := (addText {} "error".toList msg).str

end Json

/-! ## The names that go out -/

def kJsonVoiceOut : Text := "voice-out".toList
def kJsonVoiceIn : Text := "voice-in".toList
def kJsonDataOut : Text := "data-out".toList
def kJsonDataIn : Text := "data-in".toList
def kJsonSmsOut : Text := "sms-out".toList
def kJsonSmsIn : Text := "sms-in".toList
def kJsonNoans : Text := "no-answer".toList
def kJsonBusy : Text := "busy".toList
def kJsonFailed : Text := "failed".toList
def kJsonDuration : Text := "duration".toList
def kJsonSms : Text := "sms".toList
def kJsonCalls : Text := "calls".toList
def kJsonMaxHops : Text := "max-hops".toList
def kJsonMaxVisited : Text := "max-visited".toList

/-- What a pair exchanged, as every object about a pair closes. -/
def Json.addExchanged (json : Json) (duration calls sms : UInt64) : Json :=
  ((json.addNumber kJsonDuration duration).addNumber kJsonCalls calls).addNumber kJsonSms sms

/-- The 503 of every service. -/
def unavailable : Result := ⟨503, Json.error "store unavailable".toList⟩

end CdrProcessor
