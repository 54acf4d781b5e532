import CdrProcessor.Json
import CdrProcessor.Links

/-! `QueryService` and the totals of `StatsService`: what is answered about a subscriber,
an operator, the peers of a subscriber, a pair, and the whole run. -/

namespace CdrProcessor

/-- One field of what the store returned as a number, 0 when the key does not hold it. -/
def fieldNum (fields : List (Text × Text)) (field : Text) : UInt64 :=
  ((fields.find? fun e => e.1 = field).map fun e => toNum e.2).getD 0

/-- The fields of a table of names, one `add` after the other. -/
def addFields (json : Json) (fields : List (Text × Text)) (names : List (Text × Text)) : Json :=
  names.foldl (fun json e => json.addNumber e.2 (fieldNum fields e.1)) json

namespace QueryService

/-- The stored fields a subscriber is reported with, under the names they go out as. -/
def kSubFields : List (Text × Text) :=
  [(kFieldVoiceOut, kJsonVoiceOut), (kFieldVoiceIn, kJsonVoiceIn), (kFieldDataTx, kJsonDataOut),
    (kFieldDataRx, kJsonDataIn), (kFieldSmsOut, kJsonSmsOut), (kFieldSmsIn, kJsonSmsIn),
    (kFieldNoans, kJsonNoans), (kFieldBusy, kJsonBusy), (kFieldFailed, kJsonFailed)]

/-- The stored fields an operator is reported with, under the names they go out as. -/
def kOpFields : List (Text × Text) :=
  [(kFieldVoiceOut, kJsonVoiceOut), (kFieldVoiceIn, kJsonVoiceIn), (kFieldSmsOut, kJsonSmsOut),
    (kFieldSmsIn, kJsonSmsIn)]

/-- One hash read and reported: `msisdn` and `op`. -/
def entity (store : IQueryStore) (pre name id missing : Text) (names : List (Text × Text)) :
    Query Result := do
  match ← store.readAll (pre ++ id) with
  | none => return unavailable
  | some fields =>
    if fields = [] then return ⟨404, Json.error missing⟩
    else return ⟨200, (addFields (({} : Json).addText name id) fields names).str⟩

def msisdn (store : IQueryStore) (id : Text) : Query Result :=
  entity store kSubPrefix "msisdn".toList id "subscriber not found".toList kSubFields

def op (store : IQueryStore) (mccmnc : Text) : Query Result :=
  entity store kOpPrefix "mccmnc".toList mccmnc "operator not found".toList kOpFields

/-- What a listing opens with. -/
def listing (id : Text) (count : Nat) (params : QueryParams) : Json :=
  (((({} : Json).addText "msisdn".toList id).addNumber "count".toList (.ofNat count)).addNumber
    "offset".toList params.offset).addNumber "limit".toList params.limit

def kSortDur : Text := "dur".toList
def kSortSms : Text := "sms".toList

/-- The object of one peer. -/
def peerJson (peer : Peer) : Json :=
  (({} : Json).addText "msisdn".toList peer.msisdn).addExchanged peer.duration peer.calls peer.sms

/-- `QueryService::weighted`. -/
def weighted (store : IQueryStore) (visit : PeerVisit) (id : Text) (params : QueryParams) :
    Query Result := do
  match ← linkWeights store visit id with
  | none => return unavailable
  | some all =>
    if all = [] then return ⟨404, Json.error "subscriber not found".toList⟩
    else
      let peers := (page (orderPeers all params.sort) params).map peerJson
      return ⟨200, (((listing id all.length params).addText "sort".toList
        (if params.sort = .sms then kSortSms else kSortDur)).addJsons "peers".toList peers).str⟩

/-- `QueryService::peers`. -/
def peers (store : IQueryStore) (visit : PeerVisit) (id : Text) (params : QueryParams) :
    Query Result := do
  if params.weights then
    weighted store visit id params
  else
    match ← linkPeers store id with
    | none => return unavailable
    | some all =>
      if all = [] then return ⟨404, Json.error "subscriber not found".toList⟩
      else
        return ⟨200, ((listing id all.length params).addTexts "peers".toList
          (page all params)).str⟩

/-- `QueryService::link`. -/
def link (store : IQueryStore) (first second : Text) : Query Result := do
  match ← store.readSome (linkKey first)
      [second ++ kFieldDurSuffix, second ++ kFieldSmsSuffix, second ++ kFieldCntSuffix] with
  | none => return unavailable
  | some values =>
    if values.getD 0 [] = [] ∧ values.getD 1 [] = [] ∧ values.getD 2 [] = [] then
      return ⟨404, Json.error "link not found".toList⟩
    else
      return ⟨200, (((({} : Json).addText "first-party".toList first).addText
        "second-party".toList second).addExchanged (toNum (values.getD 0 []))
          (toNum (values.getD 2 [])) (toNum (values.getD 1 []))).str⟩

end QueryService

namespace StatsService

/-- The stored fields the totals are reported with, in the order they go out. -/
def kTotalFields : List Text :=
  [kFieldRecords, kFieldMocCnt, kFieldMtcCnt, kFieldSmsMoCnt, kFieldSmsMtCnt, kFieldDataCnt,
    kFieldNoansCnt, kFieldBusyCnt, kFieldFailedCnt, kFieldMocDur, kFieldMtcDur, kFieldDataDur,
    kFieldDataRx, kFieldDataTx]

/-- One stored field name under the name it goes out as. -/
def reported (field : Text) : Text := field.map fun c => if c = '_' then '-' else c

/-- `StatsService::totals`. -/
def totals (store : IQueryStore) : Query Result := do
  match ← store.readAll kTotalKey with
  | none => return unavailable
  | some fields =>
    return ⟨200, (addFields {} fields (kTotalFields.map fun field => (field, reported field))).str⟩

end StatsService

end CdrProcessor
