import CdrProcessor.Recorded

/-! The boards against the counters they rank.  Two writers go through a delta, one adding
to the hashes field by field and one to the boards sum by sum; here the two are in step
behind every batch. -/

namespace CdrProcessor

/-- A field of a subscriber's hash, 0 when it is missing. -/
def Db.subNum (db : Db) (msisdn : UInt64) (field : Text) : Nat :=
  ((db.hash (appendNumber kSubPrefix msisdn)).lookup field).getD 0

/-- A field of an operator's hash, 0 when it is missing. -/
def Db.opNum (db : Db) (mccmnc : UInt32) (field : Text) : Nat :=
  ((db.hash (appendNumber kOpPrefix mccmnc.toUInt64)).lookup field).getD 0

/-- A member of a board has this score, and is none when the score is 0. -/
def Db.Ranked (db : Db) (board : Text) (id : UInt64) (score : Nat) : Prop :=
  (db.board board).lookup (appendNumber [] id) = if score = 0 then none else some score

/-- Every board ranks by what the hashes hold. -/
structure BoardsAgree (db : Db) : Prop where
  voice : ∀ m : UInt64, db.Ranked kVoiceBoard m (db.subNum m kFieldVoiceOut + db.subNum m kFieldVoiceIn)
  sms : ∀ m : UInt64, db.Ranked kSmsBoard m (db.subNum m kFieldSmsOut + db.subNum m kFieldSmsIn)
  data : ∀ m : UInt64, db.Ranked kDataBoard m (db.subNum m kFieldDataRx + db.subNum m kFieldDataTx)
  fail : ∀ m : UInt64, db.Ranked kFailBoard m
    (db.subNum m kFieldNoans + db.subNum m kFieldBusy + db.subNum m kFieldFailed)
  opVoice : ∀ k : UInt32, db.Ranked kOpVoiceBoard k.toUInt64
    (db.opNum k kFieldVoiceOut + db.opNum k kFieldVoiceIn)
  opSms : ∀ k : UInt32, db.Ranked kOpSmsBoard k.toUInt64
    (db.opNum k kFieldSmsOut + db.opNum k kFieldSmsIn)

/-! ## What a list of records is worth to a board -/

/-- The counters a subscriber's board adds up. -/
def SubBoard.fields : SubBoard → List SubField
  | .voice => [.voiceOut, .voiceIn]
  | .sms => [.smsOut, .smsIn]
  | .data => [.dataRx, .dataTx]
  | .fail => [.noans, .busy, .failed]

def OpBoard.fields : OpBoard → List OpField
  | .voice => [.voiceOut, .voiceIn]
  | .sms => [.smsOut, .smsIn]

theorem amount_subBoard (records : List CdrRecord) (m : UInt64) (b : SubBoard) :
    amount records (.subBoard m b) = (b.fields.map fun f => amount records (.sub m f)).sum := by
  induction records with
  | nil => cases b <;> rfl
  | cons r records ih =>
    rw [amount_cons, ih]
    cases b <;> simp [SubBoard.fields, adds] <;> omega

theorem amount_opBoard (records : List CdrRecord) (k : UInt32) (b : OpBoard) :
    amount records (.opBoard k b) = (b.fields.map fun f => amount records (.op k f)).sum := by
  induction records with
  | nil => cases b <;> rfl
  | cons r records ih =>
    rw [amount_cons, ih]
    cases b <;> simp [OpBoard.fields, adds] <;> omega

/-! ## The store behind a list of batches -/

variable {calls : List ConsumeCall}

theorem consumed_sub (hx : Exact (recordsOf calls)) (m : UInt64) (f : SubField) :
    (consumed calls).subNum m f.name = amount (recordsOf calls) (.sub m f) :=
  consumed_count hx (.sub m f)

theorem consumed_op (hx : Exact (recordsOf calls)) (k : UInt32) (f : OpField) :
    (consumed calls).opNum k f.name = amount (recordsOf calls) (.op k f) :=
  consumed_count hx (.op k f)

theorem consumed_subBoard (hx : Exact (recordsOf calls)) (m : UInt64) (b : SubBoard) :
    (consumed calls).Ranked b.key m
      (b.fields.map fun f => (consumed calls).subNum m f.name).sum := by
  have h := consumed_value hx (.subBoard m b)
  rw [amount_subBoard] at h
  simp only [consumed_sub hx]
  exact h

theorem consumed_opBoard (hx : Exact (recordsOf calls)) (k : UInt32) (b : OpBoard) :
    (consumed calls).Ranked b.key k.toUInt64
      (b.fields.map fun f => (consumed calls).opNum k f.name).sum := by
  have h := consumed_value hx (.opBoard k b)
  rw [amount_opBoard] at h
  simp only [consumed_op hx]
  exact h

theorem consumed_boards (hx : Exact (recordsOf calls)) : BoardsAgree (consumed calls) where
  voice m := consumed_subBoard hx m .voice
  sms m := consumed_subBoard hx m .sms
  data m := consumed_subBoard hx m .data
  fail m := by
    rw [Nat.add_assoc]
    exact consumed_subBoard hx m .fail
  opVoice k := consumed_opBoard hx k .voice
  opSms k := consumed_opBoard hx k .sms

/-- **Boards agree with the counters they rank**, in every state that any threads, in
whatever order they get on and wherever they are stopped, bring an empty store to. -/
theorem boards_agree {acts : List Moment}
    (hx : Exact (recordsOf (acts.filterMap Moment.committed))) :
    BoardsAgree (Shared.run ⟨{}, {}⟩ acts).db := by
  rw [run_db]
  exact consumed_boards hx

/-- A call and, on another thread, the first half of a second one. -/
theorem boards_agree_call :
    BoardsAgree (Shared.run ⟨{}, {}⟩ ((countCall [shortCall]).moments ++
      (countCall [shortCall]).moments.take 3)).db ∧
    (Shared.run ⟨{}, {}⟩ ((countCall [shortCall]).moments ++
      (countCall [shortCall]).moments.take 3)).db.Ranked kVoiceBoard 1 3 :=
  ⟨boards_agree (exact_of_touched (by decide +kernel)), by
    unfold Db.Ranked
    decide +kernel⟩

end CdrProcessor
