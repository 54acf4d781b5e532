import CdrProcessor.Counter

/-! Where each counter lives in the store, and what a batch of commands does to the
values there: commands on different places do not meet, and those on one add up. -/

namespace CdrProcessor

/-! ## Places -/

/-- A field of a hash, or a member of a sorted set. -/
inductive Place where
  | hash (key field : Text)
  | board (key member : Text)
  deriving DecidableEq, Repr

def Counter.place : Counter → Place
  | .sub msisdn f => .hash (appendNumber kSubPrefix msisdn) f.name
  | .op mccmnc f => .hash (appendNumber kOpPrefix mccmnc.toUInt64) f.name
  | .link owner peer f =>
    .hash (appendNumber kLinkPrefix owner) (appendNumber [] peer ++ f.suffix)
  | .subBoard msisdn b => .board b.key (appendNumber [] msisdn)
  | .opBoard mccmnc b => .board b.key (appendNumber [] mccmnc.toUInt64)
  | .total f => .hash kTotalKey f.name

/-- Where the progress of a source is marked. -/
def markPlace (source : Text) : Place := .hash kProgressKey source

/-- The first letter of a key tells what it is the key of. -/
theorem head_appendNumber {out : Text} (value : UInt64) (h : out ≠ []) :
    (appendNumber out value).head? = out.head? := by
  unfold appendNumber
  exact List.head?_append_of_ne_nil _ h

theorem SubField.name_injective : Function.Injective SubField.name := by
  intro f g h; revert h; cases f <;> cases g <;> decide

theorem OpField.name_injective : Function.Injective OpField.name := by
  intro f g h; revert h; cases f <;> cases g <;> decide

theorem TotalField.name_injective : Function.Injective TotalField.name := by
  intro f g h; revert h; cases f <;> cases g <;> decide

theorem LinkField.suffix_injective : Function.Injective LinkField.suffix := by
  intro f g h; revert h; cases f <;> cases g <;> decide

theorem SubBoard.key_injective : Function.Injective SubBoard.key := by
  intro f g h; revert h; cases f <;> cases g <;> decide

theorem OpBoard.key_injective : Function.Injective OpBoard.key := by
  intro f g h; revert h; cases f <;> cases g <;> decide

theorem subBoard_ne_opBoard (b : SubBoard) (b' : OpBoard) : b.key ≠ b'.key := by
  cases b <;> cases b' <;> decide

/-- The first letters of the hash keys: `s`, `o`, `l` and `t`. -/
def initialOf : Counter → Option Char
  | .sub _ _ => some 's'
  | .op _ _ => some 'o'
  | .link _ _ _ => some 'l'
  | .subBoard _ _ => some 't'
  | .opBoard _ _ => some 't'
  | .total _ => some 't'

theorem hash_initial {c : Counter} {key field : Text} (h : c.place = .hash key field) :
    key.head? = initialOf c := by
  cases c with
  | sub m f =>
    cases h
    exact head_appendNumber m (by decide)
  | op k f =>
    cases h
    exact head_appendNumber _ (by decide)
  | link a b f =>
    cases h
    exact head_appendNumber a (by decide)
  | subBoard m b => cases h
  | opBoard k b => cases h
  | total f => cases h; rfl

theorem mark_ne_place (source : Text) (c : Counter) : markPlace source ≠ c.place := by
  intro h
  have hi := hash_initial h.symm
  have hp : kProgressKey.head? = some 'p' := by decide
  rw [hp] at hi
  cases c <;> cases hi

/-- The field of a link hash names its peer. -/
theorem linkField_injective {b b' : UInt64} {f f' : LinkField}
    (h : appendNumber [] b ++ f.suffix = appendNumber [] b' ++ f'.suffix) : b = b' ∧ f = f' := by
  have hs : ∀ g : LinkField, ∃ t, g.suffix = ':' :: t := by
    intro g; cases g <;> exact ⟨_, rfl⟩
  obtain ⟨t, ht⟩ := hs f
  obtain ⟨t', ht'⟩ := hs f'
  unfold appendNumber at h
  rw [List.nil_append, List.nil_append, ht, ht'] at h
  obtain ⟨hb, hf⟩ := Decimal.digits_append_inj (by decide) (by decide) h
  rw [← ht, ← ht'] at hf
  exact ⟨UInt64.toNat.inj hb, LinkField.suffix_injective hf⟩

theorem toUInt64_injective {a b : UInt32} (h : a.toUInt64 = b.toUInt64) : a = b := by
  have := congrArg UInt64.toNat h
  rw [UInt32.toNat_toUInt64, UInt32.toNat_toUInt64] at this
  exact UInt32.toNat.inj this

/-- **Every counter has a place of its own.** -/
theorem place_injective : Function.Injective Counter.place := by
  intro c d h
  cases c with
  | sub m f =>
    have hi := hash_initial (c := d) h.symm
    rw [hash_initial (c := .sub m f) rfl] at hi
    cases d <;> cases hi
    · simp only [Counter.place, Place.hash.injEq] at h
      rw [appendNumber_injective _ h.1, SubField.name_injective h.2]
  | op k f =>
    have hi := hash_initial (c := d) h.symm
    rw [hash_initial (c := .op k f) rfl] at hi
    cases d <;> cases hi
    · simp only [Counter.place, Place.hash.injEq] at h
      rw [toUInt64_injective (appendNumber_injective _ h.1), OpField.name_injective h.2]
  | link a b f =>
    have hi := hash_initial (c := d) h.symm
    rw [hash_initial (c := .link a b f) rfl] at hi
    cases d <;> cases hi
    · simp only [Counter.place, Place.hash.injEq] at h
      obtain ⟨hb, hf⟩ := linkField_injective h.2
      rw [appendNumber_injective _ h.1, hb, hf]
  | subBoard m b =>
    cases d with
    | subBoard m' b' =>
      simp only [Counter.place, Place.board.injEq] at h
      rw [SubBoard.key_injective h.1, appendNumber_injective _ h.2]
    | opBoard k b' =>
      simp only [Counter.place, Place.board.injEq] at h
      exact absurd h.1 (subBoard_ne_opBoard b b')
    | sub | op | link | total => cases h
  | opBoard k b =>
    cases d with
    | subBoard m b' =>
      simp only [Counter.place, Place.board.injEq] at h
      exact absurd h.1.symm (subBoard_ne_opBoard b' b)
    | opBoard k' b' =>
      simp only [Counter.place, Place.board.injEq] at h
      rw [OpBoard.key_injective h.1, toUInt64_injective (appendNumber_injective _ h.2)]
    | sub | op | link | total => cases h
  | total f =>
    have hi := hash_initial (c := d) h.symm
    rw [hash_initial (c := .total f) rfl] at hi
    cases d with
    | total f' =>
      simp only [Counter.place, Place.hash.injEq] at h
      rw [TotalField.name_injective h.2]
    | subBoard | opBoard => cases h
    | sub | op | link => cases hi

/-! ## The commands on a place -/

/-- What the store holds at a place. -/
def Db.value (db : Db) : Place → Option Nat
  | .hash key field => (db.hash key).lookup field
  | .board key member => (db.board key).lookup member

/-- A missing value counts as 0. -/
def Db.count (db : Db) (p : Place) : Nat := (db.value p).getD 0

/-- The call that adds to a counter. -/
def Counter.call (c : Counter) (value : UInt64) : Call :=
  match c.place with
  | .hash key field => .increment key field value
  | .board key member => .rank key member value

/-- What a counter may come to: a hash value is a signed 64-bit number, and a score
is exact below 2^53. -/
def Counter.bound (c : Counter) : Nat :=
  match c.place with
  | .hash _ _ => int64Bound
  | .board _ _ => 2 ^ 53

theorem put_value (m : Text → Table Text Nat) (key field key' field' : Text) (value : Nat) :
    ((put m key field value) key').lookup field' =
      if key' = key ∧ field' = field then some value else (m key').lookup field' := by
  unfold put
  by_cases hk : key' = key
  · subst hk
    rw [Function.update_self]
    by_cases hf : field' = field
    · subst hf; simp
    · rw [AList.lookup_insert_ne hf, if_neg (fun h => hf h.2)]
  · rw [Function.update_of_ne hk, if_neg (fun h => hk h.1)]

theorem roundDouble_of_lt {n : Nat} (h : n < 2 ^ 53) : roundDouble n = n := if_pos h

/-- One counter call that stays within bounds succeeds and adds its value. -/
theorem runCommand_call {db : Db} {c : Counter} {v : UInt64}
    (h : db.count c.place + v.toNat < c.bound) :
    ∃ db', runCommand (c.call v).command db = some db' ∧
      ∀ p, db'.value p = if p = c.place then some (db.count c.place + v.toNat) else db.value p := by
  unfold Counter.bound at h
  unfold Counter.call
  cases hp : c.place with
  | hash key field =>
    rw [hp] at h
    refine ⟨_, if_pos h, ?_⟩
    intro p
    cases p with
    | hash key' field' =>
      simp only [Db.value, Place.hash.injEq]
      exact put_value db.hash key field key' field' _
    | board key' member' => simp [Db.value]
  | board key member =>
    rw [hp] at h
    refine ⟨_, rfl, ?_⟩
    intro p
    cases p with
    | hash key' field' => simp [Db.value]
    | board key' member' =>
      have hr : roundDouble (db.count (.board key member) + roundDouble v.toNat) =
          db.count (.board key member) + v.toNat := by
        have h' : db.count (.board key member) + v.toNat < 2 ^ 53 := h
        rw [roundDouble_of_lt (n := v.toNat) (by omega), roundDouble_of_lt h']
      simp only [Db.value, Place.board.injEq]
      rw [← hr]
      exact put_value db.board key member key' member' _

/-- A mark is always taken, and changes its own place alone. -/
theorem runCommand_mark (db : Db) (source : Text) (seq : UInt64) :
    ∃ db', runCommand (Call.mark source seq).command db = some db' ∧
      ∀ p, db'.value p = if p = markPlace source then some seq.toNat else db.value p := by
  refine ⟨_, rfl, ?_⟩
  intro p
  cases p with
  | hash key' field' =>
    simp only [Db.value, markPlace, Place.hash.injEq]
    exact put_value db.hash kProgressKey source key' field' _
  | board key' member' => simp [Db.value, markPlace]

/-- No command leaves more in a hash than 64 bits hold. -/
theorem runCommand_hash_lt {c : Command} {db db' : Db} (h : runCommand c db = some db')
    {key field : Text} (hb : db.count (.hash key field) < 2 ^ 64) :
    db'.count (.hash key field) < 2 ^ 64 := by
  have hput : ∀ {key' field' : Text} {value : Nat}, value < 2 ^ 64 →
      (((put db.hash key' field' value) key).lookup field).getD 0 < 2 ^ 64 := by
    intro key' field' value hv
    rw [put_value]
    split
    · exact hv
    · exact hb
  cases c with
  | hincrby key' field' value =>
    obtain ⟨hlt, h⟩ := Option.ite_none_right_eq_some.mp h
    cases h
    exact hput (lt_trans hlt (by decide))
  | zincrby board value member =>
    cases h
    exact hb
  | hset key' field' value =>
    cases h
    exact hput (UInt64.toNat_lt value)

theorem runAll_hash_lt (cs : List Command) {db : Db} {key field : Text}
    (hb : db.count (.hash key field) < 2 ^ 64) :
    (runAll redis cs db).2.count (.hash key field) < 2 ^ 64 := by
  induction cs generalizing db with
  | nil => exact hb
  | cons c cs ih =>
    unfold runAll
    refine ih ?_
    cases hc : runCommand c db with
    | some db' =>
      rw [redis_run hc]
      exact runCommand_hash_lt hc hb
    | none =>
      rw [redis_run_refused hc]
      exact hb

end CdrProcessor
