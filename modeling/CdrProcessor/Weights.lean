import CdrProcessor.QueryService
import CdrProcessor.Sink
import Mathlib.Data.List.Induction

/-! What the readers make of a hash: numbers by their field, and one peer for each name
with everything that stands under it. -/

namespace CdrProcessor

/-! ## Numbers -/

theorem toNum_digits {n : Nat} (h : n < 2 ^ 64) : toNum (Decimal.digits n) = .ofNat n := by
  have hn : (UInt64.ofNat n).toNat = n := by
    rw [UInt64.toNat_ofNat']
    exact Nat.mod_eq_of_lt h
  have hread := fromChars_digits (.ofNat n)
  rw [hn] at hread
  unfold toNum
  rw [hread]
  rfl

theorem toNum_nil : toNum [] = 0 := by decide

/-- The number of a field, in whatever order the store returned the fields. -/
theorem fieldNum_perm {t : Table Text Text} {fields : List (Text × Text)}
    (h : fields.Perm (t.entries.map fun e => (e.1, e.2))) (field : Text) :
    fieldNum fields field = toNum ((t.lookup field).getD []) := by
  have hmem : ∀ e : Text × Text, e ∈ fields ↔ t.lookup e.1 = some e.2 := by
    intro e
    rw [h.mem_iff, ← Option.mem_def, AList.mem_lookup_iff, List.mem_map]
    constructor
    · rintro ⟨e', he, rfl⟩
      exact he
    · exact fun he => ⟨⟨e.1, e.2⟩, he, rfl⟩
  unfold fieldNum
  cases hf : fields.find? fun e => e.1 = field with
  | none =>
    have hnone : t.lookup field = none := by
      by_contra hsome
      obtain ⟨v, hv⟩ := Option.ne_none_iff_exists'.mp hsome
      have := List.find?_eq_none.mp hf (field, v) ((hmem (field, v)).mpr hv)
      simp at this
    rw [hnone]
    exact toNum_nil.symm
  | some e =>
    have he := (hmem e).mp (List.mem_of_find?_eq_some hf)
    have hfield : e.1 = field := by simpa using List.find?_some hf
    rw [← hfield, he]
    rfl

/-! ## Peers -/

def Peer.get (p : Peer) : LinkField → UInt64
  | .dur => p.duration
  | .sms => p.sms
  | .cnt => p.calls

/-- What `weigh` makes of an entry. -/
def Peer.put (p : Peer) (name : Text) (value : UInt64) : LinkField → Peer
  | .dur => { p with msisdn := name, duration := value }
  | .sms => { p with msisdn := name, sms := value }
  | .cnt => { p with msisdn := name, calls := value }

theorem Peer.ext_get {p q : Peer} (hm : p.msisdn = q.msisdn) (hg : ∀ f, p.get f = q.get f) :
    p = q := by
  have h₁ := hg .dur
  have h₂ := hg .sms
  have h₃ := hg .cnt
  cases p
  cases q
  simp only [Peer.get] at *
  rw [hm, h₁, h₂, h₃]

@[simp] theorem Peer.put_msisdn (p : Peer) (name : Text) (value : UInt64) (f : LinkField) :
    (p.put name value f).msisdn = name := by cases f <;> rfl

theorem Peer.put_get (p : Peer) (name : Text) (value : UInt64) (f g : LinkField) :
    (p.put name value f).get g = if g = f then value else p.get g := by
  cases f <;> cases g <;> rfl

theorem splitColon_field (name : Text) (f : LinkField) :
    splitColon (name ++ f.suffix) = some (name, f.suffix) := by
  cases f <;> exact splitColon_append (by decide)

theorem peerOf_field (name : Text) (f : LinkField) : peerOf (name ++ f.suffix) = name := by
  unfold peerOf
  rw [splitColon_field]
  rfl

theorem field_injective {name name' : Text} {f f' : LinkField}
    (h : name ++ f.suffix = name' ++ f'.suffix) : name = name' ∧ f = f' := by
  have hs := splitColon_field name f
  rw [h, splitColon_field, Option.some_inj, Prod.mk.injEq] at hs
  refine ⟨hs.1.symm, ?_⟩
  have := hs.2
  revert this
  cases f <;> cases f' <;> decide

theorem weigh_field (t : Table Text Peer) (name value : Text) (f : LinkField) :
    weigh t (name ++ f.suffix, value) = t.modify name fun p => p.put name (toNum value) f := by
  unfold weigh
  rw [splitColon_field]
  cases f <;> rfl

/-- The peer that stands for everything under a name. -/
def peerNamed (fields : List (Text × Text)) (name : Text) : Peer where
  msisdn := name
  duration := fieldNum fields (name ++ kFieldDurSuffix)
  sms := fieldNum fields (name ++ kFieldSmsSuffix)
  calls := fieldNum fields (name ++ kFieldCntSuffix)

theorem peerNamed_get (fields : List (Text × Text)) (name : Text) (f : LinkField) :
    (peerNamed fields name).get f = fieldNum fields (name ++ f.suffix) := by cases f <;> rfl

theorem fieldNum_append {fields : List (Text × Text)} {e : Text × Text}
    (he : e.1 ∉ fields.map Prod.fst) (field : Text) :
    fieldNum (fields ++ [e]) field = if e.1 = field then toNum e.2 else fieldNum fields field := by
  unfold fieldNum
  rw [List.find?_append]
  by_cases h : e.1 = field
  · have hnone : fields.find? (fun e => decide (e.1 = field)) = none := by
      rw [List.find?_eq_none]
      intro e' he'
      have : e'.1 ≠ field := by
        rintro rfl
        exact he (h ▸ List.mem_map_of_mem he')
      simpa using this
    simp [h, hnone]
  · simp [h]

/-- Fields of a link hash: a name, and the suffix of one of the three metrics. -/
def LinkFields (fields : List (Text × Text)) : Prop :=
  ∀ e ∈ fields, ∃ name f, e.1 = name ++ LinkField.suffix f

/-- **Every name once**, with what all its fields come to. -/
theorem weighed_lookup {fields : List (Text × Text)} (hn : LinkFields fields)
    (hd : (fields.map Prod.fst).Nodup) (name : Text) :
    (fields.foldl weigh ∅).lookup name =
      if ∃ e ∈ fields, peerOf e.1 = name then some (peerNamed fields name) else none := by
  induction fields using List.reverseRecOn generalizing name with
  | nil => rfl
  | append_singleton fields e ih =>
    have hn' : LinkFields fields := fun e he => hn e (List.mem_append_left _ he)
    rw [List.map_append, List.nodup_append] at hd
    have hnew : e.1 ∉ fields.map Prod.fst := fun he => hd.2.2 _ he e.1 (by simp) rfl
    obtain ⟨nm, f, hname⟩ := hn e (by simp)
    have ih := ih hn' hd.1
    have hstep : weigh (fields.foldl weigh ∅) e =
        (fields.foldl weigh ∅).modify nm fun p => p.put nm (toNum e.2) f := by
      rw [← weigh_field, ← hname]
    rw [List.foldl_append]
    change (weigh (fields.foldl weigh ∅) e).lookup name = _
    rw [hstep]
    unfold Table.modify
    have hpeer : peerOf e.1 = nm := by rw [hname, peerOf_field]
    by_cases hnm : name = nm
    · subst hnm
      rw [AList.lookup_insert, if_pos ⟨e, by simp, hpeer⟩, Option.some_inj]
      refine Peer.ext_get (Peer.put_msisdn ..) fun g => ?_
      have hold : ((fields.foldl weigh ∅).read name).get g =
          fieldNum fields (name ++ g.suffix) := by
        unfold Table.read
        rw [ih]
        split
        · exact peerNamed_get fields name g
        · next hno =>
          -- no field of this name was met yet
          have hnone : fields.find? (fun e => decide (e.1 = name ++ g.suffix)) = none := by
            rw [List.find?_eq_none]
            intro e' he'
            have : e'.1 ≠ name ++ g.suffix := fun h => hno ⟨e', he', by rw [h, peerOf_field]⟩
            simpa using this
          unfold fieldNum
          rw [hnone]
          cases g <;> rfl
      rw [Peer.put_get, hold, peerNamed_get, fieldNum_append hnew, hname]
      by_cases hg : g = f
      · subst hg; simp
      · rw [if_neg hg, if_neg fun h => hg (field_injective h).2.symm]
    · rw [AList.lookup_insert_ne hnm, ih]
      have hiff : (∃ e' ∈ fields ++ [e], peerOf e'.1 = name) ↔
          ∃ e' ∈ fields, peerOf e'.1 = name := by
        constructor
        · rintro ⟨e', he', hp⟩
          rcases List.mem_append.mp he' with he' | he'
          · exact ⟨e', he', hp⟩
          · obtain rfl := List.mem_singleton.mp he'
            exact absurd (hp.symm.trans hpeer) hnm
        · rintro ⟨e', he', hp⟩
          exact ⟨e', List.mem_append_left _ he', hp⟩
      have hsame : peerNamed (fields ++ [e]) name = peerNamed fields name := by
        refine Peer.ext_get rfl fun g => ?_
        rw [peerNamed_get, peerNamed_get, fieldNum_append hnew, if_neg]
        rw [hname]
        exact fun h => hnm (field_injective h).1.symm
      simp only [hiff, hsame]

/-- **What `link_weights` reads**: everybody linked, each once, with its three numbers. -/
theorem weighed_perm (visit : PeerVisit) {fields : List (Text × Text)}
    (hn : LinkFields fields) (hd : (fields.map Prod.fst).Nodup) {names : List Text}
    (hnames : names.Nodup) (hmem : ∀ b, b ∈ names ↔ ∃ e ∈ fields, peerOf e.1 = b) :
    (visit.peers (fields.foldl weigh ∅)).Perm (names.map (peerNamed fields)) := by
  refine (visit.peers_perm _).trans ?_
  generalize ht : fields.foldl weigh ∅ = t
  have hlookup : ∀ name p, t.lookup name = some p ↔
      name ∈ names ∧ p = peerNamed fields name := by
    intro name p
    rw [← ht, weighed_lookup hn hd, hmem]
    split
    · next h => rw [Option.some_inj]; exact ⟨fun hp => ⟨h, hp.symm⟩, fun hp => hp.2.symm⟩
    · next h => exact ⟨nofun, fun hp => absurd hp.1 h⟩
  have hentry : ∀ e ∈ t.entries, e.2 = peerNamed fields e.1 := by
    intro e he
    exact ((hlookup e.1 e.2).mp (AList.mem_lookup_iff.mpr he)).2
  have hkeys : t.keys.Perm names := by
    rw [List.perm_ext_iff_of_nodup t.keys_nodup hnames]
    intro name
    rw [← AList.mem_keys, ← AList.lookup_isSome, Option.isSome_iff_exists]
    constructor
    · rintro ⟨p, hp⟩
      exact ((hlookup name p).mp hp).1
    · exact fun h => ⟨_, (hlookup name _).mpr ⟨h, rfl⟩⟩
  have hvalues : t.entries.map Sigma.snd = t.keys.map (peerNamed fields) := by
    unfold AList.keys List.keys
    rw [List.map_map]
    exact List.map_congr_left hentry
  rw [hvalues]
  exact hkeys.map _

end CdrProcessor
