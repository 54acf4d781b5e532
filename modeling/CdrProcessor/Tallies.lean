import CdrProcessor.RoundTrip
import CdrProcessor.Places

/-! The totals of the processor beside those of the generator: the same fourteen numbers
and the same fourteen lines for the same records. -/

namespace CdrProcessor

/-! ## `Totals::format` -/

/-- One indented line, the name padded out and the value in plain decimal. -/
def appendField (out name : Text) (value : UInt64) : Text :=
  appendNumber (out ++ "\n\t".toList ++ name ++ List.replicate (kTotalsNameWidth - name.length) ' ')
    value

/-- `Totals::format`: one line for each counter, in order. -/
def Totals.format (t : Totals) : Text :=
  TotalField.all.foldl (fun out f => appendField out f.name (t.get f)) []

example : ({ records := 3, mocCnt := 2 } : Totals).format.take 30
    = "\n\trecords     3\n\tmoc_cnt     2".toList := by decide +kernel

theorem format_eq (t : Totals) :
    t.format = TotalField.all.flatMap fun f =>
      "\n\t".toList ++ Generator.ljust kTotalsNameWidth f.name ++ Decimal.digits (t.get f).toNat := by
  have h : ∀ (fs : List TotalField) (out : Text),
      fs.foldl (fun out f => appendField out f.name (t.get f)) out
        = out ++ fs.flatMap fun f => "\n\t".toList ++ Generator.ljust kTotalsNameWidth f.name
            ++ Decimal.digits (t.get f).toNat := by
    intro fs
    induction fs with
    | nil => simp
    | cons f fs ih =>
      intro out
      rw [List.foldl_cons, ih, List.flatMap_cons]
      simp only [appendField, appendNumber, Generator.ljust, List.append_assoc]
  exact h TotalField.all []

namespace Generator

/-! ## What one record adds -/

theorem FIELDS_eq : FIELDS = TotalField.all.map TotalField.name := rfl

theorem attr_bump (t : Totals) (f g : TotalField) (n : Nat) :
    (t.bump g.name n).attr f.name = t.attr f.name + if f = g then n else 0 := by
  unfold Totals.bump
  by_cases h : f = g
  · subst h
    simp
  · have hne : f.name ≠ g.name := fun he => h (TotalField.name_injective he)
    simp [Function.update_of_ne hne, h]

section add

variable {t : Totals} {cdr : Cdr} {r : CdrRecord}

/-- A record that raises one counter besides the number of records. -/
theorem attr_add_one (g : TotalField)
    (hadd : t.add cdr = some ((t.bump TotalField.records.name 1).bump g.name 1))
    (hg : ∀ f, totalAdds r f = (if f = .records then 1 else 0) + if f = g then 1 else 0) :
    ∃ t', t.add cdr = some t' ∧
      ∀ f : TotalField, t'.attr f.name = t.attr f.name + totalAdds r f := by
  refine ⟨_, hadd, fun f => ?_⟩
  rw [attr_bump, attr_bump, hg, Nat.add_assoc]

/-- One that raises a counter and the seconds beside it. -/
theorem attr_add_call (g d : TotalField)
    (hadd : t.add cdr = some (((t.bump TotalField.records.name 1).bump g.name 1).bump d.name
      cdr.duration))
    (hg : ∀ f, totalAdds r f = (if f = .records then 1 else 0) + (if f = g then 1 else 0)
      + if f = d then cdr.duration else 0) :
    ∃ t', t.add cdr = some t' ∧
      ∀ f : TotalField, t'.attr f.name = t.attr f.name + totalAdds r f := by
  refine ⟨_, hadd, fun f => ?_⟩
  rw [attr_bump, attr_bump, attr_bump, hg, Nat.add_assoc, Nat.add_assoc, Nat.add_assoc]

/-- **The if-chain over usage codes counts what the switch over usage types does.** -/
theorem attr_add (t : Totals) (hr : cdr.Reads r)
    (hdata : cdr.usage = "D".toList → cdr.bytesRx.isSome ∧ cdr.bytesTx.isSome) :
    ∃ t', t.add cdr = some t' ∧
      ∀ f : TotalField, t'.attr f.name = t.attr f.name + totalAdds r f := by
  have hu := hr.usageType
  cases ht : r.usageType with
  | moc =>
    rw [ht] at hu
    apply attr_add_call .mocCnt .mocDur
    · rw [Totals.add, ← hu]
      rfl
    · intro f
      rw [← hr.duration]
      cases f <;> simp [totalAdds, ht]
  | mtc =>
    rw [ht] at hu
    apply attr_add_call .mtcCnt .mtcDur
    · rw [Totals.add, ← hu]
      rfl
    · intro f
      rw [← hr.duration]
      cases f <;> simp [totalAdds, ht]
  | smsMo =>
    rw [ht] at hu
    apply attr_add_one .smsMoCnt
    · rw [Totals.add, ← hu]
      rfl
    · intro f
      cases f <;> simp [totalAdds, ht]
  | smsMt =>
    rw [ht] at hu
    apply attr_add_one .smsMtCnt
    · rw [Totals.add, ← hu]
      rfl
    · intro f
      cases f <;> simp [totalAdds, ht]
  | d =>
    rw [ht] at hu
    obtain ⟨hrx, htx⟩ := hdata hu.symm
    obtain ⟨rx, hrx⟩ := Option.isSome_iff_exists.mp hrx
    obtain ⟨tx, htx⟩ := Option.isSome_iff_exists.mp htx
    have hrx' := hr.bytesReceived
    have htx' := hr.bytesTransmitted
    rw [hrx, Option.getD_some] at hrx'
    rw [htx, Option.getD_some] at htx'
    refine ⟨((((t.bump TotalField.records.name 1).bump TotalField.dataCnt.name 1).bump
      TotalField.dataDur.name cdr.duration).bump TotalField.dataRx.name rx).bump
      TotalField.dataTx.name tx, ?_, ?_⟩
    · rw [Totals.add, ← hu, hrx, htx]
      rfl
    · intro f
      rw [attr_bump, attr_bump, attr_bump, attr_bump, attr_bump, ← hr.duration, ← hrx', ← htx']
      cases f <;> simp [totalAdds, ht]
  | u =>
    rw [ht] at hu
    apply attr_add_one .noansCnt
    · rw [Totals.add, ← hu]
      rfl
    · intro f
      cases f <;> simp [totalAdds, ht]
  | b =>
    rw [ht] at hu
    apply attr_add_one .busyCnt
    · rw [Totals.add, ← hu]
      rfl
    · intro f
      cases f <;> simp [totalAdds, ht]
  | x =>
    rw [ht] at hu
    apply attr_add_one .failedCnt
    · rw [Totals.add, ← hu]
      rfl
    · intro f
      cases f <;> simp [totalAdds, ht]

end add

/-! ## A whole run -/

/-- Every line of the run is read, and both sides add the same up. -/
theorem addAll_reads (sep : Char) (cdrs : List Cdr) (hr : ∀ c ∈ cdrs, c.InRange)
    (hsep : ∀ c ∈ cdrs, ∀ f ∈ c.fields, sep ∉ f)
    (hdata : ∀ c ∈ cdrs, c.usage = "D".toList → c.bytesRx.isSome ∧ c.bytesTx.isSome) (t : Totals) :
    ∃ t' records, t.addAll cdrs = some t' ∧
      cdrs.mapM (fun c => Parser.csvParser sep (csvRecord c sep)) = some records ∧
      ∀ f : TotalField, t'.attr f.name = t.attr f.name + (records.map (totalAdds · f)).sum := by
  induction cdrs generalizing t with
  | nil => exact ⟨t, [], rfl, rfl, fun f => rfl⟩
  | cons c cdrs ih =>
    obtain ⟨hc, hr⟩ := List.forall_mem_cons.mp hr
    obtain ⟨hcs, hsep⟩ := List.forall_mem_cons.mp hsep
    obtain ⟨hcd, hdata⟩ := List.forall_mem_cons.mp hdata
    obtain ⟨r, hread, hreads⟩ := csvRecord_reads_back c sep hc hcs
    obtain ⟨t₁, hadd, hattr⟩ := attr_add t hreads hcd
    obtain ⟨t₂, records, hall, hmap, hsum⟩ := ih hr hsep hdata t₁
    refine ⟨t₂, r :: records, ?_, ?_, fun f => ?_⟩
    · unfold Totals.addAll
      rw [List.foldlM_cons, hadd]
      exact hall
    · rw [List.mapM_cons, hread, hmap]
      rfl
    · rw [hsum, hattr, List.map_cons, List.sum_cons, Nat.add_assoc]

theorem addBatch_get_toNat (records : List CdrRecord) (f : TotalField) :
    ((({} : CdrProcessor.Totals).addBatch records).get f).toNat
      = (records.map (totalAdds · f)).sum % 2 ^ 64 := by
  have h : (({} : CdrProcessor.Totals).addBatch records).get f
      = ({} : CdrProcessor.Totals).get f + UInt64.ofNat (amount records (.total f)) :=
    countedValue_fold records {} {} (.total f)
  have h0 : ({} : CdrProcessor.Totals).get f = 0 := by cases f <;> rfl
  rw [h, h0, UInt64.zero_add, UInt64.toNat_ofNat']
  rfl

/-- **The two blocks of totals can be diffed.** -/
theorem totals_agree (sep : Char) (cdrs : List Cdr) (hr : ∀ c ∈ cdrs, c.InRange)
    (hsep : ∀ c ∈ cdrs, ∀ f ∈ c.fields, sep ∉ f)
    (hdata : ∀ c ∈ cdrs, c.usage = "D".toList → c.bytesRx.isSome ∧ c.bytesTx.isSome)
    (hsmall : ∀ t, ({} : Totals).addAll cdrs = some t → ∀ field ∈ FIELDS, t.attr field < 2 ^ 64) :
    ∃ t records, ({} : Totals).addAll cdrs = some t ∧
      cdrs.mapM (fun c => Parser.csvParser sep (csvRecord c sep)) = some records ∧
      (∀ f : TotalField,
        ((({} : CdrProcessor.Totals).addBatch records).get f).toNat = t.attr f.name) ∧
      (({} : CdrProcessor.Totals).addBatch records).format = t.format := by
  obtain ⟨t, records, hall, hmap, hsum⟩ := addAll_reads sep cdrs hr hsep hdata {}
  have heq : ∀ f : TotalField,
      ((({} : CdrProcessor.Totals).addBatch records).get f).toNat = t.attr f.name := by
    intro f
    have hf : f.name ∈ FIELDS := List.mem_map_of_mem f.mem_all
    have hlt := hsmall t hall f.name hf
    have hs := hsum f
    rw [Nat.zero_add] at hs
    rw [addBatch_get_toNat, ← hs, Nat.mod_eq_of_lt hlt]
  refine ⟨t, records, hall, hmap, heq, ?_⟩
  rw [format_eq, Totals.format, FIELDS_eq, List.flatMap_map]
  simp only [heq]
  rfl

/-- A session between a call that is taken and one that is not. -/
def threeCdrs : List Cdr :=
  [{ dataSession with
      usage := "MOC".toList, duration := 125, bytesRx := none, bytesTx := none,
      secondPartyImsi := "4".toList, secondPartyMsisdn := "972502".toList }, dataSession,
    { dataSession with
      usage := "U".toList, duration := 0, bytesRx := none, bytesTx := none,
      secondPartyMsisdn := "972502".toList }]

theorem threeCdrs_inRange : ∀ c ∈ threeCdrs, c.InRange := by
  have himsi : Parser.IsShort 15 "4".toList := by decide
  have hmsisdn : Parser.IsShort 15 "972502".toList := by decide
  refine List.forall_mem_cons.mpr ⟨?_, List.forall_mem_cons.mpr ⟨dataSession_inRange,
    List.forall_mem_singleton.mpr ?_⟩⟩
  · exact { dataSession_inRange with
      usage := by decide, duration := by decide, bytesRx := by rintro n ⟨⟩,
      bytesTx := by rintro n ⟨⟩, secondPartyImsi := .inr himsi, secondPartyMsisdn := .inr hmsisdn }
  · exact { dataSession_inRange with
      usage := by decide, duration := by decide, bytesRx := by rintro n ⟨⟩,
      bytesTx := by rintro n ⟨⟩, secondPartyMsisdn := .inr hmsisdn }

theorem totals_agree_threeCdrs :
    ∃ t records, ({} : Totals).addAll threeCdrs = some t ∧
      threeCdrs.mapM (fun c => Parser.csvParser '|' (csvRecord c '|')) = some records ∧
      (∀ f : TotalField,
        ((({} : CdrProcessor.Totals).addBatch records).get f).toNat = t.attr f.name) ∧
      (({} : CdrProcessor.Totals).addBatch records).format = t.format := by
  apply totals_agree
  · exact threeCdrs_inRange
  · decide +kernel
  · decide
  · intro t ht
    have hall : ∀ t ∈ ({} : Totals).addAll threeCdrs, ∀ field ∈ FIELDS, t.attr field < 2 ^ 64 := by
      decide +kernel
    exact hall t ht

end Generator

end CdrProcessor
