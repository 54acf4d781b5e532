import CdrProcessor.FileSource
import CdrProcessor.Parser

/-! Everything a file source hands out, call after call, and the pointers under it: the
mapping, the cursor into it and the `memchr` that moves the cursor. -/

namespace CdrProcessor

/-! ## The pointers -/

/-- `std::memchr` for a newline from an offset to the end of the mapping. -/
def memchrNewline (data : Text) (pos : Nat) : Option Nat :=
  ((data.drop pos).findIdx? (· = '\n')).map (pos + ·)

/-- `FileSource` as it is: `pos` is `m_pos` as an offset into the mapping, `m_end` stands
behind its last byte. -/
structure MappedSource where
  data : Text
  parser : IParser
  resumeSeq : UInt64
  pos : Nat
  parsed : Nat := 0
  rejected : Nat := 0
  failed : Bool := false

/-- The constructor.  Without a header both pointers stay null. -/
def MappedSource.make (data : Text) (parser : IParser) (resumeSeq : UInt64) : MappedSource :=
  match parseHeader data, memchrNewline data 0 with
  | some _, some newLine => { data, parser, resumeSeq, pos := newLine + 1 }
  | _, _ => { data := [], parser, resumeSeq, pos := 0, failed := true }

/-- The loop of `next`, cursor and all; every turn moves the cursor, so the length of the
mapping is fuel enough. -/
def scanBatch (parser : IParser) (resumeSeq : UInt64) (data : Text) :
    Nat → Nat → List CdrRecord → Nat → List CdrRecord × Nat × Nat
  | 0, pos, out, rejected => (out, pos, rejected)
  | fuel + 1, pos, out, rejected =>
    if ¬ pos < data.length ∨ ¬ out.length < kFileBatchSize then (out, pos, rejected)
    else
      let newLine := memchrNewline data pos
      let endLine := newLine.getD data.length
      let line := (data.drop pos).take (endLine - pos)
      let pos := match newLine with
        | some newLine => newLine + 1
        | none => data.length
      match parser line with
      | some record =>
        if record.sequence ≤ resumeSeq then scanBatch parser resumeSeq data fuel pos out rejected
        else scanBatch parser resumeSeq data fuel pos (out ++ [record]) rejected
      | none => scanBatch parser resumeSeq data fuel pos out (rejected + 1)

def MappedSource.next (s : MappedSource) : Status × List CdrRecord × MappedSource :=
  if s.failed then (.fail, [], { s with failed := false })
  else
    let r := scanBatch s.parser s.resumeSeq s.data (s.data.length - s.pos) s.pos [] s.rejected
    if r.1 = [] then (.done, [], { s with pos := r.2.1, rejected := r.2.2 })
    else
      (.ok, r.1, { s with pos := r.2.1, rejected := r.2.2, parsed := s.parsed + r.1.length })

/-- The source behind so many calls. -/
def MappedSource.after (s : MappedSource) : Nat → MappedSource
  | 0 => s
  | k + 1 => s.next.2.2.after k

/-! ## The cursor stays inside -/

/-- The cursor is in the mapping or right behind it. -/
def MappedSource.Inside (s : MappedSource) : Prop := s.pos ≤ s.data.length

/-- What is left behind the cursor is all that the source depends on. -/
def MappedSource.source (s : MappedSource) : FileSource where
  parser := s.parser
  resumeSeq := s.resumeSeq
  pos := s.data.drop s.pos
  parsed := s.parsed
  rejected := s.rejected
  failed := s.failed

theorem findIdx?_newline (s : Text) :
    match s.findIdx? (· = '\n') with
    | some n => n < s.length ∧ s.takeWhile (· ≠ '\n') = s.take n ∧
        (s.dropWhile (· ≠ '\n')).drop 1 = s.drop (n + 1)
    | none => s.takeWhile (· ≠ '\n') = s ∧ s.dropWhile (· ≠ '\n') = [] := by
  induction s with
  | nil => exact ⟨rfl, rfl⟩
  | cons c s ih =>
    rw [List.findIdx?_cons]
    by_cases hc : c = '\n'
    · subst hc
      simp
    · have hne : decide (c ≠ '\n') = true := decide_eq_true hc
      have htw : (c :: s).takeWhile (· ≠ '\n') = c :: s.takeWhile (· ≠ '\n') :=
        List.takeWhile_cons_of_pos hne
      have hdw : (c :: s).dropWhile (· ≠ '\n') = s.dropWhile (· ≠ '\n') :=
        List.dropWhile_cons_of_pos hne
      rw [if_neg (by simpa using hc), htw, hdw]
      cases hn : s.findIdx? (· = '\n') with
      | none =>
        rw [hn] at ih
        exact ⟨congrArg _ ih.1, ih.2⟩
      | some n =>
        rw [hn] at ih
        obtain ⟨hlt, htake, hdrop⟩ := ih
        exact ⟨Nat.succ_lt_succ hlt, congrArg _ htake, hdrop⟩

/-- A turn of the loop takes the line at the cursor and moves behind it. -/
theorem memchr_line {data : Text} {pos : Nat} (hp : pos < data.length) :
    (data.drop pos).take ((memchrNewline data pos).getD data.length - pos)
        = (data.drop pos).takeWhile (· ≠ '\n') ∧
      ∃ pos', (match memchrNewline data pos with
          | some newLine => newLine + 1
          | none => data.length) = pos' ∧
        pos < pos' ∧ pos' ≤ data.length ∧
        data.drop pos' = ((data.drop pos).dropWhile (· ≠ '\n')).drop 1 := by
  have h := findIdx?_newline (data.drop pos)
  unfold memchrNewline
  cases hn : (data.drop pos).findIdx? (· = '\n') with
  | none =>
    rw [hn] at h
    refine ⟨?_, data.length, rfl, hp, le_refl _, ?_⟩
    · rw [h.1]
      exact List.take_of_length_le (by simp)
    · rw [h.2, List.drop_length, List.drop_nil]
  | some n =>
    rw [hn] at h
    obtain ⟨hlt, htake, hdrop⟩ := h
    rw [List.length_drop] at hlt
    refine ⟨?_, pos + n + 1, rfl, by omega, by omega, ?_⟩
    · rw [htake, Option.map_some, Option.getD_some, Nat.add_sub_cancel_left]
    · rw [hdrop, List.drop_drop, Nat.add_assoc]

/-- The loop over the pointers does what the loop over the text behind the cursor does,
and leaves the cursor inside. -/
theorem scanBatch_spec (parser : IParser) (resumeSeq : UInt64) (data : Text) (fuel pos : Nat)
    (out : List CdrRecord) (rejected : Nat) (hp : pos ≤ data.length)
    (hf : data.length - pos ≤ fuel) :
    ∃ out' pos' rejected', scanBatch parser resumeSeq data fuel pos out rejected
        = (out', pos', rejected') ∧
      (pos ≤ pos' ∧ pos' ≤ data.length) ∧
      readBatch parser resumeSeq fuel (data.drop pos) out rejected
        = (out', data.drop pos', rejected') := by
  induction fuel generalizing pos out rejected with
  | zero => exact ⟨out, pos, rejected, rfl, ⟨le_refl _, hp⟩, rfl⟩
  | succ fuel ih =>
    have hstop : (¬ pos < data.length ∨ ¬ out.length < kFileBatchSize) ↔
        (data.drop pos = [] ∨ ¬ out.length < kFileBatchSize) := by
      rw [List.drop_eq_nil_iff, not_lt]
    unfold scanBatch readBatch
    by_cases hs : data.drop pos = [] ∨ ¬ out.length < kFileBatchSize
    · rw [if_pos hs, if_pos (hstop.mpr hs)]
      exact ⟨out, pos, rejected, rfl, ⟨le_refl _, hp⟩, rfl⟩
    · rw [if_neg hs, if_neg (mt hstop.mp hs)]
      rw [not_or, List.drop_eq_nil_iff, not_le] at hs
      obtain ⟨hline, pos', hpos, hlt, hle, hrest⟩ := memchr_line hs.1
      dsimp only
      rw [hline, hpos, ← hrest]
      have hgo := fun out rejected => ih pos' out rejected hle (by omega)
      cases parser ((data.drop pos).takeWhile (· ≠ '\n')) with
      | none =>
        obtain ⟨o, p, r, h1, h2, h3⟩ := hgo out (rejected + 1)
        exact ⟨o, p, r, h1, ⟨by omega, h2.2⟩, h3⟩
      | some record =>
        dsimp only
        split
        · obtain ⟨o, p, r, h1, h2, h3⟩ := hgo out rejected
          exact ⟨o, p, r, h1, ⟨by omega, h2.2⟩, h3⟩
        · obtain ⟨o, p, r, h1, h2, h3⟩ := hgo (out ++ [record]) rejected
          exact ⟨o, p, r, h1, ⟨by omega, h2.2⟩, h3⟩

/-- `next` over the pointers refines `next` over the text that is left. -/
theorem MappedSource.next_refines {s : MappedSource} (hs : s.Inside) :
    s.next.2.2.Inside ∧ s.pos ≤ s.next.2.2.pos ∧ s.next.2.2.data = s.data ∧
      s.source.next = (s.next.1, s.next.2.1, s.next.2.2.source) := by
  unfold MappedSource.next FileSource.next
  by_cases hf : s.failed = true
  · have hf' : s.source.failed = true := hf
    rw [if_pos hf, if_pos hf']
    exact ⟨hs, le_refl _, rfl, rfl⟩
  · obtain ⟨out, pos', rejected', h1, h2, h3⟩ := scanBatch_spec s.parser s.resumeSeq s.data
      (s.data.length - s.pos) s.pos [] s.rejected hs (le_refl _)
    have hlen : s.source.pos.length = s.data.length - s.pos := List.length_drop
    have h3' : readBatch s.source.parser s.source.resumeSeq s.source.pos.length s.source.pos []
        s.source.rejected = (out, s.data.drop pos', rejected') := by
      rw [hlen]
      exact h3
    have hf' : ¬ s.source.failed = true := hf
    rw [if_neg hf, if_neg hf']
    dsimp only
    rw [h1, h3']
    by_cases ho : out = []
    · rw [if_pos ho, if_pos ho]
      exact ⟨h2.2, h2.1, rfl, rfl⟩
    · rw [if_neg ho, if_neg ho]
      exact ⟨h2.2, h2.1, rfl, rfl⟩

/-- The body is what stands behind the first newline. -/
theorem parseHeader_body {data : Text} {header : Fileheader} {body : Text}
    (h : parseHeader data = some (header, body)) :
    '\n' ∈ data ∧ body = (data.dropWhile (· ≠ '\n')).drop 1 := by
  unfold parseHeader at h
  split at h
  · cases h
  · next hn =>
    rw [not_not] at hn
    dsimp only at h
    split at h
    · cases h
    · split at h
      · cases h
      · split at h
        · cases h
        · cases h
          exact ⟨hn, rfl⟩

theorem MappedSource.make_source {data : Text} (parser : IParser) (resumeSeq : UInt64)
    {header : Fileheader} {body : Text} (h : parseHeader data = some (header, body)) :
    (MappedSource.make data parser resumeSeq).Inside ∧
      (MappedSource.make data parser resumeSeq).data = data ∧
      (MappedSource.make data parser resumeSeq).source = { parser, resumeSeq, pos := body } := by
  obtain ⟨hmem, rfl⟩ := parseHeader_body h
  have hfind := findIdx?_newline data
  unfold MappedSource.make memchrNewline
  rw [h, List.drop_zero]
  cases hn : data.findIdx? (· = '\n') with
  | none =>
    rw [List.findIdx?_eq_none_iff] at hn
    exact absurd (hn _ hmem) (by decide)
  | some n =>
    rw [hn] at hfind
    obtain ⟨hlt, -, hdrop⟩ := hfind
    refine ⟨?_, rfl, ?_⟩
    · change 0 + n + 1 ≤ data.length
      omega
    · rw [hdrop]
      change ({ parser, resumeSeq, pos := data.drop (0 + n + 1) } : FileSource) = _
      rw [Nat.zero_add]

/-- So many calls on: the cursor has not left, nor gone back, and the text behind it is
what the calls over texts have left. -/
theorem MappedSource.after_refines (k : Nat) {s : MappedSource} (hs : s.Inside) :
    (s.after k).Inside ∧ s.pos ≤ (s.after k).pos ∧ (s.after k).data = s.data := by
  induction k generalizing s with
  | zero => exact ⟨hs, le_refl _, rfl⟩
  | succ k ih =>
    obtain ⟨hi, hpos, hdata, -⟩ := MappedSource.next_refines hs
    obtain ⟨h1, h2, h3⟩ := ih hi
    exact ⟨h1, le_trans hpos h2, h3.trans hdata⟩

/-! ## All that is handed out -/

/-- A source that has not failed takes a batch off the front of what is left: a full one,
or everything. -/
theorem next_batch {s : FileSource} (hf : s.failed = false) :
    ∃ batch s', s.next = (if batch = [] then .done else .ok, batch, s') ∧
      s.upcoming = batch ++ s'.upcoming ∧ s'.failed = false ∧
      (s'.upcoming ≠ [] → batch.length = kFileBatchSize) ∧ batch.length ≤ kFileBatchSize := by
  obtain ⟨taken, pos', rejected', h1, h2, h3, h4⟩ :=
    readBatch_spec s.parser s.resumeSeq s.pos.length s.pos [] s.rejected (le_refl _) (by simp)
  rw [List.nil_append] at h1 h3 h4
  have hfull : past s.parser s.resumeSeq pos' ≠ [] → taken.length = kFileBatchSize := by
    intro hne
    rcases h4 with rfl | h4
    · exact absurd rfl hne
    · exact h4
  unfold FileSource.next
  rw [hf, h1]
  by_cases ht : taken = []
  · subst ht
    exact ⟨[], { s with pos := pos', rejected := rejected' }, by simp [hf], h2, hf, hfull, h3⟩
  · exact ⟨taken, { s with pos := pos', rejected := rejected', parsed := s.parsed + taken.length },
      by simp [ht, hf], h2, hf, hfull, h3⟩

/-- What a call returns: a batch, or the end once there are no more. -/
def handed (batches : List (List CdrRecord)) (k : Nat) : Status × List CdrRecord :=
  match batches[k]? with
  | some batch => (.ok, batch)
  | none => (.done, [])

theorem MappedSource.next_source {s : MappedSource} (hs : s.Inside) (hf : s.failed = false) :
    ∃ batch, (s.next.1, s.next.2.1) = (if batch = [] then .done else .ok, batch) ∧
      s.source.upcoming = batch ++ s.next.2.2.source.upcoming ∧ s.next.2.2.failed = false ∧
      s.next.2.2.Inside ∧
      (s.next.2.2.source.upcoming ≠ [] → batch.length = kFileBatchSize) := by
  obtain ⟨hi, -, -, href⟩ := MappedSource.next_refines hs
  obtain ⟨batch, s', hn, hup, hf', hfull, -⟩ := next_batch (s := s.source) hf
  rw [href] at hn
  obtain ⟨hst, hn⟩ := Prod.mk.inj hn
  obtain ⟨hbatch, rfl⟩ := Prod.mk.inj hn
  exact ⟨batch, by rw [hst, hbatch], hup, hf', hi, hfull⟩

/-- At the end a source stays at the end. -/
theorem MappedSource.after_end (k : Nat) {s : MappedSource} (hs : s.Inside)
    (hf : s.failed = false) (hend : s.source.upcoming = []) :
    ((s.after k).next.1, (s.after k).next.2.1) = (.done, []) := by
  induction k generalizing s with
  | zero =>
    obtain ⟨batch, hn, hup, -⟩ := MappedSource.next_source hs hf
    rw [hend] at hup
    obtain ⟨rfl, -⟩ := List.append_eq_nil_iff.mp hup.symm
    exact hn
  | succ k ih =>
    obtain ⟨batch, -, hup, hf', hi, -⟩ := MappedSource.next_source hs hf
    rw [hend] at hup
    exact ih hi hf' (List.append_eq_nil_iff.mp hup.symm).2

/-- **Call after call.**  Full batches, a last one that may be shorter, then the end. -/
theorem MappedSource.hands_out (n : Nat) {s : MappedSource} (hs : s.Inside)
    (hf : s.failed = false) (hn : s.source.upcoming.length ≤ n) :
    ∃ batches, batches.flatten = s.source.upcoming ∧ (∀ b ∈ batches, b ≠ []) ∧
      (∀ b ∈ batches.dropLast, b.length = kFileBatchSize) ∧
      ∀ k, ((s.after k).next.1, (s.after k).next.2.1) = handed batches k := by
  induction n generalizing s with
  | zero =>
    have hend : s.source.upcoming = [] := List.length_eq_zero_iff.mp (Nat.le_zero.mp hn)
    exact ⟨[], hend.symm, by simp, by simp, fun k => MappedSource.after_end k hs hf hend⟩
  | succ n ih =>
    obtain ⟨batch, hnext, hup, hf', hi, hfull⟩ := MappedSource.next_source hs hf
    by_cases hb : batch = []
    · have hend : s.source.upcoming = [] := by
        subst hb
        by_contra hne
        rw [hup, List.nil_append] at hne
        cases hfull hne
      exact ⟨[], hend.symm, by simp, by simp, fun k => MappedSource.after_end k hs hf hend⟩
    · have hlen : s.next.2.2.source.upcoming.length ≤ n := by
        have := List.length_pos_iff.mpr hb
        rw [hup, List.length_append] at hn
        omega
      obtain ⟨batches, hflat, hne, hdrop, hk⟩ := ih hi hf' hlen
      refine ⟨batch :: batches, ?_, ?_, ?_, ?_⟩
      · rw [List.flatten_cons, hflat, hup]
      · exact List.forall_mem_cons.mpr ⟨hb, hne⟩
      · intro b hmem
        cases batches with
        | nil => cases hmem
        | cons b' bs =>
          rw [List.dropLast_cons_of_ne_nil (List.cons_ne_nil _ _)] at hmem
          rcases List.mem_cons.mp hmem with rfl | hmem
          · apply hfull
            rw [← hflat]
            intro hnil
            exact hne b' List.mem_cons_self (List.append_eq_nil_iff.mp hnil).1
          · exact hdrop b hmem
      · intro k
        cases k with
        | zero =>
          change (s.next.1, s.next.2.1) = _
          rw [hnext, if_neg hb]
          rfl
        | succ k => exact hk k

/-- **A file source hands out exactly the records past the resume point.** -/
theorem file_source_hands_out {data : Text} (parser : IParser) (resumeSeq : UInt64)
    {header : Fileheader} {body : Text} (h : parseHeader data = some (header, body)) :
    ∃ batches : List (List CdrRecord),
      batches.flatten = ((lines body).filterMap parser).filter (fun r => ¬ r.sequence ≤ resumeSeq) ∧
      (∀ b ∈ batches, b ≠ []) ∧ (∀ b ∈ batches.dropLast, b.length = kFileBatchSize) ∧
      (∀ k, (((MappedSource.make data parser resumeSeq).after k).next.1,
        ((MappedSource.make data parser resumeSeq).after k).next.2.1) = handed batches k) ∧
      ∀ k, ((MappedSource.make data parser resumeSeq).after k).data = data ∧
        ((MappedSource.make data parser resumeSeq).after k).pos ≤ data.length := by
  obtain ⟨hi, hdata, hsource⟩ := MappedSource.make_source parser resumeSeq h
  have hf : (MappedSource.make data parser resumeSeq).failed = false := by
    have := congrArg FileSource.failed hsource
    exact this
  obtain ⟨batches, hflat, hne, hdrop, hk⟩ := MappedSource.hands_out _ hi hf (le_refl _)
  refine ⟨batches, ?_, hne, hdrop, hk, fun k => ?_⟩
  · rw [hflat, hsource]
    rfl
  · obtain ⟨hin, -, hd⟩ := MappedSource.after_refines k hi
    rw [hdata] at hd
    unfold MappedSource.Inside at hin
    rw [hd] at hin
    exact ⟨hd, hin⟩

/-- A body with a line that is refused, a record already applied and no final newline. -/
def tornBody : Text :=
  ("1|425010000000001|3|MOC|972501|01/02/2024|10:20:30|60|||4|972502\nnot a record\n" ++
    "2|425010000000001|3|MOC|972501|01/02/2024|10:21:30|60|||4|972502").toList

example : (lines (tornBody ++ ['\n'])).length = 3 ∧ lines (tornBody ++ ['\n']) = lines tornBody := by
  decide +kernel

theorem torn_handed_out :
    ∃ batches : List (List CdrRecord),
      batches.flatten = ((lines tornBody).filterMap (Parser.csvParser '|')).filter
        (fun r => ¬ r.sequence ≤ 1) ∧
      (∀ b ∈ batches, b ≠ []) ∧ (∀ b ∈ batches.dropLast, b.length = kFileBatchSize) ∧
      (∀ k, (((MappedSource.make ("CDR|csv|2\n".toList ++ tornBody)
          (Parser.csvParser '|') 1).after k).next.1,
        ((MappedSource.make ("CDR|csv|2\n".toList ++ tornBody)
          (Parser.csvParser '|') 1).after k).next.2.1) = handed batches k) ∧
      ∀ k, ((MappedSource.make ("CDR|csv|2\n".toList ++ tornBody)
          (Parser.csvParser '|') 1).after k).data = "CDR|csv|2\n".toList ++ tornBody ∧
        ((MappedSource.make ("CDR|csv|2\n".toList ++ tornBody)
          (Parser.csvParser '|') 1).after k).pos ≤ ("CDR|csv|2\n".toList ++ tornBody).length :=
  have h : parseHeader ("CDR|csv|2\n".toList ++ tornBody) = some (⟨"csv".toList, 2⟩, tornBody) := by
    decide +kernel
  file_source_hands_out (Parser.csvParser '|') 1 h

end CdrProcessor
