import CdrProcessor.Basic

/-! `FileSource`: the header of a file, and its lines handed out in batches of
records past a resume point. -/

namespace CdrProcessor

/-! ## The header -/

structure Fileheader where
  format : Text
  recordCount : UInt64
  deriving DecidableEq, Repr

/-- `FileSource::parse_header`, with the text behind the header line.  Of the count
only the digits it opens with are looked at. -/
def parseHeader (data : Text) : Option (Fileheader × Text) :=
  if '\n' ∉ data then none
  else
    let line := data.takeWhile (· ≠ '\n')
    if line.take 4 ≠ "CDR|".toList then none
    else
      let rest := line.drop 4
      if '|' ∉ rest then none
      else
        match fromChars ((rest.dropWhile (· ≠ '|')).drop 1) with
        | none => none
        | some (count, _) =>
          some (⟨rest.takeWhile (· ≠ '|'), count⟩, (data.dropWhile (· ≠ '\n')).drop 1)

/-! ## The source -/

/-- `pos` is what is left between the cursor and the end of the mapping. -/
structure FileSource where
  parser : IParser
  resumeSeq : UInt64
  pos : Text
  parsed : Nat := 0
  rejected : Nat := 0
  failed : Bool := false

inductive Status where
  | ok | done | fail
  deriving DecidableEq, Repr

/-- The constructor: a file that cannot be mapped, is empty or has no header fails. -/
def FileSource.make (map : Option Text) (parser : IParser) (resumeSeq : UInt64) : FileSource :=
  match map with
  | none => { parser, resumeSeq, pos := [], failed := true }
  | some [] => { parser, resumeSeq, pos := [], failed := true }
  | some data =>
    match parseHeader data with
    | none => { parser, resumeSeq, pos := [], failed := true }
    | some (_, body) => { parser, resumeSeq, pos := body }

/-- The loop of `next`; every turn takes a line, so the length of what is left is
fuel enough. -/
def readBatch (parser : IParser) (resumeSeq : UInt64) :
    Nat → Text → List CdrRecord → Nat → List CdrRecord × Text × Nat
  | 0, pos, out, rejected => (out, pos, rejected)
  | fuel + 1, pos, out, rejected =>
    if pos = [] ∨ ¬ out.length < kFileBatchSize then (out, pos, rejected)
    else
      let line := pos.takeWhile (· ≠ '\n')
      let rest := (pos.dropWhile (· ≠ '\n')).drop 1
      match parser line with
      | some record =>
        if record.sequence ≤ resumeSeq then readBatch parser resumeSeq fuel rest out rejected
        else readBatch parser resumeSeq fuel rest (out ++ [record]) rejected
      | none => readBatch parser resumeSeq fuel rest out (rejected + 1)

/-- `FileSource::next`: the status, the batch, and the source behind it. -/
def FileSource.next (s : FileSource) : Status × List CdrRecord × FileSource :=
  if s.failed then (.fail, [], { s with failed := false })
  else
    let r := readBatch s.parser s.resumeSeq s.pos.length s.pos [] s.rejected
    if r.1 = [] then (.done, [], { s with pos := r.2.1, rejected := r.2.2 })
    else
      (.ok, r.1, { s with pos := r.2.1, rejected := r.2.2, parsed := s.parsed + r.1.length })

/-! ## Lines -/

/-- The lines of a text: a last one without a newline counts, none follows a final
newline. -/
def lines : Text → List Text
  | [] => []
  | c :: s =>
    if c = '\n' then [] :: lines s
    else
      match lines s with
      | [] => [[c]]
      | l :: ls => (c :: l) :: ls

/-- What the parser accepts of a text, in order. -/
def records (parser : IParser) (text : Text) : List CdrRecord := (lines text).filterMap parser

/-- The accepted records of a whole file, none without a header. -/
def accepted (parser : IParser) (data : Text) : List CdrRecord :=
  match parseHeader data with
  | none => []
  | some (_, body) => records parser body

theorem lines_cons (c : Char) (s : Text) :
    lines (c :: s) = (c :: s).takeWhile (· ≠ '\n') ::
      lines (((c :: s).dropWhile (· ≠ '\n')).drop 1) := by
  induction s generalizing c with
  | nil =>
    by_cases hc : c = '\n'
    · subst hc; rfl
    · simp [lines, hc]
  | cons d s ih =>
    by_cases hc : c = '\n'
    · subst hc; simp [lines]
    · have hs := ih d
      rw [lines, if_neg hc, hs]
      simp [hc]

theorem lines_of_ne_nil {pos : Text} (h : pos ≠ []) :
    lines pos = pos.takeWhile (· ≠ '\n') :: lines ((pos.dropWhile (· ≠ '\n')).drop 1) := by
  cases pos with
  | nil => exact absurd rfl h
  | cons c s => exact lines_cons c s

theorem rest_length {pos : Text} (h : pos ≠ []) :
    ((pos.dropWhile (· ≠ '\n')).drop 1).length < pos.length := by
  have h1 : (pos.dropWhile (· ≠ '\n')).length ≤ pos.length := List.length_dropWhile_le _ _
  have h2 : 0 < pos.length := List.length_pos_iff.mpr h
  rw [List.length_drop]
  omega

/-! ## What is handed out -/

/-- The records of a text past a resume point. -/
def past (parser : IParser) (resumeSeq : UInt64) (text : Text) : List CdrRecord :=
  (records parser text).filter fun r => ¬ r.sequence ≤ resumeSeq

/-- What a source will still hand out. -/
def FileSource.upcoming (s : FileSource) : List CdrRecord := past s.parser s.resumeSeq s.pos

/-- One turn of the loop takes one line. -/
theorem past_line (parser : IParser) (resumeSeq : UInt64) {pos : Text} (h : pos ≠ []) :
    past parser resumeSeq pos =
      (match parser (pos.takeWhile (· ≠ '\n')) with
        | some record => if record.sequence ≤ resumeSeq then [] else [record]
        | none => []) ++ past parser resumeSeq ((pos.dropWhile (· ≠ '\n')).drop 1) := by
  unfold past records
  rw [lines_of_ne_nil h]
  cases hp : parser (pos.takeWhile (· ≠ '\n')) with
  | none => rw [List.filterMap_cons_none hp]; rfl
  | some r =>
    rw [List.filterMap_cons_some hp]
    by_cases hr : r.sequence ≤ resumeSeq
    · rw [List.filter_cons_of_neg (by simpa using hr)]; dsimp only; rw [if_pos hr]; rfl
    · rw [List.filter_cons_of_pos (by simpa using hr)]; dsimp only; rw [if_neg hr]; rfl

/-- **The loop of `next`.**  It takes a batch off the front of what is left, and
stops short of the end only with a full one. -/
theorem readBatch_spec (parser : IParser) (resumeSeq : UInt64) (fuel : Nat) (pos : Text)
    (out : List CdrRecord) (rejected : Nat) (hf : pos.length ≤ fuel)
    (ho : out.length ≤ kFileBatchSize) :
    ∃ taken pos' rejected',
      readBatch parser resumeSeq fuel pos out rejected = (out ++ taken, pos', rejected') ∧
      past parser resumeSeq pos = taken ++ past parser resumeSeq pos' ∧
      (out ++ taken).length ≤ kFileBatchSize ∧
      (pos' = [] ∨ (out ++ taken).length = kFileBatchSize) := by
  induction fuel generalizing pos out rejected with
  | zero =>
    have hp : pos = [] := List.length_eq_zero_iff.mp (by omega)
    subst hp
    exact ⟨[], [], rejected, by simp [readBatch], rfl, by simpa using ho, .inl rfl⟩
  | succ fuel ih =>
    unfold readBatch
    split
    · next hstop =>
      refine ⟨[], pos, rejected, by simp, rfl, by simpa using ho, ?_⟩
      rcases hstop with hp | hl
      · exact .inl hp
      · exact .inr (by simp; omega)
    · next hgo =>
      rw [not_or, not_not] at hgo
      obtain ⟨hp, hl⟩ := hgo
      have hlen := rest_length hp
      rw [past_line parser resumeSeq hp]
      dsimp only
      split
      · next record hr =>
        split
        · -- already applied
          exact ih _ _ _ (by omega) ho
        · obtain ⟨taken, pos', rejected', h1, h2, h3, h4⟩ :=
            ih ((pos.dropWhile (· ≠ '\n')).drop 1) (out ++ [record]) rejected (by omega)
              (by simp; omega)
          refine ⟨record :: taken, pos', rejected', by simpa using h1, ?_, by simpa using h3,
            by simpa using h4⟩
          rw [h2]
          rfl
      · exact ih _ _ _ (by omega) ho

/-- What `next` does with a source that has not failed. -/
theorem next_cases {s : FileSource} (hf : s.failed = false) :
    (∃ batch s', s.next = (.ok, batch, s') ∧ batch ≠ [] ∧ batch.length ≤ kFileBatchSize ∧
      s.upcoming = batch ++ s'.upcoming ∧ s'.failed = false ∧ s'.parser = s.parser ∧
      s'.resumeSeq = s.resumeSeq) ∨
    (∃ s', s.next = (.done, [], s') ∧ s.upcoming = []) := by
  obtain ⟨taken, pos', rejected', h1, h2, h3, h4⟩ :=
    readBatch_spec s.parser s.resumeSeq s.pos.length s.pos [] s.rejected (le_refl _) (by simp)
  rw [List.nil_append] at h1 h3 h4
  unfold FileSource.next
  rw [hf, h1]
  by_cases ht : taken = []
  · right
    subst ht
    refine ⟨{ s with pos := pos', rejected := rejected' }, by simp [hf], ?_⟩
    unfold FileSource.upcoming
    have hp : pos' = [] := by
      rcases h4 with h4 | h4
      · exact h4
      · exact absurd h4 (by decide)
    rw [h2, hp]
    rfl
  · left
    exact ⟨taken, { s with pos := pos', rejected := rejected', parsed := s.parsed + taken.length },
      by simp [ht, hf], ht, h3, h2, hf, rfl, rfl⟩

theorem next_failed {s : FileSource} (hf : s.failed = true) :
    s.next = (.fail, [], { s with failed := false }) := by
  unfold FileSource.next
  rw [if_pos hf]

/-- A batch comes off the front of what a source will hand out. -/
theorem next_ok {src src' : FileSource} {batch : List CdrRecord}
    (hn : src.next = (.ok, batch, src')) :
    src.failed = false ∧ src'.failed = false ∧ batch ≠ [] ∧
      src.upcoming = batch ++ src'.upcoming := by
  have hf : src.failed = false := by
    cases hf : src.failed with
    | false => rfl
    | true => rw [next_failed hf] at hn; cases hn
  rcases next_cases hf with ⟨b, s', h1, h2, -, h3, h4, -⟩ | ⟨s', h1, -⟩
  · rw [h1] at hn
    cases hn
    exact ⟨hf, h4, h2, h3⟩
  · rw [h1] at hn
    cases hn

/-- The end of a source that did not fail. -/
theorem next_done {src : FileSource} (hn : src.next.1 = .done) :
    src.failed = false ∧ src.upcoming = [] := by
  cases hf : src.failed with
  | true => rw [next_failed hf] at hn; cases hn
  | false =>
    rcases next_cases hf with ⟨b, s', h1, -⟩ | ⟨s', -, h2⟩
    · rw [h1] at hn; cases hn
    · exact ⟨rfl, h2⟩

/-- A source made from a readable file with a header hands out its records past the
resume point; any other has failed, and hands out nothing. -/
theorem make_upcoming (map : Option Text) (parser : IParser) (resume : UInt64) :
    (FileSource.make map parser resume).failed = true ∧
        (FileSource.make map parser resume).upcoming = [] ∨
      ∃ data, map = some data ∧ (FileSource.make map parser resume).failed = false ∧
        (FileSource.make map parser resume).upcoming =
          (accepted parser data).filter fun r => ¬ r.sequence ≤ resume := by
  unfold FileSource.make
  split
  · exact .inl ⟨rfl, rfl⟩
  · exact .inl ⟨rfl, rfl⟩
  · next data _ =>
    split
    · exact .inl ⟨rfl, rfl⟩
    · next header body h =>
      refine .inr ⟨data, rfl, rfl, ?_⟩
      unfold accepted
      rw [h]
      rfl

theorem make_of_header {parser : IParser} {resume : UInt64} {data body : Text}
    {header : Fileheader} (h : parseHeader data = some (header, body)) :
    FileSource.make (some data) parser resume = { parser, resumeSeq := resume, pos := body } := by
  cases data with
  | nil => cases h
  | cons c data =>
    unfold FileSource.make
    dsimp only
    rw [h]

/-- A source read from the start leaves out the records of sequence 0. -/
theorem past_zero (parser : IParser) (text : Text) :
    past parser 0 text = (records parser text).filter fun r => r.sequence ≠ 0 := by
  unfold past
  exact List.filter_congr fun r _ => decide_eq_decide.mpr (not_congr UInt64.le_zero_iff)

end CdrProcessor
