import CdrProcessor.FileSource

/-!
Which files are opened.  `CDR|<format>|<count>` is what a header is to be; `parse_header`
looks at no more of the count than the digits it opens with, and not at the format at all.
-/

namespace CdrProcessor

open Decimal (AllDigits Stops value)

/-- A header line as the generator writes it, with the text behind it. -/
structure Headed (data format count body : Text) : Prop where
  text : data = "CDR|".toList ++ (format ++ '|' :: (count ++ '\n' :: body))
  format_ne_nil : format ≠ []
  no_bar : '|' ∉ format
  one_line : '\n' ∉ format
  count_ne_nil : count ≠ []
  digits : AllDigits count
  range : value count < UInt64.size

/-- A first line that is taken for a header: any format without a bar, and a number with
any text behind it. -/
structure HeaderRead (data format number behind body : Text) : Prop where
  text : data = "CDR|".toList ++ (format ++ '|' :: (number ++ (behind ++ '\n' :: body)))
  no_bar : '|' ∉ format
  one_line : '\n' ∉ format
  number_ne_nil : number ≠ []
  digits : AllDigits number
  range : value number < UInt64.size
  stops : Stops behind
  behind_line : '\n' ∉ behind

theorem Headed.read {data format count body : Text} (h : Headed data format count body) :
    HeaderRead data format count [] body :=
  ⟨h.text, h.no_bar, h.one_line, h.count_ne_nil, h.digits, h.range, Decimal.stops_nil,
    List.not_mem_nil⟩

theorem HeaderRead.headed {data format number body : Text}
    (h : HeaderRead data format number [] body) (hf : format ≠ []) :
    Headed data format number body :=
  ⟨h.text, hf, h.no_bar, h.one_line, h.number_ne_nil, h.digits, h.range⟩

/-! ## What the code takes -/

theorem AllDigits.newline {s : Text} (h : AllDigits s) : '\n' ∉ s := fun hc => nomatch h _ hc

/-- The first line of a text that is taken. -/
def HeaderRead.line (format number behind : Text) : Text :=
  "CDR|".toList ++ (format ++ '|' :: (number ++ behind))

theorem HeaderRead.newline {data format number behind body : Text}
    (h : HeaderRead data format number behind body) : '\n' ∉ line format number behind := by
  simp only [line, List.mem_append, List.mem_cons, not_or]
  exact ⟨by decide, h.one_line, by decide, AllDigits.newline h.digits, h.behind_line⟩

theorem HeaderRead.data_eq {data format number behind body : Text}
    (h : HeaderRead data format number behind body) :
    data = line format number behind ++ '\n' :: body := by
  rw [h.text, line]
  simp only [List.append_assoc, List.cons_append]

theorem HeaderRead.parse {data format number behind body : Text}
    (h : HeaderRead data format number behind body) :
    parseHeader data = some (⟨format, UInt64.ofNat (value number)⟩, body) := by
  have hcount : fromChars (number ++ behind) = some (UInt64.ofNat (value number), behind) :=
    fromChars_eq_some.mpr ⟨number, rfl, h.number_ne_nil, h.digits, h.stops, h.range, rfl⟩
  have hprefix : (line format number behind).take 4 = "CDR|".toList := rfl
  have hrest : (line format number behind).drop 4 = format ++ '|' :: (number ++ behind) := rfl
  unfold parseHeader
  dsimp only
  rw [h.data_eq, if_neg (by simp), takeWhile_before h.newline, dropWhile_before h.newline,
    hprefix, if_neg (not_not.mpr rfl), hrest, if_neg (by simp), takeWhile_before h.no_bar,
    dropWhile_before h.no_bar, List.drop_succ_cons, List.drop_zero, hcount]
  rfl

/-- **What is taken.**  The header and the text behind it are those of a first line that
opens with `CDR|`, a format and the digits of a number. -/
theorem parseHeader_eq_some {data body : Text} {header : Fileheader} :
    parseHeader data = some (header, body) ↔
      ∃ format number behind, HeaderRead data format number behind body ∧
        header = ⟨format, UInt64.ofNat (value number)⟩ := by
  constructor
  · intro h
    by_cases hnewline : '\n' ∈ data
    · obtain ⟨first, rest, rfl, hfirst⟩ := List.eq_append_cons_of_mem hnewline
      unfold parseHeader at h
      dsimp only at h
      rw [if_neg (by simp), takeWhile_before hfirst, dropWhile_before hfirst, List.drop_succ_cons,
        List.drop_zero] at h
      split at h
      · cases h
      · next htag =>
        rw [not_not] at htag
        have hsplit := (List.take_append_drop 4 first).symm
        rw [htag] at hsplit
        split at h
        · cases h
        · next hbar =>
          rw [not_not] at hbar
          obtain ⟨format, counted, hrest, hformat⟩ := List.eq_append_cons_of_mem hbar
          rw [hrest, takeWhile_before hformat, dropWhile_before hformat, List.drop_succ_cons,
            List.drop_zero] at h
          rw [hrest] at hsplit
          split at h
          · cases h
          · next count behind hcount =>
            cases h
            obtain ⟨number, rfl, hne, hall, hstops, hlt, rfl⟩ := fromChars_eq_some.mp hcount
            simp only [hsplit, List.mem_append, List.mem_cons, not_or] at hfirst
            refine ⟨format, number, behind, ⟨?_, hformat, hfirst.2.1, hne, hall, hlt, hstops,
              hfirst.2.2.2.2⟩, rfl⟩
            rw [hsplit]
            simp only [List.append_assoc, List.cons_append]
    · rw [parseHeader, if_pos hnewline] at h
      cases h
  · rintro ⟨format, number, behind, h, rfl⟩
    exact h.parse

/-- The parts of a header are told from the text. -/
theorem HeaderRead.unique {data format number behind body format' number' behind' body' : Text}
    (h : HeaderRead data format number behind body)
    (h' : HeaderRead data format' number' behind' body') :
    format = format' ∧ number = number' ∧ behind = behind' ∧ body = body' := by
  have hparse := h.parse.symm.trans h'.parse
  simp only [Option.some.injEq, Prod.mk.injEq, Fileheader.mk.injEq] at hparse
  obtain ⟨⟨rfl, -⟩, rfl⟩ := hparse
  have hcount : number ++ behind = number' ++ behind' := by
    have htext := h.text.symm.trans h'.text
    rw [← List.append_assoc number, ← List.append_assoc number', List.append_cancel_left_eq,
      List.append_cancel_left_eq, List.cons.injEq, List.append_cancel_right_eq] at htext
    exact htext.2
  have hnumber : number = number' := by
    rw [← h.digits.takeWhile_append h.stops, hcount, h'.digits.takeWhile_append h'.stops]
  subst hnumber
  exact ⟨rfl, rfl, List.append_cancel_left hcount, rfl⟩

/-! ## What the calls answer -/

/-- The answers of the first `n` calls of `next`. -/
def FileSource.answers : Nat → FileSource → List (Status × List CdrRecord)
  | 0, _ => []
  | n + 1, s => (s.next.1, s.next.2.1) :: s.next.2.2.answers n

/-- No call ever answers `FAIL`. -/
def FileSource.Readable (s : FileSource) : Prop := ∀ n, ∀ answer ∈ s.answers n, answer.1 ≠ .fail

theorem next_not_failed {s : FileSource} (hf : s.failed = false) :
    s.next.1 ≠ .fail ∧ s.next.2.2.failed = false := by
  unfold FileSource.next
  rw [if_neg (by rw [hf]; decide)]
  dsimp only
  split <;> exact ⟨nofun, hf⟩

theorem readable_of_not_failed {s : FileSource} (hf : s.failed = false) : s.Readable := by
  intro n
  induction n generalizing s with
  | zero => exact fun _ h => absurd h List.not_mem_nil
  | succ n ih =>
    obtain ⟨hstatus, hnext⟩ := next_not_failed hf
    rw [FileSource.answers]
    exact List.forall_mem_cons.mpr ⟨hstatus, ih hnext⟩

/-- A source at its end with nothing read goes on answering `DONE`. -/
theorem answers_at_end {s : FileSource} (hf : s.failed = false) (hp : s.pos = []) (n : Nat) :
    s.answers n = List.replicate n (.done, []) := by
  induction n generalizing s with
  | zero => rfl
  | succ n ih =>
    have hnext : s.next = (.done, [], s) := by
      unfold FileSource.next
      rw [if_neg (by rw [hf]; decide), hp]
      cases s
      cases hp
      rfl
    rw [FileSource.answers, hnext, List.replicate_succ]
    exact congrArg _ (ih hf hp)

/-- A source without a header fails at its first call, and only there. -/
theorem answers_without_header {parser : IParser} {resume : UInt64} {data : Text}
    (h : parseHeader data = none) (n : Nat) :
    (FileSource.make (some data) parser resume).answers (n + 1)
      = (.fail, []) :: List.replicate n (.done, []) := by
  have hmake : FileSource.make (some data) parser resume
      = { parser, resumeSeq := resume, pos := [], failed := true } := by
    cases data with
    | nil => rfl
    | cons c data =>
      unfold FileSource.make
      dsimp only
      rw [h]
  rw [hmake, FileSource.answers, next_failed rfl]
  exact congrArg _ (answers_at_end rfl rfl n)

/-- A file is opened exactly when it has a header; it is then the header that is told and
the text behind its line that is read, and else the first call fails and no other. -/
structure HeaderDecides (parser : IParser) (resume : UInt64) (data : Text) : Prop where
  opened : (FileSource.make (some data) parser resume).Readable ↔
    ∃ format count body, Headed data format count body
  told : ∀ format count body, Headed data format count body →
    parseHeader data = some (⟨format, UInt64.ofNat (value count)⟩, body) ∧
      FileSource.make (some data) parser resume = { parser, resumeSeq := resume, pos := body }
  fails_once : (¬ ∃ format count body, Headed data format count body) →
    ∀ n, (FileSource.make (some data) parser resume).answers (n + 1)
      = (.fail, []) :: List.replicate n (.done, [])

theorem readable_iff {parser : IParser} {resume : UInt64} {data : Text} :
    (FileSource.make (some data) parser resume).Readable ↔
      ∃ format number behind body, HeaderRead data format number behind body := by
  constructor
  · intro h
    cases hparse : parseHeader data with
    | none =>
      have hfirst := h 1
      rw [answers_without_header hparse] at hfirst
      exact absurd rfl (hfirst _ List.mem_cons_self)
    | some p =>
      obtain ⟨format, number, behind, hread, -⟩ := parseHeader_eq_some.mp hparse
      exact ⟨format, number, behind, p.2, hread⟩
  · rintro ⟨format, number, behind, body, hread⟩
    rw [make_of_header hread.parse]
    exact readable_of_not_failed rfl

/-- Where the header decides, nothing but a whole header is taken. -/
theorem HeaderDecides.whole {parser : IParser} {resume : UInt64}
    {data format number behind body : Text} (h : HeaderDecides parser resume data)
    (hread : HeaderRead data format number behind body) : format ≠ [] ∧ behind = [] := by
  obtain ⟨format', count, body', hheaded⟩ :=
    h.opened.mp (readable_iff.mpr ⟨format, number, behind, body, hread⟩)
  obtain ⟨rfl, -, rfl, -⟩ := hread.unique hheaded.read
  exact ⟨hheaded.format_ne_nil, rfl⟩

/-- **Which files are opened.**  The header decides unless the format of the first line is
empty or more text stands behind its number. -/
theorem header_decides_iff (parser : IParser) (resume : UInt64) (data : Text) :
    HeaderDecides parser resume data ↔
      ∀ format number behind body, HeaderRead data format number behind body →
        format ≠ [] ∧ behind = [] := by
  constructor
  · exact fun h format number behind body hread => h.whole hread
  · intro h
    have hiff : (∃ format number behind body, HeaderRead data format number behind body) ↔
        ∃ format count body, Headed data format count body := by
      constructor
      · rintro ⟨format, number, behind, body, hread⟩
        obtain ⟨hformat, rfl⟩ := h format number behind body hread
        exact ⟨format, number, body, hread.headed hformat⟩
      · rintro ⟨format, count, body, hheaded⟩
        exact ⟨format, count, [], body, hheaded.read⟩
    refine ⟨readable_iff.trans hiff, fun format count body hheaded => ?_, fun hnone n => ?_⟩
    · have hparse := hheaded.read.parse
      exact ⟨hparse, make_of_header hparse⟩
    · refine answers_without_header ?_ n
      by_contra hsome
      obtain ⟨p, hp⟩ := Option.ne_none_iff_exists'.mp hsome
      obtain ⟨format, number, behind, hread, -⟩ := parseHeader_eq_some.mp hp
      exact hnone (hiff.mp ⟨format, number, behind, p.2, hread⟩)

/-- A file whose count runs on into other text is opened all the same. -/
theorem trailing_text_opens :
    ¬ HeaderDecides (fun _ => none) 0 "CDR|csv|3 of 12\n".toList := by
  intro h
  have hread : HeaderRead "CDR|csv|3 of 12\n".toList "csv".toList ['3'] " of 12".toList [] :=
    ⟨rfl, by decide, by decide, by decide, by decide, by decide,
      Decimal.stops_cons (c := ' ') rfl "of 12".toList, by decide⟩
  cases (h.whole hread).2

end CdrProcessor
