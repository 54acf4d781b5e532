import CdrProcessor.Lib.Decimal

/-!
Texts that stand for JSON values, one character a byte: a reader that takes the
whole grammar but signs, fractions, exponents and the three words, and a writer
that puts no blanks.  How the writer escapes a character is a parameter.
-/

namespace CdrProcessor.JsonText

open Decimal (Stops stops_nil stops_cons)

inductive Value where
  | text (chars : List Char)
  | number (n : Nat)
  | array (items : List Value)
  | object (fields : List (List Char × Value))

/-- Induction with the items of an array and the fields of an object at hand. -/
@[elab_as_elim] theorem Value.nested {P : Value → Prop} (text : ∀ chars, P (.text chars))
    (number : ∀ n, P (.number n)) (array : ∀ items, (∀ v ∈ items, P v) → P (.array items))
    (object : ∀ fields, (∀ f ∈ fields, P f.2) → P (.object fields)) (v : Value) : P v := by
  refine @Value.rec P (fun items => ∀ v ∈ items, P v) (fun fields => ∀ f ∈ fields, P f.2)
    (fun f => P f.2) text number array object ?_ ?_ ?_ ?_ ?_ v
  · intro v hv
    exact absurd hv List.not_mem_nil
  · intro first rest hfirst hrest
    exact List.forall_mem_cons.mpr ⟨hfirst, hrest⟩
  · intro f hf
    exact absurd hf List.not_mem_nil
  · intro first rest hfirst hrest
    exact List.forall_mem_cons.mpr ⟨hfirst, hrest⟩
  · intro name value hvalue
    exact hvalue

/-! ## Reading -/

def isBlank (c : Char) : Bool := c = ' ' || c = '\t' || c = '\n' || c = '\r'

def skip (s : List Char) : List Char := s.dropWhile isBlank

def hexValue (c : Char) : Option Nat :=
  if c.isDigit then some (c.toNat - '0'.toNat)
  else if 'a' ≤ c ∧ c ≤ 'f' then some (c.toNat - 'a'.toNat + 10)
  else if 'A' ≤ c ∧ c ≤ 'F' then some (c.toNat - 'A'.toNat + 10)
  else none

/-- The character four hex digits name.  Past `7f` it would be several bytes: refused. -/
def unit (a b c d : Char) : Option Char := do
  let a ← hexValue a
  let b ← hexValue b
  let c ← hexValue c
  let d ← hexValue d
  let code := ((a * 16 + b) * 16 + c) * 16 + d
  if code < 0x80 then some (Char.ofNat code) else none

/-- What a letter behind a backslash stands for. -/
def unescaped (c : Char) : Option Char :=
  match c with
  | '"' => some '"'
  | '\\' => some '\\'
  | '/' => some '/'
  | 'b' => some (Char.ofNat 0x08)
  | 'f' => some (Char.ofNat 0x0c)
  | 'n' => some '\n'
  | 'r' => some '\r'
  | 't' => some '\t'
  | _ => none

/-- What stands before the closing quote, and what stands behind it. -/
def readChars : List Char → Option (List Char × List Char)
  | [] => none
  | '"' :: rest => some ([], rest)
  | '\\' :: 'u' :: a :: b :: c :: d :: rest => do
    let char ← unit a b c d
    (readChars rest).map fun p => (char :: p.1, p.2)
  | '\\' :: letter :: rest => do
    let char ← unescaped letter
    (readChars rest).map fun p => (char :: p.1, p.2)
  | char :: rest =>
    if char = '\\' ∨ char.toNat < 0x20 then none
    else (readChars rest).map fun p => (char :: p.1, p.2)

/-- A natural number, with no zero in front of it. -/
def readNumber (s : List Char) : Option (Nat × List Char) :=
  let digits := s.takeWhile Char.isDigit
  if digits = [] ∨ digits.head? = some '0' ∧ digits ≠ ['0'] then none
  else some (Decimal.value digits, s.dropWhile Char.isDigit)

section List

variable {α : Type}

/-- Items with commas between them, up to the closing character; there is one at least. -/
def readList (item : List Char → Option (α × List Char)) (close : Char) :
    Nat → List Char → Option (List α × List Char)
  | 0, _ => none
  | fuel + 1, s => do
    let (x, rest) ← item s
    match skip rest with
    | [] => none
    | c :: rest =>
      if c = close then some ([x], rest)
      else if c = ',' then (readList item close fuel rest).map fun p => (x :: p.1, p.2)
      else none

end List

/-- A field: its name, a colon and its value. -/
def readField (value : List Char → Option (Value × List Char)) (s : List Char) :
    Option ((List Char × Value) × List Char) :=
  match skip s with
  | '"' :: rest => do
    let (name, rest) ← readChars rest
    match skip rest with
    | ':' :: rest => (value rest).map fun p => ((name, p.1), p.2)
    | _ => none
  | _ => none

/-- The value a text opens with, and what stands behind it. -/
def readValue : Nat → List Char → Option (Value × List Char)
  | 0, _ => none
  | fuel + 1, s =>
    match skip s with
    | '"' :: rest => (readChars rest).map fun p => (.text p.1, p.2)
    | '[' :: rest =>
      match skip rest with
      | ']' :: rest => some (.array [], rest)
      | rest => (readList (readValue fuel) ']' fuel rest).map fun p => (.array p.1, p.2)
    | '\x7b' :: rest =>
      match skip rest with
      | '\x7d' :: rest => some (.object [], rest)
      | rest =>
        (readList (readField (readValue fuel)) '\x7d' fuel rest).map fun p => (.object p.1, p.2)
    | rest => (readNumber rest).map fun p => (.number p.1, p.2)

/-- The one value a text is, with nothing but blanks around it. -/
def decode (s : List Char) : Option Value := do
  let (value, rest) ← readValue s.length s
  if skip rest = [] then some value else none

/-! ## Writing -/

def quote (escape : Char → List Char) (chars : List Char) : List Char :=
  '"' :: (chars.flatMap escape ++ ['"'])

def field (escape : Char → List Char) (name value : List Char) : List Char :=
  quote escape name ++ ':' :: value

/-- Items with commas between them, in a pair of brackets. -/
def bracketed (opening close : Char) (items : List (List Char)) : List Char :=
  opening :: (List.intercalate [','] items ++ [close])

mutual

def render (escape : Char → List Char) : Value → List Char
  | .text chars => quote escape chars
  | .number n => Decimal.digits n
  | .array items => bracketed '[' ']' (renderItems escape items)
  | .object fields => bracketed '\x7b' '\x7d' (renderFields escape fields)

def renderItems (escape : Char → List Char) : List Value → List (List Char)
  | [] => []
  | value :: rest => render escape value :: renderItems escape rest

def renderFields (escape : Char → List Char) : List (List Char × Value) → List (List Char)
  | [] => []
  | (name, value) :: rest => field escape name (render escape value) :: renderFields escape rest

end

theorem renderItems_eq_map (escape : Char → List Char) (items : List Value) :
    renderItems escape items = items.map (render escape) := by
  induction items with
  | nil => rfl
  | cons value rest ih => rw [renderItems, ih, List.map_cons]

theorem renderFields_eq_map (escape : Char → List Char) (fields : List (List Char × Value)) :
    renderFields escape fields = fields.map fun f => field escape f.1 (render escape f.2) := by
  induction fields with
  | nil => rfl
  | cons first rest ih => rw [renderFields, ih, List.map_cons]

/-- The text of the fields is empty only where there is none. -/
theorem intercalate_renderFields_eq_nil {escape : Char → List Char}
    {fields : List (List Char × Value)} :
    List.intercalate [','] (renderFields escape fields) = [] ↔ fields = [] := by
  cases fields with
  | nil => exact ⟨fun _ => rfl, fun _ => rfl⟩
  | cons first rest =>
    rw [renderFields, field, quote, List.cons_append, List.intercalate_cons_cons_left]
    exact ⟨fun h => (List.cons_ne_nil _ _ h).elim, fun h => (List.cons_ne_nil _ _ h).elim⟩

/-- One more item behind the others. -/
theorem intercalate_concat (items : List (List Char)) (last : List Char) :
    List.intercalate [','] (items ++ [last])
      = List.intercalate [','] items ++ ((if items = [] then [] else [',']) ++ last) := by
  induction items with
  | nil => simp
  | cons first rest ih =>
    cases rest with
    | nil => simp
    | cons next rest =>
      rw [if_neg (List.cons_ne_nil _ _)] at ih ⊢
      rw [List.cons_append, List.cons_append, List.intercalate_cons_cons,
        List.intercalate_cons_cons, ← List.cons_append, ih]
      simp only [List.append_assoc]

theorem renderFields_concat (escape : Char → List Char) (fields : List (List Char × Value))
    (name : List Char) (value : Value) :
    renderFields escape (fields ++ [(name, value)])
      = renderFields escape fields ++ [field escape name (render escape value)] := by
  rw [renderFields_eq_map, renderFields_eq_map, List.map_append, List.map_singleton]

/-! ## The round trip -/

theorem skip_cons {c : Char} (h : isBlank c = false) (s : List Char) : skip (c :: s) = c :: s := by
  simp [skip, h]

theorem digits_head {n : Nat} (h : (Decimal.digits n).head? = some '0') :
    Decimal.digits n = ['0'] := by
  rcases hd : Decimal.digits n with _ | ⟨c, s⟩
  · exact absurd hd (Decimal.digits_ne_nil n)
  · rw [hd] at h
    obtain rfl : c = '0' := by simpa using h
    by_cases hs : s = []
    · rw [hs]
    · -- a zero in front leaves the value to the digits behind it, too few for `digits n`
      have hall : Decimal.AllDigits s := fun x hx =>
        Decimal.allDigits_digits n x (hd ▸ List.mem_cons_of_mem _ hx)
      have hvalue : n = Decimal.value s := by
        rw [← Decimal.value_digits n, hd, ← Decimal.value_trim, ← Decimal.value_trim s]
        simp [Decimal.trim]
      have hlt : n < 10 ^ s.length := hvalue ▸ Decimal.value_lt hall
      have hlen := Decimal.length_digits_le (List.length_pos_iff.mpr hs) hlt
      rw [hd, List.length_cons] at hlen
      omega

theorem readNumber_digits (n : Nat) {rest : List Char} (h : Stops rest) :
    readNumber (Decimal.digits n ++ rest) = some (n, rest) := by
  have hall := Decimal.allDigits_digits n
  unfold readNumber
  dsimp only
  rw [hall.takeWhile_append h, hall.dropWhile_append h, Decimal.value_digits]
  refine if_neg ?_
  rintro (hnil | ⟨hzero, hone⟩)
  · exact Decimal.digits_ne_nil n hnil
  · exact hone (digits_head hzero)

section List

variable {α : Type}

theorem length_le_intercalate {items : List (List Char)} {item : List Char} (h : item ∈ items) :
    item.length ≤ (List.intercalate [','] items).length := by
  induction items with
  | nil => cases h
  | cons first rest ih =>
    cases rest with
    | nil =>
      rw [List.mem_singleton.mp h, List.intercalate_singleton]
    | cons next rest =>
      rw [List.intercalate_cons_cons]
      simp only [List.length_append]
      rcases List.mem_cons.mp h with rfl | h
      · omega
      · have := ih h
        omega

theorem count_le_intercalate (items : List (List Char)) :
    items.length ≤ (List.intercalate [','] items).length + 1 := by
  induction items with
  | nil => exact Nat.zero_le _
  | cons first rest ih =>
    cases rest with
    | nil => simp
    | cons next rest =>
      rw [List.intercalate_cons_cons]
      simp only [List.length_append, List.length_cons, List.length_nil] at ih ⊢
      omega

/-- Items that each read back before a comma and before the closing character read back
as the list of them. -/
theorem readList_intercalate {item : List Char → Option (α × List Char)} {write : α → List Char}
    {close : Char} (hclose : isBlank close = false) (hcomma : close ≠ ',') {xs : List α}
    (hxs : xs ≠ []) (hitem : ∀ x ∈ xs, ∀ c rest, c = close ∨ c = ',' →
      item (write x ++ c :: rest) = some (x, c :: rest)) {fuel : Nat} (hfuel : xs.length ≤ fuel)
    (rest : List Char) :
    readList item close fuel (List.intercalate [','] (xs.map write) ++ close :: rest)
      = some (xs, rest) := by
  induction xs generalizing fuel with
  | nil => exact absurd rfl hxs
  | cons x xs ih =>
    obtain ⟨fuel, rfl⟩ : ∃ n, fuel = n + 1 :=
      ⟨fuel - 1, by rw [List.length_cons] at hfuel; omega⟩
    have hx := hitem x List.mem_cons_self
    cases xs with
    | nil =>
      rw [List.map_singleton, List.intercalate_singleton, readList, hx close rest (.inl rfl)]
      simp [skip_cons hclose]
    | cons y ys =>
      have hrest := ih (List.cons_ne_nil y ys) (fun z hz => hitem z (List.mem_cons_of_mem x hz))
        (Nat.le_of_succ_le_succ hfuel)
      rw [List.map_cons] at hrest
      rw [List.map_cons, List.map_cons, List.intercalate_cons_cons, List.append_assoc,
        List.append_assoc, readList, List.singleton_append, hx ',' _ (.inr rfl)]
      simp [skip_cons (show isBlank ',' = false from rfl), hcomma.symm, hrest]

/-- The same with fuel for as many characters as there are, which is enough for the items
too. -/
theorem readList_written {item : List Char → Option (α × List Char)} {write : α → List Char}
    {close : Char} (hclose : isBlank close = false) (hcomma : close ≠ ',') {xs : List α}
    (hxs : xs ≠ []) {fuel : Nat}
    (hfuel : (List.intercalate [','] (xs.map write)).length + 1 ≤ fuel)
    (hitem : ∀ x ∈ xs, (write x).length ≤ fuel → ∀ c rest, c = close ∨ c = ',' →
      item (write x ++ c :: rest) = some (x, c :: rest)) (rest : List Char) :
    readList item close fuel (List.intercalate [','] (xs.map write) ++ close :: rest)
      = some (xs, rest) := by
  have hcount := count_le_intercalate (xs.map write)
  rw [List.length_map] at hcount
  refine readList_intercalate hclose hcomma hxs (fun x hx => hitem x hx ?_) (by omega) rest
  have hlen := length_le_intercalate (List.mem_map_of_mem (f := write) hx)
  omega

end List

section

variable {escape : Char → List Char}

/-- What the writer owes: every character it escapes reads back as itself. -/
def Escapes (escape : Char → List Char) : Prop :=
  ∀ c rest, readChars (escape c ++ rest) = (readChars rest).map fun p => (c :: p.1, p.2)

theorem Escapes.readChars (h : Escapes escape) (chars rest : List Char) :
    readChars (chars.flatMap escape ++ '"' :: rest) = some (chars, rest) := by
  induction chars with
  | nil => rfl
  | cons c chars ih =>
    rw [List.flatMap_cons, List.append_assoc, h c, ih]
    rfl

/-- The character a value opens with. -/
theorem render_head (escape : Char → List Char) (v : Value) :
    ∃ c s, render escape v = c :: s ∧ isBlank c = false ∧ c ≠ ']' := by
  cases v with
  | text chars => exact ⟨'"', _, rfl, rfl, by decide⟩
  | number n =>
    obtain ⟨c, s, hd⟩ := List.exists_cons_of_ne_nil (Decimal.digits_ne_nil n)
    have hc : c.isDigit = true :=
      Decimal.isDigit_of_mem_digits (n := n) (hd ▸ List.mem_cons_self)
    refine ⟨c, s, hd, ?_, ?_⟩
    · rw [← Bool.not_eq_true, isBlank]
      simp only [Bool.or_eq_true, decide_eq_true_eq]
      rintro (((rfl | rfl) | rfl) | rfl) <;> cases hc
    · rintro rfl
      cases hc
  | array items => exact ⟨'[', _, rfl, rfl, by decide⟩
  | object fields => exact ⟨'\x7b', _, rfl, rfl, by decide⟩

theorem readValue_digits {n : Nat} {fuel : Nat} {rest : List Char} (h : Stops rest) :
    readValue (fuel + 1) (Decimal.digits n ++ rest) = some (.number n, rest) := by
  have hnumber := readNumber_digits n h
  obtain ⟨c, s, hd⟩ := List.exists_cons_of_ne_nil (Decimal.digits_ne_nil n)
  have hc : c.isDigit = true :=
    Decimal.isDigit_of_mem_digits (n := n) (hd ▸ List.mem_cons_self)
  obtain ⟨_, _, heq, hblank, _⟩ := render_head (fun _ => []) (.number n)
  rw [render, hd] at heq
  cases heq
  rw [hd, List.cons_append] at hnumber ⊢
  rw [readValue, skip_cons hblank]
  split
  · rename_i heq
    cases heq
    cases hc
  · rename_i heq
    cases heq
    cases hc
  · rename_i heq
    cases heq
    cases hc
  · rw [hnumber]
    rfl

theorem readField_field (h : Escapes escape) {value : List Char → Option (Value × List Char)}
    {name written rest : List Char} {v : Value} (hvalue : value (written ++ rest) = some (v, rest)) :
    readField value (field escape name written ++ rest) = some ((name, v), rest) := by
  have hname := h.readChars name (':' :: (written ++ rest))
  simp only [readField, field, quote, List.cons_append, List.append_assoc]
  rw [skip_cons (show isBlank '"' = false from rfl)]
  simp [hname, skip_cons (show isBlank ':' = false from rfl), hvalue]

/-- What a bracketed list of items opens with behind its bracket. -/
theorem skip_items (items : List (List Char)) {first : List Char} {c : Char}
    (hfirst : items.head? = some (c :: first)) (hblank : isBlank c = false) (rest : List Char) :
    ∃ s, List.intercalate [','] items ++ rest = c :: s ∧ skip (c :: s) = c :: s := by
  obtain ⟨more, rfl⟩ := List.head?_eq_some_iff.mp hfirst
  rw [List.intercalate_cons_cons_left, List.cons_append]
  exact ⟨_, rfl, skip_cons hblank _⟩

theorem exists_fuel {v : Value} {fuel : Nat} (h : (render escape v).length ≤ fuel) :
    ∃ n, fuel = n + 1 := by
  obtain ⟨c, s, hstart, -, -⟩ := render_head escape v
  rw [hstart, List.length_cons] at h
  exact ⟨fuel - 1, by omega⟩

/-- **Round trip.**  What is written reads back, whatever stands behind it. -/
theorem readValue_render (h : Escapes escape) (v : Value) {fuel : Nat} {rest : List Char}
    (hfuel : (render escape v).length ≤ fuel) (hrest : Stops rest) :
    readValue fuel (render escape v ++ rest) = some (v, rest) := by
  induction v using Value.nested generalizing fuel rest with
  | text chars =>
    obtain ⟨fuel, rfl⟩ := exists_fuel hfuel
    rw [render, quote, List.cons_append, List.append_assoc, List.singleton_append, readValue,
      skip_cons rfl]
    simp [h.readChars chars rest]
  | number n =>
    obtain ⟨fuel, rfl⟩ := exists_fuel hfuel
    exact readValue_digits hrest
  | array items ih =>
    obtain ⟨fuel, rfl⟩ := exists_fuel hfuel
    rw [render, renderItems_eq_map] at hfuel ⊢
    simp only [bracketed, List.length_cons, List.length_append, List.length_nil] at hfuel
    rw [bracketed, List.cons_append, List.append_assoc, List.singleton_append, readValue,
      skip_cons rfl]
    rcases hitems : items with _ | ⟨first, more⟩
    · simp [skip_cons (show isBlank ']' = false from rfl)]
    · rw [← hitems]
      have hread : readList (readValue fuel) ']' fuel
          (List.intercalate [','] (items.map (render escape)) ++ ']' :: rest)
            = some (items, rest) := by
        refine readList_written rfl (by decide) (by simp [hitems]) (by omega) ?_ rest
        intro x hx hlen c tail hc
        refine ih x hx hlen (stops_cons ?_ tail)
        rcases hc with rfl | rfl <;> rfl
      obtain ⟨c, s, hstart, hblank, hc⟩ := render_head escape first
      obtain ⟨tail, htail, hskip⟩ := skip_items (items.map (render escape))
        (by rw [hitems, List.map_cons, List.head?_cons, hstart]) hblank (']' :: rest)
      rw [htail] at hread
      simp [htail, hskip, hc, hread]
  | object fields ih =>
    obtain ⟨fuel, rfl⟩ := exists_fuel hfuel
    rw [render, renderFields_eq_map] at hfuel ⊢
    simp only [bracketed, List.length_cons, List.length_append, List.length_nil] at hfuel
    rw [bracketed, List.cons_append, List.append_assoc, List.singleton_append, readValue,
      skip_cons rfl]
    rcases hfields : fields with _ | ⟨first, more⟩
    · simp [skip_cons (show isBlank '\x7d' = false from rfl)]
    · rw [← hfields]
      have hread : readList (readField (readValue fuel)) '\x7d' fuel
          (List.intercalate [','] (fields.map fun f => field escape f.1 (render escape f.2)) ++
            '\x7d' :: rest) = some (fields, rest) := by
        refine readList_written rfl (by decide) (by simp [hfields]) (by omega) ?_ rest
        intro f hf hlen c tail hc
        simp only [field, List.length_append, List.length_cons] at hlen
        refine readField_field h (ih f hf (by omega) (stops_cons ?_ tail))
        rcases hc with rfl | rfl <;> rfl
      obtain ⟨tail, htail, hskip⟩ := skip_items (c := '"')
        (fields.map fun f => field escape f.1 (render escape f.2))
        (by rw [hfields, List.map_cons, List.head?_cons]; rfl) rfl ('\x7d' :: rest)
      rw [htail] at hread
      simp [htail, hskip, hread]

/-- **Round trip.**  A value written on its own decodes to itself. -/
theorem decode_render (h : Escapes escape) (v : Value) : decode (render escape v) = some v := by
  have hread := readValue_render h v (Nat.le_refl _) stops_nil
  rw [List.append_nil] at hread
  have hskip : skip [] = [] := rfl
  rw [decode, hread, Option.bind_eq_bind, Option.bind_some]
  exact if_pos hskip

example : decode "[1, \"a\\n\\u0041\" ]".toList
    = some (.array [.number 1, .text ['a', '\n', 'A']]) := rfl

example : (decode "[01]".toList).isNone ∧ (decode "[1,]".toList).isNone ∧
    (decode "1]".toList).isNone := by decide

end

end CdrProcessor.JsonText
