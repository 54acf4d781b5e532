import CdrProcessor.Json
import CdrProcessor.Lib.JsonText

/-!
What the body of an answer decodes to.  `Json` splices texts one behind another: the
separator hangs on whether anything was written, and an object in an array goes in as the
text it already is.  The run of `add` calls is set against the writer of `JsonText`.
-/

namespace CdrProcessor

open JsonText (Value render renderItems renderFields decode)

/-- One `add`, the overload being what is added.  Every object of an array was itself
built by `add` calls. -/
inductive Added where
  | text (name value : Text)
  | number (name : Text) (value : UInt64)
  | texts (name : Text) (values : List Text)
  | jsons (name : Text) (objects : List (List Added))

mutual

def Json.add (json : Json) : Added → Json
  | .text name value => json.addText name value
  | .number name value => json.addNumber name value
  | .texts name values => json.addTexts name values
  | .jsons name objects => json.addJsons name (Json.built objects)

/-- The calls of a chain, in their order. -/
def Json.addAll (json : Json) : List Added → Json
  | [] => json
  | call :: rest => (json.add call).addAll rest

def Json.built : List (List Added) → List Json
  | [] => []
  | calls :: rest => Json.addAll {} calls :: Json.built rest

end

namespace Added

def name : Added → Text
  | .text name _ => name
  | .number name _ => name
  | .texts name _ => name
  | .jsons name _ => name

mutual

/-- What was added. -/
def value : Added → Value
  | .text _ value => .text value
  | .number _ value => .number value.toNat
  | .texts _ values => .array (values.map .text)
  | .jsons _ objects => .array (values objects)

def fields : List Added → List (Text × Value)
  | [] => []
  | call :: rest => (call.name, call.value) :: fields rest

def values : List (List Added) → List Value
  | [] => []
  | calls :: rest => .object (fields calls) :: values rest

end

theorem fields_eq_map (calls : List Added) :
    fields calls = calls.map fun call => (call.name, call.value) := by
  induction calls with
  | nil => rfl
  | cons call rest ih => rw [fields, ih, List.map_cons]

/-- Induction with every call behind the objects of an array at hand. -/
@[elab_as_elim] theorem nested {P : Added → Prop} (text : ∀ name value, P (.text name value))
    (number : ∀ name value, P (.number name value))
    (texts : ∀ name values, P (.texts name values))
    (jsons : ∀ name objects, (∀ calls ∈ objects, ∀ call ∈ calls, P call) →
      P (.jsons name objects)) (call : Added) : P call := by
  refine @Added.rec P (fun objects => ∀ calls ∈ objects, ∀ call ∈ calls, P call)
    (fun calls => ∀ call ∈ calls, P call) text number texts jsons ?_ ?_ ?_ ?_ call
  · intro calls hcalls
    exact absurd hcalls List.not_mem_nil
  · intro first rest hfirst hrest
    exact List.forall_mem_cons.mpr ⟨hfirst, hrest⟩
  · intro call hcall
    exact absurd hcall List.not_mem_nil
  · intro first rest hfirst hrest
    exact List.forall_mem_cons.mpr ⟨hfirst, hrest⟩

end Added

namespace Json

/-! ## One character -/

theorem unit_kHex : ∀ n < 0x20,
    JsonText.unit '0' '0' (kHex.getD (n / 16) '0') (kHex.getD (n % 16) '0')
      = some (Char.ofNat n) := by
  decide

/-- Quotes, backslashes and control characters read back from their escapes, every other
character from itself. -/
theorem escaped_escapes : JsonText.Escapes escaped := by
  intro c rest
  unfold escaped
  split
  · rename_i h
    rcases h with rfl | rfl
    · rfl
    · rfl
  · rename_i h
    split
    · rename_i hcontrol
      have hunit := unit_kHex c.toNat hcontrol
      rw [Char.ofNat_toNat] at hunit
      change JsonText.readChars ('\\' :: 'u' :: '0' :: '0' :: _ :: _ :: rest) = _
      rw [JsonText.readChars, hunit]
      rfl
    · rename_i hcontrol
      rw [not_or] at h
      rw [List.singleton_append, JsonText.readChars]
      · simp [h.2, hcontrol]
      · simp [h.1]
      · simp [h.2]
      · simp [h.2]

/-! ## The body -/

/-- The body is the fields with commas between them. -/
def Holds (json : Json) (fields : List (Text × Value)) : Prop :=
  json.body = List.intercalate [','] (renderFields escaped fields)

theorem holds_nil : ({} : Json).Holds [] := rfl

/-- The separator is written for all fields but the first: no field is empty text. -/
theorem Holds.add_field {json : Json} {fields : List (Text × Value)} (h : json.Holds fields)
    (name : Text) (value : Value) :
    Holds ⟨json.key name ++ render escaped value⟩ (fields ++ [(name, value)]) := by
  have hnil : json.body = [] ↔ renderFields escaped fields = [] := by
    rw [h, JsonText.intercalate_renderFields_eq_nil, JsonText.renderFields_eq_map,
      List.map_eq_nil_iff]
  rw [Holds, JsonText.renderFields_concat, JsonText.intercalate_concat, ← h]
  simp only [key, hnil, JsonText.field, List.append_assoc]
  rfl

theorem Holds.str {json : Json} {fields : List (Text × Value)} (h : json.Holds fields) :
    json.str = render escaped (.object fields) := by
  rw [render, JsonText.bracketed, ← h]
  rfl

/-- A call appends the name and its value, written as `JsonText` writes them. -/
def Appends (call : Added) : Prop :=
  ∀ json : Json, json.add call = ⟨json.key call.name ++ render escaped call.value⟩

theorem Holds.addAll {calls : List Added} (hcalls : ∀ call ∈ calls, Appends call) {json : Json}
    {fields : List (Text × Value)} (h : json.Holds fields) :
    (json.addAll calls).Holds (fields ++ Added.fields calls) := by
  induction calls generalizing json fields with
  | nil =>
    rw [Json.addAll, Added.fields, List.append_nil]
    exact h
  | cons call rest ih =>
    have hcall := h.add_field call.name call.value
    rw [← hcalls call List.mem_cons_self json] at hcall
    have hrest := ih (fun other hother => hcalls other (List.mem_cons_of_mem call hother)) hcall
    rw [List.append_assoc] at hrest
    exact hrest

theorem map_str_built {objects : List (List Added)}
    (hobjects : ∀ calls ∈ objects, ∀ call ∈ calls, Appends call) :
    (built objects).map str = renderItems escaped (Added.values objects) := by
  induction objects with
  | nil => rfl
  | cons calls rest ih =>
    have hfirst := (holds_nil.addAll (hobjects calls List.mem_cons_self)).str
    rw [built, List.map_cons, ih fun other hother => hobjects other (List.mem_cons_of_mem _ hother),
      hfirst]
    rfl

theorem appends (call : Added) : Appends call := by
  induction call using Added.nested with
  | text name value => exact fun json => rfl
  | number name value => exact fun json => rfl
  | texts name values =>
    intro json
    have hitems : values.map quoted = (values.map Value.text).map (render escaped) := by
      rw [List.map_map]
      rfl
    rw [Json.add, addTexts, Added.value, render, JsonText.renderItems_eq_map, ← hitems]
    rfl
  | jsons name objects ih =>
    intro json
    rw [Json.add, addJsons, map_str_built ih]
    rfl

/-- **Json text decodes to what was added.**  After any chain of `add` calls, objects in
arrays built the same way to any depth, the text decodes, as one object with nothing behind
it, to one field a call: the names and the values of the calls in their order. -/
theorem str_decodes (calls : List Added) :
    decode (({} : Json).addAll calls).str
      = some (.object (calls.map fun call => (call.name, call.value))) := by
  have h : (({} : Json).addAll calls).Holds (Added.fields calls) :=
    holds_nil.addAll fun call _ => appends call
  rw [h.str, JsonText.decode_render escaped_escapes, Added.fields_eq_map]

end Json

end CdrProcessor
