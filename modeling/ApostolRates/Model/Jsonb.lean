import ApostolRates.Model.Types
import Mathlib.Data.List.Nodup

/-!
# `jsonb`

A `jsonb` value, its text, and the two functions that take a value apart:
`jsonb_to_record` with the columns of the reply, and `jsonb_each_text`.
-/

set_option autoImplicit false

namespace ApostolRates

/-- A number is `unscaled / 10 ^ scale`; the fields of an object stand in the order
in which they are stored. -/
inductive Jsonb where
  | null
  | bool (truth : Bool)
  | number (unscaled : Int) (scale : Nat)
  | string (text : String)
  | array (elements : List Jsonb)
  | object (fields : List (String × Jsonb))

namespace Jsonb

/-- Every object inside the value has each key once. -/
inductive UniqueKeys : Jsonb → Prop where
  | null : UniqueKeys .null
  | bool (truth : Bool) : UniqueKeys (.bool truth)
  | number (unscaled : Int) (scale : Nat) : UniqueKeys (.number unscaled scale)
  | string (text : String) : UniqueKeys (.string text)
  | array (elements : List Jsonb) (each : ∀ element ∈ elements, UniqueKeys element) :
      UniqueKeys (.array elements)
  | object (fields : List (String × Jsonb)) (keys : (fields.map Prod.fst).Nodup)
      (each : ∀ field ∈ fields, UniqueKeys field.2) : UniqueKeys (.object fields)

/-! ## Text -/

/-- Plain decimal notation with `scale` digits after the point. -/
def decimalText (unscaled : Int) (scale : Nat) : String :=
  let digits := Nat.toDigits 10 unscaled.natAbs
  let padded := List.replicate (scale + 1 - digits.length) '0' ++ digits
  let whole := padded.take (padded.length - scale)
  let fraction := padded.drop (padded.length - scale)
  String.ofList ((if unscaled < 0 then ['-'] else []) ++ whole ++
    (if scale = 0 then [] else '.' :: fraction))

def boolText (truth : Bool) : String := if truth then "true" else "false"

def hexDigit (value : Nat) : Char := (Nat.digitChar value)

def escapeChar (char : Char) : List Char :=
  if char = '"' then ['\\', '"']
  else if char = '\\' then ['\\', '\\']
  else if char.toNat = 8 then ['\\', 'b']
  else if char.toNat = 12 then ['\\', 'f']
  else if char = '\n' then ['\\', 'n']
  else if char = '\r' then ['\\', 'r']
  else if char = '\t' then ['\\', 't']
  else if char.toNat < 32 then
    ['\\', 'u', '0', '0', hexDigit (char.toNat / 16), hexDigit (char.toNat % 16)]
  else [char]

/-- `escape_json`: a string between quotes. -/
def escapeJson (text : String) : String :=
  String.ofList ('"' :: (text.toList.flatMap escapeChar ++ ['"']))

mutual

/-- `JsonbToCString`. -/
def toCString : Jsonb → String
  | .null => "null"
  | .bool truth => boolText truth
  | .number unscaled scale => decimalText unscaled scale
  | .string text => escapeJson text
  | .array elements => "[" ++ String.intercalate ", " (elementTexts elements) ++ "]"
  | .object fields => "\x7b" ++ String.intercalate ", " (fieldTexts fields) ++ "\x7d"

def elementTexts : List Jsonb → List String
  | [] => []
  | element :: rest => toCString element :: elementTexts rest

def fieldTexts : List (String × Jsonb) → List String
  | [] => []
  | (key, value) :: rest => (escapeJson key ++ ": " ++ toCString value) :: fieldTexts rest

end

/-- The text of a value outside of a container; JSON null is NULL. -/
def asText : Jsonb → Option String
  | .null => none
  | .string text => some text
  | value => some value.toCString

/-! ## Records and entries -/

def isSpace (char : Char) : Bool := char = ' ' || (9 ≤ char.toNat && char.toNat ≤ 13)

def lower (char : Char) : Char :=
  if 'A' ≤ char ∧ char ≤ 'Z' then Char.ofNat (char.toNat + 32) else char

/-- The input function of `bool`: a word or the beginning of one, in any case and
between spaces; `o` alone could begin two of them. -/
def boolIn (text : String) : Except PgError Bool :=
  let trimmed := ((text.toList.dropWhile isSpace).reverse.dropWhile isSpace).reverse
  let word := trimmed.map lower
  let begins (least : Nat) (full : String) : Bool :=
    least ≤ word.length && word.isPrefixOf full.toList
  if begins 1 "true" || begins 1 "yes" || begins 2 "on" || word = ['1'] then .ok true
  else if begins 1 "false" || begins 1 "no" || begins 2 "off" || word = ['0'] then .ok false
  else .error .invalidTextRepresentation

def field (name : String) (fields : List (String × Jsonb)) : Option Jsonb := fields.lookup name

theorem mem_of_field {name : String} {fields : List (String × Jsonb)} {json : Jsonb}
    (found : field name fields = some json) : (name, json) ∈ fields := by
  obtain ⟨before, after, split, _⟩ := List.lookup_eq_some_iff.mp found
  simp [split]

/-- In an object with unique keys the look-up of a field is membership. -/
theorem field_eq_some_iff {name : String} {fields : List (String × Jsonb)} {json : Jsonb}
    (keys : (fields.map Prod.fst).Nodup) :
    field name fields = some json ↔ (name, json) ∈ fields := by
  refine ⟨mem_of_field, fun member => ?_⟩
  cases found : field name fields with
  | none =>
      have missed := List.lookup_eq_none_iff.mp found (name, json) member
      simp at missed
  | some other =>
      have same := List.inj_on_of_nodup_map keys (mem_of_field found) member rfl
      exact congrArg some (congrArg Prod.snd same)

/-- The text of a field; NULL when it is missing or JSON null. -/
def fieldText (name : String) (fields : List (String × Jsonb)) : Option String :=
  (field name fields).bind asText

/-- A field as a `jsonb` column; NULL when it is missing or JSON null. -/
def fieldJsonb (name : String) (fields : List (String × Jsonb)) : Option Jsonb :=
  match field name fields with
  | some .null => none
  | found => found

theorem fieldJsonb_of_object {name : String} {fields entries : List (String × Jsonb)}
    (found : field name fields = some (.object entries)) :
    fieldJsonb name fields = some (.object entries) := by
  rw [fieldJsonb, found]

theorem field_of_fieldJsonb {name : String} {fields : List (String × Jsonb)} {json : Jsonb}
    (found : fieldJsonb name fields = some json) : field name fields = some json := by
  unfold fieldJsonb at found
  split at found
  · cases found
  · exact found

theorem fieldJsonb_uniqueKeys {name : String} {fields : List (String × Jsonb)} {json : Jsonb}
    (unique : (Jsonb.object fields).UniqueKeys)
    (found : Jsonb.fieldJsonb name fields = some json) : json.UniqueKeys := by
  cases unique with
  | object _ _ each => exact each _ (mem_of_field (field_of_fieldJsonb found))

end Jsonb

/-- `jsonb_each_text`; NULL has no entries. -/
def jsonbEachText : Option Jsonb → Except PgError (List (String × Option String))
  | none => .ok []
  | some (.object fields) => .ok (fields.map fun field => (field.1, field.2.asText))
  | some _ => .error .invalidParameterValue

def entryTexts (fields : List (String × Jsonb)) : List (String × Option String) :=
  fields.map fun field => (field.1, field.2.asText)

theorem entryTexts_keys (fields : List (String × Jsonb)) :
    (entryTexts fields).map Prod.fst = fields.map Prod.fst := by
  rw [entryTexts, List.map_map]
  rfl

theorem mem_entryTexts_iff {fields : List (String × Jsonb)} (keys : (fields.map Prod.fst).Nodup)
    {e : String × Option String} :
    e ∈ entryTexts fields ↔ ∃ json, Jsonb.field e.1 fields = some json ∧ json.asText = e.2 := by
  simp only [Jsonb.field_eq_some_iff keys, entryTexts, List.mem_map]
  constructor
  · rintro ⟨⟨code, json⟩, member, rfl⟩
    exact ⟨json, member, rfl⟩
  · rintro ⟨json, member, text⟩
    exact ⟨(e.1, json), member, Prod.ext rfl text⟩

theorem jsonbEachText_keys {rates : Option Jsonb} {entries : List (String × Option String)}
    (unique : ∀ json ∈ rates, json.UniqueKeys) (each : jsonbEachText rates = .ok entries) :
    (entries.map Prod.fst).Nodup := by
  cases rates with
  | none =>
      cases each
      exact List.nodup_nil
  | some json =>
      have unique := unique json rfl
      cases json with
      | object fields =>
          cases each
          cases unique with
          | object _ keys _ => exact (entryTexts_keys fields).symm ▸ keys
      | _ => cases each

end ApostolRates
