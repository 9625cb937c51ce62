import Mathlib.Data.Int.Notation
import Mathlib.Data.List.Basic

/-! # What the boards use of the JSON library

`Text` is what a file holds and `J` a JSON value. An operation that throws returns nothing. The
conversions of scores depend on the score type and come with it.
-/

namespace ServerSimple.GlobalBoards

structure JsonLibrary (Text J T : Type) where
  parse : Text → Option J
  dump : J → Option Text
  isArray : J → Bool
  isObject : J → Bool
  /-- The values that a loop over an array visits. -/
  elements : J → List J
  /-- The member `at(key)`. -/
  field : J → String → Option J
  getString : J → Option String
  getInt64 : J → Option ℤ
  getScore : J → Option T
  array : List J → J
  object : List (String × J) → J
  ofString : String → J
  ofInt64 : ℤ → J
  ofScore : T → J

/-- The values that the boards write. -/
inductive JsonLibrary.Written {Text J T : Type} (lib : JsonLibrary Text J T) : J → Prop
  | string (s : String) : lib.Written (lib.ofString s)
  | int64 (n : ℤ) : lib.Written (lib.ofInt64 n)
  | score (x : T) : lib.Written (lib.ofScore x)
  | object (fields : List (String × J)) (h : ∀ f ∈ fields, lib.Written f.2) :
    lib.Written (lib.object fields)
  | array (items : List J) (h : ∀ item ∈ items, lib.Written item) : lib.Written (lib.array items)

/-- What is relied on: values are read as they were written, also after dumping and parsing. Equality
of JSON values is the `operator==` of the library. -/
structure JsonLibrary.Lawful {Text J T : Type} (lib : JsonLibrary Text J T) : Prop where
  parse_dump : ∀ j text, lib.Written j → lib.dump j = some text → lib.parse text = some j
  isArray_array : ∀ items, lib.isArray (lib.array items) = true
  elements_array : ∀ items, lib.elements (lib.array items) = items
  isObject_object : ∀ fields, lib.isObject (lib.object fields) = true
  field_object : ∀ fields : List (String × J), (fields.map Prod.fst).Nodup →
    ∀ key, lib.field (lib.object fields) key = fields.lookup key
  getString_ofString : ∀ s, lib.getString (lib.ofString s) = some s
  getInt64_ofInt64 : ∀ n, lib.getInt64 (lib.ofInt64 n) = some n
  getScore_ofScore : ∀ x, lib.getScore (lib.ofScore x) = some x

/-- A file that holds the dump of an array is parsed as that array. -/
theorem JsonLibrary.Lawful.parse_file {Text J T : Type} {lib : JsonLibrary Text J T}
    (laws : lib.Lawful) {items : List J} (hitems : ∀ item ∈ items, lib.Written item) {text : Text}
    (hdump : lib.dump (lib.array items) = some text) :
    (some text).bind lib.parse = some (lib.array items) :=
  laws.parse_dump _ text (.array items hitems) hdump

/-- The JSON values that boards with integer scores write and read. -/
inductive Json where
  | string (s : String)
  | integer (n : ℤ)
  | array (items : List Json)
  | object (fields : List (String × Json))

/-- A library on these values, for files that hold the value itself. -/
def Json.library : JsonLibrary Json Json ℤ where
  parse := some
  dump := some
  isArray j := j matches .array _
  isObject j := j matches .object _
  elements
    | .array items => items
    | _ => []
  field
    | .object fields, key => fields.lookup key
    | _, _ => none
  getString
    | .string s => some s
    | _ => none
  getInt64
    | .integer n => some n
    | _ => none
  getScore
    | .integer n => some n
    | _ => none
  array := .array
  object := .object
  ofString := .string
  ofInt64 := .integer
  ofScore := .integer

theorem Json.library_lawful : Json.library.Lawful where
  parse_dump _ _ _ h := h.symm
  isArray_array _ := rfl
  elements_array _ := rfl
  isObject_object _ := rfl
  field_object _ _ _ := rfl
  getString_ofString _ := rfl
  getInt64_ofInt64 _ := rfl
  getScore_ofScore _ := rfl

end ServerSimple.GlobalBoards
