import Mathlib.Algebra.Group.Int.Defs
import Mathlib.Data.List.Basic
import Cppboot.Utf8

/-!
# JSON values and the JSON library

The values of the bundled library, with an object as the list of its members in
the order of their keys, and the operations the message packer applies to them:
indexing with a key, conversion to a string, a truth value or a message
identifier, and iteration. A conversion that does not apply raises an exception
with the library's text.

Serialisation and parsing are parameters, collected in `JsonLibrary`. What is
relied on is `Faithful`: documents of strings in UTF-8 can be serialised, the
text of a document parses to the document, and a NUL byte after the text counts
as its end.
-/

namespace Cppboot

/-- A JSON value. -/
inductive Json where
  | null
  | boolean (value : Bool)
  | number_unsigned (value : Nat)
  | number_integer (value : Int)
  | number_float (value : Float)
  | string (value : Bytes)
  | array (items : List Json)
  | object (members : List (Bytes × Json))

/-- A computation that may raise an exception with the given text. -/
abbrev Throws (α : Type) := Except Bytes α

namespace Json

/-- The library's name for the type of a value. -/
def typeName : Json → Bytes
  | .null => text "null"
  | .boolean _ => text "boolean"
  | .number_unsigned _ | .number_integer _ | .number_float _ => text "number"
  | .string _ => text "string"
  | .array _ => text "array"
  | .object _ => text "object"

/-- The text of a type error. -/
def typeError (id : String) (what : String) (value : Json) : Bytes :=
  text "[json.exception.type_error." ++ text id ++ text "] " ++ text what ++ value.typeName

/-- Put a member in its place among members ordered by key, or replace the one
with the same key. -/
def insertMember (key : Bytes) (value : Json) : List (Bytes × Json) → List (Bytes × Json)
  | [] => [(key, value)]
  | (other, held) :: rest =>
    match compare key other with
    | .lt => (key, value) :: (other, held) :: rest
    | .eq => (key, value) :: rest
    | .gt => (other, held) :: insertMember key value rest

/-- Assignment through `operator[]` with a key. A null value becomes an object. -/
def assign (target : Json) (key : Bytes) (value : Json) : Throws Json :=
  match target with
  | .null => .ok (.object [(key, value)])
  | .object members => .ok (.object (insertMember key value members))
  | other =>
    .error (typeError "305" "cannot use operator[] with a string argument with " other)

/-- `push_back`. A null value becomes an array. -/
def pushBack (target item : Json) : Throws Json :=
  match target with
  | .null => .ok (.array [item])
  | .array items => .ok (.array (items ++ [item]))
  | other => .error (typeError "308" "cannot use push_back() with " other)

/-- Reading through `operator[]` with a key. A missing member reads as null. -/
def member (value : Json) (key : Bytes) : Throws Json :=
  match value with
  | .null => .ok .null
  | .object members => .ok ((members.lookup key).getD .null)
  | other =>
    .error (typeError "305" "cannot use operator[] with a string argument with " other)

/-- Conversion to a string. -/
def getString : Json → Throws Bytes
  | .string value => .ok value
  | other => .error (typeError "302" "type must be string, but is " other)

/-- Conversion to a truth value. -/
def getBool : Json → Throws Bool
  | .boolean value => .ok value
  | other => .error (typeError "302" "type must be boolean, but is " other)

/-- Conversion to a word: numbers are cast, and so is a truth value. -/
def getUInt32 : Json → Throws UInt32
  | .number_unsigned value => .ok (UInt32.ofNat value)
  | .number_integer value => .ok (UInt32.ofNat (value % 2 ^ 32).toNat)
  | .number_float value => .ok value.toUInt32
  | .boolean value => .ok (if value then 1 else 0)
  | other => .error (typeError "302" "type must be number, but is " other)

/-- What a loop over the value visits: the items of an array, the member values
of an object, nothing for null and the value itself otherwise. -/
def elements : Json → List Json
  | .null => []
  | .array items => items
  | .object members => members.map Prod.snd
  | other => [other]

/-- Values whose serialisation parses back to the very same value: no floating
point, no signed number and members in strict key order. -/
inductive Plain : Json → Prop
  | null : Plain .null
  | boolean (value : Bool) : Plain (.boolean value)
  | number (value : Nat) (bounded : value < 2 ^ 64) : Plain (.number_unsigned value)
  | string (value : Bytes) : Plain (.string value)
  | array (items : List Json) (plain : ∀ item ∈ items, Plain item) : Plain (.array items)
  | object (members : List (Bytes × Json)) (plain : ∀ entry ∈ members, Plain entry.2)
      (ordered : (members.map Prod.fst).Pairwise (compare · · = .lt)) : Plain (.object members)

/-- Values in which every string and every key is UTF-8. -/
inductive Encoded : Json → Prop
  | null : Encoded .null
  | boolean (value : Bool) : Encoded (.boolean value)
  | number_unsigned (value : Nat) : Encoded (.number_unsigned value)
  | number_integer (value : Int) : Encoded (.number_integer value)
  | number_float (value : Float) : Encoded (.number_float value)
  | string (value : Bytes) (valid : Utf8.valid value = true) : Encoded (.string value)
  | array (items : List Json) (encoded : ∀ item ∈ items, Encoded item) : Encoded (.array items)
  | object (members : List (Bytes × Json))
      (keys : ∀ entry ∈ members, Utf8.valid entry.1 = true)
      (encoded : ∀ entry ∈ members, Encoded entry.2) : Encoded (.object members)

end Json

/-- Serialisation and parsing. -/
structure JsonLibrary where
  dump : Json → Throws Bytes
  parse : Bytes → Throws Json

/-- What is relied on of the library. -/
structure JsonLibrary.Faithful (lib : JsonLibrary) : Prop where
  dumps : ∀ value, value.Plain → value.Encoded → ∃ document, lib.dump value = .ok document
  parses : ∀ value document, value.Plain → lib.dump value = .ok document →
    lib.parse document = .ok value
  endsAtNul : ∀ value document, value.Plain → lib.dump value = .ok document →
    lib.parse (document ++ [0]) = .ok value

end Cppboot
