import Cppboot.Json
import Cppboot.JsonLexer

/-!
# The grammar of a JSON text

A value is spelled by tokens. Inside a container the grammar says what may follow the
values that it holds, so a derivation runs along the text as the parser does, and the
members of an object are entered one by one: a key that comes again replaces the value.

The parser builds a value in containers that are open. Each of them is a phrase of the
grammar that is not complete yet, and what opens it, goes on in it and closes it are the
rules of that phrase.
-/

namespace Cppboot

/-- What a phrase stands for: a value, or what follows a value in a container that holds it. -/
inductive JsonPhrase where
  | value
  | items (items : List Json)
  | members (members : List (Bytes × Json))

/-- The tokens of a phrase, and the value that is complete behind them. -/
inductive Spells : JsonPhrase → List JsonToken → Json → Prop
  | literal_null : Spells .value [.literal_null] .null
  | literal_true : Spells .value [.literal_true] (.boolean true)
  | literal_false : Spells .value [.literal_false] (.boolean false)
  | value_unsigned (value : Nat) : Spells .value [.value_unsigned value] (.number_unsigned value)
  | value_integer (value : Int) : Spells .value [.value_integer value] (.number_integer value)
  | value_float (value : Float) (finite : value.isFinite = true) :
    Spells .value [.value_float value] (.number_float value)
  | value_string (value : Bytes) : Spells .value [.value_string value] (.string value)
  | empty_array : Spells .value [.begin_array, .end_array] (.array [])
  | array {first others : List JsonToken} {item document : Json}
      (spelled : Spells .value first item) (rest : Spells (.items [item]) others document) :
    Spells .value (.begin_array :: first ++ others) document
  | end_array (items : List Json) : Spells (.items items) [.end_array] (.array items)
  | next_item {items : List Json} {first others : List JsonToken} {item document : Json}
      (spelled : Spells .value first item)
      (rest : Spells (.items (items ++ [item])) others document) :
    Spells (.items items) (.value_separator :: first ++ others) document
  | empty_object : Spells .value [.begin_object, .end_object] (.object [])
  | object {name : Bytes} {first others : List JsonToken} {held document : Json}
      (spelled : Spells .value first held)
      (rest : Spells (.members [(name, held)]) others document) :
    Spells .value (.begin_object :: .value_string name :: .name_separator :: first ++ others)
      document
  | end_object (members : List (Bytes × Json)) :
    Spells (.members members) [.end_object] (.object members)
  | next_member {members : List (Bytes × Json)} {name : Bytes} {first others : List JsonToken}
      {held document : Json} (spelled : Spells .value first held)
      (rest : Spells (.members (Json.insertMember name held members)) others document) :
    Spells (.members members)
      (.value_separator :: .value_string name :: .name_separator :: first ++ others) document

/-- No value begins at the end of the text. -/
theorem Spells.live {phrase : JsonPhrase} {tokens : List JsonToken} {v : Json}
    (spelled : Spells phrase tokens v) : tokens.head? ≠ some .end_of_input := by
  cases spelled <;> simp

/-- A value begins with a token that closes no array. -/
theorem Spells.first {tokens : List JsonToken} {v : Json} (spelled : Spells .value tokens v) :
    ∃ token rest, tokens = token :: rest ∧ token ≠ .end_array := by
  cases spelled <;> exact ⟨_, _, rfl, by simp⟩

/-- A container that is open: its items, or its members and the key of the next value. -/
inductive OpenJson where
  | array (items : List Json)
  | object (members : List (Bytes × Json)) (object_element : Option Bytes)

/-- The two kinds of containers, as the parser remembers them. -/
def OpenJson.isArray : OpenJson → Bool
  | .array _ => true
  | .object _ _ => false

/-- What is built, as `json_sax_dom_parser` does: a value goes into the innermost container
that is open, or becomes the root. An operation is undefined where an assertion fails. -/
structure JsonDom where
  root : Json
  ref_stack : List OpenJson

namespace JsonDom

/-- A value is complete. It becomes the root, an item, or the value of the last key. -/
def handleValue (dom : JsonDom) (value : Json) : Option JsonDom :=
  match dom.ref_stack with
  | [] => some { dom with root := value }
  | .array items :: stack => some { dom with ref_stack := .array (items ++ [value]) :: stack }
  | .object members (some name) :: stack =>
    some { dom with
      ref_stack := .object (Json.insertMember name value members) (some name) :: stack }
  | .object _ none :: _ => none

/-- A container is opened. That there is a place for it is asserted when it starts, and the
value goes there when it is complete. -/
def startContainer (dom : JsonDom) (empty : Json) (open_ : OpenJson) : Option JsonDom :=
  (dom.handleValue empty).map fun _ => { dom with ref_stack := open_ :: dom.ref_stack }

/-- An object without members is opened, and has no key yet. -/
def startObject (dom : JsonDom) : Option JsonDom :=
  dom.startContainer (.object []) (.object [] none)

/-- The key of the next value in the object that is open. -/
def key (dom : JsonDom) (name : Bytes) : Option JsonDom :=
  match dom.ref_stack with
  | .object members _ :: stack =>
    some { dom with ref_stack := .object members (some name) :: stack }
  | _ => none

/-- The object that is open is complete. -/
def endObject (dom : JsonDom) : Option JsonDom :=
  match dom.ref_stack with
  | .object members _ :: stack => { dom with ref_stack := stack }.handleValue (.object members)
  | _ => none

def startArray (dom : JsonDom) : Option JsonDom := dom.startContainer (.array []) (.array [])

def endArray (dom : JsonDom) : Option JsonDom :=
  match dom.ref_stack with
  | .array items :: stack => { dom with ref_stack := stack }.handleValue (.array items)
  | _ => none

end JsonDom

namespace OpenJson

/-- What follows the values that the container holds. -/
def phrase : OpenJson → JsonPhrase
  | .array items => .items items
  | .object members _ => .members members

/-- The container with one value more. -/
def put : OpenJson → Json → OpenJson
  | .array items, value => .array (items ++ [value])
  | .object members (some name), value => .object (Json.insertMember name value members) (some name)
  | .object members none, _ => .object members none

/-- An object that waits for a value has its key. -/
def Keyed : OpenJson → Prop
  | .object _ none => False
  | _ => True

/-- The tokens in front of the first value of a container. -/
inductive Opens : List JsonToken → OpenJson → Prop
  | array : Opens [.begin_array] (.array [])
  | object (name : Bytes) :
    Opens [.begin_object, .value_string name, .name_separator] (.object [] (some name))

/-- The tokens between two values of a container. -/
inductive Continues : OpenJson → List JsonToken → OpenJson → Prop
  | array (items : List Json) : Continues (.array items) [.value_separator] (.array items)
  | object (members : List (Bytes × Json)) (last : Option Bytes) (name : Bytes) :
    Continues (.object members last) [.value_separator, .value_string name, .name_separator]
      (.object members (some name))

/-- The token behind the last value of a container. -/
inductive Closes : OpenJson → JsonToken → Json → Prop
  | array (items : List Json) : Closes (.array items) .end_array (.array items)
  | object (members : List (Bytes × Json)) (last : Option Bytes) :
    Closes (.object members last) .end_object (.object members)

variable {open_ after : OpenJson} {opening separator first others : List JsonToken}
  {item document : Json}

/-- A container with one value more is of its kind, and has its key. -/
theorem put_keeps (open_ : OpenJson) (keyed : open_.Keyed) (value : Json) :
    (open_.put value).isArray = open_.isArray ∧ (open_.put value).Keyed := by
  match open_, keyed with
  | .array items, _ => exact ⟨rfl, trivial⟩
  | .object members (some name), _ => exact ⟨rfl, trivial⟩

/-- A container in front of its first value has its key. -/
theorem Opens.keyed (opens : Opens opening open_) : open_.Keyed := by
  cases opens with
  | array => trivial
  | object name => trivial

/-- So has one between two values, and it is of the same kind. -/
theorem Continues.keyed (continued : Continues open_ separator after) :
    after.Keyed ∧ after.isArray = open_.isArray := by
  cases continued with
  | array items => exact ⟨trivial, rfl⟩
  | object members last name => exact ⟨trivial, rfl⟩

/-- A first value and what follows it spell the whole container. -/
theorem Opens.spells (opens : Opens opening open_) (spelled : Spells .value first item)
    (rest : Spells (open_.put item).phrase others document) :
    Spells .value (opening ++ first ++ others) document := by
  cases opens with
  | array => exact .array spelled rest
  | object name => exact .object spelled rest

/-- One value more and what follows it spell the rest of the container. -/
theorem Continues.spells (continued : Continues open_ separator after)
    (spelled : Spells .value first item) (rest : Spells (after.put item).phrase others document) :
    Spells open_.phrase (separator ++ first ++ others) document := by
  cases continued with
  | array items => exact .next_item spelled rest
  | object members last name => exact .next_member spelled rest

/-- The closing token spells the end of the container. -/
theorem Closes.spells {token : JsonToken} (closes : Closes open_ token document) :
    Spells open_.phrase [token] document := by
  cases closes with
  | array items => exact .end_array items
  | object members last => exact .end_object members

end OpenJson

namespace JsonDom

/-- Every object that is open has the key of its value. -/
def Keyed (dom : JsonDom) : Prop := ∀ open_ ∈ dom.ref_stack, open_.Keyed

/-- A value becomes the root or goes into the innermost container. -/
theorem handleValue_cases (dom : JsonDom) (keyed : dom.Keyed) (value : Json) :
    (dom.ref_stack = [] ∧ dom.handleValue value = some ⟨value, []⟩) ∨
      ∃ open_ stack, dom.ref_stack = open_ :: stack ∧
        dom.handleValue value = some ⟨dom.root, open_.put value :: stack⟩ := by
  obtain ⟨root, stack⟩ := dom
  match stack, keyed with
  | [], _ => exact Or.inl ⟨rfl, rfl⟩
  | .array items :: stack, _ => exact Or.inr ⟨.array items, stack, rfl, rfl⟩
  | .object members (some name) :: stack, _ =>
    exact Or.inr ⟨.object members (some name), stack, rfl, rfl⟩
  | .object members none :: stack, keyed => exact (keyed _ (List.mem_cons_self ..)).elim

/-- A value leaves the kinds of the containers as they are. -/
theorem handleValue_keeps {dom after : JsonDom} {value : Json} (keyed : dom.Keyed)
    (handled : dom.handleValue value = some after) :
    after.Keyed ∧
      after.ref_stack.map OpenJson.isArray = dom.ref_stack.map OpenJson.isArray := by
  rcases dom.handleValue_cases keyed value with ⟨empty, done⟩ | ⟨open_, stack, top, done⟩
  · obtain rfl := Option.some.inj (done.symm.trans handled)
    refine ⟨?_, by rw [empty]⟩
    intro other member
    cases member
  · obtain rfl := Option.some.inj (done.symm.trans handled)
    have waits := keyed open_ (top ▸ List.mem_cons_self ..)
    obtain ⟨same, kept⟩ := open_.put_keeps waits value
    rw [top]
    refine ⟨?_, congrArg (· :: _) same⟩
    intro other member
    rcases List.mem_cons.mp member with rfl | below
    · exact kept
    · apply keyed other
      rw [top]
      exact List.mem_cons_of_mem _ below

/-- No assertion fails when a value is complete, if the objects that are open have their keys. -/
theorem handleValue_some (dom : JsonDom) (keyed : dom.Keyed) (value : Json) :
    ∃ after, dom.handleValue value = some after := by
  rcases dom.handleValue_cases keyed value with ⟨_, done⟩ | ⟨open_, stack, _, done⟩
  · exact ⟨_, done⟩
  · exact ⟨_, done⟩

/-- Where a value has a place, a container can be opened. -/
theorem startContainer_some {dom after : JsonDom} {value : Json}
    (handled : dom.handleValue value = some after) (empty : Json) (open_ : OpenJson) :
    dom.startContainer empty open_ = some ⟨dom.root, open_ :: dom.ref_stack⟩ := by
  obtain ⟨root, stack⟩ := dom
  match stack, handled with
  | [], _ => rfl
  | .array items :: stack, _ => rfl
  | .object members (some name) :: stack, _ => rfl

/-- An object is opened where a value has a place. -/
theorem startObject_some {dom after : JsonDom} {value : Json}
    (handled : dom.handleValue value = some after) :
    dom.startObject = some ⟨dom.root, .object [] none :: dom.ref_stack⟩ :=
  startContainer_some handled _ _

theorem startArray_some {dom after : JsonDom} {value : Json}
    (handled : dom.handleValue value = some after) :
    dom.startArray = some ⟨dom.root, .array [] :: dom.ref_stack⟩ :=
  startContainer_some handled _ _

end JsonDom

end Cppboot
