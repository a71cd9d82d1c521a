import Cppboot.JsonReadBack
import Cppboot.Status
import Cppboot.Timestamp

/-!
# The store of the to-do list

The items of a to-do list are kept in memory, and after each command all of them are written
to a file as a JSON document. The next process reads the file. A command may fail: an empty
text is refused, a text that is not UTF-8 raises an exception once the list is to be
written, and it is not noticed when the file cannot be opened for writing.

A file that exists can always be opened for reading here, and a write is made whole or not
at all. What leaves the range of an `int` wraps around.

The ledger says what this is for: which entries are held in memory, and which ones are kept
for the next process. It knows nothing of documents and files.
-/

namespace Cppboot.Todo

/-- An entry of the list. -/
structure Item where
  id : Int
  text : Bytes
  update_at : Timestamp

/-- The list in memory. -/
structure Data where
  next_id_ : Int
  items_ : List Item

/-- How a list is written: the time, and whether the file can be opened. -/
structure Save where
  now : Timestamp
  opened : Bool

/-- What an `int` of 32 bits holds of a number. -/
def toInt (n : Int) : Int := (n + 2 ^ 31) % 2 ^ 32 - 2 ^ 31

/-- Conversion to an `int`. -/
def getInt : Json → Throws Int
  | .number_unsigned value => .ok (toInt value)
  | .number_integer value => .ok (toInt value)
  | .number_float value => .ok value.toInt32.toInt
  | .boolean value => .ok (if value then 1 else 0)
  | other => .error (Json.typeError "302" "type must be number, but is " other)

/-! ## Reading the file -/

/-- One item of the document. What is missing or of another type raises an exception. -/
def loadItem (now : Timestamp) (j_item : Json) : Throws Item := do
  let id ← j_item.member (text "id")
  let id ← getInt id
  let words ← j_item.member (text "text")
  let words ← words.getString
  .ok ⟨id, words, now⟩

/-- The items of the document, in order. -/
def loadItems (now : Timestamp) : List Json → Throws (List Item)
  | [] => .ok []
  | j_item :: j_items => do
    let item ← loadItem now j_item
    let items ← loadItems now j_items
    .ok (item :: items)

/-- The greatest identifier, or zero. -/
def idMax (ids : List Int) : Int := ids.foldl (fun max id => if max < id then id else max) 0

/-- `LoadAllItems`: the items and the greatest identifier. A file that is not there is an
error that nobody looks at. -/
def loadAllItems (strtof : Bytes → Float) (now : Timestamp) (file : Option Bytes) :
    Throws (List Item × Int) :=
  match file with
  | none => .ok ([], 0)
  | some content => do
    let j ← JsonParser.parse strtof content
    match j with
    | .object members => do
      let j_items ← Json.member (.object members) (text "items")
      match j_items with
      | .array elements => do
        let items ← loadItems now elements
        .ok (items, idMax (items.map Item.id))
      | _ => .ok ([], 0)
    | _ => .ok ([], 0)

/-! ## Writing the file -/

/-- The document of an item, member by member. -/
def itemJson (item : Item) : Throws Json := do
  let j ← Json.null.assign (text "id") (.number_integer item.id)
  let j ← j.assign (text "text") (.string item.text)
  j.assign (text "update_at") (.string (item.update_at.toFormattedString true))

/-- The items, pushed behind those that are there. -/
def itemsJson : List Item → Json → Throws Json
  | [], j_items => .ok j_items
  | item :: items, j_items => do
    let j ← itemJson item
    let j_items ← j_items.pushBack j
    itemsJson items j_items

/-- The whole document: when it was written, and the items. -/
def rootJson (now : Timestamp) (items : List Item) : Throws Json := do
  let j_items ← itemsJson items .null
  let root ← Json.null.assign (text "create") (.string (now.toFormattedString true))
  root.assign (text "items") j_items

/-- `SaveAllItems`: what is in the file afterwards. -/
def saveAllItems (toChars : Float → Bytes) (save : Save) (items : List Item)
    (file : Option Bytes) : Throws (Option Bytes) := do
  let root ← rootJson save.now items
  let content ← JsonWriter.dump toChars .two 0 root
  .ok (if save.opened then some content else file)

/-! ## Commands -/

/-- The file, and the list of the process that runs. -/
structure World where
  file : Option Bytes
  data : Data

/-- There is no file, and nothing in memory. -/
def World.fresh : World := ⟨none, ⟨0, []⟩⟩

/-- `GetNextID`. -/
def Data.getNextID (data : Data) : Int × Data :=
  if data.next_id_ ≤ 0 then
    (toInt (data.next_id_ + 1), { data with next_id_ := toInt (toInt (data.next_id_ + 1) + 1) })
  else (data.next_id_, { data with next_id_ := toInt (data.next_id_ + 1) })

/-- The text of the first item with the identifier. -/
def setText (id : Int) (words : Bytes) : List Item → List Item
  | [] => []
  | item :: items =>
    if item.id = id then { item with text := words } :: items else item :: setText id words items

namespace World

variable (toChars : Float → Bytes) (strtof : Bytes → Float)

/-- The list is written, and the command is done. An exception leaves the list as it is. -/
def saved (world : World) (data : Data) (save : Save) : Throws Status × World :=
  match saveAllItems toChars save data.items_ world.file with
  | .ok file => (.ok .okStatus, ⟨file, data⟩)
  | .error what => (.error what, { world with data := data })

/-- `Data::Add`, with the new identifier. -/
def add (world : World) (words : Bytes) (save : Save) : Throws (Status × Option Int) × World :=
  if words = [] then (.ok (.invalidArgumentError (text "empty item"), none), world)
  else
    match world.data.getNextID with
    | (id, data) =>
      match saved toChars world { data with items_ := data.items_ ++ [⟨id, words, save.now⟩] }
        save with
      | (result, world) => (result.map (·, some id), world)

/-- `Data::Delete`. -/
def delete (world : World) (id : Int) (save : Save) : Throws Status × World :=
  if world.data.items_.any (·.id = id) then
    saved toChars world { world.data with items_ := world.data.items_.eraseP (·.id = id) } save
  else (.ok (.notFoundError (text "not found")), world)

/-- `Data::Update`. -/
def update (world : World) (id : Int) (words : Bytes) (save : Save) : Throws Status × World :=
  if words = [] then (.ok (.invalidArgumentError (text "empty item")), world)
  else if world.data.items_.any (·.id = id) then
    saved toChars world { world.data with items_ := setText id words world.data.items_ } save
  else (.ok (.notFoundError (text "not found")), world)

/-- A new process: `set_repository` of a new list. An exception ends it. -/
def restart (world : World) (now : Timestamp) : Throws World := do
  let (items, id_max) ← loadAllItems strtof now world.file
  .ok { world with data := ⟨toInt (id_max + 1), items⟩ }

end World

/-- What happens: a new process, or a command with what it is given. -/
inductive Event where
  | restart (now : Timestamp)
  | add (words : Bytes) (save : Save)
  | delete (id : Int) (save : Save)
  | update (id : Int) (words : Bytes) (save : Save)

/-- What comes of an event. -/
def World.step (toChars : Float → Bytes) (strtof : Bytes → Float) (world : World) :
    Event → Throws World
  | .restart now => world.restart strtof now
  | .add words save => .ok (world.add toChars words save).2
  | .delete id save => .ok (world.delete toChars id save).2
  | .update id words save => .ok (world.update toChars id words save).2

/-! ## The ledger -/

/-- An entry: its identifier and its text. -/
abbrev Entry := Int × Bytes

/-- What the ledger knows of an item. -/
def Item.entry (item : Item) : Entry := (item.id, item.text)

/-- What is held in memory, what is kept for the next process, and the next identifier. -/
structure Ledger where
  next : Int
  held : List Entry
  kept : List Entry

namespace Ledger

/-- Nothing was added yet. -/
def fresh : Ledger := ⟨0, [], []⟩

/-- A list can be kept when its texts are UTF-8, and then it is if the file opens. -/
def hold (ledger : Ledger) (next : Int) (held : List Entry) (opened : Bool) : Ledger where
  next := next
  held := held
  kept := if opened && held.all (Utf8.valid ·.2) then held else ledger.kept

/-- The first identifier that is not less than one, and the one behind it. -/
def take (next : Int) : Int × Int :=
  if next ≤ 0 then (toInt (next + 1), toInt (toInt (next + 1) + 1)) else (next, toInt (next + 1))

/-- Give the first entry with an identifier another text. -/
def replace (id : Int) (words : Bytes) : List Entry → List Entry
  | [] => []
  | entry :: entries =>
    if entry.1 = id then (entry.1, words) :: entries else entry :: replace id words entries

/-- What an event does to the ledger. -/
def step (ledger : Ledger) : Event → Ledger
  | .restart _ => ⟨toInt (idMax (ledger.kept.map Prod.fst) + 1), ledger.kept, ledger.kept⟩
  | .add words save =>
    if words = [] then ledger
    else ledger.hold (take ledger.next).2 (ledger.held ++ [((take ledger.next).1, words)])
      save.opened
  | .delete id save =>
    if ledger.held.any (·.1 = id) then
      ledger.hold ledger.next (ledger.held.eraseP (·.1 = id)) save.opened
    else ledger
  | .update id words save =>
    if words = [] then ledger
    else if ledger.held.any (·.1 = id) then
      ledger.hold ledger.next (replace id words ledger.held) save.opened
    else ledger

end Ledger

/-- What the events of a run leave. -/
def World.run (toChars : Float → Bytes) (strtof : Bytes → Float) (events : List Event) :
    Throws World :=
  events.foldlM (World.step toChars strtof) World.fresh

/-- What a run leaves in the ledger. -/
def Ledger.run (events : List Event) : Ledger := events.foldl Ledger.step Ledger.fresh

/-! ## The document -/

/-- A number that an `int` holds. -/
def InInt (n : Int) : Prop := -2 ^ 31 ≤ n ∧ n < 2 ^ 31

/-- What an `int` holds is in its range. -/
theorem toInt_inInt (n : Int) : InInt (toInt n) := by
  unfold InInt toInt
  omega

theorem toInt_same {n : Int} (bounded : InInt n) : toInt n = n := by
  unfold InInt at bounded
  unfold toInt
  omega

/-- An item as an object. -/
def itemObject (item : Item) : Json :=
  .object [(text "id", .number_integer item.id), (text "text", .string item.text),
    (text "update_at", .string (item.update_at.toFormattedString true))]

/-- The items as an array; no items are null. -/
def itemsValue : List Item → Json
  | [] => .null
  | item :: items => .array ((item :: items).map itemObject)

/-- The document as a value. -/
def rootObject (now : Timestamp) (items : List Item) : Json :=
  .object [(text "create", .string (now.toFormattedString true)), (text "items", itemsValue items)]

/-- The members of an item are put in one by one, and make its object. -/
theorem itemJson_object (item : Item) : itemJson item = .ok (itemObject item) := rfl

/-- The items are pushed behind each other. -/
theorem itemsJson_value (front items : List Item) :
    itemsJson items (itemsValue front) = .ok (itemsValue (front ++ items)) := by
  induction items generalizing front with
  | nil =>
    rw [List.append_nil]
    rfl
  | cons item items inductionHypothesis =>
    have pushed : (itemsValue front).pushBack (itemObject item) =
        .ok (itemsValue (front ++ [item])) := by
      cases front with
      | nil => rfl
      | cons first front =>
        change Except.ok (Json.array ((first :: front).map itemObject ++ [itemObject item])) = _
        rw [← List.map_singleton, ← List.map_append]
        rfl
    have rest := inductionHypothesis (front ++ [item])
    rw [List.append_assoc] at rest
    rw [itemsJson, itemJson_object]
    dsimp only [bind, Except.bind]
    rw [pushed]
    exact rest

/-- The whole document is made without an exception. -/
theorem rootJson_object (now : Timestamp) (items : List Item) :
    rootJson now items = .ok (rootObject now items) := by
  have value := itemsJson_value [] items
  rw [rootJson]
  change (itemsJson items .null >>= _) = _
  change itemsJson items .null = .ok (itemsValue items) at value
  rw [value]
  rfl

/-- The object of an item can be written and read back. -/
theorem item_storable {item : Item} (bounded : InInt item.id) : (itemObject item).Storable := by
  unfold InInt at bounded
  refine .object _ ?_ ?_
  · refine List.forall_mem_cons.mpr ⟨.number_integer _ (by omega) (by omega), ?_⟩
    exact List.forall_mem_cons.mpr ⟨.string _, List.forall_mem_singleton.mpr (.string _)⟩
  · change [text "id", text "text", text "update_at"].Pairwise (compare · · = .lt)
    decide

/-- So can the whole document. -/
theorem root_storable (now : Timestamp) {items : List Item}
    (bounded : ∀ item ∈ items, InInt item.id) : (rootObject now items).Storable := by
  have value : (itemsValue items).Storable := by
    cases items with
    | nil => exact .null
    | cons item items =>
      refine .array _ ?_
      intro element member
      obtain ⟨one, present, rfl⟩ := List.mem_map.mp member
      exact item_storable (bounded one present)
  refine .object _ ?_ ?_
  · exact List.forall_mem_cons.mpr ⟨.string _, List.forall_mem_singleton.mpr value⟩
  · change [text "create", text "items"].Pairwise (compare · · = .lt)
    decide

/-! ## What can be written -/

/-- ASCII is UTF-8. -/
theorem ascii_valid {s : Bytes} (ascii : ∀ b ∈ s, b < 0x80) : Utf8.valid s = true := by
  induction s with
  | nil => rfl
  | cons b s inductionHypothesis =>
    rw [Utf8.valid_ascii (ascii b List.mem_cons_self)]
    exact inductionHypothesis fun c member => ascii c (List.mem_cons_of_mem b member)

theorem ascii_append {front rest : Bytes} (first : ∀ b ∈ front, b < 0x80)
    (second : ∀ b ∈ rest, b < 0x80) : ∀ b ∈ front ++ rest, b < 0x80 := by
  intro b member
  exact (List.mem_append.mp member).elim (first b) (second b)

/-- A formatted number is ASCII. -/
theorem formatField_ascii (zeros : Bool) (width : Nat) (n : Int) :
    ∀ b ∈ formatField zeros width n, b < 0x80 := by
  have digits : ∀ b ∈ Decimal.numeral n.natAbs, b < 0x80 := by
    intro b member
    have digit := Decimal.numeral_digits _ b member
    simp only [Decimal.isDigit, Bool.and_eq_true, decide_eq_true_eq] at digit
    exact UInt8.lt_of_le_of_lt digit.2 (by decide)
  have sign : ∀ b ∈ (if n < 0 then text "-" else []), b < 0x80 := by
    split
    · exact List.forall_mem_singleton.mpr (by decide)
    · intro b nothing
      cases nothing
  have fill (c : UInt8) (small : c < 0x80) (count : Nat) :
      ∀ b ∈ List.replicate count c, b < 0x80 := by
    intro b member
    rw [List.eq_of_mem_replicate member]
    exact small
  rw [formatField]
  split
  · exact ascii_append (ascii_append sign (fill _ (by decide) _)) digits
  · exact ascii_append (ascii_append (fill _ (by decide) _) sign) digits

/-- A formatted timestamp is UTF-8. -/
theorem formatted_valid (t : Timestamp) : Utf8.valid (t.toFormattedString true) = true := by
  have single (c : UInt8) (small : c < 0x80) : ∀ b ∈ [c], b < 0x80 :=
    List.forall_mem_singleton.mpr small
  apply ascii_valid
  rw [Timestamp.toFormattedString, if_pos rfl]
  exact ascii_append (formatField_ascii _ _ _) <|
    ascii_append (formatField_ascii _ _ _) <|
    ascii_append (formatField_ascii _ _ _) <|
    ascii_append (single _ (by decide)) <|
    ascii_append (formatField_ascii _ _ _) <|
    ascii_append (single _ (by decide)) <|
    ascii_append (formatField_ascii _ _ _) <|
    ascii_append (single _ (by decide)) <|
    ascii_append (formatField_ascii _ _ _) <|
    ascii_append (single _ (by decide)) (formatField_ascii _ _ _)

/-- The object of an item is UTF-8 when its text is. -/
theorem item_utf8 (item : Item) : JsonText.utf8 (itemObject item) = Utf8.valid item.text := by
  have keys : Utf8.valid (text "id") = true ∧ Utf8.valid (text "text") = true ∧
      Utf8.valid (text "update_at") = true :=
    ⟨ascii_valid (by decide +kernel), ascii_valid (by decide +kernel),
      ascii_valid (by decide +kernel)⟩
  simp only [itemObject, JsonText.utf8, JsonText.utf8Members, JsonText.utf8Entry, keys,
    formatted_valid, Bool.true_and, Bool.and_true]

/-- The items are UTF-8 when all their texts are. -/
theorem items_utf8 (items : List Item) :
    JsonText.utf8Items (items.map itemObject) = items.all (Utf8.valid ·.text) := by
  induction items with
  | nil => rfl
  | cons item items inductionHypothesis =>
    rw [List.map_cons, JsonText.utf8Items, item_utf8, inductionHypothesis, List.all_cons]

/-- The document is UTF-8 when all texts in it are. -/
theorem root_utf8 (now : Timestamp) (items : List Item) :
    JsonText.utf8 (rootObject now items) = items.all (Utf8.valid ·.text) := by
  have keys : Utf8.valid (text "create") = true ∧ Utf8.valid (text "items") = true :=
    ⟨ascii_valid (by decide +kernel), ascii_valid (by decide +kernel)⟩
  have value : JsonText.utf8 (itemsValue items) = items.all (Utf8.valid ·.text) := by
    cases items with
    | nil => rfl
    | cons item items => exact items_utf8 (item :: items)
  simp only [rootObject, JsonText.utf8, JsonText.utf8Members, JsonText.utf8Entry, keys,
    formatted_valid, value, Bool.true_and, Bool.and_true]

end Cppboot.Todo
