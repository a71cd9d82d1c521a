import Cppboot.Decimal
import Cppboot.Json

/-!
# A faithful JSON library

The text the bundled library writes for a plain document, without blanks and with
its escapes, and a reader for such texts. The reader accepts less than a JSON
parser must; it returns the document for every text that was written from one,
which is all the packer relies on. So the assumptions in `JsonLibrary.Faithful`
can be met, and a document can be followed through packing and unpacking by
evaluation.
-/

namespace Cppboot

namespace JsonText

open Decimal

/-- A hexadecimal digit in lower case. -/
def hexDigit (n : Nat) : UInt8 := if n < 10 then UInt8.ofNat (48 + n) else UInt8.ofNat (87 + n)

/-- The number a hexadecimal digit in lower case stands for. -/
def hexValue (b : UInt8) : Nat := if b.toNat < 58 then b.toNat - 48 else b.toNat - 87

/-- A byte of a string as it is written between the quotation marks. -/
def escape (b : UInt8) : Bytes :=
  if b = 0x08 then text "\\b"
  else if b = 0x09 then text "\\t"
  else if b = 0x0A then text "\\n"
  else if b = 0x0C then text "\\f"
  else if b = 0x0D then text "\\r"
  else if b = 0x22 then text "\\\""
  else if b = 0x5C then text "\\\\"
  else if b ≤ 0x1F then text "\\u00" ++ [hexDigit (b.toNat / 16), hexDigit (b.toNat % 16)]
  else [b]

/-- The byte an escape letter stands for. -/
def unescape (b : UInt8) : UInt8 :=
  if b = byte 'b' then 0x08
  else if b = byte 't' then 0x09
  else if b = byte 'n' then 0x0A
  else if b = byte 'f' then 0x0C
  else if b = byte 'r' then 0x0D
  else b

/-- A string with its quotation marks. -/
def quoted (s : Bytes) : Bytes := 0x22 :: s.flatMap escape ++ [0x22]

/-- Read a string after its opening quotation mark, up to the closing one. -/
def readString : Bytes → Option (Bytes × Bytes)
  | [] => none
  | b :: rest =>
    if b = 0x22 then some ([], rest)
    else if b = 0x5C then
      match rest with
      | [] => none
      | letter :: rest =>
        if letter = byte 'u' then
          match rest with
          | _ :: _ :: high :: low :: rest =>
            (readString rest).map fun (s, rest) =>
              (UInt8.ofNat (16 * hexValue high + hexValue low) :: s, rest)
          | _ => none
        else (readString rest).map fun (s, rest) => (unescape letter :: s, rest)
    else (readString rest).map fun (s, rest) => (b :: s, rest)

/-- A character that is not escaped is read as it is. -/
theorem readString_plain {b : UInt8} {rest : Bytes} (notQuote : b ≠ 0x22) (notSlash : b ≠ 0x5C) :
    readString (b :: rest) = (readString rest).map fun (s, rest) => (b :: s, rest) := by
  rw [readString.eq_def]
  simp [notQuote, notSlash]

/-- A backslash and a letter are read as one character. -/
theorem readString_letter (letter : UInt8) {rest : Bytes} (notHex : letter ≠ byte 'u') :
    readString (0x5C :: letter :: rest) =
      (readString rest).map fun (s, rest) => (unescape letter :: s, rest) := by
  rw [readString.eq_def]
  simp [notHex]

/-- A backslash, a u and four digits are read as one byte. -/
theorem readString_hex (a b high low : UInt8) (rest : Bytes) :
    readString (0x5C :: byte 'u' :: a :: b :: high :: low :: rest) =
      (readString rest).map fun (s, rest) =>
        (UInt8.ofNat (16 * hexValue high + hexValue low) :: s, rest) := by
  rw [readString.eq_def]
  simp

/-- Both digits of a byte below 32 are read back. -/
theorem hexValue_hexDigit : ∀ n < 16, hexValue (hexDigit n) = n := by decide

/-- Reading an escaped byte adds it to what is read after it. -/
theorem readString_escape (b : UInt8) (rest : Bytes) :
    readString (escape b ++ rest) = (readString rest).map fun (s, rest) => (b :: s, rest) := by
  unfold escape
  split
  next same => subst same; exact readString_letter 0x62 (by decide)
  split
  next same => subst same; exact readString_letter 0x74 (by decide)
  split
  next same => subst same; exact readString_letter 0x6E (by decide)
  split
  next same => subst same; exact readString_letter 0x66 (by decide)
  split
  next same => subst same; exact readString_letter 0x72 (by decide)
  split
  next same => subst same; exact readString_letter 0x22 (by decide)
  split
  next same => subst same; exact readString_letter 0x5C (by decide)
  next notQuote notSlash =>
  split
  next control =>
    have small : b.toNat < 32 := by
      have := UInt8.le_iff_toNat_le.mp control
      simp at this
      omega
    have digits : UInt8.ofNat (16 * hexValue (hexDigit (b.toNat / 16)) +
        hexValue (hexDigit (b.toNat % 16))) = b := by
      rw [hexValue_hexDigit _ (by omega), hexValue_hexDigit _ (by omega)]
      apply UInt8.toNat_inj.mp
      rw [UInt8.toNat_ofNat']
      omega
    have read := readString_hex (byte '0') (byte '0') (hexDigit (b.toNat / 16))
      (hexDigit (b.toNat % 16)) rest
    rw [digits] at read
    exact read
  next => exact readString_plain notQuote notSlash

/-- Reading a written string gives the string and stops behind it. -/
theorem readString_quoted (s rest : Bytes) :
    readString (s.flatMap escape ++ 0x22 :: rest) = some (s, rest) := by
  induction s with
  | nil =>
    rw [List.flatMap_nil, List.nil_append, readString.eq_def]
    simp
  | cons b s inductionHypothesis =>
    rw [List.flatMap_cons, List.append_assoc, readString_escape, inductionHypothesis]
    rfl

mutual

/-- The text of a document. -/
def textOf : Json → Bytes
  | .null => text "null"
  | .boolean true => text "true"
  | .boolean false => text "false"
  | .number_unsigned value => numeral value
  | .number_integer value =>
    if value < 0 then byte '-' :: numeral value.natAbs else numeral value.natAbs
  | .number_float _ => []
  | .string value => quoted value
  | .array [] => text "[]"
  | .array (item :: items) => byte '[' :: textOf item ++ moreItems items
  | .object [] => text "\x7b\x7d"
  | .object (entry :: members) => byte '{' :: memberText entry ++ moreMembers members

/-- The items after the first, with the closing bracket. -/
def moreItems : List Json → Bytes
  | [] => text "]"
  | item :: items => byte ',' :: textOf item ++ moreItems items

/-- A member: its key, a colon and its value. -/
def memberText : Bytes × Json → Bytes
  | (key, value) => quoted key ++ byte ':' :: textOf value

/-- The members after the first, with the closing brace. -/
def moreMembers : List (Bytes × Json) → Bytes
  | [] => text "\x7d"
  | entry :: members => byte ',' :: memberText entry ++ moreMembers members

end

mutual

/-- Read a value from the front of a text. The fuel bounds the nesting and the
number of items; the length of the text is always enough. -/
def readValue : Nat → Bytes → Option (Json × Bytes)
  | 0, _ => none
  | _, [] => none
  | fuel + 1, b :: rest =>
    if (b :: rest).take 4 = text "null" then some (.null, rest.drop 3)
    else if (b :: rest).take 4 = text "true" then some (.boolean true, rest.drop 3)
    else if (b :: rest).take 5 = text "false" then some (.boolean false, rest.drop 4)
    else if b = byte '"' then (readString rest).map fun (s, rest) => (.string s, rest)
    else if b = byte '[' then
      if rest.head? = some (byte ']') then some (.array [], rest.tail)
      else do
        let (item, rest) ← readValue fuel rest
        let (items, rest) ← readItems fuel rest
        some (.array (item :: items), rest)
    else if b = byte '{' then
      if rest.head? = some (byte '}') then some (.object [], rest.tail)
      else do
        let (entry, rest) ← readMember fuel rest
        let (members, rest) ← readMembers fuel rest
        if ((entry :: members).map Prod.fst).Pairwise (compare · · = .lt) then
          some (.object (entry :: members), rest)
        else none
    else if isDigit b then
      let number := value ((b :: rest).takeWhile isDigit)
      if number < 2 ^ 64 then some (.number_unsigned number, (b :: rest).dropWhile isDigit)
      else none
    else none

/-- Read the items after the first and the closing bracket. -/
def readItems : Nat → Bytes → Option (List Json × Bytes)
  | 0, _ => none
  | _, [] => none
  | fuel + 1, b :: rest =>
    if b = byte ']' then some ([], rest)
    else if b = byte ',' then do
      let (item, rest) ← readValue fuel rest
      let (items, rest) ← readItems fuel rest
      some (item :: items, rest)
    else none

/-- Read a key, the colon and the value. -/
def readMember : Nat → Bytes → Option ((Bytes × Json) × Bytes)
  | 0, _ => none
  | _, [] => none
  | fuel + 1, _ :: rest => do
    let (key, rest) ← readString rest
    let (held, rest) ← readValue fuel rest.tail
    some ((key, held), rest)

/-- Read the members after the first and the closing brace. -/
def readMembers : Nat → Bytes → Option (List (Bytes × Json) × Bytes)
  | 0, _ => none
  | _, [] => none
  | fuel + 1, b :: rest =>
    if b = byte '}' then some ([], rest)
    else if b = byte ',' then do
      let (entry, rest) ← readMember fuel rest
      let (members, rest) ← readMembers fuel rest
      some (entry :: members, rest)
    else none

end

/-- A value that begins with a quotation mark is a string. -/
theorem readValue_string (fuel : Nat) (rest : Bytes) :
    readValue (fuel + 1) (0x22 :: rest) =
      (readString rest).map fun (s, rest) => (.string s, rest) := rfl

/-- An array that is not empty is read item by item. -/
theorem readValue_array (fuel : Nat) {rest : Bytes} (open_ : rest.head? ≠ some (byte ']')) :
    readValue (fuel + 1) (byte '[' :: rest) = (do
      let (item, rest) ← readValue fuel rest
      let (items, rest) ← readItems fuel rest
      some (.array (item :: items), rest)) := by
  refine Eq.trans (b := if rest.head? = some (byte ']') then some (.array [], rest.tail) else _)
    rfl (if_neg open_)

/-- An object that is not empty is read member by member, and its keys have to increase. -/
theorem readValue_object (fuel : Nat) {rest : Bytes} (open_ : rest.head? ≠ some (byte '}')) :
    readValue (fuel + 1) (byte '{' :: rest) = (do
      let (entry, rest) ← readMember fuel rest
      let (members, rest) ← readMembers fuel rest
      if ((entry :: members).map Prod.fst).Pairwise (compare · · = .lt) then
        some (.object (entry :: members), rest)
      else none) := by
  refine Eq.trans (b := if rest.head? = some (byte '}') then some (.object [], rest.tail) else _)
    rfl (if_neg open_)

/-- A digit begins none of the other values. -/
theorem readValue_digit (fuel : Nat) {b : UInt8} {rest : Bytes} (digit : isDigit b = true) :
    readValue (fuel + 1) (b :: rest) =
      if value ((b :: rest).takeWhile isDigit) < 2 ^ 64 then
        some (.number_unsigned (value ((b :: rest).takeWhile isDigit)),
          (b :: rest).dropWhile isDigit)
      else none := by
  have differs (other : UInt8) (letter : isDigit other = false) : b ≠ other := by
    intro same
    rw [same, letter] at digit
    contradiction
  have noNull : (b :: rest).take 4 ≠ text "null" := fun same =>
    differs _ (by decide) (List.cons.inj same).1
  have noTrue : (b :: rest).take 4 ≠ text "true" := fun same =>
    differs _ (by decide) (List.cons.inj same).1
  have noFalse : (b :: rest).take 5 ≠ text "false" := fun same =>
    differs _ (by decide) (List.cons.inj same).1
  rw [readValue, if_neg noNull, if_neg noTrue, if_neg noFalse, if_neg (differs _ (by decide)),
    if_neg (differs _ (by decide)), if_neg (differs _ (by decide)), if_pos digit]

/-- The text of a plain value is not empty and cannot be taken for a closing
bracket. -/
theorem textOf_head {document : Json} (plain : document.Plain) :
    ∃ b rest, textOf document = b :: rest ∧ b ≠ byte ']' ∧ b ≠ byte '}' := by
  cases plain with
  | null => exact ⟨_, _, rfl, by decide, by decide⟩
  | boolean value => cases value <;> exact ⟨_, _, rfl, by decide, by decide⟩
  | number value bounded =>
    rw [textOf]
    cases digits : numeral value with
    | nil => exact absurd digits (numeral_ne_nil value)
    | cons b rest =>
      have digit := numeral_digits value b (by simp [digits])
      refine ⟨b, rest, rfl, ?_, ?_⟩ <;> (intro same; subst same; revert digit; decide)
  | string value => exact ⟨_, _, rfl, by decide, by decide⟩
  | array items => cases items <;> exact ⟨_, _, rfl, by decide, by decide⟩
  | object members => cases members <;> exact ⟨_, _, rfl, by decide, by decide⟩

/-- What may stand after a value: nothing that would prolong a number. -/
def Stops (rest : Bytes) : Prop := ∀ b, rest.head? = some b → isDigit b = false

/-- Behind a value in an array stands what ends it. -/
theorem stops_moreItems (items : List Json) (rest : Bytes) : Stops (moreItems items ++ rest) := by
  intro b first
  cases items <;> (cases first; decide)

/-- Behind a value in an object stands what ends it. -/
theorem stops_moreMembers (members : List (Bytes × Json)) (rest : Bytes) :
    Stops (moreMembers members ++ rest) := by
  intro b first
  cases members <;> (cases first; decide)

mutual

/-- The reader returns every plain value from its text and stops behind it. -/
theorem readValue_textOf (document : Json) (plain : document.Plain) (fuel : Nat) (rest : Bytes)
    (enough : (textOf document).length ≤ fuel) (stops : Stops rest) :
    readValue fuel (textOf document ++ rest) = some (document, rest) := by
  cases fuel with
  | zero =>
    obtain ⟨b, more, shape, _⟩ := textOf_head plain
    simp [shape] at enough
  | succ fuel =>
    match document, plain with
    | .null, _ => rfl
    | .boolean true, _ => rfl
    | .boolean false, _ => rfl
    | .number_unsigned number, .number _ bounded =>
      rw [textOf]
      cases digits : numeral number with
      | nil => exact absurd digits (numeral_ne_nil number)
      | cons b more =>
        have digit := numeral_digits number b (by simp [digits])
        have parts := takeWhile_numeral number rest stops
        rw [digits, List.cons_append] at parts
        rw [List.cons_append, readValue_digit fuel digit, parts.1, parts.2, ← digits,
          value_numeral, if_pos bounded]
    | .string s, _ =>
      have read := readString_quoted s rest
      rw [textOf, quoted, List.append_assoc, List.cons_append, readValue_string,
        List.singleton_append, read]
      rfl
    | .array [], _ => rfl
    | .array (item :: items), .array _ plain =>
      obtain ⟨b, more, shape, open_, _⟩ := textOf_head (plain item (by simp))
      rw [textOf] at enough ⊢
      simp only [List.cons_append, List.length_cons, List.length_append] at enough
      rw [List.append_assoc, List.cons_append, readValue_array fuel (by simp [shape, open_]),
        readValue_textOf item (plain item (by simp)) fuel _ (by omega) (stops_moreItems items rest)]
      dsimp only [Option.bind_eq_bind, Option.bind_some]
      rw [readItems_moreItems items (fun item member => plain item (by simp [member])) fuel rest
        (by omega)]
      rfl
    | .object [], _ => rfl
    | .object (entry :: members), .object _ plain ordered =>
      rw [textOf] at enough ⊢
      simp only [List.cons_append, List.length_cons, List.length_append] at enough
      rw [List.append_assoc, List.cons_append, readValue_object fuel (by
          rw [memberText, quoted]
          exact fun same => absurd (Option.some.inj same) (by decide)),
        readMember_memberText entry (plain entry (by simp)) fuel _ (by omega)
          (stops_moreMembers members rest)]
      dsimp only [Option.bind_eq_bind, Option.bind_some]
      rw [readMembers_moreMembers members (fun entry member => plain entry (by simp [member]))
        fuel rest (by omega)]
      dsimp only [Option.bind_some]
      rw [if_pos ordered]

/-- The items of an array are read back. -/
theorem readItems_moreItems (items : List Json) (plain : ∀ item ∈ items, item.Plain) (fuel : Nat)
    (rest : Bytes) (enough : (moreItems items).length ≤ fuel) :
    readItems fuel (moreItems items ++ rest) = some (items, rest) := by
  cases fuel with
  | zero => cases items <;> simp [moreItems, text] at enough
  | succ fuel =>
    match items with
    | [] => rfl
    | item :: items =>
      rw [moreItems] at enough ⊢
      simp only [List.cons_append, List.length_cons, List.length_append] at enough
      rw [List.append_assoc, List.cons_append, readItems, if_neg (by decide), if_pos rfl,
        readValue_textOf item (plain item (by simp)) fuel _ (by omega) (stops_moreItems items rest)]
      dsimp only [Option.bind_eq_bind, Option.bind_some]
      rw [readItems_moreItems items (fun item member => plain item (by simp [member])) fuel rest
        (by omega)]
      rfl

/-- A member is read back in front of what ends its value. -/
theorem readMember_memberText (entry : Bytes × Json) (plain : entry.2.Plain) (fuel : Nat)
    (rest : Bytes) (enough : (memberText entry).length ≤ fuel) (stops : Stops rest) :
    readMember fuel (memberText entry ++ rest) = some (entry, rest) := by
  match entry with
  | (key, held) =>
    rw [memberText, quoted] at enough ⊢
    simp only [List.cons_append, List.length_cons, List.length_append] at enough
    cases fuel with
    | zero => omega
    | succ fuel =>
      have read := readString_quoted key (byte ':' :: (textOf held ++ rest))
      rw [List.cons_append, List.cons_append, List.cons_append, readMember, List.append_assoc,
        List.append_assoc, List.singleton_append, List.cons_append, read]
      dsimp only [Option.bind_eq_bind, Option.bind_some, List.tail_cons]
      rw [readValue_textOf held plain fuel rest (by omega) stops]
      rfl

/-- The members of an object are read back. -/
theorem readMembers_moreMembers (members : List (Bytes × Json))
    (plain : ∀ entry ∈ members, entry.2.Plain) (fuel : Nat) (rest : Bytes)
    (enough : (moreMembers members).length ≤ fuel) :
    readMembers fuel (moreMembers members ++ rest) = some (members, rest) := by
  cases fuel with
  | zero => cases members <;> simp [moreMembers, text] at enough
  | succ fuel =>
    match members with
    | [] => rfl
    | entry :: members =>
      rw [moreMembers] at enough ⊢
      simp only [List.cons_append, List.length_cons, List.length_append] at enough
      rw [List.append_assoc, List.cons_append, readMembers, if_neg (by decide), if_pos rfl,
        readMember_memberText entry (plain entry (by simp)) fuel _ (by omega)
          (stops_moreMembers members rest)]
      dsimp only [Option.bind_eq_bind, Option.bind_some]
      rw [readMembers_moreMembers members (fun entry member => plain entry (by simp [member]))
        fuel rest (by omega)]
      rfl

end

mutual

/-- Every string and every key of the document is UTF-8. -/
def utf8 : Json → Bool
  | .string s => Utf8.valid s
  | .array items => utf8Items items
  | .object members => utf8Members members
  | _ => true

def utf8Items : List Json → Bool
  | [] => true
  | item :: items => utf8 item && utf8Items items

def utf8Entry : Bytes × Json → Bool
  | (key, held) => Utf8.valid key && utf8 held

def utf8Members : List (Bytes × Json) → Bool
  | [] => true
  | entry :: members => utf8Entry entry && utf8Members members

end

mutual

/-- A document that is encoded passes the test. -/
theorem utf8_of_encoded (document : Json) (encoded : document.Encoded) : utf8 document = true := by
  match document, encoded with
  | .null, _ | .boolean _, _ | .number_unsigned _, _ | .number_integer _, _
  | .number_float _, _ => rfl
  | .string s, .string _ valid => exact valid
  | .array items, .array _ encoded => exact utf8Items_of_encoded items encoded
  | .object members, .object _ keys encoded =>
    exact utf8Members_of_encoded members keys encoded

theorem utf8Items_of_encoded (items : List Json) (encoded : ∀ item ∈ items, item.Encoded) :
    utf8Items items = true := by
  match items with
  | [] => rfl
  | item :: items =>
    rw [utf8Items, utf8_of_encoded item (encoded item (by simp)),
      utf8Items_of_encoded items (fun item member => encoded item (by simp [member]))]
    rfl

theorem utf8Entry_of_encoded (entry : Bytes × Json) (valid : Utf8.valid entry.1 = true)
    (encoded : entry.2.Encoded) : utf8Entry entry = true := by
  match entry with
  | (key, held) =>
    rw [utf8Entry, valid, utf8_of_encoded held encoded]
    rfl

theorem utf8Members_of_encoded (members : List (Bytes × Json))
    (keys : ∀ entry ∈ members, Utf8.valid entry.1 = true)
    (encoded : ∀ entry ∈ members, entry.2.Encoded) : utf8Members members = true := by
  match members with
  | [] => rfl
  | entry :: members =>
    rw [utf8Members, utf8Entry_of_encoded entry (keys entry (by simp)) (encoded entry (by simp)),
      utf8Members_of_encoded members (fun entry member => keys entry (by simp [member]))
        (fun entry member => encoded entry (by simp [member]))]
    rfl

end

/-- Serialisation refuses a string that is not UTF-8. -/
def dump (document : Json) : Throws Bytes :=
  if utf8 document then .ok (textOf document)
  else .error (text "[json.exception.type_error.316] invalid UTF-8 byte")

/-- What is written is the text of the document. -/
theorem dump_ok {document : Json} {data : Bytes} (written : dump document = .ok data) :
    data = textOf document := by
  unfold dump at written
  split at written
  · exact (Except.ok.inj written).symm
  · contradiction

/-- Parsing expects one value, then the end of the text or a NUL byte. -/
def parse (document : Bytes) : Throws Json :=
  match readValue document.length document with
  | some (value, []) => .ok value
  | some (value, 0 :: _) => .ok value
  | _ => .error (text "[json.exception.parse_error.101] parse error: syntax error")

/-- The text of an item is not longer than that of all items. -/
theorem length_moreItems {item : Json} {items : List Json} (member : item ∈ items) :
    (textOf item).length ≤ (moreItems items).length := by
  induction items with
  | nil => contradiction
  | cons first items inductionHypothesis =>
    rw [moreItems, List.length_append, List.length_cons]
    rcases List.mem_cons.mp member with rfl | member
    · omega
    · have := inductionHypothesis member
      omega

/-- The text of a value is not longer than that of all members. -/
theorem length_moreMembers {entry : Bytes × Json} {members : List (Bytes × Json)}
    (member : entry ∈ members) : (textOf entry.2).length ≤ (moreMembers members).length := by
  induction members with
  | nil => contradiction
  | cons first members inductionHypothesis =>
    rw [moreMembers, List.length_append, List.length_cons]
    rcases List.mem_cons.mp member with rfl | member
    · rw [memberText, List.length_append, List.length_cons]
      omega
    · have := inductionHypothesis member
      omega

/-- The text of an array is at least as long as that of any of its items. -/
theorem length_item {item : Json} {items : List Json} (member : item ∈ items) :
    (textOf item).length ≤ (textOf (.array items)).length := by
  cases items with
  | nil => contradiction
  | cons first items =>
    rw [textOf, List.length_append, List.length_cons]
    rcases List.mem_cons.mp member with rfl | member
    · omega
    · have := length_moreItems member
      omega

/-- The text of an object is at least as long as that of any of its values. -/
theorem length_member (entry : Bytes × Json) {members : List (Bytes × Json)}
    (member : entry ∈ members) : (textOf entry.2).length ≤ (textOf (.object members)).length := by
  cases members with
  | nil => contradiction
  | cons first members =>
    rw [textOf, List.length_append, List.length_cons]
    rcases List.mem_cons.mp member with rfl | member
    · rw [memberText, List.length_append, List.length_cons]
      omega
    · have := length_moreMembers member
      omega

/-- The text of a string is longer than the string. -/
theorem length_string (s : Bytes) : s.length ≤ (textOf (.string s)).length := by
  have escaped : s.length ≤ (s.flatMap escape).length := by
    induction s with
    | nil => simp
    | cons b s inductionHypothesis =>
      have one : 1 ≤ (escape b).length := by
        unfold escape
        repeat' split
        all_goals simp [text]
      rw [List.flatMap_cons, List.length_append, List.length_cons]
      omega
  rw [textOf, quoted, List.length_append, List.length_cons]
  omega

end JsonText

/-- The library made of the writer and the reader of this module. -/
def JsonLibrary.canonical : JsonLibrary where
  dump := JsonText.dump
  parse := JsonText.parse

theorem JsonLibrary.canonical_dump : JsonLibrary.canonical.dump = JsonText.dump := rfl

/-- The text `dump` wrote is read back, whatever harmless follows it. -/
theorem JsonText.read_dump {value : Json} {document : Bytes} (plain : value.Plain)
    (written : dump value = .ok document) (rest : Bytes) (stops : Stops rest) :
    readValue (document ++ rest).length (document ++ rest) = some (value, rest) := by
  rw [dump_ok written]
  exact readValue_textOf value plain _ rest (by simp) stops

theorem JsonLibrary.canonical_faithful : JsonLibrary.canonical.Faithful where
  dumps value _ encoded := ⟨JsonText.textOf value, by
    change JsonText.dump value = _
    rw [JsonText.dump, JsonText.utf8_of_encoded value encoded]
    rfl⟩
  parses value document plain written := by
    have read := JsonText.read_dump plain written [] (fun b first => by cases first)
    rw [List.append_nil] at read
    change JsonText.parse document = _
    rw [JsonText.parse, read]
  endsAtNul value document plain written := by
    have read := JsonText.read_dump plain written [0]
      (fun b first => by cases first; decide)
    change JsonText.parse (document ++ [0]) = _
    rw [JsonText.parse, read]
    rfl

end Cppboot
