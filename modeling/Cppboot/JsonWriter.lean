import Mathlib.Algebra.Group.Int.Defs
import Cppboot.Decimal
import Cppboot.JsonEscapes

/-!
# What the JSON library writes

The serializer writes a value into a text, on one line or with line breaks and indentation.
An integer is written from its last digit on, two digits at a time, into a buffer that
still holds what was written before; how many characters it has is counted first. Writing a
floating point number is a parameter.

A value is written exactly when all its strings and keys are UTF-8. The blanks of an
indentation are taken from a string that is doubled at most once for each container, so
the number of them for each level is bounded.
-/

namespace Cppboot.JsonWriter

open Decimal

/-! ## Integers -/

/-- The digit of a number below ten. -/
def digit (n : Nat) : UInt8 := UInt8.ofNat (0x30 + n)

/-- `digits_to_99`, the two digits of a number below a hundred. -/
def digitsTo99 (n : Nat) : Bytes := [digit (n / 10), digit (n % 10)]

/-- `count_digits`, from the number of digits that were counted on. -/
def countDigits (n_digits x : Nat) : Nat :=
  if x < 10 then n_digits
  else if x < 100 then n_digits + 1
  else if x < 1000 then n_digits + 2
  else if x < 10000 then n_digits + 3
  else countDigits (n_digits + 4) (x / 10000)
termination_by x

/-- `remove_sign`. -/
def removeSign (x : Int) : Nat := (-(x + 1)).toNat + 1

/-- The digits of a number, in front of those that were written. -/
def writeDigits (abs_value : Nat) (written : Bytes) : Bytes :=
  if 100 ≤ abs_value then
    writeDigits (abs_value / 100) (digitsTo99 (abs_value % 100) ++ written)
  else if 10 ≤ abs_value then digitsTo99 abs_value ++ written
  else digit abs_value :: written
termination_by abs_value

/-- The first characters of the buffer, when these were written in front of the position
behind them. -/
def bufferFront (number_buffer : Bytes) (n_chars : Nat) (written : Bytes) : Bytes :=
  number_buffer.take (n_chars - written.length) ++ written

/-- `dump_integer`, with what the buffer holds. -/
def dumpInteger (number_buffer : Bytes) (x : Int) : Bytes :=
  if x = 0 then [byte '0']
  else if x < 0 then
    bufferFront (number_buffer.set 0 (byte '-')) (1 + countDigits 1 (removeSign x))
      (writeDigits (removeSign x) [])
  else bufferFront number_buffer (countDigits 1 x.toNat) (writeDigits x.toNat [])

/-- `number_buffer` as it is made. -/
def numberBuffer : Bytes := List.replicate 64 0

/-- A number below ten has one digit. -/
theorem numeral_lt {n : Nat} (small : n < 10) : numeral n = [digit n] := by
  revert n
  decide

/-- A number from ten on is written with its last digit behind the others. -/
theorem numeral_div {n : Nat} (large : 10 ≤ n) :
    numeral n = numeral (n / 10) ++ [digit (n % 10)] := by
  have last : numeral (n % 10) = [digit (n % 10)] := numeral_lt (Nat.mod_lt n (by decide))
  rw [numeral, Nat.toDigits_of_base_le (by decide) large, List.map_append, ← last]
  rw [numeral, numeral, Nat.toDigits_of_lt_base (Nat.mod_lt n (by decide))]

/-- Two digits at once. -/
theorem numeral_hundred {n : Nat} (large : 100 ≤ n) :
    numeral n = numeral (n / 100) ++ digitsTo99 (n % 100) := by
  rw [numeral_div (by omega : 10 ≤ n), numeral_div (by omega : 10 ≤ n / 10), digitsTo99,
    Nat.div_div_eq_div_mul, List.append_assoc]
  have tens : n / 10 % 10 = n % 100 / 10 := by omega
  have ones : n % 10 = n % 100 % 10 := by omega
  rw [tens, ones]
  rfl

/-- The loop writes the numeral in front of what was written. -/
theorem writeDigits_numeral (abs_value : Nat) (written : Bytes) :
    writeDigits abs_value written = numeral abs_value ++ written := by
  induction abs_value, written using writeDigits.induct with
  | case1 abs_value written large inductionHypothesis =>
    rw [writeDigits, if_pos large, inductionHypothesis, numeral_hundred large, List.append_assoc]
  | case2 abs_value written small two =>
    rw [writeDigits, if_neg small, if_pos two, numeral_div two, numeral_lt (by omega), digitsTo99]
    rfl
  | case3 abs_value written small one =>
    rw [writeDigits, if_neg small, if_neg one, numeral_lt (by omega)]
    rfl

/-- A number from ten on has one digit more than its tenth. -/
theorem numeral_length {n : Nat} (large : 10 ≤ n) :
    (numeral n).length = (numeral (n / 10)).length + 1 := by
  rw [numeral_div large, List.length_append]
  rfl

/-- The digits are counted right. -/
theorem countDigits_length (n_digits x : Nat) :
    countDigits (n_digits + 1) x = n_digits + (numeral x).length := by
  have one {n : Nat} (small : n < 10) : (numeral n).length = 1 := by rw [numeral_lt small]; rfl
  induction x using Nat.strongRecOn generalizing n_digits with
  | ind x inductionHypothesis =>
    rw [countDigits]
    split
    next small => rw [one small]
    next open_ =>
    rw [numeral_length (Nat.le_of_not_lt open_)]
    split
    next small => rw [one (by omega)]
    next open_ =>
    rw [numeral_length (by omega)]
    split
    next small => rw [one (by omega)]
    next open_ =>
    rw [numeral_length (by omega)]
    split
    next small => rw [one (by omega)]
    next open_ =>
    rw [numeral_length (by omega), Nat.add_right_comm n_digits 1 4,
      inductionHypothesis (x / 10000) (by omega)]
    have same : x / 10 / 10 / 10 / 10 = x / 10000 := by omega
    rw [same]
    omega

/-- An integer is written as its numeral, with a sign if it is negative. Nothing of what the
buffer held before is written. -/
theorem dumpInteger_numeral {number_buffer : Bytes} (room : number_buffer ≠ []) (x : Int) :
    dumpInteger number_buffer x =
      if x < 0 then byte '-' :: numeral x.natAbs else numeral x.natAbs := by
  have whole (front : Bytes) (n : Nat) (x : Nat) :
      bufferFront front (n + countDigits 1 x) (writeDigits x []) = front.take n ++ numeral x := by
    rw [bufferFront, writeDigits_numeral, List.append_nil, countDigits_length 0, Nat.zero_add,
      Nat.add_sub_cancel]
  unfold dumpInteger
  split
  next zero =>
    rw [zero]
    rfl
  split
  next negative =>
    have sign : (number_buffer.set 0 (byte '-')).take 1 = [byte '-'] := by
      cases number_buffer with
      | nil => exact absurd rfl room
      | cons _ _ => rfl
    have size : removeSign x = x.natAbs := by
      unfold removeSign
      omega
    rw [whole, sign, size]
    rfl
  next nonzero positive =>
    have size : x.toNat = x.natAbs := by omega
    have plain := whole number_buffer 0 x.toNat
    rw [Nat.zero_add] at plain
    rw [plain, size]
    rfl

/-! ## Values -/

/-- The indentation inside of a container, an `unsigned int`. -/
def indentInside (current_indent indent_step : Nat) : Nat := (current_indent + indent_step) % 2 ^ 32

/-- How a value is laid out: on one line, or with so many blanks for each level. They are
written from `indent_string`, which is long enough for up to 1024 of them. -/
inductive Spacing where
  | compact
  | pretty (indent_step : Nat) (bounded : indent_step ≤ 1024)

namespace Spacing

/-- Two blanks for each level. -/
def two : Spacing := .pretty 2 (Nat.le_of_ble_eq_true rfl)

/-- The indentation of what is inside. -/
def newIndent (current_indent : Nat) : Spacing → Nat
  | .compact => current_indent
  | .pretty indent_step _ => indentInside current_indent indent_step

/-- A line break and the indentation behind it. -/
def line (indent : Nat) : Spacing → Bytes
  | .compact => []
  | .pretty _ _ => byte '\n' :: List.replicate indent (byte ' ')

/-- What stands between a colon and the value behind it. -/
def gap : Spacing → Bytes
  | .compact => []
  | .pretty _ _ => text " "

end Spacing

/-! ## The string of blanks

`indent_string` starts with 512 blanks. It is followed here through a value that is written
with line breaks.
-/

/-- The length of `indent_string` inside of a container: if it is too short it is doubled,
once. -/
def resized (size new_indent : Nat) : Nat := if size < new_indent then size * 2 else size

mutual

/-- The length after a value is written, or none if more was taken from the string than it
holds. -/
def indentString (indent_step current_indent size : Nat) : Json → Option Nat
  | .array (item :: items) => do
    let new_indent := indentInside current_indent indent_step
    let after ← indentItems indent_step new_indent (resized size new_indent) (item :: items)
    if current_indent ≤ after then some after else none
  | .object (entry :: members) => do
    let new_indent := indentInside current_indent indent_step
    let after ← indentMembers indent_step new_indent (resized size new_indent) (entry :: members)
    if current_indent ≤ after then some after else none
  | _ => some size

/-- The length after some items, each on a line of its own. -/
def indentItems (indent_step new_indent size : Nat) : List Json → Option Nat
  | [] => some size
  | item :: items => do
    let after ← if new_indent ≤ size then indentString indent_step new_indent size item else none
    indentItems indent_step new_indent after items

/-- The length after some members, each on a line of its own. -/
def indentMembers (indent_step new_indent size : Nat) : List (Bytes × Json) → Option Nat
  | [] => some size
  | (_, held) :: members => do
    let after ← if new_indent ≤ size then indentString indent_step new_indent size held else none
    indentMembers indent_step new_indent after members

end

/-- The string holds the indentation, and doubling it once is enough for the next one. -/
structure Roomy (indent_step current_indent size : Nat) : Prop where
  initial : 512 ≤ size
  holds : current_indent ≤ size
  next : indent_step ≤ size ∨ current_indent = 0

/-- A longer string is roomy too. -/
theorem Roomy.grown {indent_step current_indent size after : Nat}
    (roomy : Roomy indent_step current_indent size) (grown : size ≤ after) :
    Roomy indent_step current_indent after :=
  ⟨roomy.initial.trans grown, roomy.holds.trans grown, roomy.next.imp_left fun fits =>
    fits.trans grown⟩

/-- One doubling is enough inside of a container. -/
theorem Roomy.inside {indent_step current_indent size : Nat} (bounded : indent_step ≤ 1024)
    (roomy : Roomy indent_step current_indent size) :
    Roomy indent_step (indentInside current_indent indent_step)
        (resized size (indentInside current_indent indent_step)) ∧
      size ≤ resized size (indentInside current_indent indent_step) := by
  obtain ⟨initial, holds, next⟩ := roomy
  have wrapped : indentInside current_indent indent_step ≤ current_indent + indent_step :=
    Nat.mod_le _ _
  have whole : current_indent = 0 → indentInside current_indent indent_step = indent_step := by
    unfold indentInside
    omega
  unfold resized
  split
  · exact ⟨⟨by omega, by omega, by omega⟩, by omega⟩
  · exact ⟨⟨by omega, by omega, by omega⟩, by omega⟩

mutual

/-- Indented by up to 1024 blanks for each level, no value takes more than the string
holds. -/
theorem indentString_suffices {indent_step : Nat} (bounded : indent_step ≤ 1024) (value : Json)
    {current_indent size : Nat} (roomy : Roomy indent_step current_indent size) :
    ∃ after, indentString indent_step current_indent size value = some after ∧ size ≤ after := by
  match value with
  | .null | .boolean _ | .number_unsigned _ | .number_integer _ | .number_float _ | .string _
  | .array [] | .object [] => exact ⟨size, by simp [indentString], Nat.le_refl _⟩
  | .array (item :: items) =>
    obtain ⟨inside, larger⟩ := roomy.inside bounded
    obtain ⟨after, taken, grown⟩ := indentItems_suffices bounded (item :: items) inside
    have still : current_indent ≤ after := roomy.holds.trans (larger.trans grown)
    exact ⟨after, by simp [indentString, taken, still], larger.trans grown⟩
  | .object (entry :: members) =>
    obtain ⟨inside, larger⟩ := roomy.inside bounded
    obtain ⟨after, taken, grown⟩ := indentMembers_suffices bounded (entry :: members) inside
    have still : current_indent ≤ after := roomy.holds.trans (larger.trans grown)
    exact ⟨after, by simp [indentString, taken, still], larger.trans grown⟩

theorem indentItems_suffices {indent_step : Nat} (bounded : indent_step ≤ 1024)
    (items : List Json) {new_indent size : Nat} (roomy : Roomy indent_step new_indent size) :
    ∃ after, indentItems indent_step new_indent size items = some after ∧ size ≤ after := by
  match items with
  | [] => exact ⟨size, by simp [indentItems], Nat.le_refl _⟩
  | item :: items =>
    obtain ⟨between, first, larger⟩ := indentString_suffices bounded item roomy
    obtain ⟨after, others, grown⟩ := indentItems_suffices bounded items (roomy.grown larger)
    exact ⟨after, by simp [indentItems, roomy.holds, first, others], larger.trans grown⟩

theorem indentMembers_suffices {indent_step : Nat} (bounded : indent_step ≤ 1024)
    (members : List (Bytes × Json)) {new_indent size : Nat}
    (roomy : Roomy indent_step new_indent size) :
    ∃ after, indentMembers indent_step new_indent size members = some after ∧ size ≤ after := by
  match members with
  | [] => exact ⟨size, by simp [indentMembers], Nat.le_refl _⟩
  | (key, held) :: members =>
    obtain ⟨between, first, larger⟩ := indentString_suffices bounded held roomy
    obtain ⟨after, others, grown⟩ := indentMembers_suffices bounded members (roomy.grown larger)
    exact ⟨after, by simp [indentMembers, roomy.holds, first, others], larger.trans grown⟩

end

/-- A value that is written with such a spacing takes no more blanks than there are. -/
theorem indentString_isSome {indent_step : Nat} (bounded : indent_step ≤ 1024) (value : Json) :
    (indentString indent_step 0 512 value).isSome := by
  obtain ⟨after, taken, _⟩ :=
    indentString_suffices bounded value ⟨Nat.le_refl 512, Nat.zero_le _, Or.inr rfl⟩
  rw [taken]
  rfl

/-- One blank more for each level, and the NUL behind the string is written. -/
example : indentString 1025 0 512 (.array [.null]) = none := by decide +kernel

variable (toChars : Float → Bytes) (spacing : Spacing)

/-- `dump_float`. -/
def dumpFloat (x : Float) : Bytes := if x.isFinite then toChars x else text "null"

/-- A string or a key with its quotation marks. -/
def dumpString (s : Bytes) : Throws Bytes :=
  (dumpEscaped 0 0 0 0 s).map fun written => byte '"' :: (written ++ [byte '"'])

mutual

/-- `dump`. -/
def dump (current_indent : Nat) : Json → Throws Bytes
  | .null => .ok (text "null")
  | .boolean true => .ok (text "true")
  | .boolean false => .ok (text "false")
  | .number_unsigned value => .ok (dumpInteger numberBuffer value)
  | .number_integer value => .ok (dumpInteger numberBuffer value)
  | .number_float value => .ok (dumpFloat toChars value)
  | .string value => dumpString value
  | .array [] => .ok (text "[]")
  | .array (item :: items) => do
    let first ← dump (spacing.newIndent current_indent) item
    let others ← dumpItems (spacing.newIndent current_indent) items
    .ok (byte '[' :: (spacing.line (spacing.newIndent current_indent) ++ first ++ others ++
      spacing.line current_indent ++ [byte ']']))
  | .object [] => .ok (text "\x7b\x7d")
  | .object (entry :: members) => do
    let first ← dumpMember (spacing.newIndent current_indent) entry
    let others ← dumpMembers (spacing.newIndent current_indent) members
    .ok (byte '{' :: (spacing.line (spacing.newIndent current_indent) ++ first ++ others ++
      spacing.line current_indent ++ [byte '}']))

/-- The items after the first, each behind a comma. -/
def dumpItems (new_indent : Nat) : List Json → Throws Bytes
  | [] => .ok []
  | item :: items => do
    let written ← dump new_indent item
    let others ← dumpItems new_indent items
    .ok (byte ',' :: (spacing.line new_indent ++ written ++ others))

/-- A key and its value. -/
def dumpMember (new_indent : Nat) : Bytes × Json → Throws Bytes
  | (key, held) => do
    let name ← dumpString key
    let written ← dump new_indent held
    .ok (name ++ byte ':' :: (spacing.gap ++ written))

/-- The members after the first, each behind a comma. -/
def dumpMembers (new_indent : Nat) : List (Bytes × Json) → Throws Bytes
  | [] => .ok []
  | entry :: members => do
    let written ← dumpMember new_indent entry
    let others ← dumpMembers new_indent members
    .ok (byte ',' :: (spacing.line new_indent ++ written ++ others))

end

/-! ## When a value can be written -/

theorem isOk_map (first : Throws Bytes) (f : Bytes → Bytes) : (first.map f).isOk = first.isOk := by
  cases first <;> rfl

theorem isOk_bind (first other : Throws Bytes) (join : Bytes → Bytes → Bytes) :
    (do
      let one ← first
      let two ← other
      Except.ok (join one two) : Throws Bytes).isOk = (first.isOk && other.isOk) := by
  cases first <;> cases other <;> rfl

/-- A string is written exactly when it is UTF-8. -/
theorem dumpString_isOk (s : Bytes) : (dumpString s).isOk = Utf8.valid s := by
  have spelled : Written (Utf8.valid s) (s.flatMap JsonText.escape) (dumpEscaped 0 0 0 0 s) :=
    dumpEscaped_written (Or.inl rfl) (Nat.zero_le _) 0 0 s
  rw [dumpString, isOk_map]
  cases formed : Utf8.valid s with
  | true =>
    rw [formed] at spelled
    have ok : dumpEscaped 0 0 0 0 s = .ok (s.flatMap JsonText.escape) := spelled
    rw [ok]
    rfl
  | false =>
    rw [formed] at spelled
    obtain ⟨what, failed⟩ : ∃ what, dumpEscaped 0 0 0 0 s = .error what := spelled
    rw [failed]
    rfl

mutual

/-- A value is written exactly when every string and every key in it is UTF-8. -/
theorem dump_isOk (current_indent : Nat) (value : Json) :
    (dump toChars spacing current_indent value).isOk = JsonText.utf8 value := by
  match value with
  | .null | .boolean true | .boolean false | .number_unsigned _ | .number_integer _
  | .number_float _ => rfl
  | .string s => exact dumpString_isOk s
  | .array [] => rfl
  | .array (item :: items) =>
    rw [dump, isOk_bind, dump_isOk _ item, dumpItems_isOk _ items]
    rfl
  | .object [] => rfl
  | .object (entry :: members) =>
    rw [dump, isOk_bind, dumpMember_isOk _ entry, dumpMembers_isOk _ members]
    rfl

theorem dumpItems_isOk (new_indent : Nat) (items : List Json) :
    (dumpItems toChars spacing new_indent items).isOk = JsonText.utf8Items items := by
  match items with
  | [] => rfl
  | item :: items =>
    rw [dumpItems, isOk_bind, dump_isOk _ item, dumpItems_isOk _ items]
    rfl

theorem dumpMember_isOk (new_indent : Nat) (entry : Bytes × Json) :
    (dumpMember toChars spacing new_indent entry).isOk = JsonText.utf8Entry entry := by
  match entry with
  | (key, held) =>
    rw [dumpMember, isOk_bind, dumpString_isOk, dump_isOk _ held]
    rfl

theorem dumpMembers_isOk (new_indent : Nat) (members : List (Bytes × Json)) :
    (dumpMembers toChars spacing new_indent members).isOk = JsonText.utf8Members members := by
  match members with
  | [] => rfl
  | entry :: members =>
    rw [dumpMembers, isOk_bind, dumpMember_isOk _ entry, dumpMembers_isOk _ members]
    rfl

end

end Cppboot.JsonWriter
