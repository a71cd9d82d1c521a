import Mathlib.Algebra.Group.Int.Defs
import Cppboot.Decimal
import Cppboot.JsonStrings

/-!
# The scanner of the JSON library

The scanner reads the characters of a text one at a time, counts lines and columns, and
makes tokens of them. A token comes with the value that the parser asks for; a character
that was read to see the end of a number is put back.

As for strings, what looks at a token is given the characters behind its first one, and
says what it makes of them and how many it reads. The scanner then takes that many, so that
its position is where the error messages say it is. Reading a floating point number is a
parameter.
-/

namespace Cppboot

open Decimal

/-- The token types, with the value that the scanner has for them. -/
inductive JsonToken where
  | literal_true
  | literal_false
  | literal_null
  | value_string (value : Bytes)
  | value_unsigned (value : Nat)
  | value_integer (value : Int)
  | value_float (value : Float)
  | begin_array
  | begin_object
  | end_array
  | end_object
  | name_separator
  | value_separator
  | parse_error (error_message : Bytes)
  | end_of_input

/-- `token_type_name`. -/
def JsonToken.typeName : JsonToken → Bytes
  | .literal_true => text "true literal"
  | .literal_false => text "false literal"
  | .literal_null => text "null literal"
  | .value_string _ => text "string literal"
  | .value_unsigned _ | .value_integer _ | .value_float _ => text "number literal"
  | .begin_array => text "'['"
  | .begin_object => text "'\x7b'"
  | .end_array => text "']'"
  | .end_object => text "'\x7d'"
  | .name_separator => text "':'"
  | .value_separator => text "','"
  | .parse_error _ => text "<parse error>"
  | .end_of_input => text "end of input"

/-- What can be said of the value of a token: strings are UTF-8, and integers fit their type. -/
def JsonToken.Sound : JsonToken → Prop
  | .value_string value => Utf8.valid value = true
  | .value_unsigned value => value < 2 ^ 64
  | .value_integer value => -2 ^ 63 ≤ value ∧ value ≤ 0
  | _ => True

/-- Where the scanner stands in the text. -/
structure JsonPosition where
  chars_read_total : Nat
  chars_read_current_line : Nat
  lines_read : Nat

/-- The scanner: the characters that were not read, the one that was read last unless the
end of the text was reached, where that is, and what was read of the token. -/
structure JsonLexer where
  ia : Bytes
  current : Option UInt8
  position : JsonPosition
  token_string : Bytes

namespace JsonLexer

/-- A scanner in front of a text. -/
def start (input : Bytes) : JsonLexer := ⟨input, none, ⟨0, 0, 0⟩, []⟩

/-- Read one character, and count it. -/
def get (lx : JsonLexer) : JsonLexer where
  ia := lx.ia.tail
  current := lx.ia.head?
  position :=
    { chars_read_total := lx.position.chars_read_total + 1
      chars_read_current_line :=
        if lx.ia.head? = some (byte '\n') then 0 else lx.position.chars_read_current_line + 1
      lines_read :=
        if lx.ia.head? = some (byte '\n') then lx.position.lines_read + 1
        else lx.position.lines_read }
  token_string := lx.token_string ++ lx.ia.head?.toList

/-- The character that was read last will be read again. -/
def unget (lx : JsonLexer) : JsonLexer where
  ia := lx.current.toList ++ lx.ia
  current := lx.current
  position :=
    { chars_read_total := lx.position.chars_read_total - 1
      chars_read_current_line := lx.position.chars_read_current_line - 1
      lines_read :=
        if lx.position.chars_read_current_line = 0 then lx.position.lines_read - 1
        else lx.position.lines_read }
  token_string := if lx.current.isSome then lx.token_string.dropLast else lx.token_string

/-- The token begins with the character that was read last. -/
def reset (lx : JsonLexer) : JsonLexer := { lx with token_string := lx.current.toList }

/-- So many characters are read. -/
def gets : Nat → JsonLexer → JsonLexer
  | 0, lx => lx
  | n + 1, lx => lx.get.gets n

theorem gets_succ (n : Nat) (lx : JsonLexer) : lx.gets (n + 1) = (lx.gets n).get := by
  induction n generalizing lx with
  | zero => rfl
  | succ n inductionHypothesis => exact inductionHypothesis lx.get

/-- Reading takes characters off the input. -/
@[simp] theorem gets_ia (n : Nat) (lx : JsonLexer) : (lx.gets n).ia = lx.ia.drop n := by
  induction n generalizing lx with
  | zero => rfl
  | succ n inductionHypothesis =>
    apply (inductionHypothesis lx.get).trans
    exact List.drop_tail

/-- Every character that is read is counted. -/
@[simp] theorem gets_total (n : Nat) (lx : JsonLexer) :
    (lx.gets n).position.chars_read_total = lx.position.chars_read_total + n := by
  induction n with
  | zero => rfl
  | succ n inductionHypothesis =>
    rw [gets_succ]
    exact congrArg (· + 1) inductionHypothesis

@[simp] theorem reset_ia (lx : JsonLexer) : lx.reset.ia = lx.ia := rfl

@[simp] theorem reset_total (lx : JsonLexer) :
    lx.reset.position.chars_read_total = lx.position.chars_read_total := rfl

/-- Reading a character and putting it back leaves the text as it was. -/
@[simp] theorem get_unget_ia (lx : JsonLexer) : lx.get.unget.ia = lx.ia := by
  change lx.ia.head?.toList ++ lx.ia.tail = lx.ia
  cases lx.ia with
  | nil => rfl
  | cons c input => rfl

@[simp] theorem get_unget_total (lx : JsonLexer) :
    lx.get.unget.position.chars_read_total = lx.position.chars_read_total := rfl

/-- A string, behind its opening quotation mark. -/
def scanString (lx : JsonLexer) : JsonToken × JsonLexer :=
  match scanCharacters (lx.ia.length + 1) lx.ia with
  | (.error message, n) => (.parse_error message, lx.reset.gets n)
  | (.ok value, n) => (.value_string value, lx.reset.gets n)

/-! ## Numbers -/

/-- The types that a number can have so far. -/
inductive NumberType where
  | value_unsigned
  | value_integer
  | value_float

/-- The labels of `scan_number`. -/
inductive NumberState where
  | minus
  | zero
  | any1
  | decimal1
  | decimal2
  | exponent
  | sign
  | any2

namespace NumberState

/-- The label that the first character of a number leads to. -/
def first (c : UInt8) : NumberState :=
  if c = byte '-' then .minus else if c = byte '0' then .zero else .any1

/-- What a label makes of the type of the number. -/
def types : NumberState → NumberType → NumberType
  | .minus, _ => .value_integer
  | .decimal1, _ | .exponent, _ => .value_float
  | _, number_type => number_type

/-- Behind the digits in front of the decimal point. -/
def pointOrExponent (c : UInt8) : Option NumberState :=
  if c = byte '.' then some .decimal1
  else if c = byte 'e' ∨ c = byte 'E' then some .exponent
  else none

/-- Where the next character leads, if it belongs to the number. -/
def next : NumberState → UInt8 → Option NumberState
  | .minus, c => if c = byte '0' then some .zero else if isDigit c then some .any1 else none
  | .zero, c => pointOrExponent c
  | .any1, c => if isDigit c then some .any1 else pointOrExponent c
  | .decimal1, c => if isDigit c then some .decimal2 else none
  | .decimal2, c =>
    if isDigit c then some .decimal2
    else if c = byte 'e' ∨ c = byte 'E' then some .exponent
    else none
  | .exponent, c =>
    if c = byte '+' ∨ c = byte '-' then some .sign
    else if isDigit c then some .any2
    else none
  | .sign, c => if isDigit c then some .any2 else none
  | .any2, c => if isDigit c then some .any2 else none

/-- The message where no number may end. -/
def expects : NumberState → Option Bytes
  | .minus => some (text "invalid number; expected digit after '-'")
  | .decimal1 => some (text "invalid number; expected digit after '.'")
  | .exponent => some (text "invalid number; expected '+', '-', or digit after exponent")
  | .sign => some (text "invalid number; expected digit after exponent sign")
  | .zero | .any1 | .decimal2 | .any2 => none

/-- The characters of the number, its type and the label where it stops. -/
def run : NumberState → NumberType → Bytes → Bytes × NumberType × NumberState
  | state, number_type, [] => ([], number_type, state)
  | state, number_type, c :: input =>
    match state.next c with
    | none => ([], number_type, state)
    | some after =>
      ((c :: (after.run (after.types number_type) input).1),
        (after.run (after.types number_type) input).2)

/-- A number that begins with the given character. -/
def scan (c : UInt8) (input : Bytes) : Bytes × NumberType × NumberState :=
  (first c).run ((first c).types .value_unsigned) input

end NumberState

variable (strtof : Bytes → Float)

/-- The conversions: an integer that is too large is read as a floating point number. -/
def convert (token_buffer : Bytes) : NumberType → JsonToken
  | .value_unsigned =>
    if value token_buffer < 2 ^ 64 then .value_unsigned (value token_buffer)
    else .value_float (strtof token_buffer)
  | .value_integer =>
    if value token_buffer.tail ≤ 2 ^ 63 then .value_integer (-(value token_buffer.tail : Int))
    else .value_float (strtof token_buffer)
  | .value_float => .value_float (strtof token_buffer)

/-- The given character was read last. -/
def scanNumber (lx : JsonLexer) (c : UInt8) : JsonToken × JsonLexer :=
  match NumberState.scan c lx.ia with
  | (added, number_type, stopped) =>
    match stopped.expects with
    | some message => (.parse_error message, lx.reset.gets (added.length + 1))
    | none =>
      (convert strtof (c :: added) number_type, (lx.reset.gets (added.length + 1)).unget)

/-! ## Tokens -/

/-- `scan_literal`, behind the first letter: whether the literal is there, and how many
characters are read to see it. -/
def scanLiteral : Bytes → Bytes → Bool × Nat
  | [], _ => (true, 0)
  | letter :: literal_text, input =>
    if input.head? = some letter then
      ((scanLiteral literal_text input.tail).1, (scanLiteral literal_text input.tail).2 + 1)
    else (false, 1)

/-- A literal behind its first character. -/
def literal (lx : JsonLexer) (literal_text : Bytes) (return_type : JsonToken) :
    JsonToken × JsonLexer :=
  match scanLiteral literal_text lx.ia with
  | (found, n) =>
    (if found then return_type else .parse_error (text "invalid literal"), lx.gets n)

/-- A byte order mark at the beginning is skipped. If it is not whole that is an error. -/
def skipBom (lx : JsonLexer) : Bool × JsonLexer :=
  if lx.ia.head? = some 0xEF then
    if lx.get.ia.head? = some 0xBB then
      (lx.get.get.ia.head? = some 0xBF, lx.get.get.get)
    else (false, lx.get.get)
  else (true, lx.get.unget)

/-- The characters that may stand between tokens. -/
def isBlank (c : UInt8) : Bool :=
  c = byte ' ' || c = byte '\t' || c = byte '\n' || c = byte '\r'

/-- All blanks are read, and one character more. -/
def skipWhitespace (lx : JsonLexer) : JsonLexer := lx.gets ((lx.ia.takeWhile isBlank).length + 1)

/-- The token that begins with the character that was read last. -/
def scanCurrent (lx : JsonLexer) : JsonToken × JsonLexer :=
  match lx.current with
  | none => (.end_of_input, lx)
  | some c =>
    if c = byte '[' then (.begin_array, lx)
    else if c = byte ']' then (.end_array, lx)
    else if c = byte '{' then (.begin_object, lx)
    else if c = byte '}' then (.end_object, lx)
    else if c = byte ':' then (.name_separator, lx)
    else if c = byte ',' then (.value_separator, lx)
    else if c = byte 't' then lx.literal (text "rue") .literal_true
    else if c = byte 'f' then lx.literal (text "alse") .literal_false
    else if c = byte 'n' then lx.literal (text "ull") .literal_null
    else if c = byte '"' then lx.scanString
    else if c = byte '-' ∨ isDigit c = true then lx.scanNumber strtof c
    else if c = 0 then (.end_of_input, lx)
    else (.parse_error (text "invalid literal"), lx)

/-- The next token: behind a byte order mark, if this is the beginning, and blanks. -/
def scan (lx : JsonLexer) : JsonToken × JsonLexer :=
  if lx.position.chars_read_total = 0 then
    match lx.skipBom with
    | (false, lx) => (.parse_error (text "invalid BOM; must be 0xEF 0xBB 0xBF if given"), lx)
    | (true, lx) => scanCurrent strtof lx.skipWhitespace
  else scanCurrent strtof lx.skipWhitespace

/-- What every scan function keeps: no character comes back, the text has been begun, and
the token is sound. -/
structure Scanned (lx : JsonLexer) (result : JsonToken × JsonLexer) : Prop where
  shorter : result.2.ia.length ≤ lx.ia.length
  underway : lx.position.chars_read_total ≠ 0 → result.2.position.chars_read_total ≠ 0
  sound : result.1.Sound

/-- Reading some characters and giving a sound token keeps what every scan function keeps. -/
theorem gets_scanned (lx : JsonLexer) (n : Nat) {token : JsonToken} (sound : token.Sound) :
    Scanned lx (token, lx.gets n) where
  shorter := by
    rw [gets_ia, List.length_drop]
    exact Nat.sub_le _ _
  underway begun := by
    rw [gets_total]
    omega
  sound := sound

/-- Scanning a string does. -/
theorem scanString_scanned (lx : JsonLexer) : Scanned lx lx.scanString := by
  have reset_scanned {n : Nat} {token : JsonToken} (sound : token.Sound) :
      Scanned lx (token, lx.reset.gets n) := by
    obtain ⟨shorter, underway, _⟩ := lx.reset.gets_scanned n sound
    exact ⟨shorter, underway, sound⟩
  unfold scanString
  split
  · exact reset_scanned trivial
  next value n scanned => exact reset_scanned (scanCharacters_valid (congrArg Prod.fst scanned))

/-- The number that digits are converted to is sound. -/
theorem convert_sound (token_buffer : Bytes) (number_type : NumberType) :
    (convert strtof token_buffer number_type).Sound := by
  cases number_type with
  | value_unsigned =>
    rw [convert]
    split
    next bounded => exact bounded
    · trivial
  | value_integer =>
    rw [convert]
    split
    next bounded =>
      change -2 ^ 63 ≤ -(value token_buffer.tail : Int) ∧ -(value token_buffer.tail : Int) ≤ 0
      omega
    · trivial
  | value_float => trivial

/-- Scanning a number does. -/
theorem scanNumber_scanned (lx : JsonLexer) (c : UInt8) : Scanned lx (scanNumber strtof lx c) := by
  unfold scanNumber
  split
  next added number_type stopped _ =>
  split
  next message _ =>
    have failed : JsonToken.Sound (.parse_error message) := trivial
    obtain ⟨shorter, underway, _⟩ := lx.reset.gets_scanned (added.length + 1) failed
    exact ⟨shorter, underway, trivial⟩
  · obtain ⟨shorter, underway, sound⟩ :=
      lx.reset.gets_scanned added.length (convert_sound strtof (c :: added) number_type)
    rw [gets_succ]
    refine ⟨?_, ?_, sound⟩
    · rw [get_unget_ia]
      exact shorter
    · rw [get_unget_total]
      exact underway

/-- Scanning a literal does. -/
theorem literal_scanned (lx : JsonLexer) (literal_text : Bytes) {return_type : JsonToken}
    (sound : return_type.Sound) : Scanned lx (lx.literal literal_text return_type) := by
  unfold literal
  split
  next found n _ =>
  cases found with
  | true => exact gets_scanned lx n sound
  | false => exact gets_scanned lx n trivial

/-- A scan function that chooses between two of them does. -/
theorem Scanned.ite {lx : JsonLexer} {p : Prop} [Decidable p] {one other : JsonToken × JsonLexer}
    (yes : Scanned lx one) (no : Scanned lx other) : Scanned lx (if p then one else other) := by
  split
  · exact yes
  · exact no

/-- Scanning any token does. -/
theorem scanCurrent_scanned (lx : JsonLexer) : Scanned lx (scanCurrent strtof lx) := by
  have kept {token : JsonToken} (sound : token.Sound) : Scanned lx (token, lx) :=
    ⟨Nat.le_refl _, id, sound⟩
  unfold scanCurrent
  cases lx.current with
  | none => exact kept trivial
  | some c =>
    apply Scanned.ite
    · exact kept trivial
    apply Scanned.ite
    · exact kept trivial
    apply Scanned.ite
    · exact kept trivial
    apply Scanned.ite
    · exact kept trivial
    apply Scanned.ite
    · exact kept trivial
    apply Scanned.ite
    · exact kept trivial
    apply Scanned.ite
    · exact literal_scanned lx _ trivial
    apply Scanned.ite
    · exact literal_scanned lx _ trivial
    apply Scanned.ite
    · exact literal_scanned lx _ trivial
    apply Scanned.ite
    · exact scanString_scanned lx
    apply Scanned.ite
    · exact scanNumber_scanned strtof lx c
    apply Scanned.ite
    · exact kept trivial
    exact kept trivial

/-! ## Where the scanner stands -/

/-- The next token is read behind the byte order mark, if there is one. -/
def Opened (lx : JsonLexer) : Prop :=
  lx.position.chars_read_total ≠ 0 ∨ lx.ia.head? ≠ some 0xEF

/-- The first character behind the blanks is read, and the rest is left. -/
theorem skipWhitespace_ia (lx : JsonLexer) :
    lx.skipWhitespace.current = (lx.ia.dropWhile isBlank).head? ∧
      lx.skipWhitespace.ia = (lx.ia.dropWhile isBlank).tail ∧
      lx.skipWhitespace.position.chars_read_total ≠ 0 := by
  have behind : lx.ia.drop (lx.ia.takeWhile isBlank).length = lx.ia.dropWhile isBlank := by
    have whole : (lx.ia.takeWhile isBlank ++ lx.ia.dropWhile isBlank).drop
        (lx.ia.takeWhile isBlank).length = lx.ia.dropWhile isBlank := List.drop_left
    rwa [List.takeWhile_append_dropWhile] at whole
  unfold skipWhitespace
  rw [gets_succ]
  refine ⟨?_, ?_, ?_⟩
  · change (lx.gets _).ia.head? = _
    rw [gets_ia, behind]
  · change (lx.gets _).ia.tail = _
    rw [gets_ia, behind]
  · exact Nat.succ_ne_zero _

/-- In front of a text the scanner looks at what comes behind the blanks. -/
theorem scan_opened {lx : JsonLexer} (opened : lx.Opened) :
    ∃ at_ : JsonLexer, scan strtof lx = scanCurrent strtof at_ ∧
      at_.current = (lx.ia.dropWhile isBlank).head? ∧
      at_.ia = (lx.ia.dropWhile isBlank).tail ∧ at_.position.chars_read_total ≠ 0 := by
  unfold scan
  split
  next fresh =>
    have plain : lx.ia.head? ≠ some 0xEF := opened.resolve_left (not_not_intro fresh)
    have skipped : lx.skipBom = (true, lx.get.unget) := if_neg plain
    obtain ⟨current, ia, total⟩ := lx.get.unget.skipWhitespace_ia
    rw [skipped]
    rw [get_unget_ia] at current ia
    exact ⟨_, rfl, current, ia, total⟩
  next => exact ⟨_, rfl, lx.skipWhitespace_ia⟩

/-- A byte order mark is read, or nothing is. -/
theorem skipBom_reads (lx : JsonLexer) :
    lx.skipBom.2.ia.length ≤ lx.ia.length ∧ (lx.skipBom.1 = false →
      lx.skipBom.2.ia.length < lx.ia.length ∧ lx.skipBom.2.position.chars_read_total ≠ 0) := by
  have fewer (n : Nat) : (lx.gets n).ia.length ≤ lx.ia.length := by
    rw [gets_ia, List.length_drop]
    exact Nat.sub_le _ _
  have begun (mark : lx.ia.head? = some 0xEF) (n : Nat) :
      (lx.gets (n + 1)).ia.length < lx.ia.length ∧
        (lx.gets (n + 1)).position.chars_read_total ≠ 0 := by
    rw [gets_ia, gets_total, List.length_drop]
    cases held : lx.ia with
    | nil =>
      rw [held] at mark
      cases mark
    | cons c rest =>
      rw [List.length_cons]
      omega
  unfold skipBom
  split
  next mark =>
    split
    · exact ⟨fewer 3, fun _ => begun mark 2⟩
    · exact ⟨fewer 2, fun _ => begun mark 1⟩
  · exact ⟨Nat.le_of_eq (congrArg List.length lx.get_unget_ia), fun failed => by cases failed⟩

/-- A scan reads a character or finds the end of the text, and its token is sound. -/
structure Advances (lx : JsonLexer) (result : JsonToken × JsonLexer) : Prop where
  reads : result.2.ia.length < lx.ia.length ∨
    result.1 = .end_of_input ∧ result.2.ia.length ≤ lx.ia.length
  begun : result.2.position.chars_read_total ≠ 0
  sound : result.1.Sound

/-- Every scan advances in the text. -/
theorem scan_advances (lx : JsonLexer) : Advances lx (scan strtof lx) := by
  have behind (at_ : JsonLexer) (fewer : at_.ia.length ≤ lx.ia.length) :
      Advances lx (scanCurrent strtof at_.skipWhitespace) := by
    obtain ⟨current, ia, begun⟩ := at_.skipWhitespace_ia
    obtain ⟨shorter, underway, sound⟩ := scanCurrent_scanned strtof at_.skipWhitespace
    refine ⟨?_, underway begun, sound⟩
    have blanks := (List.dropWhile_sublist (p := isBlank) (l := at_.ia)).length_le
    rw [ia, List.length_tail] at shorter
    cases seen : at_.ia.dropWhile isBlank with
    | nil =>
      rw [seen] at current shorter
      refine Or.inr ⟨?_, shorter.trans (Nat.zero_le _)⟩
      rw [scanCurrent, current]
      rfl
    | cons c rest =>
      rw [seen] at shorter blanks
      rw [List.length_cons] at shorter blanks
      omega
  unfold scan
  split
  next fresh =>
    obtain ⟨fewer, failed⟩ := lx.skipBom_reads
    split
    next at_ skipped =>
      rw [skipped] at failed
      obtain ⟨shorter, begun⟩ := failed rfl
      exact ⟨Or.inl shorter, begun, trivial⟩
    next at_ skipped =>
      rw [skipped] at fewer
      exact behind at_ fewer
  · exact behind lx (Nat.le_refl _)

end JsonLexer

end Cppboot
