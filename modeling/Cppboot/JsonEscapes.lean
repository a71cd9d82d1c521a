import Cppboot.JsonStrings
import Cppboot.JsonText

/-!
# How the JSON library writes a string

The serializer runs over the bytes of a string with a table-driven decoder of UTF-8. A
code point that is complete is written with its escape or as it stands, and a byte that
the decoder rejects, or a string that ends too early, raises an exception.

A state of the decoder says which bytes may follow it, and the table does what it says.
So strings that are well-formed UTF-8 are written byte by byte, and no others are.
-/

namespace Cppboot.JsonWriter

/-- The table: a class for each byte, and then for each state and class the next state. -/
def utf8d : List Nat :=
  List.replicate 128 0 ++ List.replicate 16 1 ++ List.replicate 16 9 ++ List.replicate 32 7 ++
    [8, 8] ++ List.replicate 30 2 ++
    [0xA, 0x3, 0x3, 0x3, 0x3, 0x3, 0x3, 0x3, 0x3, 0x3, 0x3, 0x3, 0x3, 0x4, 0x3, 0x3] ++
    [0xB, 0x6, 0x6, 0x6, 0x5, 0x8, 0x8, 0x8, 0x8, 0x8, 0x8, 0x8, 0x8, 0x8, 0x8, 0x8] ++
    [0x0, 0x1, 0x2, 0x3, 0x5, 0x8, 0x7, 0x1, 0x1, 0x1, 0x4, 0x6, 0x1, 0x1, 0x1, 0x1] ++
    [1, 1, 1, 1, 1, 1, 1, 1, 1, 1, 1, 1, 1, 1, 1, 1] ++
    [1, 0, 1, 1, 1, 1, 1, 0, 1, 0, 1, 1, 1, 1, 1, 1] ++
    [1, 2, 1, 1, 1, 1, 1, 2, 1, 2, 1, 1, 1, 1, 1, 1] ++
    [1, 1, 1, 1, 1, 1, 1, 2, 1, 1, 1, 1, 1, 1, 1, 1] ++
    [1, 2, 1, 1, 1, 1, 1, 1, 1, 2, 1, 1, 1, 1, 1, 1] ++
    [1, 1, 1, 1, 1, 1, 1, 3, 1, 3, 1, 1, 1, 1, 1, 1] ++
    [1, 3, 1, 1, 1, 1, 1, 3, 1, 3, 1, 1, 1, 1, 1, 1] ++
    [1, 3, 1, 1, 1, 1, 1, 1, 1, 1, 1, 1, 1, 1, 1, 1]

/-- The class of a byte. -/
def classOf (byte : Nat) : Nat := utf8d.getD byte 0

/-- The state of the decoder after a byte. -/
def nextState (state byte : Nat) : Nat := utf8d.getD (256 + state * 16 + classOf byte) 0

/-- The code point with the bits of one more byte. -/
def nextCodepoint (state codepoint byte : Nat) : Nat :=
  if state ≠ 0 then (byte &&& 0x3F) ||| codepoint <<< 6 else (0xFF >>> classOf byte) &&& byte

/-- What is written when a code point is complete. Only its last byte is written here, the
others have been. -/
def escapeText (codepoint : Nat) (byte : UInt8) : Bytes :=
  if codepoint = 0x08 then text "\\b"
  else if codepoint = 0x09 then text "\\t"
  else if codepoint = 0x0A then text "\\n"
  else if codepoint = 0x0C then text "\\f"
  else if codepoint = 0x0D then text "\\r"
  else if codepoint = 0x22 then text "\\\""
  else if codepoint = 0x5C then text "\\\\"
  else if codepoint ≤ 0x1F then
    text "\\u" ++ [JsonText.hexDigit (codepoint / 4096 % 16),
      JsonText.hexDigit (codepoint / 256 % 16), JsonText.hexDigit (codepoint / 16 % 16),
      JsonText.hexDigit (codepoint % 16)]
  else [byte]

/-- The text of the exception for a string that is not UTF-8. -/
def typeError (what : Bytes) : Bytes := text "[json.exception.type_error.316] " ++ what

/-- `dump_escaped` from a state of the decoder on, behind so many bytes, the last of which
is given. -/
def dumpEscaped (state codepoint i : Nat) (back : UInt8) : Bytes → Throws Bytes
  | [] =>
    if state = 0 then .ok []
    else
      .error (typeError (text "incomplete UTF-8 string; last byte: 0x" ++ JsonLexer.hexBytes back))
  | byte :: s =>
    let codepoint := nextCodepoint state codepoint byte.toNat
    match nextState state byte.toNat with
    | 0 => (dumpEscaped 0 codepoint (i + 1) byte s).map (escapeText codepoint byte ++ ·)
    | 1 =>
      .error (typeError (text "invalid UTF-8 byte at index " ++ Decimal.numeral i ++ text ": 0x" ++
        JsonLexer.hexBytes byte))
    | state => (dumpEscaped state codepoint (i + 1) byte s).map (byte :: ·)

/-! ## The states -/

/-- The ranges of the bytes that complete a code point. -/
def expects : Nat → List (UInt8 × UInt8)
  | 2 => [(0x80, 0xBF)]
  | 3 => [(0x80, 0xBF), (0x80, 0xBF)]
  | 4 => [(0xA0, 0xBF), (0x80, 0xBF)]
  | 5 => [(0x80, 0x9F), (0x80, 0xBF)]
  | 6 => [(0x90, 0xBF), (0x80, 0xBF), (0x80, 0xBF)]
  | 7 => [(0x80, 0xBF), (0x80, 0xBF), (0x80, 0xBF)]
  | 8 => [(0x80, 0x8F), (0x80, 0xBF), (0x80, 0xBF)]
  | _ => []

/-- A bound from below for the part of a code point that was read. -/
def least : Nat → Nat
  | 2 => 2
  | 3 | 5 | 7 | 8 => 1
  | _ => 0

/-- The state is inside a code point. -/
def Inside (state : Nat) : Prop := 2 ≤ state ∧ state ≤ 8

instance (state : Nat) : Decidable (Inside state) := inferInstanceAs (Decidable (_ ∧ _))

/-- A byte that begins a sequence leads to the state that expects the others. -/
def Led (byte : Nat) : Option (List (UInt8 × UInt8)) → Prop
  | none => nextState 0 byte = 1
  | some ranges => Inside (nextState 0 byte) ∧ expects (nextState 0 byte) = ranges ∧
    least (nextState 0 byte) ≤ nextCodepoint 0 0 byte

instance (byte : Nat) : (ranges : Option (List (UInt8 × UInt8))) → Decidable (Led byte ranges)
  | none => inferInstanceAs (Decidable (_ = _))
  | some _ => inferInstanceAs (Decidable (_ ∧ _))

/-- A byte in the next range leads to the state that expects those behind it. -/
def Moved (state byte : Nat) : List (UInt8 × UInt8) → Prop
  | [] => False
  | range :: ranges =>
    (range.1.toNat ≤ byte ∧ byte ≤ range.2.toNat →
      0x80 ≤ byte ∧ expects (nextState state byte) = ranges ∧
        least (nextState state byte) ≤ byte % 64 + 64 * least state ∧
        (ranges = [] → nextState state byte = 0 ∧ 0x80 ≤ byte % 64 + 64 * least state) ∧
        (ranges ≠ [] → Inside (nextState state byte))) ∧
      (¬(range.1.toNat ≤ byte ∧ byte ≤ range.2.toNat) → nextState state byte = 1)

instance (state byte : Nat) : (ranges : List (UInt8 × UInt8)) → Decidable (Moved state byte ranges)
  | [] => instDecidableFalse
  | _ :: _ => inferInstanceAs (Decidable ((_ → _) ∧ (_ → _)))

/-- The table does what the states expect. -/
theorem utf8d_table :
    (∀ byte < 128, nextState 0 byte = 0 ∧ classOf byte = 0) ∧
      (∀ byte < 256, 128 ≤ byte → Led byte (JsonLexer.ranges (UInt8.ofNat byte))) ∧
      ∀ state < 9, 2 ≤ state → ∀ byte < 256, Moved state byte (expects state) := by
  decide +kernel

/-! ## What is written -/

/-- A code point that is a byte is written as its escape. -/
theorem escapeText_ascii :
    ∀ byte < 128, escapeText byte (UInt8.ofNat byte) = JsonText.escape (UInt8.ofNat byte) := by
  decide +kernel

/-- A byte from 128 on is written as it stands. -/
theorem escape_high {byte : UInt8} (high : 0x80 ≤ byte.toNat) : JsonText.escape byte = [byte] := by
  have apart (other : UInt8) (small : other.toNat < 128) : byte ≠ other := by
    rintro rfl
    omega
  have above : ¬ byte ≤ 0x1F := by
    rw [UInt8.le_iff_toNat_le]
    change ¬ byte.toNat ≤ 31
    omega
  rw [JsonText.escape, if_neg (apart _ (by decide)), if_neg (apart _ (by decide)),
    if_neg (apart _ (by decide)), if_neg (apart _ (by decide)), if_neg (apart _ (by decide)),
    if_neg (apart _ (by decide)), if_neg (apart _ (by decide)), if_neg above]

/-- Above ASCII the last byte of a code point is written as it is. -/
theorem escapeText_high {codepoint : Nat} (high : 0x80 ≤ codepoint) (byte : UInt8) :
    escapeText codepoint byte = [byte] := by
  rw [escapeText, if_neg (by omega), if_neg (by omega), if_neg (by omega), if_neg (by omega),
    if_neg (by omega), if_neg (by omega), if_neg (by omega), if_neg (by omega)]

/-- One byte, by the state it leads to. -/
theorem dumpEscaped_accepts {state codepoint : Nat} {byte : UInt8}
    (accepts : nextState state byte.toNat = 0) (i : Nat) (back : UInt8) (s : Bytes) :
    dumpEscaped state codepoint i back (byte :: s) =
      (dumpEscaped 0 (nextCodepoint state codepoint byte.toNat) (i + 1) byte s).map
        (escapeText (nextCodepoint state codepoint byte.toNat) byte ++ ·) := by
  rw [dumpEscaped, accepts]
  rfl

/-- A byte that the decoder rejects raises an exception. -/
theorem dumpEscaped_rejects {state codepoint : Nat} {byte : UInt8}
    (rejects : nextState state byte.toNat = 1) (i : Nat) (back : UInt8) (s : Bytes) :
    ∃ what, dumpEscaped state codepoint i back (byte :: s) = .error what := by
  rw [dumpEscaped, rejects]
  exact ⟨_, rfl⟩

/-- A byte inside of a code point is written as it is. -/
theorem dumpEscaped_inside {state codepoint : Nat} {byte : UInt8}
    (inside : Inside (nextState state byte.toNat)) (i : Nat) (back : UInt8) (s : Bytes) :
    dumpEscaped state codepoint i back (byte :: s) =
      (dumpEscaped (nextState state byte.toNat) (nextCodepoint state codepoint byte.toNat) (i + 1)
        byte s).map (byte :: ·) := by
  rw [dumpEscaped]
  split
  next accepts =>
    rw [accepts] at inside
    exact absurd inside (by decide)
  next rejects =>
    rw [rejects] at inside
    exact absurd inside (by decide)
  · rfl

/-- A text is written, or an exception is raised. -/
def Written (possible : Bool) (written : Bytes) (result : Throws Bytes) : Prop :=
  if possible = true then result = .ok written else ∃ what, result = .error what

/-- What is written in front does not decide whether the rest is written. -/
theorem Written.behind {possible : Bool} {written : Bytes} {result : Throws Bytes}
    (done : Written possible written result) (front : Bytes) :
    Written possible (front ++ written) (result.map (front ++ ·)) := by
  cases possible with
  | true =>
    have ok : result = .ok written := done
    rw [ok]
    exact rfl
  | false =>
    obtain ⟨what, failed⟩ : ∃ what, result = .error what := done
    rw [failed]
    exact ⟨what, rfl⟩

/-- Inside a code point the string may not end. -/
theorem completes_nil : ∀ state < 9, 2 ≤ state →
    JsonLexer.completes (expects state) [] = false := by
  decide

/-- Inside a code point a byte adds its last six bits. -/
theorem nextCodepoint_inside {state : Nat} (inside : Inside state) (codepoint byte : Nat) :
    nextCodepoint state codepoint byte = byte % 64 + 64 * codepoint := by
  have open_ : state ≠ 0 := fun same => absurd inside.1 (by omega)
  have low : byte &&& 0x3F = byte % 64 := Nat.and_two_pow_sub_one_eq_mod byte 6
  have small : byte % 64 < 2 ^ 6 := Nat.mod_lt _ (by decide)
  rw [nextCodepoint, if_pos open_, low, Nat.or_comm, ← Nat.shiftLeft_add_eq_or_of_lt small,
    Nat.shiftLeft_eq]
  omega

/-- From a state between or inside code points: a string that completes the code point is
written, and any other one is refused.

The induction is on the string, for all states at once. A byte takes the bytes that may
follow with it from one state to the next, as the table says. -/
theorem dumpEscaped_written {state codepoint : Nat} (inside : state = 0 ∨ Inside state)
    (bounded : least state ≤ codepoint) (i : Nat) (back : UInt8) (s : Bytes) :
    Written (JsonLexer.completes (expects state) s) (s.flatMap JsonText.escape)
      (dumpEscaped state codepoint i back s) := by
  induction s generalizing state codepoint i back with
  | nil =>
    rcases inside with rfl | ⟨low, high⟩
    · rfl
    · have open_ : state ≠ 0 := by omega
      rw [completes_nil state (by omega) low, dumpEscaped, if_neg open_]
      exact ⟨_, rfl⟩
  | cons byte s inductionHypothesis =>
    have code : byte.toNat < 256 := byte.toNat_lt
    obtain ⟨ascii, lead, move⟩ := utf8d_table
    rw [List.flatMap_cons]
    rcases inside with rfl | inside
    · by_cases small : byte.toNat < 128
      · obtain ⟨accepts, plain⟩ := ascii _ small
        have point : nextCodepoint 0 codepoint byte.toNat = byte.toNat := by
          have mask := Nat.and_two_pow_sub_one_eq_mod byte.toNat 8
          rw [nextCodepoint, if_neg (not_not_intro rfl), plain, Nat.and_comm]
          exact mask.trans (Nat.mod_eq_of_lt code)
        have escape := escapeText_ascii _ small
        have same : JsonLexer.completes (expects 0) (byte :: s) =
            JsonLexer.completes (expects 0) s :=
          Utf8.valid_ascii (UInt8.lt_iff_toNat_lt.mpr small)
        rw [UInt8.ofNat_toNat] at escape
        rw [dumpEscaped_accepts accepts, point, escape, same]
        exact (inductionHypothesis (Or.inl rfl) (Nat.zero_le _) _ _).behind _
      · have high : 0x80 ≤ byte.toNat := by omega
        have led := lead _ code high
        have formed : JsonLexer.completes (expects 0) (byte :: s) = _ :=
          JsonLexer.valid_ranges high s
        rw [UInt8.ofNat_toNat] at led
        cases others : JsonLexer.ranges byte with
        | none =>
          rw [others] at led formed
          rw [formed]
          exact dumpEscaped_rejects led i back s
        | some ranges =>
          rw [others] at led formed
          obtain ⟨within, expected, begun⟩ := led
          rw [formed, dumpEscaped_inside within, escape_high high, ← expected]
          exact (inductionHypothesis (Or.inr within) begun _ _).behind [byte]
    · have moved := move state (by have := inside.2; omega) inside.1 _ code
      cases expected : expects state with
      | nil =>
        rw [expected] at moved
        exact moved.elim
      | cons range ranges =>
        rw [expected] at moved
        obtain ⟨forward, rejects⟩ := moved
        have test : (range.1 ≤ byte && byte ≤ range.2) =
            decide (range.1.toNat ≤ byte.toNat ∧ byte.toNat ≤ range.2.toNat) := by
          rw [Bool.decide_and]
          rfl
        rw [JsonLexer.completes, test]
        by_cases within : range.1.toNat ≤ byte.toNat ∧ byte.toNat ≤ range.2.toNat
        · obtain ⟨high, others, begun, last, more⟩ := forward within
          rw [decide_eq_true within, Bool.true_and, escape_high high, ← others]
          have point := nextCodepoint_inside inside codepoint byte.toNat
          by_cases done : ranges = []
          · obtain ⟨accepts, whole⟩ := last done
            rw [dumpEscaped_accepts accepts, escapeText_high (by omega), accepts]
            exact (inductionHypothesis (Or.inl rfl) (Nat.zero_le _) _ _).behind [byte]
          · rw [dumpEscaped_inside (more done)]
            exact (inductionHypothesis (Or.inr (more done)) (by omega) _ _).behind [byte]
        · rw [decide_eq_false within, Bool.false_and]
          exact dumpEscaped_rejects (rejects within) i back s

/-- `dump_escaped` writes the strings that are well-formed UTF-8, byte by byte, and raises
an exception for any other. -/
theorem dumpEscaped_valid (s : Bytes) :
    Written (Utf8.valid s) (s.flatMap JsonText.escape) (dumpEscaped 0 0 0 0 s) :=
  dumpEscaped_written (Or.inl rfl) (Nat.zero_le _) 0 0 s

end Cppboot.JsonWriter
