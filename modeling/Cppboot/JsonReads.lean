import Mathlib.Data.List.Forall2
import Cppboot.JsonAccepts
import Cppboot.JsonWriter

/-!
# How the scanner reads what is written

In front of a text that was written the scanner makes the token it was written for, whatever
blanks are in front of it, and stops where the text ends. Strings are read piece by piece,
and a number ends where no character of a number follows.
-/

namespace Cppboot.JsonLexer

open Decimal

/-! ## Strings -/

/-- A hexadecimal digit is read back. -/
theorem hexDigit_hexDigit : ∀ n < 16, hexDigit (JsonText.hexDigit n) = some n := by decide

/-- Four hexadecimal digits of which the first two are zeros give the number of the last two. -/
theorem getCodepoint_digits {high low : Nat} (first : high < 16) (second : low < 16)
    (more : Bytes) :
    getCodepoint [12, 8, 4, 0] (byte '0' :: byte '0' :: JsonText.hexDigit high ::
      JsonText.hexDigit low :: more) = (some (16 * high + low), 4) := by
  have zero : hexDigit (byte '0') = some 0 := by decide
  simp only [getCodepoint, zero, hexDigit_hexDigit _ first, hexDigit_hexDigit _ second,
    Option.map_some, Nat.shiftLeft_eq]
  have sum : 0 * 2 ^ 12 + (0 * 2 ^ 8 + (high * 2 ^ 4 + (low * 2 ^ 0 + 0))) = 16 * high + low := by
    omega
  rw [sum]

/-- An escape or a byte that is none is one piece of a string. -/
theorem scanCharacter_escape {b : UInt8} (small : b < 0x80) (more : Bytes) :
    scanCharacter (JsonText.escape b ++ more) =
      (.ok (some [b]), (JsonText.escape b).length) := by
  unfold JsonText.escape
  split
  next same => subst same; rfl
  split
  next same => subst same; rfl
  split
  next same => subst same; rfl
  split
  next same => subst same; rfl
  split
  next same => subst same; rfl
  split
  next same => subst same; rfl
  split
  next same => subst same; rfl
  next notQuote notSlash =>
  split
  next control =>
    have low : b.toNat < 32 := by
      have bound := UInt8.le_iff_toNat_le.mp control
      change b.toNat ≤ 31 at bound
      omega
    have code := getCodepoint_digits (by omega : b.toNat / 16 < 16)
      (Nat.mod_lt b.toNat (by decide)) more
    rw [Nat.div_add_mod] at code
    have bytes : codepointBytes b.toNat = [b] := by
      rw [codepointBytes, if_pos (by omega), UInt8.ofNat_toNat]
    have unicode : scanUnicode (byte '0' :: byte '0' :: JsonText.hexDigit (b.toNat / 16) ::
        JsonText.hexDigit (b.toNat % 16) :: more) = (.ok (some [b]), 4) := by
      rw [scanUnicode, code]
      dsimp only
      rw [if_neg (by omega), if_neg (by omega), bytes]
    have escape : scanEscape (byte 'u' :: byte '0' :: byte '0' ::
        JsonText.hexDigit (b.toNat / 16) :: JsonText.hexDigit (b.toNat % 16) :: more) =
        (.ok (some [b]), 5) := by
      rw [scanEscape]
      have none_ : escaped (byte 'u') = none := by decide
      rw [none_]
      dsimp only
      rw [if_pos rfl, unicode]
      rfl
    change scanCharacter (byte '\\' :: byte 'u' :: byte '0' :: byte '0' ::
      JsonText.hexDigit (b.toNat / 16) :: JsonText.hexDigit (b.toNat % 16) :: more) = _
    rw [scanCharacter, if_neg (by decide), if_pos rfl, escape]
    rfl
  next plain =>
    have printable : ¬ b < 0x20 := by
      rw [UInt8.lt_iff_toNat_lt]
      rw [UInt8.le_iff_toNat_le] at plain
      change ¬ b.toNat < 32
      change ¬ b.toNat ≤ 31 at plain
      omega
    have inner : b ≠ byte '"' := notQuote
    have unescaped : b ≠ byte '\\' := notSlash
    change scanCharacter (b :: more) = _
    rw [scanCharacter, if_neg inner, if_neg unescaped, if_neg printable, if_pos small]
    rfl

/-- A longer sequence of UTF-8 is one piece of a string. -/
theorem scanCharacter_sequence {c : UInt8} {others : List (UInt8 × UInt8)} {inner : Bytes}
    (high : 0x80 ≤ c.toNat) (found : ranges c = some others) (inside : InRanges others inner)
    (more : Bytes) :
    scanCharacter (c :: (inner ++ more)) = (.ok (some (c :: inner)), inner.length + 1) := by
  have apart (other : UInt8) (small : other.toNat < 128) : c ≠ other := by
    rintro rfl
    omega
  have printable : ¬ c < 0x20 := by
    rw [UInt8.lt_iff_toNat_lt]
    change ¬ c.toNat < 32
    omega
  rw [scanCharacter, if_neg (apart _ (by decide)), if_neg (apart _ (by decide)),
    if_neg printable, if_neg (Utf8.not_ascii high), found]
  dsimp only
  rw [nextByteInRange_inside inside, if_pos rfl, inside.length_eq, List.take_left]

/-- Every byte is written as something. -/
theorem escape_ne_nil (b : UInt8) : JsonText.escape b ≠ [] := by
  unfold JsonText.escape
  repeat' split
  all_goals exact List.cons_ne_nil _ _

/-- What is written for a string is read as the string, up to the quotation mark. -/
def ReadAs (s rest : Bytes) : Prop :=
  ∀ fuel, (s.flatMap JsonText.escape).length < fuel →
    scanCharacters fuel (s.flatMap JsonText.escape ++ byte '"' :: rest) =
      (.ok s, (s.flatMap JsonText.escape).length + 1)

/-- A piece, and the others behind it. -/
theorem ReadAs.behind {front s rest : Bytes} (written : front.flatMap JsonText.escape ≠ [])
    (piece : ∀ more, scanCharacter (front.flatMap JsonText.escape ++ more) =
      (.ok (some front), (front.flatMap JsonText.escape).length))
    (others : ReadAs s rest) : ReadAs (front ++ s) rest := by
  intro fuel enough
  have some_ := List.length_pos_of_ne_nil written
  rw [List.flatMap_append, List.length_append] at enough
  rw [List.flatMap_append, List.append_assoc]
  cases fuel with
  | zero => exact absurd enough (Nat.not_lt_zero _)
  | succ fuel =>
    rw [scanCharacters, piece]
    dsimp only
    rw [List.drop_left, others fuel (by omega), List.length_append]
    exact Prod.ext rfl (Nat.add_assoc _ _ _).symm

/-- The bytes of a character outside of ASCII are written as they are. -/
theorem flatMap_escape_high {front : Bytes} (high : ∀ b ∈ front, 0x80 ≤ b.toNat) :
    front.flatMap JsonText.escape = front := by
  induction front with
  | nil => rfl
  | cons b front inductionHypothesis =>
    rw [List.flatMap_cons, JsonWriter.escape_high (high b List.mem_cons_self),
      inductionHypothesis fun c member => high c (List.mem_cons_of_mem b member)]
    rfl

/-- The bytes of a longer sequence are bytes from 128 on. -/
theorem ranges_high {c : UInt8} {others : List (UInt8 × UInt8)} (found : ranges c = some others) :
    0x80 ≤ c.toNat ∧ ∀ range ∈ others, 0x80 ≤ range.1.toNat := by
  have above {low : UInt8} (high : 0x80 ≤ low.toNat) (within : low ≤ c) : 0x80 ≤ c.toNat :=
    high.trans (UInt8.le_iff_toNat_le.mp within)
  have last : ∀ range ∈ [((0x80 : UInt8), (0xBF : UInt8))], 0x80 ≤ range.1.toNat :=
    List.forall_mem_singleton.mpr (by decide)
  have two {range : UInt8 × UInt8} (high : 0x80 ≤ range.1.toNat) :
      ∀ other ∈ [range, (0x80, 0xBF)], 0x80 ≤ other.1.toNat :=
    List.forall_mem_cons.mpr ⟨high, last⟩
  have three {range : UInt8 × UInt8} (high : 0x80 ≤ range.1.toNat) :
      ∀ other ∈ [range, (0x80, 0xBF), (0x80, 0xBF)], 0x80 ≤ other.1.toNat :=
    List.forall_mem_cons.mpr ⟨high, two (by decide)⟩
  unfold ranges at found
  split at found
  next within =>
    cases found
    exact ⟨above (by decide) within.1, last⟩
  split at found
  next same =>
    cases found
    exact ⟨by rw [same]; decide, two (by decide)⟩
  split at found
  next within =>
    cases found
    refine ⟨?_, two (by decide)⟩
    rcases within with within | same | same
    · exact above (by decide) within.1
    · rw [same]
      decide
    · rw [same]
      decide
  split at found
  next same =>
    cases found
    exact ⟨by rw [same]; decide, two (by decide)⟩
  split at found
  next same =>
    cases found
    exact ⟨by rw [same]; decide, three (by decide)⟩
  split at found
  next within =>
    cases found
    exact ⟨above (by decide) within.1, three (by decide)⟩
  split at found
  next same =>
    cases found
    exact ⟨by rw [same]; decide, three (by decide)⟩
  · cases found

/-- What lies in ranges outside of ASCII is outside of ASCII. -/
theorem inRanges_high {others : List (UInt8 × UInt8)} {inner : Bytes}
    (inside : InRanges others inner) (high : ∀ range ∈ others, 0x80 ≤ range.1.toNat) :
    ∀ b ∈ inner, 0x80 ≤ b.toNat := by
  induction inside with
  | nil =>
    intro b member
    cases member
  | cons within _ inductionHypothesis =>
    intro b member
    rcases List.mem_cons.mp member with rfl | member
    · exact (high _ List.mem_cons_self).trans (UInt8.le_iff_toNat_le.mp within.1)
    · exact inductionHypothesis (fun range present => high range (List.mem_cons_of_mem _ present))
        b member

/-- A sequence of bytes in the ranges of its first one is read in front of the rest. -/
theorem ReadAs.sequence {c : UInt8} {others : List (UInt8 × UInt8)} {inner s rest : Bytes}
    (found : ranges c = some others) (inside : InRanges others inner) (behind : ReadAs s rest) :
    ReadAs (c :: inner ++ s) rest := by
  obtain ⟨first, lows⟩ := ranges_high found
  have high : ∀ b ∈ c :: inner, 0x80 ≤ b.toNat :=
    List.forall_mem_cons.mpr ⟨first, inRanges_high inside lows⟩
  have same := flatMap_escape_high high
  apply ReadAs.behind
  · rw [same]
    exact List.cons_ne_nil c inner
  · intro more
    rw [same]
    exact scanCharacter_sequence first found inside more
  · exact behind

/-- The pieces of a well-formed string are its sequences. -/
theorem valid_readAs {s : Bytes} (formed : Utf8.valid s = true) (rest : Bytes) :
    ReadAs s rest := by
  have within {b : UInt8} (continues : Utf8.continues b = true) : 0x80 ≤ b ∧ b ≤ 0xBF := by
    simpa only [Utf8.continues, Bool.and_eq_true, decide_eq_true_eq] using continues
  have sequences := Utf8.valid_sequences formed
  clear formed
  induction sequences with
  | nil =>
    intro fuel enough
    cases fuel with
    | zero => exact absurd enough (Nat.not_lt_zero _)
    | succ fuel => rfl
  | @ascii b0 s small _ inductionHypothesis =>
    have one : [b0].flatMap JsonText.escape = JsonText.escape b0 := by
      rw [List.flatMap_cons, List.flatMap_nil, List.append_nil]
    have written : [b0].flatMap JsonText.escape ≠ [] := by
      rw [one]
      exact escape_ne_nil b0
    refine ReadAs.behind written ?_ inductionHypothesis
    rw [one]
    exact scanCharacter_escape small
  | @two b0 b1 s lead _ inductionHypothesis =>
    obtain ⟨range, found, inside⟩ := ranges_of_leads.1 lead
    exact ReadAs.sequence found (.cons inside .nil) inductionHypothesis
  | @three b0 b1 b2 s lead last _ inductionHypothesis =>
    obtain ⟨range, found, inside⟩ := ranges_of_leads.2.1 lead
    exact ReadAs.sequence found (.cons inside (.cons (within last) .nil)) inductionHypothesis
  | @four b0 b1 b2 b3 s lead more last _ inductionHypothesis =>
    obtain ⟨range, found, inside⟩ := ranges_of_leads.2.2 lead
    exact ReadAs.sequence found (.cons inside (.cons (within more) (.cons (within last) .nil)))
      inductionHypothesis

/-! ## Numbers -/

/-- No character of a number follows. -/
def NumberEnds (rest : Bytes) : Prop :=
  ∀ c, rest.head? = some c → isDigit c = false ∧ NumberState.pointOrExponent c = none

namespace NumberState

/-- Digits are read up to what ends a number. -/
theorem run_digits {digits rest : Bytes} (all : ∀ b ∈ digits, isDigit b = true)
    (ends : NumberEnds rest) (number_type : NumberType) :
    any1.run number_type (digits ++ rest) = (digits, number_type, any1) := by
  induction digits with
  | nil =>
    cases rest with
    | nil => rfl
    | cons c rest =>
      obtain ⟨other, plain⟩ := ends c rfl
      have stops : any1.next c = none := by
        rw [next, other]
        exact plain
      rw [List.nil_append, run, stops]
  | cons b digits inductionHypothesis =>
    have goesOn : any1.next b = some any1 := by
      rw [next, all b List.mem_cons_self]
      rfl
    rw [List.cons_append, run, goesOn]
    dsimp only [types]
    rw [inductionHypothesis fun c member => all c (List.mem_cons_of_mem b member)]

/-- Nothing is read behind a leading zero. -/
theorem run_zero {rest : Bytes} (ends : NumberEnds rest) (number_type : NumberType) :
    zero.run number_type rest = ([], number_type, zero) := by
  cases rest with
  | nil => rfl
  | cons c rest =>
    have stops : zero.next c = none := (ends c rfl).2
    rw [run, stops]

end NumberState

/-- The numeral of a positive number begins with a digit that is not zero. -/
theorem numeral_lead {n : Nat} (positive : 0 < n) :
    ∃ c digits, numeral n = c :: digits ∧ c ≠ byte '0' := by
  have single : ∀ n < 10, 0 < n → JsonWriter.digit n ≠ byte '0' := by decide
  induction n using Nat.strongRecOn with
  | ind n inductionHypothesis =>
    by_cases small : n < 10
    · exact ⟨_, [], JsonWriter.numeral_lt small, single n small positive⟩
    · obtain ⟨c, digits, lead, nonzero⟩ := inductionHypothesis (n / 10) (by omega) (by omega)
      rw [JsonWriter.numeral_div (by omega), lead]
      exact ⟨c, _, rfl, nonzero⟩

/-- A digit is not skipped as a blank. -/
theorem digit_unblank {c : UInt8} (digit : isDigit c = true) : isBlank c = false := by
  apply Bool.eq_false_iff.mpr
  intro blank
  simp only [isBlank, Bool.or_eq_true, decide_eq_true_eq] at blank
  rcases blank with ((rfl | rfl) | rfl) | rfl
  · exact absurd digit (by decide)
  · exact absurd digit (by decide)
  · exact absurd digit (by decide)
  · exact absurd digit (by decide)

/-- A digit is not a sign. -/
theorem digit_apart {c : UInt8} (digit : isDigit c = true) : c ≠ byte '-' := by
  rintro rfl
  cases digit

/-- A numeral is read up to its end. -/
theorem scan_numeral {rest : Bytes} (ends : NumberEnds rest) (n : Nat) :
    ∃ c digits stopped, numeral n = c :: digits ∧ isDigit c = true ∧
      NumberState.scan c (digits ++ rest) = (digits, .value_unsigned, stopped) ∧
      stopped.expects = none := by
  by_cases positive : 0 < n
  · obtain ⟨c, digits, lead, nonzero⟩ := numeral_lead positive
    have all := numeral_digits n
    rw [lead] at all
    have digit := all c List.mem_cons_self
    have first : NumberState.first c = .any1 := by
      rw [NumberState.first, if_neg (digit_apart digit), if_neg nonzero]
    refine ⟨c, digits, .any1, lead, digit, ?_, rfl⟩
    rw [NumberState.scan, first]
    exact NumberState.run_digits (fun b member => all b (List.mem_cons_of_mem c member)) ends _
  · obtain rfl : n = 0 := by omega
    exact ⟨byte '0', [], .zero, rfl, rfl, NumberState.run_zero ends _, rfl⟩

/-- Behind a minus sign the digits of a number that is not zero are scanned as an integer. -/
theorem scan_negative {rest : Bytes} (ends : NumberEnds rest) {n : Nat} (positive : 0 < n) :
    NumberState.scan (byte '-') (numeral n ++ rest) = (numeral n, .value_integer, .any1) := by
  obtain ⟨c, digits, lead, nonzero⟩ := numeral_lead positive
  have all := numeral_digits n
  rw [lead] at all
  have goesOn : NumberState.minus.next c = some .any1 := by
    rw [NumberState.next, if_neg nonzero, all c List.mem_cons_self]
    rfl
  change NumberState.minus.run .value_integer (numeral n ++ rest) = _
  rw [lead, List.cons_append, NumberState.run, goesOn]
  dsimp only [NumberState.types]
  rw [NumberState.run_digits (fun b member => all b (List.mem_cons_of_mem c member)) ends]

/-! ## Tokens -/

variable (strtof : Bytes → Float)

/-- A scanner that looks at this text makes the token of it and leaves the rest. -/
def Makes (input : Bytes) (token : JsonToken) (rest : Bytes) : Prop :=
  ∀ lx : JsonLexer, lx.current = input.head? → lx.ia = input.tail →
    (scanCurrent strtof lx).1 = token ∧ (scanCurrent strtof lx).2.ia = rest

/-- A character that is a token by itself. -/
theorem single_makes {c : UInt8} {token : JsonToken}
    (made : ∀ lx : JsonLexer, lx.current = some c → scanCurrent strtof lx = (token, lx))
    (rest : Bytes) : Makes strtof (c :: rest) token rest := by
  intro lx current ia
  rw [made lx current]
  exact ⟨rfl, ia⟩

/-- A bracket is the token that begins an array, and is scanned in front of any rest. -/
theorem begin_array_makes (rest : Bytes) : Makes strtof (byte '[' :: rest) .begin_array rest :=
  single_makes strtof (fun lx current => by rw [scanCurrent, current]; rfl) rest

/-- A closing bracket ends an array. -/
theorem end_array_makes (rest : Bytes) : Makes strtof (byte ']' :: rest) .end_array rest :=
  single_makes strtof (fun lx current => by rw [scanCurrent, current]; rfl) rest

/-- A brace begins an object. -/
theorem begin_object_makes (rest : Bytes) : Makes strtof (byte '{' :: rest) .begin_object rest :=
  single_makes strtof (fun lx current => by rw [scanCurrent, current]; rfl) rest

/-- A closing brace ends an object. -/
theorem end_object_makes (rest : Bytes) : Makes strtof (byte '}' :: rest) .end_object rest :=
  single_makes strtof (fun lx current => by rw [scanCurrent, current]; rfl) rest

/-- A colon separates a name from its value. -/
theorem name_separator_makes (rest : Bytes) :
    Makes strtof (byte ':' :: rest) .name_separator rest :=
  single_makes strtof (fun lx current => by rw [scanCurrent, current]; rfl) rest

/-- A comma separates values. -/
theorem value_separator_makes (rest : Bytes) :
    Makes strtof (byte ',' :: rest) .value_separator rest :=
  single_makes strtof (fun lx current => by rw [scanCurrent, current]; rfl) rest

/-- A NUL byte counts as the end of the text. -/
theorem nul_makes (rest : Bytes) : Makes strtof (0 :: rest) .end_of_input rest :=
  single_makes strtof (fun lx current => by rw [scanCurrent, current]; rfl) rest

/-- At the end of the text the scanner says so. -/
theorem end_makes : Makes strtof [] .end_of_input [] := by
  intro lx current ia
  have none_ : lx.current = none := current
  rw [scanCurrent, none_]
  exact ⟨rfl, ia⟩

/-- A literal that stands at the front is read whole. -/
theorem scanLiteral_front (literal_text rest : Bytes) :
    scanLiteral literal_text (literal_text ++ rest) = (true, literal_text.length) := by
  induction literal_text with
  | nil => rfl
  | cons letter literal_text inductionHypothesis =>
    rw [List.cons_append, scanLiteral, List.head?_cons, if_pos rfl, List.tail_cons,
      inductionHypothesis]
    rfl

/-- A literal that its first character calls for is scanned as its token. -/
theorem literal_makes {c : UInt8} {literal_text : Bytes} {token : JsonToken}
    (made : ∀ lx : JsonLexer, lx.current = some c →
      scanCurrent strtof lx = lx.literal literal_text token) (rest : Bytes) :
    Makes strtof (c :: (literal_text ++ rest)) token rest := by
  intro lx current ia
  have input : lx.ia = literal_text ++ rest := ia
  rw [made lx current, literal, input, scanLiteral_front]
  refine ⟨rfl, ?_⟩
  rw [gets_ia, input, List.drop_left]

/-- The text of null is scanned as null. -/
theorem literal_null_makes (rest : Bytes) :
    Makes strtof (text "null" ++ rest) .literal_null rest :=
  literal_makes strtof (fun lx current => by rw [scanCurrent, current]; rfl) rest

/-- The text of true is scanned as true. -/
theorem literal_true_makes (rest : Bytes) :
    Makes strtof (text "true" ++ rest) .literal_true rest :=
  literal_makes strtof (fun lx current => by rw [scanCurrent, current]; rfl) rest

/-- The text of false is scanned as false. -/
theorem literal_false_makes (rest : Bytes) :
    Makes strtof (text "false" ++ rest) .literal_false rest :=
  literal_makes strtof (fun lx current => by rw [scanCurrent, current]; rfl) rest

/-- The escapes of a UTF-8 text between quotation marks are scanned as the text. -/
theorem string_makes {s : Bytes} (formed : Utf8.valid s = true) (rest : Bytes) :
    Makes strtof (byte '"' :: (s.flatMap JsonText.escape ++ byte '"' :: rest)) (.value_string s)
      rest := by
  intro lx current ia
  have input : lx.ia = s.flatMap JsonText.escape ++ byte '"' :: rest := ia
  have made : scanCurrent strtof lx = lx.scanString := by
    rw [scanCurrent, current]
    rfl
  have enough : (s.flatMap JsonText.escape).length <
      (s.flatMap JsonText.escape ++ byte '"' :: rest).length + 1 := by
    rw [List.length_append]
    omega
  rw [made, scanString, input, valid_readAs formed rest _ enough]
  refine ⟨rfl, ?_⟩
  rw [gets_ia, reset_ia, input, List.drop_length_add_append]
  rfl

/-- A number is converted, and what follows it is put back. -/
theorem scanNumber_ends {lx : JsonLexer} {c : UInt8} {added rest : Bytes}
    {number_type : NumberType} {stopped : NumberState}
    (scanned : NumberState.scan c (added ++ rest) = (added, number_type, stopped))
    (whole : stopped.expects = none) (ia : lx.ia = added ++ rest) :
    (scanNumber strtof lx c).1 = convert strtof (c :: added) number_type ∧
      (scanNumber strtof lx c).2.ia = rest := by
  rw [scanNumber, ia, scanned]
  dsimp only
  rw [whole]
  refine ⟨rfl, ?_⟩
  rw [gets_succ, get_unget_ia, gets_ia, reset_ia, ia, List.drop_left]

/-- A digit or a minus sign begins a number. -/
theorem scanCurrent_number {lx : JsonLexer} {c : UInt8} (current : lx.current = some c)
    (number : c = byte '-' ∨ isDigit c = true) :
    scanCurrent strtof lx = scanNumber strtof lx c := by
  have apart (other : UInt8) (no : other ≠ byte '-' ∧ isDigit other = false) : c ≠ other := by
    rintro rfl
    rcases number with same | digit
    · exact no.1 same
    · rw [no.2] at digit
      cases digit
  rw [scanCurrent, current]
  dsimp only
  rw [if_neg (apart _ (by decide)), if_neg (apart _ (by decide)), if_neg (apart _ (by decide)),
    if_neg (apart _ (by decide)), if_neg (apart _ (by decide)), if_neg (apart _ (by decide)),
    if_neg (apart _ (by decide)), if_neg (apart _ (by decide)), if_neg (apart _ (by decide)),
    if_neg (apart _ (by decide)), if_pos number]

/-- A numeral of at most 64 bits is scanned as its number. -/
theorem unsigned_makes {n : Nat} (bounded : n < 2 ^ 64) {rest : Bytes} (ends : NumberEnds rest) :
    Makes strtof (numeral n ++ rest) (.value_unsigned n) rest := by
  obtain ⟨c, digits, stopped, lead, digit, scanned, whole⟩ := scan_numeral ends n
  intro lx current ia
  rw [lead] at current ia
  obtain ⟨token, behind⟩ := scanNumber_ends strtof scanned whole ia
  rw [scanCurrent_number strtof current (Or.inr digit), token, behind, convert, ← lead,
    value_numeral, if_pos bounded]
  exact ⟨rfl, rfl⟩

/-- A numeral behind a minus sign is scanned as a negative number, if that fits 64 bits. -/
theorem negative_makes {n : Nat} (positive : 0 < n) (bounded : n ≤ 2 ^ 63) {rest : Bytes}
    (ends : NumberEnds rest) :
    Makes strtof (byte '-' :: (numeral n ++ rest)) (.value_integer (-(n : Int))) rest := by
  intro lx current ia
  obtain ⟨token, behind⟩ := scanNumber_ends strtof (scan_negative ends positive) rfl ia
  rw [scanCurrent_number strtof current (Or.inl rfl), token, behind, convert, List.tail_cons,
    value_numeral, if_pos bounded]
  exact ⟨rfl, rfl⟩

end Cppboot.JsonLexer

namespace Cppboot.JsonParser

open JsonLexer

variable (strtof : Bytes → Float)

/-- In front of this text the scanner reads these tokens and leaves the rest. -/
def Yields (input : Bytes) (tokens : List JsonToken) (rest : Bytes) : Prop :=
  ∀ lx : JsonLexer, lx.Opened → lx.ia = input → ∃ behind, Scans strtof lx tokens behind ∧
    behind.ia = rest ∧ behind.position.chars_read_total ≠ 0

variable {strtof}

/-- Tokens that are scanned one after the other. -/
theorem Yields.append {input middle rest : Bytes} {tokens others : List JsonToken}
    (first : Yields strtof input tokens middle) (second : Yields strtof middle others rest) :
    Yields strtof input (tokens ++ others) rest := by
  intro lx opened ia
  obtain ⟨between, front, here, begun⟩ := first lx opened ia
  obtain ⟨behind, scans, there, goesOn⟩ := second between (Or.inl begun) here
  exact ⟨behind, front.append strtof scans, there, goesOn⟩

/-- One token behind blanks. -/
theorem yields_token {blanks input rest : Bytes} {token : JsonToken}
    (blank : ∀ c ∈ blanks, JsonLexer.isBlank c = true)
    (begins : ∀ c, input.head? = some c → JsonLexer.isBlank c = false)
    (makes : Makes strtof input token rest) : Yields strtof (blanks ++ input) [token] rest := by
  intro lx opened ia
  obtain ⟨at_, scanned, current, behind, begun⟩ := scan_opened strtof opened
  rw [ia, (takeWhile_front blank begins).2] at current behind
  obtain ⟨made, left⟩ := makes at_ current behind
  rw [← scanned] at made left
  have underway := (scanCurrent_scanned strtof at_).underway begun
  rw [← scanned] at underway
  exact ⟨(lx.scan strtof).2, .token strtof made (.nil _), left, underway⟩

/-- A token that does not begin with a blank is scanned at once. -/
theorem yields_plain {input rest : Bytes} {token : JsonToken}
    (begins : ∀ c, input.head? = some c → JsonLexer.isBlank c = false)
    (makes : Makes strtof input token rest) : Yields strtof input [token] rest := by
  have blank : ∀ c ∈ ([] : Bytes), JsonLexer.isBlank c = true := fun c nothing => by cases nothing
  exact yields_token blank begins makes

end Cppboot.JsonParser
