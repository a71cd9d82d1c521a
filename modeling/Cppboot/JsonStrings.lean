import Cppboot.Utf8

/-!
# The strings of a JSON text

How the scanner of the library reads a string behind its opening quotation mark: one piece
after the other, where a piece is a character, a sequence of UTF-8 or an escape. Each
function is given the characters that are still to be read, and says what it makes of them
and how many it reads.

Whatever the text is, a string that is read is well-formed UTF-8: sequences are checked
byte by byte, surrogates are accepted only in pairs, and the code points of escapes are
written out as their sequences.
-/

namespace Cppboot.JsonLexer

/-- The number a hexadecimal digit stands for. -/
def hexDigit (c : UInt8) : Option Nat :=
  if byte '0' ≤ c ∧ c ≤ byte '9' then some (c.toNat - 0x30)
  else if byte 'A' ≤ c ∧ c ≤ byte 'F' then some (c.toNat - 0x37)
  else if byte 'a' ≤ c ∧ c ≤ byte 'f' then some (c.toNat - 0x57)
  else none

/-- `get_codepoint`: one digit for each factor. -/
def getCodepoint : List Nat → Bytes → Option Nat × Nat
  | [], _ => (some 0, 0)
  | _ :: _, [] => (none, 1)
  | factor :: factors, c :: input =>
    match hexDigit c with
    | none => (none, 1)
    | some digit =>
      ((getCodepoint factors input).1.map (digit <<< factor + ·),
        (getCodepoint factors input).2 + 1)

/-- `next_byte_in_range`: one character for each range. -/
def nextByteInRange : List (UInt8 × UInt8) → Bytes → Bool × Nat
  | [], _ => (true, 0)
  | _ :: _, [] => (false, 1)
  | (low, high) :: ranges, c :: input =>
    if low ≤ c ∧ c ≤ high then
      ((nextByteInRange ranges input).1, (nextByteInRange ranges input).2 + 1)
    else (false, 1)

/-- The bytes of a code point. -/
def codepointBytes (codepoint : Nat) : Bytes :=
  if codepoint < 0x80 then [UInt8.ofNat codepoint]
  else if codepoint ≤ 0x7FF then
    [UInt8.ofNat (0xC0 ||| codepoint >>> 6), UInt8.ofNat (0x80 ||| (codepoint &&& 0x3F))]
  else if codepoint ≤ 0xFFFF then
    [UInt8.ofNat (0xE0 ||| codepoint >>> 12), UInt8.ofNat (0x80 ||| (codepoint >>> 6 &&& 0x3F)),
      UInt8.ofNat (0x80 ||| (codepoint &&& 0x3F))]
  else
    [UInt8.ofNat (0xF0 ||| codepoint >>> 18), UInt8.ofNat (0x80 ||| (codepoint >>> 12 &&& 0x3F)),
      UInt8.ofNat (0x80 ||| (codepoint >>> 6 &&& 0x3F)),
      UInt8.ofNat (0x80 ||| (codepoint &&& 0x3F))]

/-- What comes of a piece of a string: an error message, its end, or what it adds to the
string; and how many characters were read for it. -/
abbrev Piece := Except Bytes (Option Bytes) × Nat

/-- The piece has more characters at its front. -/
def Piece.behind (front : Nat) (piece : Piece) : Piece := (piece.1, front + piece.2)

/-- The message for an escape without its digits. -/
def hexDigitsExpected : Bytes := text "invalid string: '\\u' must be followed by 4 hex digits"

def lowSurrogateExpected : Bytes :=
  text "invalid string: surrogate U+D800..U+DBFF must be followed by U+DC00..U+DFFF"

/-- Behind a high surrogate. -/
def scanSurrogate (codepoint1 : Nat) (input : Bytes) : Piece :=
  if input.head? ≠ some (byte '\\') then (.error lowSurrogateExpected, 1)
  else if input.tail.head? ≠ some (byte 'u') then (.error lowSurrogateExpected, 2)
  else
    match getCodepoint [12, 8, 4, 0] (input.drop 2) with
    | (none, n) => (.error hexDigitsExpected, 2 + n)
    | (some codepoint2, n) =>
      if 0xDC00 ≤ codepoint2 ∧ codepoint2 ≤ 0xDFFF then
        (.ok (some (codepointBytes (codepoint1 <<< 10 + codepoint2 - 0x35FDC00))), 2 + n)
      else (.error lowSurrogateExpected, 2 + n)

/-- Behind `\u`. -/
def scanUnicode (input : Bytes) : Piece :=
  match getCodepoint [12, 8, 4, 0] input with
  | (none, n) => (.error hexDigitsExpected, n)
  | (some codepoint1, n) =>
    if 0xD800 ≤ codepoint1 ∧ codepoint1 ≤ 0xDBFF then
      (scanSurrogate codepoint1 (input.drop n)).behind n
    else if 0xDC00 ≤ codepoint1 ∧ codepoint1 ≤ 0xDFFF then
      (.error (text "invalid string: surrogate U+DC00..U+DFFF must follow U+D800..U+DBFF"), n)
    else (.ok (some (codepointBytes codepoint1)), n)

/-- The character that an escape letter stands for. -/
def escaped (c : UInt8) : Option UInt8 :=
  if c = byte '"' then some 0x22
  else if c = byte '\\' then some 0x5C
  else if c = byte '/' then some 0x2F
  else if c = byte 'b' then some 0x08
  else if c = byte 'f' then some 0x0C
  else if c = byte 'n' then some 0x0A
  else if c = byte 'r' then some 0x0D
  else if c = byte 't' then some 0x09
  else none

def forbiddenCharacter : Bytes := text "invalid string: forbidden character after backslash"

/-- Behind a backslash. -/
def scanEscape : Bytes → Piece
  | [] => (.error forbiddenCharacter, 1)
  | c :: input =>
    match escaped c with
    | some added => (.ok (some [added]), 1)
    | none =>
      if c = byte 'u' then (scanUnicode input).behind 1
      else (.error forbiddenCharacter, 1)

/-- The names of the control characters, and the letters that some are escaped with. -/
def controlNames : List (String × String) :=
  [("NUL", ""), ("SOH", ""), ("STX", ""), ("ETX", ""), ("EOT", ""), ("ENQ", ""), ("ACK", ""),
    ("BEL", ""), ("BS", " or \\b"), ("HT", " or \\t"), ("LF", " or \\n"), ("VT", ""),
    ("FF", " or \\f"), ("CR", " or \\r"), ("SO", ""), ("SI", ""), ("DLE", ""), ("DC1", ""),
    ("DC2", ""), ("DC3", ""), ("DC4", ""), ("NAK", ""), ("SYN", ""), ("ETB", ""), ("CAN", ""),
    ("EM", ""), ("SUB", ""), ("ESC", ""), ("FS", ""), ("GS", ""), ("RS", ""), ("US", "")]

/-- A byte as two hexadecimal digits in upper case. -/
def hexBytes (c : UInt8) : Bytes :=
  [(text "0123456789ABCDEF").getD (c.toNat / 16) 0, (text "0123456789ABCDEF").getD (c.toNat % 16) 0]

/-- The message for a control character. -/
def controlMessage (c : UInt8) : Bytes :=
  text "invalid string: control character U+00" ++ hexBytes c ++ text " (" ++
    text (controlNames.getD c.toNat ("", "")).1 ++ text ") must be escaped to \\u00" ++
    hexBytes c ++ text (controlNames.getD c.toNat ("", "")).2

/-- What may follow the first byte of a longer sequence of UTF-8. -/
def ranges (c : UInt8) : Option (List (UInt8 × UInt8)) :=
  if 0xC2 ≤ c ∧ c ≤ 0xDF then some [(0x80, 0xBF)]
  else if c = 0xE0 then some [(0xA0, 0xBF), (0x80, 0xBF)]
  else if (0xE1 ≤ c ∧ c ≤ 0xEC) ∨ c = 0xEE ∨ c = 0xEF then some [(0x80, 0xBF), (0x80, 0xBF)]
  else if c = 0xED then some [(0x80, 0x9F), (0x80, 0xBF)]
  else if c = 0xF0 then some [(0x90, 0xBF), (0x80, 0xBF), (0x80, 0xBF)]
  else if 0xF1 ≤ c ∧ c ≤ 0xF3 then some [(0x80, 0xBF), (0x80, 0xBF), (0x80, 0xBF)]
  else if c = 0xF4 then some [(0x80, 0x8F), (0x80, 0xBF), (0x80, 0xBF)]
  else none

def illFormed : Bytes := text "invalid string: ill-formed UTF-8 byte"

/-- One turn of the loop of `scan_string`. -/
def scanCharacter : Bytes → Piece
  | [] => (.error (text "invalid string: missing closing quote"), 1)
  | c :: input =>
    if c = byte '"' then (.ok none, 1)
    else if c = byte '\\' then (scanEscape input).behind 1
    else if c < 0x20 then (.error (controlMessage c), 1)
    else if c < 0x80 then (.ok (some [c]), 1)
    else
      match ranges c with
      | none => (.error illFormed, 1)
      | some ranges =>
        if (nextByteInRange ranges input).1 then
          (.ok (some (c :: input.take ranges.length)), (nextByteInRange ranges input).2 + 1)
        else (.error illFormed, (nextByteInRange ranges input).2 + 1)

/-- The loop of `scan_string`. Every turn reads a character, so the length of the text is
enough. -/
def scanCharacters : Nat → Bytes → Except Bytes Bytes × Nat
  | 0, _ => (.error (text "invalid string: missing closing quote"), 1)
  | fuel + 1, input =>
    match scanCharacter input with
    | (.error message, n) => (.error message, n)
    | (.ok none, n) => (.ok [], n)
    | (.ok (some added), n) =>
      ((scanCharacters fuel (input.drop n)).1.map (added ++ ·),
        n + (scanCharacters fuel (input.drop n)).2)

theorem hexDigit_lt {c : UInt8} {digit : Nat} (found : hexDigit c = some digit) :
    digit < 16 := by
  unfold hexDigit at found
  have between {low high : UInt8} (inside : low ≤ c ∧ c ≤ high) :
      low.toNat ≤ c.toNat ∧ c.toNat ≤ high.toNat :=
    ⟨UInt8.le_iff_toNat_le.mp inside.1, UInt8.le_iff_toNat_le.mp inside.2⟩
  have codes : (byte '9').toNat = 57 ∧ (byte 'F').toNat = 70 ∧ (byte 'f').toNat = 102 := by
    decide
  split at found
  next decimal =>
    have bounds := between decimal
    cases found
    omega
  split at found
  next upper =>
    have bounds := between upper
    cases found
    omega
  split at found
  next lower =>
    have bounds := between lower
    cases found
    omega
  · cases found

/-- A code point is put together from its first digit and the others. -/
theorem getCodepoint_cons {factor codepoint n : Nat} {factors : List Nat} {input : Bytes}
    (found : getCodepoint (factor :: factors) input = (some codepoint, n)) :
    ∃ digit rest behind m, digit < 16 ∧ getCodepoint factors behind = (some rest, m) ∧
      codepoint = digit <<< factor + rest := by
  cases input with
  | nil => cases found
  | cons c behind =>
    rw [getCodepoint] at found
    cases seen : hexDigit c with
    | none =>
      rw [seen] at found
      cases found
    | some digit =>
      simp only [seen, Prod.mk.injEq, Option.map_eq_some_iff] at found
      obtain ⟨⟨rest, others, same⟩, _⟩ := found
      exact ⟨digit, rest, behind, _, hexDigit_lt seen, Prod.ext others rfl, same.symm⟩

theorem getCodepoint_lt {codepoint n : Nat} {input : Bytes}
    (found : getCodepoint [12, 8, 4, 0] input = (some codepoint, n)) : codepoint < 0x10000 := by
  obtain ⟨d1, _, _, _, small1, found1, rfl⟩ := getCodepoint_cons found
  obtain ⟨d2, _, _, _, small2, found2, rfl⟩ := getCodepoint_cons found1
  obtain ⟨d3, _, _, _, small3, found3, rfl⟩ := getCodepoint_cons found2
  obtain ⟨d4, _, _, _, small4, found4, rfl⟩ := getCodepoint_cons found3
  cases found4
  simp only [Nat.shiftLeft_eq]
  omega

/-- A byte that continues a sequence, with the last six bits of a number. -/
theorem continuation (n : Nat) :
    UInt8.ofNat (0x80 ||| (n &&& 0x3F)) = UInt8.ofNat (0x80 + n % 64) ∧
      Utf8.continues (UInt8.ofNat (0x80 + n % 64)) = true := by
  have low : n &&& 0x3F = n % 64 := Nat.and_two_pow_sub_one_eq_mod n 6
  have small : n % 64 < 64 := Nat.mod_lt n (by decide)
  rw [low]
  generalize n % 64 = bits at small ⊢
  revert bits
  decide

/-- The first bytes of the sequences. -/
theorem leading :
    (∀ n < 32, 0xC0 ||| n = 0xC0 + n) ∧ (∀ n < 16, 0xE0 ||| n = 0xE0 + n) ∧
      ∀ n < 8, 0xF0 ||| n = 0xF0 + n := by
  decide

/-- The bytes of a code point that is no surrogate are well formed. -/
theorem codepointBytes_valid {codepoint : Nat} (bounded : codepoint < 0x110000)
    (plain : codepoint < 0xD800 ∨ 0xE000 ≤ codepoint) :
    Utf8.valid (codepointBytes codepoint) = true := by
  have number (n : Nat) (small : n < 256) : (UInt8.ofNat n).toNat = n := by
    rw [UInt8.toNat_ofNat', Nat.mod_eq_of_lt small]
  have last := continuation codepoint
  have middle := continuation (codepoint >>> 6)
  have second := continuation (codepoint >>> 12)
  unfold codepointBytes
  split
  next small =>
    refine (Utf8.valid_ascii ?_).trans rfl
    rw [UInt8.lt_iff_toNat_lt, number codepoint (by omega)]
    exact small
  split
  next two =>
    have lead : codepoint >>> 6 < 32 := by
      rw [Nat.shiftRight_eq_div_pow]
      omega
    rw [leading.1 _ lead, last.1]
    refine (Utf8.valid_two ?_ []).trans rfl
    simp only [Utf8.leads2, last.2, UInt8.le_iff_toNat_le,
      number (0xC0 + codepoint >>> 6) (by omega)]
    rw [Nat.shiftRight_eq_div_pow]
    simp
    omega
  split
  next three =>
    have lead : codepoint >>> 12 < 16 := by
      rw [Nat.shiftRight_eq_div_pow]
      omega
    rw [leading.2.1 _ lead, last.1, middle.1]
    refine (Utf8.valid_three ?_ last.2 []).trans rfl
    simp only [Utf8.leads3, middle.2, Bool.or_eq_true, Bool.and_eq_true, beq_iff_eq,
      decide_eq_true_eq, UInt8.le_iff_toNat_le, ← UInt8.toNat_inj, UInt8.reduceToNat,
      number (0xE0 + codepoint >>> 12) (by omega),
      number (0x80 + codepoint >>> 6 % 64) (by omega)]
    simp only [Nat.shiftRight_eq_div_pow, and_true]
    omega
  next four =>
    have lead : codepoint >>> 18 < 8 := by
      rw [Nat.shiftRight_eq_div_pow]
      omega
    rw [leading.2.2 _ lead, last.1, middle.1, second.1]
    refine (Utf8.valid_four ?_ middle.2 last.2 []).trans rfl
    simp only [Utf8.leads4, second.2, Bool.or_eq_true, Bool.and_eq_true, beq_iff_eq,
      decide_eq_true_eq, UInt8.le_iff_toNat_le, ← UInt8.toNat_inj, UInt8.reduceToNat,
      number (0xF0 + codepoint >>> 18) (by omega),
      number (0x80 + codepoint >>> 12 % 64) (by omega)]
    simp only [Nat.shiftRight_eq_div_pow, and_true]
    omega

/-- The characters are in their ranges, one in each. -/
abbrev InRanges (ranges : List (UInt8 × UInt8)) (more : Bytes) : Prop :=
  List.Forall₂ (fun range c => range.1 ≤ c ∧ c ≤ range.2) ranges more

/-- Bytes in their ranges are read. -/
theorem nextByteInRange_inside {ranges : List (UInt8 × UInt8)} {more : Bytes}
    (inside : InRanges ranges more) (rest : Bytes) :
    nextByteInRange ranges (more ++ rest) = (true, ranges.length) := by
  induction inside with
  | nil => rfl
  | cons within others inductionHypothesis =>
    rw [List.cons_append, nextByteInRange, if_pos within, inductionHypothesis]
    rfl

/-- What is read is in its ranges. -/
theorem nextByteInRange_true {ranges : List (UInt8 × UInt8)} {input : Bytes}
    (inside : (nextByteInRange ranges input).1 = true) :
    InRanges ranges (input.take ranges.length) := by
  induction ranges generalizing input with
  | nil => exact .nil
  | cons range ranges inductionHypothesis =>
    cases input with
    | nil => cases inside
    | cons c input =>
      rw [nextByteInRange] at inside
      split at inside
      next within => exact .cons within (inductionHypothesis inside)
      · cases inside

/-- A byte and what its ranges admit are a sequence. -/
theorem ranges_valid {c : UInt8} {others : List (UInt8 × UInt8)} {more : Bytes}
    (found : ranges c = some others) (inside : InRanges others more) :
    Utf8.valid (c :: more) = true := by
  have continued {b : UInt8} (within : 0x80 ≤ b ∧ b ≤ 0xBF) : Utf8.continues b = true := by
    simp only [Utf8.continues, within.1, within.2, decide_true, Bool.and_self]
  unfold ranges at found
  split at found
  next lead =>
    cases found
    obtain _ | ⟨first, _ | _⟩ := inside
    refine (Utf8.valid_two ?_ []).trans rfl
    simp only [Utf8.leads2, lead.1, lead.2, continued first, decide_true, Bool.and_self]
  split at found
  next lead =>
    cases found
    obtain _ | ⟨first, _ | ⟨last, _ | _⟩⟩ := inside
    refine (Utf8.valid_three ?_ (continued last) []).trans rfl
    simp only [Utf8.leads3, lead, first.1, first.2, decide_true, beq_self_eq_true, Bool.and_self,
      Bool.true_or]
  split at found
  next lead =>
    cases found
    obtain _ | ⟨first, _ | ⟨last, _ | _⟩⟩ := inside
    refine (Utf8.valid_three ?_ (continued last) []).trans rfl
    simp only [Utf8.leads3, continued first, Bool.or_eq_true, Bool.and_eq_true, beq_iff_eq,
      decide_eq_true_eq, and_true]
    exact Or.inl (Or.inr (or_assoc.mpr lead))
  split at found
  next lead =>
    cases found
    obtain _ | ⟨first, _ | ⟨last, _ | _⟩⟩ := inside
    refine (Utf8.valid_three ?_ (continued last) []).trans rfl
    simp only [Utf8.leads3, lead, first.1, first.2, decide_true, beq_self_eq_true, Bool.and_self,
      Bool.or_true]
  split at found
  next lead =>
    cases found
    obtain _ | ⟨first, _ | ⟨middle, _ | ⟨last, _ | _⟩⟩⟩ := inside
    refine (Utf8.valid_four ?_ (continued middle) (continued last) []).trans rfl
    simp only [Utf8.leads4, lead, first.1, first.2, decide_true, beq_self_eq_true, Bool.and_self,
      Bool.true_or]
  split at found
  next lead =>
    cases found
    obtain _ | ⟨first, _ | ⟨middle, _ | ⟨last, _ | _⟩⟩⟩ := inside
    refine (Utf8.valid_four ?_ (continued middle) (continued last) []).trans rfl
    simp only [Utf8.leads4, lead.1, lead.2, continued first, decide_true, Bool.and_self,
      Bool.or_true, Bool.true_or]
  split at found
  next lead =>
    cases found
    obtain _ | ⟨first, _ | ⟨middle, _ | ⟨last, _ | _⟩⟩⟩ := inside
    refine (Utf8.valid_four ?_ (continued middle) (continued last) []).trans rfl
    simp only [Utf8.leads4, lead, first.1, first.2, decide_true, beq_self_eq_true, Bool.and_self,
      Bool.or_true]
  · cases found

/-- What follows completes a sequence, and is well formed behind it. -/
def completes : List (UInt8 × UInt8) → Bytes → Bool
  | [], s => Utf8.valid s
  | _ :: _, [] => false
  | range :: ranges, b :: s => (range.1 ≤ b && b ≤ range.2) && completes ranges s

/-- A sequence that completes a character is split off. -/
theorem completes_true {others : List (UInt8 × UInt8)} {s : Bytes}
    (complete : completes others s = true) :
    ∃ more rest, s = more ++ rest ∧ InRanges others more ∧ Utf8.valid rest = true := by
  induction others generalizing s with
  | nil => exact ⟨[], s, rfl, .nil, complete⟩
  | cons range others inductionHypothesis =>
    cases s with
    | nil => cases complete
    | cons b s =>
      simp only [completes, Bool.and_eq_true, decide_eq_true_eq] at complete
      obtain ⟨within, behind⟩ := complete
      obtain ⟨more, rest, rfl, inside, formed⟩ := inductionHypothesis behind
      exact ⟨b :: more, rest, rfl, .cons within inside, formed⟩

/-- Bytes in their ranges complete a character, in front of UTF-8. -/
theorem completes_inside {others : List (UInt8 × UInt8)} {more rest : Bytes}
    (inside : InRanges others more) (formed : Utf8.valid rest = true) :
    completes others (more ++ rest) = true := by
  induction inside with
  | nil => exact formed
  | cons within _ inductionHypothesis =>
    simp only [List.cons_append, completes, within.1, within.2, decide_true, Bool.and_self,
      inductionHypothesis]

/-- The sequences that a lead byte admits are those of its ranges. -/
theorem ranges_of_leads {c b1 : UInt8} :
    (Utf8.leads2 c b1 = true → ∃ range, ranges c = some [range] ∧ range.1 ≤ b1 ∧ b1 ≤ range.2) ∧
      (Utf8.leads3 c b1 = true → ∃ range, ranges c = some [range, (0x80, 0xBF)] ∧
        range.1 ≤ b1 ∧ b1 ≤ range.2) ∧
      (Utf8.leads4 c b1 = true → ∃ range, ranges c = some [range, (0x80, 0xBF), (0x80, 0xBF)] ∧
        range.1 ≤ b1 ∧ b1 ≤ range.2) := by
  have split_ {low high b : UInt8} (within : (low ≤ b && b ≤ high) = true) :
      low ≤ b ∧ b ≤ high := by
    simpa only [Bool.and_eq_true, decide_eq_true_eq] using within
  refine ⟨fun lead => ?_, fun lead => ?_, fun lead => ?_⟩
  · obtain ⟨first, second⟩ := Bool.and_eq_true_iff.mp lead
    exact ⟨(0x80, 0xBF), if_pos (split_ first), split_ second⟩
  · simp only [Utf8.leads3, Bool.or_eq_true, Bool.and_eq_true, beq_iff_eq, decide_eq_true_eq,
      and_assoc] at lead
    rcases lead with (⟨rfl, first⟩ | ⟨kind, second⟩) | ⟨rfl, first⟩
    · exact ⟨(0xA0, 0xBF), rfl, first⟩
    · refine ⟨(0x80, 0xBF), ?_, split_ second⟩
      have others : ¬(0xC2 ≤ c ∧ c ≤ 0xDF) ∧ c ≠ 0xE0 := by grind
      rw [ranges, if_neg others.1, if_neg others.2, if_pos (by grind)]
    · exact ⟨(0x80, 0x9F), rfl, first⟩
  · simp only [Utf8.leads4, Bool.or_eq_true, Bool.and_eq_true, beq_iff_eq, decide_eq_true_eq,
      and_assoc] at lead
    rcases lead with (⟨rfl, first⟩ | ⟨low, high, second⟩) | ⟨rfl, first⟩
    · exact ⟨(0x90, 0xBF), rfl, first⟩
    · refine ⟨(0x80, 0xBF), ?_, split_ second⟩
      rw [ranges, if_neg (by grind), if_neg (by grind), if_neg (by grind), if_neg (by grind),
        if_neg (by grind), if_pos ⟨low, high⟩]
    · exact ⟨(0x80, 0x8F), rfl, first⟩

/-- A byte from 128 on begins a well-formed string when the others complete it. -/
theorem valid_ranges {c : UInt8} (high : 0x80 ≤ c.toNat) (rest : Bytes) :
    Utf8.valid (c :: rest) = match ranges c with
      | none => false
      | some others => completes others rest := by
  have continued {b : UInt8} (more : Utf8.continues b = true) : 0x80 ≤ b ∧ b ≤ 0xBF := by
    simpa only [Utf8.continues, Bool.and_eq_true, decide_eq_true_eq] using more
  apply Bool.eq_iff_iff.mpr
  constructor
  · intro formed
    cases Utf8.valid_sequences formed with
    | ascii small _ => exact absurd small (Utf8.not_ascii high)
    | two lead behind =>
      obtain ⟨range, found, within⟩ := ranges_of_leads.1 lead
      rw [found]
      exact completes_inside (.cons within .nil) behind.formed
    | three lead last behind =>
      obtain ⟨range, found, within⟩ := ranges_of_leads.2.1 lead
      rw [found]
      exact completes_inside (.cons within (.cons (continued last) .nil)) behind.formed
    | four lead more last behind =>
      obtain ⟨range, found, within⟩ := ranges_of_leads.2.2 lead
      rw [found]
      exact completes_inside
        (.cons within (.cons (continued more) (.cons (continued last) .nil))) behind.formed
  · intro complete
    cases found : ranges c with
    | none =>
      rw [found] at complete
      cases complete
    | some others =>
      rw [found] at complete
      obtain ⟨more, rest, rfl, inside, formed⟩ := completes_true complete
      exact (Utf8.valid_append (ranges_valid found inside) rest).trans formed

/-- Two surrogates give a code point behind the first plane. -/
theorem scanSurrogate_valid {codepoint1 : Nat} {input added : Bytes}
    (high : 0xD800 ≤ codepoint1 ∧ codepoint1 ≤ 0xDBFF)
    (scanned : (scanSurrogate codepoint1 input).1 = .ok (some added)) :
    Utf8.valid added = true := by
  unfold scanSurrogate at scanned
  split at scanned
  · cases scanned
  split at scanned
  · cases scanned
  split at scanned
  · cases scanned
  next codepoint2 n found =>
  split at scanned
  next low =>
    have same := Option.some.inj (Except.ok.inj scanned)
    rw [← same, Nat.shiftLeft_eq]
    exact codepointBytes_valid (by omega) (Or.inr (by omega))
  · cases scanned

/-- What an escape stands for is UTF-8. -/
theorem scanUnicode_valid {input added : Bytes}
    (scanned : (scanUnicode input).1 = .ok (some added)) : Utf8.valid added = true := by
  unfold scanUnicode at scanned
  split at scanned
  · cases scanned
  next codepoint1 n found =>
  have bounded := getCodepoint_lt found
  split at scanned
  next high => exact scanSurrogate_valid high scanned
  next notHigh =>
  split at scanned
  · cases scanned
  next notLow =>
    cases scanned
    exact codepointBytes_valid (by omega) (by omega)

/-- What a letter behind a backslash stands for is in ASCII. -/
theorem escaped_ascii {c added : UInt8} (found : escaped c = some added) : added < 0x80 := by
  unfold escaped at found
  split at found
  · exact Option.some.inj found ▸ by decide
  split at found
  · exact Option.some.inj found ▸ by decide
  split at found
  · exact Option.some.inj found ▸ by decide
  split at found
  · exact Option.some.inj found ▸ by decide
  split at found
  · exact Option.some.inj found ▸ by decide
  split at found
  · exact Option.some.inj found ▸ by decide
  split at found
  · exact Option.some.inj found ▸ by decide
  split at found
  · exact Option.some.inj found ▸ by decide
  · cases found

/-- Behind a backslash a string gets a well-formed piece. -/
theorem scanEscape_valid {input added : Bytes}
    (scanned : (scanEscape input).1 = .ok (some added)) : Utf8.valid added = true := by
  cases input with
  | nil => cases scanned
  | cons c input =>
    rw [scanEscape] at scanned
    split at scanned
    next b found =>
      cases scanned
      exact (Utf8.valid_ascii (escaped_ascii found)).trans rfl
    split at scanned
    · exact scanUnicode_valid scanned
    · cases scanned

/-- A piece of a string is well formed. -/
theorem scanCharacter_valid {input added : Bytes}
    (scanned : (scanCharacter input).1 = .ok (some added)) : Utf8.valid added = true := by
  cases input with
  | nil => cases scanned
  | cons c input =>
    rw [scanCharacter] at scanned
    split at scanned
    · cases scanned
    split at scanned
    · exact scanEscape_valid scanned
    split at scanned
    · cases scanned
    split at scanned
    next small =>
      cases scanned
      exact (Utf8.valid_ascii small).trans rfl
    split at scanned
    · cases scanned
    next others found =>
    split at scanned
    next inside =>
      cases scanned
      exact ranges_valid found (nextByteInRange_true inside)
    · cases scanned

/-- What the scanner reads as a string is well formed. -/
theorem scanCharacters_valid {fuel : Nat} {input value : Bytes}
    (scanned : (scanCharacters fuel input).1 = .ok value) : Utf8.valid value = true := by
  induction fuel generalizing input value with
  | zero => cases scanned
  | succ fuel inductionHypothesis =>
    rw [scanCharacters] at scanned
    split at scanned
    · cases scanned
    · cases scanned
      rfl
    next added n piece =>
      have front := scanCharacter_valid (congrArg Prod.fst piece)
      cases behind : (scanCharacters fuel (input.drop n)).1 with
      | error message =>
        rw [behind] at scanned
        cases scanned
      | ok rest =>
        rw [behind] at scanned
        cases scanned
        exact (Utf8.valid_append front rest).trans (inductionHypothesis behind)

end Cppboot.JsonLexer
