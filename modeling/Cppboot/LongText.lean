import Cppboot.Decimal

/-!
# Numbers of 64 bits as text

`std::to_string` writes a number with a sign, if it is negative, and its digits.
`std::stoll` reads more than that: it skips blanks, takes either sign, and does not
look at what follows the digits. It throws where there are no digits or too many.

The decimal text of a number is an optional minus sign and digits, and nothing
else. Such a text is read as the number it stands for, and what is written is the
decimal text of what was written.
-/

namespace Cppboot

/-- `std::to_string` of a signed number. -/
def toText (n : Int64) : Bytes :=
  if n.toInt < 0 then byte '-' :: Decimal.numeral n.toInt.natAbs
  else Decimal.numeral n.toInt.natAbs

/-- The number with this sign and these digits, if it fits. -/
def longOf (negative : Bool) (digits : Bytes) : Option Int64 :=
  let n : Int := if negative then -(Decimal.value digits : Int) else Decimal.value digits
  if -9223372036854775808 ≤ n ∧ n ≤ 9223372036854775807 then some (Int64.ofInt n) else none

/-- The sign in front of a number, and what follows it. -/
def takeSign : Bytes → Bool × Bytes
  | [] => (false, [])
  | c :: rest =>
    if c = byte '-' then (true, rest)
    else if c = byte '+' then (false, rest)
    else (false, c :: rest)

/-- `std::stoll`. There is no result where it throws. -/
def stoll (s : Bytes) : Option Int64 :=
  let signed := takeSign ((cstr s).dropWhile isSpace)
  let digits := signed.2.takeWhile Decimal.isDigit
  if digits = [] then none else longOf signed.1 digits

/-- The number that a decimal text stands for. -/
def decimalValue : Bytes → Option Int64
  | [] => none
  | c :: rest =>
    if c = byte '-' then
      if rest ≠ [] ∧ rest.all Decimal.isDigit then longOf true rest else none
    else if (c :: rest).all Decimal.isDigit then longOf false (c :: rest)
    else none

/-- A digit is neither a sign nor a blank nor the end of a string. -/
theorem digit_plain : ∀ c, Decimal.isDigit c = true →
    c ≠ byte '-' ∧ c ≠ byte '+' ∧ isSpace c = false ∧ c ≠ 0 :=
  every_byte (by decide +kernel)

theorem cstr_digits {digits : Bytes} (all : ∀ c ∈ digits, Decimal.isDigit c = true) :
    0 ∉ digits :=
  fun member => (digit_plain 0 (all 0 member)).2.2.2 rfl

/-- Digits with an optional minus sign are read as they stand. -/
theorem stoll_negative {digits : Bytes} (nonempty : digits ≠ [])
    (all : ∀ c ∈ digits, Decimal.isDigit c = true) :
    stoll (byte '-' :: digits) = longOf true digits := by
  have plain : (0 : UInt8) ∉ byte '-' :: digits := by
    rw [List.mem_cons, not_or]
    exact ⟨by decide, cstr_digits all⟩
  have visible : ¬ isSpace (byte '-') = true := by decide
  unfold stoll
  rw [cstr_plain plain, List.dropWhile_cons_of_neg visible, takeSign, if_pos rfl]
  dsimp only
  rw [List.takeWhile_eq_self_iff.mpr all, if_neg nonempty]

/-- There is no blank and no sign in front of digits. -/
theorem takeSign_digits {digits : Bytes} (nonempty : digits ≠ [])
    (all : ∀ c ∈ digits, Decimal.isDigit c = true) :
    takeSign ((cstr digits).dropWhile isSpace) = (false, digits) := by
  obtain ⟨c, rest, rfl⟩ := List.exists_cons_of_ne_nil nonempty
  obtain ⟨not_minus, not_plus, visible, _⟩ := digit_plain c (all c List.mem_cons_self)
  rw [cstr_plain (cstr_digits all), List.dropWhile_cons_of_neg (by simpa using visible), takeSign,
    if_neg not_minus, if_neg not_plus]

theorem stoll_digits {digits : Bytes} (nonempty : digits ≠ [])
    (all : ∀ c ∈ digits, Decimal.isDigit c = true) : stoll digits = longOf false digits := by
  unfold stoll
  rw [takeSign_digits nonempty all]
  dsimp only
  rw [List.takeWhile_eq_self_iff.mpr all, if_neg nonempty]

/-- A decimal text is read as the number it stands for. -/
theorem stoll_of_decimal {v : Bytes} {n : Int64} (decimal : decimalValue v = some n) :
    stoll v = some n := by
  unfold decimalValue at decimal
  split at decimal
  next => cases decimal
  next c rest =>
    split at decimal
    next minus =>
      subst minus
      split at decimal
      next digits =>
        rw [stoll_negative digits.1 (List.all_eq_true.mp digits.2)]
        exact decimal
      next => cases decimal
    next =>
      split at decimal
      next digits =>
        rw [stoll_digits (List.cons_ne_nil c rest) (List.all_eq_true.mp digits)]
        exact decimal
      next => cases decimal

/-- What is written is the decimal text of the number. -/
theorem decimalValue_toText (n : Int64) : decimalValue (toText n) = some n := by
  have low := n.le_toInt
  have high := n.toInt_lt
  have digits := Decimal.numeral_digits n.toInt.natAbs
  have nonempty := Decimal.numeral_ne_nil n.toInt.natAbs
  have all : (Decimal.numeral n.toInt.natAbs).all Decimal.isDigit = true :=
    List.all_eq_true.mpr digits
  unfold toText
  split
  next negative =>
    have value : -((n.toInt.natAbs : Nat) : Int) = n.toInt := by omega
    rw [decimalValue, if_pos rfl, if_pos ⟨nonempty, all⟩, longOf, Decimal.value_numeral]
    simp only [if_true]
    rw [value, if_pos ⟨by omega, by omega⟩, Int64.ofInt_toInt]
  next positive =>
    have value : ((n.toInt.natAbs : Nat) : Int) = n.toInt := by omega
    have number : longOf false (Decimal.numeral n.toInt.natAbs) = some n := by
      rw [longOf, Decimal.value_numeral]
      simp only [Bool.false_eq_true, if_false]
      rw [value, if_pos ⟨by omega, by omega⟩, Int64.ofInt_toInt]
    obtain ⟨c, rest, split⟩ := List.exists_cons_of_ne_nil nonempty
    rw [split] at digits all number ⊢
    rw [decimalValue, if_neg (digit_plain c (digits c List.mem_cons_self)).1, if_pos all]
    exact number

/-- A number that was written is read back. -/
theorem stoll_toText (n : Int64) : stoll (toText n) = some n :=
  stoll_of_decimal (decimalValue_toText n)

end Cppboot
