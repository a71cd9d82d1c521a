import Mathlib.Data.List.Basic
import Cppboot.Bytes

/-!
# Decimal numerals

The decimal numeral of a natural number as `std::to_string` and stream output
write it: no sign, no leading zero, one digit for zero. Reading a digit string
back multiplies by ten for every further digit. Reading a numeral gives the
number, and a numeral in front of something that is not a digit can be told from
what follows.
-/

namespace Cppboot.Decimal

/-- The byte is one of the ten digits. -/
def isDigit (b : UInt8) : Bool := 48 ≤ b && b ≤ 57

/-- The digits of the number, most significant first. -/
def numeral (n : Nat) : Bytes := (Nat.toDigits 10 n).map Char.toUInt8

/-- The number a digit string stands for. -/
def value (digits : Bytes) : Nat := digits.foldl (fun sum b => sum * 10 + (b.toNat - 48)) 0

theorem numeral_ne_nil (n : Nat) : numeral n ≠ [] := by
  simp [numeral, Nat.toDigits_ne_nil]

/-- A digit character is a byte between the codes of zero and nine. -/
theorem toUInt8_of_isDigit {c : Char} (digit : c.isDigit = true) :
    c.toUInt8.toNat = c.toNat ∧ 48 ≤ c.toNat ∧ c.toNat ≤ 57 := by
  simp only [Char.isDigit, Bool.and_eq_true, decide_eq_true_eq] at digit
  have low : 48 ≤ c.toNat := by
    have := UInt32.le_iff_toNat_le.mp digit.1
    simpa using this
  have high : c.toNat ≤ 57 := by
    have := UInt32.le_iff_toNat_le.mp digit.2
    simpa using this
  refine ⟨?_, low, high⟩
  have code : c.val.toNat = c.toNat := rfl
  simp only [Char.toUInt8, UInt32.toNat_toUInt8, code]
  omega

/-- Every byte of a numeral is a digit. -/
theorem numeral_digits (n : Nat) : ∀ b ∈ numeral n, isDigit b = true := by
  intro b member
  obtain ⟨c, present, rfl⟩ := List.mem_map.mp member
  have digit := Nat.isDigit_of_mem_toDigits (by decide) (by decide) present
  obtain ⟨code, low, high⟩ := toUInt8_of_isDigit digit
  simp only [isDigit, Bool.and_eq_true, decide_eq_true_eq, UInt8.le_iff_toNat_le, code]
  exact ⟨low, high⟩

/-- Reading digit characters as bytes is reading them as characters. -/
theorem value_map (digits : List Char) (sum : Nat) (all : ∀ c ∈ digits, c.isDigit = true) :
    (digits.map Char.toUInt8).foldl (fun sum b => sum * 10 + (b.toNat - 48)) sum =
      Nat.ofDigitChars 10 digits sum := by
  induction digits generalizing sum with
  | nil => simp
  | cons c digits inductionHypothesis =>
    obtain ⟨code, _, _⟩ := toUInt8_of_isDigit (all c (by simp))
    rw [List.map_cons, List.foldl_cons, Nat.ofDigitChars_cons,
      inductionHypothesis _ (fun c member => all c (by simp [member])), code, Nat.mul_comm]
    rfl

/-- Reading a numeral back gives the number. -/
theorem value_numeral (n : Nat) : value (numeral n) = n := by
  rw [value, numeral, value_map _ _ (fun c member =>
    Nat.isDigit_of_mem_toDigits (by decide) (by decide) member)]
  exact Nat.ofDigitChars_ten_toDigits

/-- The digits at the front of a numeral followed by something else are exactly
the numeral. -/
theorem takeWhile_numeral (n : Nat) (rest : Bytes)
    (ends : ∀ b, rest.head? = some b → isDigit b = false) :
    (numeral n ++ rest).takeWhile isDigit = numeral n ∧
      (numeral n ++ rest).dropWhile isDigit = rest :=
  takeWhile_front (numeral_digits n) ends

end Cppboot.Decimal
