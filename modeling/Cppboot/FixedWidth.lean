import Cppboot.Decimal

/-!
# Numerals of a fixed width

Texts are compared byte by byte, and the first difference decides. Numerals do not sort
like their numbers in this order, but numerals that are filled up with zeros to the same
width do, and so does whatever follows them where the numbers are the same.
-/

namespace Cppboot.Decimal

/-- Fill up with zeros in front. -/
def padded (width n : Nat) : Bytes :=
  List.replicate (width - (numeral n).length) (byte '0') ++ numeral n

/-- The value of digits with more of them behind. -/
theorem value_append (digits more : Bytes) :
    value (digits ++ more) = value digits * 10 ^ more.length + value more := by
  have from_ (digits : Bytes) (sum : Nat) :
      digits.foldl (fun sum b => sum * 10 + (b.toNat - 48)) sum =
        sum * 10 ^ digits.length + value digits := by
    induction digits generalizing sum with
    | nil => simp [value]
    | cons b digits inductionHypothesis =>
      have rest : value (b :: digits) = (b.toNat - 48) * 10 ^ digits.length + value digits := by
        rw [value, List.foldl_cons, inductionHypothesis]
        simp
      rw [List.foldl_cons, inductionHypothesis, rest, List.length_cons, Nat.pow_succ, Nat.add_mul]
      rw [Nat.mul_assoc, Nat.mul_comm 10]
      omega
  rw [value, List.foldl_append, from_ more]
  rfl

/-- The first digit counts by the length of what follows it. -/
theorem value_cons (b : UInt8) (digits : Bytes) :
    value (b :: digits) = (b.toNat - 48) * 10 ^ digits.length + value digits := by
  rw [← List.singleton_append, value_append]
  simp [value]

/-- A digit string stands for less than the next power of ten. -/
theorem value_lt {digits : Bytes} (all : ∀ b ∈ digits, isDigit b = true) :
    value digits < 10 ^ digits.length := by
  induction digits with
  | nil => decide
  | cons b digits inductionHypothesis =>
    have less := inductionHypothesis fun c member => all c (List.mem_cons_of_mem _ member)
    have digit := all b List.mem_cons_self
    simp only [isDigit, Bool.and_eq_true, decide_eq_true_eq, UInt8.le_iff_toNat_le] at digit
    have nine : b.toNat - 48 ≤ 9 := by
      have high : b.toNat ≤ 57 := digit.2
      omega
    rw [value_cons, List.length_cons, Nat.pow_succ]
    calc (b.toNat - 48) * 10 ^ digits.length + value digits
        < (b.toNat - 48) * 10 ^ digits.length + 10 ^ digits.length := Nat.add_lt_add_left less _
      _ ≤ 9 * 10 ^ digits.length + 10 ^ digits.length :=
        Nat.add_le_add_right (Nat.mul_le_mul_right _ nine) _
      _ = 10 ^ digits.length * 10 := by omega

/-- Digit strings of the same length sort like their numbers, with whatever follows
deciding where the numbers are the same. -/
theorem digits_lt_iff {one other : Bytes} (all : ∀ b ∈ one, isDigit b = true)
    (all_other : ∀ b ∈ other, isDigit b = true) (width : one.length = other.length)
    (rest more : Bytes) :
    one ++ rest < other ++ more ↔
      value one < value other ∨ value one = value other ∧ rest < more := by
  induction one generalizing other with
  | nil =>
    rw [List.eq_nil_of_length_eq_zero width.symm]
    simp
  | cons b one inductionHypothesis =>
    cases other with
    | nil => cases width
    | cons c other =>
      have same := Nat.succ.inj width
      have tail := inductionHypothesis (fun d member => all d (List.mem_cons_of_mem _ member))
        (fun d member => all_other d (List.mem_cons_of_mem _ member)) same
      have less := value_lt fun d member => all d (List.mem_cons_of_mem _ member)
      have less_other := value_lt fun d member => all_other d (List.mem_cons_of_mem _ member)
      have digit := all b List.mem_cons_self
      have digit_other := all_other c List.mem_cons_self
      simp only [isDigit, Bool.and_eq_true, decide_eq_true_eq, UInt8.le_iff_toNat_le]
        at digit digit_other
      have low : 48 ≤ b.toNat := digit.1
      have low_other : 48 ≤ c.toNat := digit_other.1
      rw [List.cons_append, List.cons_append, List.cons_lt_cons_iff, tail, value_cons, value_cons,
        UInt8.lt_iff_toNat_lt, ← UInt8.toNat_inj]
      rw [← same] at less_other ⊢
      rcases Nat.lt_trichotomy b.toNat c.toNat with before | equal | behind
      · have leads : (b.toNat - 48 + 1) * 10 ^ one.length ≤ (c.toNat - 48) * 10 ^ one.length :=
          Nat.mul_le_mul_right _ (by omega)
        rw [Nat.succ_mul] at leads
        have ahead : (b.toNat - 48) * 10 ^ one.length + value one <
            (c.toNat - 48) * 10 ^ one.length + value other := by
          omega
        exact iff_of_true (.inl before) (.inl ahead)
      · rw [equal]
        simp only [Nat.lt_irrefl, false_or, true_and, eq_self]
        rw [Nat.add_lt_add_iff_left, Nat.add_left_cancel_iff]
      · have leads : (c.toNat - 48 + 1) * 10 ^ one.length ≤ (b.toNat - 48) * 10 ^ one.length :=
          Nat.mul_le_mul_right _ (by omega)
        rw [Nat.succ_mul] at leads
        have ahead : (c.toNat - 48) * 10 ^ one.length + value other <
            (b.toNat - 48) * 10 ^ one.length + value one := by
          omega
        refine iff_of_false ?_ ?_
        · rintro (before | ⟨equal, _⟩)
          · exact Nat.lt_asymm before behind
          · exact Nat.ne_of_gt behind equal
        · rintro (before | ⟨equal, _⟩)
          · exact Nat.lt_asymm before ahead
          · exact Nat.ne_of_gt ahead equal

/-- Padding adds digits only. -/
theorem padded_digits (width n : Nat) : ∀ b ∈ padded width n, isDigit b = true := by
  intro b member
  rcases List.mem_append.mp member with filled | digit
  · rw [List.eq_of_mem_replicate filled]
    decide
  · exact numeral_digits n b digit

/-- A number that fits is padded to the width. -/
theorem padded_length {width n : Nat} (positive : 0 < width) (fits : n < 10 ^ width) :
    (padded width n).length = width := by
  have short : (numeral n).length ≤ width := by
    rw [numeral, List.length_map]
    exact (Nat.length_toDigits_le_iff (by decide) positive).mpr fits
  rw [padded, List.length_append, List.length_replicate]
  omega

/-- Padding does not change the value. -/
theorem value_padded (width n : Nat) : value (padded width n) = n := by
  have zeros (count : Nat) : value (List.replicate count (byte '0')) = 0 := by
    induction count with
    | zero => rfl
    | succ count inductionHypothesis =>
      rw [List.replicate_succ, value_cons, inductionHypothesis]
      have zero : (byte '0').toNat - 48 = 0 := by decide
      rw [zero, Nat.zero_mul]
  rw [padded, value_append, zeros, value_numeral, Nat.zero_mul, Nat.zero_add]

/-- Numbers that fit the width sort like their texts. -/
theorem padded_lt_iff {width n m : Nat} (positive : 0 < width) (fits : n < 10 ^ width)
    (fits_other : m < 10 ^ width) (rest more : Bytes) :
    padded width n ++ rest < padded width m ++ more ↔ n < m ∨ n = m ∧ rest < more := by
  rw [digits_lt_iff (padded_digits width n) (padded_digits width m)
    ((padded_length positive fits).trans (padded_length positive fits_other).symm), value_padded,
    value_padded]

end Cppboot.Decimal
