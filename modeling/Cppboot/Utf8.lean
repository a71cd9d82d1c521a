import Mathlib.Data.List.Basic
import Cppboot.Bytes

/-!
# Well-formed UTF-8

A byte string is well formed when it is a sequence of encoded code points in the
ranges of the standard's table: no overlong form, no surrogate, nothing above the
last code point. A single byte below 128 stands for itself and never occurs
inside a longer sequence, so cutting a well-formed string at such a byte leaves
two well-formed strings.
-/

namespace Cppboot.Utf8

/-- A byte that continues a sequence. -/
def continues (b : UInt8) : Bool := 0x80 ≤ b && b ≤ 0xBF

/-- The first two bytes of a sequence of two. -/
def leads2 (b0 b1 : UInt8) : Bool := 0xC2 ≤ b0 && b0 ≤ 0xDF && continues b1

/-- The first two bytes of a sequence of three. -/
def leads3 (b0 b1 : UInt8) : Bool :=
  (b0 == 0xE0 && 0xA0 ≤ b1 && b1 ≤ 0xBF) ||
  (((0xE1 ≤ b0 && b0 ≤ 0xEC) || b0 == 0xEE || b0 == 0xEF) && continues b1) ||
  (b0 == 0xED && 0x80 ≤ b1 && b1 ≤ 0x9F)

/-- The first two bytes of a sequence of four. -/
def leads4 (b0 b1 : UInt8) : Bool :=
  (b0 == 0xF0 && 0x90 ≤ b1 && b1 ≤ 0xBF) ||
  (0xF1 ≤ b0 && b0 ≤ 0xF3 && continues b1) ||
  (b0 == 0xF4 && 0x80 ≤ b1 && b1 ≤ 0x8F)

/-- The byte string is a sequence of encoded code points. -/
def valid : Bytes → Bool
  | [] => true
  | b0 :: rest =>
    if b0 < 0x80 then valid rest
    else
      match rest with
      | [] => false
      | b1 :: rest =>
        if leads2 b0 b1 then valid rest
        else
          match rest with
          | [] => false
          | b2 :: rest =>
            if leads3 b0 b1 && continues b2 then valid rest
            else
              match rest with
              | [] => false
              | b3 :: rest => leads4 b0 b1 && continues b2 && continues b3 && valid rest

theorem valid_ascii {b0 : UInt8} {rest : Bytes} (ascii : b0 < 0x80) :
    valid (b0 :: rest) = valid rest := by
  rw [valid.eq_def]
  simp [ascii]

/-- A run of bytes below 128 is well formed. -/
theorem valid_replicate {b : UInt8} (ascii : b < 0x80) (n : Nat) :
    valid (List.replicate n b) = true := by
  induction n with
  | zero => rfl
  | succ n inductionHypothesis => rw [List.replicate_succ, valid_ascii ascii, inductionHypothesis]

/-- A byte below 128 continues no sequence. -/
theorem continues_ascii {s : UInt8} (ascii : s < 0x80) : continues s = false := by
  have small : s.toNat < 128 := UInt8.lt_iff_toNat_lt.mp ascii
  simp only [continues, Bool.and_eq_false_iff, decide_eq_false_iff_not, UInt8.le_iff_toNat_le]
  exact Or.inl (by simpa using small)

/-- The second byte of a longer sequence is not below 128. -/
theorem leads_ascii {s b0 : UInt8} (ascii : s < 0x80) :
    leads2 b0 s = false ∧ leads3 b0 s = false ∧ leads4 b0 s = false := by
  have small : s.toNat < 128 := UInt8.lt_iff_toNat_lt.mp ascii
  have above (bound : UInt8) (big : 128 ≤ bound.toNat) : decide (bound ≤ s) = false := by
    rw [decide_eq_false_iff_not, UInt8.le_iff_toNat_le]
    omega
  simp [leads2, leads3, leads4, continues_ascii ascii, above 0xA0 (by decide),
    above 0x80 (by decide), above 0x90 (by decide)]

/-- A string cut at a byte below 128 is well formed exactly when both parts are.

The induction follows the sequences of the front part. A sequence that is not
complete there would have to go on with the byte at the cut, and cannot. -/
theorem valid_cut (front rest : Bytes) (s : UInt8) (ascii : s < 0x80) :
    valid (front ++ s :: rest) = (valid front && valid rest) := by
  fun_induction valid front with
  | case1 => simp [valid_ascii ascii]
  | case2 b0 more small inductionHypothesis =>
    rw [List.cons_append, valid_ascii small, inductionHypothesis]
  | case3 b0 lead =>
    rw [List.singleton_append, valid.eq_def]
    cases rest with
    | nil => simp [lead, leads_ascii ascii]
    | cons b2 rest =>
      cases rest <;> simp [lead, leads_ascii ascii]
  | case4 b0 lead b1 more two inductionHypothesis =>
    rw [List.cons_append, List.cons_append, valid.eq_def]
    simp [lead, two, inductionHypothesis]
  | case5 b0 lead b1 notTwo =>
    rw [List.cons_append, List.singleton_append, valid.eq_def]
    cases rest <;> simp [lead, notTwo, continues_ascii ascii]
  | case6 b0 lead b1 notTwo b2 more three inductionHypothesis =>
    rw [List.cons_append, List.cons_append, List.cons_append, valid.eq_def]
    simp only [lead, notTwo, three, inductionHypothesis]
    simp
  | case7 b0 lead b1 notTwo b2 notThree =>
    rw [List.cons_append, List.cons_append, List.singleton_append, valid.eq_def]
    simp only [lead, notTwo, notThree, continues_ascii ascii]
    simp
  | case8 b0 lead b1 notTwo b2 notThree b3 more inductionHypothesis =>
    rw [List.cons_append, List.cons_append, List.cons_append, List.cons_append, valid.eq_def]
    simp only [lead, notTwo, notThree, inductionHypothesis]
    simp [Bool.and_assoc]

/-! ## Sequences one by one -/

/-- The lead bytes of longer sequences, as numbers. -/
theorem leads_bounds {b0 b1 : UInt8} :
    (leads2 b0 b1 = true → 0xC2 ≤ b0.toNat ∧ b0.toNat ≤ 0xDF ∧ continues b1 = true) ∧
      (leads3 b0 b1 = true → 0xE0 ≤ b0.toNat ∧ b0.toNat ≤ 0xEF) ∧
      (leads4 b0 b1 = true → 0xF0 ≤ b0.toNat ∧ b0.toNat ≤ 0xF4) := by
  refine ⟨fun lead => ?_, fun lead => ?_, fun lead => ?_⟩
  · simp only [leads2, Bool.and_eq_true, decide_eq_true_eq] at lead
    exact ⟨UInt8.le_iff_toNat_le.mp lead.1.1, UInt8.le_iff_toNat_le.mp lead.1.2, lead.2⟩
  · simp only [leads3, Bool.or_eq_true, Bool.and_eq_true, beq_iff_eq, decide_eq_true_eq,
      UInt8.le_iff_toNat_le, ← UInt8.toNat_inj] at lead
    simp only [UInt8.reduceToNat] at lead
    omega
  · simp only [leads4, Bool.or_eq_true, Bool.and_eq_true, beq_iff_eq, decide_eq_true_eq,
      UInt8.le_iff_toNat_le, ← UInt8.toNat_inj] at lead
    simp only [UInt8.reduceToNat] at lead
    omega

/-- A byte from 128 on does not stand for itself. -/
theorem not_ascii {b0 : UInt8} (high : 0x80 ≤ b0.toNat) : ¬ b0 < 0x80 := by
  rw [UInt8.lt_iff_toNat_lt]
  exact Nat.not_lt.mpr high

/-- A byte that leads a longer sequence leads no sequence of two. -/
theorem not_leads2 {b0 : UInt8} (high : 0xE0 ≤ b0.toNat) (b1 : UInt8) : leads2 b0 b1 = false := by
  apply Bool.eq_false_iff.mpr
  intro lead
  have low := (leads_bounds.1 lead).2.1
  omega

/-- A lead byte of four bytes is none of three. -/
theorem not_leads3 {b0 : UInt8} (high : 0xF0 ≤ b0.toNat) (b1 : UInt8) : leads3 b0 b1 = false := by
  apply Bool.eq_false_iff.mpr
  intro lead
  have low := (leads_bounds.2.1 lead).2
  omega

theorem valid_two {b0 b1 : UInt8} (lead : leads2 b0 b1 = true) (rest : Bytes) :
    valid (b0 :: b1 :: rest) = valid rest := by
  have bounds := leads_bounds.1 lead
  rw [valid.eq_def]
  simp [not_ascii (by omega : 0x80 ≤ b0.toNat), lead]

theorem valid_three {b0 b1 b2 : UInt8} (lead : leads3 b0 b1 = true)
    (more : continues b2 = true) (rest : Bytes) :
    valid (b0 :: b1 :: b2 :: rest) = valid rest := by
  have bounds := leads_bounds.2.1 lead
  rw [valid.eq_def]
  simp [not_ascii (by omega : 0x80 ≤ b0.toNat), not_leads2 bounds.1 b1, lead, more]

theorem valid_four {b0 b1 b2 b3 : UInt8} (lead : leads4 b0 b1 = true)
    (more : continues b2 = true) (last : continues b3 = true) (rest : Bytes) :
    valid (b0 :: b1 :: b2 :: b3 :: rest) = valid rest := by
  have bounds := leads_bounds.2.2 lead
  rw [valid.eq_def]
  simp [not_ascii (by omega : 0x80 ≤ b0.toNat),
    not_leads2 (by omega : 0xE0 ≤ b0.toNat) b1, not_leads3 bounds.1 b1, lead,
    more, last]

/-- A sequence of encoded code points, one after the other. -/
inductive Sequences : Bytes → Prop
  | nil : Sequences []
  | ascii {b0 : UInt8} {rest : Bytes} (small : b0 < 0x80) (behind : Sequences rest) :
    Sequences (b0 :: rest)
  | two {b0 b1 : UInt8} {rest : Bytes} (lead : leads2 b0 b1 = true) (behind : Sequences rest) :
    Sequences (b0 :: b1 :: rest)
  | three {b0 b1 b2 : UInt8} {rest : Bytes} (lead : leads3 b0 b1 = true)
      (last : continues b2 = true) (behind : Sequences rest) : Sequences (b0 :: b1 :: b2 :: rest)
  | four {b0 b1 b2 b3 : UInt8} {rest : Bytes} (lead : leads4 b0 b1 = true)
      (more : continues b2 = true) (last : continues b3 = true) (behind : Sequences rest) :
    Sequences (b0 :: b1 :: b2 :: b3 :: rest)

/-- A well-formed string can be taken apart into its sequences. -/
theorem valid_sequences {s : Bytes} (formed : valid s = true) : Sequences s := by
  fun_induction valid s with
  | case1 => exact .nil
  | case2 b0 rest small inductionHypothesis =>
    exact .ascii small (inductionHypothesis formed)
  | case3 => cases formed
  | case4 b0 _ b1 rest lead inductionHypothesis =>
    exact .two lead (inductionHypothesis formed)
  | case5 => cases formed
  | case6 b0 _ b1 _ b2 rest lead inductionHypothesis =>
    obtain ⟨first, last⟩ := Bool.and_eq_true_iff.mp lead
    exact .three first last (inductionHypothesis formed)
  | case7 => cases formed
  | case8 b0 _ b1 _ b2 _ b3 rest inductionHypothesis =>
    simp only [Bool.and_eq_true] at formed
    obtain ⟨⟨⟨lead, more⟩, last⟩, behind⟩ := formed
    exact .four lead more last (inductionHypothesis behind)

/-- Behind sequences everything is as well formed as it is by itself. -/
theorem Sequences.append {front : Bytes} (sequences : Sequences front) (rest : Bytes) :
    valid (front ++ rest) = valid rest := by
  induction sequences with
  | nil => rfl
  | ascii small behind inductionHypothesis => exact (valid_ascii small).trans inductionHypothesis
  | two lead behind inductionHypothesis => exact (valid_two lead _).trans inductionHypothesis
  | three lead last behind inductionHypothesis =>
    exact (valid_three lead last _).trans inductionHypothesis
  | four lead more last behind inductionHypothesis =>
    exact (valid_four lead more last _).trans inductionHypothesis

/-- What can be taken apart into sequences is well formed. -/
theorem Sequences.formed {s : Bytes} (sequences : Sequences s) : valid s = true := by
  have whole := sequences.append []
  rwa [List.append_nil] at whole

/-- What follows well-formed bytes decides about the whole. -/
theorem valid_append {front : Bytes} (formed : valid front = true) (rest : Bytes) :
    valid (front ++ rest) = valid rest :=
  (valid_sequences formed).append rest

end Cppboot.Utf8
