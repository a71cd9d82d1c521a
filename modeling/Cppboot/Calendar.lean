import Mathlib.Order.Monotone.Basic
import Mathlib.Data.Int.ConditionallyCompleteOrder
import Mathlib.Data.Int.SuccPred
import Mathlib.Data.Prod.Lex

/-!
# The calendar

Dates of the Gregorian calendar, carried on before its first year and after any last one.
A date comes with the proof that there is such a day. Every day has a next and a day
before, and these undo each other, so the days can be counted from any one of them in
both directions; of two days the later one has the later date.
-/

namespace Cppboot

/-- The year has a 29th of February. -/
def IsLeap (year : Int) : Prop := year % 4 = 0 ∧ (year % 100 ≠ 0 ∨ year % 400 = 0)

instance (year : Int) : Decidable (IsLeap year) := inferInstanceAs (Decidable (_ ∧ _))

/-- How many days a month has. -/
def monthLength (year : Int) (month : Nat) : Nat :=
  if month = 2 then if IsLeap year then 29 else 28
  else if month = 4 ∨ month = 6 ∨ month = 9 ∨ month = 11 then 30 else 31

theorem monthLength_pos (year : Int) (month : Nat) : 1 ≤ monthLength year month := by
  unfold monthLength
  split
  · split <;> decide
  · split <;> decide

theorem monthLength_le (year : Int) (month : Nat) : monthLength year month ≤ 31 := by
  unfold monthLength
  split
  · split <;> decide
  · split <;> decide

/-- A day of the calendar. Months and days are counted from one. -/
structure Date where
  year : Int
  month : Nat
  day : Nat
  has_month : 1 ≤ month ∧ month ≤ 12
  has_day : 1 ≤ day ∧ day ≤ monthLength year month
deriving DecidableEq

namespace Date

theorem ext_fields {one other : Date} (year : one.year = other.year)
    (month : one.month = other.month) (day : one.day = other.day) : one = other := by
  cases one
  cases other
  simp_all

/-- The first day of a month. -/
def first (year : Int) (month : Nat) (has_month : 1 ≤ month ∧ month ≤ 12) : Date :=
  ⟨year, month, 1, has_month, Nat.le_refl _, monthLength_pos year month⟩

/-- The last day of a month. -/
def last (year : Int) (month : Nat) (has_month : 1 ≤ month ∧ month ≤ 12) : Date :=
  ⟨year, month, monthLength year month, has_month, monthLength_pos year month, Nat.le_refl _⟩

def next (d : Date) : Date :=
  if more : d.day < monthLength d.year d.month then
    ⟨d.year, d.month, d.day + 1, d.has_month, Nat.le_add_left _ _, more⟩
  else if later : d.month < 12 then first d.year (d.month + 1) ⟨Nat.le_add_left _ _, later⟩
  else first (d.year + 1) 1 (by decide)

def previous (d : Date) : Date :=
  if more : 1 < d.day then
    ⟨d.year, d.month, d.day - 1, d.has_month, Nat.le_sub_one_of_lt more,
      (Nat.sub_le _ _).trans d.has_day.2⟩
  else if earlier : 1 < d.month then
    last d.year (d.month - 1) ⟨Nat.le_sub_one_of_lt earlier, (Nat.sub_le _ _).trans d.has_month.2⟩
  else last (d.year - 1) 12 (by decide)

/-- The day after the day before is the day itself. -/
theorem next_previous (d : Date) : d.previous.next = d := by
  obtain ⟨year, month, day, ⟨low, high⟩, begun, ended⟩ := d
  unfold previous
  split
  next more =>
    have still : day - 1 < monthLength year month := by omega
    rw [next, dif_pos still]
    exact ext_fields rfl rfl (Nat.sub_add_cancel begun)
  next no_more =>
    have one : day = 1 := by
      simp only at no_more
      omega
    split
    next earlier =>
      have within : month - 1 < 12 := by omega
      rw [last, next, dif_neg (Nat.lt_irrefl _), dif_pos within]
      exact ext_fields rfl (Nat.sub_add_cancel low) one.symm
    next no_earlier =>
      have january : month = 1 := by
        simp only at no_earlier
        omega
      rw [last, next, dif_neg (Nat.lt_irrefl _), dif_neg (Nat.lt_irrefl 12)]
      exact ext_fields (Int.sub_add_cancel year 1) january.symm one.symm

/-- The date as year, month and day, in this order. -/
def key (d : Date) : Int ×ₗ Nat ×ₗ Nat := toLex (d.year, toLex (d.month, d.day))

/-- The next day is later. -/
theorem key_lt_next (d : Date) : d.key < d.next.key := by
  unfold next
  split
  next => exact Prod.Lex.right _ (Prod.Lex.right _ (Nat.lt_succ_self _))
  next =>
    split
    next => exact Prod.Lex.right _ (Prod.Lex.left _ _ (Nat.lt_succ_self _))
    next => exact Prod.Lex.left _ _ (Int.lt_succ _)

/-- The date so many days after a date, or before it. -/
def plus (d : Date) : Int → Date
  | .ofNat days => next^[days] d
  | .negSucc days => previous^[days + 1] d

/-- One day more is the next day. -/
theorem plus_succ (d : Date) (days : Int) : d.plus (days + 1) = (d.plus days).next := by
  cases days with
  | ofNat days => exact Function.iterate_succ_apply' next days d
  | negSucc days =>
    cases days with
    | zero => exact (next_previous d).symm
    | succ days =>
      have before : d.plus (.negSucc (days + 1)) = (d.plus (.negSucc days)).previous :=
        Function.iterate_succ_apply' previous (days + 1) d
      rw [before, next_previous]
      rfl

/-- Of two days the later one has the later date. -/
theorem plus_strictMono (d : Date) : StrictMono fun days => (d.plus days).key := by
  refine strictMono_int_of_lt_succ fun days => ?_
  rw [plus_succ]
  exact key_lt_next _

end Date

end Cppboot
