import Cppboot.Calendar
import Cppboot.FixedWidth

/-!
# Points in time

A timestamp counts microseconds from the beginning of 1970, and is printed as a number of
seconds or as a date and a time of day. Texts are compared byte by byte, wherever names or
keys are sorted, so it matters that the formatted texts sort like the timestamps: from 1970
on, as long as the year has four digits. Without the microseconds they sort like the
seconds.

Division in the source rounds towards zero. Before 1970 the seconds are rounded up
therefore, and the microseconds have a sign of their own.
-/

namespace Cppboot

open Decimal

/-- Microseconds since the beginning of 1970. -/
structure Timestamp where
  micro_seconds_since_epoch_ : Int
deriving DecidableEq

/-- What `gmtime_r` fills in. -/
structure Tm where
  date : Date
  tm_hour : Nat
  tm_min : Nat
  tm_sec : Nat

theorem january : 1 ≤ 1 ∧ 1 ≤ 12 := by
  decide

/-- The first day of 1970. -/
def epoch : Date := .first 1970 1 january

/-- The date and the time of day in UTC. -/
def gmtime (seconds : Int) : Tm :=
  let rest := (seconds % 86400).toNat
  ⟨epoch.plus (seconds / 86400), rest / 3600, rest / 60 % 60, rest % 60⟩

/-- A number in a field of some width, filled up with zeros behind the sign, or with
blanks in front of it. -/
def formatField (zeros : Bool) (width : Nat) (n : Int) : Bytes :=
  let sign := if n < 0 then text "-" else []
  let digits := numeral n.natAbs
  let fill := width - (sign ++ digits).length
  if zeros then sign ++ List.replicate fill (byte '0') ++ digits
  else List.replicate fill (byte ' ') ++ sign ++ digits

namespace Timestamp

def kMicroSecondsPerSecond : Int := 1000 * 1000

/-- `Timestamp()` and `Invalid`. -/
def invalid : Timestamp := ⟨0⟩

def isValid (t : Timestamp) : Bool := t.micro_seconds_since_epoch_ > 0

def seconds_since_epoch (t : Timestamp) : Int :=
  t.micro_seconds_since_epoch_.tdiv kMicroSecondsPerSecond

def microseconds (t : Timestamp) : Int := t.micro_seconds_since_epoch_.tmod kMicroSecondsPerSecond

def fromUnixTime (t microseconds : Int) : Timestamp := ⟨t * kMicroSecondsPerSecond + microseconds⟩

/-- `ToString`. -/
def toString (t : Timestamp) : Bytes :=
  formatField false 0 t.seconds_since_epoch ++ text "." ++ formatField true 6 t.microseconds

/-- `ToFormattedString`. -/
def toFormattedString (t : Timestamp) (show_microseconds : Bool) : Bytes :=
  let tm_time := gmtime t.seconds_since_epoch
  formatField false 4 tm_time.date.year ++
    (formatField true 2 tm_time.date.month ++ (formatField true 2 tm_time.date.day ++
      (text " " ++ (formatField true 2 tm_time.tm_hour ++ (text ":" ++
        (formatField true 2 tm_time.tm_min ++ (text ":" ++ (formatField true 2 tm_time.tm_sec ++
          if show_microseconds then text "." ++ formatField true 6 t.microseconds else []))))))))

end Timestamp

/-- A number that is not negative is filled up with zeros. -/
theorem formatField_zeros (width n : Nat) : formatField true width n = padded width n := by
  have positive : ¬ (n : Int) < 0 := by omega
  rw [formatField, if_neg positive]
  rfl

/-- A number that needs the whole width is not filled up. -/
theorem formatField_whole {width n : Nat} (whole : (numeral n).length = width) :
    formatField false width n = padded width n := by
  have positive : ¬ (n : Int) < 0 := by omega
  rw [formatField, if_neg positive, padded]
  simp only [List.nil_append, Int.natAbs_natCast, whole, Nat.sub_self, List.replicate_zero,
    Bool.false_eq_true, if_false]

/-- What two texts begin with alike does not matter. -/
theorem behind_lt_iff (front rest more : Bytes) : front ++ rest < front ++ more ↔ rest < more := by
  induction front with
  | nil => rfl
  | cons c front inductionHypothesis =>
    rw [List.cons_append, List.cons_append, List.cons_lt_cons_iff, inductionHypothesis]
    simp [UInt8.lt_irrefl]

namespace Tm

/-- The date and the time of day as text, in front of something else. -/
def spelled (tm_time : Tm) (rest : Bytes) : Bytes :=
  formatField false 4 tm_time.date.year ++
    (formatField true 2 tm_time.date.month ++ (formatField true 2 tm_time.date.day ++
      (text " " ++ (formatField true 2 tm_time.tm_hour ++ (text ":" ++
        (formatField true 2 tm_time.tm_min ++ (text ":" ++
          (formatField true 2 tm_time.tm_sec ++ rest))))))))

/-- The year has four digits. -/
def FourDigits (tm_time : Tm) : Prop := 1000 ≤ tm_time.date.year ∧ tm_time.date.year ≤ 9999

instance (tm_time : Tm) : Decidable tm_time.FourDigits := inferInstanceAs (Decidable (_ ∧ _))

/-- The time of day is one. -/
structure OnClock (tm_time : Tm) : Prop where
  hour : tm_time.tm_hour < 10 ^ 2
  min : tm_time.tm_min < 10 ^ 2
  sec : tm_time.tm_sec < 10 ^ 2

/-- A time of day has two digits in each field. -/
theorem gmtime_onClock (seconds : Int) : (gmtime seconds).OnClock := by
  have day : (seconds % 86400).toNat < 86400 := by omega
  refine ⟨?_, ?_, ?_⟩
  · exact (Nat.div_lt_of_lt_mul (show _ < 3600 * 24 from day)).trans (by decide)
  · exact (Nat.mod_lt _ (by decide)).trans (by decide)
  · exact (Nat.mod_lt _ (by decide)).trans (by decide)

/-- A year of four digits is written like a number of four digits. -/
theorem FourDigits.written {tm_time : Tm} (four : tm_time.FourDigits) :
    ∃ year : Nat, tm_time.date.year = year ∧ year < 10 ^ 4 ∧
      formatField false 4 tm_time.date.year = padded 4 year := by
  obtain ⟨low, high⟩ := four
  obtain ⟨year, same⟩ := Int.eq_ofNat_of_zero_le (show 0 ≤ tm_time.date.year by omega)
  rw [same] at low high
  have fits : year < 10 ^ 4 := by omega
  refine ⟨year, same, fits, ?_⟩
  rw [same]
  refine formatField_whole (Nat.le_antisymm ?_ ?_)
  · rw [numeral, List.length_map]
    exact (Nat.length_toDigits_le_iff (by decide) (by decide)).mpr fits
  · by_contra short
    have three : (numeral year).length ≤ 3 := by omega
    rw [numeral, List.length_map] at three
    have small := (Nat.length_toDigits_le_iff (by decide) (by decide)).mp three
    omega

/-- Three comparisons, one after the other, are one of triples. -/
theorem in_turn_iff {a b c a' b' c' rest : Prop} :
    (a ∨ a' ∧ (b ∨ b' ∧ (c ∨ c' ∧ rest))) ↔
      (a ∨ a' ∧ (b ∨ b' ∧ c)) ∨ (a' ∧ b' ∧ c') ∧ rest := by
  tauto

/-- Texts with a year of four digits sort by the date, then by the time of day, and then by
what follows. -/
theorem spelled_lt_iff {one other : Tm} (four : one.FourDigits) (four_other : other.FourDigits)
    (clock : one.OnClock) (clock_other : other.OnClock) (rest more : Bytes) :
    one.spelled rest < other.spelled more ↔
      one.date.key < other.date.key ∨ one.date.key = other.date.key ∧
        (one.tm_hour < other.tm_hour ∨ one.tm_hour = other.tm_hour ∧
          (one.tm_min < other.tm_min ∨ one.tm_min = other.tm_min ∧
            (one.tm_sec < other.tm_sec ∨ one.tm_sec = other.tm_sec ∧ rest < more))) := by
  obtain ⟨year, same, fits, written⟩ := four.written
  obtain ⟨year_other, same_other, fits_other, written_other⟩ := four_other.written
  have month (d : Date) : d.month < 10 ^ 2 := by
    have := d.has_month.2
    omega
  have day (d : Date) : d.day < 10 ^ 2 := by
    have := d.has_day.2.trans (monthLength_le d.year d.month)
    omega
  have before : one.date.key < other.date.key ↔ year < year_other ∨ year = year_other ∧
      (one.date.month < other.date.month ∨
        one.date.month = other.date.month ∧ one.date.day < other.date.day) := by
    rw [Date.key, Date.key, Prod.Lex.toLex_lt_toLex, Prod.Lex.toLex_lt_toLex, same, same_other]
    simp only [Nat.cast_lt, Nat.cast_inj]
  have at_ : one.date.key = other.date.key ↔ year = year_other ∧
      one.date.month = other.date.month ∧ one.date.day = other.date.day := by
    rw [Date.key, Date.key, same, same_other]
    simp only [toLex_inj, Prod.mk.injEq, Nat.cast_inj]
  rw [spelled, spelled, written, written_other]
  simp only [formatField_zeros]
  rw [padded_lt_iff (by decide) fits fits_other,
    padded_lt_iff (by decide) (month one.date) (month other.date),
    padded_lt_iff (by decide) (day one.date) (day other.date), behind_lt_iff,
    padded_lt_iff (by decide) clock.hour clock_other.hour, behind_lt_iff,
    padded_lt_iff (by decide) clock.min clock_other.min, behind_lt_iff,
    padded_lt_iff (by decide) clock.sec clock_other.sec, before, at_]
  exact in_turn_iff

end Tm

/-- Dates and times of day sort like the seconds they are of. -/
theorem gmtime_lt_iff (one other : Int) (rest : Prop) :
    ((gmtime one).date.key < (gmtime other).date.key ∨
        (gmtime one).date.key = (gmtime other).date.key ∧
        ((gmtime one).tm_hour < (gmtime other).tm_hour ∨
          (gmtime one).tm_hour = (gmtime other).tm_hour ∧
          ((gmtime one).tm_min < (gmtime other).tm_min ∨
            (gmtime one).tm_min = (gmtime other).tm_min ∧
            ((gmtime one).tm_sec < (gmtime other).tm_sec ∨
              (gmtime one).tm_sec = (gmtime other).tm_sec ∧ rest)))) ↔
      one < other ∨ one = other ∧ rest := by
  have days := epoch.plus_strictMono
  have before : (gmtime one).date.key < (gmtime other).date.key ↔ one / 86400 < other / 86400 :=
    days.lt_iff_lt
  have same : (gmtime one).date.key = (gmtime other).date.key ↔ one / 86400 = other / 86400 :=
    days.injective.eq_iff
  rw [before, same]
  simp only [gmtime]
  by_cases behind : rest
  · simp only [behind, and_true]
    omega
  · simp only [behind, and_false, or_false]
    omega

namespace Timestamp

/-- The year has four digits, and it is 1970 or later. -/
structure Printable (t : Timestamp) : Prop where
  begun : 0 ≤ t.micro_seconds_since_epoch_
  four : (gmtime t.seconds_since_epoch).FourDigits

theorem toFormattedString_eq (t : Timestamp) (show_microseconds : Bool) :
    t.toFormattedString show_microseconds = (gmtime t.seconds_since_epoch).spelled
      (if show_microseconds then text "." ++ formatField true 6 t.microseconds else []) :=
  rfl

/-- From 1970 on the microseconds are a number below a million. -/
theorem Printable.parts {t : Timestamp} (printable : t.Printable) :
    t.seconds_since_epoch = t.micro_seconds_since_epoch_ / 1000000 ∧
      ∃ micro : Nat, t.micro_seconds_since_epoch_ % 1000000 = micro ∧ micro < 10 ^ 6 ∧
        formatField true 6 t.microseconds = padded 6 micro := by
  have rest := Int.emod_nonneg t.micro_seconds_since_epoch_ (show (1000000 : Int) ≠ 0 by decide)
  have fits := Int.emod_lt_of_pos t.micro_seconds_since_epoch_ (show 0 < (1000000 : Int) by decide)
  obtain ⟨micro, same⟩ := Int.eq_ofNat_of_zero_le rest
  refine ⟨Int.tdiv_eq_ediv_of_nonneg printable.begun, micro, same, by omega, ?_⟩
  rw [microseconds, Int.tmod_eq_emod_of_nonneg printable.begun]
  change formatField true 6 (t.micro_seconds_since_epoch_ % 1000000) = _
  rw [same]
  exact formatField_zeros 6 micro

/-- Formatted timestamps sort like the timestamps, and without their microseconds like the
seconds, from 1970 on and as long as the year has four digits.

Proof: every field has its width, so the first field that differs decides; the date of a
later day is later, and the rest is the remainder of the division. -/
theorem formatted_sorted {one other : Timestamp} (printable : one.Printable)
    (printable_other : other.Printable) :
    (one.toFormattedString true < other.toFormattedString true ↔
        one.micro_seconds_since_epoch_ < other.micro_seconds_since_epoch_) ∧
      (one.toFormattedString false < other.toFormattedString false ↔
        one.seconds_since_epoch < other.seconds_since_epoch) := by
  obtain ⟨seconds, micro, same, fits, written⟩ := printable.parts
  obtain ⟨seconds_other, micro_other, same_other, fits_other, written_other⟩ :=
    printable_other.parts
  have last : text "." ++ formatField true 6 one.microseconds <
      text "." ++ formatField true 6 other.microseconds ↔ micro < micro_other := by
    have fields := padded_lt_iff (by decide) fits fits_other [] []
    rw [List.append_nil, List.append_nil] at fields
    rw [behind_lt_iff, written, written_other, fields]
    simp
  constructor
  · rw [toFormattedString_eq, toFormattedString_eq, Tm.spelled_lt_iff printable.four
      printable_other.four (Tm.gmtime_onClock _) (Tm.gmtime_onClock _), gmtime_lt_iff]
    simp only [if_true]
    rw [last, seconds, seconds_other]
    omega
  · rw [toFormattedString_eq, toFormattedString_eq, Tm.spelled_lt_iff printable.four
      printable_other.four (Tm.gmtime_onClock _) (Tm.gmtime_onClock _), gmtime_lt_iff]
    simp

/-- The last second of a leap day, and the first of March. -/
theorem leap_day_sorted :
    (Timestamp.fromUnixTime 68255999 999999).toFormattedString true = text
        "19720229 23:59:59.999999" ∧
      (Timestamp.fromUnixTime 68255999 999999).toFormattedString true <
        (Timestamp.fromUnixTime 68256000 0).toFormattedString true := by
  have leap_day : (Timestamp.fromUnixTime 68255999 999999).Printable :=
    ⟨by decide, by decide +kernel⟩
  have march : (Timestamp.fromUnixTime 68256000 0).Printable := ⟨by decide, by decide +kernel⟩
  exact ⟨by decide +kernel, (formatted_sorted leap_day march).1.mpr (by decide)⟩

end Timestamp

end Cppboot
