import Cppboot.UrlDecode

/-!
# The numbers of an HTTP version

The two numbers of a version are read digit by digit into fields of 32 bits, and
nothing bounds how many digits there are. With one more digit the parser computes
`version * 10 + input - '0'` from left to right, so the sum is formed before the
code of zero is taken off it. The values that are formed on the way are listed
here as integers, and they all fit exactly when the number is at most 48 below the
largest `int`. Longer digit strings are accepted like any others.
-/

namespace Cppboot.Http

/-- The value fits in an `int`. -/
def FitsInt (v : Int) : Prop := -2147483648 ≤ v ∧ v ≤ 2147483647

instance (v : Int) : Decidable (FitsInt v) := inferInstanceAs (Decidable (_ ∧ _))

/-- The values that reading digits into a version number forms, one after another. -/
def partials (version : Int) : Bytes → List Int
  | [] => []
  | input :: rest =>
    [version * 10, version * 10 + input.toNat, version * 10 + input.toNat - 48] ++
      partials (version * 10 + input.toNat - 48) rest

/-- The version number is read without overflow, and it is the number of its digits. -/
def ReadExactly (digits : Bytes) (version : Option Int32) : Prop :=
  (∀ v ∈ partials 0 digits, FitsInt v) ∧
    ∃ n, version = some n ∧ n.toInt = Decimal.value digits

/-- The largest number that is read without overflow. -/
def maxVersion : Nat := 2147483647 - 48

/-- The number that more digits make of one. -/
def valueFrom (version : Nat) (digits : Bytes) : Nat :=
  digits.foldl (fun sum b => sum * 10 + (b.toNat - 48)) version

/-- More digits do not make a number smaller. -/
theorem le_valueFrom (version : Nat) (digits : Bytes) : version ≤ valueFrom version digits := by
  induction digits generalizing version with
  | nil => exact Nat.le_refl _
  | cons input rest inductionHypothesis =>
    calc
      version ≤ version * 10 + (input.toNat - 48) := by omega
      _ ≤ valueFrom (version * 10 + (input.toNat - 48)) rest := inductionHypothesis _

/-- A digit is a byte between the codes of zero and nine. -/
theorem isDigit_bounds {c : UInt8} (digit : isDigit c = true) : 48 ≤ c.toNat ∧ c.toNat ≤ 57 := by
  have all : ∀ c : UInt8, isDigit c = true → 48 ≤ c.toNat ∧ c.toNat ≤ 57 :=
    every_byte (by decide +kernel)
  exact all c digit

/-- Nothing overflows exactly when the number that comes out is small enough.

Proof: by induction on the digits. The sum of one digit is 48 more than the number
it gives, and later digits only make the number larger. -/
theorem partials_fit_iff {version : Nat} {digits : Bytes} (small : version ≤ maxVersion)
    (all : ∀ c ∈ digits, isDigit c = true) :
    (∀ v ∈ partials version digits, FitsInt v) ↔ valueFrom version digits ≤ maxVersion := by
  induction digits generalizing version with
  | nil => simpa [partials, valueFrom] using small
  | cons input rest inductionHypothesis =>
    obtain ⟨low, high⟩ := isDigit_bounds (all input (by simp))
    have others : ∀ c ∈ rest, isDigit c = true := fun c member => all c (by simp [member])
    have next : (version : Int) * 10 + input.toNat - 48 =
        (version * 10 + (input.toNat - 48) : Nat) := by omega
    have grows : valueFrom version (input :: rest) =
        valueFrom (version * 10 + (input.toNat - 48)) rest := rfl
    have later := le_valueFrom (version * 10 + (input.toNat - 48)) rest
    rw [grows]
    by_cases fits : version * 10 + (input.toNat - 48) ≤ maxVersion
    · rw [← inductionHypothesis fits others, partials, next]
      simp only [List.cons_append, List.nil_append, List.forall_mem_cons]
      constructor
      · rintro ⟨_, _, _, rest_fits⟩
        exact rest_fits
      · intro rest_fits
        unfold FitsInt
        unfold maxVersion at fits
        exact ⟨by omega, by omega, by omega, rest_fits⟩
    · have overflows : ¬ FitsInt ((version : Int) * 10 + input.toNat) := by
        unfold FitsInt
        unfold maxVersion at fits
        omega
      constructor
      · intro all_fit
        exact absurd (all_fit _ (by simp [partials])) overflows
      · intro bounded
        omega

/-- The field holds the number modulo 2^32. -/
theorem foldl_versionDigit (version : Nat) {digits : Bytes}
    (all : ∀ c ∈ digits, isDigit c = true) :
    digits.foldl versionDigit (some (Int32.ofNat version)) =
      some (Int32.ofNat (valueFrom version digits)) := by
  induction digits generalizing version with
  | nil => rfl
  | cons input rest inductionHypothesis =>
    obtain ⟨low, _⟩ := isDigit_bounds (all input (by simp))
    have step : versionDigit (some (Int32.ofNat version)) input =
        some (Int32.ofNat (version * 10 + (input.toNat - 48))) := by
      have sum : version * 10 + input.toNat = version * 10 + (input.toNat - 48) + 48 := by omega
      have ten : (10 : Int32) = Int32.ofNat 10 := rfl
      have zero : (48 : Int32) = Int32.ofNat 48 := rfl
      simp only [versionDigit, Option.map_some, ten, zero]
      rw [← Int32.ofNat_mul, ← Int32.ofNat_add, sum, Int32.ofNat_add _ 48, Int32.add_sub_cancel]
    rw [List.foldl_cons, step]
    exact inductionHypothesis _ fun c member => all c (by simp [member])

/-- The version that is stored is the value of its digits, as an `int`. -/
theorem versionOf_digits {digits : Bytes} (all : ∀ c ∈ digits, isDigit c = true) :
    versionOf digits = some (Int32.ofNat (Decimal.value digits)) :=
  foldl_versionDigit 0 all

/-- A version number is read exactly when it is small enough. -/
theorem readExactly_iff {digits : Bytes} (all : ∀ c ∈ digits, isDigit c = true) :
    ReadExactly digits (versionOf digits) ↔ Decimal.value digits ≤ maxVersion := by
  have fit := partials_fit_iff (Nat.zero_le maxVersion) all
  constructor
  · rintro ⟨fits, _⟩
    exact fit.mp fits
  · intro bounded
    refine ⟨fit.mpr bounded, _, versionOf_digits all, ?_⟩
    unfold maxVersion at bounded
    exact Int32.toInt_ofNat_of_lt (by omega)

/-- Accepting a request does not change its version. -/
theorem accept_version (r : Reading) (rest : Bytes) :
    (r.accept rest).req.http_version_major = r.req.http_version_major ∧
      (r.accept rest).req.http_version_minor = r.req.http_version_minor := by
  simp only [Reading.accept, Request.parseUri]
  split <;> exact ⟨rfl, rfl⟩

/-- The version of an accepted request is read without overflow exactly when both
of its numbers are small enough. -/
theorem accepted_version_exact_iff {bytes : Bytes} {parsed : Parsed}
    (read : Reading.fresh.parse bytes = some parsed) (good : parsed.result = .good) :
    (∃ (head : RequestHead) (rest : Bytes), bytes = head.bytes ++ rest) ∧
    ∀ (head : RequestHead) (rest : Bytes), bytes = head.bytes ++ rest →
      ((ReadExactly head.major parsed.reading.req.http_version_major ∧
          ReadExactly head.minor parsed.reading.req.http_version_minor) ↔
        Decimal.value head.major ≤ maxVersion ∧ Decimal.value head.minor ≤ maxVersion) := by
  refine ⟨accepted_head read good, fun head rest split => ?_⟩
  rw [split, Reading.parse_eq, Reading.scan_head] at read
  have version := accept_version ⟨.expecting_newline_3, head.request⟩ rest
  have major : parsed.reading.req.http_version_major = versionOf head.major := by
    rw [← Option.some.inj read]
    exact version.1
  have minor : parsed.reading.req.http_version_minor = versionOf head.minor := by
    rw [← Option.some.inj read]
    exact version.2
  rw [major, minor, readExactly_iff head.major_digits, readExactly_iff head.minor_digits]

/-- A head of one line with a version. -/
def versionHead (major minor : Bytes) (majors : major ≠ [] ∧ ∀ c ∈ major, isDigit c = true)
    (minors : minor ≠ [] ∧ ∀ c ∈ minor, isDigit c = true) : RequestHead :=
  { getHead (text "/") (by decide +kernel) with
    major := major
    minor := minor
    major_nonempty := majors.1
    major_digits := majors.2
    minor_nonempty := minors.1
    minor_digits := minors.2 }

/-- The version of an ordinary request. -/
def usualHead : RequestHead :=
  versionHead (text "1") (text "1") (by decide +kernel) (by decide +kernel)

def longHead : RequestHead :=
  versionHead (text "99999999999") (text "0") (by decide +kernel) (by decide +kernel)

/-- A version of two single digits is stored as it is. -/
theorem usual_version_exact :
    usualHead.bytes = text "GET / HTTP/1.1\r\n\r\n" ∧
    ∃ parsed, Reading.fresh.parse usualHead.bytes = some parsed ∧ parsed.result = .good ∧
      ReadExactly usualHead.major parsed.reading.req.http_version_major ∧
      ReadExactly usualHead.minor parsed.reading.req.http_version_minor := by
  refine ⟨by decide, _, parse_head usualHead, rfl, ?_⟩
  have exact_iff := (accepted_version_exact_iff (parse_head usualHead) rfl).2 usualHead []
    (List.append_nil _).symm
  exact exact_iff.mpr (by decide)

/-- Eleven digits are accepted, and the number overflows. -/
theorem long_version_accepted :
    longHead.bytes = text "GET / HTTP/99999999999.0\r\n\r\n" ∧
    ∃ parsed, Reading.fresh.parse longHead.bytes = some parsed ∧ parsed.result = .good ∧
      parsed.reading.req.http_version_major = some 1215752191 ∧
      ¬ ReadExactly longHead.major parsed.reading.req.http_version_major := by
  refine ⟨by decide, _, parse_head longHead, rfl, by decide, ?_⟩
  rintro ⟨fits, _⟩
  exact absurd (fits 9999999999 (by decide)) (by decide)

end Cppboot.Http
