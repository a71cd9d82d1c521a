import Cppboot.RequestEncoding

/-!
# Percent-decoding

`UrlDecode` hands the two characters behind a percent sign to the extraction of a
hexadecimal number and steps over both of them, whatever the extraction has read.
So it also takes a digit with anything behind it, except `0x`, and a blank or a
sign with a digit behind it, and it decodes a string exactly when it has no such
escape or rejects another one.

A broken escape ends the decoding, and the output keeps what precedes it. The
parser does not look at the failure: a request with a broken escape is accepted,
with a URI that ends where the escape was.
-/

namespace Cppboot.Http

open Incremental TcpConnection

/-- The two characters behind a percent sign, if there are two. -/
abbrev Escape := Option (UInt8 × UInt8)

/-- The escapes of a string, none of them inside another. -/
def escapes : Bytes → List Escape
  | [] => []
  | c :: rest =>
    if c = byte '%' then
      match rest with
      | high :: low :: more => some (high, low) :: escapes more
      | _ => [none]
    else escapes rest

def isHex (c : UInt8) : Bool := (hexDigit c).isSome

/-- What an escape should be. -/
def TwoDigits : Escape → Prop
  | some (high, low) => isHex high = true ∧ isHex low = true
  | none => False

/-- What the extraction takes: a digit with anything behind it, except `0x`, or a
blank or a sign and a digit. -/
def Extracted : Escape → Prop
  | some (high, low) =>
    (isHex high = true ∧ ¬ (high = byte '0' ∧ (low = byte 'x' ∨ low = byte 'X'))) ∨
      ((isSpace high = true ∨ high = byte '-' ∨ high = byte '+') ∧ isHex low = true)
  | none => False

instance (escape : Escape) : Decidable (TwoDigits escape) := by
  cases escape <;> unfold TwoDigits <;> infer_instance

instance (escape : Escape) : Decidable (Extracted escape) := by
  cases escape <;> unfold Extracted <;> infer_instance

/-- The string with every escape replaced by its byte and every plus sign by a
blank. -/
def percentDecode : Bytes → Bytes
  | [] => []
  | c :: rest =>
    if c = byte '%' then
      match rest with
      | high :: low :: more =>
        UInt8.ofNat ((hexDigit high).getD 0 * 16 + (hexDigit low).getD 0) :: percentDecode more
      | _ => c :: rest
    else if c = byte '+' then sp :: percentDecode rest
    else c :: percentDecode rest

/-- What has a value as a digit is a digit. -/
theorem isHex_of_digit {c : UInt8} {value : Nat} (digit : hexDigit c = some value) :
    isHex c = true := by
  rw [isHex, digit]
  rfl

/-- A digit is neither a blank nor a sign. -/
theorem isHex_bare {c : UInt8} (hex : isHex c = true) :
    isSpace c = false ∧ c ≠ byte '-' ∧ c ≠ byte '+' := by
  have all : ∀ c, isHex c = true → isSpace c = false ∧ c ≠ byte '-' ∧ c ≠ byte '+' :=
    every_byte (by decide +kernel)
  exact all c hex

theorem hexNumber_single (c : UInt8) : hexNumber [c] = hexDigit c := by
  cases digit : hexDigit c with
  | none => simp [hexNumber, digit]
  | some value => simp [hexNumber, digit]

/-- A number of two characters. -/
theorem hexNumber_pair (high low : UInt8) :
    hexNumber [high, low] =
      if high = byte '0' ∧ (low = byte 'x' ∨ low = byte 'X') then none
      else (hexDigit high).map fun first => (hexDigit low).elim first (first * 16 + ·) := by
  unfold hexNumber
  dsimp only
  split
  next => rfl
  next =>
    cases first : hexDigit high with
    | none => simp [first]
    | some value =>
      cases second : hexDigit low with
      | none => simp [first, second]
      | some other => simp [first, second]

/-- A character that is no digit. -/
theorem hexDigit_none {c : UInt8} (other : isHex c = false) : hexDigit c = none := by
  simpa [isHex] using other

/-- The extraction from two characters. -/
theorem readHex_pair (high low : UInt8) :
    readHex [high, low] =
      if isSpace high = true ∨ high = byte '+' then (hexDigit low).map fun n : Nat => (n : Int)
      else if high = byte '-' then (hexDigit low).map fun n : Nat => -(n : Int)
      else (hexNumber [high, low]).map fun n : Nat => (n : Int) := by
  by_cases blank : isSpace high = true
  · cases hex : isHex low with
    | true =>
      obtain ⟨solid, minus, plus⟩ := isHex_bare hex
      simp only [readHex, List.dropWhile_cons, blank, solid, minus, plus, hexNumber_single,
        if_true, if_false, true_or, Bool.false_eq_true]
      cases hexDigit low <;> rfl
    | false =>
      have digitless := hexDigit_none hex
      by_cases another : isSpace low = true
      · simp [readHex, blank, another, digitless]
      · have nothing : hexNumber [] = none := rfl
        simp [readHex, blank, another, digitless, nothing, hexNumber_single]
  · by_cases plus : high = byte '+'
    · subst plus
      have solid : isSpace (byte '+') = false := rfl
      have apart : byte '+' ≠ byte '-' := by decide
      simp only [readHex, List.dropWhile_cons, solid, apart, hexNumber_single, if_true, if_false,
        or_true, Bool.false_eq_true]
      cases hexDigit low <;> rfl
    · by_cases minus : high = byte '-'
      · subst minus
        have solid : isSpace (byte '-') = false := rfl
        simp only [readHex, List.dropWhile_cons, solid, plus, hexNumber_single, if_true, if_false,
          or_false, Bool.false_eq_true]
        cases hexDigit low <;> rfl
      · simp only [readHex, List.dropWhile_cons, blank, plus, minus, if_false, or_false,
          Bool.false_eq_true]
        cases hexNumber [high, low] <;> rfl

/-- The extraction takes what it is said to take. -/
theorem readHex_isSome (high low : UInt8) :
    (readHex [high, low]).isSome = true ↔ Extracted (some (high, low)) := by
  rw [readHex_pair, Extracted]
  simp only [apply_ite Option.isSome, Option.isSome_map]
  cases hex : isHex high with
  | true =>
    obtain ⟨solid, minus, plus⟩ := isHex_bare hex
    have unsigned : ¬ (isSpace high = true ∨ high = byte '+') := by simp [solid, plus]
    have bare : ¬ (isSpace high = true ∨ high = byte '-' ∨ high = byte '+') := by
      simp [solid, minus, plus]
    rw [if_neg unsigned, if_neg minus, hexNumber_pair]
    split
    next marked =>
      refine iff_of_false Bool.false_ne_true ?_
      rintro (plain | signed)
      · exact plain.2 marked
      · exact bare signed.1
    next unmarked => simpa [unmarked, isHex] using hex
  | false =>
    rw [hexNumber_pair, hexDigit_none hex]
    by_cases sign : isSpace high = true ∨ high = byte '+'
    · have signed : isSpace high = true ∨ high = byte '-' ∨ high = byte '+' := sign.imp_right .inr
      simp [sign, signed, isHex]
    · by_cases minus : high = byte '-'
      · simp [minus, isHex]
      · push Not at sign
        simp [sign, minus]

/-- Two digits are taken for the number they spell. -/
theorem readHex_digits {high low : UInt8} (digits : TwoDigits (some (high, low))) :
    readHex [high, low] =
      some (((hexDigit high).getD 0 * 16 + (hexDigit low).getD 0 : Nat) : Int) := by
  obtain ⟨solid, minus, plus⟩ := isHex_bare digits.1
  obtain ⟨first, high_digit⟩ := Option.isSome_iff_exists.mp digits.1
  obtain ⟨second, low_digit⟩ := Option.isSome_iff_exists.mp digits.2
  have unmarked : ¬ (high = byte '0' ∧ (low = byte 'x' ∨ low = byte 'X')) := by
    rintro ⟨_, rfl | rfl⟩
    · cases low_digit
    · cases low_digit
  rw [readHex_pair, hexNumber_pair]
  simp [solid, minus, plus, unmarked, high_digit, low_digit]

/-- Every escape is two digits. -/
def WellEscaped (input : Bytes) : Prop := ∀ escape ∈ escapes input, TwoDigits escape

/-- What is an escape of two digits is taken. -/
theorem TwoDigits.extracted {escape : Escape} (digits : TwoDigits escape) : Extracted escape := by
  cases escape with
  | none => exact digits
  | some pair =>
    rw [← readHex_isSome, readHex_digits digits]
    rfl

theorem escapes_other {c : UInt8} (other : c ≠ byte '%') (rest : Bytes) :
    escapes (c :: rest) = escapes rest := by
  conv_lhs => unfold escapes
  exact if_neg other

theorem urlDecodeFrom_other {c : UInt8} (other : c ≠ byte '%') (out rest : Bytes) :
    urlDecodeFrom out (c :: rest) =
      urlDecodeFrom (out ++ [if c = byte '+' then sp else c]) rest := by
  conv_lhs => unfold urlDecodeFrom
  rw [if_neg other]
  split <;> rfl

theorem percentDecode_other {c : UInt8} (other : c ≠ byte '%') (rest : Bytes) :
    percentDecode (c :: rest) = (if c = byte '+' then sp else c) :: percentDecode rest := by
  conv_lhs => unfold percentDecode
  rw [if_neg other]
  split <;> rfl

/-- A percent sign with too little behind it is an escape, and decoding ends
there. -/
theorem escape_cut {rest : Bytes} (short : ∀ high low more, rest ≠ high :: low :: more) :
    escapes (byte '%' :: rest) = [none] ∧
      ∀ out, urlDecodeFrom out (byte '%' :: rest) = (false, out) := by
  match rest with
  | [] => exact ⟨rfl, fun _ => rfl⟩
  | [_] => exact ⟨rfl, fun _ => rfl⟩
  | high :: low :: more => exact absurd rfl (short high low more)

/-- Decoding succeeds exactly when every escape is taken. -/
theorem urlDecodeFrom_succeeds (out input : Bytes) :
    (urlDecodeFrom out input).1 = true ↔ ∀ escape ∈ escapes input, Extracted escape := by
  induction input using escapes.induct generalizing out with
  | case1 => simp [escapes, urlDecodeFrom]
  | case2 high low more inductionHypothesis =>
    rw [urlDecodeFrom, if_pos rfl, escapes, if_pos rfl, List.forall_mem_cons, ← readHex_isSome]
    cases readHex [high, low] with
    | none => simp
    | some value => simp [inductionHypothesis]
  | case3 rest short =>
    obtain ⟨cut, ended⟩ := escape_cut short
    rw [cut, ended]
    simp [Extracted]
  | case4 c rest other inductionHypothesis =>
    rw [urlDecodeFrom_other other, escapes_other other]
    exact inductionHypothesis _

/-- Storing a number in a character keeps its last eight bits. -/
theorem ofNat_emod (n : Nat) : UInt8.ofNat ((n : Int) % 256).toNat = UInt8.ofNat n := by
  have reduced : ((n : Int) % 256).toNat = n % 2 ^ 8 := by omega
  rw [reduced, UInt8.ofNat_mod_size]

/-- Where every escape is two digits, the output is the string decoded. -/
theorem urlDecodeFrom_output (out input : Bytes) (well : WellEscaped input) :
    (urlDecodeFrom out input).2 = out ++ percentDecode input := by
  induction input using escapes.induct generalizing out with
  | case1 => simp [percentDecode, urlDecodeFrom]
  | case2 high low more inductionHypothesis =>
    rw [WellEscaped, escapes, if_pos rfl, List.forall_mem_cons] at well
    rw [urlDecodeFrom, if_pos rfl, readHex_digits well.1, percentDecode, if_pos rfl]
    dsimp only
    rw [inductionHypothesis _ well.2, List.append_assoc, ofNat_emod]
    rfl
  | case3 rest short =>
    rw [WellEscaped, (escape_cut short).1] at well
    exact (well none (List.mem_singleton_self _)).elim
  | case4 c rest other inductionHypothesis =>
    rw [WellEscaped, escapes_other other] at well
    rw [urlDecodeFrom_other other, percentDecode_other other, inductionHypothesis _ well,
      List.append_assoc]
    rfl

/-- `UrlDecode` accepts this string exactly when its escapes are two digits each,
and decodes it then. -/
def DecodesExactly (input : Bytes) : Prop :=
  ((urlDecode input).1 = true ↔ WellEscaped input) ∧
    ((urlDecode input).1 = true → (urlDecode input).2 = percentDecode input)

/-- Percent-decoding is exact unless every escape is taken and one of them is not
two digits. -/
theorem decodes_exactly_iff (input : Bytes) :
    DecodesExactly input ↔
      WellEscaped input ∨ ∃ escape ∈ escapes input, ¬ Extracted escape := by
  have succeeds : (urlDecode input).1 = true ↔ ∀ escape ∈ escapes input, Extracted escape :=
    urlDecodeFrom_succeeds [] input
  constructor
  · rintro ⟨exact_result, _⟩
    by_cases all : ∀ escape ∈ escapes input, Extracted escape
    · exact .inl (exact_result.mp (succeeds.mpr all))
    · push Not at all
      exact .inr all
  · rintro (well | ⟨escape, member, rejected⟩)
    · have taken : (urlDecode input).1 = true :=
        succeeds.mpr fun escape member => (well escape member).extracted
      exact ⟨iff_of_true taken well, fun _ => urlDecodeFrom_output [] input well⟩
    · have failed : ¬ (urlDecode input).1 = true := fun taken =>
        rejected (succeeds.mp taken escape member)
      refine ⟨iff_of_false failed fun well => ?_, fun taken => absurd taken failed⟩
      exact rejected (well escape member).extracted

/-- A digit and a letter behind it are taken for the digit. -/
theorem digit_and_letter_taken : ¬ DecodesExactly (text "%1g") := by
  rintro ⟨exact_result, _⟩
  have taken : (urlDecode (text "%1g")).1 = true := by decide +kernel
  have broken : ¬ TwoDigits (some (byte '1', byte 'g')) := by decide +kernel
  have member : some (byte '1', byte 'g') ∈ escapes (text "%1g") := by decide +kernel
  exact broken (exact_result.mp taken _ member)

/-- Accepting a request decodes its URI as far as that goes. -/
theorem accept_uri (r : Reading) (rest : Bytes) :
    (r.accept rest).req.uri = (urlDecode r.req.uri).2 := by
  simp only [Reading.accept, Request.parseUri]
  split <;> rfl

/-- An accepted request has a fully decoded URI exactly when the extraction takes
every escape of the URI it was sent with. -/
theorem accepted_uri_decoded_iff {bytes : Bytes} {parsed : Parsed}
    (read : Reading.fresh.parse bytes = some parsed) (good : parsed.result = .good) :
    (∃ (head : RequestHead) (rest : Bytes), bytes = head.bytes ++ rest) ∧
    ∀ (head : RequestHead) (rest : Bytes), bytes = head.bytes ++ rest →
      (((urlDecode head.uri).1 = true ∧ parsed.reading.req.uri = (urlDecode head.uri).2) ↔
        ∀ escape ∈ escapes head.uri, Extracted escape) := by
  refine ⟨accepted_head read good, fun head rest split => ?_⟩
  rw [split, Reading.parse_eq, Reading.scan_head] at read
  have decoded : parsed.reading.req.uri = (urlDecode head.uri).2 := by
    rw [← Option.some.inj read]
    exact accept_uri _ _
  rw [and_iff_left decoded]
  exact urlDecodeFrom_succeeds [] head.uri

/-- A head of one line. -/
def getHead (uri : Bytes) (plain : ∀ c ∈ uri, isCtl c = false ∧ c ≠ sp) : RequestHead where
  method := text "GET"
  uri := uri
  major := [byte '1']
  minor := [byte '0']
  fields := []
  method_nonempty := by decide +kernel
  method_token := by decide +kernel
  uri_plain := plain
  major_nonempty := by decide +kernel
  major_digits := by decide +kernel
  minor_nonempty := by decide +kernel
  minor_digits := by decide +kernel

/-- What `parse` makes of a head and nothing behind it. -/
theorem parse_head (head : RequestHead) :
    Reading.fresh.parse head.bytes =
      some ⟨.good, [], Reading.accept ⟨.expecting_newline_3, head.request⟩ []⟩ := by
  have ran := Reading.scan_head head []
  rw [List.append_nil] at ran
  rw [Reading.parse_eq, ran]
  rfl

/-- A request for `/a/b` with its slash escaped. -/
def escapedHead : RequestHead := getHead (text "/a%2fb") (by decide +kernel)

/-- A request with an escape that is not of two digits. -/
def brokenHead : RequestHead := getHead (text "/a%zz/b") (by decide +kernel)

/-- The URI of a request with a proper escape is decoded. -/
theorem escaped_head_decoded :
    ∃ parsed, Reading.fresh.parse escapedHead.bytes = some parsed ∧ parsed.result = .good ∧
      (urlDecode escapedHead.uri).1 = true ∧
      parsed.reading.req.uri = (urlDecode escapedHead.uri).2 := by
  refine ⟨_, parse_head escapedHead, rfl, ?_⟩
  have decoded := (accepted_uri_decoded_iff (parse_head escapedHead) rfl).2 escapedHead []
    (List.append_nil _).symm
  have only : escapes escapedHead.uri = [some (byte '2', byte 'f')] := by decide +kernel
  rw [only] at decoded
  apply decoded.mpr
  intro escape member
  rw [List.mem_singleton.mp member]
  exact .inl (by decide +kernel)

/-- A request with a broken escape is accepted, and a handler sees the path in
front of it. -/
theorem broken_head_accepted :
    brokenHead.bytes = text "GET /a%zz/b HTTP/1.0\r\n\r\n" ∧
    ∃ parsed, Reading.fresh.parse brokenHead.bytes = some parsed ∧ parsed.result = .good ∧
      (urlDecode brokenHead.uri).1 = false ∧ parsed.reading.req.path = text "/a" :=
  ⟨by decide +kernel, _, parse_head brokenHead, rfl, by decide +kernel, by decide +kernel⟩

end Cppboot.Http
