import Cppboot.ArgsParse

/-!
# Flags with a number

An argument behind a flag is its value unless it begins with a dash, and the value
of a `Long` flag is looked at only when it is asked for. So a negative number is
refused as a flag without a value, and any other text is accepted; `GetLong` then
throws if there is no number at its front, and cuts off what follows the number if
there is one.
-/

namespace Cppboot.Args

open Std LastWins

/-- The flag that `AddLong` makes. -/
def longFlag (c : UInt8) (name : Bytes) (default_value : Int64) : ArgFlag :=
  ⟨.kLong, c, name, toText default_value⟩

/-- A flag that takes a value takes any text that does not begin with a dash. -/
theorem parse_pair {impl : Impl} {arg value : Bytes} {flag : ArgFlag}
    (dash : Impl.dashed arg = true) (found : impl.getFlag arg = some flag)
    (takes : flag.type ≠ .kBool) (nonempty : value ≠ []) :
    (impl.parse [arg, value]).1.ok = true ↔ Impl.dashed value = false := by
  constructor
  · intro accepted
    by_contra dashed
    have refused : (impl.parse [arg, value]).1.ok = false := by
      have body : Impl.withoutProgram [arg, value] = [arg, value] := if_pos dash
      simp only [Impl.parse, body, List.isEmpty_cons, Bool.false_eq_true, if_false, Impl.parseFrom,
        if_pos dash, found, if_neg takes, if_pos (Bool.not_eq_false _ ▸ dashed)]
      rfl
    rw [refused] at accepted
    cases accepted
  · intro plain
    exact ((usable_of_getFlag dash found).2 takes value nonempty plain).1

/-- The text of a number begins with a dash exactly when the number is negative. -/
theorem dashed_toText (n : Int64) : Impl.dashed (toText n) = true ↔ n.toInt < 0 := by
  unfold toText
  split
  next negative => exact iff_of_true rfl negative
  next positive =>
    refine iff_of_false ?_ positive
    obtain ⟨c, rest, split⟩ := List.exists_cons_of_ne_nil (Decimal.numeral_ne_nil n.toInt.natAbs)
    have digit := Decimal.numeral_digits n.toInt.natAbs c (split ▸ List.mem_cons_self)
    rw [split]
    have other : c ≠ byte '-' := (digit_plain c digit).1
    simpa [Impl.dashed] using other

theorem toText_ne_nil (n : Int64) : toText n ≠ [] := by
  unfold toText
  split
  · exact List.cons_ne_nil _ _
  · exact Decimal.numeral_ne_nil _

/-- `GetLong` returns the number that was given last, or the default. -/
def ReadsBack (impl : Impl) (name : Bytes) (default_value : Int64) (last : Option Bytes) : Prop :=
  ∃ n, getLong impl (some name) = some n ∧
    match last with
    | none => n = default_value
    | some v => decimalValue v = some n

/-- It does so exactly when the value that was given last is a decimal text. -/
theorem reads_back_iff {impl : Impl} {c : UInt8} {name : Bytes} {default_value : Int64}
    (long : impl.long_flags_[name]? = some (longFlag c name default_value)) {args : List Bytes}
    {given : List (Bytes × Bytes)} (items : Impl.Items impl (Impl.withoutProgram args) given) :
    ReadsBack (impl.parse args).2 name default_value (lastValue given name) ↔
      ∀ v, lastValue given name = some v → (decimalValue v).isSome := by
  have values := items.parse.2 name
  have table := (impl.parse_flags args).2
  cases last : lastValue given name with
  | none =>
    refine iff_of_true ⟨default_value, ?_, rfl⟩ (fun v impossible => by cases impossible)
    rw [last] at values
    simp only [getLong, Impl.getValue, values, table, long]
    exact stoll_toText default_value
  | some v =>
    rw [last] at values
    have read : getLong (impl.parse args).2 (some name) = stoll v := by
      simp only [getLong, Impl.getValue, values]
    constructor
    · rintro ⟨n, _, decimal⟩ _ ⟨⟩
      rw [decimal]
      rfl
    · intro given_decimal
      obtain ⟨n, decimal⟩ := Option.isSome_iff_exists.mp (given_decimal v rfl)
      exact ⟨n, read.trans (stoll_of_decimal decimal), decimal⟩

/-- A `Long` flag that was registered last under both of its names, in any state that
calls of `Parse` reach.

Given with a value it is accepted for the decimal texts and nothing else exactly
when the value is such a text and does not begin with a dash, or is none and does;
the text of a number is accepted and read back exactly when the number is not
negative. After a parse that succeeds the number that was given last is read back,
or the default, exactly when what was given last is a decimal text. -/
theorem long_flag_exact_iff {calls : List Registration} {c : UInt8} {name : Bytes}
    {default_value : Int64} (short : lastShort calls c = some (longFlag c name default_value))
    (long : lastLong calls name = some (longFlag c name default_value))
    (letter : isLetterOrDigit c = true) (size : 2 ≤ name.length)
    (letters : ∀ d ∈ name, isLetterOrDigit d = true) (earlier : List Call) :
    (∀ arg ∈ [[byte '-', c], byte '-' :: byte '-' :: name],
      (∀ v, v ≠ [] →
        ((((parseAll (registered calls) earlier).parse [arg, v]).1.ok = true ↔
            (decimalValue v).isSome = true) ↔
          (Impl.dashed v = true ↔ ¬ (decimalValue v).isSome = true))) ∧
      ∀ n : Int64,
        (((parseAll (registered calls) earlier).parse [arg, toText n]).1.ok = true ∧
          getLong ((parseAll (registered calls) earlier).parse [arg, toText n]).2 (some name) =
            some n) ↔ 0 ≤ n.toInt) ∧
    ∀ args given,
      Impl.Items (parseAll (registered calls) earlier) (Impl.withoutProgram args) given →
      (ReadsBack ((parseAll (registered calls) earlier).parse args).2 name default_value
          (lastValue given name) ↔
        ∀ v, lastValue given name = some v → (decimalValue v).isSome = true) := by
  obtain ⟨shorts, longs⟩ := parseAll_tables (registered calls) earlier
  generalize parseAll (registered calls) earlier = impl at *
  have long_found : impl.long_flags_[name]? = some (longFlag c name default_value) := by
    rw [longs, registered_long calls size, long]
  refine ⟨fun arg listed => ?_, fun args given items => reads_back_iff long_found items⟩
  have takes : (longFlag c name default_value).type ≠ .kBool := fun same => by cases same
  have named : Impl.dashed arg = true ∧
      impl.getFlag arg = some (longFlag c name default_value) := by
    obtain rfl | rfl : arg = [byte '-', c] ∨ arg = byte '-' :: byte '-' :: name := by
      simpa using listed
    · refine ⟨rfl, ?_⟩
      rw [getFlag_short, if_pos letter, shorts, registered_short, short]
    · refine ⟨rfl, ?_⟩
      rw [getFlag_long impl size, if_pos (List.all_eq_true.mpr letters), long_found]
  obtain ⟨dash, found⟩ := named
  refine ⟨fun v nonempty => ?_, fun n => ?_⟩
  · rw [parse_pair dash found takes nonempty]
    cases Impl.dashed v <;> cases (decimalValue v).isSome <;> decide
  · rw [parse_pair dash found takes (toText_ne_nil n), ← Bool.not_eq_true, dashed_toText]
    refine ⟨fun accepted => by omega, fun positive => ⟨by omega, ?_⟩⟩
    have plain : Impl.dashed (toText n) = false := by
      rw [← Bool.not_eq_true, dashed_toText]
      omega
    have set := ((usable_of_getFlag dash found).2 takes _ (toText_ne_nil n) plain).2
    have read : getLong (impl.parse [arg, toText n]).2 (some name) =
        stoll (getString (impl.parse [arg, toText n]).2 (some name)) := rfl
    have value : getString (impl.parse [arg, toText n]).2 (some name) = toText n := set
    rw [read, value, stoll_toText]

/-- The flag of a server. -/
def portFlag : List Registration := [.addLong (byte 'p') (some (text "port")) 80]

/-- A port is read back. -/
theorem port_read_back :
    ((registered portFlag).parse [text "-p", toText 8080]).1.ok = true ∧
      getLong ((registered portFlag).parse [text "-p", toText 8080]).2 (some (text "port")) =
        some 8080 := by
  have short : lastShort portFlag (byte 'p') = some (longFlag (byte 'p') (text "port") 80) := by
    decide
  have long : lastLong portFlag (text "port") = some (longFlag (byte 'p') (text "port") 80) := by
    decide
  have exact_iff := long_flag_exact_iff short long (by decide) (by decide) (by decide +kernel) []
  exact ((exact_iff.1 _ List.mem_cons_self).2 8080).mpr (by decide)

/-- A negative number is refused; a text that is no number is accepted, and `GetLong`
throws. -/
theorem number_refused_text_accepted :
    decimalValue (text "-5") = some (-5) ∧
      ((registered portFlag).parse [text "-p", text "-5"]).1 =
        .invalidArgumentError (text "flag no value") ∧
      decimalValue (text "abc") = none ∧
      ((registered portFlag).parse [text "-p", text "abc"]).1.ok = true ∧
      getLong ((registered portFlag).parse [text "-p", text "abc"]).2 (some (text "port")) =
        none := by
  decide

end Cppboot.Args
