import Cppboot.ArgLine
import Cppboot.LastWins

/-!
# What a command line sets

The arguments that are accepted form a list of items: a flag without a value, or a
flag and its value. Every item gives a value to the long name of its flag, and the
last one counts. A parse that fails leaves no values, unless the line could not
even be taken apart: then those of the call before are still there.

Flags are entered under any name, but arguments name only flags of letters and
digits. A flag is usable under a name exactly when its name is made of these.
-/

namespace Cppboot.Args

open Std LastWins

namespace Impl

/-- One item of a command line, and the value that it gives to a long name. -/
inductive Item (impl : Impl) : List Bytes → Bytes × Bytes → Prop
  | alone {arg : Bytes} {flag : ArgFlag} :
    arg.head? = some (byte '-') → impl.getFlag arg = some flag → flag.type = .kBool →
    Item impl [arg] (flag.long_name, text "true")
  | valued {arg value : Bytes} {flag : ArgFlag} :
    arg.head? = some (byte '-') → impl.getFlag arg = some flag →
    flag.type = .kString ∨ flag.type = .kLong → value.head? ≠ some (byte '-') →
    Item impl [arg, value] (flag.long_name, value)

/-- Arguments as a list of items, with the values they give. -/
inductive Items (impl : Impl) : List Bytes → List (Bytes × Bytes) → Prop
  | nil : Items impl [] []
  | cons {item rest : List Bytes} {value : Bytes × Bytes} {values : List (Bytes × Bytes)} :
    Item impl item value → Items impl rest values → Items impl (item ++ rest) (value :: values)

theorem dashed_iff {arg : Bytes} : dashed arg = true ↔ arg.head? = some (byte '-') :=
  beq_iff_eq

theorem not_dashed_iff {arg : Bytes} : dashed arg = false ↔ arg.head? ≠ some (byte '-') :=
  beq_eq_false_iff_ne

/-- A flag takes a value unless it is a `Bool`. -/
theorem takes_value {type : ArgType} : type ≠ .kBool ↔ type = .kString ∨ type = .kLong := by
  cases type <;> decide

variable {impl : Impl}

/-- Items are accepted, and their values are entered in order. -/
theorem Items.parseFrom {args : List Bytes} {values : List (Bytes × Bytes)}
    (items : Items impl args values) (result : ExtTreeMap Bytes Bytes) :
    impl.parseFrom result none args = .ok (insertAll result values) := by
  induction items generalizing result with
  | nil => rfl
  | cons item _ inductionHypothesis =>
    cases item with
    | alone dash found plain =>
      rw [List.cons_append, List.nil_append, Impl.parseFrom, if_pos (dashed_iff.mpr dash), found]
      dsimp only
      rw [if_pos plain, inductionHypothesis]
      rfl
    | valued dash found takes plain =>
      have undashed : ¬ dashed _ = true := mt dashed_iff.mp plain
      rw [List.cons_append, List.cons_append, List.nil_append, Impl.parseFrom,
        if_pos (dashed_iff.mpr dash), found]
      dsimp only
      rw [if_neg (takes_value.mpr takes), Impl.parseFrom, if_neg undashed, inductionHypothesis]
      rfl

/-- What is accepted is made of items. With a flag that waits for its value the
first argument is that value.

Proof: by induction on the arguments, for both states of the loop at once. -/
theorem items_of_parseFrom (args : List Bytes) (result values : ExtTreeMap Bytes Bytes) :
    (impl.parseFrom result none args = .ok values → ∃ given, Items impl args given) ∧
    ∀ flag, impl.parseFrom result (some flag) args = .ok values →
      ∃ value rest given, args = value :: rest ∧ dashed value = false ∧ Items impl rest given := by
  induction args generalizing result with
  | nil =>
    refine ⟨fun _ => ⟨[], .nil⟩, fun flag accepted => ?_⟩
    cases accepted
  | cons arg rest inductionHypothesis =>
    refine ⟨fun accepted => ?_, fun flag accepted => ?_⟩
    · rw [Impl.parseFrom] at accepted
      split at accepted
      next dash =>
        split at accepted
        next => cases accepted
        next flag found =>
          split at accepted
          next plain =>
            obtain ⟨given, items⟩ := (inductionHypothesis _).1 accepted
            exact ⟨_, .cons (.alone (dashed_iff.mp dash) found plain) items⟩
          next takes =>
            obtain ⟨value, others, given, rfl, plain, items⟩ :=
              (inductionHypothesis _).2 flag accepted
            exact ⟨_, .cons (.valued (dashed_iff.mp dash) found (takes_value.mp takes)
              (not_dashed_iff.mp plain)) items⟩
      next => cases accepted
    · rw [Impl.parseFrom] at accepted
      split at accepted
      next => cases accepted
      next plain =>
        obtain ⟨given, items⟩ := (inductionHypothesis _).1 accepted
        exact ⟨arg, rest, given, rfl, Bool.eq_false_iff.mpr plain, items⟩

/-- What the loop reports is an error. -/
theorem parseFrom_error {args : List Bytes} {result : ExtTreeMap Bytes Bytes}
    {current_flag : Option ArgFlag} {st : Status}
    (failed : impl.parseFrom result current_flag args = .error st) : st.ok = false := by
  induction args generalizing result current_flag with
  | nil =>
    cases current_flag with
    | none => cases failed
    | some flag =>
      cases failed
      rfl
  | cons arg rest inductionHypothesis =>
    simp only [Impl.parseFrom] at failed
    repeat' split at failed
    all_goals first
      | exact inductionHypothesis failed
      | (cases failed; rfl)

/-- How a parse ends: with the values of the items, or with none. -/
theorem parse_cases (impl : Impl) (args : List Bytes) :
    (∃ given, Items impl (withoutProgram args) given ∧
      impl.parse args = (.okStatus, { impl with values_ := insertAll ∅ given })) ∨
    ∃ st, (∀ given, ¬ Items impl (withoutProgram args) given) ∧ st.ok = false ∧
      impl.parse args = (st, { impl with values_ := ∅ }) := by
  cases args with
  | nil => exact .inl ⟨[], .nil, rfl⟩
  | cons first others =>
    cases ended : impl.parseFrom ∅ none (withoutProgram (first :: others)) with
    | ok result =>
      obtain ⟨given, items⟩ := (items_of_parseFrom _ _ _).1 ended
      refine .inl ⟨given, items, ?_⟩
      simp only [Impl.parse, List.isEmpty_cons, Bool.false_eq_true, if_false, items.parseFrom]
    | error st =>
      refine .inr ⟨st, fun given items => ?_, parseFrom_error ended, ?_⟩
      · cases (items.parseFrom ∅).symm.trans ended
      · simp only [Impl.parse, List.isEmpty_cons, Bool.false_eq_true, if_false, ended]

/-- The flags stay as they are. -/
theorem parse_flags (impl : Impl) (args : List Bytes) :
    (impl.parse args).2.short_flags_ = impl.short_flags_ ∧
      (impl.parse args).2.long_flags_ = impl.long_flags_ := by
  obtain ⟨_, _, ended⟩ | ⟨_, _, _, ended⟩ := impl.parse_cases args
  · rw [ended]
    exact ⟨rfl, rfl⟩
  · rw [ended]
    exact ⟨rfl, rfl⟩

/-- The values that items give. -/
theorem Items.parse {args : List Bytes} {given : List (Bytes × Bytes)}
    (items : Items impl (withoutProgram args) given) :
    (impl.parse args).1.ok = true ∧
      ∀ name, (impl.parse args).2.values_[name]? = lastValue given name := by
  obtain ⟨others, other_items, ended⟩ | ⟨_, none, _⟩ := impl.parse_cases args
  · have same : insertAll ∅ others = insertAll ∅ given := by
      have accepted := items.parseFrom ∅
      rw [other_items.parseFrom] at accepted
      exact Except.ok.inj accepted
    rw [ended, same]
    refine ⟨rfl, fun name => ?_⟩
    rw [getElem?_insertAll, ExtTreeMap.getElem?_empty, Option.or_none]
  · exact absurd items (none given)

/-- Arguments are accepted exactly when certain ones are made of items, and the values
are then those that the items gave last. -/
def Reads (impl : Impl) (args body : List Bytes) : Prop :=
  ((impl.parse args).1.ok = true ↔ ∃ given, Items impl body given) ∧
    ∀ given, Items impl body given →
      ∀ name, (impl.parse args).2.values_[name]? = lastValue given name

/-- The arguments are read without the name of the program. -/
theorem parse_reads (impl : Impl) (args : List Bytes) :
    Reads impl args (withoutProgram args) := by
  refine ⟨⟨fun accepted => ?_, fun ⟨given, items⟩ => items.parse.1⟩, fun given items =>
    items.parse.2⟩
  obtain ⟨given, items, _⟩ | ⟨_, _, refused, ended⟩ := impl.parse_cases args
  · exact ⟨given, items⟩
  · rw [ended, refused] at accepted
    cases accepted

/-- Arguments are read as items: all of them when there is none or the first begins
with a dash, and all but the first one otherwise. -/
theorem parse_items_iff (impl : Impl) :
    Reads impl [] [] ∧
    ∀ first rest,
      (first.head? = some (byte '-') → Reads impl (first :: rest) (first :: rest)) ∧
      (first.head? ≠ some (byte '-') → Reads impl (first :: rest) rest) := by
  refine ⟨parse_reads impl [], fun first rest => ⟨fun dash => ?_, fun plain => ?_⟩⟩
  · have all : withoutProgram (first :: rest) = first :: rest := if_pos (dashed_iff.mpr dash)
    have reads := parse_reads impl (first :: rest)
    rwa [all] at reads
  · have others : withoutProgram (first :: rest) = rest := if_neg (mt dashed_iff.mp plain)
    have reads := parse_reads impl (first :: rest)
    rwa [others] at reads

end Impl

/-- A flag of each type. -/
def mixedFlags : List Registration :=
  [.addBool (byte 'v') (some (text "verbose")),
    .addString (byte 'o') (some (text "out")) (text "a.txt"),
    .addLong (byte 'n') (some (text "count")) 1]

/-- The name of the program and all three flags, one of them twice and under both of its
names. -/
theorem mixed_line_read :
    let parsed := (registered mixedFlags).parse
      [text "prog", text "-v", text "--out", text "b", text "-n", text "7", text "-o", text "c"]
    parsed.1.ok = true ∧ parsed.2.values_[text "verbose"]? = some (text "true") ∧
      parsed.2.values_[text "count"]? = some (text "7") ∧
      parsed.2.values_[text "out"]? = some (text "c") := by
  have items : Impl.Items (registered mixedFlags)
      ([text "-v"] ++ ([text "--out", text "b"] ++ ([text "-n", text "7"] ++
        ([text "-o", text "c"] ++ []))))
      [(text "verbose", text "true"), (text "out", text "b"), (text "count", text "7"),
        (text "out", text "c")] := by
    have verbose : (registered mixedFlags).getFlag (text "-v") =
        some ⟨.kBool, byte 'v', text "verbose", []⟩ := by decide +kernel
    have count : (registered mixedFlags).getFlag (text "-n") =
        some ⟨.kLong, byte 'n', text "count", text "1"⟩ := by decide +kernel
    have out (name : Bytes) (either : name = text "--out" ∨ name = text "-o") :
        (registered mixedFlags).getFlag name =
          some ⟨.kString, byte 'o', text "out", text "a.txt"⟩ := by
      rcases either with rfl | rfl <;> decide +kernel
    refine .cons (.alone rfl verbose rfl) (.cons (.valued rfl (out _ (.inl rfl)) (.inl rfl) ?_)
      (.cons (.valued rfl count (.inr rfl) ?_) (.cons (.valued rfl (out _ (.inr rfl)) (.inl rfl) ?_)
        .nil)))
    all_goals decide
  have reads := ((registered mixedFlags).parse_items_iff.2 (text "prog")
    [text "-v", text "--out", text "b", text "-n", text "7", text "-o", text "c"]).2 (by decide)
  have values := reads.2 _ items
  refine ⟨reads.1.mpr ⟨_, items⟩, ?_, ?_, ?_⟩
  · exact (values (text "verbose")).trans (by decide +kernel)
  · exact (values (text "count")).trans (by decide +kernel)
  · exact (values (text "out")).trans (by decide +kernel)

/-- The state after some calls of `Parse`. -/
def parseAll (impl : Impl) (calls : List Call) : Impl :=
  calls.foldl (fun impl call => (parse impl call).2) impl

/-- Every value is the one of another state. -/
def SameValues (impl other : Impl) : Prop :=
  ∀ name, getBool impl name = getBool other name ∧ getString impl name = getString other name ∧
    getLong impl name = getLong other name

/-- The line cannot be taken apart into arguments. -/
def Rejected : Call → Prop
  | .line arg_line => ∃ st, parseArgLine arg_line = .error st
  | .argv _ => False

theorem sameValues_iff {impl other : Impl} :
    SameValues impl other ↔ ∀ name, impl.getValue name = other.getValue name := by
  constructor
  · exact fun same name => (same name).2.1
  · intro same name
    simp only [getBool, getString, getLong, same name, and_self]

/-- What the tokenizer reports is an error. -/
theorem moveNext_error {blank : UInt8 → Bool} {t : Tokenizer} {st : Status}
    (failed : t.moveNext blank = .error st) : st.ok = false := by
  simp only [Tokenizer.moveNext] at failed
  repeat' split at failed
  all_goals cases failed
  all_goals rfl

/-- Reading a line fails with an error. -/
theorem readAll_error {blank : UInt8 → Bool} {t : Tokenizer} {st : Status}
    (failed : t.readAll blank = .error st) : st.ok = false := by
  induction length : t.current_.length using Nat.strongRecOn generalizing t with
  | _ size inductionHypothesis =>
    rw [Tokenizer.readAll] at failed
    split at failed
    next other refused =>
      cases failed
      exact moveNext_error refused
    next next moved =>
      split at failed
      next => cases failed
      next nonempty =>
        split at failed
        next other refused =>
          cases failed
          have shorter := length ▸ Tokenizer.moveNext_shorter moved nonempty
          exact inductionHypothesis _ shorter refused rfl
        next => cases failed

/-- A call changes the values and nothing else. -/
theorem parse_tables (impl : Impl) (call : Call) :
    (parse impl call).2.short_flags_ = impl.short_flags_ ∧
      (parse impl call).2.long_flags_ = impl.long_flags_ := by
  cases call with
  | line arg_line =>
    simp only [parse]
    split
    · exact ⟨rfl, rfl⟩
    · exact impl.parse_flags _
  | argv args => exact impl.parse_flags _

theorem parseAll_tables (impl : Impl) (calls : List Call) :
    (parseAll impl calls).short_flags_ = impl.short_flags_ ∧
      (parseAll impl calls).long_flags_ = impl.long_flags_ := by
  induction calls generalizing impl with
  | nil => exact ⟨rfl, rfl⟩
  | cons call calls inductionHypothesis =>
    obtain ⟨shorts, longs⟩ := inductionHypothesis (parse impl call).2
    obtain ⟨first_shorts, first_longs⟩ := parse_tables impl call
    exact ⟨shorts.trans first_shorts, longs.trans first_longs⟩

theorem registered_values (flags : List Registration) : (registered flags).values_ = ∅ := by
  have run (impl : Impl) : (flags.foldl register impl).values_ = impl.values_ := by
    induction flags generalizing impl with
    | nil => rfl
    | cons call flags inductionHypothesis =>
      refine (inductionHypothesis _).trans ?_
      unfold register
      split <;> rfl
  exact run create

/-- What a call that fails leaves: no values, or everything as it was. -/
theorem parse_failed {impl : Impl} {call : Call} (failed : (parse impl call).1.ok = false) :
    (Rejected call ∧ (parse impl call).2 = impl) ∨ (parse impl call).2.values_ = ∅ := by
  have cleared (args : List Bytes) (refused : (impl.parse args).1.ok = false) :
      (impl.parse args).2.values_ = ∅ := by
    obtain ⟨_, _, ended⟩ | ⟨_, _, _, ended⟩ := impl.parse_cases args
    · rw [ended] at refused
      cases refused
    · rw [ended]
  cases call with
  | line arg_line =>
    simp only [parse, Rejected] at failed ⊢
    cases read : parseArgLine arg_line with
    | error st => exact .inl ⟨⟨st, rfl⟩, rfl⟩
    | ok args =>
      rw [read] at failed
      exact .inr (cleared args failed)
  | argv args => exact .inr (cleared _ failed)

/-- After a call that fails the values are the defaults exactly when the call is no
line that cannot be taken apart, or they were the defaults before. -/
theorem failed_parse_defaults_iff (flags : List Registration) (calls : List Call) (call : Call) :
    ((parse (parseAll (registered flags) calls) call).1.ok = false →
      SameValues (parse (parseAll (registered flags) calls) call).2 (registered flags)) ↔
    ¬ Rejected call ∨ SameValues (parseAll (registered flags) calls) (registered flags) := by
  have table := (parseAll_tables (registered flags) calls).2
  generalize parseAll (registered flags) calls = impl at *
  constructor
  · intro defaults
    by_cases rejected : Rejected call
    · right
      cases call with
      | line arg_line =>
        obtain ⟨st, refused⟩ := rejected
        have unchanged : parse impl (.line arg_line) = (st, impl) := by
          rw [parse, refused]
        rw [unchanged] at defaults
        exact defaults (readAll_error refused)
      | argv args => exact absurd rejected id
    · exact .inl rejected
  · intro safe failed
    obtain ⟨rejected, unchanged⟩ | cleared := parse_failed failed
    · rw [unchanged]
      exact safe.resolve_left (not_not.mpr rejected)
    · rw [sameValues_iff]
      intro name
      have same := (parse_tables impl call).2.trans table
      unfold Impl.getValue
      rw [cleared, same, registered_values]

/-- The flag of a program that reads a file. -/
def fileFlag : List Registration := [.addString (byte 'f') (some (text "file")) (text "1.txt")]

/-- A line with an open quote leaves the value of the call before. -/
theorem open_quote_keeps_values :
    (parse (registered fileFlag) (.argv [text "-f", text "2.txt"])).1.ok = true ∧
    (parse (parseAll (registered fileFlag) [.argv [text "-f", text "2.txt"]])
      (.line (text "-f \"x"))).1.ok = false ∧
    getString (parse (parseAll (registered fileFlag) [.argv [text "-f", text "2.txt"]])
      (.line (text "-f \"x"))).2 (some (text "file")) = text "2.txt" ∧
    getString (registered fileFlag) (some (text "file")) = text "1.txt" := by
  have broken : BrokenEarly (text "-f \"x") := by
    have front : Scans blankChar (letterOf blankChar) ([] ++ (text "-f" ++ text " \"x"))
        [text "-f"] (text " \"x") :=
      .word (by simp) (by decide +kernel) (by decide +kernel) (by decide +kernel) (.stop _)
    have behind : Broken blankChar (letterOf blankChar) ([byte ' '] ++ byte '"' :: text "x") :=
      .unclosed (by decide +kernel) (by decide) (by decide)
    exact ⟨[text "-f"], text " \"x", front, by decide +kernel, behind⟩
  obtain ⟨st, refused⟩ := broken.refused
  have unchanged (impl : Impl) : parse impl (.line (text "-f \"x")) = (st, impl) := by
    rw [parse, refused]
  have kept : getString (parseAll (registered fileFlag) [.argv [text "-f", text "2.txt"]])
      (some (text "file")) = text "2.txt" := by decide +kernel
  rw [unchanged]
  exact ⟨by decide +kernel, readAll_error refused, kept, by decide +kernel⟩

/-- The flags that are registered, with the one of the constructor. -/
def flagsOf (calls : List Registration) : List ArgFlag :=
  ⟨.kBool, byte 'h', text "help", []⟩ :: calls.filterMap Registration.flag

/-- The flag that was registered last under a short name. -/
def lastShort (calls : List Registration) (c : UInt8) : Option ArgFlag :=
  lastValue ((flagsOf calls).map fun flag => (flag.short_name, flag)) c

/-- The flag that was registered last under a long name. -/
def lastLong (calls : List Registration) (name : Bytes) : Option ArgFlag :=
  lastValue ((flagsOf calls).map fun flag => (flag.long_name, flag)) name

/-- Flags that are registered are entered one after the other. -/
theorem registered_eq (calls : List Registration) :
    registered calls = (flagsOf calls).foldl Impl.addFlag ⟨∅, ∅, ∅⟩ := by
  have run (impl : Impl) : calls.foldl register impl =
      (calls.filterMap Registration.flag).foldl Impl.addFlag impl := by
    induction calls generalizing impl with
    | nil => rfl
    | cons call calls inductionHypothesis =>
      rw [List.foldl_cons, inductionHypothesis, register]
      cases made : call.flag with
      | none => rw [List.filterMap_cons_none made]
      | some flag => rw [List.filterMap_cons_some made, List.foldl_cons]
  exact run create

/-- A flag is registered with a short name only. -/
theorem flagsOf_named (calls : List Registration) :
    ∀ flag ∈ flagsOf calls, flag.short_name ≠ 0 := by
  intro flag member
  obtain rfl | member := List.mem_cons.mp member
  · decide
  · obtain ⟨call, _, made⟩ := List.mem_filterMap.mp member
    cases call <;> simp only [Registration.flag] at made <;> split at made
    all_goals first
      | cases made
      | (obtain ⟨name, _, rfl⟩ := Option.map_eq_some_iff.mp made; assumption)

/-- The short names are entered one after the other. -/
theorem short_flags_eq (flags : List ArgFlag) (named : ∀ flag ∈ flags, flag.short_name ≠ 0)
    (impl : Impl) : (flags.foldl Impl.addFlag impl).short_flags_ =
      insertAll impl.short_flags_ (flags.map fun flag => (flag.short_name, flag)) := by
  induction flags generalizing impl with
  | nil => rfl
  | cons flag flags inductionHypothesis =>
    obtain ⟨first, later⟩ := List.forall_mem_cons.mp named
    rw [List.foldl_cons, inductionHypothesis later, Impl.addFlag, if_pos first]
    rfl

/-- So are the long names of at least two characters. -/
theorem long_flags_eq (flags : List ArgFlag) (impl : Impl) :
    (flags.foldl Impl.addFlag impl).long_flags_ =
      insertAll impl.long_flags_ ((flags.map fun flag => (flag.long_name, flag)).filter
        fun pair => decide (2 ≤ pair.1.length)) := by
  induction flags generalizing impl with
  | nil => rfl
  | cons flag flags inductionHypothesis =>
    rw [List.foldl_cons, inductionHypothesis, Impl.addFlag, List.map_cons]
    by_cases long : 2 ≤ flag.long_name.length
    · rw [if_pos long, List.filter_cons_of_pos (by simpa using long)]
      rfl
    · rw [if_neg long, List.filter_cons_of_neg (by simpa using long)]

/-- The tables hold the flags that were registered last. -/
theorem registered_short (calls : List Registration) (c : UInt8) :
    (registered calls).short_flags_[c]? = lastShort calls c := by
  rw [registered_eq, short_flags_eq _ (flagsOf_named calls), getElem?_insertAll,
    ExtTreeMap.getElem?_empty, Option.or_none]
  rfl

/-- Under a long name there is the flag that was registered last. -/
theorem registered_long (calls : List Registration) {name : Bytes} (long : 2 ≤ name.length) :
    (registered calls).long_flags_[name]? = lastLong calls name := by
  rw [registered_eq, long_flags_eq, getElem?_insertAll, ExtTreeMap.getElem?_empty, Option.or_none]
  exact lastValue_filter _ (fun key : Bytes => decide (2 ≤ key.length)) (decide_eq_true long)

/-- A flag can be given by an argument: the parse succeeds and sets it. -/
def Usable (impl : Impl) (arg : Bytes) (flag : ArgFlag) : Prop :=
  (flag.type = .kBool → (impl.parse [arg]).1.ok = true ∧
    getBool (impl.parse [arg]).2 (some flag.long_name) = true) ∧
  (flag.type ≠ .kBool → ∀ value, value ≠ [] → Impl.dashed value = false →
    (impl.parse [arg, value]).1.ok = true ∧
      getString (impl.parse [arg, value]).2 (some flag.long_name) = value)

/-- An argument that names a flag gives it. -/
theorem usable_of_getFlag {impl : Impl} {arg : Bytes} {flag : ArgFlag}
    (dash : Impl.dashed arg = true) (found : impl.getFlag arg = some flag) :
    Usable impl arg flag := by
  have body (rest : List Bytes) : Impl.withoutProgram (arg :: rest) = arg :: rest := if_pos dash
  have given {args : List Bytes} {value : Bytes}
      (items : Impl.Items impl args [(flag.long_name, value)])
      (same : Impl.withoutProgram args = args) :
      (impl.parse args).1.ok = true ∧
        (impl.parse args).2.getValue (some flag.long_name) = value := by
    rw [← same] at items
    obtain ⟨ok, values⟩ := items.parse
    have last : lastValue [(flag.long_name, value)] flag.long_name = some value := by
      simp [lastValue]
    refine ⟨ok, ?_⟩
    rw [Impl.getValue, values, last]
  constructor
  · intro plain
    have items : Impl.Items impl ([arg] ++ []) [(flag.long_name, text "true")] :=
      .cons (.alone (Impl.dashed_iff.mp dash) found plain) .nil
    have result : (impl.parse [arg]).1.ok = true ∧
        (impl.parse [arg]).2.getValue (some flag.long_name) = text "true" := given items (body [])
    refine ⟨result.1, ?_⟩
    rw [getBool, result.2]
    decide
  · intro takes value _ plain
    have items : Impl.Items impl ([arg, value] ++ []) [(flag.long_name, value)] :=
      .cons (.valued (Impl.dashed_iff.mp dash) found (Impl.takes_value.mp takes)
        (Impl.not_dashed_iff.mp plain)) .nil
    exact given items (body [value])

/-- An argument that names no flag is refused, whatever follows. -/
theorem not_usable_of_getFlag {impl : Impl} {arg : Bytes} {flag : ArgFlag}
    (dash : Impl.dashed arg = true) (unknown : impl.getFlag arg = none) :
    ¬ Usable impl arg flag := by
  have refused (rest : List Bytes) : (impl.parse (arg :: rest)).1.ok = false := by
    have body : Impl.withoutProgram (arg :: rest) = arg :: rest := if_pos dash
    simp only [Impl.parse, body, List.isEmpty_cons, Bool.false_eq_true, if_false, Impl.parseFrom,
      if_pos dash, unknown]
    rfl
  rintro ⟨alone, valued⟩
  by_cases plain : flag.type = .kBool
  · have ok := (alone plain).1
    rw [refused] at ok
    cases ok
  · have ok := (valued plain (text "x") (by decide) (by decide)).1
    rw [refused] at ok
    cases ok

/-- An argument of a dash and one character asks for a short name. -/
theorem getFlag_short (impl : Impl) (c : UInt8) :
    impl.getFlag [byte '-', c] = if isLetterOrDigit c then impl.short_flags_[c]? else none := by
  simp only [Impl.getFlag]
  split
  next flag found => rw [← found]
  next found =>
    rw [found]
    rfl

/-- An argument of two dashes and a longer name asks for a long one. -/
theorem getFlag_long (impl : Impl) {name : Bytes} (long : 2 ≤ name.length) :
    impl.getFlag (byte '-' :: byte '-' :: name) =
      if name.all isLetterOrDigit then impl.long_flags_[name]? else none := by
  have nonempty : name ≠ [] := by
    rintro rfl
    cases long
  obtain ⟨first, rest, rfl⟩ := List.exists_cons_of_ne_nil nonempty
  simp only [Impl.getFlag]
  rw [if_pos ⟨long, trivial⟩]

/-- The flag that was registered last under a name is usable by it exactly when the
name is made of letters and digits; and before a parse its value is its default. -/
theorem registered_flag_usable (calls : List Registration) :
    (∀ c flag, lastShort calls c = some flag →
      (Usable (registered calls) [byte '-', c] flag ↔ isLetterOrDigit c = true)) ∧
    (∀ name flag, 2 ≤ name.length → lastLong calls name = some flag →
      (Usable (registered calls) (byte '-' :: byte '-' :: name) flag ↔
        ∀ c ∈ name, isLetterOrDigit c = true)) ∧
    ∀ name flag, 2 ≤ name.length → lastLong calls name = some flag →
      getString (registered calls) (some name) = flag.default_value ∧
      ∀ default_value, flag.default_value = toText default_value →
        getLong (registered calls) (some name) = some default_value := by
  have usable_iff {arg : Bytes} {flag : ArgFlag} {condition : Prop} [Decidable condition]
      (dash : Impl.dashed arg = true)
      (found : (registered calls).getFlag arg = if condition then some flag else none) :
      Usable (registered calls) arg flag ↔ condition := by
    constructor
    · intro usable
      by_contra refused
      rw [if_neg refused] at found
      exact not_usable_of_getFlag dash found usable
    · intro holds
      rw [if_pos holds] at found
      exact usable_of_getFlag dash found
  refine ⟨fun c flag last => ?_, fun name flag long last => ?_, fun name flag long last => ?_⟩
  · apply usable_iff rfl
    rw [getFlag_short, registered_short, last]
  · rw [← List.all_eq_true]
    apply usable_iff rfl
    rw [getFlag_long _ long, registered_long calls long, last]
  · have value : (registered calls).getValue (some name) = flag.default_value := by
      simp only [Impl.getValue, registered_values, ExtTreeMap.getElem?_empty,
        registered_long calls long, last]
    refine ⟨value, fun default_value written => ?_⟩
    rw [getLong, value, written, stoll_toText]

/-- Flags under other names are registered, but they cannot be given, and the default
of a flag with a short long name is not found. -/
theorem odd_names_unusable :
    lastShort [.addBool (byte '?') (some (text "usage"))] (byte '?') =
        some ⟨.kBool, byte '?', text "usage", []⟩ ∧
      ((registered [.addBool (byte '?') (some (text "usage"))]).parse [text "-?"]).1 =
        .invalidArgumentError (text "flag not found") ∧
      lastLong [.addBool (byte 'n') (some (text "dry-run"))] (text "dry-run") =
        some ⟨.kBool, byte 'n', text "dry-run", []⟩ ∧
      ((registered [.addBool (byte 'n') (some (text "dry-run"))]).parse [text "--dry-run"]).1 =
        .invalidArgumentError (text "flag not found") ∧
      lastLong [.addString (byte 'v') (some (text "v")) (text "x")] (text "v") =
        some ⟨.kString, byte 'v', text "v", text "x"⟩ ∧
      getString (registered [.addString (byte 'v') (some (text "v")) (text "x")])
        (some (text "v")) = [] := by
  decide

end Cppboot.Args
