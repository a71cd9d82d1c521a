import Mathlib.Data.List.TakeWhile
import Cppboot.LongText
import Cppboot.Status
import Cppboot.StrUtil

/-!
# Command lines

Flags are registered under a short name of one character and a long name, and
found by either. A command line comes as a list of arguments or as one string that
is taken apart first. Parsing it collects the values of the flags by their long
names, and asking for a value falls back to the default of the flag.

The strings that are passed in are C strings; here they are their characters, and
a null pointer is `none`. The text that `Help` prints is left out.
-/

namespace Cppboot

open Std

namespace Args

/-- What kind of value a flag takes. -/
inductive ArgType where
  | kBool
  | kLong
  | kString
deriving DecidableEq, Repr

/-- A flag under its two names, with the text of its default. -/
structure ArgFlag where
  type : ArgType
  short_name : UInt8
  long_name : Bytes
  default_value : Bytes
deriving DecidableEq, Repr

/-- A letter of ASCII. -/
def isLetter (c : UInt8) : Bool :=
  (byte 'a' ≤ c && c ≤ byte 'z') || (byte 'A' ≤ c && c ≤ byte 'Z')

def isDigit (c : UInt8) : Bool := byte '0' ≤ c && c ≤ byte '9'

def isLetterOrDigit (c : UInt8) : Bool := isLetter c || isDigit c

/-- One of the two characters that begin and end a quoted section. -/
def isQuota (c : UInt8) : Bool := c == byte '\'' || c == byte '"'

/-- `*p <= ' '` for a plain `char`. It is signed where the library is built, so that
a byte from 0x80 on is less than a blank. -/
def blankChar (c : UInt8) : Bool := c ≤ 0x20 || 0x80 ≤ c

/-- The token that was read last, and the text behind it. -/
structure Tokenizer where
  value : Bytes
  current_ : Bytes
deriving DecidableEq, Repr

namespace Tokenizer

/-- Read the next token. At the end of the text it is empty. The comparison with a
blank is a parameter, since it depends on what a plain `char` is. -/
def moveNext (blank : UInt8 → Bool) (t : Tokenizer) : Except Status Tokenizer :=
  match t.current_.dropWhile blank with
  | [] => .ok { t with value := [] }
  | c :: rest =>
    if isQuota c then
      match rest.dropWhile (· ≠ c) with
      | [] => .error (.invalidArgumentError (text "Can't find end of Quota"))
      | _ :: behind => .ok ⟨rest.takeWhile (· ≠ c), behind⟩
    else
      let going (d : UInt8) : Bool := !blank d && !isQuota d
      match (c :: rest).dropWhile going with
      | [] => .ok ⟨(c :: rest).takeWhile going, []⟩
      | d :: more =>
        if isQuota d then .error (.invalidArgumentError (text "Quota not first word"))
        else .ok ⟨(c :: rest).takeWhile going, d :: more⟩

/-- A token that is not empty makes the rest shorter. -/
theorem moveNext_shorter {blank : UInt8 → Bool} {t next : Tokenizer}
    (moved : t.moveNext blank = .ok next) (nonempty : next.value ≠ []) :
    next.current_.length < t.current_.length := by
  have skipped : (t.current_.dropWhile blank).length ≤ t.current_.length :=
    (List.dropWhile_suffix blank).length_le
  unfold moveNext at moved
  split at moved
  next =>
    cases moved
    exact absurd rfl nonempty
  next c rest found =>
    rw [found, List.length_cons] at skipped
    split at moved
    next =>
      split at moved
      next => cases moved
      next closing behind ended =>
        cases moved
        have shorter := (List.dropWhile_suffix (l := rest) fun d => decide (d ≠ c)).length_le
        rw [ended, List.length_cons] at shorter
        dsimp only
        omega
    next =>
      -- the word and what is left make up the rest of the text
      have parts (going : UInt8 → Bool) : ((c :: rest).takeWhile going).length +
          ((c :: rest).dropWhile going).length = rest.length + 1 := by
        rw [← List.length_append, List.takeWhile_append_dropWhile, List.length_cons]
      dsimp only at moved
      split at moved
      next =>
        cases moved
        dsimp only [List.length_nil]
        omega
      next d more ended =>
        split at moved
        next => cases moved
        next =>
          cases moved
          have lengths := parts fun d => !blank d && !isQuota d
          have positive := List.length_pos_iff.mpr nonempty
          rw [ended] at lengths
          dsimp only at positive ⊢
          omega

/-- Read tokens up to the first empty one. -/
def readAll (blank : UInt8 → Bool) (t : Tokenizer) : Except Status (List Bytes) :=
  match _moved : t.moveNext blank with
  | .error st => .error st
  | .ok next =>
    if _ended : next.value = [] then .ok []
    else
      match next.readAll blank with
      | .error st => .error st
      | .ok args => .ok (next.value :: args)
termination_by t.current_.length
decreasing_by exact moveNext_shorter ‹_› ‹_›

end Tokenizer

/-- The arguments of a command line. -/
def parseArgLine (line : Bytes) : Except Status (List Bytes) :=
  Tokenizer.readAll blankChar ⟨[], line⟩

/-- The tables of the flags, and the values that were parsed last. -/
structure Impl where
  short_flags_ : ExtTreeMap UInt8 ArgFlag
  long_flags_ : ExtTreeMap Bytes ArgFlag
  values_ : ExtTreeMap Bytes Bytes

namespace Impl

/-- Enter a flag under its names. A long name has at least two characters. -/
def addFlag (impl : Impl) (flag : ArgFlag) : Impl :=
  { impl with
    short_flags_ :=
      if flag.short_name ≠ 0 then impl.short_flags_.insert flag.short_name flag
      else impl.short_flags_
    long_flags_ :=
      if 2 ≤ flag.long_name.length then impl.long_flags_.insert flag.long_name flag
      else impl.long_flags_ }

/-- The value that was parsed, or else the default. -/
def getValue (impl : Impl) (long_name : Option Bytes) : Bytes :=
  match long_name with
  | none => []
  | some name =>
    match impl.values_[name]? with
    | some value => value
    | none =>
      match impl.long_flags_[name]? with
      | some flag => flag.default_value
      | none => []

/-- The flag that an argument names: `-c` or `--name`. -/
def getFlag (impl : Impl) (name : Bytes) : Option ArgFlag :=
  let short :=
    match name with
    | [_, c] => if isLetterOrDigit c then impl.short_flags_[c]? else none
    | _ => none
  match short with
  | some flag => some flag
  | none =>
    match name with
    | _ :: dash :: rest =>
      if 2 ≤ rest.length ∧ dash = byte '-' then
        if rest.all isLetterOrDigit then impl.long_flags_[rest]? else none
      else none
    | _ => none

/-- The argument begins with a dash. -/
def dashed (arg : Bytes) : Bool := arg.head? == some (byte '-')

/-- Go through the arguments with the values so far and the flag that waits for its
value. -/
def parseFrom (impl : Impl) (result : ExtTreeMap Bytes Bytes) (current_flag : Option ArgFlag) :
    List Bytes → Except Status (ExtTreeMap Bytes Bytes)
  | [] =>
    match current_flag with
    | some _ => .error (.invalidArgumentError (text "flag no value"))
    | none => .ok result
  | arg :: rest =>
    if dashed arg then
      match current_flag with
      | some _ => .error (.invalidArgumentError (text "flag no value"))
      | none =>
        match impl.getFlag arg with
        | none => .error (.invalidArgumentError (text "flag not found"))
        | some flag =>
          if flag.type = .kBool then
            impl.parseFrom (result.insert flag.long_name (text "true")) none rest
          else impl.parseFrom result (some flag) rest
    else
      match current_flag with
      | none => .error (.invalidArgumentError (text "no flag"))
      | some flag => impl.parseFrom (result.insert flag.long_name arg) none rest

/-- The arguments without the name of the program, which may come first. -/
def withoutProgram : List Bytes → List Bytes
  | [] => []
  | first :: rest => if dashed first then first :: rest else rest

/-- Parse arguments. None of them is empty. The values of an earlier call are gone,
whatever comes of this one. -/
def parse (impl : Impl) (args : List Bytes) : Status × Impl :=
  let cleared := { impl with values_ := ∅ }
  if args.isEmpty then (.okStatus, cleared)
  else
    match impl.parseFrom ∅ none (withoutProgram args) with
    | .error st => (st, cleared)
    | .ok result => (.okStatus, { cleared with values_ := result })

end Impl

/-- Flags are registered already when there are only those of the constructor. -/
def create : Impl :=
  Impl.addFlag ⟨∅, ∅, ∅⟩ ⟨.kBool, byte 'h', text "help", []⟩

/-- A call that registers a flag. -/
inductive Registration where
  | addBool (short_name : UInt8) (long_name : Option Bytes)
  | addString (short_name : UInt8) (long_name : Option Bytes) (default_value : Bytes)
  | addLong (short_name : UInt8) (long_name : Option Bytes) (default_value : Int64)

/-- The flag that a call makes. There is none without both of its names. -/
def Registration.flag : Registration → Option ArgFlag
  | .addBool short_name long_name =>
    if short_name = 0 then none
    else long_name.map fun name => ⟨.kBool, short_name, name, []⟩
  | .addString short_name long_name default_value =>
    if short_name = 0 then none
    else long_name.map fun name => ⟨.kString, short_name, name, default_value⟩
  | .addLong short_name long_name default_value =>
    if short_name = 0 then none
    else long_name.map fun name => ⟨.kLong, short_name, name, toText default_value⟩

/-- Register a flag. -/
def register (impl : Impl) (call : Registration) : Impl :=
  match call.flag with
  | none => impl
  | some flag => impl.addFlag flag

/-- The flags of the constructor and of some calls. -/
def registered (calls : List Registration) : Impl := calls.foldl register create

def getBool (impl : Impl) (long_name : Option Bytes) : Bool := !(impl.getValue long_name).isEmpty

def getString (impl : Impl) (long_name : Option Bytes) : Bytes := impl.getValue long_name

/-- There is no result where `std::stoll` throws. -/
def getLong (impl : Impl) (long_name : Option Bytes) : Option Int64 :=
  stoll (impl.getValue long_name)

/-- The two forms of `Parse`: a line, or the arguments of the program up to the
first null pointer. -/
inductive Call where
  | line (arg_line : Bytes)
  | argv (args : List Bytes)

/-- A call of `Parse`. Arguments are trimmed, and empty ones are left out. -/
def parse (impl : Impl) : Call → Status × Impl
  | .line arg_line =>
    match parseArgLine arg_line with
    | .error st => (st, impl)
    | .ok args => impl.parse args
  | .argv args =>
    impl.parse ((args.map fun arg => strTrim arg (text " \r\t\n")).filter fun arg => !arg.isEmpty)

end Args

end Cppboot
