import Cppboot.Bytes

/-!
# String utilities

Splitting at a delimiter and trimming, as the rest of the library uses them. A
string of nothing but trimmed characters is returned as it is: the search for a
character to keep fails, and the failure is taken for "nothing to trim".
-/

namespace Cppboot

/-- The blanks that are trimmed when no others are given. -/
def kSpaceChars : Bytes := text " \t\r\n"

/-- The cells of the rest of a text, the first of them begun already. -/
def strSplitFrom (delimiter : UInt8) (cell : Bytes) : Bytes → List Bytes
  | [] => [cell]
  | c :: rest =>
    if c = delimiter then cell :: strSplitFrom delimiter [] rest
    else strSplitFrom delimiter (cell ++ [c]) rest

/-- The cells between the delimiters. An empty text has none. -/
def strSplit (text : Bytes) (delimiter : UInt8) : List Bytes :=
  if text.isEmpty then [] else strSplitFrom delimiter [] text

/-- The cells on both sides of a delimiter. -/
theorem strSplitFrom_append (delimiter : UInt8) (cell front behind : Bytes) :
    strSplitFrom delimiter cell (front ++ delimiter :: behind) =
      strSplitFrom delimiter cell front ++ strSplitFrom delimiter [] behind := by
  induction front generalizing cell with
  | nil => simp [strSplitFrom]
  | cons c front inductionHypothesis =>
    rw [List.cons_append, strSplitFrom, strSplitFrom, inductionHypothesis, inductionHypothesis]
    split <;> rfl

theorem strSplitFrom_plain {delimiter : UInt8} {s : Bytes} (plain : delimiter ∉ s)
    (cell : Bytes) : strSplitFrom delimiter cell s = [cell ++ s] := by
  induction s generalizing cell with
  | nil => rw [strSplitFrom, List.append_nil]
  | cons c s inductionHypothesis =>
    rw [List.mem_cons, not_or] at plain
    rw [strSplitFrom, if_neg (Ne.symm plain.1), inductionHypothesis plain.2, List.append_assoc]
    rfl

/-- No cell has the delimiter in it. -/
theorem strSplitFrom_unstopped {delimiter : UInt8} {cell : Bytes} (plain : delimiter ∉ cell)
    (s : Bytes) : ∀ segment ∈ strSplitFrom delimiter cell s, delimiter ∉ segment := by
  induction s generalizing cell with
  | nil =>
    intro segment member
    rw [strSplitFrom, List.mem_singleton] at member
    exact member ▸ plain
  | cons c rest inductionHypothesis =>
    unfold strSplitFrom
    split
    next =>
      intro segment member
      obtain rfl | member := List.mem_cons.mp member
      · exact plain
      · exact inductionHypothesis List.not_mem_nil segment member
    next other =>
      have longer : delimiter ∉ cell ++ [c] := by
        rw [List.mem_append, List.mem_singleton, not_or]
        exact ⟨plain, Ne.symm other⟩
      exact inductionHypothesis longer

/-- The cells of a text are parts of it. -/
theorem strSplitFrom_parts (delimiter : UInt8) (cell s : Bytes) :
    ∀ segment ∈ strSplitFrom delimiter cell s, segment <:+: cell ++ s := by
  induction s generalizing cell with
  | nil => simp [strSplitFrom]
  | cons c rest inductionHypothesis =>
    unfold strSplitFrom
    split
    · intro segment member
      obtain rfl | member := List.mem_cons.mp member
      · exact List.infix_append_left
      · have later := inductionHypothesis [] segment member
        rw [List.nil_append] at later
        exact later.trans (List.suffix_append_of_suffix (List.suffix_cons c rest)).isInfix
    · intro segment member
      have later := inductionHypothesis (cell ++ [c]) segment member
      rwa [List.append_assoc] at later

theorem strSplit_parts (delimiter : UInt8) (s : Bytes) :
    ∀ segment ∈ strSplit s delimiter, segment <:+: s := by
  unfold strSplit
  split
  · simp
  · exact strSplitFrom_parts delimiter [] s

/-- The characters to trim. -/
def cutsetOf (cutset : Bytes) : Bytes := if cutset.isEmpty then kSpaceChars else cutset

/-- The string from its first character outside the cutset on. -/
def strTrimLeft (s cutset : Bytes) : Bytes :=
  let kept := s.dropWhile ((cutsetOf cutset).contains ·)
  if kept.isEmpty then s else kept

/-- The string up to its last character outside the cutset. -/
def strTrimRight (s cutset : Bytes) : Bytes :=
  let kept := (s.reverse.dropWhile ((cutsetOf cutset).contains ·)).reverse
  if kept.isEmpty then s else kept

def strTrim (s cutset : Bytes) : Bytes := strTrimRight (strTrimLeft s cutset) cutset

/-- `tolower` for the ASCII letters, as in the default locale. -/
def toLower (c : UInt8) : UInt8 := if byte 'A' ≤ c ∧ c ≤ byte 'Z' then c + 32 else c

/-- Compare character by character, ignoring case. -/
def memcasecmp : Bytes → Bytes → Int
  | c1 :: s1, c2 :: s2 =>
    let diff : Int := (toLower c1).toNat - (toLower c2).toNat
    if diff ≠ 0 then diff else memcasecmp s1 s2
  | _, _ => 0

def equalsIgnoreCase (piece1 piece2 : Bytes) : Bool :=
  piece1.length = piece2.length ∧ memcasecmp piece1 piece2 = 0

def startsWithIgnoreCase (text start : Bytes) : Bool :=
  start.length ≤ text.length ∧ equalsIgnoreCase (text.take start.length) start = true

/-- Strings that are equal ignoring case have the same lower case form. -/
theorem equalsIgnoreCase_iff (piece1 piece2 : Bytes) :
    equalsIgnoreCase piece1 piece2 = true ↔ piece1.map toLower = piece2.map toLower := by
  unfold equalsIgnoreCase
  rw [decide_eq_true_iff]
  induction piece1 generalizing piece2 with
  | nil =>
    cases piece2 with
    | nil => simp [memcasecmp]
    | cons c2 s2 => simp
  | cons c1 s1 inductionHypothesis =>
    cases piece2 with
    | nil => simp
    | cons c2 s2 =>
      rw [List.map_cons, List.map_cons, List.cons.injEq, ← inductionHypothesis, memcasecmp]
      have same : (toLower c1).toNat = (toLower c2).toNat ↔ toLower c1 = toLower c2 :=
        UInt8.toNat_inj
      split
      next differs =>
        have apart : toLower c1 ≠ toLower c2 := fun equal => differs (by rw [equal]; omega)
        simp [differs, apart]
      next agrees =>
        have equal : toLower c1 = toLower c2 := same.mp (by omega)
        simp [equal]

end Cppboot
