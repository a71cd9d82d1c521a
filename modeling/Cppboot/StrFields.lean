import Mathlib.Data.List.DropRight
import Cppboot.Positions
import Cppboot.StrUtil

/-!
# Taking strings apart

Trimming gives up where it finds no character to keep, and returns the string as it
is; so a string of nothing but characters to trim is the one it does not trim.

Splitting at a delimiter and splitting into fields are loops over positions. A search
that fails gives `npos`, a position behind every string; where a loop goes on with it
the next search fails too. The loops are written here with the positions they use,
and a part that is taken out behind the end of the string has no result, as it throws.
-/

namespace Cppboot

open Positions

/-- The character is one to trim. -/
def inCutset (cutset : Bytes) (c : UInt8) : Bool := (cutsetOf cutset).contains c

/-- The trims take off the longest front and the longest end of characters to trim, nothing
is left of a string without others, and trimming once more changes nothing. -/
structure Trims (s cutset : Bytes) : Prop where
  left : strTrimLeft s cutset = s.dropWhile (inCutset cutset)
  right : strTrimRight s cutset = s.rdropWhile (inCutset cutset)
  both : strTrim s cutset = (s.dropWhile (inCutset cutset)).rdropWhile (inCutset cutset)
  starts : ∀ c, (strTrim s cutset).head? = some c → inCutset cutset c = false
  ends : ∀ c, (strTrim s cutset).getLast? = some c → inCutset cutset c = false
  nothing : (∀ c ∈ s, inCutset cutset c = true) → strTrim s cutset = []
  again : strTrim (strTrim s cutset) cutset = strTrim s cutset

/-- Trimming on the left, except that a text of the cutset only stays as it is. -/
theorem strTrimLeft_eq (s cutset : Bytes) :
    strTrimLeft s cutset =
      if s.dropWhile (inCutset cutset) = [] then s else s.dropWhile (inCutset cutset) := by
  unfold strTrimLeft
  simp only [List.isEmpty_iff]
  rfl

/-- Trimming on the right, except that a text of the cutset only stays as it is. -/
theorem strTrimRight_eq (s cutset : Bytes) :
    strTrimRight s cutset =
      if s.rdropWhile (inCutset cutset) = [] then s else s.rdropWhile (inCutset cutset) := by
  unfold strTrimRight
  simp only [List.isEmpty_iff]
  rfl

/-- With a character to keep, a string is trimmed. -/
theorem strTrim_kept {s cutset : Bytes} (kept : ∃ c ∈ s, inCutset cutset c = false) :
    strTrimLeft s cutset = s.dropWhile (inCutset cutset) ∧
      strTrimRight s cutset = s.rdropWhile (inCutset cutset) ∧
      strTrim s cutset = (s.dropWhile (inCutset cutset)).rdropWhile (inCutset cutset) := by
  obtain ⟨c, member, outside⟩ := kept
  have opposite : ¬ inCutset cutset c = true := by simp [outside]
  have front : s.dropWhile (inCutset cutset) ≠ [] := fun none =>
    opposite (List.dropWhile_eq_nil_iff.mp none c member)
  have left : strTrimLeft s cutset = s.dropWhile (inCutset cutset) := by
    rw [strTrimLeft_eq, if_neg front]
  have back : s.rdropWhile (inCutset cutset) ≠ [] := fun none =>
    opposite (List.rdropWhile_eq_nil_iff.mp none c member)
  refine ⟨left, ?_, ?_⟩
  · rw [strTrimRight_eq, if_neg back]
  · have later : c ∈ s.dropWhile (inCutset cutset) := by
      have parts : s.takeWhile (inCutset cutset) ++ s.dropWhile (inCutset cutset) = s :=
        List.takeWhile_append_dropWhile
      rw [← parts, List.mem_append] at member
      exact member.resolve_left fun trimmed => opposite (List.mem_takeWhile_imp trimmed)
    have rest : (s.dropWhile (inCutset cutset)).rdropWhile (inCutset cutset) ≠ [] := fun none =>
      opposite (List.rdropWhile_eq_nil_iff.mp none c later)
    rw [strTrim, left, strTrimRight_eq, if_neg rest]

/-- Without one it is returned as it is. -/
theorem strTrim_unkept {s cutset : Bytes} (all : ∀ c ∈ s, inCutset cutset c = true) :
    strTrim s cutset = s := by
  have left : strTrimLeft s cutset = s := by
    rw [strTrimLeft_eq, if_pos (List.dropWhile_eq_nil_iff.mpr all)]
  rw [strTrim, left, strTrimRight_eq, if_pos (List.rdropWhile_eq_nil_iff.mpr all)]

/-- A string that begins and ends with a character to keep is left alone. -/
theorem strTrim_bare {s cutset : Bytes}
    (starts : ∀ c, s.head? = some c → inCutset cutset c = false)
    (ends : ∀ c, s.getLast? = some c → inCutset cutset c = false) : strTrim s cutset = s := by
  have left : strTrimLeft s cutset = s := by
    cases s with
    | nil => rfl
    | cons c s =>
      rw [strTrimLeft_eq, List.dropWhile_cons_of_neg (by simp [starts c rfl])]
      exact ite_self _
  rw [strTrim, left, strTrimRight_eq, List.rdropWhile_eq_self_iff.mpr]
  · exact ite_self _
  · intro nonempty
    rw [ends _ (List.getLast?_eq_some_getLast nonempty)]
    exact Bool.false_ne_true

/-- What is left of a trimmed string begins and ends with a character to keep. -/
theorem trimmed_bare (cut : UInt8 → Bool) (s : Bytes) :
    (∀ c, ((s.dropWhile cut).rdropWhile cut).head? = some c → cut c = false) ∧
      ∀ c, ((s.dropWhile cut).rdropWhile cut).getLast? = some c → cut c = false := by
  constructor
  · intro c first
    obtain ⟨trimmed, whole⟩ : (s.dropWhile cut).rdropWhile cut <+: s.dropWhile cut :=
      List.rdropWhile_prefix cut _
    have same : (s.dropWhile cut).head? = some c := by
      rw [← whole, List.head?_append, first]
      rfl
    have stopped := List.head?_dropWhile_not cut s
    rwa [same] at stopped
  · intro c last
    have nonempty : (s.dropWhile cut).rdropWhile cut ≠ [] := by
      rintro none
      rw [none] at last
      cases last
    have stopped := List.rdropWhile_last_not cut _ nonempty
    rw [(List.getLast_eq_iff_getLast?_eq_some nonempty).mpr last] at stopped
    exact Bool.eq_false_iff.mpr stopped

/-- Trimming does what it says exactly when there is nothing to do or a character to keep. -/
theorem trims_iff (s cutset : Bytes) :
    Trims s cutset ↔ s = [] ∨ ∃ c ∈ s, c ∉ cutsetOf cutset := by
  have outside (c : UInt8) : inCutset cutset c = false ↔ c ∉ cutsetOf cutset := by
    rw [inCutset, List.contains_eq_mem, decide_eq_false_iff_not]
  simp only [← outside]
  constructor
  · intro trims
    by_contra neither
    rw [not_or] at neither
    have all : ∀ c ∈ s, inCutset cutset c = true := fun c member =>
      eq_true_of_ne_false fun kept => neither.2 ⟨c, member, kept⟩
    exact neither.1 ((strTrim_unkept all).symm.trans (trims.nothing all))
  · rintro (rfl | kept)
    · exact ⟨rfl, rfl, rfl, nofun, nofun, fun _ => rfl, rfl⟩
    · obtain ⟨left, right, both⟩ := strTrim_kept kept
      obtain ⟨starts, ends⟩ := trimmed_bare (inCutset cutset) s
      rw [← both] at starts ends
      refine ⟨left, right, both, starts, ends, fun all => ?_, strTrim_bare starts ends⟩
      obtain ⟨c, member, opposite⟩ := kept
      rw [all c member] at opposite
      cases opposite

/-- A string of blanks is not trimmed. -/
theorem blanks_untrimmed :
    strTrim (text " \t") [] = text " \t" ∧ ¬ Trims (text " \t") [] := by
  have kept : strTrim (text " \t") [] = text " \t" := by decide
  refine ⟨kept, fun trims => ?_⟩
  have nothing := trims.nothing (by decide +kernel)
  rw [kept] at nothing
  cases nothing

/-- The loop of `StrSplit` from a position on, with the cells found before. -/
def strSplitLoop (text : Bytes) (delimiter : UInt8) (new_pos : Nat) (result : List Bytes) :
    Option (List Bytes) :=
  match found : findFrom (· = delimiter) text new_pos with
  | none => (substr text new_pos text.length).map fun cell => result ++ [cell]
  | some pos =>
    if new_pos ≤ pos then
      (substr text new_pos (pos - new_pos)).bind fun cell =>
        strSplitLoop text delimiter (pos + 1) (result ++ [cell])
    else strSplitLoop text delimiter (pos + 1) result
termination_by text.length - new_pos
decreasing_by
  all_goals
    obtain ⟨low, here, _⟩ := findFrom_some found
    have high := here.lt
    omega

/-- `StrSplit` with the positions it uses. -/
def strSplitChecked (text : Bytes) (delimiter : UInt8) : Option (List Bytes) :=
  if text.isEmpty then some [] else strSplitLoop text delimiter 0 []

/-- Where a delimiter is found behind a front. -/
theorem findFrom_delimiter {delimiter : UInt8} (front : Bytes) {cell : Bytes}
    (plain : delimiter ∉ cell) (more : Bytes) :
    findFrom (· = delimiter) (front ++ (cell ++ delimiter :: more)) front.length =
      some (cell.length + front.length) := by
  have absent : cell.findIdx? (fun c => decide (c = delimiter)) = none :=
    List.findIdx?_eq_none_iff.mpr fun c member =>
      decide_eq_false fun same => plain (same ▸ member)
  rw [findFrom_behind, List.findIdx?_append, absent, List.findIdx?_cons,
    if_pos (decide_eq_true rfl)]
  simp

theorem findFrom_undelimited {delimiter : UInt8} (front : Bytes) {rest : Bytes}
    (plain : delimiter ∉ rest) :
    findFrom (· = delimiter) (front ++ rest) front.length = none := by
  have absent : rest.findIdx? (fun c => decide (c = delimiter)) = none :=
    List.findIdx?_eq_none_iff.mpr fun c member =>
      decide_eq_false fun same => plain (same ▸ member)
  rw [findFrom_behind, absent]
  rfl

/-- From a position on, the loop adds the cells of what follows. -/
theorem strSplitLoop_eq (delimiter : UInt8) (front rest : Bytes) (result : List Bytes) :
    strSplitLoop (front ++ rest) delimiter front.length result =
      some (result ++ strSplitFrom delimiter [] rest) := by
  -- The rest gets shorter by a cell and a delimiter.
  induction length : rest.length using Nat.strongRecOn generalizing front rest result with
  | _ n inductionHypothesis =>
    rw [strSplitLoop]
    by_cases present : delimiter ∈ rest
    · obtain ⟨cell, more, rfl, plain⟩ := List.eq_append_cons_of_mem present
      split
      next missing =>
        rw [findFrom_delimiter front plain more] at missing
        cases missing
      next pos found =>
        rw [findFrom_delimiter front plain more] at found
        cases found
        have taken := substr_behind front cell (delimiter :: more)
        rw [List.append_assoc] at taken
        have regrouped : front ++ (cell ++ delimiter :: more) =
            (front ++ cell ++ [delimiter]) ++ more := by simp
        have position : cell.length + front.length + 1 =
            (front ++ cell ++ [delimiter]).length := by
          simp only [List.length_append, List.length_singleton]
          omega
        have shorter : more.length < n := by
          rw [← length, List.length_append, List.length_cons]
          omega
        rw [if_pos (Nat.le_add_left _ _), Nat.add_sub_cancel, taken, Option.bind_some, position,
          regrouped, inductionHypothesis _ shorter _ _ _ rfl, strSplitFrom_append,
          strSplitFrom_plain plain, List.append_assoc]
        rfl
    · split
      next missing =>
        have whole : substr (front ++ rest) front.length (front ++ rest).length = some rest := by
          rw [substr, if_neg (by simp), List.drop_left, List.take_of_length_le (by simp)]
        rw [whole, strSplitFrom_plain present]
        rfl
      next pos found =>
        rw [findFrom_undelimited front present] at found
        cases found

/-- No part is taken out behind the end, and the cells are those between the delimiters. -/
theorem strSplitChecked_eq (text : Bytes) (delimiter : UInt8) :
    strSplitChecked text delimiter = some (strSplit text delimiter) := by
  unfold strSplitChecked strSplit
  split
  · rfl
  · exact strSplitLoop_eq delimiter [] text []

/-- There is one piece more than there are delimiters. -/
theorem strSplitFrom_length (delimiter : UInt8) (cell s : Bytes) :
    (strSplitFrom delimiter cell s).length = s.count delimiter + 1 := by
  induction s generalizing cell with
  | nil => rfl
  | cons c rest inductionHypothesis =>
    rw [strSplitFrom]
    split
    next same => rw [List.length_cons, inductionHypothesis, same, List.count_cons_self]
    next apart => rw [inductionHypothesis, List.count_cons_of_ne apart]

/-- The cells, with the delimiter between them, make up the text. -/
theorem strSplitFrom_joined (delimiter : UInt8) (cell s : Bytes) :
    [delimiter].intercalate (strSplitFrom delimiter cell s) = cell ++ s := by
  induction s generalizing cell with
  | nil => rw [strSplitFrom, List.intercalate_singleton, List.append_nil]
  | cons c rest inductionHypothesis =>
    rw [strSplitFrom]
    split
    next same =>
      obtain ⟨first, others, more⟩ : ∃ first others,
          strSplitFrom delimiter [] rest = first :: others := by
        apply List.exists_cons_of_ne_nil
        apply List.ne_nil_of_length_pos
        rw [strSplitFrom_length]
        exact Nat.succ_pos _
      rw [more, List.intercalate_cons_cons, ← more, inductionHypothesis, same]
      simp
    next =>
      rw [inductionHypothesis, List.append_assoc]
      rfl

/-- Splitting never fails, and joining the cells gives the text back. -/
theorem split_joined (text : Bytes) (delimiter : UInt8) :
    ∃ pieces, strSplitChecked text delimiter = some pieces ∧ (text = [] → pieces = []) ∧
      (text ≠ [] → [delimiter].intercalate pieces = text ∧
        (∀ piece ∈ pieces, delimiter ∉ piece) ∧
        pieces.length = text.count delimiter + 1) := by
  refine ⟨_, strSplitChecked_eq text delimiter, ?_, fun nonempty => ?_⟩
  · rintro rfl
    rfl
  · rw [strSplit, if_neg (by simpa using nonempty)]
    exact ⟨strSplitFrom_joined delimiter [] text,
      strSplitFrom_unstopped List.not_mem_nil text, strSplitFrom_length delimiter [] text⟩

/-- The characters that fields are separated by. -/
def isBlank (c : UInt8) : Bool := kSpaceChars.contains c

def visible (c : UInt8) : Bool := !isBlank c

/-- The loop of `StrFields`, with the fields found before. -/
def strFieldsLoop (s : Bytes) (start : Option Nat) (fields : List Bytes) :
    Option (List Bytes) :=
  match start with
  -- The search from `npos` on fails, and `npos` is no position in the string.
  | none => some fields
  | some start =>
    match _found : findFrom isBlank s start with
    | some stop =>
      (substr s start (stop - start)).bind fun cell =>
        strFieldsLoop s (findFrom visible s stop)
          (if cell.isEmpty then fields else fields ++ [cell])
    | none =>
      if start < s.length then
        (substr s start s.length).map fun rest =>
          let cell := strTrimRight rest kSpaceChars
          if cell.isEmpty then fields else fields ++ [cell]
      else some fields
termination_by start.elim 0 fun start => s.length - start + 1
decreasing_by
  obtain ⟨low, here, _⟩ := findFrom_some _found
  have high := here.lt
  cases next : findFrom visible s stop with
  | none => simp
  | some again =>
    obtain ⟨later, there, _⟩ := findFrom_some next
    have inside := there.lt
    have apart : again ≠ stop := by
      rintro rfl
      exact not_at_and_at here there
    simp only [Option.elim_some]
    omega

def strFields (s : Bytes) : Option (List Bytes) :=
  match findFrom visible s 0 with
  | none => some []
  | some start => strFieldsLoop s (some start) []

/-- A run of visible characters that cannot be made longer on either side. -/
structure MaximalRun (s : Bytes) (start stop : Nat) : Prop where
  nonempty : start < stop
  inside : ∀ i, start ≤ i → i < stop → At visible s i
  before : ∀ i, i + 1 = start → ¬ At visible s i
  behind : ¬ At visible s stop

/-- These are the maximal runs from a position on, in order, and they hold all the visible
characters. -/
structure Lists (s : Bytes) (pos : Nat) (runs : List (Nat × Nat)) : Prop where
  ordered : runs.Pairwise fun one other => one.1 < other.1
  all : ∀ start stop, (start, stop) ∈ runs ↔ MaximalRun s start stop ∧ pos ≤ start
  held : (runs.map (slice s)).flatten = (s.drop pos).filter visible

/-- A maximal run that begins in another one is that one. -/
theorem MaximalRun.unique {s : Bytes} {start stop pos last : Nat} (run : MaximalRun s start stop)
    (other : MaximalRun s pos last) (low : start ≤ pos) (high : pos < stop) :
    pos = start ∧ last = stop := by
  have first : pos = start := by
    by_contra later
    exact other.before (pos - 1) (by omega) (run.inside _ (by omega) (by omega))
  refine ⟨first, ?_⟩
  rcases Nat.lt_trichotomy last stop with shorter | same | longer
  · exact absurd (run.inside last (by have := other.nonempty; omega) shorter) other.behind
  · exact same
  · exact absurd (other.inside stop (by omega) longer) run.behind

/-- The characters of a run are visible. -/
theorem MaximalRun.shown {s : Bytes} {start stop : Nat} (run : MaximalRun s start stop) :
    ∀ c ∈ slice s (start, stop), visible c = true := by
  intro c member
  obtain ⟨i, low, high, found⟩ := mem_slice member
  obtain ⟨_, again, here⟩ := run.inside i low high
  rw [found] at again
  cases again
  exact here

/-- Where nothing visible follows there are no more runs. -/
theorem lists_nil {s : Bytes} {pos : Nat} (nothing : ∀ i, pos ≤ i → ¬ At visible s i) :
    Lists s pos [] := by
  refine ⟨.nil, fun start stop => ⟨nofun, ?_⟩, ?_⟩
  · rintro ⟨run, low⟩
    exact absurd (run.inside start (Nat.le_refl _) run.nonempty) (nothing start low)
  · symm
    rw [List.map_nil, List.flatten_nil, List.filter_eq_nil_iff]
    intro c member here
    obtain ⟨i, low, found⟩ := mem_drop_iff.mp member
    exact nothing i low ⟨c, found, here⟩

/-- A run, and those behind the gap that follows it. -/
theorem MaximalRun.lists {s : Bytes} {start stop pos : Nat} {runs : List (Nat × Nat)}
    (run : MaximalRun s start stop) (gap : stop ≤ pos)
    (blank : ∀ i, stop ≤ i → i < pos → ¬ At visible s i) (later : Lists s pos runs) :
    Lists s start ((start, stop) :: runs) := by
  have nonempty := run.nonempty
  refine ⟨?_, fun first last => ?_, ?_⟩
  · apply List.Pairwise.cons _ later.ordered
    rintro ⟨first, last⟩ member
    have low := ((later.all first last).mp member).2
    show start < first
    omega
  · rw [List.mem_cons, later.all, Prod.mk.injEq]
    constructor
    · rintro (⟨rfl, rfl⟩ | ⟨other, low⟩)
      · exact ⟨run, Nat.le_refl _⟩
      · exact ⟨other, by omega⟩
    · rintro ⟨other, low⟩
      by_cases inside : first < stop
      · exact .inl (run.unique other low inside)
      · refine .inr ⟨other, ?_⟩
        by_contra early
        exact blank first (by omega) (by omega)
          (other.inside first (Nat.le_refl _) other.nonempty)
  · rw [List.map_cons, List.flatten_cons, later.held,
      ← slice_append_drop s (Nat.le_of_lt nonempty), ← slice_append_drop s gap,
      List.filter_append, List.filter_append, List.filter_eq_self.mpr run.shown,
      filter_slice blank, List.nil_append]

/-- What follows the last blank needs no trimming. -/
theorem strTrimRight_visible {s : Bytes} (plain : ∀ c ∈ s, isBlank c = false) :
    strTrimRight s kSpaceChars = s := by
  have cutset : inCutset kSpaceChars = isBlank := rfl
  rw [strTrimRight_eq, cutset, List.rdropWhile_eq_self_iff.mpr]
  · exact ite_self _
  · intro nonempty
    rw [plain _ (List.getLast_mem nonempty)]
    exact Bool.false_ne_true

/-- A slice of visible characters is taken out and added. -/
theorem field_added {s : Bytes} {start stop : Nat} (nonempty : start < stop)
    (inside : stop ≤ s.length) (fields : List Bytes) :
    substr s start (stop - start) = some (slice s (start, stop)) ∧
      (if (slice s (start, stop)).isEmpty then fields else fields ++ [slice s (start, stop)]) =
        fields ++ [slice s (start, stop)] := by
  constructor
  · rw [substr, if_neg (by omega)]
    rfl
  · rw [if_neg]
    rw [List.isEmpty_iff]
    exact slice_ne_nil nonempty (by omega)

/-- From the beginning of a run on, the loop adds the maximal runs. -/
theorem strFieldsLoop_lists {s : Bytes} {start : Nat} (here : At visible s start)
    (before : ∀ i, i + 1 = start → ¬ At visible s i) (fields : List Bytes) :
    ∃ runs, strFieldsLoop s (some start) fields = some (fields ++ runs.map (slice s)) ∧
      Lists s start runs := by
  -- The next run begins further to the right.
  induction length : s.length - start using Nat.strongRecOn generalizing start fields with
  | _ n inductionHypothesis =>
    have begun := here.lt
    have shown (i : Nat) (inside : i < s.length) (plain : ¬ At isBlank s i) : At visible s i :=
      (at_or_at inside isBlank).resolve_left plain
    rw [strFieldsLoop]
    split
    next stop found =>
      obtain ⟨low, blank, plain⟩ := findFrom_some found
      have ended := blank.lt
      have nonempty : start < stop := by
        apply Nat.lt_of_le_of_ne low
        rintro rfl
        exact not_at_and_at blank here
      have run : MaximalRun s start stop :=
        ⟨nonempty, fun i from_start to_stop => shown i (by omega) (plain i from_start to_stop),
          before, not_at_and_at blank⟩
      obtain ⟨taken, added⟩ := field_added nonempty (Nat.le_of_lt ended) fields
      rw [taken, Option.bind_some, added]
      cases next : findFrom visible s stop with
      | none =>
        have nothing := findFrom_none next
        refine ⟨[(start, stop)], ?_, run.lists (Nat.le_refl _) (by omega) (lists_nil nothing)⟩
        rw [strFieldsLoop]
        rfl
      | some again =>
        obtain ⟨gap, there, hidden⟩ := findFrom_some next
        have inside := there.lt
        have first (i : Nat) (last : i + 1 = again) : ¬ At visible s i := by
          apply hidden i _ (by omega)
          by_contra early
          have same : again = stop := by omega
          exact not_at_and_at blank (same ▸ there)
        obtain ⟨runs, rest, later⟩ := inductionHypothesis _ (by omega) there first
          (fields ++ [slice s (start, stop)]) rfl
        refine ⟨(start, stop) :: runs, ?_, run.lists gap hidden later⟩
        rw [rest, List.map_cons, List.append_assoc]
        rfl
    next missing =>
      have plain := findFrom_none missing
      have outside : ¬ At visible s s.length := fun there => Nat.lt_irrefl _ there.lt
      have run : MaximalRun s start s.length :=
        ⟨begun, fun i from_start to_end => shown i to_end (plain i from_start), before, outside⟩
      have last : Lists s s.length [] := lists_nil fun i low there => by
        have := there.lt
        omega
      refine ⟨[(start, s.length)], ?_, run.lists (Nat.le_refl _) (by omega) last⟩
      have whole : substr s start s.length = some (slice s (start, s.length)) := by
        rw [substr, if_neg (by omega), slice, List.take_of_length_le (by simp),
          List.take_of_length_le (by simp)]
      have visible_only : ∀ c ∈ slice s (start, s.length), isBlank c = false := by
        intro c member
        obtain ⟨i, low, _, there⟩ := mem_slice member
        exact Bool.eq_false_iff.mpr fun blank => plain i low ⟨c, there, blank⟩
      rw [if_pos begun, whole, Option.map_some, strTrimRight_visible visible_only]
      exact congrArg some (field_added begun (Nat.le_refl _) fields).2

/-- The maximal runs of a string, and what the loop makes of them. -/
theorem strFields_lists (s : Bytes) :
    ∃ runs, strFields s = some (runs.map (slice s)) ∧ Lists s 0 runs := by
  unfold strFields
  cases found : findFrom visible s 0 with
  | none => exact ⟨[], rfl, lists_nil (findFrom_none found)⟩
  | some start =>
    obtain ⟨_, here, hidden⟩ := findFrom_some found
    have before (i : Nat) (last : i + 1 = start) : ¬ At visible s i :=
      hidden i (Nat.zero_le i) (by omega)
    obtain ⟨runs, listed, lists⟩ := strFieldsLoop_lists here before []
    refine ⟨runs, listed, lists.ordered, fun first last => ?_, ?_⟩
    · rw [lists.all]
      constructor
      · exact fun both => ⟨both.1, Nat.zero_le _⟩
      · rintro ⟨run, _⟩
        refine ⟨run, ?_⟩
        by_contra early
        exact hidden first (Nat.zero_le _) (by omega)
          (run.inside first (Nat.le_refl _) run.nonempty)
    · rw [lists.held, ← slice_append_drop s (Nat.zero_le start), List.filter_append,
        filter_slice hidden, List.nil_append]

/-- The fields are the maximal runs of characters that are not blanks, in order. -/
theorem fields_maximal (s : Bytes) :
    ∃ runs : List (Nat × Nat), strFields s = some (runs.map (slice s)) ∧
      (runs.Pairwise fun one other => one.1 < other.1) ∧
      (∀ start stop, (start, stop) ∈ runs ↔ MaximalRun s start stop) ∧
      (∀ field ∈ runs.map (slice s), field ≠ [] ∧ ∀ c ∈ field, c ∉ kSpaceChars) ∧
      (runs.map (slice s)).flatten = s.filter (· ∉ kSpaceChars) := by
  obtain ⟨runs, listed, lists⟩ := strFields_lists s
  have shown : visible = fun c => decide (c ∉ kSpaceChars) := by
    funext c
    simp [visible, isBlank]
  refine ⟨runs, listed, lists.ordered, fun start stop => ?_, ?_, ?_⟩
  · rw [lists.all]
    exact and_iff_left (Nat.zero_le start)
  · intro field member
    obtain ⟨⟨start, stop⟩, present, rfl⟩ := List.mem_map.mp member
    have run := ((lists.all start stop).mp present).1
    have begun := run.inside start (Nat.le_refl _) run.nonempty
    refine ⟨slice_ne_nil run.nonempty begun.lt, fun c inside => ?_⟩
    have here := run.shown c inside
    rw [shown] at here
    exact of_decide_eq_true here
  · rw [lists.held, shown, List.drop_zero]

end Cppboot
