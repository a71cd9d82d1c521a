import Cppboot.StrFields

/-!
# Searching a view

A view is searched from a position on or backwards, for a text or for a character in or not
in a set. A text is searched for by its first character, and what begins there is compared;
a set of more than one character is a table of marks. There are cases for empty views, for
empty texts and for single characters.

All of them agree with the plain meaning: the first position from a given one on, or the
last one up to it, at which the text stands, or a character of the kind.
-/

namespace Cppboot

/-! ## First and last positions -/

namespace Positions

/-- The result is the first position from a given one on where something holds. -/
def IsFirst (holds : Nat → Prop) (low : Nat) : Option Nat → Prop
  | some i => low ≤ i ∧ holds i ∧ ∀ j, low ≤ j → j < i → ¬ holds j
  | none => ∀ j, low ≤ j → ¬ holds j

/-- The result is the last position up to a given one where something holds. -/
def IsLast (holds : Nat → Prop) (high : Nat) : Option Nat → Prop
  | some i => i ≤ high ∧ holds i ∧ ∀ j, i < j → j ≤ high → ¬ holds j
  | none => ∀ j, j ≤ high → ¬ holds j

variable {holds : Nat → Prop}

/-- A search may begin behind positions where nothing holds. -/
theorem IsFirst.earlier {low start : Nat} {result : Option Nat}
    (first : IsFirst holds start result) (ordered : low ≤ start)
    (nothing : ∀ j, low ≤ j → j < start → ¬ holds j) : IsFirst holds low result := by
  cases result with
  | none =>
    intro j bounded
    by_cases before : j < start
    · exact nothing j bounded before
    · exact first j (by omega)
  | some i =>
    obtain ⟨later, here, before⟩ := first
    refine ⟨by omega, here, ?_⟩
    intro j bounded earlier
    by_cases front : j < start
    · exact nothing j bounded front
    · exact before j (by omega) earlier

/-- A search in what is left finds what a search from there on finds. -/
theorem IsFirst.shifted {start : Nat} {result : Option Nat}
    (first : IsFirst (fun k => holds (start + k)) 0 result) :
    IsFirst holds start (result.map (start + ·)) := by
  have behind {j : Nat} (low : start ≤ j) : start + (j - start) = j := by omega
  cases result with
  | none =>
    intro j low here
    have shifted : holds (start + (j - start)) := by rwa [behind low]
    exact first (j - start) (Nat.zero_le _) shifted
  | some i =>
    obtain ⟨_, here, before⟩ := first
    refine ⟨Nat.le_add_right start i, here, ?_⟩
    intro j low earlier there
    have sooner : j - start < i := by
      change j < start + i at earlier
      omega
    have shifted : holds (start + (j - start)) := by rwa [behind low]
    exact before (j - start) (Nat.zero_le _) sooner shifted

/-- There is one first position. -/
theorem IsFirst.unique {low : Nat} {result other : Option Nat} (first : IsFirst holds low result)
    (same : IsFirst holds low other) : result = other := by
  cases result with
  | none =>
    cases other with
    | none => rfl
    | some j => exact absurd same.2.1 (first j same.1)
  | some i =>
    cases other with
    | none => exact absurd first.2.1 (same i first.1)
    | some j =>
      rcases Nat.lt_trichotomy i j with earlier | rfl | later
      · exact absurd first.2.1 (same.2.2 i first.1 earlier)
      · rfl
      · exact absurd same.2.1 (first.2.2 j same.1 later)

/-- The search for a kind of element finds the first one from the position on. -/
theorem findFrom_isFirst {α : Type} (kind : α → Bool) (s : List α) (pos : Nat) :
    IsFirst (At kind s) pos (findFrom kind s pos) := by
  cases found : findFrom kind s pos with
  | none => exact findFrom_none found
  | some i =>
    obtain ⟨later, here, before⟩ := findFrom_some found
    exact ⟨later, here, before⟩

/-- A position where nothing holds is no candidate. -/
theorem IsLast.skip {high : Nat} {result : Option Nat} (last : IsLast holds high result)
    (no : ¬ holds (high + 1)) : IsLast holds (high + 1) result := by
  cases result with
  | none =>
    intro j bounded
    by_cases same : j = high + 1
    · rwa [same]
    · exact last j (by omega)
  | some i =>
    obtain ⟨earlier, here, behind⟩ := last
    refine ⟨by omega, here, ?_⟩
    intro j later bounded
    by_cases same : j = high + 1
    · rwa [same]
    · exact behind j later (by omega)

/-- Behind the greatest position that matters a search may begin anywhere. -/
theorem IsLast.capped {cap high : Nat} {result : Option Nat}
    (last : IsLast holds (min high cap) result) (within : ∀ i, holds i → i ≤ cap) :
    IsLast holds high result := by
  cases result with
  | none =>
    intro j bounded here
    exact last j (Nat.le_min.mpr ⟨bounded, within j here⟩) here
  | some i =>
    obtain ⟨earlier, here, behind⟩ := last
    refine ⟨(Nat.le_min.mp earlier).1, here, ?_⟩
    intro j later bounded there
    exact behind j later (Nat.le_min.mpr ⟨bounded, within j there⟩) there

end Positions

namespace View

open Positions

/-- No position. -/
def npos : Nat := 2 ^ 64 - 1

/-! ## Loops -/

/-- A loop over the positions of the view, upwards. -/
def scanUp (test : UInt8 → Bool) (s : Bytes) (i : Nat) : Option Nat :=
  if inside : i < s.length then if test s[i] then some i else scanUp test s (i + 1) else none
termination_by s.length - i

/-- A loop down to the first position. -/
def scanDown (test : UInt8 → Bool) (s : Bytes) : Nat → Option Nat
  | 0 => if test (s.getD 0 0) then some 0 else none
  | i + 1 => if test (s.getD (i + 1) 0) then some (i + 1) else scanDown test s i

/-- `memchr` on so many characters. -/
def memchr (c : UInt8) (s : Bytes) (n : Nat) : Option Nat := scanUp (· == c) (s.take n) 0

/-- The loop of `memmatch`, with what was passed already. -/
def memmatchFrom (first : UInt8) (needle : Bytes) : Nat → Nat → Bytes → Option Nat
  | 0, _, _ => none
  | fuel + 1, passed, hay =>
    match memchr first hay (hay.length + 1 - needle.length) with
    | none => none
    | some i =>
      if (hay.drop i).take needle.length = needle then some (passed + i)
      else memmatchFrom first needle fuel (passed + i + 1) (hay.drop (i + 1))

/-- `memmatch`. Every turn passes a character. -/
def memmatch (hay needle : Bytes) : Option Nat :=
  match needle with
  | [] => some 0
  | first :: _ =>
    if hay.length < needle.length then none
    else memmatchFrom first needle (hay.length + 1) 0 hay

/-- `LookupTable`. -/
def lookupTable (wanted : Bytes) : List Bool :=
  wanted.foldl (fun table c => table.set c.toNat true) (List.replicate 256 false)

/-- Whether the character is marked. -/
def lookup (table : List Bool) (c : UInt8) : Bool := table.getD c.toNat false

/-! ## Searches -/

/-- `find` of a text. -/
def find (view s : Bytes) (pos : Nat) : Option Nat :=
  if view = [] ∨ view.length < pos then
    if view = [] ∧ pos = 0 ∧ s = [] then some 0 else none
  else (memmatch (view.drop pos) s).map (pos + ·)

/-- `std::find_end`, from the last position where the text fits. -/
def findEnd (view s : Bytes) : Nat → Option Nat
  | 0 => if view.take s.length = s then some 0 else none
  | i + 1 => if (view.drop (i + 1)).take s.length = s then some (i + 1) else findEnd view s i

/-- `rfind` of a text. -/
def rfind (view s : Bytes) (pos : Nat) : Option Nat :=
  if view.length < s.length then none
  else if s = [] then some (min view.length pos)
  else findEnd view s (min (view.length - s.length) pos)

/-- `find` of a character. -/
def findChar (view : Bytes) (c : UInt8) (pos : Nat) : Option Nat :=
  if view = [] ∨ view.length ≤ pos then none
  else (memchr c (view.drop pos) (view.length - pos)).map (pos + ·)

/-- `rfind` of a character. -/
def rfindChar (view : Bytes) (c : UInt8) (pos : Nat) : Option Nat :=
  if view = [] then none else scanDown (· == c) view (min pos (view.length - 1))

/-- `find_first_not_of` a character. -/
def findFirstNotOfChar (view : Bytes) (c : UInt8) (pos : Nat) : Option Nat :=
  if view = [] then none else scanUp (· != c) view pos

/-- `find_last_not_of` a character. -/
def findLastNotOfChar (view : Bytes) (c : UInt8) (pos : Nat) : Option Nat :=
  if view = [] then none else scanDown (· != c) view (min pos (view.length - 1))

/-- `find_first_of`, with its case for a single character. -/
def findFirstOf (view s : Bytes) (pos : Nat) : Option Nat :=
  if view = [] ∨ s = [] then none
  else
    match s with
    | [c] => findChar view c pos
    | s => scanUp (lookup (lookupTable s)) view pos

def findFirstNotOf (view s : Bytes) (pos : Nat) : Option Nat :=
  if view = [] then none
  else
    match s with
    | [c] => findFirstNotOfChar view c pos
    | s => scanUp (fun b => !lookup (lookupTable s) b) view pos

def findLastOf (view s : Bytes) (pos : Nat) : Option Nat :=
  if view = [] ∨ s = [] then none
  else
    match s with
    | [c] => rfindChar view c pos
    | s => scanDown (lookup (lookupTable s)) view (min pos (view.length - 1))

def findLastNotOf (view s : Bytes) (pos : Nat) : Option Nat :=
  if view = [] then none
  else if s = [] then some (min pos (view.length - 1))
  else
    match s with
    | [c] => findLastNotOfChar view c pos
    | s => scanDown (fun b => !lookup (lookupTable s) b) view (min pos (view.length - 1))

/-! ## What the loops find -/

/-- A loop upwards stops at the first character that passes the test. -/
theorem scanUp_first (test : UInt8 → Bool) (s : Bytes) (i : Nat) :
    IsFirst (At test s) i (scanUp test s i) := by
  induction i using scanUp.induct test s with
  | case1 i inside found =>
    rw [scanUp, dif_pos inside, if_pos found]
    exact ⟨Nat.le_refl i, ⟨_, List.getElem?_eq_getElem inside, found⟩, fun j low high => by omega⟩
  | case2 i inside missed inductionHypothesis =>
    rw [scanUp, dif_pos inside, if_neg missed]
    refine inductionHypothesis.earlier (Nat.le_succ i) ?_
    rintro j low high ⟨c, there, same⟩
    obtain rfl : j = i := by omega
    rw [List.getElem?_eq_getElem inside] at there
    exact missed (Option.some.inj there ▸ same)
  | case3 i outside =>
    rw [scanUp, dif_neg outside]
    intro j low here
    exact absurd here.lt (by omega)

/-- Inside of the view the test is one of the character that stands there. -/
theorem at_getD (test : UInt8 → Bool) {s : Bytes} {i : Nat} (inside : i < s.length) :
    At test s i ↔ test (s.getD i 0) = true := by
  have there : s[i]? = some (s.getD i 0) := by
    rw [List.getD_eq_getElem?_getD, List.getElem?_eq_getElem inside]
    rfl
  constructor
  · rintro ⟨c, found, same⟩
    rw [there] at found
    exact Option.some.inj found ▸ same
  · exact fun same => ⟨_, there, same⟩

/-- A loop downwards stops at the last character that passes the test. -/
theorem scanDown_last (test : UInt8 → Bool) {s : Bytes} {i : Nat} (inside : i < s.length) :
    IsLast (At test s) i (scanDown test s i) := by
  induction i with
  | zero =>
    rw [scanDown]
    split
    next found => exact ⟨Nat.le_refl 0, (at_getD test inside).mpr found, fun j low high => by omega⟩
    next missed =>
      intro j bounded
      obtain rfl : j = 0 := by omega
      exact fun here => missed ((at_getD test inside).mp here)
  | succ i inductionHypothesis =>
    rw [scanDown]
    split
    next found =>
      exact ⟨Nat.le_refl _, (at_getD test inside).mpr found, fun j low high => by omega⟩
    next missed =>
      exact (inductionHypothesis (by omega)).skip fun here => missed ((at_getD test inside).mp here)

/-- Setting a mark is seen at its character only. -/
theorem lookup_set {table : List Bool} (size : table.length = 256) (b c : UInt8) :
    lookup (table.set b.toNat true) c = (c == b || lookup table c) := by
  unfold lookup
  by_cases same : c = b
  · have inside : b.toNat < table.length := size ▸ b.toNat_lt
    rw [same, List.getD_eq_getElem?_getD, List.getElem?_set_self inside, beq_self_eq_true,
      Bool.true_or]
    rfl
  · have apart : b.toNat ≠ c.toNat := fun equal => same (UInt8.toNat_inj.mp equal.symm)
    rw [List.getD_eq_getElem?_getD, List.getElem?_set_ne apart, ← List.getD_eq_getElem?_getD,
      beq_eq_false_iff_ne.mpr same, Bool.false_or]

/-- Marking the characters of a set adds them to those that are marked. -/
theorem lookup_foldl {table : List Bool} (size : table.length = 256) (wanted : Bytes) (c : UInt8) :
    lookup (wanted.foldl (fun table c => table.set c.toNat true) table) c =
      (wanted.contains c || lookup table c) := by
  induction wanted generalizing table with
  | nil => rfl
  | cons b wanted inductionHypothesis =>
    have resized : (table.set b.toNat true).length = 256 := by rw [List.length_set, size]
    rw [List.foldl_cons, inductionHypothesis resized, lookup_set size, List.contains_cons,
      ← Bool.or_assoc, Bool.or_comm (wanted.contains c)]

/-- The marks are those of the characters that were set. -/
theorem lookup_table (wanted : Bytes) (c : UInt8) :
    lookup (lookupTable wanted) c = wanted.contains c := by
  have empty : lookup (List.replicate 256 false) c = false := by
    rw [lookup, List.getD_eq_getElem?_getD, List.getElem?_replicate]
    split
    · rfl
    · rfl
  rw [lookupTable, lookup_foldl List.length_replicate, empty, Bool.or_false]

/-! ## What the searches find -/

/-- The text stands at the position. -/
def Occurs (s view : Bytes) (i : Nat) : Prop :=
  i ≤ view.length ∧ (view.drop i).take s.length = s

/-- A text does not occur where it has no room. -/
theorem Occurs.fits {s view : Bytes} {i : Nat} (here : Occurs s view i) :
    i + s.length ≤ view.length := by
  obtain ⟨inside, same⟩ := here
  have length := congrArg List.length same
  rw [List.length_take, List.length_drop] at length
  omega

/-- Where a text stands its first character does. -/
theorem Occurs.first {first : UInt8} {rest view : Bytes} {i : Nat}
    (here : Occurs (first :: rest) view i) : At (· == first) view i := by
  obtain ⟨_, same⟩ := here
  refine ⟨first, ?_, beq_self_eq_true first⟩
  have head := congrArg List.head? same
  rw [List.length_cons, List.head?_take, if_neg (Nat.succ_ne_zero _), List.head?_drop] at head
  exact head

/-- In what is left of a view a text occurs where it does in the view. -/
theorem occurs_drop (s view : Bytes) {start : Nat} (inside : start ≤ view.length) (k : Nat) :
    Occurs s (view.drop start) k ↔ Occurs s view (start + k) := by
  unfold Occurs
  rw [List.length_drop, List.drop_drop]
  have bounds : k ≤ view.length - start ↔ start + k ≤ view.length := by omega
  rw [bounds]

/-- In the front of a text the characters are those of the text. -/
theorem at_take {test : UInt8 → Bool} {s : Bytes} {n i : Nat} :
    At test (s.take n) i ↔ At test s i ∧ i < n := by
  unfold At
  rw [List.getElem?_take]
  constructor
  · rintro ⟨c, found, same⟩
    split at found
    next inside => exact ⟨⟨c, found, same⟩, inside⟩
    · cases found
  · rintro ⟨⟨c, found, same⟩, inside⟩
    rw [if_pos inside]
    exact ⟨c, found, same⟩

/-- The loop of `memmatch` finds the first occurrence, if it makes enough turns. -/
theorem memmatchFrom_first {first : UInt8} (rest : Bytes) (fuel passed : Nat) (hay : Bytes)
    (enough : hay.length < fuel) : ∃ result,
      memmatchFrom first (first :: rest) fuel passed hay = result.map (passed + ·) ∧
        IsFirst (Occurs (first :: rest) hay) 0 result := by
  induction fuel generalizing passed hay with
  | zero => exact absurd enough (Nat.not_lt_zero _)
  | succ fuel inductionHypothesis =>
    have looked := scanUp_first (· == first)
      (hay.take (hay.length + 1 - (first :: rest).length)) 0
    have reached {j : Nat} (there : Occurs (first :: rest) hay j) :
        At (· == first) (hay.take (hay.length + 1 - (first :: rest).length)) j := by
      have fits := there.fits
      exact at_take.mpr ⟨there.first, by omega⟩
    rw [memmatchFrom, memchr]
    cases seen : scanUp (· == first) (hay.take (hay.length + 1 - (first :: rest).length)) 0 with
    | none =>
      rw [seen] at looked
      exact ⟨none, rfl, fun j low there => looked j low (reached there)⟩
    | some i =>
      rw [seen] at looked
      obtain ⟨_, here, before⟩ := looked
      have inside : i < hay.length := (at_take.mp here).1.lt
      have nothing (j : Nat) (earlier : j < i) : ¬ Occurs (first :: rest) hay j :=
        fun there => before j (Nat.zero_le j) earlier (reached there)
      dsimp only
      split
      next same =>
        exact ⟨some i, rfl, Nat.zero_le i, ⟨Nat.le_of_lt inside, same⟩, fun j _ => nothing j⟩
      next other =>
        have shorter : (hay.drop (i + 1)).length < fuel := by
          rw [List.length_drop]
          omega
        obtain ⟨result, found, firstBehind⟩ :=
          inductionHypothesis (passed + i + 1) (hay.drop (i + 1)) shorter
        refine ⟨result.map (i + 1 + ·), ?_, ?_⟩
        · rw [found, Option.map_map]
          congr 1
          funext k
          change passed + i + 1 + k = passed + (i + 1 + k)
          omega
        · have behind : IsFirst (fun k => Occurs (first :: rest) hay (i + 1 + k)) 0 result := by
            have same : (fun k => Occurs (first :: rest) hay (i + 1 + k)) =
                Occurs (first :: rest) (hay.drop (i + 1)) :=
              funext fun k => propext (occurs_drop _ hay inside k).symm
            rw [same]
            exact firstBehind
          refine behind.shifted.earlier (Nat.zero_le _) ?_
          intro j _ earlier there
          by_cases same : j = i
          · subst same
            exact other there.2
          · exact nothing j (by omega) there

/-- `memmatch` finds the first occurrence of a text. -/
theorem memmatch_first (hay needle : Bytes) :
    IsFirst (Occurs needle hay) 0 (memmatch hay needle) := by
  cases needle with
  | nil => exact ⟨Nat.le_refl 0, ⟨Nat.zero_le _, List.take_zero⟩, fun j _ less => by omega⟩
  | cons first rest =>
    rw [memmatch]
    split
    next short =>
      intro j _ there
      have fits := there.fits
      omega
    next long =>
      obtain ⟨result, found, isFirst⟩ :=
        memmatchFrom_first rest (hay.length + 1) 0 hay (Nat.lt_succ_self _)
      have same : result.map (0 + ·) = result := by
        cases result with
        | none => rfl
        | some i => exact congrArg some (Nat.zero_add i)
      rw [found, same]
      exact isFirst

/-- `find` finds the first place of the text from the position on. -/
theorem find_isFirst (view s : Bytes) (pos : Nat) :
    IsFirst (Occurs s view) pos (find view s pos) := by
  rw [find]
  split
  next edge =>
    split
    next start =>
      obtain ⟨rfl, rfl, rfl⟩ := start
      exact ⟨Nat.le_refl 0, ⟨Nat.le_refl 0, rfl⟩, fun j _ less => by omega⟩
    next other =>
      intro j low there
      have fits := there.fits
      rcases edge with rfl | behind
      · rw [List.length_nil] at fits
        refine other ⟨rfl, by omega, List.length_eq_zero_iff.mp (by omega)⟩
      · omega
  next inside =>
    have within : pos ≤ view.length := Nat.le_of_not_lt fun behind => inside (Or.inr behind)
    have matched := memmatch_first (view.drop pos) s
    have same : Occurs s (view.drop pos) = fun k => Occurs s view (pos + k) :=
      funext fun k => propext (occurs_drop s view within k)
    rw [same] at matched
    exact matched.shifted

/-- `std::find_end` on the front of a view finds the last occurrence there. -/
theorem findEnd_last {view s : Bytes} {i : Nat} (inside : i ≤ view.length) :
    IsLast (Occurs s view) i (findEnd view s i) := by
  induction i with
  | zero =>
    rw [findEnd]
    split
    next same => exact ⟨Nat.le_refl 0, ⟨Nat.zero_le _, same⟩, fun j low high => by omega⟩
    next other =>
      intro j bounded there
      obtain rfl : j = 0 := by omega
      exact other there.2
  | succ i inductionHypothesis =>
    rw [findEnd]
    split
    next same => exact ⟨Nat.le_refl _, ⟨inside, same⟩, fun j low high => by omega⟩
    next other => exact (inductionHypothesis (by omega)).skip fun there => other there.2

/-- `rfind` finds the last place of the text up to the position. -/
theorem rfind_isLast (view s : Bytes) (pos : Nat) :
    IsLast (Occurs s view) pos (rfind view s pos) := by
  rw [rfind]
  split
  next short =>
    intro j _ there
    have fits := there.fits
    omega
  next long =>
    split
    next empty =>
      rw [empty]
      refine ⟨Nat.min_le_right _ _, ⟨Nat.min_le_left _ _, List.take_zero⟩, ?_⟩
      intro j later bounded there
      have fits := there.fits
      rw [List.length_nil] at fits
      omega
    next filled =>
      have fitting : min pos (view.length - s.length) ≤ view.length := by omega
      rw [Nat.min_comm]
      refine (findEnd_last fitting).capped ?_
      intro i there
      have fits := there.fits
      omega

/-- A text is found where it is, from the position on and backwards. -/
theorem text_found (view s : Bytes) (pos : Nat) :
    IsFirst (Occurs s view) pos (find view s pos) ∧ IsLast (Occurs s view) pos (rfind view s pos) :=
  ⟨find_isFirst view s pos, rfind_isLast view s pos⟩

/-! ## Characters of a kind -/

/-- A set of characters is looked up as its table is. -/
theorem lookup_contains (s : Bytes) : lookup (lookupTable s) = (s.contains ·) :=
  funext (lookup_table s)

/-- In a set with one character there is that character. -/
theorem contains_singleton (c : UInt8) : (fun b => [c].contains b) = (· == c) := by
  funext b
  rw [List.contains_cons, List.contains_nil, Bool.or_false]

theorem not_contains_singleton (c : UInt8) : (fun b => !([c].contains b)) = (· != c) :=
  funext fun b => congrArg Bool.not (congrFun (contains_singleton c) b)

/-- Nothing stands in an empty view. -/
theorem not_at_nil (test : UInt8 → Bool) (i : Nat) : ¬ At test ([] : Bytes) i :=
  fun here => absurd here.lt (Nat.not_lt_zero i)

/-- Nothing of an empty set stands in a view, and nothing in an empty one. -/
theorem not_at_empty {view s : Bytes} (empty : view = [] ∨ s = []) (i : Nat) :
    ¬ At (s.contains ·) view i := by
  rcases empty with rfl | rfl
  · exact not_at_nil _ i
  · rintro ⟨c, _, same⟩
    exact Bool.noConfusion same

/-- A loop downwards from the end of the view or from the position, whichever comes first. -/
theorem scanDown_isLast (test : UInt8 → Bool) {view : Bytes} (full : view ≠ []) (pos : Nat) :
    IsLast (At test view) pos (scanDown test view (min pos (view.length - 1))) := by
  have positive : 0 < view.length := List.length_pos_iff.mpr full
  refine (scanDown_last test (by omega)).capped ?_
  intro i here
  have inside := here.lt
  omega

/-- A character is found where it stands first. -/
theorem findChar_isFirst (view : Bytes) (c : UInt8) (pos : Nat) :
    IsFirst (At (· == c) view) pos (findChar view c pos) := by
  rw [findChar]
  split
  next behind =>
    intro j low here
    have inside := here.lt
    rcases behind with rfl | behind
    · exact not_at_nil _ j here
    · omega
  next inside =>
    have found := scanUp_first (· == c) ((view.drop pos).take (view.length - pos)) 0
    have whole : (view.drop pos).take (view.length - pos) = view.drop pos :=
      List.take_of_length_le (by rw [List.length_drop])
    have moved : At (· == c) (view.drop pos) = fun k => At (· == c) view (pos + k) := by
      funext k
      rw [At, At, List.getElem?_drop]
    rw [whole, moved] at found
    rw [memchr, whole]
    exact found.shifted

/-- The first character in the set is found. -/
theorem findFirstOf_isFirst (view s : Bytes) (pos : Nat) :
    IsFirst (At (s.contains ·) view) pos (findFirstOf view s pos) := by
  unfold findFirstOf
  split
  next empty =>
    exact fun j _ => not_at_empty empty j
  next full =>
    split
    next c =>
      rw [contains_singleton]
      exact findChar_isFirst view c pos
    next =>
      rw [lookup_contains]
      exact scanUp_first _ view pos

/-- The first character outside of the set is found. -/
theorem findFirstNotOf_isFirst (view s : Bytes) (pos : Nat) :
    IsFirst (At (!s.contains ·) view) pos (findFirstNotOf view s pos) := by
  unfold findFirstNotOf
  split
  next empty =>
    subst empty
    exact fun j _ => not_at_nil _ j
  next full =>
    split
    next c =>
      rw [findFirstNotOfChar, if_neg full, not_contains_singleton]
      exact scanUp_first _ view pos
    next =>
      rw [lookup_contains]
      exact scanUp_first _ view pos

/-- The last character in the set is found. -/
theorem findLastOf_isLast (view s : Bytes) (pos : Nat) :
    IsLast (At (s.contains ·) view) pos (findLastOf view s pos) := by
  unfold findLastOf
  split
  next empty =>
    exact fun j _ => not_at_empty empty j
  next full =>
    have filled : view ≠ [] := fun empty => full (Or.inl empty)
    split
    next c =>
      rw [rfindChar, if_neg filled, contains_singleton]
      exact scanDown_isLast _ filled pos
    next =>
      rw [lookup_contains]
      exact scanDown_isLast _ filled pos

/-- The last character outside of the set is found. -/
theorem findLastNotOf_isLast (view s : Bytes) (pos : Nat) :
    IsLast (At (!s.contains ·) view) pos (findLastNotOf view s pos) := by
  unfold findLastNotOf
  split
  next empty =>
    subst empty
    exact fun j _ => not_at_nil _ j
  next full =>
    have positive : 0 < view.length := List.length_pos_iff.mpr full
    split
    next none =>
      -- every character is outside the empty set
      subst none
      have inside : min pos (view.length - 1) < view.length := by omega
      refine ⟨Nat.min_le_left _ _, ⟨_, List.getElem?_eq_getElem inside, rfl⟩, ?_⟩
      intro j later bounded here
      have within := here.lt
      omega
    next filled =>
      split
      next c =>
        rw [findLastNotOfChar, if_neg full, not_contains_singleton]
        exact scanDown_isLast _ full pos
      next =>
        rw [lookup_contains]
        exact scanDown_isLast _ full pos

/-- The table of a set is the set, and the characters in a set or outside it are found where
they are, the cases for a single character notwithstanding. -/
theorem kind_found (view s : Bytes) (pos : Nat) :
    (∀ c, lookup (lookupTable s) c = s.contains c) ∧
      IsFirst (At (s.contains ·) view) pos (findFirstOf view s pos) ∧
      IsFirst (At (!s.contains ·) view) pos (findFirstNotOf view s pos) ∧
      IsLast (At (s.contains ·) view) pos (findLastOf view s pos) ∧
      IsLast (At (!s.contains ·) view) pos (findLastNotOf view s pos) :=
  ⟨lookup_table s, findFirstOf_isFirst view s pos, findFirstNotOf_isFirst view s pos,
    findLastOf_isLast view s pos, findLastNotOf_isLast view s pos⟩

/-! ## Trimming by searches -/

/-- The search of a split for its delimiter is one in a view. -/
theorem findChar_findFrom (view : Bytes) (delimiter : UInt8) (pos : Nat) :
    findChar view delimiter pos = findFrom (· = delimiter) view pos :=
  (findChar_isFirst view delimiter pos).unique (findFrom_isFirst _ view pos)

/-- `StrTrimLeft` with the position it uses. -/
def strTrimLeftChecked (s cutset : Bytes) : Bytes :=
  match findFirstNotOf s (cutsetOf cutset) 0 with
  | none => s
  | some pos => s.drop pos

/-- `StrTrimRight` with the position it uses. -/
def strTrimRightChecked (s cutset : Bytes) : Bytes :=
  match findLastNotOf s (cutsetOf cutset) npos with
  | none => s
  | some pos => s.take (pos + 1)

/-- `StrTrim` with the positions it uses. -/
def strTrimChecked (s cutset : Bytes) : Bytes :=
  strTrimRightChecked (strTrimLeftChecked s cutset) cutset

/-- Between two positions without a character of the other kind all are of the kind. -/
theorem between_kind {kind : UInt8 → Bool} {s : Bytes} {low high : Nat}
    (nothing : ∀ j, low ≤ j → j < high → ¬ At (fun b => !kind b) s j) :
    ∀ b ∈ (s.take high).drop low, kind b = true := by
  intro b member
  obtain ⟨j, found⟩ := List.mem_iff_getElem?.mp member
  rw [List.getElem?_drop, List.getElem?_take] at found
  split at found
  next inside =>
    by_contra other
    have opposite : (!kind b) = true := by
      rw [Bool.not_eq_true']
      exact eq_false_of_ne_true other
    exact nothing (low + j) (Nat.le_add_right low j) inside ⟨b, found, opposite⟩
  next => cases found

/-- What is cut off on the left is what the list function drops. -/
theorem strTrimLeftChecked_eq (s cutset : Bytes) :
    strTrimLeftChecked s cutset = strTrimLeft s cutset := by
  have first := findFirstNotOf_isFirst s (cutsetOf cutset) 0
  unfold strTrimLeftChecked strTrimLeft
  cases found : findFirstNotOf s (cutsetOf cutset) 0 with
  | none =>
    rw [found] at first
    have cut : ∀ b ∈ (s.take s.length).drop 0, (cutsetOf cutset).contains b = true :=
      between_kind fun j low _ => first j low
    rw [List.take_length, List.drop_zero] at cut
    dsimp only
    rw [List.dropWhile_eq_nil_iff.mpr cut]
    rfl
  | some pos =>
    rw [found] at first
    obtain ⟨_, ⟨c, there, kept⟩, before⟩ := first
    have cut := between_kind before
    rw [List.drop_zero] at cut
    have rest : s.drop pos = c :: s.drop (pos + 1) := by
      rw [List.drop_eq_getElem?_toList_append, there]
      rfl
    have dropped : s.dropWhile ((cutsetOf cutset).contains ·) = s.drop pos := by
      conv_lhs => rw [← List.take_append_drop pos s]
      rw [List.dropWhile_append_of_pos cut, rest, List.dropWhile_cons_of_neg]
      rwa [Bool.not_eq_true', ← Bool.not_eq_true] at kept
    dsimp only
    rw [dropped, rest]
    rfl

/-- What is cut off on the right is what the list function drops, unless the text is as long as
the largest position. -/
theorem strTrimRightChecked_eq {s cutset : Bytes} (sized : s.length ≤ npos) :
    strTrimRightChecked s cutset = strTrimRight s cutset := by
  have last := findLastNotOf_isLast s (cutsetOf cutset) npos
  unfold strTrimRightChecked strTrimRight
  cases found : findLastNotOf s (cutsetOf cutset) npos with
  | none =>
    rw [found] at last
    have cut : ∀ b ∈ (s.take s.length).drop 0, (cutsetOf cutset).contains b = true :=
      between_kind fun j _ inside => last j (by omega)
    rw [List.take_length, List.drop_zero] at cut
    have nothing : s.reverse.dropWhile ((cutsetOf cutset).contains ·) = [] :=
      List.dropWhile_eq_nil_iff.mpr fun b member => cut b (List.mem_reverse.mp member)
    dsimp only
    rw [nothing]
    rfl
  | some pos =>
    rw [found] at last
    obtain ⟨_, ⟨c, there, kept⟩, behind⟩ := last
    have cut : ∀ b ∈ (s.take s.length).drop (pos + 1), (cutsetOf cutset).contains b = true :=
      between_kind fun j later inside => behind j later (by omega)
    rw [List.take_length] at cut
    have front : s.take (pos + 1) = s.take pos ++ [c] := by
      rw [List.take_add_one, there]
      rfl
    have dropped : s.reverse.dropWhile ((cutsetOf cutset).contains ·) =
        (s.take (pos + 1)).reverse := by
      conv_lhs => rw [← List.take_append_drop (pos + 1) s]
      rw [List.reverse_append,
        List.dropWhile_append_of_pos fun b member => cut b (List.mem_reverse.mp member), front,
        List.reverse_append, List.reverse_singleton, List.singleton_append,
        List.dropWhile_cons_of_neg]
      rwa [Bool.not_eq_true', ← Bool.not_eq_true] at kept
    have filled : s.take pos ++ [c] ≠ [] :=
      List.append_ne_nil_of_right_ne_nil _ (List.cons_ne_nil c [])
    dsimp only
    rw [dropped, List.reverse_reverse, front, if_neg (mt List.isEmpty_iff.mp filled)]

/-- Trimming by searches in a view is trimming. -/
theorem trimmed_by_searches {s cutset : Bytes} (sized : s.length ≤ npos) :
    strTrimChecked s cutset = strTrim s cutset := by
  have shorter : (strTrimLeft s cutset).length ≤ npos := by
    rw [← strTrimLeftChecked_eq, strTrimLeftChecked]
    split
    · exact sized
    · rw [List.length_drop]
      omega
  rw [strTrimChecked, strTrimLeftChecked_eq, strTrimRightChecked_eq shorter, strTrim]

/-- A word with blanks and a line break around it. -/
theorem padded_trimmed :
    strTrimChecked (text " \tGET \r\n") [] = text "GET" ∧
      strTrimChecked (text " \tGET \r\n") [] = strTrim (text " \tGET \r\n") [] :=
  ⟨by decide +kernel, trimmed_by_searches (by decide +kernel)⟩

end View

end Cppboot
