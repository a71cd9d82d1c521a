import Mathlib.Data.List.Basic
import Mathlib.Data.List.Infix

/-!
# Positions in a text

A text is searched from a position on, for a character of a kind or for a pattern,
and what lies between two positions is taken out of it. A search has no result where
nothing is found. Taking a part out has none where it would begin behind the end.

Characters are of any type.
-/

namespace Cppboot.Positions

variable {α : Type}

/-- The first position of a character of a kind, from a position on. -/
def findFrom (kind : α → Bool) (s : List α) (pos : Nat) : Option Nat :=
  ((s.drop pos).findIdx? kind).map (· + pos)

/-- So many characters from a position on, or as many as there are. -/
def substr (s : List α) (pos n : Nat) : Option (List α) :=
  if s.length < pos then none else some ((s.drop pos).take n)

/-- A character from a position on stands at that or a later one. -/
theorem mem_drop_iff {s : List α} {start : Nat} {c : α} :
    c ∈ s.drop start ↔ ∃ i, start ≤ i ∧ s[i]? = some c := by
  rw [List.mem_iff_getElem?]
  constructor
  · rintro ⟨offset, found⟩
    rw [List.getElem?_drop] at found
    exact ⟨start + offset, Nat.le_add_right _ _, found⟩
  · rintro ⟨i, low, found⟩
    refine ⟨i - start, ?_⟩
    rw [List.getElem?_drop]
    have index : start + (i - start) = i := by omega
    rwa [index]

/-- There is a character of a kind at a position. -/
def At (kind : α → Bool) (s : List α) (pos : Nat) : Prop := ∃ c, s[pos]? = some c ∧ kind c = true

/-- Where there is a character the position is inside. -/
theorem At.lt {kind : α → Bool} {s : List α} {pos : Nat} (here : At kind s pos) :
    pos < s.length := by
  obtain ⟨c, found, _⟩ := here
  exact (List.getElem?_eq_some_iff.mp found).1

/-- A character is of a kind or of the opposite one. -/
theorem at_or_at {s : List α} {pos : Nat} (inside : pos < s.length) (kind : α → Bool) :
    At kind s pos ∨ At (!kind ·) s pos := by
  cases same : kind s[pos] with
  | true => exact .inl ⟨_, List.getElem?_eq_getElem inside, same⟩
  | false => exact .inr ⟨_, List.getElem?_eq_getElem inside, by simp [same]⟩

/-- No character is of a kind and of the opposite one. -/
theorem not_at_and_at {kind : α → Bool} {s : List α} {pos : Nat} (here : At kind s pos) :
    ¬ At (!kind ·) s pos := by
  rintro ⟨other, found, opposite⟩
  obtain ⟨c, again, same⟩ := here
  rw [again] at found
  cases found
  simp [same] at opposite

/-- What is found is the first one. -/
theorem findFrom_some {kind : α → Bool} {s : List α} {pos i : Nat}
    (found : findFrom kind s pos = some i) :
    pos ≤ i ∧ At kind s i ∧ ∀ j, pos ≤ j → j < i → ¬ At kind s j := by
  obtain ⟨offset, first, rfl⟩ := Option.map_eq_some_iff.mp found
  obtain ⟨inside, here, before⟩ := List.findIdx?_eq_some_iff_getElem.mp first
  rw [List.length_drop] at inside
  refine ⟨Nat.le_add_left pos offset, ⟨_, ?_, here⟩, ?_⟩
  · rw [← List.getElem?_eq_getElem, List.getElem?_drop, Nat.add_comm]
  · rintro j low high ⟨c, there, same⟩
    have apart := before (j - pos) (by omega)
    obtain ⟨_, value⟩ := List.getElem?_eq_some_iff.mp there
    have index : pos + (j - pos) = j := by omega
    simp only [List.getElem_drop, index, value] at apart
    exact apart same

/-- If nothing is found there is nothing to find. -/
theorem findFrom_none {kind : α → Bool} {s : List α} {pos : Nat}
    (missing : findFrom kind s pos = none) : ∀ j, pos ≤ j → ¬ At kind s j := by
  rintro j low ⟨c, there, same⟩
  have nothing := List.findIdx?_eq_none_iff.mp (Option.map_eq_none_iff.mp missing)
  rw [nothing c (mem_drop_iff.mpr ⟨j, low, there⟩)] at same
  cases same

/-- The search in what follows a front begins behind that. -/
theorem findFrom_behind (kind : α → Bool) (front rest : List α) :
    findFrom kind (front ++ rest) front.length =
      (rest.findIdx? kind).map (· + front.length) := by
  rw [findFrom, List.drop_left]

/-- The part between a front and a rest. -/
theorem substr_behind (front cell rest : List α) :
    substr (front ++ cell ++ rest) front.length cell.length = some cell := by
  have inside : ¬ (front ++ cell ++ rest).length < front.length := by
    simp only [List.length_append]
    omega
  rw [substr, if_neg inside, List.append_assoc, List.drop_left, List.take_left]

/-- What lies between two positions. -/
def slice (s : List α) (bounds : Nat × Nat) : List α :=
  (s.drop bounds.1).take (bounds.2 - bounds.1)

/-- A character of a slice stands at a position between its bounds. -/
theorem mem_slice {s : List α} {start stop : Nat} {c : α} (member : c ∈ slice s (start, stop)) :
    ∃ i, start ≤ i ∧ i < stop ∧ s[i]? = some c := by
  obtain ⟨offset, found⟩ := List.mem_iff_getElem?.mp member
  rw [slice, List.getElem?_take] at found
  split at found
  next bounded =>
    rw [List.getElem?_drop] at found
    exact ⟨start + offset, Nat.le_add_right _ _, by omega, found⟩
  next => cases found

/-- A slice from inside is not empty. -/
theorem slice_ne_nil {s : List α} {start stop : Nat} (nonempty : start < stop)
    (inside : start < s.length) : slice s (start, stop) ≠ [] := by
  intro empty
  have length := congrArg List.length empty
  rw [slice, List.length_take, List.length_drop, List.length_nil] at length
  dsimp only at length
  omega

/-- A slice without a character of a kind. -/
theorem filter_slice {kind : α → Bool} {s : List α} {start stop : Nat}
    (nowhere : ∀ i, start ≤ i → i < stop → ¬ At kind s i) :
    (slice s (start, stop)).filter kind = [] := by
  rw [List.filter_eq_nil_iff]
  intro c member here
  obtain ⟨i, low, high, found⟩ := mem_slice member
  exact nowhere i low high ⟨c, found, here⟩

/-- A text from a position on, cut at a later one. -/
theorem slice_append_drop (s : List α) {start stop : Nat} (ordered : start ≤ stop) :
    slice s (start, stop) ++ s.drop stop = s.drop start := by
  have split : s.drop stop = (s.drop start).drop (stop - start) := by
    rw [List.drop_drop]
    congr 1
    omega
  rw [slice, split, List.take_append_drop]

section

variable [DecidableEq α]

/-- The first position of a pattern. -/
def indexOf (pattern : List α) : List α → Option Nat
  | [] => if pattern = [] then some 0 else none
  | c :: rest =>
    if pattern.isPrefixOf (c :: rest) then some 0 else (indexOf pattern rest).map (· + 1)

/-- The first position of a pattern, from a position on. -/
def findText (s pattern : List α) (pos : Nat) : Option Nat :=
  if s.length < pos then none else (indexOf pattern (s.drop pos)).map (· + pos)

/-- The search for a text in what follows a front begins behind that. -/
theorem findText_behind (pattern front rest : List α) :
    findText (front ++ rest) pattern front.length =
      (indexOf pattern rest).map (· + front.length) := by
  have inside : ¬ (front ++ rest).length < front.length := by
    rw [List.length_append]
    omega
  rw [findText, if_neg inside, List.drop_left]

theorem findText_zero (pattern s : List α) : findText s pattern 0 = indexOf pattern s := by
  have found := findText_behind pattern [] s
  rw [List.nil_append, List.length_nil] at found
  rw [found]
  exact Option.map_id'

/-- The empty pattern is found at once. -/
theorem indexOf_nil (s : List α) : indexOf [] s = some 0 := by
  cases s <;> rfl

/-- A pattern that is found stands there. -/
theorem indexOf_some {pattern s : List α} {i : Nat} (found : indexOf pattern s = some i) :
    i + pattern.length ≤ s.length ∧ s = s.take i ++ pattern ++ s.drop (i + pattern.length) := by
  induction s generalizing i with
  | nil =>
    rw [indexOf] at found
    split at found
    next empty =>
      cases found
      rw [empty]
      exact ⟨Nat.le_refl _, rfl⟩
    next => cases found
  | cons c rest inductionHypothesis =>
    rw [indexOf] at found
    split at found
    next here =>
      cases found
      obtain ⟨more, same⟩ := List.isPrefixOf_iff_prefix.mp here
      rw [← same, Nat.zero_add, List.drop_left, List.take_zero, List.nil_append,
        List.length_append]
      exact ⟨Nat.le_add_right _ _, rfl⟩
    next =>
      obtain ⟨offset, later, rfl⟩ := Option.map_eq_some_iff.mp found
      obtain ⟨bounded, same⟩ := inductionHypothesis later
      rw [Nat.add_right_comm, List.take_succ_cons, List.drop_succ_cons, List.cons_append,
        List.cons_append, ← same, List.length_cons]
      exact ⟨Nat.succ_le_succ bounded, rfl⟩

/-- A pattern behind a text without its first character is found there. -/
theorem indexOf_behind {first : α} {front : List α} (plain : first ∉ front)
    (others rest : List α) :
    indexOf (first :: others) (front ++ (first :: others ++ rest)) = some front.length := by
  induction front with
  | nil =>
    rw [List.nil_append, List.cons_append, indexOf, if_pos]
    · rfl
    · rw [List.isPrefixOf_iff_prefix]
      exact ⟨rest, rfl⟩
  | cons c front inductionHypothesis =>
    rw [List.mem_cons, not_or] at plain
    rw [List.cons_append, indexOf, inductionHypothesis plain.2, if_neg]
    · rfl
    · rw [List.isPrefixOf_iff_prefix]
      rintro ⟨more, same⟩
      exact plain.1 (List.cons.inj same).1

end

end Cppboot.Positions
