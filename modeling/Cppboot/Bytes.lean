import Mathlib.Algebra.Group.Nat.Defs
import Mathlib.Data.List.Basic
import Mathlib.Data.List.DropRight
import Mathlib.Data.List.TakeWhile

/-!
# Byte strings

A `std::string`, a `string_view` and a received block are all finite sequences
of bytes, with no assumption on their contents. String literals of the source
are ASCII; `text` gives their bytes.

Thirty-two-bit words travel as four bytes, least significant first: the layout
that copying a structure of `uint32_t` fields has on the machines the library
targets.
-/

namespace Cppboot

/-- A byte string. -/
abbrev Bytes := List UInt8

/-- The bytes of an ASCII literal. -/
def text (literal : String) : Bytes := literal.toList.map Char.toUInt8

/-- The byte of an ASCII character literal. -/
def byte (literal : Char) : UInt8 := literal.toUInt8

/-- Every character is kept by a search for one that is not there. -/
theorem kept_of_not_mem {s : Bytes} {stop : UInt8} (plain : stop ∉ s) :
    ∀ c ∈ s, decide (c ≠ stop) = true := by
  intro c member
  exact decide_eq_true fun same => plain (same ▸ member)

/-- The characters at the front that satisfy a test, before one that does not. -/
theorem takeWhile_front {keep : UInt8 → Bool} {front tail : Bytes}
    (kept : ∀ c ∈ front, keep c = true) (stops : ∀ c, tail.head? = some c → keep c = false) :
    (front ++ tail).takeWhile keep = front ∧ (front ++ tail).dropWhile keep = tail := by
  rw [List.takeWhile_append_of_pos kept, List.dropWhile_append_of_pos kept]
  cases tail with
  | nil => exact ⟨List.append_nil front, rfl⟩
  | cons c tail =>
    have other : ¬ keep c = true := Bool.eq_false_iff.mp (stops c rfl)
    rw [List.takeWhile_cons_of_neg other, List.dropWhile_cons_of_neg other, List.append_nil]
    exact ⟨rfl, rfl⟩

/-- A string up to a stop that is not in its front, and behind it. -/
theorem cut_at_stop {front : Bytes} {stop : UInt8} (plain : stop ∉ front) (more : Bytes) :
    (front ++ stop :: more).takeWhile (· ≠ stop) = front ∧
      ((front ++ stop :: more).dropWhile (· ≠ stop)).drop 1 = more := by
  have stops : ∀ c, (stop :: more).head? = some c → decide (c ≠ stop) = false := by
    rintro c ⟨⟩
    exact decide_eq_false fun other => other rfl
  obtain ⟨taken, left⟩ := takeWhile_front (kept_of_not_mem plain) stops
  rw [taken, left]
  exact ⟨rfl, rfl⟩

/-- Two strings that are equal have the same front before their first stop. -/
theorem same_cut {front other more rest : Bytes} {stop : UInt8} (plain : stop ∉ front)
    (unstopped : stop ∉ other) (same : front ++ stop :: more = other ++ stop :: rest) :
    front = other ∧ more = rest := by
  have mine := cut_at_stop plain more
  have theirs := cut_at_stop unstopped rest
  rw [same] at mine
  exact ⟨mine.1.symm.trans theirs.1, mine.2.symm.trans theirs.2⟩

/-- Where a text is cut in two, a front that reaches its first stop has it whole. -/
theorem cut_behind_stop {line rest front behind : Bytes} {stop : UInt8} (plain : stop ∉ line)
    (whole : front ++ behind = line ++ stop :: rest) (reached : stop ∈ front) :
    ∃ more, front = line ++ stop :: more ∧ more ++ behind = rest := by
  rcases List.append_eq_append_iff.mp whole with ⟨missing, rfl, _⟩ | ⟨extra, rfl, tail⟩
  · exact absurd (List.mem_append_left _ reached) plain
  · cases extra with
    | nil =>
      rw [List.append_nil] at reached
      exact absurd reached plain
    | cons c more =>
      obtain ⟨rfl, same⟩ := List.cons.inj tail
      exact ⟨more, rfl, same.symm⟩

/-- A pattern does not begin in a text without its first character. -/
theorem infix_behind {pattern line rest : Bytes} {first : UInt8}
    (begins : pattern.head? = some first) (plain : first ∉ line)
    (found : pattern <:+: line ++ rest) : pattern <:+: rest := by
  induction line with
  | nil => exact found
  | cons c line inductionHypothesis =>
    rw [List.mem_cons, not_or] at plain
    rw [List.cons_append] at found
    rcases List.infix_cons_iff.mp found with ⟨more, here⟩ | later
    · have same := congrArg List.head? here
      rw [List.head?_append, begins] at same
      exact absurd (Option.some.inj same) plain.1
    · exact inductionHypothesis plain.2 later

/-- No stop is in front of the first one. -/
theorem stop_not_mem_front (bytes : Bytes) (stop : UInt8) :
    stop ∉ bytes.takeWhile (· ≠ stop) := by
  intro member
  simpa using List.mem_takeWhile_imp member

/-- What follows the longest front without a stop is empty or starts with it. -/
theorem dropWhile_stop (bytes : Bytes) (stop : UInt8) :
    bytes.dropWhile (· ≠ stop) = [] ∨
      ∃ rest, bytes.dropWhile (· ≠ stop) = stop :: rest := by
  cases behind : bytes.dropWhile (· ≠ stop) with
  | nil => exact .inl rfl
  | cons c rest =>
    have head := List.head?_dropWhile_not (fun c => decide (c ≠ stop)) bytes
    rw [behind] at head
    have same : c = stop := by simpa using head
    exact .inr ⟨rest, by rw [same]⟩

/-- A string with a character of a kind, cut at the last of them. -/
theorem last_where {kind : UInt8 → Bool} {s : Bytes} (some_of_kind : ∃ c ∈ s, kind c = true) :
    ∃ front stop behind,
      s = front ++ stop :: behind ∧ kind stop = true ∧ ∀ c ∈ behind, kind c = false := by
  induction s with
  | nil =>
    obtain ⟨c, member, _⟩ := some_of_kind
    exact absurd member List.not_mem_nil
  | cons c s inductionHypothesis =>
    by_cases later : ∃ c ∈ s, kind c = true
    · obtain ⟨front, stop, behind, rfl, stops, plain⟩ := inductionHypothesis later
      exact ⟨c :: front, stop, behind, rfl, stops, plain⟩
    · have plain : ∀ c ∈ s, kind c = false := fun c member =>
        Bool.eq_false_iff.mpr fun stops => later ⟨c, member, stops⟩
      obtain ⟨stop, member, stops⟩ := some_of_kind
      obtain rfl | member := List.mem_cons.mp member
      · exact ⟨[], stop, s, rfl, stops, plain⟩
      · exact absurd ⟨stop, member, stops⟩ later

/-- A string is cut at the last stop in it. -/
theorem last_stop {s : Bytes} {stop : UInt8} (member : stop ∈ s) :
    ∃ front behind, s = front ++ stop :: behind ∧ stop ∉ behind := by
  have found : ∃ c ∈ s, decide (c = stop) = true := ⟨stop, member, decide_eq_true rfl⟩
  obtain ⟨front, last, behind, split, same, plain⟩ := last_where found
  obtain rfl : last = stop := of_decide_eq_true same
  exact ⟨front, behind, split, fun found => of_decide_eq_false (plain last found) rfl⟩

/-- What follows the last character that is not kept. -/
theorem rtakeWhile_behind {keep : UInt8 → Bool} (front : Bytes) {behind : Bytes} {stop : UInt8}
    (stops : keep stop = false) (kept : ∀ c ∈ behind, keep c = true) :
    (front ++ stop :: behind).rtakeWhile keep = behind := by
  have unstopped : ∀ c ∈ behind.reverse, keep c = true := fun c found =>
    kept c (List.mem_reverse.mp found)
  have cut : (behind.reverse ++ stop :: front.reverse).takeWhile keep = behind.reverse :=
    (takeWhile_front unstopped (by rintro c ⟨⟩; exact stops)).1
  rw [List.rtakeWhile, List.reverse_append, List.reverse_cons, List.append_assoc,
    List.singleton_append, cut, List.reverse_reverse]

theorem rtakeWhile_stop (front : Bytes) {behind : Bytes} {stop : UInt8}
    (plain : stop ∉ behind) : (front ++ stop :: behind).rtakeWhile (· ≠ stop) = behind :=
  rtakeWhile_behind front (by simp) (kept_of_not_mem plain)

theorem findIdx?_reverse_none {kind : UInt8 → Bool} {s : Bytes}
    (plain : ∀ c ∈ s, kind c = false) : s.reverse.findIdx? kind = none :=
  List.findIdx?_eq_none_iff.mpr fun c member => plain c (List.mem_reverse.mp member)

/-- From the end, the first character of a kind is the last one. -/
theorem findIdx?_reverse_behind {kind : UInt8 → Bool} (front : Bytes) {behind : Bytes}
    {stop : UInt8} (stops : kind stop = true) (plain : ∀ c ∈ behind, kind c = false) :
    (front ++ stop :: behind).reverse.findIdx? kind = some behind.length := by
  rw [List.reverse_append, List.reverse_cons, List.append_assoc, List.singleton_append,
    List.findIdx?_append, findIdx?_reverse_none plain, List.findIdx?_cons, if_pos stops]
  simp

/-- What a C function sees of a string: the characters in front of its first NUL. -/
def cstr (s : Bytes) : Bytes := s.takeWhile (· ≠ 0)

/-- What stands in front of the string is kept up to its first NUL. -/
theorem cstr_append (front behind : Bytes) :
    cstr (front ++ behind) = if 0 ∈ front then cstr front else front ++ cstr behind := by
  unfold cstr
  split
  next cut =>
    obtain ⟨seen, unseen, rfl, plain⟩ := List.eq_append_cons_of_mem cut
    rw [List.append_assoc, List.cons_append, (cut_at_stop plain _).1, (cut_at_stop plain _).1]
  next plain => exact List.takeWhile_append_of_pos (kept_of_not_mem plain)

/-- The C string in a string. -/
theorem cstr_front (s : Bytes) : cstr s <+: s := List.takeWhile_prefix _

/-- A string without a NUL is seen whole. -/
theorem cstr_plain {s : Bytes} (plain : 0 ∉ s) : cstr s = s :=
  List.takeWhile_eq_self_iff.mpr (kept_of_not_mem plain)

/-- `isspace` in the default locale. -/
def isSpace (c : UInt8) : Bool := c == byte ' ' || (9 ≤ c && c ≤ 13)

/-- What holds of the numbers below 256 holds of every byte. -/
theorem every_byte {holds : UInt8 → Prop} (below : ∀ n < 256, holds (UInt8.ofNat n))
    (c : UInt8) : holds c := by
  have found := below c.toNat c.toNat_lt
  rwa [UInt8.ofNat_toNat] at found

namespace Bytes

/-- The four bytes of a word in memory order. -/
def ofWord (word : UInt32) : Bytes :=
  [UInt8.ofNat word.toNat, UInt8.ofNat (word.toNat / 256),
    UInt8.ofNat (word.toNat / 65536), UInt8.ofNat (word.toNat / 16777216)]

/-- The word stored in four bytes of memory. -/
def toWord (b0 b1 b2 b3 : UInt8) : UInt32 :=
  UInt32.ofNat (b0.toNat + 256 * b1.toNat + 65536 * b2.toNat + 16777216 * b3.toNat)

@[simp] theorem ofWord_length (word : UInt32) : (ofWord word).length = 4 := rfl

/-- Storing a word and loading it again gives the word. The four quotients are
the base-256 digits of a number below `2 ^ 32`. -/
theorem toWord_ofWord (word : UInt32) :
    toWord (UInt8.ofNat word.toNat) (UInt8.ofNat (word.toNat / 256))
      (UInt8.ofNat (word.toNat / 65536)) (UInt8.ofNat (word.toNat / 16777216)) = word := by
  have bound : word.toNat < 4294967296 := word.toNat_lt
  apply UInt32.toNat_inj.mp
  simp only [toWord, UInt8.toNat_ofNat', UInt32.toNat_ofNat']
  omega

/-- Loading a word from memory and storing it again gives the bytes. -/
theorem ofWord_toWord (b0 b1 b2 b3 : UInt8) : ofWord (toWord b0 b1 b2 b3) = [b0, b1, b2, b3] := by
  have bound0 := b0.toNat_lt
  have bound1 := b1.toNat_lt
  have bound2 := b2.toNat_lt
  have bound3 := b3.toNat_lt
  simp only [ofWord, toWord, List.cons.injEq, and_true, ← UInt8.toNat_inj, UInt8.toNat_ofNat',
    UInt32.toNat_ofNat']
  omega

end Bytes

end Cppboot
