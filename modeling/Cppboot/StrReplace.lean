import Cppboot.Bytes
import Cppboot.Positions

/-!
# Replacing in a string

`StrReplace` searches from a position on, puts the new text in the place of what it
finds, and goes on behind the new text. The text in front of the position is never
looked at again, so the loop replaces from the left, without overlaps, and ends after
as many turns as there are occurrences.

The empty text is found at every position, also at the end of the string. What is put
there moves the end as far as the position, and the loop never gets past it.
-/

namespace Cppboot

open Positions

/-- The string and the position in it. -/
structure Replacing where
  str : Bytes
  pos : Nat
deriving DecidableEq, Repr

section

variable (from_ to_ : Bytes)

/-- One turn of the loop. There is none after the last occurrence. -/
def replaceNext (state : Replacing) : Option Replacing :=
  (findText state.str from_ state.pos).map fun pos =>
    ⟨state.str.take pos ++ to_ ++ state.str.drop (pos + from_.length), pos + to_.length⟩

/-- The loop, if it ends after fewer than so many turns. -/
def strReplaceLoop : Nat → Replacing → Option Bytes
  | 0, _ => none
  | turns + 1, state =>
    match replaceNext from_ to_ state with
    | none => some state.str
    | some next => strReplaceLoop turns next

/-- `StrReplace`: the string it returns and leaves behind. -/
def strReplace (turns : Nat) (str : Bytes) : Option Bytes :=
  strReplaceLoop from_ to_ turns ⟨str, 0⟩

/-- A scan from the left that has just replaced something passes over the rest of it. -/
def replacedFrom : Nat → Bytes → Bytes
  | _, [] => []
  | passed + 1, _ :: rest => replacedFrom passed rest
  | 0, c :: rest =>
    if from_.isPrefixOf (c :: rest) then to_ ++ replacedFrom (from_.length - 1) rest
    else c :: replacedFrom 0 rest

/-- Each occurrence replaced that does not overlap an earlier one. -/
def replaced (s : Bytes) : Bytes := replacedFrom from_ to_ 0 s

/-- What is passed over is dropped. -/
theorem replacedFrom_drop (passed : Nat) (s : Bytes) :
    replacedFrom from_ to_ passed s = replaced from_ to_ (s.drop passed) := by
  induction s generalizing passed with
  | nil =>
    rw [List.drop_nil]
    cases passed <;> rfl
  | cons c rest inductionHypothesis =>
    cases passed with
    | zero => rfl
    | succ passed => rw [replacedFrom, inductionHypothesis, List.drop_succ_cons]

end

variable {from_ : Bytes}

/-- What is in front of the first occurrence stays. -/
theorem replaced_some (nonempty : from_ ≠ []) (to_ : Bytes) {s : Bytes} {i : Nat}
    (found : indexOf from_ s = some i) :
    replaced from_ to_ s = s.take i ++ to_ ++ replaced from_ to_ (s.drop (i + from_.length)) := by
  induction s generalizing i with
  | nil =>
    rw [indexOf, if_neg nonempty] at found
    cases found
  | cons c rest inductionHypothesis =>
    rw [indexOf] at found
    split at found
    next here =>
      cases found
      obtain ⟨first, others, rfl⟩ := List.exists_cons_of_ne_nil nonempty
      rw [replaced, replacedFrom, if_pos here, replacedFrom_drop, Nat.zero_add,
        List.length_cons, List.drop_succ_cons]
      rfl
    next elsewhere =>
      obtain ⟨offset, later, rfl⟩ := Option.map_eq_some_iff.mp found
      rw [replaced, replacedFrom, if_neg elsewhere, ← replaced, inductionHypothesis later,
        Nat.add_right_comm, List.drop_succ_cons, List.take_succ_cons]
      rfl

theorem replaced_none (to_ : Bytes) {s : Bytes} (missing : indexOf from_ s = none) :
    replaced from_ to_ s = s := by
  induction s with
  | nil => rfl
  | cons c rest inductionHypothesis =>
    rw [indexOf] at missing
    split at missing
    next => cases missing
    next elsewhere =>
      rw [replaced, replacedFrom, if_neg elsewhere, ← replaced,
        inductionHypothesis (Option.map_eq_none_iff.mp missing)]

/-- A turn of the loop takes what it passes over, and what it puts there, in front of the
position. -/
theorem replaceNext_behind (to_ front rest : Bytes) :
    replaceNext from_ to_ ⟨front ++ rest, front.length⟩ =
      (indexOf from_ rest).map fun i =>
        ⟨(front ++ rest.take i ++ to_) ++ rest.drop (i + from_.length),
          (front ++ rest.take i ++ to_).length⟩ := by
  rw [replaceNext, findText_behind]
  cases found : indexOf from_ rest with
  | none => rfl
  | some i =>
    obtain ⟨bounded, _⟩ := indexOf_some found
    have kept : (front ++ rest).take (i + front.length) = front ++ rest.take i := by
      rw [Nat.add_comm, List.take_length_add_append]
    have left : (front ++ rest).drop (i + front.length + from_.length) =
        rest.drop (i + from_.length) := by
      rw [Nat.add_right_comm, Nat.add_comm _ front.length, List.drop_length_add_append]
    simp only [Option.map_some, kept, left, List.length_append, List.length_take]
    rw [Nat.min_eq_left (by omega), Nat.add_comm i front.length]

/-- Enough turns replace all of what follows the position. -/
theorem strReplaceLoop_eq (nonempty : from_ ≠ []) (to_ front rest : Bytes) {turns : Nat}
    (enough : rest.length < turns) :
    strReplaceLoop from_ to_ turns ⟨front ++ rest, front.length⟩ =
      some (front ++ replaced from_ to_ rest) := by
  induction turns generalizing front rest with
  | zero => omega
  | succ turns inductionHypothesis =>
    rw [strReplaceLoop, replaceNext_behind]
    cases found : indexOf from_ rest with
    | none => rw [Option.map_none, replaced_none to_ found]
    | some i =>
      obtain ⟨bounded, _⟩ := indexOf_some found
      have positive := List.length_pos_of_ne_nil nonempty
      have shorter : (rest.drop (i + from_.length)).length < turns := by
        rw [List.length_drop]
        omega
      rw [Option.map_some]
      dsimp only
      rw [inductionHypothesis _ _ shorter, replaced_some nonempty to_ found]
      simp

/-- The empty text is found over and over. -/
theorem strReplaceLoop_nil (to_ front rest : Bytes) (turns : Nat) :
    strReplaceLoop [] to_ turns ⟨front ++ rest, front.length⟩ = none := by
  induction turns generalizing front with
  | zero => rfl
  | succ turns inductionHypothesis =>
    rw [strReplaceLoop, replaceNext_behind, indexOf_nil]
    exact inductionHypothesis (front ++ rest.take 0 ++ to_)

/-- The loop ends exactly when there is something to look for. -/
theorem strReplace_ends_iff (str to_ : Bytes) :
    (∃ turns result, strReplace from_ to_ turns str = some result) ↔ from_ ≠ [] := by
  constructor
  · rintro ⟨turns, result, ended⟩ rfl
    have never : strReplace [] to_ turns str = none := strReplaceLoop_nil to_ [] str turns
    rw [never] at ended
    cases ended
  · intro nonempty
    exact ⟨str.length + 1, _, strReplaceLoop_eq nonempty to_ [] str (Nat.lt_succ_self _)⟩

/-- Nothing is looked for, and with nothing or with something to put there the loop goes on. -/
theorem empty_text_never_ends :
    ¬ (∃ turns result, strReplace [] [] turns (text "a") = some result) ∧
      ¬ ∃ turns result, strReplace [] (text "x") turns (text "a") = some result := by
  constructor
  · rintro ⟨turns, result, ended⟩
    cases (strReplaceLoop_nil [] [] (text "a") turns).symm.trans ended
  · rintro ⟨turns, result, ended⟩
    cases (strReplaceLoop_nil (text "x") [] (text "a") turns).symm.trans ended

/-- What is left of the string does not depend on the new text. -/
theorem replaced_pieces (nonempty : from_ ≠ []) (s : Bytes) :
    ∃ pieces, pieces ≠ [] ∧ from_.intercalate pieces = s ∧
      ∀ to_, replaced from_ to_ s = to_.intercalate pieces := by
  induction length : s.length using Nat.strongRecOn generalizing s with
  | _ n inductionHypothesis =>
    cases found : indexOf from_ s with
    | none =>
      refine ⟨[s], List.cons_ne_nil _ _, List.intercalate_singleton, fun to_ => ?_⟩
      rw [replaced_none to_ found, List.intercalate_singleton]
    | some i =>
      obtain ⟨bounded, whole⟩ := indexOf_some found
      have positive := List.length_pos_of_ne_nil nonempty
      have shorter : (s.drop (i + from_.length)).length < n := by
        rw [List.length_drop]
        omega
      obtain ⟨pieces, some_piece, joined, parts⟩ := inductionHypothesis _ shorter _ rfl
      obtain ⟨first, others, rfl⟩ := List.exists_cons_of_ne_nil some_piece
      refine ⟨s.take i :: first :: others, List.cons_ne_nil _ _, ?_, fun to_ => ?_⟩
      · rw [List.intercalate_cons_cons, joined]
        exact whole.symm
      · rw [replaced_some nonempty to_ found, parts, List.intercalate_cons_cons]

/-- Every occurrence that does not overlap an earlier one is replaced, and what is put
there is not looked at: the string falls into the same pieces whatever the new text is. -/
theorem strReplace_replaces (nonempty : from_ ≠ []) (str : Bytes) :
    (∀ to_ turns, str.length < turns →
      strReplace from_ to_ turns str = some (replaced from_ to_ str)) ∧
    ∃ pieces, from_.intercalate pieces = str ∧
      ∀ to_, replaced from_ to_ str = to_.intercalate pieces := by
  constructor
  · intro to_ turns enough
    exact strReplaceLoop_eq nonempty to_ [] str enough
  · obtain ⟨pieces, _, joined, parts⟩ := replaced_pieces nonempty str
    exact ⟨pieces, joined, parts⟩

/-- Of two occurrences that overlap, the first is replaced. -/
theorem overlap_replaced :
    strReplace (text "aa") (text "xaay") 5 (text "aaab") = some (text "xaayab") := by
  rw [(strReplace_replaces (by decide) (text "aaab")).1 (text "xaay") 5 (by decide)]
  decide

end Cppboot
