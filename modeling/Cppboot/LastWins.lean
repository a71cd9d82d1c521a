import Mathlib.Data.List.Basic
import Mathlib.Data.List.Induction

/-!
# Tables that are written over

A table is filled from a list of pairs, one after the other, so that a later value
takes the place of an earlier one. What the table holds under a key is the value of
the last pair with that key or, if there is none, what it held before.
-/

namespace Cppboot.LastWins

open Std

universe u v
variable {κ : Type u} {ν : Type v} [BEq κ]

/-- The value of the last pair with this key. -/
def lastValue (pairs : List (κ × ν)) (key : κ) : Option ν := pairs.reverse.lookup key

theorem lastValue_concat (pairs : List (κ × ν)) (pair : κ × ν) (key : κ) :
    lastValue (pairs ++ [pair]) key =
      if key == pair.1 then some pair.2 else lastValue pairs key := by
  have reversed : (pairs ++ [pair]).reverse = pair :: pairs.reverse := by simp
  rw [lastValue, reversed, List.lookup_cons]
  cases key == pair.1 <;> rfl

theorem lastValue_eq_none_iff [LawfulBEq κ] {pairs : List (κ × ν)} {key : κ} :
    lastValue pairs key = none ↔ ∀ pair ∈ pairs, pair.1 ≠ key := by
  rw [lastValue, List.lookup_eq_none_iff]
  simp [bne_iff_ne, ne_comm]

/-- Among pairs with distinct keys every one is the last with its key. -/
theorem lastValue_of_mem [LawfulBEq κ] {pairs : List (κ × ν)}
    (distinct : (pairs.map Prod.fst).Nodup) {pair : κ × ν} (member : pair ∈ pairs) :
    lastValue pairs pair.1 = some pair.2 := by
  induction pairs using List.reverseRecOn with
  | nil => cases member
  | append_singleton pairs last inductionHypothesis =>
    rw [List.map_append, List.nodup_append] at distinct
    obtain ⟨distinct, _, apart⟩ := distinct
    rw [lastValue_concat]
    obtain earlier | here := List.mem_append.mp member
    · have other : ¬ (pair.1 == last.1) = true := by
        rw [beq_iff_eq]
        exact apart _ (List.mem_map_of_mem earlier) _ (List.mem_singleton.mpr rfl)
      rw [if_neg other]
      exact inductionHypothesis distinct earlier
    · rw [List.mem_singleton.mp here, if_pos BEq.rfl]

/-- Pairs with other keys do not matter. -/
theorem lastValue_filter [LawfulBEq κ] (pairs : List (κ × ν)) (keep : κ → Bool) {key : κ}
    (kept : keep key = true) :
    lastValue (pairs.filter fun pair => keep pair.1) key = lastValue pairs key := by
  induction pairs using List.reverseRecOn with
  | nil => rfl
  | append_singleton pairs pair inductionHypothesis =>
    rw [List.filter_append, lastValue_concat, ← inductionHypothesis]
    by_cases same : key = pair.1
    · subst same
      rw [List.filter_singleton, kept, if_pos BEq.rfl]
      exact (lastValue_concat _ pair _).trans (if_pos BEq.rfl)
    · have other : ¬ (key == pair.1) = true := by simpa using same
      rw [if_neg other, List.filter_singleton]
      cases keep pair.1 with
      | true => exact (lastValue_concat _ pair _).trans (if_neg other)
      | false => rw [cond_false, List.append_nil]

variable [Ord κ] [TransOrd κ] [LawfulEqOrd κ] [LawfulBEq κ]

/-- Enter pairs into a table, one after the other. -/
def insertAll (table : ExtTreeMap κ ν) (pairs : List (κ × ν)) : ExtTreeMap κ ν :=
  pairs.foldl (fun table pair => table.insert pair.1 pair.2) table

/-- The last value that was entered for a key is found. -/
theorem getElem?_insertAll (table : ExtTreeMap κ ν) (pairs : List (κ × ν)) (key : κ) :
    (insertAll table pairs)[key]? = (lastValue pairs key).or table[key]? := by
  induction pairs using List.reverseRecOn with
  | nil => rfl
  | append_singleton pairs pair inductionHypothesis =>
    have entered : insertAll table (pairs ++ [pair]) =
        (insertAll table pairs).insert pair.1 pair.2 := List.foldl_append
    rw [entered, lastValue_concat]
    by_cases same : key = pair.1
    · subst same
      rw [ExtTreeMap.getElem?_insert_self, if_pos BEq.rfl]
      rfl
    · have other : ¬ (key == pair.1) = true := by simpa using same
      have unequal : ¬ compare pair.1 key = .eq := fun equal =>
        same (LawfulEqCmp.compare_eq_iff_eq.mp equal).symm
      rw [ExtTreeMap.getElem?_insert, if_neg unequal, if_neg other]
      exact inductionHypothesis

end Cppboot.LastWins
