import Mathlib.Algebra.BigOperators.Group.Finset.Piecewise
import Mathlib.Algebra.Ring.Nat
import Mathlib.Logic.Function.Basic

/-!
# The work that is left in a family of queues

Items wait in queues, one queue for each index, and each item stands for some work that
is still to be done for it. Only finitely many queues hold anything, so the work that is
left is a sum. Taking an item off the front takes its work away, and adding an item at the
end adds its work. Where every item that is taken leaves behind less work than its own,
the items that are ever taken are bounded by the work that was put in.
-/

namespace Cppboot.QueueWork

variable {ι α : Type} {work : ι → α → Nat} {queues : ι → List α} {bound : Nat}

/-- At most so much work is left in the queues. -/
def Within (work : ι → α → Nat) (queues : ι → List α) (bound : Nat) : Prop :=
  ∃ busy : Finset ι, (∀ i ∉ busy, queues i = []) ∧
    ∑ i ∈ busy, ((queues i).map (work i)).sum ≤ bound

/-- No messages, no work. -/
theorem within_empty (work : ι → α → Nat) : Within work (fun _ => []) 0 :=
  ⟨∅, fun _ _ => rfl, Nat.le_refl _⟩

theorem Within.mono (within : Within work queues bound) {more : Nat} (le : bound ≤ more) :
    Within work queues more := by
  obtain ⟨busy, idle, left⟩ := within
  exact ⟨busy, idle, left.trans le⟩

variable [DecidableEq ι]

/-- The work of one queue is apart from that of the others. -/
theorem Within.split (within : Within work queues bound) (i : ι) :
    ∃ others : Finset ι, i ∉ others ∧ (∀ j ∉ others, j ≠ i → queues j = []) ∧
      ((queues i).map (work i)).sum + ∑ j ∈ others, ((queues j).map (work j)).sum ≤ bound := by
  obtain ⟨busy, idle, left⟩ := within
  refine ⟨busy.erase i, Finset.notMem_erase i busy, ?_, ?_⟩
  · intro j outside other
    exact idle j fun member => outside (Finset.mem_erase.mpr ⟨other, member⟩)
  · by_cases member : i ∈ busy
    · rw [Finset.add_sum_erase busy (fun j => ((queues j).map (work j)).sum) member]
      exact left
    · rw [Finset.erase_eq_of_notMem member, idle i member]
      simpa using left

/-- Another queue in the place of one counts with its own work. -/
theorem Within.replace {others : Finset ι} {i : ι} (apart : i ∉ others)
    (idle : ∀ j ∉ others, j ≠ i → queues j = []) {queue : List α}
    (left : (queue.map (work i)).sum + ∑ j ∈ others, ((queues j).map (work j)).sum ≤ bound) :
    Within work (Function.update queues i queue) bound := by
  refine ⟨insert i others, ?_, ?_⟩
  · intro j outside
    obtain ⟨other, outside⟩ := not_or.mp (Finset.mem_insert.not.mp outside)
    rw [Function.update_of_ne other]
    exact idle j outside other
  · rw [Finset.sum_insert apart, Function.update_self]
    have same : ∀ j ∈ others, ((Function.update queues i queue j).map (work j)).sum =
        ((queues j).map (work j)).sum := by
      intro j member
      have other : j ≠ i := fun same => apart (same ▸ member)
      rw [Function.update_of_ne other]
    rw [Finset.sum_congr rfl same]
    exact left

/-- An item that is taken takes its work away. -/
theorem Within.take (within : Within work queues bound) {i : ι} {item : α} {rest : List α}
    (front : queues i = item :: rest) :
    ∃ left, left + work i item ≤ bound ∧ Within work (Function.update queues i rest) left := by
  obtain ⟨others, apart, idle, sum⟩ := within.split i
  rw [front, List.map_cons, List.sum_cons] at sum
  refine ⟨bound - work i item, by omega, Within.replace apart idle (by omega)⟩

/-- An item that is added adds its work. -/
theorem Within.add (within : Within work queues bound) (i : ι) (item : α) :
    Within work (Function.update queues i (queues i ++ [item])) (bound + work i item) := by
  obtain ⟨others, apart, idle, sum⟩ := within.split i
  refine Within.replace apart idle ?_
  rw [List.map_append, List.sum_append, List.map_singleton, List.sum_singleton]
  omega

end Cppboot.QueueWork
