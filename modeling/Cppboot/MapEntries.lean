import Mathlib.Data.List.Basic
import Mathlib.Data.List.Perm.Basic
import Std.Data.ExtTreeMap

/-!
# The entries of a map

What inserting and removing a key does to the list of all entries, up to their
order: whoever adds up something over a map follows the sum through the operations.
-/

namespace Cppboot.MapEntries

open Std

universe u v
variable {α : Type u} {β : Type v} [Ord α] [TransOrd α] [LawfulEqOrd α]

/-- No entry is listed twice. -/
theorem entries_nodup (map : ExtTreeMap α β) : map.toList.Nodup := by
  refine ExtTreeMap.distinct_keys_toList.imp ?_
  rintro left right apart rfl
  exact apart ReflCmp.compare_self

/-- The entries of the other keys remain. -/
theorem mem_entries_erase (map : ExtTreeMap α β) (key : α) (entry : α × β) :
    entry ∈ (map.erase key).toList ↔ entry.1 ≠ key ∧ entry ∈ map.toList := by
  obtain ⟨other, content⟩ := entry
  simp only [ExtTreeMap.mem_toList_iff_getElem?_eq_some, ExtTreeMap.getElem?_erase,
    LawfulEqCmp.compare_eq_iff_eq]
  by_cases same : key = other
  · simp [same]
  · simp [same, Ne.symm same]

/-- A key that is there has one entry, and the others are those without the key. -/
theorem entries_of_found {map : ExtTreeMap α β} {key : α} {value : β}
    (found : map[key]? = some value) :
    map.toList.Perm ((key, value) :: (map.erase key).toList) := by
  have absent : (key, value) ∉ (map.erase key).toList := by
    rw [mem_entries_erase]
    exact fun member => member.1 rfl
  rw [List.perm_ext_iff_of_nodup (entries_nodup map)
    (List.nodup_cons.mpr ⟨absent, entries_nodup _⟩)]
  intro entry
  rw [List.mem_cons, mem_entries_erase]
  by_cases same : entry.1 = key
  · obtain ⟨other, content⟩ := entry
    obtain rfl : other = key := same
    rw [ExtTreeMap.mem_toList_iff_getElem?_eq_some, found, Option.some.injEq]
    simp [eq_comm]
  · have different : entry ≠ (key, value) := fun equal => same (congrArg Prod.fst equal)
    simp [same, different]

/-- Removing a key that is not there removes nothing. -/
theorem entries_of_missing {map : ExtTreeMap α β} {key : α} (missing : map[key]? = none) :
    (map.erase key).toList.Perm map.toList := by
  rw [List.perm_ext_iff_of_nodup (entries_nodup _) (entries_nodup _)]
  intro entry
  rw [mem_entries_erase, and_iff_right_iff_imp]
  rintro member rfl
  rw [ExtTreeMap.mem_toList_iff_getElem?_eq_some, missing] at member
  cases member

/-- The new entry, and those that have another key. -/
theorem entries_insert (map : ExtTreeMap α β) (key : α) (value : β) :
    (map.insert key value).toList.Perm ((key, value) :: (map.erase key).toList) := by
  refine (entries_of_found ExtTreeMap.getElem?_insert_self).trans ?_
  refine List.Perm.cons _ ?_
  rw [List.perm_ext_iff_of_nodup (entries_nodup _) (entries_nodup _)]
  rintro ⟨other, content⟩
  rw [mem_entries_erase, mem_entries_erase, and_congr_right_iff]
  intro different
  have unequal : ¬ compare key other = .eq := fun equal =>
    different (LawfulEqCmp.compare_eq_iff_eq.mp equal).symm
  rw [ExtTreeMap.mem_toList_iff_getElem?_eq_some, ExtTreeMap.mem_toList_iff_getElem?_eq_some,
    ExtTreeMap.getElem?_insert, if_neg unequal]

end Cppboot.MapEntries
