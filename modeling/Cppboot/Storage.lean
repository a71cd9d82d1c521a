import Mathlib.Data.List.Basic

/-!
# Contiguous storage as a list of cells

A block of memory is the list of its cells. `slice` reads a run of cells,
`overwrite` stores a run of cells in place and `resize` changes the number of
cells, keeping the leading ones and filling new ones with a default. The laws
say what a read returns after a write: the written cells, the cells before the
written run, or both joined when the read ends where the write does.
-/

namespace Cppboot.Storage

universe u
variable {α : Type u}

/-- The `count` cells from position `start`. -/
def slice (cells : List α) (start count : Nat) : List α := (cells.drop start).take count

/-- Store the given cells from position `start`, in place. -/
def overwrite (cells : List α) (start : Nat) (written : List α) : List α :=
  cells.take start ++ written ++ cells.drop (start + written.length)

/-- Change the number of cells; new cells hold the default. -/
def resize (cells : List α) (count : Nat) (default : α) : List α :=
  cells.take count ++ List.replicate (count - cells.length) default

/-- A read inside the block returns as many cells as were asked for. -/
theorem slice_length (cells : List α) (start count : Nat)
    (inside : start + count ≤ cells.length) : (slice cells start count).length = count := by
  simp only [slice, List.length_take, List.length_drop]
  omega

/-- Reading nothing returns nothing. -/
@[simp] theorem slice_zero (cells : List α) (start : Nat) : slice cells start 0 = [] := by
  simp [slice]

/-- The first cells of a read are a shorter read at the same place. -/
theorem slice_take (cells : List α) (start count fewer : Nat) (shorter : fewer ≤ count) :
    (slice cells start count).take fewer = slice cells start fewer := by
  simp only [slice, List.take_take, Nat.min_eq_left shorter]

/-- The later cells of a read are a shorter read further on. -/
theorem slice_drop (cells : List α) (start count skipped : Nat) :
    (slice cells start count).drop skipped = slice cells (start + skipped) (count - skipped) := by
  simp only [slice, List.drop_take, List.drop_drop]

/-- A write inside the block keeps the number of cells. -/
theorem overwrite_length (cells written : List α) (start : Nat)
    (inside : start + written.length ≤ cells.length) :
    (overwrite cells start written).length = cells.length := by
  simp only [overwrite, List.length_append, List.length_take, List.length_drop]
  omega

/-- A read that ends where the write ends returns the cells before the write,
followed by the written cells. -/
theorem slice_overwrite_append (cells written : List α) (start position : Nat)
    (before : position ≤ start) (inside : start ≤ cells.length) :
    slice (overwrite cells start written) position (start - position + written.length) =
      slice cells position (start - position) ++ written := by
  have front : (cells.take start).length = start := List.length_take_of_le inside
  simp only [slice, overwrite, List.append_assoc]
  rw [List.drop_append_of_le_length (by omega), List.drop_take, ← List.append_assoc]
  rw [List.take_append_of_le_length (by
    simp only [List.length_append, List.length_take, List.length_drop]
    omega)]
  exact List.take_of_length_le (by
    simp only [List.length_append, List.length_take, List.length_drop]
    omega)

/-- Reading back exactly the written run returns it. -/
theorem slice_overwrite_self (cells written : List α) (start : Nat)
    (inside : start ≤ cells.length) :
    slice (overwrite cells start written) start written.length = written := by
  have joined := slice_overwrite_append cells written start start (Nat.le_refl _) inside
  simpa using joined

/-- Growing the block keeps what was readable in it. -/
theorem slice_resize (cells : List α) (count position length : Nat) (default : α)
    (inside : position + length ≤ cells.length) (grown : cells.length ≤ count) :
    slice (resize cells count default) position length = slice cells position length := by
  simp only [slice, resize, List.take_of_length_le grown]
  rw [List.drop_append_of_le_length (by omega),
    List.take_append_of_le_length (by simp only [List.length_drop]; omega)]

/-- A block grown to `count` cells has that many. -/
theorem resize_length (cells : List α) (count : Nat) (default : α)
    (grown : cells.length ≤ count) : (resize cells count default).length = count := by
  simp only [resize, List.length_append, List.length_take, List.length_replicate]
  omega

end Cppboot.Storage
