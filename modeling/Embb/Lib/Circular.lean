import Mathlib.Data.List.Range
import Mathlib.Data.Nat.ModEq
import Mathlib.Logic.Function.Basic
import Mathlib.Tactic.Common

/-!
# Circular windows

A circular buffer is read as the list of its occupied cells, starting at the
cell that is taken next. Writing behind the window appends, clearing the first
cell drops the head. Positions advance by one and wrap at the number of cells,
so a comparison with the last cell and a remainder name the same position.
-/

namespace Embb.Circular

variable {α : Type}

/-- The `count` occupied cells of a buffer of `size` cells, oldest first. -/
def window (cell : Nat → α) (size start count : Nat) : List α :=
  (List.range count).map fun i => cell ((start + i) % size)

@[simp] theorem window_zero (cell : Nat → α) (size start : Nat) :
    window cell size start 0 = [] := rfl

@[simp] theorem length_window (cell : Nat → α) (size start count : Nat) :
    (window cell size start count).length = count := by
  simp only [window, List.length_map, List.length_range]

theorem getElem?_window (cell : Nat → α) {size start count i : Nat} (hi : i < count) :
    (window cell size start count)[i]? = some (cell ((start + i) % size)) := by
  simp only [window, List.getElem?_map, List.getElem?_range hi, Option.map_some]

/-- Every listed cell lies inside the window. -/
theorem mem_window {cell : Nat → α} {size start count : Nat} {x : α} :
    x ∈ window cell size start count ↔ ∃ i < count, cell ((start + i) % size) = x := by
  simp only [window, List.mem_map, List.mem_range]

/-- The successor position, written as the comparison that the code makes. -/
def next (position size : Nat) : Nat :=
  if size ≤ position + 1 then 0 else position + 1

theorem next_eq_mod {position size : Nat} (h : position < size) :
    next position size = (position + 1) % size := by
  unfold next
  split
  · have he : position + 1 = size := by omega
    rw [he, Nat.mod_self]
  · rw [Nat.mod_eq_of_lt (by omega)]

theorem next_lt {position size : Nat} (h : position < size) : next position size < size := by
  rw [next_eq_mod h]
  exact Nat.mod_lt _ (by omega)

/-- Two offsets inside one turn of the buffer name different cells. -/
theorem add_mod_inj {size start i j : Nat} (hi : i < size) (hj : j < size)
    (h : (start + i) % size = (start + j) % size) : i = j := by
  have hm : i ≡ j [MOD size] := Nat.ModEq.add_left_cancel' start h
  have hm' : i % size = j % size := hm
  rwa [Nat.mod_eq_of_lt hi, Nat.mod_eq_of_lt hj] at hm'

/-- A cell outside the window may be written without changing what is listed. -/
theorem window_update_of_ne (cell : Nat → α) {size start count position : Nat} (x : α)
    (h : ∀ i < count, (start + i) % size ≠ position) :
    window (Function.update cell position x) size start count = window cell size start count := by
  apply List.map_congr_left
  intro i hi
  exact Function.update_of_ne (h i (List.mem_range.mp hi)) x cell

/-- Writing the cell behind a window that is not full appends the element. -/
theorem window_push (cell : Nat → α) {size start count : Nat} (x : α) (h : count < size) :
    window (Function.update cell ((start + count) % size) x) size start (count + 1) =
      window cell size start count ++ [x] := by
  have hkeep : window (Function.update cell ((start + count) % size) x) size start count =
      window cell size start count := by
    apply window_update_of_ne
    intro i hi he
    have hic := add_mod_inj (by omega) h he
    omega
  rw [← hkeep]
  simp [window, List.range_succ, List.map_append]

/-- The head of a non-empty window is the cell at its start. -/
theorem window_head (cell : Nat → α) {size start count : Nat} (hs : start < size) :
    window cell size start (count + 1) =
      cell start :: window cell size ((start + 1) % size) count := by
  simp only [window, List.range_succ_eq_map, List.map_cons, List.map_map, Nat.add_zero,
    Nat.mod_eq_of_lt hs]
  congr 1
  apply List.map_congr_left
  intro i _
  simp only [Function.comp_apply, Nat.mod_add_mod]
  congr 2
  omega

/-- Clearing the cell at the start and advancing drops exactly the head. -/
theorem window_pop (cell : Nat → α) {size start count : Nat} (null : α)
    (hs : start < size) (hc : count < size) :
    window cell size start (count + 1) = cell start ::
      window (Function.update cell start null) size ((start + 1) % size) count := by
  rw [window_head cell hs, window_update_of_ne]
  intro i hi he
  have hmod : (start + (i + 1)) % size = (start + 0) % size := by
    calc (start + (i + 1)) % size = ((start + 1) % size + i) % size := by
          rw [Nat.mod_add_mod, Nat.add_assoc, Nat.add_comm 1 i]
      _ = (start + 0) % size := by rw [he, Nat.add_zero, Nat.mod_eq_of_lt hs]
  have hzero := add_mod_inj (by omega) (by omega) hmod
  omega

end Embb.Circular
