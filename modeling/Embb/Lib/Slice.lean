import Mathlib.Data.List.Perm.Basic
import Mathlib.Data.List.Nodup
import Mathlib.Data.Set.Function
import Mathlib.Logic.Equiv.Basic
import Mathlib.Order.Interval.Set.Basic

/-!
# Slices of an array

An array is a function from positions. The slice from one position up to another is
the list of the elements there.
-/

namespace Embb.Slice

variable {α : Type}

/-- The elements at the positions from `first` up to `last`. -/
def slice (m : ℕ → α) (first last : ℕ) : List α :=
  (List.range' first (last - first)).map m

theorem slice_of_le (m : ℕ → α) {first last : ℕ} (h : last ≤ first) :
    slice m first last = [] := by
  rw [slice, Nat.sub_eq_zero_of_le h]
  rfl

theorem slice_cons (m : ℕ → α) {first last : ℕ} (h : first < last) :
    slice m first last = m first :: slice m (first + 1) last := by
  obtain ⟨n, rfl⟩ : ∃ n, last = first + (n + 1) := ⟨last - first - 1, by omega⟩
  rw [slice, slice, Nat.add_sub_cancel_left, List.range'_succ, List.map_cons]
  congr 3
  omega

theorem slice_append (m : ℕ → α) {first mid last : ℕ} (h₁ : first ≤ mid)
    (h₂ : mid ≤ last) : slice m first mid ++ slice m mid last = slice m first last := by
  obtain ⟨a, rfl⟩ := Nat.exists_eq_add_of_le h₁
  obtain ⟨b, rfl⟩ := Nat.exists_eq_add_of_le h₂
  have hlen : first + a + b - first = a + b := by omega
  rw [slice, slice, slice, ← List.map_append, Nat.add_sub_cancel_left,
    Nat.add_sub_cancel_left, hlen]
  congr 1
  simpa only [Nat.one_mul] using @List.range'_append first a b 1

theorem mem_slice {m : ℕ → α} {first last : ℕ} {x : α} :
    x ∈ slice m first last ↔ ∃ i, first ≤ i ∧ i < last ∧ m i = x := by
  simp only [slice, List.mem_map, List.mem_range'_1]
  constructor
  · rintro ⟨i, ⟨h₁, h₂⟩, rfl⟩
    exact ⟨i, h₁, by omega, rfl⟩
  · rintro ⟨i, h₁, h₂, rfl⟩
    exact ⟨i, ⟨h₁, by omega⟩, rfl⟩

theorem slice_congr {m m' : ℕ → α} {first last : ℕ}
    (h : ∀ i, first ≤ i → i < last → m' i = m i) : slice m' first last = slice m first last := by
  refine List.map_congr_left fun i hi => ?_
  rw [List.mem_range'_1] at hi
  exact h i hi.1 (by omega)

theorem slice_eqOn {m m' : ℕ → α} {X : Set ℕ} (hm : Set.EqOn m' m X) {first last : ℕ}
    (hX : Set.Ico first last ⊆ X) : slice m' first last = slice m first last :=
  slice_congr fun _ h₁ h₂ => hm (hX ⟨h₁, h₂⟩)

/-! ## Swaps -/

/-- `std::swap` of the elements at two positions. -/
def swap (m : ℕ → α) (a b : ℕ) : ℕ → α :=
  Function.update (Function.update m a (m b)) b (m a)

theorem swap_left (m : ℕ → α) (a b : ℕ) : swap m a b a = m b := by
  rw [swap]
  rcases eq_or_ne a b with rfl | hne
  · rw [Function.update_self]
  · rw [Function.update_of_ne hne, Function.update_self]

theorem swap_right (m : ℕ → α) (a b : ℕ) : swap m a b b = m a :=
  Function.update_self _ _ _

theorem swap_of_ne (m : ℕ → α) {a b i : ℕ} (ha : i ≠ a) (hb : i ≠ b) : swap m a b i = m i := by
  rw [swap, Function.update_of_ne hb, Function.update_of_ne ha]

/-- A swap reads the array at exchanged positions. -/
theorem swap_eq_comp (m : ℕ → α) (a b : ℕ) : swap m a b = m ∘ Equiv.swap a b := by
  ext i
  rw [Function.comp_apply, Equiv.swap_apply_def]
  split
  · rename_i ha
    rw [ha, swap_left]
  split
  · rename_i hb
    rw [hb, swap_right]
  · rename_i ha hb
    exact swap_of_ne m ha hb

/-- A swap inside a slice permutes it. -/
theorem slice_swap_perm (m : ℕ → α) {first last a b : ℕ} (ha : a ∈ Set.Ico first last)
    (hb : b ∈ Set.Ico first last) :
    (slice (swap m a b) first last).Perm (slice m first last) := by
  rw [slice, slice, swap_eq_comp, ← List.map_map]
  refine List.Perm.map m ?_
  refine (List.perm_ext_iff_of_nodup ?_ List.nodup_range').mpr fun i => ?_
  · exact List.Nodup.map (Equiv.injective _) List.nodup_range'
  · have hmem : ∀ j, j ∈ List.range' first (last - first) ↔ j ∈ Set.Ico first last := by
      intro j
      rw [List.mem_range'_1, Set.mem_Ico]
      omega
    simp only [List.mem_map, hmem]
    constructor
    · rintro ⟨j, hj, rfl⟩
      rw [Equiv.swap_apply_def]
      split
      · exact hb
      split
      · exact ha
      · exact hj
    · intro hi
      refine ⟨Equiv.swap a b i, ?_, Equiv.swap_apply_self a b i⟩
      rw [Equiv.swap_apply_def]
      split
      · exact hb
      split
      · exact ha
      · exact hi

end Embb.Slice
