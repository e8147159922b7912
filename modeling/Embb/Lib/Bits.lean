import Mathlib.Data.BitVec
import Mathlib.Data.List.Basic

/-!
# Words as sets of numbers

A word of `w` bits stands for the set of the positions of its one bits. Masks with one bit test,
set and clear a position, and the positions in ascending order are found by counting past them.
-/

namespace Bits

variable {w : ℕ} {v u : BitVec w} {i j : ℕ}

/-- The word whose only one bit is at position `i`. -/
abbrev bit (w i : ℕ) : BitVec w := 1#w <<< i

theorem getLsbD_bit : (bit w i).getLsbD j = (decide (j < w) && decide (j = i)) := by
  rw [bit, ← BitVec.twoPow_eq, BitVec.getLsbD_twoPow]
  rcases eq_or_ne j i with rfl | hne
  · simp only [decide_true]
  · simp only [hne, hne.symm, decide_false, Bool.and_false]

theorem lt_of_getLsbD (h : v.getLsbD i = true) : i < w := by
  by_contra hi
  rw [BitVec.getLsbD_of_ge v i (by omega)] at h
  cases h

theorem and_bit_eq_zero_iff (hi : i < w) : v &&& bit w i = 0 ↔ v.getLsbD i = false := by
  constructor
  · intro h
    have hb : (v &&& bit w i).getLsbD i = false := by rw [h, BitVec.ofNat_eq_ofNat,
      BitVec.getLsbD_zero]
    simpa only [BitVec.getLsbD_and, getLsbD_bit, hi, decide_true, Bool.and_true] using hb
  · intro h
    apply BitVec.eq_of_getLsbD_eq
    intro j _
    rw [BitVec.getLsbD_and, getLsbD_bit, BitVec.ofNat_eq_ofNat, BitVec.getLsbD_zero]
    rcases eq_or_ne j i with rfl | hne
    · rw [h, Bool.false_and]
    · simp only [hne, decide_false, Bool.and_false]

theorem getLsbD_or_bit (hi : i < w) :
    (v ||| bit w i).getLsbD j = true ↔ v.getLsbD j = true ∨ j = i := by
  rw [BitVec.getLsbD_or, getLsbD_bit, Bool.or_eq_true, Bool.and_eq_true, decide_eq_true_iff,
    decide_eq_true_iff]
  constructor
  · rintro (h | ⟨-, h⟩)
    · exact Or.inl h
    · exact Or.inr h
  · rintro (h | rfl)
    · exact Or.inl h
    · exact Or.inr ⟨hi, rfl⟩

theorem getLsbD_and_not_bit :
    (v &&& ~~~ bit w i).getLsbD j = true ↔ v.getLsbD j = true ∧ j ≠ i := by
  rw [BitVec.getLsbD_and, BitVec.getLsbD_not, getLsbD_bit, Bool.and_eq_true]
  constructor
  · rintro ⟨h, hn⟩
    refine ⟨h, ?_⟩
    rintro rfl
    simp only [decide_true, Bool.and_true, Bool.and_eq_true, decide_eq_true_iff,
      Bool.not_eq_true', decide_eq_false_iff_not] at hn
    exact hn.2 hn.1
  · rintro ⟨h, hne⟩
    have hj := lt_of_getLsbD h
    exact ⟨h, by simp only [hj, hne, decide_true, decide_false, Bool.and_false, Bool.not_false,
      Bool.and_true]⟩

/-- The positions of the one bits, in ascending order. -/
def positions (v : BitVec w) : List ℕ := (List.range w).filter (v.getLsbD ·)

theorem mem_positions : i ∈ positions v ↔ v.getLsbD i = true := by
  rw [positions, List.mem_filter, List.mem_range]
  exact ⟨And.right, fun h => ⟨lt_of_getLsbD h, h⟩⟩

theorem pairwise_positions : (positions v).Pairwise (· < ·) :=
  List.pairwise_lt_range.filter _

theorem length_positions_le : (positions v).length ≤ w :=
  (List.length_filter_le _ _).trans_eq List.length_range

/-- Words with one bits at the same positions have as many of them. -/
theorem positions_congr (h : ∀ i, v.getLsbD i = true ↔ u.getLsbD i = true) :
    positions v = positions u :=
  List.filter_congr fun i _ => Bool.eq_iff_iff.mpr (h i)

/-- When no one bit is at `n` or above, the positions are found below `n`. -/
theorem positions_eq_filter {n : ℕ} (hn : n ≤ w) (h : ∀ i, v.getLsbD i = true → i < n) :
    positions v = (List.range n).filter (v.getLsbD ·) := by
  obtain ⟨k, rfl⟩ := Nat.exists_eq_add_of_le hn
  rw [positions, List.range_add, List.filter_append, List.append_right_eq_self,
    List.filter_eq_nil_iff]
  intro i hi hb
  obtain ⟨j, -, rfl⟩ := List.mem_map.mp hi
  have := h _ hb
  omega

/-- The `k`-th element of a filtered range, by its first number: the number itself is the one
asked for, or it has to be counted, or it does not belong. -/
theorem filter_range'_getElem? (p : ℕ → Bool) (a n k : ℕ) :
    ((List.range' a (n + 1)).filter p)[k]? =
      if p a then
        if k = 0 then some a else ((List.range' (a + 1) n).filter p)[k - 1]?
      else ((List.range' (a + 1) n).filter p)[k]? := by
  rw [List.range'_succ, List.filter_cons]
  split
  · cases k with
    | zero => rfl
    | succ k => rw [List.getElem?_cons_succ, if_neg (Nat.succ_ne_zero k), Nat.add_sub_cancel]
  · rfl

/-- A traversal that succeeds at every element is a map. -/
theorem mapM_eq_map {α β : Type*} {f : α → Option β} {g : α → β} {l : List α}
    (h : ∀ a ∈ l, f a = some (g a)) : l.mapM f = some (l.map g) := by
  induction l with
  | nil => rfl
  | cons a l ih =>
    rw [List.mapM_cons, h a List.mem_cons_self, ih fun b hb => h b (List.mem_cons_of_mem a hb)]
    rfl

end Bits
