import Mathlib.Data.Nat.Find
import Mathlib.Order.Lattice
import Mathlib.Tactic.Common

/-!
# Tilings of a range

Half-open intervals with consecutive numbers tile a range when each of them is not empty
and ends where the next one begins. Every point of the range then lies in exactly one of
them.
-/

namespace Embb

/-- The intervals with the numbers below `n` tile the range from `first` to `last`. -/
structure Tiles {α : Type} [LinearOrder α] (first last : α) (n : ℕ) (lo hi : ℕ → α) : Prop where
  pos : 0 < n
  first_eq : lo 0 = first
  last_eq : hi (n - 1) = last
  nonempty : ∀ k < n, lo k < hi k
  consecutive : ∀ k, k + 1 < n → hi k = lo (k + 1)

namespace Tiles

variable {α : Type} [LinearOrder α] {first last x : α} {n j k : ℕ} {lo hi : ℕ → α}

/-- Earlier intervals end before later ones begin. -/
theorem hi_le_lo (h : Tiles first last n lo hi) (hjk : j < k) (hk : k < n) : hi j ≤ lo k := by
  induction k, hjk using Nat.le_induction with
  | base => exact (h.consecutive j hk).le
  | succ k hjk ih =>
    calc hi j ≤ lo k := ih (by omega)
      _ ≤ hi k := (h.nonempty k (by omega)).le
      _ = lo (k + 1) := h.consecutive k hk

theorem first_le (h : Tiles first last n lo hi) (hk : k < n) : first ≤ lo k := by
  rw [← h.first_eq]
  rcases Nat.eq_zero_or_pos k with rfl | hpos
  · exact le_rfl
  · exact (h.nonempty 0 h.pos).le.trans (h.hi_le_lo hpos hk)

theorem le_last (h : Tiles first last n lo hi) (hk : k < n) : hi k ≤ last := by
  rw [← h.last_eq]
  rcases Nat.eq_or_lt_of_le (Nat.le_sub_one_of_lt hk) with rfl | hlt
  · exact le_rfl
  · have hn : n - 1 < n := Nat.sub_lt h.pos Nat.one_pos
    exact (h.hi_le_lo hlt hn).trans (h.nonempty (n - 1) hn).le

/-- Intervals of a tiling that share a point are the same. -/
theorem eq_of_mem (h : Tiles first last n lo hi) (hj : j < n) (hk : k < n) (hjx : lo j ≤ x)
    (hxj : x < hi j) (hkx : lo k ≤ x) (hxk : x < hi k) : j = k := by
  rcases Nat.lt_trichotomy j k with hlt | heq | hgt
  · exact absurd (hxj.trans_le ((h.hi_le_lo hlt hk).trans hkx)) (lt_irrefl x)
  · exact heq
  · exact absurd (hxk.trans_le ((h.hi_le_lo hgt hj).trans hjx)) (lt_irrefl x)

/-- Every point of the range lies in one of the intervals. -/
theorem exists_mem (h : Tiles first last n lo hi) (hx : first ≤ x) (hxl : x < last) :
    ∃ k < n, lo k ≤ x ∧ x < hi k := by
  -- the first interval that ends behind the point
  have hex : ∃ k, k < n ∧ x < hi k :=
    ⟨n - 1, Nat.sub_lt h.pos Nat.one_pos, h.last_eq.symm ▸ hxl⟩
  obtain ⟨hk, hxk⟩ := Nat.find_spec hex
  refine ⟨Nat.find hex, hk, ?_, hxk⟩
  rcases Nat.eq_zero_or_pos (Nat.find hex) with hz | hpos
  · rw [hz, h.first_eq]
    exact hx
  · have hmin := Nat.find_min hex (Nat.sub_lt hpos Nat.one_pos)
    have hcons := h.consecutive (Nat.find hex - 1) (by omega)
    rw [Nat.sub_add_cancel hpos] at hcons
    rw [← hcons]
    exact not_lt.mp fun hlt => hmin ⟨by omega, hlt⟩

theorem existsUnique_mem (h : Tiles first last n lo hi) (hx : first ≤ x) (hxl : x < last) :
    ∃! k, k < n ∧ lo k ≤ x ∧ x < hi k := by
  obtain ⟨k, hk, h₁, h₂⟩ := h.exists_mem hx hxl
  exact ⟨k, ⟨hk, h₁, h₂⟩, fun j hj => h.eq_of_mem hj.1 hk hj.2.1 hj.2.2 h₁ h₂⟩

end Tiles

end Embb
