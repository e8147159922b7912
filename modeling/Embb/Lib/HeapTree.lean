import Mathlib.Algebra.Order.Group.Nat
import Mathlib.Logic.Function.Basic
import Mathlib.Tactic.Common

/-!
# Binary trees in heap numbering

The children of node `v` are `2 * v + 1` and `2 * v + 2`, and the root is node zero.

The second part is about trees whose nodes hold a number of units, where the units of
a node are those of its children that nobody is about to use. A *token* at a node is a
promise of one unit of it; its owner turns it in for a unit of the node and for a token
at the left child, and goes to the right sibling where the left one is empty. A *climber*
at a node has added a unit there and is about to add it to the parent. Whatever moves the
owners make, a token at a right child never finds it empty.
-/

namespace Embb.HeapTree

/-- The node `w` lies in the subtree of `v`. -/
def Below (v w : ℕ) : Prop := ∃ k, (w + 1) / 2 ^ k = v + 1

theorem below_self (v : ℕ) : Below v v := ⟨0, by rw [pow_zero, Nat.div_one]⟩

theorem below_child {v child w : ℕ} (hc : (child + 1) / 2 = v + 1) (h : Below child w) :
    Below v w := by
  obtain ⟨k, hk⟩ := h
  exact ⟨k + 1, by rw [pow_succ, ← Nat.div_div_eq_div_mul, hk, hc]⟩

theorem below_left {v w : ℕ} (h : Below (2 * v + 1) w) : Below v w :=
  below_child (by omega) h

theorem below_right {v w : ℕ} (h : Below (2 * v + 2) w) : Below v w :=
  below_child (by omega) h

theorem le_of_below {v w : ℕ} (h : Below v w) : v ≤ w := by
  obtain ⟨k, hk⟩ := h
  have hle := Nat.div_le_self (w + 1) (2 ^ k)
  omega

/-- A node below `v` is `v` itself or lies below one of the children. -/
theorem below_cases {v w : ℕ} (h : Below v w) :
    w = v ∨ Below (2 * v + 1) w ∨ Below (2 * v + 2) w := by
  obtain ⟨k, hk⟩ := h
  cases k with
  | zero =>
    rw [pow_zero, Nat.div_one] at hk
    exact Or.inl (Nat.succ.inj hk)
  | succ k =>
    rw [pow_succ, ← Nat.div_div_eq_div_mul] at hk
    have hhalf : (w + 1) / 2 ^ k = 2 * v + 1 + 1 ∨ (w + 1) / 2 ^ k = 2 * v + 2 + 1 := by omega
    rcases hhalf with hl | hr
    · exact Or.inr (Or.inl ⟨k, hl⟩)
    · exact Or.inr (Or.inr ⟨k, hr⟩)

/-- Every node lies below the root. -/
theorem below_root (w : ℕ) : Below 0 w := by
  refine ⟨Nat.log2 (w + 1), ?_⟩
  have h : 2 ^ (w + 1).log2 ≤ w + 1 ∧ w + 1 < 2 ^ ((w + 1).log2 + 1) :=
    (Nat.log2_eq_iff (Nat.succ_ne_zero w)).mp rfl
  rw [pow_succ] at h
  exact Nat.div_eq_of_lt_le (by omega) (by omega)

/-- The subtrees of siblings have no node in common. -/
theorem not_below_siblings {v w : ℕ} (hl : Below (2 * v + 1) w) : ¬ Below (2 * v + 2) w := by
  rintro ⟨k, hk⟩
  obtain ⟨k', hk'⟩ := hl
  -- The deeper of the two ancestors of `w` is below twice the number of the other one.
  have hdeep : ∀ a b n, a ≤ b → (w + 1) / 2 ^ b = n → n * 2 ^ (b - a) ≤ (w + 1) / 2 ^ a := by
    intro a b n hab hb
    rw [← Nat.add_sub_cancel' hab, pow_add, ← Nat.div_div_eq_div_mul] at hb
    have hle := Nat.div_mul_le_self ((w + 1) / 2 ^ a) (2 ^ (b - a))
    rwa [hb] at hle
  rcases Nat.lt_trichotomy k k' with hlt | heq | hgt
  · have h := hdeep k k' _ hlt.le hk'
    have h2 : 2 ^ 1 ≤ 2 ^ (k' - k) := Nat.pow_le_pow_right (by decide) (by omega)
    rw [hk] at h
    have hmul := Nat.mul_le_mul_left (2 * v + 1 + 1) h2
    omega
  · rw [heq] at hk
    omega
  · have h := hdeep k' k _ hgt.le hk
    have h2 : 2 ^ 1 ≤ 2 ^ (k - k') := Nat.pow_le_pow_right (by decide) (by omega)
    rw [hk'] at h
    have hmul := Nat.mul_le_mul_left (2 * v + 2 + 1) h2
    omega

/-! ## Units, tokens and climbers -/

/-- Where one of the owners is. -/
inductive Place
  | away
  | token (node : ℕ)
  | climber (node : ℕ)
  deriving DecidableEq, Repr

/-- The number of units, tokens and climbers at each node. -/
structure Counts where
  units : ℕ → ℕ
  tokens : ℕ → ℕ
  climbers : ℕ → ℕ

namespace Counts

/-- One more owner. -/
def add (c : Counts) (place : Place) : Counts where
  units := c.units
  tokens w := c.tokens w + if place = .token w then 1 else 0
  climbers w := c.climbers w + if place = .climber w then 1 else 0

/-- Other numbers of units. -/
def withUnits (c : Counts) (units : ℕ → ℕ) : Counts := { c with units := units }

/-- Below every node that has children there are as many units as at the node and as promised
to or not yet counted by an owner, and no more tokens at a right child than units. -/
structure Balanced (inner : ℕ) (c : Counts) : Prop where
  balance : ∀ u < inner, c.units (2 * u + 1) + c.units (2 * u + 2) =
    c.units u + c.tokens (2 * u + 1) + c.tokens (2 * u + 2) +
      c.climbers (2 * u + 1) + c.climbers (2 * u + 2)
  right : ∀ u < inner, c.tokens (2 * u + 2) ≤ c.units (2 * u + 2)

namespace Balanced

variable {inner : ℕ} {c : Counts}

/-- An owner at the root neither promises nor owes anything to a parent. -/
theorem at_root (h : (c.add .away).Balanced inner) {place : Place}
    (hp : place = .token 0 ∨ place = .climber 0) : (c.add place).Balanced inner := by
  constructor
  · intro u hu
    have hb := h.balance u hu
    rcases hp with rfl | rfl <;> simpa [add] using hb
  · intro u hu
    have hr := h.right u hu
    rcases hp with rfl | rfl <;> simpa [add] using hr

theorem leave_root {place : Place} (h : (c.add place).Balanced inner)
    (hp : place = .token 0 ∨ place = .climber 0) : (c.add .away).Balanced inner := by
  constructor
  · intro u hu
    have hb := h.balance u hu
    rcases hp with rfl | rfl <;> simpa [add] using hb
  · intro u hu
    have hr := h.right u hu
    rcases hp with rfl | rfl <;> simpa [add] using hr

/-- A token at a right child finds a unit there. -/
theorem units_right_pos {u : ℕ} (h : (c.add (.token (2 * u + 2))).Balanced inner)
    (hu : u < inner) : 0 < c.units (2 * u + 2) := by
  have hr := h.right u hu
  simp only [add, if_true] at hr
  omega

/-- Where the left child is empty, the right one has a unit for one more token. -/
theorem cross {u : ℕ} (h : (c.add (.token (2 * u + 1))).Balanced inner) (hu : u < inner)
    (hz : c.units (2 * u + 1) = 0) :
    0 < c.units (2 * u + 2) ∧ (c.add (.token (2 * u + 2))).Balanced inner := by
  have hbu := h.balance u hu
  simp only [add, if_true, hz] at hbu
  refine ⟨by omega, ?_, ?_⟩
  · intro v hv
    have hb := h.balance v hv
    simp only [add, Place.token.injEq, reduceCtorEq, if_false] at hb ⊢
    split_ifs at hb ⊢ <;> omega
  · intro v hv
    have hr := h.right v hv
    simp only [add, Place.token.injEq] at hr ⊢
    split_ifs at hr ⊢
    · omega
    · obtain rfl : u = v := by omega
      omega
    · omega
    · omega

/-- A token is turned in for a unit of its node. -/
theorem take {v : ℕ} {units : ℕ → ℕ} (h : (c.add (.token v)).Balanced inner)
    (hleaf : inner ≤ v) (hpos : 0 < c.units v)
    (hunits : units = Function.update c.units v (c.units v - 1)) :
    ((c.withUnits units).add .away).Balanced inner := by
  subst hunits
  constructor
  · intro u hu
    have hb := h.balance u hu
    simp only [add, withUnits, Function.update_apply, Place.token.injEq, reduceCtorEq,
      if_false] at hb ⊢
    split_ifs at hb ⊢ <;> subst_vars <;> omega
  · intro u hu
    have hr := h.right u hu
    simp only [add, withUnits, Function.update_apply, Place.token.injEq, reduceCtorEq,
      if_false] at hr ⊢
    split_ifs at hr ⊢ <;> subst_vars <;> omega

/-- A token is turned in for a unit of its node and a token at the left child. -/
theorem descend {v : ℕ} {units : ℕ → ℕ} (h : (c.add (.token v)).Balanced inner)
    (hpos : 0 < c.units v) (hunits : units = Function.update c.units v (c.units v - 1)) :
    ((c.withUnits units).add (.token (2 * v + 1))).Balanced inner := by
  subst hunits
  constructor
  · intro u hu
    have hb := h.balance u hu
    have hleft : 2 * v + 1 = 2 * u + 1 ↔ v = u := by omega
    have hright : 2 * v + 1 ≠ 2 * u + 2 := by omega
    simp only [add, withUnits, Function.update_apply, Place.token.injEq, reduceCtorEq,
      if_false, hleft, hright, eq_comm (a := u), eq_comm (a := 2 * u + 1),
      eq_comm (a := 2 * u + 2)] at hb ⊢
    split_ifs at hb ⊢ <;> subst_vars <;> omega
  · intro u hu
    have hr := h.right u hu
    simp only [add, withUnits, Function.update_apply, Place.token.injEq] at hr ⊢
    split_ifs at hr ⊢ <;> subst_vars <;> omega

/-- A unit is put into a leaf. -/
theorem put {v : ℕ} {units : ℕ → ℕ} (h : (c.add .away).Balanced inner) (hleaf : inner ≤ v)
    (hunits : units = Function.update c.units v (c.units v + 1)) :
    ((c.withUnits units).add (.climber v)).Balanced inner := by
  subst hunits
  constructor
  · intro u hu
    have hb := h.balance u hu
    simp only [add, withUnits, Function.update_apply, Place.climber.injEq, reduceCtorEq,
      if_false] at hb ⊢
    split_ifs at hb ⊢ <;> subst_vars <;> omega
  · intro u hu
    have hr := h.right u hu
    simp only [add, withUnits, Function.update_apply, reduceCtorEq, if_false] at hr ⊢
    split_ifs at hr ⊢ <;> subst_vars <;> omega

/-- A climber adds its unit to the parent. -/
theorem climb {u v : ℕ} {units : ℕ → ℕ} (h : (c.add (.climber v)).Balanced inner)
    (hv : v = 2 * u + 1 ∨ v = 2 * u + 2)
    (hunits : units = Function.update c.units u (c.units u + 1)) :
    ((c.withUnits units).add (.climber u)).Balanced inner := by
  subst hunits
  constructor
  · intro w hw
    have hb := h.balance w hw
    -- the climber came from a child of `w` where `w` is the parent
    have hchild : (v = 2 * w + 1 ∨ v = 2 * w + 2) ↔ u = w := by omega
    simp only [add, withUnits, Function.update_apply, Place.climber.injEq, reduceCtorEq,
      if_false, eq_comm (a := w), eq_comm (a := 2 * w + 1), eq_comm (a := 2 * w + 2)] at hb ⊢
    by_cases hu : u = w
    · subst hu
      rw [if_neg (by omega : u ≠ 2 * u + 1), if_neg (by omega : u ≠ 2 * u + 2)]
      split_ifs at hb ⊢ <;> omega
    · have hleft : v ≠ 2 * w + 1 := fun hv => hu (hchild.mp (Or.inl hv))
      have hright : v ≠ 2 * w + 2 := fun hv => hu (hchild.mp (Or.inr hv))
      rw [if_neg hleft, if_neg hright] at hb
      split_ifs at hb ⊢ <;> subst_vars <;> omega
  · intro w hw
    have hr := h.right w hw
    simp only [add, withUnits, Function.update_apply, reduceCtorEq, if_false] at hr ⊢
    split_ifs at hr ⊢ <;> subst_vars <;> omega

end Balanced

end Counts

end Embb.HeapTree
