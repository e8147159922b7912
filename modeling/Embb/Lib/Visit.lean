import Mathlib.Data.List.Basic

/-!
# Visitors

A visitor is called on the entries of a list, one after the other, until it says that the
visit is over.
-/

namespace Embb.Visit

variable {α S : Type}

/-- Call the visitor on the entries, until it returns `false`. -/
def visit (f : α → S → S × Bool) : List α → S → S × Bool
  | [], s => (s, true)
  | x :: xs, s => if (f x s).2 then visit f xs (f x s).1 else f x s

/-- The entries on which the visitor is called. -/
def visited (f : α → S → S × Bool) : List α → S → List α
  | [], _ => []
  | x :: xs, s => x :: if (f x s).2 then visited f xs (f x s).1 else []

theorem visit_append (f : α → S → S × Bool) (xs ys : List α) (s : S) :
    visit f (xs ++ ys) s =
      if (visit f xs s).2 then visit f ys (visit f xs s).1 else visit f xs s := by
  induction xs generalizing s with
  | nil => rfl
  | cons x xs ih =>
    by_cases hgo : (f x s).2 = true
    · simp [visit, hgo, ih]
    · simp [visit, hgo]

/-- A visit of all parts is a visit whose steps are the visits of the parts. -/
theorem visit_flatMap {β : Type} (f : α → S → S × Bool) (g : β → List α) (ys : List β) (s : S) :
    visit f (ys.flatMap g) s = visit (fun y s => visit f (g y) s) ys s := by
  induction ys generalizing s with
  | nil => rfl
  | cons y ys ih =>
    rw [List.flatMap_cons, visit_append, ih]
    rfl

/-- The visitor, with a list of the entries on which it has been called. -/
def recording (f : α → S → S × Bool) (x : α) (s : S × List α) : (S × List α) × Bool :=
  (((f x s.1).1, s.2 ++ [x]), (f x s.1).2)

theorem visit_recording (f : α → S → S × Bool) (xs : List α) (s : S) (log : List α) :
    visit (recording f) xs (s, log) =
      (((visit f xs s).1, log ++ visited f xs s), (visit f xs s).2) := by
  induction xs generalizing s log with
  | nil => simp only [visit, visited, List.append_nil]
  | cons x xs ih =>
    by_cases hgo : (f x s).2 = true
    · simp [visit, visited, recording, hgo, ih]
    · simp [visit, visited, recording, hgo]

theorem visited_initial (f : α → S → S × Bool) (xs : List α) (s : S) : visited f xs s <+: xs := by
  induction xs generalizing s with
  | nil => exact List.prefix_refl _
  | cons x xs ih =>
    simp only [visited, List.prefix_cons_inj]
    split
    · exact ih _
    · exact List.nil_prefix

theorem length_visited_le (f : α → S → S × Bool) (xs : List α) (s : S) :
    (visited f xs s).length ≤ xs.length :=
  (visited_initial f xs s).length_le

/-- Two lists of one length are visited alike exactly when they agree as far as the visit of the
second one goes. -/
theorem visited_eq_iff (f : α → S → S × Bool) {xs ys : List α} (hlen : xs.length = ys.length)
    (s : S) :
    visited f xs s = visited f ys s ↔ ∀ i < (visited f ys s).length, xs[i]? = ys[i]? := by
  induction xs generalizing ys s with
  | nil =>
    rw [List.eq_nil_of_length_eq_zero hlen.symm]
    simp
  | cons x xs ih =>
    cases ys with
    | nil => cases hlen
    | cons y ys =>
      constructor
      · intro h
        have hhead : x = y := (List.cons.inj h).1
        subst hhead
        have htail := (List.cons.inj h).2
        intro i hi
        cases i with
        | zero => rfl
        | succ i =>
          simp only [visited] at hi htail
          split at htail
          · next hgo =>
            rw [if_pos hgo, List.length_cons] at hi
            simp only [List.getElem?_cons_succ]
            exact (ih (Nat.succ.inj hlen) _).mp htail i (by omega)
          · next hgo =>
            rw [if_neg hgo] at hi
            simp at hi
      · intro h
        have hhead : x = y := by
          have h0 := h 0 (by simp [visited])
          simpa using h0
        subst hhead
        simp only [visited, List.cons.injEq, true_and]
        split
        · next hgo =>
          refine (ih (Nat.succ.inj hlen) _).mpr fun i hi => ?_
          have hi' := h (i + 1) (by simp only [visited, if_pos hgo, List.length_cons]; omega)
          simpa only [List.getElem?_cons_succ] using hi'
        · rfl

/-- A visitor that never says so sees everything. -/
theorem visited_of_forall {f : α → S → S × Bool} (h : ∀ x s, (f x s).2 = true) (xs : List α)
    (s : S) : visited f xs s = xs := by
  induction xs generalizing s with
  | nil => rfl
  | cons x xs ih => simp only [visited, h, if_true, ih]

end Embb.Visit
