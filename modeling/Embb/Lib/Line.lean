import Mathlib.Data.List.Basic

/-!
# A line that is worked off in order

Elements enter a line at its end. A server takes the first one, begins with it, and is
done with it before it takes the next; an element that it has taken and not begun may go
back while nothing else waits. An element may enter several times, but only in a row.
Elements then begin in the order in which they entered, and none begins while an earlier
one is left.
-/

namespace Embb

variable {α : Type}

/-- Equal entries stand next to each other. -/
def Blocks (xs : List α) : Prop :=
  ∀ before after x, xs = before ++ x :: after → x ∈ before → before.getLast? = some x

namespace Blocks

theorem nil : Blocks ([] : List α) := by
  intro before after x h
  exact absurd h.symm (List.append_ne_nil_of_right_ne_nil before (List.cons_ne_nil x after))

/-- An entry may be new or repeat the last one. -/
theorem concat {xs : List α} {x : α} (h : Blocks xs) (hx : x ∈ xs → xs.getLast? = some x) :
    Blocks (xs ++ [x]) := by
  intro before after y he hy
  rcases List.append_eq_append_iff.mp he with ⟨mid, rfl, hmid⟩ | ⟨mid, rfl, hmid⟩
  · -- the entry is the new one
    rcases mid with _ | ⟨z, mid⟩
    · obtain ⟨rfl, -⟩ := List.cons.inj hmid
      rw [List.append_nil] at hy ⊢
      exact hx hy
    · have hlen := congrArg List.length hmid
      simp only [List.length_cons, List.length_nil, List.length_append] at hlen
      omega
  · rcases mid with _ | ⟨z, mid⟩
    · obtain ⟨rfl, -⟩ := List.cons.inj hmid
      rw [List.append_nil] at hx
      exact hx hy
    · obtain ⟨rfl, -⟩ := List.cons.inj hmid
      exact h before mid y rfl hy

/-- What stands before another entry does not stand after it. -/
theorem not_mem {before after : List α} {x y : α} (h : Blocks (before ++ x :: after))
    (hy : y ∈ before) (hne : y ≠ x) : y ∉ after := by
  intro hm
  obtain ⟨mid, rest, rfl, hmid⟩ := List.eq_append_cons_of_mem hm
  have hlast := h (before ++ x :: mid) rest y (by simp only [List.append_assoc, List.cons_append])
    (List.mem_append_left _ hy)
  rw [List.getLast?_append_of_ne_nil _ (List.cons_ne_nil x mid)] at hlast
  rcases List.mem_cons.mp (List.mem_of_getLast? hlast) with rfl | hmem
  · exact hne rfl
  · exact hmid hmem

end Blocks

/-- What the server of a line has in hand. -/
inductive Hand (α : Type) where
  | free
  | taken (x : α)
  | begun (x : α)

/-- A line with the elements that have entered it and those that have begun, in order. -/
structure Line (α : Type) where
  entered : List α
  begun : List α
  waiting : List α
  hand : Hand α

namespace Line

/-- What can happen to a line. -/
inductive Step (l : Line α) : Line α → Prop where
  | enter (x : α) (h : x ∈ l.entered → l.entered.getLast? = some x) :
    Step l { l with entered := l.entered ++ [x], waiting := l.waiting ++ [x] }
  | take (x : α) (rest : List α) (h : l.hand = .free) (hw : l.waiting = x :: rest) :
    Step l { l with waiting := rest, hand := .taken x }
  | begin (x : α) (h : l.hand = .taken x) :
    Step l { l with begun := l.begun ++ [x], hand := .begun x }
  | finish : Step l { l with hand := .free }
  | putBack (x : α) (h : l.hand = .taken x) (hw : ∀ y ∈ l.waiting, y = x) :
    Step l { l with waiting := l.waiting ++ [x], hand := .free }

/-- The elements that have left the line did so in order, and at most the last one of them
is still in hand. -/
def InOrder (l : Line α) : Prop :=
  Blocks l.entered ∧ ∃ left, match l.hand with
    | .free => l.entered = left ++ l.waiting ∧ l.begun.Sublist left
    | .taken x => l.entered = left ++ x :: l.waiting ∧ l.begun.Sublist left
    | .begun x => l.entered = left ++ x :: l.waiting ∧ l.begun.Sublist (left ++ [x])

/-- The line that nothing has entered. -/
def start : Line α := ⟨[], [], [], .free⟩

theorem inOrder_start : (start : Line α).InOrder :=
  ⟨Blocks.nil, [], rfl, List.Sublist.refl []⟩

theorem InOrder.step {l l' : Line α} (h : l.InOrder) (hs : Step l l') : l'.InOrder := by
  obtain ⟨hb, left, hl⟩ := h
  cases hs with
  | enter x hx =>
    refine ⟨hb.concat hx, left, ?_⟩
    cases hh : l.hand with
    | free =>
      rw [hh] at hl
      simp only [hl.1, List.append_assoc, true_and]
      exact hl.2
    | taken y =>
      rw [hh] at hl
      simp only [hl.1, List.append_assoc, List.cons_append, true_and]
      exact hl.2
    | begun y =>
      rw [hh] at hl
      simp only [hl.1, List.append_assoc, List.cons_append, true_and]
      exact hl.2
  | take x rest hh hw =>
    rw [hh] at hl
    exact ⟨hb, left, hw ▸ hl.1, hl.2⟩
  | begin x hh =>
    rw [hh] at hl
    exact ⟨hb, left, hl.1, hl.2.append (List.Sublist.refl [x])⟩
  | finish =>
    refine ⟨hb, ?_⟩
    cases hh : l.hand with
    | free =>
      rw [hh] at hl
      exact ⟨left, hl⟩
    | taken x =>
      rw [hh] at hl
      exact ⟨left ++ [x], by rw [List.append_assoc]; exact hl.1,
        hl.2.trans (List.sublist_append_left left [x])⟩
    | begun x =>
      rw [hh] at hl
      exact ⟨left ++ [x], by rw [List.append_assoc]; exact hl.1, hl.2⟩
  | putBack x hh hw =>
    rw [hh] at hl
    refine ⟨hb, left, ?_, hl.2⟩
    -- what waits repeats the element that goes back
    have hrep := List.eq_replicate_of_mem hw
    rw [hl.1, hrep, ← List.replicate_succ, List.replicate_succ']

/-- Elements begin in the order in which they entered. -/
theorem InOrder.begun_sublist {l : Line α} (h : l.InOrder) : l.begun.Sublist l.entered := by
  obtain ⟨-, left, hl⟩ := h
  cases hh : l.hand with
  | free =>
    rw [hh] at hl
    rw [hl.1]
    exact hl.2.trans (List.sublist_append_left left l.waiting)
  | taken x =>
    rw [hh] at hl
    rw [hl.1]
    exact hl.2.trans (List.sublist_append_left left _)
  | begun x =>
    rw [hh] at hl
    rw [hl.1]
    exact hl.2.trans ((List.sublist_append_left (left ++ [x]) l.waiting).trans
      (by rw [List.append_assoc]; exact List.Sublist.refl _))

/-- Nothing that entered before the element in hand waits. -/
theorem InOrder.of_taken {l : Line α} (h : l.InOrder) {x : α} (hx : l.hand = .taken x) :
    ∃ left, l.entered = left ++ x :: l.waiting ∧ ∀ y ∈ left, y ≠ x → y ∉ l.waiting := by
  obtain ⟨hb, left, hl⟩ := h
  rw [hx] at hl
  exact ⟨left, hl.1, fun y hy hne => Blocks.not_mem (hl.1 ▸ hb) hy hne⟩

end Line

end Embb
