import Mathlib.Data.List.Nodup
import Mathlib.Logic.Function.Basic
import Mathlib.Logic.Relation

/-!
# Linked nodes

A list of nodes is linked if each node points to the one after it and the last points
nowhere. What points to a node that is not in the list may change freely.
-/

namespace Embb

variable {N : Type}

/-- Each node of the list points to the next one, the last one to none. -/
def Linked (next : N → Option N) : List N → Prop
  | [] => True
  | a :: l => next a = l.head? ∧ Linked next l

namespace Linked

variable {next next' : N → Option N} {l : List N}

theorem congr (h : Linked next l) (hn : ∀ a ∈ l, next' a = next a) : Linked next' l := by
  induction l with
  | nil => trivial
  | cons a l ih =>
    refine ⟨?_, ih h.2 fun b hb => hn b (List.mem_cons_of_mem a hb)⟩
    rw [hn a List.mem_cons_self]
    exact h.1

/-- The end of a linked list is linked. -/
theorem suffix {l₁ l₂ : List N} (h : Linked next (l₁ ++ l₂)) : Linked next l₂ := by
  induction l₁ with
  | nil => exact h
  | cons a l₁ ih => exact ih h.2

theorem next_eq {l₁ l₂ : List N} {a : N} (h : Linked next (l₁ ++ a :: l₂)) :
    next a = l₂.head? :=
  h.suffix.1

/-- The successor of a node of the list is in the list, and does not come first. -/
theorem next_mem {a b c : N} (h : Linked next (c :: l)) (ha : a ∈ c :: l)
    (hb : next a = some b) : b ∈ l := by
  obtain ⟨l₁, l₂, he⟩ := List.append_of_mem ha
  rw [he] at h
  have hhead := h.next_eq
  rw [hb] at hhead
  have hmem : b ∈ l₂ := List.mem_of_mem_head? hhead.symm
  cases l₁ with
  | nil =>
    obtain ⟨-, rfl⟩ := List.cons.inj he
    exact hmem
  | cons d l₁ =>
    obtain ⟨-, rfl⟩ := List.cons.inj he
    exact List.mem_append_right l₁ (List.mem_cons_of_mem a hmem)

/-- A node of the list that points nowhere is the last one. -/
theorem eq_concat {a : N} (h : Linked next l) (ha : a ∈ l) (hn : next a = none) :
    ∃ l', l = l' ++ [a] := by
  obtain ⟨l₁, l₂, rfl⟩ := List.append_of_mem ha
  have hhead := h.next_eq
  rw [hn] at hhead
  rw [List.head?_eq_none_iff.mp hhead.symm]
  exact ⟨l₁, rfl⟩

/-- A new node is appended by a store to the last one. -/
theorem concat [DecidableEq N] {a b : N} (h : Linked next (l ++ [a])) (hd : (l ++ [a]).Nodup)
    (hb : b ∉ l ++ [a]) (hn : next b = none) :
    Linked (Function.update next a (some b)) (l ++ [a] ++ [b]) := by
  induction l with
  | nil =>
    refine ⟨Function.update_self .., ?_, trivial⟩
    have hba : b ≠ a := fun he => hb (List.mem_singleton.mpr he)
    rw [Function.update_of_ne hba, hn]
    rfl
  | cons c l ih =>
    have hc : c ≠ a := by
      rintro rfl
      exact (List.nodup_cons.mp hd).1 (List.mem_append_right l (List.mem_singleton_self c))
    refine ⟨?_, ih h.2 (List.nodup_cons.mp hd).2 fun hm => hb (List.mem_cons_of_mem c hm)⟩
    rw [Function.update_of_ne hc, h.1]
    cases l <;> rfl

/-- The successor of a node comes right after it. -/
theorem idxOf_next [DecidableEq N] {a b : N} (h : Linked next l) (hd : l.Nodup) (ha : a ∈ l)
    (hb : next a = some b) : l.idxOf b = l.idxOf a + 1 := by
  obtain ⟨l₁, l₂, rfl⟩ := List.append_of_mem ha
  have hhead := h.next_eq
  rw [hb] at hhead
  obtain ⟨l₃, rfl⟩ := List.head?_eq_some_iff.mp hhead.symm
  have ha' : a ∉ l₁ := fun hm => (List.nodup_append.mp hd).2.2 a hm a List.mem_cons_self rfl
  have hb' : b ∉ l₁ := fun hm => (List.nodup_append.mp hd).2.2 b hm b
    (List.mem_cons_of_mem a List.mem_cons_self) rfl
  have hne : a ≠ b := by
    rintro rfl
    exact (List.nodup_cons.mp (List.nodup_append.mp hd).2.1).1 List.mem_cons_self
  rw [List.idxOf_append_of_notMem ha', List.idxOf_append_of_notMem hb', List.idxOf_cons_self,
    List.idxOf_cons_ne _ hne, List.idxOf_cons_self]

/-- Every node of the list can be reached from the first one. -/
theorem reaches {a b : N} (h : Linked next (a :: l)) (hb : b ∈ a :: l) :
    Relation.ReflTransGen (fun x y => next x = some y) a b := by
  induction l generalizing a with
  | nil =>
    rw [List.mem_singleton.mp hb]
  | cons c l ih =>
    rcases List.mem_cons.mp hb with rfl | hb
    · exact Relation.ReflTransGen.refl
    · exact Relation.ReflTransGen.head h.1 (ih h.2 hb)

end Linked

end Embb
