import Mathlib.Data.Multiset.AddSub
import Mathlib.Data.Multiset.Filter
import Mathlib.Data.Multiset.Range
import Mathlib.Logic.Function.Basic

/-!
# Elements in cells and in hands

A store of elements keeps each of them in a cell of its own. Who takes an element leaves a
mark in the cell, and who puts it back needs to know its index. Every element is then in
its cell or in exactly one hand.
-/

namespace Embb

variable {α : Type} {elements : List α} {mark : α} {cells : ℕ → α} {owned : Multiset (α × ℕ)}

/-- The cells and the pairs in hand make up the elements. -/
structure Holdings (elements : List α) (mark : α) (cells : ℕ → α) (owned : Multiset (α × ℕ)) :
    Prop where
  nodup : (owned.map Prod.snd).Nodup
  owned_cell : ∀ q ∈ owned, elements[q.2]? = some q.1 ∧ cells q.2 = mark
  free_cell : ∀ i x, elements[i]? = some x → i ∉ owned.map Prod.snd → cells i = x

namespace Holdings

/-- At first all elements are in their cells. -/
theorem zero (elements : List α) (mark : α) (cells : ℕ → α) :
    Holdings elements mark (fun i => elements[i]?.getD (cells i)) 0 where
  nodup := Multiset.nodup_zero
  owned_cell := fun _ hq => absurd hq (Multiset.notMem_zero _)
  free_cell := by
    intro i x hx _
    simp only [hx, Option.getD_some]

/-- A cell that is not marked has its element. -/
theorem element_of_cell (h : Holdings elements mark cells owned) {i : ℕ}
    (hi : i < elements.length) (hc : cells i ≠ mark) : elements[i]? = some (cells i) := by
  have hget : elements[i]? = some elements[i] := List.getElem?_eq_getElem hi
  rw [hget, h.free_cell i _ hget]
  intro hm
  obtain ⟨q, hq, rfl⟩ := Multiset.mem_map.mp hm
  exact hc (h.owned_cell q hq).2

/-- Nobody has the element of a cell that is not marked. -/
theorem not_mem_of_cell (h : Holdings elements mark cells owned) {i : ℕ} (hc : cells i ≠ mark) :
    i ∉ owned.map Prod.snd := by
  intro hm
  obtain ⟨q, hq, rfl⟩ := Multiset.mem_map.mp hm
  exact hc (h.owned_cell q hq).2

/-- An element is taken out of its cell. -/
theorem take (h : Holdings elements mark cells owned) {i : ℕ} {e : α}
    (he : elements[i]? = some e) (hc : cells i ≠ mark) :
    Holdings elements mark (Function.update cells i mark) ((e, i) ::ₘ owned) := by
  have hfree := h.not_mem_of_cell hc
  constructor
  · rw [Multiset.map_cons, Multiset.nodup_cons]
    exact ⟨hfree, h.nodup⟩
  · intro q hq
    rcases Multiset.mem_cons.mp hq with rfl | hq
    · exact ⟨he, Function.update_self ..⟩
    · have hne : q.2 ≠ i := fun hqi => hfree (Multiset.mem_map.mpr ⟨q, hq, hqi⟩)
      obtain ⟨h1, h2⟩ := h.owned_cell q hq
      exact ⟨h1, (Function.update_of_ne hne _ _).trans h2⟩
  · intro j x hx hj
    rw [Multiset.map_cons, Multiset.mem_cons, not_or] at hj
    exact (Function.update_of_ne hj.1 _ _).trans (h.free_cell j x hx hj.2)

/-- An element that was in hand is put back into its cell. -/
theorem put {e : α} {i : ℕ} (h : Holdings elements mark cells ((e, i) ::ₘ owned)) :
    Holdings elements mark (Function.update cells i e) owned := by
  have hnodup := h.nodup
  rw [Multiset.map_cons, Multiset.nodup_cons] at hnodup
  obtain ⟨he, -⟩ := h.owned_cell (e, i) (Multiset.mem_cons_self _ _)
  constructor
  · exact hnodup.2
  · intro q hq
    have hne : q.2 ≠ i := fun hqi => hnodup.1 (Multiset.mem_map.mpr ⟨q, hq, hqi⟩)
    obtain ⟨h1, h2⟩ := h.owned_cell q (Multiset.mem_cons_of_mem hq)
    exact ⟨h1, (Function.update_of_ne hne _ _).trans h2⟩
  · intro j x hx hj
    rcases eq_or_ne j i with rfl | hne
    · rw [he] at hx
      cases hx
      exact Function.update_self ..
    · refine (Function.update_of_ne hne _ _).trans (h.free_cell j x hx ?_)
      rw [Multiset.map_cons, Multiset.mem_cons, not_or]
      exact ⟨hne, hj⟩

variable [DecidableEq α]

/-- The indices in hand are those of the marked cells. -/
theorem indices (h : Holdings elements mark cells owned) (hd : ∀ x ∈ elements, x ≠ mark) :
    owned.map Prod.snd =
      (Multiset.range elements.length).filter fun i => ¬ cells i ≠ mark := by
  refine (Multiset.Nodup.ext h.nodup ((Multiset.nodup_range _).filter _)).mpr fun i => ?_
  rw [Multiset.mem_filter, Multiset.mem_range, not_not]
  constructor
  · intro hi
    obtain ⟨q, hq, rfl⟩ := Multiset.mem_map.mp hi
    obtain ⟨h1, h2⟩ := h.owned_cell q hq
    exact ⟨(List.getElem?_eq_some_iff.mp h1).1, h2⟩
  · rintro ⟨hlt, hmark⟩
    by_contra hn
    have hx := h.free_cell i _ (List.getElem?_eq_getElem hlt) hn
    rw [hmark] at hx
    exact hd _ (List.getElem_mem hlt) hx.symm

/-- The elements in the cells and those in hand are all elements. -/
theorem conserved (h : Holdings elements mark cells owned) (hd : ∀ x ∈ elements, x ≠ mark) :
    (elements : Multiset α) =
      ((Multiset.range elements.length).filter fun i => cells i ≠ mark).map cells +
        owned.map Prod.fst := by
  let g : ℕ → α := fun i => elements[i]?.getD mark
  have hall : (elements : Multiset α) = (Multiset.range elements.length).map g := by
    rw [Multiset.range, Multiset.map_coe, Multiset.coe_eq_coe]
    refine List.Perm.of_eq (List.ext_getElem ?_ fun i h₁ h₂ => ?_)
    · rw [List.length_map, List.length_range]
    · rw [List.getElem_map, List.getElem_range]
      show _ = elements[i]?.getD mark
      rw [List.getElem?_eq_getElem h₁, Option.getD_some]
  have howned : owned.map Prod.fst = (owned.map Prod.snd).map g := by
    rw [Multiset.map_map]
    refine Multiset.map_congr rfl fun q hq => ?_
    show q.1 = elements[q.2]?.getD mark
    rw [(h.owned_cell q hq).1, Option.getD_some]
  have hcells : ((Multiset.range elements.length).filter fun i => cells i ≠ mark).map cells =
      ((Multiset.range elements.length).filter fun i => cells i ≠ mark).map g := by
    refine Multiset.map_congr rfl fun i hi => ?_
    obtain ⟨hi, hc⟩ := Multiset.mem_filter.mp hi
    show cells i = elements[i]?.getD mark
    rw [h.element_of_cell (Multiset.mem_range.mp hi) hc, Option.getD_some]
  rw [howned, hcells, hall, h.indices hd, ← Multiset.map_add]
  exact congrArg _ (Multiset.filter_add_not _ _).symm

end Holdings

end Embb
