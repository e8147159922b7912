import Embb.Lib.Circular
import Embb.Mtapi.Types

/-!
# Id pools

The ring of free identifiers behind every object pool. It has one cell more than
it has identifiers, and both positions run over all cells.
-/

namespace Embb.Mtapi

open Circular

/-- `embb_mtapi_id_pool_struct`; the lock is held for the length of one call only. -/
structure IdPool where
  capacity : Nat
  idBuffer : Nat → Nat
  idsAvailable : Nat
  getIdPosition : Nat
  putIdPosition : Nat
  available_le : idsAvailable ≤ capacity
  get_lt : getIdPosition < capacity + 1 ∨ capacity = 0
  put_eq : putIdPosition = (getIdPosition + idsAvailable) % (capacity + 1)

namespace IdPool

/-- `embb_mtapi_id_pool_initialize`. -/
def init (capacity : Nat) : IdPool where
  capacity := capacity
  idBuffer := fun ii => if ii = 0 then idPoolInvalidId else ii
  idsAvailable := capacity
  getIdPosition := 1
  putIdPosition := 0
  available_le := le_rfl
  get_lt := by omega
  put_eq := by rw [Nat.add_comm, Nat.mod_self]

/-- The free identifiers, next one first. -/
def ids (p : IdPool) : List Nat :=
  window p.idBuffer (p.capacity + 1) p.getIdPosition p.idsAvailable

@[simp] theorem length_ids (p : IdPool) : p.ids.length = p.idsAvailable := length_window _ _ _ _

/-- A fresh pool offers the identifiers from one to its capacity. -/
theorem ids_init (capacity : Nat) :
    (init capacity).ids = List.range' 1 capacity := by
  apply List.ext_getElem?
  intro i
  by_cases hi : i < capacity
  · simp only [ids, init]
    rw [getElem?_window _ hi, Nat.mod_eq_of_lt (by omega), List.getElem?_range' hi]
    simp
  · rw [List.getElem?_eq_none (by simp only [length_ids, init]; omega),
      List.getElem?_eq_none (by simp only [List.length_range']; omega)]

/-- `embb_mtapi_id_pool_allocate`. -/
def allocate (p : IdPool) : IdPool × Nat :=
  if h : 0 < p.idsAvailable then
    ({ p with
        idsAvailable := p.idsAvailable - 1
        getIdPosition := next p.getIdPosition (p.capacity + 1)
        idBuffer := Function.update p.idBuffer p.getIdPosition idPoolInvalidId
        available_le := le_trans (Nat.sub_le _ _) p.available_le
        get_lt := by
          have ha := p.available_le
          exact Or.inl (next_lt (p.get_lt.resolve_right (by omega)))
        put_eq := by
          have ha := p.available_le
          have hg := p.get_lt.resolve_right (by omega)
          rw [next_eq_mod hg, Nat.mod_add_mod, p.put_eq]
          congr 1
          omega }, p.idBuffer p.getIdPosition)
  else (p, idPoolInvalidId)

/-- `embb_mtapi_id_pool_deallocate`. -/
def deallocate (p : IdPool) (id : Nat) : IdPool :=
  if h : p.idsAvailable < p.capacity then
    { p with
      idBuffer := Function.update p.idBuffer p.putIdPosition id
      putIdPosition := next p.putIdPosition (p.capacity + 1)
      idsAvailable := p.idsAvailable + 1
      available_le := h
      put_eq := by
        have hp : p.putIdPosition < p.capacity + 1 := by
          rw [p.put_eq]
          exact Nat.mod_lt _ (by omega)
        rw [next_eq_mod hp, p.put_eq, Nat.mod_add_mod, Nat.add_assoc] }
  else p

/-- Allocation returns the first free identifier, or none when there is none. -/
theorem allocate_spec (p : IdPool) :
    (p.ids = [] ∧ p.allocate = (p, idPoolInvalidId)) ∨
      p.ids = p.allocate.2 :: p.allocate.1.ids := by
  by_cases h : 0 < p.idsAvailable
  · right
    have ha := p.available_le
    have hg := p.get_lt.resolve_right (by omega)
    obtain ⟨n, hn⟩ : ∃ n, p.idsAvailable = n + 1 := ⟨p.idsAvailable - 1, by omega⟩
    simp only [allocate, h, ↓reduceDIte, ids]
    rw [hn, window_pop p.idBuffer idPoolInvalidId hg (by omega), next_eq_mod hg,
      Nat.add_sub_cancel]
  · left
    refine ⟨?_, by simp [allocate, h]⟩
    rw [← List.length_eq_zero_iff, length_ids]
    omega

/-- A pool that lacks an identifier takes it back behind the others. -/
theorem ids_deallocate {p : IdPool} (h : p.ids.length < p.capacity) (id : Nat) :
    (p.deallocate id).ids = p.ids ++ [id] := by
  rw [length_ids] at h
  simp only [deallocate, h, ↓reduceDIte, ids]
  rw [p.put_eq, window_push _ _ (by omega)]

theorem deallocate_of_full {p : IdPool} (h : ¬ p.ids.length < p.capacity) (id : Nat) :
    p.deallocate id = p := by
  rw [length_ids] at h
  simp only [deallocate, h, ↓reduceDIte]

@[simp] theorem capacity_init (capacity : Nat) :
    (init capacity).capacity = capacity := rfl

@[simp] theorem capacity_allocate (p : IdPool) : p.allocate.1.capacity = p.capacity := by
  unfold allocate
  split <;> rfl

@[simp] theorem capacity_deallocate (p : IdPool) (id : Nat) :
    (p.deallocate id).capacity = p.capacity := by
  unfold deallocate
  split <;> rfl

/-- No identifier appears from nowhere when one is taken back. -/
theorem mem_ids_deallocate {p : IdPool} {id x : Nat} (h : x ∈ (p.deallocate id).ids) :
    x ∈ p.ids ∨ x = id := by
  by_cases hf : p.ids.length < p.capacity
  · rw [ids_deallocate hf, List.mem_append, List.mem_singleton] at h
    exact h
  · rw [deallocate_of_full hf] at h
    exact Or.inl h

end IdPool

end Embb.Mtapi
