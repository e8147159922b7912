import Mathlib.Data.Finset.Card
import Mathlib.Order.Interval.Finset.Nat
import Embb.Mtapi.Pool

/-!
# Free identifiers

As long as only slots in use are given back, the identifiers in the ring are exactly those of
the free slots. Then the ring tells how many slots are in use, and an allocation fails only
when all of them are.
-/

namespace Embb.Mtapi

open PoolObject

namespace Pool

variable {α : Type} [PoolObject α]

/-- Exactly the identifiers of free slots are in the ring. -/
structure Exact (p : Pool α) : Prop extends p.Sound where
  valid : idPoolInvalidId ∉ p.idPool.ids
  complete : ∀ id, 0 < id → id ≤ p.idPool.capacity →
    (handle (p.storage id)).id = idPoolInvalidId → id ∈ p.idPool.ids

/-- The slots in use. -/
def used (p : Pool α) : Finset Nat :=
  (Finset.Icc 1 p.idPool.capacity).filter fun id => (handle (p.storage id)).id ≠ idPoolInvalidId

/-- An allocation fails when the ring hands out the invalid identifier. -/
theorem id_of_allocate_none {p : Pool α} (h : p.allocate.2 = none) :
    p.idPool.allocate.2 = idPoolInvalidId := by
  unfold allocate at h
  split at h
  · assumption
  · cases h

namespace Exact

variable {p q : Pool α}

theorem congr (h : p.Exact) (hi : q.idPool = p.idPool)
    (hs : ∀ id, handle (q.storage id) = handle (p.storage id)) : q.Exact where
  toSound := h.toSound.congr hi hs
  valid := by
    rw [hi]
    exact h.valid
  complete id hpos hle hid := by
    rw [hi] at hle ⊢
    rw [hs] at hid
    exact h.complete id hpos hle hid

theorem init (capacity : Nat) (blank : α) : (Pool.init capacity blank).Exact where
  toSound := sound_init capacity blank
  valid hm := by
    have hm' : idPoolInvalidId ∈ (IdPool.init capacity).ids := hm
    rw [IdPool.ids_init, List.mem_range'_1] at hm'
    exact absurd hm'.1 (by decide)
  complete id hpos hle _ := by
    change id ∈ (IdPool.init capacity).ids
    rw [IdPool.ids_init, List.mem_range'_1]
    rw [show (Pool.init capacity blank).idPool.capacity = capacity from rfl] at hle
    omega

/-- The free identifiers and the slots in use make up the pool. -/
theorem length_ids (h : p.Exact) : p.idPool.ids.length + p.used.card = p.idPool.capacity := by
  have hne : ∀ id ∈ p.idPool.ids, id ≠ idPoolInvalidId := fun id hid he => h.valid (he ▸ hid)
  have hnodup : p.idPool.ids.Nodup := by
    have hnodup := h.nodup
    rwa [List.filter_eq_self.mpr fun id hid => decide_eq_true (hne id hid)] at hnodup
  have hfree : p.idPool.ids.toFinset = (Finset.Icc 1 p.idPool.capacity).filter fun id =>
      (handle (p.storage id)).id = idPoolInvalidId := by
    ext id
    rw [List.mem_toFinset, Finset.mem_filter, Finset.mem_Icc]
    constructor
    · intro hid
      obtain ⟨hle, hz⟩ := h.free id hid (hne id hid)
      exact ⟨⟨Nat.pos_of_ne_zero (hne id hid), hle⟩, hz⟩
    · rintro ⟨⟨hpos, hle⟩, hz⟩
      exact h.complete id hpos hle hz
  have hcard := Finset.card_filter_add_card_filter_not (s := Finset.Icc 1 p.idPool.capacity)
    fun id => (handle (p.storage id)).id = idPoolInvalidId
  rw [← hfree, List.toFinset_card_of_nodup hnodup, Nat.card_Icc, Nat.add_sub_cancel] at hcard
  exact hcard

theorem allocate (h : p.Exact) : p.allocate.1.Exact := by
  cases hx : p.allocate.2 with
  | none =>
    have hpool : p.allocate.1.idPool = p.idPool := by
      rcases p.idPool.allocate_spec with ⟨-, he⟩ | hids
      · rw [allocate_none hx, setIdPool_idPool, he]
      · exact absurd (hids ▸ id_of_allocate_none hx ▸ List.mem_cons_self) h.valid
    exact h.congr hpool fun id => by rw [allocate_none hx, setIdPool_storage]
  | some x =>
    obtain ⟨hne, hle, -, -, hids, heq⟩ := allocate_some h.toSound hx
    have hpool : p.allocate.1.idPool = p.idPool.allocate.1 := by
      rw [heq]
      rfl
    refine ⟨sound_allocate h.toSound, ?_, fun id hpos hle' hz => ?_⟩
    · rw [hpool]
      exact fun hm => h.valid (hids ▸ List.mem_cons_of_mem _ hm)
    · have hid : id ≠ x.id := by
        rintro rfl
        rw [storage_allocate_self h.toSound hx, handle_setHandle] at hz
        exact hne hz
      rw [storage_allocate_of_ne h.toSound hx hid] at hz
      rw [capacity_allocate] at hle'
      have hm := h.complete id hpos hle' hz
      rw [hids] at hm
      rw [hpool]
      exact (List.mem_cons.mp hm).resolve_left hid

/-- Giving back a slot in use. -/
theorem deallocate (h : p.Exact) {x : Ptr} (hx : p.Live x) : (p.deallocate x).Exact := by
  have hidx : (handle (p.storage x.id)).id = x.id := by rw [hx.2.2]
  have hused : x.id ∈ p.used := by
    rw [used, Finset.mem_filter, Finset.mem_Icc, hidx]
    exact ⟨⟨hx.1, hx.2.1⟩, Nat.pos_iff_ne_zero.mp hx.1⟩
  have hpos := Finset.card_pos.mpr ⟨_, hused⟩
  have hlen := h.length_ids
  have hids : (p.deallocate x).idPool.ids = p.idPool.ids ++ [x.id] := by
    simp only [Pool.deallocate, setIdPool_idPool, hidx]
    exact IdPool.ids_deallocate (by omega) _
  refine ⟨sound_deallocate h.toSound x, ?_, fun id hpos hle hz => ?_⟩
  · rw [hids]
    intro hm
    rcases List.mem_append.mp hm with hm | hm
    · exact h.valid hm
    · exact Nat.pos_iff_ne_zero.mp hx.1 (List.mem_singleton.mp hm).symm
  · rw [hids]
    by_cases hid : id = x.id
    · exact List.mem_append_right _ (List.mem_singleton.mpr hid)
    · rw [storage_deallocate_of_ne p x hid] at hz
      rw [capacity_deallocate] at hle
      exact List.mem_append_left _ (h.complete id hpos hle hz)

/-- When an allocation fails, all slots are in use. -/
theorem exists_live (h : p.Exact) (ha : p.allocate.2 = none) {id : Nat} (hpos : 0 < id)
    (hle : id ≤ p.idPool.capacity) : ∃ x, p.Live x ∧ x.id = id := by
  have hnone : p.idPool.ids = [] := by
    rcases p.idPool.allocate_spec with ⟨hids, -⟩ | hids
    · exact hids
    · exact absurd (hids ▸ id_of_allocate_none ha ▸ List.mem_cons_self) h.valid
  rcases h.index id with hz | ⟨hid, -⟩
  · have hm := h.complete id hpos hle hz
    rw [hnone] at hm
    exact absurd hm List.not_mem_nil
  · refine ⟨handle (p.storage id), ⟨?_, ?_, ?_⟩, hid⟩
    · rwa [hid]
    · rwa [hid]
    · rw [hid]

end Exact

end Pool

end Embb.Mtapi
