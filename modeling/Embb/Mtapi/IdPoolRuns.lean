import Mathlib.Data.List.Perm.Subperm
import Embb.Mtapi.IdPool

/-!
# Histories of an id pool

The identifiers that are handed out and those in the ring make up all identifiers of the pool.
The number of cells is computed in `mtapi_uint_t`, where the largest capacity leaves no cell,
and the first store of the initialization is already outside the block.
-/

namespace Embb.Mtapi.IdPool

/-- A store into the allocated cells; there is none where it falls outside. -/
def writeCell (cells : List Nat) (ii x : Nat) : Option (List Nat) :=
  if ii < cells.length then some (cells.set ii x) else none

/-- The cells that `embb_mtapi_id_pool_initialize` allocates and fills. The block has
`capacity + 1` cells, in `mtapi_uint_t`; what a fresh block contains is unknown. -/
def fillCells (fresh : Nat → Nat) (capacity : Nat) : Option (List Nat) := do
  let cells ← writeCell ((List.range (uintSucc capacity)).map fresh) 0 idPoolInvalidId
  -- the counter `ii` passes the largest capacity only after the store above has failed
  (List.range' 1 capacity).foldlM (fun cells ii => writeCell cells ii ii) cells

/-- `embb_mtapi_id_pool_initialize`; there is no pool where it writes outside its block. -/
def initialized (fresh : Nat → Nat) (capacity : Nat) : Option IdPool :=
  (fillCells fresh capacity).map fun cells =>
    { init capacity with idBuffer := fun ii => cells[ii]?.getD idPoolInvalidId }

/-- The loop fills one cell after the other with its own index. -/
theorem foldlM_writeCell (rest : List Nat) (n : Nat) :
    (List.range' n rest.length).foldlM (fun cells ii => writeCell cells ii ii)
        (List.range n ++ rest) = some (List.range (n + rest.length)) := by
  induction rest generalizing n with
  | nil => simp
  | cons x rest ih =>
    have hlt : n < (List.range n ++ x :: rest).length := by simp
    have hset : (List.range n ++ x :: rest).set n n = List.range (n + 1) ++ rest := by
      rw [List.set_append_right _ _ (by simp), List.length_range, Nat.sub_self, List.set_cons_zero,
        List.range_succ, List.append_assoc, List.singleton_append]
    have hstep : writeCell (List.range n ++ x :: rest) n n = some (List.range (n + 1) ++ rest) := by
      rw [writeCell, if_pos hlt, hset]
    rw [List.length_cons, List.range'_succ, List.foldlM_cons, hstep, ← Nat.add_assoc,
      Nat.add_right_comm]
    exact ih (n + 1)

/-- Where `capacity + 1` can be represented, every cell of the block gets its own index. -/
theorem fillCells_of_lt {fresh : Nat → Nat} {capacity : Nat} (h : capacity + 1 < uintRange) :
    fillCells fresh capacity = some (List.range (capacity + 1)) := by
  have hcells : writeCell ((List.range (uintSucc capacity)).map fresh) 0 idPoolInvalidId =
      some (List.range 1 ++ (List.range' 1 capacity).map fresh) := by
    rw [uintSucc_of_lt h, writeCell, if_pos (by simp), List.range_eq_range', List.range'_succ]
    rfl
  have hloop := foldlM_writeCell ((List.range' 1 capacity).map fresh) 1
  rw [List.length_map, List.length_range', Nat.add_comm 1] at hloop
  simp only [fillCells, hcells, Option.bind_eq_bind, Option.bind_some, hloop]

/-- The largest capacity leaves no cell to store the first entry in. -/
theorem fillCells_of_wrap {fresh : Nat → Nat} {capacity : Nat} (h : capacity + 1 = uintRange) :
    fillCells fresh capacity = none := by
  simp [fillCells, uintSucc, h, writeCell]

/-- A pool and the identifiers that it has handed out and not taken back, in any history of
calls that gives back only such identifiers. -/
inductive Run (fresh : Nat → Nat) (capacity : Nat) : IdPool → List Nat → Prop
  | initialized {p : IdPool} : initialized fresh capacity = some p → Run fresh capacity p []
  | allocate {p : IdPool} {handed : List Nat} : Run fresh capacity p handed →
      Run fresh capacity p.allocate.1
        (if p.allocate.2 = idPoolInvalidId then handed else p.allocate.2 :: handed)
  | deallocate {p : IdPool} {handed : List Nat} {id : Nat} : Run fresh capacity p handed →
      id ∈ handed → Run fresh capacity (p.deallocate id) (handed.erase id)

/-- The identifiers in hands and in the ring are those of the pool. -/
structure Shared (capacity : Nat) (p : IdPool) (handed : List Nat) : Prop where
  capacity_eq : p.capacity = capacity
  perm : (handed ++ p.ids).Perm (List.range' 1 capacity)

namespace Shared

variable {capacity : Nat} {p : IdPool} {handed : List Nat}

theorem mem_iff (h : Shared capacity p handed) {id : Nat} :
    id ∈ handed ∨ id ∈ p.ids ↔ 1 ≤ id ∧ id ≤ capacity := by
  rw [← List.mem_append, h.perm.mem_iff, List.mem_range'_1]
  omega

theorem nodup (h : Shared capacity p handed) : (handed ++ p.ids).Nodup :=
  h.perm.nodup_iff.mpr List.nodup_range'

theorem length (h : Shared capacity p handed) : handed.length + p.ids.length = capacity := by
  have hl := h.perm.length_eq
  rwa [List.length_append, List.length_range'] at hl

/-- The ring is empty exactly when everything is handed out. -/
theorem allocate_invalid_iff (h : Shared capacity p handed) :
    p.allocate.2 = idPoolInvalidId ↔ handed.length = capacity := by
  have hl := h.length
  rcases p.allocate_spec with ⟨hids, he⟩ | hids
  · refine iff_of_true (by rw [he]) ?_
    rw [hids] at hl
    exact hl
  · have hm : p.allocate.2 ∈ p.ids := hids ▸ List.mem_cons_self ..
    refine iff_of_false (fun hz => ?_) (fun hall => ?_)
    · have hr := h.mem_iff.mp (Or.inr hm)
      rw [hz] at hr
      exact absurd hr.1 (by decide)
    · have hlen := congrArg List.length hids
      rw [List.length_cons] at hlen
      omega

/-- What an allocation returns was in the ring, and in no hand. -/
theorem allocate_valid (h : Shared capacity p handed) (hv : p.allocate.2 ≠ idPoolInvalidId) :
    1 ≤ p.allocate.2 ∧ p.allocate.2 ≤ capacity ∧ p.allocate.2 ∉ handed := by
  rcases p.allocate_spec with ⟨-, he⟩ | hids
  · exact absurd (by rw [he]) hv
  · have hm : p.allocate.2 ∈ p.ids := hids ▸ List.mem_cons_self ..
    obtain ⟨h1, h2⟩ := h.mem_iff.mp (Or.inr hm)
    exact ⟨h1, h2, fun hh => (List.nodup_append.mp h.nodup).2.2 _ hh _ hm rfl⟩

/-- Who gives back an identifier finds room for it. -/
theorem ids_deallocate (h : Shared capacity p handed) {id : Nat} (hid : id ∈ handed) :
    (p.deallocate id).ids = p.ids ++ [id] := by
  have hl := h.length
  have hpos := List.length_pos_of_mem hid
  rw [← h.capacity_eq] at hl
  exact IdPool.ids_deallocate (by omega) id

theorem init (capacity : Nat) {p : IdPool} (hc : p.capacity = capacity)
    (hids : p.ids = List.range' 1 capacity) : Shared capacity p [] where
  capacity_eq := hc
  perm := by rw [List.nil_append, hids]

theorem allocate (h : Shared capacity p handed) :
    Shared capacity p.allocate.1
      (if p.allocate.2 = idPoolInvalidId then handed else p.allocate.2 :: handed) where
  capacity_eq := (capacity_allocate p).trans h.capacity_eq
  perm := by
    rcases p.allocate_spec with ⟨hids, he⟩ | hids
    · rw [he, if_pos rfl]
      exact h.perm
    · have hne : p.allocate.2 ≠ idPoolInvalidId := by
        intro hz
        have hr := h.mem_iff.mp (Or.inr (hids ▸ List.mem_cons_self ..))
        rw [hz] at hr
        exact absurd hr.1 (by decide)
      rw [if_neg hne, List.cons_append]
      have hp := h.perm
      rw [hids] at hp
      exact List.perm_middle.symm.trans hp

theorem deallocate (h : Shared capacity p handed) {id : Nat} (hid : id ∈ handed) :
    Shared capacity (p.deallocate id) (handed.erase id) where
  capacity_eq := (capacity_deallocate p id).trans h.capacity_eq
  perm := by
    rw [h.ids_deallocate hid]
    calc (handed.erase id ++ (p.ids ++ [id])).Perm (id :: (handed.erase id ++ p.ids)) := by
          rw [← List.append_assoc]
          exact List.perm_append_singleton ..
      _ |>.Perm (handed ++ p.ids) := by
          rw [← List.cons_append]
          exact (List.perm_cons_erase hid).symm.append_right _
      _ |>.Perm (List.range' 1 capacity) := h.perm

end Shared

theorem initialized_of_lt {fresh : Nat → Nat} {capacity : Nat} (h : capacity + 1 < uintRange) :
    ∃ p, initialized fresh capacity = some p ∧ Shared capacity p [] := by
  rw [initialized, fillCells_of_lt h]
  refine ⟨_, rfl, Shared.init capacity rfl ?_⟩
  rw [← ids_init]
  unfold ids
  apply List.map_congr_left
  intro i _
  have hcell : (1 + i) % (capacity + 1) < capacity + 1 := Nat.mod_lt _ (by omega)
  change (List.range (capacity + 1))[(1 + i) % (capacity + 1)]?.getD idPoolInvalidId =
    if (1 + i) % (capacity + 1) = 0 then idPoolInvalidId else (1 + i) % (capacity + 1)
  rw [List.getElem?_range hcell, Option.getD_some]
  split
  · assumption
  · rfl

/-- Every history shares out the identifiers of the pool. -/
theorem Run.shared {fresh : Nat → Nat} {capacity : Nat} {p : IdPool} {handed : List Nat}
    (hr : Run fresh capacity p handed) (h : capacity + 1 < uintRange) :
    Shared capacity p handed := by
  induction hr with
  | initialized hp =>
    obtain ⟨q, hq, hs⟩ := @initialized_of_lt fresh _ h
    cases hp.symm.trans hq
    exact hs
  | allocate _ ih => exact ih.allocate
  | deallocate _ hid ih => exact ih.deallocate hid

/-- The pool can be set up, and in every history it hands out each of its identifiers to one
holder at a time, until all are handed out, and takes every one of them back. -/
structure IsExact (fresh : Nat → Nat) (capacity : Nat) : Prop where
  pool : ∃ p, IdPool.initialized fresh capacity = some p
  nodup : ∀ p handed, Run fresh capacity p handed → handed.Nodup
  range : ∀ p handed, Run fresh capacity p handed → ∀ id ∈ handed, 1 ≤ id ∧ id ≤ capacity
  invalid_iff : ∀ p handed, Run fresh capacity p handed →
    (p.allocate.2 = idPoolInvalidId ↔ handed.length = capacity)
  valid : ∀ p handed, Run fresh capacity p handed → p.allocate.2 ≠ idPoolInvalidId →
    1 ≤ p.allocate.2 ∧ p.allocate.2 ≤ capacity ∧ p.allocate.2 ∉ handed
  taken_back : ∀ p handed, Run fresh capacity p handed → ∀ id ∈ handed,
    (p.deallocate id).ids = p.ids ++ [id]

/-- Exactly the capacities whose successor can be represented give a pool that is exact. -/
theorem isExact_iff (fresh : Nat → Nat) (capacity : Fin uintRange) :
    IsExact fresh capacity ↔ capacity.val + 1 < uintRange := by
  constructor
  · intro h
    by_contra hmax
    have hwrap : capacity.val + 1 = uintRange := by
      have hlt := capacity.isLt
      omega
    obtain ⟨p, hp⟩ := h.pool
    rw [initialized, fillCells_of_wrap hwrap] at hp
    cases hp
  · intro h
    constructor
    · obtain ⟨p, hp, -⟩ := @initialized_of_lt fresh _ h
      exact ⟨p, hp⟩
    · intro p handed hr
      exact (List.nodup_append.mp (hr.shared h).nodup).1
    · intro p handed hr id hid
      exact (hr.shared h).mem_iff.mp (Or.inl hid)
    · intro p handed hr
      exact (hr.shared h).allocate_invalid_iff
    · intro p handed hr hv
      exact (hr.shared h).allocate_valid hv
    · intro p handed hr id hid
      exact (hr.shared h).ids_deallocate hid

/-- The largest `mtapi_uint_t` is not a capacity that the pool can have. -/
theorem largest_capacity_not_exact :
    ¬ ∀ capacity : Fin uintRange, IsExact (fun _ => 0) capacity := by
  intro h
  have hwrap : uintRange - 1 + 1 = uintRange := rfl
  obtain ⟨p, hp⟩ := (h ⟨uintRange - 1, by decide⟩).pool
  rw [initialized, fillCells_of_wrap hwrap] at hp
  cases hp

end Embb.Mtapi.IdPool
