import Embb.Mtapi.Node

/-!
# Pools in uninitialised memory

`embb_mtapi_pool_implementation` writes only the handles of the objects it allocates memory
for. A slot that has never been in use therefore still holds whatever the memory held.
-/

namespace Embb.Mtapi

open PoolObject

namespace Pool

variable {α : Type} [PoolObject α]

/-- `embb_mtapi_##TYPE##_pool_initialize`, over memory with any contents; entry 0 is the
invalid one. -/
def initOver (capacity : Nat) (initObject : α → α) (memory : Nat → α) : Pool α where
  idPool := IdPool.init capacity
  storage ii :=
    if ii = 0 then initObject (setHandle (memory ii) Handle.invalid)
    else setHandle (memory ii) Handle.invalid

theorem handle_initOver (capacity : Nat) {initObject : α → α}
    (hi : ∀ x, handle (initObject x) = handle x) (memory : Nat → α) (slot : Nat) :
    handle ((initOver capacity initObject memory).storage slot) = Handle.invalid := by
  simp only [initOver]
  split
  · rw [hi, handle_setHandle]
  · rw [handle_setHandle]

/-- The clients of a pool in memory with any contents hold the given objects; the slots that
have been in use are listed, and those of them that are free again satisfy `P`. -/
structure Tracked (p : Pool α) (memory : Nat → α) (P : α → Prop) (objects : List Handle)
    (touched : List Nat) : Prop where
  sound : p.Sound
  nodup : objects.Nodup
  mem_iff : ∀ h, h ∈ objects ↔ p.Live h
  live_touched : ∀ h ∈ objects, h.id ∈ touched
  untouched : ∀ slot, slot ≠ 0 → slot ∉ touched →
    p.storage slot = setHandle (memory slot) Handle.invalid
  cleared : ∀ slot, slot = 0 ∨ slot ∈ touched →
    (handle (p.storage slot)).id = idPoolInvalidId → P (p.storage slot)

/-- An allocation adds the object it returns to those in use. -/
theorem live_allocate_iff {p : Pool α} (hp : p.Sound) (h : Handle) :
    p.allocate.1.Live h ↔ p.Live h ∨ p.allocate.2 = some h := by
  constructor
  · intro hl
    by_cases hx : p.allocate.2 = some h
    · exact Or.inr hx
    · refine Or.inl (hl.of_allocate hp fun x hx' hid => hx ?_)
      rw [hx', hl.eq_of_id (live_allocate hp hx') hid]
  · rintro (hl | hx)
    · exact hl.allocate hp
    · exact live_allocate hp hx

/-- Giving back the slot that a valid handle names ends the life of no other object. -/
theorem live_deallocate_iff {p : Pool α} {object : Handle} (hv : p.isHandleValid object = true)
    (h : Handle) : (p.deallocate object).Live h ↔ p.Live h ∧ h ≠ object := by
  constructor
  · intro hl
    have hid : h.id ≠ object.id := fun hid => not_live_deallocate p hid hl
    refine ⟨hl.of_deallocate hid, ?_⟩
    rintro rfl
    exact hid rfl
  · rintro ⟨hl, hne⟩
    refine hl.deallocate fun hid => hne ?_
    have htag := ((p.isHandleValid_iff object).mp hv).2.2
    rw [← hid, hl.2.2] at htag
    cases h
    cases object
    simp_all

/-- A list of objects with their data, after one of the objects is gone. -/
theorem map_filter_ne {β : Type} {live : List (Handle × β)} (hn : (live.map Prod.fst).Nodup)
    (object : Handle) :
    (live.filter (·.1 ≠ object)).map Prod.fst = (live.map Prod.fst).erase object := by
  rw [hn.erase_eq_filter, List.filter_map]
  congr 1
  refine List.filter_congr fun e _ => ?_
  simp only [Function.comp_apply, ne_eq, decide_not, bne, beq_eq_decide]

namespace Tracked

variable {p : Pool α} {memory : Nat → α} {P : α → Prop} {objects : List Handle}
  {touched : List Nat}

theorem init (capacity : Nat) {initObject : α → α}
    (hi : ∀ x, handle (initObject x) = handle x) (hP : ∀ x, P (initObject x)) :
    Tracked (initOver capacity initObject memory) memory P [] [] where
  sound := by
    have hpool := sound_init capacity (memory 0)
    refine hpool.congr rfl fun slot => ?_
    rw [handle_initOver capacity hi, Pool.init, handle_setHandle]
  nodup := List.nodup_nil
  mem_iff h := by
    refine ⟨fun hm => absurd hm List.not_mem_nil, ?_⟩
    rintro ⟨hpos, -, hh⟩
    rw [handle_initOver capacity hi] at hh
    rw [← hh] at hpos
    exact absurd hpos (lt_irrefl 0)
  live_touched h hm := absurd hm List.not_mem_nil
  untouched slot hne _ := if_neg hne
  cleared slot hslot _ := by
    rcases hslot with rfl | hm
    · exact hP _
    · exact absurd hm List.not_mem_nil

theorem live (h : Tracked p memory P objects touched) {x : Handle} (hx : x ∈ objects) :
    p.Live x :=
  (h.mem_iff x).mp hx

/-- A slot that has not been in use is free. -/
theorem free_of_untouched (h : Tracked p memory P objects touched) {slot : Nat}
    (hslot : slot ∉ touched) : (handle (p.storage slot)).id = idPoolInvalidId := by
  by_cases hne : slot = 0
  · rw [hne]
    exact (h.sound.index 0).elim id And.left
  · rw [h.untouched slot hne hslot, handle_setHandle]
    rfl

/-- A slot in use holds one of the objects of the clients. -/
theorem mem_of_index (h : Tracked p memory P objects touched) {slot : Nat}
    (hslot : (handle (p.storage slot)).id ≠ idPoolInvalidId) :
    handle (p.storage slot) ∈ objects ∧ (handle (p.storage slot)).id = slot := by
  obtain ⟨hid, hle⟩ := (h.sound.index slot).resolve_left hslot
  refine ⟨(h.mem_iff _).mpr ⟨Nat.pos_of_ne_zero hslot, ?_, ?_⟩, hid⟩
  · rwa [hid]
  · rw [hid]

/-- An allocation that finds no free slot. -/
theorem allocate_none (h : Tracked p memory P objects touched) (hx : p.allocate.2 = none) :
    Tracked p.allocate.1 memory P objects touched := by
  have hs : ∀ slot, p.allocate.1.storage slot = p.storage slot := by
    intro slot
    rw [Pool.allocate_none hx, setIdPool_storage]
  refine ⟨sound_allocate h.sound, h.nodup, fun y => ?_, h.live_touched, fun slot => ?_,
    fun slot => ?_⟩
  · rw [h.mem_iff, live_allocate_iff h.sound, hx]
    simp
  · rw [hs]
    exact h.untouched slot
  · rw [hs]
    exact h.cleared slot

/-- An allocation that returns a slot. -/
theorem allocate (h : Tracked p memory P objects touched) {x : Ptr}
    (hx : p.allocate.2 = some x) :
    Tracked p.allocate.1 memory P (x :: objects) (x.id :: touched) := by
  have hother : ∀ slot, slot ≠ x.id → p.allocate.1.storage slot = p.storage slot :=
    fun slot hne => storage_allocate_of_ne h.sound hx hne
  refine ⟨sound_allocate h.sound, ?_, fun y => ?_, fun y hy => ?_, fun slot hne hslot => ?_,
    fun slot hslot hfree => ?_⟩
  · refine List.nodup_cons.mpr ⟨fun hm => ?_, h.nodup⟩
    exact not_live_of_allocate h.sound hx (h.live hm)
  · rw [live_allocate_iff h.sound, List.mem_cons, h.mem_iff, hx, Option.some.injEq, or_comm,
      eq_comm]
  · rcases List.mem_cons.mp hy with rfl | hy
    · exact List.mem_cons_self
    · exact List.mem_cons_of_mem _ (h.live_touched y hy)
  · obtain ⟨hnx, hnt⟩ := List.ne_and_not_mem_of_not_mem_cons hslot
    rw [hother slot hnx]
    exact h.untouched slot hne hnt
  · have hnx : slot ≠ x.id := by
      rintro rfl
      have hl := live_allocate h.sound hx
      rw [hl.2.2] at hfree
      exact absurd hfree (Nat.pos_iff_ne_zero.mp hl.1)
    rw [hother slot hnx] at hfree ⊢
    refine h.cleared slot (hslot.imp_right fun hm => ?_) hfree
    exact (List.mem_cons.mp hm).resolve_left hnx

/-- An allocation leaves the objects in use alone. -/
theorem storage_allocate (h : Tracked p memory P objects touched) {y : Handle}
    (hy : y ∈ objects) : p.allocate.1.storage y.id = p.storage y.id := by
  cases hx : p.allocate.2 with
  | none => rw [Pool.allocate_none hx, setIdPool_storage]
  | some x =>
    refine storage_allocate_of_ne h.sound hx fun hid => ?_
    have heq := ((h.live hy).allocate h.sound).eq_of_id (live_allocate h.sound hx) hid
    exact not_live_of_allocate h.sound hx (heq ▸ h.live hy)

/-- An assignment to an object in use that keeps its handle. -/
theorem modify (h : Tracked p memory P objects touched) {x : Handle} (hx : x ∈ objects)
    {f : α → α} (hf : ∀ y, handle (f y) = handle y) :
    Tracked (p.modify x.id f) memory P objects touched := by
  have hh : ∀ slot, handle ((p.modify x.id f).storage slot) = handle (p.storage slot) :=
    fun slot => field_modify _ _ _ _ hf
  refine ⟨h.sound.congr rfl hh, h.nodup, fun y => ?_, h.live_touched,
    fun slot hne hslot => ?_, fun slot hslot hfree => ?_⟩
  · rw [h.mem_iff]
    exact ⟨fun hl => hl.congr rfl (hh y.id), fun hl => hl.congr rfl (hh y.id).symm⟩
  · have hnx : slot ≠ x.id := by
      rintro rfl
      exact hslot (h.live_touched x hx)
    rw [storage_modify_of_ne p f hnx]
    exact h.untouched slot hne hslot
  · rw [hh] at hfree
    have hnx : slot ≠ x.id := by
      rintro rfl
      rw [(h.live hx).2.2] at hfree
      exact absurd hfree (Nat.pos_iff_ne_zero.mp (h.live hx).1)
    rw [storage_modify_of_ne p f hnx]
    exact h.cleared slot hslot hfree

/-- An assignment to one object in use leaves the others alone. -/
theorem storage_modify (h : Tracked p memory P objects touched) {x y : Handle}
    (hx : x ∈ objects) (hy : y ∈ objects) (hne : y ≠ x) (f : α → α) :
    (p.modify x.id f).storage y.id = p.storage y.id :=
  storage_modify_of_ne p f fun hid => hne ((h.live hy).eq_of_id (h.live hx) hid)

/-- Giving back the slot that a valid handle names. -/
theorem deallocate (h : Tracked p memory P objects touched) {object : Handle}
    {touched' : List Nat} (hset : ∀ y g, P y → P (setHandle y g))
    (hfin : ∀ y : α, P (PoolObject.finalize y)) (hv : p.isHandleValid object = true)
    (ht : ∀ slot, slot ∈ touched' ↔ slot = object.id ∨ slot ∈ touched) :
    Tracked (p.deallocate object) memory P (objects.erase object) touched' := by
  refine ⟨sound_deallocate h.sound object, h.nodup.erase object, fun y => ?_, fun y hy => ?_,
    fun slot hne hslot => ?_, fun slot hslot hfree => ?_⟩
  · rw [h.nodup.mem_erase_iff, live_deallocate_iff hv, h.mem_iff, and_comm]
  · exact (ht y.id).mpr (Or.inr (h.live_touched y (List.mem_of_mem_erase hy)))
  · rw [ht, not_or] at hslot
    rw [storage_deallocate_of_ne p object hslot.1]
    exact h.untouched slot hne hslot.2
  · by_cases hx : slot = object.id
    · rw [hx]
      simp only [Pool.deallocate, setIdPool_storage, storage_modify_self]
      exact hset _ _ (hfin _)
    · rw [storage_deallocate_of_ne p object hx] at hfree ⊢
      refine h.cleared slot (hslot.imp_right fun hm => ?_) hfree
      exact ((ht slot).mp hm).resolve_left hx

/-- Giving back a slot leaves the other objects in use alone. -/
theorem storage_deallocate (h : Tracked p memory P objects touched) {object y : Handle}
    (hv : p.isHandleValid object = true) (hy : y ∈ objects) (hne : y ≠ object) :
    (p.deallocate object).storage y.id = p.storage y.id := by
  have hl := (live_deallocate_iff hv y).mpr ⟨h.live hy, hne⟩
  exact storage_deallocate_of_ne p object fun hid => not_live_deallocate p hid hl

/-- Giving back the object that came last. -/
theorem deallocate_head {x : Handle} (h : Tracked p memory P (x :: objects) touched)
    (hset : ∀ y g, P y → P (setHandle y g)) (hfin : ∀ y : α, P (PoolObject.finalize y)) :
    Tracked (p.deallocate x) memory P objects touched := by
  have hx := List.mem_cons_self (a := x) (l := objects)
  have hd : Tracked (p.deallocate x) memory P ((x :: objects).erase x) touched :=
    h.deallocate hset hfin (h.live hx).valid fun slot => by
      constructor
      · exact Or.inr
      · rintro (rfl | hm)
        · exact h.live_touched x hx
        · exact hm
  rwa [List.erase_cons_head] at hd

end Tracked

/-- Finalising an object before its slot is given back makes no difference. -/
theorem deallocate_finalize (p : Pool α) (object : Ptr)
    (hfin : ∀ x : α, PoolObject.finalize (PoolObject.finalize x) = PoolObject.finalize x) :
    (p.modify object.id PoolObject.finalize).deallocate object = p.deallocate object := by
  simp only [deallocate, modify, setIdPool, Function.update_self, Function.update_idem, hfin,
    PoolObject.handle_finalize]

end Pool

/-- `MTAPI_INFINITE`. -/
def infinite : Int := -1

namespace Node

/-- The node after `mtapi_initialize`, with its pools of actions and queues in memory with any
contents. -/
def initOver (attributes : NodeAttributes) (mode : SchedulerMode) (actions : Nat → Action)
    (queues : Nat → Queue) : Node :=
  { init attributes mode with
    actionPool := Pool.initOver attributes.maxActions Action.init actions
    queuePool := Pool.initOver attributes.maxQueues Queue.init queues }

end Node

end Embb.Mtapi
