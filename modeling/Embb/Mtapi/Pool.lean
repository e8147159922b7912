import Embb.Mtapi.IdPool
import Mathlib.Tactic.Simps.Basic

/-!
# Object pools

The functions that `embb_mtapi_pool_implementation` generates for every object
type. A slot is free exactly when the identifier in its handle is the invalid one;
the tag counts how often the slot has been given back.
-/

namespace Embb.Mtapi

/-- What the pool needs to know about the type of its objects. -/
class PoolObject (α : Type) where
  handle : α → Handle
  setHandle : α → Handle → α
  finalize : α → α
  handle_setHandle : ∀ x h, handle (setHandle x h) = h
  handle_finalize : ∀ x, handle (finalize x) = handle x

export PoolObject (handle setHandle)

attribute [simp] PoolObject.handle_setHandle PoolObject.handle_finalize

/-- `embb_mtapi_##TYPE##_pool_struct`. -/
structure Pool (α : Type) where
  idPool : IdPool
  storage : Nat → α

namespace Pool

variable {α : Type}

/-- Assignment to the fields of one object. -/
@[simps] def modify (p : Pool α) (id : Nat) (f : α → α) : Pool α :=
  { p with storage := Function.update p.storage id (f (p.storage id)) }

@[simp] theorem storage_modify_self (p : Pool α) (id : Nat) (f : α → α) :
    (p.modify id f).storage id = f (p.storage id) := by
  simp

theorem storage_modify_of_ne (p : Pool α) {id j : Nat} (f : α → α) (h : j ≠ id) :
    (p.modify id f).storage j = p.storage j := by
  simp [h]

/-- A field that the assignment keeps reads the same in every object. -/
theorem field_modify {β : Type} (p : Pool α) (id j : Nat) {f : α → α} (g : α → β)
    (h : ∀ x, g (f x) = g x) : g ((p.modify id f).storage j) = g (p.storage j) := by
  by_cases hj : j = id
  · subst hj
    rw [storage_modify_self, h]
  · rw [storage_modify_of_ne p f hj]

variable [PoolObject α]

/-- `embb_mtapi_##TYPE##_pool_initialize`, over memory that holds `blank` objects. -/
def init (capacity : Nat) (blank : α) : Pool α where
  idPool := IdPool.init capacity
  storage := fun _ => setHandle blank Handle.invalid

/-- Remove an identifier from the pool's free ones, or put one back. -/
@[simps] def setIdPool (p : Pool α) (ids : IdPool) : Pool α := { p with idPool := ids }

/-- The handle of the object that the next allocation returns. -/
def nextHandle (p : Pool α) : Handle :=
  ⟨(handle (p.storage p.idPool.allocate.2)).tag, p.idPool.allocate.2⟩

/-- `embb_mtapi_##TYPE##_pool_allocate`. -/
def allocate (p : Pool α) : Pool α × Option Ptr :=
  if p.idPool.allocate.2 = idPoolInvalidId then (p.setIdPool p.idPool.allocate.1, none)
  else
    ((p.setIdPool p.idPool.allocate.1).modify p.nextHandle.id (setHandle · p.nextHandle),
      some p.nextHandle)

/-- An allocation writes nothing but the handle of the slot. -/
theorem field_allocate {β : Type} (p : Pool α) (g : α → β)
    (hg : ∀ x h, g (setHandle x h) = g x) (id : Nat) :
    g (p.allocate.1.storage id) = g (p.storage id) := by
  unfold allocate
  split
  · rfl
  · rw [field_modify _ _ _ g fun x => hg x _, setIdPool_storage]

/-- `embb_mtapi_##TYPE##_pool_deallocate`. -/
def deallocate (p : Pool α) (object : Ptr) : Pool α :=
  (p.modify object.id fun x =>
    setHandle (PoolObject.finalize x) ⟨uintSucc (handle x).tag, idPoolInvalidId⟩).setIdPool
      (p.idPool.deallocate (handle (p.storage object.id)).id)

/-- `embb_mtapi_##TYPE##_pool_is_handle_valid`. -/
def isHandleValid (p : Pool α) (h : Handle) : Bool :=
  decide (0 < h.id ∧ h.id ≤ p.idPool.capacity ∧ (handle (p.storage h.id)).tag = h.tag)

theorem isHandleValid_iff (p : Pool α) (h : Handle) :
    p.isHandleValid h = true ↔
      0 < h.id ∧ h.id ≤ p.idPool.capacity ∧ (handle (p.storage h.id)).tag = h.tag := by
  simp only [isHandleValid, decide_eq_true_eq]

/-- The object that a handle names is in the pool's hands of a client. -/
def Live (p : Pool α) (h : Handle) : Prop :=
  0 < h.id ∧ h.id ≤ p.idPool.capacity ∧ handle (p.storage h.id) = h

instance (p : Pool α) (h : Handle) : Decidable (p.Live h) :=
  inferInstanceAs (Decidable (_ ∧ _ ∧ _))

theorem Live.valid {p : Pool α} {h : Handle} (hl : p.Live h) : p.isHandleValid h = true := by
  rw [isHandleValid_iff]
  exact ⟨hl.1, hl.2.1, by rw [hl.2.2]⟩

@[simp] theorem capacity_init (capacity : Nat) (blank : α) :
    (init capacity blank).idPool.capacity = capacity := rfl

@[simp] theorem capacity_allocate (p : Pool α) :
    p.allocate.1.idPool.capacity = p.idPool.capacity := by
  unfold allocate
  split <;> simp only [setIdPool_idPool, modify_idPool, IdPool.capacity_allocate]

@[simp] theorem capacity_deallocate (p : Pool α) (object : Ptr) :
    (p.deallocate object).idPool.capacity = p.idPool.capacity := by
  simp [deallocate]

/-- The free identifiers are distinct and name free slots, and an allocated slot
carries its own index. The invalid identifier may lie among the free ones: a slot
given back twice leaves it there. -/
structure Sound (p : Pool α) : Prop where
  nodup : (p.idPool.ids.filter (· ≠ idPoolInvalidId)).Nodup
  free : ∀ id ∈ p.idPool.ids, id ≠ idPoolInvalidId →
    id ≤ p.idPool.capacity ∧ (handle (p.storage id)).id = idPoolInvalidId
  index : ∀ id, (handle (p.storage id)).id = idPoolInvalidId ∨
    ((handle (p.storage id)).id = id ∧ id ≤ p.idPool.capacity)

/-- The free identifiers and the handles decide soundness. -/
theorem Sound.congr {p q : Pool α} (h : p.Sound) (hi : q.idPool = p.idPool)
    (hs : ∀ id, handle (q.storage id) = handle (p.storage id)) : q.Sound where
  nodup := hi ▸ h.nodup
  free := by
    intro id hid hne
    rw [hs, hi]
    exact h.free id (hi ▸ hid) hne
  index := by
    intro id
    rw [hs, hi]
    exact h.index id

theorem Live.congr {p q : Pool α} {h : Handle} (hl : p.Live h) (hi : q.idPool = p.idPool)
    (hs : handle (q.storage h.id) = handle (p.storage h.id)) : q.Live h :=
  ⟨hl.1, hi ▸ hl.2.1, hs.trans hl.2.2⟩

theorem sound_init (capacity : Nat) (blank : α) : (init capacity blank).Sound where
  nodup := by
    refine List.Nodup.filter _ ?_
    simp only [init, IdPool.ids_init]
    exact List.nodup_range'
  free := by
    intro id hid hne
    simp only [init, IdPool.ids_init, List.mem_range'_1] at hid
    refine ⟨?_, ?_⟩
    · simp only [capacity_init]
      omega
    · simp [init, Handle.invalid]
  index := by
    intro id
    simp [init, Handle.invalid]

theorem not_live_init (capacity : Nat) (blank : α) (h : Handle) :
    ¬ (init capacity blank).Live h := by
  rintro ⟨hpos, -, hh⟩
  simp only [init, PoolObject.handle_setHandle] at hh
  rw [← hh] at hpos
  exact absurd hpos (lt_irrefl 0)

/-- What an allocation does: the slot was free and now carries its own index. -/
theorem allocate_some {p : Pool α} (hp : p.Sound) {x : Ptr} (h : p.allocate.2 = some x) :
    x.id ≠ idPoolInvalidId ∧ x.id ≤ p.idPool.capacity ∧
      (handle (p.storage x.id)).id = idPoolInvalidId ∧
      x.tag = (handle (p.storage x.id)).tag ∧
      p.idPool.ids = x.id :: p.idPool.allocate.1.ids ∧
      p.allocate.1 = (p.setIdPool p.idPool.allocate.1).modify x.id (setHandle · x) := by
  unfold allocate at h ⊢
  split at h
  · cases h
  · rename_i hne
    simp only [Option.some.injEq] at h
    have hid : p.idPool.allocate.2 = x.id := by
      rw [← h]
      rfl
    rcases p.idPool.allocate_spec with ⟨_, he⟩ | hids
    · exact absurd (by rw [he]) hne
    · obtain ⟨hle, hfree⟩ := hp.free p.idPool.allocate.2 (by rw [hids]; simp) hne
      rw [hid] at hle hfree hids hne
      refine ⟨hne, hle, hfree, ?_, hids, ?_⟩
      · rw [← hid, ← h]
        rfl
      · simp only [hid, hne, ↓reduceIte, h]

/-- An allocation that finds no slot keeps every handle. -/
theorem allocate_none {p : Pool α} (h : p.allocate.2 = none) :
    p.allocate.1 = p.setIdPool p.idPool.allocate.1 := by
  unfold allocate at h ⊢
  split at h
  · rename_i he
    simp only [he, ↓reduceIte]
  · cases h

theorem storage_allocate_of_ne {p : Pool α} (hp : p.Sound) {x : Ptr}
    (h : p.allocate.2 = some x) {j : Nat} (hj : j ≠ x.id) :
    p.allocate.1.storage j = p.storage j := by
  rw [(allocate_some hp h).2.2.2.2.2, storage_modify_of_ne _ _ hj, setIdPool_storage]

theorem storage_allocate_self {p : Pool α} (hp : p.Sound) {x : Ptr}
    (h : p.allocate.2 = some x) :
    p.allocate.1.storage x.id = setHandle (p.storage x.id) x := by
  rw [(allocate_some hp h).2.2.2.2.2, storage_modify_self, setIdPool_storage]

/-- The object that an allocation returns is live. -/
theorem live_allocate {p : Pool α} (hp : p.Sound) {x : Ptr} (h : p.allocate.2 = some x) :
    p.allocate.1.Live x := by
  obtain ⟨hne, hle, -⟩ := allocate_some hp h
  refine ⟨Nat.pos_of_ne_zero hne, by rwa [capacity_allocate], ?_⟩
  rw [storage_allocate_self hp h, PoolObject.handle_setHandle]

/-- An allocation keeps the objects that are in use. -/
theorem Live.allocate {p : Pool α} (hp : p.Sound) {y : Handle} (hy : p.Live y) :
    p.allocate.1.Live y := by
  refine ⟨hy.1, by rw [capacity_allocate]; exact hy.2.1, ?_⟩
  cases h : p.allocate.2 with
  | none => rw [allocate_none h, setIdPool_storage, hy.2.2]
  | some x =>
    have hne : y.id ≠ x.id := by
      intro he
      have hfree := (allocate_some hp h).2.2.1
      rw [← he, hy.2.2] at hfree
      exact absurd hfree (Nat.pos_iff_ne_zero.mp hy.1)
    rw [storage_allocate_of_ne hp h hne, hy.2.2]

/-- An object in use that the allocation did not return was in use before. -/
theorem Live.of_allocate {p : Pool α} (hp : p.Sound) {y : Handle} (hy : p.allocate.1.Live y)
    (hne : ∀ x, p.allocate.2 = some x → y.id ≠ x.id) : p.Live y := by
  refine ⟨hy.1, by simpa using hy.2.1, ?_⟩
  have hl := hy.2.2
  cases hx : p.allocate.2 with
  | none => rwa [allocate_none hx, setIdPool_storage] at hl
  | some x => rwa [storage_allocate_of_ne hp hx (hne x hx)] at hl

theorem sound_allocate {p : Pool α} (hp : p.Sound) : p.allocate.1.Sound := by
  cases h : p.allocate.2 with
  | none =>
    have hz : p.idPool.allocate.2 = idPoolInvalidId := by
      unfold allocate at h
      split at h
      · assumption
      · cases h
    rw [allocate_none h]
    rcases p.idPool.allocate_spec with ⟨_, he⟩ | hids
    · exact hp.congr (by rw [setIdPool_idPool, he]) fun _ => rfl
    · rw [hz] at hids
      refine ⟨?_, ?_, by simpa using hp.index⟩
      · have hn := hp.nodup
        rw [hids] at hn
        simpa using hn
      · intro id hid
        rw [setIdPool_idPool] at hid
        simpa using hp.free id (by rw [hids]; exact List.mem_cons_of_mem _ hid)
  | some x =>
    obtain ⟨hne, hle, hfree, htag, hids, he⟩ := allocate_some hp h
    have hn := hp.nodup
    rw [hids, List.filter_cons_of_pos (by simpa using hne), List.nodup_cons] at hn
    rw [he]
    refine ⟨?_, ?_, ?_⟩
    · exact hn.2
    · intro id hid hid0
      rw [modify_idPool, setIdPool_idPool] at hid
      obtain ⟨h1, h2⟩ := hp.free id (by rw [hids]; exact List.mem_cons_of_mem _ hid) hid0
      have hx : id ≠ x.id := by
        rintro rfl
        exact hn.1 (List.mem_filter.mpr ⟨hid, by simpa using hid0⟩)
      rw [storage_modify_of_ne _ _ hx, setIdPool_storage]
      exact ⟨by simpa using h1, h2⟩
    · intro id
      by_cases hx : id = x.id
      · subst hx
        rw [storage_modify_self, PoolObject.handle_setHandle]
        exact Or.inr ⟨rfl, by simpa using hle⟩
      · rw [storage_modify_of_ne _ _ hx, setIdPool_storage]
        simpa using hp.index id

theorem storage_deallocate_of_ne (p : Pool α) (object : Ptr) {j : Nat} (hj : j ≠ object.id) :
    (p.deallocate object).storage j = p.storage j := by
  simp [deallocate, hj]

theorem handle_deallocate_self (p : Pool α) (object : Ptr) :
    handle ((p.deallocate object).storage object.id) =
      ⟨uintSucc (handle (p.storage object.id)).tag, idPoolInvalidId⟩ := by
  simp [deallocate]

/-- Giving a slot back ends the life of no other object. -/
theorem Live.deallocate {p : Pool α} {object : Ptr} {y : Handle} (hy : p.Live y)
    (hne : y.id ≠ object.id) : (p.deallocate object).Live y := by
  refine ⟨hy.1, by rw [capacity_deallocate]; exact hy.2.1, ?_⟩
  rw [storage_deallocate_of_ne p object hne, hy.2.2]

theorem Live.of_deallocate {p : Pool α} {object : Ptr} {y : Handle}
    (hy : (p.deallocate object).Live y) (hne : y.id ≠ object.id) : p.Live y := by
  refine ⟨hy.1, by simpa using hy.2.1, ?_⟩
  rw [← storage_deallocate_of_ne p object hne, hy.2.2]

/-- A slot that has been given back holds no live object. -/
theorem not_live_deallocate (p : Pool α) {object : Ptr} {y : Handle} (he : y.id = object.id) :
    ¬ (p.deallocate object).Live y := by
  rintro ⟨hpos, -, hy⟩
  rw [he, handle_deallocate_self] at hy
  have : y.id = idPoolInvalidId := by rw [← hy]
  exact absurd this (Nat.pos_iff_ne_zero.mp hpos)

theorem sound_deallocate {p : Pool α} (hp : p.Sound) (object : Ptr) :
    (p.deallocate object).Sound := by
  have hself := handle_deallocate_self p object
  have hindex : ∀ id, (handle ((p.deallocate object).storage id)).id = idPoolInvalidId ∨
      ((handle ((p.deallocate object).storage id)).id = id ∧
        id ≤ (p.deallocate object).idPool.capacity) := by
    intro id
    rw [capacity_deallocate]
    by_cases hx : id = object.id
    · subst hx
      rw [hself]
      exact Or.inl rfl
    · rw [storage_deallocate_of_ne p object hx]
      exact hp.index id
  have hold : ∀ id ∈ p.idPool.ids, id ≠ idPoolInvalidId → id ≤ p.idPool.capacity ∧
      (handle ((p.deallocate object).storage id)).id = idPoolInvalidId := by
    intro id hid hne
    obtain ⟨h1, h2⟩ := hp.free id hid hne
    refine ⟨h1, ?_⟩
    by_cases hx : id = object.id
    · subst hx
      rw [hself]
    · rw [storage_deallocate_of_ne p object hx, h2]
  refine ⟨?_, ?_, hindex⟩
  · by_cases hfull : p.idPool.ids.length < p.idPool.capacity
    · have hids : (p.deallocate object).idPool.ids =
          p.idPool.ids ++ [(handle (p.storage object.id)).id] := by
        simp only [Pool.deallocate, setIdPool_idPool]
        exact IdPool.ids_deallocate hfull _
      rw [hids, List.filter_append, List.nodup_append]
      refine ⟨hp.nodup, ?_, ?_⟩
      · by_cases hz : (handle (p.storage object.id)).id = idPoolInvalidId <;> simp [hz]
      · intro a ha b hb hab
        subst hab
        rw [List.mem_filter] at ha hb
        have hne : a ≠ idPoolInvalidId := by simpa using ha.2
        have hb1 : a = (handle (p.storage object.id)).id := by simpa using hb.1
        have hidx : a = object.id := by
          rcases hp.index object.id with hi | hi
          · exact absurd (hb1.trans hi) hne
          · exact hb1.trans hi.1
        have := (hp.free a ha.1 hne).2
        rw [hidx, ← hb1] at this
        exact hne this
    · have hids : (p.deallocate object).idPool = p.idPool := by
        simp only [Pool.deallocate, setIdPool_idPool]
        exact IdPool.deallocate_of_full hfull _
      rw [hids]
      exact hp.nodup
  · intro id hid hne
    rw [capacity_deallocate]
    have hmem : id ∈ p.idPool.ids ∨ id = (handle (p.storage object.id)).id := by
      simp only [Pool.deallocate, setIdPool_idPool] at hid
      exact IdPool.mem_ids_deallocate hid
    rcases hmem with hm | hm
    · exact hold id hm hne
    · obtain ⟨hi, hle⟩ := (hp.index object.id).resolve_left fun hi => hne (hm.trans hi)
      have hidx : id = object.id := hm.trans hi
      refine ⟨hidx ▸ hle, ?_⟩
      rw [hidx, hself]

/-- A handle that cannot turn into the handle of an object yet to be allocated: it
names none, an object that is gone, or a live one. -/
def Issued (p : Pool α) (h : Handle) : Prop :=
  h.id = idPoolInvalidId ∨ h.tag < (handle (p.storage h.id)).tag ∨ p.Live h

/-- Among such handles the validity check finds the live ones. -/
theorem Issued.live_of_valid {p : Pool α} {h : Handle} (hi : p.Issued h)
    (hv : p.isHandleValid h = true) : p.Live h := by
  obtain ⟨hpos, hle, htag⟩ := (p.isHandleValid_iff h).mp hv
  rcases hi with hi | hi | hi
  · exact absurd hi (Nat.pos_iff_ne_zero.mp hpos)
  · omega
  · exact hi

theorem Issued.congr {p q : Pool α} {h : Handle} (hi : p.Issued h) (he : q.idPool = p.idPool)
    (hs : handle (q.storage h.id) = handle (p.storage h.id)) : q.Issued h := by
  rcases hi with hi | hi | hi
  · exact Or.inl hi
  · exact Or.inr (Or.inl (by rwa [hs]))
  · exact Or.inr (Or.inr (hi.congr he hs))

theorem Issued.allocate {p : Pool α} (hp : p.Sound) {h : Handle} (hi : p.Issued h) :
    p.allocate.1.Issued h := by
  rcases hi with hi | hi | hi
  · exact Or.inl hi
  · refine Or.inr (Or.inl (lt_of_lt_of_eq hi ?_))
    cases hx : p.allocate.2 with
    | none => rw [allocate_none hx, setIdPool_storage]
    | some x =>
      by_cases he : h.id = x.id
      · rw [he, storage_allocate_self hp hx, PoolObject.handle_setHandle]
        exact (allocate_some hp hx).2.2.2.1.symm
      · rw [storage_allocate_of_ne hp hx he]
  · exact Or.inr (Or.inr (hi.allocate hp))

/-- The handle of a fresh object was not issued before. -/
theorem not_issued_of_allocate {p : Pool α} (hp : p.Sound) {x : Ptr}
    (hx : p.allocate.2 = some x) : ¬ p.Issued x := by
  obtain ⟨hne, -, hfree, htag, -⟩ := allocate_some hp hx
  rintro (hi | hi | hi)
  · exact hne hi
  · omega
  · rw [hi.2.2] at hfree
    exact hne hfree

theorem Issued.deallocate {p : Pool α} {object : Ptr} {h : Handle} (hi : p.Issued h)
    (hw : (handle (p.storage object.id)).tag + 1 < uintRange) :
    (p.deallocate object).Issued h := by
  rcases hi with hi | hi | hi
  · exact Or.inl hi
  · refine Or.inr (Or.inl (lt_of_lt_of_le hi ?_))
    by_cases he : h.id = object.id
    · rw [he, handle_deallocate_self, uintSucc_of_lt hw]
      exact Nat.le_succ _
    · rw [storage_deallocate_of_ne p object he]
  · by_cases he : h.id = object.id
    · refine Or.inr (Or.inl ?_)
      rw [he, handle_deallocate_self, uintSucc_of_lt hw, ← he, hi.2.2]
      exact Nat.lt_succ_self _
    · exact Or.inr (Or.inr (hi.deallocate he))

/-- The handle that a slot carries is an issued one. -/
theorem issued_handle {p : Pool α} (hp : p.Sound) (id : Nat) :
    p.Issued (handle (p.storage id)) := by
  rcases hp.index id with hi | ⟨hi, hle⟩
  · exact Or.inl hi
  · by_cases hz : id = 0
    · exact Or.inl (hi.trans hz)
    · refine Or.inr (Or.inr ⟨?_, ?_, ?_⟩)
      · rw [hi]
        exact Nat.pos_of_ne_zero hz
      · rwa [hi]
      · rw [hi]

/-- References to live objects that name the same slot name the same object. -/
theorem Live.eq_of_id {pool : Pool α} {p q : Ptr} (hp : pool.Live p) (hq : pool.Live q)
    (h : p.id = q.id) : p = q := by
  rw [← hp.2.2, ← hq.2.2, h]

theorem not_live_of_allocate {pool : Pool α} (hs : pool.Sound) {p : Ptr}
    (h : pool.allocate.2 = some p) : ¬ pool.Live p :=
  fun hl => not_issued_of_allocate hs h (Or.inr (Or.inr hl))

/-- What one change of shared memory does to a pool. -/
inductive Step (α : Type) where
  | keep
  | modify (id : Nat) (f : α → α)
  /-- Allocate a slot, and write to it if there is one. -/
  | allocate (f : α → α)
  | deallocate (object : Ptr)

namespace Step

def apply (p : Pool α) : Step α → Pool α
  | .keep => p
  | .modify id f => p.modify id f
  | .allocate f =>
    match p.allocate.2 with
    | some x => p.allocate.1.modify x.id f
    | none => p.allocate.1
  | .deallocate object => p.deallocate object

/-- Only the pool itself writes to the handles. -/
def KeepsHandles : Step α → Prop
  | .modify _ f | .allocate f => ∀ x, handle (f x) = handle x
  | _ => True

/-- The assignment to one object. -/
def writes (s : Step α) (id : Nat) (x : α) : α :=
  match s with
  | .modify id' f => if id' = id then f x else x
  | _ => x

theorem handle_allocate {p : Pool α} {f : α → α} (hf : ∀ x, handle (f x) = handle x) (id : Nat) :
    handle (((Step.allocate f).apply p).storage id) = handle (p.allocate.1.storage id) := by
  simp only [apply]
  split
  · rename_i x hx
    exact p.allocate.1.field_modify x.id id handle hf
  · rfl

theorem idPool_allocate (p : Pool α) (f : α → α) :
    ((Step.allocate f).apply p).idPool = p.allocate.1.idPool := by
  simp only [apply]
  split <;> rfl

theorem sound {p : Pool α} (hp : p.Sound) {s : Step α} (hs : s.KeepsHandles) :
    (s.apply p).Sound := by
  cases s with
  | keep => exact hp
  | modify id f => exact hp.congr rfl fun j => p.field_modify id j handle hs
  | allocate f => exact (sound_allocate hp).congr (idPool_allocate p f) (handle_allocate hs)
  | deallocate object => exact sound_deallocate hp object

/-- Issued handles stay issued as long as no tag wraps around. -/
theorem issued {p : Pool α} (hp : p.Sound) {s : Step α} (hs : s.KeepsHandles)
    (hw : ∀ x, s = .deallocate x → (handle (p.storage x.id)).tag + 1 < uintRange) {h : Handle}
    (hi : p.Issued h) : (s.apply p).Issued h := by
  cases s with
  | keep => exact hi
  | modify id f => exact hi.congr rfl (p.field_modify id h.id handle hs)
  | allocate f => exact (hi.allocate hp).congr (idPool_allocate p f) (handle_allocate hs h.id)
  | deallocate object => exact hi.deallocate (hw object rfl)

/-- An object stays in use unless the step gives its slot back. -/
theorem live {p : Pool α} (hp : p.Sound) {s : Step α} (hs : s.KeepsHandles) {h : Handle}
    (hd : ∀ x, s = .deallocate x → h.id ≠ x.id) (hl : p.Live h) : (s.apply p).Live h := by
  cases s with
  | keep => exact hl
  | modify id f => exact hl.congr rfl (p.field_modify id h.id handle hs)
  | allocate f => exact (hl.allocate hp).congr (idPool_allocate p f) (handle_allocate hs h.id)
  | deallocate object => exact hl.deallocate (hd object rfl)

/-- An object in use after a step was in use before, and holds what the step wrote, or
the step allocated it. -/
theorem live_cases {p : Pool α} (hp : p.Sound) {s : Step α} (hs : s.KeepsHandles) {h : Handle}
    (hl : (s.apply p).Live h) :
    (p.Live h ∧ (s.apply p).storage h.id = s.writes h.id (p.storage h.id)) ∨
      ∃ f, s = .allocate f ∧ p.allocate.2 = some h ∧
        (s.apply p).storage h.id = f (setHandle (p.storage h.id) h) := by
  cases s with
  | keep => exact Or.inl ⟨hl, rfl⟩
  | modify id f =>
    refine Or.inl ⟨hl.congr rfl (p.field_modify id h.id handle hs).symm, ?_⟩
    by_cases hid : id = h.id
    · subst hid
      simp only [apply, writes, storage_modify_self, ↓reduceIte]
    · simp only [apply, writes, if_neg hid, storage_modify_of_ne p f (Ne.symm hid)]
  | allocate f =>
    have hla : p.allocate.1.Live h :=
      hl.congr (idPool_allocate p f).symm (handle_allocate hs h.id).symm
    by_cases hnew : p.allocate.2 = some h
    · refine Or.inr ⟨f, rfl, hnew, ?_⟩
      simp only [apply, hnew, storage_modify_self, storage_allocate_self hp hnew]
    · have hid : ∀ x, p.allocate.2 = some x → h.id ≠ x.id := fun x hx he =>
        hnew (hla.eq_of_id (live_allocate hp hx) he ▸ hx)
      refine Or.inl ⟨hla.of_allocate hp hid, ?_⟩
      simp only [apply, writes]
      split
      · rename_i x hx
        rw [storage_modify_of_ne _ _ (hid x hx), storage_allocate_of_ne hp hx (hid x hx)]
      · rename_i hx
        rw [allocate_none hx, setIdPool_storage]
  | deallocate object =>
    have hid : h.id ≠ object.id := fun hid => not_live_deallocate p hid hl
    exact Or.inl ⟨hl.of_deallocate hid, storage_deallocate_of_ne p object hid⟩

/-- A property of the contents of free slots that holds of an object given back. -/
theorem free {p : Pool α} (hp : p.Sound) {s : Step α} (hs : s.KeepsHandles) {P : α → Prop}
    (hset : ∀ x h, P (setHandle x h) ↔ P x) (hfin : ∀ x, P (PoolObject.finalize x))
    (hwrite : ∀ id f, s = .modify id f → ∀ x, P x → P (f x))
    (h : ∀ id, (handle (p.storage id)).id = idPoolInvalidId → P (p.storage id)) (id : Nat)
    (hid : (handle ((s.apply p).storage id)).id = idPoolInvalidId) :
    P ((s.apply p).storage id) := by
  cases s with
  | keep => exact h id hid
  | modify j f =>
    rw [apply, p.field_modify j id handle hs] at hid
    by_cases hj : id = j
    · subst hj
      rw [apply, storage_modify_self]
      exact hwrite id f rfl _ (h id hid)
    · rw [apply, storage_modify_of_ne p f hj]
      exact h id hid
  | allocate f =>
    rw [handle_allocate hs] at hid
    cases hx : p.allocate.2 with
    | none =>
      rw [allocate_none hx, setIdPool_storage] at hid
      simp only [apply, hx, allocate_none hx, setIdPool_storage]
      exact h id hid
    | some x =>
      have hj : id ≠ x.id := by
        rintro rfl
        have hl := live_allocate hp hx
        rw [hl.2.2] at hid
        exact absurd hid (Nat.pos_iff_ne_zero.mp hl.1)
      rw [storage_allocate_of_ne hp hx hj] at hid
      simp only [apply, hx, storage_modify_of_ne _ _ hj, storage_allocate_of_ne hp hx hj]
      exact h id hid
  | deallocate object =>
    by_cases hj : id = object.id
    · subst hj
      simp only [apply, Pool.deallocate, setIdPool_storage, storage_modify_self]
      exact (hset _ _).mpr (hfin _)
    · rw [apply, storage_deallocate_of_ne p object hj] at hid ⊢
      exact h id hid

end Step

end Pool

end Embb.Mtapi
