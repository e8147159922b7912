import Embb.Mtapi.Node

/-!
# Handles over the history of a pool

A client allocates objects from a pool and gives them back. The tag of a slot counts how
often it has been given back, so a handle that was copied from an object does not fit the
objects that later use the slot.
-/

namespace Embb.Mtapi.Pool

variable {α : Type} [PoolObject α]

open PoolObject

/-- A pool and the objects that its client has allocated and not deallocated since. -/
structure Client (α : Type) where
  pool : Pool α
  objects : List Handle

/-- A call of the client. -/
inductive Call
  | allocate
  | deallocate (object : Handle)
  deriving DecidableEq, Repr

/-- Whether a call gives a slot back. -/
def Call.gives (slot : ℕ) : Call → Bool
  | .allocate => false
  | .deallocate object => object.id == slot

/-- How often some calls give a slot back. -/
def deallocations (slot : ℕ) (calls : List Call) : ℕ := calls.countP (Call.gives slot)

namespace Client

def step (c : Client α) : Call → Client α
  | .allocate => ⟨c.pool.allocate.1, c.pool.allocate.2.toList ++ c.objects⟩
  | .deallocate object => ⟨c.pool.deallocate object, c.objects.erase object⟩

def run (c : Client α) (calls : List Call) : Client α := calls.foldl step c

/-- Only objects that are allocated are deallocated. -/
def Allowed : Client α → List Call → Prop
  | _, [] => True
  | c, call :: calls =>
    (∀ object, call = .deallocate object → object ∈ c.objects) ∧ Allowed (c.step call) calls

/-- A client of a new pool. -/
def start (capacity : ℕ) (blank : α) : Client α := ⟨Pool.init capacity blank, []⟩

/-- The client has the objects in use, and no tag wraps around in the calls to come. -/
structure Inv (c : Client α) (calls : List Call) : Prop where
  sound : c.pool.Sound
  nodup : c.objects.Nodup
  mem_iff : ∀ h, h ∈ c.objects ↔ c.pool.Live h
  tags : ∀ id, (handle (c.pool.storage id)).tag + deallocations id calls < uintRange

theorem run_append (c : Client α) (calls calls' : List Call) :
    c.run (calls ++ calls') = (c.run calls).run calls' :=
  List.foldl_append ..

theorem Allowed.append {c : Client α} {calls calls' : List Call}
    (h : c.Allowed (calls ++ calls')) : c.Allowed calls ∧ (c.run calls).Allowed calls' := by
  induction calls generalizing c with
  | nil => exact ⟨trivial, h⟩
  | cons call calls ih =>
    obtain ⟨h₁, h₂⟩ := ih h.2
    exact ⟨⟨h.1, h₁⟩, h₂⟩

theorem inv_start (capacity : ℕ) (blank : α) {calls : List Call}
    (few : ∀ slot, deallocations slot calls < uintRange) : Inv (start capacity blank) calls where
  sound := sound_init capacity blank
  nodup := List.nodup_nil
  mem_iff h := ⟨fun hm => absurd hm List.not_mem_nil, fun hl => absurd hl (not_live_init _ _ h)⟩
  tags id := by
    have hzero : (handle ((start capacity blank).pool.storage id)).tag = 0 := by
      simp only [start, Pool.init, handle_setHandle, Handle.invalid]
    rw [hzero, Nat.zero_add]
    exact few id

namespace Inv

variable {c : Client α} {call : Call} {calls : List Call}

/-- The tag of a slot that is given back has not reached its end. -/
theorem tag_lt {object : Handle} (hI : Inv c (.deallocate object :: calls)) :
    (handle (c.pool.storage object.id)).tag + 1 < uintRange := by
  have htag := hI.tags object.id
  have hgives : Call.gives object.id (.deallocate object) = true := beq_self_eq_true _
  rw [deallocations, List.countP_cons_of_pos hgives] at htag
  omega

theorem step (hI : Inv c (call :: calls))
    (hc : ∀ object, call = .deallocate object → object ∈ c.objects) :
    Inv (c.step call) calls := by
  cases call with
  | allocate =>
    have htags : ∀ id, (handle (c.pool.allocate.1.storage id)).tag =
        (handle (c.pool.storage id)).tag := by
      intro id
      cases hx : c.pool.allocate.2 with
      | none => rw [allocate_none hx, setIdPool_storage]
      | some x =>
        by_cases hid : id = x.id
        · rw [hid, storage_allocate_self hI.sound hx, handle_setHandle]
          exact (allocate_some hI.sound hx).2.2.2.1
        · rw [storage_allocate_of_ne hI.sound hx hid]
    refine ⟨sound_allocate hI.sound, ?_, fun h => ?_, fun id => ?_⟩
    · show (c.pool.allocate.2.toList ++ c.objects).Nodup
      cases hx : c.pool.allocate.2 with
      | none => exact hI.nodup
      | some x =>
        refine List.nodup_cons.mpr ⟨fun hm => ?_, hI.nodup⟩
        exact not_live_of_allocate hI.sound hx ((hI.mem_iff x).mp hm)
    · show h ∈ c.pool.allocate.2.toList ++ c.objects ↔ c.pool.allocate.1.Live h
      rw [List.mem_append, hI.mem_iff, Option.mem_toList]
      constructor
      · rintro (hx | hl)
        · exact live_allocate hI.sound hx
        · exact hl.allocate hI.sound
      · intro hl
        by_cases hx : c.pool.allocate.2 = some h
        · exact Or.inl hx
        · refine Or.inr (hl.of_allocate hI.sound fun x hx' hid => hx ?_)
          rw [hx', hl.eq_of_id (live_allocate hI.sound hx') hid]
    · have htag := hI.tags id
      rw [deallocations, List.countP_cons_of_neg Bool.false_ne_true] at htag
      rw [show (c.step .allocate).pool = c.pool.allocate.1 from rfl, htags]
      exact htag
  | deallocate object =>
    have hlive := (hI.mem_iff object).mp (hc object rfl)
    have htag := hI.tag_lt
    refine ⟨sound_deallocate hI.sound object, hI.nodup.erase object, fun h => ?_, fun id => ?_⟩
    · show h ∈ c.objects.erase object ↔ (c.pool.deallocate object).Live h
      rw [hI.nodup.mem_erase_iff, hI.mem_iff]
      constructor
      · rintro ⟨hne, hl⟩
        exact hl.deallocate fun hid => hne (hl.eq_of_id hlive hid)
      · intro hl
        have hid : h.id ≠ object.id := fun hid => not_live_deallocate _ hid hl
        refine ⟨?_, hl.of_deallocate hid⟩
        rintro rfl
        exact hid rfl
    · have hle := hI.tags id
      show (handle ((c.pool.deallocate object).storage id)).tag + _ < _
      by_cases hid : id = object.id
      · subst hid
        have hgives : Call.gives object.id (.deallocate object) = true := beq_self_eq_true _
        rw [deallocations, List.countP_cons_of_pos hgives] at hle
        rw [handle_deallocate_self, uintSucc_of_lt htag, deallocations]
        show _ + 1 + _ < _
        omega
      · have hgives : ¬ Call.gives id (.deallocate object) = true := by
          rw [Call.gives, beq_iff_eq]
          exact fun h => hid h.symm
        rw [deallocations, List.countP_cons_of_neg hgives] at hle
        rw [storage_deallocate_of_ne _ object hid]
        exact hle

/-- A handle that has been issued stays so. -/
theorem issued_step (hI : Inv c (call :: calls)) {h : Handle} (hi : c.pool.Issued h) :
    (c.step call).pool.Issued h := by
  cases call with
  | allocate => exact hi.allocate hI.sound
  | deallocate object => exact hi.deallocate hI.tag_lt

/-- An object that is allocated is a new one, and an object that is deallocated is gone. -/
theorem mem_step (hI : Inv c (call :: calls)) {h : Handle} (hi : c.pool.Issued h) :
    h ∈ (c.step call).objects ↔ h ∈ c.objects ∧ call ≠ .deallocate h := by
  cases call with
  | allocate =>
    show h ∈ c.pool.allocate.2.toList ++ c.objects ↔ _
    rw [List.mem_append, Option.mem_toList]
    constructor
    · rintro (hx | hm)
      · exact absurd hi (not_issued_of_allocate hI.sound hx)
      · exact ⟨hm, fun he => by cases he⟩
    · exact fun hm => Or.inr hm.1
  | deallocate object =>
    show h ∈ c.objects.erase object ↔ _
    rw [hI.nodup.mem_erase_iff]
    constructor
    · rintro ⟨hne, hm⟩
      refine ⟨hm, fun he => hne ?_⟩
      cases he
      rfl
    · rintro ⟨hm, hne⟩
      refine ⟨?_, hm⟩
      rintro rfl
      exact hne rfl

theorem run (hI : Inv c calls) (ha : c.Allowed calls) : Inv (c.run calls) [] := by
  induction calls generalizing c with
  | nil => exact hI
  | cons call calls ih => exact ih (hI.step ha.1) ha.2

/-- An issued handle names an object of the client until this is deallocated. -/
theorem mem_run (hI : Inv c calls) (ha : c.Allowed calls) {h : Handle}
    (hi : c.pool.Issued h) :
    (c.run calls).pool.Issued h ∧
      (h ∈ (c.run calls).objects ↔ h ∈ c.objects ∧ .deallocate h ∉ calls) := by
  induction calls generalizing c with
  | nil => exact ⟨hi, ⟨fun hm => ⟨hm, List.not_mem_nil⟩, fun hm => hm.1⟩⟩
  | cons call calls ih =>
    obtain ⟨hi', hmem⟩ := ih (hI.step ha.1) ha.2 (hI.issued_step hi)
    refine ⟨hi', hmem.trans ?_⟩
    rw [hI.mem_step hi, List.mem_cons, not_or, and_assoc, ne_comm]

/-- The validity check accepts the handles of the objects of the client. -/
theorem isHandleValid_iff_mem (hI : Inv c calls) {h : Handle} (hi : c.pool.Issued h) :
    c.pool.isHandleValid h = true ↔ h ∈ c.objects := by
  rw [hI.mem_iff]
  exact ⟨hi.live_of_valid, Live.valid⟩

theorem drop {calls' : List Call} (hI : Inv c (calls ++ calls')) : Inv c calls := by
  refine ⟨hI.sound, hI.nodup, hI.mem_iff, fun id => ?_⟩
  have htag := hI.tags id
  rw [deallocations, List.countP_append] at htag
  rw [deallocations]
  omega

/-- What is left to do after a part of the calls. -/
theorem run_append {calls' : List Call} (hI : Inv c (calls ++ calls'))
    (ha : c.Allowed (calls ++ calls')) : Inv (c.run calls) calls' := by
  induction calls generalizing c with
  | nil => exact hI
  | cons call calls ih => exact ih (hI.step ha.1) ha.2

end Inv

/-- In every history of a pool in which only allocated objects are deallocated, and no slot more
often than a tag can count: the objects of the client have different handles, and a handle that
was copied from one of them is valid as long as this object is not deallocated. -/
theorem handles_not_confused (capacity : ℕ) (blank : α) (calls calls' : List Call)
    (allowed : (start capacity blank).Allowed (calls ++ calls'))
    (few : ∀ slot, deallocations slot (calls ++ calls') < uintRange) :
    ((start capacity blank).run calls).objects.Nodup ∧
    ∀ h ∈ ((start capacity blank).run calls).objects,
      ((start capacity blank).run (calls ++ calls')).pool.isHandleValid h = true ↔
        .deallocate h ∉ calls' := by
  have hI := (inv_start capacity blank few).run_append allowed
  refine ⟨hI.nodup, fun h hm => ?_⟩
  have hissued : ((start capacity blank).run calls).pool.Issued h :=
    Or.inr (Or.inr ((hI.mem_iff h).mp hm))
  obtain ⟨hissued', hmem⟩ := hI.mem_run allowed.append.2 hissued
  rw [Client.run_append, (hI.run allowed.append.2).isHandleValid_iff_mem hissued', hmem]
  exact and_iff_right hm

/-- In a pool of one action the slot is given back once and taken again. -/
theorem handles_not_confused_reuse :
    ((start 1 Node.blankAction).run [.allocate]).objects = [⟨0, 1⟩] ∧
    ((start 1 Node.blankAction).run [.allocate]).objects.Nodup ∧
    ∀ h ∈ ((start 1 Node.blankAction).run [.allocate]).objects,
      ((start 1 Node.blankAction).run
          ([.allocate] ++ [.deallocate ⟨0, 1⟩, .allocate])).pool.isHandleValid h = true ↔
        .deallocate h ∉ [Call.deallocate ⟨0, 1⟩, .allocate] := by
  have hobjects : ((start 1 Node.blankAction).run [.allocate]).objects = [⟨0, 1⟩] := by
    decide +kernel
  refine ⟨hobjects, handles_not_confused 1 Node.blankAction [.allocate]
    [.deallocate ⟨0, 1⟩, .allocate] ⟨?_, ?_, ?_, trivial⟩ fun slot => ?_⟩
  · exact fun object h => by cases h
  · intro object h
    cases h
    show _ ∈ ((start 1 Node.blankAction).run [.allocate]).objects
    rw [hobjects]
    exact List.mem_singleton_self _
  · exact fun object h => by cases h
  · exact List.countP_le_length.trans_lt (by decide)

end Client

end Embb.Mtapi.Pool
