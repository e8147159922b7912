import Mathlib.Algebra.BigOperators.Fin
import Mathlib.Algebra.Order.BigOperators.Group.Finset
import Mathlib.Data.Fintype.BigOperators
import Embb.Lib.Histories

/-!
# Function objects

A `Function` holds a function pointer, a member function with its object, or a wrapper that shares
a functor on the heap with the copies of the `Function` and counts them. A constant `Function` or a
temporary that is assigned is itself wrapped as a functor, so functors may hold `Function` objects
as well, and deleting one functor may release another.

A call without an outcome dereferences a null pointer or uses a deleted functor.
-/

namespace Embb.Base

/-- What `function_` points to. A function pointer and a member function are plain data. -/
inductive Held where
  | null
  | pointer
  | functor (id : Nat)
  deriving DecidableEq, Repr

/-- A functor on the heap with its counter, how often it was deleted, and what it holds itself,
which is nothing unless it is a `Function`. -/
structure HeapFunctor where
  refCount : Int
  deleted : Nat
  inner : Held

/-- The `Function` objects of a program, of which those without a value are not alive, and the
functors allocated so far. -/
structure Functions (n : Nat) where
  object : Fin n → Option Held
  next : Nat
  functor : Nat → HeapFunctor

namespace Functions

variable {n : Nat}

/-- No `Function` is alive, and no functor was allocated. -/
def start (n : Nat) : Functions n := ⟨fun _ => none, 0, fun _ => ⟨0, 0, .null⟩⟩

def setObject (s : Functions n) (x : Fin n) (value : Option Held) : Functions n :=
  { s with object := Function.update s.object x value }

def setFunctor (s : Functions n) (id : Nat) (f : HeapFunctor) : Functions n :=
  { s with functor := Function.update s.functor id f }

/-- `FunctorWrapper1::~FunctorWrapper1`, and the destructors of the other kinds, which do nothing.
The functor that the last wrapper deletes may be a `Function`, whose destructor follows; they nest
no deeper than there are functors. -/
def drop : Nat → Functions n → Held → Option (Functions n)
  | _, s, .null => some s
  | _, s, .pointer => some s
  | 0, _, .functor _ => none
  | fuel + 1, s, .functor id =>
    let f := s.functor id
    if f.deleted ≠ 0 then none
    else if f.refCount - 1 = 0 then
      drop fuel (s.setFunctor id ⟨0, f.deleted + 1, f.inner⟩) f.inner
    else some (s.setFunctor id { f with refCount := f.refCount - 1 })

/-- `Function::Free`. -/
def free (s : Functions n) (x : Fin n) : Option (Functions n) :=
  drop s.next (s.setObject x (some .null)) ((s.object x).getD .null)

/-- `CopyTo` of what the object `y` holds, which is called through a pointer. -/
def copyTo (s : Functions n) (y : Fin n) : Option (Held × Functions n) :=
  match s.object y with
  | none => none
  | some .null => none
  | some .pointer => some (.pointer, s)
  | some (.functor id) =>
    let f := s.functor id
    if f.deleted ≠ 0 then none
    else some (.functor id, s.setFunctor id { f with refCount := f.refCount + 1 })

/-- `FunctorWrapper1::FunctorWrapper1` from a functor, which is copied to the heap. -/
def wrap (s : Functions n) (inner : Held) : Held × Functions n :=
  (.functor s.next,
    { s with next := s.next + 1, functor := Function.update s.functor s.next ⟨1, 0, inner⟩ })

/-- A call on the `Function` objects. -/
inductive Call (n : Nat) where
  | create (x : Fin n)
  | createFunctor (x : Fin n)
  | createPointer (x : Fin n)
  | copy (x y : Fin n)
  | assign (x y : Fin n)
  | assignConst (x y : Fin n)
  | assignFunctor (x : Fin n)
  | assignPointer (x : Fin n)
  | destroy (x : Fin n)

/-- The object whose life begins with a call. -/
def Call.creates : Call n → List (Fin n)
  | .create x => [x]
  | .createFunctor x => [x]
  | .createPointer x => [x]
  | .copy x _ => [x]
  | _ => []

/-- The objects that a call needs. -/
def Call.uses : Call n → List (Fin n)
  | .copy _ y => [y]
  | .assign x y => [x, y]
  | .assignConst x y => [x, y]
  | .assignFunctor x => [x]
  | .assignPointer x => [x]
  | .destroy x => [x]
  | _ => []

/-- The object that a call creates is not alive, and those that it needs are. -/
def Call.Legal (s : Functions n) (c : Call n) : Prop :=
  (∀ x ∈ c.creates, s.object x = none) ∧ ∀ x ∈ c.uses, s.object x ≠ none

instance (s : Functions n) (c : Call n) : Decidable (c.Legal s) :=
  inferInstanceAs (Decidable (_ ∧ _))

/-- What the object `x` is constructed from. -/
def store (x : Fin n) (r : Held × Functions n) : Functions n := r.2.setObject x (some r.1)

/-- What a call does, where it is legal. -/
def Call.run (s : Functions n) : Call n → Option (Functions n)
  -- `Function()`
  | .create x => some (s.setObject x (some .null))
  -- `Function(C const & obj)`
  | .createFunctor x => some (store x (s.wrap .null))
  -- `Function(R(*func)(T1))` and `Function(C & obj, R(C::*func)(T1))`
  | .createPointer x => some (s.setObject x (some .pointer))
  -- `Function(Function const & func)`
  | .copy x y => (s.copyTo y).map (store x)
  -- `operator = (Function & func)`
  | .assign x y => do
    let s ← s.free x
    (s.copyTo y).map (store x)
  -- `operator = (C const & obj)`, where the functor is a `Function`
  | .assignConst x y => do
    let s ← s.free x
    let (inner, s) ← s.copyTo y
    some (store x (s.wrap inner))
  -- `operator = (C const & obj)`, where it is not
  | .assignFunctor x => (s.free x).map fun s => store x (s.wrap .null)
  -- `operator = (R(*func)(T1))`
  | .assignPointer x => (s.free x).map fun s => s.setObject x (some .pointer)
  -- `~Function()`
  | .destroy x => (s.free x).map fun s => s.setObject x none

/-- One call of a program; a call that is not legal is one that no program makes. -/
def step (s : Option (Functions n)) (c : Call n) : Option (Functions n) :=
  s.bind fun s => if c.Legal s then c.run s else some s

/-- One for the holder of a functor. -/
def holds (h : Held) (id : Nat) : Nat := if h = .functor id then 1 else 0

/-- What a functor on the heap holds as long as it exists. -/
def innerHolds (f : HeapFunctor) (id : Nat) : Nat := if f.deleted = 0 then holds f.inner id else 0

/-- The live `Function` objects that hold a functor, those on the heap included. -/
def holders (s : Functions n) (id : Nat) : Nat :=
  ∑ x, holds ((s.object x).getD .null) id + ∑ j ∈ Finset.range s.next, innerHolds (s.functor j) id

/-- A sum over the values of a function changes with one value by the difference. -/
theorem sum_update_add {ι β : Type} [DecidableEq ι] {s : Finset ι} {i : ι} (hi : i ∈ s)
    (f : ι → β) (v : β) (w : β → Nat) :
    ∑ x ∈ s, w (Function.update f i v x) + w (f i) = ∑ x ∈ s, w (f x) + w v := by
  have hrest : ∑ x ∈ s.erase i, w (Function.update f i v x) = ∑ x ∈ s.erase i, w (f x) := by
    refine Finset.sum_congr rfl fun x hx => ?_
    rw [Function.update_of_ne (Finset.ne_of_mem_erase hx)]
  rw [← Finset.add_sum_erase s _ hi, ← Finset.add_sum_erase s (fun x => w (f x)) hi, hrest,
    Function.update_self]
  omega

theorem holders_setObject (s : Functions n) (x : Fin n) (value : Option Held) (id : Nat) :
    (s.setObject x value).holders id + holds ((s.object x).getD .null) id =
      s.holders id + holds (value.getD .null) id := by
  have h := sum_update_add (Finset.mem_univ x) s.object value fun o => holds (o.getD .null) id
  simp only [holders, setObject]
  omega

theorem holders_setFunctor (s : Functions n) {j : Nat} (hj : j < s.next) (f : HeapFunctor)
    (id : Nat) : (s.setFunctor j f).holders id + innerHolds (s.functor j) id =
      s.holders id + innerHolds f id := by
  have h := sum_update_add (Finset.mem_range.mpr hj) s.functor f fun f => innerHolds f id
  simp only [holders, setFunctor]
  omega

/-- Every counter is right, for one `Function` in hand besides those alive. -/
structure Counted (s : Functions n) (hand : Held) : Prop where
  refCount : ∀ id < s.next, (s.functor id).refCount = s.holders id + holds hand id
  deleted : ∀ id < s.next,
    (s.functor id).deleted = if (s.functor id).refCount = 0 then 1 else 0
  object_lt : ∀ x id, s.object x = some (.functor id) → id < s.next
  inner_lt : ∀ j < s.next, ∀ id, (s.functor j).inner = .functor id → id < j
  hand_lt : ∀ id, hand = .functor id → id < s.next

theorem holds_functor (id : Nat) : holds (.functor id) id = 1 := if_pos rfl

@[simp] theorem holds_null (id : Nat) : holds .null id = 0 := rfl

@[simp] theorem holds_pointer (id : Nat) : holds .pointer id = 0 := rfl

theorem holds_of_ne {h : Held} {id : Nat} (hne : h ≠ .functor id) : holds h id = 0 := if_neg hne

namespace Counted

variable {s : Functions n} {hand : Held}

theorem start (n : Nat) : (start n).Counted .null where
  refCount _ h := absurd h (Nat.not_lt_zero _)
  deleted _ h := absurd h (Nat.not_lt_zero _)
  object_lt _ _ h := by cases h
  inner_lt _ h := absurd h (Nat.not_lt_zero _)
  hand_lt _ h := by cases h

/-- A functor in hand exists. -/
theorem alive {id : Nat} (h : s.Counted (.functor id)) :
    (s.functor id).deleted = 0 ∧ 1 ≤ (s.functor id).refCount := by
  have hid := h.hand_lt id rfl
  have hcount := h.refCount id hid
  rw [holds_functor] at hcount
  refine ⟨?_, by omega⟩
  rw [h.deleted id hid, if_neg (by omega)]

/-- What an object holds comes to the hand, and something that counts nothing takes its place. -/
theorem take (h : s.Counted .null) {x : Fin n} {value : Option Held}
    (hv : ∀ id, value.getD .null ≠ .functor id) :
    (s.setObject x value).Counted ((s.object x).getD .null) where
  refCount id hid := by
    have hcount := h.refCount id hid
    have hset := s.holders_setObject x value id
    rw [holds_of_ne (hv id)] at hset
    change (s.functor id).refCount = _
    rw [hcount, holds_null]
    omega
  deleted := h.deleted
  object_lt y id hy := by
    simp only [setObject, Function.update_apply] at hy
    split at hy
    · exact absurd (by rw [hy]; rfl) (hv id)
    · exact h.object_lt y id hy
  inner_lt := h.inner_lt
  hand_lt id hid := by
    cases ho : s.object x with
    | none =>
      rw [ho] at hid
      cases hid
    | some held =>
      rw [ho] at hid
      exact h.object_lt x id (ho.trans (congrArg some hid))

/-- What is in hand is put into an object that holds nothing that counts. -/
theorem put (h : s.Counted hand) {x : Fin n} (hx : ∀ id, (s.object x).getD .null ≠ .functor id) :
    (s.setObject x (some hand)).Counted .null where
  refCount id hid := by
    have hcount := h.refCount id hid
    have hset := s.holders_setObject x (some hand) id
    rw [holds_of_ne (hx id)] at hset
    change (s.functor id).refCount = _
    rw [hcount, holds_null]
    simp only [Option.getD_some] at hset
    omega
  deleted := h.deleted
  object_lt y id hy := by
    simp only [setObject, Function.update_apply] at hy
    split at hy
    · exact h.hand_lt id (Option.some.inj hy)
    · exact h.object_lt y id hy
  inner_lt := h.inner_lt
  hand_lt _ hid := by cases hid

end Counted

theorem drop_of_plain (fuel : Nat) (s : Functions n) {hand : Held} (h : ∀ id, hand ≠ .functor id) :
    drop fuel s hand = some s := by
  cases hand with
  | functor id => exact absurd rfl (h id)
  | _ => cases fuel <;> rfl

theorem Counted.congr_hand {s : Functions n} {hand hand' : Held} (h : s.Counted hand)
    (hplain : ∀ id, hand ≠ .functor id) (hplain' : ∀ id, hand' ≠ .functor id) :
    s.Counted hand' where
  refCount id hid := by
    rw [holds_of_ne (hplain' id), h.refCount id hid, holds_of_ne (hplain id)]
  deleted := h.deleted
  object_lt := h.object_lt
  inner_lt := h.inner_lt
  hand_lt id hid := absurd hid (hplain' id)

/-- A functor changes its counter, and the hand what it holds, so that all counters are right. -/
theorem Counted.setFunctor {s : Functions n} {hand hand' : Held} {id : Nat} {f : HeapFunctor}
    (h : s.Counted hand) (hinner : f.inner = (s.functor id).inner)
    (hdel : f.deleted = if f.refCount = 0 then 1 else 0)
    (hown : f.refCount = (s.setFunctor id f).holders id + holds hand' id)
    (hothers : ∀ j, j ≠ id →
      (s.setFunctor id f).holders j + holds hand' j = s.holders j + holds hand j)
    (hlt : ∀ k, hand' = .functor k → k < s.next) : (s.setFunctor id f).Counted hand' where
  refCount j hj := by
    by_cases he : j = id
    · rw [he, ← hown]
      exact congrArg _ (Function.update_self ..)
    · have hcount := h.refCount j hj
      have hsum := hothers j he
      have hf : (s.setFunctor id f).functor j = s.functor j := Function.update_of_ne he ..
      rw [hf, hcount]
      omega
  deleted j hj := by
    by_cases he : j = id
    · have hf : (s.setFunctor id f).functor j = f := he ▸ Function.update_self ..
      rw [hf, hdel]
    · have hf : (s.setFunctor id f).functor j = s.functor j := Function.update_of_ne he ..
      rw [hf]
      exact h.deleted j hj
  object_lt := h.object_lt
  inner_lt j hj k hk := by
    refine h.inner_lt j hj k ?_
    by_cases he : j = id
    · have hf : (s.setFunctor id f).functor j = f := he ▸ Function.update_self ..
      rw [he, ← hinner, ← hf]
      exact hk
    · have hf : (s.setFunctor id f).functor j = s.functor j := Function.update_of_ne he ..
      rwa [hf] at hk
  hand_lt := hlt

/-- The counter of a functor that is not deleted has no part in who holds what. -/
theorem holders_setRefCount (s : Functions n) {id : Nat} (hid : id < s.next) (count : Int)
    (j : Nat) :
    (s.setFunctor id { s.functor id with refCount := count }).holders j = s.holders j :=
  Nat.add_right_cancel (s.holders_setFunctor hid { s.functor id with refCount := count } j)

/-- A wrapper in hand is destroyed, and others are left. -/
theorem Counted.release {s : Functions n} {id : Nat} (h : s.Counted (.functor id))
    (hne : (s.functor id).refCount - 1 ≠ 0) :
    (s.setFunctor id
      { s.functor id with refCount := (s.functor id).refCount - 1 }).Counted .null := by
  have hid := h.hand_lt id rfl
  have hcount := h.refCount id hid
  rw [holds_functor] at hcount
  refine h.setFunctor rfl ?_ ?_ (fun j hj => ?_) fun k hk => by cases hk
  · rw [if_neg hne]
    exact h.alive.1
  · rw [holders_setRefCount s hid, holds_null]
    change (s.functor id).refCount - 1 = _
    omega
  · rw [holders_setRefCount s hid, holds_null, holds_of_ne (by simpa using hj.symm)]

/-- The last wrapper is destroyed, and with the functor what it holds comes to the hand. -/
theorem Counted.delete {s : Functions n} {id : Nat} (h : s.Counted (.functor id))
    (hz : (s.functor id).refCount - 1 = 0) :
    (s.setFunctor id ⟨0, (s.functor id).deleted + 1, (s.functor id).inner⟩).Counted
      (s.functor id).inner := by
  have hid := h.hand_lt id rfl
  have hdel := h.alive.1
  have hset (j : Nat) : (s.setFunctor id
      ⟨0, (s.functor id).deleted + 1, (s.functor id).inner⟩).holders j +
        holds (s.functor id).inner j = s.holders j := by
    have hset := s.holders_setFunctor hid ⟨0, (s.functor id).deleted + 1, (s.functor id).inner⟩ j
    rwa [innerHolds, if_pos hdel, innerHolds, if_neg (Nat.succ_ne_zero _), Nat.add_zero] at hset
  have hcount := h.refCount id hid
  rw [holds_functor] at hcount
  refine h.setFunctor rfl ?_ ?_ (fun j hj => ?_) fun k hk => (h.inner_lt id hid k hk).trans hid
  · rw [if_pos rfl]
    exact congrArg Nat.succ hdel
  · have hown := hset id
    change (0 : Int) = _
    omega
  · rw [hset, holds_of_ne (by simpa using hj.symm), Nat.add_zero]

/-- A wrapper is copied into the hand. -/
theorem Counted.acquire {s : Functions n} {id : Nat} (h : s.Counted .null) (hid : id < s.next)
    (hdel : (s.functor id).deleted = 0) :
    (s.setFunctor id { s.functor id with refCount := (s.functor id).refCount + 1 }).Counted
      (.functor id) := by
  have hcount := h.refCount id hid
  rw [holds_null] at hcount
  refine h.setFunctor rfl ?_ ?_ (fun j hj => ?_) fun k hk => by cases hk; exact hid
  · rw [if_neg (show (s.functor id).refCount + 1 ≠ 0 by omega)]
    exact hdel
  · rw [holders_setRefCount s hid, holds_functor]
    change (s.functor id).refCount + 1 = _
    omega
  · rw [holders_setRefCount s hid, holds_null, holds_of_ne (by simpa using hj.symm)]

/-- What is in hand is released, and all functors that this deletes release what they hold. -/
theorem drop_counted {fuel : Nat} {s : Functions n} {hand : Held} (h : s.Counted hand)
    (hfuel : ∀ id, hand = .functor id → id < fuel) :
    ∃ s', drop fuel s hand = some s' ∧ s'.Counted .null ∧ s'.object = s.object := by
  induction fuel generalizing s hand with
  | zero =>
    have hplain : ∀ id, hand ≠ .functor id := fun id hid =>
      absurd (hfuel id hid) (Nat.not_lt_zero _)
    exact ⟨s, drop_of_plain 0 s hplain, h.congr_hand hplain (by simp), rfl⟩
  | succ fuel ih =>
    by_cases hplain : ∀ id, hand ≠ .functor id
    · exact ⟨s, drop_of_plain _ s hplain, h.congr_hand hplain (by simp), rfl⟩
    · obtain ⟨id, hid⟩ := not_forall_not.mp hplain
      subst hid
      have hdel := h.alive.1
      by_cases hz : (s.functor id).refCount - 1 = 0
      · have hlt : ∀ inner, (s.functor id).inner = .functor inner → inner < fuel := by
          intro inner hinner
          have hin := h.inner_lt id (h.hand_lt id rfl) inner hinner
          have hout := hfuel id rfl
          omega
        obtain ⟨s', hs', hc', ho'⟩ := ih (h.delete hz) hlt
        refine ⟨s', ?_, hc', ho'⟩
        rw [drop, if_neg (by simp [hdel]), if_pos hz]
        exact hs'
      · exact ⟨_, by rw [drop, if_neg (by simp [hdel]), if_neg hz], h.release hz, rfl⟩

/-- `Free` leaves the object without a functor and every counter right. -/
theorem free_counted {s : Functions n} (h : s.Counted .null) (x : Fin n) :
    ∃ s', s.free x = some s' ∧ s'.Counted .null ∧
      s'.object = Function.update s.object x (some .null) := by
  have htake : (s.setObject x (some .null)).Counted ((s.object x).getD .null) := h.take (by simp)
  exact drop_counted htake htake.hand_lt

/-- Who holds a functor is among its holders. -/
theorem one_le_holders {s : Functions n} {y : Fin n} {id : Nat}
    (hy : s.object y = some (.functor id)) : 1 ≤ s.holders id := by
  have hle := Finset.single_le_sum (f := fun x => holds ((s.object x).getD .null) id)
    (fun _ _ => Nat.zero_le _) (Finset.mem_univ y)
  rw [hy, Option.getD_some, holds_functor] at hle
  exact hle.trans (Nat.le_add_right _ _)

/-- A copy of what an object holds is taken in hand. -/
theorem copyTo_counted {s : Functions n} (h : s.Counted .null) {y : Fin n} {held : Held}
    (hy : s.object y = some held) (hne : held ≠ .null) :
    ∃ s', s.copyTo y = some (held, s') ∧ s'.Counted held ∧ s'.object = s.object := by
  cases held with
  | null => exact absurd rfl hne
  | pointer =>
    exact ⟨s, by simp only [copyTo, hy], h.congr_hand (by simp) (by simp), rfl⟩
  | functor id =>
    have hid := h.object_lt y id hy
    have hone := one_le_holders hy
    have hcount := h.refCount id hid
    have hdel : (s.functor id).deleted = 0 := by
      rw [h.deleted id hid, if_neg (by omega)]
    refine ⟨_, ?_, h.acquire hid hdel, rfl⟩
    simp [copyTo, hy, hdel]

/-- Nobody holds a functor that is not allocated yet. -/
theorem Counted.holders_next {s : Functions n} {hand : Held} (h : s.Counted hand) :
    s.holders s.next + holds hand s.next = 0 := by
  have hobjects : ∑ x, holds ((s.object x).getD .null) s.next = 0 := by
    refine Finset.sum_eq_zero fun x _ => holds_of_ne fun hx => ?_
    cases ho : s.object x with
    | none =>
      rw [ho] at hx
      cases hx
    | some held =>
      rw [ho] at hx
      exact (h.object_lt x s.next (ho.trans (congrArg some hx))).ne rfl
  have hfunctors : ∑ j ∈ Finset.range s.next, innerHolds (s.functor j) s.next = 0 := by
    refine Finset.sum_eq_zero fun j hj => ?_
    have hne : (s.functor j).inner ≠ .functor s.next := fun hin =>
      (h.inner_lt j (Finset.mem_range.mp hj) s.next hin).not_gt (Finset.mem_range.mp hj)
    rw [innerHolds, holds_of_ne hne, ite_self]
  rw [holders, hobjects, hfunctors, holds_of_ne fun hh => (h.hand_lt s.next hh).ne rfl]

/-- A functor that is copied to the heap holds what was in hand, and its wrapper is in hand. -/
theorem wrap_counted {s : Functions n} {hand : Held} (h : s.Counted hand) :
    (s.wrap hand).2.Counted (s.wrap hand).1 := by
  have hold {j : Nat} (hj : j < s.next) : (s.wrap hand).2.functor j = s.functor j :=
    Function.update_of_ne hj.ne ..
  have hlast : (s.wrap hand).2.functor s.next = ⟨1, 0, hand⟩ := Function.update_self ..
  have hnew (id : Nat) : (s.wrap hand).2.holders id = s.holders id + holds hand id := by
    have hsum : ∑ j ∈ Finset.range s.next, innerHolds ((s.wrap hand).2.functor j) id =
        ∑ j ∈ Finset.range s.next, innerHolds (s.functor j) id :=
      Finset.sum_congr rfl fun j hj => by rw [hold (Finset.mem_range.mp hj)]
    rw [holders, show (s.wrap hand).2.next = s.next + 1 from rfl, Finset.sum_range_succ, hsum,
      hlast, ← Nat.add_assoc]
    rfl
  have hfresh : s.holders s.next + holds hand s.next = 0 := h.holders_next
  constructor
  · intro id hid
    rw [hnew]
    rcases Nat.lt_succ_iff_lt_or_eq.mp hid with hlt | rfl
    · have hhand : holds (s.wrap hand).1 id = 0 := holds_of_ne (by simpa [wrap] using hlt.ne')
      rw [hold hlt, h.refCount id hlt, hhand]
      omega
    · rw [hlast, hfresh]
      simp [wrap, holds]
  · intro id hid
    rcases Nat.lt_succ_iff_lt_or_eq.mp hid with hlt | rfl
    · rw [hold hlt]
      exact h.deleted id hlt
    · rw [hlast]
      rfl
  · intro x id hx
    exact (h.object_lt x id hx).trans (Nat.lt_succ_self _)
  · intro j hj id hid
    rcases Nat.lt_succ_iff_lt_or_eq.mp hj with hlt | rfl
    · rw [hold hlt] at hid
      exact h.inner_lt j hlt id hid
    · rw [hlast] at hid
      exact h.hand_lt id hid
  · intro id hid
    cases hid
    exact Nat.lt_succ_self _

/-- The source of a copy or an assignment is not empty, and not the object assigned to. -/
def Call.Fits (s : Functions n) : Call n → Prop
  | .copy _ y => s.object y ≠ some .null
  | .assign x y => x ≠ y ∧ s.object y ≠ some .null
  | .assignConst x y => x ≠ y ∧ s.object y ≠ some .null
  | _ => True

/-- An object that holds nothing that counts is given another value that does not count. -/
theorem setObject_counted {s : Functions n} (h : s.Counted .null) {x : Fin n}
    {value : Option Held} (hx : ∀ id, (s.object x).getD .null ≠ .functor id)
    (hv : ∀ id, value.getD .null ≠ .functor id) : (s.setObject x value).Counted .null :=
  (h.take hv).congr_hand hx (by simp)

/-- What is in hand is put into an object that holds nothing that counts. -/
theorem store_counted {r : Held × Functions n} (h : r.2.Counted r.1) {x : Fin n}
    (hx : ∀ id, (r.2.object x).getD .null ≠ .functor id) : (store x r).Counted .null := h.put hx

section Runs

variable {s : Functions n} (h : s.Counted .null)

include h

theorem run_copy {x y : Fin n} {held : Held} (hx : ∀ id, (s.object x).getD .null ≠ .functor id)
    (hy : s.object y = some held) (hne : held ≠ .null) :
    ∃ s', (s.copyTo y).map (store x) = some s' ∧ s'.Counted .null := by
  obtain ⟨s', hs', hc', ho'⟩ := copyTo_counted h hy hne
  refine ⟨_, by rw [hs', Option.map_some], store_counted hc' fun id => ?_⟩
  change (s'.object x).getD .null ≠ .functor id
  rw [ho']
  exact hx id

theorem run_wrap {x y : Fin n} {held : Held} (hx : ∀ id, (s.object x).getD .null ≠ .functor id)
    (hy : s.object y = some held) (hne : held ≠ .null) :
    ∃ s', (do
      let (inner, s) ← s.copyTo y
      some (store x (s.wrap inner))) = some s' ∧ s'.Counted .null := by
  obtain ⟨s', hs', hc', ho'⟩ := copyTo_counted h hy hne
  refine ⟨store x (s'.wrap held), by rw [hs']; rfl, store_counted (wrap_counted hc') fun id => ?_⟩
  change (s'.object x).getD .null ≠ .functor id
  rw [ho']
  exact hx id

end Runs

/-- A legal call that fits has an outcome, with every counter right. -/
theorem run_counted {s : Functions n} (h : s.Counted .null) {c : Call n} (hl : c.Legal s)
    (hf : c.Fits s) : ∃ s', c.run s = some s' ∧ s'.Counted .null := by
  have hdead {x : Fin n} (hx : x ∈ c.creates) (id : Nat) :
      (s.object x).getD .null ≠ .functor id := by
    rw [hl.1 x hx]
    simp
  have hfree (x : Fin n) : ∃ s', s.free x = some s' ∧ s'.Counted .null ∧
      (∀ id, (s'.object x).getD .null ≠ .functor id) ∧
      ∀ y, y ≠ x → s'.object y = s.object y := by
    obtain ⟨s', hs', hc', ho'⟩ := free_counted h x
    refine ⟨s', hs', hc', fun id => ?_, fun y hy => ?_⟩
    · rw [ho', Function.update_self]
      simp
    · rw [ho', Function.update_of_ne hy]
  cases c with
  | create x =>
    exact ⟨_, rfl, setObject_counted h (hdead (List.mem_singleton_self x)) (by simp)⟩
  | createFunctor x =>
    exact ⟨_, rfl, store_counted (wrap_counted h) (hdead (List.mem_singleton_self x))⟩
  | createPointer x =>
    exact ⟨_, rfl, setObject_counted h (hdead (List.mem_singleton_self x)) (by simp)⟩
  | copy x y =>
    obtain ⟨held, hy⟩ := Option.ne_none_iff_exists'.mp (hl.2 y (List.mem_singleton_self y))
    have hne : held ≠ .null := fun hn => hf (hn ▸ hy)
    exact run_copy h (hdead (List.mem_singleton_self x)) hy hne
  | assign x y =>
    obtain ⟨s', hs', hc', hx', ho'⟩ := hfree x
    obtain ⟨held, hy⟩ := Option.ne_none_iff_exists'.mp (hl.2 y (by simp [Call.uses]))
    have hne : held ≠ .null := fun hn => hf.2 (hn ▸ hy)
    rw [Call.run, hs']
    exact run_copy hc' hx' ((ho' y hf.1.symm).trans hy) hne
  | assignConst x y =>
    obtain ⟨s', hs', hc', hx', ho'⟩ := hfree x
    obtain ⟨held, hy⟩ := Option.ne_none_iff_exists'.mp (hl.2 y (by simp [Call.uses]))
    have hne : held ≠ .null := fun hn => hf.2 (hn ▸ hy)
    rw [Call.run, hs']
    exact run_wrap hc' hx' ((ho' y hf.1.symm).trans hy) hne
  | assignFunctor x =>
    obtain ⟨s', hs', hc', hx', -⟩ := hfree x
    exact ⟨_, by rw [Call.run, hs', Option.map_some], store_counted (wrap_counted hc') hx'⟩
  | assignPointer x =>
    obtain ⟨s', hs', hc', hx', -⟩ := hfree x
    exact ⟨_, by rw [Call.run, hs', Option.map_some], setObject_counted hc' hx' (by simp)⟩
  | destroy x =>
    obtain ⟨s', hs', hc', hx', -⟩ := hfree x
    exact ⟨_, by rw [Call.run, hs', Option.map_some], setObject_counted hc' hx' (by simp)⟩

/-- A copy from an object that holds nothing dereferences a null pointer. -/
theorem copyTo_of_null {s : Functions n} {y : Fin n} (hy : s.object y = some .null) :
    s.copyTo y = none := by
  simp only [copyTo, hy]

/-- A legal call that does not fit has no outcome: an assignment has emptied its target before it
copies from its source. -/
theorem run_of_not_fits {s : Functions n} (h : s.Counted .null) {c : Call n} (hf : ¬ c.Fits s) :
    c.run s = none := by
  have hassign {x y : Fin n} (hxy : ¬ (x ≠ y ∧ s.object y ≠ some .null)) :
      ∃ s', s.free x = some s' ∧ s'.copyTo y = none := by
    obtain ⟨s', hs', -, ho'⟩ := free_counted h x
    refine ⟨s', hs', copyTo_of_null ?_⟩
    rw [ho', Function.update_apply]
    split
    · rfl
    · rename_i hne
      by_contra hy
      exact hxy ⟨Ne.symm hne, hy⟩
  cases c with
  | copy x y =>
    rw [Call.run, copyTo_of_null (not_not.mp hf), Option.map_none]
  | assign x y =>
    obtain ⟨s', hs', hy⟩ := hassign hf
    simp only [Call.run, hs', Option.bind_eq_bind, Option.bind_some, hy, Option.map_none]
  | assignConst x y =>
    obtain ⟨s', hs', hy⟩ := hassign hf
    simp only [Call.run, hs', Option.bind_eq_bind, Option.bind_some, hy, Option.bind_none]
  | _ => exact absurd trivial hf

/-- The program has not gone wrong, every counter is the number of holders of its functor, and
the functors without holders, and only these, were deleted, and once. -/
def Owned (o : Option (Functions n)) : Prop :=
  ∃ s, o = some s ∧ ∀ id < s.next, (s.functor id).refCount = s.holders id ∧
    (s.functor id).deleted = if s.holders id = 0 then 1 else 0

/-- A call that can be made fits. -/
def FitsNow (o : Option (Functions n)) (c : Call n) : Prop :=
  ∀ s, o = some s → c.Legal s → c.Fits s

/-- Every call of a history fits. -/
def AllFit (o : Option (Functions n)) : List (Call n) → Prop
  | [] => True
  | c :: cs => FitsNow o c ∧ AllFit (step o c) cs

theorem Counted.owned {s : Functions n} (h : s.Counted .null) : Owned (some s) := by
  refine ⟨s, rfl, fun id hid => ?_⟩
  have hcount := h.refCount id hid
  rw [holds_null, Nat.cast_zero, add_zero] at hcount
  refine ⟨hcount, ?_⟩
  rw [h.deleted id hid, hcount]
  simp only [Nat.cast_eq_zero]

/-- From a state with its counters right, a call keeps the ownership exactly if it fits. -/
theorem owned_step_iff {s : Functions n} (h : s.Counted .null) (c : Call n) :
    (Owned (step (some s) c) ↔ FitsNow (some s) c) ∧
      (FitsNow (some s) c → ∃ s', step (some s) c = some s' ∧ s'.Counted .null) := by
  have hstep : step (some s) c = if c.Legal s then c.run s else some s := rfl
  by_cases hl : c.Legal s
  · rw [hstep, if_pos hl]
    have hrun : FitsNow (some s) c → ∃ s', c.run s = some s' ∧ s'.Counted .null :=
      fun hf => run_counted h hl (hf s rfl hl)
    refine ⟨⟨?_, fun hf => ?_⟩, hrun⟩
    · rintro ⟨s', hs', -⟩ t ht hl'
      cases ht
      by_contra hf
      rw [run_of_not_fits h hf] at hs'
      cases hs'
    · obtain ⟨s', hs', hc'⟩ := hrun hf
      rw [hs']
      exact hc'.owned
  · rw [hstep, if_neg hl]
    have hfits : FitsNow (some s) c := by
      intro t ht hl'
      cases ht
      exact absurd hl' hl
    exact ⟨iff_of_true h.owned hfits, fun _ => ⟨s, rfl, h⟩⟩

/-- A history of calls keeps the ownership of all functors exactly if no call of it copies from
an empty `Function` or assigns one to itself. -/
theorem owned_iff_fits (n : Nat) (calls : List (Call n)) :
    (∀ done, done <+: calls → Owned (done.foldl step (some (start n)))) ↔
      AllFit (some (start n)) calls := by
  let inv (o : Option (Functions n)) (_ : List (Call n)) : Prop :=
    ∃ s, o = some s ∧ s.Counted .null
  have hstep : ∀ o c cs, inv o (c :: cs) → Owned o →
      (Owned (step o c) ↔ FitsNow o c) ∧ (FitsNow o c → inv (step o c) cs) := by
    rintro o c cs ⟨s, rfl, hs⟩ -
    exact owned_step_iff hs c
  have hstart := Counted.start n
  exact Histories.good_iff_fits inv (fun _ => trivial) (fun _ _ _ => Iff.rfl) hstep
    ⟨start n, rfl, hstart⟩ hstart.owned

/-- A `Function` that is assigned to itself copies from the null pointer that it left. -/
theorem self_assignment_fails :
    ¬ ∀ calls : List (Call 1), ∀ done, done <+: calls →
      Owned (done.foldl step (some (start 1))) := by
  intro h
  obtain ⟨s, hs, -⟩ := h [.createFunctor 0, .assign 0 0] _ List.prefix_rfl
  have hnone : ([.createFunctor 0, .assign 0 0] : List (Call 1)).foldl step (some (start 1)) =
      none := rfl
  rw [hnone] at hs
  cases hs

end Functions

end Embb.Base
