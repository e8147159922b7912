import Embb.Lib.Threads
import Mathlib.Data.Multiset.Range
import Mathlib.Tactic.Common

/-!
# Indices of threads

A thread asks for an index when it needs one for the first time. It increments a
shared counter and keeps the old value as its index; where that value is not below
the maximum it takes the increment back and is refused. Both the counter and the
maximum are set up by whichever thread uses them first.
-/

namespace Embb.Base.ThreadIndex

open Threads

/-- `UINT_MAX`, which stands for a thread without an index. -/
def uintMax : UInt32 := 4294967295

/-- The global variables that are set up at their first use. -/
inductive Global where
  | maxNumber
  | counter
  deriving DecidableEq, Repr

/-- The steps of `embb_try_get_next_thread_index`, each of which uses a global variable. -/
inductive Use where
  | increment
  | compare (index : UInt32)
  | decrement
  deriving DecidableEq, Repr

def Use.global : Use → Global
  | .increment => .counter
  | .compare _ => .maxNumber
  | .decrement => .counter

/-- How far `embb_max_number_thread_indices` or `embb_thread_index_counter` has come, and the
use of the variable that it returns. -/
inductive Stage where
  | load
  | swap
  | init
  | publish
  | spin
  | use
  deriving DecidableEq, Repr

inductive Status where
  | success
  | error
  deriving DecidableEq, Repr

/-- What a thread is at. Outside `embb_internal_thread_index` and where it returns the frame has
the variable `embb_internal_thread_index_var` of the thread, which is `UINT_MAX` while the thread
asks for an index. -/
inductive Frame where
  | caller (indexVar : UInt32)
  | access (stage : Stage) (use : Use)
  | returns (status : Status) (indexVar : UInt32)
  deriving DecidableEq, Repr

/-- The variables that the threads share; a flag is 0 before a variable is set up, 1 while it is
and 2 from then on. -/
structure Memory where
  flag : Global → ℕ
  max : UInt32
  counter : UInt32

namespace Memory

def setFlag (m : Memory) (g : Global) (v : ℕ) : Memory :=
  { m with flag := Function.update m.flag g v }

/-- What the first user writes; `available` is the number of cores. -/
def init (available : UInt32) (m : Memory) : Global → Memory
  | .maxNumber => { m with max := available * 2 }
  | .counter => { m with counter := 0 }

variable (m : Memory) (available : UInt32)

@[simp] theorem flag_setFlag_self (g : Global) (v : ℕ) : (m.setFlag g v).flag g = v :=
  Function.update_self ..

theorem flag_setFlag_of_ne {g g' : Global} (h : g' ≠ g) (v : ℕ) :
    (m.setFlag g v).flag g' = m.flag g' :=
  Function.update_of_ne h ..

@[simp] theorem max_setFlag (g : Global) (v : ℕ) : (m.setFlag g v).max = m.max := rfl

@[simp] theorem counter_setFlag (g : Global) (v : ℕ) :
    (m.setFlag g v).counter = m.counter := rfl

@[simp] theorem flag_init (g : Global) : (m.init available g).flag = m.flag := by
  cases g <;> rfl

end Memory

/-- One step of a thread. -/
def exec (available : UInt32) : Frame → Memory → Memory × Frame
  | .caller v, m =>
    (m, if v = uintMax then .access .load .increment else .returns .success v)
  | .access .load u, m => (m, .access (if m.flag u.global ≠ 2 then .swap else .use) u)
  | .access .swap u, m =>
    if m.flag u.global = 0 then (m.setFlag u.global 1, .access .init u)
    else (m, .access .spin u)
  | .access .init u, m => (m.init available u.global, .access .publish u)
  | .access .publish u, m => (m.setFlag u.global 2, .access .spin u)
  | .access .spin u, m => (m, .access (if m.flag u.global ≠ 2 then .spin else .use) u)
  | .access .use .increment, m =>
    ({ m with counter := m.counter + 1 }, .access .load (.compare m.counter))
  | .access .use (.compare index), m =>
    (m, if index ≥ m.max then .access .load .decrement else .returns .success index)
  | .access .use .decrement, m =>
    ({ m with counter := m.counter + (-1) }, .returns .error uintMax)
  | .returns _ v, m => (m, .caller v)

/-- Every thread calls `embb_internal_thread_index` again and again. -/
def code (available : UInt32) : Code Memory Frame Unit := fun _ _ f m =>
  ((exec available f m).1, [(exec available f m).2])

/-- Threads that have no index yet, after a call of `embb_internal_thread_index_set_max` or
without one. -/
def boot (set : Option UInt32) (threads : ℕ) : State Memory Frame where
  mem := ⟨fun g => if g = .maxNumber ∧ set.isSome then 2 else 0, set.getD 0, 0⟩
  callStacks := List.replicate threads [.caller uintMax]

/-- The maximum of a run: the one that was set, or twice the number of cores. -/
def maximum (available : UInt32) (set : Option UInt32) : UInt32 := set.getD (available * 2)

namespace Frame

/-- The index that a thread has got; it has got it once its increment returned a value below the
maximum. -/
def holds (max : UInt32) : Frame → List ℕ
  | .caller v | .returns _ v => if v = uintMax then [] else [v.toNat]
  | .access _ (.compare index) => if index < max then [index.toNat] else []
  | .access _ _ => []

/-- Increments that are going to be taken back. -/
def inFlight (max : UInt32) : Frame → ℕ
  | .access _ (.compare index) => if index < max then 0 else 1
  | .access _ .decrement => 1
  | _ => 0

/-- The thread does not get an index in this call. -/
def Refused (max : UInt32) (f : Frame) : Prop :=
  f.inFlight max ≠ 0 ∨ ∃ v, f = .returns .error v

/-- The thread is the one that sets the variable up. -/
def setsUp (g : Global) : Frame → ℕ
  | .access .init u | .access .publish u => if u.global = g then 1 else 0
  | _ => 0

end Frame

/-- The indices that the threads have got. -/
def handed (max : UInt32) (fs : Multiset Frame) : Multiset ℕ := gather (Frame.holds max) fs

/-- The indices that the threads have got are the first ones, each once, and not more than the
maximum; a thread is refused only where there are none left. -/
structure HandsOut (max : UInt32) (fs : Multiset Frame) : Prop where
  handed_eq : handed max fs = Multiset.range (handed max fs).card
  card_le : (handed max fs).card ≤ max.toNat
  refused : ∀ f ∈ fs, f.Refused max → (handed max fs).card = max.toNat

/-- The increments that are going to be taken back. -/
def inFlight (max : UInt32) (fs : Multiset Frame) : ℕ := (fs.map (Frame.inFlight max)).sum

/-- The threads that set up a variable. -/
def settingUp (g : Global) (fs : Multiset Frame) : ℕ := (fs.map (Frame.setsUp g)).sum

section Weights

variable {max : UInt32} {f f' : Frame} {fs others : Multiset Frame}

theorem handed_cons : handed max (f ::ₘ others) = f.holds max + handed max others :=
  gather_cons ..

theorem inFlight_cons : inFlight max (f ::ₘ others) = f.inFlight max + inFlight max others :=
  sum_map_cons ..

theorem settingUp_cons (g : Global) :
    settingUp g (f ::ₘ others) = f.setsUp g + settingUp g others :=
  sum_map_cons ..

theorem exists_inFlight (h : inFlight max fs ≠ 0) : ∃ f ∈ fs, f.Refused max := by
  by_contra hn
  refine h (Multiset.sum_eq_zero fun n hm => ?_)
  obtain ⟨f, hf, rfl⟩ := Multiset.mem_map.mp hm
  by_contra h0
  exact hn ⟨f, hf, Or.inl h0⟩

/-- A thread has an index or takes an increment back, never both. -/
theorem Frame.weight_le (max : UInt32) (f : Frame) : (f.holds max).length + f.inFlight max ≤ 1 := by
  cases f with
  | caller | returns =>
    simp only [holds, inFlight]
    split <;> simp
  | access stage u =>
    cases u with
    | compare index =>
      simp only [holds, inFlight]
      split <;> simp
    | _ => simp [holds, inFlight]

theorem weights_le (max : UInt32) (fs : Multiset Frame) :
    (handed max fs).card + inFlight max fs ≤ fs.card := by
  induction fs using Multiset.induction_on with
  | empty => simp [handed, gather, inFlight]
  | cons f fs ih =>
    have hf := f.weight_le max
    rw [handed_cons, inFlight_cons, Multiset.card_add, Multiset.coe_card, Multiset.card_cons]
    omega

/-- Where a thread goes on with what it has, the indices that are handed out stay. -/
theorem HandsOut.congr (h : HandsOut max (f ::ₘ others)) (hholds : f'.holds max = f.holds max)
    (hr : f'.Refused max → f.Refused max) : HandsOut max (f' ::ₘ others) := by
  have heq : handed max (f' ::ₘ others) = handed max (f ::ₘ others) := by
    rw [handed_cons, handed_cons, hholds]
  refine ⟨heq ▸ h.handed_eq, heq ▸ h.card_le, fun g hg hgr => ?_⟩
  rw [heq]
  rcases Multiset.mem_cons.mp hg with rfl | hg
  · exact h.refused f (Multiset.mem_cons_self ..) (hr hgr)
  · exact h.refused g (Multiset.mem_cons_of_mem hg) hgr

end Weights

/-- Each variable is set up by one thread before anybody uses it. -/
structure SetUp (available max : UInt32) (m : Memory) (fs : Multiset Frame) : Prop where
  flag_le : ∀ g, m.flag g ≤ 2
  settingUp : ∀ g, settingUp g fs = if m.flag g = 1 then 1 else 0
  of_use : ∀ u, .access .use u ∈ fs → m.flag u.global = 2
  max_eq : m.flag .maxNumber = 2 → m.max = max
  max_publish : ∀ u, .access .publish u ∈ fs → u.global = .maxNumber → m.max = max
  available_eq : m.flag .maxNumber = 2 ∨ available * 2 = max

namespace SetUp

variable {available max : UInt32} {m : Memory} {f f' : Frame} {others : Multiset Frame}
  {u : Use}

/-- A thread that goes on without writing, and comes to use a variable only once it is set up. -/
theorem move (h : SetUp available max m (f ::ₘ others)) (hw : ∀ g, f'.setsUp g = f.setsUp g)
    (hu : ∀ u, f' = .access .use u → m.flag u.global = 2)
    (hp : ∀ u, f' ≠ .access .publish u) : SetUp available max m (f' ::ₘ others) where
  flag_le := h.flag_le
  settingUp g := by rw [settingUp_cons, hw, ← settingUp_cons, h.settingUp]
  of_use u hm := by
    rcases Multiset.mem_cons.mp hm with he | hm
    · exact hu u he.symm
    · exact h.of_use u (Multiset.mem_cons_of_mem hm)
  max_eq := h.max_eq
  max_publish u hm := by
    rcases Multiset.mem_cons.mp hm with he | hm
    · exact absurd he.symm (hp u)
    · exact h.max_publish u (Multiset.mem_cons_of_mem hm)
  available_eq := h.available_eq

/-- The thread that sets a variable up is the only one. -/
theorem flag_eq_one (h : SetUp available max m (f ::ₘ others)) {g : Global}
    (hw : f.setsUp g = 1) : m.flag g = 1 ∧ ThreadIndex.settingUp g others = 0 := by
  have hs := h.settingUp g
  rw [settingUp_cons, hw] at hs
  split at hs
  · rename_i h1
    exact ⟨h1, by omega⟩
  · omega

/-- The flag of a variable that is in use is not written any more. -/
theorem setFlag_of_use (h : SetUp available max m (f ::ₘ others)) {g : Global}
    (h2 : m.flag g ≠ 2) (v : ℕ) (hu : .access .use u ∈ others) :
    (m.setFlag g v).flag u.global = 2 := by
  have hflag := h.of_use u (Multiset.mem_cons_of_mem hu)
  rw [Memory.flag_setFlag_of_ne, hflag]
  rintro rfl
  exact h2 hflag

theorem swap (h : SetUp available max m (.access .swap u ::ₘ others))
    (h0 : m.flag u.global = 0) :
    SetUp available max (m.setFlag u.global 1) (.access .init u ::ₘ others) := by
  have hs := h.settingUp
  simp only [settingUp_cons, Frame.setsUp, zero_add] at hs
  refine ⟨fun g => ?_, fun g => ?_, fun v hm => ?_, fun h2 => ?_, fun v hm => ?_, ?_⟩
  · rcases eq_or_ne g u.global with rfl | hne
    · rw [Memory.flag_setFlag_self]
      omega
    · rw [m.flag_setFlag_of_ne hne]
      exact h.flag_le g
  · rw [settingUp_cons, Frame.setsUp, hs g]
    rcases eq_or_ne g u.global with rfl | hne
    · simp [h0]
    · simp [m.flag_setFlag_of_ne hne, hne.symm]
  · have hm : .access .use v ∈ others := by simpa using hm
    exact h.setFlag_of_use (by omega) 1 hm
  · rcases eq_or_ne Global.maxNumber u.global with he | hne
    · rw [← he, Memory.flag_setFlag_self] at h2
      omega
    · rw [m.flag_setFlag_of_ne hne] at h2
      exact h.max_eq h2
  · have hm : .access .publish v ∈ others := by simpa using hm
    exact h.max_publish v (Multiset.mem_cons_of_mem hm)
  · refine h.available_eq.imp (fun h2 => ?_) id
    rw [m.flag_setFlag_of_ne _ 1, h2]
    rintro he
    rw [← he] at h0
    omega

theorem init (h : SetUp available max m (.access .init u ::ₘ others)) :
    SetUp available max (m.init available u.global) (.access .publish u ::ₘ others) := by
  obtain ⟨h1, -⟩ := h.flag_eq_one (g := u.global) (by simp [Frame.setsUp])
  have hset : u.global = .maxNumber → (m.init available u.global).max = max := by
    intro hg
    rw [hg] at h1 ⊢
    refine h.available_eq.resolve_left ?_
    omega
  have hkeep : u.global = .counter → (m.init available u.global).max = m.max := by
    intro hg
    rw [hg]
    rfl
  have hmax : m.max = max → (m.init available u.global).max = max := by
    intro he
    cases hg : u.global with
    | maxNumber => exact hg ▸ hset hg
    | counter => exact hg ▸ (hkeep hg).trans he
  refine ⟨fun g => ?_, fun g => ?_, fun v hm => ?_, fun h2 => ?_, fun v hm => ?_, ?_⟩
  · rw [Memory.flag_init]
    exact h.flag_le g
  · rw [Memory.flag_init, ← h.settingUp g, settingUp_cons, settingUp_cons]
    rfl
  · have hm : .access .use v ∈ others := by simpa using hm
    rw [Memory.flag_init]
    exact h.of_use v (Multiset.mem_cons_of_mem hm)
  · rw [Memory.flag_init] at h2
    exact hmax (h.max_eq h2)
  · intro hv
    rcases Multiset.mem_cons.mp hm with he | hm
    · cases he
      exact hset hv
    · exact hmax (h.max_publish v (Multiset.mem_cons_of_mem hm) hv)
  · rw [Memory.flag_init]
    exact h.available_eq

theorem publish (h : SetUp available max m (.access .publish u ::ₘ others)) :
    SetUp available max (m.setFlag u.global 2) (.access .spin u ::ₘ others) := by
  obtain ⟨h1, h0⟩ := h.flag_eq_one (g := u.global) (by simp [Frame.setsUp])
  refine ⟨fun g => ?_, fun g => ?_, fun v hm => ?_, fun h2 => ?_, fun v hm => ?_, ?_⟩
  · rcases eq_or_ne g u.global with rfl | hne
    · rw [Memory.flag_setFlag_self]
    · rw [m.flag_setFlag_of_ne hne]
      exact h.flag_le g
  · have hs := h.settingUp g
    simp only [settingUp_cons, Frame.setsUp, zero_add] at hs ⊢
    rcases eq_or_ne g u.global with rfl | hne
    · simp [h0]
    · rw [m.flag_setFlag_of_ne hne, ← hs, if_neg hne.symm, zero_add]
  · have hm : .access .use v ∈ others := by simpa using hm
    exact h.setFlag_of_use (by omega) 2 hm
  · rcases eq_or_ne Global.maxNumber u.global with he | hne
    · exact h.max_publish u (Multiset.mem_cons_self ..) he.symm
    · rw [m.flag_setFlag_of_ne hne] at h2
      exact h.max_eq h2
  · have hm : .access .publish v ∈ others := by simpa using hm
    exact h.max_publish v (Multiset.mem_cons_of_mem hm)
  · rcases eq_or_ne Global.maxNumber u.global with he | hne
    · rw [he, Memory.flag_setFlag_self]
      exact Or.inl rfl
    · rw [m.flag_setFlag_of_ne hne]
      exact h.available_eq

theorem congr {m' : Memory} (h : SetUp available max m (f ::ₘ others))
    (hflag : m'.flag = m.flag) (hmax : m'.max = m.max) :
    SetUp available max m' (f ::ₘ others) := by
  obtain ⟨hle, hs, hu, hm, hp, ha⟩ := h
  exact ⟨hflag ▸ hle, hflag ▸ hs, hflag ▸ hu, hflag ▸ hmax ▸ hm, hmax ▸ hp, hflag ▸ ha⟩

theorem exec (h : SetUp available max m (f ::ₘ others)) :
    SetUp available max (exec available f m).1 ((exec available f m).2 ::ₘ others) := by
  cases f with
  | caller v =>
    refine h.move (fun g => ?_) (fun u => ?_) fun u => ?_ <;>
      simp only [ThreadIndex.exec] <;> split <;> simp [Frame.setsUp]
  | returns status v =>
    exact h.move (fun _ => rfl) (fun _ he => Frame.noConfusion he) fun _ => Frame.noConfusion
  | access stage u =>
    cases stage with
    | load | spin =>
      simp only [ThreadIndex.exec]
      split
      · exact h.move (fun _ => rfl) (by simp) (by simp)
      · rename_i h2
        refine h.move (fun _ => rfl) (fun v he => ?_) (by simp)
        cases he
        exact not_not.mp h2
    | swap =>
      simp only [ThreadIndex.exec]
      split
      · rename_i h0
        exact h.swap h0
      · exact h.move (fun _ => rfl) (by simp) (by simp)
    | init => exact h.init
    | publish => exact h.publish
    | use =>
      cases u with
      | increment =>
        have h' : SetUp available max m (.access .load (.compare m.counter) ::ₘ others) :=
          h.move (fun _ => rfl) (by simp) (by simp)
        simp only [ThreadIndex.exec]
        exact h'.congr rfl rfl
      | compare index =>
        simp only [ThreadIndex.exec]
        split <;> exact h.move (fun _ => rfl) (by simp) (by simp)
      | decrement =>
        have h' : SetUp available max m (.returns .error uintMax ::ₘ others) :=
          h.move (fun _ => rfl) (by simp) (by simp)
        simp only [ThreadIndex.exec]
        exact h'.congr rfl rfl

end SetUp

/-- The counter is ahead of the indices by the increments that are going to be taken back. -/
structure Counted (max : UInt32) (threads : ℕ) (m : Memory) (fs : Multiset Frame) : Prop
    extends HandsOut max fs where
  card : fs.card = threads
  counter : m.counter.toNat = ((handed max fs).card + inFlight max fs) % UInt32.size
  unused : m.flag .counter ≠ 2 → (handed max fs).card + inFlight max fs = 0

namespace Counted

variable {available max : UInt32} {threads : ℕ} {m m' : Memory} {f f' : Frame}
  {others : Multiset Frame} {u : Use} {index : UInt32}

theorem move (h : Counted max threads m (f ::ₘ others)) (hholds : f'.holds max = f.holds max)
    (hin : f'.inFlight max = f.inFlight max) (hr : f'.Refused max → f.Refused max)
    (hcounter : m'.counter = m.counter)
    (hflag : m'.flag .counter ≠ 2 → m.flag .counter ≠ 2) :
    Counted max threads m' (f' ::ₘ others) := by
  have hh : handed max (f' ::ₘ others) = handed max (f ::ₘ others) := by
    rw [handed_cons, handed_cons, hholds]
  have hi : inFlight max (f' ::ₘ others) = inFlight max (f ::ₘ others) := by
    rw [inFlight_cons, inFlight_cons, hin]
  refine ⟨h.toHandsOut.congr hholds hr, ?_, ?_, fun h2 => ?_⟩
  · rw [← h.card, Multiset.card_cons, Multiset.card_cons]
  · rw [hcounter, hh, hi, h.counter]
  · rw [hh, hi, h.unused (hflag h2)]

/-- A thread on its way to a variable has what it had before. -/
theorem access {stage stage' : Stage} (h : Counted max threads m (.access stage u ::ₘ others))
    (hcounter : m'.counter = m.counter)
    (hflag : m'.flag .counter ≠ 2 → m.flag .counter ≠ 2) :
    Counted max threads m' (.access stage' u ::ₘ others) := by
  refine h.move ?_ ?_ (fun hr => ?_) hcounter hflag
  · cases u <;> rfl
  · cases u <;> rfl
  · rcases hr with hr | ⟨v, hv⟩
    · refine Or.inl ?_
      cases u <;> exact hr
    · cases hv

/-- The value before an increment is the number of threads that have an index or take an
increment back; there are fewer of them than threads. -/
theorem counter_eq (h : Counted max threads m (f ::ₘ others)) (hholds : f.holds max = [])
    (hin : f.inFlight max = 0) (hfit : threads ≤ UInt32.size) :
    m.counter.toNat = (handed max others).card + inFlight max others := by
  have hc := h.counter
  have hle := weights_le max others
  have hcard := h.card
  rw [handed_cons, inFlight_cons, hholds, hin, Multiset.coe_nil, zero_add, zero_add] at hc
  rw [Multiset.card_cons] at hcard
  rw [hc, Nat.mod_eq_of_lt (by omega)]

/-- What the other threads have got, where the thread that is executed has nothing. -/
theorem others_handOut (h : Counted max threads m (f ::ₘ others))
    (hholds : f.holds max = []) : HandsOut max others := by
  have hh : handed max (f ::ₘ others) = handed max others := by
    rw [handed_cons, hholds, Multiset.coe_nil, zero_add]
  refine ⟨hh ▸ h.handed_eq, hh ▸ h.card_le, fun g hg hr => ?_⟩
  rw [← hh]
  exact h.refused g (Multiset.mem_cons_of_mem hg) hr

/-- An increment in flight means that all indices are handed out. -/
theorem full (h : Counted max threads m (f ::ₘ others)) (hholds : f.holds max = [])
    (hi : inFlight max others ≠ 0) : (handed max others).card = max.toNat := by
  obtain ⟨g, hg, hr⟩ := exists_inFlight hi
  exact (h.others_handOut hholds).refused g hg hr

/-- An old value below the maximum is the next index. -/
theorem increment_below (h : Counted max threads m (.access .use .increment ::ₘ others))
    (hfit : threads ≤ UInt32.size) (hlt : m.counter < max) :
    HandsOut max (.access .load (.compare m.counter) ::ₘ others) := by
  have ho := h.others_handOut rfl
  have hc := h.counter_eq rfl rfl hfit
  have hlt' := UInt32.lt_iff_toNat_lt.mp hlt
  have hi : inFlight max others = 0 := by
    by_contra hi
    have := h.full rfl hi
    omega
  have hh : handed max (.access .load (.compare m.counter) ::ₘ others) =
      Multiset.range ((handed max others).card + 1) := by
    rw [handed_cons, Frame.holds, if_pos hlt, hc, hi, Multiset.range_succ, ← ho.handed_eq]
    rfl
  refine ⟨?_, ?_, fun g hg hr => ?_⟩
  · rw [hh, Multiset.card_range]
  · rw [hh, Multiset.card_range]
    omega
  · rcases Multiset.mem_cons.mp hg with rfl | hg
    · simp [Frame.Refused, Frame.inFlight, hlt] at hr
    · have := ho.refused g hg hr
      omega

/-- An old value from the maximum on means that all indices are handed out. -/
theorem increment_beyond (h : Counted max threads m (.access .use .increment ::ₘ others))
    (hfit : max = 0 ∨ threads ≤ UInt32.size) (hge : ¬ m.counter < max) :
    HandsOut max (.access .load (.compare m.counter) ::ₘ others) := by
  have ho := h.others_handOut rfl
  have hle := ho.card_le
  have hall : (handed max others).card = max.toNat := by
    by_cases hi : inFlight max others = 0
    · rcases hfit with rfl | hfit
      · exact Nat.le_zero.mp hle
      · have hc := h.counter_eq rfl rfl hfit
        rw [UInt32.not_lt, UInt32.le_iff_toNat_le] at hge
        omega
    · exact h.full rfl hi
  have hh : handed max (.access .load (.compare m.counter) ::ₘ others) = handed max others := by
    rw [handed_cons, Frame.holds, if_neg hge, Multiset.coe_nil, zero_add]
  refine ⟨?_, ?_, fun _ _ _ => ?_⟩
  · rw [hh, ← ho.handed_eq]
  · rw [hh]
    exact hle
  · rw [hh, hall]

theorem increment (h : Counted max threads m (.access .use .increment ::ₘ others))
    (hfit : max = 0 ∨ threads ≤ UInt32.size) (h2 : m.flag .counter = 2) :
    Counted max threads { m with counter := m.counter + 1 }
      (.access .load (.compare m.counter) ::ₘ others) := by
  have hcounter := h.counter
  have hsum : (handed max (.access .load (.compare m.counter) ::ₘ others)).card +
      inFlight max (.access .load (.compare m.counter) ::ₘ others) =
        (handed max others).card + inFlight max others + 1 := by
    simp only [handed_cons, inFlight_cons, Frame.holds, Frame.inFlight]
    split <;> simp <;> omega
  refine ⟨?_, ?_, ?_, fun hne => absurd h2 hne⟩
  · by_cases hlt : m.counter < max
    · refine h.increment_below (hfit.resolve_left ?_) hlt
      rintro rfl
      exact UInt32.not_lt_zero hlt
    · exact h.increment_beyond hfit hlt
  · rw [← h.card, Multiset.card_cons, Multiset.card_cons]
  · rw [hsum, UInt32.toNat_add, hcounter]
    simp [handed_cons, inFlight_cons, Frame.holds, Frame.inFlight]

/-- The increment is taken back, and the thread stays refused. -/
theorem decrement (h : Counted max threads m (.access .use .decrement ::ₘ others)) :
    Counted max threads { m with counter := m.counter + (-1) }
      (.returns .error uintMax ::ₘ others) := by
  have hcounter := h.counter
  have hin : inFlight max (.access .use .decrement ::ₘ others) =
      inFlight max (.returns .error uintMax ::ₘ others) + 1 := by
    simp only [inFlight_cons, Frame.inFlight]
    omega
  have hh : handed max (.returns .error uintMax ::ₘ others) =
      handed max (.access .use .decrement ::ₘ others) := by
    rw [handed_cons, handed_cons]
    rfl
  refine ⟨h.toHandsOut.congr rfl fun _ => Or.inl Nat.one_ne_zero, ?_, ?_, fun hne => ?_⟩
  · rw [← h.card, Multiset.card_cons, Multiset.card_cons]
  · have hneg : (-1 : UInt32).toNat = 4294967295 := rfl
    rw [hin] at hcounter
    rw [UInt32.toNat_add, hcounter, hneg, hh]
    simp only [UInt32.size]
    omega
  · have := h.unused hne
    omega

/-- The counter is zero before anybody has incremented it, so that setting it up changes
nothing. -/
theorem init (h : Counted max threads m (.access .init u ::ₘ others))
    (h2 : m.flag u.global ≠ 2) :
    Counted max threads (m.init available u.global) (.access .publish u ::ₘ others) := by
  refine h.access ?_ fun hne => by rwa [Memory.flag_init] at hne
  cases hg : u.global with
  | maxNumber => rfl
  | counter =>
    have hc := h.counter
    rw [h.unused (hg ▸ h2)] at hc
    exact (UInt32.toNat_inj.mp hc).symm

theorem setFlag {stage stage' : Stage} {v : ℕ}
    (h : Counted max threads m (.access stage u ::ₘ others)) (h2 : m.flag u.global ≠ 2) :
    Counted max threads (m.setFlag u.global v) (.access stage' u ::ₘ others) := by
  refine h.access rfl fun hne => ?_
  rcases eq_or_ne Global.counter u.global with he | hn
  · exact he ▸ h2
  · rwa [m.flag_setFlag_of_ne hn] at hne

/-- With the maximum read, the thread has an index or is refused. -/
theorem compare (h : Counted max threads m (.access .use (.compare index) ::ₘ others)) :
    Counted max threads m ((if index ≥ max then .access .load .decrement
      else .returns .success index) ::ₘ others) := by
  split
  · rename_i hge
    have hn : ¬ index < max := UInt32.not_lt.mpr hge
    refine h.move ?_ ?_ (fun _ => Or.inl ?_) rfl id
    · simp [Frame.holds, hn]
    · simp [Frame.inFlight, hn]
    · simp [Frame.inFlight, hn]
  · rename_i hn
    have hlt : index < max := UInt32.not_le.mp hn
    have hne : index ≠ uintMax := by
      rintro rfl
      have h1 := UInt32.lt_iff_toNat_lt.mp hlt
      have h2 := max.toNat_lt_size
      simp only [uintMax, UInt32.size, UInt32.reduceToNat] at h1 h2
      omega
    refine h.move ?_ ?_ (fun hr => ?_) rfl id
    · simp [Frame.holds, hlt, hne]
    · simp [Frame.inFlight, hlt]
    · simp [Frame.Refused, Frame.inFlight] at hr

theorem exec (hs : SetUp available max m (f ::ₘ others))
    (h : Counted max threads m (f ::ₘ others)) (hfit : max = 0 ∨ threads ≤ UInt32.size) :
    Counted max threads (exec available f m).1 ((exec available f m).2 ::ₘ others) := by
  cases f with
  | caller v =>
    simp only [ThreadIndex.exec]
    split
    · rename_i hv
      subst hv
      exact h.move rfl rfl (by simp [Frame.Refused, Frame.inFlight]) rfl id
    · exact h.move rfl rfl (by simp [Frame.Refused, Frame.inFlight]) rfl id
  | returns status v =>
    simp only [ThreadIndex.exec]
    exact h.move rfl rfl (by simp [Frame.Refused, Frame.inFlight]) rfl id
  | access stage u =>
    cases stage with
    | load | spin => exact h.access rfl id
    | swap =>
      simp only [ThreadIndex.exec]
      split
      · exact h.setFlag (by omega)
      · exact h.access rfl id
    | init =>
      obtain ⟨h1, -⟩ := hs.flag_eq_one (g := u.global) (by simp [Frame.setsUp])
      exact h.init (by omega)
    | publish =>
      obtain ⟨h1, -⟩ := hs.flag_eq_one (g := u.global) (by simp [Frame.setsUp])
      exact h.setFlag (by omega)
    | use =>
      have h2 := hs.of_use u (Multiset.mem_cons_self ..)
      cases u with
      | increment => exact h.increment hfit h2
      | compare index =>
        simp only [ThreadIndex.exec, hs.max_eq h2]
        exact h.compare
      | decrement => exact h.decrement

end Counted

section Runs

variable {available : UInt32} {set : Option UInt32} {threads : ℕ}

theorem frames_boot :
    (boot set threads).frames = Multiset.replicate threads (.caller uintMax) := by
  rw [State.frames, boot, List.flatten_replicate_singleton]
  rfl

theorem weights_boot (set : Option UInt32) (threads : ℕ) (max : UInt32) (g : Global) :
    handed max (boot set threads).frames = 0 ∧ inFlight max (boot set threads).frames = 0 ∧
      settingUp g (boot set threads).frames = 0 := by
  rw [frames_boot]
  induction threads with
  | zero => exact ⟨rfl, rfl, rfl⟩
  | succ n ih =>
    rw [Multiset.replicate_succ, handed_cons, inFlight_cons, settingUp_cons, ih.1, ih.2.1,
      ih.2.2]
    exact ⟨rfl, rfl, rfl⟩

theorem mem_boot {f : Frame} (h : f ∈ (boot set threads).frames) : f = .caller uintMax := by
  rw [frames_boot] at h
  exact Multiset.eq_of_mem_replicate h

theorem flag_boot (set : Option UInt32) (threads : ℕ) (g : Global) :
    (boot set threads).mem.flag g = 0 ∨ (boot set threads).mem.flag g = 2 := by
  simp only [boot]
  split
  · exact Or.inr rfl
  · exact Or.inl rfl

theorem setUp_boot : SetUp available (maximum available set) (boot set threads).mem
    (boot set threads).frames := by
  refine ⟨fun g => ?_, fun g => ?_, fun u hu => ?_, fun h2 => ?_, fun u hu => ?_, ?_⟩
  · rcases flag_boot set threads g with h | h <;> omega
  · rw [(weights_boot set threads 0 g).2.2, if_neg]
    rcases flag_boot set threads g with h | h <;> omega
  · cases mem_boot hu
  · cases set with
    | none => simp [boot] at h2
    | some max => rfl
  · cases mem_boot hu
  · cases set with
    | none => exact Or.inr rfl
    | some max => exact Or.inl (by simp [boot])

theorem counted_boot : Counted (maximum available set) threads (boot set threads).mem
    (boot set threads).frames := by
  obtain ⟨hh, hi, -⟩ :=
    weights_boot set threads (maximum available set) .counter
  refine ⟨⟨?_, ?_, fun f hf hr => ?_⟩, ?_, ?_, fun _ => ?_⟩
  · rw [hh]
    rfl
  · rw [hh]
    exact Nat.zero_le _
  · cases mem_boot hf
    simp [Frame.Refused, Frame.inFlight] at hr
  · rw [frames_boot, Multiset.card_replicate]
  · rw [hh, hi]
    rfl
  · rw [hh, hi]
    rfl

theorem handsOut_run (hfit : maximum available set = 0 ∨ threads ≤ UInt32.size)
    (es : List (ℕ × Unit)) :
    HandsOut (maximum available set) (run (code available) (boot set threads) es).frames := by
  have hpres : Preserves (code available) (fun _ _ _ _ _ => True) fun m fs =>
      SetUp available (maximum available set) m fs ∧
        Counted (maximum available set) threads m fs := by
    intro t c f m others h _
    exact ⟨h.1.exec, h.2.exec h.1 hfit⟩
  exact (hpres.run (Always.of_forall (fun _ _ _ _ _ => trivial) _ es)
    ⟨setUp_boot, counted_boot⟩).2.toHandsOut

/-- What the steps of one thread do while the others wait. -/
abbrev alone (available : UInt32) (p : Memory × Frame) : Memory × Frame := exec available p.2 p.1

/-- A thread that is alone comes to its increment; the first one sets the counter up. -/
theorem exists_turn (available : UInt32) {m : Memory}
    (h : m.flag .counter = 2 ∨ m.flag .counter = 0 ∧ m.counter = 0) :
    ∃ n, ((alone available)^[n] (m, .caller uintMax)).2 =
        .access .load (.compare m.counter) ∧
      ((alone available)^[n] (m, .caller uintMax)).1.counter = m.counter + 1 ∧
      ((alone available)^[n] (m, .caller uintMax)).1.flag .counter = 2 := by
  rcases h with h2 | ⟨h0, hc⟩
  · refine ⟨3, ?_⟩
    simp [alone, exec, Use.global, h2]
  · refine ⟨7, ?_⟩
    simp [alone, exec, Use.global, h0, hc, Memory.init]

/-- After their increments in turn, each thread has the value of its turn. -/
theorem exists_turns (available : UInt32) (set : Option UInt32) (k : ℕ) (hk : k ≤ threads) :
    ∃ es, (run (code available) (boot set threads) es).mem.counter = UInt32.ofNat k ∧
      (∀ t < k, (run (code available) (boot set threads) es).top t =
        some (.access .load (.compare (UInt32.ofNat t)))) ∧
      (∀ t, k ≤ t → t < threads →
        (run (code available) (boot set threads) es).top t = some (.caller uintMax)) ∧
      (run (code available) (boot set threads) es).mem.flag .counter = if k = 0 then 0 else 2 := by
  induction k with
  | zero =>
    refine ⟨[], rfl, fun t ht => absurd ht (Nat.not_lt_zero t), fun t _ ht => ?_, rfl⟩
    rw [run_nil, State.top, boot, List.getElem?_replicate_of_lt ht]
    rfl
  | succ k ih =>
    obtain ⟨es, hcounter, hdone, hwait, hflag⟩ := ih (Nat.le_of_succ_le hk)
    have hready : (run (code available) (boot set threads) es).mem.flag .counter = 2 ∨
        (run (code available) (boot set threads) es).mem.flag .counter = 0 ∧
          (run (code available) (boot set threads) es).mem.counter = 0 := by
      rw [hflag, hcounter]
      rcases Nat.eq_zero_or_pos k with rfl | hpos
      · exact Or.inr ⟨rfl, rfl⟩
      · exact Or.inl (if_neg hpos.ne')
    obtain ⟨n, hframe, hnext, hset⟩ := exists_turn available hready
    have hjump : ∀ t f m, code available t () f m =
        ((alone available (m, f)).1, [(alone available (m, f)).2]) := fun _ _ _ => rfl
    obtain ⟨hm, ht, hne⟩ := run_alone hjump (hwait k le_rfl hk) n
    refine ⟨es ++ List.replicate n (k, ()), ?_, fun t htk => ?_, fun t htk htt => ?_, ?_⟩
    · rw [run_append, hm, hnext, hcounter, UInt32.ofNat_add]
      rfl
    · rw [run_append]
      rcases Nat.lt_succ_iff_lt_or_eq.mp htk with hlt | rfl
      · rw [hne t hlt.ne', hdone t hlt]
      · rw [ht, hframe, hcounter]
    · rw [run_append, hne t (by omega)]
      exact hwait t (by omega) htt
    · rw [run_append, hm, hset]
      rfl

/-- With more threads than values of the counter, the index 0 is handed out again. -/
theorem index_repeated (available : UInt32) (set : Option UInt32) (threads : ℕ)
    (hmax : maximum available set ≠ 0) (hlt : UInt32.size < threads) :
    ∃ es, 2 ≤ (handed (maximum available set)
      (run (code available) (boot set threads) es).frames).count 0 := by
  obtain ⟨es, -, hdone, -⟩ := exists_turns available set (UInt32.size + 1) hlt
  have h0 := hdone 0 (Nat.succ_pos _)
  have h1 := hdone UInt32.size (Nat.lt_succ_self _)
  have hzero : UInt32.ofNat UInt32.size = UInt32.ofNat 0 := rfl
  rw [hzero] at h1
  obtain ⟨others, hfr⟩ := State.frames_of_tops (by decide) h0 h1
  have hholds : (Frame.access .load (.compare (UInt32.ofNat 0))).holds
      (maximum available set) = [0] :=
    if_pos (UInt32.pos_iff_ne_zero.mpr hmax)
  refine ⟨es, ?_⟩
  rw [hfr, handed_cons, handed_cons, hholds, ← add_assoc, Multiset.count_add]
  exact Nat.le_add_right 2 _

/-- Indices that are handed out are different. -/
theorem HandsOut.count_le_one {max : UInt32} {fs : Multiset Frame} (h : HandsOut max fs)
    (index : ℕ) : (handed max fs).count index ≤ 1 := by
  rw [h.handed_eq]
  exact Multiset.nodup_iff_count_le_one.mp (Multiset.nodup_range _) index

/-- In every run the threads get different indices, the first ones and not more than the maximum,
and none is refused while there are indices left, if and only if there is no index at all or the
counter has a value for each thread. -/
theorem thread_indices_iff (available : UInt32) (set : Option UInt32) (threads : ℕ) :
    (∀ es, HandsOut (maximum available set)
      (run (code available) (boot set threads) es).frames) ↔
        maximum available set = 0 ∨ threads ≤ UInt32.size := by
  refine ⟨fun h => ?_, fun hfit es => handsOut_run hfit es⟩
  by_contra hn
  obtain ⟨hmax, hlt⟩ := not_or.mp hn
  obtain ⟨es, htwo⟩ := index_repeated available set threads hmax (Nat.lt_of_not_le hlt)
  have hone := (h es).count_le_one 0
  omega

/-- With the largest maximum, the last of 2 ^ 32 + 1 threads gets the index of the first one. -/
theorem thread_index_repeated : ∃ es,
    2 ≤ (handed (maximum 4 (some 4294967295))
      (run (code 4) (boot (some 4294967295) 4294967297) es).frames).count 0 ∧
    ¬ HandsOut (maximum 4 (some 4294967295))
      (run (code 4) (boot (some 4294967295) 4294967297) es).frames := by
  obtain ⟨es, htwo⟩ := index_repeated 4 (some 4294967295) 4294967297 (by decide) (by decide)
  refine ⟨es, htwo, fun h => ?_⟩
  have hone := h.count_le_one 0
  omega

end Runs

end Embb.Base.ThreadIndex
