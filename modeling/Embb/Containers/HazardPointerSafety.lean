import Embb.Containers.HazardPointer
import Embb.Lib.Threads

/-!
# Threads that use hazard pointers

Any number of threads use a hazard pointer object to share pointers: they read and write
shared locations, guard what they have read and read it again, and retire what they have
unlinked. Pointers that are freed may be allocated again.
-/

namespace Embb.Containers.HazardPointerSafety

open Threads HazardPointer

variable {N : Type}

/-- The entries, the locations through which pointers are shared, which pointers can be
allocated and which are allocated and not retired; for the statements, the guards that were
found valid, and those for which this was so when their pointer was retired. -/
structure Memory (N : Type) where
  hazards : Hazards N
  shared : ℕ → Option N
  available : N → Bool
  usable : N → Bool
  validated : ℕ → ℕ → Bool
  held : ℕ → ℕ → Bool

/-- What a thread outside the functions of the hazard pointer object does next. -/
inductive Choice (N : Type)
  /-- Call `GuardPointer`. -/
  | guardPointer (pos : ℕ) (pointer : Option N)
  /-- Read a shared location again after setting a guard. -/
  | validate (pos location : ℕ)
  /-- Store to a shared location. -/
  | write (location : ℕ) (pointer : Option N)
  | allocate (pointer : N)
  /-- Call `EnqueuePointerForDeletion`. -/
  | retire (pointer : N)
  /-- Call `DeactivateCurrentThread`. -/
  | deactivate
  deriving DecidableEq

section Model

variable [DecidableEq N]

/-- A step of a thread outside the functions of the hazard pointer object. -/
def client (z : Sizes) (t : ℕ) (c : Choice N) (m : Memory N) : Memory N × Frame N :=
  match c with
  | .guardPointer pos pointer =>
    if pos < z.guardsPerThread then
      ({ m with
          hazards := guardPointer t pos pointer m.hazards
          validated := Function.update m.validated t
            (Function.update (m.validated t) pos false)
          held := Function.update m.held t (Function.update (m.held t) pos false) }, .client)
    else (m, .client)
  | .validate pos location =>
    if m.shared location = m.hazards.guardedPointers t pos then
      ({ m with
          validated := Function.update m.validated t
            (Function.update (m.validated t) pos true) }, .client)
    else (m, .client)
  | .write location pointer =>
    ({ m with shared := Function.update m.shared location pointer }, .client)
  | .allocate pointer =>
    if m.available pointer = true then
      ({ m with
          available := Function.update m.available pointer false
          usable := Function.update m.usable pointer true }, .client)
    else (m, .client)
  | .retire pointer =>
    ({ m with
        hazards := addRetired z t pointer m.hazards
        usable := Function.update m.usable pointer false
        held := fun j s => m.held j s ||
          (decide (m.hazards.guardedPointers j s = some pointer) && m.validated j s) },
      .threshold)
  | .deactivate => (m, .deactivate)

/-- What `free_guard_callback` does: the pointer can be allocated again. -/
def freed (f : Frame N) (available : N → Bool) : N → Bool :=
  match f with
  | .scanFree _ _ pointer => Function.update available pointer true
  | _ => available

/-- One step of thread `t`. -/
def next (z : Sizes) (t : ℕ) (c : Choice N) (f : Frame N) (m : Memory N) :
    Memory N × Frame N :=
  match f with
  | .client => client z t c m
  | f =>
    ({ m with hazards := (exec z t f m.hazards).1, available := freed f m.available },
      (exec z t f m.hazards).2)

/-- The program of every thread. -/
def code (z : Sizes) : Code (Memory N) (Frame N) (Choice N) := fun t c f m =>
  ((next z t c f m).1, [(next z t c f m).2])

end Model

/-- A new hazard pointer object, one thread for each entry, and pointers still to be
allocated. -/
def boot (z : Sizes) (temp : ℕ → List N) (shared : ℕ → Option N) :
    State (Memory N) (Frame N) where
  mem :=
    { hazards := create z temp
      shared := shared
      available := fun _ => true
      usable := fun _ => false
      validated := fun _ _ => false
      held := fun _ _ => false }
  callStacks := List.replicate z.hazardPointers [.client]

/-- Each pointer is retired at most once between allocations. -/
def RetiredOnce : Guard (Memory N) (Frame N) (Choice N) := fun _ c f m _ =>
  f = .client → ∀ p, c = .retire p → m.usable p = true

/-- A thread that has left neither retires pointers nor leaves again. -/
def NotAfterLeaving : Guard (Memory N) (Frame N) (Choice N) := fun t c f m _ =>
  f = .client → (∃ p, c = .retire p) ∨ c = .deactivate → m.hazards.left t = false

/-- The entries keep their invariant; a pointer that can be used or allocated is not retired;
a guard that was found valid before its pointer was retired was also set before that. -/
structure Inv (z : Sizes) (m : Memory N) (pc : ℕ → Frame N) : Prop where
  hazards : HazardPointer.Inv z m.hazards pc
  usable : ∀ p, m.usable p = true → m.available p = false ∧ m.hazards.pending p = none
  available : ∀ p, m.available p = true → m.hazards.pending p = none
  held : ∀ j s, m.held j s = true → m.hazards.early j s = true

section Preserved

variable [DecidableEq N] {z : Sizes} {m : Memory N} {pc : ℕ → Frame N} {t : ℕ}

/-- Only a free makes pointers available. -/
theorem freed_of_ne {f : Frame N} (hf : ∀ helped it p, f ≠ .scanFree helped it p)
    (available : N → Bool) : freed f available = available := by
  cases f with
  | scanFree helped it p => exact absurd rfl (hf helped it p)
  | _ => rfl

namespace Inv

/-- A step outside the functions of the hazard pointer object. -/
theorem client (hI : Inv z m pc) {c : Choice N} (hc : pc t = .client)
    (hr : ∀ p, c = .retire p → m.usable p = true)
    (hl : (∃ p, c = .retire p) ∨ c = .deactivate → m.hazards.left t = false) :
    Inv z (client z t c m).1 (Function.update pc t (client z t c m).2) := by
  have hsame : Function.update pc t .client = pc := by
    rw [← hc]
    exact Function.update_eq_self t pc
  cases c with
  | guardPointer pos p =>
    rw [HazardPointerSafety.client]
    split
    · simp only
      rw [hsame]
      refine ⟨hI.hazards.guardPointer t pos p, hI.usable, hI.available, fun j s hh => ?_⟩
      simp only [guardPointer] at hh ⊢
      rcases eq_or_ne j t with rfl | hj
      · rw [Function.update_self] at hh ⊢
        rcases eq_or_ne s pos with rfl | hs
        · rw [Function.update_self] at hh
          cases hh
        · rw [Function.update_of_ne hs] at hh ⊢
          exact hI.held j s hh
      · rw [Function.update_of_ne hj] at hh ⊢
        exact hI.held j s hh
    · simp only
      rw [hsame]
      exact hI
  | validate pos location =>
    rw [HazardPointerSafety.client]
    split
    · simp only
      rw [hsame]
      exact ⟨hI.hazards, hI.usable, hI.available, hI.held⟩
    · simp only
      rw [hsame]
      exact hI
  | write location p =>
    simp only [HazardPointerSafety.client]
    rw [hsame]
    exact ⟨hI.hazards, hI.usable, hI.available, hI.held⟩
  | allocate p =>
    rw [HazardPointerSafety.client]
    split
    · rename_i hp
      simp only
      rw [hsame]
      refine ⟨hI.hazards, fun q hq => ?_, fun q hq => ?_, hI.held⟩
      · simp only at hq ⊢
        rcases eq_or_ne q p with rfl | hne
        · exact ⟨Function.update_self .., hI.available q hp⟩
        · rw [Function.update_of_ne hne] at hq ⊢
          exact hI.usable q hq
      · simp only at hq
        rcases eq_or_ne q p with rfl | hne
        · exact hI.available q hp
        · rw [Function.update_of_ne hne] at hq
          exact hI.available q hq
    · simp only
      rw [hsame]
      exact hI
  | retire p =>
    obtain ⟨hunavailable, hpending⟩ := hI.usable p (hr p rfl)
    have hkept : ∀ {q}, q ≠ p → (addRetired z t p m.hazards).pending q = m.hazards.pending q :=
      fun hne => Function.update_of_ne hne _ _
    refine ⟨hI.hazards.retire hc (hl (Or.inl ⟨p, rfl⟩)) hpending, fun q hq => ?_, fun q hq => ?_,
      fun j s hh => ?_⟩
    · have hne : q ≠ p := by
        rintro rfl
        have hq' : Function.update m.usable q false q = true := hq
        rw [Function.update_self] at hq'
        cases hq'
      have hq' : m.usable q = true := (Function.update_of_ne hne _ _).symm.trans hq
      exact ⟨(hI.usable q hq').1, (hkept hne).trans (hI.usable q hq').2⟩
    · have hq' : m.available q = true := hq
      have hne : q ≠ p := by
        rintro rfl
        rw [hunavailable] at hq'
        cases hq'
      exact (hkept hne).trans (hI.available q hq')
    · have hh' : (m.held j s || (decide (m.hazards.guardedPointers j s = some p) &&
          m.validated j s)) = true := hh
      show (m.hazards.early j s || decide (m.hazards.guardedPointers j s = some p)) = true
      rw [Bool.or_eq_true, Bool.and_eq_true] at hh'
      rw [Bool.or_eq_true]
      exact hh'.imp (hI.held j s) And.left
  | deactivate =>
    exact ⟨hI.hazards.deactivate hc (hl (Or.inr rfl)), hI.usable, hI.available, hI.held⟩

/-- Every step of a thread keeps the invariant. -/
theorem next (hI : Inv z m pc) {c : Choice N}
    (hr : pc t = .client → ∀ p, c = .retire p → m.usable p = true)
    (hl : pc t = .client → (∃ p, c = .retire p) ∨ c = .deactivate → m.hazards.left t = false) :
    Inv z (next z t c (pc t) m).1 (Function.update pc t (next z t c (pc t) m).2) := by
  by_cases hc : pc t = .client
  · rw [hc]
    exact hI.client hc (hr hc) (hl hc)
  · have hnext : HazardPointerSafety.next z t c (pc t) m =
        ({ m with
            hazards := (exec z t (pc t) m.hazards).1
            available := freed (pc t) m.available }, (exec z t (pc t) m.hazards).2) := by
      unfold HazardPointerSafety.next
      split
      · rename_i hc'
        exact absurd hc' hc
      · rfl
    rw [hnext]
    refine ⟨hI.hazards.exec t, ?_, ?_, fun j s hh => ?_⟩
    · intro p hp
      obtain ⟨h1, h2⟩ := hI.usable p hp
      by_cases hf : ∃ helped it q, pc t = .scanFree helped it q
      · obtain ⟨helped, it, q, hf⟩ := hf
        have hq := hI.hazards.pending_of_free hf
        have hne : p ≠ q := by
          rintro rfl
          rw [h2] at hq
          cases hq
        simp only [hf]
        exact ⟨(Function.update_of_ne hne _ _).trans h1, (Function.update_of_ne hne _ _).trans h2⟩
      · have hne : ∀ helped it q, pc t ≠ .scanFree helped it q :=
          fun helped it q he => hf ⟨helped, it, q, he⟩
        simp only [exec_pending m.hazards hne, freed_of_ne hne]
        exact ⟨h1, h2⟩
    · intro p hp
      by_cases hf : ∃ helped it q, pc t = .scanFree helped it q
      · obtain ⟨helped, it, q, hf⟩ := hf
        simp only [hf] at hp ⊢
        rcases eq_or_ne p q with rfl | hne
        · exact Function.update_self ..
        · have hp' : m.available p = true := (Function.update_of_ne hne _ _).symm.trans hp
          exact (Function.update_of_ne hne _ _).trans (hI.available p hp')
      · have hne : ∀ helped it q, pc t ≠ .scanFree helped it q :=
          fun helped it q he => hf ⟨helped, it, q, he⟩
        simp only [exec_pending m.hazards hne, freed_of_ne hne] at hp ⊢
        exact hI.available p hp
    · simp only [(exec_guards z t (pc t) m.hazards).2]
      exact hI.held j s hh

end Inv

omit [DecidableEq N] in
theorem inv_boot (z : Sizes) (temp : ℕ → List N) (shared : ℕ → Option N) :
    Inv z (boot z temp shared).mem ((boot z temp shared).pc .client) := by
  have hpc : (boot z temp shared).pc .client = fun _ => .client := by
    ext t
    rw [State.pc, State.top, boot, List.getElem?_replicate]
    split <;> rfl
  rw [hpc]
  exact ⟨inv_create z temp, fun _ h => (by cases h), fun _ _ => rfl, fun _ _ h => (by cases h)⟩

end Preserved

section Runs

/-- A test for steps that retire only pointers that may be retired. -/
def retiresUsable {N : Type} (_ : ℕ) (c : Choice N) (_ : Frame N) (m : Memory N) : Bool :=
  match c with
  | .retire p => m.usable p
  | _ => true

theorem retiredOnce_of_usable {N : Type} (t : ℕ) (c : Choice N) (f : Frame N) (m : Memory N)
    (fs : Multiset (Frame N)) (h : retiresUsable t c f m = true) : RetiredOnce t c f m fs := by
  rintro - p rfl
  exact h

/-- A test for steps that do not leave. -/
def stays {N : Type} (t : ℕ) (_ : Choice N) (_ : Frame N) (m : Memory N) : Bool :=
  !m.hazards.left t

theorem notAfterLeaving_of_stays {N : Type} (t : ℕ) (c : Choice N) (f : Frame N) (m : Memory N)
    (fs : Multiset (Frame N)) (h : stays t c f m = true) : NotAfterLeaving t c f m fs :=
  fun _ _ => (Bool.not_eq_true' _).mp h

/-- Steps inside the functions, for which nothing is to be chosen. -/
def goOn (t n : ℕ) : List (ℕ × Choice ℕ) := List.replicate n (t, .write 1 none)

/-- A thread on its own retires two pointers and is about to free the first. -/
def retireTwo : List (ℕ × Choice ℕ) :=
  [(0, .allocate 5), (0, .allocate 6), (0, .retire 5)] ++ goOn 0 1 ++ [(0, .retire 6)] ++ goOn 0 8

end Runs

end Embb.Containers.HazardPointerSafety
