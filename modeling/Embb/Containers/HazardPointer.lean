import Mathlib.Algebra.Ring.Nat
import Mathlib.Data.List.Nodup
import Mathlib.Logic.Function.Basic

/-!
# Hazard pointers

Each thread has an entry with its guards and its list of retired pointers. `Scan` collects
the guards of all active entries one after the other and frees the retired pointers that it
has not seen guarded. `HelpScan` does this for the entries of threads that have left, which
it reserves by their active flag.

A step is one access to an entry. The invariant is about a single scan: a guard that was set
on a pointer before this was retired is either not read yet or in the list of the scan.
-/

namespace Embb.Containers.HazardPointer

/-- The sizes of a hazard pointer object: entries and guards of an entry. -/
structure Sizes where
  hazardPointers : ℕ
  guardsPerThread : ℕ
  deriving DecidableEq, Repr

/-- `RETIRE_THRESHOLD` is 1.25. -/
def Sizes.getRetiredListMaxSize (z : Sizes) : ℕ :=
  5 * (z.hazardPointers * z.guardsPerThread) / 4 + 1

/-- `PushBack` of a list of fixed size. -/
def pushBack {N : Type} (maxSize : ℕ) (l : List N) (el : N) : List N :=
  if l.length + 1 > maxSize then l else l ++ [el]

/-- The entries, the count of active ones, and for the statements: which pointers are retired
and not freed, and on which entry; which guards were set before their pointer was retired;
and which threads have left. -/
structure Hazards (N : Type) where
  isActive : ℕ → Bool
  guardedPointers : ℕ → ℕ → Option N
  retiredList : ℕ → List N
  retiredListTemp : ℕ → List N
  hazardPointerListTemp : ℕ → List N
  activeHazardPointer : ℕ
  pending : N → Option ℕ
  early : ℕ → ℕ → Bool
  left : ℕ → Bool

/-- Where a thread is. A scan belongs to the entry of the thread itself or to the one that it
helps. -/
inductive Frame (N : Type)
  /-- Outside the functions of the hazard pointer object. -/
  | client
  /-- At `IsThresholdExceeded`. -/
  | threshold
  /-- At the beginning of `Scan`. -/
  | scan (helped : Option ℕ)
  /-- About to read the active flag of entry `i`. -/
  | scanEntry (helped : Option ℕ) (i : ℕ)
  /-- About to read the guard `pos` of entry `i`. -/
  | scanGuard (helped : Option ℕ) (i pos : ℕ)
  /-- About to clear the temporary retired list. -/
  | scanClear (helped : Option ℕ)
  /-- About to look for retired pointer `it` among the guards. -/
  | scanSearch (helped : Option ℕ) (it : ℕ)
  /-- About to call `free_guard_callback`. -/
  | scanFree (helped : Option ℕ) (it : ℕ) (pointer : N)
  /-- About to set the retired list. -/
  | scanSet (helped : Option ℕ)
  /-- `HelpScan`, about to read the active flag of entry `i`. -/
  | help (i : ℕ)
  | helpReserve (i : ℕ)
  /-- About to read the size of the retired list of the entry reserved. -/
  | helpCount (i : ℕ)
  | helpDeactivate (i : ℕ)
  /-- `DeactivateCurrentThread`, about to read the active flag. -/
  | deactivate
  | deactivateSet
  | deactivateRead
  | deactivateCount (activeHazardPointer : ℕ)
  deriving DecidableEq

variable {N : Type}

/-- The entry that a scan of a thread is for. -/
def entry (t : ℕ) (helped : Option ℕ) : ℕ := helped.getD t

/-- `IsThresholdExceeded` for a number of retired pointers. -/
def isThresholdExceeded (z : Sizes) (activeHazardPointer retired : ℕ) : Prop :=
  5 * (activeHazardPointer * z.guardsPerThread) ≤ 4 * retired

instance (z : Sizes) (a r : ℕ) : Decidable (isThresholdExceeded z a r) :=
  inferInstanceAs (Decidable (_ ≤ _))

/-- The decrement of a `size_t` of 64 bits. -/
def decrement (n : ℕ) : ℕ := if n = 0 then 2 ^ 64 - 1 else n - 1

section Model

variable [DecidableEq N]

/-- The store of `GuardPointer`. -/
def guardPointer (t pos : ℕ) (pointerToGuard : Option N) (h : Hazards N) : Hazards N :=
  { h with
    guardedPointers := Function.update h.guardedPointers t
      (Function.update (h.guardedPointers t) pos pointerToGuard)
    early := Function.update h.early t (Function.update (h.early t) pos false) }

/-- `AddRetired`, with which `EnqueuePointerForDeletion` begins. -/
def addRetired (z : Sizes) (t : ℕ) (pointerToGuard : N) (h : Hazards N) : Hazards N :=
  { h with
    retiredList := Function.update h.retiredList t
      (pushBack z.getRetiredListMaxSize (h.retiredList t) pointerToGuard)
    pending := Function.update h.pending pointerToGuard (some t)
    early := fun j s => h.early j s || decide (h.guardedPointers j s = some pointerToGuard) }

/-- One step of thread `t` inside the functions of the hazard pointer object. -/
def exec (z : Sizes) (t : ℕ) (f : Frame N) (h : Hazards N) : Hazards N × Frame N :=
  match f with
  | .client => (h, .client)
  | .threshold =>
    if isThresholdExceeded z h.activeHazardPointer (h.retiredList t).length then (h, .scan none)
    else (h, .client)
  | .scan helped =>
    ({ h with
        hazardPointerListTemp := Function.update h.hazardPointerListTemp (entry t helped) [] },
      .scanEntry helped 0)
  | .scanEntry helped i =>
    if i = z.hazardPointers then (h, .scanClear helped)
    else if h.isActive i = true then (h, .scanGuard helped i 0)
    else (h, .scanEntry helped (i + 1))
  | .scanGuard helped i pos =>
    if pos = z.guardsPerThread then (h, .scanEntry helped (i + 1))
    else
      match h.guardedPointers i pos with
      | none => (h, .scanGuard helped i (pos + 1))
      | some guard =>
        ({ h with
            hazardPointerListTemp := Function.update h.hazardPointerListTemp (entry t helped)
              (pushBack (z.hazardPointers * z.guardsPerThread)
                (h.hazardPointerListTemp (entry t helped)) guard) },
          .scanGuard helped i (pos + 1))
  | .scanClear helped =>
    ({ h with retiredListTemp := Function.update h.retiredListTemp (entry t helped) [] },
      .scanSearch helped 0)
  | .scanSearch helped it =>
    match (h.retiredList (entry t helped))[it]? with
    | none => (h, .scanSet helped)
    | some pointer =>
      if pointer ∈ h.hazardPointerListTemp (entry t helped) then
        ({ h with
            retiredListTemp := Function.update h.retiredListTemp (entry t helped)
              (pushBack z.getRetiredListMaxSize (h.retiredListTemp (entry t helped)) pointer) },
          .scanSearch helped (it + 1))
      else (h, .scanFree helped it pointer)
  | .scanFree helped it pointer =>
    ({ h with pending := Function.update h.pending pointer none }, .scanSearch helped (it + 1))
  | .scanSet helped =>
    ({ h with
        retiredList := Function.update h.retiredList (entry t helped)
          (h.retiredListTemp (entry t helped)) },
      match helped with
      | none => .help 0
      | some i => .helpDeactivate i)
  | .help i =>
    if i = z.hazardPointers then (h, .client)
    else if h.isActive i = true then (h, .help (i + 1))
    else (h, .helpReserve i)
  | .helpReserve i =>
    if h.isActive i = false then
      ({ h with isActive := Function.update h.isActive i true }, .helpCount i)
    else (h, .help (i + 1))
  | .helpCount i =>
    if 0 < (h.retiredList i).length then (h, .scan (some i)) else (h, .helpDeactivate i)
  | .helpDeactivate i =>
    ({ h with isActive := Function.update h.isActive i false }, .help (i + 1))
  | .deactivate => if h.isActive t = true then (h, .deactivateSet) else (h, .client)
  | .deactivateSet =>
    ({ h with
        isActive := Function.update h.isActive t false
        left := Function.update h.left t true }, .deactivateRead)
  | .deactivateRead => (h, .deactivateCount h.activeHazardPointer)
  | .deactivateCount activeHazardPointer =>
    ({ h with activeHazardPointer := decrement activeHazardPointer }, .client)

end Model

/-- The constructor: all entries are active and without guards. -/
def create (z : Sizes) (temp : ℕ → List N) : Hazards N where
  isActive _ := true
  guardedPointers _ _ := none
  retiredList _ := []
  retiredListTemp := temp
  hazardPointerListTemp := temp
  activeHazardPointer := z.hazardPointers
  pending _ := none
  early _ _ := false
  left _ := false

/-! ## The invariant -/

/-- The entry that a thread is scanning. -/
def Frame.scans (t : ℕ) : Frame N → Option ℕ
  | .scan helped => some (entry t helped)
  | .scanEntry helped _ => some (entry t helped)
  | .scanGuard helped _ _ => some (entry t helped)
  | .scanClear helped => some (entry t helped)
  | .scanSearch helped _ => some (entry t helped)
  | .scanFree helped _ _ => some (entry t helped)
  | .scanSet helped => some (entry t helped)
  | _ => none

/-- The entry that a thread has reserved. -/
def Frame.holds : Frame N → Option ℕ
  | .scan helped => helped
  | .scanEntry helped _ => helped
  | .scanGuard helped _ _ => helped
  | .scanClear helped => helped
  | .scanSearch helped _ => helped
  | .scanFree helped _ _ => helped
  | .scanSet helped => helped
  | .helpCount i => some i
  | .helpDeactivate i => some i
  | _ => none

/-- Whether a thread works on its own entry, and so has not left. -/
def Frame.Own : Frame N → Prop
  | .threshold => True
  | .scan helped => helped = none
  | .scanEntry helped _ => helped = none
  | .scanGuard helped _ _ => helped = none
  | .scanClear helped => helped = none
  | .scanSearch helped _ => helped = none
  | .scanFree helped _ _ => helped = none
  | .scanSet helped => helped = none
  | .deactivate => True
  | .deactivateSet => True
  | _ => False

/-- Whether a thread is leaving. -/
def Frame.Leaves : Frame N → Prop
  | .deactivate => True
  | .deactivateSet => True
  | .deactivateRead => True
  | .deactivateCount _ => True
  | _ => False

/-- Whether a scan has guard `s` of entry `j` still to read. -/
def Frame.Unread (j s : ℕ) : Frame N → Prop
  | .scan _ => True
  | .scanEntry _ i => i ≤ j
  | .scanGuard _ i pos => i < j ∨ i = j ∧ pos ≤ s
  | _ => False

/-- How many guards a scan can have read. -/
def Frame.mostRead (z : Sizes) : Frame N → Option ℕ
  | .scanEntry _ i => some (i * z.guardsPerThread)
  | .scanGuard _ i pos => some (i * z.guardsPerThread + pos)
  | _ => none

/-- The pointers that a thread sorting out a retired list has kept or has still to look at. -/
def Frame.sorting (h : Hazards N) (t : ℕ) : Frame N → Option (List N)
  | .scanSearch helped it =>
    some (h.retiredListTemp (entry t helped) ++ (h.retiredList (entry t helped)).drop it)
  | .scanFree helped it pointer =>
    some (h.retiredListTemp (entry t helped) ++
      pointer :: (h.retiredList (entry t helped)).drop (it + 1))
  | .scanSet helped => some (h.retiredListTemp (entry t helped))
  | _ => none

/-- Whether a thread has begun to sort out a retired list. -/
def Frame.Sorts : Frame N → Prop
  | .scanSearch _ _ => True
  | .scanFree _ _ _ => True
  | .scanSet _ => True
  | _ => False

/-- The loops over the entries and their guards stay within bounds. -/
def Frame.Bounds (z : Sizes) : Frame N → Prop
  | .scanEntry _ i => i ≤ z.hazardPointers
  | .scanGuard _ i pos => i < z.hazardPointers ∧ pos ≤ z.guardsPerThread
  | _ => True

/-- A guard of a thread that has not left was set on the pointer before this was retired. -/
def Protects (z : Sizes) (h : Hazards N) (p : N) (j s : ℕ) : Prop :=
  j < z.hazardPointers ∧ s < z.guardsPerThread ∧ h.left j = false ∧
    h.guardedPointers j s = some p ∧ h.early j s = true

/-- The pointers of a list are retired on an entry, each one once. -/
def Listed (h : Hazards N) (e : ℕ) (l : List N) : Prop :=
  l.Nodup ∧ ∀ p ∈ l, h.pending p = some e

/-- What a thread can rely on. -/
structure Frame.Knows (z : Sizes) (h : Hazards N) (t : ℕ) (f : Frame N) : Prop where
  own : f.Own → h.left t = false
  holds : ∀ i, f.holds = some i → h.left i = true ∧ h.isActive i = true
  bounds : f.Bounds z
  read : ∀ e, f.scans t = some e → ∀ p j s, h.pending p = some e → Protects z h p j s →
    f.Unread j s ∨ p ∈ h.hazardPointerListTemp e
  room : ∀ e, f.scans t = some e → ∀ n, f.mostRead z = some n →
    (h.hazardPointerListTemp e).length ≤ n
  sorting : ∀ e, f.scans t = some e → ∀ l, f.sorting h t = some l → Listed h e l
  spared : ∀ helped it p, f = .scanFree helped it p →
    p ∉ h.hazardPointerListTemp (entry t helped)

/-- Entries are scanned by one thread at a time, and every scan accounts for the guards that it
has read and for the pointers that it has sorted out. -/
structure Inv (z : Sizes) (h : Hazards N) (pc : ℕ → Frame N) : Prop where
  active : ∀ j, h.left j = false → h.isActive j = true
  knows : ∀ t, (pc t).Knows z h t
  unique : ∀ t t' i, (pc t).holds = some i → (pc t').holds = some i → t = t'
  lists : ∀ e, (∀ t, (pc t).scans t = some e → ¬ (pc t).Sorts) → Listed h e (h.retiredList e)

/-- Who scans an entry has reserved it or is its own thread. -/
theorem Frame.holds_or_own {f : Frame N} {t e : ℕ} (h : f.scans t = some e) :
    f.holds = some e ∨ f.Own ∧ e = t := by
  cases f with
  | scan helped => cases helped <;> simp_all [scans, holds, Own, entry]
  | scanEntry helped i => cases helped <;> simp_all [scans, holds, Own, entry]
  | scanGuard helped i pos => cases helped <;> simp_all [scans, holds, Own, entry]
  | scanClear helped => cases helped <;> simp_all [scans, holds, Own, entry]
  | scanSearch helped it => cases helped <;> simp_all [scans, holds, Own, entry]
  | scanFree helped it p => cases helped <;> simp_all [scans, holds, Own, entry]
  | scanSet helped => cases helped <;> simp_all [scans, holds, Own, entry]
  | _ => cases h

theorem Frame.sorting_congr {f : Frame N} {t : ℕ} {h h' : Hazards N}
    (hl : ∀ e, f.scans t = some e → h'.retiredList e = h.retiredList e ∧
      h'.retiredListTemp e = h.retiredListTemp e) : f.sorting h' t = f.sorting h t := by
  cases f with
  | scanSearch helped it =>
    obtain ⟨h1, h2⟩ := hl _ rfl
    rw [sorting, sorting, h1, h2]
  | scanFree helped it p =>
    obtain ⟨h1, h2⟩ := hl _ rfl
    rw [sorting, sorting, h1, h2]
  | scanSet helped =>
    obtain ⟨-, h2⟩ := hl _ rfl
    rw [sorting, sorting, h2]
  | _ => rfl

theorem Listed.congr {h h' : Hazards N} {e : ℕ} {l : List N} (hl : Listed h e l)
    (hp : ∀ p ∈ l, h.pending p = some e → h'.pending p = some e) : Listed h' e l :=
  ⟨hl.1, fun p hm => hp p hm (hl.2 p hm)⟩

/-- What a thread knows stays so where the entry that it scans keeps its lists and pending
pointers, its reservation stands and no guard gets early there. -/
theorem Frame.Knows.mono {z : Sizes} {h h' : Hazards N} {t : ℕ} {f : Frame N}
    (hk : f.Knows z h t) (hleft : h.left t = false → h'.left t = false)
    (hholds : ∀ i, f.holds = some i → h.left i = true → h.isActive i = true →
      h'.left i = true ∧ h'.isActive i = true)
    (hlists : ∀ e, f.scans t = some e → h'.retiredList e = h.retiredList e ∧
      h'.retiredListTemp e = h.retiredListTemp e ∧
      h'.hazardPointerListTemp e = h.hazardPointerListTemp e)
    (hpending : ∀ e, f.scans t = some e → ∀ p, h'.pending p = some e ↔ h.pending p = some e)
    (hprotects : ∀ e, f.scans t = some e → ∀ p j s, h.pending p = some e →
      Protects z h' p j s → Protects z h p j s) : f.Knows z h' t where
  own ho := hleft (hk.own ho)
  holds i hi := hholds i hi (hk.holds i hi).1 (hk.holds i hi).2
  bounds := hk.bounds
  read e he p j s hp hprot := by
    have hp' := (hpending e he p).mp hp
    rw [(hlists e he).2.2]
    exact hk.read e he p j s hp' (hprotects e he p j s hp' hprot)
  room e he n hn := by
    rw [(hlists e he).2.2]
    exact hk.room e he n hn
  sorting e he l hl := by
    rw [Frame.sorting_congr fun e he => ⟨(hlists e he).1, (hlists e he).2.1⟩] at hl
    exact (hk.sorting e he l hl).congr fun p _ hp => (hpending e he p).mpr hp
  spared helped it p hf := by
    rw [(hlists _ (hf ▸ rfl)).2.2]
    exact hk.spared helped it p hf

/-- A thread that neither scans nor works on its own entry has only its reservation. -/
theorem Frame.Knows.of_idle {z : Sizes} {h : Hazards N} {t : ℕ} {f : Frame N}
    (ho : f.Own → h.left t = false)
    (hh : ∀ i, f.holds = some i → h.left i = true ∧ h.isActive i = true)
    (hs : f.scans t = none) (hb : f.Bounds z) : f.Knows z h t where
  own := ho
  holds := hh
  bounds := hb
  read e he := by
    rw [hs] at he
    cases he
  room e he := by
    rw [hs] at he
    cases he
  sorting e he := by
    rw [hs] at he
    cases he
  spared helped it p hf := by
    rw [hf] at hs
    cases hs

/-- A thread that does not sort out a retired list knows what its scan has read. -/
theorem Frame.Knows.of_scan {z : Sizes} {h : Hazards N} {t : ℕ} {f : Frame N}
    (ho : f.Own → h.left t = false)
    (hh : ∀ i, f.holds = some i → h.left i = true ∧ h.isActive i = true) (hb : f.Bounds z)
    (hr : ∀ e, f.scans t = some e → ∀ p j s, h.pending p = some e → Protects z h p j s →
      f.Unread j s ∨ p ∈ h.hazardPointerListTemp e)
    (hm : ∀ e, f.scans t = some e → ∀ n, f.mostRead z = some n →
      (h.hazardPointerListTemp e).length ≤ n)
    (hs : ¬ f.Sorts) : f.Knows z h t where
  own := ho
  holds := hh
  bounds := hb
  read := hr
  room := hm
  sorting e _ l hl := by
    cases f with
    | scanSearch helped it => exact (hs trivial).elim
    | scanFree helped it p => exact (hs trivial).elim
    | scanSet helped => exact (hs trivial).elim
    | _ => cases hl
  spared helped it p hf := by
    rw [hf] at hs
    exact (hs trivial).elim

/-- A scan that goes on without a guard knows what it knew, unless it skips one that protects. -/
theorem Frame.Knows.skip {z : Sizes} {h : Hazards N} {t : ℕ} {f f' : Frame N}
    (hk : f.Knows z h t) (hscans : f'.scans t = f.scans t) (hholds : f'.holds = f.holds)
    (hown : f'.Own → f.Own) (hb : f'.Bounds z)
    (hunread : ∀ p j s, Protects z h p j s → f.Unread j s → f'.Unread j s)
    (hroom : ∀ n', f'.mostRead z = some n' → ∃ n, n ≤ n' ∧ f.mostRead z = some n)
    (hs : ¬ f'.Sorts) : f'.Knows z h t := by
  refine of_scan (fun ho => hk.own (hown ho)) (fun i hi => hk.holds i (hholds ▸ hi)) hb
    (fun e he p j s hp hprot => ?_) (fun e he n' hn' => ?_) hs
  · rw [hscans] at he
    exact (hk.read e he p j s hp hprot).imp_left (hunread p j s hprot)
  · rw [hscans] at he
    obtain ⟨n, hle, hn⟩ := hroom n' hn'
    exact Nat.le_trans (hk.room e he n hn) hle

namespace Inv

variable {z : Sizes} {h h' : Hazards N} {pc : ℕ → Frame N} {t t' e : ℕ} {f' : Frame N}

/-- An entry is scanned by one thread at a time. -/
theorem scanner_unique (hI : Inv z h pc) (ht : (pc t).scans t = some e)
    (ht' : (pc t').scans t' = some e) : t = t' := by
  rcases Frame.holds_or_own ht with hh | ⟨ho, rfl⟩
  · rcases Frame.holds_or_own ht' with hh' | ⟨ho', rfl⟩
    · exact hI.unique t t' e hh hh'
    · have h1 := ((hI.knows t).holds e hh).1
      rw [(hI.knows e).own ho'] at h1
      cases h1
  · rcases Frame.holds_or_own ht' with hh' | ⟨ho', rfl⟩
    · have h1 := ((hI.knows t').holds e hh').1
      rw [(hI.knows e).own ho] at h1
      cases h1
    · rfl

/-- Assembles the invariant after a step of one thread. -/
theorem of_step (hI : Inv z h pc) (hactive : ∀ j, h'.left j = false → h'.isActive j = true)
    (hk : f'.Knows z h' t) (hothers : ∀ t' ≠ t, (pc t').Knows z h' t')
    (hholds : ∀ i, f'.holds = some i → ∀ t' ≠ t, (pc t').holds ≠ some i)
    (hlists : ∀ e, (∀ t' ≠ t, (pc t').scans t' = some e → ¬ (pc t').Sorts) →
      (f'.scans t = some e → ¬ f'.Sorts) → Listed h' e (h'.retiredList e)) :
    Inv z h' (Function.update pc t f') where
  active := hactive
  knows t' := by
    rcases eq_or_ne t' t with rfl | hne
    · rw [Function.update_self]
      exact hk
    · rw [Function.update_of_ne hne]
      exact hothers t' hne
  unique t₁ t₂ i h₁ h₂ := by
    rcases eq_or_ne t₁ t with rfl | hne₁
    · rcases eq_or_ne t₂ t₁ with rfl | hne₂
      · rfl
      · rw [Function.update_self] at h₁
        rw [Function.update_of_ne hne₂] at h₂
        exact absurd h₂ (hholds i h₁ t₂ hne₂)
    · rw [Function.update_of_ne hne₁] at h₁
      rcases eq_or_ne t₂ t with rfl | hne₂
      · rw [Function.update_self] at h₂
        exact absurd h₁ (hholds i h₂ t₁ hne₁)
      · rw [Function.update_of_ne hne₂] at h₂
        exact hI.unique t₁ t₂ i h₁ h₂
  lists e he := by
    refine hlists e (fun t' hne hs => ?_) fun hs => ?_
    · have hs' := he t'
      rw [Function.update_of_ne hne] at hs'
      exact hs' hs
    · have hs' := he t
      rw [Function.update_self] at hs'
      exact hs' hs

/-- Nobody else holds what the thread has held. -/
theorem holds_ne (hI : Inv z h pc) {i : ℕ} (hi : (pc t).holds = some i) (hne : t' ≠ t) :
    (pc t').holds ≠ some i :=
  fun hi' => hne (hI.unique t' t i hi' hi)

/-- A step that changes at most the temporary lists of the entry that is scanned. -/
theorem move (hI : Inv z h pc) (hleft : h'.left = h.left) (hactive : h'.isActive = h.isActive)
    (hguards : h'.guardedPointers = h.guardedPointers) (hearly : h'.early = h.early)
    (hpending : h'.pending = h.pending) (hretired : h'.retiredList = h.retiredList)
    (htemp : ∀ e, (pc t).scans t ≠ some e → h'.retiredListTemp e = h.retiredListTemp e ∧
      h'.hazardPointerListTemp e = h.hazardPointerListTemp e)
    (hk : f'.Knows z h' t) (hholds : ∀ i, f'.holds = some i → (pc t).holds = some i)
    (hsorts : ∀ e, (pc t).scans t = some e → (pc t).Sorts → f'.scans t = some e ∧ f'.Sorts) :
    Inv z h' (Function.update pc t f') := by
  refine hI.of_step ?_ hk (fun t' hne => ?_) (fun i hi t' hne => hI.holds_ne (hholds i hi) hne)
    fun e he he' => ?_
  · rw [hleft, hactive]
    exact hI.active
  · refine (hI.knows t').mono (fun hl => hleft ▸ hl) (fun i _ h1 h2 => ?_) (fun e he => ?_)
      (fun e _ p => by rw [hpending]) fun e _ p j s _ hp => ?_
    · rw [hleft, hactive]
      exact ⟨h1, h2⟩
    · have hne' : (pc t).scans t ≠ some e := fun hs => hne (hI.scanner_unique he hs)
      exact ⟨congrFun hretired e, htemp e hne'⟩
    · unfold Protects at hp ⊢
      rwa [hleft, hguards, hearly] at hp
  · rw [hretired]
    refine (hI.lists e fun t' hs hsort => ?_).congr fun p _ hp => hpending ▸ hp
    rcases eq_or_ne t' t with rfl | hne
    · obtain ⟨h1, h2⟩ := hsorts e hs hsort
      exact he' h1 h2
    · exact he t' hne hs hsort

/-- A thread may set and clear its guards at any time. -/
theorem guardPointer [DecidableEq N] (hI : Inv z h pc) (t pos : ℕ) (p : Option N) :
    Inv z (guardPointer t pos p h) pc := by
  have hprotects : ∀ {q j s}, Protects z (HazardPointer.guardPointer t pos p h) q j s →
      Protects z h q j s := by
    rintro q j s ⟨hj, hs, hl, hg, he⟩
    simp only [HazardPointer.guardPointer] at hg he hl
    rcases eq_or_ne j t with rfl | hne
    · rw [Function.update_self] at hg he
      rcases eq_or_ne s pos with rfl | hne'
      · rw [Function.update_self] at he
        cases he
      · rw [Function.update_of_ne hne'] at hg he
        exact ⟨hj, hs, hl, hg, he⟩
    · rw [Function.update_of_ne hne] at hg he
      exact ⟨hj, hs, hl, hg, he⟩
  refine ⟨hI.active, fun t' => ?_, hI.unique, hI.lists⟩
  exact (hI.knows t').mono id (fun _ _ h1 h2 => ⟨h1, h2⟩) (fun _ _ => ⟨rfl, rfl, rfl⟩)
    (fun _ _ _ => Iff.rfl) fun _ _ _ _ _ _ hp => hprotects hp

/-- A thread that has not left retires a pointer that is not retired. -/
theorem retire [DecidableEq N] (hI : Inv z h pc) {p : N} (hc : pc t = .client)
    (hl : h.left t = false) (hp : h.pending p = none) :
    Inv z (addRetired z t p h) (Function.update pc t .threshold) := by
  have hne : ∀ t' ≠ t, (pc t').scans t' ≠ some t := by
    intro t' ht hs
    rcases Frame.holds_or_own hs with hh | ⟨-, rfl⟩
    · have h1 := ((hI.knows t').holds t hh).1
      rw [hl] at h1
      cases h1
    · exact ht rfl
  have hpending : ∀ {e q}, e ≠ t → ((addRetired z t p h).pending q = some e ↔
      h.pending q = some e) := by
    intro e q he
    show Function.update h.pending p (some t) q = some e ↔ _
    rcases eq_or_ne q p with rfl | hq
    · rw [Function.update_self, hp]
      constructor
      · exact fun h => absurd (Option.some.inj h).symm he
      · exact fun h => by cases h
    · rw [Function.update_of_ne hq]
  refine hI.of_step hI.active ?_ (fun t' ht => ?_) (fun i hi => by cases hi) fun e he _ => ?_
  · exact Frame.Knows.of_idle (fun _ => hl) (fun i hi => by cases hi) rfl trivial
  · refine (hI.knows t').mono id (fun _ _ h1 h2 => ⟨h1, h2⟩) (fun e he => ⟨?_, rfl, rfl⟩)
      (fun e he q => hpending ?_) fun e he q j s hq hprot => ?_
    · refine Function.update_of_ne ?_ _ _
      rintro rfl
      exact hne t' ht he
    · rintro rfl
      exact hne t' ht he
    · obtain ⟨hj, hs, hl', hg, hearly⟩ := hprot
      have hg' : h.guardedPointers j s = some q := hg
      refine ⟨hj, hs, hl', hg', ?_⟩
      have hearly' : (h.early j s || decide (h.guardedPointers j s = some p)) = true := hearly
      rw [hg', Bool.or_eq_true, decide_eq_true_eq, Option.some_inj] at hearly'
      refine hearly'.resolve_right ?_
      rintro rfl
      rw [hp] at hq
      cases hq
  · have hnone : ∀ t', (pc t').scans t' = some e → ¬ (pc t').Sorts := by
      intro t' hs
      rcases eq_or_ne t' t with rfl | ht
      · rw [hc] at hs
        cases hs
      · exact he t' ht hs
    have hold := hI.lists e hnone
    show Listed _ e (Function.update h.retiredList t _ e)
    rcases eq_or_ne e t with rfl | het
    · rw [Function.update_self]
      have hmem : p ∉ h.retiredList e := by
        intro hm
        have h1 := hold.2 p hm
        rw [hp] at h1
        cases h1
      have hold' : Listed (addRetired z e p h) e (h.retiredList e) := by
        refine hold.congr fun q hq hqp => ?_
        show Function.update h.pending p (some e) q = some e
        have hqp' : q ≠ p := by
          rintro rfl
          exact hmem hq
        rw [Function.update_of_ne hqp', hqp]
      unfold pushBack
      split
      · exact hold'
      · refine ⟨List.Nodup.append hold.1 (List.nodup_singleton p) ?_, fun q hq => ?_⟩
        · intro q hq hq'
          exact hmem (List.mem_singleton.mp hq' ▸ hq)
        · rcases List.mem_append.mp hq with hq | hq
          · exact hold'.2 q hq
          · rw [List.mem_singleton.mp hq]
            exact Function.update_self ..
    · rw [Function.update_of_ne het]
      exact hold.congr fun q _ hq => (hpending het).mpr hq

/-- A scan that is about to free a pointer has it on the entry that it scans. -/
theorem pending_of_free (hI : Inv z h pc) {helped : Option ℕ} {it : ℕ} {p : N}
    (hf : pc t = .scanFree helped it p) : h.pending p = some (entry t helped) := by
  have hk := hI.knows t
  rw [hf] at hk
  exact (hk.sorting _ rfl _ rfl).2 p (List.mem_append_right _ List.mem_cons_self)

/-- No guard of a thread that has not left was set on a pointer before this was retired, when
the pointer is about to be freed. -/
theorem not_protects (hI : Inv z h pc) {helped : Option ℕ} {it : ℕ} {p : N}
    (hf : pc t = .scanFree helped it p) (j s : ℕ) : ¬ Protects z h p j s := by
  intro hp
  have hpending := hI.pending_of_free hf
  have hk := hI.knows t
  rw [hf] at hk
  rcases hk.read _ rfl p j s hpending hp with hu | hm
  · exact hu
  · exact hk.spared helped it p rfl hm

/-- A pointer is freed. -/
theorem free [DecidableEq N] (hI : Inv z h pc) {helped : Option ℕ} {it : ℕ} {p : N}
    (hf : pc t = .scanFree helped it p) :
    Inv z { h with pending := Function.update h.pending p none }
      (Function.update pc t (.scanSearch helped (it + 1))) := by
  have hpe := hI.pending_of_free hf
  have hk := hI.knows t
  have hscans : (pc t).scans t = some (entry t helped) := by
    rw [hf]
    rfl
  rw [hf] at hk
  obtain ⟨hnodup, hlisted⟩ := hk.sorting _ rfl _ rfl
  have hnodup' := (List.nodup_middle.mp hnodup)
  rw [List.nodup_cons] at hnodup'
  have hpending : ∀ {e q}, e ≠ entry t helped →
      (Function.update h.pending p none q = some e ↔ h.pending q = some e) := by
    intro e q he
    rcases eq_or_ne q p with rfl | hq
    · rw [Function.update_self, hpe]
      constructor
      · exact fun h => by cases h
      · exact fun h => absurd (Option.some.inj h).symm he
    · rw [Function.update_of_ne hq]
  have hback : ∀ {e q}, Function.update h.pending p none q = some e → h.pending q = some e := by
    intro e q hq
    rcases eq_or_ne q p with rfl | hqp
    · rw [Function.update_self] at hq
      cases hq
    · rwa [Function.update_of_ne hqp] at hq
  refine hI.of_step hI.active ?_ (fun t' ht => ?_) (fun i hi t' ht => hI.holds_ne ?_ ht)
    fun e he he' => ?_
  · refine ⟨hk.own, hk.holds, trivial, ?_, ?_, ?_, ?_⟩
    · intro e he q j s hq hprot
      exact hk.read e he q j s (hback hq) hprot
    · intro e he n hn
      cases hn
    · intro e he l hl
      obtain rfl := Option.some.inj he
      obtain rfl := Option.some.inj hl
      refine ⟨hnodup'.2, fun q hq => ?_⟩
      have hqp : q ≠ p := by
        rintro rfl
        exact hnodup'.1 hq
      refine (Function.update_of_ne hqp _ _).trans (hlisted q ?_)
      rcases List.mem_append.mp hq with hq | hq
      · exact List.mem_append_left _ hq
      · exact List.mem_append_right _ (List.mem_cons_of_mem p hq)
    · intro helped' it' p' hf'
      cases hf'
  · refine (hI.knows t').mono id (fun _ _ h1 h2 => ⟨h1, h2⟩) (fun _ _ => ⟨rfl, rfl, rfl⟩)
      (fun e he q => hpending ?_) fun _ _ _ _ _ _ hp => hp
    rintro rfl
    exact ht (hI.scanner_unique he hscans)
  · rw [hf]
    exact hi
  · have hne : e ≠ entry t helped := fun h => he' (h ▸ rfl) trivial
    refine (hI.lists e fun t' hs => ?_).congr fun q _ hq => (hpending hne).mpr hq
    rcases eq_or_ne t' t with rfl | ht
    · rw [hscans] at hs
      exact absurd (Option.some.inj hs).symm hne
    · exact he t' ht hs

/-- A scan ends with the pointers that it has kept. -/
theorem finish (hI : Inv z h pc) {helped : Option ℕ} (hf : pc t = .scanSet helped)
    (hk' : f'.Knows z { h with
      retiredList := Function.update h.retiredList (entry t helped)
        (h.retiredListTemp (entry t helped)) } t)
    (hholds : ∀ i, f'.holds = some i → (pc t).holds = some i) :
    Inv z { h with
        retiredList := Function.update h.retiredList (entry t helped)
          (h.retiredListTemp (entry t helped)) } (Function.update pc t f') := by
  have hk := hI.knows t
  have hscans : (pc t).scans t = some (entry t helped) := by
    rw [hf]
    rfl
  rw [hf] at hk
  refine hI.of_step hI.active hk' (fun t' ht => ?_)
    (fun i hi t' ht => hI.holds_ne (hholds i hi) ht) fun e he he' => ?_
  · refine (hI.knows t').mono id (fun _ _ h1 h2 => ⟨h1, h2⟩) (fun e he => ⟨?_, rfl, rfl⟩)
      (fun _ _ _ => Iff.rfl) fun _ _ _ _ _ _ hp => hp
    refine Function.update_of_ne ?_ _ _
    rintro rfl
    exact ht (hI.scanner_unique he hscans)
  · show Listed _ e (Function.update h.retiredList (entry t helped) _ e)
    rcases eq_or_ne e (entry t helped) with rfl | hne
    · rw [Function.update_self]
      exact hk.sorting _ rfl _ rfl
    · rw [Function.update_of_ne hne]
      refine hI.lists e fun t' hs => ?_
      rcases eq_or_ne t' t with rfl | ht
      · rw [hscans] at hs
        exact absurd (Option.some.inj hs).symm hne
      · exact he t' ht hs

/-- A change of an active flag, where the flags of those who have not left stay set. -/
theorem setActive (hI : Inv z h pc) {i : ℕ} {b : Bool} (hs : (pc t).scans t = none)
    (hactive : b = false → h.left i = true) (hi : ∀ t' ≠ t, (pc t').holds ≠ some i)
    (hk' : f'.Knows z { h with isActive := Function.update h.isActive i b } t)
    (hholds : ∀ j, f'.holds = some j → j = i) :
    Inv z { h with isActive := Function.update h.isActive i b } (Function.update pc t f') := by
  refine hI.of_step (fun j hj => ?_) hk' (fun t' ht => ?_)
    (fun j hj t' ht => hholds j hj ▸ hi t' ht) fun e he he' => ?_
  · have hj' : h.left j = false := hj
    show Function.update h.isActive i b j = true
    rcases eq_or_ne j i with rfl | hne
    · rw [Function.update_self]
      cases b with
      | false =>
        rw [hactive rfl] at hj'
        cases hj'
      | true => rfl
    · rw [Function.update_of_ne hne]
      exact hI.active j hj'
  · refine (hI.knows t').mono id (fun j hj h1 h2 => ⟨h1, ?_⟩) (fun _ _ => ⟨rfl, rfl, rfl⟩)
      (fun _ _ _ => Iff.rfl) fun _ _ _ _ _ _ hp => hp
    refine (Function.update_of_ne ?_ _ _).trans h2
    rintro rfl
    exact hi t' ht hj
  · refine hI.lists e fun t' hs' => ?_
    rcases eq_or_ne t' t with rfl | ht
    · rw [hs] at hs'
      cases hs'
    · exact he t' ht hs'

/-- A thread leaves. -/
theorem leave (hI : Inv z h pc) (hf : pc t = .deactivateSet) :
    Inv z { h with
        isActive := Function.update h.isActive t false
        left := Function.update h.left t true } (Function.update pc t .deactivateRead) := by
  have hl : h.left t = false := by
    have hk := hI.knows t
    rw [hf] at hk
    exact hk.own trivial
  have hscans : (pc t).scans t = none := by
    rw [hf]
    rfl
  refine hI.of_step (fun j hj => ?_) ?_ (fun t' ht => ?_) (fun i hi => by cases hi)
    fun e he _ => ?_
  · have hj' : Function.update h.left t true j = false := hj
    rcases eq_or_ne j t with rfl | hne
    · rw [Function.update_self] at hj'
      cases hj'
    · rw [Function.update_of_ne hne] at hj'
      exact (Function.update_of_ne hne _ _).trans (hI.active j hj')
  · exact Frame.Knows.of_idle (fun ho => ho.elim) (fun i hi => by cases hi) rfl trivial
  · refine (hI.knows t').mono (fun hl' => (Function.update_of_ne ht _ _).trans hl')
      (fun i hi h1 h2 => ?_) (fun _ _ => ⟨rfl, rfl, rfl⟩) (fun _ _ _ => Iff.rfl)
      fun _ _ _ j s _ hp => ?_
    · have hne : i ≠ t := by
        rintro rfl
        rw [hl] at h1
        cases h1
      exact ⟨(Function.update_of_ne hne _ _).trans h1, (Function.update_of_ne hne _ _).trans h2⟩
    · obtain ⟨h1, h2, h3, h4, h5⟩ := hp
      have h3' : Function.update h.left t true j = false := h3
      rcases eq_or_ne j t with rfl | hne
      · rw [Function.update_self] at h3'
        cases h3'
      · rw [Function.update_of_ne hne] at h3'
        exact ⟨h1, h2, h3', h4, h5⟩
  · refine hI.lists e fun t' hs' => ?_
    rcases eq_or_ne t' t with rfl | ht
    · rw [hscans] at hs'
      cases hs'
    · exact he t' ht hs'

/-- A step that changes nothing. -/
theorem goto (hI : Inv z h pc) (hk : f'.Knows z h t)
    (hholds : ∀ i, f'.holds = some i → (pc t).holds = some i)
    (hsorts : (pc t).Sorts → f'.scans t = (pc t).scans t ∧ f'.Sorts) :
    Inv z h (Function.update pc t f') :=
  hI.move rfl rfl rfl rfl rfl rfl (fun _ _ => ⟨rfl, rfl⟩) hk hholds fun _ he hs =>
    ⟨(hsorts hs).1.trans he, (hsorts hs).2⟩

/-- Going on to a frame that neither scans nor works on the own entry. -/
theorem idle (hI : Inv z h pc) (ho : f'.Own → h.left t = false) (hs : f'.scans t = none)
    (hb : f'.Bounds z) (hholds : ∀ i, f'.holds = some i → (pc t).holds = some i)
    (hsorts : ¬ (pc t).Sorts) : Inv z h (Function.update pc t f') :=
  hI.goto (Frame.Knows.of_idle ho (fun i hi => (hI.knows t).holds i (hholds i hi)) hs hb) hholds
    fun h => (hsorts h).elim

/-- A scan goes on without a guard. -/
theorem skip (hI : Inv z h pc) {f : Frame N} (hf : pc t = f) (hsorts : (pc t).Sorts → f'.Sorts)
    (hscans : f'.scans t = f.scans t) (hholds : f'.holds = f.holds) (hown : f'.Own → f.Own)
    (hb : f'.Bounds z) (hunread : ∀ p j s, Protects z h p j s → f.Unread j s → f'.Unread j s)
    (hroom : ∀ n', f'.mostRead z = some n' → ∃ n, n ≤ n' ∧ f.mostRead z = some n)
    (hs : ¬ f'.Sorts) : Inv z h (Function.update pc t f') := by
  have hk := hI.knows t
  subst hf
  exact hI.goto (hk.skip hscans hholds hown hb hunread hroom hs) (fun i hi => hholds ▸ hi)
    fun h => (hs (hsorts h)).elim

/-- The other entries keep their lists when a scan changes that of its own. -/
theorem update_of_not_scans {helped : Option ℕ} {α : Type} {l : ℕ → α} {x : α}
    (hs : (pc t).scans t = some (entry t helped)) (he : (pc t).scans t ≠ some e) :
    Function.update l (entry t helped) x e = l e := by
  refine Function.update_of_ne ?_ _ _
  rintro rfl
  exact he hs

/-- Every step of a thread inside the functions keeps the invariant. -/
theorem exec [DecidableEq N] (hI : Inv z h pc) (t : ℕ) :
    Inv z (exec z t (pc t) h).1 (Function.update pc t (exec z t (pc t) h).2) := by
  have hk := hI.knows t
  generalize hf : pc t = f at hk ⊢
  have hholds : ∀ i, (pc t).holds = some i → f.holds = some i := fun i hi => hf ▸ hi
  have hsorts : (pc t).Sorts → f.Sorts := fun h => hf ▸ h
  cases f with
  | client =>
    refine hI.idle (fun h => h.elim) rfl trivial (fun i hi => by cases hi) hsorts
  | threshold =>
    rw [HazardPointer.exec]
    split
    · refine hI.goto (Frame.Knows.of_scan (fun _ => hk.own trivial) (fun i hi => by cases hi)
        trivial (fun _ _ _ _ _ _ _ => Or.inl trivial) (fun _ _ n hn => by cases hn) id)
        (fun i hi => by cases hi) fun h => (hsorts h).elim
    · exact hI.idle (fun h => h.elim) rfl trivial (fun i hi => by cases hi) hsorts
  | scan helped =>
    refine hI.move rfl rfl rfl rfl rfl rfl (fun e he => ⟨rfl, ?_⟩)
      (Frame.Knows.of_scan hk.own hk.holds (Nat.zero_le _)
        (fun _ _ _ j _ _ _ => Or.inl (Nat.zero_le j)) (fun e he n hn => ?_) id)
      (fun i hi => hf ▸ hi) fun e _ h => (hsorts h).elim
    · exact update_of_not_scans (hf ▸ rfl) he
    · obtain rfl := Option.some.inj he
      show (Function.update h.hazardPointerListTemp _ _ _).length ≤ n
      rw [Function.update_self]
      exact Nat.zero_le n
  | scanEntry helped i =>
    rw [HazardPointer.exec]
    split
    · rename_i hi
      refine hI.skip hf hsorts rfl rfl id trivial (fun p j s hprot hu => ?_)
        (fun n hn => by cases hn) id
      have hle : i ≤ j := hu
      have hj := hprot.1
      omega
    · rename_i hi
      have hb : i ≤ z.hazardPointers := hk.bounds
      split
      · refine hI.skip hf hsorts rfl rfl id ⟨by omega, Nat.zero_le _⟩ (fun p j s _ hu => ?_)
          (fun n hn => ?_) id
        · have hle : i ≤ j := hu
          rcases Nat.lt_or_ge i j with hlt | hge
          · exact Or.inl hlt
          · exact Or.inr ⟨by omega, Nat.zero_le s⟩
        · cases hn
          exact ⟨_, le_rfl, rfl⟩
      · rename_i hinactive
        refine hI.skip hf hsorts rfl rfl id (show i + 1 ≤ _ by omega) (fun p j s hprot hu => ?_)
          (fun n hn => ?_) id
        · have hle : i ≤ j := hu
          rcases eq_or_ne i j with rfl | hne
          · exact absurd (hI.active i hprot.2.2.1) hinactive
          · show i + 1 ≤ j
            omega
        · cases hn
          exact ⟨_, Nat.mul_le_mul_right _ (Nat.le_succ i), rfl⟩
  | scanGuard helped i pos =>
    obtain ⟨hi, hpos⟩ : i < z.hazardPointers ∧ pos ≤ z.guardsPerThread := hk.bounds
    rw [HazardPointer.exec]
    split
    · rename_i hend
      refine hI.skip hf hsorts rfl rfl id (show i + 1 ≤ _ by omega) (fun p j s hprot hu => ?_)
        (fun n hn => ?_) id
      · have hs := hprot.2.1
        rcases hu with hlt | ⟨-, hle⟩
        · exact hlt
        · omega
      · cases hn
        refine ⟨_, ?_, rfl⟩
        rw [Nat.succ_mul]
        omega
    · rename_i hend
      split
      · rename_i hnone
        refine hI.skip hf hsorts rfl rfl id ⟨hi, by omega⟩ (fun p j s hprot hu => ?_)
          (fun n hn => ?_) id
        · rcases hu with hlt | ⟨rfl, hle⟩
          · exact Or.inl hlt
          · rcases eq_or_ne pos s with rfl | hne
            · have hg := hprot.2.2.2.1
              rw [hnone] at hg
              cases hg
            · exact Or.inr ⟨rfl, by omega⟩
        · cases hn
          exact ⟨_, Nat.le_succ _, rfl⟩
      · rename_i guard hguard
        have hscan := hk.room _ rfl _ rfl
        -- There is room for every guard that is still to be read.
        have hfull : i * z.guardsPerThread + pos < z.hazardPointers * z.guardsPerThread := by
          have hmul : (i + 1) * z.guardsPerThread ≤ z.hazardPointers * z.guardsPerThread :=
            Nat.mul_le_mul_right _ hi
          rw [Nat.succ_mul] at hmul
          omega
        have hpush : pushBack (z.hazardPointers * z.guardsPerThread)
            (h.hazardPointerListTemp (entry t helped)) guard =
              h.hazardPointerListTemp (entry t helped) ++ [guard] :=
          if_neg (by omega)
        rw [hpush]
        refine hI.move rfl rfl rfl rfl rfl rfl (fun e he => ⟨rfl, ?_⟩)
          (Frame.Knows.of_scan hk.own hk.holds ⟨hi, by omega⟩
            (fun e he p j s hp hprot => ?_) (fun e he n hn => ?_) id)
          (fun i hi => hf ▸ hi) fun e _ h => (hsorts h).elim
        · exact update_of_not_scans (hf ▸ rfl) he
        · obtain rfl := Option.some.inj he
          show _ ∨ p ∈ Function.update h.hazardPointerListTemp _ _ _
          rw [Function.update_self]
          rcases hk.read _ rfl p j s hp hprot with (hlt | ⟨rfl, hle⟩) | hm
          · exact Or.inl (Or.inl hlt)
          · rcases eq_or_ne pos s with rfl | hne
            · have hg : h.guardedPointers i pos = some p := hprot.2.2.2.1
              rw [hguard, Option.some_inj] at hg
              exact Or.inr (List.mem_append_right _ (List.mem_singleton.mpr hg.symm))
            · exact Or.inl (Or.inr ⟨rfl, by omega⟩)
          · exact Or.inr (List.mem_append_left _ hm)
        · obtain rfl := Option.some.inj he
          obtain rfl := Option.some.inj hn
          show (Function.update h.hazardPointerListTemp _ _ _).length ≤ _
          rw [Function.update_self, List.length_append, List.length_singleton]
          omega
  | scanClear helped =>
    have hlisted : Listed h (entry t helped) (h.retiredList (entry t helped)) := by
      refine hI.lists _ fun t' hs => ?_
      have ht : (pc t).scans t = some (entry t helped) := by
        rw [hf]
        rfl
      rw [hI.scanner_unique hs ht]
      exact hsorts
    refine hI.move rfl rfl rfl rfl rfl rfl (fun e he => ⟨?_, rfl⟩)
      ⟨hk.own, hk.holds, trivial, ?_, ?_, ?_, ?_⟩ (fun i hi => hf ▸ hi)
      fun e _ h => (hsorts h).elim
    · exact update_of_not_scans (hf ▸ rfl) he
    · exact fun e he p j s hp hprot => hk.read e he p j s hp hprot
    · intro e he n hn
      cases hn
    · intro e he l hl
      obtain rfl := Option.some.inj he
      obtain rfl := Option.some.inj hl
      show Listed _ _ (Function.update h.retiredListTemp _ _ _ ++ _)
      rw [Function.update_self]
      exact hlisted
    · intro _ _ _ h
      cases h
  | scanSearch helped it =>
    have hlisted := hk.sorting _ rfl _ rfl
    rw [HazardPointer.exec]
    split
    · rename_i hnone
      refine hI.goto ⟨hk.own, hk.holds, trivial, hk.read, ?_, ?_, ?_⟩ (fun i hi => hf ▸ hi)
        fun _ => ⟨by rw [hf]; rfl, trivial⟩
      · intro e he n hn
        cases hn
      · intro e he l hl
        obtain rfl := Option.some.inj he
        obtain rfl := Option.some.inj hl
        rw [List.drop_eq_nil_of_le (List.getElem?_eq_none_iff.mp hnone), List.append_nil] at hlisted
        exact hlisted
      · intro _ _ _ h
        cases h
    · rename_i pointer hpointer
      have hdrop : (h.retiredList (entry t helped)).drop it =
          pointer :: (h.retiredList (entry t helped)).drop (it + 1) := by
        obtain ⟨hlt, hget⟩ := List.getElem?_eq_some_iff.mp hpointer
        rw [List.drop_eq_getElem_cons hlt, hget]
      rw [hdrop] at hlisted
      split
      · refine hI.move rfl rfl rfl rfl rfl rfl (fun e he => ⟨?_, rfl⟩)
          ⟨hk.own, hk.holds, trivial, hk.read, ?_, ?_, ?_⟩ (fun i hi => hf ▸ hi)
          fun e he _ => ⟨?_, trivial⟩
        · exact update_of_not_scans (hf ▸ rfl) he
        · intro e he n hn
          cases hn
        · intro e he l hl
          obtain rfl := Option.some.inj he
          obtain rfl := Option.some.inj hl
          show Listed _ _ (Function.update h.retiredListTemp _ _ _ ++ _)
          rw [Function.update_self]
          unfold pushBack
          split
          · have hsub := List.Sublist.append_left
              (List.sublist_cons_self pointer ((h.retiredList (entry t helped)).drop (it + 1)))
              (h.retiredListTemp (entry t helped))
            exact ⟨hlisted.1.sublist hsub, fun q hq => hlisted.2 q (hsub.subset hq)⟩
          · rw [List.append_assoc, List.singleton_append]
            exact hlisted
        · intro _ _ _ h
          cases h
        · rw [hf] at he
          exact he
      · rename_i hspared
        refine hI.goto ⟨hk.own, hk.holds, trivial, hk.read, ?_, ?_, ?_⟩ (fun i hi => hf ▸ hi)
          fun _ => ⟨by rw [hf]; rfl, trivial⟩
        · intro e he n hn
          cases hn
        · intro e he l hl
          obtain rfl := Option.some.inj he
          obtain rfl := Option.some.inj hl
          exact hlisted
        · intro helped' it' p' h
          cases h
          exact hspared
  | scanFree helped it pointer => exact hI.free hf
  | scanSet helped =>
    cases helped with
    | none =>
      refine hI.finish hf (Frame.Knows.of_idle (fun h => h.elim) ?_ rfl trivial) ?_
      · intro i hi
        cases hi
      · intro i hi
        cases hi
    | some i =>
      exact hI.finish hf (Frame.Knows.of_idle (fun h => h.elim) hk.holds rfl trivial)
        fun j hj => hf ▸ hj
  | help i =>
    rw [HazardPointer.exec]
    split
    · exact hI.idle (fun h => h.elim) rfl trivial (fun i hi => by cases hi) hsorts
    · split
      · exact hI.idle (fun h => h.elim) rfl trivial (fun i hi => by cases hi) hsorts
      · exact hI.idle (fun h => h.elim) rfl trivial (fun i hi => by cases hi) hsorts
  | helpReserve i =>
    rw [HazardPointer.exec]
    split
    · rename_i hi
      have hleft : h.left i = true := by
        by_contra hn
        rw [hI.active i (Bool.not_eq_true _ ▸ hn)] at hi
        cases hi
      refine hI.setActive (hf ▸ rfl) (fun h => by cases h) (fun t' _ hh => ?_)
        (Frame.Knows.of_idle (fun h => h.elim) ?_ rfl trivial) fun j hj => ?_
      · rw [((hI.knows t').holds i hh).2] at hi
        cases hi
      · intro j hj
        obtain rfl := Option.some.inj hj
        exact ⟨hleft, Function.update_self ..⟩
      · exact (Option.some.inj hj).symm
    · exact hI.idle (fun h => h.elim) rfl trivial (fun i hi => by cases hi) hsorts
  | helpCount i =>
    rw [HazardPointer.exec]
    split
    · refine hI.goto (Frame.Knows.of_scan (fun h => by cases h) hk.holds
        trivial (fun _ _ _ _ _ _ _ => Or.inl trivial) (fun _ _ n hn => by cases hn) id)
        (fun i hi => hf ▸ hi) fun h => (hsorts h).elim
    · exact hI.idle (fun h => h.elim) rfl trivial (fun j hj => hf ▸ hj) hsorts
  | helpDeactivate i =>
    refine hI.setActive (hf ▸ rfl) (fun _ => (hk.holds i rfl).1)
      (fun t' ht => hI.holds_ne (hf ▸ rfl) ht)
      (Frame.Knows.of_idle (fun h => h.elim) ?_ rfl trivial) fun j hj => ?_
    · intro j hj
      cases hj
    · cases hj
  | deactivate =>
    rw [HazardPointer.exec]
    split
    · exact hI.idle (fun _ => hk.own trivial) rfl trivial (fun i hi => by cases hi) hsorts
    · exact hI.idle (fun h => h.elim) rfl trivial (fun i hi => by cases hi) hsorts
  | deactivateSet => exact hI.leave hf
  | deactivateRead =>
    exact hI.idle (fun h => h.elim) rfl trivial (fun i hi => by cases hi) hsorts
  | deactivateCount activeHazardPointer =>
    rw [HazardPointer.exec]
    generalize decrement activeHazardPointer = count
    refine hI.move rfl rfl rfl rfl rfl rfl (fun _ _ => ⟨rfl, rfl⟩)
      (Frame.Knows.of_idle (fun h => h.elim) ?_ rfl trivial) ?_ fun e _ h => (hsorts h).elim
    · intro i hi
      cases hi
    · intro i hi
      cases hi

/-- A thread that has not left calls `DeactivateCurrentThread`. -/
theorem deactivate (hI : Inv z h pc) (hc : pc t = .client) (hl : h.left t = false) :
    Inv z h (Function.update pc t .deactivate) :=
  hI.idle (fun _ => hl) rfl trivial (fun i hi => by cases hi) fun hs => by
    rw [hc] at hs
    exact hs

end Inv

section Unchanged

variable [DecidableEq N]

/-- Only freeing a pointer changes which pointers are retired. -/
theorem exec_pending {z : Sizes} {t : ℕ} {f : Frame N} (h : Hazards N)
    (hf : ∀ helped it p, f ≠ .scanFree helped it p) :
    (exec z t f h).1.pending = h.pending := by
  cases f with
  | scanFree helped it p => exact absurd rfl (hf helped it p)
  | _ =>
    unfold exec
    dsimp only
    repeat' split
    all_goals rfl

/-- The functions leave the guards alone. -/
theorem exec_guards (z : Sizes) (t : ℕ) (f : Frame N) (h : Hazards N) :
    (exec z t f h).1.guardedPointers = h.guardedPointers ∧ (exec z t f h).1.early = h.early := by
  cases f with
  | _ =>
    unfold exec
    dsimp only
    repeat' split
    all_goals exact ⟨rfl, rfl⟩

/-- A thread that is not leaving does not leave. -/
theorem exec_left {z : Sizes} {t : ℕ} {f : Frame N} (h : Hazards N) (hf : ¬ f.Leaves) :
    (exec z t f h).1.left = h.left ∧ ¬ (exec z t f h).2.Leaves := by
  cases f with
  | deactivate => exact (hf trivial).elim
  | deactivateSet => exact (hf trivial).elim
  | deactivateRead => exact (hf trivial).elim
  | deactivateCount n => exact (hf trivial).elim
  | scanSet helped => cases helped <;> exact ⟨rfl, id⟩
  | _ =>
    unfold exec
    dsimp only
    repeat' split
    all_goals exact ⟨rfl, id⟩

end Unchanged

theorem inv_create (z : Sizes) (temp : ℕ → List N) : Inv z (create z temp) fun _ => .client where
  active _ _ := rfl
  knows _ := Frame.Knows.of_idle (fun h => h.elim) (fun i hi => by cases hi) rfl trivial
  unique _ _ _ h := by cases h
  lists _ _ := ⟨List.nodup_nil, fun _ hp => absurd hp List.not_mem_nil⟩

end Embb.Containers.HazardPointer
