import Mathlib.Data.Finset.Card
import Embb.Containers.HazardPointerSafety

/-!
# Retired pointers

The retired list of an entry has room for as many pointers as the threshold lets through, and
a scan keeps at most one pointer for each guard. No list is therefore ever full when a pointer
is to be added to it, and no pointer is dropped.
-/

namespace Embb.Containers.HazardPointer

open Threads

variable {N : Type}

/-! ## Room in the lists -/

/-- The entry `e` has been read by a scan, and the pointers kept so far are guarded. -/
structure ScanKeeps (z : Sizes) (h : Hazards N) (e : ℕ) : Prop where
  hazards : (h.hazardPointerListTemp e).length ≤ z.hazardPointers * z.guardsPerThread
  kept : ∀ p ∈ h.retiredListTemp e, p ∈ h.hazardPointerListTemp e

/-- What the lists of a scan hold at most. -/
def Frame.Fits (z : Sizes) (h : Hazards N) (t : ℕ) : Frame N → Prop
  | .scanClear helped =>
    (h.hazardPointerListTemp (entry t helped)).length ≤ z.hazardPointers * z.guardsPerThread
  | .scanSearch helped it =>
    ScanKeeps z h (entry t helped) ∧ (h.retiredListTemp (entry t helped)).length ≤ it
  | .scanFree helped it _ =>
    ScanKeeps z h (entry t helped) ∧ (h.retiredListTemp (entry t helped)).length ≤ it
  | .scanSet helped => ScanKeeps z h (entry t helped)
  | _ => True

/-- Whether a thread can add a pointer to its list before a scan. -/
def Frame.Rests (t : ℕ) (f : Frame N) : Prop := f ≠ .threshold ∧ f.scans t ≠ some t

/-- The retired lists hold all pointers that are retired, and those of threads that are not about
to scan have room for one more. -/
structure Retired (z : Sizes) (h : Hazards N) (pc : ℕ → Frame N) : Prop where
  fits : ∀ t, (pc t).Fits z h t
  sorted : ∀ t e, (pc t).scans t = some e → ∀ l, (pc t).sorting h t = some l →
    ∀ p, h.pending p = some e → p ∈ l
  listed : ∀ p e, h.pending p = some e → e < z.hazardPointers ∧ p ∈ h.retiredList e
  length : ∀ e, (h.retiredList e).length ≤ z.getRetiredListMaxSize
  room : ∀ t, (pc t).Rests t → (h.retiredList t).length < z.getRetiredListMaxSize

/-- The frame of a thread that has left and has not yet decremented the count. -/
def Frame.counts : Frame N → Bool
  | .deactivateRead => true
  | .deactivateCount _ => true
  | _ => false

/-- The threads that have not left or not yet decremented the count. -/
def staying (z : Sizes) (h : Hazards N) (pc : ℕ → Frame N) : Finset ℕ :=
  (Finset.range z.hazardPointers).filter fun t => (!h.left t || (pc t).counts) = true

/-- The count of active entries covers the threads that have not left, and never grows. -/
structure Counted (z : Sizes) (h : Hazards N) (pc : ℕ → Frame N) : Prop where
  active : (staying z h pc).card ≤ h.activeHazardPointer ∧
    h.activeHazardPointer ≤ z.hazardPointers
  read : ∀ t n, pc t = .deactivateCount n → (staying z h pc).card ≤ n ∧ n ≤ z.hazardPointers
  left : ∀ t, (pc t).counts = true → h.left t = true

/-- As many pointers as there are guards leave room for one more. -/
theorem guards_lt (z : Sizes) : z.hazardPointers * z.guardsPerThread < z.getRetiredListMaxSize := by
  unfold Sizes.getRetiredListMaxSize
  omega

/-- So do as many pointers as the threshold lets through. -/
theorem lt_of_not_exceeded {z : Sizes} {active retired : ℕ} (ha : active ≤ z.hazardPointers)
    (h : ¬ isThresholdExceeded z active retired) : retired < z.getRetiredListMaxSize := by
  unfold isThresholdExceeded at h
  unfold Sizes.getRetiredListMaxSize
  have hle := Nat.mul_le_mul_right z.guardsPerThread ha
  omega

/-- A scan keeps at most one pointer for each guard. -/
theorem ScanKeeps.length_lt {z : Sizes} {h : Hazards N} {e : ℕ} (hk : ScanKeeps z h e)
    (hn : (h.retiredListTemp e).Nodup) :
    (h.retiredListTemp e).length < z.getRetiredListMaxSize := by
  classical
  have hsub : (h.retiredListTemp e).toFinset ⊆ (h.hazardPointerListTemp e).toFinset := by
    intro p hp
    exact List.mem_toFinset.mpr (hk.kept p (List.mem_toFinset.mp hp))
  have hle := Finset.card_le_card hsub
  rw [List.toFinset_card_of_nodup hn] at hle
  have hhaz := List.toFinset_card_le (h.hazardPointerListTemp e)
  have hguards := guards_lt z
  have hmax := hk.hazards
  omega

theorem pushBack_of_lt {maxSize : ℕ} {l : List N} (hl : l.length < maxSize) (el : N) :
    pushBack maxSize l el = l ++ [el] :=
  if_neg (by omega)

/-- Lists that stay the same fit as before. -/
theorem Frame.Fits.congr {z : Sizes} {h h' : Hazards N} {t : ℕ} {f : Frame N}
    (hk : f.Fits z h t)
    (hl : ∀ e, f.scans t = some e → h'.retiredListTemp e = h.retiredListTemp e ∧
      h'.hazardPointerListTemp e = h.hazardPointerListTemp e) : f.Fits z h' t := by
  have hkeeps : ∀ e, f.scans t = some e → ScanKeeps z h e → ScanKeeps z h' e := by
    intro e he hs
    obtain ⟨h1, h2⟩ := hl e he
    constructor
    · rw [h2]
      exact hs.hazards
    · rw [h1, h2]
      exact hs.kept
  cases f with
  | scanClear helped =>
    show (h'.hazardPointerListTemp (entry t helped)).length ≤ _
    rw [(hl _ rfl).2]
    exact hk
  | scanSearch helped it =>
    refine ⟨hkeeps _ rfl hk.1, ?_⟩
    rw [(hl _ rfl).1]
    exact hk.2
  | scanFree helped it p =>
    refine ⟨hkeeps _ rfl hk.1, ?_⟩
    rw [(hl _ rfl).1]
    exact hk.2
  | scanSet helped => exact hkeeps _ rfl hk
  | _ => trivial

namespace Retired

variable {z : Sizes} {h h' : Hazards N} {pc : ℕ → Frame N} {t : ℕ} {f' : Frame N}

/-- A step that changes at most the temporary lists of the entry that is scanned. -/
theorem move (hR : Retired z h pc) (hI : Inv z h pc) (hretired : h'.retiredList = h.retiredList)
    (hpending : ∀ p e, h'.pending p = some e → h.pending p = some e)
    (htemp : ∀ e, (pc t).scans t ≠ some e → h'.retiredListTemp e = h.retiredListTemp e ∧
      h'.hazardPointerListTemp e = h.hazardPointerListTemp e)
    (hk : f'.Fits z h' t)
    (hsorted : ∀ e, f'.scans t = some e → ∀ l, f'.sorting h' t = some l →
      ∀ p, h'.pending p = some e → p ∈ l)
    (hroom : f'.Rests t → (pc t).Rests t ∨ (h.retiredList t).length < z.getRetiredListMaxSize) :
    Retired z h' (Function.update pc t f') := by
  have hne : ∀ t' ≠ t, ∀ e, (pc t').scans t' = some e → (pc t).scans t ≠ some e :=
    fun t' ht e he hs => ht (hI.scanner_unique he hs)
  constructor
  · intro t'
    rcases eq_or_ne t' t with rfl | ht
    · rw [Function.update_self]
      exact hk
    · rw [Function.update_of_ne ht]
      exact (hR.fits t').congr fun e he => htemp e (hne t' ht e he)
  · intro t' e he l hl p hp
    rcases eq_or_ne t' t with rfl | ht
    · rw [Function.update_self] at he hl
      exact hsorted e he l hl p hp
    · rw [Function.update_of_ne ht] at he hl
      rw [Frame.sorting_congr fun e he =>
        ⟨congrFun hretired e, (htemp e (hne t' ht e he)).1⟩] at hl
      exact hR.sorted t' e he l hl p (hpending p e hp)
  · intro p e hp
    rw [hretired]
    exact hR.listed p e (hpending p e hp)
  · rw [hretired]
    exact hR.length
  · intro t' hrest
    rw [hretired]
    rcases eq_or_ne t' t with rfl | ht
    · rw [Function.update_self] at hrest
      exact (hroom hrest).elim (hR.room t') id
    · rw [Function.update_of_ne ht] at hrest
      exact hR.room t' hrest

/-- A step to a frame that does not scan, where no list changes. -/
theorem goto (hR : Retired z h pc) (hI : Inv z h pc) (hs : f'.scans t = none)
    (hroom : f'.Rests t → (pc t).Rests t ∨ (h.retiredList t).length < z.getRetiredListMaxSize)
    (hretired : h'.retiredList = h.retiredList) (hpending : h'.pending = h.pending)
    (htemp : h'.retiredListTemp = h.retiredListTemp)
    (hhazards : h'.hazardPointerListTemp = h.hazardPointerListTemp) :
    Retired z h' (Function.update pc t f') := by
  refine hR.move hI hretired (fun p e hp => hpending ▸ hp)
    (fun e _ => ⟨congrFun htemp e, congrFun hhazards e⟩) ?_ (fun e he => ?_) hroom
  · cases f' with
    | scanClear helped => cases hs
    | scanSearch helped it => cases hs
    | scanFree helped it p => cases hs
    | scanSet helped => cases hs
    | _ => trivial
  · rw [hs] at he
    cases he

/-- A scan ends with the pointers that it has kept. -/
theorem finish (hR : Retired z h pc) (hI : Inv z h pc) {helped : Option ℕ}
    (hf : pc t = .scanSet helped) (hs : f'.scans t = none) :
    Retired z { h with
      retiredList := Function.update h.retiredList (entry t helped)
        (h.retiredListTemp (entry t helped)) } (Function.update pc t f') := by
  have hscans : (pc t).scans t = some (entry t helped) := by rw [hf]; rfl
  have hkeeps : ScanKeeps z h (entry t helped) := by
    have hfit := hR.fits t
    rwa [hf] at hfit
  have hsorting : (pc t).sorting h t = some (h.retiredListTemp (entry t helped)) := by
    rw [hf]
    rfl
  have hlt := hkeeps.length_lt ((hI.knows t).sorting _ hscans _ hsorting).1
  have hne : ∀ t' ≠ t, (pc t').scans t' ≠ some (entry t helped) :=
    fun t' ht he => ht (hI.scanner_unique he hscans)
  constructor
  · intro t'
    rcases eq_or_ne t' t with rfl | ht
    · rw [Function.update_self]
      cases f' with
      | scanClear helped => cases hs
      | scanSearch helped it => cases hs
      | scanFree helped it p => cases hs
      | scanSet helped => cases hs
      | _ => trivial
    · rw [Function.update_of_ne ht]
      exact (hR.fits t').congr fun _ _ => ⟨rfl, rfl⟩
  · intro t' e he l hl p hp
    rcases eq_or_ne t' t with rfl | ht
    · rw [Function.update_self, hs] at he
      cases he
    · rw [Function.update_of_ne ht] at he hl
      have hsame : (pc t').sorting { h with
          retiredList := Function.update h.retiredList (entry t helped)
            (h.retiredListTemp (entry t helped)) } t' = (pc t').sorting h t' := by
        refine Frame.sorting_congr fun e' he' => ⟨Function.update_of_ne ?_ _ _, rfl⟩
        rintro rfl
        exact hne t' ht he'
      rw [hsame] at hl
      exact hR.sorted t' e he l hl p hp
  · intro p e hp
    obtain ⟨hlt', hm⟩ := hR.listed p e hp
    refine ⟨hlt', ?_⟩
    show p ∈ Function.update h.retiredList (entry t helped) _ e
    rcases eq_or_ne e (entry t helped) with rfl | hel
    · rw [Function.update_self]
      exact hR.sorted t _ hscans _ hsorting p hp
    · rwa [Function.update_of_ne hel]
  · intro e
    show (Function.update h.retiredList (entry t helped) _ e).length ≤ _
    rcases eq_or_ne e (entry t helped) with rfl | hel
    · rw [Function.update_self]
      exact hlt.le
    · rw [Function.update_of_ne hel]
      exact hR.length e
  · intro t' hrest
    show (Function.update h.retiredList (entry t helped) _ t').length < _
    rcases eq_or_ne t' (entry t helped) with rfl | hel
    · rw [Function.update_self]
      exact hlt
    · rw [Function.update_of_ne hel]
      refine hR.room t' ?_
      rcases eq_or_ne t' t with rfl | ht
      · refine ⟨?_, ?_⟩
        · rw [hf]
          exact fun h => by cases h
        · rw [hscans]
          exact fun h => hel (Option.some.inj h).symm
      · rwa [Function.update_of_ne ht] at hrest

/-- Every step of a thread inside the functions keeps the pointers. -/
theorem exec [DecidableEq N] (hR : Retired z h pc) (hI : Inv z h pc)
    (ha : h.activeHazardPointer ≤ z.hazardPointers) (t : ℕ) :
    Retired z (exec z t (pc t) h).1 (Function.update pc t (exec z t (pc t) h).2) := by
  have hk := hI.knows t
  have hfit := hR.fits t
  have hsort := hR.sorted t
  generalize hf : pc t = f at hk hfit hsort ⊢
  have hscans : (pc t).scans t = f.scans t := by rw [hf]
  have hsorting : (pc t).sorting h t = f.sorting h t := by rw [hf]
  have hrests : ∀ {f' : Frame N}, f ≠ .threshold → (f'.scans t = f.scans t ∨ f.scans t = none) →
      f'.Rests t → (pc t).Rests t ∨ (h.retiredList t).length < z.getRetiredListMaxSize := by
    intro f' hne hs hrest
    refine Or.inl ⟨hf ▸ hne, ?_⟩
    rw [hf]
    rcases hs with hs | hs
    · rw [← hs]
      exact hrest.2
    · rw [hs]
      exact fun h => by cases h
  cases f with
  | client => exact hR.goto hI rfl (hrests (by simp) (Or.inl rfl)) rfl rfl rfl rfl
  | threshold =>
    rw [HazardPointer.exec]
    split
    · exact hR.move hI rfl (fun _ _ hp => hp) (fun _ _ => ⟨rfl, rfl⟩) trivial
        (fun _ _ l hl => by cases hl) fun hrest => absurd rfl hrest.2
    · rename_i hbelow
      exact hR.goto hI rfl (fun _ => Or.inr (lt_of_not_exceeded ha hbelow)) rfl rfl rfl rfl
  | scan helped =>
    refine hR.move hI rfl (fun _ _ hp => hp) (fun e he => ⟨rfl, ?_⟩) trivial
      (fun _ _ l hl => by cases hl) (hrests (by simp) (Or.inl rfl))
    refine Function.update_of_ne ?_ _ _
    rintro rfl
    exact he hscans
  | scanEntry helped i =>
    rw [HazardPointer.exec]
    split
    · rename_i hi
      refine hR.move hI rfl (fun _ _ hp => hp) (fun _ _ => ⟨rfl, rfl⟩) ?_
        (fun _ _ l hl => by cases hl) (hrests (by simp) (Or.inl rfl))
      have hroom := hk.room _ rfl _ rfl
      rw [hi] at hroom
      exact hroom
    split
    · exact hR.move hI rfl (fun _ _ hp => hp) (fun _ _ => ⟨rfl, rfl⟩) trivial
        (fun _ _ l hl => by cases hl) (hrests (by simp) (Or.inl rfl))
    · exact hR.move hI rfl (fun _ _ hp => hp) (fun _ _ => ⟨rfl, rfl⟩) trivial
        (fun _ _ l hl => by cases hl) (hrests (by simp) (Or.inl rfl))
  | scanGuard helped i pos =>
    rw [HazardPointer.exec]
    split
    · exact hR.move hI rfl (fun _ _ hp => hp) (fun _ _ => ⟨rfl, rfl⟩) trivial
        (fun _ _ l hl => by cases hl) (hrests (by simp) (Or.inl rfl))
    split
    · exact hR.move hI rfl (fun _ _ hp => hp) (fun _ _ => ⟨rfl, rfl⟩) trivial
        (fun _ _ l hl => by cases hl) (hrests (by simp) (Or.inl rfl))
    · refine hR.move hI rfl (fun _ _ hp => hp) (fun e he => ⟨rfl, ?_⟩) trivial
        (fun _ _ l hl => by cases hl) (hrests (by simp) (Or.inl rfl))
      refine Function.update_of_ne ?_ _ _
      rintro rfl
      exact he hscans
  | scanClear helped =>
    rw [HazardPointer.exec]
    refine hR.move hI rfl (fun _ _ hp => hp) (fun e he => ⟨?_, rfl⟩) ⟨⟨hfit, ?_⟩, ?_⟩
      (fun e he l hl p hp => ?_) (hrests (by simp) (Or.inl rfl))
    · refine Function.update_of_ne ?_ _ _
      rintro rfl
      exact he hscans
    · intro p hp
      simp only [Function.update_self] at hp
      exact absurd hp List.not_mem_nil
    · simp only [Function.update_self]
      exact Nat.zero_le _
    · obtain rfl := Option.some.inj he
      obtain rfl := Option.some.inj hl
      simp only [Function.update_self]
      exact (hR.listed p _ hp).2
  | scanSearch helped it =>
    obtain ⟨hkeeps, hlen⟩ : ScanKeeps z h (entry t helped) ∧
      (h.retiredListTemp (entry t helped)).length ≤ it := hfit
    rw [HazardPointer.exec]
    split
    · rename_i hnone
      refine hR.move hI rfl (fun _ _ hp => hp) (fun _ _ => ⟨rfl, rfl⟩) hkeeps
        (fun e he l hl p hp => ?_) (hrests (by simp) (Or.inl rfl))
      obtain rfl := Option.some.inj hl
      have hmem := hsort e he _ rfl p hp
      rwa [List.drop_eq_nil_of_le (List.getElem?_eq_none_iff.mp hnone), List.append_nil] at hmem
    · rename_i pointer hpointer
      obtain ⟨hlt, hget⟩ := List.getElem?_eq_some_iff.mp hpointer
      have hdrop : (h.retiredList (entry t helped)).drop it =
          pointer :: (h.retiredList (entry t helped)).drop (it + 1) := by
        rw [List.drop_eq_getElem_cons hlt, hget]
      split
      · rename_i hguarded
        have hmax := hR.length (entry t helped)
        rw [pushBack_of_lt (by omega)]
        refine hR.move hI rfl (fun _ _ hp => hp) (fun e he => ⟨?_, rfl⟩)
          ⟨⟨hkeeps.hazards, fun p hp => ?_⟩, ?_⟩ (fun e he l hl p hp => ?_)
          (hrests (by simp) (Or.inl rfl))
        · refine Function.update_of_ne ?_ _ _
          rintro rfl
          exact he hscans
        · simp only [Function.update_self] at hp
          rcases List.mem_append.mp hp with hp | hp
          · exact hkeeps.kept p hp
          · rw [List.mem_singleton.mp hp]
            exact hguarded
        · simp only [Function.update_self, List.length_append, List.length_singleton]
          omega
        · obtain rfl := Option.some.inj he
          obtain rfl := Option.some.inj hl
          have hmem := hsort _ rfl _ rfl p hp
          rw [hdrop] at hmem
          simp only [Function.update_self, List.append_assoc, List.singleton_append]
          exact hmem
      · refine hR.move hI rfl (fun _ _ hp => hp) (fun _ _ => ⟨rfl, rfl⟩) ⟨hkeeps, hlen⟩
          (fun e he l hl p hp => ?_) (hrests (by simp) (Or.inl rfl))
        obtain rfl := Option.some.inj hl
        have hmem := hsort e he _ rfl p hp
        rwa [hdrop] at hmem
  | scanFree helped it pointer =>
    obtain ⟨hkeeps, hlen⟩ : ScanKeeps z h (entry t helped) ∧
      (h.retiredListTemp (entry t helped)).length ≤ it := hfit
    have hback : ∀ p e, Function.update h.pending pointer none p = some e →
        p ≠ pointer ∧ h.pending p = some e := by
      intro p e hp
      rcases eq_or_ne p pointer with rfl | hne
      · rw [Function.update_self] at hp
        cases hp
      · rw [Function.update_of_ne hne] at hp
        exact ⟨hne, hp⟩
    refine hR.move hI rfl (fun p e hp => (hback p e hp).2) (fun _ _ => ⟨rfl, rfl⟩)
      ⟨⟨hkeeps.hazards, hkeeps.kept⟩, ?_⟩ (fun e he l hl p hp => ?_)
      (hrests (by simp) (Or.inl rfl))
    · exact hlen.trans (Nat.le_succ it)
    · obtain rfl := Option.some.inj hl
      obtain ⟨hne, hp⟩ := hback p e hp
      have hmem := hsort e he _ rfl p hp
      rcases List.mem_append.mp hmem with hmem | hmem
      · exact List.mem_append_left _ hmem
      · exact List.mem_append_right _ ((List.mem_cons.mp hmem).resolve_left hne)
  | scanSet helped =>
    cases helped with
    | none => exact hR.finish hI hf rfl
    | some i => exact hR.finish hI hf rfl
  | help i =>
    rw [HazardPointer.exec]
    split
    · exact hR.goto hI rfl (hrests (by simp) (Or.inr rfl)) rfl rfl rfl rfl
    split
    · exact hR.goto hI rfl (hrests (by simp) (Or.inr rfl)) rfl rfl rfl rfl
    · exact hR.goto hI rfl (hrests (by simp) (Or.inr rfl)) rfl rfl rfl rfl
  | helpReserve i =>
    rw [HazardPointer.exec]
    split
    · exact hR.goto hI rfl (hrests (by simp) (Or.inr rfl)) rfl rfl rfl rfl
    · exact hR.goto hI rfl (hrests (by simp) (Or.inr rfl)) rfl rfl rfl rfl
  | helpCount i =>
    rw [HazardPointer.exec]
    split
    · exact hR.move hI rfl (fun _ _ hp => hp) (fun _ _ => ⟨rfl, rfl⟩) trivial
        (fun _ _ l hl => by cases hl) (hrests (by simp) (Or.inr rfl))
    · exact hR.goto hI rfl (hrests (by simp) (Or.inr rfl)) rfl rfl rfl rfl
  | helpDeactivate i =>
    exact hR.goto hI rfl (hrests (by simp) (Or.inr rfl)) rfl rfl rfl rfl
  | deactivate =>
    rw [HazardPointer.exec]
    split
    · exact hR.goto hI rfl (hrests (by simp) (Or.inr rfl)) rfl rfl rfl rfl
    · exact hR.goto hI rfl (hrests (by simp) (Or.inr rfl)) rfl rfl rfl rfl
  | deactivateSet =>
    exact hR.goto hI rfl (hrests (by simp) (Or.inr rfl)) rfl rfl rfl rfl
  | deactivateRead =>
    exact hR.goto hI rfl (hrests (by simp) (Or.inr rfl)) rfl rfl rfl rfl
  | deactivateCount n =>
    rw [HazardPointer.exec]
    generalize decrement n = count
    exact hR.goto hI rfl (hrests (by simp) (Or.inr rfl)) rfl rfl rfl rfl

/-- A thread that has not left adds a pointer to its list. -/
theorem retire [DecidableEq N] (hR : Retired z h pc) (hI : Inv z h pc) {p : N}
    (hc : pc t = .client) (hl : h.left t = false) (ht : t < z.hazardPointers) :
    Retired z (addRetired z t p h) (Function.update pc t .threshold) := by
  have hne : ∀ t', (pc t').scans t' ≠ some t := by
    intro t' hs
    rcases Frame.holds_or_own hs with hh | ⟨-, rfl⟩
    · have h1 := ((hI.knows t').holds t hh).1
      rw [hl] at h1
      cases h1
    · rw [hc] at hs
      cases hs
  have hlt : (h.retiredList t).length < z.getRetiredListMaxSize := by
    refine hR.room t ?_
    rw [hc]
    exact ⟨fun h => (by cases h), fun h => (by cases h)⟩
  have hlist : (addRetired z t p h).retiredList =
      Function.update h.retiredList t (h.retiredList t ++ [p]) := by
    rw [addRetired, pushBack_of_lt hlt]
  have hpending : ∀ {e q}, (addRetired z t p h).pending q = some e →
      q = p ∧ e = t ∨ h.pending q = some e := by
    intro e q hq
    have hq' : Function.update h.pending p (some t) q = some e := hq
    rcases eq_or_ne q p with rfl | hqp
    · rw [Function.update_self, Option.some_inj] at hq'
      exact Or.inl ⟨rfl, hq'.symm⟩
    · rw [Function.update_of_ne hqp] at hq'
      exact Or.inr hq'
  constructor
  · intro t'
    rcases eq_or_ne t' t with rfl | ht
    · rw [Function.update_self]
      trivial
    · rw [Function.update_of_ne ht]
      exact (hR.fits t').congr fun _ _ => ⟨rfl, rfl⟩
  · intro t' e he l hl q hq
    rcases eq_or_ne t' t with rfl | ht
    · rw [Function.update_self] at he
      cases he
    · rw [Function.update_of_ne ht] at he hl
      have hsame : (pc t').sorting (addRetired z t p h) t' = (pc t').sorting h t' := by
        refine Frame.sorting_congr fun e' he' => ⟨?_, rfl⟩
        rw [hlist]
        refine Function.update_of_ne ?_ _ _
        rintro rfl
        exact hne t' he'
      rw [hsame] at hl
      rcases hpending hq with ⟨-, rfl⟩ | hq
      · exact absurd he (hne t')
      · exact hR.sorted t' e he l hl q hq
  · intro q e hq
    rw [hlist]
    rcases hpending hq with ⟨rfl, rfl⟩ | hq
    · rw [Function.update_self]
      exact ⟨ht, List.mem_append_right _ (List.mem_singleton.mpr rfl)⟩
    · obtain ⟨hlt', hm⟩ := hR.listed q e hq
      refine ⟨hlt', ?_⟩
      rcases eq_or_ne e t with rfl | het
      · rw [Function.update_self]
        exact List.mem_append_left _ hm
      · rwa [Function.update_of_ne het]
  · intro e
    rw [hlist]
    rcases eq_or_ne e t with rfl | het
    · rw [Function.update_self, List.length_append, List.length_singleton]
      omega
    · rw [Function.update_of_ne het]
      exact hR.length e
  · intro t' hrest
    rcases eq_or_ne t' t with rfl | ht
    · rw [Function.update_self] at hrest
      exact absurd rfl hrest.1
    · rw [Function.update_of_ne ht] at hrest
      rw [hlist, Function.update_of_ne ht]
      exact hR.room t' hrest

end Retired

theorem Frame.counts_eq_false {f : Frame N} (h : ¬ f.Leaves) : f.counts = false := by
  cases f with
  | deactivateRead => exact absurd trivial h
  | deactivateCount n => exact absurd trivial h
  | _ => rfl

/-- Only a thread that is leaving changes the count. -/
theorem exec_active [DecidableEq N] {z : Sizes} {t : ℕ} {f : Frame N} (h : Hazards N)
    (hf : ¬ f.Leaves) : (exec z t f h).1.activeHazardPointer = h.activeHazardPointer := by
  cases f with
  | deactivateCount n => exact absurd trivial hf
  | _ =>
    unfold exec
    dsimp only
    repeat' split
    all_goals rfl

namespace Counted

variable {z : Sizes} {h h' : Hazards N} {pc : ℕ → Frame N} {t : ℕ} {f' : Frame N}

/-- A step that neither leaves nor counts. -/
theorem move (hC : Counted z h pc) (hleft : h'.left = h.left)
    (hactive : h'.activeHazardPointer = h.activeHazardPointer) (hf : (pc t).counts = false)
    (hf' : f'.counts = false) : Counted z h' (Function.update pc t f') := by
  have hsame : ∀ t', (Function.update pc t f' t').counts = (pc t').counts := by
    intro t'
    rcases eq_or_ne t' t with rfl | ht
    · rw [Function.update_self, hf, hf']
    · rw [Function.update_of_ne ht]
  have hstay : staying z h' (Function.update pc t f') = staying z h pc := by
    unfold staying
    simp only [hsame, hleft]
  constructor
  · rw [hstay, hactive]
    exact hC.active
  · intro t' n hn
    rw [hstay]
    rcases eq_or_ne t' t with rfl | ht
    · rw [Function.update_self] at hn
      rw [hn] at hf'
      cases hf'
    · rw [Function.update_of_ne ht] at hn
      exact hC.read t' n hn
  · intro t' ht'
    rw [hsame] at ht'
    rw [hleft]
    exact hC.left t' ht'

/-- Every step of a thread inside the functions keeps the count. -/
theorem exec [DecidableEq N] (hC : Counted z h pc) (hI : Inv z h pc)
    (ht : t < z.hazardPointers) :
    Counted z (exec z t (pc t) h).1 (Function.update pc t (exec z t (pc t) h).2) := by
  by_cases hc : ¬ (pc t).Leaves
  · obtain ⟨hleft, hc'⟩ := exec_left (z := z) (t := t) h hc
    exact hC.move hleft (exec_active h hc) (Frame.counts_eq_false hc) (Frame.counts_eq_false hc')
  have hk := hI.knows t
  generalize hf : pc t = f at hk hc ⊢
  cases f with
  | deactivate =>
    rw [HazardPointer.exec]
    split
    · exact hC.move rfl rfl (hf ▸ rfl) rfl
    · exact hC.move rfl rfl (hf ▸ rfl) rfl
  | deactivateSet =>
    have hl : h.left t = false := hk.own trivial
    have hstay : staying z (HazardPointer.exec z t (.deactivateSet : Frame N) h).1
        (Function.update pc t .deactivateRead) = staying z h pc := by
      refine Finset.filter_congr fun t' _ => ?_
      show (!Function.update h.left t true t' ||
        (Function.update pc t .deactivateRead t').counts) = true ↔ _
      rcases eq_or_ne t' t with rfl | hne
      · rw [Function.update_self, hl]
        simp [Frame.counts]
      · rw [Function.update_of_ne hne, Function.update_of_ne hne]
    constructor
    · show (staying z _ (Function.update pc t .deactivateRead)).card ≤ _ ∧ _
      rw [hstay]
      exact hC.active
    · intro t' n hn
      show (staying z _ (Function.update pc t .deactivateRead)).card ≤ _ ∧ _
      rw [hstay]
      rcases eq_or_ne t' t with rfl | hne
      · rw [Function.update_self] at hn
        cases hn
      · rw [Function.update_of_ne hne] at hn
        exact hC.read t' n hn
    · intro t' ht'
      show Function.update h.left t true t' = true
      rcases eq_or_ne t' t with rfl | hne
      · rw [Function.update_self]
      · rw [Function.update_of_ne hne] at ht' ⊢
        exact hC.left t' ht'
  | deactivateRead =>
    have hstay : staying z h (Function.update pc t (.deactivateCount h.activeHazardPointer)) =
        staying z h pc := by
      refine Finset.filter_congr fun t' _ => ?_
      rcases eq_or_ne t' t with rfl | hne
      · rw [Function.update_self, hf]
        rfl
      · rw [Function.update_of_ne hne]
    constructor
    · show (staying z h (Function.update pc t (.deactivateCount h.activeHazardPointer))).card ≤
        _ ∧ _
      rw [hstay]
      exact hC.active
    · intro t' n hn
      show (staying z h (Function.update pc t (.deactivateCount h.activeHazardPointer))).card ≤
        _ ∧ _
      rw [hstay]
      rcases eq_or_ne t' t with rfl | hne
      · rw [Function.update_self] at hn
        cases hn
        exact hC.active
      · rw [Function.update_of_ne hne] at hn
        exact hC.read t' n hn
    · intro t' ht'
      rcases eq_or_ne t' t with rfl | hne
      · exact hC.left t' (hf ▸ rfl)
      · rw [Function.update_of_ne hne] at ht'
        exact hC.left t' ht'
  | deactivateCount n =>
    have hl : h.left t = true := hC.left t (hf ▸ rfl)
    obtain ⟨hcard, hn⟩ := hC.read t n hf
    have hmem : t ∈ staying z h pc := by
      refine Finset.mem_filter.mpr ⟨Finset.mem_range.mpr ht, ?_⟩
      rw [hf, hl]
      rfl
    have hpos := Finset.card_pos.mpr ⟨t, hmem⟩
    have hstay : staying z (HazardPointer.exec z t (.deactivateCount n : Frame N) h).1
        (Function.update pc t .client) = (staying z h pc).erase t := by
      ext t'
      rw [Finset.mem_erase, staying, staying, Finset.mem_filter, Finset.mem_filter]
      show _ ∧ (!h.left t' || (Function.update pc t .client t').counts) = true ↔ _
      rcases eq_or_ne t' t with rfl | hne
      · rw [Function.update_self, hl]
        simp [Frame.counts]
      · rw [Function.update_of_ne hne]
        simp [hne]
    have hcard' : (staying z (HazardPointer.exec z t (.deactivateCount n : Frame N) h).1
        (Function.update pc t .client)).card = (staying z h pc).card - 1 := by
      rw [hstay, Finset.card_erase_of_mem hmem]
    constructor
    · show (staying z _ (Function.update pc t .client)).card ≤ decrement n ∧ decrement n ≤ _
      rw [hcard', decrement, if_neg (by omega)]
      omega
    · intro t' n' hn'
      show (staying z _ (Function.update pc t .client)).card ≤ _ ∧ _
      rw [hcard']
      rcases eq_or_ne t' t with rfl | hne
      · rw [Function.update_self] at hn'
        cases hn'
      · rw [Function.update_of_ne hne] at hn'
        obtain ⟨h1, h2⟩ := hC.read t' n' hn'
        exact ⟨by omega, h2⟩
    · intro t' ht'
      rcases eq_or_ne t' t with rfl | hne
      · rw [Function.update_self] at ht'
        cases ht'
      · rw [Function.update_of_ne hne] at ht'
        exact hC.left t' ht'
  | _ => exact absurd (fun h => h) hc

end Counted

end Embb.Containers.HazardPointer

namespace Embb.Containers.HazardPointerSafety

open Threads HazardPointer

variable {N : Type}

/-! ## Histories -/

/-- How often each pointer was retired and passed to `free_guard_callback`. -/
structure Log (N : Type) where
  retired : N → ℕ
  freed : N → ℕ

section Model

variable [DecidableEq N]

def Log.record (_ : ℕ) (c : Choice N) (f : Frame N) (_ : Memory N) (l : Log N) : Log N :=
  match f, c with
  | .client, .retire p => { l with retired := Function.update l.retired p (l.retired p + 1) }
  | .scanFree _ _ p, _ => { l with freed := Function.update l.freed p (l.freed p + 1) }
  | _, _ => l

/-- The program with a record of what was retired and freed. -/
def loggedCode (z : Sizes) : Code (Memory N × Log N) (Frame N) (Choice N) :=
  logged (code z) Log.record

end Model

def bootLogged (z : Sizes) (temp : ℕ → List N) (shared : ℕ → Option N) :
    State (Memory N × Log N) (Frame N) where
  mem := ((boot z temp shared).mem, ⟨fun _ => 0, fun _ => 0⟩)
  callStacks := (boot z temp shared).callStacks

/-- The `PushBack` of a step, if it makes one, finds room in its list; so does the copy that
ends a scan. -/
def PushFits (z : Sizes) (t : ℕ) (c : Choice N) (f : Frame N) (h : Hazards N) : Prop :=
  match f, c with
  | .client, .retire _ => (h.retiredList t).length + 1 ≤ z.getRetiredListMaxSize
  | .scanGuard helped _ pos, _ => pos ≠ z.guardsPerThread →
    (h.hazardPointerListTemp (entry t helped)).length + 1 ≤ z.hazardPointers * z.guardsPerThread
  | .scanSearch helped it, _ => it < (h.retiredList (entry t helped)).length →
    (h.retiredListTemp (entry t helped)).length + 1 ≤ z.getRetiredListMaxSize
  | .scanSet helped, _ =>
    (h.retiredListTemp (entry t helped)).length ≤ z.getRetiredListMaxSize
  | _, _ => True

/-- The pointer is in a retired list and was freed once less than it was retired, or it was
freed as often as it was retired. -/
def Kept (z : Sizes) (m : Memory N) (l : Log N) (p : N) : Prop :=
  l.retired p = l.freed p + 1 ∧ (∃ e < z.hazardPointers, p ∈ m.hazards.retiredList e) ∨
    l.retired p = l.freed p

instance [DecidableEq N] (z : Sizes) (m : Memory N) (l : Log N) (p : N) :
    Decidable (Kept z m l p) :=
  inferInstanceAs (Decidable (_ ∨ _))

/-- The lists, the count of active entries and the record. -/
structure InvKept (z : Sizes) (m : Memory N) (l : Log N) (pc : ℕ → Frame N) : Prop where
  inv : Inv z m pc
  retired : Retired z m.hazards pc
  counted : Counted z m.hazards pc
  log : ∀ p, l.retired p = l.freed p + if (m.hazards.pending p).isSome = true then 1 else 0

theorem InvKept.kept {z : Sizes} {m : Memory N} {l : Log N} {pc : ℕ → Frame N}
    (h : InvKept z m l pc) (p : N) : Kept z m l p := by
  have hlog := h.log p
  cases hp : m.hazards.pending p with
  | none =>
    rw [hp] at hlog
    exact Or.inr hlog
  | some e =>
    rw [hp] at hlog
    exact Or.inl ⟨hlog, e, h.retired.listed p e hp⟩

/-- What the invariant says about the next step of a thread that may be taken. -/
theorem InvKept.pushFits {z : Sizes} {m : Memory N} {l : Log N} {pc : ℕ → Frame N}
    (h : InvKept z m l pc) (t : ℕ) (c : Choice N) : PushFits z t c (pc t) m.hazards := by
  have hfit := h.retired.fits t
  have hk := h.inv.hazards.knows t
  have hroom := h.retired.room t
  generalize pc t = f at hfit hk hroom
  cases f with
  | client =>
    cases c with
    | retire p => exact hroom ⟨by simp, by simp [Frame.scans]⟩
    | _ => trivial
  | scanGuard helped i pos =>
    intro hpos
    obtain ⟨hi, hle⟩ : i < z.hazardPointers ∧ pos ≤ z.guardsPerThread := hk.bounds
    have hread := hk.room _ rfl _ rfl
    have hmul : (i + 1) * z.guardsPerThread ≤ z.hazardPointers * z.guardsPerThread :=
      Nat.mul_le_mul_right _ hi
    rw [Nat.succ_mul] at hmul
    omega
  | scanSearch helped it =>
    intro hit
    have hmax := h.retired.length (entry t helped)
    have hlen : (m.hazards.retiredListTemp (entry t helped)).length ≤ it := hfit.2
    omega
  | scanSet helped =>
    have hkeeps : ScanKeeps z m.hazards (entry t helped) := hfit
    exact (hkeeps.length_lt (hk.sorting _ rfl _ rfl).1).le
  | _ => trivial

section Preserved

variable [DecidableEq N] {z : Sizes} {m : Memory N} {l : Log N} {pc : ℕ → Frame N} {t : ℕ}

namespace InvKept

/-- A step outside the functions of the hazard pointer object that does not retire a pointer. -/
theorem quiet (h : InvKept z m l pc) {c : Choice N} (hc : pc t = .client)
    (hr : ∀ p, c ≠ .retire p) (hI : Inv z (client z t c m).1
      (Function.update pc t (client z t c m).2)) :
    InvKept z (client z t c m).1 (Log.record t c .client m l)
      (Function.update pc t (client z t c m).2) := by
  have hlog : Log.record t c .client m l = l := by
    cases c with
    | retire p => exact absurd rfl (hr p)
    | _ => rfl
  have hsame : (client z t c m).1.hazards.retiredList = m.hazards.retiredList ∧
      (client z t c m).1.hazards.pending = m.hazards.pending ∧
      (client z t c m).1.hazards.retiredListTemp = m.hazards.retiredListTemp ∧
      (client z t c m).1.hazards.hazardPointerListTemp = m.hazards.hazardPointerListTemp ∧
      (client z t c m).1.hazards.left = m.hazards.left ∧
      (client z t c m).1.hazards.activeHazardPointer = m.hazards.activeHazardPointer ∧
      (client z t c m).2.scans t = none ∧ (client z t c m).2.counts = false := by
    cases c with
    | retire p => exact absurd rfl (hr p)
    | guardPointer pos p =>
      unfold client
      dsimp only
      split
      · exact ⟨rfl, rfl, rfl, rfl, rfl, rfl, rfl, rfl⟩
      · exact ⟨rfl, rfl, rfl, rfl, rfl, rfl, rfl, rfl⟩
    | validate pos location =>
      unfold client
      dsimp only
      split
      · exact ⟨rfl, rfl, rfl, rfl, rfl, rfl, rfl, rfl⟩
      · exact ⟨rfl, rfl, rfl, rfl, rfl, rfl, rfl, rfl⟩
    | write location p => exact ⟨rfl, rfl, rfl, rfl, rfl, rfl, rfl, rfl⟩
    | allocate p =>
      unfold client
      dsimp only
      split
      · exact ⟨rfl, rfl, rfl, rfl, rfl, rfl, rfl, rfl⟩
      · exact ⟨rfl, rfl, rfl, rfl, rfl, rfl, rfl, rfl⟩
    | deactivate => exact ⟨rfl, rfl, rfl, rfl, rfl, rfl, rfl, rfl⟩
  obtain ⟨hretired, hpending, htemp, hhazards, hleft, hactive, hscans, hcounts⟩ := hsame
  have hrests : (pc t).Rests t := by
    rw [hc]
    exact ⟨by simp, by simp [Frame.scans]⟩
  refine ⟨hI, ?_, ?_, fun p => ?_⟩
  · exact h.retired.goto h.inv.hazards hscans (fun _ => Or.inl hrests) hretired hpending htemp
      hhazards
  · exact h.counted.move hleft hactive (hc ▸ rfl) hcounts
  · rw [hlog, hpending]
    exact h.log p

/-- A pointer is retired. -/
theorem retire (h : InvKept z m l pc) {p : N} (hc : pc t = .client)
    (hu : m.usable p = true) (hl : m.hazards.left t = false) (ht : t < z.hazardPointers)
    (hI : Inv z (client z t (.retire p) m).1 (Function.update pc t .threshold)) :
    InvKept z (client z t (.retire p) m).1 (Log.record t (.retire p) .client m l)
      (Function.update pc t .threshold) := by
  refine ⟨hI, h.retired.retire h.inv.hazards hc hl ht, ?_, fun q => ?_⟩
  · exact h.counted.move rfl rfl (hc ▸ rfl) rfl
  · have hnone := (h.inv.usable p hu).2
    have hlog := h.log q
    show Function.update l.retired p (l.retired p + 1) q = l.freed q +
      if (Function.update m.hazards.pending p (some t) q).isSome = true then 1 else 0
    rcases eq_or_ne q p with rfl | hne
    · rw [hnone] at hlog
      rw [Function.update_self, Function.update_self, hlog]
      rfl
    · rw [Function.update_of_ne hne, Function.update_of_ne hne]
      exact hlog

/-- A step inside the functions. -/
theorem inside (h : InvKept z m l pc) (c : Choice N) (hc : pc t ≠ .client)
    (ht : t < z.hazardPointers)
    (hI : Inv z (next z t c (pc t) m).1 (Function.update pc t (next z t c (pc t) m).2)) :
    InvKept z (next z t c (pc t) m).1 (Log.record t c (pc t) m l)
      (Function.update pc t (next z t c (pc t) m).2) := by
  have hnext : (next z t c (pc t) m).1.hazards = (exec z t (pc t) m.hazards).1 ∧
      (next z t c (pc t) m).2 = (exec z t (pc t) m.hazards).2 := by
    unfold next
    split
    · rename_i hc'
      exact absurd hc' hc
    · exact ⟨rfl, rfl⟩
  obtain ⟨hm, hf⟩ := hnext
  refine ⟨hI, ?_, ?_, fun p => ?_⟩
  · rw [hm, hf]
    exact h.retired.exec h.inv.hazards h.counted.active.2 t
  · rw [hm, hf]
    exact h.counted.exec h.inv.hazards ht
  · rw [hm]
    have hlog := h.log p
    by_cases hfree : ∃ helped it q, pc t = .scanFree helped it q
    · obtain ⟨helped, it, q, hfree⟩ := hfree
      have hq := h.inv.hazards.pending_of_free hfree
      rw [hfree]
      show l.retired p = Function.update l.freed q (l.freed q + 1) p +
        if (Function.update m.hazards.pending q none p).isSome = true then 1 else 0
      rcases eq_or_ne p q with rfl | hne
      · rw [hq] at hlog
        rw [Function.update_self, Function.update_self, hlog]
        rfl
      · rw [Function.update_of_ne hne, Function.update_of_ne hne]
        exact hlog
    · have hne : ∀ helped it q, pc t ≠ .scanFree helped it q :=
        fun helped it q he => hfree ⟨helped, it, q, he⟩
      have hrecord : Log.record t c (pc t) m l = l := by
        generalize pc t = f at hne hc ⊢
        cases f with
        | client => exact absurd rfl hc
        | scanFree helped it q => exact absurd rfl (hne helped it q)
        | _ => rfl
      rw [hrecord, exec_pending m.hazards hne]
      exact hlog

/-- Every step of a thread keeps the invariant. -/
theorem step (h : InvKept z m l pc) {c : Choice N} (ht : t < z.hazardPointers)
    (hr : pc t = .client → ∀ p, c = .retire p → m.usable p = true)
    (hl : pc t = .client → (∃ p, c = .retire p) ∨ c = .deactivate →
      m.hazards.left t = false) :
    InvKept z (next z t c (pc t) m).1 (Log.record t c (pc t) m l)
      (Function.update pc t (next z t c (pc t) m).2) := by
  have hI := h.inv.next hr hl
  by_cases hc : pc t = .client
  · rw [hc] at hI ⊢
    by_cases hretire : ∃ p, c = .retire p
    · obtain ⟨p, rfl⟩ := hretire
      exact h.retire hc (hr hc p rfl) (hl hc (Or.inl ⟨p, rfl⟩)) ht hI
    · exact h.quiet hc (fun p he => hretire ⟨p, he⟩) hI
  · exact h.inside c hc ht hI

end InvKept

omit [DecidableEq N] in
theorem invKept_boot (z : Sizes) (temp : ℕ → List N) (shared : ℕ → Option N) :
    InvKept z (bootLogged z temp shared).mem.1 (bootLogged z temp shared).mem.2
      ((bootLogged z temp shared).pc .client) := by
  have hpc : (bootLogged z temp shared).pc .client = fun _ => .client := by
    ext t
    rw [State.pc, State.top, bootLogged, boot, List.getElem?_replicate]
    split <;> rfl
  have hI := inv_boot z temp shared
  have hpc' : (boot z temp shared).pc .client = fun _ => (.client : Frame N) := hpc
  rw [hpc'] at hI
  rw [hpc]
  refine ⟨hI, ⟨fun _ => trivial, ?_, ?_, fun _ => Nat.zero_le _, ?_⟩, ⟨⟨?_, le_rfl⟩, ?_, ?_⟩,
    fun _ => rfl⟩
  · intro t e he
    cases he
  · intro p e hp
    cases hp
  · intro t _
    exact Nat.succ_pos _
  · refine (Finset.card_filter_le _ _).trans ?_
    rw [Finset.card_range]
    exact le_rfl
  · intro t n hn
    cases hn
  · intro t ht
    cases ht

/-- Where no thread retires a pointer or leaves after it has left, and pointers are retired at
most once between allocations, every pointer that is added to a list finds room there, and
every pointer that was retired is still in a retired list or has been passed to
`free_guard_callback` exactly once since. -/
theorem retired_kept (z : Sizes) (temp : ℕ → List N) (shared : ℕ → Option N)
    (es : List (ℕ × Choice N))
    (once : Always (loggedCode z) (fun t c f m fs => RetiredOnce t c f m.1 fs)
      (bootLogged z temp shared) es)
    (leaving : Always (loggedCode z) (fun t c f m fs => NotAfterLeaving t c f m.1 fs)
      (bootLogged z temp shared) es) :
    (∀ t c f, (run (loggedCode z) (bootLogged z temp shared) es).top t = some f →
      PushFits z t c f (run (loggedCode z) (bootLogged z temp shared) es).mem.1.hazards) ∧
    ∀ p, Kept z (run (loggedCode z) (bootLogged z temp shared) es).mem.1
      (run (loggedCode z) (bootLogged z temp shared) es).mem.2 p := by
  have hI : InvKept z (run (loggedCode z) (bootLogged z temp shared) es).mem.1
      (run (loggedCode z) (bootLogged z temp shared) es).mem.2
      ((run (loggedCode z) (bootLogged z temp shared) es).pc .client) ∧
      (run (loggedCode z) (bootLogged z temp shared) es).callStacks.length =
        z.hazardPointers := by
    refine Always.keeps (fun S e f (hS : InvKept z S.mem.1 S.mem.2 (S.pc .client) ∧
      S.callStacks.length = z.hazardPointers) htop hg => ?_) (once.and leaving)
      ⟨invKept_boot z temp shared, List.length_replicate⟩
    have hpc : S.pc .client e.1 = f := State.pc_of_top htop
    have hlt := State.lt_of_top htop
    rw [hS.2] at hlt
    rw [length_step, pc_step (loggedCode z) .client htop rfl, mem_step (loggedCode z) htop, ← hpc]
    exact ⟨hS.1.step hlt (fun hc => hg.1 (hpc ▸ hc)) fun hc => hg.2 (hpc ▸ hc), hS.2⟩
  refine ⟨fun t c f htop => ?_, hI.1.kept⟩
  have hfits := hI.1.pushFits t c
  rwa [State.pc_of_top htop] at hfits

end Preserved

section Runs

theorem retiredOnce_of_logged (t : ℕ) (c : Choice N) (f : Frame N) (m : Memory N × Log N)
    (fs : Multiset (Frame N)) (h : retiresUsable t c f m.1 = true) : RetiredOnce t c f m.1 fs :=
  retiredOnce_of_usable t c f m.1 fs h

theorem notAfterLeaving_of_logged (t : ℕ) (c : Choice N) (f : Frame N) (m : Memory N × Log N)
    (fs : Multiset (Frame N)) (h : stays t c f m.1 = true) : NotAfterLeaving t c f m.1 fs :=
  notAfterLeaving_of_stays t c f m.1 fs h

/-- A thread on its own retires two pointers and frees them. -/
theorem retired_kept_two :
    Kept ⟨1, 1⟩ (run (loggedCode ⟨1, 1⟩) (bootLogged ⟨1, 1⟩ (fun _ => []) fun _ => none)
        retireTwo).mem.1
      (run (loggedCode ⟨1, 1⟩) (bootLogged ⟨1, 1⟩ (fun _ => []) fun _ => none)
        retireTwo).mem.2 5 :=
  (retired_kept ⟨1, 1⟩ _ _ retireTwo
    (Always.of_checked retiredOnce_of_logged (by decide +kernel))
    (Always.of_checked notAfterLeaving_of_logged (by decide +kernel))).2 5

/-- Thread 0 leaves three times, twice while thread 1 has reserved its entry, so that the count
of active entries wraps around. Thread 1 then retires four pointers without ever scanning. -/
def leaveThrice : List (ℕ × Choice ℕ) :=
  [(0, Choice.deactivate)] ++ goOn 0 4 ++
  [(1, Choice.allocate 1), (1, Choice.retire 1)] ++ goOn 1 1 ++
  [(1, Choice.allocate 2), (1, Choice.retire 2)] ++ goOn 1 16 ++
  [(0, Choice.deactivate)] ++ goOn 0 4 ++ goOn 1 4 ++
  [(1, Choice.allocate 3), (1, Choice.retire 3)] ++ goOn 1 14 ++
  [(0, Choice.deactivate)] ++ goOn 0 4 ++ goOn 1 4 ++
  [(1, Choice.allocate 4), (1, Choice.retire 4)] ++ goOn 1 1 ++
  [(1, Choice.allocate 5), (1, Choice.retire 5)] ++ goOn 1 1 ++
  [(1, Choice.allocate 6), (1, Choice.retire 6)] ++ goOn 1 1 ++
  [(1, Choice.allocate 7), (1, Choice.retire 7)] ++ goOn 1 1

/-- The list of thread 1 is full when pointer 7 is retired: the pointer is in no list, and was
never freed. -/
theorem retired_dropped : ¬ ∀ (es : List (ℕ × Choice ℕ)) (p : ℕ),
    Always (loggedCode ⟨2, 1⟩) (fun t c f m fs => RetiredOnce t c f m.1 fs)
      (bootLogged ⟨2, 1⟩ (fun _ => []) fun _ => none) es →
    Kept ⟨2, 1⟩ (run (loggedCode ⟨2, 1⟩) (bootLogged ⟨2, 1⟩ (fun _ => []) fun _ => none) es).mem.1
      (run (loggedCode ⟨2, 1⟩) (bootLogged ⟨2, 1⟩ (fun _ => []) fun _ => none) es).mem.2 p := by
  intro h
  have hkept := h leaveThrice 7 (Always.of_checked retiredOnce_of_logged (by decide +kernel))
  revert hkept
  decide +kernel

end Runs

end Embb.Containers.HazardPointerSafety
