import Embb.Algorithms.QuickSort

/-!
# The tasks of parallel quick sort

Before it starts, quick sort compares twice the number of blocks with the number of tasks
of a node. The tasks it spawns follow the data instead: two for every part of the range that
is cut in two. A partition is only bound to leave no side empty, so there may be nearly as
many cuts as elements.
-/

namespace Embb.Algorithms.QuickSort

open ForkJoin Slice
open MergeSort (StrictWeakOrdering)

variable {α : Type} (order : StrictWeakOrdering α)

/-! ## Partitions depend on their range only -/

theorem firstLoop_congr {m m' : Memory α} {pivot : ℕ} (hp : m pivot = m' pivot)
    (last first : ℕ) (h : Set.EqOn m m' (Set.Ico first last)) :
    firstLoop order m last pivot first = firstLoop order m' last pivot first := by
  induction first using firstLoop.induct order m last pivot with
  | case1 first hlt hpass ih =>
    have hpass' := hpass
    rw [h ⟨le_rfl, hlt⟩, hp] at hpass'
    rw [firstLoop, if_pos hlt, if_pos hpass, ih (h.mono (Set.Ico_subset_Ico_left (by omega))),
      firstLoop.eq_def order m' last pivot first, if_pos hlt, if_pos hpass']
  | case2 first hlt hpass =>
    have hpass' := hpass
    rw [h ⟨le_rfl, hlt⟩, hp] at hpass'
    rw [firstLoop, if_pos hlt, if_neg hpass, firstLoop, if_pos hlt, if_neg hpass']
  | case3 first hge => rw [firstLoop, if_neg hge, firstLoop, if_neg hge]

theorem lastLoop_congr {m m' : Memory α} {first pivot : ℕ} (hp : m pivot = m' pivot)
    (last : ℕ) (hle : first < last) (h : Set.EqOn m m' (Set.Ico first last)) :
    lastLoop order m first pivot last = lastLoop order m' first pivot last := by
  induction last with
  | zero => rfl
  | succ last ih =>
    rw [lastLoop, lastLoop]
    by_cases he : first = last
    · rw [if_pos he, if_pos he]
    have hlt : first < last := by omega
    rw [if_neg he, if_neg he, hp, h ⟨hlt.le, Nat.lt_succ_self last⟩,
      ih hlt (h.mono (Set.Ico_subset_Ico_right (Nat.le_succ last)))]

theorem swap_congr {m m' : Memory α} {X : Set ℕ} (h : Set.EqOn m m' X) {i j : ℕ} (hi : i ∈ X)
    (hj : j ∈ X) : Set.EqOn (swap m i j) (swap m' i j) X := by
  intro k hk
  rcases eq_or_ne k i with rfl | hki
  · rw [swap_left, swap_left]
    exact h hj
  rcases eq_or_ne k j with rfl | hkj
  · rw [swap_right, swap_right]
    exact h hi
  · rw [swap_of_ne m hki hkj, swap_of_ne m' hki hkj]
    exact h hk

theorem serialPartition_congr (first last pivot : ℕ) (m : Memory α) {a b : ℕ} (ha : a ≤ first)
    (hb : last ≤ b) (hpivot : pivot ∈ Set.Ico a b) (hle : first ≤ last) :
    ∀ m' : Memory α, Set.EqOn m m' (Set.Ico a b) →
    (serialPartition order first last pivot m).1 =
        (serialPartition order first last pivot m').1 ∧
      Set.EqOn (serialPartition order first last pivot m).2
        (serialPartition order first last pivot m').2 (Set.Ico a b) := by
  induction first, last, pivot, m using serialPartition.induct order with
  | case1 first last pivot m hlt first' he =>
    intro m' h
    have hfirst := firstLoop_congr order (h hpivot) last first
      (h.mono (Set.Ico_subset_Ico ha hb))
    rw [serialPartition, if_pos hlt, if_pos he, serialPartition, if_pos hlt,
      if_pos (hfirst ▸ he)]
    exact ⟨hfirst, h⟩
  | case2 first last pivot m hlt first' hne last' he =>
    intro m' h
    have hfirst : first' = _ := firstLoop_congr order (h hpivot) last first
      (h.mono (Set.Ico_subset_Ico ha hb))
    have hge : first ≤ first' := le_firstLoop order m last pivot first
    obtain ⟨hle', -, -⟩ := firstLoop_spec order m last pivot first hle
    have hlt' : first' < last := Nat.lt_of_le_of_ne hle' hne
    have hlast : last' = _ := lastLoop_congr order (h hpivot) last hlt'
      (h.mono (Set.Ico_subset_Ico (by omega) hb))
    rw [serialPartition, if_pos hlt, if_neg hne, if_pos he, serialPartition, if_pos hlt,
      ← hfirst, if_neg hne, ← hlast, if_pos he]
    exact ⟨rfl, h⟩
  | case3 first last pivot m hlt first' hne last' hne' pivot' ih =>
    intro m' h
    have hfirst : first' = _ := firstLoop_congr order (h hpivot) last first
      (h.mono (Set.Ico_subset_Ico ha hb))
    have hge : first ≤ first' := le_firstLoop order m last pivot first
    obtain ⟨hle', -, -⟩ := firstLoop_spec order m last pivot first hle
    have hlt' : first' < last := Nat.lt_of_le_of_ne hle' hne
    have hlast : last' = _ := lastLoop_congr order (h hpivot) last hlt'
      (h.mono (Set.Ico_subset_Ico (by omega) hb))
    obtain ⟨hge', -, -⟩ := lastLoop_spec order m first' pivot last hlt'
    have hless : last' < last := lastLoop_lt order m first' pivot (by omega)
    have hmem : first' ∈ Set.Ico a b := ⟨by omega, by omega⟩
    have hmem' : last' ∈ Set.Ico a b := ⟨by omega, by omega⟩
    have hpivot' : pivot' ∈ Set.Ico a b := by
      show (if pivot = first' then last' else if pivot = last' then first' else pivot) ∈ _
      split
      · exact hmem'
      split
      · exact hmem
      · exact hpivot
    rw [serialPartition, if_pos hlt, if_neg hne, if_neg hne']
    rw [serialPartition.eq_def order first last pivot m', if_pos hlt]
    simp only [← hfirst, if_neg hne, ← hlast, if_neg hne']
    exact ih (by omega) (by omega) hpivot' (by omega) _ (swap_congr h hmem hmem')
  | case4 first last pivot m hge =>
    intro m' h
    rw [serialPartition, if_neg hge, serialPartition, if_neg hge]
    exact ⟨rfl, h⟩

theorem medianOfThree_congr {m m' : Memory α} {first last : ℕ}
    (h : Set.EqOn m m' (Set.Ico first last)) {left mid right : ℕ} (hl : first + left < last)
    (hm : first + mid < last) (hr : first + right < last) :
    medianOfThree order m first left mid right = medianOfThree order m' first left mid right := by
  unfold medianOfThree
  rw [h ⟨Nat.le_add_right _ _, hl⟩, h ⟨Nat.le_add_right _ _, hm⟩, h ⟨Nat.le_add_right _ _, hr⟩]

theorem medianOfNine_congr {m m' : Memory α} {first last : ℕ}
    (h : Set.EqOn m m' (Set.Ico first last)) (hlt : first < last) :
    medianOfNine order m first last = medianOfNine order m' first last := by
  rw [medianOfNine, medianOfNine]
  by_cases hoffset : (last - first) / 8 = 0
  · simp only [if_pos hoffset]
  simp only [if_neg hoffset]
  have hbound : ∀ {a b c : ℕ}, first + a < last → first + b < last → first + c < last →
      first + medianOfThree order m' first a b c < last := fun ha hb hc =>
    medianOfThree_of order m' first (P := fun i => first + i < last) ha hb hc
  generalize ho : (last - first) / 8 = offset at *
  rw [medianOfThree_congr order h (show first + 0 < last by omega)
      (show first + offset < last by omega) (show first + offset * 2 < last by omega),
    medianOfThree_congr order h (show first + offset * 3 < last by omega)
      (show first + offset * 4 < last by omega) (show first + offset * 5 < last by omega),
    medianOfThree_congr order h (show first + offset * 6 < last by omega)
      (show first + offset * 7 < last by omega) (show first + (last - first - 1) < last by omega)]
  apply medianOfThree_congr order h
  · exact hbound (by omega) (by omega) (by omega)
  · exact hbound (by omega) (by omega) (by omega)
  · exact hbound (by omega) (by omega) (by omega)

/-- A partition splits the range where its elements say, and depends on no other cell. -/
theorem partition_congr {m m' : Memory α} {first last : ℕ}
    (h : Set.EqOn m m' (Set.Ico first last)) (hlt : ¬ last - first ≤ 1) :
    (partition order first last m).1 = (partition order first last m').1 ∧
      Set.EqOn (partition order first last m).2 (partition order first last m').2
        (Set.Ico first last) := by
  obtain ⟨hpivot, -⟩ := medianOfNine_spec order m hlt
  have hmedian := medianOfNine_congr order h (by omega)
  unfold partition
  rw [← hmedian]
  exact serialPartition_congr order first last _ m le_rfl le_rfl
    ⟨Nat.le_add_right _ _, hpivot⟩ (by omega) m' h

/-! ## The parts of a range -/

/-- A range of so many elements is not cut between two tasks. -/
def Uncut (blockSize distance : ℕ) : Prop :=
  distance ≤ 1 ∨ (distance : ℤ) ≤ toDifference blockSize

instance (blockSize distance : ℕ) : Decidable (Uncut blockSize distance) :=
  inferInstanceAs (Decidable (_ ∨ _))

theorem Uncut.one_lt {blockSize distance : ℕ} (h : ¬ Uncut blockSize distance) :
    ¬ distance ≤ 1 :=
  fun hle => h (Or.inl hle)

/-- The parts that the partitions of quick sort cut a range into. -/
def parts (blockSize first last : ℕ) (m : Memory α) : List ChunkDescriptor :=
  if Uncut blockSize (last - first) then [⟨first, last⟩]
  else
    let r := partition order first last m
    parts blockSize first r.1 r.2 ++ parts blockSize r.1 last r.2
termination_by last - first
decreasing_by
  all_goals
    have := partition_inside order (Uncut.one_lt (by assumption)) m
    omega

theorem parts_uncut {blockSize first last : ℕ} (h : Uncut blockSize (last - first))
    (m : Memory α) : parts order blockSize first last m = [⟨first, last⟩] := by
  rw [parts, if_pos h]

theorem parts_pos (blockSize first last : ℕ) (m : Memory α) :
    0 < (parts order blockSize first last m).length := by
  induction first, last, m using parts.induct order blockSize with
  | case1 first last m h =>
    rw [parts, if_pos h]
    exact Nat.one_pos
  | case2 first last m h r ihl _ =>
    rw [parts, if_neg h]
    simp only [List.length_append]
    exact Nat.add_pos_left ihl _

theorem parts_congr (blockSize first last : ℕ) (m : Memory α) :
    ∀ m' : Memory α, Set.EqOn m m' (Set.Ico first last) →
    parts order blockSize first last m = parts order blockSize first last m' := by
  induction first, last, m using parts.induct order blockSize with
  | case1 first last m h =>
    intro m' _
    rw [parts, if_pos h, parts, if_pos h]
  | case2 first last m h r ihl ihr =>
    intro m' hm
    obtain ⟨hsplit, hcells⟩ := partition_congr order hm (Uncut.one_lt h)
    obtain ⟨h₁, h₂⟩ : first < r.1 ∧ r.1 < last := partition_inside order (Uncut.one_lt h) m
    rw [parts, if_neg h, parts, if_neg h]
    simp only [← hsplit]
    congr 1
    · exact ihl _ (hcells.mono (Set.Ico_subset_Ico_right h₂.le))
    · exact ihr _ (hcells.mono (Set.Ico_subset_Ico_left h₁.le))

/-- The task for a range spawns two tasks for each cut, in whatever order the tasks take their
steps. -/
theorem spends_action (blockSize first last : ℕ) : ∀ m : Memory α, first ≤ last →
    Spends (Set.Ico first last) (2 * ((parts order blockSize first last m).length - 1))
      (action order blockSize first last) m := by
  induction first, last using action.induct order blockSize with
  | case1 first last h =>
    intro m _
    rw [action, if_pos h, parts_uncut order (Or.inl h)]
    exact Spends.of_done m
  | case2 first last h hsmall =>
    intro m hle
    rw [action, if_neg h, if_pos hsmall, parts_uncut order (Or.inr hsmall)]
    refine Spends.of_act fun m' _ => ⟨?_, Nat.zero_le _, Spends.of_done _⟩
    have hsort := (serialQuickSort_spec order first last m' hle).2
    rw [serialQuickSort, if_neg h] at hsort
    exact hsort
  | case3 first last h hlarge ihl ihr =>
    intro m hle
    rw [action, if_neg h, if_neg hlarge]
    refine Spends.of_act fun m' hm => ?_
    obtain ⟨h₁, h₂⟩ := partition_inside order h m'
    obtain ⟨v, hv⟩ := partition_spec order hle m'
    rw [← parts_congr order blockSize first last m' m hm, parts,
      if_neg (show ¬ Uncut blockSize (last - first) from not_or.mpr ⟨h, hlarge⟩)]
    simp only [List.length_append]
    have hl := parts_pos order blockSize first (partition order first last m').1
      (partition order first last m').2
    have hr := parts_pos order blockSize (partition order first last m').1 last
      (partition order first last m').2
    have hfork := Spends.of_fork (X := Set.Ico first last) (Set.Ico_subset_Ico_right h₂.le)
      (Set.Ico_subset_Ico_left h₁.le) (disjoint_sides _ _ _)
      (ihl m' (partition order first last m').2 h₁.le)
      (ihr m' (partition order first last m').2 h₂.le)
    refine ⟨hv.off, ?_, ?_⟩
    · show 2 ≤ _
      omega
    · convert hfork using 1
      show _ - 2 = _
      omega

/-! ## The budget -/

end Embb.Algorithms.QuickSort
