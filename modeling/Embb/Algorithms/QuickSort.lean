import Mathlib.Algebra.Ring.Nat
import Embb.Algorithms.MergeSort
import Embb.Lib.Slice

/-!
# Parallel quick sort

The range is an array addressed by the position. A task partitions its part of the range
around a pivot and leaves the two sides to two other tasks, or sorts them itself where the
part is small. The recursion ends because a partition never leaves one side empty: a pivot
at the first position always has another sample that is not greater.
-/

namespace Embb.Algorithms.QuickSort

open ForkJoin Slice
open MergeSort (StrictWeakOrdering)

abbrev Memory (α : Type) := ℕ → α

variable {α : Type}

section Definitions

variable (order : StrictWeakOrdering α)

/-- `MedianOfThree`. -/
def medianOfThree (m : Memory α) (first left mid right : ℕ) : ℕ :=
  if order.lt (m (first + left)) (m (first + mid)) then
    if order.lt (m (first + mid)) (m (first + right)) then mid
    else if order.lt (m (first + left)) (m (first + right)) then right
    else left
  else if order.lt (m (first + right)) (m (first + mid)) then mid
  else if order.lt (m (first + right)) (m (first + left)) then right
  else left

/-- `MedianOfNine`. -/
def medianOfNine (m : Memory α) (first last : ℕ) : ℕ :=
  let distance := last - first
  let offset := distance / 8
  if offset = 0 then distance / 2
  else
    medianOfThree order m first
      (medianOfThree order m first 0 offset (offset * 2))
      (medianOfThree order m first (offset * 3) (offset * 4) (offset * 5))
      (medianOfThree order m first (offset * 6) (offset * 7) (distance - 1))

/-- The first inner loop of `SerialPartition`, which returns where it reaches `last`. -/
def firstLoop (m : Memory α) (last pivot first : ℕ) : ℕ :=
  if first < last then
    if order.lt (m first) (m pivot) then firstLoop m last pivot (first + 1) else first
  else first
termination_by last - first

/-- The second inner loop of `SerialPartition`, which returns where it reaches `first`. -/
def lastLoop (m : Memory α) (first pivot : ℕ) : ℕ → ℕ
  | 0 => 0
  | last + 1 =>
    if first = last then last
    else if order.lt (m pivot) (m last) then lastLoop m first pivot last
    else last

theorem le_firstLoop (m : Memory α) (last pivot first : ℕ) :
    first ≤ firstLoop order m last pivot first := by
  induction first using firstLoop.induct order m last pivot with
  | case1 first h hlt ih =>
    rw [firstLoop, if_pos h, if_pos hlt]
    omega
  | case2 first h hlt => rw [firstLoop, if_pos h, if_neg hlt]
  | case3 first h => rw [firstLoop, if_neg h]

theorem lastLoop_lt (m : Memory α) (first pivot : ℕ) {last : ℕ} (h : 0 < last) :
    lastLoop order m first pivot last < last := by
  induction last with
  | zero => exact h
  | succ last ih =>
    rw [lastLoop]
    split
    · exact Nat.lt_succ_self last
    split
    · rcases Nat.eq_zero_or_pos last with rfl | hpos
      · exact Nat.lt_succ_self 0
      · exact (ih hpos).trans (Nat.lt_succ_self last)
    · exact Nat.lt_succ_self last

/-- `SerialPartition`, with the split point and the memory. The pivot is a position, which
follows its element when that is swapped. -/
def serialPartition (first last pivot : ℕ) (m : Memory α) : ℕ × Memory α :=
  if first < last then
    let first' := firstLoop order m last pivot first
    if first' = last then (first', m)
    else
      let last' := lastLoop order m first' pivot last
      if first' = last' then (first', m)
      else
        let pivot' := if pivot = first' then last' else if pivot = last' then first' else pivot
        serialPartition (first' + 1) last' pivot' (swap m first' last')
  else (first, m)
termination_by last - first
decreasing_by
  have h₁ := le_firstLoop order m last pivot first
  have h₂ := lastLoop_lt order m (firstLoop order m last pivot first) pivot
    (show 0 < last by omega)
  omega

end Definitions

/-! ## The inner loops -/

section Partition

variable (order : StrictWeakOrdering α)

/-- The first loop passes elements that are less than the pivot only. -/
theorem firstLoop_spec (m : Memory α) (last pivot first : ℕ) (hle : first ≤ last) :
    firstLoop order m last pivot first ≤ last ∧
    (∀ i, first ≤ i → i < firstLoop order m last pivot first →
      order.lt (m i) (m pivot) = true) ∧
    (firstLoop order m last pivot first < last →
      order.lt (m (firstLoop order m last pivot first)) (m pivot) = false) := by
  induction first using firstLoop.induct order m last pivot with
  | case1 first h hlt ih =>
    rw [firstLoop, if_pos h, if_pos hlt]
    obtain ⟨ih₁, ih₂, ih₃⟩ := ih h
    refine ⟨ih₁, fun i hi hi' => ?_, ih₃⟩
    rcases Nat.eq_or_lt_of_le hi with rfl | hlt'
    · exact hlt
    · exact ih₂ i hlt' hi'
  | case2 first h hlt =>
    rw [firstLoop, if_pos h, if_neg hlt]
    rw [Bool.not_eq_true] at hlt
    exact ⟨hle, fun i hi hi' => absurd hi' (Nat.not_lt.mpr hi), fun _ => hlt⟩
  | case3 first h =>
    rw [firstLoop, if_neg h]
    exact ⟨hle, fun i hi hi' => absurd hi' (Nat.not_lt.mpr hi), fun hlt => absurd hlt h⟩

/-- The last loop passes elements that are greater than the pivot only. -/
theorem lastLoop_spec (m : Memory α) (first pivot last : ℕ) (hlt : first < last) :
    first ≤ lastLoop order m first pivot last ∧
    (∀ i, lastLoop order m first pivot last < i → i < last →
      order.lt (m pivot) (m i) = true) ∧
    (first < lastLoop order m first pivot last →
      order.lt (m pivot) (m (lastLoop order m first pivot last)) = false) := by
  induction last with
  | zero => exact absurd hlt (Nat.not_lt_zero _)
  | succ last ih =>
    rw [lastLoop]
    split
    · rename_i he
      exact ⟨he.le, fun i hi hi' => by omega, fun h => by omega⟩
    split
    · rename_i hne hgreater
      obtain ⟨ih₁, ih₂, ih₃⟩ := ih (by omega)
      refine ⟨ih₁, fun i hi hi' => ?_, ih₃⟩
      rcases Nat.eq_or_lt_of_le (Nat.le_of_lt_succ hi') with rfl | hi''
      · exact hgreater
      · exact ih₂ i hi hi''
    · rename_i hne hgreater
      rw [Bool.not_eq_true] at hgreater
      exact ⟨by omega, fun i hi hi' => by omega, fun _ => hgreater⟩

/-- The pivot follows its element. -/
theorem swap_pivot (m : Memory α) (a b pivot : ℕ) :
    swap m a b (if pivot = a then b else if pivot = b then a else pivot) = m pivot := by
  split
  · rename_i h
    rw [swap_right, h]
  split
  · rename_i h
    rw [swap_left, h]
  · rename_i ha hb
    exact swap_of_ne m ha hb

/-! ## The partition -/

/-- What a partition of the positions from `first` up to `last` around the value `v` gives:
a split point and an array with the elements permuted, none on the left greater and none on
the right less than `v`. -/
structure Partitioned (v : α) (first last : ℕ) (m : Memory α) (r : ℕ × Memory α) : Prop where
  first_le : first ≤ r.1
  le_last : r.1 ≤ last
  left : ∀ i, first ≤ i → i < r.1 → order.lt v (r.2 i) = false
  right : ∀ i, r.1 ≤ i → i < last → order.lt (r.2 i) v = false
  perm : ∀ a b, a ≤ first → last ≤ b → (slice r.2 a b).Perm (slice m a b)
  off : Set.EqOn r.2 m (Set.compl (Set.Ico first last))

theorem serialPartition_spec (first last pivot : ℕ) (m : Memory α) (hle : first ≤ last) :
    Partitioned order (m pivot) first last m (serialPartition order first last pivot m) := by
  induction first, last, pivot, m using serialPartition.induct order with
  | case1 first last pivot m h first' he =>
    rw [serialPartition, if_pos h, if_pos he]
    obtain ⟨-, hpassed, -⟩ := firstLoop_spec order m last pivot first hle
    rw [show firstLoop order m last pivot first = last from he] at hpassed ⊢
    constructor
    · exact hle
    · exact le_rfl
    · exact fun i hi hi' => order.not_lt_of_lt (hpassed i hi hi')
    · exact fun i hi hi' => absurd hi' (Nat.not_lt.mpr hi)
    · exact fun a b _ _ => List.Perm.refl _
    · exact fun _ _ => rfl
  | case2 first last pivot m h first' hne last' he =>
    rw [serialPartition, if_pos h, if_neg hne, if_pos he]
    have hge := le_firstLoop order m last pivot first
    obtain ⟨hfirst, hpassed, hstop⟩ := firstLoop_spec order m last pivot first hle
    have hlt : first' < last := Nat.lt_of_le_of_ne hfirst hne
    obtain ⟨-, hpassed', -⟩ := lastLoop_spec order m first' pivot last hlt
    constructor
    · exact hge
    · exact hfirst
    · exact fun i hi hi' => order.not_lt_of_lt (hpassed i hi hi')
    · intro i hi hi'
      rcases Nat.eq_or_lt_of_le hi with rfl | hi
      · exact hstop hlt
      · exact order.not_lt_of_lt (hpassed' i (lt_of_eq_of_lt he.symm hi) hi')
    · exact fun a b _ _ => List.Perm.refl _
    · exact fun _ _ => rfl
  | case3 first last pivot m h first' hne last' hne' pivot' ih =>
    rw [serialPartition, if_pos h, if_neg hne, if_neg hne']
    have hge : first ≤ first' := le_firstLoop order m last pivot first
    obtain ⟨hfirst, hpassed, hstop⟩ := firstLoop_spec order m last pivot first hle
    have hlt : first' < last := Nat.lt_of_le_of_ne hfirst hne
    obtain ⟨hge', hpassed', hstop'⟩ := lastLoop_spec order m first' pivot last hlt
    have hlt' : first' < last' := Nat.lt_of_le_of_ne hge' hne'
    have hlast : last' < last := lastLoop_lt order m first' pivot (by omega)
    have hv : swap m first' last' pivot' = m pivot := swap_pivot m first' last' pivot
    change Partitioned order (m pivot) first last m
      (serialPartition order (first' + 1) last' pivot' (swap m first' last'))
    obtain ⟨h₁, h₂, hleft, hright, hperm, hoff⟩ := ih hlt'
    rw [hv] at hleft hright
    -- What the rest of the partition leaves alone is as the swap has left it.
    have hother : ∀ i, i < first' ∨ last' < i →
        (serialPartition order (first' + 1) last' pivot' (swap m first' last')).2 i = m i := by
      intro i hi
      rw [hoff fun hc => absurd hc.1 (by have := hc.2; omega)]
      exact swap_of_ne m (by omega) (by omega)
    constructor
    · omega
    · omega
    · intro i hi hi'
      rcases Nat.lt_trichotomy i first' with hi'' | rfl | hi''
      · rw [hother i (.inl hi'')]
        exact order.not_lt_of_lt (hpassed i hi hi'')
      · rw [hoff fun hc => absurd hc.1 (by omega), swap_left]
        exact hstop' hlt'
      · exact hleft i hi'' hi'
    · intro i hi hi'
      rcases Nat.lt_trichotomy i last' with hi'' | rfl | hi''
      · exact hright i hi hi''
      · rw [hoff fun hc => absurd hc.2 (by omega), swap_right]
        exact hstop hlt
      · rw [hother i (.inr hi'')]
        exact order.not_lt_of_lt (hpassed' i hi'' hi')
    · intro a b ha hb
      refine (hperm a b (by omega) (by omega)).trans (slice_swap_perm m ?_ ?_)
      · exact ⟨by omega, by omega⟩
      · exact ⟨by omega, by omega⟩
    · intro i hi
      have hi' : i < first ∨ last ≤ i := by
        by_contra hc
        exact hi ⟨by omega, by omega⟩
      exact hother i (by omega)
  | case4 first last pivot m h =>
    rw [serialPartition, if_neg h]
    constructor
    · exact le_rfl
    · exact hle
    · exact fun i hi hi' => absurd hi' (Nat.not_lt.mpr hi)
    · exact fun i hi hi' => absurd (hi.trans_lt hi') h
    · exact fun a b _ _ => List.Perm.refl _
    · exact fun _ _ => rfl

/-- A partition leaves neither side empty, unless the pivot is at the first position and all
other elements are greater. -/
theorem serialPartition_inside {first last pivot : ℕ} (m : Memory α) (h : ¬ last - first ≤ 1)
    (h₁ : first ≤ pivot) (h₂ : pivot < last)
    (hw : pivot = first → ∃ i, first < i ∧ i < last ∧ order.lt (m first) (m i) = false) :
    first < (serialPartition order first last pivot m).1 ∧
      (serialPartition order first last pivot m).1 < last := by
  have hle : first ≤ last := by omega
  have hge := le_firstLoop order m last pivot first
  obtain ⟨hfirst, hpassed, -⟩ := firstLoop_spec order m last pivot first hle
  have hirrefl := order.irrefl (m pivot)
  -- Neither loop passes the pivot.
  have hpivot : firstLoop order m last pivot first ≤ pivot := by
    by_contra hc
    rw [hpassed pivot h₁ (by omega)] at hirrefl
    cases hirrefl
  rw [serialPartition, if_pos (by omega), if_neg (by omega)]
  generalize firstLoop order m last pivot first = first' at *
  obtain ⟨hge', hpassed', -⟩ := lastLoop_spec order m first' pivot last (by omega)
  have hlast := lastLoop_lt order m first' pivot (show 0 < last by omega)
  have hpivot' : pivot ≤ lastLoop order m first' pivot last := by
    by_contra hc
    rw [hpassed' pivot (by omega) h₂] at hirrefl
    cases hirrefl
  generalize lastLoop order m first' pivot last = last' at *
  simp only
  split
  · rename_i he
    have hne : first ≠ first' := by
      rintro rfl
      obtain rfl : pivot = first := by omega
      obtain ⟨i, hi, hi', hnot⟩ := hw rfl
      rw [hpassed' i (by omega) hi'] at hnot
      cases hnot
    exact ⟨by omega, by omega⟩
  · rename_i hne
    have hspec := serialPartition_spec order (first' + 1) last'
      (if pivot = first' then last' else if pivot = last' then first' else pivot)
      (swap m first' last') (by omega)
    exact ⟨by have := hspec.first_le; omega, by have := hspec.le_last; omega⟩

/-! ## The pivot -/

theorem medianOfThree_mem (m : Memory α) (first left mid right : ℕ) :
    medianOfThree order m first left mid right = left ∨
      medianOfThree order m first left mid right = mid ∨
      medianOfThree order m first left mid right = right := by
  unfold medianOfThree
  split_ifs
  all_goals simp only [true_or, or_true]

/-- The left one of three samples is not chosen if the other two are greater. -/
theorem medianOfThree_left (m : Memory α) {first left mid right : ℕ} (hmid : left ≠ mid)
    (hright : left ≠ right) (h : medianOfThree order m first left mid right = left) :
    order.lt (m (first + left)) (m (first + mid)) = false ∨
      order.lt (m (first + left)) (m (first + right)) = false := by
  unfold medianOfThree at h
  split at h
  · split at h
    · exact absurd h.symm hmid
    split at h
    · exact absurd h.symm hright
    · rename_i hlt
      exact Or.inr (Bool.eq_false_of_not_eq_true hlt)
  · rename_i hlt
    exact Or.inl (Bool.eq_false_of_not_eq_true hlt)

/-- What holds of three positions holds of the median. -/
theorem medianOfThree_of (m : Memory α) (first : ℕ) {P : ℕ → Prop} {a b c : ℕ} (ha : P a)
    (hb : P b) (hc : P c) : P (medianOfThree order m first a b c) := by
  rcases medianOfThree_mem order m first a b c with h | h | h
  · rw [h]
    exact ha
  · rw [h]
    exact hb
  · rw [h]
    exact hc

/-- The pivot is inside the range. If it is the first element, another one is not greater. -/
theorem medianOfNine_spec (m : Memory α) {first last : ℕ} (h : ¬ last - first ≤ 1) :
    first + medianOfNine order m first last < last ∧
    (medianOfNine order m first last = 0 →
      ∃ i, first < i ∧ i < last ∧ order.lt (m first) (m i) = false) := by
  rw [medianOfNine]
  split
  · exact ⟨by omega, fun hzero => by omega⟩
  rename_i hoffset
  generalize ho : (last - first) / 8 = offset at *
  have hbound : ∀ {a b c : ℕ}, a < last - first → b < last - first → c < last - first →
      medianOfThree order m first a b c < last - first := fun ha hb hc =>
    medianOfThree_of order m first (P := fun i => i < last - first) ha hb hc
  have hpos : ∀ {a b c : ℕ}, 0 < a → 0 < b → 0 < c → 0 < medianOfThree order m first a b c :=
    fun ha hb hc => medianOfThree_of order m first (P := fun i => 0 < i) ha hb hc
  have hlast : medianOfThree order m first (medianOfThree order m first 0 offset (offset * 2))
      (medianOfThree order m first (offset * 3) (offset * 4) (offset * 5))
      (medianOfThree order m first (offset * 6) (offset * 7) (last - first - 1)) < last - first :=
    hbound (hbound (by omega) (by omega) (by omega)) (hbound (by omega) (by omega) (by omega))
      (hbound (by omega) (by omega) (by omega))
  refine ⟨by omega, fun hzero => ?_⟩
  -- Only the first of the nine samples is at position 0.
  have hm : 0 < medianOfThree order m first (offset * 3) (offset * 4) (offset * 5) :=
    hpos (by omega) (by omega) (by omega)
  have hr : 0 < medianOfThree order m first (offset * 6) (offset * 7) (last - first - 1) :=
    hpos (by omega) (by omega) (by omega)
  have hfirst : medianOfThree order m first 0 offset (offset * 2) = 0 := by
    rcases medianOfThree_mem order m first (medianOfThree order m first 0 offset (offset * 2))
      (medianOfThree order m first (offset * 3) (offset * 4) (offset * 5))
      (medianOfThree order m first (offset * 6) (offset * 7) (last - first - 1)) with h | h | h
    · rw [← h]
      exact hzero
    · exact absurd (h.symm.trans hzero) hm.ne'
    · exact absurd (h.symm.trans hzero) hr.ne'
  obtain hlt | hlt := medianOfThree_left order m (by omega) (by omega) hfirst
  · exact ⟨first + offset, by omega, by omega, hlt⟩
  · exact ⟨first + offset * 2, by omega, by omega, hlt⟩

/-- The partition around the pseudo-median. -/
def partition (first last : ℕ) (m : Memory α) : ℕ × Memory α :=
  serialPartition order first last (first + medianOfNine order m first last) m

theorem partition_inside {first last : ℕ} (h : ¬ last - first ≤ 1) (m : Memory α) :
    first < (partition order first last m).1 ∧ (partition order first last m).1 < last := by
  obtain ⟨hlt, hzero⟩ := medianOfNine_spec order m h
  exact serialPartition_inside order m h (Nat.le_add_right _ _) hlt
    fun he => hzero (by omega)

theorem partition_spec {first last : ℕ} (hle : first ≤ last) (m : Memory α) :
    ∃ v, Partitioned order v first last m (partition order first last m) :=
  ⟨_, serialPartition_spec order first last _ m hle⟩

end Partition

/-! ## The algorithm -/

section Algorithm

variable (order : StrictWeakOrdering α)

/-- `SerialQuickSort`. -/
def serialQuickSort (first last : ℕ) (m : Memory α) : Memory α :=
  if last - first ≤ 1 then m
  else
    let r := partition order first last m
    serialQuickSort r.1 last (serialQuickSort first r.1 r.2)
termination_by last - first
decreasing_by
  all_goals
    have := partition_inside order (by assumption) m
    omega

/-- `static_cast<Difference>` of a block size. -/
def toDifference (blockSize : ℕ) : ℤ := Int.bmod blockSize (2 ^ 64)

/-- `QuickSortFunctor::Action` on the positions from `first` up to `last`. -/
def action (blockSize first last : ℕ) : Prog (Memory α) :=
  if last - first ≤ 1 then .done
  else if ((last - first : ℕ) : ℤ) ≤ toDifference blockSize then
    .act (fun m =>
      let r := partition order first last m
      serialQuickSort order r.1 last (serialQuickSort order first r.1 r.2)) fun _ => .done
  else
    .act (fun m => (partition order first last m).2) fun m =>
      .fork (action blockSize first (partition order first last m).1)
        (action blockSize (partition order first last m).1 last) .done
termination_by last - first
decreasing_by
  all_goals
    have := partition_inside order (by assumption) m
    omega

/-- `QuickSortIteratorCheck`. -/
def quickSortIteratorCheck (distance : ℤ) (numCores blockSize : ℕ) :
    Except Error (Prog (Memory α)) :=
  if distance = 0 then .ok .done
  else if distance < 0 then .error .negativeRange
  else if numCores = 0 then .error .noCores
  else
    let blockSize := usedBlockSize distance.toNat numCores blockSize
    if distance.toNat / blockSize * 2 + 1 > nodeMaxTasksDefault then .error .notEnoughTasks
    else .ok (.fork (action order blockSize 0 distance.toNat) .done .done)

/-! ## Sorted slices -/

/-- The array `m'` holds the elements that `m` held at some positions, sorted. -/
def SortedFrom (first last : ℕ) (m m' : Memory α) : Prop :=
  order.Sorted (slice m' first last) ∧ (slice m' first last).Perm (slice m first last)

variable {order} {first last : ℕ} {m m' : Memory α}

theorem SortedFrom.congr (h : SortedFrom order first last m m') {m'' : Memory α}
    (hm : Set.EqOn m'' m' (Set.Ico first last)) : SortedFrom order first last m m'' := by
  rw [SortedFrom, slice_eqOn hm le_rfl]
  exact h

theorem SortedFrom.congr_start (h : SortedFrom order first last m m') {m₀ : Memory α}
    (hm : Set.EqOn m₀ m (Set.Ico first last)) : SortedFrom order first last m₀ m' := by
  rw [SortedFrom, slice_eqOn hm le_rfl]
  exact h

theorem sortedFrom_of_small (h : last - first ≤ 1) : SortedFrom order first last m m := by
  refine ⟨?_, List.Perm.refl _⟩
  rcases Nat.lt_or_ge first last with hlt | hge
  · obtain rfl : last = first + 1 := by omega
    rw [slice_cons m hlt, slice_of_le m le_rfl]
    exact List.pairwise_singleton _ _
  · rw [slice_of_le m hge]
    exact List.Pairwise.nil

/-- A range is sorted when both sides of a partition are. -/
theorem Partitioned.sortedFrom {v : α} {r : ℕ × Memory α}
    (h : Partitioned order v first last m r) (hl : SortedFrom order first r.1 r.2 m')
    (hr : SortedFrom order r.1 last r.2 m') : SortedFrom order first last m m' := by
  have hm' := slice_append m' h.first_le h.le_last
  have hm := slice_append r.2 h.first_le h.le_last
  constructor
  · rw [← hm']
    refine List.pairwise_append.mpr ⟨hl.1, hr.1, fun x hx y hy => ?_⟩
    obtain ⟨i, hi, hi', rfl⟩ := mem_slice.mp (hl.2.mem_iff.mp hx)
    obtain ⟨j, hj, hj', rfl⟩ := mem_slice.mp (hr.2.mem_iff.mp hy)
    exact order.not_lt_trans (h.left i hi hi') (h.right j hj hj')
  · rw [← hm']
    refine (hl.2.append hr.2).trans ?_
    rw [hm]
    exact h.perm first last le_rfl le_rfl

theorem disjoint_sides (first mid last : ℕ) :
    ∀ i ∈ Set.Ico first mid, i ∉ Set.Ico mid last :=
  fun _ h₁ h₂ => absurd h₂.1 (Nat.not_le.mpr h₁.2)

theorem serialQuickSort_spec (order : StrictWeakOrdering α) (first last : ℕ) (m : Memory α)
    (hle : first ≤ last) :
    SortedFrom order first last m (serialQuickSort order first last m) ∧
    Set.EqOn (serialQuickSort order first last m) m (Set.compl (Set.Ico first last)) := by
  induction first, last, m using serialQuickSort.induct order with
  | case1 first last m h =>
    rw [serialQuickSort, if_pos h]
    exact ⟨sortedFrom_of_small h, fun _ _ => rfl⟩
  | case2 first last m h r ihl _ ihr =>
    rw [serialQuickSort, if_neg h]
    change SortedFrom order first last m
        (serialQuickSort order r.1 last (serialQuickSort order first r.1 r.2)) ∧
      Set.EqOn (serialQuickSort order r.1 last (serialQuickSort order first r.1 r.2)) m
        (Set.compl (Set.Ico first last))
    obtain ⟨h₁, h₂⟩ : first < r.1 ∧ r.1 < last := partition_inside order h m
    obtain ⟨v, hv⟩ : ∃ v, Partitioned order v first last m r := partition_spec order hle m
    obtain ⟨hl, hloff⟩ := ihl h₁.le
    obtain ⟨hr, hroff⟩ := ihr h₂.le
    -- Each side leaves the cells of the other alone.
    have hdisj := disjoint_sides first r.1 last
    have hl' := hl.congr fun i hi => hroff (hdisj i hi)
    have hr' := hr.congr_start fun i hi => (hloff fun hc => hdisj i hc hi).symm
    refine ⟨hv.sortedFrom hl' hr', fun i hi => ?_⟩
    rw [hroff fun hc => hi (Set.Ico_subset_Ico_left h₁.le hc),
      hloff fun hc => hi (Set.Ico_subset_Ico_right h₂.le hc), hv.off hi]

/-! ## The tasks -/

/-- The task for some positions sorts them, in whatever order the tasks that it spawns take
their steps. -/
theorem good_action (order : StrictWeakOrdering α) (blockSize first last : ℕ) :
    ∀ m : Memory α, first ≤ last →
    Good (Set.Ico first last) (SortedFrom order first last m)
      (action order blockSize first last) m := by
  induction first, last using action.induct order blockSize with
  | case1 first last h =>
    intro m _
    rw [action, if_pos h]
    exact Good.of_done fun m' hm' => (sortedFrom_of_small h).congr_start hm'.symm
  | case2 first last h hsmall =>
    intro m hle
    rw [action, if_neg h, if_pos hsmall]
    refine Good.of_act fun m₁ hm₁ => ?_
    have hsort := serialQuickSort_spec order first last m₁ hle
    rw [serialQuickSort, if_neg h] at hsort
    exact ⟨hsort.2, Good.of_done fun m₂ hm₂ => (hsort.1.congr hm₂).congr_start hm₁.symm⟩
  | case3 first last h hlarge ihl ihr =>
    intro m hle
    rw [action, if_neg h, if_neg hlarge]
    refine Good.of_act fun m₁ hm₁ => ?_
    obtain ⟨h₁, h₂⟩ := partition_inside order h m₁
    obtain ⟨v, hv⟩ := partition_spec order hle m₁
    refine ⟨hv.off, ?_⟩
    refine Good.of_fork (Set.Ico_subset_Ico_right h₂.le) (Set.Ico_subset_Ico_left h₁.le)
      (disjoint_sides _ _ _) (ihl m₁ _ h₁.le) (ihr m₁ _ h₂.le) fun m₂ hl hr _ => ?_
    refine Good.of_done fun m₃ hm₃ => ?_
    exact ((hv.sortedFrom hl hr).congr hm₃).congr_start hm₁.symm

end Algorithm

/-- A partition of at least two elements around the pseudo-median splits them strictly inside
the range, with no element on the left greater than one on the right. `QuickSort` ends in
every order of the steps of its tasks and leaves the range sorted, with its original elements,
and all other cells as they were. -/
theorem quick_sort (order : StrictWeakOrdering α) :
    (∀ (m : Memory α) (first last : ℕ), first + 2 ≤ last →
      let r := serialPartition order first last (first + medianOfNine order m first last) m
      first < r.1 ∧ r.1 < last ∧
      (∀ i j, first ≤ i → i < r.1 → r.1 ≤ j → j < last → order.lt (r.2 j) (r.2 i) = false) ∧
      (slice r.2 first last).Perm (slice m first last)) ∧
    ∀ (distance : ℤ) (numCores blockSize : ℕ) (program : Prog (Memory α)),
      quickSortIteratorCheck order distance numCores blockSize = .ok program →
      ∀ m, Ensures (fun m' =>
        order.Sorted (slice m' 0 distance.toNat) ∧
        (slice m' 0 distance.toNat).Perm (slice m 0 distance.toNat) ∧
        Set.EqOn m' m (Set.compl (Set.Ico 0 distance.toNat))) program m := by
  constructor
  · intro m first last h
    obtain ⟨h₁, h₂⟩ := partition_inside order (show ¬ last - first ≤ 1 by omega) m
    obtain ⟨v, hv⟩ := partition_spec order (show first ≤ last by omega) m
    refine ⟨h₁, h₂, fun i j hi hi' hj hj' => ?_, hv.perm first last le_rfl le_rfl⟩
    exact order.not_lt_trans (hv.left i hi hi') (hv.right j hj hj')
  · intro distance numCores blockSize program h m
    rcases checks_cases h with ⟨rfl, rfl⟩ | ⟨-, -, -, rfl⟩
    · exact .done ⟨List.Pairwise.nil, List.Perm.refl _, fun _ _ => rfl⟩
    have hgood := good_action order (usedBlockSize distance.toNat numCores blockSize) 0
      distance.toNat m (Nat.zero_le _)
    have hspawn : Good (Set.Ico 0 distance.toNat) (SortedFrom order 0 distance.toNat m) _ m :=
      Good.of_spawn hgood fun m' hm' => Good.of_done fun m'' hm => hm'.congr hm
    exact hspawn.ensures.mono fun m' hm' => ⟨hm'.1.1, hm'.1.2, hm'.2⟩

/-- Nine elements in blocks of two. -/
theorem quick_sort_nine :
    ∃ program, quickSortIteratorCheck MergeSort.natOrdering 9 4 2 = .ok program ∧
      Ensures (fun m' =>
        MergeSort.natOrdering.Sorted (slice m' 0 9) ∧
        (slice m' 0 9).Perm (slice (fun i => i % 4) 0 9) ∧
        Set.EqOn m' (fun i => i % 4) (Set.compl (Set.Ico 0 9))) program fun i => i % 4 :=
  ⟨_, rfl, (quick_sort MergeSort.natOrdering).2 9 4 2 _ rfl fun i => i % 4⟩

end Embb.Algorithms.QuickSort
