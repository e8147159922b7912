import Mathlib.Data.List.Perm.Basic
import Embb.Algorithms.Partition
import Embb.Lib.ForkJoin
import Embb.Lib.Slice

/-!
# Parallel merge sort

The range to be sorted and the temporary range are two arrays addressed by the
position in the range. A node of the tree of tasks at an even depth leaves its
result in the input range, one at an odd depth in the temporary range, and each
level finds what the level below has written in the other array.
-/

namespace Embb.Algorithms.MergeSort

open ForkJoin

/-- The two arrays. -/
inductive Range
  | input
  | temporary
  deriving DecidableEq, Repr

abbrev Memory (α : Type) := Range × ℕ → α

/-- A comparison function that is a strict weak ordering. -/
structure StrictWeakOrdering (α : Type) where
  lt : α → α → Bool
  irrefl : ∀ a, lt a a = false
  trans : ∀ a b c, lt a b = true → lt b c = true → lt a c = true
  /-- Being incomparable is transitive. -/
  incomp_trans : ∀ a b c, lt a b = false → lt b a = false → lt b c = false → lt c b = false →
    lt a c = false ∧ lt c a = false

variable {α : Type}

/-- `CloneBackToInput`: an even depth merges from the temporary range into the input. -/
def cloneBackToInput (depth : ℕ) : Bool := if depth % 2 = 0 then true else false

/-- The first loop of `SerialMerge`, with the two read positions, the write position and
the memory where it ends. -/
def mergeLoop (comparison : α → α → Bool) (source target : Range) (saveMid last : ℕ)
    (first mid out : ℕ) (m : Memory α) : ℕ × ℕ × ℕ × Memory α :=
  if first < saveMid ∧ mid < last then
    if comparison (m (source, first)) (m (source, mid)) then
      mergeLoop comparison source target saveMid last (first + 1) mid (out + 1)
        (Function.update m (target, out) (m (source, first)))
    else
      mergeLoop comparison source target saveMid last first (mid + 1) (out + 1)
        (Function.update m (target, out) (m (source, mid)))
  else (first, mid, out, m)
termination_by saveMid - first + (last - mid)

/-- The last two loops of `SerialMerge`, with the write position and the memory. -/
def copyLoop (source target : Range) (stop first out : ℕ) (m : Memory α) : ℕ × Memory α :=
  if first < stop then
    copyLoop source target stop (first + 1) (out + 1)
      (Function.update m (target, out) (m (source, first)))
  else (out, m)
termination_by stop - first

def serialMerge (comparison : α → α → Bool) (source target : Range) (first mid last out : ℕ)
    (m : Memory α) : Memory α :=
  let (first, mid', out, m) := mergeLoop comparison source target mid last first mid out m
  let (out, m) := copyLoop source target mid first out m
  (copyLoop source target last mid' out m).2

/-- The merge of one level, from the array that the level below has written. -/
def mergeLevel (comparison : α → α → Bool) (depth first mid last : ℕ) (m : Memory α) :
    Memory α :=
  if cloneBackToInput depth then serialMerge comparison .temporary .input first mid last first m
  else serialMerge comparison .input .temporary first mid last first m

/-- `MergeSortChunk`, with enough fuel for a range of at most `fuel` elements. -/
def mergeSortChunk (comparison : α → α → Bool) (workerThreadCount : ℕ) :
    (fuel first last depth : ℕ) → Memory α → Memory α
  | 0, _, _, _, m => m
  | fuel + 1, first, last, depth, m =>
    if last - first ≤ 1 then
      if cloneBackToInput depth = false ∧ last - first ≠ 0 then
        Function.update m (.temporary, first) (m (.input, first))
      else m
    else
      let partitioner := ChunkPartitioner.create workerThreadCount first last 2
      let ckL := partitioner.chunk 0
      let ckR := partitioner.chunk 1
      let m := mergeSortChunk comparison workerThreadCount fuel ckL.first ckL.last (depth + 1) m
      let m := mergeSortChunk comparison workerThreadCount fuel ckR.first ckR.last (depth + 1) m
      mergeLevel comparison depth ckL.first ckR.first ckR.last m

/-- `MergeSortFunctor::Action` on the chunks from `chunkFirst` to `chunkLast`. -/
def action (comparison : α → α → Bool) (workerThreadCount : ℕ)
    (partitioner : BlockSizePartitioner) (chunkFirst chunkLast depth : ℕ) : Prog (Memory α) :=
  if chunkFirst < chunkLast then
    let chunkSplitIndex := (chunkFirst + chunkLast) / 2
    let ckF := partitioner.chunk chunkFirst
    let ckM := partitioner.chunk (chunkSplitIndex + 1)
    let ckL := partitioner.chunk chunkLast
    .fork
      (action comparison workerThreadCount partitioner chunkFirst chunkSplitIndex (depth + 1))
      (action comparison workerThreadCount partitioner (chunkSplitIndex + 1) chunkLast
        (depth + 1))
      (.act (mergeLevel comparison depth ckF.first ckM.first ckL.last) fun _ => .done)
  else
    let chunk := partitioner.chunk chunkFirst
    .act
      (mergeSortChunk comparison workerThreadCount (chunk.last - chunk.first + 1) chunk.first
        chunk.last depth)
      fun _ => .done
termination_by chunkLast - chunkFirst

/-- `MergeSortIteratorCheck`; the node supplies the number of worker threads. -/
def mergeSortIteratorCheck (comparison : α → α → Bool) (workerThreadCount : ℕ)
    (distance : ℤ) (numCores blockSize : ℕ) : Except Error (Prog (Memory α)) :=
  if distance = 0 then .ok .done
  else if distance < 0 then .error .negativeRange
  else if numCores = 0 then .error .noCores
  else
    let blockSize := usedBlockSize distance.toNat numCores blockSize
    if distance.toNat / blockSize * 2 + 1 > nodeMaxTasksDefault then .error .notEnoughTasks
    else
      let partitioner : BlockSizePartitioner := ⟨0, distance.toNat, blockSize⟩
      .ok (.fork
        (action comparison workerThreadCount partitioner 0 (partitioner.size - 1) 0) .done .done)

/-! ## Segments of the arrays -/

/-- The elements of one array from `first` up to `last`. -/
def segment (m : Memory α) (r : Range) (first last : ℕ) : List α :=
  (List.range' first (last - first)).map fun i => m (r, i)

/-- The cells of both arrays at the positions from `first` up to `last`. -/
def cells (first last : ℕ) : Set (Range × ℕ) := {l | first ≤ l.2 ∧ l.2 < last}

theorem segment_of_le (m : Memory α) (r : Range) {first last : ℕ} (h : last ≤ first) :
    segment m r first last = [] :=
  Slice.slice_of_le (fun i => m (r, i)) h

theorem segment_cons (m : Memory α) (r : Range) {first last : ℕ} (h : first < last) :
    segment m r first last = m (r, first) :: segment m r (first + 1) last :=
  Slice.slice_cons (fun i => m (r, i)) h

theorem segment_append (m : Memory α) (r : Range) {first mid last : ℕ} (h₁ : first ≤ mid)
    (h₂ : mid ≤ last) :
    segment m r first mid ++ segment m r mid last = segment m r first last :=
  Slice.slice_append (fun i => m (r, i)) h₁ h₂

theorem segment_congr {m m' : Memory α} {r : Range} {first last : ℕ}
    (h : ∀ i, first ≤ i → i < last → m' (r, i) = m (r, i)) :
    segment m' r first last = segment m r first last :=
  Slice.slice_congr h

theorem segment_eqOn {m m' : Memory α} {X : Set (Range × ℕ)} (hm : Set.EqOn m' m X)
    {r : Range} {first last : ℕ} (hX : cells first last ⊆ X) :
    segment m' r first last = segment m r first last :=
  segment_congr fun _ h₁ h₂ => hm (hX ⟨h₁, h₂⟩)

theorem cells_subset {a b first last : ℕ} (h₁ : first ≤ a) (h₂ : b ≤ last) :
    cells a b ⊆ cells first last :=
  fun _ hl => ⟨h₁.trans hl.1, hl.2.trans_le h₂⟩

theorem disjoint_cells (a b c : ℕ) : ∀ l ∈ cells a b, l ∉ cells b c :=
  fun _ h₁ h₂ => absurd h₂.1 (Nat.not_le.mpr h₁.2)

/-! ## The serial merge -/

section SerialMerge

variable (comparison : α → α → Bool) {source target : Range}

/-- A copy writes the copied segment behind the write position and nothing else. -/
theorem copyLoop_spec (hne : source ≠ target) (stop first out : ℕ) (m : Memory α) :
    (copyLoop source target stop first out m).1 = out + (stop - first) ∧
    segment (copyLoop source target stop first out m).2 target out (out + (stop - first)) =
      segment m source first stop ∧
    ∀ l, ¬ (l.1 = target ∧ out ≤ l.2 ∧ l.2 < out + (stop - first)) →
      (copyLoop source target stop first out m).2 l = m l := by
  induction first, out, m using copyLoop.induct source target stop with
  | case1 first out m h ih =>
    obtain ⟨hout, hseg, hoff⟩ := ih
    rw [copyLoop, if_pos h]
    have hn : out + 1 + (stop - (first + 1)) = out + (stop - first) := by omega
    rw [hn] at hout hseg hoff
    refine ⟨hout, ?_, fun l hl => ?_⟩
    · rw [segment_cons _ _ (by omega), hseg, segment_cons m source h, hoff]
      · rw [Function.update_self]
        congr 1
        refine segment_congr fun i _ _ => Function.update_of_ne ?_ _ _
        exact fun he => hne (congrArg Prod.fst he)
      · exact fun hc => absurd hc.2.1 (by simp)
    · rw [hoff l fun hc => hl ⟨hc.1, by omega, hc.2.2⟩]
      refine Function.update_of_ne ?_ _ _
      rintro rfl
      exact hl ⟨rfl, le_rfl, by simp only; omega⟩
  | case2 first out m h =>
    rw [copyLoop, if_neg h]
    have hz : stop - first = 0 := by omega
    rw [hz]
    refine ⟨rfl, ?_, fun _ _ => rfl⟩
    rw [segment_of_le m source (by omega), segment_of_le m target (by omega)]

/-- A serial merge writes the merged segments behind the write position and nothing else. -/
theorem serialMerge_spec_aux (hne : source ≠ target) (saveMid last first mid out : ℕ)
    (m : Memory α) :
    let r := mergeLoop comparison source target saveMid last first mid out m
    let c := copyLoop source target saveMid r.1 r.2.2.1 r.2.2.2
    let m' := (copyLoop source target last r.2.1 c.1 c.2).2
    segment m' target out (out + (saveMid - first) + (last - mid)) =
      (segment m source first saveMid).merge (segment m source mid last) comparison ∧
    ∀ l, ¬ (l.1 = target ∧ out ≤ l.2 ∧ l.2 < out + (saveMid - first) + (last - mid)) →
      m' l = m l := by
  have hsource : ∀ (m : Memory α) x out a b,
      segment (Function.update m (target, out) x) source a b = segment m source a b :=
    fun m x out a b => segment_congr fun i _ _ =>
      Function.update_of_ne (fun he => hne (congrArg Prod.fst he)) _ _
  induction first, mid, out, m using
    mergeLoop.induct comparison source target saveMid last with
  | case1 first mid out m h hc ih =>
    obtain ⟨hseg, hoff⟩ := ih
    rw [mergeLoop, if_pos h, if_pos hc]
    have hn : out + 1 + (saveMid - (first + 1)) + (last - mid) =
        out + (saveMid - first) + (last - mid) := by omega
    rw [hn] at hseg hoff
    refine ⟨?_, fun l hl => ?_⟩
    · rw [segment_cons _ _ (by omega), hseg, segment_cons m source h.1,
        segment_cons m source h.2, List.cons_merge_cons, if_pos hc, hsource, hsource,
        segment_cons m source h.2, hoff, Function.update_self]
      exact fun hl => absurd hl.2.1 (by simp)
    · rw [hoff l fun hl' => hl ⟨hl'.1, by omega, hl'.2.2⟩]
      refine Function.update_of_ne ?_ _ _
      rintro rfl
      exact hl ⟨rfl, le_rfl, by simp only; omega⟩
  | case2 first mid out m h hc ih =>
    obtain ⟨hseg, hoff⟩ := ih
    rw [mergeLoop, if_pos h, if_neg hc]
    have hn : out + 1 + (saveMid - first) + (last - (mid + 1)) =
        out + (saveMid - first) + (last - mid) := by omega
    rw [hn] at hseg hoff
    refine ⟨?_, fun l hl => ?_⟩
    · rw [segment_cons _ _ (by omega), hseg, segment_cons m source h.1,
        segment_cons m source h.2, List.cons_merge_cons, if_neg hc, hsource, hsource,
        segment_cons m source h.1, hoff, Function.update_self]
      exact fun hl => absurd hl.2.1 (by simp)
    · rw [hoff l fun hl' => hl ⟨hl'.1, by omega, hl'.2.2⟩]
      refine Function.update_of_ne ?_ _ _
      rintro rfl
      exact hl ⟨rfl, le_rfl, by simp only; omega⟩
  | case3 first mid out m h =>
    -- One part is used up, so one of the two copies has nothing to do.
    rw [mergeLoop, if_neg h]
    obtain ⟨hout, hseg, hoff⟩ := copyLoop_spec hne saveMid first out m
    obtain ⟨-, hseg', hoff'⟩ := copyLoop_spec hne last mid (out + (saveMid - first))
      (copyLoop source target saveMid first out m).2
    simp only [hout]
    refine ⟨?_, fun l hl => ?_⟩
    · rw [← segment_append _ _ (Nat.le_add_right out (saveMid - first)) (Nat.le_add_right _ _),
        hseg']
      have hleft : segment (copyLoop source target last mid (out + (saveMid - first))
          (copyLoop source target saveMid first out m).2).2 target out
            (out + (saveMid - first)) = segment m source first saveMid := by
        rw [← hseg]
        exact segment_congr fun i _ hi => hoff' _ fun hl => absurd hl.2.1 (by simp only; omega)
      have hright : segment (copyLoop source target saveMid first out m).2 source mid last =
          segment m source mid last :=
        segment_congr fun i _ _ => hoff _ fun hl => hne hl.1
      rw [hleft, hright]
      rcases Nat.lt_or_ge first saveMid with hlt | hge
      · rw [segment_of_le m source (show last ≤ mid by omega), List.append_nil,
          List.merge_right]
      · rw [segment_of_le m source hge, List.nil_append, List.nil_merge]
    · rw [hoff' l fun hl' => hl ⟨hl'.1, by omega, hl'.2.2⟩,
        hoff l fun hl' => hl ⟨hl'.1, hl'.2.1, by omega⟩]

/-- `SerialMerge` writes the merged segments behind the write position and nothing else. -/
theorem serialMerge_spec (hne : source ≠ target) {first mid last : ℕ} (h₁ : first ≤ mid)
    (h₂ : mid ≤ last) (m : Memory α) :
    segment (serialMerge comparison source target first mid last first m) target first last =
      (segment m source first mid).merge (segment m source mid last) comparison ∧
    Set.EqOn (serialMerge comparison source target first mid last first m) m
      (Set.compl (cells first last)) := by
  obtain ⟨hseg, hoff⟩ := serialMerge_spec_aux comparison hne mid last first mid first m
  have hn : first + (mid - first) + (last - mid) = last := by omega
  rw [hn] at hseg hoff
  exact ⟨hseg, fun l hl => hoff l fun hc => hl ⟨hc.2.1, hc.2.2⟩⟩

end SerialMerge

/-! ## Sorted segments -/

namespace StrictWeakOrdering

variable (order : StrictWeakOrdering α)

/-- No later element comes before an earlier one. -/
def Sorted (l : List α) : Prop := l.Pairwise fun a b => order.lt b a = false

/-- Not coming before is transitive. -/
theorem not_lt_trans {a b c : α} (hab : order.lt b a = false) (hbc : order.lt c b = false) :
    order.lt c a = false := by
  by_contra hca
  rw [Bool.not_eq_false] at hca
  have hab' : order.lt a b = false := by
    by_contra h
    rw [Bool.not_eq_false] at h
    rw [order.trans c a b hca h] at hbc
    cases hbc
  have hbc' : order.lt b c = false := by
    by_contra h
    rw [Bool.not_eq_false] at h
    rw [order.trans b c a h hca] at hab
    cases hab
  have h := (order.incomp_trans a b c hab' hab hbc' hbc).2
  rw [hca] at h
  cases h

theorem not_lt_of_lt {a b : α} (h : order.lt a b = true) : order.lt b a = false := by
  by_contra hba
  rw [Bool.not_eq_false] at hba
  have haa := order.trans a b a h hba
  rw [order.irrefl a] at haa
  cases haa

/-- Merging two sorted lists gives a sorted list. -/
theorem sorted_merge {xs ys : List α} (hx : order.Sorted xs) (hy : order.Sorted ys) :
    order.Sorted (xs.merge ys order.lt) := by
  induction xs generalizing ys with
  | nil => rwa [List.nil_merge]
  | cons x xs ihx =>
    induction ys with
    | nil => rwa [List.merge_right]
    | cons y ys ihy =>
      obtain ⟨hx1, hx2⟩ := List.pairwise_cons.mp hx
      obtain ⟨hy1, hy2⟩ := List.pairwise_cons.mp hy
      rw [List.cons_merge_cons]
      split
      · rename_i hlt
        refine List.pairwise_cons.mpr ⟨fun z hz => ?_, ihx hx2 hy⟩
        rcases List.mem_merge.mp hz with hz | hz
        · exact hx1 z hz
        · have hyx := order.not_lt_of_lt hlt
          rcases List.mem_cons.mp hz with rfl | hz
          · exact hyx
          · exact order.not_lt_trans hyx (hy1 z hz)
      · rename_i hge
        rw [Bool.not_eq_true] at hge
        refine List.pairwise_cons.mpr ⟨fun z hz => ?_, ihy hy2⟩
        rcases List.mem_merge.mp hz with hz | hz
        · rcases List.mem_cons.mp hz with rfl | hz
          · exact hge
          · exact order.not_lt_trans hge (hx1 z hz)
        · exact hy1 z hz

end StrictWeakOrdering

/-- The array in which a node at a depth leaves its result. -/
def output (depth : ℕ) : Range := if cloneBackToInput depth then .input else .temporary

/-- One array holds in sorted order what the input range held at the start. -/
def SortedFrom (order : StrictWeakOrdering α) (r : Range) (first last : ℕ)
    (m m' : Memory α) : Prop :=
  order.Sorted (segment m' r first last) ∧
    (segment m' r first last).Perm (segment m .input first last)

namespace SortedFrom

variable {order : StrictWeakOrdering α} {r : Range} {first mid last : ℕ} {m m' m'' : Memory α}

/-- Only the cells of the segments matter. -/
theorem congr (h : SortedFrom order r first last m m')
    (hm : Set.EqOn m'' m' (cells first last)) : SortedFrom order r first last m m'' := by
  unfold SortedFrom
  rw [segment_eqOn hm subset_rfl]
  exact h

theorem congr_start (h : SortedFrom order r first last m m')
    (hm : Set.EqOn m'' m (cells first last)) : SortedFrom order r first last m'' m' := by
  unfold SortedFrom
  rw [segment_eqOn hm subset_rfl]
  exact h

end SortedFrom

/-- Adjacent depths use the two arrays in turn. -/
theorem mergeLevel_eq (comparison : α → α → Bool) (depth first mid last : ℕ) (m : Memory α) :
    output (depth + 1) ≠ output depth ∧ mergeLevel comparison depth first mid last m =
      serialMerge comparison (output (depth + 1)) (output depth) first mid last first m := by
  unfold mergeLevel output cloneBackToInput
  rcases Nat.mod_two_eq_zero_or_one depth with h | h
  · have h' : (depth + 1) % 2 = 1 := by omega
    simp [h, h']
  · have h' : (depth + 1) % 2 = 0 := by omega
    simp [h, h']

/-- A level merges the two sorted parts that the level below has left. -/
theorem mergeLevel_spec (order : StrictWeakOrdering α) {depth first mid last : ℕ}
    {m₀ m : Memory α} (h₁ : first ≤ mid) (h₂ : mid ≤ last)
    (hl : SortedFrom order (output (depth + 1)) first mid m₀ m)
    (hr : SortedFrom order (output (depth + 1)) mid last m₀ m) :
    SortedFrom order (output depth) first last m₀
      (mergeLevel order.lt depth first mid last m) ∧
    Set.EqOn (mergeLevel order.lt depth first mid last m) m
      (Set.compl (cells first last)) := by
  obtain ⟨hne, he⟩ := mergeLevel_eq order.lt depth first mid last m
  obtain ⟨hseg, hoff⟩ := serialMerge_spec order.lt hne h₁ h₂ m
  rw [he]
  refine ⟨⟨?_, ?_⟩, hoff⟩
  · rw [hseg]
    exact order.sorted_merge hl.1 hr.1
  · rw [hseg, ← segment_append m₀ .input h₁ h₂]
    exact (List.merge_perm_append order.lt).trans (hl.2.append hr.2)

/-- At most one element is sorted; at an odd depth it is copied. -/
theorem leaf_spec (order : StrictWeakOrdering α) {first last depth : ℕ} (m : Memory α)
    (hle : first ≤ last) (hsmall : last - first ≤ 1) :
    let m' := if cloneBackToInput depth = false ∧ last - first ≠ 0 then
      Function.update m (.temporary, first) (m (.input, first)) else m
    SortedFrom order (output depth) first last m m' ∧
      Set.EqOn m' m (Set.compl (cells first last)) := by
  rcases Nat.eq_zero_or_pos (last - first) with hz | hpos
  · have hlf : last ≤ first := by omega
    rw [if_neg (fun h => h.2 hz)]
    refine ⟨?_, fun _ _ => rfl⟩
    rw [SortedFrom, segment_of_le _ _ hlf, segment_of_le _ _ hlf]
    exact ⟨List.Pairwise.nil, List.Perm.nil⟩
  · have hlast : last = first + 1 := by omega
    subst hlast
    have hone : ∀ (m : Memory α) r, segment m r first (first + 1) = [m (r, first)] :=
      fun m r => by rw [segment_cons m r (Nat.lt_succ_self first), segment_of_le m r le_rfl]
    simp only [SortedFrom, hone, output]
    cases hc : cloneBackToInput depth with
    | true =>
      rw [if_neg (by simp), if_pos rfl]
      exact ⟨⟨List.pairwise_singleton _ _, List.Perm.refl _⟩, fun _ _ => rfl⟩
    | false =>
      rw [if_pos ⟨rfl, by omega⟩, if_neg (by simp), Function.update_self]
      refine ⟨⟨List.pairwise_singleton _ _, List.Perm.refl _⟩, eqOn_update m ?_ _⟩
      exact ⟨le_rfl, Nat.lt_succ_self first⟩

/-- A serial merge sort of one chunk, whatever the depth at which it begins. -/
theorem mergeSortChunk_spec (order : StrictWeakOrdering α) (workerThreadCount : ℕ) (fuel : ℕ) :
    ∀ (first last depth : ℕ) (m : Memory α), first ≤ last → last - first < fuel →
    SortedFrom order (output depth) first last m
      (mergeSortChunk order.lt workerThreadCount fuel first last depth m) ∧
    Set.EqOn (mergeSortChunk order.lt workerThreadCount fuel first last depth m) m
      (Set.compl (cells first last)) := by
  induction fuel with
  | zero => exact fun _ _ _ _ _ hf => absurd hf (Nat.not_lt_zero _)
  | succ fuel ih =>
    intro first last depth m hle hf
    rw [mergeSortChunk]
    split
    · rename_i hsmall
      exact leaf_spec order m hle hsmall
    · rename_i hlarge
      obtain ⟨mid, h₁, h₂, hckL, hckR⟩ :=
        ChunkPartitioner.chunk_halves workerThreadCount (show 2 ≤ last - first by omega)
      simp only [hckL, hckR]
      obtain ⟨hl, hloff⟩ := ih first mid (depth + 1) m h₁.le
        (by omega)
      generalize mergeSortChunk order.lt workerThreadCount fuel first mid (depth + 1) m = m₁
        at hl hloff ⊢
      obtain ⟨hr, hroff⟩ := ih mid last (depth + 1) m₁ h₂.le
        (by omega)
      generalize mergeSortChunk order.lt workerThreadCount fuel mid last (depth + 1) m₁ = m₂
        at hr hroff ⊢
      -- Each half leaves the cells of the other half alone.
      have hdisj := disjoint_cells first mid last
      have hl' : SortedFrom order (output (depth + 1)) first mid m m₂ :=
        hl.congr fun l hlc => hroff (hdisj l hlc)
      have hr' : SortedFrom order (output (depth + 1)) mid last m m₂ :=
        hr.congr_start fun l hlc => (hloff fun hc => hdisj l hc hlc).symm
      obtain ⟨hsorted, hoff⟩ := mergeLevel_spec order h₁.le h₂.le hl' hr'
      refine ⟨hsorted, fun l hlc => ?_⟩
      rw [hoff hlc, hroff fun hc => hlc (cells_subset h₁.le le_rfl hc),
        hloff fun hc => hlc (cells_subset le_rfl h₂.le hc)]

/-! ## The tasks -/

/-- The task on some chunks sorts them into the array of its depth, in whatever order the
tasks that it spawns take their steps. -/
theorem good_action (order : StrictWeakOrdering α) (workerThreadCount : ℕ)
    {partitioner : BlockSizePartitioner} (hp : partitioner.Valid)
    (chunkFirst chunkLast depth : ℕ) :
    ∀ m : Memory α, chunkFirst ≤ chunkLast → chunkLast < partitioner.size →
    Good (cells (partitioner.chunk chunkFirst).first (partitioner.chunk chunkLast).last)
      (SortedFrom order (output depth) (partitioner.chunk chunkFirst).first
        (partitioner.chunk chunkLast).last m)
      (action order.lt workerThreadCount partitioner chunkFirst chunkLast depth) m := by
  induction chunkFirst, chunkLast, depth using action.induct partitioner with
  | case1 chunkFirst chunkLast depth hlt split ihl ihr =>
    intro m _ hlast
    have hs₁ : chunkFirst ≤ split := by omega
    have hs₂ : split + 1 ≤ chunkLast := by omega
    rw [action, if_pos hlt]
    have hmid : (partitioner.chunk split).last = (partitioner.chunk (split + 1)).first :=
      BlockSizePartitioner.chunk_last_eq_first (by omega)
    have hl := ihl m hs₁ (by omega)
    have hr := ihr m hs₂ hlast
    rw [hmid] at hl
    have h₁ : (partitioner.chunk chunkFirst).first ≤ (partitioner.chunk (split + 1)).first :=
      partitioner.chunk_first_mono (by omega)
    have h₂ : (partitioner.chunk (split + 1)).first ≤ (partitioner.chunk chunkLast).last :=
      (hp.chunk_first_lt_last_of_le hs₂ hlast).le
    refine Good.of_fork (cells_subset le_rfl h₂) (cells_subset h₁ le_rfl)
      (disjoint_cells _ _ _) hl hr fun m₁ hl₁ hr₁ _ => Good.of_act fun m₂ hm₂ => ?_
    obtain ⟨hsorted, hoff⟩ := mergeLevel_spec order h₁ h₂
      (hl₁.congr (hm₂.mono (cells_subset le_rfl h₂)))
      (hr₁.congr (hm₂.mono (cells_subset h₁ le_rfl)))
    exact ⟨hoff, Good.of_done fun m₃ hm₃ => hsorted.congr hm₃⟩
  | case2 chunkFirst chunkLast depth hge =>
    intro m hle hlast
    have he : chunkFirst = chunkLast := by omega
    subst he
    rw [action, if_neg hge]
    refine Good.of_act fun m₁ hm₁ => ?_
    obtain ⟨hsorted, hoff⟩ := mergeSortChunk_spec order workerThreadCount
      ((partitioner.chunk chunkFirst).last - (partitioner.chunk chunkFirst).first + 1)
      _ _ depth m₁ (hp.chunk_first_lt_last hlast).le (Nat.lt_succ_self _)
    refine ⟨hoff, Good.of_done fun m₂ hm₂ => ?_⟩
    exact (hsorted.congr hm₂).congr_start hm₁.symm

/-- `MergeSort` ends in every order of the steps of its tasks, and leaves the input range
sorted, with its original elements, and all cells outside the two ranges as they were. -/
theorem merge_sort (order : StrictWeakOrdering α) {workerThreadCount : ℕ} {distance : ℤ}
    {numCores blockSize : ℕ} {program : Prog (Memory α)}
    (h : mergeSortIteratorCheck order.lt workerThreadCount distance numCores blockSize =
      .ok program) (m : Memory α) :
    Ensures (fun m' =>
      order.Sorted (segment m' .input 0 distance.toNat) ∧
      (segment m' .input 0 distance.toNat).Perm (segment m .input 0 distance.toNat) ∧
      Set.EqOn m' m (Set.compl (cells 0 distance.toNat))) program m := by
  rcases checks_cases h with ⟨rfl, rfl⟩ | ⟨hpos, -, -, rfl⟩
  · exact .done ⟨List.Pairwise.nil, List.Perm.refl _, fun _ _ => rfl⟩
  have hp : BlockSizePartitioner.Valid
      ⟨0, distance.toNat, usedBlockSize distance.toNat numCores blockSize⟩ :=
    ⟨usedBlockSize_pos _ _ _, by simp only; omega⟩
  obtain ⟨-, hsize, -⟩ := hp.size_bounds
  have hgood := good_action order workerThreadCount hp 0 _ 0 m (Nat.zero_le _)
    (Nat.sub_lt hsize Nat.one_pos)
  rw [BlockSizePartitioner.chunk_last_of_size (by omega)] at hgood
  have hspawn : Good (cells 0 distance.toNat)
      (SortedFrom order .input 0 distance.toNat m) _ m :=
    Good.of_spawn hgood fun m' hm' => Good.of_done fun m'' hm => hm'.congr hm
  exact hspawn.ensures.mono fun m' hm' => ⟨hm'.1.1, hm'.1.2, hm'.2⟩

/-- The order of the natural numbers. -/
def natOrdering : StrictWeakOrdering ℕ where
  lt a b := decide (a < b)
  irrefl a := decide_eq_false (Nat.lt_irrefl a)
  trans a b c hab hbc :=
    decide_eq_true ((of_decide_eq_true hab).trans (of_decide_eq_true hbc))
  incomp_trans a b c hab hba hbc hcb := by
    simp only [decide_eq_false_iff_not] at *
    omega

/-- Five elements in blocks of two. -/
theorem merge_sort_five :
    ∃ program, mergeSortIteratorCheck natOrdering.lt 4 5 4 2 = .ok program ∧
      Ensures (fun m' =>
        natOrdering.Sorted (segment m' .input 0 5) ∧
        (segment m' .input 0 5).Perm (segment (fun l => 9 - l.2) .input 0 5) ∧
        Set.EqOn m' (fun l => 9 - l.2) (Set.compl (cells 0 5))) program fun l => 9 - l.2 :=
  ⟨_, rfl, @merge_sort ℕ natOrdering 4 5 4 2 _ rfl fun l => 9 - l.2⟩

end Embb.Algorithms.MergeSort
