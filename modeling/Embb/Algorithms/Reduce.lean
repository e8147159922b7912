import Mathlib.Data.List.Count
import Embb.Algorithms.Partition
import Embb.Lib.ForkJoin
import Embb.Lib.Slice

/-!
# Parallel reduction

Each task of the tree reduces the chunks from one to another. It writes what it has found to
a variable of the task that has spawned it, which combines the results of its two halves in
the order of the range.
-/

namespace Embb.Algorithms.Reduce

open ForkJoin Slice

/-- The variables: the result of the task for some chunks, and what `Reduce` returns. -/
inductive Cell
  | result (chunkFirst chunkLast : ℕ)
  | returned
  deriving DecidableEq, Repr

abbrev Memory (R : Type) := Cell → R

/-- The arguments that all tasks share, and the elements of the range. -/
structure Arguments (α R : Type) where
  input : ℕ → α
  neutral : R
  reduction : R → R → R
  transformation : α → R

variable {α R : Type}

/-- The loop over the positions of a chunk. -/
def reduceChunk (a : Arguments α R) (first last : ℕ) : R :=
  (List.range' first (last - first)).foldl
    (fun result it => a.reduction result (a.transformation (a.input it))) a.neutral

/-- `ReduceFunctor::Action` on the chunks from `chunkFirst` to `chunkLast`. -/
def action (a : Arguments α R) (partitioner : BlockSizePartitioner)
    (chunkFirst chunkLast : ℕ) : Prog (Memory R) :=
  if chunkFirst < chunkLast then
    let chunkSplitIndex := (chunkFirst + chunkLast) / 2
    let resultL := Cell.result chunkFirst chunkSplitIndex
    let resultR := Cell.result (chunkSplitIndex + 1) chunkLast
    .act (fun m => Function.update (Function.update m resultL a.neutral) resultR a.neutral)
      fun _ => .fork (action a partitioner chunkFirst chunkSplitIndex)
        (action a partitioner (chunkSplitIndex + 1) chunkLast)
        (.act (fun m => Function.update m (.result chunkFirst chunkLast)
          (a.reduction (m resultL) (m resultR))) fun _ => .done)
  else
    let chunk := partitioner.chunk chunkFirst
    .act (fun m => Function.update m (.result chunkFirst chunkLast)
      (reduceChunk a chunk.first chunk.last)) fun _ => .done
termination_by chunkLast - chunkFirst

/-- `ReduceRecursive`. -/
def reduceRecursive (a : Arguments α R) (distance : ℤ) (numCores blockSize : ℕ) :
    Except Error (Prog (Memory R)) :=
  if distance = 0 then .ok (.act (fun m => Function.update m .returned a.neutral) fun _ => .done)
  else if distance < 0 then .error .negativeRange
  else if numCores = 0 then .error .noCores
  else
    let blockSize := usedBlockSize distance.toNat numCores blockSize
    if distance.toNat / blockSize * 2 + 1 > nodeMaxTasksDefault then .error .notEnoughTasks
    else
      let partitioner : BlockSizePartitioner := ⟨0, distance.toNat, blockSize⟩
      let result := Cell.result 0 (partitioner.size - 1)
      .ok (.act (fun m => Function.update m result a.neutral) fun _ =>
        .fork (action a partitioner 0 (partitioner.size - 1)) .done
          (.act (fun m => Function.update m .returned (m result)) fun _ => .done))

/-- The call that `Count` makes. -/
def count [BEq α] (input : ℕ → α) (value : α) : Arguments α ℤ :=
  ⟨input, 0, (· + ·), fun element => if element == value then 1 else 0⟩

/-- The call that `CountIf` makes. -/
def countIf (input : ℕ → α) (comparison : α → Bool) : Arguments α ℤ :=
  ⟨input, 0, (· + ·), fun element => if comparison element then 1 else 0⟩

/-! ## Folds over the range -/

/-- An associative reduction with a neutral element on both sides. -/
structure Arguments.Associative (a : Arguments α R) : Prop where
  assoc : ∀ x y z, a.reduction (a.reduction x y) z = a.reduction x (a.reduction y z)
  neutral_left : ∀ x, a.reduction a.neutral x = x
  neutral_right : ∀ x, a.reduction x a.neutral = x

/-- The left fold of the reduction over the transformed elements. -/
def Arguments.fold (a : Arguments α R) (first last : ℕ) : R :=
  ((slice a.input first last).map a.transformation).foldl a.reduction a.neutral

theorem reduceChunk_eq (a : Arguments α R) (first last : ℕ) :
    reduceChunk a first last = a.fold first last := by
  rw [Arguments.fold, slice, List.map_map, List.foldl_map]
  rfl

/-- What comes first can be taken out of a fold. -/
theorem Arguments.Associative.foldl_eq {a : Arguments α R} (h : a.Associative) (x : R)
    (l : List R) : l.foldl a.reduction x = a.reduction x (l.foldl a.reduction a.neutral) := by
  induction l generalizing x with
  | nil => exact (h.neutral_right x).symm
  | cons y l ih =>
    rw [List.foldl_cons, List.foldl_cons, ih, ih (a.reduction a.neutral y), h.neutral_left,
      h.assoc]

/-- The folds of two adjacent ranges make up the fold of both. -/
theorem Arguments.Associative.fold_append {a : Arguments α R} (h : a.Associative)
    {first mid last : ℕ} (h₁ : first ≤ mid) (h₂ : mid ≤ last) :
    a.reduction (a.fold first mid) (a.fold mid last) = a.fold first last := by
  rw [Arguments.fold, Arguments.fold, Arguments.fold, ← slice_append a.input h₁ h₂,
    List.map_append, List.foldl_append, h.foldl_eq (List.foldl _ _ _)]

/-! ## The tasks -/

/-- The variables of the tasks below the one for some chunks, and its own result. -/
def cells (chunkFirst chunkLast : ℕ) : Set Cell :=
  {c | ∃ first last, c = .result first last ∧ chunkFirst ≤ first ∧ first ≤ last ∧
    last ≤ chunkLast}

theorem mem_cells {chunkFirst chunkLast first last : ℕ} (h₁ : chunkFirst ≤ first)
    (h₂ : first ≤ last) (h₃ : last ≤ chunkLast) :
    Cell.result first last ∈ cells chunkFirst chunkLast :=
  ⟨first, last, rfl, h₁, h₂, h₃⟩

theorem cells_subset {a b first last : ℕ} (h₁ : first ≤ a) (h₂ : b ≤ last) :
    cells a b ⊆ cells first last := by
  rintro c ⟨x, y, rfl, hx, hxy, hy⟩
  exact ⟨x, y, rfl, h₁.trans hx, hxy, hy.trans h₂⟩

theorem disjoint_cells (a b c : ℕ) : ∀ l ∈ cells a b, l ∉ cells (b + 1) c := by
  rintro l ⟨x, y, rfl, -, hxy, hy⟩ ⟨x', y', he, hx', -, -⟩
  cases he
  omega

/-- The task for some chunks finds the fold over their elements, in whatever order the tasks that
it spawns take their steps. -/
theorem good_action {a : Arguments α R} (ha : a.Associative)
    {partitioner : BlockSizePartitioner} (hp : partitioner.Valid) (chunkFirst chunkLast : ℕ) :
    ∀ m : Memory R, chunkFirst ≤ chunkLast → chunkLast < partitioner.size →
    Good (cells chunkFirst chunkLast)
      (fun m' => m' (.result chunkFirst chunkLast) =
        a.fold (partitioner.chunk chunkFirst).first (partitioner.chunk chunkLast).last)
      (action a partitioner chunkFirst chunkLast) m := by
  induction chunkFirst, chunkLast using action.induct partitioner with
  | case1 chunkFirst chunkLast hlt split ihl ihr =>
    intro m _ hlast
    have hs₁ : chunkFirst ≤ split := by omega
    have hs₂ : split + 1 ≤ chunkLast := by omega
    have hmid : (partitioner.chunk split).last = (partitioner.chunk (split + 1)).first :=
      BlockSizePartitioner.chunk_last_eq_first (by omega)
    have hown : Cell.result chunkFirst chunkLast ∈ cells chunkFirst chunkLast :=
      mem_cells le_rfl hlt.le le_rfl
    have hL : cells chunkFirst split ⊆ cells chunkFirst chunkLast := cells_subset le_rfl (by omega)
    have hR : cells (split + 1) chunkLast ⊆ cells chunkFirst chunkLast :=
      cells_subset (by omega) le_rfl
    have hL' : Cell.result chunkFirst split ∈ cells chunkFirst split :=
      mem_cells le_rfl hs₁ le_rfl
    have hR' : Cell.result (split + 1) chunkLast ∈ cells (split + 1) chunkLast :=
      mem_cells le_rfl hs₂ le_rfl
    rw [action, if_pos hlt]
    refine Good.of_act fun m₁ _ => ⟨?_, ?_⟩
    · exact (eqOn_update _ (hR hR') _).trans (eqOn_update m₁ (hL hL') _)
    · refine Good.of_fork hL hR (disjoint_cells _ _ _) (ihl _ hs₁ (by omega)) (ihr _ hs₂ hlast)
        fun m₂ hl₂ hr₂ _ => Good.of_act fun m₃ hm₃ => ⟨eqOn_update m₃ hown _, ?_⟩
      refine Good.of_done fun m₄ hm₄ => ?_
      rw [hm₄ hown, Function.update_self, hm₃ (hL hL'), hm₃ (hR hR'), hl₂, hr₂, hmid]
      refine ha.fold_append (partitioner.chunk_first_mono (by omega)) ?_
      exact (hp.chunk_first_lt_last_of_le hs₂ hlast).le
  | case2 chunkFirst chunkLast hge =>
    intro m hle hlast
    have he : chunkFirst = chunkLast := by omega
    subst he
    have hown : Cell.result chunkFirst chunkFirst ∈ cells chunkFirst chunkFirst :=
      mem_cells le_rfl le_rfl le_rfl
    rw [action, if_neg hge]
    refine Good.of_act fun m₁ _ => ⟨eqOn_update m₁ hown _, Good.of_done fun m₂ hm₂ => ?_⟩
    rw [hm₂ hown, Function.update_self, reduceChunk_eq]

/-- `Reduce` ends in every order of the steps of its tasks and returns the left fold. -/
theorem reduce_eq_fold {a : Arguments α R} (ha : a.Associative) {distance : ℤ}
    {numCores blockSize : ℕ} {program : Prog (Memory R)}
    (h : reduceRecursive a distance numCores blockSize = .ok program) (m : Memory R) :
    Ensures (fun m' => m' .returned = a.fold 0 distance.toNat) program m := by
  rcases checks_cases h with ⟨rfl, rfl⟩ | ⟨hpos, -, -, rfl⟩
  · have hgood : Good {Cell.returned} (fun m' : Memory R => m' .returned = a.fold 0 0)
        (.act (fun m => Function.update m .returned a.neutral) fun _ => .done) m := by
      refine Good.of_act fun m₁ _ => ⟨eqOn_update m₁ (Set.mem_singleton _) _,
        Good.of_done fun m₂ hm₂ => ?_⟩
      rw [hm₂ (Set.mem_singleton _), Function.update_self]
      rfl
    exact hgood.ensures.mono fun m' hm' => hm'.1
  have hp : BlockSizePartitioner.Valid
      ⟨0, distance.toNat, usedBlockSize distance.toNat numCores blockSize⟩ :=
    ⟨usedBlockSize_pos _ _ _, by simp only; omega⟩
  generalize hq : BlockSizePartitioner.mk 0 distance.toNat
    (usedBlockSize distance.toNat numCores blockSize) = partitioner at hp ⊢
  obtain ⟨-, hsize, -⟩ := hp.size_bounds
  have hlast : (partitioner.chunk (partitioner.size - 1)).last = distance.toNat := by
    rw [BlockSizePartitioner.chunk_last_of_size (by omega), ← hq]
  have hfirst : (partitioner.chunk 0).first = 0 := by
    rw [BlockSizePartitioner.chunk_zero_first, ← hq]
  have hresult : Cell.result 0 (partitioner.size - 1) ∈ cells 0 (partitioner.size - 1) :=
    mem_cells le_rfl (Nat.zero_le _) le_rfl
  have hgood : Good Set.univ (fun m' : Memory R => m' .returned = a.fold 0 distance.toNat)
      (.act (fun m => Function.update m (.result 0 (partitioner.size - 1)) a.neutral) fun _ =>
        .fork (action a partitioner 0 (partitioner.size - 1)) .done
          (.act (fun m => Function.update m .returned
            (m (.result 0 (partitioner.size - 1)))) fun _ => .done)) m := by
    refine Good.of_act fun m₁ _ => ⟨eqOn_update m₁ (Set.mem_univ _) _, ?_⟩
    have htask := good_action ha hp 0 (partitioner.size - 1)
      (Function.update m₁ (.result 0 (partitioner.size - 1)) a.neutral) (Nat.zero_le _)
      (Nat.sub_lt hsize Nat.one_pos)
    rw [hlast, hfirst] at htask
    refine Good.of_fork (Set.subset_univ _) (Set.empty_subset _)
      (fun _ _ => Set.notMem_empty _) htask (Good.of_done (Q := fun _ => True) fun _ _ => trivial)
      fun m₂ hm₂ _ _ => Good.of_act fun m₃ hm₃ => ⟨eqOn_update m₃ (Set.mem_univ _) _, ?_⟩
    refine Good.of_done fun m₄ hm₄ => ?_
    rw [hm₄ (Set.mem_univ _), Function.update_self, hm₃ (Set.mem_univ _)]
    exact hm₂
  exact hgood.ensures.mono fun m' hm' => hm'.1

/-! ## Counting -/

/-- Adding up ones and zeros counts the ones. -/
theorem foldl_add_countP (p : α → Bool) (x : ℤ) (l : List α) :
    (l.map fun element => if p element then (1 : ℤ) else 0).foldl (· + ·) x =
      x + l.countP p := by
  induction l generalizing x with
  | nil => simp
  | cons y l ih =>
    rw [List.map_cons, List.foldl_cons, ih, List.countP_cons]
    split
    · omega
    · omega

theorem associative_countIf (input : ℕ → α) (comparison : α → Bool) :
    (countIf input comparison).Associative := by
  constructor
  · exact Int.add_assoc
  · exact Int.zero_add
  · exact Int.add_zero

theorem fold_countIf (input : ℕ → α) (comparison : α → Bool) (first last : ℕ) :
    (countIf input comparison).fold first last =
      (slice input first last).countP comparison := by
  have h := foldl_add_countP comparison 0 (slice input first last)
  rw [Int.zero_add] at h
  exact h

/-- `Count` counts the elements for which the comparison with its value holds. -/
theorem count_eq_countIf [BEq α] (input : ℕ → α) (value : α) :
    count input value = countIf input (· == value) :=
  rfl

/-- In every order of the steps of its tasks, for every block size and number of cores, `Reduce`
ends and returns the left fold, and `Count` and `CountIf` the number of matching elements. -/
theorem reduce [BEq α] {a : Arguments α R} (ha : a.Associative) (input : ℕ → α) (value : α)
    (comparison : α → Bool) (distance : ℤ) (numCores blockSize : ℕ) :
    (∀ program, reduceRecursive a distance numCores blockSize = .ok program → ∀ m,
      Ensures (fun m' => m' .returned = a.fold 0 distance.toNat) program m) ∧
    (∀ program, reduceRecursive (count input value) distance numCores blockSize = .ok program →
      ∀ m, Ensures (fun m' => m' .returned =
        ((slice input 0 distance.toNat).count value : ℤ)) program m) ∧
    (∀ program, reduceRecursive (countIf input comparison) distance numCores blockSize =
      .ok program → ∀ m, Ensures (fun m' => m' .returned =
        ((slice input 0 distance.toNat).countP comparison : ℤ)) program m) := by
  refine ⟨fun _ h m => reduce_eq_fold ha h m, fun _ h m => ?_, fun _ h m => ?_⟩
  · have hcount := reduce_eq_fold (associative_countIf input (· == value)) h m
    rw [fold_countIf] at hcount
    exact hcount
  · have hcount := reduce_eq_fold (associative_countIf input comparison) h m
    rw [fold_countIf] at hcount
    exact hcount

/-- Words joined in blocks of two, in which the order of the operands matters. -/
def words : Arguments ℕ (List ℕ) :=
  ⟨id, [], (· ++ ·), fun n => [n, n]⟩

theorem associative_words : words.Associative := by
  constructor
  · exact List.append_assoc
  · exact List.nil_append
  · exact List.append_nil

theorem reduce_five :
    ∃ program, reduceRecursive words 5 4 2 = .ok program ∧
      Ensures (fun m' => m' .returned = words.fold 0 5) program (fun _ => []) :=
  ⟨_, rfl, (reduce associative_words (id : ℕ → ℕ) 3 (· == 3) 5 4 2).1 _ rfl fun _ => []⟩

end Embb.Algorithms.Reduce
