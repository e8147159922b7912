import Embb.Algorithms.Partition
import Embb.Lib.ForkJoin
import Embb.Lib.HeapTree
import Mathlib.Tactic.Ring

/-!
# Parallel scan

Two passes go down the same tree of tasks. The first one scans every chunk by itself
and leaves the total of the chunks below a task in an array, at the number of the
task in a binary heap. The second one hands the total of everything to the left
down to the chunks, which put it in front of their elements.

The total is handed to a right branch by `operator+` of the element type, with the
left total in front, where the scan operation is due with the left total behind. The
result is therefore right exactly for operations and partitions where this makes no
difference.
-/

namespace Embb.Algorithms.Scan

open ForkJoin HeapTree

/-- An associative scan operation with its neutral element, and the addition that the
element type happens to have. -/
structure Operation (R : Type) where
  scan : R → R → R
  neutral : R
  plus : R → R → R
  assoc : ∀ a b c, scan (scan a b) c = scan a (scan b c)
  neutral_scan : ∀ a, scan neutral a = a
  scan_neutral : ∀ a, scan a neutral = a

/-- The output range and the array `values`. -/
inductive Cell
  | output (position : ℕ)
  | treeValue (nodeId : ℕ)
  deriving DecidableEq, Repr

abbrev Memory (R : Type) := Cell → R

/-- The fields of a `ScanFunctor` that differ from task to task. -/
structure ScanFunctor (R : Type) where
  chunkFirst : ℕ
  chunkLast : ℕ
  outputIterator : ℕ
  nodeId : ℕ
  parentValue : R
  isFirstPass : Bool

variable {X R : Type}

section Program

variable (o : Operation R) (transformation : X → R) (input : ℕ → X)

/-- The loop of a leaf in the first pass, with its `result`. -/
def firstLoop (lastIn iterIn iterOut : ℕ) (result : R) (m : Memory R) : R × Memory R :=
  if iterIn < lastIn then
    let result := o.scan result (transformation (input iterIn))
    firstLoop lastIn (iterIn + 1) (iterOut + 1) result
      (Function.update m (.output iterOut) result)
  else (result, m)
termination_by lastIn - iterIn

/-- A leaf in the first pass. -/
def firstLeaf (chunk : ChunkDescriptor) (iterOut nodeId : ℕ) (m : Memory R) : Memory R :=
  let result := transformation (input chunk.first)
  let (result, m) := firstLoop o transformation input chunk.last (chunk.first + 1) (iterOut + 1)
    result (Function.update m (.output iterOut) result)
  Function.update m (.treeValue nodeId) result

/-- The loop of a leaf in the second pass. -/
def secondLoop (parentValue : R) (lastIn iterIn iterOut : ℕ) (m : Memory R) : Memory R :=
  if iterIn < lastIn then
    secondLoop parentValue lastIn (iterIn + 1) (iterOut + 1)
      (Function.update m (.output iterOut) (o.scan parentValue (m (.output iterOut))))
  else m
termination_by lastIn - iterIn

/-- The functor of the left branch. -/
def ScanFunctor.left (f : ScanFunctor R) : ScanFunctor R where
  chunkFirst := f.chunkFirst
  chunkLast := (f.chunkFirst + f.chunkLast) / 2
  outputIterator := f.outputIterator
  nodeId := 2 * f.nodeId + 1
  parentValue := if f.isFirstPass then o.neutral else f.parentValue
  isFirstPass := f.isFirstPass

/-- The functor of the right branch, which reads the tree value of the left one. -/
def ScanFunctor.right (partitioner : BlockSizePartitioner) (f : ScanFunctor R) (m : Memory R) :
    ScanFunctor R where
  chunkFirst := (f.chunkFirst + f.chunkLast) / 2 + 1
  chunkLast := f.chunkLast
  outputIterator := f.outputIterator +
    ((partitioner.chunk ((f.chunkFirst + f.chunkLast) / 2 + 1)).first -
      (partitioner.chunk f.chunkFirst).first)
  nodeId := 2 * f.nodeId + 2
  parentValue :=
    if f.isFirstPass then o.neutral
    else o.plus (m (.treeValue (2 * f.nodeId + 1))) f.parentValue
  isFirstPass := f.isFirstPass

/-- `ScanFunctor::Action`. -/
def action (partitioner : BlockSizePartitioner) (f : ScanFunctor R) : Prog (Memory R) :=
  if f.chunkFirst < f.chunkLast then
    .act id fun m =>
      .fork (action partitioner (f.left o)) (action partitioner (f.right o partitioner m))
        (.act
          (fun m => Function.update m (.treeValue f.nodeId)
            (o.scan (m (.treeValue (2 * f.nodeId + 1))) (m (.treeValue (2 * f.nodeId + 2)))))
          fun _ => .done)
  else
    let chunk := partitioner.chunk f.chunkFirst
    if f.isFirstPass then
      .act (firstLeaf o transformation input chunk f.outputIterator f.nodeId) fun _ => .done
    else
      .act (secondLoop o f.parentValue chunk.last chunk.first f.outputIterator) fun _ => .done
termination_by f.chunkLast - f.chunkFirst
decreasing_by
  all_goals
    simp only [ScanFunctor.left, ScanFunctor.right]
    omega

/-- The functor of the first task of a pass. -/
def ScanFunctor.root (partitioner : BlockSizePartitioner) (isFirstPass : Bool) :
    ScanFunctor R where
  chunkFirst := 0
  chunkLast := partitioner.size - 1
  outputIterator := 0
  nodeId := 0
  parentValue := o.neutral
  isFirstPass := isFirstPass

/-- `ScanIteratorCheck`. -/
def scanIteratorCheck (distance : ℤ) (numCores blockSize : ℕ) : Except Error (Prog (Memory R)) :=
  if distance = 0 then .ok .done
  else if distance < 0 then .error .negativeRange
  else if numCores = 0 then .error .noCores
  else
    let blockSize := usedBlockSize distance.toNat numCores blockSize
    if distance.toNat / blockSize * 2 + 1 > nodeMaxTasksDefault then .error .notEnoughTasks
    else
      let partitioner : BlockSizePartitioner := ⟨0, distance.toNat, blockSize⟩
      .ok (.fork (action o transformation input partitioner (.root o partitioner true)) .done
        (.fork (action o transformation input partitioner (.root o partitioner false)) .done
          .done))

end Program

/-- The sequential scan. -/
def sequentialScan (o : Operation R) (transformation : X → R) (input : ℕ → X) : ℕ → R
  | 0 => transformation (input 0)
  | i + 1 => o.scan (sequentialScan o transformation input i) (transformation (input (i + 1)))

/-! ## Totals of consecutive elements -/

section Totals

variable (o : Operation R) (transformation : X → R) (input : ℕ → X)

/-- The scan of the elements at the positions from `first` up to `last`. -/
def total (first last : ℕ) : R :=
  ((List.range' first (last - first)).map fun i => transformation (input i)).foldl o.scan
    o.neutral

theorem total_self (first : ℕ) : total o transformation input first first = o.neutral := by
  rw [total, Nat.sub_self]
  rfl

theorem total_succ {first last : ℕ} (h : first ≤ last) :
    total o transformation input first (last + 1) =
      o.scan (total o transformation input first last) (transformation (input last)) := by
  obtain ⟨n, rfl⟩ := Nat.exists_eq_add_of_le h
  have hn : first + n + 1 - first = n + 1 := by omega
  rw [total, total, hn, Nat.add_sub_cancel_left, List.range'_concat, List.map_append,
    List.foldl_append, Nat.one_mul]
  rfl

/-- Totals of adjacent parts combine, in their order. -/
theorem total_append {first mid last : ℕ} (h₁ : first ≤ mid) (h₂ : mid ≤ last) :
    o.scan (total o transformation input first mid) (total o transformation input mid last) =
      total o transformation input first last := by
  induction last, h₂ using Nat.le_induction with
  | base => rw [total_self, o.scan_neutral]
  | succ last h ih =>
    rw [total_succ o transformation input h, total_succ o transformation input (h₁.trans h),
      ← ih, o.assoc]

/-- From the start of the range the totals are the sequential scan. -/
theorem total_zero_succ (i : ℕ) :
    total o transformation input 0 (i + 1) = sequentialScan o transformation input i := by
  induction i with
  | zero => rw [total_succ _ _ _ le_rfl, total_self, o.neutral_scan, sequentialScan]
  | succ i ih => rw [total_succ _ _ _ (Nat.zero_le _), ih, sequentialScan]

end Totals

/-! ## The cells of a task -/

/-- The cells of a task: its part of the output and its subtree of the array `values`,
which has `MTAPI_NODE_MAX_TASKS_DEFAULT` entries. -/
def owned (first last nodeId : ℕ) : Set Cell :=
  {c | match c with
    | .output i => first ≤ i ∧ i < last
    | .treeValue w => Below nodeId w ∧ w < nodeMaxTasksDefault}

theorem owned_subset {first last a b v w : ℕ} (h₁ : first ≤ a) (h₂ : b ≤ last)
    (hv : ∀ u, Below w u → Below v u) : owned a b w ⊆ owned first last v := by
  intro c hc
  cases c with
  | output i => exact ⟨h₁.trans hc.1, hc.2.trans_le h₂⟩
  | treeValue u => exact ⟨hv u hc.1, hc.2⟩

theorem disjoint_owned (a b c v : ℕ) :
    ∀ l ∈ owned a b (2 * v + 1), l ∉ owned b c (2 * v + 2) := by
  intro l h₁ h₂
  cases l with
  | output i => exact absurd h₂.1 (Nat.not_le.mpr h₁.2)
  | treeValue u => exact not_below_siblings h₁.1 h₂.1

/-! ## The leaves -/

section Leaves

variable (o : Operation R) (transformation : X → R) (input : ℕ → X)

theorem firstLoop_spec (first last i : ℕ) (m : Memory R) (h : first ≤ i) (hi : i ≤ last) :
    let r := firstLoop o transformation input last i i (total o transformation input first i) m
    r.1 = total o transformation input first last ∧
    (∀ j, i ≤ j → j < last → r.2 (.output j) = total o transformation input first (j + 1)) ∧
    ∀ c, (∀ j, i ≤ j → j < last → c ≠ .output j) → r.2 c = m c := by
  induction hn : last - i generalizing i m with
  | zero =>
    have he : i = last := by omega
    subst he
    rw [firstLoop, if_neg (lt_irrefl _)]
    exact ⟨rfl, fun j h₁ h₂ => absurd h₂ (Nat.not_lt.mpr h₁), fun _ _ => rfl⟩
  | succ n ih =>
    have hlt : i < last := by omega
    rw [firstLoop, if_pos hlt, ← total_succ o transformation input h]
    obtain ⟨h1, h2, h3⟩ := ih (i + 1)
      (Function.update m (.output i) (total o transformation input first (i + 1)))
      (by omega) (by omega) (by omega)
    refine ⟨h1, fun j hj hjl => ?_, fun c hc => ?_⟩
    · rcases Nat.eq_or_lt_of_le hj with rfl | hj
      · have hkeep := h3 (.output i) fun j hj _ he => by
          cases he
          omega
        exact hkeep.trans (Function.update_self ..)
      · exact h2 j hj hjl
    · rw [h3 c fun j hj hjl => hc j (by omega) hjl]
      exact Function.update_of_ne (hc i le_rfl hlt) _ _

/-- A leaf of the first pass scans its chunk and leaves the total. -/
theorem firstLeaf_spec {chunk : ChunkDescriptor} (h : chunk.first < chunk.last) (nodeId : ℕ)
    (m : Memory R) :
    let m' := firstLeaf o transformation input chunk chunk.first nodeId m
    (∀ j, chunk.first ≤ j → j < chunk.last →
      m' (.output j) = total o transformation input chunk.first (j + 1)) ∧
    m' (.treeValue nodeId) = total o transformation input chunk.first chunk.last ∧
    ∀ c, c ≠ .treeValue nodeId → (∀ j, chunk.first ≤ j → j < chunk.last → c ≠ .output j) →
      m' c = m c := by
  have hone : transformation (input chunk.first) =
      total o transformation input chunk.first (chunk.first + 1) := by
    rw [total_succ _ _ _ le_rfl, total_self, o.neutral_scan]
  simp only [firstLeaf]
  rw [hone]
  obtain ⟨h1, h2, h3⟩ := firstLoop_spec o transformation input chunk.first chunk.last
    (chunk.first + 1) (Function.update m (.output chunk.first)
      (total o transformation input chunk.first (chunk.first + 1))) (by omega) (by omega)
  refine ⟨fun j hj hjl => ?_, ?_, fun c hid hc => ?_⟩
  · rw [Function.update_of_ne (by simp)]
    rcases Nat.eq_or_lt_of_le hj with rfl | hj
    · have hkeep := h3 (.output chunk.first) fun j hj _ he => by
        cases he
        omega
      exact hkeep.trans (Function.update_self ..)
    · exact h2 j hj hjl
  · rw [Function.update_self]
    exact h1
  · rw [Function.update_of_ne hid, h3 c fun j hj hjl => hc j (by omega) hjl]
    exact Function.update_of_ne (hc _ le_rfl h) _ _

/-- A leaf of the second pass puts its parent value in front of every element. -/
theorem secondLoop_spec (parentValue : R) (last i : ℕ) (m : Memory R) :
    (∀ j, i ≤ j → j < last →
      secondLoop o parentValue last i i m (.output j) = o.scan parentValue (m (.output j))) ∧
    ∀ c, (∀ j, i ≤ j → j < last → c ≠ .output j) →
      secondLoop o parentValue last i i m c = m c := by
  induction hn : last - i generalizing i m with
  | zero =>
    rw [secondLoop, if_neg (by omega)]
    exact ⟨fun j h₁ h₂ => by omega, fun _ _ => rfl⟩
  | succ n ih =>
    have hlt : i < last := by omega
    rw [secondLoop, if_pos hlt]
    obtain ⟨h1, h2⟩ := ih (i + 1)
      (Function.update m (.output i) (o.scan parentValue (m (.output i)))) (by omega)
    refine ⟨fun j hj hjl => ?_, fun c hc => ?_⟩
    · rcases Nat.eq_or_lt_of_le hj with rfl | hj
      · have hkeep := h2 (.output i) fun j hj _ he => by
          cases he
          omega
        exact hkeep.trans (Function.update_self ..)
      · rw [h1 j hj hjl, Function.update_of_ne]
        intro he
        cases he
        omega
    · rw [h2 c fun j hj hjl => hc j (by omega) hjl]
      exact Function.update_of_ne (hc i le_rfl hlt) _ _

end Leaves

/-! ## The two passes -/

section Passes

variable {o : Operation R} {transformation : X → R} {input : ℕ → X}
  {p : BlockSizePartitioner}

/-- A functor whose chunks exist, whose output iterator stands at their first element and
whose subtree fits into the array `values`. -/
structure ScanFunctor.Placed (p : BlockSizePartitioner) (f : ScanFunctor R) : Prop where
  chunkFirst_le : f.chunkFirst ≤ f.chunkLast
  chunkLast_lt : f.chunkLast < p.size
  outputIterator_eq : f.outputIterator = (p.chunk f.chunkFirst).first
  fits : ∃ height, f.chunkLast - f.chunkFirst < 2 ^ height ∧
    (f.nodeId + 2) * 2 ^ height ≤ nodeMaxTasksDefault

/-- The cells of a functor. -/
def ScanFunctor.cells (p : BlockSizePartitioner) (f : ScanFunctor R) : Set Cell :=
  owned (p.chunk f.chunkFirst).first (p.chunk f.chunkLast).last f.nodeId

/-- Writing the tree value of a task does not touch the cells of its branches. -/
theorem ScanFunctor.nodeId_not_mem {f g : ScanFunctor R} (hg : f.nodeId < g.nodeId) :
    Cell.treeValue f.nodeId ∉ cells p g :=
  fun hm => absurd (le_of_below hm.1) (Nat.not_le.mpr hg)

namespace ScanFunctor.Placed

variable {f : ScanFunctor R}

theorem nodeId_lt (h : f.Placed p) : f.nodeId < nodeMaxTasksDefault := by
  obtain ⟨height, -, hle⟩ := h.fits
  have hpos := Nat.two_pow_pos height
  have hmul : (f.nodeId + 2) * 1 ≤ (f.nodeId + 2) * 2 ^ height := Nat.mul_le_mul_left _ hpos
  omega

/-- The two halves of the chunks fit into half the height. -/
theorem halves (h : f.Placed p) (hlt : f.chunkFirst < f.chunkLast) :
    ∃ height, (f.chunkFirst + f.chunkLast) / 2 - f.chunkFirst < 2 ^ height ∧
      f.chunkLast - ((f.chunkFirst + f.chunkLast) / 2 + 1) < 2 ^ height ∧
      (2 * f.nodeId + 4) * 2 ^ height ≤ nodeMaxTasksDefault := by
  obtain ⟨height, hh, hle⟩ := h.fits
  cases height with
  | zero =>
    rw [pow_zero] at hh
    omega
  | succ height =>
    rw [pow_succ] at hh hle
    refine ⟨height, by omega, by omega, ?_⟩
    calc (2 * f.nodeId + 4) * 2 ^ height = (f.nodeId + 2) * (2 ^ height * 2) := by ring
      _ ≤ nodeMaxTasksDefault := hle

theorem left (h : f.Placed p) (hlt : f.chunkFirst < f.chunkLast) : (f.left o).Placed p := by
  obtain ⟨height, h₁, -, h₃⟩ := h.halves hlt
  have hlast := h.chunkLast_lt
  refine ⟨?_, ?_, h.outputIterator_eq, height, h₁, le_trans ?_ h₃⟩
  · show f.chunkFirst ≤ (f.chunkFirst + f.chunkLast) / 2
    omega
  · show (f.chunkFirst + f.chunkLast) / 2 < p.size
    omega
  · exact Nat.mul_le_mul_right _ (show 2 * f.nodeId + 1 + 2 ≤ _ by omega)

theorem right (h : f.Placed p) (hlt : f.chunkFirst < f.chunkLast) (m : Memory R) :
    (f.right o p m).Placed p := by
  obtain ⟨height, -, h₂, h₃⟩ := h.halves hlt
  refine ⟨?_, h.chunkLast_lt, ?_, height, h₂, h₃⟩
  · show (f.chunkFirst + f.chunkLast) / 2 + 1 ≤ f.chunkLast
    omega
  · have hmono : (p.chunk f.chunkFirst).first ≤
        (p.chunk ((f.chunkFirst + f.chunkLast) / 2 + 1)).first := p.chunk_first_mono (by omega)
    show f.outputIterator + (_ - _) = (p.chunk ((f.chunkFirst + f.chunkLast) / 2 + 1)).first
    rw [h.outputIterator_eq]
    omega

theorem cells_left (hp : p.Valid) (h : f.Placed p) (hlt : f.chunkFirst < f.chunkLast) :
    cells p (f.left o) ⊆ cells p f := by
  have hlast := h.chunkLast_lt
  refine owned_subset le_rfl ?_ fun _ => below_left
  show (p.chunk ((f.chunkFirst + f.chunkLast) / 2)).last ≤ (p.chunk f.chunkLast).last
  exact (p.chunk_last_le_first (by omega) hlast).trans (hp.chunk_first_lt_last hlast).le

theorem cells_right (hlt : f.chunkFirst < f.chunkLast) (m : Memory R) :
    cells p (f.right o p m) ⊆ cells p f := by
  refine owned_subset ?_ le_rfl fun _ => below_right
  exact p.chunk_first_mono (show f.chunkFirst ≤ (f.chunkFirst + f.chunkLast) / 2 + 1 by omega)

/-- The left half of the chunks ends where the right half begins. -/
theorem last_left (h : f.Placed p) (hlt : f.chunkFirst < f.chunkLast) :
    (p.chunk ((f.chunkFirst + f.chunkLast) / 2)).last =
      (p.chunk ((f.chunkFirst + f.chunkLast) / 2 + 1)).first := by
  have hlast := h.chunkLast_lt
  exact BlockSizePartitioner.chunk_last_eq_first (by omega)

theorem disjoint (h : f.Placed p) (hlt : f.chunkFirst < f.chunkLast) (m : Memory R) :
    ∀ l ∈ cells p (f.left o), l ∉ cells p (f.right o p m) := by
  unfold cells
  show ∀ l ∈ owned _ (p.chunk ((f.chunkFirst + f.chunkLast) / 2)).last _, l ∉ _
  rw [h.last_left hlt]
  exact disjoint_owned _ _ _ _

theorem nodeId_mem (h : f.Placed p) : Cell.treeValue f.nodeId ∈ cells p f :=
  ⟨below_self _, h.nodeId_lt⟩

/-- The positions of the chunks of a functor are among its cells. -/
theorem output_mem (hp : p.Valid) (hf : f.Placed p)
    {k i : ℕ} (h₁ : f.chunkFirst ≤ k) (h₂ : k ≤ f.chunkLast) (hi : (p.chunk k).first ≤ i)
    (hil : i < (p.chunk k).last) : Cell.output i ∈ f.cells p := by
  have hlast : (p.chunk k).last ≤ (p.chunk f.chunkLast).last := by
    rcases Nat.eq_or_lt_of_le h₂ with rfl | hlt
    · exact le_rfl
    · exact (p.chunk_last_le_first hlt hf.chunkLast_lt).trans
        (hp.chunk_first_lt_last hf.chunkLast_lt).le
  exact ⟨(p.chunk_first_mono h₁).trans hi, hil.trans_le hlast⟩

end ScanFunctor.Placed

/-- Every chunk of a functor is scanned by itself. -/
def Scanned (o : Operation R) (transformation : X → R) (input : ℕ → X)
    (p : BlockSizePartitioner) (chunkFirst chunkLast : ℕ) (m : Memory R) : Prop :=
  ∀ k, chunkFirst ≤ k → k ≤ chunkLast → ∀ i, (p.chunk k).first ≤ i → i < (p.chunk k).last →
    m (.output i) = total o transformation input (p.chunk k).first (i + 1)

theorem Scanned.mono {a b a' b' : ℕ} {m : Memory R} (h : Scanned o transformation input p a b m)
    (ha : a ≤ a') (hb : b' ≤ b) : Scanned o transformation input p a' b' m :=
  fun k h₁ h₂ => h k (ha.trans h₁) (h₂.trans hb)

/-- The tree values in a subtree are the totals of its chunks. -/
inductive Totals (o : Operation R) (transformation : X → R) (input : ℕ → X)
    (p : BlockSizePartitioner) (m : Memory R) : ℕ → ℕ → ℕ → Prop
  | leaf (c id : ℕ) (hid : id < nodeMaxTasksDefault)
      (h : m (.treeValue id) = total o transformation input (p.chunk c).first (p.chunk c).last) :
      Totals o transformation input p m c c id
  | node (a b id : ℕ) (hid : id < nodeMaxTasksDefault)
      (h : m (.treeValue id) = total o transformation input (p.chunk a).first (p.chunk b).last)
      (left : Totals o transformation input p m a ((a + b) / 2) (2 * id + 1))
      (right : Totals o transformation input p m ((a + b) / 2 + 1) b (2 * id + 2)) :
      Totals o transformation input p m a b id

namespace Totals

variable {m m' : Memory R} {a b id : ℕ}

theorem value (h : Totals o transformation input p m a b id) :
    m (.treeValue id) = total o transformation input (p.chunk a).first (p.chunk b).last := by
  cases h with
  | leaf _ _ _ h => exact h
  | node _ _ _ _ h => exact h

theorem congr (h : Totals o transformation input p m a b id)
    (hm : ∀ w, Below id w → w < nodeMaxTasksDefault →
      m' (.treeValue w) = m (.treeValue w)) :
    Totals o transformation input p m' a b id := by
  induction h with
  | leaf c id hid h => exact .leaf c id hid ((hm id (below_self id) hid).trans h)
  | node a b id hid h _ _ ihl ihr =>
    exact .node a b id hid ((hm id (below_self id) hid).trans h)
      (ihl fun w hw => hm w (below_left hw)) (ihr fun w hw => hm w (below_right hw))

end Totals

/-- What the first pass leaves in the cells of a functor. -/
def FirstPass (o : Operation R) (transformation : X → R) (input : ℕ → X)
    (p : BlockSizePartitioner) (f : ScanFunctor R) (m : Memory R) : Prop :=
  Scanned o transformation input p f.chunkFirst f.chunkLast m ∧
    Totals o transformation input p m f.chunkFirst f.chunkLast f.nodeId

/-- Only the cells of the functor matter. -/
theorem FirstPass.congr (hp : p.Valid) {f : ScanFunctor R} (hf : f.Placed p) {m m' : Memory R}
    (h : FirstPass o transformation input p f m) (hm : Set.EqOn m' m (f.cells p)) :
    FirstPass o transformation input p f m' := by
  refine ⟨fun k h₁ h₂ i hi hil => ?_, h.2.congr fun w hw hid => hm ⟨hw, hid⟩⟩
  exact (hm (hf.output_mem hp h₁ h₂ hi hil)).trans (h.1 k h₁ h₂ i hi hil)

/-- The first pass scans the chunks by themselves and leaves their totals, in every order of
the steps of the tasks. -/
theorem good_firstPass (hp : p.Valid) (f : ScanFunctor R) :
    f.isFirstPass = true → f.Placed p → ∀ m : Memory R,
    Good (f.cells p) (FirstPass o transformation input p f)
      (action o transformation input p f) m := by
  induction f using action.induct o p with
  | case1 f hlt ihl ihr =>
    intro hpass hf m
    rw [action, if_pos hlt]
    refine Good.of_act fun m₁ _ => ⟨fun _ _ => rfl, ?_⟩
    have hl := ihl hpass (hf.left hlt) m₁
    have hr := ihr m₁ hpass (hf.right hlt m₁) m₁
    refine Good.of_fork (hf.cells_left hp hlt) (ScanFunctor.Placed.cells_right hlt m₁)
      (hf.disjoint hlt m₁) hl hr fun m₂ hl₂ hr₂ _ => Good.of_act fun m₃ hm₃ => ?_
    have hl₃ := hl₂.congr hp (hf.left hlt) (hm₃.mono (hf.cells_left hp hlt))
    have hr₃ := hr₂.congr hp (hf.right hlt m₁)
      (hm₃.mono (ScanFunctor.Placed.cells_right hlt m₁))
    have hoff : ∀ c, c ≠ .treeValue f.nodeId → Function.update m₃ (.treeValue f.nodeId)
        (o.scan (m₃ (.treeValue (2 * f.nodeId + 1))) (m₃ (.treeValue (2 * f.nodeId + 2)))) c =
          m₃ c := fun c hc => Function.update_of_ne hc _ _
    have hl₄ := hl₃.congr hp (hf.left hlt) fun c hc => hoff c fun he =>
      ScanFunctor.nodeId_not_mem (show f.nodeId < 2 * f.nodeId + 1 by omega) (he ▸ hc)
    have hr₄ := hr₃.congr hp (hf.right hlt m₁) fun c hc => hoff c fun he =>
      ScanFunctor.nodeId_not_mem (show f.nodeId < 2 * f.nodeId + 2 by omega) (he ▸ hc)
    refine ⟨fun c hc => hoff c fun he => hc (he ▸ hf.nodeId_mem), Good.of_done fun m₅ hm₅ => ?_⟩
    refine FirstPass.congr hp hf ⟨fun k h₁ h₂ => ?_, ?_⟩ hm₅
    · rcases Nat.lt_or_ge ((f.chunkFirst + f.chunkLast) / 2) k with hk | hk
      · exact hr₄.1 k hk h₂
      · exact hl₄.1 k h₁ hk
    · refine .node _ _ _ hf.nodeId_lt ?_ hl₄.2 hr₄.2
      rw [Function.update_self]
      refine (congrArg₂ o.scan hl₃.2.value hr₃.2.value).trans ?_
      have hlast := hf.chunkLast_lt
      show o.scan (total o transformation input (p.chunk f.chunkFirst).first
        (p.chunk ((f.chunkFirst + f.chunkLast) / 2)).last) (total o transformation input
          (p.chunk ((f.chunkFirst + f.chunkLast) / 2 + 1)).first _) = _
      rw [hf.last_left hlt]
      refine total_append o transformation input (p.chunk_first_mono (by omega)) ?_
      exact (hp.chunk_first_lt_last_of_le
        (show (f.chunkFirst + f.chunkLast) / 2 + 1 ≤ f.chunkLast by omega) hlast).le
  | case3 f hge hpass => exact fun h => absurd h hpass
  | case2 f hge hpass =>
    intro _ hf m
    have he : f.chunkFirst = f.chunkLast := by
      have hle := hf.chunkFirst_le
      omega
    rw [action, if_neg hge]
    simp only [hpass, if_true]
    refine Good.of_act fun m₁ _ => ?_
    have hlt := hp.chunk_first_lt_last (he ▸ hf.chunkLast_lt)
    obtain ⟨h1, h2, h3⟩ := firstLeaf_spec o transformation input hlt f.nodeId m₁
    rw [hf.outputIterator_eq]
    refine ⟨fun c hc => h3 c ?_ ?_, Good.of_done fun m₂ hm₂ => FirstPass.congr hp hf ⟨?_, ?_⟩ hm₂⟩
    · exact fun hid => hc (hid ▸ hf.nodeId_mem)
    · rintro j hj hjl rfl
      exact hc ⟨hj, he ▸ hjl⟩
    · intro k hk hkl i hi hil
      obtain rfl : k = f.chunkFirst := by omega
      exact h1 i hi hil
    · rw [← he]
      exact .leaf _ _ hf.nodeId_lt h2

/-- The value that a chunk is handed in the second pass. -/
def handed (o : Operation R) (transformation : X → R) (input : ℕ → X)
    (p : BlockSizePartitioner) (chunkFirst chunkLast : ℕ) (parentValue : R) (k : ℕ) : R :=
  if chunkFirst < chunkLast then
    if k ≤ (chunkFirst + chunkLast) / 2 then
      handed o transformation input p chunkFirst ((chunkFirst + chunkLast) / 2) parentValue k
    else
      handed o transformation input p ((chunkFirst + chunkLast) / 2 + 1) chunkLast
        (o.plus (total o transformation input (p.chunk chunkFirst).first
          (p.chunk ((chunkFirst + chunkLast) / 2)).last) parentValue) k
  else parentValue
termination_by chunkLast - chunkFirst

/-- What the second pass leaves in the cells of a functor. -/
def SecondPass (o : Operation R) (transformation : X → R) (input : ℕ → X)
    (p : BlockSizePartitioner) (f : ScanFunctor R) (m : Memory R) : Prop :=
  ∀ k, f.chunkFirst ≤ k → k ≤ f.chunkLast → ∀ i, (p.chunk k).first ≤ i → i < (p.chunk k).last →
    m (.output i) =
      o.scan (handed o transformation input p f.chunkFirst f.chunkLast f.parentValue k)
        (total o transformation input (p.chunk k).first (i + 1))

theorem SecondPass.congr (hp : p.Valid) {f : ScanFunctor R} (hf : f.Placed p) {m m' : Memory R}
    (h : SecondPass o transformation input p f m) (hm : Set.EqOn m' m (f.cells p)) :
    SecondPass o transformation input p f m' :=
  fun k h₁ h₂ i hi hil => (hm (hf.output_mem hp h₁ h₂ hi hil)).trans (h k h₁ h₂ i hi hil)

theorem Totals.branches {m : Memory R} {a b id : ℕ}
    (h : Totals o transformation input p m a b id) (hlt : a < b) :
    Totals o transformation input p m a ((a + b) / 2) (2 * id + 1) ∧
      Totals o transformation input p m ((a + b) / 2 + 1) b (2 * id + 2) := by
  cases h with
  | leaf => exact absurd hlt (lt_irrefl _)
  | node _ _ _ _ _ hl hr => exact ⟨hl, hr⟩

/-- The second pass puts in front of every chunk what it is handed, in every order of the
steps of the tasks. -/
theorem good_secondPass (hp : p.Valid) (f : ScanFunctor R) :
    f.isFirstPass = false → f.Placed p →
    ∀ m : Memory R, FirstPass o transformation input p f m →
    Good (f.cells p) (SecondPass o transformation input p f)
      (action o transformation input p f) m := by
  induction f using action.induct o p with
  | case1 f hlt ihl ihr =>
    intro hpass hf m hm
    rw [action, if_pos hlt]
    refine Good.of_act fun m₁ hm₁ => ⟨fun _ _ => rfl, ?_⟩
    obtain ⟨hs, ht⟩ := hm.congr hp hf hm₁
    obtain ⟨htl, htr⟩ := ht.branches hlt
    have hl := ihl hpass (hf.left hlt) m₁
      ⟨hs.mono le_rfl (show (f.chunkFirst + f.chunkLast) / 2 ≤ f.chunkLast by omega), htl⟩
    have hr := ihr m₁ hpass (hf.right hlt m₁) m₁
      ⟨hs.mono (show f.chunkFirst ≤ (f.chunkFirst + f.chunkLast) / 2 + 1 by omega) le_rfl, htr⟩
    refine Good.of_fork (hf.cells_left hp hlt) (ScanFunctor.Placed.cells_right hlt m₁)
      (hf.disjoint hlt m₁) hl hr fun m₂ hl₂ hr₂ _ => Good.of_act fun m₃ hm₃ => ?_
    have hl₃ := hl₂.congr hp (hf.left hlt) (hm₃.mono (hf.cells_left hp hlt))
    have hr₃ := hr₂.congr hp (hf.right hlt m₁)
      (hm₃.mono (ScanFunctor.Placed.cells_right hlt m₁))
    refine ⟨eqOn_update m₃ hf.nodeId_mem _,
      Good.of_done fun m₄ hm₄ => SecondPass.congr hp hf (fun k h₁ h₂ i hi hil => ?_) hm₄⟩
    rw [Function.update_of_ne (by simp), handed, if_pos hlt]
    split
    · rename_i hk
      refine (hl₃ k h₁ hk i hi hil).trans ?_
      simp only [ScanFunctor.left, hpass, Bool.false_eq_true, if_false]
    · rename_i hk
      refine (hr₃ k (Nat.not_le.mp hk) h₂ i hi hil).trans ?_
      have hv : m₁ (.treeValue (2 * f.nodeId + 1)) = _ := htl.value
      simp only [ScanFunctor.right, hpass, Bool.false_eq_true, if_false, hv]
  | case2 f hge hpass => exact fun h => absurd hpass (h ▸ Bool.false_ne_true)
  | case3 f hge hpass =>
    intro _ hf m hm
    have he : f.chunkFirst = f.chunkLast := by
      have hle := hf.chunkFirst_le
      omega
    rw [action, if_neg hge]
    simp only [hpass]
    refine Good.of_act fun m₁ hm₁ => ?_
    obtain ⟨h1, h2⟩ := secondLoop_spec o f.parentValue (p.chunk f.chunkFirst).last
      (p.chunk f.chunkFirst).first m₁
    rw [hf.outputIterator_eq]
    refine ⟨fun c hc => h2 c ?_,
      Good.of_done fun m₂ hm₂ => SecondPass.congr hp hf (fun k hk hkl i hi hil => ?_) hm₂⟩
    · rintro j hj hjl rfl
      exact hc ⟨hj, he ▸ hjl⟩
    · obtain rfl : k = f.chunkFirst := by omega
      rw [h1 i hi hil, (hm.congr hp hf hm₁).1 _ le_rfl hkl i hi hil, handed, if_neg hge]

end Passes

/-! ## The result -/

section Result

variable (o : Operation R) (transformation : X → R) (input : ℕ → X)

/-- The partitioner of both passes. -/
def partitioner (distance numCores blockSize : ℕ) : BlockSizePartitioner :=
  ⟨0, distance, usedBlockSize distance numCores blockSize⟩

/-- The inputs that the checks let pass, without the empty range. -/
structure Accepted (distance numCores blockSize : ℕ) : Prop where
  distance_pos : 0 < distance
  numCores_pos : 0 < numCores
  enoughTasks : distance / usedBlockSize distance numCores blockSize * 2 + 1 ≤ nodeMaxTasksDefault

variable {distance numCores blockSize : ℕ}

theorem Accepted.valid (h : Accepted distance numCores blockSize) :
    (partitioner distance numCores blockSize).Valid :=
  ⟨usedBlockSize_pos _ _ _, h.distance_pos⟩

/-- The tree of tasks fits into the array `values`. -/
theorem Accepted.placed (h : Accepted distance numCores blockSize) (isFirstPass : Bool) :
    (ScanFunctor.root o (partitioner distance numCores blockSize) isFirstPass).Placed
      (partitioner distance numCores blockSize) := by
  obtain ⟨-, hsize, -⟩ := h.valid.size_bounds
  refine ⟨Nat.zero_le _, Nat.sub_lt hsize Nat.one_pos, rfl, 9, ?_, ?_⟩
  swap
  · show (0 + 2) * 2 ^ 9 ≤ nodeMaxTasksDefault
    decide
  have henough := h.enoughTasks
  have hle : (partitioner distance numCores blockSize).size ≤
      distance / usedBlockSize distance numCores blockSize + 1 := by
    unfold BlockSizePartitioner.size
    split
    · exact le_rfl
    · exact Nat.le_succ _
  show (partitioner distance numCores blockSize).size - 1 - 0 < 2 ^ 9
  unfold nodeMaxTasksDefault at henough
  omega

/-- The program that `Scan` runs on an accepted input. -/
def program (distance numCores blockSize : ℕ) : Prog (Memory R) :=
  .fork (action o transformation input (partitioner distance numCores blockSize)
      (.root o (partitioner distance numCores blockSize) true)) .done
    (.fork (action o transformation input (partitioner distance numCores blockSize)
      (.root o (partitioner distance numCores blockSize) false)) .done .done)

theorem Accepted.scanIteratorCheck_eq (h : Accepted distance numCores blockSize) :
    scanIteratorCheck o transformation input distance numCores blockSize =
      .ok (program o transformation input distance numCores blockSize) := by
  have hpos := h.distance_pos
  have hcores := h.numCores_pos
  have henough := h.enoughTasks
  rw [scanIteratorCheck, if_neg (by omega), if_neg (by omega), if_neg (by omega)]
  simp only [Int.toNat_natCast]
  rw [if_neg (by omega)]
  rfl

/-- What an accepted scan leaves in the output, in every order of the steps of its tasks. -/
theorem Accepted.ensures (h : Accepted distance numCores blockSize) (m : Memory R) :
    Ensures (fun m' => ∀ k < (partitioner distance numCores blockSize).size, ∀ i,
      ((partitioner distance numCores blockSize).chunk k).first ≤ i →
      i < ((partitioner distance numCores blockSize).chunk k).last →
      m' (.output i) = o.scan
        (handed o transformation input (partitioner distance numCores blockSize) 0
          ((partitioner distance numCores blockSize).size - 1) o.neutral k)
        (total o transformation input
          ((partitioner distance numCores blockSize).chunk k).first (i + 1)))
      (program o transformation input distance numCores blockSize) m := by
  have hp := h.valid
  have hf := h.placed o true
  have hs := h.placed o false
  have hgood : Good
      ((ScanFunctor.root o (partitioner distance numCores blockSize) true).cells
        (partitioner distance numCores blockSize))
      (SecondPass o transformation input (partitioner distance numCores blockSize)
        (ScanFunctor.root o (partitioner distance numCores blockSize) false))
      (program o transformation input distance numCores blockSize) m := by
    refine Good.of_spawn (good_firstPass hp _ rfl hf m) fun m₁ hm₁ => ?_
    refine Good.of_spawn (good_secondPass hp _ rfl hs m₁ hm₁) fun m₂ hm₂ => ?_
    exact Good.of_done fun m₃ hm₃ => hm₂.congr hp hs hm₃
  refine hgood.ensures.mono fun m' hm' k hk => hm'.1 k (Nat.zero_le _) ?_
  exact Nat.le_sub_one_of_lt hk

/-- `Scan` computes the sequential scan of every range of this length, for every
transformation. -/
def Correct (o : Operation R) (distance numCores blockSize : ℕ) : Prop :=
  ∀ (X : Type) (transformation : X → R) (input : ℕ → X) (p : Prog (Memory R)),
    scanIteratorCheck o transformation input distance numCores blockSize = .ok p →
    ∀ m, Ensures (fun m' => ∀ i < distance,
      m' (.output i) = sequentialScan o transformation input i) p m

/-- The addition agrees with the scan operation as far as the second pass uses it: one chunk
needs no addition; of two or three chunks each is handed the sum of one total and the neutral
element; from four chunks on sums of sums are handed down. -/
def AdditionAgrees (o : Operation R) (chunks : ℕ) : Prop :=
  (1 < chunks → ∀ a, o.plus a o.neutral = a) ∧
    (3 < chunks → ∀ a b, o.plus b a = o.scan a b)

variable {p : BlockSizePartitioner}

/-- The first of some chunks is handed the parent value itself. -/
theorem handed_first (a b : ℕ) (v : R) : handed o transformation input p a b v a = v := by
  induction hn : b - a using Nat.strong_induction_on generalizing b with
  | h n ih =>
    rw [handed]
    split
    · rw [if_pos (by omega)]
      exact ih ((a + b) / 2 - a) (by omega) _ rfl
    · rfl

/-- Where the addition agrees with the scan operation, every chunk is handed the total of the
elements before it. -/
theorem handed_eq (a b : ℕ) (v : R) (hb : b < p.size)
    (hv : v = total o transformation input 0 (p.chunk a).first)
    (hadd : a < b → (v = o.neutral ∧ ∀ x, o.plus x o.neutral = x) ∨
      ∀ x y, o.plus y x = o.scan x y)
    (hfull : a + 2 < b → ∀ x y, o.plus y x = o.scan x y) {k : ℕ} (hak : a ≤ k) (hkb : k ≤ b) :
    handed o transformation input p a b v k = total o transformation input 0 (p.chunk k).first := by
  induction hn : b - a using Nat.strong_induction_on generalizing a b v with
  | h n ih =>
    rw [handed]
    split
    · rename_i hlt
      split
      · rename_i hk
        exact ih ((a + b) / 2 - a) (by omega) a _ v (by omega) hv (fun _ => hadd hlt)
          (fun h => hfull (by omega)) hak hk rfl
      · rename_i hk
        refine ih (b - ((a + b) / 2 + 1)) (by omega) _ b _ hb ?_
          (fun h => Or.inr (hfull (by omega))) (fun h => hfull (by omega)) (by omega) hkb rfl
        have hlast : (p.chunk ((a + b) / 2)).last = (p.chunk ((a + b) / 2 + 1)).first :=
          BlockSizePartitioner.chunk_last_eq_first (by omega)
        have happ := total_append o transformation input (Nat.zero_le (p.chunk a).first)
          (p.chunk_first_mono (show a ≤ (a + b) / 2 + 1 by omega))
        rw [hlast, ← happ, ← hv]
        rcases hadd hlt with ⟨hn, hone⟩ | hall
        · rw [hn, hone, o.neutral_scan]
        · exact hall _ _
    · have he : k = a := by omega
      rw [he]
      exact hv

/-- Elements behind the first one that are neutral do not change a total. -/
theorem total_eq_first {first last : ℕ} (h : first < last)
    (hx : ∀ i, first < i → i < last → transformation (input i) = o.neutral) :
    total o transformation input first last = transformation (input first) := by
  induction last, h using Nat.le_induction with
  | base => rw [total_succ _ _ _ le_rfl, total_self, o.neutral_scan]
  | succ last h ih =>
    rw [total_succ _ _ _ (Nat.le_of_succ_le h), hx last h (Nat.lt_succ_self _), o.scan_neutral]
    exact ih fun i h₁ h₂ => hx i h₁ (by omega)

variable {o transformation input}

/-- A correct scan hands a chunk that begins with the neutral element the total of the elements
before it. -/
theorem Correct.handed (h : Correct o distance numCores blockSize)
    (ha : Accepted distance numCores blockSize) {k : ℕ}
    (hk : k < (partitioner distance numCores blockSize).size)
    (hx : transformation (input ((partitioner distance numCores blockSize).chunk k).first) =
      o.neutral) :
    Scan.handed o transformation input (partitioner distance numCores blockSize) 0
      ((partitioner distance numCores blockSize).size - 1) o.neutral k =
      total o transformation input 0
        ((partitioner distance numCores blockSize).chunk k).first := by
  have hright := h X transformation input _ (ha.scanIteratorCheck_eq o transformation input)
    fun _ => o.neutral
  obtain ⟨m', h1, h2⟩ :=
    (ha.ensures o transformation input fun _ => o.neutral).exists_and hright
  have hvalue := h1 k hk _ le_rfl (ha.valid.chunk_first_lt_last hk)
  rw [h2 _ (ha.valid.chunk_first_lt hk), ← total_zero_succ, total_succ _ _ _ (Nat.zero_le _),
    total_succ _ _ _ le_rfl, total_self, hx, o.scan_neutral, o.scan_neutral,
    o.scan_neutral] at hvalue
  exact hvalue.symm

theorem additionAgrees_of_correct (h : Correct o distance numCores blockSize)
    (ha : Accepted distance numCores blockSize) :
    AdditionAgrees o (partitioner distance numCores blockSize).size := by
  have hp := ha.valid
  generalize hP : partitioner distance numCores blockSize = P at hp
  have hfirst : ∀ {j k}, j < k → k < P.size → (P.chunk j).first < (P.chunk k).first :=
    fun hjk hk => (hp.chunk_first_lt_last (hjk.trans hk)).trans_le (P.chunk_last_le_first hjk hk)
  have hmid : ∀ {k}, k + 1 < P.size → (P.chunk k).last = (P.chunk (k + 1)).first :=
    fun hk => BlockSizePartitioner.chunk_last_eq_first hk
  have hzero : (P.chunk 0).first = 0 := by
    rw [BlockSizePartitioner.chunk_zero_first, ← hP]
    rfl
  -- The first chunk of the right half is handed the total of the left half.
  have hone : 1 < P.size → ∀ a, o.plus a o.neutral = a := by
    intro hsize a
    have hk : (0 + (P.size - 1)) / 2 + 1 < P.size := by omega
    have hpos := hfirst (Nat.succ_pos ((0 + (P.size - 1)) / 2)) hk
    rw [hzero] at hpos
    have hh := @Correct.handed R R o id (fun i => if i = 0 then a else o.neutral) _ _ _ h ha _
      (hP ▸ hk) (if_neg (hP ▸ hpos.ne'))
    rw [hP, Scan.handed, if_pos (by omega), if_neg (by omega), handed_first, hmid hk, hzero,
      total_eq_first _ _ _ hpos fun i hi _ => if_neg hi.ne'] at hh
    exact hh
  refine ⟨hone, fun hsize a b => ?_⟩
  -- So is the first chunk of the right half of the right half, on top of that total.
  generalize hs : (0 + (P.size - 1)) / 2 = s at hone
  generalize hs₂ : (s + 1 + (P.size - 1)) / 2 = s₂
  have hk : s + 1 < P.size := by omega
  have hk₂ : s₂ + 1 < P.size := by omega
  have hpos := hfirst (Nat.succ_pos s) hk
  have hlt := hfirst (show s + 1 < s₂ + 1 by omega) hk₂
  rw [hzero] at hpos
  have hh := @Correct.handed R R o id
    (fun i => if i = 0 then a else if i = (P.chunk (s + 1)).first then b else o.neutral) _ _ _ h
    ha _ (hP ▸ hk₂) (by
      rw [hP]
      exact (if_neg (hpos.trans hlt).ne').trans (if_neg hlt.ne'))
  have hleft : total o id
      (fun i => if i = 0 then a else if i = (P.chunk (s + 1)).first then b else o.neutral) 0
      (P.chunk (s + 1)).first = a :=
    (total_eq_first _ _ _ hpos fun i hi hil => (if_neg hi.ne').trans (if_neg hil.ne)).trans
      (if_pos rfl)
  have hright : total o id
      (fun i => if i = 0 then a else if i = (P.chunk (s + 1)).first then b else o.neutral)
      (P.chunk (s + 1)).first (P.chunk (s₂ + 1)).first = b :=
    (total_eq_first _ _ _ hlt fun i hi _ =>
      (if_neg (hpos.trans hi).ne').trans (if_neg hi.ne')).trans
      ((if_neg hpos.ne').trans (if_pos rfl))
  rw [hP, Scan.handed, if_pos (by omega), hs, if_neg (by omega), Scan.handed, if_pos (by omega),
    hs₂, if_neg (by omega), handed_first, hmid hk, hmid hk₂, hzero,
    ← total_append _ _ _ hpos.le hlt.le, hleft, hright, hone (by omega)] at hh
  exact hh

theorem correct_of_additionAgrees (ha : Accepted distance numCores blockSize)
    (h : AdditionAgrees o (partitioner distance numCores blockSize).size) :
    Correct o distance numCores blockSize := by
  intro X transformation input p hp m
  rw [ha.scanIteratorCheck_eq o transformation input] at hp
  cases hp
  refine (ha.ensures o transformation input m).mono fun m' hm' i hi => ?_
  obtain ⟨k, hk, h₁, h₂⟩ := ha.valid.exists_chunk (Nat.zero_le i) hi
  have hhanded := handed_eq o transformation input 0 _ o.neutral
    (Nat.sub_lt (Nat.zero_lt_of_lt hk) Nat.one_pos) (total_self o transformation input 0).symm
    (fun hlt => Or.inl ⟨rfl, h.1 (by omega)⟩)
    (fun hlt x y => h.2 (by omega) x y) (Nat.zero_le k) (Nat.le_sub_one_of_lt hk)
  rw [hm' k hk i h₁ h₂, hhanded, total_append _ _ _ (Nat.zero_le _) (Nat.le_succ_of_le h₁),
    total_zero_succ]

/-- `Scan` is right on an accepted length, block size and number of cores exactly where the
addition of the element type agrees with the scan operation as far as the partition makes the
second pass use it. -/
theorem correct_iff (ha : Accepted distance numCores blockSize) :
    Correct o distance numCores blockSize ↔
      AdditionAgrees o (partitioner distance numCores blockSize).size :=
  ⟨fun h => additionAgrees_of_correct h ha, correct_of_additionAgrees ha⟩

end Result

/-- Concatenation, which strings have as their addition. -/
def concatenation : Operation (List Char) where
  scan := List.append
  neutral := []
  plus := List.append
  assoc := List.append_assoc
  neutral_scan := List.nil_append
  scan_neutral := List.append_nil

/-- Three letters in one block each: the addition is used with the neutral element only. -/
theorem correct_iff_three :
    Accepted 3 1 1 ∧ (Correct concatenation 3 1 1 ↔
      AdditionAgrees concatenation (partitioner 3 1 1).size) :=
  ⟨⟨by decide, by decide, by decide⟩, correct_iff ⟨by decide, by decide, by decide⟩⟩

/-- The letters `abcd`. -/
def letter (i : ℕ) : List Char := [Char.ofNat (97 + i)]

/-- Four letters in one block each: the last one is handed `cab` in place of `abc`. -/
theorem scan_four_letters :
    ∃ p, scanIteratorCheck concatenation id letter 4 1 1 = .ok p ∧
      Ensures (fun m' => m' (.output 3) = ['c', 'a', 'b', 'd']) p (fun _ => []) ∧
      sequentialScan concatenation id letter 3 = ['a', 'b', 'c', 'd'] ∧
      ¬ Ensures (fun m' => ∀ i < 4,
        m' (.output i) = sequentialScan concatenation id letter i) p fun _ => [] := by
  have ha : Accepted 4 1 1 := ⟨by decide, by decide, by decide⟩
  have hright : sequentialScan concatenation id letter 3 = ['a', 'b', 'c', 'd'] := by decide
  have hwrong : Ensures (fun m' : Memory (List Char) => m' (.output 3) = ['c', 'a', 'b', 'd'])
      (program concatenation id letter 4 1 1) fun _ => [] := by
    refine (ha.ensures concatenation id letter fun _ => []).mono fun m' hm' => ?_
    rw [hm' 3 (by decide) 3 (by decide) (by decide)]
    simp [handed, show (partitioner 4 1 1).size - 1 = 3 by decide]
    decide
  refine ⟨_, ha.scanIteratorCheck_eq concatenation id letter, hwrong, hright, fun h => ?_⟩
  obtain ⟨m', h1, h2⟩ := hwrong.exists_and h
  have h3 := h2 3 (by decide)
  rw [h1, hright] at h3
  exact absurd h3 (by decide)

end Embb.Algorithms.Scan
