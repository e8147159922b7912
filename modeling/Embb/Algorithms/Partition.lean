import Embb.Lib.Tiling
import Mathlib.Data.Nat.ModEq
import Mathlib.Tactic.Common

/-!
# Partitions of an index range

Iterators are positions in the range that an algorithm works on. The block size
partitioner cuts a range into chunks of one size, the last of which may be
shorter; the chunk partitioner cuts it into a number of chunks whose sizes differ
by at most one.
-/

namespace Embb.Algorithms

/-- The positions from `first` up to `last`, the latter excluded. -/
@[ext]
structure ChunkDescriptor where
  first : ℕ
  last : ℕ
  deriving DecidableEq, Repr

/-- The number of positions in a chunk. -/
def ChunkDescriptor.length (c : ChunkDescriptor) : ℕ := c.last - c.first

/-- The chunks with the indices below `size` tile the range. -/
abbrev ChunksTile (first last size : ℕ) (chunk : ℕ → ChunkDescriptor) : Prop :=
  Tiles first last size (fun k => (chunk k).first) fun k => (chunk k).last

/-- A block size partitioner; the chunk size is positive wherever one is built. -/
structure BlockSizePartitioner where
  first : ℕ
  last : ℕ
  chunkSize : ℕ
  deriving DecidableEq, Repr

namespace BlockSizePartitioner

def elementsCount (p : BlockSizePartitioner) : ℕ := p.last - p.first

/-- The number of chunks, `Size()`. -/
def size (p : BlockSizePartitioner) : ℕ :=
  if p.elementsCount % p.chunkSize ≠ 0 then p.elementsCount / p.chunkSize + 1
  else p.elementsCount / p.chunkSize

/-- One chunk, `operator[]`. -/
def chunk (p : BlockSizePartitioner) (index : ℕ) : ChunkDescriptor where
  first := p.first + p.chunkSize * index
  last :=
    if p.size - 1 ≤ index then p.last else p.first + p.chunkSize * index + p.chunkSize

/-- A partitioner of a range that is not empty. -/
structure Valid (p : BlockSizePartitioner) : Prop where
  chunkSize_pos : 0 < p.chunkSize
  first_lt : p.first < p.last

variable {p : BlockSizePartitioner}

/-- The chunks cover the elements, and the last one has at least one of them. -/
theorem Valid.size_bounds (h : p.Valid) :
    p.elementsCount ≤ p.chunkSize * p.size ∧ 0 < p.size ∧
      p.chunkSize * (p.size - 1) < p.elementsCount := by
  have hpos := h.chunkSize_pos
  have hcount : 0 < p.elementsCount := Nat.sub_pos_of_lt h.first_lt
  have hdiv := Nat.div_add_mod p.elementsCount p.chunkSize
  have hmod := Nat.mod_lt p.elementsCount hpos
  unfold size
  split
  · rename_i hne
    rw [Nat.mul_add_one, Nat.add_sub_cancel]
    exact ⟨by omega, Nat.succ_pos _, by omega⟩
  · rename_i heq
    rw [not_not] at heq
    have hq : 0 < p.elementsCount / p.chunkSize := by
      by_contra hz
      rw [Nat.eq_zero_of_not_pos hz, heq] at hdiv
      omega
    rw [Nat.mul_sub_one]
    have hle : p.chunkSize ≤ p.chunkSize * (p.elementsCount / p.chunkSize) :=
      Nat.le_mul_of_pos_right _ hq
    omega

/-- At most one chunk is shorter than the others. -/
theorem size_le (p : BlockSizePartitioner) : p.size ≤ p.elementsCount / p.chunkSize + 1 := by
  unfold size
  split
  · exact le_rfl
  · exact Nat.le_succ _

theorem chunk_zero_first (p : BlockSizePartitioner) : (p.chunk 0).first = p.first := rfl

/-- The last chunk ends where the range ends. -/
theorem chunk_last_of_size {index : ℕ} (h : p.size ≤ index + 1) :
    (p.chunk index).last = p.last :=
  if_pos (by omega)

/-- Every chunk begins inside the range. -/
theorem Valid.chunk_first_lt (h : p.Valid) {index : ℕ} (hi : index < p.size) :
    (p.chunk index).first < p.last := by
  obtain ⟨-, -, hlast⟩ := h.size_bounds
  have hle : p.chunkSize * index ≤ p.chunkSize * (p.size - 1) :=
    Nat.mul_le_mul_left _ (by omega)
  show p.first + p.chunkSize * index < p.last
  unfold elementsCount at hlast
  omega

/-- A chunk ends where the next one begins. -/
theorem chunk_last_eq_first {index : ℕ} (h : index + 1 < p.size) :
    (p.chunk index).last = (p.chunk (index + 1)).first := by
  show (if p.size - 1 ≤ index then _ else _) = p.first + p.chunkSize * (index + 1)
  rw [if_neg (by omega), Nat.mul_add_one, Nat.add_assoc]

theorem Valid.chunk_first_lt_last (h : p.Valid) {index : ℕ} (hi : index < p.size) :
    (p.chunk index).first < (p.chunk index).last := by
  rcases Nat.lt_or_ge (index + 1) p.size with hlt | hge
  · rw [chunk_last_eq_first hlt]
    show p.first + p.chunkSize * index < p.first + p.chunkSize * (index + 1)
    have hpos := h.chunkSize_pos
    rw [Nat.mul_add_one]
    omega
  · rw [chunk_last_of_size hge]
    exact h.chunk_first_lt hi

theorem chunk_first_mono (p : BlockSizePartitioner) {a b : ℕ} (h : a ≤ b) :
    (p.chunk a).first ≤ (p.chunk b).first :=
  Nat.add_le_add_left (Nat.mul_le_mul_left _ h) _

/-- The chunks from one to a later one cover a range that is not empty. -/
theorem Valid.chunk_first_lt_last_of_le (h : p.Valid) {a b : ℕ} (hab : a ≤ b)
    (hb : b < p.size) : (p.chunk a).first < (p.chunk b).last :=
  (p.chunk_first_mono hab).trans_lt (h.chunk_first_lt_last hb)

/-- Later chunks begin where earlier ones have ended. -/
theorem chunk_last_le_first (p : BlockSizePartitioner) {a b : ℕ} (hab : a < b)
    (hb : b < p.size) : (p.chunk a).last ≤ (p.chunk b).first := by
  rw [chunk_last_eq_first (by omega)]
  exact p.chunk_first_mono hab

theorem Valid.tiles (h : p.Valid) : ChunksTile p.first p.last p.size p.chunk where
  pos := h.size_bounds.2.1
  first_eq := p.chunk_zero_first
  last_eq := chunk_last_of_size (by omega)
  nonempty _ hk := h.chunk_first_lt_last hk
  consecutive _ hk := chunk_last_eq_first hk

/-- Every position of the range lies in a chunk. -/
theorem Valid.exists_chunk (h : p.Valid) {i : ℕ} (h₁ : p.first ≤ i) (h₂ : i < p.last) :
    ∃ k < p.size, (p.chunk k).first ≤ i ∧ i < (p.chunk k).last :=
  h.tiles.exists_mem h₁ h₂

/-- All chunks but the last one have the size that was asked for. -/
theorem length_chunk {index : ℕ} (h : index + 1 < p.size) :
    (p.chunk index).length = p.chunkSize := by
  show (if p.size - 1 ≤ index then _ else _) - (p.first + p.chunkSize * index) = p.chunkSize
  rw [if_neg (by omega), Nat.add_sub_cancel_left]

end BlockSizePartitioner

/-- A partitioner into a given number of chunks. -/
structure ChunkPartitioner where
  first : ℕ
  last : ℕ
  size : ℕ
  deriving DecidableEq, Repr

namespace ChunkPartitioner

/-- The constructor; without a number of chunks it takes the number of worker threads. -/
def create (workerThreadCount first last amountChunks : ℕ) : ChunkPartitioner where
  first := first
  last := last
  size := min (if 0 < amountChunks then amountChunks else workerThreadCount) (last - first)

def elementsCount (p : ChunkPartitioner) : ℕ := p.last - p.first

def standardChunkSize (p : ChunkPartitioner) : ℕ := p.elementsCount / p.size

def biggerChunkCount (p : ChunkPartitioner) : ℕ := p.elementsCount % p.size

/-- The number of elements before a chunk. -/
def precElementsCount (p : ChunkPartitioner) (index : ℕ) : ℕ :=
  if index ≤ p.biggerChunkCount then index * (p.standardChunkSize + 1)
  else (p.standardChunkSize + 1) * p.biggerChunkCount +
    p.standardChunkSize * (index - p.biggerChunkCount)

def curElementsCount (p : ChunkPartitioner) (index : ℕ) : ℕ :=
  if index < p.biggerChunkCount then p.standardChunkSize + 1 else p.standardChunkSize

/-- One chunk, `operator[]`. -/
def chunk (p : ChunkPartitioner) (index : ℕ) : ChunkDescriptor where
  first := p.first + p.precElementsCount index
  last := p.first + p.precElementsCount index + p.curElementsCount index

variable {p : ChunkPartitioner}

theorem precElementsCount_eq (p : ChunkPartitioner) (index : ℕ) :
    p.precElementsCount index = p.standardChunkSize * index + min index p.biggerChunkCount := by
  unfold precElementsCount
  split
  · rename_i hle
    rw [Nat.min_eq_left hle, Nat.mul_comm, Nat.add_mul, Nat.one_mul]
  · rename_i hgt
    obtain ⟨d, rfl⟩ := Nat.exists_eq_add_of_le (Nat.le_of_not_le hgt)
    rw [Nat.min_eq_right (Nat.le_add_right _ _), Nat.add_sub_cancel_left, Nat.add_mul,
      Nat.one_mul, Nat.mul_add]
    omega

/-- A chunk ends where the next one begins. -/
theorem precElementsCount_succ (p : ChunkPartitioner) (index : ℕ) :
    p.precElementsCount (index + 1) = p.precElementsCount index + p.curElementsCount index := by
  rw [precElementsCount_eq, precElementsCount_eq, curElementsCount, Nat.mul_add_one]
  split <;> omega

/-- A partitioner of a range that is not empty, with at most as many chunks as elements. -/
structure Valid (p : ChunkPartitioner) : Prop where
  size_pos : 0 < p.size
  size_le : p.size ≤ p.elementsCount
  first_lt : p.first < p.last

theorem valid_create (workerThreadCount : ℕ) {first last amountChunks : ℕ} (h : first < last)
    (ha : 0 < amountChunks) : (create workerThreadCount first last amountChunks).Valid where
  size_pos := by
    show 0 < min (if 0 < amountChunks then amountChunks else workerThreadCount) (last - first)
    rw [if_pos ha]
    omega
  size_le := Nat.min_le_right _ _
  first_lt := h

/-- Behind the last chunk there are no elements left. -/
theorem Valid.precElementsCount_size (h : p.Valid) :
    p.precElementsCount p.size = p.elementsCount := by
  have hlt : p.biggerChunkCount < p.size := Nat.mod_lt _ h.size_pos
  rw [precElementsCount_eq, Nat.min_eq_right hlt.le, Nat.mul_comm]
  exact Nat.div_add_mod _ _

theorem Valid.curElementsCount_pos (h : p.Valid) (index : ℕ) : 0 < p.curElementsCount index := by
  have hpos : 0 < p.standardChunkSize := Nat.div_pos h.size_le h.size_pos
  unfold curElementsCount
  split <;> omega

theorem Valid.tiles (h : p.Valid) : ChunksTile p.first p.last p.size p.chunk where
  pos := h.size_pos
  first_eq := by
    show p.first + p.precElementsCount 0 = p.first
    rw [precElementsCount_eq, Nat.zero_min]
    rfl
  last_eq := by
    show p.first + p.precElementsCount (p.size - 1) + p.curElementsCount (p.size - 1) = p.last
    have hfirst := h.first_lt
    rw [Nat.add_assoc, ← precElementsCount_succ, Nat.sub_add_cancel h.size_pos,
      h.precElementsCount_size, elementsCount]
    omega
  nonempty k _ := Nat.lt_add_of_pos_right (h.curElementsCount_pos k)
  consecutive k _ := by
    show p.first + p.precElementsCount k + p.curElementsCount k =
      p.first + p.precElementsCount (k + 1)
    rw [precElementsCount_succ, Nat.add_assoc]

theorem length_chunk (p : ChunkPartitioner) (index : ℕ) :
    (p.chunk index).length = p.curElementsCount index :=
  Nat.add_sub_cancel_left ..

/-- Chunks come in two sizes, the larger ones first. -/
theorem length_chunk_bounds (p : ChunkPartitioner) {j k : ℕ} (hjk : j ≤ k) :
    (p.chunk k).length ≤ (p.chunk j).length ∧ (p.chunk j).length ≤ (p.chunk k).length + 1 := by
  rw [length_chunk, length_chunk]
  unfold curElementsCount
  split <;> split <;> omega

/-- Two chunks of a range of at least two elements are its two halves. -/
theorem chunk_halves (workerThreadCount : ℕ) {first last : ℕ} (h : 2 ≤ last - first) :
    ∃ mid, first < mid ∧ mid < last ∧
      (create workerThreadCount first last 2).chunk 0 = ⟨first, mid⟩ ∧
      (create workerThreadCount first last 2).chunk 1 = ⟨mid, last⟩ := by
  have hsize : (create workerThreadCount first last 2).size = 2 := by
    show min (if 0 < 2 then 2 else workerThreadCount) (last - first) = 2
    rw [if_pos (by decide)]
    omega
  have htiles := (valid_create workerThreadCount (show first < last by omega)
    (show 0 < 2 by decide)).tiles
  rw [hsize] at htiles
  have hmid := htiles.consecutive 0 (by decide)
  refine ⟨_, lt_of_eq_of_lt htiles.first_eq.symm (htiles.nonempty 0 (by decide)), ?_, ?_, ?_⟩
  · rw [hmid]
    exact lt_of_lt_of_eq (htiles.nonempty 1 (by decide)) htiles.last_eq
  · exact ChunkDescriptor.ext htiles.first_eq rfl
  · exact ChunkDescriptor.ext hmid.symm htiles.last_eq

end ChunkPartitioner

/-- Both partitioners tile every range that is not empty. The block size partitioner makes
chunks of the given size, of which only the last one may be shorter; the chunk partitioner
makes as many chunks as it is asked for, or one for each element, and the sizes of two of them
differ by at most one, with the larger ones first. -/
theorem partitioners_tile {first last : ℕ} (h : first < last) :
    (∀ chunkSize, 0 < chunkSize →
      let p : BlockSizePartitioner := ⟨first, last, chunkSize⟩
      ChunksTile first last p.size p.chunk ∧
      (∀ i, first ≤ i → i < last →
        ∃! k, k < p.size ∧ (p.chunk k).first ≤ i ∧ i < (p.chunk k).last) ∧
      ∀ k, k + 1 < p.size → (p.chunk k).length = chunkSize) ∧
    ∀ workerThreadCount amountChunks, 0 < amountChunks →
      let p := ChunkPartitioner.create workerThreadCount first last amountChunks
      p.size = min amountChunks (last - first) ∧
      ChunksTile first last p.size p.chunk ∧
      (∀ i, first ≤ i → i < last →
        ∃! k, k < p.size ∧ (p.chunk k).first ≤ i ∧ i < (p.chunk k).last) ∧
      ∀ j k, j ≤ k → k < p.size →
        (p.chunk k).length ≤ (p.chunk j).length ∧
        (p.chunk j).length ≤ (p.chunk k).length + 1 := by
  constructor
  · intro chunkSize hpos p
    have hp : p.Valid := ⟨hpos, h⟩
    exact ⟨hp.tiles, fun i h₁ h₂ => hp.tiles.existsUnique_mem h₁ h₂,
      fun k hk => BlockSizePartitioner.length_chunk hk⟩
  · intro workerThreadCount amountChunks hpos p
    have hp : p.Valid := ChunkPartitioner.valid_create workerThreadCount h hpos
    refine ⟨?_, hp.tiles, fun i h₁ h₂ => hp.tiles.existsUnique_mem h₁ h₂,
      fun j k hjk _ => p.length_chunk_bounds hjk⟩
    show min (if 0 < amountChunks then amountChunks else workerThreadCount) (last - first) = _
    rw [if_pos hpos]

/-- Thirteen elements in blocks of five, and in five chunks. -/
theorem partitioners_tile_thirteen :
    ChunksTile 0 13 3 (BlockSizePartitioner.chunk ⟨0, 13, 5⟩) ∧
    ChunksTile 0 13 5 (ChunkPartitioner.create 1 0 13 5).chunk :=
  have h := @partitioners_tile 0 13 (by decide)
  ⟨(h.1 5 (by decide)).1, (h.2 1 5 (by decide)).2.1⟩

/-! ## The checks before an algorithm starts -/

/-- `MTAPI_NODE_MAX_TASKS_DEFAULT`. -/
def nodeMaxTasksDefault : ℕ := 1024

/-- What the checks of the algorithms throw. -/
inductive Error
  | negativeRange
  | noCores
  | notEnoughTasks
  deriving DecidableEq, Repr

/-- The block size that is used for `distance` elements. -/
def usedBlockSize (distance numCores blockSize : ℕ) : ℕ :=
  if blockSize = 0 then
    if distance / numCores = 0 then 1 else distance / numCores
  else blockSize

theorem usedBlockSize_pos (distance numCores blockSize : ℕ) :
    0 < usedBlockSize distance numCores blockSize := by
  unfold usedBlockSize
  split
  · split
    · exact Nat.one_pos
    · rename_i hne
      exact Nat.pos_of_ne_zero hne
  · omega

/-- The checks that the algorithms make of their range let pass an empty one, for which there is
nothing to do, or one for which there are enough tasks. -/
theorem checks_cases {A : Type} {distance : ℤ} {numCores blockSize : ℕ} {idle work program : A}
    (h : (if distance = 0 then .ok idle
      else if distance < 0 then .error .negativeRange
      else if numCores = 0 then .error .noCores
      else if distance.toNat / usedBlockSize distance.toNat numCores blockSize * 2 + 1 >
        nodeMaxTasksDefault then .error .notEnoughTasks
      else .ok work : Except Error A) = .ok program) :
    (distance = 0 ∧ program = idle) ∨ 0 < distance ∧ 0 < numCores ∧
      distance.toNat / usedBlockSize distance.toNat numCores blockSize * 2 + 1 ≤
        nodeMaxTasksDefault ∧ program = work := by
  split at h
  · next hzero =>
    cases h
    exact Or.inl ⟨hzero, rfl⟩
  split at h
  · cases h
  split at h
  · cases h
  split at h
  · cases h
  rename_i hne hneg hcores henough
  cases h
  exact Or.inr ⟨by omega, Nat.pos_of_ne_zero hcores, Nat.not_lt.mp henough, rfl⟩

end Embb.Algorithms
