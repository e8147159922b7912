import Mathlib.Data.BitVec
import Mathlib.Tactic.Ring
import Mathlib.Algebra.BigOperators.Group.Multiset.Basic
import Mathlib.Algebra.BigOperators.Ring.Finset
import Embb.Base.MemoryAllocation
import Embb.Lib.Threads

/-!
# The counted heap of a debug build

In a debug build `embb_alloc` and `embb_alloc_aligned` keep words in front of every block, from
which `embb_free` and `embb_free_aligned` learn what to give back, and count the bytes of all
blocks. The threads interleave at every access to a word and to the counter, and at the calls of
`malloc` and `free`; the application writes into its blocks in between.
-/

namespace Embb.Base.DebugHeap

open Threads

/-- `UNALIGNED_ALLOCATION`. -/
def unalignedAllocation : ℕ := 0x11AABB99

/-- `INVALID_ALLOCATION`. -/
def invalidAllocation : ℕ := 0x91919191

/-- The two pairs of functions. -/
inductive Kind where
  | unaligned
  | aligned
  deriving DecidableEq, Repr

def Kind.flag : Kind → ℕ
  | .unaligned => unalignedAllocation
  | .aligned => alignedAllocation

/-- How far the number of bytes is in front of the payload. -/
def Kind.bytesOffset : Kind → ℕ
  | .unaligned => 2 * sizeofSizeT
  | .aligned => 3 * sizeofSizeT

/-- A block of `malloc`, with the payload in it that the application gets. -/
structure Block where
  kind : Kind
  ptr : ℕ
  size : ℕ
  allocated : ℕ
  bytes : ℕ
  deriving DecidableEq, Repr

def Block.range (b : Block) : ℕ × ℕ := (b.allocated, b.bytes)

/-- The words in front of the payload with their addresses, in the order of the stores. -/
def Block.words (b : Block) : List (ℕ × ℕ) :=
  match b.kind with
  | .unaligned => [(b.ptr - sizeofSizeT, unalignedAllocation), (b.ptr - 2 * sizeofSizeT, b.bytes)]
  | .aligned =>
    [(b.ptr - sizeofSizeT, alignedAllocation), (b.ptr - 2 * sizeofSizeT, b.allocated),
      (b.ptr - 3 * sizeofSizeT, b.bytes)]

/-- The words that are known to be stored at an address, `embb_bytes_allocated`, the blocks that
`malloc` has handed out with their sizes, and the blocks that the application has. -/
structure Memory where
  word : ℕ → Option ℕ
  bytesAllocated : BitVec 64
  heap : List (ℕ × ℕ)
  live : List Block

namespace Memory

/-- Somebody writes to the bytes from `lo` to `hi`. -/
def write (m : Memory) (lo hi : ℕ) : Memory :=
  { m with word := fun a => if a + sizeofSizeT ≤ lo ∨ hi ≤ a then m.word a else none }

def store (m : Memory) (a value : ℕ) : Memory :=
  { m with word := Function.update (m.write a (a + sizeofSizeT)).word a (some value) }

/-- A word that nobody is known to have stored reads as anything, zero here. -/
def load (m : Memory) (a : ℕ) : ℕ := (m.word a).getD 0

end Memory

/-- Where a thread is. The functions know of a block its pointer only. -/
inductive Frame where
  | client
  /-- `embb_alloc`, about to count the bytes. -/
  | allocCount (b : Block)
  /-- About to store the word `k`. -/
  | allocStore (b : Block) (k : ℕ)
  /-- `embb_alloc_aligned`, about to store the word `k`. -/
  | alignedStore (b : Block) (k : ℕ)
  | alignedCount (b : Block)
  /-- `embb_free` and `embb_free_aligned`, about to check the flag. -/
  | freeCheck (b : Block)
  | freeMark (b : Block)
  | freeBytes (b : Block)
  | freeCount (b : Block) (bytes : ℕ)
  | freeAddress (b : Block)
  /-- About to call `free`. -/
  | freeCall (b : Block) (address : ℕ)
  | assertFailed
  deriving DecidableEq

/-- What the application does next; `address` is what `malloc` returns, zero where it fails. -/
inductive Choice where
  | alloc (bytes address : ℕ)
  /-- Call `embb_alloc_aligned` for a multiple of the power `k` of two. -/
  | allocAligned (k size address : ℕ)
  /-- Free a block by the function that belongs to it. -/
  | free (i : ℕ)
  /-- Write to the payload of a block. -/
  | write (i lo hi : ℕ)
  deriving DecidableEq

/-- `bytes_to_allocate` of `embb_alloc`. -/
def unalignedBytesToAllocate (bytes : ℕ) : ℕ := (2 * sizeofSizeT + bytes) % sizeRange

/-- One step of a thread. -/
def exec (c : Choice) (m : Memory) : Frame → Memory × Frame
  | .client =>
    match c with
    | .alloc bytes address =>
      if address = 0 then (m, .client)
      else
        let n := unalignedBytesToAllocate bytes
        ({ m with heap := (address, n) :: m.heap },
          .allocCount ⟨.unaligned, address + 2 * sizeofSizeT, bytes, address, n⟩)
    | .allocAligned k size address =>
      match allocAligned (fun _ => address) additionalBytes (2 ^ k) size with
      | some (some a) =>
        ({ m with heap := (a.allocated, a.bytes) :: m.heap },
          .alignedStore ⟨.aligned, a.x, size, a.allocated, a.bytes⟩ 0)
      | _ => (m, .client)
    | .free i =>
      match m.live[i]? with
      | some b => ({ m with live := m.live.eraseIdx i }, .freeCheck b)
      | none => (m, .client)
    | .write i lo hi =>
      match m.live[i]? with
      | some b =>
        if hi ≤ b.size then (m.write (b.ptr + lo) (b.ptr + hi), .client) else (m, .client)
      | none => (m, .client)
  | .allocCount b => ({ m with bytesAllocated := m.bytesAllocated + b.bytes }, .allocStore b 0)
  | .allocStore b k =>
    match b.words[k]? with
    | some (a, value) => (m.store a value, .allocStore b (k + 1))
    | none => ({ m with live := b :: m.live }, .client)
  | .alignedStore b k =>
    match b.words[k]? with
    | some (a, value) => (m.store a value, .alignedStore b (k + 1))
    | none => (m, .alignedCount b)
  | .alignedCount b =>
    ({ m with bytesAllocated := m.bytesAllocated + b.bytes, live := b :: m.live }, .client)
  | .freeCheck b =>
    if m.load (b.ptr - sizeofSizeT) = b.kind.flag then (m, .freeMark b) else (m, .assertFailed)
  | .freeMark b => (m.store (b.ptr - sizeofSizeT) invalidAllocation, .freeBytes b)
  | .freeBytes b => (m, .freeCount b (m.load (b.ptr - b.kind.bytesOffset)))
  | .freeCount b bytes =>
    ({ m with bytesAllocated := m.bytesAllocated + (0 - (bytes : BitVec 64)) }, .freeAddress b)
  | .freeAddress b =>
    match b.kind with
    | .unaligned => (m, .freeCall b (b.ptr - 2 * sizeofSizeT))
    | .aligned => (m, .freeCall b (m.load (b.ptr - 2 * sizeofSizeT)))
  | .freeCall _ address => ({ m with heap := m.heap.eraseP fun e => e.1 = address }, .client)
  | .assertFailed => (m, .assertFailed)

/-- The program of every thread. -/
def code : Code Memory Frame Choice := fun _ c f m => ((exec c m f).1, [(exec c m f).2])

/-- Threads before the first allocation, whatever memory holds. -/
def boot (word : ℕ → Option ℕ) (threads : ℕ) : State Memory Frame where
  mem := ⟨word, 0, [], []⟩
  callStacks := List.replicate threads [.client]

/-- Two blocks do not overlap. -/
def Apart (e e' : ℕ × ℕ) : Prop := e.1 + e.2 ≤ e'.1 ∨ e'.1 + e'.2 ≤ e.1

instance (e e' : ℕ × ℕ) : Decidable (Apart e e') := inferInstanceAs (Decidable (_ ∨ _))

/-- What `malloc` promises of a block: it overlaps no other and ends in the address space. -/
def NewBlock (m : Memory) (address bytes : ℕ) : Prop :=
  address ≠ 0 → address + bytes < sizeRange ∧ ∀ e ∈ m.heap, Apart (address, bytes) e

instance (m : Memory) (address bytes : ℕ) : Decidable (NewBlock m address bytes) :=
  inferInstanceAs (Decidable (_ → _))

/-- `malloc` keeps its promise, and the sizes that are asked for can be computed. -/
def Mallocs : Guard Memory Frame Choice := fun _ c f m _ =>
  f = .client →
    match c with
    | .alloc bytes address =>
      2 * sizeofSizeT + bytes < sizeRange ∧ NewBlock m address (2 * sizeofSizeT + bytes)
    | .allocAligned k size address =>
      k < 64 ∧
        ((size + (2 ^ k - 1)) / 2 ^ k + 1) * 2 ^ k + (additionalBytes - 1) < sizeRange ∧
        NewBlock m address (bytesToAllocate (2 ^ k) size)
    | _ => True

/-- The test of a step for the promise of `malloc`. -/
def mallocsTest (_ : ℕ) (c : Choice) (_ : Frame) (m : Memory) : Bool :=
  match c with
  | .alloc bytes address =>
    decide (2 * sizeofSizeT + bytes < sizeRange ∧ NewBlock m address (2 * sizeofSizeT + bytes))
  | .allocAligned k size address =>
    decide (k < 64 ∧
      ((size + (2 ^ k - 1)) / 2 ^ k + 1) * 2 ^ k + (additionalBytes - 1) < sizeRange ∧
      NewBlock m address (bytesToAllocate (2 ^ k) size))
  | _ => true

theorem mallocs_of_test (t : ℕ) (c : Choice) (f : Frame) (m : Memory) (fs : Multiset Frame)
    (h : mallocsTest t c f m = true) : Mallocs t c f m fs := by
  rintro -
  cases c with
  | alloc | allocAligned => exact of_decide_eq_true h
  | _ => trivial

/-! ## The invariant -/

/-- The words lie in front of the payload, and both in the block. -/
structure Block.Fits (b : Block) : Prop where
  room : b.allocated + b.kind.bytesOffset ≤ b.ptr
  start : b.kind = .unaligned → b.ptr = b.allocated + 2 * sizeofSizeT
  payload : b.ptr + b.size ≤ b.allocated + b.bytes

namespace Frame

/-- The block that a call is about. -/
def block : Frame → List Block
  | .client | .assertFailed => []
  | .allocCount b | .allocStore b _ | .alignedStore b _ | .alignedCount b => [b]
  | .freeCheck b | .freeMark b | .freeBytes b | .freeCount b _ => [b]
  | .freeAddress b | .freeCall b _ => [b]

/-- The bytes of the block of a call, while they are counted. -/
def counted : Frame → BitVec 64
  | .allocStore b _ | .freeCheck b | .freeMark b | .freeBytes b | .freeCount b _ => b.bytes
  | _ => 0

/-- The words of the block that are in memory. -/
def stored : Frame → List (ℕ × ℕ)
  | .allocStore b k | .alignedStore b k => b.words.take k
  | .alignedCount b | .freeCheck b => b.words
  | .freeMark b | .freeBytes b | .freeCount b _ | .freeAddress b => b.words.tail
  | _ => []

/-- What a call has read of its block is right. -/
def Reads : Frame → Prop
  | .freeCount b bytes => bytes = b.bytes
  | .freeCall b address => address = b.allocated
  | .assertFailed => False
  | _ => True

end Frame

/-- The blocks of the application and of the calls. -/
def owned (m : Memory) (fs : Multiset Frame) : Multiset Block := m.live + gather Frame.block fs

/-- Every block of `malloc` is one of the application or of one call, and has its words in
memory; the counter has the bytes of these blocks, as far as calls have counted them. -/
structure Inv (m : Memory) (fs : Multiset Frame) : Prop where
  heap : (m.heap : Multiset (ℕ × ℕ)) = (owned m fs).map Block.range
  apart : m.heap.Pairwise Apart
  fits : ∀ b ∈ owned m fs, b.Fits
  live : ∀ b ∈ m.live, ∀ w ∈ b.words, m.word w.1 = some w.2
  stored : ∀ f ∈ fs, ∀ w ∈ f.stored, m.word w.1 = some w.2
  reads : ∀ f ∈ fs, f.Reads
  counter : m.bytesAllocated =
    (m.live.map fun b => (b.bytes : BitVec 64)).sum + (fs.map Frame.counted).sum

theorem Block.words_eq (b : Block) :
    b.words = (b.ptr - sizeofSizeT, b.kind.flag) :: b.words.tail := by
  rw [Block.words]
  cases b.kind <;> rfl

theorem Block.mem_words_bytes (b : Block) :
    (b.ptr - b.kind.bytesOffset, b.bytes) ∈ b.words.tail := by
  rw [Block.words]
  cases b.kind <;> simp [Kind.bytesOffset]

theorem Apart.symm {e e' : ℕ × ℕ} (h : Apart e e') : Apart e' e := Or.symm h

/-- The address of a word that does not overlap the block. -/
def Block.Outside (b : Block) (a : ℕ) : Prop :=
  a + sizeofSizeT ≤ b.allocated ∨ b.allocated + b.bytes ≤ a

namespace Block.Fits

variable {b : Block}

theorem words (h : b.Fits) {w : ℕ × ℕ} (hw : w ∈ b.words) :
    b.allocated ≤ w.1 ∧ w.1 + sizeofSizeT ≤ b.ptr := by
  have hroom := h.room
  have hword : sizeofSizeT = 8 := rfl
  cases hk : b.kind with
  | unaligned =>
    simp only [Block.words, hk, List.mem_cons, List.not_mem_nil, or_false] at hw
    simp only [hk, Kind.bytesOffset] at hroom
    rcases hw with rfl | rfl <;> constructor <;> dsimp only <;> omega
  | aligned =>
    simp only [Block.words, hk, List.mem_cons, List.not_mem_nil, or_false] at hw
    simp only [hk, Kind.bytesOffset] at hroom
    rcases hw with rfl | rfl | rfl <;> constructor <;> dsimp only <;> omega

/-- The words are stored from the payload downwards. -/
theorem pairwise (h : b.Fits) :
    b.words.Pairwise fun w w' => w'.1 + sizeofSizeT ≤ w.1 := by
  have hroom := h.room
  have hword : sizeofSizeT = 8 := rfl
  cases hk : b.kind <;> simp only [hk, Kind.bytesOffset] at hroom <;>
    simp only [Block.words, hk, List.pairwise_cons, List.mem_cons, List.not_mem_nil, or_false,
      forall_eq_or_imp, forall_eq, IsEmpty.forall_iff, implies_true, List.Pairwise.nil, and_true]
  · omega
  · omega

/-- A word of another block does not overlap this one. -/
theorem outside {b' : Block} (h : b'.Fits) (ha : Apart b.range b'.range) {w : ℕ × ℕ}
    (hw : w ∈ b'.words) : b.Outside w.1 := by
  obtain ⟨h1, h2⟩ := h.words hw
  have hpayload := h.payload
  rcases ha with ha | ha
  · exact Or.inr (Nat.le_trans ha h1)
  · refine Or.inl (Nat.le_trans ?_ ha)
    simp only [Block.range]
    omega

end Block.Fits

namespace Memory

variable {m : Memory}

theorem word_store_self (a value : ℕ) : (m.store a value).word a = some value :=
  Function.update_self ..

theorem word_write_of_outside {lo hi a : ℕ} (h : a + sizeofSizeT ≤ lo ∨ hi ≤ a) :
    (m.write lo hi).word a = m.word a := if_pos h

theorem word_store_of_outside {a a' value : ℕ}
    (h : a' + sizeofSizeT ≤ a ∨ a + sizeofSizeT ≤ a') : (m.store a value).word a' = m.word a' := by
  have hword : sizeofSizeT = 8 := rfl
  have hne : a' ≠ a := by omega
  exact (Function.update_of_ne hne ..).trans (word_write_of_outside h)

end Memory

theorem Frame.exists_block {f : Frame} {w : ℕ × ℕ} (hw : w ∈ f.stored) :
    ∃ b ∈ f.block, w ∈ b.words := by
  cases f with
  | allocStore b k | alignedStore b k =>
    exact ⟨b, List.mem_singleton_self b, List.mem_of_mem_take hw⟩
  | alignedCount b | freeCheck b => exact ⟨b, List.mem_singleton_self b, hw⟩
  | freeMark b | freeBytes b | freeCount b n | freeAddress b =>
    exact ⟨b, List.mem_singleton_self b, List.mem_of_mem_tail hw⟩
  | _ => exact absurd hw List.not_mem_nil

theorem owned_cons (m : Memory) (f : Frame) (fs : Multiset Frame) :
    owned m (f ::ₘ fs) = f.block + owned m fs := by
  rw [owned, owned, gather_cons, add_left_comm]

namespace Inv

variable {m m' : Memory} {f f' : Frame} {others : Multiset Frame} {b : Block}
  {rest : Multiset Block}

/-- Two blocks of different owners do not overlap. -/
theorem apart_of (h : Inv m (f ::ₘ others)) (ho : owned m (f ::ₘ others) = b ::ₘ rest)
    {b' : Block} (hb : b' ∈ rest) : Apart b.range b'.range := by
  obtain ⟨l, rfl⟩ := Quot.exists_rep rest
  have hperm : m.heap.Perm ((b :: l).map Block.range) := by
    rw [← Multiset.coe_eq_coe, h.heap, ho]
    rfl
  have hpairwise := (hperm.pairwise_iff fun h => Apart.symm h).mp h.apart
  exact (List.pairwise_cons.mp hpairwise).1 _ (List.mem_map_of_mem hb)

theorem fits_of (h : Inv m (f ::ₘ others)) (hb : f.block = [b]) : b.Fits := by
  refine h.fits b ?_
  rw [owned_cons, hb]
  exact Multiset.mem_add.mpr (Or.inl (Multiset.mem_coe.mpr (List.mem_singleton_self b)))

/-- The words of other owners stay where a step writes inside one block. -/
theorem word_eq (h : Inv m (f ::ₘ others)) (ho : owned m (f ::ₘ others) = b ::ₘ rest)
    (hword : ∀ a, b.Outside a → m'.word a = m.word a) {b' : Block} (hb : b' ∈ rest)
    {w : ℕ × ℕ} (hw : w ∈ b'.words) : m'.word w.1 = m.word w.1 := by
  have hfits : b'.Fits := h.fits b' (by
    rw [ho]
    exact Multiset.mem_cons_of_mem hb)
  exact hword _ (hfits.outside (h.apart_of ho hb) hw)

theorem stored_others (h : Inv m (f ::ₘ others)) (ho : owned m (f ::ₘ others) = b ::ₘ rest)
    (hrest : gather Frame.block others ≤ rest)
    (hword : ∀ a, b.Outside a → m'.word a = m.word a) {g : Frame} (hg : g ∈ others)
    {w : ℕ × ℕ} (hw : w ∈ g.stored) : m'.word w.1 = some w.2 := by
  obtain ⟨b', hb', hwords⟩ := Frame.exists_block hw
  have hmem : b' ∈ rest := Multiset.mem_of_le hrest (mem_gather.mpr ⟨g, hg, hb'⟩)
  exact (h.word_eq ho hword hmem hwords).trans
    (h.stored g (Multiset.mem_cons_of_mem hg) w hw)

/-- A call goes on with its block. -/
theorem update (h : Inv m (f ::ₘ others)) (hb : f.block = [b]) (hb' : f'.block = [b])
    (hheap : m'.heap = m.heap) (hlive : m'.live = m.live)
    (hword : ∀ a, b.Outside a → m'.word a = m.word a)
    (hstored : ∀ w ∈ f'.stored, m'.word w.1 = some w.2) (hreads : f'.Reads)
    (hcount : m'.bytesAllocated + f.counted = m.bytesAllocated + f'.counted) :
    Inv m' (f' ::ₘ others) := by
  have ho : owned m (f ::ₘ others) = b ::ₘ owned m others := by
    rw [owned_cons, hb]
    rfl
  have ho' : owned m' (f' ::ₘ others) = owned m (f ::ₘ others) := by
    rw [owned_cons, owned_cons, hb, hb', owned, owned, hlive]
  refine ⟨?_, ?_, ?_, ?_, ?_, ?_, ?_⟩
  · rw [hheap, ho', h.heap]
  · rw [hheap]
    exact h.apart
  · rw [ho']
    exact h.fits
  · intro b' hm w hw
    rw [hlive] at hm
    have hmem : b' ∈ owned m others := Multiset.mem_add.mpr (Or.inl (Multiset.mem_coe.mpr hm))
    exact (h.word_eq ho hword hmem hw).trans (h.live b' hm w hw)
  · intro g hg w hw
    rcases Multiset.mem_cons.mp hg with rfl | hg
    · exact hstored w hw
    · exact h.stored_others ho (Multiset.le_add_left _ _) hword hg hw
  · intro g hg
    rcases Multiset.mem_cons.mp hg with rfl | hg
    · exact hreads
    · exact h.reads g (Multiset.mem_cons_of_mem hg)
  · have hcounter := h.counter
    rw [sum_map_cons] at hcounter
    rw [sum_map_cons, hlive]
    rw [hcounter] at hcount
    have hcancel : m'.bytesAllocated + f.counted =
        ((m.live.map fun b => (b.bytes : BitVec 64)).sum +
          (f'.counted + (others.map Frame.counted).sum)) + f.counted := by
      rw [hcount]
      ring
    exact add_right_cancel hcancel

/-- `malloc` hands out a block. -/
theorem acquire (h : Inv m (.client ::ₘ others)) (hb : f'.block = [b]) (hf : b.Fits)
    (hnew : ∀ e ∈ m.heap, Apart b.range e) (hstored : f'.stored = []) (hreads : f'.Reads)
    (hcount : f'.counted = 0) :
    Inv { m with heap := b.range :: m.heap } (f' ::ₘ others) := by
  have ho : owned { m with heap := b.range :: m.heap } (f' ::ₘ others) =
      b ::ₘ owned m (.client ::ₘ others) := by
    rw [owned_cons, owned_cons, hb]
    show ({b} : Multiset Block) + owned m others = b ::ₘ (0 + owned m others)
    rw [Multiset.singleton_add, zero_add]
  refine ⟨?_, List.pairwise_cons.mpr ⟨hnew, h.apart⟩, ?_, h.live, ?_, ?_, ?_⟩
  · rw [ho, Multiset.map_cons, ← h.heap]
    rfl
  · intro b' hm
    rw [ho] at hm
    rcases Multiset.mem_cons.mp hm with rfl | hm
    · exact hf
    · exact h.fits b' hm
  · intro g hg w hw
    rcases Multiset.mem_cons.mp hg with rfl | hg
    · rw [hstored] at hw
      exact absurd hw List.not_mem_nil
    · exact h.stored g (Multiset.mem_cons_of_mem hg) w hw
  · intro g hg
    rcases Multiset.mem_cons.mp hg with rfl | hg
    · exact hreads
    · exact h.reads g (Multiset.mem_cons_of_mem hg)
  · have hcounter := h.counter
    rw [sum_map_cons] at hcounter ⊢
    rw [hcount]
    exact hcounter

/-- A call returns its block to the application. -/
theorem hand (h : Inv m (f ::ₘ others)) (hb : f.block = [b]) (hheap : m'.heap = m.heap)
    (hlive : m'.live = b :: m.live) (hword : m'.word = m.word)
    (hstored : ∀ w ∈ b.words, m.word w.1 = some w.2)
    (hcount : m'.bytesAllocated + f.counted = m.bytesAllocated + b.bytes) :
    Inv m' (.client ::ₘ others) := by
  have ho : owned m' (.client ::ₘ others) = owned m (f ::ₘ others) := by
    rw [owned_cons, owned_cons, hb, owned, owned, hlive]
    show 0 + ((b ::ₘ (m.live : Multiset Block)) + _) = ({b} : Multiset Block) + (_ + _)
    rw [zero_add, Multiset.singleton_add, Multiset.cons_add]
  refine ⟨?_, ?_, ?_, ?_, ?_, ?_, ?_⟩
  · rw [hheap, ho, h.heap]
  · rw [hheap]
    exact h.apart
  · rw [ho]
    exact h.fits
  · intro b' hm w hw
    rw [hlive] at hm
    rw [hword]
    rcases List.mem_cons.mp hm with rfl | hm
    · exact hstored w hw
    · exact h.live b' hm w hw
  · intro g hg w hw
    rw [hword]
    rcases Multiset.mem_cons.mp hg with rfl | hg
    · exact absurd hw List.not_mem_nil
    · exact h.stored g (Multiset.mem_cons_of_mem hg) w hw
  · intro g hg
    rcases Multiset.mem_cons.mp hg with rfl | hg
    · trivial
    · exact h.reads g (Multiset.mem_cons_of_mem hg)
  · have hcounter := h.counter
    rw [sum_map_cons] at hcounter ⊢
    rw [hlive, List.map_cons, List.sum_cons]
    rw [hcounter] at hcount
    have hcancel : m'.bytesAllocated + f.counted =
        (b.bytes + (m.live.map fun b => (b.bytes : BitVec 64)).sum +
          (0 + (others.map Frame.counted).sum)) + f.counted := by
      rw [hcount]
      ring
    exact add_right_cancel hcancel

/-- The application gives a block back. -/
theorem take (h : Inv m (.client ::ₘ others)) {i : ℕ} (hi : m.live[i]? = some b) :
    Inv { m with live := m.live.eraseIdx i } (.freeCheck b ::ₘ others) := by
  have hperm : m.live.Perm (b :: m.live.eraseIdx i) := by
    obtain ⟨hlt, rfl⟩ := List.getElem?_eq_some_iff.mp hi
    exact (List.getElem_cons_eraseIdx_perm hlt).symm
  have hmem : b ∈ m.live := List.mem_of_getElem? hi
  have ho : owned { m with live := m.live.eraseIdx i } (.freeCheck b ::ₘ others) =
      owned m (.client ::ₘ others) := by
    rw [owned_cons, owned_cons, owned, owned, Multiset.coe_eq_coe.mpr hperm]
    show ({b} : Multiset Block) + (_ + _) = 0 + ((b ::ₘ (m.live.eraseIdx i : Multiset Block)) + _)
    rw [zero_add, Multiset.singleton_add, Multiset.cons_add]
  refine ⟨?_, h.apart, ?_, ?_, ?_, ?_, ?_⟩
  · rw [ho]
    exact h.heap
  · rw [ho]
    exact h.fits
  · exact fun b' hm => h.live b' (List.mem_of_mem_eraseIdx hm)
  · intro g hg w hw
    rcases Multiset.mem_cons.mp hg with rfl | hg
    · exact h.live b hmem w hw
    · exact h.stored g (Multiset.mem_cons_of_mem hg) w hw
  · intro g hg
    rcases Multiset.mem_cons.mp hg with rfl | hg
    · trivial
    · exact h.reads g (Multiset.mem_cons_of_mem hg)
  · have hcounter := h.counter
    rw [sum_map_cons] at hcounter ⊢
    rw [(hperm.map _).sum_eq, List.map_cons, List.sum_cons] at hcounter
    rw [hcounter]
    show _ = _ + ((b.bytes : BitVec 64) + _)
    simp only [Frame.counted]
    ring

/-- `free` gets what `malloc` has returned for the block. -/
theorem mem_heap (h : Inv m (f ::ₘ others)) (hb : f.block = [b]) : b.range ∈ m.heap := by
  rw [← Multiset.mem_coe, h.heap, owned_cons, hb]
  exact Multiset.mem_map_of_mem _
    (Multiset.mem_add.mpr (Or.inl (Multiset.mem_coe.mpr (List.mem_singleton_self b))))

/-- No two blocks of `malloc` have the same address. -/
theorem address_unique (h : Inv m (f ::ₘ others)) (a : ℕ) :
    m.heap.Pairwise fun e e' => e.1 = a → e'.1 = a → False := by
  refine h.apart.imp_of_mem fun {e e'} he he' hapart hea hea' => ?_
  have hpos : ∀ e ∈ m.heap, 0 < e.2 := by
    intro e he
    rw [← Multiset.mem_coe, h.heap] at he
    obtain ⟨b, hb, rfl⟩ := Multiset.mem_map.mp he
    have hfits := h.fits b hb
    have hroom := hfits.room
    have hpayload := hfits.payload
    have hoffset : 0 < b.kind.bytesOffset := by cases b.kind <;> decide
    show 0 < b.bytes
    omega
  have he2 := hpos e he
  have he2' := hpos e' he'
  rcases hapart with hapart | hapart <;> omega

/-- `free` takes the block back that `malloc` has handed out. -/
theorem release (h : Inv m (.freeCall b b.allocated ::ₘ others)) :
    Inv { m with heap := m.heap.eraseP fun e => e.1 = b.allocated } (.client ::ₘ others) := by
  obtain ⟨l, hl⟩ := Quot.exists_rep (owned m others)
  have hperm : m.heap.Perm (b.range :: l.map Block.range) := by
    rw [← Multiset.coe_eq_coe, h.heap, owned_cons, ← hl]
    rfl
  have herase := hperm.eraseP (fun e => decide (e.1 = b.allocated)) (by
    refine (h.address_unique b.allocated).imp fun hne he he' => ?_
    exact hne (of_decide_eq_true he) (of_decide_eq_true he'))
  have hfirst : ((b.range :: l.map Block.range).eraseP fun e => decide (e.1 = b.allocated)) =
      l.map Block.range := List.eraseP_cons_of_pos (decide_eq_true rfl)
  rw [hfirst] at herase
  have ho : owned { m with heap := m.heap.eraseP fun e => e.1 = b.allocated }
      (.client ::ₘ others) = owned m others := by
    rw [owned_cons]
    exact zero_add _
  refine ⟨?_, h.apart.sublist List.eraseP_sublist, ?_, h.live, ?_, ?_, ?_⟩
  · rw [ho, ← hl]
    exact Multiset.coe_eq_coe.mpr herase
  · rw [ho]
    intro b' hm
    refine h.fits b' ?_
    rw [owned_cons]
    exact Multiset.mem_add.mpr (Or.inr hm)
  · intro g hg w hw
    rcases Multiset.mem_cons.mp hg with rfl | hg
    · exact absurd hw List.not_mem_nil
    · exact h.stored g (Multiset.mem_cons_of_mem hg) w hw
  · intro g hg
    rcases Multiset.mem_cons.mp hg with rfl | hg
    · trivial
    · exact h.reads g (Multiset.mem_cons_of_mem hg)
  · have hcounter := h.counter
    rw [sum_map_cons] at hcounter ⊢
    exact hcounter

/-- The application writes to the payload of one of its blocks. -/
theorem write (h : Inv m (.client ::ₘ others)) {i lo hi : ℕ} (hb : m.live[i]? = some b)
    (hle : hi ≤ b.size) : Inv (m.write (b.ptr + lo) (b.ptr + hi)) (.client ::ₘ others) := by
  have hmem : b ∈ m.live := List.mem_of_getElem? hb
  have hlive : (m.live : Multiset Block) = b ::ₘ (m.live.erase b : List Block) :=
    Multiset.coe_eq_coe.mpr (List.perm_cons_erase hmem)
  have ho : owned m (.client ::ₘ others) =
      b ::ₘ ((m.live.erase b : List Block) + gather Frame.block others) := by
    rw [owned_cons, owned, hlive, Multiset.cons_add]
    exact zero_add _
  have hfits : b.Fits := h.fits b (by
    rw [ho]
    exact Multiset.mem_cons_self ..)
  have hpayload := hfits.payload
  have hroom := hfits.room
  have hword : ∀ a, b.Outside a →
      (m.write (b.ptr + lo) (b.ptr + hi)).word a = m.word a := by
    intro a ha
    refine Memory.word_write_of_outside ?_
    rcases ha with ha | ha <;> omega
  refine ⟨h.heap, h.apart, h.fits, ?_, ?_, h.reads, h.counter⟩
  · intro b' hm w hw
    rw [← Multiset.mem_coe] at hm
    change b' ∈ (m.live : Multiset Block) at hm
    rw [hlive] at hm
    rcases Multiset.mem_cons.mp hm with rfl | hm
    · -- the words of the block itself lie in front of its payload
      have hwords := hfits.words hw
      refine Eq.trans (Memory.word_write_of_outside (Or.inl ?_)) (h.live b' hmem w hw)
      omega
    · have hrest : b' ∈ (m.live.erase b : Multiset Block) + gather Frame.block others :=
        Multiset.mem_add.mpr (Or.inl hm)
      exact (h.word_eq ho hword hrest hw).trans
        (h.live b' (List.mem_of_mem_erase (Multiset.mem_coe.mp hm)) w hw)
  · intro g hg w hw
    rcases Multiset.mem_cons.mp hg with rfl | hg
    · exact absurd hw List.not_mem_nil
    · exact h.stored_others ho (Multiset.le_add_left _ _) hword hg hw

/-- A call stores the next word of its block. -/
theorem store (h : Inv m (f ::ₘ others)) (hb : f.block = [b]) (hb' : f'.block = [b]) {k : ℕ}
    (hf : f.stored = b.words.take k) (hf' : f'.stored = b.words.take (k + 1)) {a value : ℕ}
    (hk : b.words[k]? = some (a, value)) (hreads : f'.Reads) (hcount : f'.counted = f.counted) :
    Inv (m.store a value) (f' ::ₘ others) := by
  have hfits := h.fits_of hb
  obtain ⟨hlt, hget⟩ := List.getElem?_eq_some_iff.mp hk
  have hmem : (a, value) ∈ b.words := List.mem_of_getElem? hk
  have hpayload := hfits.payload
  obtain ⟨hlo, hhi⟩ := hfits.words hmem
  have hbefore : ∀ w ∈ b.words.take k, a + sizeofSizeT ≤ w.1 := by
    intro w hw
    obtain ⟨j, hj, rfl⟩ := List.mem_take_iff_getElem.mp hw
    have hpair := List.pairwise_iff_getElem.mp hfits.pairwise j k (by omega) hlt (by omega)
    rwa [hget] at hpair
  refine h.update hb hb' rfl rfl (fun x hx => Memory.word_store_of_outside ?_) ?_ hreads ?_
  · rcases hx with hx | hx
    · exact Or.inl (Nat.le_trans hx hlo)
    · refine Or.inr (Nat.le_trans ?_ hx)
      dsimp only at hhi
      omega
  · intro w hw
    rw [hf', List.take_add_one, hk] at hw
    rcases List.mem_append.mp hw with hw | hw
    · have hstored := h.stored f (Multiset.mem_cons_self ..) w (hf ▸ hw)
      exact (Memory.word_store_of_outside (Or.inr (hbefore w hw))).trans hstored
    · obtain rfl := List.mem_singleton.mp hw
      exact Memory.word_store_self ..
  · rw [hcount]
    rfl

end Inv

/-- The search for an aligned address leaves room for the words and the payload. -/
theorem allocAligned_fits {address k size : ℕ} (hk : k < 64)
    (hbytes : ((size + (2 ^ k - 1)) / 2 ^ k + 1) * 2 ^ k + (additionalBytes - 1) < sizeRange)
    (hend : address + bytesToAllocate (2 ^ k) size < sizeRange) (ha : address ≠ 0) :
    ∃ a, allocAligned (fun _ => address) additionalBytes (2 ^ k) size = some (some a) ∧
      a.allocated = address ∧ a.bytes = bytesToAllocate (2 ^ k) size ∧
      address + 3 * sizeofSizeT ≤ a.x ∧ a.x + size ≤ address + a.bytes := by
  have hpos : 0 < 2 ^ k := Nat.two_pow_pos k
  have hroom := @le_sections_mul (2 ^ k) size hpos
  have hexact := bytesToAllocate_eq hpos hbytes
  have hwords : additionalBytes = 24 := rfl
  have hword : sizeofSizeT = 8 := rfl
  rw [hexact] at hend
  rw [Nat.add_one_mul] at hbytes
  rw [allocAligned, if_neg ha, hexact]
  generalize (size + (2 ^ k - 1)) / 2 ^ k * 2 ^ k = payload at hroom hbytes hend ⊢
  have hdiv := Nat.div_add_mod (address + 2 ^ k) (2 ^ k)
  have hmod := Nat.mod_lt (address + 2 ^ k) hpos
  obtain ⟨x, hsearch, -, hge, hle⟩ := searchAligned_spec hpos (by omega)
    (show address + additionalBytes - 2 ^ k * ((address + 2 ^ k) / 2 ^ k) < additionalBytes by
      omega)
    (Nat.dvd_mul_right _ _) (by omega)
  rw [Nat.mod_eq_of_lt (show address + 2 ^ k < sizeRange by omega),
    and_alignmentMask hk (by omega), hsearch]
  refine ⟨_, rfl, rfl, rfl, hge, ?_⟩
  dsimp only
  omega

section Runs

variable {m : Memory} {f : Frame} {others : Multiset Frame}

/-- A step keeps the invariant. -/
theorem inv_exec (h : Inv m (f ::ₘ others)) (c : Choice) (hg : Mallocs 0 c f m (f ::ₘ others)) :
    Inv (exec c m f).1 ((exec c m f).2 ::ₘ others) := by
  have hword : sizeofSizeT = 8 := rfl
  cases f with
  | client =>
    cases c with
    | alloc bytes address =>
      obtain ⟨hsize, hnew⟩ := hg rfl
      have hbytes : unalignedBytesToAllocate bytes = 2 * sizeofSizeT + bytes :=
        Nat.mod_eq_of_lt hsize
      simp only [exec]
      split
      · exact h
      · rename_i ha
        obtain ⟨-, hapart⟩ := hnew ha
        refine h.acquire (b := ⟨.unaligned, address + 2 * sizeofSizeT, bytes, address,
          unalignedBytesToAllocate bytes⟩) rfl ⟨Nat.le_refl _, fun _ => rfl, ?_⟩ ?_ rfl trivial rfl
        · dsimp only
          omega
        · rw [← hbytes] at hapart
          exact hapart
    | allocAligned k size address =>
      obtain ⟨hk, hbytes, hnew⟩ := hg rfl
      rcases eq_or_ne address 0 with rfl | ha
      · simp only [exec, allocAligned, if_true]
        exact h
      · obtain ⟨hend, hapart⟩ := hnew ha
        obtain ⟨a, halloc, rfl, hsize, hge, hle⟩ := allocAligned_fits hk hbytes hend ha
        simp only [exec, halloc]
        refine h.acquire (b := ⟨.aligned, a.x, size, a.allocated, a.bytes⟩) rfl
          ⟨hge, fun hkind => (by cases hkind), hle⟩ ?_ rfl trivial rfl
        rw [← hsize] at hapart
        exact hapart
    | free i =>
      simp only [exec]
      cases hi : m.live[i]? with
      | none => exact h
      | some b => exact h.take hi
    | write i lo hi =>
      simp only [exec]
      cases hb : m.live[i]? with
      | none => exact h
      | some b =>
        simp only
        split
        · rename_i hle
          exact h.write hb hle
        · exact h
  | allocCount b =>
    refine h.update rfl rfl rfl rfl (fun _ _ => rfl) (fun w hw => ?_) trivial ?_
    · exact absurd hw List.not_mem_nil
    · exact add_zero _
  | allocStore b k =>
    simp only [exec]
    cases hk : b.words[k]? with
    | some w => exact h.store (b := b) rfl rfl rfl rfl hk trivial rfl
    | none =>
      refine h.hand (b := b) rfl rfl rfl rfl (fun w hw => ?_) rfl
      refine h.stored _ (Multiset.mem_cons_self ..) w ?_
      rwa [Frame.stored, List.take_of_length_le (List.getElem?_eq_none_iff.mp hk)]
  | alignedStore b k =>
    simp only [exec]
    cases hk : b.words[k]? with
    | some w => exact h.store (b := b) rfl rfl rfl rfl hk trivial rfl
    | none =>
      refine h.update (b := b) rfl rfl rfl rfl (fun _ _ => rfl) (fun w hw => ?_) trivial rfl
      refine h.stored _ (Multiset.mem_cons_self ..) w ?_
      rwa [Frame.stored, List.take_of_length_le (List.getElem?_eq_none_iff.mp hk)]
  | alignedCount b =>
    refine h.hand (b := b) rfl rfl rfl rfl (fun w hw => ?_) ?_
    · exact h.stored _ (Multiset.mem_cons_self ..) w hw
    · exact add_zero _
  | freeCheck b =>
    have hflag : m.load (b.ptr - sizeofSizeT) = b.kind.flag := by
      have hstored := h.stored _ (Multiset.mem_cons_self ..)
        (b.ptr - sizeofSizeT, b.kind.flag) (by
          rw [Frame.stored, b.words_eq]
          exact List.mem_cons_self)
      rw [Memory.load, hstored]
      rfl
    simp only [exec, if_pos hflag]
    refine h.update (b := b) rfl rfl rfl rfl (fun _ _ => rfl) (fun w hw => ?_) trivial rfl
    exact h.stored _ (Multiset.mem_cons_self ..) w (List.mem_of_mem_tail hw)
  | freeMark b =>
    have hfits := h.fits_of (b := b) rfl
    have hroom := hfits.room
    have hpayload := hfits.payload
    have hoffset : 2 * sizeofSizeT ≤ b.kind.bytesOffset := by cases b.kind <;> decide
    refine h.update (b := b) rfl rfl rfl rfl
      (fun a ha => Memory.word_store_of_outside ?_) (fun w hw => ?_) trivial rfl
    · rcases ha with ha | ha <;> omega
    · -- the flag lies behind the other words
      have hpairwise := hfits.pairwise
      rw [b.words_eq] at hpairwise
      have hbehind := (List.pairwise_cons.mp hpairwise).1 w hw
      refine Eq.trans (Memory.word_store_of_outside (Or.inl hbehind)) ?_
      exact h.stored _ (Multiset.mem_cons_self ..) w hw
  | freeBytes b =>
    have hbytes : m.load (b.ptr - b.kind.bytesOffset) = b.bytes := by
      have hstored := h.stored _ (Multiset.mem_cons_self ..)
        (b.ptr - b.kind.bytesOffset, b.bytes) b.mem_words_bytes
      rw [Memory.load, hstored]
      rfl
    exact h.update (b := b) rfl rfl rfl rfl (fun _ _ => rfl)
      (fun w hw => h.stored _ (Multiset.mem_cons_self ..) w hw) hbytes rfl
  | freeCount b bytes =>
    have hbytes : bytes = b.bytes := h.reads _ (Multiset.mem_cons_self ..)
    subst hbytes
    refine h.update (b := b) rfl rfl rfl rfl (fun _ _ => rfl)
      (fun w hw => h.stored _ (Multiset.mem_cons_self ..) w hw) trivial ?_
    simp only [exec, Frame.counted]
    ring
  | freeAddress b =>
    have hfits := h.fits_of (b := b) rfl
    have haddress : (exec c m (.freeAddress b)) = (m, .freeCall b b.allocated) := by
      simp only [exec]
      cases hk : b.kind with
      | unaligned =>
        have hstart := hfits.start hk
        simp only [hstart, Nat.add_sub_cancel]
      | aligned =>
        have hstored := h.stored _ (Multiset.mem_cons_self ..)
          (b.ptr - 2 * sizeofSizeT, b.allocated) (by
            simp only [Frame.stored, Block.words, hk]
            exact List.mem_cons_self)
        simp only [Memory.load, hstored, Option.getD_some]
    rw [haddress]
    exact h.update (b := b) rfl rfl rfl rfl (fun _ _ => rfl)
      (fun w hw => absurd hw List.not_mem_nil) rfl rfl
  | freeCall b address =>
    have haddress : address = b.allocated := h.reads _ (Multiset.mem_cons_self ..)
    subst haddress
    exact h.release
  | assertFailed => exact (h.reads _ (Multiset.mem_cons_self ..)).elim

theorem inv_preserved : Preserves code Mallocs Inv := by
  intro t c f m others h hg
  show Inv (exec c m f).1 (((exec c m f).2 ::ₘ 0) + others)
  rw [Multiset.cons_add, zero_add]
  exact inv_exec h c hg

/-- Threads outside the functions have no block and have counted none. -/
theorem of_clients {fs : Multiset Frame} (h : ∀ f ∈ fs, f = .client) :
    gather Frame.block fs = 0 ∧ (fs.map Frame.counted).sum = 0 := by
  refine ⟨Multiset.eq_zero_of_forall_notMem fun b hb => ?_, Multiset.sum_eq_zero fun n hn => ?_⟩
  · obtain ⟨f, hf, hb⟩ := mem_gather.mp hb
    rw [h f hf] at hb
    exact absurd hb List.not_mem_nil
  · obtain ⟨f, hf, rfl⟩ := Multiset.mem_map.mp hn
    rw [h f hf]
    rfl

theorem inv_boot (word : ℕ → Option ℕ) (threads : ℕ) :
    Inv (boot word threads).mem (boot word threads).frames := by
  have hclients : ∀ f ∈ (boot word threads).frames, f = .client := by
    intro f hf
    obtain ⟨st, hst, hf⟩ := List.mem_flatten.mp (Multiset.mem_coe.mp hf)
    rw [List.eq_of_mem_replicate hst] at hf
    exact List.mem_singleton.mp hf
  obtain ⟨hblocks, hcounted⟩ := of_clients hclients
  have howned : owned (boot word threads).mem (boot word threads).frames = 0 := by
    rw [owned, hblocks]
    rfl
  refine ⟨?_, List.Pairwise.nil, ?_, fun b hb => absurd hb List.not_mem_nil, ?_, ?_, ?_⟩
  · rw [howned]
    rfl
  · rw [howned]
    exact fun b hb => absurd hb (Multiset.notMem_zero b)
  · intro f hf w hw
    rw [hclients f hf] at hw
    exact absurd hw List.not_mem_nil
  · intro f hf
    rw [hclients f hf]
    trivial
  · rw [hcounted]
    rfl

end Runs

/-- In every run in which `malloc` keeps its promise, whatever the application writes into its
blocks: no assertion of `embb_free` or `embb_free_aligned` fails; `free` is called with an address
that `malloc` has returned and that was not freed since, for a block of the size that is taken
off the counter; the payloads of the blocks of the application lie in blocks of `malloc` that do
not overlap; and where no call is going on, `embb_bytes_allocated` is the number of bytes of all
blocks, which are those of the application. -/
theorem heap_accounted (word : ℕ → Option ℕ) (threads : ℕ) (es : List (ℕ × Choice))
    (mallocs : Always code Mallocs (boot word threads) es) :
    let S := run code (boot word threads) es
    (∀ t f, S.top t = some f → f ≠ .assertFailed ∧
      ∀ b address, f = .freeCall b address → (address, b.bytes) ∈ S.mem.heap) ∧
    (∀ t b bytes, S.top t = some (.freeCount b bytes) → (b.allocated, bytes) ∈ S.mem.heap) ∧
    S.mem.heap.Pairwise Apart ∧
    (∀ b ∈ S.mem.live, (b.allocated, b.bytes) ∈ S.mem.heap ∧ b.allocated ≤ b.ptr ∧
      b.ptr + b.size ≤ b.allocated + b.bytes) ∧
    ((∀ t f, S.top t = some f → f = .client) →
      S.mem.heap.Perm (S.mem.live.map Block.range) ∧
        S.mem.bytesAllocated = BitVec.ofNat 64 (S.mem.live.map Block.bytes).sum) := by
  intro S
  have h : Inv S.mem S.frames := inv_preserved.run mallocs (inv_boot word threads)
  have hheap : ∀ t f b, S.top t = some f → f.block = [b] → b.range ∈ S.mem.heap := by
    intro t f b ht hb
    obtain ⟨others, hothers⟩ := Multiset.exists_cons_of_mem (State.mem_frames_of_top ht)
    exact (hothers ▸ h).mem_heap hb
  refine ⟨fun t f ht => ?_, fun t b bytes ht => ?_, h.apart, fun b hb => ?_, fun hrest => ?_⟩
  · have hreads := h.reads f (State.mem_frames_of_top ht)
    refine ⟨?_, ?_⟩
    · rintro rfl
      exact hreads
    · rintro b address rfl
      obtain rfl : address = b.allocated := hreads
      exact hheap t _ b ht rfl
  · obtain rfl : bytes = b.bytes := h.reads _ (State.mem_frames_of_top ht)
    exact hheap t _ b ht rfl
  · have howned : b ∈ owned S.mem S.frames :=
      Multiset.mem_add.mpr (Or.inl (Multiset.mem_coe.mpr hb))
    have hfits := h.fits b howned
    refine ⟨?_, Nat.le_trans (Nat.le_add_right _ _) hfits.room, hfits.payload⟩
    rw [← Multiset.mem_coe, h.heap]
    exact Multiset.mem_map_of_mem _ howned
  · have hclients : ∀ f ∈ S.frames, f = .client := by
      intro f hf
      obtain ⟨t, ht⟩ := exists_top_of_mem_run
        (show ∀ t c f m, ∃ f', (code t c f m).2 = [f'] from fun _ _ _ _ => ⟨_, rfl⟩)
        (fun st hst => ⟨_, List.eq_of_mem_replicate hst⟩) es hf
      exact hrest t f ht
    obtain ⟨hblocks, hcounted⟩ := of_clients hclients
    refine ⟨?_, ?_⟩
    · have hperm := h.heap
      rw [owned, hblocks, add_zero] at hperm
      exact Multiset.coe_eq_coe.mp hperm
    · rw [h.counter, hcounted, add_zero, ← BitVec.natCast_eq_ofNat, Nat.cast_list_sum,
        List.map_map]
      rfl

/-- Thread 0 gets 5 bytes in a block at 40 and fills them, while thread 1 gets 16 bytes at a
multiple of eight and gives them back. -/
def allocTwo : List (ℕ × Choice) :=
  [(0, Choice.alloc 5 40), (1, Choice.allocAligned 3 16 100), (0, Choice.free 0),
    (1, Choice.free 0), (0, Choice.free 0), (1, Choice.free 0), (0, Choice.free 0),
    (1, Choice.free 0), (0, Choice.free 0), (1, Choice.free 0), (0, Choice.write 0 0 5),
    (1, Choice.free 0)] ++ List.replicate 7 (1, Choice.free 0)

theorem heap_accounted_two :
    (run code (boot (fun _ => none) 2) allocTwo).mem.heap = [(40, 21)] ∧
      (run code (boot (fun _ => none) 2) allocTwo).mem.bytesAllocated = 21 ∧
      ∀ b ∈ (run code (boot (fun _ => none) 2) allocTwo).mem.live,
        (b.allocated, b.bytes) ∈ (run code (boot (fun _ => none) 2) allocTwo).mem.heap := by
  have h := heap_accounted (fun _ => none) 2 allocTwo
    (Always.of_checked mallocs_of_test (by decide +kernel))
  exact ⟨by decide +kernel, by decide +kernel, fun b hb => (h.2.2.2.1 b hb).1⟩

end Embb.Base.DebugHeap
