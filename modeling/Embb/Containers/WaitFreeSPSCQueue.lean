import Mathlib.Data.List.Basic
import Mathlib.Data.Nat.ModEq
import Mathlib.Logic.Function.Basic
import Mathlib.Tactic.Common

/-!
# The wait-free queue for one producer and one consumer

Two indices of type `size_t` only ever grow and wrap at the width of the type; an
index names the cell that is its remainder by the capacity. The producer and the
consumer are two programs over the shared fields, and a run interleaves their
loads and stores in any order. The order in which the two indices of a comparison
are loaded is left to the compiler, so each call chooses it.

The fields `enqueued`, `dequeued` and the two lists of failures are a record of
the run that no step reads.
-/

namespace Embb.Containers.WaitFreeSPSCQueue

/-- The loop of `AlignCapacityToPowerOfTwo` for a `size_t` of `w` bits, where the shift
drops the bits beyond the width; `none` when the loop needs more rounds than `fuel`. -/
def alignLoop (w capacity : Nat) : Nat → Nat → Option Nat
  | 0, _ => none
  | fuel + 1, result =>
    if result < capacity then alignLoop w capacity fuel ((result <<< 1) % 2 ^ w)
    else some result

/-- `AlignCapacityToPowerOfTwo`. -/
def alignCapacityToPowerOfTwo (w capacity : Nat) : Option Nat :=
  alignLoop w capacity (w + 1) (1 % 2 ^ w)

/-- The index that a comparison loads first. -/
inductive LoadOrder
  | tailFirst
  | headFirst
  deriving DecidableEq, Repr

/-- Where the producer is inside `TryEnqueue`. -/
inductive Producer (α : Type)
  | idle
  | tailLoaded (element : α) (tail : Nat)
  /-- Along with the index, the number of elements in the queue when it was loaded. -/
  | headLoaded (element : α) (head size : Nat)
  | hasRoom (element : α)
  | cellFound (element : α) (tail : Nat)
  | cellWritten (element : α)

/-- Where the consumer is inside `TryDequeue`. -/
inductive Consumer (α : Type)
  | idle
  | headLoaded (head : Nat)
  /-- Along with the index, the number of elements in the queue when it was loaded. -/
  | tailLoaded (tail size : Nat)
  | hasElement
  | cellFound (head : Nat)
  | cellRead (x : α)

/-- The fields of the queue, both threads and the record of the run. -/
structure State (α : Type) where
  capacity : Nat
  queueArray : Nat → α
  headIndex : Nat
  tailIndex : Nat
  producer : Producer α
  consumer : Consumer α
  enqueued : List α
  dequeued : List α
  /-- For each failed `TryEnqueue`, the number of elements at its load of the head index. -/
  enqueueFailures : List Nat
  /-- For each failed `TryDequeue`, the number of elements at its load of the tail index. -/
  dequeueFailures : List Nat

variable {α : Type}

/-- The constructor; the cells hold whatever the allocator returns. -/
def create (w : Nat) (requested : Nat) (cells : Nat → α) : Option (State α) :=
  (alignCapacityToPowerOfTwo w requested).map fun capacity =>
    { capacity := capacity
      queueArray := cells
      headIndex := 0
      tailIndex := 0
      producer := .idle
      consumer := .idle
      enqueued := []
      dequeued := []
      enqueueFailures := []
      dequeueFailures := [] }

/-- Subtraction of `size_t` values. -/
def indexSub (w a b : Nat) : Nat := (a + 2 ^ w - b) % 2 ^ w

/-- The number of elements in the queue. -/
def State.size (s : State α) : Nat := s.enqueued.length - s.dequeued.length

/-- The test of `TryEnqueue` once both indices are loaded. -/
def State.checkRoom (w : Nat) (s : State α) (element : α) (tail head size : Nat) : State α :=
  if indexSub w tail head = s.capacity then
    { s with producer := .idle, enqueueFailures := s.enqueueFailures ++ [size] }
  else { s with producer := .hasRoom element }

/-- The test of `TryDequeue` once both indices are loaded. -/
def State.checkElement (w : Nat) (s : State α) (tail head size : Nat) : State α :=
  if indexSub w tail head = 0 then
    { s with consumer := .idle, dequeueFailures := s.dequeueFailures ++ [size] }
  else { s with consumer := .hasElement }

/-- The next load or store of the producer; an idle producer calls `TryEnqueue`. -/
def State.stepProducer (w : Nat) (s : State α) (order : LoadOrder) (element : α) : State α :=
  match s.producer with
  | .idle =>
    match order with
    | .tailFirst => { s with producer := .tailLoaded element s.tailIndex }
    | .headFirst => { s with producer := .headLoaded element s.headIndex s.size }
  | .tailLoaded x tail => s.checkRoom w x tail s.headIndex s.size
  | .headLoaded x head size => s.checkRoom w x s.tailIndex head size
  | .hasRoom x => { s with producer := .cellFound x s.tailIndex }
  | .cellFound x tail =>
    { s with
      producer := .cellWritten x
      queueArray := Function.update s.queueArray (tail % s.capacity) x }
  | .cellWritten x =>
    { s with
      producer := .idle
      tailIndex := (s.tailIndex + 1) % 2 ^ w
      enqueued := s.enqueued ++ [x] }

/-- The next load or store of the consumer; an idle consumer calls `TryDequeue`. -/
def State.stepConsumer (w : Nat) (s : State α) (order : LoadOrder) : State α :=
  match s.consumer with
  | .idle =>
    match order with
    | .headFirst => { s with consumer := .headLoaded s.headIndex }
    | .tailFirst => { s with consumer := .tailLoaded s.tailIndex s.size }
  | .headLoaded head => s.checkElement w s.tailIndex head s.size
  | .tailLoaded tail size => s.checkElement w tail s.headIndex size
  | .hasElement => { s with consumer := .cellFound s.headIndex }
  | .cellFound head => { s with consumer := .cellRead (s.queueArray (head % s.capacity)) }
  | .cellRead x =>
    { s with
      consumer := .idle
      headIndex := (s.headIndex + 1) % 2 ^ w
      dequeued := s.dequeued ++ [x] }

/-- Whose turn it is, with the arguments of a call that starts there. -/
inductive Event (α : Type)
  | producer (order : LoadOrder) (element : α)
  | consumer (order : LoadOrder)

def step (w : Nat) (s : State α) : Event α → State α
  | .producer order element => s.stepProducer w order element
  | .consumer order => s.stepConsumer w order

/-- Any interleaving of the two threads. -/
def run (w : Nat) (s : State α) (events : List (Event α)) : State α :=
  events.foldl (step w) s

/-! ## The capacity -/

/-- The loop doubles a power of two until it reaches the request. -/
theorem alignLoop_eq {w capacity : Nat} (hw : 0 < w) (hc : capacity ≤ 2 ^ (w - 1))
    (fuel k : Nat) (hk : k < w) (hf : w ≤ fuel + k) :
    ∃ j, j < w ∧ alignLoop w capacity (fuel + 1) (2 ^ k) = some (2 ^ j) ∧
      capacity ≤ 2 ^ j := by
  induction fuel generalizing k with
  | zero => omega
  | succ fuel ih =>
    rw [alignLoop]
    split
    · rename_i hlt
      have hk1 : k + 1 < w := by
        by_contra hge
        have he : k = w - 1 := by omega
        rw [he] at hlt
        omega
      have hshift : (2 ^ k <<< 1) % 2 ^ w = 2 ^ (k + 1) := by
        rw [Nat.shiftLeft_eq, pow_one, ← pow_succ]
        exact Nat.mod_eq_of_lt (Nat.pow_lt_pow_right (by decide) hk1)
      rw [hshift]
      exact ih (k + 1) hk1 (by omega)
    · rename_i hge
      exact ⟨k, hk, rfl, Nat.le_of_not_lt hge⟩

/-- Up to half of the range of `size_t` the capacity is a power of two below the width. -/
theorem alignCapacityToPowerOfTwo_eq {w capacity : Nat} (hw : 0 < w)
    (hc : capacity ≤ 2 ^ (w - 1)) :
    ∃ j, j < w ∧ alignCapacityToPowerOfTwo w capacity = some (2 ^ j) ∧ capacity ≤ 2 ^ j := by
  have hone : 1 % 2 ^ w = 2 ^ 0 := Nat.mod_eq_of_lt (Nat.one_lt_two_pow (by omega))
  rw [alignCapacityToPowerOfTwo, hone]
  exact alignLoop_eq hw hc w 0 hw (by omega)

/-! ## Wrapping indices -/

/-- The modular difference of two indices is their distance while that is in range. -/
theorem indexSub_mod {w a b : Nat} (hba : b ≤ a) (hab : a < b + 2 ^ w) :
    indexSub w (a % 2 ^ w) (b % 2 ^ w) = a - b := by
  have hpos : 0 < 2 ^ w := Nat.two_pow_pos w
  have hb : b % 2 ^ w < 2 ^ w := Nat.mod_lt _ hpos
  obtain ⟨d, rfl⟩ : ∃ d, a = b + d := ⟨a - b, by omega⟩
  have hd : d < 2 ^ w := by omega
  have hcong : (b + d) % 2 ^ w + 2 ^ w - b % 2 ^ w ≡ d [MOD 2 ^ w] := by
    refine Nat.ModEq.add_right_cancel' (b % 2 ^ w) ?_
    rw [Nat.sub_add_cancel (by omega)]
    calc (b + d) % 2 ^ w + 2 ^ w
        ≡ (b + d) % 2 ^ w [MOD 2 ^ w] := Nat.add_modEq_right
      _ ≡ b + d [MOD 2 ^ w] := Nat.mod_modEq _ _
      _ ≡ d + b [MOD 2 ^ w] := by rw [Nat.add_comm]
      _ ≡ d + b % 2 ^ w [MOD 2 ^ w] := Nat.ModEq.add_left d (Nat.mod_modEq _ _).symm
  rw [indexSub, hcong, Nat.mod_eq_of_lt hd, Nat.add_sub_cancel_left]

/-- Advancing a wrapped index wraps the advanced one. -/
theorem succ_mod_wrap (w n : Nat) : (n % 2 ^ w + 1) % 2 ^ w = (n + 1) % 2 ^ w :=
  Nat.mod_add_mod n (2 ^ w) 1

/-- The cell of the element that was enqueued in position `i`. -/
def cellOf (w capacity i : Nat) : Nat := i % 2 ^ w % capacity

/-- Wrapping does not move a cell, because the capacity divides the range of an index. -/
theorem cellOf_eq {w j : Nat} (hj : j < w) (i : Nat) : cellOf w (2 ^ j) i = i % 2 ^ j :=
  Nat.mod_mod_of_dvd i (Nat.pow_dvd_pow 2 hj.le)

/-- Positions less than the capacity apart have different cells. -/
theorem cellOf_ne {w j a b : Nat} (hj : j < w) (hab : a < b) (hb : b < a + 2 ^ j) :
    cellOf w (2 ^ j) a ≠ cellOf w (2 ^ j) b := by
  rw [cellOf_eq hj, cellOf_eq hj]
  intro h
  have hdvd : 2 ^ j ∣ b - a := (Nat.modEq_iff_dvd' hab.le).mp h
  have hle := Nat.le_of_dvd (by omega) hdvd
  omega

/-! ## The invariant -/

/-- What the producer knows at each of its points. -/
def ProducerKnows (w : Nat) (s : State α) : Producer α → Prop
  | .idle => True
  | .tailLoaded _ tail => tail = s.tailIndex
  | .headLoaded _ head size =>
    ∃ taken, head = taken % 2 ^ w ∧ taken ≤ s.dequeued.length ∧
      s.enqueued.length ≤ taken + s.capacity ∧ size = s.enqueued.length - taken
  | .hasRoom _ => s.size < s.capacity
  | .cellFound _ tail => tail = s.tailIndex ∧ s.size < s.capacity
  | .cellWritten x =>
    s.size < s.capacity ∧ s.queueArray (cellOf w s.capacity s.enqueued.length) = x

/-- What the consumer knows at each of its points. -/
def ConsumerKnows (w : Nat) (s : State α) : Consumer α → Prop
  | .idle => True
  | .headLoaded head => head = s.headIndex
  | .tailLoaded tail size =>
    ∃ put, tail = put % 2 ^ w ∧ s.dequeued.length ≤ put ∧ put ≤ s.enqueued.length ∧
      size = put - s.dequeued.length
  | .hasElement => 0 < s.size
  | .cellFound head => head = s.headIndex ∧ 0 < s.size
  | .cellRead x => s.enqueued[s.dequeued.length]? = some x

/-- The queue is the part of the record between the two indices, and its elements lie in
the cells of their positions. -/
structure Inv (w : Nat) (s : State α) : Prop where
  capacity_eq : ∃ j < w, s.capacity = 2 ^ j
  tailIndex_eq : s.tailIndex = s.enqueued.length % 2 ^ w
  headIndex_eq : s.headIndex = s.dequeued.length % 2 ^ w
  dequeued_eq : s.dequeued = s.enqueued.take s.dequeued.length
  size_le : s.size ≤ s.capacity
  cells : ∀ i x, s.dequeued.length ≤ i → s.enqueued[i]? = some x →
    s.queueArray (cellOf w s.capacity i) = x
  producer_knows : ProducerKnows w s s.producer
  consumer_knows : ConsumerKnows w s s.consumer
  full : ∀ size ∈ s.enqueueFailures, size = s.capacity
  empty : ∀ size ∈ s.dequeueFailures, size = 0

namespace Inv

variable {w : Nat} {s : State α}

theorem length_le (h : Inv w s) : s.dequeued.length ≤ s.enqueued.length := by
  have he := congrArg List.length h.dequeued_eq
  rw [List.length_take] at he
  omega

theorem length_le_add (h : Inv w s) :
    s.enqueued.length ≤ s.dequeued.length + s.capacity := by
  have hs := h.size_le
  rw [State.size] at hs
  omega

theorem capacity_lt (h : Inv w s) : s.capacity < 2 ^ w := by
  obtain ⟨j, hj, hc⟩ := h.capacity_eq
  rw [hc]
  exact Nat.pow_lt_pow_right (by decide) hj

/-- The producer's test compares the true distance with the capacity. -/
theorem indexSub_taken (h : Inv w s) {taken : Nat} (ht : taken ≤ s.dequeued.length)
    (hc : s.enqueued.length ≤ taken + s.capacity) :
    indexSub w s.tailIndex (taken % 2 ^ w) = s.enqueued.length - taken := by
  have hle := h.length_le
  have hlt := h.capacity_lt
  rw [h.tailIndex_eq]
  exact indexSub_mod (by omega) (by omega)

/-- The consumer's test compares the true distance with zero. -/
theorem indexSub_put (h : Inv w s) {put : Nat} (hd : s.dequeued.length ≤ put)
    (hp : put ≤ s.enqueued.length) :
    indexSub w (put % 2 ^ w) s.headIndex = put - s.dequeued.length := by
  have hle := h.length_le_add
  have hlt := h.capacity_lt
  rw [h.headIndex_eq]
  exact indexSub_mod hd (by omega)

/-- The cell that the producer writes next holds no element of the queue. -/
theorem cellOf_next_ne (h : Inv w s) (hs : s.size < s.capacity) {i : Nat}
    (hi : s.dequeued.length ≤ i) (hlt : i < s.enqueued.length) :
    cellOf w s.capacity i ≠ cellOf w s.capacity s.enqueued.length := by
  obtain ⟨j, hj, hc⟩ := h.capacity_eq
  rw [State.size, hc] at hs
  rw [hc]
  exact cellOf_ne hj hlt (by omega)

theorem tailIndex_mod (h : Inv w s) :
    s.tailIndex % s.capacity = cellOf w s.capacity s.enqueued.length := by
  rw [h.tailIndex_eq]
  rfl

theorem checkRoom (h : Inv w s) (element : α) {taken : Nat}
    (ht : taken ≤ s.dequeued.length) (hc : s.enqueued.length ≤ taken + s.capacity) :
    Inv w (s.checkRoom w element s.tailIndex (taken % 2 ^ w) (s.enqueued.length - taken)) := by
  rw [State.checkRoom, h.indexSub_taken ht hc]
  split
  · rename_i hfull
    refine { h with producer_knows := trivial, consumer_knows := h.consumer_knows, full := ?_ }
    intro size hm
    rcases List.mem_append.mp hm with hm | hm
    · exact h.full size hm
    · exact (List.mem_singleton.mp hm).trans hfull
  · rename_i hroom
    refine { h with producer_knows := ?_, consumer_knows := h.consumer_knows }
    -- Elements taken since the load of the head index only make more room.
    have hle := h.length_le
    show s.enqueued.length - s.dequeued.length < s.capacity
    omega

theorem checkElement (h : Inv w s) {put : Nat} (hd : s.dequeued.length ≤ put)
    (hp : put ≤ s.enqueued.length) :
    Inv w (s.checkElement w (put % 2 ^ w) s.headIndex (put - s.dequeued.length)) := by
  rw [State.checkElement, h.indexSub_put hd hp]
  split
  · rename_i hempty
    refine { h with producer_knows := h.producer_knows, consumer_knows := trivial, empty := ?_ }
    intro size hm
    rcases List.mem_append.mp hm with hm | hm
    · exact h.empty size hm
    · exact (List.mem_singleton.mp hm).trans hempty
  · rename_i hsome
    refine { h with producer_knows := h.producer_knows, consumer_knows := ?_ }
    -- Elements put since the load of the tail index only add to the queue.
    show 0 < s.enqueued.length - s.dequeued.length
    omega

/-- Writing the free cell leaves the cells of the queue alone. -/
theorem write (h : Inv w s) (hs : s.size < s.capacity) (x : α) :
    Inv w { s with
      producer := .cellWritten x
      queueArray := Function.update s.queueArray (s.tailIndex % s.capacity) x } := by
  rw [h.tailIndex_mod]
  refine { h with
    cells := fun i y hi hy => ?_
    producer_knows := ⟨hs, Function.update_self ..⟩
    consumer_knows := h.consumer_knows }
  obtain ⟨hlt, -⟩ := List.getElem?_eq_some_iff.mp hy
  exact (Function.update_of_ne (h.cellOf_next_ne hs hi hlt) _ _).trans (h.cells i y hi hy)

/-- What the consumer knows stays true when the producer appends an element. -/
theorem consumerKnows_append (h : Inv w s) (x : α) (c : Consumer α)
    (hk : ConsumerKnows w s c) :
    ConsumerKnows w { s with
      producer := .idle
      tailIndex := (s.tailIndex + 1) % 2 ^ w
      enqueued := s.enqueued ++ [x] } c := by
  have hle := h.length_le
  cases c with
  | idle => trivial
  | headLoaded head => exact hk
  | tailLoaded tail size =>
    obtain ⟨put, ht, hd, hp, hsize⟩ := hk
    refine ⟨put, ht, hd, ?_, hsize⟩
    rw [List.length_append]
    omega
  | hasElement =>
    simp only [ConsumerKnows, State.size, List.length_append] at hk ⊢
    omega
  | cellFound head =>
    simp only [ConsumerKnows, State.size, List.length_append] at hk ⊢
    omega
  | cellRead y =>
    obtain ⟨hlt, -⟩ := List.getElem?_eq_some_iff.mp hk
    exact (List.getElem?_append_left hlt).trans hk

/-- Advancing the tail index makes the written cell part of the queue. -/
theorem append (h : Inv w s) {x : α} (hs : s.size < s.capacity)
    (hx : s.queueArray (cellOf w s.capacity s.enqueued.length) = x) :
    Inv w { s with
      producer := .idle
      tailIndex := (s.tailIndex + 1) % 2 ^ w
      enqueued := s.enqueued ++ [x] } := by
  have hle := h.length_le
  refine { h with
    tailIndex_eq := ?_
    dequeued_eq := ?_
    size_le := ?_
    cells := ?_
    producer_knows := trivial
    consumer_knows := h.consumerKnows_append x s.consumer h.consumer_knows }
  · rw [h.tailIndex_eq, succ_mod_wrap, List.length_append, List.length_singleton]
  · rw [List.take_append_of_le_length hle]
    exact h.dequeued_eq
  · simp only [State.size, List.length_append, List.length_singleton] at hs ⊢
    omega
  · intro i y hi hy
    rcases Nat.lt_or_ge i s.enqueued.length with hlt | hge
    · rw [List.getElem?_append_left hlt] at hy
      exact h.cells i y hi hy
    · rw [List.getElem?_append_right hge] at hy
      obtain ⟨h0, hy⟩ := List.getElem?_eq_some_iff.mp hy
      rw [List.length_singleton] at h0
      have hi : i = s.enqueued.length := by omega
      rw [List.getElem_singleton] at hy
      rw [hi, ← hy]
      exact hx

/-- What the producer knows stays true when the consumer removes an element. -/
theorem producerKnows_remove (x : α) (hlt : s.dequeued.length < s.enqueued.length)
    (p : Producer α) (hk : ProducerKnows w s p) :
    ProducerKnows w { s with
      consumer := .idle
      headIndex := (s.headIndex + 1) % 2 ^ w
      dequeued := s.dequeued ++ [x] } p := by
  cases p with
  | idle => trivial
  | tailLoaded y tail => exact hk
  | headLoaded y head size =>
    obtain ⟨taken, ht, hd, hp, hsize⟩ := hk
    refine ⟨taken, ht, ?_, hp, hsize⟩
    rw [List.length_append]
    omega
  | hasRoom y =>
    simp only [ProducerKnows, State.size, List.length_append] at hk ⊢
    omega
  | cellFound y tail =>
    simp only [ProducerKnows, State.size, List.length_append] at hk ⊢
    omega
  | cellWritten y =>
    simp only [ProducerKnows, State.size, List.length_append] at hk ⊢
    exact ⟨by omega, hk.2⟩

/-- Advancing the head index hands the first element out. -/
theorem remove (h : Inv w s) {x : α} (hx : s.enqueued[s.dequeued.length]? = some x) :
    Inv w { s with
      consumer := .idle
      headIndex := (s.headIndex + 1) % 2 ^ w
      dequeued := s.dequeued ++ [x] } := by
  obtain ⟨hlt, hget⟩ := List.getElem?_eq_some_iff.mp hx
  refine { h with
    headIndex_eq := ?_
    dequeued_eq := ?_
    size_le := ?_
    cells := ?_
    producer_knows := producerKnows_remove x hlt s.producer h.producer_knows
    consumer_knows := trivial }
  · rw [h.headIndex_eq, succ_mod_wrap, List.length_append, List.length_singleton]
  · rw [List.length_append, List.length_singleton, List.take_add_one, hx, Option.toList_some,
      ← h.dequeued_eq]
  · have hle := h.size_le
    simp only [State.size, List.length_append] at hle ⊢
    omega
  · intro i y hi hy
    rw [List.length_append] at hi
    exact h.cells i y (by omega) hy

theorem stepProducer (h : Inv w s) (order : LoadOrder) (element : α) :
    Inv w (s.stepProducer w order element) := by
  have hk := h.producer_knows
  have hle := h.length_le
  have hadd := h.length_le_add
  unfold State.stepProducer
  cases hp : s.producer with
  | idle =>
    cases order with
    | tailFirst => exact { h with producer_knows := rfl, consumer_knows := h.consumer_knows }
    | headFirst =>
      exact { h with
        producer_knows := ⟨s.dequeued.length, h.headIndex_eq, le_rfl, hadd, rfl⟩
        consumer_knows := h.consumer_knows }
  | tailLoaded x tail =>
    rw [hp] at hk
    subst hk
    show Inv w (s.checkRoom w x s.tailIndex s.headIndex s.size)
    rw [h.headIndex_eq]
    exact h.checkRoom x le_rfl hadd
  | headLoaded x head size =>
    rw [hp] at hk
    obtain ⟨taken, rfl, ht, hc, rfl⟩ := hk
    exact h.checkRoom x ht hc
  | hasRoom x =>
    rw [hp] at hk
    exact { h with producer_knows := ⟨rfl, hk⟩, consumer_knows := h.consumer_knows }
  | cellFound x tail =>
    rw [hp] at hk
    obtain ⟨rfl, hs⟩ := hk
    exact h.write hs x
  | cellWritten x =>
    rw [hp] at hk
    exact h.append hk.1 hk.2

theorem stepConsumer (h : Inv w s) (order : LoadOrder) : Inv w (s.stepConsumer w order) := by
  have hk := h.consumer_knows
  have hle := h.length_le
  unfold State.stepConsumer
  cases hc : s.consumer with
  | idle =>
    cases order with
    | headFirst => exact { h with producer_knows := h.producer_knows, consumer_knows := rfl }
    | tailFirst =>
      exact { h with
        producer_knows := h.producer_knows
        consumer_knows := ⟨s.enqueued.length, h.tailIndex_eq, hle, le_rfl, rfl⟩ }
  | headLoaded head =>
    rw [hc] at hk
    subst hk
    show Inv w (s.checkElement w s.tailIndex s.headIndex s.size)
    rw [h.tailIndex_eq]
    exact h.checkElement hle le_rfl
  | tailLoaded tail size =>
    rw [hc] at hk
    obtain ⟨put, rfl, hd, hp, rfl⟩ := hk
    exact h.checkElement hd hp
  | hasElement =>
    rw [hc] at hk
    exact { h with producer_knows := h.producer_knows, consumer_knows := ⟨rfl, hk⟩ }
  | cellFound head =>
    rw [hc] at hk
    obtain ⟨rfl, hs⟩ := hk
    refine { h with producer_knows := h.producer_knows, consumer_knows := ?_ }
    rw [State.size] at hs
    have hlt : s.dequeued.length < s.enqueued.length := by omega
    have hcell := h.cells s.dequeued.length _ le_rfl (List.getElem?_eq_getElem hlt)
    have hidx : s.headIndex % s.capacity = cellOf w s.capacity s.dequeued.length := by
      rw [h.headIndex_eq]
      rfl
    show s.enqueued[s.dequeued.length]? = some (s.queueArray (s.headIndex % s.capacity))
    rw [hidx, hcell]
    exact List.getElem?_eq_getElem hlt
  | cellRead x =>
    rw [hc] at hk
    exact h.remove hk

theorem step (h : Inv w s) (e : Event α) : Inv w (step w s e) := by
  cases e with
  | producer order element => exact h.stepProducer order element
  | consumer order => exact h.stepConsumer order

theorem run (h : Inv w s) (events : List (Event α)) : Inv w (run w s events) := by
  induction events generalizing s with
  | nil => exact h
  | cons e events ih => exact ih (h.step e)

end Inv

/-- A new queue of a capacity in range satisfies the invariant. -/
theorem inv_create {w requested : Nat} (hw : 0 < w) (hr : requested ≤ 2 ^ (w - 1))
    (cells : Nat → α) :
    ∃ s, create w requested cells = some s ∧ requested ≤ s.capacity ∧ Inv w s := by
  obtain ⟨j, hj, halign, hle⟩ := alignCapacityToPowerOfTwo_eq hw hr
  refine ⟨_, by rw [create, halign]; rfl, hle, ?_⟩
  exact
    { capacity_eq := ⟨j, hj, rfl⟩
      tailIndex_eq := (Nat.zero_mod _).symm
      headIndex_eq := (Nat.zero_mod _).symm
      dequeued_eq := rfl
      size_le := Nat.zero_le _
      cells := fun i x _ hx => by cases hx
      producer_knows := trivial
      consumer_knows := trivial
      full := fun _ hm => absurd hm List.not_mem_nil
      empty := fun _ hm => absurd hm List.not_mem_nil }

/-- The cells that hold an element which was put and not yet taken. -/
def State.Unread (w : Nat) (s : State α) (cell : Nat) : Prop :=
  ∃ i, s.dequeued.length ≤ i ∧ i < s.enqueued.length ∧ cell = cellOf w s.capacity i

/-- The queue is a bounded first-in first-out queue in every interleaving of one producer
and one consumer, whatever the number of operations. -/
theorem bounded_fifo {w requested : Nat} (hw : 0 < w)
    (hr : requested ≤ 2 ^ (w - 1)) (cells : Nat → α) :
    ∃ s, create w requested cells = some s ∧ requested ≤ s.capacity ∧
      ∀ events : List (Event α),
        (run w s events).dequeued <+: (run w s events).enqueued ∧
        (run w s events).size ≤ (run w s events).capacity ∧
        (∀ x tail, (run w s events).producer = .cellFound x tail →
          ¬ (run w s events).Unread w (tail % (run w s events).capacity)) ∧
        (∀ size ∈ (run w s events).enqueueFailures, size = (run w s events).capacity) ∧
        (∀ size ∈ (run w s events).dequeueFailures, size = 0) := by
  obtain ⟨s, hs, hle, hinv⟩ := inv_create hw hr cells
  refine ⟨s, hs, hle, fun events => ?_⟩
  have h := hinv.run events
  refine ⟨?_, h.size_le, ?_, h.full, h.empty⟩
  · rw [h.dequeued_eq]
    exact List.take_prefix _ _
  · rintro x tail hp ⟨i, hi, hlt, hcell⟩
    have hk := h.producer_knows
    rw [hp] at hk
    obtain ⟨rfl, hsize⟩ := hk
    rw [h.tailIndex_mod] at hcell
    exact h.cellOf_next_ne hsize hi hlt hcell.symm

/-- The smallest queue over indices of two bits, where the indices wrap after four. -/
theorem bounded_fifo_two_bits :
    ∃ s, create 2 2 (fun _ => 0) = some s ∧ 2 ≤ s.capacity ∧
      ∀ events : List (Event Nat),
        (run 2 s events).dequeued <+: (run 2 s events).enqueued ∧
        (run 2 s events).size ≤ (run 2 s events).capacity ∧
        (∀ x tail, (run 2 s events).producer = .cellFound x tail →
          ¬ (run 2 s events).Unread 2 (tail % (run 2 s events).capacity)) ∧
        (∀ size ∈ (run 2 s events).enqueueFailures, size = (run 2 s events).capacity) ∧
        (∀ size ∈ (run 2 s events).dequeueFailures, size = 0) :=
  bounded_fifo (by decide) (by decide) fun _ => 0

end Embb.Containers.WaitFreeSPSCQueue
