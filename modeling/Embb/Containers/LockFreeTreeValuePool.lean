import Mathlib.Data.Multiset.AddSub
import Mathlib.Data.Multiset.Count
import Mathlib.Data.Multiset.Range
import Mathlib.Data.Multiset.Filter
import Embb.Lib.HeapTree
import Embb.Lib.Holdings
import Embb.Lib.Threads

/-!
# The lock-free tree value pool

The cells of the pool are the leaves of a binary tree whose inner nodes count the
available cells below. `Allocate` walks down from the root, decrementing the nodes on
its way, and takes a cell; `Free` puts the element back and increments the nodes on its
way up. The threads interleave at every load, store, compare-and-swap and fetch-and-add.

A call of `allocate_rec` that has decremented a node holds a token there, and a call of
`Free` climbs from the nodes that it has incremented: the tree of counters is an instance
of the trees of units, tokens and climbers.
-/

namespace Embb.Containers.LockFreeTreeValuePool

open HeapTree Threads

/-- The range that a pool is constructed from; it is not empty, and no element in it is the
value that marks an allocated cell. -/
structure Source (α : Type) where
  undefined : α
  elements : List α
  elements_ne : elements ≠ []
  defined : ∀ x ∈ elements, x ≠ undefined

variable {α : Type}

/-- The loop of `GetSmallestPowerByTwoValue`. -/
def powerLoop (value : ℕ) : ℕ → ℕ → ℕ
  | 0, result => result
  | fuel + 1, result =>
    if result < value then powerLoop value fuel (result <<< 1) else result

/-- `GetSmallestPowerByTwoValue`; a positive value needs fewer rounds than its size. -/
def getSmallestPowerByTwoValue (value : ℕ) : ℕ := powerLoop value value 1

namespace Source

variable (s : Source α)

def realSize : ℕ := s.elements.length

/-- The number of leaves of the tree. -/
def size : ℕ := getSmallestPowerByTwoValue s.realSize

/-- The number of nodes above the leaves. -/
def treeSize : ℕ := s.size - 1

def isLeaf (node : ℕ) : Prop := s.size - 1 ≤ node ∧ node ≤ 2 * s.size - 1

instance (node : ℕ) : Decidable (s.isLeaf node) := inferInstanceAs (Decidable (_ ∧ _))

def nodeIndexToPoolIndex (node : ℕ) : ℕ := node - (s.size - 1)

def poolIndexToNodeIndex (index : ℕ) : ℕ := index + (s.size - 1)

end Source

def getLeftChildIndex (node : ℕ) : ℕ := 2 * node + 1

def getRightChildIndex (node : ℕ) : ℕ := 2 * node + 2

def getParentNode (node : ℕ) : ℕ := (node - 1) / 2

/-- `Fill`, whose recursion ends before the fuel does for a tree of at most `fuel` levels. -/
def fill (s : Source α) : (fuel node elementsToStore power2Value : ℕ) → (ℕ → ℤ) → ℕ → ℤ
  | 0, _, _, _, tree => tree
  | fuel + 1, node, elementsToStore, power2Value, tree =>
    if s.isLeaf node then tree
    else
      let tree := Function.update tree node elementsToStore
      let postPower2Value := power2Value / 2
      if elementsToStore ≤ postPower2Value then
        fill s fuel (getLeftChildIndex node) elementsToStore postPower2Value tree
      else
        fill s fuel (getRightChildIndex node) (elementsToStore - postPower2Value)
          postPower2Value
          (fill s fuel (getLeftChildIndex node) postPower2Value postPower2Value tree)

/-- The shared fields, and the pairs that `Allocate` has handed out and that were not passed
to `Free` since. -/
structure Pool (α : Type) where
  pool : ℕ → α
  tree : ℕ → ℤ
  held : List (α × ℕ)

/-- The constructor; the memory of cells that it does not write is arbitrary. -/
def create (s : Source α) (cells : ℕ → α) (counters : ℕ → ℤ) : Pool α where
  pool i := s.elements[i]?.getD (cells i)
  tree := fill s s.size 0 s.realSize s.size counters
  held := []

/-- Where a thread is. The recursion of `allocate_rec` needs no stack: the calls that are
still open are those of the ancestors of the node, and a success returns through all of
them at once. -/
inductive Frame (α : Type)
  /-- Outside the pool. -/
  | caller
  /-- About to make the first load of `allocate_rec`. -/
  | enter (node : ℕ)
  /-- About to swap the cell of a leaf. -/
  | leafRead (node : ℕ) (expected : α)
  /-- About to decrement an inner node. -/
  | nodeRead (node : ℕ) (current : ℤ)
  | allocated (element : α) (index : ℕ)
  /-- `Allocate` is about to return -1. -/
  | failed
  /-- The assertion of `allocate_rec` at this node has failed. -/
  | assertFailed (node : ℕ)
  /-- About to store the element in `Free`. -/
  | store (element : α) (index : ℕ)
  /-- At the loop of `Free`. -/
  | climb (node : ℕ)

/-- What a thread outside the pool does next. -/
inductive Choice
  | allocate
  /-- Free one of the pairs that are held. -/
  | free (pair : ℕ)
  deriving DecidableEq, Repr

/-- `allocate_rec` returns -1 for a node: the caller goes on with the right child, or fails. -/
def failAt (node : ℕ) : Frame α :=
  if node = 0 then .failed
  else if node % 2 = 1 then .enter (getRightChildIndex (getParentNode node))
  else .assertFailed (getParentNode node)

variable [DecidableEq α]

/-- One atomic step of a thread. -/
def exec (s : Source α) (c : Choice) (f : Frame α) (m : Pool α) : Pool α × Frame α :=
  match f with
  | .caller =>
    match c with
    | .allocate => (m, .enter 0)
    | .free pair =>
      match m.held[pair]? with
      | some (element, index) => ({ m with held := m.held.eraseIdx pair }, .store element index)
      | none => (m, .caller)
  | .enter node =>
    if s.isLeaf node then
      let expected := m.pool (s.nodeIndexToPoolIndex node)
      if expected = s.undefined then (m, failAt node) else (m, .leafRead node expected)
    else
      let current := m.tree node
      if current - 1 < 0 then (m, failAt node) else (m, .nodeRead node current)
  | .leafRead node expected =>
    if m.pool (s.nodeIndexToPoolIndex node) = expected then
      ({ m with pool := Function.update m.pool (s.nodeIndexToPoolIndex node) s.undefined },
        .allocated expected (s.nodeIndexToPoolIndex node))
    else (m, failAt node)
  | .nodeRead node current =>
    if m.tree node = current then
      ({ m with tree := Function.update m.tree node (current - 1) },
        .enter (getLeftChildIndex node))
    else (m, .enter node)
  | .allocated element index => ({ m with held := (element, index) :: m.held }, .caller)
  | .failed => (m, .caller)
  | .assertFailed node => (m, .assertFailed node)
  | .store element index =>
    ({ m with pool := Function.update m.pool index element },
      .climb (s.poolIndexToNodeIndex index))
  | .climb node =>
    if node = 0 then (m, .caller)
    else
      ({ m with
        tree := Function.update m.tree (getParentNode node) (m.tree (getParentNode node) + 1) },
        .climb (getParentNode node))

/-- The program of every thread. -/
def code (s : Source α) : Code (Pool α) (Frame α) Choice := fun _ c f m =>
  ((exec s c f m).1, [(exec s c f m).2])

/-- A new pool and its threads. -/
def boot (s : Source α) (cells : ℕ → α) (counters : ℕ → ℤ) (threads : ℕ) :
    State (Pool α) (Frame α) where
  mem := create s cells counters
  callStacks := List.replicate threads [.caller]

/-! ## The shape of the tree -/

theorem powerLoop_eq (value fuel j : ℕ) (h : value ≤ 2 ^ (j + fuel)) :
    ∃ k, powerLoop value fuel (2 ^ j) = 2 ^ k ∧ value ≤ 2 ^ k := by
  induction fuel generalizing j with
  | zero => exact ⟨j, rfl, h⟩
  | succ fuel ih =>
    rw [powerLoop]
    split
    · rw [Nat.shiftLeft_eq, pow_one, ← pow_succ]
      refine ih (j + 1) ?_
      rwa [show j + 1 + fuel = j + (fuel + 1) by omega]
    · exact ⟨j, rfl, by omega⟩

namespace Source

omit [DecidableEq α]

variable (s : Source α)

theorem realSize_pos : 0 < s.realSize := List.length_pos_of_ne_nil s.elements_ne

/-- The number of leaves is a power of two and leaves room for all elements. -/
theorem size_eq : ∃ k, s.size = 2 ^ k ∧ s.realSize ≤ 2 ^ k :=
  powerLoop_eq s.realSize s.realSize 0 (by
    rw [Nat.zero_add]
    exact Nat.lt_two_pow_self.le)

theorem size_pos : 0 < s.size := by
  obtain ⟨k, hk, -⟩ := s.size_eq
  rw [hk]
  exact Nat.two_pow_pos k

theorem realSize_le : s.realSize ≤ s.size := by
  obtain ⟨k, hk, hle⟩ := s.size_eq
  rw [hk]
  exact hle

/-- The number of elements of the source below a node. -/
def weight (v : ℕ) : ℕ :=
  if v < s.size - 1 then weight (2 * v + 1) + weight (2 * v + 2)
  else if v - (s.size - 1) < s.realSize then 1 else 0
termination_by 2 * s.size - v

/-- The node `v` is the root of a subtree of `2 ^ height` leaves, the first of which has the
index `b`. -/
def Spot (height v b : ℕ) : Prop :=
  (v + 1) * 2 ^ height = s.size + b ∧ b + 2 ^ height ≤ s.size

variable {s} {height v b : ℕ}

theorem Spot.inner (h : s.Spot (height + 1) v b) : v < s.size - 1 := by
  obtain ⟨h₁, h₂⟩ := h
  have hpos := Nat.two_pow_pos height
  rw [pow_succ] at h₁ h₂
  by_contra hge
  have hmul : s.size * (2 ^ height * 2) ≤ (v + 1) * (2 ^ height * 2) :=
    Nat.mul_le_mul_right _ (by omega)
  have hmul' : s.size * 2 ≤ s.size * (2 ^ height * 2) := Nat.mul_le_mul_left _ (by omega)
  omega

theorem Spot.left (h : s.Spot (height + 1) v b) : s.Spot height (2 * v + 1) b := by
  obtain ⟨h₁, h₂⟩ := h
  rw [pow_succ] at h₁ h₂
  refine ⟨?_, by omega⟩
  rw [← h₁, Nat.mul_comm (2 ^ height) 2, ← Nat.mul_assoc]
  congr 1
  omega

theorem Spot.right (h : s.Spot (height + 1) v b) :
    s.Spot height (2 * v + 2) (b + 2 ^ height) := by
  obtain ⟨h₁, h₂⟩ := h
  rw [pow_succ] at h₁ h₂
  refine ⟨?_, by omega⟩
  rw [← Nat.add_assoc, ← h₁, Nat.mul_comm (2 ^ height) 2, ← Nat.mul_assoc, ← Nat.succ_mul]
  congr 1
  omega

/-- The elements fill the leaves from the left. -/
theorem Spot.weight_eq (h : s.Spot height v b) :
    s.weight v = min (2 ^ height) (s.realSize - b) := by
  induction height generalizing v b with
  | zero =>
    obtain ⟨h₁, h₂⟩ := h
    rw [pow_zero] at h₁ h₂ ⊢
    rw [weight, if_neg (by omega), show v - (s.size - 1) = b by omega]
    split <;> omega
  | succ height ih =>
    rw [weight, if_pos h.inner, ih h.left, ih h.right, pow_succ]
    omega

/-- Where the elements fill at most the left half of the leaves, all of them lie there. -/
theorem Spot.weights_of_le (h : s.Spot (height + 1) v b) (hle : s.weight v ≤ 2 ^ height) :
    s.weight (2 * v + 1) = s.weight v ∧ s.weight (2 * v + 2) = 0 := by
  have hv := h.weight_eq
  have hl := h.left.weight_eq
  have hr := h.right.weight_eq
  have hp := Nat.two_pow_pos height
  rw [pow_succ] at hv
  exact ⟨by omega, by omega⟩

/-- Otherwise the left half is full. -/
theorem Spot.weights_of_lt (h : s.Spot (height + 1) v b) (hlt : 2 ^ height < s.weight v) :
    s.weight (2 * v + 1) = 2 ^ height ∧ s.weight (2 * v + 2) = s.weight v - 2 ^ height := by
  have hv := h.weight_eq
  have hl := h.left.weight_eq
  have hr := h.right.weight_eq
  rw [pow_succ] at hv
  exact ⟨by omega, by omega⟩

/-- Every node of the tree has its spot. -/
theorem exists_spot (s : Source α) (v : ℕ) (hv : v < 2 * s.size - 1) :
    ∃ height b, s.Spot height v b := by
  induction v using Nat.strong_induction_on with
  | h v ih =>
    rcases Nat.eq_zero_or_pos v with rfl | hpos
    · obtain ⟨k, hk, -⟩ := s.size_eq
      refine ⟨k, 0, ?_, ?_⟩
      · omega
      · omega
    · obtain ⟨height, b, hs⟩ := ih ((v - 1) / 2) (by omega) (by omega)
      cases height with
      | zero =>
        obtain ⟨h₁, h₂⟩ := hs
        rw [pow_zero] at h₁ h₂
        omega
      | succ height =>
        rcases Nat.mod_two_eq_zero_or_one v with hm | hm
        · have he : v = 2 * ((v - 1) / 2) + 2 := by omega
          rw [he]
          exact ⟨height, _, hs.right⟩
        · have he : v = 2 * ((v - 1) / 2) + 1 := by omega
          rw [he]
          exact ⟨height, _, hs.left⟩

/-- An inner node with elements below has some below its left child. -/
theorem weight_left_pos (hv : v < s.size - 1) (hw : 0 < s.weight v) :
    0 < s.weight (2 * v + 1) := by
  obtain ⟨height, b, hs⟩ := s.exists_spot v (by omega)
  cases height with
  | zero =>
    obtain ⟨h₁, h₂⟩ := hs
    rw [pow_zero] at h₁ h₂
    omega
  | succ height =>
    rw [hs.weight_eq] at hw
    rw [hs.left.weight_eq]
    have hpos := Nat.two_pow_pos height
    omega

theorem weight_le_parent (hv : v ≠ 0) (hp : (v - 1) / 2 < s.size - 1) :
    s.weight v ≤ s.weight ((v - 1) / 2) := by
  rw [weight.eq_def s ((v - 1) / 2), if_pos hp]
  rcases Nat.mod_two_eq_zero_or_one v with hm | hm
  · have he : v = 2 * ((v - 1) / 2) + 2 := by omega
    rw [← he]
    omega
  · have he : v = 2 * ((v - 1) / 2) + 1 := by omega
    rw [← he]
    omega

/-- A subtree has at most the elements of the tree around it. -/
theorem weight_le_of_below {w : ℕ} (hw : w < 2 * s.size - 1) (h : Below v w) :
    s.weight w ≤ s.weight v := by
  obtain ⟨k, hk⟩ := h
  induction k generalizing w with
  | zero =>
    rw [pow_zero, Nat.div_one] at hk
    rw [Nat.succ.inj hk]
  | succ k ih =>
    have hw0 : w ≠ 0 := by
      rintro rfl
      rw [pow_succ, Nat.mul_comm, ← Nat.div_div_eq_div_mul] at hk
      simp at hk
    have hpar : (w + 1) / 2 = (w - 1) / 2 + 1 := by omega
    rw [pow_succ, Nat.mul_comm, ← Nat.div_div_eq_div_mul, hpar] at hk
    exact (weight_le_parent hw0 (by omega)).trans (ih (by omega) hk)

theorem isLeaf_iff (hv : v < 2 * s.size - 1) : s.isLeaf v ↔ ¬ v < s.size - 1 := by
  unfold isLeaf
  omega

end Source

omit [DecidableEq α]

/-- `Fill` writes the number of elements below it to every node that has any, and nothing
outside the subtree. -/
theorem fill_spec {s : Source α} (height : ℕ) :
    ∀ (fuel v b : ℕ) (tree : ℕ → ℤ), height < fuel → s.Spot height v b → 0 < s.weight v →
    (∀ w, ¬ Below v w → fill s fuel v (s.weight v) (2 ^ height) tree w = tree w) ∧
    ∀ w, Below v w → w < s.size - 1 → 0 < s.weight w →
      fill s fuel v (s.weight v) (2 ^ height) tree w = s.weight w := by
  induction height with
  | zero =>
    intro fuel v b tree hf hs _
    obtain ⟨h₁, h₂⟩ := hs
    rw [pow_zero] at h₁ h₂
    obtain ⟨fuel, rfl⟩ : ∃ n, fuel = n + 1 := ⟨fuel - 1, by omega⟩
    rw [fill, if_pos (show s.isLeaf v from ⟨by omega, by omega⟩)]
    refine ⟨fun _ _ => rfl, fun w hb hw _ => ?_⟩
    have hle := le_of_below hb
    omega
  | succ height ih =>
    intro fuel v b tree hf hs hpos
    obtain ⟨fuel, rfl⟩ : ∃ n, fuel = n + 1 := ⟨fuel - 1, by omega⟩
    have hinner := hs.inner
    have hhalf : 2 ^ (height + 1) / 2 = 2 ^ height := by
      rw [pow_succ]
      omega
    have hlpos := Source.weight_left_pos hinner hpos
    rw [fill, if_neg (fun hleaf => ((Source.isLeaf_iff (by omega)).mp hleaf) hinner)]
    simp only [hhalf, getLeftChildIndex, getRightChildIndex]
    obtain ⟨hloff, hlin⟩ := ih fuel (2 * v + 1) b (Function.update tree v (s.weight v))
      (by omega) hs.left hlpos
    have hself : ∀ {w}, Below (2 * v + 1) w ∨ Below (2 * v + 2) w → w ≠ v := by
      intro w hb he
      rcases hb with hb | hb
      all_goals
        have hle := le_of_below hb
        omega
    split
    · rename_i hsmall
      -- All elements lie on the left; nothing is written on the right.
      obtain ⟨hwl, hwr⟩ := hs.weights_of_le hsmall
      rw [hwl] at hloff hlin
      refine ⟨fun w hb => ?_, fun w hb hw hwpos => ?_⟩
      · rw [hloff w fun hb' => hb (below_left hb')]
        exact Function.update_of_ne (fun he : w = v => hb (he ▸ below_self w)) _ _
      · rcases below_cases hb with rfl | hb | hb
        · rw [hloff w fun hb' => hself (Or.inl hb') rfl, Function.update_self]
        · exact hlin w hb hw hwpos
        · have hle := Source.weight_le_of_below (s := s) (by omega) hb
          omega
    · rename_i hlarge
      obtain ⟨hwl, hwr⟩ := hs.weights_of_lt (Nat.lt_of_not_le hlarge)
      rw [hwl] at hloff hlin
      obtain ⟨hroff, hrin⟩ := ih fuel (2 * v + 2) _
        (fill s fuel (2 * v + 1) (2 ^ height) (2 ^ height)
          (Function.update tree v (s.weight v))) (by omega) hs.right (by omega)
      rw [hwr] at hroff hrin
      refine ⟨fun w hb => ?_, fun w hb hw hwpos => ?_⟩
      · rw [hroff w fun hb' => hb (below_right hb'), hloff w fun hb' => hb (below_left hb')]
        exact Function.update_of_ne (fun he : w = v => hb (he ▸ below_self w)) _ _
      · rcases below_cases hb with rfl | hb | hb
        · rw [hroff w fun hb' => hself (Or.inr hb') rfl,
            hloff w fun hb' => hself (Or.inl hb') rfl, Function.update_self]
        · rw [hroff w (not_below_siblings hb)]
          exact hlin w hb hw hwpos
        · exact hrin w hb hw hwpos

/-! ## The pool as a tree of units -/

/-- Where the owner of a frame is. -/
def Frame.place : Frame α → Place
  | .enter v => .token v
  | .leafRead v _ => .token v
  | .nodeRead v _ => .token v
  | .climb v => .climber v
  | _ => .away

/-- The pair that a call is about to return or to store. -/
def Frame.owns : Frame α → List (α × ℕ)
  | .allocated element index => [(element, index)]
  | .store element index => [(element, index)]
  | _ => []

/-- Whether a call has decremented the root and not yet taken a cell, or has stored its element
and not yet incremented the root. -/
def Frame.underway (f : Frame α) : Bool :=
  match f.place with
  | .away => false
  | .token v => v != 0
  | .climber v => v != 0

theorem Frame.underway_token {f : Frame α} {v : ℕ} (h : f.place = .token v) :
    f.underway = (v != 0) := by
  rw [Frame.underway, h]

/-- What is known about the node or the element of a frame. -/
def Frame.Knows (s : Source α) : Frame α → Prop
  | .enter v => v < 2 * s.size - 1 ∧ 0 < s.weight v
  | .leafRead v e =>
    v < 2 * s.size - 1 ∧ 0 < s.weight v ∧ s.size - 1 ≤ v ∧
      s.elements[v - (s.size - 1)]? = some e
  | .nodeRead v current => v < s.size - 1 ∧ 0 < s.weight v ∧ 1 ≤ current
  | .climb v => v < 2 * s.size - 1 ∧ 0 < s.weight v
  | .allocated e i => s.elements[i]? = some e
  | .store e i => s.elements[i]? = some e
  | .assertFailed _ => False
  | _ => True

/-- The pairs that callers hold or that a call is about to return or to store. -/
def owned (m : Pool α) (fs : Multiset (Frame α)) : Multiset (α × ℕ) :=
  m.held + (fs.map fun f => (f.owns : Multiset (α × ℕ))).sum

theorem owned_cons (m : Pool α) (f : Frame α) (fs : Multiset (Frame α)) :
    owned m (f ::ₘ fs) = f.owns + owned m fs := by
  rw [owned, owned, Multiset.map_cons, Multiset.sum_cons, add_left_comm]

section Units

variable [DecidableEq α] (s : Source α)

/-- The counter of a node that has elements below it, or whether a cell is available. -/
def units (m : Pool α) (v : ℕ) : ℕ :=
  if v < s.size - 1 then if 0 < s.weight v then (m.tree v).toNat else 0
  else if v - (s.size - 1) < s.realSize ∧ m.pool (v - (s.size - 1)) ≠ s.undefined then 1 else 0

def counts (m : Pool α) (fs : Multiset (Frame α)) : Counts where
  units := units s m
  tokens w := fs.countP fun f => f.place = .token w
  climbers w := fs.countP fun f => f.place = .climber w

theorem counts_cons (m : Pool α) (f : Frame α) (fs : Multiset (Frame α)) :
    counts s m (f ::ₘ fs) = (counts s m fs).add f.place := by
  simp only [counts, Counts.add, Multiset.countP_cons]

variable {s}

/-- A node with units has elements below it. -/
theorem weight_pos_of_units {m : Pool α} {v : ℕ} (h : 0 < units s m v) : 0 < s.weight v := by
  unfold units at h
  split at h
  · split at h
    · assumption
    · exact absurd h (lt_irrefl 0)
  · rename_i hleaf
    split at h
    · rename_i hc
      rw [Source.weight, if_neg hleaf, if_pos hc.1]
      exact Nat.one_pos
    · exact absurd h (lt_irrefl 0)

/-- Storing to a cell changes the units of its leaf only. -/
theorem units_pool (m : Pool α) {i : ℕ} (hi : i < s.realSize) (x : α) :
    units s { m with pool := Function.update m.pool i x } =
      Function.update (units s m) (i + (s.size - 1)) (if x ≠ s.undefined then 1 else 0) := by
  ext v
  rcases eq_or_ne v (i + (s.size - 1)) with rfl | hv
  · rw [Function.update_self, units, if_neg (by omega), Nat.add_sub_cancel]
    simp only [hi, Function.update_self, true_and]
  · rw [Function.update_of_ne hv, units, units]
    by_cases hinner : v < s.size - 1
    · rw [if_pos hinner, if_pos hinner]
    · rw [if_neg hinner, if_neg hinner]
      simp only [Function.update_of_ne (show v - (s.size - 1) ≠ i by omega)]

/-- Storing to a counter changes the units of its node only. -/
theorem units_tree (m : Pool α) {v : ℕ} (hv : v < s.size - 1) (hw : 0 < s.weight v) (x : ℤ) :
    units s { m with tree := Function.update m.tree v x } =
      Function.update (units s m) v x.toNat := by
  ext w
  rcases eq_or_ne w v with rfl | hne
  · rw [Function.update_self, units, if_pos hv, if_pos hw]
    simp only [Function.update_self]
  · rw [Function.update_of_ne hne, units, units]
    simp only [Function.update_of_ne hne]

end Units

/-! ## The invariant -/

section Invariant

variable [DecidableEq α]

/-- The counters and the threads form a balanced tree, and every element is in its cell or in
exactly one hand. -/
structure Inv (s : Source α) (m : Pool α) (fs : Multiset (Frame α)) : Prop where
  nonneg : ∀ v < s.size - 1, 0 < s.weight v → 0 ≤ m.tree v
  balanced : (counts s m fs).Balanced (s.size - 1)
  knows : ∀ f ∈ fs, f.Knows s
  nodup : ((owned m fs).map Prod.snd).Nodup
  owned_cell : ∀ q ∈ owned m fs, s.elements[q.2]? = some q.1 ∧ m.pool q.2 = s.undefined
  free_cell : ∀ i x, s.elements[i]? = some x → i ∉ (owned m fs).map Prod.snd → m.pool i = x
  total : s.realSize = units s m 0 + fs.countP (fun f => f.underway = true) +
    (owned m fs).card

namespace Inv

variable {s : Source α} {m : Pool α} {f f' : Frame α} {others : Multiset (Frame α)}

theorem top (h : Inv s m (f ::ₘ others)) : f.Knows s :=
  h.knows f (Multiset.mem_cons_self f others)

/-- Every element is in its cell or in exactly one hand. -/
theorem holdings {fs : Multiset (Frame α)} (h : Inv s m fs) :
    Holdings s.elements s.undefined m.pool (owned m fs) :=
  ⟨h.nodup, h.owned_cell, h.free_cell⟩

theorem balanced_cons (h : Inv s m (f ::ₘ others)) :
    ((counts s m others).add f.place).Balanced (s.size - 1) := by
  rw [← counts_cons]
  exact h.balanced

/-- A step that changes no shared field. -/
theorem move (h : Inv s m (f ::ₘ others))
    (hb : ((counts s m others).add f'.place).Balanced (s.size - 1)) (hk : f'.Knows s)
    (ho : f'.owns = f.owns) (hu : f'.underway = f.underway) : Inv s m (f' ::ₘ others) := by
  have howned : owned m (f' ::ₘ others) = owned m (f ::ₘ others) := by
    rw [owned_cons, owned_cons, ho]
  refine ⟨h.nonneg, ?_, ?_, ?_, ?_, ?_, ?_⟩
  · rw [counts_cons]
    exact hb
  · intro g hg
    rcases Multiset.mem_cons.mp hg with rfl | hg
    · exact hk
    · exact h.knows g (Multiset.mem_cons_of_mem hg)
  · rw [howned]
    exact h.nodup
  · rw [howned]
    exact h.owned_cell
  · rw [howned]
    exact h.free_cell
  · have ht := h.total
    rw [howned]
    simp only [Multiset.countP_cons, hu] at ht ⊢
    exact ht

/-- The counter of an inner node is its number of units. -/
theorem units_eq (h : Inv s m (f ::ₘ others)) {v : ℕ} (hv : v < s.size - 1)
    (hw : 0 < s.weight v) : (units s m v : ℤ) = m.tree v := by
  rw [units, if_pos hv, if_pos hw]
  exact Int.toNat_of_nonneg (h.nonneg v hv hw)

/-- A call that finds no unit at its node goes on with the right sibling, or fails at the root;
it never comes to that at a right child. -/
theorem failAt (h : Inv s m (f ::ₘ others)) {v : ℕ} (hp : f.place = .token v)
    (ho : f.owns = []) (hv : v < 2 * s.size - 1) (hz : units s m v = 0) :
    Inv s m (failAt v ::ₘ others) := by
  have hb := h.balanced_cons
  rw [hp] at hb
  unfold LockFreeTreeValuePool.failAt
  split
  · rename_i hroot
    subst hroot
    refine h.move (hb.leave_root (Or.inl rfl)) trivial ho.symm ?_
    rw [Frame.underway_token hp]
    rfl
  · rename_i hroot
    split
    · rename_i hodd
      obtain ⟨u, rfl⟩ : ∃ u, v = 2 * u + 1 := ⟨v / 2, by omega⟩
      have hpar : getParentNode (2 * u + 1) = u := by
        unfold getParentNode
        omega
      rw [hpar]
      obtain ⟨hpos, hb'⟩ := hb.cross (by omega) hz
      refine h.move hb' ⟨?_, weight_pos_of_units hpos⟩ ho.symm ?_
      · unfold getRightChildIndex
        omega
      · rw [Frame.underway_token hp]
        rfl
    · rename_i heven
      obtain ⟨u, rfl⟩ : ∃ u, v = 2 * u + 2 := ⟨(v - 2) / 2, by omega⟩
      have hpos := hb.units_right_pos (by omega)
      exact absurd hz hpos.ne'

/-- The pairs in hand have different indices, so a pair has no copy. -/
theorem owned_of_perm (h : Inv s m (f ::ₘ others)) {m' : Pool α}
    (hpool : m'.pool = m.pool) (htree : m'.tree = m.tree)
    (howned : owned m' (f' ::ₘ others) = owned m (f ::ₘ others))
    (hk : f'.Knows s) (hp : f'.place = .away) (hp' : f.place = .away) :
    Inv s m' (f' ::ₘ others) := by
  have hunits : units s m' = units s m := by
    ext v
    rw [units, units, hpool, htree]
  refine ⟨htree ▸ h.nonneg, ?_, ?_, howned ▸ h.nodup, ?_, ?_, ?_⟩
  · have hb := h.balanced_cons
    rw [counts_cons, hp]
    rw [hp'] at hb
    have hc : counts s m' others = counts s m others := by
      rw [counts, counts, hunits]
    rw [hc]
    exact hb
  · intro g hg
    rcases Multiset.mem_cons.mp hg with rfl | hg
    · exact hk
    · exact h.knows g (Multiset.mem_cons_of_mem hg)
  · rw [howned, hpool]
    exact h.owned_cell
  · rw [howned, hpool]
    exact h.free_cell
  · have ht := h.total
    have hu : f'.underway = f.underway := by rw [Frame.underway, Frame.underway, hp, hp']
    rw [howned, hunits]
    simp only [Multiset.countP_cons, hu] at ht ⊢
    exact ht

/-- A token at a leaf is turned in for the element of an available cell. -/
theorem take (h : Inv s m (f ::ₘ others)) {v : ℕ} {e : α} (hf : f = .leafRead v e)
    (hcell : m.pool (s.nodeIndexToPoolIndex v) = e) :
    Inv s { m with pool := Function.update m.pool (s.nodeIndexToPoolIndex v) s.undefined }
      (.allocated e (s.nodeIndexToPoolIndex v) ::ₘ others) := by
  subst hf
  obtain ⟨hv, hw, hleaf, he⟩ : v < 2 * s.size - 1 ∧ 0 < s.weight v ∧ s.size - 1 ≤ v ∧
    s.elements[v - (s.size - 1)]? = some e := h.top
  unfold Source.nodeIndexToPoolIndex at hcell ⊢
  generalize hi : v - (s.size - 1) = i at hcell he ⊢
  obtain ⟨hlt, hget⟩ := List.getElem?_eq_some_iff.mp he
  have hdef : e ≠ s.undefined := s.defined e (hget ▸ List.getElem_mem hlt)
  have hvi : i + (s.size - 1) = v := by omega
  have hone : units s m v = 1 := by
    rw [units, if_neg (by omega), hi, if_pos ⟨hlt, hcell ▸ hdef⟩]
  have hunits : units s { m with pool := Function.update m.pool i s.undefined } =
      Function.update (units s m) v (units s m v - 1) := by
    rw [units_pool m hlt, hvi, hone]
    simp
  have hold := h.holdings.take he (hcell ▸ hdef)
  have howned : owned { m with pool := Function.update m.pool i s.undefined }
      (.allocated e i ::ₘ others) = (e, i) ::ₘ owned m (.leafRead v e ::ₘ others) := by
    rw [owned_cons, owned_cons]
    show ((e, i) ::ₘ 0) + owned m others = (e, i) ::ₘ (0 + owned m others)
    rw [Multiset.cons_add]
  refine ⟨h.nonneg, ?_, ?_, ?_, ?_, ?_, ?_⟩
  · rw [counts_cons]
    have hb := h.balanced_cons
    exact hb.take (by omega) (show 0 < units s m v by omega) hunits
  · intro g hg
    rcases Multiset.mem_cons.mp hg with rfl | hg
    · exact he
    · exact h.knows g (Multiset.mem_cons_of_mem hg)
  · rw [howned]
    exact hold.nodup
  · rw [howned]
    exact hold.owned_cell
  · rw [howned]
    exact hold.free_cell
  · have ht := h.total
    have hu : (Frame.leafRead v e).underway = (v != 0) := rfl
    have hu' : (Frame.allocated e i).underway = false := rfl
    rw [howned, hunits, Multiset.card_cons]
    simp only [Multiset.countP_cons, hu, hu'] at ht ⊢
    rcases Nat.eq_zero_or_pos v with rfl | hpos
    · rw [Function.update_self]
      simp at ht ⊢
      omega
    · rw [Function.update_of_ne hpos.ne]
      simp [hpos.ne'] at ht ⊢
      omega

/-- An element that was in hand is put back into its cell. -/
theorem put (h : Inv s m (f ::ₘ others)) {e : α} {i : ℕ} (hf : f = .store e i) :
    Inv s { m with pool := Function.update m.pool i e }
      (.climb (s.poolIndexToNodeIndex i) ::ₘ others) := by
  subst hf
  have he : s.elements[i]? = some e := h.top
  obtain ⟨hlt, hget⟩ := List.getElem?_eq_some_iff.mp he
  have hdef : e ≠ s.undefined := s.defined e (hget ▸ List.getElem_mem hlt)
  have howned : owned m (.store e i ::ₘ others) = (e, i) ::ₘ owned m others := by
    rw [owned_cons]
    exact Multiset.singleton_add (e, i) (owned m others)
  have howned' : owned { m with pool := Function.update m.pool i e }
      (.climb (s.poolIndexToNodeIndex i) ::ₘ others) = owned m others := by
    rw [owned_cons]
    exact Multiset.zero_add _
  have hmem : (e, i) ∈ owned m (.store e i ::ₘ others) := by
    rw [howned]
    exact Multiset.mem_cons_self _ _
  have hsize := s.realSize_le
  have hreal : i < s.realSize := hlt
  have hzero : units s m (i + (s.size - 1)) = 0 := by
    rw [units, if_neg (by omega), Nat.add_sub_cancel, if_neg]
    exact fun hc => hc.2 (h.owned_cell _ hmem).2
  have hunits : units s { m with pool := Function.update m.pool i e } =
      Function.update (units s m) (i + (s.size - 1)) (units s m (i + (s.size - 1)) + 1) := by
    rw [units_pool m hlt, hzero, if_pos hdef]
  have hold := (howned ▸ h.holdings).put
  refine ⟨h.nonneg, ?_, ?_, ?_, ?_, ?_, ?_⟩
  · rw [counts_cons]
    have hb := h.balanced_cons
    exact hb.put (show s.size - 1 ≤ i + (s.size - 1) by omega) hunits
  · intro g hg
    rcases Multiset.mem_cons.mp hg with rfl | hg
    · refine ⟨?_, ?_⟩
      · unfold Source.poolIndexToNodeIndex
        omega
      · unfold Source.poolIndexToNodeIndex
        rw [Source.weight, if_neg (by omega), Nat.add_sub_cancel, if_pos hreal]
        exact Nat.one_pos
    · exact h.knows g (Multiset.mem_cons_of_mem hg)
  · rw [howned']
    exact hold.nodup
  · rw [howned']
    exact hold.owned_cell
  · rw [howned']
    exact hold.free_cell
  · have ht := h.total
    rw [howned, Multiset.card_cons] at ht
    have hu : (Frame.store e i).underway = false := rfl
    have hu' : (Frame.climb (s.poolIndexToNodeIndex i) : Frame α).underway =
      (i + (s.size - 1) != 0) := rfl
    rw [howned', hunits]
    simp only [Multiset.countP_cons, hu, hu'] at ht ⊢
    generalize i + (s.size - 1) = v at hzero ⊢
    rcases Nat.eq_zero_or_pos v with rfl | hpos
    · rw [Function.update_self]
      simp at ht ⊢
      omega
    · rw [Function.update_of_ne hpos.ne]
      simp [hpos.ne'] at ht ⊢
      omega

/-- A change of a counter and of the place of a thread. -/
theorem withTree (h : Inv s m (f ::ₘ others)) {v : ℕ} {x : ℤ} (hv : v < s.size - 1)
    (hw : 0 < s.weight v) (hx : 0 ≤ x)
    (hb : (((counts s m others).withUnits
      (units s { m with tree := Function.update m.tree v x })).add f'.place).Balanced (s.size - 1))
    (hk : f'.Knows s) (ho : f'.owns = f.owns)
    (ht : units s { m with tree := Function.update m.tree v x } 0 +
      (if f'.underway = true then 1 else 0) =
        units s m 0 + if f.underway = true then 1 else 0) :
    Inv s { m with tree := Function.update m.tree v x } (f' ::ₘ others) := by
  have howned : owned { m with tree := Function.update m.tree v x } (f' ::ₘ others) =
      owned m (f ::ₘ others) := by
    rw [owned_cons, owned_cons, ho]
    rfl
  refine ⟨?_, ?_, ?_, howned ▸ h.nodup, ?_, ?_, ?_⟩
  · intro w hlt hpos
    show 0 ≤ Function.update m.tree v x w
    rcases eq_or_ne w v with rfl | hne
    · rw [Function.update_self]
      exact hx
    · rw [Function.update_of_ne hne]
      exact h.nonneg w hlt hpos
  · rw [counts_cons]
    exact hb
  · intro g hg
    rcases Multiset.mem_cons.mp hg with rfl | hg
    · exact hk
    · exact h.knows g (Multiset.mem_cons_of_mem hg)
  · rw [howned]
    exact h.owned_cell
  · rw [howned]
    exact h.free_cell
  · have htotal := h.total
    rw [howned]
    simp only [Multiset.countP_cons] at htotal ⊢
    omega

/-- A token is turned in for a unit of an inner node and a token at its left child. -/
theorem descend (h : Inv s m (f ::ₘ others)) {v : ℕ} {current : ℤ}
    (hf : f = .nodeRead v current) (htree : m.tree v = current) :
    Inv s { m with tree := Function.update m.tree v (current - 1) }
      (.enter (getLeftChildIndex v) ::ₘ others) := by
  subst hf
  obtain ⟨hv, hw, hc⟩ : v < s.size - 1 ∧ 0 < s.weight v ∧ 1 ≤ current := h.top
  have hunit := h.units_eq hv hw
  have hunits : units s { m with tree := Function.update m.tree v (current - 1) } =
      Function.update (units s m) v (units s m v - 1) := by
    rw [units_tree m hv hw]
    congr 1
    omega
  refine h.withTree hv hw (by omega) ?_ ⟨?_, Source.weight_left_pos hv hw⟩ rfl ?_
  · exact h.balanced_cons.descend (show 0 < units s m v by omega) hunits
  · unfold getLeftChildIndex
    omega
  · have hu : (Frame.nodeRead v current : Frame α).underway = (v != 0) := rfl
    have hu' : (Frame.enter (getLeftChildIndex v) : Frame α).underway = true := rfl
    rw [hunits, hu, hu']
    rcases Nat.eq_zero_or_pos v with rfl | hpos
    · rw [Function.update_self]
      simp
      omega
    · rw [Function.update_of_ne hpos.ne]
      simp [hpos.ne']

/-- A climber adds its unit to the parent. -/
theorem climb (h : Inv s m (f ::ₘ others)) {v : ℕ} (hf : f = .climb v) (hv0 : v ≠ 0) :
    Inv s { m with
      tree := Function.update m.tree (getParentNode v) (m.tree (getParentNode v) + 1) }
      (.climb (getParentNode v) ::ₘ others) := by
  subst hf
  obtain ⟨hv, hw⟩ : v < 2 * s.size - 1 ∧ 0 < s.weight v := h.top
  have hu : getParentNode v < s.size - 1 := by
    unfold getParentNode
    omega
  have hwu : 0 < s.weight (getParentNode v) :=
    hw.trans_le (Source.weight_le_parent hv0 hu)
  have hunit := h.units_eq hu hwu
  have hunits : units s { m with
      tree := Function.update m.tree (getParentNode v) (m.tree (getParentNode v) + 1) } =
      Function.update (units s m) (getParentNode v) (units s m (getParentNode v) + 1) := by
    rw [units_tree m hu hwu]
    congr 1
    omega
  refine h.withTree hu hwu (by omega) ?_ ⟨by omega, hwu⟩ rfl ?_
  · refine h.balanced_cons.climb ?_ hunits
    unfold getParentNode
    omega
  · have hu : (Frame.climb v : Frame α).underway = (v != 0) := rfl
    have hu' : (Frame.climb (getParentNode v) : Frame α).underway = (getParentNode v != 0) := rfl
    rw [hunits, hu, hu']
    rcases Nat.eq_zero_or_pos (getParentNode v) with hz | hpos
    · rw [hz, Function.update_self]
      simp [hv0]
    · rw [Function.update_of_ne hpos.ne]
      simp [hv0, hpos.ne']

/-- The unit of a leaf stands for its element. -/
theorem units_leaf (h : Inv s m (f ::ₘ others)) {v : ℕ} {e : α} (hf : f = .leafRead v e)
    (hcell : m.pool (s.nodeIndexToPoolIndex v) ≠ e) : units s m v = 0 := by
  subst hf
  obtain ⟨-, -, hleaf, he⟩ : v < 2 * s.size - 1 ∧ 0 < s.weight v ∧ s.size - 1 ≤ v ∧
    s.elements[v - (s.size - 1)]? = some e := h.top
  rw [units, if_neg (by omega), if_neg]
  rintro ⟨-, hdef⟩
  -- A cell holds its element or nothing.
  by_cases hm : v - (s.size - 1) ∈ (owned m (.leafRead v e ::ₘ others)).map Prod.snd
  · obtain ⟨q, hq, hqi⟩ := Multiset.mem_map.mp hm
    have hu := (h.owned_cell q hq).2
    rw [hqi] at hu
    exact hdef hu
  · exact hcell (h.free_cell _ e he hm)

/-- Every step keeps the invariant. -/
theorem exec (h : Inv s m (f ::ₘ others)) (c : Choice) :
    Inv s (exec s c f m).1 ((exec s c f m).2 ::ₘ others) := by
  have hb := h.balanced_cons
  cases f with
  | caller =>
    cases c with
    | allocate =>
      have hpos := s.size_pos
      refine h.move (hb.at_root (Or.inl rfl)) ⟨by omega, ?_⟩ rfl rfl
      obtain ⟨height, b, hs⟩ := s.exists_spot 0 (by omega)
      have hreal := s.realSize_pos
      have htwo := Nat.two_pow_pos height
      obtain ⟨h₁, h₂⟩ := hs
      rw [Source.Spot.weight_eq ⟨h₁, h₂⟩]
      omega
    | free pair =>
      rw [LockFreeTreeValuePool.exec]
      cases hget : m.held[pair]? with
      | none => exact h
      | some q =>
        obtain ⟨e, i⟩ := q
        obtain ⟨hlt, he⟩ := List.getElem?_eq_some_iff.mp hget
        have hperm : (m.held : Multiset (α × ℕ)) = (e, i) ::ₘ (m.held.eraseIdx pair : List _) := by
          rw [Multiset.cons_coe, Multiset.coe_eq_coe, ← he]
          exact (List.getElem_cons_eraseIdx_perm hlt).symm
        have howned : owned { m with held := m.held.eraseIdx pair } (.store e i ::ₘ others) =
            owned m (.caller ::ₘ others) := by
          rw [owned_cons, owned_cons, owned, owned, hperm]
          show ((e, i) ::ₘ 0) + _ = 0 + _
          rw [Multiset.cons_add, zero_add, zero_add, Multiset.cons_add]
        have hmem : (e, i) ∈ owned m (.caller ::ₘ others) := by
          rw [← howned, owned_cons]
          exact Multiset.mem_add.mpr (Or.inl (Multiset.mem_singleton_self _))
        exact h.owned_of_perm rfl rfl howned (h.owned_cell _ hmem).1 rfl rfl
  | enter v =>
    obtain ⟨hv, hw⟩ : v < 2 * s.size - 1 ∧ 0 < s.weight v := h.top
    rw [LockFreeTreeValuePool.exec]
    split
    · rename_i hleaf
      simp only
      split
      · rename_i hundef
        refine h.failAt rfl rfl hv ?_
        rw [units, if_neg ((Source.isLeaf_iff hv).mp hleaf), if_neg]
        exact fun hc => hc.2 hundef
      · rename_i hdef
        have hi : v - (s.size - 1) < s.realSize := by
          rw [Source.weight, if_neg ((Source.isLeaf_iff hv).mp hleaf)] at hw
          by_contra hge
          rw [if_neg hge] at hw
          exact absurd hw (lt_irrefl 0)
        have hget : s.elements[v - (s.size - 1)]? = some s.elements[v - (s.size - 1)] :=
          List.getElem?_eq_getElem hi
        refine h.move hb ⟨hv, hw, hleaf.1, ?_⟩ rfl rfl
        rw [hget, Option.some.injEq]
        refine (h.free_cell _ _ hget fun hm => hdef ?_).symm
        obtain ⟨q, hq, hqi⟩ := Multiset.mem_map.mp hm
        have hu := (h.owned_cell q hq).2
        rw [hqi] at hu
        exact hu
    · rename_i hinner
      have hlt : v < s.size - 1 := by
        by_contra hge
        exact hinner ((Source.isLeaf_iff hv).mpr hge)
      simp only
      split
      · rename_i hsmall
        refine h.failAt rfl rfl hv ?_
        have hunit := h.units_eq hlt hw
        omega
      · rename_i hlarge
        exact h.move hb ⟨hlt, hw, by omega⟩ rfl rfl
  | leafRead v e =>
    rw [LockFreeTreeValuePool.exec]
    split
    · rename_i hcell
      exact h.take rfl hcell
    · rename_i hcell
      exact h.failAt rfl rfl h.top.1 (h.units_leaf rfl hcell)
  | nodeRead v current =>
    obtain ⟨hv, hw, -⟩ : v < s.size - 1 ∧ 0 < s.weight v ∧ 1 ≤ current := h.top
    rw [LockFreeTreeValuePool.exec]
    split
    · rename_i htree
      exact h.descend rfl htree
    · exact h.move hb ⟨by omega, hw⟩ rfl rfl
  | allocated e i =>
    refine h.owned_of_perm rfl rfl ?_ trivial rfl rfl
    rw [owned_cons, owned_cons, owned, owned]
    show 0 + (((e, i) :: m.held : List (α × ℕ)) + _ : Multiset (α × ℕ)) = ((e, i) ::ₘ 0) + _
    rw [Multiset.cons_add, zero_add, zero_add, ← Multiset.cons_coe, Multiset.cons_add]
  | failed => exact h.move hb trivial rfl rfl
  | assertFailed v => exact absurd h.top id
  | store e i => exact h.put rfl
  | climb v =>
    rw [LockFreeTreeValuePool.exec]
    split
    · rename_i hroot
      subst hroot
      exact h.move (hb.leave_root (Or.inr rfl)) trivial rfl rfl
    · rename_i hroot
      exact h.climb rfl hroot

end Inv

theorem inv_preserved (s : Source α) :
    Preserves (code s) (fun _ _ _ _ _ => True) (Inv s) := by
  intro t c f m others h _
  show Inv s (exec s c f m).1 (((exec s c f m).2 ::ₘ 0) + others)
  rw [Multiset.cons_add, zero_add]
  exact h.exec c

omit [DecidableEq α] in
theorem Source.weight_root (s : Source α) : s.weight 0 = s.realSize := by
  obtain ⟨k, hk, hle⟩ := s.size_eq
  have hs : s.Spot k 0 0 := ⟨by omega, by omega⟩
  rw [hs.weight_eq]
  omega

omit [DecidableEq α] in
/-- The constructor writes the number of elements below it to every counter that has any. -/
theorem tree_create (s : Source α) (cells : ℕ → α) (counters : ℕ → ℤ) {v : ℕ}
    (hv : v < s.size - 1) (hw : 0 < s.weight v) :
    (create s cells counters).tree v = s.weight v := by
  obtain ⟨k, hk, -⟩ := s.size_eq
  have hs : s.Spot k 0 0 := ⟨by omega, by omega⟩
  have hroot := s.weight_root
  have hfuel : k < s.size := by
    rw [hk]
    exact Nat.lt_two_pow_self
  obtain ⟨-, hin⟩ := fill_spec k s.size 0 0 counters hfuel hs (by
    rw [hroot]
    exact s.realSize_pos)
  rw [hroot, ← hk] at hin
  exact hin v (below_root v) hv hw

theorem units_create (s : Source α) (cells : ℕ → α) (counters : ℕ → ℤ) {v : ℕ} :
    units s (create s cells counters) v = s.weight v := by
  unfold units
  split
  · rename_i hinner
    split
    · rename_i hw
      rw [tree_create s cells counters hinner hw, Int.toNat_natCast]
    · omega
  · rename_i hleaf
    rw [Source.weight, if_neg hleaf]
    by_cases hi : v - (s.size - 1) < s.realSize
    · rw [if_pos hi, if_pos]
      refine ⟨hi, ?_⟩
      show s.elements[v - (s.size - 1)]?.getD _ ≠ _
      rw [List.getElem?_eq_getElem hi, Option.getD_some]
      exact s.defined _ (List.getElem_mem hi)
    · rw [if_neg hi, if_neg fun hc => hi hc.1]

omit [DecidableEq α] in
/-- Threads outside the pool neither hold tokens nor own pairs. -/
theorem quiet {fs : Multiset (Frame α)} (h : ∀ f ∈ fs, f = .caller) (m : Pool α) :
    fs.countP (fun f => f.underway = true) = 0 ∧ owned m fs = m.held ∧
      (∀ place, place ≠ .away → fs.countP (fun f => f.place = place) = 0) := by
  refine ⟨?_, ?_, fun place hp => ?_⟩
  · refine Multiset.countP_eq_zero.mpr fun f hf => ?_
    rw [h f hf]
    exact Bool.false_ne_true
  · rw [owned, Multiset.sum_eq_zero, add_zero]
    intro q hq
    obtain ⟨f, hf, rfl⟩ := Multiset.mem_map.mp hq
    rw [h f hf]
    rfl
  · refine Multiset.countP_eq_zero.mpr fun f hf => ?_
    rw [h f hf]
    exact fun he => hp he.symm

theorem inv_boot (s : Source α) (cells : ℕ → α) (counters : ℕ → ℤ) (threads : ℕ) :
    Inv s (boot s cells counters threads).mem (boot s cells counters threads).frames := by
  have hcallers : ∀ f ∈ (boot s cells counters threads).frames, f = .caller := by
    intro f hf
    obtain ⟨st, hst, hf⟩ := List.mem_flatten.mp (Multiset.mem_coe.mp hf)
    rw [List.eq_of_mem_replicate hst] at hf
    exact List.mem_singleton.mp hf
  obtain ⟨hu, ho, hp⟩ := quiet hcallers (create s cells counters)
  have howned : owned (boot s cells counters threads).mem (boot s cells counters threads).frames =
      0 := ho
  refine ⟨fun v hv hw => ?_, ⟨fun u hlt => ?_, fun u hlt => ?_⟩, fun f hf => ?_, ?_, ?_, ?_, ?_⟩
  · show 0 ≤ (create s cells counters).tree v
    rw [tree_create s cells counters hv hw]
    exact Int.natCast_nonneg _
  · show units s (create s cells counters) _ + units s (create s cells counters) _ =
      units s (create s cells counters) u + _ + _ + _ + _
    simp only [counts, hp _ (by simp : Place.token _ ≠ Place.away),
      hp _ (by simp : Place.climber _ ≠ Place.away), add_zero]
    rw [units_create s cells counters, units_create s cells counters,
      units_create s cells counters, Source.weight.eq_def s u, if_pos hlt]
  · simp only [counts, hp _ (by simp : Place.token _ ≠ Place.away)]
    exact Nat.zero_le _
  · rw [hcallers f hf]
    exact trivial
  · rw [howned]
    exact Multiset.nodup_zero
  · rw [howned]
    exact fun q hq => absurd hq (Multiset.notMem_zero q)
  · intro i x hx _
    show s.elements[i]?.getD _ = x
    rw [hx, Option.getD_some]
  · have hpos := s.size_pos
    rw [howned]
    show _ = units s (create s cells counters) 0 + _ + _
    rw [units_create s cells counters, s.weight_root, Multiset.card_zero]
    exact hu.symm ▸ rfl

/-- The invariant holds in every state of every run. -/
theorem inv_run (s : Source α) (cells : ℕ → α) (counters : ℕ → ℤ) (threads : ℕ)
    (es : List (ℕ × Choice)) :
    Inv s (run (code s) (boot s cells counters threads) es).mem
      (run (code s) (boot s cells counters threads) es).frames :=
  (inv_preserved s).run (Always.of_forall (fun _ _ _ _ _ => trivial) _ es)
    (inv_boot s cells counters threads)

/-! ## The results -/

/-- A thread that has decremented an inner node takes an element below its left or its right
child: the assertion of `allocate_rec` never fails. -/
theorem allocate_rec_succeeds (s : Source α) (cells : ℕ → α) (counters : ℕ → ℤ) (threads : ℕ)
    (es : List (ℕ × Choice)) (node : ℕ) :
    .assertFailed node ∉ (run (code s) (boot s cells counters threads) es).frames :=
  fun h => (inv_run s cells counters threads es).knows _ h

omit [DecidableEq α] in
/-- The call fails where nothing is left at the root. -/
theorem failAt_eq_failed {v : ℕ} (h : (failAt v : Frame α) = .failed) : v = 0 := by
  unfold failAt at h
  split at h
  · assumption
  · split at h <;> cases h

/-- Where a step finds out that `Allocate` fails, nothing is left at the root. -/
theorem root_empty_of_failed {s : Source α} {m : Pool α} {f : Frame α}
    {others : Multiset (Frame α)} (h : Inv s m (f ::ₘ others)) {c : Choice} (hf : f ≠ .failed)
    (he : (exec s c f m).2 = .failed) : units s m 0 = 0 := by
  cases f with
  | caller =>
    cases c with
    | allocate => cases he
    | free pair =>
      rw [exec] at he
      split at he <;> cases he
  | enter v =>
    obtain ⟨hv, hw⟩ : v < 2 * s.size - 1 ∧ 0 < s.weight v := h.top
    rw [exec] at he
    split at he
    · rename_i hleaf
      simp only at he
      split at he
      · rename_i hundef
        obtain rfl := failAt_eq_failed he
        rw [units, if_neg ((Source.isLeaf_iff hv).mp hleaf), if_neg]
        exact fun hc => hc.2 hundef
      · cases he
    · rename_i hinner
      have hlt : v < s.size - 1 := by
        by_contra hge
        exact hinner ((Source.isLeaf_iff hv).mpr hge)
      simp only at he
      split at he
      · rename_i hsmall
        obtain rfl := failAt_eq_failed he
        have hunit := h.units_eq hlt hw
        omega
      · cases he
  | leafRead v e =>
    rw [exec] at he
    split at he
    · cases he
    · rename_i hcell
      obtain rfl := failAt_eq_failed he
      exact h.units_leaf rfl hcell
  | nodeRead v current =>
    rw [exec] at he
    split at he <;> cases he
  | allocated e i => cases he
  | failed => exact absurd rfl hf
  | assertFailed v => cases he
  | store e i => cases he
  | climb v =>
    rw [exec] at he
    split at he <;> cases he

/-- Where a step finds out that `Allocate` fails, all elements are in hand or on their way. -/
theorem total_of_failed {s : Source α} {m : Pool α} {f : Frame α} {others : Multiset (Frame α)}
    (h : Inv s m (f ::ₘ others)) {c : Choice} (hf : f ≠ .failed)
    (he : (exec s c f m).2 = .failed) :
    s.realSize = (f ::ₘ others).countP (fun f => f.underway = true) +
      (owned m (f ::ₘ others)).card := by
  have ht := h.total
  have hz := root_empty_of_failed h hf he
  omega

/-- The available cells. -/
def available (s : Source α) (m : Pool α) : Multiset ℕ :=
  (Multiset.range s.realSize).filter fun i => m.pool i ≠ s.undefined

/-- While no call is under way, the indices that are not available are held. -/
theorem held_indices {s : Source α} {m : Pool α} {fs : Multiset (Frame α)} (h : Inv s m fs)
    (hq : ∀ f ∈ fs, f = .caller) :
    ((m.held : Multiset (α × ℕ)).map Prod.snd) =
      (Multiset.range s.realSize).filter fun i => ¬ m.pool i ≠ s.undefined := by
  obtain ⟨-, ho, -⟩ := quiet hq m
  rw [← ho]
  exact h.holdings.indices s.defined

/-- While no call is under way, the available cells and the held pairs are the elements that
the pool was constructed from. -/
theorem elements_conserved {s : Source α} {m : Pool α} {fs : Multiset (Frame α)}
    (h : Inv s m fs) (hq : ∀ f ∈ fs, f = .caller) :
    (s.elements : Multiset α) = (available s m).map m.pool + (m.held.map Prod.fst : List α) := by
  obtain ⟨-, ho, -⟩ := quiet hq m
  have hold := h.holdings.conserved s.defined
  rw [ho] at hold
  exact hold

/-- While no call is under way, the root counts the available cells. -/
theorem tree_root {s : Source α} {m : Pool α} {fs : Multiset (Frame α)} (h : Inv s m fs)
    (hq : ∀ f ∈ fs, f = .caller) (hsize : 0 < s.treeSize) :
    m.tree 0 = (available s m).card := by
  obtain ⟨hu, ho, -⟩ := quiet hq m
  have ht := h.total
  rw [hu, ho, add_zero] at ht
  have hpos : 0 < s.weight 0 := by
    rw [s.weight_root]
    exact s.realSize_pos
  have hcount := congrArg Multiset.card
    (Multiset.filter_add_not (fun i => m.pool i ≠ s.undefined) (Multiset.range s.realSize))
  rw [Multiset.card_add, ← held_indices h hq, Multiset.card_map, Multiset.card_range] at hcount
  have hinner : 0 < s.size - 1 := hsize
  have hunits : (units s m 0 : ℤ) = m.tree 0 := by
    rw [units, if_pos hinner, if_pos hpos]
    exact Int.toNat_of_nonneg (h.nonneg 0 hinner hpos)
  have hcard : units s m 0 = (available s m).card := by
    unfold available
    omega
  rw [← hunits, hcard]

/-! ## A call on its own -/

/-- What a call of `Allocate` has read is still so. -/
def UpToDate (s : Source α) (m : Pool α) : Frame α → Prop
  | .enter _ => True
  | .leafRead node expected => m.pool (s.nodeIndexToPoolIndex node) = expected
  | .nodeRead node current => m.tree node = current
  | _ => False

/-- A bound for the steps that are left to a call of `Allocate` on its own. -/
def remaining (s : Source α) : Frame α → ℕ
  | .enter node => 2 * (2 * s.size - node) + 1
  | .leafRead node _ => 2 * (2 * s.size - node)
  | .nodeRead node _ => 2 * (2 * s.size - node)
  | _ => 0

omit [DecidableEq α] in
/-- A call on its own that finds no unit fails at the root or goes on with the next node. -/
theorem failAt_alone {s : Source α} {m : Pool α} {v : ℕ} (hv : v < 2 * s.size - 1)
    (hk : (failAt v : Frame α).Knows s) :
    (v = 0 ∧ (failAt v : Frame α) = .failed) ∨
      UpToDate s m (failAt v) ∧ remaining s (failAt v : Frame α) < 2 * (2 * s.size - v) := by
  unfold failAt at hk ⊢
  split
  · rename_i hroot
    exact Or.inl ⟨hroot, rfl⟩
  · rename_i hroot
    rw [if_neg hroot] at hk
    split
    · rename_i hodd
      refine Or.inr ⟨trivial, ?_⟩
      show 2 * (2 * s.size - (2 * ((v - 1) / 2) + 2)) + 1 < 2 * (2 * s.size - v)
      omega
    · rename_i heven
      rw [if_neg heven] at hk
      exact hk.elim

/-- A step of a call on its own: it fails, takes an element or comes closer to that. -/
theorem exec_alone {s : Source α} {m : Pool α} {f : Frame α} {others : Multiset (Frame α)}
    (h : Inv s m (f ::ₘ others)) (hf : UpToDate s m f) :
    (exec s .allocate f m).1.held = m.held ∧
      ((exec s .allocate f m).2 = .failed ∧ units s (exec s .allocate f m).1 0 = 0 ∨
        (∃ e i, (exec s .allocate f m).2 = .allocated e i) ∨
        UpToDate s (exec s .allocate f m).1 (exec s .allocate f m).2 ∧
          remaining s (exec s .allocate f m).2 < remaining s f) := by
  have hnext := (h.exec .allocate).top
  cases f with
  | enter v =>
    obtain ⟨hv, -⟩ : v < 2 * s.size - 1 ∧ 0 < s.weight v := h.top
    have hempty := root_empty_of_failed h (c := .allocate) (fun he => by cases he)
    rw [exec] at hnext hempty ⊢
    split
    · rename_i hleaf
      rw [if_pos hleaf] at hnext hempty
      simp only at hnext hempty ⊢
      split
      · rename_i hundef
        rw [if_pos hundef] at hnext hempty
        refine ⟨rfl, ?_⟩
        rcases failAt_alone (m := m) hv hnext with ⟨-, he⟩ | ⟨hu, hr⟩
        · exact Or.inl ⟨he, hempty he⟩
        · exact Or.inr (Or.inr ⟨hu, hr.trans (Nat.lt_succ_self _)⟩)
      · exact ⟨rfl, Or.inr (Or.inr ⟨rfl, Nat.lt_succ_self _⟩)⟩
    · rename_i hinner
      rw [if_neg hinner] at hnext hempty
      simp only at hnext hempty ⊢
      split
      · rename_i hsmall
        rw [if_pos hsmall] at hnext hempty
        refine ⟨rfl, ?_⟩
        rcases failAt_alone (m := m) hv hnext with ⟨-, he⟩ | ⟨hu, hr⟩
        · exact Or.inl ⟨he, hempty he⟩
        · exact Or.inr (Or.inr ⟨hu, hr.trans (Nat.lt_succ_self _)⟩)
      · exact ⟨rfl, Or.inr (Or.inr ⟨rfl, Nat.lt_succ_self _⟩)⟩
  | leafRead v e =>
    have hcell : m.pool (s.nodeIndexToPoolIndex v) = e := hf
    rw [exec, if_pos hcell]
    exact ⟨rfl, Or.inr (Or.inl ⟨_, _, rfl⟩)⟩
  | nodeRead v current =>
    obtain ⟨hv, -⟩ : v < s.size - 1 ∧ 0 < s.weight v ∧ 1 ≤ current := h.top
    have hcurrent : m.tree v = current := hf
    rw [exec, if_pos hcurrent]
    refine ⟨rfl, Or.inr (Or.inr ⟨trivial, ?_⟩)⟩
    show 2 * (2 * s.size - (2 * v + 1)) + 1 < 2 * (2 * s.size - v)
    omega
  | caller => exact hf.elim
  | allocated e i => exact hf.elim
  | failed => exact hf.elim
  | assertFailed v => exact hf.elim
  | store e i => exact hf.elim
  | climb v => exact hf.elim

/-- A call of `Allocate` on its own fails when no unit is left at the root, and takes an
element otherwise. -/
theorem call_alone {s : Source α} {t : ℕ} {others : Multiset (Frame α)}
    (hq : ∀ g ∈ others, g = .caller) (n : ℕ) :
    ∀ (S : State (Pool α) (Frame α)) (f : Frame α), remaining s f < n → S.top t = some f →
    S.frames = f ::ₘ others → UpToDate s S.mem f → Inv s S.mem S.frames →
    ∃ k, (run (code s) S (List.replicate k (t, .allocate))).top t = some .failed ∧
        S.mem.held.length = s.realSize ∨
      ∃ e i, (run (code s) S (List.replicate k (t, .allocate))).top t = some (.allocated e i) ∧
        S.mem.held.length < s.realSize := by
  induction n with
  | zero => exact fun S f hr => absurd hr (Nat.not_lt_zero _)
  | succ n ih =>
    intro S f hr ht hfr hu hI
    rw [hfr] at hI
    obtain ⟨hheld, hcases⟩ := exec_alone hI hu
    have hI' := hI.exec .allocate
    obtain ⟨others', ho, hm, hfr'⟩ := step_of_top (code s) (e := (t, .allocate)) ht
    rw [hfr, Multiset.cons_inj_right] at ho
    subst ho
    have ht' := top_step (code s) (e := (t, .allocate)) ht rfl
    obtain ⟨hunder, howned, -⟩ := quiet hq (exec s .allocate f S.mem).1
    have htotal := hI'.total
    rcases hcases with ⟨he, hz⟩ | ⟨e, i, he⟩ | ⟨hu', hr'⟩
    · refine ⟨1, Or.inl ⟨?_, ?_⟩⟩
      · rw [← he]
        exact ht'
      · rw [he, hz, owned_cons, howned] at htotal
        simp only [Multiset.countP_cons, hunder, Frame.owns, hheld] at htotal
        simp [Frame.underway, Frame.place] at htotal
        omega
    · refine ⟨1, Or.inr ⟨e, i, ?_, ?_⟩⟩
      · rw [← he]
        exact ht'
      · rw [he, owned_cons, howned] at htotal
        simp only [Multiset.countP_cons, hunder, Frame.owns, hheld] at htotal
        simp [Frame.underway, Frame.place] at htotal
        omega
    · have hstep : (step (code s) S (t, .allocate)).frames =
          (exec s .allocate f S.mem).2 ::ₘ others := hfr'
      obtain ⟨k, hk⟩ := ih (step (code s) S (t, .allocate)) (exec s .allocate f S.mem).2
        (by omega) ht' hstep (hm ▸ hu') (by rw [hm, hstep]; exact hI')
      rw [hm] at hk
      change (_ ∧ (exec s .allocate f S.mem).1.held.length = _ ∨
        ∃ e i, _ ∧ (exec s .allocate f S.mem).1.held.length < _) at hk
      rw [hheld] at hk
      exact ⟨k + 1, hk⟩

/-- A call of `Allocate` that starts while no other is under way, and is not interrupted, fails
exactly when all elements are held. -/
theorem sequential_allocate {s : Source α} {S : State (Pool α) (Frame α)} {t : ℕ}
    (h : Inv s S.mem S.frames) (hq : ∀ f ∈ S.frames, f = .caller) (ht : ∃ f, S.top t = some f) :
    ∃ k, (run (code s) S (List.replicate k (t, .allocate))).top t = some .failed ∧
        S.mem.held.length = s.realSize ∨
      ∃ e i, (run (code s) S (List.replicate k (t, .allocate))).top t = some (.allocated e i) ∧
        S.mem.held.length < s.realSize := by
  obtain ⟨f, ht⟩ := ht
  obtain rfl := hq f (State.mem_frames_of_top ht)
  obtain ⟨others, ho, hm, hfr⟩ := step_of_top (code s) (e := (t, .allocate)) ht
  have hfr' : (step (code s) S (t, .allocate)).frames = .enter 0 ::ₘ others := hfr
  have hm' : (step (code s) S (t, .allocate)).mem = S.mem := hm
  have hI : Inv s S.mem (.enter 0 ::ₘ others) := by
    rw [ho] at h
    exact h.exec .allocate
  obtain ⟨k, hk⟩ := call_alone (fun g hg => hq g (ho ▸ Multiset.mem_cons_of_mem hg)) _
    (step (code s) S (t, .allocate)) (.enter 0) (Nat.lt_succ_self _)
    (top_step (code s) (e := (t, .allocate)) ht rfl) hfr' trivial (by rw [hm', hfr']; exact hI)
  rw [hm'] at hk
  exact ⟨k + 1, hk⟩

/-- In every state of every run, no index is in two hands. `Allocate` turns out to fail only
where all elements are allocated, or on their way out of or into the tree, and on its own
exactly when all are held. While no call is under way, the root counts the available cells,
which together with the held pairs make up the elements of the source. -/
theorem keeps_elements (s : Source α) (cells : ℕ → α) (counters : ℕ → ℤ) (threads : ℕ)
    (es : List (ℕ × Choice)) :
    ∃ S, run (code s) (boot s cells counters threads) es = S ∧
      ((owned S.mem S.frames).map Prod.snd).Nodup ∧
      (∀ q ∈ owned S.mem S.frames, s.elements[q.2]? = some q.1) ∧
      (∀ t c, (step (code s) S (t, c)).top t = some .failed → S.top t ≠ some .failed →
        s.realSize = S.frames.countP (fun f => f.underway = true) +
          (owned S.mem S.frames).card) ∧
      ((∀ f ∈ S.frames, f = .caller) →
        (∀ t < threads, ∃ k,
          (run (code s) S (List.replicate k (t, .allocate))).top t = some .failed ∧
              S.mem.held.length = s.realSize ∨
            ∃ e i,
              (run (code s) S (List.replicate k (t, .allocate))).top t =
                  some (.allocated e i) ∧
                S.mem.held.length < s.realSize) ∧
        (0 < s.treeSize → S.mem.tree 0 = (available s S.mem).card) ∧
        (s.elements : Multiset α) =
          (available s S.mem).map S.mem.pool + (S.mem.held.map Prod.fst : List α)) := by
  have h := inv_run s cells counters threads es
  refine ⟨_, rfl, h.nodup, fun q hq => (h.owned_cell q hq).1, fun t c hfail hbefore => ?_,
    fun hq => ⟨fun t ht => ?_, tree_root h hq, elements_conserved h hq⟩⟩
  · obtain ⟨f, hf⟩ : ∃ f, (run (code s) (boot s cells counters threads) es).top t = some f := by
      by_contra hn
      have hnone := Option.eq_none_iff_forall_ne_some.mpr fun f hf => hn ⟨f, hf⟩
      rw [step_of_top_none (code s) (e := (t, c)) hnone, hnone] at hfail
      cases hfail
    obtain ⟨others, ho, -, -⟩ := step_of_top (code s) (e := (t, c)) hf
    have hnext := top_step (code s) (e := (t, c)) hf rfl
    rw [hfail, Option.some_inj] at hnext
    rw [ho] at h ⊢
    exact total_of_failed h (fun he => hbefore (he ▸ hf)) hnext.symm
  · refine sequential_allocate h hq (exists_top_run (fun _ c f m => ⟨_, rfl⟩) ?_ es)
    refine ⟨.caller, ?_⟩
    rw [State.top, boot, List.getElem?_replicate, if_pos ht]
    rfl

end Invariant

end Embb.Containers.LockFreeTreeValuePool
