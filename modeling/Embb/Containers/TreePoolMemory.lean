import Embb.Containers.LockFreeTreeValuePool

/-!
# The memory of the lock-free tree value pool

The constructor leaves the counters of unused subtrees as it finds them, and the array of
cells ends with the last element. No call ever comes to such a counter, or to a cell beyond
the end: a walk down the tree only turns to nodes that have elements below them.
-/

namespace Embb.Containers.LockFreeTreeValuePool

open HeapTree Threads

variable {α : Type}

/-! ## The places -/

/-- A place in one of the two arrays. -/
inductive Location
  | counter (node : ℕ)
  | cell (index : ℕ)
  deriving DecidableEq, Repr

/-- The counters that `Fill` stores to. -/
def stores (s : Source α) : (fuel node elementsToStore power2Value : ℕ) → List ℕ
  | 0, _, _, _ => []
  | fuel + 1, node, elementsToStore, power2Value =>
    if s.isLeaf node then []
    else
      let postPower2Value := power2Value / 2
      if elementsToStore ≤ postPower2Value then
        node :: stores s fuel (getLeftChildIndex node) elementsToStore postPower2Value
      else
        node :: (stores s fuel (getLeftChildIndex node) postPower2Value postPower2Value ++
          stores s fuel (getRightChildIndex node) (elementsToStore - postPower2Value)
            postPower2Value)

/-- What the constructor initialises: the counters that `Fill` stores to, and the cells of the
array. -/
def Source.Initialised (s : Source α) : Location → Prop
  | .counter node => node ∈ stores s s.size 0 s.realSize s.size
  | .cell index => index < s.realSize

/-- The place that the next step of a thread reads or updates, if there is one. -/
def Frame.touches (s : Source α) : Frame α → Option Location
  | .enter node =>
    some (if s.isLeaf node then .cell (s.nodeIndexToPoolIndex node) else .counter node)
  | .leafRead node _ => some (.cell (s.nodeIndexToPoolIndex node))
  | .nodeRead node _ => some (.counter node)
  | .store _ index => some (.cell index)
  | .climb node => if node = 0 then none else some (.counter (getParentNode node))
  | _ => none

/-- Two pools hold the same at a place. -/
def Location.Agrees (m m' : Pool α) : Location → Prop
  | .counter node => m.tree node = m'.tree node
  | .cell index => m.pool index = m'.pool index

/-! ## What `Fill` stores -/

section Fill

variable (s : Source α)

/-- The counters that `Fill` stores to get values that do not depend on the memory before. -/
theorem fill_of_mem (fuel : ℕ) :
    ∀ (node elements power v : ℕ) (tree tree' : ℕ → ℤ),
    v ∈ stores s fuel node elements power ∨ tree v = tree' v →
    fill s fuel node elements power tree v = fill s fuel node elements power tree' v := by
  induction fuel with
  | zero => exact fun _ _ _ _ _ _ h => h.resolve_left List.not_mem_nil
  | succ fuel ih =>
    intro node elements power v tree tree' h
    simp only [fill, stores] at h ⊢
    by_cases hleaf : s.isLeaf node
    · simp only [if_pos hleaf] at h ⊢
      exact h.resolve_left List.not_mem_nil
    have hself : v = node ∨ tree v = tree' v →
        Function.update tree node elements v =
          Function.update tree' node (elements : ℤ) v := by
      intro hv
      rcases eq_or_ne v node with rfl | hne
      · rw [Function.update_self, Function.update_self]
      · rw [Function.update_of_ne hne, Function.update_of_ne hne]
        exact hv.resolve_left hne
    simp only [if_neg hleaf] at h ⊢
    by_cases hsmall : elements ≤ power / 2
    · simp only [if_pos hsmall, List.mem_cons] at h ⊢
      apply ih
      tauto
    · simp only [if_neg hsmall, List.mem_cons, List.mem_append] at h ⊢
      apply ih
      by_cases hr : v ∈ stores s fuel (getRightChildIndex node) (elements - power / 2) (power / 2)
      · exact Or.inl hr
      · refine Or.inr (ih _ _ _ _ _ _ ?_)
        tauto

/-- `Fill` stores to every node that has elements below it. -/
theorem mem_stores (height : ℕ) :
    ∀ (fuel v b w : ℕ), height < fuel → s.Spot height v b → 0 < s.weight v → Below v w →
    w < s.size - 1 → 0 < s.weight w → w ∈ stores s fuel v (s.weight v) (2 ^ height) := by
  induction height with
  | zero =>
    intro fuel v b w _ hs _ hb hw _
    obtain ⟨h₁, h₂⟩ := hs
    rw [pow_zero] at h₁ h₂
    have hle := le_of_below hb
    omega
  | succ height ih =>
    intro fuel v b w hf hs hpos hb hw hwpos
    obtain ⟨fuel, rfl⟩ : ∃ n, fuel = n + 1 := ⟨fuel - 1, by omega⟩
    have hinner := hs.inner
    have hhalf : 2 ^ (height + 1) / 2 = 2 ^ height := by
      rw [pow_succ]
      omega
    have hlpos := Source.weight_left_pos hinner hpos
    rw [stores, if_neg (fun hleaf => ((Source.isLeaf_iff (by omega)).mp hleaf) hinner)]
    simp only [hhalf, getLeftChildIndex, getRightChildIndex]
    have hleft := ih fuel (2 * v + 1) b w (by omega) hs.left hlpos
    split
    · rename_i hsmall
      obtain ⟨hwl, hwr⟩ := hs.weights_of_le hsmall
      rw [hwl] at hleft
      rcases below_cases hb with rfl | hb | hb
      · exact List.mem_cons_self
      · exact List.mem_cons_of_mem _ (hleft hb hw hwpos)
      · -- The right subtree has no elements.
        have hle := Source.weight_le_of_below (s := s) (by omega) hb
        omega
    · rename_i hlarge
      obtain ⟨hwl, hwr⟩ := hs.weights_of_lt (Nat.lt_of_not_le hlarge)
      rw [hwl] at hleft
      rcases below_cases hb with rfl | hb | hb
      · exact List.mem_cons_self
      · exact List.mem_cons_of_mem _ (List.mem_append_left _ (hleft hb hw hwpos))
      · have hright := ih fuel (2 * v + 2) _ w (by omega) hs.right (by omega) hb hw hwpos
        rw [hwr] at hright
        exact List.mem_cons_of_mem _ (List.mem_append_right _ hright)

variable {s}

/-- The counter of a node with elements below it is initialised. -/
theorem initialised_counter {v : ℕ} (hv : v < s.size - 1) (hw : 0 < s.weight v) :
    s.Initialised (.counter v) := by
  obtain ⟨k, hk, -⟩ := s.size_eq
  have hs : s.Spot k 0 0 := ⟨by omega, by omega⟩
  have hk' : k < s.size := by
    rw [hk]
    exact Nat.lt_two_pow_self
  have h := mem_stores s k s.size 0 0 v hk' hs
    (hw.trans_le (Source.weight_le_of_below (by omega) (below_root v))) (below_root v) hv hw
  rw [Source.weight_root] at h
  rwa [← hk] at h

/-- The cell of a leaf with an element below it is one of the array. -/
theorem initialised_cell {v : ℕ} (hv : ¬ v < s.size - 1) (hw : 0 < s.weight v) :
    s.Initialised (.cell (s.nodeIndexToPoolIndex v)) := by
  rw [Source.weight, if_neg hv] at hw
  unfold Source.Initialised Source.nodeIndexToPoolIndex
  by_contra hn
  rw [if_neg hn] at hw
  exact absurd hw (lt_irrefl 0)

theorem initialised_element {i : ℕ} {e : α} (h : s.elements[i]? = some e) :
    s.Initialised (.cell i) :=
  (List.getElem?_eq_some_iff.mp h).1

end Fill

/-! ## What the steps touch -/

section Steps

variable [DecidableEq α] (s : Source α)

omit [DecidableEq α] in
/-- Storing to the same cell of two pools. -/
theorem Location.Agrees.store {m m' : Pool α} {place : Location} (h : place.Agrees m m')
    (i : ℕ) (x : α) :
    place.Agrees { m with pool := Function.update m.pool i x }
      { m' with pool := Function.update m'.pool i x } := by
  cases place with
  | counter node => exact h
  | cell index =>
    show Function.update m.pool i x index = Function.update m'.pool i x index
    rcases eq_or_ne index i with rfl | hne
    · rw [Function.update_self, Function.update_self]
    · rw [Function.update_of_ne hne, Function.update_of_ne hne]
      exact h

omit [DecidableEq α] in
/-- Storing to the same counter of two pools. -/
theorem Location.Agrees.count {m m' : Pool α} {place : Location} (h : place.Agrees m m')
    (v : ℕ) (x : ℤ) :
    place.Agrees { m with tree := Function.update m.tree v x }
      { m' with tree := Function.update m'.tree v x } := by
  cases place with
  | cell index => exact h
  | counter node =>
    show Function.update m.tree v x node = Function.update m'.tree v x node
    rcases eq_or_ne node v with rfl | hne
    · rw [Function.update_self, Function.update_self]
    · rw [Function.update_of_ne hne, Function.update_of_ne hne]
      exact h

/-- A step depends on the place that it touches only. -/
theorem exec_agrees (c : Choice) {f : Frame α} {m m' : Pool α} (hheld : m.held = m'.held)
    (h : ∀ place ∈ f.touches s, Location.Agrees m m' place) :
    (exec s c f m).2 = (exec s c f m').2 ∧
      (exec s c f m).1.held = (exec s c f m').1.held ∧
      ∀ place : Location, place.Agrees m m' →
        place.Agrees (exec s c f m).1 (exec s c f m').1 := by
  cases f with
  | caller =>
    cases c with
    | allocate => exact ⟨rfl, hheld, fun _ hp => hp⟩
    | free pair =>
      simp only [exec, ← hheld]
      cases m.held[pair]? with
      | none => exact ⟨rfl, hheld, fun _ hp => hp⟩
      | some pair => exact ⟨rfl, rfl, fun place hp => by cases place <;> exact hp⟩
  | enter v =>
    have hv := h _ rfl
    simp only [exec]
    split at hv
    · rename_i hleaf
      have hcell : m.pool (s.nodeIndexToPoolIndex v) = m'.pool (s.nodeIndexToPoolIndex v) := hv
      rw [if_pos hleaf, if_pos hleaf, hcell]
      split
      · exact ⟨rfl, hheld, fun _ hp => hp⟩
      · exact ⟨rfl, hheld, fun _ hp => hp⟩
    · rename_i hinner
      have hcounter : m.tree v = m'.tree v := hv
      rw [if_neg hinner, if_neg hinner, hcounter]
      split
      · exact ⟨rfl, hheld, fun _ hp => hp⟩
      · exact ⟨rfl, hheld, fun _ hp => hp⟩
  | leafRead v e =>
    have hcell : m.pool (s.nodeIndexToPoolIndex v) = m'.pool (s.nodeIndexToPoolIndex v) :=
      h _ rfl
    simp only [exec, hcell]
    split
    · exact ⟨rfl, hheld, fun _ hp => hp.store _ _⟩
    · exact ⟨rfl, hheld, fun _ hp => hp⟩
  | nodeRead v current =>
    have hcounter : m.tree v = m'.tree v := h _ rfl
    simp only [exec, hcounter]
    split
    · exact ⟨rfl, hheld, fun _ hp => hp.count _ _⟩
    · exact ⟨rfl, hheld, fun _ hp => hp⟩
  | allocated e i =>
    simp only [exec, hheld]
    exact ⟨trivial, trivial, fun place hp => by cases place <;> exact hp⟩
  | failed => exact ⟨rfl, hheld, fun _ hp => hp⟩
  | assertFailed v => exact ⟨rfl, hheld, fun _ hp => hp⟩
  | store e i => exact ⟨rfl, hheld, fun _ hp => hp.store _ _⟩
  | climb v =>
    simp only [Frame.touches] at h
    simp only [exec]
    split at h
    · rename_i hroot
      rw [if_pos hroot, if_pos hroot]
      exact ⟨rfl, hheld, fun _ hp => hp⟩
    · rename_i hroot
      have hcounter : m.tree (getParentNode v) = m'.tree (getParentNode v) := h _ rfl
      rw [if_neg hroot, if_neg hroot, hcounter]
      exact ⟨rfl, hheld, fun _ hp => hp.count _ _⟩

omit [DecidableEq α] in
/-- What is known of a frame is enough for the place that it touches. -/
theorem touches_of_knows {s : Source α} {f : Frame α} (h : f.Knows s) :
    ∀ place ∈ f.touches s, s.Initialised place := by
  intro place hp
  cases f with
  | enter v =>
    obtain ⟨hv, hw⟩ := h
    cases hp
    split
    · rename_i hleaf
      exact initialised_cell ((Source.isLeaf_iff hv).mp hleaf) hw
    · rename_i hinner
      exact initialised_counter (not_not.mp fun hc => hinner ((Source.isLeaf_iff hv).mpr hc)) hw
  | leafRead v e =>
    obtain ⟨-, -, -, he⟩ := h
    cases hp
    exact initialised_element he
  | nodeRead v current =>
    obtain ⟨hv, hw, -⟩ := h
    cases hp
    exact initialised_counter hv hw
  | store e i =>
    cases hp
    exact initialised_element h
  | climb v =>
    obtain ⟨hv, hw⟩ := h
    simp only [Frame.touches] at hp
    split at hp
    · cases hp
    rename_i hroot
    cases hp
    have hpar : (v - 1) / 2 < s.size - 1 := by omega
    exact initialised_counter hpar (hw.trans_le (Source.weight_le_parent hroot hpar))
  | caller => cases hp
  | allocated e i => cases hp
  | failed => cases hp
  | assertFailed v => cases hp

/-- In every state of every run, whatever number of elements the pool has, the next step of
every thread touches a counter that the constructor has stored to, or a cell of the array, or
nothing. -/
theorem touches_initialised (s : Source α) (cells : ℕ → α) (counters : ℕ → ℤ) (threads : ℕ)
    (es : List (ℕ × Choice)) :
    ∀ f ∈ (run (code s) (boot s cells counters threads) es).frames,
      ∀ place ∈ f.touches s, s.Initialised place :=
  fun f hf => touches_of_knows ((inv_run s cells counters threads es).knows f hf)

/-- Three elements: the root counts them all, and its right child only one. -/
def threeElements : Source ℕ where
  undefined := 0
  elements := [5, 6, 7]
  elements_ne := List.cons_ne_nil _ _
  defined := by decide

/-- The first load of a call reads the counter of the root. -/
theorem touches_initialised_root : threeElements.Initialised (.counter 0) :=
  touches_initialised threeElements (fun _ => 9) (fun _ => 9) 1 [(0, .allocate)] (.enter 0)
    (State.mem_frames_of_top (t := 0) rfl) (.counter 0) rfl

/-- Two pools of the same source cannot be told apart, whatever their memory held before: the
threads do the same in both. -/
theorem memory_irrelevant (s : Source α) (cells cells' : ℕ → α) (counters counters' : ℕ → ℤ)
    (threads : ℕ) (es : List (ℕ × Choice)) :
    (run (code s) (boot s cells counters threads) es).callStacks =
        (run (code s) (boot s cells' counters' threads) es).callStacks ∧
      (run (code s) (boot s cells counters threads) es).mem.held =
        (run (code s) (boot s cells' counters' threads) es).mem.held ∧
      ∀ place, s.Initialised place → place.Agrees
        (run (code s) (boot s cells counters threads) es).mem
        (run (code s) (boot s cells' counters' threads) es).mem := by
  induction es using List.reverseRecOn with
  | nil =>
    refine ⟨rfl, rfl, fun place hp => ?_⟩
    cases place with
    | counter node => exact fill_of_mem s _ _ _ _ _ _ _ (Or.inl hp)
    | cell index =>
      show s.elements[index]?.getD (cells index) = s.elements[index]?.getD (cells' index)
      rw [List.getElem?_eq_getElem hp]
      rfl
  | append_singleton es e ih =>
    obtain ⟨hstacks, hheld, hagree⟩ := ih
    have htouch := touches_initialised s cells counters threads es
    rw [run_append, run_append]
    generalize run (code s) (boot s cells counters threads) es = S at *
    generalize run (code s) (boot s cells' counters' threads) es = S' at *
    simp only [run_cons, run_nil]
    have htop : S'.top e.1 = S.top e.1 := by rw [State.top, State.top, hstacks]
    cases hf : S.top e.1 with
    | none =>
      rw [step_of_top_none _ hf, step_of_top_none _ (htop.trans hf)]
      exact ⟨hstacks, hheld, hagree⟩
    | some f =>
      obtain ⟨hframe, hheld', hagree'⟩ := exec_agrees s e.2 hheld fun place hp =>
        hagree place (htouch f (State.mem_frames_of_top hf) place hp)
      rw [mem_step (code s) hf, mem_step (code s) (htop.trans hf)]
      refine ⟨?_, hheld', fun place hp => hagree' place (hagree place hp)⟩
      obtain ⟨st, hst, hhead⟩ := Option.bind_eq_some_iff.mp hf
      cases st with
      | nil => cases hhead
      | cons f₀ rest =>
        cases hhead
        simp only [step, ← hstacks, hst, code, hframe]

end Steps

end Embb.Containers.LockFreeTreeValuePool
