import Mathlib.Data.Nat.Log
import Embb.Containers.LockFreeTreeValuePool
import Embb.Lib.Attempts

/-!
# Progress of the lock-free tree value pool

A call of `Allocate` walks down the tree, past at most two nodes on every level, and a call of
`Free` walks up. A call reads a counter again only where another thread has changed it in between,
and a call changes at most one counter on every level.
-/

namespace Embb.Containers.LockFreeTreeValuePool

open Threads

variable {α : Type}

/-- The number of levels below the root. -/
def Source.levels (s : Source α) : ℕ := Nat.log 2 s.size

/-- The level of a node. -/
def depth (node : ℕ) : ℕ := Nat.log 2 (node + 1)

theorem depth_left (node : ℕ) : depth (getLeftChildIndex node) = depth node + 1 := by
  have he : getLeftChildIndex node + 1 = (node + 1) * 2 := by
    unfold getLeftChildIndex
    omega
  rw [depth, he, Nat.log_mul_base Nat.one_lt_two (Nat.succ_ne_zero node), depth]

theorem depth_parent {node : ℕ} (h : node ≠ 0) : depth (getParentNode node) + 1 = depth node := by
  have he : getParentNode node + 1 = (node + 1) / 2 := by
    unfold getParentNode
    omega
  have hlt : 1 < node + 1 := by omega
  have hpos : 1 ≤ Nat.log 2 (node + 1) := Nat.log_pos Nat.one_lt_two hlt
  rw [depth, he, Nat.log_div_base, depth]
  omega

theorem depth_right {node : ℕ} (h : node ≠ 0) :
    depth (getRightChildIndex (getParentNode node)) = depth node := by
  have hne : getRightChildIndex (getParentNode node) ≠ 0 := Nat.succ_ne_zero _
  have hp := depth_parent hne
  have he : getParentNode (getRightChildIndex (getParentNode node)) = getParentNode node := by
    unfold getRightChildIndex getParentNode
    omega
  rw [he, depth_parent h] at hp
  exact hp.symm

theorem Source.size_eq_levels (s : Source α) : s.size = 2 ^ s.levels := by
  obtain ⟨k, hk, -⟩ := s.size_eq
  rw [levels, hk, Nat.log_pow Nat.one_lt_two]

theorem depth_le {s : Source α} {node : ℕ} (h : node < 2 * s.size - 1) : depth node ≤ s.levels := by
  have hlt : node + 1 < 2 ^ (s.levels + 1) := by
    rw [pow_succ, ← s.size_eq_levels]
    omega
  exact Nat.lt_succ_iff.mp (Nat.log_lt_of_lt_pow (Nat.succ_ne_zero node) hlt)

theorem depth_lt {s : Source α} {node : ℕ} (h : node < s.size - 1) : depth node < s.levels := by
  have hlt : node + 1 < 2 ^ s.levels := by
    rw [← s.size_eq_levels]
    omega
  exact Nat.log_lt_of_lt_pow (Nat.succ_ne_zero node) hlt

theorem le_depth {s : Source α} {node : ℕ} (h : s.size - 1 ≤ node) : s.levels ≤ depth node := by
  have hle : 2 ^ s.levels ≤ node + 1 := by
    rw [← s.size_eq_levels]
    omega
  exact Nat.le_log_of_pow_le Nat.one_lt_two hle

/-- The swap of a counter fails, and the counter is read again. -/
def fails : Choice → Frame α → Pool α → Bool
  | _, .nodeRead node current, m => decide (m.tree node ≠ current)
  | _, _, _ => false

/-- A counter is changed. -/
def changes : Choice → Frame α → Pool α → Bool
  | _, .nodeRead node current, m => decide (m.tree node = current)
  | _, .climb node, _ => decide (node ≠ 0)
  | _, _, _ => false

/-- What a call has read of a counter is not there any more. -/
def stale (m : Pool α) : Frame α → Bool
  | .nodeRead node current => decide (m.tree node ≠ current)
  | _ => false

/-- A call of `Allocate`, or of `Free` with a pair that is held. -/
def calls : Choice → Frame α → Pool α → Bool
  | .allocate, .caller, _ => true
  | .free pair, .caller, m => m.held[pair]?.isSome
  | _, _, _ => false

/-- The steps of the calls. -/
def inPool : Choice → Frame α → Pool α → Bool
  | _, .caller, _ => false
  | _, .assertFailed _, _ => false
  | _, _, _ => true

/-- A bound for the steps that are left to a call that swaps no counter in vain: four on every
level below, and two more at a left child, whose sibling may come next. -/
def rank (s : Source α) : Frame α → ℕ
  | .enter node => 4 * (s.levels - depth node) + 3 + 2 * (node % 2)
  | .leafRead node _ => 4 * (s.levels - depth node) + 2 + 2 * (node % 2)
  | .nodeRead node _ => 4 * (s.levels - depth node) + 2 + 2 * (node % 2)
  | .allocated _ _ => 1
  | .failed => 1
  | .store _ _ => s.levels + 2
  | .climb node => depth node + 1
  | _ => 0

/-- The levels on which a call may still change a counter. -/
def levelsLeft (s : Source α) : Frame α → ℕ
  | .enter node => s.levels - depth node
  | .nodeRead node _ => s.levels - depth node
  | .store _ _ => s.levels
  | .climb node => depth node
  | _ => 0

theorem rank_enter (s : Source α) (node : ℕ) :
    rank s (.enter node : Frame α) = 4 * (s.levels - depth node) + 3 + 2 * (node % 2) := rfl

theorem rank_leafRead (s : Source α) (node : ℕ) (expected : α) :
    rank s (.leafRead node expected) = 4 * (s.levels - depth node) + 2 + 2 * (node % 2) := rfl

theorem levelsLeft_enter (s : Source α) (node : ℕ) :
    levelsLeft s (.enter node : Frame α) = s.levels - depth node := rfl

theorem stale_failAt (m : Pool α) (node : ℕ) : stale m (failAt node) = false := by
  unfold failAt
  split_ifs <;> rfl

theorem stale_congr {m m' : Pool α} (h : m'.tree = m.tree) (f : Frame α) :
    stale m' f = stale m f := by
  cases f <;> simp only [stale, h]

/-- A call that finds nothing at a node is over, or comes to the sibling on the right. -/
theorem rank_failAt {s : Source α} {node : ℕ} (h : (failAt node : Frame α).Knows s) :
    rank s (failAt node : Frame α) + 1 ≤
      4 * (s.levels - depth node) + 2 + 2 * (node % 2) := by
  unfold failAt at h ⊢
  split_ifs at h ⊢ with h0 hodd
  · simp only [rank]
    omega
  · have hd := depth_right h0
    have heven : getRightChildIndex (getParentNode node) % 2 = 0 := by
      unfold getRightChildIndex
      omega
    simp only [rank, hd, heven, hodd]
    omega
  · exact h.elim

theorem levelsLeft_failAt (s : Source α) (node : ℕ) :
    levelsLeft s (failAt node : Frame α) ≤ s.levels - depth node := by
  unfold failAt
  split_ifs with h0 hodd
  · exact Nat.zero_le _
  · simp only [levelsLeft, depth_right h0, le_refl]
  · exact Nat.zero_le _

variable [DecidableEq α]

/-- The other steps leave the counters alone. -/
theorem tree_exec (s : Source α) (c : Choice) (f : Frame α) (m : Pool α)
    (h : changes c f m = false) : (exec s c f m).1.tree = m.tree := by
  cases f with
  | caller =>
    cases c with
    | allocate => rfl
    | free pair =>
      simp only [exec]
      split <;> rfl
  | enter node =>
    simp only [exec]
    split_ifs <;> rfl
  | leafRead node expected =>
    simp only [exec]
    split <;> rfl
  | nodeRead node current =>
    have hne : m.tree node ≠ current := of_decide_eq_false h
    simp only [exec, if_neg hne]
  | climb node =>
    have hroot : node = 0 := by
      by_contra hne
      exact of_decide_eq_false h hne
    simp only [exec, if_pos hroot]
  | _ => rfl

/-- What a call has read of a counter goes stale by the changes of others, and it reads again. -/
theorem retries (s : Source α) : Retries (fun _ => exec s) fails changes stale where
  own t c f m := by
    cases f with
    | caller =>
      cases c with
      | allocate => exact Nat.le_refl _
      | free pair =>
        simp only [exec]
        split <;> exact Nat.le_refl _
    | enter node =>
      simp only [exec]
      split_ifs
      · rw [stale_failAt]
        exact Nat.le_refl _
      · exact Nat.le_refl _
      · rw [stale_failAt]
        exact Nat.le_refl _
      · simp only [fails, stale, ne_eq, not_true_eq_false, decide_false, Bool.toNat_false,
          Nat.le_refl]
    | leafRead node expected =>
      simp only [exec]
      split_ifs
      · exact Nat.le_refl _
      · rw [stale_failAt]
        exact Nat.le_refl _
    | nodeRead node current =>
      by_cases h : m.tree node = current
      · simp only [exec, if_pos h]
        exact Nat.le_refl _
      · simp only [exec, if_neg h]
        exact Nat.le_refl _
    | climb node =>
      simp only [exec]
      split_ifs <;> exact Nat.le_refl _
    | _ => exact Nat.le_refl _
  others t c f m g := by
    cases h : changes c f m with
    | false =>
      rw [stale_congr (tree_exec s c f m h)]
      exact Nat.le_add_right _ _
    | true => exact (Bool.toNat_le _).trans (Nat.le_add_left 1 _)

section Steps

variable {s : Source α} {m : Pool α} {f : Frame α} {others : Multiset (Frame α)}

omit [DecidableEq α] in
theorem depth_store {e : α} {i : ℕ} (h : s.elements[i]? = some e) :
    depth (s.poolIndexToNodeIndex i) ≤ s.levels := by
  have hi : i < s.realSize := (List.getElem?_eq_some_iff.mp h).1
  have hle := s.realSize_le
  apply depth_le
  unfold Source.poolIndexToNodeIndex
  omega

/-- Every step of a call comes closer to its end, but for those that swap a counter in vain. -/
theorem rank_exec (h : Inv s m (f ::ₘ others)) (c : Choice) :
    (inPool c f m).toNat + rank s (exec s c f m).2 ≤
      rank s f + (4 * s.levels + 3) * (calls c f m).toNat + 2 * (fails c f m).toNat := by
  have hnext := (h.exec c).top
  have htop := h.top
  cases f with
  | caller =>
    cases c with
    | allocate =>
      simp only [exec, inPool, rank, calls, fails, Bool.toNat_false, Bool.toNat_true]
      omega
    | free pair =>
      simp only [exec, inPool, calls, fails]
      cases m.held[pair]? with
      | none => exact Nat.zero_le _
      | some q =>
        simp only [rank, Option.isSome_some, Bool.toNat_false, Bool.toNat_true]
        omega
  | enter node =>
    simp only [exec] at hnext ⊢
    split_ifs at hnext ⊢
    · have hr := rank_failAt hnext
      simp only [inPool, rank_enter, calls, fails, Bool.toNat_false, Bool.toNat_true]
      omega
    · simp only [inPool, rank, calls, fails, Bool.toNat_false, Bool.toNat_true]
      omega
    · have hr := rank_failAt hnext
      simp only [inPool, rank_enter, calls, fails, Bool.toNat_false, Bool.toNat_true]
      omega
    · simp only [inPool, rank, calls, fails, Bool.toNat_false, Bool.toNat_true]
      omega
  | leafRead node expected =>
    simp only [exec] at hnext ⊢
    split_ifs at hnext ⊢
    · simp only [inPool, rank, calls, fails, Bool.toNat_false, Bool.toNat_true]
      omega
    · have hr := rank_failAt hnext
      simp only [inPool, rank_leafRead, calls, fails, Bool.toNat_false, Bool.toNat_true]
      omega
  | nodeRead node current =>
    by_cases hcurrent : m.tree node = current
    · have hlt := depth_lt htop.1
      have hodd : getLeftChildIndex node % 2 = 1 := by
        unfold getLeftChildIndex
        omega
      rw [exec, if_pos hcurrent]
      simp only [inPool, rank, calls, fails, hcurrent, ne_eq, not_true_eq_false, decide_false,
        Bool.toNat_false, Bool.toNat_true, depth_left, hodd]
      omega
    · rw [exec, if_neg hcurrent]
      simp only [inPool, rank, calls, fails, hcurrent, ne_eq, not_false_eq_true, decide_true,
        Bool.toNat_false, Bool.toNat_true]
      omega
  | store e i =>
    have hle := depth_store htop
    simp only [exec, inPool, rank, calls, fails, Bool.toNat_false, Bool.toNat_true]
    omega
  | climb node =>
    by_cases hroot : node = 0
    · rw [exec, if_pos hroot]
      simp only [inPool, rank, calls, fails, Bool.toNat_false, Bool.toNat_true]
      omega
    · have hd := depth_parent hroot
      rw [exec, if_neg hroot]
      simp only [inPool, rank, calls, fails, Bool.toNat_false, Bool.toNat_true]
      omega
  | allocated e i | failed =>
    simp only [exec, inPool, rank, calls, fails, Bool.toNat_false, Bool.toNat_true]
    omega
  | assertFailed node => exact Nat.zero_le _

/-- A call changes at most one counter on every level. -/
theorem levelsLeft_exec (h : Inv s m (f ::ₘ others)) (c : Choice) :
    (changes c f m).toNat + levelsLeft s (exec s c f m).2 ≤
      levelsLeft s f + s.levels * (calls c f m).toNat := by
  have htop := h.top
  cases f with
  | caller =>
    cases c with
    | allocate =>
      simp only [exec, changes, levelsLeft, calls, Bool.toNat_false, Bool.toNat_true]
      omega
    | free pair =>
      simp only [exec, changes, calls]
      cases m.held[pair]? with
      | none => exact Nat.zero_le _
      | some q =>
        simp only [levelsLeft, Option.isSome_some, Bool.toNat_false, Bool.toNat_true]
        omega
  | enter node =>
    have hfail := levelsLeft_failAt s node
    simp only [exec]
    split_ifs
    · simp only [changes, levelsLeft_enter, calls, Bool.toNat_false]
      omega
    · exact Nat.zero_le _
    · simp only [changes, levelsLeft_enter, calls, Bool.toNat_false]
      omega
    · simp only [changes, levelsLeft, calls, Bool.toNat_false]
      omega
  | leafRead node expected =>
    have hfail := levelsLeft_failAt s node
    have hdepth := le_depth htop.2.2.1
    simp only [exec]
    split_ifs
    · exact Nat.zero_le _
    · simp only [changes, calls, Bool.toNat_false]
      omega
  | nodeRead node current =>
    by_cases hcurrent : m.tree node = current
    · have hlt := depth_lt htop.1
      rw [exec, if_pos hcurrent]
      simp only [changes, hcurrent, levelsLeft, calls, Bool.toNat_false, decide_true,
        Bool.toNat_true, depth_left]
      omega
    · rw [exec, if_neg hcurrent]
      simp only [changes, levelsLeft, calls, hcurrent, decide_false, Bool.toNat_false]
      omega
  | store e i =>
    have hle := depth_store htop
    simp only [exec, changes, levelsLeft, calls, Bool.toNat_false]
    omega
  | climb node =>
    by_cases hroot : node = 0
    · rw [exec, if_pos hroot]
      simp only [changes, levelsLeft, calls, hroot, ne_eq, not_true_eq_false, decide_false,
        Bool.toNat_false]
      omega
    · have hd := depth_parent hroot
      rw [exec, if_neg hroot]
      simp only [changes, levelsLeft, calls, hroot, ne_eq, not_false_eq_true, decide_true,
        Bool.toNat_false, Bool.toNat_true]
      omega
  | _ => exact Nat.zero_le _

end Steps

/-- In every run, a thread swaps a counter in vain at most once for every level of the tree and
every call of the other threads; its steps inside the pool are at most four for every level and
three more for each of its own calls, and two for each of these; and all threads together swap in
vain at most once for each other thread, every level and every call. -/
theorem tree_pool_lock_free (s : Source α) (cells : ℕ → α) (counters : ℕ → ℤ) (threads : ℕ)
    (es : List (ℕ × Choice)) :
    let new := boot s cells counters threads
    (∀ t, count (code s) (own t fails) new es ≤
        s.levels * count (code s) (others t calls) new es ∧
      count (code s) (own t inPool) new es ≤
        (4 * s.levels + 3) * count (code s) (own t calls) new es +
          2 * (s.levels * count (code s) (others t calls) new es)) ∧
    count (code s) (fun _ => fails) new es ≤
      (threads - 1) * (s.levels * count (code s) (fun _ => calls) new es) := by
  intro new
  have hj : Jumps (code s) (fun _ => exec s) := fun _ _ _ _ => rfl
  have hg : Always (code s) (fun _ _ _ _ _ => True) new es :=
    Always.of_forall (fun _ _ _ _ _ => trivial) new es
  have hi : Inv s new.mem new.frames := inv_boot s cells counters threads
  have htop : ∀ t < threads, new.top t = some .caller := fun t ht =>
    top_replicate _ _ ht
  have hnone : ∀ t, threads ≤ t → new.top t = none := fun t ht =>
    top_replicate_of_le _ _ ht
  have hchanges : ∀ t, count (code s) (own t changes) new es ≤
      s.levels * count (code s) (own t calls) new es := by
    intro t
    rcases Nat.lt_or_ge t threads with ht | ht
    · have hsteps := calls_le_of_inv (inv_preserved s) hj
        (fun _ c _ _ _ h => levelsLeft_exec h c) (htop t ht) hg hi
      exact hsteps.trans_eq (Nat.zero_add _)
    · rw [count_own_of_none _ (hnone t ht)]
      exact Nat.zero_le _
  have hfails : ∀ t, count (code s) (own t fails) new es ≤
      count (code s) (others t changes) new es := by
    intro t
    rcases Nat.lt_or_ge t threads with ht | ht
    · exact (fails_le hj (retries s) (htop t ht) es).trans_eq (Nat.zero_add _)
    · rw [count_own_of_none _ (hnone t ht)]
      exact Nat.zero_le _
  have hvain := fun t => (hfails t).trans (others_le_mul hchanges t)
  refine ⟨fun t => ⟨hvain t, ?_⟩, ?_⟩
  · rcases Nat.lt_or_ge t threads with ht | ht
    · have hsteps := steps_le_of_inv (inv_preserved s) hj (fun _ c _ _ _ h => rank_exec h c)
        (htop t ht) hg hi
      have hstart : rank s (.caller : Frame α) = 0 := rfl
      rw [hstart, Nat.zero_add] at hsteps
      exact hsteps.trans (Nat.add_le_add_left (Nat.mul_le_mul_left 2 (hvain t)) _)
    · rw [count_own_of_none _ (hnone t ht)]
      exact Nat.zero_le _
  · have hlength : new.callStacks.length = threads := List.length_replicate
    have htotal := total_fails_le hj (retries s) (s := new)
      (fun t ht => ⟨_, htop t (ht.trans_eq hlength), rfl⟩) es
    rw [hlength] at htotal
    refine htotal.trans (Nat.mul_le_mul_left _ ?_)
    rw [← sum_count_own, ← sum_count_own, Finset.mul_sum]
    exact Finset.sum_le_sum fun t _ => hchanges t

end Embb.Containers.LockFreeTreeValuePool
