import Embb.Containers.LockFreeMPMCQueue
import Embb.Lib.Attempts

/-!
# Progress of the lock-free queue

The loops of `TryEnqueue` and `TryDequeue` go round again where a node is not where it was
when they read it, and after they have helped `tail` on. The first takes a change by another
thread in between; the second happens at most once for each linked node, since `tail` only
moves along the links.
-/

namespace Embb.Containers.LockFreeMPMCQueue

open Threads

variable {N E : Type} [DecidableEq N]

/-- A loop goes round again since something has changed. -/
def fails : Choice N E → Frame N E → Queue N E → Bool
  | _, .enqValidate _ _ my_tail, m => decide (m.tail ≠ my_tail)
  | _, .enqRecheck _ _ my_tail _, m => decide (m.tail ≠ my_tail)
  | _, .enqLink _ _ my_tail, m => decide (m.next my_tail ≠ none)
  | _, .enqHelp _ _ my_tail _, m => decide (m.tail ≠ my_tail)
  | _, .deqValidate my_head, m => decide (m.head ≠ my_head)
  | _, .deqRecheck my_head _ _, m => decide (m.head ≠ my_head)
  | _, .deqHelp my_head _, m => decide (m.tail ≠ my_head)
  | _, .deqSwing my_head _ _, m => decide (m.head ≠ my_head)
  | _, _, _ => false

/-- A loop goes round again after it has moved `tail` for another thread. -/
def helps : Choice N E → Frame N E → Queue N E → Bool
  | _, .enqHelp _ _ my_tail _, m => decide (m.tail = my_tail)
  | _, .deqHelp my_head _, m => decide (m.tail = my_head)
  | _, _, _ => false

/-- A node is linked. -/
def links : Choice N E → Frame N E → Queue N E → Bool
  | _, .enqLink _ _ my_tail, m => decide (m.next my_tail = none)
  | _, _, _ => false

/-- The first node is unlinked. -/
def unlinks : Choice N E → Frame N E → Queue N E → Bool
  | _, .deqSwing my_head _ _, m => decide (m.head = my_head)
  | _, _, _ => false

/-- `tail` moves. -/
def moves : Choice N E → Frame N E → Queue N E → Bool
  | _, .enqHelp _ _ my_tail _, m => decide (m.tail = my_tail)
  | _, .deqHelp my_head _, m => decide (m.tail = my_head)
  | _, .enqSwing my_tail _, m => decide (m.tail = my_tail)
  | _, _, _ => false

/-- A successful swap of the queue. -/
def changes (c : Choice N E) (f : Frame N E) (m : Queue N E) : Bool :=
  links c f m || unlinks c f m || moves c f m

/-- What a thread has read is not there any more. -/
def stale (m : Queue N E) : Frame N E → Bool
  | .enqGuard _ _ my_tail => decide (m.tail ≠ my_tail)
  | .enqValidate _ _ my_tail => decide (m.tail ≠ my_tail)
  | .enqNext _ _ my_tail => decide (m.tail ≠ my_tail)
  | .enqRecheck _ _ my_tail none => decide (m.tail ≠ my_tail ∨ m.next my_tail ≠ none)
  | .enqRecheck _ _ my_tail (some _) => decide (m.tail ≠ my_tail)
  | .enqLink _ _ my_tail => decide (m.next my_tail ≠ none)
  | .enqHelp _ _ my_tail _ => decide (m.tail ≠ my_tail)
  | .deqGuard my_head => decide (m.head ≠ my_head)
  | .deqValidate my_head => decide (m.head ≠ my_head)
  | .deqTail my_head => decide (m.head ≠ my_head)
  | .deqNext my_head my_tail =>
    decide (m.head ≠ my_head ∨ my_head = my_tail ∧ m.tail ≠ my_tail)
  | .deqGuardNext my_head my_tail _ =>
    decide (m.head ≠ my_head ∨ my_head = my_tail ∧ m.tail ≠ my_tail)
  | .deqRecheck my_head my_tail _ =>
    decide (m.head ≠ my_head ∨ my_head = my_tail ∧ m.tail ≠ my_tail)
  | .deqHelp my_head _ => decide (m.tail ≠ my_head)
  | .deqElement my_head _ => decide (m.head ≠ my_head)
  | .deqSwing my_head _ _ => decide (m.head ≠ my_head)
  | _ => false

/-- The call of `TryEnqueue` with a node, or of `TryDequeue`. -/
def calls : Choice N E → Frame N E → Queue N E → Bool
  | .enqueue _ (some node), .caller, m => decide (node ∈ m.free)
  | .dequeue, .caller, _ => true
  | _, _, _ => false

/-- The steps that are left until a loop ends or goes round again. -/
def Frame.rank : Frame N E → ℕ
  | .enqLoop _ _ => 7
  | .enqGuard _ _ _ => 6
  | .enqValidate _ _ _ => 5
  | .enqNext _ _ _ => 4
  | .enqRecheck _ _ _ _ => 3
  | .enqLink _ _ _ => 2
  | .enqHelp _ _ _ _ => 1
  | .enqSwing _ _ => 1
  | .deqLoop => 9
  | .deqGuard _ => 8
  | .deqValidate _ => 7
  | .deqTail _ => 6
  | .deqNext _ _ => 5
  | .deqGuardNext _ _ _ => 4
  | .deqRecheck _ _ _ => 3
  | .deqHelp _ _ => 1
  | .deqElement _ _ => 2
  | .deqSwing _ _ _ => 1
  | _ => 0

/-- The steps of the loops, and the swap of `tail` for a node that has been linked. -/
def inLoop (_ : Choice N E) (f : Frame N E) (_ : Queue N E) : Bool := decide (0 < f.rank)

/-- A step without a successful swap leaves `head` and `tail`, and no node gets a successor. -/
theorem exec_unchanged {c : Choice N E} {f : Frame N E} {m : Queue N E}
    (h : changes c f m = false) :
    (exec c f m).1.head = m.head ∧ (exec c f m).1.tail = m.tail ∧
      ∀ p, m.next p = none → (exec c f m).1.next p = none := by
  cases f with
  | caller =>
    cases c with
    | enqueue e node =>
      cases node with
      | none => exact ⟨rfl, rfl, fun _ => id⟩
      | some node =>
        simp only [exec]
        split
        · refine ⟨rfl, rfl, fun p hp => ?_⟩
          rcases eq_or_ne p node with rfl | hne
          · exact Function.update_self ..
          · exact (Function.update_of_ne hne ..).trans hp
        · exact ⟨rfl, rfl, fun _ => id⟩
    | dequeue => exact ⟨rfl, rfl, fun _ => id⟩
    | reclaim node =>
      simp only [exec]
      split <;> exact ⟨rfl, rfl, fun _ => id⟩
  | enqLink e node my_tail =>
    simp only [changes, links, unlinks, moves, Bool.or_false, decide_eq_false_iff_not] at h
    simp only [exec, if_neg h]
    exact ⟨trivial, trivial, fun _ => id⟩
  | enqHelp e node my_tail n =>
    simp only [changes, links, unlinks, moves, Bool.false_or, decide_eq_false_iff_not] at h
    simp only [exec, if_neg h]
    exact ⟨trivial, trivial, fun _ => id⟩
  | enqSwing my_tail node =>
    simp only [changes, links, unlinks, moves, Bool.false_or, decide_eq_false_iff_not] at h
    simp only [exec, if_neg h]
    exact ⟨trivial, trivial, fun _ => id⟩
  | deqHelp my_head n =>
    simp only [changes, links, unlinks, moves, Bool.false_or, decide_eq_false_iff_not] at h
    simp only [exec, if_neg h]
    exact ⟨trivial, trivial, fun _ => id⟩
  | deqSwing my_head n data =>
    simp only [changes, links, unlinks, moves, Bool.false_or, Bool.or_false,
      decide_eq_false_iff_not] at h
    simp only [exec, if_neg h]
    exact ⟨trivial, trivial, fun _ => id⟩
  | enqRecheck e node my_tail n =>
    simp only [exec]
    split
    · cases n <;> exact ⟨rfl, rfl, fun _ => id⟩
    · exact ⟨rfl, rfl, fun _ => id⟩
  | deqRecheck my_head my_tail n =>
    simp only [exec]
    split
    · exact ⟨rfl, rfl, fun _ => id⟩
    · cases n with
      | none => exact ⟨rfl, rfl, fun _ => id⟩
      | some n =>
        simp only
        split <;> exact ⟨rfl, rfl, fun _ => id⟩
  | enqValidate e node my_tail =>
    simp only [exec]
    split <;> exact ⟨rfl, rfl, fun _ => id⟩
  | deqValidate my_head =>
    simp only [exec]
    split <;> exact ⟨rfl, rfl, fun _ => id⟩
  | _ => exact ⟨rfl, rfl, fun _ => id⟩

/-- What a thread has read does not get stale where nothing changes. -/
theorem stale_mono {m m' : Queue N E} (hh : m'.head = m.head) (ht : m'.tail = m.tail)
    (hn : ∀ p, m.next p = none → m'.next p = none) {f : Frame N E} (h : stale m' f = true) :
    stale m f = true := by
  have hnext : ∀ p, m'.next p ≠ none → m.next p ≠ none := fun p => mt (hn p)
  cases f with
  | enqRecheck e node my_tail n =>
    cases n with
    | none =>
      simp only [stale, ht, decide_eq_true_eq] at h ⊢
      exact h.imp_right (hnext my_tail)
    | some n =>
      simp only [stale, ht] at h ⊢
      exact h
  | enqLink e node my_tail =>
    simp only [stale, decide_eq_true_eq] at h ⊢
    exact hnext my_tail h
  | _ =>
    simp only [stale, hh, ht] at h ⊢
    exact h

/-- What a thread has read goes stale by the changes of others, and it reads again. -/
theorem retries : Retries (fun _ => exec) (fails (N := N) (E := E)) changes stale where
  own t c f m := by
    cases f with
    | caller =>
      cases c with
      | enqueue e node =>
        cases node with
        | none => rfl
        | some node => by_cases h : node ∈ m.free <;> simp [exec, fails, stale, h]
      | dequeue => rfl
      | reclaim node => by_cases h : node ∈ m.retired <;> simp [exec, fails, stale, h]
    | enqLoop e node => simp [exec, fails, stale]
    | enqGuard e node my_tail => exact (Nat.zero_add _).le
    | enqValidate e node my_tail =>
      by_cases h : m.tail = my_tail
      · simp [exec, fails, stale, h]
      · simp [exec, fails, stale, h, Ne.symm h]
    | enqNext e node my_tail => cases hn : m.next my_tail <;> simp [exec, fails, stale, hn]
    | enqRecheck e node my_tail n =>
      by_cases h : m.tail = my_tail
      · cases n <;> simp [exec, fails, stale, h]
      · cases n <;> simp [exec, fails, stale, h, Ne.symm h]
    | enqLink e node my_tail =>
      by_cases h : m.next my_tail = none <;> simp [exec, fails, stale, h]
    | enqHelp e node my_tail n => by_cases h : m.tail = my_tail <;> simp [exec, fails, stale, h]
    | enqSwing my_tail node => by_cases h : m.tail = my_tail <;> simp [exec, fails, stale, h]
    | deqLoop => simp [exec, fails, stale]
    | deqGuard my_head => exact (Nat.zero_add _).le
    | deqValidate my_head =>
      by_cases h : m.head = my_head
      · simp [exec, fails, stale, h]
      · simp [exec, fails, stale, h, Ne.symm h]
    | deqTail my_head => simp [exec, fails, stale]
    | deqNext my_head my_tail => exact (Nat.zero_add _).le
    | deqGuardNext my_head my_tail n => exact (Nat.zero_add _).le
    | deqRecheck my_head my_tail n =>
      by_cases h : m.head = my_head
      · cases n with
        | none => simp [exec, fails, stale, h]
        | some n => by_cases ht : my_head = my_tail <;> simp [exec, fails, stale, h, ht]
      · simp [exec, fails, stale, h]
    | deqHelp my_head n => by_cases h : m.tail = my_head <;> simp [exec, fails, stale, h]
    | deqElement my_head n => exact (Nat.zero_add _).le
    | deqSwing my_head n data => by_cases h : m.head = my_head <;> simp [exec, fails, stale, h]
    | _ => rfl
  others t c f m g := by
    cases h : changes c f m with
    | false =>
      obtain ⟨hh, ht, hn⟩ := exec_unchanged h
      exact (Bool.toNat_le_toNat (fun hs => stale_mono hh ht hn hs)).trans (Nat.le_add_right _ _)
    | true => exact (Bool.toNat_le _).trans (Nat.le_add_left 1 _)

/-- A loop goes round again. -/
def rounds (c : Choice N E) (f : Frame N E) (m : Queue N E) : Bool := fails c f m || helps c f m

theorem helps_le_moves (c : Choice N E) (f : Frame N E) (m : Queue N E) :
    (helps c f m).toNat ≤ (moves c f m).toNat := by
  cases f with
  | enqHelp e node my_tail n => exact Nat.le_refl _
  | deqHelp my_head n => exact Nat.le_refl _
  | _ => exact Nat.zero_le _

theorem moves_le_changes (c : Choice N E) (f : Frame N E) (m : Queue N E) :
    (moves c f m).toNat ≤ (changes c f m).toNat := by
  rw [changes]
  cases moves c f m with
  | false => exact Nat.zero_le _
  | true => rw [Bool.or_true]

/-- A round of a loop has at most nine steps. -/
theorem short : Short (fun _ => exec) (inLoop (N := N) (E := E)) calls rounds Frame.rank 9 where
  step t c f m := by
    cases f with
    | caller =>
      cases c with
      | enqueue e node =>
        cases node with
        | none => exact Nat.zero_le _
        | some node =>
          by_cases h : node ∈ m.free <;>
            simp [exec, inLoop, calls, rounds, fails, helps, Frame.rank, h]
      | dequeue => exact Nat.le_refl _
      | reclaim node =>
        by_cases h : node ∈ m.retired <;>
          simp [exec, inLoop, calls, rounds, fails, helps, Frame.rank, h]
    | enqValidate e node my_tail =>
      by_cases h : m.tail = my_tail
      · simp [exec, inLoop, calls, rounds, fails, helps, Frame.rank, h]
      · simp [exec, inLoop, calls, rounds, fails, helps, Frame.rank, h, Ne.symm h]
    | enqRecheck e node my_tail n =>
      by_cases h : m.tail = my_tail
      · cases n <;> simp [exec, inLoop, calls, rounds, fails, helps, Frame.rank, h]
      · cases n <;> simp [exec, inLoop, calls, rounds, fails, helps, Frame.rank, h, Ne.symm h]
    | enqLink e node my_tail =>
      by_cases h : m.next my_tail = none <;>
        simp [exec, inLoop, calls, rounds, fails, helps, Frame.rank, h]
    | enqHelp e node my_tail n =>
      by_cases h : m.tail = my_tail <;>
        simp [exec, inLoop, calls, rounds, fails, helps, Frame.rank, h]
    | enqSwing my_tail node =>
      by_cases h : m.tail = my_tail <;>
        simp [exec, inLoop, calls, rounds, fails, helps, Frame.rank, h]
    | deqValidate my_head =>
      by_cases h : m.head = my_head
      · simp [exec, inLoop, calls, rounds, fails, helps, Frame.rank, h]
      · simp [exec, inLoop, calls, rounds, fails, helps, Frame.rank, h, Ne.symm h]
    | deqRecheck my_head my_tail n =>
      by_cases h : m.head = my_head
      · cases n with
        | none => simp [exec, inLoop, calls, rounds, fails, helps, Frame.rank, h]
        | some n =>
          by_cases ht : my_head = my_tail <;>
            simp [exec, inLoop, calls, rounds, fails, helps, Frame.rank, h, ht]
      · simp [exec, inLoop, calls, rounds, fails, helps, Frame.rank, h]
    | deqHelp my_head n =>
      by_cases h : m.tail = my_head <;>
        simp [exec, inLoop, calls, rounds, fails, helps, Frame.rank, h]
    | deqSwing my_head n data =>
      by_cases h : m.head = my_head <;>
        simp [exec, inLoop, calls, rounds, fails, helps, Frame.rank, h]
    | _ => simp [exec, inLoop, calls, rounds, fails, helps, Frame.rank]

/-- The number of nodes that have been linked and lie before `tail` or have been unlinked. -/
def position (m : Queue N E) : ℕ := m.dequeued.length + m.nodes.idxOf m.tail

/-- `tail` moves to the next node. -/
theorem position_swing {m : Queue N E} {f : Frame N E} {others : Multiset (Frame N E)}
    (h : Inv m (f ::ₘ others)) {b : N} (hb : m.next m.tail = some b) :
    position { m with tail := b } = position m + 1 := by
  have hnext := h.linked.idxOf_next h.nodup_nodes h.tail hb
  simp only [position, hnext, Nat.add_assoc]

/-- Only the moves of `tail` change its position. -/
theorem position_exec {m : Queue N E} {f : Frame N E} {others : Multiset (Frame N E)}
    (h : Inv m (f ::ₘ others)) (c : Choice N E) :
    position m + (moves c f m).toNat ≤ position (exec c f m).1 := by
  cases f with
  | caller =>
    cases c with
    | enqueue e node =>
      cases node with
      | none => exact Nat.le_refl _
      | some node =>
        simp only [exec]
        split <;> exact Nat.le_refl _
    | dequeue => exact Nat.le_refl _
    | reclaim node =>
      simp only [exec]
      split <;> exact Nat.le_refl _
  | enqLink e node my_tail =>
    simp only [exec]
    split
    · show m.dequeued.length + m.nodes.idxOf m.tail + 0 ≤
        m.dequeued.length + (m.nodes ++ [node]).idxOf m.tail
      rw [List.idxOf_append_of_mem h.tail]
      exact Nat.le_refl _
    · exact Nat.le_refl _
  | enqHelp e node my_tail n =>
    by_cases ht : m.tail = my_tail
    · have hnext : m.next m.tail = some n := ht ▸ h.top.links _ (List.mem_singleton_self _)
      simp only [exec, moves, ht, if_true, decide_true, Bool.toNat_true]
      exact (position_swing h hnext).ge
    · simp only [exec, moves, if_neg ht, decide_eq_false ht]
      exact Nat.le_refl _
  | enqSwing my_tail node =>
    by_cases ht : m.tail = my_tail
    · have hnext : m.next m.tail = some node := ht ▸ h.top.links _ (List.mem_singleton_self _)
      simp only [exec, moves, ht, if_true, decide_true, Bool.toNat_true]
      exact (position_swing h hnext).ge
    · simp only [exec, moves, if_neg ht, decide_eq_false ht]
      exact Nat.le_refl _
  | deqHelp my_head n =>
    by_cases ht : m.tail = my_head
    · have hnext : m.next m.tail = some n := ht ▸ h.top.links _ (List.mem_singleton_self _)
      simp only [exec, moves, ht, if_true, decide_true, Bool.toNat_true]
      exact (position_swing h hnext).ge
    · simp only [exec, moves, if_neg ht, decide_eq_false ht]
      exact Nat.le_refl _
  | deqSwing my_head n data =>
    by_cases hh : m.head = my_head
    · -- the first node is not `tail`, which comes one place closer to the front
      have hne : m.head ≠ m.tail := (h.top.ahead m.head hh h.head_mem).symm
      simp only [exec, moves, if_pos hh]
      show m.dequeued.length + m.nodes.idxOf m.tail + 0 ≤
        (m.dequeued ++ [data]).length + m.nodes.tail.idxOf m.tail
      rw [h.nodes_eq, List.idxOf_cons_ne _ hne, List.tail_cons, List.length_append,
        List.length_singleton]
      omega
    · simp only [exec, moves, if_neg hh]
      exact Nat.le_refl _
  | enqValidate e node my_tail =>
    simp only [exec]
    split <;> exact Nat.le_refl _
  | enqRecheck e node my_tail n =>
    simp only [exec]
    split
    · cases n <;> exact Nat.le_refl _
    · exact Nat.le_refl _
  | deqValidate my_head =>
    simp only [exec]
    split <;> exact Nat.le_refl _
  | deqRecheck my_head my_tail n =>
    simp only [exec]
    split
    · exact Nat.le_refl _
    · cases n with
      | none => exact Nat.le_refl _
      | some n =>
        simp only
        split <;> exact Nat.le_refl _
  | _ => exact Nat.le_refl _

/-- The elements that are linked and unlinked are logged. -/
theorem lengths_code (t : ℕ) (c : Choice N E) (f : Frame N E) (m : Queue N E) :
    (code t c f m).1.enqueued.length = m.enqueued.length + (links c f m).toNat ∧
      (code t c f m).1.dequeued.length = m.dequeued.length + (unlinks c f m).toNat := by
  cases f with
  | caller =>
    cases c with
    | enqueue e node =>
      cases node with
      | none => exact ⟨rfl, rfl⟩
      | some node => by_cases h : node ∈ m.free <;> simp [code, exec, links, unlinks, h]
    | dequeue => exact ⟨rfl, rfl⟩
    | reclaim node => by_cases h : node ∈ m.retired <;> simp [code, exec, links, unlinks, h]
  | enqValidate e node my_tail =>
    by_cases h : my_tail = m.tail <;> simp [code, exec, links, unlinks, h]
  | enqRecheck e node my_tail n =>
    by_cases h : my_tail = m.tail <;> cases n <;> simp [code, exec, links, unlinks, h]
  | enqLink e node my_tail =>
    by_cases h : m.next my_tail = none <;> simp [code, exec, links, unlinks, h]
  | enqHelp e node my_tail n =>
    by_cases h : m.tail = my_tail <;> simp [code, exec, links, unlinks, h]
  | enqSwing my_tail node =>
    by_cases h : m.tail = my_tail <;> simp [code, exec, links, unlinks, h]
  | deqValidate my_head => by_cases h : my_head = m.head <;> simp [code, exec, links, unlinks, h]
  | deqRecheck my_head my_tail n =>
    by_cases h : m.head = my_head
    · cases n with
      | none => simp [code, exec, links, unlinks, h]
      | some n => by_cases ht : my_head = my_tail <;> simp [code, exec, links, unlinks, h, ht]
    · simp [code, exec, links, unlinks, h]
  | deqHelp my_head n => by_cases h : m.tail = my_head <;> simp [code, exec, links, unlinks, h]
  | deqSwing my_head n data =>
    by_cases h : m.head = my_head <;> simp [code, exec, links, unlinks, h]
  | _ => exact ⟨rfl, rfl⟩

/-- `tail` never passes the last linked node. -/
theorem position_le {m : Queue N E} {fs : Multiset (Frame N E)} (h : Inv m fs) :
    position m ≤ m.enqueued.length := by
  have hlt := List.idxOf_lt_length_of_mem h.tail
  rw [h.log, List.length_append, List.length_map, List.length_tail, position]
  omega

section Results

variable (ns : Nodes N) (next : N → Option N) (element : N → E) (threads : ℕ)
  {es : List (ℕ × Choice N E)}

/-- The successful swaps of a run: one to link a node, one to move `tail` past it, and one to
unlink a node. -/
theorem swaps_le (hg : Always code Hazards (boot ns next element threads) es) :
    count code (fun _ => moves) (boot ns next element threads) es ≤
      (run code (boot ns next element threads) es).mem.enqueued.length ∧
    count code (fun _ => changes) (boot ns next element threads) es ≤
      2 * (run code (boot ns next element threads) es).mem.enqueued.length +
        (run code (boot ns next element threads) es).mem.dequeued.length := by
  have hmoves := measure_le_run (p := moves) inv_preserved
    (fun _ c f m _ (h : Inv m (f ::ₘ _)) => position_exec h c) hg
    (inv_boot ns next element threads)
  have hposition := position_le (inv_run ns next element threads hg)
  have hlinks := measure_run (μ := fun m : Queue N E => m.enqueued.length)
    (fun t c f m => (lengths_code t c f m).1) (boot ns next element threads) es
  have hunlinks := measure_run (μ := fun m : Queue N E => m.dequeued.length)
    (fun t c f m => (lengths_code t c f m).2) (boot ns next element threads) es
  have hzero : (boot ns next element threads).mem.enqueued.length = 0 := rfl
  have hzero' : (boot ns next element threads).mem.dequeued.length = 0 := rfl
  have hends := count_le_add code (p := fun _ c f m => links c f m || unlinks c f m)
    (q := fun _ => links) (r := fun _ => unlinks)
    (fun _ c f m => toNat_or_le (links c f m) (unlinks c f m))
    (boot ns next element threads) es
  have hall := count_le_add code (p := fun _ => changes) (r := fun _ => moves)
    (q := fun _ c f m => links c f m || unlinks c f m)
    (fun _ c f m => toNat_or_le (links c f m || unlinks c f m) (moves c f m))
    (boot ns next element threads) es
  omega

/-- In every run in which hazard pointers prevent the reuse of guarded nodes, a loop of a thread
goes round again at most twice for every element put in and once for every element taken out,
its steps inside the loops are at most nine for each of its calls and each of these rounds, and
all threads together go round again at most so often for each other thread, and once more for
every element put in. -/
theorem queue_lock_free
    (hazards : Always code Hazards (boot ns next element threads) es) :
    let new := boot ns next element threads
    let m := (run code new es).mem
    let swaps := 2 * m.enqueued.length + m.dequeued.length
    (∀ t, count code (own t rounds) new es ≤ swaps ∧
      count code (own t inLoop) new es ≤ 9 * (count code (own t calls) new es + swaps)) ∧
    count code (fun _ => rounds) new es ≤ (threads - 1) * swaps + m.enqueued.length := by
  intro new m swaps
  have hj : Jumps code (fun _ => exec (N := N) (E := E)) := fun _ _ _ _ => rfl
  have hswaps := swaps_le ns next element threads hazards
  have hmoves : count code (fun _ => moves) new es ≤ m.enqueued.length := hswaps.1
  have hchanges : count code (fun _ => changes) new es ≤ swaps := hswaps.2
  have htop : ∀ t < threads, new.top t = some .caller := fun t ht =>
    top_replicate _ _ ht
  refine ⟨fun t => ?_, ?_⟩
  · rcases Nat.lt_or_ge t threads with ht | ht
    · have hfails := fails_le hj retries (htop t ht) es
      have hsteps := steps_le hj short (htop t ht) es
      have hstart : stale new.mem .caller = false := rfl
      have hrank : (Frame.caller : Frame N E).rank = 0 := rfl
      rw [hstart, Bool.toNat_false, Nat.zero_add] at hfails
      rw [hrank, Nat.zero_add] at hsteps
      -- it helps by changes of its own, and fails by those of the others
      have hrounds := count_le_add code
        (own_le_add (p := rounds) (q := fails) (r := helps)
          (fun c f m => toNat_or_le (fails c f m) (helps c f m)) t) new es
      have hhelps := count_le code (own_le (p := helps) (q := changes)
        (fun c f m => (helps_le_moves c f m).trans (moves_le_changes c f m)) t) new es
      have hsplit := count_own_add_others code t (changes (N := N) (E := E)) new es
      have hle : count code (own t rounds) new es ≤ swaps := by omega
      exact ⟨hle, hsteps.trans (Nat.mul_le_mul_left 9 (Nat.add_le_add_left hle _))⟩
    · have hnone : new.top t = none := top_replicate_of_le _ _ ht
      rw [count_own_of_none code hnone, count_own_of_none code hnone]
      exact ⟨Nat.zero_le _, Nat.zero_le _⟩
  · have htotal := total_fails_le hj retries (s := new)
      (fun t ht => ⟨_, htop t (ht.trans_eq List.length_replicate), rfl⟩) es
    have hlength : new.callStacks.length = threads := List.length_replicate
    rw [hlength] at htotal
    have hrounds := count_le_add code (p := fun _ => rounds) (q := fun _ => fails)
      (r := fun _ => helps) (fun _ c f m => toNat_or_le (fails c f m) (helps c f m)) new es
    have hhelps := count_le code (p := fun _ => helps) (q := fun _ => moves)
      (fun _ => helps_le_moves) new es
    have hmul := Nat.mul_le_mul_left (threads - 1) hchanges
    omega

/-- Thread 0 puts 5 into a queue with three nodes while thread 1 is about to link 7. -/
def overtakes : List (ℕ × Choice ℕ ℕ) :=
  (1, Choice.enqueue 7 (some 2)) :: List.replicate 5 (1, Choice.dequeue) ++
    ((0, Choice.enqueue 5 (some 1)) :: List.replicate 7 (0, Choice.dequeue)) ++
      List.replicate 8 (1, Choice.dequeue)

/-- Thread 1 goes round again. -/
theorem queue_lock_free_two :
    count code (own 1 rounds) (boot ⟨0, [1, 2], by decide⟩ (fun _ => none) (fun _ => 0) 2)
        overtakes = 1 ∧
      count code (own 1 rounds) (boot ⟨0, [1, 2], by decide⟩ (fun _ => none) (fun _ => 0) 2)
        overtakes ≤ 4 := by
  have h := (queue_lock_free ⟨0, [1, 2], by decide⟩ (fun _ => none) (fun _ => 0) 2
    (Always.of_checked keepsNodes (by decide +kernel : checked code handsNoneBack _ overtakes = true))).1 1
  have hswaps : 2 * (run code (boot (N := ℕ) (E := ℕ) ⟨0, [1, 2], by decide⟩ (fun _ => none)
      (fun _ => 0) 2) overtakes).mem.enqueued.length + (run code (boot (N := ℕ) (E := ℕ)
        ⟨0, [1, 2], by decide⟩ (fun _ => none) (fun _ => 0) 2) overtakes).mem.dequeued.length =
      4 := by
    decide +kernel
  exact ⟨by decide +kernel, h.1.trans_eq hswaps⟩

end Results

end Embb.Containers.LockFreeMPMCQueue
