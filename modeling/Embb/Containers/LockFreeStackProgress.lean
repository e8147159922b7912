import Embb.Containers.LockFreeStack
import Embb.Lib.Attempts

/-!
# Progress of the lock-free stack

The loops of `TryPush` and `TryPop` go round again only where `top` is not what it was when
they read it. That takes a push or a pop of another thread in between, so a thread whose
steps do not end is overtaken again and again: the stack is lock-free.
-/

namespace Embb.Containers.LockFreeStack

open Threads

variable {N E : Type} [DecidableEq N]

/-- A loop goes round again. -/
def fails : Choice N E → Frame N E → Stack N E → Bool
  | _, .pushSwap _ _ top_cached, m => decide (m.top ≠ top_cached)
  | _, .popValidate top_cached, m => decide (m.top ≠ some top_cached)
  | _, .popSwap top_cached _, m => decide (m.top ≠ some top_cached)
  | _, _, _ => false

/-- A swap of `top` succeeds. -/
def swaps : Choice N E → Frame N E → Stack N E → Bool
  | _, .pushSwap _ _ top_cached, m => decide (m.top = top_cached)
  | _, .popSwap top_cached _, m => decide (m.top = some top_cached)
  | _, _, _ => false

/-- What a thread has read of `top` is not there any more. -/
def stale (m : Stack N E) : Frame N E → Bool
  | .pushSet _ _ top_cached => decide (m.top ≠ top_cached)
  | .pushSwap _ _ top_cached => decide (m.top ≠ top_cached)
  | .popGuard top_cached => decide (m.top ≠ some top_cached)
  | .popValidate top_cached => decide (m.top ≠ some top_cached)
  | .popNext top_cached => decide (m.top ≠ some top_cached)
  | .popSwap top_cached _ => decide (m.top ≠ some top_cached)
  | _ => false

/-- The call of `TryPush` with a node, or of `TryPop`. -/
def calls : Choice N E → Frame N E → Stack N E → Bool
  | .push _ (some node), .caller, m => decide (node ∈ m.free)
  | .pop, .caller, _ => true
  | _, _, _ => false

/-- The steps of the loops. -/
def inLoop : Choice N E → Frame N E → Stack N E → Bool
  | _, .pushLoad _ _, _ => true
  | _, .pushSet _ _ _, _ => true
  | _, .pushSwap _ _ _, _ => true
  | _, .popLoad, _ => true
  | _, .popGuard _, _ => true
  | _, .popValidate _, _ => true
  | _, .popNext _, _ => true
  | _, .popSwap _ _, _ => true
  | _, .popUnguard, _ => true
  | _, _, _ => false

/-- The steps that are left until a loop ends or goes round again. -/
def Frame.rank : Frame N E → ℕ
  | .pushLoad _ _ => 3
  | .pushSet _ _ _ => 2
  | .pushSwap _ _ _ => 1
  | .popStart => 6
  | .popLoad => 6
  | .popGuard _ => 5
  | .popValidate _ => 4
  | .popNext _ => 3
  | .popSwap _ _ => 2
  | .popUnguard => 7
  | _ => 0

/-- Only a successful swap changes `top`. -/
theorem top_exec (z : HazardPointer.Sizes) (t : ℕ) (c : Choice N E) (f : Frame N E)
    (m : Stack N E) (h : swaps c f m = false) : (exec z t c f m).1.top = m.top := by
  cases f with
  | caller =>
    cases c with
    | push e node =>
      cases node with
      | none => rfl
      | some node =>
        simp only [exec]
        split <;> rfl
    | pop => rfl
  | pushSwap e node top_cached =>
    have hne : m.top ≠ top_cached := of_decide_eq_false h
    simp only [exec, if_neg hne]
  | popSwap top_cached next =>
    have hne : m.top ≠ some top_cached := of_decide_eq_false h
    simp only [exec, if_neg hne]
  | popLoad =>
    simp only [exec]
    split <;> rfl
  | popValidate top_cached =>
    simp only [exec]
    split <;> rfl
  | popHazards data frame => cases frame <;> rfl
  | _ => rfl

theorem stale_congr {m m' : Stack N E} (h : m'.top = m.top) (f : Frame N E) :
    stale m' f = stale m f := by
  cases f <;> simp only [stale, h]

/-- What a thread has read of `top` goes stale by the swaps of others, and it reads again. -/
theorem retries (z : HazardPointer.Sizes) :
    Retries (exec z) (fails (N := N) (E := E)) swaps stale where
  own t c f m := by
    cases f with
    | pushLoad e node => simp [exec, fails, stale]
    | pushSet e node top_cached => exact (Nat.zero_add _).le
    | pushSwap e node top_cached =>
      by_cases h : m.top = top_cached <;> simp [exec, fails, stale, h]
    | popLoad => cases htop : m.top <;> simp [exec, fails, stale, htop]
    | popGuard top_cached => exact (Nat.zero_add _).le
    | popValidate top_cached =>
      by_cases h : m.top = some top_cached <;> simp [exec, fails, stale, h]
    | popNext top_cached => exact (Nat.zero_add _).le
    | popSwap top_cached next =>
      by_cases h : m.top = some top_cached <;> simp [exec, fails, stale, h]
    | caller =>
      cases c with
      | push e node =>
        cases node with
        | none => rfl
        | some node =>
          simp only [exec]
          split <;> exact Nat.zero_le _
      | pop => rfl
    | popHazards data frame => cases frame <;> rfl
    | _ => rfl
  others t c f m g := by
    cases h : swaps c f m with
    | false =>
      rw [stale_congr (top_exec z t c f m h)]
      exact Nat.le_add_right _ _
    | true => exact (Bool.toNat_le _).trans (Nat.le_add_left 1 _)

/-- A round of a loop has at most six steps. -/
theorem short (z : HazardPointer.Sizes) :
    Short (exec z) (inLoop (N := N) (E := E)) calls fails Frame.rank 6 where
  step t c f m := by
    cases f with
    | caller =>
      cases c with
      | push e node =>
        cases node with
        | none => exact Nat.zero_le _
        | some node =>
          by_cases h : node ∈ m.free <;> simp [exec, inLoop, calls, fails, Frame.rank, h]
      | pop => exact Nat.le_refl _
    | pushSwap e node top_cached =>
      by_cases h : m.top = top_cached <;>
        simp [exec, inLoop, calls, fails, Frame.rank, h]
    | popLoad => cases htop : m.top <;> simp [exec, inLoop, calls, fails, Frame.rank, htop]
    | popValidate top_cached =>
      by_cases h : m.top = some top_cached <;>
        simp [exec, inLoop, calls, fails, Frame.rank, h]
    | popSwap top_cached next =>
      by_cases h : m.top = some top_cached <;>
        simp [exec, inLoop, calls, fails, Frame.rank, h]
    | popHazards data frame => cases frame <;> exact Nat.zero_le _
    | _ => simp [exec, inLoop, calls, fails, Frame.rank]

/-- The pushes and pops in the history of threads with a property. -/
def swapsBy (p : ℕ → Bool) (m : Stack N E) : ℕ := (m.history.filter fun op => p op.thread).length

/-- The history has the swaps of every thread. -/
theorem swapsBy_code (z : HazardPointer.Sizes) (p : ℕ → Bool) (t : ℕ) (c : Choice N E)
    (f : Frame N E) (m : Stack N E) :
    swapsBy p (code z t c f m).1 = swapsBy p m + (p t && swaps c f m).toNat := by
  cases f with
  | caller =>
    cases c with
    | push e node =>
      cases node with
      | none => simp [swapsBy, code, exec, swaps]
      | some node => by_cases h : node ∈ m.free <;> simp [swapsBy, code, exec, swaps, h]
    | pop => simp [swapsBy, code, exec, swaps]
  | pushSwap e node top_cached =>
    by_cases h : m.top = top_cached <;> cases hp : p t <;>
      simp [swapsBy, code, exec, swaps, h, hp, Op.thread]
  | popSwap top_cached next =>
    by_cases h : m.top = some top_cached <;> cases hp : p t <;>
      simp [swapsBy, code, exec, swaps, h, hp, Op.thread]
  | popLoad => cases htop : m.top <;> simp [swapsBy, code, exec, swaps, htop]
  | popValidate top_cached =>
    by_cases h : m.top = some top_cached <;> simp [swapsBy, code, exec, swaps, h]
  | popHazards data frame => cases frame <;> simp [swapsBy, code, exec, swaps]
  | _ => simp [swapsBy, code, exec, swaps]

/-- In every run, a loop of a thread goes round again at most once for every push and pop of the
other threads; its steps inside the loops are at most six for each of its calls and each push
and pop of the others; and all threads together go round again at most once for each other
thread and each push and pop. -/
theorem stack_lock_free (threads : ℕ) (ns : Nodes N) (temp : ℕ → List N) (next : N → Option N)
    (element : N → E) (es : List (ℕ × Choice N E)) :
    let code := code (sizes threads)
    let new := boot threads ns temp next element
    let m := (run code new es).mem
    (∀ t, count code (own t fails) new es ≤ swapsBy (· ≠ t) m ∧
      count code (own t inLoop) new es ≤
        6 * (count code (own t calls) new es + swapsBy (· ≠ t) m)) ∧
    count code (fun _ => fails) new es ≤ (threads - 1) * m.history.length := by
  intro code new m
  have hj : Jumps code (exec (sizes threads)) := fun _ _ _ _ => rfl
  have hothers (t : ℕ) : swapsBy (· ≠ t) m = count code (others t swaps) new es :=
    (measure_run (swapsBy_code (sizes threads) (· ≠ t)) new es).trans (Nat.zero_add _)
  have hall : m.history.length = count code (fun _ => swaps) new es := by
    have hrun := measure_run (swapsBy_code (N := N) (E := E) (sizes threads) fun _ => true) new es
    rw [swapsBy, List.filter_true] at hrun
    exact hrun.trans (Nat.zero_add _)
  have htop : ∀ t < threads, new.top t = some .caller := fun t ht =>
    top_replicate _ _ ht
  refine ⟨fun t => ?_, ?_⟩
  · rw [hothers]
    rcases Nat.lt_or_ge t threads with ht | ht
    · have hfails := fails_le hj (retries (sizes threads)) (htop t ht) es
      have hsteps := steps_le hj (short (sizes threads)) (htop t ht) es
      have hstart : stale new.mem .caller = false := rfl
      have hrank : (Frame.caller : Frame N E).rank = 0 := rfl
      rw [hstart, Bool.toNat_false, Nat.zero_add] at hfails
      rw [hrank, Nat.zero_add] at hsteps
      exact ⟨hfails, hsteps.trans (Nat.mul_le_mul_left 6 (Nat.add_le_add_left hfails _))⟩
    · have hnone : new.top t = none := top_replicate_of_le _ _ ht
      rw [count_own_of_none code hnone, count_own_of_none code hnone]
      exact ⟨Nat.zero_le _, Nat.zero_le _⟩
  · have htotal := total_fails_le hj (retries (sizes threads)) (s := new)
      (fun t ht => ⟨_, htop t (ht.trans_eq List.length_replicate), rfl⟩) es
    have hlength : new.callStacks.length = threads := List.length_replicate
    rwa [hlength, ← hall] at htotal

end Embb.Containers.LockFreeStack
