import Embb.Containers.WaitFreeArrayValuePool
import Embb.Lib.Attempts

/-!
# Progress of the wait-free array value pool

A call of `Allocate` loads and swaps every cell at most once, so that its steps are bounded by
the size of the pool, whatever the other threads do.
-/

namespace Embb.Containers.WaitFreeArrayValuePool

open Threads

variable {α : Type}

/-- A call of `Allocate`, or of `Free` with a pair that is held. -/
def calls : Choice → Frame α → Pool α → Bool
  | .allocate, .caller, _ => true
  | .free pair, .caller, m => m.held[pair]?.isSome
  | _, _, _ => false

/-- The steps of the calls. -/
def inPool : Choice → Frame α → Pool α → Bool
  | _, .caller, _ => false
  | _, _, _ => true

/-- The steps that are left to a call: two for every cell that it has not passed. -/
def rank (s : Source α) : Frame α → ℕ
  | .load i => 2 * (s.size - i) + 2
  | .swap i _ => 2 * (s.size - i) + 1
  | .allocated _ _ => 1
  | .failed => 1
  | .store _ _ => 1
  | .caller => 0

variable [DecidableEq α]

theorem rank_exec {s : Source α} {m : Pool α} {f : Frame α} {others : Multiset (Frame α)}
    (h : Inv s m (f ::ₘ others)) (c : Choice) :
    (inPool c f m).toNat + rank s (exec s c f m).2 ≤
      rank s f + (2 * s.size + 2) * (calls c f m).toNat := by
  have htop := h.top
  cases f with
  | caller =>
    cases c with
    | allocate =>
      simp only [exec, inPool, rank, calls, Bool.toNat_false, Bool.toNat_true]
      omega
    | free pair =>
      simp only [exec, inPool, calls]
      cases m.held[pair]? with
      | none => exact Nat.zero_le _
      | some q =>
        simp only [rank, Option.isSome_some, Bool.toNat_false, Bool.toNat_true]
        omega
  | load i =>
    have hi : i ≤ s.size := htop
    simp only [exec]
    split_ifs
    · simp only [inPool, rank, calls, Bool.toNat_false, Bool.toNat_true]
      omega
    · simp only [inPool, rank, calls, Bool.toNat_false, Bool.toNat_true]
      omega
    · simp only [inPool, rank, calls, Bool.toNat_false, Bool.toNat_true]
      omega
  | swap i expected =>
    have hi : i < s.size := htop.1
    simp only [exec]
    split_ifs
    · simp only [inPool, rank, calls, Bool.toNat_false, Bool.toNat_true]
      omega
    · simp only [inPool, rank, calls, Bool.toNat_false, Bool.toNat_true]
      omega
  | allocated e i | failed | store e i =>
    simp only [exec, inPool, rank, calls, Bool.toNat_false, Bool.toNat_true]
    omega

/-- In every run, the steps of a thread inside the pool are at most two for every cell and two
more for each of its calls; nothing that the other threads do adds to them. -/
theorem array_pool_wait_free (s : Source α) (cells : ℕ → α) (threads : ℕ)
    (es : List (ℕ × Choice)) (t : ℕ) :
    count (code s) (own t inPool) (boot s cells threads) es ≤
      (2 * s.size + 2) * count (code s) (own t calls) (boot s cells threads) es := by
  have hj : Jumps (code s) (fun _ => exec s) := fun _ _ _ _ => rfl
  have hg : Always (code s) (fun _ _ _ _ _ => True) (boot s cells threads) es :=
    Always.of_forall (fun _ _ _ _ _ => trivial) _ es
  rcases Nat.lt_or_ge t threads with ht | ht
  · have htop : (boot s cells threads).top t = some .caller := top_replicate _ _ ht
    have hsteps := calls_le_of_inv (inv_preserved s) hj (fun _ c _ _ _ h => rank_exec h c) htop hg
      (inv_boot s cells threads)
    exact hsteps.trans_eq (Nat.zero_add _)
  · have hnone : (boot s cells threads).top t = none := top_replicate_of_le _ _ ht
    rw [count_own_of_none _ hnone]
    exact Nat.zero_le _

end Embb.Containers.WaitFreeArrayValuePool
