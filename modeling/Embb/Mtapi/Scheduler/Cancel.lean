import Embb.Mtapi.Scheduler.Machine

/-!
# Cancelling a task

`mtapi_task_cancel` sets the state of the task. Its status stays `MTAPI_ERR_UNKNOWN` unless the
action of the task is gone or is a plugin action.
-/

namespace Embb.Mtapi

open Threads

/-- The task is valid, and so is its action. -/
def Node.OnAction (n : Node) (p : Ptr) : Prop :=
  n.taskPool.isHandleValid p = true ∧ n.actionPool.isHandleValid (n.task p).action = true

instance (n : Node) (p : Ptr) : Decidable (n.OnAction p) := inferInstanceAs (Decidable (_ ∧ _))

/-- Where a call of `mtapi_task_cancel` stands after some of its steps. -/
def cancelFrame (p : Ptr) : Nat → Frame
  | 0 => .cancel p
  | 1 => .cancelState p
  | 2 => .cancelAction p
  | _ => .ret .errUnknown Handle.invalid

theorem exec_cancelFrame {n : Node} {p : Ptr} (h : n.OnAction p) (t : Nat) (c : Choice) {k : Nat}
    (hk : k < 3) : (exec t c (cancelFrame p k) n).2 = [cancelFrame p (k + 1)] := by
  obtain ⟨htask, haction⟩ := h
  match k, hk with
  | 0, _ => simp only [cancelFrame, exec, htask, ↓reduceIte]
  | 1, _ => simp only [cancelFrame, exec]
  | 2, _ => simp only [cancelFrame, exec, haction, ↓reduceIte]

theorem cancelFrame_ne_ret (p : Ptr) {k : Nat} (hk : k < 3) (status : Status) (h : Handle) :
    cancelFrame p k ≠ .ret status h := by
  match k, hk with
  | 0, _ => exact fun he => (by cases he)
  | 1, _ => exact fun he => (by cases he)
  | 2, _ => exact fun he => (by cases he)

/-- A step of any thread takes the call on by one if it is a step of its own thread. -/
theorem step_cancelFrame {s : State Node Frame} {t : Nat} {p : Ptr} {rest : List Frame} {k : Nat}
    (hs : s.callStacks[t]? = some (cancelFrame p k :: rest)) {e : Nat × Choice}
    (he : Guarded (fun _ _ _ n _ => n.OnAction p) s e) (hk : e.1 = t → k < 3) :
    (step code s e).callStacks[t]? =
      some (cancelFrame p (if e.1 = t then k + 1 else k) :: rest) := by
  obtain ⟨t', c⟩ := e
  by_cases ht : t' = t
  · subst ht
    have htop : s.top t' = some (cancelFrame p k) := by
      rw [State.top, hs]
      rfl
    obtain ⟨-, hstack⟩ := step_of_stack code hs c
    rw [hstack, if_pos rfl, code, exec_cancelFrame (he _ htop) t' c (hk rfl)]
    rfl
  · rw [if_neg ht]
    unfold step
    split
    · rw [List.getElem?_set_ne ht, hs]
    · exact hs

/-- A call that takes at most three steps, among the steps of all other threads. -/
theorem run_cancelFrame {s : State Node Frame} {t : Nat} {p : Ptr} {rest : List Frame} {k : Nat}
    (hs : s.callStacks[t]? = some (cancelFrame p k :: rest)) {es : List (Nat × Choice)}
    (hes : Always code (fun _ _ _ n _ => n.OnAction p) s es)
    (hk : k + es.countP (fun e => e.1 = t) ≤ 3) :
    (run code s es).callStacks[t]? =
      some (cancelFrame p (k + es.countP fun e => e.1 = t) :: rest) := by
  induction es generalizing s k with
  | nil => exact hs
  | cons e es ih =>
    rw [List.countP_cons] at hk ⊢
    by_cases ht : e.1 = t
    · simp only [ht, decide_true, ↓reduceIte] at hk ⊢
      have hstep := step_cancelFrame hs hes.1 (fun _ => by omega)
      rw [if_pos ht] at hstep
      rw [run_cons, ih hstep hes.2 (by omega), Nat.add_right_comm, ← Nat.add_assoc]
    · simp only [ht, decide_false, Bool.false_eq_true, ↓reduceIte, add_zero] at hk ⊢
      have hstep := step_cancelFrame hs hes.1 (fun h => absurd h ht)
      rw [if_neg ht] at hstep
      exact ih hstep hes.2 hk

/-- From every state, and whatever the other threads do: a call of `mtapi_task_cancel` for a valid
task on a valid action never reports success. It has not returned after two steps of its thread,
and with the third step it reports an unknown error. -/
theorem task_cancel_unknown {s : State Node Frame} {t : Nat} {p : Ptr} {rest : List Frame}
    (hs : s.callStacks[t]? = some (.cancel p :: rest)) (es : List (Nat × Choice))
    (hes : Always code (fun _ _ _ n _ => n.OnAction p) s es) :
    (es.countP (fun e => e.1 = t) < 3 → ∀ status h,
        (run code s es).callStacks[t]? ≠ some (.ret status h :: rest)) ∧
      (es.countP (fun e => e.1 = t) = 3 →
        (run code s es).callStacks[t]? = some (.ret .errUnknown Handle.invalid :: rest)) := by
  have hrun := run_cancelFrame (k := 0) hs hes
  simp only [zero_add] at hrun
  constructor
  · intro hlt status h hret
    rw [hrun hlt.le] at hret
    have hsame := Option.some.inj hret
    rw [List.cons.injEq] at hsame
    exact cancelFrame_ne_ret p hlt status h hsame.1
  · intro heq
    rw [hrun heq.le, heq]
    rfl

/-- The status that an interface function returns. -/
def Frame.returned : Frame → Option Status
  | .ret status _ => some status
  | _ => none

/-- The task whose action function is called. -/
def Frame.actionTask : Frame → Option Ptr
  | .actionFunction ctx _ => some ctx.task
  | _ => none

/-- A task is started, and the worker has taken it and read its state. A client cancels it. -/
def takeAndCancel : List (Nat × Choice) :=
  calls 1 (.actionCreate 1 none) 4 ++
    calls 1 (.taskStart ⟨0, 1⟩ none Handle.invalid) 20 ++ goes 0 5 ++
    [(1, .call (.taskCancel ⟨0, 1⟩))]

/-- The cancelled task is waited for when its action function has returned. -/
def cancelIgnored : List (Nat × Choice) :=
  takeAndCancel ++ goes 1 4 ++ goes 0 4 ++ [(0, .leave)] ++ goes 0 5 ++
    calls 1 (.taskWait ⟨0, 1⟩ false) 8

/-- No instance has begun when the call is made. It reports an unknown error, the action function
is called after it has returned, and `mtapi_task_wait` reports success. -/
theorem task_cancel_ignored :
    (run code (boot (smallNode 1) .workStealVhpf 1) takeAndCancel).callStacks[1]? =
        some [.cancel ⟨0, 1⟩, .client] ∧
      (run code (boot (smallNode 1) .workStealVhpf 1) takeAndCancel).mem.OnAction ⟨0, 1⟩ ∧
      ((run code (boot (smallNode 1) .workStealVhpf 1) takeAndCancel).mem.task
        ⟨0, 1⟩).currentInstance = 0 ∧
      ((run code (boot (smallNode 1) .workStealVhpf 1) (takeAndCancel ++ goes 1 3)).top 1).bind
        Frame.returned = some .errUnknown ∧
      ((run code (boot (smallNode 1) .workStealVhpf 1)
        (takeAndCancel ++ goes 1 4 ++ goes 0 3)).top 0).bind Frame.actionTask = none ∧
      ((run code (boot (smallNode 1) .workStealVhpf 1)
        (takeAndCancel ++ goes 1 4 ++ goes 0 4)).top 0).bind Frame.actionTask = some ⟨0, 1⟩ ∧
      ((run code (boot (smallNode 1) .workStealVhpf 1) cancelIgnored).top 1).bind
        Frame.returned = some .success := by
  refine ⟨rfl, ?_⟩
  decide +kernel

/-- A call that meets no other thread. -/
theorem task_cancel_unknown_alone :
    (run code (run code (boot (smallNode 1) .workStealVhpf 1) takeAndCancel)
      (goes 1 3)).callStacks[1]? = some [.ret .errUnknown Handle.invalid, .client] :=
  (task_cancel_unknown (p := ⟨0, 1⟩) rfl (goes 1 3) (by decide +kernel)).2 (by decide)

end Embb.Mtapi
