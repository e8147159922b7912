import Embb.Mtapi.Scheduler.Machine

/-!
# The two ways to dispatch a task

A worker dispatches a task in its main loop, which looks at the state of the task, and in
`embb_mtapi_scheduler_execute_task_or_yield` while it waits, which does not. Both are taken
here as calls that meet no other thread, from the task in hand to the next scan for work.
-/

namespace Embb.Mtapi

open Threads

/-- What is done with a task, apart from the changes to the node. -/
inductive DispatchEvent where
  | executed (task : Ptr)
  | requeued (task : Ptr)
  | finished (queue : Ptr)
  | completed (func : Nat) (task : Handle)
  deriving DecidableEq, Repr

/-- What a program point does with a task. -/
def Frame.dispatchEvent : Frame → List DispatchEvent
  | .executeRunning ctx => [.executed ctx.task]
  | .schedule p _ .retained => [.requeued p]
  | .workerFinished _ q => [.finished q]
  | _ => []

/-- A program point of a dispatch, other than one of the application. -/
def Frame.dispatches : Frame → Bool
  | .worker | .client | .actionFunction .. | .completeFunc .. => false
  | _ => true

/-- The code of the application: what a call of the action function or of the completion callback
does to the node. No function changes the attributes of the task that is executed. -/
structure Application where
  actionFunction : Ptr → Node → Node
  completeFunc : Nat → Handle → Node → Node
  attributes_actionFunction : ∀ p n, ((actionFunction p n).task p).attributes =
    (n.task p).attributes

/-- The steps of a thread from the frames to the next scan for work. -/
inductive Dispatches (t : Nat) (app : Application) :
    List Frame → Node → Node → List DispatchEvent → Prop
  | return (n : Node) : Dispatches t app [] n n []
  | loop (n : Node) : Dispatches t app [.worker] n n []
  | actionFunction {ctx : Context} {a : Ptr} {rest : List Frame} {n n' : Node}
      {log : List DispatchEvent} :
      Dispatches t app (.executeTodo ctx a :: rest) (app.actionFunction ctx.task n) n' log →
      Dispatches t app (.actionFunction ctx a :: rest) n n' log
  | completeFunc {func : Nat} {h : Handle} {rest : List Frame} {n n' : Node}
      {log : List DispatchEvent} :
      Dispatches t app rest (app.completeFunc func h n) n' log →
      Dispatches t app (.completeFunc func h :: rest) n n' (.completed func h :: log)
  | step {f : Frame} {rest : List Frame} {n n' : Node} {log : List DispatchEvent} :
      f.dispatches = true →
      Dispatches t app ((exec t .go f n).2 ++ rest) (n.access (exec t .go f n).1) n' log →
      Dispatches t app (f :: rest) n n' (f.dispatchEvent ++ log)

/-- Both ways do the same with the task, and leave the task, its action, its queue and its group
the same. -/
def DispatchedAlike (t : Nat) (app : Application) (n : Node) (p : Ptr) : Prop :=
  ∃ n₁ n₂ log, Dispatches t app [.workerQueue p] n n₁ log ∧
    Dispatches t app [.helperContext p] n n₂ log ∧
    n₁.task p = n₂.task p ∧ n₁.action (n.task p).action = n₂.action (n.task p).action ∧
    n₁.queue (n.task p).queue = n₂.queue (n.task p).queue ∧
    n₁.group (n.task p).group = n₂.group (n.task p).group

namespace Node

/-- The last part of `embb_mtapi_task_execute`. -/
def notifyGroup (n : Node) (p : Ptr) : Node :=
  if n.groupPool.isHandleValid (n.task p).group then
    n.access (.groupPush (n.task p).group p)
  else n

/-- `embb_mtapi_task_execute` after the action function. -/
def finishInstance (n : Node) (p a : Ptr) : Node × Bool :=
  if (n.task p).instancesTodo = 1 then
    ((((n.access (.taskTodo p)).access (.taskState p .completed)).access
      (.actionTasks a (-1))).notifyGroup p, true)
  else ((n.access (.taskTodo p)).access (.actionTasks a (-1)), false)

/-- `embb_mtapi_task_execute` for a task whose action was deleted. -/
def finishDeleted (n : Node) (p : Ptr) (todo : Nat) : Node × Bool :=
  if todo = 1 then
    (((n.access (.taskError p .errActionDeleted)).access (.taskState p .error)).notifyGroup p,
      true)
  else ((n.access (.taskError p .errActionDeleted)).access (.taskState p .error), false)

/-- `embb_mtapi_task_execute` after the task is marked as running. -/
def executeAction (app : Application) (n : Node) (p : Ptr) (todo : Nat) : Node × Bool :=
  if n.actionPool.isHandleValid (n.task p).action then
    if (n.task p).errorCode = .success then
      (app.actionFunction p n).finishInstance p (n.task p).action
    else n.finishInstance p (n.task p).action
  else n.finishDeleted p todo

/-- `embb_mtapi_task_execute` as one call. -/
def taskExecute (app : Application) (n : Node) (p : Ptr) : Node × Bool :=
  (n.access (.taskState p .running)).executeAction app p (n.task p).attributes.numInstances

end Node

section Steps

variable {t : Nat} {app : Application} {f : Frame} {rest : List Frame} {n n' : Node}
  {log : List DispatchEvent}

theorem dispatches_step (hf : f.dispatches = true) :
    Dispatches t app (f :: rest) n n' log ↔ ∃ log', log = f.dispatchEvent ++ log' ∧
      Dispatches t app ((exec t .go f n).2 ++ rest) (n.access (exec t .go f n).1) n' log' := by
  constructor
  · intro h
    cases h with
    | step _ h => exact ⟨_, rfl, h⟩
    | loop | actionFunction | completeFunc => cases hf
  · rintro ⟨log', rfl, h⟩
    exact .step hf h

theorem dispatches_silent (hf : f.dispatches = true) (he : f.dispatchEvent = []) :
    Dispatches t app (f :: rest) n n' log ↔
      Dispatches t app ((exec t .go f n).2 ++ rest) (n.access (exec t .go f n).1) n' log := by
  rw [dispatches_step hf, he]
  constructor
  · rintro ⟨log', rfl, h⟩
    exact h
  · exact fun h => ⟨log, rfl, h⟩

theorem dispatches_actionFunction {ctx : Context} {a : Ptr} :
    Dispatches t app (.actionFunction ctx a :: rest) n n' log ↔
      Dispatches t app (.executeTodo ctx a :: rest) (app.actionFunction ctx.task n) n' log := by
  constructor
  · intro h
    cases h with
    | actionFunction h => exact h
    | step hf => cases hf
  · exact .actionFunction

theorem dispatches_executeGroup {ctx : Context} :
    Dispatches t app (.executeGroup ctx :: rest) n n' log ↔
      Dispatches t app (ctx.resume true ++ rest) (n.notifyGroup ctx.task) n' log := by
  rw [dispatches_silent rfl rfl, exec, Node.notifyGroup]
  split
  · rw [List.singleton_append, dispatches_silent rfl rfl, exec]
    rfl
  · rfl

theorem dispatches_executeTodo {ctx : Context} {a : Ptr} :
    Dispatches t app (.executeTodo ctx a :: rest) n n' log ↔
      Dispatches t app (ctx.resume (n.finishInstance ctx.task a).2 ++ rest)
        (n.finishInstance ctx.task a).1 n' log := by
  rw [dispatches_silent rfl rfl, exec, Node.finishInstance]
  split
  · rw [List.singleton_append, dispatches_silent rfl rfl, exec, List.singleton_append,
      dispatches_silent rfl rfl, exec, if_pos rfl, List.singleton_append, dispatches_executeGroup]
  · next htodo =>
    rw [List.singleton_append, dispatches_silent rfl rfl, exec, if_neg htodo]

theorem dispatches_executeDeleted {ctx : Context} {todo : Nat} :
    Dispatches t app (.executeDeleted ctx todo :: rest) n n' log ↔
      Dispatches t app (ctx.resume (n.finishDeleted ctx.task todo).2 ++ rest)
        (n.finishDeleted ctx.task todo).1 n' log := by
  rw [dispatches_silent rfl rfl, exec, Node.finishDeleted, List.singleton_append,
    dispatches_silent rfl rfl, exec]
  split
  · rw [List.singleton_append, dispatches_executeGroup]
  · rfl

theorem dispatches_executeAction {ctx : Context} {todo : Nat} :
    Dispatches t app (.executeAction ctx todo :: rest) n n' log ↔
      Dispatches t app (ctx.resume (n.executeAction app ctx.task todo).2 ++ rest)
        (n.executeAction app ctx.task todo).1 n' log := by
  rw [dispatches_silent rfl rfl, exec, Node.executeAction]
  split
  · rw [List.singleton_append, dispatches_silent rfl rfl, exec]
    split
    · next hcode =>
      have hcode' : (n.task ctx.task).errorCode = .success := hcode
      rw [List.singleton_append, dispatches_actionFunction, dispatches_executeTodo, if_pos hcode']
      rfl
    · next hcode =>
      have hcode' : (n.task ctx.task).errorCode ≠ .success := hcode
      rw [List.singleton_append, dispatches_executeTodo, if_neg hcode']
      rfl
  · rw [List.singleton_append, dispatches_executeDeleted]
    rfl

theorem dispatches_execute {ctx : Context} :
    Dispatches t app (.executeRunning ctx :: rest) n n' log ↔
      ∃ log', log = .executed ctx.task :: log' ∧
        Dispatches t app (ctx.resume (n.taskExecute app ctx.task).2 ++ rest)
          (n.taskExecute app ctx.task).1 n' log' := by
  rw [dispatches_step rfl]
  refine exists_congr fun log' => and_congr_right fun _ => ?_
  rw [exec, List.singleton_append, dispatches_executeAction]
  rfl

theorem dispatches_loop : Dispatches t app [.worker] n n' log ↔ n' = n ∧ log = [] := by
  constructor
  · intro h
    cases h with
    | loop => exact ⟨rfl, rfl⟩
    | step hf => cases hf
  · rintro ⟨rfl, rfl⟩
    exact .loop _

theorem dispatches_return : Dispatches t app [] n n' log ↔ n' = n ∧ log = [] := by
  constructor
  · rintro ⟨⟩
    exact ⟨rfl, rfl⟩
  · rintro ⟨rfl, rfl⟩
    exact .return _

/-- A callback shows; without one the worker is back in its loop. -/
theorem dispatches_workerCallback {p : Ptr} :
    Dispatches t app [.workerCallback p] n n' [] ↔
      (n.task p).attributes.completeFunc = none ∧ n' = n := by
  rw [dispatches_silent rfl rfl, exec]
  split
  · next func hfunc =>
    rw [hfunc]
    constructor
    · intro h
      cases h with
      | step hf => cases hf
    · rintro ⟨⟨⟩, -⟩
  · next hnone =>
    rw [List.singleton_append, dispatches_loop]
    simp only [hnone, true_and, and_true]
    rfl

variable {p : Ptr}

theorem not_dispatches_workerCallback {q : Ptr} :
    ¬ Dispatches t app [.workerCallback p] n n' [.executed q] := by
  rw [dispatches_silent rfl rfl, exec]
  split
  · intro h
    cases h with
    | step hf => cases hf
  · rw [List.singleton_append, dispatches_loop]
    exact fun h => List.cons_ne_nil _ _ h.2

theorem not_dispatches_workerFinished {q r : Ptr} :
    ¬ Dispatches t app [.workerFinished p q] n n' [.executed r] := by
  rw [dispatches_step rfl]
  rintro ⟨log', hlog, -⟩
  cases hlog

theorem not_dispatches_workerCancelled {lq : Option Ptr} {q : Ptr} :
    ¬ Dispatches t app [.workerCancelled p lq] n n' [.executed q] := by
  rw [dispatches_silent rfl rfl, exec, List.singleton_append]
  cases lq with
  | none =>
    rw [dispatches_silent rfl rfl, exec]
    exact not_dispatches_workerCallback
  | some r =>
    rw [dispatches_silent rfl rfl, exec]
    split
    · exact not_dispatches_workerFinished
    · exact not_dispatches_workerCallback

theorem dispatches_helper :
    Dispatches t app [.helperContext p] n n' log ↔
      log = [.executed p] ∧ n' = ((n.access (.taskContext p)).taskExecute app p).1 := by
  rw [dispatches_silent rfl rfl, exec, List.singleton_append, dispatches_execute]
  constructor
  · rintro ⟨log', rfl, h⟩
    obtain ⟨rfl, rfl⟩ := dispatches_return.mp h
    exact ⟨rfl, rfl⟩
  · rintro ⟨rfl, rfl⟩
    exact ⟨[], rfl, .return _⟩

/-- What follows the execution in the main loop does not show only if no queue is told and no
callback is called. -/
theorem dispatches_workerResume {lq : Option Ptr} {i k : Nat} {done : Bool} :
    Dispatches t app (Context.resume ⟨.worker lq, p, i, k⟩ done) n n' [] ↔
      ¬ (lq.isSome = true ∧ done = true) ∧ (n.task p).attributes.completeFunc = none ∧
        n' = n := by
  cases lq with
  | none =>
    rw [Context.resume, dispatches_workerCallback]
    exact ⟨fun h => ⟨fun hs => (by cases hs.1), h⟩, fun h => h.2⟩
  | some q =>
    cases done with
    | false =>
      have hresume : Context.resume ⟨.worker (some q), p, i, k⟩ false = [.workerCallback p] := rfl
      rw [hresume, dispatches_workerCallback]
      exact ⟨fun h => ⟨fun hs => (by cases hs.2), h⟩, fun h => h.2⟩
    | true =>
      have hresume : Context.resume ⟨.worker (some q), p, i, k⟩ true = [.workerFinished p q] := rfl
      rw [hresume, dispatches_step rfl]
      constructor
      · rintro ⟨log', hlog, -⟩
        cases hlog
      · exact fun h => absurd ⟨rfl, rfl⟩ h.1

theorem dispatches_workerContext {lq : Option Ptr} :
    Dispatches t app [.workerContext p lq] n n' [.executed p] ↔
      ¬ (lq.isSome = true ∧ ((n.access (.taskContext p)).taskExecute app p).2 = true) ∧
        (((n.access (.taskContext p)).taskExecute app p).1.task p).attributes.completeFunc = none ∧
        n' = ((n.access (.taskContext p)).taskExecute app p).1 := by
  rw [dispatches_silent rfl rfl, exec, List.singleton_append, dispatches_execute,
    ← dispatches_workerResume (i := (n.task p).currentInstance)
      (k := (n.task p).attributes.numInstances), List.append_nil]
  constructor
  · rintro ⟨log', hlog, h⟩
    cases hlog
    exact h
  · exact fun h => ⟨[], rfl, h⟩

theorem dispatches_workerSwitch {lq : Option Ptr} :
    Dispatches t app [.workerSwitch p lq] n n' [.executed p] ↔
      ((n.task p).state = .scheduled ∨ (n.task p).state = .running) ∧
        Dispatches t app [.workerContext p lq] n n' [.executed p] := by
  rw [dispatches_silent rfl rfl, exec]
  split
  · next hs => exact ⟨fun h => ⟨Or.inl hs, h⟩, fun h => h.2⟩
  · next hs => exact ⟨fun h => ⟨Or.inr hs, h⟩, fun h => h.2⟩
  · next hs =>
    rw [List.singleton_append, dispatches_step rfl, hs]
    constructor
    · rintro ⟨log', hlog, -⟩
      cases hlog
    · rintro ⟨hs | hs, -⟩ <;> cases hs
  · next hs =>
    rw [hs]
    refine ⟨fun h => absurd h not_dispatches_workerCancelled, ?_⟩
    rintro ⟨hs | hs, -⟩ <;> cases hs
  · next hscheduled hrunning _ _ =>
    refine ⟨fun h => absurd h not_dispatches_workerCallback, ?_⟩
    rintro ⟨hs | hs, -⟩
    · exact absurd hs hscheduled
    · exact absurd hs hrunning

/-- The main loop executes a task and does nothing else with it. -/
theorem dispatches_worker :
    Dispatches t app [.workerQueue p] n n' [.executed p] ↔
      ((n.task p).state = .scheduled ∨ (n.task p).state = .running) ∧
        ¬ (n.queuePool.isHandleValid (n.task p).queue = true ∧
          ((n.access (.taskContext p)).taskExecute app p).2 = true) ∧
        (((n.access (.taskContext p)).taskExecute app p).1.task p).attributes.completeFunc = none ∧
        n' = ((n.access (.taskContext p)).taskExecute app p).1 := by
  rw [dispatches_silent rfl rfl, exec]
  split
  · next hvalid =>
    rw [List.singleton_append, dispatches_workerSwitch, dispatches_workerContext, hvalid]
    rfl
  · next hvalid =>
    rw [List.singleton_append, dispatches_workerSwitch, dispatches_workerContext,
      Bool.eq_false_iff.mpr hvalid]
    rfl

end Steps

/-- An application whose functions do nothing. -/
def Application.idle : Application := ⟨fun _ n => n, fun _ _ n => n, fun _ _ => rfl⟩

/-- An application whose action functions wait until the other instances of the task are over. -/
def Application.waiting : Application where
  actionFunction p n := n.modifyTask p ({ · with instancesTodo := 1 })
  completeFunc _ _ n := n
  attributes_actionFunction p n := by rw [Node.task_modifyTask_self]

namespace Node

/-- The instance can be the last one of its task. While its action function waits, the other ones
can be executed; without an action, the number of instances is looked at. -/
def canBeLast (n : Node) (p : Ptr) : Bool :=
  if n.actionPool.isHandleValid (n.task p).action then
    decide ((n.task p).errorCode = .success ∨ (n.task p).instancesTodo = 1)
  else decide ((n.task p).attributes.numInstances = 1)

theorem attributes_notifyGroup (n : Node) (p q : Ptr) :
    ((n.notifyGroup p).task q).attributes = (n.task q).attributes := by
  unfold notifyGroup
  split <;> rfl

theorem attributes_modifyTask (n : Node) (p q : Ptr) {f : Task → Task}
    (h : ∀ x, (f x).attributes = x.attributes) :
    ((n.modifyTask p f).task q).attributes = (n.task q).attributes :=
  n.taskPool.field_modify p.id q.id Task.attributes h

theorem attributes_finishInstance (n : Node) (p a q : Ptr) :
    ((n.finishInstance p a).1.task q).attributes = (n.task q).attributes := by
  have htodo : ((n.access (.taskTodo p)).task q).attributes = (n.task q).attributes :=
    n.attributes_modifyTask p q fun _ => rfl
  have hstate : (((n.access (.taskTodo p)).access (.taskState p .completed)).task q).attributes =
      (n.task q).attributes := by
    rw [← htodo]
    exact (n.access (.taskTodo p)).attributes_modifyTask p q fun _ => rfl
  unfold finishInstance
  split
  · rw [attributes_notifyGroup]
    exact hstate
  · exact htodo

theorem attributes_finishDeleted (n : Node) (p q : Ptr) (todo : Nat) :
    ((n.finishDeleted p todo).1.task q).attributes = (n.task q).attributes := by
  have herror : ((n.access (.taskError p .errActionDeleted)).task q).attributes =
    (n.task q).attributes := n.attributes_modifyTask p q fun _ => rfl
  have hstate : (((n.access (.taskError p .errActionDeleted)).access
      (.taskState p .error)).task q).attributes = (n.task q).attributes := by
    rw [← herror]
    exact (n.access (.taskError p .errActionDeleted)).attributes_modifyTask p q fun _ => rfl
  unfold finishDeleted
  split
  · rw [attributes_notifyGroup]
    exact hstate
  · exact hstate

/-- To execute a task keeps its attributes. -/
theorem attributes_taskExecute (app : Application) (n : Node) (p : Ptr) :
    ((n.taskExecute app p).1.task p).attributes = (n.task p).attributes := by
  have hrunning : ((n.access (.taskState p .running)).task p).attributes =
    (n.task p).attributes := n.attributes_modifyTask p p fun _ => rfl
  rw [← hrunning, taskExecute, executeAction]
  split
  · split
    · rw [attributes_finishInstance, app.attributes_actionFunction]
    · rw [attributes_finishInstance]
  · rw [attributes_finishDeleted]

/-- The task when it is marked as running. -/
theorem task_running (n : Node) (p : Ptr) :
    ((n.access (.taskContext p)).access (.taskState p .running)).task p =
      { n.task p with
        currentInstance := uintSucc (n.task p).currentInstance
        state := .running } := by
  simp only [access, setTaskState, task_modifyTask_self]

theorem finishInstance_done (n : Node) (p a : Ptr) :
    (n.finishInstance p a).2 = decide ((n.task p).instancesTodo = 1) := by
  unfold finishInstance
  split
  · next h => exact (decide_eq_true h).symm
  · next h => exact (decide_eq_false h).symm

theorem finishDeleted_done (n : Node) (p : Ptr) (todo : Nat) :
    (n.finishDeleted p todo).2 = decide (todo = 1) := by
  unfold finishDeleted
  split
  · next h => exact (decide_eq_true h).symm
  · next h => exact (decide_eq_false h).symm

/-- What `embb_mtapi_task_execute` reports. -/
theorem taskExecute_done (app : Application) (n : Node) (p : Ptr) :
    ((n.access (.taskContext p)).taskExecute app p).2 =
      if n.actionPool.isHandleValid (n.task p).action then
        if (n.task p).errorCode = .success then
          decide (((app.actionFunction p ((n.access (.taskContext p)).access
            (.taskState p .running))).task p).instancesTodo = 1)
        else decide ((n.task p).instancesTodo = 1)
      else decide ((n.task p).attributes.numInstances = 1) := by
  have hpool : ((n.access (.taskContext p)).access (.taskState p .running)).actionPool =
    n.actionPool := rfl
  have hattributes : ((n.access (.taskContext p)).task p).attributes = (n.task p).attributes :=
    n.attributes_modifyTask p p fun _ => rfl
  rw [taskExecute, executeAction, hpool, task_running, hattributes]
  split
  · split
    · rw [finishInstance_done]
    · rw [finishInstance_done, task_running]
  · rw [finishDeleted_done]

theorem canBeLast_of_done {app : Application} {n : Node} {p : Ptr}
    (h : ((n.access (.taskContext p)).taskExecute app p).2 = true) : n.canBeLast p = true := by
  rw [taskExecute_done] at h
  unfold canBeLast
  split at h
  · next hvalid =>
    rw [if_pos hvalid]
    split at h
    · next hcode => exact decide_eq_true (Or.inl hcode)
    · exact decide_eq_true (Or.inr (of_decide_eq_true h))
  · next hvalid =>
    rw [if_neg hvalid]
    exact h

theorem done_of_canBeLast {n : Node} {p : Ptr} (h : n.canBeLast p = true) :
    ((n.access (.taskContext p)).taskExecute .waiting p).2 = true := by
  rw [taskExecute_done]
  unfold canBeLast at h
  split at h
  · next hvalid =>
    rw [if_pos hvalid]
    split
    · rw [Application.waiting, task_modifyTask_self]
      rfl
    · next hcode => exact decide_eq_true ((of_decide_eq_true h).resolve_left hcode)
  · next hvalid =>
    rw [if_neg hvalid]
    exact h

end Node

/-- What an application sees of the two ways. -/
theorem dispatchedAlike_app_iff {t : Nat} {app : Application} {n : Node} {p : Ptr} :
    DispatchedAlike t app n p ↔
      ((n.task p).state = .scheduled ∨ (n.task p).state = .running) ∧
        ¬ (n.queuePool.isHandleValid (n.task p).queue = true ∧
          ((n.access (.taskContext p)).taskExecute app p).2 = true) ∧
        (n.task p).attributes.completeFunc = none := by
  have hattributes : (((n.access (.taskContext p)).taskExecute app p).1.task p).attributes =
      (n.task p).attributes := by
    rw [Node.attributes_taskExecute]
    exact n.attributes_modifyTask p p fun _ => rfl
  constructor
  · rintro ⟨n₁, n₂, log, h₁, h₂, -⟩
    obtain ⟨rfl, -⟩ := dispatches_helper.mp h₂
    obtain ⟨hstate, hqueue, hfunc, -⟩ := dispatches_worker.mp h₁
    exact ⟨hstate, hqueue, hattributes ▸ hfunc⟩
  · rintro ⟨hstate, hqueue, hfunc⟩
    exact ⟨_, _, _, dispatches_worker.mpr ⟨hstate, hqueue, hattributes ▸ hfunc, rfl⟩,
      dispatches_helper.mpr ⟨rfl, rfl⟩, rfl, rfl, rfl, rfl⟩

/-- The tasks for which the main loop does nothing but to execute them. -/
structure Node.OnlyExecuted (n : Node) (p : Ptr) : Prop where
  state : (n.task p).state = .scheduled ∨ (n.task p).state = .running
  completeFunc : (n.task p).attributes.completeFunc = none
  queue : n.queuePool.isHandleValid (n.task p).queue = true → n.canBeLast p = false

/-- A task is dispatched alike in the main loop and in a wait, whatever its action does, if and
only if it is scheduled or running, has no callback, and is in no queue that would be told. -/
theorem dispatchedAlike_iff (t : Nat) (n : Node) (p : Ptr) :
    (∀ app, DispatchedAlike t app n p) ↔ n.OnlyExecuted p := by
  constructor
  · intro h
    obtain ⟨hstate, hqueue, hfunc⟩ := dispatchedAlike_app_iff.mp (h .waiting)
    refine ⟨hstate, hfunc, fun hvalid => Bool.eq_false_iff.mpr fun hlast => ?_⟩
    exact hqueue ⟨hvalid, Node.done_of_canBeLast hlast⟩
  · intro h app
    refine dispatchedAlike_app_iff.mpr ⟨h.state, fun hq => ?_, h.completeFunc⟩
    exact Bool.false_ne_true ((h.queue hq.1).symm.trans (Node.canBeLast_of_done hq.2))

/-- A task is started and cancelled while it lies in a worker queue. -/
def cancelQueued : List (Nat × Choice) :=
  calls 1 (.actionCreate 1 none) 4 ++
    calls 1 (.taskStart ⟨0, 1⟩ none Handle.invalid) 20 ++ calls 1 (.taskCancel ⟨0, 1⟩) 4

/-- A worker that waits executes the cancelled task, and the main loop does not. -/
theorem cancelled_dispatched_differently :
    ((run code (boot (smallNode 1) .workStealVhpf 1) cancelQueued).mem.workerQueue
        ⟨0, false, 0⟩).pop.2 = some ⟨0, 1⟩ ∧
      ((run code (boot (smallNode 1) .workStealVhpf 1) cancelQueued).mem.task ⟨0, 1⟩).state =
        .cancelled ∧
      ¬ DispatchedAlike 0 .idle
        (run code (boot (smallNode 1) .workStealVhpf 1) cancelQueued).mem ⟨0, 1⟩ := by
  have hstate : ((run code (boot (smallNode 1) .workStealVhpf 1) cancelQueued).mem.task
    ⟨0, 1⟩).state = .cancelled := by decide +kernel
  refine ⟨by decide +kernel, hstate, fun h => ?_⟩
  rcases (dispatchedAlike_app_iff.mp h).1 with hs | hs <;> cases hstate.symm.trans hs

end Embb.Mtapi
