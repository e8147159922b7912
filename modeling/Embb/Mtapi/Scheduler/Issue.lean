import Embb.Mtapi.Scheduler.Machine

/-!
# Which program point issues which access

The converse reading of the step function: an access determines the program
points that can have issued it, and what they checked before.
-/

namespace Embb.Mtapi

/-- The program points that issue an access, with the local variables they hold. -/
def Access.IssuedBy (n : Node) : Access → Frame → Prop
  | .read, _ => True
  | .taskAllocate, f => ∃ call, f = .startAllocate call
  | .taskInit p call, f => f = .startInit call p
  | .taskGroup p none, f => ∃ call, f = .startGroup call p
  | .taskGroup p (some g), f => ∃ call, call.group = g ∧ f = .startGroupCount call p
  | .taskQueue p none, f => ∃ call, f = .startQueue call p
  | .taskQueue p (some q), f => ∃ call, call.queue = q ∧ f = .startQueueCount call p
  | .taskAction p a, f =>
    n.actionPool.isHandleValid a = true ∧
      ∃ call i, a = (n.jobList call.job.id).actions i ∧ f = .startAction call p i
  | .taskState p s, f =>
    (∃ ctx, ctx.task = p ∧ s = .running ∧ f = .executeRunning ctx) ∨
    (∃ ctx a, ctx.task = p ∧ s = .completed ∧ f = .executeCompleted ctx a) ∨
    (∃ ctx todo, ctx.task = p ∧ s = .error ∧ f = .executeError ctx todo) ∨
    (∃ call, s = .scheduled ∧ f = .startSchedule call p) ∨
    (s = .error ∧ f = .startFailed p) ∨ (s = .cancelled ∧ f = .cancelState p) ∨
    ∃ v r ii rest finite, f = .processState v p r ii rest finite
  | .taskError p e, f =>
    (∃ ctx a, ctx.task = p ∧ e.settable = true ∧ f = .actionFunction ctx a) ∨
    (∃ lq, e = .errActionCancelled ∧ f = .workerCancelled p lq) ∨
    (∃ ctx todo, ctx.task = p ∧ e = .errActionDeleted ∧ f = .executeDeleted ctx todo) ∨
    ∃ v r ii rest finite, f = .processError v p e r ii rest finite
  | .taskContext p, f => (∃ lq, f = .workerContext p lq) ∨ f = .helperContext p
  | .taskTodo p, f =>
    (∃ ctx a, ctx.task = p ∧ f = .executeTodo ctx a) ∨ ∃ lq, f = .workerCancelledTodo p lq
  | .taskFinalize p, f => ∃ caller, f = .taskDelete p caller
  | .taskDeallocate p, f => ∃ caller, f = .taskDeallocate p caller
  | .actionTasks a d, f =>
    (∃ ctx todo, d = -1 ∧ f = .executeNumTasks ctx a todo) ∨
    (∃ p ii affinity caller, d = 1 ∧ f = .scheduleCount p ii a affinity caller) ∨
    ∃ p caller, d = -1 ∧ f = .scheduleUndo p a caller
  | .queueTasks q d, f => ∃ p, d = -1 ∧ f = .workerFinished p q
  | .groupTasks g d, f =>
    (∃ finite status, d = -1 ∧ f = .waitAllCount g finite status) ∨
    ∃ status, d = -1 ∧ f = .waitAnyCount g status
  | .push r p, f =>
    r ∈ n.processOrder ∧ ((n.workerQueue r).push p).2 = true ∧
      ∃ ii isPrivate a caller, r = ⟨ii, isPrivate, (n.task p).attributes.priority⟩ ∧
        f = .schedulePush p ii isPrivate a caller
  | .pop r, f =>
    (n.workerQueue r).lock = false ∧
      ∃ rest, f = .workerScan (r :: rest) ∨ f = .helperScan (r :: rest)
  | .lock r held, f =>
    (∃ v rest finite, held = true ∧ f = .processTasks v (r :: rest) finite) ∨
    ∃ v ii rest finite, held = false ∧ f = .processQueue v r ii rest finite
  | .groupPush g p, f => ∃ ctx, ctx.task = p ∧ f = .executeGroupPush ctx g
  | .groupPop g, f =>
    (∃ finite status, f = .waitAllPop g finite status) ∨ ∃ finite, f = .waitAnyPop g finite
  | .affineTaskCounter, f =>
    ∃ p a affinity caller, f = .scheduleAffine p a affinity caller
  | .actionCreate jobId _, f => ∃ attributes, f = .actionCreate jobId attributes
  | .actionEnabled a _, f => (∃ finite, f = .actionDisableStore a finite) ∨ f = .actionEnableStore a
  | .actionDeallocate a, f => ∃ status, f = .actionDeallocate a status
  | .jobAdd jobId h, f => ∃ a, h = (n.action a).handle ∧ f = .actionAdd a jobId
  | .jobRemove _ h, f => ∃ a status, h = (n.action a).handle ∧ f = .actionRemove a status
  | .queueAllocate, f => ∃ queueId job attributes, f = .queueCreate queueId job attributes
  | .queueCreate queueId job _, f =>
    n.jobIsHandleValid job = true ∧ ∃ attributes, f = .queueCreate queueId job attributes
  | .queueEnabled q _, f => (∃ finite, f = .queueDisableStore q finite) ∨ f = .queueEnableStore q
  | .queueFinalize q, f => ∃ status, f = .queueFinalize q status
  | .queueDeallocate q, f => ∃ status, f = .queueDeallocate q status
  | .groupCreate, f => f = .groupCreate
  | .groupFinalize g, f => ∃ status, f = .groupFinalize g status
  | .groupDeallocate g, f => ∃ status, f = .groupDeallocate g status

/-- Every access is issued by one of the program points listed for it. -/
theorem exec_issuedBy (t : Nat) (c : Choice) (f : Frame) (n : Node) :
    (exec t c f n).1.IssuedBy n f := by
  fun_cases exec t c f n <;> simp_all [Access.IssuedBy]
  all_goals rfl

end Embb.Mtapi
