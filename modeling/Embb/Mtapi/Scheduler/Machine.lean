import Embb.Lib.Threads
import Embb.Mtapi.Scheduler.Access

/-!
# The step function

`exec` takes the top frame of a thread one step further: it gives the access to
shared memory and the frames that replace the frame. Threads with an index below
the number of workers are the workers; all other threads are clients, for which
`embb_mtapi_scheduler_get_current_thread_context` finds no context.

A choice that does not apply to the frame, a lock that another thread holds and
an access outside of an array leave the state as it is.
-/

namespace Embb.Mtapi

/-- `mtapi_taskattr_init`; `user_data` stays unset there. -/
def TaskAttributes.init (numCores : Nat) : TaskAttributes where
  isDetached := false
  numInstances := 1
  priority := 0
  affinity := bitsetSetN numCores
  userData := 0
  completeFunc := none
  numInstances_lt := by decide

/-- `mtapi_queueattr_init`. -/
def QueueAttributes.init : QueueAttributes where
  priority := 0
  ordered := true
  retain := false

/-- `mtapi_actionattr_init`. -/
def ActionAttributes.init (numCores : Nat) : ActionAttributes := ⟨bitsetSetN numCores⟩

/-- The codes that `mtapi_context_status_set` accepts. -/
def Status.settable : Status → Bool
  | .success | .errArgSize | .errResultSize | .errActionCancelled | .errActionFailed
  | .errActionDeleted => true
  | _ => false

namespace Node

/-- The workers whose public queues a worker tries to steal from, in order. -/
def otherWorkers (n : Node) (worker : Nat) : List Nat :=
  (List.range (n.workerCount - 1)).map fun kk => (worker + 1 + kk) % n.workerCount

/-- The order of queues in `embb_mtapi_scheduler_get_next_task_vhpf`. -/
def nextTaskVhpf (n : Node) (worker : Nat) : List QueueRef :=
  (List.range n.attributes.maxPriorities).flatMap fun ii =>
    ⟨worker, true, ii⟩ :: ⟨worker, false, ii⟩ ::
      (n.otherWorkers worker).map fun other => ⟨other, false, ii⟩

/-- The order of queues in `embb_mtapi_scheduler_get_next_task_lf`. -/
def nextTaskLf (n : Node) (worker : Nat) : List QueueRef :=
  (List.range n.attributes.maxPriorities).map (⟨worker, true, ·⟩) ++
    (List.range n.attributes.maxPriorities).map (⟨worker, false, ·⟩) ++
    (List.range n.attributes.maxPriorities).flatMap fun prio =>
      (n.otherWorkers worker).map fun other => ⟨other, false, prio⟩

/-- The order in which `embb_mtapi_scheduler_get_next_task` looks at the queues. -/
def nextTask (n : Node) (worker : Nat) : List QueueRef :=
  match n.mode with
  | .workStealLf => n.nextTaskLf worker
  | .workStealVhpf => n.nextTaskVhpf worker

/-- The order in which `embb_mtapi_scheduler_process_tasks` visits the queues. -/
def processOrder (n : Node) : List QueueRef :=
  (List.range n.workerCount).flatMap fun ii =>
    (List.range n.attributes.maxPriorities).flatMap fun prio =>
      [⟨ii, true, prio⟩, ⟨ii, false, prio⟩]

/-- `embb_mtapi_scheduler_execute_task_or_yield` in a loop that goes on at `back`. -/
def executeTaskOrYield (n : Node) (t : Nat) (back : Frame) : List Frame :=
  if t < n.workerCount then [.helperScan (n.nextTask t), back] else [back]

/-- The comparison that a visitor makes. -/
def visits (n : Node) (p : Ptr) : Visitor → Bool
  | .queueDelete q | .queueDisable q | .queueEnable q => (n.task p).queue = (n.queue q).handle
  | .actionDelete a | .actionDisable a => (n.task p).action = (n.action a).handle

/-- The state that a visitor gives to the task, and the error code. -/
def visitorState (n : Node) : Visitor → TaskState × Option Status
  | .queueDelete _ => (.cancelled, some .errQueueDeleted)
  | .queueDisable q =>
    if (n.queue q).attributes.retain then (.retained, none)
    else (.cancelled, some .errQueueDisabled)
  | .queueEnable _ => (.scheduled, none)
  | .actionDelete _ => (.cancelled, some .errActionDeleted)
  | .actionDisable _ => (.cancelled, some .errActionDisabled)

/-- The affinity that `embb_mtapi_scheduler_schedule_task` computes. -/
def scheduleAffinity (n : Node) (p a : Ptr) : Affinity :=
  let affinity :=
    if n.queuePool.isHandleValid (n.task p).queue ∧
        (n.queue (n.task p).queue).attributes.ordered then
      (n.queue (n.task p).queue).orderedAffinity
    else (n.action a).attributes.affinity &&& (n.task p).attributes.affinity
  if affinity = 0 then n.affinityAll else affinity

/-- The first frame of an interface function. -/
def entry (n : Node) : Call → Frame
  | .taskStart job attributes group =>
    .startAllocate ⟨job, attributes.getD (TaskAttributes.init n.attributes.numCores), group,
      Handle.invalid⟩
  | .taskEnqueue queue attributes group => .enqueue queue attributes group
  | .taskWait task finite => .wait task finite
  | .taskCancel task => .cancel task
  | .groupCreate => .groupCreate
  | .groupWaitAll group finite => .waitAll group finite
  | .groupWaitAny group finite => .waitAny group finite
  | .groupDelete group => .groupDelete group none
  | .queueCreate queueId job attributes => .queueCreate queueId job attributes
  | .queueDelete queue finite => .queueDelete queue finite
  | .queueDisable queue finite => .queueDisable queue finite
  | .queueEnable queue => .queueEnable queue
  | .actionCreate jobId attributes => .actionCreate jobId attributes
  | .actionDelete action finite => .actionDelete action finite
  | .actionDisable action finite => .actionDisable action finite
  | .actionEnable action => .actionEnable action

end Node

/-- What follows when `embb_mtapi_task_execute` returns. -/
def Context.resume (ctx : Context) (done : Bool) : List Frame :=
  match ctx.by' with
  | .worker (some q) => if done then [.workerFinished ctx.task q] else [.workerCallback ctx.task]
  | .worker none => [.workerCallback ctx.task]
  | .helper => []

/-- What follows when `embb_mtapi_scheduler_schedule_task` returns. -/
def ScheduleCaller.resume (caller : ScheduleCaller) (p : Ptr) (pushed : Bool) : List Frame :=
  match caller with
  | .start call kk wasScheduled => [.startInstances call p (kk + 1) (wasScheduled && pushed)]
  | .retained => [.workerCallback p]

/-- What follows when `embb_mtapi_task_delete` returns. -/
def DeleteCaller.resume : DeleteCaller → Frame
  | .start status => .ret status Handle.invalid
  | .wait status => .ret status Handle.invalid
  | .waitAll g finite status => .waitAllCount g finite status
  | .waitAny g status => .waitAnyCount g status

/-- What follows when `embb_mtapi_scheduler_process_tasks` returns. -/
def Visitor.resume (n : Node) (finite : Bool) : Visitor → Frame
  | .queueDelete q => .queueDeleteLoop q finite
  | .queueDisable q =>
    if (n.queue q).attributes.retain then .ret .success Handle.invalid
    else .queueDisableLoop q finite
  | .queueEnable _ => .ret .success Handle.invalid
  | .actionDelete a => .actionDeleteLoop a finite
  | .actionDisable a => .actionDisableLoop a finite

/-- One step of thread `t` at the frame `f`. -/
def exec (t : Nat) (c : Choice) (f : Frame) (n : Node) : Access × List Frame :=
  match f with
  | .client =>
    match c with
    | .call call => (.read, [n.entry call, f])
    | _ => (.read, [f])
  | .actionFunction ctx a =>
    match c with
    | .call call => (.read, [n.entry call, f])
    | .contextStatusSet status =>
      if status.settable then (.taskError ctx.task status, [f]) else (.read, [f])
    | .leave => (.read, [.executeTodo ctx a])
    | _ => (.read, [f])
  | .completeFunc _ _ =>
    match c with
    | .call call => (.read, [n.entry call, f])
    | .leave => (.read, [])
    | _ => (.read, [f])
  | .ret _ _ => (.read, [])
  -- embb_mtapi_scheduler_worker
  | .worker => (.read, [.workerScan (n.nextTask t)])
  | .workerScan [] => (.read, [.worker])
  | .workerScan (r :: rest) =>
    if c = .busy ∨ (n.workerQueue r).lock then (.read, [.workerScan rest])
    else match (n.workerQueue r).pop.2 with
      | some p => (.pop r, [.workerQueue p])
      | none => (.read, [.workerScan rest])
  | .workerQueue p =>
    if n.queuePool.isHandleValid (n.task p).queue then
      (.read, [.workerSwitch p (some (n.task p).queue)])
    else (.read, [.workerSwitch p none])
  | .workerSwitch p lq =>
    match (n.task p).state with
    | .scheduled | .running => (.read, [.workerContext p lq])
    | .retained => (.read, [.schedule p 0 .retained])
    | .cancelled => (.read, [.workerCancelled p lq])
    | _ => (.read, [.workerCallback p])
  | .workerContext p lq =>
    (.taskContext p, [.executeRunning
      ⟨.worker lq, p, (n.task p).currentInstance, (n.task p).attributes.numInstances⟩])
  | .workerCancelled p lq => (.taskError p .errActionCancelled, [.workerCancelledTodo p lq])
  | .workerCancelledTodo p lq =>
    match lq with
    | some q =>
      if (n.task p).instancesTodo = 0 then (.taskTodo p, [.workerFinished p q])
      else (.taskTodo p, [.workerCallback p])
    | none => (.taskTodo p, [.workerCallback p])
  | .workerFinished p q => (.queueTasks q (-1), [.workerCallback p])
  | .workerCallback p =>
    match (n.task p).attributes.completeFunc with
    | some func => (.read, [.completeFunc func (n.task p).handle, .worker])
    | none => (.read, [.worker])
  -- embb_mtapi_scheduler_execute_task_or_yield
  | .helperScan [] => (.read, [])
  | .helperScan (r :: rest) =>
    if c = .busy ∨ (n.workerQueue r).lock then (.read, [.helperScan rest])
    else match (n.workerQueue r).pop.2 with
      | some p => (.pop r, [.helperContext p])
      | none => (.read, [.helperScan rest])
  | .helperContext p =>
    (.taskContext p, [.executeRunning
      ⟨.helper, p, (n.task p).currentInstance, (n.task p).attributes.numInstances⟩])
  -- embb_mtapi_task_execute
  | .executeRunning ctx =>
    (.taskState ctx.task .running,
      [.executeAction ctx (n.task ctx.task).attributes.numInstances])
  | .executeAction ctx todo =>
    if n.actionPool.isHandleValid (n.task ctx.task).action then
      (.read, [.executeCheck ctx (n.task ctx.task).action])
    else (.read, [.executeDeleted ctx todo])
  | .executeCheck ctx a =>
    if (n.task ctx.task).errorCode = .success then (.read, [.actionFunction ctx a])
    else (.read, [.executeTodo ctx a])
  | .executeTodo ctx a =>
    if (n.task ctx.task).instancesTodo = 1 then (.taskTodo ctx.task, [.executeCompleted ctx a])
    else (.taskTodo ctx.task, [.executeNumTasks ctx a (n.task ctx.task).instancesTodo])
  | .executeCompleted ctx a => (.taskState ctx.task .completed, [.executeNumTasks ctx a 1])
  | .executeNumTasks ctx a todo =>
    if todo = 1 then (.actionTasks a (-1), [.executeGroup ctx])
    else (.actionTasks a (-1), ctx.resume false)
  | .executeDeleted ctx todo => (.taskError ctx.task .errActionDeleted, [.executeError ctx todo])
  | .executeError ctx todo =>
    if todo = 1 then (.taskState ctx.task .error, [.executeGroup ctx])
    else (.taskState ctx.task .error, ctx.resume false)
  | .executeGroup ctx =>
    if n.groupPool.isHandleValid (n.task ctx.task).group then
      (.read, [.executeGroupPush ctx (n.task ctx.task).group])
    else (.read, ctx.resume true)
  | .executeGroupPush ctx g => (.groupPush g ctx.task, ctx.resume true)
  -- embb_mtapi_scheduler_schedule_task
  | .schedule p instance' caller =>
    if n.actionPool.isHandleValid (n.task p).action then
      (.read, [.scheduleAffinity p (((n.task p).handle.id + instance') % n.workerCount)
        (n.task p).action caller])
    else (.read, caller.resume p false)
  | .scheduleAffinity p ii a caller =>
    (.read, [.scheduleCount p ii a (n.scheduleAffinity p a) caller])
  | .scheduleCount p ii a affinity caller =>
    if affinity = n.affinityAll then (.actionTasks a 1, [.schedulePush p ii false a caller])
    else (.actionTasks a 1, [.scheduleAffine p a affinity caller])
  | .scheduleAffine p a affinity caller =>
    (.affineTaskCounter, [.scheduleSearch p n.affineTaskCounter a affinity caller])
  | .scheduleSearch p ii a affinity caller =>
    if ii < n.attributes.numCores ∧ affinity.getLsbD ii then
      (.read, [.schedulePush p ii true a caller])
    else (.read, [.scheduleSearch p (uintSucc ii % n.workerCount) a affinity caller])
  | .schedulePush p ii isPrivate a caller =>
    let r : QueueRef := ⟨ii, isPrivate, (n.task p).attributes.priority⟩
    if (n.workerQueue r).lock ∨ r ∉ n.processOrder then (.read, [f])
    else if ((n.workerQueue r).push p).2 then (.push r p, caller.resume p true)
    else (.read, [.scheduleUndo p a caller])
  | .scheduleUndo p a caller => (.actionTasks a (-1), caller.resume p false)
  -- mtapi_task_start, mtapi_task_enqueue
  | .enqueue q attributes group =>
    if n.queuePool.isHandleValid q then (.read, [.enqueueEnabled q attributes group])
    else (.read, [.ret .errQueueInvalid Handle.invalid])
  | .enqueueEnabled q attributes group =>
    if (n.queue q).enabled ∨ (n.queue q).attributes.retain then
      (.read, [.startAllocate ⟨(n.queue q).jobHandle,
        { attributes.getD (TaskAttributes.init n.attributes.numCores) with
          priority := (n.queue q).attributes.priority }, group, q⟩])
    else (.read, [.ret .errQueueDisabled Handle.invalid])
  | .startAllocate call =>
    if n.jobIsHandleValid call.job then
      match n.taskPool.allocate.2 with
      | some p => (.taskAllocate, [.startInit call p])
      | none => (.taskAllocate, [.ret .errTaskLimit Handle.invalid])
    else (.read, [.ret .errJobInvalid Handle.invalid])
  | .startInit call p => (.taskInit p call, [.startGroup call p])
  | .startGroup call p =>
    if n.groupPool.isHandleValid call.group then (.read, [.startGroupCount call p])
    else (.taskGroup p none, [.startQueue call p])
  | .startGroupCount call p => (.taskGroup p (some call.group), [.startQueue call p])
  | .startQueue call p =>
    if n.queuePool.isHandleValid call.queue then (.read, [.startQueueCount call p])
    else (.taskQueue p none, [.startChoose call p 0 0])
  | .startQueueCount call p => (.taskQueue p (some call.queue), [.startChoose call p 0 0])
  | .startChoose call p ii actionIndex =>
    let job := n.jobList call.job.id
    if ii < job.numActions then
      if n.actionPool.isHandleValid (job.actions ii) then
        (.read, [.startChooseLoad call p ii actionIndex (job.actions ii)
          (n.action (job.actions actionIndex)).numTasks])
      else (.read, [.startChoose call p (ii + 1) actionIndex])
    else (.read, [.startAction call p actionIndex])
  | .startChooseLoad call p ii actionIndex a numTasks =>
    if (n.action a).numTasks < numTasks then (.read, [.startChoose call p (ii + 1) ii])
    else (.read, [.startChoose call p (ii + 1) actionIndex])
  | .startAction call p actionIndex =>
    let a := (n.jobList call.job.id).actions actionIndex
    let inRange := (n.task p).attributes.priority < n.attributes.maxPriorities
    if n.actionPool.isHandleValid a then
      if inRange then (.taskAction p a, [.startSchedule call p])
      else (.taskAction p a, [.taskDelete p (.start .errParameter)])
    else
      (.read, [.taskDelete p (.start (if inRange then .errActionInvalid else .errParameter))])
  | .startSchedule call p => (.taskState p .scheduled, [.startInstances call p 0 true])
  | .startInstances call p kk wasScheduled =>
    if kk < (n.task p).attributes.numInstances then
      (.read, [.schedule p kk (.start call kk wasScheduled)])
    else if wasScheduled then
      (.read, [.ret .success (if (n.task p).attributes.isDetached then Handle.invalid else p)])
    else (.read, [.startFailed p])
  | .startFailed p => (.taskState p .error, [.taskDelete p (.start .errTaskLimit)])
  -- embb_mtapi_task_delete
  | .taskDelete p caller => (.taskFinalize p, [.taskDeallocate p caller])
  | .taskDeallocate p caller => (.taskDeallocate p, [caller.resume])
  -- mtapi_task_wait
  | .wait task finite =>
    if n.taskPool.isHandleValid task then (.read, [.waitScheduled task finite])
    else (.read, [.ret .errTaskInvalid Handle.invalid])
  | .waitScheduled p finite =>
    if (n.task p).state = .scheduled then (.read, [.waitBody p finite])
    else (.read, [.waitRunning p finite])
  | .waitRunning p finite =>
    if (n.task p).state = .running then (.read, [.waitBody p finite])
    else (.read, [.waitRetained p finite])
  | .waitRetained p finite =>
    if (n.task p).state = .retained then (.read, [.waitBody p finite])
    else (.read, [.waitDone p])
  | .waitBody p finite =>
    if finite ∧ c = .expired then (.read, [.ret .timeout Handle.invalid])
    else (.read, n.executeTaskOrYield t (.waitScheduled p finite))
  | .waitDone p => (.read, [.waitGroup p (n.task p).errorCode])
  | .waitGroup p status =>
    if n.groupPool.isHandleValid (n.task p).group then (.read, [.ret status Handle.invalid])
    else (.read, [.taskDelete p (.wait status)])
  -- mtapi_task_cancel
  | .cancel task =>
    if n.taskPool.isHandleValid task then (.read, [.cancelState task])
    else (.read, [.ret .errTaskInvalid Handle.invalid])
  | .cancelState p => (.taskState p .cancelled, [.cancelAction p])
  | .cancelAction p =>
    if n.actionPool.isHandleValid (n.task p).action then
      (.read, [.ret .errUnknown Handle.invalid])
    else (.read, [.ret .success Handle.invalid])
  -- mtapi_group_create, mtapi_group_delete
  | .groupCreate =>
    match n.groupPool.allocate.2 with
    | some g => (.groupCreate, [.ret .success g])
    | none => (.groupCreate, [.ret .errGroupLimit Handle.invalid])
  | .groupDelete g status =>
    if n.groupPool.isHandleValid g ∧ (n.group g).deleted = false then
      (.read, [.groupFinalize g status])
    else (.read, [.ret (status.getD .errGroupInvalid) Handle.invalid])
  | .groupFinalize g status => (.groupFinalize g, [.groupDeallocate g status])
  | .groupDeallocate g status =>
    (.groupDeallocate g, [.ret (status.getD .success) Handle.invalid])
  -- mtapi_group_wait_all
  | .waitAll g finite =>
    if n.groupPool.isHandleValid g then (.read, [.waitAllLoop g finite .success])
    else (.read, [.ret .errGroupInvalid Handle.invalid])
  | .waitAllLoop g finite status =>
    if (n.group g).numTasks ≠ 0 then (.read, [.waitAllTimeout g finite status])
    else if status = .timeout then (.read, [.ret status Handle.invalid])
    else (.read, [.groupDelete g (some status)])
  | .waitAllTimeout g finite status =>
    if finite ∧ c = .expired then (.read, [.ret .timeout Handle.invalid])
    else (.read, [.waitAllPop g finite status])
  | .waitAllPop g finite status =>
    if c = .busy then (.read, n.executeTaskOrYield t (.waitAllLoop g finite status))
    else match (n.group g).queue.pop.2 with
      | some p => (.groupPop g, [.waitAllTask g finite status p])
      | none => (.read, n.executeTaskOrYield t (.waitAllLoop g finite status))
  | .waitAllTask g finite status p =>
    (.read, [.taskDelete p (.waitAll g finite
      (if (n.task p).errorCode = .success then status else (n.task p).errorCode))])
  | .waitAllCount g finite status => (.groupTasks g (-1), [.waitAllPop g finite status])
  -- mtapi_group_wait_any
  | .waitAny g finite =>
    if n.groupPool.isHandleValid g then (.read, [.waitAnyFirst g finite])
    else (.read, [.ret .errGroupInvalid Handle.invalid])
  | .waitAnyFirst g finite =>
    if (n.group g).numTasks = 0 then (.read, [.groupDelete g (some .groupCompleted)])
    else (.read, [.waitAnyPop g finite])
  | .waitAnyPop g finite =>
    if c = .busy then (.read, [.waitAnyTimeout g finite])
    else match (n.group g).queue.pop.2 with
      | some p => (.groupPop g, [.waitAnyTask g p])
      | none => (.read, [.waitAnyTimeout g finite])
  | .waitAnyTimeout g finite =>
    if finite ∧ c = .expired then (.read, [.ret .timeout Handle.invalid])
    else (.read, n.executeTaskOrYield t (.waitAnyPop g finite))
  | .waitAnyTask g p => (.read, [.taskDelete p (.waitAny g (n.task p).errorCode)])
  | .waitAnyCount g status => (.groupTasks g (-1), [.ret status Handle.invalid])
  -- embb_mtapi_scheduler_process_tasks
  | .processTasks v [] finite => (.read, [.processDone v finite])
  | .processTasks v (r :: rest) finite =>
    if (n.workerQueue r).lock then (.read, [f])
    else (.lock r true, [.processQueue v r 0 rest finite])
  | .processQueue v r ii rest finite =>
    if ii < (n.workerQueue r).tasksAvailable then
      -- the entry is looked up from the start of the buffer, not from the oldest task
      match (n.workerQueue r).taskBuffer ii with
      | some p =>
        if n.visits p v then (.read, [.processState v p r ii rest finite])
        else (.lock r false, [.processDone v finite])
      | none => (.read, [f])
    else (.lock r false, [.processTasks v rest finite])
  | .processState v p r ii rest finite =>
    match (n.visitorState v).2 with
    | some status =>
      (.taskState p (n.visitorState v).1, [.processError v p status r ii rest finite])
    | none => (.taskState p (n.visitorState v).1, [.processQueue v r (ii + 1) rest finite])
  | .processError v p status r ii rest finite =>
    (.taskError p status, [.processQueue v r (ii + 1) rest finite])
  | .processDone v finite => (.read, [v.resume n finite])
  -- mtapi_queue_create, mtapi_queue_delete, mtapi_queue_disable, mtapi_queue_enable
  | .queueCreate queueId job attributes =>
    match n.queuePool.allocate.2 with
    | some q =>
      if n.jobIsHandleValid job then
        (.queueCreate queueId job (attributes.getD QueueAttributes.init), [.ret .success q])
      else (.queueAllocate, [.queueDeallocate q .errJobInvalid])
    | none => (.queueAllocate, [.ret .errQueueLimit Handle.invalid])
  | .queueDelete q finite =>
    if n.queuePool.isHandleValid q then
      (.read, [.processTasks (.queueDelete q) n.processOrder finite])
    else (.read, [.ret .errQueueInvalid Handle.invalid])
  | .queueDeleteLoop q finite =>
    if (n.queue q).numTasks = 0 then (.read, [.queueFinalize q .success])
    else if finite ∧ c = .expired then (.read, [.queueFinalize q .timeout])
    else (.read, n.executeTaskOrYield t (.queueDeleteLoop q finite))
  | .queueFinalize q status => (.queueFinalize q, [.queueDeallocate q status])
  | .queueDeallocate q status => (.queueDeallocate q, [.ret status Handle.invalid])
  | .queueDisable q finite =>
    if n.queuePool.isHandleValid q then (.read, [.queueDisableStore q finite])
    else (.read, [.ret .errQueueInvalid Handle.invalid])
  | .queueDisableStore q finite =>
    (.queueEnabled q false, [.processTasks (.queueDisable q) n.processOrder finite])
  | .queueDisableLoop q finite =>
    if (n.queue q).numTasks = 0 then (.read, [.ret .success Handle.invalid])
    else if finite ∧ c = .expired then (.read, [.ret .timeout Handle.invalid])
    else (.read, n.executeTaskOrYield t (.queueDisableLoop q finite))
  | .queueEnable q =>
    if n.queuePool.isHandleValid q then (.read, [.queueEnableStore q])
    else (.read, [.ret .errQueueInvalid Handle.invalid])
  | .queueEnableStore q =>
    if (n.queue q).attributes.retain then
      (.queueEnabled q true, [.processTasks (.queueEnable q) n.processOrder false])
    else (.queueEnabled q true, [.ret .success Handle.invalid])
  -- mtapi_action_create, mtapi_action_delete, mtapi_action_disable, mtapi_action_enable
  | .actionCreate jobId attributes =>
    let attributes' := attributes.getD (ActionAttributes.init n.attributes.numCores)
    if n.jobIsIdValid jobId then
      match n.actionPool.allocate.2 with
      | some a =>
        if attributes'.affinity = 0 then
          (.actionCreate jobId attributes', [.actionDeallocate a .errParameter])
        else (.actionCreate jobId attributes', [.actionAdd a jobId])
      | none => (.actionCreate jobId attributes', [.ret .errActionLimit Handle.invalid])
    else (.read, [.ret .errJobInvalid Handle.invalid])
  | .actionAdd a jobId => (.jobAdd jobId (n.action a).handle, [.ret .success a])
  | .actionDelete a finite =>
    if n.actionPool.isHandleValid a then
      (.read, [.processTasks (.actionDelete a) n.processOrder finite])
    else (.read, [.ret .errActionInvalid Handle.invalid])
  | .actionDeleteLoop a finite =>
    if (n.action a).numTasks = 0 then (.read, [.actionRemove a .success])
    else if finite ∧ c = .expired then (.read, [.actionRemove a .timeout])
    else (.read, n.executeTaskOrYield t (.actionDeleteLoop a finite))
  | .actionRemove a status =>
    if n.jobIsIdValid (n.action a).jobId then
      (.jobRemove (n.action a).jobId (n.action a).handle, [.actionDeallocate a status])
    else (.read, [.actionDeallocate a status])
  | .actionDeallocate a status => (.actionDeallocate a, [.ret status Handle.invalid])
  | .actionDisable a finite =>
    if n.actionPool.isHandleValid a then (.read, [.actionDisableStore a finite])
    else (.read, [.ret .errActionInvalid Handle.invalid])
  | .actionDisableStore a finite =>
    (.actionEnabled a false, [.processTasks (.actionDisable a) n.processOrder finite])
  | .actionDisableLoop a finite =>
    if (n.action a).numTasks = 0 then (.read, [.ret .success Handle.invalid])
    else if finite ∧ c = .expired then (.read, [.ret .timeout Handle.invalid])
    else (.read, n.executeTaskOrYield t (.actionDisableLoop a finite))
  | .actionEnable a =>
    if n.actionPool.isHandleValid a then (.read, [.actionEnableStore a])
    else (.read, [.ret .errActionInvalid Handle.invalid])
  | .actionEnableStore a => (.actionEnabled a true, [.ret .success Handle.invalid])

/-! ## The frames that follow a call

A proof reads the frame stack through a measure of its frames. What it sees of the
frames that follow a call is known from the frames that can stand there.
-/

theorem mem_contextResume {ctx : Context} {done : Bool} {f : Frame} (h : f ∈ ctx.resume done) :
    (∃ q, f = .workerFinished ctx.task q) ∨ f = .workerCallback ctx.task := by
  unfold Context.resume at h
  split at h
  · split at h
    · exact Or.inl ⟨_, List.mem_singleton.mp h⟩
    · exact Or.inr (List.mem_singleton.mp h)
  · exact Or.inr (List.mem_singleton.mp h)
  · exact absurd h List.not_mem_nil

theorem Node.mem_executeTaskOrYield {n : Node} {t : Nat} {back f : Frame}
    (h : f ∈ n.executeTaskOrYield t back) : (∃ rs, f = .helperScan rs) ∨ f = back := by
  unfold Node.executeTaskOrYield at h
  split at h
  · rcases List.mem_cons.mp h with rfl | h
    · exact Or.inl ⟨_, rfl⟩
    · exact Or.inr (List.mem_singleton.mp h)
  · exact Or.inr (List.mem_singleton.mp h)

section Measure

variable {A : Type} {w : Frame → List A}

theorem flatMap_contextResume (hfinished : ∀ p q, w (.workerFinished p q) = [])
    (hcallback : ∀ p, w (.workerCallback p) = []) (ctx : Context) (done : Bool) :
    (ctx.resume done).flatMap w = [] := by
  apply List.flatMap_eq_nil_iff.mpr
  intro f hf
  rcases mem_contextResume hf with ⟨q, rfl⟩ | rfl
  · exact hfinished _ q
  · exact hcallback _

theorem flatMap_scheduleResume (hstart : ∀ call p kk was, w (.startInstances call p kk was) = [])
    (hcallback : ∀ p, w (.workerCallback p) = []) (caller : ScheduleCaller) (p : Ptr)
    (pushed : Bool) : (caller.resume p pushed).flatMap w = [] := by
  cases caller with
  | start call kk was => simp only [ScheduleCaller.resume, List.flatMap_singleton, hstart]
  | retained => simp only [ScheduleCaller.resume, List.flatMap_singleton, hcallback]

theorem flatMap_executeTaskOrYield (hscan : ∀ rs, w (.helperScan rs) = []) (n : Node) (t : Nat)
    (back : Frame) : (n.executeTaskOrYield t back).flatMap w = w back := by
  unfold Node.executeTaskOrYield
  split
  · rw [List.flatMap_cons, List.flatMap_singleton, hscan, List.nil_append]
  · rw [List.flatMap_singleton]

end Measure

/-- A measure that is the same at each frame at which a visitor goes on. -/
theorem apply_visitorResume {B : Type} {w : Frame → B} {b : B}
    (hret : w (.ret .success Handle.invalid) = b)
    (hqueueDelete : ∀ q finite, w (.queueDeleteLoop q finite) = b)
    (hqueueDisable : ∀ q finite, w (.queueDisableLoop q finite) = b)
    (hactionDelete : ∀ a finite, w (.actionDeleteLoop a finite) = b)
    (hactionDisable : ∀ a finite, w (.actionDisableLoop a finite) = b)
    (v : Visitor) (n : Node) (finite : Bool) : w (v.resume n finite) = b := by
  cases v with
  | queueDelete q => exact hqueueDelete q finite
  | queueDisable q =>
    simp only [Visitor.resume]
    split
    · exact hret
    · exact hqueueDisable q finite
  | queueEnable q => exact hret
  | actionDelete a => exact hactionDelete a finite
  | actionDisable a => exact hactionDisable a finite

/-- The program of all threads of a node. -/
def code : Threads.Code Node Frame Choice := fun t c f n =>
  (n.access (exec t c f n).1, (exec t c f n).2)

/-- A node whose workers are up, and the threads of the application. -/
def boot (attributes : NodeAttributes) (mode : SchedulerMode) (clients : Nat) :
    Threads.State Node Frame where
  mem := Node.init attributes mode
  callStacks :=
    List.replicate attributes.numCores [.worker] ++ List.replicate clients [.client]

/-- Some steps of one thread without interference. -/
def goes (t count : Nat) : List (Nat × Choice) := List.replicate count (t, .go)

/-- A thread calls an interface function and goes on for some steps. -/
def calls (t : Nat) (call : Call) (count : Nat) : List (Nat × Choice) :=
  (t, .call call) :: goes t count

/-- A small node for runs on fixed inputs. -/
def smallNode (numCores : Nat) : NodeAttributes where
  numCores := min numCores 64
  maxTasks := 4
  maxActions := 2
  maxGroups := 2
  maxQueues := 2
  queueLimit := 2
  maxJobs := 1
  maxActionsPerJob := 2
  maxPriorities := 1
  numCores_le := Nat.min_le_right _ _

end Embb.Mtapi
