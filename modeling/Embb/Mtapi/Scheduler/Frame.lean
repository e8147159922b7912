import Embb.Mtapi.Node

/-!
# Program points

A frame is a program point of one library function together with the local
variables that are live there. Between two program points lies at most one change
of shared memory. The functions of the pools and of the task queues count as one
change, and so do the writes to a slot that its allocator has not published yet;
looking up the object behind a handle shares the step of the validity check.

Client code, action functions and completion callbacks are not part of the
library. Their frames may call any interface function with any arguments and
return at any time.
-/

namespace Embb.Mtapi

/-- The arguments of `embb_mtapi_task_start` that the scheduler reads. -/
structure StartCall where
  job : Handle
  attributes : TaskAttributes
  group : Handle
  queue : Handle
  deriving DecidableEq, Repr

/-- The code that called `embb_mtapi_task_execute`: the worker main loop with its
`local_queue`, or `embb_mtapi_scheduler_execute_task_or_yield`. -/
inductive Dispatcher where
  | worker (localQueue : Option Ptr)
  | helper
  deriving DecidableEq, Repr

/-- `embb_mtapi_task_context_struct`; the thread context is the executing thread. -/
structure Context where
  by' : Dispatcher
  task : Ptr
  instanceNum : Nat
  numInstances : Nat
  deriving DecidableEq, Repr

/-- The code that called `embb_mtapi_scheduler_schedule_task`: the loop over the
instances of a new task, or the worker main loop for a retained task. -/
inductive ScheduleCaller where
  | start (call : StartCall) (instance' : Nat) (wasScheduled : Bool)
  | retained
  deriving DecidableEq, Repr

/-- The code that called `embb_mtapi_task_delete`, with its local variables. -/
inductive DeleteCaller where
  | start (status : Status)
  | wait (status : Status)
  | waitAll (group : Ptr) (finite : Bool) (status : Status)
  | waitAny (group : Ptr) (status : Status)
  deriving DecidableEq, Repr

/-- The visitors handed to `embb_mtapi_scheduler_process_tasks`, with the object
they compare against. -/
inductive Visitor where
  | queueDelete (queue : Ptr)
  | queueDisable (queue : Ptr)
  | queueEnable (queue : Ptr)
  | actionDelete (action : Ptr)
  | actionDisable (action : Ptr)
  deriving DecidableEq, Repr

/-- The interface functions that client code can call. A `finite` timeout is any
value other than `MTAPI_INFINITE`. -/
inductive Call where
  | taskStart (job : Handle) (attributes : Option TaskAttributes) (group : Handle)
  | taskEnqueue (queue : Handle) (attributes : Option TaskAttributes) (group : Handle)
  | taskWait (task : Handle) (finite : Bool)
  | taskCancel (task : Handle)
  | groupCreate
  | groupWaitAll (group : Handle) (finite : Bool)
  | groupWaitAny (group : Handle) (finite : Bool)
  | groupDelete (group : Handle)
  | queueCreate (queueId : Nat) (job : Handle) (attributes : Option QueueAttributes)
  | queueDelete (queue : Handle) (finite : Bool)
  | queueDisable (queue : Handle) (finite : Bool)
  | queueEnable (queue : Handle)
  | actionCreate (jobId : Nat) (attributes : Option ActionAttributes)
  | actionDelete (action : Handle) (finite : Bool)
  | actionDisable (action : Handle) (finite : Bool)
  | actionEnable (action : Handle)
  deriving DecidableEq, Repr

/-- What the environment decides in a step: that a spin lock could not be obtained,
that a deadline has passed, or what client code does next. -/
inductive Choice where
  | go
  | busy
  | expired
  | call (c : Call)
  | contextStatusSet (status : Status)
  | leave
  deriving DecidableEq, Repr

/-- A program point with its local variables. -/
inductive Frame where
  /-- Code of the application outside of any action. -/
  | client
  /-- The action function runs. -/
  | actionFunction (ctx : Context) (action : Ptr)
  /-- The completion callback runs. -/
  | completeFunc (func : Nat) (task : Handle)
  /-- An interface function returns. -/
  | ret (status : Status) (result : Handle)
  -- embb_mtapi_scheduler_worker
  | worker
  | workerScan (rest : List QueueRef)
  | workerQueue (task : Ptr)
  | workerSwitch (task : Ptr) (localQueue : Option Ptr)
  | workerContext (task : Ptr) (localQueue : Option Ptr)
  | workerFinished (task : Ptr) (localQueue : Ptr)
  | workerCancelled (task : Ptr) (localQueue : Option Ptr)
  | workerCancelledTodo (task : Ptr) (localQueue : Option Ptr)
  | workerCallback (task : Ptr)
  -- embb_mtapi_scheduler_execute_task_or_yield
  | helperScan (rest : List QueueRef)
  | helperContext (task : Ptr)
  -- embb_mtapi_task_execute
  | executeRunning (ctx : Context)
  | executeAction (ctx : Context) (todo : Nat)
  | executeCheck (ctx : Context) (action : Ptr)
  | executeTodo (ctx : Context) (action : Ptr)
  | executeCompleted (ctx : Context) (action : Ptr)
  | executeNumTasks (ctx : Context) (action : Ptr) (todo : Nat)
  | executeDeleted (ctx : Context) (todo : Nat)
  | executeError (ctx : Context) (todo : Nat)
  | executeGroup (ctx : Context)
  | executeGroupPush (ctx : Context) (group : Ptr)
  -- embb_mtapi_scheduler_schedule_task
  | schedule (task : Ptr) (instance' : Nat) (caller : ScheduleCaller)
  | scheduleAffinity (task : Ptr) (target : Nat) (action : Ptr) (caller : ScheduleCaller)
  | scheduleCount (task : Ptr) (target : Nat) (action : Ptr) (affinity : Affinity)
      (caller : ScheduleCaller)
  | scheduleAffine (task : Ptr) (action : Ptr) (affinity : Affinity) (caller : ScheduleCaller)
  | scheduleSearch (task : Ptr) (target : Nat) (action : Ptr) (affinity : Affinity)
      (caller : ScheduleCaller)
  | schedulePush (task : Ptr) (target : Nat) (isPrivate : Bool) (action : Ptr)
      (caller : ScheduleCaller)
  | scheduleUndo (task : Ptr) (action : Ptr) (caller : ScheduleCaller)
  -- mtapi_task_start, mtapi_task_enqueue
  | enqueue (queue : Handle) (attributes : Option TaskAttributes) (group : Handle)
  | enqueueEnabled (queue : Ptr) (attributes : Option TaskAttributes) (group : Handle)
  | startAllocate (call : StartCall)
  | startInit (call : StartCall) (task : Ptr)
  | startGroup (call : StartCall) (task : Ptr)
  | startGroupCount (call : StartCall) (task : Ptr)
  | startQueue (call : StartCall) (task : Ptr)
  | startQueueCount (call : StartCall) (task : Ptr)
  | startChoose (call : StartCall) (task : Ptr) (index actionIndex : Nat)
  | startChooseLoad (call : StartCall) (task : Ptr) (index actionIndex : Nat) (action : Ptr)
      (numTasks : Int)
  | startAction (call : StartCall) (task : Ptr) (actionIndex : Nat)
  | startSchedule (call : StartCall) (task : Ptr)
  | startInstances (call : StartCall) (task : Ptr) (instance' : Nat) (wasScheduled : Bool)
  | startFailed (task : Ptr)
  -- embb_mtapi_task_delete
  | taskDelete (task : Ptr) (caller : DeleteCaller)
  | taskDeallocate (task : Ptr) (caller : DeleteCaller)
  -- mtapi_task_wait
  | wait (task : Handle) (finite : Bool)
  | waitScheduled (task : Ptr) (finite : Bool)
  | waitRunning (task : Ptr) (finite : Bool)
  | waitRetained (task : Ptr) (finite : Bool)
  | waitBody (task : Ptr) (finite : Bool)
  | waitDone (task : Ptr)
  | waitGroup (task : Ptr) (status : Status)
  -- mtapi_task_cancel
  | cancel (task : Handle)
  | cancelState (task : Ptr)
  | cancelAction (task : Ptr)
  -- mtapi_group_create, mtapi_group_delete
  | groupCreate
  | groupDelete (group : Handle) (status : Option Status)
  | groupFinalize (group : Ptr) (status : Option Status)
  | groupDeallocate (group : Ptr) (status : Option Status)
  -- mtapi_group_wait_all
  | waitAll (group : Handle) (finite : Bool)
  | waitAllLoop (group : Ptr) (finite : Bool) (status : Status)
  | waitAllTimeout (group : Ptr) (finite : Bool) (status : Status)
  | waitAllPop (group : Ptr) (finite : Bool) (status : Status)
  | waitAllTask (group : Ptr) (finite : Bool) (status : Status) (task : Ptr)
  | waitAllCount (group : Ptr) (finite : Bool) (status : Status)
  -- mtapi_group_wait_any
  | waitAny (group : Handle) (finite : Bool)
  | waitAnyFirst (group : Ptr) (finite : Bool)
  | waitAnyPop (group : Ptr) (finite : Bool)
  | waitAnyTimeout (group : Ptr) (finite : Bool)
  | waitAnyTask (group : Ptr) (task : Ptr)
  | waitAnyCount (group : Ptr) (status : Status)
  -- embb_mtapi_scheduler_process_tasks
  | processTasks (visitor : Visitor) (rest : List QueueRef) (finite : Bool)
  | processQueue (visitor : Visitor) (queue : QueueRef) (index : Nat) (rest : List QueueRef)
      (finite : Bool)
  | processState (visitor : Visitor) (task : Ptr) (queue : QueueRef) (index : Nat)
      (rest : List QueueRef) (finite : Bool)
  | processError (visitor : Visitor) (task : Ptr) (status : Status) (queue : QueueRef)
      (index : Nat) (rest : List QueueRef) (finite : Bool)

  | processDone (visitor : Visitor) (finite : Bool)
  -- mtapi_queue_create, mtapi_queue_delete, mtapi_queue_disable, mtapi_queue_enable
  | queueCreate (queueId : Nat) (job : Handle) (attributes : Option QueueAttributes)
  | queueDelete (queue : Handle) (finite : Bool)
  | queueDeleteLoop (queue : Ptr) (finite : Bool)
  | queueFinalize (queue : Ptr) (status : Status)
  | queueDeallocate (queue : Ptr) (status : Status)
  | queueDisable (queue : Handle) (finite : Bool)
  | queueDisableStore (queue : Ptr) (finite : Bool)
  | queueDisableLoop (queue : Ptr) (finite : Bool)
  | queueEnable (queue : Handle)
  | queueEnableStore (queue : Ptr)
  -- mtapi_action_create, mtapi_action_delete, mtapi_action_disable, mtapi_action_enable
  | actionCreate (jobId : Nat) (attributes : Option ActionAttributes)
  | actionAdd (action : Ptr) (jobId : Nat)
  | actionDelete (action : Handle) (finite : Bool)
  | actionDeleteLoop (action : Ptr) (finite : Bool)
  | actionRemove (action : Ptr) (status : Status)
  | actionDeallocate (action : Ptr) (status : Status)
  | actionDisable (action : Handle) (finite : Bool)
  | actionDisableStore (action : Ptr) (finite : Bool)
  | actionDisableLoop (action : Ptr) (finite : Bool)
  | actionEnable (action : Handle)
  | actionEnableStore (action : Ptr)

end Embb.Mtapi
