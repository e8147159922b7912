import Embb.Mtapi.Pool
import Embb.Mtapi.TaskQueue

/-!
# The node singleton

The memory that all threads of a node share: the pools, the job list and the
queues of the workers. Every modelled access to it is one of the reads below or
an assignment to one pool object, one job entry, one worker queue or one counter.
-/

namespace Embb.Mtapi

/-- `embb_mtapi_group_struct`. -/
structure Group where
  handle : Handle
  deleted : Bool
  numTasks : Int
  queue : TaskQueue

/-- `embb_mtapi_group_initialize_with_node`. -/
def Group.initWithNode (g : Group) (attributes : NodeAttributes) : Group :=
  { g with
    deleted := false
    numTasks := 0
    queue := TaskQueue.initWithCapacity attributes.queueLimit }

/-- `embb_mtapi_group_finalize`; the buffer of the queue is freed with its tasks. -/
def Group.finalize (g : Group) : Group :=
  { g with deleted := true, numTasks := 0, queue := TaskQueue.initWithCapacity g.queue.limit }

instance : PoolObject Task where
  handle := Task.handle
  setHandle t h := { t with handle := h }
  finalize := Task.finalize
  handle_setHandle _ _ := rfl
  handle_finalize _ := rfl

instance : PoolObject Action where
  handle := Action.handle
  setHandle a h := { a with handle := h }
  finalize := Action.init
  handle_setHandle _ _ := rfl
  handle_finalize _ := rfl

instance : PoolObject Queue where
  handle := Queue.handle
  setHandle q h := { q with handle := h }
  finalize := Queue.finalize
  handle_setHandle _ _ := rfl
  handle_finalize _ := rfl

instance : PoolObject Group where
  handle := Group.handle
  setHandle g h := { g with handle := h }
  finalize := Group.finalize
  handle_setHandle _ _ := rfl
  handle_finalize _ := rfl

/-- One of the task queues of a worker: `private_queue[priority]` or `queue[priority]`. -/
structure QueueRef where
  worker : Nat
  isPrivate : Bool
  priority : Nat
  deriving DecidableEq, Repr

/-- `embb_mtapi_scheduler_mode_enum`. -/
inductive SchedulerMode where
  | workStealLf
  | workStealVhpf
  deriving DecidableEq, Repr

/-- `embb_mtapi_node_struct` together with its scheduler. -/
structure Node where
  attributes : NodeAttributes
  mode : SchedulerMode
  workerQueue : QueueRef → TaskQueue
  affineTaskCounter : Nat
  jobList : Nat → Job
  taskPool : Pool Task
  actionPool : Pool Action
  queuePool : Pool Queue
  groupPool : Pool Group

namespace Node

/-- `worker_count`, set from the number of cores. -/
abbrev workerCount (n : Node) : Nat := n.attributes.numCores

/-- `affinity_all`. -/
abbrev affinityAll (n : Node) : Affinity := bitsetSetN n.attributes.numCores

abbrev task (n : Node) (p : Ptr) : Task := n.taskPool.storage p.id

abbrev action (n : Node) (a : Ptr) : Action := n.actionPool.storage a.id

abbrev queue (n : Node) (q : Ptr) : Queue := n.queuePool.storage q.id

abbrev group (n : Node) (g : Ptr) : Group := n.groupPool.storage g.id

/-- `embb_mtapi_job_is_handle_valid`. -/
def jobIsHandleValid (n : Node) (h : Handle) : Bool :=
  decide (0 < h.id ∧ h.id ≤ n.attributes.maxJobs ∧ (n.jobList h.id).handle.tag = h.tag)

/-- `embb_mtapi_job_is_id_valid`. -/
def jobIsIdValid (n : Node) (id : Nat) : Bool := decide (0 < id ∧ id ≤ n.attributes.maxJobs)

@[simps] def modifyTask (n : Node) (p : Ptr) (f : Task → Task) : Node :=
  { n with taskPool := n.taskPool.modify p.id f }

@[simps] def modifyAction (n : Node) (a : Ptr) (f : Action → Action) : Node :=
  { n with actionPool := n.actionPool.modify a.id f }

@[simps] def modifyQueue (n : Node) (q : Ptr) (f : Queue → Queue) : Node :=
  { n with queuePool := n.queuePool.modify q.id f }

@[simps] def modifyGroup (n : Node) (g : Ptr) (f : Group → Group) : Node :=
  { n with groupPool := n.groupPool.modify g.id f }

@[simps] def setTaskPool (n : Node) (pool : Pool Task) : Node := { n with taskPool := pool }

@[simps] def setActionPool (n : Node) (pool : Pool Action) : Node := { n with actionPool := pool }

@[simps] def setQueuePool (n : Node) (pool : Pool Queue) : Node := { n with queuePool := pool }

@[simps] def setGroupPool (n : Node) (pool : Pool Group) : Node := { n with groupPool := pool }

@[simps] def setJob (n : Node) (id : Nat) (job : Job) : Node :=
  { n with jobList := Function.update n.jobList id job }

@[simps] def setWorkerQueue (n : Node) (r : QueueRef) (q : TaskQueue) : Node :=
  { n with workerQueue := Function.update n.workerQueue r q }

@[simps] def setAffineTaskCounter (n : Node) (value : Nat) : Node :=
  { n with affineTaskCounter := value }

@[simp] theorem task_modifyTask_self (n : Node) (p : Ptr) (h : Task → Task) :
    (n.modifyTask p h).task p = h (n.task p) :=
  n.taskPool.storage_modify_self p.id h

theorem task_modifyTask_of_ne (n : Node) {p x : Ptr} (h : Task → Task) (hx : x.id ≠ p.id) :
    (n.modifyTask p h).task x = n.task x :=
  n.taskPool.storage_modify_of_ne h hx

@[simp] theorem action_modifyAction_self (n : Node) (a : Ptr) (h : Action → Action) :
    (n.modifyAction a h).action a = h (n.action a) :=
  n.actionPool.storage_modify_self a.id h

theorem action_modifyAction_of_ne (n : Node) {a x : Ptr} (h : Action → Action) (hx : x.id ≠ a.id) :
    (n.modifyAction a h).action x = n.action x :=
  n.actionPool.storage_modify_of_ne h hx

@[simp] theorem queue_modifyQueue_self (n : Node) (q : Ptr) (h : Queue → Queue) :
    (n.modifyQueue q h).queue q = h (n.queue q) :=
  n.queuePool.storage_modify_self q.id h

theorem queue_modifyQueue_of_ne (n : Node) {q x : Ptr} (h : Queue → Queue) (hx : x.id ≠ q.id) :
    (n.modifyQueue q h).queue x = n.queue x :=
  n.queuePool.storage_modify_of_ne h hx

@[simp] theorem group_modifyGroup_self (n : Node) (g : Ptr) (h : Group → Group) :
    (n.modifyGroup g h).group g = h (n.group g) :=
  n.groupPool.storage_modify_self g.id h

theorem group_modifyGroup_of_ne (n : Node) {g x : Ptr} (h : Group → Group) (hx : x.id ≠ g.id) :
    (n.modifyGroup g h).group x = n.group x :=
  n.groupPool.storage_modify_of_ne h hx

/-- `embb_mtapi_task_set_state`. -/
def setTaskState (n : Node) (p : Ptr) (state : TaskState) : Node :=
  n.modifyTask p ({ · with state := state })

/-- Assignment to `error_code`. -/
def setErrorCode (n : Node) (p : Ptr) (status : Status) : Node :=
  n.modifyTask p ({ · with errorCode := status })

/-- `embb_atomic_fetch_and_add_int` on the counter of an action. -/
def addActionTasks (n : Node) (a : Ptr) (d : Int) : Node :=
  n.modifyAction a fun x => { x with numTasks := x.numTasks + d }

/-- `embb_atomic_fetch_and_add_int` on the counter of a queue. -/
def addQueueTasks (n : Node) (q : Ptr) (d : Int) : Node :=
  n.modifyQueue q fun x => { x with numTasks := x.numTasks + d }

/-- `embb_mtapi_queue_task_started`. -/
def queueTaskStarted (n : Node) (q : Ptr) : Node := n.addQueueTasks q 1

/-- `embb_mtapi_queue_task_finished`. -/
def queueTaskFinished (n : Node) (q : Ptr) : Node := n.addQueueTasks q (-1)

/-- `embb_atomic_fetch_and_add_int` on the counter of a group. -/
def addGroupTasks (n : Node) (g : Ptr) (d : Int) : Node :=
  n.modifyGroup g fun x => { x with numTasks := x.numTasks + d }

/-- `embb_mtapi_job_initialize_list`, the entry at one index. -/
def initialJob (attributes : NodeAttributes) (id : Nat) : Job where
  handle := ⟨0, id⟩
  numActions := 0
  maxActions := attributes.maxActionsPerJob
  actions := fun _ => Handle.invalid

/-- Task memory before its first use. -/
def blankTask : Task where
  handle := Handle.invalid
  job := Handle.invalid
  attributes := ⟨false, 0, 0, 0, 0, none, by decide⟩
  group := Handle.invalid
  queue := Handle.invalid
  action := Handle.invalid
  state := .error
  currentInstance := 0
  instancesTodo := 0
  errorCode := .success

/-- Action memory before its first use. -/
def blankAction : Action := ⟨Handle.invalid, 0, ⟨0⟩, false, false, 0⟩

/-- Queue memory before its first use. -/
def blankQueue : Queue :=
  ⟨Handle.invalid, 0, false, ⟨0, 0⟩, ⟨0, true, false⟩, 0, 0⟩

/-- Group memory before its first use. -/
def blankGroup : Group := ⟨Handle.invalid, false, 0, TaskQueue.initWithCapacity 0⟩

/-- The node after `mtapi_initialize`, with a scheduler in the given mode. -/
def init (attributes : NodeAttributes) (mode : SchedulerMode) : Node where
  attributes := attributes
  mode := mode
  workerQueue := fun _ => TaskQueue.initWithCapacity attributes.queueLimit
  affineTaskCounter := 0
  jobList := initialJob attributes
  taskPool := Pool.init attributes.maxTasks blankTask
  actionPool := Pool.init attributes.maxActions blankAction
  queuePool := Pool.init attributes.maxQueues blankQueue
  groupPool := Pool.init attributes.maxGroups blankGroup

end Node

end Embb.Mtapi
