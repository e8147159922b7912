import Embb.Mtapi.Scheduler.Frame

/-!
# Accesses to shared memory

Every program point changes the node by one of the accesses listed here, or not
at all. What an access does to a pool, a counter or a worker queue is stated once,
for the access, and holds for all program points that issue it.
-/

namespace Embb.Mtapi

/-- One change of the shared memory. -/
inductive Access where
  | read
  | taskAllocate
  | taskInit (task : Ptr) (call : StartCall)
  | taskGroup (task : Ptr) (group : Option Handle)
  | taskQueue (task : Ptr) (queue : Option Handle)
  | taskAction (task : Ptr) (action : Handle)
  | taskState (task : Ptr) (state : TaskState)
  | taskError (task : Ptr) (status : Status)
  | taskContext (task : Ptr)
  | taskTodo (task : Ptr)
  | taskFinalize (task : Ptr)
  | taskDeallocate (task : Ptr)
  | actionTasks (action : Ptr) (d : Int)
  | queueTasks (queue : Ptr) (d : Int)
  | groupTasks (group : Ptr) (d : Int)
  | push (queue : QueueRef) (task : Ptr)
  | pop (queue : QueueRef)
  | lock (queue : QueueRef) (held : Bool)
  | groupPush (group : Ptr) (task : Ptr)
  | groupPop (group : Ptr)
  | affineTaskCounter
  | actionCreate (jobId : Nat) (attributes : ActionAttributes)
  | actionEnabled (action : Ptr) (enabled : Bool)
  | actionDeallocate (action : Ptr)
  | jobAdd (jobId : Nat) (action : Handle)
  | jobRemove (jobId : Nat) (action : Handle)
  | queueAllocate
  | queueCreate (queueId : Nat) (job : Handle) (attributes : QueueAttributes)
  | queueEnabled (queue : Ptr) (enabled : Bool)
  | queueFinalize (queue : Ptr)
  | queueDeallocate (queue : Ptr)
  | groupCreate
  | groupFinalize (group : Ptr)
  | groupDeallocate (group : Ptr)

/-- `embb_mtapi_job_add_action`; its result is not used. -/
def Job.addAction (j : Job) (action : Handle) : Job :=
  if j.numActions < j.maxActions then
    { j with
      actions := Function.update j.actions j.numActions action
      numActions := j.numActions + 1 }
  else j

/-- `embb_mtapi_job_remove_action`: every entry before the last one that holds the
action is overwritten with the last one, and the count goes down in any case. -/
def Job.removeAction (j : Job) (action : Handle) : Job :=
  { j with
    actions := fun ii =>
      if ii + 1 < j.numActions ∧ j.actions ii = action then j.actions (j.numActions - 1)
      else j.actions ii
    numActions := uintPred j.numActions }

/-- The writes of `embb_mtapi_task_start` to a fresh slot before it looks at group
and queue. -/
def Task.start (x : Task) (call : StartCall) : Task :=
  { x.init with
    state := .prenatal
    job := call.job
    attributes := call.attributes
    instancesTodo := call.attributes.numInstances }

/-- The writes of `mtapi_action_create` to a fresh slot. -/
def Action.create (a : Action) (jobId : Nat) (attributes : ActionAttributes) : Action :=
  { a with
    jobId := jobId
    attributes := attributes
    enabled := true
    isPluginAction := false
    numTasks := 0 }

/-- The writes of `mtapi_queue_create` to a fresh slot. -/
def Queue.create (q : Queue) (workerCount queueId : Nat) (job : Handle)
    (attributes : QueueAttributes) : Queue :=
  let q' := q.initWithAttributesAndJob attributes job
  { q' with
    queueId := queueId
    orderedAffinity :=
      if attributes.ordered then BitVec.ofNat 64 (2 ^ (q.handle.id % workerCount))
      else q.orderedAffinity }

namespace Node

/-- `task->group = group` with the increment of the group's counter, or the
assignment that marks the task as being in no group. -/
def startGroup (n : Node) (p : Ptr) : Option Handle → Node
  | some g => (n.modifyTask p fun x => { x with group := g }).addGroupTasks g 1
  | none => n.modifyTask p fun x => { x with group := { x.group with id := idPoolInvalidId } }

/-- `task->queue = queue` with `embb_mtapi_queue_task_started`, or the assignment
that marks the task as being in no queue. -/
def startQueue (n : Node) (p : Ptr) : Option Handle → Node
  | some q => (n.modifyTask p fun x => { x with queue := q }).queueTaskStarted q
  | none => n.modifyTask p fun x => { x with queue := { x.queue with id := idPoolInvalidId } }

/-- `embb_mtapi_action_pool_allocate`, and the writes to the fresh slot. -/
def createAction (n : Node) (jobId : Nat) (attributes : ActionAttributes) : Node :=
  match n.actionPool.allocate.2 with
  | some a =>
    (n.setActionPool n.actionPool.allocate.1).modifyAction a fun x => x.create jobId attributes
  | none => n.setActionPool n.actionPool.allocate.1

/-- `embb_mtapi_queue_pool_allocate`, and the writes to the fresh slot. -/
def createQueue (n : Node) (queueId : Nat) (job : Handle) (attributes : QueueAttributes) :
    Node :=
  match n.queuePool.allocate.2 with
  | some q =>
    (n.setQueuePool n.queuePool.allocate.1).modifyQueue q fun x =>
      x.create n.workerCount queueId job attributes
  | none => n.setQueuePool n.queuePool.allocate.1

/-- `embb_mtapi_group_pool_allocate`, and the writes to the fresh slot. -/
def createGroup (n : Node) : Node :=
  match n.groupPool.allocate.2 with
  | some g =>
    (n.setGroupPool n.groupPool.allocate.1).modifyGroup g fun x => x.initWithNode n.attributes
  | none => n.setGroupPool n.groupPool.allocate.1

/-- The effect of an access. -/
def access (n : Node) : Access → Node
  | .read => n
  | .taskAllocate => n.setTaskPool n.taskPool.allocate.1
  | .taskInit p call => n.modifyTask p fun x => x.start call
  | .taskGroup p g => n.startGroup p g
  | .taskQueue p q => n.startQueue p q
  | .taskAction p a => n.modifyTask p fun x => { x with action := a, state := .created }
  | .taskState p s => n.setTaskState p s
  | .taskError p e => n.setErrorCode p e
  | .taskContext p =>
    n.modifyTask p fun x => { x with currentInstance := uintSucc x.currentInstance }
  | .taskTodo p => n.modifyTask p fun x => { x with instancesTodo := uintPred x.instancesTodo }
  | .taskFinalize p => n.modifyTask p Task.finalize
  | .taskDeallocate p => n.setTaskPool (n.taskPool.deallocate p)
  | .actionTasks a d => n.addActionTasks a d
  | .queueTasks q d => n.addQueueTasks q d
  | .groupTasks g d => n.addGroupTasks g d
  | .push r p => n.setWorkerQueue r ((n.workerQueue r).push p).1
  | .pop r => n.setWorkerQueue r (n.workerQueue r).pop.1
  | .lock r held => n.setWorkerQueue r ((n.workerQueue r).setLock held)
  | .groupPush g p => n.modifyGroup g fun x => { x with queue := (x.queue.push p).1 }
  | .groupPop g => n.modifyGroup g fun x => { x with queue := x.queue.pop.1 }
  | .affineTaskCounter => n.setAffineTaskCounter (uintSucc n.affineTaskCounter)
  | .actionCreate jobId attributes => n.createAction jobId attributes
  | .actionEnabled a enabled => n.modifyAction a fun x => { x with enabled := enabled }
  | .actionDeallocate a => n.setActionPool (n.actionPool.deallocate a)
  | .jobAdd jobId a => n.setJob jobId ((n.jobList jobId).addAction a)
  | .jobRemove jobId a => n.setJob jobId ((n.jobList jobId).removeAction a)
  | .queueAllocate => n.setQueuePool n.queuePool.allocate.1
  | .queueCreate queueId job attributes => n.createQueue queueId job attributes
  | .queueEnabled q enabled => n.modifyQueue q fun x => { x with enabled := enabled }
  | .queueFinalize q => n.modifyQueue q Queue.finalize
  | .queueDeallocate q => n.setQueuePool (n.queuePool.deallocate q)
  | .groupCreate => n.createGroup
  | .groupFinalize g => n.modifyGroup g Group.finalize
  | .groupDeallocate g => n.setGroupPool (n.groupPool.deallocate g)

/-- No access changes the node attributes. -/
@[simp] theorem attributes_access (n : Node) (u : Access) :
    (n.access u).attributes = n.attributes := by
  cases u with
  | taskGroup p g => cases g <;> rfl
  | taskQueue p q => cases q <;> rfl
  | actionCreate jobId attributes =>
    simp only [access, createAction]
    split <;> rfl
  | queueCreate queueId job attributes =>
    simp only [access, createQueue]
    split <;> rfl
  | groupCreate =>
    simp only [access, createGroup]
    split <;> rfl
  | _ => rfl

end Node

/-- The assignment to task memory that an access makes, apart from those of the pool. -/
def Access.onTask : Access → Option (Ptr × (Task → Task))
  | .taskInit p call => some (p, (Task.start · call))
  | .taskGroup p (some g) => some (p, ({ · with group := g }))
  | .taskGroup p none =>
    some (p, fun x => { x with group := { x.group with id := idPoolInvalidId } })
  | .taskQueue p (some q) => some (p, ({ · with queue := q }))
  | .taskQueue p none =>
    some (p, fun x => { x with queue := { x.queue with id := idPoolInvalidId } })
  | .taskAction p a => some (p, ({ · with action := a, state := .created }))
  | .taskState p s => some (p, ({ · with state := s }))
  | .taskError p e => some (p, ({ · with errorCode := e }))
  | .taskContext p => some (p, fun x => { x with currentInstance := uintSucc x.currentInstance })
  | .taskTodo p => some (p, fun x => { x with instancesTodo := uintPred x.instancesTodo })
  | .taskFinalize p => some (p, Task.finalize)
  | _ => none

/-- The accesses that leave the free slots and the handles of tasks alone. -/
def Access.keepsTaskHandles : Access → Bool
  | .taskAllocate | .taskDeallocate _ => false
  | _ => true

namespace Node

/-- Task memory changes by the assignment of the access and in no other slot. -/
theorem taskPool_access (n : Node) {u : Access} (h : u.keepsTaskHandles = true) :
    (n.access u).taskPool = match u.onTask with
      | some (p, f) => n.taskPool.modify p.id f
      | none => n.taskPool := by
  cases u with
  | taskAllocate | taskDeallocate => cases h
  | taskGroup p g => cases g <;> rfl
  | taskQueue p q => cases q <;> rfl
  | actionCreate jobId attributes =>
    simp only [access, createAction]
    split <;> rfl
  | queueCreate queueId job attributes =>
    simp only [access, createQueue]
    split <;> rfl
  | groupCreate =>
    simp only [access, createGroup]
    split <;> rfl
  | _ => rfl

/-- A field that no assignment changes, or whose slot the access does not touch. -/
theorem taskField_access {β : Type} (n : Node) {u : Access} (h : u.keepsTaskHandles = true)
    (g : Task → β) (id : Nat)
    (hg : ∀ p f, u.onTask = some (p, f) → p.id = id →
      g (f (n.taskPool.storage id)) = g (n.taskPool.storage id)) :
    g ((n.access u).taskPool.storage id) = g (n.taskPool.storage id) := by
  rw [taskPool_access n h]
  cases hu : u.onTask with
  | none => rfl
  | some pf =>
    obtain ⟨p, f⟩ := pf
    by_cases hid : p.id = id
    · have hf := hg p f hu hid
      subst hid
      simp only [Pool.storage_modify_self, hf]
    · simp only [Pool.storage_modify_of_ne _ _ (Ne.symm hid)]

end Node

/-- Assignments keep the handle of the slot. -/
theorem Access.handle_onTask {u : Access} {p : Ptr} {f : Task → Task}
    (h : u.onTask = some (p, f)) (x : Task) : (f x).handle = x.handle := by
  cases u with
  | taskGroup p g => cases g <;> cases h <;> rfl
  | taskQueue p q => cases q <;> cases h <;> rfl
  | _ => cases h <;> rfl

namespace Node

end Node

end Embb.Mtapi
