import Embb.Mtapi.Scheduler.DisabledActions

/-!
# Start calls that fail

`embb_mtapi_task_start` counts a task for its group and its queue before it has found an action,
checked the priority and pushed the instances, and none of this is taken back when the call
fails. A call is taken here as one that meets no other thread.
-/

namespace Embb.Mtapi

open Threads

/-- The steps of a thread that meets no other one, up to the return of its call. -/
inductive Returns (t : Nat) : Frame → Node → Node → Status → Prop
  | ret (status : Status) (h : Handle) (n : Node) : Returns t (.ret status h) n n status
  | step {f f' : Frame} {n n' : Node} {status : Status} : (exec t .go f n).2 = [f'] →
      Returns t f' (n.access (exec t .go f n).1) n' status → Returns t f n n' status

theorem Returns.keeps {t : Nat} {P : Frame → Node → Prop} {f : Frame} {n n' : Node}
    {status : Status}
    (hstep : ∀ f n f', P f n → (exec t .go f n).2 = [f'] → P f' (n.access (exec t .go f n).1))
    (h : Returns t f n n' status) (hP : P f n) : ∃ r, P (.ret status r) n' := by
  induction h with
  | ret status r n => exact ⟨r, hP⟩
  | step hf _ ih => exact ih (hstep _ _ _ hP hf)

/-- The calls that start a task. -/
def Call.starts : Call → Bool
  | .taskStart .. | .taskEnqueue .. => true
  | _ => false

namespace Node

/-- The arguments with which a call gets to `embb_mtapi_task_start`. -/
def startCall (n : Node) : Call → Option StartCall
  | .taskStart job attributes group =>
    some ⟨job, attributes.getD (TaskAttributes.init n.attributes.numCores), group, Handle.invalid⟩
  | .taskEnqueue q attributes group =>
    if n.queuePool.isHandleValid q ∧ ((n.queue q).enabled ∨ (n.queue q).attributes.retain) then
      some ⟨(n.queue q).jobHandle,
        { attributes.getD (TaskAttributes.init n.attributes.numCores) with
          priority := (n.queue q).attributes.priority }, group, q⟩
    else none
  | _ => none

/-- The slot that a call takes for its task. -/
def takenSlot (n : Node) (call : Call) : Option Ptr :=
  (n.startCall call).bind fun sc =>
    if n.jobIsHandleValid sc.job then n.taskPool.allocate.2 else none

/-- The counters and the worker queues are what they were, and no worker queue refers to the slot
that was taken. -/
structure Restored (n n' : Node) (taken : Option Ptr) : Prop where
  groupTasks : ∀ g, (n'.group g).numTasks = (n.group g).numTasks
  queueTasks : ∀ q, (n'.queue q).numTasks = (n.queue q).numTasks
  actionTasks : ∀ a, (n'.action a).numTasks = (n.action a).numTasks
  tasks : ∀ r, (n'.workerQueue r).tasks = (n.workerQueue r).tasks
  unreferenced : ∀ p, taken = some p → ∀ r, ∀ x ∈ (n'.workerQueue r).tasks, x.id ≠ p.id

/-- The affinity of a task that is in no queue. -/
def startAffinity (n : Node) (sc : StartCall) (a : Ptr) : Affinity :=
  if (n.action a).attributes.affinity &&& sc.attributes.affinity = 0 then n.affinityAll
  else (n.action a).attributes.affinity &&& sc.attributes.affinity

/-- Where the search for a worker that an affinity allows ends. -/
inductive Searches (n : Node) (affinity : Affinity) : Nat → Nat → Prop
  | found {ii : Nat} : ii < n.attributes.numCores ∧ affinity.getLsbD ii = true →
      Searches n affinity ii ii
  | next {ii jj : Nat} : ¬ (ii < n.attributes.numCores ∧ affinity.getLsbD ii = true) →
      Searches n affinity (uintSucc ii % n.workerCount) jj → Searches n affinity ii jj

/-- The worker queue for an instance of a task that is in no queue. -/
inductive Target (n : Node) (sc : StartCall) (p a : Ptr) (kk : Nat) : QueueRef → Prop
  | any : n.startAffinity sc a = n.affinityAll →
      Target n sc p a kk
        ⟨(((n.access .taskAllocate).task p).handle.id + kk) % n.workerCount, false,
          sc.attributes.priority⟩
  | affine {jj : Nat} : n.startAffinity sc a ≠ n.affinityAll →
      Searches n (n.startAffinity sc a) (uintSucc^[kk] n.affineTaskCounter) jj →
      Target n sc p a kk ⟨jj, true, sc.attributes.priority⟩

/-- The worker queue for an instance is full. -/
def FullFor (n : Node) (sc : StartCall) (p a : Ptr) (kk : Nat) : Prop :=
  ∀ r, n.Target sc p a kk r → (n.workerQueue r).limit ≤ (n.workerQueue r).tasks.length

/-- A task that is in no group and in no queue, and whose instances all find their worker queues
full. -/
structure StartsCleanly (n : Node) (sc : StartCall) (p : Ptr) : Prop where
  group : n.groupPool.isHandleValid sc.group = false
  queue : n.queuePool.isHandleValid sc.queue = false
  full : ∀ i, n.LeastLoaded (n.jobList sc.job.id) (n.jobList sc.job.id).numActions i →
    n.actionPool.isHandleValid ((n.jobList sc.job.id).actions i) = true →
    sc.attributes.priority < n.attributes.maxPriorities →
    ∀ kk < sc.attributes.numInstances, n.FullFor sc p ((n.jobList sc.job.id).actions i) kk

/-- The call takes a slot for its task. -/
structure Takes (n : Node) (call : Call) (sc : StartCall) (p : Ptr) : Prop where
  startCall : n.startCall call = some sc
  job : n.jobIsHandleValid sc.job = true
  slot : n.taskPool.allocate.2 = some p

/-- The condition under which a call that fails leaves nothing behind. -/
def FailsCleanly (n : Node) (call : Call) : Prop :=
  ∀ sc p, n.Takes call sc p → n.StartsCleanly sc p ∧
    ∀ r, ∀ x ∈ (n.workerQueue r).tasks, x.id ≠ p.id

theorem Searches.unique {n : Node} {affinity : Affinity} {ii jj jj' : Nat}
    (h : n.Searches affinity ii jj) (h' : n.Searches affinity ii jj') : jj = jj' := by
  induction h with
  | found hit =>
    cases h' with
    | found => rfl
    | next hmiss => exact absurd hit hmiss
  | next hmiss _ ih =>
    cases h' with
    | found hit => exact absurd hit hmiss
    | next _ h' => exact ih h'

theorem Target.unique {n : Node} {sc : StartCall} {p a : Ptr} {kk : Nat} {r r' : QueueRef}
    (h : n.Target sc p a kk r) (h' : n.Target sc p a kk r') : r = r' := by
  cases h with
  | any hall =>
    cases h' with
    | any => rfl
    | affine hne => exact absurd hall hne
  | affine hne hs =>
    cases h' with
    | any hall => exact absurd hall hne
    | affine _ hs' => rw [hs.unique hs']

end Node

/-- The pushes of a start call. -/
def ScheduleCaller.inStart : ScheduleCaller → Bool
  | .start .. => true
  | .retained => false

/-- The deletion that a start call makes. -/
def DeleteCaller.inStart : DeleteCaller → Bool
  | .start _ => true
  | _ => false

/-- The program points of a start call. -/
def Frame.inStart : Frame → Bool
  | .enqueue .. | .enqueueEnabled .. | .startAllocate .. | .startInit .. | .startGroup ..
  | .startGroupCount .. | .startQueue .. | .startQueueCount .. | .startChoose ..
  | .startChooseLoad .. | .startAction .. | .startSchedule .. | .startInstances ..
  | .startFailed .. | .ret .. => true
  | .schedule _ _ caller | .scheduleAffinity _ _ _ caller | .scheduleCount _ _ _ _ caller
  | .scheduleAffine _ _ _ caller | .scheduleSearch _ _ _ _ caller
  | .schedulePush _ _ _ _ caller | .scheduleUndo _ _ caller => caller.inStart
  | .taskDelete _ caller | .taskDeallocate _ caller => caller.inStart
  | _ => false

/-- The accesses that take nothing from a group, a queue or a worker queue. -/
def Access.grows : Access → Bool
  | .read | .taskAllocate | .taskInit .. | .taskGroup .. | .taskQueue .. | .taskAction ..
  | .taskState .. | .taskFinalize _ | .taskDeallocate _ | .actionTasks .. | .push ..
  | .affineTaskCounter => true
  | _ => false

theorem inStart_scheduleResume {caller : ScheduleCaller} {p : Ptr} {pushed : Bool} {f' : Frame}
    (h : caller.inStart = true) (hf : caller.resume p pushed = [f']) : f'.inStart = true := by
  cases caller with
  | start call kk was =>
    cases hf
    rfl
  | retained => cases h

theorem inStart_deleteResume {caller : DeleteCaller} (h : caller.inStart = true) :
    caller.resume.inStart = true := by
  cases caller with
  | start status => rfl
  | _ => cases h

theorem exec_inStart {t : Nat} {f f' : Frame} {n : Node} (h : f.inStart = true)
    (hf : (exec t .go f n).2 = [f']) : (exec t .go f n).1.grows = true ∧ f'.inStart = true := by
  revert hf
  fun_cases exec t .go f n
  all_goals first
    | exact absurd h Bool.false_ne_true
    | exact fun hf => ⟨rfl, inStart_scheduleResume h hf⟩
    | intro hf
      cases hf
      exact ⟨rfl, rfl⟩
    | intro hf
      cases hf
      exact ⟨rfl, h⟩
    | intro hf
      cases hf
      exact ⟨rfl, inStart_deleteResume h⟩
    | exact fun hf => (by cases hf)

/-- Nothing is taken from a group, a queue or a worker queue. -/
structure Node.Grows (n n' : Node) : Prop where
  groupTasks : ∀ g, (n.group g).numTasks ≤ (n'.group g).numTasks
  queueTasks : ∀ q, (n.queue q).numTasks ≤ (n'.queue q).numTasks
  tasks : ∀ r, (n.workerQueue r).tasks.length ≤ (n'.workerQueue r).tasks.length

theorem Node.grows_addGroupTasks (n : Node) (g : Ptr) : n.Grows (n.addGroupTasks g 1) := by
  refine ⟨fun x => ?_, fun _ => le_rfl, fun _ => le_rfl⟩
  by_cases hx : x.id = g.id
  · rw [Node.group, Node.group, hx, addGroupTasks]
    simp
  · rw [addGroupTasks, group_modifyGroup_of_ne _ _ hx]

theorem Node.grows_addQueueTasks (n : Node) (q : Ptr) : n.Grows (n.addQueueTasks q 1) := by
  refine ⟨fun _ => le_rfl, fun x => ?_, fun _ => le_rfl⟩
  by_cases hx : x.id = q.id
  · rw [Node.queue, Node.queue, hx, addQueueTasks]
    simp
  · rw [addQueueTasks, queue_modifyQueue_of_ne _ _ hx]

theorem Node.grows_push (n : Node) (r : QueueRef) (p : Ptr) : n.Grows (n.access (.push r p)) := by
  refine ⟨fun _ => le_rfl, fun _ => le_rfl, fun x => ?_⟩
  simp only [access, setWorkerQueue]
  rcases eq_or_ne x r with rfl | hx
  · rw [Function.update_self]
    cases hp : ((n.workerQueue x).push p).2 with
    | true =>
      rw [TaskQueue.tasks_push_of_true hp, List.length_append]
      exact Nat.le_add_right ..
    | false => rw [TaskQueue.push_of_false hp]
  · rw [Function.update_of_ne hx]

theorem Node.grows_access (n : Node) {u : Access} (h : u.grows = true) : n.Grows (n.access u) := by
  cases u with
  | taskGroup p g =>
    cases g with
    | none => exact ⟨fun _ => le_rfl, fun _ => le_rfl, fun _ => le_rfl⟩
    | some g =>
      obtain ⟨h1, h2, h3⟩ := (n.modifyTask p fun x => { x with group := g }).grows_addGroupTasks g
      exact ⟨h1, h2, h3⟩
  | taskQueue p q =>
    cases q with
    | none => exact ⟨fun _ => le_rfl, fun _ => le_rfl, fun _ => le_rfl⟩
    | some q =>
      obtain ⟨h1, h2, h3⟩ := (n.modifyTask p fun x => { x with queue := q }).grows_addQueueTasks q
      exact ⟨h1, h2, h3⟩
  | push r p => exact n.grows_push r p
  | read | taskAllocate | taskInit | taskAction | taskState | taskFinalize | taskDeallocate
  | actionTasks | affineTaskCounter => exact ⟨fun _ => le_rfl, fun _ => le_rfl, fun _ => le_rfl⟩
  | _ => cases h

theorem Node.Grows.trans {n n' n'' : Node} (h : n.Grows n') (h' : n'.Grows n'') : n.Grows n'' :=
  ⟨fun g => (h.groupTasks g).trans (h'.groupTasks g),
    fun q => (h.queueTasks q).trans (h'.queueTasks q), fun r => (h.tasks r).trans (h'.tasks r)⟩

/-- Something has been added to a group, a queue or a worker queue. -/
def Node.Added (n n' : Node) : Prop :=
  (∃ g, (n.group g).numTasks < (n'.group g).numTasks) ∨
    (∃ q, (n.queue q).numTasks < (n'.queue q).numTasks) ∨
    ∃ r, (n.workerQueue r).tasks.length < (n'.workerQueue r).tasks.length

theorem Node.Added.grows {n n' n'' : Node} (h : n.Added n') (h' : n'.Grows n'') : n.Added n'' := by
  rcases h with ⟨g, hg⟩ | ⟨q, hq⟩ | ⟨r, hr⟩
  · exact Or.inl ⟨g, hg.trans_le (h'.groupTasks g)⟩
  · exact Or.inr (Or.inl ⟨q, hq.trans_le (h'.queueTasks q)⟩)
  · exact Or.inr (Or.inr ⟨r, hr.trans_le (h'.tasks r)⟩)

theorem Node.Added.not_restored {n n' : Node} (h : n.Added n') (taken : Option Ptr) :
    ¬ n.Restored n' taken := by
  intro hr
  rcases h with ⟨g, hg⟩ | ⟨q, hq⟩ | ⟨r, hq⟩
  · exact hg.ne (hr.groupTasks g).symm
  · exact hq.ne (hr.queueTasks q).symm
  · exact hq.ne (congrArg List.length (hr.tasks r)).symm

/-- The node apart from its tasks and the counter for affine tasks. -/
structure Node.Untouched (n₀ n : Node) : Prop where
  workerQueue : n.workerQueue = n₀.workerQueue
  groupPool : n.groupPool = n₀.groupPool
  queuePool : n.queuePool = n₀.queuePool
  actionPool : n.actionPool = n₀.actionPool

/-- The call has taken a slot and has changed nothing but its task; the actions are as given. -/
structure Begun (n₀ : Node) (call : Call) (sc : StartCall) (p : Ptr) (actions : Pool Action)
    (n : Node) : Prop where
  takes : n₀.Takes call sc p
  attributes : n.attributes = n₀.attributes
  jobList : n.jobList = n₀.jobList
  workerQueue : n.workerQueue = n₀.workerQueue
  groupPool : n.groupPool = n₀.groupPool
  queuePool : n.queuePool = n₀.queuePool
  actionPool : n.actionPool = actions
  handle : (n.task p).handle = ((n₀.access .taskAllocate).task p).handle

/-- The task has its attributes. -/
structure Bound (n₀ : Node) (call : Call) (sc : StartCall) (p : Ptr) (n : Node) : Prop
    extends Begun n₀ call sc p n₀.actionPool n where
  counter : n.affineTaskCounter = n₀.affineTaskCounter
  taskAttributes : (n.task p).attributes = sc.attributes

/-- The task is in no group and in no queue, and the call looks for an action. -/
structure Choosing (n₀ : Node) (call : Call) (sc : StartCall) (p : Ptr) (ii i : Nat) (n : Node) :
    Prop extends Bound n₀ call sc p n where
  group : n₀.groupPool.isHandleValid sc.group = false
  queue : n₀.queuePool.isHandleValid sc.queue = false
  taskQueue : n₀.queuePool.isHandleValid (n.task p).queue = false
  least : n₀.LeastLoaded (n₀.jobList sc.job.id) ii i
  le : ii ≤ (n₀.jobList sc.job.id).numActions
  index : i ≤ ii

/-- The action that is chosen. -/
def Node.actionAt (n₀ : Node) (sc : StartCall) (i : Nat) : Ptr := (n₀.jobList sc.job.id).actions i

/-- The counter for affine tasks after some instances. -/
def Node.counterAt (n₀ : Node) (sc : StartCall) (a : Ptr) (kk : Nat) : Nat :=
  if n₀.startAffinity sc a = n₀.affinityAll then n₀.affineTaskCounter
  else uintSucc^[kk] n₀.affineTaskCounter

/-- The task is on its way to the worker queues, and all instances before one have found theirs
full. -/
structure Pushing (n₀ : Node) (call : Call) (sc : StartCall) (p : Ptr) (i kk : Nat)
    (actions : Pool Action) (counter : Nat) (n : Node) : Prop
    extends Begun n₀ call sc p actions n where
  counter : n.affineTaskCounter = counter
  taskAttributes : (n.task p).attributes = sc.attributes
  group : n₀.groupPool.isHandleValid sc.group = false
  queue : n₀.queuePool.isHandleValid sc.queue = false
  taskQueue : n₀.queuePool.isHandleValid (n.task p).queue = false
  least : n₀.LeastLoaded (n₀.jobList sc.job.id) (n₀.jobList sc.job.id).numActions i
  valid : n₀.actionPool.isHandleValid (n₀.actionAt sc i) = true
  range : sc.attributes.priority < n₀.attributes.maxPriorities
  action : (n.task p).action = n₀.actionAt sc i
  full : ∀ k < kk, n₀.FullFor sc p (n₀.actionAt sc i) k

/-- An instance is on its way to a worker queue. -/
structure Scheduling (n₀ : Node) (call : Call) (sc : StartCall) (p : Ptr) (i kk : Nat)
    (actions : Pool Action) (counter : Nat) (n : Node) : Prop
    extends Pushing n₀ call sc p i kk actions counter n where
  lt : kk < sc.attributes.numInstances

/-- The actions while one more task is counted. -/
def Node.counted (n₀ : Node) (a : Ptr) : Pool Action :=
  n₀.actionPool.modify a.id fun x => { x with numTasks := x.numTasks + 1 }

/-- The call is over but for the deletion of its task. -/
def TraceFree (n₀ : Node) (call : Call) (n : Node) : Prop :=
  n₀.Untouched n ∧ ∀ sc p, n₀.Takes call sc p → n₀.StartsCleanly sc p

/-- What is known at a program point of a start call that has left no trace so far. -/
def Clean (n₀ : Node) (call : Call) : Frame → Node → Prop
  | .enqueue q attributes group, n => n = n₀ ∧ call = .taskEnqueue q attributes group
  | .enqueueEnabled q attributes group, n =>
    n = n₀ ∧ call = .taskEnqueue q attributes group ∧ n₀.queuePool.isHandleValid q = true
  | .startAllocate sc, n => n = n₀ ∧ n₀.startCall call = some sc
  | .startInit sc p, n => Begun n₀ call sc p n₀.actionPool n ∧
    n.affineTaskCounter = n₀.affineTaskCounter
  | .startGroup sc p, n => Bound n₀ call sc p n
  | .startGroupCount sc p, n =>
    Bound n₀ call sc p n ∧ n₀.groupPool.isHandleValid sc.group = true
  | .startQueue sc p, n => Bound n₀ call sc p n ∧ n₀.groupPool.isHandleValid sc.group = false
  | .startQueueCount sc p, n =>
    Bound n₀ call sc p n ∧ n₀.queuePool.isHandleValid sc.queue = true
  | .startChoose sc p ii i, n => Choosing n₀ call sc p ii i n
  | .startChooseLoad sc p ii i a load, n => Choosing n₀ call sc p ii i n ∧
    n₀.ValidAt (n₀.jobList sc.job.id) ii ∧ a = n₀.actionAt sc ii ∧
    load = n₀.load (n₀.jobList sc.job.id) i
  | .startAction sc p i, n => Choosing n₀ call sc p (n₀.jobList sc.job.id).numActions i n
  | .startSchedule sc p, n => ∃ i,
    Pushing n₀ call sc p i 0 n₀.actionPool n₀.affineTaskCounter n
  | .startInstances sc p kk was, n => ∃ i, Pushing n₀ call sc p i kk n₀.actionPool
      (n₀.counterAt sc (n₀.actionAt sc i) kk) n ∧ (was = true → kk = 0)
  | .schedule p k (.start sc kk _), n => ∃ i, Scheduling n₀ call sc p i kk n₀.actionPool
      (n₀.counterAt sc (n₀.actionAt sc i) kk) n ∧ k = kk
  | .scheduleAffinity p ii a (.start sc kk _), n => ∃ i, Scheduling n₀ call sc p i kk n₀.actionPool
      (n₀.counterAt sc (n₀.actionAt sc i) kk) n ∧ a = n₀.actionAt sc i ∧
      ii = (((n₀.access .taskAllocate).task p).handle.id + kk) % n₀.workerCount
  | .scheduleCount p ii a affinity (.start sc kk _), n => ∃ i,
      Scheduling n₀ call sc p i kk n₀.actionPool (n₀.counterAt sc (n₀.actionAt sc i) kk) n ∧
      a = n₀.actionAt sc i ∧
      ii = (((n₀.access .taskAllocate).task p).handle.id + kk) % n₀.workerCount ∧
      affinity = n₀.startAffinity sc a
  | .scheduleAffine p a affinity (.start sc kk _), n => ∃ i,
      Scheduling n₀ call sc p i kk (n₀.counted a) (n₀.counterAt sc (n₀.actionAt sc i) kk) n ∧
      a = n₀.actionAt sc i ∧ affinity = n₀.startAffinity sc a ∧ affinity ≠ n₀.affinityAll
  | .scheduleSearch p ii a affinity (.start sc kk _), n => ∃ i,
      Scheduling n₀ call sc p i kk (n₀.counted a) (n₀.counterAt sc (n₀.actionAt sc i) (kk + 1)) n ∧
      a = n₀.actionAt sc i ∧ affinity = n₀.startAffinity sc a ∧ affinity ≠ n₀.affinityAll ∧
      ∀ jj, n₀.Searches affinity ii jj →
        n₀.Searches affinity (uintSucc^[kk] n₀.affineTaskCounter) jj
  | .schedulePush p ii isPrivate a (.start sc kk _), n => ∃ i,
      Scheduling n₀ call sc p i kk (n₀.counted a) (n₀.counterAt sc (n₀.actionAt sc i) (kk + 1)) n ∧
      a = n₀.actionAt sc i ∧ n₀.Target sc p a kk ⟨ii, isPrivate, sc.attributes.priority⟩
  | .scheduleUndo p a (.start sc kk _), n => ∃ i,
      Scheduling n₀ call sc p i kk (n₀.counted a) (n₀.counterAt sc (n₀.actionAt sc i) (kk + 1)) n ∧
      a = n₀.actionAt sc i ∧ n₀.FullFor sc p a kk
  | .startFailed _, n | .taskDelete _ (.start _), n | .taskDeallocate _ (.start _), n =>
    TraceFree n₀ call n
  | .ret status _, n => n₀.Untouched n ∧
    (status ≠ .success → ∀ sc p, n₀.Takes call sc p → n₀.StartsCleanly sc p)
  | _, _ => False

/-- A start call has left no trace so far, or has left one that the condition rules out. -/
def Track (n₀ : Node) (call : Call) (f : Frame) (n : Node) : Prop :=
  f.inStart = true ∧ n₀.Added n ∧ ¬ n₀.FailsCleanly call ∨ Clean n₀ call f n

/-- The next step is known, and what it leads to. -/
def StepsTo (n₀ : Node) (call : Call) (t : Nat) (f : Frame) (n : Node) : Prop :=
  ∃ u g, exec t .go f n = (u, [g]) ∧ Track n₀ call g (n.access u)

section Steps

variable {n₀ n : Node} {call : Call} {t : Nat} {sc : StartCall} {p : Ptr} {i kk : Nat}
  {actions : Pool Action} {counter : Nat}

theorem StepsTo.clean {f g : Frame} {u : Access} (hx : exec t .go f n = (u, [g]))
    (h : Clean n₀ call g (n.access u)) : StepsTo n₀ call t f n :=
  ⟨u, g, hx, Or.inr h⟩

theorem StepsTo.spoiled {f g : Frame} {u : Access} (hx : exec t .go f n = (u, [g]))
    (hg : g.inStart = true) (h : n₀.Added (n.access u)) (hf : ¬ n₀.FailsCleanly call) :
    StepsTo n₀ call t f n :=
  ⟨u, g, hx, Or.inl ⟨hg, h, hf⟩⟩

theorem Node.untouched_refl (n : Node) : n.Untouched n := ⟨rfl, rfl, rfl, rfl⟩

theorem Begun.untouched (h : Begun n₀ call sc p n₀.actionPool n) : n₀.Untouched n :=
  ⟨h.workerQueue, h.groupPool, h.queuePool, h.actionPool⟩

/-- A call takes one slot, for one set of arguments. -/
theorem Node.Takes.unique {sc' : StartCall} {p' : Ptr} (h : n₀.Takes call sc p)
    (h' : n₀.Takes call sc' p') : sc' = sc ∧ p' = p :=
  ⟨Option.some.inj (h'.startCall.symm.trans h.startCall),
    Option.some.inj (h'.slot.symm.trans h.slot)⟩

theorem Begun.modify (h : Begun n₀ call sc p actions n) {f : Task → Task}
    (hf : ∀ x, (f x).handle = x.handle) : Begun n₀ call sc p actions (n.modifyTask p f) where
  takes := h.takes
  attributes := h.attributes
  jobList := h.jobList
  workerQueue := h.workerQueue
  groupPool := h.groupPool
  queuePool := h.queuePool
  actionPool := h.actionPool
  handle := by rw [Node.task_modifyTask_self, hf, h.handle]

theorem Bound.modify (h : Bound n₀ call sc p n) {f : Task → Task}
    (hf : ∀ x, (f x).handle = x.handle) (ha : ∀ x, (f x).attributes = x.attributes) :
    Bound n₀ call sc p (n.modifyTask p f) where
  toBegun := h.toBegun.modify hf
  counter := h.counter
  taskAttributes := by rw [Node.task_modifyTask_self, ha, h.taskAttributes]

/-- A task that has been counted for its group or its queue leaves a trace. -/
theorem not_failsCleanly (h : n₀.Takes call sc p) (hs : ¬ n₀.StartsCleanly sc p) :
    ¬ n₀.FailsCleanly call :=
  fun hc => hs (hc sc p h).1

theorem stepsTo_enqueue {q : Handle} {attributes : Option TaskAttributes} {group : Handle}
    (h : Clean n₀ call (.enqueue q attributes group) n) :
    StepsTo n₀ call t (.enqueue q attributes group) n := by
  obtain ⟨rfl, hcall⟩ := h
  by_cases hvalid : n.queuePool.isHandleValid q = true
  · exact .clean (u := .read) (if_pos hvalid) ⟨rfl, hcall, hvalid⟩
  · refine .clean (u := .read) (if_neg hvalid) ⟨n.untouched_refl, fun _ sc p ht => ?_⟩
    have hstart := ht.startCall
    rw [hcall, Node.startCall, if_neg fun hv => hvalid hv.1] at hstart
    cases hstart

theorem stepsTo_enqueueEnabled {q : Ptr} {attributes : Option TaskAttributes} {group : Handle}
    (h : Clean n₀ call (.enqueueEnabled q attributes group) n) :
    StepsTo n₀ call t (.enqueueEnabled q attributes group) n := by
  obtain ⟨rfl, hcall, hvalid⟩ := h
  by_cases henabled : (n.queue q).enabled = true ∨ (n.queue q).attributes.retain = true
  · refine .clean (u := .read) (if_pos henabled) ⟨rfl, ?_⟩
    rw [hcall, Node.startCall, if_pos ⟨hvalid, henabled⟩]
  · refine .clean (u := .read) (if_neg henabled) ⟨n.untouched_refl, fun _ sc p ht => ?_⟩
    have hstart := ht.startCall
    rw [hcall, Node.startCall, if_neg fun hv => henabled hv.2] at hstart
    cases hstart

theorem stepsTo_startAllocate (h : Clean n₀ call (.startAllocate sc) n) :
    StepsTo n₀ call t (.startAllocate sc) n := by
  obtain ⟨rfl, hcall⟩ := h
  by_cases hjob : n.jobIsHandleValid sc.job = true
  · cases hslot : n.taskPool.allocate.2 with
    | some p =>
      refine .clean (u := .taskAllocate) (g := .startInit sc p) ?_ ⟨?_, rfl⟩
      · simp only [exec, hjob, hslot, ↓reduceIte]
      · exact ⟨⟨hcall, hjob, hslot⟩, rfl, rfl, rfl, rfl, rfl, rfl, rfl⟩
    | none =>
      refine .clean (u := .taskAllocate) (g := .ret .errTaskLimit Handle.invalid) ?_
        ⟨⟨rfl, rfl, rfl, rfl⟩, fun _ sc' p ht => ?_⟩
      · simp only [exec, hjob, hslot, ↓reduceIte]
      · cases hslot.symm.trans ht.slot
  · refine .clean (u := .read) (if_neg hjob) ⟨n.untouched_refl, fun _ sc' p ht => ?_⟩
    cases hcall.symm.trans ht.startCall
    exact absurd ht.job hjob

theorem stepsTo_startInit (h : Clean n₀ call (.startInit sc p) n) :
    StepsTo n₀ call t (.startInit sc p) n := by
  obtain ⟨hbegun, hcounter⟩ := h
  refine .clean (u := .taskInit p sc) rfl ⟨hbegun.modify fun _ => rfl, hcounter, ?_⟩
  rw [Node.access, Node.task_modifyTask_self]
  rfl

theorem stepsTo_startGroup (h : Clean n₀ call (.startGroup sc p) n) :
    StepsTo n₀ call t (.startGroup sc p) n := by
  have h : Bound n₀ call sc p n := h
  by_cases hvalid : n.groupPool.isHandleValid sc.group = true
  · exact .clean (u := .read) (if_pos hvalid) ⟨h, h.groupPool ▸ hvalid⟩
  · refine .clean (u := .taskGroup p none) (if_neg hvalid) ⟨?_, ?_⟩
    · exact h.modify (fun _ => rfl) fun _ => rfl
    · rw [← h.groupPool]
      exact Bool.eq_false_iff.mpr hvalid

theorem stepsTo_startGroupCount (h : Clean n₀ call (.startGroupCount sc p) n) :
    StepsTo n₀ call t (.startGroupCount sc p) n := by
  obtain ⟨hbound, hvalid⟩ := h
  refine .spoiled (u := .taskGroup p (some sc.group)) rfl rfl (Or.inl ⟨sc.group, ?_⟩)
    (not_failsCleanly hbound.takes fun hs => ?_)
  · rw [Node.group, ← hbound.groupPool]
    simp only [Node.access, Node.startGroup, Node.addGroupTasks, Node.group_modifyGroup_self]
    exact Int.lt_succ _
  · rw [hs.group] at hvalid
    cases hvalid

theorem stepsTo_startQueue (h : Clean n₀ call (.startQueue sc p) n) :
    StepsTo n₀ call t (.startQueue sc p) n := by
  obtain ⟨hbound, hgroup⟩ := h
  by_cases hvalid : n.queuePool.isHandleValid sc.queue = true
  · exact .clean (u := .read) (if_pos hvalid) ⟨hbound, hbound.queuePool ▸ hvalid⟩
  · refine .clean (u := .taskQueue p none) (if_neg hvalid) ⟨?_, hgroup, ?_, ?_, ?_, ?_, ?_⟩
    · exact hbound.modify (fun _ => rfl) fun _ => rfl
    · rw [← hbound.queuePool]
      exact Bool.eq_false_iff.mpr hvalid
    · simp only [Node.access, Node.startQueue, Node.task_modifyTask_self]
      exact Bool.eq_false_iff.mpr fun hv =>
        absurd ((n₀.queuePool.isHandleValid_iff _).mp hv).1 (lt_irrefl 0)
    · exact Node.leastLoaded_zero
    · exact Nat.zero_le _
    · exact le_rfl

theorem stepsTo_startQueueCount (h : Clean n₀ call (.startQueueCount sc p) n) :
    StepsTo n₀ call t (.startQueueCount sc p) n := by
  obtain ⟨hbound, hvalid⟩ := h
  refine .spoiled (u := .taskQueue p (some sc.queue)) rfl rfl (Or.inr (Or.inl ⟨sc.queue, ?_⟩))
    (not_failsCleanly hbound.takes fun hs => ?_)
  · rw [Node.queue, ← hbound.queuePool]
    simp only [Node.access, Node.startQueue, Node.queueTaskStarted, Node.addQueueTasks,
      Node.queue_modifyQueue_self]
    exact Int.lt_succ _
  · rw [hs.queue] at hvalid
    cases hvalid

theorem Begun.load (h : Begun n₀ call sc p n₀.actionPool n) (job : Job) (ii : Nat) :
    n.load job ii = n₀.load job ii := by
  rw [Node.load, Node.load, Node.action, Node.action, h.actionPool]

theorem stepsTo_startChoose {ii : Nat} (h : Clean n₀ call (.startChoose sc p ii i) n) :
    StepsTo n₀ call t (.startChoose sc p ii i) n := by
  have h : Choosing n₀ call sc p ii i n := h
  have hjob : n.jobList sc.job.id = n₀.jobList sc.job.id := congrFun h.jobList _
  by_cases hlt : ii < (n₀.jobList sc.job.id).numActions
  · by_cases hvalid :
        n₀.actionPool.isHandleValid ((n₀.jobList sc.job.id).actions ii) = true
    · refine .clean (u := .read) (g := .startChooseLoad sc p ii i
        ((n₀.jobList sc.job.id).actions ii) (n.load (n₀.jobList sc.job.id) i)) ?_
        ⟨h, ⟨hlt, hvalid⟩, rfl, h.load _ _⟩
      simp only [exec, hjob, hlt, h.actionPool, hvalid, ↓reduceIte]
      rfl
    · refine .clean (u := .read) (g := .startChoose sc p (ii + 1) i) ?_
        { h with least := h.least.skip hvalid, le := hlt, index := h.index.trans (Nat.le_succ _) }
      simp only [exec, hjob, hlt, h.actionPool, hvalid, Bool.false_eq_true, ↓reduceIte]
  · have hii : ii = (n₀.jobList sc.job.id).numActions := le_antisymm h.le (Nat.not_lt.mp hlt)
    subst hii
    refine .clean (u := .read) (g := .startAction sc p i) ?_ h
    simp only [exec, hjob, hlt, ↓reduceIte]

theorem stepsTo_startChooseLoad {ii : Nat} {a : Ptr} {load : Int}
    (h : Clean n₀ call (.startChooseLoad sc p ii i a load) n) :
    StepsTo n₀ call t (.startChooseLoad sc p ii i a load) n := by
  obtain ⟨h, ⟨hlt, hvalid⟩, rfl, rfl⟩ := h
  have haction : (n.action (n₀.actionAt sc ii)).numTasks =
      n₀.load (n₀.jobList sc.job.id) ii := h.load _ ii
  by_cases hload : n₀.load (n₀.jobList sc.job.id) ii < n₀.load (n₀.jobList sc.job.id) i
  · refine .clean (u := .read) (if_pos (haction ▸ hload)) ?_
    exact { h with least := h.least.take hvalid hload, le := hlt, index := Nat.le_succ _ }
  · refine .clean (u := .read) (if_neg (haction ▸ hload)) ?_
    exact { h with
      least := h.least.keep hload h.index, le := hlt, index := h.index.trans (Nat.le_succ _) }

/-- A call that does not get to the worker queues leaves no trace. -/
theorem settled_of_rejected (h : Choosing n₀ call sc p (n₀.jobList sc.job.id).numActions i n)
    (hno : ¬ (n₀.actionPool.isHandleValid (n₀.actionAt sc i) = true ∧
      sc.attributes.priority < n₀.attributes.maxPriorities)) :
    ∀ sc' p', n₀.Takes call sc' p' → n₀.StartsCleanly sc' p' := by
  intro sc' p' ht
  obtain ⟨rfl, rfl⟩ := h.takes.unique ht
  refine ⟨h.group, h.queue, fun j hj hvalid hrange => ?_⟩
  cases hj.unique h.least
  exact absurd ⟨hvalid, hrange⟩ hno

theorem stepsTo_startAction (h : Clean n₀ call (.startAction sc p i) n) :
    StepsTo n₀ call t (.startAction sc p i) n := by
  have h : Choosing n₀ call sc p (n₀.jobList sc.job.id).numActions i n := h
  have hjob : n.jobList sc.job.id = n₀.jobList sc.job.id := congrFun h.jobList _
  have hprio : (n.task p).attributes.priority < n.attributes.maxPriorities ↔
      sc.attributes.priority < n₀.attributes.maxPriorities := by
    rw [h.taskAttributes, h.attributes]
  have hpool : n.actionPool.isHandleValid ((n.jobList sc.job.id).actions i) =
      n₀.actionPool.isHandleValid (n₀.actionAt sc i) := by
    rw [h.actionPool, hjob]
    rfl
  have htask : ∀ a : Handle, Begun n₀ call sc p n₀.actionPool (n.access (.taskAction p a)) :=
    fun a => h.toBegun.modify fun _ => rfl
  by_cases hvalid : n₀.actionPool.isHandleValid (n₀.actionAt sc i) = true
  · have hvalid' := hpool.trans hvalid
    by_cases hrange : sc.attributes.priority < n₀.attributes.maxPriorities
    · refine .clean (u := .taskAction p ((n.jobList sc.job.id).actions i))
        (g := .startSchedule sc p) ?_ ⟨i, htask _, h.counter, ?_, h.group, h.queue, ?_, h.least,
          hvalid, hrange, ?_, fun k hk => absurd hk (Nat.not_lt_zero k)⟩
      · simp only [exec, hvalid', hprio.mpr hrange, ↓reduceIte]
      · rw [Node.access, Node.task_modifyTask_self]
        exact h.taskAttributes
      · rw [Node.access, Node.task_modifyTask_self]
        exact h.taskQueue
      · rw [Node.access, Node.task_modifyTask_self, hjob]
        rfl
    · refine .clean (u := .taskAction p ((n.jobList sc.job.id).actions i))
        (g := .taskDelete p (.start .errParameter)) ?_
        ⟨(htask _).untouched, settled_of_rejected h fun hb => hrange hb.2⟩
      simp only [exec, hvalid', mt hprio.mp hrange, ↓reduceIte]
  · have hvalid' : ¬ n.actionPool.isHandleValid ((n.jobList sc.job.id).actions i) = true :=
      hpool ▸ hvalid
    exact .clean (u := .read) (if_neg hvalid')
      ⟨h.toBegun.untouched, settled_of_rejected h fun hb => hvalid hb.1⟩

theorem stepsTo_startSchedule (h : Clean n₀ call (.startSchedule sc p) n) :
    StepsTo n₀ call t (.startSchedule sc p) n := by
  obtain ⟨i, h⟩ := h
  have htask : (n.access (.taskState p .scheduled)).task p =
      { n.task p with state := .scheduled } := n.task_modifyTask_self p _
  have hcounter : n₀.counterAt sc (n₀.actionAt sc i) 0 = n₀.affineTaskCounter := by
    unfold Node.counterAt
    split <;> rfl
  refine .clean (u := .taskState p .scheduled) (g := .startInstances sc p 0 true) rfl
    ⟨i, ⟨h.toBegun.modify fun _ => rfl, hcounter.symm ▸ h.counter, ?_, h.group, h.queue, ?_,
      h.least, h.valid, h.range, ?_, h.full⟩, fun _ => rfl⟩
  · rw [htask]
    exact h.taskAttributes
  · rw [htask]
    exact h.taskQueue
  · rw [htask]
    exact h.action

/-- All instances have found their worker queues full. -/
theorem Pushing.settled (h : Pushing n₀ call sc p i kk n₀.actionPool counter n)
    (hkk : sc.attributes.numInstances ≤ kk) : TraceFree n₀ call n := by
  refine ⟨h.untouched, fun sc' p' ht => ?_⟩
  obtain ⟨rfl, rfl⟩ := h.takes.unique ht
  refine ⟨h.group, h.queue, fun j hj _ _ k hk => ?_⟩
  cases hj.unique h.least
  exact h.full k (hk.trans_le hkk)

theorem stepsTo_startInstances {was : Bool} (h : Clean n₀ call (.startInstances sc p kk was) n) :
    StepsTo n₀ call t (.startInstances sc p kk was) n := by
  obtain ⟨i, h, hwas⟩ := h
  have hnum : (n.task p).attributes.numInstances = sc.attributes.numInstances := by
    rw [h.taskAttributes]
  by_cases hlt : kk < sc.attributes.numInstances
  · refine .clean (u := .read) (g := .schedule p kk (.start sc kk was)) ?_ ⟨i, ⟨h, hlt⟩, rfl⟩
    simp only [exec, hnum, hlt, ↓reduceIte]
  · have hsettled := h.settled (Nat.not_lt.mp hlt)
    cases was with
    | true =>
      refine .clean (u := .read)
        (g := .ret .success (if (n.task p).attributes.isDetached then Handle.invalid else p)) ?_
        ⟨hsettled.1, fun hne => absurd rfl hne⟩
      simp only [exec, hnum, hlt, ↓reduceIte]
    | false =>
      refine .clean (u := .read) (g := .startFailed p) ?_ hsettled
      simp only [exec, hnum, hlt, Bool.false_eq_true, ↓reduceIte]

theorem stepsTo_schedule {k : Nat} {was : Bool}
    (h : Clean n₀ call (.schedule p k (.start sc kk was)) n) :
    StepsTo n₀ call t (.schedule p k (.start sc kk was)) n := by
  obtain ⟨i, h, rfl⟩ := h
  have hvalid : n.actionPool.isHandleValid (n.task p).action = true := by
    rw [h.actionPool, h.action, h.valid]
  refine .clean (u := .read) (if_pos hvalid) ⟨i, h, h.action, ?_⟩
  rw [h.handle, Node.workerCount, h.attributes]

theorem stepsTo_scheduleAffinity {ii : Nat} {a : Ptr} {was : Bool}
    (h : Clean n₀ call (.scheduleAffinity p ii a (.start sc kk was)) n) :
    StepsTo n₀ call t (.scheduleAffinity p ii a (.start sc kk was)) n := by
  obtain ⟨i, h, rfl, hii⟩ := h
  refine .clean (u := .read) rfl ⟨i, h, rfl, hii, ?_⟩
  have hno : ¬ (n.queuePool.isHandleValid (n.task p).queue = true ∧
      (n.queue (n.task p).queue).attributes.ordered = true) := by
    rw [h.queuePool, h.taskQueue]
    exact fun hq => Bool.false_ne_true hq.1
  simp only [Node.scheduleAffinity, if_neg hno, h.taskAttributes, Node.action, h.actionPool,
    Node.affinityAll, h.attributes]
  rfl

/-- Counting the task for its action. -/
theorem Scheduling.count {a : Ptr} {counter : Nat}
    (h : Scheduling n₀ call sc p i kk n₀.actionPool counter n) :
    Scheduling n₀ call sc p i kk (n₀.counted a) counter (n.access (.actionTasks a 1)) := by
  have hpool : (n.access (.actionTasks a 1)).actionPool = n₀.counted a := by
    rw [Node.counted, ← h.actionPool]
    rfl
  exact { h with actionPool := hpool }

theorem stepsTo_scheduleCount {ii : Nat} {a : Ptr} {affinity : Affinity} {was : Bool}
    (h : Clean n₀ call (.scheduleCount p ii a affinity (.start sc kk was)) n) :
    StepsTo n₀ call t (.scheduleCount p ii a affinity (.start sc kk was)) n := by
  obtain ⟨i, h, rfl, rfl, rfl⟩ := h
  have hall : n.affinityAll = n₀.affinityAll := by
    rw [Node.affinityAll, h.attributes]
  by_cases hfull : n₀.startAffinity sc (n₀.actionAt sc i) = n.affinityAll
  · refine .clean (if_pos hfull) ⟨i, ?_, rfl, .any (hfull.trans hall)⟩
    have hcounter : n₀.counterAt sc (n₀.actionAt sc i) (kk + 1) =
        n₀.counterAt sc (n₀.actionAt sc i) kk := by
      rw [Node.counterAt, Node.counterAt, if_pos (hfull.trans hall), if_pos (hfull.trans hall)]
    rw [hcounter]
    exact h.count
  · exact .clean (if_neg hfull) ⟨i, h.count, rfl, rfl, hall ▸ hfull⟩

theorem stepsTo_scheduleAffine {a : Ptr} {affinity : Affinity} {was : Bool}
    (h : Clean n₀ call (.scheduleAffine p a affinity (.start sc kk was)) n) :
    StepsTo n₀ call t (.scheduleAffine p a affinity (.start sc kk was)) n := by
  obtain ⟨i, h, rfl, rfl, hne⟩ := h
  have hcounter : n.affineTaskCounter = uintSucc^[kk] n₀.affineTaskCounter := by
    rw [h.counter, Node.counterAt, if_neg hne]
  refine .clean (u := .affineTaskCounter) rfl ⟨i, { h with counter := ?_ }, rfl, rfl, hne, ?_⟩
  · rw [Node.counterAt, if_neg hne, Function.iterate_succ_apply', ← hcounter]
    rfl
  · rw [hcounter]
    exact fun jj hs => hs

theorem stepsTo_scheduleSearch {ii : Nat} {a : Ptr} {affinity : Affinity} {was : Bool}
    (h : Clean n₀ call (.scheduleSearch p ii a affinity (.start sc kk was)) n) :
    StepsTo n₀ call t (.scheduleSearch p ii a affinity (.start sc kk was)) n := by
  obtain ⟨i, h, rfl, rfl, hne, hsearch⟩ := h
  have hcores : n.attributes.numCores = n₀.attributes.numCores := by rw [h.attributes]
  by_cases hhit : ii < n.attributes.numCores ∧
      (n₀.startAffinity sc (n₀.actionAt sc i)).getLsbD ii = true
  · exact .clean (u := .read) (if_pos hhit)
      ⟨i, h, rfl, .affine hne (hsearch ii (.found (hcores ▸ hhit)))⟩
  · refine .clean (u := .read) (if_neg hhit) ⟨i, h, rfl, rfl, hne, fun jj hs => ?_⟩
    refine hsearch jj (.next (hcores ▸ hhit) ?_)
    rw [Node.workerCount, hcores] at hs
    exact hs

theorem stepsTo_schedulePush {ii : Nat} {isPrivate : Bool} {a : Ptr} {was : Bool}
    (h : Clean n₀ call (.schedulePush p ii isPrivate a (.start sc kk was)) n) :
    StepsTo n₀ call t (.schedulePush p ii isPrivate a (.start sc kk was)) n := by
  obtain ⟨i, hs, rfl, htarget⟩ := h
  have hprio : (n.task p).attributes.priority = sc.attributes.priority := by
    rw [hs.taskAttributes]
  by_cases hwait : (n.workerQueue ⟨ii, isPrivate, sc.attributes.priority⟩).lock = true ∨
      (⟨ii, isPrivate, sc.attributes.priority⟩ : QueueRef) ∉ n.processOrder
  · refine .clean (u := .read)
      (g := .schedulePush p ii isPrivate (n₀.actionAt sc i) (.start sc kk was)) ?_
      ⟨i, hs, rfl, htarget⟩
    simp only [exec, hprio, hwait, ↓reduceIte]
  · by_cases hpush :
        ((n.workerQueue ⟨ii, isPrivate, sc.attributes.priority⟩).push p).2 = true
    · have hroom := hpush
      rw [TaskQueue.push_snd, decide_eq_true_eq, hs.workerQueue] at hroom
      refine .spoiled (u := .push ⟨ii, isPrivate, sc.attributes.priority⟩ p)
        (g := .startInstances sc p (kk + 1) (was && true)) ?_ rfl
        (Or.inr (Or.inr ⟨⟨ii, isPrivate, sc.attributes.priority⟩, ?_⟩))
        (not_failsCleanly hs.takes fun hc => ?_)
      · simp only [exec, hprio, hwait, hpush, ↓reduceIte]
        rfl
      · simp only [Node.access, Node.setWorkerQueue, Function.update_self]
        rw [TaskQueue.tasks_push_of_true hpush, List.length_append, hs.workerQueue]
        exact Nat.lt_succ_self _
      · have hfull := hc.full i hs.least hs.valid hs.range kk hs.lt _ htarget
        exact absurd hroom (Nat.not_lt.mpr hfull)
    · refine .clean (u := .read) (g := .scheduleUndo p (n₀.actionAt sc i) (.start sc kk was)) ?_
        ⟨i, hs, rfl, fun r hr => ?_⟩
      · simp only [exec, hprio, hwait, hpush, Bool.false_eq_true, ↓reduceIte]
      · cases hr.unique htarget
        rw [TaskQueue.push_snd, decide_eq_true_eq, hs.workerQueue] at hpush
        exact Nat.not_lt.mp hpush

theorem stepsTo_scheduleUndo {a : Ptr} {was : Bool}
    (h : Clean n₀ call (.scheduleUndo p a (.start sc kk was)) n) :
    StepsTo n₀ call t (.scheduleUndo p a (.start sc kk was)) n := by
  obtain ⟨i, hs, rfl, hfull⟩ := h
  have hpool : (n.access (.actionTasks (n₀.actionAt sc i) (-1))).actionPool = n₀.actionPool := by
    simp only [Node.access, Node.addActionTasks, Node.modifyAction_actionPool, hs.actionPool,
      Node.counted, Pool.modify, Function.update_self, Function.update_idem,
      Int.add_neg_cancel_right, Function.update_eq_self]
  refine .clean (u := .actionTasks (n₀.actionAt sc i) (-1))
    (g := .startInstances sc p (kk + 1) (was && false)) rfl
    ⟨i, { hs.toPushing with actionPool := hpool, full := ?_ }, ?_⟩
  · intro k hk
    rcases Nat.lt_succ_iff_lt_or_eq.mp hk with hk | rfl
    · exact hs.full k hk
    · exact hfull
  · rw [Bool.and_false]
    exact fun hc => absurd hc Bool.false_ne_true

theorem stepsTo_startFailed (h : TraceFree n₀ call n) : StepsTo n₀ call t (.startFailed p) n := by
  obtain ⟨⟨h1, h2, h3, h4⟩, hs⟩ := h
  exact .clean (u := .taskState p .error) rfl ⟨⟨h1, h2, h3, h4⟩, hs⟩

theorem stepsTo_taskDelete (h : TraceFree n₀ call n) {status : Status} :
    StepsTo n₀ call t (.taskDelete p (.start status)) n := by
  obtain ⟨⟨h1, h2, h3, h4⟩, hs⟩ := h
  exact .clean (u := .taskFinalize p) rfl ⟨⟨h1, h2, h3, h4⟩, hs⟩

theorem stepsTo_taskDeallocate (h : TraceFree n₀ call n) {status : Status} :
    StepsTo n₀ call t (.taskDeallocate p (.start status)) n := by
  obtain ⟨⟨h1, h2, h3, h4⟩, hs⟩ := h
  exact .clean (u := .taskDeallocate p) rfl ⟨⟨h1, h2, h3, h4⟩, fun _ => hs⟩

/-- A step of a start call. -/
theorem stepsTo_of_clean {f : Frame} (h : Clean n₀ call f n)
    (hf : ∀ status r, f ≠ .ret status r) : StepsTo n₀ call t f n := by
  unfold Clean at h
  split at h
  · exact stepsTo_enqueue h
  · exact stepsTo_enqueueEnabled h
  · exact stepsTo_startAllocate h
  · exact stepsTo_startInit h
  · exact stepsTo_startGroup h
  · exact stepsTo_startGroupCount h
  · exact stepsTo_startQueue h
  · exact stepsTo_startQueueCount h
  · exact stepsTo_startChoose h
  · exact stepsTo_startChooseLoad h
  · exact stepsTo_startAction h
  · exact stepsTo_startSchedule h
  · exact stepsTo_startInstances h
  · exact stepsTo_schedule h
  · exact stepsTo_scheduleAffinity h
  · exact stepsTo_scheduleCount h
  · exact stepsTo_scheduleAffine h
  · exact stepsTo_scheduleSearch h
  · exact stepsTo_schedulePush h
  · exact stepsTo_scheduleUndo h
  · exact stepsTo_startFailed h
  · exact stepsTo_taskDelete h
  · exact stepsTo_taskDeallocate h
  · exact absurd rfl (hf _ _)
  · exact h.elim

/-- What one step keeps. -/
theorem track_step {f f' : Frame} (h : Track n₀ call f n) (hf : (exec t .go f n).2 = [f']) :
    Track n₀ call f' (n.access (exec t .go f n).1) := by
  rcases h with ⟨hin, hadded, hno⟩ | h
  · obtain ⟨hgrows, hin'⟩ := exec_inStart hin hf
    exact Or.inl ⟨hin', hadded.grows (n.grows_access hgrows), hno⟩
  · by_cases hret : ∃ status r, f = .ret status r
    · obtain ⟨status, r, rfl⟩ := hret
      cases hf
    · obtain ⟨u, g, hx, hg⟩ := stepsTo_of_clean (t := t) h fun status r he => hret ⟨status, r, he⟩
      rw [hx] at hf ⊢
      cases hf
      exact hg

end Steps

/-- The call of a thread that meets no other one, for a number of steps. -/
def drive (t : Nat) : Nat → Frame → Node → Option (Node × Status)
  | 0, _, _ => none
  | k + 1, f, n =>
    match f with
    | .ret status _ => some (n, status)
    | _ =>
      match (exec t .go f n).2 with
      | [f'] => drive t k f' (n.access (exec t .go f n).1)
      | _ => none

theorem returns_of_drive {t k : Nat} {f : Frame} {n n' : Node} {status : Status}
    (h : drive t k f n = some (n', status)) : Returns t f n n' status := by
  induction k generalizing f n with
  | zero => cases h
  | succ k ih =>
    rw [drive.eq_def] at h
    simp only at h
    split at h
    · cases h
      exact .ret _ _ _
    · split at h
      · next hf => exact .step hf (ih h)
      · cases h

theorem clean_entry {n : Node} {call : Call} (h : call.starts = true) :
    Clean n call (n.entry call) n := by
  cases call with
  | taskStart job attributes group => exact ⟨rfl, rfl⟩
  | taskEnqueue q attributes group => exact ⟨rfl, rfl⟩
  | _ => cases h

theorem Node.takenSlot_eq_some {n : Node} {call : Call} {p : Ptr} :
    n.takenSlot call = some p ↔ ∃ sc, n.Takes call sc p := by
  unfold takenSlot
  rw [Option.bind_eq_some_iff]
  constructor
  · rintro ⟨sc, hsc, h⟩
    split at h
    · next hjob => exact ⟨sc, hsc, hjob, h⟩
    · cases h
  · rintro ⟨sc, hsc, hjob, hslot⟩
    exact ⟨sc, hsc, by rw [if_pos hjob, hslot]⟩

/-- A call that fails leaves no trace if and only if it takes no slot, or its task is in no group
and in no queue and each of its instances finds its worker queue full. -/
theorem start_restored_iff (t : Nat) {n n' : Node} {call : Call} {status : Status}
    (hcall : call.starts = true) (h : Returns t (n.entry call) n n' status)
    (hs : status ≠ .success) : n.Restored n' (n.takenSlot call) ↔ n.FailsCleanly call := by
  obtain ⟨r, htrack⟩ :=
    h.keeps (P := Track n call) (fun _ _ _ => track_step) (Or.inr (clean_entry hcall))
  rcases htrack with ⟨hin, hadded, hno⟩ | hclean
  · exact ⟨fun hr => absurd hr (hadded.not_restored _), fun hc => absurd hc hno⟩
  · obtain ⟨⟨hqueues, hgroups, hq, hactions⟩, hsettled⟩ := hclean
    constructor
    · intro hr sc p ht
      refine ⟨hsettled hs sc p ht, ?_⟩
      have hfree := hr.unreferenced p (Node.takenSlot_eq_some.mpr ⟨sc, ht⟩)
      rwa [hqueues] at hfree
    · intro hc
      refine ⟨fun g => ?_, fun q => ?_, fun a => ?_, fun r => ?_, fun p hp => ?_⟩
      · rw [Node.group, Node.group, hgroups]
      · rw [Node.queue, Node.queue, hq]
      · rw [Node.action, Node.action, hactions]
      · rw [hqueues]
      · obtain ⟨sc, ht⟩ := Node.takenSlot_eq_some.mp hp
        rw [hqueues]
        exact (hc sc p ht).2

/-- A job without an action. -/
theorem start_restored_without_group :
    ∃ n', Returns 1 ((Node.init (smallNode 1) .workStealVhpf).entry
        (.taskStart ⟨0, 1⟩ none Handle.invalid)) (Node.init (smallNode 1) .workStealVhpf) n'
        .errActionInvalid ∧
      (Node.init (smallNode 1) .workStealVhpf).Restored n' (some ⟨0, 1⟩) := by
  have hrun : (drive 1 20 ((Node.init (smallNode 1) .workStealVhpf).entry
      (.taskStart ⟨0, 1⟩ none Handle.invalid)) (Node.init (smallNode 1) .workStealVhpf)).map
      Prod.snd = some .errActionInvalid := by decide +kernel
  obtain ⟨⟨n', status⟩, hdrive, rfl⟩ := Option.map_eq_some_iff.mp hrun
  have hreturns := returns_of_drive hdrive
  refine ⟨n', hreturns, (start_restored_iff 1 rfl hreturns (by decide)).mpr ?_⟩
  intro sc p ht
  have hcall : StartCall.mk ⟨0, 1⟩ (TaskAttributes.init 1) Handle.invalid Handle.invalid = sc :=
    Option.some.inj ht.startCall
  subst hcall
  refine ⟨⟨by decide +kernel, by decide +kernel, fun i _ hvalid => ?_⟩, fun r x hx => ?_⟩
  · exact absurd hvalid Bool.false_ne_true
  · exact absurd hx List.not_mem_nil

/-- A group is created. -/
def createOneGroup : List (Nat × Choice) := calls 1 .groupCreate 6

/-- The task that could not be started remains counted for its group. -/
theorem start_leaves_group_counted :
    ∃ n', Returns 1 ((run code (boot (smallNode 1) .workStealVhpf 1) createOneGroup).mem.entry
        (.taskStart ⟨0, 1⟩ none ⟨0, 1⟩))
        (run code (boot (smallNode 1) .workStealVhpf 1) createOneGroup).mem n'
        .errActionInvalid ∧
      ((run code (boot (smallNode 1) .workStealVhpf 1) createOneGroup).mem.group
        ⟨0, 1⟩).numTasks = 0 ∧
      (n'.group ⟨0, 1⟩).numTasks = 1 := by
  have hrun : (drive 1 20
      ((run code (boot (smallNode 1) .workStealVhpf 1) createOneGroup).mem.entry
        (.taskStart ⟨0, 1⟩ none ⟨0, 1⟩))
      (run code (boot (smallNode 1) .workStealVhpf 1) createOneGroup).mem).map
      (fun r => (r.2, (r.1.group ⟨0, 1⟩).numTasks)) = some (.errActionInvalid, 1) := by
    decide +kernel
  obtain ⟨⟨n', status⟩, hdrive, hr⟩ := Option.map_eq_some_iff.mp hrun
  obtain ⟨rfl, hcount⟩ := Prod.mk.inj hr
  exact ⟨n', returns_of_drive hdrive, by decide +kernel, hcount⟩

end Embb.Mtapi
