import Mathlib.Logic.Function.Basic
import Mathlib.Data.BitVec

/-!
# Objects of an MTAPI node

Handles, status and state codes, attributes, and the records kept in the pools
of a node. Pointers to pool storage are written as the handle that the slot had
when the pointer was taken. The code dereferences a pointer through its slot
index only; the tag of a pointer is never compared, so it records which object
the holder of the pointer means.

Fields that no modelled function reads (argument and result buffers, names, the
unused attributes) are left out. Counters of type `embb_atomic_int` are integers;
unsigned counters and tags are naturals reduced modulo `2 ^ 32` where they change.
-/

namespace Embb.Mtapi

/-- The number of values of an `mtapi_uint_t`. -/
def uintRange : Nat := 2 ^ 32

/-- `fetch_and_add` with minus one on an unsigned counter. -/
def uintPred (x : Nat) : Nat := (x + (uintRange - 1)) % uintRange

/-- Increment of an unsigned counter or tag. -/
def uintSucc (x : Nat) : Nat := (x + 1) % uintRange

theorem uintPred_of_pos {x : Nat} (h : 0 < x) (hx : x < uintRange) : uintPred x = x - 1 := by
  unfold uintPred
  have he : x + (uintRange - 1) = (x - 1) + uintRange := by omega
  rw [he, Nat.add_mod_right, Nat.mod_eq_of_lt (by omega)]

theorem uintSucc_of_lt {x : Nat} (h : x + 1 < uintRange) : uintSucc x = x + 1 :=
  Nat.mod_eq_of_lt h

/-- `EMBB_MTAPI_IDPOOL_INVALID_ID`. -/
def idPoolInvalidId : Nat := 0

/-- The common layout of the job, action, task, queue and group handles. -/
structure Handle where
  tag : Nat
  id : Nat
  deriving DecidableEq, Repr

/-- A pointer to a pool slot, with the handle of the object it was taken for. -/
abbrev Ptr := Handle

/-- The handle that the interface functions return on failure. -/
def Handle.invalid : Handle := ⟨0, idPoolInvalidId⟩

/-- `mtapi_status_enum`. -/
inductive Status where
  | success
  | timeout
  | errParameter
  | errAttrReadonly
  | errAttrNum
  | errAttrSize
  | errNodeInitfailed
  | errNodeInitialized
  | errNodeInvalid
  | errDomainInvalid
  | errNodeNotinit
  | errActionInvalid
  | errActionExists
  | errActionLimit
  | errActionNumInvalid
  | errActionFailed
  | errActionCancelled
  | errActionDeleted
  | errActionDisabled
  | errContextInvalid
  | errContextOutofcontext
  | errTaskInvalid
  | errTaskLimit
  | errJobInvalid
  | errQueueInvalid
  | errQueueDeleted
  | errQueueDisabled
  | errQueueLimit
  | errGroupInvalid
  | errGroupLimit
  | groupCompleted
  | errUnknown
  | errBufferSize
  | errResultSize
  | errArgSize
  | errWaitPending
  | errFuncNotImplemented
  | errArgNotImplemented
  | errRuntimeRemotetasksNotsupported
  | errRuntimeLoadbalancingNotsupported
  | errCoreNum
  deriving DecidableEq, Repr

/-- `mtapi_task_state_enum`. -/
inductive TaskState where
  | intentionallyUnused
  | error
  | prenatal
  | created
  | scheduled
  | running
  | waiting
  | retained
  | deleted
  | cancelled
  | completed
  deriving DecidableEq, Repr

/-- `mtapi_affinity_t`, one bit for each core. -/
abbrev Affinity := BitVec 64

/-- `embb_bitset_set_n`: the lowest `count` bits. -/
def bitsetSetN (count : Nat) : Affinity :=
  if count = 64 then BitVec.allOnes 64 else BitVec.ofNat 64 (2 ^ count - 1)

/-- `mtapi_node_attributes_t`; the cores are counted from a core set of 64 bits. -/
structure NodeAttributes where
  numCores : Nat
  maxTasks : Nat
  maxActions : Nat
  maxGroups : Nat
  maxQueues : Nat
  queueLimit : Nat
  maxJobs : Nat
  maxActionsPerJob : Nat
  maxPriorities : Nat
  numCores_le : numCores ≤ 64
  deriving DecidableEq, Repr

/-- `mtapi_action_attributes_t`. -/
structure ActionAttributes where
  affinity : Affinity
  deriving DecidableEq, Repr

/-- `mtapi_task_attributes_t`; function and data pointers are numbers. -/
structure TaskAttributes where
  isDetached : Bool
  numInstances : Nat
  priority : Nat
  affinity : Affinity
  userData : Nat
  completeFunc : Option Nat
  numInstances_lt : numInstances < uintRange
  deriving DecidableEq, Repr

/-- `mtapi_queue_attributes_t`. -/
structure QueueAttributes where
  priority : Nat
  ordered : Bool
  retain : Bool
  deriving DecidableEq, Repr

/-- `embb_mtapi_job_struct`; `actions` holds `maxActions` entries. -/
structure Job where
  handle : Handle
  numActions : Nat
  maxActions : Nat
  actions : Nat → Handle

/-- `embb_mtapi_action_struct`. -/
structure Action where
  handle : Handle
  jobId : Nat
  attributes : ActionAttributes
  enabled : Bool
  isPluginAction : Bool
  numTasks : Int
  deriving DecidableEq, Repr

/-- `embb_mtapi_task_struct`. -/
structure Task where
  handle : Handle
  job : Handle
  attributes : TaskAttributes
  group : Handle
  queue : Handle
  action : Handle
  state : TaskState
  currentInstance : Nat
  instancesTodo : Nat
  errorCode : Status
  deriving DecidableEq, Repr

/-- `embb_mtapi_queue_struct`. -/
structure Queue where
  handle : Handle
  queueId : Nat
  enabled : Bool
  jobHandle : Handle
  attributes : QueueAttributes
  numTasks : Int
  orderedAffinity : Affinity
  deriving DecidableEq, Repr

/-- `embb_mtapi_task_initialize`; the remaining fields keep their values. -/
def Task.init (t : Task) : Task :=
  { t with
    action := { t.action with id := idPoolInvalidId }
    job := { t.job with id := idPoolInvalidId }
    state := .error
    group := { t.group with id := idPoolInvalidId }
    queue := { t.queue with id := idPoolInvalidId }
    errorCode := .success
    currentInstance := 0 }

/-- `embb_mtapi_task_finalize`. -/
def Task.finalize (t : Task) : Task := t.init

/-- `embb_mtapi_action_initialize`. -/
def Action.init (a : Action) : Action :=
  { a with jobId := 0, enabled := false, numTasks := 0 }

/-- `embb_mtapi_queue_initialize`; `mtapi_queueattr_init` sets the defaults. -/
def Queue.init (q : Queue) : Queue :=
  { q with
    attributes := { priority := 0, ordered := true, retain := false }
    queueId := 0
    enabled := false
    numTasks := 0
    jobHandle := ⟨0, 0⟩ }

/-- `embb_mtapi_queue_initialize_with_attributes_and_job`. -/
def Queue.initWithAttributesAndJob (q : Queue) (attributes : QueueAttributes)
    (job : Handle) : Queue :=
  { q with
    attributes := attributes
    queueId := 0
    enabled := true
    numTasks := 0
    jobHandle := job }

/-- `embb_mtapi_queue_finalize`. -/
def Queue.finalize (q : Queue) : Queue := Queue.init { q with jobHandle := ⟨0, 0⟩ }

end Embb.Mtapi
