import Mathlib.Algebra.BigOperators.Group.Finset.Basic
import Mathlib.Data.Multiset.Bind
import Embb.Mtapi.Scheduler.Issue

/-!
# References to task slots

A task is referred to by the worker queues that hold it, by the worker that took
it from a queue, and by the call that starts it. The collection of all these
references changes only where a task is started, moved into or out of a worker
queue, or dropped by its worker.
-/

namespace Embb.Mtapi

open Threads

/-- The task that a worker step or a start call works for. -/
def Frame.refs : Frame → List Ptr
  | .actionFunction ctx _ | .executeRunning ctx | .executeAction ctx _ | .executeCheck ctx _
  | .executeTodo ctx _ | .executeCompleted ctx _ | .executeNumTasks ctx _ _
  | .executeDeleted ctx _ | .executeError ctx _ | .executeGroup ctx
  | .executeGroupPush ctx _ => [ctx.task]
  | .workerQueue p | .workerSwitch p _ | .workerContext p _ | .workerFinished p _
  | .workerCancelled p _ | .workerCancelledTodo p _ | .workerCallback p
  | .helperContext p => [p]
  | .schedule p _ _ | .scheduleAffinity p _ _ _ | .scheduleCount p _ _ _ _
  | .scheduleAffine p _ _ _ | .scheduleSearch p _ _ _ _ | .schedulePush p _ _ _ _
  | .scheduleUndo p _ _ => [p]
  | .startInit _ p | .startGroup _ p | .startGroupCount _ p | .startQueue _ p
  | .startQueueCount _ p | .startChoose _ p _ _ | .startChooseLoad _ p _ _ _ _
  | .startAction _ p _ | .startSchedule _ p | .startInstances _ p _ _ | .startFailed p => [p]
  | _ => []

/-- A measure that speaks only of the tasks that a frame works for. -/
theorem Frame.eq_nil_of_refs {A : Type} {f : Frame} {l : List A} {task : A → Ptr}
    (hl : ∀ x ∈ l, task x ∈ f.refs) (h : f.refs = []) : l = [] := by
  apply List.eq_nil_iff_forall_not_mem.mpr
  intro x hx
  have hm := hl x hx
  rw [h] at hm
  exact List.not_mem_nil hm

@[simp] theorem refs_entry (n : Node) (call : Call) : (n.entry call).refs = [] := by
  cases call <;> rfl

@[simp] theorem refs_deleteResume (caller : DeleteCaller) : caller.resume.refs = [] := by
  cases caller <;> rfl

@[simp] theorem refs_visitorResume (v : Visitor) (n : Node) (finite : Bool) :
    (v.resume n finite).refs = [] := by
  apply apply_visitorResume <;> intros <;> rfl

@[simp] theorem refs_scheduleResume (caller : ScheduleCaller) (p : Ptr) (pushed : Bool) :
    (caller.resume p pushed).flatMap Frame.refs = [p] := by
  cases caller <;> rfl

@[simp] theorem refs_executeTaskOrYield (n : Node) (t : Nat) (back : Frame) :
    (n.executeTaskOrYield t back).flatMap Frame.refs = back.refs :=
  flatMap_executeTaskOrYield (fun _ => rfl) n t back

/-- A worker that returns from `embb_mtapi_task_execute` works on for its task or
for none. -/
theorem refs_contextResume (ctx : Context) (done : Bool) :
    (ctx.resume done).flatMap Frame.refs = [ctx.task] ∨
      (ctx.resume done).flatMap Frame.refs = [] := by
  rcases ctx with ⟨_ | _, p, i, m⟩
  · rename_i lq
    cases lq <;> cases done <;> exact Or.inl rfl
  · exact Or.inr rfl

namespace Node

/-- The entries of all worker queues. -/
def queued (n : Node) : Multiset Ptr :=
  ∑ r ∈ n.processOrder.toFinset, ((n.workerQueue r).tasks : Multiset Ptr)

/-- No task lies outside of the queues of the workers. -/
def Confined (n : Node) : Prop := ∀ r, r ∉ n.processOrder → (n.workerQueue r).tasks = []

@[simp] theorem processOrder_access (n : Node) (u : Access) :
    (n.access u).processOrder = n.processOrder := by
  simp only [processOrder, workerCount, attributes_access]

/-- Replacing the contents of one worker queue. -/
theorem queued_setWorkerQueue (n : Node) {r : QueueRef} (hr : r ∈ n.processOrder)
    (q : TaskQueue) :
    ∃ others : Multiset Ptr, n.queued = (n.workerQueue r).tasks + others ∧
      (n.setWorkerQueue r q).queued = q.tasks + others := by
  have hr' : r ∈ n.processOrder.toFinset := List.mem_toFinset.mpr hr
  refine ⟨∑ x ∈ n.processOrder.toFinset.erase r, ((n.workerQueue x).tasks : Multiset Ptr), ?_, ?_⟩
  · exact (Finset.add_sum_erase _ _ hr').symm
  · have ho : (n.setWorkerQueue r q).processOrder = n.processOrder := rfl
    unfold queued
    rw [ho, ← Finset.add_sum_erase _ _ hr', setWorkerQueue_workerQueue, Function.update_self]
    congr 1
    refine Finset.sum_congr rfl fun x hx => ?_
    rw [setWorkerQueue_workerQueue, Function.update_of_ne (Finset.ne_of_mem_erase hx)]

/-- A successful push adds one reference. -/
theorem queued_push {n : Node} {r : QueueRef} {p : Ptr} (hr : r ∈ n.processOrder)
    (h : ((n.workerQueue r).push p).2 = true) :
    (n.access (.push r p)).queued = p ::ₘ n.queued := by
  obtain ⟨others, ho, hn⟩ := n.queued_setWorkerQueue hr ((n.workerQueue r).push p).1
  simp only [access]
  rw [hn, ho, TaskQueue.tasks_push_of_true h, ← Multiset.coe_add, add_right_comm,
    Multiset.coe_singleton, Multiset.add_comm, Multiset.singleton_add]

/-- A pop that returns a task removes one reference. -/
theorem queued_pop {n : Node} (hn : n.Confined) {r : QueueRef} {p : Ptr}
    (h : (n.workerQueue r).pop.2 = some p) :
    n.queued = p ::ₘ (n.access (.pop r)).queued := by
  have ht := TaskQueue.tasks_of_pop_some h
  have hr : r ∈ n.processOrder := by
    by_contra hr
    rw [hn r hr] at ht
    cases ht
  obtain ⟨others, ho, hq⟩ := n.queued_setWorkerQueue hr (n.workerQueue r).pop.1
  simp only [access]
  rw [hq, ho, ht, ← Multiset.cons_coe, Multiset.cons_add]

theorem queued_lock (n : Node) (r : QueueRef) (held : Bool) :
    (n.access (.lock r held)).queued = n.queued := by
  refine Finset.sum_congr rfl fun x _ => ?_
  by_cases hx : x = r
  · subst hx
    simp only [access, setWorkerQueue_workerQueue, Function.update_self, TaskQueue.tasks_setLock]
  · simp only [access, setWorkerQueue_workerQueue, Function.update_of_ne hx]

end Node

/-- The accesses that leave the worker queues alone. -/
def Access.keepsQueues : Access → Bool
  | .push _ _ | .pop _ | .lock _ _ => false
  | _ => true

namespace Node

theorem workerQueue_access (n : Node) {u : Access} (h : u.keepsQueues = true) :
    (n.access u).workerQueue = n.workerQueue := by
  cases u with
  | push | pop | lock => cases h
  | taskGroup p g => cases g <;> rfl
  | taskQueue p q => cases q <;> rfl
  | actionCreate jobId attributes =>
    simp only [access, createAction]
    split <;> rfl
  | queueCreate queueId job attributes =>
    simp only [access, createQueue]
    split <;> rfl
  | groupCreate =>
    simp only [access, createGroup]
    split <;> rfl
  | _ => rfl

theorem queued_access (n : Node) {u : Access} (h : u.keepsQueues = true) :
    (n.access u).queued = n.queued := by
  unfold queued
  rw [processOrder_access, workerQueue_access n h]

/-- Pushes stay inside the queues of the workers. -/
theorem confined_access {n : Node} (hn : n.Confined) {u : Access}
    (hu : ∀ r p, u = .push r p → r ∈ n.processOrder) : (n.access u).Confined := by
  intro r hr
  rw [processOrder_access] at hr
  have h0 := hn r hr
  by_cases h : u.keepsQueues = true
  · rw [workerQueue_access n h, h0]
  · cases u with
    | push r' p =>
      have hne : r ≠ r' := fun he => hr (he ▸ hu r' p rfl)
      simp only [access, setWorkerQueue_workerQueue, Function.update_of_ne hne, h0]
    | pop r' =>
      by_cases he : r = r'
      · subst he
        simp only [access, setWorkerQueue_workerQueue, Function.update_self]
        cases hp : (n.workerQueue r).pop.2 with
        | none => rw [TaskQueue.pop_of_none hp, h0]
        | some p =>
          rw [TaskQueue.tasks_of_pop_some hp] at h0
          cases h0
      · simp only [access, setWorkerQueue_workerQueue, Function.update_of_ne he, h0]
    | lock r' held =>
      by_cases he : r = r'
      · subst he
        simp only [access, setWorkerQueue_workerQueue, Function.update_self,
          TaskQueue.tasks_setLock, h0]
      · simp only [access, setWorkerQueue_workerQueue, Function.update_of_ne he, h0]
    | _ => exact absurd rfl h

end Node

end Embb.Mtapi
