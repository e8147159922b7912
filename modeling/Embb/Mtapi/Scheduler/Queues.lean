import Embb.Mtapi.Scheduler.Placement

/-!
# The queues of a node

What an access does to the queue pool. A queue exists from its creation until its
deletion begins; while it exists, only its counter and its enabled flag change.
-/

namespace Embb.Mtapi

open Threads

/-- The change of the queue pool that an access makes. -/
def Access.onQueue (n : Node) : Access → Pool.Step Queue
  | .taskQueue _ (some q) => .modify q.id fun x => { x with numTasks := x.numTasks + 1 }
  | .queueTasks q d => .modify q.id fun x => { x with numTasks := x.numTasks + d }
  | .queueAllocate => .allocate id
  | .queueCreate queueId job attributes =>
    .allocate fun x => x.create n.workerCount queueId job attributes
  | .queueEnabled q enabled => .modify q.id ({ · with enabled := enabled })
  | .queueFinalize q => .modify q.id Queue.finalize
  | .queueDeallocate q => .deallocate q
  | _ => .keep

theorem Access.keepsHandles_onQueue (n : Node) (u : Access) : (u.onQueue n).KeepsHandles := by
  cases u with
  | taskQueue p q =>
    cases q with
    | none => trivial
    | some q => exact fun _ => rfl
  | queueTasks | queueAllocate | queueCreate | queueEnabled | queueFinalize => exact fun _ => rfl
  | _ => trivial

namespace Node

theorem queuePool_access (n : Node) (u : Access) :
    (n.access u).queuePool = (u.onQueue n).apply n.queuePool := by
  cases u with
  | taskGroup p g => cases g <;> rfl
  | taskQueue p q => cases q <;> rfl
  | actionCreate jobId attributes =>
    simp only [access, createAction]
    split <;> rfl
  | queueAllocate =>
    simp only [access, Access.onQueue, Pool.Step.apply]
    split
    · rename_i x hx
      simp only [setQueuePool_queuePool, Pool.modify, id, Function.update_eq_self]
    · rfl
  | queueCreate queueId job attributes =>
    simp only [access, createQueue, Access.onQueue, Pool.Step.apply]
    cases n.queuePool.allocate.2 <;> rfl
  | groupCreate =>
    simp only [access, createGroup]
    split <;> rfl
  | _ => rfl

/-- The queue was created, and its deletion has not begun. -/
def QueueExists (n : Node) (q : Ptr) : Prop :=
  n.queuePool.Live q ∧ (n.queue q).jobHandle.id ≠ 0

instance (n : Node) (q : Ptr) : Decidable (n.QueueExists q) := inferInstanceAs (Decidable (_ ∧ _))

/-- The free slots hold no job, and the handles in the slots of tasks were issued. -/
structure QueuesOwned (n : Node) : Prop where
  queueSound : n.queuePool.Sound
  queueFree : ∀ id, (n.queuePool.storage id).handle.id = idPoolInvalidId →
    (n.queuePool.storage id).jobHandle.id = 0
  queueIssued : ∀ id, n.queuePool.Issued (n.taskPool.storage id).queue

/-- What an access adds to the counter of a queue. -/
def queueDelta (u : Access) (q : Ptr) : Int :=
  match u with
  | .taskQueue _ (some r) => if r.id = q.id then 1 else 0
  | .queueTasks r d => if r.id = q.id then d else 0
  | _ => 0

theorem writes_onQueue (n : Node) (u : Access) (q : Ptr) (x : Queue)
    (h : ((u.onQueue n).writes q.id x).jobHandle.id ≠ 0) :
    x.jobHandle.id ≠ 0 ∧ ((u.onQueue n).writes q.id x).numTasks = x.numTasks + queueDelta u q ∧
      ((u.onQueue n).writes q.id x).attributes = x.attributes ∧
      ((u.onQueue n).writes q.id x).orderedAffinity = x.orderedAffinity := by
  cases u with
  | taskQueue p r =>
    cases r with
    | none => exact ⟨h, (add_zero _).symm, rfl, rfl⟩
    | some r =>
      simp only [Access.onQueue, Pool.Step.writes, queueDelta] at h ⊢
      split <;> simp_all
  | queueTasks r d =>
    simp only [Access.onQueue, Pool.Step.writes, queueDelta] at h ⊢
    split <;> simp_all
  | queueEnabled r enabled =>
    simp only [Access.onQueue, Pool.Step.writes, queueDelta] at h ⊢
    split <;> simp_all
  | queueFinalize r =>
    simp only [Access.onQueue, Pool.Step.writes, queueDelta] at h ⊢
    split at h
    · exact absurd rfl h
    · rename_i hid
      rw [if_neg hid]
      exact ⟨h, (add_zero _).symm, rfl, rfl⟩
  | _ => exact ⟨h, (add_zero _).symm, rfl, rfl⟩

/-- A queue that exists after an access existed before, with its configuration, and its
counter follows the access, or it is a new queue with nothing to count. -/
theorem queueExists_access {n : Node} (ho : n.QueuesOwned) {u : Access} {q : Ptr}
    (h : (n.access u).QueueExists q) :
    (n.QueueExists q ∧ ((n.access u).queue q).numTasks = (n.queue q).numTasks + queueDelta u q ∧
        ((n.access u).queue q).attributes = (n.queue q).attributes ∧
        ((n.access u).queue q).orderedAffinity = (n.queue q).orderedAffinity) ∨
      (n.queuePool.allocate.2 = some q ∧ ((n.access u).queue q).numTasks = 0 ∧
        (∃ queueId job attributes, u = .queueCreate queueId job attributes) ∧
        (((n.access u).queue q).attributes.ordered = true →
          ((n.access u).queue q).orderedAffinity =
            BitVec.ofNat 64 (2 ^ (q.id % n.workerCount)))) := by
  obtain ⟨hl, hj⟩ := h
  rw [queue, queuePool_access] at hj ⊢
  rw [queuePool_access] at hl
  rcases Pool.Step.live_cases ho.queueSound (u.keepsHandles_onQueue n) hl with
    ⟨hl, he⟩ | ⟨f, hs, hx, he⟩
  · rw [he] at hj ⊢
    obtain ⟨h1, h2⟩ := n.writes_onQueue u q _ hj
    exact Or.inl ⟨⟨hl, h1⟩, h2⟩
  · rw [he] at hj ⊢
    cases u with
    | queueCreate queueId job attributes =>
      cases hs
      exact Or.inr ⟨hx, rfl, ⟨queueId, job, attributes, rfl⟩, fun ho => if_pos ho⟩
    | queueAllocate =>
      -- a slot that is only allocated holds no job
      cases hs
      exact absurd (ho.queueFree q.id (Pool.allocate_some ho.queueSound hx).2.2.1) hj
    | taskQueue p r => cases r <;> cases hs
    | _ => cases hs

/-- The queue of a task slot is what it was, none, or what a start call assigns. -/
theorem taskQueueField_access (n : Node) (u : Access) (id : Nat) :
    ((n.access u).taskPool.storage id).queue = (n.taskPool.storage id).queue ∨
      ((n.access u).taskPool.storage id).queue.id = idPoolInvalidId ∨
      ∃ p, p.id = id ∧ u = .taskQueue p (some ((n.access u).taskPool.storage id).queue) := by
  by_cases hp : ∀ p ∈ u.places, p.id ≠ id
  · exact Or.inl (congrArg (fun x => x.2.2.2.1) (n.placement_access u hp))
  · simp only [not_forall, not_not] at hp
    obtain ⟨p, hp, rfl⟩ := hp
    cases u with
    | taskGroup q g =>
      refine Or.inl (n.taskField_access rfl Task.queue p.id fun p' f ho _ => ?_)
      cases g <;> cases ho <;> rfl
    | taskAction q a =>
      refine Or.inl (n.taskField_access rfl Task.queue p.id fun p' f ho _ => ?_)
      cases ho
      rfl
    | taskQueue q g =>
      cases List.mem_singleton.mp hp
      cases g with
      | none =>
        refine Or.inr (Or.inl ?_)
        simp only [access, startQueue, modifyTask_taskPool, Pool.storage_modify_self]
      | some g =>
        refine Or.inr (Or.inr ⟨p, rfl, ?_⟩)
        simp only [access, startQueue, queueTaskStarted, addQueueTasks, modifyQueue_taskPool,
          modifyTask_taskPool, Pool.storage_modify_self]
    | taskInit q call =>
      cases List.mem_singleton.mp hp
      refine Or.inr (Or.inl ?_)
      simp only [access, modifyTask_taskPool, Pool.storage_modify_self]
      rfl
    | taskFinalize q =>
      cases List.mem_singleton.mp hp
      refine Or.inr (Or.inl ?_)
      simp only [access, modifyTask_taskPool, Pool.storage_modify_self]
      rfl
    | taskDeallocate q =>
      cases List.mem_singleton.mp hp
      refine Or.inr (Or.inl ?_)
      simp only [access, setTaskPool_taskPool, Pool.deallocate, Pool.setIdPool_storage,
        Pool.storage_modify_self]
      rfl
    | _ => exact absurd hp List.not_mem_nil

/-- Issued handles stay issued as long as no tag wraps around. -/
theorem queueIssued_access {n : Node} (hs : n.queuePool.Sound) {u : Access}
    (hw : ∀ q, u = .queueDeallocate q → (n.queue q).handle.tag + 1 < uintRange) {x : Handle}
    (hx : n.queuePool.Issued x) : (n.access u).queuePool.Issued x := by
  rw [queuePool_access]
  refine Pool.Step.issued hs (u.keepsHandles_onQueue n) (fun q hq => hw q ?_) hx
  cases u with
  | queueDeallocate r =>
    cases hq
    rfl
  | taskQueue p r => cases r <;> cases hq
  | _ => cases hq

theorem queuesOwned_access {n : Node} (h : n.QueuesOwned) {u : Access}
    (hw : ∀ q, u = .queueDeallocate q → (n.queue q).handle.tag + 1 < uintRange)
    (hi : ∀ p q, u = .taskQueue p (some q) → n.queuePool.Issued q) : (n.access u).QueuesOwned := by
  have hissued : ∀ x, n.queuePool.Issued x → (n.access u).queuePool.Issued x := fun x =>
    queueIssued_access h.queueSound hw
  refine ⟨?_, ?_, fun id => ?_⟩
  · rw [queuePool_access]
    exact Pool.Step.sound h.queueSound (u.keepsHandles_onQueue n)
  · rw [queuePool_access]
    refine Pool.Step.free (P := fun x => x.jobHandle.id = 0) h.queueSound (u.keepsHandles_onQueue n)
      (fun _ _ => Iff.rfl) (fun _ => rfl) (fun id f hs x hx => ?_) h.queueFree
    cases u with
    | queueTasks | queueEnabled | queueFinalize =>
      cases hs
      first | exact hx | rfl
    | taskQueue p r =>
      cases r with
      | none => cases hs
      | some r =>
        cases hs
        exact hx
    | _ => cases hs
  · rcases n.taskQueueField_access u id with he | he | ⟨p, -, he⟩
    · rw [he]
      exact hissued _ (h.queueIssued id)
    · exact Or.inl he
    · exact hissued _ (hi p _ he)

end Node

end Embb.Mtapi
