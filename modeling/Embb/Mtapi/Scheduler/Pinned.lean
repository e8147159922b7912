import Embb.Mtapi.Scheduler.Dispatch
import Embb.Mtapi.Scheduler.Queues

/-!
# Ordered queues are pinned to a worker

All tasks of an ordered queue go to one worker queue of one worker, from which no other
worker takes them. The worker follows from the affinity with which the queue was created,
and the priority from the attributes of the queue.
-/

namespace Embb.Mtapi

open Threads

namespace Node

/-- The queue exists and keeps its tasks in order. -/
def KeepsOrder (n : Node) (q : Ptr) : Prop :=
  n.QueueExists q ∧ (n.queue q).attributes.ordered = true

instance (n : Node) (q : Ptr) : Decidable (n.KeepsOrder q) := inferInstanceAs (Decidable (_ ∧ _))

/-- The worker queue to which the tasks of an ordered queue go. -/
def pinned (n : Node) (q : Ptr) : QueueRef :=
  ⟨q.id % n.workerCount, decide (n.workerCount ≠ 1), (n.queue q).attributes.priority⟩

/-- The affinity with which an ordered queue is created. -/
def orderedBit (n : Node) (q : Ptr) : Affinity := BitVec.ofNat 64 (2 ^ (q.id % n.workerCount))

theorem getLsbD_two_pow {k : Nat} (hk : k < 64) (i : Nat) :
    (BitVec.ofNat 64 (2 ^ k)).getLsbD i = decide (i = k) := by
  rw [BitVec.getLsbD_ofNat, Nat.testBit_two_pow]
  by_cases h : i = k
  · subst h
    simp only [hk, decide_true, Bool.and_self]
  · simp only [h, Ne.symm h, decide_false, Bool.and_false]

theorem getLsbD_bitsetSetN {count : Nat} (hc : count ≤ 64) {i : Nat} (hi : i < count) :
    (bitsetSetN count).getLsbD i = true := by
  unfold bitsetSetN
  split
  · simp only [BitVec.getLsbD_allOnes, decide_eq_true_eq]
    omega
  · rw [BitVec.getLsbD_ofNat, Nat.testBit_two_pow_sub_one]
    simp only [hi, decide_true, Bool.and_true, decide_eq_true_eq]
    omega

theorem orderedBit_lt (n : Node) (q : Ptr) (h : n.workerCount ≠ 0) :
    q.id % n.workerCount < n.workerCount ∧ q.id % n.workerCount < 64 := by
  have h1 := Nat.mod_lt q.id (Nat.pos_of_ne_zero h)
  have h2 := n.attributes.numCores_le
  exact ⟨h1, lt_of_lt_of_le h1 h2⟩

theorem orderedBit_ne_zero (n : Node) (q : Ptr) (h : n.workerCount ≠ 0) :
    n.orderedBit q ≠ 0 := by
  intro hz
  have hbit := getLsbD_two_pow (n.orderedBit_lt q h).2 (q.id % n.workerCount)
  rw [← orderedBit, hz] at hbit
  simp at hbit

theorem getLsbD_orderedBit (n : Node) (q : Ptr) (h : n.workerCount ≠ 0) {i : Nat}
    (hi : (n.orderedBit q).getLsbD i = true) : i = q.id % n.workerCount := by
  rw [orderedBit, getLsbD_two_pow (n.orderedBit_lt q h).2] at hi
  exact of_decide_eq_true hi

/-- The one bit is all bits only where there is one worker. -/
theorem orderedBit_eq_affinityAll (n : Node) (q : Ptr) (h : n.workerCount ≠ 0) :
    n.orderedBit q = n.affinityAll ↔ n.workerCount = 1 := by
  constructor
  · intro he
    have hall : ∀ i, i < n.workerCount → i = q.id % n.workerCount := by
      intro i hi
      refine n.getLsbD_orderedBit q h ?_
      rw [he]
      exact getLsbD_bitsetSetN n.attributes.numCores_le hi
    have h0 := hall 0 (Nat.pos_of_ne_zero h)
    have h1 := hall (n.workerCount - 1) (by omega)
    omega
  · intro he
    simp only [orderedBit, affinityAll, he, Nat.mod_one]
    decide

theorem workerCount_access (n : Node) (u : Access) : (n.access u).workerCount = n.workerCount := by
  simp only [workerCount, attributes_access]

theorem mem_tasks_access (n : Node) {u : Access} {r : QueueRef} {p : Ptr}
    (h : p ∈ ((n.access u).workerQueue r).tasks) :
    p ∈ (n.workerQueue r).tasks ∨ u = .push r p := by
  by_cases hu : u.keepsQueues = true
  · rw [n.workerQueue_access hu] at h
    exact Or.inl h
  · cases u with
    | push r' p' =>
      simp only [access, setWorkerQueue_workerQueue] at h
      by_cases hr : r = r'
      · subst hr
        rw [Function.update_self] at h
        cases hp : ((n.workerQueue r).push p').2 with
        | true =>
          rw [TaskQueue.tasks_push_of_true hp] at h
          rcases List.mem_append.mp h with h | h
          · exact Or.inl h
          · rw [List.mem_singleton.mp h]
            exact Or.inr rfl
        | false =>
          rw [TaskQueue.push_of_false hp] at h
          exact Or.inl h
      · rw [Function.update_of_ne hr] at h
        exact Or.inl h
    | pop r' =>
      simp only [access, setWorkerQueue_workerQueue] at h
      by_cases hr : r = r'
      · subst hr
        rw [Function.update_self] at h
        cases hp : (n.workerQueue r).pop.2 with
        | none =>
          rw [TaskQueue.pop_of_none hp] at h
          exact Or.inl h
        | some p' =>
          rw [TaskQueue.tasks_of_pop_some hp]
          exact Or.inl (List.mem_cons_of_mem _ h)
      · rw [Function.update_of_ne hr] at h
        exact Or.inl h
    | lock r' held =>
      simp only [access, setWorkerQueue_workerQueue] at h
      by_cases hr : r = r'
      · subst hr
        rw [Function.update_self, TaskQueue.tasks_setLock] at h
        exact Or.inl h
      · rw [Function.update_of_ne hr] at h
        exact Or.inl h
    | _ => exact absurd rfl hu

end Node

theorem mem_queued {n : Node} (hn : n.Confined) {r : QueueRef} {p : Ptr}
    (h : p ∈ (n.workerQueue r).tasks) : p ∈ n.queued := by
  have hr : r ∈ n.processOrder := by
    by_contra hr
    rw [hn r hr] at h
    exact List.not_mem_nil h
  exact Multiset.mem_sum.mpr ⟨r, List.mem_toFinset.mpr hr, h⟩

/-- The start call of a scheduling frame. -/
def ScheduleCaller.calls : ScheduleCaller → List StartCall
  | .start call _ _ => [call]
  | .retained => []

/-- The arguments of the start call that a frame belongs to. -/
def Frame.calls : Frame → List StartCall
  | .startAllocate call | .startInit call _ | .startGroup call _ | .startGroupCount call _
  | .startQueue call _ | .startQueueCount call _ | .startChoose call _ _ _
  | .startChooseLoad call _ _ _ _ _ | .startAction call _ _ | .startSchedule call _
  | .startInstances call _ _ _ => [call]
  | .schedule _ _ caller | .scheduleAffinity _ _ _ caller | .scheduleCount _ _ _ _ caller
  | .scheduleAffine _ _ _ caller | .scheduleSearch _ _ _ _ caller
  | .schedulePush _ _ _ _ caller | .scheduleUndo _ _ caller => caller.calls
  | _ => []

theorem calls_entry {n : Node} {call : Call} {x : StartCall} (h : x ∈ (n.entry call).calls) :
    x.queue = Handle.invalid := by
  cases call with
  | taskStart job attributes group =>
    rw [List.mem_singleton.mp h]
  | _ => exact absurd h List.not_mem_nil

theorem calls_deleteResume (caller : DeleteCaller) : caller.resume.calls = [] := by
  cases caller <;> rfl

theorem calls_visitorResume (v : Visitor) (n : Node) (finite : Bool) :
    (v.resume n finite).calls = [] := by
  apply apply_visitorResume <;> intros <;> rfl

theorem calls_contextResume (ctx : Context) (done : Bool) :
    (ctx.resume done).flatMap Frame.calls = [] :=
  flatMap_contextResume (fun _ _ => rfl) (fun _ => rfl) ctx done

theorem calls_scheduleResume (caller : ScheduleCaller) (p : Ptr) (pushed : Bool) :
    (caller.resume p pushed).flatMap Frame.calls = caller.calls := by
  cases caller <;> rfl

theorem calls_executeTaskOrYield (n : Node) (t : Nat) {back : Frame} (h : back.calls = []) :
    (n.executeTaskOrYield t back).flatMap Frame.calls = [] := by
  rw [flatMap_executeTaskOrYield fun _ => rfl, h]

/-- A start call comes from an interface function, or was checked against its queue. -/
theorem exec_calls (t : Nat) (c : Choice) (f : Frame) (n : Node) {x : StartCall}
    (h : x ∈ (exec t c f n).2.flatMap Frame.calls) :
    x ∈ f.calls ∨ x.queue = Handle.invalid ∨
      ∃ attributes group, f = .enqueueEnabled x.queue attributes group ∧
        x.attributes.priority = (n.queue x.queue).attributes.priority := by
  revert h
  fun_cases exec t c f n
  all_goals first
    | exact fun h => Or.inl h
    | exact fun h => absurd h List.not_mem_nil
    | intro h
      rw [calls_contextResume] at h
      exact absurd h List.not_mem_nil
    | intro h
      rw [calls_executeTaskOrYield _ _ rfl] at h
      exact absurd h List.not_mem_nil
    | intro h
      rw [calls_scheduleResume] at h
      exact Or.inl h
    | intro h
      rw [List.flatMap_cons, calls_deleteResume] at h
      exact absurd h List.not_mem_nil
    | intro h
      rw [List.flatMap_cons, calls_visitorResume] at h
      exact absurd h List.not_mem_nil
    | intro h
      rw [List.flatMap_cons, List.flatMap_nil, List.append_nil] at h
      exact Or.inl h
    | intro h
      rw [List.flatMap_cons] at h
      rcases List.mem_append.mp h with h | h
      · exact Or.inr (Or.inl (calls_entry h))
      · exact absurd h List.not_mem_nil
    | intro h
      rw [List.mem_singleton.mp h]
      exact Or.inr (Or.inr ⟨_, _, rfl, rfl⟩)

theorem Frame.mem_calls_of_mem_starts {f : Frame} {call : StartCall} {p : Ptr}
    (h : (call, p) ∈ f.starts) : call ∈ f.calls := by
  unfold Frame.starts at h
  split at h
  all_goals first
    | exact absurd h List.not_mem_nil
    | rw [(Prod.mk.inj (List.mem_singleton.mp h)).1]
      exact List.mem_singleton_self _
    | rename_i caller
      cases caller with
      | start =>
        rw [(Prod.mk.inj (List.mem_singleton.mp h)).1]
        exact List.mem_singleton_self _
      | retained => exact absurd h List.not_mem_nil

/-- The task of a program point that has a worker queue in view. -/
def Frame.aims : Frame → List Ptr
  | .scheduleAffinity p _ _ _ | .scheduleCount p _ _ _ _ | .scheduleAffine p _ _ _
  | .scheduleSearch p _ _ _ _ | .schedulePush p _ _ _ _ => [p]
  | _ => []

/-- A task of an ordered queue is on its way to the worker queue of that queue. -/
def Frame.Aimed (n : Node) : Frame → Prop
  | .scheduleAffinity _ ii _ _ => n.workerCount ≠ 0 → ii < n.workerCount
  | .scheduleCount p ii _ affinity _ =>
    n.workerCount ≠ 0 → ii < n.workerCount ∧
      (n.KeepsOrder (n.task p).queue → affinity = n.orderedBit (n.task p).queue)
  | .scheduleAffine p _ affinity _ | .scheduleSearch p _ _ affinity _ =>
    n.workerCount ≠ 0 → n.KeepsOrder (n.task p).queue →
      affinity = n.orderedBit (n.task p).queue ∧ n.workerCount ≠ 1
  | .schedulePush p ii isPrivate _ _ =>
    n.workerCount ≠ 0 → n.KeepsOrder (n.task p).queue →
      ii = (n.task p).queue.id % n.workerCount ∧ isPrivate = decide (n.workerCount ≠ 1)
  | _ => True

theorem Frame.Aimed.of_aims {n : Node} {f : Frame} (h : f.aims = []) : f.Aimed n := by
  unfold Frame.Aimed
  split <;> trivial

/-- What a program point has in view stays right as long as its task stays in its queue. -/
theorem Frame.Aimed.congr {n n' : Node} {f : Frame} (h : f.Aimed n)
    (hw : n'.workerCount = n.workerCount)
    (hq : ∀ p ∈ f.aims, n'.KeepsOrder (n'.task p).queue →
      (n'.task p).queue = (n.task p).queue ∧ n.KeepsOrder (n.task p).queue) : f.Aimed n' := by
  have hbit : ∀ q, n'.orderedBit q = n.orderedBit q := fun q => by
    rw [Node.orderedBit, Node.orderedBit, hw]
  unfold Frame.Aimed at h ⊢
  split at h
  · rw [hw]
    exact h
  · intro hz
    rw [hw] at hz ⊢
    refine ⟨(h hz).1, fun ho => ?_⟩
    obtain ⟨hsame, hold⟩ := hq _ (List.mem_singleton_self _) ho
    rw [hsame, hbit]
    exact (h hz).2 hold
  · intro hz ho
    obtain ⟨hsame, hold⟩ := hq _ (List.mem_singleton_self _) ho
    rw [hw] at hz ⊢
    rw [hsame, hbit]
    exact h hz hold
  · intro hz ho
    obtain ⟨hsame, hold⟩ := hq _ (List.mem_singleton_self _) ho
    rw [hw] at hz ⊢
    rw [hsame, hbit]
    exact h hz hold
  · intro hz ho
    obtain ⟨hsame, hold⟩ := hq _ (List.mem_singleton_self _) ho
    rw [hw] at hz ⊢
    rw [hsame]
    exact h hz hold
  · trivial

theorem Frame.mem_refs_of_mem_aims {f : Frame} {p : Ptr} (h : p ∈ f.aims) : p ∈ f.refs := by
  unfold Frame.aims at h
  split at h
  all_goals first | exact h | exact absurd h List.not_mem_nil

theorem Frame.aims_of_refs {f : Frame} (h : f.refs = []) : f.aims = [] :=
  Frame.eq_nil_of_refs (fun _ hx => mem_refs_of_mem_aims hx) h

theorem aims_contextResume (ctx : Context) (done : Bool) :
    (ctx.resume done).flatMap Frame.aims = [] :=
  flatMap_contextResume (fun _ _ => rfl) (fun _ => rfl) ctx done

theorem aims_scheduleResume (caller : ScheduleCaller) (p : Ptr) (pushed : Bool) :
    (caller.resume p pushed).flatMap Frame.aims = [] :=
  flatMap_scheduleResume (fun _ _ _ _ => rfl) (fun _ => rfl) caller p pushed

theorem aims_executeTaskOrYield (n : Node) (t : Nat) {back : Frame} (h : back.refs = []) :
    (n.executeTaskOrYield t back).flatMap Frame.aims = [] := by
  rw [flatMap_executeTaskOrYield fun _ => rfl, Frame.aims_of_refs h]

/-- The affinity that is computed for a task of an ordered queue is that of the queue. -/
theorem Node.scheduleAffinity_of_keepsOrder {n : Node}
    (hc : ∀ q, n.KeepsOrder q → (n.queue q).orderedAffinity = n.orderedBit q)
    (hw : n.workerCount ≠ 0) {p : Ptr} (hq : n.KeepsOrder (n.task p).queue) (a : Ptr) :
    n.scheduleAffinity p a = n.orderedBit (n.task p).queue := by
  simp only [Node.scheduleAffinity, hq.1.1.valid, hq.2, and_self, ↓reduceIte, hc _ hq,
    if_neg (n.orderedBit_ne_zero _ hw)]

/-- Scheduling goes on for the same task, with the right worker queue in view. -/
theorem exec_aims (t : Nat) (c : Choice) (f : Frame) (n : Node) (ha : f.Aimed n)
    (hc : ∀ q, n.KeepsOrder q → (n.queue q).orderedAffinity = n.orderedBit q) :
    (exec t c f n).2.flatMap Frame.aims = [] ∨
      ∃ x p, (exec t c f n).2 = [x] ∧ x.aims = [p] ∧ p ∈ f.refs ∧ f.fresh = [] ∧ x.Aimed n := by
  revert ha
  fun_cases exec t c f n
  all_goals intro ha
  all_goals first
    | exact Or.inl rfl
    | exact Or.inl (aims_contextResume _ _)
    | exact Or.inl (aims_scheduleResume _ _ _)
    | exact Or.inl (aims_executeTaskOrYield _ _ rfl)
    | rw [List.flatMap_cons, Frame.aims_of_refs (refs_entry _ _)]
      exact Or.inl rfl
    | rw [List.flatMap_cons, Frame.aims_of_refs (refs_deleteResume _)]
      exact Or.inl rfl
    | rw [List.flatMap_cons, Frame.aims_of_refs (refs_visitorResume _ _ _)]
      exact Or.inl rfl
    | refine Or.inr ⟨_, _, rfl, rfl, List.mem_singleton_self _, rfl, ?_⟩
  · exact fun hw => Nat.mod_lt _ (Nat.pos_of_ne_zero hw)
  · exact fun hw => ⟨ha hw, fun hq => n.scheduleAffinity_of_keepsOrder hc hw hq _⟩
  · -- all workers may take the task, so there is only one
    intro hw hq
    obtain ⟨hii, haff⟩ := ha hw
    have hone := (n.orderedBit_eq_affinityAll _ hw).mp (haff hq).symm
    rw [hone] at hii ⊢
    exact ⟨by omega, rfl⟩
  · rename_i haff
    intro hw hq
    obtain ⟨-, hbit⟩ := ha hw
    refine ⟨hbit hq, fun hone => haff ?_⟩
    rw [hbit hq]
    exact (n.orderedBit_eq_affinityAll _ hw).mpr hone
  · exact ha
  · rename_i hi
    intro hw hq
    obtain ⟨hbit, hone⟩ := ha hw hq
    rw [hbit] at hi
    exact ⟨n.getLsbD_orderedBit _ hw hi.2, (decide_eq_true hone).symm⟩
  · exact ha
  · exact ha

end Embb.Mtapi
