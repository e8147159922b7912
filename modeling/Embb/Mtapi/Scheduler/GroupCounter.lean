import Embb.Mtapi.Scheduler.Tally

/-!
# The bookkeeping of a group

`num_tasks` of a group counts the tasks started into it that no waiter has reaped, and
its queue holds those of them that are over, each once, as long as every last instance
ends in `embb_mtapi_task_execute` and finds room in the queue. The guard names the
paths that do not: an instance dropped as cancelled, an instance that is lost, a full
queue, and a start call that fails after it has counted its task.
-/

namespace Embb.Mtapi

open Threads

/-- The change of the group pool that an access makes. -/
def Access.onGroup (n : Node) : Access → Pool.Step Group
  | .taskGroup _ (some g) => .modify g.id fun x => { x with numTasks := x.numTasks + 1 }
  | .groupTasks g d => .modify g.id fun x => { x with numTasks := x.numTasks + d }
  | .groupPush g p => .modify g.id fun x => { x with queue := (x.queue.push p).1 }
  | .groupPop g => .modify g.id fun x => { x with queue := x.queue.pop.1 }
  | .groupCreate => .allocate fun x => x.initWithNode n.attributes
  | .groupFinalize g => .modify g.id Group.finalize
  | .groupDeallocate g => .deallocate g
  | _ => .keep

theorem Access.keepsHandles_onGroup (n : Node) (u : Access) : (u.onGroup n).KeepsHandles := by
  cases u with
  | taskGroup p g =>
    cases g with
    | none => trivial
    | some g => exact fun _ => rfl
  | groupTasks | groupPush | groupPop | groupCreate | groupFinalize => exact fun _ => rfl
  | _ => trivial

namespace Node

theorem groupPool_access (n : Node) (u : Access) :
    (n.access u).groupPool = (u.onGroup n).apply n.groupPool := by
  cases u with
  | taskGroup p g => cases g <;> rfl
  | taskQueue p q => cases q <;> rfl
  | actionCreate jobId attributes =>
    simp only [access, createAction]
    split <;> rfl
  | queueCreate queueId job attributes =>
    simp only [access, createQueue]
    split <;> rfl
  | groupCreate =>
    simp only [access, createGroup, Access.onGroup, Pool.Step.apply]
    cases n.groupPool.allocate.2 <;> rfl
  | _ => rfl

/-- The group was created, and its deletion has not begun. -/
def GroupExists (n : Node) (g : Ptr) : Prop := n.groupPool.Live g ∧ (n.group g).deleted = false

instance (n : Node) (g : Ptr) : Decidable (n.GroupExists g) := inferInstanceAs (Decidable (_ ∧ _))

/-- What an access adds to the counter of a group. -/
def groupDelta (u : Access) (g : Ptr) : Int :=
  match u with
  | .taskGroup _ (some r) => if r.id = g.id then 1 else 0
  | .groupTasks r d => if r.id = g.id then d else 0
  | _ => 0

/-- What an access does to the queue of a group. -/
def groupQueue (u : Access) (g : Ptr) (q : TaskQueue) : TaskQueue :=
  match u with
  | .groupPush r p => if r.id = g.id then (q.push p).1 else q
  | .groupPop r => if r.id = g.id then q.pop.1 else q
  | _ => q

theorem writes_onGroup (n : Node) (u : Access) (g : Ptr) (x : Group)
    (h : ((u.onGroup n).writes g.id x).deleted = false) :
    x.deleted = false ∧
      ((u.onGroup n).writes g.id x).numTasks = x.numTasks + groupDelta u g ∧
      ((u.onGroup n).writes g.id x).queue = groupQueue u g x.queue := by
  cases u with
  | taskGroup p r =>
    cases r with
    | none => exact ⟨h, (add_zero _).symm, rfl⟩
    | some r =>
      simp only [Access.onGroup, Pool.Step.writes, groupDelta, groupQueue] at h ⊢
      split <;> simp_all
  | groupTasks r d =>
    simp only [Access.onGroup, Pool.Step.writes, groupDelta, groupQueue] at h ⊢
    split <;> simp_all
  | groupPush r p =>
    simp only [Access.onGroup, Pool.Step.writes, groupDelta, groupQueue] at h ⊢
    split <;> simp_all
  | groupPop r =>
    simp only [Access.onGroup, Pool.Step.writes, groupDelta, groupQueue] at h ⊢
    split <;> simp_all
  | groupFinalize r =>
    simp only [Access.onGroup, Pool.Step.writes, groupDelta, groupQueue] at h ⊢
    split at h
    · exact absurd h Bool.noConfusion
    · rename_i hid
      rw [if_neg hid]
      exact ⟨h, (add_zero _).symm, rfl⟩
  | _ => exact ⟨h, (add_zero _).symm, rfl⟩

/-- A group that exists after an access existed before, and follows the access, or it is
a new group with nothing in it. -/
theorem groupExists_access {n : Node} (hs : n.groupPool.Sound) {u : Access} {g : Ptr}
    (h : (n.access u).GroupExists g) :
    (n.GroupExists g ∧ ((n.access u).group g).numTasks = (n.group g).numTasks + groupDelta u g ∧
        ((n.access u).group g).queue = groupQueue u g (n.group g).queue) ∨
      (n.groupPool.allocate.2 = some g ∧ ((n.access u).group g).numTasks = 0 ∧
        ((n.access u).group g).queue.tasks = [] ∧ u = .groupCreate) := by
  obtain ⟨hl, hd⟩ := h
  rw [group, groupPool_access] at hd ⊢
  rw [groupPool_access] at hl
  rcases Pool.Step.live_cases hs (u.keepsHandles_onGroup n) hl with ⟨hl, he⟩ | ⟨f, hf, hx, he⟩
  · rw [he] at hd ⊢
    obtain ⟨h1, h2, h3⟩ := n.writes_onGroup u g _ hd
    exact Or.inl ⟨⟨hl, h1⟩, h2, h3⟩
  · rw [he] at hd ⊢
    cases u with
    | groupCreate =>
      cases hf
      exact Or.inr ⟨hx, rfl, rfl, rfl⟩
    | taskGroup p r => cases r <;> cases hf
    | _ => cases hf

/-- The group of a task slot is what it was, none, or what a start call assigns. -/
theorem taskGroupField_access (n : Node) (u : Access) (id : Nat) :
    ((n.access u).taskPool.storage id).group = (n.taskPool.storage id).group ∨
      ((n.access u).taskPool.storage id).group.id = idPoolInvalidId ∨
      ∃ p, p.id = id ∧ u = .taskGroup p (some ((n.access u).taskPool.storage id).group) := by
  by_cases hp : ∀ p ∈ u.places, p.id ≠ id
  · exact Or.inl (congrArg (fun x => x.2.2.1) (n.placement_access u hp))
  · simp only [not_forall, not_not] at hp
    obtain ⟨p, hp, rfl⟩ := hp
    cases u with
    | taskQueue q r =>
      refine Or.inl (n.taskField_access rfl Task.group p.id fun p' f ho _ => ?_)
      cases r <;> cases ho <;> rfl
    | taskAction q a =>
      refine Or.inl (n.taskField_access rfl Task.group p.id fun p' f ho _ => ?_)
      cases ho
      rfl
    | taskGroup q g =>
      cases List.mem_singleton.mp hp
      cases g with
      | none =>
        refine Or.inr (Or.inl ?_)
        simp only [access, startGroup, modifyTask_taskPool, Pool.storage_modify_self]
      | some g =>
        refine Or.inr (Or.inr ⟨p, rfl, ?_⟩)
        simp only [access, startGroup, addGroupTasks, modifyGroup_taskPool, modifyTask_taskPool,
          Pool.storage_modify_self]
    | taskInit q call =>
      cases List.mem_singleton.mp hp
      refine Or.inr (Or.inl ?_)
      simp only [access, modifyTask_taskPool, Pool.storage_modify_self]
      rfl
    | taskFinalize q =>
      cases List.mem_singleton.mp hp
      refine Or.inr (Or.inl ?_)
      simp only [access, modifyTask_taskPool, Pool.storage_modify_self]
      rfl
    | taskDeallocate q =>
      cases List.mem_singleton.mp hp
      refine Or.inr (Or.inl ?_)
      simp only [access, setTaskPool_taskPool, Pool.deallocate, Pool.setIdPool_storage,
        Pool.storage_modify_self]
      rfl
    | _ => exact absurd hp List.not_mem_nil

end Node

/-- The group for which `embb_mtapi_task_delete` was called. -/
def DeleteCaller.groups : DeleteCaller → List Ptr
  | .waitAll g _ _ | .waitAny g _ => [g]
  | _ => []

/-- A task that a waiter has taken from the queue of its group, and, once the slot of the
task is given back, the group that has not been counted down yet. -/
def Frame.reaping : Frame → List (Ptr × Option Ptr)
  | .waitAllTask g _ _ p | .waitAnyTask g p => [(g, some p)]
  | .taskDelete p caller => caller.groups.map fun g => (g, some p)
  | .taskDeallocate _ caller => caller.groups.map fun g => (g, none)
  | .waitAllCount g _ _ | .waitAnyCount g _ => [(g, none)]
  | _ => []

/-- What all waiters have in hand. -/
def reaping (fs : Multiset Frame) : Multiset (Ptr × Option Ptr) :=
  fs.bind fun f => (f.reaping : Multiset (Ptr × Option Ptr))

theorem reaping_cons (f : Frame) (fs : Multiset Frame) :
    reaping (f ::ₘ fs) = (f.reaping : Multiset (Ptr × Option Ptr)) + reaping fs := by
  rw [reaping, reaping, Multiset.cons_bind]

theorem reaping_add (fs : List Frame) (others : Multiset Frame) :
    reaping (fs + others) =
      (fs.flatMap Frame.reaping : List (Ptr × Option Ptr)) + reaping others := by
  rw [reaping, reaping, Multiset.add_bind, Multiset.coe_bind]

theorem reaping_entry (n : Node) (call : Call) : (n.entry call).reaping = [] := by
  cases call <;> rfl

theorem reaping_visitorResume (v : Visitor) (n : Node) (finite : Bool) :
    (v.resume n finite).reaping = [] := by
  apply apply_visitorResume <;> intros <;> rfl

theorem reaping_deleteResume (caller : DeleteCaller) :
    caller.resume.reaping = caller.groups.map fun g => (g, none) := by
  cases caller <;> rfl

theorem reaping_contextResume (ctx : Context) (done : Bool) :
    (ctx.resume done).flatMap Frame.reaping = [] :=
  flatMap_contextResume (fun _ _ => rfl) (fun _ => rfl) ctx done

theorem reaping_scheduleResume (caller : ScheduleCaller) (p : Ptr) (pushed : Bool) :
    (caller.resume p pushed).flatMap Frame.reaping = [] :=
  flatMap_scheduleResume (fun _ _ _ _ => rfl) (fun _ => rfl) caller p pushed

theorem reaping_executeTaskOrYield (n : Node) (t : Nat) {back : Frame} (h : back.reaping = []) :
    (n.executeTaskOrYield t back).flatMap Frame.reaping = [] := by
  rw [flatMap_executeTaskOrYield fun _ => rfl, h]

/-- The task that a waiter deletes for its group. -/
def Frame.reaped : Frame → List (Ptr × Ptr)
  | .taskDelete p caller => caller.groups.map fun g => (g, p)
  | _ => []

/-- The accesses with which a waiter takes a task and counts its group down. -/
def Access.reaps : Access → Bool
  | .groupPop _ | .groupTasks _ _ => true
  | _ => false

/-- A waiter takes a task from the queue of its group, gives its slot back, and counts
the group down. -/
theorem exec_reaping (t : Nat) (c : Choice) (f : Frame) (n : Node) :
    ((exec t c f n).2.flatMap Frame.reaping = f.reaping ∧ (exec t c f n).1.reaps = false ∧
        f.reaped = []) ∨
      (∃ g p, (n.group g).queue.pop.2 = some p ∧ (exec t c f n).1 = .groupPop g ∧
        f.reaping = [] ∧ f.reaped = [] ∧
        (exec t c f n).2.flatMap Frame.reaping = [(g, some p)]) ∨
      (∃ p caller, f = .taskDelete p caller ∧
        (exec t c f n).2.flatMap Frame.reaping = caller.groups.map fun g => (g, none)) ∨
      ∃ g, (exec t c f n).1 = .groupTasks g (-1) ∧ f.reaping = [(g, none)] ∧ f.reaped = [] ∧
        (exec t c f n).2.flatMap Frame.reaping = [] := by
  fun_cases exec t c f n
  all_goals first
    | exact Or.inl ⟨rfl, rfl, rfl⟩
    | exact Or.inl ⟨reaping_contextResume _ _, rfl, rfl⟩
    | exact Or.inl ⟨reaping_scheduleResume _ _ _, rfl, rfl⟩
    | exact Or.inl ⟨reaping_executeTaskOrYield _ _ rfl, rfl, rfl⟩
    | exact Or.inr (Or.inl ⟨_, _, by assumption, rfl, rfl, rfl, rfl⟩)
    | exact Or.inr (Or.inr (Or.inl ⟨_, _, rfl, List.append_nil _⟩))
    | exact Or.inr (Or.inr (Or.inr ⟨_, rfl, rfl, rfl, rfl⟩))
    | exact Or.inl ⟨List.append_nil _, rfl, rfl⟩
    | rw [List.flatMap_cons, reaping_entry]
      exact Or.inl ⟨rfl, rfl, rfl⟩
    | rw [List.flatMap_cons, reaping_deleteResume]
      exact Or.inl ⟨List.append_nil _, rfl, rfl⟩
    | rw [List.flatMap_cons, reaping_visitorResume]
      exact Or.inl ⟨rfl, rfl, rfl⟩

/-- The group to whose queue a worker is about to push its task. -/
def Frame.groupPushes : Frame → List (Ptr × Ptr)
  | .executeGroupPush ctx g => [(ctx.task, g)]
  | _ => []

theorem Frame.groupPushes_of_refs {f : Frame} (h : f.refs = []) : f.groupPushes = [] := by
  unfold Frame.groupPushes
  split
  · cases h
  · rfl

theorem Frame.mem_refs_of_mem_groupPushes {f : Frame} {p g : Ptr} (h : (p, g) ∈ f.groupPushes) :
    p ∈ f.refs ∧ f.fresh = [] := by
  unfold Frame.groupPushes at h
  split at h
  · exact ⟨List.mem_singleton.mpr (Prod.mk.inj (List.mem_singleton.mp h)).1, rfl⟩
  · exact absurd h List.not_mem_nil

theorem groupPushes_contextResume (ctx : Context) (done : Bool) :
    (ctx.resume done).flatMap Frame.groupPushes = [] :=
  flatMap_contextResume (fun _ _ => rfl) (fun _ => rfl) ctx done

theorem groupPushes_scheduleResume (caller : ScheduleCaller) (p : Ptr) (pushed : Bool) :
    (caller.resume p pushed).flatMap Frame.groupPushes = [] :=
  flatMap_scheduleResume (fun _ _ _ _ => rfl) (fun _ => rfl) caller p pushed

theorem groupPushes_executeTaskOrYield (n : Node) (t : Nat) {back : Frame}
    (h : back.refs = []) : (n.executeTaskOrYield t back).flatMap Frame.groupPushes = [] := by
  rw [flatMap_executeTaskOrYield fun _ => rfl, Frame.groupPushes_of_refs h]

theorem exec_groupPushes (t : Nat) (c : Choice) (f : Frame) (n : Node) :
    (exec t c f n).2.flatMap Frame.groupPushes = [] ∨
      ∃ ctx, f = .executeGroup ctx ∧ (exec t c f n).2.flatMap Frame.groupPushes =
        [(ctx.task, (n.task ctx.task).group)] := by
  fun_cases exec t c f n
  all_goals first
    | exact Or.inl rfl
    | exact Or.inl (groupPushes_contextResume _ _)
    | exact Or.inl (groupPushes_scheduleResume _ _ _)
    | exact Or.inl (groupPushes_executeTaskOrYield _ _ rfl)
    | exact Or.inr ⟨_, rfl, rfl⟩
    | rw [List.flatMap_cons, Frame.groupPushes_of_refs (refs_entry _ _)]
      exact Or.inl rfl
    | rw [List.flatMap_cons, Frame.groupPushes_of_refs (refs_deleteResume _)]
      exact Or.inl rfl
    | rw [List.flatMap_cons, Frame.groupPushes_of_refs (refs_visitorResume _ _ _)]
      exact Or.inl rfl

/-- The task that a start call has not assigned to a group yet. -/
def Frame.ungrouped : Frame → List Ptr
  | .startInit _ p | .startGroup _ p | .startGroupCount _ p => [p]
  | _ => []

theorem Frame.mem_fresh_of_mem_ungrouped {f : Frame} {p : Ptr} (h : p ∈ f.ungrouped) :
    p ∈ f.fresh := by
  unfold Frame.ungrouped at h
  split at h
  all_goals first | exact h | exact absurd h List.not_mem_nil

theorem Frame.ungrouped_of_refs {f : Frame} (h : f.refs = []) : f.ungrouped = [] := by
  have hf := fresh_of_refs h
  rw [List.eq_nil_iff_forall_not_mem] at hf ⊢
  exact fun p hp => hf p (mem_fresh_of_mem_ungrouped hp)

theorem ungrouped_contextResume (ctx : Context) (done : Bool) :
    (ctx.resume done).flatMap Frame.ungrouped = [] :=
  flatMap_contextResume (fun _ _ => rfl) (fun _ => rfl) ctx done

theorem ungrouped_scheduleResume (caller : ScheduleCaller) (p : Ptr) (pushed : Bool) :
    (caller.resume p pushed).flatMap Frame.ungrouped = [] :=
  flatMap_scheduleResume (fun _ _ _ _ => rfl) (fun _ => rfl) caller p pushed

theorem ungrouped_executeTaskOrYield (n : Node) (t : Nat) {back : Frame} (h : back.refs = []) :
    (n.executeTaskOrYield t back).flatMap Frame.ungrouped = [] := by
  rw [flatMap_executeTaskOrYield fun _ => rfl, Frame.ungrouped_of_refs h]

theorem exec_ungrouped (t : Nat) (c : Choice) (f : Frame) (n : Node) :
    (exec t c f n).2.flatMap Frame.ungrouped = f.ungrouped ∨
      (exec t c f n).2.flatMap Frame.ungrouped = [] ∨
      ∃ p, n.taskPool.allocate.2 = some p ∧ (exec t c f n).1 = .taskAllocate ∧
        (exec t c f n).2.flatMap Frame.ungrouped = [p] := by
  fun_cases exec t c f n
  all_goals first
    | exact Or.inl rfl
    | exact Or.inr (Or.inl rfl)
    | exact Or.inr (Or.inl (ungrouped_contextResume _ _))
    | exact Or.inr (Or.inl (ungrouped_executeTaskOrYield _ _ rfl))
    | exact Or.inr (Or.inl (ungrouped_scheduleResume _ _ _))
    | exact Or.inr (Or.inr ⟨_, by assumption, rfl, rfl⟩)
    | rw [List.flatMap_cons, Frame.ungrouped_of_refs (refs_entry _ _)]
      exact Or.inr (Or.inl rfl)
    | rw [List.flatMap_cons, Frame.ungrouped_of_refs (refs_deleteResume _)]
      exact Or.inr (Or.inl rfl)
    | rw [List.flatMap_cons, Frame.ungrouped_of_refs (refs_visitorResume _ _ _)]
      exact Or.inr (Or.inl rfl)

/-- The task was started into a group that exists. -/
def grouped (n : Node) (p : Ptr) : Prop := n.GroupExists (n.task p).group

/-- The group whose counter or queue a step changes. -/
def Access.groups : Access → List Ptr
  | .taskGroup _ (some g) | .groupTasks g _ | .groupPush g _ | .groupPop g => [g]
  | _ => []

/-- The steps that keep the bookkeeping of groups exact. -/
structure GathersTasks (t : Nat) (c : Choice) (f : Frame) (n : Node) (fs : Multiset Frame) :
    Prop where
  /-- A task slot is deleted only when nothing refers to it. -/
  deletes : deletesUnreferenced t c f n fs
  /-- The tag of a group slot does not wrap around. -/
  wraps : ∀ g status, f = .groupDeallocate g status → (n.group g).handle.tag + 1 < uintRange
  /-- Counter and queue are reached through the handle of a group that was created, and no
  other group has taken its slot. -/
  reaches : ∀ g ∈ (exec t c f n).1.groups, n.groupPool.Issued g ∧
    ∀ g', n.GroupExists g' → g'.id = g.id → g' = g
  /-- A task that is started into a group has an instance. -/
  instances : ∀ call p, f = .startGroupCount call p → n.GroupExists call.group →
    call.attributes.numInstances ≠ 0
  /-- No instance of a task in a group is lost. -/
  loses : ∀ p ∈ f.loses n, ¬ grouped n p
  /-- The last instance of a task in a group is not dropped as cancelled. -/
  cancelled : ∀ p lq, f = .workerCancelledTodo p lq →
    (n.task p).instancesTodo ≠ 1 ∨ ¬ grouped n p
  /-- The queue of a group has room for a task that is over. -/
  room : ∀ ctx g, f = .executeGroupPush ctx g → n.GroupExists g →
    (n.group g).queue.tasks.length < (n.group g).queue.limit
  /-- A task in a group is only deleted by the waiter that has taken it from the queue. -/
  reaps : ∀ p caller, f = .taskDelete p caller → grouped n p → (n.task p).group ∈ caller.groups
  /-- The slot that is given back has not been taken by a task in a group. -/
  gives : ∀ p caller, f = .taskDeallocate p caller → ¬ grouped n p

/-- The task has an instance that is not over, or its group has not been told. -/
def Unfinished (n : Node) (fs : Multiset Frame) (p : Ptr) : Prop :=
  (.waiting, p) ∈ work n fs ∨ (.finishing, p) ∈ work n fs

instance (n : Node) (fs : Multiset Frame) (p : Ptr) : Decidable (Unfinished n fs p) :=
  inferInstanceAs (Decidable (_ ∨ _))

/-- How often a task lies in the queue of a group or is in the hand of one of its waiters. -/
def gathered (n : Node) (fs : Multiset Frame) (g p : Ptr) : Nat :=
  (n.group g).queue.tasks.count p + (reaping fs).count (g, some p)

/-- The slots of the tasks that were started into a group and not deleted. -/
def members (n : Node) (g : Ptr) : Finset Nat :=
  (Finset.range (n.taskPool.idPool.capacity + 1)).filter fun id =>
    (n.taskPool.storage id).group = g

/-- The tasks that were started into a group and not reaped: those that are not deleted,
and those that are deleted but not counted down yet. -/
def unreaped (n : Node) (fs : Multiset Frame) (g : Ptr) : Nat :=
  (members n g).card + (reaping fs).count (g, none)

/-- Every group that exists counts its tasks that were not reaped, and each of them is
either unfinished or gathered, once. -/
structure GroupsCounted (n : Node) (fs : Multiset Frame) : Prop
    extends WorkCounted grouped n fs where
  groupSound : n.groupPool.Sound
  groupIssued : ∀ id, n.groupPool.Issued (n.taskPool.storage id).group
  waiterIssued : ∀ x ∈ reaping fs, n.groupPool.Issued x.1
  pushes : ∀ f ∈ fs, ∀ p g, (p, g) ∈ f.groupPushes → (n.task p).group = g
  ungrouped : ∀ f ∈ fs, ∀ p ∈ f.ungrouped, ¬ grouped n p
  member : ∀ id, n.GroupExists (n.taskPool.storage id).group →
    ∃ p, n.taskPool.Live p ∧ p.id = id
  belongs : ∀ g p, n.GroupExists g → 0 < gathered n fs g p →
    n.taskPool.Live p ∧ (n.task p).group = g
  once : ∀ p, n.taskPool.Live p → grouped n p →
    (if Unfinished n fs p then 1 else 0) + gathered n fs (n.task p).group p = 1
  counted : ∀ g, n.GroupExists g → (n.group g).numTasks = unreaped n fs g

theorem DeleteCaller.groups_cases (caller : DeleteCaller) :
    caller.groups = [] ∨ ∃ g, caller.groups = [g] := by
  cases caller with
  | waitAll g finite status => exact Or.inr ⟨g, rfl⟩
  | waitAny g status => exact Or.inr ⟨g, rfl⟩
  | _ => exact Or.inl rfl

section Preservation

variable {t : Nat} {c : Choice} {f : Frame} {n : Node} {others : Multiset Frame}

theorem groupIssued_access (hs : n.groupPool.Sound)
    (hg : GathersTasks t c f n (f ::ₘ others)) {x : Handle} (hx : n.groupPool.Issued x) :
    (code t c f n).1.groupPool.Issued x := by
  have hi := exec_issuedBy t c f n
  rw [code, Node.groupPool_access]
  refine Pool.Step.issued hs (Access.keepsHandles_onGroup n _) (fun g hu => ?_) hx
  cases hu' : (exec t c f n).1 with
  | groupDeallocate r =>
    rw [hu'] at hi hu
    cases hu
    obtain ⟨status, hf⟩ := hi
    exact hg.wraps g status hf
  | taskGroup p r =>
    rw [hu'] at hu
    cases r <;> cases hu
  | _ =>
    rw [hu'] at hu
    cases hu

/-- A group that a known handle names after a step existed before it. -/
theorem groupExists_exec (hs : n.groupPool.Sound) {g : Ptr} (hg : n.groupPool.Issued g)
    (he : (code t c f n).1.GroupExists g) :
    n.GroupExists g ∧
      ((code t c f n).1.group g).numTasks =
        (n.group g).numTasks + Node.groupDelta (exec t c f n).1 g ∧
      ((code t c f n).1.group g).queue =
        Node.groupQueue (exec t c f n).1 g (n.group g).queue := by
  rcases Node.groupExists_access hs he with he | ⟨hnew, -⟩
  · exact he
  · exact absurd hg (Pool.not_issued_of_allocate hs hnew)

/-- A start call that has looked at the group leaves the group of its task alone. -/
theorem group_exec_of_fresh {p : Ptr} (hp : p ∈ f.fresh) (hu : p ∉ f.ungrouped) :
    ((code t c f n).1.task p).group = (n.task p).group := by
  unfold Frame.fresh at hp
  split at hp
  all_goals first
    | exact absurd hp List.not_mem_nil
    | cases List.mem_singleton.mp hp
  all_goals first
    | exact absurd (List.mem_singleton_self p) hu
    | skip
  · simp only [code, exec]
    split
    · rfl
    · simp only [Node.access, Node.startQueue, Node.task_modifyTask_self]
  · simp only [code, exec, Node.access, Node.startQueue, Node.queueTaskStarted,
      Node.addQueueTasks, Node.task, Node.modifyQueue_taskPool, Node.modifyTask_taskPool,
      Pool.storage_modify_self]
  · simp only [code, exec]
    split
    · split <;> rfl
    · rfl
  · simp only [code, exec]
    split <;> rfl
  · simp only [code, exec]
    split
    · split <;> simp only [Node.access, Node.task_modifyTask_self]
    · rfl

namespace GroupsCounted

theorem grouped_exec (h : GroupsCounted n (f ::ₘ others))
    (hg : GathersTasks t c f n (f ::ₘ others)) :
    ∀ p ∈ references n (f ::ₘ others), p ∉ f.fresh → grouped (code t c f n).1 p → grouped n p := by
  intro p hp hf he
  have hq : ((code t c f n).1.task p).group = (n.task p).group :=
    congrArg (fun x => x.2.2.1) (h.placement_exec hg.deletes hp hf)
  rw [grouped, hq] at he
  exact (groupExists_exec h.groupSound (h.groupIssued p.id) he).1

/-- A live task that is in a group stays there until its waiter deletes it. -/
theorem group_exec (h : GroupsCounted n (f ::ₘ others))
    (hg : GathersTasks t c f n (f ::ₘ others)) {p : Ptr} (hp : n.taskPool.Live p)
    (hgr : grouped n p) :
    ((code t c f n).1.task p).group = (n.task p).group ∨
      ∃ caller, f = .taskDelete p caller ∧ (n.task p).group ∈ caller.groups := by
  have hself := Multiset.mem_cons_self f others
  by_cases hpl : ∀ q ∈ (exec t c f n).1.places, q.id ≠ p.id
  · exact Or.inl (congrArg (fun x => x.2.2.1) (n.placement_access (exec t c f n).1 hpl))
  · simp only [not_forall, not_not] at hpl
    obtain ⟨q, hq, hid⟩ := hpl
    have hsame : n.task q = n.task p := congrArg n.taskPool.storage hid
    have hgq : grouped n q := by rwa [grouped, hsame]
    rcases exec_places hq with hfr | ⟨caller, hf | hf⟩
    · -- a start call writes its slot before it is in a group, or does not write the group
      have hql := h.live q (mem_references_of_mem hself (Frame.mem_refs_of_mem_fresh hfr))
      cases hql.eq_of_id hp hid
      exact Or.inl (group_exec_of_fresh hfr fun hm => h.ungrouped f hself p hm hgr)
    · have hr := hg.reaps q caller hf hgq
      have hc : 0 < (reaping (f ::ₘ others)).count ((n.task q).group, some q) := by
        rw [Multiset.count_pos, reaping_cons, hf]
        exact Multiset.mem_add.mpr (Or.inl (List.mem_map.mpr ⟨_, hr, rfl⟩))
      have hql := (h.belongs _ q hgq (Nat.add_pos_right _ hc)).1
      cases hql.eq_of_id hp hid
      exact Or.inr ⟨caller, hf, hr⟩
    · exact absurd hgq (hg.gives q caller hf)

/-- A task that is in a group keeps its slot. -/
theorem live_exec (h : GroupsCounted n (f ::ₘ others))
    (hg : GathersTasks t c f n (f ::ₘ others)) {p : Ptr} (hp : n.taskPool.Live p)
    (hgr : grouped n p) : (code t c f n).1.taskPool.Live p := by
  refine Node.live_access h.sound hp fun q hu hid => ?_
  have hi := exec_issuedBy t c f n
  rw [hu] at hi
  obtain ⟨caller, hf⟩ := hi
  have hsame : n.task q = n.task p := congrArg n.taskPool.storage hid.symm
  exact hg.gives q caller hf (by rwa [grouped, hsame])

/-- A slot that names an existing group named it before, or a start call has just
assigned it. -/
theorem group_before (h : GroupsCounted n (f ::ₘ others))
    (hg : GathersTasks t c f n (f ::ₘ others)) {id : Nat}
    (he : (code t c f n).1.GroupExists ((code t c f n).1.taskPool.storage id).group) :
    (n.GroupExists (n.taskPool.storage id).group ∧
      ((code t c f n).1.taskPool.storage id).group = (n.taskPool.storage id).group) ∨
      ∃ call p, f = .startGroupCount call p ∧ p.id = id ∧ n.GroupExists call.group ∧
        ((code t c f n).1.taskPool.storage id).group = call.group := by
  rcases n.taskGroupField_access (exec t c f n).1 id with hq | hq | ⟨p, hid, hu⟩
  · rw [show ((code t c f n).1.taskPool.storage id).group = _ from hq] at he ⊢
    exact Or.inl ⟨(groupExists_exec h.groupSound (h.groupIssued id) he).1, rfl⟩
  · exact absurd hq (Nat.pos_iff_ne_zero.mp he.1.1)
  · have hi := exec_issuedBy t c f n
    rw [hu] at hi
    obtain ⟨call, hcall, hf⟩ := hi
    rw [show ((code t c f n).1.taskPool.storage id).group = _ from hcall.symm] at he ⊢
    have hiss := (hg.reaches call.group (by rw [hf]; exact List.mem_singleton_self _)).1
    exact Or.inr ⟨call, p, hf, hid, (groupExists_exec h.groupSound hiss he).1, rfl⟩

theorem member_exec (h : GroupsCounted n (f ::ₘ others))
    (hg : GathersTasks t c f n (f ::ₘ others)) (id : Nat)
    (he : (code t c f n).1.GroupExists ((code t c f n).1.taskPool.storage id).group) :
    ∃ p, (code t c f n).1.taskPool.Live p ∧ p.id = id := by
  rcases h.group_before hg he with ⟨hold, -⟩ | ⟨call, p, rfl, hid, -⟩
  · obtain ⟨p, hp, rfl⟩ := h.member id hold
    exact ⟨p, h.live_exec hg hp hold, rfl⟩
  · have hp := h.live p (mem_references_of_mem (Multiset.mem_cons_self _ others)
      (List.mem_singleton_self p))
    exact ⟨p, Node.live_access h.sound hp (fun _ hu => by cases hu), hid⟩

/-- A live task that is in a group was in it before, or a start call has just assigned it. -/
theorem grouped_before (h : GroupsCounted n (f ::ₘ others))
    (hg : GathersTasks t c f n (f ::ₘ others)) {p : Ptr}
    (hp : (code t c f n).1.taskPool.Live p) (he : grouped (code t c f n).1 p) :
    (n.taskPool.Live p ∧ grouped n p ∧ ((code t c f n).1.task p).group = (n.task p).group) ∨
      ∃ call, f = .startGroupCount call p ∧ n.GroupExists call.group ∧
        ((code t c f n).1.task p).group = call.group := by
  rcases h.group_before hg he with ⟨hold, hsame⟩ | ⟨call, q, hf, hid, hold, hgroup⟩
  · obtain ⟨q, hq, hid⟩ := h.member p.id hold
    have hgq : grouped n q := by rwa [grouped, Node.task, hid]
    cases (h.live_exec hg hq hgq).eq_of_id hp hid
    exact Or.inl ⟨hq, hold, hsame⟩
  · have hq := h.live q (mem_references_of_mem (Multiset.mem_cons_self f others) (by
      rw [hf]
      exact List.mem_singleton_self q))
    have hq' : (code t c f n).1.taskPool.Live q := by
      refine Node.live_access h.sound hq fun q' hu => ?_
      rw [hf] at hu
      cases hu
    cases hq'.eq_of_id hp hid
    exact Or.inr ⟨call, hf, hold, hgroup⟩

/-- The queue of a group and its waiters together gain the task that a worker pushes and
lose the one that a waiter deletes. -/
theorem gathered_exec (hg : GathersTasks t c f n (f ::ₘ others)) {g : Ptr}
    (he : n.GroupExists g)
    (hq : ((code t c f n).1.group g).queue =
      Node.groupQueue (exec t c f n).1 g (n.group g).queue) (p : Ptr) :
    gathered (code t c f n).1 ((code t c f n).2 + others) g p + f.reaped.count (g, p) =
      gathered n (f ::ₘ others) g p + f.groupPushes.count (p, g) := by
  rw [gathered, gathered, hq, reaping_cons, code, reaping_add, Multiset.count_add,
    Multiset.count_add, Multiset.coe_count, Multiset.coe_count]
  rcases exec_reaping t c f n with ⟨hr, hu, hd⟩ | ⟨r, q, hpop, hu, hr, hd, hn⟩ |
    ⟨q, caller, rfl, hn⟩ | ⟨r, hu, hr, hd, hn⟩
  · rw [hr, hd]
    by_cases hf : ∃ ctx r, f = .executeGroupPush ctx r
    · obtain ⟨ctx, r, rfl⟩ := hf
      by_cases hrg : r = g
      · subst hrg
        have hpush : ((n.group r).queue.push ctx.task).2 = true := by
          rw [TaskQueue.push_snd, decide_eq_true_eq]
          exact hg.room ctx r rfl he
        simp only [exec, Node.groupQueue, ↓reduceIte, TaskQueue.tasks_push_of_true hpush,
          List.count_append, Frame.groupPushes, List.count_singleton, beq_iff_eq, Prod.mk.injEq,
          and_true, List.count_nil]
        omega
      · have hid : r.id ≠ g.id := fun hid =>
          hrg ((hg.reaches r (List.mem_singleton_self r)).2 g he hid.symm).symm
        simp only [exec, Node.groupQueue, if_neg hid, Frame.groupPushes, List.count_singleton,
          beq_iff_eq, Prod.mk.injEq, hrg, and_false, ↓reduceIte, List.count_nil]
    · have hp : f.groupPushes = [] := by
        unfold Frame.groupPushes
        split
        · exact absurd ⟨_, _, rfl⟩ hf
        · rfl
      have hstay : Node.groupQueue (exec t c f n).1 g (n.group g).queue = (n.group g).queue := by
        unfold Node.groupQueue
        split
        · rename_i r q hx
          have hi := exec_issuedBy t c f n
          rw [hx] at hi
          obtain ⟨ctx, -, hf'⟩ := hi
          exact absurd ⟨ctx, r, hf'⟩ hf
        · rename_i hx
          rw [hx] at hu
          cases hu
        · rfl
      rw [hp, hstay]
      rfl
  · have hp : f.groupPushes = [] := by
      have hi := exec_issuedBy t c f n
      rw [hu] at hi
      obtain ⟨finite, status, rfl⟩ | ⟨finite, rfl⟩ := hi <;> rfl
    rw [hp, hr, hd, hn, hu]
    by_cases hrg : r = g
    · subst hrg
      simp only [Node.groupQueue, ↓reduceIte, TaskQueue.tasks_of_pop_some hpop, List.count_cons,
        List.count_nil, beq_iff_eq, Prod.mk.injEq, true_and, Option.some.injEq]
      omega
    · have hid : r.id ≠ g.id := fun hid =>
        hrg ((hg.reaches r (by rw [hu]; exact List.mem_singleton_self r)).2 g he hid.symm).symm
      simp only [Node.groupQueue, if_neg hid, List.count_singleton, List.count_nil, beq_iff_eq,
        Prod.mk.injEq, hrg, false_and, ↓reduceIte]
  · rw [hn]
    simp only [exec, Node.groupQueue, Frame.reaping, Frame.reaped, Frame.groupPushes,
      List.count_nil]
    rcases caller.groups_cases with hc | ⟨r, hc⟩
    · rw [hc]
      rfl
    · rw [hc]
      simp only [List.map_cons, List.map_nil, List.count_singleton, beq_iff_eq, Prod.mk.injEq,
        reduceCtorEq, and_false, ↓reduceIte, Option.some.injEq]
      omega
  · have hp : f.groupPushes = [] := by
      have hi := exec_issuedBy t c f n
      rw [hu] at hi
      obtain ⟨finite, status, -, rfl⟩ | ⟨status, -, rfl⟩ := hi <;> rfl
    rw [hp, hr, hd, hn, hu]
    simp only [Node.groupQueue, List.count_singleton, List.count_nil, beq_iff_eq, Prod.mk.injEq,
      reduceCtorEq, and_false, ↓reduceIte]

/-- The worker that pushes the last instance of a task to its group leaves the task
finished. -/
theorem not_unfinished_of_push (h : GroupsCounted n (f ::ₘ others)) {ctx : Context} {g : Ptr}
    (hf : f = .executeGroupPush ctx g) :
    ¬ Unfinished (code t c f n).1 ((code t c f n).2 + others) ctx.task := by
  have hmem : (.finishing, ctx.task) ∈ work n (f ::ₘ others) := by
    rw [work_cons, hf]
    exact Multiset.mem_add.mpr (Or.inl (List.mem_singleton_self _))
  have h1 := Multiset.count_pos.mpr hmem
  have hone := (h.tally ctx.task).once
  have hlast := (h.tally ctx.task).last
  have hbw := h.balance (t := t) (c := c) (.waiting, ctx.task)
  have hbf := h.balance (t := t) (c := c) (.finishing, ctx.task)
  have hnot : ∀ s : Stage, s ≠ .notifying →
      Multiset.count (s, ctx.task) (f.beginsWork n) = 0 := by
    intro s hs
    rw [hf, Multiset.count_eq_zero, Frame.beginsWork]
    rcases ctx.notifies_cases with he | he
    · rw [he]
      exact List.not_mem_nil
    · rw [he]
      exact fun hm => hs (Prod.mk.inj (List.mem_singleton.mp hm)).1
  rw [hnot _ (by decide), hf] at hbw hbf
  simp only [Frame.endsWork, Multiset.coe_singleton, Multiset.count_singleton, Prod.mk.injEq,
    reduceCtorEq, and_true, ↓reduceIte] at hbw hbf
  rw [← hf] at hbw hbf
  rw [waiting] at hlast
  rw [telling] at hone hlast
  rintro (hm | hm)
  · have := Multiset.count_pos.mpr hm
    omega
  · have := Multiset.count_pos.mpr hm
    omega

/-- A task in a group stays unfinished until a worker pushes it to the group. -/
theorem unfinished_exec (h : GroupsCounted n (f ::ₘ others))
    (hg : GathersTasks t c f n (f ::ₘ others)) {p : Ptr} (hgr : grouped n p) :
    (if Unfinished (code t c f n).1 ((code t c f n).2 + others) p then 1 else 0) +
        f.groupPushes.count (p, (n.task p).group) =
      if Unfinished n (f ::ₘ others) p then 1 else 0 := by
  have hself := Multiset.mem_cons_self f others
  have hbefore : Unfinished (code t c f n).1 ((code t c f n).2 + others) p →
      Unfinished n (f ::ₘ others) p := by
    have hall : ∀ s, s ≠ .notifying →
        (s, p) ∈ work (code t c f n).1 ((code t c f n).2 + others) →
          Unfinished n (f ::ₘ others) p := by
      intro s hs hm
      rcases h.toWorkCounted.before hm with ⟨s', hs', hold⟩ | ⟨call, hf⟩
      · cases s' with
        | waiting => exact Or.inl hold
        | finishing => exact Or.inr hold
        | notifying => exact absurd (hs' rfl) hs
      · exact absurd hgr (h.ungrouped f hself p (by rw [hf]; exact List.mem_singleton_self p))
    rintro (hm | hm)
    · exact hall .waiting (by decide) hm
    · exact hall .finishing (by decide) hm
  by_cases hf : ∃ ctx g, f = .executeGroupPush ctx g ∧ ctx.task = p
  · obtain ⟨ctx, g, hf, rfl⟩ := hf
    have hold : Unfinished n (f ::ₘ others) ctx.task := by
      refine Or.inr ?_
      rw [work_cons, hf]
      exact Multiset.mem_add.mpr (Or.inl (List.mem_singleton_self _))
    have hgroup := h.pushes f hself ctx.task g (by rw [hf]; exact List.mem_singleton_self _)
    rw [if_neg (h.not_unfinished_of_push hf), if_pos hold, hgroup, hf]
    simp only [Frame.groupPushes, List.count_singleton_self, zero_add]
  · have hcount : f.groupPushes.count (p, (n.task p).group) = 0 := by
      rw [List.count_eq_zero]
      intro hm
      unfold Frame.groupPushes at hm
      split at hm
      · exact hf ⟨_, _, rfl, (Prod.mk.inj (List.mem_singleton.mp hm)).1.symm⟩
      · exact absurd hm List.not_mem_nil
    have hafter : Unfinished n (f ::ₘ others) p →
        Unfinished (code t c f n).1 ((code t c f n).2 + others) p := by
      rintro (hm | hm)
      · rcases h.toWorkCounted.after_waiting hgr
          (fun hp => hg.loses _ hp hgr) hm with hw | hw | ⟨lq, hf', h1⟩
        · exact Or.inl hw
        · exact Or.inr hw
        · rcases hg.cancelled p lq hf' with hc | hc
          · exact absurd h1 hc
          · exact absurd hgr hc
      · rcases h.toWorkCounted.after_finishing hm with hw | ⟨ctx, rfl, ⟨-, hv⟩ | ⟨g, hf'⟩⟩
        · exact Or.inr hw
        · exact absurd hgr.1.valid (Bool.eq_false_iff.mp hv)
        · exact absurd ⟨ctx, g, hf', rfl⟩ hf
    rw [hcount, add_zero]
    exact if_congr ⟨hbefore, hafter⟩ rfl rfl

theorem gathered_le_one (h : GroupsCounted n (f ::ₘ others)) {g p : Ptr}
    (hg : n.GroupExists g) : gathered n (f ::ₘ others) g p ≤ 1 := by
  by_cases hpos : 0 < gathered n (f ::ₘ others) g p
  · obtain ⟨hp, hgroup⟩ := h.belongs g p hg hpos
    have ho := h.once p hp (by rwa [grouped, hgroup])
    rw [hgroup] at ho
    omega
  · omega

theorem belongs_exec (h : GroupsCounted n (f ::ₘ others))
    (hg : GathersTasks t c f n (f ::ₘ others)) (g p : Ptr)
    (he : (code t c f n).1.GroupExists g)
    (hpos : 0 < gathered (code t c f n).1 ((code t c f n).2 + others) g p) :
    (code t c f n).1.taskPool.Live p ∧ ((code t c f n).1.task p).group = g := by
  have hself := Multiset.mem_cons_self f others
  rcases Node.groupExists_access h.groupSound he with ⟨hold, -, hq⟩ | ⟨hnew, -, htasks, hu⟩
  · have hb := gathered_exec hg hold hq p
    have hbefore : n.taskPool.Live p ∧ (n.task p).group = g := by
      by_cases hcount : 0 < f.groupPushes.count (p, g)
      · have hm := List.count_pos_iff.mp hcount
        exact ⟨h.live p (mem_references_of_mem hself (Frame.mem_refs_of_mem_groupPushes hm).1),
          h.pushes f hself p g hm⟩
      · exact h.belongs g p hold (by omega)
    have hgr : grouped n p := by rw [grouped, hbefore.2]; exact hold
    refine ⟨h.live_exec hg hbefore.1 hgr, ?_⟩
    rcases h.group_exec hg hbefore.1 hgr with hgroup | ⟨caller, rfl, hr⟩
    · rw [hgroup, hbefore.2]
    · have hle := h.gathered_le_one (p := p) hold
      have hr' : 0 < (Frame.taskDelete p caller).reaped.count (g, p) :=
        List.count_pos_iff.mpr (List.mem_map.mpr ⟨g, hbefore.2 ▸ hr, rfl⟩)
      have hp' : (Frame.taskDelete p caller).groupPushes.count (p, g) = 0 := rfl
      omega
  · -- nobody knows the handle of a group that has just been created
    have hq0 : ((code t c f n).1.group g).queue.tasks = [] := htasks
    have hr0 : (reaping ((code t c f n).2 + others)).count (g, some p) = 0 := by
      rw [Multiset.count_eq_zero, code, reaping_add]
      intro hm
      rcases exec_reaping t c f n with ⟨hr, -⟩ | ⟨r, q, -, hu', -⟩ | ⟨q, caller, rfl, -⟩ |
        ⟨r, hu', -⟩
      · rw [hr, ← reaping_cons] at hm
        exact Pool.not_issued_of_allocate h.groupSound hnew (h.waiterIssued _ hm)
      · rw [hu] at hu'
        cases hu'
      · cases hu
      · rw [hu] at hu'
        cases hu'
    rw [gathered, hq0, hr0] at hpos
    exact absurd hpos (lt_irrefl 0)

theorem once_exec (h : GroupsCounted n (f ::ₘ others))
    (hg : GathersTasks t c f n (f ::ₘ others)) (p : Ptr)
    (hp : (code t c f n).1.taskPool.Live p) (he : grouped (code t c f n).1 p) :
    (if Unfinished (code t c f n).1 ((code t c f n).2 + others) p then 1 else 0) +
      gathered (code t c f n).1 ((code t c f n).2 + others) ((code t c f n).1.task p).group p
        = 1 := by
  have hself := Multiset.mem_cons_self f others
  rcases h.grouped_before hg hp he with ⟨hold, hgr, hgroup⟩ | ⟨call, hf, hcall, hgroup⟩
  · rw [grouped, hgroup] at he
    have hq := (groupExists_exec h.groupSound (h.groupIssued p.id) he).2.2
    have hb := gathered_exec hg hgr hq p
    have ho := h.once p hold hgr
    have hu := h.unfinished_exec hg hgr
    have hd : f.reaped.count ((n.task p).group, p) = 0 := by
      rw [List.count_eq_zero]
      intro hm
      unfold Frame.reaped at hm
      split at hm
      · rename_i q caller
        obtain ⟨r, hr, hpair⟩ := List.mem_map.mp hm
        obtain ⟨rfl, rfl⟩ := Prod.mk.inj hpair
        have hnone : ((code t c (.taskDelete q caller) n).1.task q).group.id =
            idPoolInvalidId := by
          simp only [code, exec, Node.access, Node.task_modifyTask_self]
          rfl
        rw [hgroup] at hnone
        exact absurd hnone (Nat.pos_iff_ne_zero.mp hgr.1.1)
      · exact absurd hm List.not_mem_nil
    rw [hgroup]
    omega
  · rw [grouped, hgroup] at he
    have hiss := (hg.reaches call.group (by rw [hf]; exact List.mem_singleton_self _)).1
    have hq := (groupExists_exec h.groupSound hiss he).2.2
    have hb := gathered_exec hg hcall hq p
    have hu : Unfinished (code t c f n).1 ((code t c f n).2 + others) p := by
      refine Or.inl ?_
      rw [work_add, hf]
      exact Multiset.mem_add.mpr (Or.inl (List.mem_append_left _
        (List.mem_replicate.mpr ⟨hg.instances call p hf hcall, rfl⟩)))
    have hzero : gathered n (f ::ₘ others) call.group p = 0 := by
      by_contra hne
      have hbel := (h.belongs call.group p hcall (Nat.pos_of_ne_zero hne)).2
      refine h.ungrouped f hself p (by rw [hf]; exact List.mem_singleton_self p) ?_
      rwa [grouped, hbel]
    have hp0 : f.groupPushes.count (p, call.group) = 0 := by
      rw [hf]
      rfl
    rw [hgroup, if_pos hu]
    omega

theorem mem_members (h : ∀ id, n.GroupExists (n.taskPool.storage id).group →
    ∃ p, n.taskPool.Live p ∧ p.id = id) {g : Ptr} (hg : n.GroupExists g) {id : Nat} :
    id ∈ members n g ↔ (n.taskPool.storage id).group = g := by
  rw [members, Finset.mem_filter, Finset.mem_range]
  refine ⟨And.right, fun hid => ⟨?_, hid⟩⟩
  obtain ⟨p, hp, rfl⟩ := h id (hid ▸ hg)
  exact Nat.lt_succ_of_le hp.2.1

theorem mem_members_before (h : GroupsCounted n (f ::ₘ others))
    (hg : GathersTasks t c f n (f ::ₘ others)) {g : Ptr} (he : (code t c f n).1.GroupExists g)
    {id : Nat} (hid : id ∈ members (code t c f n).1 g) :
    (n.GroupExists g ∧ id ∈ members n g) ∨
      ∃ call p, f = .startGroupCount call p ∧ p.id = id ∧ call.group = g := by
  rw [mem_members (h.member_exec hg) he] at hid
  subst hid
  rcases h.group_before hg he with ⟨hold, hsame⟩ | ⟨call, p, hf, hid, -, hgroup⟩
  · rw [hsame]
    exact Or.inl ⟨hold, (mem_members h.member hold).mpr rfl⟩
  · exact Or.inr ⟨call, p, hf, hid, hgroup.symm⟩

theorem mem_members_after (h : GroupsCounted n (f ::ₘ others))
    (hg : GathersTasks t c f n (f ::ₘ others)) {g : Ptr} (hold : n.GroupExists g)
    (he : (code t c f n).1.GroupExists g) {id : Nat} (hid : id ∈ members n g) :
    id ∈ members (code t c f n).1 g ∨
      ∃ p caller, f = .taskDelete p caller ∧ p.id = id ∧ g ∈ caller.groups := by
  rw [mem_members h.member hold] at hid
  obtain ⟨p, hp, rfl⟩ := h.member id (hid ▸ hold)
  rcases h.group_exec hg hp (by rw [grouped, hid]; exact hold) with hgroup | ⟨caller, hf, hr⟩
  · exact Or.inl ((mem_members (h.member_exec hg) he).mpr (hgroup.trans hid))
  · exact Or.inr ⟨p, caller, hf, rfl, hid ▸ hr⟩

/-- The start call that counts a task adds it to the members of the group. -/
theorem members_started (h : GroupsCounted n (f ::ₘ others))
    (hg : GathersTasks t c f n (f ::ₘ others)) {call : StartCall} {p : Ptr}
    (hf : f = .startGroupCount call p) (hold : n.GroupExists call.group)
    (he : (code t c f n).1.GroupExists call.group) :
    (members (code t c f n).1 call.group).card = (members n call.group).card + 1 := by
  have hnew : p.id ∉ members n call.group := by
    rw [mem_members h.member hold]
    intro hid
    refine h.ungrouped f (Multiset.mem_cons_self f others) p
      (by rw [hf]; exact List.mem_singleton_self p) ?_
    rw [grouped, Node.task, hid]
    exact hold
  have hin : p.id ∈ members (code t c f n).1 call.group := by
    rw [mem_members (h.member_exec hg) he, hf]
    simp only [code, exec, Node.access, Node.startGroup, Node.addGroupTasks,
      Node.modifyGroup_taskPool, Node.modifyTask_taskPool, Pool.storage_modify_self]
  have hset : members (code t c f n).1 call.group = insert p.id (members n call.group) := by
    ext id
    rw [Finset.mem_insert]
    constructor
    · intro hid
      rcases h.mem_members_before hg he hid with ⟨-, hid⟩ | ⟨call', q, hf', hq, -⟩
      · exact Or.inr hid
      · rw [hf] at hf'
        cases hf'
        exact Or.inl hq.symm
    · rintro (rfl | hid)
      · exact hin
      · refine (h.mem_members_after hg hold he hid).resolve_right ?_
        rintro ⟨q, caller, hf', -⟩
        rw [hf] at hf'
        cases hf'
  rw [hset, Finset.card_insert_of_notMem hnew]

/-- The waiter that deletes a task removes it from the members of its group. -/
theorem members_deleted (h : GroupsCounted n (f ::ₘ others))
    (hg : GathersTasks t c f n (f ::ₘ others)) {p g : Ptr} {caller : DeleteCaller}
    (hf : f = .taskDelete p caller) (hc : g ∈ caller.groups) (hold : n.GroupExists g)
    (he : (code t c f n).1.GroupExists g) :
    (members n g).card = (members (code t c f n).1 g).card + 1 := by
  have hin : p.id ∈ members n g := by
    rw [mem_members h.member hold]
    refine (h.belongs g p hold (Nat.add_pos_right _ ?_)).2
    rw [Multiset.count_pos, reaping_cons, hf]
    exact Multiset.mem_add.mpr (Or.inl (List.mem_map.mpr ⟨g, hc, rfl⟩))
  have hgone : p.id ∉ members (code t c f n).1 g := by
    rw [mem_members (h.member_exec hg) he, hf]
    intro hid
    have hnone : ((code t c (.taskDelete p caller) n).1.taskPool.storage p.id).group.id =
        idPoolInvalidId := by
      simp only [code, exec, Node.access, Node.modifyTask_taskPool, Pool.storage_modify_self]
      rfl
    rw [hid] at hnone
    exact absurd hnone (Nat.pos_iff_ne_zero.mp hold.1.1)
  have hset : members n g = insert p.id (members (code t c f n).1 g) := by
    ext id
    rw [Finset.mem_insert]
    constructor
    · intro hid
      rcases h.mem_members_after hg hold he hid with hid | ⟨q, caller', hf', hq, -⟩
      · exact Or.inr hid
      · rw [hf] at hf'
        cases hf'
        exact Or.inl hq.symm
    · rintro (rfl | hid)
      · exact hin
      · rcases h.mem_members_before hg he hid with ⟨-, hid⟩ | ⟨call, q, hf', -⟩
        · exact hid
        · rw [hf] at hf'
          cases hf'
  rw [hset, Finset.card_insert_of_notMem hgone]

theorem members_stay (h : GroupsCounted n (f ::ₘ others))
    (hg : GathersTasks t c f n (f ::ₘ others)) {g : Ptr} (hold : n.GroupExists g)
    (he : (code t c f n).1.GroupExists g)
    (hs : ∀ call p, f = .startGroupCount call p → call.group ≠ g)
    (hd : ∀ p caller, f = .taskDelete p caller → g ∉ caller.groups) :
    members (code t c f n).1 g = members n g := by
  ext id
  constructor
  · intro hid
    rcases h.mem_members_before hg he hid with ⟨-, hid⟩ | ⟨call, p, hf, -, hgroup⟩
    · exact hid
    · exact absurd hgroup (hs call p hf)
  · intro hid
    rcases h.mem_members_after hg hold he hid with hid | ⟨p, caller, hf, -, hr⟩
    · exact hid
    · exact absurd hr (hd p caller hf)

/-- A group follows the number of its tasks that were not reaped. -/
theorem unreaped_exec (h : GroupsCounted n (f ::ₘ others))
    (hg : GathersTasks t c f n (f ::ₘ others)) {g : Ptr} (hold : n.GroupExists g)
    (he : (code t c f n).1.GroupExists g) :
    (unreaped (code t c f n).1 ((code t c f n).2 + others) g : Int) =
      unreaped n (f ::ₘ others) g + Node.groupDelta (exec t c f n).1 g := by
  have hreach : ∀ r ∈ (exec t c f n).1.groups, r.id = g.id → r = g := fun r hr hid =>
    ((hg.reaches r hr).2 g hold hid.symm).symm
  by_cases hs : ∃ call p, f = .startGroupCount call p ∧ call.group = g
  · obtain ⟨call, p, hf, rfl⟩ := hs
    have hm := h.members_started hg hf hold he
    rw [unreaped, unreaped, hm, hf, code, reaping_add, reaping_cons]
    simp only [exec, Node.groupDelta, ↓reduceIte, List.flatMap_cons, List.flatMap_nil,
      Frame.reaping, List.append_nil, Multiset.count_add]
    omega
  · rw [unreaped, unreaped, reaping_cons]
    simp only [code]
    rw [reaping_add, Multiset.count_add, Multiset.count_add]
    have hs' : ∀ call p, f = .startGroupCount call p → call.group ≠ g := fun call p hf hgr =>
      hs ⟨call, p, hf, hgr⟩
    rcases exec_reaping t c f n with ⟨hr, hu, hd⟩ | ⟨r, q, -, hu, hr, hd, hn⟩ |
      ⟨q, caller, hf, hn⟩ | ⟨r, hu, hr, hd, hn⟩
    · have hstay := h.members_stay hg hold he hs' fun p caller hf hm => by
        rw [hf] at hd
        exact absurd (List.map_eq_nil_iff.mp hd) (List.ne_nil_of_mem hm)
      have hdelta : Node.groupDelta (exec t c f n).1 g = 0 := by
        unfold Node.groupDelta
        split
        · rename_i p r hu'
          refine if_neg fun hid => ?_
          have hi := exec_issuedBy t c f n
          rw [hu'] at hi
          obtain ⟨call, hcall, hf⟩ := hi
          refine hs ⟨call, p, hf, hcall.trans (hreach r ?_ hid)⟩
          rw [hu']
          exact List.mem_singleton_self r
        · rename_i hu'
          rw [hu'] at hu
          cases hu
        · rfl
      rw [hr, hdelta, show members (n.access _) g = _ from hstay, add_zero]
    · have hstay := h.members_stay hg hold he hs' fun p caller hf => by
        rw [hf] at hu
        cases hu
      rw [hr, hn, hu, ← hu, show members (n.access _) g = _ from hstay, hu]
      simp only [Node.groupDelta, Multiset.coe_singleton, Multiset.count_singleton,
        Multiset.coe_nil, Multiset.count_zero, Prod.mk.injEq, reduceCtorEq, and_false, ↓reduceIte,
        add_zero]
    · have hu : (exec t c f n).1 = .taskFinalize q := by
        rw [hf]
        rfl
      have hzero : (f.reaping : Multiset (Ptr × Option Ptr)).count (g, none) = 0 := by
        rw [hf, Multiset.count_eq_zero]
        intro hm
        obtain ⟨r, -, hpair⟩ := List.mem_map.mp hm
        cases hpair
      have hdelta : Node.groupDelta (exec t c f n).1 g = 0 := by
        rw [hu]
        rfl
      rw [hn, hzero, hdelta]
      by_cases hm : g ∈ caller.groups
      · have hcard := h.members_deleted hg hf hm hold he
        have hone : ((caller.groups.map fun x => (x, none) : List (Ptr × Option Ptr)) :
            Multiset (Ptr × Option Ptr)).count (g, none) = 1 := by
          rcases caller.groups_cases with hc | ⟨r, hc⟩
          · rw [hc] at hm
            exact absurd hm List.not_mem_nil
          · rw [hc] at hm ⊢
            rw [List.mem_singleton.mp hm]
            exact Multiset.count_singleton_self _
        rw [hone, show (members n g).card = _ from hcard]
        simp only [code]
        omega
      · have hstay := h.members_stay hg hold he hs' fun p caller' hf' => by
          rw [hf] at hf'
          cases hf'
          exact hm
        have hnone : ((caller.groups.map fun x => (x, none) : List (Ptr × Option Ptr)) :
            Multiset (Ptr × Option Ptr)).count (g, none) = 0 := by
          rw [Multiset.count_eq_zero]
          intro hx
          obtain ⟨r, hr, hpair⟩ := List.mem_map.mp hx
          exact hm ((Prod.mk.inj hpair).1 ▸ hr)
        rw [hnone, show members (n.access _) g = _ from hstay, add_zero]
    · have hstay := h.members_stay hg hold he hs' fun p caller hf => by
        rw [hf] at hu
        cases hu
      rw [show members (n.access (exec t c f n).1) g = _ from hstay, hr, hn, hu]
      simp only [Node.groupDelta, Multiset.coe_singleton, Multiset.count_singleton,
        Multiset.coe_nil, Multiset.count_zero, Prod.mk.injEq, and_true, @eq_comm _ g r]
      by_cases hrg : r = g
      · rw [if_pos hrg, if_pos (congrArg Handle.id hrg)]
        omega
      · have hid : r.id ≠ g.id := fun hid =>
          hrg (hreach r (by rw [hu]; exact List.mem_singleton_self r) hid)
        rw [if_neg hrg, if_neg hid]
        omega

theorem waiterIssued_exec (h : GroupsCounted n (f ::ₘ others))
    (hg : GathersTasks t c f n (f ::ₘ others)) :
    ∀ x ∈ reaping ((code t c f n).2 + others), (code t c f n).1.groupPool.Issued x.1 := by
  intro x hx
  refine groupIssued_access h.groupSound hg ?_
  have hold : ∀ y, y ∈ (f.reaping : Multiset (Ptr × Option Ptr)) → n.groupPool.Issued y.1 :=
    fun y hy => h.waiterIssued y (by rw [reaping_cons]; exact Multiset.mem_add.mpr (Or.inl hy))
  rw [code, reaping_add] at hx
  rcases Multiset.mem_add.mp hx with hx | hx
  · rcases exec_reaping t c f n with ⟨hr, -⟩ | ⟨r, q, -, hu, -, -, hn⟩ | ⟨q, caller, rfl, hn⟩ |
      ⟨r, -, -, -, hn⟩
    · rw [hr] at hx
      exact hold x hx
    · rw [hn] at hx
      rw [List.mem_singleton.mp hx]
      exact (hg.reaches r (by rw [hu]; exact List.mem_singleton_self r)).1
    · rw [hn] at hx
      obtain ⟨r, hr, rfl⟩ := List.mem_map.mp hx
      exact hold (r, some q) (List.mem_map.mpr ⟨r, hr, rfl⟩)
    · rw [hn] at hx
      exact absurd hx List.not_mem_nil
  · exact h.waiterIssued x (by rw [reaping_cons]; exact Multiset.mem_add.mpr (Or.inr hx))

theorem counted_exec (h : GroupsCounted n (f ::ₘ others))
    (hg : GathersTasks t c f n (f ::ₘ others)) {g : Ptr} (he : (code t c f n).1.GroupExists g) :
    ((code t c f n).1.group g).numTasks =
      unreaped (code t c f n).1 ((code t c f n).2 + others) g := by
  rcases Node.groupExists_access h.groupSound he with ⟨hold, hnum, -⟩ | ⟨hnew, hzero, -, hu⟩
  · rw [h.unreaped_exec hg hold he, ← h.counted g hold]
    exact hnum
  · have hni := Pool.not_issued_of_allocate h.groupSound hnew
    have hm : members (code t c f n).1 g = ∅ := by
      refine Finset.eq_empty_of_forall_notMem fun id hid => ?_
      rcases h.mem_members_before hg he hid with ⟨hold, -⟩ | ⟨call, p, rfl, -⟩
      · exact hni (Or.inr (Or.inr hold.1))
      · cases hu
    have hr : (reaping ((code t c f n).2 + others)).count (g, none) = 0 := by
      rw [Multiset.count_eq_zero, code, reaping_add]
      intro hx
      rcases exec_reaping t c f n with ⟨hr, -⟩ | ⟨r, q, -, hu', -⟩ | ⟨q, caller, rfl, -⟩ |
        ⟨r, hu', -⟩
      · rw [hr, ← reaping_cons] at hx
        exact hni (h.waiterIssued _ hx)
      · rw [hu] at hu'
        cases hu'
      · cases hu
      · rw [hu] at hu'
        cases hu'
    rw [unreaped, hm, hr]
    exact hzero

theorem pushes_exec (h : GroupsCounted n (f ::ₘ others))
    (hg : GathersTasks t c f n (f ::ₘ others)) :
    ∀ f' ∈ (code t c f n).2 + others, ∀ p g, (p, g) ∈ f'.groupPushes →
      ((code t c f n).1.task p).group = g := by
  intro f' hf' p g hp
  rcases Multiset.mem_add.mp hf' with hf' | hf'
  · have hm : (p, g) ∈ (exec t c f n).2.flatMap Frame.groupPushes :=
      List.mem_flatMap.mpr ⟨f', hf', hp⟩
    rcases exec_groupPushes t c f n with he | ⟨ctx, rfl, he⟩
    · rw [he] at hm
      exact absurd hm List.not_mem_nil
    · rw [he, List.mem_singleton, Prod.mk.injEq] at hm
      obtain ⟨rfl, rfl⟩ := hm
      exact congrArg (fun x => x.2.2.1) (h.placement_exec hg.deletes (mem_references_of_mem
        (Multiset.mem_cons_self _ others) (List.mem_singleton_self _)) List.not_mem_nil)
  · rw [← h.pushes f' (Multiset.mem_cons_of_mem hf') p g hp]
    exact congrArg (fun x => x.2.2.1) (h.placement_others hg.deletes
      (mem_references_of_mem hf' (Frame.mem_refs_of_mem_groupPushes hp).1))

theorem ungrouped_exec (h : GroupsCounted n (f ::ₘ others))
    (hg : GathersTasks t c f n (f ::ₘ others)) :
    ∀ f' ∈ (code t c f n).2 + others, ∀ p ∈ f'.ungrouped, ¬ grouped (code t c f n).1 p := by
  intro f' hf' p hp he
  have hself := Multiset.mem_cons_self f others
  rcases Multiset.mem_add.mp hf' with hf' | hf'
  · have hm : p ∈ (exec t c f n).2.flatMap Frame.ungrouped := List.mem_flatMap.mpr ⟨f', hf', hp⟩
    rcases h.group_before hg he with ⟨hold, hsame⟩ | ⟨call, q, rfl, -⟩
    · rcases exec_ungrouped t c f n with hu | hu | ⟨q, hq, -, hu⟩
      · rw [hu] at hm
        exact h.ungrouped f hself p hm hold
      · rw [hu] at hm
        exact List.not_mem_nil hm
      · rw [hu, List.mem_singleton] at hm
        subst hm
        obtain ⟨r, hr, hid⟩ := h.member p.id hold
        have hfree := (Pool.allocate_some h.sound hq).2.2.1
        rw [← hid, hr.2.2] at hfree
        exact absurd hfree (Nat.pos_iff_ne_zero.mp hr.1)
    · exact absurd hm List.not_mem_nil
  · have hr := mem_references_of_mem (n := n) hf'
      (Frame.mem_refs_of_mem_fresh (Frame.mem_fresh_of_mem_ungrouped hp))
    refine h.ungrouped f' (Multiset.mem_cons_of_mem hf') p hp (h.grouped_exec hg p ?_ ?_ he)
    · rw [references_cons]
      exact Multiset.mem_add.mpr (Or.inr hr)
    · exact fun hfr => h.not_mem_others hfr hr

end GroupsCounted

theorem groupsCounted_preserved : Preserves code GathersTasks GroupsCounted := by
  intro t c f n others h hg
  refine ⟨workCounted_exec h.toWorkCounted hg.deletes (fun p hp _ => hg.loses p hp)
    (h.grouped_exec hg), ?_,
    fun id => ?_, h.waiterIssued_exec hg, h.pushes_exec hg, h.ungrouped_exec hg,
    h.member_exec hg, h.belongs_exec hg, h.once_exec hg, fun g he => h.counted_exec hg he⟩
  · rw [code, Node.groupPool_access]
    exact Pool.Step.sound h.groupSound (Access.keepsHandles_onGroup n _)
  · rcases n.taskGroupField_access (exec t c f n).1 id with hq | hq | ⟨p, hid, hu⟩
    · rw [show ((code t c f n).1.taskPool.storage id).group = _ from hq]
      exact groupIssued_access h.groupSound hg (h.groupIssued id)
    · exact Or.inl hq
    · refine groupIssued_access h.groupSound hg (hg.reaches _ ?_).1
      rw [hu]
      exact List.mem_singleton_self _

end Preservation

theorem groupsCounted_boot (attributes : NodeAttributes) (mode : SchedulerMode) (clients : Nat) :
    GroupsCounted (boot attributes mode clients).mem (boot attributes mode clients).frames where
  toWorkCounted := workCounted_boot grouped attributes mode clients
  groupSound := Pool.sound_init _ _
  groupIssued := fun _ => Or.inl rfl
  waiterIssued := by
    intro x hx
    obtain ⟨f, hf, hm⟩ := Multiset.mem_bind.mp hx
    rcases mem_frames_boot hf with rfl | rfl <;> exact absurd hm List.not_mem_nil
  pushes := by
    intro f hf p g hm
    rcases mem_frames_boot hf with rfl | rfl <;> exact absurd hm List.not_mem_nil
  ungrouped := fun _ _ _ _ he => absurd he.1.1 (lt_irrefl 0)
  member := fun _ he => absurd he.1.1 (lt_irrefl 0)
  belongs := fun g _ he _ => absurd he.1 (Pool.not_live_init _ _ g)
  once := fun _ _ he => absurd he.1.1 (lt_irrefl 0)
  counted := fun g he => absurd he.1 (Pool.not_live_init _ _ g)

/-- The task was started into the group and is over, and no waiter has taken it. -/
def Awaited (n : Node) (fs : Multiset Frame) (g p : Ptr) : Prop :=
  n.taskPool.Live p ∧ (n.task p).group = g ∧ ¬ Unfinished n fs p ∧ (g, some p) ∉ reaping fs

instance (n : Node) (fs : Multiset Frame) (g p : Ptr) : Decidable (Awaited n fs g p) :=
  inferInstanceAs (Decidable (_ ∧ _ ∧ _ ∧ _))

/-- No task of the group is unfinished, and no waiter has one in hand. -/
def Settled (n : Node) (fs : Multiset Frame) (g : Ptr) : Prop :=
  (∀ p, n.taskPool.Live p → (n.task p).group = g → ¬ Unfinished n fs p) ∧
    ∀ x ∈ reaping fs, x.1 ≠ g

namespace GroupsCounted

variable {n : Node} {fs : Multiset Frame} {g : Ptr}

/-- The queue of a group holds each task that waits to be reaped once, and no other. -/
theorem count_tasks (h : GroupsCounted n fs) (hg : n.GroupExists g) (p : Ptr) :
    (n.group g).queue.tasks.count p = if Awaited n fs g p then 1 else 0 := by
  have hgathered : gathered n fs g p =
      (n.group g).queue.tasks.count p + (reaping fs).count (g, some p) := rfl
  by_cases ha : Awaited n fs g p
  · obtain ⟨hp, hgroup, hu, hr⟩ := ha
    have ho := h.once p hp (by rwa [grouped, hgroup])
    rw [hgroup, if_neg hu, hgathered, Multiset.count_eq_zero.mpr hr] at ho
    rw [if_pos ⟨hp, hgroup, hu, hr⟩]
    omega
  · rw [if_neg ha]
    by_contra hne
    obtain ⟨hp, hgroup⟩ := h.belongs g p hg (by omega)
    have ho := h.once p hp (by rwa [grouped, hgroup])
    rw [hgroup] at ho
    refine ha ⟨hp, hgroup, fun hu => ?_, fun hr => ?_⟩
    · rw [if_pos hu] at ho
      omega
    · have := Multiset.count_pos.mpr hr
      omega

/-- The counter of a settled group is the length of its queue. -/
theorem numTasks_of_settled (h : GroupsCounted n fs) (hg : n.GroupExists g)
    (hs : Settled n fs g) : (n.group g).numTasks = (n.group g).queue.tasks.length := by
  have hawaited : ∀ p, p ∈ (n.group g).queue.tasks ↔ Awaited n fs g p := by
    intro p
    have hc := h.count_tasks hg p
    rw [← List.count_pos_iff, hc]
    split <;> simp_all
  have hinj : ∀ p ∈ (n.group g).queue.tasks, ∀ q ∈ (n.group g).queue.tasks,
      p.id = q.id → p = q := fun p hp q hq =>
    ((hawaited p).mp hp).1.eq_of_id ((hawaited q).mp hq).1
  have hnodup : (n.group g).queue.tasks.Nodup := by
    rw [List.nodup_iff_count_le_one]
    intro p
    rw [h.count_tasks hg p]
    split <;> omega
  have hmembers : members n g = ((n.group g).queue.tasks.map Handle.id).toFinset := by
    ext id
    rw [mem_members h.member hg, List.mem_toFinset, List.mem_map]
    constructor
    · intro hid
      obtain ⟨p, hp, rfl⟩ := h.member id (hid ▸ hg)
      exact ⟨p, (hawaited p).mpr ⟨hp, hid, hs.1 p hp hid, fun hr => hs.2 _ hr rfl⟩, rfl⟩
    · rintro ⟨p, hp, rfl⟩
      exact ((hawaited p).mp hp).2.1
  have hnone : (reaping fs).count (g, none) = 0 :=
    Multiset.count_eq_zero.mpr fun hr => hs.2 _ hr rfl
  rw [h.counted g hg, unreaped, hmembers, hnone, add_zero,
    List.toFinset_card_of_nodup (hnodup.map_on hinj), List.length_map]

end GroupsCounted

/-- A waiter that goes on takes the next task, gives its slot back and counts down. -/
theorem drain_one {s : State Node Frame} {t : Nat} {g p : Ptr} {finite : Bool} {status : Status}
    {rest : List Frame} (hs : s.callStacks[t]? = some (.waitAllPop g finite status :: rest))
    (hp : (s.mem.group g).queue.pop.2 = some p) :
    ((run code s (goes t 5)).mem.group g).numTasks = (s.mem.group g).numTasks - 1 ∧
      ((run code s (goes t 5)).mem.group g).queue = (s.mem.group g).queue.pop.1 ∧
      ∃ status', (run code s (goes t 5)).callStacks[t]? =
        some (.waitAllPop g finite status' :: rest) := by
  have h1 := step_of_stack code hs .go
  simp only [code, exec, reduceCtorEq, ↓reduceIte, hp, List.cons_append, List.nil_append] at h1
  have h2 := step_of_stack code h1.2 .go
  simp only [code, exec, List.cons_append, List.nil_append] at h2
  have h3 := step_of_stack code h2.2 .go
  simp only [code, exec, List.cons_append, List.nil_append] at h3
  have h4 := step_of_stack code h3.2 .go
  simp only [code, exec, List.cons_append, List.nil_append, DeleteCaller.resume] at h4
  have h5 := step_of_stack code h4.2 .go
  simp only [code, exec, List.cons_append, List.nil_append] at h5
  have hgroup : (run code s (goes t 5)).mem.group g =
      { s.mem.group g with
        numTasks := (s.mem.group g).numTasks + -1
        queue := (s.mem.group g).queue.pop.1 } := by
    refine (congrArg (fun n => Node.group n g) h5.1).trans ?_
    rw [h4.1, h3.1, h2.1, h1.1]
    simp only [Node.access, Node.addGroupTasks, Node.group, Node.modifyGroup_groupPool,
      Node.setTaskPool_groupPool, Node.modifyTask_groupPool, Pool.storage_modify_self]
  rw [hgroup]
  exact ⟨rfl, rfl, _, h5.2⟩

/-- A waiter that goes on alone takes all tasks of the queue. -/
theorem drain {s : State Node Frame} {t : Nat} {g : Ptr} {finite : Bool} {status : Status}
    {rest : List Frame} (hs : s.callStacks[t]? = some (.waitAllPop g finite status :: rest))
    (hnum : (s.mem.group g).numTasks = (s.mem.group g).queue.tasks.length) :
    ∃ k, ((run code s (goes t k)).mem.group g).numTasks = 0 ∧
      ((run code s (goes t k)).mem.group g).queue.tasks = [] := by
  generalize hlen : (s.mem.group g).queue.tasks.length = len at hnum
  induction len generalizing s status with
  | zero => exact ⟨0, hnum, List.length_eq_zero_iff.mp hlen⟩
  | succ len ih =>
    obtain ⟨p, hp⟩ : ∃ p, (s.mem.group g).queue.pop.2 = some p := by
      rcases (s.mem.group g).queue.pop_spec with ⟨-, htasks, -⟩ | ⟨p, hp, -⟩
      · rw [htasks] at hlen
        cases hlen
      · exact ⟨p, hp⟩
    obtain ⟨hn, hq, status', hs'⟩ := drain_one hs hp
    have htasks := TaskQueue.tasks_of_pop_some hp
    obtain ⟨k, hk⟩ := ih hs' (by
      rw [hq]
      rw [htasks, List.length_cons] at hlen
      omega) (by rw [hn]; omega)
    refine ⟨5 + k, ?_⟩
    rwa [goes, List.replicate_add, run_append]

/-- From the head of its loop, a waiter that goes on alone makes the loop condition false. -/
theorem waitAll_reaps {s : State Node Frame} {t : Nat} {g : Ptr} {finite : Bool}
    {status : Status} {rest : List Frame}
    (hs : s.callStacks[t]? = some (.waitAllLoop g finite status :: rest))
    (hnum : (s.mem.group g).numTasks = (s.mem.group g).queue.tasks.length) :
    ∃ k, ((run code s (goes t k)).mem.group g).numTasks = 0 ∧
      ((run code s (goes t k)).mem.group g).queue.tasks = [] := by
  by_cases hz : (s.mem.group g).numTasks = 0
  · have hl : (s.mem.group g).queue.tasks.length = 0 := by omega
    exact ⟨0, hz, List.length_eq_zero_iff.mp hl⟩
  · have h1 := step_of_stack code hs .go
    simp only [code, exec, ne_eq, hz, not_false_eq_true, ↓reduceIte, List.cons_append,
      List.nil_append] at h1
    have h2 := step_of_stack code h1.2 .go
    simp only [code, exec, reduceCtorEq, and_false, ↓reduceIte, List.cons_append,
      List.nil_append] at h2
    obtain ⟨k, hk⟩ := drain h2.2 (by rw [h2.1, h1.1]; exact hnum)
    refine ⟨2 + k, ?_⟩
    rwa [goes, List.replicate_add, run_append]

/-- In every run that keeps to the guard, the counter of a group that exists is the number
of its tasks that were not reaped, and its queue holds those of them that are over and
that no waiter has taken, each once. Once all tasks of the group are over,
`mtapi_group_wait_all` reaps them and its loop condition becomes false. -/
theorem group_bookkeeping (attributes : NodeAttributes) (mode : SchedulerMode) (clients : Nat)
    (es : List (Nat × Choice))
    (hg : Always code GathersTasks (boot attributes mode clients) es) (g : Ptr)
    (hgr : (run code (boot attributes mode clients) es).mem.GroupExists g) :
    ((run code (boot attributes mode clients) es).mem.group g).numTasks =
        unreaped (run code (boot attributes mode clients) es).mem
          (run code (boot attributes mode clients) es).frames g ∧
      (∀ p, ((run code (boot attributes mode clients) es).mem.group g).queue.tasks.count p =
        if Awaited (run code (boot attributes mode clients) es).mem
          (run code (boot attributes mode clients) es).frames g p then 1 else 0) ∧
      (Settled (run code (boot attributes mode clients) es).mem
          (run code (boot attributes mode clients) es).frames g →
        ∀ t finite status rest,
          (run code (boot attributes mode clients) es).callStacks[t]? =
              some (.waitAllLoop g finite status :: rest) →
            ∃ k, ((run code (boot attributes mode clients) (es ++ goes t k)).mem.group g).numTasks
                = 0 ∧
              ((run code (boot attributes mode clients) (es ++ goes t k)).mem.group g).queue.tasks
                = []) := by
  have hinv := groupsCounted_preserved.run hg (groupsCounted_boot attributes mode clients)
  refine ⟨hinv.counted g hgr, hinv.count_tasks hgr, fun hs t finite status rest ht => ?_⟩
  simp only [run_append]
  exact waitAll_reaps ht (hinv.numTasks_of_settled hgr hs)

/-- A test that is enough for the guard: no slot is deleted, no instance dropped or lost,
and the queue of the group has room. -/
def gatherTest (_ : Nat) (_ : Choice) (f : Frame) (n : Node) : Bool :=
  match f with
  | .taskDelete .. | .taskDeallocate .. | .groupDeallocate .. | .workerCancelledTodo ..
  | .waitAllCount .. | .waitAnyCount .. => false
  | .startGroupCount call _ =>
    decide (n.groupPool.Live call.group ∧ call.attributes.numInstances ≠ 0)
  | .executeGroupPush _ g =>
    decide (n.groupPool.Live g ∧ (n.group g).queue.tasks.length < (n.group g).queue.limit)
  | .waitAllPop g _ _ | .waitAnyPop g _ => decide (n.groupPool.Live g)
  | f => (f.loses n).isEmpty

theorem gathersTasks_of_test (t : Nat) (c : Choice) (f : Frame) (n : Node) (fs : Multiset Frame)
    (h : gatherTest t c f n = true) : GathersTasks t c f n fs where
  deletes := by rintro p caller (rfl | rfl) <;> cases h
  wraps := by
    rintro g status rfl
    cases h
  reaches := by
    intro g hg
    have hlive : n.groupPool.Live g := by
      have hi := exec_issuedBy t c f n
      cases hu : (exec t c f n).1 with
      | taskGroup p r =>
        rw [hu] at hg hi
        cases r with
        | none => exact absurd hg List.not_mem_nil
        | some r =>
          obtain ⟨call, rfl, rfl⟩ := hi
          rw [List.mem_singleton.mp hg]
          exact (of_decide_eq_true h).1
      | groupTasks r d =>
        rw [hu] at hi
        obtain ⟨finite, status, -, rfl⟩ | ⟨status, -, rfl⟩ := hi <;> cases h
      | groupPush r p =>
        rw [hu] at hg hi
        obtain ⟨ctx, -, rfl⟩ := hi
        rw [List.mem_singleton.mp hg]
        exact (of_decide_eq_true h).1
      | groupPop r =>
        rw [hu] at hg hi
        rw [List.mem_singleton.mp hg]
        obtain ⟨finite, status, rfl⟩ | ⟨finite, rfl⟩ := hi <;> exact of_decide_eq_true h
      | _ =>
        rw [hu] at hg
        exact absurd hg List.not_mem_nil
    exact ⟨Or.inr (Or.inr hlive), fun g' hg' hid => hg'.1.eq_of_id hlive hid⟩
  instances := by
    rintro call p rfl -
    exact (of_decide_eq_true h).2
  loses := by
    intro p hp
    unfold gatherTest at h
    split at h
    all_goals first
      | cases h
      | exact absurd hp List.not_mem_nil
      | rw [List.isEmpty_iff.mp h] at hp
        exact absurd hp List.not_mem_nil
  cancelled := by
    rintro p lq rfl
    cases h
  room := by
    rintro ctx g rfl -
    exact (of_decide_eq_true h).2
  reaps := by
    rintro p caller rfl
    cases h
  gives := by
    rintro p caller rfl
    cases h

/-- A task is started into a group and executed by the worker. -/
def startIntoGroup : List (Nat × Choice) :=
  calls 1 (.actionCreate 1 none) 4 ++ calls 1 .groupCreate 3 ++
    calls 1 (.taskStart ⟨0, 1⟩ none ⟨0, 1⟩) 20 ++ goes 0 10 ++ [(0, .leave)] ++ goes 0 5

/-- Once the task is over, the group counts it and holds it. -/
theorem group_bookkeeping_started :
    ((run code (boot (smallNode 1) .workStealVhpf 1) startIntoGroup).mem.group
        ⟨0, 1⟩).numTasks =
      unreaped (run code (boot (smallNode 1) .workStealVhpf 1) startIntoGroup).mem
        (run code (boot (smallNode 1) .workStealVhpf 1) startIntoGroup).frames ⟨0, 1⟩ :=
  (group_bookkeeping (smallNode 1) .workStealVhpf 1 startIntoGroup
    (Always.of_checked gathersTasks_of_test (by decide)) ⟨0, 1⟩ (by decide)).1

/-- The task is cancelled while it lies in the queue of the worker, which then drops it. -/
def startIntoGroupAndCancel : List (Nat × Choice) :=
  calls 1 (.actionCreate 1 none) 4 ++ calls 1 .groupCreate 3 ++
    calls 1 (.taskStart ⟨0, 1⟩ none ⟨0, 1⟩) 20 ++ calls 1 (.taskCancel ⟨0, 1⟩) 4 ++ goes 0 8

/-- A client that waits without a timeout goes round as long as the counter is not zero
and the queue is empty. -/
theorem waitAll_goes_round {n : Node} {g : Ptr} (hn : (n.group g).numTasks ≠ 0)
    (hq : (n.group g).queue.pop.2 = none) {t : Nat} (ht : ¬ t < n.workerCount) (c : Choice)
    (status : Status) :
    exec t c (.waitAllLoop g false status) n = (.read, [.waitAllTimeout g false status]) ∧
      exec t c (.waitAllTimeout g false status) n = (.read, [.waitAllPop g false status]) ∧
      exec t c (.waitAllPop g false status) n = (.read, [.waitAllLoop g false status]) := by
  refine ⟨?_, ?_, ?_⟩
  · simp only [exec, ne_eq, hn, not_false_eq_true, ↓reduceIte]
  · simp only [exec, Bool.false_eq_true, false_and, ↓reduceIte]
  · simp only [exec, hq, Node.executeTaskOrYield, if_neg ht, ite_self]

/-- The group is not told of the cancelled task: nothing is left to do for it, it is not in
the queue of the group, and `mtapi_group_wait_all` goes round for ever. -/
theorem group_bookkeeping_cancelled :
    (run code (boot (smallNode 1) .workStealVhpf 1) startIntoGroupAndCancel).mem.GroupExists
        ⟨0, 1⟩ ∧
      ((run code (boot (smallNode 1) .workStealVhpf 1) startIntoGroupAndCancel).mem.task
        ⟨0, 1⟩).state = .cancelled ∧
      ¬ Unfinished (run code (boot (smallNode 1) .workStealVhpf 1) startIntoGroupAndCancel).mem
        (run code (boot (smallNode 1) .workStealVhpf 1) startIntoGroupAndCancel).frames ⟨0, 1⟩ ∧
      ((run code (boot (smallNode 1) .workStealVhpf 1) startIntoGroupAndCancel).mem.group
        ⟨0, 1⟩).queue.tasks = [] ∧
      ((run code (boot (smallNode 1) .workStealVhpf 1) startIntoGroupAndCancel).mem.group
        ⟨0, 1⟩).numTasks = 1 ∧
      ∀ c status, exec 1 c (.waitAllPop ⟨0, 1⟩ false status)
        (run code (boot (smallNode 1) .workStealVhpf 1) startIntoGroupAndCancel).mem =
          (.read, [.waitAllLoop ⟨0, 1⟩ false status]) := by
  refine ⟨by decide +kernel, by decide +kernel, by decide +kernel, by decide +kernel,
    by decide +kernel, fun c status => (waitAll_goes_round ?_ ?_ ?_ c status).2.2⟩
  · decide +kernel
  · decide +kernel
  · decide +kernel

end Embb.Mtapi
