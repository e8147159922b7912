import Embb.Mtapi.Scheduler.InFlight

/-!
# The task counter of an action

`num_tasks` of an action counts its instances in flight as long as every instance
that leaves is counted down. The guard names the steps at which the code does not:
an instance dropped as cancelled or for its state, a retained task that is counted
again, and counters that are reached through a pointer to an action that is gone.
-/

namespace Embb.Mtapi

open Threads

/-- The accesses that leave handles and counters of actions alone. -/
def Access.keepsActions : Access → Bool
  | .actionTasks _ _ | .actionCreate _ _ | .actionDeallocate _ => false
  | _ => true

namespace Node

theorem actionPool_access (n : Node) {u : Access} (h : u.keepsActions = true) :
    (n.access u).actionPool.idPool = n.actionPool.idPool ∧
      ∀ id, handle ((n.access u).actionPool.storage id) = handle (n.actionPool.storage id) ∧
        ((n.access u).actionPool.storage id).numTasks = (n.actionPool.storage id).numTasks := by
  cases u with
  | actionTasks | actionCreate | actionDeallocate => cases h
  | actionEnabled a enabled =>
    refine ⟨rfl, fun id => ⟨?_, ?_⟩⟩
    · exact n.actionPool.field_modify a.id id Action.handle (f := ({ · with enabled := enabled }))
        fun _ => rfl
    · exact n.actionPool.field_modify a.id id Action.numTasks
        (f := ({ · with enabled := enabled })) fun _ => rfl
  | taskGroup p g => cases g <;> exact ⟨rfl, fun _ => ⟨rfl, rfl⟩⟩
  | taskQueue p q => cases q <;> exact ⟨rfl, fun _ => ⟨rfl, rfl⟩⟩
  | queueCreate queueId job attributes =>
    simp only [access, createQueue]
    split <;> exact ⟨rfl, fun _ => ⟨rfl, rfl⟩⟩
  | groupCreate =>
    simp only [access, createGroup]
    split <;> exact ⟨rfl, fun _ => ⟨rfl, rfl⟩⟩
  | _ => exact ⟨rfl, fun _ => ⟨rfl, rfl⟩⟩

/-- Counting changes no handle, and the counter of one slot. -/
theorem actionPool_addActionTasks (n : Node) (a : Ptr) (d : Int) :
    (n.addActionTasks a d).actionPool.idPool = n.actionPool.idPool ∧
      (∀ id, handle ((n.addActionTasks a d).actionPool.storage id) =
        handle (n.actionPool.storage id)) ∧
      ((n.addActionTasks a d).action a).numTasks = (n.action a).numTasks + d ∧
      ∀ b : Ptr, b.id ≠ a.id → (n.addActionTasks a d).action b = n.action b := by
  refine ⟨rfl, fun id => ?_, ?_, fun b hb => ?_⟩
  · exact n.actionPool.field_modify a.id id Action.handle
      (f := fun x => { x with numTasks := x.numTasks + d }) fun _ => rfl
  · simp only [addActionTasks, action_modifyAction_self]
  · rw [addActionTasks, action_modifyAction_of_ne n _ hb]

/-- A new action gets a fresh slot, and its counter starts at zero. -/
theorem actionPool_createAction (n : Node) (jobId : Nat) (attributes : ActionAttributes) :
    (n.createAction jobId attributes).actionPool.idPool = n.actionPool.allocate.1.idPool ∧
      (∀ id, handle ((n.createAction jobId attributes).actionPool.storage id) =
        handle (n.actionPool.allocate.1.storage id)) ∧
      (∀ a, n.actionPool.allocate.2 = some a →
        ((n.createAction jobId attributes).action a).numTasks = 0) ∧
      ∀ b : Ptr, (∀ a, n.actionPool.allocate.2 = some a → b.id ≠ a.id) →
        ((n.createAction jobId attributes).action b).numTasks = (n.action b).numTasks := by
  have hkeep : ∀ id, (n.actionPool.allocate.1.storage id).numTasks =
      (n.actionPool.storage id).numTasks :=
    fun id => n.actionPool.field_allocate Action.numTasks (fun _ _ => rfl) id
  unfold createAction
  split
  · rename_i a ha
    refine ⟨rfl, fun id => ?_, fun b hb => ?_, fun b hb => ?_⟩
    · exact n.actionPool.allocate.1.field_modify a.id id Action.handle
        (f := fun x => x.create jobId attributes) fun _ => rfl
    · rw [ha, Option.some.injEq] at hb
      subst hb
      simp only [action_modifyAction_self, Action.create]
    · have hs := n.actionPool.allocate.1.storage_modify_of_ne
        (fun x => x.create jobId attributes) (hb a ha)
      exact (congrArg Action.numTasks hs).trans (hkeep b.id)
  · rename_i ha
    refine ⟨rfl, fun _ => rfl, fun b hb => ?_, fun b _ => hkeep b.id⟩
    rw [ha] at hb
    cases hb

theorem actionSound_access {n : Node} (h : n.actionPool.Sound) (u : Access) :
    (n.access u).actionPool.Sound := by
  by_cases hu : u.keepsActions = true
  · obtain ⟨hi, hs⟩ := n.actionPool_access hu
    exact h.congr hi fun id => (hs id).1
  · cases u with
    | actionTasks a d =>
      obtain ⟨hi, hs, -⟩ := n.actionPool_addActionTasks a d
      exact h.congr hi hs
    | actionCreate jobId attributes =>
      obtain ⟨hi, hs, -⟩ := n.actionPool_createAction jobId attributes
      exact (Pool.sound_allocate h).congr hi hs
    | actionDeallocate a => exact Pool.sound_deallocate h a
    | _ => exact absurd rfl hu

/-- Issued handles stay issued as long as no tag wraps around. -/
theorem actionIssued_access {n : Node} (h : n.actionPool.Sound) {u : Access}
    (hw : ∀ a, u = .actionDeallocate a → (n.action a).handle.tag + 1 < uintRange) {x : Handle}
    (hx : n.actionPool.Issued x) : (n.access u).actionPool.Issued x := by
  by_cases hu : u.keepsActions = true
  · obtain ⟨hi, hs⟩ := n.actionPool_access hu
    exact hx.congr hi (hs x.id).1
  · cases u with
    | actionTasks a d =>
      obtain ⟨hi, hs, -⟩ := n.actionPool_addActionTasks a d
      exact hx.congr hi (hs x.id)
    | actionCreate jobId attributes =>
      obtain ⟨hi, hs, -⟩ := n.actionPool_createAction jobId attributes
      exact (hx.allocate h).congr hi (hs x.id)
    | actionDeallocate a => exact hx.deallocate (hw a rfl)
    | _ => exact absurd rfl hu

/-- What an access adds to the counter of an action. -/
def actionDelta (u : Access) (a : Ptr) : Int :=
  match u with
  | .actionTasks b d => if b.id = a.id then d else 0
  | _ => 0

/-- An action that exists after an access existed before, and its counter follows the access,
or it is a new action with nothing to count. -/
theorem actionLive_cases {n : Node} (hs : n.actionPool.Sound) {u : Access} {a : Ptr}
    (ha : (n.access u).actionPool.Live a) :
    (n.actionPool.Live a ∧
        ((n.access u).action a).numTasks = (n.action a).numTasks + actionDelta u a) ∨
      (n.actionPool.allocate.2 = some a ∧ ((n.access u).action a).numTasks = 0 ∧
        ∃ jobId attributes, u = .actionCreate jobId attributes) := by
  by_cases hu : u.keepsActions = true
  · obtain ⟨hi, hh⟩ := n.actionPool_access hu
    refine Or.inl ⟨ha.congr hi.symm (hh a.id).1.symm, ?_⟩
    have hd : actionDelta u a = 0 := by
      cases u with
      | actionTasks => cases hu
      | _ => rfl
    rw [hd, add_zero]
    exact (hh a.id).2
  · cases u with
    | actionTasks b d =>
      obtain ⟨hi, hh, hself, hne⟩ := n.actionPool_addActionTasks b d
      refine Or.inl ⟨ha.congr hi.symm (hh a.id).symm, ?_⟩
      by_cases hab : a.id = b.id
      · have he : actionDelta (.actionTasks b d) a = d := if_pos hab.symm
        rw [he, access, action, action, hab]
        exact hself
      · have he : actionDelta (.actionTasks b d) a = 0 := if_neg fun h => hab h.symm
        rw [he, access, hne a hab, add_zero]
    | actionCreate jobId attributes =>
      obtain ⟨hi, hh, hzero, hkeep⟩ := n.actionPool_createAction jobId attributes
      have halloc : n.actionPool.allocate.1.Live a := ha.congr hi.symm (hh a.id).symm
      by_cases hnew : n.actionPool.allocate.2 = some a
      · exact Or.inr ⟨hnew, hzero a hnew, jobId, attributes, rfl⟩
      · have hid : ∀ b, n.actionPool.allocate.2 = some b → a.id ≠ b.id := fun b hb hab =>
          hnew (halloc.eq_of_id (Pool.live_allocate hs hb) hab ▸ hb)
        exact Or.inl ⟨halloc.of_allocate hs hid, (hkeep a hid).trans (add_zero _).symm⟩
    | actionDeallocate b =>
      have hne : a.id ≠ b.id := fun hab => Pool.not_live_deallocate n.actionPool hab ha
      refine Or.inl ⟨ha.of_deallocate hne, ?_⟩
      rw [show actionDelta (.actionDeallocate b) a = 0 from rfl, add_zero]
      exact congrArg Action.numTasks (Pool.storage_deallocate_of_ne n.actionPool b hne)
    | _ => exact absurd rfl hu

/-- The action of a task slot is what it was, none, or what a start call assigns. -/
theorem taskAction_access (n : Node) (u : Access) (id : Nat) :
    ((n.access u).taskPool.storage id).action = (n.taskPool.storage id).action ∨
      ((n.access u).taskPool.storage id).action.id = idPoolInvalidId ∨
      ∃ p, u = .taskAction p ((n.access u).taskPool.storage id).action := by
  by_cases hp : ∀ p ∈ u.places, p.id ≠ id
  · exact Or.inl (congrArg (fun x => x.2.2.2.2) (n.placement_access u hp))
  · simp only [not_forall, not_not] at hp
    obtain ⟨p, hp, rfl⟩ := hp
    cases u with
    | taskGroup q g =>
      refine Or.inl (n.taskField_access rfl Task.action p.id fun p' f ho _ => ?_)
      cases g <;> cases ho <;> rfl
    | taskQueue q g =>
      refine Or.inl (n.taskField_access rfl Task.action p.id fun p' f ho _ => ?_)
      cases g <;> cases ho <;> rfl
    | taskInit q call =>
      rw [List.mem_singleton.mp hp]
      refine Or.inr (Or.inl ?_)
      simp only [access, modifyTask_taskPool, Pool.storage_modify_self]
      rfl
    | taskFinalize q =>
      rw [List.mem_singleton.mp hp]
      refine Or.inr (Or.inl ?_)
      simp only [access, modifyTask_taskPool, Pool.storage_modify_self]
      rfl
    | taskDeallocate q =>
      rw [List.mem_singleton.mp hp]
      refine Or.inr (Or.inl ?_)
      simp only [access, setTaskPool_taskPool, Pool.deallocate, Pool.setIdPool_storage,
        Pool.storage_modify_self]
      rfl
    | taskAction q a =>
      rw [List.mem_singleton.mp hp]
      refine Or.inr (Or.inr ⟨q, ?_⟩)
      simp only [access, modifyTask_taskPool, Pool.storage_modify_self]
    | _ => exact absurd hp List.not_mem_nil

/-- The entries of a job are old entries or the action that is added. -/
theorem jobEntry_access (n : Node) (u : Access) (id ii : Nat) :
    (∃ jj, ((n.access u).jobList id).actions ii = (n.jobList id).actions jj) ∨
      ∃ jobId, u = .jobAdd jobId (((n.access u).jobList id).actions ii) := by
  cases u with
  | jobAdd jobId a =>
    by_cases hid : id = jobId
    · subst hid
      simp only [access, setJob_jobList, Function.update_self, Job.addAction]
      split
      · by_cases hii : ii = (n.jobList id).numActions
        · subst hii
          exact Or.inr ⟨id, by simp only [Function.update_self]⟩
        · exact Or.inl ⟨ii, by simp only [Function.update_of_ne hii]⟩
      · exact Or.inl ⟨ii, rfl⟩
    · exact Or.inl ⟨ii, by simp only [access, setJob_jobList, Function.update_of_ne hid]⟩
  | jobRemove jobId a =>
    left
    by_cases hid : id = jobId
    · subst hid
      simp only [access, setJob_jobList, Function.update_self, Job.removeAction]
      split
      · exact ⟨_, rfl⟩
      · exact ⟨ii, rfl⟩
    · exact ⟨ii, by simp only [access, setJob_jobList, Function.update_of_ne hid]⟩
  | taskGroup p g => cases g <;> exact Or.inl ⟨ii, rfl⟩
  | taskQueue p q => cases q <;> exact Or.inl ⟨ii, rfl⟩
  | actionCreate =>
    simp only [access, createAction]
    split <;> exact Or.inl ⟨ii, rfl⟩
  | queueCreate =>
    simp only [access, createQueue]
    split <;> exact Or.inl ⟨ii, rfl⟩
  | groupCreate =>
    simp only [access, createGroup]
    split <;> exact Or.inl ⟨ii, rfl⟩
  | _ => exact Or.inl ⟨ii, rfl⟩

end Node

/-- The action whose counter a program point changes. -/
def Frame.countsAction : Frame → List Ptr
  | .executeNumTasks _ a _ | .scheduleCount _ _ a _ _ | .scheduleUndo _ a _ => [a]
  | _ => []

/-- The steps that keep the counters of actions exact. -/
structure CountsInstances (t : Nat) (c : Choice) (f : Frame) (n : Node) (fs : Multiset Frame) :
    Prop where
  /-- A task slot is deleted only when nothing refers to it. -/
  deletes : deletesUnreferenced t c f n fs
  /-- The tag of an action slot does not wrap around. -/
  wraps : ∀ a status, f = .actionDeallocate a status →
    (n.action a).handle.tag + 1 < uintRange
  /-- A counter is reached through a pointer to an action that still exists. -/
  reaches : ∀ a ∈ f.countsAction, n.actionPool.Live a
  /-- No instance of an existing action is dropped as cancelled. -/
  cancelled : ∀ p lq, f = .workerCancelledTodo p lq →
    n.actionPool.isHandleValid (n.task p).action = false
  /-- No instance of an existing action is dropped because of another state. -/
  skipped : ∀ p lq, f = .workerSwitch p lq →
    (n.task p).state ∈ [TaskState.scheduled, .running, .retained, .cancelled] ∨
      n.actionPool.isHandleValid (n.task p).action = false
  /-- No retained task is scheduled, and counted, again. -/
  retained : ∀ p ii a affinity, f ≠ .scheduleCount p ii a affinity .retained

/-- Every action that exists counts its instances in flight. -/
structure ActionsCounted (n : Node) (fs : Multiset Frame) : Prop extends TasksOwned n fs where
  actionSound : n.actionPool.Sound
  taskIssued : ∀ id, n.actionPool.Issued (n.taskPool.storage id).action
  jobIssued : ∀ id ii, n.actionPool.Issued ((n.jobList id).actions ii)
  flightIssued : ∀ a ∈ inFlight n fs, n.actionPool.Issued a
  scheduled : ∀ f ∈ fs, ∀ p a, (p, a) ∈ f.schedules → (n.task p).action = a
  counted : ∀ a, n.actionPool.Live a → (n.action a).numTasks = (inFlight n fs).count a

/-- The handles of actions that tasks, jobs and threads hold were issued. -/
structure ActionsOwned (n : Node) (fs : Multiset Frame) : Prop extends TasksOwned n fs where
  actionSound : n.actionPool.Sound
  taskIssued : ∀ id, n.actionPool.Issued (n.taskPool.storage id).action
  jobIssued : ∀ id ii, n.actionPool.Issued ((n.jobList id).actions ii)
  flightIssued : ∀ a ∈ inFlight n fs, n.actionPool.Issued a
  scheduled : ∀ f ∈ fs, ∀ p a, (p, a) ∈ f.schedules → (n.task p).action = a

theorem ActionsCounted.owned {n : Node} {fs : Multiset Frame} (h : ActionsCounted n fs) :
    ActionsOwned n fs :=
  ⟨h.toTasksOwned, h.actionSound, h.taskIssued, h.jobIssued, h.flightIssued, h.scheduled⟩

theorem Frame.mem_refs_of_mem_schedules {f : Frame} {p a : Ptr} (h : (p, a) ∈ f.schedules) :
    p ∈ f.refs := by
  unfold Frame.schedules at h
  split at h
  all_goals first
    | exact absurd h List.not_mem_nil
    | rw [List.mem_singleton, Prod.mk.injEq] at h
      exact List.mem_singleton.mpr h.1

theorem Frame.fresh_of_mem_schedules {f : Frame} {pa : Ptr × Ptr} (h : pa ∈ f.schedules) :
    f.fresh = [] := by
  unfold Frame.schedules at h
  split at h
  all_goals first | rfl | exact absurd h List.not_mem_nil

theorem Frame.schedules_of_refs {f : Frame} (h : f.refs = []) : f.schedules = [] :=
  Frame.eq_nil_of_refs (fun _ hx => mem_refs_of_mem_schedules hx) h

theorem schedules_contextResume (ctx : Context) (done : Bool) :
    (ctx.resume done).flatMap Frame.schedules = [] :=
  flatMap_contextResume (fun _ _ => rfl) (fun _ => rfl) ctx done

theorem schedules_scheduleResume (caller : ScheduleCaller) (p : Ptr) (pushed : Bool) :
    (caller.resume p pushed).flatMap Frame.schedules = [] :=
  flatMap_scheduleResume (fun _ _ _ _ => rfl) (fun _ => rfl) caller p pushed

theorem schedules_executeTaskOrYield (n : Node) (t : Nat) {back : Frame} (h : back.refs = []) :
    (n.executeTaskOrYield t back).flatMap Frame.schedules = [] := by
  rw [flatMap_executeTaskOrYield fun _ => rfl, Frame.schedules_of_refs h]

/-- A schedule call keeps the action that it fetched from its task. -/
theorem exec_schedules (t : Nat) (c : Choice) (f : Frame) (n : Node) :
    (exec t c f n).2.flatMap Frame.schedules = f.schedules ∨
      (exec t c f n).2.flatMap Frame.schedules = [] ∨
      ∃ p, p ∈ f.refs ∧ f.fresh = [] ∧
        (exec t c f n).2.flatMap Frame.schedules = [(p, (n.task p).action)] := by
  fun_cases exec t c f n
  all_goals first
    | exact Or.inl rfl
    | exact Or.inr (Or.inl rfl)
    | exact Or.inr (Or.inl (schedules_contextResume _ _))
    | exact Or.inr (Or.inl (schedules_executeTaskOrYield _ _ rfl))
    | exact Or.inr (Or.inl (schedules_scheduleResume _ _ _))
    | exact Or.inr (Or.inr ⟨_, List.mem_singleton_self _, rfl, rfl⟩)
    | rw [List.flatMap_cons, Frame.schedules_of_refs (refs_entry _ _)]
      exact Or.inr (Or.inl rfl)
    | rw [List.flatMap_cons, Frame.schedules_of_refs (refs_deleteResume _)]
      exact Or.inr (Or.inl rfl)
    | rw [List.flatMap_cons, Frame.schedules_of_refs (refs_visitorResume _ _ _)]
      exact Or.inr (Or.inl rfl)

/-- An instance that leaves without being counted down has lost its action. -/
theorem leaves_invalid {t : Nat} {c : Choice} {f : Frame} {n : Node} {fs : Multiset Frame}
    (hg : CountsInstances t c f n fs) {a : Handle} (ha : a ∈ f.leaves n) :
    a ∈ f.countsAction ∨ n.actionPool.isHandleValid a = false := by
  unfold Frame.leaves at ha
  split at ha
  · exact Or.inl ha
  · exact Or.inl ha
  · rename_i p lq
    rw [List.mem_singleton.mp ha]
    exact Or.inr (hg.cancelled p lq rfl)
  · rename_i p lq
    have hs := hg.skipped p lq rfl
    split at ha
    all_goals first
      | exact absurd ha List.not_mem_nil
      | rename_i h1 h2 h3 h4
        rw [List.mem_singleton.mp ha]
        refine Or.inr (hs.resolve_left fun hm => ?_)
        simp only [List.mem_cons, List.not_mem_nil, or_false] at hm
        tauto
  · split at ha
    · exact absurd ha List.not_mem_nil
    · rename_i hv
      rw [List.mem_singleton.mp ha]
      exact Or.inr (Bool.eq_false_iff.mpr hv)
  · split at ha
    · exact absurd ha List.not_mem_nil
    · rename_i p ii caller hv
      cases caller with
      | start => exact absurd ha List.not_mem_nil
      | retained =>
        rw [List.mem_singleton.mp ha]
        exact Or.inr (Bool.eq_false_iff.mpr hv)
  · exact absurd ha List.not_mem_nil

section Preservation

variable {t : Nat} {c : Choice} {f : Frame} {n : Node} {others : Multiset Frame}

theorem ActionsOwned.flight (h : ActionsOwned n (f ::ₘ others))
    (hd : deletesUnreferenced t c f n (f ::ₘ others)) (a : Handle) :
    (inFlight n (f ::ₘ others)).count a + f.enters.count a =
      (inFlight (code t c f n).1 ((code t c f n).2 + others)).count a +
        (f.leaves n).count a := by
  have he := congrArg (Multiset.count a) (inFlight_exec h.toTasksOwned hd fun p a hpa =>
    h.scheduled f (Multiset.mem_cons_self f others) p a hpa)
  simpa only [Multiset.count_add, Multiset.coe_count] using he

/-- A new action has no instance in flight. -/
theorem ActionsOwned.flight_created (h : ActionsOwned n (f ::ₘ others))
    (hd : deletesUnreferenced t c f n (f ::ₘ others)) {a : Ptr} {jobId : Nat}
    {attributes : ActionAttributes} (hu : (exec t c f n).1 = .actionCreate jobId attributes)
    (hnew : n.actionPool.allocate.2 = some a) :
    (inFlight (code t c f n).1 ((code t c f n).2 + others)).count a = 0 := by
  have hflight := h.flight hd a
  have hf : f.enters = [] := by
    have hi := exec_issuedBy t c f n
    rw [hu] at hi
    obtain ⟨attributes', rfl⟩ := hi
    rfl
  have hold : (inFlight n (f ::ₘ others)).count a = 0 := Multiset.count_eq_zero.mpr fun hm =>
    Pool.not_issued_of_allocate h.actionSound hnew (h.flightIssued a hm)
  rw [hf, List.count_nil, hold] at hflight
  omega

/-- A counted instance enters together with the increment, and leaves together with
the decrement. -/
theorem enters_leaves_of_actionTasks (hg : CountsInstances t c f n (f ::ₘ others)) {b : Ptr}
    {d : Int} (hu : (exec t c f n).1 = .actionTasks b d) :
    n.actionPool.Live b ∧
      ((d = 1 ∧ f.enters = [b] ∧ f.leaves n = []) ∨
        (d = -1 ∧ f.enters = [] ∧ f.leaves n = [b])) := by
  have hi := exec_issuedBy t c f n
  rw [hu] at hi
  obtain ⟨ctx, todo, rfl, rfl⟩ | ⟨p, ii, affinity, caller, rfl, rfl⟩ | ⟨p, caller, rfl, rfl⟩ := hi
  · exact ⟨hg.reaches b (List.mem_singleton_self b), Or.inr ⟨rfl, rfl, rfl⟩⟩
  · cases caller with
    | start => exact ⟨hg.reaches b (List.mem_singleton_self b), Or.inl ⟨rfl, rfl, rfl⟩⟩
    | retained => exact absurd rfl (hg.retained p ii b affinity)
  · exact ⟨hg.reaches b (List.mem_singleton_self b), Or.inr ⟨rfl, rfl, rfl⟩⟩

/-- Where no counter changes, no instance of an existing action enters or leaves. -/
theorem enters_leaves_of_keeps (hg : CountsInstances t c f n (f ::ₘ others))
    (hu : ∀ b d, (exec t c f n).1 ≠ .actionTasks b d) {a : Handle}
    (ha : n.actionPool.isHandleValid a = true) :
    f.enters.count a = 0 ∧ (f.leaves n).count a = 0 := by
  have hcount : f.countsAction = [] := by
    unfold Frame.countsAction
    split
    · rename_i ctx b todo
      exact absurd (by simp only [exec]; split <;> rfl) (hu b (-1))
    · rename_i p ii b affinity caller
      exact absurd (by simp only [exec]; split <;> rfl) (hu b 1)
    · rename_i p b caller
      exact absurd rfl (hu b (-1))
    · rfl
  constructor
  · refine List.count_eq_zero.mpr fun hm => ?_
    unfold Frame.enters at hm
    split at hm
    · cases hcount
    · exact List.not_mem_nil hm
  · refine List.count_eq_zero.mpr fun hm => ?_
    rcases leaves_invalid hg hm with hm | hm
    · rw [hcount] at hm
      exact List.not_mem_nil hm
    · rw [ha] at hm
      cases hm

theorem counted_exec (h : ActionsCounted n (f ::ₘ others))
    (hg : CountsInstances t c f n (f ::ₘ others)) {a : Ptr}
    (ha : (code t c f n).1.actionPool.Live a) :
    ((code t c f n).1.action a).numTasks =
      (inFlight (code t c f n).1 ((code t c f n).2 + others)).count a := by
  have hflight := h.owned.flight hg.deletes a
  rcases Node.actionLive_cases h.actionSound ha with ⟨hlive, hnum⟩ | ⟨hnew, hzero, jobId, att, hu⟩
  · have hold := h.counted a hlive
    have hnum' : ((code t c f n).1.action a).numTasks =
        (n.action a).numTasks + Node.actionDelta (exec t c f n).1 a := hnum
    rw [hnum', hold]
    by_cases hu : ∃ b d, (exec t c f n).1 = .actionTasks b d
    · obtain ⟨b, d, hu⟩ := hu
      obtain ⟨hb, hd⟩ := enters_leaves_of_actionTasks hg hu
      rw [hu]
      by_cases hab : b.id = a.id
      · have hab' := hb.eq_of_id hlive hab
        subst hab'
        rw [Node.actionDelta, if_pos rfl]
        obtain ⟨rfl, h1, h2⟩ | ⟨rfl, h1, h2⟩ := hd
        all_goals
          rw [h1, h2] at hflight
          simp only [List.count_singleton_self, List.count_nil] at hflight
          omega
      · rw [Node.actionDelta, if_neg hab]
        have hab' : (b == a) = false := by
          simp only [beq_eq_false_iff_ne, ne_eq]
          rintro rfl
          exact hab rfl
        obtain ⟨-, h1, h2⟩ | ⟨-, h1, h2⟩ := hd
        all_goals
          rw [h1, h2] at hflight
          simp only [List.count_singleton, List.count_nil, hab', Bool.false_eq_true,
            ↓reduceIte] at hflight
          omega
    · have hz := enters_leaves_of_keeps hg (fun b d he => hu ⟨b, d, he⟩) hlive.valid
      have hd : Node.actionDelta (exec t c f n).1 a = 0 := by
        unfold Node.actionDelta
        split
        · rename_i b d he
          exact absurd ⟨b, d, he⟩ hu
        · rfl
      omega
  · rw [h.owned.flight_created hg.deletes hu hnew]
    exact hzero

/-- Issued handles stay issued as long as no tag wraps around. -/
theorem ActionsOwned.issued_exec (h : ActionsOwned n (f ::ₘ others))
    (hw : ∀ a status, f = .actionDeallocate a status → (n.action a).handle.tag + 1 < uintRange)
    {x : Handle} (hx : n.actionPool.Issued x) : (code t c f n).1.actionPool.Issued x := by
  refine n.actionIssued_access h.actionSound (fun a hu => ?_) hx
  have hi := exec_issuedBy t c f n
  rw [hu] at hi
  obtain ⟨status, hf⟩ := hi
  exact hw a status hf

theorem actionsOwned_exec (h : ActionsOwned n (f ::ₘ others))
    (hd : deletesUnreferenced t c f n (f ::ₘ others))
    (hw : ∀ a status, f = .actionDeallocate a status →
      (n.action a).handle.tag + 1 < uintRange) :
    ActionsOwned (code t c f n).1 ((code t c f n).2 + others) := by
  have hissued : ∀ x, n.actionPool.Issued x → (code t c f n).1.actionPool.Issued x :=
    fun x => h.issued_exec hw
  refine ⟨tasksOwned_preserved t c f n others h.toTasksOwned hd,
    n.actionSound_access h.actionSound _, ?_, ?_, ?_, ?_⟩
  · intro id
    rcases n.taskAction_access (exec t c f n).1 id with he | he | ⟨p, hu⟩
    · exact hissued _ (he ▸ h.taskIssued id)
    · exact Or.inl he
    · have hi := exec_issuedBy t c f n
      rw [hu] at hi
      obtain ⟨-, call, i, ha, -⟩ := hi
      exact hissued _ (ha ▸ h.jobIssued call.job.id i)
  · intro id ii
    rcases n.jobEntry_access (exec t c f n).1 id ii with ⟨jj, he⟩ | ⟨jobId, hu⟩
    · exact hissued _ (he ▸ h.jobIssued id jj)
    · have hi := exec_issuedBy t c f n
      rw [hu] at hi
      obtain ⟨a, ha, -⟩ := hi
      exact hissued _ (ha ▸ Pool.issued_handle h.actionSound a.id)
  · intro a ha
    have hflight := h.flight hd a
    have hpos := Multiset.count_pos.mpr ha
    by_cases hold : a ∈ inFlight n (f ::ₘ others)
    · exact hissued a (h.flightIssued a hold)
    · have h0 := Multiset.count_eq_zero.mpr hold
      have hent : a ∈ f.enters := List.count_pos_iff.mp (by omega)
      unfold Frame.enters at hent
      split at hent
      · rename_i p ii b affinity call kk was
        have hb : (n.taskPool.storage p.id).action = b :=
          h.scheduled _ (Multiset.mem_cons_self _ others) p b (List.mem_singleton_self _)
        have hp := hissued _ (h.taskIssued p.id)
        rw [hb] at hp
        rwa [List.mem_singleton.mp hent]
      · exact absurd hent List.not_mem_nil
  · intro g hgm p a hpa
    rcases Multiset.mem_add.mp hgm with hgm | hgm
    · have hpa' : (p, a) ∈ (exec t c f n).2.flatMap Frame.schedules :=
        List.mem_flatMap.mpr ⟨g, hgm, hpa⟩
      have hstay : ∀ q ∈ f.refs, f.fresh = [] →
          ((code t c f n).1.task q).action = (n.task q).action := fun q hq hfr =>
        congrArg (fun x => x.2.2.2.2) (h.placement_exec hd
          (mem_references_of_mem (Multiset.mem_cons_self f others) hq)
          (by rw [hfr]; exact List.not_mem_nil))
      rcases exec_schedules t c f n with he | he | ⟨q, hq, hfr, he⟩
      · rw [he] at hpa'
        rw [hstay p (Frame.mem_refs_of_mem_schedules hpa') (Frame.fresh_of_mem_schedules hpa')]
        exact h.scheduled f (Multiset.mem_cons_self f others) p a hpa'
      · rw [he] at hpa'
        exact absurd hpa' List.not_mem_nil
      · rw [he, List.mem_singleton, Prod.mk.injEq] at hpa'
        obtain ⟨rfl, rfl⟩ := hpa'
        exact hstay p hq hfr
    · rw [← h.scheduled g (Multiset.mem_cons_of_mem hgm) p a hpa]
      exact congrArg (fun x => x.2.2.2.2) (h.placement_others hd
        (mem_references_of_mem hgm (Frame.mem_refs_of_mem_schedules hpa)))

theorem actionsCounted_preserved : Preserves code CountsInstances ActionsCounted := by
  intro t c f n others h hg
  obtain ⟨hown, h1, h2, h3, h4, h5⟩ := actionsOwned_exec h.owned hg.deletes hg.wraps
  exact ⟨hown, h1, h2, h3, h4, h5, fun a ha => counted_exec h hg ha⟩

end Preservation

theorem actionsCounted_boot (attributes : NodeAttributes) (mode : SchedulerMode)
    (clients : Nat) :
    ActionsCounted (boot attributes mode clients).mem (boot attributes mode clients).frames := by
  have hrefs := references_boot attributes mode clients
  refine ⟨tasksOwned_boot attributes mode clients, Pool.sound_init _ _, fun _ => Or.inl rfl,
    fun _ _ => Or.inl rfl, ?_, ?_, ?_⟩
  · intro a ha
    rcases Multiset.mem_add.mp ha with ha | ha
    · obtain ⟨p, hp, -⟩ := Multiset.mem_map.mp ha
      have hm : p ∈ references (boot attributes mode clients).mem
          (boot attributes mode clients).frames := Multiset.mem_add.mpr (Or.inl hp)
      rw [hrefs] at hm
      exact absurd hm (Multiset.notMem_zero p)
    · obtain ⟨f, hfm, ha⟩ := Multiset.mem_bind.mp ha
      rw [Frame.inFlight_of_refs _ (refs_of_mem_boot hfm)] at ha
      exact absurd ha List.not_mem_nil
  · intro f hfm p a hpa
    rw [Frame.schedules_of_refs (refs_of_mem_boot hfm)] at hpa
    exact absurd hpa List.not_mem_nil
  · intro a ha
    exact absurd ha.2.2 fun he => by
      have hid : a.id = idPoolInvalidId := by rw [← he]; rfl
      exact absurd hid (Nat.pos_iff_ne_zero.mp ha.1)

/-- In every run that keeps to the guard, the counter of an action that exists is the
number of its instances in flight. Once none is left, the waiting loops of
`mtapi_action_delete` and `mtapi_action_disable` leave. -/
theorem action_num_tasks (attributes : NodeAttributes) (mode : SchedulerMode) (clients : Nat)
    (es : List (Nat × Choice))
    (hg : Always code CountsInstances (boot attributes mode clients) es) (a : Ptr)
    (ha : (run code (boot attributes mode clients) es).mem.actionPool.Live a) :
    ((run code (boot attributes mode clients) es).mem.action a).numTasks =
        (inFlight (run code (boot attributes mode clients) es).mem
          (run code (boot attributes mode clients) es).frames).count a ∧
      (a ∉ inFlight (run code (boot attributes mode clients) es).mem
          (run code (boot attributes mode clients) es).frames →
        ∀ t c finite,
          (exec t c (.actionDeleteLoop a finite)
            (run code (boot attributes mode clients) es).mem).2 = [.actionRemove a .success] ∧
          (exec t c (.actionDisableLoop a finite)
            (run code (boot attributes mode clients) es).mem).2 =
              [.ret .success Handle.invalid]) := by
  have hinv := actionsCounted_preserved.run hg (actionsCounted_boot attributes mode clients)
  have hc := hinv.counted a ha
  refine ⟨hc, fun hn t c finite => ?_⟩
  rw [Multiset.count_eq_zero.mpr hn, Nat.cast_zero] at hc
  simp only [exec, hc, ↓reduceIte, and_self]

/-- A test that is enough for the guard: no slot is deleted, and no instance dropped. -/
def countsTest (_ : Nat) (_ : Choice) (f : Frame) (n : Node) : Bool :=
  match f with
  | .taskDelete .. | .taskDeallocate .. | .actionDeallocate .. | .workerCancelledTodo .. => false
  | .scheduleCount _ _ _ _ .retained => false
  | .scheduleCount _ _ a _ _ | .executeNumTasks _ a _ | .scheduleUndo _ a _ =>
    decide (n.actionPool.Live a)
  | .workerSwitch p _ =>
    decide ((n.task p).state ∈ [TaskState.scheduled, .running, .retained, .cancelled])
  | _ => true

theorem countsInstances_of_test (t : Nat) (c : Choice) (f : Frame) (n : Node)
    (fs : Multiset Frame) (h : countsTest t c f n = true) : CountsInstances t c f n fs where
  deletes := by rintro p caller (rfl | rfl) <;> cases h
  wraps := by
    rintro a status rfl
    cases h
  reaches := by
    intro a ha
    unfold Frame.countsAction at ha
    split at ha
    · rw [List.mem_singleton.mp ha]
      exact of_decide_eq_true h
    · rename_i caller
      rw [List.mem_singleton.mp ha]
      cases caller with
      | start => exact of_decide_eq_true h
      | retained => cases h
    · rw [List.mem_singleton.mp ha]
      exact of_decide_eq_true h
    · exact absurd ha List.not_mem_nil
  cancelled := by
    rintro p lq rfl
    cases h
  skipped := by
    rintro p lq rfl
    exact Or.inl (of_decide_eq_true h)
  retained := by
    rintro p ii a affinity rfl
    cases h

/-- A worker takes a task and calls its action function. -/
def executeTask : List (Nat × Choice) :=
  calls 1 (.actionCreate 1 none) 4 ++ calls 1 (.taskStart ⟨0, 1⟩ none Handle.invalid) 18 ++
    goes 0 9

/-- While the action function runs, its instance is counted. -/
theorem action_num_tasks_running :
    ((run code (boot (smallNode 1) .workStealVhpf 1) executeTask).mem.action ⟨0, 1⟩).numTasks =
      (inFlight (run code (boot (smallNode 1) .workStealVhpf 1) executeTask).mem
        (run code (boot (smallNode 1) .workStealVhpf 1) executeTask).frames).count ⟨0, 1⟩ :=
  (action_num_tasks (smallNode 1) .workStealVhpf 1 executeTask
    (Always.of_checked countsInstances_of_test (by decide)) ⟨0, 1⟩ (by decide)).1

/-- A task is cancelled while it waits in a queue, and dropped by the worker. -/
def cancelAndDrop : List (Nat × Choice) :=
  calls 1 (.actionCreate 1 none) 4 ++ calls 1 (.taskStart ⟨0, 1⟩ none Handle.invalid) 18 ++
    calls 1 (.taskCancel ⟨0, 1⟩) 4 ++ goes 0 12

/-- The dropped instance stays counted: nothing is in flight, and the waiting loop of
`mtapi_action_delete` goes on. -/
theorem action_num_tasks_cancelled :
    (run code (boot (smallNode 1) .workStealVhpf 1) cancelAndDrop).mem.actionPool.Live ⟨0, 1⟩ ∧
      ((run code (boot (smallNode 1) .workStealVhpf 1) cancelAndDrop).mem.action
        ⟨0, 1⟩).numTasks = 1 ∧
      (inFlight (run code (boot (smallNode 1) .workStealVhpf 1) cancelAndDrop).mem
        (run code (boot (smallNode 1) .workStealVhpf 1) cancelAndDrop).frames).count
          ⟨0, 1⟩ = 0 ∧
      (exec 1 .go (.actionDeleteLoop ⟨0, 1⟩ false)
        (run code (boot (smallNode 1) .workStealVhpf 1) cancelAndDrop).mem) =
          (.read, [.actionDeleteLoop ⟨0, 1⟩ false]) := by
  refine ⟨by decide, by decide, by decide, rfl⟩

end Embb.Mtapi
