import Embb.Mtapi.FreeIds
import Embb.Mtapi.Scheduler.GroupCounter

/-!
# Detached tasks

Nobody waits for a detached task, so somebody else has to give its slot back. The only one
who does is a waiter of its group, which deletes the tasks that it finds in the queue of the
group. A detached task that ends up anywhere else keeps its slot.
-/

namespace Embb.Mtapi

open Threads

/-- `MTAPI_TASK_DETACHED` is set. -/
def detached (n : Node) (p : Ptr) : Prop := (n.task p).attributes.isDetached = true

instance (n : Node) (p : Ptr) : Decidable (detached n p) := inferInstanceAs (Decidable (_ = _))

/-- The task that a program point is about to delete. -/
def Frame.deletes : Frame → List Ptr
  | .waitAllTask _ _ _ p | .waitAnyTask _ p | .taskDelete p _ | .taskDeallocate p _ => [p]
  | _ => []

/-- A start call writes the slot of the task. -/
def Starting (fs : Multiset Frame) (p : Ptr) : Prop := ∃ f ∈ fs, p ∈ f.fresh

/-- The task lies in the queue of a group that exists, or is being deleted. -/
def Collected (n : Node) (fs : Multiset Frame) (p : Ptr) : Prop :=
  (∃ g, n.GroupExists g ∧ p ∈ (n.group g).queue.tasks) ∨ ∃ f ∈ fs, p ∈ f.deletes

/-- The start call has failed to schedule an instance. -/
def ScheduleCaller.fails : ScheduleCaller → Bool
  | .start _ _ wasScheduled => !wasScheduled
  | .retained => false

/-- The start call has failed for another reason than its arguments. -/
def DeleteCaller.fails : DeleteCaller → Bool
  | .start .errTaskLimit => true
  | _ => false

/-- A start call that has a slot is going to return `MTAPI_ERR_TASK_LIMIT`. -/
def Frame.fails : Frame → Bool
  | .startInstances _ _ _ wasScheduled => !wasScheduled
  | .schedule _ _ caller | .scheduleAffinity _ _ _ caller | .scheduleCount _ _ _ _ caller
  | .scheduleAffine _ _ _ caller | .scheduleSearch _ _ _ _ caller
  | .schedulePush _ _ _ _ caller => caller.fails
  | .scheduleUndo _ _ (.start _ _ _) | .startFailed _ => true
  | .taskDelete _ caller | .taskDeallocate _ caller => caller.fails
  | _ => false

/-- The steps that reclaim detached tasks, and by which start calls do not fail for another
reason than a full pool. -/
structure ReclaimsDetached (t : Nat) (c : Choice) (f : Frame) (n : Node) (fs : Multiset Frame) :
    Prop where
  /-- A task slot is deleted only when nothing refers to it. -/
  deletes : deletesUnreferenced t c f n fs
  /-- A slot is given back only by the one who deletes its task. -/
  gives : ∀ p caller, f = .taskDeallocate p caller → n.taskPool.Live p
  /-- A detached task has an instance. -/
  instances : ∀ call p i, f = .startAction call p i → detached n p →
    call.attributes.numInstances ≠ 0
  /-- No instance of a detached task is lost. -/
  loses : ∀ p ∈ f.loses n, p ∉ f.fresh → ¬ detached n p
  /-- The last instance of a detached task is not dropped as cancelled. -/
  cancelled : ∀ p lq, f = .workerCancelledTodo p lq →
    (n.task p).instancesTodo ≠ 1 ∨ ¬ detached n p
  /-- A detached task that is over belongs to a group. -/
  grouped : ∀ ctx, f = .executeGroup ctx → detached n ctx.task →
    n.groupPool.isHandleValid (n.task ctx.task).group = true
  /-- The group exists when the task is pushed, and its queue has room. -/
  room : ∀ ctx g, f = .executeGroupPush ctx g → detached n ctx.task →
    n.GroupExists g ∧ ((n.group g).queue.push ctx.task).2 = true
  /-- A group is deleted only when its queue holds no detached task. -/
  empties : ∀ g status, f = .groupFinalize g status ∨ f = .groupDeallocate g status →
    ∀ g', n.GroupExists g' → g'.id = g.id → ∀ p ∈ (n.group g').queue.tasks, ¬ detached n p
  /-- The action of a task that is being started is not deleted. -/
  schedules : ∀ p ii call kk wasScheduled, f = .schedule p ii (.start call kk wasScheduled) →
    n.actionPool.isHandleValid (n.task p).action = true
  /-- The queue of the worker has room for the instance. -/
  pushes : ∀ p ii isPrivate a call kk wasScheduled,
    f = .schedulePush p ii isPrivate a (.start call kk wasScheduled) →
    (n.workerQueue ⟨ii, isPrivate, (n.task p).attributes.priority⟩).lock = false →
    ((n.workerQueue ⟨ii, isPrivate, (n.task p).attributes.priority⟩).push p).2 = true

/-- Every detached task has work left, or is on the way to be deleted. -/
structure DetachedPlaced (n : Node) (fs : Multiset Frame) : Prop
    extends WorkCounted detached n fs where
  ids : n.taskPool.Exact
  groupSound : n.groupPool.Sound
  placed : ∀ p, n.taskPool.Live p → detached n p →
    Unfinished n fs p ∨ Starting fs p ∨ Collected n fs p
  fails : ∀ f ∈ fs, f.fails = false

namespace Node

/-- A group stays as long as nobody deletes it, and its queue follows the access. -/
theorem groupExists_keeps {n : Node} (hs : n.groupPool.Sound) {u : Access} {g : Ptr}
    (h : n.GroupExists g)
    (hd : ∀ r, u = .groupFinalize r ∨ u = .groupDeallocate r → g.id ≠ r.id) :
    (n.access u).GroupExists g ∧
      ((n.access u).group g).queue = groupQueue u g (n.group g).queue := by
  obtain ⟨hl, hdel⟩ := h
  have hkeeps := u.keepsHandles_onGroup n
  have hlive : ((u.onGroup n).apply n.groupPool).Live g := by
    refine Pool.Step.live hs hkeeps (fun x hx => ?_) hl
    cases u with
    | groupDeallocate r =>
      cases hx
      exact hd _ (Or.inr rfl)
    | taskGroup p r => cases r <;> cases hx
    | _ => cases hx
  rcases Pool.Step.live_cases hs hkeeps hlive with ⟨-, he⟩ | ⟨-, -, hnew, -⟩
  · have hdel' : ((u.onGroup n).writes g.id (n.groupPool.storage g.id)).deleted = false := by
      cases u with
      | groupFinalize r =>
        have hid : ¬ r.id = g.id := fun hid => hd r (Or.inl rfl) hid.symm
        simp only [Access.onGroup, Pool.Step.writes, if_neg hid]
        exact hdel
      | taskGroup p r =>
        cases r with
        | none => exact hdel
        | some r =>
          simp only [Access.onGroup, Pool.Step.writes]
          split <;> exact hdel
      | groupTasks | groupPush | groupPop =>
        simp only [Access.onGroup, Pool.Step.writes]
        split <;> exact hdel
      | _ => exact hdel
    rw [GroupExists, group, groupPool_access, he]
    exact ⟨⟨hlive, hdel'⟩, (n.writes_onGroup u g _ hdel').2.2⟩
  · exact absurd hl (Pool.not_live_of_allocate hs hnew)

/-- A task that is live after an access was live before, or is new. -/
theorem live_before {n : Node} (hs : n.taskPool.Sound) {u : Access} {p : Ptr}
    (h : (n.access u).taskPool.Live p) :
    n.taskPool.Live p ∨ u = .taskAllocate ∧ n.taskPool.allocate.2 = some p := by
  by_cases hk : u.keepsTaskHandles = true
  · exact Or.inl (h.congr (n.taskIdPool_access hk).symm (n.taskHandle_access hk p.id).symm)
  · cases u with
    | taskAllocate =>
      by_cases hnew : n.taskPool.allocate.2 = some p
      · exact Or.inr ⟨rfl, hnew⟩
      · refine Or.inl (Pool.Live.of_allocate hs h fun x hx he => hnew ?_)
        rw [hx, h.eq_of_id (Pool.live_allocate hs hx) he]
    | taskDeallocate q =>
      exact Or.inl (Pool.Live.of_deallocate h fun he => Pool.not_live_deallocate _ he h)
    | _ => exact absurd rfl hk

end Node

section Preservation

variable {t : Nat} {c : Choice} {f : Frame} {n : Node} {others : Multiset Frame}

theorem fails_entry (n : Node) (call : Call) : (n.entry call).fails = false := by
  cases call <;> rfl

theorem fails_visitorResume (v : Visitor) (n : Node) (finite : Bool) :
    (v.resume n finite).fails = false := by
  apply apply_visitorResume <;> intros <;> rfl

theorem fails_deleteResume (caller : DeleteCaller) : caller.resume.fails = false := by
  cases caller <;> rfl

theorem fails_contextResume (ctx : Context) (done : Bool) :
    ∀ f ∈ ctx.resume done, f.fails = false := by
  intro f hf
  rcases mem_contextResume hf with ⟨q, rfl⟩ | rfl <;> rfl

theorem fails_executeTaskOrYield (n : Node) (t : Nat) {back : Frame} (h : back.fails = false) :
    ∀ f ∈ n.executeTaskOrYield t back, f.fails = false := by
  intro f hf
  rcases Node.mem_executeTaskOrYield hf with ⟨rs, rfl⟩ | rfl
  · rfl
  · exact h

/-- A start call that has a slot goes on without failing. -/
theorem exec_fails (hg : ReclaimsDetached t c f n (f ::ₘ others)) (hf : f.fails = false) :
    ∀ f' ∈ (exec t c f n).2, f'.fails = false := by
  have hs := hg.schedules
  have hp := hg.pushes
  clear hg
  fun_cases exec t c f n
  all_goals first
    | exact List.forall_mem_singleton.mpr rfl
    | exact fails_contextResume _ _
    | exact fails_executeTaskOrYield _ _ rfl
    | exact List.forall_mem_singleton.mpr hf
    | exact List.forall_mem_singleton.mpr (fails_deleteResume _)
    | exact List.forall_mem_singleton.mpr (fails_visitorResume _ _ _)
    | exact List.forall_mem_cons.mpr ⟨fails_entry _ _, List.forall_mem_singleton.mpr rfl⟩
    | exact fun _ hmem => absurd hmem List.not_mem_nil
    | exact List.forall_mem_cons.mpr ⟨rfl, List.forall_mem_singleton.mpr rfl⟩
    | cases hf; done
    | skip
  · -- schedule, when the action is gone
    rename_i p ii caller hv
    cases caller with
    | start call kk was => exact absurd (hs p ii call kk was rfl) hv
    | retained => exact List.forall_mem_singleton.mpr rfl
  · rename_i p ii isPrivate a caller r hfree hpush
    cases caller with
    | start call kk was =>
      refine List.forall_mem_singleton.mpr ?_
      change (!(was && true)) = false
      rw [Bool.and_true]
      exact hf
    | retained => exact List.forall_mem_singleton.mpr rfl
  · -- schedulePush, when the queue is full
    rename_i p ii isPrivate a caller r hfree hpush
    cases caller with
    | start call kk was =>
      exact absurd (hp p ii isPrivate a call kk was rfl
        (Bool.eq_false_iff.mpr fun hlock => hfree (Or.inl hlock))) hpush
    | retained => exact List.forall_mem_singleton.mpr rfl
  · rename_i p a caller
    cases caller with
    | start call kk was => cases hf
    | retained => exact List.forall_mem_singleton.mpr rfl
  · refine List.forall_mem_singleton.mpr ?_
    rename_i inRange _
    by_cases hr : inRange
    · rw [if_pos hr]
      rfl
    · rw [if_neg hr]
      rfl
  · rename_i p kk was hkk hwas
    refine absurd ?_ hwas
    exact (Bool.not_eq_false' _).mp hf

/-- A task stays in hand until its slot is given back. -/
theorem exec_deletes {p : Ptr} (hp : p ∈ f.deletes) :
    p ∈ (exec t c f n).2.flatMap Frame.deletes ∨ ∃ caller, f = .taskDeallocate p caller := by
  unfold Frame.deletes at hp
  split at hp
  all_goals first
    | exact absurd hp List.not_mem_nil
    | cases List.mem_singleton.mp hp
  · exact Or.inl (List.mem_singleton_self p)
  · exact Or.inl (List.mem_singleton_self p)
  · exact Or.inl (List.mem_singleton_self p)
  · rename_i caller
    exact Or.inr ⟨caller, rfl⟩

/-- The waiter of a group has the task in hand that it takes from the queue. -/
theorem exec_groupPop {g : Ptr} (hu : (exec t c f n).1 = .groupPop g) :
    ∃ p, (n.group g).queue.pop.2 = some p ∧ p ∈ (exec t c f n).2.flatMap Frame.deletes := by
  have hi := exec_issuedBy t c f n
  rw [hu] at hi
  obtain ⟨finite, status, rfl⟩ | ⟨finite, rfl⟩ := hi
  · simp only [exec] at hu ⊢
    split at hu
    · cases hu
    · rename_i hc
      rw [if_neg hc]
      split at hu
      · rename_i p hp
        rw [hp]
        exact ⟨p, rfl, List.mem_singleton_self p⟩
      · cases hu
  · simp only [exec] at hu ⊢
    split at hu
    · cases hu
    · rename_i hc
      rw [if_neg hc]
      split at hu
      · rename_i p hp
        rw [hp]
        exact ⟨p, rfl, List.mem_singleton_self p⟩
      · cases hu

/-- A slot stays with its start call until the call has chosen the action. -/
theorem exec_fresh_of_mem {p : Ptr} (hp : p ∈ f.fresh) :
    p ∈ (exec t c f n).2.flatMap Frame.fresh ∨ ∃ call i, f = .startAction call p i := by
  unfold Frame.fresh at hp
  split at hp
  all_goals first
    | exact absurd hp List.not_mem_nil
    | cases List.mem_singleton.mp hp
  all_goals first
    | exact Or.inr ⟨_, _, rfl⟩
    | left
      simp only [exec]
      repeat' split
      all_goals exact List.mem_singleton_self p

theorem starting_add {fs : List Frame} {p : Ptr} (hp : p ∈ fs.flatMap Frame.fresh) :
    Starting (fs + others) p := by
  obtain ⟨f, hf, hp⟩ := List.mem_flatMap.mp hp
  exact ⟨f, Multiset.mem_add.mpr (Or.inl hf), hp⟩

theorem collected_add {m : Node} {fs : List Frame} {p : Ptr}
    (hp : p ∈ fs.flatMap Frame.deletes) : Collected m (fs + others) p := by
  obtain ⟨f, hf, hp⟩ := List.mem_flatMap.mp hp
  exact Or.inr ⟨f, Multiset.mem_add.mpr (Or.inl hf), hp⟩

namespace DetachedPlaced

/-- A task in the queue of a group stays there until a waiter takes it. -/
theorem collected_exec (h : DetachedPlaced n (f ::ₘ others))
    (hg : ReclaimsDetached t c f n (f ::ₘ others)) {p : Ptr} (hd : detached n p)
    (hl : (code t c f n).1.taskPool.Live p) (hc : Collected n (f ::ₘ others) p) :
    Collected (code t c f n).1 ((code t c f n).2 + others) p := by
  have hi := exec_issuedBy t c f n
  rcases hc with ⟨g, hge, hmem⟩ | ⟨f', hf', hp⟩
  · have hstay : ∀ r, (exec t c f n).1 = .groupFinalize r ∨ (exec t c f n).1 = .groupDeallocate r →
        g.id ≠ r.id := by
      rintro r (hu | hu) hid
      · rw [hu] at hi
        obtain ⟨status, hf⟩ := hi
        exact hg.empties r status (Or.inl hf) g hge hid p hmem hd
      · rw [hu] at hi
        obtain ⟨status, hf⟩ := hi
        exact hg.empties r status (Or.inr hf) g hge hid p hmem hd
    obtain ⟨hge', hq⟩ : (code t c f n).1.GroupExists g ∧ ((code t c f n).1.group g).queue =
        Node.groupQueue (exec t c f n).1 g (n.group g).queue :=
      Node.groupExists_keeps h.groupSound hge hstay
    by_cases hpop : ∃ r, (exec t c f n).1 = .groupPop r ∧ r.id = g.id
    · obtain ⟨r, hu, hid⟩ := hpop
      obtain ⟨q, hq', hmem'⟩ := exec_groupPop hu
      have hsame : n.group r = n.group g := congrArg n.groupPool.storage hid
      rw [hsame] at hq'
      have htasks := TaskQueue.tasks_of_pop_some hq'
      rw [htasks] at hmem
      rcases List.mem_cons.mp hmem with rfl | hmem
      · exact collected_add hmem'
      · refine Or.inl ⟨g, hge', ?_⟩
        rw [hq, hu, Node.groupQueue, if_pos hid]
        exact hmem
    · refine Or.inl ⟨g, hge', ?_⟩
      rw [hq]
      unfold Node.groupQueue
      split
      · split
        · rename_i q _ _
          cases hpush : ((n.group g).queue.push q).2 with
          | true =>
            rw [TaskQueue.tasks_push_of_true hpush]
            exact List.mem_append_left _ hmem
          | false =>
            rw [TaskQueue.push_of_false hpush]
            exact hmem
        · exact hmem
      · rename_i r hu
        rw [if_neg fun hid => hpop ⟨r, hu, hid⟩]
        exact hmem
      · exact hmem
  · rcases Multiset.mem_cons.mp hf' with rfl | hf'
    · rcases exec_deletes (t := t) (c := c) (n := n) hp with hp | ⟨caller, rfl⟩
      · exact collected_add hp
      · exact absurd hl (Pool.not_live_deallocate n.taskPool rfl)
    · exact Or.inr ⟨f', Multiset.mem_add.mpr (Or.inr hf'), hp⟩

/-- Only slots in use are given back. -/
theorem ids_exec (h : DetachedPlaced n (f ::ₘ others))
    (hg : ReclaimsDetached t c f n (f ::ₘ others)) : (code t c f n).1.taskPool.Exact := by
  have hi := exec_issuedBy t c f n
  by_cases hk : (exec t c f n).1.keepsTaskHandles = true
  · exact h.ids.congr (n.taskIdPool_access hk) (n.taskHandle_access hk)
  · cases hu : (exec t c f n).1 with
    | taskAllocate =>
      rw [code, hu]
      exact h.ids.allocate
    | taskDeallocate p =>
      rw [hu] at hi
      obtain ⟨caller, hf⟩ := hi
      rw [code, hu]
      exact h.ids.deallocate (hg.gives p caller hf)
    | _ =>
      rw [hu] at hk
      exact absurd rfl hk

/-- What a start call does with the slot that it writes. -/
theorem starting_exec (h : DetachedPlaced n (f ::ₘ others))
    (hg : ReclaimsDetached t c f n (f ::ₘ others)) {p : Ptr} (hd : detached n p)
    (hs : Starting (f ::ₘ others) p) :
    Unfinished (code t c f n).1 ((code t c f n).2 + others) p ∨
      Starting ((code t c f n).2 + others) p ∨
      Collected (code t c f n).1 ((code t c f n).2 + others) p := by
  obtain ⟨f', hf', hp⟩ := hs
  rcases Multiset.mem_cons.mp hf' with rfl | hf'
  · rcases exec_fresh_of_mem (t := t) (c := c) (n := n) hp with hp | ⟨call, i, rfl⟩
    · exact Or.inr (Or.inl (starting_add hp))
    · have hnum := hg.instances call p i rfl hd
      by_cases hv : n.actionPool.isHandleValid ((n.jobList call.job.id).actions i) = true ∧
          (n.task p).attributes.priority < n.attributes.maxPriorities
      · refine Or.inl (Or.inl ?_)
        have hfs : (code t c (.startAction call p i) n).2 = [.startSchedule call p] := by
          simp only [code, exec, if_pos hv.1, if_pos hv.2]
        rw [work_add, hfs]
        exact Multiset.mem_add.mpr (Or.inl (List.mem_append_left _
          (List.mem_replicate.mpr ⟨hnum, rfl⟩)))
      · refine Or.inr (Or.inr (collected_add (List.mem_flatMap.mpr ?_)))
        simp only [code, exec]
        split
        · rename_i hv1
          rw [if_neg fun hv2 => hv ⟨hv1, hv2⟩]
          exact ⟨_, List.mem_singleton_self _, List.mem_singleton_self p⟩
        · exact ⟨_, List.mem_singleton_self _, List.mem_singleton_self p⟩
  · exact Or.inr (Or.inl ⟨f', Multiset.mem_add.mpr (Or.inr hf'), hp⟩)

/-- The last instance of a task goes on to the queue of the group. -/
theorem unfinished_exec (h : DetachedPlaced n (f ::ₘ others))
    (hg : ReclaimsDetached t c f n (f ::ₘ others)) {p : Ptr} (hd : detached n p)
    (hfr : p ∉ f.fresh) (hu : Unfinished n (f ::ₘ others) p) :
    Unfinished (code t c f n).1 ((code t c f n).2 + others) p ∨
      Collected (code t c f n).1 ((code t c f n).2 + others) p := by
  rcases hu with hm | hm
  · rcases h.toWorkCounted.after_waiting hd (fun hp => hg.loses p hp hfr hd) hm with
      hw | hw | ⟨lq, hf, h1⟩
    · exact Or.inl (Or.inl hw)
    · exact Or.inl (Or.inr hw)
    · exact (hg.cancelled p lq hf).elim (absurd h1) (absurd hd)
  · rcases h.toWorkCounted.after_finishing hm with hw | ⟨ctx, rfl, ⟨hf, hv⟩ | ⟨g, hf⟩⟩
    · exact Or.inl (Or.inr hw)
    · exact absurd (hg.grouped ctx hf hd) (Bool.eq_false_iff.mp hv)
    · obtain ⟨hge, hroom⟩ := hg.room ctx g hf hd
      subst hf
      have hacc : (exec t c (.executeGroupPush ctx g) n).1 = .groupPush g ctx.task := rfl
      obtain ⟨hge', hq⟩ := Node.groupExists_keeps h.groupSound (u := .groupPush g ctx.task) hge
        (by rintro r (hu | hu) <;> cases hu)
      rw [Node.groupQueue, if_pos rfl] at hq
      refine Or.inr (Or.inl ⟨g, hge', ?_⟩)
      change ctx.task ∈ ((n.access (.groupPush g ctx.task)).group g).queue.tasks
      rw [hq, TaskQueue.tasks_push_of_true hroom]
      exact List.mem_append_right _ (List.mem_singleton_self _)

theorem placed_exec (h : DetachedPlaced n (f ::ₘ others))
    (hg : ReclaimsDetached t c f n (f ::ₘ others)) {p : Ptr}
    (hl : (code t c f n).1.taskPool.Live p) (hd : detached (code t c f n).1 p) :
    Unfinished (code t c f n).1 ((code t c f n).2 + others) p ∨
      Starting ((code t c f n).2 + others) p ∨
      Collected (code t c f n).1 ((code t c f n).2 + others) p := by
  have hi := exec_issuedBy t c f n
  have hself := Multiset.mem_cons_self f others
  rcases Node.live_before h.sound hl with hl' | ⟨hu, hnew⟩
  · by_cases hinit : ∃ call, f = .startInit call p
    · obtain ⟨call, rfl⟩ := hinit
      exact Or.inr (Or.inl (starting_add (List.mem_singleton_self p)))
    · have hattr : ((code t c f n).1.task p).attributes = (n.task p).attributes := by
        refine n.taskAttributes_access _ fun q call hu hid => hinit ⟨call, ?_⟩
        rw [hu] at hi
        have hq := h.live q (mem_references_of_mem hself (by
          rw [hi]
          exact List.mem_singleton_self q))
        rw [hi, hq.eq_of_id hl' hid]
      have hd' : detached n p := by
        rw [detached, ← hattr]
        exact hd
      by_cases hs : Starting (f ::ₘ others) p
      · exact h.starting_exec hg hd' hs
      · rcases h.placed p hl' hd' with hu | hs' | hc
        · rcases h.unfinished_exec hg hd' (fun hfr => hs ⟨f, hself, hfr⟩) hu with hu | hc
          · exact Or.inl hu
          · exact Or.inr (Or.inr hc)
        · exact absurd hs' hs
        · exact Or.inr (Or.inr (h.collected_exec hg hd' hl hc))
  · rw [hu] at hi
    obtain ⟨call, rfl⟩ := hi
    rcases exec_startAllocate t c call n with ⟨u, status, hk, he⟩ | ⟨q, hq, he⟩
    · rw [he] at hu
      change u = _ at hu
      rw [hu] at he
      have hnone := he
      simp only [exec, hnew] at hnone
      split at hnone
      · cases hnone
      · cases hnone
    · rw [hnew, Option.some.injEq] at hq
      subst hq
      refine Or.inr (Or.inl (starting_add ?_))
      rw [code, he]
      exact List.mem_singleton_self p

end DetachedPlaced

theorem detachedPlaced_preserved : Preserves code ReclaimsDetached DetachedPlaced := by
  intro t c f n others h hg
  refine ⟨workCounted_exec h.toWorkCounted hg.deletes hg.loses fun p hp hfr hd => ?_,
    h.ids_exec hg, ?_, fun p hl hd => h.placed_exec hg hl hd, fun f' hf' => ?_⟩
  · have hattr := attributes_exec (t := t) (c := c) h.toTasksOwned hp fun call hf =>
      hfr (by rw [hf]; exact List.mem_singleton_self p)
    rw [detached, ← hattr]
    exact hd
  · simp only [code, Node.groupPool_access]
    exact Pool.Step.sound h.groupSound (Access.keepsHandles_onGroup n _)
  · rcases Multiset.mem_add.mp hf' with hf' | hf'
    · exact exec_fails hg (h.fails f (Multiset.mem_cons_self f others)) f' hf'
    · exact h.fails f' (Multiset.mem_cons_of_mem hf')

end Preservation

theorem detachedPlaced_boot (attributes : NodeAttributes) (mode : SchedulerMode)
    (clients : Nat) :
    DetachedPlaced (boot attributes mode clients).mem (boot attributes mode clients).frames := by
  refine ⟨workCounted_boot detached attributes mode clients, Pool.Exact.init _ _,
    Pool.sound_init _ _,
    fun p hl => absurd hl (Pool.not_live_init _ _ p), fun f hf => ?_⟩
  rcases mem_frames_boot hf with rfl | rfl <;> rfl

/-- The program points at which a start call can fail. -/
def Frame.startReturns : Frame → Bool
  | .startAllocate _ | .taskDeallocate _ (.start _) => true
  | _ => false

/-- A start call fails with `MTAPI_ERR_TASK_LIMIT` only when the pool has no slot for it. -/
theorem full_of_taskLimit {t : Nat} {c : Choice} {f : Frame} {n : Node}
    (hf : f.startReturns = true) (hok : f.fails = false)
    (h : .ret .errTaskLimit Handle.invalid ∈ (exec t c f n).2) :
    n.taskPool.allocate.2 = none := by
  unfold Frame.startReturns at hf
  split at hf
  · rename_i call
    simp only [exec] at h
    split at h
    · split at h
      · cases List.mem_singleton.mp h
      · assumption
    · cases List.mem_singleton.mp h
  · rename_i p status
    have hret := List.mem_singleton.mp h
    simp only [DeleteCaller.resume, Frame.ret.injEq, and_true] at hret
    subst hret
    cases hok
  · cases hf

/-- A detached task that is over is in the hands of its group as long as it has a slot, the
free identifiers are those of all other slots, and a start call fails for lack of a slot only
when every slot holds a task that is unfinished or has not been waited for. -/
theorem detached_reclaimed (attributes : NodeAttributes) (mode : SchedulerMode) (clients : Nat)
    (es : List (Nat × Choice))
    (hg : Always code ReclaimsDetached (boot attributes mode clients) es) :
    let s := run code (boot attributes mode clients) es
    (∀ p, s.mem.taskPool.Live p → detached s.mem p →
        Unfinished s.mem s.frames p ∨ Starting s.frames p ∨ Collected s.mem s.frames p) ∧
      s.mem.taskPool.idPool.ids.length + s.mem.taskPool.used.card =
        s.mem.taskPool.idPool.capacity ∧
      ∀ t c f, s.top t = some f → f.startReturns = true →
        .ret .errTaskLimit Handle.invalid ∈ (exec t c f s.mem).2 →
        ∀ id, 0 < id → id ≤ s.mem.taskPool.idPool.capacity →
          ∃ p, p.id = id ∧ s.mem.taskPool.Live p ∧
            (detached s.mem p → Unfinished s.mem s.frames p ∨ Starting s.frames p ∨
              Collected s.mem s.frames p) := by
  intro s
  have hinv := detachedPlaced_preserved.run hg (detachedPlaced_boot attributes mode clients)
  refine ⟨hinv.placed, hinv.ids.length_ids, fun t c f htop hf hret id hpos hle => ?_⟩
  have hok := hinv.fails f (State.mem_frames_of_top htop)
  obtain ⟨p, hp, hid⟩ := hinv.ids.exists_live (full_of_taskLimit hf hok hret) hpos hle
  exact ⟨p, hid, hp, hinv.placed p hp⟩

/-- A test that is enough for the guard: nothing is deleted, and no instance dropped. -/
def reclaimsTest (_ : Nat) (_ : Choice) (f : Frame) (n : Node) : Bool :=
  (f.loses n).isEmpty && match f with
  | .taskDelete .. | .taskDeallocate .. | .workerCancelledTodo .. | .groupFinalize ..
  | .groupDeallocate .. => false
  | .startAction call _ _ => decide (call.attributes.numInstances ≠ 0)
  | .executeGroup ctx => n.groupPool.isHandleValid (n.task ctx.task).group
  | .executeGroupPush ctx g =>
    decide (n.GroupExists g) && ((n.group g).queue.push ctx.task).2
  | .schedule p _ _ => n.actionPool.isHandleValid (n.task p).action
  | .schedulePush p ii isPrivate _ _ =>
    ((n.workerQueue ⟨ii, isPrivate, (n.task p).attributes.priority⟩).push p).2
  | _ => true

theorem reclaims_of_test (t : Nat) (c : Choice) (f : Frame) (n : Node) (fs : Multiset Frame)
    (h : reclaimsTest t c f n = true) : ReclaimsDetached t c f n fs := by
  unfold reclaimsTest at h
  rw [Bool.and_eq_true] at h
  obtain ⟨hl, h⟩ := h
  constructor
  · rintro p caller (rfl | rfl)
    · cases h
    · cases h
  · rintro p caller rfl
    cases h
  · rintro call p i rfl -
    exact of_decide_eq_true h
  · rw [List.isEmpty_iff.mp hl]
    exact fun p hp => absurd hp List.not_mem_nil
  · rintro p lq rfl
    cases h
  · rintro ctx rfl -
    exact h
  · rintro ctx g rfl -
    rw [Bool.and_eq_true] at h
    exact ⟨of_decide_eq_true h.1, h.2⟩
  · rintro g status (rfl | rfl)
    · cases h
    · cases h
  · rintro p ii call kk was rfl
    exact h
  · rintro p ii isPrivate a call kk was rfl -
    exact h

/-- The attributes of a detached task. -/
def detachedTask : TaskAttributes := { TaskAttributes.init 1 with isDetached := true }

/-- A detached task is started into a group and executed by the worker. -/
def startDetachedIntoGroup : List (Nat × Choice) :=
  calls 1 (.actionCreate 1 none) 4 ++ calls 1 .groupCreate 3 ++
    calls 1 (.taskStart ⟨0, 1⟩ (some detachedTask) ⟨0, 1⟩) 20 ++ goes 0 10 ++ [(0, .leave)] ++
    goes 0 8

theorem detached_reclaimed_grouped :
    detached (run code (boot (smallNode 1) .workStealVhpf 1) startDetachedIntoGroup).mem ⟨0, 1⟩ ∧
      (Unfinished (run code (boot (smallNode 1) .workStealVhpf 1) startDetachedIntoGroup).mem
          (run code (boot (smallNode 1) .workStealVhpf 1) startDetachedIntoGroup).frames ⟨0, 1⟩ ∨
        Starting (run code (boot (smallNode 1) .workStealVhpf 1) startDetachedIntoGroup).frames
          ⟨0, 1⟩ ∨
        Collected (run code (boot (smallNode 1) .workStealVhpf 1) startDetachedIntoGroup).mem
          (run code (boot (smallNode 1) .workStealVhpf 1) startDetachedIntoGroup).frames
          ⟨0, 1⟩) :=
  ⟨by decide +kernel, (detached_reclaimed (smallNode 1) .workStealVhpf 1 startDetachedIntoGroup
    (Always.of_checked reclaims_of_test (by decide +kernel))).1 ⟨0, 1⟩ (by decide +kernel)
    (by decide +kernel)⟩

/-- A node with room for one task. -/
def oneTask : NodeAttributes := { smallNode 1 with maxTasks := 1 }

/-- A detached task is started without a group, and executed. -/
def startDetached : List (Nat × Choice) :=
  calls 1 (.actionCreate 1 none) 4 ++
    calls 1 (.taskStart ⟨0, 1⟩ (some detachedTask) Handle.invalid) 20 ++ goes 0 10 ++
    [(0, .leave)] ++ goes 0 8

/-- The first task is completed and in no group, nothing refers to it, and the second one finds
no slot. -/
theorem detached_leaks :
    ((run code (boot oneTask .workStealVhpf 1) startDetached).mem.task ⟨0, 1⟩).state =
        .completed ∧
      (run code (boot oneTask .workStealVhpf 1) startDetached).mem.taskPool.Live ⟨0, 1⟩ ∧
      detached (run code (boot oneTask .workStealVhpf 1) startDetached).mem ⟨0, 1⟩ ∧
      ((run code (boot oneTask .workStealVhpf 1) startDetached).mem.task ⟨0, 1⟩).group.id =
        idPoolInvalidId ∧
      ⟨0, 1⟩ ∉ references (run code (boot oneTask .workStealVhpf 1) startDetached).mem
        (run code (boot oneTask .workStealVhpf 1) startDetached).frames ∧
      (exec 1 .go (.startAllocate ⟨⟨0, 1⟩, detachedTask, Handle.invalid, Handle.invalid⟩)
        (run code (boot oneTask .workStealVhpf 1) startDetached).mem).2 =
          [.ret .errTaskLimit Handle.invalid] := by
  refine ⟨by decide +kernel, by decide +kernel, by decide +kernel, by decide +kernel,
    by decide +kernel, ?_⟩
  have hjob : (run code (boot oneTask .workStealVhpf 1) startDetached).mem.jobIsHandleValid
      ⟨0, 1⟩ = true := by decide +kernel
  have hfull : (run code (boot oneTask .workStealVhpf 1)
      startDetached).mem.taskPool.allocate.2 = none := by decide +kernel
  simp only [exec, hjob, hfull, ↓reduceIte]

end Embb.Mtapi
