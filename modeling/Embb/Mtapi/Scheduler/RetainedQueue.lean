import Embb.Mtapi.Scheduler.Cancel
import Embb.Mtapi.Scheduler.QuietQueue

/-!
# The tasks of a retaining queue

Between `mtapi_queue_disable` and `mtapi_queue_enable` no task of a quiet queue begins to execute,
and afterwards each of them is executed once.
-/

namespace Embb.Mtapi

open Threads

/-- The steps of a task whose start succeeds with at least one instance and whose action is there,
and which, from its start on, is not cancelled, and visited for its queue only. -/
structure KeepsTask (q p : Ptr) (f : Frame) (n : Node) (l : History) : Prop where
  instances : ∀ call, f = .startInit call p → call.attributes.numInstances ≠ 0
  loses : l.started = true → p ∈ f.loses n → ∃ lq, f = .workerSwitch p lq
  undisturbed : l.started = true → f.disturbs = some p.id →
    ∃ v p' r ii rest finite, f = .processState v p' r ii rest finite ∧
      (v.marks q).isSome = true
  action : l.started = true → ∀ ctx todo, f = .executeAction ctx todo → ctx.task = p →
    n.actionPool.isHandleValid (n.task p).action = true

/-- A visitor of the queue finds the task waiting. -/
theorem KeepsTask.keepsInstances {q p : Ptr} {t : Nat} {c : Choice} {f : Frame} {n : Node}
    {ph : QueuePhase} {l : History} {others : Multiset Frame} (h : KeepsTask q p f n l)
    (hquiet : QuietQueue q n ph (f ::ₘ others)) (hcounted : InstancesCounted p n l (f ::ₘ others))
    (hg : KeepsQueue q t c f n ph (f ::ₘ others)) :
    KeepsInstances p t c f n l (f ::ₘ others) := by
  refine ⟨hg.deletes, h.instances, h.loses, fun hl hd => ?_, h.action⟩
  obtain ⟨v, p', r, ii, rest, finite, rfl, hm⟩ := h.undisturbed hl hd
  obtain ⟨s, hs⟩ := Option.isSome_iff_exists.mp hm
  have hretain := hg.retains _ (List.mem_singleton_self _) hm
  have hstate := QuietQueue.visitorState_of_marks hs hretain
  have hentry := hquiet.visited v p' r ii rest finite (Multiset.mem_cons_self _ _) hm
  have hqueued : p' ∈ n.queued := by
    have htask := List.mem_of_getElem? hentry
    have hr : r ∈ n.processOrder := by
      by_contra hout
      rw [hquiet.confined r hout] at htask
      exact List.not_mem_nil htask
    exact Multiset.mem_sum.mpr ⟨r, List.mem_toFinset.mpr hr, htask⟩
  have hwork : (.waiting, p') ∈ work n (.processState v p' r ii rest finite ::ₘ others) :=
    Multiset.mem_add.mpr (Or.inl (Multiset.mem_map.mpr ⟨p', hqueued, rfl⟩))
  have hself : p' = p := (hquiet.live p' (mem_references_of_mem_work hwork)).eq_of_id
    (hcounted.task hl) (Option.some.inj hd)
  subst hself
  refine ⟨v, p', r, ii, rest, finite, rfl, ?_, Multiset.count_pos.mpr hwork⟩
  rw [hstate]
  cases v with
  | queueDisable q' =>
    simp only [Visitor.marks] at hs
    split at hs
    · exact Or.inl (Option.some.inj hs).symm
    · cases hs
  | queueEnable q' =>
    simp only [Visitor.marks] at hs
    split at hs
    · exact Or.inr (Option.some.inj hs).symm
    · cases hs
  | _ => cases hs

/-- The program with the phase of a queue and the history of a task. -/
def queueCode (q p : Ptr) : Code (Node × QueuePhase × History) Frame Choice :=
  logged code fun t c f n l => (QueuePhase.record q t c f n l.1, History.record p t c f n l.2)

/-- A node that has just been started. -/
def bootQueue (attributes : NodeAttributes) (mode : SchedulerMode) (clients : Nat) :
    State (Node × QueuePhase × History) Frame :=
  ⟨((boot attributes mode clients).mem, .active, ⟨false, []⟩),
    (boot attributes mode clients).callStacks⟩

theorem quietQueue_boot (q : Ptr) (attributes : NodeAttributes) (mode : SchedulerMode)
    (clients : Nat) : QuietQueue q (boot attributes mode clients).mem .active
      (boot attributes mode clients).frames := by
  have htraversals : traversals (boot attributes mode clients).frames = 0 := by
    rw [Multiset.eq_zero_iff_forall_notMem]
    intro x hx
    obtain ⟨f, hf, hm⟩ := mem_gather.mp hx
    rcases mem_frames_boot hf with rfl | rfl <;> exact absurd hm List.not_mem_nil
  have hnone : ∀ x, x ∉ traversals (boot attributes mode clients).frames := by
    intro x hx
    rw [htraversals] at hx
    exact Multiset.notMem_zero x hx
  refine ⟨workCounted_boot _ attributes mode clients, fun r => ?_, ?_,
    fun x hx => absurd hx (hnone x), fun x hx => absurd hx (hnone x),
    fun v p r ii rest finite hf => ?_, fun x hx => absurd hx (hnone x),
    fun hl => absurd rfl hl, fun hl => (by cases hl), fun _ p hw => ?_⟩
  · rw [htraversals, Multiset.countP_zero]
    exact Nat.zero_le _
  · rw [htraversals, Multiset.countP_zero]
    exact Nat.zero_le _
  · rcases mem_frames_boot hf with he | he <;> cases he
  · have hm := mem_references_of_mem_work (Multiset.count_pos.mp hw)
    rw [references_boot] at hm
    exact absurd hm (Multiset.notMem_zero p)

theorem queueCode_preserved {q : Ptr} (hq : q.id ≠ idPoolInvalidId) (p : Ptr) :
    Preserves (queueCode q p)
      (fun t c f m fs => KeepsQueue q t c f m.1 m.2.1 fs ∧ KeepsTask q p f m.1 m.2.2)
      (fun m fs => QuietQueue q m.1 m.2.1 fs ∧ InstancesCounted p m.1 m.2.2 fs) :=
  fun _ _ _ _ _ h hg => ⟨h.1.step hq hg.1, h.2.exec (hg.2.keepsInstances h.1 h.2 hg.1)⟩

/-- In every run in which the traversals reach all tasks of the queue, and nobody enqueues a task or
takes one past its state while the queue is disabled: no task of the queue begins to execute from
the return of `mtapi_queue_disable` until the next `mtapi_queue_enable`. After that no task with
instances left is retained, unless its start call is still at work, and every instance is executed
once. -/
theorem retained_queue_quiet (attributes : NodeAttributes) (mode : SchedulerMode) (clients : Nat)
    (es : List (Nat × Choice)) (q p : Ptr) (hq : q.id ≠ idPoolInvalidId)
    (hg : Always (queueCode q p)
      (fun t c f m fs => KeepsQueue q t c f m.1 m.2.1 fs ∧ KeepsTask q p f m.1 m.2.2)
      (bootQueue attributes mode clients) es) :
    let s := run (queueCode q p) (bootQueue attributes mode clients) es
    (s.mem.2.1 = .disabled → ∀ f ∈ s.frames, ∀ p' ∈ f.begins, (s.mem.1.task p').queue ≠ q) ∧
      (s.mem.2.1 = .active → ∀ p', 0 < waiting s.mem.1 s.frames p' →
        (s.mem.1.task p').queue = q → (s.mem.1.task p').state = .retained →
          ∃ f ∈ s.frames, p' ∈ f.unready) ∧
      (s.mem.2.2.started = true →
        RunOnce (s.mem.1.task p).attributes.numInstances (s.mem.1.task p).state
          s.mem.2.2.events ∧
        (0 < waiting s.mem.1 s.frames p →
          (s.mem.1.task p).state.waits = true ∨ ∃ f ∈ s.frames, p ∈ f.unready) ∧
        (waiting s.mem.1 s.frames p = 0 → phasesOf p s.frames = 0 →
          s.mem.2.2.events.count .completed = 1)) := by
  intro s
  obtain ⟨hquiet, hcounted⟩ := (queueCode_preserved hq p).run hg
    ⟨quietQueue_boot q attributes mode clients, instancesCounted_boot p attributes mode clients⟩
  refine ⟨fun hl f hf p' hp' hqueue => ?_, hquiet.again, fun hl => ?_⟩
  · have hwork : (.waiting, p') ∈ f.work ∧ f.circulates = false := by
      cases f with
      | workerContext | helperContext =>
        cases List.mem_singleton.mp hp'
        exact ⟨List.mem_singleton_self _, rfl⟩
      | _ => exact absurd hp' List.not_mem_nil
    have hactive : s.mem.2.1 ≠ .active := by
      rw [hl]
      exact QueuePhase.noConfusion
    have hcirculates := (hquiet.circulating hactive f hf p' hwork.1 hqueue).2
    rw [hwork.2] at hcirculates
    cases hcirculates
  · have hhistory := hcounted.history hl
    refine ⟨hhistory.runOnce (active_le_waiting _ p _) (hcounted.state hl), hcounted.ready hl,
      fun hwaiting hphases => ?_⟩
    rw [hphases] at hhistory
    exact (hhistory.told hwaiting).1

/-- A test that is enough for the guards. -/
def quietTest (q : Ptr) (_ : Nat) (_ : Choice) (f : Frame) (m : Node × QueuePhase × History)
    (fs : Multiset Frame) : Bool :=
  (f.loses m.1).isEmpty && (f.traversal.isEmpty || (m.1.queue q).attributes.retain) && match f with
  | .taskDelete .. | .taskDeallocate .. | .cancelState _ | .startFailed _ | .executeDeleted ..
  | .executeError .. | .workerCancelledTodo .. => false
  | .queueDisableStore .. | .queueEnableStore _ =>
    decide ((∀ g ∈ fs, g.traversal.isEmpty = true) ∧ ∀ g ∈ fs, g.work = [])
  | .startInit call _ => decide (call.attributes.numInstances ≠ 0)
  | .startQueueCount .. | .helperScan _ => decide (m.2.1 = .active)
  | .workerScan _ => decide (m.2.1 = .active ∨ m.2.1 = .disabled)
  | .processTasks _ (r :: _) _ => decide ((m.1.workerQueue r).getTaskPosition = 0)
  | .processQueue v r ii _ _ => ((m.1.workerQueue r).taskBuffer ii).all fun p => m.1.visits p v
  | .processState v .. => (v.marks q).isSome
  | .executeAction ctx _ => m.1.actionPool.isHandleValid (m.1.task ctx.task).action
  | _ => true

theorem keeps_of_quietTest (q p : Ptr) (t : Nat) (c : Choice) (f : Frame)
    (m : Node × QueuePhase × History) (fs : Multiset Frame) (h : quietTest q t c f m fs = true) :
    KeepsQueue q t c f m.1 m.2.1 fs ∧ KeepsTask q p f m.1 m.2.2 := by
  unfold quietTest at h
  rw [Bool.and_eq_true, Bool.and_eq_true] at h
  obtain ⟨⟨hl, hr⟩, h⟩ := h
  have hloses : ∀ p', p' ∉ f.loses m.1 := by
    rw [List.isEmpty_iff.mp hl]
    exact fun _ => List.not_mem_nil
  have hdisturbs : ∀ id, f.disturbs = some id → ∃ v p r ii rest finite,
      f = .processState v p r ii rest finite ∧ (v.marks q).isSome = true := by
    intro id hd
    cases f with
    | processState v p r ii rest finite => exact ⟨v, p, r, ii, rest, finite, rfl, h⟩
    | cancelState | startFailed | executeDeleted | executeError | workerCancelledTodo => cases h
    | _ => cases hd
  refine ⟨⟨?_, ?_, ?_, ?_, ?_, ?_, ?_, fun id hd _ => hdisturbs id hd,
    fun p' hp' => absurd hp' (hloses p')⟩,
    ⟨?_, fun _ hp' => absurd hp' (hloses p), fun _ hd => hdisturbs _ hd, ?_⟩⟩
  · rintro p' caller (rfl | rfl)
    · cases h
    · cases h
  · intro hs
    have hidle : (∀ g ∈ fs, g.traversal.isEmpty = true) ∧ ∀ g ∈ fs, g.work = [] := by
      obtain ⟨finite, rfl⟩ | rfl := QuietQueue.stores_cases hs
      · exact of_decide_eq_true h
      · exact of_decide_eq_true h
    constructor
    · intro x hx
      obtain ⟨g, hg, hm⟩ := mem_gather.mp hx
      rw [List.isEmpty_iff.mp (hidle.1 g hg)] at hm
      exact absurd hm List.not_mem_nil
    · intro g hg p' hm
      rw [hidle.2 g hg] at hm
      exact absurd hm List.not_mem_nil
  · rintro call p' rfl -
    exact of_decide_eq_true h
  · intro r p' hu _ _
    have hissued := exec_issuedBy t c f m.1
    rw [hu] at hissued
    obtain ⟨-, rest, rfl | rfl⟩ := hissued
    · exact (of_decide_eq_true h).imp id fun hd => ⟨hd, rest, rfl⟩
    · exact Or.inl (of_decide_eq_true h)
  · intro x hx _
    rcases Bool.or_eq_true _ _ ▸ hr with he | hretain
    · rw [List.isEmpty_iff.mp he] at hx
      exact absurd hx List.not_mem_nil
    · exact hretain
  · rintro v r ii rest finite p' rfl - hp'
    simp only [hp', Option.all_some] at h
    exact h
  · rintro v r rest finite rfl -
    exact of_decide_eq_true h
  · rintro call rfl
    exact of_decide_eq_true h
  · rintro - ctx todo rfl rfl
    exact h

/-- The attributes of a retaining queue. -/
def retainingQueue : QueueAttributes := { QueueAttributes.init with retain := true }

/-- A task is enqueued into a retaining queue, and the queue is disabled. A worker passes the task
round twice. -/
def enqueueAndDisable : List (Nat × Choice) :=
  calls 1 (.actionCreate 1 none) 4 ++ calls 1 (.queueCreate 1 ⟨0, 1⟩ (some retainingQueue)) 2 ++
    calls 1 (.taskEnqueue ⟨0, 1⟩ none Handle.invalid) 19 ++
    calls 1 (.queueDisable ⟨0, 1⟩ false) 11 ++ goes 0 20

/-- The queue is enabled, and the worker executes the task. -/
def enableAndExecute : List (Nat × Choice) :=
  enqueueAndDisable ++ calls 1 (.queueEnable ⟨0, 1⟩) 11 ++ goes 0 9 ++ [(0, .leave)] ++ goes 0 12

/-- Nobody begins to execute the task while the queue is disabled. In the end it has been executed
once. -/
theorem retained_queue_quiet_once :
    (∀ f ∈ (run (queueCode ⟨0, 1⟩ ⟨0, 1⟩) (bootQueue (smallNode 1) .workStealVhpf 1)
        enqueueAndDisable).frames, ∀ p ∈ f.begins,
        ((run (queueCode ⟨0, 1⟩ ⟨0, 1⟩) (bootQueue (smallNode 1) .workStealVhpf 1)
          enqueueAndDisable).mem.1.task p).queue ≠ ⟨0, 1⟩) ∧
      (run (queueCode ⟨0, 1⟩ ⟨0, 1⟩) (bootQueue (smallNode 1) .workStealVhpf 1)
        enableAndExecute).mem.2.2.events.count .completed = 1 := by
  have hdisabled := retained_queue_quiet (smallNode 1) .workStealVhpf 1 enqueueAndDisable ⟨0, 1⟩
    ⟨0, 1⟩ (by decide) (Always.mono (keeps_of_quietTest ⟨0, 1⟩ ⟨0, 1⟩) (by decide +kernel))
  have hexecuted := retained_queue_quiet (smallNode 1) .workStealVhpf 1 enableAndExecute ⟨0, 1⟩
    ⟨0, 1⟩ (by decide) (Always.mono (keeps_of_quietTest ⟨0, 1⟩ ⟨0, 1⟩) (by decide +kernel))
  exact ⟨hdisabled.1 (by decide +kernel),
    (hexecuted.2.2 (by decide +kernel)).2.2 (by decide +kernel) (by decide +kernel)⟩

/-- A retaining queue is disabled, and a task enqueued into it. -/
def disableAndEnqueue : List (Nat × Choice) :=
  calls 1 (.actionCreate 1 none) 4 ++ calls 1 (.queueCreate 1 ⟨0, 1⟩ (some retainingQueue)) 2 ++
    calls 1 (.queueDisable ⟨0, 1⟩ false) 9 ++ calls 1 (.taskEnqueue ⟨0, 1⟩ none Handle.invalid) 19

/-- The task is accepted, and a worker begins to execute it while the queue is disabled. -/
theorem retained_queue_executes :
    (run (queueCode ⟨0, 1⟩ ⟨0, 1⟩) (bootQueue (smallNode 1) .workStealVhpf 1)
        (disableAndEnqueue ++ goes 0 5)).mem.2.1 = .disabled ∧
      ((run (queueCode ⟨0, 1⟩ ⟨0, 1⟩) (bootQueue (smallNode 1) .workStealVhpf 1)
        (disableAndEnqueue ++ goes 0 5)).mem.1.queue ⟨0, 1⟩).attributes.retain = true ∧
      ((run (queueCode ⟨0, 1⟩ ⟨0, 1⟩) (bootQueue (smallNode 1) .workStealVhpf 1)
        (disableAndEnqueue ++ goes 0 5)).mem.1.task ⟨0, 1⟩).queue = ⟨0, 1⟩ ∧
      ((run (queueCode ⟨0, 1⟩ ⟨0, 1⟩) (bootQueue (smallNode 1) .workStealVhpf 1)
        (disableAndEnqueue ++ goes 0 5)).top 0).map Frame.begins = some [⟨0, 1⟩] ∧
      ((run (queueCode ⟨0, 1⟩ ⟨0, 1⟩) (bootQueue (smallNode 1) .workStealVhpf 1)
        (disableAndEnqueue ++ goes 0 9)).top 0).bind Frame.actionTask = some ⟨0, 1⟩ := by
  decide +kernel

end Embb.Mtapi
