import Embb.Mtapi.Scheduler.Placement

/-!
# The work left on a task

A task is over when its last instance is over, and then its group and its queue
are told. Where the instances of a task are, and who is about to tell group and
queue, is read off the worker queues and the program points; `instances_todo` of
the task takes no part in it. That the code's own count agrees is an invariant.
-/

namespace Embb.Mtapi

open Threads

/-- How far an instance has come. -/
inductive Stage where
  /-- The instance has not been executed or dropped. -/
  | waiting
  /-- The last instance of the task is over, and its group has not been told. -/
  | finishing
  /-- The queue of the task is about to be told. -/
  | notifying
  deriving DecidableEq, Repr

/-- The instances of a new task that its start call has still to push, after the one
that is being scheduled. -/
def ScheduleCaller.rest (caller : ScheduleCaller) (p : Ptr) : List (Stage × Ptr) :=
  match caller with
  | .start call kk _ => List.replicate (call.attributes.numInstances - (kk + 1)) (.waiting, p)
  | .retained => []

/-- The work that a program point keeps in hand. -/
def Frame.work : Frame → List (Stage × Ptr)
  | .workerQueue p | .workerSwitch p _ | .workerContext p _ | .workerCancelled p _
  | .workerCancelledTodo p _ | .helperContext p => [(.waiting, p)]
  | .executeRunning ctx | .executeAction ctx _ | .executeCheck ctx _ | .actionFunction ctx _
  | .executeTodo ctx _ => [(.waiting, ctx.task)]
  | .schedule p _ caller | .scheduleAffinity p _ _ caller | .scheduleCount p _ _ _ caller
  | .scheduleAffine p _ _ caller | .scheduleSearch p _ _ _ caller
  | .schedulePush p _ _ _ caller | .scheduleUndo p _ caller => (.waiting, p) :: caller.rest p
  | .startGroup call p | .startGroupCount call p | .startQueue call p | .startQueueCount call p
  | .startChoose call p _ _ | .startChooseLoad call p _ _ _ _ | .startAction call p _
  | .startSchedule call p => List.replicate call.attributes.numInstances (.waiting, p)
  | .startInstances call p kk _ =>
    List.replicate (call.attributes.numInstances - kk) (.waiting, p)
  | .executeCompleted ctx _ | .executeGroup ctx | .executeGroupPush ctx _ =>
    [(.finishing, ctx.task)]
  | .executeNumTasks ctx _ todo | .executeDeleted ctx todo | .executeError ctx todo =>
    if todo = 1 then [(.finishing, ctx.task)] else []
  | .workerFinished p _ => [(.notifying, p)]
  | _ => []

/-- All work left. -/
def work (n : Node) (fs : Multiset Frame) : Multiset (Stage × Ptr) :=
  n.queued.map (Prod.mk .waiting) + fs.bind fun f => (f.work : Multiset (Stage × Ptr))

theorem work_cons (n : Node) (f : Frame) (fs : Multiset Frame) :
    work n (f ::ₘ fs) = (f.work : Multiset (Stage × Ptr)) + work n fs := by
  rw [work, work, Multiset.cons_bind, add_left_comm]

theorem work_add (n : Node) (fs : List Frame) (others : Multiset Frame) :
    work n (fs + others) = (fs.flatMap Frame.work : List (Stage × Ptr)) + work n others := by
  rw [work, work, Multiset.add_bind, Multiset.coe_bind, add_left_comm]

theorem Frame.mem_refs_of_mem_work {f : Frame} {s : Stage} {p : Ptr} (h : (s, p) ∈ f.work) :
    p ∈ f.refs := by
  have hrest : ∀ {caller : ScheduleCaller} {q : Ptr},
      (s, p) ∈ (Stage.waiting, q) :: caller.rest q → p ∈ [q] := by
    intro caller q hm
    rcases List.mem_cons.mp hm with hm | hm
    · exact List.mem_singleton.mpr (Prod.mk.inj hm).2
    · cases caller with
      | start call kk was =>
        exact List.mem_singleton.mpr (Prod.mk.inj (List.mem_replicate.mp hm).2).2
      | retained => exact absurd hm List.not_mem_nil
  have hone : ∀ {x : Stage} {q : Ptr}, (s, p) ∈ [(x, q)] → p ∈ [q] := fun hm =>
    List.mem_singleton.mpr (Prod.mk.inj (List.mem_singleton.mp hm)).2
  have hrep : ∀ {k : Nat} {q : Ptr}, (s, p) ∈ List.replicate k (Stage.waiting, q) → p ∈ [q] :=
    fun hm => List.mem_singleton.mpr (Prod.mk.inj (List.mem_replicate.mp hm).2).2
  unfold Frame.work at h
  split at h
  all_goals first
    | exact hone h
    | exact hrest h
    | exact hrep h
    | exact absurd h List.not_mem_nil
    | split at h
      · exact hone h
      · exact absurd h List.not_mem_nil

theorem Frame.work_of_refs {f : Frame} (h : f.refs = []) : f.work = [] :=
  Frame.eq_nil_of_refs (fun _ hx => mem_refs_of_mem_work hx) h

theorem mem_references_of_mem_work {n : Node} {fs : Multiset Frame} {s : Stage} {p : Ptr}
    (h : (s, p) ∈ work n fs) : p ∈ references n fs := by
  rcases Multiset.mem_add.mp h with h | h
  · obtain ⟨q, hq, he⟩ := Multiset.mem_map.mp h
    rw [← (Prod.mk.inj he).2]
    exact Multiset.mem_add.mpr (Or.inl hq)
  · obtain ⟨f, hf, h⟩ := Multiset.mem_bind.mp h
    exact mem_references_of_mem hf (Frame.mem_refs_of_mem_work h)

/-- What a worker still has to do for its task after `embb_mtapi_task_execute`. -/
def Context.notifies (ctx : Context) : List (Stage × Ptr) :=
  match ctx.by' with
  | .worker (some _) => [(.notifying, ctx.task)]
  | _ => []

theorem Context.notifies_cases (ctx : Context) :
    ctx.notifies = [] ∨ ctx.notifies = [(.notifying, ctx.task)] := by
  unfold notifies
  split
  · exact Or.inr rfl
  · exact Or.inl rfl

theorem work_contextResume_false (ctx : Context) :
    (ctx.resume false).flatMap Frame.work = [] := by
  rcases ctx with ⟨_ | _, p, i, m⟩
  · rename_i lq
    cases lq <;> rfl
  · rfl

theorem work_contextResume_true (ctx : Context) :
    (ctx.resume true).flatMap Frame.work = ctx.notifies := by
  rcases ctx with ⟨_ | _, p, i, m⟩
  · rename_i lq
    cases lq <;> rfl
  · rfl

theorem work_scheduleResume (caller : ScheduleCaller) (p : Ptr) (pushed : Bool) :
    (caller.resume p pushed).flatMap Frame.work = caller.rest p := by
  cases caller with
  | start call kk was =>
    rw [ScheduleCaller.resume, List.flatMap_cons, List.flatMap_nil, List.append_nil]
    rfl
  | retained => rfl

theorem work_executeTaskOrYield (n : Node) (t : Nat) (back : Frame) :
    (n.executeTaskOrYield t back).flatMap Frame.work = back.work :=
  flatMap_executeTaskOrYield (fun _ => rfl) n t back

/-- The program points that change the work left, or move it. -/
def Frame.movesWork : Frame → Bool
  | .workerScan (_ :: _) | .helperScan (_ :: _) | .schedulePush .. | .workerSwitch ..
  | .workerCancelledTodo .. | .workerFinished .. | .executeAction .. | .executeTodo ..
  | .executeGroup .. | .executeGroupPush .. | .schedule .. | .scheduleUndo .. | .startInit ..
  | .startAction .. | .startInstances .. => true
  | _ => false

/-- All other program points keep the work they have in hand. -/
theorem exec_work_of_keeps (t : Nat) (c : Choice) {f : Frame} (n : Node)
    (h : f.movesWork = false) : (exec t c f n).2.flatMap Frame.work = f.work := by
  fun_cases exec t c f n
  all_goals first
    | rfl
    | exact work_executeTaskOrYield _ _ _
    | cases h; done
    | exact List.append_nil _
    | rw [List.flatMap_cons, Frame.work_of_refs (refs_entry _ _)]
      rfl
    | rw [List.flatMap_cons, Frame.work_of_refs (refs_deleteResume _)]
      rfl
    | rw [List.flatMap_cons, Frame.work_of_refs (refs_visitorResume _ _ _)]
      rfl
    | rename_i ht
      rw [work_contextResume_false, Frame.work, if_neg ht]

theorem Frame.movesWork_cases {f : Frame} (h : ¬ f.movesWork = false) :
    (∃ r rest, f = .workerScan (r :: rest)) ∨ (∃ r rest, f = .helperScan (r :: rest)) ∨
      (∃ p ii isPrivate a caller, f = .schedulePush p ii isPrivate a caller) ∨
      (∃ p lq, f = .workerSwitch p lq) ∨ (∃ p lq, f = .workerCancelledTodo p lq) ∨
      (∃ p q, f = .workerFinished p q) ∨ (∃ ctx todo, f = .executeAction ctx todo) ∨
      (∃ ctx a, f = .executeTodo ctx a) ∨ (∃ ctx, f = .executeGroup ctx) ∨
      (∃ ctx g, f = .executeGroupPush ctx g) ∨ (∃ p ii caller, f = .schedule p ii caller) ∨
      (∃ p a caller, f = .scheduleUndo p a caller) ∨ (∃ call p, f = .startInit call p) ∨
      (∃ call p i, f = .startAction call p i) ∨
      ∃ call p kk was, f = .startInstances call p kk was := by
  unfold Frame.movesWork at h
  split at h
  all_goals first | exact absurd rfl h | simp

/-- The work that comes up at a program point. -/
def Frame.beginsWork (n : Node) : Frame → List (Stage × Ptr)
  | .startInit call p => List.replicate call.attributes.numInstances (.waiting, p)
  | .executeTodo ctx _ =>
    if (n.task ctx.task).instancesTodo = 1 then [(.finishing, ctx.task)] else []
  | .executeAction ctx todo =>
    if n.actionPool.isHandleValid (n.task ctx.task).action then []
    else if todo = 1 then [(.finishing, ctx.task)] else []
  | .executeGroup ctx =>
    if n.groupPool.isHandleValid (n.task ctx.task).group then [] else ctx.notifies
  | .executeGroupPush ctx _ => ctx.notifies
  | .workerCancelledTodo p (some _) =>
    if (n.task p).instancesTodo = 0 then [(.notifying, p)] else []
  | _ => []

/-- The work that is over at a program point, done or lost. -/
def Frame.endsWork (n : Node) : Frame → List (Stage × Ptr)
  | .executeTodo ctx _ => [(.waiting, ctx.task)]
  | .executeAction ctx _ =>
    if n.actionPool.isHandleValid (n.task ctx.task).action then [] else [(.waiting, ctx.task)]
  | .workerSwitch p _ =>
    match (n.task p).state with
    | .scheduled | .running | .retained | .cancelled => []
    | _ => [(.waiting, p)]
  | .workerCancelledTodo p _ => [(.waiting, p)]
  | .schedule p _ _ =>
    if n.actionPool.isHandleValid (n.task p).action then [] else [(.waiting, p)]
  | .scheduleUndo p _ _ => [(.waiting, p)]
  | .startAction call p i =>
    if n.actionPool.isHandleValid ((n.jobList call.job.id).actions i) ∧
        (n.task p).attributes.priority < n.attributes.maxPriorities then []
    else List.replicate call.attributes.numInstances (.waiting, p)
  | .executeGroup ctx =>
    if n.groupPool.isHandleValid (n.task ctx.task).group then []
    else [(.finishing, ctx.task)]
  | .executeGroupPush ctx _ => [(.finishing, ctx.task)]
  | .workerFinished p _ => [(.notifying, p)]
  | _ => []

theorem Frame.beginsWork_of_keeps (n : Node) {f : Frame} (h : f.movesWork = false) :
    f.beginsWork n = [] := by
  unfold Frame.beginsWork
  split
  all_goals first | rfl | cases h

theorem Frame.endsWork_of_keeps (n : Node) {f : Frame} (h : f.movesWork = false) :
    f.endsWork n = [] := by
  unfold Frame.endsWork
  split
  all_goals first | rfl | cases h

theorem Frame.movesEntry_of_movesWork {f : Frame} (h : f.movesWork = false) :
    f.movesEntry = false := by
  unfold Frame.movesEntry
  split
  all_goals first | rfl | cases h

section Balance

variable {t : Nat} {c : Choice} {f : Frame} {n : Node} {others : Multiset Frame}

/-- A step that moves no entry balances if what its frames keep in hand balances. -/
theorem work_of_stays (hu : (exec t c f n).1.movesEntry = false)
    (he : (f.work : Multiset (Stage × Ptr)) + f.beginsWork n =
      ((exec t c f n).2.flatMap Frame.work : List (Stage × Ptr)) +
        (f.endsWork n : Multiset (Stage × Ptr))) :
    work n (f ::ₘ others) + f.beginsWork n =
      work (code t c f n).1 ((code t c f n).2 + others) + f.endsWork n := by
  have hw : work (code t c f n).1 others = work n others := by
    rw [work, work, code, n.queued_of_keeps hu]
  rw [work_cons, work_add, hw, add_right_comm, he, add_right_comm, code]

/-- A scan for work moves an entry from its queue to the thread. -/
theorem work_scan (hn : n.Confined)
    (hf : (∃ r rest, f = .workerScan (r :: rest)) ∨ ∃ r rest, f = .helperScan (r :: rest)) :
    work n (f ::ₘ others) = work (code t c f n).1 ((code t c f n).2 + others) := by
  rw [work_cons, work_add]
  obtain ⟨r, rest, rfl⟩ | ⟨r, rest, rfl⟩ := hf
  · rcases (exec_scan t c r rest n).1 with he | ⟨p, hp, he⟩
    · rw [code, he]
      rfl
    · rw [code, he, work, work, Node.queued_pop hn hp, Multiset.map_cons, Multiset.cons_add]
      exact zero_add _
  · rcases (exec_scan t c r rest n).2 with he | ⟨p, hp, he⟩
    · rw [code, he]
      rfl
    · rw [code, he, work, work, Node.queued_pop hn hp, Multiset.map_cons, Multiset.cons_add]
      exact zero_add _

/-- A push moves an instance from the thread to a queue. -/
theorem work_schedulePush {p : Ptr} {ii : Nat} {isPrivate : Bool} {a : Ptr}
    {caller : ScheduleCaller} (hf : f = .schedulePush p ii isPrivate a caller) :
    work n (f ::ₘ others) = work (code t c f n).1 ((code t c f n).2 + others) := by
  subst hf
  rw [work_cons, work_add]
  rcases exec_schedulePush t c p ii isPrivate a caller n with he | he | ⟨r, hr, hp, he⟩
  · rw [code, he, List.flatMap_cons, List.flatMap_nil, List.append_nil]
    rfl
  · rw [code, he, List.flatMap_cons, List.flatMap_nil, List.append_nil]
    rfl
  · rw [code, he, work_scheduleResume, work, work, Node.queued_push hr hp, Multiset.map_cons,
      Multiset.cons_add, Multiset.add_cons, ← Multiset.cons_add]
    rfl

/-- Work only comes up where an instance is started or the last one is over, and only
ends where it is done or lost. -/
theorem work_exec (hn : n.Confined)
    (ha : ∀ call p kk was, f = .startInstances call p kk was →
      (n.task p).attributes = call.attributes) :
    work n (f ::ₘ others) + f.beginsWork n =
      work (code t c f n).1 ((code t c f n).2 + others) + f.endsWork n := by
  have hcons : ∀ (p : Ptr) (caller : ScheduleCaller),
      (((Stage.waiting, p) :: caller.rest p : List (Stage × Ptr)) : Multiset (Stage × Ptr)) +
        ([] : List (Stage × Ptr)) = (caller.rest p : Multiset (Stage × Ptr)) +
          ([(Stage.waiting, p)] : List (Stage × Ptr)) := by
    intro p caller
    rw [← Multiset.cons_coe, Multiset.coe_nil, add_zero, Multiset.coe_singleton, add_comm,
      Multiset.singleton_add]
  by_cases hf : f.movesWork = false
  · refine work_of_stays (exec_movesEntry_of_keeps t c n (Frame.movesEntry_of_movesWork hf)) ?_
    rw [exec_work_of_keeps t c n hf, Frame.beginsWork_of_keeps n hf, Frame.endsWork_of_keeps n hf]
  · obtain ⟨r, rest, rfl⟩ | ⟨r, rest, rfl⟩ | ⟨p, ii, isPrivate, a, caller, rfl⟩ | ⟨p, lq, rfl⟩ |
      ⟨p, lq, rfl⟩ | ⟨p, q, rfl⟩ | ⟨ctx, todo, rfl⟩ | ⟨ctx, a, rfl⟩ | ⟨ctx, rfl⟩ |
      ⟨ctx, g, rfl⟩ | ⟨p, ii, caller, rfl⟩ | ⟨p, a, caller, rfl⟩ | ⟨call, p, rfl⟩ |
      ⟨call, p, i, rfl⟩ | ⟨call, p, kk, was, rfl⟩ := Frame.movesWork_cases hf
    · rw [work_scan hn (Or.inl ⟨r, rest, rfl⟩)]
      rfl
    · rw [work_scan hn (Or.inr ⟨r, rest, rfl⟩)]
      rfl
    · rw [work_schedulePush rfl]
      rfl
    all_goals refine work_of_stays (exec_movesEntry_of_keeps t c n rfl) ?_
    · simp only [exec, Frame.endsWork]
      cases (n.task p).state <;> rfl
    · cases lq with
      | some q =>
        by_cases hz : (n.task p).instancesTodo = 0
        · simp only [exec, Frame.beginsWork, hz, ↓reduceIte]
          exact add_comm _ _
        · simp only [exec, Frame.beginsWork, hz, ↓reduceIte]
          exact add_comm _ _
      | none => exact add_comm _ _
    · rfl
    · simp only [exec, Frame.beginsWork, Frame.endsWork]
      split
      · rfl
      · rw [List.flatMap_cons, List.flatMap_nil, List.append_nil, Frame.work, Frame.work]
        exact add_comm _ _
    · simp only [exec, Frame.beginsWork]
      split
      · exact add_comm _ _
      · rename_i ht
        rw [List.flatMap_cons, List.flatMap_nil, List.append_nil, Frame.work, Frame.work,
          if_neg ht]
        exact add_comm _ _
    · simp only [exec, Frame.beginsWork, Frame.endsWork]
      split
      · rfl
      · rw [work_contextResume_true]
        exact add_comm _ _
    · simp only [exec, Frame.beginsWork, Frame.endsWork]
      rw [work_contextResume_true]
      exact add_comm _ _
    · simp only [exec, Frame.endsWork]
      split
      · rw [List.flatMap_cons, List.flatMap_nil, List.append_nil]
        rfl
      · rw [work_scheduleResume]
        exact hcons p caller
    · simp only [exec, Frame.endsWork]
      rw [work_scheduleResume]
      exact hcons p caller
    · rw [exec, List.flatMap_cons, List.flatMap_nil, List.append_nil]
      exact add_comm _ _
    · simp only [exec, Frame.endsWork]
      by_cases hv : n.actionPool.isHandleValid ((n.jobList call.job.id).actions i) = true
      · by_cases hp : (n.task p).attributes.priority < n.attributes.maxPriorities
        · simp only [hv, hp, and_self, ↓reduceIte, List.flatMap_cons, List.flatMap_nil,
            List.append_nil]
          rfl
        · simp only [hv, hp, and_false, ↓reduceIte]
          exact add_comm _ _
      · simp only [hv, false_and, Bool.false_eq_true, ↓reduceIte]
        exact add_comm _ _
    · have hattr := ha call p kk was rfl
      simp only [exec, hattr]
      split
      · rename_i hk
        have hrep : call.attributes.numInstances - kk =
            call.attributes.numInstances - (kk + 1) + 1 := by omega
        rw [Frame.work, hrep, List.replicate_succ, List.flatMap_cons, List.flatMap_nil,
          List.append_nil]
        rfl
      · rename_i hk
        have hrep : call.attributes.numInstances - kk = 0 := by omega
        rw [Frame.work, hrep]
        split <;> rfl

end Balance

end Embb.Mtapi
