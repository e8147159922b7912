import Embb.Mtapi.Scheduler.Tally

/-!
# The completion callback

A worker calls the completion function of a task whenever it is through with an entry of a
worker queue, whatever it has done with it. So every entry stands for one call: those in the
queues, those in the hands of threads, and those that start calls have still to push. How
many calls that makes for a task depends on how its entries come and go.
-/

namespace Embb.Mtapi

open Threads

/-- `MTAPI_TASK_COMPLETE_FUNCTION` is set. -/
def hasCallback (n : Node) (p : Ptr) : Prop := (n.task p).attributes.completeFunc ≠ none

instance (n : Node) (p : Ptr) : Decidable (hasCallback n p) :=
  inferInstanceAs (Decidable (_ ≠ _))

/-- The calls that follow once an instance has been scheduled. -/
def ScheduleCaller.owes (caller : ScheduleCaller) (p : Ptr) : List Ptr :=
  match caller with
  | .start call kk _ => List.replicate (call.attributes.numInstances - (kk + 1)) p
  | .retained => [p]

/-- The calls that a program point is going to lead to. -/
def Frame.owes : Frame → List Ptr
  | .workerQueue p | .workerSwitch p _ | .workerContext p _ | .workerCancelled p _
  | .workerCancelledTodo p _ | .workerFinished p _ | .workerCallback p | .helperContext p => [p]
  | .executeRunning ctx | .executeAction ctx _ | .executeCheck ctx _ | .actionFunction ctx _
  | .executeTodo ctx _ | .executeCompleted ctx _ | .executeNumTasks ctx _ _
  | .executeDeleted ctx _ | .executeError ctx _ | .executeGroup ctx
  | .executeGroupPush ctx _ => [ctx.task]
  | .schedule p _ caller | .scheduleAffinity p _ _ caller | .scheduleCount p _ _ _ caller
  | .scheduleAffine p _ _ caller | .scheduleSearch p _ _ _ caller
  | .schedulePush p _ _ _ caller | .scheduleUndo p _ caller => p :: caller.owes p
  | .startSchedule call p => List.replicate call.attributes.numInstances p
  | .startInstances call p kk _ => List.replicate (call.attributes.numInstances - kk) p
  | _ => []

/-- The calls that all entries and program points are going to lead to. -/
def owing (n : Node) (fs : Multiset Frame) : Multiset Ptr :=
  n.queued + fs.bind fun f => (f.owes : Multiset Ptr)

/-- The calls of completion functions that are still to come. -/
def owed (n : Node) (fs : Multiset Frame) : Multiset Ptr := (owing n fs).filter (hasCallback n)

/-- A thread that waits executes the task. -/
def Context.helps (ctx : Context) : List Ptr :=
  match ctx.by' with
  | .worker _ => []
  | .helper => [ctx.task]

/-- The task that a thread that waits executes. -/
def Frame.helps : Frame → List Ptr
  | .executeRunning ctx | .executeAction ctx _ | .executeCheck ctx _ | .actionFunction ctx _
  | .executeTodo ctx _ | .executeCompleted ctx _ | .executeNumTasks ctx _ _
  | .executeDeleted ctx _ | .executeError ctx _ | .executeGroup ctx
  | .executeGroupPush ctx _ => ctx.helps
  | _ => []

/-- The calls that a program point adds to those to come. -/
def Frame.beginsCalls (n : Node) : Frame → List Ptr
  | .startAction call p i =>
    if n.actionPool.isHandleValid ((n.jobList call.job.id).actions i) ∧
        (n.task p).attributes.priority < n.attributes.maxPriorities then
      List.replicate call.attributes.numInstances p
    else []
  | .workerSwitch p _ => if (n.task p).state = .retained then [p] else []
  | _ => []

/-- The calls that a program point makes or leaves out. -/
def Frame.endsCalls (n : Node) : Frame → List Ptr
  | .workerCallback p => [p]
  | .executeNumTasks ctx _ todo | .executeError ctx todo => if todo = 1 then [] else ctx.helps
  | .executeGroup ctx =>
    if n.groupPool.isHandleValid (n.task ctx.task).group then [] else ctx.helps
  | .executeGroupPush ctx _ => ctx.helps
  | .schedule p _ _ =>
    if n.actionPool.isHandleValid (n.task p).action then [] else [p]
  | .scheduleUndo p _ _ => [p]
  | _ => []

theorem owing_cons (n : Node) (f : Frame) (fs : Multiset Frame) :
    owing n (f ::ₘ fs) = (f.owes : Multiset Ptr) + owing n fs := by
  rw [owing, owing, Multiset.cons_bind, add_left_comm]

theorem owing_add (n : Node) (fs : List Frame) (others : Multiset Frame) :
    owing n (fs + others) = (fs.flatMap Frame.owes : List Ptr) + owing n others := by
  rw [owing, owing, Multiset.add_bind, Multiset.coe_bind, add_left_comm]

theorem ScheduleCaller.mem_owes {caller : ScheduleCaller} {p q : Ptr} (h : q ∈ caller.owes p) :
    q = p := by
  cases caller with
  | start call kk was => exact (List.mem_replicate.mp h).2
  | retained => exact List.mem_singleton.mp h

theorem Frame.mem_refs_of_mem_owes {f : Frame} {p : Ptr} (h : p ∈ f.owes) : p ∈ f.refs := by
  unfold Frame.owes at h
  split at h
  all_goals first
    | exact h
    | exact absurd h List.not_mem_nil
    | exact List.mem_singleton.mpr (List.mem_replicate.mp h).2
    | rcases List.mem_cons.mp h with h | h
      · exact List.mem_singleton.mpr h
      · exact List.mem_singleton.mpr (ScheduleCaller.mem_owes h)

theorem mem_references_of_mem_owing {n : Node} {fs : Multiset Frame} {p : Ptr}
    (h : p ∈ owing n fs) : p ∈ references n fs := by
  rcases Multiset.mem_add.mp h with h | h
  · exact Multiset.mem_add.mpr (Or.inl h)
  · obtain ⟨f, hf, h⟩ := Multiset.mem_bind.mp h
    exact mem_references_of_mem hf (Frame.mem_refs_of_mem_owes h)

theorem ScheduleCaller.mem_rest {caller : ScheduleCaller} {s : Stage} {p q : Ptr}
    (h : (s, q) ∈ caller.rest p) : q = p := by
  cases caller with
  | start call kk was => exact (Prod.mk.inj (List.mem_replicate.mp h).2).2
  | retained => exact absurd h List.not_mem_nil

/-- An instance that is not over leads to a call, unless its start call still writes it. -/
theorem Frame.mem_owes_of_mem_work {f : Frame} {s : Stage} {p : Ptr} (h : (s, p) ∈ f.work) :
    p ∈ f.owes ∨ p ∈ f.fresh := by
  have hone : ∀ {x : Stage} {q : Ptr}, (s, p) ∈ [(x, q)] → p ∈ [q] := fun hm =>
    List.mem_singleton.mpr (Prod.mk.inj (List.mem_singleton.mp hm)).2
  unfold Frame.work at h
  split at h
  all_goals first
    | exact absurd h List.not_mem_nil
    | exact Or.inl (hone h)
    | skip
  all_goals first
    | rcases List.mem_cons.mp h with h | h
      · exact Or.inl (List.mem_cons.mpr (Or.inl (Prod.mk.inj h).2))
      · exact Or.inl (List.mem_cons.mpr (Or.inl (ScheduleCaller.mem_rest h)))
    | obtain ⟨hn, he⟩ := List.mem_replicate.mp h
      exact Or.inl (List.mem_replicate.mpr ⟨hn, (Prod.mk.inj he).2⟩)
    | obtain ⟨hn, he⟩ := List.mem_replicate.mp h
      exact Or.inr (List.mem_singleton.mpr (Prod.mk.inj he).2)
    | split at h
      · exact Or.inl (hone h)
      · exact absurd h List.not_mem_nil

theorem owes_contextResume (ctx : Context) (done : Bool) :
    (ctx.resume done).flatMap Frame.owes ++ ctx.helps = [ctx.task] := by
  rcases ctx with ⟨_ | _, p, i, m⟩
  · rename_i lq
    cases lq <;> cases done <;> rfl
  · rfl

theorem owes_scheduleResume (caller : ScheduleCaller) (p : Ptr) (pushed : Bool) :
    (caller.resume p pushed).flatMap Frame.owes = caller.owes p := by
  cases caller with
  | start call kk was =>
    rw [ScheduleCaller.resume, List.flatMap_cons, List.flatMap_nil, List.append_nil]
    rfl
  | retained => rfl

theorem owes_executeTaskOrYield (n : Node) (t : Nat) {back : Frame} (h : back.owes = []) :
    (n.executeTaskOrYield t back).flatMap Frame.owes = [] := by
  rw [flatMap_executeTaskOrYield fun _ => rfl, h]

theorem Frame.owes_of_refs {f : Frame} (h : f.refs = []) : f.owes = [] :=
  Frame.eq_nil_of_refs (fun _ hx => mem_refs_of_mem_owes hx) h

section Balance

variable {t : Nat} {c : Choice} {f : Frame} {n : Node} {others : Multiset Frame}

/-- Apart from the entries that it moves, a program point hands on the calls that it owes. -/
theorem exec_owes (hf : f.movesEntry = false)
    (ha : ∀ call p kk was, f = .startInstances call p kk was →
      (n.task p).attributes = call.attributes) :
    (f.owes : Multiset Ptr) + f.beginsCalls n =
      ((exec t c f n).2.flatMap Frame.owes : List Ptr) + (f.endsCalls n : Multiset Ptr) := by
  have hhelps : ∀ (ctx : Context) (done : Bool),
      (([ctx.task] : List Ptr) : Multiset Ptr) + ([] : List Ptr) =
        ((ctx.resume done).flatMap Frame.owes : List Ptr) + (ctx.helps : Multiset Ptr) := by
    intro ctx done
    rw [Multiset.coe_add, Multiset.coe_add, owes_contextResume, List.append_nil]
  have hsched : ∀ (p : Ptr) (caller : ScheduleCaller) (pushed : Bool),
      ((p :: caller.owes p : List Ptr) : Multiset Ptr) + ([] : List Ptr) =
        ((caller.resume p pushed).flatMap Frame.owes : List Ptr) + ([p] : List Ptr) := by
    intro p caller pushed
    rw [owes_scheduleResume, Multiset.coe_add, Multiset.coe_add, List.append_nil,
      Multiset.coe_eq_coe]
    exact (List.perm_append_singleton p _).symm
  fun_cases exec t c f n
  all_goals first
    | rfl
    | cases hf; done
    | exact hhelps _ _
    | exact hsched _ _ _
    | rw [List.flatMap_cons, Frame.owes_of_refs (refs_entry _ _)]
      rfl
    | rw [List.flatMap_cons, Frame.owes_of_refs (refs_deleteResume _)]
      rfl
    | rw [List.flatMap_cons, Frame.owes_of_refs (refs_visitorResume _ _ _)]
      rfl
    | rw [owes_executeTaskOrYield _ _ rfl]
      rfl
    | skip
  all_goals first
    | (simp [Frame.beginsCalls, Frame.endsCalls, Frame.owes, *]; done)
    | skip
  · -- a retained task is pushed again, and its worker goes on to call
    rename_i hret
    simp only [Frame.beginsCalls, hret, ↓reduceIte]
    rfl
  · rename_i p lq _ _ hret _
    simp only [Frame.beginsCalls, if_neg hret]
    rfl
  · rename_i ctx a todo htodo
    simp only [Frame.endsCalls, if_neg htodo]
    exact hhelps ctx false
  · rename_i ctx todo htodo
    simp only [Frame.endsCalls, if_neg htodo]
    exact hhelps ctx false
  · rename_i ctx hv
    simp only [Frame.endsCalls, if_neg hv]
    exact hhelps ctx true
  · rename_i p ii caller hv
    simp only [Frame.endsCalls, if_neg hv]
    exact hsched p caller false
  · rename_i call p i a inRange hv hr
    simp only [Frame.beginsCalls]
    rw [if_pos ⟨hv, hr⟩, add_comm, List.flatMap_cons, List.flatMap_nil, List.append_nil]
    rfl
  · rename_i call p i a inRange hv hr
    simp only [Frame.beginsCalls]
    rw [if_neg fun h => hr h.2]
    rfl
  · rename_i call p i a inRange hv
    simp only [Frame.beginsCalls]
    rw [if_neg fun h => hv h.1]
    rfl
  · rename_i call p kk was hkk
    rw [ha call p kk was rfl] at hkk
    have hrep : call.attributes.numInstances - kk =
        call.attributes.numInstances - (kk + 1) + 1 := by omega
    rw [Frame.owes, hrep, List.replicate_succ, List.flatMap_cons, List.flatMap_nil,
      List.append_nil]
    rfl
  · rename_i call p kk hkk
    rw [ha call p kk true rfl] at hkk
    rw [Frame.owes, Nat.sub_eq_zero_of_le (not_lt.mp hkk)]
    rfl
  · rename_i call p kk was hkk _
    rw [ha call p kk was rfl] at hkk
    rw [Frame.owes, Nat.sub_eq_zero_of_le (not_lt.mp hkk)]
    rfl

/-- The calls that are owed come up where a task is started or pushed again, and end where
they are made or left out. -/
theorem owing_exec (hn : n.Confined)
    (ha : ∀ call p kk was, f = .startInstances call p kk was →
      (n.task p).attributes = call.attributes) :
    owing n (f ::ₘ others) + f.beginsCalls n =
      owing (code t c f n).1 ((code t c f n).2 + others) + f.endsCalls n := by
  by_cases hf : f.movesEntry = false
  · have hw : owing (code t c f n).1 others = owing n others := by
      rw [owing, owing, code, exec_queued_of_keeps t c n hf]
    rw [owing_cons, owing_add, hw, add_right_comm, exec_owes hf ha, add_right_comm, code]
  · rw [owing_cons, owing_add]
    have hmoves : (∃ r rest, f = .workerScan (r :: rest)) ∨
        (∃ r rest, f = .helperScan (r :: rest)) ∨
          ∃ p ii isPrivate a caller, f = .schedulePush p ii isPrivate a caller := by
      unfold Frame.movesEntry at hf
      split at hf
      all_goals first | exact absurd rfl hf | simp
    obtain ⟨r, rest, rfl⟩ | ⟨r, rest, rfl⟩ | ⟨p, ii, isPrivate, a, caller, rfl⟩ := hmoves
    · change _ + 0 = _ + 0
      rw [add_zero, add_zero]
      rcases (exec_scan t c r rest n).1 with he | ⟨p, hp, he⟩
      · rw [code, he]
        rfl
      · rw [code, he, owing, owing, Node.queued_pop hn hp, Multiset.cons_add]
        exact zero_add _
    · change _ + 0 = _ + 0
      rw [add_zero, add_zero]
      rcases (exec_scan t c r rest n).2 with he | ⟨p, hp, he⟩
      · rw [code, he]
        rfl
      · rw [code, he, owing, owing, Node.queued_pop hn hp, Multiset.cons_add]
        exact zero_add _
    · change _ + 0 = _ + 0
      rw [add_zero, add_zero]
      rcases exec_schedulePush t c p ii isPrivate a caller n with he | he | ⟨r, hr, hp, he⟩
      · rw [code, he, List.flatMap_cons, List.flatMap_nil, List.append_nil]
        rfl
      · rw [code, he, List.flatMap_cons, List.flatMap_nil, List.append_nil]
        rfl
      · rw [code, he, owes_scheduleResume, owing, owing, Node.queued_push hr hp,
          Multiset.cons_add, Multiset.add_cons, ← Multiset.cons_add]
        rfl

end Balance

/-- The calls that have been made, and the tasks that have been started. -/
structure CallbackLog where
  calls : Multiset Ptr
  started : Multiset Ptr

/-- The completion function is called. -/
def Frame.completions (n : Node) : Frame → List Ptr
  | .workerCallback p => if hasCallback n p then [p] else []
  | _ => []

/-- A task with a completion function has been started, and is going to be scheduled. -/
def Frame.startsCalled (n : Node) : Frame → List Ptr
  | .startAction call p i =>
    if (n.actionPool.isHandleValid ((n.jobList call.job.id).actions i) ∧
        (n.task p).attributes.priority < n.attributes.maxPriorities) ∧ hasCallback n p then [p]
    else []
  | _ => []

/-- What a step adds to the log. -/
def CallbackLog.record (_ : Nat) (_ : Choice) (f : Frame) (n : Node) (l : CallbackLog) :
    CallbackLog where
  calls := f.completions n + l.calls
  started := f.startsCalled n + l.started

/-- The program of all threads, with a log. -/
def loggedCode : Code (Node × CallbackLog) Frame Choice := logged code CallbackLog.record

/-- The steps after which a task with a completion function is called back once. -/
structure CallsBackOnce (t : Nat) (c : Choice) (f : Frame) (n : Node) (fs : Multiset Frame) :
    Prop where
  /-- A task slot is deleted only when nothing refers to it. -/
  deletes : deletesUnreferenced t c f n fs
  /-- A task with a completion function has one instance. -/
  single : ∀ call p i, f = .startAction call p i → hasCallback n p →
    call.attributes.numInstances = 1
  /-- A worker does not find such a task retained. -/
  kept : ∀ p lq, f = .workerSwitch p lq → hasCallback n p → (n.task p).state ≠ .retained
  /-- A thread that waits does not take such a task. -/
  helps : ∀ p, f = .helperContext p → ¬ hasCallback n p
  /-- The instance of such a task is not lost. -/
  loses : ∀ p ∈ f.loses n, p ∉ f.fresh → ¬ hasCallback n p

/-- For every task that was started, the completion function has been called or is going to
be called, once. -/
structure CalledBack (n : Node) (l : CallbackLog) (fs : Multiset Frame) : Prop
    extends WorkCounted (fun _ _ => False) n fs where
  calls : ∀ p, l.calls.count p + (owed n fs).count p = l.started.count p
  once : ∀ p, hasCallback n p → (owing n fs).count p ≤ 1
  helps : ∀ f ∈ fs, ∀ p ∈ f.helps, ¬ hasCallback n p

section Preservation

variable {t : Nat} {c : Choice} {f : Frame} {n : Node} {others : Multiset Frame}
  {l : CallbackLog}

theorem Context.mem_helps {ctx : Context} {p : Ptr} (h : p ∈ ctx.helps) : p = ctx.task := by
  unfold Context.helps at h
  split at h
  · exact absurd h List.not_mem_nil
  · exact List.mem_singleton.mp h

theorem Frame.mem_refs_of_mem_helps {p : Ptr} (h : p ∈ f.helps) : p ∈ f.refs := by
  unfold Frame.helps at h
  split at h
  all_goals first
    | exact absurd h List.not_mem_nil
    | exact List.mem_singleton.mpr (Context.mem_helps h)

theorem Frame.mem_refs_of_mem_beginsCalls {p : Ptr} (h : p ∈ f.beginsCalls n) : p ∈ f.refs := by
  unfold Frame.beginsCalls at h
  split at h
  · split at h
    · exact List.mem_singleton.mpr (List.mem_replicate.mp h).2
    · exact absurd h List.not_mem_nil
  · split at h
    · exact h
    · exact absurd h List.not_mem_nil
  · exact absurd h List.not_mem_nil

theorem Frame.mem_refs_of_mem_endsCalls {p : Ptr} (h : p ∈ f.endsCalls n) : p ∈ f.refs := by
  unfold Frame.endsCalls at h
  split at h
  all_goals first
    | exact h
    | exact absurd h List.not_mem_nil
    | exact List.mem_singleton.mpr (Context.mem_helps h)
    | split at h
      all_goals first
        | exact h
        | exact absurd h List.not_mem_nil
        | exact List.mem_singleton.mpr (Context.mem_helps h)

theorem Frame.mem_refs_of_mem_completions {p : Ptr} (h : p ∈ f.completions n) : p ∈ f.refs := by
  unfold Frame.completions at h
  split at h
  · split at h
    · exact h
    · exact absurd h List.not_mem_nil
  · exact absurd h List.not_mem_nil

theorem Frame.mem_refs_of_mem_startsCalled {p : Ptr} (h : p ∈ f.startsCalled n) :
    p ∈ f.refs := by
  unfold Frame.startsCalled at h
  split at h
  · split at h
    · exact h
    · exact absurd h List.not_mem_nil
  · exact absurd h List.not_mem_nil

theorem Frame.hasCallback_of_mem_completions {p : Ptr} (h : p ∈ f.completions n) :
    hasCallback n p := by
  unfold Frame.completions at h
  split at h
  · split at h
    · rwa [List.mem_singleton.mp h]
    · exact absurd h List.not_mem_nil
  · exact absurd h List.not_mem_nil

theorem Frame.hasCallback_of_mem_startsCalled {p : Ptr} (h : p ∈ f.startsCalled n) :
    hasCallback n p := by
  unfold Frame.startsCalled at h
  split at h
  · split at h
    · rename_i hc
      rw [List.mem_singleton.mp h]
      exact hc.2
    · exact absurd h List.not_mem_nil
  · exact absurd h List.not_mem_nil

/-- Calls come up for the tasks that are started. -/
theorem Frame.count_beginsCalls (hg : CallsBackOnce t c f n (f ::ₘ others)) {p : Ptr}
    (hp : hasCallback n p) : (f.beginsCalls n).count p = (f.startsCalled n).count p := by
  cases f with
  | startAction call q i =>
    simp only [Frame.beginsCalls, Frame.startsCalled]
    by_cases hv : n.actionPool.isHandleValid ((n.jobList call.job.id).actions i) = true ∧
        (n.task q).attributes.priority < n.attributes.maxPriorities
    · by_cases hq : hasCallback n q
      · rw [if_pos hv, if_pos ⟨hv, hq⟩, hg.single call q i rfl hq]
        rfl
      · rw [if_pos hv, if_neg fun h => hq h.2, List.count_nil, List.count_eq_zero]
        intro hm
        rw [(List.mem_replicate.mp hm).2] at hp
        exact hq hp
    · rw [if_neg hv, if_neg fun h => hv h.1]
  | workerSwitch q lq =>
    simp only [Frame.beginsCalls, Frame.startsCalled]
    split
    · rename_i hret
      rw [List.count_nil, List.count_eq_zero]
      intro hm
      rw [List.mem_singleton.mp hm] at hp
      exact hg.kept q lq rfl hp hret
    · rfl
  | _ => rfl

/-- The calls that are owed are made. -/
theorem Frame.count_endsCalls (hg : CallsBackOnce t c f n (f ::ₘ others))
    (hh : ∀ p ∈ f.helps, ¬ hasCallback n p) {p : Ptr} (hp : hasCallback n p) :
    (f.endsCalls n).count p = (f.completions n).count p := by
  have hl := hg.loses p
  cases f with
  | workerCallback q =>
    simp only [Frame.endsCalls, Frame.completions]
    by_cases hq : hasCallback n q
    · rw [if_pos hq]
    · rw [if_neg hq, List.count_nil, List.count_eq_zero]
      intro hm
      rw [List.mem_singleton.mp hm] at hp
      exact hq hp
  | executeNumTasks ctx a todo | executeError ctx todo =>
    simp only [Frame.endsCalls, Frame.completions]
    split
    · rfl
    · rw [List.count_nil, List.count_eq_zero]
      exact fun hm => hh p hm hp
  | executeGroup ctx =>
    simp only [Frame.endsCalls, Frame.completions]
    split
    · rfl
    · rw [List.count_nil, List.count_eq_zero]
      exact fun hm => hh p hm hp
  | executeGroupPush ctx g =>
    simp only [Frame.endsCalls, Frame.completions]
    rw [List.count_nil, List.count_eq_zero]
    exact fun hm => hh p hm hp
  | schedule q ii caller =>
    simp only [Frame.endsCalls, Frame.completions]
    split
    · rfl
    · rename_i hv
      rw [List.count_nil, List.count_eq_zero]
      intro hm
      refine hl ?_ List.not_mem_nil hp
      simp only [Frame.loses, if_neg hv]
      exact hm
  | scheduleUndo q a caller =>
    simp only [Frame.endsCalls, Frame.completions]
    rw [List.count_nil, List.count_eq_zero]
    exact fun hm => hl hm List.not_mem_nil hp
  | _ => rfl

theorem Frame.helps_of_refs (h : f.refs = []) : f.helps = [] :=
  Frame.eq_nil_of_refs (fun _ hx => mem_refs_of_mem_helps hx) h

theorem helps_contextResume (ctx : Context) (done : Bool) :
    (ctx.resume done).flatMap Frame.helps = [] :=
  flatMap_contextResume (fun _ _ => rfl) (fun _ => rfl) ctx done

theorem helps_scheduleResume (caller : ScheduleCaller) (p : Ptr) (pushed : Bool) :
    (caller.resume p pushed).flatMap Frame.helps = [] :=
  flatMap_scheduleResume (fun _ _ _ _ => rfl) (fun _ => rfl) caller p pushed

theorem helps_executeTaskOrYield (n : Node) (t : Nat) {back : Frame} (h : back.refs = []) :
    (n.executeTaskOrYield t back).flatMap Frame.helps = [] := by
  rw [flatMap_executeTaskOrYield fun _ => rfl, Frame.helps_of_refs h]

/-- A thread that waits goes on with the task that it has taken. -/
theorem exec_helps (t : Nat) (c : Choice) (f : Frame) (n : Node) :
    (exec t c f n).2.flatMap Frame.helps = f.helps ∨ (exec t c f n).2.flatMap Frame.helps = [] ∨
      ∃ p, f = .helperContext p ∧ (exec t c f n).2.flatMap Frame.helps = [p] := by
  fun_cases exec t c f n
  all_goals first
    | exact Or.inl rfl
    | exact Or.inr (Or.inl rfl)
    | exact Or.inr (Or.inr ⟨_, rfl, rfl⟩)
    | exact Or.inl (List.append_nil _)
    | exact Or.inr (Or.inl (helps_contextResume _ _))
    | exact Or.inr (Or.inl (helps_scheduleResume _ _ _))
    | exact Or.inr (Or.inl (helps_executeTaskOrYield _ _ rfl))
    | rw [List.flatMap_cons, Frame.helps_of_refs (refs_entry _ _)]
      exact Or.inl (List.append_nil _)
    | rw [List.flatMap_cons, Frame.helps_of_refs (refs_deleteResume _)]
      exact Or.inr (Or.inl rfl)
    | rw [List.flatMap_cons, Frame.helps_of_refs (refs_visitorResume _ _ _)]
      exact Or.inr (Or.inl rfl)

namespace CalledBack

/-- Nobody but a start call writes the attributes of a task. -/
theorem hasCallback_exec (h : CalledBack n l (f ::ₘ others)) {p : Ptr}
    (hp : p ∈ references n (f ::ₘ others)) (hf : ∀ call, f ≠ .startInit call p) :
    hasCallback (code t c f n).1 p ↔ hasCallback n p := by
  rw [hasCallback, hasCallback, attributes_exec h.toTasksOwned hp hf]

theorem balance (h : CalledBack n l (f ::ₘ others)) (p : Ptr) :
    (owing n (f ::ₘ others)).count p + (f.beginsCalls n).count p =
      (owing (code t c f n).1 ((code t c f n).2 + others)).count p +
        (f.endsCalls n).count p := by
  have ha : ∀ call q kk was, f = .startInstances call q kk was →
      (n.task q).attributes = call.attributes := by
    intro call q kk was hf
    refine h.started f (Multiset.mem_cons_self f others) call q ?_
    rw [hf]
    exact List.mem_singleton_self _
  have hkeep : owing n (f ::ₘ others) + f.beginsCalls n =
      owing (code t c f n).1 ((code t c f n).2 + others) + f.endsCalls n :=
    owing_exec h.confined ha
  have he := congrArg (Multiset.count p) hkeep
  simpa only [Multiset.count_add, Multiset.coe_count] using he

/-- Nothing is owed for a task that its start call still writes. -/
theorem count_fresh (h : CalledBack n l (f ::ₘ others)) {p : Ptr} (hp : p ∈ f.fresh) :
    (owing n (f ::ₘ others)).count p = 0 := by
  rw [Multiset.count_eq_zero, owing_cons]
  intro hm
  rcases Multiset.mem_add.mp hm with hm | hm
  · unfold Frame.fresh at hp
    split at hp
    all_goals first
      | exact absurd hm List.not_mem_nil
      | exact absurd hp List.not_mem_nil
  · exact h.not_mem_others hp (mem_references_of_mem_owing hm)

/-- A task on which the step does not work, or that it initializes. -/
theorem idle_exec (h : CalledBack n l (f ::ₘ others)) {p : Ptr}
    (hp : p ∈ references n (f ::ₘ others) → ∃ call, f = .startInit call p) :
    (owing n (f ::ₘ others)).count p = 0 ∧
      (owing (code t c f n).1 ((code t c f n).2 + others)).count p = 0 ∧
      (f.completions n).count p = 0 ∧ (f.startsCalled n).count p = 0 := by
  have hb := h.balance (t := t) (c := c) p
  by_cases hr : p ∈ references n (f ::ₘ others)
  · obtain ⟨call, rfl⟩ := hp hr
    have h0 := h.count_fresh (List.mem_singleton_self p)
    rw [h0] at hb
    simp only [Frame.beginsCalls, Frame.endsCalls, List.count_nil, add_zero] at hb
    exact ⟨h0, hb.symm, rfl, rfl⟩
  · have hself : p ∉ f.refs := fun hm =>
      hr (mem_references_of_mem (Multiset.mem_cons_self f others) hm)
    have h0 : (owing n (f ::ₘ others)).count p = 0 :=
      Multiset.count_eq_zero.mpr fun hm => hr (mem_references_of_mem_owing hm)
    have hbeg : (f.beginsCalls n).count p = 0 :=
      List.count_eq_zero.mpr fun hm => hself (Frame.mem_refs_of_mem_beginsCalls hm)
    refine ⟨h0, by omega, ?_, ?_⟩
    · exact List.count_eq_zero.mpr fun hm => hself (Frame.mem_refs_of_mem_completions hm)
    · exact List.count_eq_zero.mpr fun hm => hself (Frame.mem_refs_of_mem_startsCalled hm)

theorem calls_exec (h : CalledBack n l (f ::ₘ others))
    (hg : CallsBackOnce t c f n (f ::ₘ others)) (p : Ptr) :
    (CallbackLog.record t c f n l).calls.count p +
        (owed (code t c f n).1 ((code t c f n).2 + others)).count p =
      (CallbackLog.record t c f n l).started.count p := by
  have hold := h.calls p
  simp only [CallbackLog.record, Multiset.count_add, Multiset.coe_count]
  rw [owed, Multiset.count_filter] at hold ⊢
  by_cases hr : p ∈ references n (f ::ₘ others) → ∃ call, f = .startInit call p
  · obtain ⟨h0, h1, h2, h3⟩ := h.idle_exec (t := t) (c := c) hr
    rw [h0, ite_self] at hold
    rw [h1, h2, h3, ite_self]
    omega
  · simp only [not_forall, not_exists] at hr
    obtain ⟨hr, hf⟩ := hr
    have hb := h.balance (t := t) (c := c) p
    by_cases hc : hasCallback n p
    · rw [if_pos hc] at hold
      rw [if_pos ((h.hasCallback_exec hr hf).mpr hc)]
      rw [Frame.count_beginsCalls hg hc,
        Frame.count_endsCalls hg (h.helps f (Multiset.mem_cons_self f others)) hc] at hb
      omega
    · have h2 : (f.completions n).count p = 0 :=
        List.count_eq_zero.mpr fun hm => hc (Frame.hasCallback_of_mem_completions hm)
      have h3 : (f.startsCalled n).count p = 0 :=
        List.count_eq_zero.mpr fun hm => hc (Frame.hasCallback_of_mem_startsCalled hm)
      rw [if_neg hc] at hold
      rw [if_neg fun hc' => hc ((h.hasCallback_exec hr hf).mp hc')]
      omega

theorem once_exec (h : CalledBack n l (f ::ₘ others))
    (hg : CallsBackOnce t c f n (f ::ₘ others)) {p : Ptr}
    (hc : hasCallback (code t c f n).1 p) :
    (owing (code t c f n).1 ((code t c f n).2 + others)).count p ≤ 1 := by
  by_cases hr : p ∈ references n (f ::ₘ others) → ∃ call, f = .startInit call p
  · rw [(h.idle_exec (t := t) (c := c) hr).2.1]
    exact Nat.zero_le 1
  · simp only [not_forall, not_exists] at hr
    obtain ⟨hr, hf⟩ := hr
    have hc' := (h.hasCallback_exec hr hf).mp hc
    have hb := h.balance (t := t) (c := c) p
    have ho := h.once p hc'
    rw [Frame.count_beginsCalls hg hc'] at hb
    by_cases hs : p ∈ f.startsCalled n
    · have hstart : ∃ call i, f = .startAction call p i ∧ (f.startsCalled n).count p = 1 := by
        unfold Frame.startsCalled at hs ⊢
        split at hs
        · rename_i call q i
          split at hs
          · rename_i hcond
            cases List.mem_singleton.mp hs
            refine ⟨call, i, rfl, ?_⟩
            simp only [if_pos hcond, List.count_singleton_self]
          · exact absurd hs List.not_mem_nil
        · exact absurd hs List.not_mem_nil
      obtain ⟨call, i, rfl, hone⟩ := hstart
      rw [h.count_fresh (List.mem_singleton_self p), hone] at hb
      omega
    · rw [List.count_eq_zero.mpr hs] at hb
      omega

end CalledBack

theorem calledBack_preserved : Preserves loggedCode (fun t c f m fs => CallsBackOnce t c f m.1 fs)
    fun m fs => CalledBack m.1 m.2 fs := by
  intro t c f m others h hg
  refine ⟨workCounted_exec h.toWorkCounted hg.deletes (fun _ _ _ => not_false)
    fun _ _ _ he => he, h.calls_exec hg, fun p hc => h.once_exec hg hc, fun f' hf' p hp => ?_⟩
  have hself := Multiset.mem_cons_self f others
  rcases Multiset.mem_add.mp hf' with hf' | hf'
  · have hm : p ∈ (exec t c f m.1).2.flatMap Frame.helps := List.mem_flatMap.mpr ⟨f', hf', hp⟩
    rcases exec_helps t c f m.1 with he | he | ⟨q, hf, he⟩
    · rw [he] at hm
      have hr := mem_references_of_mem (n := m.1) hself (Frame.mem_refs_of_mem_helps hm)
      refine mt (h.hasCallback_exec (t := t) (c := c) hr fun call hf => ?_).mp
        (h.helps f hself p hm)
      rw [hf] at hm
      exact absurd hm List.not_mem_nil
    · exact absurd (he ▸ hm) List.not_mem_nil
    · rw [he, List.mem_singleton] at hm
      subst hm hf
      have hr := mem_references_of_mem (n := m.1) hself (List.mem_singleton_self p)
      exact mt (h.hasCallback_exec (t := t) (c := c) hr fun call hf => by cases hf).mp
        (hg.helps p rfl)
  · have hr := mem_references_of_mem (n := m.1) hf' (Frame.mem_refs_of_mem_helps hp)
    have hr' : p ∈ references m.1 (f ::ₘ others) := by
      rw [references_cons]
      exact Multiset.mem_add.mpr (Or.inr hr)
    refine mt (h.hasCallback_exec (t := t) (c := c) hr' fun call hf => ?_).mp
      (h.helps f' (Multiset.mem_cons_of_mem hf') p hp)
    refine h.not_mem_others (p := p) ?_ hr
    rw [hf]
    exact List.mem_singleton_self p

end Preservation

/-- The threads of a node with an empty log. -/
def bootLogged (attributes : NodeAttributes) (mode : SchedulerMode) (clients : Nat) :
    State (Node × CallbackLog) Frame :=
  ⟨((boot attributes mode clients).mem, ⟨0, 0⟩), (boot attributes mode clients).callStacks⟩

theorem calledBack_boot (attributes : NodeAttributes) (mode : SchedulerMode) (clients : Nat) :
    CalledBack (boot attributes mode clients).mem ⟨0, 0⟩
      (boot attributes mode clients).frames := by
  have hzero : ∀ p, (owing (boot attributes mode clients).mem
      (boot attributes mode clients).frames).count p = 0 := by
    intro p
    refine Multiset.count_eq_zero.mpr fun hm => ?_
    have hr := mem_references_of_mem_owing hm
    rw [references_boot] at hr
    exact Multiset.notMem_zero p hr
  refine ⟨workCounted_boot _ attributes mode clients, fun p => ?_, fun p _ => ?_,
    fun f hf p hp => ?_⟩
  · rw [owed, Multiset.count_filter, hzero, ite_self]
    rfl
  · rw [hzero]
    exact Nat.zero_le 1
  · rcases mem_frames_boot hf with rfl | rfl <;> exact absurd hp List.not_mem_nil

/-- When a worker is about to call the completion function of a task, no instance of the task
is left. -/
theorem CalledBack.not_unfinished {n : Node} {l : CallbackLog} {others : Multiset Frame}
    {p : Ptr} (h : CalledBack n l (.workerCallback p ::ₘ others)) (hc : hasCallback n p) :
    ∀ s, (s, p) ∉ work n (.workerCallback p ::ₘ others) := by
  intro s hm
  have ho := h.once p hc
  rw [owing_cons, Multiset.count_add] at ho
  have hself : Multiset.count p ((Frame.workerCallback p).owes : Multiset Ptr) = 1 :=
    Multiset.count_singleton_self p
  rw [hself] at ho
  rw [work_cons] at hm
  have hm : (s, p) ∈ work n others := (Multiset.mem_add.mp hm).resolve_left List.not_mem_nil
  rcases Multiset.mem_add.mp hm with hm | hm
  · obtain ⟨q, hq, he⟩ := Multiset.mem_map.mp hm
    have hpos : 0 < (owing n others).count p := by
      rw [Multiset.count_pos, ← (Prod.mk.inj he).2]
      exact Multiset.mem_add.mpr (Or.inl hq)
    omega
  · obtain ⟨f, hf, hm⟩ := Multiset.mem_bind.mp hm
    rcases Frame.mem_owes_of_mem_work hm with hm | hfresh
    · have hpos : 0 < (owing n others).count p := by
        rw [Multiset.count_pos]
        exact Multiset.mem_add.mpr (Or.inr (Multiset.mem_bind.mpr ⟨f, hf, hm⟩))
      omega
    · exact h.toTasksOwned.not_fresh (List.mem_singleton_self p) List.not_mem_nil f
        (Multiset.mem_cons_of_mem hf) hfresh

/-- The completion function has been called once for every task with a given handle that was
started, apart from the one for which it is still going to be called; and a worker calls it
only when no instance of the task is left. -/
theorem callback_once (attributes : NodeAttributes) (mode : SchedulerMode) (clients : Nat)
    (es : List (Nat × Choice))
    (hg : Always loggedCode (fun t c f m fs => CallsBackOnce t c f m.1 fs)
      (bootLogged attributes mode clients) es) :
    let s := run loggedCode (bootLogged attributes mode clients) es
    (∀ p, s.mem.2.calls.count p + (owed s.mem.1 s.frames).count p = s.mem.2.started.count p ∧
        (owed s.mem.1 s.frames).count p ≤ 1) ∧
      ∀ t p, s.top t = some (.workerCallback p) → hasCallback s.mem.1 p →
        ∀ stage, (stage, p) ∉ work s.mem.1 s.frames := by
  intro s
  have hinv : CalledBack s.mem.1 s.mem.2 s.frames :=
    calledBack_preserved.run hg (calledBack_boot attributes mode clients)
  refine ⟨fun p => ⟨hinv.calls p, ?_⟩, fun t p htop hc => ?_⟩
  · rw [owed, Multiset.count_filter]
    split
    · rename_i hc
      exact hinv.once p hc
    · exact Nat.zero_le 1
  · obtain ⟨others, hfr⟩ := Multiset.exists_cons_of_mem (State.mem_frames_of_top htop)
    rw [hfr] at hinv ⊢
    exact hinv.not_unfinished hc

/-- A test that is enough for the guard: nothing is deleted, lost or retained, and no thread
that waits takes a task. -/
def callsTest (_ : Nat) (_ : Choice) (f : Frame) (m : Node × CallbackLog) : Bool :=
  (f.loses m.1).isEmpty && match f with
  | .taskDelete .. | .taskDeallocate .. | .helperContext _ => false
  | .startAction call _ _ => decide (call.attributes.numInstances = 1)
  | .workerSwitch p _ => decide ((m.1.task p).state ≠ .retained)
  | _ => true

theorem callsBackOnce_of_test (t : Nat) (c : Choice) (f : Frame) (m : Node × CallbackLog)
    (fs : Multiset Frame) (h : callsTest t c f m = true) : CallsBackOnce t c f m.1 fs := by
  unfold callsTest at h
  rw [Bool.and_eq_true] at h
  obtain ⟨hl, h⟩ := h
  constructor
  · rintro p caller (rfl | rfl)
    · cases h
    · cases h
  · rintro call p i rfl -
    exact of_decide_eq_true h
  · rintro p lq rfl -
    exact of_decide_eq_true h
  · rintro p rfl
    cases h
  · rw [List.isEmpty_iff.mp hl]
    exact fun p hp => absurd hp List.not_mem_nil

/-- The attributes of a task with a completion function. -/
def calledTask : TaskAttributes := { TaskAttributes.init 1 with completeFunc := some 0 }

/-- A task with a completion function is started and executed. -/
def startCalled : List (Nat × Choice) :=
  calls 1 (.actionCreate 1 none) 4 ++
    calls 1 (.taskStart ⟨0, 1⟩ (some calledTask) Handle.invalid) 20 ++ goes 0 10 ++
    [(0, .leave)] ++ goes 0 5

theorem callback_once_called :
    (run loggedCode (bootLogged (smallNode 1) .workStealVhpf 1) startCalled).mem.2.started.count
        ⟨0, 1⟩ = 1 ∧
      (run loggedCode (bootLogged (smallNode 1) .workStealVhpf 1) startCalled).mem.2.calls.count
          ⟨0, 1⟩ +
        (owed (run loggedCode (bootLogged (smallNode 1) .workStealVhpf 1) startCalled).mem.1
          (run loggedCode (bootLogged (smallNode 1) .workStealVhpf 1) startCalled).frames).count
          ⟨0, 1⟩ =
      (run loggedCode (bootLogged (smallNode 1) .workStealVhpf 1) startCalled).mem.2.started.count
        ⟨0, 1⟩ :=
  ⟨by decide +kernel, ((callback_once (smallNode 1) .workStealVhpf 1 startCalled
    (Always.of_checked callsBackOnce_of_test (by decide +kernel))).1 ⟨0, 1⟩).1⟩

/-- A task with a completion function and two instances is started, and one of them is
executed. -/
def startTwoInstances : List (Nat × Choice) :=
  calls 1 (.actionCreate 1 none) 4 ++
    calls 1 (.taskStart ⟨0, 1⟩ (some { calledTask with
      numInstances := 2
      numInstances_lt := by decide }) Handle.invalid) 28 ++
    goes 0 9 ++ [(0, .leave)] ++ goes 0 3

/-- The other one is executed. -/
def executeOther : List (Nat × Choice) := [(0, .leave)] ++ goes 0 9 ++ [(0, .leave)] ++ goes 0 5

/-- The completion function is called for each of the two instances, the first time while the
other one is waiting. -/
theorem callback_twice :
    (run loggedCode (bootLogged (smallNode 1) .workStealVhpf 1)
        startTwoInstances).mem.2.calls.count ⟨0, 1⟩ = 1 ∧
      (.waiting, ⟨0, 1⟩) ∈ work (run loggedCode (bootLogged (smallNode 1) .workStealVhpf 1)
          startTwoInstances).mem.1
        (run loggedCode (bootLogged (smallNode 1) .workStealVhpf 1) startTwoInstances).frames ∧
      (run loggedCode (bootLogged (smallNode 1) .workStealVhpf 1)
        (startTwoInstances ++ executeOther)).mem.2.calls.count ⟨0, 1⟩ = 2 ∧
      (run loggedCode (bootLogged (smallNode 1) .workStealVhpf 1)
        (startTwoInstances ++ executeOther)).mem.2.started.count ⟨0, 1⟩ = 1 := by
  decide +kernel

end Embb.Mtapi
