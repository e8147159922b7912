import Embb.Mtapi.Scheduler.Work

/-!
# The code's own count of instances

`instances_todo` of a task is set by its start call and counted down by every
instance that is executed or dropped as cancelled. It agrees with the instances
that are left as long as none is lost, so the last instance is noticed exactly
once, and only then. Which tasks must not lose an instance is a parameter.
-/

namespace Embb.Mtapi

open Threads

namespace Node

/-- The attributes of a task change only where its start call sets them. -/
theorem taskAttributes_access (n : Node) (u : Access) {id : Nat}
    (h : ∀ p call, u = .taskInit p call → p.id ≠ id) :
    ((n.access u).taskPool.storage id).attributes = (n.taskPool.storage id).attributes := by
  apply n.taskField_keep u Task.attributes (fun _ _ => rfl) id
  · intro p g ho hid
    cases u with
    | taskInit q call =>
      cases ho
      exact absurd hid (h p call rfl)
    | taskGroup q group => cases group <;> cases ho <;> rfl
    | taskQueue q queue => cases queue <;> cases ho <;> rfl
    | _ => cases ho <;> rfl
  · rintro p rfl rfl
    simp only [access, setTaskPool_taskPool, Pool.deallocate, Pool.setIdPool_storage,
      Pool.storage_modify_self]
    rfl

/-- The number of instances to do changes where the start call sets it, and by the
decrement of an instance. -/
theorem taskTodo_access (n : Node) (u : Access) {id : Nat}
    (h : ∀ p, p.id = id → u ≠ .taskTodo p ∧ ∀ call, u ≠ .taskInit p call) :
    ((n.access u).taskPool.storage id).instancesTodo =
      (n.taskPool.storage id).instancesTodo := by
  apply n.taskField_keep u Task.instancesTodo (fun _ _ => rfl) id
  · intro p g ho hid
    cases u with
    | taskInit q call =>
      cases ho
      exact absurd rfl ((h p hid).2 call)
    | taskTodo q =>
      cases ho
      exact absurd rfl (h p hid).1
    | taskGroup q group => cases group <;> cases ho <;> rfl
    | taskQueue q queue => cases queue <;> cases ho <;> rfl
    | _ => cases ho <;> rfl
  · rintro p rfl rfl
    simp only [access, setTaskPool_taskPool, Pool.deallocate, Pool.setIdPool_storage,
      Pool.storage_modify_self]
    rfl

end Node

/-- The call that a start call with a schedule loop works for. -/
def ScheduleCaller.starts (caller : ScheduleCaller) (p : Ptr) : List (StartCall × Ptr) :=
  match caller with
  | .start call _ _ => [(call, p)]
  | .retained => []

/-- The start call, and the task to which it has given its attributes. -/
def Frame.starts : Frame → List (StartCall × Ptr)
  | .startGroup call p | .startGroupCount call p | .startQueue call p | .startQueueCount call p
  | .startChoose call p _ _ | .startChooseLoad call p _ _ _ _ | .startAction call p _
  | .startSchedule call p | .startInstances call p _ _ => [(call, p)]
  | .schedule p _ caller | .scheduleAffinity p _ _ caller | .scheduleCount p _ _ _ caller
  | .scheduleAffine p _ _ caller | .scheduleSearch p _ _ _ caller
  | .schedulePush p _ _ _ caller | .scheduleUndo p _ caller => caller.starts p
  | _ => []

theorem Frame.mem_refs_of_mem_starts {f : Frame} {call : StartCall} {p : Ptr}
    (h : (call, p) ∈ f.starts) : p ∈ f.refs := by
  unfold Frame.starts at h
  split at h
  all_goals first
    | exact absurd h List.not_mem_nil
    | exact List.mem_singleton.mpr (Prod.mk.inj (List.mem_singleton.mp h)).2
    | rename_i caller
      cases caller with
      | start => exact List.mem_singleton.mpr (Prod.mk.inj (List.mem_singleton.mp h)).2
      | retained => exact absurd h List.not_mem_nil

theorem Frame.starts_of_refs {f : Frame} (h : f.refs = []) : f.starts = [] :=
  Frame.eq_nil_of_refs (fun _ hx => mem_refs_of_mem_starts hx) h

theorem starts_contextResume (ctx : Context) (done : Bool) :
    (ctx.resume done).flatMap Frame.starts = [] :=
  flatMap_contextResume (fun _ _ => rfl) (fun _ => rfl) ctx done

theorem starts_scheduleResume (caller : ScheduleCaller) (p : Ptr) (pushed : Bool) :
    (caller.resume p pushed).flatMap Frame.starts = caller.starts p := by
  cases caller <;> rfl

theorem starts_executeTaskOrYield (n : Node) (t : Nat) {back : Frame} (h : back.refs = []) :
    (n.executeTaskOrYield t back).flatMap Frame.starts = [] := by
  rw [flatMap_executeTaskOrYield fun _ => rfl, Frame.starts_of_refs h]

/-- A start call goes on, ends, or has just given the attributes to its task. -/
theorem exec_starts (t : Nat) (c : Choice) (f : Frame) (n : Node) :
    (exec t c f n).2.flatMap Frame.starts = f.starts ∨
      (exec t c f n).2.flatMap Frame.starts = [] ∨
      ∃ call p, f = .startInit call p ∧ (exec t c f n).2.flatMap Frame.starts = [(call, p)] := by
  fun_cases exec t c f n
  all_goals first
    | exact Or.inl rfl
    | exact Or.inr (Or.inl rfl)
    | exact Or.inr (Or.inl (starts_contextResume _ _))
    | exact Or.inr (Or.inl (starts_executeTaskOrYield _ _ rfl))
    | exact Or.inl (starts_scheduleResume _ _ _)
    | exact Or.inr (Or.inr ⟨_, _, rfl, rfl⟩)
    | exact Or.inl (List.append_nil _)
    | rw [List.flatMap_cons, Frame.starts_of_refs (refs_entry _ _)]
      exact Or.inr (Or.inl rfl)
    | rw [List.flatMap_cons, Frame.starts_of_refs (refs_deleteResume _)]
      exact Or.inr (Or.inl rfl)
    | rw [List.flatMap_cons, Frame.starts_of_refs (refs_visitorResume _ _ _)]
      exact Or.inr (Or.inl rfl)

/-- The number that `embb_mtapi_task_execute` read when it started. -/
def Frame.localTodo : Frame → List (Context × Nat)
  | .executeAction ctx todo => [(ctx, todo)]
  | _ => []

theorem Frame.localTodo_of_refs {f : Frame} (h : f.refs = []) : f.localTodo = [] := by
  unfold Frame.localTodo
  split
  · cases h
  · rfl

theorem localTodo_contextResume (ctx : Context) (done : Bool) :
    (ctx.resume done).flatMap Frame.localTodo = [] :=
  flatMap_contextResume (fun _ _ => rfl) (fun _ => rfl) ctx done

theorem localTodo_scheduleResume (caller : ScheduleCaller) (p : Ptr) (pushed : Bool) :
    (caller.resume p pushed).flatMap Frame.localTodo = [] :=
  flatMap_scheduleResume (fun _ _ _ _ => rfl) (fun _ => rfl) caller p pushed

theorem localTodo_executeTaskOrYield (n : Node) (t : Nat) {back : Frame} (h : back.refs = []) :
    (n.executeTaskOrYield t back).flatMap Frame.localTodo = [] := by
  rw [flatMap_executeTaskOrYield fun _ => rfl, Frame.localTodo_of_refs h]

theorem exec_localTodo (t : Nat) (c : Choice) (f : Frame) (n : Node) :
    (exec t c f n).2.flatMap Frame.localTodo = [] ∨
      ∃ ctx, f = .executeRunning ctx ∧ (exec t c f n).2.flatMap Frame.localTodo =
        [(ctx, (n.task ctx.task).attributes.numInstances)] := by
  fun_cases exec t c f n
  all_goals first
    | exact Or.inl rfl
    | exact Or.inl (localTodo_contextResume _ _)
    | exact Or.inl (localTodo_executeTaskOrYield _ _ rfl)
    | exact Or.inl (localTodo_scheduleResume _ _ _)
    | exact Or.inr ⟨_, rfl, rfl⟩
    | rw [List.flatMap_cons, Frame.localTodo_of_refs (refs_entry _ _)]
      exact Or.inl rfl
    | rw [List.flatMap_cons, Frame.localTodo_of_refs (refs_deleteResume _)]
      exact Or.inl rfl
    | rw [List.flatMap_cons, Frame.localTodo_of_refs (refs_visitorResume _ _ _)]
      exact Or.inl rfl

/-- The instance that a step loses: it is not executed, and `instances_todo` still
counts it. -/
def Frame.loses (n : Node) : Frame → List Ptr
  | .executeAction ctx todo =>
    if n.actionPool.isHandleValid (n.task ctx.task).action ∨ todo = 1 then [] else [ctx.task]
  | .workerSwitch p _ =>
    match (n.task p).state with
    | .scheduled | .running | .retained | .cancelled => []
    | _ => [p]
  | .schedule p _ _ =>
    if n.actionPool.isHandleValid (n.task p).action then [] else [p]
  | .scheduleUndo p _ _ => [p]
  | .startAction call p i =>
    if n.actionPool.isHandleValid ((n.jobList call.job.id).actions i) ∧
        (n.task p).attributes.priority < n.attributes.maxPriorities then []
    else [p]
  | _ => []

/-- What is known about one task: `waiting` of its instances are left, and `ending`
says how often somebody is about to tell its group or queue. -/
structure Tally (x : Task) (waiting ending : Nat) (tracked : Prop) : Prop where
  le : 0 < waiting → waiting ≤ x.instancesTodo ∧ x.instancesTodo ≤ x.attributes.numInstances
  once : ending ≤ 1
  last : 0 < waiting → ending = 0
  exact : 0 < waiting → tracked → waiting = x.instancesTodo

namespace Tally

variable {x y : Task} {waiting ending : Nat} {tracked tracked' : Prop}

theorem none (x : Task) (tracked : Prop) (h : ending ≤ 1) : Tally x 0 ending tracked :=
  ⟨fun hw => absurd hw (lt_irrefl 0), h, fun _ => by omega, fun hw => absurd hw (lt_irrefl 0)⟩

theorem congr (h : Tally x waiting ending tracked)
    (hx : 0 < waiting → y.instancesTodo = x.instancesTodo ∧ y.attributes = x.attributes)
    (hi : 0 < waiting → tracked' → tracked) : Tally y waiting ending tracked' := by
  refine ⟨fun hw => ?_, h.once, h.last, fun hw hc => ?_⟩
  · rw [(hx hw).1, (hx hw).2]
    exact h.le hw
  · rw [(hx hw).1]
    exact h.exact hw (hi hw hc)

/-- An instance of a task that is not tracked is lost. -/
theorem lose (h : Tally x (waiting + 1) ending tracked) (hn : ¬ tracked) :
    Tally x waiting ending tracked := by
  obtain ⟨h1, h2⟩ := h.le (Nat.succ_pos _)
  exact ⟨fun _ => ⟨by omega, h2⟩, h.once, fun _ => h.last (Nat.succ_pos _),
    fun _ hc => absurd hc hn⟩

/-- An instance is executed or dropped, and counted; the last one may leave it to
somebody to tell group and queue. -/
theorem finish {ending' : Nat} (h : Tally x (waiting + 1) ending tracked)
    (ht : y.instancesTodo = uintPred x.instancesTodo) (ha : y.attributes = x.attributes)
    (ho : ending' = ending ∨ ending' = 1 ∧ x.instancesTodo = 1) :
    Tally y waiting ending' tracked := by
  obtain ⟨h1, h2⟩ := h.le (Nat.succ_pos _)
  have h3 := h.last (Nat.succ_pos _)
  have h4 : y.instancesTodo = x.instancesTodo - 1 := by
    rw [ht, uintPred_of_pos (by omega) (by have := x.attributes.numInstances_lt; omega)]
  refine ⟨fun hw => ?_, by omega, fun hw => by omega, fun hw hc => ?_⟩
  · rw [h4, ha]
    omega
  · have h5 := h.exact (Nat.succ_pos _) hc
    omega

end Tally

/-- Losing an instance matters for this task: `I` says so, or its start call is still
writing it. -/
def Tracked (I : Node → Ptr → Prop) (n : Node) (fs : Multiset Frame) (p : Ptr) : Prop :=
  I n p ∨ ∃ f ∈ fs, p ∈ f.fresh

/-- The instances of a task that are left. -/
def waiting (n : Node) (fs : Multiset Frame) (p : Ptr) : Nat :=
  (work n fs).count (.waiting, p)

/-- How many program points are about to tell the group or the queue of a task. -/
def telling (n : Node) (fs : Multiset Frame) (p : Ptr) : Nat :=
  (work n fs).count (.finishing, p) + (work n fs).count (.notifying, p)

/-- The tally of one task. -/
def Tallied (I : Node → Ptr → Prop) (n : Node) (fs : Multiset Frame) (p : Ptr) : Prop :=
  Tally (n.task p) (waiting n fs p) (telling n fs p) (Tracked I n fs p)

/-- The code's count of instances agrees with the instances that are left. -/
structure WorkCounted (I : Node → Ptr → Prop) (n : Node) (fs : Multiset Frame) : Prop
    extends TasksOwned n fs where
  started : ∀ f ∈ fs, ∀ call p, (call, p) ∈ f.starts → (n.task p).attributes = call.attributes
  localTodo : ∀ f ∈ fs, ∀ ctx todo, (ctx, todo) ∈ f.localTodo →
    todo = (n.task ctx.task).attributes.numInstances
  tally : ∀ p, Tallied I n fs p

theorem TasksOwned.not_fresh {f : Frame} {n : Node} {others : Multiset Frame}
    (h : TasksOwned n (f ::ₘ others)) {p : Ptr} (hp : p ∈ f.refs) (hf : p ∉ f.fresh) :
    ∀ g ∈ f ::ₘ others, p ∉ g.fresh := by
  intro g hg hpg
  rcases Multiset.mem_cons.mp hg with rfl | hg'
  · exact hf hpg
  · have h1 := h.alone g hg p hpg
    rw [references_cons, Multiset.count_add] at h1
    have h2 : 0 < (f.refs : Multiset Ptr).count p := Multiset.count_pos.mpr hp
    have h3 : 0 < (references n others).count p :=
      Multiset.count_pos.mpr (mem_references_of_mem hg' (Frame.mem_refs_of_mem_fresh hpg))
    omega

section Preservation

variable {I : Node → Ptr → Prop} {t : Nat} {c : Choice} {f : Frame} {n : Node}
  {others : Multiset Frame}

/-- A task that is tracked after a step was tracked before. -/
theorem Tracked.of_exec (h : TasksOwned n (f ::ₘ others))
    (hI : ∀ p ∈ references n (f ::ₘ others), p ∉ f.fresh → I (code t c f n).1 p → I n p)
    {p : Ptr} (hp : p ∈ references n (f ::ₘ others))
    (ht : Tracked I (code t c f n).1 ((code t c f n).2 + others) p) :
    Tracked I n (f ::ₘ others) p := by
  rcases ht with ht | ⟨g, hg, hpg⟩
  · by_cases hf : p ∈ f.fresh
    · exact Or.inr ⟨f, Multiset.mem_cons_self f others, hf⟩
    · exact Or.inl (hI p hp hf ht)
  · rcases Multiset.mem_add.mp hg with hg | hg
    · have hm : p ∈ (exec t c f n).2.flatMap Frame.fresh := List.mem_flatMap.mpr ⟨g, hg, hpg⟩
      rcases exec_fresh t c f n with he | he | ⟨q, hq, he⟩
      · exact Or.inr ⟨f, Multiset.mem_cons_self f others, he ▸ hm⟩
      · exact absurd (he ▸ hm) List.not_mem_nil
      · rw [he, List.mem_singleton] at hm
        subst hm
        exact absurd (h.live p hp) (Pool.not_live_of_allocate h.sound hq)
    · exact Or.inr ⟨g, Multiset.mem_cons_of_mem hg, hpg⟩

/-- The attributes of a task stay for everybody who refers to it, apart from the start
call that sets them. -/
theorem attributes_exec (h : TasksOwned n (f ::ₘ others)) {p : Ptr}
    (hp : p ∈ references n (f ::ₘ others)) (hf : ∀ call, f ≠ .startInit call p) :
    ((code t c f n).1.task p).attributes = (n.task p).attributes := by
  refine n.taskAttributes_access _ fun q call hu hid => ?_
  have hi := exec_issuedBy t c f n
  rw [hu] at hi
  have hq : q ∈ f.refs := by
    rw [show f = _ from hi]
    exact List.mem_singleton_self q
  have hqp := (h.live q (mem_references_of_mem (Multiset.mem_cons_self f others) hq)).eq_of_id
    (h.live p hp) hid
  exact hf call (hqp ▸ hi)

/-- `instances_todo` stays for everybody who refers to the task, apart from the start
call that sets it and the instance that is counted down. -/
theorem instancesTodo_exec (h : TasksOwned n (f ::ₘ others)) {p : Ptr}
    (hp : p ∈ references n (f ::ₘ others)) (hf : ∀ call, f ≠ .startInit call p)
    (ht : (exec t c f n).1 ≠ .taskTodo p) :
    ((code t c f n).1.task p).instancesTodo = (n.task p).instancesTodo := by
  have hown : ∀ q ∈ f.refs, q.id = p.id → q = p := fun q hq hid =>
    (h.live q (mem_references_of_mem (Multiset.mem_cons_self f others) hq)).eq_of_id
      (h.live p hp) hid
  refine n.taskTodo_access _ fun q hid => ⟨fun hu => ?_, fun call hu => ?_⟩
  · have hi := exec_issuedBy t c f n
    rw [hu] at hi
    have hq : q ∈ f.refs := by
      obtain ⟨ctx, a, rfl, rfl⟩ | ⟨lq, rfl⟩ := hi <;> exact List.mem_singleton_self _
    rw [hown q hq hid] at hu
    exact ht hu
  · have hi := exec_issuedBy t c f n
    rw [hu] at hi
    have hq : q ∈ f.refs := by
      rw [show f = _ from hi]
      exact List.mem_singleton_self q
    exact hf call (hown q hq hid ▸ hi)

theorem Frame.mem_refs_of_mem_beginsWork {s : Stage} {p : Ptr} (h : (s, p) ∈ f.beginsWork n) :
    p ∈ f.refs := by
  have hone : ∀ {x : Stage} {q : Ptr}, (s, p) ∈ [(x, q)] → p ∈ [q] := fun hm =>
    List.mem_singleton.mpr (Prod.mk.inj (List.mem_singleton.mp hm)).2
  have hnot : ∀ {ctx : Context}, (s, p) ∈ ctx.notifies → p ∈ [ctx.task] := by
    intro ctx hm
    unfold Context.notifies at hm
    split at hm
    · exact hone hm
    · exact absurd hm List.not_mem_nil
  unfold Frame.beginsWork at h
  split at h
  · exact List.mem_singleton.mpr (Prod.mk.inj (List.mem_replicate.mp h).2).2
  · split at h
    · exact hone h
    · exact absurd h List.not_mem_nil
  · split at h
    · exact absurd h List.not_mem_nil
    · split at h
      · exact hone h
      · exact absurd h List.not_mem_nil
  · split at h
    · exact absurd h List.not_mem_nil
    · exact hnot h
  · exact hnot h
  · split at h
    · exact hone h
    · exact absurd h List.not_mem_nil
  · exact absurd h List.not_mem_nil

theorem Frame.mem_refs_of_mem_endsWork {s : Stage} {p : Ptr} (h : (s, p) ∈ f.endsWork n) :
    p ∈ f.refs := by
  have hone : ∀ {x : Stage} {q : Ptr}, (s, p) ∈ [(x, q)] → p ∈ [q] := fun hm =>
    List.mem_singleton.mpr (Prod.mk.inj (List.mem_singleton.mp hm)).2
  unfold Frame.endsWork at h
  split at h
  all_goals first
    | exact hone h
    | exact absurd h List.not_mem_nil
    | split at h
      all_goals first
        | exact hone h
        | exact absurd h List.not_mem_nil
        | exact List.mem_singleton.mpr (Prod.mk.inj (List.mem_replicate.mp h).2).2

theorem WorkCounted.balance (h : WorkCounted I n (f ::ₘ others)) (x : Stage × Ptr) :
    (work n (f ::ₘ others)).count x + Multiset.count x (f.beginsWork n) =
      (work (code t c f n).1 ((code t c f n).2 + others)).count x +
        Multiset.count x (f.endsWork n) := by
  have hwork : work n (f ::ₘ others) + f.beginsWork n =
      work (code t c f n).1 ((code t c f n).2 + others) + f.endsWork n :=
    work_exec h.confined fun call p kk was hf =>
      h.started f (Multiset.mem_cons_self f others) call p (by
        rw [hf]
        exact List.mem_singleton_self _)
  have he := congrArg (Multiset.count x) hwork
  simpa only [Multiset.count_add] using he

/-- A task on which the step neither begins nor ends work. -/
theorem tally_of_stays (h : WorkCounted I n (f ::ₘ others))
    (hI : ∀ p ∈ references n (f ::ₘ others), p ∉ f.fresh → I (code t c f n).1 p → I n p)
    {p : Ptr} (hb : ∀ s, (s, p) ∉ f.beginsWork n) (he : ∀ s, (s, p) ∉ f.endsWork n)
    (hf : ∀ call, f ≠ .startInit call p) (ht : (exec t c f n).1 ≠ .taskTodo p) :
    Tallied I (code t c f n).1 ((code t c f n).2 + others) p := by
  have hcount : ∀ s, (work (code t c f n).1 ((code t c f n).2 + others)).count (s, p) =
      (work n (f ::ₘ others)).count (s, p) := by
    intro s
    have hbal := h.balance (t := t) (c := c) (s, p)
    have hb0 : Multiset.count (s, p) (f.beginsWork n) = 0 := Multiset.count_eq_zero.mpr (hb s)
    have he0 : Multiset.count (s, p) (f.endsWork n) = 0 := Multiset.count_eq_zero.mpr (he s)
    rw [hb0, he0] at hbal
    exact hbal.symm
  have hmem : 0 < waiting n (f ::ₘ others) p → p ∈ references n (f ::ₘ others) := fun hw =>
    mem_references_of_mem_work (Multiset.count_pos.mp hw)
  rw [Tallied, waiting, telling, hcount, hcount, hcount]
  exact (h.tally p).congr
    (fun hw => ⟨instancesTodo_exec h.toTasksOwned (hmem hw) hf ht,
      attributes_exec h.toTasksOwned (hmem hw) hf⟩)
    fun hw htr => htr.of_exec h.toTasksOwned hI (hmem hw)

theorem WorkCounted.waiting_exec (h : WorkCounted I n (f ::ₘ others)) (p : Ptr) :
    waiting n (f ::ₘ others) p + Multiset.count (Stage.waiting, p) (f.beginsWork n) =
      waiting (code t c f n).1 ((code t c f n).2 + others) p +
        Multiset.count (Stage.waiting, p) (f.endsWork n) :=
  h.balance _

theorem WorkCounted.telling_exec (h : WorkCounted I n (f ::ₘ others)) (p : Ptr) :
    telling n (f ::ₘ others) p +
        (Multiset.count (Stage.finishing, p) (f.beginsWork n) +
          Multiset.count (Stage.notifying, p) (f.beginsWork n)) =
      telling (code t c f n).1 ((code t c f n).2 + others) p +
        (Multiset.count (Stage.finishing, p) (f.endsWork n) +
          Multiset.count (Stage.notifying, p) (f.endsWork n)) := by
  have h1 := h.balance (t := t) (c := c) (.finishing, p)
  have h2 := h.balance (t := t) (c := c) (.notifying, p)
  unfold telling
  omega

/-- Nothing but its start call works on a fresh task. -/
theorem WorkCounted.count_others (h : WorkCounted I n (f ::ₘ others)) {p : Ptr}
    (hp : p ∈ f.fresh) (s : Stage) :
    (work n (f ::ₘ others)).count (s, p) = (f.work : Multiset (Stage × Ptr)).count (s, p) := by
  rw [work_cons, Multiset.count_add]
  have h0 : (work n others).count (s, p) = 0 := Multiset.count_eq_zero.mpr fun hm =>
    h.not_mem_others hp (mem_references_of_mem_work hm)
  rw [h0, add_zero]

/-- A step that loses an instance of a task which is not tracked. -/
theorem tallied_of_loses (h : WorkCounted I n (f ::ₘ others))
    (hI : ∀ p ∈ references n (f ::ₘ others), p ∉ f.fresh → I (code t c f n).1 p → I n p)
    {p : Ptr} (hb : f.beginsWork n = []) (he : f.endsWork n = [(.waiting, p)])
    (hp : p ∈ f.refs) (hfr : f.fresh = []) (hn : ¬ I n p)
    (hf : ∀ call, f ≠ .startInit call p) (ht : (exec t c f n).1 ≠ .taskTodo p) :
    Tallied I (code t c f n).1 ((code t c f n).2 + others) p := by
  have hw := h.waiting_exec (t := t) (c := c) p
  have ho := h.telling_exec (t := t) (c := c) p
  rw [hb, he] at hw ho
  simp only [Multiset.coe_count, List.count_nil, List.count_singleton_self, add_zero] at hw
  simp only [Multiset.coe_count, List.count_nil, List.count_singleton, add_zero, beq_iff_eq,
    Prod.mk.injEq,
    reduceCtorEq, false_and, ↓reduceIte] at ho
  have hpr := mem_references_of_mem (n := n) (Multiset.mem_cons_self f others) hp
  have hnt : ¬ Tracked I n (f ::ₘ others) p := by
    rintro (hi | ⟨g, hg, hpg⟩)
    · exact hn hi
    · exact h.toTasksOwned.not_fresh hp (by rw [hfr]; exact List.not_mem_nil) g hg hpg
  have hold := h.tally p
  rw [Tallied, hw, ho] at hold
  exact (hold.lose hnt).congr
    (fun _ => ⟨instancesTodo_exec h.toTasksOwned hpr hf ht, attributes_exec h.toTasksOwned hpr hf⟩)
    fun _ htr => htr.of_exec h.toTasksOwned hI hpr

/-- A step that counts an instance down. -/
theorem tallied_of_taskTodo (h : WorkCounted I n (f ::ₘ others))
    (hI : ∀ p ∈ references n (f ::ₘ others), p ∉ f.fresh → I (code t c f n).1 p → I n p)
    {p : Ptr} (he : f.endsWork n = [(.waiting, p)]) (hp : p ∈ f.refs)
    (hb : f.beginsWork n = [] ∨
      f.beginsWork n = [(.finishing, p)] ∧ (n.task p).instancesTodo = 1)
    (hf : ∀ call, f ≠ .startInit call p) (ht : (exec t c f n).1 = .taskTodo p) :
    Tallied I (code t c f n).1 ((code t c f n).2 + others) p := by
  have hw := h.waiting_exec (t := t) (c := c) p
  have ho := h.telling_exec (t := t) (c := c) p
  have hpr := mem_references_of_mem (n := n) (Multiset.mem_cons_self f others) hp
  have hold := h.tally p
  have hw' : waiting n (f ::ₘ others) p =
      waiting (code t c f n).1 ((code t c f n).2 + others) p + 1 := by
    rcases hb with hb | ⟨hb, -⟩
    all_goals
      rw [hb, he] at hw
      simpa only [Multiset.coe_count, List.count_nil, List.count_singleton, add_zero, beq_iff_eq,
        Prod.mk.injEq,
        reduceCtorEq, false_and, ↓reduceIte, beq_self_eq_true] using hw
  rw [Tallied, hw'] at hold
  have htodo : ((code t c f n).1.task p).instancesTodo = uintPred (n.task p).instancesTodo := by
    rw [code, ht]
    simp only [Node.access, Node.task_modifyTask_self]
  refine (hold.finish htodo (attributes_exec h.toTasksOwned hpr hf) ?_).congr
    (fun _ => ⟨rfl, rfl⟩) fun _ htr => htr.of_exec h.toTasksOwned hI hpr
  have hzero := hold.last (Nat.succ_pos _)
  rcases hb with hb | ⟨hb, h1⟩
  · left
    rw [hb, he] at ho
    simp only [Multiset.coe_count, List.count_nil, List.count_singleton, add_zero, beq_iff_eq,
    Prod.mk.injEq,
      reduceCtorEq, false_and, ↓reduceIte] at ho
    exact ho.symm
  · right
    rw [hb, he] at ho
    simp only [Multiset.coe_count, List.count_singleton, beq_self_eq_true, beq_iff_eq,
      Prod.mk.injEq,
      reduceCtorEq, false_and, ↓reduceIte] at ho
    exact ⟨by omega, h1⟩

theorem Tallied.none {m : Node} {fs : Multiset Frame} {p : Ptr} (hw : waiting m fs p = 0)
    (ho : telling m fs p ≤ 1) : Tallied I m fs p := by
  rw [Tallied, hw]
  exact Tally.none _ _ ho

theorem waiting_pos {p : Ptr} (hm : (.waiting, p) ∈ f.work) : 0 < waiting n (f ::ₘ others) p := by
  rw [waiting, Multiset.count_pos, work_cons]
  exact Multiset.mem_add.mpr (Or.inl hm)

/-- A step that takes over or finishes telling group and queue. -/
theorem tallied_of_tells (h : WorkCounted I n (f ::ₘ others)) {p : Ptr} {s : Stage}
    (hs : s ≠ .waiting) (hm : (s, p) ∈ f.work) (he : f.endsWork n = [(s, p)])
    (hb : f.beginsWork n = [] ∨ f.beginsWork n = [(.notifying, p)]) :
    Tallied I (code t c f n).1 ((code t c f n).2 + others) p := by
  have hw := h.waiting_exec (t := t) (c := c) p
  have ho := h.telling_exec (t := t) (c := c) p
  have hpos : 0 < telling n (f ::ₘ others) p := by
    have hc : 0 < (work n (f ::ₘ others)).count (s, p) := by
      rw [Multiset.count_pos, work_cons]
      exact Multiset.mem_add.mpr (Or.inl hm)
    rw [telling]
    cases s with
    | waiting => exact absurd rfl hs
    | finishing => omega
    | notifying => omega
  have hold := h.tally p
  have hzero : waiting n (f ::ₘ others) p = 0 := by
    by_contra hne
    have := hold.last (Nat.pos_of_ne_zero hne)
    omega
  have hone := hold.once
  have hends : Multiset.count (Stage.finishing, p) (f.endsWork n) +
      Multiset.count (Stage.notifying, p) (f.endsWork n) = 1 := by
    rw [he]
    cases s with
    | waiting => exact absurd rfl hs
    | finishing => simp
    | notifying => simp
  have hbegins : Multiset.count (Stage.waiting, p) (f.beginsWork n) = 0 ∧
      Multiset.count (Stage.finishing, p) (f.beginsWork n) +
        Multiset.count (Stage.notifying, p) (f.beginsWork n) ≤ 1 := by
    rcases hb with hb | hb <;> rw [hb] <;> simp
  exact Tallied.none (by omega) (by omega)

theorem exec_workerCancelledTodo (t : Nat) (c : Choice) (p : Ptr) (lq : Option Ptr) (n : Node) :
    (exec t c (.workerCancelledTodo p lq) n).1 = .taskTodo p := by
  cases lq with
  | some q =>
    rw [exec]
    split <;> rfl
  | none => rfl

theorem exec_executeTodo (t : Nat) (c : Choice) (ctx : Context) (a : Ptr) (n : Node) :
    (exec t c (.executeTodo ctx a) n).1 = .taskTodo ctx.task := by
  rw [exec]
  split <;> rfl

/-- The tally of the task that the step works for, where it begins or ends work. A start call
that fails loses all instances of its task at once, tracked or not. -/
theorem tallied_self (h : WorkCounted I n (f ::ₘ others))
    (hl : ∀ p ∈ f.loses n, p ∉ f.fresh → ¬ I n p)
    (hI : ∀ p ∈ references n (f ::ₘ others), p ∉ f.fresh → I (code t c f n).1 p → I n p)
    {p : Ptr} (hp : p ∈ f.refs) (hf : ¬ f.movesWork = false) :
    Tallied I (code t c f n).1 ((code t c f n).2 + others) p := by
  obtain ⟨r, rest, rfl⟩ | ⟨r, rest, rfl⟩ | ⟨q, ii, isPrivate, a, caller, rfl⟩ | ⟨q, lq, rfl⟩ |
    ⟨q, lq, rfl⟩ | ⟨q, lq, rfl⟩ | ⟨ctx, todo, rfl⟩ | ⟨ctx, a, rfl⟩ | ⟨ctx, rfl⟩ |
    ⟨ctx, g, rfl⟩ | ⟨q, ii, caller, rfl⟩ | ⟨q, a, caller, rfl⟩ | ⟨call, q, rfl⟩ |
    ⟨call, q, i, rfl⟩ | ⟨call, q, kk, was, rfl⟩ := Frame.movesWork_cases hf
  · exact absurd hp List.not_mem_nil
  · exact absurd hp List.not_mem_nil
  all_goals cases List.mem_singleton.mp hp
  · exact tally_of_stays h hI (fun _ => List.not_mem_nil) (fun _ => List.not_mem_nil)
      (fun _ h => by cases h) (by
      rcases exec_schedulePush t c p ii isPrivate a caller n with he | he | ⟨r, hr, hp, he⟩ <;>
        rw [he] <;> exact fun h => by cases h)
  · have hu : (exec t c (.workerSwitch p lq) n).1 ≠ .taskTodo p := by
      simp only [exec]
      cases (n.task p).state <;> exact fun h => by cases h
    by_cases hm : p ∈ (Frame.workerSwitch p lq).loses n
    · refine tallied_of_loses h hI rfl ?_ hp rfl (hl p hm List.not_mem_nil)
        (fun _ h => by cases h) hu
      simp only [Frame.loses, Frame.endsWork] at hm ⊢
      split at hm
      all_goals first | exact absurd hm List.not_mem_nil | simp_all
    · refine tally_of_stays h hI (fun _ => List.not_mem_nil) (fun s => ?_)
        (fun _ h => by cases h) hu
      simp only [Frame.loses, Frame.endsWork] at hm ⊢
      split at hm
      all_goals first
        | exact absurd (List.mem_singleton_self p) hm
        | simp_all
  · -- the last instance has not been counted yet, so the queue is not told
    refine tallied_of_taskTodo h hI rfl hp (Or.inl ?_) (fun _ h => by cases h)
      (exec_workerCancelledTodo t c p lq n)
    have hle := (h.tally p).le (waiting_pos (List.mem_singleton_self _))
    have hpos : 0 < waiting n (Frame.workerCancelledTodo p lq ::ₘ others) p :=
      waiting_pos (List.mem_singleton_self _)
    cases lq with
    | some q => simp only [Frame.beginsWork, if_neg (show ¬ (n.task p).instancesTodo = 0 by omega)]
    | none => rfl
  · exact tallied_of_tells (s := .notifying) h (fun h => by cases h) (List.mem_singleton_self _)
      rfl (Or.inl rfl)
  · by_cases hv : n.actionPool.isHandleValid (n.task ctx.task).action = true
    · exact tally_of_stays h hI
        (fun _ => by simp only [Frame.beginsWork, hv, ↓reduceIte, List.not_mem_nil,
          not_false_eq_true])
        (fun _ => by simp only [Frame.endsWork, hv, ↓reduceIte, List.not_mem_nil,
          not_false_eq_true]) (fun _ h => by cases h) (by
          simp only [exec, hv, ↓reduceIte]
          exact fun h => by cases h)
    · have he : (Frame.executeAction ctx todo).endsWork n = [(.waiting, ctx.task)] := by
        simp only [Frame.endsWork, if_neg hv]
      have hu : (exec t c (.executeAction ctx todo) n).1 ≠ .taskTodo ctx.task := by
        simp only [exec, if_neg hv]
        exact fun h => by cases h
      by_cases htodo : todo = 1
      · have hb : (Frame.executeAction ctx todo).beginsWork n = [(.finishing, ctx.task)] := by
          simp only [Frame.beginsWork, if_neg hv, if_pos htodo]
        have hw := h.waiting_exec (t := t) (c := c) ctx.task
        have ho := h.telling_exec (t := t) (c := c) ctx.task
        rw [he, hb] at hw ho
        simp at hw ho
        have hle := (h.tally ctx.task).le (by omega)
        have hlast := (h.tally ctx.task).last (by omega)
        have hnum := h.localTodo _ (Multiset.mem_cons_self _ others) ctx todo
          (List.mem_singleton_self _)
        exact Tallied.none (by omega) (by omega)
      · have hb : (Frame.executeAction ctx todo).beginsWork n = [] := by
          simp only [Frame.beginsWork, if_neg hv, if_neg htodo]
        refine tallied_of_loses h hI hb he hp rfl (hl _ ?_ List.not_mem_nil)
          (fun _ h => by cases h) hu
        simp only [Frame.loses, hv, htodo, or_self, Bool.false_eq_true, ↓reduceIte,
          List.mem_singleton]
  · refine tallied_of_taskTodo h hI rfl hp ?_ (fun _ h => by cases h) (exec_executeTodo t c ctx a n)
    by_cases h1 : (n.task ctx.task).instancesTodo = 1
    · exact Or.inr ⟨by simp only [Frame.beginsWork, if_pos h1], h1⟩
    · exact Or.inl (by simp only [Frame.beginsWork, if_neg h1])
  · by_cases hv : n.groupPool.isHandleValid (n.task ctx.task).group = true
    · exact tally_of_stays h hI
        (fun _ => by simp only [Frame.beginsWork, hv, ↓reduceIte, List.not_mem_nil,
          not_false_eq_true])
        (fun _ => by simp only [Frame.endsWork, hv, ↓reduceIte, List.not_mem_nil,
          not_false_eq_true]) (fun _ h => by cases h) (by
          simp only [exec, hv, ↓reduceIte]
          exact fun h => by cases h)
    · refine tallied_of_tells (s := .finishing) h (fun h => by cases h) (List.mem_singleton_self _)
        (by simp only [Frame.endsWork, if_neg hv]) ?_
      simp only [Frame.beginsWork, if_neg hv]
      exact ctx.notifies_cases
  · exact tallied_of_tells (s := .finishing) h (fun h => by cases h) (List.mem_singleton_self _) rfl
      ctx.notifies_cases
  · by_cases hv : n.actionPool.isHandleValid (n.task p).action = true
    · exact tally_of_stays h hI (fun _ => List.not_mem_nil)
        (fun _ => by simp only [Frame.endsWork, hv, ↓reduceIte, List.not_mem_nil,
          not_false_eq_true]) (fun _ h => by cases h) (by
          simp only [exec, hv, ↓reduceIte]
          exact fun h => by cases h)
    · refine tallied_of_loses h hI rfl (by simp only [Frame.endsWork, if_neg hv]) hp rfl
        (hl _ ?_ List.not_mem_nil) (fun _ h => by cases h) (by
          simp only [exec, if_neg hv]
          exact fun h => by cases h)
      simp only [Frame.loses, if_neg hv, List.mem_singleton]
  · exact tallied_of_loses h hI rfl rfl hp rfl
      (hl _ (List.mem_singleton_self _) List.not_mem_nil) (fun _ h => by cases h)
      fun h => by cases h
  · -- the start call sets the count to the number of instances that it is going to push
    have hw := h.waiting_exec (t := t) (c := c) p
    have ho := h.telling_exec (t := t) (c := c) p
    have hzero : ∀ s, (work n (Frame.startInit call p ::ₘ others)).count (s, p) = 0 :=
      fun s => h.count_others (List.mem_singleton_self p) s
    have htask : (code t c (.startInit call p) n).1.task p = (n.task p).start call := by
      simp only [code, exec, Node.access, Node.task_modifyTask_self]
    rw [waiting, hzero] at hw
    rw [telling, hzero, hzero] at ho
    simp [Frame.beginsWork, Frame.endsWork] at hw ho
    rw [Tallied, htask, ← hw, ← ho]
    exact ⟨fun _ => ⟨le_rfl, le_rfl⟩, Nat.zero_le 1, fun _ => rfl, fun _ _ => rfl⟩
  · have hw := h.waiting_exec (t := t) (c := c) p
    have ho := h.telling_exec (t := t) (c := c) p
    have hfresh : p ∈ (Frame.startAction call p i).fresh := List.mem_singleton_self p
    by_cases hv : n.actionPool.isHandleValid ((n.jobList call.job.id).actions i) = true ∧
        (n.task p).attributes.priority < n.attributes.maxPriorities
    · exact tally_of_stays h hI (fun _ => List.not_mem_nil)
        (fun _ => by simp only [Frame.endsWork, if_pos hv, List.not_mem_nil, not_false_eq_true])
        (fun _ h => by cases h) (by
          simp only [exec, if_pos hv.1, if_pos hv.2]
          exact fun h => by cases h)
    · -- nothing but the start call works on the task, so nothing is left
      have hall := h.count_others hfresh .waiting
      have honce := (h.tally p).once
      rw [waiting, hall] at hw
      simp [Frame.beginsWork, Frame.endsWork, hv, Frame.work] at hw ho
      exact Tallied.none (by omega) (by omega)
  · exact tally_of_stays h hI (fun _ => List.not_mem_nil) (fun _ => List.not_mem_nil)
      (fun _ h => by cases h) (by
      simp only [exec]
      split
      · exact fun h => by cases h
      · split <;> exact fun h => by cases h)

/-- The instance that a step counts down belongs to a program point that ends work. -/
theorem exec_taskTodo {p : Ptr} (hu : (exec t c f n).1 = .taskTodo p) :
    p ∈ f.refs ∧ f.movesWork = true := by
  have hi := exec_issuedBy t c f n
  rw [hu] at hi
  obtain ⟨ctx, a, rfl, rfl⟩ | ⟨lq, rfl⟩ := hi
  · exact ⟨List.mem_singleton_self _, rfl⟩
  · exact ⟨List.mem_singleton_self _, rfl⟩

/-- Where only untracked tasks lose instances, the code's count agrees with the
instances that are left, and the last one of them is noticed. -/
theorem workCounted_exec (h : WorkCounted I n (f ::ₘ others))
    (hg : deletesUnreferenced t c f n (f ::ₘ others))
    (hl : ∀ p ∈ f.loses n, p ∉ f.fresh → ¬ I n p)
    (hI : ∀ p ∈ references n (f ::ₘ others), p ∉ f.fresh → I (code t c f n).1 p → I n p) :
    WorkCounted I (code t c f n).1 ((code t c f n).2 + others) := by
  have hself : ∀ p ∈ f.refs, p ∈ references n (f ::ₘ others) := fun p hp =>
    mem_references_of_mem (Multiset.mem_cons_self f others) hp
  have hother : ∀ g ∈ others, ∀ p ∈ g.refs,
      ((code t c f n).1.task p).attributes = (n.task p).attributes := by
    intro g hgm p hp
    have ho : p ∈ references n others := mem_references_of_mem hgm hp
    refine attributes_exec h.toTasksOwned ?_ fun call hf => ?_
    · rw [references_cons]
      exact Multiset.mem_add.mpr (Or.inr ho)
    · refine h.not_mem_others (p := p) ?_ ho
      rw [hf]
      exact List.mem_singleton_self p
  refine ⟨tasksOwned_preserved t c f n others h.toTasksOwned hg, ?_, ?_, fun p => ?_⟩
  · intro g hgm call p hp
    rcases Multiset.mem_add.mp hgm with hgm | hgm
    · have hm : (call, p) ∈ (exec t c f n).2.flatMap Frame.starts :=
        List.mem_flatMap.mpr ⟨g, hgm, hp⟩
      rcases exec_starts t c f n with he | he | ⟨call', q, rfl, he⟩
      · rw [he] at hm
        rw [← h.started f (Multiset.mem_cons_self f others) call p hm]
        refine attributes_exec h.toTasksOwned (hself p (Frame.mem_refs_of_mem_starts hm)) ?_
        rintro call' rfl
        exact absurd hm List.not_mem_nil
      · exact absurd (he ▸ hm) List.not_mem_nil
      · rw [he, List.mem_singleton, Prod.mk.injEq] at hm
        obtain ⟨rfl, rfl⟩ := hm
        simp only [code, exec, Node.access, Node.task_modifyTask_self]
        rfl
    · rw [hother g hgm p (Frame.mem_refs_of_mem_starts hp)]
      exact h.started g (Multiset.mem_cons_of_mem hgm) call p hp
  · intro g hgm ctx todo hp
    rcases Multiset.mem_add.mp hgm with hgm | hgm
    · have hm : (ctx, todo) ∈ (exec t c f n).2.flatMap Frame.localTodo :=
        List.mem_flatMap.mpr ⟨g, hgm, hp⟩
      rcases exec_localTodo t c f n with he | ⟨ctx', rfl, he⟩
      · exact absurd (he ▸ hm) List.not_mem_nil
      · rw [he, List.mem_singleton, Prod.mk.injEq] at hm
        obtain ⟨rfl, rfl⟩ := hm
        rw [attributes_exec h.toTasksOwned (hself _ (List.mem_singleton_self _))
          fun _ h => by cases h]
    · have hr : ctx.task ∈ g.refs := by
        unfold Frame.localTodo at hp
        split at hp
        · rw [(Prod.mk.inj (List.mem_singleton.mp hp)).1]
          exact List.mem_singleton_self _
        · exact absurd hp List.not_mem_nil
      rw [hother g hgm _ hr]
      exact h.localTodo g (Multiset.mem_cons_of_mem hgm) ctx todo hp
  · by_cases hp : p ∈ f.refs
    · by_cases hf : f.movesWork = false
      · refine tally_of_stays h hI (fun s => ?_) (fun s => ?_) ?_ fun hu => ?_
        · rw [Frame.beginsWork_of_keeps n hf]
          exact List.not_mem_nil
        · rw [Frame.endsWork_of_keeps n hf]
          exact List.not_mem_nil
        · rintro call rfl
          cases hf
        · have hm := (exec_taskTodo hu).2
          rw [hf] at hm
          cases hm
      · exact tallied_self h hl hI hp hf
    · refine tally_of_stays h hI (fun s hm => hp (Frame.mem_refs_of_mem_beginsWork hm))
        (fun s hm => hp (Frame.mem_refs_of_mem_endsWork hm)) ?_
        fun hu => hp (exec_taskTodo hu).1
      rintro call rfl
      exact hp (List.mem_singleton_self p)

/-- Work comes up for a new task, or where other work for the same task ends. -/
theorem Frame.beginsWork_cases {s : Stage} {p : Ptr} (h : (s, p) ∈ f.beginsWork n) :
    (∃ call, f = .startInit call p) ∨ ∃ s', s' ≠ .notifying ∧ (s', p) ∈ f.work := by
  have hone : ∀ {x : Stage} {q : Ptr}, (s, p) ∈ [(x, q)] → p = q := fun hm =>
    (Prod.mk.inj (List.mem_singleton.mp hm)).2
  have hnot : ∀ {ctx : Context}, (s, p) ∈ ctx.notifies → p = ctx.task := by
    intro ctx hm
    rcases ctx.notifies_cases with he | he
    · exact absurd (he ▸ hm) List.not_mem_nil
    · exact hone (he ▸ hm)
  unfold Frame.beginsWork at h
  split at h
  · rename_i call q
    rw [(Prod.mk.inj (List.mem_replicate.mp h).2).2]
    exact Or.inl ⟨call, rfl⟩
  · split at h
    · rw [hone h]
      exact Or.inr ⟨.waiting, nofun, List.mem_singleton_self _⟩
    · exact absurd h List.not_mem_nil
  · split at h
    · exact absurd h List.not_mem_nil
    · split at h
      · rw [hone h]
        exact Or.inr ⟨.waiting, nofun, List.mem_singleton_self _⟩
      · exact absurd h List.not_mem_nil
  · split at h
    · exact absurd h List.not_mem_nil
    · rw [hnot h]
      exact Or.inr ⟨.finishing, nofun, List.mem_singleton_self _⟩
  · rw [hnot h]
    exact Or.inr ⟨.finishing, nofun, List.mem_singleton_self _⟩
  · split at h
    · rw [hone h]
      exact Or.inr ⟨.waiting, nofun, List.mem_singleton_self _⟩
    · exact absurd h List.not_mem_nil
  · exact absurd h List.not_mem_nil

/-- The program points that end with a task whose group has been told, or that has none. -/
def Frame.Tells (f : Frame) (n : Node) (ctx : Context) : Prop :=
  (f = .executeGroup ctx ∧ n.groupPool.isHandleValid (n.task ctx.task).group = false) ∨
    ∃ g, f = .executeGroupPush ctx g

/-- Where work ends. -/
theorem Frame.endsWork_cases {s : Stage} {p : Ptr} (h : (s, p) ∈ f.endsWork n) :
    (s = .waiting ∧ (p ∈ f.loses n ∨ (∃ ctx a, ctx.task = p ∧ f = .executeTodo ctx a) ∨
        (∃ ctx, ctx.task = p ∧ f = .executeAction ctx 1 ∧
          n.actionPool.isHandleValid (n.task p).action = false) ∨
        ∃ lq, f = .workerCancelledTodo p lq)) ∨
      (s = .finishing ∧ ∃ ctx, ctx.task = p ∧ f.Tells n ctx) ∨
      (s = .notifying ∧ ∃ q, f = .workerFinished p q) := by
  have hone : ∀ {x : Stage} {q : Ptr}, (s, p) ∈ [(x, q)] → s = x ∧ p = q := fun hm =>
    Prod.mk.inj (List.mem_singleton.mp hm)
  unfold Frame.endsWork at h
  split at h
  · rename_i ctx a
    obtain ⟨rfl, rfl⟩ := hone h
    exact Or.inl ⟨rfl, Or.inr (Or.inl ⟨ctx, a, rfl, rfl⟩)⟩
  · rename_i ctx todo
    split at h
    · exact absurd h List.not_mem_nil
    · rename_i hv
      obtain ⟨rfl, rfl⟩ := hone h
      refine Or.inl ⟨rfl, ?_⟩
      by_cases ht : todo = 1
      · subst ht
        exact Or.inr (Or.inr (Or.inl ⟨ctx, rfl, rfl, Bool.eq_false_iff.mpr hv⟩))
      · left
        simp only [Frame.loses, hv, ht, Bool.false_eq_true, or_self, ↓reduceIte, List.mem_singleton]
  · rename_i q lq
    split at h
    all_goals first
      | exact absurd h List.not_mem_nil
      | obtain ⟨rfl, rfl⟩ := hone h
        refine Or.inl ⟨rfl, Or.inl ?_⟩
        unfold Frame.loses
        split <;> simp_all
  · rename_i q lq
    obtain ⟨rfl, rfl⟩ := hone h
    exact Or.inl ⟨rfl, Or.inr (Or.inr (Or.inr ⟨lq, rfl⟩))⟩
  · split at h
    · exact absurd h List.not_mem_nil
    · rename_i hv
      obtain ⟨rfl, rfl⟩ := hone h
      refine Or.inl ⟨rfl, Or.inl ?_⟩
      simp only [Frame.loses, if_neg hv, List.mem_singleton]
  · obtain ⟨rfl, rfl⟩ := hone h
    exact Or.inl ⟨rfl, Or.inl (List.mem_singleton_self _)⟩
  · split at h
    · exact absurd h List.not_mem_nil
    · rename_i hv
      obtain ⟨rfl, rfl⟩ := Prod.mk.inj (List.mem_replicate.mp h).2
      refine Or.inl ⟨rfl, Or.inl ?_⟩
      simp only [Frame.loses, if_neg hv, List.mem_singleton]
  · rename_i ctx
    split at h
    · exact absurd h List.not_mem_nil
    · rename_i hv
      obtain ⟨rfl, rfl⟩ := hone h
      exact Or.inr (Or.inl ⟨rfl, ctx, rfl, Or.inl ⟨rfl, Bool.eq_false_iff.mpr hv⟩⟩)
  · rename_i ctx g
    obtain ⟨rfl, rfl⟩ := hone h
    exact Or.inr (Or.inl ⟨rfl, ctx, rfl, Or.inr ⟨g, rfl⟩⟩)
  · rename_i q lq
    obtain ⟨rfl, rfl⟩ := hone h
    exact Or.inr (Or.inr ⟨rfl, lq, rfl⟩)
  · exact absurd h List.not_mem_nil

namespace WorkCounted

/-- Work after a step was there before, in this stage or an earlier one, or belongs to a
new task. -/
theorem before (h : WorkCounted I n (f ::ₘ others)) {s : Stage} {p : Ptr}
    (hm : (s, p) ∈ work (code t c f n).1 ((code t c f n).2 + others)) :
    (∃ s', (s' = .notifying → s = .notifying) ∧ (s', p) ∈ work n (f ::ₘ others)) ∨
      ∃ call, f = .startInit call p := by
  have hb := h.balance (t := t) (c := c) (s, p)
  have hpos := Multiset.count_pos.mpr hm
  by_cases hold : (s, p) ∈ work n (f ::ₘ others)
  · exact Or.inl ⟨s, id, hold⟩
  · rw [Multiset.count_eq_zero.mpr hold] at hb
    have hbeg : 0 < Multiset.count (s, p) (f.beginsWork n) := by omega
    rcases Frame.beginsWork_cases (Multiset.count_pos.mp hbeg) with hf | ⟨s', hne, hs⟩
    · exact Or.inr hf
    · refine Or.inl ⟨s', fun he => absurd he hne, ?_⟩
      rw [work_cons]
      exact Multiset.mem_add.mpr (Or.inl hs)

/-- Work that is gone after a step has ended in it. -/
theorem mem_ends (h : WorkCounted I n (f ::ₘ others)) {s : Stage} {p : Ptr}
    (hm : (s, p) ∈ work n (f ::ₘ others))
    (hn : (s, p) ∉ work (code t c f n).1 ((code t c f n).2 + others)) :
    (s, p) ∈ f.endsWork n ∧ (work n (f ::ₘ others)).count (s, p) ≤
      Multiset.count (s, p) (f.endsWork n) := by
  have hb := h.balance (t := t) (c := c) (s, p)
  have hpos := Multiset.count_pos.mpr hm
  rw [Multiset.count_eq_zero.mpr hn] at hb
  have hends : 0 < Multiset.count (s, p) (f.endsWork n) := by omega
  exact ⟨Multiset.count_pos.mp hends, by omega⟩

/-- Work that comes up in a step is there after it. -/
theorem mem_begins (h : WorkCounted I n (f ::ₘ others)) {s : Stage} {p : Ptr}
    (hm : (s, p) ∈ f.beginsWork n) (he : (s, p) ∉ f.endsWork n) :
    (s, p) ∈ work (code t c f n).1 ((code t c f n).2 + others) := by
  have hb := h.balance (t := t) (c := c) (s, p)
  have he0 : Multiset.count (s, p) (f.endsWork n) = 0 := Multiset.count_eq_zero.mpr he
  have hpos : 0 < Multiset.count (s, p) (f.beginsWork n) := Multiset.count_pos.mpr hm
  rw [← Multiset.count_pos]
  omega

/-- The last instance of a task that loses none goes on to tell the group, unless it is
dropped as cancelled. -/
theorem after_waiting (h : WorkCounted I n (f ::ₘ others)) {p : Ptr} (hI : I n p)
    (hl : p ∉ f.loses n) (hm : (.waiting, p) ∈ work n (f ::ₘ others)) :
    (.waiting, p) ∈ work (code t c f n).1 ((code t c f n).2 + others) ∨
      (.finishing, p) ∈ work (code t c f n).1 ((code t c f n).2 + others) ∨
      ∃ lq, f = .workerCancelledTodo p lq ∧ (n.task p).instancesTodo = 1 := by
  by_cases hn : (.waiting, p) ∈ work (code t c f n).1 ((code t c f n).2 + others)
  · exact Or.inl hn
  · right
    obtain ⟨he, hle⟩ := h.mem_ends hm hn
    have hpos : 0 < waiting n (f ::ₘ others) p := Multiset.count_pos.mpr hm
    have hexact := (h.tally p).exact hpos (Or.inl hI)
    rcases Frame.endsWork_cases he with ⟨-, hc⟩ | ⟨hs, -⟩ | ⟨hs, -⟩
    · rcases hc with hlose | ⟨ctx, a, rfl, rfl⟩ | ⟨ctx, rfl, rfl, hv⟩ | ⟨lq, rfl⟩
      · exact absurd hlose hl
      · left
        have h1 : (n.task ctx.task).instancesTodo = 1 := by
          simp [Frame.endsWork] at hle
          rw [waiting] at hexact hpos
          omega
        refine h.mem_begins ?_ ?_
        · simp only [Frame.beginsWork, if_pos h1, List.mem_singleton]
        · simp only [Frame.endsWork, List.mem_singleton, Prod.mk.injEq, reduceCtorEq, false_and,
            not_false_eq_true]
      · left
        refine h.mem_begins ?_ ?_
        · simp only [Frame.beginsWork, hv, Bool.false_eq_true, ↓reduceIte, List.mem_singleton]
        · simp only [Frame.endsWork, hv, Bool.false_eq_true, ↓reduceIte, List.mem_singleton,
            Prod.mk.injEq, reduceCtorEq, false_and, not_false_eq_true]
      · right
        refine ⟨lq, rfl, ?_⟩
        simp [Frame.endsWork] at hle
        rw [waiting] at hexact hpos
        omega
    · cases hs
    · cases hs

theorem after_finishing (h : WorkCounted I n (f ::ₘ others)) {p : Ptr}
    (hm : (.finishing, p) ∈ work n (f ::ₘ others)) :
    (.finishing, p) ∈ work (code t c f n).1 ((code t c f n).2 + others) ∨
      ∃ ctx, ctx.task = p ∧ f.Tells n ctx := by
  by_cases hn : (.finishing, p) ∈ work (code t c f n).1 ((code t c f n).2 + others)
  · exact Or.inl hn
  · right
    rcases Frame.endsWork_cases (h.mem_ends hm hn).1 with ⟨hs, -⟩ | ⟨-, hc⟩ | ⟨hs, -⟩
    · cases hs
    · exact hc
    · cases hs

theorem after_notifying (h : WorkCounted I n (f ::ₘ others)) {p : Ptr}
    (hm : (.notifying, p) ∈ work n (f ::ₘ others)) :
    (.notifying, p) ∈ work (code t c f n).1 ((code t c f n).2 + others) ∨
      ∃ q, f = .workerFinished p q := by
  by_cases hn : (.notifying, p) ∈ work (code t c f n).1 ((code t c f n).2 + others)
  · exact Or.inl hn
  · right
    rcases Frame.endsWork_cases (h.mem_ends hm hn).1 with ⟨hs, -⟩ | ⟨hs, -⟩ | ⟨-, hc⟩
    · cases hs
    · cases hs
    · exact hc

end WorkCounted

end Preservation

theorem workCounted_boot (I : Node → Ptr → Prop) (attributes : NodeAttributes)
    (mode : SchedulerMode) (clients : Nat) :
    WorkCounted I (boot attributes mode clients).mem (boot attributes mode clients).frames := by
  have hrefs := references_boot attributes mode clients
  have hw : ∀ x, x ∉ work (boot attributes mode clients).mem
      (boot attributes mode clients).frames := by
    rintro ⟨s, p⟩ hx
    have hm := mem_references_of_mem_work hx
    rw [hrefs] at hm
    exact Multiset.notMem_zero p hm
  refine ⟨tasksOwned_boot attributes mode clients, fun f hfm call p hp => ?_,
    fun f hfm ctx todo hp => ?_, fun p => Tallied.none ?_ ?_⟩
  · rw [Frame.starts_of_refs (refs_of_mem_boot hfm)] at hp
    exact absurd hp List.not_mem_nil
  · rw [Frame.localTodo_of_refs (refs_of_mem_boot hfm)] at hp
    exact absurd hp List.not_mem_nil
  · exact Multiset.count_eq_zero.mpr (hw _)
  · rw [telling, Multiset.count_eq_zero.mpr (hw _), Multiset.count_eq_zero.mpr (hw _)]
    exact Nat.zero_le 1

end Embb.Mtapi
