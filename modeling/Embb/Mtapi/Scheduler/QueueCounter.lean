import Embb.Mtapi.Scheduler.Queues
import Embb.Mtapi.Scheduler.Tally

/-!
# The task counter of a queue

`num_tasks` of a queue counts the tasks enqueued through it that are not over, as
long as every last instance ends on the one path of the worker main loop that tells
the queue. The guard names the paths that do not: a worker that helps out while it
waits, an instance dropped as cancelled, an instance that is lost, and a start call
that fails after it has counted its task.
-/

namespace Embb.Mtapi

open Threads

/-- The `local_queue` that a worker holds while it works for a task. -/
def Context.localQueue (ctx : Context) : List (Ptr × Option Ptr) :=
  match ctx.by' with
  | .worker lq => [(ctx.task, lq)]
  | .helper => []

/-- The `local_queue` of the worker main loop at a program point. -/
def Frame.localQueue : Frame → List (Ptr × Option Ptr)
  | .workerSwitch p lq | .workerContext p lq | .workerCancelled p lq
  | .workerCancelledTodo p lq => [(p, lq)]
  | .workerFinished p q => [(p, some q)]
  | .executeRunning ctx | .executeAction ctx _ | .executeCheck ctx _ | .actionFunction ctx _
  | .executeTodo ctx _ | .executeCompleted ctx _ | .executeNumTasks ctx _ _
  | .executeDeleted ctx _ | .executeError ctx _ | .executeGroup ctx
  | .executeGroupPush ctx _ => ctx.localQueue
  | _ => []

theorem Frame.mem_refs_of_mem_localQueue {f : Frame} {p : Ptr} {lq : Option Ptr}
    (h : (p, lq) ∈ f.localQueue) : p ∈ f.refs ∧ f.fresh = [] := by
  have hctx : ∀ {ctx : Context}, (p, lq) ∈ ctx.localQueue → p ∈ [ctx.task] := by
    intro ctx hm
    unfold Context.localQueue at hm
    split at hm
    · exact List.mem_singleton.mpr (Prod.mk.inj (List.mem_singleton.mp hm)).1
    · exact absurd hm List.not_mem_nil
  unfold Frame.localQueue at h
  split at h
  all_goals first
    | exact absurd h List.not_mem_nil
    | exact ⟨hctx h, rfl⟩
    | exact ⟨List.mem_singleton.mpr (Prod.mk.inj (List.mem_singleton.mp h)).1, rfl⟩

theorem Frame.localQueue_of_refs {f : Frame} (h : f.refs = []) : f.localQueue = [] :=
  Frame.eq_nil_of_refs (fun _ hx => (mem_refs_of_mem_localQueue hx).1) h

theorem localQueue_contextResume (ctx : Context) (done : Bool) :
    (ctx.resume done).flatMap Frame.localQueue = ctx.localQueue ∨
      (ctx.resume done).flatMap Frame.localQueue = [] := by
  rcases ctx with ⟨_ | _, p, i, m⟩
  · rename_i lq
    cases lq <;> cases done
    all_goals first | exact Or.inl rfl | exact Or.inr rfl
  · exact Or.inr rfl

theorem localQueue_scheduleResume (caller : ScheduleCaller) (p : Ptr) (pushed : Bool) :
    (caller.resume p pushed).flatMap Frame.localQueue = [] :=
  flatMap_scheduleResume (fun _ _ _ _ => rfl) (fun _ => rfl) caller p pushed

theorem localQueue_executeTaskOrYield (n : Node) (t : Nat) {back : Frame} (h : back.refs = []) :
    (n.executeTaskOrYield t back).flatMap Frame.localQueue = [] := by
  rw [flatMap_executeTaskOrYield fun _ => rfl, Frame.localQueue_of_refs h]

/-- The worker main loop looks its queue up once for each task. -/
theorem exec_localQueue (t : Nat) (c : Choice) (f : Frame) (n : Node) :
    (exec t c f n).2.flatMap Frame.localQueue = f.localQueue ∨
      (exec t c f n).2.flatMap Frame.localQueue = [] ∨
      ∃ p, f = .workerQueue p ∧ (exec t c f n).2.flatMap Frame.localQueue =
        [(p, if n.queuePool.isHandleValid (n.task p).queue then some (n.task p).queue
          else none)] := by
  fun_cases exec t c f n
  all_goals first
    | exact Or.inl rfl
    | exact Or.inr (Or.inl rfl)
    | exact Or.inr (Or.inl (localQueue_executeTaskOrYield _ _ rfl))
    | exact Or.inr (Or.inl (localQueue_scheduleResume _ _ _))
    | exact (localQueue_contextResume _ _).imp_right Or.inl
    | exact Or.inl (List.append_nil _)
    | rw [List.flatMap_cons, Frame.localQueue_of_refs (refs_entry _ _)]
      first | exact Or.inl rfl | exact Or.inr (Or.inl rfl) | exact Or.inl (List.append_nil _)
    | rw [List.flatMap_cons, Frame.localQueue_of_refs (refs_deleteResume _)]
      exact Or.inr (Or.inl rfl)
    | rw [List.flatMap_cons, Frame.localQueue_of_refs (refs_visitorResume _ _ _)]
      exact Or.inr (Or.inl rfl)
    | rename_i hv
      exact Or.inr (Or.inr ⟨_, rfl, by rw [if_pos hv]; rfl⟩)
    | rename_i hv
      exact Or.inr (Or.inr ⟨_, rfl, by rw [if_neg hv]; rfl⟩)

/-- The task that a start call has not assigned to a queue yet. -/
def Frame.unqueued : Frame → List Ptr
  | .startGroup _ p | .startGroupCount _ p | .startQueue _ p | .startQueueCount _ p => [p]
  | _ => []

theorem Frame.mem_fresh_of_mem_unqueued {f : Frame} {p : Ptr} (h : p ∈ f.unqueued) :
    p ∈ f.fresh := by
  unfold Frame.unqueued at h
  split at h
  all_goals first | exact h | exact absurd h List.not_mem_nil

theorem Frame.unqueued_of_refs {f : Frame} (h : f.refs = []) : f.unqueued = [] := by
  have hf := fresh_of_refs h
  rw [List.eq_nil_iff_forall_not_mem] at hf ⊢
  exact fun p hp => hf p (mem_fresh_of_mem_unqueued hp)

theorem unqueued_contextResume (ctx : Context) (done : Bool) :
    (ctx.resume done).flatMap Frame.unqueued = [] :=
  flatMap_contextResume (fun _ _ => rfl) (fun _ => rfl) ctx done

theorem unqueued_scheduleResume (caller : ScheduleCaller) (p : Ptr) (pushed : Bool) :
    (caller.resume p pushed).flatMap Frame.unqueued = [] :=
  flatMap_scheduleResume (fun _ _ _ _ => rfl) (fun _ => rfl) caller p pushed

theorem unqueued_executeTaskOrYield (n : Node) (t : Nat) {back : Frame} (h : back.refs = []) :
    (n.executeTaskOrYield t back).flatMap Frame.unqueued = [] := by
  rw [flatMap_executeTaskOrYield fun _ => rfl, Frame.unqueued_of_refs h]

theorem exec_unqueued (t : Nat) (c : Choice) (f : Frame) (n : Node) :
    (exec t c f n).2.flatMap Frame.unqueued = f.unqueued ∨
      (exec t c f n).2.flatMap Frame.unqueued = [] ∨
      ∃ call p, f = .startInit call p ∧ (exec t c f n).2.flatMap Frame.unqueued = [p] := by
  fun_cases exec t c f n
  all_goals first
    | exact Or.inl rfl
    | exact Or.inr (Or.inl rfl)
    | exact Or.inr (Or.inl (unqueued_contextResume _ _))
    | exact Or.inr (Or.inl (unqueued_executeTaskOrYield _ _ rfl))
    | exact Or.inr (Or.inl (unqueued_scheduleResume _ _ _))
    | exact Or.inr (Or.inr ⟨_, _, rfl, rfl⟩)
    | rw [List.flatMap_cons, Frame.unqueued_of_refs (refs_entry _ _)]
      exact Or.inr (Or.inl rfl)
    | rw [List.flatMap_cons, Frame.unqueued_of_refs (refs_deleteResume _)]
      exact Or.inr (Or.inl rfl)
    | rw [List.flatMap_cons, Frame.unqueued_of_refs (refs_visitorResume _ _ _)]
      exact Or.inr (Or.inl rfl)

/-- The task was enqueued through a queue that exists. -/
def enqueued (n : Node) (p : Ptr) : Prop := n.QueueExists (n.task p).queue

/-- The queue whose counter a program point changes. -/
def Frame.countsQueue : Frame → List Ptr
  | .startQueueCount call _ => [call.queue]
  | .workerFinished _ q => [q]
  | _ => []

/-- The steps that keep the counters of queues exact. -/
structure CountsTasks (t : Nat) (c : Choice) (f : Frame) (n : Node) (fs : Multiset Frame) :
    Prop where
  /-- A task slot is deleted only when nothing refers to it. -/
  deletes : deletesUnreferenced t c f n fs
  /-- The tag of a queue slot does not wrap around. -/
  wraps : ∀ q status, f = .queueDeallocate q status → (n.queue q).handle.tag + 1 < uintRange
  /-- A counter is reached through the handle of a queue that was created, and no other
  queue has taken its slot. -/
  reaches : ∀ q ∈ f.countsQueue, n.queuePool.Issued q ∧
    ∀ q', n.QueueExists q' → q'.id = q.id → q' = q
  /-- A task that is enqueued has an instance. -/
  instances : ∀ call p, f = .startQueueCount call p → n.QueueExists call.queue →
    call.attributes.numInstances ≠ 0
  /-- No instance of an enqueued task is lost. -/
  loses : ∀ p ∈ f.loses n, ¬ enqueued n p
  /-- The last instance of an enqueued task is not dropped as cancelled. -/
  cancelled : ∀ p lq, f = .workerCancelledTodo p lq →
    (n.task p).instancesTodo ≠ 1 ∨ ¬ enqueued n p
  /-- The last instance of an enqueued task is not executed by a worker that helps out. -/
  helped : ∀ ctx, ctx.by' = .helper →
    (f = .executeGroup ctx ∧ n.groupPool.isHandleValid (n.task ctx.task).group = false ∨
      ∃ g, f = .executeGroupPush ctx g) → ¬ enqueued n ctx.task

/-- The tasks enqueued through a queue that are not over, and of which the queue has not
been told. -/
def unfinished (n : Node) (fs : Multiset Frame) (q : Ptr) : Finset Ptr :=
  ((work n fs).map Prod.snd).toFinset.filter fun p => (n.task p).queue = q

theorem mem_unfinished {n : Node} {fs : Multiset Frame} {q p : Ptr} :
    p ∈ unfinished n fs q ↔ (∃ s, (s, p) ∈ work n fs) ∧ (n.task p).queue = q := by
  rw [unfinished, Finset.mem_filter, Multiset.mem_toFinset, Multiset.mem_map]
  refine and_congr_left fun _ => ⟨?_, ?_⟩
  · rintro ⟨⟨s, p'⟩, hm, rfl⟩
    exact ⟨s, hm⟩
  · rintro ⟨s, hm⟩
    exact ⟨(s, p), hm, rfl⟩

/-- Every queue that exists counts its unfinished tasks. -/
structure QueuesCounted (n : Node) (fs : Multiset Frame) : Prop
    extends WorkCounted enqueued n fs, n.QueuesOwned where
  looked : ∀ f ∈ fs, ∀ p lq, (p, lq) ∈ f.localQueue →
    (∀ q, lq = some q → (n.task p).queue = q) ∧ (lq = none → ¬ enqueued n p)
  unqueued : ∀ f ∈ fs, ∀ p ∈ f.unqueued, (n.task p).queue.id = idPoolInvalidId
  counted : ∀ q, n.QueueExists q → (n.queue q).numTasks = (unfinished n fs q).card

section Preservation

variable {t : Nat} {c : Choice} {f : Frame} {n : Node} {others : Multiset Frame}

theorem CountsTasks.queuesOwned (h : n.QueuesOwned) (hg : CountsTasks t c f n (f ::ₘ others)) :
    (code t c f n).1.QueuesOwned := by
  have hi := exec_issuedBy t c f n
  refine Node.queuesOwned_access h (fun q hu => ?_) fun p q hu => ?_
  · rw [hu] at hi
    obtain ⟨status, hf⟩ := hi
    exact hg.wraps q status hf
  · rw [hu] at hi
    obtain ⟨call, rfl, rfl⟩ := hi
    exact (hg.reaches _ (List.mem_singleton_self _)).1

/-- A queue that a known handle names after a step existed before it. -/
theorem queueExists_exec (h : n.QueuesOwned) {q : Ptr} (hq : n.queuePool.Issued q)
    (he : (code t c f n).1.QueueExists q) : n.QueueExists q := by
  rcases Node.queueExists_access h he with ⟨he, -⟩ | ⟨hnew, -⟩
  · exact he
  · exact absurd hq (Pool.not_issued_of_allocate h.queueSound hnew)

theorem enqueued_exec (h : TasksOwned n (f ::ₘ others)) (ho : n.QueuesOwned)
    (hg : deletesUnreferenced t c f n (f ::ₘ others)) :
    ∀ p ∈ references n (f ::ₘ others), p ∉ f.fresh → enqueued (code t c f n).1 p →
      enqueued n p := by
  intro p hp hf he
  have hq : ((code t c f n).1.task p).queue = (n.task p).queue :=
    congrArg (fun x => x.2.2.2.1) (h.placement_exec hg hp hf)
  rw [enqueued, hq] at he
  exact queueExists_exec ho (ho.queueIssued p.id) he

theorem QueuesCounted.workCounted (h : QueuesCounted n (f ::ₘ others))
    (hg : CountsTasks t c f n (f ::ₘ others)) :
    WorkCounted enqueued (code t c f n).1 ((code t c f n).2 + others) :=
  workCounted_exec h.toWorkCounted hg.deletes (fun p hp _ => hg.loses p hp)
    (enqueued_exec h.toTasksOwned h.toQueuesOwned hg.deletes)

theorem QueuesCounted.unqueued_exec (h : QueuesCounted n (f ::ₘ others))
    (hg : CountsTasks t c f n (f ::ₘ others)) :
    ∀ g ∈ (code t c f n).2 + others, ∀ p ∈ g.unqueued,
      ((code t c f n).1.task p).queue.id = idPoolInvalidId := by
  intro g hgm p hp
  rcases Multiset.mem_add.mp hgm with hgm | hgm
  · have hm : p ∈ (exec t c f n).2.flatMap Frame.unqueued := List.mem_flatMap.mpr ⟨g, hgm, hp⟩
    rcases exec_unqueued t c f n with he | he | ⟨call, q, rfl, he⟩
    · rw [he] at hm
      rcases n.taskQueueField_access (exec t c f n).1 p.id with hq | hq | ⟨q, -, hu⟩
      · exact (congrArg Handle.id hq).trans (h.unqueued f (Multiset.mem_cons_self f others) p hm)
      · exact hq
      · have hi := exec_issuedBy t c f n
        rw [hu] at hi
        obtain ⟨call, -, rfl⟩ := hi
        rw [← he] at hm
        exact absurd hm List.not_mem_nil
    · exact absurd (he ▸ hm) List.not_mem_nil
    · rw [he, List.mem_singleton] at hm
      subst hm
      simp only [code, exec, Node.access, Node.task_modifyTask_self]
      rfl
  · have hpl := h.toTasksOwned.placement_others hg.deletes
      (mem_references_of_mem hgm (Frame.mem_refs_of_mem_fresh (Frame.mem_fresh_of_mem_unqueued hp)))
    have hq : ((code t c f n).1.task p).queue = (n.task p).queue :=
      congrArg (fun x => x.2.2.2.1) hpl
    rw [hq]
    exact h.unqueued g (Multiset.mem_cons_of_mem hgm) p hp

/-- What a worker holds after a step it held before, or has just looked up. -/
theorem localQueue_before (h : TasksOwned n (f ::ₘ others)) {g : Frame}
    (hgm : g ∈ (code t c f n).2 + others) {p : Ptr} {lq : Option Ptr}
    (hp : (p, lq) ∈ g.localQueue) :
    p ∈ references n (f ::ₘ others) ∧ p ∉ f.fresh ∧
      ((∃ g' ∈ f ::ₘ others, (p, lq) ∈ g'.localQueue) ∨
        (f = .workerQueue p ∧ lq = if n.queuePool.isHandleValid (n.task p).queue then
          some (n.task p).queue else none)) := by
  rcases Multiset.mem_add.mp hgm with hgm | hgm
  · have hm : (p, lq) ∈ (exec t c f n).2.flatMap Frame.localQueue :=
      List.mem_flatMap.mpr ⟨g, hgm, hp⟩
    have hself := Multiset.mem_cons_self f others
    rcases exec_localQueue t c f n with he | he | ⟨q, rfl, he⟩
    · rw [he] at hm
      obtain ⟨hr, hf⟩ := Frame.mem_refs_of_mem_localQueue hm
      refine ⟨mem_references_of_mem hself hr, ?_, Or.inl ⟨f, hself, hm⟩⟩
      rw [hf]
      exact List.not_mem_nil
    · exact absurd (he ▸ hm) List.not_mem_nil
    · rw [he, List.mem_singleton, Prod.mk.injEq] at hm
      obtain ⟨rfl, rfl⟩ := hm
      exact ⟨mem_references_of_mem hself (List.mem_singleton_self p), List.not_mem_nil,
        Or.inr ⟨rfl, rfl⟩⟩
  · obtain ⟨hr, -⟩ := Frame.mem_refs_of_mem_localQueue hp
    have ho := mem_references_of_mem (n := n) hgm hr
    refine ⟨?_, fun hfr => h.not_mem_others hfr ho,
      Or.inl ⟨g, Multiset.mem_cons_of_mem hgm, hp⟩⟩
    rw [references_cons]
    exact Multiset.mem_add.mpr (Or.inr ho)

theorem QueuesCounted.looked_exec (h : QueuesCounted n (f ::ₘ others))
    (hg : CountsTasks t c f n (f ::ₘ others)) :
    ∀ g ∈ (code t c f n).2 + others, ∀ p lq, (p, lq) ∈ g.localQueue →
      (∀ q, lq = some q → ((code t c f n).1.task p).queue = q) ∧
        (lq = none → ¬ enqueued (code t c f n).1 p) := by
  intro g hgm p lq hp
  obtain ⟨href, hf, hold⟩ := localQueue_before h.toTasksOwned hgm hp
  -- what a worker has looked up stays true as long as it refers to its task
  have hq : ((code t c f n).1.task p).queue = (n.task p).queue :=
    congrArg (fun x => x.2.2.2.1) (h.toTasksOwned.placement_exec hg.deletes href hf)
  rw [hq]
  have hl : (∀ q, lq = some q → (n.task p).queue = q) ∧ (lq = none → ¬ enqueued n p) := by
    rcases hold with ⟨g', hg', hp'⟩ | ⟨-, rfl⟩
    · exact h.looked g' hg' p lq hp'
    · refine ⟨fun q hq => ?_, fun hn he => ?_⟩
      · split at hq
        · exact Option.some.inj hq
        · cases hq
      · rw [if_pos he.1.valid] at hn
        cases hn
  exact ⟨hl.1, fun hn he => hl.2 hn
    (enqueued_exec h.toTasksOwned h.toQueuesOwned hg.deletes p href hf he)⟩

/-- A task that is unfinished after a step was unfinished before it, or has just been
enqueued. -/
theorem WorkCounted.unfinished_before {I : Node → Ptr → Prop}
    (h : WorkCounted I n (f ::ₘ others)) {p q : Ptr}
    (hq : q.id ≠ idPoolInvalidId)
    (hp : p ∈ unfinished (code t c f n).1 ((code t c f n).2 + others) q) :
    p ∈ unfinished n (f ::ₘ others) q ∨ ∃ call, call.queue = q ∧ f = .startQueueCount call p := by
  obtain ⟨⟨s, hw⟩, hqueue⟩ := mem_unfinished.mp hp
  have hinit : ∀ call, f ≠ .startInit call p := by
    rintro call rfl
    refine hq ?_
    rw [← hqueue]
    simp only [code, exec, Node.access, Node.task_modifyTask_self]
    rfl
  obtain ⟨s', -, hold⟩ := (h.before hw).resolve_right fun hf => hf.elim hinit
  have hlive := h.live p (mem_references_of_mem_work hold)
  rcases n.taskQueueField_access (exec t c f n).1 p.id with hs | hs | ⟨p', hid, hu⟩
  · exact Or.inl (mem_unfinished.mpr ⟨⟨s', hold⟩, hs.symm.trans hqueue⟩)
  · refine absurd ?_ hq
    rw [← hqueue]
    exact hs
  · have hi := exec_issuedBy t c f n
    rw [hu] at hi
    obtain ⟨call, hcall, rfl⟩ := hi
    have hlive' := h.live p' (mem_references_of_mem (Multiset.mem_cons_self _ others)
      (List.mem_singleton_self p'))
    rw [hlive'.eq_of_id hlive hid]
    exact Or.inr ⟨call, hcall.trans hqueue, rfl⟩

/-- A new queue has no unfinished task. -/
theorem WorkCounted.unfinished_created {I : Node → Ptr → Prop}
    (h : WorkCounted I n (f ::ₘ others)) (ho : n.QueuesOwned) {q : Ptr}
    (hq : q.id ≠ idPoolInvalidId) {queueId : Nat} {job : Handle} {attributes : QueueAttributes}
    (hu : (exec t c f n).1 = .queueCreate queueId job attributes)
    (hnew : n.queuePool.allocate.2 = some q) :
    unfinished (code t c f n).1 ((code t c f n).2 + others) q = ∅ := by
  refine Finset.eq_empty_of_forall_notMem fun p hp => ?_
  rcases h.unfinished_before hq hp with hp | ⟨call, -, rfl⟩
  · have hiss := ho.queueIssued p.id
    rw [show (n.taskPool.storage p.id).queue = q from (mem_unfinished.mp hp).2] at hiss
    exact Pool.not_issued_of_allocate ho.queueSound hnew hiss
  · cases hu

/-- Choosing an action leaves the queue of the new task alone. -/
theorem queue_exec_of_fresh {p : Ptr} (hp : p ∈ f.fresh) (hu : p ∉ f.unqueued)
    (hf : ∀ call, f ≠ .startInit call p) :
    ((code t c f n).1.task p).queue = (n.task p).queue := by
  unfold Frame.fresh at hp
  split at hp
  all_goals first
    | exact absurd hp List.not_mem_nil
    | cases List.mem_singleton.mp hp
  · exact absurd rfl (hf _)
  · exact absurd (List.mem_singleton_self p) hu
  · exact absurd (List.mem_singleton_self p) hu
  · exact absurd (List.mem_singleton_self p) hu
  · exact absurd (List.mem_singleton_self p) hu
  · simp only [code, exec]
    split
    · split <;> rfl
    · rfl
  · simp only [code, exec]
    split <;> rfl
  · simp only [code, exec]
    split
    · split <;> simp only [Node.access, Node.task_modifyTask_self]
    · rfl

/-- A task that is unfinished before a step stays unfinished, or its queue is told. -/
theorem QueuesCounted.unfinished_after (h : QueuesCounted n (f ::ₘ others))
    (hg : CountsTasks t c f n (f ::ₘ others)) {p q : Ptr} (hq : n.QueueExists q)
    (hp : p ∈ unfinished n (f ::ₘ others) q) :
    p ∈ unfinished (code t c f n).1 ((code t c f n).2 + others) q ∨ f = .workerFinished p q := by
  obtain ⟨⟨s, hw⟩, hqueue⟩ := mem_unfinished.mp hp
  have henq : enqueued n p := by
    rw [enqueued, hqueue]
    exact hq
  have hqid : (n.task p).queue.id ≠ idPoolInvalidId := by
    rw [hqueue]
    exact Nat.pos_iff_ne_zero.mp hq.1.1
  have hinit : ∀ call, f ≠ .startInit call p := by
    rintro call rfl
    have h0 := h.toWorkCounted.count_others (List.mem_singleton_self p) s
    exact absurd h0 (Nat.pos_iff_ne_zero.mp (Multiset.count_pos.mpr hw))
  have hstay : ((code t c f n).1.task p).queue = q := by
    rw [← hqueue]
    by_cases hf : p ∈ f.fresh
    · exact queue_exec_of_fresh hf
        (fun hm => hqid (h.unqueued f (Multiset.mem_cons_self f others) p hm)) hinit
    · exact congrArg (fun x => x.2.2.2.1) (h.toTasksOwned.placement_exec hg.deletes
        (mem_references_of_mem_work hw) hf)
  have hin : ∀ s', (s', p) ∈ work (code t c f n).1 ((code t c f n).2 + others) →
      p ∈ unfinished (code t c f n).1 ((code t c f n).2 + others) q := fun s' hs' =>
    mem_unfinished.mpr ⟨⟨s', hs'⟩, hstay⟩
  cases s with
  | waiting =>
    rcases h.toWorkCounted.after_waiting henq
      (fun hp => hg.loses _ hp henq) hw with hs' | hs' | ⟨lq, hf, h1⟩
    · exact Or.inl (hin _ hs')
    · exact Or.inl (hin _ hs')
    · rcases hg.cancelled p lq hf with hc | hc
      · exact absurd h1 hc
      · exact absurd henq hc
  | finishing =>
    rcases h.toWorkCounted.after_finishing hw with hs' | ⟨ctx, rfl, htell⟩
    · exact Or.inl (hin _ hs')
    · -- only a worker of the main loop that has looked up the queue goes on to tell it
      left
      have hself := Multiset.mem_cons_self f others
      cases hby : ctx.by' with
      | helper => exact absurd henq (hg.helped ctx hby (htell))
      | worker lq =>
        have hloc : (ctx.task, lq) ∈ f.localQueue := by
          rcases htell with ⟨rfl, -⟩ | ⟨g, rfl⟩ <;>
            simp only [Frame.localQueue, Context.localQueue, hby, List.mem_singleton]
        cases lq with
        | none => exact absurd henq ((h.looked f hself ctx.task none hloc).2 rfl)
        | some r =>
          refine hin .notifying (h.toWorkCounted.mem_begins ?_ ?_)
          · rcases htell with ⟨rfl, hv⟩ | ⟨g, rfl⟩
            · simp only [Frame.beginsWork, hv, Bool.false_eq_true, ↓reduceIte, Context.notifies,
                hby, List.mem_singleton]
            · simp only [Frame.beginsWork, Context.notifies, hby, List.mem_singleton]
          · rcases htell with ⟨rfl, hv⟩ | ⟨g, rfl⟩
            · simp only [Frame.endsWork, hv, Bool.false_eq_true, ↓reduceIte, List.mem_singleton,
                Prod.mk.injEq, reduceCtorEq, false_and, not_false_eq_true]
            · simp only [Frame.endsWork, List.mem_singleton, Prod.mk.injEq, reduceCtorEq,
                false_and, not_false_eq_true]
  | notifying =>
    rcases h.toWorkCounted.after_notifying hw with hs' | ⟨r, rfl⟩
    · exact Or.inl (hin _ hs')
    · have hr := (h.looked _ (Multiset.mem_cons_self _ others) p (some r)
        (List.mem_singleton_self _)).1 r rfl
      rw [← hqueue, hr]
      exact Or.inr rfl

/-- The start call that counts a task adds it to the unfinished ones. -/
theorem QueuesCounted.unfinished_started {call : StartCall} {p : Ptr}
    (hf : f = .startQueueCount call p) (h : QueuesCounted n (f ::ₘ others))
    (hg : CountsTasks t c f n (f ::ₘ others)) (hq : n.QueueExists call.queue) :
    ((unfinished (code t c f n).1 ((code t c f n).2 + others) call.queue).card : Int) =
      (unfinished n (f ::ₘ others) call.queue).card + 1 := by
  have hself := Multiset.mem_cons_self f others
  have hqid := Nat.pos_iff_ne_zero.mp hq.1.1
  have hnew : p ∉ unfinished n (f ::ₘ others) call.queue := by
    intro hm
    have hu := h.unqueued f hself p (by rw [hf]; exact List.mem_singleton_self p)
    rw [(mem_unfinished.mp hm).2] at hu
    exact hqid hu
  have hin : p ∈ unfinished (code t c f n).1 ((code t c f n).2 + others) call.queue := by
    refine mem_unfinished.mpr ⟨⟨.waiting, ?_⟩, ?_⟩
    · rw [work_add, hf]
      exact Multiset.mem_add.mpr (Or.inl (List.mem_append_left _
        (List.mem_replicate.mpr ⟨hg.instances call p hf hq, rfl⟩)))
    · rw [hf]
      simp only [code, exec, Node.access, Node.startQueue, Node.queueTaskStarted,
        Node.addQueueTasks, Node.task, Node.modifyQueue_taskPool, Node.modifyTask_taskPool,
        Pool.storage_modify_self]
  have he : unfinished (code t c f n).1 ((code t c f n).2 + others) call.queue =
      insert p (unfinished n (f ::ₘ others) call.queue) := by
    ext p'
    rw [Finset.mem_insert]
    constructor
    · intro hp'
      rcases h.unfinished_before hqid hp' with hp' | ⟨call', -, hf'⟩
      · exact Or.inr hp'
      · rw [hf] at hf'
        cases hf'
        exact Or.inl rfl
    · rintro (rfl | hp')
      · exact hin
      · refine (h.unfinished_after hg hq hp').resolve_right fun hf' => ?_
        rw [hf] at hf'
        cases hf'
  rw [he, Finset.card_insert_of_notMem hnew, Nat.cast_add, Nat.cast_one]

/-- Once its queue has been told, a task is not unfinished. -/
theorem WorkCounted.not_unfinished_told {I : Node → Ptr → Prop} {p q : Ptr}
    (hf : f = .workerFinished p q) (h : WorkCounted I n (f ::ₘ others)) :
    p ∉ unfinished (code t c f n).1 ((code t c f n).2 + others) q := by
  have hmem : (.notifying, p) ∈ work n (f ::ₘ others) := by
    rw [work_cons, hf]
    exact Multiset.mem_add.mpr (Or.inl (List.mem_singleton_self _))
  intro hm
  obtain ⟨⟨s, hs⟩, -⟩ := mem_unfinished.mp hm
  have hpos := Multiset.count_pos.mpr hs
  have hone := (h.tally p).once
  have hlast := (h.tally p).last
  have hb := h.balance (t := t) (c := c) (s, p)
  have hbn := h.balance (t := t) (c := c) (.notifying, p)
  have hn0 := Multiset.count_pos.mpr hmem
  rw [hf] at hb hbn
  simp only [Frame.beginsWork, Frame.endsWork, Multiset.coe_nil, Multiset.count_zero, add_zero,
    Multiset.coe_singleton, Multiset.count_singleton, Prod.mk.injEq, and_true] at hb hbn
  rw [← hf] at hb hbn
  rw [telling] at hone hlast
  rw [waiting] at hlast
  cases s with
  | waiting =>
    simp only [reduceCtorEq, ↓reduceIte] at hb
    omega
  | finishing =>
    simp only [reduceCtorEq, ↓reduceIte] at hb
    omega
  | notifying =>
    simp only [↓reduceIte] at hb
    omega

/-- A task whose queue is about to be told is unfinished. -/
theorem mem_unfinished_told {p q : Ptr} (hf : f = .workerFinished p q)
    (hq : (n.task p).queue = q) : p ∈ unfinished n (f ::ₘ others) q := by
  refine mem_unfinished.mpr ⟨⟨.notifying, ?_⟩, hq⟩
  rw [work_cons, hf]
  exact Multiset.mem_add.mpr (Or.inl (List.mem_singleton_self _))

/-- The worker that tells the queue of a task removes it from the unfinished ones. -/
theorem QueuesCounted.unfinished_told {p q : Ptr} (hf : f = .workerFinished p q)
    (h : QueuesCounted n (f ::ₘ others)) (hg : CountsTasks t c f n (f ::ₘ others))
    (hq : n.QueueExists q) :
    ((unfinished (code t c f n).1 ((code t c f n).2 + others) q).card : Int) =
      (unfinished n (f ::ₘ others) q).card - 1 := by
  have hold : p ∈ unfinished n (f ::ₘ others) q :=
    mem_unfinished_told hf ((h.looked f (Multiset.mem_cons_self f others) p (some q)
      (by rw [hf]; exact List.mem_singleton_self _)).1 q rfl)
  have hgone := h.toWorkCounted.not_unfinished_told (t := t) (c := c) hf
  have he : unfinished n (f ::ₘ others) q =
      insert p (unfinished (code t c f n).1 ((code t c f n).2 + others) q) := by
    ext p'
    rw [Finset.mem_insert]
    constructor
    · intro hp'
      rcases h.unfinished_after hg hq hp' with hp' | hf'
      · exact Or.inr hp'
      · rw [hf] at hf'
        cases hf'
        exact Or.inl rfl
    · rintro (rfl | hp')
      · exact hold
      · refine (h.unfinished_before (Nat.pos_iff_ne_zero.mp hq.1.1) hp').resolve_right ?_
        rintro ⟨call, -, hf'⟩
        rw [hf] at hf'
        cases hf'
  rw [he, Finset.card_insert_of_notMem hgone]
  omega

theorem QueuesCounted.counted_exec (h : QueuesCounted n (f ::ₘ others))
    (hg : CountsTasks t c f n (f ::ₘ others)) {q : Ptr} (hq : (code t c f n).1.QueueExists q) :
    ((code t c f n).1.queue q).numTasks =
      (unfinished (code t c f n).1 ((code t c f n).2 + others) q).card := by
  have hqid := Nat.pos_iff_ne_zero.mp hq.1.1
  have hi := exec_issuedBy t c f n
  rcases Node.queueExists_access h.toQueuesOwned hq with
    ⟨hold, hnum, -⟩ | ⟨hnew, hzero, ⟨_, _, _, hu⟩, -⟩
  · have hcount := h.counted q hold
    have hnum' : ((code t c f n).1.queue q).numTasks =
        (n.queue q).numTasks + Node.queueDelta (exec t c f n).1 q := hnum
    by_cases hs : ∃ call p, call.queue = q ∧ f = .startQueueCount call p
    · obtain ⟨call, p, rfl, hf⟩ := hs
      rw [hnum', h.unfinished_started hf hg hold, hcount, hf]
      simp only [exec, Node.queueDelta, ↓reduceIte]
    by_cases hw : ∃ p, f = .workerFinished p q
    · obtain ⟨p, hf⟩ := hw
      rw [hnum', h.unfinished_told hf hg hold, hcount, hf]
      simp only [exec, Node.queueDelta, ↓reduceIte]
      rfl
    · have he : unfinished (code t c f n).1 ((code t c f n).2 + others) q =
          unfinished n (f ::ₘ others) q := by
        ext p
        refine ⟨fun hp => ?_, fun hp => ?_⟩
        · exact (h.unfinished_before hqid hp).resolve_right fun he =>
            he.elim fun call hf => hs ⟨call, p, hf⟩
        · exact (h.unfinished_after hg hold hp).resolve_right fun hf => hw ⟨p, hf⟩
      have hd : Node.queueDelta (exec t c f n).1 q = 0 := by
        unfold Node.queueDelta
        split
        · rename_i p r hu
          rw [hu] at hi
          obtain ⟨call, rfl, hf⟩ := hi
          refine if_neg fun hid => hs ⟨call, p, ?_, hf⟩
          exact ((hg.reaches call.queue (by rw [hf]; exact List.mem_singleton_self _)).2 q hold
            hid.symm).symm
        · rename_i r d hu
          rw [hu] at hi
          obtain ⟨p, -, hf⟩ := hi
          refine if_neg fun hid => hw ⟨p, ?_⟩
          rw [(hg.reaches r (by rw [hf]; exact List.mem_singleton_self _)).2 q hold hid.symm]
          exact hf
        · rfl
      rw [hnum', he, hcount, hd, add_zero]
  · rw [h.unfinished_created h.toQueuesOwned hqid hu hnew, Finset.card_empty]
    exact hzero

theorem queuesCounted_preserved : Preserves code CountsTasks QueuesCounted := by
  intro t c f n others h hg
  exact ⟨h.workCounted hg, hg.queuesOwned h.toQueuesOwned, h.looked_exec hg, h.unqueued_exec hg,
    fun q hq => h.counted_exec hg hq⟩

end Preservation

theorem queuesCounted_boot (attributes : NodeAttributes) (mode : SchedulerMode) (clients : Nat) :
    QueuesCounted (boot attributes mode clients).mem (boot attributes mode clients).frames where
  toWorkCounted := workCounted_boot enqueued attributes mode clients
  queueSound := Pool.sound_init _ _
  queueFree := fun _ _ => rfl
  queueIssued := fun _ => Or.inl rfl
  looked := by
    intro f hf p lq hp
    have hm := mem_references_of_mem (n := (boot attributes mode clients).mem) hf
      (Frame.mem_refs_of_mem_localQueue hp).1
    rw [references_boot] at hm
    exact absurd hm (Multiset.notMem_zero p)
  unqueued := fun _ _ _ _ => rfl
  counted := by
    intro q hq
    exact absurd rfl hq.2

/-- In every run that keeps to the guard, the counter of a queue that exists is the
number of its unfinished tasks. Once none is left, the waiting loops of
`mtapi_queue_delete` and `mtapi_queue_disable` leave. -/
theorem queue_num_tasks (attributes : NodeAttributes) (mode : SchedulerMode) (clients : Nat)
    (es : List (Nat × Choice))
    (hg : Always code CountsTasks (boot attributes mode clients) es) (q : Ptr)
    (hq : (run code (boot attributes mode clients) es).mem.QueueExists q) :
    ((run code (boot attributes mode clients) es).mem.queue q).numTasks =
        (unfinished (run code (boot attributes mode clients) es).mem
          (run code (boot attributes mode clients) es).frames q).card ∧
      (unfinished (run code (boot attributes mode clients) es).mem
          (run code (boot attributes mode clients) es).frames q = ∅ →
        ∀ t c finite,
          (exec t c (.queueDeleteLoop q finite)
            (run code (boot attributes mode clients) es).mem).2 = [.queueFinalize q .success] ∧
          (exec t c (.queueDisableLoop q finite)
            (run code (boot attributes mode clients) es).mem).2 =
              [.ret .success Handle.invalid]) := by
  have hinv := queuesCounted_preserved.run hg (queuesCounted_boot attributes mode clients)
  have hc := hinv.counted q hq
  refine ⟨hc, fun hn t c finite => ?_⟩
  rw [hn, Finset.card_empty, Nat.cast_zero] at hc
  simp only [exec, hc, ↓reduceIte, and_self]

/-- A test that is enough for the guard: no slot is deleted, no instance dropped, and
nothing executed by a worker that helps out. -/
def enqueueTest (_ : Nat) (_ : Choice) (f : Frame) (n : Node) : Bool :=
  match f with
  | .taskDelete .. | .taskDeallocate .. | .queueDeallocate .. | .workerCancelledTodo .. => false
  | .executeGroup ctx | .executeGroupPush ctx _ => decide (ctx.by' ≠ .helper)
  | .startQueueCount call _ =>
    decide (n.queuePool.Live call.queue ∧ call.attributes.numInstances ≠ 0)
  | .workerFinished _ q => decide (n.queuePool.Live q)
  | f => (f.loses n).isEmpty

theorem countsTasks_of_test (t : Nat) (c : Choice) (f : Frame) (n : Node) (fs : Multiset Frame)
    (h : enqueueTest t c f n = true) : CountsTasks t c f n fs where
  deletes := by rintro p caller (rfl | rfl) <;> cases h
  wraps := by
    rintro q status rfl
    cases h
  reaches := by
    intro q hq
    have hlive : n.queuePool.Live q := by
      unfold Frame.countsQueue at hq
      split at hq
      · rw [List.mem_singleton.mp hq]
        exact (of_decide_eq_true h).1
      · rw [List.mem_singleton.mp hq]
        exact of_decide_eq_true h
      · exact absurd hq List.not_mem_nil
    exact ⟨Or.inr (Or.inr hlive), fun q' hq' hid => hq'.1.eq_of_id hlive hid⟩
  instances := by
    rintro call p rfl -
    exact (of_decide_eq_true h).2
  loses := by
    intro p hp
    unfold enqueueTest at h
    split at h
    all_goals first
      | cases h
      | exact absurd hp List.not_mem_nil
      | rw [List.isEmpty_iff.mp h] at hp
        exact absurd hp List.not_mem_nil
  cancelled := by
    rintro p lq rfl
    cases h
  helped := by
    rintro ctx hby (⟨rfl, -⟩ | ⟨g, rfl⟩)
    · exact absurd hby (of_decide_eq_true h)
    · exact absurd hby (of_decide_eq_true h)

/-- A task is enqueued and reaches its action function in the worker main loop. -/
def enqueueAndExecute : List (Nat × Choice) :=
  calls 1 (.actionCreate 1 none) 4 ++ calls 1 (.queueCreate 0 ⟨0, 1⟩ none) 3 ++
    calls 1 (.taskEnqueue ⟨0, 1⟩ none Handle.invalid) 20 ++ goes 0 8

/-- While the action function runs, the task is counted. -/
theorem queue_num_tasks_running :
    ((run code (boot (smallNode 1) .workStealVhpf 1) enqueueAndExecute).mem.queue
        ⟨0, 1⟩).numTasks =
      (unfinished (run code (boot (smallNode 1) .workStealVhpf 1) enqueueAndExecute).mem
        (run code (boot (smallNode 1) .workStealVhpf 1) enqueueAndExecute).frames ⟨0, 1⟩).card :=
  (queue_num_tasks (smallNode 1) .workStealVhpf 1 enqueueAndExecute
    (Always.of_checked countsTasks_of_test (by decide)) ⟨0, 1⟩ (by decide)).1

/-- An action function enqueues a task and waits for it, so its worker executes the task
while it waits. -/
def enqueueAndHelp : List (Nat × Choice) :=
  calls 1 (.actionCreate 1 none) 4 ++ calls 1 (.queueCreate 0 ⟨0, 1⟩ none) 3 ++
    calls 1 (.taskStart ⟨0, 1⟩ none Handle.invalid) 18 ++ goes 0 9 ++
    calls 0 (.taskEnqueue ⟨0, 1⟩ none Handle.invalid) 20 ++
    calls 0 (.taskWait ⟨0, 2⟩ false) 9 ++ [(0, .leave)] ++ goes 0 4

/-- A client that waits without a timeout goes on as long as the counter is not zero. -/
theorem queueDeleteLoop_waits {n : Node} {q : Ptr} (h : (n.queue q).numTasks ≠ 0) {t : Nat}
    (ht : ¬ t < n.workerCount) (c : Choice) :
    exec t c (.queueDeleteLoop q false) n = (.read, [.queueDeleteLoop q false]) := by
  simp only [exec, if_neg h, Bool.false_eq_true, false_and, ↓reduceIte, Node.executeTaskOrYield,
    if_neg ht]

/-- The queue is not told: nothing of it is left, and the waiting loop of
`mtapi_queue_delete` goes on. -/
theorem queue_num_tasks_helped :
    (run code (boot (smallNode 1) .workStealVhpf 1) enqueueAndHelp).mem.QueueExists ⟨0, 1⟩ ∧
      ((run code (boot (smallNode 1) .workStealVhpf 1) enqueueAndHelp).mem.task ⟨0, 2⟩).state =
        .completed ∧
      ((run code (boot (smallNode 1) .workStealVhpf 1) enqueueAndHelp).mem.queue
        ⟨0, 1⟩).numTasks = 1 ∧
      (unfinished (run code (boot (smallNode 1) .workStealVhpf 1) enqueueAndHelp).mem
        (run code (boot (smallNode 1) .workStealVhpf 1) enqueueAndHelp).frames ⟨0, 1⟩).card = 0 ∧
      exec 1 .go (.queueDeleteLoop ⟨0, 1⟩ false)
        (run code (boot (smallNode 1) .workStealVhpf 1) enqueueAndHelp).mem =
          (.read, [.queueDeleteLoop ⟨0, 1⟩ false]) := by
  refine ⟨by decide +kernel, by decide +kernel, by decide +kernel, by decide +kernel,
    queueDeleteLoop_waits ?_ ?_ _⟩
  · decide +kernel
  · decide +kernel

end Embb.Mtapi
