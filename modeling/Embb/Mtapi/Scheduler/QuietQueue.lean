import Embb.Mtapi.QueueProcess
import Embb.Mtapi.Scheduler.Queues
import Embb.Mtapi.Scheduler.Locks
import Embb.Mtapi.Scheduler.Instances

/-!
# Retaining queues

A retaining queue keeps its tasks in the worker queues while it is disabled. The workers pass them
round: they take one, find it retained, and push it again. No task is executed as long as the
traversals reach all tasks and nobody goes past the state of a task.
-/

namespace Embb.Mtapi

open Threads

/-- What the calls on a queue have come to. -/
inductive QueuePhase where
  | active
  | disabling
  | disabled
  | enabling
  deriving DecidableEq, Repr

/-- A phase begins where the flag of the queue is written, and where a traversal returns. -/
def QueuePhase.record (q : Ptr) (_ : Nat) (_ : Choice) (f : Frame) (_ : Node) (l : QueuePhase) :
    QueuePhase :=
  match f with
  | .queueDisableStore q' _ => if q' = q then .disabling else l
  | .queueEnableStore q' => if q' = q then .enabling else l
  | .processDone (.queueDisable q') _ => if q' = q then .disabled else l
  | .processDone (.queueEnable q') _ => if q' = q then .active else l
  | _ => l

/-- The state that the visitors of a retaining queue give to its tasks. -/
def Visitor.marks (q : Ptr) : Visitor → Option TaskState
  | .queueDisable q' => if q' = q then some .retained else none
  | .queueEnable q' => if q' = q then some .scheduled else none
  | _ => none

/-- The write to the flag of the queue. -/
def Frame.stores (q : Ptr) : Frame → Bool
  | .queueDisableStore q' _ | .queueEnableStore q' => q' = q
  | _ => false

/-- The program points on the way of a retained task from one worker queue to another. -/
def Frame.circulates : Frame → Bool
  | .workerQueue _ | .workerSwitch _ _ => true
  | .schedule _ _ caller | .scheduleAffinity _ _ _ caller | .scheduleCount _ _ _ _ caller
  | .scheduleAffine _ _ _ caller | .scheduleSearch _ _ _ _ caller
  | .schedulePush _ _ _ _ caller | .scheduleUndo _ _ caller => caller = .retained
  | _ => false

/-- The task that a thread begins to execute. -/
def Frame.begins : Frame → List Ptr
  | .workerContext p _ | .helperContext p => [p]
  | _ => []

/-- The tasks that a traversal has not reached. -/
def Progress.todo (n : Node) (x : Progress) : List Ptr :=
  (match x.current with
    | some (r, ii) => (n.workerQueue r).tasks.drop ii
    | none => []) ++ x.rest.flatMap fun r => (n.workerQueue r).tasks

section Steps

variable {t : Nat} {c : Choice} {f g : Frame} {n : Node} {p : Ptr}

/-- Where the instances in hand come from. -/
theorem exec_waiting (ha : ∀ call q kk was, f = .startInstances call q kk was →
      (n.task q).attributes = call.attributes)
    (hg : g ∈ (exec t c f n).2) (hp : (.waiting, p) ∈ g.work) :
    (.waiting, p) ∈ f.work ∨ (∃ call, f = .startInit call p) ∨
      ∃ r rest, (exec t c f n).1 = .pop r ∧ (n.workerQueue r).pop.2 = some p ∧
        (f = .workerScan (r :: rest) ∧ g = .workerQueue p ∨
          f = .helperScan (r :: rest) ∧ g = .helperContext p) := by
  have hm : (.waiting, p) ∈ (exec t c f n).2.flatMap Frame.work :=
    List.mem_flatMap.mpr ⟨g, hg, hp⟩
  by_cases hf : f.movesWork = false
  · rw [exec_work_of_keeps t c n hf] at hm
    exact Or.inl hm
  · have hrest : ∀ {caller : ScheduleCaller} {q : Ptr}, (Stage.waiting, p) ∈ caller.rest q →
        (.waiting, p) ∈ (Stage.waiting, q) :: caller.rest q := fun h => List.mem_cons_of_mem _ h
    have hnotifies : ∀ {ctx : Context}, (Stage.waiting, p) ∉ ctx.notifies := by
      intro ctx hm
      rcases ctx.notifies_cases with he | he
      · exact absurd (he ▸ hm) List.not_mem_nil
      · cases List.mem_singleton.mp (he ▸ hm)
    obtain ⟨r, rest, rfl⟩ | ⟨r, rest, rfl⟩ | ⟨q, ii, isPrivate, a, caller, rfl⟩ | ⟨q, lq, rfl⟩ |
      ⟨q, lq, rfl⟩ | ⟨q, lq, rfl⟩ | ⟨ctx, todo, rfl⟩ | ⟨ctx, a, rfl⟩ | ⟨ctx, rfl⟩ |
      ⟨ctx, a, rfl⟩ | ⟨q, ii, caller, rfl⟩ | ⟨q, a, caller, rfl⟩ | ⟨call, q, rfl⟩ |
      ⟨call, q, i, rfl⟩ | ⟨call, q, kk, was, rfl⟩ := Frame.movesWork_cases hf
    · rcases (exec_scan t c r rest n).1 with he | ⟨q, hq, he⟩
      · rw [he] at hm
        exact absurd hm List.not_mem_nil
      · rw [he] at hm hg ⊢
        cases List.mem_singleton.mp hm
        exact Or.inr (Or.inr ⟨r, rest, rfl, hq, Or.inl ⟨rfl, List.mem_singleton.mp hg⟩⟩)
    · rcases (exec_scan t c r rest n).2 with he | ⟨q, hq, he⟩
      · rw [he] at hm
        exact absurd hm List.not_mem_nil
      · rw [he] at hm hg ⊢
        cases List.mem_singleton.mp hm
        exact Or.inr (Or.inr ⟨r, rest, rfl, hq, Or.inr ⟨rfl, List.mem_singleton.mp hg⟩⟩)
    · left
      simp only [exec] at hm
      split at hm
      · rw [List.flatMap_cons, List.flatMap_nil, List.append_nil] at hm
        exact hm
      · split at hm
        · rw [work_scheduleResume] at hm
          exact hrest hm
        · rw [List.flatMap_cons, List.flatMap_nil, List.append_nil] at hm
          exact hm
    · left
      simp only [exec] at hm
      split at hm
      · exact hm
      · exact hm
      · exact hm
      · exact hm
      · exact absurd hm List.not_mem_nil
    · cases lq with
      | none => exact absurd hm List.not_mem_nil
      | some q' =>
        simp only [exec] at hm
        split at hm
        · cases List.mem_singleton.mp hm
        · exact absurd hm List.not_mem_nil
    · exact absurd hm List.not_mem_nil
    · left
      simp only [exec] at hm
      split at hm
      · exact hm
      · simp only [List.flatMap_cons, List.flatMap_nil, List.append_nil, Frame.work] at hm
        split at hm
        · cases List.mem_singleton.mp hm
        · exact absurd hm List.not_mem_nil
    · simp only [exec] at hm
      split at hm
      · cases List.mem_singleton.mp hm
      · rename_i hne
        simp only [List.flatMap_cons, List.flatMap_nil, List.append_nil, Frame.work,
          if_neg hne] at hm
        exact absurd hm List.not_mem_nil
    · simp only [exec] at hm
      split at hm
      · cases List.mem_singleton.mp hm
      · rw [work_contextResume_true] at hm
        exact absurd hm hnotifies
    · simp only [exec] at hm
      rw [work_contextResume_true] at hm
      exact absurd hm hnotifies
    · left
      simp only [exec] at hm
      split at hm
      · rw [List.flatMap_cons, List.flatMap_nil, List.append_nil] at hm
        exact hm
      · rw [work_scheduleResume] at hm
        exact hrest hm
    · left
      simp only [exec] at hm
      rw [work_scheduleResume] at hm
      exact hrest hm
    · rw [exec, List.flatMap_cons, List.flatMap_nil, List.append_nil] at hm
      cases (Prod.mk.inj (List.mem_replicate.mp hm).2).2
      exact Or.inr (Or.inl ⟨call, rfl⟩)
    · left
      simp only [exec] at hm
      split at hm
      · split at hm
        · rw [List.flatMap_cons, List.flatMap_nil, List.append_nil] at hm
          exact hm
        · exact absurd hm List.not_mem_nil
      · exact absurd hm List.not_mem_nil
    · left
      have hattributes := ha call q kk was rfl
      simp only [exec] at hm
      split at hm
      · rename_i hlt
        rw [List.flatMap_cons, List.flatMap_nil, List.append_nil] at hm
        have hq : (Stage.waiting, p) = (.waiting, q) := by
          rcases List.mem_cons.mp hm with hm | hm
          · exact hm
          · exact (List.mem_replicate.mp hm).2
        rw [hattributes] at hlt
        exact List.mem_replicate.mpr ⟨Nat.sub_ne_zero_of_lt hlt, hq⟩
      · split at hm
        · exact absurd hm List.not_mem_nil
        · exact absurd hm List.not_mem_nil

/-- A retained task is passed on. -/
theorem exec_circulates (hf : f.circulates = true) (hg : g ∈ (exec t c f n).2)
    (hp : (.waiting, p) ∈ g.work) (hs : (n.task p).state = .retained) :
    g.circulates = true := by
  cases f with
  | workerQueue q =>
    simp only [exec] at hg
    split at hg
    · cases List.mem_singleton.mp hg
      rfl
    · cases List.mem_singleton.mp hg
      rfl
  | workerSwitch q lq =>
    have hq : q = p := by
      simp only [exec] at hg
      split at hg
      all_goals
        cases List.mem_singleton.mp hg
        first
          | exact (Prod.mk.inj (List.mem_singleton.mp hp)).2.symm
          | exact absurd hp List.not_mem_nil
    subst hq
    simp only [exec, hs] at hg
    cases List.mem_singleton.mp hg
    rfl
  | schedule q ii caller =>
    cases of_decide_eq_true hf
    simp only [exec] at hg
    split at hg
    · cases List.mem_singleton.mp hg
      rfl
    · cases List.mem_singleton.mp hg
      exact absurd hp List.not_mem_nil
  | scheduleUndo q a caller =>
    cases of_decide_eq_true hf
    cases List.mem_singleton.mp hg
    exact absurd hp List.not_mem_nil
  | scheduleAffinity q ii a caller | scheduleAffine q a affinity caller =>
    cases of_decide_eq_true hf
    cases List.mem_singleton.mp hg
    rfl
  | scheduleCount q ii a affinity caller | scheduleSearch q ii a affinity caller =>
    cases of_decide_eq_true hf
    simp only [exec] at hg
    split at hg
    · cases List.mem_singleton.mp hg
      rfl
    · cases List.mem_singleton.mp hg
      rfl
  | schedulePush q ii isPrivate a caller =>
    cases of_decide_eq_true hf
    simp only [exec] at hg
    split at hg
    · cases List.mem_singleton.mp hg
      rfl
    · split at hg
      · cases List.mem_singleton.mp hg
        exact absurd hp List.not_mem_nil
      · cases List.mem_singleton.mp hg
        rfl
  | _ => cases hf

end Steps

/-- What is known while a retaining queue is disabled and enabled: a traversal has marked the tasks
that it has reached, in a disabled queue all tasks are retained and only passed on, and in an active
queue none is left retained. -/
structure QuietQueue (q : Ptr) (n : Node) (l : QueuePhase) (fs : Multiset Frame) : Prop
    extends WorkCounted (fun _ _ => False) n fs where
  locked : Locked n fs
  once : (traversals fs).countP (fun x => (x.visitor.marks q).isSome) ≤ 1
  phase : ∀ x ∈ traversals fs, ∀ s, x.visitor.marks q = some s →
    s = .retained ∧ l = .disabling ∨ s = .scheduled ∧ l = .enabling
  aligned : ∀ x ∈ traversals fs, (x.visitor.marks q).isSome = true → ∀ r ii,
    x.current = some (r, ii) → (n.workerQueue r).getTaskPosition = 0
  visited : ∀ v p r ii rest finite, .processState v p r ii rest finite ∈ fs →
    (v.marks q).isSome = true → (n.workerQueue r).tasks[ii]? = some p
  marked : ∀ x ∈ traversals fs, ∀ s, x.visitor.marks q = some s → ∀ p ∈ n.queued,
    (n.task p).queue = q → (n.task p).state = s ∨ p ∈ x.todo n
  circulating : l ≠ .active → ∀ g ∈ fs, ∀ p, (.waiting, p) ∈ g.work → (n.task p).queue = q →
    l = .disabled ∧ g.circulates = true
  retained : l = .disabled → ∀ p, 0 < waiting n fs p → (n.task p).queue = q →
    (n.task p).state = .retained
  again : l = .active → ∀ p, 0 < waiting n fs p → (n.task p).queue = q →
    (n.task p).state = .retained → ∃ g ∈ fs, p ∈ g.unready

/-- The steps under which a retaining queue stays quiet. -/
structure KeepsQueue (q : Ptr) (t : Nat) (c : Choice) (f : Frame) (n : Node) (l : QueuePhase)
    (fs : Multiset Frame) : Prop where
  deletes : deletesUnreferenced t c f n fs
  /-- The calls on the queue come one after the other, at times when no thread has one of its
  tasks in its hands. -/
  alone : f.stores q = true → (∀ x ∈ traversals fs, x.visitor.marks q = none) ∧
    ∀ g ∈ fs, ∀ p, (.waiting, p) ∈ g.work → (n.task p).queue ≠ q
  /-- Nothing is enqueued unless the queue is enabled. -/
  enqueues : ∀ call p, f = .startQueueCount call p → call.queue = q → l = .active
  /-- Nobody takes a task from a worker queue during a traversal, and no waiting thread does so
  while the queue is disabled. -/
  takes : ∀ r p, (exec t c f n).1 = .pop r → (n.workerQueue r).pop.2 = some p →
    (n.task p).queue = q → l = .active ∨ l = .disabled ∧ ∃ rest, f = .workerScan (r :: rest)
  retains : ∀ x ∈ f.traversal, (x.visitor.marks q).isSome = true →
    (n.queue q).attributes.retain = true
  /-- A traversal does not meet a foreign task. -/
  front : ∀ v r ii rest finite p, f = .processQueue v r ii rest finite →
    (v.marks q).isSome = true → (n.workerQueue r).taskBuffer ii = some p → n.visits p v = true
  /-- The worker queues that it visits begin at the start of their buffers. -/
  aligned : ∀ v r rest finite, f = .processTasks v (r :: rest) finite →
    (v.marks q).isSome = true → (n.workerQueue r).getTaskPosition = 0
  /-- The tasks of the queue are not cancelled, their actions stay, and no other visitor changes
  their states. -/
  undisturbed : ∀ id, f.disturbs = some id → (n.taskPool.storage id).queue = q →
    ∃ v p r ii rest finite, f = .processState v p r ii rest finite ∧ (v.marks q).isSome = true
  loses : ∀ p ∈ f.loses n, (n.task p).queue = q → ∃ lq, f = .workerSwitch p lq

namespace QuietQueue

variable {q : Ptr} {t : Nat} {c : Choice} {f : Frame} {n : Node} {l : QueuePhase}
  {others : Multiset Frame} {p : Ptr}

/-- The state that a visitor of a retaining queue gives to a task. -/
theorem visitorState_of_marks {v : Visitor} {s : TaskState} (hm : v.marks q = some s)
    (hretain : (n.queue q).attributes.retain = true) : (n.visitorState v).1 = s := by
  cases v with
  | queueDisable q' =>
    simp only [Visitor.marks] at hm
    split at hm
    · rename_i hq'
      rw [hq'] at *
      simp only [Node.visitorState, hretain, ↓reduceIte]
      exact Option.some.inj hm
    · cases hm
  | queueEnable q' =>
    simp only [Visitor.marks] at hm
    split at hm
    · exact Option.some.inj hm
    · cases hm
  | _ => cases hm

theorem exec_visitor {v : Visitor} {r : QueueRef} {ii : Nat} {rest : List QueueRef}
    {finite : Bool} : (exec t c (.processState v p r ii rest finite) n).1 =
      .taskState p (n.visitorState v).1 := by
  simp only [exec]
  split <;> rfl

/-- A task of the queue was one before, unless its start call has just assigned it. -/
theorem queue_before (hq : q.id ≠ idPoolInvalidId)
    (hp : ((code t c f n).1.task p).queue = q) :
    (n.task p).queue = q ∨ ∃ call p', p'.id = p.id ∧ call.queue = q ∧
      f = .startQueueCount call p' := by
  have hissued := exec_issuedBy t c f n
  rcases n.taskQueueField_access (exec t c f n).1 p.id with he | he | ⟨p', hid, he⟩
  · exact Or.inl (he.symm.trans hp)
  · refine absurd ?_ hq
    rw [← hp]
    exact he
  · rw [he] at hissued
    obtain ⟨call, hcall, hf⟩ := hissued
    exact Or.inr ⟨call, p', hid, hcall.trans hp, hf⟩

/-- An instance of a task of the queue was waiting before. -/
theorem waiting_before (h : QuietQueue q n l (f ::ₘ others)) (hq : q.id ≠ idPoolInvalidId)
    (hp : ((code t c f n).1.task p).queue = q)
    (hw : 0 < waiting (code t c f n).1 ((code t c f n).2 + others) p) :
    0 < waiting n (f ::ₘ others) p := by
  have hbal := h.toWorkCounted.waiting_exec (t := t) (c := c) p
  have hbegins : Multiset.count (Stage.waiting, p) (f.beginsWork n) = 0 := by
    rw [Multiset.count_eq_zero]
    by_cases hr : f.resets p = true
    · cases f with
      | startInit call p' =>
        have hid : p'.id = p.id := of_decide_eq_true hr
        refine absurd ?_ hq
        rw [← hp, code, exec, Node.task, ← hid, Node.access, Node.modifyTask_taskPool,
          Pool.storage_modify_self]
        rfl
      | taskDelete | taskDeallocate => exact List.not_mem_nil
      | _ => cases hr
    · exact InstancesCounted.not_begins (Bool.eq_false_iff.mpr hr)
  omega

/-- What a step does to the state of a task of the queue that waits. -/
theorem state_exec (h : QuietQueue q n l (f ::ₘ others))
    (hg : KeepsQueue q t c f n l (f ::ₘ others)) (hw : 0 < waiting n (f ::ₘ others) p)
    (hp : (n.task p).queue = q) :
    ((code t c f n).1.task p).state = (n.task p).state ∨
      ((.waiting, p) ∈ f.work ∧ f.circulates = false ∧
        ((code t c f n).1.task p).state ≠ .retained) ∨
      ∃ x ∈ f.traversal, x.visitor.marks q = some ((code t c f n).1.task p).state := by
  have hissued := exec_issuedBy t c f n
  have hmem : p ∈ references n (f ::ₘ others) :=
    mem_references_of_mem_work (Multiset.count_pos.mp hw)
  have hself : ∀ {p' : Ptr}, p' ∈ f.refs → p'.id = p.id → p' = p := fun hm hid =>
    (h.live _ (mem_references_of_mem (Multiset.mem_cons_self f others) hm)).eq_of_id
      (h.live p hmem) hid
  have hquiet : ∀ {p' : Ptr}, p'.id = p.id → f.disturbs = some p'.id → f.visiting = true := by
    intro p' hid hd
    obtain ⟨v, p'', r, ii, rest, finite, rfl, -⟩ := hg.undisturbed _ hd (by rw [hid]; exact hp)
    rfl
  by_cases hwrites : (exec t c f n).1.writesState = some p.id
  · right
    cases hu : (exec t c f n).1 with
    | taskInit p' call =>
      rw [hu] at hwrites hissued
      cases hissued
      cases hself (List.mem_singleton_self _) (Option.some.inj hwrites)
      have hnone := h.count_others (List.mem_singleton_self _) .waiting
      rw [waiting, hnone] at hw
      exact absurd hw (lt_irrefl 0)
    | taskAction p' a =>
      rw [hu] at hwrites hissued
      obtain ⟨-, call, i, -, rfl⟩ := hissued
      cases hself (List.mem_singleton_self _) (Option.some.inj hwrites)
      have hnone := h.count_others (List.mem_singleton_self _) .waiting
      rw [waiting, hnone] at hw
      refine Or.inl ⟨Multiset.count_pos.mp hw, rfl, ?_⟩
      rw [code, hu]
      simp [Node.access, Node.task_modifyTask_self]
    | taskState p' s =>
      rw [hu] at hwrites hissued
      have hid : p'.id = p.id := Option.some.inj hwrites
      have hstate : ((code t c f n).1.task p).state = s := by
        rw [code, hu, Node.access, Node.setTaskState, Node.task, ← hid, Node.modifyTask_taskPool,
          Pool.storage_modify_self]
      obtain ⟨ctx, rfl, rfl, rfl⟩ | ⟨ctx, a, rfl, -, rfl⟩ | ⟨ctx, todo, rfl, -, rfl⟩ |
        ⟨call, rfl, rfl⟩ | ⟨-, rfl⟩ | ⟨-, rfl⟩ | ⟨v, r, ii, rest, finite, rfl⟩ := hissued
      · refine Or.inl ⟨?_, rfl, ?_⟩
        · rw [← hself (List.mem_singleton_self _) hid]
          exact List.mem_singleton_self _
        · rw [hstate]
          exact TaskState.noConfusion
      · have hlast := (h.tally p).last hw
        have hpos : 0 < (work n (.executeCompleted ctx a ::ₘ others)).count (.finishing, p) := by
          rw [Multiset.count_pos, work_cons, Multiset.mem_add, ← hself (List.mem_singleton_self _)
            hid]
          exact Or.inl (List.mem_singleton_self _)
        rw [telling] at hlast
        omega
      · cases hquiet hid rfl
      · cases hself (List.mem_singleton_self _) hid
        refine Or.inl ⟨List.mem_replicate.mpr ⟨?_, rfl⟩, rfl, ?_⟩
        · have hle := (h.tally _).le hw
          have hstarted := h.started _ (Multiset.mem_cons_self _ _) call _
            (List.mem_singleton_self _)
          rw [hstarted] at hle
          omega
        · rw [hstate]
          exact TaskState.noConfusion
      · cases hquiet hid rfl
      · cases hquiet hid rfl
      · right
        obtain ⟨v', p'', r', ii', rest', finite', hf, hmarks⟩ := hg.undisturbed p'.id rfl
          (by rw [hid]; exact hp)
        cases hf
        refine ⟨_, List.mem_singleton_self _, ?_⟩
        have hretain := hg.retains _ (List.mem_singleton_self _) hmarks
        obtain ⟨s', hs'⟩ := Option.isSome_iff_exists.mp hmarks
        rw [exec_visitor] at hu
        cases hu
        rw [hstate, visitorState_of_marks hs' hretain]
        exact hs'
    | taskFinalize p' =>
      rw [hu] at hwrites hissued
      obtain ⟨caller, rfl⟩ := hissued
      exact absurd (Option.some.inj hwrites).symm (hg.deletes p' caller (Or.inl rfl) p hmem)
    | taskDeallocate p' =>
      rw [hu] at hwrites hissued
      obtain ⟨caller, rfl⟩ := hissued
      exact absurd (Option.some.inj hwrites).symm (hg.deletes p' caller (Or.inr rfl) p hmem)
    | _ =>
      rw [hu] at hwrites
      cases hwrites
  · exact Or.inl (n.state_access hwrites)

/-- The worker queue in which another traversal is does not change. -/
theorem workerQueue_others (h : QuietQueue q n l (f ::ₘ others)) {x : Progress}
    (hx : x ∈ traversals others) {r : QueueRef} {ii : Nat} (hr : x.current = some (r, ii)) :
    (code t c f n).1.workerQueue r = n.workerQueue r := by
  have hlocked := h.locked r
  have hisIn : x.isIn r = true := by
    rw [Progress.isIn, hr]
    exact decide_eq_true rfl
  have hpos : 0 < (traversals others).countP (fun x => x.isIn r) :=
    Multiset.countP_pos.mpr ⟨x, hx, hisIn⟩
  rw [traversals_cons, Multiset.countP_add] at hlocked
  have hlock : (n.workerQueue r).lock = true := by
    by_contra hne
    rw [if_neg hne] at hlocked
    omega
  refine workerQueue_exec hlock fun held hu => ?_
  have hissued := exec_issuedBy t c f n
  rw [hu] at hissued
  obtain ⟨v, rest, finite, -, rfl⟩ | ⟨v, jj, rest, finite, -, rfl⟩ := hissued
  · simp only [exec, hlock, ↓reduceIte] at hu
    cases hu
  · have hself : 0 < ((Frame.processQueue v r jj rest finite).traversal : Multiset Progress).countP
        (fun x => x.isIn r) :=
      Multiset.countP_pos.mpr ⟨_, List.mem_singleton_self _, decide_eq_true rfl⟩
    rw [hlock, if_pos rfl] at hlocked
    omega

/-- Next to a traversal for the queue there is no other one. -/
theorem unmarked_others (h : QuietQueue q n l (f ::ₘ others)) {x y : Progress}
    (hx : x ∈ f.traversal) (hm : (x.visitor.marks q).isSome = true) (hy : y ∈ traversals others) :
    y.visitor.marks q = none := by
  have honce := h.once
  rw [traversals_cons, Multiset.countP_add] at honce
  have hself : 0 < (f.traversal : Multiset Progress).countP
      (fun x => (x.visitor.marks q).isSome) := Multiset.countP_pos.mpr ⟨x, hx, hm⟩
  by_contra hne
  have hpos : 0 < (traversals others).countP (fun x => (x.visitor.marks q).isSome) :=
    Multiset.countP_pos.mpr ⟨y, hy, Option.isSome_iff_ne_none.mpr hne⟩
  omega

/-- A traversal for the queue has been on its way, or begins with a write to the flag. -/
theorem visitor_before {x : Progress} (hx : x ∈ f.nextTraversal n)
    (hm : (x.visitor.marks q).isSome = true) :
    (f.stores q = true ∧ (∀ s, x.visitor.marks q = some s →
        s = .retained ∧ QueuePhase.record q t c f n l = .disabling ∨
        s = .scheduled ∧ QueuePhase.record q t c f n l = .enabling)) ∨
      ∃ y ∈ f.traversal, y.visitor = x.visitor := by
  have hone : ∀ {y : Progress}, x ∈ [y] → x = y := List.mem_singleton.mp
  cases f with
  | queueDisableStore q' finite =>
    cases hone hx
    left
    simp only [Visitor.marks] at hm ⊢
    split at hm
    · rename_i hq
      refine ⟨decide_eq_true hq, fun s hs => Or.inl ?_⟩
      rw [if_pos hq] at hs
      exact ⟨(Option.some.inj hs).symm, if_pos hq⟩
    · cases hm
  | queueEnableStore q' =>
    simp only [Frame.nextTraversal] at hx
    split at hx
    · cases hone hx
      left
      simp only [Visitor.marks] at hm ⊢
      split at hm
      · rename_i hq
        refine ⟨decide_eq_true hq, fun s hs => Or.inr ?_⟩
        rw [if_pos hq] at hs
        exact ⟨(Option.some.inj hs).symm, if_pos hq⟩
      · cases hm
    · exact absurd hx List.not_mem_nil
  | queueDelete q' finite | actionDelete a finite =>
    simp only [Frame.nextTraversal] at hx
    split at hx
    · cases hone hx
      cases hm
    · exact absurd hx List.not_mem_nil
  | actionDisableStore a finite =>
    cases hone hx
    cases hm
  | processTasks v rest finite =>
    right
    refine ⟨_, List.mem_singleton_self _, ?_⟩
    cases rest with
    | nil =>
      cases hone hx
      rfl
    | cons r rest =>
      simp only [Frame.nextTraversal] at hx
      split at hx
      · cases hone hx
        rfl
      · cases hone hx
        rfl
  | processQueue v r ii rest finite =>
    right
    refine ⟨_, List.mem_singleton_self _, ?_⟩
    simp only [Frame.nextTraversal] at hx
    split at hx
    · split at hx
      · split at hx
        · cases hone hx
          rfl
        · cases hone hx
          rfl
      · cases hone hx
        rfl
    · cases hone hx
      rfl
  | processState v p r ii rest finite =>
    cases hone hx
    exact Or.inr ⟨_, List.mem_singleton_self _, rfl⟩
  | processError v p s r ii rest finite => exact Or.inr ⟨x, hx, rfl⟩
  | _ => exact absurd hx List.not_mem_nil

theorem length_nextTraversal (n : Node) (f : Frame) : (f.nextTraversal n).length ≤ 1 := by
  cases f with
  | processTasks v rest finite =>
    cases rest with
    | nil => exact le_refl 1
    | cons r rest =>
      simp only [Frame.nextTraversal]
      split <;> exact le_refl 1
  | processQueue v r ii rest finite =>
    simp only [Frame.nextTraversal]
    split
    · split
      · split <;> exact le_refl 1
      · exact le_refl 1
    · exact le_refl 1
  | queueDelete | queueEnableStore | actionDelete =>
    simp only [Frame.nextTraversal]
    split
    · exact le_refl 1
    · exact Nat.zero_le 1
  | queueDisableStore | actionDisableStore | processState | processError => exact le_refl 1
  | _ => exact Nat.zero_le 1

theorem once_exec (h : QuietQueue q n l (f ::ₘ others))
    (hg : KeepsQueue q t c f n l (f ::ₘ others)) :
    (traversals ((code t c f n).2 + others)).countP (fun x => (x.visitor.marks q).isSome) ≤ 1 := by
  have honce := h.once
  rw [traversals_cons, Multiset.countP_add] at honce
  rw [traversals_add, show (code t c f n).2.flatMap Frame.traversal = _ from exec_traversal t c f n,
    Multiset.countP_add]
  by_cases hnext : ∃ x ∈ f.nextTraversal n, (x.visitor.marks q).isSome = true
  · obtain ⟨x, hx, hm⟩ := hnext
    have hnone : ∀ y ∈ traversals others, y.visitor.marks q = none := by
      intro y hy
      rcases visitor_before (t := t) (c := c) (l := l) hx hm with ⟨hs, -⟩ | ⟨z, hz, he⟩
      · exact (hg.alone hs).1 y (mem_traversals_others hy)
      · exact h.unmarked_others hz (by rw [he]; exact hm) hy
    have hzero : (traversals others).countP (fun x => (x.visitor.marks q).isSome) = 0 :=
      Multiset.countP_eq_zero.mpr fun y hy => by
        rw [hnone y hy]
        exact Bool.noConfusion
    have hle : (f.nextTraversal n : Multiset Progress).countP
        (fun x => (x.visitor.marks q).isSome) ≤ 1 :=
      le_trans (Multiset.countP_le_card _ _) (length_nextTraversal n f)
    omega
  · have hzero : (f.nextTraversal n : Multiset Progress).countP
        (fun x => (x.visitor.marks q).isSome) = 0 :=
      Multiset.countP_eq_zero.mpr fun y hy hm => hnext ⟨y, hy, hm⟩
    omega

theorem phase_exec (h : QuietQueue q n l (f ::ₘ others))
    (hg : KeepsQueue q t c f n l (f ::ₘ others)) {x : Progress}
    (hx : x ∈ traversals ((code t c f n).2 + others)) {s : TaskState}
    (hs : x.visitor.marks q = some s) :
    s = .retained ∧ QueuePhase.record q t c f n l = .disabling ∨
      s = .scheduled ∧ QueuePhase.record q t c f n l = .enabling := by
  have hm : (x.visitor.marks q).isSome = true := by
    rw [hs]
    rfl
  have hold : ∀ y ∈ traversals (f ::ₘ others), y.visitor = x.visitor →
      s = .retained ∧ l = .disabling ∨ s = .scheduled ∧ l = .enabling := by
    intro y hy he
    exact h.phase y hy s (by rw [he]; exact hs)
  have hkeeps : f.stores q = false → (∀ y ∈ f.traversal, y.visitor.marks q = none) →
      QueuePhase.record q t c f n l = l := by
    intro hstores hnone
    cases f with
    | queueDisableStore q' | queueEnableStore q' => exact if_neg (of_decide_eq_false hstores)
    | processDone v finite =>
      have hv := hnone _ (List.mem_singleton_self _)
      cases v with
      | queueDisable q' | queueEnable q' =>
        simp only [Visitor.marks] at hv
        split at hv
        · cases hv
        · rename_i hq
          exact if_neg hq
      | _ => rfl
    | _ => rfl
  rw [traversals_add, show (code t c f n).2.flatMap Frame.traversal = _ from exec_traversal t c f n,
    Multiset.mem_add] at hx
  rcases hx with hx | hx
  · rcases visitor_before (t := t) (c := c) (l := l) hx hm with ⟨-, hnew⟩ | ⟨y, hy, he⟩
    · exact hnew s hs
    · have hrecord : QueuePhase.record q t c f n l = l := by
        cases f with
        | processDone => exact absurd hx List.not_mem_nil
        | processTasks | processQueue | processState | processError => rfl
        | _ => exact absurd hy List.not_mem_nil
      rw [hrecord]
      exact hold y (mem_traversals_self hy) he
  · have hmem : x ∈ traversals (f ::ₘ others) := mem_traversals_others hx
    rw [hkeeps ?_ ?_]
    · exact hold x hmem rfl
    · by_contra hstores
      rw [(hg.alone (Bool.not_eq_false _ ▸ hstores)).1 x hmem] at hs
      cases hs
    · intro y hy
      by_contra hne
      rw [h.unmarked_others hy (Option.isSome_iff_ne_none.mpr hne) hx] at hs
      cases hs

theorem aligned_exec (h : QuietQueue q n l (f ::ₘ others))
    (hg : KeepsQueue q t c f n l (f ::ₘ others)) {x : Progress}
    (hx : x ∈ traversals ((code t c f n).2 + others))
    (hm : (x.visitor.marks q).isSome = true) {r : QueueRef} {ii : Nat}
    (hr : x.current = some (r, ii)) :
    ((code t c f n).1.workerQueue r).getTaskPosition = 0 := by
  have hsame : ∀ {u : Access}, (exec t c f n).1 = u → u.keepsQueues = true →
      (code t c f n).1.workerQueue r = n.workerQueue r := by
    rintro u rfl hk
    rw [code, Node.workerQueue_access n hk]
  have hone : ∀ {y : Progress}, x ∈ [y] → x = y := List.mem_singleton.mp
  rw [traversals_add, show (code t c f n).2.flatMap Frame.traversal = _ from exec_traversal t c f n,
    Multiset.mem_add] at hx
  rcases hx with hx | hx
  · cases f with
    | processTasks v rest finite =>
      cases rest with
      | nil =>
        cases hone hx
        cases hr
      | cons r' rest =>
        simp only [Multiset.mem_coe, Frame.nextTraversal] at hx
        split at hx
        · cases hone hx
          cases hr
        · rename_i hlock
          cases hone hx
          cases hr
          have hu : (exec t c (.processTasks v (r :: rest) finite) n).1 = .lock r true := by
            simp only [exec, if_neg hlock]
          rw [code, hu]
          simp only [Node.access, Node.setWorkerQueue_workerQueue, Function.update_self]
          exact hg.aligned v r rest finite rfl hm
    | processQueue v r' jj rest finite =>
      simp only [Multiset.mem_coe, Frame.nextTraversal] at hx
      split at hx
      · rename_i hlt
        split at hx
        · rename_i p hp
          split at hx
          · rename_i hv
            cases hone hx
            cases hr
            rw [hsame (u := .read) (by simp only [exec, hlt, hp, hv, ↓reduceIte]) rfl]
            exact h.aligned _ (mem_traversals_self (List.mem_singleton_self _)) hm r _ rfl
          · cases hone hx
            cases hr
        · rename_i hp
          cases hone hx
          cases hr
          rw [hsame (u := .read) (by simp only [exec, hlt, hp, ↓reduceIte]) rfl]
          exact h.aligned _ (mem_traversals_self (List.mem_singleton_self _)) hm r _ rfl
      · cases hone hx
        cases hr
    | processState v p r' jj rest finite =>
      cases hone hx
      cases hr
      have hu : (exec t c (.processState v p r jj rest finite) n).1 =
          .taskState p (n.visitorState v).1 := by
        simp only [exec]
        split <;> rfl
      rw [hsame hu rfl]
      exact h.aligned _ (mem_traversals_self (List.mem_singleton_self _)) hm r _ rfl
    | processError v p s r' jj rest finite =>
      cases hone hx
      cases hr
      rw [hsame (u := .taskError p s) rfl rfl]
      exact h.aligned _ (mem_traversals_self (List.mem_singleton_self _)) hm r _ rfl
    | queueDisableStore | actionDisableStore =>
      cases hone hx
      cases hr
    | queueDelete | queueEnableStore | actionDelete =>
      simp only [Multiset.mem_coe, Frame.nextTraversal] at hx
      split at hx
      · cases hone hx
        cases hr
      · exact absurd hx List.not_mem_nil
    | _ => exact absurd hx List.not_mem_nil
  · rw [h.workerQueue_others hx hr]
    exact h.aligned x (mem_traversals_others hx) hm r ii hr

/-- The visitor is called on what the buffer holds. -/
theorem exec_processState {v : Visitor} {r : QueueRef} {ii : Nat} {rest : List QueueRef}
    {finite : Bool} (hm : .processState v p r ii rest finite ∈ (exec t c f n).2) :
    f = .processQueue v r ii rest finite ∧ ii < (n.workerQueue r).tasksAvailable ∧
      (n.workerQueue r).taskBuffer ii = some p ∧ (exec t c f n).1 = .read := by
  have hnext : ⟨v, some (r, ii), rest⟩ ∈ f.nextTraversal n := by
    rw [← exec_traversal t c f n]
    exact List.mem_flatMap.mpr ⟨_, hm, List.mem_singleton_self _⟩
  cases f with
  | processTasks v' rest' finite' =>
    cases rest' with
    | nil => cases List.mem_singleton.mp hm
    | cons r' rest' =>
      simp only [exec] at hm
      split at hm
      · cases List.mem_singleton.mp hm
      · cases List.mem_singleton.mp hm
  | processQueue v' r' ii' rest' finite' =>
    simp only [exec] at hm ⊢
    split at hm
    · rename_i hlt
      split at hm
      · rename_i p' hp
        split at hm
        · rename_i hv
          cases List.mem_singleton.mp hm
          simp only [hlt, hp, hv, ↓reduceIte, and_self]
        · cases List.mem_singleton.mp hm
      · cases List.mem_singleton.mp hm
    · cases List.mem_singleton.mp hm
  | processState v' p' r' ii' rest' finite' =>
    simp only [exec] at hm
    split at hm
    · cases List.mem_singleton.mp hm
    · cases List.mem_singleton.mp hm
  | processError => cases List.mem_singleton.mp hm
  | queueDisableStore | actionDisableStore => cases List.mem_singleton.mp hm
  | queueDelete | queueEnableStore | actionDelete =>
    simp only [exec] at hm
    split at hm
    · cases List.mem_singleton.mp hm
    · cases List.mem_singleton.mp hm
  | _ => exact absurd hnext List.not_mem_nil

theorem visited_exec (h : QuietQueue q n l (f ::ₘ others)) {v : Visitor} {r : QueueRef} {ii : Nat}
    {rest : List QueueRef} {finite : Bool}
    (hmem : .processState v p r ii rest finite ∈ ((code t c f n).2 : Multiset Frame) + others)
    (hm : (v.marks q).isSome = true) :
    ((code t c f n).1.workerQueue r).tasks[ii]? = some p := by
  rcases Multiset.mem_add.mp hmem with hnew | hold
  · obtain ⟨rfl, hlt, hp, hu⟩ := exec_processState hnew
    have haligned := h.aligned ⟨v, some (r, ii), rest⟩
      (mem_traversals_self (List.mem_singleton_self _)) hm r ii rfl
    have hentry := (n.workerQueue r).getElem?_tasks hlt
    rw [haligned, Nat.zero_add, Nat.mod_eq_of_lt (lt_of_lt_of_le hlt
      (n.workerQueue r).available_le), hp, List.getElem?_map] at hentry
    rw [code, hu, Node.access]
    cases he : (n.workerQueue r).tasks[ii]? with
    | none =>
      rw [he] at hentry
      cases hentry
    | some p' =>
      rw [he] at hentry
      cases hentry
      rfl
  · have hx : ⟨v, some (r, ii), rest⟩ ∈ traversals others :=
      mem_gather.mpr ⟨_, hold, List.mem_singleton_self _⟩
    rw [h.workerQueue_others hx rfl]
    exact h.visited v p r ii rest finite (Multiset.mem_cons_of_mem hold) hm

/-- What waits in a worker queue has waited there before, or has been in the hands of the thread. -/
theorem queued_before (h : QuietQueue q n l (f ::ₘ others)) (hp : p ∈ (code t c f n).1.queued) :
    p ∈ n.queued ∨ (.waiting, p) ∈ f.work := by
  have hissued := exec_issuedBy t c f n
  rw [code] at hp
  by_cases hk : (exec t c f n).1.keepsQueues = true
  · rw [Node.queued_access n hk] at hp
    exact Or.inl hp
  · cases hu : (exec t c f n).1 with
    | push r p' =>
      rw [hu] at hp hissued
      obtain ⟨hr, hpush, ii, isPrivate, a, caller, -, rfl⟩ := hissued
      rw [Node.queued_push hr hpush] at hp
      rcases Multiset.mem_cons.mp hp with rfl | hp
      · exact Or.inr List.mem_cons_self
      · exact Or.inl hp
    | pop r =>
      rw [hu] at hp hissued
      have hpop : ∃ p', (n.workerQueue r).pop.2 = some p' := by
        obtain ⟨-, rest, rfl | rfl⟩ := hissued
        · rcases (exec_scan t c r rest n).1 with he | ⟨p', hp', -⟩
          · rw [he] at hu
            cases hu
          · exact ⟨p', hp'⟩
        · rcases (exec_scan t c r rest n).2 with he | ⟨p', hp', -⟩
          · rw [he] at hu
            cases hu
          · exact ⟨p', hp'⟩
      obtain ⟨p', hp'⟩ := hpop
      rw [Node.queued_pop h.confined hp']
      exact Or.inl (Multiset.mem_cons_of_mem hp)
    | lock r held =>
      rw [hu, Node.queued_lock] at hp
      exact Or.inl hp
    | _ =>
      rw [hu] at hk
      exact absurd rfl hk

/-- A task that waits in a worker queue stays there, or is taken. -/
theorem tasks_exec {r : QueueRef} (hp : p ∈ (n.workerQueue r).tasks) :
    p ∈ ((code t c f n).1.workerQueue r).tasks ∨
      ((exec t c f n).1 = .pop r ∧ (n.workerQueue r).pop.2 = some p) := by
  have hissued := exec_issuedBy t c f n
  rw [code]
  by_cases hk : (exec t c f n).1.keepsQueues = true
  · rw [Node.workerQueue_access n hk]
    exact Or.inl hp
  · cases hu : (exec t c f n).1 with
    | push r' p' =>
      rw [hu] at hissued
      left
      by_cases hr : r = r'
      · subst hr
        simp only [Node.access, Node.setWorkerQueue_workerQueue, Function.update_self]
        rw [TaskQueue.tasks_push_of_true hissued.2.1]
        exact List.mem_append_left _ hp
      · simp only [Node.access, Node.setWorkerQueue_workerQueue, Function.update_of_ne hr]
        exact hp
    | pop r' =>
      by_cases hr : r = r'
      · subst hr
        simp only [Node.access, Node.setWorkerQueue_workerQueue, Function.update_self]
        cases hpop : (n.workerQueue r).pop.2 with
        | none =>
          rw [TaskQueue.pop_of_none hpop]
          exact Or.inl hp
        | some p' =>
          rw [TaskQueue.tasks_of_pop_some hpop] at hp
          rcases List.mem_cons.mp hp with rfl | hp
          · exact Or.inr ⟨trivial, rfl⟩
          · exact Or.inl hp
      · simp only [Node.access, Node.setWorkerQueue_workerQueue, Function.update_of_ne hr]
        exact Or.inl hp
    | lock r' held =>
      left
      by_cases hr : r = r'
      · subst hr
        simp only [Node.access, Node.setWorkerQueue_workerQueue, Function.update_self,
          TaskQueue.tasks_setLock]
        exact hp
      · simp only [Node.access, Node.setWorkerQueue_workerQueue, Function.update_of_ne hr]
        exact hp
    | _ =>
      rw [hu] at hk
      exact absurd rfl hk

theorem mem_todo {x : Progress} : p ∈ x.todo n ↔
    (∃ r ii, x.current = some (r, ii) ∧ p ∈ (n.workerQueue r).tasks.drop ii) ∨
      ∃ r ∈ x.rest, p ∈ (n.workerQueue r).tasks := by
  rw [Progress.todo, List.mem_append, List.mem_flatMap]
  refine or_congr ?_ Iff.rfl
  cases x.current with
  | none => simp
  | some y =>
    constructor
    · exact fun hp => ⟨y.1, y.2, rfl, hp⟩
    · rintro ⟨r, ii, hy, hp⟩
      cases hy
      exact hp

/-- What another traversal has not reached is still before it. -/
theorem todo_others (h : QuietQueue q n l (f ::ₘ others))
    (hg : KeepsQueue q t c f n l (f ::ₘ others)) {x : Progress} (hx : x ∈ traversals others)
    (hl : l = .disabling ∨ l = .enabling) (hp : (n.task p).queue = q) (htodo : p ∈ x.todo n) :
    p ∈ x.todo (code t c f n).1 := by
  rw [mem_todo] at htodo ⊢
  rcases htodo with ⟨r, ii, hr, hm⟩ | ⟨r, hr, hm⟩
  · left
    refine ⟨r, ii, hr, ?_⟩
    rw [h.workerQueue_others hx hr]
    exact hm
  · right
    refine ⟨r, hr, ?_⟩
    rcases tasks_exec (t := t) (c := c) (f := f) hm with hm | ⟨hu, hpop⟩
    · exact hm
    · rcases hg.takes r p hu hpop hp with hactive | ⟨hdisabled, -⟩
      · rcases hl with rfl | rfl <;> cases hactive
      · rcases hl with rfl | rfl <;> cases hdisabled

/-- A traversal changes no worker queue. -/
theorem todo_own {x y : Progress} (hy : y ∈ f.traversal) : x.todo (code t c f n).1 = x.todo n := by
  have hissued := exec_issuedBy t c f n
  have htasks : ∀ r, ((code t c f n).1.workerQueue r).tasks = (n.workerQueue r).tasks := by
    intro r
    rw [code]
    by_cases hk : (exec t c f n).1.keepsQueues = true
    · rw [Node.workerQueue_access n hk]
    · cases hu : (exec t c f n).1 with
      | push r' p' =>
        rw [hu] at hissued
        obtain ⟨-, -, ii, isPrivate, a, caller, -, rfl⟩ := hissued
        exact absurd hy List.not_mem_nil
      | pop r' =>
        rw [hu] at hissued
        obtain ⟨-, rest, rfl | rfl⟩ := hissued
        · exact absurd hy List.not_mem_nil
        · exact absurd hy List.not_mem_nil
      | lock r' held =>
        by_cases hr : r = r'
        · subst hr
          simp only [Node.access, Node.setWorkerQueue_workerQueue, Function.update_self,
            TaskQueue.tasks_setLock]
        · simp only [Node.access, Node.setWorkerQueue_workerQueue, Function.update_of_ne hr]
      | _ =>
        rw [hu] at hk
        exact absurd rfl hk
  simp only [Progress.todo, htasks]

/-- A task that waits is in a worker queue or in the hands of a thread. -/
theorem queued_or_work {fs : Multiset Frame} (hw : 0 < waiting n fs p) :
    p ∈ n.queued ∨ ∃ g ∈ fs, (.waiting, p) ∈ g.work := by
  rcases Multiset.mem_add.mp (Multiset.count_pos.mp hw) with hm | hm
  · obtain ⟨p', hp', he⟩ := Multiset.mem_map.mp hm
    cases he
    exact Or.inl hp'
  · obtain ⟨g, hg, hm⟩ := Multiset.mem_bind.mp hm
    exact Or.inr ⟨g, hg, hm⟩

/-- What a step does to the phase of the queue. -/
theorem record_cases (q : Ptr) (t : Nat) (c : Choice) (f : Frame) (n : Node) (l : QueuePhase) :
    (f.stores q = true ∧ (QueuePhase.record q t c f n l = .disabling ∨
        QueuePhase.record q t c f n l = .enabling)) ∨
      (∃ v finite s, f = .processDone v finite ∧ v.marks q = some s ∧
        (s = .retained ∧ QueuePhase.record q t c f n l = .disabled ∨
          s = .scheduled ∧ QueuePhase.record q t c f n l = .active)) ∨
      QueuePhase.record q t c f n l = l := by
  cases f with
  | queueDisableStore q' finite =>
    by_cases hq : q' = q
    · exact Or.inl ⟨decide_eq_true hq, Or.inl (if_pos hq)⟩
    · exact Or.inr (Or.inr (if_neg hq))
  | queueEnableStore q' =>
    by_cases hq : q' = q
    · exact Or.inl ⟨decide_eq_true hq, Or.inr (if_pos hq)⟩
    · exact Or.inr (Or.inr (if_neg hq))
  | processDone v finite =>
    right
    cases v with
    | queueDisable q' =>
      by_cases hq : q' = q
      · exact Or.inl ⟨_, finite, .retained, rfl, if_pos hq, Or.inl ⟨rfl, if_pos hq⟩⟩
      · exact Or.inr (if_neg hq)
    | queueEnable q' =>
      by_cases hq : q' = q
      · exact Or.inl ⟨_, finite, .scheduled, rfl, if_pos hq, Or.inr ⟨rfl, if_pos hq⟩⟩
      · exact Or.inr (if_neg hq)
    | _ => exact Or.inr rfl
  | _ => exact Or.inr (Or.inr rfl)

theorem stores_cases (h : f.stores q = true) :
    (∃ finite, f = .queueDisableStore q finite) ∨ f = .queueEnableStore q := by
  cases f with
  | queueDisableStore q' finite =>
    cases of_decide_eq_true h
    exact Or.inl ⟨finite, rfl⟩
  | queueEnableStore q' =>
    cases of_decide_eq_true h
    exact Or.inr rfl
  | _ => cases h

/-- When a traversal for the queue returns, it has marked all tasks of the queue that wait, and no
thread has one in its hands. -/
theorem marked_done (h : QuietQueue q n l (f ::ₘ others)) {v : Visitor} {finite : Bool}
    {s : TaskState} (hf : f = .processDone v finite) (hs : v.marks q = some s)
    (hp : (n.task p).queue = q) :
    l ≠ .active ∧ (∀ g ∈ f ::ₘ others, (.waiting, p) ∉ g.work) ∧
      (0 < waiting n (f ::ₘ others) p → (n.task p).state = s) := by
  subst hf
  have hx : ⟨v, none, []⟩ ∈ traversals (.processDone v finite ::ₘ others) :=
    mem_traversals_self (List.mem_singleton_self _)
  have hphase := h.phase _ hx s hs
  have hl : l ≠ .active ∧ l ≠ .disabled := by
    rcases hphase with ⟨-, rfl⟩ | ⟨-, rfl⟩
    · exact ⟨QueuePhase.noConfusion, QueuePhase.noConfusion⟩
    · exact ⟨QueuePhase.noConfusion, QueuePhase.noConfusion⟩
  have hnone : ∀ g ∈ Frame.processDone v finite ::ₘ others, (.waiting, p) ∉ g.work :=
    fun g hg hm => hl.2 (h.circulating hl.1 g hg p hm hp).1
  refine ⟨hl.1, hnone, fun hw => ?_⟩
  rcases queued_or_work hw with hqueued | ⟨g, hg, hm⟩
  · rcases h.marked _ hx s hs p hqueued hp with hstate | htodo
    · exact hstate
    · exact absurd htodo List.not_mem_nil
  · exact absurd hm (hnone g hg)

theorem circulating_exec (h : QuietQueue q n l (f ::ₘ others)) (hq : q.id ≠ idPoolInvalidId)
    (hg : KeepsQueue q t c f n l (f ::ₘ others))
    (hl : QueuePhase.record q t c f n l ≠ .active) {g : Frame}
    (hgm : g ∈ ((code t c f n).2 : Multiset Frame) + others) (hw : (.waiting, p) ∈ g.work)
    (hp : ((code t c f n).1.task p).queue = q) :
    QueuePhase.record q t c f n l = .disabled ∧ g.circulates = true := by
  have hstart : ∀ call, f ≠ .startInit call p := by
    rintro call rfl
    refine hq ?_
    rw [← hp, code, exec, Node.access, Node.task_modifyTask_self]
    rfl
  have hattributes : ∀ call p' kk was, f = .startInstances call p' kk was →
      (n.task p').attributes = call.attributes := by
    rintro call p' kk was rfl
    exact h.started _ (Multiset.mem_cons_self _ _) call p' (List.mem_singleton_self _)
  have hgm := Multiset.mem_add.mp hgm
  rcases record_cases q t c f n l with ⟨hstores, -⟩ | ⟨v, finite, s, hf, hs, -⟩ | hsame
  · -- at the write to the flag nobody has a task of the queue in hand
    have hidle := (hg.alone hstores).2
    have hqueue : (n.task p).queue = q := by
      rcases queue_before hq hp with hqueue | ⟨call, p', -, -, hf⟩
      · exact hqueue
      · subst hf
        cases hstores
    exfalso
    rcases hgm with hgm | hgm
    · rcases exec_waiting hattributes hgm hw with hm | ⟨call, hf⟩ | ⟨r, rest, hu, hpop, hf⟩
      · exact hidle f (Multiset.mem_cons_self _ _) p hm hqueue
      · exact hstart call hf
      · obtain ⟨rfl, -⟩ | ⟨rfl, -⟩ := hf
        · cases hstores
        · cases hstores
    · exact hidle g (Multiset.mem_cons_of_mem hgm) p hw hqueue
  · have hqueue : (n.task p).queue = q := by
      rcases queue_before hq hp with hqueue | ⟨call, p', -, -, hf'⟩
      · exact hqueue
      · rw [hf] at hf'
        cases hf'
    obtain ⟨-, hnone, -⟩ := h.marked_done hf hs hqueue
    exfalso
    rcases hgm with hgm | hgm
    · rcases exec_waiting hattributes hgm hw with hm | ⟨call, hf'⟩ | ⟨r, rest, hu, hpop, hf'⟩
      · exact hnone f (Multiset.mem_cons_self _ _) hm
      · exact hstart call hf'
      · subst hf
        obtain ⟨hf', -⟩ | ⟨hf', -⟩ := hf'
        · cases hf'
        · cases hf'
    · exact hnone g (Multiset.mem_cons_of_mem hgm) hw
  · rw [hsame] at hl ⊢
    have hqueue : (n.task p).queue = q := by
      rcases queue_before hq hp with hqueue | ⟨call, p', -, hcall, hf⟩
      · exact hqueue
      · exact absurd (hg.enqueues call p' hf hcall) hl
    rcases hgm with hgm | hgm
    · rcases exec_waiting hattributes hgm hw with hm | ⟨call, hf⟩ | ⟨r, rest, hu, hpop, hf⟩
      · obtain ⟨hdisabled, hcirculates⟩ :=
          h.circulating hl f (Multiset.mem_cons_self _ _) p hm hqueue
        refine ⟨hdisabled, exec_circulates hcirculates hgm hw ?_⟩
        exact h.retained hdisabled p (waiting_pos hm) hqueue
      · exact absurd hf (hstart call)
      · rcases hg.takes r p hu hpop hqueue with hactive | ⟨hdisabled, rest', hf'⟩
        · exact absurd hactive hl
        · obtain ⟨rfl, rfl⟩ | ⟨rfl, rfl⟩ := hf
          · exact ⟨hdisabled, rfl⟩
          · cases hf'
    · exact h.circulating hl g (Multiset.mem_cons_of_mem hgm) p hw hqueue

theorem retained_exec (h : QuietQueue q n l (f ::ₘ others)) (hq : q.id ≠ idPoolInvalidId)
    (hg : KeepsQueue q t c f n l (f ::ₘ others))
    (hl : QueuePhase.record q t c f n l = .disabled)
    (hw : 0 < waiting (code t c f n).1 ((code t c f n).2 + others) p)
    (hp : ((code t c f n).1.task p).queue = q) :
    ((code t c f n).1.task p).state = .retained := by
  have hw := h.waiting_before hq hp hw
  rcases record_cases q t c f n l with ⟨-, hnew | hnew⟩ | ⟨v, finite, s, hf, hs, hnew⟩ | hsame
  · rw [hnew] at hl
    cases hl
  · rw [hnew] at hl
    cases hl
  · have hmemory : (code t c f n).1 = n := by
      subst hf
      rfl
    rw [hmemory] at hp ⊢
    rcases hnew with ⟨rfl, -⟩ | ⟨-, hnew⟩
    · exact (h.marked_done hf hs hp).2.2 hw
    · rw [hnew] at hl
      cases hl
  · rw [hsame] at hl
    subst hl
    have hqueue : (n.task p).queue = q := by
      rcases queue_before hq hp with hqueue | ⟨call, p', -, hcall, hf⟩
      · exact hqueue
      · cases hg.enqueues call p' hf hcall
    have hstate := h.retained rfl p hw hqueue
    rcases h.state_exec hg hw hqueue with he | ⟨hm, hbusy, -⟩ | ⟨x, hx, hs⟩
    · rw [he]
      exact hstate
    · rw [(h.circulating QueuePhase.noConfusion f (Multiset.mem_cons_self _ _) p hm hqueue).2]
        at hbusy
      cases hbusy
    · rcases h.phase x (mem_traversals_self hx) _ hs with ⟨-, hphase⟩ | ⟨-, hphase⟩
      · cases hphase
      · cases hphase

theorem again_exec (h : QuietQueue q n l (f ::ₘ others)) (hq : q.id ≠ idPoolInvalidId)
    (hg : KeepsQueue q t c f n l (f ::ₘ others))
    (hl : QueuePhase.record q t c f n l = .active)
    (hw : 0 < waiting (code t c f n).1 ((code t c f n).2 + others) p)
    (hp : ((code t c f n).1.task p).queue = q)
    (hr : ((code t c f n).1.task p).state = .retained) :
    ∃ g ∈ ((code t c f n).2 : Multiset Frame) + others, p ∈ g.unready := by
  have hw := h.waiting_before hq hp hw
  have hnext : ∀ {g : Frame}, g ∈ (exec t c f n).2 → p ∈ g.unready →
      ∃ g ∈ ((code t c f n).2 : Multiset Frame) + others, p ∈ g.unready := fun hgm hpg =>
    ⟨_, Multiset.mem_add.mpr (Or.inl hgm), hpg⟩
  rcases record_cases q t c f n l with ⟨-, hnew | hnew⟩ | ⟨v, finite, s, hf, hs, hnew⟩ | hsame
  · rw [hnew] at hl
    cases hl
  · rw [hnew] at hl
    cases hl
  · have hmemory : (code t c f n).1 = n := by
      subst hf
      rfl
    rw [hmemory] at hp hr
    rcases hnew with ⟨-, hnew⟩ | ⟨rfl, -⟩
    · rw [hnew] at hl
      cases hl
    · rw [(h.marked_done hf hs hp).2.2 hw] at hr
      cases hr
  · rw [hsame] at hl
    subst hl
    rcases queue_before hq hp with hqueue | ⟨call, p', hid, -, hf⟩
    · rcases h.state_exec hg hw hqueue with he | ⟨-, -, hne⟩ | ⟨x, hx, hs⟩
      · rw [he] at hr
        obtain ⟨g, hgm, hpg⟩ := h.again rfl p hw hqueue hr
        rcases Multiset.mem_cons.mp hgm with rfl | hgm
        · rcases exec_unready hpg t c n with ⟨g', hgm', hpg'⟩ | hlose | ⟨call, hf⟩
          · exact hnext hgm' hpg'
          · obtain ⟨lq, rfl⟩ := hg.loses p hlose hqueue
            exact absurd hpg List.not_mem_nil
          · subst hf
            cases List.mem_singleton.mp hpg
            have hscheduled : ((code t c (.startSchedule call p) n).1.task p).state =
                .scheduled := by
              simp only [code, exec, Node.access, Node.setTaskState, Node.task_modifyTask_self]
            rw [← he, hscheduled] at hr
            cases hr
        · exact ⟨g, Multiset.mem_add.mpr (Or.inr hgm), hpg⟩
      · exact absurd hr hne
      · rcases h.phase x (mem_traversals_self hx) _ hs with ⟨-, hphase⟩ | ⟨-, hphase⟩
        · cases hphase
        · cases hphase
    · subst hf
      have hself : p' = p := (h.live p' (mem_references_of_mem (Multiset.mem_cons_self _ _)
        (List.mem_singleton_self _))).eq_of_id
          (h.live p (mem_references_of_mem_work (Multiset.count_pos.mp hw))) hid
      subst hself
      exact hnext (List.mem_singleton_self _) (List.mem_singleton_self _)

/-- One more entry of a traversal: its task is marked, or it was none that it had to reach. -/
theorem todo_step (h : QuietQueue q n l (f ::ₘ others))
    (hg : KeepsQueue q t c f n l (f ::ₘ others)) {x y : Progress} (hx : x ∈ f.nextTraversal n)
    (hy : y ∈ f.traversal) {s : TaskState} (hs : y.visitor.marks q = some s)
    (hp : p ∈ y.todo n) : ((code t c f n).1.task p).state = s ∨ p ∈ x.todo n := by
  have hone : ∀ {y : Progress}, x ∈ [y] → x = y := List.mem_singleton.mp
  have hm : (y.visitor.marks q).isSome = true := by
    rw [hs]
    rfl
  cases f with
  | processTasks v rest finite =>
    cases List.mem_singleton.mp hy
    cases rest with
    | nil =>
      cases hone hx
      exact Or.inr hp
    | cons r rest =>
      right
      simp only [Frame.nextTraversal] at hx
      split at hx
      · cases hone hx
        exact hp
      · cases hone hx
        exact hp
  | processQueue v r ii rest finite =>
    cases List.mem_singleton.mp hy
    right
    simp only [Frame.nextTraversal] at hx
    split at hx
    · split at hx
      · rename_i p' hp'
        rw [if_pos (hg.front v r ii rest finite p' rfl hm hp')] at hx
        cases hone hx
        exact hp
      · cases hone hx
        exact hp
    · rename_i hlt
      cases hone hx
      have hdrop : (n.workerQueue r).tasks.drop ii = [] := by
        rw [List.drop_eq_nil_iff, TaskQueue.length_tasks]
        exact not_lt.mp hlt
      simp only [Progress.todo, hdrop] at hp
      exact hp
  | processState v p' r ii rest finite =>
    cases List.mem_singleton.mp hy
    cases hone hx
    have hentry := h.visited v p' r ii rest finite (Multiset.mem_cons_self _ _) hm
    obtain ⟨hlt, hget⟩ := List.getElem?_eq_some_iff.mp hentry
    have hdrop : (n.workerQueue r).tasks.drop ii =
        p' :: (n.workerQueue r).tasks.drop (ii + 1) := by
      rw [List.drop_eq_getElem_cons hlt, hget]
    simp only [Progress.todo, hdrop, List.cons_append, List.mem_cons] at hp
    rcases hp with rfl | hp
    · left
      have hretain := hg.retains _ (List.mem_singleton_self _) hm
      rw [code, exec_visitor, visitorState_of_marks hs hretain, Node.access, Node.setTaskState,
        Node.task_modifyTask_self]
    · exact Or.inr hp
  | processError v p' e r ii rest finite =>
    cases List.mem_singleton.mp hy
    cases hone hx
    exact Or.inr hp
  | processDone => exact absurd hx List.not_mem_nil
  | _ => exact absurd hy List.not_mem_nil

theorem mem_queued {m : Node} (hp : p ∈ m.queued) :
    ∃ r ∈ m.processOrder, p ∈ (m.workerQueue r).tasks := by
  obtain ⟨r, hr, hm⟩ := Multiset.mem_sum.mp hp
  exact ⟨r, List.mem_toFinset.mp hr, hm⟩

/-- While a traversal is on its way, all tasks of the queue are in the worker queues. -/
theorem queued_of_traversal (h : QuietQueue q n l (f ::ₘ others)) (hq : q.id ≠ idPoolInvalidId)
    (hg : KeepsQueue q t c f n l (f ::ₘ others)) {y : Progress}
    (hy : y ∈ traversals (f ::ₘ others)) {s : TaskState} (hs : y.visitor.marks q = some s)
    (hp : p ∈ (code t c f n).1.queued) (hqueue' : ((code t c f n).1.task p).queue = q) :
    (l = .disabling ∨ l = .enabling) ∧ (n.task p).queue = q ∧ p ∈ n.queued ∧
      ∀ g ∈ f ::ₘ others, (.waiting, p) ∉ g.work := by
  have hl : l = .disabling ∨ l = .enabling := (h.phase y hy s hs).imp And.right And.right
  have hactive : l ≠ .active := by
    rcases hl with rfl | rfl <;> exact QueuePhase.noConfusion
  have hqueue : (n.task p).queue = q := by
    rcases queue_before hq hqueue' with hqueue | ⟨call, p', -, hcall, hf⟩
    · exact hqueue
    · exact absurd (hg.enqueues call p' hf hcall) hactive
  have hnone : ∀ g ∈ f ::ₘ others, (.waiting, p) ∉ g.work := by
    intro g hgm hw
    have hdisabled := (h.circulating hactive g hgm p hw hqueue).1
    rcases hl with rfl | rfl <;> cases hdisabled
  refine ⟨hl, hqueue, ?_, hnone⟩
  exact (h.queued_before hp).resolve_right (hnone f (Multiset.mem_cons_self _ _))

/-- A state that is marked stays, unless the one traversal marks it. -/
theorem state_stays (h : QuietQueue q n l (f ::ₘ others)) (hq : q.id ≠ idPoolInvalidId)
    (hg : KeepsQueue q t c f n l (f ::ₘ others)) {y : Progress}
    (hy : y ∈ traversals (f ::ₘ others)) {s : TaskState} (hs : y.visitor.marks q = some s)
    (hp : p ∈ (code t c f n).1.queued) (hqueue' : ((code t c f n).1.task p).queue = q)
    (hown : ∀ z ∈ f.traversal, (z.visitor.marks q).isSome = true → z.visitor = y.visitor)
    (hold : (n.task p).state = s) : ((code t c f n).1.task p).state = s := by
  obtain ⟨-, hqueue, hqueued, hnone⟩ := h.queued_of_traversal hq hg hy hs hp hqueue'
  have hw : 0 < waiting n (f ::ₘ others) p := by
    rw [waiting, Multiset.count_pos, work]
    exact Multiset.mem_add.mpr (Or.inl (Multiset.mem_map.mpr ⟨p, hqueued, rfl⟩))
  rcases h.state_exec hg hw hqueue with he | ⟨hm, -⟩ | ⟨z, hz, hsz⟩
  · rw [he]
    exact hold
  · exact absurd hm (hnone f (Multiset.mem_cons_self _ _))
  · rw [hown z hz (by rw [hsz]; rfl), hs] at hsz
    exact (Option.some.inj hsz).symm

/-- A traversal that begins has all worker queues before it. -/
theorem rest_of_stores {x : Progress} (hstores : f.stores q = true)
    (hx : x ∈ f.nextTraversal n) : x.rest = n.processOrder := by
  obtain ⟨finite, rfl⟩ | rfl := stores_cases hstores
  · cases List.mem_singleton.mp hx
    rfl
  · simp only [Frame.nextTraversal] at hx
    split at hx
    · cases List.mem_singleton.mp hx
      rfl
    · exact absurd hx List.not_mem_nil

theorem marked_exec (h : QuietQueue q n l (f ::ₘ others)) (hq : q.id ≠ idPoolInvalidId)
    (hg : KeepsQueue q t c f n l (f ::ₘ others)) {x : Progress}
    (hx : x ∈ traversals ((code t c f n).2 + others)) {s : TaskState}
    (hs : x.visitor.marks q = some s) (hp : p ∈ (code t c f n).1.queued)
    (hqueue' : ((code t c f n).1.task p).queue = q) :
    ((code t c f n).1.task p).state = s ∨ p ∈ x.todo (code t c f n).1 := by
  have hm : (x.visitor.marks q).isSome = true := by
    rw [hs]
    rfl
  rw [traversals_add, show (code t c f n).2.flatMap Frame.traversal = _ from exec_traversal t c f n,
    Multiset.mem_add] at hx
  rcases hx with hx | hx
  · rcases visitor_before (t := t) (c := c) (l := l) hx hm with ⟨hstores, -⟩ | ⟨y, hy, he⟩
    · right
      obtain ⟨r, hr, hpr⟩ := mem_queued hp
      rw [mem_todo]
      refine Or.inr ⟨r, ?_, hpr⟩
      rw [rest_of_stores hstores hx, ← n.processOrder_access (exec t c f n).1]
      exact hr
    · have hsy : y.visitor.marks q = some s := by
        rw [he]
        exact hs
      have hy' : y ∈ traversals (f ::ₘ others) := mem_traversals_self hy
      obtain ⟨-, hqueue, hqueued, -⟩ := h.queued_of_traversal hq hg hy' hsy hp hqueue'
      have hown : ∀ z ∈ f.traversal, (z.visitor.marks q).isSome = true →
          z.visitor = y.visitor := by
        intro z hz _
        cases f with
        | processTasks | processQueue | processState | processError | processDone =>
          cases List.mem_singleton.mp hy
          cases List.mem_singleton.mp hz
          rfl
        | _ => exact absurd hy List.not_mem_nil
      rcases h.marked y hy' s hsy p hqueued hqueue with hold | htodo
      · exact Or.inl (h.state_stays hq hg hy' hsy hp hqueue' hown hold)
      · rw [todo_own hy]
        exact h.todo_step hg hx hy hsy htodo
  · have hx' := mem_traversals_others (f := f) hx
    obtain ⟨hl, hqueue, hqueued, -⟩ := h.queued_of_traversal hq hg hx' hs hp hqueue'
    rcases h.marked x hx' s hs p hqueued hqueue with hold | htodo
    · refine Or.inl (h.state_stays hq hg hx' hs hp hqueue' (fun z hz hmz => ?_) hold)
      rw [h.unmarked_others hz hmz hx] at hs
      cases hs
    · exact Or.inr (h.todo_others hg hx hl hqueue htodo)

/-- A step keeps the queue quiet. -/
theorem step (h : QuietQueue q n l (f ::ₘ others)) (hq : q.id ≠ idPoolInvalidId)
    (hg : KeepsQueue q t c f n l (f ::ₘ others)) :
    QuietQueue q (code t c f n).1 (QueuePhase.record q t c f n l) ((code t c f n).2 + others) where
  toWorkCounted := workCounted_exec h.toWorkCounted hg.deletes (fun _ _ _ hI => hI)
    fun _ _ _ hI => hI
  locked := locked_preserved h.locked
  once := h.once_exec hg
  phase := fun _ hx _ hs => h.phase_exec hg hx hs
  aligned := fun _ hx hm _ _ hr => h.aligned_exec hg hx hm hr
  visited := fun _ _ _ _ _ _ hmem hm => h.visited_exec hmem hm
  marked := fun _ hx _ hs _ hp hqueue => h.marked_exec hq hg hx hs hp hqueue
  circulating := fun hl _ hgm _ hw hp => h.circulating_exec hq hg hl hgm hw hp
  retained := fun hl _ hw hp => h.retained_exec hq hg hl hw hp
  again := fun hl _ hw hp hr => h.again_exec hq hg hl hw hp hr

end QuietQueue

end Embb.Mtapi
