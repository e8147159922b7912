import Mathlib.Data.List.TakeWhile
import Embb.Mtapi.QueueProcess
import Embb.Mtapi.Scheduler.Machine

/-!
# Visiting the waiting tasks

Deleting or disabling a queue or an action calls a visitor on the tasks in the queues of the
workers. The visitor returns whether the task was one of those that it looks for, and the loops
end when it was not.
-/

namespace Embb.Mtapi

open Visit

/-- What a visitor does to a task that it looks for. -/
def Task.mark (change : TaskState × Option Status) (x : Task) : Task :=
  { x with state := change.1, errorCode := change.2.getD x.errorCode }

namespace Node

/-- A call of a visitor; to look at an empty slot is to follow a null pointer. -/
def callVisitor (v : Visitor) : Option Ptr → Option Node → Option Node × Bool
  | some p, some n =>
    if n.visits p v then (some (n.modifyTask p (Task.mark (n.visitorState v))), true)
    else (some n, false)
  | _, _ => (none, false)

/-- `embb_mtapi_thread_context_process_tasks`. -/
def threadContextProcessTasks (n : Node) (v : Visitor) (worker : Nat) (node : Option Node) :
    Option Node × Bool :=
  visit (fun ii node =>
    let result := ((n.workerQueue ⟨worker, true, ii⟩).process (callVisitor v) node).2
    if result.2 then ((n.workerQueue ⟨worker, false, ii⟩).process (callVisitor v) result.1).2
    else result) (List.range n.attributes.maxPriorities) node

/-- `embb_mtapi_scheduler_process_tasks`. -/
def schedulerProcessTasks (n : Node) (v : Visitor) : Option Node :=
  (visit (fun ii node => n.threadContextProcessTasks v ii node) (List.range n.workerCount)
    (some n)).1

/-- The entries at which the loops look. -/
def entries (n : Node) : List (Option Ptr) :=
  n.processOrder.flatMap fun r => (n.workerQueue r).scanned

theorem schedulerProcessTasks_eq (n : Node) (v : Visitor) :
    n.schedulerProcessTasks v = (visit (callVisitor v) n.entries (some n)).1 := by
  have hqueues : ∀ ii prio node, visit (callVisitor v)
      ([(⟨ii, true, prio⟩ : QueueRef), ⟨ii, false, prio⟩].flatMap fun r =>
        (n.workerQueue r).scanned) node =
      (let result := ((n.workerQueue ⟨ii, true, prio⟩).process (callVisitor v) node).2
      if result.2 then ((n.workerQueue ⟨ii, false, prio⟩).process (callVisitor v) result.1).2
      else result) := by
    intro ii prio node
    simp only [List.flatMap_cons, List.flatMap_nil, List.append_nil, visit_append,
      TaskQueue.process_snd]
  rw [schedulerProcessTasks, entries, processOrder, List.flatMap_assoc, visit_flatMap]
  congr 2
  funext ii node
  rw [threadContextProcessTasks, List.flatMap_assoc, visit_flatMap]
  congr 1
  funext prio node
  exact (hqueues ii prio node).symm

/-- The entry is one that the visitor looks for. -/
def matched (n : Node) (v : Visitor) : Option Ptr → Bool
  | some p => n.visits p v
  | none => false

/-- The entries before the first one that is foreign or empty. -/
def reachedEntries (n : Node) (v : Visitor) : List (Option Ptr) :=
  n.entries.takeWhile (n.matched v)

/-- The marks of a visitor do not change what it looks for. -/
theorem visits_mark (n : Node) (p q : Ptr) (v : Visitor) (change : TaskState × Option Status) :
    (n.modifyTask q (Task.mark change)).visits p v = n.visits p v := by
  have hqueue : ((n.modifyTask q (Task.mark change)).task p).queue = (n.task p).queue :=
    n.taskPool.field_modify q.id p.id Task.queue fun _ => rfl
  have haction : ((n.modifyTask q (Task.mark change)).task p).action = (n.task p).action :=
    n.taskPool.field_modify q.id p.id Task.action fun _ => rfl
  cases v <;> simp only [visits, hqueue, haction] <;> rfl

theorem visitorState_mark (n : Node) (q : Ptr) (v : Visitor)
    (change : TaskState × Option Status) :
    (n.modifyTask q (Task.mark change)).visitorState v = n.visitorState v := by
  cases v <;> rfl

theorem mark_mark (change : TaskState × Option Status) (x : Task) :
    Task.mark change (Task.mark change x) = Task.mark change x := by
  obtain ⟨state, status⟩ := change
  cases status <;> rfl

/-- The tasks of some entries are marked. -/
def marked (n : Node) (v : Visitor) (xs : List (Option Ptr)) : Node :=
  xs.reduceOption.foldl (fun n p => n.modifyTask p (Task.mark (n.visitorState v))) n

/-- The visit marks the entries before the first foreign one, unless an empty slot comes first. -/
theorem visit_callVisitor (n : Node) (v : Visitor) (xs : List (Option Ptr)) :
    (visit (callVisitor v) xs (some n)).1 =
      if (xs.dropWhile (n.matched v)).head? = some none then none
      else some (n.marked v (xs.takeWhile (n.matched v))) := by
  induction xs generalizing n with
  | nil => rfl
  | cons x xs ih =>
    cases x with
    | none => simp [visit, callVisitor, matched]
    | some p =>
      by_cases hp : n.visits p v = true
      · have hm : (n.modifyTask p (Task.mark (n.visitorState v))).matched v = n.matched v := by
          funext y
          cases y with
          | none => rfl
          | some q => exact visits_mark n q p v _
        have hgo := ih (n.modifyTask p (Task.mark (n.visitorState v)))
        rw [hm] at hgo
        simp only [visit, callVisitor, hp, if_true, hgo, matched, List.dropWhile_cons,
          List.takeWhile_cons]
        rfl
      · simp [visit, callVisitor, matched, hp, marked]

theorem task_marked (n : Node) (v : Visitor) (xs : List (Option Ptr)) (p : Ptr) :
    (n.marked v xs).task p =
      if p.id ∈ xs.reduceOption.map Handle.id then (n.task p).mark (n.visitorState v)
      else n.task p := by
  rw [marked]
  induction xs.reduceOption generalizing n with
  | nil => rfl
  | cons q qs ih =>
    rw [List.foldl_cons, ih, visitorState_mark]
    by_cases hq : q.id = p.id
    · have hself : (n.modifyTask q (Task.mark (n.visitorState v))).task p =
          (n.task p).mark (n.visitorState v) := by
        simp only [task, modifyTask_taskPool, ← hq, Pool.storage_modify_self]
      rw [hself, mark_mark, ite_self, if_pos (by rw [List.map_cons, hq]; exact List.mem_cons_self)]
    · have hother : (n.modifyTask q (Task.mark (n.visitorState v))).task p = n.task p :=
        task_modifyTask_of_ne n _ fun he => hq he.symm
      rw [hother]
      simp only [List.map_cons, List.mem_cons, Ne.symm hq, false_or]

/-- The task waits in a queue of a worker. -/
def Waits (n : Node) (p : Ptr) : Prop :=
  ∃ r ∈ n.processOrder, ∃ q ∈ (n.workerQueue r).tasks, q.id = p.id

/-- The traversal is over, and has changed the waiting tasks that the visitor looks for and no
others. -/
def ReachesAll (n : Node) (v : Visitor) : Prop :=
  ∃ n', n.schedulerProcessTasks v = some n' ∧ ∀ p,
    (n.Waits p → n.visits p v = true → n'.task p = (n.task p).mark (n.visitorState v)) ∧
      (¬ (n.Waits p ∧ n.visits p v = true) → n'.task p = n.task p)

/-- The entries before the first one that is foreign or empty, which is not empty, are those of
all waiting tasks that the visitor has to change. -/
def InFront (n : Node) (v : Visitor) : Prop :=
  (n.entries.dropWhile (n.matched v)).head? ≠ some none ∧
    ∀ p, n.Waits p → n.visits p v = true → (n.task p).mark (n.visitorState v) ≠ n.task p →
      p.id ∈ (n.reachedEntries v).reduceOption.map Handle.id

/-- What is read from a buffer is one of its tasks. -/
theorem waits_of_entry {n : Node} (hq : ∀ r, (n.workerQueue r).Reached) {p : Ptr}
    (hp : some p ∈ n.entries) : n.Waits p := by
  obtain ⟨r, hr, hp⟩ := List.mem_flatMap.mp hp
  exact ⟨r, hr, p, (hq r).mem_tasks_of_scanned hp, rfl⟩

theorem visits_congr (n : Node) {p q : Ptr} (h : q.id = p.id) (v : Visitor) :
    n.visits q v = n.visits p v := by
  have htask : n.task q = n.task p := by rw [task, h]
  cases v <;> simp only [visits, htask]

theorem visits_of_reached {n : Node} {v : Visitor} {q : Ptr} (hq : some q ∈ n.reachedEntries v) :
    n.visits q v = true := by
  have hmatched : n.matched v (some q) = true := List.mem_takeWhile_imp hq
  exact hmatched

/-- The traversal reaches all waiting tasks of a queue or an action exactly when they stand in
front of everything else. -/
theorem process_tasks {n : Node} (hq : ∀ r, (n.workerQueue r).Reached) (v : Visitor) :
    n.ReachesAll v ↔ n.InFront v := by
  have hfirst : n.entries.takeWhile (n.matched v) = n.reachedEntries v := rfl
  rw [ReachesAll, InFront, schedulerProcessTasks_eq, visit_callVisitor, hfirst]
  by_cases hnull : (n.entries.dropWhile (n.matched v)).head? = some none
  · refine iff_of_false ?_ fun h => h.1 hnull
    rintro ⟨n', hn', -⟩
    rw [if_pos hnull] at hn'
    cases hn'
  · rw [if_neg hnull]
    constructor
    · rintro ⟨n', hn', hall⟩
      refine ⟨hnull, fun p hw hv hne => ?_⟩
      have hmark := (hall p).1 hw hv
      rw [← Option.some.inj hn', task_marked] at hmark
      by_contra hout
      rw [if_neg hout] at hmark
      exact hne hmark.symm
    · rintro ⟨-, hfront⟩
      refine ⟨_, rfl, fun p => ⟨fun hw hv => ?_, fun hout => ?_⟩⟩
      · rw [task_marked]
        split
        · rfl
        · next hnot =>
          by_contra hne
          exact hnot (hfront p hw hv fun he => hne he.symm)
      · rw [task_marked, if_neg]
        intro hin
        obtain ⟨q, hqm, hid⟩ := List.mem_map.mp hin
        rw [List.reduceOption_mem_iff] at hqm
        obtain ⟨r, hr, q', hq', hid'⟩ := waits_of_entry hq ((List.takeWhile_subset _) hqm)
        exact hout ⟨⟨r, hr, q', hq', hid'.trans hid⟩,
          (visits_congr n hid v).symm.trans (visits_of_reached hqm)⟩

/-- One worker, an action, a task of the action and a task of another one, which wait in this
order or the other way round. -/
def twoTasks (first second : Ptr) : Node :=
  ((((Node.init (smallNode 1) .workStealVhpf).access (.actionCreate 1 ⟨1⟩)).access
    (.taskAction ⟨0, 1⟩ ⟨0, 1⟩)).access (.taskAction ⟨0, 2⟩ ⟨0, 2⟩)).setWorkerQueue ⟨0, false, 0⟩
      (((TaskQueue.initWithCapacity 2).push first).1.push second).1

theorem reached_twoTasks (first second : Ptr) (r : QueueRef) :
    ((twoTasks first second).workerQueue r).Reached := by
  by_cases hr : r = ⟨0, false, 0⟩
  · subst hr
    exact .push _ (.push _ (.init 2))
  · simp only [twoTasks, setWorkerQueue_workerQueue, Function.update_of_ne hr]
    exact .init _

theorem process_tasks_in_front : (twoTasks ⟨0, 1⟩ ⟨0, 2⟩).ReachesAll (.actionDelete ⟨0, 1⟩) := by
  refine (process_tasks (reached_twoTasks ⟨0, 1⟩ ⟨0, 2⟩) _).mpr ⟨by decide, fun p hw hv _ => ?_⟩
  have hids : ∀ r ∈ (twoTasks ⟨0, 1⟩ ⟨0, 2⟩).processOrder,
      ∀ q ∈ ((twoTasks ⟨0, 1⟩ ⟨0, 2⟩).workerQueue r).tasks, q.id = 1 ∨ q.id = 2 := by decide
  obtain ⟨r, hr, q, hq, hid⟩ := hw
  rw [← visits_congr _ hid] at hv
  rw [← hid]
  rcases hids r hr q hq with h | h
  · rw [h]
    decide
  · rw [visits_congr (q := q) (p := ⟨0, 2⟩) _ h] at hv
    exact absurd hv (by decide)

/-- Behind a foreign task nothing is reached. -/
theorem process_tasks_behind :
    (∀ r, ((twoTasks ⟨0, 2⟩ ⟨0, 1⟩).workerQueue r).Reached) ∧
      ¬ (twoTasks ⟨0, 2⟩ ⟨0, 1⟩).ReachesAll (.actionDelete ⟨0, 1⟩) := by
  refine ⟨reached_twoTasks _ _, fun hreaches => ?_⟩
  obtain ⟨n', hn', hall⟩ := hreaches
  have hstate : ((twoTasks ⟨0, 2⟩ ⟨0, 1⟩).schedulerProcessTasks (.actionDelete ⟨0, 1⟩)).map
      (fun n => (n.task ⟨0, 1⟩).state) = some .created := by decide
  have hmarked := (hall ⟨0, 1⟩).1 ⟨⟨0, false, 0⟩, by decide, ⟨0, 1⟩, by decide, rfl⟩ (by decide)
  rw [hn', Option.map_some, hmarked] at hstate
  exact absurd hstate (by decide)

end Node

end Embb.Mtapi
