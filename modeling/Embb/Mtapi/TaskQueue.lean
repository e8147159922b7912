import Mathlib.Data.List.ReduceOption
import Embb.Lib.Circular
import Embb.Mtapi.Types

/-!
# Task queues

The ring buffer behind every worker queue and every group queue. The fields
carry the relation between the two positions and the fill level, so each
operation proves it once and every later argument may read the queue as the
list of its tasks, oldest first.
-/

namespace Embb.Mtapi

open Circular

/-- `embb_mtapi_task_queue_struct` with its limit attribute. -/
structure TaskQueue where
  taskBuffer : Nat → Option Ptr
  tasksAvailable : Nat
  getTaskPosition : Nat
  putTaskPosition : Nat
  limit : Nat
  /-- Held while a visitor runs over the queue. -/
  lock : Bool
  available_le : tasksAvailable ≤ limit
  get_lt : getTaskPosition < limit ∨ limit = 0
  put_eq : putTaskPosition = (getTaskPosition + tasksAvailable) % limit
  entries : ∀ i < tasksAvailable, (taskBuffer ((getTaskPosition + i) % limit)).isSome = true

namespace TaskQueue

/-- `embb_mtapi_task_queue_initialize_with_capacity`. -/
def initWithCapacity (capacity : Nat) : TaskQueue where
  taskBuffer := fun _ => none
  tasksAvailable := 0
  getTaskPosition := 0
  putTaskPosition := 0
  limit := capacity
  lock := false
  available_le := Nat.zero_le _
  get_lt := by omega
  put_eq := by simp
  entries := by simp

/-- The tasks held by the queue, oldest first. -/
def tasks (q : TaskQueue) : List Ptr :=
  (window q.taskBuffer q.limit q.getTaskPosition q.tasksAvailable).reduceOption

theorem window_eq (q : TaskQueue) :
    window q.taskBuffer q.limit q.getTaskPosition q.tasksAvailable = q.tasks.map some := by
  have h : ∀ x ∈ window q.taskBuffer q.limit q.getTaskPosition q.tasksAvailable,
      x.isSome = true := by
    intro x hx
    obtain ⟨i, hi, rfl⟩ := mem_window.mp hx
    exact q.entries i hi
  unfold tasks
  generalize window q.taskBuffer q.limit q.getTaskPosition q.tasksAvailable = xs at h
  induction xs with
  | nil => rfl
  | cons x xs ih =>
    obtain ⟨p, rfl⟩ := Option.isSome_iff_exists.mp (h x (List.mem_cons_self ..))
    rw [List.reduceOption_cons_of_some, List.map_cons, ← ih]
    intro y hy
    exact h y (List.mem_cons_of_mem _ hy)

/-- The fill level counts the listed tasks. -/
theorem length_tasks (q : TaskQueue) : q.tasks.length = q.tasksAvailable := by
  have h := congrArg List.length q.window_eq
  simpa only [length_window, List.length_map] using h.symm

@[simp] theorem tasks_initWithCapacity (capacity : Nat) :
    (initWithCapacity capacity).tasks = [] := rfl

/-- `embb_mtapi_task_queue_push`, with the lock obtained. -/
def push (q : TaskQueue) (task : Ptr) : TaskQueue × Bool :=
  if h : q.tasksAvailable < q.limit then
    ({ q with
        taskBuffer := Function.update q.taskBuffer q.putTaskPosition (some task)
        putTaskPosition := next q.putTaskPosition q.limit
        tasksAvailable := q.tasksAvailable + 1
        available_le := h
        put_eq := by
          have hp : q.putTaskPosition < q.limit := by
            rw [q.put_eq]
            exact Nat.mod_lt _ (by omega)
          rw [next_eq_mod hp, q.put_eq, Nat.mod_add_mod, Nat.add_assoc]
        entries := by
          intro i hi
          by_cases he : (q.getTaskPosition + i) % q.limit = q.putTaskPosition
          · rw [he, Function.update_self, Option.isSome_some]
          · rw [Function.update_of_ne he]
            refine q.entries i ?_
            have hne : i ≠ q.tasksAvailable := fun hi => he (by rw [hi, q.put_eq])
            omega }, true)
  else (q, false)

/-- `embb_mtapi_task_queue_pop`, with the lock obtained. -/
def pop (q : TaskQueue) : TaskQueue × Option Ptr :=
  if h : 0 < q.tasksAvailable then
    ({ q with
        tasksAvailable := q.tasksAvailable - 1
        getTaskPosition := next q.getTaskPosition q.limit
        taskBuffer := Function.update q.taskBuffer q.getTaskPosition none
        available_le := le_trans (Nat.sub_le _ _) q.available_le
        get_lt := by
          have ha := q.available_le
          rcases q.get_lt with hg | hg
          · exact Or.inl (next_lt hg)
          · omega
        put_eq := by
          have ha := q.available_le
          have hg : q.getTaskPosition < q.limit := q.get_lt.resolve_right (by omega)
          rw [next_eq_mod hg, Nat.mod_add_mod, q.put_eq]
          congr 1
          omega
        entries := by
          intro i hi
          have ha := q.available_le
          have hg : q.getTaskPosition < q.limit := q.get_lt.resolve_right (by omega)
          have hs : (next q.getTaskPosition q.limit + i) % q.limit =
              (q.getTaskPosition + (i + 1)) % q.limit := by
            rw [next_eq_mod hg, Nat.mod_add_mod, Nat.add_assoc, Nat.add_comm 1 i]
          rw [hs, Function.update_of_ne]
          · exact q.entries (i + 1) (by omega)
          · intro he
            have hz : (q.getTaskPosition + (i + 1)) % q.limit =
                (q.getTaskPosition + 0) % q.limit := by
              rw [he, Nat.add_zero, Nat.mod_eq_of_lt hg]
            have := add_mod_inj (by omega) (by omega) hz
            omega }, q.taskBuffer q.getTaskPosition)
  else (q, none)

/-- A push succeeds exactly when the queue is not full. -/
theorem push_snd (q : TaskQueue) (task : Ptr) :
    (q.push task).2 = decide (q.tasks.length < q.limit) := by
  rw [length_tasks]
  unfold push
  split <;> simp_all

/-- A successful push appends the task. -/
theorem tasks_push_of_true {q : TaskQueue} {task : Ptr} (h : (q.push task).2 = true) :
    (q.push task).1.tasks = q.tasks ++ [task] := by
  have hl : q.tasksAvailable < q.limit := by
    simpa only [push_snd, length_tasks, decide_eq_true_eq] using h
  simp only [push, hl, ↓reduceDIte, tasks]
  rw [q.put_eq, window_push _ _ hl, List.reduceOption_append]
  rfl

/-- A refused push leaves the queue as it was. -/
theorem push_of_false {q : TaskQueue} {task : Ptr} (h : (q.push task).2 = false) :
    (q.push task).1 = q := by
  unfold push at h ⊢
  split
  · rename_i hl
    simp [hl] at h
  · rfl

/-- Taking a task returns the oldest one and keeps the others in order. -/
theorem pop_spec (q : TaskQueue) :
    (q.pop.2 = none ∧ q.tasks = [] ∧ q.pop.1 = q) ∨
      ∃ task, q.pop.2 = some task ∧ q.tasks = task :: q.pop.1.tasks := by
  by_cases h : 0 < q.tasksAvailable
  · right
    have ha := q.available_le
    have hg : q.getTaskPosition < q.limit := q.get_lt.resolve_right (by omega)
    obtain ⟨n, hn⟩ : ∃ n, q.tasksAvailable = n + 1 := ⟨q.tasksAvailable - 1, by omega⟩
    have hhead : (q.taskBuffer q.getTaskPosition).isSome = true := by
      simpa only [Nat.add_zero, Nat.mod_eq_of_lt hg] using q.entries 0 h
    obtain ⟨task, ht⟩ := Option.isSome_iff_exists.mp hhead
    refine ⟨task, by simp [pop, h, ht], ?_⟩
    simp only [pop, h, ↓reduceDIte, tasks]
    rw [hn, window_pop q.taskBuffer none hg (by omega), next_eq_mod hg, ht,
      List.reduceOption_cons_of_some, Nat.add_sub_cancel]
  · left
    have hz : q.tasksAvailable = 0 := by omega
    refine ⟨by simp [pop, hz], ?_, by simp [pop, hz]⟩
    rw [← List.length_eq_zero_iff, length_tasks, hz]

theorem tasks_of_pop_none {q : TaskQueue} (h : q.pop.2 = none) : q.tasks = [] := by
  rcases q.pop_spec with ⟨_, ht, _⟩ | ⟨task, ht, _⟩
  · exact ht
  · rw [h] at ht
    cases ht

theorem pop_of_none {q : TaskQueue} (h : q.pop.2 = none) : q.pop.1 = q := by
  rcases q.pop_spec with ⟨_, _, he⟩ | ⟨task, ht, _⟩
  · exact he
  · rw [h] at ht
    cases ht

theorem tasks_of_pop_some {q : TaskQueue} {task : Ptr} (h : q.pop.2 = some task) :
    q.tasks = task :: q.pop.1.tasks := by
  rcases q.pop_spec with ⟨hn, _, _⟩ | ⟨t, ht, hq⟩
  · rw [h] at hn
    cases hn
  · rw [h] at ht
    cases ht
    exact hq

@[simp] theorem limit_push (q : TaskQueue) (task : Ptr) : (q.push task).1.limit = q.limit := by
  unfold push
  split <;> rfl

@[simp] theorem limit_pop (q : TaskQueue) : q.pop.1.limit = q.limit := by
  unfold pop
  split <;> rfl

@[simp] theorem lock_push (q : TaskQueue) (task : Ptr) : (q.push task).1.lock = q.lock := by
  unfold push
  split <;> rfl

@[simp] theorem lock_pop (q : TaskQueue) : q.pop.1.lock = q.lock := by
  unfold pop
  split <;> rfl

/-- The spinlock word of the queue. -/
def setLock (q : TaskQueue) (held : Bool) : TaskQueue := { q with lock := held }

@[simp] theorem tasks_setLock (q : TaskQueue) (held : Bool) : (q.setLock held).tasks = q.tasks :=
  rfl

@[simp] theorem limit_setLock (q : TaskQueue) (held : Bool) : (q.setLock held).limit = q.limit :=
  rfl

end TaskQueue

end Embb.Mtapi
