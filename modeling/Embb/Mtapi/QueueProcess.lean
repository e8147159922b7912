import Mathlib.Data.List.Rotate
import Embb.Lib.Visit
import Embb.Mtapi.TaskQueue

/-!
# Visiting a task queue

`embb_mtapi_task_queue_process` counts through the buffer from its start, while the tasks start
at the position of the next get. The position that the loop keeps up to date for this purpose is
not used.
-/

namespace Embb.Mtapi

open Circular Visit

namespace TaskQueue

/-- The loop of `embb_mtapi_task_queue_process` from index `ii` on. -/
def processLoop {S : Type} (q : TaskQueue) (process : Option Ptr → S → S × Bool) :
    (count ii : Nat) → S → S × Bool
  | 0, _, userData => (userData, true)
  | count + 1, ii, userData =>
    let result := process (q.taskBuffer ii) userData
    if result.2 then processLoop q process count (ii + 1) result.1 else result

/-- `embb_mtapi_task_queue_process`; the lock is released at the end. -/
def process {S : Type} (q : TaskQueue) (process : Option Ptr → S → S × Bool) (userData : S) :
    TaskQueue × S × Bool :=
  ((q.setLock true).setLock false,
    (q.setLock true).processLoop process q.tasksAvailable 0 userData)

/-- The entries at which the loop looks. -/
def scanned (q : TaskQueue) : List (Option Ptr) := (List.range q.tasksAvailable).map q.taskBuffer

theorem processLoop_eq {S : Type} (q : TaskQueue) (f : Option Ptr → S → S × Bool)
    (count ii : Nat) (s : S) :
    q.processLoop f count ii s = visit f ((List.range' ii count).map q.taskBuffer) s := by
  induction count generalizing ii s with
  | zero => rfl
  | succ count ih =>
    simp only [processLoop, List.range'_succ, List.map_cons, visit]
    split
    · exact ih (ii + 1) _
    · rfl

theorem process_snd {S : Type} (q : TaskQueue) (f : Option Ptr → S → S × Bool) (s : S) :
    (q.process f s).2 = visit f q.scanned s := by
  simp only [process, processLoop_eq, scanned, List.range_eq_range']
  rfl

@[simp] theorem length_scanned (q : TaskQueue) : q.scanned.length = q.tasksAvailable := by
  simp only [scanned, List.length_map, List.length_range]

theorem getElem?_scanned (q : TaskQueue) {i : Nat} (hi : i < q.tasksAvailable) :
    q.scanned[i]? = some (q.taskBuffer i) := by
  simp only [scanned, List.getElem?_map, List.getElem?_range hi, Option.map_some]

theorem getElem?_tasks (q : TaskQueue) {i : Nat} (hi : i < q.tasksAvailable) :
    (q.tasks.map some)[i]? = some (q.taskBuffer ((q.getTaskPosition + i) % q.limit)) := by
  rw [← q.window_eq, getElem?_window q.taskBuffer hi]

/-- The queues that pushes and pops lead to. -/
inductive Reached : TaskQueue → Prop
  | init (capacity : Nat) : Reached (initWithCapacity capacity)
  | push {q : TaskQueue} (task : Ptr) : Reached q → Reached (q.push task).1
  | pop {q : TaskQueue} : Reached q → Reached q.pop.1

namespace Reached

variable {q : TaskQueue}

theorem lock_eq (h : q.Reached) : q.lock = false := by
  induction h with
  | init => rfl
  | push task _ ih => rw [lock_push, ih]
  | pop _ ih => rw [lock_pop, ih]

/-- A slot without a task is empty. -/
theorem empty (h : q.Reached) {j : Nat} (hj : j < q.limit)
    (hfree : ∀ i < q.tasksAvailable, (q.getTaskPosition + i) % q.limit ≠ j) :
    q.taskBuffer j = none := by
  induction h with
  | init => rfl
  | @push q task _ ih =>
    rw [limit_push] at hj
    by_cases hl : q.tasksAvailable < q.limit
    · simp only [TaskQueue.push, hl, ↓reduceDIte] at hfree ⊢
      have hput : j ≠ q.putTaskPosition := by
        intro he
        exact hfree q.tasksAvailable (Nat.lt_succ_self _) (by rw [he, q.put_eq])
      rw [Function.update_of_ne hput]
      exact ih hj fun i hi => hfree i (by omega)
    · simp only [TaskQueue.push, hl, ↓reduceDIte] at hfree ⊢
      exact ih hj hfree
  | @pop q _ ih =>
    rw [limit_pop] at hj
    by_cases hl : 0 < q.tasksAvailable
    · simp only [TaskQueue.pop, hl, ↓reduceDIte] at hfree ⊢
      have ha := q.available_le
      have hg : q.getTaskPosition < q.limit := q.get_lt.resolve_right (by omega)
      by_cases hget : j = q.getTaskPosition
      · rw [hget, Function.update_self]
      · rw [Function.update_of_ne hget]
        refine ih hj fun i hi he => ?_
        cases i with
        | zero =>
          rw [Nat.add_zero, Nat.mod_eq_of_lt hg] at he
          exact hget he.symm
        | succ i =>
          refine hfree i (by omega) ?_
          rw [next_eq_mod hg, Nat.mod_add_mod, Nat.add_assoc, Nat.add_comm 1 i]
          exact he
    · simp only [TaskQueue.pop, hl, ↓reduceDIte] at hfree ⊢
      exact ih hj hfree

/-- The entries from the start of the buffer are tasks of the queue, or empty. -/
theorem mem_tasks_of_scanned (h : q.Reached) {p : Ptr} (hp : some p ∈ q.scanned) :
    p ∈ q.tasks := by
  obtain ⟨j, hj, hb⟩ := List.mem_map.mp hp
  have hlt : j < q.limit := lt_of_lt_of_le (List.mem_range.mp hj) q.available_le
  by_contra hnot
  have hnone := h.empty hlt fun i hi he => by
    have hmem : some p ∈ q.tasks.map some := by
      rw [← q.window_eq]
      exact mem_window.mpr ⟨i, hi, by rw [he, hb]⟩
    obtain ⟨p', hp', he'⟩ := List.mem_map.mp hmem
    cases he'
    exact hnot hp'
  rw [hb] at hnone
  cases hnone

end Reached

/-- The visitor is called on the tasks of the queue, oldest first, up to the first one for which
it returns `false`, and the queue is left as it is. -/
def VisitsTasks {S : Type} (q : TaskQueue) (f : Option Ptr → S → S × Bool) (s : S) : Prop :=
  (q.process (recording f) (s, [])).1 = q ∧
    (q.process (recording f) (s, [])).2.1.2 = visited f (q.tasks.map some) s

/-- The buffer reads the same from its start and from the oldest task. -/
def Aligned (q : TaskQueue) : Prop :=
  q.tasksAvailable = 0 ∨ q.getTaskPosition = 0 ∨
    (q.tasksAvailable = q.limit ∧ q.tasks.rotate q.getTaskPosition = q.tasks)

theorem process_unchanged {S : Type} {q : TaskQueue} (h : q.Reached)
    (f : Option Ptr → S → S × Bool) (s : S) : (q.process f s).1 = q := by
  have hlock := h.lock_eq
  simp only [process, setLock]
  rw [← hlock]

/-- What a visitor sees is decided by the entries as far as it would have to go. -/
theorem visitsTasks_iff {S : Type} {q : TaskQueue} (h : q.Reached)
    (f : Option Ptr → S → S × Bool) (s : S) :
    q.VisitsTasks f s ↔ ∀ i < (visited f (q.tasks.map some) s).length,
      q.taskBuffer i = q.taskBuffer ((q.getTaskPosition + i) % q.limit) := by
  have hlen : q.scanned.length = (q.tasks.map some).length := by
    rw [length_scanned, List.length_map, length_tasks]
  rw [VisitsTasks, process_unchanged h, process_snd, visit_recording, List.nil_append,
    visited_eq_iff f hlen]
  simp only [true_and]
  refine forall_congr' fun i => imp_congr_right fun hi => ?_
  have hav : i < q.tasksAvailable := by
    have hle := length_visited_le f (q.tasks.map some) s
    rw [List.length_map, length_tasks] at hle
    omega
  rw [getElem?_scanned q hav, getElem?_tasks q hav, Option.some.injEq]

/-- A buffer that is not full shows an empty slot when it is read from its start. -/
theorem exists_ne {q : TaskQueue} (h : q.Reached) (hpos : 0 < q.tasksAvailable)
    (hget : 0 < q.getTaskPosition) (hfull : q.tasksAvailable < q.limit) :
    ∃ i < q.tasksAvailable,
      q.taskBuffer i ≠ q.taskBuffer ((q.getTaskPosition + i) % q.limit) := by
  have hg : q.getTaskPosition < q.limit := q.get_lt.resolve_right (by omega)
  refine ⟨min q.getTaskPosition q.tasksAvailable - 1, by omega, fun he => ?_⟩
  have hsome := q.entries (min q.getTaskPosition q.tasksAvailable - 1) (by omega)
  rw [← he, h.empty (by omega) fun i hi hi' => ?_] at hsome
  · cases hsome
  · -- the occupied slots go round from the position of the next get
    rcases Nat.lt_or_ge (q.getTaskPosition + i) q.limit with hlt | hge
    · rw [Nat.mod_eq_of_lt hlt] at hi'
      omega
    · rw [Nat.mod_eq_sub_mod hge, Nat.mod_eq_of_lt (by omega)] at hi'
      omega

theorem rotate_eq_iff {q : TaskQueue} (hfull : q.tasksAvailable = q.limit) :
    q.tasks.rotate q.getTaskPosition = q.tasks ↔
      ∀ i < q.limit, q.taskBuffer i = q.taskBuffer ((q.getTaskPosition + i) % q.limit) := by
  have hentry : ∀ i < q.limit, q.tasks[i]?.map some =
      some (q.taskBuffer ((q.getTaskPosition + i) % q.limit)) := fun i hi => by
    rw [← List.getElem?_map]
    exact q.getElem?_tasks (by omega)
  have hlength : q.tasks.length = q.limit := by rw [length_tasks, hfull]
  have hrotate : ∀ i < q.limit, ((q.tasks.rotate q.getTaskPosition)[i]?).map some =
      some (q.taskBuffer ((q.getTaskPosition + (q.getTaskPosition + i) % q.limit) % q.limit)) :=
    fun i hi => by
      rw [List.getElem?_rotate (by omega), hlength, Nat.add_comm i]
      exact hentry _ (Nat.mod_lt _ (by omega))
  constructor
  · intro h i hi
    have hg : q.getTaskPosition < q.limit := q.get_lt.resolve_right (by omega)
    -- the entry at index `i` is the one at this offset from the position of the next get
    have hoff :
        (q.getTaskPosition + (i + q.limit - q.getTaskPosition) % q.limit) % q.limit = i := by
      rw [Nat.add_mod_mod]
      have he : q.getTaskPosition + (i + q.limit - q.getTaskPosition) = i + q.limit := by omega
      rw [he, Nat.add_mod_right, Nat.mod_eq_of_lt hi]
    have hlt : (i + q.limit - q.getTaskPosition) % q.limit < q.limit := Nat.mod_lt _ (by omega)
    have h1 := hentry _ hlt
    have h2 := hrotate _ hlt
    rw [h, hoff] at h2
    rw [hoff] at h1
    exact Option.some.inj (h1.symm.trans h2)
  · intro h
    refine List.ext_getElem? fun i => ?_
    by_cases hi : i < q.limit
    · have h1 := hentry i hi
      have h2 := hrotate i hi
      rw [← h _ (Nat.mod_lt _ (by omega)), ← h1] at h2
      exact Option.map_injective (Option.some_injective _) h2
    · rw [List.getElem?_eq_none (by rw [List.length_rotate]; omega),
        List.getElem?_eq_none (by omega)]

theorem aligned_iff {q : TaskQueue} (h : q.Reached) :
    q.Aligned ↔ ∀ i < q.tasksAvailable,
      q.taskBuffer i = q.taskBuffer ((q.getTaskPosition + i) % q.limit) := by
  have hle := q.available_le
  constructor
  · rintro (hzero | hget | ⟨hfull, hrot⟩) i hi
    · omega
    · rw [hget, Nat.zero_add, Nat.mod_eq_of_lt (by omega)]
    · exact (rotate_eq_iff hfull).mp hrot i (by omega)
  · intro hall
    by_contra hn
    simp only [Aligned, not_or, not_and] at hn
    obtain ⟨hzero, hget, hrot⟩ := hn
    rcases Nat.lt_or_ge q.tasksAvailable q.limit with hlt | hge
    · obtain ⟨i, hi, hne⟩ := exists_ne h (by omega) (by omega) hlt
      exact hne (hall i hi)
    · have hfull : q.tasksAvailable = q.limit := by omega
      exact hrot hfull ((rotate_eq_iff hfull).mpr fun i hi => hall i (by omega))

/-- A visitor that wants to see everything. -/
def visitEvery (_ : Option Ptr) (_ : Unit) : Unit × Bool := ((), true)

/-- The tasks are visited in their order, for one visitor, exactly when the entries agree as far
as it has to go, and for all visitors exactly when the buffer is aligned. -/
theorem process_visits_tasks {q : TaskQueue} (h : q.Reached) :
    (∀ (S : Type) (f : Option Ptr → S → S × Bool) (s : S),
      q.VisitsTasks f s ↔ ∀ i < (visited f (q.tasks.map some) s).length,
        q.taskBuffer i = q.taskBuffer ((q.getTaskPosition + i) % q.limit)) ∧
    ((∀ (S : Type) (f : Option Ptr → S → S × Bool) (s : S), q.VisitsTasks f s) ↔ q.Aligned) := by
  refine ⟨fun S f s => visitsTasks_iff h f s, ?_⟩
  rw [aligned_iff h]
  constructor
  · intro hall
    have hevery := (visitsTasks_iff h visitEvery ()).mp (hall Unit visitEvery ())
    rw [visited_of_forall (fun _ _ => rfl), List.length_map, length_tasks] at hevery
    exact hevery
  · intro hall S f s
    refine (visitsTasks_iff h f s).mpr fun i hi => hall i ?_
    have hle := length_visited_le f (q.tasks.map some) s
    rw [List.length_map, length_tasks] at hle
    omega

/-- A queue of two slots after two pushes, a pop and a third push. -/
def wrapped : TaskQueue :=
  (((((initWithCapacity 2).push ⟨0, 1⟩).1.push ⟨0, 2⟩).1.pop.1).push ⟨0, 3⟩).1

theorem reached_wrapped : wrapped.Reached := .push _ (.pop (.push _ (.push _ (.init 2))))

theorem process_visits_tasks_wrapped : ¬ wrapped.Aligned :=
  fun hal => by
    have hall := ((process_visits_tasks reached_wrapped).2).mpr hal Unit visitEvery ()
    exact absurd hall.2 (by decide)

/-- The newer task is visited first. -/
theorem process_out_of_order :
    ¬ ∀ q : TaskQueue, q.Reached → ∀ (S : Type) (f : Option Ptr → S → S × Bool) (s : S),
      q.VisitsTasks f s := by
  intro hall
  exact absurd (hall wrapped reached_wrapped Unit visitEvery ()).2 (by decide)

end TaskQueue

end Embb.Mtapi
