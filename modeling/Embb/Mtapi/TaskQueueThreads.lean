import Embb.Lib.SpinLock
import Embb.Mtapi.TaskRing

/-!
# Task queues under threads

`embb_mtapi_task_queue_push` and `embb_mtapi_task_queue_pop` between the calls of the spin lock,
one access to a field of the queue a step. A pop gives up when it has not got the lock after 128
attempts. In every interleaving the calls that return are those of the bounded store, one after
the other.
-/

namespace Embb.Mtapi.TaskQueue

open Circular Threads

/-- The fields of `embb_mtapi_task_queue_struct` that the lock protects. -/
structure Fields where
  taskBuffer : ℕ → Option Ptr
  tasksAvailable : ℕ
  getTaskPosition : ℕ
  putTaskPosition : ℕ
  limit : ℕ

def fields (q : TaskQueue) : Fields :=
  ⟨q.taskBuffer, q.tasksAvailable, q.getTaskPosition, q.putTaskPosition, q.limit⟩

/-- The next access of a call and its local variables. -/
inductive Stage where
  | popTest
  | popAvailable
  | popTake (available : ℕ)
  | popPosition
  | popAdvance (taskPosition : ℕ)
  | popAdvanced (taskPosition position : ℕ)
  | popWrap (taskPosition : ℕ)
  | popReset (taskPosition : ℕ)
  | popFetch (taskPosition : ℕ)
  | popClear (taskPosition : ℕ) (task : Option Ptr)
  | pushTest (task : Ptr)
  | pushPosition (task : Ptr)
  | pushAdvance (task : Ptr) (taskPosition : ℕ)
  | pushAdvanced (task : Ptr) (taskPosition position : ℕ)
  | pushWrap (task : Ptr) (taskPosition : ℕ)
  | pushReset (task : Ptr) (taskPosition : ℕ)
  | pushStore (task : Ptr) (taskPosition : ℕ)
  | pushAvailable
  | pushGive (available : ℕ)

/-- The accesses of the two functions, in the order of their lines; an increment reads and
writes. -/
def access : Stage → Fields → Fields × (Stage ⊕ Fifo.Answer Ptr)
  | .popTest, q =>
    (q, if 0 < q.tasksAvailable then .inl .popAvailable else .inr (.popped none))
  | .popAvailable, q => (q, .inl (.popTake q.tasksAvailable))
  | .popTake available, q => ({ q with tasksAvailable := available - 1 }, .inl .popPosition)
  | .popPosition, q => (q, .inl (.popAdvance q.getTaskPosition))
  | .popAdvance taskPosition, q => (q, .inl (.popAdvanced taskPosition q.getTaskPosition))
  | .popAdvanced taskPosition position, q =>
    ({ q with getTaskPosition := position + 1 }, .inl (.popWrap taskPosition))
  | .popWrap taskPosition, q =>
    (q, if q.limit ≤ q.getTaskPosition then .inl (.popReset taskPosition)
      else .inl (.popFetch taskPosition))
  | .popReset taskPosition, q => ({ q with getTaskPosition := 0 }, .inl (.popFetch taskPosition))
  | .popFetch taskPosition, q => (q, .inl (.popClear taskPosition (q.taskBuffer taskPosition)))
  | .popClear taskPosition task, q =>
    ({ q with taskBuffer := Function.update q.taskBuffer taskPosition none },
      .inr (.popped task))
  | .pushTest task, q =>
    (q, if q.limit > q.tasksAvailable then .inl (.pushPosition task) else .inr (.pushed false))
  | .pushPosition task, q => (q, .inl (.pushAdvance task q.putTaskPosition))
  | .pushAdvance task taskPosition, q =>
    (q, .inl (.pushAdvanced task taskPosition q.putTaskPosition))
  | .pushAdvanced task taskPosition position, q =>
    ({ q with putTaskPosition := position + 1 }, .inl (.pushWrap task taskPosition))
  | .pushWrap task taskPosition, q =>
    (q, if q.limit ≤ q.putTaskPosition then .inl (.pushReset task taskPosition)
      else .inl (.pushStore task taskPosition))
  | .pushReset task taskPosition, q =>
    ({ q with putTaskPosition := 0 }, .inl (.pushStore task taskPosition))
  | .pushStore task taskPosition, q =>
    ({ q with taskBuffer := Function.update q.taskBuffer taskPosition (some task) },
      .inl .pushAvailable)
  | .pushAvailable, q => (q, .inl (.pushGive q.tasksAvailable))
  | .pushGive available, q =>
    ({ q with tasksAvailable := available + 1 }, .inr (.pushed true))

/-- A pop uses `embb_mtapi_spinlock_acquire_with_spincount`. -/
def object : SpinLock.Object Fields (Fifo.Call Ptr) (Fifo.Answer Ptr) Stage where
  enter
    | .push task => .pushTest task
    | .pop => .popTest
  access := access
  patience
    | .push _ => none
    | .pop => some 128

/-- What the fields are in the middle of a call that has found the queue as it was. -/
def During (q : TaskQueue) : Fifo.Call Ptr → Stage → Fields → Prop
  | .pop, .popTest, m => m = q.fields
  | .pop, .popAvailable, m => 0 < q.tasksAvailable ∧ m = q.fields
  | .pop, .popTake available, m =>
    0 < q.tasksAvailable ∧ available = q.tasksAvailable ∧ m = q.fields
  | .pop, .popPosition, m =>
    0 < q.tasksAvailable ∧ m = { q.fields with tasksAvailable := q.tasksAvailable - 1 }
  | .pop, .popAdvance taskPosition, m =>
    0 < q.tasksAvailable ∧ taskPosition = q.getTaskPosition ∧
      m = { q.fields with tasksAvailable := q.tasksAvailable - 1 }
  | .pop, .popAdvanced taskPosition position, m =>
    0 < q.tasksAvailable ∧ taskPosition = q.getTaskPosition ∧ position = q.getTaskPosition ∧
      m = { q.fields with tasksAvailable := q.tasksAvailable - 1 }
  | .pop, .popWrap taskPosition, m =>
    0 < q.tasksAvailable ∧ taskPosition = q.getTaskPosition ∧
      m = { q.fields with
        tasksAvailable := q.tasksAvailable - 1
        getTaskPosition := q.getTaskPosition + 1 }
  | .pop, .popReset taskPosition, m =>
    0 < q.tasksAvailable ∧ taskPosition = q.getTaskPosition ∧
      q.limit ≤ q.getTaskPosition + 1 ∧
      m = { q.fields with
        tasksAvailable := q.tasksAvailable - 1
        getTaskPosition := q.getTaskPosition + 1 }
  | .pop, .popFetch taskPosition, m =>
    0 < q.tasksAvailable ∧ taskPosition = q.getTaskPosition ∧
      m = { q.fields with
        tasksAvailable := q.tasksAvailable - 1
        getTaskPosition := next q.getTaskPosition q.limit }
  | .pop, .popClear taskPosition task, m =>
    0 < q.tasksAvailable ∧ taskPosition = q.getTaskPosition ∧
      task = q.taskBuffer q.getTaskPosition ∧
      m = { q.fields with
        tasksAvailable := q.tasksAvailable - 1
        getTaskPosition := next q.getTaskPosition q.limit }
  | .push task, .pushTest task', m => task' = task ∧ m = q.fields
  | .push task, .pushPosition task', m =>
    q.tasksAvailable < q.limit ∧ task' = task ∧ m = q.fields
  | .push task, .pushAdvance task' taskPosition, m =>
    q.tasksAvailable < q.limit ∧ task' = task ∧ taskPosition = q.putTaskPosition ∧ m = q.fields
  | .push task, .pushAdvanced task' taskPosition position, m =>
    q.tasksAvailable < q.limit ∧ task' = task ∧ taskPosition = q.putTaskPosition ∧
      position = q.putTaskPosition ∧ m = q.fields
  | .push task, .pushWrap task' taskPosition, m =>
    q.tasksAvailable < q.limit ∧ task' = task ∧ taskPosition = q.putTaskPosition ∧
      m = { q.fields with putTaskPosition := q.putTaskPosition + 1 }
  | .push task, .pushReset task' taskPosition, m =>
    q.tasksAvailable < q.limit ∧ task' = task ∧ taskPosition = q.putTaskPosition ∧
      q.limit ≤ q.putTaskPosition + 1 ∧
      m = { q.fields with putTaskPosition := q.putTaskPosition + 1 }
  | .push task, .pushStore task' taskPosition, m =>
    q.tasksAvailable < q.limit ∧ task' = task ∧ taskPosition = q.putTaskPosition ∧
      m = { q.fields with putTaskPosition := next q.putTaskPosition q.limit }
  | .push task, .pushAvailable, m =>
    q.tasksAvailable < q.limit ∧
      m = { q.fields with
        putTaskPosition := next q.putTaskPosition q.limit
        taskBuffer := Function.update q.taskBuffer q.putTaskPosition (some task) }
  | .push task, .pushGive available, m =>
    q.tasksAvailable < q.limit ∧ available = q.tasksAvailable ∧
      m = { q.fields with
        putTaskPosition := next q.putTaskPosition q.limit
        taskBuffer := Function.update q.taskBuffer q.putTaskPosition (some task) }
  | _, _, _ => False

theorem fields_pop (q : TaskQueue) (h : 0 < q.tasksAvailable) :
    q.pop.1.fields = { q.fields with
      tasksAvailable := q.tasksAvailable - 1
      getTaskPosition := next q.getTaskPosition q.limit
      taskBuffer := Function.update q.taskBuffer q.getTaskPosition none } ∧
    q.pop.2 = q.taskBuffer q.getTaskPosition := by
  simp only [pop, dif_pos h, fields, and_self]

theorem fields_push (q : TaskQueue) (task : Ptr) (h : q.tasksAvailable < q.limit) :
    (q.push task).1.fields = { q.fields with
      taskBuffer := Function.update q.taskBuffer q.putTaskPosition (some task)
      putTaskPosition := next q.putTaskPosition q.limit
      tasksAvailable := q.tasksAvailable + 1 } ∧
    (q.push task).2 = true := by
  simp only [push, dif_pos h, fields, and_self]

/-- Where the next access of a call leads. -/
def Leads (q : TaskQueue) (c : Fifo.Call Ptr) (r : Fields × (Stage ⊕ Fifo.Answer Ptr)) : Prop :=
  match r with
  | (m, .inl l) => During q c l m
  | (m, .inr a) => m = (q.serve c).1.fields ∧ a = (q.serve c).2

theorem leads_pop {q : TaskQueue} {l : Stage} {m : Fields} (h : During q .pop l m) :
    Leads q .pop (access l m) := by
  cases l with
  | popTest =>
    have h : m = q.fields := h
    subst h
    simp only [access]
    split
    · rename_i hpos
      exact ⟨hpos, rfl⟩
    · rename_i hpos
      have hempty : q.pop = (q, none) := dif_neg hpos
      simp only [Leads, serve, hempty, and_self]
  | popAvailable =>
    obtain ⟨hpos, rfl⟩ := h
    exact ⟨hpos, rfl, rfl⟩
  | popTake available =>
    obtain ⟨hpos, rfl, rfl⟩ := h
    exact ⟨hpos, rfl⟩
  | popPosition =>
    obtain ⟨hpos, rfl⟩ := h
    exact ⟨hpos, rfl, rfl⟩
  | popAdvance taskPosition =>
    obtain ⟨hpos, rfl, rfl⟩ := h
    exact ⟨hpos, rfl, rfl, rfl⟩
  | popAdvanced taskPosition position =>
    obtain ⟨hpos, rfl, rfl, rfl⟩ := h
    exact ⟨hpos, rfl, rfl⟩
  | popWrap taskPosition =>
    obtain ⟨hpos, rfl, rfl⟩ := h
    simp only [access]
    split
    · rename_i hle
      exact ⟨hpos, rfl, hle, rfl⟩
    · rename_i hle
      have hnext : next q.getTaskPosition q.limit = q.getTaskPosition + 1 := if_neg hle
      refine ⟨hpos, rfl, ?_⟩
      rw [hnext]
  | popReset taskPosition =>
    obtain ⟨hpos, rfl, hle, rfl⟩ := h
    have hnext : next q.getTaskPosition q.limit = 0 := if_pos hle
    refine ⟨hpos, rfl, ?_⟩
    rw [hnext]
  | popFetch taskPosition =>
    obtain ⟨hpos, rfl, rfl⟩ := h
    exact ⟨hpos, rfl, rfl, rfl⟩
  | popClear taskPosition task =>
    obtain ⟨hpos, rfl, rfl, rfl⟩ := h
    obtain ⟨hfields, htask⟩ := q.fields_pop hpos
    exact ⟨hfields.symm, congrArg _ htask.symm⟩
  | _ => exact h.elim

theorem leads_push {q : TaskQueue} {task : Ptr} {l : Stage} {m : Fields}
    (h : During q (.push task) l m) : Leads q (.push task) (access l m) := by
  cases l with
  | pushTest task' =>
    obtain ⟨rfl, rfl⟩ := h
    simp only [access]
    split
    · rename_i hlt
      exact ⟨hlt, rfl, rfl⟩
    · rename_i hlt
      have hfull : q.push task' = (q, false) := dif_neg hlt
      simp only [Leads, serve, hfull, and_self]
  | pushPosition task' =>
    obtain ⟨hlt, rfl, rfl⟩ := h
    exact ⟨hlt, rfl, rfl, rfl⟩
  | pushAdvance task' taskPosition =>
    obtain ⟨hlt, rfl, rfl, rfl⟩ := h
    exact ⟨hlt, rfl, rfl, rfl, rfl⟩
  | pushAdvanced task' taskPosition position =>
    obtain ⟨hlt, rfl, rfl, rfl, rfl⟩ := h
    exact ⟨hlt, rfl, rfl, rfl⟩
  | pushWrap task' taskPosition =>
    obtain ⟨hlt, rfl, rfl, rfl⟩ := h
    simp only [access]
    split
    · rename_i hle
      exact ⟨hlt, rfl, rfl, hle, rfl⟩
    · rename_i hle
      have hnext : next q.putTaskPosition q.limit = q.putTaskPosition + 1 := if_neg hle
      refine ⟨hlt, rfl, rfl, ?_⟩
      rw [hnext]
  | pushReset task' taskPosition =>
    obtain ⟨hlt, rfl, rfl, hle, rfl⟩ := h
    have hnext : next q.putTaskPosition q.limit = 0 := if_pos hle
    refine ⟨hlt, rfl, rfl, ?_⟩
    rw [hnext]
  | pushStore task' taskPosition =>
    obtain ⟨hlt, rfl, rfl, rfl⟩ := h
    exact ⟨hlt, rfl⟩
  | pushAvailable =>
    obtain ⟨hlt, rfl⟩ := h
    exact ⟨hlt, rfl, rfl⟩
  | pushGive available =>
    obtain ⟨hlt, rfl, rfl⟩ := h
    obtain ⟨hfields, hpushed⟩ := q.fields_push task hlt
    exact ⟨hfields.symm, congrArg _ hpushed.symm⟩
  | _ => exact h.elim

theorem leads_access {q : TaskQueue} {c : Fifo.Call Ptr} {l : Stage} {m : Fields}
    (h : During q c l m) : Leads q c (access l m) := by
  cases c with
  | pop => exact leads_pop h
  | push task => exact leads_push h

/-- The sections of the two functions are the calls of the queue. -/
def implements_serve : SpinLock.Implements object fields serve where
  during := During
  enter q c := by
    cases c with
    | pop => exact rfl
    | push task => exact ⟨rfl, rfl⟩
  goesOn h hstep := by
    have hl := leads_access h
    change access _ _ = _ at hstep
    rwa [hstep] at hl
  ends h hstep := by
    have hl := leads_access h
    change access _ _ = _ at hstep
    rwa [hstep] at hl

/-- The accesses that are left to a call at most. -/
def Stage.left : Stage → ℕ
  | .popTest | .pushTest _ => 10
  | .popAvailable | .pushPosition _ => 9
  | .popTake _ | .pushAdvance .. => 8
  | .popPosition | .pushAdvanced .. => 7
  | .popAdvance _ | .pushWrap .. => 6
  | .popAdvanced .. | .pushReset .. => 5
  | .popWrap _ | .pushStore .. => 4
  | .popReset _ | .pushAvailable => 3
  | .popFetch _ | .pushGive _ => 2
  | .popClear .. => 1

theorem bounded_object : SpinLock.Bounded object Stage.left := by
  intro l m m' l' hstep
  cases l <;> simp only [object, access] at hstep <;> grind [Stage.left]

/-- Threads that share an empty queue. -/
def boot (capacity threads : ℕ) : State (SpinLock.Memory Fields (Fifo.Call Ptr) (Fifo.Answer Ptr))
    (SpinLock.Frame (Fifo.Call Ptr) (Fifo.Answer Ptr) Stage) :=
  SpinLock.boot (initWithCapacity capacity).fields threads

/-- In every interleaving of pushes and pops, taken apart into their accesses, the calls that have
returned are a history of the store that holds as many tasks as there are cells, with its
answers: what was accepted is what was returned, in the same order, followed by what is held.
A pop that gives up leaves no trace, and whoever is inside goes out again on its own. -/
theorem task_queue_linearizable (capacity threads : ℕ) (es : List (ℕ × Option (Fifo.Call Ptr))) :
    let s := run (SpinLock.code object) (boot capacity threads) es
    let calls := s.mem.returned.map Prod.fst
    let q := Histories.run serve (initWithCapacity capacity) calls
    Histories.run (Fifo.serve capacity) [] calls = (q.1.tasks, s.mem.returned.map Prod.snd) ∧
      Fifo.joined (Fifo.effects Fifo.Call.effect serve (initWithCapacity capacity) calls) =
        Fifo.departed (Fifo.effects Fifo.Call.effect serve (initWithCapacity capacity) calls) ++
          q.1.tasks ∧
      (s.mem.lock = false → s.mem.data = q.1.fields) ∧
      (s.frames.countP fun f => f.holds) = (if s.mem.lock then 1 else 0) ∧
      (s.mem.lock = true → ∃ t n,
        (run (SpinLock.code object) s (List.replicate n (t, none))).mem.lock = false) := by
  intro s calls q
  have hi := SpinLock.explained_run implements_serve (initWithCapacity capacity) threads es
  refine ⟨?_, joined_run rfl calls, hi.free, hi.holders,
    SpinLock.exists_free_run implements_serve bounded_object (initWithCapacity capacity) threads
      es⟩
  have hbounded := run_eq_bounded (initWithCapacity capacity) calls
  have hanswers : q.2 = s.mem.returned.map Prod.snd := hi.answers
  rw [← hanswers]
  exact hbounded

end Embb.Mtapi.TaskQueue
