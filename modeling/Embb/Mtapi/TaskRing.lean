import Embb.Lib.Fifo
import Embb.Mtapi.TaskQueue

/-!
# The task queue as a bounded store

Every history of pushes and pops is answered as the store that holds at most as many tasks as
the queue has cells would answer it. The fill level is kept beside the two positions, so full
and empty queues are told apart although their positions agree.
-/

namespace Embb.Mtapi.TaskQueue

open Fifo

/-- One call to the queue, and what it returns. -/
def serve (q : TaskQueue) : Fifo.Call Ptr → TaskQueue × Fifo.Answer Ptr
  | .push task => ((q.push task).1, .pushed (q.push task).2)
  | .pop => (q.pop.1, .popped q.pop.2)

@[simp] theorem limit_serve (q : TaskQueue) (c : Fifo.Call Ptr) :
    (q.serve c).1.limit = q.limit := by
  cases c with
  | push task => exact q.limit_push task
  | pop => exact q.limit_pop

/-- The code answers each call as the bounded store does. -/
theorem serve_tasks (q : TaskQueue) (c : Fifo.Call Ptr) :
    Fifo.serve q.limit q.tasks c = ((q.serve c).1.tasks, (q.serve c).2) := by
  cases c with
  | push task =>
    have hr := q.push_snd task
    rw [serve_push]
    split
    · rename_i hl
      rw [decide_eq_true hl] at hr
      rw [serve, tasks_push_of_true hr, hr]
    · rename_i hl
      rw [decide_eq_false hl] at hr
      rw [serve, push_of_false hr, hr]
  | pop =>
    rw [serve_pop, serve]
    rcases q.pop_spec with ⟨hn, ht, hq⟩ | ⟨task, hs, ht⟩
    · rw [hn, hq, ht]
      rfl
    · rw [hs, ht]
      rfl

/-- Neither position reaches the number of cells. -/
theorem positions_lt (q : TaskQueue) (h : 1 ≤ q.limit) :
    q.getTaskPosition < q.limit ∧ q.putTaskPosition < q.limit := by
  refine ⟨q.get_lt.resolve_right (by omega), ?_⟩
  rw [q.put_eq]
  exact Nat.mod_lt _ h

theorem length_tasks_le (q : TaskQueue) : q.tasks.length ≤ q.limit :=
  q.length_tasks.trans_le q.available_le

/-- The queue with its capacity after a history of calls. -/
theorem limit_run (q : TaskQueue) (calls : List (Fifo.Call Ptr)) :
    (Histories.run serve q calls).1.limit = q.limit :=
  let keeps (s : TaskQueue) : Prop := s.limit = q.limit
  have hstep : ∀ s c, keeps s → keeps (s.serve c).1 := fun s c hs => (s.limit_serve c).trans hs
  Histories.run_inv hstep rfl calls

theorem pop_eq_head (q : TaskQueue) : q.pop.2 = q.tasks.head? := by
  rcases q.pop_spec with ⟨hn, ht, -⟩ | ⟨task, hs, ht⟩
  · rw [hn, ht]
    rfl
  · rw [hs, ht]
    rfl

/-- The queue answers every history as the bounded store does, and holds the same tasks. -/
theorem run_eq_bounded (q : TaskQueue) (calls : List (Fifo.Call Ptr)) :
    Histories.run (Fifo.serve q.limit) q.tasks calls =
      ((Histories.run serve q calls).1.tasks, (Histories.run serve q calls).2) := by
  let keeps (s : TaskQueue) : Prop := s.limit = q.limit
  have hkeeps : ∀ s c, keeps s → keeps (s.serve c).1 := fun s c hs => (s.limit_serve c).trans hs
  have hspec : ∀ s c, keeps s →
      Fifo.serve q.limit s.tasks c = ((s.serve c).1.tasks, (s.serve c).2) := by
    intro s c hs
    rw [← s.serve_tasks c, show s.limit = q.limit from hs]
  exact Histories.run_refines hkeeps hspec rfl calls

/-- The tasks that an empty queue has accepted are those that it has returned, in the same order,
followed by those that it still holds. -/
theorem joined_run {q : TaskQueue} (hq : q.tasks = []) (calls : List (Fifo.Call Ptr)) :
    joined (effects Fifo.Call.effect serve q calls) =
      departed (effects Fifo.Call.effect serve q calls) ++
        (Histories.run serve q calls).1.tasks := by
  let inv (_ : TaskQueue) (_ : List (Fifo.Call Ptr)) : Prop := True
  have hstep : ∀ (s : TaskQueue) (c : Fifo.Call Ptr) cs, inv s (c :: cs) → inv (s.serve c).1 cs ∧
      (c.effect (s.serve c).2).Leads s.tasks (s.serve c).1.tasks := by
    intro s c _ _
    have hleads := serve_leads s.limit s.tasks c
    rw [s.serve_tasks c] at hleads
    exact ⟨trivial, hleads⟩
  exact joined_eq hstep (show inv q calls from trivial) hq

/-- In every history of calls a queue of at least one cell behaves as the bounded store. A push
succeeds exactly while fewer tasks are held than there are cells, a pop returns the oldest task
held, the positions stay inside the buffer, and the tasks that were accepted are those that were
returned, in the same order, followed by those still held. -/
theorem refines_bounded_fifo {capacity : Nat} (h : 1 ≤ capacity) (calls : List (Fifo.Call Ptr)) :
    let after := Histories.run serve (initWithCapacity capacity) calls
    Histories.run (Fifo.serve capacity) [] calls = (after.1.tasks, after.2) ∧
      (∀ task, (after.1.push task).2 = true ↔ after.1.tasks.length < capacity) ∧
      after.1.pop.2 = after.1.tasks.head? ∧
      after.1.getTaskPosition < capacity ∧ after.1.putTaskPosition < capacity ∧
      after.1.tasks.length ≤ capacity ∧
      joined (effects Fifo.Call.effect serve (initWithCapacity capacity) calls) =
        departed (effects Fifo.Call.effect serve (initWithCapacity capacity) calls) ++
          after.1.tasks := by
  intro after
  have hlimit : after.1.limit = capacity := limit_run (initWithCapacity capacity) calls
  have hpos := after.1.positions_lt (hlimit.symm ▸ h)
  have hle := after.1.length_tasks_le
  rw [hlimit] at hpos hle
  refine ⟨run_eq_bounded (initWithCapacity capacity) calls, fun task => ?_,
    after.1.pop_eq_head, hpos.1, hpos.2, hle,
    joined_run rfl calls⟩
  rw [push_snd, decide_eq_true_eq, hlimit]

/-- A history in which the positions of a queue of one cell wrap. -/
theorem refines_bounded_fifo_one :
    1 ≤ 1 ∧
      Histories.run (Fifo.serve 1) []
          [.push ⟨0, 1⟩, .push ⟨0, 2⟩, .pop, .push ⟨0, 3⟩, .pop, .pop] =
        (([] : List Ptr), [.pushed true, .pushed false, .popped (some ⟨0, 1⟩), .pushed true,
          .popped (some ⟨0, 3⟩), .popped none]) ∧
      (Histories.run serve (initWithCapacity 1)
          [.push ⟨0, 1⟩, .push ⟨0, 2⟩, .pop, .push ⟨0, 3⟩, .pop, .pop]).1.tasks = [] := by
  have h := (refines_bounded_fifo le_rfl
    [.push ⟨0, 1⟩, .push ⟨0, 2⟩, .pop, .push ⟨0, 3⟩, .pop, .pop]).1
  refine ⟨le_rfl, rfl, ?_⟩
  have ht := congrArg Prod.fst h
  exact ht.symm

end Embb.Mtapi.TaskQueue
