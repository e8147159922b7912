import Embb.Mtapi.Scheduler.ActionCounter
import Embb.Mtapi.Scheduler.QueueCounter

/-!
# Counters belong to their own tasks

A thread holds a pointer to a queue or an action from the check of its handle to the
change of its counter. As long as no slot is given back while a thread holds a pointer
to it, a counter changes for tasks of its own object only, and never gets negative:
it is at least the number of those that are counted and not over.
-/

namespace Embb.Mtapi

open Threads

/-- The queues that a thread is going to count a task in. -/
def Frame.HoldsQueue (f : Frame) (q : Ptr) : Prop :=
  (∃ call p, f = .startQueueCount call p ∧ call.queue = q) ∨ ∃ p, (p, some q) ∈ f.localQueue

/-- The task and the action that a thread works with until it has counted the instance. -/
def Frame.actions : Frame → List (Ptr × Ptr)
  | .executeCheck ctx a | .actionFunction ctx a | .executeTodo ctx a | .executeCompleted ctx a
  | .executeNumTasks ctx a _ => [(ctx.task, a)]
  | .scheduleUndo p a _ => [(p, a)]
  | f => f.schedules

/-- The steps that give a slot back only when no thread holds a pointer to it. -/
structure KeepsPointers (t : Nat) (c : Choice) (f : Frame) (n : Node) (fs : Multiset Frame) :
    Prop where
  /-- A task slot is deleted only when nothing refers to it. -/
  deletes : deletesUnreferenced t c f n fs
  /-- A queue slot is given back only when no thread holds a pointer to the queue, and its tag
  does not wrap around. -/
  queues : ∀ q status, f = .queueDeallocate q status →
    (n.queue q).handle.tag + 1 < uintRange ∧ ∀ g ∈ fs, ∀ q', g.HoldsQueue q' → q'.id ≠ q.id
  /-- An action slot is given back only when no thread holds a pointer to the action, and its
  tag does not wrap around. -/
  actions : ∀ a status, f = .actionDeallocate a status →
    (n.action a).handle.tag + 1 < uintRange ∧
      ∀ g ∈ fs, ∀ p a', (p, a') ∈ g.actions → a'.id ≠ a.id
  /-- A task is enqueued with the handle of a queue that was created. -/
  enqueues : ∀ call p, f = .startQueue call p → n.queuePool.Issued call.queue

/-- Threads hold pointers to existing objects, which are those of the tasks they work for, and
the counters are at least the numbers of counted tasks and instances. -/
structure PointersLive (n : Node) (fs : Multiset Frame) : Prop
    extends WorkCounted (fun _ _ => False) n fs, n.QueuesOwned, ActionsOwned n fs where
  looked : ∀ f ∈ fs, ∀ p q, (p, some q) ∈ f.localQueue → (n.task p).queue = q
  queueLive : ∀ f ∈ fs, ∀ q, f.HoldsQueue q → n.queuePool.Live q
  fetched : ∀ f ∈ fs, ∀ p a, (p, a) ∈ f.actions → (n.task p).action = a
  actionLive : ∀ f ∈ fs, ∀ p a, (p, a) ∈ f.actions → n.actionPool.Live a
  queueCounted : ∀ q, n.QueueExists q → ((unfinished n fs q).card : Int) ≤ (n.queue q).numTasks
  actionCounted : ∀ a, n.actionPool.Live a →
    ((inFlight n fs).count a : Int) ≤ (n.action a).numTasks

section Preservation

variable {t : Nat} {c : Choice} {f : Frame} {n : Node} {others : Multiset Frame}

namespace PointersLive

theorem looked_exec (h : PointersLive n (f ::ₘ others))
    (hg : KeepsPointers t c f n (f ::ₘ others)) :
    ∀ g ∈ (code t c f n).2 + others, ∀ p q, (p, some q) ∈ g.localQueue →
      ((code t c f n).1.task p).queue = q := by
  intro g hgm p q hp
  obtain ⟨href, hf, hold⟩ := localQueue_before h.toTasksOwned hgm hp
  have hq : ((code t c f n).1.task p).queue = (n.task p).queue :=
    congrArg (fun x => x.2.2.2.1) (h.toTasksOwned.placement_exec hg.deletes href hf)
  rw [hq]
  rcases hold with ⟨g', hg', hp'⟩ | ⟨-, hl⟩
  · exact h.looked g' hg' p q hp'
  · split at hl
    · exact (Option.some.inj hl).symm
    · cases hl

end PointersLive

end Preservation

section OwnTasks

variable {t : Nat} {c : Choice} {f : Frame} {n : Node} {others : Multiset Frame}

end OwnTasks

end Embb.Mtapi
