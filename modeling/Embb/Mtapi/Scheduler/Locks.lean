import Embb.Mtapi.Scheduler.Tally

/-!
# The locks of the worker queues

A visitor of `embb_mtapi_scheduler_process_tasks` goes through the worker queues one after the
other, and holds the lock of the one in which it is. Nobody else takes a task from this queue, or
puts one into it, meanwhile.
-/

namespace Embb.Mtapi

open Threads

/-- How far a traversal has come: its visitor, the worker queue in which it is with the next index,
and the worker queues that it has not visited. -/
structure Progress where
  visitor : Visitor
  current : Option (QueueRef × Nat)
  rest : List QueueRef

/-- The traversal of a program point. -/
def Frame.traversal : Frame → List Progress
  | .processTasks v rest _ => [⟨v, none, rest⟩]
  | .processQueue v r ii rest _ | .processState v _ r ii rest _ => [⟨v, some (r, ii), rest⟩]
  | .processError v _ _ r ii rest _ => [⟨v, some (r, ii + 1), rest⟩]
  | .processDone v _ => [⟨v, none, []⟩]
  | _ => []

/-- The traversal after a step. -/
def Frame.nextTraversal (n : Node) : Frame → List Progress
  | .queueDelete q _ =>
    if n.queuePool.isHandleValid q then [⟨.queueDelete q, none, n.processOrder⟩] else []
  | .queueDisableStore q _ => [⟨.queueDisable q, none, n.processOrder⟩]
  | .queueEnableStore q =>
    if (n.queue q).attributes.retain then [⟨.queueEnable q, none, n.processOrder⟩] else []
  | .actionDelete a _ =>
    if n.actionPool.isHandleValid a then [⟨.actionDelete a, none, n.processOrder⟩] else []
  | .actionDisableStore a _ => [⟨.actionDisable a, none, n.processOrder⟩]
  | .processTasks v [] _ => [⟨v, none, []⟩]
  | .processTasks v (r :: rest) _ =>
    if (n.workerQueue r).lock then [⟨v, none, r :: rest⟩] else [⟨v, some (r, 0), rest⟩]
  | .processQueue v r ii rest _ =>
    if ii < (n.workerQueue r).tasksAvailable then
      match (n.workerQueue r).taskBuffer ii with
      | some p => if n.visits p v then [⟨v, some (r, ii), rest⟩] else [⟨v, none, []⟩]
      | none => [⟨v, some (r, ii), rest⟩]
    else [⟨v, none, rest⟩]
  | .processState v _ r ii rest _ => [⟨v, some (r, ii + 1), rest⟩]
  | .processDone _ _ => []
  | f => f.traversal

theorem Frame.traversal_of_refs {f : Frame} (h : f.refs ≠ []) : f.traversal = [] := by
  cases f with
  | processTasks | processQueue | processState | processError | processDone => exact absurd rfl h
  | _ => rfl

theorem traversal_entry (n : Node) (call : Call) : (n.entry call).traversal = [] := by
  cases call <;> rfl

theorem traversal_deleteResume (caller : DeleteCaller) : caller.resume.traversal = [] := by
  cases caller <;> rfl

theorem traversal_visitorResume (v : Visitor) (n : Node) (finite : Bool) :
    (v.resume n finite).traversal = [] := by
  apply apply_visitorResume <;> intros <;> rfl

theorem traversal_contextResume (ctx : Context) (done : Bool) :
    (ctx.resume done).flatMap Frame.traversal = [] :=
  flatMap_contextResume (fun _ _ => rfl) (fun _ => rfl) ctx done

theorem traversal_scheduleResume (caller : ScheduleCaller) (p : Ptr) (pushed : Bool) :
    (caller.resume p pushed).flatMap Frame.traversal = [] :=
  flatMap_scheduleResume (fun _ _ _ _ => rfl) (fun _ => rfl) caller p pushed

theorem traversal_executeTaskOrYield (n : Node) (t : Nat) {back : Frame}
    (h : back.traversal = []) : (n.executeTaskOrYield t back).flatMap Frame.traversal = [] := by
  rw [flatMap_executeTaskOrYield fun _ => rfl, h]

theorem exec_traversal (t : Nat) (c : Choice) (f : Frame) (n : Node) :
    (exec t c f n).2.flatMap Frame.traversal = f.nextTraversal n := by
  fun_cases exec t c f n
  all_goals first
    | rfl
    | exact traversal_contextResume _ _
    | exact traversal_scheduleResume _ _ _
    | exact traversal_executeTaskOrYield _ _ rfl
    | (rw [List.flatMap_cons, traversal_entry]; rfl)
    | (rw [List.flatMap_cons, traversal_deleteResume]; rfl)
    | (rw [List.flatMap_cons, traversal_visitorResume]; rfl)
    | (simp only [Frame.nextTraversal, *, ↓reduceIte, Bool.false_eq_true, List.flatMap_cons,
        List.flatMap_nil, List.append_nil, Frame.traversal])

/-- The traversals that are on their way. -/
def traversals (fs : Multiset Frame) : Multiset Progress := gather Frame.traversal fs

theorem traversals_cons (f : Frame) (fs : Multiset Frame) :
    traversals (f ::ₘ fs) = f.traversal + traversals fs :=
  gather_cons _ f fs

theorem mem_traversals_self {f : Frame} {others : Multiset Frame} {x : Progress}
    (hx : x ∈ f.traversal) : x ∈ traversals (f ::ₘ others) := by
  rw [traversals_cons]
  exact Multiset.mem_add.mpr (Or.inl hx)

theorem mem_traversals_others {f : Frame} {others : Multiset Frame} {x : Progress}
    (hx : x ∈ traversals others) : x ∈ traversals (f ::ₘ others) := by
  rw [traversals_cons]
  exact Multiset.mem_add.mpr (Or.inr hx)

theorem traversals_add (fs : List Frame) (others : Multiset Frame) :
    traversals (fs + others) =
      (fs.flatMap Frame.traversal : List Progress) + traversals others :=
  gather_add _ fs others

/-- The traversal is in this worker queue. -/
def Progress.isIn (r : QueueRef) (x : Progress) : Bool := x.current.any fun y => y.1 = r

/-- The lock of a worker queue is held by the traversal that is in it. -/
def Locked (n : Node) (fs : Multiset Frame) : Prop :=
  ∀ r, (traversals fs).countP (fun x => x.isIn r) ≤ if (n.workerQueue r).lock then 1 else 0

theorem Node.lock_access (n : Node) {u : Access} {r : QueueRef} (h : ∀ held, u ≠ .lock r held) :
    ((n.access u).workerQueue r).lock = (n.workerQueue r).lock := by
  by_cases hk : u.keepsQueues = true
  · rw [workerQueue_access n hk]
  · cases u with
    | push r' p =>
      by_cases hr : r = r'
      · subst hr
        simp only [access, setWorkerQueue_workerQueue, Function.update_self, TaskQueue.lock_push]
      · simp only [access, setWorkerQueue_workerQueue, Function.update_of_ne hr]
    | pop r' =>
      by_cases hr : r = r'
      · subst hr
        simp only [access, setWorkerQueue_workerQueue, Function.update_self, TaskQueue.lock_pop]
      · simp only [access, setWorkerQueue_workerQueue, Function.update_of_ne hr]
    | lock r' held =>
      have hr : r ≠ r' := by
        rintro rfl
        exact h held rfl
      simp only [access, setWorkerQueue_workerQueue, Function.update_of_ne hr]
    | _ => exact absurd rfl hk

/-- A locked worker queue does not change. -/
theorem workerQueue_exec {t : Nat} {c : Choice} {f : Frame} {n : Node} {r : QueueRef}
    (hr : (n.workerQueue r).lock = true) (h : ∀ held, (exec t c f n).1 ≠ .lock r held) :
    (code t c f n).1.workerQueue r = n.workerQueue r := by
  have hissued := exec_issuedBy t c f n
  rw [code]
  by_cases hk : (exec t c f n).1.keepsQueues = true
  · rw [Node.workerQueue_access n hk]
  · cases hu : (exec t c f n).1 with
    | push r' p =>
      have hne : r ≠ r' := by
        rintro rfl
        rw [hu] at hissued
        obtain ⟨-, -, ii, isPrivate, a, caller, rfl, rfl⟩ := hissued
        simp only [exec, hr, true_or, ↓reduceIte] at hu
        cases hu
      simp only [Node.access, Node.setWorkerQueue_workerQueue, Function.update_of_ne hne]
    | pop r' =>
      have hne : r ≠ r' := by
        rintro rfl
        rw [hu] at hissued
        rw [hissued.1] at hr
        cases hr
      simp only [Node.access, Node.setWorkerQueue_workerQueue, Function.update_of_ne hne]
    | lock r' held =>
      have hne : r ≠ r' := by
        rintro rfl
        exact h held hu
      simp only [Node.access, Node.setWorkerQueue_workerQueue, Function.update_of_ne hne]
    | _ =>
      rw [hu] at hk
      exact absurd rfl hk

/-- A traversal does not get into a worker queue without its lock. -/
theorem countP_nextTraversal {t : Nat} {c : Choice} {f : Frame} {n : Node} {r : QueueRef}
    (h : ∀ held, (exec t c f n).1 ≠ .lock r held) :
    (f.nextTraversal n).countP (fun x => x.isIn r) ≤ f.traversal.countP (fun x => x.isIn r) := by
  cases f with
  | processTasks v rest finite =>
    cases rest with
    | nil => exact le_refl _
    | cons r' rest =>
      simp only [Frame.nextTraversal]
      split
      · exact le_refl _
      · rename_i hlock
        have hne : r' ≠ r := by
          rintro rfl
          exact h true (by simp only [exec, if_neg hlock])
        simp [Progress.isIn, hne]
  | processQueue v r' ii rest finite =>
    simp only [Frame.nextTraversal, Frame.traversal]
    split
    · split
      · split
        · exact le_refl _
        · simp [Progress.isIn]
      · exact le_refl _
    · simp [Progress.isIn]
  | processState v p r' ii rest finite => simp [Frame.nextTraversal, Frame.traversal, Progress.isIn]
  | processError v p e r' ii rest finite => exact le_refl _
  | queueDelete q finite | queueEnableStore q | actionDelete a finite =>
    simp only [Frame.nextTraversal]
    split
    · simp [Progress.isIn]
    · simp
  | queueDisableStore q finite | actionDisableStore a finite =>
    simp [Frame.nextTraversal, Progress.isIn]
  | _ => exact Nat.zero_le _

theorem locked_preserved {t : Nat} {c : Choice} {f : Frame} {n : Node} {others : Multiset Frame}
    (h : Locked n (f ::ₘ others)) : Locked (code t c f n).1 ((code t c f n).2 + others) := by
  intro r
  have hr := h r
  have hissued := exec_issuedBy t c f n
  rw [traversals_cons, Multiset.countP_add, Multiset.coe_countP] at hr
  rw [traversals_add, show (code t c f n).2.flatMap Frame.traversal = _ from exec_traversal t c f n,
    Multiset.countP_add, Multiset.coe_countP]
  by_cases hl : ∃ held, (exec t c f n).1 = .lock r held
  · obtain ⟨held, hu⟩ := hl
    rw [hu] at hissued
    have hlock : ((code t c f n).1.workerQueue r).lock = held := by
      rw [code, hu]
      simp only [Node.access, Node.setWorkerQueue_workerQueue, Function.update_self]
      rfl
    rw [hlock]
    obtain ⟨v, rest, finite, rfl, rfl⟩ | ⟨v, ii, rest, finite, rfl, rfl⟩ := hissued
    · have hfree : (n.workerQueue r).lock = false := by
        by_contra hne
        have hread : (exec t c (.processTasks v (r :: rest) finite) n).1 = .read := by
          simp only [exec]
          rw [if_pos (Bool.not_eq_false _ ▸ hne)]
        rw [hread] at hu
        cases hu
      rw [hfree] at hr
      simp only [Frame.nextTraversal, hfree, Bool.false_eq_true, ↓reduceIte] at hr ⊢
      simp only [List.countP_singleton]
      split <;> omega
    · have hnext : ∃ x : Progress, x.isIn r = false ∧
          (Frame.processQueue v r ii rest finite).nextTraversal n = [x] := by
        simp only [exec] at hu
        simp only [Frame.nextTraversal]
        by_cases hlt : ii < (n.workerQueue r).tasksAvailable
        · rw [if_pos hlt] at hu ⊢
          cases hp : (n.workerQueue r).taskBuffer ii with
          | none =>
            simp only [hp] at hu
            cases hu
          | some p =>
            simp only [hp] at hu ⊢
            by_cases hv : n.visits p v = true
            · rw [if_pos hv] at hu
              cases hu
            · rw [if_neg hv]
              exact ⟨_, rfl, rfl⟩
        · rw [if_neg hlt]
          exact ⟨_, rfl, rfl⟩
      obtain ⟨x, hx, hnext⟩ := hnext
      have hself : (Frame.processQueue v r ii rest finite).traversal.countP
          (fun x => x.isIn r) = 1 := by
        simp [Frame.traversal, Progress.isIn]
      simp only [Bool.decide_eq_true] at hr ⊢
      rw [hself] at hr
      rw [hnext, List.countP_singleton, hx]
      split at hr <;> simp <;> omega
  · have hne : ∀ held, (exec t c f n).1 ≠ .lock r held := fun held hu => hl ⟨held, hu⟩
    rw [show ((code t c f n).1.workerQueue r).lock = _ from n.lock_access hne]
    simp only [Bool.decide_eq_true] at hr ⊢
    exact le_trans (Nat.add_le_add_right (countP_nextTraversal hne) _) hr

end Embb.Mtapi
