import Embb.Mtapi.Scheduler.Cancel
import Embb.Mtapi.Scheduler.Tally

/-!
# The reason of a cancellation

A task that waits in a worker queue when its queue or action is deleted or disabled gets the state
first and the error code in a second write. A waiter is released by the state, and the worker that
drops the task writes the error code again.
-/

namespace Embb.Mtapi

open Threads

/-- The error code by which a visitor says why it has cancelled a task. -/
def Visitor.reason : Visitor → Option Status
  | .queueDelete _ => some .errQueueDeleted
  | .queueDisable _ => some .errQueueDisabled
  | .queueEnable _ => none
  | .actionDelete _ => some .errActionDeleted
  | .actionDisable _ => some .errActionDisabled

theorem Node.reason_of_visitorState {n : Node} {v : Visitor} {status : Status}
    (h : (n.visitorState v).2 = some status) : v.reason = some status := by
  cases v with
  | queueDisable q =>
    simp only [visitorState] at h
    split at h
    · cases h
    · exact h
  | queueEnable q => cases h
  | _ => exact h

/-- The slots of tasks that have been cancelled since they were started, with the visitors. -/
def recordMark (_ : Nat) (_ : Choice) (f : Frame) (n : Node) (marks : List (Nat × Visitor)) :
    List (Nat × Visitor) :=
  match f with
  | .processState v p _ _ _ _ =>
    if (n.visitorState v).2.isSome then marks ++ [(p.id, v)] else marks
  | .processError v p _ _ _ _ _ => marks ++ [(p.id, v)]
  | .startInit _ p | .taskDelete p _ | .taskDeallocate p _ => marks.filter fun x => x.1 ≠ p.id
  | _ => marks

/-- The program with a record of the cancellations. -/
def markingCode : Code (Node × List (Nat × Visitor)) Frame Choice := logged code recordMark

/-- The slot of a task that has its new state, and not yet its error code. -/
def Frame.marking : Frame → Option Nat
  | .processError _ p _ _ _ _ _ => some p.id
  | _ => none

/-- The slot whose error code the step writes, apart from the visitors and from the start and the
deletion of a task: a worker drops a task, the action of an instance is gone, or an action function
sets a status. -/
def Frame.overwrites (c : Choice) : Frame → Option Nat
  | .workerCancelled p _ => some p.id
  | .executeDeleted ctx _ => some ctx.task.id
  | .actionFunction ctx _ =>
    match c with
    | .contextStatusSet status => if status.settable then some ctx.task.id else none
    | _ => none
  | _ => none

/-- The task whose error code `mtapi_task_wait` reads. -/
def Frame.reads : Frame → Option Ptr
  | .waitDone p => some p
  | _ => none

theorem top_of_reads {f : Option Frame} {p : Ptr} (h : f.bind Frame.reads = some p) :
    f = some (.waitDone p) := by
  obtain ⟨g, rfl, hg⟩ := Option.bind_eq_some_iff.mp h
  unfold Frame.reads at hg
  split at hg
  · cases hg
    rfl
  · cases hg

/-- The steps that keep the reason of the task in a slot: once it is cancelled its error code is
not written again, and a waiter does not read it between the two writes of a visitor. -/
structure KeepsReason (id : Nat) (c : Choice) (f : Frame) (marks : List (Nat × Visitor))
    (fs : Multiset Frame) : Prop where
  kept : f.overwrites c = some id → ∀ x ∈ marks, x.1 ≠ id
  read : ∀ q ∈ f.reads, q.id = id → ∀ g ∈ fs, g.marking ≠ some id

instance (id : Nat) (c : Choice) (f : Frame) (marks : List (Nat × Visitor)) (fs : Multiset Frame) :
    Decidable (KeepsReason id c f marks fs) :=
  decidable_of_iff ((f.overwrites c = some id → ∀ x ∈ marks, x.1 ≠ id) ∧
    ∀ q ∈ f.reads, q.id = id → ∀ g ∈ fs, g.marking ≠ some id)
    ⟨fun h => ⟨h.1, h.2⟩, fun h => ⟨h.kept, h.read⟩⟩

/-- The error code of the task in a slot says why it was cancelled, or is about to. -/
structure ReasonKnown (id : Nat) (n : Node) (marks : List (Nat × Visitor)) (fs : Multiset Frame) :
    Prop where
  honest : ∀ v p status r ii rest finite,
    .processError v p status r ii rest finite ∈ fs → v.reason = some status
  known : ∀ v, (id, v) ∈ marks →
    (∃ v', (id, v') ∈ marks ∧ v'.reason = some (n.taskPool.storage id).errorCode) ∨
      ∃ f ∈ fs, f.marking = some id

/-- The slot whose error code an access writes. -/
def Access.writesError : Access → Option Nat
  | .taskInit p _ | .taskError p _ | .taskFinalize p | .taskDeallocate p => some p.id
  | _ => none

theorem Node.errorCode_access (n : Node) {u : Access} {id : Nat} (h : u.writesError ≠ some id) :
    ((n.access u).taskPool.storage id).errorCode = (n.taskPool.storage id).errorCode := by
  apply n.taskField_keep u Task.errorCode (fun _ _ => rfl) id
  · intro p g ho hid
    cases u with
    | taskInit | taskError | taskFinalize =>
      cases ho
      exact absurd (congrArg some hid) h
    | taskGroup q group => cases group <;> cases ho <;> rfl
    | taskQueue q queue => cases queue <;> cases ho <;> rfl
    | _ => cases ho <;> rfl
  · rintro p rfl hid
    exact absurd (congrArg some hid) h

/-- An error code is written by a step that overwrites it, by a visitor, or where the task is
started or deleted. -/
theorem exec_writesError (t : Nat) (c : Choice) (f : Frame) (n : Node) {id : Nat}
    (h : (exec t c f n).1.writesError = some id) :
    f.overwrites c = some id ∨ f.marking = some id ∨
      ∃ p, p.id = id ∧ ((∃ call, f = .startInit call p) ∨ (∃ caller, f = .taskDelete p caller) ∨
        ∃ caller, f = .taskDeallocate p caller) := by
  have hissued := exec_issuedBy t c f n
  cases hu : (exec t c f n).1 with
  | taskInit p call =>
    rw [hu] at h hissued
    exact Or.inr (Or.inr ⟨p, Option.some.inj h, Or.inl ⟨call, hissued⟩⟩)
  | taskFinalize p =>
    rw [hu] at h hissued
    exact Or.inr (Or.inr ⟨p, Option.some.inj h, Or.inr (Or.inl hissued)⟩)
  | taskDeallocate p =>
    rw [hu] at h hissued
    exact Or.inr (Or.inr ⟨p, Option.some.inj h, Or.inr (Or.inr hissued)⟩)
  | taskError p e =>
    rw [hu] at h hissued
    rcases hissued with ⟨ctx, a, rfl, he, rfl⟩ | ⟨lq, -, rfl⟩ | ⟨ctx, todo, rfl, -, rfl⟩ |
      ⟨v, r, ii, rest, finite, rfl⟩
    · refine Or.inl ?_
      cases c with
      | contextStatusSet status =>
        simp only [exec] at hu
        split at hu
        · rename_i hs
          rw [Frame.overwrites, if_pos hs]
          exact h
        · cases hu
      | call => cases hu
      | leave => cases hu
      | _ => cases hu
    · exact Or.inl h
    · exact Or.inl h
    · exact Or.inr (Or.inl h)
  | _ =>
    rw [hu] at h
    cases h

theorem mem_recordMark_of_mem {t : Nat} {c : Choice} {f : Frame} {n : Node}
    {marks : List (Nat × Visitor)} {id : Nat} {v : Visitor} (h : (id, v) ∈ marks)
    (hw : (exec t c f n).1.writesError ≠ some id) : (id, v) ∈ recordMark t c f n marks := by
  unfold recordMark
  split
  · split
    · exact List.mem_append_left _ h
    · exact h
  · exact List.mem_append_left _ h
  · exact List.mem_filter.mpr ⟨h, decide_eq_true fun he => hw (congrArg some he.symm)⟩
  · exact List.mem_filter.mpr ⟨h, decide_eq_true fun he => hw (congrArg some he.symm)⟩
  · exact List.mem_filter.mpr ⟨h, decide_eq_true fun he => hw (congrArg some he.symm)⟩
  · exact h

theorem of_mem_recordMark {t : Nat} {c : Choice} {f : Frame} {n : Node}
    {marks : List (Nat × Visitor)} {id : Nat} {v : Visitor}
    (h : (id, v) ∈ recordMark t c f n marks) :
    (id, v) ∈ marks ∨ (∃ p r ii rest finite status, f = .processState v p r ii rest finite ∧
        p.id = id ∧ (n.visitorState v).2 = some status) ∨
      ∃ p status r ii rest finite, f = .processError v p status r ii rest finite ∧ p.id = id := by
  unfold recordMark at h
  split at h
  · split at h
    · rename_i hs
      obtain ⟨status, hs⟩ := Option.isSome_iff_exists.mp hs
      rcases List.mem_append.mp h with h | h
      · exact Or.inl h
      · cases List.mem_singleton.mp h
        exact Or.inr (Or.inl ⟨_, _, _, _, _, status, rfl, rfl, hs⟩)
    · exact Or.inl h
  · rcases List.mem_append.mp h with h | h
    · exact Or.inl h
    · cases List.mem_singleton.mp h
      exact Or.inr (Or.inr ⟨_, _, _, _, _, _, rfl, rfl⟩)
  · exact Or.inl (List.mem_filter.mp h).1
  · exact Or.inl (List.mem_filter.mp h).1
  · exact Or.inl (List.mem_filter.mp h).1
  · exact Or.inl h

theorem marking_entry (n : Node) (call : Call) : (n.entry call).marking = none := by
  cases call <;> rfl

theorem marking_visitorResume (v : Visitor) (n : Node) (finite : Bool) :
    (v.resume n finite).marking = none := by
  apply apply_visitorResume <;> intros <;> rfl

theorem marking_deleteResume (caller : DeleteCaller) : caller.resume.marking = none := by
  cases caller <;> rfl

theorem marking_contextResume (ctx : Context) (done : Bool) :
    ∀ g ∈ ctx.resume done, g.marking = none := by
  intro g hg
  rcases mem_contextResume hg with ⟨q, rfl⟩ | rfl <;> rfl

theorem marking_scheduleResume (caller : ScheduleCaller) (p : Ptr) (pushed : Bool) :
    ∀ g ∈ caller.resume p pushed, g.marking = none := by
  intro g hg
  cases caller <;> cases List.mem_singleton.mp hg <;> rfl

theorem marking_executeTaskOrYield (n : Node) (t : Nat) {back : Frame} (h : back.marking = none) :
    ∀ g ∈ n.executeTaskOrYield t back, g.marking = none := by
  intro g hg
  rcases Node.mem_executeTaskOrYield hg with ⟨rs, rfl⟩ | rfl
  · rfl
  · exact h

theorem marking_of_singleton {f : Frame} (h : f.marking = none) : ∀ g ∈ [f], g.marking = none := by
  intro g hg
  cases List.mem_singleton.mp hg
  exact h

theorem marking_of_pair {f f' : Frame} (h : f.marking = none) (h' : f'.marking = none) :
    ∀ g ∈ [f, f'], g.marking = none := by
  intro g hg
  rcases List.mem_cons.mp hg with rfl | hg
  · exact h
  · exact marking_of_singleton h' g hg

/-- The second write follows only on the first one. -/
theorem exec_marking (t : Nat) (c : Choice) (f : Frame) (n : Node) :
    (∀ g ∈ (exec t c f n).2, g.marking = none) ∨
      ∃ v p r ii rest finite status, f = .processState v p r ii rest finite ∧
        (n.visitorState v).2 = some status ∧
        (exec t c f n).2 = [.processError v p status r ii rest finite] := by
  fun_cases exec t c f n
  all_goals first
    | exact Or.inl (marking_of_singleton rfl)
    | exact Or.inl (marking_of_pair rfl rfl)
    | exact Or.inl (marking_contextResume _ _)
    | exact Or.inl (marking_scheduleResume _ _ _)
    | exact Or.inl (marking_executeTaskOrYield _ _ rfl)
    | exact Or.inl (marking_of_pair (marking_entry _ _) rfl)
    | exact Or.inl (marking_of_singleton (marking_deleteResume _))
    | exact Or.inl (marking_of_singleton (marking_visitorResume _ _ _))
    | exact Or.inl fun g hg => absurd hg List.not_mem_nil
    | exact Or.inr ⟨_, _, _, _, _, _, _, rfl, by assumption, rfl⟩

theorem exec_processError (t : Nat) (c : Choice) (f : Frame) (n : Node) {v : Visitor} {p : Ptr}
    {status : Status} {r : QueueRef} {ii : Nat} {rest : List QueueRef} {finite : Bool}
    (h : .processError v p status r ii rest finite ∈ (exec t c f n).2) :
    (n.visitorState v).2 = some status := by
  rcases exec_marking t c f n with hnone | ⟨v', p', r', ii', rest', finite', status', rfl, hs, he⟩
  · cases hnone _ h
  · rw [he] at h
    cases List.mem_singleton.mp h
    exact hs

theorem reasonKnown_preserved (id : Nat) :
    Preserves markingCode (fun _ c f m fs => KeepsReason id c f m.2 fs)
      (fun m fs => ReasonKnown id m.1 m.2 fs) := by
  rintro t c f ⟨n, marks⟩ others ⟨hhonest, hknown⟩ ⟨hkept, -⟩
  change ReasonKnown id (n.access (exec t c f n).1) (recordMark t c f n marks)
    ((exec t c f n).2 + others)
  constructor
  · intro v p status r ii rest finite hmem
    rcases Multiset.mem_add.mp hmem with hmem | hmem
    · exact Node.reason_of_visitorState (exec_processError t c f n hmem)
    · exact hhonest v p status r ii rest finite (Multiset.mem_cons_of_mem hmem)
  · intro v hv
    by_cases hself : f.marking = some id
    · -- the visitor writes the error code
      cases f with
      | processError v' p status r ii rest finite =>
        cases hself
        have hreason := hhonest v' p status r ii rest finite (Multiset.mem_cons_self _ _)
        refine Or.inl ⟨v', List.mem_append_right _ (List.mem_singleton_self _), ?_⟩
        rw [hreason]
        simp only [exec, Node.access, Node.setErrorCode, Node.modifyTask_taskPool,
          Pool.storage_modify_self]
      | _ => cases hself
    · by_cases hw : (exec t c f n).1.writesError = some id
      · rcases exec_writesError t c f n hw with hover | hmark | ⟨p, hp, hf⟩
        · rcases of_mem_recordMark hv with hv | ⟨p, r, ii, rest, finite, status, rfl, -⟩ |
            ⟨p, status, r, ii, rest, finite, rfl, -⟩
          · exact absurd rfl (hkept hover _ hv)
          · cases hover
          · cases hover
        · exact absurd hmark hself
        · exfalso
          rcases hf with ⟨call, rfl⟩ | ⟨caller, rfl⟩ | ⟨caller, rfl⟩
          all_goals exact of_decide_eq_true (List.mem_filter.mp hv).2 hp.symm
      · rw [n.errorCode_access hw]
        rcases of_mem_recordMark hv with hv | ⟨p, r, ii, rest, finite, status, rfl, hp, hs⟩ |
          ⟨p, status, r, ii, rest, finite, rfl, hp⟩
        · rcases hknown v hv with ⟨v', hv', hreason⟩ | ⟨g, hg, hmark⟩
          · exact Or.inl ⟨v', mem_recordMark_of_mem hv' hw, hreason⟩
          · rcases Multiset.mem_cons.mp hg with rfl | hg
            · exact absurd hmark hself
            · exact Or.inr ⟨g, Multiset.mem_add.mpr (Or.inr hg), hmark⟩
        · refine Or.inr ⟨.processError v p status r ii rest finite,
            Multiset.mem_add.mpr (Or.inl ?_),
            congrArg some hp⟩
          simp only [exec, hs]
          exact Multiset.mem_singleton_self _
        · exact absurd (congrArg some hp) hself

/-- A node that has just been started, with nothing cancelled. -/
def bootMarking (attributes : NodeAttributes) (mode : SchedulerMode) (clients : Nat) :
    State (Node × List (Nat × Visitor)) Frame :=
  ⟨((boot attributes mode clients).mem, []), (boot attributes mode clients).callStacks⟩

theorem reasonKnown_boot (id : Nat) (attributes : NodeAttributes) (mode : SchedulerMode)
    (clients : Nat) :
    ReasonKnown id (bootMarking attributes mode clients).mem.1
      (bootMarking attributes mode clients).mem.2 (bootMarking attributes mode clients).frames where
  honest := by
    intro v p status r ii rest finite hmem
    rcases @mem_frames_boot attributes mode clients _ hmem with hf | hf <;> cases hf
  known := fun _ hv => absurd hv List.not_mem_nil

/-- In every run in which the error code of a task, once it is cancelled, is not written again and
is not read between the two writes of a visitor: what `mtapi_task_wait` reports of the task is the
reason of a visitor that has cancelled it. -/
theorem reason_reported (attributes : NodeAttributes) (mode : SchedulerMode) (clients : Nat)
    (es : List (Nat × Choice)) (t : Nat) (c : Choice) {p : Ptr} {v : Visitor}
    (hg : Always markingCode (fun _ c f m fs => KeepsReason p.id c f m.2 fs)
      (bootMarking attributes mode clients) (es ++ [(t, c)]))
    (ht : (run markingCode (bootMarking attributes mode clients) es).top t = some (.waitDone p))
    (hv : (p.id, v) ∈ (run markingCode (bootMarking attributes mode clients) es).mem.2) :
    ∃ status v',
      (run markingCode (bootMarking attributes mode clients) (es ++ [(t, c)])).top t =
          some (.waitGroup p status) ∧
        (p.id, v') ∈ (run markingCode (bootMarking attributes mode clients) es).mem.2 ∧
        v'.reason = some status := by
  obtain ⟨hbefore, hlast⟩ := hg.append
  have hinv := (reasonKnown_preserved p.id).run hbefore
    (reasonKnown_boot p.id attributes mode clients)
  rcases hinv.known v hv with ⟨v', hv', hreason⟩ | ⟨f, hf, hmark⟩
  · refine ⟨_, v', ?_, hv', hreason⟩
    rw [run_append]
    exact top_step markingCode ht rfl
  · exact absurd hmark ((hlast.1 _ ht).read p rfl rfl f hf)

/-- A task waits in the queue of the worker while its action is disabled. -/
def startAndDisable : List (Nat × Choice) :=
  calls 1 (.actionCreate 1 none) 4 ++ calls 1 (.taskStart ⟨0, 1⟩ none Handle.invalid) 20 ++
    calls 1 (.actionDisable ⟨0, 1⟩ true) 11 ++ [(1, .expired), (1, .go)]

/-- The waiter looks before the worker has dropped the task. -/
theorem reason_reported_disabled : ∃ status v',
    (run markingCode (bootMarking (smallNode 1) .workStealVhpf 1)
        (startAndDisable ++ calls 1 (.taskWait ⟨0, 1⟩ true) 4 ++ [(1, .go)])).top 1 =
        some (.waitGroup ⟨0, 1⟩ status) ∧
      (1, v') ∈ (run markingCode (bootMarking (smallNode 1) .workStealVhpf 1)
        (startAndDisable ++ calls 1 (.taskWait ⟨0, 1⟩ true) 4)).mem.2 ∧
      v'.reason = some status :=
  reason_reported (smallNode 1) .workStealVhpf 1
    (startAndDisable ++ calls 1 (.taskWait ⟨0, 1⟩ true) 4) 1 .go
    (v := .actionDisable ⟨0, 1⟩) (by decide +kernel) (top_of_reads (by decide +kernel))
    (by decide +kernel)

/-- The worker has dropped the task before the waiter looks: it is the action that was disabled,
and the waiter is told that the action was cancelled. -/
theorem reason_overwritten :
    (run markingCode (bootMarking (smallNode 1) .workStealVhpf 1)
        (startAndDisable ++ goes 0 7 ++ calls 1 (.taskWait ⟨0, 1⟩ true) 4)).mem.2 =
        [(1, .actionDisable ⟨0, 1⟩), (1, .actionDisable ⟨0, 1⟩)] ∧
      ((run markingCode (bootMarking (smallNode 1) .workStealVhpf 1)
        (startAndDisable ++ goes 0 7 ++ calls 1 (.taskWait ⟨0, 1⟩ true) 8)).top 1).bind
        Frame.returned = some .errActionCancelled := by
  decide +kernel

end Embb.Mtapi
