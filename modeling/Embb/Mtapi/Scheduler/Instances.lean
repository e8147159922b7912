import Embb.Mtapi.Scheduler.Tally
import Embb.Mtapi.Scheduler.Events

/-!
# The instances of a task

The history of one task records what its instances do. As long as the task is neither cancelled nor
visited nor deleted, the history and the program points of its instances agree, so that every
number is given once, and the task is completed, pushed and notified once.
-/

namespace Embb.Mtapi

open Threads

/-- The instance that a program point works for, and its phase. -/
def Frame.phases : Frame → List (Ptr × Phase)
  | .executeRunning ctx | .executeAction ctx _ | .executeCheck ctx _ =>
    [(ctx.task, .begun ctx.instanceNum)]
  | .actionFunction ctx _ => [(ctx.task, .called ctx.instanceNum)]
  | .executeTodo ctx _ => [(ctx.task, .done)]
  | .executeCompleted ctx _ => [(ctx.task, .completing)]
  | .executeNumTasks ctx _ todo => if todo = 1 then [(ctx.task, .closing)] else []
  | .executeGroup ctx => [(ctx.task, .closing)]
  | .executeGroupPush ctx _ => [(ctx.task, .pushing)]
  | .workerFinished p _ => [(p, .notifying)]
  | _ => []

/-- The thread that has executed the last instance goes on to tell the queue. -/
def Context.tells (ctx : Context) : Bool :=
  match ctx.by' with
  | .worker (some _) => true
  | _ => false

/-- The phases after a step. -/
def Frame.nextPhases (c : Choice) (n : Node) (f : Frame) : List (Ptr × Phase) :=
  match f with
  | .workerContext p _ | .helperContext p => [(p, .begun (n.task p).currentInstance)]
  | .executeAction ctx _ =>
    if n.actionPool.isHandleValid (n.task ctx.task).action then
      [(ctx.task, .begun ctx.instanceNum)]
    else []
  | .executeCheck ctx _ =>
    if (n.task ctx.task).errorCode = .success then [(ctx.task, .called ctx.instanceNum)]
    else [(ctx.task, .done)]
  | .actionFunction ctx _ =>
    if c = .leave then [(ctx.task, .done)] else [(ctx.task, .called ctx.instanceNum)]
  | .executeTodo ctx _ =>
    if (n.task ctx.task).instancesTodo = 1 then [(ctx.task, .completing)] else []
  | .executeCompleted ctx _ => [(ctx.task, .closing)]
  | .executeError ctx todo => if todo = 1 then [(ctx.task, .closing)] else []
  | .executeGroup ctx =>
    if n.groupPool.isHandleValid (n.task ctx.task).group then [(ctx.task, .pushing)]
    else if ctx.tells then [(ctx.task, .notifying)] else []
  | .executeGroupPush ctx _ => if ctx.tells then [(ctx.task, .notifying)] else []
  | .workerCancelledTodo p (some _) =>
    if (n.task p).instancesTodo = 0 then [(p, .notifying)] else []
  | .workerFinished _ _ => []
  | f => f.phases

/-- What a step does to its task, for the record. -/
def Frame.events (c : Choice) (n : Node) : Frame → List (Ptr × Event)
  | .executeCheck ctx _ =>
    if (n.task ctx.task).errorCode = .success then [(ctx.task, .called ctx.instanceNum)]
    else [(ctx.task, .skipped ctx.instanceNum)]
  | .actionFunction ctx _ => if c = .leave then [(ctx.task, .returned)] else []
  | .executeTodo ctx _ => [(ctx.task, .counted)]
  | .executeCompleted ctx _ => [(ctx.task, .completed)]
  | .executeGroup ctx =>
    if n.groupPool.isHandleValid (n.task ctx.task).group then [(ctx.task, .ended)]
    else if ctx.tells then [(ctx.task, .ended), (ctx.task, .ungrouped)]
    else if n.queuePool.isHandleValid (n.task ctx.task).queue then
      [(ctx.task, .ended), (ctx.task, .ungrouped), (ctx.task, .missed)]
    else [(ctx.task, .ended), (ctx.task, .ungrouped), (ctx.task, .unqueued)]
  | .executeGroupPush ctx _ =>
    if ctx.tells then [(ctx.task, .pushed)]
    else if n.queuePool.isHandleValid (n.task ctx.task).queue then
      [(ctx.task, .pushed), (ctx.task, .missed)]
    else [(ctx.task, .pushed), (ctx.task, .unqueued)]
  | .workerFinished p _ => [(p, .notified)]
  | _ => []

theorem Frame.mem_refs_of_mem_phases {f : Frame} {p : Ptr} {x : Phase} (h : (p, x) ∈ f.phases) :
    p ∈ f.refs := by
  have hone : ∀ {y : Phase} {q : Ptr}, (p, x) ∈ [(q, y)] → p ∈ [q] := fun hm =>
    List.mem_singleton.mpr (Prod.mk.inj (List.mem_singleton.mp hm)).1
  unfold Frame.phases at h
  split at h
  all_goals first
    | exact hone h
    | exact absurd h List.not_mem_nil
    | split at h
      · exact hone h
      · exact absurd h List.not_mem_nil

theorem Frame.phases_of_refs {f : Frame} (h : f.refs = []) : f.phases = [] :=
  Frame.eq_nil_of_refs (fun _ hx => mem_refs_of_mem_phases hx) h

theorem phases_contextResume_false (ctx : Context) :
    (ctx.resume false).flatMap Frame.phases = [] := by
  rcases ctx with ⟨_ | _, p, i, m⟩
  · rename_i lq
    cases lq <;> rfl
  · rfl

theorem phases_contextResume_true (ctx : Context) :
    (ctx.resume true).flatMap Frame.phases =
      if ctx.tells then [(ctx.task, .notifying)] else [] := by
  rcases ctx with ⟨_ | _, p, i, m⟩
  · rename_i lq
    cases lq <;> rfl
  · rfl

theorem phases_scheduleResume (caller : ScheduleCaller) (p : Ptr) (pushed : Bool) :
    (caller.resume p pushed).flatMap Frame.phases = [] :=
  flatMap_scheduleResume (fun _ _ _ _ => rfl) (fun _ => rfl) caller p pushed

theorem phases_executeTaskOrYield (n : Node) (t : Nat) {back : Frame} (h : back.refs = []) :
    (n.executeTaskOrYield t back).flatMap Frame.phases = [] := by
  rw [flatMap_executeTaskOrYield fun _ => rfl, Frame.phases_of_refs h]

theorem exec_phases (t : Nat) (c : Choice) (f : Frame) (n : Node) :
    (exec t c f n).2.flatMap Frame.phases = f.nextPhases c n := by
  fun_cases exec t c f n
  all_goals first
    | rfl
    | exact phases_scheduleResume _ _ _
    | exact phases_executeTaskOrYield _ _ rfl
    | exact phases_contextResume_true _
    | exact (if_neg (by assumption)).symm
    | (rw [List.flatMap_cons, Frame.phases_of_refs (refs_entry _ _)]; rfl)
    | (rw [List.flatMap_cons, Frame.phases_of_refs (refs_deleteResume _)]; rfl)
    | (rw [List.flatMap_cons, Frame.phases_of_refs (refs_visitorResume _ _ _)]; rfl)
    | (simp only [Frame.nextPhases, *, ↓reduceIte, Bool.false_eq_true, List.flatMap_cons,
        List.flatMap_nil, List.append_nil, Frame.phases, phases_contextResume_false,
        phases_contextResume_true])

/-- What belongs to one task. -/
def ofTask {A : Type} (p : Ptr) (xs : List (Ptr × A)) : List A :=
  xs.filterMap fun x => if x.1 = p then some x.2 else none

@[simp] theorem ofTask_nil {A : Type} (p : Ptr) : ofTask p ([] : List (Ptr × A)) = [] := rfl

@[simp] theorem ofTask_cons_self {A : Type} (p : Ptr) (x : A) (xs : List (Ptr × A)) :
    ofTask p ((p, x) :: xs) = x :: ofTask p xs := by
  simp only [ofTask, List.filterMap_cons, ↓reduceIte]

theorem ofTask_of_ne {A : Type} {p : Ptr} {xs : List (Ptr × A)} (h : ∀ x ∈ xs, x.1 ≠ p) :
    ofTask p xs = [] := by
  rw [ofTask, List.filterMap_eq_nil_iff]
  exact fun x hx => if_neg (h x hx)

/-- The program points at which a task is cancelled, visited, or given up, or loses its action. -/
def Frame.disturbs : Frame → Option Nat
  | .cancelState p | .processState _ p _ _ _ _ | .startFailed p | .workerCancelledTodo p _ =>
    some p.id
  | .executeDeleted ctx _ | .executeError ctx _ => some ctx.task.id
  | _ => none

/-- The history of one task: whether it has been started, and what has happened since. -/
structure History where
  started : Bool
  events : List Event

/-- The steps of a task that, from its start on, is neither cancelled nor visited nor deleted, whose
start succeeds with at least one instance, and whose action is there. -/
structure RunsInstances (p : Ptr) (t : Nat) (c : Choice) (f : Frame) (n : Node) (l : History)
    (fs : Multiset Frame) : Prop where
  deletes : deletesUnreferenced t c f n fs
  instances : ∀ call, f = .startInit call p → call.attributes.numInstances ≠ 0
  loses : l.started = true → p ∈ f.loses n → ∃ lq, f = .workerSwitch p lq
  undisturbed : l.started = true → f.disturbs ≠ some p.id
  action : l.started = true → ∀ ctx todo, f = .executeAction ctx todo → ctx.task = p →
    n.actionPool.isHandleValid (n.task p).action = true

/-- The step retains a task that waits, or schedules it again. -/
def RetainsTask (p : Ptr) (f : Frame) (n : Node) (fs : Multiset Frame) : Prop :=
  ∃ v q r ii rest finite, f = .processState v q r ii rest finite ∧
    ((n.visitorState v).1 = .retained ∨ (n.visitorState v).1 = .scheduled) ∧
    0 < waiting n fs p

/-- The steps of a task that may also be retained while it waits. -/
structure KeepsInstances (p : Ptr) (t : Nat) (c : Choice) (f : Frame) (n : Node) (l : History)
    (fs : Multiset Frame) : Prop where
  deletes : deletesUnreferenced t c f n fs
  instances : ∀ call, f = .startInit call p → call.attributes.numInstances ≠ 0
  loses : l.started = true → p ∈ f.loses n → ∃ lq, f = .workerSwitch p lq
  undisturbed : l.started = true → f.disturbs = some p.id → RetainsTask p f n fs
  action : l.started = true → ∀ ctx todo, f = .executeAction ctx todo → ctx.task = p →
    n.actionPool.isHandleValid (n.task p).action = true

theorem RunsInstances.keeps {p : Ptr} {t : Nat} {c : Choice} {f : Frame} {n : Node} {l : History}
    {fs : Multiset Frame} (h : RunsInstances p t c f n l fs) : KeepsInstances p t c f n l fs :=
  ⟨h.deletes, h.instances, h.loses, fun hl hd => absurd hd (h.undisturbed hl), h.action⟩

/-- A visitor is about to change the state of a task. -/
def Frame.visiting : Frame → Bool
  | .processState .. => true
  | _ => false

theorem KeepsInstances.not_disturbs {p : Ptr} {t : Nat} {c : Choice} {f : Frame} {n : Node}
    {l : History} {fs : Multiset Frame} (h : KeepsInstances p t c f n l fs)
    (hl : l.started = true) (hf : f.visiting = false) : f.disturbs ≠ some p.id := by
  intro hd
  obtain ⟨v, q, r, ii, rest, finite, rfl, -⟩ := h.undisturbed hl hd
  cases hf

section Step

variable {p : Ptr} {t : Nat} {c : Choice} {f : Frame} {n : Node} {l : History}
  {fs : Multiset Frame}

theorem Frame.phases_of_mem_nextPhases {y : Phase} (h : (p, y) ∈ f.nextPhases c n) :
    (∃ x, (p, x) ∈ f.phases) ∨ (∃ lq, f = .workerContext p lq) ∨ f = .helperContext p ∨
      f.disturbs = some p.id ∧ f.visiting = false := by
  have hone : ∀ {x : Phase} {q : Ptr}, (p, y) ∈ [(q, x)] → p = q := fun hm =>
    (Prod.mk.inj (List.mem_singleton.mp hm)).1
  have hself : ∀ {x z : Phase} {q : Ptr}, (p, y) ∈ [(q, x)] → ∃ w, (p, w) ∈ [(q, z)] := by
    intro x z q hm
    rw [hone hm]
    exact ⟨z, List.mem_singleton_self _⟩
  unfold Frame.nextPhases at h
  split at h
  · exact Or.inr (Or.inl ⟨_, by rw [hone h]⟩)
  · exact Or.inr (Or.inr (Or.inl (by rw [hone h])))
  · split at h
    · exact Or.inl (hself h)
    · exact absurd h List.not_mem_nil
  · split at h
    · exact Or.inl (hself h)
    · exact Or.inl (hself h)
  · split at h
    · exact Or.inl (hself h)
    · exact Or.inl (hself h)
  · split at h
    · exact Or.inl (hself h)
    · exact absurd h List.not_mem_nil
  · exact Or.inl (hself h)
  · split at h
    · exact Or.inr (Or.inr (Or.inr ⟨by rw [hone h]; rfl, rfl⟩))
    · exact absurd h List.not_mem_nil
  · split at h
    · exact Or.inl (hself h)
    · split at h
      · exact Or.inl (hself h)
      · exact absurd h List.not_mem_nil
  · split at h
    · exact Or.inl (hself h)
    · exact absurd h List.not_mem_nil
  · split at h
    · exact Or.inr (Or.inr (Or.inr ⟨by rw [hone h]; rfl, rfl⟩))
    · exact absurd h List.not_mem_nil
  · exact absurd h List.not_mem_nil
  · exact Or.inl ⟨y, h⟩

theorem Frame.phases_of_mem_events {e : Event} (h : (p, e) ∈ f.events c n) :
    ∃ x, (p, x) ∈ f.phases := by
  have hself : ∀ {q : Ptr} {es : List (Ptr × Event)} {x : Phase}, (p, e) ∈ es →
      (∀ y ∈ es, y.1 = q) → ∃ w, (p, w) ∈ [(q, x)] := by
    intro q es x hm hes
    rw [show p = q from hes _ hm]
    exact ⟨x, List.mem_singleton_self _⟩
  unfold Frame.events at h
  split at h
  all_goals first
    | (split at h
       · exact hself h (by simp)
       · split at h
         · exact hself h (by simp)
         · split at h <;> exact hself h (by simp))
    | (split at h
       · exact hself h (by simp)
       · split at h <;> exact hself h (by simp))
    | (split at h
       · exact hself h (by simp)
       · exact absurd h List.not_mem_nil)
    | (split at h <;> exact hself h (by simp))
    | exact absurd h List.not_mem_nil
    | exact hself h (by simp)

/-- An instance is counted down, and a task completed, at one program point each. -/
theorem Frame.events_cases {e : Event} (h : (p, e) ∈ f.events c n) :
    (e = .counted → ∃ ctx a, ctx.task = p ∧ f = .executeTodo ctx a) ∧
      (e = .completed → ∃ ctx a, ctx.task = p ∧ f = .executeCompleted ctx a) := by
  constructor
  all_goals
    rintro rfl
    unfold Frame.events at h
    split at h
  all_goals first
    | (split at h
       · simp at h
       · split at h
         · simp at h
         · split at h <;> simp at h)
    | (split at h
       · simp at h
       · split at h <;> simp at h)
    | (split at h <;> simp at h)
    | exact absurd h List.not_mem_nil
    | (cases List.mem_singleton.mp h
       exact ⟨_, _, rfl, rfl⟩)
    | simp at h

/-- Apart from an instance that takes its number or counts itself down, a step takes an instance
of the task from one phase to another, or does not concern it. -/
theorem moves_nextPhases (h : KeepsInstances p t c f n l fs) (hl : l.started = true)
    (htakes : ∀ lq, f ≠ .workerContext p lq) (hhelps : f ≠ .helperContext p)
    (htodo : ∀ ctx a, f = .executeTodo ctx a → ctx.task ≠ p) :
    Moves (ofTask p f.phases) (ofTask p (f.nextPhases c n)) (ofTask p (f.events c n)) := by
  by_cases hp : ∃ x, (p, x) ∈ f.phases
  · obtain ⟨x, hx⟩ := hp
    cases f with
    | executeRunning ctx =>
      cases List.mem_singleton.mp hx
      exact Moves.stay _
    | executeAction ctx todo =>
      cases List.mem_singleton.mp hx
      rw [Frame.nextPhases, if_pos (h.action hl ctx todo rfl rfl)]
      exact Moves.stay _
    | executeCheck ctx a =>
      cases List.mem_singleton.mp hx
      rw [Frame.nextPhases, Frame.events]
      split
      · simp only [Frame.phases, ofTask_cons_self, ofTask_nil]
        exact Moves.call _
      · simp only [Frame.phases, ofTask_cons_self, ofTask_nil]
        exact Moves.skip _
    | actionFunction ctx a =>
      cases List.mem_singleton.mp hx
      rw [Frame.nextPhases, Frame.events]
      split
      · simp only [Frame.phases, ofTask_cons_self, ofTask_nil]
        exact Moves.return' _
      · exact Moves.stay _
    | executeTodo ctx a =>
      cases List.mem_singleton.mp hx
      exact absurd rfl (htodo ctx a rfl)
    | executeCompleted ctx a =>
      cases List.mem_singleton.mp hx
      simp only [Frame.phases, Frame.nextPhases, Frame.events, ofTask_cons_self, ofTask_nil]
      exact Moves.complete
    | executeNumTasks ctx a todo => exact Moves.stay _
    | executeGroup ctx =>
      cases List.mem_singleton.mp hx
      simp only [Frame.phases, Frame.nextPhases, Frame.events]
      split
      · simp only [ofTask_cons_self, ofTask_nil]
        exact Moves.group
      · split
        · simp only [ofTask_cons_self, ofTask_nil]
          exact Moves.alone
        · split
          · simp only [ofTask_cons_self, ofTask_nil]
            exact Moves.miss
          · simp only [ofTask_cons_self, ofTask_nil]
            exact Moves.leave
    | executeGroupPush ctx g =>
      cases List.mem_singleton.mp hx
      simp only [Frame.phases, Frame.nextPhases, Frame.events]
      split
      · simp only [ofTask_cons_self, ofTask_nil]
        exact Moves.push
      · split
        · simp only [ofTask_cons_self, ofTask_nil]
          exact Moves.lastMissed
        · simp only [ofTask_cons_self, ofTask_nil]
          exact Moves.last
    | workerFinished q lq =>
      cases List.mem_singleton.mp hx
      simp only [Frame.phases, Frame.nextPhases, Frame.events, ofTask_cons_self, ofTask_nil]
      exact Moves.notify
    | _ => exact absurd hx List.not_mem_nil
  · have hphases : ofTask p f.phases = [] :=
      ofTask_of_ne fun x hx he => hp ⟨x.2, he ▸ hx⟩
    have hnext : ofTask p (f.nextPhases c n) = [] := by
      refine ofTask_of_ne fun x hx he => ?_
      subst he
      rcases Frame.phases_of_mem_nextPhases hx with hx | ⟨lq, hf⟩ | hf | hf
      · exact hp hx
      · exact htakes lq hf
      · exact hhelps hf
      · exact h.not_disturbs hl hf.2 hf.1
    have hevents : ofTask p (f.events c n) = [] := by
      refine ofTask_of_ne fun x hx he => ?_
      subst he
      exact hp (Frame.phases_of_mem_events hx)
    rw [hphases, hnext, hevents]
    exact Moves.stay []

end Step

/-- A history begins with the start of the task, and ends where its slot is given back. -/
def History.record (p : Ptr) (_ : Nat) (c : Choice) (f : Frame) (n : Node) (l : History) :
    History :=
  match f with
  | .startInit _ q => if q.id = p.id then ⟨q = p, []⟩ else l
  | .taskDelete q _ | .taskDeallocate q _ => if q.id = p.id then ⟨false, l.events⟩ else l
  | f => ⟨l.started, l.events ++ ofTask p (f.events c n)⟩

/-- The phases of the instances of a task. -/
def phasesOf (p : Ptr) (fs : Multiset Frame) : Multiset Phase :=
  gather (fun f => ofTask p f.phases) fs

theorem phasesOf_cons (p : Ptr) (f : Frame) (fs : Multiset Frame) :
    phasesOf p (f ::ₘ fs) = (ofTask p f.phases : Multiset Phase) + phasesOf p fs :=
  gather_cons _ f fs

theorem phasesOf_add (p : Ptr) (fs : List Frame) (others : Multiset Frame) :
    phasesOf p (fs + others) =
      (ofTask p (fs.flatMap Frame.phases) : List Phase) + phasesOf p others := by
  rw [phasesOf, phasesOf, gather_add, ofTask, List.filterMap_flatMap]
  rfl

theorem mem_ofTask {A : Type} {p : Ptr} {xs : List (Ptr × A)} {x : A} (h : x ∈ ofTask p xs) :
    (p, x) ∈ xs := by
  obtain ⟨⟨q, y⟩, hy, hx⟩ := List.mem_filterMap.mp h
  split at hx
  · rename_i hq
    cases hq
    cases hx
    exact hy
  · cases hx

theorem phasesOf_of_not_mem {n : Node} {p : Ptr} {fs : Multiset Frame}
    (h : p ∉ references n fs) : phasesOf p fs = 0 := by
  rw [Multiset.eq_zero_iff_forall_notMem]
  intro x hx
  obtain ⟨f, hf, hm⟩ := mem_gather.mp hx
  exact h (mem_references_of_mem hf (Frame.mem_refs_of_mem_phases (mem_ofTask hm)))

/-- An instance that has not counted itself down is still waiting to be over. -/
theorem active_le_waiting (n : Node) (p : Ptr) (fs : Multiset Frame) :
    (phasesOf p fs).countP (fun x => x.isActive) ≤ waiting n fs p := by
  induction fs using Multiset.induction_on with
  | empty => exact Nat.zero_le _
  | cons f fs ih =>
    have hself : (ofTask p f.phases).countP (fun x => x.isActive) ≤
        (f.work : Multiset (Stage × Ptr)).count (.waiting, p) := by
      cases f with
      | executeRunning ctx | executeAction ctx | executeCheck ctx | actionFunction ctx
        | executeTodo ctx =>
        by_cases hp : ctx.task = p
        · simp [Frame.phases, Frame.work, hp, Phase.isActive]
        · rw [ofTask_of_ne fun x hx => by rw [List.mem_singleton.mp hx]; exact hp]
          exact Nat.zero_le _
      | executeNumTasks ctx a todo =>
        refine le_of_eq_of_le (List.countP_eq_zero.mpr fun x hx => ?_) (Nat.zero_le _)
        have hm := mem_ofTask hx
        simp only [Frame.phases] at hm
        split at hm
        · cases List.mem_singleton.mp hm
          exact Bool.noConfusion
        · exact absurd hm List.not_mem_nil
      | executeCompleted | executeGroup | executeGroupPush | workerFinished =>
        refine le_of_eq_of_le (List.countP_eq_zero.mpr fun x hx => ?_) (Nat.zero_le _)
        cases List.mem_singleton.mp (mem_ofTask hx)
        exact Bool.noConfusion
      | _ => exact Nat.zero_le _
    rw [phasesOf_cons, waiting, work_cons, Multiset.countP_add, Multiset.count_add,
      Multiset.coe_countP]
    simp only [Bool.decide_eq_true]
    exact Nat.add_le_add hself ih

/-- The program points before a new task becomes scheduled, with all its instances left. -/
def Frame.unready : Frame → List Ptr
  | .startGroup _ p | .startGroupCount _ p | .startQueue _ p | .startQueueCount _ p
  | .startChoose _ p _ _ | .startChooseLoad _ p _ _ _ _ | .startAction _ p _
  | .startSchedule _ p => [p]
  | _ => []

/-- The worker executes a task in this state, or schedules it again. -/
def TaskState.waits : TaskState → Bool
  | .scheduled | .running | .retained => true
  | _ => false

/-- What is known about the instances of one task. -/
structure InstancesCounted (p : Ptr) (n : Node) (l : History) (fs : Multiset Frame) : Prop
    extends WorkCounted (fun _ q => q = p ∧ l.started = true) n fs where
  task : l.started = true → n.taskPool.Live p
  some : l.started = true → (n.task p).attributes.numInstances ≠ 0
  history : l.started = true → Counted (n.task p).attributes.numInstances
    (n.task p).currentInstance (waiting n fs p) l.events (phasesOf p fs)
  state : l.started = true → .completed ∈ l.events → (n.task p).state = .completed
  ready : l.started = true → 0 < waiting n fs p →
    (n.task p).state.waits = true ∨ ∃ g ∈ fs, p ∈ g.unready

/-- The steps at which a history begins or ends. -/
def Frame.resets (p : Ptr) : Frame → Bool
  | .startInit _ q | .taskDelete q _ | .taskDeallocate q _ => q.id = p.id
  | _ => false

theorem History.record_of_not_resets {p : Ptr} {f : Frame} (h : f.resets p = false) (t : Nat)
    (c : Choice) (n : Node) (l : History) :
    History.record p t c f n l = ⟨l.started, l.events ++ ofTask p (f.events c n)⟩ := by
  cases f with
  | startInit call q =>
    have hid : q.id ≠ p.id := of_decide_eq_false h
    simp only [record, if_neg hid, Frame.events, ofTask_nil, List.append_nil]
  | taskDelete q | taskDeallocate q =>
    have hid : q.id ≠ p.id := of_decide_eq_false h
    simp only [record, if_neg hid, Frame.events, ofTask_nil, List.append_nil]
  | _ => rfl

/-- The slot whose number of started instances an access changes. -/
def Access.writesInstance : Access → Option Nat
  | .taskInit p _ | .taskContext p | .taskFinalize p | .taskDeallocate p => some p.id
  | _ => none

theorem Node.currentInstance_access (n : Node) {u : Access} {id : Nat}
    (h : u.writesInstance ≠ some id) :
    ((n.access u).taskPool.storage id).currentInstance =
      (n.taskPool.storage id).currentInstance := by
  apply n.taskField_keep u Task.currentInstance (fun _ _ => rfl) id
  · intro p g ho hid
    cases u with
    | taskInit | taskContext | taskFinalize =>
      cases ho
      exact absurd (congrArg Option.some hid) h
    | taskGroup q group => cases group <;> cases ho <;> rfl
    | taskQueue q queue => cases queue <;> cases ho <;> rfl
    | _ => cases ho <;> rfl
  · rintro p rfl hid
    exact absurd (congrArg Option.some hid) h

/-- The slot whose state an access changes. -/
def Access.writesState : Access → Option Nat
  | .taskInit p _ | .taskAction p _ | .taskState p _ | .taskFinalize p | .taskDeallocate p =>
    some p.id
  | _ => none

theorem Node.state_access (n : Node) {u : Access} {id : Nat} (h : u.writesState ≠ some id) :
    ((n.access u).taskPool.storage id).state = (n.taskPool.storage id).state := by
  apply n.taskField_keep u Task.state (fun _ _ => rfl) id
  · intro p g ho hid
    cases u with
    | taskInit | taskAction | taskState | taskFinalize =>
      cases ho
      exact absurd (congrArg Option.some hid) h
    | taskGroup q group => cases group <;> cases ho <;> rfl
    | taskQueue q queue => cases queue <;> cases ho <;> rfl
    | _ => cases ho <;> rfl
  · rintro p rfl hid
    exact absurd (congrArg Option.some hid) h

/-- All instances of a task are left until it becomes scheduled. -/
theorem Frame.starts_of_unready {f : Frame} {p : Ptr} (h : p ∈ f.unready) :
    ∃ call, (call, p) ∈ f.starts ∧
      f.work = List.replicate call.attributes.numInstances (.waiting, p) := by
  unfold Frame.unready at h
  split at h
  all_goals first
    | exact absurd h List.not_mem_nil
    | (cases List.mem_singleton.mp h
       exact ⟨_, List.mem_singleton_self _, rfl⟩)

/-- A start call goes on until the task becomes scheduled, or cannot find an action for it. -/
theorem exec_unready {f : Frame} {p : Ptr} (h : p ∈ f.unready) (t : Nat) (c : Choice) (n : Node) :
    (∃ g ∈ (exec t c f n).2, p ∈ g.unready) ∨ p ∈ f.loses n ∨
      ∃ call, f = .startSchedule call p := by
  have hself : ∀ {fs : List Frame} {g : Frame}, fs = [g] → p ∈ g.unready →
      ∃ g' ∈ fs, p ∈ g'.unready := by
    rintro fs g rfl hp
    exact ⟨g, List.mem_singleton_self g, hp⟩
  cases f with
  | startGroup call q | startQueue call q | startChooseLoad call q =>
    left
    simp only [exec]
    split
    · exact hself rfl h
    · exact hself rfl h
  | startGroupCount call q | startQueueCount call q =>
    left
    exact hself rfl h
  | startChoose call q ii actionIndex =>
    left
    simp only [exec]
    split
    · split
      · exact hself rfl h
      · exact hself rfl h
    · exact hself rfl h
  | startAction call q i =>
    by_cases hi : n.actionPool.isHandleValid ((n.jobList call.job.id).actions i) ∧
        (n.task q).attributes.priority < n.attributes.maxPriorities
    · left
      simp only [exec, hi.1, hi.2, ↓reduceIte]
      exact hself rfl h
    · right
      left
      rw [Frame.loses, if_neg hi]
      exact h
  | startSchedule call q =>
    cases List.mem_singleton.mp h
    exact Or.inr (Or.inr ⟨call, rfl⟩)
  | _ => exact absurd h List.not_mem_nil

/-- Fewer tasks matter. -/
theorem WorkCounted.weaken {I J : Node → Ptr → Prop} {n : Node} {fs : Multiset Frame}
    (h : WorkCounted I n fs) (hJ : ∀ q, Tracked J n fs q → Tracked I n fs q) :
    WorkCounted J n fs :=
  ⟨h.toTasksOwned, h.started, h.localTodo, fun q =>
    (h.tally q).congr (fun _ => ⟨rfl, rfl⟩) fun _ => hJ q⟩

/-- A history that goes on has begun before, or begins with the start of the task. -/
theorem History.started_of_record {p : Ptr} {t : Nat} {c : Choice} {f : Frame} {n : Node}
    {l : History} (h : (History.record p t c f n l).started = true) :
    l.started = true ∨ ∃ call, f = .startInit call p := by
  cases f with
  | startInit call q =>
    simp only [record] at h
    split at h
    · cases of_decide_eq_true h
      exact Or.inr ⟨call, rfl⟩
    · exact Or.inl h
  | taskDelete q | taskDeallocate q =>
    simp only [record] at h
    split at h
    · cases h
    · exact Or.inl h
  | _ => exact Or.inl h

namespace InstancesCounted

variable {p : Ptr} {t : Nat} {c : Choice} {f : Frame} {n : Node} {l : History}
  {others : Multiset Frame}

/-- The instances of a task that is not scheduled yet are all left. -/
theorem le_waiting_of_unready {fs : Multiset Frame} (h : InstancesCounted p n l fs)
    {g : Frame} (hg : g ∈ fs) {others : Multiset Frame} (ho : g ∈ others) (hp : p ∈ g.unready) :
    (n.task p).attributes.numInstances ≤ waiting n others p := by
  obtain ⟨call, hstarts, hwork⟩ := Frame.starts_of_unready hp
  obtain ⟨rest, rfl⟩ := Multiset.exists_cons_of_mem ho
  rw [h.started g hg call p hstarts, waiting, work_cons, Multiset.count_add, hwork,
    Multiset.coe_replicate, Multiset.count_replicate_self]
  exact Nat.le_add_right _ _

/-- A task whose history goes on keeps its slot, and its attributes. -/
theorem task_exec (h : InstancesCounted p n l (f ::ₘ others)) (hl : l.started = true)
    (hr : f.resets p = false) :
    (code t c f n).1.taskPool.Live p ∧
      ((code t c f n).1.task p).attributes = (n.task p).attributes := by
  have hissued := exec_issuedBy t c f n
  constructor
  · refine Node.live_access h.sound (h.task hl) fun q hu hid => ?_
    rw [hu] at hissued
    obtain ⟨caller, rfl⟩ := hissued
    exact of_decide_eq_false hr hid.symm
  · refine n.taskAttributes_access _ fun q call hu hid => ?_
    rw [hu] at hissued
    cases hissued
    exact of_decide_eq_false hr hid

/-- A program point that refers to a task in the slot refers to this task. -/
theorem eq_of_id (h : InstancesCounted p n l (f ::ₘ others)) (hl : l.started = true) {q : Ptr}
    (hq : q ∈ f.refs) (hid : q.id = p.id) : q = p :=
  (h.live q (mem_references_of_mem (Multiset.mem_cons_self f others) hq)).eq_of_id (h.task hl) hid

/-- No instance comes up. -/
theorem not_begins (hr : f.resets p = false) : (.waiting, p) ∉ f.beginsWork n := by
  have hone : ∀ {x : Stage} {q : Ptr}, (Stage.waiting, p) ∈ [(x, q)] → x = .waiting := fun hm =>
    (Prod.mk.inj (List.mem_singleton.mp hm)).1.symm
  have hnotifies : ∀ {ctx : Context}, (Stage.waiting, p) ∉ ctx.notifies := by
    intro ctx hm
    rcases ctx.notifies_cases with he | he
    · exact absurd (he ▸ hm) List.not_mem_nil
    · cases hone (he ▸ hm)
  intro hm
  unfold Frame.beginsWork at hm
  split at hm
  · rename_i call q
    cases (Prod.mk.inj (List.mem_replicate.mp hm).2).2
    exact of_decide_eq_false hr rfl
  · split at hm
    · cases hone hm
    · exact absurd hm List.not_mem_nil
  · split at hm
    · exact absurd hm List.not_mem_nil
    · split at hm
      · cases hone hm
      · exact absurd hm List.not_mem_nil
  · split at hm
    · exact absurd hm List.not_mem_nil
    · exact hnotifies hm
  · exact hnotifies hm
  · split at hm
    · cases hone hm
    · exact absurd hm List.not_mem_nil
  · exact absurd hm List.not_mem_nil

/-- A worker does not drop an instance. -/
theorem not_loses (h : InstancesCounted p n l (f ::ₘ others)) (hl : l.started = true)
    (hg : KeepsInstances p t c f n l (f ::ₘ others)) : p ∉ f.loses n := by
  intro hlose
  obtain ⟨lq, rfl⟩ := hg.loses hl hlose
  have hself : (.waiting, p) ∈ (Frame.workerSwitch p lq).work := List.mem_singleton_self _
  rcases h.ready hl (waiting_pos hself) with hwaits | ⟨g, hgm, hpg⟩
  · unfold TaskState.waits at hwaits
    simp only [Frame.loses] at hlose
    split at hwaits
    · rename_i hs
      rw [hs] at hlose
      exact List.not_mem_nil hlose
    · rename_i hs
      rw [hs] at hlose
      exact List.not_mem_nil hlose
    · rename_i hs
      rw [hs] at hlose
      exact List.not_mem_nil hlose
    · cases hwaits
  · rcases Multiset.mem_cons.mp hgm with rfl | hgm
    · exact List.not_mem_nil hpg
    · have hothers := h.le_waiting_of_unready (Multiset.mem_cons_of_mem hgm) hgm hpg
      have htodo := (h.history hl).todo
      have hwaiting : waiting n (.workerSwitch p lq ::ₘ others) p = 1 + waiting n others p := by
        rw [waiting, work_cons, Multiset.count_add]
        exact congrArg (· + _) (Multiset.count_singleton_self _)
      omega

theorem workCounted (h : InstancesCounted p n l (f ::ₘ others))
    (hg : KeepsInstances p t c f n l (f ::ₘ others)) :
    WorkCounted (fun _ q => q = p ∧ (History.record p t c f n l).started = true) (code t c f n).1
      ((code t c f n).2 + others) := by
  refine workCounted_exec (h.toWorkCounted.weaken fun q hq => ?_) hg.deletes
    (fun q hlose hfresh hq => ?_) fun _ _ _ hq => hq
  · rcases hq with ⟨rfl, hs⟩ | hq
    · rcases History.started_of_record hs with hl | ⟨call, rfl⟩
      · exact Or.inl ⟨rfl, hl⟩
      · exact Or.inr ⟨_, Multiset.mem_cons_self _ _, List.mem_singleton_self _⟩
    · exact Or.inr hq
  · obtain ⟨rfl, hs⟩ := hq
    rcases History.started_of_record hs with hl | ⟨call, rfl⟩
    · exact h.not_loses hl hg hlose
    · exact List.not_mem_nil hlose

/-- An instance is over where it counts itself down. -/
theorem count_ends (h : InstancesCounted p n l (f ::ₘ others)) (hl : l.started = true)
    (hg : KeepsInstances p t c f n l (f ::ₘ others)) :
    Multiset.count (Stage.waiting, p) (f.endsWork n) =
      (ofTask p (f.events c n)).count .counted := by
  by_cases hf : ∃ ctx a, ctx.task = p ∧ f = .executeTodo ctx a
  · obtain ⟨ctx, a, rfl, rfl⟩ := hf
    simp only [Frame.endsWork, Frame.events, ofTask_cons_self, ofTask_nil]
    rw [Multiset.coe_singleton, Multiset.count_singleton_self]
    rfl
  · have hends : (.waiting, p) ∉ f.endsWork n := by
      intro hm
      rcases Frame.endsWork_cases hm with ⟨-, hc⟩ | ⟨hs, -⟩ | ⟨hs, -⟩
      · rcases hc with hlose | htodo | ⟨ctx, htask, rfl, hinvalid⟩ | ⟨lq, rfl⟩
        · exact h.not_loses hl hg hlose
        · exact hf htodo
        · have hvalid := hg.action hl ctx 1 rfl htask
          rw [hinvalid] at hvalid
          cases hvalid
        · exact hg.not_disturbs hl rfl rfl
      · cases hs
      · cases hs
    have hevents : .counted ∉ ofTask p (f.events c n) := fun hm =>
      hf ((Frame.events_cases (mem_ofTask hm)).1 rfl)
    rw [List.count_eq_zero.mpr hevents]
    exact Multiset.count_eq_zero.mpr hends

/-- The number of instances that are not over changes where one counts itself down. -/
theorem waiting_exec (h : InstancesCounted p n l (f ::ₘ others)) (hl : l.started = true)
    (hg : KeepsInstances p t c f n l (f ::ₘ others)) (hr : f.resets p = false) :
    waiting n (f ::ₘ others) p = waiting (code t c f n).1 ((code t c f n).2 + others) p +
      (ofTask p (f.events c n)).count .counted := by
  have hbal := h.toWorkCounted.waiting_exec (t := t) (c := c) p
  have hbegins : Multiset.count (Stage.waiting, p) (f.beginsWork n) = 0 :=
    Multiset.count_eq_zero.mpr (not_begins hr)
  rw [hbegins, h.count_ends hl hg] at hbal
  exact hbal

/-- The instances that have taken a number are fewer than there are, where one is about to. -/
theorem currentInstance_lt (h : InstancesCounted p n l (f ::ₘ others)) (hl : l.started = true)
    (hf : ofTask p f.phases = []) (hm : (.waiting, p) ∈ f.work) :
    (n.task p).currentInstance < (n.task p).attributes.numInstances := by
  have hcurrent := (h.history hl).currentInstance_eq
  rw [phasesOf_cons, hf, Multiset.coe_nil, zero_add] at hcurrent
  have htodo := (h.history hl).todo
  have hactive := active_le_waiting n p others
  have hwaiting : waiting n (f ::ₘ others) p =
      (f.work : Multiset (Stage × Ptr)).count (.waiting, p) + waiting n others p := by
    rw [waiting, work_cons, Multiset.count_add]
    rfl
  have hpos : 0 < (f.work : Multiset (Stage × Ptr)).count (.waiting, p) :=
    Multiset.count_pos.mpr hm
  omega

/-- Where the numbers of started instances stay. -/
theorem currentInstance_exec (h : InstancesCounted p n l (f ::ₘ others)) (hl : l.started = true)
    (hr : f.resets p = false) (htakes : ∀ lq, f ≠ .workerContext p lq)
    (hhelps : f ≠ .helperContext p) :
    ((code t c f n).1.task p).currentInstance = (n.task p).currentInstance := by
  have hissued := exec_issuedBy t c f n
  refine n.currentInstance_access fun hw => ?_
  cases hu : (exec t c f n).1 with
  | taskInit q call =>
    rw [hu] at hw hissued
    cases hissued
    exact of_decide_eq_false hr (Option.some.inj hw)
  | taskContext q =>
    rw [hu] at hw hissued
    obtain ⟨lq, rfl⟩ | rfl := hissued
    · cases h.eq_of_id hl (List.mem_singleton_self q) (Option.some.inj hw)
      exact htakes lq rfl
    · cases h.eq_of_id hl (List.mem_singleton_self q) (Option.some.inj hw)
      exact hhelps rfl
  | taskFinalize q =>
    rw [hu] at hw hissued
    obtain ⟨caller, rfl⟩ := hissued
    exact of_decide_eq_false hr (Option.some.inj hw)
  | taskDeallocate q =>
    rw [hu] at hw hissued
    obtain ⟨caller, rfl⟩ := hissued
    exact of_decide_eq_false hr (Option.some.inj hw)
  | _ =>
    rw [hu] at hw
    cases hw

/-- An instance takes its number. -/
theorem history_begin (h : InstancesCounted p n l (f ::ₘ others)) (hl : l.started = true)
    (hg : KeepsInstances p t c f n l (f ::ₘ others))
    (hf : (∃ lq, f = .workerContext p lq) ∨ f = .helperContext p) :
    Counted ((code t c f n).1.task p).attributes.numInstances
      ((code t c f n).1.task p).currentInstance
      (waiting (code t c f n).1 ((code t c f n).2 + others) p)
      (l.events ++ ofTask p (f.events c n))
      ((ofTask p (f.nextPhases c n) : List Phase) + phasesOf p others) := by
  have hfacts : f.resets p = false ∧ f.phases = [] ∧ f.events c n = [] ∧
      (exec t c f n).1 = .taskContext p ∧ (.waiting, p) ∈ f.work ∧
      f.nextPhases c n = [(p, .begun (n.task p).currentInstance)] := by
    obtain ⟨lq, rfl⟩ | rfl := hf
    · exact ⟨rfl, rfl, rfl, rfl, List.mem_singleton_self _, rfl⟩
    · exact ⟨rfl, rfl, rfl, rfl, List.mem_singleton_self _, rfl⟩
  obtain ⟨hr, hphases, hevents, hu, hm, hnext⟩ := hfacts
  have hlt := h.currentInstance_lt hl (by rw [hphases, ofTask_nil]) hm
  have hsucc : ((code t c f n).1.task p).currentInstance = (n.task p).currentInstance + 1 := by
    have hrange := (n.task p).attributes.numInstances_lt
    rw [code, hu, Node.access, Node.task_modifyTask_self]
    exact uintSucc_of_lt (by omega)
  have hwaiting := h.waiting_exec hl hg hr
  have hhistory := h.history hl
  rw [phasesOf_cons, hphases, ofTask_nil, Multiset.coe_nil, zero_add] at hhistory
  rw [hevents, ofTask_nil, List.count_nil, add_zero] at hwaiting
  rw [hnext, hevents, hsucc, (h.task_exec hl hr).2, ofTask_nil, List.append_nil, ofTask_cons_self,
    ofTask_nil, ← hwaiting]
  exact hhistory.begin

/-- An instance counts itself down. -/
theorem history_countDown (h : InstancesCounted p n l (f ::ₘ others)) (hl : l.started = true)
    (hg : KeepsInstances p t c f n l (f ::ₘ others)) {ctx : Context} {a : Ptr} (hp : ctx.task = p)
    (hf : f = .executeTodo ctx a) :
    Counted ((code t c f n).1.task p).attributes.numInstances
      ((code t c f n).1.task p).currentInstance
      (waiting (code t c f n).1 ((code t c f n).2 + others) p)
      (l.events ++ ofTask p (f.events c n))
      ((ofTask p (f.nextPhases c n) : List Phase) + phasesOf p others) := by
  subst hf
  have hr : (Frame.executeTodo ctx a).resets p = false := rfl
  have hwaiting := h.waiting_exec hl hg hr
  have hhistory := h.history hl
  have hpos : 0 < waiting n (.executeTodo ctx a ::ₘ others) p :=
    waiting_pos (by rw [← hp]; exact List.mem_singleton_self _)
  have hexact := (h.tally p).exact hpos (Or.inl ⟨rfl, hl⟩)
  rw [h.currentInstance_exec hl hr nofun nofun, (h.task_exec hl hr).2]
  subst hp
  rw [phasesOf_cons] at hhistory
  simp only [Frame.events, Frame.phases, Frame.nextPhases, ofTask_cons_self, ofTask_nil,
    List.count_singleton_self] at hwaiting hhistory ⊢
  rw [hwaiting] at hhistory hexact
  refine hhistory.countDown ?_
  by_cases hone : (n.task ctx.task).instancesTodo = 1
  · rw [if_pos hone, if_pos (by omega), ofTask_cons_self, ofTask_nil]
  · rw [if_neg hone, if_neg (by omega), ofTask_nil]

/-- Any other step of a task. -/
theorem history_moves (h : InstancesCounted p n l (f ::ₘ others)) (hl : l.started = true)
    (hg : KeepsInstances p t c f n l (f ::ₘ others)) (hr : f.resets p = false)
    (htakes : ∀ lq, f ≠ .workerContext p lq) (hhelps : f ≠ .helperContext p)
    (htodo : ∀ ctx a, f = .executeTodo ctx a → ctx.task ≠ p) :
    Counted ((code t c f n).1.task p).attributes.numInstances
      ((code t c f n).1.task p).currentInstance
      (waiting (code t c f n).1 ((code t c f n).2 + others) p)
      (l.events ++ ofTask p (f.events c n))
      ((ofTask p (f.nextPhases c n) : List Phase) + phasesOf p others) := by
  have hmoves := moves_nextPhases hg hl htakes hhelps htodo
  have hwaiting := h.waiting_exec hl hg hr
  have hzero := hmoves.count_counted
  have hhistory := h.history hl
  rw [phasesOf_cons] at hhistory
  rw [hzero, add_zero] at hwaiting
  rw [h.currentInstance_exec hl hr htakes hhelps, (h.task_exec hl hr).2, ← hwaiting]
  exact hhistory.moves hmoves

theorem history_exec (h : InstancesCounted p n l (f ::ₘ others)) (hl : l.started = true)
    (hg : KeepsInstances p t c f n l (f ::ₘ others)) (hr : f.resets p = false) :
    Counted ((code t c f n).1.task p).attributes.numInstances
      ((code t c f n).1.task p).currentInstance
      (waiting (code t c f n).1 ((code t c f n).2 + others) p)
      (l.events ++ ofTask p (f.events c n)) (phasesOf p ((code t c f n).2 + others)) := by
  rw [phasesOf_add, show (code t c f n).2.flatMap Frame.phases = _ from exec_phases t c f n]
  by_cases hbegin : (∃ lq, f = .workerContext p lq) ∨ f = .helperContext p
  · exact h.history_begin hl hg hbegin
  · rw [not_or, not_exists] at hbegin
    by_cases htodo : ∃ ctx a, ctx.task = p ∧ f = .executeTodo ctx a
    · obtain ⟨ctx, a, hp, hf⟩ := htodo
      exact h.history_countDown hl hg hp hf
    · exact h.history_moves hl hg hr hbegin.1 hbegin.2 fun ctx a hf hp => htodo ⟨ctx, a, hp, hf⟩

/-- A completed task has no instance left. -/
theorem waiting_of_completed (h : InstancesCounted p n l (f ::ₘ others)) (hl : l.started = true)
    (hc : .completed ∈ l.events) : waiting n (f ::ₘ others) p = 0 := by
  have hcompleted := (h.history hl).completed
  have hpos := List.count_pos_iff.mpr hc
  by_contra hne
  rw [if_neg hne] at hcompleted
  omega

/-- Nothing overwrites the state of a completed task. -/
theorem state_exec (h : InstancesCounted p n l (f ::ₘ others)) (hl : l.started = true)
    (hg : KeepsInstances p t c f n l (f ::ₘ others)) (hr : f.resets p = false)
    (hc : .completed ∈ l.events ++ ofTask p (f.events c n)) :
    ((code t c f n).1.task p).state = .completed := by
  have hissued := exec_issuedBy t c f n
  by_cases hf : ∃ ctx a, ctx.task = p ∧ f = .executeCompleted ctx a
  · obtain ⟨ctx, a, rfl, rfl⟩ := hf
    simp only [code, exec, Node.access, Node.setTaskState, Node.task_modifyTask_self]
  · have hc : .completed ∈ l.events := by
      rcases List.mem_append.mp hc with hc | hc
      · exact hc
      · exact absurd ((Frame.events_cases (mem_ofTask hc)).2 rfl) hf
    have hzero := h.waiting_of_completed hl hc
    have hnot : (.waiting, p) ∉ f.work := fun hm => by
      have hpos : 0 < waiting n (f ::ₘ others) p := waiting_pos hm
      omega
    have hsome := h.some hl
    rw [← h.state hl hc]
    refine n.state_access fun hw => ?_
    cases hu : (exec t c f n).1 with
    | taskInit q call =>
      rw [hu] at hw hissued
      cases hissued
      exact of_decide_eq_false hr (Option.some.inj hw)
    | taskAction q a =>
      rw [hu] at hw hissued
      obtain ⟨-, call, i, -, rfl⟩ := hissued
      cases h.eq_of_id hl (List.mem_singleton_self q) (Option.some.inj hw)
      refine hnot (List.mem_replicate.mpr ⟨?_, rfl⟩)
      rw [← h.started _ (Multiset.mem_cons_self _ _) call p (List.mem_singleton_self _)]
      exact hsome
    | taskState q s =>
      rw [hu] at hw hissued
      obtain ⟨ctx, rfl, -, rfl⟩ | ⟨ctx, a, rfl, -, rfl⟩ | ⟨ctx, todo, rfl, -, rfl⟩ |
        ⟨call, -, rfl⟩ | ⟨-, rfl⟩ | ⟨-, rfl⟩ | ⟨v, r, ii, rest, finite, rfl⟩ := hissued
      · have hq := h.eq_of_id hl (List.mem_singleton_self _) (Option.some.inj hw)
        refine hnot ?_
        rw [← hq]
        exact List.mem_singleton_self _
      · exact hf ⟨ctx, a, h.eq_of_id hl (List.mem_singleton_self _) (Option.some.inj hw), rfl⟩
      · exact hg.not_disturbs hl rfl hw
      · cases h.eq_of_id hl (List.mem_singleton_self q) (Option.some.inj hw)
        refine hnot (List.mem_replicate.mpr ⟨?_, rfl⟩)
        rw [← h.started _ (Multiset.mem_cons_self _ _) call p (List.mem_singleton_self _)]
        exact hsome
      · exact hg.not_disturbs hl rfl hw
      · exact hg.not_disturbs hl rfl hw
      · obtain ⟨v', q', r', ii', rest', finite', hf', -, hpos⟩ := hg.undisturbed hl hw
        omega
    | taskFinalize q =>
      rw [hu] at hw hissued
      obtain ⟨caller, rfl⟩ := hissued
      exact of_decide_eq_false hr (Option.some.inj hw)
    | taskDeallocate q =>
      rw [hu] at hw hissued
      obtain ⟨caller, rfl⟩ := hissued
      exact of_decide_eq_false hr (Option.some.inj hw)
    | _ =>
      rw [hu] at hw
      cases hw

/-- A task with instances left is scheduled, running or retained, or its start call is about to
schedule it. -/
theorem ready_exec (h : InstancesCounted p n l (f ::ₘ others)) (hl : l.started = true)
    (hg : KeepsInstances p t c f n l (f ::ₘ others)) (hr : f.resets p = false)
    (hpos : 0 < waiting (code t c f n).1 ((code t c f n).2 + others) p) :
    ((code t c f n).1.task p).state.waits = true ∨
      ∃ g ∈ ((code t c f n).2 : Multiset Frame) + others, p ∈ g.unready := by
  have hissued := exec_issuedBy t c f n
  have hwaiting := h.waiting_exec hl hg hr
  have hunready : ∀ hp : p ∈ f.unready, (∀ call, f ≠ .startSchedule call p) →
      ∃ g ∈ ((code t c f n).2 : Multiset Frame) + others, p ∈ g.unready := by
    intro hp hne
    rcases exec_unready hp t c n with ⟨g, hgm, hpg⟩ | hlose | ⟨call, hf⟩
    · exact ⟨g, Multiset.mem_add.mpr (Or.inl hgm), hpg⟩
    · exact absurd hlose (h.not_loses hl hg)
    · exact absurd hf (hne call)
  have hself : ∀ {q : Ptr}, q ∈ f.refs → Option.some q.id = Option.some p.id → q = p :=
    fun hq hid => h.eq_of_id hl hq (Option.some.inj hid)
  by_cases hw : (exec t c f n).1.writesState = Option.some p.id
  · cases hu : (exec t c f n).1 with
    | taskInit q call =>
      rw [hu] at hw hissued
      cases hissued
      exact absurd (Option.some.inj hw) (of_decide_eq_false hr)
    | taskAction q a =>
      rw [hu] at hw hissued
      obtain ⟨-, call, i, -, rfl⟩ := hissued
      cases hself (List.mem_singleton_self q) hw
      exact Or.inr (hunready (List.mem_singleton_self _) nofun)
    | taskState q s =>
      rw [hu] at hw hissued
      obtain ⟨ctx, rfl, -, rfl⟩ | ⟨ctx, a, rfl, -, rfl⟩ | ⟨ctx, todo, rfl, -, rfl⟩ |
        ⟨call, -, rfl⟩ | ⟨-, rfl⟩ | ⟨-, rfl⟩ | ⟨v, r, ii, rest, finite, rfl⟩ := hissued
      · cases hself (List.mem_singleton_self _) hw
        left
        simp only [code, exec, Node.access, Node.setTaskState, Node.task_modifyTask_self]
        rfl
      · have hq := hself (List.mem_singleton_self _) hw
        have hcompleted := (h.history hl).completed
        rw [phasesOf_cons, Multiset.count_add] at hcompleted
        simp only [Frame.phases, hq, ofTask_cons_self, ofTask_nil, Multiset.coe_count,
          List.count_singleton_self] at hcompleted
        rw [if_neg (by omega)] at hcompleted
        omega
      · exact absurd hw (hg.not_disturbs hl rfl)
      · cases hself (List.mem_singleton_self q) hw
        left
        simp only [code, exec, Node.access, Node.setTaskState, Node.task_modifyTask_self]
        rfl
      · exact absurd hw (hg.not_disturbs hl rfl)
      · exact absurd hw (hg.not_disturbs hl rfl)
      · obtain ⟨v', q', r', ii', rest', finite', hf', hstate, -⟩ := hg.undisturbed hl hw
        cases hf'
        have hself : ((code t c (.processState v q r ii rest finite) n).1.task p).state =
            (n.visitorState v).1 := by
          have hu : (exec t c (.processState v q r ii rest finite) n).1 =
              .taskState q (n.visitorState v).1 := by
            simp only [exec]
            split <;> rfl
          have hid : q.id = p.id := Option.some.inj hw
          rw [code, hu, Node.access, Node.setTaskState, Node.task, ← hid,
            Node.modifyTask_taskPool, Pool.storage_modify_self]
        left
        rw [hself]
        rcases hstate with hstate | hstate
        · rw [hstate]
          rfl
        · rw [hstate]
          rfl
    | taskFinalize q =>
      rw [hu] at hw hissued
      obtain ⟨caller, rfl⟩ := hissued
      exact absurd (Option.some.inj hw) (of_decide_eq_false hr)
    | taskDeallocate q =>
      rw [hu] at hw hissued
      obtain ⟨caller, rfl⟩ := hissued
      exact absurd (Option.some.inj hw) (of_decide_eq_false hr)
    | _ =>
      rw [hu] at hw
      cases hw
  · rcases h.ready hl (by omega) with hwaits | ⟨g, hgm, hpg⟩
    · left
      rw [← hwaits]
      exact congrArg TaskState.waits (n.state_access hw)
    · right
      rcases Multiset.mem_cons.mp hgm with rfl | hgm
      · refine hunready hpg ?_
        rintro call rfl
        exact hw rfl
      · exact ⟨g, Multiset.mem_add.mpr (Or.inr hgm), hpg⟩

/-- A history begins with a fresh task. -/
theorem history_start (h : InstancesCounted p n l (f ::ₘ others))
    (hg : KeepsInstances p t c f n l (f ::ₘ others)) {call : StartCall}
    (hf : f = .startInit call p) :
    (code t c f n).1.taskPool.Live p ∧ ((code t c f n).1.task p).attributes.numInstances ≠ 0 ∧
      Counted ((code t c f n).1.task p).attributes.numInstances
        ((code t c f n).1.task p).currentInstance
        (waiting (code t c f n).1 ((code t c f n).2 + others) p) []
        (phasesOf p ((code t c f n).2 + others)) := by
  subst hf
  have hn := hg.instances call rfl
  have hfresh : p ∈ (Frame.startInit call p).fresh := List.mem_singleton_self p
  have hnone := h.not_mem_others hfresh
  have hbal := h.toWorkCounted.waiting_exec (t := t) (c := c) p
  have hbefore : waiting n (.startInit call p ::ₘ others) p = 0 :=
    (h.count_others hfresh .waiting).trans rfl
  have hbegins : Multiset.count (Stage.waiting, p) ((Frame.startInit call p).beginsWork n) =
      call.attributes.numInstances := by
    rw [Frame.beginsWork, Multiset.coe_replicate, Multiset.count_replicate_self]
  have hends : Multiset.count (Stage.waiting, p) ((Frame.startInit call p).endsWork n) = 0 := rfl
  have hattributes : ((code t c (.startInit call p) n).1.task p).attributes = call.attributes ∧
      ((code t c (.startInit call p) n).1.task p).currentInstance = 0 := by
    rw [code, exec, Node.access, Node.task_modifyTask_self]
    exact ⟨rfl, rfl⟩
  rw [hbefore, hbegins, hends, zero_add, add_zero] at hbal
  refine ⟨?_, ?_, ?_⟩
  · refine Node.live_access h.sound (h.live p (mem_references_of_mem
      (Multiset.mem_cons_self _ _) (List.mem_singleton_self p))) fun q hu => ?_
    cases hu
  · rw [hattributes.1]
    exact hn
  · rw [hattributes.1, hattributes.2, ← hbal, phasesOf_add, phasesOf_of_not_mem hnone, add_zero]
    exact Counted.start hn

end InstancesCounted

theorem InstancesCounted.exec {p : Ptr} {t : Nat} {c : Choice} {f : Frame} {n : Node}
    {l : History} {others : Multiset Frame} (h : InstancesCounted p n l (f ::ₘ others))
    (hg : KeepsInstances p t c f n l (f ::ₘ others)) :
    InstancesCounted p (code t c f n).1 (History.record p t c f n l)
      ((code t c f n).2 + others) := by
  by_cases hr : f.resets p = true
  · cases f with
    | startInit call q =>
      have hid : q.id = p.id := of_decide_eq_true hr
      have hrecord : History.record p t c (.startInit call q) n l = ⟨q = p, []⟩ := if_pos hid
      rw [hrecord]
      by_cases hq : q = p
      · subst hq
        obtain ⟨hlive, hsome, hcounted⟩ := h.history_start hg rfl
        exact ⟨hrecord ▸ h.workCounted hg, fun _ => hlive, fun _ => hsome, fun _ => hcounted,
          fun _ hc => absurd hc List.not_mem_nil, fun _ _ => Or.inr
            ⟨.startGroup call q, Multiset.mem_add.mpr (Or.inl (List.mem_singleton_self _)),
              List.mem_singleton_self q⟩⟩
      · have hnot : ¬ (decide (q = p) = true) := fun hs => hq (of_decide_eq_true hs)
        exact ⟨hrecord ▸ h.workCounted hg, fun hs => absurd hs hnot, fun hs => absurd hs hnot,
          fun hs => absurd hs hnot, fun hs => absurd hs hnot, fun hs => absurd hs hnot⟩
    | taskDelete q caller =>
      have hid : q.id = p.id := of_decide_eq_true hr
      have hrecord : History.record p t c (.taskDelete q caller) n l = ⟨false, l.events⟩ :=
        if_pos hid
      rw [hrecord]
      exact ⟨hrecord ▸ h.workCounted hg, Bool.noConfusion, Bool.noConfusion, Bool.noConfusion,
        Bool.noConfusion, Bool.noConfusion⟩
    | taskDeallocate q caller =>
      have hid : q.id = p.id := of_decide_eq_true hr
      have hrecord : History.record p t c (.taskDeallocate q caller) n l = ⟨false, l.events⟩ :=
        if_pos hid
      rw [hrecord]
      exact ⟨hrecord ▸ h.workCounted hg, Bool.noConfusion, Bool.noConfusion, Bool.noConfusion,
        Bool.noConfusion, Bool.noConfusion⟩
    | _ => cases hr
  · have hr := Bool.eq_false_iff.mpr hr
    have hwork := h.workCounted hg
    rw [History.record_of_not_resets hr] at hwork ⊢
    refine ⟨hwork, fun hl => (h.task_exec hl hr).1, fun hl => ?_,
      fun hl => h.history_exec hl hg hr, fun hl hc => h.state_exec hl hg hr hc,
      fun hl hpos => h.ready_exec hl hg hr hpos⟩
    rw [(h.task_exec hl hr).2]
    exact h.some hl

/-- A node that has just been started, with the empty history of a task. -/
def bootHistory (attributes : NodeAttributes) (mode : SchedulerMode) (clients : Nat) :
    State (Node × History) Frame :=
  ⟨((boot attributes mode clients).mem, ⟨false, []⟩), (boot attributes mode clients).callStacks⟩

theorem instancesCounted_boot (p : Ptr) (attributes : NodeAttributes) (mode : SchedulerMode)
    (clients : Nat) :
    InstancesCounted p (bootHistory attributes mode clients).mem.1
      (bootHistory attributes mode clients).mem.2 (bootHistory attributes mode clients).frames :=
  ⟨workCounted_boot _ attributes mode clients, Bool.noConfusion, Bool.noConfusion,
    Bool.noConfusion, Bool.noConfusion, Bool.noConfusion⟩

end Embb.Mtapi
