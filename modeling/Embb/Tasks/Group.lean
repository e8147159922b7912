import Embb.Mtapi.Scheduler.Machine

/-!
# The C++ group wrapper

A group object holds the handle of one MTAPI group. `WaitAll` and `WaitAny` replace it where
the C function has deleted the group. Meanwhile workers finish the tasks of the object, and
other clients create and delete groups of their own in the same pool.
-/

namespace Embb.Tasks.Group

open Mtapi

/-- How far a task has come: its action function runs, its state is completed, it has been
pushed to the queue of its group, a wait call has deleted it. -/
inductive Phase
  | running
  | completed
  | delivered
  | reaped
  deriving DecidableEq, Repr

/-- A task that was spawned through the group object. -/
structure Task where
  group : Handle
  errorCode : Status
  phase : Phase
  deriving DecidableEq, Repr

/-- The program points of the thread that uses the group object. `all` tells `WaitAll` from
`WaitAny`. -/
inductive Frame
  | idle
  -- mtapi_group_wait_all
  | waitAll (finite : Bool)
  | waitAllLoop (group : Handle) (finite : Bool) (status : Status)
  | waitAllTimeout (group : Handle) (finite : Bool) (status : Status)
  | waitAllPop (group : Handle) (finite : Bool) (status : Status)
  | waitAllTask (group : Handle) (finite : Bool) (status : Status) (task : Ptr)
  | waitAllCount (group : Handle) (finite : Bool) (status : Status)
  -- mtapi_group_wait_any
  | waitAny (finite : Bool)
  | waitAnyFirst (group : Handle) (finite : Bool)
  | waitAnyPop (group : Handle) (finite : Bool)
  | waitAnyTimeout (group : Handle) (finite : Bool)
  | waitAnyTask (group : Handle) (task : Ptr)
  | waitAnyCount (group : Handle) (status : Status)
  -- mtapi_group_delete
  | groupDelete (group : Handle) (all : Bool) (status : Status)
  -- Group::Create, Group::WaitAll, Group::WaitAny
  | create (all : Bool) (status : Status)
  | returned (all : Bool) (status : Status)
  | thrown
  deriving DecidableEq, Repr

/-- What can happen next. A step of the user may find the clock past its timeout, or the lock
of a queue held. -/
inductive Event
  | spawn
  /-- `mtapi_task_start` fails, before or after it has counted the task in the group. -/
  | spawnFails (counted : Bool)
  | callWaitAll (finite : Bool)
  | callWaitAny (finite : Bool)
  | go (expired busy : Bool)
  | finish (task : ℕ) (code : Status)
  | deliver (task : ℕ)
  | otherCreate
  | otherDelete (group : Handle)
  deriving DecidableEq, Repr

structure State where
  attributes : NodeAttributes
  groupPool : Pool Mtapi.Group
  tasks : List Task
  /-- `handle_`. -/
  handle : Handle
  /-- The groups that `Create` has made and nobody has deleted. -/
  created : List Handle
  frame : Frame

namespace State

abbrev group (s : State) (g : Handle) : Mtapi.Group := s.groupPool.storage g.id

def modifyGroup (s : State) (g : Handle) (f : Mtapi.Group → Mtapi.Group) : State :=
  { s with groupPool := s.groupPool.modify g.id f }

def setFrame (s : State) (f : Frame) : State := { s with frame := f }

/-- `embb_mtapi_task_delete` for a task that a wait call has taken from a queue. -/
def reap (s : State) (p : Ptr) : State :=
  match s.tasks[p.id]? with
  | some x => { s with tasks := s.tasks.set p.id { x with phase := .reaped } }
  | none => s

/-- The error code of a task that a wait call has taken from a queue. -/
def errorCode (s : State) (p : Ptr) : Status :=
  match s.tasks[p.id]? with
  | some x => x.errorCode
  | none => .success

/-- `mtapi_group_create`. -/
def groupCreate (s : State) : State :=
  { s with
    groupPool := (Pool.Step.allocate fun x => x.initWithNode s.attributes).apply s.groupPool }

/-- One step of the thread that uses the group object. -/
def client (s : State) (expired busy : Bool) : State :=
  match s.frame with
  | .idle | .thrown => s
  | .waitAll finite =>
    if s.groupPool.isHandleValid s.handle then
      s.setFrame (.waitAllLoop s.handle finite .success)
    else s.setFrame (.create true .errGroupInvalid)
  | .waitAllLoop g finite status =>
    if (s.group g).numTasks ≠ 0 then s.setFrame (.waitAllTimeout g finite status)
    else if status = .timeout then s.setFrame (.create true status)
    else s.setFrame (.groupDelete g true status)
  | .waitAllTimeout g finite status =>
    if finite && expired then s.setFrame (.create true .timeout)
    else s.setFrame (.waitAllPop g finite status)
  | .waitAllPop g finite status =>
    if busy then s.setFrame (.waitAllLoop g finite status)
    else match (s.group g).queue.pop.2 with
      | some p =>
        (s.modifyGroup g fun x => { x with queue := x.queue.pop.1 }).setFrame
          (.waitAllTask g finite status p)
      | none => s.setFrame (.waitAllLoop g finite status)
  | .waitAllTask g finite status p =>
    (s.reap p).setFrame (.waitAllCount g finite
      (if s.errorCode p = .success then status else s.errorCode p))
  | .waitAllCount g finite status =>
    (s.modifyGroup g fun x => { x with numTasks := x.numTasks - 1 }).setFrame
      (.waitAllPop g finite status)
  | .waitAny finite =>
    if s.groupPool.isHandleValid s.handle then s.setFrame (.waitAnyFirst s.handle finite)
    else s.setFrame (.returned false .errGroupInvalid)
  | .waitAnyFirst g finite =>
    if (s.group g).numTasks = 0 then s.setFrame (.groupDelete g false .groupCompleted)
    else s.setFrame (.waitAnyPop g finite)
  | .waitAnyPop g finite =>
    if busy then s.setFrame (.waitAnyTimeout g finite)
    else match (s.group g).queue.pop.2 with
      | some p =>
        (s.modifyGroup g fun x => { x with queue := x.queue.pop.1 }).setFrame (.waitAnyTask g p)
      | none => s.setFrame (.waitAnyTimeout g finite)
  | .waitAnyTimeout g finite =>
    if finite && expired then s.setFrame (.returned false .timeout)
    else s.setFrame (.waitAnyPop g finite)
  | .waitAnyTask g p => (s.reap p).setFrame (.waitAnyCount g (s.errorCode p))
  | .waitAnyCount g status =>
    (s.modifyGroup g fun x => { x with numTasks := x.numTasks - 1 }).setFrame
      (if status = .groupCompleted then .create false status else .returned false status)
  | .groupDelete g all status =>
    if s.groupPool.isHandleValid g ∧ (s.group g).deleted = false then
      { s with
        groupPool := s.groupPool.deallocate g
        created := s.created.erase g
        frame := .create all status }
    else s.setFrame (.create all status)
  | .create all status =>
    match s.groupPool.allocate.2 with
    | some g =>
      { s.groupCreate with
        handle := g
        created := g :: s.created
        frame := .returned all status }
    | none => { s.groupCreate with handle := Handle.invalid, frame := .thrown }
  | .returned _ _ => s.setFrame .idle

/-- `mtapi_task_start` counts the task in its group. -/
def count (s : State) : State :=
  if s.groupPool.isHandleValid s.handle then
    s.modifyGroup s.handle fun x => { x with numTasks := x.numTasks + 1 }
  else s

/-- `Group::Spawn`. -/
def spawn (s : State) : State :=
  { s.count with
    tasks := s.tasks ++ [⟨if s.groupPool.isHandleValid s.handle then s.handle else Handle.invalid,
      .success, .running⟩] }

def step (s : State) : Event → State
  | .spawn => if s.frame = .idle then s.spawn else s
  | .spawnFails counted => if s.frame = .idle ∧ counted then s.count else s
  | .callWaitAll finite => if s.frame = .idle then s.setFrame (.waitAll finite) else s
  | .callWaitAny finite => if s.frame = .idle then s.setFrame (.waitAny finite) else s
  | .go expired busy => s.client expired busy
  | .finish i code =>
    match s.tasks[i]? with
    | some x =>
      if x.phase = .running ∧ code.settable then
        { s with tasks := s.tasks.set i { x with phase := .completed, errorCode := code } }
      else s
    | none => s
  | .deliver i =>
    match s.tasks[i]? with
    | some x =>
      if x.phase = .completed then
        let s' := { s with tasks := s.tasks.set i { x with phase := .delivered } }
        if s.groupPool.isHandleValid x.group then
          s'.modifyGroup x.group fun y => { y with queue := (y.queue.push ⟨0, i⟩).1 }
        else s'
      else s
    | none => s
  | .otherCreate => s.groupCreate
  | .otherDelete g =>
    if s.groupPool.Live g ∧ g ∉ s.created then { s with groupPool := s.groupPool.deallocate g }
    else s

def run (s : State) (es : List Event) : State := es.foldl step s

/-- A node on which the constructor of the group object is going to create its group. -/
def start (attributes : NodeAttributes) : State where
  attributes := attributes
  groupPool := Pool.init attributes.maxGroups Node.blankGroup
  tasks := []
  handle := Handle.invalid
  created := []
  frame := .create false .success

end State

/-! ## What the group object accounts for -/

/-- The group object has no group. -/
def Frame.creating : Frame → Bool
  | .create _ _ | .thrown => true
  | _ => false

/-- All tasks of the group object have been waited for. -/
def Frame.over : Frame → Bool
  | .groupDelete _ _ _ | .create _ _ | .returned true _ | .thrown => true
  | _ => false

/-- The groups that a program point works with. -/
def Frame.groups : Frame → List Handle
  | .waitAllLoop g _ _ | .waitAllTimeout g _ _ | .waitAllPop g _ _ | .waitAllTask g _ _ _
  | .waitAllCount g _ _ | .waitAnyFirst g _ | .waitAnyPop g _ | .waitAnyTimeout g _
  | .waitAnyTask g _ | .waitAnyCount g _ | .groupDelete g _ _ => [g]
  | _ => []

/-- The task that has been taken from the queue and not been deleted yet. -/
def Frame.popped : Frame → List Ptr
  | .waitAllTask _ _ _ p | .waitAnyTask _ p => [p]
  | _ => []

/-- How many tasks have been deleted and are still counted. -/
def Frame.pending : Frame → ℤ
  | .waitAllCount _ _ _ | .waitAnyCount _ _ => 1
  | _ => 0

/-- The tasks that no wait call has deleted. -/
def State.unreaped (s : State) : ℕ := s.tasks.countP fun x => x.phase ≠ .reaped

/-- The group object has one group, in which all tasks are that are left. -/
structure Inv (s : State) : Prop where
  sound : s.groupPool.Sound
  owns : s.frame.creating = false → s.created = [s.handle] ∧ s.groupPool.Live s.handle ∧
    (s.group s.handle).deleted = false
  none : s.frame.creating = true → s.created = []
  uses : ∀ g ∈ s.frame.groups, g = s.handle
  left : ∀ x ∈ s.tasks, x.phase ≠ .reaped → s.frame.over = false ∧ x.group = s.handle
  queued : s.frame.creating = false →
    ((s.group s.handle).queue.tasks.map Handle.id).Nodup ∧
      ∀ p ∈ (s.group s.handle).queue.tasks, ∃ x, s.tasks[p.id]? = some x ∧ x.phase = .delivered
  popped : ∀ p ∈ s.frame.popped, (∃ x, s.tasks[p.id]? = some x ∧ x.phase = .delivered) ∧
    p.id ∉ (s.group s.handle).queue.tasks.map Handle.id
  counted : s.frame.creating = false →
    (s.unreaped : ℤ) + s.frame.pending ≤ (s.group s.handle).numTasks

namespace Inv

variable {s : State}

theorem creating_of_not_over (h : s.frame.over = false) : s.frame.creating = false := by
  cases hf : s.frame with
  | create | thrown =>
    rw [hf] at h
    cases h
  | _ => rfl

/-- A step of the user that changes nothing but where it is. -/
theorem setFrame (h : Inv s) {f : Frame} (hc : f.creating = s.frame.creating)
    (hg : ∀ g ∈ f.groups, g = s.handle) (ho : f.over = true → s.frame.over = true ∨ s.unreaped = 0)
    (hp : f.popped = []) (hn : f.pending = s.frame.pending) : Inv (s.setFrame f) where
  sound := h.sound
  owns hf := h.owns (hc ▸ hf)
  none hf := h.none (hc ▸ hf)
  uses := hg
  left x hx hne := by
    obtain ⟨h1, h2⟩ := h.left x hx hne
    refine ⟨?_, h2⟩
    by_contra hf
    rcases ho (Bool.eq_true_of_not_eq_false hf) with ho | ho
    · rw [h1] at ho
      cases ho
    · rw [State.unreaped, List.countP_eq_zero] at ho
      exact ho x hx (decide_eq_true hne)
  queued hf := h.queued (hc ▸ hf)
  popped p hm := by
    change p ∈ f.popped at hm
    rw [hp] at hm
    exact absurd hm List.not_mem_nil
  counted hf := by
    change (s.unreaped : ℤ) + f.pending ≤ _
    rw [hn]
    exact h.counted (hc ▸ hf)

/-- The counter is zero only when no task is left. -/
theorem unreaped_eq_zero (h : Inv s) (hc : s.frame.creating = false) (hp : s.frame.pending = 0)
    (hz : (s.group s.handle).numTasks = 0) : s.unreaped = 0 := by
  have hle := h.counted hc
  rw [hp, hz] at hle
  omega

/-- A change of the group of the object, and of the place where its user is. -/
theorem modifyGroup (h : Inv s) (hc : s.frame.creating = false) {u : Mtapi.Group → Mtapi.Group}
    (hu : ∀ x, (u x).handle = x.handle ∧ (u x).deleted = x.deleted) {f : Frame}
    (hfc : f.creating = false) (hfg : ∀ g ∈ f.groups, g = s.handle)
    (hfo : f.over = true → s.frame.over = true)
    (hq : ((u (s.group s.handle)).queue.tasks.map Handle.id).Nodup ∧
      ∀ p ∈ (u (s.group s.handle)).queue.tasks,
        ∃ x, s.tasks[p.id]? = some x ∧ x.phase = .delivered)
    (hp : ∀ p ∈ f.popped, (∃ x, s.tasks[p.id]? = some x ∧ x.phase = .delivered) ∧
      p.id ∉ (u (s.group s.handle)).queue.tasks.map Handle.id)
    (hn : (s.unreaped : ℤ) + f.pending ≤ (u (s.group s.handle)).numTasks) :
    Inv ((s.modifyGroup s.handle u).setFrame f) := by
  obtain ⟨hcr, hl, hd⟩ := h.owns hc
  have hgroup : ((s.modifyGroup s.handle u).setFrame f).group
      ((s.modifyGroup s.handle u).setFrame f).handle = u (s.group s.handle) :=
    s.groupPool.storage_modify_self s.handle.id u
  have hkeep : ∀ id, (((s.modifyGroup s.handle u).setFrame f).groupPool.storage id).handle =
      (s.groupPool.storage id).handle :=
    fun id => s.groupPool.field_modify s.handle.id id Group.handle fun x => (hu x).1
  constructor
  · exact h.sound.congr rfl hkeep
  · refine fun _ => ⟨hcr, hl.congr rfl (hkeep s.handle.id), ?_⟩
    rw [hgroup, (hu _).2]
    exact hd
  · intro hf
    change f.creating = true at hf
    rw [hfc] at hf
    cases hf
  · exact hfg
  · intro x hx hne
    obtain ⟨h1, h2⟩ := h.left x hx hne
    refine ⟨?_, h2⟩
    by_contra hf
    rw [hfo (Bool.eq_true_of_not_eq_false hf)] at h1
    cases h1
  · intro _
    rw [hgroup]
    exact hq
  · intro p hm
    rw [hgroup]
    exact hp p hm
  · intro _
    rw [hgroup]
    exact hn

/-- A wait call takes a task from the queue. -/
theorem pop (h : Inv s) (hc : s.frame.creating = false) (hn : s.frame.pending = 0) {p : Ptr}
    (hp : (s.group s.handle).queue.pop.2 = some p) {f : Frame} (hfc : f.creating = false)
    (hfo : f.over = false) (hfg : f.groups = [s.handle]) (hfp : f.popped = [p])
    (hfn : f.pending = 0) :
    Inv ((s.modifyGroup s.handle fun x => { x with queue := x.queue.pop.1 }).setFrame f) := by
  obtain ⟨hnodup, hmem⟩ := h.queued hc
  have htasks := TaskQueue.tasks_of_pop_some hp
  rw [htasks, List.map_cons, List.nodup_cons] at hnodup
  refine h.modifyGroup (u := fun x => { x with queue := x.queue.pop.1 }) hc
    (fun _ => ⟨rfl, rfl⟩) hfc (fun g hg => ?_) (fun hf => ?_) ⟨hnodup.2, fun q hq => ?_⟩
    (fun q hq => ?_) ?_
  · rw [hfg] at hg
    exact List.mem_singleton.mp hg
  · rw [hfo] at hf
    cases hf
  · exact hmem q (htasks ▸ List.mem_cons_of_mem _ hq)
  · rw [hfp, List.mem_singleton] at hq
    subst hq
    exact ⟨hmem q (htasks ▸ List.mem_cons_self), hnodup.1⟩
  · have hle := h.counted hc
    rw [hn] at hle
    rw [hfn]
    exact hle

/-- The counter goes down for the task that has been deleted. -/
theorem countDown (h : Inv s) (hc : s.frame.creating = false) (hn : s.frame.pending = 1)
    {f : Frame} (hfc : f.creating = false) (hfo : f.over = false)
    (hfg : ∀ g ∈ f.groups, g = s.handle) (hfp : f.popped = []) (hfn : f.pending = 0) :
    Inv ((s.modifyGroup s.handle fun x => { x with numTasks := x.numTasks - 1 }).setFrame f) := by
  refine h.modifyGroup (u := fun x => { x with numTasks := x.numTasks - 1 }) hc
    (fun _ => ⟨rfl, rfl⟩) hfc hfg (fun hf => ?_) (h.queued hc) (fun q hq => ?_) ?_
  · rw [hfo] at hf
    cases hf
  · rw [hfp] at hq
    exact absurd hq List.not_mem_nil
  · have hle := h.counted hc
    rw [hn] at hle
    rw [hfn]
    simp only
    omega

/-- A change of a task between two phases before it is deleted, or from delivered to deleted. -/
theorem unreaped_set {tasks : List Task} {i : ℕ} {x y : Task} (hx : tasks[i]? = some x)
    (hr : x.phase ≠ .reaped) :
    (tasks.set i y).countP (fun x => x.phase ≠ .reaped) + (if y.phase = .reaped then 1 else 0) =
      tasks.countP fun x => x.phase ≠ .reaped := by
  obtain ⟨hi, he⟩ := List.getElem?_eq_some_iff.mp hx
  have hpos : 0 < tasks.countP fun x => x.phase ≠ .reaped :=
    List.countP_pos_iff.mpr ⟨x, List.mem_of_getElem? hx, decide_eq_true hr⟩
  rw [List.countP_set hi, he]
  simp only [ne_eq, hr, not_false_eq_true, decide_true, ↓reduceIte, decide_not,
    Bool.not_eq_eq_eq_not, Bool.not_true, decide_eq_false_iff_not]
  split <;> simp_all

/-- The task that has been taken from the queue is deleted. -/
theorem reap (h : Inv s) (hc : s.frame.creating = false) (hn : s.frame.pending = 0) {p : Ptr}
    (hp : p ∈ s.frame.popped) {f : Frame} (hfg : f.groups = [s.handle]) (hfp : f.popped = [])
    (hfn : f.pending = 1) (hfc : f.creating = false) (hfo : f.over = false) :
    Inv ((s.reap p).setFrame f) := by
  obtain ⟨⟨x, hx, hphase⟩, hnot⟩ := h.popped p hp
  have hreap : s.reap p = { s with tasks := s.tasks.set p.id { x with phase := .reaped } } := by
    rw [State.reap, hx]
  rw [hreap]
  have hne : x.phase ≠ .reaped := by
    rw [hphase]
    exact Phase.noConfusion
  constructor
  · exact h.sound
  · exact fun _ => h.owns hc
  · intro hf
    change f.creating = true at hf
    rw [hfc] at hf
    cases hf
  · intro g hg
    change g ∈ f.groups at hg
    rw [hfg] at hg
    exact List.mem_singleton.mp hg
  · intro y hy hne'
    rcases List.mem_or_eq_of_mem_set hy with hy | rfl
    · exact ⟨hfo, (h.left y hy hne').2⟩
    · exact absurd rfl hne'
  · refine fun _ => ⟨(h.queued hc).1, fun q hq => ?_⟩
    have hid : p.id ≠ q.id := fun he => hnot (he ▸ List.mem_map_of_mem hq)
    change ∃ x', (s.tasks.set p.id _)[q.id]? = some x' ∧ _
    rw [List.getElem?_set_ne hid]
    exact (h.queued hc).2 q hq
  · intro q hq
    change q ∈ f.popped at hq
    rw [hfp] at hq
    exact absurd hq List.not_mem_nil
  · intro _
    have hle := h.counted hc
    have hset := unreaped_set (y := { x with phase := .reaped }) hx hne
    rw [hn, State.unreaped, ← hset, if_pos rfl] at hle
    change (((s.tasks.set p.id _).countP _ : ℕ) : ℤ) + f.pending ≤ _
    rw [hfn]
    push_cast at hle
    exact hle.trans' (by omega)

/-- Tasks move on between the phases before they are deleted. -/
theorem setTask (h : Inv s) {i : ℕ} {x y : Task} (hx : s.tasks[i]? = some x)
    (hr : x.phase ≠ .reaped) (hy : y.phase ≠ .reaped) (hg : y.group = x.group)
    (hd : x.phase = .delivered → y.phase = .delivered) :
    Inv { s with tasks := s.tasks.set i y } := by
  have hdel : ∀ p : Ptr, (∃ x, s.tasks[p.id]? = some x ∧ x.phase = .delivered) →
      ∃ x, (s.tasks.set i y)[p.id]? = some x ∧ x.phase = .delivered := by
    rintro p ⟨z, hz, hphase⟩
    obtain ⟨hi, -⟩ := List.getElem?_eq_some_iff.mp hx
    by_cases hid : i = p.id
    · subst hid
      rw [hx, Option.some.injEq] at hz
      subst hz
      exact ⟨y, List.getElem?_set_self hi, hd hphase⟩
    · exact ⟨z, (List.getElem?_set_ne hid).trans hz, hphase⟩
  constructor
  · exact h.sound
  · exact h.owns
  · exact h.none
  · exact h.uses
  · intro z hz hne
    rcases List.mem_or_eq_of_mem_set hz with hz | rfl
    · exact h.left z hz hne
    · rw [hg]
      exact h.left x (List.mem_of_getElem? hx) hr
  · exact fun hc => ⟨(h.queued hc).1, fun p hp => hdel p ((h.queued hc).2 p hp)⟩
  · exact fun p hp => ⟨hdel p (h.popped p hp).1, (h.popped p hp).2⟩
  · intro hc
    have hle := h.counted hc
    have hset := unreaped_set (y := y) hx hr
    rw [if_neg hy, add_zero] at hset
    rw [State.unreaped, ← hset] at hle
    exact hle

/-- A worker pushes a task that it has just completed. -/
theorem push (h : Inv s) (hc : s.frame.creating = false) {i : ℕ} {x : Task}
    (hx : s.tasks[i]? = some x) (hd : x.phase = .delivered)
    (hnew : i ∉ (s.group s.handle).queue.tasks.map Handle.id)
    (hpop : ∀ p ∈ s.frame.popped, p.id ≠ i) :
    Inv (s.modifyGroup s.handle fun y => { y with queue := (y.queue.push ⟨0, i⟩).1 }) := by
  obtain ⟨hnodup, hmem⟩ := h.queued hc
  have htasks : ((s.group s.handle).queue.push ⟨0, i⟩).1.tasks = (s.group s.handle).queue.tasks ∨
      ((s.group s.handle).queue.push ⟨0, i⟩).1.tasks =
        (s.group s.handle).queue.tasks ++ [⟨0, i⟩] := by
    cases hp : ((s.group s.handle).queue.push ⟨0, i⟩).2 with
    | true => exact Or.inr (TaskQueue.tasks_push_of_true hp)
    | false => exact Or.inl (congrArg TaskQueue.tasks (TaskQueue.push_of_false hp))
  refine h.modifyGroup (f := s.frame) (u := fun y => { y with queue := (y.queue.push ⟨0, i⟩).1 })
    hc (fun _ => ⟨rfl, rfl⟩) hc h.uses id ?_ (fun p hp => ⟨(h.popped p hp).1, ?_⟩) (h.counted hc)
  · rcases htasks with ht | ht
    · simp only [ht]
      exact ⟨hnodup, hmem⟩
    · simp only [ht, List.map_append, List.map_cons, List.map_nil]
      refine ⟨List.nodup_append.mpr ⟨hnodup, List.nodup_singleton _, ?_⟩, fun p hp => ?_⟩
      · rintro a ha b hb rfl
        exact hnew (List.mem_singleton.mp hb ▸ ha)
      · rcases List.mem_append.mp hp with hp | hp
        · exact hmem p hp
        · rw [List.mem_singleton.mp hp]
          exact ⟨x, hx, hd⟩
  · have hnot := (h.popped p hp).2
    rcases htasks with ht | ht
    · simp only [ht]
      exact hnot
    · simp only [ht, List.map_append, List.map_cons, List.map_nil, List.mem_append,
        List.mem_singleton]
      rintro (hq | hq)
      · exact hnot hq
      · exact hpop p hp hq

/-- A task that has not been pushed yet is in no queue and in nobody's hands. -/
theorem not_queued (h : Inv s) (hc : s.frame.creating = false) {i : ℕ} {x : Task}
    (hx : s.tasks[i]? = some x) (hd : x.phase ≠ .delivered) :
    i ∉ (s.group s.handle).queue.tasks.map Handle.id ∧ ∀ p ∈ s.frame.popped, p.id ≠ i := by
  have hnot : ∀ p : Ptr, (∃ y, s.tasks[p.id]? = some y ∧ y.phase = .delivered) → p.id ≠ i := by
    rintro p ⟨y, hy, hphase⟩ rfl
    rw [hx, Option.some.injEq] at hy
    exact hd (hy ▸ hphase)
  refine ⟨fun hm => ?_, fun p hp => hnot p (h.popped p hp).1⟩
  obtain ⟨p, hp, hpi⟩ := List.mem_map.mp hm
  exact hnot p ((h.queued hc).2 p hp) hpi

/-- A worker delivers a completed task. -/
theorem deliver (h : Inv s) {i : ℕ} {x : Task} (hx : s.tasks[i]? = some x)
    (hr : x.phase = .completed) :
    Inv (let s' := { s with tasks := s.tasks.set i { x with phase := .delivered } }
      if s.groupPool.isHandleValid x.group then
        s'.modifyGroup x.group fun y => { y with queue := (y.queue.push ⟨0, i⟩).1 }
      else s') := by
  have hne : x.phase ≠ .reaped := by
    rw [hr]
    exact Phase.noConfusion
  have hnd : x.phase ≠ .delivered := by
    rw [hr]
    exact Phase.noConfusion
  obtain ⟨hover, hgroup⟩ := h.left x (List.mem_of_getElem? hx) hne
  have hc := creating_of_not_over hover
  obtain ⟨hi, -⟩ := List.getElem?_eq_some_iff.mp hx
  have hset : Inv { s with tasks := s.tasks.set i { x with phase := .delivered } } :=
    h.setTask hx hne Phase.noConfusion rfl fun _ => rfl
  obtain ⟨hq, hp⟩ := h.not_queued hc hx hnd
  have hpush := hset.push hc (List.getElem?_set_self hi) rfl hq hp
  obtain ⟨group, code, phase⟩ := x
  subst hgroup
  simp only [(h.owns hc).2.1.valid, ↓reduceIte]
  exact hpush

/-- A call of `mtapi_task_start` counts a task. -/
theorem count (h : Inv s) (hf : s.frame = .idle) : Inv s.count := by
  have hc : s.frame.creating = false := by rw [hf]; rfl
  obtain ⟨-, hl, -⟩ := h.owns hc
  rw [State.count, if_pos hl.valid]
  refine h.modifyGroup (f := s.frame) (u := fun x => { x with numTasks := x.numTasks + 1 }) hc
    (fun _ => ⟨rfl, rfl⟩) hc h.uses id (h.queued hc) h.popped ?_
  have hle := h.counted hc
  simp only
  omega

theorem spawn (h : Inv s) (hf : s.frame = .idle) : Inv s.spawn := by
  have hc : s.frame.creating = false := by rw [hf]; rfl
  obtain ⟨-, hl, -⟩ := h.owns hc
  have hcount := h.count hf
  have hold := h.counted hc
  have hhandle : s.count.handle = s.handle ∧ s.count.frame = s.frame ∧ s.count.tasks = s.tasks := by
    rw [State.count]
    split <;> exact ⟨rfl, rfl, rfl⟩
  have hnum : (s.count.group s.handle).numTasks = (s.group s.handle).numTasks + 1 := by
    rw [State.count, if_pos hl.valid]
    exact congrArg Mtapi.Group.numTasks (s.groupPool.storage_modify_self s.handle.id
      fun x => { x with numTasks := x.numTasks + 1 })
  obtain ⟨h1, h2, h3⟩ := hhandle
  have hdel : ∀ p : Ptr, (∃ x, s.count.tasks[p.id]? = some x ∧ x.phase = .delivered) →
      ∃ x, s.spawn.tasks[p.id]? = some x ∧ x.phase = .delivered := by
    rintro p ⟨x, hx, hd⟩
    rw [h3] at hx
    obtain ⟨hi, -⟩ := List.getElem?_eq_some_iff.mp hx
    exact ⟨x, (List.getElem?_append_left hi).trans hx, hd⟩
  constructor
  · exact hcount.sound
  · exact hcount.owns
  · exact hcount.none
  · exact hcount.uses
  · intro x hx hne
    change x ∈ s.tasks ++ [_] at hx
    rcases List.mem_append.mp hx with hx | hx
    · exact hcount.left x (h3 ▸ hx) hne
    · rw [List.mem_singleton.mp hx, if_pos hl.valid]
      refine ⟨?_, h1.symm⟩
      change s.count.frame.over = false
      rw [h2, hf]
      rfl
  · exact fun hc' => ⟨(hcount.queued hc').1, fun p hp => hdel p ((hcount.queued hc').2 p hp)⟩
  · exact fun p hp => ⟨hdel p (hcount.popped p hp).1, (hcount.popped p hp).2⟩
  · intro _
    have hspawn : s.spawn.unreaped = s.unreaped + 1 := by
      simp [State.unreaped, State.spawn]
    rw [hspawn]
    change ((s.unreaped + 1 : ℕ) : ℤ) + s.count.frame.pending ≤
      (s.count.group s.count.handle).numTasks
    rw [h1, h2, hnum]
    push_cast
    omega

/-- Once the call is over, no task is left. -/
theorem all_reaped (h : Inv s) (ho : s.frame.over = true) : ∀ x ∈ s.tasks, x.phase = .reaped := by
  intro x hx
  by_contra hne
  have hover := (h.left x hx hne).1
  rw [ho] at hover
  cases hover

/-- The group is deleted when no task is left. -/
theorem delete (h : Inv s) (hc : s.frame.creating = false) (ho : s.frame.over = true)
    {all : Bool} {status : Status} :
    Inv { s with
      groupPool := s.groupPool.deallocate s.handle
      created := s.created.erase s.handle
      frame := .create all status } := by
  obtain ⟨hcr, -, -⟩ := h.owns hc
  have hnone := h.all_reaped ho
  constructor
  · exact Pool.sound_deallocate h.sound s.handle
  · exact fun hf => Bool.noConfusion hf
  · exact fun _ => by simp [hcr]
  · exact fun g hg => absurd hg List.not_mem_nil
  · exact fun x hx hne => absurd (hnone x hx) hne
  · exact fun hf => Bool.noConfusion hf
  · exact fun p hp => absurd hp List.not_mem_nil
  · exact fun hf => Bool.noConfusion hf

/-- `Create` makes a new group. -/
theorem create (h : Inv s) (hf : s.frame.creating = true) (ho : s.frame.over = true) {g : Handle}
    (hg : s.groupPool.allocate.2 = some g) {all : Bool} {status : Status} :
    Inv { s.groupCreate with
      handle := g
      created := g :: s.created
      frame := .returned all status } := by
  have hnone := h.all_reaped ho
  have hpool : s.groupCreate.groupPool =
      s.groupPool.allocate.1.modify g.id fun x => x.initWithNode s.attributes := by
    simp only [State.groupCreate, Pool.Step.apply, hg]
  have hgroup : s.groupCreate.groupPool.storage g.id =
      (s.groupPool.allocate.1.storage g.id).initWithNode s.attributes := by
    rw [hpool, Pool.storage_modify_self]
  have hsound : s.groupCreate.groupPool.Sound :=
    Pool.Step.sound (s := .allocate fun x => x.initWithNode s.attributes) h.sound fun _ => rfl
  have hlive : s.groupCreate.groupPool.Live g := by
    rw [hpool]
    exact (Pool.live_allocate h.sound hg).congr rfl
      ((Pool.field_modify _ g.id g.id Group.handle) fun _ => rfl)
  have hzero : s.unreaped = 0 := by
    rw [State.unreaped, List.countP_eq_zero]
    exact fun x hx => by simp [hnone x hx]
  constructor
  · exact hsound
  · refine fun _ => ⟨?_, hlive, ?_⟩
    · simp only [h.none hf]
    · rw [State.group, hgroup]
      rfl
  · exact fun hf => Bool.noConfusion hf
  · exact fun g hg => absurd hg List.not_mem_nil
  · exact fun x hx hne => absurd (hnone x hx) hne
  · intro _
    have hempty : (s.groupCreate.groupPool.storage g.id).queue.tasks = [] := by
      rw [hgroup]
      rfl
    change ((s.groupCreate.groupPool.storage g.id).queue.tasks.map Handle.id).Nodup ∧
      ∀ p ∈ (s.groupCreate.groupPool.storage g.id).queue.tasks, _
    rw [hempty]
    exact ⟨List.nodup_nil, fun p hp => absurd hp List.not_mem_nil⟩
  · exact fun p hp => absurd hp List.not_mem_nil
  · intro _
    change (s.unreaped : ℤ) + 0 ≤ (s.groupCreate.groupPool.storage g.id).numTasks
    rw [hzero, hgroup]
    exact le_rfl

/-- What other clients do to the pool leaves the group of the object alone. -/
theorem setPool (h : Inv s) {pool : Pool Mtapi.Group} (hs : pool.Sound)
    (hkeep : ∀ g, s.groupPool.Live g → s.created = [g] →
      pool.Live g ∧ pool.storage g.id = s.groupPool.storage g.id) :
    Inv { s with groupPool := pool } := by
  have hgroup : s.frame.creating = false →
      pool.Live s.handle ∧ pool.storage s.handle.id = s.groupPool.storage s.handle.id :=
    fun hc => hkeep s.handle (h.owns hc).2.1 (h.owns hc).1
  constructor
  · exact hs
  · intro hc
    refine ⟨(h.owns hc).1, (hgroup hc).1, ?_⟩
    rw [State.group, (hgroup hc).2]
    exact (h.owns hc).2.2
  · exact h.none
  · exact h.uses
  · exact h.left
  · intro hc
    rw [State.group, (hgroup hc).2]
    exact h.queued hc
  · intro p hp
    have hc : s.frame.creating = false := by
      cases hf : s.frame with
      | create | thrown =>
        rw [hf] at hp
        exact absurd hp List.not_mem_nil
      | _ => rfl
    rw [State.group, (hgroup hc).2]
    exact h.popped p hp
  · intro hc
    rw [State.group, (hgroup hc).2]
    exact h.counted hc

end Inv

/-! ## Error codes -/

/-- What the error code of a task can be. -/
def FromTask (c : Status) : Prop := c = .success ∨ c.settable = true

theorem FromTask.ne {c : Status} (h : FromTask c) : c ≠ .timeout ∧ c ≠ .groupCompleted := by
  constructor
  · rintro rfl
    exact h.elim Status.noConfusion Bool.noConfusion
  · rintro rfl
    exact h.elim Status.noConfusion Bool.noConfusion

/-- The status that a wait call has gathered from its tasks. -/
def Frame.gathered : Frame → Status
  | .waitAllLoop _ _ status | .waitAllTimeout _ _ status | .waitAllPop _ _ status
  | .waitAllTask _ _ status _ | .waitAllCount _ _ status | .waitAnyCount _ status => status
  | _ => .success

/-- Tasks hold the codes that an action function can set, and wait calls gather these. -/
structure Codes (s : State) : Prop where
  tasks : ∀ x ∈ s.tasks, FromTask x.errorCode
  frame : FromTask s.frame.gathered

namespace Codes

variable {s : State}

theorem errorCode (h : Codes s) (p : Ptr) : FromTask (s.errorCode p) := by
  simp only [State.errorCode]
  split
  · next x hx => exact h.tasks x (List.mem_of_getElem? hx)
  · exact Or.inl rfl

/-- A task is assigned a code that is allowed. -/
theorem set (h : Codes s) {i : ℕ} {y : Task} (hy : FromTask y.errorCode) :
    ∀ x ∈ s.tasks.set i y, FromTask x.errorCode := by
  intro x hx
  rcases List.mem_or_eq_of_mem_set hx with hx | rfl
  · exact h.tasks x hx
  · exact hy

theorem reap (h : Codes s) (p : Ptr) : ∀ x ∈ (s.reap p).tasks, FromTask x.errorCode := by
  simp only [State.reap]
  split
  · next x hx => exact h.set (h.tasks x (List.mem_of_getElem? hx))
  · exact h.tasks

theorem client (h : Codes s) (expired busy : Bool) : Codes (s.client expired busy) := by
  have hf := h.frame
  cases hs : s.frame with
  | idle | thrown =>
    simp only [State.client, hs]
    exact h
  | waitAllTask g finite status p =>
    rw [hs] at hf
    simp only [State.client, hs]
    refine ⟨h.reap p, ?_⟩
    change FromTask (if s.errorCode p = .success then status else s.errorCode p)
    split
    · exact hf
    · exact h.errorCode p
  | waitAnyTask g p =>
    simp only [State.client, hs]
    exact ⟨h.reap p, h.errorCode p⟩
  | _ =>
    rw [hs] at hf
    simp only [State.client, hs]
    repeat' split
    all_goals exact ⟨h.tasks, by first | exact hf | exact Or.inl rfl⟩

theorem step (h : Codes s) (e : Event) : Codes (s.step e) := by
  cases e with
  | go expired busy => exact h.client expired busy
  | spawn =>
    simp only [State.step]
    split
    · next hf =>
      have hcount : s.count.tasks = s.tasks ∧ s.count.frame = s.frame := by
        rw [State.count]
        split <;> exact ⟨rfl, rfl⟩
      refine ⟨fun x hx => ?_, ?_⟩
      · rcases List.mem_append.mp hx with hx | hx
        · exact h.tasks x hx
        · rw [List.mem_singleton.mp hx]
          exact Or.inl rfl
      · change FromTask s.count.frame.gathered
        rw [hcount.2]
        exact h.frame
    · exact h
  | spawnFails counted =>
    simp only [State.step, State.count]
    repeat' split
    all_goals exact ⟨h.tasks, h.frame⟩
  | finish i code =>
    simp only [State.step]
    repeat' split
    · next hx => exact ⟨h.set (Or.inr hx.2), h.frame⟩
    · exact h
    · exact h
  | deliver i =>
    simp only [State.step]
    split
    · next x hx =>
      have hset := h.set (i := i) (y := { x with phase := .delivered })
        (h.tasks x (List.mem_of_getElem? hx))
      repeat' split
      · exact ⟨hset, h.frame⟩
      · exact ⟨hset, h.frame⟩
      · exact h
    · exact h
  | otherCreate => exact ⟨h.tasks, h.frame⟩
  | otherDelete g =>
    simp only [State.step]
    split <;> exact ⟨h.tasks, h.frame⟩
  | callWaitAll finite | callWaitAny finite =>
    simp only [State.step]
    split
    · exact ⟨h.tasks, Or.inl rfl⟩
    · exact h

end Codes

/-! ## Runs -/

/-- A wait call does not find its timeout expired, and `Create` finds a free slot. -/
def KeepsGroup (s : State) : Event → Prop
  | .go expired _ =>
    match s.frame with
    | .waitAllTimeout _ finite _ => ¬ (finite ∧ expired)
    | .create _ _ => s.groupPool.allocate.2 ≠ none
    | _ => True
  | _ => True

instance (s : State) (e : Event) : Decidable (KeepsGroup s e) := by
  cases e with
  | go expired busy =>
    simp only [KeepsGroup]
    split <;> infer_instance
  | _ => exact isTrue trivial

namespace Inv

variable {s : State}

theorem client (h : Inv s) (hcodes : Codes s) {expired busy : Bool}
    (hg : KeepsGroup s (.go expired busy)) : Inv (s.client expired busy) := by
  have huses := h.uses
  have hset : ∀ f : Frame, f.creating = s.frame.creating → (∀ g ∈ f.groups, g = s.handle) →
      (f.over = true → s.frame.over = true ∨ s.unreaped = 0) → f.popped = [] →
      f.pending = s.frame.pending → Inv (s.setFrame f) := fun f => h.setFrame
  cases hs : s.frame with
  | idle | thrown =>
    simp only [State.client, hs]
    exact h
  | waitAll finite =>
    obtain ⟨-, hl, -⟩ := h.owns (by rw [hs]; rfl)
    simp only [State.client, hs, hl.valid, ↓reduceIte]
    exact hset _ (by rw [hs]; rfl) (by simp [Frame.groups]) (fun hf => by cases hf) rfl
      (by rw [hs]; rfl)
  | waitAllLoop g finite status =>
    have hgr : g = s.handle := huses g (by rw [hs]; exact List.mem_singleton_self g)
    have hc : s.frame.creating = false := by rw [hs]; rfl
    have hn : s.frame.pending = 0 := by rw [hs]; rfl
    subst hgr
    have hto : status ≠ .timeout := by
      have hcode := hcodes.frame
      rw [hs] at hcode
      exact hcode.ne.1
    simp only [State.client, hs]
    split
    · exact hset _ hc.symm (by simp [Frame.groups]) (fun hf => by cases hf) rfl hn.symm
    · next hz =>
      exact hset _ hc.symm (by simp [Frame.groups])
        (fun _ => Or.inr (h.unreaped_eq_zero hc hn (not_not.mp hz))) rfl hn.symm
  | waitAllTimeout g finite status =>
    have hgr : g = s.handle := huses g (by rw [hs]; exact List.mem_singleton_self g)
    have hin : ¬ (finite && expired) = true := by
      have hin := hg
      rw [KeepsGroup, hs] at hin
      rwa [Bool.and_eq_true]
    simp only [State.client, hs, if_neg hin]
    exact hset _ (by rw [hs]; rfl) (by simp [Frame.groups, hgr]) (fun hf => by cases hf) rfl
      (by rw [hs]; rfl)
  | waitAllPop g finite status =>
    have hgr : g = s.handle := huses g (by rw [hs]; exact List.mem_singleton_self g)
    have hloop : Inv (s.setFrame (.waitAllLoop g finite status)) :=
      hset _ (by rw [hs]; rfl) (by simp [Frame.groups, hgr]) (fun hf => by cases hf) rfl
        (by rw [hs]; rfl)
    simp only [State.client, hs]
    split
    · exact hloop
    · split
      · next p hp =>
        subst hgr
        exact h.pop (by rw [hs]; rfl) (by rw [hs]; rfl) hp rfl rfl rfl rfl rfl
      · exact hloop
  | waitAllTask g finite status p =>
    have hgr : g = s.handle := huses g (by rw [hs]; exact List.mem_singleton_self g)
    simp only [State.client, hs]
    subst hgr
    exact h.reap (by rw [hs]; rfl) (by rw [hs]; rfl) (by rw [hs]; exact List.mem_singleton_self p)
      rfl rfl rfl rfl rfl
  | waitAllCount g finite status =>
    have hgr : g = s.handle := huses g (by rw [hs]; exact List.mem_singleton_self g)
    simp only [State.client, hs]
    subst hgr
    exact h.countDown (by rw [hs]; rfl) (by rw [hs]; rfl) rfl rfl (by simp [Frame.groups]) rfl rfl
  | waitAny finite =>
    obtain ⟨-, hl, -⟩ := h.owns (by rw [hs]; rfl)
    simp only [State.client, hs, hl.valid, ↓reduceIte]
    exact hset _ (by rw [hs]; rfl) (by simp [Frame.groups]) (fun hf => by cases hf) rfl
      (by rw [hs]; rfl)
  | waitAnyFirst g finite =>
    have hgr : g = s.handle := huses g (by rw [hs]; exact List.mem_singleton_self g)
    have hc : s.frame.creating = false := by rw [hs]; rfl
    have hn : s.frame.pending = 0 := by rw [hs]; rfl
    subst hgr
    simp only [State.client, hs]
    split
    · next hz =>
      exact hset _ hc.symm (by simp [Frame.groups])
        (fun _ => Or.inr (h.unreaped_eq_zero hc hn hz)) rfl hn.symm
    · exact hset _ hc.symm (by simp [Frame.groups]) (fun hf => by cases hf) rfl hn.symm
  | waitAnyPop g finite =>
    have hgr : g = s.handle := huses g (by rw [hs]; exact List.mem_singleton_self g)
    have hloop : Inv (s.setFrame (.waitAnyTimeout g finite)) :=
      hset _ (by rw [hs]; rfl) (by simp [Frame.groups, hgr]) (fun hf => by cases hf) rfl
        (by rw [hs]; rfl)
    simp only [State.client, hs]
    split
    · exact hloop
    · split
      · next p hp =>
        subst hgr
        exact h.pop (by rw [hs]; rfl) (by rw [hs]; rfl) hp rfl rfl rfl rfl rfl
      · exact hloop
  | waitAnyTimeout g finite =>
    have hgr : g = s.handle := huses g (by rw [hs]; exact List.mem_singleton_self g)
    simp only [State.client, hs]
    split
    · exact hset _ (by rw [hs]; rfl) (by simp [Frame.groups]) (fun hf => by cases hf) rfl
        (by rw [hs]; rfl)
    · exact hset _ (by rw [hs]; rfl) (by simp [Frame.groups, hgr]) (fun hf => by cases hf) rfl
        (by rw [hs]; rfl)
  | waitAnyTask g p =>
    have hgr : g = s.handle := huses g (by rw [hs]; exact List.mem_singleton_self g)
    simp only [State.client, hs]
    subst hgr
    exact h.reap (by rw [hs]; rfl) (by rw [hs]; rfl) (by rw [hs]; exact List.mem_singleton_self p)
      rfl rfl rfl rfl rfl
  | waitAnyCount g status =>
    have hgr : g = s.handle := huses g (by rw [hs]; exact List.mem_singleton_self g)
    have hto : status ≠ .groupCompleted := by
      have hcode := hcodes.frame
      rw [hs] at hcode
      exact hcode.ne.2
    simp only [State.client, hs, if_neg hto]
    subst hgr
    exact h.countDown (by rw [hs]; rfl) (by rw [hs]; rfl) rfl rfl (by simp [Frame.groups]) rfl rfl
  | groupDelete g all status =>
    have hgr : g = s.handle := huses g (by rw [hs]; exact List.mem_singleton_self g)
    have hc : s.frame.creating = false := by rw [hs]; rfl
    obtain ⟨-, hl, hd⟩ := h.owns hc
    subst hgr
    simp only [State.client, hs, if_pos (And.intro hl.valid hd)]
    exact h.delete hc (by rw [hs]; rfl)
  | create all status =>
    have hfree : s.groupPool.allocate.2 ≠ Option.none := by
      have hfree := hg
      rwa [KeepsGroup, hs] at hfree
    obtain ⟨g, hg⟩ := Option.ne_none_iff_exists'.mp hfree
    simp only [State.client, hs, hg]
    exact h.create (by rw [hs]; rfl) (by rw [hs]; rfl) hg
  | returned all status =>
    simp only [State.client, hs]
    exact hset _ (by rw [hs]; rfl) (by simp [Frame.groups]) (fun hf => by cases hf) rfl
      (by rw [hs]; rfl)

theorem step (h : Inv s) (hcodes : Codes s) {e : Event} (hg : KeepsGroup s e) :
    Inv (s.step e) := by
  cases e with
  | go expired busy => exact h.client hcodes hg
  | spawn =>
    simp only [State.step]
    split
    · next hf => exact h.spawn hf
    · exact h
  | spawnFails counted =>
    simp only [State.step]
    split
    · next hf => exact h.count hf.1
    · exact h
  | callWaitAll finite | callWaitAny finite =>
    simp only [State.step]
    split
    · next hf =>
      exact h.setFrame (by rw [hf]; rfl) (by simp [Frame.groups]) (fun ho => by cases ho) rfl
        (by rw [hf]; rfl)
    · exact h
  | finish i code =>
    simp only [State.step]
    split
    · next x hx =>
      split
      · next hr =>
        refine h.setTask hx ?_ Phase.noConfusion rfl fun hd => ?_
        · rw [hr.1]
          exact Phase.noConfusion
        · rw [hr.1] at hd
          cases hd
      · exact h
    · exact h
  | deliver i =>
    simp only [State.step]
    split
    · next x hx =>
      split
      · next hr => exact h.deliver hx hr
      · exact h
    · exact h
  | otherCreate =>
    have hkeeps : (Pool.Step.allocate fun x : Mtapi.Group =>
        x.initWithNode s.attributes).KeepsHandles := fun _ => rfl
    refine h.setPool (Pool.Step.sound h.sound hkeeps) fun g hl _ => ?_
    have hlive := Pool.Step.live h.sound hkeeps (fun _ hx => by cases hx) hl
    rcases Pool.Step.live_cases h.sound hkeeps hlive with ⟨-, hkeep⟩ | ⟨-, -, hnew, -⟩
    · exact ⟨hlive, hkeep⟩
    · exact absurd hl (Pool.not_live_of_allocate h.sound hnew)
  | otherDelete g =>
    simp only [State.step]
    split
    · next hd =>
      refine h.setPool (Pool.sound_deallocate h.sound g) fun g' hl hcr => ?_
      have hid : g'.id ≠ g.id := fun he =>
        hd.2 (by rw [hcr, hd.1.eq_of_id hl he.symm]; exact List.mem_singleton_self g')
      exact ⟨hl.deallocate hid, Pool.storage_deallocate_of_ne _ _ hid⟩
    · exact h

end Inv

/-- `Create` does not throw. -/
theorem not_thrown {s : State} (h : s.frame ≠ .thrown) {e : Event} (hg : KeepsGroup s e) :
    (s.step e).frame ≠ .thrown := by
  cases e with
  | go expired busy =>
    rw [State.step]
    cases hs : s.frame with
    | thrown => exact absurd hs h
    | create all status =>
      have hfree : s.groupPool.allocate.2 ≠ none := by
        have hfree := hg
        rwa [KeepsGroup, hs] at hfree
      obtain ⟨g, hg⟩ := Option.ne_none_iff_exists'.mp hfree
      simp only [State.client, hs, hg]
      exact Frame.noConfusion
    | idle =>
      simp only [State.client, hs]
      exact Frame.noConfusion
    | _ =>
      simp only [State.client, hs]
      repeat' split
      all_goals exact Frame.noConfusion
  | spawn =>
    simp only [State.step, State.spawn, State.count]
    repeat' split
    all_goals exact h
  | spawnFails counted =>
    simp only [State.step, State.count]
    repeat' split
    all_goals exact h
  | callWaitAll finite | callWaitAny finite =>
    simp only [State.step]
    split
    · exact Frame.noConfusion
    · exact h
  | finish i code | deliver i =>
    simp only [State.step]
    repeat' split
    all_goals exact h
  | otherCreate => exact h
  | otherDelete g =>
    simp only [State.step]
    split <;> exact h

/-- All steps of a run keep the group. -/
def AlwaysKeepsGroup (s : State) : List Event → Prop
  | [] => True
  | e :: es => KeepsGroup s e ∧ AlwaysKeepsGroup (s.step e) es

instance decidableAlwaysKeepsGroup : (s : State) → (es : List Event) →
    Decidable (AlwaysKeepsGroup s es)
  | _, [] => isTrue trivial
  | s, e :: es =>
    have := decidableAlwaysKeepsGroup (s.step e) es
    inferInstanceAs (Decidable (_ ∧ _))

theorem inv_start (attributes : NodeAttributes) : Inv (State.start attributes) where
  sound := Pool.sound_init _ _
  owns hf := Bool.noConfusion hf
  none _ := rfl
  uses _ hg := absurd hg List.not_mem_nil
  left _ hx := absurd hx List.not_mem_nil
  queued hf := Bool.noConfusion hf
  popped _ hp := absurd hp List.not_mem_nil
  counted hf := Bool.noConfusion hf

/-- The invariants hold after every run. -/
theorem inv_run {s : State} (h : Inv s) (hc : Codes s) (ht : s.frame ≠ .thrown) {es : List Event}
    (hg : AlwaysKeepsGroup s es) : Inv (s.run es) ∧ (s.run es).frame ≠ .thrown := by
  induction es generalizing s with
  | nil => exact ⟨h, ht⟩
  | cons e es ih =>
    obtain ⟨he, hes⟩ := hg
    exact ih (h.step hc he) (hc.step e) (not_thrown ht he) hes

/-- `WaitAll` returns success only when the tasks have been completed, and the group object
has one live group, except where it is just replacing it. -/
theorem wait_all (attributes : NodeAttributes) (es : List Event)
    (hg : AlwaysKeepsGroup (State.start attributes) es) :
    let s := (State.start attributes).run es
    (s.frame = .returned true .success → ∀ x ∈ s.tasks, x.phase ≠ .running) ∧
      s.frame ≠ .thrown ∧ (∀ g ∈ s.created, g = s.handle) ∧
      (s.frame.creating = false → s.created = [s.handle] ∧ s.groupPool.Live s.handle) := by
  intro s
  obtain ⟨hinv, ht⟩ := inv_run (inv_start attributes)
    ⟨fun x hx => absurd hx List.not_mem_nil, Or.inl rfl⟩ Frame.noConfusion hg
  refine ⟨fun hf x hx hr => ?_, ht, fun g hmem => ?_, fun hc => ?_⟩
  · have hne : x.phase ≠ .reaped := by
      rw [hr]
      exact Phase.noConfusion
    have hover := (hinv.left x hx hne).1
    rw [hf] at hover
    cases hover
  · cases hc : s.frame.creating with
    | false =>
      rw [(hinv.owns hc).1] at hmem
      exact List.mem_singleton.mp hmem
    | true =>
      rw [hinv.none hc] at hmem
      exact absurd hmem List.not_mem_nil
  · obtain ⟨hcr, hl, -⟩ := hinv.owns hc
    exact ⟨hcr, hl⟩

/-- A task is spawned, completed and waited for. -/
def spawnAndWait : List Event :=
  List.replicate 2 (.go false false) ++ [.spawn, .callWaitAll true] ++
    List.replicate 2 (.go false false) ++ [.finish 0 .success, .deliver 0] ++
    List.replicate 8 (.go false false)

theorem wait_all_completed :
    ((State.start (smallNode 1)).run spawnAndWait).frame = .returned true .success ∧
      ∀ x ∈ ((State.start (smallNode 1)).run spawnAndWait).tasks, x.phase ≠ .running :=
  ⟨by decide +kernel, (wait_all (smallNode 1) spawnAndWait (by decide +kernel)).1
    (by decide +kernel)⟩

/-- A call of `WaitAll` finds its timeout expired while the task runs, and another one
follows. -/
def waitAllTwice : List Event :=
  List.replicate 2 (.go false false) ++ [.spawn, .callWaitAll true] ++
    List.replicate 2 (.go false false) ++ [.go true false] ++
    List.replicate 2 (.go false false) ++ [.callWaitAll false] ++
    List.replicate 4 (.go false false)

/-- The second call has returned success although the task is running, and the group of the
task is still there beside the new one. -/
theorem wait_all_forgets :
    ((State.start (smallNode 1)).run waitAllTwice).frame = .returned true .success ∧
      (∃ x ∈ ((State.start (smallNode 1)).run waitAllTwice).tasks, x.phase = .running) ∧
      ((State.start (smallNode 1)).run waitAllTwice).created = [⟨1, 2⟩, ⟨0, 1⟩] ∧
      ((State.start (smallNode 1)).run waitAllTwice).handle = ⟨1, 2⟩ ∧
      ((State.start (smallNode 1)).run waitAllTwice).groupPool.Live ⟨1, 2⟩ ∧
      ((State.start (smallNode 1)).run waitAllTwice).groupPool.Live ⟨0, 1⟩ := by
  decide +kernel

end Embb.Tasks.Group
