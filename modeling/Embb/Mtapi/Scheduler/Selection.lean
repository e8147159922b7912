import Mathlib.Data.List.Pairwise
import Embb.Mtapi.Scheduler.Machine

/-!
# Work selection

The functions that look for the next task of a worker, called on their own. Both take the first
task of the first queue that is not empty, in an order of the queues that they walk with nested
loops.
-/

namespace Embb.Mtapi

namespace Node

/-- `embb_mtapi_task_queue_pop` on a queue of a worker. -/
def popTask (n : Node) (r : QueueRef) : Node × Option Ptr :=
  (n.setWorkerQueue r (n.workerQueue r).pop.1, (n.workerQueue r).pop.2)

/-- `embb_mtapi_scheduler_get_private_task_from_context`. -/
def getPrivateTaskFromContext (n : Node) (worker priority : Nat) : Node × Option Ptr :=
  n.popTask ⟨worker, true, priority⟩

/-- `embb_mtapi_scheduler_get_public_task_from_context`. -/
def getPublicTaskFromContext (n : Node) (worker priority : Nat) : Node × Option Ptr :=
  n.popTask ⟨worker, false, priority⟩

/-- The loop over the public queues of other workers. -/
def stealLoop (priority : Nat) : (count contextIndex : Nat) → Node → Node × Option Ptr
  | 0, _, n => (n, none)
  | count + 1, contextIndex, n =>
    match n.popTask ⟨contextIndex, false, priority⟩ with
    | (n', some task) => (n', some task)
    | (n', none) => stealLoop priority count ((contextIndex + 1) % n'.workerCount) n'

/-- The steps of a loop over priorities that ends with the first task. -/
def priorityLoop (body : Nat → Node → Node × Option Ptr) : (count ii : Nat) → Node →
    Node × Option Ptr
  | 0, _, n => (n, none)
  | count + 1, ii, n =>
    match body ii n with
    | (n', some task) => (n', some task)
    | (n', none) => priorityLoop body count (ii + 1) n'

/-- `embb_mtapi_scheduler_get_next_task_vhpf`. -/
def getNextTaskVhpf (n : Node) (worker : Nat) : Node × Option Ptr :=
  priorityLoop (fun ii n =>
    match n.getPrivateTaskFromContext worker ii with
    | (n', some task) => (n', some task)
    | (n', none) =>
      match n'.getPublicTaskFromContext worker ii with
      | (n'', some task) => (n'', some task)
      | (n'', none) =>
        stealLoop ii (n''.workerCount - 1) ((worker + 1) % n''.workerCount) n'')
    n.attributes.maxPriorities 0 n

/-- `embb_mtapi_scheduler_get_next_task_lf`. -/
def getNextTaskLf (n : Node) (worker : Nat) : Node × Option Ptr :=
  match priorityLoop (fun prio n => n.getPrivateTaskFromContext worker prio)
      n.attributes.maxPriorities 0 n with
  | (n', some task) => (n', some task)
  | (n', none) =>
    match priorityLoop (fun prio n => n.getPublicTaskFromContext worker prio)
        n'.attributes.maxPriorities 0 n' with
    | (n'', some task) => (n'', some task)
    | (n'', none) =>
      priorityLoop (fun prio n =>
          stealLoop prio (n.workerCount - 1) ((worker + 1) % n.workerCount) n)
        n''.attributes.maxPriorities 0 n''

/-- The first task of the first queue that has one. -/
def takeFirst : List QueueRef → Node → Node × Option Ptr
  | [], n => (n, none)
  | r :: rest, n =>
    match n.popTask r with
    | (n', some task) => (n', some task)
    | (n', none) => takeFirst rest n'

/-- A pop that finds nothing changes nothing. -/
theorem popTask_none {n : Node} {r : QueueRef} (h : (n.workerQueue r).pop.2 = none) :
    n.popTask r = (n, none) := by
  have hkeep : n.setWorkerQueue r (n.workerQueue r) = n := by
    simp only [setWorkerQueue, Function.update_eq_self]
  simp only [popTask, h, TaskQueue.pop_of_none h, hkeep]

theorem takeFirst_cons (r : QueueRef) (rest : List QueueRef) (n : Node) :
    takeFirst (r :: rest) n =
      match (n.workerQueue r).pop.2 with
      | some task => (n.setWorkerQueue r (n.workerQueue r).pop.1, some task)
      | none => takeFirst rest n := by
  cases h : (n.workerQueue r).pop.2 with
  | some task => simp only [takeFirst, popTask, h]
  | none => simp only [takeFirst, popTask_none h]

/-- Looking in two lists of queues, the second time where nothing was found. -/
theorem takeFirst_append (rs rs' : List QueueRef) (n : Node) :
    takeFirst (rs ++ rs') n =
      match takeFirst rs n with
      | (n', some task) => (n', some task)
      | (n', none) => takeFirst rs' n' := by
  induction rs with
  | nil => rfl
  | cons r rs ih =>
    rw [List.cons_append, takeFirst_cons, takeFirst_cons]
    cases (n.workerQueue r).pop.2 with
    | some task => rfl
    | none => exact ih

/-- Where nothing is found, nothing has changed. -/
theorem takeFirst_none {rs : List QueueRef} {n n' : Node} (h : takeFirst rs n = (n', none)) :
    n' = n := by
  induction rs with
  | nil => exact (Prod.mk.inj h).1.symm
  | cons r rs ih =>
    rw [takeFirst_cons] at h
    cases hp : (n.workerQueue r).pop.2 with
    | some task => simp only [hp, Prod.mk.injEq, reduceCtorEq, and_false] at h
    | none =>
      simp only [hp] at h
      exact ih h

theorem priorityLoop_eq {body : Nat → Node → Node × Option Ptr}
    {queues : Nat → List QueueRef} {n : Node} (count ii : Nat)
    (h : ∀ i, body i n = takeFirst (queues i) n) :
    priorityLoop body count ii n = takeFirst ((List.range' ii count).flatMap queues) n := by
  induction count generalizing ii with
  | zero => rfl
  | succ count ih =>
    rw [List.range'_succ, List.flatMap_cons, takeFirst_append, priorityLoop, h]
    cases hq : takeFirst (queues ii) n with
    | mk n' found =>
      cases found with
      | some task => rfl
      | none =>
        have hn := takeFirst_none hq
        subst hn
        exact ih (ii + 1)

theorem stealLoop_eq (priority count : Nat) (n : Node) (start : Nat) :
    stealLoop priority count (start % n.workerCount) n =
      takeFirst ((List.range' start count).map fun i => ⟨i % n.workerCount, false, priority⟩)
        n := by
  induction count generalizing start with
  | zero => rfl
  | succ count ih =>
    rw [List.range'_succ, List.map_cons, takeFirst_cons, stealLoop]
    cases hp : (n.workerQueue ⟨start % n.workerCount, false, priority⟩).pop.2 with
    | some task => simp only [popTask, hp]
    | none =>
      rw [popTask_none hp]
      simp only [Nat.mod_add_mod]
      exact ih (start + 1)

/-- The other workers are visited from the neighbour on. -/
theorem stealLoop_others (n : Node) (worker priority : Nat) :
    stealLoop priority (n.workerCount - 1) ((worker + 1) % n.workerCount) n =
      takeFirst ((n.otherWorkers worker).map fun other => ⟨other, false, priority⟩) n := by
  rw [stealLoop_eq, otherWorkers, List.map_map, List.range'_eq_map_range, List.map_map]
  rfl

theorem getNextTaskVhpf_eq (n : Node) (worker : Nat) :
    n.getNextTaskVhpf worker = takeFirst (n.nextTaskVhpf worker) n := by
  rw [getNextTaskVhpf, nextTaskVhpf, List.range_eq_range']
  refine priorityLoop_eq _ 0 fun ii => ?_
  rw [takeFirst_cons]
  cases hpriv : (n.workerQueue ⟨worker, true, ii⟩).pop.2 with
  | some task => simp only [getPrivateTaskFromContext, popTask, hpriv]
  | none =>
    rw [getPrivateTaskFromContext, popTask_none hpriv, takeFirst_cons]
    cases hpub : (n.workerQueue ⟨worker, false, ii⟩).pop.2 with
    | some task => simp only [getPublicTaskFromContext, popTask, hpub]
    | none =>
      simp only [getPublicTaskFromContext, popTask_none hpub]
      exact stealLoop_others n worker ii

theorem takeFirst_singleton (r : QueueRef) (n : Node) : takeFirst [r] n = n.popTask r := by
  rw [takeFirst_cons]
  cases h : (n.workerQueue r).pop.2 with
  | some task => simp only [popTask, h]
  | none => rw [popTask_none h]; rfl

/-- A loop that looks at one queue for each priority. -/
theorem priorityLoop_map (r : Nat → QueueRef) (count : Nat) (n : Node) :
    priorityLoop (fun prio n => n.popTask (r prio)) count 0 n =
      takeFirst ((List.range count).map r) n := by
  have hloop : priorityLoop (fun prio n => n.popTask (r prio)) count 0 n =
      takeFirst ((List.range' 0 count).flatMap fun prio => [r prio]) n :=
    priorityLoop_eq count 0 fun i => (takeFirst_singleton (r i) n).symm
  rw [hloop, ← List.range_eq_range', ← List.map_eq_flatMap]

theorem getNextTaskLf_eq (n : Node) (worker : Nat) :
    n.getNextTaskLf worker = takeFirst (n.nextTaskLf worker) n := by
  have hpriv : priorityLoop (fun prio n => n.getPrivateTaskFromContext worker prio)
      n.attributes.maxPriorities 0 n =
        takeFirst ((List.range n.attributes.maxPriorities).map (⟨worker, true, ·⟩)) n :=
    priorityLoop_map (⟨worker, true, ·⟩) _ n
  have hpub : priorityLoop (fun prio n => n.getPublicTaskFromContext worker prio)
      n.attributes.maxPriorities 0 n =
        takeFirst ((List.range n.attributes.maxPriorities).map (⟨worker, false, ·⟩)) n :=
    priorityLoop_map (⟨worker, false, ·⟩) _ n
  rw [getNextTaskLf, nextTaskLf, takeFirst_append, takeFirst_append, hpriv]
  cases hq : takeFirst ((List.range n.attributes.maxPriorities).map (⟨worker, true, ·⟩)) n with
  | mk n' found =>
    cases found with
    | some task => rfl
    | none =>
      have hn := takeFirst_none hq
      subst hn
      simp only [hpub]
      cases hq' : takeFirst
          ((List.range n'.attributes.maxPriorities).map (⟨worker, false, ·⟩)) n' with
      | mk n'' found =>
        cases found with
        | some task => rfl
        | none =>
          have hn := takeFirst_none hq'
          subst hn
          rw [List.range_eq_range']
          exact priorityLoop_eq _ 0 fun prio => stealLoop_others n'' worker prio

/-- What is found is the first task of a queue before which all are empty. -/
theorem takeFirst_spec (rs : List QueueRef) (n : Node) :
    ((takeFirst rs n).2 = none ∧ (takeFirst rs n).1 = n ∧ ∀ r ∈ rs, (n.workerQueue r).tasks = []) ∨
    ∃ before r after task, rs = before ++ r :: after ∧
      (∀ r' ∈ before, (n.workerQueue r').tasks = []) ∧
      (n.workerQueue r).tasks = task :: (n.workerQueue r).pop.1.tasks ∧
      takeFirst rs n = (n.setWorkerQueue r (n.workerQueue r).pop.1, some task) := by
  induction rs with
  | nil => exact Or.inl ⟨rfl, rfl, fun r hr => absurd hr List.not_mem_nil⟩
  | cons r rs ih =>
    rw [takeFirst_cons]
    cases hp : (n.workerQueue r).pop.2 with
    | some task =>
      exact Or.inr ⟨[], r, rs, task, rfl, fun r' hr' => absurd hr' List.not_mem_nil,
        TaskQueue.tasks_of_pop_some hp, rfl⟩
    | none =>
      have hempty := TaskQueue.tasks_of_pop_none hp
      rcases ih with ⟨h1, h2, h3⟩ | ⟨before, r', after, task, hrs, hb, ht, he⟩
      · refine Or.inl ⟨h1, h2, fun r' hr' => ?_⟩
        rcases List.mem_cons.mp hr' with rfl | hr'
        · exact hempty
        · exact h3 r' hr'
      · refine Or.inr ⟨r :: before, r', after, task, by rw [hrs]; rfl, fun x hx => ?_, ht, he⟩
        rcases List.mem_cons.mp hx with rfl | hx
        · exact hempty
        · exact hb x hx

/-- The queues from which a worker may take tasks: its private ones and the public ones of all
workers. -/
def Accessible (n : Node) (worker : Nat) (r : QueueRef) : Prop :=
  r.worker < n.workerCount ∧ r.priority < n.attributes.maxPriorities ∧
    (r.isPrivate = true → r.worker = worker)

/-- Every worker is the caller or one of those that it visits. -/
theorem mem_otherWorkers (n : Node) {worker other : Nat} (hw : worker < n.workerCount) :
    other ∈ n.otherWorkers worker ↔ other < n.workerCount ∧ other ≠ worker := by
  simp only [otherWorkers, List.mem_map, List.mem_range]
  constructor
  · rintro ⟨kk, hk, rfl⟩
    refine ⟨Nat.mod_lt _ (by omega), fun he => ?_⟩
    rcases Nat.lt_or_ge (worker + 1 + kk) n.workerCount with hlt | hge
    · rw [Nat.mod_eq_of_lt hlt] at he
      omega
    · rw [Nat.mod_eq_sub_mod hge, Nat.mod_eq_of_lt (by omega)] at he
      omega
  · rintro ⟨hlt, hne⟩
    rcases Nat.lt_or_ge worker other with h | h
    · exact ⟨other - worker - 1, by omega, by
        rw [Nat.mod_eq_of_lt (by omega)]
        omega⟩
    · refine ⟨other + n.workerCount - worker - 1, by omega, ?_⟩
      have he : worker + 1 + (other + n.workerCount - worker - 1) = other + n.workerCount := by
        omega
      rw [he, Nat.add_mod_right, Nat.mod_eq_of_lt hlt]

theorem mem_nextTaskVhpf (n : Node) {worker : Nat} (hw : worker < n.workerCount) (r : QueueRef) :
    r ∈ n.nextTaskVhpf worker ↔ n.Accessible worker r := by
  simp only [nextTaskVhpf, List.mem_flatMap, List.mem_range, List.mem_cons, List.mem_map,
    mem_otherWorkers n hw, Accessible]
  constructor
  · rintro ⟨ii, hii, rfl | rfl | ⟨other, ⟨hlt, -⟩, rfl⟩⟩
    · exact ⟨hw, hii, fun _ => rfl⟩
    · exact ⟨hw, hii, fun h => (by cases h)⟩
    · exact ⟨hlt, hii, fun h => (by cases h)⟩
  · obtain ⟨other, isPrivate, ii⟩ := r
    rintro ⟨hlt, hii, hpriv⟩
    refine ⟨ii, hii, ?_⟩
    cases isPrivate with
    | true =>
      have he : other = worker := hpriv rfl
      exact Or.inl (by rw [he])
    | false =>
      by_cases he : other = worker
      · exact Or.inr (Or.inl (by rw [he]))
      · exact Or.inr (Or.inr ⟨other, ⟨hlt, he⟩, rfl⟩)

theorem mem_nextTaskLf (n : Node) {worker : Nat} (hw : worker < n.workerCount) (r : QueueRef) :
    r ∈ n.nextTaskLf worker ↔ n.Accessible worker r := by
  simp only [nextTaskLf, List.mem_append, List.mem_flatMap, List.mem_range, List.mem_map,
    mem_otherWorkers n hw, Accessible]
  constructor
  · rintro ((⟨ii, hii, rfl⟩ | ⟨ii, hii, rfl⟩) | ⟨ii, hii, other, ⟨hlt, -⟩, rfl⟩)
    · exact ⟨hw, hii, fun _ => rfl⟩
    · exact ⟨hw, hii, fun h => (by cases h)⟩
    · exact ⟨hlt, hii, fun h => (by cases h)⟩
  · obtain ⟨other, isPrivate, ii⟩ := r
    rintro ⟨hlt, hii, hpriv⟩
    cases isPrivate with
    | true =>
      have he : other = worker := hpriv rfl
      exact Or.inl (Or.inl ⟨ii, hii, by rw [he]⟩)
    | false =>
      by_cases he : other = worker
      · exact Or.inl (Or.inr ⟨ii, hii, by rw [he]⟩)
      · exact Or.inr ⟨ii, hii, other, ⟨hlt, he⟩, rfl⟩

end Node

/-- Own private queues come before own public ones, and those before the queues of others. -/
def QueueRef.distance (worker : Nat) (r : QueueRef) : Nat :=
  if r.isPrivate then 0 else if r.worker = worker then 1 else 2

namespace Node

theorem nextTaskVhpf_sorted (n : Node) (worker : Nat) :
    (n.nextTaskVhpf worker).Pairwise fun r r' => r.priority ≤ r'.priority := by
  have hprio : ∀ ii, ∀ r ∈ (⟨worker, true, ii⟩ : QueueRef) :: ⟨worker, false, ii⟩ ::
      (n.otherWorkers worker).map fun other => ⟨other, false, ii⟩, r.priority = ii := by
    intro ii r hr
    simp only [List.mem_cons, List.mem_map] at hr
    rcases hr with rfl | rfl | ⟨other, -, rfl⟩ <;> rfl
  rw [nextTaskVhpf, List.pairwise_flatMap]
  constructor
  · intro ii _
    refine List.pairwise_of_forall_mem_list fun r hr r' hr' => ?_
    rw [hprio ii r hr, hprio ii r' hr']
  · refine List.pairwise_lt_range.imp fun {ii jj} hlt r hr r' hr' => ?_
    rw [hprio ii r hr, hprio jj r' hr']
    exact Nat.le_of_lt hlt

/-- The order of the local first strategy. -/
def Nearer (worker : Nat) (r r' : QueueRef) : Prop :=
  r.distance worker < r'.distance worker ∨
    (r.distance worker = r'.distance worker ∧ r.priority ≤ r'.priority)

theorem nextTaskLf_sorted (n : Node) {worker : Nat} (hw : worker < n.workerCount) :
    (n.nextTaskLf worker).Pairwise (Nearer worker) := by
  have hown : ∀ isPrivate, ((List.range n.attributes.maxPriorities).map fun prio =>
      (⟨worker, isPrivate, prio⟩ : QueueRef)).Pairwise (Nearer worker) := by
    intro isPrivate
    rw [List.pairwise_map]
    exact List.pairwise_lt_range.imp fun hlt => Or.inr ⟨rfl, Nat.le_of_lt hlt⟩
  have hstolen : ∀ prio, ∀ r ∈ (n.otherWorkers worker).map fun other =>
      (⟨other, false, prio⟩ : QueueRef), r.distance worker = 2 ∧ r.priority = prio := by
    intro prio r hr
    obtain ⟨other, ho, rfl⟩ := List.mem_map.mp hr
    exact ⟨if_neg ((mem_otherWorkers n hw).mp ho).2, rfl⟩
  have hpublic : ∀ r ∈ (List.range n.attributes.maxPriorities).map fun prio =>
      (⟨worker, false, prio⟩ : QueueRef), r.distance worker = 1 := by
    intro r hr
    obtain ⟨prio, -, rfl⟩ := List.mem_map.mp hr
    exact if_pos rfl
  have hprivate : ∀ r ∈ (List.range n.attributes.maxPriorities).map fun prio =>
      (⟨worker, true, prio⟩ : QueueRef), r.distance worker = 0 := by
    intro r hr
    obtain ⟨prio, -, rfl⟩ := List.mem_map.mp hr
    rfl
  rw [nextTaskLf, List.pairwise_append, List.pairwise_append]
  refine ⟨⟨hown true, hown false, fun r hr r' hr' => Or.inl ?_⟩, ?_, fun r hr r' hr' => Or.inl ?_⟩
  · rw [hprivate r hr, hpublic r' hr']
    exact Nat.one_pos
  · rw [List.pairwise_flatMap]
    constructor
    · intro prio _
      refine List.pairwise_of_forall_mem_list fun r hr r' hr' => Or.inr ?_
      obtain ⟨hd, hp⟩ := hstolen prio r hr
      obtain ⟨hd', hp'⟩ := hstolen prio r' hr'
      exact ⟨hd.trans hd'.symm, (hp.trans hp'.symm).le⟩
    · refine List.pairwise_lt_range.imp fun {ii jj} hlt r hr r' hr' => Or.inr ?_
      obtain ⟨hd, hp⟩ := hstolen ii r hr
      obtain ⟨hd', hp'⟩ := hstolen jj r' hr'
      exact ⟨hd.trans hd'.symm, by omega⟩
  · obtain ⟨prio, -, hr'⟩ := List.mem_flatMap.mp hr'
    rw [(hstolen prio r' hr').1]
    rcases List.mem_append.mp hr with hr | hr
    · rw [hprivate r hr]
      exact Nat.two_pos
    · rw [hpublic r hr]
      exact Nat.one_lt_two

/-- A look for work finds nothing exactly when there is nothing that the worker may take. What it
finds has been the oldest task of a queue that it may take from, which comes first among those
with tasks; all other queues and the rest of the node stay as they are. -/
def Selects (n : Node) (worker : Nat) (first : QueueRef → QueueRef → Prop)
    (result : Node × Option Ptr) : Prop :=
  (result.2 = none ↔ ∀ r, n.Accessible worker r → (n.workerQueue r).tasks = []) ∧
  (result.2 = none → result.1 = n) ∧
  ∀ task, result.2 = some task → ∃ r, n.Accessible worker r ∧
    (n.workerQueue r).tasks = task :: (result.1.workerQueue r).tasks ∧
    result.1 = n.setWorkerQueue r (result.1.workerQueue r) ∧
    (∀ r', r' ≠ r → result.1.workerQueue r' = n.workerQueue r') ∧
    ∀ r', n.Accessible worker r' → (n.workerQueue r').tasks ≠ [] → first r r'

theorem selects_takeFirst {n : Node} {worker : Nat} {first : QueueRef → QueueRef → Prop}
    {rs : List QueueRef} (hmem : ∀ r, r ∈ rs ↔ n.Accessible worker r)
    (hfirst : rs.Pairwise first) (hrefl : ∀ r, first r r) :
    n.Selects worker first (takeFirst rs n) := by
  rcases takeFirst_spec rs n with ⟨hnone, hsame, hall⟩ | ⟨before, r, after, task, hrs, hb, ht, he⟩
  · refine ⟨iff_of_true hnone fun r hr => hall r ((hmem r).mpr hr), fun _ => hsame,
      fun task htask => ?_⟩
    rw [hnone] at htask
    cases htask
  · have hr : n.Accessible worker r := by
      rw [← hmem, hrs]
      exact List.mem_append_right _ List.mem_cons_self
    rw [he]
    refine ⟨iff_of_false (fun h => (by cases h)) fun hall => ?_, fun h => (by cases h),
      fun task' htask => ⟨r, hr, ?_, ?_, fun r' hne => ?_, fun r' hr' hne => ?_⟩⟩
    · rw [hall r hr] at ht
      cases ht
    · cases htask
      simp only [setWorkerQueue_workerQueue, Function.update_self]
      exact ht
    · simp only [setWorkerQueue_workerQueue, Function.update_self]
    · simp only [setWorkerQueue_workerQueue, Function.update_of_ne hne]
    · have hin := (hmem r').mpr hr'
      rw [hrs] at hin hfirst
      rcases List.mem_append.mp hin with hin | hin
      · exact absurd (hb r' hin) hne
      · rcases List.mem_cons.mp hin with rfl | hin
        · exact hrefl r'
        · exact List.rel_of_pairwise_cons (List.pairwise_append.mp hfirst).2.1 hin

/-- Both strategies find work when there is some. One takes a task of the lowest priority number
that it may take, the other looks in its own queues first. -/
theorem get_next_task (n : Node) {worker : Nat} (hw : worker < n.workerCount) :
    n.Selects worker (fun r r' => r.priority ≤ r'.priority) (n.getNextTaskVhpf worker) ∧
      n.Selects worker (Nearer worker) (n.getNextTaskLf worker) := by
  rw [getNextTaskVhpf_eq, getNextTaskLf_eq]
  exact ⟨selects_takeFirst (mem_nextTaskVhpf n hw) (nextTaskVhpf_sorted n worker)
      fun r => Nat.le_refl _,
    selects_takeFirst (mem_nextTaskLf n hw) (nextTaskLf_sorted n hw)
      fun r => Or.inr ⟨rfl, Nat.le_refl _⟩⟩

/-- Two workers, and a task in the public queue of the first one. -/
def oneTask : Node :=
  (Node.init (smallNode 2) .workStealVhpf).setWorkerQueue ⟨0, false, 0⟩
    ((TaskQueue.initWithCapacity 2).push ⟨0, 1⟩).1

theorem get_next_task_stolen :
    (oneTask.getNextTaskVhpf 1).2 ≠ none ∧ (oneTask.getNextTaskLf 1).2 ≠ none :=
  ⟨fun h => absurd
      ((get_next_task oneTask (show 1 < oneTask.workerCount by decide)).1.1.mp h ⟨0, false, 0⟩
      ⟨by decide, by decide, by decide⟩) (by decide),
    fun h => absurd
      ((get_next_task oneTask (show 1 < oneTask.workerCount by decide)).2.1.mp h ⟨0, false, 0⟩
      ⟨by decide, by decide, by decide⟩) (by decide)⟩

end Node

end Embb.Mtapi
