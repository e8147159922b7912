import Mathlib.Tactic.Common
import Embb.Lib.Threads
import Embb.Mtapi.Types

/-!
# Tasks that run on another node

`network_task_start` sends a task to a peer and then counts it and marks it as
running. The thread that receives the result may be faster: it completes the task,
counts it down and hands it to its group, and whoever waits for the task gives its
slot back. Nothing but the order of these steps keeps them apart.
-/

namespace Embb.MtapiNetwork.RemoteTask

open Threads Embb.Mtapi

/-- A slot of the task pool. `uses` is the tag before it is reduced; `received` records that the
result of the task in the slot has been received. -/
structure Slot where
  inUse : Bool
  uses : ℕ
  state : TaskState
  errorCode : Status
  action : ℕ
  group : Option ℕ
  received : Bool
  deriving DecidableEq, Repr

/-- A task as a handle names it, and its action. -/
structure Task where
  slot : ℕ
  use : ℕ
  action : ℕ
  deriving DecidableEq, Repr

/-- The task pool, the counters of the actions, the queues of the groups, and the tasks that have
been sent to a peer and that it has not answered. -/
structure Memory where
  slots : ℕ → Slot
  numTasks : ℕ → ℤ
  groupQueue : ℕ → List ℕ
  requests : List Task

/-- What a thread is at. -/
inductive Frame where
  /-- The application. -/
  | client
  -- network_task_start
  | send (task : Task)
  | count (task : Task)
  | running (task : Task)
  -- mtapi_task_wait
  | wait (slot : ℕ)
  -- embb_mtapi_task_delete
  | finalize (slot : ℕ)
  | deallocate (slot : ℕ)
  -- embb_mtapi_network_thread
  | receive
  | result (slot action : ℕ) (status : Status)
  | completed (slot action : ℕ)
  | decrement (slot action : ℕ)
  | push (slot : ℕ)
  deriving DecidableEq, Repr

/-- What the environment decides: the slot of a new task with its action and group, the task that
is waited for, a timeout, the group whose next task is taken, and which request the peer answers. -/
inductive Choice where
  | go
  | start (slot action : ℕ) (group : Option ℕ)
  | wait (slot tag : ℕ)
  | expired
  | take (group : ℕ)
  | reply (index : ℕ) (status : Status)
  deriving DecidableEq, Repr

namespace Memory

def modify (m : Memory) (p : ℕ) (f : Slot → Slot) : Memory :=
  { m with slots := Function.update m.slots p (f (m.slots p)) }

def addTasks (m : Memory) (a : ℕ) (d : ℤ) : Memory :=
  { m with numTasks := Function.update m.numTasks a (m.numTasks a + d) }

theorem slots_modify_self (m : Memory) (p : ℕ) (f : Slot → Slot) :
    (m.modify p f).slots p = f (m.slots p) :=
  Function.update_self ..

theorem slots_modify_of_ne (m : Memory) {p q : ℕ} (f : Slot → Slot) (h : q ≠ p) :
    (m.modify p f).slots q = m.slots q :=
  Function.update_of_ne h ..

/-- What a change keeps in one slot it keeps in all. -/
theorem field_modify {A : Type} (field : Slot → A) (m : Memory) (p : ℕ) (f : Slot → Slot)
    (h : ∀ s, field (f s) = field s) (q : ℕ) :
    field ((m.modify p f).slots q) = field (m.slots q) := by
  rcases eq_or_ne q p with rfl | hq
  · rw [slots_modify_self, h]
  · rw [m.slots_modify_of_ne f hq]

/-- `embb_mtapi_task_pool_is_handle_valid`. -/
def isHandleValid (m : Memory) (p tag : ℕ) : Bool :=
  (m.slots p).inUse && (m.slots p).uses % uintRange == tag % uintRange

end Memory

/-- The slot of a new task, as `embb_mtapi_task_start` hands it to the plugin. -/
def Slot.start (s : Slot) (action : ℕ) (group : Option ℕ) : Slot :=
  { s with
    inUse := true
    state := .scheduled
    errorCode := .success
    action := action
    group := group
    received := false }

/-- What a slot has of the task in it. -/
def Slot.task (s : Slot) : Bool × ℕ × ℕ × Bool := (s.inUse, s.uses, s.action, s.received)

/-- `embb_mtapi_task_finalize`. -/
def Slot.finalize (s : Slot) : Slot :=
  { s with state := .error, errorCode := .success, group := none, received := false }

/-- `embb_mtapi_task_pool_deallocate`. -/
def Slot.deallocate (s : Slot) : Slot := { s with inUse := false, uses := s.uses + 1 }

def Slot.setRunning (s : Slot) : Slot := { s with state := .running }

def Slot.setErrorCode (s : Slot) (status : Status) : Slot := { s with errorCode := status }

def Slot.setCompleted (s : Slot) : Slot := { s with state := .completed, received := true }

/-- One step of a thread. -/
def exec (c : Choice) : Frame → Memory → Memory × Frame
  | .client, m =>
    match c with
    | .start p a g =>
      if (m.slots p).inUse then (m, .client)
      else (m.modify p (·.start a g), .send ⟨p, (m.slots p).uses, a⟩)
    | .wait p tag => if m.isHandleValid p tag then (m, .wait p) else (m, .client)
    | .take g =>
      match m.groupQueue g with
      | p :: rest => ({ m with groupQueue := Function.update m.groupQueue g rest }, .finalize p)
      | [] => (m, .client)
    | _ => (m, .client)
  | .send t, m => ({ m with requests := m.requests ++ [t] }, .count t)
  | .count t, m => (m.addTasks t.action 1, .running t)
  | .running t, m => (m.modify t.slot Slot.setRunning, .client)
  | .wait p, m =>
    match (m.slots p).state with
    | .scheduled | .running | .retained => (m, if c = .expired then .client else .wait p)
    | _ => (m, if (m.slots p).group.isSome then .client else .finalize p)
  | .finalize p, m => (m.modify p Slot.finalize, .deallocate p)
  | .deallocate p, m => (m.modify p Slot.deallocate, .client)
  | .receive, m =>
    match c with
    | .reply k status =>
      match m.requests[k]? with
      | some t =>
        ({ m with requests := m.requests.eraseIdx k },
          if m.isHandleValid t.slot t.use then .result t.slot (m.slots t.slot).action status
          else .receive)
      | none => (m, .receive)
    | _ => (m, .receive)
  | .result p a status, m => (m.modify p (·.setErrorCode status), .completed p a)
  | .completed p a, m => (m.modify p Slot.setCompleted, .decrement p a)
  | .decrement p a, m => (m.addTasks a (-1), .push p)
  | .push p, m =>
    match (m.slots p).group with
    | some g =>
      ({ m with groupQueue := Function.update m.groupQueue g (m.groupQueue g ++ [p]) }, .receive)
    | none => (m, .receive)

def code : Code Memory Frame Choice := fun _ c f m => ((exec c f m).1, [(exec c f m).2])

/-- A thread that receives, and threads of the application. -/
def boot (uses : ℕ → ℕ) (clients : ℕ) : State Memory Frame where
  mem := ⟨fun p => ⟨false, uses p, .error, .success, 0, none, false⟩, fun _ => 0, fun _ => [], []⟩
  callStacks := [.receive] :: List.replicate clients [.client]

/-- The thread is in `network_task_start`, behind the sending, for the task in a slot. -/
def Frame.startsAt (p : ℕ) : Frame → Bool
  | .count t | .running t => t.slot = p
  | _ => false

/-- The steps that come in the order that the plugin relies on: a task is completed once
`network_task_start` has left it, and a slot is given back while the task in it is completed. -/
def InOrder : Guard Memory Frame Choice := fun _ _ f m fs =>
  match f with
  | .completed p _ => ∀ g ∈ fs, g.startsAt p = false
  | .finalize p => (m.slots p).received = true
  | _ => True

instance (t : ℕ) (c : Choice) (f : Frame) (m : Memory) (fs : Multiset Frame) :
    Decidable (InOrder t c f m fs) :=
  match f with
  | .completed p _ => inferInstanceAs (Decidable (∀ g ∈ fs, g.startsAt p = false))
  | .finalize p => inferInstanceAs (Decidable ((m.slots p).received = true))
  | .client | .send _ | .count _ | .running _ | .wait _ | .deallocate _ | .receive
  | .result _ _ _ | .decrement _ _ | .push _ => isTrue trivial

/-- A result that has been received stays, `network_task_start` has its own task before it, and no
counter is negative. -/
structure Kept (m : Memory) (fs : Multiset Frame) : Prop where
  completed : ∀ p, (m.slots p).received = true → (m.slots p).state = .completed
  own : ∀ t, .running t ∈ fs → (m.slots t.slot).inUse = true ∧ (m.slots t.slot).uses = t.use
  numTasks : ∀ a, 0 ≤ m.numTasks a

namespace Frame

/-- A task that is about to be sent. -/
def sends (p : ℕ) : Frame → ℕ
  | .send t => if t.slot = p then 1 else 0
  | _ => 0

/-- A slot that is about to be given back. -/
def deletes (p : ℕ) : Frame → ℕ
  | .deallocate q => if q = p then 1 else 0
  | _ => 0

/-- A task that has been sent, and that `network_task_start` has not left. -/
def starting : Frame → List (ℕ × ℕ)
  | .count t | .running t => [(t.slot, t.action)]
  | _ => []

/-- A task whose result is at hand, and that is not completed. -/
def awaited : Frame → List (ℕ × ℕ)
  | .result p a _ | .completed p a => [(p, a)]
  | _ => []

/-- A task that is not yet counted. -/
def counting (a : ℕ) : Frame → ℕ
  | .count t => if t.action = a then 1 else 0
  | _ => 0

/-- A task that is completed and still counted. -/
def decrementing (a : ℕ) : Frame → ℕ
  | .decrement _ b => if b = a then 1 else 0
  | _ => 0

/-- The task that `network_task_start` is at. -/
def task : Frame → Option Task
  | .send t | .count t | .running t => some t
  | _ => none

end Frame

/-- The tasks that have been sent and are not completed, each as its slot and its action. -/
def awaited (m : Memory) (fs : Multiset Frame) : Multiset (ℕ × ℕ) :=
  (m.requests.map fun t => (t.slot, t.action) : List (ℕ × ℕ)) + gather Frame.awaited fs

/-- Each slot is in one phase: free, about to be sent, awaited, completed, or about to be given
back. `network_task_start` is behind the sending only for tasks that are awaited, and a counter
counts the tasks of its action from there to their completion. -/
structure Inv (m : Memory) (fs : Multiset Frame) : Prop where
  completed : ∀ p, (m.slots p).received = true → (m.slots p).state = .completed
  phase : ∀ p, (fs.map (Frame.sends p)).sum + (awaited m fs).countP (·.1 = p) +
    (fs.map (Frame.deletes p)).sum + (if (m.slots p).received then 1 else 0) +
    (if (m.slots p).inUse then 0 else 1) = 1
  starting_le : gather Frame.starting fs ≤ awaited m fs
  counts : ∀ a, m.numTasks a + ((fs.map (Frame.counting a)).sum : ℕ) =
    ((awaited m fs).countP (·.2 = a) : ℕ) + ((fs.map (Frame.decrementing a)).sum : ℕ)
  own : ∀ f ∈ fs, ∀ t, f.task = some t →
    (m.slots t.slot).uses = t.use ∧ (m.slots t.slot).action = t.action
  requests : ∀ t ∈ m.requests,
    (m.slots t.slot).uses = t.use ∧ (m.slots t.slot).action = t.action

theorem awaited_cons (m : Memory) (f : Frame) (others : Multiset Frame) :
    awaited m (f ::ₘ others) = f.awaited + awaited m others := by
  rw [awaited, awaited, gather_cons, add_left_comm]

theorem starting_of_task {f : Frame} {t : Task} (h : f.task = some t) (hs : f.sends t.slot = 0) :
    f.starting = [(t.slot, t.action)] := by
  cases f with
  | send =>
    cases h
    simp [Frame.sends] at hs
  | count | running =>
    cases h
    rfl
  | _ => cases h

theorem countP_single (P : ℕ × ℕ → Prop) [DecidablePred P] (x : ℕ × ℕ) :
    (([x] : List (ℕ × ℕ)) : Multiset (ℕ × ℕ)).countP P = if P x then 1 else 0 := by
  rw [Multiset.coe_countP, List.countP_singleton]
  simp

theorem counting_le (a : ℕ) (fs : Multiset Frame) :
    (fs.map (Frame.counting a)).sum ≤ (gather Frame.starting fs).countP (·.2 = a) := by
  induction fs using Multiset.induction_on with
  | empty => simp [gather]
  | cons f fs ih =>
    have hf : f.counting a ≤ (f.starting : Multiset (ℕ × ℕ)).countP (·.2 = a) := by
      cases f with
      | count t =>
        simp only [Frame.counting, Frame.starting]
        exact (countP_single (fun x => x.2 = a) (t.slot, t.action)).ge
      | _ => exact Nat.zero_le _
    rw [sum_map_cons, gather_cons, Multiset.countP_add]
    exact Nat.add_le_add hf ih

namespace Inv

variable {m m' : Memory} {f f' : Frame} {fs others : Multiset Frame} {t : Task} {p a : ℕ}

/-- A task that `network_task_start` is at has its slot, and its result has not been received. -/
theorem of_starting (h : Inv m fs) (hs : (p, a) ∈ gather Frame.starting fs) :
    (m.slots p).inUse = true ∧ (m.slots p).received = false := by
  have hphase := h.phase p
  have hpos : 0 < (awaited m fs).countP (·.1 = p) :=
    Multiset.countP_pos.mpr ⟨(p, a), Multiset.mem_of_le h.starting_le hs, rfl⟩
  constructor
  · by_contra hu
    rw [if_neg hu] at hphase
    omega
  · by_contra hr
    rw [if_pos (Bool.eq_true_of_not_eq_false hr)] at hphase
    omega

theorem kept (h : Inv m fs) : Kept m fs := by
  refine ⟨h.completed, fun t ht => ⟨?_, (h.own _ ht t rfl).1⟩, fun a => ?_⟩
  · exact (h.of_starting (mem_gather.mpr ⟨_, ht, List.mem_singleton.mpr rfl⟩)).1
  · have hcounts := h.counts a
    have hle := (counting_le a fs).trans (Multiset.countP_le_of_le _ h.starting_le)
    omega

/-- The phase of a slot, with what the executed thread contributes to it on its own. -/
theorem phase_cons (h : Inv m (f ::ₘ others)) (p : ℕ) :
    f.sends p + (others.map (Frame.sends p)).sum +
      ((f.awaited : Multiset (ℕ × ℕ)).countP (·.1 = p) + (awaited m others).countP (·.1 = p)) +
      (f.deletes p + (others.map (Frame.deletes p)).sum) +
      (if (m.slots p).received then 1 else 0) + (if (m.slots p).inUse then 0 else 1) = 1 := by
  have hp := h.phase p
  rwa [sum_map_cons, sum_map_cons, awaited_cons, Multiset.countP_add] at hp

theorem counts_cons (h : Inv m (f ::ₘ others)) (a : ℕ) :
    m.numTasks a + ((f.counting a + (others.map (Frame.counting a)).sum : ℕ) : ℤ) =
      (((f.awaited : Multiset (ℕ × ℕ)).countP (·.2 = a) + (awaited m others).countP (·.2 = a) : ℕ) :
        ℤ) + ((f.decrementing a + (others.map (Frame.decrementing a)).sum : ℕ) : ℤ) := by
  have ha := h.counts a
  rwa [sum_map_cons, sum_map_cons, awaited_cons, Multiset.countP_add] at ha

theorem starting_le_cons (h : Inv m (f ::ₘ others)) :
    (f.starting : Multiset (ℕ × ℕ)) + gather Frame.starting others ≤
      (f.awaited : Multiset (ℕ × ℕ)) + awaited m others := by
  have hs := h.starting_le
  rwa [gather_cons, awaited_cons] at hs

/-- A step that leaves every task in its phase. -/
theorem move (h : Inv m (f ::ₘ others))
    (hcompleted : ∀ p, (m'.slots p).received = true → (m'.slots p).state = .completed)
    (hslots : ∀ p, (m'.slots p).task = (m.slots p).task)
    (hrequests : ∀ t ∈ m'.requests, t ∈ m.requests)
    (hawaited : awaited m' (f' ::ₘ others) = awaited m (f ::ₘ others))
    (hnum : ∀ a, m'.numTasks a + f'.counting a - f'.decrementing a =
      m.numTasks a + f.counting a - f.decrementing a)
    (hphase : ∀ p, f'.sends p = f.sends p ∧ f'.deletes p = f.deletes p)
    (hstarting : (f'.starting : Multiset (ℕ × ℕ)) ≤ f.starting)
    (htask : ∀ t, f'.task = some t → f.task = some t) : Inv m' (f' ::ₘ others) := by
  simp only [Slot.task, Prod.mk.injEq] at hslots
  refine ⟨hcompleted, fun p => ?_, ?_, fun a => ?_, fun g hg t ht => ?_, fun t ht => ?_⟩
  · rw [hawaited, (hslots p).1, (hslots p).2.2.2, sum_map_cons, sum_map_cons, (hphase p).1,
      (hphase p).2, ← sum_map_cons, ← sum_map_cons, h.phase]
  · rw [hawaited, gather_cons]
    refine le_trans (add_le_add_left hstarting _) ?_
    rw [← gather_cons]
    exact h.starting_le
  · have ha := h.counts a
    have hn := hnum a
    rw [sum_map_cons, sum_map_cons] at ha ⊢
    rw [hawaited]
    omega
  · rw [(hslots t.slot).2.1, (hslots t.slot).2.2.1]
    rcases Multiset.mem_cons.mp hg with rfl | hg
    · exact h.own f (Multiset.mem_cons_self ..) t (htask t ht)
    · exact h.own g (Multiset.mem_cons_of_mem hg) t ht
  · rw [(hslots t.slot).2.1, (hslots t.slot).2.2.1]
    exact h.requests t (hrequests t ht)

/-- `network_task_start` is at no task in a slot that is free, completed or about to be given
back. -/
theorem slot_ne (h : Inv m (f ::ₘ others)) (hp : 1 ≤ f.deletes p +
    (if (m.slots p).received then 1 else 0) + (if (m.slots p).inUse then 0 else 1))
    {g : Frame} (hg : g ∈ f ::ₘ others) (ht : g.task = some t) : t.slot ≠ p := by
  rintro rfl
  have hphase := h.phase t.slot
  rw [sum_map_cons (Frame.deletes t.slot)] at hphase
  by_cases hs : g.sends t.slot = 0
  · have hmem : (t.slot, t.action) ∈ gather Frame.starting (f ::ₘ others) :=
      mem_gather.mpr ⟨g, hg, starting_of_task ht hs ▸ List.mem_singleton.mpr rfl⟩
    have hpos : 0 < (awaited m (f ::ₘ others)).countP (·.1 = t.slot) :=
      Multiset.countP_pos.mpr ⟨_, Multiset.mem_of_le h.starting_le hmem, rfl⟩
    omega
  · obtain ⟨others', ho⟩ := Multiset.exists_cons_of_mem hg
    rw [ho, sum_map_cons] at hphase
    omega

/-- A slot that is free, completed or about to be given back has no request. -/
theorem request_ne (h : Inv m (f ::ₘ others)) (hp : 1 ≤ f.deletes p +
    (if (m.slots p).received then 1 else 0) + (if (m.slots p).inUse then 0 else 1))
    (ht : t ∈ m.requests) : t.slot ≠ p := by
  rintro rfl
  have hphase := h.phase t.slot
  rw [sum_map_cons (Frame.deletes t.slot)] at hphase
  have hmem : (t.slot, t.action) ∈ awaited m (f ::ₘ others) :=
    Multiset.mem_add.mpr (Or.inl (Multiset.mem_coe.mpr (List.mem_map.mpr ⟨t, ht, rfl⟩)))
  have hpos : 0 < (awaited m (f ::ₘ others)).countP (·.1 = t.slot) :=
    Multiset.countP_pos.mpr ⟨_, hmem, rfl⟩
  omega

/-- A step that takes one slot, with no task on its way, into another phase. -/
theorem change (h : Inv m (f ::ₘ others)) {g : Slot → Slot}
    (hp : 1 ≤ f.deletes p + (if (m.slots p).received then 1 else 0) +
      (if (m.slots p).inUse then 0 else 1))
    (hreceived : (g (m.slots p)).received = false)
    (hphase : f'.sends p + f'.deletes p + (if (g (m.slots p)).inUse then 0 else 1) =
      f.sends p + f.deletes p + (if (m.slots p).received then 1 else 0) +
        (if (m.slots p).inUse then 0 else 1))
    (hne : ∀ q, q ≠ p → f'.sends q = f.sends q ∧ f'.deletes q = f.deletes q)
    (hstarting : f'.starting = f.starting) (hawaited : f'.awaited = f.awaited)
    (hcounting : ∀ a, f'.counting a = f.counting a)
    (hdecrementing : ∀ a, f'.decrementing a = f.decrementing a)
    (htask : ∀ t, f'.task = some t → t.slot = p ∧ (g (m.slots p)).uses = t.use ∧
      (g (m.slots p)).action = t.action) :
    Inv (m.modify p g) (f' ::ₘ others) := by
  have hmem : awaited (m.modify p g) (f' ::ₘ others) = awaited m (f ::ₘ others) := by
    rw [awaited_cons, awaited_cons, hawaited]
    rfl
  refine ⟨fun q => ?_, fun q => ?_, ?_, fun a => ?_, fun f₁ hf t ht => ?_, fun t ht => ?_⟩
  · rcases eq_or_ne q p with rfl | hq
    · rw [Memory.slots_modify_self, hreceived]
      exact fun h => absurd h Bool.false_ne_true
    · rw [m.slots_modify_of_ne _ hq]
      exact h.completed q
  · have hold := h.phase q
    rw [hmem, sum_map_cons, sum_map_cons]
    rw [sum_map_cons, sum_map_cons] at hold
    rcases eq_or_ne q p with rfl | hq
    · rw [Memory.slots_modify_self, hreceived, if_neg Bool.false_ne_true]
      omega
    · rw [m.slots_modify_of_ne _ hq, (hne q hq).1, (hne q hq).2]
      exact hold
  · rw [hmem, gather_cons, hstarting, ← gather_cons]
    exact h.starting_le
  · rw [hmem, sum_map_cons, sum_map_cons, hcounting, hdecrementing, ← sum_map_cons,
      ← sum_map_cons]
    exact h.counts a
  · rcases Multiset.mem_cons.mp hf with rfl | hf
    · obtain ⟨rfl, huses⟩ := htask t ht
      rw [Memory.slots_modify_self]
      exact huses
    · have hold : f₁ ∈ f ::ₘ others := Multiset.mem_cons_of_mem hf
      rw [m.slots_modify_of_ne _ (h.slot_ne hp hold ht)]
      exact h.own f₁ hold t ht
  · have ht : t ∈ m.requests := ht
    rw [m.slots_modify_of_ne _ (h.request_ne hp ht)]
    exact h.requests t ht

theorem start (h : Inv m (.client ::ₘ others)) (hp : (m.slots p).inUse = false) (a : ℕ)
    (g : Option ℕ) :
    Inv (m.modify p (·.start a g)) (.send ⟨p, (m.slots p).uses, a⟩ ::ₘ others) := by
  have hphase := h.phase_cons p
  rw [hp, if_neg Bool.false_ne_true] at hphase
  have hr : (if (m.slots p).received then 1 else 0) = 0 := by omega
  refine h.change ?_ rfl ?_ (fun q hq => ⟨if_neg hq.symm, rfl⟩) rfl rfl (fun _ => rfl)
    (fun _ => rfl) ?_
  · rw [hp, if_neg Bool.false_ne_true]
    exact Nat.le_add_left ..
  · rw [hp, if_neg Bool.false_ne_true, hr]
    simp only [Frame.sends, Frame.deletes, Slot.start, if_true]
  · rintro t ⟨⟩
    exact ⟨rfl, rfl, rfl⟩

theorem finalize (h : Inv m (.finalize p ::ₘ others)) (hr : (m.slots p).received = true) :
    Inv (m.modify p Slot.finalize) (.deallocate p ::ₘ others) := by
  refine h.change ?_ rfl ?_ (fun q hq => ⟨rfl, if_neg hq.symm⟩) rfl rfl (fun _ => rfl)
    (fun _ => rfl) nofun
  · rw [hr, if_pos rfl, Nat.add_assoc]
    exact Nat.le_add_left_of_le (Nat.le_add_right ..)
  · have hu : (m.slots p).finalize.inUse = (m.slots p).inUse := rfl
    rw [hu, hr]
    simp only [Frame.sends, Frame.deletes, if_true, zero_add]

theorem deallocate (h : Inv m (.deallocate p ::ₘ others)) :
    Inv (m.modify p Slot.deallocate) (.client ::ₘ others) := by
  have hphase := h.phase_cons p
  simp only [Frame.sends, Frame.deletes, if_true] at hphase
  have hr : (m.slots p).received = false := by
    by_contra hr
    rw [Bool.eq_true_of_not_eq_false hr, if_pos rfl] at hphase
    omega
  refine h.change ?_ hr ?_ (fun q hq => ⟨rfl, (if_neg hq.symm).symm⟩) rfl rfl (fun _ => rfl)
    (fun _ => rfl) nofun
  · simp only [Frame.deletes, if_true]
    omega
  · rw [hr] at hphase ⊢
    simp only [Frame.sends, Frame.deletes, Slot.deallocate, if_true, Bool.false_eq_true,
      if_false] at hphase ⊢
    omega

theorem send (h : Inv m (.send t ::ₘ others)) :
    Inv { m with requests := m.requests ++ [t] } (.count t ::ₘ others) := by
  have hmem : awaited { m with requests := m.requests ++ [t] } (.count t ::ₘ others) =
      (t.slot, t.action) ::ₘ awaited m others := by
    have hf : (Frame.count t).awaited = [] := rfl
    rw [awaited_cons, hf, Multiset.coe_nil, zero_add, awaited, awaited, List.map_append,
      List.map_singleton, ← Multiset.coe_add, Multiset.coe_singleton, add_right_comm,
      Multiset.add_comm _ {_}, Multiset.singleton_add]
  have hle : gather Frame.starting others ≤ awaited m others := by
    simpa only [Frame.starting, Frame.awaited, Multiset.coe_nil, zero_add]
      using h.starting_le_cons
  have hown := h.own _ (Multiset.mem_cons_self ..) t rfl
  refine ⟨h.completed, fun p => ?_, ?_, fun a => ?_, fun f hf t' ht => ?_, fun t' ht => ?_⟩
  · have hp := h.phase_cons p
    rw [hmem, sum_map_cons, sum_map_cons, Multiset.countP_cons]
    simp only [Frame.sends, Frame.awaited, Frame.deletes, Multiset.coe_nil,
      Multiset.countP_zero] at hp ⊢
    omega
  · rw [hmem, gather_cons]
    exact Multiset.cons_le_cons _ hle
  · have ha := h.counts_cons a
    rw [hmem, sum_map_cons, sum_map_cons, Multiset.countP_cons]
    simp only [Frame.counting, Frame.awaited, Frame.decrementing, Multiset.coe_nil,
      Multiset.countP_zero] at ha ⊢
    split <;> omega
  · rcases Multiset.mem_cons.mp hf with rfl | hf
    · cases ht
      exact hown
    · exact h.own f (Multiset.mem_cons_of_mem hf) t' ht
  · rcases List.mem_append.mp ht with ht | ht
    · exact h.requests t' ht
    · rw [List.mem_singleton.mp ht]
      exact hown

/-- A task that is completed is not awaited any more; `network_task_start` has left it. -/
theorem complete (h : Inv m (.completed p a ::ₘ others))
    (hguard : ∀ g ∈ Frame.completed p a ::ₘ others, g.startsAt p = false) :
    Inv (m.modify p Slot.setCompleted) (.decrement p a ::ₘ others) := by
  have hmem : awaited m (.completed p a ::ₘ others) =
      (p, a) ::ₘ awaited (m.modify p Slot.setCompleted) (.decrement p a ::ₘ others) := by
    have hf : (Frame.decrement p a).awaited = [] := rfl
    rw [awaited_cons, awaited_cons, hf, Frame.awaited, Multiset.coe_nil, zero_add,
      Multiset.coe_singleton, Multiset.singleton_add]
    rfl
  have hno : (p, a) ∉ gather Frame.starting (.completed p a ::ₘ others) := by
    intro hin
    obtain ⟨g, hg, hs⟩ := mem_gather.mp hin
    have hat := hguard g hg
    cases g with
    | count t | running t =>
      cases List.mem_singleton.mp hs
      exact absurd hat (Bool.not_eq_false _ ▸ decide_eq_true rfl)
    | _ => cases hs
  have huses := Memory.field_modify Slot.uses m p Slot.setCompleted fun _ => rfl
  have haction := Memory.field_modify Slot.action m p Slot.setCompleted fun _ => rfl
  refine ⟨fun q => ?_, fun q => ?_, ?_, fun b => ?_, fun f hf t ht => ?_, fun t ht => ?_⟩
  · rcases eq_or_ne q p with rfl | hq
    · rw [Memory.slots_modify_self]
      exact fun _ => rfl
    · rw [m.slots_modify_of_ne _ hq]
      exact h.completed q
  · have hold := h.phase q
    rw [hmem, sum_map_cons, sum_map_cons, Multiset.countP_cons] at hold
    rw [sum_map_cons, sum_map_cons]
    simp only [Frame.sends, Frame.deletes] at hold ⊢
    rcases eq_or_ne q p with rfl | hq
    · have hr : (m.slots q).setCompleted.received = true := rfl
      have hu : (m.slots q).setCompleted.inUse = (m.slots q).inUse := rfl
      rw [Memory.slots_modify_self, hr, hu]
      simp only [if_true] at hold ⊢
      omega
    · rw [m.slots_modify_of_ne _ hq]
      rw [if_neg hq.symm] at hold
      exact hold
  · have hle := (Multiset.le_cons_of_notMem hno).mp (hmem ▸ h.starting_le)
    rwa [gather_cons] at hle ⊢
  · have hb := h.counts b
    rw [hmem, sum_map_cons, sum_map_cons, Multiset.countP_cons] at hb
    rw [sum_map_cons, sum_map_cons]
    have hnum : (m.modify p Slot.setCompleted).numTasks b = m.numTasks b := rfl
    simp only [Frame.counting, Frame.decrementing] at hb ⊢
    rcases eq_or_ne a b with rfl | hab
    · simp only [if_true] at hb ⊢
      omega
    · rw [if_neg hab] at hb ⊢
      omega
  · rcases Multiset.mem_cons.mp hf with rfl | hf
    · cases ht
    · rw [huses, haction]
      exact h.own f (Multiset.mem_cons_of_mem hf) t ht
  · rw [huses, haction]
    exact h.requests t ht

/-- A step that changes no slot in what the invariant says of it, and sends and receives
nothing. -/
theorem keep (h : Inv m (f ::ₘ others)) (hslots : m'.slots = m.slots)
    (hrequests : m'.requests = m.requests) (hawaited : f'.awaited = f.awaited)
    (hnum : ∀ a, m'.numTasks a + f'.counting a - f'.decrementing a =
      m.numTasks a + f.counting a - f.decrementing a)
    (hphase : ∀ p, f'.sends p = f.sends p ∧ f'.deletes p = f.deletes p)
    (hstarting : f'.starting = f.starting)
    (htask : ∀ t, f'.task = some t → f.task = some t) : Inv m' (f' ::ₘ others) := by
  refine h.move (hslots ▸ h.completed) (fun p => hslots ▸ rfl)
    (fun t ht => hrequests ▸ ht) ?_ hnum hphase (hstarting ▸ le_refl _) htask
  rw [awaited_cons, awaited_cons, hawaited, awaited, awaited, hrequests]

theorem count (h : Inv m (.count t ::ₘ others)) :
    Inv (m.addTasks t.action 1) (.running t ::ₘ others) := by
  refine h.keep rfl rfl rfl (fun a => ?_) (fun _ => ⟨rfl, rfl⟩) rfl (fun _ ht => ht)
  simp only [Frame.counting, Frame.decrementing, Memory.addTasks]
  rcases eq_or_ne t.action a with rfl | ha
  · rw [Function.update_self, if_pos rfl]
    omega
  · rw [Function.update_of_ne ha.symm, if_neg ha]

theorem decrement (h : Inv m (.decrement p a ::ₘ others)) :
    Inv (m.addTasks a (-1)) (.push p ::ₘ others) := by
  refine h.keep rfl rfl rfl (fun b => ?_) (fun _ => ⟨rfl, rfl⟩) rfl nofun
  simp only [Frame.counting, Frame.decrementing, Memory.addTasks]
  rcases eq_or_ne a b with rfl | hb
  · rw [Function.update_self, if_pos rfl]
    omega
  · rw [Function.update_of_ne hb.symm, if_neg hb]

theorem run (h : Inv m (.running t ::ₘ others)) :
    Inv (m.modify t.slot Slot.setRunning) (.client ::ₘ others) := by
  have hr := (h.of_starting (mem_gather.mpr
    ⟨_, Multiset.mem_cons_self .., List.mem_singleton.mpr rfl⟩)).2
  refine h.move (fun q => ?_) (Memory.field_modify _ m _ _ fun _ => rfl)
    (fun t ht => ht) ?_ (fun _ => rfl) (fun _ => ⟨rfl, rfl⟩) (Multiset.zero_le _) nofun
  · rcases eq_or_ne q t.slot with rfl | hq
    · rw [Memory.slots_modify_self]
      exact fun hc => absurd (hr.symm.trans hc) Bool.false_ne_true
    · rw [m.slots_modify_of_ne _ hq]
      exact h.completed q
  · rw [awaited_cons, awaited_cons]
    rfl

theorem result {status : Status} (h : Inv m (.result p a status ::ₘ others)) :
    Inv (m.modify p (·.setErrorCode status)) (.completed p a ::ₘ others) := by
  refine h.move (fun q => ?_) (Memory.field_modify _ m _ _ fun _ => rfl)
    (fun t ht => ht) ?_ (fun _ => rfl) (fun _ => ⟨rfl, rfl⟩) (le_refl _) nofun
  · rcases eq_or_ne q p with rfl | hq
    · rw [Memory.slots_modify_self]
      exact h.completed q
    · rw [m.slots_modify_of_ne _ hq]
      exact h.completed q
  · rw [awaited_cons, awaited_cons]
    rfl

/-- The result of a task that is awaited finds its slot. -/
theorem reply (h : Inv m (.receive ::ₘ others)) {k : ℕ} (ht : m.requests[k]? = some t)
    (status : Status) :
    m.isHandleValid t.slot t.use = true ∧
      Inv { m with requests := m.requests.eraseIdx k }
        (.result t.slot (m.slots t.slot).action status ::ₘ others) := by
  have hmem := List.mem_of_getElem? ht
  obtain ⟨huses, haction⟩ := h.requests t hmem
  have hu : (m.slots t.slot).inUse = true := by
    by_contra hu
    rw [Bool.not_eq_true] at hu
    refine h.request_ne ?_ hmem rfl
    rw [hu]
    exact Nat.le_add_left ..
  constructor
  · rw [Memory.isHandleValid, hu, huses, beq_self_eq_true, Bool.and_self]
  · refine h.move h.completed (fun _ => rfl) (fun t ht => ?_) ?_ (fun _ => rfl)
      (fun _ => ⟨rfl, rfl⟩) (le_refl _) nofun
    · exact List.mem_of_mem_eraseIdx ht
    · have hperm : (m.requests.map fun t => (t.slot, t.action)).Perm
          ((t.slot, t.action) :: (m.requests.eraseIdx k).map fun t => (t.slot, t.action)) := by
        obtain ⟨hk, rfl⟩ := List.getElem?_eq_some_iff.mp ht
        exact (List.getElem_cons_eraseIdx_perm hk).symm.map _
      have hcoe := Multiset.coe_eq_coe.mpr hperm
      rw [← Multiset.cons_coe] at hcoe
      rw [awaited_cons, awaited_cons, haction, awaited, awaited, hcoe, Frame.awaited,
        Multiset.coe_singleton, Multiset.cons_add, Multiset.singleton_add]
      exact (zero_add _).symm

end Inv

theorem exec_wait (c : Choice) (p : ℕ) (m : Memory) :
    ∃ f', (f' = .client ∨ f' = .wait p ∨ f' = .finalize p) ∧ exec c (.wait p) m = (m, f') := by
  have hloop : ∃ f', (f' = .client ∨ f' = .wait p ∨ f' = .finalize p) ∧
      (m, if c = .expired then Frame.client else .wait p) = (m, f') := by
    refine ⟨_, ?_, rfl⟩
    split
    · exact Or.inl rfl
    · exact Or.inr (Or.inl rfl)
  rw [exec]
  split
  · exact hloop
  · exact hloop
  · exact hloop
  · refine ⟨_, ?_, rfl⟩
    split
    · exact Or.inl rfl
    · exact Or.inr (Or.inr rfl)

theorem code_preserves : Preserves code InOrder Inv := by
  intro t c f m others h hg
  cases f with
  | client =>
    cases c with
    | start p a g =>
      rw [code, exec]
      split
      · exact h
      · next hp => exact h.start (Bool.eq_false_iff.mpr hp) a g
    | wait p tag =>
      rw [code, exec]
      split
      · exact h.keep rfl rfl rfl (fun _ => rfl) (fun _ => ⟨rfl, rfl⟩) rfl nofun
      · exact h
    | take g =>
      rw [code, exec]
      split
      · exact h.keep rfl rfl rfl (fun _ => rfl) (fun _ => ⟨rfl, rfl⟩) rfl nofun
      · exact h
    | go | expired | reply => exact h
  | send t => exact h.send
  | count t => exact h.count
  | running t => exact h.run
  | wait p =>
    obtain ⟨f', hf, hm⟩ := exec_wait c p m
    rw [code, hm]
    rcases hf with rfl | rfl | rfl <;>
      exact h.keep rfl rfl rfl (fun _ => rfl) (fun _ => ⟨rfl, rfl⟩) rfl nofun
  | finalize p => exact h.finalize hg
  | deallocate p => exact h.deallocate
  | receive =>
    cases c with
    | reply k status =>
      rw [code, exec]
      split
      · next t ht =>
        obtain ⟨hvalid, hinv⟩ := h.reply ht status
        rw [if_pos hvalid]
        exact hinv
      · exact h
    | _ => exact h
  | result p a status => exact h.result
  | completed p a => exact h.complete hg
  | decrement p a => exact h.decrement
  | push p =>
    rw [code, exec]
    split
    · exact h.keep rfl rfl rfl (fun _ => rfl) (fun _ => ⟨rfl, rfl⟩) rfl nofun
    · exact h.keep rfl rfl rfl (fun _ => rfl) (fun _ => ⟨rfl, rfl⟩) rfl nofun

theorem inv_boot (uses : ℕ → ℕ) (clients : ℕ) :
    Inv (boot uses clients).mem (boot uses clients).frames := by
  have hf : (boot uses clients).frames = .receive ::ₘ Multiset.replicate clients .client :=
    State.frames_boot ..
  have hsum : ∀ w : Frame → ℕ, w .receive = 0 → w .client = 0 →
      ((boot uses clients).frames.map w).sum = 0 := by
    intro w hr hc
    rw [hf, sum_map_cons, Multiset.map_replicate, Multiset.sum_replicate, hr, hc,
      nsmul_zero, zero_add]
  have hgather : ∀ w : Frame → List (ℕ × ℕ), w .receive = [] → w .client = [] →
      gather w (boot uses clients).frames = 0 := by
    intro w hr hc
    rw [gather, hf, sum_map_cons, Multiset.map_replicate, Multiset.sum_replicate, hr, hc,
      Multiset.coe_nil, nsmul_zero, zero_add]
  have hawaited : awaited (boot uses clients).mem (boot uses clients).frames = 0 := by
    rw [awaited, hgather _ rfl rfl, add_zero]
    rfl
  refine ⟨fun p h => absurd h Bool.false_ne_true, fun p => ?_, ?_, fun a => ?_,
    fun f hmem t ht => ?_, fun t ht => absurd ht List.not_mem_nil⟩
  · rw [hawaited, hsum _ rfl rfl, hsum _ rfl rfl]
    rfl
  · rw [hgather _ rfl rfl]
    exact Multiset.zero_le _
  · rw [hawaited, hsum _ rfl rfl, hsum _ rfl rfl]
    rfl
  · rw [hf] at hmem
    rcases Multiset.mem_cons.mp hmem with rfl | hmem
    · cases ht
    · rw [Multiset.eq_of_mem_replicate hmem] at ht
      cases ht

/-- In a run whose steps come in order, a task that has been completed stays completed until its
slot is given back, `network_task_start` is at its own task, and no counter is negative. -/
theorem completion_kept (uses : ℕ → ℕ) (clients : ℕ) (es : List (ℕ × Choice))
    (h : Always code InOrder (boot uses clients) es) :
    Kept (run code (boot uses clients) es).mem (run code (boot uses clients) es).frames :=
  (code_preserves.run h (inv_boot uses clients)).kept

/-- A task that is started, sent, answered and waited for. -/
theorem completion_kept_wait :
    (run code (boot (fun _ => 0) 1) [(1, .start 0 0 none), (1, .go), (1, .go), (1, .go),
      (0, .reply 0 .success), (0, .go), (0, .go), (1, .wait 0 0), (1, .go), (0, .go)]).callStacks =
        [[.push 0], [.finalize 0]] ∧
    Kept (run code (boot (fun _ => 0) 1) [(1, .start 0 0 none), (1, .go), (1, .go), (1, .go),
      (0, .reply 0 .success), (0, .go), (0, .go), (1, .wait 0 0), (1, .go), (0, .go)]).mem
      (run code (boot (fun _ => 0) 1) [(1, .start 0 0 none), (1, .go), (1, .go), (1, .go),
        (0, .reply 0 .success), (0, .go), (0, .go), (1, .wait 0 0), (1, .go), (0, .go)]).frames :=
  ⟨by decide, completion_kept (fun _ => 0) 1 _ (by decide)⟩

/-- The result is received before `network_task_start` has counted the task and marked it as
running: the counter falls below zero, and the task that is completed is left as running. -/
theorem completion_lost :
    ((run code (boot (fun _ => 0) 1) [(1, .start 0 0 none), (1, .go), (0, .reply 0 .success),
      (0, .go), (0, .go), (0, .go)]).mem.numTasks 0 = -1) ∧
    ((run code (boot (fun _ => 0) 1) [(1, .start 0 0 none), (1, .go), (0, .reply 0 .success),
      (0, .go), (0, .go), (0, .go), (1, .go), (1, .go)]).mem.slots 0).received = true ∧
    ((run code (boot (fun _ => 0) 1) [(1, .start 0 0 none), (1, .go), (0, .reply 0 .success),
      (0, .go), (0, .go), (0, .go), (1, .go), (1, .go)]).mem.slots 0).state = .running := by
  decide

end Embb.MtapiNetwork.RemoteTask
