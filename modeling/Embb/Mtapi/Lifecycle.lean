import Embb.Lib.Threads
import Embb.Mtapi.Types

/-!
# Initialization and finalization of a node

`mtapi_initialize` and `mtapi_finalize` on the main thread, and the workers from the creation of
their threads to their end. The main thread starts the workers one after the other and waits for
each of them; a worker that has come up waits for the node. Threads that cannot be created and
allocations that fail are choices of the environment.
-/

namespace Embb.Mtapi.Lifecycle

open Threads

/-- What the workers and the main thread share: the node and its contexts, while they are
allocated, and the threads that have been created and have not ended. -/
structure Memory where
  node : Bool
  isSchedulerRunning : Bool
  contexts : Bool
  run : ℕ → ℤ
  alive : ℕ → Bool
  returned : List Status

/-- Why the scheduler is finalized; a worker could not be started. -/
inductive Reason where
  | finalize
  | failed (worker : ℕ)
  deriving DecidableEq

/-- What the calls return that have finalized the scheduler. -/
def Reason.status : Reason → Status
  | .finalize => .success
  | .failed _ => .errNodeInitfailed

inductive Main where
  | client
  | nodeAllocate
  | schedulerAllocate
  | contextInit (ii : ℕ)
  | create (ii : ℕ)
  | waitUp (ii : ℕ)
  | checkUp (ii : ℕ)
  | publish
  | stop (reason : Reason) (ii : ℕ)
  | stopStore (reason : Reason) (ii : ℕ)
  | join (reason : Reason) (ii : ℕ)
  | freeContexts (reason : Reason)
  | freeNode (reason : Reason)
  deriving DecidableEq

inductive Worker where
  | absent
  | tssCreate
  | report
  | signal
  | waitNode
  | loop
  | work
  | leave
  deriving DecidableEq

inductive Frame where
  | main (f : Main)
  | worker (f : Worker)
  deriving DecidableEq

/-- What the client calls, and whether the operating system does what it is asked for. -/
inductive Choice where
  | initializeNode
  | finalize
  | succeeds
  | fails
  deriving DecidableEq

def Memory.answer (m : Memory) (status : Status) : Memory :=
  { m with returned := m.returned ++ [status] }

def Memory.setRun (m : Memory) (ii : ℕ) (value : ℤ) : Memory :=
  { m with run := Function.update m.run ii value }

def Memory.setAlive (m : Memory) (ii : ℕ) (alive : Bool) : Memory :=
  { m with alive := Function.update m.alive ii alive }

/-- One step of the main thread of a node with `workerCount` cores. -/
def execMain (workerCount : ℕ) (choice : Choice) (m : Memory) : Main → Memory × Main
  | .client =>
    match choice with
    | .initializeNode =>
      if m.node then (m.answer .errNodeInitialized, .client) else (m, .nodeAllocate)
    | .finalize =>
      if m.node then (m, .stop .finalize 0) else (m.answer .errNodeNotinit, .client)
    | _ => (m, .client)
  | .nodeAllocate =>
    if choice = .fails then (m.answer .errUnknown, .client)
    else ({ m with node := true, isSchedulerRunning := false }, .schedulerAllocate)
  | .schedulerAllocate =>
    if choice = .fails then (m, .freeNode (.failed 0))
    else ({ m with contexts := true }, .contextInit 0)
  | .contextInit ii =>
    if ii < workerCount then (m.setRun ii 0, .contextInit (ii + 1)) else (m, .create 0)
  | .create ii =>
    if ii < workerCount then
      if choice = .fails then (m, .stop (.failed ii) 0) else (m.setAlive ii true, .waitUp ii)
    else (m, .publish)
  | .waitUp ii => if m.run ii = 0 then (m, .waitUp ii) else (m, .checkUp ii)
  | .checkUp ii => if 0 < m.run ii then (m, .create (ii + 1)) else (m, .stop (.failed ii) 0)
  | .publish => ({ m with isSchedulerRunning := true }.answer .success, .client)
  | .stop reason ii =>
    if ii < workerCount then
      if 0 < m.run ii then (m, .stopStore reason ii) else (m, .stop reason (ii + 1))
    else (m, .freeContexts reason)
  | .stopStore reason ii => (m.setRun ii 0, .join reason ii)
  | .join reason ii => if m.alive ii then (m, .join reason ii) else (m, .stop reason (ii + 1))
  | .freeContexts reason => ({ m with contexts := false }, .freeNode reason)
  | .freeNode reason => ({ m with node := false }.answer reason.status, .client)

/-- One step of a worker; a thread that has been created begins at some time. What a worker does
for its tasks is one step here. -/
def execWorker (choice : Choice) (i : ℕ) (m : Memory) : Worker → Memory × Worker
  | .absent => if m.alive i then (m, .tssCreate) else (m, .absent)
  | .tssCreate => if choice = .fails then (m, .report) else (m, .signal)
  | .report => ((m.setRun i (-1)).setAlive i false, .absent)
  | .signal => (m.setRun i 1, .waitNode)
  | .waitNode => if m.isSchedulerRunning then (m, .loop) else (m, .waitNode)
  | .loop => if m.run i = 0 then (m, .leave) else (m, .work)
  | .work => (m, .loop)
  | .leave => (m.setAlive i false, .absent)

def exec (workerCount t : ℕ) (choice : Choice) (f : Frame) (m : Memory) : Memory × Frame :=
  match f with
  | .main f => ((execMain workerCount choice m f).1, .main (execMain workerCount choice m f).2)
  | .worker f =>
    ((execWorker choice (t - 1) m f).1, .worker (execWorker choice (t - 1) m f).2)

def code (workerCount : ℕ) : Code Memory Frame Choice := fun t choice f m =>
  ((exec workerCount t choice f m).1, [(exec workerCount t choice f m).2])

/-- The main thread, before the first call, and the threads that the workers can have. -/
def boot (workerCount : ℕ) : State Memory Frame where
  mem := ⟨false, false, false, fun _ => 0, fun _ => false, []⟩
  callStacks := [.main .client] :: List.replicate workerCount [.worker .absent]

/-! ## What the main thread relies on -/

/-- What may be said of a worker while the main thread is at some point. -/
inductive Mode where
  | quiet
  | fresh
  | down
  | starting
  | decided
  | up
  | busy
  | stopping
  | stuck

/-- The worker has no thread, or it has one with its flag and its program point as the mode
says. -/
def Mode.Holds (run : ℤ) (alive : Bool) (w : Worker) : Mode → Prop
  | .quiet => alive = false ∧ w = .absent
  | .fresh => alive = false ∧ w = .absent ∧ run = 0
  | .down => alive = false ∧ w = .absent ∧ run ≤ 0
  | .starting =>
    (run = 0 ∧ alive = true ∧ (w = .absent ∨ w = .tssCreate ∨ w = .report ∨ w = .signal)) ∨
      (run = 1 ∧ alive = true ∧ w = .waitNode) ∨ (run = -1 ∧ alive = false ∧ w = .absent)
  | .decided =>
    (run = 1 ∧ alive = true ∧ w = .waitNode) ∨ (run = -1 ∧ alive = false ∧ w = .absent)
  | .up => run = 1 ∧ alive = true ∧ w = .waitNode
  | .busy => run = 1 ∧ alive = true ∧ (w = .waitNode ∨ w = .loop ∨ w = .work)
  | .stopping => run = 0 ∧ ((alive = false ∧ w = .absent) ∨
      (alive = true ∧ (w = .waitNode ∨ w = .loop ∨ w = .work ∨ w = .leave)))
  | .stuck => run = 0 ∧ alive = true ∧ w = .waitNode

/-- The modes in which the worker waits for the node. -/
def Mode.waits : Mode → Bool
  | .starting | .decided | .up | .stuck => true
  | _ => false

/-- The mode of worker `j` while the main thread is at some point. -/
def mode (node : Bool) (j : ℕ) : Main → Mode
  | .client => if node then .busy else .quiet
  | .nodeAllocate | .schedulerAllocate | .freeContexts _ | .freeNode _ => .quiet
  | .contextInit ii => if j < ii then .fresh else .quiet
  | .create ii => if j < ii then .up else .fresh
  | .waitUp ii => if j < ii then .up else if j = ii then .starting else .fresh
  | .checkUp ii => if j < ii then .up else if j = ii then .decided else .fresh
  | .publish => .up
  | .stop .finalize ii | .stopStore .finalize ii => if j < ii then .quiet else .busy
  | .join .finalize ii => if j < ii then .quiet else if j = ii then .stopping else .busy
  | .stop (.failed k) _ | .stopStore (.failed k) _ => if j < k then .up else .down
  | .join (.failed k) _ => if j = 0 then .stuck else if j < k then .up else .down

/-- What is allocated, and whether the scheduler runs. -/
def Allocated (workerCount : ℕ) (m : Memory) : Main → Prop
  | .client => m.contexts = m.node ∧ (m.node = true → m.isSchedulerRunning = true)
  | .nodeAllocate => m.node = false ∧ m.contexts = false
  | .schedulerAllocate => m.node = true ∧ m.contexts = false ∧ m.isSchedulerRunning = false
  | .contextInit ii | .create ii =>
    m.node = true ∧ m.contexts = true ∧ m.isSchedulerRunning = false ∧ ii ≤ workerCount
  | .waitUp ii | .checkUp ii =>
    m.node = true ∧ m.contexts = true ∧ m.isSchedulerRunning = false ∧ ii < workerCount
  | .publish => m.node = true ∧ m.contexts = true ∧ m.isSchedulerRunning = false
  | .stop .finalize _ => m.node = true ∧ m.contexts = true ∧ m.isSchedulerRunning = true
  | .stopStore .finalize ii | .join .finalize ii =>
    m.node = true ∧ m.contexts = true ∧ m.isSchedulerRunning = true ∧ ii < workerCount
  | .stop (.failed k) ii =>
    m.node = true ∧ m.contexts = true ∧ m.isSchedulerRunning = false ∧ k < workerCount ∧
      (0 < k → ii = 0)
  | .stopStore (.failed k) ii | .join (.failed k) ii =>
    m.node = true ∧ m.contexts = true ∧ m.isSchedulerRunning = false ∧ k < workerCount ∧
      0 < k ∧ ii = 0
  | .freeContexts reason =>
    m.node = true ∧ m.contexts = true ∧ ∀ k, reason = .failed k → k = 0
  | .freeNode reason => m.node = true ∧ m.contexts = false ∧ ∀ k, reason = .failed k → k = 0

/-- What the main thread relies on, for all workers. -/
structure Inv (workerCount : ℕ) (m : Memory) (pc : ℕ → Frame) (f : Main) : Prop where
  main : pc 0 = .main f
  allocated : Allocated workerCount m f
  workers : ∀ j < workerCount, ∃ w, pc (j + 1) = .worker w ∧
    (mode m.node j f).Holds (m.run j) (m.alive j) w

section Steps

variable {workerCount : ℕ} {m : Memory} {choice : Choice} {i : ℕ} {w : Worker} {f : Main}

/-- A worker changes only its own flag and its own thread. -/
theorem execWorker_frame (choice : Choice) (i : ℕ) (m : Memory) (w : Worker) :
    (execWorker choice i m w).1.node = m.node ∧
      (execWorker choice i m w).1.contexts = m.contexts ∧
      (execWorker choice i m w).1.isSchedulerRunning = m.isSchedulerRunning ∧
      (execWorker choice i m w).1.returned = m.returned ∧
      ∀ j ≠ i, (execWorker choice i m w).1.run j = m.run j ∧
        (execWorker choice i m w).1.alive j = m.alive j := by
  have hset : ∀ (value : ℤ) (alive : Bool), ∀ j ≠ i,
      Function.update m.run i value j = m.run j ∧ Function.update m.alive i alive j = m.alive j :=
    fun value alive j hj => ⟨Function.update_of_ne hj .., Function.update_of_ne hj ..⟩
  cases w with
  | absent | tssCreate | waitNode | loop =>
    simp only [execWorker]
    split <;> exact ⟨rfl, rfl, rfl, rfl, fun _ _ => ⟨rfl, rfl⟩⟩
  | report => exact ⟨rfl, rfl, rfl, rfl, hset (-1) false⟩
  | signal => exact ⟨rfl, rfl, rfl, rfl, fun j hj => ⟨(hset 1 false j hj).1, rfl⟩⟩
  | work => exact ⟨rfl, rfl, rfl, rfl, fun _ _ => ⟨rfl, rfl⟩⟩
  | leave => exact ⟨rfl, rfl, rfl, rfl, fun j hj => ⟨rfl, (hset 0 false j hj).2⟩⟩

theorem execWorker_absent (h : m.alive i = false) :
    execWorker choice i m .absent = (m, .absent) := by
  rw [execWorker, if_neg (by rw [h]; exact Bool.false_ne_true)]

theorem execWorker_waitNode (h : m.isSchedulerRunning = false) :
    execWorker choice i m .waitNode = (m, .waitNode) := by
  rw [execWorker, if_neg (by rw [h]; exact Bool.false_ne_true)]

/-- A worker that comes up decides whether it runs, and then waits for the node. -/
theorem Mode.starting_execWorker (h : Mode.starting.Holds (m.run i) (m.alive i) w)
    (hr : m.isSchedulerRunning = false) :
    Mode.starting.Holds ((execWorker choice i m w).1.run i) ((execWorker choice i m w).1.alive i)
      (execWorker choice i m w).2 := by
  rcases h with ⟨h0, ha, rfl | rfl | rfl | rfl⟩ | ⟨h1, ha, rfl⟩ | ⟨h1, ha, rfl⟩
  · rw [execWorker, if_pos ha]
    exact Or.inl ⟨h0, ha, Or.inr (Or.inl rfl)⟩
  · rw [execWorker]
    split_ifs
    · exact Or.inl ⟨h0, ha, Or.inr (Or.inr (Or.inl rfl))⟩
    · exact Or.inl ⟨h0, ha, Or.inr (Or.inr (Or.inr rfl))⟩
  · exact Or.inr (Or.inr ⟨Function.update_self .., Function.update_self .., rfl⟩)
  · exact Or.inr (Or.inl ⟨Function.update_self .., ha, rfl⟩)
  · rw [execWorker_waitNode hr]
    exact Or.inr (Or.inl ⟨h1, ha, rfl⟩)
  · rw [execWorker_absent ha]
    exact Or.inr (Or.inr ⟨h1, ha, rfl⟩)

/-- A worker that works goes on working until its flag is taken back, and then ends. -/
theorem Mode.stopping_execWorker (h : Mode.stopping.Holds (m.run i) (m.alive i) w) :
    Mode.stopping.Holds ((execWorker choice i m w).1.run i) ((execWorker choice i m w).1.alive i)
      (execWorker choice i m w).2 := by
  rcases h with ⟨h0, ⟨ha, rfl⟩ | ⟨ha, rfl | rfl | rfl | rfl⟩⟩
  · rw [execWorker_absent ha]
    exact ⟨h0, Or.inl ⟨ha, rfl⟩⟩
  · rw [execWorker]
    split_ifs
    · exact ⟨h0, Or.inr ⟨ha, Or.inr (Or.inl rfl)⟩⟩
    · exact ⟨h0, Or.inr ⟨ha, Or.inl rfl⟩⟩
  · rw [execWorker, if_pos h0]
    exact ⟨h0, Or.inr ⟨ha, Or.inr (Or.inr (Or.inr rfl))⟩⟩
  · exact ⟨h0, Or.inr ⟨ha, Or.inr (Or.inl rfl)⟩⟩
  · exact ⟨h0, Or.inl ⟨Function.update_self .., rfl⟩⟩

/-- A worker keeps to its mode, where one that waits for the node is not let go. -/
theorem Mode.holds_execWorker {μ : Mode} (h : μ.Holds (m.run i) (m.alive i) w)
    (hr : μ.waits = true → m.isSchedulerRunning = false) :
    μ.Holds ((execWorker choice i m w).1.run i) ((execWorker choice i m w).1.alive i)
      (execWorker choice i m w).2 := by
  cases μ with
  | quiet =>
    obtain ⟨ha, rfl⟩ := h
    rw [execWorker_absent ha]
    exact ⟨ha, rfl⟩
  | fresh | down =>
    obtain ⟨ha, rfl, hrun⟩ := h
    rw [execWorker_absent ha]
    exact ⟨ha, rfl, hrun⟩
  | starting => exact Mode.starting_execWorker h (hr rfl)
  | decided =>
    rcases h with ⟨h1, ha, rfl⟩ | ⟨h1, ha, rfl⟩
    · rw [execWorker_waitNode (hr rfl)]
      exact Or.inl ⟨h1, ha, rfl⟩
    · rw [execWorker_absent ha]
      exact Or.inr ⟨h1, ha, rfl⟩
  | up | stuck =>
    obtain ⟨hrun, ha, rfl⟩ := h
    rw [execWorker_waitNode (hr rfl)]
    exact ⟨hrun, ha, rfl⟩
  | busy =>
    obtain ⟨h1, ha, rfl | rfl | rfl⟩ := h
    · rw [execWorker]
      split_ifs
      · exact ⟨h1, ha, Or.inr (Or.inl rfl)⟩
      · exact ⟨h1, ha, Or.inl rfl⟩
    · rw [execWorker, if_neg (by omega)]
      exact ⟨h1, ha, Or.inr (Or.inr rfl)⟩
    · exact ⟨h1, ha, Or.inr (Or.inl rfl)⟩
  | stopping => exact Mode.stopping_execWorker h

theorem not_running_of_waits {j : ℕ} (ha : Allocated workerCount m f)
    (hw : (mode m.node j f).waits = true) : m.isSchedulerRunning = false := by
  cases f with
  | client =>
    simp only [mode] at hw
    split at hw <;> cases hw
  | stop reason ii | stopStore reason ii | join reason ii =>
    cases reason with
    | finalize =>
      simp only [mode] at hw
      split_ifs at hw <;> cases hw
    | failed k => exact ha.2.2.1
  | contextInit ii | create ii | waitUp ii | checkUp ii => exact ha.2.2.1
  | publish => exact ha.2.2
  | schedulerAllocate => exact ha.2.2
  | _ => cases hw

/-- The main thread leaves the workers alone, apart from flags and threads that it sets. -/
theorem inv_worker {pc : ℕ → Frame} (h : Inv workerCount m pc f) (hi : i < workerCount)
    (hw : pc (i + 1) = .worker w) (choice : Choice) :
    Inv workerCount (execWorker choice i m w).1
      (Function.update pc (i + 1) (.worker (execWorker choice i m w).2)) f := by
  obtain ⟨hnode, hcontexts, hrunning, -, hother⟩ := execWorker_frame choice i m w
  have hmode : ∀ j, mode (execWorker choice i m w).1.node j f = mode m.node j f := fun j => by
    rw [hnode]
  refine ⟨?_, ?_, fun j hj => ?_⟩
  · rw [Function.update_of_ne (Nat.succ_ne_zero i).symm]
    exact h.main
  · have ha := h.allocated
    cases f <;> simp only [Allocated, hnode, hcontexts, hrunning] at ha ⊢ <;> exact ha
  · rw [hmode]
    obtain ⟨v, hv, hholds⟩ := h.workers j hj
    rcases eq_or_ne j i with rfl | hne
    · rw [hw] at hv
      cases hv
      refine ⟨_, Function.update_self .., Mode.holds_execWorker hholds fun hwaits => ?_⟩
      exact not_running_of_waits h.allocated hwaits
    · refine ⟨v, ?_, ?_⟩
      · rw [Function.update_of_ne fun he => hne (Nat.succ.inj he)]
        exact hv
      · rw [(hother j hne).1, (hother j hne).2]
        exact hholds

theorem mode_contextInit_succ (node : Bool) (j ii : ℕ) :
    mode node j (.contextInit (ii + 1)) = if j ≤ ii then .fresh else .quiet := by
  simp only [mode, Nat.lt_succ_iff]

theorem mode_create_succ (node : Bool) (j ii : ℕ) :
    mode node j (.create (ii + 1)) = if j ≤ ii then .up else .fresh := by
  simp only [mode, Nat.lt_succ_iff]

theorem mode_stop_succ (node : Bool) (j ii : ℕ) :
    mode node j (.stop .finalize (ii + 1)) = if j ≤ ii then .quiet else .busy := by
  simp only [mode, Nat.lt_succ_iff]

theorem run_setRun_self (ii : ℕ) (value : ℤ) : (m.setRun ii value).run ii = value := by
  change Function.update m.run ii value ii = value
  rw [Function.update_self]

theorem run_setRun_of_ne {j ii : ℕ} (h : j ≠ ii) (value : ℤ) :
    (m.setRun ii value).run j = m.run j :=
  Function.update_of_ne h ..

theorem alive_setAlive_of_ne {j ii : ℕ} (h : j ≠ ii) (alive : Bool) :
    (m.setAlive ii alive).alive j = m.alive j :=
  Function.update_of_ne h ..

/-- The scheduler is initialized context by context and then thread by thread. -/
theorem Mode.holds_create {j ii : ℕ}
    (h : (mode m.node j (.create ii)).Holds (m.run j) (m.alive j) w) :
    (mode m.node j (.waitUp ii)).Holds ((m.setAlive ii true).run j) ((m.setAlive ii true).alive j)
      w := by
  simp only [mode] at h ⊢
  rcases lt_trichotomy j ii with hlt | rfl | hgt
  · rw [if_pos hlt] at h ⊢
    rw [alive_setAlive_of_ne hlt.ne]
    exact h
  · rw [if_neg (lt_irrefl j)] at h ⊢
    rw [if_pos rfl]
    exact Or.inl ⟨h.2.2, Function.update_self .., Or.inl h.2.1⟩
  · rw [if_neg hgt.not_gt] at h ⊢
    rw [if_neg hgt.ne', alive_setAlive_of_ne hgt.ne']
    exact h

theorem Mode.holds_contextInit {j ii : ℕ}
    (h : (mode m.node j (.contextInit ii)).Holds (m.run j) (m.alive j) w) :
    (mode m.node j (.contextInit (ii + 1))).Holds ((m.setRun ii 0).run j) (m.alive j) w := by
  rw [mode_contextInit_succ]
  simp only [mode] at h
  rcases lt_trichotomy j ii with hlt | rfl | hgt
  · rw [if_pos hlt] at h
    rw [if_pos hlt.le, run_setRun_of_ne hlt.ne]
    exact h
  · rw [if_neg (lt_irrefl j)] at h
    rw [if_pos le_rfl]
    exact ⟨h.1, h.2, Function.update_self ..⟩
  · rw [if_neg hgt.not_gt] at h
    rw [if_neg hgt.not_ge]
    exact h

theorem Mode.holds_waitUp {j ii : ℕ} (hrun : m.run ii ≠ 0)
    (h : (mode m.node j (.waitUp ii)).Holds (m.run j) (m.alive j) w) :
    (mode m.node j (.checkUp ii)).Holds (m.run j) (m.alive j) w := by
  simp only [mode] at h ⊢
  rcases lt_trichotomy j ii with hlt | rfl | hgt
  · rw [if_pos hlt] at h ⊢
    exact h
  · rw [if_neg (lt_irrefl j), if_pos rfl] at h ⊢
    rcases h with ⟨h0, -⟩ | h
    · exact absurd h0 hrun
    · exact h
  · rw [if_neg hgt.not_gt, if_neg hgt.ne'] at h ⊢
    exact h

/-- A worker that has come up stays up while the others are started, -/
theorem Mode.holds_checkUp {j ii : ℕ} (hrun : 0 < m.run ii)
    (h : (mode m.node j (.checkUp ii)).Holds (m.run j) (m.alive j) w) :
    (mode m.node j (.create (ii + 1))).Holds (m.run j) (m.alive j) w := by
  rw [mode_create_succ]
  simp only [mode] at h
  rcases lt_trichotomy j ii with hlt | rfl | hgt
  · rw [if_pos hlt] at h
    rw [if_pos hlt.le]
    exact h
  · rw [if_neg (lt_irrefl j), if_pos rfl] at h
    rw [if_pos le_rfl]
    rcases h with h | ⟨h1, -⟩
    · exact h
    · omega
  · rw [if_neg hgt.not_gt, if_neg hgt.ne'] at h
    rw [if_neg hgt.not_ge]
    exact h

/-- and when one has not, the others have no thread. -/
theorem Mode.holds_checkUp_failed {j ii : ℕ} (hrun : ¬ 0 < m.run ii)
    (h : (mode m.node j (.checkUp ii)).Holds (m.run j) (m.alive j) w) :
    (mode m.node j (.stop (.failed ii) 0)).Holds (m.run j) (m.alive j) w := by
  simp only [mode] at h ⊢
  rcases lt_trichotomy j ii with hlt | rfl | hgt
  · rw [if_pos hlt] at h ⊢
    exact h
  · rw [if_neg (lt_irrefl j)] at h ⊢
    rw [if_pos rfl] at h
    rcases h with ⟨h1, -⟩ | ⟨h1, ha, hw⟩
    · omega
    · exact ⟨ha, hw, by omega⟩
  · rw [if_neg hgt.not_gt] at h ⊢
    rw [if_neg hgt.ne'] at h
    exact ⟨h.1, h.2.1, h.2.2.le⟩

/-- A worker whose flag is not set, or whose thread has ended, is done. -/
theorem Mode.holds_stop {j ii : ℕ} (hii : j = ii → m.alive j = false ∧ w = .absent)
    (h : j ≠ ii → (mode m.node j (.stop .finalize ii)).Holds (m.run j) (m.alive j) w) :
    (mode m.node j (.stop .finalize (ii + 1))).Holds (m.run j) (m.alive j) w := by
  rw [mode_stop_succ]
  rcases lt_trichotomy j ii with hlt | rfl | hgt
  · have h := h hlt.ne
    simp only [mode, if_pos hlt] at h
    rw [if_pos hlt.le]
    exact h
  · rw [if_pos le_rfl]
    exact hii rfl
  · have h := h hgt.ne'
    simp only [mode, if_neg hgt.not_gt] at h
    rw [if_neg hgt.not_ge]
    exact h

theorem Mode.holds_stopStore {j ii : ℕ}
    (h : (mode m.node j (.stopStore .finalize ii)).Holds (m.run j) (m.alive j) w) :
    (mode m.node j (.join .finalize ii)).Holds ((m.setRun ii 0).run j) (m.alive j) w := by
  simp only [mode] at h ⊢
  rcases lt_trichotomy j ii with hlt | rfl | hgt
  · rw [if_pos hlt] at h ⊢
    exact h
  · rw [if_neg (lt_irrefl j)] at h ⊢
    rw [if_pos rfl]
    refine ⟨Function.update_self .., Or.inr ⟨h.2.1, ?_⟩⟩
    rcases h.2.2 with hw | hw | hw
    · exact Or.inl hw
    · exact Or.inr (Or.inl hw)
    · exact Or.inr (Or.inr (Or.inl hw))
  · rw [if_neg hgt.not_gt] at h ⊢
    rw [if_neg hgt.ne', run_setRun_of_ne hgt.ne']
    exact h

/-- The first worker, told to end before the node runs, waits for ever. -/
theorem Mode.holds_stopStore_failed {j k : ℕ} (hk : 0 < k)
    (h : (mode m.node j (.stopStore (.failed k) 0)).Holds (m.run j) (m.alive j) w) :
    (mode m.node j (.join (.failed k) 0)).Holds ((m.setRun 0 0).run j) (m.alive j) w := by
  simp only [mode] at h ⊢
  rcases Nat.eq_zero_or_pos j with rfl | hj
  · rw [if_pos hk] at h
    rw [if_pos rfl]
    exact ⟨run_setRun_self 0 0, h.2⟩
  · rw [if_neg hj.ne', run_setRun_of_ne hj.ne']
    exact h

/-- What the main thread does to one worker moves it to the mode that follows. -/
theorem Mode.holds_execMain {j : ℕ} (hj : j < workerCount) (ha : Allocated workerCount m f)
    (hstuck : ∀ k ii, f = .join (.failed k) ii → m.alive ii = true)
    (h : (mode m.node j f).Holds (m.run j) (m.alive j) w) :
    (mode (execMain workerCount choice m f).1.node j (execMain workerCount choice m f).2).Holds
      ((execMain workerCount choice m f).1.run j) ((execMain workerCount choice m f).1.alive j)
      w := by
  cases f with
  | client =>
    cases choice with
    | initializeNode =>
      simp only [execMain]
      split_ifs with hnode
      · exact h
      · simpa only [mode, hnode, if_false, Bool.false_eq_true] using h
    | finalize =>
      simp only [execMain]
      split_ifs with hnode
      · simpa only [mode, hnode, if_true, Nat.not_lt_zero, if_false] using h
      · exact h
    | succeeds | fails => exact h
  | nodeAllocate =>
    simp only [execMain]
    split_ifs
    · change (mode m.node j .client).Holds _ _ _
      rw [ha.1]
      exact h
    · exact h
  | schedulerAllocate =>
    simp only [execMain]
    split_ifs
    · exact h
    · simpa only [mode, Nat.not_lt_zero, if_false] using h
  | contextInit ii =>
    simp only [execMain]
    split_ifs with hlt
    · exact Mode.holds_contextInit h
    · have hji : j < ii := by omega
      simpa only [mode, if_pos hji, Nat.not_lt_zero, if_false] using h
  | create ii =>
    simp only [execMain]
    split_ifs with hlt hfails
    · simp only [mode] at h ⊢
      split_ifs at h ⊢
      · exact h
      · exact ⟨h.1, h.2.1, h.2.2.le⟩
    · exact Mode.holds_create h
    · have hji : j < ii := by omega
      simpa only [mode, if_pos hji] using h
  | waitUp ii =>
    simp only [execMain]
    split_ifs with hrun
    · exact h
    · exact Mode.holds_waitUp hrun h
  | checkUp ii =>
    simp only [execMain]
    split_ifs with hrun
    · exact Mode.holds_checkUp hrun h
    · exact Mode.holds_checkUp_failed hrun h
  | publish =>
    change (mode m.node j .client).Holds _ _ _
    rw [ha.1]
    exact ⟨h.1, h.2.1, Or.inl h.2.2⟩
  | stop reason ii =>
    simp only [execMain]
    cases reason with
    | finalize =>
      split_ifs with hlt hrun
      · exact h
      · refine Mode.holds_stop ?_ fun _ => h
        rintro rfl
        simp only [mode, if_neg (lt_irrefl j)] at h
        have h1 : m.run j = 1 := h.1
        omega
      · have hji : j < ii := by omega
        simpa only [mode, if_pos hji] using h
    | failed k =>
      split_ifs with hlt hrun
      · exact h
      · exact h
      · obtain ⟨-, -, -, hk, hii⟩ := ha
        obtain rfl : k = 0 := by omega
        simp only [mode, if_neg (Nat.not_lt_zero j)] at h
        exact ⟨h.1, h.2.1⟩
  | stopStore reason ii =>
    cases reason with
    | finalize => exact Mode.holds_stopStore h
    | failed k =>
      obtain ⟨-, -, -, -, hk, rfl⟩ := ha
      exact Mode.holds_stopStore_failed hk h
  | join reason ii =>
    simp only [execMain]
    split_ifs with halive
    · exact h
    · cases reason with
      | finalize =>
        refine Mode.holds_stop ?_ fun hne => ?_
        · rintro rfl
          simp only [mode, if_neg (lt_irrefl j), if_pos] at h
          rcases h.2 with h | h
          · exact h
          · exact absurd h.1 halive
        · simp only [mode, if_neg hne] at h ⊢
          exact h
      | failed k => exact absurd (hstuck k ii rfl) halive
  | freeContexts reason => exact h
  | freeNode reason => exact h

/-- Where the main thread comes to next, from what it knows of the worker that it looks at. -/
theorem allocated_execMain (ha : Allocated workerCount m f)
    (hw : ∀ j < workerCount, ∃ w, (mode m.node j f).Holds (m.run j) (m.alive j) w) :
    Allocated workerCount (execMain workerCount choice m f).1
      (execMain workerCount choice m f).2 := by
  cases f with
  | client =>
    cases choice with
    | initializeNode =>
      simp only [execMain]
      split_ifs with hnode
      · exact ha
      · have hfalse : m.node = false := Bool.eq_false_iff.mpr hnode
        exact ⟨hfalse, ha.1.trans hfalse⟩
    | finalize =>
      simp only [execMain]
      split_ifs with hnode
      · exact ⟨hnode, ha.1.trans hnode, ha.2 hnode⟩
      · exact ha
    | succeeds | fails => exact ha
  | nodeAllocate =>
    simp only [execMain]
    split_ifs
    · exact ⟨ha.2.trans ha.1.symm, fun hn => absurd (ha.1.symm.trans hn) Bool.false_ne_true⟩
    · exact ⟨rfl, ha.2, rfl⟩
  | schedulerAllocate =>
    simp only [execMain]
    split_ifs
    · exact ⟨ha.1, ha.2.1, fun k hk => by cases hk; rfl⟩
    · exact ⟨ha.1, rfl, ha.2.2, Nat.zero_le _⟩
  | contextInit ii =>
    simp only [execMain]
    split_ifs with hlt
    · exact ⟨ha.1, ha.2.1, ha.2.2.1, hlt⟩
    · exact ⟨ha.1, ha.2.1, ha.2.2.1, Nat.zero_le _⟩
  | create ii =>
    simp only [execMain]
    split_ifs with hlt
    · exact ⟨ha.1, ha.2.1, ha.2.2.1, hlt, fun _ => rfl⟩
    · exact ⟨ha.1, ha.2.1, ha.2.2.1, hlt⟩
    · exact ⟨ha.1, ha.2.1, ha.2.2.1⟩
  | waitUp ii =>
    simp only [execMain]
    split_ifs
    · exact ha
    · exact ha
  | checkUp ii =>
    simp only [execMain]
    split_ifs
    · exact ⟨ha.1, ha.2.1, ha.2.2.1, ha.2.2.2⟩
    · exact ⟨ha.1, ha.2.1, ha.2.2.1, ha.2.2.2, fun _ => rfl⟩
  | publish => exact ⟨ha.2.1.trans ha.1.symm, fun _ => rfl⟩
  | stop reason ii =>
    simp only [execMain]
    cases reason with
    | finalize =>
      split_ifs with hlt
      · exact ⟨ha.1, ha.2.1, ha.2.2, hlt⟩
      · exact ha
      · exact ⟨ha.1, ha.2.1, fun k hk => by cases hk⟩
    | failed k =>
      obtain ⟨hn, hc, hr, hk, hii⟩ := ha
      split_ifs with hlt hrun
      · obtain ⟨w, hholds⟩ := hw ii hlt
        have hpos : 0 < k := by
          by_contra hzero
          have hdown : m.run ii ≤ 0 := by
            have hle : ¬ ii < k := by omega
            simp only [mode, if_neg hle] at hholds
            exact hholds.2.2
          omega
        exact ⟨hn, hc, hr, hk, hpos, hii hpos⟩
      · refine ⟨hn, hc, hr, hk, fun hpos => ?_⟩
        obtain ⟨w, hholds⟩ := hw ii hlt
        have hlt' : ii < k := by
          rw [hii hpos]
          exact hpos
        simp only [mode, if_pos hlt'] at hholds
        have hone : m.run ii = 1 := hholds.1
        omega
      · refine ⟨hn, hc, fun k' hk' => ?_⟩
        cases hk'
        omega
  | stopStore reason ii =>
    cases reason with
    | finalize => exact ha
    | failed k => exact ha
  | join reason ii =>
    simp only [execMain]
    split
    · exact ha
    · rename_i hdead
      cases reason with
      | finalize => exact ⟨ha.1, ha.2.1, ha.2.2.1⟩
      | failed k =>
        obtain ⟨-, -, -, hk, hpos, rfl⟩ := ha
        obtain ⟨w, hholds⟩ := hw 0 (by omega)
        exact absurd hholds.2.1 hdead
  | freeContexts reason => exact ⟨ha.1, rfl, ha.2.2⟩
  | freeNode reason => exact ⟨ha.2.1, fun hn => by cases hn⟩

theorem inv_main {pc : ℕ → Frame} (h : Inv workerCount m pc f) (choice : Choice) :
    Inv workerCount (execMain workerCount choice m f).1
      (Function.update pc 0 (.main (execMain workerCount choice m f).2))
      (execMain workerCount choice m f).2 := by
  have hw : ∀ j < workerCount, ∃ w, (mode m.node j f).Holds (m.run j) (m.alive j) w :=
    fun j hj => (h.workers j hj).imp fun w hw => hw.2
  refine ⟨Function.update_self .., allocated_execMain h.allocated hw, fun j hj => ?_⟩
  obtain ⟨w, hpc, hholds⟩ := h.workers j hj
  refine ⟨w, ?_, Mode.holds_execMain hj h.allocated ?_ hholds⟩
  · rw [Function.update_of_ne (Nat.succ_ne_zero j)]
    exact hpc
  · rintro k ii rfl
    obtain ⟨-, -, -, hk, hpos, rfl⟩ := h.allocated
    obtain ⟨w', hstuck⟩ := hw 0 (by omega)
    exact hstuck.2.1

end Steps

section Runs

variable {workerCount : ℕ}

/-- What each thread is at; a thread that does not exist is as one that has not been created. -/
abbrev points (s : State Memory Frame) : ℕ → Frame := s.pc (.worker .absent)

/-- The invariant of a state, with the point that the main thread is at. -/
structure Works (workerCount : ℕ) (s : State Memory Frame) (f : Main) : Prop where
  threads : s.callStacks.length = workerCount + 1
  inv : Inv workerCount s.mem (points s) f

/-- Where one step leads the main thread. -/
def nextMain (workerCount : ℕ) (e : ℕ × Choice) (m : Memory) (f : Main) : Main :=
  if e.1 = 0 then (execMain workerCount e.2 m f).2 else f

theorem Works.step {s : State Memory Frame} {f : Main} (h : Works workerCount s f)
    (e : ℕ × Choice) :
    Works workerCount (step (code workerCount) s e) (nextMain workerCount e s.mem f) := by
  refine ⟨(length_step _ s e).trans h.threads, ?_⟩
  cases htop : s.top e.1 with
  | none =>
    have hne : e.1 ≠ 0 := by
      intro hzero
      have hmain := h.inv.main
      rw [points, State.pc, ← hzero, htop] at hmain
      cases hmain
    rw [step_of_top_none _ htop, nextMain, if_neg hne]
    exact h.inv
  | some g =>
    have hpc : points s e.1 = g := State.pc_of_top htop
    rw [points, mem_step (code workerCount) htop, pc_step (code workerCount) _ htop rfl]
    have hlt := State.lt_of_top htop
    rw [h.threads] at hlt
    rcases Nat.eq_zero_or_eq_succ_pred e.1 with hzero | hsucc
    · have hg : g = .main f := by
        rw [← hpc, hzero]
        exact h.inv.main
      rw [nextMain, if_pos hzero, hg, hzero]
      exact inv_main h.inv e.2
    · obtain ⟨w, hw, -⟩ := h.inv.workers e.1.pred (by omega)
      have hg : g = .worker w := by
        rw [← hpc, hsucc]
        exact hw
      rw [nextMain, if_neg (by omega), hg]
      have hi := inv_worker h.inv (i := e.1.pred) (by omega) hw e.2
      rw [← Nat.succ_eq_add_one, ← hsucc] at hi
      exact hi

theorem works_boot (workerCount : ℕ) : Works workerCount (boot workerCount) .client := by
  refine ⟨by rw [boot, List.length_cons, List.length_replicate], rfl, ⟨rfl, fun h => by cases h⟩,
    fun j hj => ⟨.absent, ?_, rfl, rfl⟩⟩
  refine State.pc_of_top ?_
  rw [State.top, boot, List.getElem?_cons_succ, List.getElem?_replicate, if_pos hj]
  rfl

/-- Every thread of the node goes on executing. -/
theorem exists_top (workerCount : ℕ) (es : List (ℕ × Choice)) {t : ℕ}
    (ht : t ≤ workerCount) :
    ∃ g, (run (code workerCount) (boot workerCount) es).top t = some g := by
  refine exists_top_run (fun _ _ _ _ => ⟨_, rfl⟩) ?_ es
  rw [State.top, boot]
  cases t with
  | zero => exact ⟨_, rfl⟩
  | succ t =>
    rw [List.getElem?_cons_succ, List.getElem?_replicate, if_pos (Nat.lt_of_succ_le ht)]
    exact ⟨_, rfl⟩

theorem Works.top {es : List (ℕ × Choice)} {f : Main}
    (h : Works workerCount (run (code workerCount) (boot workerCount) es) f) :
    (run (code workerCount) (boot workerCount) es).top 0 = some (.main f) := by
  obtain ⟨g, hg⟩ := exists_top workerCount es (Nat.zero_le workerCount)
  have hmain := h.inv.main
  rw [points, State.pc_of_top hg] at hmain
  rw [hg, hmain]

/-- The steps that a worker takes at most once its flag is reset. -/
def Worker.left : Worker → ℕ
  | .loop => 2
  | .leave => 1
  | .absent => 0
  | _ => 3

/-- What is left of a finalization, for the main thread and for the worker that it waits for. -/
def Main.left (workerCount : ℕ) (pc : ℕ → Frame) : Main → ℕ
  | .stop _ ii => 8 * (workerCount - ii) + 7
  | .stopStore _ ii => 8 * (workerCount - ii) + 6
  | .join _ ii =>
    8 * (workerCount - ii) + 1 +
      match pc (ii + 1) with
      | .worker w => w.left
      | .main _ => 0
  | .freeContexts _ => 2
  | .freeNode _ => 1
  | _ => 0

end Runs

end Embb.Mtapi.Lifecycle
