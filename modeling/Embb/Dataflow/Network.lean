import Embb.Dataflow.Node

/-!
# Networks on the scheduler

The main thread emits clocks: it waits until the slot of the clock has been left, sets the
counter of the sinks and starts the sources. Workers run the tasks that nodes have handed to the
scheduler, in any order; a task sends one signal, with a value or blank, to every target of its
node, and the task of a sink tells the network. Only the clocks of signals are modelled.
-/

namespace Embb.Dataflow

open Threads

/-- What sends signals. -/
inductive Sender
  | source (k : ℕ)
  | node (v : ℕ)
  deriving DecidableEq, Repr

/-- A network. Every input is connected to one output, nodes are numbered along the connections,
and every node that is not a sink has a target. -/
structure Network where
  slices : ℕ
  nodes : ℕ
  sources : ℕ
  inputs : ℕ → ℕ
  serial : ℕ → Bool
  sink : ℕ → Bool
  /-- What is connected to an input. -/
  sender : ℕ → ℕ → Sender
  /-- The inputs that a run sends to, output by output. -/
  targets : Sender → List (ℕ × ℕ)
  slices_pos : 0 < slices
  inputs_pos : ∀ v, 0 < inputs v
  mem_targets : ∀ s w i, (w, i) ∈ targets s ↔ w < nodes ∧ i < inputs w ∧ sender w i = s
  nodup_targets : ∀ s, (targets s).Nodup
  source_lt : ∀ w < nodes, ∀ i < inputs w, ∀ k, sender w i = .source k → k < sources
  node_lt : ∀ w < nodes, ∀ i < inputs w, ∀ v, sender w i = .node v → v < w
  used : ∀ v < nodes, sink v = false → targets (.node v) ≠ []
  sink_targets : ∀ v, sink v = true → targets (.node v) = []
  sink_serial : ∀ v, sink v = true → serial v = true

namespace Network

variable (N : Network)

def shape (v : ℕ) : Shape := ⟨N.slices, N.inputs v, N.serial v, N.slices_pos, N.inputs_pos v⟩

def sinks : List ℕ := (List.range N.nodes).filter fun v => N.sink v

/-- `sink_count_`, which `OnInit` counts up once for each sink. -/
def sinkCount : ℕ := N.sinks.length

end Network

structure NetMemory where
  node : ℕ → Memory
  sinkCounter : ℕ → ℤ
  /-- The tasks of each slice that have not completed. -/
  group : ℕ → ℕ
  /-- The tasks that no worker has taken. -/
  pool : List (ℕ × ℕ)
  /-- The clocks that have been emitted, how many each source has started, and the sinks that
  have been run; the code does not keep them. -/
  emitted : ℕ
  started : ℕ → ℕ
  reached : List (ℕ × ℕ)

/-- The program points of the main thread and of a worker. -/
inductive NetFrame
  -- Network::operator()
  | waitSinks (c : ℕ)
  | waitSlice (c : ℕ)
  | finalSinks (ii c : ℕ)
  | finalSlice (ii c : ℕ)
  -- ~SchedulerMTAPI
  | destroy (ii : ℕ)
  | done
  -- SpawnClock
  | setCounter (c : ℕ)
  | start (c k : ℕ)
  -- Run of a source or a node, and the delivery of a signal to a target
  | send (s : Sender) (c : ℕ) (rest : List (ℕ × ℕ)) (call : Option (ℕ × Frame))
  -- Network::OnClock, called by the run of a sink
  | sinkRun (v c : ℕ)
  | endTask (c : ℕ)
  | idle
  | sinkThrown
  deriving DecidableEq, Repr

namespace NetMemory

def init (N : Network) : NetMemory where
  node v := Memory.init (N.shape v)
  sinkCounter := fun _ => 0
  group := fun _ => 0
  pool := []
  emitted := 0
  started := fun _ => 0
  reached := []

/-- A step of a call at node `v`, with the tasks that it hands to the scheduler. -/
def nodeStep (N : Network) (m : NetMemory) (v : ℕ) (f : Frame) : NetMemory :=
  { m with
    node := Function.update m.node v (exec (N.shape v) none (m.node v) f).1
    pool := m.pool ++ f.hands.map fun c => (v, c)
    group := fun s => m.group s + f.hands.countP fun c => c % N.slices = s }

section Steps

variable (N : Network) (m : NetMemory) (v : ℕ) (f : Frame)

theorem node_nodeStep_self :
    (m.nodeStep N v f).node v = (exec (N.shape v) none (m.node v) f).1 :=
  Function.update_self ..

theorem node_nodeStep_of_ne {u : ℕ} (h : u ≠ v) : (m.nodeStep N v f).node u = m.node u :=
  Function.update_of_ne h ..

/-- A call hands clocks over at its own node. -/
theorem enqueued_nodeStep (u : ℕ) : ((m.nodeStep N v f).node u).enqueued =
    (m.node u).enqueued ++ if u = v then f.hands else [] := by
  by_cases h : u = v
  · rw [h, node_nodeStep_self, enqueued_exec, if_pos rfl]
  · rw [node_nodeStep_of_ne N m v f h, if_neg h, List.append_nil]

/-- Only the store of a signal makes it arrive, at its own node. -/
theorem mem_arrived_nodeStep {u i c : ℕ} : i ∈ ((m.nodeStep N v f).node u).arrived c ↔
    i ∈ (m.node u).arrived c ∨ u = v ∧ f = .store i c := by
  by_cases h : u = v
  · rw [h, node_nodeStep_self, mem_arrived_exec, and_iff_right rfl]
  · rw [node_nodeStep_of_ne N m v f h]
    exact (or_iff_left fun hs => h hs.1).symm

/-- The pool gets one task for each clock that is handed over. -/
theorem count_pool_nodeStep (u c : ℕ) : (m.nodeStep N v f).pool.count (u, c) =
    m.pool.count (u, c) + if u = v then f.hands.count c else 0 := by
  change (m.pool ++ f.hands.map fun c => (v, c)).count (u, c) = _
  rw [List.count_append]
  by_cases h : u = v
  · rw [h, if_pos rfl, List.count_map_of_injective _ _ fun a b hab => (Prod.mk.inj hab).2]
  · have hzero : (f.hands.map fun c => (v, c)).count (u, c) = 0 := by
      refine List.count_eq_zero.mpr fun hmem => ?_
      obtain ⟨e, -, he⟩ := List.mem_map.mp hmem
      exact h (Prod.mk.inj he).1.symm
    rw [if_neg h, hzero]

end Steps

end NetMemory

/-- A call that is over is left. -/
def returns (v : ℕ) (f : Frame) : Option (ℕ × Frame) :=
  if f = .upstream then none else some (v, f)

/-- One step. The environment chooses the task that a worker takes, and whether the sources go
on. -/
def netExec (N : Network) (choice : ℕ) (m : NetMemory) : NetFrame → NetMemory × NetFrame
  | .waitSinks c =>
    (m, if 0 < m.sinkCounter (c % N.slices) then .waitSinks c else .waitSlice c)
  | .waitSlice c => (m, if m.group (c % N.slices) = 0 then .setCounter c else .waitSlice c)
  | .setCounter c =>
    ({ m with
        sinkCounter := Function.update m.sinkCounter (c % N.slices) N.sinkCount
        emitted := c + 1 }, .start c 0)
  | .start c k =>
    if k < N.sources then
      ({ m with started := Function.update m.started k (c + 1) },
        .send (.source k) c (N.targets (.source k)) none)
    else (m, if choice = 0 then .finalSinks (c + 1 - N.slices) c else .waitSinks (c + 1))
  | .finalSinks ii c =>
    (m, if ii < c then
        if 0 < m.sinkCounter (ii % N.slices) then .finalSinks ii c else .finalSlice ii c
      else .destroy 0)
  | .finalSlice ii c =>
    (m, if m.group (ii % N.slices) = 0 then .finalSinks (ii + 1) c else .finalSlice ii c)
  | .destroy ii =>
    (m, if ii < N.slices then if m.group ii = 0 then .destroy (ii + 1) else .destroy ii
      else .done)
  | .done => (m, .done)
  | .send s c rest (some (v, f)) =>
    (m.nodeStep N v f, .send s c rest (returns v (exec (N.shape v) none (m.node v) f).2))
  | .send s c (x :: rest) none => (m, .send s c rest (some (x.1, .receive x.2 c)))
  | .send (.source k) c [] none => (m, .start c (k + 1))
  | .send (.node v) c [] none => (m, if N.sink v then .sinkRun v c else .endTask c)
  | .sinkRun v c =>
    ({ m with
        sinkCounter := Function.update m.sinkCounter (c % N.slices)
          (m.sinkCounter (c % N.slices) - 1)
        reached := m.reached ++ [(v, c)] },
      if m.sinkCounter (c % N.slices) - 1 < 0 then .sinkThrown else .endTask c)
  | .endTask c =>
    ({ m with group := Function.update m.group (c % N.slices) (m.group (c % N.slices) - 1) },
      .idle)
  | .idle =>
    match m.pool[choice]? with
    | some (v, c) =>
      ({ m with pool := m.pool.eraseIdx choice },
        .send (.node v) c (N.targets (.node v)) none)
    | none => (m, .idle)
  | .sinkThrown => (m, .sinkThrown)

def netCode (N : Network) : Code NetMemory NetFrame ℕ := fun _ choice f m =>
  ((netExec N choice m f).1, [(netExec N choice m f).2])

/-- The main thread and any number of workers. -/
def netBoot (N : Network) (workers : ℕ) : State NetMemory NetFrame :=
  ⟨NetMemory.init N, [.waitSinks 0] :: List.replicate workers [.idle]⟩

end Embb.Dataflow
