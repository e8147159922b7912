import Embb.Lib.Threads

/-!
# Continuations

A chain is a linked list of stage records. `Spawn` starts one task that is bound to the
`Continuation` object by reference: it reads `first_` there when it starts, spawns and awaits one
task for each stage, and reads `first_` again to delete the stages. The object of a chained
expression is gone when the expression ends. What is read of it afterwards is anything.
-/

namespace Embb.Tasks.Continuation

open Threads

variable {α : Type}

structure ContinuationStage (α : Type) where
  action : α
  next : Option ℕ

/-- The stage records by address, and how many have been allocated. -/
structure Stages (α : Type) where
  stage : ℕ → Option (ContinuationStage α)
  allocated : ℕ

/-- A Continuation object: `first_` and `last_`. -/
structure Object where
  first : ℕ
  last : ℕ

def Stages.new (s : Stages α) (action : α) : Stages α where
  stage := Function.update s.stage s.allocated (some ⟨action, none⟩)
  allocated := s.allocated + 1

/-- `Node::First`. -/
def first (s : Stages α) (action : α) : Stages α × Object :=
  (s.new action, ⟨s.allocated, s.allocated⟩)

/-- `Then`. -/
def andThen (x : Stages α × Object) (action : α) : Stages α × Object :=
  let s := x.1.new action
  ({ s with
      stage := Function.update s.stage x.2.last
        ((s.stage x.2.last).map fun stage => { stage with next := some x.1.allocated }) },
    { x.2 with last := x.1.allocated })

/-- `First(a0).Then(a1)...Then(an)`. -/
def chain (action : α) (actions : List α) : Stages α × Object :=
  actions.foldl andThen (first ⟨fun _ => none, 0⟩ action)

/-- What a task runs: the chain, or the action of a stage. -/
inductive Job (α : Type)
  | chain
  | stage (action : α)

/-- What is observed of a run. -/
inductive Event (α : Type)
  | began (action : α)
  | ended (action : α)
  | freed (stage : ℕ)
  /-- The task that `Spawn` has returned is completed. -/
  | completed
  deriving DecidableEq

structure Memory (α : Type) where
  stages : Stages α
  /-- The object that `Spawn` is called for, until it is destroyed. -/
  object : Option Object
  /-- The tasks that no worker has taken. -/
  pool : List (ℕ × Job α)
  spawned : ℕ
  completed : List ℕ
  log : List (Event α)

/-- The program points of the thread that spawns the chain, of a worker, and of the two kinds of
tasks; `t` is the task itself. -/
inductive Frame (α : Type)
  -- Continuation::Spawn, the end of the expression, Task::Wait
  | spawn
  | returned (t : ℕ)
  | wait (t : ℕ)
  | done
  | thrown
  | idle
  -- Continuation::ExecuteContinuation
  | enter (t : ℕ)
  | loop (t : ℕ) (stage : Option ℕ)
  | spawnStage (t stage : ℕ)
  | waitStage (t stage task : ℕ)
  | next (t stage : ℕ)
  | enterDelete (t : ℕ)
  | delete (t : ℕ) (stage : Option ℕ)
  | deleteStage (t stage : ℕ) (next : Option ℕ)
  | finish (t : ℕ)
  -- the task of a stage
  | begin (t : ℕ) (action : α)
  | act (t : ℕ) (action : α)
  -- an exception leaves the task, and nobody catches it
  | terminated
  -- a stage is read that is not there
  | undefined
  deriving DecidableEq

def Job.frame (t : ℕ) : Job α → Frame α
  | .chain => .enter t
  | .stage action => .begin t action

namespace Memory

/-- A task is started. -/
def start (m : Memory α) (job : Job α) : Memory α :=
  { m with pool := m.pool ++ [(m.spawned, job)], spawned := m.spawned + 1 }

/-- A task is completed. -/
def complete (m : Memory α) (t : ℕ) (e : Event α) : Memory α :=
  { m with completed := m.completed ++ [t], log := m.log ++ [e] }

/-- `first_`, where the environment chooses what is found in place of an object that has been
destroyed. -/
def readFirst (m : Memory α) (choice : ℕ) : Option ℕ :=
  match m.object with
  | some object => some object.first
  | none => if choice = 0 then none else some (choice - 1)

end Memory

/-- One step. The environment chooses the task that a worker takes, also while it waits for a
stage, when the object is destroyed, and that no task can be started. -/
def exec (choice : ℕ) (m : Memory α) : Frame α → Memory α × List (Frame α)
  | .spawn => if choice = 1 then (m, [.thrown]) else (m.start .chain, [.returned m.spawned])
  | .returned t => (if choice = 0 then { m with object := none } else m, [.wait t])
  | .wait t => (m, if t ∈ m.completed then [.done] else [.wait t])
  | .done => (m, [.done])
  | .thrown => (m, [.thrown])
  | .idle =>
    match m.pool[choice]? with
    | some (t, job) => ({ m with pool := m.pool.eraseIdx choice }, [job.frame t, .idle])
    | none => (m, [.idle])
  | .enter t => (m, [.loop t (m.readFirst choice)])
  | .loop t none => (m, [.enterDelete t])
  | .loop t (some p) => (m, [.spawnStage t p])
  | .spawnStage t p =>
    match m.stages.stage p with
    | none => (m, [.undefined])
    | some stage =>
      -- Task(action) throws when the task cannot be started
      if choice = 1 then (m, [.terminated])
      else (m.start (.stage stage.action), [.waitStage t p m.spawned])
  | .waitStage t p u =>
    match choice with
    | 0 => (m, if u ∈ m.completed then [.next t p] else [.waitStage t p u])
    | j + 1 =>
      match m.pool[j]? with
      | some (v, job) => ({ m with pool := m.pool.eraseIdx j }, [job.frame v, .waitStage t p u])
      | none => (m, [.waitStage t p u])
  | .next t p =>
    match m.stages.stage p with
    | none => (m, [.undefined])
    | some stage => (m, [.loop t stage.next])
  | .enterDelete t => (m, [.delete t (m.readFirst choice)])
  | .delete t none => (m, [.finish t])
  | .delete t (some p) =>
    match m.stages.stage p with
    | none => (m, [.undefined])
    | some stage => (m, [.deleteStage t p stage.next])
  | .deleteStage t p next =>
    ({ m with
        stages := { m.stages with stage := Function.update m.stages.stage p none }
        log := m.log ++ [.freed p] }, [.delete t next])
  | .finish t => (m.complete t .completed, [])
  | .begin t action => ({ m with log := m.log ++ [.began action] }, [.act t action])
  | .act t action => (m.complete t (.ended action), [])
  | .terminated => (m, [.terminated])
  | .undefined => (m, [.undefined])

def code : Code (Memory α) (Frame α) ℕ := fun _ choice f m => exec choice m f

/-- The chain is built and not spawned yet. -/
def boot (action : α) (actions : List α) (workers : ℕ) : State (Memory α) (Frame α) where
  mem :=
    { stages := (chain action actions).1
      object := some (chain action actions).2
      pool := []
      spawned := 0
      completed := []
      log := [] }
  callStacks := [.spawn] :: List.replicate workers [.idle]

/-- The object is there whenever the task reads it, and the task of a stage can be started. -/
def Outlives : Guard (Memory α) (Frame α) ℕ := fun _ choice f m _ =>
  match f with
  | .enter _ | .enterDelete _ => m.object.isSome = true
  | .spawnStage _ _ => choice ≠ 1
  | _ => True

/-- The actions one after the other, each completed before the next one begins. -/
def trace (actions : List α) : List (Event α) :=
  actions.flatMap fun action => [.began action, .ended action]

def frees (n : ℕ) : List (Event α) := (List.range n).map Event.freed

/-- What is observed of a chain from its start to its end. -/
def expected (actions : List α) : List (Event α) :=
  trace actions ++ frees actions.length ++ [.completed]

/-! ## The list of the stages -/

/-- The address of the stage with a number, where there is one. -/
def link (actions : List α) (k : ℕ) : Option ℕ := if k < actions.length then some k else none

/-- The stage with a number. -/
def record (actions : List α) (k : ℕ) : Option (ContinuationStage α) :=
  actions[k]?.map fun action => ⟨action, link actions (k + 1)⟩

theorem record_concat (actions : List α) (action : α) (k : ℕ) :
    record (actions ++ [action]) k =
      if k = actions.length then some ⟨action, none⟩
      else if k + 1 = actions.length then
        (record actions k).map fun stage => { stage with next := some actions.length }
      else record actions k := by
  simp only [record, link, List.length_append, List.length_singleton]
  rcases Nat.lt_trichotomy k actions.length with hk | rfl | hk
  · rw [if_neg (by omega : ¬ k = actions.length), List.getElem?_append_left hk,
      List.getElem?_eq_getElem hk]
    simp only [Option.map_some]
    by_cases hlast : k + 1 = actions.length
    · rw [if_pos hlast, if_pos (by omega), hlast]
    · rw [if_neg hlast, if_pos (by omega), if_pos (by omega)]
  · rw [if_pos rfl, List.getElem?_concat_length, Option.map_some, if_neg (by omega)]
  · rw [if_neg (by omega : ¬ k = actions.length), if_neg (by omega : ¬ k + 1 = actions.length),
      List.getElem?_eq_none (by rw [List.length_append, List.length_singleton]; omega),
      List.getElem?_eq_none (by omega)]
    rfl

/-- The chain is the list of the stages, in order. -/
theorem chain_eq (action : α) (actions : List α) :
    (∀ k, (chain action actions).1.stage k = record (action :: actions) k) ∧
      (chain action actions).1.allocated = actions.length + 1 ∧
      (chain action actions).2 = ⟨0, actions.length⟩ := by
  induction actions using List.reverseRecOn with
  | nil =>
    refine ⟨fun k => ?_, rfl, rfl⟩
    change Function.update (fun _ => none) 0 (some ⟨action, none⟩) k = record [action] k
    cases k with
    | zero => rfl
    | succ k => rfl
  | append_singleton actions a ih =>
    obtain ⟨hstage, hallocated, hobject⟩ := ih
    have hchain : chain action (actions ++ [a]) = andThen (chain action actions) a := by
      rw [chain, List.foldl_append]
      rfl
    have hlength : (action :: actions).length = actions.length + 1 := List.length_cons
    rw [hchain]
    refine ⟨fun k => ?_, ?_, ?_⟩
    · rw [← List.cons_append, record_concat, hlength]
      simp only [andThen, Stages.new, hallocated, hobject]
      by_cases hk : k = actions.length + 1
      · rw [if_pos hk, hk, Function.update_of_ne (by omega), Function.update_self]
      · rw [if_neg hk]
        by_cases hlast : k = actions.length
        · rw [if_pos (by omega), hlast, Function.update_self, Function.update_of_ne (by omega),
            hstage]
        · rw [if_neg (by omega), Function.update_of_ne hlast, Function.update_of_ne hk, hstage]
    · simp only [andThen, Stages.new, hallocated, List.length_append, List.length_singleton]
    · simp only [andThen, hallocated, hobject, List.length_append, List.length_singleton]

theorem record_eq {actions : List α} {k : ℕ} (hk : k < actions.length) :
    record actions k = some ⟨actions[k], link actions (k + 1)⟩ := by
  rw [record, List.getElem?_eq_getElem hk]
  rfl

theorem link_eq_some {actions : List α} {k : ℕ} (hk : k < actions.length) :
    link actions k = some k := if_pos hk

theorem link_length (actions : List α) : link actions actions.length = none :=
  if_neg (Nat.lt_irrefl _)

theorem trace_take_succ {actions : List α} {k : ℕ} (hk : k < actions.length) :
    trace (actions.take (k + 1)) =
      trace (actions.take k) ++ [.began actions[k]] ++ [.ended actions[k]] := by
  rw [List.take_succ_eq_append_getElem hk, trace, List.flatMap_append]
  simp only [List.flatMap_cons, List.flatMap_nil, List.append_nil, List.append_assoc]
  rfl

theorem frees_succ (n : ℕ) : (frees (n + 1) : List (Event α)) = frees n ++ [.freed n] := by
  rw [frees, List.range_succ, List.map_append]
  rfl

/-! ## The states of a run -/

namespace Frame

/-- The frame belongs to the chain, or is about to spawn it. -/
def isLive : Frame α → Bool
  | .returned _ | .wait _ | .done | .thrown | .idle | .terminated | .undefined => false
  | _ => true

/-- What holds where the other threads are. -/
def Formed (m : Memory α) : Frame α → Prop
  | .returned t | .wait t => t = 0
  | .done => 0 ∈ m.completed
  | .terminated | .undefined => False
  | _ => True

theorem formed_of_live {m : Memory α} {f : Frame α} (hf : f.isLive = true) : f.Formed m := by
  cases f with
  | returned | wait | done | terminated | undefined => cases hf
  | _ => trivial

end Frame

/-- The frames of the chain. -/
def liveFrames (fs : Multiset (Frame α)) : Multiset (Frame α) := fs.filter fun f => f.isLive = true

theorem liveFrames_cons (f : Frame α) (fs : Multiset (Frame α)) :
    liveFrames (f ::ₘ fs) =
      if f.isLive = true then f ::ₘ liveFrames fs else liveFrames fs := by
  rw [liveFrames, Multiset.filter_cons]
  split
  · rfl
  · exact zero_add _

/-- The state: the frames of the chain, the tasks that have not been taken, how many have been
started and which completed, what has been observed and how many stages have been deleted. -/
structure Shows (actions : List α) (frames : Multiset (Frame α)) (pool : List (ℕ × Job α))
    (spawned : ℕ) (completed : List ℕ) (log : List (Event α)) (freed : ℕ)
    (m : Memory α) (fs : Multiset (Frame α)) : Prop where
  live : liveFrames fs = frames
  pool : m.pool = pool
  spawned : m.spawned = spawned
  completed : m.completed = completed
  log : m.log = log
  stage : ∀ k, m.stages.stage k = if freed ≤ k then record actions k else none
  object : ∀ object, m.object = some object → object.first = 0
  formed : ∀ f ∈ fs, f.Formed m

namespace Shows

variable {actions : List α} {frames : Multiset (Frame α)} {pool : List (ℕ × Job α)}
  {spawned freed : ℕ} {completed : List ℕ} {log : List (Event α)} {m : Memory α} {f x y : Frame α}
  {others : Multiset (Frame α)}

/-- The only frame of the chain takes a step. -/
theorem alone (h : Shows actions {x} pool spawned completed log freed m (f ::ₘ others))
    (hf : f.isLive = true) : f = x ∧ liveFrames others = 0 := by
  have hlive := h.live
  rw [liveFrames_cons, if_pos hf] at hlive
  obtain ⟨rfl, hothers⟩ := (Multiset.singleton_eq_cons_iff _).mp hlive.symm
  exact ⟨rfl, hothers⟩

/-- One of the two frames of the chain takes a step. -/
theorem pair (h : Shows actions (x ::ₘ {y}) pool spawned completed log freed m (f ::ₘ others))
    (hf : f.isLive = true) :
    (f = x ∧ liveFrames others = {y}) ∨ (f = y ∧ liveFrames others = {x}) := by
  have hlive := h.live
  rw [liveFrames_cons, if_pos hf] at hlive
  rcases Multiset.cons_eq_cons.mp hlive with ⟨rfl, hothers⟩ | ⟨-, cs, hothers, hy⟩
  · exact Or.inl ⟨rfl, hothers⟩
  · obtain ⟨rfl, rfl⟩ := (Multiset.singleton_eq_cons_iff _).mp hy
    exact Or.inr ⟨rfl, hothers⟩

theorem not_live (h : Shows actions frames pool spawned completed log freed m (f ::ₘ others))
    (hf : f.isLive = false) : liveFrames others = frames := by
  have hlive := h.live
  rwa [liveFrames_cons, if_neg (Bool.eq_false_iff.mp hf)] at hlive

/-- What holds where the other threads are stays so. -/
theorem formed_others (h : Shows actions frames pool spawned completed log freed m (f ::ₘ others))
    {m' : Memory α} (hm : ∀ t ∈ m.completed, t ∈ m'.completed) {fs' : List (Frame α)}
    (hfs : ∀ g ∈ fs', g.Formed m') : ∀ g ∈ (fs' + others : Multiset (Frame α)), g.Formed m' := by
  intro g hg
  rcases Multiset.mem_add.mp hg with hg | hg
  · exact hfs g (Multiset.mem_coe.mp hg)
  · have hold := h.formed g (Multiset.mem_cons_of_mem hg)
    cases g with
    | done => exact hm 0 hold
    | _ => exact hold

theorem liveFrames_add (fs' : List (Frame α)) (others : Multiset (Frame α)) :
    liveFrames ((fs' : Multiset (Frame α)) + others) =
      liveFrames (fs' : Multiset (Frame α)) + liveFrames others :=
  Multiset.filter_add ..

/-- A thread that is not at work for the chain, and takes no task. -/
theorem other (h : Shows actions frames pool spawned completed log freed m (f ::ₘ others))
    (choice : ℕ) (hf : f.isLive = false) (hidle : f = .idle → m.pool[choice]? = none) :
    Shows actions frames pool spawned completed log freed (exec choice m f).1
      ((exec choice m f).2 + others) := by
  have hothers := h.not_live hf
  have hform := h.formed f (Multiset.mem_cons_self _ _)
  have key : ∀ (g : Frame α), g.isLive = false → g.Formed m →
      Shows actions frames pool spawned completed log freed m
        (([g] : List (Frame α)) + others) := by
    refine fun g hg hgf => ⟨?_, h.pool, h.spawned, h.completed, h.log, h.stage, h.object,
      h.formed_others (fun t ht => ht) fun g' hg' => ?_⟩
    · rw [Multiset.coe_singleton, Multiset.singleton_add, liveFrames_cons,
        if_neg (Bool.eq_false_iff.mp hg)]
      exact hothers
    · rwa [List.mem_singleton.mp hg']
  cases f with
  | returned t =>
    simp only [exec]
    split
    · obtain ⟨h1, h2, h3, h4, h5, h6, -, h8⟩ := key (.wait t) rfl hform
      exact ⟨h1, h2, h3, h4, h5, h6, fun o ho => (by cases ho), fun g hg => h8 g hg⟩
    · exact key (.wait t) rfl hform
  | wait t =>
    simp only [exec]
    split
    · next hc =>
      obtain rfl : t = 0 := hform
      exact key .done rfl hc
    · exact key (.wait t) rfl hform
  | done => exact key .done rfl hform
  | thrown => exact key .thrown rfl trivial
  | idle =>
    simp only [exec, hidle rfl]
    exact key .idle rfl trivial
  | terminated | undefined => exact absurd hform not_false
  | _ => cases hf

/-- The thread goes on to another program point of the chain. -/
theorem jump {rest : Multiset (Frame α)}
    (h : Shows actions frames pool spawned completed log freed m (f ::ₘ others))
    (hothers : liveFrames others = rest) {g : Frame α} (hg : g.isLive = true) :
    Shows actions (g ::ₘ rest) pool spawned completed log freed m
      (([g] : List (Frame α)) + others) := by
  refine ⟨?_, h.pool, h.spawned, h.completed, h.log, h.stage, h.object,
    h.formed_others (fun t ht => ht) fun g' hg' => ?_⟩
  · rw [Multiset.coe_singleton, Multiset.singleton_add, liveFrames_cons, if_pos hg, hothers]
  · rw [List.mem_singleton.mp hg']
    exact Frame.formed_of_live hg

theorem exec_spawn (h : Shows actions {.spawn} [] 0 [] [] 0 m (.spawn ::ₘ others)) {choice : ℕ}
    (hc : choice ≠ 1) :
    Shows actions 0 [(0, .chain)] 1 [] [] 0 (exec choice m .spawn).1
      ((exec choice m .spawn).2 + others) := by
  obtain ⟨-, hothers⟩ := h.alone rfl
  simp only [exec, if_neg hc]
  refine ⟨?_, ?_, ?_, h.completed, h.log, h.stage, h.object,
    h.formed_others (fun t ht => ht) fun g hg => ?_⟩
  · rw [liveFrames_add, hothers]
    rfl
  · simp only [Memory.start, h.pool, h.spawned, List.nil_append]
  · simp only [Memory.start, h.spawned]
  · rw [List.mem_singleton.mp hg]
    exact h.spawned

theorem exec_refused (h : Shows actions {.spawn} [] 0 [] [] 0 m (.spawn ::ₘ others)) :
    Shows actions 0 [] 0 [] [] 0 (exec 1 m .spawn).1 ((exec 1 m .spawn).2 + others) := by
  obtain ⟨-, hothers⟩ := h.alone rfl
  refine ⟨?_, h.pool, h.spawned, h.completed, h.log, h.stage, h.object,
    h.formed_others (fun t ht => ht) fun g hg => ?_⟩
  · refine (liveFrames_add [.thrown] others).trans ?_
    rw [hothers]
    rfl
  · rw [List.mem_singleton.mp hg]
    trivial

/-- A worker takes the only task there is. -/
theorem take {t u j : ℕ} {job job' : Job α} {rest : Multiset (Frame α)}
    (h : Shows actions frames [(t, job)] spawned completed log freed m (f ::ₘ others))
    (hj : m.pool[j]? = some (u, job')) (hrest : liveFrames (f ::ₘ others) = rest) :
    Shows actions (job'.frame u ::ₘ rest) [] spawned completed log freed
        { m with pool := m.pool.eraseIdx j } (([job'.frame u, f] : List (Frame α)) + others) ∧
      u = t ∧ job' = job := by
  have hpool := h.pool
  obtain ⟨hlt, hget⟩ := List.getElem?_eq_some_iff.mp hj
  obtain rfl : j = 0 := by
    rw [hpool, List.length_singleton] at hlt
    omega
  have hhead : (t, job) = (u, job') := by
    rw [← hget]
    simp only [hpool, List.getElem_cons_zero]
  obtain ⟨rfl, rfl⟩ := Prod.mk.inj hhead
  have hjob : (job.frame t).isLive = true := by cases job <;> rfl
  refine ⟨⟨?_, ?_, h.spawned, h.completed, h.log, h.stage, h.object,
    h.formed_others (fun t ht => ht) fun g hg => ?_⟩, rfl, rfl⟩
  · rw [← Multiset.cons_coe, Multiset.coe_singleton, Multiset.cons_add, Multiset.singleton_add,
      liveFrames_cons, if_pos hjob, hrest]
  · simp only [hpool, List.eraseIdx_cons_zero]
  · rcases List.mem_cons.mp hg with rfl | hg
    · exact Frame.formed_of_live hjob
    · rw [List.mem_singleton.mp hg]
      have hform := h.formed f (Multiset.mem_cons_self _ _)
      cases f <;> exact hform

theorem exec_spawnStage {k choice : ℕ} (hk : k < actions.length) (hc : choice ≠ 1)
    (h : Shows actions {.spawnStage 0 k} [] spawned completed log 0 m
      (.spawnStage 0 k ::ₘ others)) :
    Shows actions {.waitStage 0 k spawned} [(spawned, .stage actions[k])] (spawned + 1) completed
      log 0 (exec choice m (.spawnStage 0 k)).1 ((exec choice m (.spawnStage 0 k)).2 + others) := by
  obtain ⟨-, hothers⟩ := h.alone rfl
  have hstage := h.stage k
  rw [if_pos (Nat.zero_le k), record_eq hk] at hstage
  simp only [exec, hstage, if_neg hc]
  refine ⟨?_, ?_, ?_, h.completed, h.log, h.stage, h.object,
    h.formed_others (fun t ht => ht) fun g hg => ?_⟩
  · rw [liveFrames_add, hothers, h.spawned]
    rfl
  · simp only [Memory.start, h.pool, h.spawned, List.nil_append]
  · simp only [Memory.start, h.spawned]
  · rw [List.mem_singleton.mp hg]
    trivial

theorem exec_begin {t : ℕ} {action : α} {rest : Multiset (Frame α)}
    (h : Shows actions frames [] spawned completed log freed m (.begin t action ::ₘ others))
    (hothers : liveFrames others = rest) (choice : ℕ) :
    Shows actions (.act t action ::ₘ rest) [] spawned completed (log ++ [.began action]) freed
      (exec choice m (.begin t action)).1 ((exec choice m (.begin t action)).2 + others) := by
  refine ⟨?_, h.pool, h.spawned, h.completed, ?_, h.stage, h.object,
    h.formed_others (fun t ht => ht) fun g hg => ?_⟩
  · refine (liveFrames_add [.act t action] others).trans ?_
    rw [hothers]
    rfl
  · change m.log ++ [.began action] = _
    rw [h.log]
  · rw [List.mem_singleton.mp hg]
    trivial

/-- A task is completed. -/
theorem complete {t : ℕ} {e : Event α} {rest : Multiset (Frame α)}
    (h : Shows actions frames [] spawned completed log freed m (f ::ₘ others))
    (hothers : liveFrames others = rest) :
    Shows actions rest [] spawned (completed ++ [t]) (log ++ [e]) freed (m.complete t e)
      (([] : List (Frame α)) + others) := by
  refine ⟨?_, h.pool, h.spawned, ?_, ?_, h.stage, h.object,
    h.formed_others (fun t ht => List.mem_append_left _ ht) fun g hg => ?_⟩
  · rw [liveFrames_add, hothers]
    exact zero_add _
  · change m.completed ++ [t] = _
    rw [h.completed]
  · change m.log ++ [e] = _
    rw [h.log]
  · cases hg

theorem exec_deleteStage {j : ℕ} {next : Option ℕ}
    (h : Shows actions {.deleteStage 0 j next} [] spawned completed log j m
      (.deleteStage 0 j next ::ₘ others)) (choice : ℕ) :
    Shows actions {.delete 0 next} [] spawned completed (log ++ [.freed j]) (j + 1)
      (exec choice m (.deleteStage 0 j next)).1
      ((exec choice m (.deleteStage 0 j next)).2 + others) := by
  obtain ⟨-, hothers⟩ := h.alone rfl
  refine ⟨?_, h.pool, h.spawned, h.completed, ?_, fun k => ?_, h.object,
    h.formed_others (fun t ht => ht) fun g hg => ?_⟩
  · refine (liveFrames_add [.delete 0 next] others).trans ?_
    rw [hothers]
    rfl
  · change m.log ++ [.freed j] = _
    rw [h.log]
  · change Function.update m.stages.stage j none k = _
    by_cases hk : k = j
    · rw [hk, Function.update_self, if_neg (by omega)]
    · rw [Function.update_of_ne hk, h.stage]
      split_ifs <;> first | rfl | omega
  · rw [List.mem_singleton.mp hg]
    trivial

end Shows

/-- The states of a run of a chain: what has been observed is always the beginning of what is
expected, and one thread at a time goes on. -/
inductive Reached (actions : List α) (m : Memory α) (fs : Multiset (Frame α)) : Prop
  | boot (h : Shows actions {.spawn} [] 0 [] [] 0 m fs)
  | refused (ht : .thrown ∈ fs) (h : Shows actions 0 [] 0 [] [] 0 m fs)
  | queued (h : Shows actions 0 [(0, .chain)] 1 [] [] 0 m fs)
  | entered (h : Shows actions {.enter 0} [] 1 [] [] 0 m fs)
  | looping (k : ℕ) (hk : k ≤ actions.length)
    (h : Shows actions {.loop 0 (link actions k)} [] (k + 1) (List.range' 1 k)
      (trace (actions.take k)) 0 m fs)
  | spawning (k : ℕ) (hk : k < actions.length)
    (h : Shows actions {.spawnStage 0 k} [] (k + 1) (List.range' 1 k)
      (trace (actions.take k)) 0 m fs)
  | waiting (k : ℕ) (hk : k < actions.length)
    (h : Shows actions {.waitStage 0 k (k + 1)} [(k + 1, .stage actions[k])] (k + 2)
      (List.range' 1 k) (trace (actions.take k)) 0 m fs)
  | beginning (k : ℕ) (hk : k < actions.length)
    (h : Shows actions (.begin (k + 1) actions[k] ::ₘ {.waitStage 0 k (k + 1)}) [] (k + 2)
      (List.range' 1 k) (trace (actions.take k)) 0 m fs)
  | acting (k : ℕ) (hk : k < actions.length)
    (h : Shows actions (.act (k + 1) actions[k] ::ₘ {.waitStage 0 k (k + 1)}) [] (k + 2)
      (List.range' 1 k) (trace (actions.take k) ++ [.began actions[k]]) 0 m fs)
  | waited (k : ℕ) (hk : k < actions.length)
    (h : Shows actions {.waitStage 0 k (k + 1)} [] (k + 2) (List.range' 1 (k + 1))
      (trace (actions.take (k + 1))) 0 m fs)
  | passing (k : ℕ) (hk : k < actions.length)
    (h : Shows actions {.next 0 k} [] (k + 2) (List.range' 1 (k + 1))
      (trace (actions.take (k + 1))) 0 m fs)
  | enteringDelete
    (h : Shows actions {.enterDelete 0} [] (actions.length + 1) (List.range' 1 actions.length)
      (trace actions) 0 m fs)
  | deleting (j : ℕ) (hj : j ≤ actions.length)
    (h : Shows actions {.delete 0 (link actions j)} [] (actions.length + 1)
      (List.range' 1 actions.length) (trace actions ++ frees j) j m fs)
  | deletingStage (j : ℕ) (hj : j < actions.length)
    (h : Shows actions {.deleteStage 0 j (link actions (j + 1))} [] (actions.length + 1)
      (List.range' 1 actions.length) (trace actions ++ frees j) j m fs)
  | finishing
    (h : Shows actions {.finish 0} [] (actions.length + 1) (List.range' 1 actions.length)
      (trace actions ++ frees actions.length) actions.length m fs)
  | finished
    (h : Shows actions 0 [] (actions.length + 1) (List.range' 1 actions.length ++ [0])
      (expected actions) actions.length m fs)

namespace Reached

variable {actions : List α} {m : Memory α} {f : Frame α} {fs others : Multiset (Frame α)}

/-- A thread that is not at work for the chain can only take a task of it. -/
theorem exec_other (h : Reached actions m (f ::ₘ others)) (choice : ℕ) (hf : f.isLive = false) :
    Reached actions (exec choice m f).1 ((exec choice m f).2 + others) := by
  have hnone : m.pool = [] → f = .idle → m.pool[choice]? = none := fun hpool _ => by
    rw [hpool]
    rfl
  cases h with
  | boot h => exact .boot (h.other choice hf (hnone h.pool))
  | refused ht h =>
    refine .refused ?_ (h.other choice hf (hnone h.pool))
    rcases Multiset.mem_cons.mp ht with rfl | ht
    · exact Multiset.mem_add.mpr (Or.inl (List.mem_singleton_self _))
    · exact Multiset.mem_add.mpr (Or.inr ht)
  | queued h =>
    by_cases htake : f = .idle → m.pool[choice]? = none
    · exact .queued (h.other choice hf htake)
    · obtain ⟨rfl, hsome⟩ := Classical.not_imp.mp htake
      obtain ⟨⟨u, job⟩, hx⟩ := Option.ne_none_iff_exists'.mp hsome
      obtain ⟨hnew, rfl, rfl⟩ := h.take hx h.live
      simp only [exec, hx]
      exact .entered hnew
  | entered h => exact .entered (h.other choice hf (hnone h.pool))
  | looping k hk h => exact .looping k hk (h.other choice hf (hnone h.pool))
  | spawning k hk h => exact .spawning k hk (h.other choice hf (hnone h.pool))
  | waiting k hk h =>
    by_cases htake : f = .idle → m.pool[choice]? = none
    · exact .waiting k hk (h.other choice hf htake)
    · obtain ⟨rfl, hsome⟩ := Classical.not_imp.mp htake
      obtain ⟨⟨u, job⟩, hx⟩ := Option.ne_none_iff_exists'.mp hsome
      obtain ⟨hnew, rfl, rfl⟩ := h.take hx h.live
      simp only [exec, hx]
      exact .beginning k hk hnew
  | beginning k hk h => exact .beginning k hk (h.other choice hf (hnone h.pool))
  | acting k hk h => exact .acting k hk (h.other choice hf (hnone h.pool))
  | waited k hk h => exact .waited k hk (h.other choice hf (hnone h.pool))
  | passing k hk h => exact .passing k hk (h.other choice hf (hnone h.pool))
  | enteringDelete h => exact .enteringDelete (h.other choice hf (hnone h.pool))
  | deleting j hj h => exact .deleting j hj (h.other choice hf (hnone h.pool))
  | deletingStage j hj h => exact .deletingStage j hj (h.other choice hf (hnone h.pool))
  | finishing h => exact .finishing (h.other choice hf (hnone h.pool))
  | finished h => exact .finished (h.other choice hf (hnone h.pool))

/-- Who waits for a stage that is not completed, and finds no task, goes on waiting. -/
theorem exec_waitStage {t p u choice : ℕ} (hu : u ∉ m.completed)
    (hpool : choice ≠ 0 → m.pool = []) :
    exec choice m (.waitStage t p u) = (m, [.waitStage t p u]) := by
  cases choice with
  | zero => simp only [exec, if_neg hu]
  | succ j =>
    have hnone : m.pool[j]? = none := by
      rw [hpool (Nat.succ_ne_zero j)]
      rfl
    simp only [exec, hnone]

theorem not_mem_range' (k : ℕ) : k + 1 ∉ List.range' 1 k := by
  rw [List.mem_range'_1]
  omega

theorem range'_succ_concat (k : ℕ) : List.range' 1 (k + 1) = List.range' 1 k ++ [k + 1] := by
  rw [List.range'_1_concat, Nat.add_comm 1 k]

/-- A step of the chain itself. -/
theorem exec_live (hpos : 0 < actions.length) (h : Reached actions m (f ::ₘ others))
    {choice t : ℕ} (hf : f.isLive = true) (hg : Outlives t choice f m (f ::ₘ others)) :
    Reached actions (exec choice m f).1 ((exec choice m f).2 + others) := by
  have hstay : Reached actions m (([f] : List (Frame α)) + others) := by
    rwa [Multiset.coe_singleton, Multiset.singleton_add]
  have hread : m.object.isSome = true → (∀ object, m.object = some object → object.first = 0) →
      m.readFirst choice = some 0 := fun hsome hfirst => by
    obtain ⟨object, hobject⟩ := Option.isSome_iff_exists.mp hsome
    simp only [Memory.readFirst, hobject, hfirst object hobject]
  cases h with
  | boot h =>
    obtain ⟨rfl, -⟩ := h.alone hf
    by_cases hc : choice = 1
    · rw [hc]
      exact .refused (Multiset.mem_add.mpr (Or.inl (List.mem_singleton_self _))) h.exec_refused
    · exact .queued (h.exec_spawn hc)
  | refused _ h | queued h | finished h =>
    have hlive := h.live
    rw [liveFrames_cons, if_pos hf] at hlive
    exact absurd hlive (Multiset.cons_ne_zero)
  | entered h =>
    obtain ⟨rfl, hothers⟩ := h.alone hf
    simp only [exec, hread hg h.object]
    refine .looping 0 (Nat.zero_le _) ?_
    rw [link_eq_some hpos]
    exact h.jump hothers rfl
  | looping k hk h =>
    obtain ⟨rfl, hothers⟩ := h.alone hf
    rcases Nat.lt_or_eq_of_le hk with hlt | rfl
    · rw [link_eq_some hlt]
      exact .spawning k hlt (h.jump hothers rfl)
    · rw [link_length]
      refine .enteringDelete ?_
      have hnew := h.jump hothers (g := .enterDelete 0) rfl
      rwa [List.take_length] at hnew
  | spawning k hk h =>
    obtain ⟨rfl, -⟩ := h.alone hf
    exact .waiting k hk (h.exec_spawnStage hk hg)
  | waiting k hk h =>
    obtain ⟨rfl, hothers⟩ := h.alone hf
    have hnot : k + 1 ∉ m.completed := h.completed ▸ not_mem_range' k
    cases choice with
    | zero =>
      rw [exec_waitStage hnot fun hc => absurd rfl hc]
      exact hstay
    | succ j =>
      cases hj : m.pool[j]? with
      | none =>
        simp only [exec, hj]
        exact hstay
      | some x =>
        obtain ⟨u, job⟩ := x
        obtain ⟨hnew, rfl, rfl⟩ := h.take hj h.live
        simp only [exec, hj]
        exact .beginning k hk hnew
  | beginning k hk h =>
    have hnot : k + 1 ∉ m.completed := h.completed ▸ not_mem_range' k
    rcases h.pair hf with ⟨rfl, hothers⟩ | ⟨rfl, hothers⟩
    · exact .acting k hk (h.exec_begin hothers choice)
    · rw [exec_waitStage hnot fun _ => h.pool]
      exact hstay
  | acting k hk h =>
    have hnot : k + 1 ∉ m.completed := h.completed ▸ not_mem_range' k
    rcases h.pair hf with ⟨rfl, hothers⟩ | ⟨rfl, hothers⟩
    · refine .waited k hk ?_
      have hnew := h.complete (t := k + 1) (e := .ended actions[k]) hothers
      rwa [← range'_succ_concat, ← trace_take_succ hk] at hnew
    · rw [exec_waitStage hnot fun _ => h.pool]
      exact hstay
  | waited k hk h =>
    obtain ⟨rfl, hothers⟩ := h.alone hf
    have hmem : k + 1 ∈ m.completed := by
      rw [h.completed, range'_succ_concat]
      exact List.mem_append_right _ (List.mem_singleton_self _)
    cases choice with
    | zero =>
      simp only [exec, if_pos hmem]
      exact .passing k hk (h.jump hothers rfl)
    | succ j =>
      have hnone : m.pool[j]? = none := by
        rw [h.pool]
        rfl
      simp only [exec, hnone]
      exact hstay
  | passing k hk h =>
    obtain ⟨rfl, hothers⟩ := h.alone hf
    have hstage := h.stage k
    rw [if_pos (Nat.zero_le k), record_eq hk] at hstage
    simp only [exec, hstage]
    exact .looping (k + 1) hk (h.jump hothers rfl)
  | enteringDelete h =>
    obtain ⟨rfl, hothers⟩ := h.alone hf
    simp only [exec, hread hg h.object]
    refine .deleting 0 (Nat.zero_le _) ?_
    have hnone : trace actions ++ frees 0 = trace actions := List.append_nil _
    rw [link_eq_some hpos, hnone]
    exact h.jump hothers rfl
  | deleting j hj h =>
    obtain ⟨rfl, hothers⟩ := h.alone hf
    rcases Nat.lt_or_eq_of_le hj with hlt | rfl
    · have hstage := h.stage j
      rw [if_pos (Nat.le_refl j), record_eq hlt] at hstage
      rw [link_eq_some hlt]
      simp only [exec, hstage]
      exact .deletingStage j hlt (h.jump hothers rfl)
    · rw [link_length]
      exact .finishing (h.jump hothers rfl)
  | deletingStage j hj h =>
    obtain ⟨rfl, -⟩ := h.alone hf
    refine .deleting (j + 1) hj ?_
    have hnew := h.exec_deleteStage choice
    rwa [List.append_assoc, ← frees_succ] at hnew
  | finishing h =>
    obtain ⟨rfl, hothers⟩ := h.alone hf
    exact .finished (h.complete hothers)

/-- What has been observed is the beginning of what is expected. -/
theorem log_isPrefix (h : Reached actions m fs) : m.log <+: expected actions := by
  have hall : trace actions <+: expected actions := by
    rw [expected, List.append_assoc]
    exact List.prefix_append ..
  have htake : ∀ k, trace (actions.take k) <+: trace actions := fun k => by
    obtain ⟨rest, hrest⟩ := List.take_prefix k actions
    refine ⟨trace rest, ?_⟩
    rw [trace, trace, ← List.flatMap_append, hrest]
    rfl
  have hfrees : ∀ j ≤ actions.length, trace actions ++ frees j <+: expected actions :=
    fun j hj => by
      have hrange : List.range j <+: List.range actions.length := by
        have htake := List.take_prefix j (List.range actions.length)
        rwa [List.take_range, Nat.min_eq_left hj] at htake
      refine List.IsPrefix.trans ?_ (List.prefix_append ..)
      exact (List.prefix_append_right_inj _).mpr (hrange.map _)
  cases h with
  | boot h | refused _ h | queued h | entered h => exact h.log ▸ List.nil_prefix
  | looping k hk h | spawning k hk h | waiting k hk h | beginning k hk h =>
    exact h.log ▸ (htake k).trans hall
  | acting k hk h =>
    refine h.log ▸ List.IsPrefix.trans ?_ ((htake (k + 1)).trans hall)
    rw [trace_take_succ hk]
    exact List.prefix_append ..
  | waited k hk h | passing k hk h => exact h.log ▸ (htake (k + 1)).trans hall
  | enteringDelete h => exact h.log ▸ hall
  | deleting j hj h => exact h.log ▸ hfrees j hj
  | deletingStage j hj h => exact h.log ▸ hfrees j hj.le
  | finishing h => exact h.log ▸ hfrees _ (Nat.le_refl _)
  | finished h => exact h.log ▸ List.prefix_rfl

/-- When the task of the chain is completed, everything has been observed and no stage is left. -/
theorem over_of_completed (h : Reached actions m fs) (hc : 0 ∈ m.completed) :
    m.log = expected actions ∧ ∀ k, m.stages.stage k = none := by
  have hstages : ∀ k, 0 ∉ List.range' 1 k := fun k hmem => by
    have hle := (List.mem_range'_1.mp hmem).1
    omega
  cases h with
  | boot h | refused _ h | queued h | entered h =>
    rw [h.completed] at hc
    exact absurd hc List.not_mem_nil
  | looping k hk h | spawning k hk h | waiting k hk h | beginning k hk h | acting k hk h
    | waited k hk h | passing k hk h | deleting k hk h | deletingStage k hk h =>
    rw [h.completed] at hc
    exact absurd hc (hstages _)
  | enteringDelete h | finishing h =>
    rw [h.completed] at hc
    exact absurd hc (hstages _)
  | finished h =>
    refine ⟨h.log, fun k => ?_⟩
    rw [h.stage]
    split
    · next hk => rw [record, List.getElem?_eq_none hk, Option.map_none]
    · rfl

/-- A chain that has been spawned and is not completed never gets stuck: there is a task to take,
or a thread that works for the chain and does not wait. -/
theorem goes_on (h : Reached actions m fs) (hc : 0 ∉ m.completed) (ht : .thrown ∉ fs) :
    m.pool ≠ [] ∨
      ∃ f ∈ fs, f.isLive = true ∧ ∀ t p u, f = .waitStage t p u → u ∈ m.completed := by
  have key : ∀ {pool spawned completed log freed} {f : Frame α} {rest : Multiset (Frame α)},
      Shows actions (f ::ₘ rest) pool spawned completed log freed m fs →
      (∀ t p u, f = .waitStage t p u → u ∈ m.completed) →
      ∃ f ∈ fs, f.isLive = true ∧ ∀ t p u, f = .waitStage t p u → u ∈ m.completed := by
    intro pool spawned completed log freed f rest h hwait
    have hmem : f ∈ liveFrames fs := h.live ▸ Multiset.mem_cons_self _ _
    obtain ⟨hfs, hf⟩ := Multiset.mem_filter.mp hmem
    exact ⟨f, hfs, hf, hwait⟩
  cases h with
  | refused hthrown _ => exact absurd hthrown ht
  | finished h =>
    rw [h.completed] at hc
    exact absurd (List.mem_append_right _ (List.mem_singleton_self 0)) hc
  | queued h | waiting k hk h =>
    left
    rw [h.pool]
    exact List.cons_ne_nil _ _
  | waited k hk h =>
    right
    apply key h
    intro t p u he
    cases he
    rw [h.completed, range'_succ_concat]
    exact List.mem_append_right _ (List.mem_singleton_self _)
  | boot h | entered h | looping _ _ h | spawning _ _ h | beginning _ _ h | acting _ _ h
    | passing _ _ h | enteringDelete h | deleting _ _ h | deletingStage _ _ h | finishing h =>
    right
    apply key h
    intro t p u he
    cases he

theorem formed (h : Reached actions m fs) : ∀ f ∈ fs, f.Formed m := by
  cases h with
  | boot h | refused _ h | queued h | entered h | looping _ _ h | spawning _ _ h | waiting _ _ h
    | beginning _ _ h | acting _ _ h | waited _ _ h | passing _ _ h | enteringDelete h
    | deleting _ _ h | deletingStage _ _ h | finishing h | finished h => exact h.formed

end Reached

theorem reached_preserved {actions : List α} (hpos : 0 < actions.length) :
    Preserves code Outlives (Reached actions) := by
  intro t choice f m others h hg
  cases hf : f.isLive with
  | false => exact h.exec_other choice hf
  | true => exact h.exec_live hpos hf hg

theorem reached_boot (action : α) (actions : List α) (workers : ℕ) :
    Reached (action :: actions) (boot action actions workers).mem
      (boot action actions workers).frames := by
  obtain ⟨hstage, -, hobject⟩ := chain_eq action actions
  have hframes : (boot action actions workers).frames =
      .spawn ::ₘ Multiset.replicate workers .idle := State.frames_boot ..
  rw [hframes]
  refine .boot ⟨?_, rfl, rfl, rfl, rfl, fun k => ?_, fun object ho => ?_, fun f hf => ?_⟩
  · have hidle : liveFrames (Multiset.replicate workers (Frame.idle : Frame α)) = 0 :=
      Multiset.filter_eq_nil.mpr fun f hf => by
        rw [Multiset.eq_of_mem_replicate hf]
        exact Bool.false_ne_true
    rw [liveFrames_cons, hidle]
    rfl
  · exact (hstage k).trans (if_pos (Nat.zero_le k)).symm
  · obtain rfl : (chain action actions).2 = object := Option.some.inj ho
    rw [hobject]
  · rcases Multiset.mem_cons.mp hf with rfl | hf
    · trivial
    · rw [Multiset.eq_of_mem_replicate hf]
      trivial

/-- While the object outlives the reads of its first stage and every stage can be started, the
actions are executed in order, each after the one before has ended, and then each stage is deleted;
no stage is read that is not there, and no exception leaves the task. When the task that `Spawn`
has returned is completed, each of this has happened, once, and before, something is left that can
go on. -/
theorem stages_in_order (action : α) (actions : List α) (workers : ℕ) (es : List (ℕ × ℕ))
    (h : Always code Outlives (boot action actions workers) es) :
    let s := run code (boot action actions workers) es
    s.mem.log <+: expected (action :: actions) ∧
      .undefined ∉ s.frames ∧ .terminated ∉ s.frames ∧
      (.done ∈ s.frames → 0 ∈ s.mem.completed) ∧
        (0 ∈ s.mem.completed →
          s.mem.log = expected (action :: actions) ∧ ∀ k, s.mem.stages.stage k = none) ∧
        (0 ∉ s.mem.completed → .thrown ∉ s.frames → s.mem.pool ≠ [] ∨
          ∃ f ∈ s.frames, f.isLive = true ∧
            ∀ t p u, f = .waitStage t p u → u ∈ s.mem.completed) := by
  intro s
  have hpos : 0 < (action :: actions).length := Nat.succ_pos _
  have hs : Reached (action :: actions) s.mem s.frames :=
    (reached_preserved hpos).run h (reached_boot action actions workers)
  exact ⟨hs.log_isPrefix, fun hmem => hs.formed _ hmem, fun hmem => hs.formed _ hmem,
    fun hmem => hs.formed _ hmem, hs.over_of_completed, hs.goes_on⟩

/-- Two stages; the object is destroyed when the task is completed. -/
def awaited : List (ℕ × ℕ) :=
  [(0, 0)] ++ List.replicate 4 (1, 0) ++ [(1, 1)] ++ List.replicate 6 (1, 0) ++ [(1, 1)] ++
    List.replicate 12 (1, 0) ++ List.replicate 2 (0, 0)

instance decidableOutlives (t choice : ℕ) (f : Frame α) (m : Memory α)
    (fs : Multiset (Frame α)) : Decidable (Outlives t choice f m fs) :=
  match f with
  | .enter _ | .enterDelete _ => inferInstanceAs (Decidable (m.object.isSome = true))
  | .spawnStage _ _ => inferInstanceAs (Decidable (choice ≠ 1))
  | .spawn | .returned _ | .wait _ | .done | .thrown | .idle | .loop _ _ | .waitStage _ _ _
    | .next _ _ | .delete _ _ | .deleteStage _ _ _ | .finish _ | .begin _ _ | .act _ _
    | .terminated | .undefined => isTrue trivial

theorem stages_in_order_two :
    (run code (boot 7 [8] 1) awaited).mem.log =
      [.began 7, .ended 7, .began 8, .ended 8, .freed 0, .freed 1, .completed] :=
  ((stages_in_order 7 [8] 1 awaited (by decide +kernel)).2.2.2.2.1 (by decide +kernel)).1

/-- The object is destroyed as soon as `Spawn` has returned, before a worker takes the task. Where
its first stage was, the task finds null: it completes, and the action has not been executed. -/
theorem stages_skipped :
    let s := run code (boot 7 [] 1) ([(0, 0), (0, 0)] ++ List.replicate 6 (1, 0) ++ [(0, 0)])
    .done ∈ s.frames ∧ 0 ∈ s.mem.completed ∧ s.mem.log = [.completed] ∧
      (s.mem.stages.stage 0).isSome = true := by
  decide +kernel

end Embb.Tasks.Continuation
