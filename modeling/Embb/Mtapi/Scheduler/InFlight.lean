import Embb.Mtapi.Scheduler.Placement

/-!
# Instances in flight

An instance is in flight for an action from the moment its push is counted until a
worker has counted it as finished. Each program point holds at most one instance;
which ones enter and leave this collection is read off here, independently of what
the counters of the actions say.
-/

namespace Embb.Mtapi

open Threads

/-- A retained task that is scheduled again is an instance taken from a queue. -/
def ScheduleCaller.held (caller : ScheduleCaller) (a : Handle) : List Handle :=
  match caller with
  | .start .. => []
  | .retained => [a]

/-- The action of the instance that a program point holds: the one its task names
until the worker has fetched it, and the fetched one from then on. -/
def Frame.inFlight (n : Node) : Frame → List Handle
  | .workerQueue p | .workerSwitch p _ | .workerContext p _ | .workerCancelled p _
  | .workerCancelledTodo p _ | .helperContext p => [(n.task p).action]
  | .executeRunning ctx | .executeAction ctx _ => [(n.task ctx.task).action]
  | .executeCheck _ a | .actionFunction _ a | .executeTodo _ a | .executeCompleted _ a
  | .executeNumTasks _ a _ => [a]
  | .schedule p _ caller | .scheduleAffinity p _ _ caller | .scheduleCount p _ _ _ caller =>
    caller.held (n.task p).action
  | .scheduleAffine _ a _ _ | .scheduleSearch _ _ a _ _ | .schedulePush _ _ _ a _
  | .scheduleUndo _ a _ => [a]
  | _ => []

/-- The actions of all instances in flight. -/
def inFlight (n : Node) (fs : Multiset Frame) : Multiset Handle :=
  n.queued.map (fun p => (n.task p).action) + fs.bind fun f => (f.inFlight n : Multiset Handle)

/-- The program points where an instance enters the collection, leaves it, or moves
between a queue and a thread. -/
def Frame.movesInstance : Frame → Bool
  | .workerScan (_ :: _) | .helperScan (_ :: _) | .workerSwitch .. | .workerCancelledTodo ..
  | .executeAction .. | .executeNumTasks .. | .schedule .. | .scheduleCount ..
  | .schedulePush .. | .scheduleUndo .. => true
  | _ => false

theorem Frame.movesEntry_of_movesInstance {f : Frame} (h : f.movesInstance = false) :
    f.movesEntry = false := by
  unfold Frame.movesEntry
  split
  all_goals first | rfl | cases h

theorem Frame.inFlight_of_refs (n : Node) {f : Frame} (h : f.refs = []) : f.inFlight n = [] := by
  unfold Frame.inFlight
  split
  all_goals first | rfl | cases h

theorem Frame.inFlight_congr {n m : Node} {f : Frame}
    (h : ∀ p ∈ f.refs, (m.task p).action = (n.task p).action) : f.inFlight m = f.inFlight n := by
  unfold Frame.inFlight
  split
  all_goals first
    | rfl
    | rw [h _ (List.mem_singleton_self _)]

theorem inFlight_contextResume (n : Node) (ctx : Context) (done : Bool) :
    (ctx.resume done).flatMap (Frame.inFlight n) = [] :=
  flatMap_contextResume (fun _ _ => rfl) (fun _ => rfl) ctx done

theorem inFlight_scheduleResume (n : Node) (caller : ScheduleCaller) (p : Ptr) (pushed : Bool) :
    (caller.resume p pushed).flatMap (Frame.inFlight n) = [] :=
  flatMap_scheduleResume (fun _ _ _ _ => rfl) (fun _ => rfl) caller p pushed

theorem inFlight_executeTaskOrYield (m n : Node) (t : Nat) (back : Frame) :
    (n.executeTaskOrYield t back).flatMap (Frame.inFlight m) = back.inFlight m := by
  apply flatMap_executeTaskOrYield
  intro rs
  exact Frame.inFlight_of_refs m rfl

/-- All other program points keep the instance they hold. -/
theorem exec_inFlight_of_keeps (t : Nat) (c : Choice) {f : Frame} (n m : Node)
    (h : f.movesInstance = false) :
    (exec t c f n).2.flatMap (Frame.inFlight m) = f.inFlight m := by
  fun_cases exec t c f n
  all_goals first
    | rfl
    | exact inFlight_contextResume _ _ _
    | exact inFlight_executeTaskOrYield _ _ _ _
    | exact inFlight_scheduleResume _ _ _ _
    | exact List.append_nil _
    | cases h; done
    | rw [List.flatMap_cons, Frame.inFlight_of_refs _ (refs_entry _ _)]
      rfl
    | rw [List.flatMap_cons, Frame.inFlight_of_refs _ (refs_deleteResume _)]
      rfl
    | rw [List.flatMap_cons, Frame.inFlight_of_refs _ (refs_visitorResume _ _ _)]
      rfl

/-- The instance that a program point counts for the first time. -/
def Frame.enters : Frame → List Handle
  | .scheduleCount _ _ a _ (.start ..) => [a]
  | _ => []

/-- The instance that a program point finishes or drops. -/
def Frame.leaves (n : Node) : Frame → List Handle
  | .executeNumTasks _ a _ | .scheduleUndo _ a _ => [a]
  | .workerCancelledTodo p _ => [(n.task p).action]
  | .workerSwitch p _ =>
    match (n.task p).state with
    | .scheduled | .running | .retained | .cancelled => []
    | _ => [(n.task p).action]
  | .executeAction ctx _ =>
    if n.actionPool.isHandleValid (n.task ctx.task).action then []
    else [(n.task ctx.task).action]
  | .schedule p _ caller =>
    if n.actionPool.isHandleValid (n.task p).action then []
    else caller.held (n.task p).action
  | _ => []

/-- The task and the action that a schedule call works with once it has fetched the
action. -/
def Frame.schedules : Frame → List (Ptr × Ptr)
  | .scheduleAffinity p _ a _ | .scheduleCount p _ a _ _ | .scheduleAffine p a _ _
  | .scheduleSearch p _ a _ _ | .schedulePush p _ _ a _ => [(p, a)]
  | _ => []

theorem inFlight_cons (n : Node) (f : Frame) (fs : Multiset Frame) :
    inFlight n (f ::ₘ fs) = (f.inFlight n : Multiset Handle) + inFlight n fs := by
  rw [inFlight, inFlight, Multiset.cons_bind, add_left_comm]

theorem inFlight_add (n : Node) (fs : List Frame) (others : Multiset Frame) :
    inFlight n (fs + others) =
      (fs.flatMap (Frame.inFlight n) : List Handle) + inFlight n others := by
  rw [inFlight, inFlight, Multiset.add_bind, Multiset.coe_bind, add_left_comm]

/-- What a program point holds depends on the task slots it refers to. -/
theorem inFlight_congr {n m : Node} {fs : Multiset Frame} (hq : m.queued = n.queued)
    (h : ∀ p ∈ references n fs, (m.task p).action = (n.task p).action) :
    inFlight m fs = inFlight n fs := by
  rw [inFlight, inFlight, hq]
  congr 1
  · exact Multiset.map_congr rfl fun p hp => h p (Multiset.mem_add.mpr (Or.inl hp))
  · refine Multiset.bind_congr fun f hf => ?_
    rw [Frame.inFlight_congr fun p hp => h p (mem_references_of_mem hf hp)]

theorem Frame.fresh_of_movesInstance {f : Frame} (h : ¬ f.movesInstance = false) :
    f.fresh = [] := by
  unfold Frame.movesInstance at h
  split at h
  all_goals first | rfl | exact absurd rfl h

theorem Frame.inFlight_of_fresh (n : Node) {f : Frame} {p : Ptr} (h : p ∈ f.fresh) :
    f.inFlight n = [] := by
  unfold Frame.fresh at h
  split at h
  all_goals first | rfl | exact absurd h List.not_mem_nil

theorem Frame.movesInstance_cases {f : Frame} (h : ¬ f.movesInstance = false) :
    (∃ r rest, f = .workerScan (r :: rest)) ∨ (∃ r rest, f = .helperScan (r :: rest)) ∨
      (∃ p ii isPrivate a caller, f = .schedulePush p ii isPrivate a caller) ∨
      (∃ p lq, f = .workerSwitch p lq) ∨ (∃ p lq, f = .workerCancelledTodo p lq) ∨
      (∃ ctx todo, f = .executeAction ctx todo) ∨
      (∃ ctx a todo, f = .executeNumTasks ctx a todo) ∨
      (∃ p ii caller, f = .schedule p ii caller) ∨
      (∃ p ii a affinity caller, f = .scheduleCount p ii a affinity caller) ∨
      ∃ p a caller, f = .scheduleUndo p a caller := by
  unfold Frame.movesInstance at h
  split at h
  all_goals first | exact absurd rfl h | simp

theorem Frame.enters_of_keeps {f : Frame} (h : f.movesInstance = false) : f.enters = [] := by
  unfold Frame.enters
  split
  · cases h
  · rfl

theorem Frame.leaves_of_keeps (n : Node) {f : Frame} (h : f.movesInstance = false) :
    f.leaves n = [] := by
  unfold Frame.leaves
  split
  all_goals first | rfl | cases h

section Balance

variable {t : Nat} {c : Choice} {f : Frame} {n : Node} {others : Multiset Frame}

/-- What a step does to the instances of the other threads and of the queues, when no
entry is moved. -/
theorem inFlight_others (h : TasksOwned n (f ::ₘ others))
    (hg : deletesUnreferenced t c f n (f ::ₘ others))
    (hu : (exec t c f n).1.movesEntry = false) :
    inFlight (code t c f n).1 others = inFlight n others :=
  inFlight_congr (n.queued_of_keeps hu) fun _ hp =>
    congrArg (fun x => x.2.2.2.2) (h.placement_others hg hp)

/-- A scan for work moves an instance from its queue to the thread. -/
theorem inFlight_pop (h : TasksOwned n (f ::ₘ others))
    (hg : deletesUnreferenced t c f n (f ::ₘ others)) {r : QueueRef} {p : Ptr}
    (hp : (n.workerQueue r).pop.2 = some p) (hu : (exec t c f n).1 = .pop r) :
    inFlight n others = (n.task p).action ::ₘ inFlight (code t c f n).1 others ∧
      ((code t c f n).1.task p).action = (n.task p).action := by
  have hq : n.queued = p ::ₘ (code t c f n).1.queued := by
    rw [code, hu]
    exact Node.queued_pop h.confined hp
  have hstay : ∀ q ∈ references n others,
      ((code t c f n).1.task q).action = (n.task q).action := fun q hm =>
    congrArg (fun x => x.2.2.2.2) (h.placement_others hg hm)
  have hmem : ∀ q ∈ p ::ₘ (code t c f n).1.queued, q ∈ references n others := fun q hm =>
    Multiset.mem_add.mpr (Or.inl (hq ▸ hm))
  refine ⟨?_, hstay p (hmem p (Multiset.mem_cons_self _ _))⟩
  rw [inFlight, inFlight, hq, Multiset.map_cons, Multiset.cons_add]
  congr 2
  · exact (Multiset.map_congr rfl fun q hm =>
      hstay q (hmem q (Multiset.mem_cons_of_mem hm))).symm
  · refine (Multiset.bind_congr fun g hgm => ?_).symm
    rw [Frame.inFlight_congr fun q hm => hstay q (mem_references_of_mem hgm hm)]

/-- A push moves an instance from the thread to its queue. -/
theorem inFlight_push (h : TasksOwned n (f ::ₘ others))
    (hg : deletesUnreferenced t c f n (f ::ₘ others)) {r : QueueRef} {p : Ptr}
    (hr : r ∈ n.processOrder) (hp : ((n.workerQueue r).push p).2 = true)
    (hu : (exec t c f n).1 = .push r p) (hf : f.refs = [p]) (hf' : f.fresh = []) :
    inFlight (code t c f n).1 others = (n.task p).action ::ₘ inFlight n others := by
  have hq : (code t c f n).1.queued = p ::ₘ n.queued := by
    rw [code, hu]
    exact Node.queued_push hr hp
  have hstay : ∀ q ∈ references n (f ::ₘ others),
      ((code t c f n).1.task q).action = (n.task q).action := fun q hm =>
    congrArg (fun x => x.2.2.2.2) (h.placement_exec hg hm (by rw [hf']; exact List.not_mem_nil))
  have hsub : ∀ q ∈ references n others, q ∈ references n (f ::ₘ others) := fun q hm => by
    rw [references_cons]
    exact Multiset.mem_add.mpr (Or.inr hm)
  have hself : p ∈ references n (f ::ₘ others) :=
    mem_references_of_mem (Multiset.mem_cons_self f others) (by rw [hf]; simp)
  rw [inFlight, inFlight, hq, Multiset.map_cons, Multiset.cons_add, hstay p hself]
  congr 2
  · exact Multiset.map_congr rfl fun q hm =>
      hstay q (hsub q (Multiset.mem_add.mpr (Or.inl hm)))
  · refine Multiset.bind_congr fun g hgm => ?_
    rw [Frame.inFlight_congr fun q hm => hstay q (hsub q (mem_references_of_mem hgm hm))]

/-- A step that moves no entry balances if what its frames hold balances. -/
theorem inFlight_of_stays (h : TasksOwned n (f ::ₘ others))
    (hg : deletesUnreferenced t c f n (f ::ₘ others)) (hf : f.movesTask = false)
    (hfr : f.fresh = [])
    (he : (f.inFlight n : Multiset Handle) + f.enters =
      ((exec t c f n).2.flatMap (Frame.inFlight n) : List Handle) +
        (f.leaves n : Multiset Handle)) :
    inFlight n (f ::ₘ others) + f.enters =
      inFlight (code t c f n).1 ((code t c f n).2 + others) + f.leaves n := by
  have hu := exec_movesEntry_of_keeps t c n (Frame.movesEntry_of_movesTask hf)
  have hstay : ∀ g ∈ (exec t c f n).2,
      g.inFlight (code t c f n).1 = g.inFlight n := by
    intro g hgm
    refine Frame.inFlight_congr fun p hp => ?_
    have hpf : p ∈ f.refs := by
      have hm : p ∈ (exec t c f n).2.flatMap Frame.refs := List.mem_flatMap.mpr ⟨g, hgm, hp⟩
      rcases exec_refs_of_keeps t c n hf with hr | hr
      · exact hr ▸ hm
      · exact absurd (hr ▸ hm) List.not_mem_nil
    refine congrArg (fun x => x.2.2.2.2) (h.placement_exec hg
      (mem_references_of_mem (Multiset.mem_cons_self f others) hpf) ?_)
    rw [hfr]
    exact List.not_mem_nil
  have hout : (code t c f n).2.flatMap (Frame.inFlight (code t c f n).1) =
      (exec t c f n).2.flatMap (Frame.inFlight n) := List.flatMap_congr hstay
  rw [inFlight_cons, inFlight_add, inFlight_others h hg hu, hout, add_right_comm, he,
    add_right_comm]

theorem inFlight_pass {f' : Frame} (h : TasksOwned n (f ::ₘ others))
    (hg : deletesUnreferenced t c f n (f ::ₘ others)) (he : exec t c f n = (.read, [f']))
    (hf : f.inFlight n = []) (hf' : f'.inFlight n = []) :
    inFlight n (f ::ₘ others) = inFlight (code t c f n).1 ((code t c f n).2 + others) := by
  rw [inFlight_cons, inFlight_add, inFlight_others h hg (by rw [he]; rfl), code, he, hf]
  change _ = ([f'].flatMap (Frame.inFlight n) : Multiset Handle) + _
  rw [List.flatMap_singleton, hf']

/-- An instance that is taken goes from its worker queue to the thread. -/
theorem inFlight_take {f' : Frame} {r : QueueRef} {p : Ptr} (h : TasksOwned n (f ::ₘ others))
    (hg : deletesUnreferenced t c f n (f ::ₘ others)) (hp : (n.workerQueue r).pop.2 = some p)
    (he : exec t c f n = (.pop r, [f'])) (hf : f.inFlight n = [])
    (hf' : ∀ n : Node, f'.inFlight n = [(n.task p).action]) :
    inFlight n (f ::ₘ others) = inFlight (code t c f n).1 ((code t c f n).2 + others) := by
  obtain ⟨hi, hself⟩ := inFlight_pop h hg hp (by rw [he])
  rw [inFlight_cons, inFlight_add, hi, hf]
  simp only [code, he] at hself ⊢
  rw [List.flatMap_singleton, hf', hself, Multiset.coe_nil, zero_add, Multiset.coe_singleton,
    Multiset.singleton_add]

/-- A scan for work keeps the instances in flight. -/
theorem inFlight_scan (h : TasksOwned n (f ::ₘ others))
    (hg : deletesUnreferenced t c f n (f ::ₘ others))
    (hf : (∃ r rest, f = .workerScan (r :: rest)) ∨ ∃ r rest, f = .helperScan (r :: rest)) :
    inFlight n (f ::ₘ others) =
      inFlight (code t c f n).1 ((code t c f n).2 + others) := by
  obtain ⟨r, rest, rfl⟩ | ⟨r, rest, rfl⟩ := hf
  · rcases (exec_scan t c r rest n).1 with he | ⟨p, hp, he⟩
    · exact inFlight_pass h hg he rfl rfl
    · exact inFlight_take h hg hp he rfl fun n => rfl
  · rcases (exec_scan t c r rest n).2 with he | ⟨p, hp, he⟩
    · exact inFlight_pass h hg he rfl rfl
    · exact inFlight_take h hg hp he rfl fun n => rfl

/-- A push step keeps the instances in flight. -/
theorem inFlight_schedulePush {p : Ptr} {ii : Nat} {isPrivate : Bool} {a : Ptr}
    {caller : ScheduleCaller} (hf : f = .schedulePush p ii isPrivate a caller)
    (h : TasksOwned n (f ::ₘ others)) (hg : deletesUnreferenced t c f n (f ::ₘ others))
    (hs : (n.task p).action = a) :
    inFlight n (f ::ₘ others) =
      inFlight (code t c f n).1 ((code t c f n).2 + others) := by
  subst hf
  rw [inFlight_cons, inFlight_add]
  rcases exec_schedulePush t c p ii isPrivate a caller n with he | he | ⟨r, hr, hp, he⟩
  · rw [inFlight_others h hg (by rw [he]; rfl), code, he]
    rfl
  · rw [inFlight_others h hg (by rw [he]; rfl), code, he]
    rfl
  · rw [inFlight_push h hg hr hp (by rw [he]) rfl rfl]
    simp only [code, he]
    rw [inFlight_scheduleResume, hs, Multiset.coe_nil, zero_add, ← Multiset.singleton_add]
    rfl

/-- Instances in flight are only entered by the first count of a push, and only left
where a worker finishes or drops one. -/
theorem inFlight_exec (h : TasksOwned n (f ::ₘ others))
    (hg : deletesUnreferenced t c f n (f ::ₘ others))
    (hs : ∀ p a, (p, a) ∈ f.schedules → (n.task p).action = a) :
    inFlight n (f ::ₘ others) + f.enters =
      inFlight (code t c f n).1 ((code t c f n).2 + others) + f.leaves n := by
  by_cases hf : f.movesInstance = false
  · have hu := exec_movesEntry_of_keeps t c n (Frame.movesEntry_of_movesInstance hf)
    have hself : f.inFlight (code t c f n).1 = f.inFlight n := by
      by_cases hfr : f.fresh = []
      · refine Frame.inFlight_congr fun p hp => ?_
        refine congrArg (fun x => x.2.2.2.2) (h.placement_exec hg
          (mem_references_of_mem (Multiset.mem_cons_self f others) hp) ?_)
        rw [hfr]
        exact List.not_mem_nil
      · obtain ⟨p, hp⟩ := List.exists_mem_of_ne_nil _ hfr
        rw [Frame.inFlight_of_fresh _ hp, Frame.inFlight_of_fresh _ hp]
    have hout := exec_inFlight_of_keeps t c n (code t c f n).1 hf
    rw [inFlight_cons, inFlight_add, inFlight_others h hg hu, Frame.enters_of_keeps hf,
      Frame.leaves_of_keeps n hf, ← hself, ← hout]
    rfl
  · have hfr := Frame.fresh_of_movesInstance hf
    obtain ⟨r, rest, rfl⟩ | ⟨r, rest, rfl⟩ | ⟨p, ii, isPrivate, a, caller, rfl⟩ | ⟨p, lq, rfl⟩ |
      ⟨p, lq, rfl⟩ | ⟨ctx, todo, rfl⟩ | ⟨ctx, a, todo, rfl⟩ | ⟨p, ii, caller, rfl⟩ |
      ⟨p, ii, a, affinity, caller, rfl⟩ | ⟨p, a, caller, rfl⟩ := Frame.movesInstance_cases hf
    · rw [inFlight_scan h hg (Or.inl ⟨r, rest, rfl⟩)]
      rfl
    · rw [inFlight_scan h hg (Or.inr ⟨r, rest, rfl⟩)]
      rfl
    · rw [inFlight_schedulePush rfl h hg (hs p a (List.mem_singleton_self _))]
      rfl
    · refine inFlight_of_stays h hg rfl hfr ?_
      simp only [exec, Frame.leaves]
      cases (n.task p).state <;> rfl
    · refine inFlight_of_stays h hg rfl hfr ?_
      simp only [exec]
      split <;> [split; skip] <;> rfl
    · refine inFlight_of_stays h hg rfl hfr ?_
      simp only [exec, Frame.leaves]
      split <;> rfl
    · refine inFlight_of_stays h hg rfl hfr ?_
      have hr := inFlight_contextResume n ctx false
      simp only [exec]
      split
      · rfl
      · rw [hr]
        rfl
    · refine inFlight_of_stays h hg rfl hfr ?_
      have hr := inFlight_scheduleResume n caller p false
      simp only [exec, Frame.leaves]
      split
      · rw [List.flatMap_cons, List.flatMap_nil, List.append_nil]
        rfl
      · rw [hr]
        exact (add_zero _).trans (zero_add _).symm
    · refine inFlight_of_stays h hg rfl hfr ?_
      have ha := hs p a (List.mem_singleton_self _)
      simp only [exec]
      cases caller <;> split <;> simp [Frame.inFlight, Frame.enters, Frame.leaves,
        ScheduleCaller.held, ha]
    · refine inFlight_of_stays h hg rfl hfr ?_
      have hr := inFlight_scheduleResume n caller p false
      simp only [exec]
      rw [hr]
      rfl

end Balance

end Embb.Mtapi
