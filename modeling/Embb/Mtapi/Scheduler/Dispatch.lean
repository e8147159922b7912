import Embb.Mtapi.Scheduler.Tally

/-!
# Taking tasks from the worker queues

What a thread has in hand between taking a task from a worker queue and the end of its
instance, how far a start call has come with pushing instances, and which frames belong
to the main loop of a worker, where nothing lies below them on the stack.
-/

namespace Embb.Mtapi

open Threads

/-- The retained task that is about to be put back. -/
def ScheduleCaller.hand (caller : ScheduleCaller) (p : Ptr) : List (Bool × Ptr) :=
  match caller with
  | .start .. => []
  | .retained => [(false, p)]

/-- The task that was taken from a worker queue and whose instance is not over, and
whether its execution has begun. -/
def Frame.hand : Frame → List (Bool × Ptr)
  | .workerQueue p | .workerSwitch p _ | .workerContext p _ | .workerCancelled p _
  | .workerCancelledTodo p _ | .helperContext p => [(false, p)]
  | .executeRunning ctx => [(false, ctx.task)]
  | .executeAction ctx _ | .executeCheck ctx _ | .actionFunction ctx _ | .executeTodo ctx _
  | .executeCompleted ctx _ | .executeNumTasks ctx _ _ | .executeDeleted ctx _
  | .executeError ctx _ | .executeGroup ctx | .executeGroupPush ctx _ => [(true, ctx.task)]
  | .schedule p _ caller | .scheduleAffinity p _ _ caller | .scheduleCount p _ _ _ caller
  | .scheduleAffine p _ _ caller | .scheduleSearch p _ _ _ caller
  | .schedulePush p _ _ _ caller | .scheduleUndo p _ caller => caller.hand p
  | _ => []

theorem Frame.mem_refs_of_mem_hand {f : Frame} {b : Bool} {p : Ptr} (h : (b, p) ∈ f.hand) :
    p ∈ f.refs ∧ f.fresh = [] := by
  unfold Frame.hand at h
  split at h
  all_goals first
    | exact absurd h List.not_mem_nil
    | exact ⟨List.mem_singleton.mpr (Prod.mk.inj (List.mem_singleton.mp h)).2, rfl⟩
    | rename_i caller
      cases caller with
      | start => exact absurd h List.not_mem_nil
      | retained =>
        exact ⟨List.mem_singleton.mpr (Prod.mk.inj (List.mem_singleton.mp h)).2, rfl⟩

theorem Frame.hand_of_refs {f : Frame} (h : f.refs = []) : f.hand = [] :=
  Frame.eq_nil_of_refs (fun _ hx => (mem_refs_of_mem_hand hx).1) h

theorem hand_contextResume (ctx : Context) (done : Bool) :
    (ctx.resume done).flatMap Frame.hand = [] :=
  flatMap_contextResume (fun _ _ => rfl) (fun _ => rfl) ctx done

theorem hand_scheduleResume (caller : ScheduleCaller) (p : Ptr) (pushed : Bool) :
    (caller.resume p pushed).flatMap Frame.hand = [] :=
  flatMap_scheduleResume (fun _ _ _ _ => rfl) (fun _ => rfl) caller p pushed

theorem hand_executeTaskOrYield (n : Node) (t : Nat) {back : Frame} (h : back.refs = []) :
    (n.executeTaskOrYield t back).flatMap Frame.hand = [] := by
  rw [flatMap_executeTaskOrYield fun _ => rfl, Frame.hand_of_refs h]

/-- A thread keeps what it has in hand, is done with it, takes a task from a queue, or
begins with the task it has taken. -/
theorem exec_hand (t : Nat) (c : Choice) (f : Frame) (n : Node) :
    (exec t c f n).2.flatMap Frame.hand = f.hand ∨
      (exec t c f n).2.flatMap Frame.hand = [] ∨
      (∃ r rest p, (f = .workerScan (r :: rest) ∨ f = .helperScan (r :: rest)) ∧
        (n.workerQueue r).pop.2 = some p ∧ (exec t c f n).1 = .pop r ∧
        (exec t c f n).2.flatMap Frame.hand = [(false, p)]) ∨
      ∃ ctx, f = .executeRunning ctx ∧
        (exec t c f n).2.flatMap Frame.hand = [(true, ctx.task)] := by
  fun_cases exec t c f n
  all_goals first
    | exact Or.inl rfl
    | exact Or.inr (Or.inl rfl)
    | exact Or.inr (Or.inl (hand_contextResume _ _))
    | exact Or.inr (Or.inl (hand_executeTaskOrYield _ _ rfl))
    | exact Or.inr (Or.inl (hand_scheduleResume _ _ _))
    | exact Or.inl (List.append_nil _)
    | rw [List.flatMap_cons, Frame.hand_of_refs (refs_entry _ _)]
      exact Or.inl rfl
    | rw [List.flatMap_cons, Frame.hand_of_refs (refs_deleteResume _)]
      exact Or.inr (Or.inl rfl)
    | rw [List.flatMap_cons, Frame.hand_of_refs (refs_visitorResume _ _ _)]
      exact Or.inr (Or.inl rfl)
    | exact Or.inr (Or.inr (Or.inl ⟨_, _, _, Or.inl rfl, by assumption, rfl, rfl⟩))
    | exact Or.inr (Or.inr (Or.inl ⟨_, _, _, Or.inr rfl, by assumption, rfl, rfl⟩))
    | exact Or.inr (Or.inr (Or.inr ⟨_, rfl, rfl⟩))

/-- How many instances of its task a start call has tried to push. -/
def ScheduleCaller.progress (caller : ScheduleCaller) (p : Ptr) : List (Ptr × Nat) :=
  match caller with
  | .start _ kk _ => [(p, kk)]
  | .retained => []

/-- A start call that has instances left to push, and how many it has tried to push. -/
def Frame.progress : Frame → List (Ptr × Nat)
  | .startInit _ p | .startGroup _ p | .startGroupCount _ p | .startQueue _ p
  | .startQueueCount _ p | .startChoose _ p _ _ | .startChooseLoad _ p _ _ _ _
  | .startAction _ p _ | .startSchedule _ p => [(p, 0)]
  | .startInstances call p kk _ =>
    if kk < call.attributes.numInstances then [(p, kk)] else []
  | .schedule p _ caller | .scheduleAffinity p _ _ caller | .scheduleCount p _ _ _ caller
  | .scheduleAffine p _ _ caller | .scheduleSearch p _ _ _ caller
  | .schedulePush p _ _ _ caller | .scheduleUndo p _ caller => caller.progress p
  | _ => []

theorem Frame.mem_refs_of_mem_progress {f : Frame} {p : Ptr} {kk : Nat}
    (h : (p, kk) ∈ f.progress) : p ∈ f.refs := by
  have hone : ∀ {x : Nat} {q : Ptr}, (p, kk) ∈ [(q, x)] → p ∈ [q] := fun hm =>
    List.mem_singleton.mpr (Prod.mk.inj (List.mem_singleton.mp hm)).1
  unfold Frame.progress at h
  split at h
  all_goals first
    | exact absurd h List.not_mem_nil
    | exact hone h
    | split at h
      · exact hone h
      · exact absurd h List.not_mem_nil
    | rename_i caller
      cases caller with
      | start => exact hone h
      | retained => exact absurd h List.not_mem_nil

theorem Frame.progress_of_refs {f : Frame} (h : f.refs = []) : f.progress = [] :=
  Frame.eq_nil_of_refs (fun _ hx => mem_refs_of_mem_progress hx) h

theorem Frame.mem_progress_of_mem_fresh {f : Frame} {p : Ptr} (h : p ∈ f.fresh) :
    (p, 0) ∈ f.progress := by
  unfold Frame.fresh at h
  split at h
  all_goals first
    | exact absurd h List.not_mem_nil
    | rw [List.mem_singleton.mp h]
      exact List.mem_singleton_self _

theorem progress_contextResume (ctx : Context) (done : Bool) :
    (ctx.resume done).flatMap Frame.progress = [] :=
  flatMap_contextResume (fun _ _ => rfl) (fun _ => rfl) ctx done

theorem progress_executeTaskOrYield (n : Node) (t : Nat) {back : Frame} (h : back.refs = []) :
    (n.executeTaskOrYield t back).flatMap Frame.progress = [] := by
  rw [flatMap_executeTaskOrYield fun _ => rfl, Frame.progress_of_refs h]

/-- When a push is over, the start call goes on with the next instance or is through. -/
theorem progress_scheduleResume (caller : ScheduleCaller) (p : Ptr) (pushed : Bool) :
    (caller.resume p pushed).flatMap Frame.progress = [] ∨
      ∃ kk, caller.progress p = [(p, kk)] ∧
        (caller.resume p pushed).flatMap Frame.progress = [(p, kk + 1)] := by
  cases caller with
  | start call kk was =>
    by_cases hk : kk + 1 < call.attributes.numInstances
    · refine Or.inr ⟨kk, rfl, ?_⟩
      simp only [ScheduleCaller.resume, List.flatMap_cons, List.flatMap_nil, Frame.progress, hk,
        ↓reduceIte, List.append_nil]
    · left
      simp only [ScheduleCaller.resume, List.flatMap_cons, List.flatMap_nil, Frame.progress, hk,
        ↓reduceIte, List.append_nil]
  | retained => exact Or.inl rfl

/-- A start call stays where it is, is through, goes on to the next instance, or begins. -/
theorem exec_progress (t : Nat) (c : Choice) (f : Frame) (n : Node)
    (ha : ∀ call p kk was, f = .startInstances call p kk was →
      (n.task p).attributes = call.attributes) :
    ((exec t c f n).2.flatMap Frame.progress = f.progress ∧
        ∀ r p, (exec t c f n).1 = .push r p → f.progress = []) ∨
      (exec t c f n).2.flatMap Frame.progress = [] ∨
      (∃ p kk, f.progress = [(p, kk)] ∧
        (exec t c f n).2.flatMap Frame.progress = [(p, kk + 1)]) ∨
      ∃ p, n.taskPool.allocate.2 = some p ∧ (exec t c f n).1 = .taskAllocate ∧
        (exec t c f n).2.flatMap Frame.progress = [(p, 0)] := by
  fun_cases exec t c f n
  all_goals first
    | exact Or.inl ⟨rfl, fun _ _ h => by cases h⟩
    | exact Or.inl ⟨List.append_nil _, fun _ _ h => by cases h⟩
    | exact Or.inr (Or.inl rfl)
    | exact Or.inr (Or.inl (progress_contextResume _ _))
    | exact Or.inr (Or.inl (progress_executeTaskOrYield _ _ rfl))
    | exact (progress_scheduleResume _ _ _).elim (fun h => Or.inr (Or.inl h))
        fun h => h.elim fun kk h => Or.inr (Or.inr (Or.inl ⟨_, kk, h⟩))
    | exact Or.inr (Or.inr (Or.inr ⟨_, by assumption, rfl, rfl⟩))
    | rw [List.flatMap_cons, Frame.progress_of_refs (refs_entry _ _)]
      exact Or.inr (Or.inl rfl)
    | rw [List.flatMap_cons, Frame.progress_of_refs (refs_deleteResume _)]
      exact Or.inr (Or.inl rfl)
    | rw [List.flatMap_cons, Frame.progress_of_refs (refs_visitorResume _ _ _)]
      exact Or.inr (Or.inl rfl)
    | rename_i hk
      refine Or.inl ⟨?_, fun _ _ h => by cases h⟩
      rw [ha _ _ _ _ rfl] at hk
      rw [Frame.progress, if_pos hk]
      rfl
    | simp only [List.flatMap_cons, List.flatMap_nil, Frame.progress, List.append_nil]
      split
      · exact Or.inl ⟨rfl, fun _ _ h => by cases h⟩
      · exact Or.inr (Or.inl rfl)

/-- Work that is not over lies in a worker queue, in a hand, or with its start call. -/
theorem Frame.hand_or_progress_of_work {f : Frame} {s : Stage} {p : Ptr} (h : (s, p) ∈ f.work)
    (hs : s ≠ .notifying) : (∃ b, (b, p) ∈ f.hand) ∨ ∃ kk, (p, kk) ∈ f.progress := by
  have hone : ∀ {x : Stage} {q : Ptr}, (s, p) ∈ [(x, q)] → p = q := fun hm =>
    (Prod.mk.inj (List.mem_singleton.mp hm)).2
  have hrep : ∀ {k : Nat} {q : Ptr}, (s, p) ∈ List.replicate k (Stage.waiting, q) →
      k ≠ 0 ∧ p = q := fun hm =>
    ⟨(List.mem_replicate.mp hm).1, (Prod.mk.inj (List.mem_replicate.mp hm).2).2⟩
  have hcaller : ∀ {caller : ScheduleCaller} {q : Ptr},
      (s, p) ∈ (Stage.waiting, q) :: caller.rest q →
        (∃ b, (b, p) ∈ caller.hand q) ∨ ∃ kk, (p, kk) ∈ caller.progress q := by
    intro caller q hm
    have hp : p = q := by
      rcases List.mem_cons.mp hm with hm | hm
      · exact (Prod.mk.inj hm).2
      · cases caller with
        | start call kk was => exact (hrep hm).2
        | retained => exact absurd hm List.not_mem_nil
    subst hp
    cases caller with
    | start call kk was => exact Or.inr ⟨kk, List.mem_singleton_self _⟩
    | retained => exact Or.inl ⟨false, List.mem_singleton_self _⟩
  unfold Frame.work at h
  split at h
  all_goals first
    | exact absurd h List.not_mem_nil
    | exact hcaller h
    | rw [(hrep h).2]
      exact Or.inr ⟨0, List.mem_singleton_self _⟩
    | rw [hone h]
      exact Or.inl ⟨_, List.mem_singleton_self _⟩
    | skip
  · rename_i call q kk was
    obtain ⟨hk, rfl⟩ := hrep h
    refine Or.inr ⟨kk, ?_⟩
    rw [Frame.progress, if_pos (by omega)]
    exact List.mem_singleton_self _
  · split at h
    · rw [hone h]
      exact Or.inl ⟨_, List.mem_singleton_self _⟩
    · exact absurd h List.not_mem_nil
  · split at h
    · rw [hone h]
      exact Or.inl ⟨_, List.mem_singleton_self _⟩
    · exact absurd h List.not_mem_nil
  · split at h
    · rw [hone h]
      exact Or.inl ⟨_, List.mem_singleton_self _⟩
    · exact absurd h List.not_mem_nil
  · rw [(Prod.mk.inj (List.mem_singleton.mp h)).1] at hs
    exact absurd rfl hs

/-- The frames of the main loop of a worker, below which nothing lies. -/
def Frame.mainLoop : Frame → Bool
  | .worker | .workerScan _ | .workerQueue _ | .workerSwitch .. | .workerContext ..
  | .workerFinished .. | .workerCancelled .. | .workerCancelledTodo .. | .workerCallback _ => true
  | .executeRunning ctx | .executeAction ctx _ | .executeCheck ctx _ | .actionFunction ctx _
  | .executeTodo ctx _ | .executeCompleted ctx _ | .executeNumTasks ctx _ _
  | .executeDeleted ctx _ | .executeError ctx _ | .executeGroup ctx | .executeGroupPush ctx _ =>
    decide (ctx.by' ≠ .helper)
  | .schedule _ _ caller | .scheduleAffinity _ _ _ caller | .scheduleCount _ _ _ _ caller
  | .scheduleAffine _ _ _ caller | .scheduleSearch _ _ _ _ caller
  | .schedulePush _ _ _ _ caller | .scheduleUndo _ _ caller => decide (caller = .retained)
  | _ => false

theorem mainLoop_entry (n : Node) (call : Call) : (n.entry call).mainLoop = false := by
  cases call <;> rfl

theorem mainLoop_deleteResume (caller : DeleteCaller) : caller.resume.mainLoop = false := by
  cases caller <;> rfl

theorem mainLoop_visitorResume (v : Visitor) (n : Node) (finite : Bool) :
    (v.resume n finite).mainLoop = false := by
  apply apply_visitorResume <;> intros <;> rfl

theorem mainLoop_executeTaskOrYield (n : Node) (t : Nat) {back : Frame}
    (h : back.mainLoop = false) : ∀ f ∈ n.executeTaskOrYield t back, f.mainLoop = false := by
  intro f hf
  rcases Node.mem_executeTaskOrYield hf with ⟨rs, rfl⟩ | rfl
  · rfl
  · exact h

theorem mainLoop_contextResume (ctx : Context) (done : Bool) :
    (∀ f ∈ ctx.resume done, ctx.by' ≠ .helper) ∧
      ∀ f ∈ (ctx.resume done).dropLast, f.mainLoop = false := by
  rcases ctx with ⟨lq | _, p, i, m⟩
  · refine ⟨fun _ _ => nofun, ?_⟩
    cases lq with
    | none => exact fun f hf => absurd hf List.not_mem_nil
    | some q => cases done <;> exact fun f hf => absurd hf List.not_mem_nil
  · exact ⟨fun f hf => absurd hf List.not_mem_nil, fun f hf => absurd hf List.not_mem_nil⟩

theorem mainLoop_scheduleResume (caller : ScheduleCaller) (p : Ptr) (pushed : Bool) :
    (∀ f ∈ caller.resume p pushed, f.mainLoop = true → caller = .retained) ∧
      ∀ f ∈ (caller.resume p pushed).dropLast, f.mainLoop = false := by
  cases caller with
  | start call kk was =>
    refine ⟨fun f hf h => ?_, fun f hf => absurd hf List.not_mem_nil⟩
    rw [List.mem_singleton.mp hf] at h
    cases h
  | retained => exact ⟨fun _ _ _ => rfl, fun f hf => absurd hf List.not_mem_nil⟩

/-- The main loop goes on in its own frame, and what it calls lies above it. -/
theorem exec_mainLoop (t : Nat) (c : Choice) (f : Frame) (n : Node) :
    (∀ f' ∈ (exec t c f n).2, f'.mainLoop = true → f.mainLoop = true) ∧
      ∀ f' ∈ (exec t c f n).2.dropLast, f'.mainLoop = false := by
  have hone : ∀ {x : Frame}, (∀ f' ∈ [x], f'.mainLoop = true → x.mainLoop = true) ∧
      ∀ f' ∈ [x].dropLast, f'.mainLoop = false := by
    intro x
    refine ⟨fun f' hf h => ?_, fun f' hf => absurd hf List.not_mem_nil⟩
    rwa [List.mem_singleton.mp hf] at h
  have hcall : ∀ {x y : Frame}, x.mainLoop = false →
      (∀ f' ∈ [x, y], f'.mainLoop = true → y.mainLoop = true) ∧
        ∀ f' ∈ [x, y].dropLast, f'.mainLoop = false := by
    intro x y hx
    refine ⟨fun f' hf h => ?_, fun f' hf => ?_⟩
    · rcases List.mem_cons.mp hf with rfl | hf
      · rw [hx] at h
        cases h
      · rwa [List.mem_singleton.mp hf] at h
    · rwa [List.mem_singleton.mp hf]
  have hfalse : ∀ {fs : List Frame} {b : Bool}, (∀ f' ∈ fs, f'.mainLoop = false) →
      (∀ f' ∈ fs, f'.mainLoop = true → b = true) ∧ ∀ f' ∈ fs.dropLast, f'.mainLoop = false := by
    intro fs b hfs
    refine ⟨fun f' hf h => ?_, fun f' hf => hfs f' (List.mem_of_mem_dropLast hf)⟩
    rw [hfs f' hf] at h
    cases h
  have hctx : ∀ {ctx : Context} {done b : Bool}, b = decide (ctx.by' ≠ .helper) →
      (∀ f' ∈ ctx.resume done, f'.mainLoop = true → b = true) ∧
        ∀ f' ∈ (ctx.resume done).dropLast, f'.mainLoop = false := by
    intro ctx done b hb
    obtain ⟨h1, h2⟩ := mainLoop_contextResume ctx done
    exact ⟨fun f' hf _ => hb ▸ decide_eq_true (h1 f' hf), h2⟩
  have hsched : ∀ {caller : ScheduleCaller} {p : Ptr} {pushed b : Bool},
      b = decide (caller = .retained) →
      (∀ f' ∈ caller.resume p pushed, f'.mainLoop = true → b = true) ∧
        ∀ f' ∈ (caller.resume p pushed).dropLast, f'.mainLoop = false := by
    intro caller p pushed b hb
    obtain ⟨h1, h2⟩ := mainLoop_scheduleResume caller p pushed
    exact ⟨fun f' hf h => hb ▸ decide_eq_true (h1 f' hf h), h2⟩
  fun_cases exec t c f n
  all_goals first
    | exact hone
    | exact ⟨fun _ _ _ => rfl, fun f' hf => absurd hf List.not_mem_nil⟩
    | exact hcall (mainLoop_entry _ _)
    | exact ⟨fun _ _ _ => rfl, (hcall rfl).2⟩
    | exact hfalse fun f' hf => absurd hf List.not_mem_nil
    | exact hctx rfl
    | exact hsched rfl
    | exact hfalse (mainLoop_executeTaskOrYield _ _ rfl)
    | refine hfalse fun f' hf => ?_
      rw [List.mem_singleton.mp hf]
      exact mainLoop_deleteResume _
    | refine hfalse fun f' hf => ?_
      rw [List.mem_singleton.mp hf]
      exact mainLoop_visitorResume _ _ _

/-- The worker queues that a scan for work has still to look at. -/
def Frame.scans : Frame → List QueueRef
  | .workerScan rest | .helperScan rest => rest
  | _ => []

theorem scans_entry (n : Node) (call : Call) : (n.entry call).scans = [] := by
  cases call <;> rfl

theorem scans_deleteResume (caller : DeleteCaller) : caller.resume.scans = [] := by
  cases caller <;> rfl

theorem scans_visitorResume (v : Visitor) (n : Node) (finite : Bool) :
    (v.resume n finite).scans = [] := by
  apply apply_visitorResume <;> intros <;> rfl

theorem scans_contextResume (ctx : Context) (done : Bool) :
    (ctx.resume done).flatMap Frame.scans = [] :=
  flatMap_contextResume (fun _ _ => rfl) (fun _ => rfl) ctx done

theorem scans_scheduleResume (caller : ScheduleCaller) (p : Ptr) (pushed : Bool) :
    (caller.resume p pushed).flatMap Frame.scans = [] :=
  flatMap_scheduleResume (fun _ _ _ _ => rfl) (fun _ => rfl) caller p pushed

/-- A scan goes on, or a worker begins one. -/
theorem exec_scans (t : Nat) (c : Choice) (f : Frame) (n : Node) :
    (∀ r ∈ (exec t c f n).2.flatMap Frame.scans, r ∈ f.scans) ∨
      ((f.mainLoop = true ∨ t < n.workerCount) ∧
        (exec t c f n).2.flatMap Frame.scans = n.nextTask t) := by
  have hnone : ∀ {rs : List QueueRef}, ∀ r ∈ ([] : List QueueRef), r ∈ rs := fun r hr =>
    absurd hr List.not_mem_nil
  have hyield : ∀ {back : Frame} {b : Bool}, back.scans = [] →
      (∀ r ∈ (n.executeTaskOrYield t back).flatMap Frame.scans, r ∈ ([] : List QueueRef)) ∨
        ((b = true ∨ t < n.workerCount) ∧
          (n.executeTaskOrYield t back).flatMap Frame.scans = n.nextTask t) := by
    intro back b hback
    unfold Node.executeTaskOrYield
    split
    · rename_i ht
      refine Or.inr ⟨Or.inr ht, ?_⟩
      simp only [List.flatMap_cons, List.flatMap_nil, hback, List.append_nil]
      rfl
    · left
      simp only [List.flatMap_cons, List.flatMap_nil, hback, List.append_nil]
      exact hnone
  fun_cases exec t c f n
  all_goals first
    | exact Or.inl hnone
    | exact hyield rfl
    | exact Or.inr ⟨Or.inl rfl, List.append_nil _⟩
    | left
      simp only [List.flatMap_cons, List.flatMap_nil, List.append_nil, Frame.scans]
      exact fun r hr => List.mem_cons_of_mem _ hr
    | rw [scans_contextResume]
      exact Or.inl hnone
    | rw [scans_scheduleResume]
      exact Or.inl hnone
    | rw [List.flatMap_cons, scans_entry]
      exact Or.inl hnone
    | rw [List.flatMap_cons, scans_deleteResume]
      exact Or.inl hnone
    | rw [List.flatMap_cons, scans_visitorResume]
      exact Or.inl hnone

/-- A worker looks at its own private queues only. -/
theorem Node.worker_of_mem_nextTask {n : Node} {t : Nat} {r : QueueRef} (hr : r ∈ n.nextTask t)
    (hp : r.isPrivate = true) : r.worker = t := by
  unfold Node.nextTask at hr
  split at hr
  · simp only [Node.nextTaskLf, List.mem_append, List.mem_map, List.mem_flatMap] at hr
    obtain (⟨ii, -, rfl⟩ | ⟨ii, -, rfl⟩) | ⟨ii, -, other, -, rfl⟩ := hr
    · rfl
    · cases hp
    · cases hp
  · simp only [Node.nextTaskVhpf, List.mem_flatMap, List.mem_cons, List.mem_map] at hr
    obtain ⟨ii, -, rfl | rfl | ⟨other, -, rfl⟩⟩ := hr
    · rfl
    · cases hp
    · cases hp

end Embb.Mtapi
