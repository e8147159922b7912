import Embb.Mtapi.Scheduler.References

/-!
# Slot lifetime

A task slot may be given back only when nothing refers to it any more. In a run
that keeps to this, every reference names the task that occupies its slot: no
queue, no worker and no start call ever meets a slot that was given back or that
holds a later task.
-/

namespace Embb.Mtapi

open Threads

/-- All references to task slots. -/
def references (n : Node) (fs : Multiset Frame) : Multiset Ptr :=
  n.queued + fs.bind fun f => (f.refs : Multiset Ptr)

theorem references_cons (n : Node) (f : Frame) (fs : Multiset Frame) :
    references n (f ::ₘ fs) = (f.refs : Multiset Ptr) + references n fs := by
  rw [references, references, Multiset.cons_bind, add_left_comm]

theorem references_add (n : Node) (fs : List Frame) (others : Multiset Frame) :
    references n (fs + others) = (fs.flatMap Frame.refs : List Ptr) + references n others := by
  rw [references, references, Multiset.add_bind, Multiset.coe_bind, add_left_comm]

namespace Node

theorem taskIdPool_access (n : Node) {u : Access} (h : u.keepsTaskHandles = true) :
    (n.access u).taskPool.idPool = n.taskPool.idPool := by
  rw [taskPool_access n h]
  split <;> rfl

theorem taskHandle_access (n : Node) {u : Access} (h : u.keepsTaskHandles = true) (id : Nat) :
    ((n.access u).taskPool.storage id).handle = (n.taskPool.storage id).handle :=
  n.taskField_access h Task.handle id fun _ _ hu _ => Access.handle_onTask hu _

/-- A field of a task that neither an assignment nor the end of the task changes. -/
theorem taskField_keep {B : Type} (n : Node) (u : Access) (g : Task → B)
    (hg : ∀ x h, g (PoolObject.setHandle x h) = g x) (id : Nat)
    (hassign : ∀ p f, u.onTask = some (p, f) → p.id = id →
      g (f (n.taskPool.storage id)) = g (n.taskPool.storage id))
    (hdeallocate : ∀ p, u = .taskDeallocate p → p.id = id →
      g ((n.access u).taskPool.storage id) = g (n.taskPool.storage id)) :
    g ((n.access u).taskPool.storage id) = g (n.taskPool.storage id) := by
  by_cases hu : u.keepsTaskHandles = true
  · exact n.taskField_access hu g id hassign
  · cases u with
    | taskAllocate => exact n.taskPool.field_allocate g hg id
    | taskDeallocate p =>
      by_cases hid : p.id = id
      · exact hdeallocate p rfl hid
      · simp only [access, setTaskPool_taskPool]
        rw [Pool.storage_deallocate_of_ne _ _ (Ne.symm hid)]
    | _ => exact absurd rfl hu

/-- Every access leaves the task pool sound. -/
theorem taskSound_access {n : Node} (h : n.taskPool.Sound) (u : Access) :
    (n.access u).taskPool.Sound := by
  by_cases hu : u.keepsTaskHandles = true
  · exact h.congr (n.taskIdPool_access hu) (n.taskHandle_access hu)
  · cases u with
    | taskAllocate => exact Pool.sound_allocate h
    | taskDeallocate p => exact Pool.sound_deallocate h p
    | _ => exact absurd rfl hu

/-- A task stays in its slot until the slot is given back. -/
theorem live_access {n : Node} (h : n.taskPool.Sound) {u : Access} {p : Ptr}
    (hp : n.taskPool.Live p) (hu : ∀ q, u = .taskDeallocate q → p.id ≠ q.id) :
    (n.access u).taskPool.Live p := by
  by_cases hk : u.keepsTaskHandles = true
  · exact hp.congr (n.taskIdPool_access hk) (n.taskHandle_access hk p.id)
  · cases u with
    | taskAllocate => exact hp.allocate h
    | taskDeallocate q => exact hp.deallocate (hu q rfl)
    | _ => exact absurd rfl hk

end Node

/-- The program points that change the collection of references. -/
def Frame.movesTask : Frame → Bool
  | .workerScan (_ :: _) | .helperScan (_ :: _) | .schedulePush .. | .startAllocate _ => true
  | _ => false

theorem Frame.movesTask_cases {f : Frame} (h : ¬ f.movesTask = false) :
    (∃ r rest, f = .workerScan (r :: rest)) ∨ (∃ r rest, f = .helperScan (r :: rest)) ∨
      (∃ p ii isPrivate a caller, f = .schedulePush p ii isPrivate a caller) ∨
      ∃ call, f = .startAllocate call := by
  unfold Frame.movesTask at h
  split at h
  · exact Or.inl ⟨_, _, rfl⟩
  · exact Or.inr (Or.inl ⟨_, _, rfl⟩)
  · exact Or.inr (Or.inr (Or.inl ⟨_, _, _, _, _, rfl⟩))
  · exact Or.inr (Or.inr (Or.inr ⟨_, rfl⟩))
  · exact absurd rfl h

/-- All other program points work on for the same task or for none. -/
theorem exec_refs_of_keeps (t : Nat) (c : Choice) {f : Frame} (n : Node)
    (h : f.movesTask = false) :
    (exec t c f n).2.flatMap Frame.refs = f.refs ∨
      (exec t c f n).2.flatMap Frame.refs = [] := by
  fun_cases exec t c f n
  all_goals first
    | exact Or.inl rfl
    | exact Or.inr rfl
    | exact refs_contextResume _ _
    | exact Or.inl (refs_executeTaskOrYield _ _ _)
    | exact Or.inl (refs_scheduleResume _ _ _)
    | cases h; done
    | simp only [List.flatMap_cons, List.flatMap_nil, refs_entry, refs_deleteResume,
        refs_visitorResume, List.nil_append, List.append_nil, true_or, or_true]

/-- The accesses that move an entry into or out of a worker queue. -/
def Access.movesEntry : Access → Bool
  | .push _ _ | .pop _ => true
  | _ => false

theorem Node.queued_of_keeps (n : Node) {u : Access} (h : u.movesEntry = false) :
    (n.access u).queued = n.queued := by
  cases u with
  | push | pop => cases h
  | lock r held => exact n.queued_lock r held
  | _ => exact n.queued_access rfl

/-- Entries of worker queues are moved by the scans for work and by pushes. -/
theorem exec_movesEntry {t : Nat} {c : Choice} {f : Frame} {n : Node}
    (h : (exec t c f n).1.movesEntry = true) :
    (∃ r rest, f = .workerScan (r :: rest)) ∨ (∃ r rest, f = .helperScan (r :: rest)) ∨
      ∃ p ii isPrivate a caller, f = .schedulePush p ii isPrivate a caller := by
  have hi := exec_issuedBy t c f n
  cases hu : (exec t c f n).1 with
  | push r p =>
    rw [hu] at hi
    obtain ⟨-, -, ii, isPrivate, a, caller, -, hf⟩ := hi
    exact Or.inr (Or.inr ⟨p, ii, isPrivate, a, caller, hf⟩)
  | pop r =>
    rw [hu] at hi
    obtain ⟨-, rest, hf | hf⟩ := hi
    · exact Or.inl ⟨r, rest, hf⟩
    · exact Or.inr (Or.inl ⟨r, rest, hf⟩)
  | _ =>
    rw [hu] at h
    cases h

/-- The program points that can move an entry. -/
def Frame.movesEntry : Frame → Bool
  | .workerScan (_ :: _) | .helperScan (_ :: _) | .schedulePush .. => true
  | _ => false

theorem exec_movesEntry_of_keeps (t : Nat) (c : Choice) {f : Frame} (n : Node)
    (h : f.movesEntry = false) : (exec t c f n).1.movesEntry = false := by
  refine Bool.eq_false_iff.mpr fun hm => ?_
  obtain ⟨r, rest, rfl⟩ | ⟨r, rest, rfl⟩ | ⟨p, ii, isPrivate, a, caller, rfl⟩ :=
    exec_movesEntry hm <;> cases h

theorem exec_queued_of_keeps (t : Nat) (c : Choice) {f : Frame} (n : Node)
    (h : f.movesEntry = false) : (n.access (exec t c f n).1).queued = n.queued :=
  n.queued_of_keeps (exec_movesEntry_of_keeps t c n h)

theorem Frame.movesEntry_of_movesTask {f : Frame} (h : f.movesTask = false) :
    f.movesEntry = false := by
  unfold Frame.movesEntry
  split
  all_goals first | rfl | cases h

/-- What a scan for work does: it goes on, or it takes the next task of a queue. -/
theorem exec_scan (t : Nat) (c : Choice) (r : QueueRef) (rest : List QueueRef) (n : Node) :
    (exec t c (.workerScan (r :: rest)) n = (.read, [.workerScan rest]) ∨
      ∃ p, (n.workerQueue r).pop.2 = some p ∧
        exec t c (.workerScan (r :: rest)) n = (.pop r, [.workerQueue p])) ∧
    (exec t c (.helperScan (r :: rest)) n = (.read, [.helperScan rest]) ∨
      ∃ p, (n.workerQueue r).pop.2 = some p ∧
        exec t c (.helperScan (r :: rest)) n = (.pop r, [.helperContext p])) := by
  constructor
  all_goals
    simp only [exec]
    split
    · exact Or.inl rfl
    · cases hp : (n.workerQueue r).pop.2 with
      | none => exact Or.inl rfl
      | some p => exact Or.inr ⟨p, rfl, rfl⟩

/-- What a push step does: it waits for the lock, it fails, or it adds a reference. -/
theorem exec_schedulePush (t : Nat) (c : Choice) (p : Ptr) (ii : Nat) (isPrivate : Bool)
    (a : Ptr) (caller : ScheduleCaller) (n : Node) :
    exec t c (.schedulePush p ii isPrivate a caller) n =
        (.read, [.schedulePush p ii isPrivate a caller]) ∨
      exec t c (.schedulePush p ii isPrivate a caller) n = (.read, [.scheduleUndo p a caller]) ∨
      ∃ r ∈ n.processOrder, ((n.workerQueue r).push p).2 = true ∧
        exec t c (.schedulePush p ii isPrivate a caller) n =
          (.push r p, caller.resume p true) := by
  simp only [exec]
  split
  · exact Or.inl rfl
  · rename_i hr
    split
    · rename_i hp
      exact Or.inr (Or.inr ⟨_, not_not.mp (not_or.mp hr).2, hp, rfl⟩)
    · exact Or.inr (Or.inl rfl)

/-- A start call waits for nothing: it fails, or it gets a slot of its own. -/
theorem exec_startAllocate (t : Nat) (c : Choice) (call : StartCall) (n : Node) :
    (∃ u status, u.keepsQueues = true ∧
      exec t c (.startAllocate call) n = (u, [.ret status Handle.invalid])) ∨
      ∃ p, n.taskPool.allocate.2 = some p ∧
        exec t c (.startAllocate call) n = (.taskAllocate, [.startInit call p]) := by
  simp only [exec]
  split
  · cases hp : n.taskPool.allocate.2 with
    | none => exact Or.inl ⟨.taskAllocate, .errTaskLimit, rfl, rfl⟩
    | some p => exact Or.inr ⟨p, rfl, rfl⟩
  · exact Or.inl ⟨.read, .errJobInvalid, rfl, rfl⟩

/-- The reference that a push step adds. -/
def Frame.pushes : Frame → List Ptr
  | .schedulePush p _ _ _ _ => [p]
  | _ => []

/-- The reference that an access creates together with its slot. -/
def Access.allocates (n : Node) : Access → List Ptr
  | .taskAllocate => n.taskPool.allocate.2.toList
  | _ => []

/-- No reference comes from nowhere: a step adds the one that it pushes and the one
whose slot it allocates. -/
theorem references_exec_le {t : Nat} {c : Choice} {f : Frame} {n : Node}
    {others : Multiset Frame} (hn : n.Confined) :
    references (code t c f n).1 ((code t c f n).2 + others) ≤
      references n (f ::ₘ others) +
        ((f.pushes : Multiset Ptr) + ((exec t c f n).1.allocates n : Multiset Ptr)) := by
  rw [code, references_add, references_cons, references, references]
  -- the cases are split on an existential, which is less work than on an order of multisets
  apply Multiset.le_iff_exists_add.mpr
  by_cases hf : f.movesTask = false
  · rw [exec_queued_of_keeps t c n (Frame.movesEntry_of_movesTask hf)]
    rcases exec_refs_of_keeps t c n hf with hr | hr
    all_goals
      apply Multiset.le_iff_exists_add.mp
      refine le_trans (add_le_add_left ?_ _) (Multiset.le_add_right _ _)
      rw [hr]
    exact Multiset.zero_le _
  · obtain ⟨r, rest, rfl⟩ | ⟨r, rest, rfl⟩ | ⟨q, ii, isPrivate, a, caller, rfl⟩ | ⟨call, rfl⟩ :=
      Frame.movesTask_cases hf
    · rcases (exec_scan t c r rest n).1 with he | ⟨q, hq, he⟩
      all_goals
        apply Multiset.le_iff_exists_add.mp
        refine le_trans ?_ (Multiset.le_add_right _ _)
      · rw [he]
        exact le_rfl
      · rw [he, Node.queued_pop hn hq, Multiset.cons_add]
        exact le_of_eq (zero_add _).symm
    · rcases (exec_scan t c r rest n).2 with he | ⟨q, hq, he⟩
      all_goals
        apply Multiset.le_iff_exists_add.mp
        refine le_trans ?_ (Multiset.le_add_right _ _)
      · rw [he]
        exact le_rfl
      · rw [he, Node.queued_pop hn hq, Multiset.cons_add]
        exact le_of_eq (zero_add _).symm
    · rcases exec_schedulePush t c q ii isPrivate a caller n with he | he | ⟨r, hr, hq, he⟩
      all_goals apply Multiset.le_iff_exists_add.mp
      · rw [he]
        exact Multiset.le_add_right _ _
      · rw [he]
        exact Multiset.le_add_right _ _
      · rw [he, refs_scheduleResume, Node.queued_push hr hq, Multiset.cons_add]
        generalize n.queued + _ = queued
        change ([q] : Multiset Ptr) + ([q] + queued) ≤ [q] + queued + ([q] + 0)
        rw [add_zero, add_assoc, add_comm queued]
    · rcases exec_startAllocate t c call n with ⟨u, status, hu, he⟩ | ⟨q, hq, he⟩
      all_goals apply Multiset.le_iff_exists_add.mp
      · rw [he, Node.queued_access n hu]
        exact Multiset.le_add_right _ _
      · have ha : Access.taskAllocate.allocates n = [q] := by
          rw [Access.allocates, hq, Option.toList_some]
        rw [he, Node.queued_access n rfl, ha]
        generalize n.queued + _ = queued
        change ([q] : Multiset Ptr) + queued ≤ 0 + queued + (0 + [q])
        rw [zero_add, zero_add, add_comm]

theorem Frame.mem_refs_of_mem_pushes {f : Frame} {p : Ptr} (h : p ∈ f.pushes) : p ∈ f.refs := by
  unfold Frame.pushes at h
  split at h
  · exact h
  · exact absurd h List.not_mem_nil

/-- Every reference after a step was there before, or the step allocated its slot. -/
theorem mem_references_exec {t : Nat} {c : Choice} {f : Frame} {n : Node}
    {others : Multiset Frame} (hn : n.Confined) {p : Ptr}
    (hp : p ∈ references (code t c f n).1 ((code t c f n).2 + others)) :
    p ∈ references n (f ::ₘ others) ∨
      (n.taskPool.allocate.2 = some p ∧ (exec t c f n).1 = .taskAllocate) := by
  rcases Multiset.mem_add.mp (Multiset.mem_of_le (references_exec_le hn) hp) with h | h
  · exact Or.inl h
  rcases Multiset.mem_add.mp h with h | h
  · rw [references_cons]
    exact Or.inl (Multiset.mem_add.mpr (Or.inl (Frame.mem_refs_of_mem_pushes h)))
  · right
    cases hu : (exec t c f n).1 with
    | taskAllocate =>
      rw [hu] at h
      exact ⟨Option.mem_toList.mp h, rfl⟩
    | _ =>
      rw [hu] at h
      exact absurd h List.not_mem_nil

/-- The state of a run in which every reference names the task in its slot. -/
structure SlotsOwned (n : Node) (fs : Multiset Frame) : Prop where
  sound : n.taskPool.Sound
  confined : n.Confined
  live : ∀ p ∈ references n fs, n.taskPool.Live p

/-- A slot is given back only when no queue, worker or start call refers to it. -/
def givesBackUnreferenced : Guard Node Frame Choice := fun _ _ f n fs =>
  ∀ p caller, f = .taskDeallocate p caller → ∀ r ∈ references n fs, r.id ≠ p.id

theorem confined_exec {n : Node} (h : n.Confined) (t : Nat) (c : Choice) (f : Frame) :
    (n.access (exec t c f n).1).Confined := by
  refine Node.confined_access h fun r p hu => ?_
  have hi := exec_issuedBy t c f n
  rw [hu] at hi
  exact hi.1

theorem slotsOwned_preserved : Preserves code givesBackUnreferenced SlotsOwned := by
  intro t c f n others h hg
  refine ⟨Node.taskSound_access h.sound _, confined_exec h.confined t c f, ?_⟩
  intro p hp
  rcases mem_references_exec h.confined hp with hp | ⟨hp, hu⟩
  · refine Node.live_access h.sound (h.live p hp) fun q hu => ?_
    have hi := exec_issuedBy t c f n
    rw [hu] at hi
    obtain ⟨caller, hf⟩ := hi
    exact hg q caller hf p hp
  · simp only [code, hu]
    exact Pool.live_allocate h.sound hp

theorem mem_frames_boot {attributes : NodeAttributes} {mode : SchedulerMode} {clients : Nat}
    {f : Frame} (hf : f ∈ (boot attributes mode clients).frames) : f = .worker ∨ f = .client := by
  have hm : f ∈ (boot attributes mode clients).callStacks.flatten := hf
  simp only [boot, List.mem_flatten, List.mem_append, List.mem_replicate] at hm
  obtain ⟨st, ⟨-, rfl⟩ | ⟨-, rfl⟩, hmem⟩ := hm
  · exact Or.inl (List.mem_singleton.mp hmem)
  · exact Or.inr (List.mem_singleton.mp hmem)

theorem refs_of_mem_boot {attributes : NodeAttributes} {mode : SchedulerMode} {clients : Nat}
    {f : Frame} (hf : f ∈ (boot attributes mode clients).frames) : f.refs = [] := by
  rcases mem_frames_boot hf with rfl | rfl <;> rfl

/-- Nothing refers to a task before the first call. -/
theorem references_boot (attributes : NodeAttributes) (mode : SchedulerMode) (clients : Nat) :
    references (boot attributes mode clients).mem (boot attributes mode clients).frames = 0 := by
  have hq : (boot attributes mode clients).mem.queued = 0 :=
    Finset.sum_eq_zero fun r _ => rfl
  rw [references, hq, zero_add, Multiset.eq_zero_iff_forall_notMem]
  intro p hp
  obtain ⟨f, hfm, hpf⟩ := Multiset.mem_bind.mp hp
  rw [refs_of_mem_boot hfm] at hpf
  exact List.not_mem_nil hpf

theorem slotsOwned_boot (attributes : NodeAttributes) (mode : SchedulerMode) (clients : Nat) :
    SlotsOwned (boot attributes mode clients).mem (boot attributes mode clients).frames where
  sound := Pool.sound_init _ _
  confined := fun _ _ => rfl
  live := by
    rw [references_boot]
    exact fun p hp => absurd hp (Multiset.notMem_zero p)

end Embb.Mtapi
