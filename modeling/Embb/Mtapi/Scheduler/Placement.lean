import Embb.Mtapi.Scheduler.Slots

/-!
# Where a task belongs

The start call of a task writes its job, attributes, group, queue and action while
no other reference to the slot exists. From then on these fields stay as they are
for everybody who refers to the task, as long as slots are only deleted without a
reference.
-/

namespace Embb.Mtapi

open Threads

/-- The task whose fields a start call still writes. -/
def Frame.fresh : Frame → List Ptr
  | .startInit _ p | .startGroup _ p | .startGroupCount _ p | .startQueue _ p
  | .startQueueCount _ p | .startChoose _ p _ _ | .startChooseLoad _ p _ _ _ _
  | .startAction _ p _ => [p]
  | _ => []

theorem Frame.mem_refs_of_mem_fresh {f : Frame} {p : Ptr} (h : p ∈ f.fresh) : p ∈ f.refs := by
  unfold Frame.fresh at h
  split at h
  all_goals first | exact h | exact absurd h List.not_mem_nil

theorem Frame.fresh_of_refs {f : Frame} (h : f.refs = []) : f.fresh = [] :=
  Frame.eq_nil_of_refs (fun _ hx => mem_refs_of_mem_fresh hx) h

theorem fresh_contextResume (ctx : Context) (done : Bool) :
    (ctx.resume done).flatMap Frame.fresh = [] :=
  flatMap_contextResume (fun _ _ => rfl) (fun _ => rfl) ctx done

theorem fresh_scheduleResume (caller : ScheduleCaller) (p : Ptr) (pushed : Bool) :
    (caller.resume p pushed).flatMap Frame.fresh = [] :=
  flatMap_scheduleResume (fun _ _ _ _ => rfl) (fun _ => rfl) caller p pushed

theorem fresh_executeTaskOrYield (n : Node) (t : Nat) (back : Frame) :
    (n.executeTaskOrYield t back).flatMap Frame.fresh = back.fresh :=
  flatMap_executeTaskOrYield (fun _ => rfl) n t back

/-- A step goes on with the slot of its start call, leaves it, or gets a new one. -/
theorem exec_fresh (t : Nat) (c : Choice) (f : Frame) (n : Node) :
    (exec t c f n).2.flatMap Frame.fresh = f.fresh ∨
      (exec t c f n).2.flatMap Frame.fresh = [] ∨
      ∃ p, n.taskPool.allocate.2 = some p ∧ (exec t c f n).2.flatMap Frame.fresh = [p] := by
  fun_cases exec t c f n
  all_goals first
    | exact Or.inl rfl
    | exact Or.inr (Or.inl rfl)
    | exact Or.inr (Or.inl (fresh_contextResume _ _))
    | exact Or.inl (fresh_executeTaskOrYield _ _ _)
    | exact Or.inr (Or.inl (fresh_scheduleResume _ _ _))
    | simp only [List.flatMap_cons, List.flatMap_nil, Frame.fresh_of_refs, refs_entry,
        refs_deleteResume, refs_visitorResume, List.nil_append, List.append_nil, true_or, or_true]
      done
    | rename_i h
      exact Or.inr (Or.inr ⟨_, h, rfl⟩)

/-- The fields of a task that its start call determines. -/
def Task.placement (x : Task) : Handle × TaskAttributes × Handle × Handle × Handle :=
  (x.job, x.attributes, x.group, x.queue, x.action)

/-- The slots whose placement an access may change. -/
def Access.places : Access → List Ptr
  | .taskInit p _ | .taskGroup p _ | .taskQueue p _ | .taskAction p _ | .taskFinalize p
  | .taskDeallocate p => [p]
  | _ => []

theorem Access.placement_onTask {u : Access} {p : Ptr} {g : Task → Task}
    (h : u.onTask = some (p, g)) (hu : p ∉ u.places) (x : Task) :
    (g x).placement = x.placement := by
  cases u with
  | taskGroup q group =>
    cases group <;> cases h <;> exact absurd (List.mem_singleton_self _) hu
  | taskQueue q queue =>
    cases queue <;> cases h <;> exact absurd (List.mem_singleton_self _) hu
  | taskInit | taskAction | taskFinalize =>
    cases h
    exact absurd (List.mem_singleton_self _) hu
  | taskState | taskError | taskContext | taskTodo =>
    cases h
    simp only [Task.placement]
  | _ => cases h

theorem Node.placement_access (n : Node) (u : Access) {id : Nat}
    (h : ∀ p ∈ u.places, p.id ≠ id) :
    ((n.access u).taskPool.storage id).placement = (n.taskPool.storage id).placement := by
  apply n.taskField_keep u Task.placement (fun _ _ => rfl) id
  · intro p g ho hid
    exact Access.placement_onTask ho (fun hp => h p hp hid) _
  · rintro p rfl hid
    exact absurd hid (h p (List.mem_singleton_self p))

/-- Only the start call of a task and its deletion change its placement. -/
theorem exec_places {t : Nat} {c : Choice} {f : Frame} {n : Node} {p : Ptr}
    (h : p ∈ (exec t c f n).1.places) :
    p ∈ f.fresh ∨ ∃ caller, f = .taskDelete p caller ∨ f = .taskDeallocate p caller := by
  have hi := exec_issuedBy t c f n
  cases hu : (exec t c f n).1 with
  | taskInit q call =>
    rw [hu] at h hi
    rw [List.mem_singleton.mp h]
    rw [show f = _ from hi]
    exact Or.inl (List.mem_singleton_self q)
  | taskGroup q group =>
    rw [hu] at h hi
    rw [List.mem_singleton.mp h]
    cases group with
    | none =>
      obtain ⟨call, rfl⟩ := hi
      exact Or.inl (List.mem_singleton_self q)
    | some g =>
      obtain ⟨call, -, rfl⟩ := hi
      exact Or.inl (List.mem_singleton_self q)
  | taskQueue q queue =>
    rw [hu] at h hi
    rw [List.mem_singleton.mp h]
    cases queue with
    | none =>
      obtain ⟨call, rfl⟩ := hi
      exact Or.inl (List.mem_singleton_self q)
    | some g =>
      obtain ⟨call, -, rfl⟩ := hi
      exact Or.inl (List.mem_singleton_self q)
  | taskAction q a =>
    rw [hu] at h hi
    rw [List.mem_singleton.mp h]
    obtain ⟨-, call, i, -, rfl⟩ := hi
    exact Or.inl (List.mem_singleton_self q)
  | taskFinalize q =>
    rw [hu] at h hi
    rw [List.mem_singleton.mp h]
    obtain ⟨caller, rfl⟩ := hi
    exact Or.inr ⟨caller, Or.inl rfl⟩
  | taskDeallocate q =>
    rw [hu] at h hi
    rw [List.mem_singleton.mp h]
    obtain ⟨caller, rfl⟩ := hi
    exact Or.inr ⟨caller, Or.inr rfl⟩
  | _ =>
    rw [hu] at h
    exact absurd h List.not_mem_nil

/-- A task slot is finalized and given back only when nothing refers to it. -/
def deletesUnreferenced : Guard Node Frame Choice := fun _ _ f n fs =>
  ∀ p caller, f = .taskDelete p caller ∨ f = .taskDeallocate p caller →
    ∀ r ∈ references n fs, r.id ≠ p.id

theorem deletesUnreferenced.givesBack {t : Nat} {c : Choice} {f : Frame} {n : Node}
    {fs : Multiset Frame} (h : deletesUnreferenced t c f n fs) :
    givesBackUnreferenced t c f n fs :=
  fun p caller hf => h p caller (Or.inr hf)

/-- Slots are owned, and a start call that still writes its slot has the only reference. -/
structure TasksOwned (n : Node) (fs : Multiset Frame) : Prop extends SlotsOwned n fs where
  alone : ∀ f ∈ fs, ∀ p ∈ f.fresh, (references n fs).count p = 1

theorem mem_references_of_mem {n : Node} {fs : Multiset Frame} {f : Frame} (hf : f ∈ fs)
    {p : Ptr} (hp : p ∈ f.refs) : p ∈ references n fs :=
  Multiset.mem_add.mpr (Or.inr (Multiset.mem_bind.mpr ⟨f, hf, hp⟩))

namespace TasksOwned

variable {t : Nat} {c : Choice} {f : Frame} {n : Node} {others : Multiset Frame}

/-- A fresh slot is referred to by its start call only. -/
theorem not_mem_others (h : TasksOwned n (f ::ₘ others)) {p : Ptr} (hp : p ∈ f.fresh) :
    p ∉ references n others := by
  intro ho
  have h1 := h.alone f (Multiset.mem_cons_self f others) p hp
  rw [references_cons, Multiset.count_add] at h1
  have h2 : 0 < (f.refs : Multiset Ptr).count p :=
    Multiset.count_pos.mpr (Frame.mem_refs_of_mem_fresh hp)
  have h3 := Multiset.count_pos.mpr ho
  omega

/-- Placement stays for all references other than the one of the writing start call. -/
theorem placement_exec (h : TasksOwned n (f ::ₘ others))
    (hg : deletesUnreferenced t c f n (f ::ₘ others)) {p : Ptr}
    (hp : p ∈ references n (f ::ₘ others)) (hf : p ∉ f.fresh) :
    ((code t c f n).1.task p).placement = (n.task p).placement := by
  refine n.placement_access _ fun q hq hid => ?_
  rcases exec_places hq with hq | ⟨caller, hq⟩
  · have hql := h.live q (mem_references_of_mem (Multiset.mem_cons_self f others)
      (Frame.mem_refs_of_mem_fresh hq))
    exact hf (hql.eq_of_id (h.live p hp) hid ▸ hq)
  · exact hg q caller hq p hp hid.symm

theorem placement_others (h : TasksOwned n (f ::ₘ others))
    (hg : deletesUnreferenced t c f n (f ::ₘ others)) {p : Ptr}
    (hp : p ∈ references n others) :
    ((code t c f n).1.task p).placement = (n.task p).placement :=
  h.placement_exec hg (by rw [references_cons]; exact Multiset.mem_add.mpr (Or.inr hp))
    fun hf => h.not_mem_others hf hp

end TasksOwned

theorem Access.count_allocates {n : Node} (hs : n.taskPool.Sound) {p : Ptr}
    (hp : n.taskPool.Live p) (u : Access) : (u.allocates n : Multiset Ptr).count p = 0 := by
  rw [Multiset.count_eq_zero]
  intro hm
  unfold Access.allocates at hm
  split at hm
  · exact Pool.not_live_of_allocate hs (Option.mem_toList.mp hm) hp
  · exact absurd hm List.not_mem_nil

theorem Frame.pushes_of_fresh {f : Frame} {p : Ptr} (h : p ∈ f.fresh) : f.pushes = [] := by
  unfold Frame.pushes
  split
  · exact absurd h List.not_mem_nil
  · rfl

theorem tasksOwned_preserved : Preserves code deletesUnreferenced TasksOwned := by
  intro t c f n others h hg
  refine ⟨slotsOwned_preserved t c f n others h.toSlotsOwned hg.givesBack, ?_⟩
  intro g hgm p hp
  have hexec : references (code t c f n).1 ((code t c f n).2 + others) ≤
      references n (f ::ₘ others) +
        ((f.pushes : Multiset Ptr) + ((exec t c f n).1.allocates n : Multiset Ptr)) :=
    references_exec_le h.confined
  have hle := Multiset.count_le_of_le p hexec
  rw [Multiset.count_add, Multiset.count_add] at hle
  have hpos : 0 < (references (code t c f n).1 ((code t c f n).2 + others)).count p :=
    Multiset.count_pos.mpr (mem_references_of_mem hgm (Frame.mem_refs_of_mem_fresh hp))
  have hold : ∀ g' ∈ f ::ₘ others, p ∈ g'.fresh → (f.pushes : Multiset Ptr).count p = 0 →
      (references (code t c f n).1 ((code t c f n).2 + others)).count p = 1 := by
    intro g' hg' hp' hz
    have h1 := h.alone g' hg' p hp'
    have hl := h.live p (mem_references_of_mem hg' (Frame.mem_refs_of_mem_fresh hp'))
    have h2 := Access.count_allocates h.sound hl (exec t c f n).1
    omega
  rcases Multiset.mem_add.mp hgm with hgm | hgm
  · have hpf : p ∈ (exec t c f n).2.flatMap Frame.fresh :=
      List.mem_flatMap.mpr ⟨g, hgm, hp⟩
    rcases exec_fresh t c f n with he | he | ⟨q, hq, he⟩
    · rw [he] at hpf
      refine hold f (Multiset.mem_cons_self f others) hpf ?_
      rw [Frame.pushes_of_fresh hpf, Multiset.coe_nil, Multiset.count_zero]
    · rw [he] at hpf
      exact absurd hpf List.not_mem_nil
    · rw [he, List.mem_singleton] at hpf
      subst hpf
      have hnl := Pool.not_live_of_allocate h.sound hq
      have h0 : (references n (f ::ₘ others)).count p = 0 :=
        Multiset.count_eq_zero.mpr fun hm => hnl (h.live p hm)
      have h1 : (f.pushes : Multiset Ptr).count p = 0 :=
        Multiset.count_eq_zero.mpr fun hm => hnl (h.live p
          (mem_references_of_mem (Multiset.mem_cons_self f others)
            (Frame.mem_refs_of_mem_pushes hm)))
      have h2 : ((exec t c f n).1.allocates n : Multiset Ptr).count p ≤ 1 := by
        unfold Access.allocates
        split
        · rw [hq]
          simp
        · simp
      omega
  · refine hold g (Multiset.mem_cons_of_mem hgm) hp (Multiset.count_eq_zero.mpr fun hm => ?_)
    have h1 := h.alone g (Multiset.mem_cons_of_mem hgm) p hp
    rw [references_cons, Multiset.count_add] at h1
    have h2 : 0 < (f.refs : Multiset Ptr).count p :=
      Multiset.count_pos.mpr (Frame.mem_refs_of_mem_pushes hm)
    have h3 : 0 < (references n others).count p :=
      Multiset.count_pos.mpr (mem_references_of_mem hgm (Frame.mem_refs_of_mem_fresh hp))
    omega

theorem tasksOwned_boot (attributes : NodeAttributes) (mode : SchedulerMode) (clients : Nat) :
    TasksOwned (boot attributes mode clients).mem (boot attributes mode clients).frames where
  toSlotsOwned := slotsOwned_boot attributes mode clients
  alone := by
    intro f hf p hp
    have hr := mem_references_of_mem (n := (boot attributes mode clients).mem) hf
      (Frame.mem_refs_of_mem_fresh hp)
    rw [references_boot] at hr
    exact absurd hr (Multiset.notMem_zero p)

end Embb.Mtapi
