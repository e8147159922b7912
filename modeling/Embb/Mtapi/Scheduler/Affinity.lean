import Embb.Mtapi.Scheduler.Pinned

/-!
# Affinity placement

A thread that schedules a task looks for a worker that the mask of the task allows, from a
counter on. Masks are words of 64 bits, whatever the number of workers.
-/

namespace Embb.Mtapi

open Threads

/-- The mask of a task: what its action and its own attributes allow, or the mask of its ordered
queue. -/
def Node.taskMask (n : Node) (p a : Ptr) : Affinity :=
  if n.queuePool.isHandleValid (n.task p).queue ∧
      (n.queue (n.task p).queue).attributes.ordered then
    (n.queue (n.task p).queue).orderedAffinity
  else (n.action a).attributes.affinity &&& (n.task p).attributes.affinity

theorem Node.scheduleAffinity_of_mask {n : Node} {p a : Ptr} (h : n.taskMask p a ≠ 0) :
    n.scheduleAffinity p a = n.taskMask p a :=
  if_neg h

/-- The thread goes on alone until it pushes the task: to the public queue of some worker if the
mask is the full one, and else to the private queue of a worker that the mask allows. -/
def Placed (s : State Node Frame) (t : Nat) (p a : Ptr) (mask : Affinity) : Prop :=
  ∃ k target isPrivate caller,
    (run code s (goes t k)).top t = some (.schedulePush p target isPrivate a caller) ∧
      target < s.mem.workerCount ∧
      (isPrivate = false ∧ mask = s.mem.affinityAll ∨
        isPrivate = true ∧ mask ≠ s.mem.affinityAll ∧ mask.getLsbD target = true)

section

variable {s : State Node Frame} {t : Nat} {p a : Ptr} {mask : Affinity} {caller : ScheduleCaller}
  {rest : List Frame}

theorem goes_succ (s : State Node Frame) (t k : Nat) :
    run code s (goes t (k + 1)) = run code (step code s (t, .go)) (goes t k) := rfl

theorem top_of_stack {f : Frame} (h : s.callStacks[t]? = some (f :: rest)) : s.top t = some f := by
  rw [State.top, h]
  rfl

/-- A step of the search. -/
theorem step_search {ii : Nat}
    (h : s.callStacks[t]? = some (.scheduleSearch p ii a mask caller :: rest)) :
    (step code s (t, .go)).mem = s.mem ∧
      (step code s (t, .go)).callStacks[t]? =
        some ((if ii < s.mem.attributes.numCores ∧ mask.getLsbD ii then
          .schedulePush p ii true a caller
        else .scheduleSearch p (uintSucc ii % s.mem.workerCount) a mask caller) :: rest) := by
  obtain ⟨hmem, hstack⟩ := step_of_stack code h .go
  rw [hmem, hstack]
  simp only [code, exec]
  split <;> exact ⟨rfl, rfl⟩

/-- Without a worker in the mask the search goes on for ever. -/
theorem search_forever (hno : ∀ w < s.mem.workerCount, mask.getLsbD w = false) {ii : Nat}
    (h : s.callStacks[t]? = some (.scheduleSearch p ii a mask caller :: rest)) (k : Nat) :
    ∃ jj, (run code s (goes t k)).callStacks[t]? =
      some (.scheduleSearch p jj a mask caller :: rest) := by
  induction k generalizing s ii with
  | zero => exact ⟨ii, h⟩
  | succ k ih =>
    obtain ⟨hmem, hstack⟩ := step_search h
    have hmiss : ¬ (ii < s.mem.attributes.numCores ∧ mask.getLsbD ii = true) := by
      rintro ⟨hlt, hbit⟩
      rw [hno ii hlt] at hbit
      cases hbit
    rw [if_neg hmiss] at hstack
    rw [goes_succ]
    exact ih (by rw [hmem]; exact hno) hstack

/-- The search gets to a worker of the mask: each step comes closer to it, or ends before. -/
theorem search_ends {w : Nat} (hw : w < s.mem.workerCount) (hbit : mask.getLsbD w = true)
    {ii : Nat} (hii : ii < s.mem.workerCount)
    (h : s.callStacks[t]? = some (.scheduleSearch p ii a mask caller :: rest)) :
    ∃ k target, (run code s (goes t k)).callStacks[t]? =
      some (.schedulePush p target true a caller :: rest) ∧
        target < s.mem.workerCount ∧ mask.getLsbD target = true := by
  have hle : s.mem.workerCount ≤ 64 := s.mem.attributes.numCores_le
  induction hd : (w + s.mem.workerCount - ii) % s.mem.workerCount using Nat.strong_induction_on
    generalizing s ii with
  | _ d ih =>
    obtain ⟨hmem, hstack⟩ := step_search h
    by_cases hhit : ii < s.mem.attributes.numCores ∧ mask.getLsbD ii = true
    · rw [if_pos hhit] at hstack
      exact ⟨1, ii, hstack, hii, hhit.2⟩
    · rw [if_neg hhit] at hstack
      have hne : ii ≠ w := fun he => hhit ⟨hii, he ▸ hbit⟩
      have hsucc : uintSucc ii = ii + 1 :=
        uintSucc_of_lt (by unfold uintRange; omega)
      have hnext : uintSucc ii % s.mem.workerCount < s.mem.workerCount :=
        Nat.mod_lt _ (by omega)
      have hcloser : (w + s.mem.workerCount - uintSucc ii % s.mem.workerCount) %
          s.mem.workerCount < d := by
        rw [hsucc, ← hd]
        rcases Nat.lt_or_ge (ii + 1) s.mem.workerCount with hlt | hge
        · rw [Nat.mod_eq_of_lt hlt]
          rcases Nat.lt_or_ge w ii with hwi | hwi
          · rw [Nat.mod_eq_of_lt (by omega), Nat.mod_eq_of_lt (by omega)]
            omega
          · rw [Nat.mod_eq_sub_mod (by omega), Nat.mod_eq_of_lt (by omega),
              Nat.mod_eq_sub_mod (by omega), Nat.mod_eq_of_lt (by omega)]
            omega
        · have he : ii + 1 = s.mem.workerCount := by omega
          rw [he, Nat.mod_self, Nat.sub_zero, Nat.add_mod_right, Nat.mod_eq_of_lt hw,
            Nat.mod_eq_of_lt (by omega)]
          omega
      obtain ⟨k, target, hrun, htarget, hb⟩ := ih _ hcloser (by rw [hmem]; exact hw)
        (by rw [hmem]; exact hnext) hstack (by rw [hmem]; exact hle) (by rw [hmem])
      rw [hmem] at htarget
      exact ⟨k + 1, target, by rw [goes_succ]; exact hrun, htarget, hb⟩

/-- The counter may lie outside of the workers at first. -/
theorem search_ends_from {w : Nat} (hw : w < s.mem.workerCount) (hbit : mask.getLsbD w = true)
    {ii : Nat} (h : s.callStacks[t]? = some (.scheduleSearch p ii a mask caller :: rest)) :
    ∃ k target, (run code s (goes t k)).callStacks[t]? =
      some (.schedulePush p target true a caller :: rest) ∧
        target < s.mem.workerCount ∧ mask.getLsbD target = true := by
  obtain ⟨hmem, hstack⟩ := step_search h
  by_cases hhit : ii < s.mem.attributes.numCores ∧ mask.getLsbD ii = true
  · rw [if_pos hhit] at hstack
    exact ⟨1, ii, hstack, hhit.1, hhit.2⟩
  · rw [if_neg hhit] at hstack
    have hnext : uintSucc ii % s.mem.workerCount < s.mem.workerCount := Nat.mod_lt _ (by omega)
    obtain ⟨k, target, hrun, htarget, hb⟩ := search_ends (by rw [hmem]; exact hw) hbit
      (by rw [hmem]; exact hnext) hstack
    rw [hmem] at htarget
    exact ⟨k + 1, target, by rw [goes_succ]; exact hrun, htarget, hb⟩

/-- The first three steps compute the mask and count the task. -/
theorem stack_counted {instance' : Nat}
    (h : s.callStacks[t]? = some (.schedule p instance' caller :: rest))
    (hvalid : s.mem.actionPool.isHandleValid (s.mem.task p).action = true)
    (hmask : s.mem.taskMask p (s.mem.task p).action ≠ 0) :
    (run code s (goes t 1)).top t = some (.scheduleAffinity p
        (((s.mem.task p).handle.id + instance') % s.mem.workerCount) (s.mem.task p).action caller) ∧
      (run code s (goes t 2)).top t = some (.scheduleCount p
        (((s.mem.task p).handle.id + instance') % s.mem.workerCount) (s.mem.task p).action
        (s.mem.taskMask p (s.mem.task p).action) caller) ∧
      (run code s (goes t 3)).mem = s.mem.addActionTasks (s.mem.task p).action 1 ∧
      (run code s (goes t 3)).callStacks[t]? = some
        ((if s.mem.taskMask p (s.mem.task p).action = s.mem.affinityAll then
          .schedulePush p (((s.mem.task p).handle.id + instance') % s.mem.workerCount) false
            (s.mem.task p).action caller
        else .scheduleAffine p (s.mem.task p).action (s.mem.taskMask p (s.mem.task p).action)
          caller) :: rest) := by
  obtain ⟨hmem1, hstack1⟩ := step_of_stack code h .go
  simp only [code, exec, if_pos hvalid] at hmem1 hstack1
  have hmem1' : (step code s (t, .go)).mem = s.mem := hmem1
  obtain ⟨hmem2, hstack2⟩ := step_of_stack code hstack1 .go
  simp only [code, exec, hmem1', Node.scheduleAffinity_of_mask hmask] at hmem2 hstack2
  have hmem2' : (step code (step code s (t, .go)) (t, .go)).mem = s.mem := hmem2
  obtain ⟨hmem3, hstack3⟩ := step_of_stack code hstack2 .go
  simp only [code, exec, hmem2'] at hmem3 hstack3
  refine ⟨top_of_stack hstack1, top_of_stack hstack2, ?_, ?_⟩
  · change (step code (step code (step code s (t, .go)) (t, .go)) (t, .go)).mem = _
    rw [hmem3]
    split <;> rfl
  · change (step code (step code (step code s (t, .go)) (t, .go)) (t, .go)).callStacks[t]? = _
    rw [hstack3]
    split <;> rfl

/-- With a mask that is not the full one, the fourth step begins the search. -/
theorem stack_search {instance' : Nat}
    (h : s.callStacks[t]? = some (.schedule p instance' caller :: rest))
    (hvalid : s.mem.actionPool.isHandleValid (s.mem.task p).action = true)
    (hmask : s.mem.taskMask p (s.mem.task p).action ≠ 0)
    (hfull : s.mem.taskMask p (s.mem.task p).action ≠ s.mem.affinityAll) :
    (run code s (goes t 4)).mem.workerCount = s.mem.workerCount ∧
      ∃ ii, (run code s (goes t 4)).callStacks[t]? = some (.scheduleSearch p ii
        (s.mem.task p).action (s.mem.taskMask p (s.mem.task p).action) caller :: rest) := by
  obtain ⟨-, -, hmem3, hstack3⟩ := stack_counted h hvalid hmask
  rw [if_neg hfull] at hstack3
  obtain ⟨hmem4, hstack4⟩ := step_of_stack code hstack3 .go
  simp only [code, exec, hmem3] at hmem4 hstack4
  constructor
  · change (step code (run code s (goes t 3)) (t, .go)).mem.workerCount = _
    rw [hmem4]
    rfl
  · exact ⟨_, hstack4⟩

theorem run_goes_add (s : State Node Frame) (t j k : Nat) :
    run code s (goes t (j + k)) = run code (run code s (goes t j)) (goes t k) := by
  rw [← run_append, goes, goes, goes, List.replicate_add]

/-- Who places a task has found a worker in its mask. -/
theorem worker_of_placed (hcount : 0 < s.mem.workerCount) (hplaced : Placed s t p a mask) :
    ∃ w < s.mem.workerCount, mask.getLsbD w = true := by
  obtain ⟨k, target, isPrivate, caller', htop, htarget, ⟨-, hfull⟩ | ⟨-, -, hbit⟩⟩ := hplaced
  · refine ⟨0, hcount, ?_⟩
    rw [hfull]
    exact Node.getLsbD_bitsetSetN s.mem.attributes.numCores_le hcount
  · exact ⟨target, htarget, hbit⟩

theorem placed_of_worker {instance' : Nat} {w : Nat} (hw : w < s.mem.workerCount)
    (h : s.callStacks[t]? = some (.schedule p instance' caller :: rest))
    (hvalid : s.mem.actionPool.isHandleValid (s.mem.task p).action = true)
    (hmask : s.mem.taskMask p (s.mem.task p).action ≠ 0)
    (hbit : (s.mem.taskMask p (s.mem.task p).action).getLsbD w = true) :
    Placed s t p (s.mem.task p).action (s.mem.taskMask p (s.mem.task p).action) := by
  by_cases hfull : s.mem.taskMask p (s.mem.task p).action = s.mem.affinityAll
  · obtain ⟨-, -, -, hstack⟩ := stack_counted h hvalid hmask
    rw [if_pos hfull] at hstack
    exact ⟨3, _, false, caller, top_of_stack hstack, Nat.mod_lt _ (by omega),
      Or.inl ⟨rfl, hfull⟩⟩
  · obtain ⟨hcores, ii, hsearch⟩ := stack_search h hvalid hmask hfull
    obtain ⟨k, target, hrun, htarget, hb⟩ :=
      search_ends_from (by rw [hcores]; exact hw) hbit hsearch
    rw [hcores] at htarget
    exact ⟨4 + k, target, true, caller, by rw [run_goes_add]; exact top_of_stack hrun, htarget,
      Or.inr ⟨rfl, hfull, hb⟩⟩

/-- A mask without a worker keeps the thread searching. -/
theorem searches_forever {instance' : Nat}
    (h : s.callStacks[t]? = some (.schedule p instance' caller :: rest))
    (hvalid : s.mem.actionPool.isHandleValid (s.mem.task p).action = true)
    (hmask : s.mem.taskMask p (s.mem.task p).action ≠ 0) (hcount : 0 < s.mem.workerCount)
    (hno : ∀ w < s.mem.workerCount, (s.mem.taskMask p (s.mem.task p).action).getLsbD w = false)
    (k : Nat) :
    ∃ jj, (run code s (goes t (4 + k))).top t = some (.scheduleSearch p jj
      (s.mem.task p).action (s.mem.taskMask p (s.mem.task p).action) caller) := by
  have hfull : s.mem.taskMask p (s.mem.task p).action ≠ s.mem.affinityAll := fun he => by
    have hbit := hno 0 hcount
    rw [he, Node.getLsbD_bitsetSetN s.mem.attributes.numCores_le hcount] at hbit
    cases hbit
  obtain ⟨hcores, ii, hsearch⟩ := stack_search h hvalid hmask hfull
  obtain ⟨jj, hjj⟩ := search_forever (by rw [hcores]; exact hno) hsearch k
  exact ⟨jj, by rw [run_goes_add]; exact top_of_stack hjj⟩

/-- Whatever the counter is, a task whose mask is not empty is placed if the mask names a worker,
and otherwise the thread searches for ever. -/
theorem affinity_placement {instance' : Nat} (hcount : 0 < s.mem.workerCount)
    (h : s.callStacks[t]? = some (.schedule p instance' caller :: rest))
    (hvalid : s.mem.actionPool.isHandleValid (s.mem.task p).action = true)
    (hmask : s.mem.taskMask p (s.mem.task p).action ≠ 0) :
    (Placed s t p (s.mem.task p).action (s.mem.taskMask p (s.mem.task p).action) ↔
      ∃ w < s.mem.workerCount, (s.mem.taskMask p (s.mem.task p).action).getLsbD w = true) ∧
    ((∀ w < s.mem.workerCount, (s.mem.taskMask p (s.mem.task p).action).getLsbD w = false) →
      ∀ k, ∃ jj, (run code s (goes t (4 + k))).top t = some (.scheduleSearch p jj
        (s.mem.task p).action (s.mem.taskMask p (s.mem.task p).action) caller)) :=
  ⟨⟨worker_of_placed hcount, fun hex => by
      obtain ⟨w, hw, hbit⟩ := hex
      exact placed_of_worker hw h hvalid hmask hbit⟩,
    fun hno k => searches_forever h hvalid hmask hcount hno k⟩

end

/-- Two workers, an action with the given mask and a task that is about to be scheduled. -/
def maskedTask (mask : Affinity) : State Node Frame where
  mem := ((((Node.init (smallNode 2) .workStealVhpf).access (.actionCreate 1 ⟨mask⟩)).access
    .taskAllocate).access (.taskInit ⟨0, 1⟩
      ⟨⟨0, 1⟩, TaskAttributes.init 64, Handle.invalid, Handle.invalid⟩)).access
        (.taskAction ⟨0, 1⟩ ⟨0, 1⟩)
  callStacks := [[.schedule ⟨0, 1⟩ 0 .retained]]

theorem affinity_placement_second :
    Placed (maskedTask 2) 0 ⟨0, 1⟩ ⟨0, 1⟩ ((maskedTask 2).mem.taskMask ⟨0, 1⟩ ⟨0, 1⟩) :=
  (affinity_placement (s := maskedTask 2) (by decide) rfl (by decide) (by decide)).1.mpr
    ⟨1, by decide, by decide⟩

/-- A mask for the sixth core only, on a node with two workers. -/
theorem affinity_search_forever :
    (maskedTask 32).mem.taskMask ⟨0, 1⟩ ⟨0, 1⟩ ≠ 0 ∧
      ¬ Placed (maskedTask 32) 0 ⟨0, 1⟩ ⟨0, 1⟩ ((maskedTask 32).mem.taskMask ⟨0, 1⟩ ⟨0, 1⟩) := by
  refine ⟨by decide, fun hplaced => ?_⟩
  obtain ⟨w, hw, hbit⟩ := worker_of_placed (by decide) hplaced
  have hlt : w < 2 := hw
  have hcases : w = 0 ∨ w = 1 := by omega
  rcases hcases with rfl | rfl <;> exact absurd hbit (by decide)

end Embb.Mtapi
