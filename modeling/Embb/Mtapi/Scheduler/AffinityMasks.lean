import Embb.Mtapi.CoreAffinity
import Embb.Mtapi.Scheduler.Affinity

/-!
# Masks made by the interface

Masks of actions and tasks that `mtapi_affinity_init` and `mtapi_affinity_set` have made on a
node name workers of the node only, so that a task with such masks is always placed.
-/

namespace Embb.Mtapi

open Threads CoreAffinity

/-- `mtapi_affinity_init` for a mask that is not null; without a node the mask stays as it is. -/
def affinityInit (node : Option Node) (mask : Affinity) (affinity : Bool) : Status × Affinity :=
  match node with
  | none => (.errNodeNotinit, mask)
  | some node =>
    (.success, if affinity then bitsetSetN node.attributes.numCores else 0)

/-- `mtapi_affinity_set` for a mask that is not null. -/
def affinitySet (node : Option Node) (mask : Affinity) (core_num : ℕ) (affinity : Bool) :
    Status × Affinity :=
  match node with
  | none => (.errNodeNotinit, mask)
  | some node =>
    if core_num < node.attributes.numCores then
      (.success, if affinity then bitsetSet mask core_num else bitsetClear mask core_num)
    else (.errCoreNum, mask)

/-- `mtapi_affinity_get` for a mask that is not null. -/
def affinityGet (node : Option Node) (mask : Affinity) (core_num : ℕ) : Status × Bool :=
  match node with
  | none => (.errNodeNotinit, false)
  | some node =>
    if core_num < node.attributes.numCores then (.success, bitsetIsSet mask core_num)
    else (.errCoreNum, false)

/-- A call on a mask. -/
inductive MaskCall where
  | init (affinity : Bool)
  | set (core_num : ℕ) (affinity : Bool)

def MaskCall.apply (n : Node) (mask : Affinity) : MaskCall → Affinity
  | .init affinity => (affinityInit (some n) mask affinity).2
  | .set core_num affinity => (affinitySet (some n) mask core_num affinity).2

/-- The workers that the caller has chosen, where `chosen` were chosen before. -/
def MaskCall.choose (workerCount : ℕ) (chosen : ℕ → Prop) : MaskCall → ℕ → Prop
  | .init affinity => fun w => affinity = true ∧ w < workerCount
  | .set core_num affinity =>
    fun w => if w = core_num ∧ w < workerCount then affinity = true else chosen w

/-- The mask that was initialized and then set, over what was in its memory. -/
def maskAfter (n : Node) (garbage : Affinity) (affinity : Bool) (calls : List MaskCall) :
    Affinity :=
  (MaskCall.init affinity :: calls).foldl (MaskCall.apply n) garbage

/-- The workers chosen by an initialization and the calls after it. -/
def chosenAfter (workerCount : ℕ) (affinity : Bool) (calls : List MaskCall) : ℕ → Prop :=
  (MaskCall.init affinity :: calls).foldl (MaskCall.choose workerCount) fun _ => False

section Masks

variable {n : Node} {mask : Affinity} {chosen : ℕ → Prop}

/-- The mask names the workers chosen. -/
def Names (n : Node) (mask : Affinity) (chosen : ℕ → Prop) : Prop :=
  ∀ w, mask.getLsbD w = true ↔ chosen w ∧ w < n.workerCount

theorem names_init (n : Node) (mask : Affinity) (affinity : Bool) (chosen : ℕ → Prop) :
    Names n ((MaskCall.init affinity).apply n mask)
      ((MaskCall.init affinity).choose n.workerCount chosen) := by
  intro w
  simp only [MaskCall.apply, affinityInit, MaskCall.choose]
  cases affinity with
  | false =>
    simp only [Bool.false_eq_true, if_false, false_and, BitVec.ofNat_eq_ofNat,
      BitVec.getLsbD_zero]
  | true =>
    rw [if_pos rfl, getLsbD_bitsetSetN_iff n.attributes.numCores_le]
    exact ⟨fun h => ⟨⟨rfl, h⟩, h⟩, And.right⟩

theorem Names.set (h : Names n mask chosen) (core_num : ℕ) (affinity : Bool) :
    Names n ((MaskCall.set core_num affinity).apply n mask)
      ((MaskCall.set core_num affinity).choose n.workerCount chosen) := by
  have hle := n.attributes.numCores_le
  intro w
  simp only [MaskCall.apply, affinitySet, MaskCall.choose]
  by_cases hcore : core_num < n.attributes.numCores
  · rw [if_pos hcore]
    cases affinity with
    | false =>
      rw [if_neg Bool.false_ne_true, bitsetClear, Bits.getLsbD_and_not_bit, h w]
      rcases eq_or_ne w core_num with rfl | hne
      · simp only [hcore, true_and, if_true, ne_eq, not_true_eq_false, and_false,
          Bool.false_eq_true, false_and]
      · simp only [hne, false_and, if_false, ne_eq, not_false_eq_true, and_true]
    | true =>
      rw [if_pos rfl, bitsetSet, Bits.getLsbD_or_bit (by omega), h w]
      rcases eq_or_ne w core_num with rfl | hne
      · simp only [hcore, true_and, if_true, or_true]
      · simp only [hne, false_and, if_false, or_false]
  · rw [if_neg hcore, h w]
    have hout : ¬ (w = core_num ∧ w < n.workerCount) := by
      rintro ⟨rfl, hw⟩
      exact hcore hw
    rw [if_neg hout]

theorem Names.foldl (calls : List MaskCall) : ∀ {mask : Affinity} {chosen : ℕ → Prop},
    Names n mask chosen →
      Names n (calls.foldl (MaskCall.apply n) mask)
        (calls.foldl (MaskCall.choose n.workerCount) chosen) := by
  induction calls with
  | nil => exact fun h => h
  | cons call calls ih =>
    intro mask chosen h
    cases call with
    | init affinity => exact ih (names_init n mask affinity chosen)
    | set core_num affinity => exact ih (h.set core_num affinity)

theorem names_maskAfter (n : Node) (garbage : Affinity) (affinity : Bool)
    (calls : List MaskCall) :
    Names n (maskAfter n garbage affinity calls) (chosenAfter n.workerCount affinity calls) :=
  (names_init n garbage affinity _).foldl calls

theorem Names.eq_affinityAll_iff (h : Names n mask chosen) :
    mask = n.affinityAll ↔ ∀ w < n.workerCount, chosen w := by
  have hall := fun w => getLsbD_bitsetSetN_iff (i := w) n.attributes.numCores_le
  constructor
  · rintro rfl w hw
    exact ((h w).mp ((hall w).mpr hw)).1
  · intro hchosen
    apply BitVec.eq_of_getLsbD_eq
    intro w _
    rw [Bool.eq_iff_iff, h w, hall w]
    exact ⟨And.right, fun hw => ⟨hchosen w hw, hw⟩⟩

theorem Names.exists_of_ne_zero (h : Names n mask chosen) (hne : mask ≠ 0) :
    ∃ w < n.workerCount, mask.getLsbD w = true := by
  by_contra hno
  push Not at hno
  refine hne (BitVec.eq_of_getLsbD_eq fun w _ => ?_)
  rw [BitVec.ofNat_eq_ofNat, BitVec.getLsbD_zero, ← Bool.not_eq_true]
  exact fun hbit => hno w ((h w).mp hbit).2 hbit

theorem Names.and {mask' : Affinity} {chosen' : ℕ → Prop} (h : Names n mask chosen)
    (h' : Names n mask' chosen') :
    Names n (mask &&& mask') fun w => chosen w ∧ chosen' w := by
  intro w
  rw [BitVec.getLsbD_and, Bool.and_eq_true, h w, h' w]
  exact ⟨fun hw => ⟨⟨hw.1.1, hw.2.1⟩, hw.1.2⟩, fun hw => ⟨⟨hw.1.1, hw.2⟩, hw.1.2, hw.2⟩⟩

/-- What `mtapi_affinity_get` answers for a mask made by the interface. -/
theorem Names.affinityGet (h : Names n mask chosen) {w : ℕ} (hw : w < n.workerCount) :
    Mtapi.affinityGet (some n) mask w = (.success, true) ↔ chosen w := by
  have hlt : w < 64 := Nat.lt_of_lt_of_le hw n.attributes.numCores_le
  rw [Mtapi.affinityGet, if_pos hw, Prod.mk.injEq, bitsetIsSet_iff hlt, h w]
  exact ⟨fun h => h.2.1, fun h => ⟨rfl, h, hw⟩⟩

end Masks

section Placement

variable {s : State Node Frame} {t : ℕ} {p a : Ptr} {caller : ScheduleCaller} {rest : List Frame}

/-- A task without a common worker is pushed to the public queue of some worker. -/
theorem pushed_of_empty {instance' : ℕ} (hcount : 0 < s.mem.workerCount)
    (h : s.callStacks[t]? = some (.schedule p instance' caller :: rest))
    (hvalid : s.mem.actionPool.isHandleValid (s.mem.task p).action = true)
    (hmask : s.mem.taskMask p (s.mem.task p).action = 0) :
    ∃ target < s.mem.workerCount, (run code s (goes t 3)).top t =
      some (.schedulePush p target false (s.mem.task p).action caller) := by
  have hall : s.mem.scheduleAffinity p (s.mem.task p).action = s.mem.affinityAll := if_pos hmask
  obtain ⟨hmem1, hstack1⟩ := step_of_stack code h .go
  simp only [code, exec, if_pos hvalid] at hmem1 hstack1
  have hmem1' : (step code s (t, .go)).mem = s.mem := hmem1
  obtain ⟨hmem2, hstack2⟩ := step_of_stack code hstack1 .go
  simp only [code, exec, hmem1', hall] at hmem2 hstack2
  have hmem2' : (step code (step code s (t, .go)) (t, .go)).mem = s.mem := hmem2
  obtain ⟨-, hstack3⟩ := step_of_stack code hstack2 .go
  simp only [code, exec, hmem2', if_true] at hstack3
  exact ⟨_, Nat.mod_lt _ hcount, top_of_stack hstack3⟩

theorem pushed_of_names {instance' : ℕ} {chosen : ℕ → Prop} (hcount : 0 < s.mem.workerCount)
    (h : s.callStacks[t]? = some (.schedule p instance' caller :: rest))
    (hvalid : s.mem.actionPool.isHandleValid (s.mem.task p).action = true)
    (hnames : Names s.mem (s.mem.taskMask p (s.mem.task p).action) chosen) :
    ∃ k target isPrivate caller',
      (run code s (goes t k)).top t =
        some (.schedulePush p target isPrivate (s.mem.task p).action caller') ∧
      target < s.mem.workerCount ∧ (isPrivate = true → chosen target) ∧
      (isPrivate = false →
        (∀ w < s.mem.workerCount, chosen w) ∨ ∀ w < s.mem.workerCount, ¬ chosen w) := by
  by_cases hmask : s.mem.taskMask p (s.mem.task p).action = 0
  · obtain ⟨target, htarget, htop⟩ := pushed_of_empty hcount h hvalid hmask
    refine ⟨3, target, false, caller, htop, htarget, fun hp => absurd hp Bool.false_ne_true,
      fun _ => Or.inr ?_⟩
    intro w hw hchosen
    have hbit := (hnames w).mpr ⟨hchosen, hw⟩
    rw [hmask, BitVec.ofNat_eq_ofNat, BitVec.getLsbD_zero] at hbit
    cases hbit
  · obtain ⟨w, hw, hbit⟩ := hnames.exists_of_ne_zero hmask
    obtain ⟨k, target, isPrivate, caller', htop, htarget, ⟨hp, hfull⟩ | ⟨hp, -, htbit⟩⟩ :=
      placed_of_worker hw h hvalid hmask hbit
    · refine ⟨k, target, isPrivate, caller', htop, htarget, fun h' => ?_, fun _ => Or.inl ?_⟩
      · rw [hp] at h'
        cases h'
      · exact hnames.eq_affinityAll_iff.mp hfull
    · refine ⟨k, target, isPrivate, caller', htop, htarget, fun _ => ?_, fun h' => ?_⟩
      · exact ((hnames target).mp htbit).1
      · rw [hp] at h'
        cases h'

/-- A task whose masks come from the interface, whatever calls have made them on the node, is
placed by its thread alone: on a worker that both the action and the task have chosen, where
stealing is off, or on any worker, if they have all workers in common or none. -/
theorem interface_masks_placed {instance' : ℕ} (hcount : 0 < s.mem.workerCount)
    (h : s.callStacks[t]? = some (.schedule p instance' caller :: rest))
    (hvalid : s.mem.actionPool.isHandleValid (s.mem.task p).action = true)
    (hordered : ¬ (s.mem.queuePool.isHandleValid (s.mem.task p).queue ∧
      (s.mem.queue (s.mem.task p).queue).attributes.ordered))
    {garbage garbage' : Affinity} {affinity affinity' : Bool} {calls calls' : List MaskCall}
    (haction : (s.mem.action (s.mem.task p).action).attributes.affinity =
      maskAfter s.mem garbage affinity calls)
    (htask : (s.mem.task p).attributes.affinity = maskAfter s.mem garbage' affinity' calls') :
    ∃ k target isPrivate caller',
      (run code s (goes t k)).top t =
        some (.schedulePush p target isPrivate (s.mem.task p).action caller') ∧
      target < s.mem.workerCount ∧
      (isPrivate = true → chosenAfter s.mem.workerCount affinity calls target ∧
        chosenAfter s.mem.workerCount affinity' calls' target) ∧
      (isPrivate = false →
        (∀ w < s.mem.workerCount, chosenAfter s.mem.workerCount affinity calls w ∧
          chosenAfter s.mem.workerCount affinity' calls' w) ∨
        ∀ w < s.mem.workerCount, ¬ (chosenAfter s.mem.workerCount affinity calls w ∧
          chosenAfter s.mem.workerCount affinity' calls' w)) := by
  have hnames := (names_maskAfter s.mem garbage affinity calls).and
    (names_maskAfter s.mem garbage' affinity' calls')
  rw [← haction, ← htask] at hnames
  have hmask : s.mem.taskMask p (s.mem.task p).action =
      (s.mem.action (s.mem.task p).action).attributes.affinity &&&
        (s.mem.task p).attributes.affinity := if_neg hordered
  exact pushed_of_names hcount h hvalid (hmask ▸ hnames)

/-- Two workers: the action has chosen the second one, and the task both. -/
def secondWorker : State Node Frame where
  mem := ((((Node.init (smallNode 2) .workStealVhpf).access (.actionCreate 1 ⟨2⟩)).access
    .taskAllocate).access (.taskInit ⟨0, 1⟩
      ⟨⟨0, 1⟩, TaskAttributes.init 2, Handle.invalid, Handle.invalid⟩)).access
        (.taskAction ⟨0, 1⟩ ⟨0, 1⟩)
  callStacks := [[.schedule ⟨0, 1⟩ 0 .retained]]

theorem interface_masks_placed_second :
    ∃ k target isPrivate caller',
      (run code secondWorker (goes 0 k)).top 0 =
        some (.schedulePush ⟨0, 1⟩ target isPrivate ⟨0, 1⟩ caller') ∧
      (isPrivate = true → chosenAfter 2 false [.set 1 true] target) := by
  have hstack : secondWorker.callStacks[0]? = some [.schedule ⟨0, 1⟩ 0 .retained] := rfl
  have haction : (secondWorker.mem.action
      (secondWorker.mem.task ⟨0, 1⟩).action).attributes.affinity =
      maskAfter secondWorker.mem 0 false [.set 1 true] := by decide
  have htask : (secondWorker.mem.task ⟨0, 1⟩).attributes.affinity =
      maskAfter secondWorker.mem 0 true [] := by decide
  obtain ⟨k, target, isPrivate, caller', htop, -, hprivate, -⟩ :=
    interface_masks_placed (by decide) hstack (by decide) (by decide) haction htask
  exact ⟨k, target, isPrivate, caller', htop, fun h => (hprivate h).1⟩

end Placement

end Embb.Mtapi
