import Mathlib.Algebra.Order.Group.Multiset
import Embb.Mtapi.Types

/-!
# The events of a task

All instances of a task share one record. Each of them takes a number, calls the action function
unless an instance has set an error before, and counts itself down; the one that counts down to
zero completes the task, and tells its group and its queue. The events that have happened and the
phases of the instances that are on their way determine each other, whatever the order of steps.
-/

namespace Embb.Mtapi

/-- What happens to a task. -/
inductive Event where
  | called (instanceNum : Nat)
  | skipped (instanceNum : Nat)
  | returned
  | counted
  | completed
  | ended
  | pushed
  | ungrouped
  | notified
  | unqueued
  | missed
  deriving DecidableEq, Repr

/-- How far an instance has come that has taken its number. -/
inductive Phase where
  | begun (instanceNum : Nat)
  | called (instanceNum : Nat)
  | done
  | completing
  | closing
  | pushing
  | notifying
  deriving DecidableEq, Repr

/-- The number of an instance that has called the action function, or skipped it. -/
def Event.number : Event → Option Nat
  | .called i | .skipped i => some i
  | _ => none

def Event.isSkipped : Event → Bool
  | .skipped _ => true
  | _ => false

/-- The number of an instance that has not called the action function yet. -/
def Phase.number : Phase → Option Nat
  | .begun i => some i
  | _ => none

def Phase.isCalled : Phase → Bool
  | .called _ => true
  | _ => false

/-- The instance has not counted itself down. -/
def Phase.isActive : Phase → Bool
  | .begun _ | .called _ | .done => true
  | _ => false

/-- A step of an instance, from one phase to another, with its events. -/
inductive Moves : List Phase → List Phase → List Event → Prop
  | call (i : Nat) : Moves [.begun i] [.called i] [.called i]
  | skip (i : Nat) : Moves [.begun i] [.done] [.skipped i]
  | return' (i : Nat) : Moves [.called i] [.done] [.returned]
  | complete : Moves [.completing] [.closing] [.completed]
  | group : Moves [.closing] [.pushing] [.ended]
  | alone : Moves [.closing] [.notifying] [.ended, .ungrouped]
  | leave : Moves [.closing] [] [.ended, .ungrouped, .unqueued]
  | miss : Moves [.closing] [] [.ended, .ungrouped, .missed]
  | push : Moves [.pushing] [.notifying] [.pushed]
  | last : Moves [.pushing] [] [.pushed, .unqueued]
  | lastMissed : Moves [.pushing] [] [.pushed, .missed]
  | notify : Moves [.notifying] [] [.notified]
  | stay (phases : List Phase) : Moves phases phases []

theorem Moves.count_counted {ps ps' : List Phase} {es : List Event} (h : Moves ps ps' es) :
    es.count .counted = 0 := by
  cases h <;> rfl

/-- What is known about a task with `waiting` instances that are not counted down, from its
history and the phases of its instances. -/
structure Counted (numInstances currentInstance waiting : Nat) (es : List Event)
    (phases : Multiset Phase) : Prop where
  todo : waiting + es.count .counted = numInstances
  numbers : (es.filterMap Event.number : Multiset Nat) + phases.filterMap Phase.number =
    Multiset.range currentInstance
  returned : es.count .returned + es.countP (fun x => x.isSkipped) +
    phases.countP (fun x => x.isCalled) = (es.filterMap Event.number).length
  counted : es.count .counted + phases.count .done =
    es.count .returned + es.countP (fun x => x.isSkipped)
  completed : es.count .completed + phases.count .completing = if waiting = 0 then 1 else 0
  ended : es.count .ended + phases.count .completing + phases.count .closing =
    if waiting = 0 then 1 else 0
  pushed : es.count .pushed + es.count .ungrouped + phases.count .pushing = es.count .ended
  notified : es.count .notified + es.count .unqueued + es.count .missed +
    phases.count .notifying = es.count .pushed + es.count .ungrouped

namespace Counted

variable {numInstances currentInstance waiting : Nat} {es : List Event} {others : Multiset Phase}

/-- A task that has just been started. -/
theorem start (h : numInstances ≠ 0) : Counted numInstances 0 numInstances [] 0 where
  todo := rfl
  numbers := rfl
  returned := rfl
  counted := rfl
  completed := (if_neg h).symm
  ended := (if_neg h).symm
  pushed := rfl
  notified := rfl

/-- A step of one instance keeps what is known. -/
theorem moves {ps ps' : List Phase} {es' : List Event} (hm : Moves ps ps' es')
    (h : Counted numInstances currentInstance waiting es (ps + others)) :
    Counted numInstances currentInstance waiting (es ++ es') (ps' + others) := by
  obtain ⟨h1, h2, h3, h4, h5, h6, h7, h8⟩ := h
  have hnumbers : (es'.filterMap Event.number : Multiset Nat) +
      (ps'.filterMap Phase.number : List Nat) = (ps.filterMap Phase.number : List Nat) := by
    cases hm <;> rfl
  have hcalled : es'.count .returned + es'.countP (fun x => x.isSkipped) +
      ps'.countP (fun x => x.isCalled) =
        (es'.filterMap Event.number).length + ps.countP (fun x => x.isCalled) := by
    cases hm <;> rfl
  have hdone : es'.count .counted + ps'.count .done =
      es'.count .returned + es'.countP (fun x => x.isSkipped) + ps.count .done := by
    cases hm <;> rfl
  have hcounted := hm.count_counted
  have hcompleted : es'.count .completed + ps'.count .completing = ps.count .completing := by
    cases hm
    all_goals first | rfl | exact Nat.zero_add _
  have hended : es'.count .ended + ps'.count .completing + ps'.count .closing =
      ps.count .completing + ps.count .closing := by
    cases hm
    all_goals first | rfl | (rw [List.count_nil, Nat.zero_add])
  have hpushed : es'.count .pushed + es'.count .ungrouped + ps'.count .pushing =
      es'.count .ended + ps.count .pushing := by
    cases hm <;> rfl
  have hnotified : es'.count .notified + es'.count .unqueued + es'.count .missed +
      ps'.count .notifying = es'.count .pushed + es'.count .ungrouped + ps.count .notifying := by
    cases hm <;> rfl
  simp only [Multiset.filterMap_add, Multiset.countP_add, Multiset.count_add, Multiset.coe_count,
    Multiset.coe_countP, Multiset.filterMap_coe, Bool.decide_eq_true] at h2 h3 h4 h5 h6 h7 h8
  constructor
  all_goals simp only [Multiset.filterMap_add, Multiset.countP_add, Multiset.count_add,
    Multiset.coe_count, Multiset.coe_countP, Multiset.filterMap_coe, Bool.decide_eq_true,
    List.count_append, List.countP_append, List.filterMap_append, List.length_append]
  · omega
  · rw [← h2, ← hnumbers, ← Multiset.coe_add]
    simp only [add_assoc]
  · omega
  · omega
  · omega
  · omega
  · omega
  · omega

/-- An instance takes its number. -/
theorem begin (h : Counted numInstances currentInstance waiting es others) :
    Counted numInstances (currentInstance + 1) waiting es
      (([.begun currentInstance] : List Phase) + others) := by
  obtain ⟨h1, h2, h3, h4, h5, h6, h7, h8⟩ := h
  rw [Multiset.coe_singleton, Multiset.singleton_add]
  constructor
  · exact h1
  · rw [Multiset.filterMap_cons_some Phase.number (.begun currentInstance) others rfl,
      Multiset.add_cons, h2, Multiset.range_succ]
  · rw [Multiset.countP_cons_of_neg _ (by exact Bool.noConfusion)]
    exact h3
  · rw [Multiset.count_cons_of_ne Phase.noConfusion]
    exact h4
  · rw [Multiset.count_cons_of_ne Phase.noConfusion]
    exact h5
  · rw [Multiset.count_cons_of_ne Phase.noConfusion, Multiset.count_cons_of_ne Phase.noConfusion]
    exact h6
  · rw [Multiset.count_cons_of_ne Phase.noConfusion]
    exact h7
  · rw [Multiset.count_cons_of_ne Phase.noConfusion]
    exact h8

/-- An instance counts itself down, and leaves it to the others to complete the task, or is the
last one. -/
theorem countDown {ps : List Phase} (h : Counted numInstances currentInstance (waiting + 1) es
      (([.done] : List Phase) + others))
    (hps : ps = if waiting = 0 then [.completing] else []) :
    Counted numInstances currentInstance waiting (es ++ [.counted]) (ps + others) := by
  obtain ⟨h1, h2, h3, h4, h5, h6, h7, h8⟩ := h
  have hnumbers : ps.filterMap Phase.number = [] := by
    rw [hps]
    split <;> rfl
  have hcalled : ps.countP (fun x => x.isCalled) = 0 := by
    rw [hps]
    split <;> rfl
  have hdone : ps.count .done = 0 ∧ ps.count .closing = 0 ∧ ps.count .pushing = 0 ∧
      ps.count .notifying = 0 := by
    rw [hps]
    split <;> exact ⟨rfl, rfl, rfl, rfl⟩
  have hcompleting : ps.count .completing = if waiting = 0 then 1 else 0 := by
    rw [hps]
    split <;> rfl
  simp only [Multiset.filterMap_add, Multiset.countP_add, Multiset.count_add, Multiset.coe_count,
    Multiset.coe_countP, Multiset.filterMap_coe, Bool.decide_eq_true, if_neg (Nat.succ_ne_zero _)]
    at h2 h3 h4 h5 h6 h7 h8
  constructor
  all_goals simp only [Multiset.filterMap_add, Multiset.countP_add, Multiset.count_add,
    Multiset.coe_count, Multiset.coe_countP, Multiset.filterMap_coe, Bool.decide_eq_true,
    List.count_append, List.countP_append, List.filterMap_append, List.length_append, hnumbers,
    hcalled, hdone, hcompleting]
  · change _ + (es.count .counted + 1) = _
    omega
  · rw [show [Event.counted].filterMap Event.number = [] from rfl, List.append_nil]
    exact h2
  · change es.count .returned + 0 + (_ + 0) + _ = (es.filterMap Event.number).length + 0
    change _ + (0 + _) = _ at h3
    omega
  · change es.count .counted + 1 + _ = es.count .returned + 0 + (_ + 0)
    change es.count .counted + (1 + _) = _ at h4
    omega
  · change es.count .completed + 0 + _ = _
    change es.count .completed + (0 + _) = _ at h5
    omega
  · change es.count .ended + 0 + _ + _ = _
    change es.count .ended + (0 + _) + (0 + _) = _ at h6
    omega
  · change es.count .pushed + 0 + (es.count .ungrouped + 0) + _ = es.count .ended + 0
    change _ + (0 + _) = _ at h7
    omega
  · change es.count .notified + 0 + (es.count .unqueued + 0) + (es.count .missed + 0) + _ =
      es.count .pushed + 0 + (es.count .ungrouped + 0)
    change _ + (0 + _) = _ at h8
    omega

theorem countP_isActive (phases : Multiset Phase) :
    phases.countP (fun x => x.isActive) = (phases.filterMap Phase.number).card +
      phases.countP (fun x => x.isCalled) + phases.count .done := by
  induction phases using Multiset.induction_on with
  | empty => rfl
  | cons x phases ih =>
    rw [Multiset.countP_cons, Multiset.countP_cons, Multiset.count_cons, Multiset.filterMap_cons,
      Multiset.card_add, ih]
    cases x <;> simp [Phase.isActive, Phase.isCalled, Phase.number] <;> omega

/-- The instances that have taken a number are those that are counted down, and those that are
active. -/
theorem currentInstance_eq (h : Counted numInstances currentInstance waiting es others) :
    currentInstance = es.count .counted + others.countP (fun x => x.isActive) := by
  have hcard := congrArg Multiset.card h.numbers
  rw [Multiset.card_add, Multiset.coe_card, Multiset.card_range] at hcard
  have hreturned := h.returned
  have hcounted := h.counted
  rw [countP_isActive]
  omega

end Counted

/-- What the history of a task with so many instances says, in every state. -/
structure RunOnce (numInstances : Nat) (state : TaskState) (es : List Event) : Prop where
  nodup : (es.filterMap Event.number).Nodup
  lt : ∀ i ∈ es.filterMap Event.number, i < numInstances
  completed : es.count .completed ≤ 1
  pushed : es.count .pushed ≤ 1
  notified : es.count .notified ≤ 1
  finished : .completed ∈ es → state = .completed ∧
    (es.filterMap Event.number).Perm (List.range numInstances) ∧
    es.count .returned + es.countP (fun x => x.isSkipped) = numInstances

namespace Counted

variable {numInstances currentInstance waiting : Nat} {es : List Event} {phases : Multiset Phase}

theorem runOnce {state : TaskState} (h : Counted numInstances currentInstance waiting es phases)
    (hactive : phases.countP (fun x => x.isActive) ≤ waiting)
    (hstate : .completed ∈ es → state = .completed) : RunOnce numInstances state es := by
  have hcurrent := h.currentInstance_eq
  have htodo := h.todo
  have hcompleted := h.completed
  have hended := h.ended
  have hpushed := h.pushed
  have hnotified := h.notified
  have hle : currentInstance ≤ numInstances := by omega
  have hsub : (es.filterMap Event.number : Multiset Nat) ≤ Multiset.range currentInstance := by
    rw [← h.numbers]
    exact Multiset.le_add_right _ _
  have hone : (if waiting = 0 then 1 else 0) ≤ 1 := by
    split <;> omega
  constructor
  · exact Multiset.coe_nodup.mp (Multiset.nodup_of_le hsub (Multiset.nodup_range _))
  · intro i hi
    have hlt := Multiset.mem_range.mp (Multiset.mem_of_le hsub hi)
    omega
  · omega
  · omega
  · omega
  · intro hc
    have hpos := List.count_pos_iff.mpr hc
    have hzero : waiting = 0 := by
      by_contra hne
      rw [if_neg hne] at hcompleted
      omega
    rw [countP_isActive] at hactive hcurrent
    have hcounted := h.counted
    have hnone : phases.filterMap Phase.number = 0 := Multiset.card_eq_zero.mp (by omega)
    have hnumbers := h.numbers
    rw [hnone, add_zero, show currentInstance = numInstances by omega] at hnumbers
    exact ⟨hstate hc, Multiset.coe_eq_coe.mp hnumbers, by omega⟩

/-- Once no instance is left and none is on its way, everybody has been told. -/
theorem told (h : Counted numInstances currentInstance waiting es 0) (hw : waiting = 0) :
    es.count .completed = 1 ∧ es.count .pushed + es.count .ungrouped = 1 ∧
      es.count .notified + es.count .unqueued + es.count .missed = 1 := by
  have hcompleted := h.completed
  have hended := h.ended
  have hpushed := h.pushed
  have hnotified := h.notified
  rw [if_pos hw] at hcompleted hended
  simp only [Multiset.count_zero, add_zero] at hcompleted hended hpushed hnotified
  omega

end Counted

end Embb.Mtapi
