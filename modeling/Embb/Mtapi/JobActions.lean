import Embb.Lib.Histories
import Embb.Mtapi.PoolMemory
import Embb.Mtapi.Scheduler.Machine

/-!
# The action list of a job

`mtapi_action_create` and `mtapi_ext_plugin_action_create` enter a new action in the list of
its job, and `mtapi_action_delete` takes it out again. Neither asks whether the list had room
or held the action.
-/

namespace Embb.Mtapi

open PoolObject

namespace Job

/-- The handles in the list of a job. -/
def entries (j : Job) : List Handle := (List.range j.numActions).map j.actions

theorem mem_entries {j : Job} {h : Handle} :
    h ∈ j.entries ↔ ∃ ii, ii < j.numActions ∧ j.actions ii = h := by
  simp only [entries, List.mem_map, List.mem_range]

@[simp] theorem length_entries (j : Job) : j.entries.length = j.numActions := by
  rw [entries, List.length_map, List.length_range]

/-- A list with room takes the action at its end. -/
theorem entries_addAction {j : Job} (hj : j.numActions < j.maxActions) (action : Handle) :
    (j.addAction action).entries = j.entries ++ [action] := by
  simp only [addAction, hj, ↓reduceIte, entries, List.range_succ, List.map_append,
    List.map_cons, List.map_nil, Function.update_self]
  congr 1
  refine List.map_congr_left fun ii hii => ?_
  rw [Function.update_of_ne]
  have hlt := List.mem_range.mp hii
  omega

theorem addAction_of_full {j : Job} (hj : ¬ j.numActions < j.maxActions) (action : Handle) :
    j.addAction action = j :=
  if_neg hj

theorem actions_inj {j : Job} (hn : j.entries.Nodup) {ii jj : Nat} (hii : ii < j.numActions)
    (hjj : jj < j.numActions) (h : j.actions ii = j.actions jj) : ii = jj :=
  List.inj_on_of_nodup_map hn (List.mem_range.mpr hii) (List.mem_range.mpr hjj) h

/-- A list without repetitions loses exactly the action that is taken out of it. -/
theorem entries_removeAction {j : Job} (hn : j.entries.Nodup) (hj : j.numActions < uintRange)
    {action : Handle} (hm : action ∈ j.entries) :
    (j.removeAction action).entries.Nodup ∧
      ∀ h, h ∈ (j.removeAction action).entries ↔ h ∈ j.entries ∧ h ≠ action := by
  obtain ⟨kk, hkk, hact⟩ := mem_entries.mp hm
  have hnum : (j.removeAction action).numActions = j.numActions - 1 :=
    uintPred_of_pos (by omega) hj
  have hactions : ∀ ii, ii < j.numActions - 1 → (j.removeAction action).actions ii =
      if ii = kk then j.actions (j.numActions - 1) else j.actions ii := by
    intro ii hii
    have hiff : (ii + 1 < j.numActions ∧ j.actions ii = action) ↔ ii = kk := by
      constructor
      · rintro ⟨-, heq⟩
        exact actions_inj hn (by omega) hkk (heq.trans hact.symm)
      · rintro rfl
        exact ⟨by omega, hact⟩
    simp only [removeAction, hiff]
  constructor
  · rw [entries, hnum]
    refine List.Nodup.map_on (fun ii hii jj hjj heq => ?_) List.nodup_range
    rw [List.mem_range] at hii hjj
    rw [hactions ii hii, hactions jj hjj] at heq
    split_ifs at heq with h₁ h₂ h₂
    · rw [h₁, h₂]
    · have hlast := actions_inj hn (by omega) (by omega) heq
      omega
    · have hlast := actions_inj hn (by omega) (by omega) heq
      omega
    · exact actions_inj hn (by omega) (by omega) heq
  · intro h
    rw [mem_entries, mem_entries, hnum]
    constructor
    · rintro ⟨ii, hii, heq⟩
      rw [hactions ii hii] at heq
      split_ifs at heq with hk
      · refine ⟨⟨_, by omega, heq⟩, ?_⟩
        rintro rfl
        have hlast := actions_inj hn (by omega) hkk (heq.trans hact.symm)
        omega
      · refine ⟨⟨ii, by omega, heq⟩, ?_⟩
        rintro rfl
        exact hk (actions_inj hn (by omega) hkk (heq.trans hact.symm))
    · rintro ⟨⟨ii, hii, heq⟩, hne⟩
      have hik : ii ≠ kk := by
        rintro rfl
        exact hne (heq.symm.trans hact)
      by_cases hlast : ii = j.numActions - 1
      · refine ⟨kk, by omega, ?_⟩
        rw [hactions kk (by omega), if_pos rfl, ← hlast, heq]
      · refine ⟨ii, by omega, ?_⟩
        rw [hactions ii (by omega), if_neg hik, heq]

@[simp] theorem maxActions_removeAction (j : Job) (action : Handle) :
    (j.removeAction action).maxActions = j.maxActions := by
  have h : ∀ f k, ({ j with actions := f, numActions := k } : Job).maxActions = j.maxActions :=
    fun _ _ => rfl
  exact h _ _

/-- A removal changes the length of the list in any case. -/
theorem numActions_removeAction_ne (j : Job) (action : Handle) :
    (j.removeAction action).numActions ≠ j.numActions := by
  intro h
  have hpred : (j.numActions + (uintRange - 1)) % uintRange = j.numActions := h
  have hlt := Nat.mod_lt (j.numActions + (uintRange - 1)) (show 0 < uintRange by decide)
  rw [hpred] at hlt
  by_cases hz : j.numActions = 0
  · rw [hz] at hpred
    exact absurd hpred (by decide)
  · have hsub : j.numActions - 1 = j.numActions :=
      (uintPred_of_pos (Nat.pos_of_ne_zero hz) hlt).symm.trans hpred
    omega

end Job

namespace Node

/-- `mtapi_action_create` and `mtapi_ext_plugin_action_create` differ in the functions they store
and in a flag: the status and the handle returned. -/
def createActionFor (n : Node) (isPluginAction : Bool) (jobId : Nat)
    (attributes : Option ActionAttributes) : Node × Status × Handle :=
  if n.jobIsIdValid jobId then
    match n.actionPool.allocate.2 with
    | some action =>
      let attr := attributes.getD (.init n.workerCount)
      let n' := (n.setActionPool n.actionPool.allocate.1).modifyAction action fun x =>
        { x.create jobId attr with isPluginAction := isPluginAction }
      if attr.affinity = 0 then
        (n'.setActionPool (n'.actionPool.deallocate action), .errParameter, Handle.invalid)
      else (n'.setJob jobId ((n'.jobList jobId).addAction action), .success, action)
    | none => (n.setActionPool n.actionPool.allocate.1, .errActionLimit, Handle.invalid)
  else (n, .errJobInvalid, Handle.invalid)

/-- `mtapi_action_create`. -/
def actionCreate (n : Node) (jobId : Nat) (attributes : Option ActionAttributes) :
    Node × Status × Handle :=
  n.createActionFor false jobId attributes

/-- `mtapi_ext_plugin_action_create`. -/
def pluginActionCreate (n : Node) (jobId : Nat) (attributes : Option ActionAttributes) :
    Node × Status × Handle :=
  n.createActionFor true jobId attributes

/-- The last part of `mtapi_action_delete`. -/
def removeAction (n : Node) (action : Ptr) : Node :=
  let jobId := (n.action action).jobId
  let n' :=
    if n.jobIsIdValid jobId then
      n.setJob jobId ((n.jobList jobId).removeAction (n.action action).handle)
    else n
  n'.setActionPool (n'.actionPool.deallocate action)

/-- A deletion takes its action out of the list of its job if it names one. -/
theorem removeAction_jobList (n : Node) (action : Ptr) :
    (n.removeAction action).jobList =
      if n.jobIsIdValid (n.action action).jobId then
        Function.update n.jobList (n.action action).jobId
          ((n.jobList (n.action action).jobId).removeAction (n.action action).handle)
      else n.jobList := by
  simp only [removeAction]
  split <;> rfl

@[simp] theorem removeAction_actionPool (n : Node) (action : Ptr) :
    (n.removeAction action).actionPool = n.actionPool.deallocate action := by
  simp only [removeAction]
  split <;> rfl

@[simp] theorem removeAction_attributes (n : Node) (action : Ptr) :
    (n.removeAction action).attributes = n.attributes := by
  simp only [removeAction]
  split <;> rfl

/-- `mtapi_action_delete` while no task is in any queue of the workers. The call does not return
when the counter of the slot is not zero and the timeout is infinite. -/
def actionDelete (n : Node) (action : Handle) (timeout : Int) : Node × Option Status :=
  if n.actionPool.isHandleValid action then
    if (n.action action).numTasks = 0 then (n.removeAction action, some .success)
    else if infinite < timeout then (n.removeAction action, some .timeout)
    else (n, none)
  else (n, some .errActionInvalid)

/-- A creation that gets a slot and has a sane affinity. -/
def Accepts (n : Node) (jobId : Nat) (attributes : Option ActionAttributes) : Prop :=
  n.jobIsIdValid jobId = true ∧ n.actionPool.allocate.2 ≠ none ∧
    (attributes.getD (.init n.workerCount)).affinity ≠ 0

end Node

/-- A call that creates or deletes an action. -/
inductive ActionCall
  | create (jobId : Nat) (attributes : Option ActionAttributes)
  | pluginCreate (jobId : Nat) (attributes : Option ActionAttributes)
  | delete (action : Handle) (timeout : Int)

/-- A node, the actions that have been created on it and not deleted since, with their jobs, and
the entries of the pool that have been in use. -/
structure ActionTable where
  node : Node
  live : List (Handle × Nat)
  touched : List Nat

namespace ActionTable

/-- The table after a creation with the given outcome. -/
def created (s : ActionTable) (jobId : Nat) (r : Node × Status × Handle) : ActionTable where
  node := r.1
  live := if r.2.1 = .success then (r.2.2, jobId) :: s.live else s.live
  touched :=
    if s.node.jobIsIdValid jobId then
      s.node.actionPool.allocate.2.toList.map Handle.id ++ s.touched
    else s.touched

/-- The table after one call. -/
def step (s : ActionTable) : ActionCall → ActionTable
  | .create jobId attributes => s.created jobId (s.node.actionCreate jobId attributes)
  | .pluginCreate jobId attributes => s.created jobId (s.node.pluginActionCreate jobId attributes)
  | .delete action timeout =>
    let r := s.node.actionDelete action timeout
    if r.2 = some .success ∨ r.2 = some .timeout then
      ⟨r.1, s.live.filter (·.1 ≠ action), action.id :: s.touched⟩
    else { s with node := r.1 }

def run (s : ActionTable) (calls : List ActionCall) : ActionTable := calls.foldl step s

/-- The table of a new node whose pool of actions lies in the given memory. -/
def start (attributes : NodeAttributes) (mode : SchedulerMode) (memory : Nat → Action)
    (queues : Nat → Queue) : ActionTable :=
  ⟨Node.initOver attributes mode memory queues, [], []⟩

/-- The live actions of a job. -/
def actionsOf (s : ActionTable) (jobId : Nat) : List Handle :=
  (s.live.filter (·.2 = jobId)).map Prod.fst

/-- The list of every job holds the live actions created for it, each once. -/
structure Exact (s : ActionTable) : Prop where
  once : ∀ jobId, s.node.jobIsIdValid jobId = true → (s.node.jobList jobId).entries.Nodup
  mem_iff : ∀ jobId, s.node.jobIsIdValid jobId = true → ∀ h,
    h ∈ (s.node.jobList jobId).entries ↔ h ∈ s.actionsOf jobId

/-- No action is created for a job that has as many of them as it may, and no deletion is given
the handle of an entry that has never been in use where the memory happens to hold the id of a
job. -/
def Fits (memory : Nat → Action) (s : ActionTable) : ActionCall → Prop
  | .create jobId attributes | .pluginCreate jobId attributes =>
    s.node.Accepts jobId attributes →
      (s.actionsOf jobId).length < s.node.attributes.maxActionsPerJob
  | .delete action timeout =>
    s.node.actionPool.isHandleValid action = true → action.id ∉ s.touched →
      (memory action.id).numTasks = 0 ∨ infinite < timeout →
        ¬ s.node.jobIsIdValid (memory action.id).jobId = true

/-- All calls fit. -/
def AllFit (memory : Nat → Action) : ActionTable → List ActionCall → Prop
  | _, [] => True
  | s, call :: calls => Fits memory s call ∧ AllFit memory (s.step call) calls

/-- The live actions are those in use and carry the ids of their jobs; no entry given back has
one. -/
structure Inv (memory : Nat → Action) (s : ActionTable) : Prop where
  tracked : s.node.actionPool.Tracked memory (fun x => x.jobId = 0) (s.live.map Prod.fst)
    s.touched
  jobId : ∀ e ∈ s.live, (s.node.action e.1).jobId = e.2
  valid : ∀ e ∈ s.live, s.node.jobIsIdValid e.2 = true
  maxActions : ∀ jobId, (s.node.jobList jobId).maxActions = s.node.attributes.maxActionsPerJob

/-- The writes of a creation to its slot. -/
def newAction (b : Bool) (jobId : Nat) (attr : ActionAttributes) (x : Action) : Action :=
  { x.create jobId attr with isPluginAction := b }

/-- What a creation that is accepted does. -/
theorem created_of_accepts {s : ActionTable} (b : Bool) {jobId : Nat}
    {attributes : Option ActionAttributes} (h : s.node.Accepts jobId attributes) :
    ∃ x, s.node.actionPool.allocate.2 = some x ∧
      s.created jobId (s.node.createActionFor b jobId attributes) =
        ⟨((s.node.setActionPool s.node.actionPool.allocate.1).modifyAction x
            (newAction b jobId (attributes.getD (.init s.node.workerCount)))).setJob jobId
              ((s.node.jobList jobId).addAction x),
          (x, jobId) :: s.live, x.id :: s.touched⟩ := by
  obtain ⟨hjob, hsome, haff⟩ := h
  cases hx : s.node.actionPool.allocate.2 with
  | none => exact absurd hx hsome
  | some x =>
    refine ⟨x, rfl, ?_⟩
    simp only [created, Node.createActionFor, hjob, hx, haff, ↓reduceIte]
    rfl

theorem mem_actionsOf {s : ActionTable} {jobId : Nat} {h : Handle} :
    h ∈ s.actionsOf jobId ↔ (h, jobId) ∈ s.live := by
  simp only [actionsOf, List.mem_map, List.mem_filter, decide_eq_true_eq]
  constructor
  · rintro ⟨⟨h', id⟩, ⟨hm, rfl⟩, rfl⟩
    exact hm
  · exact fun hm => ⟨_, ⟨hm, rfl⟩, rfl⟩

/-- No list is longer than it may be. -/
def Bounded (s : ActionTable) : Prop :=
  ∀ jobId, s.node.jobIsIdValid jobId = true →
    (s.node.jobList jobId).numActions ≤ s.node.attributes.maxActionsPerJob

namespace Inv

variable {memory : Nat → Action} {s : ActionTable}

theorem start (attributes : NodeAttributes) (mode : SchedulerMode) (queues : Nat → Queue) :
    Inv memory (start attributes mode memory queues) where
  tracked := Pool.Tracked.init _ (fun _ => rfl) fun _ => rfl
  jobId _ he := absurd he List.not_mem_nil
  valid _ he := absurd he List.not_mem_nil
  maxActions _ := rfl

/-- The objects of the clients when an allocation returns a slot. -/
theorem mem_of_allocate (hI : Inv memory s) {x : Ptr}
    (hx : s.node.actionPool.allocate.2 = some x) {e : Handle × Nat} (he : e ∈ s.live) :
    e.1 ∈ x :: s.live.map Prod.fst ∧ e.1 ≠ x := by
  have hm : e.1 ∈ s.live.map Prod.fst := List.mem_map_of_mem he
  refine ⟨List.mem_cons_of_mem _ hm, fun heq => ?_⟩
  exact Pool.not_live_of_allocate hI.tracked.sound hx (heq ▸ hI.tracked.live hm)

theorem accepted (hI : Inv memory s) (b : Bool) {jobId : Nat}
    {attributes : Option ActionAttributes} (h : s.node.Accepts jobId attributes) :
    Inv memory (s.created jobId (s.node.createActionFor b jobId attributes)) := by
  obtain ⟨x, hx, heq⟩ := created_of_accepts b h
  rw [heq]
  have hA := hI.tracked.allocate hx
  refine ⟨hA.modify List.mem_cons_self fun _ => rfl, fun e he => ?_, fun e he => ?_,
    fun id => ?_⟩
  · rcases List.mem_cons.mp he with rfl | he
    · rw [Node.action, Node.setJob_actionPool, ← Node.action, Node.action_modifyAction_self]
      rfl
    · obtain ⟨hm, hne⟩ := hI.mem_of_allocate hx he
      have hs := hA.storage_modify List.mem_cons_self hm hne
        (newAction b jobId (attributes.getD (.init s.node.workerCount)))
      have hs' := hI.tracked.storage_allocate (List.mem_map_of_mem he)
      have hj := hI.jobId e he
      rw [Node.action, ← hs', ← hs] at hj
      exact hj
  · rcases List.mem_cons.mp he with rfl | he
    · exact h.1
    · exact hI.valid e he
  · rw [Node.setJob_jobList]
    by_cases hid : id = jobId
    · rw [hid, Function.update_self]
      unfold Job.addAction
      split
      · exact hI.maxActions jobId
      · exact hI.maxActions jobId
    · rw [Function.update_of_ne hid]
      exact hI.maxActions id

/-- A creation that is refused leaves jobs and live actions alone. -/
theorem refused (hI : Inv memory s) (b : Bool) {jobId : Nat}
    {attributes : Option ActionAttributes} (h : ¬ s.node.Accepts jobId attributes) :
    let s' := s.created jobId (s.node.createActionFor b jobId attributes)
    Inv memory s' ∧ s'.live = s.live ∧ s'.node.jobList = s.node.jobList ∧
      s'.node.attributes = s.node.attributes := by
  have hT := hI.tracked
  by_cases hjob : s.node.jobIsIdValid jobId = true
  · cases hx : s.node.actionPool.allocate.2 with
    | none =>
      have hstatus : ¬ Status.errActionLimit = Status.success := by decide
      simp only [created, Node.createActionFor, hjob, hx, hstatus, ↓reduceIte]
      refine ⟨⟨hT.allocate_none hx, fun e he => ?_, hI.valid, hI.maxActions⟩, trivial, rfl, rfl⟩
      rw [Node.action, Node.setActionPool_actionPool, Pool.allocate_none hx]
      exact hI.jobId e he
    | some x =>
      have haff : (attributes.getD (.init s.node.workerCount)).affinity = 0 := by
        by_contra haff
        exact h ⟨hjob, by simp [hx], haff⟩
      have hstatus : ¬ Status.errParameter = Status.success := by decide
      simp only [created, Node.createActionFor, hjob, hx, haff, hstatus, ↓reduceIte]
      have hA := hT.allocate hx
      let f := newAction b jobId (attributes.getD (.init s.node.workerCount))
      have hM := hA.modify List.mem_cons_self (f := f) fun _ => rfl
      refine ⟨⟨hM.deallocate_head (fun _ _ hq => hq) fun _ => rfl, fun e he => ?_, hI.valid,
        hI.maxActions⟩, trivial, rfl, rfl⟩
      obtain ⟨hm, hne⟩ := hI.mem_of_allocate hx he
      have hd := hM.storage_deallocate (hM.live List.mem_cons_self).valid hm hne
      have hs := hA.storage_modify List.mem_cons_self hm hne f
      have hs' := hT.storage_allocate (List.mem_map_of_mem he)
      have hj := hI.jobId e he
      rw [Node.action, ← hs', ← hs, ← hd] at hj
      exact hj
  · have hstatus : ¬ Status.errJobInvalid = Status.success := by decide
    simp only [created, Node.createActionFor, hjob, hstatus, Bool.false_eq_true, ↓reduceIte]
    exact ⟨hI, trivial, trivial, trivial⟩

/-- A deletion that goes through. -/
theorem removed (hI : Inv memory s) {action : Handle}
    (hv : s.node.actionPool.isHandleValid action = true) :
    Inv memory ⟨s.node.removeAction action, s.live.filter (·.1 ≠ action),
      action.id :: s.touched⟩ := by
  have hT := hI.tracked
  have hlive : (s.live.filter (·.1 ≠ action)).map Prod.fst =
      (s.live.map Prod.fst).erase action :=
    Pool.map_filter_ne hT.nodup action
  refine ⟨?_, fun e he => ?_, fun e he => ?_, fun id => ?_⟩
  · rw [hlive, Node.removeAction_actionPool]
    exact hT.deallocate (fun _ _ hq => hq) (fun _ => rfl) hv fun _ => List.mem_cons
  · obtain ⟨he, hne⟩ := List.mem_filter.mp he
    have hs := hT.storage_deallocate hv (List.mem_map_of_mem he) (of_decide_eq_true hne)
    have hj := hI.jobId e he
    rw [Node.action, ← hs] at hj
    rw [Node.action, Node.removeAction_actionPool]
    exact hj
  · have hvalid := hI.valid e (List.mem_of_mem_filter he)
    simp only [Node.jobIsIdValid, Node.removeAction_attributes] at hvalid ⊢
    exact hvalid
  · rw [Node.removeAction_jobList, Node.removeAction_attributes]
    split
    · by_cases hid : id = (s.node.action action).jobId
      · rw [hid, Function.update_self, Job.maxActions_removeAction]
        exact hI.maxActions _
      · rw [Function.update_of_ne hid]
        exact hI.maxActions id
    · exact hI.maxActions id

/-- A call of `mtapi_action_delete` removes the action, or changes nothing. -/
theorem delete_cases (s : ActionTable) (action : Handle) (timeout : Int) :
    (s.node.actionPool.isHandleValid action = true ∧
      ((s.node.action action).numTasks = 0 ∨ infinite < timeout) ∧
      s.step (.delete action timeout) =
        ⟨s.node.removeAction action, s.live.filter (·.1 ≠ action), action.id :: s.touched⟩) ∨
    (¬ (s.node.actionPool.isHandleValid action = true ∧
      ((s.node.action action).numTasks = 0 ∨ infinite < timeout)) ∧
      s.step (.delete action timeout) = s) := by
  simp only [ActionTable.step, Node.actionDelete]
  by_cases hv : s.node.actionPool.isHandleValid action = true
  · by_cases h0 : (s.node.action action).numTasks = 0
    · simp only [hv, h0, ↓reduceIte, true_or, and_self]
    · by_cases hw : infinite < timeout
      · simp only [hv, h0, hw, ↓reduceIte, or_true, and_self, true_or]
      · simp only [hv, h0, hw, ↓reduceIte, reduceCtorEq, or_self, and_false, not_false_iff,
          and_self, or_true]
  · simp only [hv, Bool.false_eq_true, ↓reduceIte, Option.some.injEq, reduceCtorEq, or_self,
      false_and, not_false_iff, and_self, or_true]

theorem created_inv (hI : Inv memory s) (b : Bool) (jobId : Nat)
    (attributes : Option ActionAttributes) :
    Inv memory (s.created jobId (s.node.createActionFor b jobId attributes)) := by
  by_cases h : s.node.Accepts jobId attributes
  · exact hI.accepted b h
  · exact (hI.refused b h).1

theorem step (hI : Inv memory s) (call : ActionCall) : Inv memory (s.step call) := by
  cases call with
  | create jobId attributes => exact hI.created_inv false jobId attributes
  | pluginCreate jobId attributes => exact hI.created_inv true jobId attributes
  | delete action timeout =>
    rcases delete_cases s action timeout with ⟨hv, -, heq⟩ | ⟨-, heq⟩
    · rw [heq]
      exact hI.removed hv
    · rwa [heq]

/-- The live actions of a job are those in use that carry its id. -/
theorem nodup_actionsOf (hI : Inv memory s) (jobId : Nat) : (s.actionsOf jobId).Nodup :=
  hI.tracked.nodup.sublist (List.filter_sublist.map Prod.fst)

theorem job_unique (hI : Inv memory s) {h : Handle} {id id' : Nat} (hm : (h, id) ∈ s.live)
    (hm' : (h, id') ∈ s.live) : id = id' :=
  (hI.jobId _ hm).symm.trans (hI.jobId _ hm')

/-- An exact list is as long as its job has live actions. -/
theorem numActions_eq (hI : Inv memory s) (hE : s.Exact) {jobId : Nat}
    (hv : s.node.jobIsIdValid jobId = true) :
    (s.node.jobList jobId).numActions = (s.actionsOf jobId).length := by
  rw [← Job.length_entries]
  refine List.Perm.length_eq ?_
  rw [List.perm_ext_iff_of_nodup (hE.once jobId hv) (hI.nodup_actionsOf jobId)]
  exact hE.mem_iff jobId hv

/-- A new action is entered exactly if its job has fewer of them than it may have. -/
theorem exact_created (hI : Inv memory s) (hE : s.Exact) (hB : s.Bounded) (b : Bool)
    (jobId : Nat) (attributes : Option ActionAttributes) :
    let s' := s.created jobId (s.node.createActionFor b jobId attributes)
    (s'.Exact ↔ (s.node.Accepts jobId attributes →
      (s.actionsOf jobId).length < s.node.attributes.maxActionsPerJob)) ∧ s'.Bounded := by
  by_cases h : s.node.Accepts jobId attributes
  · obtain ⟨x, hx, heq⟩ := created_of_accepts b h
    rw [heq]
    have hnew : ∀ id, (x, id) ∉ s.live := fun id hm =>
      Pool.not_live_of_allocate hI.tracked.sound hx (hI.tracked.live (List.mem_map_of_mem hm))
    have hnum := hI.numActions_eq hE h.1
    have hmax := hI.maxActions jobId
    have hjob := h.1
    constructor
    · constructor
      · intro hE' _
        by_contra hfull
        have hm := (hE'.mem_iff jobId hjob x).mpr (mem_actionsOf.mpr List.mem_cons_self)
        rw [Node.setJob_jobList, Function.update_self, Job.addAction_of_full (by omega),
          hE.mem_iff jobId hjob, mem_actionsOf] at hm
        exact hnew jobId hm
      · intro hroom
        have hlt := hroom h
        have hentries := Job.entries_addAction (j := s.node.jobList jobId) (by omega) x
        refine ⟨fun id hid => ?_, fun id hid y => ?_⟩
        · rw [Node.setJob_jobList]
          by_cases hij : id = jobId
          · rw [hij, Function.update_self, hentries, List.nodup_append]
            refine ⟨hE.once jobId hjob, List.nodup_singleton x, fun y hy z hz hyz => ?_⟩
            rw [List.mem_singleton] at hz
            rw [hyz, hz, hE.mem_iff jobId hjob, mem_actionsOf] at hy
            exact hnew jobId hy
          · rw [Function.update_of_ne hij]
            exact hE.once id hid
        · rw [Node.setJob_jobList, mem_actionsOf, List.mem_cons, Prod.mk.injEq, ← mem_actionsOf]
          by_cases hij : id = jobId
          · rw [hij, Function.update_self, hentries, List.mem_append, List.mem_singleton,
              hE.mem_iff jobId hjob, or_comm, eq_self, and_true]
          · rw [Function.update_of_ne hij, ← hE.mem_iff id hid]
            simp only [hij, and_false, false_or]
            rfl
    · intro id hid
      rw [Node.setJob_jobList]
      by_cases hij : id = jobId
      · have hle := hB jobId hjob
        rw [hij, Function.update_self]
        by_cases hroom : (s.node.jobList jobId).numActions < (s.node.jobList jobId).maxActions
        · have hlen := congrArg List.length (Job.entries_addAction hroom x)
          rw [Job.length_entries, List.length_append, Job.length_entries,
            List.length_singleton] at hlen
          show _ ≤ s.node.attributes.maxActionsPerJob
          omega
        · rw [Job.addAction_of_full hroom]
          exact hle
      · rw [Function.update_of_ne hij]
        exact hB id hid
  · obtain ⟨-, hlive, hjobs, hattr⟩ := hI.refused b h
    refine ⟨iff_of_true ⟨fun id hid => ?_, fun id hid y => ?_⟩ fun ha => absurd ha h,
      fun id hid => ?_⟩
    all_goals simp only [Node.jobIsIdValid, hattr] at hid
    · rw [hjobs]
      exact hE.once id (by simpa only [Node.jobIsIdValid] using hid)
    · rw [hjobs, actionsOf, hlive]
      exact hE.mem_iff id (by simpa only [Node.jobIsIdValid] using hid) y
    · rw [hjobs, hattr]
      exact hB id (by simpa only [Node.jobIsIdValid] using hid)

/-- The entry that a valid handle names holds this live action, or it is free. -/
theorem entry_cases (hI : Inv memory s) {action : Handle}
    (hv : s.node.actionPool.isHandleValid action = true) :
    (∃ jobId, (action, jobId) ∈ s.live) ∨
      ((∀ jobId, (action, jobId) ∉ s.live) ∧
        (s.node.action action).handle.id = idPoolInvalidId) := by
  by_cases hm : action ∈ s.live.map Prod.fst
  · obtain ⟨⟨h, jobId⟩, he, rfl⟩ := List.mem_map.mp hm
    exact Or.inl ⟨jobId, he⟩
  · refine Or.inr ⟨fun jobId hj => hm (List.mem_map_of_mem hj), ?_⟩
    by_contra hfree
    obtain ⟨hobj, hid⟩ := hI.tracked.mem_of_index hfree
    have htag := ((Pool.isHandleValid_iff _ _).mp hv).2.2
    have heq : handle (s.node.actionPool.storage action.id) = action := by
      rw [Handle.mk.injEq]
      exact ⟨htag, hid⟩
    exact hm (heq ▸ hobj)

/-- The removal of a live action. -/
theorem exact_removed_live (hI : Inv memory s) (hE : s.Exact) (hB : s.Bounded)
    (hmax : s.node.attributes.maxActionsPerJob < uintRange) {action : Handle} {jobId : Nat}
    (hm : (action, jobId) ∈ s.live) (touched : List Nat) :
    let s' : ActionTable :=
      ⟨s.node.removeAction action, s.live.filter (·.1 ≠ action), touched⟩
    s'.Exact ∧ s'.Bounded := by
  have hjob := hI.valid _ hm
  have hhandle : (s.node.action action).handle = action :=
    (hI.tracked.live (List.mem_map_of_mem hm)).2.2
  have hle := hB jobId hjob
  have hlists : (s.node.removeAction action).jobList =
      Function.update s.node.jobList jobId ((s.node.jobList jobId).removeAction action) := by
    rw [Node.removeAction_jobList, hhandle, hI.jobId _ hm, if_pos hjob]
  obtain ⟨hnodup, hentries⟩ := Job.entries_removeAction (hE.once jobId hjob) (by omega)
    ((hE.mem_iff jobId hjob action).mpr (mem_actionsOf.mpr hm))
  have hpos : 0 < (s.node.jobList jobId).numActions := by
    rw [hI.numActions_eq hE hjob]
    exact List.length_pos_of_mem (mem_actionsOf.mpr hm)
  refine ⟨⟨fun id hid => ?_, fun id hid y => ?_⟩, fun id hid => ?_⟩
  all_goals
    simp only [Node.jobIsIdValid, Node.removeAction_attributes] at hid
    rw [hlists]
  · by_cases hij : id = jobId
    · rw [hij, Function.update_self]
      exact hnodup
    · rw [Function.update_of_ne hij]
      exact hE.once id hid
  · have hkeep : y ∈ actionsOf ⟨s.node.removeAction action, s.live.filter (·.1 ≠ action), touched⟩
        id ↔ (y, id) ∈ s.live ∧ y ≠ action := by
      rw [mem_actionsOf, List.mem_filter, decide_eq_true_eq]
    rw [hkeep]
    by_cases hij : id = jobId
    · rw [hij, Function.update_self, hentries, hE.mem_iff jobId hjob, mem_actionsOf]
    · rw [Function.update_of_ne hij, hE.mem_iff id hid, mem_actionsOf]
      refine ⟨fun hy => ⟨hy, ?_⟩, And.left⟩
      rintro rfl
      exact hij (hI.job_unique hy hm)
  · rw [Node.removeAction_attributes]
    by_cases hij : id = jobId
    · rw [hij, Function.update_self]
      have hnum : ((s.node.jobList jobId).removeAction action).numActions =
          (s.node.jobList jobId).numActions - 1 := uintPred_of_pos hpos (by omega)
      omega
    · rw [Function.update_of_ne hij]
      exact hB id hid

/-- The deletion of an entry that is free takes an action out of the list of another one if the
entry holds the id of a job. -/
theorem exact_removed_free (hE : s.Exact) (hB : s.Bounded) {action : Handle}
    (hm : ∀ jobId, (action, jobId) ∉ s.live) (touched : List Nat) :
    let s' : ActionTable :=
      ⟨s.node.removeAction action, s.live.filter (·.1 ≠ action), touched⟩
    let jobId := (s.node.action action).jobId
    (s'.Exact ↔ ¬ s.node.jobIsIdValid jobId = true) ∧
      (¬ s.node.jobIsIdValid jobId = true → s'.Bounded) := by
  have hlive : s.live.filter (·.1 ≠ action) = s.live := by
    rw [List.filter_eq_self]
    rintro ⟨h, id⟩ he
    rw [decide_eq_true_eq]
    rintro rfl
    exact hm id he
  have hactions : ∀ id, actionsOf ⟨s.node.removeAction action, s.live.filter (·.1 ≠ action),
      touched⟩ id = s.actionsOf id := by
    intro id
    rw [actionsOf, hlive, actionsOf]
  have hsame : ¬ s.node.jobIsIdValid (s.node.action action).jobId = true →
      (s.node.removeAction action).jobList = s.node.jobList := by
    intro hv
    rw [Node.removeAction_jobList, if_neg hv]
  refine ⟨⟨fun hE' hv => ?_, fun hv => ⟨fun id hid => ?_, fun id hid y => ?_⟩⟩,
    fun hv id hid => ?_⟩
  · -- the list has another length but the same members
    have hv' : (s.node.removeAction action).jobIsIdValid (s.node.action action).jobId = true := by
      simp only [Node.jobIsIdValid, Node.removeAction_attributes] at hv ⊢
      exact hv
    have hperm := (List.perm_ext_iff_of_nodup (hE'.once _ hv') (hE.once _ hv)).mpr fun y => by
      rw [hE'.mem_iff _ hv', hactions, hE.mem_iff _ hv]
    have hlen := hperm.length_eq
    rw [Job.length_entries, Job.length_entries, Node.removeAction_jobList, if_pos hv,
      Function.update_self] at hlen
    exact Job.numActions_removeAction_ne _ _ hlen
  all_goals
    simp only [Node.jobIsIdValid, Node.removeAction_attributes] at hid
    rw [hsame hv]
  · exact hE.once id hid
  · rw [hactions]
    exact hE.mem_iff id hid y
  · rw [Node.removeAction_attributes]
    exact hB id hid

/-- The list of every job is exact after a call if and only if the call fits. -/
theorem exact_step (hI : Inv memory s) (hE : s.Exact) (hB : s.Bounded)
    (hmax : s.node.attributes.maxActionsPerJob < uintRange) (call : ActionCall) :
    ((s.step call).Exact ↔ Fits memory s call) ∧ (Fits memory s call → (s.step call).Bounded) := by
  cases call with
  | create jobId attributes =>
    obtain ⟨hiff, hB'⟩ := hI.exact_created hE hB false jobId attributes
    exact ⟨hiff, fun _ => hB'⟩
  | pluginCreate jobId attributes =>
    obtain ⟨hiff, hB'⟩ := hI.exact_created hE hB true jobId attributes
    exact ⟨hiff, fun _ => hB'⟩
  | delete action timeout =>
    rcases delete_cases s action timeout with ⟨hv, hwait, heq⟩ | ⟨hno, heq⟩
    · rw [heq]
      rcases hI.entry_cases hv with ⟨jobId, hm⟩ | ⟨hm, hfree⟩
      · obtain ⟨hE', hB'⟩ := hI.exact_removed_live hE hB hmax hm (action.id :: s.touched)
        have ht := hI.tracked.live_touched _ (List.mem_map_of_mem hm)
        exact ⟨iff_of_true hE' fun _ hnt => absurd ht hnt, fun _ => hB'⟩
      · obtain ⟨hiff, hB'⟩ := exact_removed_free hE hB hm (action.id :: s.touched)
        have hpos := ((Pool.isHandleValid_iff _ _).mp hv).1
        by_cases ht : action.id ∈ s.touched
        · have hz : (s.node.action action).jobId = 0 := hI.tracked.cleared _ (Or.inr ht) hfree
          have hinvalid : ¬ s.node.jobIsIdValid (s.node.action action).jobId = true := by
            rw [hz]
            simp [Node.jobIsIdValid]
          exact ⟨iff_of_true (hiff.mpr hinvalid) fun _ hnt => absurd ht hnt,
            fun _ => hB' hinvalid⟩
        · have hs : s.node.action action = _ := hI.tracked.untouched action.id (by omega) ht
          have hj : (s.node.action action).jobId = (memory action.id).jobId := by
            rw [hs]
            rfl
          have ht' : (s.node.action action).numTasks = (memory action.id).numTasks := by
            rw [hs]
            rfl
          rw [hj] at hiff hB'
          rw [ht'] at hwait
          exact ⟨hiff.trans ⟨fun h _ _ _ => h, fun h => h hv ht hwait⟩,
            fun h => hB' (h hv ht hwait)⟩
    · rw [heq]
      refine ⟨iff_of_true hE fun hv ht hwait => ?_, fun _ => hB⟩
      have hpos := ((Pool.isHandleValid_iff _ _).mp hv).1
      have hs : s.node.action action = _ := hI.tracked.untouched action.id (by omega) ht
      have ht' : (s.node.action action).numTasks = (memory action.id).numTasks := by
        rw [hs]
        rfl
      exact absurd ⟨hv, ht' ▸ hwait⟩ hno

theorem attributes_step (hI : Inv memory s) (call : ActionCall) :
    (s.step call).node.attributes = s.node.attributes := by
  have hcreated : ∀ b jobId attributes,
      (s.created jobId (s.node.createActionFor b jobId attributes)).node.attributes =
        s.node.attributes := by
    intro b jobId attributes
    by_cases h : s.node.Accepts jobId attributes
    · obtain ⟨x, -, heq⟩ := created_of_accepts b h
      rw [heq]
      rfl
    · exact (hI.refused b h).2.2.2
  cases call with
  | create jobId attributes => exact hcreated false jobId attributes
  | pluginCreate jobId attributes => exact hcreated true jobId attributes
  | delete action timeout =>
    rcases delete_cases s action timeout with ⟨-, -, heq⟩ | ⟨-, heq⟩
    · rw [heq, Node.removeAction_attributes]
    · rw [heq]

/-- The lists stay exact as long as the calls fit, and no longer. -/
theorem exact_run (hI : Inv memory s) (hE : s.Exact) (hB : s.Bounded)
    (hmax : s.node.attributes.maxActionsPerJob < uintRange) (calls : List ActionCall) :
    (∀ done, done <+: calls → (s.run done).Exact) ↔ AllFit memory s calls := by
  refine Histories.good_iff_fits (fun s _ => Inv memory s ∧ s.Bounded ∧
      s.node.attributes.maxActionsPerJob < uintRange)
    (fun _ => trivial) (fun _ _ _ => Iff.rfl) ?_ ⟨hI, hB, hmax⟩ hE
  rintro s call calls ⟨hI, hB, hmax⟩ hE
  obtain ⟨hiff, hbounded⟩ := hI.exact_step hE hB hmax call
  refine ⟨hiff, fun hfit => ⟨hI.step call, hbounded hfit, ?_⟩⟩
  rw [hI.attributes_step]
  exact hmax

end Inv

/-- In every history of actions that are created and deleted, over memory with any contents: after
every call the list of every job holds exactly the live actions created for it, each once, if and
only if no action is created for a job that has as many of them as it may, and no deletion is given
the handle of an entry that has never been in use where the memory holds the id of a job. -/
theorem lists_exact (attributes : NodeAttributes) (mode : SchedulerMode) (memory : Nat → Action)
    (queues : Nat → Queue) (hmax : attributes.maxActionsPerJob < uintRange)
    (calls : List ActionCall) :
    (∀ done, done <+: calls → ((start attributes mode memory queues).run done).Exact) ↔
      AllFit memory (start attributes mode memory queues) calls := by
  have hentries : ∀ jobId,
      ((start attributes mode memory queues).node.jobList jobId).entries = [] := fun _ => rfl
  refine (Inv.start attributes mode queues).exact_run ⟨fun jobId _ => ?_, fun jobId _ h => ?_⟩
    (fun jobId _ => Nat.zero_le _) hmax calls
  · rw [hentries]
    exact List.nodup_nil
  · rw [hentries]
    rfl

/-- A node with one job that may have two actions. -/
def twoActions : NodeAttributes where
  numCores := 4
  maxTasks := 1
  maxActions := 3
  maxGroups := 1
  maxQueues := 1
  queueLimit := 1
  maxJobs := 1
  maxActionsPerJob := 2
  maxPriorities := 1
  numCores_le := by decide

/-- The table of a new node in clean memory. -/
def clean : ActionTable :=
  start twoActions .workStealLf (fun _ => Node.blankAction) fun _ => Node.blankQueue

/-- Two actions are created and the first one is deleted. -/
theorem lists_exact_two :
    (clean.run [.create 1 none, .pluginCreate 1 none, .delete ⟨0, 1⟩ (-1)]).Exact := by
  have hfit : AllFit (fun _ => Node.blankAction) clean
      [.create 1 none, .pluginCreate 1 none, .delete ⟨0, 1⟩ (-1)] := by
    refine ⟨fun _ => ?_, fun _ => ?_, fun _ ht => ?_, trivial⟩
    · decide +kernel
    · decide +kernel
    · exact absurd (show (1 : Nat) ∈ [2, 1] by decide) ht
  exact (lists_exact twoActions .workStealLf _ _ (by decide) _).mpr hfit _ List.prefix_rfl

/-- The third action of a job that may have two is not in its list. -/
theorem third_action_lost :
    ((clean.run [.create 1 none, .create 1 none]).node.actionCreate 1 none).2 =
      (.success, ⟨0, 3⟩) ∧
    ¬ (clean.run [.create 1 none, .create 1 none, .create 1 none]).Exact := by
  refine ⟨by decide +kernel, fun hE => ?_⟩
  have hlive : (⟨0, 3⟩ : Handle) ∈
      (clean.run [.create 1 none, .create 1 none, .create 1 none]).actionsOf 1 := by
    decide +kernel
  have hlist := (hE.mem_iff 1 (by decide +kernel) ⟨0, 3⟩).mpr hlive
  have hout : (⟨0, 3⟩ : Handle) ∉
      ((clean.run [.create 1 none, .create 1 none, .create 1 none]).node.jobList 1).entries := by
    decide +kernel
  exact hout hlist

end ActionTable

end Embb.Mtapi
