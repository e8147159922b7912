import Embb.Mtapi.Scheduler.Affinity
import Embb.Mtapi.Scheduler.Cancel

/-!
# Disabled actions

`embb_mtapi_task_start` chooses the action of a task by handles and counters. The flag that
`mtapi_action_disable` clears is not read.
-/

namespace Embb.Mtapi

open Threads

/-- Thread `t`, going on alone, gets from one memory and top frame to another. -/
def Goes (t : Nat) (n : Node) (f : Frame) (n' : Node) (f' : Frame) : Prop :=
  ∀ (s : State Node Frame) (rest : List Frame), s.mem = n → s.callStacks[t]? = some (f :: rest) →
    ∃ k, (run code s (goes t k)).mem = n' ∧
      (run code s (goes t k)).callStacks[t]? = some (f' :: rest)

theorem Goes.refl (t : Nat) (n : Node) (f : Frame) : Goes t n f n f :=
  fun _ _ hmem hstack => ⟨0, hmem, hstack⟩

theorem Goes.head {t : Nat} {n n' : Node} {f g f' : Frame} {u : Access}
    (hexec : exec t .go f n = (u, [g])) (h : Goes t (n.access u) g n' f') : Goes t n f n' f' := by
  rintro s rest rfl hstack
  obtain ⟨hmem, hstack'⟩ := step_of_stack code hstack .go
  rw [code, hexec] at hmem hstack'
  obtain ⟨k, hk⟩ := h _ rest hmem hstack'
  exact ⟨k + 1, by rw [goes_succ]; exact hk⟩

/-- The second node has the actions and jobs of the first one. -/
structure SameActions (n n' : Node) : Prop where
  actionPool : n'.actionPool = n.actionPool
  jobList : n'.jobList = n.jobList
  attributes : n'.attributes = n.attributes

section Scan

/-- The action at an index of a job is valid. -/
def Node.ValidAt (n : Node) (job : Job) (ii : Nat) : Prop :=
  ii < job.numActions ∧ n.actionPool.isHandleValid (job.actions ii) = true

/-- The indexes below a bound that the choice looks at: the first one, and those of valid
actions. -/
def Node.Considered (n : Node) (job : Job) (bound ii : Nat) : Prop :=
  ii = 0 ∨ ii < bound ∧ n.actionPool.isHandleValid (job.actions ii) = true

/-- The tasks of the action at an index. -/
def Node.load (n : Node) (job : Job) (ii : Nat) : Int := (n.action (job.actions ii)).numTasks

/-- The first index with the fewest tasks. -/
structure Node.LeastLoaded (n : Node) (job : Job) (bound ii : Nat) : Prop where
  considered : n.Considered job bound ii
  least : ∀ jj, n.Considered job bound jj → n.load job ii ≤ n.load job jj
  first : ∀ jj, n.Considered job bound jj → n.load job jj = n.load job ii → ii ≤ jj

variable {n : Node} {job : Job} {bound ii jj : Nat}

theorem Node.LeastLoaded.unique (h : n.LeastLoaded job bound ii)
    (h' : n.LeastLoaded job bound jj) : ii = jj := by
  have hload : n.load job ii = n.load job jj :=
    le_antisymm (h.least _ h'.considered) (h'.least _ h.considered)
  exact le_antisymm (h.first _ h'.considered hload.symm) (h'.first _ h.considered hload)

theorem Node.leastLoaded_zero : n.LeastLoaded job 0 0 where
  considered := Or.inl rfl
  least := by
    rintro jj (rfl | ⟨hlt, -⟩)
    · exact le_refl _
    · exact absurd hlt (Nat.not_lt_zero jj)
  first := fun jj _ _ => Nat.zero_le jj

theorem Node.Considered.succ (h : n.Considered job (bound + 1) jj) :
    n.Considered job bound jj ∨
      jj = bound ∧ n.actionPool.isHandleValid (job.actions bound) = true := by
  rcases h with rfl | ⟨hlt, hvalid⟩
  · exact Or.inl (Or.inl rfl)
  · rcases Nat.lt_succ_iff_lt_or_eq.mp hlt with hlt | rfl
    · exact Or.inl (Or.inr ⟨hlt, hvalid⟩)
    · exact Or.inr ⟨rfl, hvalid⟩

theorem Node.Considered.mono (h : n.Considered job bound jj) : n.Considered job (bound + 1) jj :=
  h.imp id fun h => ⟨h.1.trans (Nat.lt_succ_self _), h.2⟩

/-- An invalid action changes nothing. -/
theorem Node.LeastLoaded.skip (h : n.LeastLoaded job bound ii)
    (hinvalid : ¬ n.actionPool.isHandleValid (job.actions bound) = true) :
    n.LeastLoaded job (bound + 1) ii where
  considered := h.considered.mono
  least := fun jj hjj => h.least jj (hjj.succ.resolve_right fun hb => hinvalid hb.2)
  first := fun jj hjj => h.first jj (hjj.succ.resolve_right fun hb => hinvalid hb.2)

/-- A valid action with at least as many tasks is not chosen. -/
theorem Node.LeastLoaded.keep (h : n.LeastLoaded job bound ii)
    (hload : ¬ n.load job bound < n.load job ii) (hii : ii ≤ bound) :
    n.LeastLoaded job (bound + 1) ii where
  considered := h.considered.mono
  least := by
    intro jj hjj
    rcases hjj.succ with hjj | ⟨rfl, -⟩
    · exact h.least jj hjj
    · exact not_lt.mp hload
  first := by
    intro jj hjj heq
    rcases hjj.succ with hjj | ⟨rfl, -⟩
    · exact h.first jj hjj heq
    · exact hii

/-- A valid action with fewer tasks is chosen. -/
theorem Node.LeastLoaded.take (h : n.LeastLoaded job bound ii)
    (hvalid : n.actionPool.isHandleValid (job.actions bound) = true)
    (hload : n.load job bound < n.load job ii) : n.LeastLoaded job (bound + 1) bound where
  considered := Or.inr ⟨Nat.lt_succ_self _, hvalid⟩
  least := by
    intro jj hjj
    rcases hjj.succ with hjj | ⟨rfl, -⟩
    · exact hload.le.trans (h.least jj hjj)
    · exact le_refl _
  first := by
    intro jj hjj heq
    rcases hjj.succ with hjj | ⟨rfl, -⟩
    · exact absurd (h.least jj hjj) (not_le.mpr (heq ▸ hload))
    · exact le_refl _

/-- The loop over the actions of the job. -/
theorem goes_choose (t : Nat) (n : Node) (call : StartCall) (p : Ptr) {ii actionIndex : Nat}
    (h : n.LeastLoaded (n.jobList call.job.id) ii actionIndex)
    (hle : ii ≤ (n.jobList call.job.id).numActions) (hindex : actionIndex ≤ ii) :
    ∃ i, n.LeastLoaded (n.jobList call.job.id) (n.jobList call.job.id).numActions i ∧
      Goes t n (.startChoose call p ii actionIndex) n (.startAction call p i) := by
  induction hd : (n.jobList call.job.id).numActions - ii generalizing ii actionIndex with
  | zero =>
    have hii : ii = (n.jobList call.job.id).numActions := by omega
    subst hii
    refine ⟨actionIndex, h, Goes.head (u := .read) ?_ (Goes.refl t n _)⟩
    simp only [exec, lt_irrefl, ↓reduceIte]
  | succ d ih =>
    have hlt : ii < (n.jobList call.job.id).numActions := by omega
    by_cases hvalid : n.actionPool.isHandleValid ((n.jobList call.job.id).actions ii) = true
    · have hlook : exec t .go (.startChoose call p ii actionIndex) n =
          (.read, [.startChooseLoad call p ii actionIndex ((n.jobList call.job.id).actions ii)
            (n.load (n.jobList call.job.id) actionIndex)]) := by
        simp only [exec, hlt, hvalid, ↓reduceIte]
        rfl
      by_cases hload : n.load (n.jobList call.job.id) ii <
          n.load (n.jobList call.job.id) actionIndex
      · obtain ⟨i, hi, hgoes⟩ := ih (h.take hvalid hload) hlt (Nat.le_succ ii) (by omega)
        exact ⟨i, hi, Goes.head hlook (Goes.head (u := .read) (if_pos hload) hgoes)⟩
      · obtain ⟨i, hi, hgoes⟩ := ih (h.keep hload hindex) hlt (by omega) (by omega)
        exact ⟨i, hi, Goes.head hlook (Goes.head (u := .read) (if_neg hload) hgoes)⟩
    · obtain ⟨i, hi, hgoes⟩ := ih (h.skip hvalid) hlt (by omega) (by omega)
      refine ⟨i, hi, Goes.head (u := .read) ?_ hgoes⟩
      simp only [exec, hlt, hvalid, Bool.false_eq_true, ↓reduceIte]

end Scan

theorem SameActions.trans {n n' n'' : Node} (h : SameActions n n') (h' : SameActions n' n'') :
    SameActions n n'' :=
  ⟨h'.actionPool.trans h.actionPool, h'.jobList.trans h.jobList,
    h'.attributes.trans h.attributes⟩

/-- The writes of a start call before it chooses, apart from the first ones to its slot. -/
def Access.binds (p : Ptr) : Access → Bool
  | .read => true
  | .taskGroup q _ | .taskQueue q _ => q = p
  | _ => false

theorem sameActions_of_binds {p : Ptr} {u : Access} (h : u.binds p = true) (n : Node) :
    SameActions n (n.access u) ∧ ((n.access u).task p).attributes = (n.task p).attributes := by
  have hattributes : ((n.access u).task p).attributes = (n.task p).attributes := by
    refine n.taskField_access ?_ Task.attributes p.id fun q f hu _ => ?_
    · cases u with
      | taskAllocate | taskDeallocate => cases h
      | _ => rfl
    · cases u with
      | taskGroup r g => cases g <;> cases hu <;> rfl
      | taskQueue r g => cases g <;> cases hu <;> rfl
      | read => cases hu
      | _ => cases h
  cases u with
  | read => exact ⟨⟨rfl, rfl, rfl⟩, rfl⟩
  | taskGroup r g => cases g <;> exact ⟨⟨rfl, rfl, rfl⟩, hattributes⟩
  | taskQueue r q => cases q <;> exact ⟨⟨rfl, rfl, rfl⟩, hattributes⟩
  | _ => cases h

theorem goes_startQueue (t : Nat) (n : Node) (call : StartCall) (p : Ptr) :
    ∃ n', SameActions n n' ∧ (n'.task p).attributes = (n.task p).attributes ∧
      Goes t n (.startQueue call p) n' (.startChoose call p 0 0) := by
  by_cases hq : n.queuePool.isHandleValid call.queue = true
  · obtain ⟨hsame, hattributes⟩ :=
      sameActions_of_binds (u := .taskQueue p (some call.queue)) (decide_eq_true rfl) n
    exact ⟨_, hsame, hattributes, Goes.head (u := .read) (if_pos hq)
      (Goes.head (u := .taskQueue p (some call.queue)) rfl (Goes.refl t _ _))⟩
  · obtain ⟨hsame, hattributes⟩ :=
      sameActions_of_binds (u := .taskQueue p none) (decide_eq_true rfl) n
    exact ⟨_, hsame, hattributes, Goes.head (if_neg hq) (Goes.refl t _ _)⟩

theorem goes_startGroup (t : Nat) (n : Node) (call : StartCall) (p : Ptr) :
    ∃ n', SameActions n n' ∧ (n'.task p).attributes = (n.task p).attributes ∧
      Goes t n (.startGroup call p) n' (.startQueue call p) := by
  by_cases hg : n.groupPool.isHandleValid call.group = true
  · obtain ⟨hsame, hattributes⟩ :=
      sameActions_of_binds (u := .taskGroup p (some call.group)) (decide_eq_true rfl) n
    exact ⟨_, hsame, hattributes, Goes.head (u := .read) (if_pos hg)
      (Goes.head (u := .taskGroup p (some call.group)) rfl (Goes.refl t _ _))⟩
  · obtain ⟨hsame, hattributes⟩ :=
      sameActions_of_binds (u := .taskGroup p none) (decide_eq_true rfl) n
    exact ⟨_, hsame, hattributes, Goes.head (if_neg hg) (Goes.refl t _ _)⟩

theorem Goes.trans {t : Nat} {n n' n'' : Node} {f f' f'' : Frame} (h : Goes t n f n' f')
    (h' : Goes t n' f' n'' f'') : Goes t n f n'' f'' := by
  intro s rest hmem hstack
  obtain ⟨k, hmem, hstack⟩ := h s rest hmem hstack
  obtain ⟨k', hk'⟩ := h' _ rest hmem hstack
  exact ⟨k + k', by rw [run_goes_add]; exact hk'⟩

/-- Up to the choice, a start call changes neither the actions nor the jobs. -/
theorem goes_startAllocate (t : Nat) {n : Node} {call : StartCall} {p : Ptr}
    (hjob : n.jobIsHandleValid call.job = true) (hp : n.taskPool.allocate.2 = some p) :
    ∃ n', SameActions n n' ∧ (n'.task p).attributes = call.attributes ∧
      Goes t n (.startAllocate call) n' (.startChoose call p 0 0) := by
  have hallocate : exec t .go (.startAllocate call) n = (.taskAllocate, [.startInit call p]) := by
    simp only [exec, hjob, hp, ↓reduceIte]
  have hattributes : (((n.access .taskAllocate).access (.taskInit p call)).task p).attributes =
      call.attributes := by
    simp only [Node.access, Node.task_modifyTask_self]
    rfl
  obtain ⟨n₁, hsame₁, hattributes₁, hgoes₁⟩ :=
    goes_startGroup t ((n.access .taskAllocate).access (.taskInit p call)) call p
  obtain ⟨n₂, hsame₂, hattributes₂, hgoes₂⟩ := goes_startQueue t n₁ call p
  have hsame : SameActions n ((n.access .taskAllocate).access (.taskInit p call)) :=
    ⟨rfl, rfl, rfl⟩
  exact ⟨n₂, (hsame.trans hsame₁).trans hsame₂,
    hattributes₂.trans (hattributes₁.trans hattributes),
    Goes.head hallocate (Goes.head (u := .taskInit p call) rfl (hgoes₁.trans hgoes₂))⟩

/-- The action at an index of a job is valid and enabled. -/
def Node.EnabledAt (n : Node) (job : Job) (ii : Nat) : Prop :=
  n.ValidAt job ii ∧ (n.action (job.actions ii)).enabled = true

/-- What a start call decides is what the flags of the actions of its job ask for: a rejection if
all of them are disabled, and else a task on an enabled action. -/
structure HonoursDisabled (n : Node) (job : Job) (p : Ptr) (n' : Node) (f' : Frame) : Prop where
  rejected : (∃ ii, n.ValidAt job ii) → (∀ ii, ¬ n.EnabledAt job ii) →
    f' = .taskDelete p (.start .errActionDisabled)
  enabled : (∃ ii, n.EnabledAt job ii) → ∃ call, f' = .startSchedule call p ∧
    ∃ ii, n.EnabledAt job ii ∧ (n'.task p).action = job.actions ii

/-- A rejection for another reason is right exactly if the job has no valid action. -/
theorem honoursDisabled_rejected_iff {n n' : Node} {job : Job} {p : Ptr} {status : Status}
    (hs : status ≠ .errActionDisabled) :
    HonoursDisabled n job p n' (.taskDelete p (.start status)) ↔ ¬ ∃ ii, n.ValidAt job ii := by
  constructor
  · intro h hvalid
    by_cases henabled : ∃ ii, n.EnabledAt job ii
    · obtain ⟨call, hf, -⟩ := h.enabled henabled
      cases hf
    · have hf := h.rejected hvalid (not_exists.mp henabled)
      cases hf
      exact hs rfl
  · exact fun h => ⟨fun hvalid => absurd hvalid h, fun ⟨ii, hii⟩ => absurd ⟨ii, hii.1⟩ h⟩

/-- A task on a valid action is right exactly if this is enabled, provided that the job has a
valid action at all. -/
theorem honoursDisabled_chosen_iff {n n' : Node} {job : Job} {p : Ptr} {call : StartCall} {i : Nat}
    (hi : n.LeastLoaded job job.numActions i)
    (hvalid : n.actionPool.isHandleValid (job.actions i) = true)
    (haction : (n'.task p).action = job.actions i) :
    HonoursDisabled n job p n' (.startSchedule call p) ↔
      ((∃ ii, n.ValidAt job ii) → n.EnabledAt job i) := by
  constructor
  · rintro h ⟨jj, hjj⟩
    have hsome : ∃ ii, n.EnabledAt job ii := by
      by_contra hnone
      cases h.rejected ⟨jj, hjj⟩ (not_exists.mp hnone)
    obtain ⟨call', -, ii, hii, hii'⟩ := h.enabled hsome
    refine ⟨⟨?_, hvalid⟩, ?_⟩
    · rcases hi.considered with rfl | ⟨hlt, -⟩
      · exact Nat.zero_lt_of_lt hjj.1
      · exact hlt
    · rw [← haction, hii']
      exact hii.2
  · intro h
    constructor
    · exact fun hsome hnone => absurd (h hsome) (hnone i)
    · exact fun ⟨jj, hjj⟩ => ⟨call, rfl, i, h ⟨jj, hjj.1⟩, haction⟩

/-- There is one first action with the fewest tasks. -/
theorem Node.LeastLoaded.enabled_iff {n : Node} {job : Job} {bound i : Nat}
    (hi : n.LeastLoaded job bound i) :
    (∃ ii, n.LeastLoaded job bound ii ∧ n.EnabledAt job ii) ↔ n.EnabledAt job i := by
  constructor
  · rintro ⟨ii, hleast, hii⟩
    cases hleast.unique hi
    exact hii
  · exact fun hii => ⟨i, hi, hii⟩

theorem SameActions.leastLoaded {n n' : Node} (h : SameActions n n') {job : Job} {bound ii : Nat}
    (hl : n'.LeastLoaded job bound ii) : n.LeastLoaded job bound ii := by
  have hconsidered : ∀ jj, n'.Considered job bound jj ↔ n.Considered job bound jj := by
    intro jj
    rw [Node.Considered, Node.Considered, h.actionPool]
  have hload : ∀ jj, n'.load job jj = n.load job jj := by
    intro jj
    rw [Node.load, Node.load, Node.action, Node.action, h.actionPool]
  constructor
  · exact (hconsidered ii).mp hl.considered
  · intro jj hjj
    rw [← hload, ← hload]
    exact hl.least jj ((hconsidered jj).mpr hjj)
  · intro jj hjj heq
    rw [← hload, ← hload] at heq
    exact hl.first jj ((hconsidered jj).mpr hjj) heq

/-- From every state: a call of `mtapi_task_start` with a valid job, going on alone, decides
between a rejection and a task. The decision honours the flags of the actions of the job if and
only if the job has no valid action, or the priority is valid and the first of its actions with
the fewest tasks is enabled. -/
theorem start_honours_disabled (t : Nat) {n : Node} {call : StartCall} {p : Ptr}
    (hjob : n.jobIsHandleValid call.job = true) (hp : n.taskPool.allocate.2 = some p) :
    ∃ n' f', Goes t n (.startAllocate call) n' f' ∧
      (f' = .startSchedule call p ∨ ∃ status, f' = .taskDelete p (.start status)) ∧
      (HonoursDisabled n (n.jobList call.job.id) p n' f' ↔
        (∃ ii, n.ValidAt (n.jobList call.job.id) ii) →
          call.attributes.priority < n.attributes.maxPriorities ∧
            ∃ ii, n.LeastLoaded (n.jobList call.job.id) (n.jobList call.job.id).numActions ii ∧
              n.EnabledAt (n.jobList call.job.id) ii) := by
  obtain ⟨n₁, hsame, hattributes, hgoes₁⟩ := goes_startAllocate t hjob hp
  obtain ⟨i, hi, hgoes₂⟩ := goes_choose t n₁ call p Node.leastLoaded_zero (Nat.zero_le _)
    (le_refl 0)
  rw [hsame.jobList] at hi
  replace hi := hsame.leastLoaded hi
  have hgoes := hgoes₁.trans hgoes₂
  have hpriority : (n₁.task p).attributes.priority < n₁.attributes.maxPriorities ↔
      call.attributes.priority < n.attributes.maxPriorities := by
    rw [hattributes, hsame.attributes]
  rw [hi.enabled_iff]
  by_cases hrange : call.attributes.priority < n.attributes.maxPriorities
  · have hrange₁ := hpriority.mpr hrange
    have hvalid₁ : n₁.actionPool.isHandleValid ((n₁.jobList call.job.id).actions i) =
        n.actionPool.isHandleValid ((n.jobList call.job.id).actions i) := by
      rw [hsame.actionPool, hsame.jobList]
    by_cases hvalid : n.actionPool.isHandleValid ((n.jobList call.job.id).actions i) = true
    · -- the chosen action gets the task
      refine ⟨_, _, hgoes.trans (Goes.head (u := .taskAction p
          ((n₁.jobList call.job.id).actions i)) (g := .startSchedule call p) ?_
          (Goes.refl t _ _)), Or.inl rfl, ?_⟩
      · simp only [exec, hvalid₁, hvalid, hrange₁, ↓reduceIte]
      · rw [honoursDisabled_chosen_iff hi hvalid]
        · exact imp_congr_right fun _ => (and_iff_right hrange).symm
        · rw [Node.access, Node.task_modifyTask_self, hsame.jobList]
    · refine ⟨_, _, hgoes.trans (Goes.head (u := .read)
          (g := .taskDelete p (.start .errActionInvalid)) ?_ (Goes.refl t _ _)),
          Or.inr ⟨_, rfl⟩, ?_⟩
      · simp only [exec, hvalid₁, hvalid, hrange₁, Bool.false_eq_true, ↓reduceIte]
      · rw [honoursDisabled_rejected_iff (by decide)]
        exact imp_congr_right fun _ => (iff_false_intro fun h => hvalid h.2.1.2).symm
  · have hrange₁ := mt hpriority.mp hrange
    obtain ⟨u, hu⟩ : ∃ u, exec t .go (.startAction call p i) n₁ =
        (u, [.taskDelete p (.start .errParameter)]) := by
      simp only [exec, hrange₁, ↓reduceIte]
      split
      · exact ⟨_, rfl⟩
      · exact ⟨_, rfl⟩
    refine ⟨_, _, hgoes.trans (Goes.head hu (Goes.refl t _ _)), Or.inr ⟨_, rfl⟩, ?_⟩
    rw [honoursDisabled_rejected_iff (by decide)]
    exact imp_congr_right fun _ => (iff_false_intro fun h => hrange h.1).symm

/-- A job with one action, which is enabled. -/
def createOne : List (Nat × Choice) := calls 1 (.actionCreate 1 none) 4

/-- The action is disabled. -/
def createAndDisable : List (Nat × Choice) := createOne ++ calls 1 (.actionDisable ⟨0, 1⟩ false) 10

/-- A task that is started then. -/
def startDisabled : List (Nat × Choice) :=
  createAndDisable ++ calls 1 (.taskStart ⟨0, 1⟩ none Handle.invalid) 15

/-- The only action of the job is enabled, and gets the task. -/
theorem start_honours_disabled_one :
    ∃ n' f', Goes 1 (run code (boot (smallNode 1) .workStealVhpf 1) createOne).mem
        (.startAllocate ⟨⟨0, 1⟩, TaskAttributes.init 1, Handle.invalid, Handle.invalid⟩) n' f' ∧
      HonoursDisabled (run code (boot (smallNode 1) .workStealVhpf 1) createOne).mem
        ((run code (boot (smallNode 1) .workStealVhpf 1) createOne).mem.jobList 1) ⟨0, 1⟩ n'
        f' := by
  obtain ⟨n', f', hgoes, -, hiff⟩ := @start_honours_disabled 1
    (run code (boot (smallNode 1) .workStealVhpf 1) createOne).mem
    ⟨⟨0, 1⟩, TaskAttributes.init 1, Handle.invalid, Handle.invalid⟩ ⟨0, 1⟩
    (by decide +kernel) (by decide +kernel)
  refine ⟨n', f', hgoes, hiff.mpr fun _ => ⟨by decide +kernel, 0, ⟨Or.inl rfl, ?_, ?_⟩, ?_⟩⟩
  · rintro jj (rfl | ⟨hlt, -⟩)
    · exact le_refl _
    · have hone : ((run code (boot (smallNode 1) .workStealVhpf 1) createOne).mem.jobList
          1).numActions = 1 := by decide +kernel
      have hzero : jj = 0 := Nat.lt_one_iff.mp (lt_of_lt_of_eq hlt hone)
      rw [hzero]
  · exact fun jj _ _ => Nat.zero_le jj
  · exact ⟨⟨by decide +kernel, by decide +kernel⟩, by decide +kernel⟩

/-- The only action of a job is valid and disabled. A task that is started is not rejected, and
its action function is called. -/
theorem start_uses_disabled :
    ((run code (boot (smallNode 1) .workStealVhpf 1) createAndDisable).mem.jobList 1).numActions =
        1 ∧
      (run code (boot (smallNode 1) .workStealVhpf 1) createAndDisable).mem.actionPool.isHandleValid
        (((run code (boot (smallNode 1) .workStealVhpf 1) createAndDisable).mem.jobList 1).actions
          0) = true ∧
      ((run code (boot (smallNode 1) .workStealVhpf 1) createAndDisable).mem.action
        (((run code (boot (smallNode 1) .workStealVhpf 1) createAndDisable).mem.jobList 1).actions
          0)).enabled = false ∧
      ((run code (boot (smallNode 1) .workStealVhpf 1) startDisabled).top 1).bind Frame.returned =
        some .success ∧
      ((run code (boot (smallNode 1) .workStealVhpf 1) (startDisabled ++ goes 0 9)).top 0).bind
        Frame.actionTask = some ⟨0, 1⟩ := by
  decide +kernel

end Embb.Mtapi
