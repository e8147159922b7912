import Embb.Mtapi.PoolMemory
import Embb.Mtapi.Scheduler.Machine

/-!
# Looking up queues by id

`mtapi_queue_get` compares the wanted id with the storage of the queue pool, entry by entry.
It starts at the invalid entry 0 and ends before the entry of the largest identifier, and it
does not ask whether an entry is in use.
-/

namespace Embb.Mtapi

open PoolObject

namespace Node

/-- `mtapi_queue_create`: the status and the handle returned. -/
def queueCreate (n : Node) (queueId : Nat) (job : Handle) (attributes : Option QueueAttributes) :
    Node × Status × Handle :=
  match n.queuePool.allocate.2 with
  | some queue =>
    let n' := n.setQueuePool n.queuePool.allocate.1
    if n.jobIsHandleValid job then
      (n'.modifyQueue queue fun x =>
        x.create n.workerCount queueId job (attributes.getD QueueAttributes.init), .success, queue)
    else
      (n'.setQueuePool (n'.queuePool.deallocate queue), .errJobInvalid, Handle.invalid)
  | none => (n.setQueuePool n.queuePool.allocate.1, .errQueueLimit, Handle.invalid)

/-- `mtapi_queue_delete` while no task is in any queue of the workers. The call does not return
when the counter of the slot is not zero and the timeout is infinite. -/
def queueDelete (n : Node) (queue : Handle) (timeout : Int) : Node × Option Status :=
  let n' := n.modifyQueue queue Queue.finalize
  if n.queuePool.isHandleValid queue then
    if (n.queue queue).numTasks = 0 then
      (n'.setQueuePool (n'.queuePool.deallocate queue), some .success)
    else if infinite < timeout then
      (n'.setQueuePool (n'.queuePool.deallocate queue), some .timeout)
    else (n, none)
  else (n, some .errQueueInvalid)

/-- `mtapi_queue_get`. -/
def queueGet (n : Node) (queueId : Nat) : Status × Handle :=
  match (List.range n.attributes.maxQueues).find? fun ii =>
    queueId == (n.queuePool.storage ii).queueId with
  | some ii => (.success, (n.queuePool.storage ii).handle)
  | none => (.errQueueInvalid, Handle.invalid)

end Node

/-- A call that creates or deletes a queue. -/
inductive QueueCall
  | create (queueId : Nat) (job : Handle) (attributes : Option QueueAttributes)
  | delete (queue : Handle) (timeout : Int)

/-- A node, the queues that have been created on it and not deleted since, with their ids, and the
entries of the pool that have been in use. -/
structure QueueTable where
  node : Node
  live : List (Handle × Nat)
  touched : List Nat

namespace QueueTable

/-- The table after one call. -/
def step (s : QueueTable) : QueueCall → QueueTable
  | .create queueId job attributes =>
    let r := s.node.queueCreate queueId job attributes
    { node := r.1
      live := if r.2.1 = .success then (r.2.2, queueId) :: s.live else s.live
      touched := s.node.queuePool.allocate.2.toList.map Handle.id ++ s.touched }
  | .delete queue timeout =>
    let r := s.node.queueDelete queue timeout
    if r.2 = some .success ∨ r.2 = some .timeout then
      ⟨r.1, s.live.filter (·.1 ≠ queue), queue.id :: s.touched⟩
    else { s with node := r.1 }

def run (s : QueueTable) (calls : List QueueCall) : QueueTable := calls.foldl step s

/-- The table of a new node whose pool of queues lies in the given memory. -/
def start (attributes : NodeAttributes) (mode : SchedulerMode) (actions : Nat → Action)
    (memory : Nat → Queue) : QueueTable :=
  ⟨Node.initOver attributes mode actions memory, [], []⟩

/-- The lookup returns a live queue with the id if there is one, and reports an error otherwise. -/
structure Found (s : QueueTable) (queueId : Nat) : Prop where
  success : (∃ h, (h, queueId) ∈ s.live) →
    ∃ h, (h, queueId) ∈ s.live ∧ s.node.queueGet queueId = (.success, h)
  invalid : (∀ h, (h, queueId) ∉ s.live) →
    s.node.queueGet queueId = (.errQueueInvalid, Handle.invalid)

/-- A queue with the id in the last entry has another one in front of it, and so has an entry that
has never been in use where the memory happens to hold the id. -/
structure Reached (memory : Nat → Queue) (s : QueueTable) (queueId : Nat) : Prop where
  last : ∀ h, (h, queueId) ∈ s.live → h.id = s.node.attributes.maxQueues →
    ∃ h', (h', queueId) ∈ s.live ∧ h'.id < h.id
  unused : ∀ ii, ii ≠ 0 → ii < s.node.attributes.maxQueues → ii ∉ s.touched →
    (memory ii).queueId = queueId → ∃ h, (h, queueId) ∈ s.live ∧ h.id < ii

/-- The live queues are those in use, and carry their ids; no entry given back has an id. -/
structure Inv (memory : Nat → Queue) (s : QueueTable) : Prop where
  tracked : s.node.queuePool.Tracked memory (fun x => x.queueId = 0) (s.live.map Prod.fst)
    s.touched
  capacity : s.node.queuePool.idPool.capacity = s.node.attributes.maxQueues
  queueId : ∀ e ∈ s.live, (s.node.queue e.1).queueId = e.2

namespace Inv

variable {memory : Nat → Queue} {s : QueueTable}

theorem start (attributes : NodeAttributes) (mode : SchedulerMode) (actions : Nat → Action) :
    Inv memory (start attributes mode actions memory) where
  tracked := Pool.Tracked.init _ (fun _ => rfl) fun _ => rfl
  capacity := rfl
  queueId _ he := absurd he List.not_mem_nil

/-- The live queues with an id are those in use that carry it. -/
theorem mem_iff (hI : Inv memory s) (h : Handle) (queueId : Nat) :
    (h, queueId) ∈ s.live ↔ s.node.queuePool.Live h ∧ (s.node.queue h).queueId = queueId := by
  rw [← hI.tracked.mem_iff, List.mem_map]
  constructor
  · intro hm
    exact ⟨⟨_, hm, rfl⟩, hI.queueId _ hm⟩
  · rintro ⟨⟨⟨h', id⟩, hm, rfl⟩, hid⟩
    have hq := hI.queueId _ hm
    rwa [← hid, hq]

theorem create (hI : Inv memory s) (queueId : Nat) (job : Handle)
    (attributes : Option QueueAttributes) :
    Inv memory (s.step (.create queueId job attributes)) := by
  have hT := hI.tracked
  cases hx : s.node.queuePool.allocate.2 with
  | none =>
    simp only [QueueTable.step, Node.queueCreate, hx]
    refine ⟨hT.allocate_none hx, ?_, fun e he => ?_⟩
    · rw [Node.setQueuePool_queuePool, Pool.capacity_allocate]
      exact hI.capacity
    · rw [Node.queue, Node.setQueuePool_queuePool, Pool.allocate_none hx]
      exact hI.queueId e he
  | some x =>
    have hA := hT.allocate hx
    have hcap := (s.node.queuePool.capacity_allocate).trans hI.capacity
    have hold : ∀ e ∈ s.live, e.1 ∈ x :: s.live.map Prod.fst ∧ e.1 ≠ x := by
      intro e he
      have hm : e.1 ∈ s.live.map Prod.fst := List.mem_map_of_mem he
      refine ⟨List.mem_cons_of_mem _ hm, fun heq => ?_⟩
      exact Pool.not_live_of_allocate hT.sound hx (heq ▸ hT.live hm)
    by_cases hjob : s.node.jobIsHandleValid job = true
    · simp only [QueueTable.step, Node.queueCreate, hx, hjob, ↓reduceIte]
      let f : Queue → Queue := fun y =>
        y.create s.node.workerCount queueId job (attributes.getD QueueAttributes.init)
      refine ⟨hA.modify List.mem_cons_self (f := f) fun _ => rfl, hcap, fun e he => ?_⟩
      rcases List.mem_cons.mp he with rfl | he
      · rw [Node.queue_modifyQueue_self]
        rfl
      · obtain ⟨hm, hne⟩ := hold e he
        have hs := hA.storage_modify List.mem_cons_self hm hne f
        have hs' := hT.storage_allocate (List.mem_map_of_mem he)
        have hq := hI.queueId e he
        rw [Node.queue, ← hs', ← hs] at hq
        exact hq
    · have hstatus : ¬ Status.errJobInvalid = Status.success := by decide
      simp only [QueueTable.step, Node.queueCreate, hx, hjob, hstatus, Bool.false_eq_true,
        ↓reduceIte]
      refine ⟨hA.deallocate_head (fun _ _ hq => hq) fun _ => rfl, ?_, fun e he => ?_⟩
      · exact (Pool.capacity_deallocate _ x).trans hcap
      · obtain ⟨hm, hne⟩ := hold e he
        have hs := hA.storage_deallocate (hA.live List.mem_cons_self).valid hm hne
        have hs' := hT.storage_allocate (List.mem_map_of_mem he)
        have hq := hI.queueId e he
        rw [Node.queue, ← hs', ← hs] at hq
        exact hq

theorem delete (hI : Inv memory s) (queue : Handle) (timeout : Int) :
    Inv memory (s.step (.delete queue timeout)) := by
  have hT := hI.tracked
  -- the pool after a deletion that goes through
  have hdone : s.node.queuePool.isHandleValid queue = true →
      Inv memory ⟨(s.node.modifyQueue queue Queue.finalize).setQueuePool
        ((s.node.modifyQueue queue Queue.finalize).queuePool.deallocate queue),
        s.live.filter (·.1 ≠ queue), queue.id :: s.touched⟩ := by
    intro hv
    have hpool : (s.node.modifyQueue queue Queue.finalize).queuePool.deallocate queue =
        s.node.queuePool.deallocate queue :=
      s.node.queuePool.deallocate_finalize queue fun _ => rfl
    have hlive : (s.live.filter (·.1 ≠ queue)).map Prod.fst =
        (s.live.map Prod.fst).erase queue :=
      Pool.map_filter_ne hT.nodup queue
    rw [hpool]
    refine ⟨?_, (Pool.capacity_deallocate _ queue).trans hI.capacity, fun e he => ?_⟩
    · rw [hlive]
      exact hT.deallocate (fun _ _ hq => hq) (fun _ => rfl) hv fun _ => List.mem_cons
    · obtain ⟨he, hne⟩ := List.mem_filter.mp he
      have hs := hT.storage_deallocate hv (List.mem_map_of_mem he) (of_decide_eq_true hne)
      have hq := hI.queueId e he
      rw [Node.queue, ← hs] at hq
      exact hq
  simp only [QueueTable.step, Node.queueDelete]
  by_cases hv : s.node.queuePool.isHandleValid queue = true
  · by_cases h0 : (s.node.queue queue).numTasks = 0
    · simp only [hv, h0, ↓reduceIte, true_or]
      exact hdone hv
    · by_cases hw : infinite < timeout
      · simp only [hv, h0, hw, ↓reduceIte, or_true]
        exact hdone hv
      · simp only [hv, h0, hw, ↓reduceIte, reduceCtorEq, or_self]
        exact hI
  · simp only [hv, Bool.false_eq_true, ↓reduceIte, Option.some.injEq, reduceCtorEq, or_self]
    exact hI

theorem step (hI : Inv memory s) (call : QueueCall) : Inv memory (s.step call) := by
  cases call with
  | create queueId job attributes => exact hI.create queueId job attributes
  | delete queue timeout => exact hI.delete queue timeout

theorem run (hI : Inv memory s) (calls : List QueueCall) : Inv memory (s.run calls) := by
  induction calls generalizing s with
  | nil => exact hI
  | cons call calls ih => exact ih (hI.step call)

end Inv

/-- The lookup returns the first entry with the id among those it looks at. -/
theorem queueGet_cases (n : Node) (queueId : Nat) :
    (∃ ii, ii < n.attributes.maxQueues ∧ (n.queuePool.storage ii).queueId = queueId ∧
      (∀ jj, jj < ii → (n.queuePool.storage jj).queueId ≠ queueId) ∧
      n.queueGet queueId = (.success, (n.queuePool.storage ii).handle)) ∨
    ((∀ ii, ii < n.attributes.maxQueues → (n.queuePool.storage ii).queueId ≠ queueId) ∧
      n.queueGet queueId = (.errQueueInvalid, Handle.invalid)) := by
  unfold Node.queueGet
  split
  · rename_i ii hfind
    obtain ⟨hid, hlt, hfirst⟩ := List.find?_range_eq_some.mp hfind
    refine Or.inl ⟨ii, List.mem_range.mp hlt, (beq_iff_eq.mp hid).symm, fun jj hjj heq => ?_, rfl⟩
    have hne := hfirst jj hjj
    rw [Bool.not_eq_true', beq_eq_false_iff_ne] at hne
    exact hne heq.symm
  · rename_i hfind
    refine Or.inr ⟨fun ii hii heq => ?_, rfl⟩
    have hne := List.find?_range_eq_none.mp hfind ii hii
    rw [Bool.not_eq_true', beq_eq_false_iff_ne] at hne
    exact hne heq.symm

namespace Inv

variable {memory : Nat → Queue} {s : QueueTable} {queueId : Nat}

/-- An entry with an id holds a live queue or has never been in use. -/
theorem entry_cases (hI : Inv memory s) (hid : queueId ≠ 0) {ii : Nat}
    (hii : (s.node.queuePool.storage ii).queueId = queueId) :
    (∃ h, (h, queueId) ∈ s.live ∧ h.id = ii ∧ handle (s.node.queuePool.storage ii) = h) ∨
      (ii ≠ 0 ∧ ii ∉ s.touched ∧ (memory ii).queueId = queueId) := by
  have hT := hI.tracked
  by_cases hfree : (handle (s.node.queuePool.storage ii)).id = idPoolInvalidId
  · by_cases htouched : ii = 0 ∨ ii ∈ s.touched
    · exact absurd (hii.symm.trans (hT.cleared ii htouched hfree)) hid
    · rw [not_or] at htouched
      rw [hT.untouched ii htouched.1 htouched.2] at hii
      exact Or.inr ⟨htouched.1, htouched.2, hii⟩
  · obtain ⟨hm, hidx⟩ := hT.mem_of_index hfree
    refine Or.inl ⟨_, (hI.mem_iff _ _).mpr ⟨hT.live hm, ?_⟩, hidx, rfl⟩
    rw [Node.queue, hidx]
    exact hii

theorem queueId_of_unused (hI : Inv memory s) {ii : Nat} (hne : ii ≠ 0) (hu : ii ∉ s.touched)
    (hm : (memory ii).queueId = queueId) : (s.node.queuePool.storage ii).queueId = queueId := by
  rw [hI.tracked.untouched ii hne hu]
  exact hm

/-- The lookup is right in exactly the states in which the entries in its way are. -/
theorem found_iff (hI : Inv memory s) (hid : queueId ≠ 0) :
    s.Found queueId ↔ Reached memory s queueId := by
  have hindex : ∀ h, (h, queueId) ∈ s.live → 0 < h.id ∧ h.id ≤ s.node.attributes.maxQueues ∧
      handle (s.node.queuePool.storage h.id) = h ∧
      (s.node.queuePool.storage h.id).queueId = queueId := by
    intro h hm
    obtain ⟨hl, hq⟩ := (hI.mem_iff h queueId).mp hm
    exact ⟨hl.1, hI.capacity ▸ hl.2.1, hl.2.2, hq⟩
  rcases queueGet_cases s.node queueId with ⟨ii, hlt, hii, hfirst, hget⟩ | ⟨hnone, hget⟩
  · -- the lookup stops at an entry, which holds a live queue or has never been in use
    rcases hI.entry_cases hid hii with ⟨h, hm, hidx, hh⟩ | ⟨hne, hu, hmem⟩
    · have hsmall : ∀ h', (h', queueId) ∈ s.live → h.id ≤ h'.id := by
        intro h' hm'
        by_contra hlt'
        exact hfirst h'.id (by omega) (hindex h' hm').2.2.2
      constructor
      · refine fun _ => ⟨fun h' hm' hlast => ⟨h, hm, by omega⟩, fun jj hne hjj hu hmem => ?_⟩
        refine ⟨h, hm, ?_⟩
        by_contra hle
        have heq : jj = ii := by
          by_contra hne'
          exact hfirst jj (by omega) (hI.queueId_of_unused hne hu hmem)
        subst heq
        exact hu (hidx ▸ hI.tracked.live_touched h (List.mem_map_of_mem hm))
      · intro _
        refine ⟨fun _ => ⟨h, hm, ?_⟩, fun hno => absurd hm (hno h)⟩
        rw [hget, ← hh]
        rfl
    · have hstuck : ¬ ∃ h, (h, queueId) ∈ s.live ∧ h.id < ii := by
        rintro ⟨h, hm, hlt'⟩
        exact hfirst h.id hlt' (hindex h hm).2.2.2
      constructor
      · intro hF
        exfalso
        by_cases hex : ∃ h, (h, queueId) ∈ s.live
        · obtain ⟨h, hm, hget'⟩ := hF.success hex
          have hh : handle (s.node.queuePool.storage ii) = h :=
            congrArg Prod.snd (hget.symm.trans hget')
          have hfree := hI.tracked.free_of_untouched hu
          rw [hh] at hfree
          exact absurd hfree (Nat.pos_iff_ne_zero.mp (hindex h hm).1)
        · have herr := hF.invalid fun h hm => hex ⟨h, hm⟩
          rw [hget] at herr
          cases congrArg Prod.fst herr
      · exact fun hR => absurd (hR.unused ii hne hlt hu hmem) hstuck
  · -- no entry that the lookup sees has the id, so only the last entry may hold a queue with it
    constructor
    · refine fun hF => ⟨fun h hm _ => ?_, fun ii hne hlt hu hmem => ?_⟩
      · obtain ⟨h', -, hget'⟩ := hF.success ⟨h, hm⟩
        rw [hget] at hget'
        cases congrArg Prod.fst hget'
      · exact absurd (hI.queueId_of_unused hne hu hmem) (hnone ii hlt)
    · intro hR
      refine ⟨fun ⟨h, hm⟩ => ?_, fun _ => hget⟩
      obtain ⟨-, hle, -, hq⟩ := hindex h hm
      exfalso
      rcases Nat.lt_or_eq_of_le hle with hlt | heq
      · exact hnone h.id hlt hq
      · obtain ⟨h', hm', hlt'⟩ := hR.last h hm heq
        exact hnone h'.id (heq ▸ hlt') (hindex h' hm').2.2.2

end Inv

/-- In every history of queues that are created and deleted, over memory with any contents: the
lookup of an id finds a live queue with this id whenever there is one, and reports an error
otherwise, exactly if such a queue in the last entry has another one in front of it, and if no
entry that has never been in use holds the id by chance without having one in front of it. -/
theorem lookup_exact (attributes : NodeAttributes) (mode : SchedulerMode) (actions : Nat → Action)
    (memory : Nat → Queue) (calls : List QueueCall) {queueId : Nat} (hid : queueId ≠ 0) :
    ((start attributes mode actions memory).run calls).Found queueId ↔
      Reached memory ((start attributes mode actions memory).run calls) queueId :=
  ((Inv.start attributes mode actions).run calls).found_iff hid

/-- A node with one job and the given number of queues. -/
def small (maxQueues : Nat) : NodeAttributes where
  numCores := 2
  maxTasks := 1
  maxActions := 1
  maxGroups := 1
  maxQueues := maxQueues
  queueLimit := 1
  maxJobs := 1
  maxActionsPerJob := 1
  maxPriorities := 1
  numCores_le := by decide

/-- The table of a node in clean memory after the creation of queue 7. -/
def withQueue (maxQueues : Nat) : QueueTable :=
  (start (small maxQueues) .workStealLf (fun _ => Node.blankAction) fun _ => Node.blankQueue).run
    [.create 7 ⟨0, 1⟩ none]

/-- In a pool of two queues the first one is found. -/
theorem lookup_exact_first : (withQueue 2).Found 7 := by
  refine (lookup_exact (small 2) .workStealLf _ _ [.create 7 ⟨0, 1⟩ none] (by decide)).mpr
    ⟨fun h hm hlast => ?_, fun ii hne hlt hu => ?_⟩
  · have hlive : (h, 7) ∈ [((⟨0, 1⟩ : Handle), 7)] := hm
    rw [(Prod.mk.inj (List.mem_singleton.mp hlive)).1] at hlast
    exact absurd hlast (by decide)
  · have hone : ii = 1 := by
      have hlt' : ii < 2 := hlt
      omega
    refine absurd ?_ hu
    rw [hone]
    exact (List.mem_cons_self : (1 : Nat) ∈ [1])

/-- The only queue of a pool is not found. -/
theorem last_queue_lost : ((⟨0, 1⟩ : Handle), 7) ∈ (withQueue 1).live ∧
    (withQueue 1).node.queueGet 7 = (.errQueueInvalid, Handle.invalid) ∧
    ¬ (withQueue 1).Found 7 := by
  have hlive : ((⟨0, 1⟩ : Handle), 7) ∈ (withQueue 1).live := List.mem_cons_self
  have hget : (withQueue 1).node.queueGet 7 = (.errQueueInvalid, Handle.invalid) := by
    decide +kernel
  refine ⟨hlive, hget, fun hF => ?_⟩
  obtain ⟨h, -, hsuccess⟩ := hF.success ⟨_, hlive⟩
  rw [hget] at hsuccess
  cases congrArg Prod.fst hsuccess

end QueueTable

end Embb.Mtapi
