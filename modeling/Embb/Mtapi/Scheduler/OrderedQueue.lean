import Embb.Mtapi.Scheduler.GroupCounter
import Embb.Mtapi.Scheduler.Pinned

/-!
# Ordered queues

The tasks of an ordered queue begin in the order in which they were enqueued, each after
the ones before it are over, as long as no worker takes one of them while it has another
one in hand, and no retained task is put back behind others. The worker queue to which
they are pinned, seen through the queue, then is a line that is worked off in order.
-/

namespace Embb.Mtapi

open Threads

/-- Every queue has its configuration, and its tasks are where it sends them. -/
structure QueuesAimed (n : Node) (fs : Multiset Frame) : Prop
    extends WorkCounted (fun _ _ => False) n fs, n.QueuesOwned where
  configured : ∀ q, n.KeepsOrder q → (n.queue q).orderedAffinity = n.orderedBit q
  member : ∀ id, n.QueueExists (n.taskPool.storage id).queue →
    ∃ p, n.taskPool.Live p ∧ p.id = id
  priority : ∀ p, n.taskPool.Live p → n.QueueExists (n.task p).queue →
    (n.task p).attributes.priority = (n.queue (n.task p).queue).attributes.priority
  calls : ∀ f ∈ fs, ∀ call ∈ f.calls, n.queuePool.Issued call.queue ∧
    (n.QueueExists call.queue →
      call.attributes.priority = (n.queue call.queue).attributes.priority)
  aimed : ∀ f ∈ fs, f.Aimed n
  placed : ∀ r, ∀ p ∈ (n.workerQueue r).tasks, n.KeepsOrder (n.task p).queue →
    r = n.pinned (n.task p).queue

/-- The steps that take the tasks of an ordered queue in turn. -/
structure TakesTurns (t : Nat) (c : Choice) (f : Frame) (n : Node) (fs : Multiset Frame) :
    Prop where
  /-- A task slot is deleted only when nothing refers to it. -/
  deletes : deletesUnreferenced t c f n fs
  /-- The tag of a queue slot does not wrap around. -/
  wraps : ∀ q status, f = .queueDeallocate q status → (n.queue q).handle.tag + 1 < uintRange
  /-- The tag of a task slot does not wrap around. -/
  taskWraps : ∀ p caller, f = .taskDeallocate p caller → (n.task p).handle.tag + 1 < uintRange
  /-- A task is enqueued through the handle of a queue that was created. -/
  enqueues : ∀ q attributes group, f = .enqueueEnabled q attributes group →
    n.queuePool.Issued q
  /-- A worker that helps out takes no task of an ordered queue while another task of that
  queue is in hand. -/
  helped : ∀ r rest p, f = .helperScan (r :: rest) → (n.workerQueue r).pop.2 = some p →
    (exec t c f n).1 = .pop r → n.KeepsOrder (n.task p).queue →
    ∀ f' ∈ fs, ∀ x ∈ f'.hand, (n.task x.2).queue ≠ (n.task p).queue
  /-- A retained task of an ordered queue is not put back behind another one. -/
  putBack : ∀ p ii isPrivate a r, f = .schedulePush p ii isPrivate a .retained →
    (exec t c f n).1 = .push r p → n.KeepsOrder (n.task p).queue →
    ∀ p' ∈ (n.workerQueue r).tasks, (n.task p').queue = (n.task p).queue → p' = p
  /-- Between the pushes of the instances of a task, no other task of its ordered queue is
  pushed. -/
  together : ∀ p ii isPrivate a call kk was r,
    f = .schedulePush p ii isPrivate a (.start call kk was) → (exec t c f n).1 = .push r p →
    n.KeepsOrder (n.task p).queue → ∀ f' ∈ fs, ∀ x ∈ f'.progress, 0 < x.2 → x.1 ≠ p →
    (n.task x.1).queue ≠ (n.task p).queue

section Aimed

variable {t : Nat} {c : Choice} {f : Frame} {n : Node} {others : Multiset Frame}

theorem TakesTurns.queueIssued (hg : TakesTurns t c f n (f ::ₘ others))
    (hs : n.queuePool.Sound) {x : Handle} (hx : n.queuePool.Issued x) :
    (code t c f n).1.queuePool.Issued x := by
  have hi := exec_issuedBy t c f n
  refine Node.queueIssued_access hs (fun q hu => ?_) hx
  rw [hu] at hi
  obtain ⟨status, hf⟩ := hi
  exact hg.wraps q status hf

namespace QueuesAimed

/-- A queue that a known handle names after a step existed before it, configured alike. -/
theorem exists_exec (h : QueuesAimed n (f ::ₘ others)) {q : Ptr} (hq : n.queuePool.Issued q)
    (he : (code t c f n).1.QueueExists q) :
    n.QueueExists q ∧ ((code t c f n).1.queue q).attributes = (n.queue q).attributes ∧
      ((code t c f n).1.queue q).orderedAffinity = (n.queue q).orderedAffinity := by
  rcases Node.queueExists_access h.toQueuesOwned he with ⟨he, -, hc⟩ | ⟨hnew, -⟩
  · exact ⟨he, hc⟩
  · exact absurd hq (Pool.not_issued_of_allocate h.queueSound hnew)

theorem keepsOrder_exec (h : QueuesAimed n (f ::ₘ others)) {q : Ptr}
    (hq : n.queuePool.Issued q) (he : (code t c f n).1.KeepsOrder q) :
    n.KeepsOrder q ∧ (code t c f n).1.pinned q = n.pinned q := by
  obtain ⟨hold, hattr, -⟩ := h.exists_exec hq he.1
  refine ⟨⟨hold, hattr ▸ he.2⟩, ?_⟩
  rw [Node.pinned, Node.pinned, hattr, code, Node.workerCount_access]

/-- A task that is referred to stays in its queue. -/
theorem queue_exec (h : QueuesAimed n (f ::ₘ others)) (hg : TakesTurns t c f n (f ::ₘ others))
    {p : Ptr} (hp : p ∈ references n (f ::ₘ others)) (hf : p ∉ f.fresh) :
    ((code t c f n).1.task p).queue = (n.task p).queue :=
  congrArg (fun x => x.2.2.2.1) (h.placement_exec hg.deletes hp hf)

theorem ordered_exec (h : QueuesAimed n (f ::ₘ others))
    (hg : TakesTurns t c f n (f ::ₘ others)) {p : Ptr} (hp : p ∈ references n (f ::ₘ others))
    (hf : p ∉ f.fresh) (he : (code t c f n).1.KeepsOrder ((code t c f n).1.task p).queue) :
    ((code t c f n).1.task p).queue = (n.task p).queue ∧ n.KeepsOrder (n.task p).queue ∧
      (code t c f n).1.pinned (n.task p).queue = n.pinned (n.task p).queue := by
  have hq := h.queue_exec hg hp hf
  rw [hq] at he
  exact ⟨hq, h.keepsOrder_exec (h.queueIssued p.id) he⟩

theorem configured_exec (h : QueuesAimed n (f ::ₘ others)) {q : Ptr}
    (he : (code t c f n).1.KeepsOrder q) :
    ((code t c f n).1.queue q).orderedAffinity = (code t c f n).1.orderedBit q := by
  have hbit : (code t c f n).1.orderedBit q = n.orderedBit q := by
    rw [Node.orderedBit, Node.orderedBit, code, Node.workerCount_access]
  rcases Node.queueExists_access h.toQueuesOwned he.1 with ⟨hold, -, hattr, haff⟩ | ⟨-, -, -, hbit'⟩
  · rw [hbit, ← h.configured q ⟨hold, hattr ▸ he.2⟩]
    exact haff
  · rw [hbit]
    exact hbit' he.2

theorem taskQueue_issued (h : QueuesAimed n (f ::ₘ others)) {p q : Ptr}
    (hu : (exec t c f n).1 = .taskQueue p (some q)) :
    ∃ call, f = .startQueueCount call p ∧ call.queue = q ∧ n.queuePool.Issued q := by
  have hi := exec_issuedBy t c f n
  rw [hu] at hi
  obtain ⟨call, rfl, hf⟩ := hi
  refine ⟨call, hf, rfl, (h.calls f (Multiset.mem_cons_self f others) call ?_).1⟩
  rw [hf]
  exact List.mem_singleton_self _

/-- A slot that names an existing queue named it before, or a start call has just
assigned it. -/
theorem queue_before (h : QueuesAimed n (f ::ₘ others)) {id : Nat}
    (he : (code t c f n).1.QueueExists ((code t c f n).1.taskPool.storage id).queue) :
    (n.QueueExists (n.taskPool.storage id).queue ∧
      ((code t c f n).1.taskPool.storage id).queue = (n.taskPool.storage id).queue) ∨
      ∃ call p, f = .startQueueCount call p ∧ p.id = id ∧ n.QueueExists call.queue ∧
        ((code t c f n).1.taskPool.storage id).queue = call.queue := by
  rcases n.taskQueueField_access (exec t c f n).1 id with hq | hq | ⟨p, hid, hu⟩
  · rw [show ((code t c f n).1.taskPool.storage id).queue = _ from hq] at he ⊢
    exact Or.inl ⟨(h.exists_exec (h.queueIssued id) he).1, rfl⟩
  · exact absurd hq (Nat.pos_iff_ne_zero.mp he.1.1)
  · obtain ⟨call, hf, hcall, hiss⟩ := h.taskQueue_issued hu
    have hsame : ((code t c f n).1.taskPool.storage id).queue = call.queue := hcall.symm
    rw [hsame] at he ⊢
    exact Or.inr ⟨call, p, hf, hid, (h.exists_exec (hcall ▸ hiss) he).1, rfl⟩

theorem live_exec (h : QueuesAimed n (f ::ₘ others)) {p : Ptr} (hp : n.taskPool.Live p)
    (he : (code t c f n).1.QueueExists ((code t c f n).1.task p).queue) :
    (code t c f n).1.taskPool.Live p := by
  refine Node.live_access h.sound hp fun q hu hid => ?_
  have hnone : ((n.access (.taskDeallocate q)).task p).queue.id = idPoolInvalidId := by
    simp only [Node.access, Node.task, hid, Node.setTaskPool_taskPool, Pool.deallocate,
      Pool.setIdPool_storage, Pool.storage_modify_self]
    rfl
  rw [← hu] at hnone
  exact absurd hnone (Nat.pos_iff_ne_zero.mp he.1.1)

theorem member_exec (h : QueuesAimed n (f ::ₘ others)) (id : Nat)
    (he : (code t c f n).1.QueueExists ((code t c f n).1.taskPool.storage id).queue) :
    ∃ p, (code t c f n).1.taskPool.Live p ∧ p.id = id := by
  rcases h.queue_before he with ⟨hold, -⟩ | ⟨call, p, rfl, rfl, -⟩
  · obtain ⟨p, hp, rfl⟩ := h.member id hold
    exact ⟨p, h.live_exec hp he, rfl⟩
  · exact ⟨p, h.live_exec (h.live p (mem_references_of_mem (Multiset.mem_cons_self _ others)
      (List.mem_singleton_self p))) he, rfl⟩

/-- A live task of an existing queue was one before, or a start call has just enqueued it. -/
theorem enqueued_before (h : QueuesAimed n (f ::ₘ others)) {p : Ptr}
    (hp : (code t c f n).1.taskPool.Live p)
    (he : (code t c f n).1.QueueExists ((code t c f n).1.task p).queue) :
    n.taskPool.Live p ∧ ((n.QueueExists (n.task p).queue ∧
        ((code t c f n).1.task p).queue = (n.task p).queue) ∨
      ∃ call, f = .startQueueCount call p ∧ n.QueueExists call.queue ∧
        ((code t c f n).1.task p).queue = call.queue) := by
  have hof : ∀ q : Ptr, q.id = p.id → n.taskPool.Live q → q = p := fun q hid hq => by
    have hsame : (code t c f n).1.task q = (code t c f n).1.task p :=
      congrArg (code t c f n).1.taskPool.storage hid
    exact (h.live_exec hq (by rw [hsame]; exact he)).eq_of_id hp hid
  rcases h.queue_before he with ⟨hold, hsame⟩ | ⟨call, q, hf, hid, hold, hqueue⟩
  · obtain ⟨q, hq, hid⟩ := h.member p.id hold
    cases hof q hid hq
    exact ⟨hq, Or.inl ⟨hold, hsame⟩⟩
  · have hq := h.live q (mem_references_of_mem (Multiset.mem_cons_self f others) (by
      rw [hf]
      exact List.mem_singleton_self q))
    cases hof q hid hq
    exact ⟨hq, Or.inr ⟨call, hf, hold, hqueue⟩⟩

theorem priority_exec (h : QueuesAimed n (f ::ₘ others)) {p : Ptr}
    (hp : (code t c f n).1.taskPool.Live p)
    (he : (code t c f n).1.QueueExists ((code t c f n).1.task p).queue) :
    ((code t c f n).1.task p).attributes.priority =
      ((code t c f n).1.queue ((code t c f n).1.task p).queue).attributes.priority := by
  obtain ⟨hold, hcase⟩ := h.enqueued_before hp he
  have hattr : ((code t c f n).1.task p).attributes = (n.task p).attributes := by
    refine n.taskAttributes_access _ fun q call hu hid => ?_
    have hnone : ((n.access (.taskInit q call)).task p).queue.id = idPoolInvalidId := by
      simp only [Node.access, Node.task, ← hid, Node.modifyTask_taskPool,
        Pool.storage_modify_self]
      rfl
    rw [← hu] at hnone
    exact absurd hnone (Nat.pos_iff_ne_zero.mp he.1.1)
  rcases hcase with ⟨hq, hsame⟩ | ⟨call, hf, hq, hsame⟩
  · rw [hsame] at he ⊢
    rw [hattr, (h.exists_exec (h.queueIssued p.id) he).2.1]
    exact h.priority p hold hq
  · have hself := Multiset.mem_cons_self f others
    have hstart := h.started f hself call p (by rw [hf]; exact List.mem_singleton_self _)
    obtain ⟨hiss, hprio⟩ := h.calls f hself call (by rw [hf]; exact List.mem_singleton_self _)
    rw [hsame] at he ⊢
    rw [hattr, hstart, (h.exists_exec hiss he).2.1]
    exact hprio hq

theorem calls_exec (h : QueuesAimed n (f ::ₘ others)) (hg : TakesTurns t c f n (f ::ₘ others)) :
    ∀ f' ∈ (code t c f n).2 + others, ∀ call ∈ f'.calls,
      (code t c f n).1.queuePool.Issued call.queue ∧
        ((code t c f n).1.QueueExists call.queue → call.attributes.priority =
          ((code t c f n).1.queue call.queue).attributes.priority) := by
  intro f' hf' call hcall
  have hstay : n.queuePool.Issued call.queue ∧ (n.QueueExists call.queue →
      call.attributes.priority = (n.queue call.queue).attributes.priority) →
      (code t c f n).1.queuePool.Issued call.queue ∧
        ((code t c f n).1.QueueExists call.queue → call.attributes.priority =
          ((code t c f n).1.queue call.queue).attributes.priority) := by
    rintro ⟨hiss, hprio⟩
    refine ⟨hg.queueIssued h.queueSound hiss, fun he => ?_⟩
    obtain ⟨hold, hattr, -⟩ := h.exists_exec hiss he
    rw [hattr]
    exact hprio hold
  rcases Multiset.mem_add.mp hf' with hf' | hf'
  · rcases exec_calls t c f n (List.mem_flatMap.mpr ⟨f', hf', hcall⟩) with
      hc | hc | ⟨attributes, group, hf, hprio⟩
    · exact hstay (h.calls f (Multiset.mem_cons_self f others) call hc)
    · refine hstay ⟨Or.inl (by rw [hc]; rfl), fun he => ?_⟩
      rw [hc] at he
      exact absurd he.1.1 (lt_irrefl 0)
    · exact hstay ⟨hg.enqueues call.queue attributes group hf, fun _ => hprio⟩
  · exact hstay (h.calls f' (Multiset.mem_cons_of_mem hf') call hcall)

theorem aimed_exec (h : QueuesAimed n (f ::ₘ others)) (hg : TakesTurns t c f n (f ::ₘ others)) :
    ∀ f' ∈ (code t c f n).2 + others, f'.Aimed (code t c f n).1 := by
  intro f' hf'
  have hself := Multiset.mem_cons_self f others
  have hwc : (code t c f n).1.workerCount = n.workerCount := n.workerCount_access _
  rcases Multiset.mem_add.mp hf' with hf' | hf'
  · rcases exec_aims t c f n (h.aimed f hself) h.configured with he | ⟨x, p, hx, hp, hr, hfr, ha⟩
    · refine Frame.Aimed.of_aims (List.eq_nil_iff_forall_not_mem.mpr fun p hp => ?_)
      exact List.eq_nil_iff_forall_not_mem.mp he p (List.mem_flatMap.mpr ⟨f', hf', hp⟩)
    · have hfx : f' = x := List.mem_singleton.mp (hx ▸ hf')
      subst hfx
      refine ha.congr hwc fun p' hp' ho => ?_
      rw [hp, List.mem_singleton] at hp'
      subst hp'
      obtain ⟨h1, h2, -⟩ := h.ordered_exec hg (mem_references_of_mem hself hr)
        (by rw [hfr]; exact List.not_mem_nil) ho
      exact ⟨h1, h2⟩
  · refine (h.aimed f' (Multiset.mem_cons_of_mem hf')).congr hwc fun p hp ho => ?_
    have hr := mem_references_of_mem (n := n) hf' (Frame.mem_refs_of_mem_aims hp)
    obtain ⟨h1, h2, -⟩ := h.ordered_exec hg
      (by rw [references_cons]; exact Multiset.mem_add.mpr (Or.inr hr))
      (fun hfr => h.not_mem_others hfr hr) ho
    exact ⟨h1, h2⟩

/-- A task in a worker queue is referred to, and no start call writes its slot. -/
theorem of_queued (h : QueuesAimed n (f ::ₘ others)) {r : QueueRef} {p : Ptr}
    (hp : p ∈ (n.workerQueue r).tasks) :
    p ∈ references n (f ::ₘ others) ∧ p ∉ f.fresh := by
  have hq := mem_queued h.confined hp
  exact ⟨Multiset.mem_add.mpr (Or.inl hq), fun hfr =>
    h.not_mem_others hfr (Multiset.mem_add.mpr (Or.inl hq))⟩

theorem placed_exec (h : QueuesAimed n (f ::ₘ others))
    (hg : TakesTurns t c f n (f ::ₘ others)) {r : QueueRef} {p : Ptr}
    (hp : p ∈ ((code t c f n).1.workerQueue r).tasks)
    (he : (code t c f n).1.KeepsOrder ((code t c f n).1.task p).queue) :
    r = (code t c f n).1.pinned ((code t c f n).1.task p).queue := by
  have hself := Multiset.mem_cons_self f others
  rcases n.mem_tasks_access hp with hold | hu
  · obtain ⟨hr, hf⟩ := h.of_queued hold
    obtain ⟨hsame, ho, hpin⟩ := h.ordered_exec hg hr hf he
    rw [hsame, hpin]
    exact h.placed r p hold ho
  · have hi := exec_issuedBy t c f n
    rw [hu] at hi
    obtain ⟨hr, -, ii, isPrivate, a, caller, hrr, rfl⟩ := hi
    have hrefs := mem_references_of_mem (n := n) hself (List.mem_singleton_self p)
    obtain ⟨hsame, ho, hpin⟩ := h.ordered_exec hg hrefs List.not_mem_nil he
    have hw : n.workerCount ≠ 0 := by
      intro hz
      simp only [Node.processOrder, hz, List.range_zero, List.flatMap_nil] at hr
      exact List.not_mem_nil hr
    obtain ⟨hii, hpr⟩ := h.aimed _ hself hw ho
    rw [hsame, hpin, hrr, hii, hpr, Node.pinned, h.priority p (h.live p hrefs) ho.1]

end QueuesAimed

theorem queuesAimed_preserved : Preserves code TakesTurns QueuesAimed := by
  intro t c f n others h hg
  have hi := exec_issuedBy t c f n
  have howned : (code t c f n).1.QueuesOwned := by
    refine Node.queuesOwned_access h.toQueuesOwned (fun q hu => ?_) fun p q hu => ?_
    · rw [hu] at hi
      obtain ⟨status, hf⟩ := hi
      exact hg.wraps q status hf
    · obtain ⟨call, -, -, hiss⟩ := h.taskQueue_issued hu
      exact hiss
  exact ⟨workCounted_exec h.toWorkCounted hg.deletes (fun _ _ _ => id) fun _ _ _ => id, howned,
    fun q => h.configured_exec, h.member_exec, fun p => h.priority_exec, h.calls_exec hg,
    h.aimed_exec hg, fun r p => h.placed_exec hg⟩

end Aimed

end Embb.Mtapi
