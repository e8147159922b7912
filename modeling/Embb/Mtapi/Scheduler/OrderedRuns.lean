import Embb.Lib.Line
import Embb.Mtapi.Scheduler.OrderedQueue

/-!
# Runs of an ordered queue

The main loop of a worker takes a task with nothing else on its stack, and the tasks of an
ordered queue get into the hands of one worker only. So the worker queue to which they are
pinned, seen through the queue, is a line in every run.
-/

namespace Embb.Mtapi

open Threads

/-- What a frame tells about the thread on whose stack it is. -/
structure Frame.Seated (n : Node) (i : Nat) (f : Frame) : Prop where
  mainLoop : f.mainLoop = true → i < n.workerCount
  scans : ∀ r ∈ f.scans, (r.isPrivate = true → r.worker = i) ∧ i < n.workerCount
  hand : ∀ x ∈ f.hand, n.KeepsOrder (n.task x.2).queue →
    (n.pinned (n.task x.2).queue).worker = i

/-- The frames are on the stacks of their threads, those of a main loop at the bottom. -/
structure Seated (n : Node) (callStacks : List (List Frame)) : Prop where
  frames : ∀ (i : Nat) (stack : List Frame), callStacks[i]? = some stack →
    ∀ f ∈ stack, f.Seated n i
  bottom : ∀ (i : Nat) (stack : List Frame), callStacks[i]? = some stack →
    ∀ f ∈ stack.dropLast, f.mainLoop = false

section Seats

variable {t : Nat} {c : Choice} {f : Frame} {n : Node} {others : Multiset Frame}
  {callStacks : List (List Frame)} {rest : List Frame}

/-- A thread that finds a pinned worker queue in its scan is the worker of that queue. -/
theorem Frame.Seated.worker_pinned {i : Nat} {g : Frame} (hs : g.Seated n i) {q : Ptr}
    (hr : n.pinned q ∈ g.scans) : (n.pinned q).worker = i := by
  obtain ⟨hown, hi⟩ := hs.scans _ hr
  by_cases hw : n.workerCount = 1
  · have hzero : (n.pinned q).worker = 0 := by
      simp only [Node.pinned, hw, Nat.mod_one]
    omega
  · exact hown (decide_eq_true hw)

/-- A task in a hand stays in its queue. -/
theorem QueuesAimed.hand_exec (h : QueuesAimed n (f ::ₘ others))
    (hg : TakesTurns t c f n (f ::ₘ others)) {g : Frame} (hm : g ∈ f ::ₘ others)
    {x : Bool × Ptr} (hx : x ∈ g.hand) :
    ((code t c f n).1.task x.2).queue = (n.task x.2).queue ∧
      x.2 ∈ references n (f ::ₘ others) ∧ x.2 ∉ f.fresh := by
  obtain ⟨hr, hfr⟩ := Frame.mem_refs_of_mem_hand (b := x.1) (p := x.2) hx
  have href : x.2 ∈ references n (f ::ₘ others) := mem_references_of_mem hm hr
  have hnf : x.2 ∉ f.fresh := by
    rcases Multiset.mem_cons.mp hm with rfl | hm
    · rw [hfr]
      exact List.not_mem_nil
    · exact fun hfresh => h.not_mem_others hfresh (mem_references_of_mem hm hr)
  exact ⟨h.queue_exec hg href hnf, href, hnf⟩

theorem Frame.Seated.stays {g : Frame} {i : Nat} (hs : g.Seated n i)
    (h : QueuesAimed n (f ::ₘ others)) (hg : TakesTurns t c f n (f ::ₘ others))
    (hm : g ∈ f ::ₘ others) : g.Seated (code t c f n).1 i where
  mainLoop hl := by
    rw [code, Node.workerCount_access]
    exact hs.mainLoop hl
  scans r hr := by
    rw [code, Node.workerCount_access]
    exact hs.scans r hr
  hand x hx ho := by
    obtain ⟨-, hr, hnf⟩ := h.hand_exec hg hm hx
    obtain ⟨hq, hold, hpin⟩ := h.ordered_exec hg hr hnf ho
    rw [hq, hpin]
    exact hs.hand x hx hold

/-- The frames that a step leaves are on the right stack. -/
theorem Frame.Seated.arrives (hs : f.Seated n t) (h : QueuesAimed n (f ::ₘ others))
    (hg : TakesTurns t c f n (f ::ₘ others)) {g : Frame} (hm : g ∈ (exec t c f n).2) :
    g.Seated (code t c f n).1 t where
  mainLoop hl := by
    rw [code, Node.workerCount_access]
    exact hs.mainLoop ((exec_mainLoop t c f n).1 g hm hl)
  scans r hr := by
    rw [code, Node.workerCount_access]
    rcases exec_scans t c f n with hold | ⟨hlt, hnext⟩
    · exact hs.scans r (hold r (List.mem_flatMap.mpr ⟨g, hm, hr⟩))
    · have hr' : r ∈ n.nextTask t := hnext ▸ List.mem_flatMap.mpr ⟨g, hm, hr⟩
      exact ⟨Node.worker_of_mem_nextTask hr', hlt.elim hs.mainLoop id⟩
  hand x hx ho := by
    have hself := Multiset.mem_cons_self f others
    have hx' : x ∈ (exec t c f n).2.flatMap Frame.hand := List.mem_flatMap.mpr ⟨g, hm, hx⟩
    rcases exec_hand t c f n with he | he | ⟨r, rest, p, hf, hp, -, he⟩ | ⟨ctx, hf, he⟩
    · exact (hs.stays h hg hself).hand x (he ▸ hx') ho
    · exact absurd (he ▸ hx') List.not_mem_nil
    · rw [he, List.mem_singleton] at hx'
      subst hx'
      have hin : p ∈ (n.workerQueue r).tasks := by
        rw [TaskQueue.tasks_of_pop_some hp]
        exact List.mem_cons_self
      obtain ⟨href, hnf⟩ := h.of_queued hin
      obtain ⟨hq, hold, hpin⟩ := h.ordered_exec hg href hnf ho
      have hr := h.placed r p hin hold
      rw [hq, hpin]
      refine hs.worker_pinned ?_
      rw [← hr]
      rcases hf with rfl | rfl <;> exact List.mem_cons_self
    · rw [he, List.mem_singleton] at hx'
      subst hx' hf
      exact (hs.stays h hg hself).hand (false, ctx.task) (List.mem_singleton_self _) ho

theorem Seated.exec (hs : Seated n callStacks) (hst : callStacks[t]? = some (f :: rest))
    (h : QueuesAimed n (callStacks.flatten : List Frame))
    (hg : TakesTurns t c f n (callStacks.flatten : List Frame)) :
    Seated (code t c f n).1 (callStacks.set t ((code t c f n).2 ++ rest)) := by
  obtain ⟨others, hflat, -, -⟩ := frames_set hst (code t c f n).2
  have hall : ∀ {i : Nat} {stack : List Frame} {g : Frame}, callStacks[i]? = some stack →
      g ∈ stack → g ∈ f ::ₘ others := by
    intro i stack g hi hm
    rw [← hflat, Multiset.mem_coe]
    exact List.mem_flatten.mpr ⟨stack, List.mem_of_getElem? hi, hm⟩
  rw [hflat] at h hg
  have ht : t < callStacks.length := (List.getElem?_eq_some_iff.mp hst).1
  refine ⟨fun i stack hi g hm => ?_, fun i stack hi g hm => ?_⟩
  · rcases eq_or_ne t i with rfl | hne
    · rw [List.getElem?_set_self ht] at hi
      cases hi
      rcases List.mem_append.mp hm with hm | hm
      · exact (hs.frames t _ hst f List.mem_cons_self).arrives h hg hm
      · have hm := List.mem_cons_of_mem f hm
        exact (hs.frames t _ hst g hm).stays h hg (hall hst hm)
    · rw [List.getElem?_set_ne hne] at hi
      exact (hs.frames i stack hi g hm).stays h hg (hall hi hm)
  · rcases eq_or_ne t i with rfl | hne
    · rw [List.getElem?_set_self ht] at hi
      cases hi
      rcases eq_or_ne rest [] with rfl | hrest
      · rw [List.append_nil] at hm
        exact (exec_mainLoop t c f n).2 g hm
      · have hbottom := hs.bottom t _ hst
        rw [List.dropLast_cons_of_ne_nil hrest] at hbottom
        rw [List.dropLast_append_of_ne_nil hrest] at hm
        rcases List.mem_append.mp hm with hm | hm
        · have hf := hbottom f List.mem_cons_self
          by_contra hl
          have := (exec_mainLoop t c f n).1 g hm (by simpa using hl)
          exact Bool.false_ne_true (hf.symm.trans this)
        · exact hbottom g (List.mem_cons_of_mem f hm)
    · rw [List.getElem?_set_ne hne] at hi
      exact hs.bottom i stack hi g hm

/-- When the main loop of a worker takes a task of an ordered queue, no other task of the queue
is in a hand. -/
theorem Seated.alone (hs : Seated n callStacks) (hst : callStacks[t]? = some (f :: rest))
    (h : QueuesAimed n (callStacks.flatten : List Frame)) {r : QueueRef} {left : List QueueRef}
    {p : Ptr} (hf : f = .workerScan (r :: left)) (hp : (n.workerQueue r).pop.2 = some p)
    (ho : n.KeepsOrder (n.task p).queue) :
    ∀ g ∈ (callStacks.flatten : Multiset Frame), ∀ x ∈ g.hand,
      (n.task x.2).queue ≠ (n.task p).queue := by
  intro g hg x hx he
  obtain ⟨stack, hstack, hm⟩ := List.mem_flatten.mp (Multiset.mem_coe.mp hg)
  obtain ⟨i, hi⟩ := List.mem_iff_getElem?.mp hstack
  have hin : p ∈ (n.workerQueue r).tasks := by
    rw [TaskQueue.tasks_of_pop_some hp]
    exact List.mem_cons_self
  have hr := h.placed r p hin ho
  have hown : (n.pinned (n.task p).queue).worker = t := by
    refine (hs.frames t _ hst f List.mem_cons_self).worker_pinned ?_
    rw [← hr, hf]
    exact List.mem_cons_self
  have hother := (hs.frames i stack hi g hm).hand x hx (he ▸ ho)
  rw [he, hown] at hother
  subst hother
  cases hst.symm.trans hi
  have hrest : rest = [] := by
    by_contra hne
    have hb := hs.bottom t _ hst f (by
      rw [List.dropLast_cons_of_ne_nil hne]
      exact List.mem_cons_self)
    rw [hf] at hb
    cases hb
  rw [hrest, List.mem_singleton] at hm
  rw [hm, hf] at hx
  exact absurd hx List.not_mem_nil

end Seats

/-- What a push leads to. -/
theorem exec_push {t : Nat} {c : Choice} {f : Frame} {n : Node} {r : QueueRef} {p : Ptr}
    (hu : (exec t c f n).1 = .push r p) :
    ∃ ii isPrivate a caller, f = .schedulePush p ii isPrivate a caller ∧
      (exec t c f n).2 = caller.resume p true ∧ ((n.workerQueue r).push p).2 = true := by
  have hi := exec_issuedBy t c f n
  rw [hu] at hi
  obtain ⟨-, hpush, ii, isPrivate, a, caller, rfl, rfl⟩ := hi
  refine ⟨ii, isPrivate, a, caller, rfl, ?_, hpush⟩
  by_cases hwait : (n.workerQueue ⟨ii, isPrivate, (n.task p).attributes.priority⟩).lock = true ∨
      (⟨ii, isPrivate, (n.task p).attributes.priority⟩ : QueueRef) ∉ n.processOrder
  · simp only [exec, hwait, ↓reduceIte] at hu
    cases hu
  · simp only [exec, hwait, hpush, ↓reduceIte]

/-- What a task that is taken from a worker queue leads to. -/
theorem exec_pop {t : Nat} {c : Choice} {f : Frame} {n : Node} {r : QueueRef}
    (hu : (exec t c f n).1 = .pop r) :
    ∃ left p, (f = .workerScan (r :: left) ∨ f = .helperScan (r :: left)) ∧
      (n.workerQueue r).pop.2 = some p ∧
        (exec t c f n).2.flatMap Frame.hand = [(false, p)] := by
  revert hu
  fun_cases exec t c f n
  all_goals first
    | intro hu
      cases hu
      exact ⟨_, _, Or.inl rfl, by assumption, rfl⟩
    | intro hu
      cases hu
      exact ⟨_, _, Or.inr rfl, by assumption, rfl⟩
    | exact fun hu => by cases hu

namespace Node

/-- The tasks of an ordered queue that wait, in order. -/
def waiting (n : Node) (q : Ptr) : List Ptr :=
  (n.workerQueue (n.pinned q)).tasks.filter fun p => (n.task p).queue = q

theorem tasks_access_of_stays (n : Node) {u : Access} (hpush : ∀ r p, u ≠ .push r p)
    (hpop : ∀ r, u ≠ .pop r) (r : QueueRef) :
    ((n.access u).workerQueue r).tasks = (n.workerQueue r).tasks := by
  by_cases hu : u.keepsQueues = true
  · rw [n.workerQueue_access hu]
  · cases u with
    | push r' p => exact absurd rfl (hpush r' p)
    | pop r' => exact absurd rfl (hpop r')
    | lock r' held =>
      simp only [access, setWorkerQueue_workerQueue]
      by_cases hr : r = r'
      · rw [hr, Function.update_self, TaskQueue.tasks_setLock]
      · rw [Function.update_of_ne hr]
    | _ => exact absurd rfl hu

theorem tasks_access_push (n : Node) {r : QueueRef} {p : Ptr}
    (h : ((n.workerQueue r).push p).2 = true) (r' : QueueRef) :
    ((n.access (.push r p)).workerQueue r').tasks =
      (n.workerQueue r').tasks ++ if r' = r then [p] else [] := by
  simp only [access, setWorkerQueue_workerQueue]
  by_cases hr : r' = r
  · rw [hr, Function.update_self, TaskQueue.tasks_push_of_true h, if_pos rfl]
  · rw [Function.update_of_ne hr, if_neg hr, List.append_nil]

theorem tasks_access_pop (n : Node) {r : QueueRef} {p : Ptr}
    (h : (n.workerQueue r).pop.2 = some p) (r' : QueueRef) :
    (n.workerQueue r').tasks =
      (if r' = r then [p] else []) ++ ((n.access (.pop r)).workerQueue r').tasks := by
  simp only [access, setWorkerQueue_workerQueue]
  by_cases hr : r' = r
  · rw [hr, Function.update_self, TaskQueue.tasks_of_pop_some h, if_pos rfl]
    rfl
  · rw [Function.update_of_ne hr, if_neg hr, List.nil_append]

end Node

/-- The tasks of a queue that are in a hand. -/
def hands (n : Node) (q : Ptr) (fs : Multiset Frame) : Multiset (Bool × Ptr) :=
  (gather Frame.hand fs).filter fun x => (n.task x.2).queue = q

/-- The hand of the server of the line. -/
inductive Holds : Hand Ptr → Multiset (Bool × Ptr) → Prop
  | free : Holds .free 0
  | taken (p : Ptr) : Holds (.taken p) {(false, p)}
  | begun (p : Ptr) : Holds (.begun p) {(true, p)}

/-- The tasks of a queue that have been pushed, and those that have begun, in order. -/
structure QueueLog where
  entered : List Ptr
  begun : List Ptr

/-- The task that a start call adds to the line of an ordered queue. -/
def Frame.joins (q : Ptr) (t : Nat) (c : Choice) (f : Frame) (n : Node) : List Ptr :=
  match f, (exec t c f n).1 with
  | .schedulePush p _ _ _ (.start ..), .push .. =>
    if n.KeepsOrder q ∧ (n.task p).queue = q then [p] else []
  | _, _ => []

/-- The task of the ordered queue that a thread begins to execute. -/
def Frame.beginsIn (q : Ptr) (n : Node) : Frame → List Ptr
  | .executeRunning ctx => if n.KeepsOrder q ∧ (n.task ctx.task).queue = q then [ctx.task] else []
  | _ => []

/-- What a step adds to the log. -/
def QueueLog.record (q : Ptr) (t : Nat) (c : Choice) (f : Frame) (n : Node) (l : QueueLog) :
    QueueLog where
  entered := l.entered ++ f.joins q t c n
  begun := l.begun ++ f.beginsIn q n

/-- The program of all threads, with the log of a queue. -/
def queueLogged (q : Ptr) : Code (Node × QueueLog) Frame Choice := logged code (QueueLog.record q)

/-- The ordered queue, if it exists, is a line; and the start calls of its tasks push one task
after the other. -/
structure Lined (q : Ptr) (n : Node) (l : QueueLog) (fs : Multiset Frame) : Prop where
  line : n.KeepsOrder q → ∃ hand, Holds hand (hands n q fs) ∧
    (Line.mk l.entered l.begun (n.waiting q) hand).InOrder
  unborn : ¬ n.queuePool.Issued q → l.entered = [] ∧ l.begun = []
  entered : ∀ p ∈ l.entered, n.taskPool.Issued p
  member : ∀ p ∈ l.entered, p ∈ references n fs → (n.task p).queue = q
  starting : ∀ x ∈ gather Frame.progress fs, x.2 = 0 → x.1 ∉ l.entered
  going : ∀ x ∈ gather Frame.progress fs, 0 < x.2 → (n.task x.1).queue = q →
    x.1 ∈ l.entered → l.entered.getLast? = some x.1
  once : ((gather Frame.progress fs).map Prod.fst).Nodup

section Lines

variable {t : Nat} {c : Choice} {f : Frame} {n : Node} {others : Multiset Frame} {q : Ptr}
  {l : QueueLog} {α : Type}

theorem Frame.joins_cases (q : Ptr) (t : Nat) (c : Choice) (f : Frame) (n : Node) :
    f.joins q t c n = [] ∨ ∃ p ii isPrivate a call kk was r,
      f = .schedulePush p ii isPrivate a (.start call kk was) ∧ (exec t c f n).1 = .push r p ∧
        n.KeepsOrder q ∧ (n.task p).queue = q ∧ f.joins q t c n = [p] := by
  unfold Frame.joins
  split
  · rename_i p ii isPrivate a call kk was r p' hu
    split
    · rename_i hq
      obtain ⟨ii', isPrivate', a', caller, hf, -, -⟩ := exec_push hu
      cases hf
      exact Or.inr ⟨_, _, _, _, _, _, _, _, rfl, hu, hq.1, hq.2, rfl⟩
    · exact Or.inl rfl
  · exact Or.inl rfl

theorem Frame.beginsIn_cases (q : Ptr) (f : Frame) (n : Node) :
    f.beginsIn q n = [] ∨ ∃ ctx, f = .executeRunning ctx ∧ n.KeepsOrder q ∧
      (n.task ctx.task).queue = q ∧ f.beginsIn q n = [ctx.task] := by
  unfold Frame.beginsIn
  split
  · split
    · rename_i ctx hq
      exact Or.inr ⟨ctx, rfl, hq.1, hq.2, rfl⟩
    · exact Or.inl rfl
  · exact Or.inl rfl

/-- Tasks that have been issued stay so. -/
theorem TakesTurns.taskIssued (hg : TakesTurns t c f n (f ::ₘ others)) (hs : n.taskPool.Sound)
    {x : Handle} (hx : n.taskPool.Issued x) : (code t c f n).1.taskPool.Issued x := by
  have hi := exec_issuedBy t c f n
  change (n.access (exec t c f n).1).taskPool.Issued x
  by_cases hk : (exec t c f n).1.keepsTaskHandles = true
  · exact hx.congr (n.taskIdPool_access hk) (n.taskHandle_access hk x.id)
  · cases hu : (exec t c f n).1 with
    | taskAllocate => exact hx.allocate hs
    | taskDeallocate p =>
      rw [hu] at hi
      obtain ⟨caller, hf⟩ := hi
      exact hx.deallocate (hg.taskWraps p caller hf)
    | _ =>
      rw [hu] at hk
      exact absurd rfl hk

theorem gather_code (w : Frame → List α) :
    gather w ((code t c f n).2 + others) = ((exec t c f n).2.flatMap w : List α) +
      gather w others := gather_add w _ others

/-- A start call that is at work after a step was at work before, has tried to push one more
instance, or has just begun. -/
theorem QueuesAimed.progress_exec (h : QueuesAimed n (f ::ₘ others)) (q : Ptr) {x : Ptr × Nat}
    (hx : x ∈ gather Frame.progress ((code t c f n).2 + others)) :
    x ∈ gather Frame.progress others ∨ (x ∈ f.progress ∧ f.joins q t c n = []) ∨
      (∃ kk, x.2 = kk + 1 ∧ f.progress = [(x.1, kk)]) ∨
      (x.2 = 0 ∧ n.taskPool.allocate.2 = some x.1) := by
  rw [gather_code, Multiset.mem_add] at hx
  rcases hx with hx | hx
  · rw [Multiset.mem_coe] at hx
    have ha : ∀ call p kk was, f = .startInstances call p kk was →
        (n.task p).attributes = call.attributes := fun call p kk was hf =>
      h.started f (Multiset.mem_cons_self f others) call p (by
        rw [hf]
        exact List.mem_singleton_self _)
    rcases exec_progress t c f n ha with ⟨he, hpush⟩ | he | ⟨p, kk, hf, he⟩ | ⟨p, hp, -, he⟩
    · refine Or.inr (Or.inl ⟨he ▸ hx, ?_⟩)
      rcases f.joins_cases q t c n with hnone | ⟨p, ii, isPrivate, a, call, kk, was, r, hf, hu, -⟩
      · exact hnone
      · have hempty := hpush r p hu
        rw [hf] at hempty
        cases hempty
    · exact absurd (he ▸ hx) List.not_mem_nil
    · rw [he, List.mem_singleton] at hx
      subst hx
      exact Or.inr (Or.inr (Or.inl ⟨kk, rfl, hf⟩))
    · rw [he, List.mem_singleton] at hx
      subst hx
      exact Or.inr (Or.inr (Or.inr ⟨rfl, hp⟩))
  · exact Or.inl hx

namespace Lined

theorem mem_progress (f : Frame) (others : Multiset Frame) {x : Ptr × Nat} :
    x ∈ gather Frame.progress (f ::ₘ others) ↔
      x ∈ f.progress ∨ x ∈ gather Frame.progress others := by
  rw [gather_cons, Multiset.mem_add, Multiset.mem_coe]

/-- Two start calls write different tasks. -/
theorem eq_of_progress (hl : Lined q n l (f ::ₘ others)) {x y : Ptr × Nat}
    (hx : x ∈ gather Frame.progress (f ::ₘ others)) (hy : y ∈ gather Frame.progress (f ::ₘ others))
    (he : x.1 = y.1) : x = y :=
  Multiset.inj_on_of_nodup_map hl.once x hx y hy he

theorem ne_of_progress (hl : Lined q n l (f ::ₘ others)) {x y : Ptr × Nat} (hx : x ∈ f.progress)
    (hy : y ∈ gather Frame.progress others) : y.1 ≠ x.1 := by
  intro he
  have hnd := hl.once
  rw [gather_cons, Multiset.map_add, Multiset.nodup_add] at hnd
  exact Multiset.disjoint_left.mp hnd.2.2 (Multiset.mem_map.mpr ⟨x, hx, rfl⟩)
    (Multiset.mem_map.mpr ⟨y, hy, he⟩)

theorem live_of_progress (h : QueuesAimed n (f ::ₘ others)) {x : Ptr × Nat}
    (hx : x ∈ gather Frame.progress (f ::ₘ others)) : n.taskPool.Live x.1 := by
  obtain ⟨g, hg, hm⟩ := mem_gather.mp hx
  exact h.live x.1 (mem_references_of_mem hg (Frame.mem_refs_of_mem_progress hm))

/-- The task of a start call that has tried to push an instance stays in its queue. -/
theorem queue_of_progress (hl : Lined q n l (f ::ₘ others)) (h : QueuesAimed n (f ::ₘ others))
    (hg : TakesTurns t c f n (f ::ₘ others)) {x : Ptr × Nat}
    (hx : x ∈ gather Frame.progress (f ::ₘ others)) (hpos : x.2 ≠ 0) :
    ((code t c f n).1.task x.1).queue = (n.task x.1).queue := by
  obtain ⟨g, hgm, hm⟩ := mem_gather.mp hx
  refine h.queue_exec hg (mem_references_of_mem hgm
    (Frame.mem_refs_of_mem_progress hm)) fun hfr => hpos ?_
  have hzero := (mem_progress f others).mpr (Or.inl (Frame.mem_progress_of_mem_fresh hfr))
  exact congrArg Prod.snd (hl.eq_of_progress hx hzero rfl)

theorem entered_exec (hl : Lined q n l (f ::ₘ others)) (h : QueuesAimed n (f ::ₘ others))
    (hg : TakesTurns t c f n (f ::ₘ others)) :
    ∀ p ∈ (l.record q t c f n).entered, (code t c f n).1.taskPool.Issued p := by
  intro p hp
  refine hg.taskIssued h.sound ?_
  rcases List.mem_append.mp hp with hp | hp
  · exact hl.entered p hp
  · rcases f.joins_cases q t c n with he | ⟨p', _, _, _, _, _, _, _, hf, -, -, -, he⟩
    · exact absurd (he ▸ hp) List.not_mem_nil
    · rw [he, List.mem_singleton] at hp
      subst hp
      refine Or.inr (Or.inr (h.live p (mem_references_of_mem (Multiset.mem_cons_self f others) ?_)))
      rw [hf]
      exact List.mem_singleton_self p

theorem unborn_exec (hl : Lined q n l (f ::ₘ others)) (h : QueuesAimed n (f ::ₘ others))
    (hg : TakesTurns t c f n (f ::ₘ others)) (hq : ¬ (code t c f n).1.queuePool.Issued q) :
    (l.record q t c f n).entered = [] ∧ (l.record q t c f n).begun = [] := by
  have hold : ¬ n.queuePool.Issued q := mt (hg.queueIssued h.queueSound) hq
  have hno : ¬ n.KeepsOrder q := fun ho => hold (Or.inr (Or.inr ho.1.1))
  obtain ⟨he, hb⟩ := hl.unborn hold
  rw [QueueLog.record, he, hb, List.nil_append, List.nil_append]
  constructor
  · rcases f.joins_cases q t c n with he | ⟨_, _, _, _, _, _, _, _, -, -, ho, -⟩
    · exact he
    · exact absurd ho hno
  · rcases f.beginsIn_cases q n with hb | ⟨_, -, ho, -⟩
    · exact hb
    · exact absurd ho hno

theorem starting_exec (hl : Lined q n l (f ::ₘ others)) (h : QueuesAimed n (f ::ₘ others))
    {x : Ptr × Nat} (hx : x ∈ gather Frame.progress ((code t c f n).2 + others)) (hz : x.2 = 0) :
    x.1 ∉ (l.record q t c f n).entered := by
  intro hm
  rcases h.progress_exec q hx with hold | ⟨hold, he⟩ | ⟨kk, hkk, -⟩ | ⟨-, hnew⟩
  · have hold' := (mem_progress f others).mpr (Or.inr hold)
    rcases List.mem_append.mp hm with hm | hm
    · exact hl.starting x hold' hz hm
    · rcases f.joins_cases q t c n with he | ⟨p, _, _, _, _, kk, _, _, hf, -, -, -, he⟩
      · exact List.not_mem_nil (he ▸ hm)
      · rw [he, List.mem_singleton] at hm
        refine hl.ne_of_progress (x := (p, kk)) ?_ hold hm
        rw [hf]
        exact List.mem_singleton_self _
  · rw [QueueLog.record, he, List.append_nil] at hm
    exact hl.starting x ((mem_progress f others).mpr (Or.inl hold)) hz hm
  · omega
  · rcases List.mem_append.mp hm with hm | hm
    · exact Pool.not_issued_of_allocate h.sound hnew (hl.entered _ hm)
    · rcases f.joins_cases q t c n with he | ⟨p, _, _, _, _, kk, _, _, hf, -, -, -, he⟩
      · exact List.not_mem_nil (he ▸ hm)
      · rw [he, List.mem_singleton] at hm
        refine Pool.not_live_of_allocate h.sound hnew (hm ▸ h.live p (mem_references_of_mem
          (Multiset.mem_cons_self f others) ?_))
        rw [hf]
        exact List.mem_singleton_self p

theorem going_exec (hl : Lined q n l (f ::ₘ others)) (h : QueuesAimed n (f ::ₘ others))
    (hg : TakesTurns t c f n (f ::ₘ others)) {x : Ptr × Nat}
    (hx : x ∈ gather Frame.progress ((code t c f n).2 + others)) (hpos : 0 < x.2)
    (hq : ((code t c f n).1.task x.1).queue = q) (hm : x.1 ∈ (l.record q t c f n).entered) :
    (l.record q t c f n).entered.getLast? = some x.1 := by
  rcases h.progress_exec q hx with hold | ⟨hold, he⟩ | ⟨kk, hkk, hf⟩ | ⟨hz, -⟩
  · have hold' := (mem_progress f others).mpr (Or.inr hold)
    rw [hl.queue_of_progress h hg hold' hpos.ne'] at hq
    rcases f.joins_cases q t c n with
      he | ⟨p, ii, isPrivate, a, call, kk, was, r, hf, hu, ho, hp, he⟩
    · rw [QueueLog.record, he, List.append_nil] at hm ⊢
      exact hl.going x hold' hpos hq hm
    · obtain ⟨g, hgm, hxg⟩ := mem_gather.mp hold
      have hne : x.1 ≠ p := hl.ne_of_progress (x := (p, kk)) (by
        rw [hf]
        exact List.mem_singleton_self _) hold
      exact absurd (hq.trans hp.symm) (hg.together p ii isPrivate a call kk was r hf hu (hp ▸ ho) g
        (Multiset.mem_cons_of_mem hgm) x hxg hpos hne)
  · have hold' := (mem_progress f others).mpr (Or.inl hold)
    rw [hl.queue_of_progress h hg hold' hpos.ne'] at hq
    rw [QueueLog.record, he, List.append_nil] at hm ⊢
    exact hl.going x hold' hpos hq hm
  · have hself : (x.1, kk) ∈ gather Frame.progress (f ::ₘ others) :=
      (mem_progress f others).mpr (Or.inl (hf ▸ List.mem_singleton_self _))
    rcases f.joins_cases q t c n with he | ⟨p, _, _, _, _, kk', _, _, hf', -, -, -, he⟩
    · rw [QueueLog.record, he, List.append_nil] at hm ⊢
      have hne : kk ≠ 0 := fun hz => hl.starting _ hself hz hm
      rw [hl.queue_of_progress h hg hself hne] at hq
      exact hl.going (x.1, kk) hself (Nat.pos_of_ne_zero hne) hq hm
    · rw [hf'] at hf
      cases hf
      rw [QueueLog.record, he, List.getLast?_append_of_ne_nil _ (List.cons_ne_nil _ _)]
      rfl
  · omega

theorem once_exec (hl : Lined q n l (f ::ₘ others)) (h : QueuesAimed n (f ::ₘ others)) :
    ((gather Frame.progress ((code t c f n).2 + others)).map Prod.fst).Nodup := by
  have hnd := hl.once
  rw [gather_cons, Multiset.map_add] at hnd
  have hothers := (Multiset.nodup_add.mp hnd).2.1
  rw [gather_code, Multiset.map_add]
  have ha : ∀ call p kk was, f = .startInstances call p kk was →
      (n.task p).attributes = call.attributes := fun call p kk was hf =>
    h.started f (Multiset.mem_cons_self f others) call p (by
      rw [hf]
      exact List.mem_singleton_self _)
  rcases exec_progress t c f n ha with ⟨he, -⟩ | he | ⟨p, kk, hf, he⟩ | ⟨p, hp, -, he⟩
  · rw [he]
    exact hnd
  · rw [he, Multiset.coe_nil, Multiset.map_zero, zero_add]
    exact hothers
  · rw [hf] at hnd
    rw [he]
    exact hnd
  · rw [he, Multiset.coe_singleton, Multiset.map_singleton, Multiset.singleton_add,
      Multiset.nodup_cons]
    refine ⟨fun hm => ?_, hothers⟩
    obtain ⟨x, hx, hfst⟩ := Multiset.mem_map.mp hm
    have hlive := live_of_progress h ((mem_progress f others).mpr (Or.inr hx))
    rw [hfst] at hlive
    exact Pool.not_live_of_allocate h.sound hp hlive

theorem member_exec (hl : Lined q n l (f ::ₘ others)) (h : QueuesAimed n (f ::ₘ others))
    (hg : TakesTurns t c f n (f ::ₘ others)) {p : Ptr} (hm : p ∈ (l.record q t c f n).entered)
    (hr : p ∈ references (code t c f n).1 ((code t c f n).2 + others)) :
    ((code t c f n).1.task p).queue = q := by
  have hpushed : p ∈ f.joins q t c n →
      f.fresh = [] ∧ n.taskPool.Live p ∧ (n.task p).queue = q := by
    intro hm
    rcases f.joins_cases q t c n with he | ⟨p', _, _, _, _, _, _, _, hf, -, -, hq, he⟩
    · exact absurd (he ▸ hm) List.not_mem_nil
    · rw [he, List.mem_singleton] at hm
      subst hm
      have hself : p ∈ f.refs := by
        rw [hf]
        exact List.mem_singleton_self p
      refine ⟨?_, h.live p (mem_references_of_mem (Multiset.mem_cons_self f others) hself), hq⟩
      rw [hf]
      rfl
  rcases mem_references_exec h.confined hr with hr | ⟨hnew, -⟩
  · have hnf : p ∉ f.fresh := by
      intro hfr
      rcases List.mem_append.mp hm with hm | hm
      · exact hl.starting (p, 0) ((mem_progress f others).mpr
          (Or.inl (Frame.mem_progress_of_mem_fresh hfr))) rfl hm
      · rw [(hpushed hm).1] at hfr
        exact List.not_mem_nil hfr
    rw [h.queue_exec hg hr hnf]
    rcases List.mem_append.mp hm with hm | hm
    · exact hl.member p hm hr
    · exact (hpushed hm).2.2
  · rcases List.mem_append.mp hm with hm | hm
    · exact absurd (hl.entered p hm) (Pool.not_issued_of_allocate h.sound hnew)
    · exact absurd (hpushed hm).2.1 (Pool.not_live_of_allocate h.sound hnew)

end Lined

theorem Holds.cases_add {hand : Hand Ptr} {xs ys : Multiset (Bool × Ptr)}
    (h : Holds hand (xs + ys)) : xs = 0 ∨ ys = 0 := by
  have hcard : (xs + ys).card ≤ 1 := by
    generalize xs + ys = zs at h
    cases h with
    | free => exact Nat.zero_le 1
    | taken p => exact le_refl 1
    | begun p => exact le_refl 1
  rw [Multiset.card_add] at hcard
  rw [← Multiset.card_eq_zero, ← Multiset.card_eq_zero]
  omega

theorem Holds.eq_taken {hand : Hand Ptr} {ys : Multiset (Bool × Ptr)} {p : Ptr}
    (h : Holds hand ({(false, p)} + ys)) : hand = .taken p ∧ ys = 0 := by
  have hys : ys = 0 := h.cases_add.resolve_left (Multiset.singleton_ne_zero _)
  rw [hys, add_zero] at h
  generalize hzs : ({(false, p)} : Multiset (Bool × Ptr)) = zs at h
  cases h with
  | free => exact absurd hzs (Multiset.singleton_ne_zero _)
  | taken p' =>
    cases Multiset.singleton_inj.mp hzs
    exact ⟨rfl, hys⟩
  | begun p' => cases Multiset.singleton_inj.mp hzs

theorem Holds.eq_free {hand : Hand Ptr} (h : Holds hand 0) : hand = .free := by
  generalize hzs : (0 : Multiset (Bool × Ptr)) = zs at h
  cases h with
  | free => rfl
  | taken p => exact absurd hzs.symm (Multiset.singleton_ne_zero _)
  | begun p => exact absurd hzs.symm (Multiset.singleton_ne_zero _)

/-- What a list of hands has of the tasks of a queue. -/
def inQueue (n : Node) (q : Ptr) (xs : List (Bool × Ptr)) : Multiset (Bool × Ptr) :=
  (xs : Multiset (Bool × Ptr)).filter fun x => (n.task x.2).queue = q

theorem inQueue_nil (n : Node) (q : Ptr) : inQueue n q [] = 0 := rfl

theorem inQueue_of_eq {p : Ptr} (h : (n.task p).queue = q) (b : Bool) :
    inQueue n q [(b, p)] = {(b, p)} := by
  rw [inQueue, Multiset.coe_singleton, Multiset.filter_singleton, if_pos h]

theorem inQueue_of_ne {p : Ptr} (h : (n.task p).queue ≠ q) (b : Bool) :
    inQueue n q [(b, p)] = 0 := by
  rw [inQueue, Multiset.coe_singleton, Multiset.filter_singleton, if_neg h]
  rfl

theorem hands_cons : hands n q (f ::ₘ others) = inQueue n q f.hand + hands n q others := by
  rw [hands, gather_cons, Multiset.filter_add]
  rfl

/-- The hands after a step: those of the thread, and the others as before. -/
theorem QueuesAimed.hands_exec (h : QueuesAimed n (f ::ₘ others))
    (hg : TakesTurns t c f n (f ::ₘ others)) :
    hands (code t c f n).1 q ((code t c f n).2 + others) =
      inQueue (code t c f n).1 q ((exec t c f n).2.flatMap Frame.hand) + hands n q others := by
  have hothers : hands (code t c f n).1 q others = hands n q others := by
    refine Multiset.filter_congr fun x hx => ?_
    obtain ⟨g, hgm, hm⟩ := mem_gather.mp hx
    rw [(h.hand_exec hg (Multiset.mem_cons_of_mem hgm) hm).1]
  rw [← hothers, hands, gather_code, Multiset.filter_add]
  rfl

theorem QueuesAimed.inQueue_exec (h : QueuesAimed n (f ::ₘ others))
    (hg : TakesTurns t c f n (f ::ₘ others)) :
    inQueue (code t c f n).1 q f.hand = inQueue n q f.hand :=
  Multiset.filter_congr fun x hx => by
    rw [(h.hand_exec hg (Multiset.mem_cons_self f others) (Multiset.mem_coe.mp hx)).1]

/-- The tasks of a worker queue stay in their queues. -/
theorem QueuesAimed.filter_exec (h : QueuesAimed n (f ::ₘ others))
    (hg : TakesTurns t c f n (f ::ₘ others)) (r : QueueRef) :
    ((n.workerQueue r).tasks.filter fun p => ((code t c f n).1.task p).queue = q) =
      (n.workerQueue r).tasks.filter fun p => (n.task p).queue = q :=
  List.filter_congr fun p hp => by
    obtain ⟨href, hnf⟩ := h.of_queued hp
    rw [h.queue_exec hg href hnf]

/-- The worker queue of an ordered queue, seen through the queue after a step. -/
theorem waiting_exec (hpin : (code t c f n).1.pinned q = n.pinned q) :
    (code t c f n).1.waiting q =
      ((n.access (exec t c f n).1).workerQueue (n.pinned q)).tasks.filter fun p =>
        ((code t c f n).1.task p).queue = q := by
  rw [Node.waiting, hpin]
  rfl

/-- The line of the queue, with the entries of the log. -/
def Node.lineOf (n : Node) (q : Ptr) (l : QueueLog) (hand : Hand Ptr) : Line Ptr :=
  ⟨l.entered, l.begun, n.waiting q, hand⟩

namespace Lined

variable (hl : Lined q n l (f ::ₘ others)) (h : QueuesAimed n (f ::ₘ others))
  (hg : TakesTurns t c f n (f ::ₘ others)) (hold : n.KeepsOrder q)
  (hpin : (code t c f n).1.pinned q = n.pinned q)

include hl h hg hold hpin

/-- A push adds to the line, or puts back. -/
theorem line_push (ho' : (code t c f n).1.KeepsOrder q) {r : QueueRef} {p : Ptr}
    (hu : (exec t c f n).1 = .push r p) :
    ∃ hand, Holds hand (hands (code t c f n).1 q ((code t c f n).2 + others)) ∧
      ((code t c f n).1.lineOf q (l.record q t c f n) hand).InOrder := by
  obtain ⟨hand, hholds, hin⟩ := hl.line hold
  obtain ⟨ii, isPrivate, a, caller, hf, hresume, hok⟩ := exec_push hu
  have hself := Multiset.mem_cons_self f others
  have hrefs : p ∈ references n (f ::ₘ others) := mem_references_of_mem hself (by
    rw [hf]
    exact List.mem_singleton_self p)
  have hnf : p ∉ f.fresh := by
    rw [hf]
    exact List.not_mem_nil
  have hqueue := h.queue_exec hg hrefs hnf
  have htasks := n.tasks_access_push hok (n.pinned q)
  have hnew : (exec t c f n).2.flatMap Frame.hand = [] := by
    rw [hresume]
    exact hand_scheduleResume caller p true
  have hbegins : f.beginsIn q n = [] := by
    rw [hf]
    rfl
  have hwait := waiting_exec hpin
  rw [hu, htasks, List.filter_append, h.filter_exec hg] at hwait
  rw [h.hands_exec hg, hnew, inQueue_nil, zero_add]
  rw [hands_cons] at hholds
  by_cases hpq : (n.task p).queue = q
  · -- the task is pinned to the worker queue
    have hr : r = n.pinned q := by
      have hplaced := h.placed_exec hg (r := r) (p := p) (by
        change p ∈ ((n.access (exec t c f n).1).workerQueue r).tasks
        rw [hu, n.tasks_access_push hok r, if_pos rfl]
        exact List.mem_append_right _ (List.mem_singleton_self p)) (by rwa [hqueue, hpq])
      rwa [hqueue, hpq, hpin] at hplaced
    have hwait' : (code t c f n).1.waiting q = n.waiting q ++ [p] := by
      rw [hwait, if_pos hr.symm, List.filter_singleton, hqueue, hpq]
      simp [Node.waiting]
    cases caller with
    | start call kk was =>
      have hhand : f.hand = [] := by
        rw [hf]
        rfl
      have hjoins : f.joins q t c n = [p] := by
        subst hf
        unfold Frame.joins
        rw [hu]
        exact if_pos ⟨hold, hpq⟩
      have hprogress : (p, kk) ∈ gather Frame.progress (f ::ₘ others) :=
        (mem_progress f others).mpr (Or.inl (by
          rw [hf]
          exact List.mem_singleton_self _))
      have hlast : p ∈ l.entered → l.entered.getLast? = some p := by
        intro hm
        have hne : kk ≠ 0 := fun hz => hl.starting _ hprogress hz hm
        exact hl.going _ hprogress (Nat.pos_of_ne_zero hne) hpq hm
      rw [hhand, inQueue_nil, zero_add] at hholds
      refine ⟨hand, hholds, ?_⟩
      rw [Node.lineOf, QueueLog.record, hjoins, hbegins, List.append_nil, hwait']
      exact hin.step (.enter p hlast)
    | retained =>
      have hhand : f.hand = [(false, p)] := by
        rw [hf]
        rfl
      have hjoins : f.joins q t c n = [] := by
        subst hf
        rfl
      rw [hhand, inQueue_of_eq hpq] at hholds
      obtain ⟨rfl, hothers⟩ := hholds.eq_taken
      rw [hothers]
      refine ⟨.free, .free, ?_⟩
      rw [Node.lineOf, QueueLog.record, hjoins, hbegins, List.append_nil, List.append_nil, hwait']
      refine hin.step (.putBack p rfl fun y hy => ?_)
      obtain ⟨hy, hyq⟩ := List.mem_filter.mp hy
      refine hg.putBack p ii isPrivate a r hf hu (hpq ▸ hold) y (hr ▸ hy) ?_
      rw [hpq]
      exact of_decide_eq_true hyq
  · have hwait' : (code t c f n).1.waiting q = n.waiting q := by
      rw [hwait]
      split
      · rw [List.filter_cons_of_neg (by simpa [hqueue] using hpq), List.filter_nil,
          List.append_nil]
        rfl
      · rw [List.filter_nil, List.append_nil]
        rfl
    have hjoins : f.joins q t c n = [] := by
      rcases f.joins_cases q t c n with he | ⟨p', _, _, _, _, _, _, _, -, hu', -, hq, -⟩
      · exact he
      · cases hu.symm.trans hu'
        exact absurd hq hpq
    have hhand : inQueue n q f.hand = 0 := by
      rw [hf]
      cases caller with
      | start call kk was => rfl
      | retained => exact inQueue_of_ne hpq false
    rw [hhand, zero_add] at hholds
    refine ⟨hand, hholds, ?_⟩
    rw [Node.lineOf, QueueLog.record, hjoins, hbegins, List.append_nil, List.append_nil, hwait']
    exact hin

/-- The task that is taken is the first one of the line. -/
theorem line_pop {r : QueueRef} (hu : (exec t c f n).1 = .pop r)
    (halone : ∀ r left p, f = .workerScan (r :: left) → (n.workerQueue r).pop.2 = some p →
      n.KeepsOrder (n.task p).queue → ∀ g ∈ f ::ₘ others, ∀ x ∈ g.hand,
        (n.task x.2).queue ≠ (n.task p).queue) :
    ∃ hand, Holds hand (hands (code t c f n).1 q ((code t c f n).2 + others)) ∧
      ((code t c f n).1.lineOf q (l.record q t c f n) hand).InOrder := by
  obtain ⟨hand, hholds, hin⟩ := hl.line hold
  obtain ⟨left, p, hf, hp, hnew⟩ := exec_pop hu
  have hin' : p ∈ (n.workerQueue r).tasks := by
    rw [TaskQueue.tasks_of_pop_some hp]
    exact List.mem_cons_self
  obtain ⟨href, hnf⟩ := h.of_queued hin'
  have hqueue := h.queue_exec hg href hnf
  have hjoins : f.joins q t c n = [] := by
    rcases f.joins_cases q t c n with he | ⟨p', _, _, _, _, _, _, _, -, hu', -⟩
    · exact he
    · cases hu.symm.trans hu'
  have hbegins : f.beginsIn q n = [] := by
    rcases hf with rfl | rfl <;> rfl
  have hhand : f.hand = [] := by
    rcases hf with rfl | rfl <;> rfl
  have hwait := waiting_exec hpin
  have hfilter : ((n.workerQueue (n.pinned q)).tasks.filter fun p =>
      ((code t c f n).1.task p).queue = q) = n.waiting q := h.filter_exec hg (n.pinned q)
  rw [n.tasks_access_pop hp (n.pinned q), List.filter_append, ← hu, ← hwait] at hfilter
  rw [h.hands_exec hg, hnew]
  rw [hands_cons, hhand, inQueue_nil, zero_add] at hholds
  have hlog : l.record q t c f n = l := by
    rw [QueueLog.record, hjoins, hbegins, List.append_nil, List.append_nil]
  rw [hlog]
  by_cases hpq : (n.task p).queue = q
  · -- nothing else is in a hand
    have hr : n.pinned q = r := by
      rw [h.placed r p hin' (hpq ▸ hold), hpq]
    have hothers : hands n q others = 0 := by
      refine Multiset.filter_eq_nil.mpr fun x hx hxq => ?_
      obtain ⟨g, hgm, hm⟩ := mem_gather.mp hx
      have hgm := Multiset.mem_cons_of_mem (b := f) hgm
      rcases hf with hf | hf
      · exact halone r left p hf hp (hpq ▸ hold) g hgm x hm (hxq.trans hpq.symm)
      · exact hg.helped r left p hf hp hu (hpq ▸ hold) g hgm x hm (hxq.trans hpq.symm)
    rw [hothers] at hholds ⊢
    rw [if_pos hr, List.filter_cons_of_pos (by simp [hqueue, hpq]), List.filter_nil] at hfilter
    rw [inQueue_of_eq (hqueue.trans hpq), add_zero]
    refine ⟨.taken p, .taken p, ?_⟩
    exact hin.step (.take p _ hholds.eq_free hfilter.symm)
  · have hwait' : (code t c f n).1.waiting q = n.waiting q := by
      refine Eq.trans ?_ hfilter
      split
      · rw [List.filter_cons_of_neg (by simpa [hqueue] using hpq), List.filter_nil,
          List.nil_append]
      · rw [List.filter_nil, List.nil_append]
    rw [inQueue_of_ne (by rwa [hqueue]), zero_add]
    refine ⟨hand, hholds, ?_⟩
    rw [Node.lineOf, hwait']
    exact hin

/-- Where no worker queue changes, the task in the hand may begin or be over. -/
theorem line_stay (hpush : ∀ r p, (exec t c f n).1 ≠ .push r p)
    (hpop : ∀ r, (exec t c f n).1 ≠ .pop r) :
    ∃ hand, Holds hand (hands (code t c f n).1 q ((code t c f n).2 + others)) ∧
      ((code t c f n).1.lineOf q (l.record q t c f n) hand).InOrder := by
  obtain ⟨hand, hholds, hin⟩ := hl.line hold
  have hjoins : f.joins q t c n = [] := by
    rcases f.joins_cases q t c n with he | ⟨p', _, _, _, _, _, _, r, -, hu', -⟩
    · exact he
    · exact absurd hu' (hpush r p')
  have hwait' : (code t c f n).1.waiting q = n.waiting q := by
    rw [waiting_exec hpin, n.tasks_access_of_stays hpush hpop, h.filter_exec hg]
    rfl
  rw [h.hands_exec hg]
  rw [hands_cons] at hholds
  rcases f.beginsIn_cases q n with hbegins | ⟨ctx, rfl, -, hq, hbegins⟩
  · have hlog : l.record q t c f n = l := by
      rw [QueueLog.record, hjoins, hbegins, List.append_nil, List.append_nil]
    simp only [Node.lineOf, hlog, hwait']
    rcases exec_hand t c f n with he | he | ⟨r, left, p, -, -, hu, -⟩ | ⟨ctx, rfl, he⟩
    · rw [he, h.inQueue_exec hg]
      exact ⟨hand, hholds, hin⟩
    · rw [he, inQueue_nil, zero_add]
      rcases hholds.cases_add with hz | hz
      · rw [hz, zero_add] at hholds
        exact ⟨hand, hholds, hin⟩
      · rw [hz]
        exact ⟨.free, .free, hin.step .finish⟩
    · exact absurd hu (hpop r)
    · have hne : (n.task ctx.task).queue ≠ q := by
        intro hq
        rw [Frame.beginsIn, if_pos ⟨hold, hq⟩] at hbegins
        cases hbegins
      have hsame := h.inQueue_exec hg (q := q)
      have hmem : (false, ctx.task) ∈ (Frame.executeRunning ctx).hand := List.mem_singleton_self _
      have hqueue := (h.hand_exec hg (Multiset.mem_cons_self _ others) hmem).1
      have hzero : inQueue n q (Frame.executeRunning ctx).hand = 0 := inQueue_of_ne hne false
      rw [he, inQueue_of_ne (by rwa [hqueue]), zero_add]
      rw [hzero, zero_add] at hholds
      exact ⟨hand, hholds, hin⟩
  · have hmem : (false, ctx.task) ∈ (Frame.executeRunning ctx).hand := List.mem_singleton_self _
    have hqueue := (h.hand_exec hg (Multiset.mem_cons_self _ others) hmem).1
    have hfirst : inQueue n q (Frame.executeRunning ctx).hand = {(false, ctx.task)} :=
      inQueue_of_eq hq false
    have hthen : (exec t c (.executeRunning ctx) n).2.flatMap Frame.hand = [(true, ctx.task)] := rfl
    rw [hfirst] at hholds
    obtain ⟨rfl, hothers⟩ := hholds.eq_taken
    rw [hthen, inQueue_of_eq (hqueue.trans hq), hothers, add_zero]
    refine ⟨.begun ctx.task, .begun ctx.task, ?_⟩
    rw [Node.lineOf, QueueLog.record, hjoins, hbegins, List.append_nil, hwait']
    exact hin.step (.begin ctx.task rfl)

end Lined

/-- A queue that has just been created has no tasks. -/
theorem QueuesAimed.created (h : QueuesAimed n (f ::ₘ others)) (hnew : ¬ n.queuePool.Issued q)
    (p : Ptr) : ((code t c f n).1.task p).queue ≠ q := by
  intro he
  rcases n.taskQueueField_access (exec t c f n).1 p.id with hq | hq | ⟨p', -, hu⟩
  · exact hnew (he ▸ (hq.symm ▸ h.queueIssued p.id : n.queuePool.Issued _))
  · exact hnew (Or.inl (he ▸ hq))
  · obtain ⟨call, -, hcall, hiss⟩ := h.taskQueue_issued hu
    exact hnew (he ▸ hiss)

theorem Lined.step (hl : Lined q n l (f ::ₘ others)) (h : QueuesAimed n (f ::ₘ others))
    (hg : TakesTurns t c f n (f ::ₘ others))
    (halone : ∀ r left p, f = .workerScan (r :: left) → (n.workerQueue r).pop.2 = some p →
      n.KeepsOrder (n.task p).queue → ∀ g ∈ f ::ₘ others, ∀ x ∈ g.hand,
        (n.task x.2).queue ≠ (n.task p).queue) :
    Lined q (code t c f n).1 (l.record q t c f n) ((code t c f n).2 + others) where
  line ho' := by
    by_cases hold : n.KeepsOrder q
    · have hpin := (h.keepsOrder_exec (Or.inr (Or.inr hold.1.1)) ho').2
      by_cases hpush : ∃ r p, (exec t c f n).1 = .push r p
      · obtain ⟨r, p, hu⟩ := hpush
        exact hl.line_push h hg hold hpin ho' hu
      · by_cases hpop : ∃ r, (exec t c f n).1 = .pop r
        · obtain ⟨r, hu⟩ := hpop
          exact hl.line_pop h hg hold hpin hu halone
        · exact hl.line_stay h hg hold hpin (fun r p hu => hpush ⟨r, p, hu⟩)
            fun r hu => hpop ⟨r, hu⟩
    · rcases Node.queueExists_access h.toQueuesOwned ho'.1 with ⟨he, -, hattr, -⟩ | ⟨hx, -⟩
      · exact absurd ⟨he, hattr ▸ ho'.2⟩ hold
      · have hnew := Pool.not_issued_of_allocate h.queueSound hx
        obtain ⟨he, hb⟩ := hl.unborn hnew
        have hjoins : f.joins q t c n = [] := by
          rcases f.joins_cases q t c n with he | ⟨_, _, _, _, _, _, _, _, -, -, ho, -⟩
          · exact he
          · exact absurd ho hold
        have hbegins : f.beginsIn q n = [] := by
          rcases f.beginsIn_cases q n with hb | ⟨_, -, ho, -⟩
          · exact hb
          · exact absurd ho hold
        have hhands : hands (code t c f n).1 q ((code t c f n).2 + others) = 0 :=
          Multiset.filter_eq_nil.mpr fun x _ => h.created hnew x.2
        have hwait : (code t c f n).1.waiting q = [] :=
          List.filter_eq_nil_iff.mpr fun p _ => by simpa using h.created hnew p
        refine ⟨.free, hhands ▸ .free, ?_⟩
        rw [QueueLog.record, hjoins, hbegins, he, hb, hwait]
        exact Line.inOrder_start
  unborn := hl.unborn_exec h hg
  entered := hl.entered_exec h hg
  member _ := hl.member_exec h hg
  starting _ := hl.starting_exec h
  going _ := hl.going_exec h hg
  once := hl.once_exec h

end Lines

/-- What the states of a run keep. -/
structure KeptInOrder (q : Ptr) (m : Node × QueueLog) (callStacks : List (List Frame)) : Prop where
  aimed : QueuesAimed m.1 (callStacks.flatten : List Frame)
  seated : Seated m.1 callStacks
  lined : Lined q m.1 m.2 (callStacks.flatten : List Frame)

theorem keptInOrder_preserved (q : Ptr) :
    PreservesStacks (queueLogged q) (fun t c f m fs => TakesTurns t c f m.1 fs)
      (KeptInOrder q) := by
  intro t c f rest m callStacks hst h hg
  obtain ⟨others, hflat, hflat', -⟩ := frames_set hst (code t c f m.1).2
  have haimed := h.aimed
  have hlined := h.lined
  have hseated := h.seated.exec hst haimed hg
  have halone : ∀ r left p, f = .workerScan (r :: left) → (m.1.workerQueue r).pop.2 = some p →
      m.1.KeepsOrder (m.1.task p).queue → ∀ g ∈ (callStacks.flatten : Multiset Frame),
        ∀ x ∈ g.hand, (m.1.task x.2).queue ≠ (m.1.task p).queue :=
    fun r left p hf hp ho => h.seated.alone hst haimed hf hp ho
  rw [hflat] at haimed hlined hg halone
  refine ⟨?_, hseated, ?_⟩
  · change QueuesAimed (code t c f m.1).1 _
    rw [queueLogged, logged, hflat']
    exact queuesAimed_preserved t c f m.1 others haimed hg
  · rw [queueLogged, logged, hflat']
    exact hlined.step haimed hg halone

/-- A node with an empty log. -/
def bootOrdered (attributes : NodeAttributes) (mode : SchedulerMode) (clients : Nat) :
    State (Node × QueueLog) Frame :=
  ⟨((boot attributes mode clients).mem, ⟨[], []⟩), (boot attributes mode clients).callStacks⟩

theorem queuesAimed_boot (attributes : NodeAttributes) (mode : SchedulerMode) (clients : Nat) :
    QueuesAimed (boot attributes mode clients).mem (boot attributes mode clients).frames where
  toWorkCounted := workCounted_boot _ attributes mode clients
  queueSound := Pool.sound_init _ _
  queueFree _ _ := rfl
  queueIssued _ := Or.inl rfl
  configured _ hq := absurd rfl hq.1.2
  member _ hq := absurd rfl hq.2
  priority _ _ hq := absurd rfl hq.2
  calls f hf call hc := by
    rcases mem_frames_boot hf with rfl | rfl <;> exact absurd hc List.not_mem_nil
  aimed f hf := by
    rcases mem_frames_boot hf with rfl | rfl <;> trivial
  placed _ _ _ hq := absurd rfl hq.1.2

theorem seated_boot (attributes : NodeAttributes) (mode : SchedulerMode) (clients : Nat) :
    Seated (boot attributes mode clients).mem (boot attributes mode clients).callStacks := by
  have hstack : ∀ (i : Nat) (stack : List Frame),
      (boot attributes mode clients).callStacks[i]? = some stack →
        (stack = [.worker] ∧ i < attributes.numCores) ∨ stack = [.client] := by
    intro i stack hi
    simp only [boot, List.getElem?_append, List.length_replicate, List.getElem?_replicate] at hi
    split at hi
    · next hlt => exact Or.inl ⟨(Option.some.inj (by simpa [hlt] using hi)).symm, hlt⟩
    · split at hi
      · exact Or.inr (Option.some.inj hi).symm
      · cases hi
  refine ⟨fun i stack hi f hf => ?_, fun i stack hi f hf => ?_⟩
  · rcases hstack i stack hi with ⟨rfl, hlt⟩ | rfl
    · rw [List.mem_singleton.mp hf]
      exact ⟨fun _ => hlt, fun r hr => absurd hr List.not_mem_nil,
        fun x hx => absurd hx List.not_mem_nil⟩
    · rw [List.mem_singleton.mp hf]
      exact ⟨fun hm => (by cases hm), fun r hr => absurd hr List.not_mem_nil,
        fun x hx => absurd hx List.not_mem_nil⟩
  · rcases hstack i stack hi with ⟨rfl, -⟩ | rfl <;> exact absurd hf List.not_mem_nil

theorem lined_boot (q : Ptr) (attributes : NodeAttributes) (mode : SchedulerMode) (clients : Nat) :
    Lined q (boot attributes mode clients).mem ⟨[], []⟩ (boot attributes mode clients).frames where
  line hq := absurd rfl hq.1.2
  unborn _ := ⟨rfl, rfl⟩
  entered _ hp := absurd hp List.not_mem_nil
  member _ hp := absurd hp List.not_mem_nil
  starting _ _ _ := List.not_mem_nil
  going _ _ _ _ hp := absurd hp List.not_mem_nil
  once := by
    have hzero : gather Frame.progress (boot attributes mode clients).frames = 0 := by
      refine Multiset.eq_zero_of_forall_notMem fun x hx => ?_
      obtain ⟨f, hf, hm⟩ := mem_gather.mp hx
      rcases mem_frames_boot hf with rfl | rfl <;> exact absurd hm List.not_mem_nil
    rw [hzero]
    exact Multiset.nodup_zero

theorem Holds.of_mem {hand : Hand Ptr} {xs : Multiset (Bool × Ptr)} {p : Ptr}
    (h : Holds hand xs) (hp : (false, p) ∈ xs) : hand = .taken p ∧ xs = {(false, p)} := by
  obtain ⟨ys, rfl⟩ := Multiset.exists_cons_of_mem hp
  rw [← Multiset.singleton_add] at h ⊢
  obtain ⟨hhand, rfl⟩ := h.eq_taken
  exact ⟨hhand, add_zero _⟩

/-- A task of the queue that is not over waits, is in a hand, or is still pushed. -/
theorem KeptInOrder.of_work {q : Ptr} {m : Node × QueueLog} {callStacks : List (List Frame)}
    (h : KeptInOrder q m callStacks) {p : Ptr} (hp : p ∈ m.2.entered) {stage : Stage}
    (hw : (stage, p) ∈ work m.1 (callStacks.flatten : List Frame)) (hs : stage ≠ .notifying)
    (ho : m.1.KeepsOrder q) :
    p ∈ m.1.waiting q ∨ (∃ b, (b, p) ∈ hands m.1 q (callStacks.flatten : List Frame)) ∨
      m.2.entered.getLast? = some p := by
  rcases Multiset.mem_add.mp hw with hw | hw
  · obtain ⟨p', hp', he⟩ := Multiset.mem_map.mp hw
    cases he
    have hq := h.lined.member p hp (Multiset.mem_add.mpr (Or.inl hp'))
    obtain ⟨r, -, hr⟩ := Multiset.mem_sum.mp hp'
    have hplaced := h.aimed.placed r p hr (hq ▸ ho)
    rw [hq] at hplaced
    exact Or.inl (List.mem_filter.mpr ⟨hplaced ▸ hr, decide_eq_true hq⟩)
  · obtain ⟨g, hg, hm⟩ := Multiset.mem_bind.mp hw
    rcases Frame.hand_or_progress_of_work hm hs with ⟨b, hb⟩ | ⟨kk, hk⟩
    · have hq := h.lined.member p hp (mem_references_of_mem hg (Frame.mem_refs_of_mem_hand hb).1)
      exact Or.inr (Or.inl ⟨b, Multiset.mem_filter.mpr ⟨mem_gather.mpr ⟨g, hg, hb⟩, hq⟩⟩)
    · have hq := h.lined.member p hp (mem_references_of_mem hg (Frame.mem_refs_of_mem_progress hk))
      have hprogress : (p, kk) ∈ gather Frame.progress (callStacks.flatten : List Frame) :=
        mem_gather.mpr ⟨g, hg, hk⟩
      have hne : kk ≠ 0 := fun hz => h.lined.starting _ hprogress hz hp
      exact Or.inr (Or.inr (h.lined.going _ hprogress (Nat.pos_of_ne_zero hne) hq hp))

/-- In every run that keeps to the guard, the tasks of an ordered queue begin in the order in
which they were pushed, and when one of them begins, those that were pushed before it are over. -/
theorem ordered_queue_in_turn (attributes : NodeAttributes) (mode : SchedulerMode) (clients : Nat)
    (es : List (Nat × Choice)) (q : Ptr)
    (hg : Always (queueLogged q) (fun t c f m fs => TakesTurns t c f m.1 fs)
      (bootOrdered attributes mode clients) es) :
    let s := run (queueLogged q) (bootOrdered attributes mode clients) es
    s.mem.1.KeepsOrder q →
      s.mem.2.begun.Sublist s.mem.2.entered ∧
        ∀ t ctx, s.top t = some (.executeRunning ctx) → (s.mem.1.task ctx.task).queue = q →
          ∃ before after, s.mem.2.entered = before ++ ctx.task :: after ∧
            ∀ p ∈ before, p ≠ ctx.task →
              ∀ stage, (stage, p) ∈ work s.mem.1 s.frames → stage = .notifying := by
  intro s ho
  have hinv : KeptInOrder q s.mem s.callStacks :=
    (keptInOrder_preserved q).run hg ⟨queuesAimed_boot attributes mode clients,
      seated_boot attributes mode clients, lined_boot q attributes mode clients⟩
  obtain ⟨hand, hholds, hin⟩ := hinv.lined.line ho
  refine ⟨hin.begun_sublist, fun t ctx htop hq => ?_⟩
  have hmem : (false, ctx.task) ∈ hands s.mem.1 q s.frames :=
    Multiset.mem_filter.mpr ⟨mem_gather.mpr
      ⟨_, State.mem_frames_of_top htop, List.mem_singleton_self _⟩, hq⟩
  obtain ⟨hhand, hhands⟩ := hholds.of_mem hmem
  obtain ⟨before, he, hbefore⟩ := hin.of_taken hhand
  refine ⟨before, _, he, fun p hp hne stage hw => ?_⟩
  by_contra hstage
  have he' : s.mem.2.entered = before ++ ctx.task :: s.mem.1.waiting q := he
  have hentered : p ∈ s.mem.2.entered := by
    rw [he']
    exact List.mem_append_left _ hp
  rcases hinv.of_work hentered hw hstage ho with hwait | ⟨b, hb⟩ | hlast
  · exact hbefore p hp hne hwait
  · have hb' : (b, p) ∈ ({(false, ctx.task)} : Multiset (Bool × Ptr)) := hhands ▸ hb
    exact hne (Prod.mk.inj (Multiset.mem_singleton.mp hb')).2
  · rw [he', List.getLast?_append_of_ne_nil _ (List.cons_ne_nil _ _)] at hlast
    rcases List.mem_cons.mp (List.mem_of_getLast? hlast) with heq | hwait
    · exact hne heq
    · exact hbefore p hp hne hwait

/-- A test that is enough for the guard where no task has several instances: nothing is deleted,
helped or put back. -/
def turnsTest (f : Frame) (n : Node) : Bool :=
  match f with
  | .taskDelete .. | .taskDeallocate .. | .queueDeallocate .. | .helperScan _
  | .schedulePush _ _ _ _ .retained => false
  | .enqueueEnabled q _ _ => decide (n.queuePool.Live q)
  | _ => true

theorem takesTurns_of_test (t : Nat) (c : Choice) (f : Frame) (m : Node × QueueLog)
    (fs : Multiset Frame)
    (h : turnsTest f m.1 = true ∧ ∀ f' ∈ fs, ∀ x ∈ f'.progress, x.2 = 0) :
    TakesTurns t c f m.1 fs where
  deletes := by
    rintro p caller (rfl | rfl) <;> exact absurd h.1 Bool.false_ne_true
  wraps := by
    rintro q status rfl
    exact absurd h.1 Bool.false_ne_true
  taskWraps := by
    rintro p caller rfl
    exact absurd h.1 Bool.false_ne_true
  enqueues := by
    rintro q attributes group rfl
    exact Or.inr (Or.inr (of_decide_eq_true h.1))
  helped := by
    rintro r rest p rfl
    exact absurd h.1 Bool.false_ne_true
  putBack := by
    rintro p ii isPrivate a r rfl
    exact absurd h.1 Bool.false_ne_true
  together := by
    intro p ii isPrivate a call kk was r _ _ _ f' hf' x hx hpos
    exact absurd (h.2 f' hf' x hx) hpos.ne'

/-- Two tasks of an ordered queue. -/
def enqueueOrdered : List (Nat × Choice) :=
  calls 1 (.actionCreate 1 none) 4 ++ calls 1 (.queueCreate 0 ⟨0, 1⟩ (some ⟨0, true, false⟩)) 3 ++
    calls 1 (.taskEnqueue ⟨0, 1⟩ none Handle.invalid) 20 ++
    calls 1 (.taskEnqueue ⟨0, 1⟩ none Handle.invalid) 20

/-- The first one is executed, and the second one is about to begin. -/
def executeInTurn : List (Nat × Choice) := enqueueOrdered ++ goes 0 9 ++ [(0, .leave)] ++ goes 0 12

/-- What a worker is about to begin. -/
def Frame.beginning : Frame → Option Ptr
  | .executeRunning ctx => some ctx.task
  | _ => none

theorem ordered_queue_in_turn_two :
    let s := run (queueLogged ⟨0, 1⟩) (bootOrdered (smallNode 1) .workStealVhpf 1) executeInTurn
    s.mem.2.entered = [⟨0, 1⟩, ⟨0, 2⟩] ∧ (s.top 0).bind Frame.beginning = some ⟨0, 2⟩ ∧
      s.mem.2.begun.Sublist s.mem.2.entered := by
  refine ⟨by decide +kernel, by decide +kernel, ?_⟩
  refine (ordered_queue_in_turn (smallNode 1) .workStealVhpf 1 executeInTurn ⟨0, 1⟩ ?_ ?_).1
  · refine Always.mono takesTurns_of_test ?_
    decide +kernel
  · decide +kernel

/-- The first one waits for the second one in its action function. -/
def waitOutOfTurn : List (Nat × Choice) :=
  enqueueOrdered ++ goes 0 9 ++ calls 0 (.taskWait ⟨0, 2⟩ false) 6

/-- The worker takes the second task while it executes the first one. -/
theorem ordered_queue_overtaken :
    let s := run (queueLogged ⟨0, 1⟩) (bootOrdered (smallNode 1) .workStealVhpf 1) waitOutOfTurn
    s.mem.1.KeepsOrder ⟨0, 1⟩ ∧ s.mem.2.entered = [⟨0, 1⟩, ⟨0, 2⟩] ∧
      (s.top 0).bind Frame.beginning = some ⟨0, 2⟩ ∧
      (Stage.waiting, (⟨0, 1⟩ : Ptr)) ∈ work s.mem.1 s.frames := by
  refine ⟨by decide +kernel, by decide +kernel, by decide +kernel, ?_⟩
  decide +kernel

end Embb.Mtapi
