import Embb.Mtapi.Scheduler.Callback
import Embb.MtapiNetwork.Framing

/-!
# Replies of a receiving node

The receive loop starts a task for every frame that asks for one, and the completion function
of the task sends the reply. The loop looks at the status of neither `mtapi_job_get` nor
`mtapi_task_start`, and only the main loop of a worker calls completion functions.
-/

namespace Embb.MtapiNetwork

open Embb.Mtapi Threads

/-- `mtapi_job_get` at an initialized node. -/
def jobGet (n : Node) (job_id : Nat) : Handle :=
  if n.jobIsIdValid job_id then (n.jobList job_id).handle else Handle.invalid

/-- The frame of a task that is to be started, and the connection that it has come in on. -/
structure Request where
  message : StartMessage
  socket : Nat
  deriving DecidableEq

/-- The frame of a result, and the connection that it goes out on. -/
structure Reply where
  remote_task_id : BitVec 32
  remote_task_tag : BitVec 32
  task_status : BitVec 32
  socket : Nat
  deriving DecidableEq

/-- The node, the `network_task` structures that have been allocated, and the replies that have
been sent, each with the index of its structure. -/
structure ReceivingNode where
  node : Node
  network_tasks : List Request
  sent : List (Nat × Reply)

/-- The number of `embb_mtapi_network_task_complete` among the completion functions. -/
def taskComplete : Nat := 0

/-- The attributes that the receive loop sets; the user data is the index of the structure. -/
def taskAttributes (n : Node) (priority : BitVec 32) (user_data : Nat) : TaskAttributes :=
  { TaskAttributes.init n.attributes.numCores with
    userData := user_data
    isDetached := true
    priority := priority.toNat
    completeFunc := some taskComplete }

/-- The structure of a task that a peer has started. -/
def networkTask (attributes : TaskAttributes) : Option Nat :=
  if attributes.completeFunc = some taskComplete then some attributes.userData else none

/-- The completion functions of the application are other ones. -/
def ofApplication (attributes : TaskAttributes) : TaskAttributes :=
  { attributes with completeFunc := attributes.completeFunc.map (· + 1) }

/-- A call of the application. -/
def applicationCall : Call → Call
  | .taskStart job attributes group => .taskStart job (attributes.map ofApplication) group
  | .taskEnqueue queue attributes group => .taskEnqueue queue (attributes.map ofApplication) group
  | call => call

/-- A frame is read, or the node takes a step. -/
inductive Input where
  | receive (request : Request)
  | node (c : Choice)

/-- The branch for `EMBB_MTAPI_NETWORK_START_TASK`, once the frame is read. -/
def startTaskCall (m : ReceivingNode) (request : Request) : Call :=
  .taskStart (jobGet m.node request.message.job_id.toNat)
    (some (taskAttributes m.node request.message.priority m.network_tasks.length))
    Handle.invalid

/-- The thread is in no call of the library. -/
def isClient : Frame → Bool
  | .client => true
  | _ => false

/-- What an event is for the node; the receive loop reads a frame when no call is going on. -/
def Input.choice (net t : Nat) (f : Frame) (m : ReceivingNode) : Input → Choice
  | .receive request => if t = net ∧ isClient f then .call (startTaskCall m request) else .go
  | .node (.call call) => .call (applicationCall call)
  | .node c => c

/-- The structure that an event allocates. -/
def Input.allocates (net t : Nat) (f : Frame) : Input → List Request
  | .receive request => if t = net ∧ isClient f then [request] else []
  | .node _ => []

/-- `embb_mtapi_network_task_complete` as one step. -/
def replies (m : ReceivingNode) : Frame → List (Nat × Reply)
  | .workerCallback p =>
    match networkTask (m.node.task p).attributes with
    | some k =>
      match m.network_tasks[k]? with
      | some request =>
        let task := (m.node.task p).handle
        if m.node.taskPool.isHandleValid task ∧
            m.node.actionPool.isHandleValid (m.node.task task).action then
          [(k, ⟨request.message.remote_task_id, request.message.remote_task_tag,
            statusCode (m.node.task task).errorCode, request.socket⟩)]
        else []
      | none => []
    | none => []
  | _ => []

/-- The program of all threads of a node with the plugin, whose receive loop runs on the thread
`net`. -/
def pluginCode (net : Nat) : Code ReceivingNode Frame Input := fun t e f m =>
  (⟨(code t (e.choice net t f m) f m.node).1, m.network_tasks ++ e.allocates net t f,
    m.sent ++ replies m f⟩, (code t (e.choice net t f m) f m.node).2)

theorem networkTask_ofApplication (attributes : TaskAttributes) :
    networkTask (ofApplication attributes) = none := by
  unfold networkTask ofApplication
  refine if_neg ?_
  cases attributes.completeFunc with
  | none => exact fun h => by cases h
  | some func => exact fun h => Nat.succ_ne_zero func (Option.some.inj h)

theorem networkTask_taskAttributes (n : Node) (priority : BitVec 32) (k : Nat) :
    networkTask (taskAttributes n priority k) = some k := if_pos rfl

/-- A start call before it has found an action. -/
def startCalls : Frame → List StartCall
  | .startAllocate call | .startInit call _ | .startGroup call _ | .startGroupCount call _
  | .startQueue call _ | .startQueueCount call _ | .startChoose call _ _ _
  | .startChooseLoad call _ _ _ _ _ | .startAction call _ _ => [call]
  | _ => []

/-- The attributes that a call to enqueue a task has been given. -/
def enqueuing : Frame → List TaskAttributes
  | .enqueue _ attributes _ | .enqueueEnabled _ attributes _ => attributes.toList
  | _ => []

theorem startCalls_deleteResume (caller : DeleteCaller) : startCalls caller.resume = [] := by
  cases caller <;> rfl

theorem startCalls_visitorResume (v : Visitor) (n : Node) (finite : Bool) :
    startCalls (v.resume n finite) = [] := by
  apply apply_visitorResume <;> intros <;> rfl

theorem startCalls_contextResume (ctx : Context) (done : Bool) :
    (ctx.resume done).flatMap startCalls = [] :=
  flatMap_contextResume (fun _ _ => rfl) (fun _ => rfl) ctx done

theorem startCalls_scheduleResume (caller : ScheduleCaller) (p : Ptr) (pushed : Bool) :
    (caller.resume p pushed).flatMap startCalls = [] :=
  flatMap_scheduleResume (fun _ _ _ _ => rfl) (fun _ => rfl) caller p pushed

theorem startCalls_executeTaskOrYield (n : Node) (t : Nat) {back : Frame}
    (h : startCalls back = []) : (n.executeTaskOrYield t back).flatMap startCalls = [] := by
  rw [flatMap_executeTaskOrYield fun _ => rfl, h]

/-- A start call goes on, finds no slot, comes to its action, or begins. -/
theorem exec_startCalls (t : Nat) (c : Choice) (f : Frame) (n : Node) :
    ((exec t c f n).2.flatMap startCalls = startCalls f ∧ ∀ call p i, f ≠ .startAction call p i) ∨
      (∃ call, f = .startAllocate call ∧ (exec t c f n).2.flatMap startCalls = [] ∧
        ¬ (n.jobIsHandleValid call.job = true ∧ n.taskPool.allocate.2 ≠ none)) ∨
      (∃ call p i, f = .startAction call p i ∧ (exec t c f n).2.flatMap startCalls = []) ∨
      (∃ x, c = .call x ∧ startCalls f = [] ∧
        (exec t c f n).2.flatMap startCalls = startCalls (n.entry x)) ∨
      ∃ q attributes group, f = .enqueueEnabled q attributes group ∧
        (exec t c f n).2.flatMap startCalls = [⟨(n.queue q).jobHandle,
          { attributes.getD (TaskAttributes.init n.attributes.numCores) with
            priority := (n.queue q).attributes.priority }, group, q⟩] := by
  fun_cases exec t c f n
  all_goals first
    | exact Or.inl ⟨rfl, fun _ _ _ h => (by cases h)⟩
    | exact Or.inl ⟨startCalls_contextResume _ _, fun _ _ _ h => (by cases h)⟩
    | exact Or.inl ⟨startCalls_scheduleResume _ _ _, fun _ _ _ h => (by cases h)⟩
    | exact Or.inl ⟨startCalls_executeTaskOrYield _ _ rfl, fun _ _ _ h => (by cases h)⟩
    | exact Or.inr (Or.inr (Or.inl ⟨_, _, _, rfl, rfl⟩))
    | exact Or.inr (Or.inr (Or.inr (Or.inl ⟨_, rfl, rfl, List.append_nil _⟩)))
    | exact Or.inr (Or.inr (Or.inr (Or.inr ⟨_, _, _, rfl, rfl⟩)))
    | rename_i hnone
      exact Or.inr (Or.inl ⟨_, rfl, rfl, fun h => h.2 hnone⟩)
    | rename_i hjob
      exact Or.inr (Or.inl ⟨_, rfl, rfl, fun h => hjob h.1⟩)
    | refine Or.inl ⟨?_, fun _ _ _ h => (by cases h)⟩
      rw [List.flatMap_cons, startCalls_deleteResume]
      rfl
    | refine Or.inl ⟨?_, fun _ _ _ h => (by cases h)⟩
      rw [List.flatMap_cons, startCalls_visitorResume]
      rfl

theorem enqueuing_entry (n : Node) (x : Call) :
    enqueuing (n.entry x) = [] ∨ ∃ q attributes group,
      x = .taskEnqueue q (some attributes) group ∧ enqueuing (n.entry x) = [attributes] := by
  cases x with
  | taskEnqueue q attributes group =>
    cases attributes with
    | none => exact Or.inl rfl
    | some attributes => exact Or.inr ⟨q, attributes, group, rfl, rfl⟩
  | _ => exact Or.inl rfl

theorem enqueuing_deleteResume (caller : DeleteCaller) : enqueuing caller.resume = [] := by
  cases caller <;> rfl

theorem enqueuing_visitorResume (v : Visitor) (n : Node) (finite : Bool) :
    enqueuing (v.resume n finite) = [] := by
  apply apply_visitorResume <;> intros <;> rfl

/-- A call to enqueue a task keeps the attributes that it was given. -/
theorem exec_enqueuing (t : Nat) (c : Choice) (f : Frame) (n : Node) :
    (exec t c f n).2.flatMap enqueuing = enqueuing f ∨ (exec t c f n).2.flatMap enqueuing = [] ∨
      ∃ x, c = .call x ∧ (exec t c f n).2.flatMap enqueuing = enqueuing (n.entry x) := by
  fun_cases exec t c f n
  all_goals first
    | exact Or.inl rfl
    | exact Or.inr (Or.inl rfl)
    | exact Or.inr (Or.inl (flatMap_contextResume (fun _ _ => rfl) (fun _ => rfl) _ _))
    | exact Or.inr (Or.inl (flatMap_scheduleResume (fun _ _ _ _ => rfl) (fun _ => rfl) _ _ _))
    | exact Or.inr (Or.inl (flatMap_executeTaskOrYield (fun _ => rfl) _ _ _))
    | exact Or.inr (Or.inr ⟨_, rfl, List.append_nil _⟩)
    | exact Or.inl (List.append_nil _)
    | rw [List.flatMap_cons, enqueuing_deleteResume]
      exact Or.inr (Or.inl rfl)
    | rw [List.flatMap_cons, enqueuing_visitorResume]
      exact Or.inr (Or.inl rfl)

/-- The start calls of a peer's task. -/
def starts (k : Nat) (fs : Multiset Frame) : Nat :=
  (gather startCalls fs).countP fun call => networkTask call.attributes = some k

/-- The completion calls that are to come for a peer's task. -/
def owes (n : Node) (k : Nat) (fs : Multiset Frame) : Nat :=
  (owing n fs).countP fun p => networkTask (n.task p).attributes = some k

/-- The task of a peer is started, or waits for its completion call. -/
def InProgress (n : Node) (k : Nat) (fs : Multiset Frame) : Prop := 0 < starts k fs + owes n k fs

instance (n : Node) (k : Nat) (fs : Multiset Frame) : Decidable (InProgress n k fs) :=
  inferInstanceAs (Decidable (_ < _))

/-- The steps that do not lose the task of a peer. -/
structure KeepsPeerTasks (t : Nat) (c : Choice) (f : Frame) (n : Node) (fs : Multiset Frame) :
    Prop where
  /-- A task slot is deleted only when nothing refers to it. -/
  deletes : deletesUnreferenced t c f n fs
  /-- The job is valid, and there is a slot for the task. -/
  allocates : ∀ call, f = .startAllocate call → networkTask call.attributes ≠ none →
    n.jobIsHandleValid call.job = true ∧ n.taskPool.allocate.2 ≠ none
  /-- The start call finds an action, and the priority is in range; the action is there when the
  task is pushed and when it is executed, and its worker queue has room. -/
  loses : ∀ p ∈ f.loses n, networkTask (n.task p).attributes = none
  /-- A worker does not find the task retained. -/
  kept : ∀ p lq, f = .workerSwitch p lq → (n.task p).state = .retained →
    networkTask (n.task p).attributes = none
  /-- A thread that waits does not take the task. -/
  helps : ∀ p, f = .helperContext p → networkTask (n.task p).attributes = none
  /-- The action has not been deleted when the completion function is called. -/
  called : ∀ p, f = .workerCallback p → networkTask (n.task p).attributes ≠ none →
    n.taskPool.isHandleValid (n.task p).handle = true ∧
      n.actionPool.isHandleValid (n.task (n.task p).handle).action = true

/-- Every frame is in progress or has one reply. -/
structure Replied (m : ReceivingNode) (fs : Multiset Frame) : Prop
    extends WorkCounted (fun _ _ => False) m.node fs where
  once : ∀ k, starts k fs + owes m.node k fs + (m.sent.map Prod.fst).count k =
    if k < m.network_tasks.length then 1 else 0
  single : ∀ call ∈ gather startCalls fs, networkTask call.attributes ≠ none →
    call.attributes.numInstances = 1
  enqueued : ∀ attributes ∈ gather enqueuing fs, networkTask attributes = none
  helps : ∀ f ∈ fs, ∀ p ∈ f.helps, networkTask (m.node.task p).attributes = none
  answers : ∀ x ∈ m.sent, ∃ request, m.network_tasks[x.1]? = some request ∧
    x.2.remote_task_id = request.message.remote_task_id ∧
      x.2.remote_task_tag = request.message.remote_task_tag ∧ x.2.socket = request.socket

section Preservation

variable {t : Nat} {c : Choice} {f : Frame} {n : Node} {others : Multiset Frame}

/-- The main loop of a worker is through with a task. -/
def calledBack : Frame → List Ptr
  | .workerCallback p => [p]
  | _ => []

/-- Calls end where they are made, unless a thread that waits has taken the task or it is lost. -/
theorem countP_endsCalls {P : Ptr → Prop} [DecidablePred P] (hl : ∀ p ∈ f.loses n, ¬ P p)
    (hh : ∀ p ∈ f.helps, ¬ P p) :
    (f.endsCalls n).countP P = (calledBack f).countP P := by
  have hnone : ∀ {ps : List Ptr}, (∀ p ∈ ps, ¬ P p) → ps.countP P = ([] : List Ptr).countP P :=
    fun hps => List.countP_eq_zero.mpr fun p hp => by simpa using hps p hp
  cases f with
  | executeNumTasks ctx a todo | executeError ctx todo | executeGroup ctx =>
    simp only [Frame.endsCalls, calledBack]
    split
    · rfl
    · exact hnone hh
  | executeGroupPush ctx g => exact hnone hh
  | schedule p ii caller =>
    simp only [Frame.endsCalls, calledBack]
    split
    · rfl
    · rename_i hv
      refine hnone fun p hp => hl p ?_
      simp only [Frame.loses, if_neg hv]
      exact hp
  | scheduleUndo p a caller => exact hnone hl
  | _ => rfl

/-- Calls begin where a start call has found its action, unless a worker finds a task retained. -/
theorem countP_beginsCalls {P : Ptr → Prop} [DecidablePred P]
    (hf : ∀ call p i, f ≠ .startAction call p i)
    (hk : ∀ p lq, f = .workerSwitch p lq → (n.task p).state = .retained → ¬ P p) :
    (f.beginsCalls n).countP P = 0 := by
  cases f with
  | startAction call p i => exact absurd rfl (hf call p i)
  | workerSwitch p lq =>
    simp only [Frame.beginsCalls]
    split
    · rename_i hret
      refine List.countP_eq_zero.mpr fun q hq => ?_
      rw [List.mem_singleton.mp hq]
      simpa using hk p lq rfl hret
    · rfl
  | _ => rfl

theorem starts_cons (k : Nat) (f : Frame) (fs : Multiset Frame) :
    starts k (f ::ₘ fs) =
      (startCalls f).countP (fun call => networkTask call.attributes = some k) + starts k fs := by
  rw [starts, gather_cons, Multiset.countP_add, Multiset.coe_countP]
  rfl

theorem starts_add (k : Nat) (fs : List Frame) (others : Multiset Frame) :
    starts k (fs + others) =
      (fs.flatMap startCalls).countP (fun call => networkTask call.attributes = some k) +
        starts k others := by
  rw [starts, gather_add, Multiset.countP_add, Multiset.coe_countP]
  rfl

/-- The receive loop reads a frame. -/
def Receives (net t : Nat) (f : Frame) (e : Input) (request : Request) : Prop :=
  e = .receive request ∧ t = net ∧ isClient f = true

/-- The calls of the application start no task of a peer. -/
theorem choice_call {net : Nat} {m : ReceivingNode} {e : Input} {x : Call}
    (h : e.choice net t f m = .call x) :
    (∃ request, Receives net t f e request ∧ x = startTaskCall m request) ∨
      ∃ call, x = applicationCall call := by
  cases e with
  | receive request =>
    simp only [Input.choice] at h
    split at h
    · rename_i hr
      cases h
      exact Or.inl ⟨request, ⟨rfl, hr⟩, rfl⟩
    · cases h
  | node c =>
    cases c with
    | call call =>
      cases h
      exact Or.inr ⟨call, rfl⟩
    | _ => cases h

theorem networkTask_getD {attributes : Option TaskAttributes} (numCores : Nat)
    (h : ∀ a, attributes = some a → networkTask a = none) :
    networkTask (attributes.getD (TaskAttributes.init numCores)) = none := by
  cases attributes with
  | none => rfl
  | some a => exact h a rfl

/-- A start call that comes up is one of the application, or of the frame that has been read. -/
theorem startCalls_exec {net : Nat} {m : ReceivingNode} {e : Input}
    (h : ∀ attributes ∈ enqueuing f, networkTask attributes = none) {call : StartCall}
    (hc : call ∈ (exec t (e.choice net t f m) f m.node).2.flatMap startCalls) :
    call ∈ startCalls f ∨ networkTask call.attributes = none ∨
      ∃ request, Receives net t f e request ∧
        call.attributes =
          taskAttributes m.node request.message.priority m.network_tasks.length := by
  rcases exec_startCalls t (e.choice net t f m) f m.node with ⟨he, -⟩ | ⟨_, -, he, -⟩ |
    ⟨_, _, _, -, he⟩ | ⟨x, hx, -, he⟩ | ⟨q, attributes, group, hf, he⟩
  · exact Or.inl (he ▸ hc)
  · exact absurd (he ▸ hc) List.not_mem_nil
  · exact absurd (he ▸ hc) List.not_mem_nil
  · rw [he] at hc
    rcases choice_call hx with ⟨request, hr, rfl⟩ | ⟨call', rfl⟩
    · cases List.mem_singleton.mp hc
      exact Or.inr (Or.inr ⟨request, hr, rfl⟩)
    · cases call' with
      | taskStart job attributes group =>
        cases List.mem_singleton.mp hc
        refine Or.inr (Or.inl (networkTask_getD _ fun a ha => ?_))
        obtain ⟨b, -, rfl⟩ := Option.map_eq_some_iff.mp ha
        exact networkTask_ofApplication b
      | _ => exact absurd hc List.not_mem_nil
  · rw [he] at hc
    cases List.mem_singleton.mp hc
    refine Or.inr (Or.inl ?_)
    refine @networkTask_getD attributes m.node.attributes.numCores fun a ha => h a ?_
    rw [hf, ha]
    exact List.mem_singleton_self a

namespace Replied

variable {net : Nat} {m : ReceivingNode} {e : Input} {k : Nat}

/-- The attributes of a task with a completion call to come stay as they are. -/
theorem attributes_of_owing (h : Replied m (f ::ₘ others)) {p : Ptr}
    (hp : p ∈ owing (code t c f m.node).1 ((code t c f m.node).2 + others)) :
    ((code t c f m.node).1.task p).attributes = (m.node.task p).attributes := by
  have ha : ∀ call p kk was, f = .startInstances call p kk was →
      (m.node.task p).attributes = call.attributes := fun call p kk was hf =>
    h.started f (Multiset.mem_cons_self f others) call p (by
      rw [hf]
      exact List.mem_singleton_self _)
  have hb : owing m.node (f ::ₘ others) + f.beginsCalls m.node =
      owing (code t c f m.node).1 ((code t c f m.node).2 + others) + f.endsCalls m.node :=
    owing_exec h.confined ha
  have hold : p ∈ owing m.node (f ::ₘ others) ∨ p ∈ f.beginsCalls m.node := by
    have hm : p ∈ owing m.node (f ::ₘ others) + f.beginsCalls m.node := by
      rw [hb]
      exact Multiset.mem_add.mpr (Or.inl hp)
    exact (Multiset.mem_add.mp hm).imp id Multiset.mem_coe.mp
  have href : p ∈ references m.node (f ::ₘ others) := by
    rcases hold with hm | hm
    · exact mem_references_of_mem_owing hm
    · exact mem_references_of_mem (Multiset.mem_cons_self f others)
        (Frame.mem_refs_of_mem_beginsCalls hm)
  refine attributes_exec h.toTasksOwned href fun call hf => ?_
  subst hf
  rcases hold with hm | hm
  · rw [owing_cons] at hm
    rcases Multiset.mem_add.mp hm with hm | hm
    · exact absurd hm List.not_mem_nil
    · exact h.not_mem_others (List.mem_singleton_self p) (mem_references_of_mem_owing hm)
  · exact absurd hm List.not_mem_nil

/-- What is owed changes by what begins and what ends. -/
theorem owes_exec (h : Replied m (f ::ₘ others)) (k : Nat) :
    owes m.node k (f ::ₘ others) +
        (f.beginsCalls m.node).countP (fun p => networkTask (m.node.task p).attributes = some k) =
      owes (code t c f m.node).1 k ((code t c f m.node).2 + others) +
        (f.endsCalls m.node).countP
          (fun p => networkTask (m.node.task p).attributes = some k) := by
  have ha : ∀ call p kk was, f = .startInstances call p kk was →
      (m.node.task p).attributes = call.attributes := fun call p kk was hf =>
    h.started f (Multiset.mem_cons_self f others) call p (by
      rw [hf]
      exact List.mem_singleton_self _)
  have hmove : owing m.node (f ::ₘ others) + f.beginsCalls m.node =
      owing (code t c f m.node).1 ((code t c f m.node).2 + others) + f.endsCalls m.node :=
    owing_exec h.confined ha
  have hb := congrArg
    (Multiset.countP fun p => networkTask (m.node.task p).attributes = some k) hmove
  rw [Multiset.countP_add, Multiset.countP_add, Multiset.coe_countP, Multiset.coe_countP] at hb
  rw [owes, owes, hb]
  congr 1
  refine Multiset.countP_congr rfl fun p hp => ?_
  rw [h.attributes_of_owing hp]

/-- The completion function sends its reply. -/
theorem replies_exec (h : Replied m (f ::ₘ others))
    (hg : KeepsPeerTasks t c f m.node (f ::ₘ others)) (k : Nat) :
    ((replies m f).map Prod.fst).count k = (f.endsCalls m.node).countP
      (fun p => networkTask (m.node.task p).attributes = some k) := by
  rw [countP_endsCalls (fun p hp => by simp [hg.loses p hp])
    fun p hp => by simp [h.helps f (Multiset.mem_cons_self f others) p hp]]
  cases f with
  | workerCallback p =>
    simp only [replies, calledBack]
    cases hk : networkTask (m.node.task p).attributes with
    | none => simp [hk]
    | some k' =>
      have hpos : 0 < owes m.node k' (.workerCallback p ::ₘ others) := by
        rw [owes, owing_cons, Multiset.countP_add]
        have hself : Multiset.countP
            (fun p => networkTask (m.node.task p).attributes = some k')
            ((Frame.workerCallback p).owes : Multiset Ptr) = 1 := by
          rw [Frame.owes, Multiset.coe_countP, List.countP_cons_of_pos (by simpa using hk)]
          rfl
        omega
      have hlt : k' < m.network_tasks.length := by
        have honce := h.once k'
        by_contra hge
        rw [if_neg hge] at honce
        omega
      obtain ⟨hv, ha⟩ := hg.called p rfl (by simp [hk])
      simp only [List.getElem?_eq_getElem hlt, hv, ha, and_self, ↓reduceIte, List.map_cons,
        List.map_nil]
      by_cases hkk : k' = k
      · simp [hk, hkk]
      · simp [hk, hkk]
  | _ => rfl

/-- A start call comes to its action, and its task is owed a completion call; or a frame is
read. -/
theorem starts_exec (h : Replied m (f ::ₘ others))
    (hg : KeepsPeerTasks t (e.choice net t f m) f m.node (f ::ₘ others)) (k : Nat) :
    ((exec t (e.choice net t f m) f m.node).2.flatMap startCalls).countP
          (fun call => networkTask call.attributes = some k) +
        (f.beginsCalls m.node).countP
          (fun p => networkTask (m.node.task p).attributes = some k) =
      (startCalls f).countP (fun call => networkTask call.attributes = some k) +
        if k < m.network_tasks.length then 0
        else if k < (m.network_tasks ++ e.allocates net t f).length then 1 else 0 := by
  have hself := Multiset.mem_cons_self f others
  have hbegins : (∀ call p i, f ≠ .startAction call p i) → (f.beginsCalls m.node).countP
      (fun p => networkTask (m.node.task p).attributes = some k) = 0 := fun hf =>
    countP_beginsCalls hf fun p lq hlq hret hk => by
      rw [hg.kept p lq hlq hret] at hk
      cases hk
  by_cases hr : ∃ request, Receives net t f e request
  · obtain ⟨request, rfl, rfl, hclient⟩ := hr
    have hf : f = .client := by
      unfold isClient at hclient
      split at hclient
      · rfl
      · cases hclient
    subst hf
    have hchoice : (Input.receive request).choice t t .client m =
        .call (startTaskCall m request) := if_pos ⟨rfl, rfl⟩
    have hread : (Input.receive request).allocates t t .client = [request] := if_pos ⟨rfl, rfl⟩
    rw [hchoice, hread, List.length_append, List.length_singleton]
    change ([_].countP fun call : StartCall => decide (networkTask call.attributes = some k)) +
      0 = 0 + _
    rw [List.countP_singleton]
    simp only [Option.getD_some, networkTask_taskAttributes, Option.some.injEq,
      decide_eq_true_eq]
    split_ifs <;> omega
  · have hnone : e.allocates net t f = [] := by
      cases e with
      | receive request => exact if_neg fun hc => hr ⟨request, rfl, hc⟩
      | node c => rfl
    rw [hnone, List.append_nil]
    have hzero : (if k < m.network_tasks.length then 0
        else if k < m.network_tasks.length then 1 else 0) = 0 := by
      split_ifs <;> rfl
    rw [hzero, Nat.add_zero]
    have henqueued : ∀ attributes ∈ enqueuing f, networkTask attributes = none := fun a ha =>
      h.enqueued a (mem_gather.mpr ⟨f, hself, ha⟩)
    -- the start calls that come up are those of the application
    have hforeign : startCalls f = [] →
        ((exec t (e.choice net t f m) f m.node).2.flatMap startCalls).countP
          (fun call => networkTask call.attributes = some k) = 0 := by
      intro hnil
      refine List.countP_eq_zero.mpr fun call hc => ?_
      rcases startCalls_exec henqueued hc with hc | hc | ⟨request, hc, -⟩
      · exact absurd (hnil ▸ hc) List.not_mem_nil
      · simp [hc]
      · exact absurd ⟨request, hc⟩ hr
    rcases exec_startCalls t (e.choice net t f m) f m.node with ⟨he, hf⟩ | ⟨call, hf, he, hno⟩ |
      ⟨call, p, i, hf, he⟩ | ⟨x, -, hnil, -⟩ | ⟨q, attributes, group, hf, -⟩
    · rw [he, hbegins hf, Nat.add_zero]
    · have hk : networkTask call.attributes = none := by
        by_contra hk
        exact hno (hg.allocates call hf hk)
      subst hf
      rw [he, hbegins fun _ _ _ hf => (by cases hf)]
      simp [startCalls, hk]
    · have hattr : (m.node.task p).attributes = call.attributes := h.started f hself call p (by
        rw [hf]
        exact List.mem_singleton_self _)
      rw [he, List.countP_nil, Nat.zero_add]
      subst hf
      cases hk : networkTask call.attributes with
      | none =>
        have hp : ∀ q ∈ (Frame.startAction call p i).beginsCalls m.node, q = p := by
          intro q hq
          simp only [Frame.beginsCalls] at hq
          split at hq
          · exact (List.mem_replicate.mp hq).2
          · exact absurd hq List.not_mem_nil
        rw [List.countP_eq_zero.mpr fun q hq => by simp [hp q hq, hattr, hk]]
        simp [startCalls, hk]
      | some k' =>
        have hv : m.node.actionPool.isHandleValid ((m.node.jobList call.job.id).actions i) = true ∧
            (m.node.task p).attributes.priority < m.node.attributes.maxPriorities := by
          by_contra hv
          have hlost := hg.loses p (by
            simp only [Frame.loses, if_neg hv]
            exact List.mem_singleton_self p)
          rw [hattr, hk] at hlost
          cases hlost
        have hone : call.attributes.numInstances = 1 := by
          refine h.single call (mem_gather.mpr ⟨_, hself, List.mem_singleton_self call⟩) ?_
          rw [hk]
          exact Option.some_ne_none k'
        have hb : (Frame.startAction call p i).beginsCalls m.node = [p] := by
          simp only [Frame.beginsCalls, if_pos hv, hone, List.replicate_one]
        simp only [hb, startCalls, List.countP_singleton, hattr]
    · rw [hforeign hnil, hnil, hbegins fun call p i hf => (by
        rw [hf] at hnil
        cases hnil)]
      rfl
    · have hnil : startCalls f = [] := by
        rw [hf]
        rfl
      rw [hforeign hnil, hnil, hbegins fun call p i hf' => (by
        rw [hf] at hf'
        cases hf')]
      rfl

/-- A frame that is read is in progress, and one that is no longer has a reply. -/
theorem once_exec (h : Replied m (f ::ₘ others))
    (hg : KeepsPeerTasks t (e.choice net t f m) f m.node (f ::ₘ others)) (k : Nat) :
    starts k ((code t (e.choice net t f m) f m.node).2 + others) +
          owes (code t (e.choice net t f m) f m.node).1 k
            ((code t (e.choice net t f m) f m.node).2 + others) +
        ((m.sent ++ replies m f).map Prod.fst).count k =
      if k < (m.network_tasks ++ e.allocates net t f).length then 1 else 0 := by
  have honce := h.once k
  have hstarts := h.starts_exec hg k
  have howes := h.owes_exec (t := t) (c := e.choice net t f m) k
  have hreplies := h.replies_exec hg k
  have hle : m.network_tasks.length ≤ (m.network_tasks ++ e.allocates net t f).length := by
    rw [List.length_append]
    exact Nat.le_add_right _ _
  rw [starts_cons] at honce
  rw [starts_add, List.map_append, List.count_append]
  change ((exec t (e.choice net t f m) f m.node).2.flatMap startCalls).countP _ + _ + _ + _ = _
  generalize (m.network_tasks ++ e.allocates net t f).length = grown at hstarts hle ⊢
  split_ifs at honce hstarts ⊢ <;> omega

/-- A start call of a peer's task starts one instance. -/
theorem single_exec (h : Replied m (f ::ₘ others)) {call : StartCall}
    (hm : call ∈ gather startCalls ((code t (e.choice net t f m) f m.node).2 + others))
    (hk : networkTask call.attributes ≠ none) : call.attributes.numInstances = 1 := by
  have hself := Multiset.mem_cons_self f others
  rw [gather_add] at hm
  rcases Multiset.mem_add.mp hm with hm | hm
  · have henqueued : ∀ attributes ∈ enqueuing f, networkTask attributes = none := fun a ha =>
      h.enqueued a (mem_gather.mpr ⟨f, hself, ha⟩)
    rcases startCalls_exec henqueued (Multiset.mem_coe.mp hm) with hm | hm | ⟨request, -, hm⟩
    · exact h.single call (mem_gather.mpr ⟨f, hself, hm⟩) hk
    · exact absurd hm hk
    · rw [hm]
      rfl
  · refine h.single call ?_ hk
    rw [gather_cons]
    exact Multiset.mem_add.mpr (Or.inr hm)

/-- No task of a peer is enqueued. -/
theorem enqueued_exec (h : Replied m (f ::ₘ others)) {attributes : TaskAttributes}
    (hm : attributes ∈
      gather enqueuing ((code t (e.choice net t f m) f m.node).2 + others)) :
    networkTask attributes = none := by
  rw [gather_add] at hm
  rcases Multiset.mem_add.mp hm with hm | hm
  · have hm : attributes ∈ (exec t (e.choice net t f m) f m.node).2.flatMap enqueuing :=
      Multiset.mem_coe.mp hm
    rcases exec_enqueuing t (e.choice net t f m) f m.node with he | he | ⟨x, hx, he⟩
    · exact h.enqueued _ (mem_gather.mpr ⟨f, Multiset.mem_cons_self f others, he ▸ hm⟩)
    · exact absurd (he ▸ hm) List.not_mem_nil
    · rw [he] at hm
      rcases choice_call hx with ⟨request, -, rfl⟩ | ⟨call, rfl⟩
      · exact absurd hm List.not_mem_nil
      · rcases enqueuing_entry m.node (applicationCall call) with hnil | ⟨q, a, group, hcall, ha⟩
        · exact absurd (hnil ▸ hm) List.not_mem_nil
        · rw [ha] at hm
          cases List.mem_singleton.mp hm
          cases call with
          | taskEnqueue q' b group' =>
            simp only [applicationCall, Call.taskEnqueue.injEq] at hcall
            obtain ⟨b', -, rfl⟩ := Option.map_eq_some_iff.mp hcall.2.1
            exact networkTask_ofApplication b'
          | _ => cases hcall
  · refine h.enqueued _ ?_
    rw [gather_cons]
    exact Multiset.mem_add.mpr (Or.inr hm)

/-- A thread that waits holds no task of a peer. -/
theorem helps_exec (h : Replied m (f ::ₘ others)) (hg : KeepsPeerTasks t c f m.node (f ::ₘ others))
    {g : Frame} (hm : g ∈ ((code t c f m.node).2 : Multiset Frame) + others) {p : Ptr}
    (hp : p ∈ g.helps) :
    networkTask ((code t c f m.node).1.task p).attributes = none := by
  have hself := Multiset.mem_cons_self f others
  rcases Multiset.mem_add.mp hm with hm | hm
  · have hm : p ∈ (exec t c f m.node).2.flatMap Frame.helps := List.mem_flatMap.mpr ⟨g, hm, hp⟩
    rcases exec_helps t c f m.node with he | he | ⟨q, hf, he⟩
    · rw [he] at hm
      have hr := mem_references_of_mem (n := m.node) hself (Frame.mem_refs_of_mem_helps hm)
      rw [attributes_exec h.toTasksOwned hr fun call hf => ?_]
      · exact h.helps f hself p hm
      · rw [hf] at hm
        exact absurd hm List.not_mem_nil
    · exact absurd (he ▸ hm) List.not_mem_nil
    · rw [he, List.mem_singleton] at hm
      subst hm hf
      have hr := mem_references_of_mem (n := m.node) hself (List.mem_singleton_self p)
      rw [attributes_exec h.toTasksOwned hr fun call hf => by cases hf]
      exact hg.helps p rfl
  · have hr := mem_references_of_mem (n := m.node) hm (Frame.mem_refs_of_mem_helps hp)
    have hr' : p ∈ references m.node (f ::ₘ others) := by
      rw [references_cons]
      exact Multiset.mem_add.mpr (Or.inr hr)
    rw [attributes_exec h.toTasksOwned hr' fun call hf => ?_]
    · exact h.helps g (Multiset.mem_cons_of_mem hm) p hp
    · refine h.not_mem_others (p := p) ?_ hr
      rw [hf]
      exact List.mem_singleton_self p

/-- A reply carries the fields of its frame. -/
theorem answers_exec (h : Replied m (f ::ₘ others)) (more : List Request) {x : Nat × Reply}
    (hx : x ∈ m.sent ++ replies m f) :
    ∃ request, (m.network_tasks ++ more)[x.1]? = some request ∧
      x.2.remote_task_id = request.message.remote_task_id ∧
        x.2.remote_task_tag = request.message.remote_task_tag ∧ x.2.socket = request.socket := by
  have hgrow : ∀ {k : Nat} {request : Request}, m.network_tasks[k]? = some request →
      (m.network_tasks ++ more)[k]? = some request := fun hk => by
    rw [List.getElem?_append_left (List.getElem?_eq_some_iff.mp hk).1, hk]
  rcases List.mem_append.mp hx with hx | hx
  · obtain ⟨request, hk, hfields⟩ := h.answers x hx
    exact ⟨request, hgrow hk, hfields⟩
  · unfold replies at hx
    split at hx
    · split at hx
      · split at hx
        · rename_i request hk
          simp only at hx
          split at hx
          · cases List.mem_singleton.mp hx
            exact ⟨request, hgrow hk, rfl, rfl, rfl⟩
          · exact absurd hx List.not_mem_nil
        · exact absurd hx List.not_mem_nil
      · exact absurd hx List.not_mem_nil
    · exact absurd hx List.not_mem_nil

end Replied

/-- The guard of the program with the plugin. -/
def keepsPeerTasks (net : Nat) : Guard ReceivingNode Frame Input := fun t e f m fs =>
  KeepsPeerTasks t (e.choice net t f m) f m.node fs

theorem replied_preserved (net : Nat) :
    Preserves (pluginCode net) (keepsPeerTasks net) Replied := by
  intro t e f m others h hg
  exact ⟨workCounted_exec h.toWorkCounted hg.deletes (fun _ _ _ => not_false)
      fun _ _ _ he => he, h.once_exec hg, fun call hm => h.single_exec hm,
    fun a hm => h.enqueued_exec hm, fun g hm p hp => h.helps_exec hg hm hp,
    fun x hx => h.answers_exec _ hx⟩

end Preservation

/-- The threads of a node that has read no frame. -/
def bootReceiving (attributes : NodeAttributes) (mode : SchedulerMode) (clients : Nat) :
    State ReceivingNode Frame :=
  ⟨⟨(boot attributes mode clients).mem, [], []⟩, (boot attributes mode clients).callStacks⟩

theorem replied_boot (attributes : NodeAttributes) (mode : SchedulerMode) (clients : Nat) :
    Replied (bootReceiving attributes mode clients).mem
      (bootReceiving attributes mode clients).frames := by
  have hgather : ∀ {α : Type} (g : Frame → List α), g .worker = [] → g .client = [] →
      gather g (boot attributes mode clients).frames = 0 := by
    intro α g hw hc
    refine Multiset.eq_zero_iff_forall_notMem.mpr fun x hx => ?_
    obtain ⟨f, hf, hx⟩ := mem_gather.mp hx
    rcases mem_frames_boot hf with rfl | rfl
    · exact absurd (hw ▸ hx) List.not_mem_nil
    · exact absurd (hc ▸ hx) List.not_mem_nil
  have howing : owing (boot attributes mode clients).mem (boot attributes mode clients).frames =
      0 := by
    refine Multiset.eq_zero_iff_forall_notMem.mpr fun p hm => ?_
    have hr := mem_references_of_mem_owing hm
    rw [references_boot] at hr
    exact Multiset.notMem_zero p hr
  refine ⟨workCounted_boot _ attributes mode clients, fun k => ?_, fun call hm => ?_,
    fun a hm => ?_, fun f hf p hp => ?_, fun x hx => absurd hx List.not_mem_nil⟩
  · change (gather startCalls (boot attributes mode clients).frames).countP _ +
      (owing (boot attributes mode clients).mem (boot attributes mode clients).frames).countP _ +
        0 = 0
    rw [hgather startCalls rfl rfl, howing]
    rfl
  · change call ∈ gather startCalls (boot attributes mode clients).frames at hm
    rw [hgather startCalls rfl rfl] at hm
    exact absurd hm (Multiset.notMem_zero call)
  · change a ∈ gather enqueuing (boot attributes mode clients).frames at hm
    rw [hgather enqueuing rfl rfl] at hm
    exact absurd hm (Multiset.notMem_zero a)
  · have hf : f ∈ (boot attributes mode clients).frames := hf
    rcases mem_frames_boot hf with rfl | rfl <;> exact absurd hp List.not_mem_nil

theorem Replied.sends {net t : Nat} {e : Input} {m : ReceivingNode} {fs : Multiset Frame} {p : Ptr}
    {request : Request} {k : Nat}
    (hg : keepsPeerTasks net t e (.workerCallback p) m fs)
    (hk : networkTask (m.node.task p).attributes = some k)
    (hr : m.network_tasks[k]? = some request) :
    replies m (.workerCallback p) =
      [(k, ⟨request.message.remote_task_id, request.message.remote_task_tag,
        statusCode (m.node.task (m.node.task p).handle).errorCode, request.socket⟩)] := by
  have hcalled := hg.called p rfl (by simp [hk])
  simp only [replies, hk, hr]
  exact if_pos hcalled

/-- Every frame that has been read and is not in progress has been replied to once, with its
remote id and tag and on its socket, and no frame in progress has; the reply is sent when a
worker calls the completion function, with the status of the task. -/
theorem reply_once (net : Nat) (attributes : NodeAttributes) (mode : SchedulerMode)
    (clients : Nat) (es : List (Nat × Input))
    (hg : Always (pluginCode net) (keepsPeerTasks net) (bootReceiving attributes mode clients)
      es) :
    let s := run (pluginCode net) (bootReceiving attributes mode clients) es
    (∀ k request, s.mem.network_tasks[k]? = some request →
      (s.mem.sent.map Prod.fst).count k = (if InProgress s.mem.node k s.frames then 0 else 1) ∧
        ∀ reply, (k, reply) ∈ s.mem.sent →
          reply.remote_task_id = request.message.remote_task_id ∧
            reply.remote_task_tag = request.message.remote_task_tag ∧
              reply.socket = request.socket) ∧
      ∀ t e p k request, s.top t = some (.workerCallback p) →
        keepsPeerTasks net t e (.workerCallback p) s.mem s.frames →
          networkTask (s.mem.node.task p).attributes = some k →
            s.mem.network_tasks[k]? = some request →
              (step (pluginCode net) s (t, e)).mem.sent = s.mem.sent ++
                [(k, ⟨request.message.remote_task_id, request.message.remote_task_tag,
                  statusCode (s.mem.node.task (s.mem.node.task p).handle).errorCode,
                  request.socket⟩)] := by
  intro s
  have hinv : Replied s.mem s.frames :=
    (replied_preserved net).run hg (replied_boot attributes mode clients)
  refine ⟨fun k request hr => ⟨?_, fun reply hm => ?_⟩, fun t e p k request htop hstep hk hr => ?_⟩
  · have honce := hinv.once k
    rw [if_pos (List.getElem?_eq_some_iff.mp hr).1] at honce
    split
    · rename_i hp
      have hpos : 0 < starts k s.frames + owes s.mem.node k s.frames := hp
      omega
    · rename_i hp
      have hzero : ¬ 0 < starts k s.frames + owes s.mem.node k s.frames := hp
      omega
  · obtain ⟨request', hr', hfields⟩ := hinv.answers _ hm
    rw [hr] at hr'
    cases hr'
    exact hfields
  · obtain ⟨-, -, hm, -⟩ := step_of_top (pluginCode net) (s := s) (e := (t, e)) htop
    rw [hm, ← Replied.sends hstep hk hr]
    rfl

/-- A test that is enough for the guard. -/
def peerTest (_ : Nat) (_ : Input) (f : Frame) (m : ReceivingNode) : Bool :=
  (f.loses m.node).isEmpty && match f with
  | .taskDelete .. | .taskDeallocate .. | .helperContext _ => false
  | .startAllocate call =>
    decide (m.node.jobIsHandleValid call.job = true ∧ m.node.taskPool.allocate.2 ≠ none)
  | .workerSwitch p _ => decide ((m.node.task p).state ≠ .retained)
  | .workerCallback p => decide (m.node.taskPool.isHandleValid (m.node.task p).handle = true ∧
      m.node.actionPool.isHandleValid (m.node.task (m.node.task p).handle).action = true)
  | _ => true

theorem keepsPeerTasks_of_test (net t : Nat) (e : Input) (f : Frame) (m : ReceivingNode)
    (fs : Multiset Frame) (h : peerTest t e f m = true) : keepsPeerTasks net t e f m fs := by
  unfold peerTest at h
  rw [Bool.and_eq_true] at h
  obtain ⟨hl, h⟩ := h
  constructor
  · rintro p caller (rfl | rfl)
    · cases h
    · cases h
  · rintro call rfl -
    exact of_decide_eq_true h
  · rw [List.isEmpty_iff.mp hl]
    exact fun p hp => absurd hp List.not_mem_nil
  · rintro p lq rfl hret
    exact absurd hret (of_decide_eq_true h)
  · rintro p rfl
    cases h
  · rintro p rfl -
    exact of_decide_eq_true h

/-- A peer asks for the job with the number one. -/
def jobOne : Request := ⟨⟨1, 1, 0, 7, 9, 0, 0, []⟩, 3⟩

/-- Steps of the node itself. -/
def nodeSteps (es : List (Nat × Choice)) : List (Nat × Input) := es.map fun e => (e.1, .node e.2)

/-- A frame is read, and the worker executes its task. -/
def readAndExecute : List (Nat × Input) :=
  nodeSteps (calls 1 (.actionCreate 1 none) 4) ++ [(1, .receive jobOne)] ++
    nodeSteps (goes 1 20 ++ goes 0 10 ++ [(0, .leave)] ++ goes 0 5)

/-- The reply carries the id and the tag of the frame, and goes out on its socket. -/
theorem reply_once_executed :
    Always (pluginCode 1) (keepsPeerTasks 1) (bootReceiving (smallNode 1) .workStealVhpf 1)
        readAndExecute ∧
      (run (pluginCode 1) (bootReceiving (smallNode 1) .workStealVhpf 1)
        readAndExecute).mem.network_tasks[0]? = some jobOne ∧
      ((run (pluginCode 1) (bootReceiving (smallNode 1) .workStealVhpf 1)
          readAndExecute).mem.sent.map Prod.fst).count 0 = 1 := by
  have hg : Always (pluginCode 1) (keepsPeerTasks 1)
      (bootReceiving (smallNode 1) .workStealVhpf 1) readAndExecute :=
    Always.of_checked (keepsPeerTasks_of_test 1) (by decide +kernel)
  have hread : (run (pluginCode 1) (bootReceiving (smallNode 1) .workStealVhpf 1)
      readAndExecute).mem.network_tasks[0]? = some jobOne := by decide +kernel
  have honce := ((reply_once 1 (smallNode 1) .workStealVhpf 1 readAndExecute hg).1 0 jobOne
    hread).1
  rw [if_neg (by decide +kernel)] at honce
  exact ⟨hg, hread, honce⟩

/-- A frame is read, and its job has no action. -/
def readWithoutAction : List (Nat × Input) := [(1, .receive jobOne)] ++ nodeSteps (goes 1 20)

/-- The task cannot be started, its frame is not in progress, and there is no reply. -/
theorem reply_missing :
    (run (pluginCode 1) (bootReceiving (smallNode 1) .workStealVhpf 1)
        readWithoutAction).mem.network_tasks = [jobOne] ∧
      ¬ InProgress (run (pluginCode 1) (bootReceiving (smallNode 1) .workStealVhpf 1)
          readWithoutAction).mem.node 0
        (run (pluginCode 1) (bootReceiving (smallNode 1) .workStealVhpf 1)
          readWithoutAction).frames ∧
      ((run (pluginCode 1) (bootReceiving (smallNode 1) .workStealVhpf 1)
        readWithoutAction).top 1).map isClient = some true ∧
      (run (pluginCode 1) (bootReceiving (smallNode 1) .workStealVhpf 1)
        readWithoutAction).mem.sent = [] := by
  decide +kernel

end Embb.MtapiNetwork
