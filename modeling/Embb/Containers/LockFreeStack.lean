import Embb.Containers.HazardPointer
import Embb.Lib.Linked
import Embb.Lib.Threads

/-!
# The lock-free stack

The stack is a linked list of nodes from an object pool. `TryPop` guards the top node and
reads `top` again before it swaps it for the next node, and retires what it has taken;
the scan of the hazard pointers hands nodes back to the object pool, from where they may
be pushed again. The threads interleave at every access to `top`, to a node, to a guard
and to the entries of the hazard pointers.
-/

namespace Embb.Containers.LockFreeStack

open Threads HazardPointer

variable {N E : Type}

/-- A successful swap of `top`: its thread and the element of the node. -/
inductive Op (E : Type)
  | push (thread : ℕ) (element : E)
  | pop (thread : ℕ) (element : E)
  deriving DecidableEq, Repr

def Op.thread : Op E → ℕ
  | .push t _ => t
  | .pop t _ => t

/-- A history of successful operations of a stack, and the elements it leaves there. -/
inductive Lifo : List (Op E) → List E → Prop
  | nil : Lifo [] []
  | push {ops : List (Op E)} {elements : List E} (t : ℕ) (e : E) :
    Lifo ops elements → Lifo (ops ++ [.push t e]) (e :: elements)
  | pop {ops : List (Op E)} {elements : List E} (t : ℕ) (e : E) :
    Lifo ops (e :: elements) → Lifo (ops ++ [.pop t e]) elements

/-- The shared fields, the free nodes of the object pool and the hazard pointers, and for the
statements the nodes from `top` on and the successful swaps of `top`. -/
structure Stack (N E : Type) where
  top : Option N
  next : N → Option N
  element : N → E
  free : List N
  hazards : Hazards N
  nodes : List N
  history : List (Op E)

/-- Where a thread is; the names are those of the variables of the source. -/
inductive Frame (N E : Type)
  /-- Outside the stack. -/
  | caller
  /-- `TryPush`, at the top of its loop. -/
  | pushLoad (element : E) (newNode : N)
  /-- About to set the next pointer of the new node. -/
  | pushSet (element : E) (newNode : N) (top_cached : Option N)
  | pushSwap (element : E) (newNode : N) (top_cached : Option N)
  | pushReturns (result : Bool)
  /-- `TryPop`, before its loop. -/
  | popStart
  | popLoad
  | popGuard (top_cached : N)
  /-- About to read `top` again. -/
  | popValidate (top_cached : N)
  | popNext (top_cached : N)
  | popSwap (top_cached : N) (next : Option N)
  /-- About to clear the guard after the swap has failed. -/
  | popUnguard
  | popElement (top_cached : N)
  /-- About to clear the guard with the element read. -/
  | popRelease (top_cached : N) (data : E)
  | popRetire (top_cached : N) (data : E)
  /-- Inside `EnqueuePointerForDeletion`. -/
  | popHazards (data : E) (frame : HazardPointer.Frame N)
  | popReturns (result : Option E)
  deriving DecidableEq

/-- What a thread outside the stack does next. -/
inductive Choice (N E : Type)
  /-- Call `TryPush`, to which the object pool gives a node or none. -/
  | push (element : E) (node : Option N)
  | pop
  deriving DecidableEq

/-- One guard for each thread. -/
def sizes (threads : ℕ) : Sizes := ⟨threads, 1⟩

section Model

variable [DecidableEq N]

/-- `DeletePointerCallback`: the node that a scan frees goes back to the object pool. -/
def deletePointerCallback (frame : HazardPointer.Frame N) (free : List N) : List N :=
  match frame with
  | .scanFree _ _ to_delete => to_delete :: free
  | _ => free

/-- One atomic step of thread `t`. -/
def exec (z : Sizes) (t : ℕ) (c : Choice N E) (f : Frame N E) (m : Stack N E) :
    Stack N E × Frame N E :=
  match f with
  | .caller =>
    match c with
    | .push _ none => (m, .pushReturns false)
    | .push element (some node) =>
      if node ∈ m.free then
        ({ m with
            free := m.free.erase node
            element := Function.update m.element node element },
          .pushLoad element node)
      else (m, .caller)
    | .pop => (m, .popStart)
  | .pushLoad element newNode => (m, .pushSet element newNode m.top)
  | .pushSet element newNode top_cached =>
    ({ m with next := Function.update m.next newNode top_cached },
      .pushSwap element newNode top_cached)
  | .pushSwap element newNode top_cached =>
    if m.top = top_cached then
      ({ m with
          top := some newNode
          nodes := newNode :: m.nodes
          history := m.history ++ [.push t element] },
        .pushReturns true)
    else (m, .pushLoad element newNode)
  | .pushReturns _ => (m, .caller)
  | .popStart => (m, .popLoad)
  | .popLoad =>
    match m.top with
    | none => (m, .popReturns none)
    | some top_cached => (m, .popGuard top_cached)
  | .popGuard top_cached =>
    ({ m with hazards := guardPointer t 0 (some top_cached) m.hazards }, .popValidate top_cached)
  | .popValidate top_cached =>
    if m.top ≠ some top_cached then (m, .popLoad) else (m, .popNext top_cached)
  | .popNext top_cached => (m, .popSwap top_cached (m.next top_cached))
  | .popSwap top_cached next =>
    if m.top = some top_cached then
      ({ m with
          top := next
          nodes := m.nodes.tail
          history := m.history ++ [.pop t (m.element top_cached)] },
        .popElement top_cached)
    else (m, .popUnguard)
  | .popUnguard => ({ m with hazards := guardPointer t 0 none m.hazards }, .popLoad)
  | .popElement top_cached => (m, .popRelease top_cached (m.element top_cached))
  | .popRelease top_cached data =>
    ({ m with hazards := guardPointer t 0 none m.hazards }, .popRetire top_cached data)
  | .popRetire top_cached data =>
    ({ m with hazards := addRetired z t top_cached m.hazards }, .popHazards data .threshold)
  | .popHazards data .client => (m, .popReturns (some data))
  | .popHazards data frame =>
    ({ m with
        hazards := (HazardPointer.exec z t frame m.hazards).1
        free := deletePointerCallback frame m.free },
      .popHazards data (HazardPointer.exec z t frame m.hazards).2)
  | .popReturns _ => (m, .caller)

/-- The program of every thread. -/
def code (z : Sizes) : Code (Stack N E) (Frame N E) (Choice N E) := fun t c f m =>
  ((exec z t c f m).1, [(exec z t c f m).2])

end Model

/-- The nodes of the object pool. -/
structure Nodes (N : Type) where
  all : List N
  nodup : all.Nodup

/-- The constructor; the nodes of the object pool are not constructed. -/
def create (z : Sizes) (ns : Nodes N) (temp : ℕ → List N) (next : N → Option N)
    (element : N → E) : Stack N E where
  top := none
  next := next
  element := element
  free := ns.all
  hazards := HazardPointer.create z temp
  nodes := []
  history := []

/-- A new stack and the threads that have an entry in its hazard pointers. -/
def boot (threads : ℕ) (ns : Nodes N) (temp : ℕ → List N) (next : N → Option N)
    (element : N → E) : State (Stack N E) (Frame N E) where
  mem := create (sizes threads) ns temp next element
  callStacks := List.replicate threads [.caller]

/-! ## The invariant -/

/-- Where a thread is inside the functions of the hazard pointers. -/
def Frame.inHazards : Frame N E → HazardPointer.Frame N
  | .popHazards _ frame => frame
  | _ => .client

/-- The node that a call of `TryPush` has not pushed yet. -/
def Frame.own : Frame N E → Option N
  | .pushLoad _ newNode => some newNode
  | .pushSet _ newNode _ => some newNode
  | .pushSwap _ newNode _ => some newNode
  | _ => none

/-- The node that a thread has to itself: not pushed yet, or popped and not retired yet. -/
def Frame.has : Frame N E → Option N
  | .pushLoad _ newNode => some newNode
  | .pushSet _ newNode _ => some newNode
  | .pushSwap _ newNode _ => some newNode
  | .popElement top_cached => some top_cached
  | .popRelease top_cached _ => some top_cached
  | .popRetire top_cached _ => some top_cached
  | _ => none

/-- The node to which a call of `TryPop` has set its guard. -/
def Frame.guards : Frame N E → Option N
  | .popValidate top_cached => some top_cached
  | .popNext top_cached => some top_cached
  | .popSwap top_cached _ => some top_cached
  | _ => none

/-- The guarded node that was found to be the top node after that. -/
def Frame.guarded : Frame N E → Option N
  | .popNext top_cached => some top_cached
  | .popSwap top_cached _ => some top_cached
  | _ => none

/-- The element that a call returns that has popped a node. -/
def Frame.result (element : N → E) : Frame N E → Option E
  | .popElement top_cached => some (element top_cached)
  | .popRelease _ data => some data
  | .popRetire _ data => some data
  | .popHazards data _ => some data
  | .popReturns result => result
  | _ => none

/-- What is known about the fields of the node of a frame. -/
def Frame.Fields (next : N → Option N) (element : N → E) : Frame N E → Prop
  | .pushLoad e newNode => element newNode = e
  | .pushSet e newNode _ => element newNode = e
  | .pushSwap e newNode top_cached => element newNode = e ∧ next newNode = top_cached
  | .popSwap top_cached n => next top_cached = n
  | _ => True

/-- The last operation of a thread. -/
def lastOp (t : ℕ) (history : List (Op E)) : Option (Op E) :=
  (history.filter fun op => op.thread == t).getLast?

/-- What a thread can rely on. -/
structure Frame.Knows (m : Stack N E) (t : ℕ) (f : Frame N E) : Prop where
  has : ∀ p, f.has = some p → p ∉ m.nodes ∧ p ∉ m.free ∧ m.hazards.pending p = none
  guards : ∀ p, f.guards = some p → m.hazards.guardedPointers t 0 = some p
  guarded : ∀ p, f.guarded = some p → p ∉ m.free ∧
    (m.hazards.pending p ≠ none → m.hazards.early t 0 = true)
  fields : f.Fields m.next m.element
  result : ∀ e, f.result m.element = some e → lastOp t m.history = some (.pop t e)

/-- The nodes are linked from `top` on and hold the elements that the history leaves; a node is
linked, free or retired, or belongs to one thread. -/
structure Shape (m : Stack N E) : Prop where
  linked : Linked m.next m.nodes
  top : m.top = m.nodes.head?
  nodes_nodup : m.nodes.Nodup
  free_nodup : m.free.Nodup
  free : ∀ p ∈ m.free, p ∉ m.nodes
  pending : ∀ p, m.hazards.pending p ≠ none → p ∉ m.nodes ∧ p ∉ m.free
  lifo : Lifo m.history (m.nodes.map m.element)

/-- The shared fields are in shape, no two threads have the same node to themselves, and no
thread that stays has guarded a node that another one is still to push. -/
structure Inv (z : Sizes) (m : Stack N E) (pc : ℕ → Frame N E) : Prop where
  shape : Shape m
  knows : ∀ t, (pc t).Knows m t
  unique : ∀ t t' p, (pc t).has = some p → (pc t').has = some p → t = t'
  apart : ∀ t t' p, (pc t).guarded = some p → (pc t').own ≠ some p
  hazards : HazardPointer.Inv z m.hazards fun t => (pc t).inHazards
  left : ∀ t, m.hazards.left t = false
  staying : ∀ t, ¬ (pc t).inHazards.Leaves
  bound : ∀ t, (pc t).guards ≠ none → t < z.hazardPointers

theorem Frame.guards_of_guarded {f : Frame N E} {p : N} (h : f.guarded = some p) :
    f.guards = some p := by
  cases f with
  | popNext q => exact h
  | popSwap q n => exact h
  | _ => cases h

theorem Frame.has_of_own {f : Frame N E} {p : N} (h : f.own = some p) : f.has = some p := by
  cases f with
  | pushLoad e q => exact h
  | pushSet e q n => exact h
  | pushSwap e q n => exact h
  | _ => cases h

/-- An operation of another thread leaves the last operation of a thread alone. -/
theorem lastOp_append_ne {t : ℕ} {history : List (Op E)} {op : Op E} (h : op.thread ≠ t) :
    lastOp t (history ++ [op]) = lastOp t history := by
  rw [lastOp, lastOp, List.filter_append, List.filter_cons_of_neg, List.filter_nil,
    List.append_nil]
  rw [beq_iff_eq]
  exact h

theorem lastOp_append {t : ℕ} {history : List (Op E)} {op : Op E} (h : op.thread = t) :
    lastOp t (history ++ [op]) = some op := by
  rw [lastOp, List.filter_append, List.filter_cons_of_pos, List.filter_nil,
    List.getLast?_append_of_ne_nil _ (List.cons_ne_nil op [])]
  · rfl
  · rw [beq_iff_eq]
    exact h

theorem Frame.own_of_guarded {f : Frame N E} {p : N} (h : f.guarded = some p) : f.own = none := by
  cases f with
  | popNext q => rfl
  | popSwap q n => rfl
  | _ => cases h

/-- What a thread knows stays so where its own nodes stay its own, its guards stay in time and
its nodes keep their fields. -/
theorem Frame.Knows.mono {m m' : Stack N E} {t : ℕ} {f : Frame N E} (hk : f.Knows m t)
    (hhas : ∀ p, f.has = some p → p ∉ m'.nodes ∧ p ∉ m'.free ∧ m'.hazards.pending p = none)
    (hguards : m'.hazards.guardedPointers t 0 = m.hazards.guardedPointers t 0)
    (hguarded : ∀ p, f.guarded = some p → p ∉ m'.free ∧
      (m'.hazards.pending p ≠ none → m'.hazards.early t 0 = true))
    (hnode : ∀ p, f.has = some p ∨ f.guarded = some p →
      m'.next p = m.next p ∧ m'.element p = m.element p)
    (hlast : lastOp t m'.history = lastOp t m.history) : f.Knows m' t where
  has := hhas
  guards p hp := hguards.trans (hk.guards p hp)
  guarded := hguarded
  fields := by
    have hf := hk.fields
    cases f with
    | pushLoad e p => exact (hnode p (Or.inl rfl)).2.trans hf
    | pushSet e p n => exact (hnode p (Or.inl rfl)).2.trans hf
    | pushSwap e p n =>
      exact ⟨(hnode p (Or.inl rfl)).2.trans hf.1, (hnode p (Or.inl rfl)).1.trans hf.2⟩
    | popSwap p n => exact (hnode p (Or.inr rfl)).1.trans hf
    | _ => trivial
  result e he := by
    rw [hlast]
    refine hk.result e ?_
    cases f with
    | popElement p =>
      rw [← he]
      exact congrArg some (hnode p (Or.inl rfl)).2.symm
    | _ => exact he

/-- A thread that has no node and no guard. -/
theorem Frame.Knows.of_nothing {m : Stack N E} {t : ℕ} {f : Frame N E} (hh : f.has = none)
    (hg : f.guards = none) (hf : f.Fields m.next m.element)
    (hr : ∀ e, f.result m.element = some e → lastOp t m.history = some (.pop t e)) :
    f.Knows m t where
  has p hp := by
    rw [hh] at hp
    cases hp
  guards p hp := by
    rw [hg] at hp
    cases hp
  guarded p hp := by
    rw [guards_of_guarded hp] at hg
    cases hg
  fields := hf
  result := hr

namespace Inv

variable {z : Sizes} {m m' : Stack N E} {pc : ℕ → Frame N E} {t t' : ℕ} {f' : Frame N E} {p : N}

theorem has_ne (hI : Inv z m pc) (hp : (pc t).has = some p) (hne : t' ≠ t) :
    (pc t').has ≠ some p :=
  fun hp' => hne (hI.unique t' t p hp' hp)

theorem inHazards_update (pc : ℕ → Frame N E) (t : ℕ) (f' : Frame N E) :
    (fun t' => (Function.update pc t f' t').inHazards) =
      Function.update (fun t' => (pc t').inHazards) t f'.inHazards := by
  ext t'
  rcases eq_or_ne t' t with rfl | hne
  · rw [Function.update_self, Function.update_self]
  · rw [Function.update_of_ne hne, Function.update_of_ne hne]

/-- Assembles the invariant after a step of one thread. -/
theorem of_step (hI : Inv z m pc) (hshape : Shape m') (hk : f'.Knows m' t)
    (hothers : ∀ t' ≠ t, (pc t').Knows m' t')
    (hhas : ∀ p, f'.has = some p → ∀ t' ≠ t, (pc t').has ≠ some p)
    (hguarded : ∀ p, f'.guarded = some p → ∀ t' ≠ t, (pc t').own ≠ some p)
    (hown : ∀ p, f'.own = some p → ∀ t' ≠ t, (pc t').guarded ≠ some p)
    (hhazards : HazardPointer.Inv z m'.hazards
      (Function.update (fun t' => (pc t').inHazards) t f'.inHazards))
    (hleft : m'.hazards.left = m.hazards.left) (hstays : ¬ f'.inHazards.Leaves)
    (hbound : f'.guards ≠ none → t < z.hazardPointers) : Inv z m' (Function.update pc t f') where
  shape := hshape
  knows t' := by
    rcases eq_or_ne t' t with rfl | hne
    · rw [Function.update_self]
      exact hk
    · rw [Function.update_of_ne hne]
      exact hothers t' hne
  unique t₁ t₂ p h₁ h₂ := by
    rcases eq_or_ne t₁ t with rfl | hne₁
    · rcases eq_or_ne t₂ t₁ with rfl | hne₂
      · rfl
      · rw [Function.update_self] at h₁
        rw [Function.update_of_ne hne₂] at h₂
        exact absurd h₂ (hhas p h₁ t₂ hne₂)
    · rw [Function.update_of_ne hne₁] at h₁
      rcases eq_or_ne t₂ t with rfl | hne₂
      · rw [Function.update_self] at h₂
        exact absurd h₁ (hhas p h₂ t₁ hne₁)
      · rw [Function.update_of_ne hne₂] at h₂
        exact hI.unique t₁ t₂ p h₁ h₂
  apart t₁ t₂ p h₁ := by
    rcases eq_or_ne t₁ t with rfl | hne₁
    · rw [Function.update_self] at h₁
      rcases eq_or_ne t₂ t₁ with rfl | hne₂
      · rw [Function.update_self, Frame.own_of_guarded h₁]
        exact fun h => by cases h
      · rw [Function.update_of_ne hne₂]
        exact hguarded p h₁ t₂ hne₂
    · rw [Function.update_of_ne hne₁] at h₁
      rcases eq_or_ne t₂ t with rfl | hne₂
      · rw [Function.update_self]
        exact fun h₂ => hown p h₂ t₁ hne₁ h₁
      · rw [Function.update_of_ne hne₂]
        exact hI.apart t₁ t₂ p h₁
  hazards := by
    rw [inHazards_update]
    exact hhazards
  left t' := by
    rw [hleft]
    exact hI.left t'
  staying t' := by
    rcases eq_or_ne t' t with rfl | hne
    · rw [Function.update_self]
      exact hstays
    · rw [Function.update_of_ne hne]
      exact hI.staying t'
  bound t' := by
    rcases eq_or_ne t' t with rfl | hne
    · rw [Function.update_self]
      exact hbound
    · rw [Function.update_of_ne hne]
      exact hI.bound t'

/-- The hazard pointers do not notice a thread that stays outside their functions. -/
theorem outside (hI : Inv z m pc) (h : (pc t).inHazards = .client) :
    HazardPointer.Inv z m.hazards (Function.update (fun t' => (pc t').inHazards) t .client) := by
  rw [← h, Function.update_eq_self t fun t' => (pc t').inHazards]
  exact hI.hazards

/-- A step that changes no shared field. -/
theorem move (hI : Inv z m pc) (hc : (pc t).inHazards = .client) (hc' : f'.inHazards = .client)
    (hk : f'.Knows m t) (hhas : ∀ p, f'.has = some p → (pc t).has = some p)
    (hguarded : ∀ p, f'.guarded = some p → (pc t).guarded = some p ∨ m.top = some p)
    (hown : ∀ p, f'.own = some p → (pc t).own = some p)
    (hbound : f'.guards ≠ none → (pc t).guards ≠ none) : Inv z m (Function.update pc t f') := by
  refine hI.of_step hI.shape hk (fun t' _ => hI.knows t')
    (fun p hp t' hne => hI.has_ne (hhas p hp) hne) (fun p hp t' _ ho => ?_)
    (fun p hp t' _ hg => hI.apart t' t p hg (hown p hp)) ?_ rfl ?_ fun h => hI.bound t (hbound h)
  · rcases hguarded p hp with hg | htop
    · exact hI.apart t t' p hg ho
    · refine ((hI.knows t').has p (Frame.has_of_own ho)).1 ?_
      rw [hI.shape.top] at htop
      exact List.mem_of_mem_head? htop
  · rw [hc']
    exact hI.outside hc
  · rw [hc']
    exact id

/-- A guard is set or cleared. -/
theorem guard [DecidableEq N] (hI : Inv z m pc) (q : Option N) (hc : (pc t).inHazards = .client)
    (hc' : f'.inHazards = .client)
    (hk : f'.Knows { m with hazards := guardPointer t 0 q m.hazards } t)
    (hhas : ∀ p, f'.has = some p → (pc t).has = some p) (hguarded : f'.guarded = none)
    (hown : f'.own = none) (hbound : f'.guards ≠ none → t < z.hazardPointers) :
    Inv z { m with hazards := guardPointer t 0 q m.hazards } (Function.update pc t f') := by
  have hs := hI.shape
  refine hI.of_step ⟨hs.linked, hs.top, hs.nodes_nodup, hs.free_nodup, hs.free, hs.pending,
    hs.lifo⟩ hk (fun t' hne => ?_) (fun p hp t' hne => hI.has_ne (hhas p hp) hne)
    (fun p hp => by rw [hguarded] at hp; cases hp) (fun p hp => by rw [hown] at hp; cases hp)
    ?_ rfl ?_ hbound
  · have hk' := hI.knows t'
    refine hk'.mono hk'.has ?_ (fun p hp => ?_) (fun _ _ => ⟨rfl, rfl⟩) rfl
    · exact congrFun (Function.update_of_ne hne _ _) 0
    · have hearly : (guardPointer t 0 q m.hazards).early t' 0 = m.hazards.early t' 0 :=
        congrFun (Function.update_of_ne hne _ _) 0
      refine ⟨(hk'.guarded p hp).1, fun hpending => ?_⟩
      exact hearly.trans ((hk'.guarded p hp).2 hpending)
  · rw [hc']
    exact (hI.outside hc).guardPointer t 0 q
  · rw [hc']
    exact id

/-- The object pool gives a node, which is constructed. -/
theorem allocate [DecidableEq N] (hI : Inv z m pc) {node : N} {e : E} (hc : pc t = .caller)
    (hfree : node ∈ m.free) :
    Inv z { m with
        free := m.free.erase node
        element := Function.update m.element node e }
      (Function.update pc t (.pushLoad e node)) := by
  have hs := hI.shape
  have hnode := hs.free node hfree
  have hpending : m.hazards.pending node = none := by
    by_contra hn
    exact (hs.pending node hn).2 hfree
  have herase : ∀ {p}, p ∈ m.free.erase node → p ∈ m.free := fun hp => List.mem_of_mem_erase hp
  have hother : ∀ t', (pc t').has ≠ some node := fun t' hh => ((hI.knows t').has node hh).2.1 hfree
  have hguarded : ∀ t', (pc t').guarded ≠ some node :=
    fun t' hg => ((hI.knows t').guarded node hg).1 hfree
  refine hI.of_step ⟨hs.linked, hs.top, hs.nodes_nodup, hs.free_nodup.erase node,
    fun p hp => hs.free p (herase hp), fun p hp => ?_, ?_⟩ ?_ (fun t' hne => ?_)
    (fun p hp t' _ => ?_) (fun p hp => by cases hp) (fun p hp t' _ => ?_) ?_ rfl id
    (fun h => absurd rfl h)
  · exact ⟨(hs.pending p hp).1, fun hm => (hs.pending p hp).2 (herase hm)⟩
  · have hmap : m.nodes.map (Function.update m.element node e) = m.nodes.map m.element := by
      refine List.map_congr_left fun p hp => Function.update_of_ne ?_ _ _
      rintro rfl
      exact hnode hp
    show Lifo m.history (m.nodes.map (Function.update m.element node e))
    rw [hmap]
    exact hs.lifo
  · refine ⟨fun p hp => ?_, fun p hp => (by cases hp), fun p hp => (by cases hp),
      Function.update_self .., fun e he => by cases he⟩
    obtain rfl := Option.some.inj hp
    exact ⟨hnode, hs.free_nodup.not_mem_erase, hpending⟩
  · have hk := hI.knows t'
    refine hk.mono (fun p hp => ?_) rfl (fun p hp => ?_) (fun p hp => ⟨rfl, ?_⟩) rfl
    · obtain ⟨h1, h2, h3⟩ := hk.has p hp
      exact ⟨h1, fun hm => h2 (herase hm), h3⟩
    · obtain ⟨h1, h2⟩ := hk.guarded p hp
      exact ⟨fun hm => h1 (herase hm), h2⟩
    · refine Function.update_of_ne ?_ _ _
      rintro rfl
      exact hp.elim (hother t') (hguarded t')
  · obtain rfl := Option.some.inj hp
    exact hother t'
  · obtain rfl := Option.some.inj hp
    exact hguarded t'
  · exact hI.outside (hc ▸ rfl)

/-- The next pointer of a new node is set. -/
theorem setNext [DecidableEq N] (hI : Inv z m pc) {node : N} {e : E} {n : Option N}
    (hc : pc t = .pushSet e node n) :
    Inv z { m with next := Function.update m.next node n }
      (Function.update pc t (.pushSwap e node n)) := by
  have hs := hI.shape
  have hk := hI.knows t
  have hhas : (pc t).has = some node := hc ▸ rfl
  have hown : (pc t).own = some node := hc ▸ rfl
  obtain ⟨h1, h2, h3⟩ := hk.has node hhas
  have helement : m.element node = e := by
    have hf := hk.fields
    rw [hc] at hf
    exact hf
  refine hI.of_step ⟨hs.linked.congr fun a ha => Function.update_of_ne ?_ _ _, hs.top,
    hs.nodes_nodup, hs.free_nodup, hs.free, hs.pending, hs.lifo⟩ ?_ (fun t' hne => ?_)
    (fun p hp t' hne => ?_) (fun p hp => by cases hp) (fun p hp t' _ hg => ?_) ?_ rfl id
    (fun h => absurd rfl h)
  · rintro rfl
    exact h1 ha
  · refine ⟨fun p hp => ?_, fun p hp => (by cases hp), fun p hp => (by cases hp),
      ⟨helement, Function.update_self ..⟩, fun e he => by cases he⟩
    obtain rfl := Option.some.inj hp
    exact ⟨h1, h2, h3⟩
  · have hk' := hI.knows t'
    refine hk'.mono hk'.has rfl hk'.guarded (fun p hp => ⟨Function.update_of_ne ?_ _ _, rfl⟩) rfl
    rintro rfl
    rcases hp with hp | hp
    · exact hI.has_ne hhas hne hp
    · exact hI.apart t' t p hp hown
  · obtain rfl := Option.some.inj hp
    exact hI.has_ne hhas hne
  · obtain rfl := Option.some.inj hp
    exact hI.apart t' t node hg hown
  · exact hI.outside (hc ▸ rfl)

/-- A new node becomes the top node. -/
theorem push (hI : Inv z m pc) {node : N} {e : E} (hc : pc t = .pushSwap e node m.top) :
    Inv z { m with
        top := some node
        nodes := node :: m.nodes
        history := m.history ++ [.push t e] } (Function.update pc t (.pushReturns true)) := by
  have hs := hI.shape
  have hk := hI.knows t
  have hhas : (pc t).has = some node := hc ▸ rfl
  obtain ⟨h1, h2, h3⟩ := hk.has node hhas
  obtain ⟨helement, hnext⟩ : m.element node = e ∧ m.next node = m.top := by
    have hf := hk.fields
    rw [hc] at hf
    exact hf
  refine hI.of_step ⟨⟨hnext.trans hs.top, hs.linked⟩, rfl, List.nodup_cons.mpr ⟨h1, hs.nodes_nodup⟩,
    hs.free_nodup, fun p hp hm => ?_, fun p hp => ⟨fun hm => ?_, (hs.pending p hp).2⟩, ?_⟩
    ?_ (fun t' hne => ?_) (fun p hp => by cases hp) (fun p hp => by cases hp)
    (fun p hp => by cases hp) ?_ rfl id (fun h => absurd rfl h)
  · rcases List.mem_cons.mp hm with rfl | hm
    · exact h2 hp
    · exact hs.free p hp hm
  · rcases List.mem_cons.mp hm with rfl | hm
    · exact hp h3
    · exact (hs.pending p hp).1 hm
  · rw [List.map_cons, helement]
    exact hs.lifo.push t e
  · exact ⟨fun p hp => (by cases hp), fun p hp => (by cases hp), fun p hp => (by cases hp), trivial,
      fun e he => by cases he⟩
  · have hk' := hI.knows t'
    refine hk'.mono (fun p hp => ?_) rfl hk'.guarded (fun _ _ => ⟨rfl, rfl⟩)
      (lastOp_append_ne hne.symm)
    obtain ⟨h1', h2', h3'⟩ := hk'.has p hp
    refine ⟨fun hm => ?_, h2', h3'⟩
    rcases List.mem_cons.mp hm with rfl | hm
    · exact hI.has_ne hhas hne hp
    · exact h1' hm
  · exact hI.outside (hc ▸ rfl)

/-- The top node is swapped for the next one. -/
theorem pop (hI : Inv z m pc) {node : N} {n : Option N} (hc : pc t = .popSwap node n)
    (htop : m.top = some node) :
    Inv z { m with
        top := n
        nodes := m.nodes.tail
        history := m.history ++ [.pop t (m.element node)] }
      (Function.update pc t (.popElement node)) := by
  have hs := hI.shape
  have hk := hI.knows t
  have hnext : m.next node = n := by
    have hf := hk.fields
    rw [hc] at hf
    exact hf
  obtain ⟨rest, hrest⟩ := List.head?_eq_some_iff.mp (hs.top.symm.trans htop)
  have hlinked := hs.linked
  have hnodup := hs.nodes_nodup
  have hlifo := hs.lifo
  rw [hrest] at hlinked hnodup
  rw [hrest, List.map_cons] at hlifo
  have hmem : node ∈ m.nodes := by
    rw [hrest]
    exact List.mem_cons_self
  have htail : ∀ {p}, p ∈ m.nodes.tail → p ∈ m.nodes := fun hp => List.mem_of_mem_tail hp
  have hfree : node ∉ m.free := fun hm => hs.free node hm hmem
  have hpending : m.hazards.pending node = none := by
    by_contra hn
    exact (hs.pending node hn).1 hmem
  refine hI.of_step ⟨?_, ?_, ?_, hs.free_nodup, fun p hp hm => hs.free p hp (htail hm),
    fun p hp => ⟨fun hm => (hs.pending p hp).1 (htail hm), (hs.pending p hp).2⟩, ?_⟩
    ?_ (fun t' hne => ?_) (fun p hp t' _ hh => ?_) (fun p hp => by cases hp)
    (fun p hp => by cases hp) ?_ rfl id (fun h => absurd rfl h)
  · rw [hrest]
    exact hlinked.2
  · rw [hrest]
    exact hnext.symm.trans hlinked.1
  · rw [hrest]
    exact (List.nodup_cons.mp hnodup).2
  · rw [hrest]
    exact hlifo.pop t (m.element node)
  · refine ⟨fun p hp => ?_, fun p hp => (by cases hp), fun p hp => (by cases hp), trivial,
      fun e he => ?_⟩
    · obtain rfl := Option.some.inj hp
      refine ⟨?_, hfree, hpending⟩
      rw [hrest]
      exact (List.nodup_cons.mp hnodup).1
    · obtain rfl := Option.some.inj he
      exact lastOp_append rfl
  · have hk' := hI.knows t'
    refine hk'.mono (fun p hp => ?_) rfl hk'.guarded (fun _ _ => ⟨rfl, rfl⟩)
      (lastOp_append_ne hne.symm)
    obtain ⟨h1', h2', h3'⟩ := hk'.has p hp
    exact ⟨fun hm => h1' (htail hm), h2', h3'⟩
  · obtain rfl := Option.some.inj hp
    exact ((hI.knows t').has node hh).1 hmem
  · exact hI.outside (hc ▸ rfl)

/-- A popped node is retired; threads that have guarded it have done so in time. -/
theorem retire [DecidableEq N] (hI : Inv z m pc) {node : N} {e : E}
    (hc : pc t = .popRetire node e) :
    Inv z { m with hazards := addRetired z t node m.hazards }
      (Function.update pc t (.popHazards e .threshold)) := by
  have hs := hI.shape
  have hk := hI.knows t
  have hhas : (pc t).has = some node := hc ▸ rfl
  obtain ⟨h1, h2, h3⟩ := hk.has node hhas
  have hpending : ∀ {p}, p ≠ node → (addRetired z t node m.hazards).pending p =
      m.hazards.pending p := fun hne => Function.update_of_ne hne _ _
  refine hI.of_step ⟨hs.linked, hs.top, hs.nodes_nodup, hs.free_nodup, hs.free, fun p hp => ?_,
    hs.lifo⟩ ?_ (fun t' hne => ?_) (fun p hp => by cases hp) (fun p hp => by cases hp)
    (fun p hp => by cases hp) ?_ rfl id (fun h => absurd rfl h)
  · rcases eq_or_ne p node with rfl | hne
    · exact ⟨h1, h2⟩
    · refine hs.pending p ?_
      rw [← hpending hne]
      exact hp
  · refine ⟨fun p hp => (by cases hp), fun p hp => (by cases hp), fun p hp => (by cases hp),
      trivial,
      fun e' he => ?_⟩
    exact hk.result e' (hc ▸ he)
  · have hk' := hI.knows t'
    refine hk'.mono (fun p hp => ?_) rfl (fun p hp => ⟨(hk'.guarded p hp).1, fun hn => ?_⟩)
      (fun _ _ => ⟨rfl, rfl⟩) rfl
    · obtain ⟨h1', h2', h3'⟩ := hk'.has p hp
      refine ⟨h1', h2', (hpending ?_).trans h3'⟩
      rintro rfl
      exact hI.has_ne hhas hne hp
    · have hg := hk'.guards p (Frame.guards_of_guarded hp)
      show (m.hazards.early t' 0 ||
        decide (m.hazards.guardedPointers t' 0 = some node)) = true
      rw [Bool.or_eq_true, decide_eq_true_eq, hg, Option.some_inj]
      rcases eq_or_ne p node with rfl | hne'
      · exact Or.inr rfl
      · refine Or.inl ((hk'.guarded p hp).2 ?_)
        rw [← hpending hne']
        exact hn
  · have hout := hI.hazards.retire (t := t) (p := node) (hc ▸ rfl) (hI.left t) h3
    exact hout

/-- A step inside the functions of the hazard pointers. A node that a scan frees is guarded by
nobody, as every guard on it was set before the node was retired. -/
theorem inside [DecidableEq N] (hI : Inv z m pc) (hz : 0 < z.guardsPerThread) {e : E}
    {f : HazardPointer.Frame N} (hc : pc t = .popHazards e f) :
    Inv z { m with
        hazards := (HazardPointer.exec z t f m.hazards).1
        free := deletePointerCallback f m.free }
      (Function.update pc t (.popHazards e (HazardPointer.exec z t f m.hazards).2)) := by
  have hs := hI.shape
  have hk := hI.knows t
  have hin : (pc t).inHazards = f := hc ▸ rfl
  have hstays : ¬ f.Leaves := hin ▸ hI.staying t
  obtain ⟨hleft, hstays'⟩ := exec_left (z := z) (t := t) m.hazards hstays
  obtain ⟨hguards, hearly⟩ := exec_guards z t f m.hazards
  have hhazards := hI.hazards.exec t
  rw [hin] at hhazards
  have hresult : ∀ e', (Frame.popHazards e (HazardPointer.exec z t f m.hazards).2).result
      m.element = some e' → lastOp t m.history = some (.pop t e') :=
    fun e' he => hk.result e' (hc ▸ he)
  by_cases hf : ∃ helped it p, f = .scanFree helped it p
  · obtain ⟨helped, it, p, rfl⟩ := hf
    have hpending : m.hazards.pending p ≠ none := by
      rw [hI.hazards.pending_of_free hin]
      exact fun h => by cases h
    obtain ⟨hp1, hp2⟩ := hs.pending p hpending
    have hguarded : ∀ t', (pc t').guarded ≠ some p := by
      intro t' hg
      refine hI.hazards.not_protects hin t' 0 ⟨hI.bound t' ?_, hz, hI.left t', ?_, ?_⟩
      · rw [Frame.guards_of_guarded hg]
        exact fun h => by cases h
      · exact (hI.knows t').guards p (Frame.guards_of_guarded hg)
      · exact ((hI.knows t').guarded p hg).2 hpending
    have hback : ∀ {q}, Function.update m.hazards.pending p none q ≠ none →
        q ≠ p ∧ m.hazards.pending q ≠ none := by
      intro q hq
      rcases eq_or_ne q p with rfl | hne
      · rw [Function.update_self] at hq
        exact absurd rfl hq
      · rw [Function.update_of_ne hne] at hq
        exact ⟨hne, hq⟩
    refine hI.of_step ⟨hs.linked, hs.top, hs.nodes_nodup, List.nodup_cons.mpr ⟨hp2, hs.free_nodup⟩,
      fun q hq => ?_, fun q hq => ?_, hs.lifo⟩
      ⟨fun q hq => (by cases hq), fun q hq => (by cases hq), fun q hq => (by cases hq), trivial,
        hresult⟩
      (fun t' hne => ?_) (fun q hq => by cases hq) (fun q hq => by cases hq)
      (fun q hq => by cases hq) hhazards hleft hstays' (fun h => absurd rfl h)
    · rcases List.mem_cons.mp hq with rfl | hq
      · exact hp1
      · exact hs.free q hq
    · obtain ⟨hne, hq'⟩ := hback hq
      refine ⟨(hs.pending q hq').1, fun hm => ?_⟩
      exact (hs.pending q hq').2 ((List.mem_cons.mp hm).resolve_left hne)
    · have hk' := hI.knows t'
      refine hk'.mono (fun q hq => ?_) rfl (fun q hq => ⟨fun hm => ?_, fun hn => ?_⟩)
        (fun _ _ => ⟨rfl, rfl⟩) rfl
      · obtain ⟨h1, h2, h3⟩ := hk'.has q hq
        have hne : q ≠ p := by
          rintro rfl
          exact hpending h3
        refine ⟨h1, fun hm => h2 ((List.mem_cons.mp hm).resolve_left hne), ?_⟩
        exact (Function.update_of_ne hne _ _).trans h3
      · rcases List.mem_cons.mp hm with rfl | hm
        · exact hguarded t' hq
        · exact (hk'.guarded q hq).1 hm
      · exact (hk'.guarded q hq).2 (hback hn).2
  · have hne : ∀ helped it p, f ≠ .scanFree helped it p :=
      fun helped it p he => hf ⟨helped, it, p, he⟩
    have hpending := exec_pending (z := z) (t := t) m.hazards hne
    have hfree : deletePointerCallback f m.free = m.free := by
      cases f with
      | scanFree helped it p => exact absurd rfl (hne helped it p)
      | _ => rfl
    rw [hfree]
    refine hI.of_step ⟨hs.linked, hs.top, hs.nodes_nodup, hs.free_nodup, hs.free, ?_, hs.lifo⟩
      ⟨fun q hq => (by cases hq), fun q hq => (by cases hq), fun q hq => (by cases hq), trivial,
        hresult⟩
      (fun t' _ => ?_) (fun q hq => by cases hq) (fun q hq => by cases hq)
      (fun q hq => by cases hq) hhazards hleft hstays' (fun h => absurd rfl h)
    · simp only [hpending]
      exact hs.pending
    · have hk' := hI.knows t'
      refine hk'.mono ?_ (congrFun (congrFun hguards t') 0) ?_ (fun _ _ => ⟨rfl, rfl⟩) rfl
      · simp only [hpending]
        exact hk'.has
      · simp only [hpending, hearly]
        exact hk'.guarded

/-- Every step of a thread keeps the invariant. -/
theorem exec [DecidableEq N] (hI : Inv z m pc) (hz : 0 < z.guardsPerThread) (c : Choice N E)
    (ht : t < z.hazardPointers) :
    Inv z (exec z t c (pc t) m).1 (Function.update pc t (exec z t c (pc t) m).2) := by
  have hk := hI.knows t
  generalize hc : pc t = f at hk ⊢
  have hin : (pc t).inHazards = f.inHazards := hc ▸ rfl
  cases f with
  | caller =>
    have hsame : Function.update pc t .caller = pc := by
      rw [← hc]
      exact Function.update_eq_self t pc
    cases c with
    | push e node =>
      cases node with
      | none =>
        exact hI.move hin rfl (Frame.Knows.of_nothing rfl rfl trivial fun _ h => by cases h)
          (fun _ h => by cases h) (fun _ h => by cases h) (fun _ h => by cases h)
          fun h => absurd rfl h
      | some node =>
        rw [LockFreeStack.exec]
        split
        · rename_i hfree
          exact hI.allocate hc hfree
        · simp only
          rw [hsame]
          exact hI
    | pop =>
      exact hI.move hin rfl (Frame.Knows.of_nothing rfl rfl trivial fun _ h => by cases h)
        (fun _ h => by cases h) (fun _ h => by cases h) (fun _ h => by cases h)
        fun h => absurd rfl h
  | pushLoad e node =>
    exact hI.move hin rfl ⟨hk.has, hk.guards, hk.guarded, hk.fields, fun _ h => by cases h⟩
      (fun _ h => hc ▸ h) (fun _ h => by cases h) (fun _ h => hc ▸ h) fun h => absurd rfl h
  | pushSet e node n => exact hI.setNext hc
  | pushSwap e node n =>
    rw [LockFreeStack.exec]
    split
    · rename_i htop
      exact hI.push (htop ▸ hc)
    · exact hI.move hin rfl ⟨hk.has, hk.guards, hk.guarded, hk.fields.1, fun _ h => by cases h⟩
        (fun _ h => hc ▸ h) (fun _ h => by cases h) (fun _ h => hc ▸ h) fun h => absurd rfl h
  | pushReturns result =>
    exact hI.move hin rfl (Frame.Knows.of_nothing rfl rfl trivial fun _ h => by cases h)
      (fun _ h => by cases h) (fun _ h => by cases h) (fun _ h => by cases h)
      fun h => absurd rfl h
  | popStart =>
    exact hI.move hin rfl (Frame.Knows.of_nothing rfl rfl trivial fun _ h => by cases h)
      (fun _ h => by cases h) (fun _ h => by cases h) (fun _ h => by cases h)
      fun h => absurd rfl h
  | popLoad =>
    rw [LockFreeStack.exec]
    split
    · exact hI.move hin rfl (Frame.Knows.of_nothing rfl rfl trivial fun _ h => by cases h)
        (fun _ h => by cases h) (fun _ h => by cases h) (fun _ h => by cases h)
        fun h => absurd rfl h
    · exact hI.move hin rfl (Frame.Knows.of_nothing rfl rfl trivial fun _ h => by cases h)
        (fun _ h => by cases h) (fun _ h => by cases h) (fun _ h => by cases h)
        fun h => absurd rfl h
  | popGuard node =>
    refine hI.guard (some node) hin rfl ⟨fun _ h => (by cases h), fun p hp => ?_,
      fun _ h => (by cases h), trivial, fun _ h => by cases h⟩ (fun _ h => by cases h) rfl rfl
      fun _ => ht
    obtain rfl := Option.some.inj hp
    show Function.update m.hazards.guardedPointers t (Function.update _ 0 (some node)) t 0 = _
    rw [Function.update_self, Function.update_self]
  | popValidate node =>
    rw [LockFreeStack.exec]
    split
    · exact hI.move hin rfl (Frame.Knows.of_nothing rfl rfl trivial fun _ h => by cases h)
        (fun _ h => by cases h) (fun _ h => by cases h) (fun _ h => by cases h)
        fun h => absurd rfl h
    · rename_i htop
      rw [not_not] at htop
      have hmem : node ∈ m.nodes := by
        have htop' := htop
        rw [hI.shape.top] at htop'
        exact List.mem_of_mem_head? htop'
      refine hI.move hin rfl ⟨fun _ h => (by cases h), hk.guards, fun p hp => ?_, trivial,
        fun _ h => by cases h⟩ (fun _ h => by cases h) (fun p hp => ?_) (fun _ h => by cases h)
        fun _ h => ?_
      · obtain rfl := Option.some.inj hp
        refine ⟨fun hm => hI.shape.free node hm hmem, fun hn => ?_⟩
        exact absurd hmem (hI.shape.pending node hn).1
      · obtain rfl := Option.some.inj hp
        exact Or.inr htop
      · rw [hc] at h
        cases h
  | popNext node =>
    refine hI.move hin rfl ⟨hk.has, hk.guards, hk.guarded, rfl, fun _ h => by cases h⟩
      (fun _ h => by cases h) (fun _ h => Or.inl (hc ▸ h)) (fun _ h => by cases h) fun _ h => ?_
    rw [hc] at h
    cases h
  | popSwap node n =>
    rw [LockFreeStack.exec]
    split
    · rename_i htop
      exact hI.pop hc htop
    · exact hI.move hin rfl (Frame.Knows.of_nothing rfl rfl trivial fun _ h => by cases h)
        (fun _ h => by cases h) (fun _ h => by cases h) (fun _ h => by cases h)
        fun h => absurd rfl h
  | popUnguard =>
    exact hI.guard none hin rfl (Frame.Knows.of_nothing rfl rfl trivial fun _ h => by cases h)
      (fun _ h => by cases h) rfl rfl fun h => absurd rfl h
  | popElement node =>
    exact hI.move hin rfl ⟨hk.has, hk.guards, hk.guarded, trivial, hk.result⟩
      (fun _ h => hc ▸ h) (fun _ h => by cases h) (fun _ h => by cases h) fun h => absurd rfl h
  | popRelease node e =>
    exact hI.guard none hin rfl ⟨hk.has, fun _ h => (by cases h), fun _ h => (by cases h), trivial,
      hk.result⟩ (fun _ h => hc ▸ h) rfl rfl fun h => absurd rfl h
  | popRetire node e => exact hI.retire hc
  | popHazards e frame =>
    by_cases hf : frame = .client
    · subst hf
      exact hI.move hin rfl ⟨hk.has, hk.guards, hk.guarded, trivial, hk.result⟩
        (fun _ h => by cases h) (fun _ h => by cases h) (fun _ h => by cases h)
        fun h => absurd rfl h
    · have hinside : LockFreeStack.exec z t c (.popHazards e frame) m =
          ({ m with
              hazards := (HazardPointer.exec z t frame m.hazards).1
              free := deletePointerCallback frame m.free },
            .popHazards e (HazardPointer.exec z t frame m.hazards).2) := by
        cases frame with
        | client => exact absurd rfl hf
        | _ => rfl
      rw [hinside]
      exact hI.inside hz hc
  | popReturns result =>
    exact hI.move hin rfl (Frame.Knows.of_nothing rfl rfl trivial fun _ h => by cases h)
      (fun _ h => by cases h) (fun _ h => by cases h) (fun _ h => by cases h)
      fun h => absurd rfl h

end Inv

theorem pc_boot (threads : ℕ) (ns : Nodes N) (temp : ℕ → List N) (next : N → Option N)
    (element : N → E) : (boot threads ns temp next element).pc .caller = fun _ => .caller := by
  ext t
  rw [State.pc, State.top, boot, List.getElem?_replicate]
  split <;> rfl

theorem inv_boot (threads : ℕ) (ns : Nodes N) (temp : ℕ → List N) (next : N → Option N)
    (element : N → E) :
    Inv (sizes threads) (boot threads ns temp next element).mem
      ((boot threads ns temp next element).pc .caller) := by
  rw [pc_boot]
  refine ⟨⟨trivial, rfl, List.nodup_nil, ns.nodup, fun _ _ => List.not_mem_nil,
    fun _ h => absurd rfl h, Lifo.nil⟩, fun t => ?_, fun _ _ _ h => (by cases h),
    fun _ _ _ h => (by cases h), inv_create _ temp, fun _ => rfl, fun _ => id,
    fun _ h => absurd rfl h⟩
  exact Frame.Knows.of_nothing rfl rfl trivial fun _ h => by cases h

/-- The invariant holds in every state of every run. -/
theorem inv_run [DecidableEq N] (threads : ℕ) (ns : Nodes N) (temp : ℕ → List N)
    (next : N → Option N) (element : N → E) (es : List (ℕ × Choice N E)) :
    Inv (sizes threads) (run (code (sizes threads)) (boot threads ns temp next element) es).mem
      ((run (code (sizes threads)) (boot threads ns temp next element) es).pc .caller) := by
  have hall : Always (code (sizes threads)) (fun _ _ _ _ _ => True)
      (boot threads ns temp next element) es := Always.of_forall (fun _ _ _ _ _ => trivial) _ es
  have hkeeps := hall.keeps
    (fun s e f (hs : s.callStacks.length = threads ∧
      Inv (sizes threads) s.mem (s.pc .caller)) ht _ => ?_)
    ⟨List.length_replicate, inv_boot threads ns temp next element⟩
  · exact hkeeps.2
  · have hpc : s.pc .caller e.1 = f := State.pc_of_top ht
    refine ⟨(length_step _ s e).trans hs.1, ?_⟩
    rw [pc_step (code (sizes threads)) .caller ht rfl, mem_step (code (sizes threads)) ht, ← hpc]
    exact hs.2.exec Nat.one_pos e.2 (hs.1 ▸ State.lt_of_top ht)

/-- In every state of every run, the swaps of `top` that have succeeded are a history of a stack,
and what this history leaves there are the elements of the nodes linked from `top` on; and a
call of `TryPop` returns the element that its own swap has taken from that stack. -/
theorem linearizable [DecidableEq N] (threads : ℕ) (ns : Nodes N) (temp : ℕ → List N)
    (next : N → Option N) (element : N → E) (es : List (ℕ × Choice N E)) :
    ∃ S, run (code (sizes threads)) (boot threads ns temp next element) es = S ∧
      (∃ nodes, nodes.Nodup ∧ S.mem.top = nodes.head? ∧ Linked S.mem.next nodes ∧
        Lifo S.mem.history (nodes.map S.mem.element)) ∧
      ∀ t e, S.top t = some (.popReturns (some e)) →
        lastOp t S.mem.history = some (.pop t e) := by
  have hI := inv_run threads ns temp next element es
  have hs := hI.shape
  refine ⟨_, rfl, ⟨_, hs.nodes_nodup, hs.top, hs.linked, hs.lifo⟩, fun t e ht => ?_⟩
  have hk := hI.knows t
  rw [State.pc_of_top ht] at hk
  exact hk.result e rfl

end Embb.Containers.LockFreeStack
