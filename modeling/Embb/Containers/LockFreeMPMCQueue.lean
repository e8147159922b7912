import Mathlib.Data.Multiset.AddSub
import Mathlib.Data.Multiset.Filter
import Mathlib.Data.Multiset.Range
import Embb.Lib.Linked
import Embb.Lib.Threads

/-!
# The lock-free queue

The queue of Michael and Scott: a linked list of nodes with a dummy node in front,
where `tail` may lag behind and is helped on. The threads interleave at every load,
store and compare-and-swap of `TryEnqueue` and `TryDequeue`.

Hazard pointers are taken as given. A node that a thread has guarded, and found where
it was once the guard was set, is not handed back to the object pool; this is a
condition on the steps that hand nodes back.
-/

namespace Embb.Containers.LockFreeMPMCQueue

open Threads

variable {N E : Type}

/-- The shared fields, the nodes of the object pool that are free, the nodes retired, and for
the statements the nodes from `head` on and the elements in the order in which they were
linked and unlinked. -/
structure Queue (N E : Type) where
  head : N
  tail : N
  next : N → Option N
  element : N → E
  free : List N
  retired : List N
  nodes : List N
  enqueued : List E
  dequeued : List E

/-- Where a thread is; the names are those of the variables of the source. -/
inductive Frame (N E : Type)
  /-- Outside the queue. -/
  | caller
  /-- `TryEnqueue`, at the top of its loop. -/
  | enqLoop (element : E) (node : N)
  | enqGuard (element : E) (node my_tail : N)
  /-- About to read `tail` again. -/
  | enqValidate (element : E) (node my_tail : N)
  | enqNext (element : E) (node my_tail : N)
  | enqRecheck (element : E) (node my_tail : N) (my_tail_next : Option N)
  /-- About to swap the next pointer of the last node. -/
  | enqLink (element : E) (node my_tail : N)
  /-- About to swap `tail` for another thread. -/
  | enqHelp (element : E) (node my_tail my_tail_next : N)
  /-- About to swap `tail` for the new node. -/
  | enqSwing (my_tail node : N)
  | enqReturns (result : Bool)
  /-- `TryDequeue`, at the top of its loop. -/
  | deqLoop
  | deqGuard (my_head : N)
  /-- About to read `head` again. -/
  | deqValidate (my_head : N)
  | deqTail (my_head : N)
  | deqNext (my_head my_tail : N)
  | deqGuardNext (my_head my_tail : N) (my_next : Option N)
  | deqRecheck (my_head my_tail : N) (my_next : Option N)
  /-- About to swap `tail` for another thread. -/
  | deqHelp (my_head my_next : N)
  | deqElement (my_head my_next : N)
  /-- About to swap `head`. -/
  | deqSwing (my_head my_next : N) (data : E)
  | deqRetire (my_head : N) (data : E)
  | deqReturns (result : Option E)
  deriving DecidableEq

/-- What a thread outside the queue does next. -/
inductive Choice (N E : Type)
  /-- Call `TryEnqueue`, to which the object pool gives a node or none. -/
  | enqueue (element : E) (node : Option N)
  | dequeue
  /-- Hand a retired node back to the object pool. -/
  | reclaim (node : N)

section Model

variable [DecidableEq N]

/-- One atomic step of a thread. -/
def exec (c : Choice N E) (f : Frame N E) (m : Queue N E) : Queue N E × Frame N E :=
  match f with
  | .caller =>
    match c with
    | .enqueue _ none => (m, .enqReturns false)
    | .enqueue element (some node) =>
      if node ∈ m.free then
        ({ m with
            free := m.free.erase node
            next := Function.update m.next node none
            element := Function.update m.element node element },
          .enqLoop element node)
      else (m, .caller)
    | .dequeue => (m, .deqLoop)
    | .reclaim node =>
      if node ∈ m.retired then
        ({ m with retired := m.retired.erase node, free := node :: m.free }, .caller)
      else (m, .caller)
  | .enqLoop element node => (m, .enqGuard element node m.tail)
  | .enqGuard element node my_tail => (m, .enqValidate element node my_tail)
  | .enqValidate element node my_tail =>
    if my_tail ≠ m.tail then (m, .enqLoop element node) else (m, .enqNext element node my_tail)
  | .enqNext element node my_tail => (m, .enqRecheck element node my_tail (m.next my_tail))
  | .enqRecheck element node my_tail my_tail_next =>
    if my_tail = m.tail then
      match my_tail_next with
      | none => (m, .enqLink element node my_tail)
      | some my_tail_next => (m, .enqHelp element node my_tail my_tail_next)
    else (m, .enqLoop element node)
  | .enqLink element node my_tail =>
    if m.next my_tail = none then
      ({ m with
          next := Function.update m.next my_tail (some node)
          nodes := m.nodes ++ [node]
          enqueued := m.enqueued ++ [element] },
        .enqSwing my_tail node)
    else (m, .enqLoop element node)
  | .enqHelp element node my_tail my_tail_next =>
    if m.tail = my_tail then ({ m with tail := my_tail_next }, .enqLoop element node)
    else (m, .enqLoop element node)
  | .enqSwing my_tail node =>
    if m.tail = my_tail then ({ m with tail := node }, .enqReturns true)
    else (m, .enqReturns true)
  | .enqReturns _ => (m, .caller)
  | .deqLoop => (m, .deqGuard m.head)
  | .deqGuard my_head => (m, .deqValidate my_head)
  | .deqValidate my_head =>
    if my_head ≠ m.head then (m, .deqLoop) else (m, .deqTail my_head)
  | .deqTail my_head => (m, .deqNext my_head m.tail)
  | .deqNext my_head my_tail => (m, .deqGuardNext my_head my_tail (m.next my_head))
  | .deqGuardNext my_head my_tail my_next => (m, .deqRecheck my_head my_tail my_next)
  | .deqRecheck my_head my_tail my_next =>
    if m.head ≠ my_head then (m, .deqLoop)
    else
      match my_next with
      | none => (m, .deqReturns none)
      | some my_next =>
        if my_head = my_tail then (m, .deqHelp my_head my_next)
        else (m, .deqElement my_head my_next)
  | .deqHelp my_head my_next =>
    if m.tail = my_head then ({ m with tail := my_next }, .deqLoop) else (m, .deqLoop)
  | .deqElement my_head my_next => (m, .deqSwing my_head my_next (m.element my_next))
  | .deqSwing my_head my_next data =>
    if m.head = my_head then
      ({ m with
          head := my_next
          nodes := m.nodes.tail
          dequeued := m.dequeued ++ [data] },
        .deqRetire my_head data)
    else (m, .deqLoop)
  | .deqRetire my_head data => ({ m with retired := my_head :: m.retired }, .deqReturns (some data))
  | .deqReturns _ => (m, .caller)

/-- The program of every thread. -/
def code : Code (Queue N E) (Frame N E) (Choice N E) := fun _ c f m =>
  ((exec c f m).1, [(exec c f m).2])

/-- The nodes of a new queue: the dummy node and the others of the object pool. -/
structure Nodes (N : Type) where
  dummyNode : N
  others : List N
  nodup : (dummyNode :: others).Nodup

/-- The constructor; the memory of nodes that are not constructed is arbitrary. -/
def create (ns : Nodes N) (next : N → Option N) (element : N → E) : Queue N E where
  head := ns.dummyNode
  tail := ns.dummyNode
  next := Function.update next ns.dummyNode none
  element := element
  free := ns.others
  retired := []
  nodes := [ns.dummyNode]
  enqueued := []
  dequeued := []

/-- A new queue and its threads. -/
def boot (ns : Nodes N) (next : N → Option N) (element : N → E) (threads : ℕ) :
    State (Queue N E) (Frame N E) where
  mem := create ns next element
  callStacks := List.replicate threads [.caller]

/-- The nodes that a thread has guarded and found where they were after that. -/
def Frame.guarded : Frame N E → List N
  | .enqNext _ _ my_tail => [my_tail]
  | .enqRecheck _ _ my_tail _ => [my_tail]
  | .enqLink _ _ my_tail => [my_tail]
  | .enqHelp _ _ my_tail _ => [my_tail]
  | .enqSwing my_tail _ => [my_tail]
  | .deqTail my_head => [my_head]
  | .deqNext my_head _ => [my_head]
  | .deqGuardNext my_head _ _ => [my_head]
  | .deqRecheck my_head _ _ => [my_head]
  | .deqHelp my_head my_next => [my_head, my_next]
  | .deqElement my_head my_next => [my_head, my_next]
  | .deqSwing my_head my_next _ => [my_head, my_next]
  | _ => []

/-- Hazard pointers prevent the reuse of guarded nodes. -/
def Hazards : Guard (Queue N E) (Frame N E) (Choice N E) := fun _ c f _ fs =>
  f = .caller → ∀ node, c = .reclaim node → ∀ g ∈ fs, node ∉ g.guarded

end Model

/-! ## The invariant -/

/-- The node that `TryEnqueue` has constructed and not yet linked. -/
def Frame.own : Frame N E → List (N × E)
  | .enqLoop element node => [(node, element)]
  | .enqGuard element node _ => [(node, element)]
  | .enqValidate element node _ => [(node, element)]
  | .enqNext element node _ => [(node, element)]
  | .enqRecheck element node _ _ => [(node, element)]
  | .enqLink element node _ => [(node, element)]
  | .enqHelp element node _ _ => [(node, element)]
  | _ => []

/-- The node that `TryDequeue` has unlinked and not yet retired. -/
def Frame.popped : Frame N E → List N
  | .deqRetire my_head _ => [my_head]
  | _ => []

/-- Guarded nodes whose successor a call has seen, and the successor. -/
def Frame.links : Frame N E → List (N × N)
  | .enqRecheck _ _ my_tail (some my_tail_next) => [(my_tail, my_tail_next)]
  | .enqHelp _ _ my_tail my_tail_next => [(my_tail, my_tail_next)]
  | .enqSwing my_tail node => [(my_tail, node)]
  | .deqGuardNext my_head _ (some my_next) => [(my_head, my_next)]
  | .deqRecheck my_head _ (some my_next) => [(my_head, my_next)]
  | .deqHelp my_head my_next => [(my_head, my_next)]
  | .deqElement my_head my_next => [(my_head, my_next)]
  | .deqSwing my_head my_next _ => [(my_head, my_next)]
  | _ => []

/-- The guarded node that a call of `TryDequeue` has found to be the first. -/
def Frame.first : Frame N E → List N
  | .deqTail my_head => [my_head]
  | .deqNext my_head _ => [my_head]
  | .deqGuardNext my_head _ _ => [my_head]
  | .deqRecheck my_head _ _ => [my_head]
  | .deqHelp my_head _ => [my_head]
  | .deqElement my_head _ => [my_head]
  | .deqSwing my_head _ _ => [my_head]
  | _ => []

/-- What a call of `TryDequeue` knows not to be the tail while it is the first node. -/
def Frame.Ahead (p : N) : Frame N E → Prop
  | .deqNext my_head my_tail => p = my_head ∧ my_head ≠ my_tail
  | .deqGuardNext my_head my_tail _ => p = my_head ∧ my_head ≠ my_tail
  | .deqRecheck my_head my_tail _ => p = my_head ∧ my_head ≠ my_tail
  | .deqElement my_head _ => p = my_head
  | .deqSwing my_head _ _ => p = my_head
  | _ => False

/-- The element that a call of `TryDequeue` has read from a guarded node. -/
def Frame.data : Frame N E → List (N × E)
  | .deqSwing _ my_next data => [(my_next, data)]
  | _ => []

/-- The nodes that were linked and have not been handed back since. -/
def used (m : Queue N E) (fs : Multiset (Frame N E)) : Multiset N :=
  m.nodes + (m.retired + gather Frame.popped fs)

/-- The nodes that are free or not yet linked. -/
def fresh (m : Queue N E) (fs : Multiset (Frame N E)) : Multiset N :=
  m.free + gather (fun f => f.own.map Prod.fst) fs

/-- What the owner of a frame can rely on, where `u` are the nodes in use. -/
structure Frame.Knows (m : Queue N E) (u : Multiset N) (f : Frame N E) : Prop where
  own : ∀ q ∈ f.own, m.next q.1 = none ∧ m.element q.1 = q.2
  guarded : ∀ p ∈ f.guarded, p ∈ u
  links : ∀ q ∈ f.links, m.next q.1 = some q.2
  first : ∀ p ∈ f.first, p ∈ m.nodes → m.head = p
  ahead : ∀ p, f.Ahead p → p ∈ m.nodes → m.tail ≠ p
  data : ∀ q ∈ f.data, m.element q.1 = q.2

/-- The nodes are linked from `head` on, with `tail` among them; every node has one place; the
linked elements are those unlinked and those still in the list. -/
structure Inv (m : Queue N E) (fs : Multiset (Frame N E)) : Prop where
  linked : Linked m.next m.nodes
  head : m.nodes.head? = some m.head
  tail : m.tail ∈ m.nodes
  nodup : (used m fs + fresh m fs).Nodup
  last : ∀ p ∈ used m fs, m.next p = none → p ∈ m.nodes
  knows : ∀ f ∈ fs, f.Knows m (used m fs)
  log : m.enqueued = m.dequeued ++ m.nodes.tail.map m.element

theorem Frame.mem_guarded_of_links {f : Frame N E} {q : N × N} (h : q ∈ f.links) :
    q.1 ∈ f.guarded := by
  cases f with
  | enqRecheck e p t n =>
    cases n with
    | none => exact absurd h List.not_mem_nil
    | some n =>
      obtain rfl := List.mem_singleton.mp h
      exact List.mem_singleton_self _
  | deqGuardNext p t n =>
    cases n with
    | none => exact absurd h List.not_mem_nil
    | some n =>
      obtain rfl := List.mem_singleton.mp h
      exact List.mem_singleton_self _
  | deqRecheck p t n =>
    cases n with
    | none => exact absurd h List.not_mem_nil
    | some n =>
      obtain rfl := List.mem_singleton.mp h
      exact List.mem_singleton_self _
  | _ =>
    first
    | exact absurd h List.not_mem_nil
    | obtain rfl := List.mem_singleton.mp h
      exact List.mem_cons_self

theorem Frame.mem_guarded_of_first {f : Frame N E} {p : N} (h : p ∈ f.first) :
    p ∈ f.guarded := by
  cases f with
  | deqHelp a b =>
    obtain rfl := List.mem_singleton.mp h
    exact List.mem_cons_self
  | deqElement a b =>
    obtain rfl := List.mem_singleton.mp h
    exact List.mem_cons_self
  | deqSwing a b d =>
    obtain rfl := List.mem_singleton.mp h
    exact List.mem_cons_self
  | _ =>
    first
    | exact absurd h List.not_mem_nil
    | exact h

theorem Frame.mem_first_of_ahead {f : Frame N E} {p : N} (h : f.Ahead p) : p ∈ f.first := by
  cases f with
  | deqNext a b => exact List.mem_singleton.mpr h.1
  | deqGuardNext a b c => exact List.mem_singleton.mpr h.1
  | deqRecheck a b c => exact List.mem_singleton.mpr h.1
  | deqElement a b => exact List.mem_singleton.mpr h
  | deqSwing a b d => exact List.mem_singleton.mpr h
  | _ => exact h.elim

theorem Frame.mem_guarded_of_data {f : Frame N E} {q : N × E} (h : q ∈ f.data) :
    q.1 ∈ f.guarded := by
  cases f with
  | deqSwing a b d =>
    obtain rfl := List.mem_singleton.mp h
    exact List.mem_cons_of_mem a (List.mem_singleton_self b)
  | _ => exact absurd h List.not_mem_nil

/-- What a thread knows stays so where the nodes it has guarded stay in use, used nodes keep
their successor and their element, and the first node only gives way. -/
theorem Frame.Knows.mono {f : Frame N E} {m m' : Queue N E} {u u' : Multiset N}
    (h : f.Knows m u) (hown : ∀ q ∈ f.own, m'.next q.1 = m.next q.1 ∧
      m'.element q.1 = m.element q.1) (hguarded : ∀ p ∈ f.guarded, p ∈ u → p ∈ u')
    (hnext : ∀ p ∈ u, ∀ q, m.next p = some q → m'.next p = some q)
    (helement : ∀ p ∈ u, m'.element p = m.element p)
    (hnodes : ∀ p ∈ u, p ∈ m'.nodes →
      p ∈ m.nodes ∧ (m.head = p → m'.head = p ∧ (m.tail ≠ p → m'.tail ≠ p))) :
    f.Knows m' u' where
  own q hq := by
    rw [(hown q hq).1, (hown q hq).2]
    exact h.own q hq
  guarded p hp := hguarded p hp (h.guarded p hp)
  links q hq := hnext q.1 (h.guarded q.1 (mem_guarded_of_links hq)) q.2 (h.links q hq)
  first p hp hm := by
    obtain ⟨hmem, hhead⟩ := hnodes p (h.guarded p (mem_guarded_of_first hp)) hm
    exact (hhead (h.first p hp hmem)).1
  ahead p hp hm := by
    have hfirst := mem_first_of_ahead hp
    obtain ⟨hmem, hhead⟩ := hnodes p (h.guarded p (mem_guarded_of_first hfirst)) hm
    exact (hhead (h.first p hfirst hmem)).2 (h.ahead p hp hmem)
  data q hq := by
    rw [helement q.1 (h.guarded q.1 (mem_guarded_of_data hq))]
    exact h.data q hq

theorem used_cons (m : Queue N E) (f : Frame N E) (fs : Multiset (Frame N E)) :
    used m (f ::ₘ fs) = f.popped + used m fs := by
  rw [used, used, gather_cons]
  simp only [add_left_comm]

theorem fresh_cons (m : Queue N E) (f : Frame N E) (fs : Multiset (Frame N E)) :
    fresh m (f ::ₘ fs) = (f.own.map Prod.fst : List N) + fresh m fs := by
  rw [fresh, fresh, gather_cons, add_left_comm]

/-- A thread that has guarded nothing knows at most about the node that it owns. -/
theorem Frame.Knows.of_own {f : Frame N E} {m : Queue N E} {u : Multiset N}
    (ho : ∀ q ∈ f.own, m.next q.1 = none ∧ m.element q.1 = q.2) (hg : f.guarded = []) :
    f.Knows m u where
  own := ho
  guarded _ hp := absurd (hg ▸ hp) List.not_mem_nil
  links _ hq := absurd (hg ▸ mem_guarded_of_links hq) List.not_mem_nil
  first _ hp := absurd (hg ▸ mem_guarded_of_first hp) List.not_mem_nil
  ahead _ hp := absurd (hg ▸ mem_guarded_of_first (mem_first_of_ahead hp)) List.not_mem_nil
  data _ hq := absurd (hg ▸ mem_guarded_of_data hq) List.not_mem_nil

/-- A thread that has guarded nothing and constructed nothing knows nothing. -/
theorem Frame.Knows.of_nil {f : Frame N E} {m : Queue N E} {u : Multiset N} (ho : f.own = [])
    (hg : f.guarded = []) : f.Knows m u :=
  of_own (fun _ hq => absurd (ho ▸ hq) List.not_mem_nil) hg

/-- A call of `TryEnqueue` knows about its own node and the tail that it has guarded. -/
theorem Frame.Knows.of_links {f : Frame N E} {m : Queue N E} {u : Multiset N}
    (ho : ∀ q ∈ f.own, m.next q.1 = none ∧ m.element q.1 = q.2) (hg : ∀ p ∈ f.guarded, p ∈ u)
    (hl : ∀ q ∈ f.links, m.next q.1 = some q.2) (hf : f.first = []) (hd : f.data = []) :
    f.Knows m u where
  own := ho
  guarded := hg
  links := hl
  first _ hp := absurd (hf ▸ hp) List.not_mem_nil
  ahead _ hp := absurd (hf ▸ mem_first_of_ahead hp) List.not_mem_nil
  data _ hq := absurd (hd ▸ hq) List.not_mem_nil

namespace Inv

variable {m : Queue N E} {f f' : Frame N E} {others : Multiset (Frame N E)}

theorem top (h : Inv m (f ::ₘ others)) : f.Knows m (used m (f ::ₘ others)) :=
  h.knows f (Multiset.mem_cons_self f others)

theorem nodes_used (_ : Inv m (f ::ₘ others)) {p : N} (hp : p ∈ m.nodes) :
    p ∈ used m (f ::ₘ others) :=
  Multiset.mem_add.mpr (Or.inl hp)

theorem nodup_nodes (h : Inv m (f ::ₘ others)) : m.nodes.Nodup :=
  Multiset.coe_nodup.mp
    (Multiset.nodup_of_le ((Multiset.le_add_right _ _).trans (Multiset.le_add_right _ _)) h.nodup)

/-- A used node is not fresh. -/
theorem not_fresh (h : Inv m (f ::ₘ others)) {p : N} (hp : p ∈ used m (f ::ₘ others)) :
    p ∉ fresh m (f ::ₘ others) := fun hf =>
  (Multiset.nodup_add.mp h.nodup).2.2 |> fun hd => Multiset.disjoint_left.mp hd hp hf

theorem head_mem (h : Inv m (f ::ₘ others)) : m.head ∈ m.nodes :=
  List.mem_of_mem_head? h.head

theorem nodes_eq (h : Inv m (f ::ₘ others)) : m.nodes = m.head :: m.nodes.tail := by
  obtain ⟨l, hl⟩ := List.head?_eq_some_iff.mp h.head
  rw [hl, List.tail_cons]

/-- The successor of a linked node comes after the first node. -/
theorem next_mem (h : Inv m (f ::ₘ others)) {a b : N} (ha : a ∈ m.nodes)
    (hab : m.next a = some b) : b ∈ m.nodes.tail := by
  have hl := h.linked
  rw [h.nodes_eq] at hl ha
  exact hl.next_mem ha hab

theorem head_not_tail (h : Inv m (f ::ₘ others)) : m.head ∉ m.nodes.tail := by
  have hd := h.nodup_nodes
  rw [h.nodes_eq] at hd
  exact (List.nodup_cons.mp hd).1

/-- A step that changes no shared field. -/
theorem move (h : Inv m (f ::ₘ others)) (hp : f'.popped = f.popped)
    (ho : f'.own.map Prod.fst = f.own.map Prod.fst)
    (hk : f'.Knows m (used m (f ::ₘ others))) : Inv m (f' ::ₘ others) := by
  have hu : used m (f' ::ₘ others) = used m (f ::ₘ others) := by
    rw [used_cons, used_cons, hp]
  have hf : fresh m (f' ::ₘ others) = fresh m (f ::ₘ others) := by
    rw [fresh_cons, fresh_cons, ho]
  refine ⟨h.linked, h.head, h.tail, ?_, ?_, ?_, h.log⟩
  · rw [hu, hf]
    exact h.nodup
  · rw [hu]
    exact h.last
  · rw [hu]
    intro g hg
    rcases Multiset.mem_cons.mp hg with rfl | hg
    · exact hk
    · exact h.knows g (Multiset.mem_cons_of_mem hg)

/-- The tail is swapped for its successor. -/
theorem swing (h : Inv m (f ::ₘ others)) (hp : f'.popped = f.popped)
    (ho : f'.own.map Prod.fst = f.own.map Prod.fst) {a b : N} (ht : m.tail = a)
    (hab : m.next a = some b)
    (hk : f'.Knows { m with tail := b } (used m (f ::ₘ others))) :
    Inv { m with tail := b } (f' ::ₘ others) := by
  have hu : used { m with tail := b } (f' ::ₘ others) = used m (f ::ₘ others) := by
    rw [used_cons, used_cons, hp]
    rfl
  have hf : fresh { m with tail := b } (f' ::ₘ others) = fresh m (f ::ₘ others) := by
    rw [fresh_cons, fresh_cons, ho]
    rfl
  have hb : b ∈ m.nodes.tail := h.next_mem (ht ▸ h.tail) hab
  refine ⟨h.linked, h.head, List.mem_of_mem_tail hb, ?_, ?_, ?_, h.log⟩
  · rw [hu, hf]
    exact h.nodup
  · rw [hu]
    exact h.last
  · rw [hu]
    intro g hg
    rcases Multiset.mem_cons.mp hg with rfl | hg
    · exact hk
    · refine (h.knows g (Multiset.mem_cons_of_mem hg)).mono (fun _ _ => ⟨rfl, rfl⟩)
        (fun _ _ hm => hm) (fun _ _ _ hn => hn) (fun _ _ => rfl) fun p _ hm => ⟨hm, fun hhead =>
          ⟨hhead, fun _ hbp => ?_⟩⟩
      have hbp' : b = p := hbp
      exact h.head_not_tail (hhead ▸ hbp' ▸ hb)

/-- The node that a call owns is fresh, and has no successor yet. -/
theorem own_fresh {g : Frame N E} {fs : Multiset (Frame N E)} (hg : g ∈ fs) {q : N × E}
    (hq : q ∈ g.own) : q.1 ∈ fresh m fs :=
  Multiset.mem_add.mpr (Or.inr (mem_gather.mpr ⟨g, hg, List.mem_map_of_mem hq⟩))

/-- A node is linked behind the last one. -/
theorem link [DecidableEq N] {element : E} {node my_tail : N}
    (h : Inv m (.enqLink element node my_tail ::ₘ others)) (hn : m.next my_tail = none) :
    Inv { m with
        next := Function.update m.next my_tail (some node)
        nodes := m.nodes ++ [node]
        enqueued := m.enqueued ++ [element] }
      (.enqSwing my_tail node ::ₘ others) := by
  have hmine : (node, element) ∈ (Frame.enqLink element node my_tail).own :=
    List.mem_singleton_self _
  obtain ⟨hnode, helement⟩ := h.top.own _ hmine
  have htused := h.top.guarded my_tail (List.mem_singleton_self _)
  have hfresh : node ∈ fresh m (.enqLink element node my_tail ::ₘ others) :=
    own_fresh (Multiset.mem_cons_self _ _) hmine
  have hne : ∀ {p}, p ∈ used m (.enqLink element node my_tail ::ₘ others) → p ≠ node :=
    fun hp he => h.not_fresh hp (he ▸ hfresh)
  obtain ⟨l, hl⟩ := h.linked.eq_concat (h.last my_tail htused hn) hn
  generalize hm' : ({ m with
        next := Function.update m.next my_tail (some node)
        nodes := m.nodes ++ [node]
        enqueued := m.enqueued ++ [element] } : Queue N E) = m'
  have hnext : m'.next = Function.update m.next my_tail (some node) := by rw [← hm']
  have hnodes : m'.nodes = m.nodes ++ [node] := by rw [← hm']
  have helements : m'.element = m.element := by rw [← hm']
  have hheads : m'.head = m.head := by rw [← hm']
  have htails : m'.tail = m.tail := by rw [← hm']
  have hu : used m' (.enqSwing my_tail node ::ₘ others) =
      node ::ₘ used m (.enqLink element node my_tail ::ₘ others) := by
    rw [used_cons, used_cons, used, used, hnodes, ← hm', ← Multiset.coe_add]
    show 0 + ((m.nodes : Multiset N) + {node} + _) = node ::ₘ (0 + ((m.nodes : Multiset N) + _))
    rw [zero_add, zero_add, add_right_comm, Multiset.add_comm, Multiset.singleton_add]
  refine ⟨?_, ?_, ?_, ?_, ?_, ?_, ?_⟩
  · rw [hnext, hnodes]
    have hlinked := h.linked
    have hd := h.nodup_nodes
    have hnew : node ∉ m.nodes := fun hm => hne (h.nodes_used hm) rfl
    rw [hl] at hlinked hd hnew ⊢
    exact hlinked.concat hd hnew hnode
  · rw [hnodes, hheads, List.head?_append, h.head]
    rfl
  · rw [hnodes, htails]
    exact List.mem_append_left _ h.tail
  · have hd := h.nodup
    rw [hu]
    have hf : fresh m (.enqLink element node my_tail ::ₘ others) =
        node ::ₘ fresh m' (.enqSwing my_tail node ::ₘ others) := by
      rw [fresh_cons, fresh_cons, ← hm']
      show ({node} : Multiset N) + fresh m others = node ::ₘ (0 + fresh m others)
      rw [Multiset.singleton_add, zero_add]
    rw [hf, Multiset.add_cons] at hd
    rw [Multiset.cons_add]
    exact hd
  · intro p hp hpn
    rw [hnodes]
    rw [hu] at hp
    rcases Multiset.mem_cons.mp hp with rfl | hp
    · exact List.mem_append_right _ (List.mem_singleton_self p)
    · refine List.mem_append_left _ (h.last p hp ?_)
      rw [hnext] at hpn
      rcases eq_or_ne p my_tail with rfl | hpt
      · rw [Function.update_self] at hpn
        cases hpn
      · rwa [Function.update_of_ne hpt] at hpn
  · rw [hu]
    intro g hg
    rcases Multiset.mem_cons.mp hg with rfl | hg
    · refine ⟨?_, ?_, ?_, ?_, ?_, ?_⟩
      · exact fun q hq => absurd hq List.not_mem_nil
      · intro p hp
        obtain rfl := List.mem_singleton.mp hp
        exact Multiset.mem_cons_of_mem htused
      · intro q hq
        obtain rfl := List.mem_singleton.mp hq
        rw [hnext]
        exact Function.update_self ..
      · exact fun p hp => absurd hp List.not_mem_nil
      · exact fun p hp => hp.elim
      · exact fun q hq => absurd hq List.not_mem_nil
    · have hg' : g ∈ .enqLink element node my_tail ::ₘ others := Multiset.mem_cons_of_mem hg
      refine (h.knows g hg').mono (fun q hq => ?_)
        (fun p _ hp => Multiset.mem_cons_of_mem hp) (fun p _ q hpq => ?_)
        (fun p _ => by rw [helements]) fun p hp hm => ?_
      · rw [hnext, helements]
        refine ⟨Function.update_of_ne (fun he => h.not_fresh htused ?_) _ _, rfl⟩
        have hq' := own_fresh (m := m) hg' hq
        rwa [he] at hq'
      · rw [hnext, Function.update_of_ne, hpq]
        rintro rfl
        rw [hn] at hpq
        cases hpq
      · rw [hnodes] at hm
        rw [hheads, htails]
        rcases List.mem_append.mp hm with hm | hm
        · exact ⟨hm, fun hh => ⟨hh, id⟩⟩
        · exact absurd (List.mem_singleton.mp hm) (hne hp)
  · rw [hnodes, helements, ← hm']
    have htail : (m.nodes ++ [node]).tail = m.nodes.tail ++ [node] := by
      rw [h.nodes_eq]
      rfl
    rw [htail, List.map_append, ← List.append_assoc, ← h.log]
    show m.enqueued ++ [element] = m.enqueued ++ [m.element node]
    rw [helement]

/-- The first node is unlinked. -/
theorem pop {my_head my_next : N} {data : E}
    (h : Inv m (.deqSwing my_head my_next data ::ₘ others)) (hh : m.head = my_head) :
    Inv { m with
        head := my_next
        nodes := m.nodes.tail
        dequeued := m.dequeued ++ [data] }
      (.deqRetire my_head data ::ₘ others) := by
  subst hh
  have hlink : m.next m.head = some my_next := h.top.links _ (List.mem_singleton_self _)
  have hdata : m.element my_next = data := h.top.data _ (List.mem_singleton_self _)
  have htail : m.tail ≠ m.head := h.top.ahead m.head rfl h.head_mem
  have hnodes := h.nodes_eq
  have hlinked := h.linked
  rw [hnodes] at hlinked
  have hhead : m.nodes.tail.head? = some my_next := hlinked.1.symm.trans hlink
  have hu : used { m with
        head := my_next
        nodes := m.nodes.tail
        dequeued := m.dequeued ++ [data] } (.deqRetire m.head data ::ₘ others) =
      used m (.deqSwing m.head my_next data ::ₘ others) := by
    rw [used_cons, used_cons, used, used]
    show ({m.head} : Multiset N) + ((m.nodes.tail : Multiset N) + _) =
      0 + ((m.nodes : Multiset N) + _)
    rw [zero_add, ← add_assoc, Multiset.singleton_add, Multiset.cons_coe, ← hnodes]
  have hf : fresh { m with
        head := my_next
        nodes := m.nodes.tail
        dequeued := m.dequeued ++ [data] } (.deqRetire m.head data ::ₘ others) =
      fresh m (.deqSwing m.head my_next data ::ₘ others) := by
    rw [fresh_cons, fresh_cons]
    rfl
  refine ⟨hlinked.2, hhead, ?_, ?_, ?_, ?_, ?_⟩
  · have hm := h.tail
    rw [hnodes] at hm
    exact (List.mem_cons.mp hm).resolve_left htail
  · rw [hu, hf]
    exact h.nodup
  · rw [hu]
    intro p hp hpn
    have hm := h.last p hp hpn
    rw [hnodes] at hm
    refine (List.mem_cons.mp hm).resolve_left ?_
    rintro rfl
    rw [hlink] at hpn
    cases hpn
  · rw [hu]
    intro g hg
    rcases Multiset.mem_cons.mp hg with rfl | hg
    · exact Frame.Knows.of_nil rfl rfl
    · refine (h.knows g (Multiset.mem_cons_of_mem hg)).mono (fun _ _ => ⟨rfl, rfl⟩)
        (fun _ _ hp => hp) (fun _ _ _ hn => hn) (fun _ _ => rfl) fun p _ hm => ?_
      refine ⟨List.mem_of_mem_tail hm, fun hp => ?_⟩
      exact absurd (hp ▸ hm) h.head_not_tail
  · obtain ⟨rest, hrest⟩ := List.head?_eq_some_iff.mp hhead
    have hlog := h.log
    rw [hrest, List.map_cons, hdata] at hlog
    show m.enqueued = (m.dequeued ++ [data]) ++ m.nodes.tail.tail.map m.element
    rw [hrest, List.tail_cons, List.append_assoc]
    exact hlog

/-- An unlinked node is retired. -/
theorem retire {my_head : N} {data : E} (h : Inv m (.deqRetire my_head data ::ₘ others)) :
    Inv { m with retired := my_head :: m.retired } (.deqReturns (some data) ::ₘ others) := by
  have hu : used { m with retired := my_head :: m.retired }
      (.deqReturns (some data) ::ₘ others) = used m (.deqRetire my_head data ::ₘ others) := by
    rw [used_cons, used_cons, used, used]
    show 0 + ((m.nodes : Multiset N) + ((my_head ::ₘ (m.retired : Multiset N)) + _)) =
      ({my_head} : Multiset N) + ((m.nodes : Multiset N) + _)
    rw [zero_add, Multiset.cons_add, Multiset.add_cons, Multiset.singleton_add]
  have hf : fresh { m with retired := my_head :: m.retired }
      (.deqReturns (some data) ::ₘ others) = fresh m (.deqRetire my_head data ::ₘ others) := by
    rw [fresh_cons, fresh_cons]
    rfl
  refine ⟨h.linked, h.head, h.tail, ?_, ?_, ?_, h.log⟩
  · rw [hu, hf]
    exact h.nodup
  · rw [hu]
    exact h.last
  · rw [hu]
    intro g hg
    rcases Multiset.mem_cons.mp hg with rfl | hg
    · exact Frame.Knows.of_nil rfl rfl
    · exact (h.knows g (Multiset.mem_cons_of_mem hg)).mono (fun _ _ => ⟨rfl, rfl⟩)
        (fun _ _ hp => hp) (fun _ _ _ hn => hn) (fun _ _ => rfl)
        fun p _ hm => ⟨hm, fun hp => ⟨hp, id⟩⟩

/-- The object pool gives a node, which is constructed. -/
theorem allocate [DecidableEq N] {node : N} {element : E} (h : Inv m (.caller ::ₘ others))
    (hfree : node ∈ m.free) :
    Inv { m with
        free := m.free.erase node
        next := Function.update m.next node none
        element := Function.update m.element node element }
      (.enqLoop element node ::ₘ others) := by
  have hfresh : node ∈ fresh m (.caller ::ₘ others) :=
    Multiset.mem_add.mpr (Or.inl (Multiset.mem_coe.mpr hfree))
  have hne : ∀ {p}, p ∈ used m (.caller ::ₘ others) → p ≠ node :=
    fun hp he => h.not_fresh hp (he ▸ hfresh)
  have hf : fresh m (.caller ::ₘ others) =
      node ::ₘ ((m.free.erase node : Multiset N) +
        gather (fun f => f.own.map Prod.fst) others) := by
    rw [fresh_cons, fresh, ← Multiset.cons_add, ← Multiset.coe_erase, Multiset.cons_erase hfree]
    exact zero_add _
  have hother : ∀ g ∈ others, ∀ q ∈ g.own, q.1 ≠ node := by
    rintro g hg q hq rfl
    have hd := (Multiset.nodup_add.mp h.nodup).2.1
    rw [hf] at hd
    exact (Multiset.nodup_cons.mp hd).1
      (Multiset.mem_add.mpr (Or.inr (mem_gather.mpr ⟨g, hg, List.mem_map_of_mem hq⟩)))
  have hu : used { m with
        free := m.free.erase node
        next := Function.update m.next node none
        element := Function.update m.element node element } (.enqLoop element node ::ₘ others) =
      used m (.caller ::ₘ others) := by
    rw [used_cons, used_cons]
    rfl
  refine ⟨h.linked.congr fun a ha => Function.update_of_ne (hne (h.nodes_used ha)) _ _, h.head,
    h.tail, ?_, ?_, ?_, ?_⟩
  · have hd := h.nodup
    have hf' : fresh { m with
        free := m.free.erase node
        next := Function.update m.next node none
        element := Function.update m.element node element } (.enqLoop element node ::ₘ others) =
        fresh m (.caller ::ₘ others) := by
      rw [hf, fresh_cons]
      rfl
    rw [hu, hf']
    exact hd
  · rw [hu]
    intro p hp hpn
    exact h.last p hp ((Function.update_of_ne (hne hp) _ _).symm.trans hpn)
  · rw [hu]
    intro g hg
    rcases Multiset.mem_cons.mp hg with rfl | hg
    · refine ⟨?_, ?_, ?_, ?_, ?_, ?_⟩
      · intro q hq
        obtain rfl := List.mem_singleton.mp hq
        exact ⟨Function.update_self .., Function.update_self ..⟩
      · exact fun p hp => absurd hp List.not_mem_nil
      · exact fun q hq => absurd hq List.not_mem_nil
      · exact fun p hp => absurd hp List.not_mem_nil
      · exact fun p hp => hp.elim
      · exact fun q hq => absurd hq List.not_mem_nil
    · refine (h.knows g (Multiset.mem_cons_of_mem hg)).mono (fun q hq => ?_)
        (fun _ _ hp => hp) (fun p hp q hn => ?_) (fun p hp => ?_)
        fun p _ hm => ⟨hm, fun hp => ⟨hp, id⟩⟩
      · exact ⟨Function.update_of_ne (hother g hg q hq) _ _,
          Function.update_of_ne (hother g hg q hq) _ _⟩
      · exact (Function.update_of_ne (hne hp) _ _).trans hn
      · exact Function.update_of_ne (hne hp) _ _
  · show m.enqueued = m.dequeued ++ m.nodes.tail.map (Function.update m.element node element)
    rw [h.log]
    refine congrArg _ (List.map_congr_left fun p hp => ?_)
    exact (Function.update_of_ne (hne (h.nodes_used (List.mem_of_mem_tail hp))) _ _).symm

/-- A retired node that nobody has guarded is handed back. -/
theorem reclaim [DecidableEq N] {node : N} (h : Inv m (.caller ::ₘ others))
    (hretired : node ∈ m.retired) (hg : ∀ g ∈ others, node ∉ g.guarded) :
    Inv { m with retired := m.retired.erase node, free := node :: m.free }
      (.caller ::ₘ others) := by
  have hu : used m (.caller ::ₘ others) =
      node ::ₘ used { m with retired := m.retired.erase node, free := node :: m.free }
        (.caller ::ₘ others) := by
    rw [used_cons, used_cons, used, used]
    show 0 + ((m.nodes : Multiset N) + ((m.retired : Multiset N) + _)) =
      node ::ₘ (0 + ((m.nodes : Multiset N) + ((m.retired.erase node : Multiset N) + _)))
    rw [zero_add, zero_add, ← Multiset.add_cons, ← Multiset.cons_add, ← Multiset.coe_erase,
      Multiset.cons_erase (Multiset.mem_coe.mpr hretired)]
  refine ⟨h.linked, h.head, h.tail, ?_, ?_, ?_, h.log⟩
  · have hd := h.nodup
    rw [hu, Multiset.cons_add] at hd
    have hf : fresh { m with retired := m.retired.erase node, free := node :: m.free }
        (.caller ::ₘ others) = node ::ₘ fresh m (.caller ::ₘ others) := by
      rw [fresh_cons, fresh_cons, fresh, fresh]
      show 0 + ((node ::ₘ (m.free : Multiset N)) + _) = node ::ₘ (0 + ((m.free : Multiset N) + _))
      rw [zero_add, zero_add, Multiset.cons_add]
    rw [hf, Multiset.add_cons]
    exact hd
  · intro p hp hpn
    exact h.last p (hu ▸ Multiset.mem_cons_of_mem hp) hpn
  · intro g hg'
    rcases Multiset.mem_cons.mp hg' with rfl | hg'
    · exact Frame.Knows.of_nil rfl rfl
    · refine (h.knows g (Multiset.mem_cons_of_mem hg')).mono (fun _ _ => ⟨rfl, rfl⟩)
        (fun p hp hm => ?_) (fun _ _ _ hn => hn) (fun _ _ => rfl)
        fun p _ hm => ⟨hm, fun hp => ⟨hp, id⟩⟩
      rw [hu] at hm
      refine (Multiset.mem_cons.mp hm).resolve_left ?_
      rintro rfl
      exact hg g hg' hp

/-- Every step of a thread keeps the invariant, if nodes handed back are not guarded. -/
theorem exec [DecidableEq N] (h : Inv m (f ::ₘ others)) (c : Choice N E)
    (hg : f = .caller → ∀ node, c = .reclaim node → ∀ g ∈ others, node ∉ g.guarded) :
    Inv (exec c f m).1 ((exec c f m).2 ::ₘ others) := by
  have hk := h.top
  cases f with
  | caller =>
    cases c with
    | enqueue element node =>
      cases node with
      | none => exact h.move rfl rfl (Frame.Knows.of_nil rfl rfl)
      | some node =>
        rw [LockFreeMPMCQueue.exec]
        split
        · rename_i hfree
          exact h.allocate hfree
        · exact h
    | dequeue => exact h.move rfl rfl (Frame.Knows.of_nil rfl rfl)
    | reclaim node =>
      rw [LockFreeMPMCQueue.exec]
      split
      · rename_i hretired
        exact h.reclaim hretired (hg rfl node rfl)
      · exact h
  | enqLoop element node => exact h.move rfl rfl (Frame.Knows.of_own hk.own rfl)
  | enqGuard element node my_tail => exact h.move rfl rfl (Frame.Knows.of_own hk.own rfl)
  | enqValidate element node my_tail =>
    rw [LockFreeMPMCQueue.exec]
    split
    · exact h.move rfl rfl (Frame.Knows.of_own hk.own rfl)
    · rename_i htail
      obtain rfl := not_not.mp htail
      refine h.move rfl rfl (Frame.Knows.of_links hk.own (fun p hp => ?_)
        (fun q hq => absurd hq List.not_mem_nil) rfl rfl)
      rw [List.mem_singleton.mp hp]
      exact h.nodes_used h.tail
  | enqNext element node my_tail =>
    refine h.move rfl rfl (Frame.Knows.of_links hk.own hk.guarded (fun q hq => ?_) rfl rfl)
    change q ∈ (Frame.enqRecheck element node my_tail (m.next my_tail)).links at hq
    cases hn : m.next my_tail with
    | none =>
      rw [hn] at hq
      exact absurd hq List.not_mem_nil
    | some my_tail_next =>
      rw [hn] at hq
      rw [List.mem_singleton.mp hq]
      exact hn
  | enqRecheck element node my_tail my_tail_next =>
    cases my_tail_next with
    | none =>
      rw [LockFreeMPMCQueue.exec]
      split
      · exact h.move rfl rfl (Frame.Knows.of_links hk.own hk.guarded
          (fun q hq => absurd hq List.not_mem_nil) rfl rfl)
      · exact h.move rfl rfl (Frame.Knows.of_own hk.own rfl)
    | some my_tail_next =>
      rw [LockFreeMPMCQueue.exec]
      split
      · exact h.move rfl rfl (Frame.Knows.of_links hk.own hk.guarded hk.links rfl rfl)
      · exact h.move rfl rfl (Frame.Knows.of_own hk.own rfl)
  | enqLink element node my_tail =>
    rw [LockFreeMPMCQueue.exec]
    split
    · rename_i hn
      exact h.link hn
    · exact h.move rfl rfl (Frame.Knows.of_own hk.own rfl)
  | enqHelp element node my_tail my_tail_next =>
    rw [LockFreeMPMCQueue.exec]
    split
    · rename_i ht
      refine h.swing ?_ ?_ ht (hk.links _ (List.mem_singleton_self _)) ?_
      · rfl
      · rfl
      · exact Frame.Knows.of_own hk.own rfl
    · exact h.move rfl rfl (Frame.Knows.of_own hk.own rfl)
  | enqSwing my_tail node =>
    rw [LockFreeMPMCQueue.exec]
    split
    · rename_i ht
      refine h.swing ?_ ?_ ht (hk.links _ (List.mem_singleton_self _)) ?_
      · rfl
      · rfl
      · exact Frame.Knows.of_nil rfl rfl
    · exact h.move rfl rfl (Frame.Knows.of_nil rfl rfl)
  | enqReturns result => exact h.move rfl rfl (Frame.Knows.of_nil rfl rfl)
  | deqLoop => exact h.move rfl rfl (Frame.Knows.of_nil rfl rfl)
  | deqGuard my_head => exact h.move rfl rfl (Frame.Knows.of_nil rfl rfl)
  | deqValidate my_head =>
    rw [LockFreeMPMCQueue.exec]
    split
    · exact h.move rfl rfl (Frame.Knows.of_nil rfl rfl)
    · rename_i hhead
      obtain rfl := not_not.mp hhead
      refine h.move rfl rfl ⟨hk.own, fun p hp => ?_, hk.links, fun p hp _ => ?_,
        fun p hp => hp.elim, hk.data⟩
      · rw [List.mem_singleton.mp hp]
        exact h.nodes_used h.head_mem
      · exact (List.mem_singleton.mp hp).symm
  | deqTail my_head =>
    refine h.move rfl rfl ⟨hk.own, hk.guarded, hk.links, hk.first, fun p hp _ => ?_, hk.data⟩
    obtain ⟨rfl, hne⟩ := hp
    exact hne.symm
  | deqNext my_head my_tail =>
    refine h.move rfl rfl ⟨hk.own, hk.guarded, fun q hq => ?_, hk.first, hk.ahead, hk.data⟩
    change q ∈ (Frame.deqGuardNext (E := E) my_head my_tail (m.next my_head)).links at hq
    cases hn : m.next my_head with
    | none =>
      rw [hn] at hq
      exact absurd hq List.not_mem_nil
    | some my_next =>
      rw [hn] at hq
      rw [List.mem_singleton.mp hq]
      exact hn
  | deqGuardNext my_head my_tail my_next =>
    refine h.move rfl rfl ⟨hk.own, hk.guarded, ?_, hk.first, hk.ahead, hk.data⟩
    cases my_next <;> exact hk.links
  | deqRecheck my_head my_tail my_next =>
    cases my_next with
    | none =>
      rw [LockFreeMPMCQueue.exec]
      split
      · exact h.move rfl rfl (Frame.Knows.of_nil rfl rfl)
      · exact h.move rfl rfl (Frame.Knows.of_nil rfl rfl)
    | some my_next =>
      rw [LockFreeMPMCQueue.exec]
      split
      · exact h.move rfl rfl (Frame.Knows.of_nil rfl rfl)
      · rename_i hhead
        obtain rfl := not_not.mp hhead
        have hlink : m.next m.head = some my_next := hk.links _ (List.mem_singleton_self _)
        have hguarded : ∀ p ∈ [m.head, my_next], p ∈ used m
            (.deqRecheck m.head my_tail (some my_next) ::ₘ others) := by
          intro p hp
          rcases List.mem_cons.mp hp with rfl | hp
          · exact h.nodes_used h.head_mem
          · rw [List.mem_singleton.mp hp]
            exact h.nodes_used (List.mem_of_mem_tail (h.next_mem h.head_mem hlink))
        split
        · exact h.move rfl rfl ⟨hk.own, hguarded, hk.links, hk.first, fun p hp => hp.elim, hk.data⟩
        · rename_i hne
          refine h.move rfl rfl ⟨hk.own, hguarded, hk.links, hk.first, fun p hp => ?_, hk.data⟩
          exact hk.ahead p ⟨hp, hne⟩
  | deqHelp my_head my_next =>
    rw [LockFreeMPMCQueue.exec]
    split
    · rename_i ht
      refine h.swing ?_ ?_ ht (hk.links _ (List.mem_singleton_self _)) ?_
      · rfl
      · rfl
      · exact Frame.Knows.of_nil rfl rfl
    · exact h.move rfl rfl (Frame.Knows.of_nil rfl rfl)
  | deqElement my_head my_next =>
    refine h.move rfl rfl ⟨hk.own, hk.guarded, hk.links, hk.first, hk.ahead, fun q hq => ?_⟩
    obtain rfl := List.mem_singleton.mp hq
    rfl
  | deqSwing my_head my_next data =>
    rw [LockFreeMPMCQueue.exec]
    split
    · rename_i hh
      exact h.pop hh
    · exact h.move rfl rfl (Frame.Knows.of_nil rfl rfl)
  | deqRetire my_head data => exact h.retire
  | deqReturns result => exact h.move rfl rfl (Frame.Knows.of_nil rfl rfl)

end Inv

section Runs

variable [DecidableEq N]

theorem inv_preserved : Preserves (code (N := N) (E := E)) Hazards Inv := by
  intro t c f m others h hg
  show Inv (exec c f m).1 (((exec c f m).2 ::ₘ 0) + others)
  rw [Multiset.cons_add, zero_add]
  refine h.exec c fun hf node hc g hm => ?_
  exact hg hf node hc g (Multiset.mem_cons_of_mem hm)

theorem inv_boot (ns : Nodes N) (next : N → Option N) (element : N → E) (threads : ℕ) :
    Inv (boot ns next element threads).mem (boot ns next element threads).frames := by
  have hcallers : ∀ f ∈ (boot ns next element threads).frames, f = .caller := by
    intro f hf
    obtain ⟨st, hst, hf⟩ := List.mem_flatten.mp (Multiset.mem_coe.mp hf)
    rw [List.eq_of_mem_replicate hst] at hf
    exact List.mem_singleton.mp hf
  have hpopped : gather Frame.popped (boot ns next element threads).frames = 0 := by
    refine Multiset.eq_zero_of_forall_notMem fun p hp => ?_
    obtain ⟨f, hf, hp⟩ := mem_gather.mp hp
    rw [hcallers f hf] at hp
    exact absurd hp List.not_mem_nil
  have hown : gather (fun f => f.own.map Prod.fst) (boot ns next element threads).frames = 0 := by
    refine Multiset.eq_zero_of_forall_notMem fun p hp => ?_
    obtain ⟨f, hf, hp⟩ := mem_gather.mp hp
    rw [hcallers f hf] at hp
    exact absurd hp List.not_mem_nil
  have hu : used (boot ns next element threads).mem (boot ns next element threads).frames =
      {ns.dummyNode} := by
    rw [used, hpopped]
    rfl
  refine ⟨⟨Function.update_self .., trivial⟩, rfl, List.mem_singleton_self _, ?_, ?_, ?_, rfl⟩
  · rw [hu, fresh, hown, add_zero]
    exact ns.nodup
  · rw [hu]
    exact fun p hp _ => List.mem_singleton.mpr (Multiset.mem_singleton.mp hp)
  · intro f hf
    rw [hcallers f hf]
    exact Frame.Knows.of_nil rfl rfl

/-- The invariant holds in every state of every run. -/
theorem inv_run (ns : Nodes N) (next : N → Option N) (element : N → E) (threads : ℕ)
    {es : List (ℕ × Choice N E)}
    (hg : Always code Hazards (boot ns next element threads) es) :
    Inv (run code (boot ns next element threads) es).mem
      (run code (boot ns next element threads) es).frames :=
  inv_preserved.run hg (inv_boot ns next element threads)

end Runs

/-! ## The empty queue -/

section Empty

/-- Whether a thread is in `TryDequeue`. -/
def Frame.inTryDequeue : Frame N E → Bool
  | .deqLoop => true
  | .deqGuard _ => true
  | .deqValidate _ => true
  | .deqTail _ => true
  | .deqNext _ _ => true
  | .deqGuardNext _ _ _ => true
  | .deqRecheck _ _ _ => true
  | .deqHelp _ _ => true
  | .deqElement _ _ => true
  | .deqSwing _ _ _ => true
  | .deqRetire _ _ => true
  | .deqReturns _ => true
  | _ => false

/-- A call has read that the node `p`, which it has guarded, has no successor. -/
def Frame.SawNone (p : N) : Frame N E → Prop
  | .deqGuardNext my_head _ my_next => p = my_head ∧ my_next = none
  | .deqRecheck my_head _ my_next => p = my_head ∧ my_next = none
  | _ => False

theorem Frame.SawNone.inTryDequeue {f : Frame N E} {p : N} (h : f.SawNone p) :
    f.inTryDequeue = true := by
  cases f with
  | deqGuardNext a b c => rfl
  | deqRecheck a b c => rfl
  | _ => exact h.elim

theorem Frame.SawNone.mem_guarded {f : Frame N E} {p : N} (h : f.SawNone p) :
    p ∈ f.guarded := by
  cases f with
  | deqGuardNext a b c => exact List.mem_singleton.mpr h.1
  | deqRecheck a b c => exact List.mem_singleton.mpr h.1
  | _ => exact h.elim

/-- If the first node has no successor, then all elements have been taken out. -/
theorem Inv.empty {m : Queue N E} {f : Frame N E} {others : Multiset (Frame N E)}
    (h : Inv m (f ::ₘ others)) (hn : m.next m.head = none) : m.enqueued = m.dequeued := by
  have hlinked := h.linked
  rw [h.nodes_eq] at hlinked
  have htail : m.nodes.tail = [] := List.head?_eq_none_iff.mp (hlinked.1.symm.trans hn)
  rw [h.log, htail, List.map_nil, List.append_nil]

variable [DecidableEq N]

/-- What a step can do to the list of nodes. -/
theorem exec_nodes (c : Choice N E) (f : Frame N E) (m : Queue N E) :
    (exec c f m).1.nodes = m.nodes ∨ (exec c f m).1.nodes = m.nodes.tail ∨
      ∃ element node my_tail, f = .enqLink element node my_tail ∧
        (exec c f m).1.nodes = m.nodes ++ [node] := by
  unfold exec
  split <;> (repeat' split) <;> simp

/-- The steps after which a call has read that there is no successor. -/
theorem exec_sawNone {c : Choice N E} {f : Frame N E} {m : Queue N E} {p : N}
    (h : (exec c f m).2.SawNone p) :
    (exec c f m).1 = m ∧
      ((∃ my_tail, f = .deqNext p my_tail ∧ m.next p = none) ∨ f.SawNone p) := by
  unfold exec at h ⊢
  split at h <;> (repeat' split at h) <;> simp_all [Frame.SawNone]

/-- The step after which a call returns false. -/
theorem exec_returns_none {c : Choice N E} {f : Frame N E} {m : Queue N E}
    (h : (exec c f m).2 = .deqReturns none) :
    (exec c f m).1 = m ∧ f.SawNone m.head := by
  unfold exec at h ⊢
  split at h <;> (repeat' split at h) <;> simp_all [Frame.SawNone]

/-- A node in use that has been unlinked is not linked again. -/
theorem Inv.not_mem_nodes {m : Queue N E} {f : Frame N E} {others : Multiset (Frame N E)}
    (h : Inv m (f ::ₘ others)) (c : Choice N E) {p : N} (hu : p ∈ used m (f ::ₘ others))
    (hp : p ∉ m.nodes) : p ∉ (LockFreeMPMCQueue.exec c f m).1.nodes := by
  rcases exec_nodes c f m with he | he | ⟨element, node, my_tail, rfl, he⟩
  · rwa [he]
  · rw [he]
    exact fun hm => hp (List.mem_of_mem_tail hm)
  · rw [he]
    intro hm
    rcases List.mem_append.mp hm with hm | hm
    · exact hp hm
    · have hown : (node, element) ∈ (Frame.enqLink element node my_tail).own :=
        List.mem_singleton_self _
      refine h.not_fresh hu ?_
      rw [List.mem_singleton.mp hm]
      exact own_fresh (Multiset.mem_cons_self _ _) hown

/-- The queue has been empty since the call of `TryDequeue` began. -/
abbrev WasEmpty (s : State (Queue N E) (Frame N E)) (t : ℕ) (es : List (ℕ × Choice N E)) : Prop :=
  Since code s t (fun f => f.inTryDequeue = true) (fun m => m.enqueued = m.dequeued) es

/-- A call that has seen no successor has seen the queue empty, or its node is unlinked and it
tries again; only the former returns false. -/
theorem sees_empty (ns : Nodes N) (next : N → Option N) (element : N → E) (threads t : ℕ)
    (es : List (ℕ × Choice N E)) :
    Always code Hazards (boot ns next element threads) es →
    ∀ f, (run code (boot ns next element threads) es).top t = some f →
      (∀ p, f.SawNone p → WasEmpty (boot ns next element threads) t es ∨
        p ∉ (run code (boot ns next element threads) es).mem.nodes) ∧
      (f = .deqReturns none → WasEmpty (boot ns next element threads) t es) := by
  induction es using List.reverseRecOn with
  | nil =>
    intro _ f hf
    have hcaller : f = .caller := by
      rw [run_nil, State.top, boot, List.getElem?_replicate] at hf
      split at hf
      · exact (Option.some.inj hf).symm
      · cases hf
    subst hcaller
    exact ⟨fun p hp => hp.elim, fun he => by cases he⟩
  | append_singleton es e ih =>
    intro hg f hf
    obtain ⟨hg, -⟩ := hg.append
    have hinv := inv_run ns next element threads hg
    have hf' := hf
    rw [run_append, run_cons, run_nil] at hf ⊢
    cases htop : (run code (boot ns next element threads) es).top e.1 with
    | none =>
      rw [step_of_top_none code htop] at hf ⊢
      obtain ⟨h1, h2⟩ := ih hg f hf
      refine ⟨fun p hp => ?_, fun he => ?_⟩
      · exact (h1 p hp).imp_left fun hs => hs.step hf' hp.inTryDequeue
      · exact (h2 he).step hf' (he ▸ rfl)
    | some f₀ =>
      obtain ⟨others, ho, hm, -⟩ := step_of_top code htop
      rw [ho] at hinv
      have hmem : (step code (run code (boot ns next element threads) es) e).mem =
          (exec e.2 f₀ (run code (boot ns next element threads) es).mem).1 := hm
      have hnext := top_step code htop rfl
      rw [hmem]
      rcases eq_or_ne e.1 t with rfl | hne
      · rw [hf, Option.some_inj] at hnext
        obtain ⟨h1, h2⟩ := ih hg f₀ htop
        refine ⟨fun p hp => ?_, fun he => ?_⟩
        · obtain ⟨hsame, ⟨my_tail, rfl, hn⟩ | hsaw⟩ := exec_sawNone (hnext ▸ hp)
          · by_cases hp' : p ∈ (run code (boot ns next element threads) es).mem.nodes
            · refine Or.inl (Since.now ?_ hf' hp.inTryDequeue)
              rw [run_append, run_cons, run_nil, hmem, hsame]
              have hhead := hinv.top.first p (List.mem_singleton_self p) hp'
              exact hinv.empty (hhead ▸ hn)
            · exact Or.inr (hsame ▸ hp')
          · rw [hsame]
            exact (h1 p hsaw).imp_left fun hs => hs.step hf' hp.inTryDequeue
        · obtain ⟨-, hsaw⟩ := exec_returns_none (hnext ▸ he)
          have hs := (h1 _ hsaw).resolve_right fun hn => hn hinv.head_mem
          exact hs.step hf' (he ▸ rfl)
      · rw [top_step_ne code _ hne] at hf
        obtain ⟨h1, h2⟩ := ih hg f hf
        refine ⟨fun p hp => ?_, fun he => ?_⟩
        · refine (h1 p hp).imp (fun hs => hs.step hf' hp.inTryDequeue) fun hn => ?_
          have hmf := State.mem_frames_of_top hf
          rw [ho] at hmf
          exact hinv.not_mem_nodes e.2 ((hinv.knows f hmf).guarded p hp.mem_guarded) hn
        · exact (h2 he).step hf' (he ▸ rfl)

end Empty

/-! ## The results -/

section Results

variable [DecidableEq N]

/-- In every run in which hazard pointers prevent the reuse of guarded nodes: the elements
taken out are, in this order, the first of the elements put in, and the others are those of the
nodes linked behind the first one; the last node that is known can be reached from the first;
and where `TryDequeue` returns false, the queue has been empty since the call began. -/
theorem fifo (ns : Nodes N) (next : N → Option N) (element : N → E) (threads : ℕ)
    (es : List (ℕ × Choice N E))
    (hazards : Always code Hazards (boot ns next element threads) es) :
    ∃ S, run code (boot ns next element threads) es = S ∧
      (∃ nodes, (S.mem.head :: nodes).Nodup ∧ Linked S.mem.next (S.mem.head :: nodes) ∧
        S.mem.enqueued = S.mem.dequeued ++ nodes.map S.mem.element) ∧
      Relation.ReflTransGen (fun a b => S.mem.next a = some b) S.mem.head S.mem.tail ∧
      ∀ t, S.top t = some (.deqReturns none) → WasEmpty (boot ns next element threads) t es := by
  have h := inv_run ns next element threads hazards
  refine ⟨_, rfl, ?_⟩
  generalize hm : (run code (boot ns next element threads) es).mem = m at h ⊢
  obtain ⟨l, hl⟩ := List.head?_eq_some_iff.mp h.head
  have hlinked := h.linked
  have htail := h.tail
  have hlog := h.log
  have hnodup : m.nodes.Nodup := Multiset.coe_nodup.mp
    (Multiset.nodup_of_le ((Multiset.le_add_right _ _).trans (Multiset.le_add_right _ _)) h.nodup)
  rw [hl] at hlinked htail hlog hnodup
  refine ⟨⟨l, hnodup, hlinked, hlog⟩, hlinked.reaches htail, fun t ht => ?_⟩
  exact (sees_empty ns next element threads t es hazards _ ht).2 rfl

/-- A test for steps that hand no node back. -/
def handsNoneBack (_ : ℕ) (c : Choice N E) (_ : Frame N E) (_ : Queue N E) : Bool :=
  match c with
  | .reclaim _ => false
  | _ => true

omit [DecidableEq N] in
theorem keepsNodes (t : ℕ) (c : Choice N E) (f : Frame N E) (m : Queue N E)
    (fs : Multiset (Frame N E)) (h : handsNoneBack t c f m = true) : Hazards t c f m fs := by
  rintro - node rfl
  cases h

/-- Thread 0 puts 7 into a queue with three nodes, and then thread 1 takes it out. -/
theorem fifo_seven : ∃ S, run (code (N := ℕ) (E := ℕ))
      (boot ⟨0, [1, 2], by decide⟩ (fun _ => none) (fun _ => 0) 2)
      ((0, .enqueue 7 (some 1)) :: List.replicate 8 (0, .dequeue) ++
        List.replicate 12 (1, .dequeue)) = S ∧
      S.mem.dequeued = [7] ∧
      ∃ nodes, (S.mem.head :: nodes).Nodup ∧ Linked S.mem.next (S.mem.head :: nodes) ∧
        S.mem.enqueued = S.mem.dequeued ++ nodes.map S.mem.element := by
  obtain ⟨S, hS, h, -⟩ := fifo (N := ℕ) (E := ℕ) ⟨0, [1, 2], by decide⟩ (fun _ => none)
    (fun _ => 0) 2
    ((0, .enqueue 7 (some 1)) :: List.replicate 8 (0, .dequeue) ++
      List.replicate 12 (1, .dequeue))
    (Always.of_checked keepsNodes (by decide +kernel))
  refine ⟨S, hS, ?_, h⟩
  rw [← hS]
  decide +kernel

end Results

end Embb.Containers.LockFreeMPMCQueue
