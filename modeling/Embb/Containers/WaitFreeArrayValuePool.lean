import Embb.Lib.Holdings
import Embb.Lib.Threads

/-!
# The wait-free array value pool

`Allocate` passes once over the cells: it loads each of them and tries to swap the mark for
the element that it has seen. `Free` stores the element back. The threads interleave at
every load, store and compare-and-swap.
-/

namespace Embb.Containers.WaitFreeArrayValuePool

open Threads

/-- The range that a pool is constructed from; no element in it is the value that marks an
allocated cell. -/
structure Source (α : Type) where
  undefined : α
  elements : List α
  defined : ∀ x ∈ elements, x ≠ undefined

variable {α : Type}

def Source.size (s : Source α) : ℕ := s.elements.length

/-- The shared array, and the pairs that `Allocate` has handed out and that were not passed to
`Free` since. -/
structure Pool (α : Type) where
  pool : ℕ → α
  held : List (α × ℕ)

/-- The constructor; the array ends with the last element. -/
def create (s : Source α) (cells : ℕ → α) : Pool α where
  pool i := s.elements[i]?.getD (cells i)
  held := []

/-- Where a thread is. -/
inductive Frame (α : Type)
  /-- Outside the pool. -/
  | caller
  /-- At the head of the loop of `Allocate`. -/
  | load (i : ℕ)
  /-- About to swap a cell. -/
  | swap (i : ℕ) (expected : α)
  | allocated (element : α) (index : ℕ)
  /-- `Allocate` is about to return -1. -/
  | failed
  /-- About to store the element in `Free`. -/
  | store (element : α) (index : ℕ)
  deriving DecidableEq, Repr

/-- What a thread outside the pool does next. -/
inductive Choice
  | allocate
  /-- Free one of the pairs that are held. -/
  | free (pair : ℕ)
  deriving DecidableEq, Repr

variable [DecidableEq α]

/-- One atomic step of a thread. -/
def exec (s : Source α) (c : Choice) (f : Frame α) (m : Pool α) : Pool α × Frame α :=
  match f with
  | .caller =>
    match c with
    | .allocate => (m, .load 0)
    | .free pair =>
      match m.held[pair]? with
      | some (element, index) => ({ m with held := m.held.eraseIdx pair }, .store element index)
      | none => (m, .caller)
  | .load i =>
    if i = s.size then (m, .failed)
    else
      let expected := m.pool i
      if s.undefined = expected then (m, .load (i + 1)) else (m, .swap i expected)
  | .swap i expected =>
    if m.pool i = expected then
      ({ m with pool := Function.update m.pool i s.undefined }, .allocated expected i)
    else (m, .load (i + 1))
  | .allocated element index => ({ m with held := (element, index) :: m.held }, .caller)
  | .failed => (m, .caller)
  | .store element index => ({ m with pool := Function.update m.pool index element }, .caller)

/-- The program of every thread. -/
def code (s : Source α) : Code (Pool α) (Frame α) Choice := fun _ c f m =>
  ((exec s c f m).1, [(exec s c f m).2])

/-- A new pool and its threads. -/
def boot (s : Source α) (cells : ℕ → α) (threads : ℕ) : State (Pool α) (Frame α) where
  mem := create s cells
  callStacks := List.replicate threads [.caller]

/-! ## The invariant -/

/-- The pair that a call is about to return or to store. -/
def Frame.owns : Frame α → List (α × ℕ)
  | .allocated element index => [(element, index)]
  | .store element index => [(element, index)]
  | _ => []

/-- The pairs that callers hold or that a call is about to return or to store. -/
def owned (m : Pool α) (fs : Multiset (Frame α)) : Multiset (α × ℕ) :=
  m.held + gather Frame.owns fs

/-- What is known about the cell or the element of a frame. -/
def Frame.Knows (s : Source α) : Frame α → Prop
  | .load i => i ≤ s.size
  | .swap i expected => i < s.size ∧ s.elements[i]? = some expected
  | _ => True

/-- Every element is in its cell or in exactly one hand. -/
structure Inv (s : Source α) (m : Pool α) (fs : Multiset (Frame α)) : Prop where
  holdings : Holdings s.elements s.undefined m.pool (owned m fs)
  knows : ∀ f ∈ fs, f.Knows s

omit [DecidableEq α] in
theorem owned_cons (m : Pool α) (f : Frame α) (fs : Multiset (Frame α)) :
    owned m (f ::ₘ fs) = f.owns + owned m fs := by
  rw [owned, owned, gather_cons, add_left_comm]

namespace Inv

variable {s : Source α} {m m' : Pool α} {f f' : Frame α} {others : Multiset (Frame α)}

omit [DecidableEq α] in
theorem top (h : Inv s m (f ::ₘ others)) : f.Knows s :=
  h.knows f (Multiset.mem_cons_self f others)

omit [DecidableEq α] in
theorem of_holdings (h : Inv s m (f ::ₘ others)) (hk : f'.Knows s)
    (hold : Holdings s.elements s.undefined m'.pool (owned m' (f' ::ₘ others))) :
    Inv s m' (f' ::ₘ others) := by
  refine ⟨hold, fun g hg => ?_⟩
  rcases Multiset.mem_cons.mp hg with rfl | hg
  · exact hk
  · exact h.knows g (Multiset.mem_cons_of_mem hg)

omit [DecidableEq α] in
/-- A step that changes no cell and whose pairs stay in hand. -/
theorem move (h : Inv s m (f ::ₘ others)) (hk : f'.Knows s) (hpool : m'.pool = m.pool)
    (ho : f'.owns + (m'.held : Multiset (α × ℕ)) = f.owns + m.held) :
    Inv s m' (f' ::ₘ others) := by
  refine h.of_holdings hk ?_
  have howned : owned m' (f' ::ₘ others) = owned m (f ::ₘ others) := by
    rw [owned_cons, owned_cons, owned, owned, ← add_assoc, ho, add_assoc]
  rw [hpool, howned]
  exact h.holdings

/-- Every step keeps the invariant. -/
theorem exec (h : Inv s m (f ::ₘ others)) (c : Choice) :
    Inv s (exec s c f m).1 ((exec s c f m).2 ::ₘ others) := by
  cases f with
  | caller =>
    cases c with
    | allocate => exact h.move (Nat.zero_le _) rfl rfl
    | free pair =>
      simp only [WaitFreeArrayValuePool.exec]
      split
      · rename_i element index hpair
        refine h.move trivial rfl ?_
        obtain ⟨hlt, he⟩ := List.getElem?_eq_some_iff.mp hpair
        have hperm : ((element, index) :: m.held.eraseIdx pair).Perm m.held := by
          rw [← he]
          exact List.getElem_cons_eraseIdx_perm hlt
        exact Multiset.coe_eq_coe.mpr hperm
      · exact h
  | load i =>
    have hi : i ≤ s.size := h.top
    simp only [WaitFreeArrayValuePool.exec]
    split
    · exact h.move trivial rfl rfl
    rename_i hne
    have hlt : i < s.size := Nat.lt_of_le_of_ne hi hne
    split
    · exact h.move (show i + 1 ≤ s.size from hlt) rfl rfl
    · rename_i hdef
      exact h.move ⟨hlt, h.holdings.element_of_cell hlt (Ne.symm hdef)⟩ rfl rfl
  | swap i expected =>
    obtain ⟨hlt, he⟩ : i < s.size ∧ s.elements[i]? = some expected := h.top
    simp only [WaitFreeArrayValuePool.exec]
    split
    · rename_i hcell
      have hdef : m.pool i ≠ s.undefined := by
        rw [hcell]
        exact s.defined expected (List.mem_of_getElem? he)
      refine h.of_holdings trivial ?_
      have hold := h.holdings.take he hdef
      rw [owned_cons] at hold ⊢
      rw [← Multiset.cons_add] at hold
      exact hold
    · exact h.move (show i + 1 ≤ s.size from hlt) rfl rfl
  | allocated element index =>
    exact h.move trivial rfl (Multiset.coe_eq_coe.mpr (List.Perm.refl _))
  | failed => exact h.move trivial rfl rfl
  | store element index =>
    refine h.of_holdings trivial ?_
    have hold := h.holdings
    rw [owned_cons] at hold ⊢
    have hput : Holdings s.elements s.undefined (Function.update m.pool index element)
        (owned m others) := by
      apply Holdings.put
      rw [← Multiset.singleton_add]
      exact hold
    rw [← zero_add (owned m others)] at hput
    exact hput

end Inv

theorem inv_preserved (s : Source α) :
    Preserves (code s) (fun _ _ _ _ _ => True) (Inv s) := by
  intro t c f m others h _
  show Inv s (exec s c f m).1 (((exec s c f m).2 ::ₘ 0) + others)
  rw [Multiset.cons_add, zero_add]
  exact h.exec c

omit [DecidableEq α] in
theorem inv_boot (s : Source α) (cells : ℕ → α) (threads : ℕ) :
    Inv s (boot s cells threads).mem (boot s cells threads).frames := by
  have hcallers : ∀ f ∈ (boot s cells threads).frames, f = .caller := by
    intro f hf
    obtain ⟨st, hst, hf⟩ := List.mem_flatten.mp (Multiset.mem_coe.mp hf)
    rw [List.eq_of_mem_replicate hst] at hf
    exact List.mem_singleton.mp hf
  have howned : owned (boot s cells threads).mem (boot s cells threads).frames = 0 := by
    refine Multiset.eq_zero_of_forall_notMem fun q hq => ?_
    rcases Multiset.mem_add.mp hq with hq | hq
    · exact absurd hq List.not_mem_nil
    · obtain ⟨f, hf, hq⟩ := mem_gather.mp hq
      rw [hcallers f hf] at hq
      exact absurd hq List.not_mem_nil
  constructor
  · rw [howned]
    exact Holdings.zero s.elements s.undefined cells
  · intro f hf
    rw [hcallers f hf]
    trivial

theorem inv_run (s : Source α) (cells : ℕ → α) (threads : ℕ) (es : List (ℕ × Choice)) :
    Inv s (run (code s) (boot s cells threads) es).mem
      (run (code s) (boot s cells threads) es).frames :=
  (inv_preserved s).run (Always.of_forall (fun _ _ _ _ _ => trivial) _ es)
    (inv_boot s cells threads)

/-! ## One call of `Allocate` -/

/-- Whether a thread is in the loop of `Allocate`. -/
def Frame.inLoop : Frame α → Bool
  | .load _ => true
  | .swap _ _ => true
  | _ => false

/-- Whether the next step of a thread begins an iteration of the loop. -/
def Frame.iterates (s : Source α) : Frame α → Bool
  | .load i => i != s.size
  | _ => false

/-- The number of iterations that a thread begins in a run. -/
def iterations (s : Source α) (t : ℕ) : State (Pool α) (Frame α) → List (ℕ × Choice) → ℕ
  | _, [] => 0
  | S, e :: es =>
    (if e.1 = t ∧ (S.top t).any (Frame.iterates s) = true then 1 else 0) +
      iterations s t (step (code s) S e) es

/-- In the run `es` the loop that the thread is in comes to its end after `k` steps, with the
frame `f`. -/
structure Ends (s : Source α) (t : ℕ) (S : State (Pool α) (Frame α)) (es : List (ℕ × Choice))
    (k : ℕ) (f : Frame α) : Prop where
  le_length : k ≤ es.length
  top : (run (code s) S (es.take k)).top t = some f
  out : f.inLoop = false
  inside : ∀ j < k, ∃ g, (run (code s) S (es.take j)).top t = some g ∧ g.inLoop = true

/-- The cells that are available. -/
def available (s : Source α) (m : Pool α) : Multiset ℕ :=
  (Multiset.range s.size).filter fun i => m.pool i ≠ s.undefined

/-- The index of the loop is that of a cell or the number of cells. -/
def Frame.InBounds (s : Source α) : Frame α → Prop
  | .load i => i ≤ s.size
  | .swap i _ => i < s.size
  | _ => True

/-- A bound on the steps of a thread until it leaves the loop. -/
def Frame.remaining (s : Source α) : Frame α → ℕ
  | .load i => 2 * (s.size - i) + 1
  | .swap i _ => 2 * (s.size - i)
  | _ => 0

/-- A bound on the iterations that a thread begins until it leaves the loop. -/
def Frame.left (s : Source α) : Frame α → ℕ
  | .load i => s.size - i
  | .swap i _ => s.size - (i + 1)
  | _ => 0

/-- A step in the loop leaves it or goes on with fewer steps and iterations to come. -/
theorem exec_inLoop {s : Source α} {f : Frame α} (hf : f.inLoop = true) (hb : f.InBounds s)
    (c : Choice) (m : Pool α) :
    0 < f.remaining s ∧ (if f.iterates s = true then 1 else 0) ≤ f.left s ∧
      ((exec s c f m).2.inLoop = true → (exec s c f m).2.InBounds s ∧
        (exec s c f m).2.remaining s < f.remaining s ∧
        (if f.iterates s = true then 1 else 0) + (exec s c f m).2.left s ≤ f.left s) := by
  cases f with
  | load i =>
    have hi : i ≤ s.size := hb
    simp only [exec, Frame.iterates, Frame.remaining, Frame.left]
    rcases Nat.eq_or_lt_of_le hi with rfl | hlt
    · simp [Frame.inLoop]
    · rw [if_neg hlt.ne]
      simp only [bne_iff_ne, ne_eq, hlt.ne, not_false_eq_true, if_true]
      refine ⟨by omega, by omega, fun _ => ?_⟩
      split
      · exact ⟨hlt, by simp only; omega, by simp only; omega⟩
      · exact ⟨hlt, by simp only; omega, by simp only; omega⟩
  | swap i expected =>
    have hi : i < s.size := hb
    simp only [exec, Frame.iterates, Frame.remaining, Frame.left]
    refine ⟨by omega, by simp, fun hin => ?_⟩
    split at hin
    · cases hin
    · rename_i hcell
      rw [if_neg hcell]
      exact ⟨hi, by simp only; omega, by simp⟩
  | caller => cases hf
  | allocated e i => cases hf
  | failed => cases hf
  | store e i => cases hf

theorem Ends.cons {s : Source α} {t : ℕ} {S : State (Pool α) (Frame α)} {e : ℕ × Choice}
    {es : List (ℕ × Choice)} {k : ℕ} {f g : Frame α} (hg : S.top t = some g)
    (hin : g.inLoop = true) (h : Ends s t (step (code s) S e) es k f) :
    Ends s t S (e :: es) (k + 1) f := by
  constructor
  · exact Nat.succ_le_succ h.le_length
  · exact h.top
  · exact h.out
  · intro j hj
    cases j with
    | zero => exact ⟨g, hg, hin⟩
    | succ j => exact h.inside j (by omega)

/-- A thread that has enough steps left leaves the loop, whatever the others do. -/
theorem exists_ends (s : Source α) (t : ℕ) (es : List (ℕ × Choice)) :
    ∀ (S : State (Pool α) (Frame α)) (f : Frame α), S.top t = some f → f.inLoop = true →
    f.InBounds s → f.remaining s ≤ es.countP (fun e => e.1 = t) →
    ∃ k g, Ends s t S es k g ∧ iterations s t S (es.take k) ≤ f.left s := by
  induction es with
  | nil =>
    intro S f _ hf hb hcount
    have hpos := (exec_inLoop hf hb .allocate (Pool.mk (fun _ => s.undefined) [])).1
    rw [List.countP_nil] at hcount
    omega
  | cons e es ih =>
    intro S f htop hf hb hcount
    rw [List.countP_cons] at hcount
    by_cases he : e.1 = t
    · subst he
      have hnext := top_step (code s) (e := e) htop rfl
      obtain ⟨-, hleft, hgoes⟩ := exec_inLoop hf hb e.2 S.mem
      cases hin : (exec s e.2 f S.mem).2.inLoop with
      | false =>
        refine ⟨1, _, ⟨?_, hnext, hin, ?_⟩, ?_⟩
        · rw [List.length_cons]
          omega
        · intro j hj
          obtain rfl : j = 0 := by omega
          exact ⟨f, htop, hf⟩
        · simp only [List.take_succ_cons, List.take_zero, iterations, htop, Option.any_some,
            true_and]
          exact hleft
      | true =>
        obtain ⟨hb', hrem, hleft'⟩ := hgoes hin
        obtain ⟨k, g, hends, hit⟩ := ih _ _ hnext hin hb' (by
          simp only [decide_true, if_true] at hcount
          omega)
        refine ⟨k + 1, g, hends.cons htop hf, ?_⟩
        simp only [List.take_succ_cons, iterations, htop, Option.any_some, true_and]
        omega
    · have hnext := (top_step_ne (code s) S he).trans htop
      obtain ⟨k, g, hends, hit⟩ := ih _ f hnext hf hb (by
        simp only [he, decide_false, if_false, Bool.false_eq_true] at hcount
        omega)
      refine ⟨k + 1, g, hends.cons htop hf, ?_⟩
      simp only [List.take_succ_cons, iterations, he, false_and, if_false, zero_add]
      exact hit

/-- What a call that no other overlaps has seen: the cells before its index are not available,
and the cell that it is about to swap is as it was. -/
def Frame.Saw (s : Source α) (m : Pool α) : Frame α → Prop
  | .load i => i ≤ s.size ∧ ∀ j < i, m.pool j = s.undefined
  | .swap i expected => i < s.size ∧ m.pool i = expected ∧ expected ≠ s.undefined
  | _ => False

omit [DecidableEq α] in
theorem Frame.Saw.inLoop {s : Source α} {m : Pool α} {f : Frame α} (h : f.Saw s m) :
    f.inLoop = true := by
  cases f with
  | load i => rfl
  | swap i expected => rfl
  | caller => cases h
  | allocated e i => cases h
  | failed => cases h
  | store e i => cases h

/-- A step of such a call goes on, or fails as no cell is available, or takes an available one. -/
theorem exec_alone {s : Source α} {f : Frame α} {m : Pool α} (h : f.Saw s m) (c : Choice) :
    ((exec s c f m).2.Saw s (exec s c f m).1 ∧ (exec s c f m).1 = m) ∨
      ((exec s c f m).2 = .failed ∧ available s m = 0) ∨
      ∃ e i, (exec s c f m).2 = .allocated e i ∧ i ∈ available s m := by
  cases f with
  | load i =>
    obtain ⟨hi, hseen⟩ : i ≤ s.size ∧ ∀ j < i, m.pool j = s.undefined := h
    simp only [exec]
    split
    · rename_i hend
      refine Or.inr (Or.inl ⟨rfl, Multiset.filter_eq_nil.mpr fun j hj => ?_⟩)
      exact not_not.mpr (hseen j (hend ▸ Multiset.mem_range.mp hj))
    rename_i hne
    have hlt : i < s.size := Nat.lt_of_le_of_ne hi hne
    refine Or.inl ?_
    split
    · rename_i hundef
      refine ⟨⟨hlt, fun j hj => ?_⟩, rfl⟩
      rcases Nat.eq_or_lt_of_le (Nat.le_of_lt_succ hj) with rfl | hj
      · exact hundef.symm
      · exact hseen j hj
    · rename_i hdef
      exact ⟨⟨hlt, rfl, Ne.symm hdef⟩, rfl⟩
  | swap i expected =>
    obtain ⟨hlt, hcell, hdef⟩ : i < s.size ∧ m.pool i = expected ∧ expected ≠ s.undefined := h
    simp only [exec, if_pos hcell]
    refine Or.inr (Or.inr ⟨expected, i, rfl, Multiset.mem_filter.mpr ⟨?_, ?_⟩⟩)
    · exact Multiset.mem_range.mpr hlt
    · rwa [hcell]
  | caller => cases h
  | allocated e i => cases h
  | failed => cases h
  | store e i => cases h

/-- A loop that goes on ends in what is left of the run. -/
theorem Ends.tail {s : Source α} {t : ℕ} {S : State (Pool α) (Frame α)} {e : ℕ × Choice}
    {es : List (ℕ × Choice)} {k : ℕ} {f g : Frame α} (hf : S.top t = some f)
    (hin : f.inLoop = true) (h : Ends s t S (e :: es) k g) :
    ∃ k', Ends s t (step (code s) S e) es k' g := by
  obtain ⟨hle, htop, hout, hinside⟩ := h
  cases k with
  | zero =>
    rw [List.take_zero, run_nil, hf, Option.some_inj] at htop
    rw [htop, hout] at hin
    cases hin
  | succ k =>
    refine ⟨k, Nat.le_of_succ_le_succ hle, htop, hout, fun j hj => ?_⟩
    exact hinside (j + 1) (Nat.succ_lt_succ hj)

/-- A loop that has ended ends nowhere else. -/
theorem Ends.eq_of_out {s : Source α} {t : ℕ} {S : State (Pool α) (Frame α)}
    {es : List (ℕ × Choice)} {k : ℕ} {f g : Frame α} (hf : S.top t = some f)
    (hout : f.inLoop = false) (h : Ends s t S es k g) : g = f := by
  cases k with
  | zero =>
    have htop := h.top
    rw [List.take_zero, run_nil, hf, Option.some_inj] at htop
    exact htop.symm
  | succ k =>
    obtain ⟨f', hf', hin⟩ := h.inside 0 (Nat.succ_pos k)
    rw [List.take_zero, run_nil, hf, Option.some_inj] at hf'
    rw [← hf', hout] at hin
    cases hin

/-- A call that no other overlaps fails exactly when no cell is available. -/
theorem failed_iff (s : Source α) (t : ℕ) (es : List (ℕ × Choice)) (ht : ∀ e ∈ es, e.1 = t) :
    ∀ (S : State (Pool α) (Frame α)) (f g : Frame α) (k : ℕ), S.top t = some f →
    f.Saw s S.mem → Ends s t S es k g → (g = .failed ↔ available s S.mem = 0) := by
  induction es with
  | nil =>
    intro S f g k htop hsaw hends
    obtain rfl : k = 0 := Nat.le_zero.mp hends.le_length
    have hg := hends.top
    rw [List.take_zero, run_nil, htop, Option.some_inj] at hg
    have hin := hsaw.inLoop
    rw [hg, hends.out] at hin
    cases hin
  | cons e es ih =>
    intro S f g k htop hsaw hends
    obtain rfl := ht e List.mem_cons_self
    obtain ⟨k', hends'⟩ := hends.tail htop hsaw.inLoop
    have hnext := top_step (code s) (e := e) htop rfl
    have hmem : (step (code s) S e).mem = (exec s e.2 f S.mem).1 := mem_step (code s) htop
    rcases exec_alone hsaw e.2 with ⟨hsaw', hm⟩ | ⟨hfail, hnone⟩ | ⟨x, i, halloc, hi⟩
    · rw [← hmem] at hsaw'
      have hg := ih (fun e' he' => ht e' (List.mem_cons_of_mem _ he')) _ _ g k' hnext hsaw' hends'
      rwa [hmem, hm] at hg
    · rw [hfail] at hnext
      exact iff_of_true (hends'.eq_of_out hnext rfl) hnone
    · rw [halloc] at hnext
      obtain rfl := hends'.eq_of_out hnext rfl
      refine iff_of_false (by simp) fun hnone => ?_
      rw [hnone] at hi
      exact Multiset.notMem_zero _ hi

/-- In every state of every run, no index is in two hands, and the available cells together
with the pairs in hand are the elements that the pool was constructed from. A call of
`Allocate` that has begun ends after at most as many iterations as there are cells, whatever
the other threads do; without steps of other threads it returns -1 exactly when no cell is
available. -/
theorem hands_out_once (s : Source α) (cells : ℕ → α) (threads : ℕ) (es : List (ℕ × Choice)) :
    ∃ S, run (code s) (boot s cells threads) es = S ∧
      ((owned S.mem S.frames).map Prod.snd).Nodup ∧
      (∀ q ∈ owned S.mem S.frames, s.elements[q.2]? = some q.1) ∧
      (s.elements : Multiset α) =
        (available s S.mem).map S.mem.pool + (owned S.mem S.frames).map Prod.fst ∧
      ∀ t es', S.top t = some (.load 0) →
        (2 * s.size < es'.countP (fun e => e.1 = t) →
          ∃ k f, Ends s t S es' k f ∧ iterations s t S (es'.take k) ≤ s.size) ∧
        ((∀ e ∈ es', e.1 = t) → ∀ k f, Ends s t S es' k f →
          (f = .failed ↔ available s S.mem = 0)) := by
  have h := (inv_run s cells threads es).holdings
  refine ⟨_, rfl, h.nodup, fun q hq => (h.owned_cell q hq).1, h.conserved s.defined, ?_⟩
  intro t es' htop
  constructor
  · intro hcount
    exact exists_ends s t es' _ _ htop rfl (Nat.zero_le _) hcount
  · intro ht k f hends
    refine failed_iff s t es' ht _ _ f k htop ⟨Nat.zero_le _, fun j hj => ?_⟩ hends
    exact absurd hj (Nat.not_lt_zero j)

/-- Two elements. -/
def twoElements : Source ℕ where
  undefined := 0
  elements := [5, 6]
  defined := by decide

/-- The only call under way takes the first element. -/
theorem hands_out_once_two :
    ∃ k f, Ends twoElements 0
      (run (code twoElements) (boot twoElements (fun _ => 9) 2) [(0, .allocate)])
      (List.replicate 5 (0, .allocate)) k f ∧ f ≠ .failed := by
  obtain ⟨S, rfl, -, -, -, hcall⟩ :=
    hands_out_once twoElements (fun _ => 9) 2 [(0, .allocate)]
  obtain ⟨hends, hfailed⟩ := hcall 0 (List.replicate 5 (0, .allocate)) rfl
  obtain ⟨k, f, hk, -⟩ := hends (by decide)
  refine ⟨k, f, hk, fun hf => ?_⟩
  have hnone := (hfailed (fun e he => congrArg Prod.fst (List.eq_of_mem_replicate he)) k f hk).mp hf
  exact absurd hnone (by decide)

end Embb.Containers.WaitFreeArrayValuePool
