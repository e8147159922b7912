import Embb.Base.ThreadIndex

/-!
# Thread-specific storage

A storage has a value for every index of a thread. A thread that sets or gets its value asks for
its index, as all threads do at the same time, and then accesses the value at the index. For the
threads the storage is a map from threads to values.
-/

namespace Embb.Base.ThreadSpecificStorage

open Threads ThreadIndex

variable {V : Type}

/-- The functions of a storage; a null pointer is none. -/
inductive Op (V : Type) where
  | set (value : Option V)
  | get
  deriving DecidableEq

/-- What a function has returned to a thread. -/
inductive Event (V : Type) where
  | set (thread : ℕ) (value : Option V) (status : ThreadIndex.Status)
  | get (thread : ℕ) (value : Option V)
  deriving DecidableEq

/-- The variables of the indices, `values`, and all that has been returned. -/
structure Memory (V : Type) where
  index : ThreadIndex.Memory
  values : ℕ → Option V
  log : List (Event V)

/-- The function that a thread is in, and how far `embb_internal_thread_index` is in it. -/
structure Frame (V : Type) where
  index : ThreadIndex.Frame
  op : Op V

/-- The rest of `embb_tss_set` and `embb_tss_get` where the index is returned. -/
def access (size : UInt32) (t : ℕ) (op : Op V) (status : ThreadIndex.Status) (index : UInt32)
    (m : Memory V) : Memory V :=
  match op with
  | .set value =>
    if status ≠ .success ∨ index ≥ size then { m with log := m.log ++ [.set t value .error] }
    else
      { m with
        values := Function.update m.values index.toNat value
        log := m.log ++ [.set t value .success] }
  | .get =>
    if status ≠ .success ∨ index ≥ size then { m with log := m.log ++ [.get t none] }
    else { m with log := m.log ++ [.get t (m.values index.toNat)] }

/-- One step of a thread. -/
def exec (available size : UInt32) (t : ℕ) (c : Op V) (f : Frame V) (m : Memory V) :
    Memory V × Frame V :=
  let next := ThreadIndex.exec available f.index m.index
  match f.index with
  | .caller _ => ({ m with index := next.1 }, ⟨next.2, c⟩)
  | .access _ _ => ({ m with index := next.1 }, ⟨next.2, f.op⟩)
  | .returns status index =>
    ({ access size t f.op status index m with index := next.1 }, ⟨next.2, f.op⟩)

def code (available size : UInt32) : Code (Memory V) (Frame V) (Op V) := fun t c f m =>
  ((exec available size t c f m).1, [(exec available size t c f m).2])

/-- A storage that `embb_tss_create` has made for the maximum number of threads. -/
def boot (size : UInt32) (threads : ℕ) : State (Memory V) (Frame V) where
  mem := ⟨(ThreadIndex.boot (some size) threads).mem, fun _ => none, []⟩
  callStacks := List.replicate threads [⟨.caller uintMax, .get⟩]

/-! ## The map from threads to values -/

/-- The value of a thread after an event. -/
def stores (t : ℕ) (old : Option V) : Event V → Option V
  | .set t' value .success => if t' = t then value else old
  | _ => old

/-- The value that a thread has set last. -/
def lastSet (t : ℕ) (log : List (Event V)) : Option V := log.foldl (stores t) none

/-- What a map from threads to values returns after some events. A thread is refused only where
it never was served. -/
def Event.Fits (before : List (Event V)) : Event V → Prop
  | .get t value => value = lastSet t before
  | .set _ _ .success => True
  | .set t _ .error => ∀ value, .set t value .success ∉ before

/-- All that was returned is what the map returns. -/
def Legal (log : List (Event V)) : Prop :=
  ∀ before e after, log = before ++ e :: after → e.Fits before

theorem legal_snoc {log : List (Event V)} {e : Event V} (h : Legal log) (he : e.Fits log) :
    Legal (log ++ [e]) := by
  intro before e' after heq
  rcases List.eq_nil_or_concat after with rfl | ⟨after', x, rfl⟩
  · obtain ⟨rfl, hlast⟩ := List.append_inj' heq rfl
    cases hlast
    exact he
  · rw [List.concat_eq_append, ← List.cons_append, ← List.append_assoc] at heq
    exact h before e' after' (List.append_inj' heq rfl).1

theorem lastSet_snoc (t : ℕ) (log : List (Event V)) (e : Event V) :
    lastSet t (log ++ [e]) = stores t (lastSet t log) e := by
  rw [lastSet, List.foldl_append]
  rfl

theorem lastSet_of_silent {t : ℕ} {log : List (Event V)}
    (h : ∀ value, .set t value .success ∉ log) : lastSet t log = none := by
  induction log using List.reverseRecOn with
  | nil => rfl
  | append_singleton log e ih =>
    rw [lastSet_snoc, ih fun value hm => h value (List.mem_append_left _ hm)]
    cases e with
    | get t' value => rfl
    | set t' value status =>
      cases status with
      | error => rfl
      | success =>
        refine if_neg ?_
        rintro rfl
        exact h value (List.mem_append_right _ (List.mem_singleton_self _))

/-! ## The invariant -/

/-- A thread is refused where it has no index. -/
def Answered : ThreadIndex.Frame → Prop
  | .returns .success index => index ≠ uintMax
  | .returns .error index => index = uintMax
  | _ => True

/-- Each thread has its own index, at which its own value is. -/
structure Inv (available size : UInt32) (threads : ℕ) (s : State (Memory V) (Frame V)) :
    Prop where
  setUp : SetUp available size s.mem.index (s.frames.map Frame.index)
  counted : Counted size threads s.mem.index (s.frames.map Frame.index)
  answered : ∀ t f, s.top t = some f → Answered f.index
  own : ∀ t f, s.top t = some f → ∀ i ∈ f.index.holds size,
    s.mem.values i = lastSet t s.mem.log
  silent : ∀ t f, s.top t = some f → f.index.holds size = [] →
    ∀ value, .set t value .success ∉ s.mem.log
  unused : ∀ i, i ∉ handed size (s.frames.map Frame.index) → s.mem.values i = none
  full : ∀ t value, .set t value .error ∈ s.mem.log →
    (handed size (s.frames.map Frame.index)).card = size.toNat
  legal : Legal s.mem.log

section Steps

variable {available size : UInt32} {threads : ℕ} {s : State (Memory V) (Frame V)}

theorem answered_exec (available : UInt32) (f : ThreadIndex.Frame) (m : ThreadIndex.Memory) :
    Answered (ThreadIndex.exec available f m).2 := by
  cases f with
  | caller v =>
    simp only [ThreadIndex.exec]
    split_ifs with hv
    · trivial
    · exact hv
  | returns status v => trivial
  | access stage u =>
    cases stage with
    | load | spin =>
      simp only [ThreadIndex.exec]
      trivial
    | swap =>
      simp only [ThreadIndex.exec]
      split_ifs <;> trivial
    | init | publish => trivial
    | use =>
      cases u with
      | increment => trivial
      | decrement => rfl
      | compare index =>
        simp only [ThreadIndex.exec]
        split_ifs with hge
        · trivial
        · rintro rfl
          exact hge (UInt32.le_iff_toNat_le.mpr (Nat.lt_succ_iff.mp m.max.toNat_lt))

/-- A thread keeps its index. -/
theorem holds_exec {m : ThreadIndex.Memory} {f : ThreadIndex.Frame}
    {others : Multiset ThreadIndex.Frame} (hs : SetUp available size m (f ::ₘ others))
    (hf : f.holds size ≠ []) :
    (ThreadIndex.exec available f m).2.holds size = f.holds size := by
  cases f with
  | caller v =>
    have hv : v ≠ uintMax := fun he => hf (if_pos he)
    rw [ThreadIndex.exec, if_neg hv]
    rfl
  | returns status v => rfl
  | access stage u =>
    cases u with
    | increment => exact absurd rfl hf
    | decrement => exact absurd rfl hf
    | compare index =>
      have hlt : index < size := by
        by_contra hge
        exact hf (if_neg hge)
      cases stage with
      | load | spin =>
        simp only [ThreadIndex.exec]
        split <;> rfl
      | swap =>
        simp only [ThreadIndex.exec]
        split <;> rfl
      | init | publish => rfl
      | use =>
        have hmax := hs.max_eq (hs.of_use _ (Multiset.mem_cons_self ..))
        have hge : ¬ index ≥ m.max := by
          rw [hmax]
          exact UInt32.not_le.mpr hlt
        have hne : index ≠ uintMax := by
          rintro rfl
          exact hge (UInt32.le_iff_toNat_le.mpr (Nat.lt_succ_iff.mp m.max.toNat_lt))
        rw [ThreadIndex.exec, if_neg hge]
        exact (if_neg hne).trans (if_pos hlt).symm

theorem index_exec (available size : UInt32) (t : ℕ) (c : Op V) (f : Frame V) (m : Memory V) :
    (exec available size t c f m).1.index = (ThreadIndex.exec available f.index m.index).1 ∧
      (exec available size t c f m).2.index =
        (ThreadIndex.exec available f.index m.index).2 := by
  unfold exec
  cases f.index with
  | caller v => exact ⟨rfl, rfl⟩
  | access stage u => exact ⟨rfl, rfl⟩
  | returns status v => exact ⟨rfl, rfl⟩

/-- What one step of a thread does to the frames. -/
structure Turn (s s' : State (Memory V) (Frame V)) (t : ℕ) (f f' : Frame V)
    (others : Multiset (Frame V)) : Prop where
  top : s.top t = some f
  frames : s.frames = f ::ₘ others
  top' : s'.top t = some f'
  frames' : s'.frames = f' ::ₘ others
  rest : ∀ t' ≠ t, s'.top t' = s.top t'

variable {s' : State (Memory V) (Frame V)} {t : ℕ} {f f' : Frame V} {others : Multiset (Frame V)}

variable (size) in
theorem handed_turn (h : Turn s s' t f f' others) :
    handed size (s.frames.map Frame.index) =
        f.index.holds size + handed size (others.map Frame.index) ∧
      handed size (s'.frames.map Frame.index) =
        f'.index.holds size + handed size (others.map Frame.index) := by
  rw [h.frames, h.frames', Multiset.map_cons, Multiset.map_cons, handed_cons, handed_cons]
  exact ⟨rfl, rfl⟩

theorem nodup_handed {m : ThreadIndex.Memory} {fs : Multiset ThreadIndex.Frame}
    (h : Counted size threads m fs) : (handed size fs).Nodup := by
  rw [h.handed_eq]
  exact Multiset.nodup_range _

theorem Inv.held_ne (h : Inv available size threads s) {t' : ℕ} (hne : t ≠ t') {g g' : Frame V}
    (hg : s.top t = some g) (hg' : s.top t' = some g') {i i' : ℕ}
    (hi : i ∈ g.index.holds size) (hi' : i' ∈ g'.index.holds size) : i' ≠ i := by
  obtain ⟨rest, hfr⟩ := State.frames_of_tops hne hg hg'
  have hnodup := nodup_handed h.counted
  rw [hfr, Multiset.map_cons, Multiset.map_cons, handed_cons, handed_cons] at hnodup
  have hdisjoint := (Multiset.nodup_add.mp hnodup).2.2
  rintro rfl
  exact Multiset.disjoint_left.mp hdisjoint (Multiset.mem_coe.mpr hi)
    (Multiset.mem_add.mpr (Or.inl (Multiset.mem_coe.mpr hi')))

/-- A step inside `embb_internal_thread_index`; a thread that gets its index there has not been
served before. -/
theorem Inv.move (h : Inv available size threads s) (ht : Turn s s' t f f' others)
    (hu : SetUp available size s'.mem.index (s'.frames.map Frame.index))
    (hc : Counted size threads s'.mem.index (s'.frames.map Frame.index))
    (hf' : f'.index = (ThreadIndex.exec available f.index s.mem.index).2)
    (hvalues : s'.mem.values = s.mem.values) (hlog : s'.mem.log = s.mem.log) :
    Inv available size threads s' := by
  obtain ⟨hhanded, hhanded'⟩ := handed_turn size ht
  have hsame : f.index.holds size ≠ [] → f'.index.holds size = f.index.holds size := by
    intro hne
    have hs := h.setUp
    rw [ht.frames, Multiset.map_cons] at hs
    rw [hf', holds_exec hs hne]
  have hsub : ∀ i, i ∈ handed size (s.frames.map Frame.index) →
      i ∈ handed size (s'.frames.map Frame.index) := by
    intro i hi
    rw [hhanded] at hi
    rw [hhanded']
    by_cases he : f.index.holds size = []
    · rw [he, Multiset.coe_nil, zero_add] at hi
      exact Multiset.mem_add.mpr (Or.inr hi)
    · rw [hsame he]
      exact hi
  refine ⟨hu, hc, fun t' g hg => ?_, fun t' g hg i hi => ?_, fun t' g hg hnil => ?_,
    fun i hi => ?_, fun t' value hm => ?_, ?_⟩
  · rcases eq_or_ne t' t with rfl | hne
    · obtain rfl := Option.some.inj (hg.symm.trans ht.top')
      rw [hf']
      exact answered_exec ..
    · exact h.answered t' g ((ht.rest t' hne).symm.trans hg)
  · rw [hvalues, hlog]
    rcases eq_or_ne t' t with rfl | hne
    · obtain rfl := Option.some.inj (hg.symm.trans ht.top')
      by_cases he : f.index.holds size = []
      · have hnodup := nodup_handed hc
        rw [hhanded'] at hnodup
        have hdisjoint := (Multiset.nodup_add.mp hnodup).2.2
        have hnew : i ∉ handed size (s.frames.map Frame.index) := by
          rw [hhanded, he, Multiset.coe_nil, zero_add]
          exact Multiset.disjoint_left.mp hdisjoint (Multiset.mem_coe.mpr hi)
        rw [h.unused i hnew, lastSet_of_silent (h.silent t' f ht.top he)]
      · exact h.own t' f ht.top i (hsame he ▸ hi)
    · exact h.own t' g ((ht.rest t' hne).symm.trans hg) i hi
  · rw [hlog]
    rcases eq_or_ne t' t with rfl | hne
    · obtain rfl := Option.some.inj (hg.symm.trans ht.top')
      refine h.silent t' f ht.top ?_
      by_contra he
      exact he ((hsame he).symm.trans hnil)
    · exact h.silent t' g ((ht.rest t' hne).symm.trans hg) hnil
  · rw [hvalues]
    exact h.unused i fun hm => hi (hsub i hm)
  · have hfull := h.full t' value (hlog ▸ hm)
    have hle := Multiset.card_le_card
      ((Multiset.le_iff_subset (nodup_handed h.counted)).mpr fun i => hsub i)
    exact le_antisymm hc.card_le (hfull ▸ hle)
  · rw [hlog]
    exact h.legal

/-- A function returns without a store. -/
theorem Inv.answer (h : Inv available size threads s) (ht : Turn s s' t f f' others)
    (hu : SetUp available size s'.mem.index (s'.frames.map Frame.index))
    (hc : Counted size threads s'.mem.index (s'.frames.map Frame.index))
    (hf' : Answered f'.index) (hholds : f'.index.holds size = f.index.holds size) {e : Event V}
    (hvalues : s'.mem.values = s.mem.values) (hlog : s'.mem.log = s.mem.log ++ [e])
    (he : e.Fits s.mem.log) (hstores : ∀ t' old, stores t' old e = old)
    (hsuccess : ∀ t' value, e ≠ .set t' value .success)
    (herror : ∀ t' value, e = .set t' value .error →
      (handed size (s.frames.map Frame.index)).card = size.toNat) :
    Inv available size threads s' := by
  have hlast : ∀ t', lastSet t' s'.mem.log = lastSet t' s.mem.log := fun t' => by
    rw [hlog, lastSet_snoc, hstores]
  have hsilent : ∀ t' value, Event.set t' value .success ∉ s.mem.log →
      Event.set t' value .success ∉ s'.mem.log := by
    intro t' value hno hm
    rw [hlog] at hm
    rcases List.mem_append.mp hm with hm | hm
    · exact hno hm
    · exact hsuccess t' value (List.mem_singleton.mp hm).symm
  obtain ⟨hhanded, hhanded'⟩ := handed_turn size ht
  rw [hholds, ← hhanded] at hhanded'
  refine ⟨hu, hc, fun t' g hg => ?_, fun t' g hg i hi => ?_, fun t' g hg hnil value => ?_,
    fun i hi => ?_, fun t' value hm => ?_, ?_⟩
  · rcases eq_or_ne t' t with rfl | hne
    · obtain rfl := Option.some.inj (hg.symm.trans ht.top')
      exact hf'
    · exact h.answered t' g ((ht.rest t' hne).symm.trans hg)
  · rw [hvalues, hlast]
    rcases eq_or_ne t' t with rfl | hne
    · obtain rfl := Option.some.inj (hg.symm.trans ht.top')
      exact h.own t' f ht.top i (hholds ▸ hi)
    · exact h.own t' g ((ht.rest t' hne).symm.trans hg) i hi
  · refine hsilent t' value ?_
    rcases eq_or_ne t' t with rfl | hne
    · obtain rfl := Option.some.inj (hg.symm.trans ht.top')
      exact h.silent t' f ht.top (hholds ▸ hnil) value
    · exact h.silent t' g ((ht.rest t' hne).symm.trans hg) hnil value
  · rw [hvalues]
    exact h.unused i (hhanded' ▸ hi)
  · rw [hhanded']
    rw [hlog] at hm
    rcases List.mem_append.mp hm with hm | hm
    · exact h.full t' value hm
    · exact herror t' value (List.mem_singleton.mp hm).symm
  · rw [hlog]
    exact legal_snoc h.legal he

/-- A thread stores its value at its index, where no other thread looks. -/
theorem Inv.store (h : Inv available size threads s) (ht : Turn s s' t f f' others)
    (hu : SetUp available size s'.mem.index (s'.frames.map Frame.index))
    (hc : Counted size threads s'.mem.index (s'.frames.map Frame.index))
    (hf' : Answered f'.index) (hholds : f'.index.holds size = f.index.holds size) {i : ℕ}
    (hi : f.index.holds size = [i]) {value : Option V}
    (hvalues : s'.mem.values = Function.update s.mem.values i value)
    (hlog : s'.mem.log = s.mem.log ++ [.set t value .success]) :
    Inv available size threads s' := by
  have hmine : i ∈ f.index.holds size := hi ▸ List.mem_singleton_self i
  have hlast : lastSet t s'.mem.log = value := by
    rw [hlog, lastSet_snoc]
    exact if_pos rfl
  have hlast_of_ne : ∀ t' ≠ t, lastSet t' s'.mem.log = lastSet t' s.mem.log := by
    intro t' hne
    rw [hlog, lastSet_snoc]
    exact if_neg hne.symm
  obtain ⟨hhanded, hhanded'⟩ := handed_turn size ht
  rw [hholds, ← hhanded] at hhanded'
  refine ⟨hu, hc, fun t' g hg => ?_, fun t' g hg i' hi' => ?_, fun t' g hg hnil value' => ?_,
    fun i' hi' => ?_, fun t' value' hm => ?_, ?_⟩
  · rcases eq_or_ne t' t with rfl | hne
    · obtain rfl := Option.some.inj (hg.symm.trans ht.top')
      exact hf'
    · exact h.answered t' g ((ht.rest t' hne).symm.trans hg)
  · rcases eq_or_ne t' t with rfl | hne
    · obtain rfl := Option.some.inj (hg.symm.trans ht.top')
      rw [hholds, hi] at hi'
      rw [hlast, hvalues, List.mem_singleton.mp hi', Function.update_self]
    · have hg' := (ht.rest t' hne).symm.trans hg
      have hii := h.held_ne hne.symm ht.top hg' hmine hi'
      rw [hlast_of_ne t' hne, hvalues, Function.update_of_ne hii]
      exact h.own t' g hg' i' hi'
  · rcases eq_or_ne t' t with rfl | hne
    · obtain rfl := Option.some.inj (hg.symm.trans ht.top')
      rw [hholds, hi] at hnil
      cases hnil
    · rw [hlog]
      intro hm
      rcases List.mem_append.mp hm with hm | hm
      · exact h.silent t' g ((ht.rest t' hne).symm.trans hg) hnil value' hm
      · obtain ⟨rfl, -⟩ := Event.set.inj (List.mem_singleton.mp hm)
        exact hne rfl
  · have hnot : i' ∉ handed size (s.frames.map Frame.index) := hhanded' ▸ hi'
    have hii : i' ≠ i := by
      rintro rfl
      refine hnot ?_
      rw [hhanded]
      exact Multiset.mem_add.mpr (Or.inl (Multiset.mem_coe.mpr hmine))
    rw [hvalues, Function.update_of_ne hii]
    exact h.unused i' hnot
  · rw [hhanded']
    rw [hlog] at hm
    refine h.full t' value' ((List.mem_append.mp hm).resolve_right fun hm => ?_)
    cases List.mem_singleton.mp hm
  · rw [hlog]
    exact legal_snoc h.legal trivial

/-- An index that is returned is one of the storage. -/
theorem Inv.index_lt (h : Inv available size threads s) (hf : s.top t = some f) {i : ℕ}
    (hi : i ∈ f.index.holds size) : i < size.toNat := by
  have hmem := State.mem_frames_of_top hf
  have hheld : i ∈ handed size (s.frames.map Frame.index) :=
    mem_gather.mpr ⟨f.index, Multiset.mem_map_of_mem _ hmem, hi⟩
  have hle := h.counted.card_le
  rw [h.counted.handed_eq, Multiset.mem_range] at hheld
  omega

/-- A thread is refused only because it has no index. -/
theorem Inv.refused (h : Inv available size threads s) {status : ThreadIndex.Status}
    {v : UInt32} {op : Op V} (hf : s.top t = some ⟨.returns status v, op⟩)
    (hno : status ≠ .success ∨ v ≥ size) : status = .error ∧ v = uintMax := by
  have hanswered := h.answered t _ hf
  cases status with
  | error => exact ⟨rfl, hanswered⟩
  | success =>
    have hge : v ≥ size := hno.resolve_left fun hs => hs rfl
    have hlt := h.index_lt hf (i := v.toNat) (by
      rw [ThreadIndex.Frame.holds, if_neg hanswered]
      exact List.mem_singleton_self _)
    exact absurd (UInt32.le_iff_toNat_le.mp hge) (Nat.not_le.mpr hlt)

/-- The index of a thread that is served is its own. -/
theorem Inv.served (h : Inv available size threads s) {status : ThreadIndex.Status}
    {v : UInt32} {op : Op V} (hf : s.top t = some ⟨.returns status v, op⟩) (hyes : status = .success) :
    (Frame.mk (.returns status v) op).index.holds size = [v.toNat] := by
  subst hyes
  exact if_neg (h.answered t _ hf)

/-- A thread that is refused fails to set its value and gets none. -/
theorem Inv.accessRefused (h : Inv available size threads s) {status : ThreadIndex.Status}
    {v : UInt32} {op c : Op V} (hno : status ≠ .success ∨ v ≥ size)
    (ht : Turn s s' t ⟨.returns status v, op⟩ ⟨.caller v, op⟩ others)
    (hu : SetUp available size s'.mem.index (s'.frames.map Frame.index))
    (hc : Counted size threads s'.mem.index (s'.frames.map Frame.index))
    (hmem : s'.mem = (exec available size t c ⟨.returns status v, op⟩ s.mem).1) :
    Inv available size threads s' := by
  obtain ⟨rfl, rfl⟩ := h.refused ht.top hno
  have hnil : (ThreadIndex.Frame.returns .error uintMax).holds size = [] := by
    rw [ThreadIndex.Frame.holds, if_pos rfl]
  have hsilent := h.silent t _ ht.top hnil
  have hfull := h.counted.refused _
    (Multiset.mem_map_of_mem Frame.index (State.mem_frames_of_top ht.top))
    (Or.inr ⟨uintMax, rfl⟩)
  cases op with
  | set value =>
    refine h.answer ht hu hc trivial rfl (e := .set t value .error) ?_ ?_ hsilent
      (fun _ _ => rfl) (fun _ _ => by simp) (fun _ _ _ => hfull) <;>
      simp only [hmem, exec, access, if_pos hno]
  | get =>
    refine h.answer ht hu hc trivial rfl (e := .get t none) ?_ ?_
      (lastSet_of_silent hsilent).symm (fun _ _ => rfl) (fun _ _ => by simp)
      (fun _ _ _ => hfull) <;>
      simp only [hmem, exec, access, if_pos hno]

/-- A thread that is served uses the value at its own index. -/
theorem Inv.accessServed (h : Inv available size threads s) {status : ThreadIndex.Status}
    {v : UInt32} {op c : Op V} (hyes : ¬ (status ≠ .success ∨ v ≥ size))
    (ht : Turn s s' t ⟨.returns status v, op⟩ ⟨.caller v, op⟩ others)
    (hu : SetUp available size s'.mem.index (s'.frames.map Frame.index))
    (hc : Counted size threads s'.mem.index (s'.frames.map Frame.index))
    (hmem : s'.mem = (exec available size t c ⟨.returns status v, op⟩ s.mem).1) :
    Inv available size threads s' := by
  have hone := h.served ht.top (not_not.mp fun hs => hyes (Or.inl hs))
  cases op with
  | set value =>
    have hvalues : s'.mem.values = Function.update s.mem.values v.toNat value := by
      simp only [hmem, exec, access, if_neg hyes]
    have hlog : s'.mem.log = s.mem.log ++ [.set t value .success] := by
      simp only [hmem, exec, access, if_neg hyes]
    exact h.store ht hu hc trivial rfl hone hvalues hlog
  | get =>
    have hown := h.own t _ ht.top v.toNat (hone ▸ List.mem_singleton_self _)
    refine h.answer ht hu hc trivial rfl (e := .get t (s.mem.values v.toNat)) ?_ ?_ hown
      (fun _ _ => rfl) (fun _ _ => by simp) (fun _ _ => by simp) <;>
      simp only [hmem, exec, access, if_neg hyes]

theorem Inv.step (h : Inv available size threads s)
    (hfit : size = 0 ∨ threads ≤ UInt32.size) (e : ℕ × Op V) :
    Inv available size threads (Threads.step (code available size) s e) := by
  obtain ⟨t, c⟩ := e
  cases htop : s.top t with
  | none =>
    rw [step_of_top_none _ htop]
    exact h
  | some f =>
    obtain ⟨others, hfr, hmem, hfr'⟩ := step_of_top (code available size) (e := (t, c)) htop
    have ht : Turn s (Threads.step (code available size) s (t, c)) t f
        (exec available size t c f s.mem).2 others :=
      ⟨htop, hfr, top_step _ htop rfl, hfr', fun t' hne => top_step_ne _ _ hne.symm⟩
    replace hmem : (Threads.step (code available size) s (t, c)).mem =
        (exec available size t c f s.mem).1 := hmem
    obtain ⟨hm, hf'⟩ := index_exec available size t c f s.mem
    have hs := h.setUp
    have hcount := h.counted
    rw [hfr, Multiset.map_cons] at hs hcount
    have hu := hs.exec
    have hc := hcount.exec hs hfit
    rw [← hm, ← hf', ← Multiset.map_cons, ← ht.frames', ← hmem] at hu hc
    obtain ⟨index, op⟩ := f
    cases index with
    | caller v => exact h.move ht hu hc hf' (hmem ▸ rfl) (hmem ▸ rfl)
    | access stage u => exact h.move ht hu hc hf' (hmem ▸ rfl) (hmem ▸ rfl)
    | returns status v =>
      by_cases hno : status ≠ .success ∨ v ≥ size
      · exact h.accessRefused hno ht hu hc hmem
      · exact h.accessServed hno ht hu hc hmem

end Steps

section Runs

variable (available size : UInt32) (threads : ℕ)

theorem frames_boot : (boot (V := V) size threads).frames.map Frame.index =
    (ThreadIndex.boot (some size) threads).frames := by
  rw [ThreadIndex.frames_boot, State.frames, boot, List.flatten_replicate_singleton,
    Multiset.map_coe, List.map_replicate, Multiset.coe_replicate]

theorem Inv.boot : Inv available size threads (boot (V := V) size threads) := by
  have hno : ∀ t f, (ThreadSpecificStorage.boot (V := V) size threads).top t = some f →
      f = ⟨.caller uintMax, .get⟩ := by
    intro t f hf
    have hmem := State.mem_frames_of_top hf
    rw [State.frames, ThreadSpecificStorage.boot, List.flatten_replicate_singleton] at hmem
    exact List.eq_of_mem_replicate (Multiset.mem_coe.mp hmem)
  refine ⟨?_, ?_, fun t f hf => ?_, fun t f hf i hi => ?_, fun t f hf _ value hm => ?_,
    fun _ _ => rfl, fun t value hm => ?_, fun before e after heq => ?_⟩
  · have hu : SetUp available (maximum available (some size))
        (ThreadIndex.boot (some size) threads).mem _ := setUp_boot
    rw [frames_boot]
    exact hu
  · have hc : Counted (maximum available (some size)) threads
        (ThreadIndex.boot (some size) threads).mem _ := counted_boot
    rw [frames_boot]
    exact hc
  · cases hno t f hf
    trivial
  · cases hno t f hf
    cases hi
  · cases hm
  · cases hm
  · exact absurd heq.symm (List.append_ne_nil_of_right_ne_nil _ (List.cons_ne_nil _ _))

theorem Inv.run (hfit : size = 0 ∨ threads ≤ UInt32.size) (es : List (ℕ × Op V)) :
    Inv available size threads
      (run (code available size) (ThreadSpecificStorage.boot size threads) es) := by
  induction es using List.reverseRecOn with
  | nil => exact Inv.boot available size threads
  | append_singleton es e ih =>
    rw [run_append]
    exact ih.step hfit e

/-- However the threads interleave, each gets the value that it has set last, and a thread is
refused only if it never was served and all indices of the storage are with other threads. -/
theorem storage_per_thread (hfit : size = 0 ∨ threads ≤ UInt32.size) (es : List (ℕ × Op V)) :
    Legal (run (code available size) (boot size threads) es).mem.log ∧
      ∀ t value, .set t value .error ∈
          (run (code available size) (boot size threads) es).mem.log →
        (handed size ((run (code available size) (boot size threads) es).frames.map
          Frame.index)).card = size.toNat :=
  have h := Inv.run available size threads hfit es
  ⟨h.legal, h.full⟩

/-- The second of two threads comes too late for the only value. -/
theorem storage_per_thread_one : ∃ es : List (ℕ × Op ℕ),
    (run (code 4 1) (boot 1 2) es).mem.log =
      [.set 0 (some 7) .success, .set 1 (some 8) .error, .get 0 (some 7)] ∧
    Legal (run (code 4 1) (boot 1 2) es).mem.log ∧
    ∀ t value, .set t value .error ∈ (run (code 4 1) (boot 1 2) es).mem.log →
      (handed 1 ((run (code 4 1) (boot 1 2) es).frames.map Frame.index)).card = 1 :=
  ⟨List.replicate 10 (0, Op.set (some 7)) ++ List.replicate 8 (1, Op.set (some 8)) ++
      List.replicate 3 (0, Op.get),
    by decide +kernel, storage_per_thread 4 1 2 (Or.inr (by decide)) _⟩

end Runs

end Embb.Base.ThreadSpecificStorage
