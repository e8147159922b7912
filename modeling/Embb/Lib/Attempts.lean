import Mathlib.Algebra.BigOperators.Group.Finset.Basic
import Mathlib.Algebra.BigOperators.Ring.Finset
import Mathlib.Algebra.Order.BigOperators.Group.Finset
import Embb.Lib.Threads

/-!
# Attempts of lock-free operations

An operation without locks reads shared memory, prepares a change, and makes it if what it has
read is still there; otherwise it tries again. What a thread has read goes stale only by a
change that another thread makes, and an attempt that fails reads again. So the failures of a
thread are at most as many as the changes of the others, and where every attempt is short the
steps of a thread are bounded by its calls and these changes.
-/

namespace Embb.Threads

variable {M F C : Type}

/-- The number of steps of a run with a property of their thread, choice, frame and memory. -/
def count (code : Code M F C) (p : ℕ → C → F → M → Bool) : State M F → List (ℕ × C) → ℕ
  | _, [] => 0
  | s, e :: es =>
    ((s.top e.1).any fun f => p e.1 e.2 f s.mem).toNat + count code p (step code s e) es

/-- Threads that begin at one frame, -/
theorem top_replicate (m : M) (f : F) {n t : ℕ} (h : t < n) :
    State.top ⟨m, List.replicate n [f]⟩ t = some f := by
  rw [State.top, List.getElem?_replicate, if_pos h]
  rfl

/-- and threads that are not there. -/
theorem top_replicate_of_le (m : M) (f : F) {n t : ℕ} (h : n ≤ t) :
    State.top ⟨m, List.replicate n [f]⟩ t = none := by
  rw [State.top, List.getElem?_replicate, if_neg h.not_gt]
  rfl

/-- The steps of one thread. -/
def own (t : ℕ) (p : C → F → M → Bool) : ℕ → C → F → M → Bool := fun t' c f m =>
  decide (t' = t) && p c f m

/-- The steps of all threads but one. -/
def others (t : ℕ) (p : C → F → M → Bool) : ℕ → C → F → M → Bool := fun t' c f m =>
  decide (t' ≠ t) && p c f m

theorem count_add (code : Code M F C) {p q r : ℕ → C → F → M → Bool}
    (h : ∀ t c f m, (p t c f m).toNat = (q t c f m).toNat + (r t c f m).toNat)
    (s : State M F) (es : List (ℕ × C)) :
    count code p s es = count code q s es + count code r s es := by
  induction es generalizing s with
  | nil => rfl
  | cons e es ih =>
    rw [count, count, count, ih]
    cases s.top e.1 with
    | none => exact Nat.add_add_add_comm 0 0 _ _
    | some f =>
      simp only [Option.any_some, h]
      exact Nat.add_add_add_comm ..

theorem count_le (code : Code M F C) {p q : ℕ → C → F → M → Bool}
    (h : ∀ t c f m, (p t c f m).toNat ≤ (q t c f m).toNat) (s : State M F) (es : List (ℕ × C)) :
    count code p s es ≤ count code q s es := by
  induction es generalizing s with
  | nil => exact Nat.le_refl _
  | cons e es ih =>
    rw [count, count]
    refine Nat.add_le_add ?_ (ih _)
    cases s.top e.1 with
    | none => exact Nat.le_refl _
    | some f => exact h e.1 e.2 f s.mem

theorem count_le_add (code : Code M F C) {p q r : ℕ → C → F → M → Bool}
    (h : ∀ t c f m, (p t c f m).toNat ≤ (q t c f m).toNat + (r t c f m).toNat)
    (s : State M F) (es : List (ℕ × C)) :
    count code p s es ≤ count code q s es + count code r s es := by
  induction es generalizing s with
  | nil => exact Nat.le_refl _
  | cons e es ih =>
    have hrest := ih (step code s e)
    rw [count, count, count]
    cases s.top e.1 with
    | none =>
      simp only [Option.any_none, Bool.toNat_false]
      omega
    | some f =>
      have hstep := h e.1 e.2 f s.mem
      simp only [Option.any_some]
      omega

theorem toNat_or_le (a b : Bool) : (a || b).toNat ≤ a.toNat + b.toNat := by
  cases a <;> cases b <;> decide

theorem own_le {p q : C → F → M → Bool} (h : ∀ c f m, (p c f m).toNat ≤ (q c f m).toNat)
    (t t' : ℕ) (c : C) (f : F) (m : M) : (own t p t' c f m).toNat ≤ (own t q t' c f m).toNat := by
  by_cases ht : t' = t
  · simp only [own, ht, decide_true, Bool.true_and]
    exact h c f m
  · simp only [own, ht, decide_false, Bool.false_and, Nat.le_refl]

theorem own_le_add {p q r : C → F → M → Bool}
    (h : ∀ c f m, (p c f m).toNat ≤ (q c f m).toNat + (r c f m).toNat)
    (t t' : ℕ) (c : C) (f : F) (m : M) :
    (own t p t' c f m).toNat ≤ (own t q t' c f m).toNat + (own t r t' c f m).toNat := by
  by_cases ht : t' = t
  · simp only [own, ht, decide_true, Bool.true_and]
    exact h c f m
  · simp only [own, ht, decide_false, Bool.false_and, Bool.toNat_false, Nat.le_refl]

theorem count_own_cons (code : Code M F C) {p : C → F → M → Bool} {s : State M F} {t : ℕ} {f : F}
    (h : s.top t = some f) (c : C) (es : List (ℕ × C)) :
    count code (own t p) s ((t, c) :: es) =
      (p c f s.mem).toNat + count code (own t p) (step code s (t, c)) es := by
  rw [count, h]
  simp only [Option.any_some, own, decide_true, Bool.true_and]

theorem count_own_cons_of_ne (code : Code M F C) (p : C → F → M → Bool) (s : State M F)
    {e : ℕ × C} {t : ℕ} (he : e.1 ≠ t) (es : List (ℕ × C)) :
    count code (own t p) s (e :: es) = count code (own t p) (step code s e) es := by
  rw [count]
  cases s.top e.1 with
  | none => exact Nat.zero_add _
  | some f =>
    simp only [Option.any_some, own, he, decide_false, Bool.false_and, Bool.toNat_false,
      Nat.zero_add]

theorem count_others_cons (code : Code M F C) (p : C → F → M → Bool) (s : State M F) (t : ℕ)
    (c : C) (es : List (ℕ × C)) :
    count code (others t p) s ((t, c) :: es) =
      count code (others t p) (step code s (t, c)) es := by
  rw [count]
  cases s.top t with
  | none => exact Nat.zero_add _
  | some f =>
    simp only [Option.any_some, others, ne_eq, not_true, decide_false, Bool.false_and,
      Bool.toNat_false, Nat.zero_add]

theorem count_others_cons_of_ne (code : Code M F C) {p : C → F → M → Bool} {s : State M F}
    {e : ℕ × C} {t : ℕ} {f : F} (h : s.top e.1 = some f) (he : e.1 ≠ t) (es : List (ℕ × C)) :
    count code (others t p) s (e :: es) =
      (p e.2 f s.mem).toNat + count code (others t p) (step code s e) es := by
  rw [count, h]
  simp only [Option.any_some, others, he, ne_eq, not_false_eq_true, decide_true, Bool.true_and]

/-- Every step is one of the thread or one of the others. -/
theorem count_own_add_others (code : Code M F C) (t : ℕ) (p : C → F → M → Bool) (s : State M F)
    (es : List (ℕ × C)) :
    count code (own t p) s es + count code (others t p) s es = count code (fun _ => p) s es := by
  refine (count_add code (fun t' c f m => ?_) s es).symm
  by_cases ht : t' = t
  · simp only [own, others, ht, decide_true, Bool.true_and, ne_eq, not_true, decide_false,
      Bool.false_and, Bool.toNat_false, Nat.add_zero]
  · simp only [own, others, ht, decide_false, Bool.false_and, ne_eq, not_false_eq_true,
      decide_true, Bool.true_and, Bool.toNat_false, Nat.zero_add]

/-- What every step raises by one where it has the property counts the steps that have it. -/
theorem measure_run {code : Code M F C} {p : ℕ → C → F → M → Bool} {μ : M → ℕ}
    (h : ∀ t c f m, μ (code t c f m).1 = μ m + (p t c f m).toNat) (s : State M F)
    (es : List (ℕ × C)) : μ (run code s es).mem = μ s.mem + count code p s es := by
  induction es generalizing s with
  | nil => rfl
  | cons e es ih =>
    rw [run_cons, ih, count, ← Nat.add_assoc]
    cases htop : s.top e.1 with
    | none =>
      rw [step_of_top_none code htop]
      rfl
    | some f =>
      rw [mem_step code htop, h]
      rfl

/-- What every step of a guarded run raises at least by one where it has the property bounds
the steps that have it. -/
theorem measure_le_run {code : Code M F C} {g : Guard M F C} {inv : M → Multiset F → Prop}
    {p : C → F → M → Bool} {μ : M → ℕ} (hp : Preserves code g inv)
    (h : ∀ t c f m others, inv m (f ::ₘ others) → μ m + (p c f m).toNat ≤ μ (code t c f m).1)
    {s : State M F} {es : List (ℕ × C)} (hg : Always code g s es) (hi : inv s.mem s.frames) :
    μ s.mem + count code (fun _ => p) s es ≤ μ (run code s es).mem := by
  induction es generalizing s with
  | nil => exact Nat.le_refl _
  | cons e es ih =>
    have hrest := ih hg.2 (hp.step hg.1 hi)
    rw [run_cons, count]
    cases htop : s.top e.1 with
    | none =>
      rw [step_of_top_none code htop] at hrest ⊢
      exact (Nat.add_le_add_left (Nat.zero_add _).le _).trans hrest
    | some f =>
      obtain ⟨others, hf, -, -⟩ := step_of_top code htop
      have hstep := h e.1 e.2 f s.mem others (hf ▸ hi)
      rw [mem_step code htop] at hrest
      rw [Option.any_some, ← Nat.add_assoc]
      exact (Nat.add_le_add_right hstep _).trans hrest

/-- A thread that is not there takes no steps. -/
theorem count_own_of_none (code : Code M F C) {t : ℕ} {p : C → F → M → Bool} {s : State M F}
    (h : s.top t = none) (es : List (ℕ × C)) : count code (own t p) s es = 0 := by
  induction es generalizing s with
  | nil => rfl
  | cons e es ih =>
    by_cases he : e.1 = t
    · have hnone : s.top e.1 = none := he ▸ h
      rw [count, step_of_top_none code hnone, ih h, hnone]
      rfl
    · rw [count_own_cons_of_ne code p s he, ih ((top_step_ne code s he).trans h)]

/-- The steps of all threads are the sum of those of each. -/
theorem sum_count_own (code : Code M F C) (p : C → F → M → Bool) (s : State M F)
    (es : List (ℕ × C)) :
    (∑ t ∈ Finset.range s.callStacks.length, count code (own t p) s es) =
      count code (fun _ => p) s es := by
  induction es generalizing s with
  | nil => exact Finset.sum_const_zero
  | cons e es ih =>
    simp only [count, Finset.sum_add_distrib]
    rw [← length_step code s e, ih, length_step]
    congr 1
    cases htop : s.top e.1 with
    | none => exact Finset.sum_const_zero
    | some f =>
      rw [Finset.sum_eq_single e.1]
      · simp only [Option.any_some, own, decide_true, Bool.true_and]
      · intro t _ hne
        simp only [Option.any_some, own, hne.symm, decide_false, Bool.false_and,
          Bool.toNat_false]
      · exact fun h => absurd (Finset.mem_range.mpr (State.lt_of_top htop)) h

/-- The step `exec` of a thread that jumps from frame to frame. -/
def Jumps (code : Code M F C) (exec : ℕ → C → F → M → M × F) : Prop :=
  ∀ t c f m, code t c f m = ((exec t c f m).1, [(exec t c f m).2])

/-- An attempt fails only where what it has read is stale, and then reads again; only the
changes of other threads make it stale. -/
structure Retries (exec : ℕ → C → F → M → M × F) (fails changes : C → F → M → Bool)
    (stale : M → F → Bool) : Prop where
  own : ∀ t c f m, (fails c f m).toNat + (stale (exec t c f m).1 (exec t c f m).2).toNat ≤
    (stale m f).toNat
  others : ∀ t c f m g,
    (stale (exec t c f m).1 g).toNat ≤ (stale m g).toNat + (changes c f m).toNat

/-- Every step inside an operation lowers the rank, which a call and a new attempt raise by at
most the bound. -/
structure Short (exec : ℕ → C → F → M → M × F) (inside calls again : C → F → M → Bool)
    (rank : F → ℕ) (bound : ℕ) : Prop where
  step : ∀ t c f m, (inside c f m).toNat + rank (exec t c f m).2 ≤
    rank f + bound * ((calls c f m).toNat + (again c f m).toNat)

section Bounds

variable {code : Code M F C} {exec : ℕ → C → F → M → M × F}

/-- A thread fails at most as often as the others make a change. -/
theorem fails_le {fails changes : C → F → M → Bool} {stale : M → F → Bool}
    (hj : Jumps code exec) (h : Retries exec fails changes stale) {s : State M F} {t : ℕ} {f : F}
    (hf : s.top t = some f) (es : List (ℕ × C)) :
    count code (own t fails) s es ≤
      (stale s.mem f).toNat + count code (others t changes) s es := by
  induction es generalizing s f with
  | nil => exact Nat.zero_le _
  | cons e es ih =>
    obtain ⟨t', c⟩ := e
    rcases eq_or_ne t' t with rfl | he
    · have htop : s.top (t', c).1 = some f := hf
      have hrest := ih (top_step code htop (congrArg Prod.snd (hj t' c f s.mem)))
      have hown := h.own t' c f s.mem
      have hmem : (step code s (t', c)).mem = (exec t' c f s.mem).1 :=
        (mem_step code htop).trans (congrArg Prod.fst (hj t' c f s.mem))
      rw [hmem] at hrest
      rw [count_own_cons code hf, count_others_cons]
      omega
    · have hne : (t', c).1 ≠ t := he
      have hrest := ih ((top_step_ne code s hne).trans hf)
      rw [count_own_cons_of_ne code fails s he]
      cases htop : s.top (t', c).1 with
      | none =>
        rw [step_of_top_none code htop] at hrest ⊢
        rw [count, htop, step_of_top_none code htop]
        exact hrest.trans (Nat.add_le_add_left (Nat.le_add_left ..) _)
      | some g =>
        have hothers := h.others t' c g s.mem f
        have hmem : (step code s (t', c)).mem = (exec t' c g s.mem).1 :=
          (mem_step code htop).trans (congrArg Prod.fst (hj t' c g s.mem))
        rw [hmem] at hrest
        rw [count_others_cons_of_ne code htop he]
        dsimp only
        omega

/-- A thread takes at most so many steps inside its operations for each call and for each new
attempt, where every step that an invariant allows lowers the rank but for these. -/
theorem steps_le_of_inv {g : Guard M F C} {inv : M → Multiset F → Prop}
    {inside calls again : C → F → M → Bool} {rank : F → ℕ} {bound extra : ℕ}
    (hp : Preserves code g inv) (hj : Jumps code exec)
    (h : ∀ t c f m others, inv m (f ::ₘ others) →
      (inside c f m).toNat + rank (exec t c f m).2 ≤
        rank f + bound * (calls c f m).toNat + extra * (again c f m).toNat)
    {s : State M F} {t : ℕ} {f : F} (hf : s.top t = some f) {es : List (ℕ × C)}
    (hg : Always code g s es) (hi : inv s.mem s.frames) :
    count code (own t inside) s es ≤
      rank f + bound * count code (own t calls) s es +
        extra * count code (own t again) s es := by
  induction es generalizing s f with
  | nil => exact Nat.zero_le _
  | cons e es ih =>
    obtain ⟨t', c⟩ := e
    have hnext := hp.step hg.1 hi
    rcases eq_or_ne t' t with rfl | he
    · have htop : s.top (t', c).1 = some f := hf
      have hrest := ih (top_step code htop (congrArg Prod.snd (hj t' c f s.mem))) hg.2 hnext
      obtain ⟨others, hframes, -, -⟩ := step_of_top code htop
      have hstep := h t' c f s.mem others (hframes ▸ hi)
      rw [count_own_cons code hf, count_own_cons code hf, count_own_cons code hf,
        Nat.mul_add, Nat.mul_add]
      omega
    · rw [count_own_cons_of_ne code inside s he, count_own_cons_of_ne code calls s he,
        count_own_cons_of_ne code again s he]
      have hne : (t', c).1 ≠ t := he
      exact ih ((top_step_ne code s hne).trans hf) hg.2 hnext

/-- Where only calls raise the rank, every call has at most so many of the steps. -/
theorem calls_le_of_inv {g : Guard M F C} {inv : M → Multiset F → Prop}
    {inside calls : C → F → M → Bool} {rank : F → ℕ} {bound : ℕ}
    (hp : Preserves code g inv) (hj : Jumps code exec)
    (h : ∀ t c f m others, inv m (f ::ₘ others) →
      (inside c f m).toNat + rank (exec t c f m).2 ≤ rank f + bound * (calls c f m).toNat)
    {s : State M F} {t : ℕ} {f : F} (hf : s.top t = some f) {es : List (ℕ × C)}
    (hg : Always code g s es) (hi : inv s.mem s.frames) :
    count code (own t inside) s es ≤ rank f + bound * count code (own t calls) s es := by
  have hstep : ∀ t c f m others, inv m (f ::ₘ others) →
      (inside c f m).toNat + rank (exec t c f m).2 ≤
        rank f + bound * (calls c f m).toNat + 0 * (inside c f m).toNat := by
    intro t c f m others hinv
    rw [Nat.zero_mul, Nat.add_zero]
    exact h t c f m others hinv
  have hle := steps_le_of_inv hp hj hstep hf hg hi
  rwa [Nat.zero_mul, Nat.add_zero] at hle

/-- A thread takes at most so many steps inside its operations for each of its attempts. -/
theorem steps_le {inside calls again : C → F → M → Bool} {rank : F → ℕ} {bound : ℕ}
    (hj : Jumps code exec) (h : Short exec inside calls again rank bound) {s : State M F} {t : ℕ}
    {f : F} (hf : s.top t = some f) (es : List (ℕ × C)) :
    count code (own t inside) s es ≤
      rank f + bound * (count code (own t calls) s es + count code (own t again) s es) := by
  have hp : Preserves code (fun _ _ _ _ _ => True) fun (_ : M) (_ : Multiset F) => True :=
    fun _ _ _ _ _ _ _ => trivial
  have hstep : ∀ t c f m (_ : Multiset F), True →
      (inside c f m).toNat + rank (exec t c f m).2 ≤
        rank f + bound * (calls c f m).toNat + bound * (again c f m).toNat := by
    intro t c f m _ _
    rw [Nat.add_assoc, ← Nat.mul_add]
    exact h.step t c f m
  rw [Nat.mul_add, ← Nat.add_assoc]
  exact steps_le_of_inv hp hj hstep hf (Always.of_forall (fun _ _ _ _ _ => trivial) s es) trivial

/-- The steps of all threads but one are the sum of those of each. -/
theorem sum_count_own_erase (code : Code M F C) (p : C → F → M → Bool) (s : State M F) (t : ℕ)
    (es : List (ℕ × C)) :
    (∑ t' ∈ (Finset.range s.callStacks.length).erase t, count code (own t' p) s es) =
      count code (others t p) s es := by
  have hsum := sum_count_own code p s es
  have hsplit := count_own_add_others code t p s es
  rcases Nat.lt_or_ge t s.callStacks.length with ht | ht
  · rw [← Finset.add_sum_erase _ _ (Finset.mem_range.mpr ht)] at hsum
    omega
  · have hnone : s.top t = none := by
      rw [State.top, List.getElem?_eq_none ht]
      rfl
    rw [count_own_of_none code hnone] at hsplit
    rw [Finset.erase_eq_of_notMem (fun hm => ht.not_gt (Finset.mem_range.mp hm)), hsum]
    omega

/-- What holds of the steps of each thread holds of those of all threads but one. -/
theorem others_le_mul {p q : C → F → M → Bool} {k : ℕ} {s : State M F} {es : List (ℕ × C)}
    (h : ∀ t, count code (own t p) s es ≤ k * count code (own t q) s es) (t : ℕ) :
    count code (others t p) s es ≤ k * count code (others t q) s es := by
  rw [← sum_count_own_erase, ← sum_count_own_erase, Finset.mul_sum]
  exact Finset.sum_le_sum fun t' _ => h t'

/-- The failures of all threads: each change makes at most the others fail once. -/
theorem total_fails_le {fails changes : C → F → M → Bool} {stale : M → F → Bool}
    (hj : Jumps code exec) (h : Retries exec fails changes stale) {s : State M F}
    (hs : ∀ t < s.callStacks.length, ∃ f, s.top t = some f ∧ stale s.mem f = false)
    (es : List (ℕ × C)) :
    count code (fun _ => fails) s es ≤
      (s.callStacks.length - 1) * count code (fun _ => changes) s es := by
  have heach : ∀ t ∈ Finset.range s.callStacks.length,
      count code (own t fails) s es ≤ count code (others t changes) s es := by
    intro t ht
    obtain ⟨f, hf, hstale⟩ := hs t (Finset.mem_range.mp ht)
    have hle := fails_le hj h hf es
    rwa [hstale, Bool.toNat_false, Nat.zero_add] at hle
  have hsum := Finset.sum_le_sum heach
  have hall : (∑ t ∈ Finset.range s.callStacks.length, count code (others t changes) s es) +
      count code (fun _ => changes) s es =
      s.callStacks.length * count code (fun _ => changes) s es := by
    calc (∑ t ∈ Finset.range s.callStacks.length, count code (others t changes) s es) +
          count code (fun _ => changes) s es
        = ∑ t ∈ Finset.range s.callStacks.length,
            (count code (own t changes) s es + count code (others t changes) s es) := by
          rw [Finset.sum_add_distrib, sum_count_own, Nat.add_comm]
      _ = ∑ _t ∈ Finset.range s.callStacks.length, count code (fun _ => changes) s es :=
          Finset.sum_congr rfl fun t _ => count_own_add_others code t changes s es
      _ = s.callStacks.length * count code (fun _ => changes) s es := by
          rw [Finset.sum_const_nat fun _ _ => rfl, Finset.card_range]
  rw [sum_count_own] at hsum
  rw [Nat.sub_mul, Nat.one_mul]
  omega

end Bounds

end Embb.Threads
