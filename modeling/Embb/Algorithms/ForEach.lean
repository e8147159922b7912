import Mathlib.Order.Interval.Set.Basic
import Embb.Algorithms.Partition
import Embb.Lib.ForkJoin

/-!
# Parallel for each

A task for one chunk applies the function to its elements one after the other; a task for
several chunks spawns one task for each half of them and waits for both. Every element
counts how often the function has been applied to it.
-/

namespace Embb.Algorithms.ForEach

open ForkJoin

/-- An element, and the number of calls of the function that it has been passed to. -/
structure Element (V : Type) where
  value : V
  calls : ℕ
  deriving DecidableEq, Repr

abbrev Memory (V : Type) := ℕ → Element V

variable {V : Type}

/-- The function is called with the element. -/
def Element.apply (unary : V → V) (e : Element V) : Element V := ⟨unary e.value, e.calls + 1⟩

/-- The members of a functor that its action reads. -/
structure ForEachFunctor (V : Type) where
  chunkFirst : ℕ
  chunkLast : ℕ
  unary : V → V
  partitioner : BlockSizePartitioner
  le : chunkFirst ≤ chunkLast

/-- The loop over the positions of a chunk, which ends at `last`. -/
def forEachElement (unary : V → V) (last it : ℕ) : Prog (Memory V) :=
  if it < last then
    .act (fun m => Function.update m it ((m it).apply unary)) fun _ =>
      forEachElement unary last (it + 1)
  else .done
termination_by last - it

namespace ForEachFunctor

theorem split_lt (f : ForEachFunctor V) (h : f.chunkFirst ≠ f.chunkLast) :
    f.chunkFirst ≤ (f.chunkFirst + f.chunkLast) / 2 ∧
      (f.chunkFirst + f.chunkLast) / 2 + 1 ≤ f.chunkLast := by
  have hle := f.le
  omega

/-- `functor_l`. -/
def functorL (f : ForEachFunctor V) (h : f.chunkFirst ≠ f.chunkLast) : ForEachFunctor V :=
  { f with chunkLast := (f.chunkFirst + f.chunkLast) / 2, le := (f.split_lt h).1 }

/-- `functor_r`. -/
def functorR (f : ForEachFunctor V) (h : f.chunkFirst ≠ f.chunkLast) : ForEachFunctor V :=
  { f with chunkFirst := (f.chunkFirst + f.chunkLast) / 2 + 1, le := (f.split_lt h).2 }

/-- `ForEachFunctor::Action`. -/
def action (f : ForEachFunctor V) : Prog (Memory V) :=
  if h : f.chunkFirst = f.chunkLast then
    let chunk := f.partitioner.chunk f.chunkFirst
    forEachElement f.unary chunk.last chunk.first
  else
    -- one step of the task leaves the elements alone and spawns the two tasks
    .act id fun _ => .fork (functorL f h).action (functorR f h).action .done
termination_by f.chunkLast - f.chunkFirst
decreasing_by
  all_goals
    have hsplit := f.split_lt h
    simp only [functorL, functorR]
    omega

/-- The functor of the task for all chunks. -/
def whole (unary : V → V) (partitioner : BlockSizePartitioner) : ForEachFunctor V :=
  ⟨0, partitioner.size - 1, unary, partitioner, Nat.zero_le _⟩

end ForEachFunctor

/-- `ForEachRecursive`. -/
def forEachRecursive (first last : ℕ) (unary : V → V) (numCores blockSize : ℕ) :
    Except Error (Prog (Memory V)) :=
  let distance : ℤ := last - first
  if distance = 0 then .ok .done
  else if distance < 0 then .error .negativeRange
  else if numCores = 0 then .error .noCores
  else
    let blockSize := usedBlockSize distance.toNat numCores blockSize
    if distance.toNat / blockSize * 2 + 1 > nodeMaxTasksDefault then .error .notEnoughTasks
    else
      let partitioner : BlockSizePartitioner := ⟨first, last, blockSize⟩
      let functor := ForEachFunctor.whole unary partitioner
      .ok (.fork functor.action .done .done)

/-! ## The chunks of a task -/

namespace ForEachFunctor

/-- The positions of the chunks of a functor. -/
def range (f : ForEachFunctor V) : Set ℕ :=
  Set.Ico (f.partitioner.chunk f.chunkFirst).first (f.partitioner.chunk f.chunkLast).last

/-- A functor whose chunks are chunks of a range that is not empty. -/
structure Valid (f : ForEachFunctor V) : Prop where
  partitioner : f.partitioner.Valid
  lt_size : f.chunkLast < f.partitioner.size

variable {f : ForEachFunctor V}

theorem Valid.functorL (hf : f.Valid) (h : f.chunkFirst ≠ f.chunkLast) : (f.functorL h).Valid :=
  ⟨hf.partitioner, Nat.lt_trans (f.split_lt h).2 hf.lt_size⟩

theorem Valid.functorR (hf : f.Valid) (h : f.chunkFirst ≠ f.chunkLast) : (f.functorR h).Valid :=
  ⟨hf.partitioner, hf.lt_size⟩

/-- The two halves of the chunks cut the positions in two. -/
theorem Valid.halves (hf : f.Valid) (h : f.chunkFirst ≠ f.chunkLast) :
    ∃ a mid b, a ≤ mid ∧ mid ≤ b ∧ f.range = Set.Ico a b ∧
      (f.functorL h).range = Set.Ico a mid ∧ (f.functorR h).range = Set.Ico mid b := by
  obtain ⟨hL, hR⟩ := f.split_lt h
  have hlast := hf.lt_size
  have hmid := BlockSizePartitioner.chunk_last_eq_first
    (p := f.partitioner) (Nat.lt_of_le_of_lt hR hlast)
  refine ⟨_, (f.partitioner.chunk ((f.chunkFirst + f.chunkLast) / 2 + 1)).first, _, ?_, ?_, rfl,
    ?_, rfl⟩
  · exact f.partitioner.chunk_first_mono (Nat.le_succ_of_le hL)
  · exact Nat.le_of_lt (hf.partitioner.chunk_first_lt_last_of_le hR hlast)
  · rw [← hmid]
    rfl

end ForEachFunctor

theorem disjoint_halves (a mid b : ℕ) : ∀ i ∈ Set.Ico a mid, i ∉ Set.Ico mid b :=
  fun _ hi hi' => Nat.not_lt.mpr hi'.1 hi.2

/-! ## What the tasks do -/

/-- The loop passes each element that is left to the function, in whatever way the other
elements change in the meantime. -/
theorem good_forEachElement (unary : V → V) (v : Memory V) (first last it : ℕ) :
    ∀ m : Memory V, first ≤ it → Set.EqOn m v (Set.Ico first it) →
    (∀ i ∈ Set.Ico it last, (m i).apply unary = v i) →
    Good (Set.Ico first last) (fun m' => Set.EqOn m' v (Set.Ico first last))
      (forEachElement unary last it) m := by
  induction it using forEachElement.induct last with
  | case1 it hlt ih =>
    intro m hle hbefore hafter
    have hit : it ∈ Set.Ico first last := ⟨hle, hlt⟩
    rw [forEachElement, if_pos hlt]
    refine Good.of_act fun m₁ hm₁ => ⟨eqOn_update m₁ hit _, ?_⟩
    apply ih _ (Nat.le_succ_of_le hle)
    · intro i hi
      rcases Nat.lt_succ_iff_lt_or_eq.mp hi.2 with hi' | rfl
      · rw [Function.update_of_ne (Nat.ne_of_lt hi'), hm₁ ⟨hi.1, Nat.lt_trans hi' hlt⟩]
        exact hbefore ⟨hi.1, hi'⟩
      · rw [Function.update_self, hm₁ hit]
        exact hafter _ ⟨le_rfl, hlt⟩
    · intro i hi
      have hlt' : it < i := hi.1
      rw [Function.update_of_ne (Nat.ne_of_gt hlt'),
        hm₁ ⟨Nat.le_trans hle (Nat.le_of_lt hlt'), hi.2⟩]
      exact hafter i ⟨Nat.le_of_lt hlt', hi.2⟩
  | case2 it hge =>
    intro m _ hbefore _
    rw [forEachElement, if_neg hge]
    refine Good.of_done fun m' hm' i hi => ?_
    rw [hm' hi]
    exact hbefore ⟨hi.1, Nat.lt_of_lt_of_le hi.2 (Nat.not_lt.mp hge)⟩

/-- The task for some chunks passes each of their elements to the function once, in whatever
order the tasks that it spawns take their steps. -/
theorem good_action (v : Memory V) (f : ForEachFunctor V) : ∀ m : Memory V, f.Valid →
    (∀ i ∈ f.range, (m i).apply f.unary = v i) →
    Good f.range (fun m' => Set.EqOn m' v f.range) f.action m := by
  induction f using ForEachFunctor.action.induct with
  | case1 f h =>
    intro m _ hm
    rw [ForEachFunctor.action, dif_pos h]
    unfold ForEachFunctor.range at hm ⊢
    rw [← h] at hm ⊢
    exact good_forEachElement f.unary v _ _ _ m le_rfl
      (fun i hi => absurd hi.2 (Nat.not_lt.mpr hi.1))
      hm
  | case2 f h ihl ihr =>
    intro m hf hm
    obtain ⟨a, mid, b, hamid, hmidb, hrange, hL, hR⟩ := hf.halves h
    rw [hL] at ihl
    rw [hR] at ihr
    rw [hrange] at hm ⊢
    rw [ForEachFunctor.action, dif_neg h]
    refine Good.of_act fun m₁ hm₁ => ⟨fun _ _ => rfl, ?_⟩
    have hleft : Set.Ico a mid ⊆ Set.Ico a b := Set.Ico_subset_Ico_right hmidb
    have hright : Set.Ico mid b ⊆ Set.Ico a b := Set.Ico_subset_Ico_left hamid
    refine Good.of_fork hleft hright (disjoint_halves a mid b)
      (ihl m₁ (hf.functorL h) fun i hi => ?_) (ihr m₁ (hf.functorR h) fun i hi => ?_)
      fun m₂ hl hr _ => Good.of_done fun m₃ hm₃ i hi => ?_
    · rw [hm₁ (hleft hi)]
      exact hm i (hleft hi)
    · rw [hm₁ (hright hi)]
      exact hm i (hright hi)
    · rw [hm₃ hi]
      rcases Nat.lt_or_ge i mid with hlt | hge
      · exact hl ⟨hi.1, hlt⟩
      · exact hr ⟨hge, hi.2⟩

/-! ## How many tasks there are -/

theorem forks_forEachElement (unary : V → V) (last it : ℕ) :
    (forEachElement unary last it).forks = 0 := by
  rw [forEachElement]
  split <;> rfl

theorem spends_forEachElement (unary : V → V) (first last it : ℕ) : ∀ m : Memory V, first ≤ it →
    Spends (Set.Ico first last) 0 (forEachElement unary last it) m := by
  induction it using forEachElement.induct last with
  | case1 it hlt ih =>
    intro m hle
    have hit : it ∈ Set.Ico first last := ⟨hle, hlt⟩
    rw [forEachElement, if_pos hlt]
    refine Spends.of_act fun m₁ _ => ⟨eqOn_update m₁ hit _, ?_⟩
    rw [forks_forEachElement]
    exact ⟨le_rfl, ih _ (Nat.le_succ_of_le hle)⟩
  | case2 it hge =>
    intro m _
    rw [forEachElement, if_neg hge]
    exact Spends.of_done m

/-- The task for some chunks spawns two tasks for each chunk but the first. -/
theorem spends_action (f : ForEachFunctor V) : ∀ m : Memory V, f.Valid →
    Spends f.range (2 * (f.chunkLast - f.chunkFirst)) f.action m := by
  induction f using ForEachFunctor.action.induct with
  | case1 f h =>
    intro m _
    rw [ForEachFunctor.action, dif_pos h]
    unfold ForEachFunctor.range
    rw [← h, Nat.sub_self]
    exact spends_forEachElement f.unary _ _ _ m le_rfl
  | case2 f h ihl ihr =>
    intro m hf
    obtain ⟨a, mid, b, hamid, hmidb, hrange, hL, hR⟩ := hf.halves h
    obtain ⟨hl, hr⟩ := f.split_lt h
    rw [hL] at ihl
    rw [hR] at ihr
    rw [hrange, ForEachFunctor.action, dif_neg h]
    refine Spends.of_act fun m₁ _ => ⟨fun _ _ => rfl, ?_, ?_⟩
    · show 2 ≤ _
      omega
    · rw [id_eq]
      have hfork := Spends.of_fork (Set.Ico_subset_Ico_right hmidb) (Set.Ico_subset_Ico_left hamid)
        (disjoint_halves a mid b) (ihl m₁ (hf.functorL h)) (ihr m₁ (hf.functorR h))
      convert hfork using 1
      show _ - 2 = 2 * ((f.chunkFirst + f.chunkLast) / 2 - f.chunkFirst) +
        2 * (f.chunkLast - ((f.chunkFirst + f.chunkLast) / 2 + 1))
      omega

/-! ## The whole range -/

/-- A call that passes the checks has nothing to do, or starts one task for all chunks of a
range that is not empty; the chunks are at most one more than the blocks that fit into it. -/
theorem forEachRecursive_cases {first last : ℕ} {unary : V → V} {numCores blockSize : ℕ}
    {program : Prog (Memory V)}
    (h : forEachRecursive first last unary numCores blockSize = .ok program) :
    (first = last ∧ program = .done) ∨
    ∃ f : ForEachFunctor V, f.Valid ∧ f.unary = unary ∧ f.range = Set.Ico first last ∧
      program = .fork f.action .done .done ∧
      2 * (f.chunkLast - f.chunkFirst) + 1 ≤ nodeMaxTasksDefault := by
  rcases checks_cases h with ⟨hzero, rfl⟩ | ⟨hdistance, -, htasks, rfl⟩
  · exact .inl ⟨by omega, rfl⟩
  have hlt : first < last := by omega
  have hcount : (last - first : ℤ).toNat = last - first := by omega
  have hpos := usedBlockSize_pos (last - first : ℤ).toNat numCores blockSize
  generalize usedBlockSize (last - first : ℤ).toNat numCores blockSize = chunkSize
    at hpos htasks ⊢
  rw [hcount] at htasks
  have hp : BlockSizePartitioner.Valid ⟨first, last, chunkSize⟩ := ⟨hpos, hlt⟩
  obtain ⟨-, hsize, -⟩ := hp.size_bounds
  have hchunks : _ ≤ (last - first) / chunkSize + 1 :=
    BlockSizePartitioner.size_le ⟨first, last, chunkSize⟩
  refine .inr ⟨_, ⟨hp, Nat.sub_lt hsize Nat.one_pos⟩, rfl, ?_, rfl, ?_⟩
  · show Set.Ico _ (BlockSizePartitioner.chunk ⟨first, last, chunkSize⟩ _).last = _
    rw [BlockSizePartitioner.chunk_last_of_size (by show _ ≤ _ - 1 + 1; omega)]
    rfl
  · show 2 * (BlockSizePartitioner.size ⟨first, last, chunkSize⟩ - 1 - 0) + 1 ≤ _
    omega

/-- `ForEach` ends in every order of the steps of its tasks. It has then passed every element
of the range to the function exactly once, has left all other elements alone, and has spawned
at most as many tasks as a node has, the task for the whole range included. -/
theorem for_each {first last : ℕ} {unary : V → V} {numCores blockSize : ℕ}
    {program : Prog (Memory V)}
    (h : forEachRecursive first last unary numCores blockSize = .ok program) (m : Memory V) :
    Ensures (fun m' =>
      (∀ i, first ≤ i → i < last →
        (m' i).value = unary (m i).value ∧ (m' i).calls = (m i).calls + 1) ∧
      ∀ i, i < first ∨ last ≤ i → m' i = m i) program m ∧
    ∀ n p' m', Run program m n p' m' → n + 1 ≤ nodeMaxTasksDefault := by
  rcases forEachRecursive_cases h with ⟨rfl, rfl⟩ | ⟨f, hf, rfl, hrange, rfl, htasks⟩
  · constructor
    · exact .done ⟨fun i h₁ h₂ => absurd h₂ (Nat.not_lt.mpr h₁), fun _ _ => rfl⟩
    · intro n p' m' hrun
      have hn := ((Spends.of_done (X := ∅) m).of_run hrun).1
      have hmax : 1 ≤ nodeMaxTasksDefault := by decide
      omega
  · constructor
    · have hgood := good_action (fun i => (m i).apply f.unary) f m hf fun _ _ => rfl
      rw [hrange] at hgood
      have hspawn := Good.of_spawn hgood fun m₁ hm₁ => Good.of_done fun m₂ hm₂ => hm₂.trans hm₁
      refine hspawn.ensures.mono fun m' hm' => ⟨fun i h₁ h₂ => ?_, fun i hi => hm'.2 ?_⟩
      · rw [hm'.1 ⟨h₁, h₂⟩]
        exact ⟨rfl, rfl⟩
      · intro hmem
        have h₁ : first ≤ i := hmem.1
        have h₂ : i < last := hmem.2
        omega
    · intro n p' m' hrun
      have hspends := Spends.of_fork le_rfl (Set.empty_subset _) (fun _ _ => Set.notMem_empty _)
        (spends_action f m hf) (Spends.of_done m)
      have hn := (hspends.of_run hrun).1
      omega

/-- Five elements in blocks of two. -/
theorem for_each_five :
    ∃ program, forEachRecursive 1 6 Nat.succ 4 2 = .ok program ∧
      Ensures (fun m' =>
        (∀ i, 1 ≤ i → i < 6 → (m' i).value = i + 1 ∧ (m' i).calls = 1) ∧
        ∀ i, i < 1 ∨ 6 ≤ i → m' i = ⟨i, 0⟩) program (fun i => ⟨i, 0⟩) ∧
      ∀ n p' m', Run program (fun i => ⟨i, 0⟩) n p' m' → n + 1 ≤ nodeMaxTasksDefault :=
  ⟨_, rfl, @for_each ℕ 1 6 Nat.succ 4 2 _ rfl fun i => ⟨i, 0⟩⟩

end Embb.Algorithms.ForEach
