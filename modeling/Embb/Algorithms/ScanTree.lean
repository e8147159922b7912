import Embb.Algorithms.Scan
import Mathlib.Data.List.Nodup

/-!
# The numbers of the tasks of a scan

The array `values` has one entry for each allowed task, and a task uses the entries with its
own number in the heap and with those of its two branches. The tree of tasks is not balanced,
so its numbers leave gaps; halving keeps it so low that all of them stay below the length of
the array.
-/

namespace Embb.Algorithms.Scan

open ForkJoin HeapTree

variable {X R : Type} {o : Operation R} {transformation : X → R} {input : ℕ → X}
  {p : BlockSizePartitioner}

/-! ## The tasks of a pass -/

/-- The functors of a task and of all tasks below it. The task of `g` finds the memory
`reads g` when it makes the functor of its right branch. -/
def ScanFunctor.tasks (o : Operation R) (p : BlockSizePartitioner)
    (reads : ScanFunctor R → Memory R) (f : ScanFunctor R) : List (ScanFunctor R) :=
  if f.chunkFirst < f.chunkLast then
    f :: (tasks o p reads (f.left o) ++ tasks o p reads (f.right o p (reads f)))
  else [f]
termination_by f.chunkLast - f.chunkFirst
decreasing_by
  all_goals
    simp only [ScanFunctor.left, ScanFunctor.right]
    omega

namespace ScanFunctor

/-- The chunks of a functor. -/
def interval (f : ScanFunctor R) : ℕ × ℕ := (f.chunkFirst, f.chunkLast)

variable {f g : ScanFunctor R} {reads : ScanFunctor R → Memory R}

theorem tasks_branches (h : f.chunkFirst < f.chunkLast) : f.tasks o p reads =
    f :: ((f.left o).tasks o p reads ++ (f.right o p (reads f)).tasks o p reads) := by
  rw [tasks, if_pos h]

theorem tasks_leaf (h : ¬ f.chunkFirst < f.chunkLast) : f.tasks o p reads = [f] := by
  rw [tasks, if_neg h]

theorem mem_tasks_self (f : ScanFunctor R) : f ∈ f.tasks o p reads := by
  rw [tasks]
  split <;> exact List.mem_cons_self

/-- A task is the first one, or one of either branch. -/
theorem mem_tasks_cases (hg : g ∈ f.tasks o p reads) :
    g = f ∨ f.chunkFirst < f.chunkLast ∧
      (g ∈ (f.left o).tasks o p reads ∨ g ∈ (f.right o p (reads f)).tasks o p reads) := by
  rw [tasks] at hg
  split at hg
  · rename_i hlt
    rcases List.mem_cons.mp hg with rfl | hg
    · exact Or.inl rfl
    · exact Or.inr ⟨hlt, List.mem_append.mp hg⟩
  · exact Or.inl (List.mem_singleton.mp hg)

theorem mem_tasks_left (hlt : f.chunkFirst < f.chunkLast) (hg : g ∈ (f.left o).tasks o p reads) :
    g ∈ f.tasks o p reads := by
  rw [tasks_branches hlt]
  exact List.mem_cons_of_mem f (List.mem_append_left _ hg)

theorem mem_tasks_right (hlt : f.chunkFirst < f.chunkLast)
    (hg : g ∈ (f.right o p (reads f)).tasks o p reads) : g ∈ f.tasks o p reads := by
  rw [tasks_branches hlt]
  exact List.mem_cons_of_mem f (List.mem_append_right _ hg)

/-- What holds of a functor and passes on to its branches holds of all its tasks. -/
theorem forall_tasks {P : ScanFunctor R → Prop}
    (hl : ∀ f, f.chunkFirst < f.chunkLast → P f → P (f.left o))
    (hr : ∀ f m, f.chunkFirst < f.chunkLast → P f → P (f.right o p m)) (hf : P f) :
    ∀ g ∈ f.tasks o p reads, P g := by
  induction f using tasks.induct o p reads with
  | case1 f hlt ihl ihr =>
    intro g hg
    rcases mem_tasks_cases hg with rfl | ⟨-, hg | hg⟩
    · exact hf
    · exact ihl (hl f hlt hf) g hg
    · exact ihr (hr f (reads f) hlt hf) g hg
  | case2 f hge =>
    intro g hg
    rcases mem_tasks_cases hg with rfl | ⟨hlt, -⟩
    · exact hf
    · exact absurd hlt hge

theorem placed_tasks (hf : f.Placed p) (hg : g ∈ f.tasks o p reads) : g.Placed p :=
  forall_tasks (fun _ hlt h => h.left hlt) (fun _ m hlt h => h.right hlt m) hf g hg

theorem below_tasks (hg : g ∈ f.tasks o p reads) : Below f.nodeId g.nodeId := by
  induction f using tasks.induct o p reads with
  | case1 f hlt ihl ihr =>
    rcases mem_tasks_cases hg with rfl | ⟨-, hg | hg⟩
    · exact below_self _
    · exact below_left (ihl hg)
    · exact below_right (ihr hg)
  | case2 f hge =>
    rcases mem_tasks_cases hg with rfl | ⟨hlt, -⟩
    · exact below_self _
    · exact absurd hlt hge

/-- The chunks of a task are among those of the first one. -/
theorem interval_tasks (hf : f.chunkFirst ≤ f.chunkLast) (hg : g ∈ f.tasks o p reads) :
    f.chunkFirst ≤ g.chunkFirst ∧ g.chunkFirst ≤ g.chunkLast ∧ g.chunkLast ≤ f.chunkLast := by
  refine forall_tasks (P := fun g => f.chunkFirst ≤ g.chunkFirst ∧ g.chunkFirst ≤ g.chunkLast ∧
    g.chunkLast ≤ f.chunkLast) (fun g hlt h => ?_) (fun g m hlt h => ?_) ⟨le_rfl, hf, le_rfl⟩ g hg
  · simp only [left]
    omega
  · simp only [right]
    omega

theorem interval_tasks_left (hlt : f.chunkFirst < f.chunkLast)
    (hg : g ∈ (f.left o).tasks o p reads) : f.chunkFirst ≤ g.chunkFirst ∧
      g.chunkFirst ≤ g.chunkLast ∧ g.chunkLast ≤ (f.chunkFirst + f.chunkLast) / 2 :=
  interval_tasks (show f.chunkFirst ≤ (f.chunkFirst + f.chunkLast) / 2 by omega) hg

theorem interval_tasks_right (hlt : f.chunkFirst < f.chunkLast)
    (hg : g ∈ (f.right o p (reads f)).tasks o p reads) :
    (f.chunkFirst + f.chunkLast) / 2 + 1 ≤ g.chunkFirst ∧ g.chunkFirst ≤ g.chunkLast ∧
      g.chunkLast ≤ f.chunkLast :=
  interval_tasks (show (f.chunkFirst + f.chunkLast) / 2 + 1 ≤ f.chunkLast by omega) hg

/-- A key that tells a task from those below it, and the tasks of one branch from those of the
other, tells all tasks apart. -/
theorem nodup_tasks {K : Type} {key : ScanFunctor R → K}
    (hself : ∀ f g : ScanFunctor R, f.chunkFirst < f.chunkLast → g ∈ (f.left o).tasks o p reads ∨
      g ∈ (f.right o p (reads f)).tasks o p reads → key f ≠ key g)
    (hsiblings : ∀ f g g' : ScanFunctor R, f.chunkFirst < f.chunkLast →
      g ∈ (f.left o).tasks o p reads → g' ∈ (f.right o p (reads f)).tasks o p reads →
      key g ≠ key g') (f : ScanFunctor R) :
    ((f.tasks o p reads).map key).Nodup := by
  induction f using tasks.induct o p reads with
  | case1 f hlt ihl ihr =>
    rw [tasks_branches hlt, List.map_cons, List.map_append, List.nodup_cons, List.nodup_append]
    refine ⟨fun hm => ?_, ihl, ihr, fun a ha b hb => ?_⟩
    · rw [← List.map_append] at hm
      obtain ⟨g, hg, he⟩ := List.mem_map.mp hm
      exact hself f g hlt (List.mem_append.mp hg) he.symm
    · obtain ⟨g, hg, rfl⟩ := List.mem_map.mp ha
      obtain ⟨g', hg', rfl⟩ := List.mem_map.mp hb
      exact hsiblings f g g' hlt hg hg'
  | case2 f hge =>
    rw [tasks_leaf hge]
    exact List.nodup_singleton _

theorem nodup_nodeId (f : ScanFunctor R) : ((f.tasks o p reads).map nodeId).Nodup := by
  refine nodup_tasks (fun f g _ hg he => ?_) (fun f g g' _ hg hg' he => ?_) f
  · rcases hg with hg | hg
    · have hle : 2 * f.nodeId + 1 ≤ g.nodeId := le_of_below (below_tasks hg)
      omega
    · have hle : 2 * f.nodeId + 2 ≤ g.nodeId := le_of_below (below_tasks hg)
      omega
  · have hbelow : Below (2 * f.nodeId + 1) g'.nodeId := he ▸ below_tasks hg
    exact not_below_siblings hbelow (below_tasks hg')

theorem nodup_interval (f : ScanFunctor R) : ((f.tasks o p reads).map interval).Nodup := by
  refine nodup_tasks (fun f g hlt hg he => ?_) (fun f g g' hlt hg hg' he => ?_) f
  · obtain ⟨h₁, h₂⟩ := Prod.mk.inj he
    rcases hg with hg | hg
    · have hin := interval_tasks_left hlt hg
      omega
    · have hin := interval_tasks_right hlt hg
      omega
  · obtain ⟨h₁, h₂⟩ := Prod.mk.inj he
    have hin := interval_tasks_left hlt hg
    have hin' := interval_tasks_right hlt hg'
    omega

/-- Which chunks and which numbers the tasks have does not depend on the pass, and not on what
they read. -/
theorem map_tasks_congr {f f' : ScanFunctor R} (hi : f.interval = f'.interval)
    (hn : f.nodeId = f'.nodeId) (reads reads' : ScanFunctor R → Memory R) :
    (f.tasks o p reads).map (fun g => (g.interval, g.nodeId)) =
      (f'.tasks o p reads').map fun g => (g.interval, g.nodeId) := by
  induction f using tasks.induct o p reads generalizing f' with
  | case1 f hlt ihl ihr =>
    obtain ⟨h₁, h₂⟩ := Prod.mk.inj hi
    have hmid : (f.chunkFirst + f.chunkLast) / 2 = (f'.chunkFirst + f'.chunkLast) / 2 := by
      rw [h₁, h₂]
    have hlt' : f'.chunkFirst < f'.chunkLast := by omega
    rw [tasks_branches hlt, tasks_branches hlt', List.map_cons, List.map_cons,
      List.map_append, List.map_append, hi, hn,
      @ihl (f'.left o) (Prod.ext h₁ hmid) (congrArg (2 * · + 1) hn),
      @ihr (f'.right o p (reads' f')) (Prod.ext (congrArg (· + 1) hmid) h₂)
        (congrArg (2 * · + 2) hn)]
  | case2 f hge =>
    obtain ⟨h₁, h₂⟩ := Prod.mk.inj hi
    have hge' : ¬ f'.chunkFirst < f'.chunkLast := by omega
    rw [tasks_leaf hge, tasks_leaf hge', List.map_singleton, List.map_singleton, hi, hn]

/-- Tasks of two passes have the same number exactly if they have the same chunks. -/
theorem nodeId_eq_iff {f f' g g' : ScanFunctor R} {reads reads' : ScanFunctor R → Memory R}
    (hg : g ∈ f.tasks o p reads) (hg' : g' ∈ f'.tasks o p reads')
    (hi : f.interval = f'.interval) (hn : f.nodeId = f'.nodeId) :
    g.nodeId = g'.nodeId ↔ g.interval = g'.interval := by
  -- the task of the first pass that stands where `g'` stands
  have hm := List.mem_map_of_mem (f := fun g => (g.interval, g.nodeId)) hg'
  rw [← map_tasks_congr hi hn reads reads'] at hm
  obtain ⟨h, hh, he⟩ := List.mem_map.mp hm
  obtain ⟨hinterval, hnode⟩ := Prod.mk.inj he
  rw [← hinterval, ← hnode]
  constructor
  · intro heq
    rw [List.inj_on_of_nodup_map (nodup_nodeId f) hg hh heq]
  · intro heq
    rw [List.inj_on_of_nodup_map (nodup_interval f) hg hh heq]

end ScanFunctor

/-! ## The entries that a run uses -/

/-- The output, and the entries of `values` with the numbers of the tasks. -/
def touched (fs : List (ScanFunctor R)) : Set Cell :=
  {c | match c with
    | .output _ => True
    | .treeValue w => ∃ f ∈ fs, f.nodeId = w}

section Footprint

variable {f : ScanFunctor R} {reads reads' : ScanFunctor R → Memory R} {Y : Set Cell}

theorem nodeId_touched (f : ScanFunctor R) :
    Cell.treeValue f.nodeId ∈ touched (f.tasks o p reads) :=
  ⟨f, f.mem_tasks_self, rfl⟩

theorem touched_left (hlt : f.chunkFirst < f.chunkLast) :
    touched ((f.left o).tasks o p reads) ⊆ touched (f.tasks o p reads) := by
  rintro (i | w) hc
  · trivial
  · obtain ⟨g, hg, hw⟩ := hc
    exact ⟨g, ScanFunctor.mem_tasks_left hlt hg, hw⟩

/-- The right branch uses the same entries whatever it is handed. -/
theorem touched_right (hlt : f.chunkFirst < f.chunkLast) (m : Memory R) :
    touched ((f.right o p m).tasks o p reads) ⊆ touched (f.tasks o p reads) := by
  rintro (i | w) hc
  · trivial
  · obtain ⟨g, hg, hw⟩ := hc
    have hm := List.mem_map_of_mem (f := fun g => (g.interval, g.nodeId)) hg
    rw [ScanFunctor.map_tasks_congr (show (f.right o p m).interval =
      (f.right o p (reads f)).interval from rfl) rfl reads reads] at hm
    obtain ⟨h, hh, he⟩ := List.mem_map.mp hm
    exact ⟨h, ScanFunctor.mem_tasks_right hlt hh, (Prod.mk.inj he).2.trans hw⟩

theorem firstLoop_touches (hY : ∀ i, Cell.output i ∈ Y) (lastIn iterIn iterOut : ℕ) (result : R) :
    Touches Y (fun m => (firstLoop o transformation input lastIn iterIn iterOut result m).2) ∧
      ∀ m m', (firstLoop o transformation input lastIn iterIn iterOut result m).1 =
        (firstLoop o transformation input lastIn iterIn iterOut result m').1 := by
  induction hn : lastIn - iterIn generalizing iterIn iterOut result with
  | zero =>
    have hge : ¬ iterIn < lastIn := by omega
    simp only [firstLoop.eq_def o transformation input lastIn iterIn, if_neg hge]
    exact ⟨Touches.of_id, fun _ _ => trivial⟩
  | succ n ih =>
    have hlt : iterIn < lastIn := by omega
    simp only [firstLoop.eq_def o transformation input lastIn iterIn, if_pos hlt]
    obtain ⟨h₁, h₂⟩ := ih (iterIn + 1) (iterOut + 1)
      (o.scan result (transformation (input iterIn))) (by omega)
    exact ⟨h₁.comp (Touches.of_id.update (hY iterOut) fun _ _ _ => rfl), fun m m' => h₂ _ _⟩

theorem firstLeaf_touches (hY : ∀ i, Cell.output i ∈ Y) {nodeId : ℕ}
    (hid : Cell.treeValue nodeId ∈ Y) (chunk : ChunkDescriptor) (iterOut : ℕ) :
    Touches Y (firstLeaf o transformation input chunk iterOut nodeId) := by
  obtain ⟨h₁, h₂⟩ := @firstLoop_touches X R o transformation input Y hY chunk.last
    (chunk.first + 1) (iterOut + 1) (transformation (input chunk.first))
  have hloop := h₁.comp (Touches.of_id.update (hY iterOut)
    (v := fun _ => transformation (input chunk.first)) fun _ _ _ => rfl)
  exact hloop.update hid fun m m' _ => h₂ _ _

theorem secondLoop_touches (hY : ∀ i, Cell.output i ∈ Y) (parentValue : R)
    (lastIn iterIn iterOut : ℕ) :
    Touches Y (secondLoop o parentValue lastIn iterIn iterOut) := by
  induction hn : lastIn - iterIn generalizing iterIn iterOut with
  | zero =>
    have hge : ¬ iterIn < lastIn := by omega
    simp only [funext (secondLoop.eq_def o parentValue lastIn iterIn iterOut), if_neg hge]
    exact Touches.of_id
  | succ n ih =>
    have hlt : iterIn < lastIn := by omega
    simp only [funext (secondLoop.eq_def o parentValue lastIn iterIn iterOut), if_pos hlt]
    refine (ih (iterIn + 1) (iterOut + 1) (by omega)).comp
      (Touches.of_id.update (hY iterOut) fun m m' hm => ?_)
    rw [hm (hY iterOut)]

/-- A task and those below it read and change the output and the entries with their numbers. -/
theorem within_action (f : ScanFunctor R) (reads : ScanFunctor R → Memory R) :
    Within (touched (f.tasks o p reads)) (action o transformation input p f) := by
  have hout : ∀ (f : ScanFunctor R) i, Cell.output i ∈ touched (f.tasks o p reads) :=
    fun _ _ => trivial
  induction f using action.induct o p with
  | case1 f hlt ihl ihr =>
    have hleft : Cell.treeValue (2 * f.nodeId + 1) ∈ touched (f.tasks o p reads) :=
      touched_left hlt (nodeId_touched (f.left o))
    have hright : Cell.treeValue (2 * f.nodeId + 2) ∈ touched (f.tasks o p reads) :=
      touched_right hlt (reads f) (nodeId_touched (f.right o p (reads f)))
    rw [action, if_pos hlt]
    refine .act Touches.of_id (fun m m' hm => ?_) fun m => ?_
    · have hsame : f.right o p m = f.right o p m' := by
        simp only [ScanFunctor.right, hm hleft]
      rw [hsame]
    · refine .fork (ihl.mono (touched_left hlt)) ((ihr m).mono (touched_right hlt m)) ?_
      refine .act (Touches.of_id.update (nodeId_touched f) fun m m' hm => ?_)
        (fun _ _ _ => rfl) fun _ => .done
      simp only [hm hleft, hm hright]
  | case2 f hge hpass =>
    rw [action, if_neg hge]
    simp only [hpass, if_true]
    exact .act (firstLeaf_touches (hout f) (nodeId_touched f) _ _) (fun _ _ _ => rfl)
      fun _ => .done
  | case3 f hge hpass =>
    rw [action, if_neg hge]
    simp only [hpass]
    exact .act (secondLoop_touches (hout f) _ _ _ _) (fun _ _ _ => rfl) fun _ => .done

end Footprint

/-! ## The result -/

/-- The output, and the entries that the array `values` has. -/
def inBounds : Set Cell :=
  {c | match c with
    | .output _ => True
    | .treeValue w => w < nodeMaxTasksDefault}

variable {distance : ℤ} {numCores blockSize : ℕ}

/-- What the checks let pass is empty or is scanned. -/
theorem scanIteratorCheck_cases {prog : Prog (Memory R)}
    (h : scanIteratorCheck o transformation input distance numCores blockSize = .ok prog) :
    (distance = 0 ∧ prog = .done) ∨ Accepted distance.toNat numCores blockSize ∧
      prog = program o transformation input distance.toNat numCores blockSize := by
  rcases checks_cases h with hidle | ⟨hpos, hcores, henough, rfl⟩
  · exact Or.inl hidle
  · exact Or.inr ⟨⟨by omega, hcores, henough⟩, rfl⟩

theorem Accepted.touched_root {distance : ℕ} (h : Accepted distance numCores blockSize)
    (isFirstPass : Bool) (reads : ScanFunctor R → Memory R) :
    touched ((ScanFunctor.root o (partitioner distance numCores blockSize) isFirstPass).tasks o
      (partitioner distance numCores blockSize) reads) ⊆ inBounds := by
  rintro (i | w) hc
  · trivial
  · obtain ⟨f, hf, rfl⟩ := hc
    exact (ScanFunctor.placed_tasks (h.placed o isFirstPass) hf).nodeId_lt

theorem within_inBounds {prog : Prog (Memory R)}
    (h : scanIteratorCheck o transformation input distance numCores blockSize = .ok prog) :
    Within inBounds prog := by
  rcases scanIteratorCheck_cases h with ⟨-, rfl⟩ | ⟨ha, rfl⟩
  · exact .done
  · have hpass : ∀ isFirstPass, Within inBounds
        (action o transformation input (partitioner distance.toNat numCores blockSize)
          (.root o (partitioner distance.toNat numCores blockSize) isFirstPass)) :=
      fun isFirstPass => (within_action _ fun _ _ => o.neutral).mono (ha.touched_root isFirstPass _)
    exact .fork (hpass true) .done (.fork (hpass false) .done .done)

/-- In a scan that the checks let pass, the tasks of a pass have different numbers, all of them
below the length of the array `values`, and both passes give the same number to the same
chunks. No run changes an entry behind the end of the array, and none depends on one: whatever
stands there, the same steps are possible, with the same result. -/
theorem tree_numbers {prog : Prog (Memory R)}
    (h : scanIteratorCheck o transformation input distance numCores blockSize = .ok prog) :
    (distance ≠ 0 → ∀ (isFirstPass isFirstPass' : Bool) (reads reads' : ScanFunctor R → Memory R),
      let p := partitioner distance.toNat numCores blockSize
      let tasks := (ScanFunctor.root o p isFirstPass).tasks o p reads
      let tasks' := (ScanFunctor.root o p isFirstPass').tasks o p reads'
      (tasks.map ScanFunctor.nodeId).Nodup ∧ (∀ f ∈ tasks, f.nodeId < nodeMaxTasksDefault) ∧
      ∀ f ∈ tasks, ∀ g ∈ tasks', f.nodeId = g.nodeId ↔ f.interval = g.interval) ∧
    ∀ m n prog' m', Run prog m n prog' m' →
      (∀ w, nodeMaxTasksDefault ≤ w → m' (.treeValue w) = m (.treeValue w)) ∧
      ∀ m₁, Set.EqOn m₁ m inBounds →
        ∃ m₂, Run prog m₁ n prog' m₂ ∧ Set.EqOn m₂ m' inBounds := by
  constructor
  · intro hne isFirstPass isFirstPass' reads reads'
    obtain ⟨ha, -⟩ := (scanIteratorCheck_cases h).resolve_left fun hz => hne hz.1
    refine ⟨ScanFunctor.nodup_nodeId _, fun f hf => ?_, fun f hf g hg => ?_⟩
    · exact (ScanFunctor.placed_tasks (ha.placed o isFirstPass) hf).nodeId_lt
    · exact ScanFunctor.nodeId_eq_iff hf hg rfl rfl
  · intro m n prog' m' hrun
    obtain ⟨hoff, hgo⟩ := (within_inBounds h).run hrun
    exact ⟨fun w hw => hoff (Nat.not_lt.mpr hw), hgo⟩

/-- Four letters in one block each. -/
theorem tree_numbers_four :
    ∃ prog, scanIteratorCheck concatenation id letter 4 1 1 = .ok prog ∧
      ∀ isFirstPass reads,
        (((ScanFunctor.root concatenation (partitioner 4 1 1) isFirstPass).tasks concatenation
          (partitioner 4 1 1) reads).map ScanFunctor.nodeId).Nodup := by
  have hp : scanIteratorCheck concatenation id letter 4 1 1 =
      .ok (program concatenation id letter 4 1 1) :=
    Accepted.scanIteratorCheck_eq _ _ _ ⟨by decide, by decide, by decide⟩
  exact ⟨_, hp, fun isFirstPass reads =>
    ((tree_numbers hp).1 (by decide) isFirstPass isFirstPass reads reads).1⟩

end Embb.Algorithms.Scan
