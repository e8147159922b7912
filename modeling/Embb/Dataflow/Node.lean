import Embb.Dataflow.Release

/-!
# What one node guarantees

A node of either kind hands every clock to the scheduler at most once, after all its inputs have
arrived. When its threads are done and no clock has arrived at some of its inputs only, it has
handed over all clocks up to the first one that is missing, whatever stale values were read.
-/

namespace Embb.Dataflow

/-- Some clock has arrived at some of the inputs only. -/
def Memory.Partial (P : Shape) (m : Memory) : Prop :=
  ∃ c, (m.arrived c).Nonempty ∧ ¬ m.Complete P c

/-- The thread is going to release the clock, or leaves a thread that does. A scan that has read
an old value can be relied on until its first slot is used again. -/
def Frame.watches (P : Shape) (m : Memory) (c : ℕ) : Frame → Prop
  | .countCheck _ | .countDown _ | .countReset _ | .check _ _ | .loadNext => True
  | .scan clk _ _ => clk = m.nextClock ∨ m.arrived (clk + P.slices) = ∅
  | .cas clk res => clk = m.nextClock → c < res
  | _ => False

/-- While complete clocks are not claimed, some thread is going to see them, or has to arrive. -/
def Watched (P : Shape) (m : Memory) (fs : Multiset Frame) : Prop :=
  ∀ c, m.nextClock ≤ c → (∀ d, m.nextClock ≤ d → d ≤ c → m.Complete P d) →
    m.Partial P ∨ ∃ f ∈ fs, f.watches P m c

namespace Watched

variable {P : Shape} {m m' : Memory} {f f' : Frame} {others : Multiset Frame}

theorem watches_congr (hn : m'.nextClock = m.nextClock) (harr : m'.arrived = m.arrived) {c : ℕ}
    (g : Frame) : g.watches P m' c ↔ g.watches P m c := by
  cases g <;> simp only [Frame.watches, hn, harr]

/-- A step after which the thread, or another one, watches if the thread has watched. -/
theorem move (h : Watched P m (f ::ₘ others)) (hn : m'.nextClock = m.nextClock)
    (harr : m'.arrived = m.arrived)
    (hf : ∀ c, m.nextClock ≤ c → (∀ d, m.nextClock ≤ d → d ≤ c → m.Complete P d) →
      f.watches P m c → m.Partial P ∨ ∃ g ∈ f' ::ₘ others, g.watches P m c) :
    Watched P m' (f' ::ₘ others) := by
  intro c hc hcomp
  have hcomplete : ∀ d, m'.Complete P d ↔ m.Complete P d := fun d => by
    rw [Memory.Complete, Memory.Complete, harr]
  have hpart' : m'.Partial P ↔ m.Partial P := by
    rw [Memory.Partial, Memory.Partial, harr]
    simp only [hcomplete]
  rw [hpart']
  simp only [watches_congr hn harr]
  rw [hn] at hc hcomp
  have hcomp' := fun d h1 h2 => (hcomplete d).mp (hcomp d h1 h2)
  rcases h c hc hcomp' with hp | ⟨g, hg, hw⟩
  · exact Or.inl hp
  · rcases Multiset.mem_cons.mp hg with rfl | hg
    · exact hf c hc hcomp' hw
    · exact Or.inr ⟨g, Multiset.mem_cons_of_mem hg, hw⟩

/-- A step of a thread that watches afterwards if it did before. -/
theorem goes (h : Watched P m (f ::ₘ others)) (hn : m'.nextClock = m.nextClock)
    (harr : m'.arrived = m.arrived) (hf : ∀ c, f.watches P m c → f'.watches P m c) :
    Watched P m' (f' ::ₘ others) :=
  h.move hn harr fun c _ _ hw => Or.inr ⟨f', Multiset.mem_cons_self _ _, hf c hw⟩

theorem countDown {c : ℕ} (h : Watched P m (.countDown c ::ₘ others))
    (ha : Arrived P m (.countDown c ::ₘ others)) (choice : Option (ℕ × ℕ)) :
    Watched P (exec P choice m (.countDown c)).1
      ((exec P choice m (.countDown c)).2 ::ₘ others) := by
  simp only [exec]
  split
  · exact h.goes rfl rfl fun _ _ => trivial
  · next hz =>
    refine h.move rfl rfl fun d _ _ _ => ?_
    by_cases hc : m.Complete P c
    · obtain ⟨g, hg, hcnt⟩ := ha.exists_counting hz hc
      refine Or.inr ⟨g, Multiset.mem_cons_of_mem hg, ?_⟩
      cases g with
      | countCheck e | countDown e => trivial
      | _ => cases hcnt
    · exact Or.inl ⟨c, (ha.current _ (Multiset.mem_cons_self _ _) c rfl).1, hc⟩

theorem scan {clk ii j : ℕ} (h : Watched P m (.scan clk ii j ::ₘ others))
    (ha : Arrived P m (.scan clk ii j ::ₘ others)) (hw : Windowed P m)
    (choice : Option (ℕ × ℕ)) :
    Watched P (exec P choice m (.scan clk ii j)).1
      ((exec P choice m (.scan clk ii j)).2 ::ₘ others) := by
  obtain ⟨hle, hii, -, hj, -⟩ := ha.found _ (Multiset.mem_cons_self _ _)
  have hmiss : m.signal P j ii ≠ ii → m.nextClock = clk → ¬ m.Complete P ii :=
    fun hne hn => hw.not_complete ha (by omega) hj hne
  simp only [exec]
  split
  · split
    · exact h.goes rfl rfl fun _ hc => hc
    · split
      · exact h.goes rfl rfl fun _ hc => hc
      · next hend =>
        rw [afterScan, if_pos (by omega)]
        refine h.move rfl rfl fun c hc hcomp _ =>
          Or.inr ⟨_, Multiset.mem_cons_self _ _, fun hn => ?_⟩
        have hlt := hw.lt_of_complete (hcomp c hc (le_refl c))
        omega
  · next hne =>
    rw [afterScan]
    split
    · refine h.move rfl rfl fun c hc hcomp _ =>
        Or.inr ⟨_, Multiset.mem_cons_self _ _, fun hn => ?_⟩
      by_contra hlt
      exact hmiss hne hn.symm (hcomp ii (by omega) (by omega))
    · refine h.move rfl rfl fun c hc hcomp hwatch => ?_
      have heq : ii = clk := by omega
      subst heq
      rcases Nat.eq_or_lt_of_le hle with hn | hlt
      · exact absurd (hcomp ii (by omega) (by omega)) (hmiss hne hn.symm)
      · have hemp := hwatch.resolve_left (Nat.ne_of_lt hlt)
        have hslot := ha.slot ii j (ha.complete ii hlt j hj)
          (by rw [hemp]; exact Finset.notMem_empty j)
        exact absurd hslot hne

theorem claim {clk res : ℕ} (h : Watched P m (.cas clk res ::ₘ others))
    (ha : Arrived P m (.cas clk res ::ₘ others)) (hw : Windowed P m) (hn : m.nextClock = clk) :
    Watched P { m with nextClock := res } (.wait clk res ::ₘ others) := by
  intro c hc hcomp
  change res ≤ c at hc
  obtain ⟨-, hlt, hfound⟩ := ha.found _ (Multiset.mem_cons_self _ _)
  have hall : ∀ d, m.nextClock ≤ d → d ≤ c → m.Complete P d := fun d h1 h2 => by
    rcases Nat.lt_or_ge d res with hd | hd
    · exact hfound d (hn ▸ h1) hd
    · exact hcomp d hd h2
  rcases h c (by omega) hall with hp | ⟨g, hg, hcov⟩
  · exact Or.inl hp
  · rcases Multiset.mem_cons.mp hg with rfl | hg
    · have := hcov hn.symm
      omega
    · refine Or.inr ⟨g, Multiset.mem_cons_of_mem hg, ?_⟩
      have hfg := ha.found g (Multiset.mem_cons_of_mem hg)
      cases g with
      | cas clk' res' =>
        intro he
        have hle : clk' ≤ m.nextClock := hfg.1
        change clk' = res at he
        omega
      | scan clk' ii j =>
        refine Or.inr ?_
        rcases hcov with he | he
        · refine Finset.eq_empty_of_forall_notMem fun i hi => ?_
          have := hw clk' i hi
          omega
        · exact he
      | _ => exact hcov

theorem exec (h : Watched P m (f ::ₘ others)) (ha : Arrived P m (f ::ₘ others))
    (hw : Windowed P m) (hser : P.serial = true) (choice : Option (ℕ × ℕ)) :
    Watched P (exec P choice m f).1 ((exec P choice m f).2 ::ₘ others) := by
  cases f with
  | upstream | receive | wait | enqueue =>
    simp only [Dataflow.exec]
    split <;> exact h.goes rfl rfl fun _ hcov => absurd hcov not_false
  | storeQueued | thrown | spawn => exact h.goes rfl rfl fun _ hcov => absurd hcov not_false
  | store i c => exact fun d _ _ => Or.inr ⟨_, Multiset.mem_cons_self _ _, trivial⟩
  | countCheck c =>
    have hne : m.count (c % P.slices) ≠ 0 := by
      have hcount := (ha.count_of_counting (c := c) rfl (decide_eq_true rfl)).1
      omega
    simp only [Dataflow.exec, if_neg hne]
    exact h.goes rfl rfl fun _ _ => trivial
  | countDown c => exact h.countDown ha choice
  | countReset c => exact h.goes rfl rfl fun _ _ => trivial
  | check c j =>
    simp only [Dataflow.exec, if_pos ha.signal_of_check, hser, if_true]
    split
    · exact h.goes rfl rfl fun _ _ => trivial
    · exact h.goes rfl rfl fun _ _ => trivial
  | loadNext => exact h.goes rfl rfl fun _ _ => Or.inl rfl
  | scan clk ii j => exact h.scan ha hw choice
  | cas clk res =>
    simp only [Dataflow.exec]
    split
    · exact h.claim ha hw ‹_›
    · exact h.goes rfl rfl fun _ _ => trivial

end Watched

/-! ## Parallel nodes -/

/-- The thread has counted the last input of the clock and is going to spawn it. -/
def Frame.spawning (c : ℕ) : Frame → Bool
  | .countReset d | .check d _ | .spawn d => d = c
  | _ => false

/-- The program points of a parallel node. -/
def Frame.Plain : Frame → Prop
  | .loadNext | .scan _ _ _ | .cas _ _ | .wait _ _ | .enqueue _ _ _ | .storeQueued _ _ => False
  | _ => True

def spawnings (fs : Multiset Frame) (c : ℕ) : ℕ := fs.countP fun f => f.spawning c

theorem spawnings_cons (f : Frame) (fs : Multiset Frame) (c : ℕ) :
    spawnings (f ::ₘ fs) c = spawnings fs c + if f.spawning c = true then 1 else 0 :=
  Multiset.countP_cons ..

/-- A clock whose inputs are counted is spawned, or is going to be. -/
structure Spawned (P : Shape) (m : Memory) (fs : Multiset Frame) : Prop where
  plain : ∀ f ∈ fs, f.Plain
  once : ∀ c, spawnings fs c + m.enqueued.count c = if uncounted P m fs c = 0 then 1 else 0

/-- The clocks that a step hands to the scheduler. -/
def Frame.hands : Frame → List ℕ
  | .spawn c => [c]
  | .enqueue _ _ ii => [ii]
  | _ => []

theorem enqueued_exec (P : Shape) (choice : Option (ℕ × ℕ)) (m : Memory) (f : Frame) :
    (exec P choice m f).1.enqueued = m.enqueued ++ f.hands := by
  cases f with
  | spawn | enqueue => rfl
  | _ =>
    simp only [exec, Frame.hands, List.append_nil]
    repeat' split
    all_goals rfl

/-- Only the store of a signal makes it arrive. -/
theorem mem_arrived_exec {P : Shape} {choice : Option (ℕ × ℕ)} {m : Memory} {f : Frame}
    {i c : ℕ} : i ∈ (exec P choice m f).1.arrived c ↔ i ∈ m.arrived c ∨ f = .store i c := by
  cases f with
  | store i' c' =>
    rw [Frame.store.injEq]
    refine Arrived.mem_arrived_setSignal.trans (or_congr_right ⟨?_, ?_⟩)
    · rintro ⟨rfl, rfl⟩
      exact ⟨rfl, rfl⟩
    · rintro ⟨rfl, rfl⟩
      exact ⟨rfl, rfl⟩
  | _ =>
    simp only [reduceCtorEq, or_false, exec]
    repeat' split
    all_goals exact Iff.rfl

namespace Spawned

variable {P : Shape} {m m' : Memory} {f f' : Frame} {others : Multiset Frame}

/-- A step that neither counts nor spawns. -/
theorem goes (h : Spawned P m (f ::ₘ others)) (harr : m'.arrived = m.arrived)
    (he : m'.enqueued = m.enqueued) (hp : f'.Plain) (hc : ∀ c, f'.counting c = f.counting c)
    (hs : ∀ c, f'.spawning c = f.spawning c) : Spawned P m' (f' ::ₘ others) where
  plain g hg := by
    rcases Multiset.mem_cons.mp hg with rfl | hg
    · exact hp
    · exact h.plain g (Multiset.mem_cons_of_mem hg)
  once c := by
    have hold := h.once c
    have hu : uncounted P m' others c = uncounted P m others c := by rw [uncounted, uncounted, harr]
    rw [spawnings_cons, uncounted_cons] at hold ⊢
    rwa [hc, hs, hu, he]

theorem plain_others (h : Spawned P m (f ::ₘ others)) (hp : f'.Plain) :
    ∀ g ∈ f' ::ₘ others, g.Plain := fun g hg => by
  rcases Multiset.mem_cons.mp hg with rfl | hg
  · exact hp
  · exact h.plain g (Multiset.mem_cons_of_mem hg)

theorem store {i c : ℕ} (h : Spawned P m (.store i c ::ₘ others))
    (ha : Arrived P m (.store i c ::ₘ others))
    (hg : Delivers P (.store i c) m (.store i c ::ₘ others)) :
    Spawned P (m.setSignal P i c) (.countCheck c ::ₘ others) := by
  refine ⟨h.plain_others trivial, fun d => ?_⟩
  have hold := h.once d
  have hu : uncounted P (m.setSignal P i c) (.countCheck c ::ₘ others) d =
      uncounted P m (.store i c ::ₘ others) d := by
    by_cases hd : d = c
    · rw [hd]
      exact (ha.uncounted_store hg).1
    · have harr : (m.setSignal P i c).arrived d = m.arrived d := Function.update_of_ne hd ..
      have hcnt : (Frame.countCheck c).counting d = false := decide_eq_false fun he => hd he.symm
      rw [uncounted_cons, uncounted_cons, hcnt, uncounted, uncounted, harr]
      rfl
  rw [spawnings_cons] at hold ⊢
  rw [hu]
  exact hold

theorem countDown {c : ℕ} (h : Spawned P m (.countDown c ::ₘ others))
    (ha : Arrived P m (.countDown c ::ₘ others)) (choice : Option (ℕ × ℕ)) :
    Spawned P (exec P choice m (.countDown c)).1
      ((exec P choice m (.countDown c)).2 ::ₘ others) := by
  obtain ⟨hcount, -⟩ := ha.count_of_counting (c := c) rfl (decide_eq_true rfl)
  have hself : (Frame.countDown c).counting c = true := decide_eq_true rfl
  have hplain : (exec P choice m (.countDown c)).2.Plain := by
    simp only [exec]
    split <;> trivial
  refine ⟨h.plain_others hplain, fun d => ?_⟩
  have hold := h.once d
  have hu : uncounted P (exec P choice m (.countDown c)).1 others d = uncounted P m others d := rfl
  rw [spawnings_cons, uncounted_cons] at hold ⊢
  rw [hu]
  change _ + m.enqueued.count d = _
  simp only [exec]
  by_cases hd : d = c
  · subst hd
    rw [if_pos hself] at hold
    rw [if_neg (Nat.succ_ne_zero _)] at hold
    have hold' : spawnings others d + m.enqueued.count d = 0 := by
      change spawnings others d + 0 + m.enqueued.count d = 0 at hold
      omega
    split
    · next hz =>
      have hzero : uncounted P m others d = 0 := by omega
      rw [hzero]
      simp only [Frame.spawning, Frame.counting, decide_true, Bool.false_eq_true, if_false, if_true]
      omega
    · next hz =>
      have hpos : uncounted P m others d ≠ 0 := by omega
      simp only [Frame.spawning, Frame.counting, Bool.false_eq_true, if_false, Nat.add_zero]
      rw [if_neg hpos]
      omega
  · have hc : (Frame.countDown c).counting d = false := decide_eq_false fun he => hd he.symm
    have hr : (Frame.countReset c).spawning d = false := decide_eq_false fun he => hd he.symm
    rw [hc] at hold
    split
    · rw [hr]
      exact hold
    · exact hold

theorem exec (h : Spawned P m (f ::ₘ others)) (ha : Arrived P m (f ::ₘ others))
    (hser : P.serial = false) (hg : Delivers P f m (f ::ₘ others)) (choice : Option (ℕ × ℕ)) :
    Spawned P (exec P choice m f).1 ((exec P choice m f).2 ::ₘ others) := by
  have hp := h.plain f (Multiset.mem_cons_self _ _)
  cases f with
  | upstream | receive =>
    simp only [Dataflow.exec]
    split <;> exact h.goes rfl rfl trivial (fun _ => rfl) fun _ => rfl
  | store i c => exact h.store ha hg
  | countCheck c =>
    have hne : m.count (c % P.slices) ≠ 0 := by
      have hcount := (ha.count_of_counting (c := c) rfl (decide_eq_true rfl)).1
      omega
    simp only [Dataflow.exec, if_neg hne]
    exact h.goes rfl rfl trivial (fun _ => rfl) fun _ => rfl
  | countDown c => exact h.countDown ha choice
  | countReset c => exact h.goes rfl rfl trivial (fun _ => rfl) fun _ => rfl
  | check c j =>
    simp only [Dataflow.exec, if_pos ha.signal_of_check, hser, Bool.false_eq_true, if_false]
    split
    · exact h.goes rfl rfl trivial (fun _ => rfl) fun _ => rfl
    · exact h.goes rfl rfl trivial (fun _ => rfl) fun _ => rfl
  | spawn c =>
    refine ⟨h.plain_others trivial, fun d => ?_⟩
    have hold := h.once d
    rw [spawnings_cons, uncounted_cons] at hold ⊢
    change spawnings others d + 0 + (m.enqueued ++ [c]).count d =
      if uncounted P m others d + 0 = 0 then 1 else 0
    change _ = if uncounted P m others d + 0 = 0 then 1 else 0 at hold
    rw [← hold, List.count_append, List.count_singleton]
    simp only [Frame.spawning, decide_eq_true_eq, beq_iff_eq]
    omega
  | loadNext | scan | cas | wait | enqueue | storeQueued => exact absurd hp not_false
  | thrown => exact h.goes rfl rfl trivial (fun _ => rfl) fun _ => rfl

end Spawned

/-! ## Nodes of both kinds -/

/-- The invariant of a node. -/
structure NodeWorks (P : Shape) (m : Memory) (fs : Multiset Frame) : Prop where
  arrived : Arrived P m fs
  serial : P.serial = true → InOrder m fs ∧ Windowed P m ∧ Watched P m fs
  parallel : P.serial = false → Spawned P m fs

namespace NodeWorks

variable {P : Shape} {m : Memory} {f : Frame} {fs others : Multiset Frame}

theorem exec (h : NodeWorks P m (f ::ₘ others)) (hg : Delivers P f m (f ::ₘ others))
    (choice : Option (ℕ × ℕ)) :
    NodeWorks P (exec P choice m f).1 ((exec P choice m f).2 ::ₘ others) where
  arrived := h.arrived.exec hg choice
  serial hser := by
    obtain ⟨ho, hw, hwatch⟩ := h.serial hser
    exact ⟨ho.exec hser choice, hw.exec ho hg choice, hwatch.exec h.arrived hw hser choice⟩
  parallel hser := (h.parallel hser).exec h.arrived hser hg choice

/-- A clock is handed over once. -/
theorem nodup (h : NodeWorks P m fs) : m.enqueued.Nodup := by
  cases hser : P.serial with
  | true =>
    rw [(h.serial hser).1.enqueued]
    exact List.nodup_range
  | false =>
    refine List.nodup_iff_count_le_one.mpr fun c => ?_
    have honce := (h.parallel hser).once c
    split_ifs at honce <;> omega

/-- A node at rest has handed over all clocks that are complete, if none has arrived in part. -/
theorem handed_of_idle (h : NodeWorks P m fs) (hidle : ∀ f ∈ fs, f = .upstream)
    (hpart : ¬ m.Partial P) {k : ℕ} (hk : ∀ c < k, m.Complete P c) :
    ∀ c < k, c ∈ m.enqueued := by
  intro c hc
  cases hser : P.serial with
  | true =>
    obtain ⟨ho, -, hwatch⟩ := h.serial hser
    rw [ho.enqueued_of_idle hidle, List.mem_range]
    by_contra hlt
    rcases hwatch m.nextClock (le_refl _) (fun d h1 h2 => hk d (by omega)) with hp | ⟨f, hf, hw⟩
    · exact hpart hp
    · rw [hidle f hf] at hw
      exact hw
  | false =>
    have honce := (h.parallel hser).once c
    have hs : spawnings fs c = 0 := Multiset.countP_eq_zero.mpr fun f hf hsp => by
      rw [hidle f hf] at hsp
      cases hsp
    have hcnt : fs.countP (fun f => f.counting c) = 0 :=
      Multiset.countP_eq_zero.mpr fun f hf hcn => by
        rw [hidle f hf] at hcn
        cases hcn
    have hsub : Finset.range P.inputs ⊆ m.arrived c := fun i hi =>
      hk c hc i (Finset.mem_range.mp hi)
    have hcard := Finset.card_le_card hsub
    rw [Finset.card_range] at hcard
    rw [hs, uncounted, hcnt, if_pos (by omega)] at honce
    exact List.count_pos_iff.mp (by omega)

end NodeWorks

theorem nodeWorks_init (P : Shape) {fs : Multiset Frame} (hidle : ∀ f ∈ fs, f = .upstream) :
    NodeWorks P (Memory.init P) fs where
  arrived := arrived_init P hidle
  serial _ := by
    refine ⟨inOrder_init P hidle, fun c i hi => absurd hi (Finset.notMem_empty i),
      fun c _ hcomp => ?_⟩
    exact absurd (hcomp c (Nat.zero_le c) (le_refl c)).nonempty Finset.not_nonempty_empty
  parallel _ := by
    refine ⟨fun f hf => ?_, fun c => ?_⟩
    · rw [hidle f hf]
      trivial
    · have hu : uncounted P (Memory.init P) fs c ≠ 0 := by
        have hpos := P.inputs_pos
        change P.inputs - (∅ : Finset ℕ).card + _ ≠ 0
        rw [Finset.card_empty]
        omega
      have hs : spawnings fs c = 0 := Multiset.countP_eq_zero.mpr fun f hf hsp => by
        rw [hidle f hf] at hsp
        cases hsp
      rw [hs, if_neg hu]
      rfl

end Embb.Dataflow
