import Embb.Dataflow.Arrivals

/-!
# No complete clock is left behind

As long as complete clocks are not claimed, some thread is going to look for them. A thread that
has read an old `next_clock_` may find the first clock of its window replaced by the next one of
the slot, and gives up although later clocks are complete.
-/

namespace Embb.Dataflow

open Threads

/-- No thread gives up because the first clock of its window is gone: a thread that does not
find it has read the current `next_clock_`. -/
def NotStale (P : Shape) (f : Frame) (m : Memory) : Prop :=
  match f with
  | .scan clk ii j => m.signal P j ii ≠ ii → ii = clk → m.nextClock = clk
  | _ => True

instance (P : Shape) (f : Frame) (m : Memory) : Decidable (NotStale P f m) :=
  match f with
  | .scan clk ii j =>
    inferInstanceAs (Decidable (m.signal P j ii ≠ ii → ii = clk → m.nextClock = clk))
  | .upstream | .receive _ _ | .store _ _ | .countCheck _ | .countDown _ | .countReset _
  | .check _ _ | .spawn _ | .loadNext | .cas _ _ | .wait _ _ | .enqueue _ _ _ | .storeQueued _ _
  | .thrown => isTrue trivial

/-- The thread is going to release the clock if those before it are complete. -/
def Frame.covers (next c : ℕ) : Frame → Prop
  | .countCheck d | .countDown d | .countReset d | .check d _ => d ≤ c
  | .loadNext | .scan _ _ _ => True
  | .cas clk res => clk = next → c < res
  | _ => False

/-- The next clock of a slot arrives after the one before has been claimed. -/
def Windowed (P : Shape) (m : Memory) : Prop :=
  ∀ c, ∀ i ∈ m.arrived (c + P.slices), c < m.nextClock

theorem Windowed.exec {P : Shape} {m : Memory} {f : Frame} {others : Multiset Frame}
    (h : Windowed P m) (ho : InOrder m (f ::ₘ others)) (hg : Delivers P f m (f ::ₘ others))
    (choice : Option (ℕ × ℕ)) : Windowed P (exec P choice m f).1 := by
  intro c i hi
  have hle := (ho.counters_le (P := P) choice).1
  cases f with
  | store i' c' =>
    rcases Arrived.mem_arrived_setSignal.mp hi with hi | ⟨-, hc⟩
    · exact h c i hi
    · obtain ⟨-, -, hwin⟩ := hg
      have hpos := P.slices_pos
      obtain ⟨henq, -⟩ := hwin.resolve_left (by omega)
      rw [← hc, Nat.add_sub_cancel] at henq
      exact ho.lt_nextClock c henq
  | _ =>
    refine lt_of_lt_of_le (h c i ?_) hle
    revert hi
    simp only [Dataflow.exec]
    repeat' split
    all_goals exact fun hi => hi

/-- A clock that is not claimed is not complete where a slot does not hold it. -/
theorem Windowed.not_complete {P : Shape} {m : Memory} {fs : Multiset Frame}
    (h : Windowed P m) (ha : Arrived P m fs) {c i : ℕ} (hc : m.nextClock ≤ c)
    (hi : i < P.inputs) (hne : m.signal P i c ≠ c) : ¬ m.Complete P c := by
  intro hcomp
  refine hne (ha.slot c i (hcomp i hi) fun hmem => ?_)
  have hlt := h c i hmem
  omega

/-- The complete clocks that are not claimed lie in the window. -/
theorem Windowed.lt_of_complete {P : Shape} {m : Memory} (h : Windowed P m) {c : ℕ}
    (hcomp : m.Complete P c) : c < m.nextClock + P.slices := by
  obtain ⟨i, hi⟩ := hcomp.nonempty
  by_contra hlt
  have hlate : c - P.slices < m.nextClock :=
    h (c - P.slices) i (by rwa [Nat.sub_add_cancel (by omega)])
  omega

/-- While complete clocks are not claimed, some thread is going to see them. -/
def Awake (P : Shape) (m : Memory) (fs : Multiset Frame) : Prop :=
  ∀ c, m.nextClock ≤ c → (∀ d, m.nextClock ≤ d → d ≤ c → m.Complete P d) →
    ∃ f ∈ fs, f.covers m.nextClock c

namespace Awake

variable {P : Shape} {m m' : Memory} {f f' : Frame} {others : Multiset Frame}

/-- A step after which the thread, or another one, covers what the thread has covered. -/
theorem move (h : Awake P m (f ::ₘ others)) (hn : m'.nextClock = m.nextClock)
    (harr : m'.arrived = m.arrived)
    (hf : ∀ c, m.nextClock ≤ c → (∀ d, m.nextClock ≤ d → d ≤ c → m.Complete P d) →
      f.covers m.nextClock c → ∃ g ∈ f' ::ₘ others, g.covers m.nextClock c) :
    Awake P m' (f' ::ₘ others) := by
  intro c hc hcomp
  have hcomp' : ∀ d, m.nextClock ≤ d → d ≤ c → m.Complete P d := fun d h1 h2 i hi => by
    rw [← harr]
    exact hcomp d (hn ▸ h1) h2 i hi
  rw [hn] at hc ⊢
  obtain ⟨g, hg, hcov⟩ := h c hc hcomp'
  rcases Multiset.mem_cons.mp hg with rfl | hg
  · exact hf c hc hcomp' hcov
  · exact ⟨g, Multiset.mem_cons_of_mem hg, hcov⟩

/-- A step of a thread that covers at least as much afterwards. -/
theorem goes (h : Awake P m (f ::ₘ others)) (hn : m'.nextClock = m.nextClock)
    (harr : m'.arrived = m.arrived)
    (hf : ∀ c, f.covers m.nextClock c → f'.covers m.nextClock c) : Awake P m' (f' ::ₘ others) :=
  h.move hn harr fun c _ _ hcov => ⟨f', Multiset.mem_cons_self _ _, hf c hcov⟩

theorem store {i c : ℕ} (h : Awake P m (.store i c ::ₘ others)) :
    Awake P (m.setSignal P i c) (.countCheck c ::ₘ others) := by
  intro d hd hcomp
  by_cases hc : m.nextClock ≤ c ∧ c ≤ d
  · exact ⟨_, Multiset.mem_cons_self _ _, hc.2⟩
  · have hold : ∀ e, m.nextClock ≤ e → e ≤ d → m.Complete P e := fun e h1 h2 j hj => by
      rcases Arrived.mem_arrived_setSignal.mp (hcomp e h1 h2 j hj) with hj | ⟨-, rfl⟩
      · exact hj
      · exact absurd ⟨h1, h2⟩ hc
    obtain ⟨g, hg, hcov⟩ := h d hd hold
    rcases Multiset.mem_cons.mp hg with rfl | hg
    · exact absurd hcov not_false
    · exact ⟨g, Multiset.mem_cons_of_mem hg, hcov⟩

/-- A thread that does not count to zero leaves another one that counts for the clock. -/
theorem countDown {c : ℕ} (h : Awake P m (.countDown c ::ₘ others))
    (ha : Arrived P m (.countDown c ::ₘ others)) (choice : Option (ℕ × ℕ)) :
    Awake P (exec P choice m (.countDown c)).1 ((exec P choice m (.countDown c)).2 ::ₘ others) := by
  simp only [exec]
  split
  · exact h.goes rfl rfl fun _ hcov => hcov
  · next hz =>
    refine h.move rfl rfl fun d hd hcomp hcov => ?_
    have hle : c ≤ d := hcov
    have hc : m.Complete P c := by
      rcases Nat.lt_or_ge c m.nextClock with hlt | hge
      · exact ha.complete c hlt
      · exact hcomp c hge hle
    obtain ⟨g, hg, hcnt⟩ := ha.exists_counting hz hc
    refine ⟨g, Multiset.mem_cons_of_mem hg, ?_⟩
    cases g with
    | countCheck e | countDown e =>
      have he : e = c := of_decide_eq_true hcnt
      exact he.le.trans hle
    | _ => cases hcnt

/-- A scan that ends before a clock has not found it complete. -/
theorem scan {clk ii j : ℕ} (h : Awake P m (.scan clk ii j ::ₘ others))
    (ha : Arrived P m (.scan clk ii j ::ₘ others)) (hw : Windowed P m)
    (hs : NotStale P (.scan clk ii j) m) (choice : Option (ℕ × ℕ)) :
    Awake P (exec P choice m (.scan clk ii j)).1
      ((exec P choice m (.scan clk ii j)).2 ::ₘ others) := by
  obtain ⟨-, hii, -, hj, -⟩ := ha.found _ (Multiset.mem_cons_self _ _)
  have hmiss : m.signal P j ii ≠ ii → m.nextClock = clk → ¬ m.Complete P ii :=
    fun hne hn => hw.not_complete ha (by omega) hj hne
  simp only [exec]
  split
  · split
    · exact h.goes rfl rfl fun _ _ => trivial
    · split
      · exact h.goes rfl rfl fun _ _ => trivial
      · next hend =>
        rw [afterScan, if_pos (by omega)]
        refine h.move rfl rfl fun c hc hcomp _ => ⟨_, Multiset.mem_cons_self _ _, fun hn => ?_⟩
        have hlt := hw.lt_of_complete (hcomp c hc (le_refl c))
        omega
  · next hne =>
    rw [afterScan]
    split
    · refine h.move rfl rfl fun c hc hcomp _ => ⟨_, Multiset.mem_cons_self _ _, fun hn => ?_⟩
      by_contra hlt
      exact hmiss hne hn.symm (hcomp ii (by omega) (by omega))
    · have hn := hs hne (by omega)
      refine h.move rfl rfl fun c hc hcomp _ => ?_
      exact absurd (hcomp ii (by omega) (by omega)) (hmiss hne hn)

/-- After a successful compare-and-swap the clocks that are still to be claimed are those that
another thread covers. -/
theorem claim {clk res : ℕ} (h : Awake P m (.cas clk res ::ₘ others))
    (ha : Arrived P m (.cas clk res ::ₘ others)) (hlt : clk < res) (hn : m.nextClock = clk) :
    Awake P { m with nextClock := res } (.wait clk res ::ₘ others) := by
  intro c hc hcomp
  change res ≤ c at hc
  have hall : ∀ d, m.nextClock ≤ d → d ≤ c → m.Complete P d := fun d h1 h2 => by
    rcases Nat.lt_or_ge d res with hd | hd
    · exact (ha.found _ (Multiset.mem_cons_self _ _)).2.2 d (hn ▸ h1) hd
    · exact hcomp d hd h2
  obtain ⟨g, hg, hcov⟩ := h c (by omega) hall
  rcases Multiset.mem_cons.mp hg with rfl | hg
  · have := hcov hn.symm
    omega
  · refine ⟨g, Multiset.mem_cons_of_mem hg, ?_⟩
    have hfound := ha.found g (Multiset.mem_cons_of_mem hg)
    cases g with
    | cas clk' res' =>
      intro he
      have hle : clk' ≤ m.nextClock := hfound.1
      change clk' = res at he
      omega
    | _ => exact hcov

theorem exec (h : Awake P m (f ::ₘ others)) (ho : InOrder m (f ::ₘ others))
    (ha : Arrived P m (f ::ₘ others)) (hw : Windowed P m) (hser : P.serial = true)
    (hs : NotStale P f m) (choice : Option (ℕ × ℕ)) :
    Awake P (exec P choice m f).1 ((exec P choice m f).2 ::ₘ others) := by
  cases f with
  | upstream | receive | wait | enqueue =>
    simp only [Dataflow.exec]
    split <;> exact h.goes rfl rfl fun _ hcov => absurd hcov not_false
  | storeQueued | thrown => exact h.goes rfl rfl fun _ hcov => absurd hcov not_false
  | store i c => exact h.store
  | countCheck c =>
    have hne : m.count (c % P.slices) ≠ 0 := by
      have hcount := (ha.count_of_counting (c := c) rfl (decide_eq_true rfl)).1
      omega
    simp only [Dataflow.exec, if_neg hne]
    exact h.goes rfl rfl fun _ hcov => hcov
  | countDown c => exact h.countDown ha choice
  | countReset c => exact h.goes rfl rfl fun _ hcov => hcov
  | check c j =>
    simp only [Dataflow.exec, if_pos ha.signal_of_check, hser, if_true]
    split
    · exact h.goes rfl rfl fun _ hcov => hcov
    · exact h.goes rfl rfl fun _ _ => trivial
  | spawn => exact h.goes rfl rfl fun _ hcov => absurd hcov not_false
  | loadNext => exact h.goes rfl rfl fun _ _ => trivial
  | scan clk ii j => exact h.scan ha hw hs choice
  | cas clk res =>
    simp only [Dataflow.exec]
    split
    · exact h.claim ha (ho.ranged _ (Multiset.mem_cons_self _ _)) ‹_›
    · exact h.goes rfl rfl fun _ _ => trivial

end Awake

/-- The node works as it is meant to. -/
structure Works (P : Shape) (m : Memory) (fs : Multiset Frame) : Prop where
  inOrder : InOrder m fs
  arrived : Arrived P m fs
  windowed : Windowed P m
  awake : Awake P m fs

/-- What the network and the scans must do. -/
def Fresh (P : Shape) (f : Frame) (m : Memory) (fs : Multiset Frame) : Prop :=
  Delivers P f m fs ∧ NotStale P f m

instance (P : Shape) (f : Frame) (m : Memory) (fs : Multiset Frame) :
    Decidable (Fresh P f m fs) :=
  inferInstanceAs (Decidable (_ ∧ _))

theorem works_preserved {P : Shape} (hser : P.serial = true) :
    Preserves (code P) (fun _ _ f m fs => Fresh P f m fs) (Works P) :=
  preserves_of_exec fun choice f m others h hg => by
    obtain ⟨-, hd, hs⟩ := hg
    exact ⟨h.inOrder.exec hser choice, h.arrived.exec hd choice,
      h.windowed.exec h.inOrder hd choice,
      h.awake.exec h.inOrder h.arrived h.windowed hser hs choice⟩

theorem works_boot (P : Shape) (threads : ℕ) :
    Works P (boot P threads).mem (boot P threads).frames := by
  have hidle := idle_boot P threads
  refine ⟨inOrder_init P hidle, arrived_init P hidle,
    fun c i hi => absurd hi (Finset.notMem_empty i), fun c _ hcomp => ?_⟩
  exact absurd (hcomp c (Nat.zero_le c) (le_refl c)).nonempty Finset.not_nonempty_empty

/-- When no thread is at work, the clock at `next_clock_` is not complete. -/
theorem Works.not_complete {P : Shape} {m : Memory} {fs : Multiset Frame} (h : Works P m fs)
    (hidle : ∀ f ∈ fs, f = .upstream) : ¬ m.Complete P m.nextClock := by
  intro hcomp
  obtain ⟨f, hf, hcov⟩ := h.awake m.nextClock (le_refl _) fun d h1 h2 => by
    rwa [le_antisymm h2 h1]
  rw [hidle f hf] at hcov
  exact hcov

/-- The clocks handed to the scheduler are 0, 1, 2 and so on, and the counters do not decrease,
whatever is delivered. When the network delivers as it should and no thread gives up on a stale
value, no complete clock is left behind once all calls have returned. -/
theorem onClock_releases (P : Shape) (hser : P.serial = true) (threads : ℕ)
    (es : List (ℕ × Option (ℕ × ℕ))) :
    let s := run (code P) (boot P threads) es
    s.mem.enqueued = List.range s.mem.enqueued.length ∧
      (∀ es', s.mem.nextClock ≤ (run (code P) s es').mem.nextClock ∧
        s.mem.queuedClock ≤ (run (code P) s es').mem.queuedClock) ∧
      (Always (code P) (fun _ _ f m fs => Fresh P f m fs) (boot P threads) es →
        (∀ f ∈ s.frames, f = .upstream) → ∀ k, (∀ c < k, s.mem.Complete P c) →
          ∀ c < k, c ∈ s.mem.enqueued) := by
  intro s
  have hord : InOrder s.mem s.frames :=
    (inOrder_preserved hser).run (Always.of_forall (fun _ _ _ _ _ => trivial) _ _)
      (inOrder_init P (idle_boot P threads))
  refine ⟨hord.enqueued, counters_run hser hord, fun hg hidle k hk c hc => ?_⟩
  have hworks : Works P s.mem s.frames := (works_preserved hser).run hg (works_boot P threads)
  rw [hord.enqueued_of_idle hidle, List.mem_range]
  by_contra hlt
  exact hworks.not_complete hidle (hk s.mem.nextClock (by omega))

/-- A serial node with two inputs and two slices. -/
def twoByTwo : Shape := ⟨2, 2, true, by decide, by decide⟩

/-- Thread `t` delivers clock `c` to input `i`, and takes `k` further steps. -/
def delivers (t i c k : ℕ) : List (ℕ × Option (ℕ × ℕ)) :=
  (t, some (i, c)) :: List.replicate k (t, none)

/-- Both inputs receive clock 0. -/
def deliverFirst : List (ℕ × Option (ℕ × ℕ)) := delivers 0 0 0 4 ++ delivers 0 1 0 15

theorem onClock_releases_first :
    0 ∈ (run (code twoByTwo) (boot twoByTwo 2) deliverFirst).mem.enqueued :=
  (onClock_releases twoByTwo rfl 2 deliverFirst).2.2 (by decide +kernel) (by decide +kernel) 1
    (by decide +kernel) 0 (by decide)

/-- Thread 0 delivers clock 0 and stops before it claims it; thread 1 delivers clock 1 and stops
when it has read `next_clock_`; thread 0 enqueues clock 0 and delivers clock 2 to one input;
thread 1 looks for clock 0 and gives up. -/
def strand : List (ℕ × Option (ℕ × ℕ)) :=
  delivers 0 0 0 4 ++ delivers 0 1 0 11 ++ delivers 1 0 1 4 ++ delivers 1 1 1 8 ++
    List.replicate 4 (0, none) ++ delivers 0 0 2 4 ++ [(1, none)]

/-- All calls have returned, the network has delivered as it should, clocks 0 and 1 have arrived
at both inputs, and clock 1 is not enqueued. -/
theorem onClock_strands :
    Always (code twoByTwo) (fun _ _ f m fs => Delivers twoByTwo f m fs) (boot twoByTwo 2) strand ∧
      (∀ f ∈ (run (code twoByTwo) (boot twoByTwo 2) strand).frames, f = .upstream) ∧
      (∀ c < 2, (run (code twoByTwo) (boot twoByTwo 2) strand).mem.Complete twoByTwo c) ∧
      1 ∉ (run (code twoByTwo) (boot twoByTwo 2) strand).mem.enqueued := by
  decide +kernel

end Embb.Dataflow
