import Embb.Lib.Threads
import Mathlib.Data.Finset.Insert
import Mathlib.Data.Multiset.Count

/-!
# How processes and sinks release clocks

Upstream threads deliver signals to the inputs of a node. The thread that delivers the last
input of a clock calls `OnClock`. A parallel process, a switch and a select spawn the clock. A
serial process and a sink look for complete clocks from `next_clock_` on, claim them with a
compare-and-swap and enqueue them when their predecessor is done; `Process::OnClock` with
`Serial` and `Sink::OnClock` are the same code.
-/

namespace Embb.Dataflow

open Threads

/-- The number of slices and the number of inputs of a node, and whether it keeps the clocks
in order. -/
structure Shape where
  slices : ℕ
  inputs : ℕ
  serial : Bool
  slices_pos : 0 < slices
  inputs_pos : 0 < inputs

structure Memory where
  /-- The clock of the signal in each slot of each input, -1 before the first one. -/
  clock : ℕ → ℕ → ℤ
  count : ℕ → ℤ
  nextClock : ℕ
  queuedClock : ℕ
  /-- The clocks handed to the scheduler. -/
  enqueued : List ℕ
  /-- The inputs that have received each clock, which the code does not keep. -/
  arrived : ℕ → Finset ℕ

/-- The program points of an upstream thread. -/
inductive Frame
  | upstream
  -- In::Receive
  | receive (i c : ℕ)
  | store (i c : ℕ)
  -- Inputs::OnClock
  | countCheck (c : ℕ)
  | countDown (c : ℕ)
  | countReset (c : ℕ)
  -- OnClock
  | check (c j : ℕ)
  | spawn (c : ℕ)
  | loadNext
  | scan (clk ii j : ℕ)
  | cas (clk res : ℕ)
  | wait (clk res : ℕ)
  | enqueue (clk res ii : ℕ)
  | storeQueued (clk res : ℕ)
  | thrown
  deriving DecidableEq, Repr

namespace Memory

/-- `Inputs` and `OnClock` as the constructors leave them. -/
def init (P : Shape) : Memory where
  clock := fun _ _ => -1
  count := fun _ => P.inputs
  nextClock := 0
  queuedClock := 0
  enqueued := []
  arrived := fun _ => ∅

/-- The signal of input `i` in the slot of `c`. -/
def signal (P : Shape) (m : Memory) (i c : ℕ) : ℤ := m.clock i (c % P.slices)

def setSignal (P : Shape) (m : Memory) (i c : ℕ) : Memory :=
  { m with
    clock := Function.update m.clock i (Function.update (m.clock i) (c % P.slices) c)
    arrived := Function.update m.arrived c (insert i (m.arrived c)) }

def setCount (P : Shape) (m : Memory) (c : ℕ) (k : ℤ) : Memory :=
  { m with count := Function.update m.count (c % P.slices) k }

end Memory

/-- After the loop over the window: the clocks from `clk` below `res` are there. -/
def afterScan (clk res : ℕ) : Frame := if clk < res then .cas clk res else .upstream

/-- One step. An upstream thread delivers the signal that the environment chooses. -/
def exec (P : Shape) (choice : Option (ℕ × ℕ)) (m : Memory) : Frame → Memory × Frame
  | .upstream =>
    match choice with
    | some (i, c) => (m, .receive i c)
    | none => (m, .upstream)
  | .receive i c => if c ≤ m.signal P i c then (m, .thrown) else (m, .store i c)
  | .store i c => (m.setSignal P i c, .countCheck c)
  | .countCheck c => if m.count (c % P.slices) = 0 then (m, .thrown) else (m, .countDown c)
  | .countDown c =>
    (m.setCount P c (m.count (c % P.slices) - 1),
      if m.count (c % P.slices) - 1 = 0 then .countReset c else .upstream)
  | .countReset c => (m.setCount P c P.inputs, .check c 0)
  | .check c j =>
    if m.signal P j c = c then
      (m, if j + 1 < P.inputs then .check c (j + 1)
        else if P.serial then .loadNext
        else .spawn c)
    else (m, .thrown)
  | .spawn c => ({ m with enqueued := m.enqueued ++ [c] }, .upstream)
  | .loadNext => (m, .scan m.nextClock m.nextClock 0)
  | .scan clk ii j =>
    if m.signal P j ii = ii then
      (m, if j + 1 < P.inputs then .scan clk ii (j + 1)
        else if ii + 1 < clk + P.slices then .scan clk (ii + 1) 0
        else afterScan clk (ii + 1))
    else (m, afterScan clk ii)
  | .cas clk res =>
    if m.nextClock = clk then ({ m with nextClock := res }, .wait clk res) else (m, .loadNext)
  | .wait clk res => if m.queuedClock < clk then (m, .wait clk res) else (m, .enqueue clk res clk)
  | .enqueue clk res ii =>
    ({ m with enqueued := m.enqueued ++ [ii] },
      if ii + 1 < res then .enqueue clk res (ii + 1) else .storeQueued clk res)
  | .storeQueued _ res => ({ m with queuedClock := res }, .upstream)
  | .thrown => (m, .thrown)

def code (P : Shape) : Code Memory Frame (Option (ℕ × ℕ)) := fun _ choice f m =>
  ((exec P choice m f).1, [(exec P choice m f).2])

/-- Any number of upstream threads. -/
def boot (P : Shape) (threads : ℕ) : State Memory Frame :=
  ⟨Memory.init P, List.replicate threads [.upstream]⟩

theorem preserves_of_exec {P : Shape} {g : Guard Memory Frame (Option (ℕ × ℕ))}
    {inv : Memory → Multiset Frame → Prop}
    (h : ∀ choice f m others, inv m (f ::ₘ others) → (∃ t, g t choice f m (f ::ₘ others)) →
      inv (exec P choice m f).1 ((exec P choice m f).2 ::ₘ others)) :
    Preserves (code P) g inv := by
  intro t choice f m others hinv hg
  have hnew := h choice f m others hinv ⟨t, hg⟩
  rwa [← Multiset.singleton_add] at hnew

/-! ## Clocks are released in order -/

/-- The frame has claimed the clock and not released it. -/
def Frame.claims (c : ℕ) : Frame → Bool
  | .wait clk res | .enqueue clk res _ | .storeQueued clk res => clk ≤ c ∧ c < res
  | _ => false

/-- How many frames have claimed the clock. -/
def claimants (fs : Multiset Frame) (c : ℕ) : ℕ := fs.countP fun f => f.claims c

theorem claimants_cons (f : Frame) (fs : Multiset Frame) (c : ℕ) :
    claimants (f ::ₘ fs) c = claimants fs c + if f.claims c = true then 1 else 0 :=
  Multiset.countP_cons ..

/-- Where a frame that is enqueuing has started, and which clock it enqueues next. -/
def Frame.releasing : Frame → Option (ℕ × ℕ)
  | .enqueue clk _ ii => some (clk, ii)
  | .storeQueued clk res => some (clk, res)
  | _ => none

/-- The ranges that frames work on are not empty. -/
def Frame.Ranged : Frame → Prop
  | .cas clk res | .wait clk res | .storeQueued clk res => clk < res
  | .enqueue clk res ii => clk ≤ ii ∧ ii < res
  | .spawn _ => False
  | _ => True

/-- The clocks that are claimed and not released lie between the counters, each claimed by one
frame; the scheduler has got the clocks below, and what the frame in charge has enqueued. -/
structure InOrder (m : Memory) (fs : Multiset Frame) : Prop where
  claimed : ∀ c, claimants fs c = if m.queuedClock ≤ c ∧ c < m.nextClock then 1 else 0
  ranged : ∀ f ∈ fs, f.Ranged
  queued_le : m.queuedClock ≤ m.nextClock
  enqueued : m.enqueued = List.range m.enqueued.length
  releasing : ∀ f ∈ fs, ∀ x, f.releasing = some x →
    x.1 = m.queuedClock ∧ x.2 = m.enqueued.length
  rest : (∀ f ∈ fs, f.releasing = none) → m.enqueued.length = m.queuedClock

namespace InOrder

variable {P : Shape} {m m' : Memory} {f f' : Frame} {fs others : Multiset Frame}

/-- A claimed clock lies between the counters. -/
theorem of_claims (h : InOrder m (f ::ₘ others)) {c : ℕ} (hc : f.claims c = true) :
    m.queuedClock ≤ c ∧ c < m.nextClock := by
  have hcount := h.claimed c
  rw [claimants_cons, if_pos hc] at hcount
  by_contra hn
  rw [if_neg hn] at hcount
  omega

/-- A clock is claimed once. -/
theorem not_claims (h : InOrder m (f ::ₘ others)) {c : ℕ} (hc : f.claims c = true)
    (hf : f' ∈ others) : f'.claims c = false := by
  have hcount := h.claimed c
  rw [claimants_cons, if_pos hc, if_pos (h.of_claims hc)] at hcount
  have hzero : claimants others c = 0 := by omega
  exact Bool.eq_false_iff.mpr (Multiset.countP_eq_zero.mp hzero f' hf)

/-- A frame that is enqueuing claims the clock it has started at. -/
theorem claims_of_releasing (h : f.Ranged) {x : ℕ × ℕ} (hx : f.releasing = some x) :
    f.claims x.1 = true := by
  cases f with
  | enqueue clk res ii =>
    cases hx
    obtain ⟨h1, h2⟩ := h
    simp only [Frame.claims, decide_eq_true_eq]
    omega
  | storeQueued clk res =>
    cases hx
    exact decide_eq_true ⟨le_refl _, h⟩
  | _ => cases hx

/-- While a frame that claims the next clock is there, no other one is enqueuing. -/
theorem releasing_none (h : InOrder m (f ::ₘ others)) (hc : f.claims m.queuedClock = true)
    (hf : f' ∈ others) : f'.releasing = none := by
  cases hx : f'.releasing with
  | none => rfl
  | some x =>
    have hmem : f' ∈ f ::ₘ others := Multiset.mem_cons_of_mem hf
    have hclaims := claims_of_releasing (h.ranged f' hmem) hx
    rw [(h.releasing f' hmem x hx).1, h.not_claims hc hf] at hclaims
    cases hclaims

/-- A step that neither claims nor releases. -/
theorem move (h : InOrder m (f ::ₘ others)) (hn : m'.nextClock = m.nextClock)
    (hq : m'.queuedClock = m.queuedClock) (he : m'.enqueued = m.enqueued)
    (hc : ∀ c, f'.claims c = f.claims c) (hr : f.releasing = none) (hr' : f'.releasing = none)
    (hf : f'.Ranged) : InOrder m' (f' ::ₘ others) where
  claimed c := by
    rw [hn, hq, ← h.claimed c, claimants_cons, claimants_cons, hc c]
  ranged g hg := by
    rcases Multiset.mem_cons.mp hg with rfl | hg
    · exact hf
    · exact h.ranged g (Multiset.mem_cons_of_mem hg)
  queued_le := by
    rw [hn, hq]
    exact h.queued_le
  enqueued := by
    rw [he]
    exact h.enqueued
  releasing g hg x hx := by
    rw [hq, he]
    rcases Multiset.mem_cons.mp hg with rfl | hg
    · rw [hr'] at hx
      cases hx
    · exact h.releasing g (Multiset.mem_cons_of_mem hg) x hx
  rest hall := by
    rw [hq, he]
    refine h.rest fun g hg => ?_
    rcases Multiset.mem_cons.mp hg with rfl | hg
    · exact hr
    · exact hall g (Multiset.mem_cons_of_mem hg)

/-- The compare-and-swap claims the clocks that the scan has found. -/
theorem claim {clk res : ℕ} (h : InOrder m (.cas clk res ::ₘ others)) (hn : m.nextClock = clk) :
    InOrder { m with nextClock := res } (.wait clk res ::ₘ others) where
  claimed c := by
    have hlt : clk < res := h.ranged _ (Multiset.mem_cons_self _ _)
    have hcount := h.claimed c
    have hle := h.queued_le
    simp only [claimants_cons, Frame.claims, Bool.false_eq_true, if_false,
      decide_eq_true_eq] at hcount ⊢
    rw [Nat.add_zero] at hcount
    rw [hcount]
    split_ifs <;> omega
  ranged g hg := by
    rcases Multiset.mem_cons.mp hg with rfl | hg
    · exact h.ranged (.cas clk res) (Multiset.mem_cons_self _ _)
    · exact h.ranged g (Multiset.mem_cons_of_mem hg)
  queued_le := by
    have hlt : clk < res := h.ranged _ (Multiset.mem_cons_self _ _)
    have hle := h.queued_le
    change m.queuedClock ≤ res
    omega
  enqueued := h.enqueued
  releasing g hg x hx := by
    rcases Multiset.mem_cons.mp hg with rfl | hg
    · cases hx
    · exact h.releasing g (Multiset.mem_cons_of_mem hg) x hx
  rest hall := by
    refine h.rest fun g hg => ?_
    rcases Multiset.mem_cons.mp hg with rfl | hg
    · rfl
    · exact hall g (Multiset.mem_cons_of_mem hg)

/-- A thread is done waiting when all clocks below its own are released. -/
theorem queued_of_wait {clk res : ℕ} (h : InOrder m (.wait clk res ::ₘ others))
    (hw : ¬ m.queuedClock < clk) : m.queuedClock = clk ∧ m.enqueued.length = clk := by
  have hlt : clk < res := h.ranged _ (Multiset.mem_cons_self _ _)
  have hc : (Frame.wait clk res).claims clk = true := decide_eq_true ⟨le_refl _, hlt⟩
  have heq : m.queuedClock = clk := le_antisymm (h.of_claims hc).1 (Nat.le_of_not_lt hw)
  refine ⟨heq, ?_⟩
  rw [← heq]
  refine h.rest fun g hg => ?_
  rcases Multiset.mem_cons.mp hg with rfl | hg
  · rfl
  · exact h.releasing_none (heq ▸ hc) hg

/-- The thread in charge goes on: it begins, hands over a clock, or is done with the loop. -/
theorem advance (h : InOrder m (f ::ₘ others)) (es : List ℕ) (f' : Frame)
    (hc : ∀ c, f'.claims c = f.claims c) (hclaim : f.claims m.queuedClock = true)
    (he : m.enqueued ++ es = List.range (m.enqueued ++ es).length)
    (hr' : f'.releasing = some (m.queuedClock, (m.enqueued ++ es).length)) (hf : f'.Ranged) :
    InOrder { m with enqueued := m.enqueued ++ es } (f' ::ₘ others) where
  claimed c := by
    rw [← h.claimed c, claimants_cons, claimants_cons, hc c]
  ranged g hg := by
    rcases Multiset.mem_cons.mp hg with rfl | hg
    · exact hf
    · exact h.ranged g (Multiset.mem_cons_of_mem hg)
  queued_le := h.queued_le
  enqueued := he
  releasing g hg x hx := by
    rcases Multiset.mem_cons.mp hg with rfl | hg
    · rw [hr'] at hx
      cases hx
      exact ⟨rfl, rfl⟩
    · rw [h.releasing_none hclaim hg] at hx
      cases hx
  rest hall := by
    have hnone := hall f' (Multiset.mem_cons_self _ _)
    rw [hr'] at hnone
    cases hnone

/-- The thread in charge leaves the clocks from its last one on to its successor. -/
theorem release {clk res : ℕ} (h : InOrder m (.storeQueued clk res ::ₘ others)) :
    InOrder { m with queuedClock := res } (.upstream ::ₘ others) where
  claimed c := by
    have hlt : clk < res := h.ranged _ (Multiset.mem_cons_self _ _)
    obtain ⟨hq, -⟩ := h.releasing _ (Multiset.mem_cons_self _ _) (clk, res) rfl
    have hc : (Frame.storeQueued clk res).claims (res - 1) = true :=
      decide_eq_true ⟨by omega, by omega⟩
    have hlast := (h.of_claims hc).2
    have hcount := h.claimed c
    simp only [claimants_cons, Frame.claims, Bool.false_eq_true, if_false,
      decide_eq_true_eq] at hcount hq ⊢
    split_ifs at hcount ⊢ <;> omega
  ranged g hg := by
    rcases Multiset.mem_cons.mp hg with rfl | hg
    · exact trivial
    · exact h.ranged g (Multiset.mem_cons_of_mem hg)
  queued_le := by
    have hlt : clk < res := h.ranged _ (Multiset.mem_cons_self _ _)
    have hc : (Frame.storeQueued clk res).claims (res - 1) = true :=
      decide_eq_true ⟨by omega, by omega⟩
    have hlast := (h.of_claims hc).2
    change res ≤ m.nextClock
    omega
  enqueued := h.enqueued
  releasing g hg x hx := by
    have hlt : clk < res := h.ranged _ (Multiset.mem_cons_self _ _)
    obtain ⟨hq, -⟩ := h.releasing _ (Multiset.mem_cons_self _ _) (clk, res) rfl
    have hc : (Frame.storeQueued clk res).claims m.queuedClock = true :=
      decide_eq_true ⟨hq.le, hq ▸ hlt⟩
    rcases Multiset.mem_cons.mp hg with rfl | hg
    · cases hx
    · rw [h.releasing_none hc hg] at hx
      cases hx
  rest _ := ((h.releasing _ (Multiset.mem_cons_self _ _) (clk, res) rfl).2).symm

theorem exec (h : InOrder m (f ::ₘ others)) (hs : P.serial = true) (choice : Option (ℕ × ℕ)) :
    InOrder (exec P choice m f).1 ((exec P choice m f).2 ::ₘ others) := by
  have hf := h.ranged f (Multiset.mem_cons_self _ _)
  cases f with
  | upstream =>
    simp only [Dataflow.exec]
    split <;> exact h.move rfl rfl rfl (fun _ => rfl) rfl rfl trivial
  | receive | countCheck =>
    simp only [Dataflow.exec]
    split <;> exact h.move rfl rfl rfl (fun _ => rfl) rfl rfl trivial
  | store | countReset | loadNext | thrown =>
    exact h.move rfl rfl rfl (fun _ => rfl) rfl rfl trivial
  | countDown =>
    simp only [Dataflow.exec]
    split <;> exact h.move rfl rfl rfl (fun _ => rfl) rfl rfl trivial
  | check =>
    simp only [Dataflow.exec, hs, if_true]
    repeat' split
    all_goals exact h.move rfl rfl rfl (fun _ => rfl) rfl rfl trivial
  | spawn => exact absurd hf not_false
  | scan clk ii j =>
    simp only [Dataflow.exec, afterScan]
    repeat' split
    all_goals
      first
      | exact h.move rfl rfl rfl (fun _ => rfl) rfl rfl trivial
      | exact h.move rfl rfl rfl (fun _ => rfl) rfl rfl ‹clk < _›
  | cas clk res =>
    simp only [Dataflow.exec]
    split
    · exact h.claim ‹_›
    · exact h.move rfl rfl rfl (fun _ => rfl) rfl rfl trivial
  | wait clk res =>
    simp only [Dataflow.exec]
    split
    · exact h
    · obtain ⟨hq, hl⟩ := h.queued_of_wait ‹_›
      have hnew := h.advance [] (.enqueue clk res clk) (fun _ => rfl)
        (decide_eq_true ⟨hq.ge, hq ▸ hf⟩) (by rw [List.append_nil]; exact h.enqueued)
        (by rw [List.append_nil, hq, hl]; rfl) ⟨le_refl _, hf⟩
      rwa [List.append_nil] at hnew
  | enqueue clk res ii =>
    obtain ⟨h1, h2⟩ := hf
    obtain ⟨hq, hl⟩ := h.releasing _ (Multiset.mem_cons_self _ _) (clk, ii) rfl
    have he : m.enqueued ++ [ii] = List.range (m.enqueued ++ [ii]).length := by
      rw [List.length_append, List.length_singleton, List.range_succ, ← h.enqueued, ← hl]
    have hc : (Frame.enqueue clk res ii).claims m.queuedClock = true := by
      simp only [Frame.claims, decide_eq_true_eq]
      omega
    have hlen : (m.enqueued ++ [ii]).length = ii + 1 := by
      rw [List.length_append, List.length_singleton, ← hl]
    simp only [Dataflow.exec]
    split
    · refine h.advance [ii] (.enqueue clk res (ii + 1)) (fun _ => rfl) hc he ?_ ⟨by omega, ‹_›⟩
      rw [hlen, ← hq]
      rfl
    · refine h.advance [ii] (.storeQueued clk res) (fun _ => rfl) hc he ?_ (lt_of_le_of_lt h1 h2)
      rw [hlen, ← hq, show ii + 1 = res by omega]
      rfl
  | storeQueued clk res => exact h.release

/-- What has been enqueued was claimed. -/
theorem lt_nextClock (h : InOrder m fs) : ∀ d ∈ m.enqueued, d < m.nextClock := by
  have hle : m.enqueued.length ≤ m.nextClock := by
    by_cases hnone : ∀ f ∈ fs, f.releasing = none
    · rw [h.rest hnone]
      exact h.queued_le
    · push Not at hnone
      obtain ⟨f, hf, hr⟩ := hnone
      obtain ⟨x, hx⟩ := Option.ne_none_iff_exists'.mp hr
      obtain ⟨others, rfl⟩ := Multiset.exists_cons_of_mem hf
      obtain ⟨-, hlen⟩ := h.releasing f hf x hx
      have hran := h.ranged f hf
      cases f with
      | enqueue clk res ii =>
        cases hx
        have hlt := (h.of_claims (c := ii) (decide_eq_true hran)).2
        change ii = _ at hlen
        omega
      | storeQueued clk res =>
        cases hx
        have hlt : clk < res := hran
        have hlast := (h.of_claims (c := res - 1) (decide_eq_true ⟨by omega, by omega⟩)).2
        change res = _ at hlen
        omega
      | _ => cases hx
  intro d hd
  rw [h.enqueued, List.mem_range] at hd
  omega

/-- When no thread is at work, all claimed clocks are enqueued. -/
theorem enqueued_of_idle (h : InOrder m fs) (hidle : ∀ f ∈ fs, f = .upstream) :
    m.enqueued = List.range m.nextClock := by
  have hrest := h.rest fun f hf => by rw [hidle f hf]; rfl
  have hcount : claimants fs m.queuedClock = 0 :=
    Multiset.countP_eq_zero.mpr fun f hf hc => by
      rw [hidle f hf] at hc
      cases hc
  have hclaimed := h.claimed m.queuedClock
  have hle := h.queued_le
  rw [hcount] at hclaimed
  have heq : m.enqueued.length = m.nextClock := by
    split_ifs at hclaimed
    omega
  rw [h.enqueued, heq]

/-- The counters do not decrease. -/
theorem counters_le (h : InOrder m (f ::ₘ others)) (choice : Option (ℕ × ℕ)) :
    m.nextClock ≤ (Dataflow.exec P choice m f).1.nextClock ∧
      m.queuedClock ≤ (Dataflow.exec P choice m f).1.queuedClock := by
  have hf := h.ranged f (Multiset.mem_cons_self _ _)
  cases f with
  | cas clk res =>
    have hlt : clk < res := hf
    simp only [Dataflow.exec]
    split
    · exact ⟨by change m.nextClock ≤ res; omega, le_refl _⟩
    · exact ⟨le_refl _, le_refl _⟩
  | storeQueued clk res =>
    obtain ⟨hq, -⟩ := h.releasing _ (Multiset.mem_cons_self _ _) (clk, res) rfl
    have hlt : clk < res := hf
    change clk = m.queuedClock at hq
    exact ⟨le_refl _, by change m.queuedClock ≤ res; omega⟩
  | _ =>
    simp only [Dataflow.exec]
    repeat' split
    all_goals exact ⟨le_refl _, le_refl _⟩

end InOrder

theorem inOrder_preserved {P : Shape} (hs : P.serial = true) :
    Preserves (code P) (fun _ _ _ _ _ => True) InOrder :=
  preserves_of_exec fun choice _ _ _ h _ => h.exec hs choice

/-- A node whose threads are all outside. -/
theorem inOrder_init (P : Shape) {fs : Multiset Frame} (hidle : ∀ f ∈ fs, f = .upstream) :
    InOrder (Memory.init P) fs := by
  refine ⟨fun c => ?_, fun f hf => ?_, le_refl _, rfl, fun f hf x hx => ?_, fun _ => rfl⟩
  · rw [if_neg (by rintro ⟨-, hlt⟩; exact absurd hlt (Nat.not_lt_zero c))]
    refine Multiset.countP_eq_zero.mpr fun f hf hc => ?_
    rw [hidle f hf] at hc
    cases hc
  · rw [hidle f hf]
    trivial
  · rw [hidle f hf] at hx
    cases hx

theorem idle_boot (P : Shape) (threads : ℕ) : ∀ f ∈ (boot P threads).frames, f = .upstream := by
  intro f hf
  obtain ⟨st, hst, hf⟩ := List.mem_flatten.mp (Multiset.mem_coe.mp hf)
  rw [List.eq_of_mem_replicate hst] at hf
  exact List.mem_singleton.mp hf

/-- The counters do not decrease in a run. -/
theorem counters_run {P : Shape} (hser : P.serial = true) {s : State Memory Frame}
    (h : InOrder s.mem s.frames) (es : List (ℕ × Option (ℕ × ℕ))) :
    s.mem.nextClock ≤ (run (code P) s es).mem.nextClock ∧
      s.mem.queuedClock ≤ (run (code P) s es).mem.queuedClock := by
  induction es generalizing s with
  | nil => exact ⟨le_refl _, le_refl _⟩
  | cons e es ih =>
    have hstep := ih ((inOrder_preserved hser).step (fun _ _ => trivial) h (e := e))
    have hmono : s.mem.nextClock ≤ (step (code P) s e).mem.nextClock ∧
        s.mem.queuedClock ≤ (step (code P) s e).mem.queuedClock := by
      cases ht : s.top e.1 with
      | none =>
        rw [step_of_top_none _ ht]
        exact ⟨le_refl _, le_refl _⟩
      | some f =>
        obtain ⟨others, hfr, hm, -⟩ := step_of_top (code P) ht
        rw [hm]
        exact (hfr ▸ h).counters_le e.2
    exact ⟨hmono.1.trans hstep.1, hmono.2.trans hstep.2⟩

end Embb.Dataflow
