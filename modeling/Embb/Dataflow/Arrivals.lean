import Embb.Dataflow.OnClock
import Mathlib.Data.Finset.Card

/-!
# What the inputs of a node have received

The network delivers each clock to each input once, and a slot is used again when its clock
has been enqueued and its deliveries are done. Then the slots hold the last clocks that have
arrived, the counters tell how many inputs are missing, and no exception is thrown.
-/

namespace Embb.Dataflow

open Threads

/-- All inputs have received the clock. -/
def Memory.Complete (P : Shape) (m : Memory) (c : ℕ) : Prop := ∀ i < P.inputs, i ∈ m.arrived c

/-- The clock that a delivery is for which has been stored and is not done. -/
def Frame.delivering : Frame → Option ℕ
  | .countCheck c | .countDown c | .countReset c | .check c _ => some c
  | _ => none

/-- The network delivers every clock to every input once, and the next clock of a slot when
the one before has been enqueued and its deliveries are done. -/
def Deliverable (P : Shape) (m : Memory) (fs : Multiset Frame) (i c : ℕ) : Prop :=
  i < P.inputs ∧ i ∉ m.arrived c ∧
    (c < P.slices ∨ (c - P.slices ∈ m.enqueued ∧ ∀ g ∈ fs, g.delivering ≠ some (c - P.slices)))

/-- The steps that receive a signal and store it are for one that can be delivered. -/
def Delivers (P : Shape) (f : Frame) (m : Memory) (fs : Multiset Frame) : Prop :=
  match f with
  | .receive i c | .store i c => Deliverable P m fs i c
  | _ => True

instance (P : Shape) (m : Memory) (c : ℕ) : Decidable (m.Complete P c) :=
  inferInstanceAs (Decidable (∀ i < P.inputs, i ∈ m.arrived c))

instance (P : Shape) (m : Memory) (fs : Multiset Frame) (i c : ℕ) :
    Decidable (Deliverable P m fs i c) :=
  inferInstanceAs (Decidable (i < P.inputs ∧ i ∉ m.arrived c ∧ (c < P.slices ∨
    (c - P.slices ∈ m.enqueued ∧ ∀ g ∈ fs, g.delivering ≠ some (c - P.slices)))))

instance (P : Shape) (f : Frame) (m : Memory) (fs : Multiset Frame) :
    Decidable (Delivers P f m fs) :=
  match f with
  | .receive i c | .store i c => inferInstanceAs (Decidable (Deliverable P m fs i c))
  | .upstream | .countCheck _ | .countDown _ | .countReset _ | .check _ _ | .spawn _ | .loadNext
  | .scan _ _ _ | .cas _ _ | .wait _ _ | .enqueue _ _ _ | .storeQueued _ _ | .thrown =>
    isTrue trivial

/-- The frame has to count down for the clock. -/
def Frame.counting (c : ℕ) : Frame → Bool
  | .countCheck c' | .countDown c' => c' = c
  | _ => false

/-- The frame has to set the counter of the clock again. -/
def Frame.resetting (c : ℕ) : Frame → Bool
  | .countReset c' => c' = c
  | _ => false

/-- The inputs of a clock that are not counted yet. -/
def uncounted (P : Shape) (m : Memory) (fs : Multiset Frame) (c : ℕ) : ℕ :=
  P.inputs - (m.arrived c).card + fs.countP fun f => f.counting c

def resets (fs : Multiset Frame) (c : ℕ) : ℕ := fs.countP fun f => f.resetting c

/-- The counter of a slot tells how many inputs of its clock are not counted yet, until it is
set again. -/
def Counted (P : Shape) (m : Memory) (fs : Multiset Frame) (c : ℕ) : Prop :=
  (0 < uncounted P m fs c ∧ resets fs c = 0 ∧ m.count (c % P.slices) = uncounted P m fs c) ∨
    (uncounted P m fs c = 0 ∧ resets fs c = 1 ∧ m.count (c % P.slices) = 0) ∨
    (uncounted P m fs c = 0 ∧ resets fs c = 0 ∧ m.count (c % P.slices) = P.inputs)

/-- What a thread has found out about the inputs. -/
def Frame.Found (P : Shape) (m : Memory) : Frame → Prop
  | .countReset c | .spawn c => m.Complete P c
  | .check c j => m.Complete P c ∧ j < P.inputs
  | .scan clk ii j =>
    clk ≤ m.nextClock ∧ clk ≤ ii ∧ ii < clk + P.slices ∧ j < P.inputs ∧
      (∀ c, clk ≤ c → c < ii → m.Complete P c) ∧ ∀ i < j, i ∈ m.arrived ii
  | .cas clk res =>
    clk ≤ m.nextClock ∧ clk < res ∧ ∀ c, clk ≤ c → c < res → m.Complete P c
  | .wait clk res => clk < res ∧ ∀ c, clk ≤ c → c < res → m.Complete P c
  | .enqueue clk res ii =>
    (clk ≤ ii ∧ ii < res) ∧ ∀ c, clk ≤ c → c < res → m.Complete P c
  | .thrown => False
  | _ => True

/-- The slots hold the last clocks that have arrived, and the clocks below `next_clock_` have
arrived everywhere. -/
structure Arrived (P : Shape) (m : Memory) (fs : Multiset Frame) : Prop where
  inputs : ∀ c, ∀ i ∈ m.arrived c, i < P.inputs
  before : ∀ c, ∀ i ∈ m.arrived (c + P.slices), m.Complete P c
  slot : ∀ c, ∀ i ∈ m.arrived c, i ∉ m.arrived (c + P.slices) → m.signal P i c = c
  latest : ∀ i s, m.clock i s = -1 ∨
    ∃ c : ℕ, m.clock i s = c ∧ i ∈ m.arrived c ∧ c % P.slices = s
  complete : ∀ c < m.nextClock, m.Complete P c
  handed : ∀ c ∈ m.enqueued, m.Complete P c
  found : ∀ f ∈ fs, f.Found P m
  current : ∀ f ∈ fs, ∀ c, f.delivering = some c →
    (m.arrived c).Nonempty ∧ m.arrived (c + P.slices) = ∅
  untouched : ∀ c < P.slices, m.arrived c = ∅ → m.count c = P.inputs
  counted : ∀ c, (m.arrived c).Nonempty → m.arrived (c + P.slices) = ∅ → Counted P m fs c

theorem uncounted_cons (P : Shape) (m : Memory) (f : Frame) (fs : Multiset Frame) (c : ℕ) :
    uncounted P m (f ::ₘ fs) c = uncounted P m fs c + if f.counting c = true then 1 else 0 := by
  rw [uncounted, uncounted, Multiset.countP_cons, Nat.add_assoc]

theorem resets_cons (f : Frame) (fs : Multiset Frame) (c : ℕ) :
    resets (f ::ₘ fs) c = resets fs c + if f.resetting c = true then 1 else 0 :=
  Multiset.countP_cons ..

theorem Memory.Complete.nonempty {P : Shape} {m : Memory} {c : ℕ} (h : m.Complete P c) :
    (m.arrived c).Nonempty := ⟨0, h 0 P.inputs_pos⟩

/-- Two clocks of one slot are a window apart. -/
theorem add_slices_le {P : Shape} {c d : ℕ} (hlt : d < c) (hmod : d % P.slices = c % P.slices) :
    d + P.slices ≤ c := by
  have h1 := Nat.div_add_mod d P.slices
  have h2 := Nat.div_add_mod c P.slices
  have hdiv : d / P.slices < c / P.slices := by
    by_contra hn
    have := Nat.mul_le_mul_left P.slices (Nat.le_of_not_lt hn)
    omega
  have := Nat.mul_le_mul_left P.slices hdiv
  rw [Nat.mul_succ] at this
  omega

namespace Arrived

variable {P : Shape} {m m' : Memory} {f f' : Frame} {fs others : Multiset Frame} {i c : ℕ}

/-- The clocks that a slot had before are complete. -/
theorem complete_before (h : Arrived P m fs) {c : ℕ} (hc : (m.arrived c).Nonempty) {d : ℕ}
    (hlt : d < c) (hmod : d % P.slices = c % P.slices) : m.Complete P d := by
  induction c using Nat.strong_induction_on with
  | _ c ih =>
    have hle := add_slices_le hlt hmod
    have hpos := P.slices_pos
    obtain ⟨e, rfl⟩ : ∃ e, c = e + P.slices := ⟨c - P.slices, by omega⟩
    obtain ⟨i, hi⟩ := hc
    have hcomp := h.before e i hi
    rcases Nat.eq_or_lt_of_le (Nat.le_of_add_le_add_right hle) with rfl | hlt'
    · exact hcomp
    · exact ih e (by omega) hcomp.nonempty hlt' (by rw [hmod, Nat.add_mod_right])

/-- A slot has one clock at a time. -/
theorem slot_inj (h : Arrived P m fs) {c d : ℕ} (hc : (m.arrived c).Nonempty)
    (hc' : m.arrived (c + P.slices) = ∅) (hd : (m.arrived d).Nonempty)
    (hd' : m.arrived (d + P.slices) = ∅) (hmod : d % P.slices = c % P.slices) : d = c := by
  have key : ∀ {a b : ℕ}, (m.arrived b).Nonempty → m.arrived (a + P.slices) = ∅ →
      a % P.slices = b % P.slices → ¬ a < b := by
    intro a b hb ha hab hlt
    have hle := add_slices_le hlt hab
    rcases Nat.eq_or_lt_of_le hle with heq | hlt'
    · rw [heq] at ha
      exact Finset.not_nonempty_empty (ha ▸ hb)
    · have hcomp := h.complete_before hb hlt' (by rw [Nat.add_mod_right, hab])
      exact Finset.not_nonempty_empty (ha ▸ hcomp.nonempty)
  have h1 := key hc hd' hmod
  have h2 := key hd hc' hmod.symm
  omega

/-- A deliverer finds the counter of its slot in step with the inputs. -/
theorem counted_of_delivering (h : Arrived P m (f ::ₘ others)) {c : ℕ}
    (hc : f.delivering = some c) : Counted P m (f ::ₘ others) c :=
  have hcur := h.current f (Multiset.mem_cons_self _ _) c hc
  h.counted c hcur.1 hcur.2

/-- A step that leaves slots and counters alone. -/
theorem move (h : Arrived P m (f ::ₘ others)) (hclock : m'.clock = m.clock)
    (hcount : m'.count = m.count) (harr : m'.arrived = m.arrived)
    (hn : m.nextClock ≤ m'.nextClock) (hcomp : ∀ c < m'.nextClock, m.Complete P c)
    (hhand : ∀ c ∈ m'.enqueued, m.Complete P c) (hf : f'.Found P m')
    (hd : ∀ c, f'.delivering = some c → f.delivering = some c)
    (hc : ∀ c, f'.counting c = f.counting c) (hr : ∀ c, f'.resetting c = f.resetting c) :
    Arrived P m' (f' ::ₘ others) where
  inputs := by
    rw [harr]
    exact h.inputs
  before c i hi j hj := by
    rw [harr]
    exact h.before c i (harr ▸ hi) j hj
  slot c i hi hi' := by
    rw [Memory.signal, hclock]
    exact h.slot c i (harr ▸ hi) (harr ▸ hi')
  latest := by
    rw [hclock, harr]
    exact h.latest
  complete c hlt i hi := by
    rw [harr]
    exact hcomp c hlt i hi
  handed c hc i hi := by
    rw [harr]
    exact hhand c hc i hi
  found g hg := by
    rcases Multiset.mem_cons.mp hg with rfl | hg
    · exact hf
    · have hold := h.found g (Multiset.mem_cons_of_mem hg)
      cases g with
      | scan clk ii j =>
        simp only [Frame.Found, Memory.Complete, harr] at hold ⊢
        exact ⟨hold.1.trans hn, hold.2⟩
      | cas clk res =>
        simp only [Frame.Found, Memory.Complete, harr] at hold ⊢
        exact ⟨hold.1.trans hn, hold.2⟩
      | _ =>
        simp only [Frame.Found, Memory.Complete, harr] at hold ⊢
        try exact hold
  current g hg c hgc := by
    rw [harr]
    rcases Multiset.mem_cons.mp hg with rfl | hg
    · exact h.current f (Multiset.mem_cons_self _ _) c (hd c hgc)
    · exact h.current g (Multiset.mem_cons_of_mem hg) c hgc
  untouched := by
    rw [harr, hcount]
    exact h.untouched
  counted c hne hemp := by
    rw [harr] at hne hemp
    have hold := h.counted c hne hemp
    have hu : uncounted P m' others c = uncounted P m others c := by rw [uncounted, uncounted, harr]
    rw [Counted, uncounted_cons, resets_cons] at hold ⊢
    rwa [hu, hc, hr, hcount]

/-- A step of a deliverer that sets the counter of its slot. -/
theorem setCount (h : Arrived P m (f ::ₘ others)) {c : ℕ} (hc : f.delivering = some c) (k : ℤ)
    (f' : Frame) (hf : f'.Found P m) (hd : ∀ d, f'.delivering = some d → d = c)
    (hcr : ∀ d ≠ c, f'.counting d = f.counting d ∧ f'.resetting d = f.resetting d)
    (hcounted : Counted P (m.setCount P c k) (f' ::ₘ others) c) :
    Arrived P (m.setCount P c k) (f' ::ₘ others) where
  inputs := h.inputs
  before := h.before
  slot := h.slot
  latest := h.latest
  complete := h.complete
  handed := h.handed
  found g hg := by
    rcases Multiset.mem_cons.mp hg with rfl | hg
    · cases g <;> exact hf
    · have hold := h.found g (Multiset.mem_cons_of_mem hg)
      cases g <;> exact hold
  current g hg d hgd := by
    rcases Multiset.mem_cons.mp hg with rfl | hg
    · rw [hd d hgd]
      exact h.current f (Multiset.mem_cons_self _ _) c hc
    · exact h.current g (Multiset.mem_cons_of_mem hg) d hgd
  untouched d hlt hemp := by
    change m.arrived d = ∅ at hemp
    obtain ⟨hne, -⟩ := h.current f (Multiset.mem_cons_self _ _) c hc
    have hmod : d ≠ c % P.slices := by
      rintro rfl
      have hdc : c % P.slices ≠ c := by
        intro he
        rw [he] at hemp
        exact Finset.not_nonempty_empty (hemp ▸ hne)
      have hcomp := h.complete_before hne (lt_of_le_of_ne (Nat.mod_le _ _) hdc) (Nat.mod_mod _ _)
      exact Finset.not_nonempty_empty (hemp ▸ hcomp.nonempty)
    rw [Memory.setCount]
    exact (Function.update_of_ne hmod ..).trans (h.untouched d hlt hemp)
  counted d hne hemp := by
    by_cases hdc : d = c
    · rw [hdc]
      exact hcounted
    · obtain ⟨hne', hemp'⟩ := h.current f (Multiset.mem_cons_self _ _) c hc
      have hmod : d % P.slices ≠ c % P.slices := fun he =>
        hdc (h.slot_inj hne' hemp' hne hemp he)
      have hold := h.counted d hne hemp
      obtain ⟨h1, h2⟩ := hcr d hdc
      have hcount : (m.setCount P c k).count (d % P.slices) = m.count (d % P.slices) :=
        Function.update_of_ne hmod ..
      have hu : uncounted P (m.setCount P c k) others d = uncounted P m others d := rfl
      rw [Counted, uncounted_cons, resets_cons] at hold ⊢
      rwa [hu, h1, h2, hcount]

/-- The clock that is delivered now has not arrived one window later. -/
theorem not_arrived_next (h : Arrived P m fs) {i c : ℕ} (hi : i < P.inputs)
    (hc : i ∉ m.arrived c) : m.arrived (c + P.slices) = ∅ := by
  by_contra hne
  obtain ⟨j, hj⟩ := Finset.nonempty_iff_ne_empty.mpr hne
  exact hc (h.before c j hj i hi)

/-- A signal that is delivered replaces one of an earlier clock. -/
theorem signal_lt (h : Arrived P m fs) {i c : ℕ} (hi : i < P.inputs) (hc : i ∉ m.arrived c) :
    ¬ (c : ℤ) ≤ m.signal P i c := by
  intro hle
  rcases h.latest i (c % P.slices) with hneg | ⟨d, hd, hmem, hmod⟩
  · rw [Memory.signal, hneg] at hle
    omega
  · rw [Memory.signal, hd] at hle
    have hne : c ≠ d := by
      rintro rfl
      exact hc hmem
    exact hc (h.complete_before ⟨i, hmem⟩ (by omega) hmod.symm i hi)

/-- The counter when the first input of a clock arrives. -/
theorem counted_first (h : Arrived P m (.store i c ::ₘ others))
    (hg : Delivers P (.store i c) m (.store i c ::ₘ others)) (hemp : m.arrived c = ∅) :
    m.count (c % P.slices) = P.inputs := by
  obtain ⟨hi, hc, hwin⟩ := hg
  by_cases hlt : c < P.slices
  · rw [Nat.mod_eq_of_lt hlt]
    exact h.untouched c hlt hemp
  · obtain ⟨d, rfl⟩ : ∃ d, c = d + P.slices := ⟨c - P.slices, by omega⟩
    obtain ⟨henq, hnone⟩ := hwin.resolve_left hlt
    rw [Nat.add_sub_cancel] at henq hnone
    have hcomp := h.handed d henq
    have hzero : uncounted P m (.store i (d + P.slices) ::ₘ others) d = 0 := by
      have hcard : P.inputs ≤ (m.arrived d).card := by
        have hsub : Finset.range P.inputs ⊆ m.arrived d := fun j hj =>
          hcomp j (Finset.mem_range.mp hj)
        simpa only [Finset.card_range] using Finset.card_le_card hsub
      have hcount : (Frame.store i (d + P.slices) ::ₘ others).countP
          (fun f => f.counting d) = 0 := by
        refine Multiset.countP_eq_zero.mpr fun g hgm hcnt => ?_
        cases g with
        | countCheck e | countDown e => exact hnone _ hgm (congrArg some (of_decide_eq_true hcnt))
        | _ => cases hcnt
      rw [uncounted, hcount]
      omega
    have hres : resets (.store i (d + P.slices) ::ₘ others) d = 0 := by
      refine Multiset.countP_eq_zero.mpr fun g hgm hcnt => ?_
      cases g with
      | countReset e => exact hnone _ hgm (congrArg some (of_decide_eq_true hcnt))
      | _ => cases hcnt
    rw [Nat.add_mod_right]
    rcases h.counted d hcomp.nonempty hemp with ⟨h1, -⟩ | ⟨-, h2, -⟩ | ⟨-, -, h3⟩
    · omega
    · omega
    · exact h3

/-- A signal that arrives is to be counted. -/
theorem uncounted_store (h : Arrived P m (.store i c ::ₘ others))
    (hg : Delivers P (.store i c) m (.store i c ::ₘ others)) :
    uncounted P (m.setSignal P i c) (.countCheck c ::ₘ others) c =
        uncounted P m (.store i c ::ₘ others) c ∧
      0 < uncounted P m (.store i c ::ₘ others) c := by
  obtain ⟨hi, hc, -⟩ := hg
  have hcard : ((m.setSignal P i c).arrived c).card = (m.arrived c).card + 1 := by
    rw [Memory.setSignal]
    change (Function.update m.arrived c _ c).card = _
    rw [Function.update_self, Finset.card_insert_of_notMem hc]
  have hle : (m.arrived c).card + 1 ≤ P.inputs := by
    have hsub : insert i (m.arrived c) ⊆ Finset.range P.inputs := by
      intro j hj
      rcases Finset.mem_insert.mp hj with rfl | hj
      · exact Finset.mem_range.mpr hi
      · exact Finset.mem_range.mpr (h.inputs c j hj)
    have hcle := Finset.card_le_card hsub
    rwa [Finset.card_insert_of_notMem hc, Finset.card_range] at hcle
  constructor
  · rw [uncounted_cons, uncounted_cons, uncounted, uncounted, hcard]
    simp only [Frame.counting, decide_true, if_true, Bool.false_eq_true, if_false]
    omega
  · rw [uncounted]
    omega

/-- The arrival of a signal at an input, at a counter that is in step. -/
theorem counted_store (h : Arrived P m (.store i c ::ₘ others))
    (hg : Delivers P (.store i c) m (.store i c ::ₘ others)) :
    Counted P (m.setSignal P i c) (.countCheck c ::ₘ others) c := by
  have hfirst := h.counted_first hg
  obtain ⟨hu, hpos⟩ := h.uncounted_store hg
  obtain ⟨hi, hc, -⟩ := hg
  have hr : resets (.countCheck c ::ₘ others) c = resets (.store i c ::ₘ others) c := by
    rw [resets_cons, resets_cons]
    rfl
  refine Or.inl ⟨by rwa [hu], ?_, ?_⟩
  · rw [hr]
    rcases (m.arrived c).eq_empty_or_nonempty with hemp | hne
    · refine Multiset.countP_eq_zero.mpr fun g hgm hcnt => ?_
      cases g with
      | countReset e =>
        have hcur := (h.current _ hgm e rfl).1
        rw [of_decide_eq_true hcnt, hemp] at hcur
        exact Finset.not_nonempty_empty hcur
      | _ => cases hcnt
    · rcases h.counted c hne (h.not_arrived_next hi hc) with ⟨-, h2, -⟩ | ⟨h1, -⟩ | ⟨h1, -⟩
      · exact h2
      · omega
      · omega
  · rw [hu]
    change m.count (c % P.slices) = _
    rcases (m.arrived c).eq_empty_or_nonempty with hemp | hne
    · have hnone : (Frame.store i c ::ₘ others).countP (fun f => f.counting c) = 0 := by
        refine Multiset.countP_eq_zero.mpr fun g hgm hcnt => ?_
        cases g with
        | countCheck e | countDown e =>
          have hcur := (h.current _ hgm e rfl).1
          rw [of_decide_eq_true hcnt, hemp] at hcur
          exact Finset.not_nonempty_empty hcur
        | _ => cases hcnt
      rw [hfirst hemp, uncounted, hnone, hemp, Finset.card_empty]
      rfl
    · rcases h.counted c hne (h.not_arrived_next hi hc) with ⟨-, -, h3⟩ | ⟨h1, -⟩ | ⟨h1, -⟩
      · exact h3
      · omega
      · omega

theorem mem_arrived_setSignal {i c j d : ℕ} :
    j ∈ (m.setSignal P i c).arrived d ↔ j ∈ m.arrived d ∨ (j = i ∧ d = c) := by
  rw [Memory.setSignal]
  change j ∈ Function.update m.arrived c (insert i (m.arrived c)) d ↔ _
  by_cases hd : d = c
  · rw [hd, Function.update_self, Finset.mem_insert]
    tauto
  · rw [Function.update_of_ne hd]
    tauto

theorem signal_setSignal_self (i c : ℕ) : (m.setSignal P i c).signal P i c = c := by
  rw [Memory.signal, Memory.setSignal]
  change Function.update m.clock i _ i (c % P.slices) = _
  rw [Function.update_self, Function.update_self]

theorem clock_setSignal_of_ne {i c j s : ℕ} (h : j ≠ i ∨ s ≠ c % P.slices) :
    (m.setSignal P i c).clock j s = m.clock j s := by
  rw [Memory.setSignal]
  change Function.update m.clock i _ j s = _
  by_cases hj : j = i
  · rw [hj, Function.update_self, Function.update_of_ne (h.resolve_left (not_not_intro hj))]
  · rw [Function.update_of_ne hj]

/-- The store of a signal. -/
theorem store (h : Arrived P m (.store i c ::ₘ others))
    (hg : Delivers P (.store i c) m (.store i c ::ₘ others)) :
    Arrived P (m.setSignal P i c) (.countCheck c ::ₘ others) := by
  have hcounted := h.counted_store hg
  obtain ⟨hi, hc, hwin⟩ := hg
  have hnext := h.not_arrived_next hi hc
  have hpos := P.slices_pos
  have hmono : ∀ d, m.Complete P d → (m.setSignal P i c).Complete P d := fun d hd j hj =>
    mem_arrived_setSignal.mpr (Or.inl (hd j hj))
  refine ⟨fun d j hj => ?_, fun d j hj => ?_, fun d j hj hj' => ?_, fun j s => ?_,
    fun d hd => hmono d (h.complete d hd), fun d hd => hmono d (h.handed d hd), fun g hgm => ?_,
    fun g hgm d hgd => ?_, fun d hlt hemp => ?_, fun d hne hemp => ?_⟩
  · rcases mem_arrived_setSignal.mp hj with hj | ⟨rfl, -⟩
    · exact h.inputs d j hj
    · exact hi
  · rcases mem_arrived_setSignal.mp hj with hj | ⟨-, hd⟩
    · exact hmono d (h.before d j hj)
    · subst hd
      obtain ⟨henq, -⟩ := hwin.resolve_left (by omega)
      rw [Nat.add_sub_cancel] at henq
      exact hmono d (h.handed d henq)
  · by_cases hji : j = i
    · subst hji
      by_cases hdc : d = c
      · rw [hdc]
        exact signal_setSignal_self ..
      · have hjd : j ∈ m.arrived d :=
          (mem_arrived_setSignal.mp hj).resolve_right fun hx => hdc hx.2
        have hjd' : j ∉ m.arrived (d + P.slices) := fun hx =>
          hj' (mem_arrived_setSignal.mpr (Or.inl hx))
        have hwnd : d + P.slices ≠ c := fun hx =>
          hj' (mem_arrived_setSignal.mpr (Or.inr ⟨rfl, hx⟩))
        have hmod : d % P.slices ≠ c % P.slices := by
          intro hmod
          rcases Nat.lt_or_gt_of_ne hdc with hlt | hlt
          · have hle := add_slices_le hlt hmod
            have hlt' : d + P.slices < c := by omega
            have hle' := add_slices_le hlt' (by rw [Nat.add_mod_right, hmod])
            obtain ⟨henq, -⟩ := hwin.resolve_left (by omega)
            have hcomp := h.handed _ henq
            rcases Nat.eq_or_lt_of_le (Nat.le_sub_of_add_le hle') with heq | hlt''
            · rw [heq] at hjd'
              exact hjd' (hcomp j hi)
            · refine hjd' (h.complete_before hcomp.nonempty hlt'' ?_ j hi)
              rw [Nat.add_mod_right, hmod, ← Nat.mod_eq_sub_mod (by omega)]
          · exact hc (h.complete_before ⟨j, hjd⟩ hlt hmod.symm j hi)
        rw [Memory.signal, clock_setSignal_of_ne (Or.inr hmod)]
        exact h.slot d j hjd hjd'
    · have hjd : j ∈ m.arrived d := (mem_arrived_setSignal.mp hj).resolve_right fun hx => hji hx.1
      rw [Memory.signal, clock_setSignal_of_ne (Or.inl hji)]
      exact h.slot d j hjd fun hx => hj' (mem_arrived_setSignal.mpr (Or.inl hx))
  · by_cases hjs : j = i ∧ s = c % P.slices
    · obtain ⟨rfl, rfl⟩ := hjs
      exact Or.inr ⟨c, signal_setSignal_self .., mem_arrived_setSignal.mpr (Or.inr ⟨rfl, rfl⟩), rfl⟩
    · rw [clock_setSignal_of_ne (by tauto)]
      rcases h.latest j s with hneg | ⟨d, hd, hmem, hmod⟩
      · exact Or.inl hneg
      · exact Or.inr ⟨d, hd, mem_arrived_setSignal.mpr (Or.inl hmem), hmod⟩
  · rcases Multiset.mem_cons.mp hgm with rfl | hgm
    · exact trivial
    · have hold := h.found g (Multiset.mem_cons_of_mem hgm)
      cases g with
      | countReset e | spawn e => exact hmono e hold
      | check e j => exact ⟨hmono e hold.1, hold.2⟩
      | scan clk ii j =>
        obtain ⟨h1, h2, h3, h4, h5, h6⟩ := hold
        exact ⟨h1, h2, h3, h4, fun e hle hlt => hmono e (h5 e hle hlt), fun k hk =>
          mem_arrived_setSignal.mpr (Or.inl (h6 k hk))⟩
      | cas clk res =>
        exact ⟨hold.1, hold.2.1, fun e hle hlt => hmono e (hold.2.2 e hle hlt)⟩
      | wait clk res => exact ⟨hold.1, fun e hle hlt => hmono e (hold.2 e hle hlt)⟩
      | enqueue clk res ii => exact ⟨hold.1, fun e hle hlt => hmono e (hold.2 e hle hlt)⟩
      | _ => exact hold
  · have hkeep : ∀ e, m.arrived e = ∅ → e ≠ c → (m.setSignal P i c).arrived e = ∅ := by
      intro e he hne
      refine Finset.eq_empty_of_forall_notMem fun j hj => ?_
      rcases mem_arrived_setSignal.mp hj with hj | ⟨-, hx⟩
      · rw [he] at hj
        exact Finset.notMem_empty j hj
      · exact hne hx
    rcases Multiset.mem_cons.mp hgm with rfl | hgm
    · cases hgd
      exact ⟨⟨i, mem_arrived_setSignal.mpr (Or.inr ⟨rfl, rfl⟩)⟩, hkeep _ hnext (by omega)⟩
    · have hmem : g ∈ Frame.store i c ::ₘ others := Multiset.mem_cons_of_mem hgm
      obtain ⟨⟨j, hj⟩, hemp⟩ := h.current g hmem d hgd
      refine ⟨⟨j, mem_arrived_setSignal.mpr (Or.inl hj)⟩, hkeep _ hemp fun hdc => ?_⟩
      obtain ⟨-, hnone⟩ := hwin.resolve_left (by omega)
      exact hnone g hmem (by rw [hgd, ← hdc, Nat.add_sub_cancel])
  · refine h.untouched d hlt (Finset.eq_empty_of_forall_notMem fun j hj => ?_)
    have hmem : j ∈ (m.setSignal P i c).arrived d := mem_arrived_setSignal.mpr (Or.inl hj)
    rw [hemp] at hmem
    exact Finset.notMem_empty j hmem
  · by_cases hdc : d = c
    · rw [hdc]
      exact hcounted
    · have harr : (m.setSignal P i c).arrived d = m.arrived d := Function.update_of_ne hdc ..
      have hold := h.counted d (harr ▸ hne) (Finset.eq_empty_of_forall_notMem fun j hj => by
        have hmem : j ∈ (m.setSignal P i c).arrived (d + P.slices) :=
          mem_arrived_setSignal.mpr (Or.inl hj)
        rw [hemp] at hmem
        exact Finset.notMem_empty j hmem)
      have hu : uncounted P (m.setSignal P i c) others d = uncounted P m others d := by
        rw [uncounted, uncounted, harr]
      have hcnt : (Frame.countCheck c).counting d = false := decide_eq_false fun he => hdc he.symm
      rw [Counted, uncounted_cons, resets_cons] at hold ⊢
      rw [hu, hcnt]
      exact hold

/-- A signal at its clock has arrived. -/
theorem arrived_of_signal (h : Arrived P m fs) {j c : ℕ} (hs : m.signal P j c = c) :
    j ∈ m.arrived c := by
  rcases h.latest j (c % P.slices) with hneg | ⟨d, hd, hmem, -⟩
  · rw [Memory.signal, hneg] at hs
    omega
  · rw [Memory.signal, hd] at hs
    have hdc : d = c := by omega
    rwa [hdc] at hmem

/-- A deliverer finds its own clock at all inputs. -/
theorem signal_of_check {c j : ℕ} (h : Arrived P m (.check c j ::ₘ others)) :
    m.signal P j c = c := by
  obtain ⟨hcomp, hj⟩ := h.found _ (Multiset.mem_cons_self _ _)
  obtain ⟨-, hemp⟩ := h.current _ (Multiset.mem_cons_self _ _) c rfl
  exact h.slot c j (hcomp j hj) (hemp ▸ Finset.notMem_empty j)

/-- A step that leaves the memory alone. -/
theorem goes (h : Arrived P m (f ::ₘ others)) (hf : f'.Found P m)
    (hd : ∀ c, f'.delivering = some c → f.delivering = some c)
    (hc : ∀ c, f'.counting c = f.counting c) (hr : ∀ c, f'.resetting c = f.resetting c) :
    Arrived P m (f' ::ₘ others) :=
  h.move rfl rfl rfl (le_refl _) h.complete h.handed hf hd hc hr

theorem goes_afterScan {clk ii j : ℕ} (h : Arrived P m (.scan clk ii j ::ₘ others)) {res : ℕ}
    (hc : ∀ c, clk ≤ c → c < res → m.Complete P c) :
    Arrived P m (afterScan clk res ::ₘ others) := by
  have hle : clk ≤ m.nextClock := (h.found _ (Multiset.mem_cons_self _ _)).1
  rw [afterScan]
  split
  · exact h.goes ⟨hle, ‹_›, hc⟩ (fun _ he => (by cases he)) (fun _ => rfl) fun _ => rfl
  · exact h.goes trivial (fun _ he => (by cases he)) (fun _ => rfl) fun _ => rfl

/-- The counter of a deliverer that has to count down. -/
theorem count_of_counting {c : ℕ} (h : Arrived P m (f ::ₘ others)) (hd : f.delivering = some c)
    (hc : f.counting c = true) : m.count (c % P.slices) = uncounted P m others c + 1 ∧
      resets (f ::ₘ others) c = 0 := by
  have hcnt := h.counted_of_delivering hd
  have hu := uncounted_cons P m f others c
  rw [if_pos hc] at hu
  rcases hcnt with ⟨-, h2, h3⟩ | ⟨h1, -⟩ | ⟨h1, -⟩
  · rw [hu] at h3
    exact ⟨by omega, h2⟩
  · omega
  · omega

/-- Where a thread does not count a complete clock to zero, another one still counts. -/
theorem exists_counting {c : ℕ} (h : Arrived P m (.countDown c ::ₘ others))
    (hz : m.count (c % P.slices) - 1 ≠ 0) (hc : m.Complete P c) :
    ∃ g ∈ others, g.counting c = true := by
  obtain ⟨hcount, -⟩ := h.count_of_counting (c := c) rfl (decide_eq_true rfl)
  have hsub : Finset.range P.inputs ⊆ m.arrived c := fun i hi => hc i (Finset.mem_range.mp hi)
  have hcard := Finset.card_le_card hsub
  rw [Finset.card_range] at hcard
  rw [uncounted] at hcount
  exact Multiset.countP_pos.mp (by omega)

theorem exec_countDown {c : ℕ} (h : Arrived P m (.countDown c ::ₘ others)) :
    Arrived P (m.setCount P c (m.count (c % P.slices) - 1))
      ((if m.count (c % P.slices) - 1 = 0 then .countReset c else .upstream) ::ₘ others) := by
  obtain ⟨hcount, hres⟩ := h.count_of_counting (c := c) rfl (decide_eq_true rfl)
  rw [resets_cons] at hres
  have hself : (m.setCount P c (m.count (c % P.slices) - 1)).count (c % P.slices) =
      m.count (c % P.slices) - 1 := Function.update_self ..
  have hu : uncounted P (m.setCount P c (m.count (c % P.slices) - 1)) others c =
      uncounted P m others c := rfl
  split
  · next hz =>
    have hzero : uncounted P m others c = 0 := by omega
    refine h.setCount rfl _ _ (fun i hi => ?_) (fun d hd => (Option.some.inj hd).symm)
      (fun d hd => ⟨(decide_eq_false fun he => hd he.symm).symm,
        decide_eq_false fun he => hd he.symm⟩) (Or.inr (Or.inl ⟨?_, ?_, ?_⟩))
    · have hsub : m.arrived c ⊆ Finset.range P.inputs := fun j hj =>
        Finset.mem_range.mpr (h.inputs c j hj)
      have hcard : (Finset.range P.inputs).card ≤ (m.arrived c).card := by
        rw [Finset.card_range]
        rw [uncounted] at hzero
        omega
      rw [Finset.eq_of_subset_of_card_le hsub hcard]
      exact Finset.mem_range.mpr hi
    · rw [uncounted_cons, hu, hzero]
      rfl
    · have hreset : (Frame.countReset c).resetting c = true := decide_eq_true rfl
      rw [resets_cons, if_pos hreset]
      omega
    · rw [hself, hz]
  · next hz =>
    refine h.setCount rfl _ _ trivial (fun d hd => (by cases hd))
      (fun d hd => ⟨(decide_eq_false fun he => hd he.symm).symm, rfl⟩) (Or.inl ⟨?_, ?_, ?_⟩)
    · rw [uncounted_cons, hu]
      omega
    · rw [resets_cons]
      exact hres
    · rw [hself, uncounted_cons, hu, hcount]
      exact add_sub_cancel_right ..

theorem exec_countReset {c : ℕ} (h : Arrived P m (.countReset c ::ₘ others)) :
    Arrived P (m.setCount P c P.inputs) (.check c 0 ::ₘ others) := by
  have hcnt := h.counted_of_delivering (c := c) rfl
  have hr : resets (.countReset c ::ₘ others) c = resets others c + 1 := by
    have hreset : (Frame.countReset c).resetting c = true := decide_eq_true rfl
    rw [resets_cons, if_pos hreset]
  have hu : uncounted P (m.setCount P c P.inputs) (.check c 0 ::ₘ others) c =
      uncounted P m (.countReset c ::ₘ others) c := by
    rw [uncounted_cons, uncounted_cons]
    rfl
  have hself : (m.setCount P c P.inputs).count (c % P.slices) = P.inputs :=
    Function.update_self ..
  refine h.setCount rfl _ _ ⟨h.found _ (Multiset.mem_cons_self _ _), P.inputs_pos⟩
    (fun d hd => (Option.some.inj hd).symm)
    (fun d hd => ⟨rfl, (decide_eq_false fun he => hd he.symm).symm⟩) (Or.inr (Or.inr ?_))
  rcases hcnt with ⟨-, h2, -⟩ | ⟨h1, h2, -⟩ | ⟨-, h2, -⟩
  · omega
  · refine ⟨by rw [hu, h1], ?_, hself⟩
    rw [resets_cons]
    change resets others c + 0 = 0
    omega
  · omega

theorem exec_scan {clk ii j : ℕ} (h : Arrived P m (.scan clk ii j ::ₘ others))
    (choice : Option (ℕ × ℕ)) :
    Arrived P (exec P choice m (.scan clk ii j)).1
      ((exec P choice m (.scan clk ii j)).2 ::ₘ others) := by
  obtain ⟨h1, h2, h3, h4, h5, h6⟩ := h.found _ (Multiset.mem_cons_self _ _)
  simp only [exec]
  split
  · next hs =>
    have hj := h.arrived_of_signal hs
    have hlow : ∀ i < j + 1, i ∈ m.arrived ii := fun i hi => by
      rcases Nat.lt_succ_iff_lt_or_eq.mp hi with hi | rfl
      · exact h6 i hi
      · exact hj
    split
    · next hn =>
      exact h.goes ⟨h1, h2, h3, hn, h5, hlow⟩ (fun _ he => (by cases he)) (fun _ => rfl)
        fun _ => rfl
    · next hn =>
      have hcomp : ∀ c, clk ≤ c → c < ii + 1 → m.Complete P c := fun c hc hlt => by
        rcases Nat.lt_succ_iff_lt_or_eq.mp hlt with hlt | rfl
        · exact h5 c hc hlt
        · exact fun i hi => hlow i (by omega)
      split
      · next hw =>
        exact h.goes ⟨h1, by omega, hw, P.inputs_pos, hcomp, fun i hi => by omega⟩
          (fun _ he => (by cases he)) (fun _ => rfl) fun _ => rfl
      · exact h.goes_afterScan hcomp
  · exact h.goes_afterScan h5

theorem exec (h : Arrived P m (f ::ₘ others)) (hg : Delivers P f m (f ::ₘ others))
    (choice : Option (ℕ × ℕ)) :
    Arrived P (exec P choice m f).1 ((exec P choice m f).2 ::ₘ others) := by
  have hf := h.found f (Multiset.mem_cons_self _ _)
  cases f with
  | upstream =>
    simp only [Dataflow.exec]
    split <;> exact h.goes trivial (fun _ he => (by cases he)) (fun _ => rfl) fun _ => rfl
  | receive i c =>
    obtain ⟨hi, hc, -⟩ := hg
    simp only [Dataflow.exec, if_neg (h.signal_lt hi hc)]
    exact h.goes trivial (fun _ he => (by cases he)) (fun _ => rfl) fun _ => rfl
  | store i c => exact h.store hg
  | countCheck c =>
    have hne : m.count (c % P.slices) ≠ 0 := by
      have hcount := (h.count_of_counting (c := c) rfl (decide_eq_true rfl)).1
      omega
    simp only [Dataflow.exec, if_neg hne]
    exact h.goes trivial (fun _ he => he) (fun _ => rfl) fun _ => rfl
  | countDown c => exact h.exec_countDown
  | countReset c => exact h.exec_countReset
  | check c j =>
    simp only [Dataflow.exec, if_pos h.signal_of_check]
    split
    · exact h.goes ⟨hf.1, ‹_›⟩ (fun _ he => he) (fun _ => rfl) fun _ => rfl
    · split
      · exact h.goes trivial (fun _ he => (by cases he)) (fun _ => rfl) fun _ => rfl
      · exact h.goes hf.1 (fun _ he => (by cases he)) (fun _ => rfl) fun _ => rfl
  | spawn c =>
    refine h.move rfl rfl rfl (le_refl _) h.complete (fun d hd => ?_) trivial
      (fun _ he => (by cases he)) (fun _ => rfl) fun _ => rfl
    rcases List.mem_append.mp hd with hd | hd
    · exact h.handed d hd
    · rw [List.mem_singleton.mp hd]
      exact hf
  | loadNext =>
    exact h.goes ⟨le_refl _, le_refl _, Nat.lt_add_of_pos_right P.slices_pos, P.inputs_pos,
      fun c h1 h2 => by omega, fun i hi => by omega⟩ (fun _ he => (by cases he)) (fun _ => rfl)
      fun _ => rfl
  | scan clk ii j => exact h.exec_scan choice
  | cas clk res =>
    obtain ⟨-, hlt, hcomp⟩ := hf
    simp only [Dataflow.exec]
    split
    · next hn =>
      refine h.move rfl rfl rfl (by change m.nextClock ≤ res; omega) (fun c hc => ?_) h.handed
        ⟨hlt, hcomp⟩ (fun _ he => (by cases he)) (fun _ => rfl) fun _ => rfl
      rcases Nat.lt_or_ge c clk with hlt | hle
      · exact h.complete c (hn ▸ hlt)
      · exact hcomp c hle hc
    · exact h.goes trivial (fun _ he => (by cases he)) (fun _ => rfl) fun _ => rfl
  | wait clk res =>
    simp only [Dataflow.exec]
    split
    · exact h
    · exact h.goes ⟨⟨le_refl _, hf.1⟩, hf.2⟩ (fun _ he => (by cases he)) (fun _ => rfl) fun _ => rfl
  | enqueue clk res ii =>
    obtain ⟨⟨h1, h2⟩, hcomp⟩ := hf
    have hhand : ∀ d ∈ m.enqueued ++ [ii], m.Complete P d := fun d hd => by
      rcases List.mem_append.mp hd with hd | hd
      · exact h.handed d hd
      · rw [List.mem_singleton.mp hd]
        exact hcomp ii h1 h2
    simp only [Dataflow.exec]
    split
    · exact h.move rfl rfl rfl (le_refl _) h.complete hhand ⟨⟨by omega, ‹_›⟩, hcomp⟩
        (fun _ he => (by cases he)) (fun _ => rfl) fun _ => rfl
    · exact h.move rfl rfl rfl (le_refl _) h.complete hhand trivial (fun _ he => (by cases he))
        (fun _ => rfl) fun _ => rfl
  | storeQueued clk res =>
    exact h.move rfl rfl rfl (le_refl _) h.complete h.handed trivial (fun _ he => (by cases he))
      (fun _ => rfl) fun _ => rfl
  | thrown => exact absurd hf not_false

end Arrived

theorem arrived_init (P : Shape) {fs : Multiset Frame} (hidle : ∀ f ∈ fs, f = .upstream) :
    Arrived P (Memory.init P) fs := by
  refine ⟨?_, ?_, ?_, ?_, ?_, ?_, ?_, ?_, ?_, ?_⟩
  · exact fun c i hi => absurd hi (Finset.notMem_empty i)
  · exact fun c i hi => absurd hi (Finset.notMem_empty i)
  · exact fun c i hi => absurd hi (Finset.notMem_empty i)
  · exact fun i s => Or.inl rfl
  · exact fun c hc => absurd hc (Nat.not_lt_zero c)
  · exact fun c hc => absurd hc List.not_mem_nil
  · intro f hf
    rw [hidle f hf]
    trivial
  · intro f hf c hc
    rw [hidle f hf] at hc
    cases hc
  · exact fun c _ _ => rfl
  · exact fun c hc => absurd hc Finset.not_nonempty_empty

end Embb.Dataflow
