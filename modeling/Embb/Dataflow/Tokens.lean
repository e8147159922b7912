import Embb.Dataflow.Network

/-!
# Every clock reaches every sink once

A clock is handed to the scheduler once at every node, its task sends to every target once, and
every input counts it once. The main thread uses a slot again when all sinks have run the clock
before, and so all nodes have, and when no task of the slice is left.
-/

namespace Embb.Dataflow

open Threads

/-- The signal that a delivery has not stored yet. -/
def Frame.undelivered : Frame → Option (ℕ × ℕ)
  | .receive i c | .store i c => some (i, c)
  | _ => none

/-- The call at node `v` is for a signal of clock `c` from the sender. -/
def Frame.Carries (N : Network) (s : Sender) (v c : ℕ) : Frame → Prop
  | .receive i d | .store i d => d = c ∧ (v, i) ∈ N.targets s
  | .countCheck d | .countDown d | .countReset d | .check d _ | .spawn d => d = c
  | _ => True

namespace NetFrame

/-- Where the thread is in node `v`. -/
def calling (v : ℕ) : NetFrame → Frame
  | .send _ _ _ (some (w, f)) => if w = v then f else .upstream
  | _ => .upstream

/-- The clock that the thread works for. -/
def clock : NetFrame → Option ℕ
  | .send _ c _ _ | .sinkRun _ c | .endTask c => some c
  | _ => none

/-- The thread runs node `v` for clock `c`. -/
def runs (v c : ℕ) : NetFrame → Bool
  | .send (.node w) d _ _ | .sinkRun w d => w = v ∧ d = c
  | _ => false

/-- The thread is in a task of slice `s`. -/
def works (N : Network) (s : ℕ) : NetFrame → Bool
  | .send (.node _) c _ _ | .sinkRun _ c | .endTask c => c % N.slices = s
  | _ => false

/-- The frame is one of the main thread. -/
def isMain : NetFrame → Bool
  | .send (.node _) _ _ _ | .sinkRun _ _ | .endTask _ | .idle | .sinkThrown => false
  | _ => true

/-- The thread waits for the others: an idle worker, or the main thread between two clocks. -/
def waits : NetFrame → Bool
  | .waitSinks _ | .waitSlice _ | .finalSinks _ _ | .finalSlice _ _ | .destroy _ | .done | .idle =>
    true
  | _ => false

end NetFrame

/-- Whether a call still has to deliver clock `c` to input `i` of node `w`. -/
def owesCall (w i c : ℕ) : Option (ℕ × Frame) → ℕ
  | some (v, f) => if v = w ∧ f.undelivered = some (i, c) then 1 else 0
  | none => 0

/-- How often the thread is going to deliver clock `c` to input `i` of node `w`. -/
def NetFrame.owes (w i c : ℕ) : NetFrame → ℕ
  | .send _ d rest call => if d = c then rest.count (w, i) + owesCall w i c call else 0
  | _ => 0

/-- All nodes have handed over the clock whose slot is used next. -/
def NetMemory.Left (N : Network) (m : NetMemory) (c : ℕ) : Prop :=
  ∀ d, d + N.slices = c → ∀ v < N.nodes, d ∈ (m.node v).enqueued

/-- What holds where a thread is. -/
def NetFrame.Formed (N : Network) (m : NetMemory) : NetFrame → Prop
  | .waitSinks c => m.emitted = c ∧ ∀ k < N.sources, m.started k = c
  | .waitSlice c | .setCounter c =>
    (m.emitted = c ∧ ∀ k < N.sources, m.started k = c) ∧ m.Left N c
  | .start c k =>
    m.emitted = c + 1 ∧ ∀ k' < N.sources, m.started k' = if k' < k then c + 1 else c
  | .finalSinks _ c | .finalSlice _ c =>
    m.emitted = c + 1 ∧ ∀ k < N.sources, m.started k = c + 1
  | .destroy _ | .done => ∀ k < N.sources, m.started k = m.emitted
  | .send s c rest call =>
    c < m.emitted ∧ (∀ x ∈ rest, x ∈ N.targets s) ∧
      (∀ v f, call = some (v, f) → v < N.nodes ∧ f.Carries N s v c) ∧
      ∀ k, s = .source k → m.emitted = c + 1 ∧ k < N.sources ∧
        ∀ k' < N.sources, m.started k' = if k' ≤ k then c + 1 else c
  | .sinkRun v c => c < m.emitted ∧ N.sink v = true ∧ v < N.nodes
  | .endTask c => c < m.emitted
  | .idle => True
  | .sinkThrown => False

def running (fs : Multiset NetFrame) (v c : ℕ) : ℕ := fs.countP fun f => f.runs v c

def working (N : Network) (fs : Multiset NetFrame) (s : ℕ) : ℕ := fs.countP fun f => f.works N s

def mains (fs : Multiset NetFrame) : ℕ := fs.countP fun f => f.isMain

def owed (fs : Multiset NetFrame) (w i c : ℕ) : ℕ := (fs.map fun f => f.owes w i c).sum

theorem running_cons (f : NetFrame) (fs : Multiset NetFrame) (v c : ℕ) :
    running (f ::ₘ fs) v c = running fs v c + if f.runs v c = true then 1 else 0 :=
  Multiset.countP_cons ..

/-- A thread that runs the same tasks before and after a step does not change how many do. -/
theorem running_goes {f f' : NetFrame} {fs : Multiset NetFrame} {v c : ℕ}
    (hruns : f'.runs v c = f.runs v c) : running (f' ::ₘ fs) v c = running (f ::ₘ fs) v c := by
  rw [running_cons, hruns, ← running_cons]

theorem working_cons (N : Network) (f : NetFrame) (fs : Multiset NetFrame) (s : ℕ) :
    working N (f ::ₘ fs) s = working N fs s + if f.works N s = true then 1 else 0 :=
  Multiset.countP_cons ..

theorem mains_cons (f : NetFrame) (fs : Multiset NetFrame) :
    mains (f ::ₘ fs) = mains fs + if f.isMain = true then 1 else 0 :=
  Multiset.countP_cons ..

theorem owed_cons (f : NetFrame) (fs : Multiset NetFrame) (w i c : ℕ) :
    owed (f ::ₘ fs) w i c = f.owes w i c + owed fs w i c :=
  sum_map_cons ..

/-- How often what is connected to the input has been set to send the clock. -/
def created (N : Network) (m : NetMemory) (w i c : ℕ) : ℕ :=
  match N.sender w i with
  | .source k => if c < m.started k then 1 else 0
  | .node v => (m.node v).enqueued.count c

/-- The tasks in the pool that are going to send the clock to the input. -/
def pooled (N : Network) (m : NetMemory) (w i c : ℕ) : ℕ :=
  match N.sender w i with
  | .source _ => 0
  | .node v => m.pool.count (v, c)

/-- No task and no thread is left that works for the clock. -/
def Gone (m : NetMemory) (fs : Multiset NetFrame) (c : ℕ) : Prop :=
  (∀ x ∈ m.pool, x.2 ≠ c) ∧ ∀ f ∈ fs, f.clock ≠ some c

/-- The sinks that have run the clock. -/
def reachedBy (m : NetMemory) (c : ℕ) : ℕ := m.reached.countP fun x => x.2 = c

/-- The invariant of a network. -/
structure NetWorks (N : Network) (m : NetMemory) (fs : Multiset NetFrame) : Prop where
  nodes : ∀ v, NodeWorks (N.shape v) (m.node v) (fs.map (NetFrame.calling v))
  formed : ∀ f ∈ fs, f.Formed N m
  main : mains fs = 1
  tasks : ∀ v c, m.pool.count (v, c) + running fs v c + m.reached.count (v, c) ≤
    (m.node v).enqueued.count c
  sinkTasks : ∀ v c, N.sink v = true →
    m.pool.count (v, c) + running fs v c + m.reached.count (v, c) = (m.node v).enqueued.count c
  sent : ∀ w < N.nodes, ∀ i < N.inputs w, ∀ c, created N m w i c =
    (if i ∈ (m.node w).arrived c then 1 else 0) + owed fs w i c + pooled N m w i c
  emitted : ∀ w c, ∀ i ∈ (m.node w).arrived c, w < N.nodes ∧ c < m.emitted
  groups : ∀ s, m.group s = (m.pool.countP fun x => x.2 % N.slices = s) + working N fs s
  left : ∀ c, c + N.slices < m.emitted → ∀ v < N.nodes, c ∈ (m.node v).enqueued
  gone : ∀ c, c + N.slices < m.emitted ∨ .setCounter (c + N.slices) ∈ fs → Gone m fs c
  counter : ∀ c < m.emitted, m.emitted ≤ c + N.slices →
    m.sinkCounter (c % N.slices) + reachedBy m c = N.sinkCount
  ran : ∀ x ∈ m.reached, N.sink x.1 = true ∧ x.1 < N.nodes

namespace NetWorks

variable {N : Network} {m : NetMemory} {f f' : NetFrame} {fs others : Multiset NetFrame}

theorem complete (h : NetWorks N m fs) {v c : ℕ} (hc : c ∈ (m.node v).enqueued) :
    (m.node v).Complete (N.shape v) c := (h.nodes v).arrived.handed c hc

/-- What has been handed over belongs to the network and has been emitted. -/
theorem lt_of_handed (h : NetWorks N m fs) {v c : ℕ} (hc : c ∈ (m.node v).enqueued) :
    v < N.nodes ∧ c < m.emitted := by
  obtain ⟨i, hi⟩ := (h.complete hc).nonempty
  exact h.emitted v c i hi

/-- A node has handed over the clocks for which it has a task or has run. -/
theorem handed_of_task (h : NetWorks N m fs) {v c : ℕ}
    (hc : 0 < m.pool.count (v, c) + running fs v c + m.reached.count (v, c)) :
    c ∈ (m.node v).enqueued :=
  List.count_pos_iff.mp (lt_of_lt_of_le hc (h.tasks v c))

/-- A sender is set to send a clock once. -/
theorem created_le_one (h : NetWorks N m fs) (w i c : ℕ) : created N m w i c ≤ 1 := by
  rw [created]
  split
  · split_ifs <;> omega
  · exact List.nodup_iff_count_le_one.mp (h.nodes _).nodup c

/-- The sender of an input that has a clock has been set to send it. -/
theorem handed_of_arrived (h : NetWorks N m fs) {w i c v : ℕ}
    (hs : (w, i) ∈ N.targets (.node v)) (ha : i ∈ (m.node w).arrived c) :
    c ∈ (m.node v).enqueued := by
  obtain ⟨hw, hi, hv⟩ := (N.mem_targets _ w i).mp hs
  have hsent := h.sent w hw i hi c
  simp only [if_pos ha, created, hv] at hsent
  exact List.count_pos_iff.mp (by omega)

/-- A clock that all sinks have run has been handed over by every node. -/
theorem handed_of_sinks (h : NetWorks N m fs) {c : ℕ}
    (hall : ∀ v < N.nodes, N.sink v = true → c ∈ (m.node v).enqueued) :
    ∀ v < N.nodes, c ∈ (m.node v).enqueued := by
  -- against the numbering: a node that is not a sink has a target, which comes later
  have key : ∀ n v, v + n = N.nodes → v < N.nodes → c ∈ (m.node v).enqueued := by
    intro n
    induction n using Nat.strong_induction_on with
    | _ n ih =>
      intro v hn hv
      cases hsink : N.sink v with
      | true => exact hall v hv hsink
      | false =>
        obtain ⟨⟨w, i⟩, hx⟩ := List.exists_mem_of_ne_nil _ (N.used v hv hsink)
        obtain ⟨hw, hi, hs⟩ := (N.mem_targets _ w i).mp hx
        have hlt := N.node_lt w hw i hi v hs
        have hmem := ih (N.nodes - w) (by omega) w (by omega) hw
        exact h.handed_of_arrived hx (h.complete hmem i hi)
  intro v hv
  exact key (N.nodes - v) v (by omega) hv

theorem reached_count_le (h : NetWorks N m fs) (v c : ℕ) : m.reached.count (v, c) ≤ 1 := by
  have htasks := h.tasks v c
  have hone := List.nodup_iff_count_le_one.mp (h.nodes v).nodup c
  omega

theorem nodup_sinks (N : Network) : N.sinks.Nodup := List.nodup_range.filter _

/-- No more sinks have run a clock than there are; if as many have, all have. -/
theorem reachedBy_le {reached : List (ℕ × ℕ)} {c : ℕ}
    (hran : ∀ x ∈ reached, N.sink x.1 = true ∧ x.1 < N.nodes)
    (hone : ∀ v, reached.count (v, c) ≤ 1) :
    (reached.countP fun x => x.2 = c) ≤ N.sinkCount ∧
      (N.sinkCount ≤ (reached.countP fun x => x.2 = c) →
        ∀ v < N.nodes, N.sink v = true → (v, c) ∈ reached) := by
  have hlen : ((reached.filter fun x => x.2 = c).map Prod.fst).length =
      reached.countP fun x => x.2 = c := by
    rw [List.length_map, List.countP_eq_length_filter]
  have hmem : ∀ v, v ∈ (reached.filter fun x => x.2 = c).map Prod.fst ↔ (v, c) ∈ reached := by
    intro v
    rw [List.mem_map]
    constructor
    · rintro ⟨⟨u, d⟩, hx, rfl⟩
      obtain ⟨hx, hd⟩ := List.mem_filter.mp hx
      rwa [← of_decide_eq_true hd]
    · intro hv
      exact ⟨(v, c), List.mem_filter.mpr ⟨hv, decide_eq_true rfl⟩, rfl⟩
  have hnodup : ((reached.filter fun x => x.2 = c).map Prod.fst).Nodup := by
    refine List.nodup_iff_count_le_one.mpr fun v => ?_
    refine le_trans (le_of_eq ?_) (hone v)
    rw [List.count, List.countP_map, List.countP_filter, List.count]
    refine List.countP_congr fun x _ => ?_
    obtain ⟨u, d⟩ := x
    simp only [Function.comp_apply, Bool.and_eq_true, beq_iff_eq, decide_eq_true_eq,
      Prod.mk.injEq]
  have hsub : (reached.filter fun x => x.2 = c).map Prod.fst ⊆ N.sinks := fun v hv => by
    obtain ⟨hs, hlt⟩ := hran _ ((hmem v).mp hv)
    exact List.mem_filter.mpr ⟨List.mem_range.mpr hlt, hs⟩
  have hperm := List.subperm_of_subset hnodup hsub
  refine ⟨hlen ▸ hperm.length_le, fun hle v hv hs => ?_⟩
  have heq := hperm.perm_of_length_le (by rw [hlen]; exact hle)
  exact (hmem v).mp (heq.mem_iff.mpr (List.mem_filter.mpr ⟨List.mem_range.mpr hv, hs⟩))

/-- The clocks that have passed are the same where the main thread is not about to emit one. -/
theorem passed_of (hset : ∀ d, f' ≠ .setCounter d) {c e : ℕ}
    (hc : c + N.slices < e ∨ .setCounter (c + N.slices) ∈ f' ::ₘ others) :
    c + N.slices < e ∨ .setCounter (c + N.slices) ∈ f ::ₘ others := by
  rcases hc with hc | hc
  · exact Or.inl hc
  · rcases Multiset.mem_cons.mp hc with hc | hc
    · exact absurd hc.symm (hset _)
    · exact Or.inr (Multiset.mem_cons_of_mem hc)

/-- What a passed clock leaves behind. -/
theorem handed_of_passed (h : NetWorks N m fs) {c : ℕ}
    (hc : c + N.slices < m.emitted ∨ .setCounter (c + N.slices) ∈ fs) :
    ∀ v < N.nodes, c ∈ (m.node v).enqueued := by
  rcases hc with hc | hc
  · exact h.left c hc
  · exact (h.formed _ hc).2 c rfl

/-- The other threads are workers when one is the main thread. -/
theorem not_main (h : NetWorks N m (f ::ₘ others)) (hf : f.isMain = true) :
    ∀ g ∈ others, g.isMain = false := by
  have hmain := h.main
  rw [mains_cons, if_pos hf] at hmain
  have hzero : mains others = 0 := by omega
  exact fun g hg => Bool.eq_false_iff.mpr (Multiset.countP_eq_zero.mp hzero g hg)

/-- What holds where a worker is stays true. -/
theorem formed_worker {m' : NetMemory} (he : m.emitted ≤ m'.emitted) {g : NetFrame}
    (hg : g.isMain = false) (hf : g.Formed N m) : g.Formed N m' := by
  cases g with
  | send s c rest call =>
    obtain ⟨h1, h2, h3, -⟩ := hf
    refine ⟨lt_of_lt_of_le h1 he, h2, h3, fun k hk => ?_⟩
    rw [hk] at hg
    cases hg
  | sinkRun v c => exact ⟨lt_of_lt_of_le hf.1 he, hf.2⟩
  | endTask c => exact lt_of_lt_of_le hf he
  | idle => trivial
  | sinkThrown => exact hf
  | _ => cases hg

/-! ### A thread that keeps its role -/

theorem main_goes (h : NetWorks N m (f ::ₘ others)) (hmain : f'.isMain = f.isMain) :
    mains (f' ::ₘ others) = 1 := by
  rw [mains_cons, hmain, ← mains_cons]
  exact h.main

theorem tasks_goes (h : NetWorks N m (f ::ₘ others)) (hruns : ∀ v c, f'.runs v c = f.runs v c)
    (v c : ℕ) : m.pool.count (v, c) + running (f' ::ₘ others) v c + m.reached.count (v, c) ≤
      (m.node v).enqueued.count c := by
  rw [running_goes (hruns v c)]
  exact h.tasks v c

theorem sinkTasks_goes (h : NetWorks N m (f ::ₘ others))
    (hruns : ∀ v c, f'.runs v c = f.runs v c) (v c : ℕ) (hs : N.sink v = true) :
    m.pool.count (v, c) + running (f' ::ₘ others) v c + m.reached.count (v, c) =
      (m.node v).enqueued.count c := by
  rw [running_goes (hruns v c)]
  exact h.sinkTasks v c hs

theorem sent_goes (h : NetWorks N m (f ::ₘ others))
    (howes : ∀ w i c, f'.owes w i c = f.owes w i c) (w : ℕ) (hw : w < N.nodes) (i : ℕ)
    (hi : i < N.inputs w) (c : ℕ) : created N m w i c =
      (if i ∈ (m.node w).arrived c then 1 else 0) + owed (f' ::ₘ others) w i c +
        pooled N m w i c := by
  rw [owed_cons, howes, ← owed_cons]
  exact h.sent w hw i hi c

theorem groups_goes (h : NetWorks N m (f ::ₘ others))
    (hworks : ∀ s, f'.works N s = f.works N s) (s : ℕ) :
    m.group s = (m.pool.countP fun x => x.2 % N.slices = s) + working N (f' ::ₘ others) s := by
  rw [working_cons, hworks, ← working_cons]
  exact h.groups s

/-- A step of one thread that changes nothing but where it is. -/
theorem goes (h : NetWorks N m (f ::ₘ others))
    (hnodes : ∀ v, NodeWorks (N.shape v) (m.node v) ((f' ::ₘ others).map (NetFrame.calling v)))
    (hform : f'.Formed N m) (hmain : f'.isMain = f.isMain)
    (hruns : ∀ v c, f'.runs v c = true → f.runs v c = true)
    (hsink : ∀ v c, N.sink v = true → f'.runs v c = f.runs v c)
    (howes : ∀ w i c, f'.owes w i c = f.owes w i c)
    (hworks : ∀ s, f'.works N s = f.works N s)
    (hclock : ∀ c, f'.clock = some c → f.clock = some c)
    (hset : ∀ c, f' = .setCounter (c + N.slices) → Gone m (f' ::ₘ others) c) :
    NetWorks N m (f' ::ₘ others) where
  nodes := hnodes
  formed g hg := by
    rcases Multiset.mem_cons.mp hg with rfl | hg
    · exact hform
    · exact h.formed g (Multiset.mem_cons_of_mem hg)
  main := h.main_goes hmain
  tasks v c := by
    have hold := h.tasks v c
    have hle : running (f' ::ₘ others) v c ≤ running (f ::ₘ others) v c := by
      rw [running_cons, running_cons]
      by_cases hr : f'.runs v c = true
      · rw [if_pos hr, if_pos (hruns v c hr)]
      · rw [if_neg hr]
        omega
    omega
  sinkTasks v c hs := by
    rw [running_goes (hsink v c hs)]
    exact h.sinkTasks v c hs
  sent := h.sent_goes howes
  emitted := h.emitted
  groups := h.groups_goes hworks
  left := h.left
  gone c hc := by
    have hold : c + N.slices < m.emitted ∨ .setCounter (c + N.slices) ∈ f ::ₘ others →
        Gone m (f' ::ₘ others) c := fun hc' => by
      obtain ⟨h1, h2⟩ := h.gone c hc'
      refine ⟨h1, fun g hg => ?_⟩
      rcases Multiset.mem_cons.mp hg with rfl | hg
      · exact fun he => h2 f (Multiset.mem_cons_self _ _) (hclock c he)
      · exact h2 g (Multiset.mem_cons_of_mem hg)
    rcases hc with hc | hc
    · exact hold (Or.inl hc)
    · rcases Multiset.mem_cons.mp hc with hc | hc
      · exact hset c hc.symm
      · exact hold (Or.inr (Multiset.mem_cons_of_mem hc))
  counter := h.counter
  ran := h.ran

/-- The nodes do not notice a step of a thread that is in none of them. -/
theorem nodes_of_calling (h : NetWorks N m (f ::ₘ others))
    (hcall : ∀ v, f'.calling v = f.calling v) (v : ℕ) :
    NodeWorks (N.shape v) (m.node v) ((f' ::ₘ others).map (NetFrame.calling v)) := by
  have hold := h.nodes v
  rw [Multiset.map_cons] at hold ⊢
  rwa [hcall v]

/-! ## The main thread -/

/-- When the counter of a slot is down, every node has handed over its clock. -/
theorem handed_of_counter (h : NetWorks N m fs) {c : ℕ} (hc : c < m.emitted)
    (hwindow : m.emitted ≤ c + N.slices) (hz : ¬ 0 < m.sinkCounter (c % N.slices)) :
    ∀ v < N.nodes, c ∈ (m.node v).enqueued := by
  have hcounter := h.counter c hc hwindow
  have hle : N.sinkCount ≤ reachedBy m c := by omega
  have hreached := (reachedBy_le h.ran fun v => h.reached_count_le v c).2 hle
  refine h.handed_of_sinks fun v hv hs => ?_
  have hmem := List.count_pos_iff.mpr (hreached v hv hs)
  exact h.handed_of_task (by omega)

theorem exec_waitSinks {c : ℕ} (h : NetWorks N m (.waitSinks c ::ₘ others)) (choice : ℕ) :
    NetWorks N (netExec N choice m (.waitSinks c)).1
      ((netExec N choice m (.waitSinks c)).2 ::ₘ others) := by
  obtain ⟨he, hstarted⟩ := h.formed _ (Multiset.mem_cons_self _ _)
  simp only [netExec]
  split
  · exact h
  · next hz =>
    have hleft : m.Left N c := by
      intro d hd
      have hmod : d % N.slices = c % N.slices := by rw [← hd, Nat.add_mod_right]
      exact h.handed_of_counter (by have := N.slices_pos; omega) (by omega) (hmod.symm ▸ hz)
    exact h.goes (h.nodes_of_calling fun _ => rfl) ⟨⟨he, hstarted⟩, hleft⟩ rfl
      (fun _ _ hr => hr) (fun _ _ _ => rfl) (fun _ _ _ => rfl) (fun _ => rfl) (fun _ hc => hc)
      fun _ hset => (by cases hset)

/-- An empty group leaves no task of its slice, and no thread that is in one. -/
theorem gone_of_group (h : NetWorks N m fs) {c : ℕ} (hz : m.group (c % N.slices) = 0) :
    (∀ x ∈ m.pool, x.2 ≠ c) ∧ ∀ g ∈ fs, g.isMain = false → g.clock ≠ some c := by
  have hgroup := h.groups (c % N.slices)
  have hpool : (m.pool.countP fun x => x.2 % N.slices = c % N.slices) = 0 := by omega
  have hwork : working N fs (c % N.slices) = 0 := by omega
  refine ⟨fun x hx hc => ?_, fun g hg hm hc => ?_⟩
  · have hn := List.countP_eq_zero.mp hpool x hx
    rw [hc] at hn
    exact hn (decide_eq_true rfl)
  · have hn := Multiset.countP_eq_zero.mp hwork g hg
    cases g with
    | send s d rest call =>
      cases hc
      cases s with
      | source k => cases hm
      | node v => exact hn (decide_eq_true rfl)
    | sinkRun v d | endTask d =>
      cases hc
      exact hn (decide_eq_true rfl)
    | _ => cases hc

theorem exec_waitSlice {c : ℕ} (h : NetWorks N m (.waitSlice c ::ₘ others)) (choice : ℕ) :
    NetWorks N (netExec N choice m (.waitSlice c)).1
      ((netExec N choice m (.waitSlice c)).2 ::ₘ others) := by
  have hf := h.formed _ (Multiset.mem_cons_self _ _)
  simp only [netExec]
  split
  · next hz =>
    refine h.goes (h.nodes_of_calling fun _ => rfl) hf rfl (fun _ _ hr => hr) (fun _ _ _ => rfl)
      (fun _ _ _ => rfl) (fun _ => rfl) (fun _ hc => hc) fun d hset => ?_
    have hc : c = d + N.slices := NetFrame.setCounter.inj hset
    rw [hc, Nat.add_mod_right] at hz
    obtain ⟨h1, h2⟩ := h.gone_of_group hz
    refine ⟨h1, fun g hg => ?_⟩
    rcases Multiset.mem_cons.mp hg with rfl | hg
    · exact fun he => (by cases he)
    · exact h2 g (Multiset.mem_cons_of_mem hg) (h.not_main rfl g hg)
  · exact h

/-- Clocks of one window have different slots. -/
theorem mod_ne {c d : ℕ} (hne : d ≠ c) (h1 : c < d + N.slices) (h2 : d < c + N.slices) :
    d % N.slices ≠ c % N.slices := by
  intro hmod
  rcases Nat.lt_or_gt_of_ne hne with hlt | hlt
  · have hle := add_slices_le (P := N.shape 0) hlt hmod
    change d + N.slices ≤ c at hle
    omega
  · have hle := add_slices_le (P := N.shape 0) hlt hmod.symm
    change c + N.slices ≤ d at hle
    omega

theorem exec_setCounter {c : ℕ} (h : NetWorks N m (.setCounter c ::ₘ others)) :
    NetWorks N { m with
        sinkCounter := Function.update m.sinkCounter (c % N.slices) N.sinkCount
        emitted := c + 1 } (.start c 0 ::ₘ others) := by
  obtain ⟨⟨he, hstarted⟩, hleft⟩ := h.formed _ (Multiset.mem_cons_self _ _)
  have hle : m.emitted ≤ c + 1 := by omega
  exact {
    nodes := h.nodes_of_calling fun _ => rfl
    formed := fun g hg => by
      rcases Multiset.mem_cons.mp hg with rfl | hg
      · refine ⟨rfl, fun k hk => ?_⟩
        rw [if_neg (Nat.not_lt_zero k)]
        exact hstarted k hk
      · exact formed_worker hle (h.not_main rfl g hg) (h.formed g (Multiset.mem_cons_of_mem hg))
    main := h.main_goes rfl
    tasks := h.tasks_goes fun _ _ => rfl
    sinkTasks := h.sinkTasks_goes fun _ _ => rfl
    sent := h.sent_goes fun _ _ _ => rfl
    emitted := fun w d i hi => by
      obtain ⟨h1, h2⟩ := h.emitted w d i hi
      exact ⟨h1, lt_of_lt_of_le h2 hle⟩
    groups := h.groups_goes fun _ => rfl
    left := fun d hd v hv => by
      change d + N.slices < c + 1 at hd
      rcases Nat.lt_succ_iff_lt_or_eq.mp hd with hd | hd
      · exact h.left d (he ▸ hd) v hv
      · exact hleft d hd v hv
    gone := fun d hd => by
      have hold : d + N.slices < m.emitted ∨
          .setCounter (d + N.slices) ∈ NetFrame.setCounter c ::ₘ others := by
        rcases hd with hd | hd
        · change d + N.slices < c + 1 at hd
          rcases Nat.lt_succ_iff_lt_or_eq.mp hd with hd | hd
          · exact Or.inl (he ▸ hd)
          · rw [hd]
            exact Or.inr (Multiset.mem_cons_self _ _)
        · rcases Multiset.mem_cons.mp hd with hd | hd
          · cases hd
          · exact Or.inr (Multiset.mem_cons_of_mem hd)
      obtain ⟨h1, h2⟩ := h.gone d hold
      refine ⟨h1, fun g hg => ?_⟩
      rcases Multiset.mem_cons.mp hg with rfl | hg
      · exact fun he => (by cases he)
      · exact h2 g (Multiset.mem_cons_of_mem hg)
    counter := fun d hd hd' => by
      change d < c + 1 at hd
      change c + 1 ≤ d + N.slices at hd'
      change Function.update m.sinkCounter (c % N.slices) (N.sinkCount : ℤ) (d % N.slices) +
        (reachedBy m d : ℤ) = N.sinkCount
      by_cases hdc : d = c
      · subst hdc
        have hzero : reachedBy m d = 0 := List.countP_eq_zero.mpr fun x hx hc => by
          obtain ⟨v, e⟩ := x
          have heq : e = d := of_decide_eq_true hc
          subst heq
          have hpos := List.count_pos_iff.mpr hx
          have hlt := (h.lt_of_handed (v := v) (c := e) (h.handed_of_task (by omega))).2
          omega
        rw [Function.update_self, hzero]
        rfl
      · rw [Function.update_of_ne (mod_ne hdc (by omega) (by omega))]
        exact h.counter d (by omega) (by omega)
    ran := h.ran }

/-- Where a source is connected. -/
theorem count_targets {w i : ℕ} (hw : w < N.nodes) (hi : i < N.inputs w) (s : Sender) :
    (N.targets s).count (w, i) = if N.sender w i = s then 1 else 0 := by
  split
  · next hs =>
    exact List.count_eq_one_of_mem (N.nodup_targets s) ((N.mem_targets s w i).mpr ⟨hw, hi, hs⟩)
  · next hs =>
    exact List.count_eq_zero.mpr fun hmem => hs ((N.mem_targets s w i).mp hmem).2.2

theorem exec_source {c k : ℕ} (h : NetWorks N m (.start c k ::ₘ others)) (hk : k < N.sources) :
    NetWorks N { m with started := Function.update m.started k (c + 1) }
      (.send (.source k) c (N.targets (.source k)) none ::ₘ others) := by
  obtain ⟨he, hstarted⟩ := h.formed _ (Multiset.mem_cons_self _ _)
  have hsk := hstarted k hk
  rw [if_neg (Nat.lt_irrefl k)] at hsk
  exact {
    nodes := h.nodes_of_calling fun _ => rfl
    formed := fun g hg => by
      rcases Multiset.mem_cons.mp hg with rfl | hg
      · refine ⟨by change c < m.emitted; omega, fun x hx => hx, fun v f hc => (by cases hc),
          fun k' hk' => ?_⟩
        cases hk'
        refine ⟨he, hk, fun k' hk' => ?_⟩
        change Function.update m.started k (c + 1) k' = _
        by_cases heq : k' = k
        · rw [heq, Function.update_self, if_pos (le_refl k)]
        · rw [Function.update_of_ne heq, hstarted k' hk']
          split_ifs <;> omega
      · have hle : m.emitted ≤
            ({ m with started := Function.update m.started k (c + 1) } : NetMemory).emitted :=
          le_refl _
        exact formed_worker hle (h.not_main rfl g hg) (h.formed g (Multiset.mem_cons_of_mem hg))
    main := h.main_goes rfl
    tasks := h.tasks_goes fun _ _ => rfl
    sinkTasks := h.sinkTasks_goes fun _ _ => rfl
    sent := fun w hw i hi d => by
      have hold := h.sent w hw i hi d
      rw [owed_cons] at hold ⊢
      have hcount := count_targets hw hi (.source k)
      simp only [NetFrame.owes, owesCall, created, pooled] at hold ⊢
      cases hs : N.sender w i with
      | node v =>
        rw [hs] at hcount
        simp only [hs] at hold ⊢
        rw [hcount]
        simp only [reduceCtorEq, if_false, Nat.add_zero, ite_self]
        exact hold
      | source k' =>
        rw [hs] at hcount
        simp only [hs] at hold ⊢
        rw [hcount]
        by_cases heq : k' = k
        · subst heq
          rw [hsk] at hold
          simp only [Function.update_self, if_true]
          split_ifs at hold ⊢ <;> omega
        · have hne : Sender.source k' ≠ Sender.source k := fun hc => heq (Sender.source.inj hc)
          simp only [Function.update_of_ne heq, if_neg hne, Nat.add_zero, ite_self]
          exact hold
    emitted := h.emitted
    groups := h.groups_goes fun _ => rfl
    left := h.left
    gone := fun d hd => by
      have hset : .setCounter (d + N.slices) ∉ others := fun hmem => by
        have hn := h.not_main rfl _ hmem
        cases hn
      have hlt : d + N.slices < m.emitted := by
        rcases hd with hd | hd
        · exact hd
        · rcases Multiset.mem_cons.mp hd with hd | hd
          · cases hd
          · exact absurd hd hset
      obtain ⟨h1, h2⟩ := h.gone d (Or.inl hlt)
      refine ⟨h1, fun g hg => ?_⟩
      rcases Multiset.mem_cons.mp hg with rfl | hg
      · intro hclock
        have hcd : c = d := Option.some.inj hclock
        have := N.slices_pos
        omega
      · exact h2 g (Multiset.mem_cons_of_mem hg)
    counter := h.counter
    ran := h.ran }

theorem exec_start {c k : ℕ} (h : NetWorks N m (.start c k ::ₘ others)) (choice : ℕ) :
    NetWorks N (netExec N choice m (.start c k)).1
      ((netExec N choice m (.start c k)).2 ::ₘ others) := by
  obtain ⟨he, hstarted⟩ := h.formed _ (Multiset.mem_cons_self _ _)
  simp only [netExec]
  split
  · exact h.exec_source ‹_›
  · next hk =>
    have hall : ∀ k' < N.sources, m.started k' = c + 1 := fun k' hk' => by
      rw [hstarted k' hk', if_pos (by omega)]
    split
    · exact h.goes (h.nodes_of_calling fun _ => rfl) ⟨he, hall⟩ rfl (fun _ _ hr => hr)
        (fun _ _ _ => rfl) (fun _ _ _ => rfl) (fun _ => rfl) (fun _ hc => hc)
        fun _ hset => by cases hset
    · exact h.goes (h.nodes_of_calling fun _ => rfl) ⟨he, hall⟩ rfl (fun _ _ hr => hr)
        (fun _ _ _ => rfl) (fun _ _ _ => rfl) (fun _ => rfl) (fun _ hc => hc)
        fun _ hset => by cases hset

theorem exec_final {choice : ℕ} (h : NetWorks N m (f ::ₘ others))
    (hf : (∃ ii c, f = .finalSinks ii c) ∨ (∃ ii c, f = .finalSlice ii c) ∨
      (∃ ii, f = .destroy ii) ∨ f = .done) :
    NetWorks N (netExec N choice m f).1 ((netExec N choice m f).2 ::ₘ others) := by
  have hform := h.formed f (Multiset.mem_cons_self _ _)
  have key : ∀ g : NetFrame, g.Formed N m → (∀ v, g.calling v = f.calling v) →
      g.isMain = f.isMain → (∀ v c, g.runs v c = f.runs v c) →
      (∀ w i c, g.owes w i c = f.owes w i c) → (∀ s, g.works N s = f.works N s) →
      g.clock = f.clock → (∀ c, g ≠ .setCounter c) → NetWorks N m (g ::ₘ others) :=
    fun g h1 h2 h3 h4 h5 h6 h7 h8 =>
      h.goes (h.nodes_of_calling h2) h1 h3 (fun v c hr => (h4 v c) ▸ hr) (fun v c _ => h4 v c) h5 h6
        (fun c hc => h7 ▸ hc) fun c hset => absurd hset (h8 _)
  rcases hf with ⟨ii, c, rfl⟩ | ⟨ii, c, rfl⟩ | ⟨ii, rfl⟩ | rfl
  · simp only [netExec]
    repeat' split
    · exact h
    · exact key _ hform (fun _ => rfl) rfl (fun _ _ => rfl) (fun _ _ _ => rfl) (fun _ => rfl) rfl
        fun _ hc => (by cases hc)
    · refine key _ (fun k hk => ?_) (fun _ => rfl) rfl (fun _ _ => rfl) (fun _ _ _ => rfl)
        (fun _ => rfl) rfl fun _ hc => (by cases hc)
      rw [hform.1]
      exact hform.2 k hk
  · simp only [netExec]
    split
    · exact key _ hform (fun _ => rfl) rfl (fun _ _ => rfl) (fun _ _ _ => rfl) (fun _ => rfl) rfl
        fun _ hc => (by cases hc)
    · exact h
  · simp only [netExec]
    repeat' split
    · exact key _ hform (fun _ => rfl) rfl (fun _ _ => rfl) (fun _ _ _ => rfl) (fun _ => rfl) rfl
        fun _ hc => (by cases hc)
    · exact h
    · exact key _ hform (fun _ => rfl) rfl (fun _ _ => rfl) (fun _ _ _ => rfl) (fun _ => rfl) rfl
        fun _ hc => (by cases hc)
  · exact h

/-! ## Runs of nodes -/

theorem exec_target {s : Sender} {c : ℕ} {x : ℕ × ℕ} {rest : List (ℕ × ℕ)}
    (h : NetWorks N m (.send s c (x :: rest) none ::ₘ others)) :
    NetWorks N m (.send s c rest (some (x.1, .receive x.2 c)) ::ₘ others) := by
  obtain ⟨hlt, hrest, -, hsrc⟩ := h.formed _ (Multiset.mem_cons_self _ _)
  have hx := hrest x List.mem_cons_self
  have hvalid := (N.mem_targets s x.1 x.2).mp hx
  refine h.goes (fun v => ?_) ⟨hlt, fun y hy => hrest y (List.mem_cons_of_mem _ hy),
    fun v f he => ?_, hsrc⟩ ?_ ?_ ?_ (fun w i d => ?_) ?_ (fun _ hc => hc) fun _ hset => ?_
  · have hold := h.nodes v
    rw [Multiset.map_cons] at hold ⊢
    by_cases hv : x.1 = v
    · have hnew := hold.exec trivial (some (x.2, c))
      simp only [NetFrame.calling, if_pos hv]
      exact hnew
    · simp only [NetFrame.calling, if_neg hv]
      exact hold
  · cases he
    exact ⟨hvalid.1, rfl, hx⟩
  · cases s <;> rfl
  · cases s <;> exact fun _ _ hr => hr
  · cases s <;> exact fun _ _ _ => rfl
  · obtain ⟨a, b⟩ := x
    simp only [NetFrame.owes, owesCall, Frame.undelivered, List.count_cons, Option.some.injEq,
      Prod.mk.injEq, beq_iff_eq]
    split_ifs <;> first | rfl | omega
  · cases s <;> exact fun _ => rfl
  · cases hset

/-- The source goes on to the next one, the run of a sink to the network, other runs end. -/
theorem exec_return {s : Sender} {c : ℕ} (h : NetWorks N m (.send s c [] none ::ₘ others))
    (choice : ℕ) : NetWorks N (netExec N choice m (.send s c [] none)).1
      ((netExec N choice m (.send s c [] none)).2 ::ₘ others) := by
  obtain ⟨hlt, -, -, hsrc⟩ := h.formed _ (Multiset.mem_cons_self _ _)
  have howes : ∀ w i d, (NetFrame.send s c [] none).owes w i d = 0 := fun w i d => by
    simp only [NetFrame.owes, owesCall, List.count_nil, Nat.add_zero, ite_self]
  cases s with
  | source k =>
    obtain ⟨he, hk, hstarted⟩ := hsrc k rfl
    refine h.goes (h.nodes_of_calling fun _ => rfl) ⟨he, fun k' hk' => ?_⟩ rfl
      (fun _ _ hr => hr) (fun _ _ _ => rfl) (fun w i d => (howes w i d).symm) (fun _ => rfl)
      (fun _ hc => (by cases hc)) fun _ hset => (by cases hset)
    rw [hstarted k' hk']
    simp only [Nat.lt_succ_iff]
  | node v =>
    simp only [netExec]
    have hrun : (NetFrame.send (.node v) c [] none).runs v c = true := decide_eq_true ⟨rfl, rfl⟩
    split
    · next hs =>
      have hv : v < N.nodes := by
        refine (h.lt_of_handed (c := c) (h.handed_of_task ?_)).1
        rw [running_cons, if_pos hrun]
        omega
      exact h.goes (h.nodes_of_calling fun _ => rfl) ⟨hlt, hs, hv⟩ rfl (fun _ _ hr => hr)
        (fun _ _ _ => rfl) (fun w i d => (howes w i d).symm) (fun _ => rfl) (fun _ hc => hc)
        fun _ hset => (by cases hset)
    · next hs =>
      refine h.goes (h.nodes_of_calling fun _ => rfl) hlt rfl (fun _ _ hr => (by cases hr))
        (fun u d hu => ?_) (fun w i d => (howes w i d).symm) (fun _ => rfl) (fun _ hc => hc)
        fun _ hset => (by cases hset)
      refine (decide_eq_false ?_).symm
      rintro ⟨rfl, -⟩
      exact hs hu

theorem exec_sinkRun {v c : ℕ} (h : NetWorks N m (.sinkRun v c ::ₘ others)) (choice : ℕ) :
    NetWorks N (netExec N choice m (.sinkRun v c)).1
      ((netExec N choice m (.sinkRun v c)).2 ::ₘ others) := by
  obtain ⟨hlt, hs, hv⟩ := h.formed _ (Multiset.mem_cons_self _ _)
  have hrun : (NetFrame.sinkRun v c).runs v c = true := decide_eq_true ⟨rfl, rfl⟩
  have hcur : m.emitted ≤ c + N.slices := by
    by_contra hn
    exact (h.gone c (Or.inl (by omega))).2 _ (Multiset.mem_cons_self _ _) rfl
  have hcount : ∀ u d, (m.reached ++ [(v, c)]).count (u, d) =
      m.reached.count (u, d) + if v = u ∧ c = d then 1 else 0 := fun u d => by
    rw [List.count_append, List.count_singleton]
    simp only [beq_iff_eq, Prod.mk.injEq]
  have hruns : ∀ u d, running (.sinkRun v c ::ₘ others) u d =
      running others u d + if v = u ∧ c = d then 1 else 0 := fun u d => by
    rw [running_cons]
    simp only [NetFrame.runs, decide_eq_true_eq]
  have hran : ∀ x ∈ m.reached ++ [(v, c)], N.sink x.1 = true ∧ x.1 < N.nodes := fun x hx => by
    rcases List.mem_append.mp hx with hx | hx
    · exact h.ran x hx
    · rw [List.mem_singleton.mp hx]
      exact ⟨hs, hv⟩
  have hone : ∀ u, (m.reached ++ [(v, c)]).count (u, c) ≤ 1 := fun u => by
    have htasks := h.tasks u c
    have hnodup := List.nodup_iff_count_le_one.mp (h.nodes u).nodup c
    rw [hruns] at htasks
    rw [hcount]
    omega
  have hreached : ∀ d, ((m.reached ++ [(v, c)]).countP fun x => x.2 = d) =
      reachedBy m d + if c = d then 1 else 0 := fun d => by
    rw [List.countP_append, List.countP_singleton]
    simp only [decide_eq_true_eq]
    rfl
  have hbound := (reachedBy_le hran hone).1
  rw [hreached, if_pos rfl] at hbound
  have hcounter := h.counter c hlt hcur
  have hnot : ¬ m.sinkCounter (c % N.slices) - 1 < 0 := by omega
  simp only [netExec, if_neg hnot]
  exact {
    nodes := h.nodes_of_calling fun _ => rfl
    formed := fun g hg => by
      rcases Multiset.mem_cons.mp hg with rfl | hg
      · exact hlt
      · have hold := h.formed g (Multiset.mem_cons_of_mem hg)
        cases g <;> exact hold
    main := h.main_goes rfl
    tasks := fun u d => by
      have hold := h.tasks u d
      rw [hruns] at hold
      rw [running_cons]
      simp only [NetFrame.runs, Bool.false_eq_true, if_false, hcount]
      omega
    sinkTasks := fun u d hu => by
      have hold := h.sinkTasks u d hu
      rw [hruns] at hold
      rw [running_cons]
      simp only [NetFrame.runs, Bool.false_eq_true, if_false, hcount]
      omega
    sent := h.sent_goes fun _ _ _ => rfl
    emitted := h.emitted
    groups := h.groups_goes fun _ => rfl
    left := h.left
    gone := fun d hd => by
      have hmem := passed_of (f := NetFrame.sinkRun v c) (fun _ he => by cases he) hd
      obtain ⟨h1, h2⟩ := h.gone d hmem
      refine ⟨h1, fun g hg => ?_⟩
      rcases Multiset.mem_cons.mp hg with rfl | hg
      · exact h2 (.sinkRun v c) (Multiset.mem_cons_self _ _)
      · exact h2 g (Multiset.mem_cons_of_mem hg)
    counter := fun d hd hd' => by
      have hold := h.counter d hd hd'
      change m.emitted ≤ d + N.slices at hd'
      change d < m.emitted at hd
      change Function.update m.sinkCounter (c % N.slices) _ (d % N.slices) +
        (((m.reached ++ [(v, c)]).countP fun x => x.2 = d : ℕ) : ℤ) = N.sinkCount
      rw [hreached]
      by_cases hdc : d = c
      · subst hdc
        rw [Function.update_self, if_pos rfl]
        omega
      · rw [Function.update_of_ne (mod_ne hdc (by omega) (by omega)),
          if_neg fun he => hdc he.symm]
        exact hold
    ran := hran }

theorem exec_endTask {c : ℕ} (h : NetWorks N m (.endTask c ::ₘ others)) :
    NetWorks N { m with
        group := Function.update m.group (c % N.slices) (m.group (c % N.slices) - 1) }
      (.idle ::ₘ others) := by
  exact {
    nodes := h.nodes_of_calling fun _ => rfl
    formed := fun g hg => by
      rcases Multiset.mem_cons.mp hg with rfl | hg
      · trivial
      · have hold := h.formed g (Multiset.mem_cons_of_mem hg)
        cases g <;> exact hold
    main := h.main_goes rfl
    tasks := h.tasks_goes fun _ _ => rfl
    sinkTasks := h.sinkTasks_goes fun _ _ => rfl
    sent := h.sent_goes fun _ _ _ => rfl
    emitted := h.emitted
    groups := fun s => by
      have hold := h.groups s
      rw [working_cons] at hold ⊢
      change Function.update m.group (c % N.slices) _ s = _
      simp only [NetFrame.works, decide_eq_true_eq, Bool.false_eq_true, if_false,
        Nat.add_zero] at hold ⊢
      by_cases hsc : s = c % N.slices
      · subst hsc
        rw [if_pos rfl] at hold
        rw [Function.update_self]
        omega
      · rw [if_neg fun he => hsc he.symm] at hold
        rw [Function.update_of_ne hsc]
        exact hold
    left := h.left
    gone := fun d hd => by
      have hmem := passed_of (f := NetFrame.endTask c) (fun _ he => by cases he) hd
      obtain ⟨h1, h2⟩ := h.gone d hmem
      refine ⟨h1, fun g hg => ?_⟩
      rcases Multiset.mem_cons.mp hg with rfl | hg
      · exact fun hc => (by cases hc)
      · exact h2 g (Multiset.mem_cons_of_mem hg)
    counter := h.counter
    ran := h.ran }

/-- A worker takes a task. -/
theorem exec_take {v c j : ℕ} (h : NetWorks N m (.idle ::ₘ others))
    (hj : m.pool[j]? = some (v, c)) :
    NetWorks N { m with pool := m.pool.eraseIdx j }
      (.send (.node v) c (N.targets (.node v)) none ::ₘ others) := by
  obtain ⟨hjlt, hget⟩ := List.getElem?_eq_some_iff.mp hj
  have hperm : m.pool.Perm ((v, c) :: m.pool.eraseIdx j) := by
    have hp := List.getElem_cons_eraseIdx_perm hjlt
    rw [hget] at hp
    exact hp.symm
  have hmem : (v, c) ∈ m.pool := hget ▸ List.getElem_mem hjlt
  have hcount : ∀ u d, m.pool.count (u, d) =
      (m.pool.eraseIdx j).count (u, d) + if v = u ∧ c = d then 1 else 0 := fun u d => by
    rw [hperm.count_eq, List.count_cons]
    simp only [beq_iff_eq, Prod.mk.injEq]
  have hpos := List.count_pos_iff.mpr hmem
  have hhand : c ∈ (m.node v).enqueued := h.handed_of_task (by omega)
  obtain ⟨hv, hlt⟩ := h.lt_of_handed hhand
  exact {
    nodes := h.nodes_of_calling fun _ => rfl
    formed := fun g hg => by
      rcases Multiset.mem_cons.mp hg with rfl | hg
      · exact ⟨hlt, fun x hx => hx, fun u f hc => (by cases hc), fun k hk => (by cases hk)⟩
      · have hold := h.formed g (Multiset.mem_cons_of_mem hg)
        cases g <;> exact hold
    main := h.main_goes rfl
    tasks := fun u d => by
      have hold := h.tasks u d
      rw [hcount, running_cons] at hold
      rw [running_cons]
      simp only [NetFrame.runs, decide_eq_true_eq, Bool.false_eq_true, if_false] at hold ⊢
      omega
    sinkTasks := fun u d hu => by
      have hold := h.sinkTasks u d hu
      rw [hcount, running_cons] at hold
      rw [running_cons]
      simp only [NetFrame.runs, decide_eq_true_eq, Bool.false_eq_true, if_false] at hold ⊢
      omega
    sent := fun w hw i hi d => by
      have hold := h.sent w hw i hi d
      rw [owed_cons] at hold ⊢
      have htargets := count_targets hw hi (.node v)
      simp only [NetFrame.owes, owesCall, created, pooled, htargets] at hold ⊢
      cases hs : N.sender w i with
      | source k =>
        simp only [hs, reduceCtorEq, if_false, Nat.add_zero, ite_self] at hold ⊢
        exact hold
      | node u =>
        simp only [hs, Sender.node.injEq, hcount] at hold ⊢
        by_cases huv : u = v
        · subst huv
          by_cases hcd : c = d
          · simp only [hcd, and_self, if_true] at hold ⊢
            omega
          · simp only [hcd, and_false, if_false] at hold ⊢
            omega
        · have hvu : v ≠ u := fun he => huv he.symm
          simp only [huv, hvu, false_and, if_false, Nat.add_zero, ite_self] at hold ⊢
          omega
    emitted := h.emitted
    groups := fun s => by
      have hold := h.groups s
      rw [working_cons, hperm.countP_eq, List.countP_cons] at hold
      rw [working_cons]
      simp only [NetFrame.works, decide_eq_true_eq, Bool.false_eq_true, if_false] at hold ⊢
      omega
    left := h.left
    gone := fun d hd => by
      have hset := passed_of (f := NetFrame.idle) (fun _ he => by cases he) hd
      obtain ⟨h1, h2⟩ := h.gone d hset
      refine ⟨fun x hx => h1 x (List.mem_of_mem_eraseIdx hx), fun g hg => ?_⟩
      rcases Multiset.mem_cons.mp hg with rfl | hg
      · intro hc
        exact h1 (v, c) hmem (Option.some.inj hc)
      · exact h2 g (Multiset.mem_cons_of_mem hg)
    counter := h.counter
    ran := h.ran }

/-! ## Deliveries -/

theorem calling_returns (v : ℕ) (fr : Frame) (s : Sender) (c : ℕ) (rest : List (ℕ × ℕ)) (u : ℕ) :
    (NetFrame.send s c rest (returns v fr)).calling u = if v = u then fr else .upstream := by
  rw [returns]
  split
  · next hup =>
    rw [hup, ite_self]
    rfl
  · rfl

/-- The next program point of a call carries the same signal. -/
theorem carries_exec {P : Shape} {s : Sender} {v c : ℕ} {m : Memory} {fr : Frame}
    (h : fr.Carries N s v c) : (exec P none m fr).2.Carries N s v c := by
  cases fr with
  | store i d => exact h.1
  | scan clk ii j =>
    simp only [exec, afterScan]
    repeat' split
    all_goals trivial
  | _ =>
    simp only [exec]
    repeat' split
    all_goals first | exact h | exact h.1 | trivial

/-- A call has stored its signal after the step that stores it. -/
theorem undelivered_exec {P : Shape} {m : Memory} {fr : Frame} {others : Multiset Frame}
    (h : NodeWorks P m (fr ::ₘ others)) (hg : Delivers P fr m (fr ::ₘ others)) (i c : ℕ) :
    (exec P none m fr).2.undelivered = some (i, c) ↔
      fr.undelivered = some (i, c) ∧ fr ≠ .store i c := by
  cases fr with
  | receive j d =>
    obtain ⟨hj, hd, -⟩ := hg
    simp only [exec, if_neg (h.arrived.signal_lt hj hd), Frame.undelivered, ne_eq, reduceCtorEq,
      not_false_eq_true, and_true]
  | store j d =>
    simp only [exec, Frame.undelivered, reduceCtorEq, Option.some.injEq, Prod.mk.injEq, ne_eq,
      Frame.store.injEq, and_not_self]
  | scan clk ii j =>
    simp only [exec, afterScan]
    repeat' split
    all_goals simp only [Frame.undelivered, reduceCtorEq, false_and]
  | _ =>
    simp only [exec]
    repeat' split
    all_goals simp only [Frame.undelivered, reduceCtorEq, false_and]

/-- A call only delivers what the network allows to be delivered. -/
theorem delivers {s : Sender} {c v : ℕ} {rest : List (ℕ × ℕ)} {fr : Frame}
    (h : NetWorks N m (.send s c rest (some (v, fr)) ::ₘ others)) :
    Delivers (N.shape v) fr (m.node v) (fr ::ₘ others.map (NetFrame.calling v)) := by
  obtain ⟨hlt, -, hcall, -⟩ := h.formed _ (Multiset.mem_cons_self _ _)
  obtain ⟨hv, hcarries⟩ := hcall v fr rfl
  have key : ∀ i d, fr.undelivered = some (i, d) → d = c ∧ (v, i) ∈ N.targets s →
      Deliverable (N.shape v) (m.node v) (fr ::ₘ others.map (NetFrame.calling v)) i d := by
    rintro i d hund ⟨rfl, hmem⟩
    obtain ⟨-, hi, -⟩ := (N.mem_targets s v i).mp hmem
    refine ⟨hi, fun ha => ?_, ?_⟩
    · have hsent := h.sent v hv i hi d
      have hone := h.created_le_one v i d
      have howes : (NetFrame.send s d rest (some (v, fr))).owes v i d =
          rest.count (v, i) + 1 := by
        simp only [NetFrame.owes, owesCall, hund, and_self, if_true]
      rw [if_pos ha, owed_cons, howes] at hsent
      omega
    · by_cases hw : d < N.slices
      · exact Or.inl hw
      · obtain ⟨e, rfl⟩ : ∃ e, d = e + N.slices := ⟨d - N.slices, by omega⟩
        obtain ⟨-, hgone⟩ := h.gone e (Or.inl hlt)
        refine Or.inr ⟨?_, fun g hg hdel => ?_⟩
        · change e + N.slices - N.slices ∈ _
          rw [Nat.add_sub_cancel]
          exact h.left e hlt v hv
        · change g.delivering = some (e + N.slices - N.slices) at hdel
          rw [Nat.add_sub_cancel] at hdel
          rcases Multiset.mem_cons.mp hg with rfl | hg
          · cases g <;> first | (cases hdel; done) | cases hund
          · obtain ⟨g', hg', rfl⟩ := Multiset.mem_map.mp hg
            have hform := h.formed g' (Multiset.mem_cons_of_mem hg')
            refine hgone g' (Multiset.mem_cons_of_mem hg') ?_
            cases g' with
            | send s' c' rest' call =>
              cases call with
              | none => cases hdel
              | some x =>
                obtain ⟨u, g⟩ := x
                simp only [NetFrame.calling] at hdel
                split at hdel
                · have hcar := (hform.2.2.1 u g rfl).2
                  have heq : e = c' := by
                    cases g <;> first | cases hdel; exact hcar | cases hdel
                  rw [heq]
                  rfl
                · cases hdel
            | _ => cases hdel
  cases fr with
  | receive i d | store i d => exact key i d rfl hcarries
  | _ => trivial

theorem exec_call {s : Sender} {c v : ℕ} {rest : List (ℕ × ℕ)} {fr : Frame}
    (h : NetWorks N m (.send s c rest (some (v, fr)) ::ₘ others)) :
    NetWorks N (m.nodeStep N v fr)
      (.send s c rest (returns v (exec (N.shape v) none (m.node v) fr).2) ::ₘ others) := by
  have hform := h.formed _ (Multiset.mem_cons_self _ _)
  obtain ⟨hlt, hrest, hcall, hsrc⟩ := hform
  obtain ⟨hv, hcarries⟩ := hcall v fr rfl
  have hg := h.delivers
  have hnode : NodeWorks (N.shape v) (m.node v) (fr ::ₘ others.map (NetFrame.calling v)) := by
    have hold := h.nodes v
    rw [Multiset.map_cons] at hold
    simpa only [NetFrame.calling, if_true] using hold
  have hnew := hnode.exec hg none
  have hhand : ∀ u d, ((m.nodeStep N v fr).node u).enqueued.count d =
      (m.node u).enqueued.count d + if u = v then fr.hands.count d else 0 := fun u d => by
    rw [m.enqueued_nodeStep N v fr u, List.count_append]
    split <;> rfl
  have hmono : ∀ u d, d ∈ (m.node u).enqueued → d ∈ ((m.nodeStep N v fr).node u).enqueued :=
    fun u d hd => by
      rw [m.enqueued_nodeStep N v fr u]
      exact List.mem_append_left _ hd
  have hpool := m.count_pool_nodeStep N v fr
  have hruns : ∀ u d, (NetFrame.send s c rest
      (returns v (exec (N.shape v) none (m.node v) fr).2)).runs u d =
      (NetFrame.send s c rest (some (v, fr))).runs u d := fun u d => by
    cases s <;> rfl
  exact {
    nodes := fun u => by
      have hold := h.nodes u
      rw [Multiset.map_cons] at hold ⊢
      rw [calling_returns]
      by_cases hu : u = v
      · rw [hu, m.node_nodeStep_self N v fr, if_pos rfl]
        exact hnew
      · have hvu : v ≠ u := fun he => hu he.symm
        rw [m.node_nodeStep_of_ne N v fr hu, if_neg hvu]
        simpa only [NetFrame.calling, if_neg hvu] using hold
    formed := fun g hg' => by
      rcases Multiset.mem_cons.mp hg' with rfl | hg'
      · refine ⟨hlt, hrest, fun u g hret => ?_, hsrc⟩
        rw [returns] at hret
        split at hret
        · cases hret
        · cases hret
          exact ⟨hv, carries_exec hcarries⟩
      · have hold := h.formed g (Multiset.mem_cons_of_mem hg')
        cases g with
        | waitSlice d | setCounter d =>
          exact ⟨hold.1, fun e he u hu => hmono u e (hold.2 e he u hu)⟩
        | _ => exact hold
    main := h.main_goes (by cases s <;> rfl)
    tasks := fun u d => by
      have hold := h.tasks u d
      rw [running_goes (hruns u d), hpool, hhand]
      change _ + _ + m.reached.count (u, d) ≤ _
      omega
    sinkTasks := fun u d hu => by
      have hold := h.sinkTasks u d hu
      rw [running_goes (hruns u d), hpool, hhand]
      change _ + _ + m.reached.count (u, d) = _
      omega
    sent := fun w hw i hi d => by
      have hold := h.sent w hw i hi d
      rw [owed_cons] at hold ⊢
      have hcreated : created N (m.nodeStep N v fr) w i d + pooled N m w i d =
          created N m w i d + pooled N (m.nodeStep N v fr) w i d := by
        rw [created, created, pooled, pooled]
        cases hs : N.sender w i with
        | source k => rfl
        | node u =>
          simp only [hhand, hpool]
          omega
      -- what is delivered is not owed any more
      have hmoved : (if i ∈ ((m.nodeStep N v fr).node w).arrived d then 1 else 0) +
          (NetFrame.send s c rest (returns v (exec (N.shape v) none (m.node v) fr).2)).owes w i d =
          (if i ∈ (m.node w).arrived d then 1 else 0) +
            (NetFrame.send s c rest (some (v, fr))).owes w i d := by
        have hret : owesCall w i d (returns v (exec (N.shape v) none (m.node v) fr).2) =
            if v = w ∧ (fr.undelivered = some (i, d) ∧ fr ≠ .store i d) then 1 else 0 := by
          have hund := undelivered_exec hnode hg i d
          rw [returns]
          split
          · next hup =>
            rw [hup] at hund
            have hnone : ¬ (v = w ∧ (fr.undelivered = some (i, d) ∧ fr ≠ .store i d)) := by
              rintro ⟨-, hx⟩
              cases hund.mpr hx
            rw [if_neg hnone]
            rfl
          · exact if_congr (and_congr_right fun _ => hund) rfl rfl
        simp only [NetFrame.owes, hret, NetMemory.mem_arrived_nodeStep]
        by_cases hst : w = v ∧ fr = .store i d
        · obtain ⟨rfl, rfl⟩ := hst
          obtain ⟨-, hnot, -⟩ := hg
          have hdc : c = d := hcarries.1.symm
          simp only [owesCall, Frame.undelivered, hdc, hnot, and_self, or_true, if_true, ne_eq,
            not_true_eq_false, and_false, if_false]
          omega
        · simp only [hst, or_false]
          by_cases hvw : v = w
          · subst hvw
            have hne : fr ≠ .store i d := fun he => hst ⟨rfl, he⟩
            simp only [owesCall, hne, ne_eq, not_false_eq_true, and_true]
          · simp only [owesCall, hvw, false_and, if_false]
      omega
    emitted := fun u d i hi => by
      rcases (m.mem_arrived_nodeStep N v fr).mp hi with hi | ⟨rfl, rfl⟩
      · exact h.emitted u d i hi
      · refine ⟨hv, ?_⟩
        rw [hcarries.1]
        exact hlt
    groups := fun t => by
      have hold := h.groups t
      rw [working_cons] at hold ⊢
      change m.group t + (fr.hands.countP fun c => c % N.slices = t) =
        ((m.pool ++ fr.hands.map fun c => (v, c)).countP fun x => x.2 % N.slices = t) + _
      have hw : (NetFrame.send s c rest
          (returns v (exec (N.shape v) none (m.node v) fr).2)).works N t =
          (NetFrame.send s c rest (some (v, fr))).works N t := by
        cases s <;> rfl
      have hmap : ((fr.hands.map fun c => (v, c)).countP fun x => x.2 % N.slices = t) =
          fr.hands.countP fun c => c % N.slices = t := List.countP_map ..
      rw [List.countP_append, hw, hmap]
      omega
    left := fun d hd u hu => hmono u d (h.left d hd u hu)
    gone := fun d hd => by
      have hmem := passed_of (f := NetFrame.send s c rest (some (v, fr)))
        (fun _ he => by cases he) hd
      obtain ⟨h1, h2⟩ := h.gone d hmem
      refine ⟨fun x hx hxd => ?_, fun g hg' => ?_⟩
      · rcases List.mem_append.mp hx with hx | hx
        · exact h1 x hx hxd
        · obtain ⟨e, he, rfl⟩ := List.mem_map.mp hx
          have hed : e = d := hxd
          subst hed
          have hold := List.count_pos_iff.mpr (h.handed_of_passed hmem v hv)
          have hadd := List.count_pos_iff.mpr he
          have hone := List.nodup_iff_count_le_one.mp hnew.nodup e
          rw [enqueued_exec, List.count_append] at hone
          omega
      · rcases Multiset.mem_cons.mp hg' with rfl | hg'
        · exact h2 (.send s c rest (some (v, fr))) (Multiset.mem_cons_self _ _)
        · exact h2 g (Multiset.mem_cons_of_mem hg')
    counter := h.counter
    ran := h.ran }

theorem exec (h : NetWorks N m (f ::ₘ others)) (choice : ℕ) :
    NetWorks N (netExec N choice m f).1 ((netExec N choice m f).2 ::ₘ others) := by
  cases f with
  | waitSinks c => exact h.exec_waitSinks choice
  | waitSlice c => exact h.exec_waitSlice choice
  | setCounter c => exact h.exec_setCounter
  | start c k => exact h.exec_start choice
  | finalSinks ii c => exact h.exec_final (Or.inl ⟨ii, c, rfl⟩)
  | finalSlice ii c => exact h.exec_final (Or.inr (Or.inl ⟨ii, c, rfl⟩))
  | destroy ii => exact h.exec_final (Or.inr (Or.inr (Or.inl ⟨ii, rfl⟩)))
  | done => exact h.exec_final (Or.inr (Or.inr (Or.inr rfl)))
  | send s c rest call =>
    cases call with
    | some x => exact h.exec_call
    | none =>
      cases rest with
      | nil => exact h.exec_return choice
      | cons x rest => exact h.exec_target
  | sinkRun v c => exact h.exec_sinkRun choice
  | endTask c => exact h.exec_endTask
  | idle =>
    simp only [netExec]
    split
    · exact h.exec_take ‹_›
    · exact h
  | sinkThrown => exact absurd (h.formed _ (Multiset.mem_cons_self _ _)) not_false

/-- When all sinks have run a clock, as many have as there are. -/
theorem le_reachedBy {c : ℕ} (hall : ∀ v < N.nodes, N.sink v = true → (v, c) ∈ m.reached) :
    N.sinkCount ≤ reachedBy m c := by
  have hsub : N.sinks ⊆ (m.reached.filter fun x => x.2 = c).map Prod.fst := fun v hv => by
    obtain ⟨hlt, hs⟩ := List.mem_filter.mp hv
    exact List.mem_map.mpr ⟨(v, c), List.mem_filter.mpr
      ⟨hall v (List.mem_range.mp hlt) hs, decide_eq_true rfl⟩, rfl⟩
  have hle := (List.subperm_of_subset (nodup_sinks N) hsub).length_le
  rwa [List.length_map, ← List.countP_eq_length_filter] at hle

/-- A sink has run the clocks whose slots are used again. -/
theorem reached_of_left (h : NetWorks N m fs) {c : ℕ} (hc : c + N.slices < m.emitted) {v : ℕ}
    (hv : v < N.nodes) (hs : N.sink v = true) : (v, c) ∈ m.reached := by
  obtain ⟨h1, h2⟩ := h.gone c (Or.inl hc)
  have hhand := List.count_pos_iff.mpr (h.left c hc v hv)
  have htasks := h.sinkTasks v c hs
  have hpool : m.pool.count (v, c) = 0 := List.count_eq_zero.mpr fun hmem => h1 _ hmem rfl
  have hrun : running fs v c = 0 := Multiset.countP_eq_zero.mpr fun g hg hr => by
    refine h2 g hg ?_
    cases g with
    | send s d rest call =>
      cases s with
      | source k => cases hr
      | node u =>
        obtain ⟨-, rfl⟩ := of_decide_eq_true hr
        rfl
    | sinkRun u d =>
      obtain ⟨-, rfl⟩ := of_decide_eq_true hr
      rfl
    | _ => cases hr
  exact List.count_pos_iff.mp (by omega)

theorem started_at_rest (h : NetWorks N m fs) (hrest : ∀ f ∈ fs, f.waits = true) :
    ∀ k < N.sources, m.started k = m.emitted := by
  have hmain : 0 < mains fs := by rw [h.main]; exact Nat.one_pos
  obtain ⟨g, hg, hmg⟩ := Multiset.countP_pos.mp hmain
  have hform := h.formed g hg
  have hwait := hrest g hg
  intro k hk
  cases g with
  | waitSinks c => exact (hform.2 k hk).trans hform.1.symm
  | waitSlice c => exact (hform.1.2 k hk).trans hform.1.1.symm
  | finalSinks ii c | finalSlice ii c => exact (hform.2 k hk).trans hform.1.symm
  | destroy ii => exact hform k hk
  | done => exact hform k hk
  | idle => cases hmg
  | _ => cases hwait

theorem running_at_rest (hrest : ∀ f ∈ fs, f.waits = true) (v c : ℕ) : running fs v c = 0 :=
  Multiset.countP_eq_zero.mpr fun g hg hr => by
    have hwait := hrest g hg
    cases g with
    | send | sinkRun => cases hwait
    | _ => cases hr

/-- When everything is at rest, every node has handed over every clock. -/
theorem handed_at_rest (h : NetWorks N m fs) (hpool : m.pool = [])
    (hrest : ∀ f ∈ fs, f.waits = true) {w : ℕ} (hw : w < N.nodes) :
    ∀ c < m.emitted, c ∈ (m.node w).enqueued := by
  have howed : ∀ w i c, owed fs w i c = 0 := fun w i c => by
    refine Multiset.sum_eq_zero fun x hx => ?_
    obtain ⟨g, hg, rfl⟩ := Multiset.mem_map.mp hx
    have hwait := hrest g hg
    cases g with
    | send => cases hwait
    | _ => rfl
  induction w using Nat.strong_induction_on with
  | _ w ih =>
    have hcomp : ∀ c < m.emitted, (m.node w).Complete (N.shape w) c := by
      intro c hc i hi
      have hsent := h.sent w hw i hi c
      have hcreated : 0 < created N m w i c := by
        rw [created]
        split
        · next k hs =>
          rw [h.started_at_rest hrest k (N.source_lt w hw i hi k hs), if_pos hc]
          exact Nat.one_pos
        · next v hs =>
          have hlt := N.node_lt w hw i hi v hs
          exact List.count_pos_iff.mpr (ih v hlt (hlt.trans hw) c hc)
      have hpooled : pooled N m w i c = 0 := by
        rw [pooled, hpool]
        split <;> rfl
      by_contra hn
      rw [if_neg hn, howed, hpooled] at hsent
      omega
    refine (h.nodes w).handed_of_idle (fun f hf => ?_) ?_ hcomp
    · obtain ⟨g, hg, rfl⟩ := Multiset.mem_map.mp hf
      have hwait := hrest g hg
      cases g with
      | send => cases hwait
      | _ => rfl
    · rintro ⟨c, ⟨i, hi⟩, hn⟩
      exact hn (hcomp c (h.emitted w c i hi).2)

/-- When everything is at rest, the sinks have been run for the emitted clocks and no others. -/
theorem reached_at_rest (h : NetWorks N m fs) (hpool : m.pool = [])
    (hrest : ∀ f ∈ fs, f.waits = true) (v c : ℕ) :
    m.reached.count (v, c) = if v < N.nodes ∧ N.sink v = true ∧ c < m.emitted then 1 else 0 := by
  split
  · next hall =>
    obtain ⟨hv, hs, hc⟩ := hall
    have hhanded := List.count_pos_iff.mpr (h.handed_at_rest hpool hrest hv c hc)
    have hone := List.nodup_iff_count_le_one.mp (h.nodes v).nodup c
    have htasks := h.sinkTasks v c hs
    rw [hpool, List.count_nil, running_at_rest hrest] at htasks
    omega
  · next hnot =>
    refine List.count_eq_zero.mpr fun hmem => hnot ?_
    obtain ⟨hs, hv⟩ := h.ran _ hmem
    have hpos := List.count_pos_iff.mpr hmem
    exact ⟨hv, hs, (h.lt_of_handed (v := v) (h.handed_of_task (by omega))).2⟩

/-- When everything is at rest, nothing is left in any group. -/
theorem group_at_rest (h : NetWorks N m fs) (hpool : m.pool = [])
    (hrest : ∀ f ∈ fs, f.waits = true) (s : ℕ) : m.group s = 0 := by
  have hworking : working N fs s = 0 := Multiset.countP_eq_zero.mpr fun g hg hw => by
    have hwait := hrest g hg
    cases g with
    | send | sinkRun | endTask => cases hwait
    | _ => cases hw
  rw [h.groups, hpool, hworking]
  rfl

end NetWorks

theorem netWorks_preserved (N : Network) :
    Preserves (netCode N) (fun _ _ _ _ _ => True) (NetWorks N) := by
  intro t choice f m others h _
  have hnew := h.exec choice
  rwa [← Multiset.singleton_add] at hnew

theorem netWorks_boot (N : Network) (workers : ℕ) :
    NetWorks N (netBoot N workers).mem (netBoot N workers).frames := by
  have hframes : (netBoot N workers).frames =
      .waitSinks 0 ::ₘ Multiset.replicate workers .idle := State.frames_boot ..
  have hcases : ∀ f ∈ (netBoot N workers).frames, f = .waitSinks 0 ∨ f = .idle := fun f hf => by
    rw [hframes] at hf
    rcases Multiset.mem_cons.mp hf with rfl | hf
    · exact Or.inl rfl
    · exact Or.inr (Multiset.eq_of_mem_replicate hf)
  have hrun : ∀ v c, running (netBoot N workers).frames v c = 0 := fun v c =>
    Multiset.countP_eq_zero.mpr fun f hf hr => by
      rcases hcases f hf with rfl | rfl <;> cases hr
  have hwork : ∀ s, working N (netBoot N workers).frames s = 0 := fun s =>
    Multiset.countP_eq_zero.mpr fun f hf hr => by
      rcases hcases f hf with rfl | rfl <;> cases hr
  have howed : ∀ w i c, owed (netBoot N workers).frames w i c = 0 := fun w i c => by
    refine Multiset.sum_eq_zero fun x hx => ?_
    obtain ⟨g, hg, rfl⟩ := Multiset.mem_map.mp hx
    rcases hcases g hg with rfl | rfl <;> rfl
  refine ⟨fun v => nodeWorks_init _ fun f hf => ?_, fun f hf => ?_, ?_, fun v c => ?_,
    fun v c _ => ?_, fun w _ i _ c => ?_, ?_, fun s => ?_, ?_, ?_, ?_, ?_⟩
  · obtain ⟨g, hg, rfl⟩ := Multiset.mem_map.mp hf
    rcases hcases g hg with rfl | rfl <;> rfl
  · rcases hcases f hf with rfl | rfl
    · exact ⟨rfl, fun _ _ => rfl⟩
    · trivial
  · have hzero : mains (Multiset.replicate workers NetFrame.idle) = 0 :=
      Multiset.countP_eq_zero.mpr fun f hf hm => by
        rw [Multiset.eq_of_mem_replicate hf] at hm
        cases hm
    rw [hframes, mains_cons, hzero]
    rfl
  · rw [hrun]
    exact Nat.zero_le _
  · rw [hrun]
    rfl
  · rw [howed, created, pooled]
    split <;> rfl
  · exact fun w c i hi => absurd hi (Finset.notMem_empty i)
  · rw [hwork]
    rfl
  · exact fun c hc => absurd hc (Nat.not_lt_zero _)
  · rintro c (hc | hc)
    · exact absurd hc (Nat.not_lt_zero _)
    · rcases hcases _ hc with hc | hc <;> cases hc
  · exact fun c hc => absurd hc (Nat.not_lt_zero _)
  · exact fun x hx => absurd hx List.not_mem_nil

/-- No exception is thrown. A sink runs a clock at most once, and the counter of a slot is what
is left of the number of sinks. A slot is used again when all sinks have run the clock before
and nothing works for it any more. When no task is left and only the main thread waits, every
sink has run every clock once, and what it waits for is zero. -/
theorem clocks_reach_sinks (N : Network) (workers : ℕ) (es : List (ℕ × ℕ)) :
    let s := run (netCode N) (netBoot N workers) es
    (∀ f ∈ s.frames, f ≠ .sinkThrown ∧ ∀ sender c rest v,
        f ≠ .send sender c rest (some (v, .thrown))) ∧
      (∀ v c, s.mem.reached.count (v, c) ≤ 1) ∧
      (∀ c < s.mem.emitted, s.mem.emitted ≤ c + N.slices →
        s.mem.sinkCounter (c % N.slices) + reachedBy s.mem c = N.sinkCount ∧
          0 ≤ s.mem.sinkCounter (c % N.slices)) ∧
      (∀ c, c + N.slices < s.mem.emitted →
        (∀ v < N.nodes, N.sink v = true → (v, c) ∈ s.mem.reached) ∧ Gone s.mem s.frames c) ∧
      (s.mem.pool = [] → (∀ f ∈ s.frames, f.waits = true) →
        (∀ c < s.mem.emitted,
          (∀ v < N.nodes, N.sink v = true → s.mem.reached.count (v, c) = 1) ∧
            (s.mem.emitted ≤ c + N.slices → s.mem.sinkCounter (c % N.slices) = 0)) ∧
          ∀ slice, s.mem.group slice = 0) := by
  intro s
  have h : NetWorks N s.mem s.frames :=
    (netWorks_preserved N).run (Always.of_forall (fun _ _ _ _ _ => trivial) _ _)
      (netWorks_boot N workers)
  have hbound : ∀ c, reachedBy s.mem c ≤ N.sinkCount := fun c =>
    (NetWorks.reachedBy_le h.ran fun v => h.reached_count_le v c).1
  refine ⟨fun f hf => ⟨?_, ?_⟩, h.reached_count_le, fun c hc hc' => ?_, fun c hc => ?_,
    fun hpool hrest => ⟨fun c hc => ?_, h.group_at_rest hpool hrest⟩⟩
  · rintro rfl
    exact h.formed _ hf
  · rintro sender c rest v rfl
    have hcall := (h.nodes v).arrived.found _ (Multiset.mem_map_of_mem (NetFrame.calling v) hf)
    simp only [NetFrame.calling, if_true] at hcall
    exact hcall
  · have hcounter := h.counter c hc hc'
    have hle := hbound c
    exact ⟨hcounter, by omega⟩
  · exact ⟨fun v hv hs => h.reached_of_left hc hv hs, h.gone c (Or.inl hc)⟩
  · have hone : ∀ v < N.nodes, N.sink v = true → s.mem.reached.count (v, c) = 1 := by
      intro v hv hs
      rw [h.reached_at_rest hpool hrest, if_pos ⟨hv, hs, hc⟩]
    refine ⟨hone, fun hc' => ?_⟩
    have hcounter := h.counter c hc hc'
    have hle := NetWorks.le_reachedBy fun v hv hs => List.count_pos_iff.mp
      (by rw [hone v hv hs]; exact Nat.one_pos)
    have hge := hbound c
    omega

/-- The connections of a source, a process and a sink in a row. -/
def pipelineTargets : Sender → List (ℕ × ℕ)
  | .source 0 => [(0, 0)]
  | .node 0 => [(1, 0)]
  | _ => []

def pipelineSender (w : ℕ) : Sender := if w = 0 then .source 0 else .node 0

theorem mem_pipelineTargets (s : Sender) (w i : ℕ) :
    (w, i) ∈ pipelineTargets s ↔ w < 2 ∧ i < 1 ∧ pipelineSender w = s := by
  match s with
  | .source 0 | .node 0 | .source (k + 1) | .node (v + 1) =>
    by_cases hw : w = 0 <;> simp [pipelineTargets, pipelineSender, hw] <;> omega

theorem nodup_pipelineTargets (s : Sender) : (pipelineTargets s).Nodup := by
  unfold pipelineTargets
  split <;> simp

theorem lt_of_pipelineSender_source {w k : ℕ} (h : pipelineSender w = .source k) : k < 1 := by
  unfold pipelineSender at h
  split_ifs at h
  cases h
  exact Nat.one_pos

theorem lt_of_pipelineSender_node {w v : ℕ} (h : pipelineSender w = .node v) : v < w := by
  unfold pipelineSender at h
  split_ifs at h
  cases h
  omega

theorem pipelineTargets_ne_nil {v : ℕ} (hv : v < 2) (h : decide (v = 1) = false) :
    pipelineTargets (.node v) ≠ [] := by
  have hne : v ≠ 1 := of_decide_eq_false h
  have hzero : v = 0 := by omega
  subst hzero
  exact List.cons_ne_nil _ _

theorem pipelineTargets_eq_nil {v : ℕ} (h : decide (v = 1) = true) :
    pipelineTargets (.node v) = [] := by
  have hone : v = 1 := of_decide_eq_true h
  subst hone
  rfl

/-- A source, a parallel process and a sink. -/
def pipeline : Network where
  slices := 2
  nodes := 2
  sources := 1
  inputs := fun _ => 1
  serial v := v = 1
  sink v := v = 1
  sender w _ := pipelineSender w
  targets := pipelineTargets
  slices_pos := Nat.two_pos
  inputs_pos _ := Nat.one_pos
  mem_targets := mem_pipelineTargets
  nodup_targets := nodup_pipelineTargets
  source_lt _ _ _ _ _ hs := lt_of_pipelineSender_source hs
  node_lt _ _ _ _ _ hs := lt_of_pipelineSender_node hs
  used _ hv hs := pipelineTargets_ne_nil hv hs
  sink_targets _ hs := pipelineTargets_eq_nil hs
  sink_serial _ hs := hs

/-- One clock goes through the pipeline. -/
def oneClock : List (ℕ × ℕ) :=
  List.replicate 16 (0, 0) ++ List.replicate 24 (1, 0) ++ List.replicate 4 (0, 0)

theorem clocks_reach_sinks_once :
    (run (netCode pipeline) (netBoot pipeline 1) oneClock).mem.reached.count (1, 0) = 1 :=
  (((clocks_reach_sinks pipeline 1 oneClock).2.2.2.2 (by decide +kernel) (by decide +kernel)).1 0
    (by decide +kernel)).1 1 (by decide) (by decide)

end Embb.Dataflow
