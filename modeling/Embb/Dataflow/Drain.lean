import Embb.Dataflow.Tokens

/-!
# The end of a network

A source says after each run whether it goes on, and one that does not ends the loop of
`Network::operator()`. The clock at which it stops is emitted as well; the loop that follows waits
for the clocks before it, and for the last one only the destructor of the scheduler waits, slice by
slice. When it has passed the slice of that clock nothing is left that could enqueue a task for a
slice it has already looked at.

A network is run once: its inputs pass on the initialisation of the first run only.
-/

namespace Embb.Dataflow

open Threads

/-- `not_done_` of the sources and the `result` of `SpawnClock`, and which sources have been
called for which clocks; the code does not keep the last. -/
structure Sources where
  notDone : ℕ → Bool
  result : Bool
  calls : List (ℕ × ℕ)

namespace Sources

def init : Sources := ⟨fun _ => true, true, []⟩

/-- `result &= sources_[kk]->Start(clock)` for a source that has not ended: its function is called
and returns whether to go on. This is stored when its signals have been sent; nobody reads it
before. -/
def call (s : Sources) (k c : ℕ) (returned : Bool) : Sources where
  notDone := Function.update s.notDone k returned
  result := s.result && returned
  calls := s.calls ++ [(k, c)]

end Sources

/-- One step, with the values that the functions of the sources return for each clock. -/
def drainExec (N : Network) (returns : ℕ → ℕ → Bool) (choice : ℕ) (f : NetFrame)
    (m : NetMemory × Sources) : (NetMemory × Sources) × NetFrame :=
  match f with
  | .setCounter c =>
    let r := netExec N choice m.1 (.setCounter c)
    ((r.1, { m.2 with result := true }), r.2)
  | .start c k =>
    if k < N.sources then
      if m.2.notDone k then
        let r := netExec N choice m.1 (.start c k)
        ((r.1, m.2.call k c (returns k c)), r.2)
      else ((m.1, { m.2 with result := false }), .start c (k + 1))
    else
      let r := netExec N (if m.2.result then 1 else 0) m.1 (.start c k)
      ((r.1, m.2), r.2)
  | f =>
    let r := netExec N choice m.1 f
    ((r.1, m.2), r.2)

def drainCode (N : Network) (returns : ℕ → ℕ → Bool) : Code (NetMemory × Sources) NetFrame ℕ :=
  fun _ choice f m => ((drainExec N returns choice f m).1, [(drainExec N returns choice f m).2])

/-- The main thread and any number of workers, before the first clock. -/
def drainBoot (N : Network) (workers : ℕ) : State (NetMemory × Sources) NetFrame :=
  ⟨(NetMemory.init N, Sources.init),
    [.waitSinks 0] :: List.replicate workers [.idle]⟩

/-- All sources go on after each of the first clocks. -/
def GoOn (N : Network) (returns : ℕ → ℕ → Bool) (c : ℕ) : Prop :=
  ∀ d < c, ∀ k < N.sources, returns k d = true

/-- The first clock at which a source returns false. -/
def FirstEnd (N : Network) (returns : ℕ → ℕ → Bool) (c : ℕ) : Prop :=
  GoOn N returns c ∧ ∃ k < N.sources, returns k c = false

/-- All nodes have handed over the clock, and nothing works for it any more. -/
def Finished (N : Network) (m : NetMemory) (fs : Multiset NetFrame) (c : ℕ) : Prop :=
  (∀ v < N.nodes, c ∈ (m.node v).enqueued) ∧ Gone m fs c

/-- No task is left, and nobody works. -/
def AtRest (m : NetMemory) (fs : Multiset NetFrame) : Prop :=
  m.pool = [] ∧ ∀ f ∈ fs, f.waits = true

/-- What the main thread knows while it starts the sources of a clock, the first of which it has
started already. -/
structure Starting (N : Network) (returns : ℕ → ℕ → Bool) (s : Sources) (c k : ℕ) : Prop where
  goOn : GoOn N returns c
  notDone : ∀ j < N.sources, s.notDone j = if j < k then returns j c else true
  result : s.result = true ↔ ∀ j < N.sources, j < k → returns j c = true

namespace NetFrame

/-- What holds where the main thread is. -/
def Drains (N : Network) (returns : ℕ → ℕ → Bool) (m : NetMemory × Sources)
    (fs : Multiset NetFrame) : NetFrame → Prop
  | .waitSinks c | .waitSlice c | .setCounter c =>
    GoOn N returns c ∧ ∀ k < N.sources, m.2.notDone k = true
  | .start c k => Starting N returns m.2 c k
  | .send (.source k) c _ _ => Starting N returns m.2 c (k + 1)
  | .finalSinks ii c =>
    FirstEnd N returns c ∧ c + 1 ≤ ii + N.slices ∧ ∀ d < ii, Finished N m.1 fs d
  | .finalSlice ii c =>
    FirstEnd N returns c ∧ c + 1 ≤ ii + N.slices ∧ (∀ d < ii, Finished N m.1 fs d) ∧
      ∀ v < N.nodes, ii ∈ (m.1.node v).enqueued
  | .destroy ii =>
    ∃ c, m.1.emitted = c + 1 ∧ FirstEnd N returns c ∧ (∀ d < c, Finished N m.1 fs d) ∧
      (c % N.slices < ii → AtRest m.1 fs)
  | .done => ∃ c, m.1.emitted = c + 1 ∧ FirstEnd N returns c ∧ AtRest m.1 fs
  | _ => True

/-- The main thread has left the loop that emits clocks. -/
def isFinal : NetFrame → Bool
  | .finalSinks _ _ | .finalSlice _ _ | .destroy _ | .done => true
  | _ => false

end NetFrame

/-- The invariant of a network whose sources end. -/
structure Draining (N : Network) (returns : ℕ → ℕ → Bool) (m : NetMemory × Sources)
    (fs : Multiset NetFrame) : Prop where
  works : NetWorks N m.1 fs
  drains : ∀ f ∈ fs, f.Drains N returns m fs
  calls : ∀ k c, m.2.calls.count (k, c) = if k < N.sources ∧ c < m.1.started k then 1 else 0

namespace NetWorks

variable {N : Network} {m : NetMemory} {f : NetFrame} {fs others : Multiset NetFrame}
  {s : Sender} {c v : ℕ} {rest : List (ℕ × ℕ)} {fr : Frame}

/-- What a node has handed over stays handed over. -/
theorem mem_enqueued_exec (choice : ℕ) (f : NetFrame) {v c : ℕ} (h : c ∈ (m.node v).enqueued) :
    c ∈ (((netExec N choice m f).1).node v).enqueued := by
  cases f with
  | send s d rest call =>
    cases call with
    | none =>
      cases rest with
      | nil => cases s <;> exact h
      | cons x rest => exact h
    | some x =>
      obtain ⟨w, fr⟩ := x
      show c ∈ ((m.nodeStep N w fr).node v).enqueued
      rw [m.enqueued_nodeStep N w fr v]
      exact List.mem_append_left _ h
  | start c k =>
    simp only [netExec]
    split <;> exact h
  | idle =>
    simp only [netExec]
    split <;> exact h
  | _ => exact h

/-- A node does not hand over a clock again. -/
theorem not_hands (h : NetWorks N m (.send s c rest (some (v, fr)) ::ₘ others)) {d : ℕ}
    (hd : d ∈ (m.node v).enqueued) : d ∉ fr.hands := by
  intro hmem
  have hnew := h.exec_call
  have hone := List.nodup_iff_count_le_one.mp (hnew.nodes v).nodup d
  rw [m.enqueued_nodeStep N v fr v, if_pos rfl, List.count_append] at hone
  have h₁ := List.count_pos_iff.mpr hd
  have h₂ := List.count_pos_iff.mpr hmem
  omega

/-- A finished clock stays so, unless the main thread starts it. -/
theorem finished_exec (h : NetWorks N m (f ::ₘ others)) (choice : ℕ)
    (hf : ∀ c k, f ≠ .start c k) {d : ℕ} (hd : Finished N m (f ::ₘ others) d) :
    Finished N (netExec N choice m f).1 ((netExec N choice m f).2 ::ₘ others) d := by
  obtain ⟨hall, hpool, hclock⟩ := hd
  have hself := hclock f (Multiset.mem_cons_self _ _)
  have key : ∀ (m' : NetMemory) (f' : NetFrame), (∀ v < N.nodes, d ∈ (m'.node v).enqueued) →
      (∀ x ∈ m'.pool, x.2 ≠ d) → f'.clock ≠ some d → Finished N m' (f' ::ₘ others) d := by
    refine fun m' f' h₁ h₂ h₃ => ⟨h₁, h₂, fun g hg => ?_⟩
    rcases Multiset.mem_cons.mp hg with rfl | hg
    · exact h₃
    · exact hclock g (Multiset.mem_cons_of_mem hg)
  have hall' : ∀ v < N.nodes, d ∈ ((netExec N choice m f).1.node v).enqueued := fun v hv =>
    mem_enqueued_exec choice f (hall v hv)
  cases f with
  | start c k => exact absurd rfl (hf c k)
  | send s c rest call =>
    cases call with
    | none =>
      cases rest with
      | nil =>
        cases s with
        | source k => exact key _ _ hall' hpool fun he => by cases he
        | node v =>
          refine key _ _ hall' hpool ?_
          simp only [netExec]
          split <;> exact hself
      | cons x rest => exact key _ _ hall' hpool hself
    | some x =>
      obtain ⟨w, fr⟩ := x
      refine key _ _ hall' (fun x hx => ?_) hself
      obtain ⟨-, -, hcall, -⟩ := h.formed _ (Multiset.mem_cons_self _ _)
      rcases List.mem_append.mp hx with hx | hx
      · exact hpool x hx
      · obtain ⟨e, he, rfl⟩ := List.mem_map.mp hx
        rintro rfl
        exact h.not_hands (hall w (hcall w fr rfl).1) he
  | sinkRun v c =>
    refine key _ _ hall' hpool ?_
    simp only [netExec]
    split
    · exact fun he => by cases he
    · exact hself
  | idle =>
    revert hall'
    simp only [netExec]
    split
    · rename_i v c hx
      intro hall'
      obtain ⟨hlt, hget⟩ := List.getElem?_eq_some_iff.mp hx
      refine key _ _ hall' (fun x hx => hpool x (List.mem_of_mem_eraseIdx hx)) fun he => ?_
      have hc : some c = some d := he
      exact hpool _ (hget ▸ List.getElem_mem hlt) (Option.some.inj hc)
    · exact fun hall' => key _ _ hall' hpool hself
  | endTask c => exact key _ _ hall' hpool fun he => by cases he
  | setCounter c => exact key _ _ hall' hpool fun he => by cases he
  | waitSinks | waitSlice | finalSinks | finalSlice | destroy =>
    refine key _ _ hall' hpool ?_
    simp only [netExec]
    repeat' split
    all_goals exact fun he => by cases he
  | done | sinkThrown => exact key _ _ hall' hpool fun he => by cases he

/-- A worker emits nothing, and stays a worker. -/
theorem exec_worker (N : Network) (choice : ℕ) (m : NetMemory) {f : NetFrame}
    (hf : f.isMain = false) :
    (netExec N choice m f).1.emitted = m.emitted ∧
      (netExec N choice m f).1.started = m.started ∧
      (netExec N choice m f).2.isMain = false := by
  cases f with
  | send s c rest call =>
    cases s with
    | source k => cases hf
    | node v =>
      cases call with
      | some x => exact ⟨rfl, rfl, rfl⟩
      | none =>
        cases rest with
        | nil =>
          refine ⟨rfl, rfl, ?_⟩
          simp only [netExec]
          split <;> rfl
        | cons x rest => exact ⟨rfl, rfl, rfl⟩
  | sinkRun v c =>
    refine ⟨rfl, rfl, ?_⟩
    simp only [netExec]
    split <;> rfl
  | endTask c => exact ⟨rfl, rfl, rfl⟩
  | idle =>
    simp only [netExec]
    split <;> exact ⟨rfl, rfl, rfl⟩
  | sinkThrown => exact ⟨rfl, rfl, rfl⟩
  | _ => cases hf

/-- Nothing happens to workers at rest. -/
theorem atRest_worker (choice : ℕ) (hf : f.isMain = false) (hr : AtRest m (f ::ₘ others)) :
    AtRest (netExec N choice m f).1 ((netExec N choice m f).2 ::ₘ others) := by
  have hwait := hr.2 f (Multiset.mem_cons_self _ _)
  cases f with
  | idle =>
    have hnone : m.pool[choice]? = none := by
      rw [hr.1]
      rfl
    simp only [netExec, hnone]
    exact hr
  | waitSinks | waitSlice | finalSinks | finalSlice | destroy | done => cases hf
  | _ => cases hwait

end NetWorks

namespace Draining

variable {N : Network} {returns : ℕ → ℕ → Bool} {m : NetMemory × Sources} {f g : NetFrame}
  {fs others : Multiset NetFrame}

/-- What the main thread knows does not change when a worker takes a step. -/
theorem drains_worker (h : NetWorks N m.1 (f ::ₘ others)) (choice : ℕ) (hf : f.isMain = false)
    (hg : g.Drains N returns m (f ::ₘ others)) :
    g.Drains N returns ((netExec N choice m.1 f).1, m.2)
      ((netExec N choice m.1 f).2 ::ₘ others) := by
  have hstart : ∀ c k, f ≠ .start c k := by
    rintro c k rfl
    cases hf
  obtain ⟨hemitted, -, -⟩ := NetWorks.exec_worker N choice m.1 hf
  cases g with
  | finalSinks ii c =>
    exact ⟨hg.1, hg.2.1, fun d hd => h.finished_exec choice hstart (hg.2.2 d hd)⟩
  | finalSlice ii c =>
    exact ⟨hg.1, hg.2.1, fun d hd => h.finished_exec choice hstart (hg.2.2.1 d hd),
      fun v hv => NetWorks.mem_enqueued_exec choice f (hg.2.2.2 v hv)⟩
  | destroy ii =>
    obtain ⟨c, he, hend, hfin, hrest⟩ := hg
    exact ⟨c, hemitted.trans he, hend, fun d hd => h.finished_exec choice hstart (hfin d hd),
      fun hlt => NetWorks.atRest_worker choice hf (hrest hlt)⟩
  | done =>
    obtain ⟨c, he, hend, hrest⟩ := hg
    exact ⟨c, hemitted.trans he, hend, NetWorks.atRest_worker choice hf hrest⟩
  | send s c rest call => cases s <;> exact hg
  | _ => exact hg

/-- A step of a worker. -/
theorem worker (h : Draining N returns m (f ::ₘ others)) (choice : ℕ) (hf : f.isMain = false) :
    Draining N returns ((netExec N choice m.1 f).1, m.2)
      ((netExec N choice m.1 f).2 ::ₘ others) := by
  obtain ⟨-, hstarted, hmain⟩ := NetWorks.exec_worker N choice m.1 hf
  refine ⟨h.works.exec choice, fun g hg => ?_, fun k c => ?_⟩
  · rcases Multiset.mem_cons.mp hg with rfl | hg
    · generalize (netExec N choice m.1 f).2 = f' at hmain
      cases f' with
      | send s c rest call =>
        cases s with
        | source k => cases hmain
        | node v => trivial
      | sinkRun | endTask | idle | sinkThrown => trivial
      | _ => cases hmain
    · exact drains_worker h.works choice hf (h.drains g (Multiset.mem_cons_of_mem hg))
  · rw [hstarted]
    exact h.calls k c

/-- A step of the main thread. -/
theorem main_step {m' : NetMemory × Sources} {f' : NetFrame}
    (h : Draining N returns m (f ::ₘ others)) (hf : f.isMain = true)
    (hworks : NetWorks N m'.1 (f' ::ₘ others))
    (hdrains : f'.Drains N returns m' (f' ::ₘ others))
    (hcalls : ∀ k c, m'.2.calls.count (k, c) =
      if k < N.sources ∧ c < m'.1.started k then 1 else 0) :
    Draining N returns m' (f' ::ₘ others) := by
  refine ⟨hworks, fun g hg => ?_, hcalls⟩
  rcases Multiset.mem_cons.mp hg with rfl | hg
  · exact hdrains
  · have hworker := h.works.not_main hf g hg
    cases g with
    | send s c rest call =>
      cases s with
      | source k => cases hworker
      | node v => trivial
    | sinkRun | endTask | idle | sinkThrown => trivial
    | _ => cases hworker

/-- What a step of the main thread that starts no source leaves of the nodes. -/
theorem calls_of_started {m' : NetMemory × Sources} (h : Draining N returns m fs)
    (hcalls : m'.2.calls = m.2.calls) (hstarted : m'.1.started = m.1.started) (k c : ℕ) :
    m'.2.calls.count (k, c) = if k < N.sources ∧ c < m'.1.started k then 1 else 0 := by
  rw [hcalls, hstarted]
  exact h.calls k c

theorem exec_setCounter {c : ℕ} (h : Draining N returns m (.setCounter c ::ₘ others)) :
    Draining N returns
      ((netExec N 0 m.1 (.setCounter c)).1, { m.2 with result := true })
      (.start c 0 ::ₘ others) := by
  obtain ⟨hgo, hnot⟩ := h.drains _ (Multiset.mem_cons_self _ _)
  refine h.main_step rfl (h.works.exec 0) ⟨hgo, fun j hj => ?_, ?_⟩ (h.calls_of_started rfl rfl)
  · rw [if_neg (Nat.not_lt_zero j)]
    exact hnot j hj
  · exact iff_of_true rfl fun j _ hj => absurd hj (Nat.not_lt_zero j)

/-- A source that has not ended is called for the clock. -/
theorem exec_call {c k : ℕ} (h : Draining N returns m (.start c k ::ₘ others))
    (hk : k < N.sources) :
    Draining N returns
      ({ m.1 with started := Function.update m.1.started k (c + 1) },
        m.2.call k c (returns k c))
      (.send (.source k) c (N.targets (.source k)) none ::ₘ others) := by
  have hstart : Starting N returns m.2 c k := h.drains _ (Multiset.mem_cons_self _ _)
  have hsk := (h.works.formed _ (Multiset.mem_cons_self _ _)).2 k hk
  rw [if_neg (Nat.lt_irrefl k)] at hsk
  refine h.main_step rfl (h.works.exec_source hk) ⟨hstart.goOn, fun j hj => ?_, ?_⟩ fun j d => ?_
  · change Function.update m.2.notDone k (returns k c) j = _
    by_cases hjk : j = k
    · rw [hjk, Function.update_self, if_pos (Nat.lt_succ_self k)]
    · rw [Function.update_of_ne hjk, hstart.notDone j hj]
      split_ifs <;> first | rfl | omega
  · change (m.2.result && returns k c) = true ↔ _
    rw [Bool.and_eq_true, hstart.result]
    constructor
    · rintro ⟨hall, hreturned⟩ j hj hjk
      rcases Nat.lt_succ_iff_lt_or_eq.mp hjk with hlt | rfl
      · exact hall j hj hlt
      · exact hreturned
    · exact fun hall => ⟨fun j hj hjk => hall j hj (Nat.lt_succ_of_lt hjk),
        hall k hk (Nat.lt_succ_self k)⟩
  · have hold := h.calls j d
    change (m.2.calls ++ [(k, c)]).count (j, d) =
      if j < N.sources ∧ d < Function.update m.1.started k (c + 1) j then 1 else 0
    rw [List.count_append, List.count_singleton, hold]
    simp only [beq_iff_eq, Prod.mk.injEq]
    by_cases hjk : j = k
    · subst hjk
      rw [Function.update_self, hsk]
      split_ifs <;> omega
    · have hne : ¬ (k = j ∧ c = d) := fun he => hjk he.1.symm
      rw [Function.update_of_ne hjk, if_neg hne, Nat.add_zero]

/-- When all sources have been started for the clock, the loop goes on if and only if all of
them do. -/
theorem exec_started {c k : ℕ} (h : Draining N returns m (.start c k ::ₘ others))
    (hk : ¬ k < N.sources) :
    Draining N returns ((netExec N (if m.2.result then 1 else 0) m.1 (.start c k)).1, m.2)
      ((netExec N (if m.2.result then 1 else 0) m.1 (.start c k)).2 ::ₘ others) := by
  have hstart : Starting N returns m.2 c k := h.drains _ (Multiset.mem_cons_self _ _)
  have hemitted : m.1.emitted = c + 1 := (h.works.formed _ (Multiset.mem_cons_self _ _)).1
  have hworks := h.works.exec (if m.2.result then 1 else 0)
  have hnot : ∀ j < N.sources, m.2.notDone j = returns j c := fun j hj => by
    rw [hstart.notDone j hj, if_pos (by omega)]
  simp only [netExec, if_neg hk] at hworks ⊢
  cases hresult : m.2.result with
  | true =>
    rw [hresult] at hworks
    have hall : ∀ j < N.sources, returns j c = true := fun j hj =>
      hstart.result.mp hresult j hj (by omega)
    refine h.main_step rfl hworks ⟨fun d hd j hj => ?_, fun j hj => ?_⟩ (h.calls_of_started rfl rfl)
    · rcases Nat.lt_succ_iff_lt_or_eq.mp hd with hd | rfl
      · exact hstart.goOn d hd j hj
      · exact hall j hj
    · rw [hnot j hj]
      exact hall j hj
  | false =>
    rw [hresult] at hworks
    have hend : ∃ j < N.sources, returns j c = false := by
      by_contra hn
      have hall := hstart.result.mpr fun j hj _ =>
        Bool.eq_true_of_not_eq_false fun hreturned => hn ⟨j, hj, hreturned⟩
      rw [hresult] at hall
      cases hall
    refine h.main_step rfl hworks ⟨⟨hstart.goOn, hend⟩, by omega, fun d hd => ?_⟩
      (h.calls_of_started rfl rfl)
    have hpassed : d + N.slices < m.1.emitted := by omega
    exact ⟨hworks.left d hpassed, hworks.gone d (Or.inl hpassed)⟩

theorem exec_finalSinks {ii c : ℕ} (h : Draining N returns m (.finalSinks ii c ::ₘ others))
    (choice : ℕ) :
    Draining N returns ((netExec N choice m.1 (.finalSinks ii c)).1, m.2)
      ((netExec N choice m.1 (.finalSinks ii c)).2 ::ₘ others) := by
  obtain ⟨hend, hwindow, hfin⟩ := h.drains _ (Multiset.mem_cons_self _ _)
  have hemitted : m.1.emitted = c + 1 := (h.works.formed _ (Multiset.mem_cons_self _ _)).1
  have hworks := h.works.exec choice
  have hfin' := fun d hd => h.works.finished_exec choice (fun c k he => by cases he) (hfin d hd)
  simp only [netExec] at hworks hfin' ⊢
  by_cases hii : ii < c
  · by_cases hz : 0 < m.1.sinkCounter (ii % N.slices)
    · simp only [if_pos hii, if_pos hz]
      exact h
    · simp only [if_pos hii, if_neg hz] at hworks hfin' ⊢
      exact h.main_step rfl hworks ⟨hend, hwindow, hfin',
        h.works.handed_of_counter (by omega) (by omega) hz⟩ (h.calls_of_started rfl rfl)
  · simp only [if_neg hii] at hworks hfin' ⊢
    exact h.main_step rfl hworks ⟨c, hemitted, hend, fun d hd => hfin' d (by omega),
      fun hlt => absurd hlt (Nat.not_lt_zero _)⟩ (h.calls_of_started rfl rfl)

theorem exec_finalSlice {ii c : ℕ} (h : Draining N returns m (.finalSlice ii c ::ₘ others))
    (choice : ℕ) :
    Draining N returns ((netExec N choice m.1 (.finalSlice ii c)).1, m.2)
      ((netExec N choice m.1 (.finalSlice ii c)).2 ::ₘ others) := by
  obtain ⟨hend, hwindow, hfin, hhanded⟩ := h.drains _ (Multiset.mem_cons_self _ _)
  have hworks := h.works.exec choice
  have hfin' := fun d hd => h.works.finished_exec choice (fun c k he => by cases he) (hfin d hd)
  simp only [netExec] at hworks hfin' ⊢
  by_cases hz : m.1.group (ii % N.slices) = 0
  · simp only [if_pos hz] at hworks hfin' ⊢
    refine h.main_step rfl hworks ⟨hend, by omega, fun d hd => ?_⟩ (h.calls_of_started rfl rfl)
    rcases Nat.lt_succ_iff_lt_or_eq.mp hd with hd | rfl
    · exact hfin' d hd
    · obtain ⟨hpool, hothers⟩ := hworks.gone_of_group hz
      refine ⟨hhanded, hpool, fun g hg => ?_⟩
      rcases Multiset.mem_cons.mp hg with rfl | hg'
      · exact fun he => by cases he
      · exact hothers g hg (hworks.not_main rfl g hg')
  · simp only [if_neg hz]
    exact h

/-- When the group of the last clock is empty and the clocks before are finished, nothing is
left. -/
theorem atRest_of_group {c : ℕ} (h : NetWorks N m.1 (f ::ₘ others)) (hf : f.waits = true)
    (hmain : f.isMain = true) (hemitted : m.1.emitted = c + 1)
    (hfin : ∀ d < c, Finished N m.1 (f ::ₘ others) d) (hz : m.1.group (c % N.slices) = 0) :
    AtRest m.1 (f ::ₘ others) := by
  obtain ⟨hpool, hothers⟩ := h.gone_of_group hz
  have hcases : ∀ d < m.1.emitted, d < c ∨ d = c := fun d hd => by omega
  have hclock : ∀ g ∈ others, ∀ d < m.1.emitted, g.clock ≠ some d := fun g hg d hd => by
    have hmem : g ∈ f ::ₘ others := Multiset.mem_cons_of_mem hg
    rcases hcases d hd with hd | rfl
    · exact (hfin d hd).2.2 g hmem
    · exact hothers g hmem (h.not_main hmain g hg)
  refine ⟨List.eq_nil_iff_forall_not_mem.mpr fun x hx => ?_, fun g hg => ?_⟩
  · obtain ⟨v, d⟩ := x
    have hpos := List.count_pos_iff.mpr hx
    have hlt := (h.lt_of_handed (v := v) (c := d) (h.handed_of_task (by omega))).2
    rcases hcases d hlt with hd | rfl
    · exact (hfin d hd).2.1 _ hx rfl
    · exact hpool _ hx rfl
  · rcases Multiset.mem_cons.mp hg with rfl | hg
    · exact hf
    · have hform := h.formed g (Multiset.mem_cons_of_mem hg)
      have hno := hclock g hg
      cases g with
      | send s d rest call => exact absurd rfl (hno d hform.1)
      | sinkRun v d => exact absurd rfl (hno d hform.1)
      | endTask d => exact absurd rfl (hno d hform)
      | setCounter d => cases h.not_main hmain _ hg
      | start d k => cases h.not_main hmain _ hg
      | sinkThrown => exact absurd hform not_false
      | _ => rfl

theorem exec_destroy {ii : ℕ} (h : Draining N returns m (.destroy ii ::ₘ others))
    (choice : ℕ) :
    Draining N returns ((netExec N choice m.1 (.destroy ii)).1, m.2)
      ((netExec N choice m.1 (.destroy ii)).2 ::ₘ others) := by
  obtain ⟨c, hemitted, hend, hfin, hrest⟩ := h.drains _ (Multiset.mem_cons_self _ _)
  have hworks := h.works.exec choice
  have hfin' := fun d hd => h.works.finished_exec choice (fun c k he => by cases he) (hfin d hd)
  simp only [netExec] at hworks hfin' ⊢
  by_cases hii : ii < N.slices
  · by_cases hz : m.1.group ii = 0
    · simp only [if_pos hii, if_pos hz] at hworks hfin' ⊢
      refine h.main_step rfl hworks ⟨c, hemitted, hend, hfin', fun hlt => ?_⟩
        (h.calls_of_started rfl rfl)
      rcases Nat.lt_succ_iff_lt_or_eq.mp hlt with hlt | heq
      · obtain ⟨hpool, hwaits⟩ := hrest hlt
        exact ⟨hpool, Multiset.forall_mem_cons.mpr
          ⟨rfl, fun g hg => hwaits g (Multiset.mem_cons_of_mem hg)⟩⟩
      · exact atRest_of_group hworks rfl rfl hemitted hfin' (heq ▸ hz)
    · simp only [if_pos hii, if_neg hz]
      exact h
  · simp only [if_neg hii] at hworks hfin' ⊢
    have hlt : c % N.slices < ii :=
      lt_of_lt_of_le (Nat.mod_lt _ N.slices_pos) (Nat.not_lt.mp hii)
    obtain ⟨hpool, hwaits⟩ := hrest hlt
    exact h.main_step rfl hworks ⟨c, hemitted, hend, hpool, Multiset.forall_mem_cons.mpr
      ⟨rfl, fun g hg => hwaits g (Multiset.mem_cons_of_mem hg)⟩⟩ (h.calls_of_started rfl rfl)

/-- Every step keeps the invariant. -/
theorem exec (h : Draining N returns m (f ::ₘ others)) (choice : ℕ) :
    Draining N returns (drainExec N returns choice f m).1
      ((drainExec N returns choice f m).2 ::ₘ others) := by
  cases hf : f.isMain with
  | false =>
    have hnet : drainExec N returns choice f m =
        (((netExec N choice m.1 f).1, m.2), (netExec N choice m.1 f).2) := by
      cases f with
      | setCounter | start => cases hf
      | _ => rfl
    rw [hnet]
    exact h.worker choice hf
  | true =>
    have hdrains := h.drains f (Multiset.mem_cons_self _ _)
    cases f with
    | waitSinks c | waitSlice c =>
      have hworks := h.works.exec choice
      simp only [drainExec, netExec] at hworks ⊢
      split at hworks <;> split <;> first
        | contradiction
        | exact h.main_step rfl hworks hdrains (h.calls_of_started rfl rfl)
    | setCounter c => exact h.exec_setCounter
    | start c k =>
      simp only [drainExec]
      by_cases hk : k < N.sources
      · have hstart : Starting N returns m.2 c k := hdrains
        have hnot : m.2.notDone k = true := by
          rw [hstart.notDone k hk, if_neg (Nat.lt_irrefl k)]
        simp only [if_pos hk, if_pos hnot, netExec]
        exact h.exec_call hk
      · simp only [if_neg hk]
        exact h.exec_started hk
    | finalSinks ii c => exact h.exec_finalSinks choice
    | finalSlice ii c => exact h.exec_finalSlice choice
    | destroy ii => exact h.exec_destroy choice
    | done => exact h
    | send s c rest call =>
      cases s with
      | node v => cases hf
      | source k =>
        have hworks := h.works.exec choice
        cases call with
        | some x => exact h.main_step rfl hworks hdrains (h.calls_of_started rfl rfl)
        | none =>
          cases rest with
          | nil => exact h.main_step rfl hworks hdrains (h.calls_of_started rfl rfl)
          | cons x rest => exact h.main_step rfl hworks hdrains (h.calls_of_started rfl rfl)
    | sinkRun | endTask | idle | sinkThrown => cases hf

/-- The first clock at which a source ends is one clock. -/
theorem firstEnd_unique {c d : ℕ} (hc : FirstEnd N returns c) (hd : FirstEnd N returns d) :
    c = d := by
  obtain ⟨hgo, k, hk, hfalse⟩ := hc
  obtain ⟨hgo', k', hk', hfalse'⟩ := hd
  rcases Nat.lt_trichotomy c d with hlt | heq | hlt
  · rw [hgo' c hlt k hk] at hfalse
    cases hfalse
  · exact heq
  · rw [hgo d hlt k' hk'] at hfalse'
    cases hfalse'

/-- How far the main thread is, given the clock at which the first source ends. -/
theorem started_le (h : Draining N returns m fs) {c : ℕ} (hc : FirstEnd N returns c) :
    ∀ k < N.sources, m.1.started k ≤ c + 1 := by
  have hmain : 0 < mains fs := by rw [h.works.main]; exact Nat.one_pos
  obtain ⟨f, hf, hmf⟩ := Multiset.countP_pos.mp hmain
  have hform := h.works.formed f hf
  have hdrains := h.drains f hf
  have hgo : ∀ d, GoOn N returns d → d ≤ c := fun d hd => by
    obtain ⟨-, k, hk, hfalse⟩ := hc
    by_contra hlt
    rw [hd c (Nat.not_le.mp hlt) k hk] at hfalse
    cases hfalse
  intro k hk
  cases f with
  | waitSinks d =>
    have hle := hgo d hdrains.1
    have hstarted := hform.2 k hk
    omega
  | waitSlice d | setCounter d =>
    have hle := hgo d hdrains.1
    have hstarted := hform.1.2 k hk
    omega
  | start d j =>
    have hle := hgo d hdrains.goOn
    have hstarted := hform.2 k hk
    split_ifs at hstarted <;> omega
  | finalSinks ii d | finalSlice ii d =>
    have heq := firstEnd_unique hdrains.1 hc
    have hstarted := hform.2 k hk
    omega
  | destroy ii | done =>
    obtain ⟨d, hemitted, hend, -⟩ := hdrains
    have heq := firstEnd_unique hend hc
    have hstarted := hform k hk
    omega
  | send s d rest call =>
    cases s with
    | node v => cases hmf
    | source j =>
      have hle := hgo d hdrains.goOn
      have hstarted := (hform.2.2.2 j rfl).2.2 k hk
      split_ifs at hstarted <;> omega
  | sinkRun | endTask | idle | sinkThrown => cases hmf

/-- When the loop that emits clocks has been left, every source has been started for the last
one. -/
theorem started_final (h : Draining N returns m fs) {c : ℕ} (hc : FirstEnd N returns c)
    (hf : f ∈ fs) (hfinal : f.isFinal = true) : ∀ k < N.sources, m.1.started k = c + 1 := by
  have hform := h.works.formed f hf
  have hdrains := h.drains f hf
  intro k hk
  cases f with
  | finalSinks ii d | finalSlice ii d =>
    rw [hform.2 k hk, firstEnd_unique hdrains.1 hc]
  | destroy ii | done =>
    obtain ⟨d, hemitted, hend, -⟩ := hdrains
    rw [hform k hk, hemitted, firstEnd_unique hend hc]
  | _ => cases hfinal

end Draining

theorem draining_preserved (N : Network) (returns : ℕ → ℕ → Bool) :
    Preserves (drainCode N returns) (fun _ _ _ _ _ => True) (Draining N returns) := by
  intro t choice f m others h _
  have hnew := h.exec choice
  rwa [← Multiset.singleton_add] at hnew

theorem draining_boot (N : Network) (returns : ℕ → ℕ → Bool) (workers : ℕ) :
    Draining N returns (drainBoot N workers).mem (drainBoot N workers).frames := by
  have hframes : (drainBoot N workers).frames =
      .waitSinks 0 ::ₘ Multiset.replicate workers .idle := State.frames_boot ..
  refine ⟨netWorks_boot N workers, fun f hf => ?_, fun k c => ?_⟩
  · rw [hframes] at hf
    rcases Multiset.mem_cons.mp hf with rfl | hf
    · exact ⟨fun d hd => absurd hd (Nat.not_lt_zero d), fun _ _ => rfl⟩
    · rw [Multiset.eq_of_mem_replicate hf]
      trivial
  · exact (if_neg fun hk => Nat.not_lt_zero c hk.2).symm

/-- A source that has not ended is called once for every clock up to the first one at which some
source ends. When the scheduler has been destroyed, every sink has run exactly these clocks, no
task is left, and nobody works. -/
theorem network_drains (N : Network) (returns : ℕ → ℕ → Bool) {c : ℕ}
    (hc : FirstEnd N returns c) (workers : ℕ) (es : List (ℕ × ℕ)) :
    let s := run (drainCode N returns) (drainBoot N workers) es
    (∀ k d, s.mem.2.calls.count (k, d) ≤ if k < N.sources ∧ d ≤ c then 1 else 0) ∧
      (∀ f ∈ s.frames, f.isFinal = true →
        ∀ k < N.sources, ∀ d ≤ c, s.mem.2.calls.count (k, d) = 1) ∧
      (.done ∈ s.frames →
        (∀ v d, s.mem.1.reached.count (v, d) =
          if v < N.nodes ∧ N.sink v = true ∧ d ≤ c then 1 else 0) ∧
        s.mem.1.pool = [] ∧ (∀ slice, s.mem.1.group slice = 0) ∧
          ∀ f ∈ s.frames, f = .done ∨ f = .idle) := by
  intro s
  have h : Draining N returns s.mem s.frames :=
    (draining_preserved N returns).run (Always.of_forall (fun _ _ _ _ _ => trivial) _ _)
      (draining_boot N returns workers)
  refine ⟨fun k d => ?_, fun f hf hfinal k hk d hd => ?_, fun hdone => ?_⟩
  · rw [h.calls]
    by_cases hk : k < N.sources
    · have hle := h.started_le hc k hk
      split_ifs <;> omega
    · rw [if_neg fun hall => hk hall.1]
      exact Nat.zero_le _
  · rw [h.calls, h.started_final hc hf hfinal k hk]
    exact if_pos ⟨hk, Nat.lt_succ_of_le hd⟩
  · obtain ⟨d, hemitted, hend, hrest⟩ := h.drains _ hdone
    have heq := Draining.firstEnd_unique hend hc
    subst heq
    refine ⟨fun v e => ?_, hrest.1, h.works.group_at_rest hrest.1 hrest.2, fun f hf => ?_⟩
    · rw [h.works.reached_at_rest hrest.1 hrest.2, hemitted]
      simp only [Nat.lt_succ_iff]
    · obtain ⟨others, hothers⟩ := Multiset.exists_cons_of_mem hdone
      rw [hothers] at hf
      rcases Multiset.mem_cons.mp hf with rfl | hf
      · exact Or.inl rfl
      · have hworker := (hothers ▸ h.works).not_main rfl f hf
        have hwait := hrest.2 f (hothers ▸ Multiset.mem_cons_of_mem hf)
        cases f with
        | idle => exact Or.inr rfl
        | send | sinkRun | endTask | sinkThrown => cases hwait
        | _ => cases hworker

/-- The source of the pipeline ends with its first value: the task of the sink is still pending
when the main thread reaches the destructor. -/
def firstOnly : List (ℕ × ℕ) :=
  List.replicate 20 (0, 0) ++ List.replicate 24 (1, 0) ++ List.replicate 6 (0, 0)

theorem network_drains_first :
    (run (drainCode pipeline fun _ _ => false) (drainBoot pipeline 1) firstOnly).mem.1.reached.count
      (1, 0) = 1 :=
  ((network_drains pipeline (fun _ _ => false) (c := 0)
    ⟨fun d hd => absurd hd (Nat.not_lt_zero d), 0, by decide, rfl⟩ 1 firstOnly).2.2
      (by decide +kernel)).1 1 0

end Embb.Dataflow
