import Embb.Dataflow.Values

/-!
# Parallel and sequential execution

With the sequential scheduler, what is spawned or enqueued runs at once on the stack of the
caller, and there are no groups to wait for. Such a run takes the steps that one of many idle
workers could have taken, so that it leaves the same calls as a parallel run.
-/

namespace Embb.Dataflow

open Threads

variable {N : Network} {V : Type}

/-- One step on `SchedulerSequential`. -/
def seqExec (A : Program N V) (choice : ℕ) (f : NetFrame) (m : NetMemory × Values V) :
    (NetMemory × Values V) × List NetFrame :=
  match f with
  | .waitSlice c => (m, [.setCounter c])
  | .finalSlice ii c => (m, [.finalSinks (ii + 1) c])
  | .endTask c => (((netExec N choice m.1 (.endTask c)).1, m.2), [])
  | .send s c rest (some (v, fr)) =>
    let l := m.2.record A choice (.send s c rest (some (v, fr))) m.1
    let back := .send s c rest (returns v (exec (N.shape v) none (m.1.node v) fr).2)
    match fr.hands with
    | [] => ((m.1.nodeStep N v fr, l), [back])
    | ii :: _ =>
      (({ m.1.nodeStep N v fr with pool := m.1.pool }, l.begin N v ii),
        [.send (.node v) ii (N.targets (.node v)) none, back])
  | .idle => (m, [.idle])
  | .waitSinks c => (((netExec N choice m.1 (.waitSinks c)).1, m.2),
      [(netExec N choice m.1 (.waitSinks c)).2])
  | .finalSinks ii c => (((netExec N choice m.1 (.finalSinks ii c)).1, m.2),
      [(netExec N choice m.1 (.finalSinks ii c)).2])
  | .destroy ii => (((netExec N choice m.1 (.destroy ii)).1, m.2),
      [(netExec N choice m.1 (.destroy ii)).2])
  | .done => (m, [.done])
  | .setCounter c => (((netExec N choice m.1 (.setCounter c)).1, m.2),
      [(netExec N choice m.1 (.setCounter c)).2])
  | .start c k => (((netExec N choice m.1 (.start c k)).1, m.2),
      [(netExec N choice m.1 (.start c k)).2])
  | .send s c rest none => (((netExec N choice m.1 (.send s c rest none)).1, m.2),
      [(netExec N choice m.1 (.send s c rest none)).2])
  | .sinkRun v c => (((netExec N choice m.1 (.sinkRun v c)).1, m.2.call N v c),
      [(netExec N choice m.1 (.sinkRun v c)).2])
  | .sinkThrown => (m, [.sinkThrown])

def sequentialCode (A : Program N V) : Code (NetMemory × Values V) NetFrame ℕ :=
  fun _ choice f m => seqExec A choice f m

def sequentialBoot (N : Network) (V : Type) : State (NetMemory × Values V) NetFrame :=
  ⟨(NetMemory.init N, Values.init), [[.waitSinks 0]]⟩

def mtapiBoot (N : Network) (V : Type) (workers : ℕ) : State (NetMemory × Values V) NetFrame :=
  ⟨(NetMemory.init N, Values.init), (netBoot N workers).callStacks⟩

theorem computes_boot (A : Program N V) (workers : ℕ) :
    Computes A (NetMemory.init N, Values.init) (netBoot N workers).frames := by
  have hw := netWorks_boot N workers
  have hcases : ∀ f ∈ (netBoot N workers).frames, f = .waitSinks 0 ∨ f = .idle := fun f hf => by
    obtain ⟨st, hst, hf⟩ := List.mem_flatten.mp (Multiset.mem_coe.mp hf)
    rcases List.mem_cons.mp hst with rfl | hst
    · exact Or.inl (List.mem_singleton.mp hf)
    · rw [List.eq_of_mem_replicate hst] at hf
      exact Or.inr (List.mem_singleton.mp hf)
  refine ⟨hw, fun w _ i _ c hi => absurd hi (Finset.notMem_empty i), fun f hf v c hr => ?_,
    fun v _ => ⟨[], rfl, Nat.zero_le _, fun c => ?_⟩, fun v => rfl, fun f hf => ?_⟩
  · rcases hcases f hf with rfl | rfl <;> cases hr
  · have hz : running (netBoot N workers).frames v c = 0 :=
      Multiset.countP_eq_zero.mpr fun f hf hr => by
        rcases hcases f hf with rfl | rfl <;> cases hr
    exact hz
  · rcases hcases f hf with rfl | rfl
    · exact fun d hd => absurd hd (Nat.not_lt_zero d)
    · trivial

/-- The invariant of a sequential run, whose stack stands beside `n` idle workers that do not
exist. -/
structure SeqWorks (A : Program N V) (m : NetMemory × Values V) (st : List NetFrame) (n : ℕ) :
    Prop where
  computes : Computes A m ((st : Multiset NetFrame) + Multiset.replicate n .idle)
  pool : m.1.pool = []
  bottom : ∃ below main, st = below ++ [main] ∧ main.isMain = true
  quiet : ∀ f ∈ st.tail, ∀ v, N.sink v = true → f.node ≠ some v
  calling : ∀ f ∈ st, ∀ v c rest x, f = .send (.node v) c rest (some x) → N.sink v = false

namespace SeqWorks

variable {A : Program N V} {m : NetMemory × Values V} {f f' : NetFrame} {rest : List NetFrame}
  {n choice : ℕ}

theorem cons_add (f : NetFrame) (rest : List NetFrame) (n : ℕ) :
    ((f :: rest : List NetFrame) : Multiset NetFrame) + Multiset.replicate n .idle =
      f ::ₘ ((rest : Multiset NetFrame) + Multiset.replicate n .idle) := by
  rw [← Multiset.cons_coe, Multiset.cons_add]

/-- When the main thread is on top, nothing else is there. -/
theorem rest_eq_nil (h : SeqWorks A m (f :: rest) n) (hf : f.isMain = true) : rest = [] := by
  obtain ⟨below, main, hst, hmain⟩ := h.bottom
  cases below with
  | nil => exact (List.cons.inj hst).2
  | cons g below =>
    obtain ⟨rfl, rfl⟩ := List.cons.inj hst
    have hworks := h.computes.1
    rw [cons_add] at hworks
    have hn := hworks.not_main hf main (Multiset.mem_add.mpr (Or.inl (Multiset.mem_coe.mpr
      (List.mem_append_right _ List.mem_cons_self))))
    rw [hmain] at hn
    cases hn

/-- Then no task is left in any group. -/
theorem group_eq_zero (h : SeqWorks A m (f :: rest) n) (hf : f.isMain = true)
    (hw : ∀ s, f.works N s = false) (s : ℕ) : m.1.group s = 0 := by
  have hgroup := h.computes.1.groups s
  have hidle : working N (Multiset.replicate n .idle) s = 0 :=
    Multiset.countP_eq_zero.mpr fun g hg hgw => by
      rw [Multiset.eq_of_mem_replicate hg] at hgw
      cases hgw
  have hzero : working N (((f :: rest : List NetFrame) : Multiset NetFrame) +
      Multiset.replicate n .idle) s = 0 := by
    rw [h.rest_eq_nil hf, cons_add, working_cons, hw, Multiset.coe_nil, zero_add, hidle]
    rfl
  rw [hgroup, hzero, h.pool]
  rfl

theorem bottom_cons (h : SeqWorks A m (f :: rest) n) (hf : f'.isMain = f.isMain) :
    ∃ below main, f' :: rest = below ++ [main] ∧ main.isMain = true := by
  obtain ⟨below, main, hst, hmain⟩ := h.bottom
  cases below with
  | nil =>
    obtain ⟨rfl, rfl⟩ := List.cons.inj hst
    exact ⟨[], f', rfl, hf.trans hmain⟩
  | cons g below =>
    obtain ⟨rfl, rfl⟩ := List.cons.inj hst
    exact ⟨f' :: below, main, rfl, hmain⟩

/-- A step that is one of the parallel program. -/
theorem jump (h : SeqWorks A m (f :: rest) n) (hd : Decided A choice f) (hidle : f ≠ .idle)
    (hf : (netExec N choice m.1 f).2 = f') (hmain : f'.isMain = f.isMain)
    (hpool : (netExec N choice m.1 f).1.pool = m.1.pool)
    (hcall : ∀ v c ts x, f' = .send (.node v) c ts (some x) → N.sink v = false) :
    SeqWorks A ((netExec N choice m.1 f).1, m.2.record A choice f m.1) (f' :: rest) n where
  computes := by
    have hold := h.computes
    rw [cons_add] at hold ⊢
    have hnew := computes_preserved A 0 choice f m _ hold ⟨hd, fun he => absurd he hidle⟩
    rw [← hf]
    have hsingle := Multiset.singleton_add (netExec N choice m.1 f).2
      ((rest : Multiset NetFrame) + Multiset.replicate n .idle)
    rw [← hsingle]
    exact hnew
  pool := hpool.trans h.pool
  bottom := h.bottom_cons hmain
  quiet := h.quiet
  calling g hg v c ts x he := by
    rcases List.mem_cons.mp hg with rfl | hg
    · exact hcall v c ts x he
    · exact h.calling g (List.mem_cons_of_mem _ hg) v c ts x he

/-- The spawned action begins on the stack of the caller. -/
theorem spawn {s : Sender} {c v ii : ℕ} {ts : List (ℕ × ℕ)} {fr : Frame}
    (h : SeqWorks A m (.send s c ts (some (v, fr)) :: rest) (n + 1)) (hh : fr.hands = [ii]) :
    SeqWorks A ({ m.1.nodeStep N v fr with pool := m.1.pool },
        (m.2.record A choice (.send s c ts (some (v, fr))) m.1).begin N v ii)
      (.send (.node v) ii (N.targets (.node v)) none ::
        .send s c ts (returns v (exec (N.shape v) none (m.1.node v) fr).2) :: rest) n := by
  have hs : ∀ u, s = .node u → N.sink u = false := fun u hu =>
    h.calling _ List.mem_cons_self u c ts (v, fr) (by rw [hu])
  have hback : ∀ u, N.sink u = true → (NetFrame.send s c ts
      (returns v (exec (N.shape v) none (m.1.node v) fr).2)).node ≠ some u := by
    intro u hu he
    cases s with
    | source k => cases he
    | node u' =>
      cases he
      rw [hs u rfl] at hu
      cases hu
  have hold := h.computes
  rw [cons_add] at hold
  have hcall := computes_preserved A 0 choice (.send s c ts (some (v, fr))) m _ hold
    ⟨trivial, fun he => (by cases he)⟩
  have hpool : (m.1.nodeStep N v fr).pool = [(v, ii)] := by
    change m.1.pool ++ fr.hands.map (fun c => (v, c)) = _
    rw [h.pool, hh]
    rfl
  have hswap : (([NetFrame.send s c ts (returns v (exec (N.shape v) none (m.1.node v) fr).2)] :
      List NetFrame) : Multiset NetFrame) +
        ((rest : Multiset NetFrame) + Multiset.replicate (n + 1) .idle) =
      .idle ::ₘ (((NetFrame.send s c ts (returns v (exec (N.shape v) none (m.1.node v) fr).2) ::
        rest : List NetFrame) : Multiset NetFrame) + Multiset.replicate n .idle) := by
    rw [cons_add, Multiset.replicate_succ, Multiset.add_cons, Multiset.add_cons,
      Multiset.coe_singleton, Multiset.singleton_add]
  have hcall' : Computes A (m.1.nodeStep N v fr,
      m.2.record A choice (.send s c ts (some (v, fr))) m.1)
      (.idle ::ₘ (((NetFrame.send s c ts (returns v (exec (N.shape v) none (m.1.node v) fr).2) ::
        rest : List NetFrame) : Multiset NetFrame) + Multiset.replicate n .idle)) := hswap ▸ hcall
  have htake := computes_preserved A 0 0 .idle _ _ hcall' ⟨trivial, fun _ => by
    intro x hx hsink
    rw [hpool] at hx ⊢
    cases hx
    refine ⟨fun x hx => absurd hx List.not_mem_nil, fun g hg => ?_⟩
    rcases Multiset.mem_cons.mp hg with rfl | hg
    · exact fun he => (by cases he)
    · rcases Multiset.mem_add.mp hg with hg | hg
      · rcases List.mem_cons.mp (Multiset.mem_coe.mp hg) with rfl | hg
        · exact hback v hsink
        · exact h.quiet g hg v hsink
      · rw [Multiset.eq_of_mem_replicate hg]
        exact fun he => (by cases he)⟩
  refine ⟨?_, h.pool, ?_, fun g hg u hu => ?_, fun g hg u d us x he => ?_⟩
  · rw [cons_add]
    simp only [mtapiCode, logged, netCode, netExec, Values.record, hpool,
      List.getElem?_cons_zero, List.eraseIdx_cons_zero] at htake
    rw [h.pool]
    rw [Multiset.coe_singleton, Multiset.singleton_add] at htake
    exact htake
  · have hmains : (NetFrame.send s c ts
        (returns v (exec (N.shape v) none (m.1.node v) fr).2)).isMain =
        (NetFrame.send s c ts (some (v, fr))).isMain := by
      cases s <;> rfl
    obtain ⟨below, main, hst, hmain⟩ := h.bottom_cons hmains
    exact ⟨.send (.node v) ii (N.targets (.node v)) none :: below, main, by rw [hst]; rfl, hmain⟩
  · rcases List.mem_cons.mp hg with rfl | hg
    · exact hback u hu
    · exact h.quiet g hg u hu
  · rcases List.mem_cons.mp hg with rfl | hg
    · cases he
    · rcases List.mem_cons.mp hg with rfl | hg
      · exact hs u (NetFrame.send.inj he).1
      · exact h.calling g (List.mem_cons_of_mem _ hg) u d us x he

/-- The end of an action leaves the caller on top. -/
theorem endTask {c : ℕ} (h : SeqWorks A m (.endTask c :: rest) n) :
    SeqWorks A ((netExec N choice m.1 (.endTask c)).1, m.2) rest (n + 1) := by
  refine ⟨?_, h.pool, ?_, fun g hg => ?_, fun g hg => h.calling g (List.mem_cons_of_mem _ hg)⟩
  · have hold := h.computes
    rw [cons_add] at hold
    have hnew := computes_preserved A 0 choice (.endTask c) m _ hold
      ⟨trivial, fun he => (by cases he)⟩
    rw [Multiset.replicate_succ, Multiset.add_cons, ← Multiset.singleton_add]
    exact hnew
  · obtain ⟨below, main, hst, hmain⟩ := h.bottom
    cases below with
    | nil =>
      obtain ⟨rfl, -⟩ := List.cons.inj hst
      cases hmain
    | cons g below => exact ⟨below, main, (List.cons.inj hst).2, hmain⟩
  · cases rest with
    | nil => exact absurd hg List.not_mem_nil
    | cons r rest => exact h.quiet g (List.mem_cons_of_mem _ hg)

theorem hands_cases (fr : Frame) : fr.hands = [] ∨ ∃ ii, fr.hands = [ii] := by
  cases fr with
  | spawn c => exact Or.inr ⟨c, rfl⟩
  | enqueue clk res ii => exact Or.inr ⟨ii, rfl⟩
  | _ => exact Or.inl rfl

theorem step (h : SeqWorks A m (f :: rest) (n + 1)) (hd : Decided A choice f) :
    ∃ n', n ≤ n' ∧
      SeqWorks A (seqExec A choice f m).1 ((seqExec A choice f m).2 ++ rest) n' := by
  cases f with
  | waitSlice c =>
    have hz := h.group_eq_zero rfl (fun _ => rfl) (c % N.slices)
    have hnext : (netExec N choice m.1 (.waitSlice c)).2 = .setCounter c := if_pos hz
    exact ⟨n + 1, Nat.le_succ n, h.jump hd (fun he => (by cases he)) hnext rfl rfl
      fun v d ts x he => (by cases he)⟩
  | finalSlice ii c =>
    have hz := h.group_eq_zero rfl (fun _ => rfl) (ii % N.slices)
    have hnext : (netExec N choice m.1 (.finalSlice ii c)).2 = .finalSinks (ii + 1) c := if_pos hz
    exact ⟨n + 1, Nat.le_succ n, h.jump hd (fun he => (by cases he)) hnext rfl rfl
      fun v d ts x he => (by cases he)⟩
  | endTask c => exact ⟨n + 2, by omega, h.endTask⟩
  | idle => exact ⟨n + 1, Nat.le_succ n, h⟩
  | done => exact ⟨n + 1, Nat.le_succ n, h⟩
  | sinkThrown => exact ⟨n + 1, Nat.le_succ n, h⟩
  | waitSinks c =>
    refine ⟨n + 1, Nat.le_succ n, h.jump hd (fun he => (by cases he)) rfl ?_ rfl
      fun v d ts x he => ?_⟩
    · simp only [netExec]
      split <;> rfl
    · simp only [netExec] at he
      split at he <;> cases he
  | finalSinks ii c =>
    refine ⟨n + 1, Nat.le_succ n, h.jump hd (fun he => (by cases he)) rfl ?_ rfl
      fun v d ts x he => ?_⟩
    · simp only [netExec]
      repeat' split
      all_goals rfl
    · simp only [netExec] at he
      repeat' split at he
      all_goals cases he
  | destroy ii =>
    refine ⟨n + 1, Nat.le_succ n, h.jump hd (fun he => (by cases he)) rfl ?_ rfl
      fun v d ts x he => ?_⟩
    · simp only [netExec]
      repeat' split
      all_goals rfl
    · simp only [netExec] at he
      repeat' split at he
      all_goals cases he
  | setCounter c =>
    exact ⟨n + 1, Nat.le_succ n, h.jump hd (fun he => (by cases he)) rfl rfl rfl
      fun v d ts x he => (by cases he)⟩
  | start c k =>
    refine ⟨n + 1, Nat.le_succ n, h.jump hd (fun he => (by cases he)) rfl ?_ ?_
      fun v d ts x he => ?_⟩
    · simp only [netExec]
      repeat' split
      all_goals rfl
    · simp only [netExec]
      split <;> rfl
    · simp only [netExec] at he
      repeat' split at he
      all_goals cases he
  | sinkRun v c =>
    refine ⟨n + 1, Nat.le_succ n, h.jump hd (fun he => (by cases he)) rfl ?_ rfl
      fun u d ts x he => ?_⟩
    · simp only [netExec]
      split <;> rfl
    · simp only [netExec] at he
      split at he <;> cases he
  | send s c ts call =>
    cases call with
    | none =>
      have hform : (NetFrame.send s c ts none).Formed N m.1 := by
        have hw := h.computes.1
        rw [cons_add] at hw
        exact hw.formed _ (Multiset.mem_cons_self _ _)
      cases ts with
      | cons x ts =>
        refine ⟨n + 1, Nat.le_succ n, h.jump hd (fun he => (by cases he)) rfl
          (by cases s <;> rfl) rfl fun v d us y he => ?_⟩
        cases he
        by_contra hsink
        have hmem := hform.2.1 x List.mem_cons_self
        rw [N.sink_targets v (Bool.eq_true_of_not_eq_false hsink)] at hmem
        exact absurd hmem List.not_mem_nil
      | nil =>
        cases s with
        | source k =>
          exact ⟨n + 1, Nat.le_succ n, h.jump hd (fun he => (by cases he)) rfl rfl rfl
            fun v d us y he => (by cases he)⟩
        | node v =>
          refine ⟨n + 1, Nat.le_succ n, h.jump hd (fun he => (by cases he)) rfl ?_ rfl
            fun u d us y he => ?_⟩
          · simp only [netExec]
            split <;> rfl
          · simp only [netExec] at he
            split at he <;> cases he
    | some x =>
      obtain ⟨v, fr⟩ := x
      rcases hands_cases fr with hh | ⟨ii, hh⟩
      · have hpool : (m.1.nodeStep N v fr).pool = m.1.pool := by
          change m.1.pool ++ fr.hands.map (fun c => (v, c)) = _
          rw [hh]
          exact List.append_nil _
        have hjump := h.jump hd (fun he => (by cases he)) rfl (by cases s <;> rfl) hpool
          fun u d us y he => by
            have hs := h.calling _ List.mem_cons_self
            have hsend : s = .node u := (NetFrame.send.inj he).1
            exact hs u c ts (v, fr) (by rw [hsend])
        refine ⟨n + 1, Nat.le_succ n, ?_⟩
        simp only [seqExec, hh]
        exact hjump
      · refine ⟨n, le_refl n, ?_⟩
        simp only [seqExec, hh]
        exact h.spawn hh

end SeqWorks

/-- A sequential run keeps its invariant, if there have been idle workers enough. -/
theorem seqWorks_run {A : Program N V} {s : State (NetMemory × Values V) NetFrame}
    {st : List NetFrame} (hst : s.callStacks = [st]) {n : ℕ} (h : SeqWorks A s.mem st n)
    {es : List (ℕ × ℕ)} (hn : es.length ≤ n)
    (hg : Always (sequentialCode A) (fun _ choice f _ _ => Decided A choice f) s es) :
    ∃ st' n', (run (sequentialCode A) s es).callStacks = [st'] ∧
      SeqWorks A (run (sequentialCode A) s es).mem st' n' := by
  induction es generalizing s st n with
  | nil => exact ⟨st, n, hst, h⟩
  | cons e es ih =>
    obtain ⟨hg, hgs⟩ := hg
    rw [List.length_cons] at hn
    obtain ⟨t, choice⟩ := e
    cases t with
    | succ t =>
      have hnone : s.top (t + 1) = none := by
        rw [State.top, hst]
        rfl
      have hsame : Threads.step (sequentialCode A) s (t + 1, choice) = s :=
        step_of_top_none _ hnone
      rw [run_cons, hsame]
      rw [hsame] at hgs
      exact ih hst h (by omega) hgs
    | zero =>
      cases st with
      | nil =>
        obtain ⟨below, main, hb, -⟩ := h.bottom
        cases below <;> cases hb
      | cons f rest =>
        have htop : s.callStacks[0]? = some (f :: rest) := by rw [hst]; rfl
        have hf : s.top 0 = some f := by rw [State.top, htop]; rfl
        obtain ⟨k, rfl⟩ : ∃ k, n = k + 1 := ⟨n - 1, by omega⟩
        obtain ⟨n', hn', hnew⟩ := h.step (hg f hf)
        have hmem : (Threads.step (sequentialCode A) s (0, choice)).mem =
            (seqExec A choice f s.mem).1 := (step_of_stack _ htop choice).1
        have hstack : (Threads.step (sequentialCode A) s (0, choice)).callStacks =
            [(seqExec A choice f s.mem).2 ++ rest] := by
          simp only [Threads.step, hst]
          rfl
        rw [run_cons]
        exact ih hstack (by rw [hmem]; exact hnew) (by omega) hgs

/-- The sources decide how many clocks there are. -/
theorem Program.Emits.le {A : Program N V} {j k : ℕ} (h : A.Emits k)
    (hj : ∀ d, d + 1 < j → A.more d = true) : j ≤ k := by
  obtain ⟨-, hpos, hlast⟩ := h
  by_contra hlt
  rw [hj (k - 1) (by omega)] at hlast
  cases hlast

theorem computes_parallel (A : Program N V) (workers : ℕ) {es : List (ℕ × ℕ)}
    (hg : Always (mtapiCode A) (fun _ choice f m fs => Ordered A choice f m.1 fs)
      (mtapiBoot N V workers) es) :
    Computes A (run (mtapiCode A) (mtapiBoot N V workers) es).mem
      (run (mtapiCode A) (mtapiBoot N V workers) es).frames :=
  (computes_preserved A).run hg (computes_boot A workers)

/-- The sequential run keeps the invariant of a parallel one. -/
theorem computes_sequential (A : Program N V) {es : List (ℕ × ℕ)}
    (hg : Always (sequentialCode A) (fun _ choice f _ _ => Decided A choice f)
      (sequentialBoot N V) es) :
    ∃ st n, (run (sequentialCode A) (sequentialBoot N V) es).callStacks = [st] ∧
      SeqWorks A (run (sequentialCode A) (sequentialBoot N V) es).mem st n := by
  refine seqWorks_run (s := sequentialBoot N V) rfl (n := es.length) ?_ (le_refl _) hg
  refine ⟨?_, rfl, ⟨[], .waitSinks 0, rfl, rfl⟩, fun f hf => absurd hf List.not_mem_nil,
    fun f hf v c ts x he => ?_⟩
  · have hb := computes_boot A es.length
    have hframes : (netBoot N es.length).frames =
        (([NetFrame.waitSinks 0] : List NetFrame) : Multiset NetFrame) +
          Multiset.replicate es.length .idle := State.frames_boot ..
    rw [← hframes]
    exact hb
  · rw [List.mem_singleton.mp hf] at he
    cases he

/-- Every sink is called with the same arguments in the same order in a parallel run and in the
sequential one. At any time the calls of one run are an initial part of those of the other; those
of a run that has come to its end are all. -/
theorem parallel_eq_sequential (A : Program N V) (workers : ℕ) (es es' : List (ℕ × ℕ))
    (hg : Always (mtapiCode A) (fun _ choice f m fs => Ordered A choice f m.1 fs)
      (mtapiBoot N V workers) es)
    (hg' : Always (sequentialCode A) (fun _ choice f _ _ => Decided A choice f)
      (sequentialBoot N V) es') :
    let s := run (mtapiCode A) (mtapiBoot N V workers) es
    let t := run (sequentialCode A) (sequentialBoot N V) es'
    let ended := s.mem.1.pool = [] ∧ .done ∈ s.frames ∧ ∀ f ∈ s.frames, f.waits = true
    let ended' := t.callStacks = [[.done]]
    ∀ v < N.nodes, N.sink v = true →
      (s.mem.2.calls v <+: t.mem.2.calls v ∨ t.mem.2.calls v <+: s.mem.2.calls v) ∧
      (ended → t.mem.2.calls v <+: s.mem.2.calls v) ∧
      (ended' → s.mem.2.calls v <+: t.mem.2.calls v) ∧
      (ended → ended' → s.mem.2.calls v = t.mem.2.calls v) := by
  intro s t ended ended' v hv hs
  have hpar : Computes A s.mem s.frames := computes_parallel A workers hg
  obtain ⟨st, n, hst, hseq⟩ := computes_sequential A hg'
  have hpart := hpar.calls_eq hs
  have hpart' := hseq.computes.calls_eq hs
  have hle := hpar.length_enqueued_le hs
  have hle' := hseq.computes.length_enqueued_le hs
  have hall : ended → s.mem.2.calls v = A.callsUpTo v s.mem.1.emitted ∧
      A.Emits s.mem.1.emitted := fun hr =>
    ⟨hpar.calls_at_rest hr.1 hr.2.2 hv hs, hpar.emits_of_done hr.2.1⟩
  have hall' : ended' → t.mem.2.calls v = A.callsUpTo v t.mem.1.emitted ∧
      A.Emits t.mem.1.emitted := fun hr => by
    have hdone : st = [.done] := (List.cons.inj (hst.symm.trans hr)).1
    subst hdone
    refine ⟨hseq.computes.calls_at_rest hseq.pool (fun f hf => ?_) hv hs,
      hseq.computes.emits_of_done (Multiset.mem_add.mpr (Or.inl (List.mem_singleton_self _)))⟩
    rcases Multiset.mem_add.mp hf with hf | hf
    · rw [List.mem_singleton.mp (Multiset.mem_coe.mp hf)]
      rfl
    · rw [Multiset.eq_of_mem_replicate hf]
      rfl
  refine ⟨?_, fun hr => ?_, fun hr => ?_, fun hr hr' => ?_⟩
  · rw [hpart.1, hpart'.1]
    rcases le_total (ofNode v s.mem.1.reached).length (ofNode v t.mem.1.reached).length with h | h
    · exact Or.inl (A.callsUpTo_prefix v h)
    · exact Or.inr (A.callsUpTo_prefix v h)
  · have hbound := (hall hr).2.le hseq.computes.goes_on
    rw [(hall hr).1, hpart'.1]
    exact A.callsUpTo_prefix v (hpart'.2.trans (hle'.trans hbound))
  · have hbound := (hall' hr).2.le hpar.goes_on
    rw [(hall' hr).1, hpart.1]
    exact A.callsUpTo_prefix v (hpart.2.trans (hle.trans hbound))
  · have hsame : s.mem.1.emitted = t.mem.1.emitted :=
      le_antisymm ((hall' hr').2.le hpar.goes_on) ((hall hr).2.le hseq.computes.goes_on)
    rw [(hall hr).1, (hall' hr').1, hsame]

instance decidableDecided {A : Program N V} :
    (choice : ℕ) → (f : NetFrame) → Decidable (Decided A choice f)
  | choice, .start c k =>
    inferInstanceAs (Decidable (k < N.sources ∨ (choice = 0 ↔ A.more c = false)))
  | _, .waitSinks _ | _, .waitSlice _ | _, .finalSinks .. | _, .finalSlice .. | _, .destroy _
  | _, .done | _, .setCounter _ | _, .send .. | _, .sinkRun .. | _, .endTask _ | _, .idle
  | _, .sinkThrown => isTrue trivial

instance decidableInTurn (m : NetMemory) (fs : Multiset NetFrame) (choice : ℕ) :
    Decidable (InTurn N m fs choice) :=
  inferInstanceAs (Decidable (∀ x ∈ m.pool[choice]?, N.sink x.1 = true →
    (∀ y ∈ m.pool.take choice, y.1 ≠ x.1) ∧ ∀ g ∈ fs, g.node ≠ some x.1))

instance decidableOrdered {A : Program N V} (choice : ℕ) (f : NetFrame) (m : NetMemory)
    (fs : Multiset NetFrame) : Decidable (Ordered A choice f m fs) :=
  inferInstanceAs (Decidable (Decided A choice f ∧ (f = .idle → InTurn N m fs choice)))

/-- The process of the pipeline doubles the number that the source has sent. -/
def doubling : Program pipeline ℕ where
  kind v := if v = 0 then .process fun inputs _ => 2 * inputs.headD 0 else .sink
  truth := fun _ => false
  output := fun _ _ => 0
  source := fun _ c _ => c + 3
  more := fun _ => false

def oneClockSequential : List (ℕ × ℕ) := List.replicate 50 (0, 0)

theorem parallel_eq_sequential_once :
    (run (mtapiCode doubling) (mtapiBoot pipeline ℕ 1) oneClock).mem.2.calls 1 =
      (run (sequentialCode doubling) (sequentialBoot pipeline ℕ)
        oneClockSequential).mem.2.calls 1 :=
  (parallel_eq_sequential doubling 1 oneClock oneClockSequential (by decide +kernel)
    (by decide +kernel) 1 (by decide) (by decide)).2.2.2
    ⟨by decide +kernel, by decide +kernel, by decide +kernel⟩ (by decide +kernel)

end Embb.Dataflow
