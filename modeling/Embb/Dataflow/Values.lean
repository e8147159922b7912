import Embb.Dataflow.Tokens

/-!
# The values that reach the sinks

What a run sends depends on the signals that it has found at its inputs, so every input has one
signal for each clock, however the threads interleave. A sink runs its clocks in order when the
tasks of its queue are taken in order, one at a time.
-/

namespace Embb.Dataflow

open Threads

/-- What a node does with its signals. `process` has a function for each output; blank signals
are `none`. -/
inductive Kind (V : Type)
  | process (function : List V → ℕ → V)
  | switch
  | select
  | sink

/-- `Run`: the signal that is sent on an output. -/
def Kind.run {V : Type} (truth : V → Bool) (inputs : List (Option V)) (output : ℕ) :
    Kind V → Option V
  | .process function =>
    if inputs.all Option.isSome then some (function (inputs.filterMap id) output) else none
  | .switch =>
    match inputs with
    | [some pred, some val] => if truth pred = (output == 0) then some val else none
    | _ => none
  | .select =>
    match inputs with
    | [some pred, val1, val2] => if truth pred then val1 else val2
    | _ => none
  | .sink => none

/-- The functions of a network. `more` tells whether all sources go on after a clock. -/
structure Program (N : Network) (V : Type) where
  kind : ℕ → Kind V
  truth : V → Bool
  /-- The output that an input is connected to. -/
  output : ℕ → ℕ → ℕ
  source : ℕ → ℕ → ℕ → V
  more : ℕ → Bool

namespace Program

variable {N : Network} {V : Type} (A : Program N V)

/-- What a run with these inputs sends to input `i` of node `w`. -/
def sends (s : Sender) (c : ℕ) (inputs : List (Option V)) (w i : ℕ) : Option V :=
  match s with
  | .source k => some (A.source k c (A.output w i))
  | .node v => (A.kind v).run A.truth inputs (A.output w i)

/-- The signal that input `i` of node `w` gets for clock `c`. -/
def signalAt (w i c : ℕ) : Option V :=
  match N.sender w i with
  | .source k => A.sends (.source k) c [] w i
  | .node v =>
    if v < w then A.sends (.node v) c ((List.range (N.inputs v)).map fun j => signalAt v j c) w i
    else none
termination_by w

/-- The signals that node `v` finds for clock `c`. -/
def inputsAt (v c : ℕ) : List (Option V) := (List.range (N.inputs v)).map fun j => A.signalAt v j c

/-- The arguments of the function of a sink, if no signal is blank. -/
def arguments (inputs : List (Option V)) : Option (List V) :=
  if inputs.all Option.isSome then some (inputs.filterMap id) else none

/-- An input gets what its sender sends. -/
theorem sends_inputsAt {w i : ℕ} (hw : w < N.nodes) (hi : i < N.inputs w) (c : ℕ) :
    A.signalAt w i c = A.sends (N.sender w i) c
      (match N.sender w i with
        | .source _ => []
        | .node v => A.inputsAt v c) w i := by
  rw [signalAt]
  split
  · next k hs =>
    rw [hs]
  · next v hs =>
    rw [hs, if_pos (N.node_lt w hw i hi v hs)]
    rfl

end Program

/-- The signals in the slots, what each run has found at its inputs, and the calls of the
functions of the sinks. A node runs for a clock once, so that its local variables can be kept
under both. -/
structure Values (V : Type) where
  slot : ℕ → ℕ → ℕ → Option V
  found : ℕ → ℕ → List (Option V)
  calls : ℕ → List (List V)

namespace Values

variable {N : Network} {V : Type}

def init : Values V := ⟨fun _ _ _ => none, fun _ _ => [], fun _ => []⟩

def read (N : Network) (l : Values V) (v c : ℕ) : List (Option V) :=
  (List.range (N.inputs v)).map fun i => l.slot v i (c % N.slices)

/-- The run of node `v` for clock `c` begins. -/
def begin (N : Network) (l : Values V) (v c : ℕ) : Values V :=
  { l with found := Function.update l.found v (Function.update (l.found v) c (l.read N v c)) }

/-- What the run of a sender has found at its inputs. -/
def foundBy (l : Values V) (s : Sender) (c : ℕ) : List (Option V) :=
  match s with
  | .source _ => []
  | .node v => l.found v c

def store (N : Network) (l : Values V) (w i c : ℕ) (x : Option V) : Values V :=
  { l with
    slot := Function.update l.slot w
      (Function.update (l.slot w) i (Function.update (l.slot w i) (c % N.slices) x)) }

/-- The function of a sink is called, if no signal is blank. -/
def call (N : Network) (l : Values V) (v c : ℕ) : Values V :=
  match Program.arguments (l.read N v c) with
  | some arguments => { l with calls := Function.update l.calls v (l.calls v ++ [arguments]) }
  | none => l

/-- What a step does with values. -/
def record (A : Program N V) (choice : ℕ) (f : NetFrame) (m : NetMemory) (l : Values V) :
    Values V :=
  match f with
  | .send s c _ (some (w, .store i d)) => l.store N w i d (A.sends s c (l.foundBy s c) w i)
  | .idle =>
    match m.pool[choice]? with
    | some (v, c) => l.begin N v c
    | none => l
  | .sinkRun v c => l.call N v c
  | _ => l

end Values

/-- The program on MTAPI, with values. -/
def mtapiCode {N : Network} {V : Type} (A : Program N V) : Code (NetMemory × Values V) NetFrame ℕ :=
  logged (netCode N) fun _ choice f m l => l.record A choice f m

/-- The sources decide whether to go on. -/
def Decided {N : Network} {V : Type} (A : Program N V) (choice : ℕ) (f : NetFrame) : Prop :=
  match f with
  | .start c k => k < N.sources ∨ (choice = 0 ↔ A.more c = false)
  | _ => True

/-- The node that a thread runs. -/
def NetFrame.node : NetFrame → Option ℕ
  | .send (.node v) _ _ _ | .sinkRun v _ => some v
  | _ => none

/-- A worker takes a task of a sink only when it is the first one of the sink and none of the
sink is running, as an ordered queue does. -/
def InTurn (N : Network) (m : NetMemory) (fs : Multiset NetFrame) (choice : ℕ) : Prop :=
  ∀ x ∈ m.pool[choice]?, N.sink x.1 = true →
    (∀ y ∈ m.pool.take choice, y.1 ≠ x.1) ∧ ∀ g ∈ fs, g.node ≠ some x.1

def Ordered {N : Network} {V : Type} (A : Program N V) (choice : ℕ) (f : NetFrame)
    (m : NetMemory) (fs : Multiset NetFrame) : Prop :=
  Decided A choice f ∧ (f = .idle → InTurn N m fs choice)

theorem running_eq_zero {fs : Multiset NetFrame} {v : ℕ} (h : ∀ g ∈ fs, g.node ≠ some v) (d : ℕ) :
    running fs v d = 0 :=
  Multiset.countP_eq_zero.mpr fun g hg hr => by
    refine h g hg ?_
    cases g with
    | send s c rest call =>
      cases s with
      | source k => cases hr
      | node w => rw [← (of_decide_eq_true hr).1]; rfl
    | sinkRun w c => rw [← (of_decide_eq_true hr).1]; rfl
    | _ => cases hr

/-- The clocks of the entries of a node. -/
def ofNode (v : ℕ) (xs : List (ℕ × ℕ)) : List ℕ := (xs.filter fun x => x.1 = v).map Prod.snd

theorem ofNode_append (v : ℕ) (xs ys : List (ℕ × ℕ)) :
    ofNode v (xs ++ ys) = ofNode v xs ++ ofNode v ys := by
  rw [ofNode, List.filter_append, List.map_append]
  rfl

theorem ofNode_cons (v : ℕ) (x : ℕ × ℕ) (xs : List (ℕ × ℕ)) :
    ofNode v (x :: xs) = (if x.1 = v then [x.2] else []) ++ ofNode v xs := by
  simp only [ofNode, List.filter_cons, decide_eq_true_eq]
  split <;> rfl

theorem ofNode_pairs (v w : ℕ) (cs : List ℕ) :
    ofNode v (cs.map fun c => (w, c)) = if v = w then cs else [] := by
  rw [ofNode, List.filter_map, List.map_map]
  split
  · next h =>
    have hall : cs.filter ((fun x : ℕ × ℕ => decide (x.1 = v)) ∘ fun c => (w, c)) = cs :=
      List.filter_eq_self.mpr fun c _ => decide_eq_true h.symm
    rw [hall]
    exact List.map_id cs
  · next h =>
    have hnone : cs.filter ((fun x : ℕ × ℕ => decide (x.1 = v)) ∘ fun c => (w, c)) = [] :=
      List.filter_eq_nil_iff.mpr fun c _ hc => h (of_decide_eq_true hc).symm
    rw [hnone]
    rfl

/-- The main thread goes on with what the sources have decided. -/
def NetFrame.Follows {N : Network} {V : Type} (A : Program N V) (m : NetMemory) : NetFrame → Prop
  | .waitSinks _ | .waitSlice _ | .setCounter _ => ∀ d < m.emitted, A.more d = true
  | .start _ _ | .send (.source _) _ _ _ => ∀ d, d + 1 < m.emitted → A.more d = true
  | .finalSinks _ _ | .finalSlice _ _ | .destroy _ | .done =>
    (∀ d, d + 1 < m.emitted → A.more d = true) ∧ 0 < m.emitted ∧ A.more (m.emitted - 1) = false
  | _ => True

/-- The slots hold the signals of their clocks, the runs of the sinks come in order, and their
functions have been called accordingly. -/
structure Agrees {N : Network} {V : Type} (A : Program N V) (m : NetMemory) (l : Values V)
    (fs : Multiset NetFrame) : Prop where
  slots : ∀ w < N.nodes, ∀ i < N.inputs w, ∀ c, i ∈ (m.node w).arrived c →
    i ∉ (m.node w).arrived (c + N.slices) → l.slot w i (c % N.slices) = A.signalAt w i c
  found : ∀ f ∈ fs, ∀ v c, f.runs v c = true → N.sink v = false → l.found v c = A.inputsAt v c
  order : ∀ v, N.sink v = true → ∃ mid : List ℕ,
    (m.node v).enqueued = ofNode v m.reached ++ mid ++ ofNode v m.pool ∧ mid.length ≤ 1 ∧
      ∀ c, running fs v c = mid.count c
  calls : ∀ v, l.calls v =
    (ofNode v m.reached).filterMap fun c => Program.arguments (A.inputsAt v c)
  follows : ∀ f ∈ fs, f.Follows A m

/-- What a frame follows depends on the number of emitted clocks only. -/
theorem NetFrame.Follows.congr {N : Network} {V : Type} {A : Program N V} {m m' : NetMemory}
    {f : NetFrame} (h : f.Follows A m) (he : m'.emitted = m.emitted) : f.Follows A m' := by
  cases f with
  | send s c rest call =>
    cases s with
    | source k => simpa only [NetFrame.Follows, he] using h
    | node v => trivial
  | sinkRun | endTask | idle | sinkThrown => trivial
  | _ => simpa only [NetFrame.Follows, he] using h

namespace Agrees

variable {N : Network} {V : Type} {A : Program N V} {m m' : NetMemory} {l : Values V}
  {f f' : NetFrame} {fs others : Multiset NetFrame}

/-- A frame that runs nothing new has found what it runs. -/
theorem found_cons (h : Agrees A m l (f ::ₘ others))
    (hruns : ∀ v c, f'.runs v c = true → f.runs v c = true) :
    ∀ g ∈ f' ::ₘ others, ∀ v c, g.runs v c = true → N.sink v = false →
      l.found v c = A.inputsAt v c := by
  intro g hg v c hr hs
  rcases Multiset.mem_cons.mp hg with rfl | hg
  · exact h.found f (Multiset.mem_cons_self _ _) v c (hruns v c hr) hs
  · exact h.found g (Multiset.mem_cons_of_mem hg) v c hr hs

theorem follows_cons (h : Agrees A m l (f ::ₘ others)) (he : m'.emitted = m.emitted)
    (hf : f'.Follows A m') : ∀ g ∈ f' ::ₘ others, g.Follows A m' := by
  intro g hg
  rcases Multiset.mem_cons.mp hg with rfl | hg
  · exact hf
  · exact (h.follows g (Multiset.mem_cons_of_mem hg)).congr he

/-- A step that touches neither signals nor tasks. -/
theorem goes (h : Agrees A m l (f ::ₘ others)) (hnode : m'.node = m.node)
    (hreached : m'.reached = m.reached) (hpool : m'.pool = m.pool)
    (hruns : ∀ v c, f'.runs v c = true → f.runs v c = true)
    (hsink : ∀ v c, N.sink v = true → f'.runs v c = f.runs v c)
    (hf : f'.Follows A m') (ho : ∀ g ∈ others, g.Follows A m → g.Follows A m') :
    Agrees A m' l (f' ::ₘ others) where
  slots := by
    rw [hnode]
    exact h.slots
  found := h.found_cons hruns
  order v hs := by
    obtain ⟨mid, h1, h2, h3⟩ := h.order v hs
    refine ⟨mid, ?_, h2, fun c => ?_⟩
    · rw [hnode, hreached, hpool]
      exact h1
    · rw [running_goes (hsink v c hs)]
      exact h3 c
  calls := by
    rw [hreached]
    exact h.calls
  follows g hg := by
    rcases Multiset.mem_cons.mp hg with rfl | hg
    · exact hf
    · exact ho g hg (h.follows g (Multiset.mem_cons_of_mem hg))

/-- A run that is at work, or about to begin, finds the signals of its clock. -/
theorem read_eq (h : Agrees A m l fs) (hw : NetWorks N m fs) {v c : ℕ}
    (hc : c ∈ (m.node v).enqueued) (hcur : ¬ c + N.slices < m.emitted) :
    l.read N v c = A.inputsAt v c := by
  refine List.map_congr_left fun i hi => ?_
  have hi' : i < N.inputs v := List.mem_range.mp hi
  obtain ⟨hv, -⟩ := hw.lt_of_handed hc
  refine h.slots v hv i hi' c (hw.complete hc i hi') fun hnext => ?_
  exact hcur (hw.emitted v _ i hnext).2

/-- Workers follow nothing. -/
theorem follows_worker {g : NetFrame} (hg : g.isMain = false) : g.Follows A m' := by
  cases g with
  | send s c rest call =>
    cases s with
    | source k => cases hg
    | node v => trivial
  | sinkRun | endTask | idle | sinkThrown => trivial
  | _ => cases hg

theorem store {s : Sender} {c w i d : ℕ} {rest : List (ℕ × ℕ)} {f' : NetFrame}
    (h : Agrees A m l (.send s c rest (some (w, .store i d)) ::ₘ others))
    (hw : NetWorks N m (.send s c rest (some (w, .store i d)) ::ₘ others))
    (hnew : NetWorks N (m.nodeStep N w (.store i d)) (f' ::ₘ others))
    (hf : ∀ v e, f'.runs v e = (NetFrame.send s c rest (some (w, .store i d))).runs v e)
    (hfollow : f'.Follows A m) :
    Agrees A (m.nodeStep N w (.store i d))
      (l.store N w i d (A.sends s c (l.foundBy s c) w i)) (f' ::ₘ others) where
  slots u hu j hj e he he' := by
    obtain ⟨-, -, hcall, -⟩ := hw.formed _ (Multiset.mem_cons_self _ _)
    obtain ⟨hwn, rfl, hmem⟩ := hcall w (.store i d) rfl
    obtain ⟨-, hi, hsend⟩ := (N.mem_targets s w i).mp hmem
    by_cases hself : u = w ∧ j = i ∧ e % N.slices = d % N.slices
    · obtain ⟨rfl, rfl, hmod⟩ := hself
      -- the new signal is at its clock, so it is the only one of the slot
      have hde : e = d := by
        have hslot := (hnew.nodes u).arrived.slot e j he he'
        rw [m.node_nodeStep_self N u (.store j d)] at hslot
        have hclock : (((m.node u).setSignal (N.shape u) j d)).signal (N.shape u) j e = d := by
          have hs := Arrived.signal_setSignal_self (P := N.shape u) (m := m.node u) j d
          rw [Memory.signal] at hs ⊢
          change Memory.clock _ j (e % N.slices) = _
          rw [hmod]
          exact hs
        have heq : ((e : ℕ) : ℤ) = d := hslot.symm.trans hclock
        exact Int.ofNat.inj heq
      subst hde
      have hval : (l.store N u j e (A.sends s e (l.foundBy s e) u j)).slot u j (e % N.slices) =
          A.sends s e (l.foundBy s e) u j := by
        simp only [Values.store, Function.update_self]
      rw [hval, A.sends_inputsAt hu hj, hsend]
      cases s with
      | source k => rfl
      | node v =>
        have hns : N.sink v = false := by
          by_contra hsink
          rw [N.sink_targets v (Bool.eq_true_of_not_eq_false hsink)] at hmem
          exact absurd hmem List.not_mem_nil
        have hfound := h.found _ (Multiset.mem_cons_self _ _) v e (decide_eq_true ⟨rfl, rfl⟩) hns
        simp only [Values.foundBy, hfound]
    · have hval : (l.store N w i d (A.sends s d (l.foundBy s d) w i)).slot u j (e % N.slices) =
          l.slot u j (e % N.slices) := by
        simp only [Values.store]
        by_cases hu' : u = w
        · subst hu'
          rw [Function.update_self]
          by_cases hj' : j = i
          · subst hj'
            rw [Function.update_self, Function.update_of_ne fun hm => hself ⟨rfl, rfl, hm⟩]
          · rw [Function.update_of_ne hj']
        · rw [Function.update_of_ne hu']
      rw [hval]
      have harr : ∀ b, j ∈ ((m.nodeStep N w (.store i d)).node u).arrived b ↔
          j ∈ (m.node u).arrived b ∨ u = w ∧ Frame.store i d = .store j b :=
        fun b => m.mem_arrived_nodeStep N w (.store i d)
      refine h.slots u hu j hj e (((harr e).mp he).resolve_right ?_) fun hn =>
        he' ((harr _).mpr (Or.inl hn))
      rintro ⟨rfl, hs⟩
      cases hs
      exact hself ⟨rfl, rfl, rfl⟩
  found := h.found_cons fun v e hr => hf v e ▸ hr
  order v hs := by
    obtain ⟨mid, h1, h2, h3⟩ := h.order v hs
    refine ⟨mid, ?_, h2, fun e => ?_⟩
    · have henq : ((m.nodeStep N w (.store i d)).node v).enqueued = (m.node v).enqueued := by
        rw [m.enqueued_nodeStep N w (.store i d) v]
        exact (congrArg _ (ite_self _)).trans (List.append_nil _)
      have hpool : (m.nodeStep N w (.store i d)).pool = m.pool := List.append_nil _
      rw [henq, hpool]
      exact h1
    · rw [running_goes (hf v e)]
      exact h3 e
  calls := h.calls
  follows := h.follows_cons rfl (by cases f' <;> exact hfollow)

/-- A step of a call that stores nothing may hand over a clock. -/
theorem hand {s : Sender} {c w : ℕ} {rest : List (ℕ × ℕ)} {fr : Frame} {f' : NetFrame}
    (h : Agrees A m l (.send s c rest (some (w, fr)) ::ₘ others))
    (hfr : ∀ i d, fr ≠ .store i d)
    (hf : ∀ v e, f'.runs v e = (NetFrame.send s c rest (some (w, fr))).runs v e)
    (hfollow : f'.Follows A m) : Agrees A (m.nodeStep N w fr) l (f' ::ₘ others) where
  slots u hu j hj e he he' := by
    have harr : ∀ b, j ∈ ((m.nodeStep N w fr).node u).arrived b ↔ j ∈ (m.node u).arrived b :=
      fun b => (m.mem_arrived_nodeStep N w fr).trans (or_iff_left fun hs => hfr j b hs.2)
    exact h.slots u hu j hj e ((harr e).mp he) fun hn => he' ((harr _).mpr hn)
  found := h.found_cons fun v e hr => hf v e ▸ hr
  order v hs := by
    obtain ⟨mid, h1, h2, h3⟩ := h.order v hs
    refine ⟨mid, ?_, h2, fun e => ?_⟩
    · have henq := m.enqueued_nodeStep N w fr v
      have hpool : (m.nodeStep N w fr).pool = m.pool ++ fr.hands.map fun c => (w, c) := rfl
      rw [henq, hpool, ofNode_append, ofNode_pairs, h1, List.append_assoc]
      rfl
    · rw [running_goes (hf v e)]
      exact h3 e
  calls := h.calls
  follows := h.follows_cons rfl (by cases f' <;> exact hfollow)

/-- The clock of a frame that is left has not been passed. -/
theorem not_passed (hw : NetWorks N m fs) (hf : f ∈ fs) {c : ℕ} (hc : f.clock = some c) :
    ¬ c + N.slices < m.emitted := fun hlt => (hw.gone c (Or.inl hlt)).2 f hf hc

theorem sinkRun {v c : ℕ} (h : Agrees A m l (.sinkRun v c ::ₘ others))
    (hw : NetWorks N m (.sinkRun v c ::ₘ others)) (k : ℤ) :
    Agrees A { m with
        sinkCounter := Function.update m.sinkCounter (c % N.slices) k
        reached := m.reached ++ [(v, c)] } (l.call N v c) (.endTask c ::ₘ others) := by
  obtain ⟨-, hsink, -⟩ := hw.formed _ (Multiset.mem_cons_self _ _)
  have hrun : ∀ u d, running (.sinkRun v c ::ₘ others) u d =
      running others u d + if v = u ∧ c = d then 1 else 0 := fun u d => by
    rw [running_cons]
    simp only [NetFrame.runs, decide_eq_true_eq]
  have hrun' : ∀ u d, running (.endTask c ::ₘ others) u d = running others u d := fun u d =>
    running_cons ..
  have hhand : c ∈ (m.node v).enqueued := by
    have htasks := hw.tasks v c
    rw [hrun, if_pos ⟨rfl, rfl⟩] at htasks
    exact List.count_pos_iff.mp (by omega)
  have hread : l.read N v c = A.inputsAt v c :=
    h.read_eq hw hhand (not_passed hw (Multiset.mem_cons_self _ _) rfl)
  have hof : ∀ u, ofNode u (m.reached ++ [(v, c)]) =
      ofNode u m.reached ++ if u = v then [c] else [] := fun u => by
    rw [ofNode_append]
    exact congrArg _ (ofNode_pairs u v [c])
  have hslot : (l.call N v c).slot = l.slot := by
    rw [Values.call]
    split <;> rfl
  have hfound : (l.call N v c).found = l.found := by
    rw [Values.call]
    split <;> rfl
  refine ⟨?_, fun g hg u d hr hs => ?_, fun u hs => ?_, fun u => ?_, fun g hg => ?_⟩
  · rw [hslot]
    exact h.slots
  · rw [hfound]
    rcases Multiset.mem_cons.mp hg with rfl | hg
    · cases hr
    · exact h.found g (Multiset.mem_cons_of_mem hg) u d hr hs
  · obtain ⟨mid, h1, h2, h3⟩ := h.order u hs
    rw [hof]
    by_cases hu : u = v
    · subst hu
      have hpos := h3 c
      rw [hrun, if_pos ⟨rfl, rfl⟩] at hpos
      have hlen : mid.length = 1 := by
        have hle : mid.count c ≤ mid.length := List.count_le_length
        omega
      obtain ⟨x, rfl⟩ := List.length_eq_one_iff.mp hlen
      have hx : x = c := by
        by_contra hne
        rw [List.count_singleton, if_neg (by simpa only [beq_iff_eq] using hne)] at hpos
        omega
      subst hx
      refine ⟨[], ?_, Nat.zero_le _, fun d => ?_⟩
      · rw [if_pos rfl, List.append_nil]
        exact h1
      · have hd := h3 d
        rw [hrun, List.count_singleton] at hd
        rw [hrun', List.count_nil]
        simp only [true_and, beq_iff_eq] at hd
        omega
    · refine ⟨mid, ?_, h2, fun d => ?_⟩
      · rw [if_neg hu, List.append_nil]
        exact h1
      · have hd := h3 d
        rw [hrun, if_neg fun hx => hu hx.1.symm] at hd
        rw [hrun']
        exact hd
  · have hcalls := h.calls u
    change (l.call N v c).calls u = (ofNode u (m.reached ++ [(v, c)])).filterMap _
    rw [hof, Values.call, hread]
    by_cases hu : u = v
    · subst hu
      rw [if_pos rfl, List.filterMap_append, ← hcalls]
      split
      · next xs hxs =>
        change Function.update l.calls u (l.calls u ++ [xs]) u = _
        simp only [Function.update_self, List.filterMap_cons, hxs, List.filterMap_nil]
      · next hxs =>
        simp only [List.filterMap_cons, hxs, List.filterMap_nil, List.append_nil]
    · rw [if_neg hu, List.append_nil, ← hcalls]
      split
      · exact Function.update_of_ne hu ..
      · rfl
  · refine h.follows_cons rfl ?_ g hg
    exact trivial

/-- The first entry of a node is taken away. -/
theorem ofNode_eraseIdx {v c j : ℕ} {xs : List (ℕ × ℕ)} (hj : xs[j]? = some (v, c))
    (hfirst : ∀ x ∈ xs.take j, x.1 ≠ v) : ofNode v xs = c :: ofNode v (xs.eraseIdx j) := by
  induction xs generalizing j with
  | nil => cases hj
  | cons x xs ih =>
    cases j with
    | zero =>
      cases hj
      rw [List.eraseIdx_cons_zero, ofNode_cons, if_pos rfl]
      rfl
    | succ j =>
      have hx : x.1 ≠ v := hfirst x (by rw [List.take_succ_cons]; exact List.mem_cons_self)
      have hrest := ih (j := j) (by simpa only [List.getElem?_cons_succ] using hj) fun y hy =>
        hfirst y (by rw [List.take_succ_cons]; exact List.mem_cons_of_mem _ hy)
      rw [List.eraseIdx_cons_succ, ofNode_cons v x, ofNode_cons v x, if_neg hx, hrest]
      rfl

theorem ofNode_eraseIdx_ne {u v c j : ℕ} {xs : List (ℕ × ℕ)} (hj : xs[j]? = some (v, c))
    (hu : u ≠ v) : ofNode u (xs.eraseIdx j) = ofNode u xs := by
  induction xs generalizing j with
  | nil => cases hj
  | cons x xs ih =>
    cases j with
    | zero =>
      cases hj
      rw [List.eraseIdx_cons_zero, ofNode_cons, if_neg fun he => hu he.symm]
      rfl
    | succ j =>
      have hrest := ih (j := j) (by simpa only [List.getElem?_cons_succ] using hj)
      rw [List.eraseIdx_cons_succ, ofNode_cons u x, ofNode_cons u x, hrest]

theorem take {v c j : ℕ} (h : Agrees A m l (.idle ::ₘ others))
    (hw : NetWorks N m (.idle ::ₘ others)) (hj : m.pool[j]? = some (v, c))
    (hg : N.sink v = true →
      (∀ x ∈ m.pool.take j, x.1 ≠ v) ∧ ∀ d, running (.idle ::ₘ others) v d = 0) :
    Agrees A { m with pool := m.pool.eraseIdx j } (l.begin N v c)
      (.send (.node v) c (N.targets (.node v)) none ::ₘ others) := by
  have hmem : (v, c) ∈ m.pool := List.mem_of_getElem? hj
  have hhand : c ∈ (m.node v).enqueued := by
    have htasks := hw.tasks v c
    have hpos := List.count_pos_iff.mpr hmem
    exact List.count_pos_iff.mp (by omega)
  have hread : l.read N v c = A.inputsAt v c :=
    h.read_eq hw hhand fun hlt => (hw.gone c (Or.inl hlt)).1 _ hmem rfl
  have hfound : ∀ u d, (l.begin N v c).found u d =
      if u = v ∧ d = c then A.inputsAt v c else l.found u d := fun u d => by
    simp only [Values.begin]
    by_cases hu : u = v
    · subst hu
      by_cases hd : d = c
      · subst hd
        rw [Function.update_self, Function.update_self, if_pos ⟨rfl, rfl⟩, hread]
      · rw [Function.update_self, Function.update_of_ne hd, if_neg fun hx => hd hx.2]
    · rw [Function.update_of_ne hu, if_neg fun hx => hu hx.1]
  have hrun : ∀ u d, running (.send (.node v) c (N.targets (.node v)) none ::ₘ others) u d =
      running (.idle ::ₘ others) u d + if v = u ∧ c = d then 1 else 0 := fun u d => by
    rw [running_cons, running_cons]
    simp only [NetFrame.runs, decide_eq_true_eq, Bool.false_eq_true, if_false, Nat.add_zero]
  refine ⟨h.slots, fun g hg' u d hr hs => ?_, fun u hs => ?_, h.calls, fun g hg' => ?_⟩
  · rw [hfound]
    split
    · next hx =>
      rw [hx.1, hx.2]
    · next hx =>
      rcases Multiset.mem_cons.mp hg' with rfl | hg'
      · obtain ⟨rfl, rfl⟩ := of_decide_eq_true hr
        exact absurd ⟨rfl, rfl⟩ hx
      · exact h.found g (Multiset.mem_cons_of_mem hg') u d hr hs
  · obtain ⟨mid, h1, h2, h3⟩ := h.order u hs
    by_cases hu : u = v
    · subst hu
      obtain ⟨hfirst, hnone⟩ := hg hs
      have hmid : mid = [] := by
        cases mid with
        | nil => rfl
        | cons x mid =>
          have hx := h3 x
          rw [hnone, List.count_cons_self] at hx
          omega
      subst hmid
      refine ⟨[c], ?_, le_refl _, fun d => ?_⟩
      · rw [ofNode_eraseIdx hj hfirst] at h1
        rw [h1, List.append_nil, List.append_assoc]
        rfl
      · rw [hrun, hnone, List.count_singleton]
        simp only [true_and, beq_iff_eq, Nat.zero_add]
    · refine ⟨mid, ?_, h2, fun d => ?_⟩
      · change _ = ofNode u m.reached ++ mid ++ ofNode u (m.pool.eraseIdx j)
        rw [ofNode_eraseIdx_ne hj hu]
        exact h1
      · rw [hrun, if_neg fun hx => hu hx.1.symm]
        exact h3 d
  · refine h.follows_cons rfl ?_ g hg'
    exact trivial

/-- A step of the main thread between its loops. -/
theorem goes_main (h : Agrees A m l (f ::ₘ others)) (hw : NetWorks N m (f ::ₘ others))
    (hm : f.isMain = true) (hnode : m'.node = m.node) (hreached : m'.reached = m.reached)
    (hpool : m'.pool = m.pool) (hruns : ∀ v c, f'.runs v c = f.runs v c)
    (hf : f'.Follows A m') : Agrees A m' l (f' ::ₘ others) :=
  h.goes hnode hreached hpool (fun v c hr => (hruns v c) ▸ hr) (fun v c _ => hruns v c) hf
    fun g hg _ => follows_worker (hw.not_main hm g hg)

/-- A step of a worker outside of the nodes. -/
theorem goes_worker (h : Agrees A m l (f ::ₘ others)) (hnode : m'.node = m.node)
    (hreached : m'.reached = m.reached) (hpool : m'.pool = m.pool)
    (he : m'.emitted = m.emitted)
    (hruns : ∀ v c, f'.runs v c = true → f.runs v c = true)
    (hsink : ∀ v c, N.sink v = true → f'.runs v c = f.runs v c) (hf : f'.isMain = false) :
    Agrees A m' l (f' ::ₘ others) :=
  h.goes hnode hreached hpool hruns hsink (follows_worker hf) fun _ _ hold => hold.congr he

theorem exec_call {s : Sender} {c w : ℕ} {rest : List (ℕ × ℕ)} {fr : Frame} (choice : ℕ)
    (h : Agrees A m l (.send s c rest (some (w, fr)) ::ₘ others))
    (hw : NetWorks N m (.send s c rest (some (w, fr)) ::ₘ others)) :
    Agrees A (netExec N choice m (.send s c rest (some (w, fr)))).1
      (l.record A choice (.send s c rest (some (w, fr))) m)
      ((netExec N choice m (.send s c rest (some (w, fr)))).2 ::ₘ others) := by
  have hruns : ∀ v e, (NetFrame.send s c rest
      (returns w (Dataflow.exec (N.shape w) none (m.node w) fr).2)).runs v e =
      (NetFrame.send s c rest (some (w, fr))).runs v e := fun v e => by
    cases s <;> rfl
  have hfollow : (NetFrame.send s c rest
      (returns w (Dataflow.exec (N.shape w) none (m.node w) fr).2)).Follows A m := by
    have hold := h.follows _ (Multiset.mem_cons_self _ _)
    cases s <;> exact hold
  have hnew := hw.exec choice
  cases fr with
  | store i d => exact h.store hw hnew hruns hfollow
  | _ => exact h.hand (fun _ _ he => by cases he) hruns hfollow

theorem exec (h : Agrees A m l (f ::ₘ others)) (hw : NetWorks N m (f ::ₘ others)) (choice : ℕ)
    (hg : Ordered A choice f m (f ::ₘ others)) :
    Agrees A (netExec N choice m f).1 (l.record A choice f m)
      ((netExec N choice m f).2 ::ₘ others) := by
  have hform := hw.formed f (Multiset.mem_cons_self _ _)
  have hfollow := h.follows f (Multiset.mem_cons_self _ _)
  cases f with
  | waitSinks c =>
    simp only [netExec]
    split
    · exact h
    · exact h.goes_main hw rfl rfl rfl rfl (fun _ _ => rfl) hfollow
  | waitSlice c =>
    simp only [netExec]
    split
    · exact h.goes_main hw rfl rfl rfl rfl (fun _ _ => rfl) hfollow
    · exact h
  | setCounter c =>
    refine h.goes_main hw rfl rfl rfl rfl (fun _ _ => rfl) fun d hd => ?_
    refine hfollow d ?_
    change d + 1 < c + 1 at hd
    rw [hform.1.1]
    omega
  | start c k =>
    simp only [netExec]
    split
    · exact h.goes_main hw rfl rfl rfl rfl (fun _ _ => rfl) hfollow
    · next hk =>
      have hmore := hg.1.resolve_left hk
      have he : m.emitted = c + 1 := hform.1
      split
      · next hz =>
        have hpos : 0 < m.emitted := by omega
        have hlast : A.more (m.emitted - 1) = false := by
          rw [he]
          exact hmore.mp hz
        exact h.goes_main hw rfl rfl rfl rfl (fun _ _ => rfl) ⟨hfollow, hpos, hlast⟩
      · next hz =>
        refine h.goes_main hw rfl rfl rfl rfl (fun _ _ => rfl) fun d hd => ?_
        change d < m.emitted at hd
        rcases Nat.lt_or_ge (d + 1) m.emitted with hlt | hge
        · exact hfollow d hlt
        · have hdc : d = c := by omega
          rw [hdc]
          exact Bool.eq_true_of_not_eq_false fun hf => hz (hmore.mpr hf)
  | finalSinks ii c =>
    simp only [netExec]
    repeat' split
    · exact h
    · exact h.goes_main hw rfl rfl rfl rfl (fun _ _ => rfl) hfollow
    · exact h.goes_main hw rfl rfl rfl rfl (fun _ _ => rfl) hfollow
  | finalSlice ii c =>
    simp only [netExec]
    split
    · exact h.goes_main hw rfl rfl rfl rfl (fun _ _ => rfl) hfollow
    · exact h
  | destroy ii =>
    simp only [netExec]
    repeat' split
    · exact h.goes_main hw rfl rfl rfl rfl (fun _ _ => rfl) hfollow
    · exact h
    · exact h.goes_main hw rfl rfl rfl rfl (fun _ _ => rfl) hfollow
  | done => exact h
  | send s c rest call =>
    cases call with
    | some x => exact h.exec_call choice hw
    | none =>
      cases rest with
      | cons x rest =>
        cases s with
        | source k => exact h.goes_main hw rfl rfl rfl rfl (fun _ _ => rfl) hfollow
        | node v =>
          exact h.goes_worker rfl rfl rfl rfl (fun _ _ hr => hr) (fun _ _ _ => rfl) rfl
      | nil =>
        cases s with
        | source k => exact h.goes_main hw rfl rfl rfl rfl (fun _ _ => rfl) hfollow
        | node v =>
          simp only [netExec]
          split
          · exact h.goes_worker rfl rfl rfl rfl (fun _ _ hr => hr) (fun _ _ _ => rfl) rfl
          · next hs =>
            refine h.goes_worker rfl rfl rfl rfl (fun _ _ hr => (by cases hr))
              (fun u d hu => ?_) rfl
            refine (decide_eq_false ?_).symm
            rintro ⟨rfl, -⟩
            exact hs hu
  | sinkRun v c =>
    have hnot : ¬ m.sinkCounter (c % N.slices) - 1 < 0 := by
      intro hlt
      have hnew := hw.exec choice
      simp only [netExec, if_pos hlt] at hnew
      exact hnew.formed _ (Multiset.mem_cons_self _ _)
    simp only [netExec, if_neg hnot]
    exact h.sinkRun hw _
  | endTask c => exact h.goes_worker rfl rfl rfl rfl (fun _ _ hr => hr) (fun _ _ _ => rfl) rfl
  | idle =>
    simp only [netExec, Values.record]
    cases hj : m.pool[choice]? with
    | none => exact h
    | some x =>
      obtain ⟨v, c⟩ := x
      have hturn := hg.2 rfl (v, c) hj
      exact h.take hw hj fun hs => ⟨(hturn hs).1, running_eq_zero (hturn hs).2⟩
  | sinkThrown => exact absurd hform not_false

end Agrees

/-- The functions of a network compute what they are to compute. -/
def Computes {N : Network} {V : Type} (A : Program N V) (m : NetMemory × Values V)
    (fs : Multiset NetFrame) : Prop :=
  NetWorks N m.1 fs ∧ Agrees A m.1 m.2 fs

theorem computes_preserved {N : Network} {V : Type} (A : Program N V) :
    Preserves (mtapiCode A) (fun _ choice f m fs => Ordered A choice f m.1 fs) (Computes A) := by
  rintro t choice f m others ⟨hw, ha⟩ hg
  have h1 := hw.exec choice
  have h2 := ha.exec hw choice hg
  rw [← Multiset.singleton_add] at h1 h2
  exact ⟨h1, h2⟩

/-- The calls of the function of a sink for the first clocks. -/
def Program.callsUpTo {N : Network} {V : Type} (A : Program N V) (v k : ℕ) : List (List V) :=
  (List.range k).filterMap fun c => Program.arguments (A.inputsAt v c)

theorem Program.callsUpTo_prefix {N : Network} {V : Type} (A : Program N V) (v : ℕ) {j k : ℕ}
    (h : j ≤ k) : A.callsUpTo v j <+: A.callsUpTo v k := by
  have hrange : List.range j <+: List.range k := by
    rw [List.prefix_iff_eq_take, List.length_range, List.take_range, Nat.min_eq_left h]
  obtain ⟨rest, hrest⟩ := hrange
  rw [Program.callsUpTo, Program.callsUpTo, ← hrest, List.filterMap_append]
  exact List.prefix_append _ _

/-- How many clocks the sources emit: all go on after each of them but the last. -/
def Program.Emits {N : Network} {V : Type} (A : Program N V) (k : ℕ) : Prop :=
  (∀ d, d + 1 < k → A.more d = true) ∧ 0 < k ∧ A.more (k - 1) = false

namespace Computes

variable {N : Network} {V : Type} {A : Program N V} {m : NetMemory × Values V}
  {fs : Multiset NetFrame} {v : ℕ}

/-- A sink has handed over an initial range of clocks. -/
theorem enqueued_eq (h : Computes A m fs) (hs : N.sink v = true) :
    (m.1.node v).enqueued = List.range (m.1.node v).enqueued.length :=
  ((h.1.nodes v).serial (N.sink_serial v hs)).1.enqueued

theorem length_enqueued_le (h : Computes A m fs) (hs : N.sink v = true) :
    (m.1.node v).enqueued.length ≤ m.1.emitted := by
  by_contra hlt
  have hmem : m.1.emitted ∈ (m.1.node v).enqueued := by
    rw [h.enqueued_eq hs]
    exact List.mem_range.mpr (by omega)
  exact absurd (h.1.lt_of_handed hmem).2 (lt_irrefl _)

/-- A sink has been called for the first clocks, in order. -/
theorem calls_eq (h : Computes A m fs) (hs : N.sink v = true) :
    m.2.calls v = A.callsUpTo v (ofNode v m.1.reached).length ∧
      (ofNode v m.1.reached).length ≤ (m.1.node v).enqueued.length := by
  obtain ⟨mid, h1, -, -⟩ := h.2.order v hs
  have hinit : ofNode v m.1.reached <+: (m.1.node v).enqueued := by
    rw [h1, List.append_assoc]
    exact List.prefix_append _ _
  have hle := hinit.length_le
  refine ⟨?_, hle⟩
  rw [List.prefix_iff_eq_take, h.enqueued_eq hs, List.take_range, Nat.min_eq_left hle] at hinit
  rw [h.2.calls v, Program.callsUpTo]
  nth_rewrite 1 [hinit]
  rfl

/-- The sources have gone on after each clock but the last. -/
theorem goes_on (h : Computes A m fs) : ∀ d, d + 1 < m.1.emitted → A.more d = true := by
  have hmain : 0 < mains fs := by rw [h.1.main]; exact Nat.one_pos
  obtain ⟨g, hg, hmg⟩ := Multiset.countP_pos.mp hmain
  have hfollow := h.2.follows g hg
  intro d hd
  cases g with
  | waitSinks | waitSlice | setCounter => exact hfollow d (by omega)
  | finalSinks | finalSlice | destroy | done => exact hfollow.1 d hd
  | start => exact hfollow d hd
  | send s c rest call =>
    cases s with
    | source k => exact hfollow d hd
    | node v => cases hmg
  | _ => cases hmg

/-- Where nothing is left to do, the sinks have been called for every clock. -/
theorem calls_at_rest (h : Computes A m fs) (hpool : m.1.pool = [])
    (hrest : ∀ f ∈ fs, f.waits = true) (hv : v < N.nodes) (hs : N.sink v = true) :
    m.2.calls v = A.callsUpTo v m.1.emitted := by
  obtain ⟨mid, h1, h2, h3⟩ := h.2.order v hs
  have hmid : mid = [] := by
    cases mid with
    | nil => rfl
    | cons x mid =>
      have hx := h3 x
      rw [NetWorks.running_at_rest hrest, List.count_cons_self] at hx
      omega
  subst hmid
  rw [hpool, List.append_nil] at h1
  have hreached : ofNode v m.1.reached = (m.1.node v).enqueued :=
    (h1.trans (List.append_nil _)).symm
  have hlen : (m.1.node v).enqueued.length = m.1.emitted := by
    refine le_antisymm (h.length_enqueued_le hs) ?_
    by_contra hlt
    have hmem := h.1.handed_at_rest hpool hrest hv (m.1.node v).enqueued.length (by omega)
    rw [h.enqueued_eq hs, List.mem_range, List.length_range] at hmem
    exact lt_irrefl _ hmem
  rw [(h.calls_eq hs).1, hreached, hlen]

/-- The main thread is done when the sources have decided to end. -/
theorem emits_of_done (h : Computes A m fs) (hmem : .done ∈ fs) : A.Emits m.1.emitted :=
  h.2.follows _ hmem

end Computes

end Embb.Dataflow
