import Mathlib.Algebra.BigOperators.Group.Multiset.Basic
import Mathlib.Data.Multiset.AddSub
import Mathlib.Logic.Function.Basic

/-!
# Threads with call stacks over shared memory

A program is a function that takes the top frame of one thread one step further:
it changes the shared memory and replaces the frame by a list of frames, which
covers a jump, a call and a return. A run takes any thread at any time.

Most facts about such a program concern the frames as a collection, whatever
stacks they sit on. A step removes one frame from that collection and adds the
frames that replace it, so an invariant of memory and frames is a local
obligation for each kind of frame. Guards restrict the runs considered.
-/

namespace Embb.Threads

/-- Shared memory and one call stack for each thread, innermost frame first. -/
structure State (M F : Type) where
  mem : M
  callStacks : List (List F)

variable {M F C : Type}

/-- The code: thread, choice of the environment, top frame and memory give the
memory after one step and the frames that replace the top frame. -/
abbrev Code (M F C : Type) := Nat → C → F → M → M × List F

namespace State

/-- All frames of all threads. -/
def frames (s : State M F) : Multiset F := (s.callStacks.flatten : Multiset F)

/-- The frame that a thread executes. -/
def top (s : State M F) (t : Nat) : Option F := (s.callStacks[t]?).bind List.head?

end State

/-- One step of one thread; an empty stack has nothing to do. -/
def step (code : Code M F C) (s : State M F) (e : Nat × C) : State M F :=
  match s.callStacks[e.1]? with
  | some (f :: rest) =>
    ⟨(code e.1 e.2 f s.mem).1, s.callStacks.set e.1 ((code e.1 e.2 f s.mem).2 ++ rest)⟩
  | _ => s

/-- Run a schedule. -/
def run (code : Code M F C) (s : State M F) (es : List (Nat × C)) : State M F :=
  es.foldl (step code) s

@[simp] theorem run_nil (code : Code M F C) (s : State M F) : run code s [] = s := rfl

@[simp] theorem run_cons (code : Code M F C) (s : State M F) (e : Nat × C)
    (es : List (Nat × C)) : run code s (e :: es) = run code (step code s e) es := rfl

theorem run_append (code : Code M F C) (s : State M F) (es es' : List (Nat × C)) :
    run code s (es ++ es') = run code (run code s es) es' :=
  List.foldl_append ..

/-- A condition on a step, from the thread, the choice, the frame it executes, the
memory and all frames before the step. -/
abbrev Guard (M F C : Type) := Nat → C → F → M → Multiset F → Prop

/-- The step at `e` meets the guard. -/
def Guarded (g : Guard M F C) (s : State M F) (e : Nat × C) : Prop :=
  ∀ f, s.top e.1 = some f → g e.1 e.2 f s.mem s.frames

/-- Every step of the run meets the guard. -/
def Always (code : Code M F C) (g : Guard M F C) : State M F → List (Nat × C) → Prop
  | _, [] => True
  | s, e :: es => Guarded g s e ∧ Always code g (step code s e) es

/-- Replacing the top of one stack changes the collection of frames there only; the other
frames lie below the top or on other stacks. -/
theorem frames_set {callStacks : List (List F)} {t : Nat} {f : F} {rest : List F}
    (h : callStacks[t]? = some (f :: rest)) (fs : List F) :
    ∃ others : Multiset F, ((callStacks.flatten : List F) : Multiset F) = f ::ₘ others ∧
      (((callStacks.set t (fs ++ rest)).flatten : List F) : Multiset F) = fs + others ∧
      ∀ f' ∈ others, f' ∈ rest ∨ ∃ t' st, t' ≠ t ∧ callStacks[t']? = some st ∧ f' ∈ st := by
  induction callStacks generalizing t with
  | nil => simp at h
  | cons st callStacks ih =>
    cases t with
    | zero =>
      simp only [List.getElem?_cons_zero, Option.some.injEq] at h
      subst h
      refine ⟨(rest ++ callStacks.flatten : List F), ?_, ?_, fun f' hf => ?_⟩
      · simp only [List.flatten_cons, List.cons_append, Multiset.cons_coe]
      · simp only [List.set_cons_zero, List.flatten_cons, List.append_assoc, Multiset.coe_add]
      · rcases List.mem_append.mp (Multiset.mem_coe.mp hf) with hf | hf
        · exact Or.inl hf
        · obtain ⟨st, hst, hf⟩ := List.mem_flatten.mp hf
          obtain ⟨k, hk⟩ := List.mem_iff_getElem?.mp hst
          exact Or.inr ⟨k + 1, st, Nat.succ_ne_zero k, hk, hf⟩
    | succ t =>
      rw [List.getElem?_cons_succ] at h
      obtain ⟨others, ho, hs, hm⟩ := ih h
      refine ⟨st + others, ?_, ?_, fun f' hf => ?_⟩
      · rw [List.flatten_cons, ← Multiset.coe_add, ho, Multiset.add_cons]
      · rw [List.set_cons_succ, List.flatten_cons, ← Multiset.coe_add, hs, add_left_comm]
      · rcases Multiset.mem_add.mp hf with hf | hf
        · exact Or.inr ⟨0, st, (Nat.succ_ne_zero t).symm, rfl, hf⟩
        · rcases hm f' hf with hf | ⟨t', st', ht, hst, hf⟩
          · exact Or.inl hf
          · exact Or.inr ⟨t' + 1, st', fun he => ht (Nat.succ.inj he), hst, hf⟩

/-- A step replaces the top frame of its own thread. -/
theorem step_of_stack (code : Code M F C) {s : State M F} {t : Nat} {f : F} {rest : List F}
    (h : s.callStacks[t]? = some (f :: rest)) (c : C) :
    (step code s (t, c)).mem = (code t c f s.mem).1 ∧
      (step code s (t, c)).callStacks[t]? = some ((code t c f s.mem).2 ++ rest) := by
  obtain ⟨hlt, -⟩ := List.getElem?_eq_some_iff.mp h
  simp only [step, h, List.getElem?_set_self hlt, and_self]

/-- A step takes the top frame of its thread one step further. -/
theorem step_of_top (code : Code M F C) {s : State M F} {e : Nat × C} {f : F}
    (h : s.top e.1 = some f) :
    ∃ others, s.frames = f ::ₘ others ∧
      (step code s e).mem = (code e.1 e.2 f s.mem).1 ∧
      (step code s e).frames = (code e.1 e.2 f s.mem).2 + others := by
  obtain ⟨st, hst, hhead⟩ := Option.bind_eq_some_iff.mp h
  obtain ⟨rest, rfl⟩ : ∃ rest, st = f :: rest := by
    cases st with
    | nil => cases hhead
    | cons f' rest =>
      cases hhead
      exact ⟨rest, rfl⟩
  obtain ⟨others, ho, hs, -⟩ := frames_set hst (code e.1 e.2 f s.mem).2
  refine ⟨others, ho, ?_, ?_⟩
  · simp only [step, hst]
  · simp only [step, hst]
    exact hs

/-- A jump replaces the frame that the thread executes. -/
theorem top_step (code : Code M F C) {s : State M F} {e : Nat × C} {f f' : F}
    (h : s.top e.1 = some f) (hj : (code e.1 e.2 f s.mem).2 = [f']) :
    (step code s e).top e.1 = some f' := by
  obtain ⟨st, hst, hhead⟩ := Option.bind_eq_some_iff.mp h
  cases st with
  | nil => cases hhead
  | cons f₀ rest =>
    cases hhead
    rw [State.top, (step_of_stack code hst e.2).2, hj]
    rfl

/-- One thread that is at work, and any number that are idle. -/
theorem State.frames_boot (m : M) (f idle : F) (workers : Nat) :
    (⟨m, [f] :: List.replicate workers [idle]⟩ : State M F).frames =
      f ::ₘ Multiset.replicate workers idle := by
  rw [State.frames, List.flatten_cons, List.flatten_replicate_singleton]
  rfl

/-- A thread without frames does nothing. -/
theorem step_of_top_none (code : Code M F C) {s : State M F} {e : Nat × C}
    (h : s.top e.1 = none) : step code s e = s := by
  unfold step
  split
  · rename_i f rest hst
    simp only [State.top, hst, Option.bind_some, List.head?_cons, reduceCtorEq] at h
  · rfl

/-- A step of one thread leaves the stacks of the others alone. -/
theorem top_step_ne (code : Code M F C) (s : State M F) {e : Nat × C} {t : Nat} (h : e.1 ≠ t) :
    (step code s e).top t = s.top t := by
  unfold step
  split
  · rw [State.top, List.getElem?_set_ne h]
    rfl
  · rfl

/-- What each thread is at, where an idle frame stands for threads that do not exist. -/
def State.pc (idle : F) (s : State M F) (t : Nat) : F := (s.top t).getD idle

theorem State.pc_of_top {idle : F} {s : State M F} {t : Nat} {f : F} (h : s.top t = some f) :
    s.pc idle t = f := by
  rw [State.pc, h, Option.getD_some]

/-- A jump of a thread changes only what this thread is at. -/
theorem pc_step (code : Code M F C) (idle : F) {s : State M F} {e : Nat × C} {f f' : F}
    (h : s.top e.1 = some f) (hj : (code e.1 e.2 f s.mem).2 = [f']) :
    (step code s e).pc idle = Function.update (s.pc idle) e.1 f' := by
  ext t
  rcases eq_or_ne t e.1 with rfl | hne
  · rw [State.pc_of_top (top_step code h hj), Function.update_self]
  · rw [Function.update_of_ne hne, State.pc, State.pc, top_step_ne code s hne.symm]

theorem mem_step (code : Code M F C) {s : State M F} {e : Nat × C} {f : F}
    (h : s.top e.1 = some f) : (step code s e).mem = (code e.1 e.2 f s.mem).1 := by
  obtain ⟨-, -, hm, -⟩ := step_of_top code h
  exact hm

/-- The number of threads does not change. -/
theorem length_step (code : Code M F C) (s : State M F) (e : Nat × C) :
    (step code s e).callStacks.length = s.callStacks.length := by
  unfold step
  split
  · exact List.length_set ..
  · rfl

theorem length_run (code : Code M F C) (s : State M F) (es : List (Nat × C)) :
    (run code s es).callStacks.length = s.callStacks.length := by
  induction es generalizing s with
  | nil => rfl
  | cons e es ih => exact (ih (step code s e)).trans (length_step code s e)

theorem State.lt_of_top {s : State M F} {t : Nat} {f : F} (h : s.top t = some f) :
    t < s.callStacks.length := by
  obtain ⟨st, hst, -⟩ := Option.bind_eq_some_iff.mp h
  exact (List.getElem?_eq_some_iff.mp hst).1

/-- In a program of jumps a thread always has a frame to execute. -/
theorem exists_top_run {code : Code M F C} (hj : ∀ t c f m, ∃ f', (code t c f m).2 = [f'])
    {s : State M F} {t : Nat} (h : ∃ f, s.top t = some f) (es : List (Nat × C)) :
    ∃ f, (run code s es).top t = some f := by
  induction es generalizing s with
  | nil => exact h
  | cons e es ih =>
    refine ih ?_
    obtain ⟨f, hf⟩ := h
    rcases eq_or_ne e.1 t with rfl | hne
    · obtain ⟨f', hf'⟩ := hj e.1 e.2 f s.mem
      exact ⟨f', top_step code hf hf'⟩
    · exact ⟨f, (top_step_ne code s hne).trans hf⟩

/-- In a program of jumps a thread with one frame keeps one frame. -/
theorem singletons_run {code : Code M F C} (hj : ∀ t c f m, ∃ f', (code t c f m).2 = [f'])
    {s : State M F} (h : ∀ st ∈ s.callStacks, ∃ f, st = [f]) (es : List (Nat × C)) :
    ∀ st ∈ (run code s es).callStacks, ∃ f, st = [f] := by
  induction es generalizing s with
  | nil => exact h
  | cons e es ih =>
    refine ih fun st hst => ?_
    unfold step at hst
    split at hst
    · rename_i f rest hfr
      obtain ⟨f₀, hf₀⟩ := h _ (List.mem_of_getElem? hfr)
      obtain ⟨f', hf'⟩ := hj e.1 e.2 f s.mem
      rcases List.mem_or_eq_of_mem_set hst with hst | rfl
      · exact h st hst
      · exact ⟨f', by rw [hf', (List.cons.inj hf₀).2]; rfl⟩
    · exact h st hst

/-- In a program of jumps every frame is executed by some thread. -/
theorem exists_top_of_mem_run {code : Code M F C} (hj : ∀ t c f m, ∃ f', (code t c f m).2 = [f'])
    {s : State M F} (h : ∀ st ∈ s.callStacks, ∃ f, st = [f]) (es : List (Nat × C)) {f : F}
    (hf : f ∈ (run code s es).frames) : ∃ t, (run code s es).top t = some f := by
  obtain ⟨st, hst, hmem⟩ := List.mem_flatten.mp (Multiset.mem_coe.mp hf)
  obtain ⟨f', rfl⟩ := singletons_run hj h es st hst
  obtain ⟨t, ht⟩ := List.mem_iff_getElem?.mp hst
  refine ⟨t, ?_⟩
  rw [State.top, ht, List.mem_singleton.mp hmem]
  rfl

theorem State.mem_frames_of_top {s : State M F} {t : Nat} {f : F} (h : s.top t = some f) :
    f ∈ s.frames := by
  obtain ⟨st, hst, hhead⟩ := Option.bind_eq_some_iff.mp h
  exact Multiset.mem_coe.mpr
    (List.mem_flatten.mpr ⟨st, List.mem_of_getElem? hst, List.mem_of_head? hhead⟩)

/-- The frames that two threads execute are two of all frames. -/
theorem State.frames_of_tops {s : State M F} {t t' : Nat} (hne : t ≠ t') {f f' : F}
    (h : s.top t = some f) (h' : s.top t' = some f') :
    ∃ others, s.frames = f ::ₘ f' ::ₘ others := by
  obtain ⟨st, hst, hhead⟩ := Option.bind_eq_some_iff.mp h
  obtain ⟨rest, rfl⟩ := List.head?_eq_some_iff.mp hhead
  obtain ⟨others, ho, hs, -⟩ := frames_set hst ([] : List F)
  have htop : (⟨s.mem, s.callStacks.set t ([] ++ rest)⟩ : State M F).top t' = some f' := by
    rw [State.top, List.getElem?_set_ne hne]
    exact h'
  have hmem := State.mem_frames_of_top htop
  rw [State.frames, hs, Multiset.coe_nil, zero_add] at hmem
  obtain ⟨others', rfl⟩ := Multiset.exists_cons_of_mem hmem
  exact ⟨others', ho⟩

/-- One thread that takes steps on its own, where every step is a jump. -/
theorem run_alone {code : Code M F C} {exec : M × F → M × F} {c : C}
    (hc : ∀ t f m, code t c f m = ((exec (m, f)).1, [(exec (m, f)).2])) {s : State M F}
    {t : Nat} {f : F} (h : s.top t = some f) (n : Nat) :
    (run code s (List.replicate n (t, c))).mem = (exec^[n] (s.mem, f)).1 ∧
      (run code s (List.replicate n (t, c))).top t = some (exec^[n] (s.mem, f)).2 ∧
      ∀ t', t ≠ t' → (run code s (List.replicate n (t, c))).top t' = s.top t' := by
  induction n generalizing s f with
  | zero => exact ⟨rfl, h, fun _ _ => rfl⟩
  | succ n ih =>
    have hmem : (step code s (t, c)).mem = (exec (s.mem, f)).1 := by
      rw [mem_step code h, hc]
    have htop : (step code s (t, c)).top t = some (exec (s.mem, f)).2 :=
      top_step code h (by rw [hc])
    obtain ⟨hm, ht, hne⟩ := ih htop
    rw [hmem] at hm ht
    exact ⟨hm, ht, fun t' h' => (hne t' h').trans (top_step_ne code s h')⟩

/-- What a guarded step must keep, stated for the frame that is executed and for
an arbitrary collection of other frames. -/
def Preserves (code : Code M F C) (g : Guard M F C) (inv : M → Multiset F → Prop) : Prop :=
  ∀ t c f m others, inv m (f ::ₘ others) → g t c f m (f ::ₘ others) →
    inv (code t c f m).1 ((code t c f m).2 + others)

theorem Preserves.step {code : Code M F C} {g : Guard M F C} {inv : M → Multiset F → Prop}
    (h : Preserves code g inv) {s : State M F} {e : Nat × C} (hg : Guarded g s e)
    (hs : inv s.mem s.frames) : inv (step code s e).mem (step code s e).frames := by
  cases ht : s.top e.1 with
  | none => rwa [step_of_top_none code ht]
  | some f =>
    obtain ⟨others, hf, hm, hfr⟩ := step_of_top code ht
    rw [hm, hfr]
    refine h e.1 e.2 f s.mem others (hf ▸ hs) ?_
    rw [← hf]
    exact hg f ht

/-- A local invariant holds in every state of a guarded run. -/
theorem Preserves.run {code : Code M F C} {g : Guard M F C} {inv : M → Multiset F → Prop}
    (h : Preserves code g inv) {s : State M F} {es : List (Nat × C)}
    (hg : Always code g s es) (hs : inv s.mem s.frames) :
    inv (run code s es).mem (run code s es).frames := by
  induction es generalizing s with
  | nil => exact hs
  | cons e es ih => exact ih hg.2 (h.step hg.1 hs)

/-- What a guarded step must keep, where it matters which frame lies on which stack. -/
def PreservesStacks (code : Code M F C) (g : Guard M F C) (inv : M → List (List F) → Prop) :
    Prop :=
  ∀ t c f rest m callStacks, callStacks[t]? = some (f :: rest) → inv m callStacks →
    g t c f m (callStacks.flatten : List F) →
    inv (code t c f m).1 (callStacks.set t ((code t c f m).2 ++ rest))

theorem PreservesStacks.run {code : Code M F C} {g : Guard M F C}
    {inv : M → List (List F) → Prop} (h : PreservesStacks code g inv) {s : State M F}
    {es : List (Nat × C)} (hg : Always code g s es) (hs : inv s.mem s.callStacks) :
    inv (run code s es).mem (run code s es).callStacks := by
  induction es generalizing s with
  | nil => exact hs
  | cons e es ih =>
    refine ih hg.2 ?_
    unfold step
    split
    · rename_i f rest hst
      refine h e.1 e.2 f rest s.mem s.callStacks hst hs (hg.1 f ?_)
      rw [State.top, hst]
      rfl
    · exact hs

/-- The program with a record of what its steps do; it does the same without. -/
def logged {L : Type} (code : Code M F C) (record : Nat → C → F → M → L → L) :
    Code (M × L) F C := fun t c f m =>
  (((code t c f m.1).1, record t c f m.1 m.2), (code t c f m.1).2)

theorem run_logged {L : Type} (code : Code M F C) (record : Nat → C → F → M → L → L)
    (s : State (M × L) F) (es : List (Nat × C)) :
    (run (logged code record) s es).mem.1 = (run code ⟨s.mem.1, s.callStacks⟩ es).mem ∧
      (run (logged code record) s es).callStacks =
        (run code ⟨s.mem.1, s.callStacks⟩ es).callStacks := by
  induction es generalizing s with
  | nil => exact ⟨rfl, rfl⟩
  | cons e es ih =>
    rw [run_cons, run_cons]
    have hstep : step code ⟨s.mem.1, s.callStacks⟩ e =
        ⟨(step (logged code record) s e).mem.1, (step (logged code record) s e).callStacks⟩ := by
      simp only [step]
      cases s.callStacks[e.1]? with
      | none => rfl
      | some st => cases st <;> rfl
    rw [hstep]
    exact ih _

theorem Always.append {code : Code M F C} {g : Guard M F C} {s : State M F}
    {es es' : List (Nat × C)} (h : Always code g s (es ++ es')) :
    Always code g s es ∧ Always code g (run code s es) es' := by
  induction es generalizing s with
  | nil => exact ⟨trivial, h⟩
  | cons e es ih =>
    obtain ⟨h1, h2⟩ := ih h.2
    exact ⟨⟨h.1, h1⟩, h2⟩

/-- What guarded steps keep holds after a guarded run. -/
theorem Always.keeps {code : Code M F C} {g : Guard M F C} {inv : State M F → Prop}
    (h : ∀ s e f, inv s → s.top e.1 = some f → g e.1 e.2 f s.mem s.frames → inv (step code s e))
    {s : State M F} {es : List (Nat × C)} (hg : Always code g s es) (hs : inv s) :
    inv (run code s es) := by
  induction es generalizing s with
  | nil => exact hs
  | cons e es ih =>
    refine ih hg.2 ?_
    cases ht : s.top e.1 with
    | none => rwa [step_of_top_none code ht]
    | some f => exact h s e f hs ht (hg.1 f ht)

theorem Always.and {code : Code M F C} {g g' : Guard M F C} {s : State M F}
    {es : List (Nat × C)} (h : Always code g s es) (h' : Always code g' s es) :
    Always code (fun t c f m fs => g t c f m fs ∧ g' t c f m fs) s es := by
  induction es generalizing s with
  | nil => trivial
  | cons e es ih => exact ⟨fun f hf => ⟨h.1 f hf, h'.1 f hf⟩, ih h.2 h'.2⟩

theorem Always.of_forall {code : Code M F C} {g : Guard M F C} (h : ∀ t c f m fs, g t c f m fs)
    (s : State M F) (es : List (Nat × C)) : Always code g s es := by
  induction es generalizing s with
  | nil => trivial
  | cons e es ih => exact ⟨fun f _ => h _ _ f _ _, ih _⟩

theorem Always.mono {code : Code M F C} {g g' : Guard M F C}
    (hg : ∀ t c f m fs, g t c f m fs → g' t c f m fs) {s : State M F} {es : List (Nat × C)}
    (h : Always code g s es) : Always code g' s es := by
  induction es generalizing s with
  | nil => trivial
  | cons e es ih => exact ⟨fun f hf => hg _ _ _ _ _ (h.1 f hf), ih h.2⟩

instance decidableGuarded {g : Guard M F C} [∀ t c f m fs, Decidable (g t c f m fs)]
    (s : State M F) (e : Nat × C) : Decidable (Guarded g s e) :=
  match h : s.top e.1 with
  | none => isTrue fun f hf => by rw [h] at hf; cases hf
  | some f =>
    decidable_of_iff (g e.1 e.2 f s.mem s.frames)
      ⟨fun hg f' hf => by rw [h] at hf; cases hf; exact hg, fun hg => hg f h⟩

instance decidableAlways {code : Code M F C} {g : Guard M F C}
    [∀ t c f m fs, Decidable (g t c f m fs)] :
    (s : State M F) → (es : List (Nat × C)) → Decidable (Always code g s es)
  | _, [] => isTrue trivial
  | s, e :: es =>
    have : Decidable (Always code g (step code s e) es) := decidableAlways (step code s e) es
    inferInstanceAs (Decidable (Guarded g s e ∧ Always code g (step code s e) es))

/-- A test of the frame that each step executes. -/
def checked (code : Code M F C) (test : Nat → C → F → M → Bool) :
    State M F → List (Nat × C) → Bool
  | _, [] => true
  | s, e :: es =>
    (match s.top e.1 with
      | some f => test e.1 e.2 f s.mem
      | none => true) && checked code test (step code s e) es

/-- A run whose steps pass a test that is enough for the guard. -/
theorem Always.of_checked {code : Code M F C} {g : Guard M F C}
    {test : Nat → C → F → M → Bool}
    (h : ∀ t c f m fs, test t c f m = true → g t c f m fs) {s : State M F}
    {es : List (Nat × C)} (hc : checked code test s es = true) : Always code g s es := by
  induction es generalizing s with
  | nil => trivial
  | cons e es ih =>
    rw [checked, Bool.and_eq_true] at hc
    refine ⟨fun f hf => ?_, ih hc.2⟩
    have h1 := hc.1
    rw [hf] at h1
    exact h _ _ _ _ _ h1

/-- The thread has been in frames of a kind since a state whose memory is of a kind. -/
def Since (code : Code M F C) (s : State M F) (t : Nat) (within : F → Prop) (was : M → Prop)
    (es : List (Nat × C)) : Prop :=
  ∃ k ≤ es.length, was (run code s (es.take k)).mem ∧
    ∀ j, k ≤ j → j ≤ es.length → ∃ f, (run code s (es.take j)).top t = some f ∧ within f

theorem Since.now {code : Code M F C} {s : State M F} {t : Nat} {within : F → Prop}
    {was : M → Prop} {es : List (Nat × C)} (ha : was (run code s es).mem) {f : F}
    (hf : (run code s es).top t = some f) (hw : within f) : Since code s t within was es := by
  refine ⟨es.length, le_refl _, ?_, fun j h1 h2 => ⟨f, ?_, hw⟩⟩
  · rw [List.take_length]
    exact ha
  · rw [le_antisymm h2 h1, List.take_length]
    exact hf

theorem Since.step {code : Code M F C} {s : State M F} {t : Nat} {within : F → Prop}
    {was : M → Prop} {es : List (Nat × C)} (h : Since code s t within was es) {e : Nat × C}
    {f : F} (hf : (run code s (es ++ [e])).top t = some f) (hw : within f) :
    Since code s t within was (es ++ [e]) := by
  obtain ⟨k, hk, ha, hj⟩ := h
  refine ⟨k, ?_, ?_, fun j h1 h2 => ?_⟩
  · rw [List.length_append]
    omega
  · rwa [List.take_append_of_le_length hk]
  · rcases Nat.lt_or_ge es.length j with hlt | hle
    · rw [List.take_of_length_le (by
        rw [List.length_append, List.length_singleton] at h2 ⊢
        omega)]
      exact ⟨f, hf, hw⟩
    · rw [List.take_append_of_le_length hle]
      exact hj j h1 hle

/-- A thread whose frame is of a kind now and was not at first has come there in one of its steps,
and its frames have been of that kind since. -/
theorem exists_enter {code : Code M F C} {s : State M F} {t : Nat} {P : F → Prop}
    (h₀ : ∀ f, s.top t = some f → ¬ P f) {es : List (Nat × C)} {f : F}
    (hf : (run code s es).top t = some f) (hP : P f) :
    ∃ n < es.length, ∃ c f₀, es[n]? = some (t, c) ∧
      (run code s (es.take n)).top t = some f₀ ∧ ¬ P f₀ ∧
      ∀ j, n < j → j ≤ es.length → ∃ f, (run code s (es.take j)).top t = some f ∧ P f := by
  induction es using List.reverseRecOn generalizing f with
  | nil => exact absurd hP (h₀ f hf)
  | append_singleton es e ih =>
    have hlast : run code s (es ++ [e]) = step code (run code s es) e := run_append ..
    have hnow : ∀ j, es.length < j → j ≤ (es ++ [e]).length →
        ∃ f, (run code s ((es ++ [e]).take j)).top t = some f ∧ P f := by
      intro j h1 h2
      rw [List.take_of_length_le (by
        rw [List.length_append, List.length_singleton] at h2 ⊢
        omega)]
      exact ⟨f, hf, hP⟩
    obtain ⟨f₀, hf₀⟩ : ∃ f₀, (run code s es).top t = some f₀ := by
      by_contra hnone
      have htop : (run code s es).top t = none :=
        Option.eq_none_iff_forall_ne_some.mpr fun f₀ h => hnone ⟨f₀, h⟩
      rw [hlast] at hf
      rcases eq_or_ne e.1 t with rfl | hne
      · rw [step_of_top_none code htop, htop] at hf
        cases hf
      · rw [top_step_ne code _ hne, htop] at hf
        cases hf
    by_cases hP₀ : P f₀
    · obtain ⟨n, hn, c, f₁, he, htop, hP₁, hsince⟩ := ih hf₀ hP₀
      refine ⟨n, ?_, c, f₁, ?_, ?_, hP₁, fun j h1 h2 => ?_⟩
      · rw [List.length_append]
        omega
      · rwa [List.getElem?_append_left hn]
      · rwa [List.take_append_of_le_length hn.le]
      · rcases Nat.lt_or_ge es.length j with hlt | hle
        · exact hnow j hlt h2
        · rw [List.take_append_of_le_length hle]
          exact hsince j h1 hle
    · have ht : e.1 = t := by
        by_contra hne
        rw [hlast, top_step_ne code _ hne, hf₀] at hf
        exact hP₀ (Option.some.inj hf ▸ hP)
      refine ⟨es.length, ?_, e.2, f₀, ?_, ?_, hP₀, hnow⟩
      · rw [List.length_append, List.length_singleton]
        exact Nat.lt_succ_self _
      · rw [List.getElem?_append_right (le_refl _), Nat.sub_self, ← ht]
        rfl
      · rwa [List.take_append_of_le_length (le_refl _), List.take_length]

/-- What the frames hold. -/
def gather {A : Type} (w : F → List A) (fs : Multiset F) : Multiset A :=
  (fs.map fun f => (w f : Multiset A)).sum

theorem gather_cons {A : Type} (w : F → List A) (f : F) (fs : Multiset F) :
    gather w (f ::ₘ fs) = w f + gather w fs := by
  rw [gather, gather, Multiset.map_cons, Multiset.sum_cons]

theorem gather_add {A : Type} (w : F → List A) (fs : List F) (others : Multiset F) :
    gather w (fs + others) = (fs.flatMap w : List A) + gather w others := by
  induction fs with
  | nil => rw [Multiset.coe_nil, zero_add, List.flatMap_nil, Multiset.coe_nil, zero_add]
  | cons f fs ih =>
    rw [← Multiset.cons_coe, Multiset.cons_add, gather_cons, ih, List.flatMap_cons,
      ← Multiset.coe_add, add_assoc]

theorem mem_gather {A : Type} {w : F → List A} {fs : Multiset F} {a : A} :
    a ∈ gather w fs ↔ ∃ f ∈ fs, a ∈ w f := by
  induction fs using Multiset.induction_on with
  | empty => simp [gather]
  | cons f fs ih =>
    rw [gather_cons, Multiset.mem_add, ih]
    simp only [Multiset.mem_cons, Multiset.mem_coe, exists_eq_or_imp]

/-- A sum over the frames changes by what the executed frame is replaced with. -/
theorem sum_map_cons {A : Type} [AddCommMonoid A] (w : F → A) (f : F) (others : Multiset F) :
    ((f ::ₘ others).map w).sum = w f + (others.map w).sum := by
  rw [Multiset.map_cons, Multiset.sum_cons]

theorem sum_map_add {A : Type} [AddCommMonoid A] (w : F → A) (fs : List F)
    (others : Multiset F) :
    (((fs : Multiset F) + others).map w).sum = (fs.map w).sum + (others.map w).sum := by
  rw [Multiset.map_add, Multiset.sum_add, Multiset.map_coe, Multiset.sum_coe]

end Embb.Threads
