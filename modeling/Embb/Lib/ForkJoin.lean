import Mathlib.Data.Set.Function
import Mathlib.Tactic.Common

/-!
# Fork-join tasks over shared cells

A program is a tree of serial pieces; at a fork two tasks run at the same time and
the program goes on when both have ended. A step takes any task that can go on.
A program *ensures* a condition when every run of it, in whatever order the tasks
take their steps, comes to an end and meets the condition there.

Reasoning is local: `Good X Q p m` says that `p` writes only the cells of `X`, and
ensures `Q` from `m` whatever happens to the cells outside `X` in the meantime.
Tasks that own disjoint sets of cells can therefore be verified one by one.
-/

namespace Embb.ForkJoin

/-- Programs over a memory `M`: a serial piece that changes the memory and decides how to
go on from what it has read, or two tasks and what follows when both have ended. -/
inductive Prog (M : Type) : Type
  | done
  | act (f : M → M) (next : M → Prog M)
  | fork (left right next : Prog M)

/-- One step of one task. -/
inductive Step {M : Type} : Prog M → M → Prog M → M → Prop
  | act (f : M → M) (next : M → Prog M) (m : M) : Step (.act f next) m (next m) (f m)
  | left {l l' r next : Prog M} {m m' : M} (h : Step l m l' m') :
      Step (.fork l r next) m (.fork l' r next) m'
  | right {l r r' next : Prog M} {m m' : M} (h : Step r m r' m') :
      Step (.fork l r next) m (.fork l r' next) m'
  | join (next : Prog M) (m : M) : Step (.fork .done .done next) m next m

/-- Every run ends, and the condition holds where it ends. -/
inductive Ensures {M : Type} (Q : M → Prop) : Prog M → M → Prop
  | done {m : M} (h : Q m) : Ensures Q .done m
  | step {p : Prog M} {m : M} (go : ∃ p' m', Step p m p' m')
      (h : ∀ p' m', Step p m p' m' → Ensures Q p' m') : Ensures Q p m

theorem Ensures.mono {M : Type} {Q Q' : M → Prop} {p : Prog M} {m : M} (h : Ensures Q p m)
    (hq : ∀ m', Q m' → Q' m') : Ensures Q' p m := by
  induction h with
  | done h => exact .done (hq _ h)
  | step go _ ih => exact .step go ih

/-- Conditions that a program ensures hold together somewhere. -/
theorem Ensures.exists_and {M : Type} {Q Q' : M → Prop} {p : Prog M} {m : M}
    (h : Ensures Q p m) (h' : Ensures Q' p m) : ∃ m', Q m' ∧ Q' m' := by
  induction h with
  | done hq =>
    cases h' with
    | done hq' => exact ⟨_, hq, hq'⟩
    | step go _ =>
      obtain ⟨p', m', hs⟩ := go
      cases hs
  | step go _ ih =>
    obtain ⟨p', m', hs⟩ := go
    cases h' with
    | done => cases hs
    | step _ h' => exact ih p' m' hs (h' p' m' hs)

/-- A program that has not ended can take a step. -/
theorem exists_step {M : Type} (p : Prog M) (m : M) (h : p ≠ .done) :
    ∃ p' m', Step p m p' m' := by
  induction p with
  | done => exact absurd rfl h
  | act f next _ => exact ⟨_, _, .act f next m⟩
  | fork l r next ihl ihr _ =>
    by_cases hl : l = .done
    · by_cases hr : r = .done
      · subst hl hr
        exact ⟨_, _, .join next m⟩
      · obtain ⟨r', m', hs⟩ := ihr hr
        exact ⟨_, _, .right hs⟩
    · obtain ⟨l', m', hs⟩ := ihl hl
      exact ⟨_, _, .left hs⟩

variable {Loc V : Type}

/-- A write to an own cell leaves all others alone. -/
theorem eqOn_update [DecidableEq Loc] (m : Loc → V) {c : Loc} {X : Set Loc} (h : c ∈ X) (x : V) :
    Set.EqOn (Function.update m c x) m (Set.compl X) := by
  intro l hl
  refine Function.update_of_ne ?_ _ _
  rintro rfl
  exact hl h

/-- `p` owns the cells of `X`, changes no other cell and ensures `Q`, even though other tasks
may change the cells outside `X` between any two of its steps. -/
inductive Good (X : Set Loc) (Q : (Loc → V) → Prop) : Prog (Loc → V) → (Loc → V) → Prop
  | intro {p : Prog (Loc → V)} {m : Loc → V}
      (ends : p = .done → ∀ m', Set.EqOn m' m X → Q m')
      (owns : ∀ m' p' m'', Set.EqOn m' m X → Step p m' p' m'' →
        Set.EqOn m'' m' (Set.compl X))
      (goes : ∀ m' p' m'', Set.EqOn m' m X → Step p m' p' m'' → Good X Q p' m'') :
      Good X Q p m

namespace Good

variable {X Y Z : Set Loc} {Q Q' R S : (Loc → V) → Prop} {p : Prog (Loc → V)} {m : Loc → V}

/-- Alone, such a program ensures its condition and leaves all other cells as they were. -/
theorem ensures (h : Good X Q p m) :
    Ensures (fun m' => Q m' ∧ Set.EqOn m' m (Set.compl X)) p m := by
  suffices ∀ m₀, Set.EqOn m m₀ (Set.compl X) →
      Ensures (fun m' => Q m' ∧ Set.EqOn m' m₀ (Set.compl X)) p m from this m fun _ _ => rfl
  induction h with
  | @intro p m ends owns _ ih =>
    intro m₀ hm
    by_cases hp : p = .done
    · subst hp
      exact .done ⟨ends rfl m fun _ _ => rfl, hm⟩
    · refine .step (exists_step p m hp) fun p' m' hs => ?_
      exact ih m p' m' (fun _ _ => rfl) hs m₀ ((owns m p' m' (fun _ _ => rfl) hs).trans hm)

/-- Other tasks may have changed cells that `p` does not own. -/
theorem congr (h : Good X Q p m) {m' : Loc → V} (hm : Set.EqOn m' m X) : Good X Q p m' := by
  obtain ⟨ends, owns, goes⟩ := h
  exact .intro (fun hp m₁ h₁ => ends hp m₁ (h₁.trans hm))
    (fun m₁ p' m₂ h₁ hs => owns m₁ p' m₂ (h₁.trans hm) hs)
    fun m₁ p' m₂ h₁ hs => goes m₁ p' m₂ (h₁.trans hm) hs

theorem mono (h : Good X Q p m) (hq : ∀ m', Q m' → Q' m') : Good X Q' p m := by
  induction h with
  | intro ends owns _ ih => exact .intro (fun hp m' hm => hq _ (ends hp m' hm)) owns ih

theorem of_done (h : ∀ m', Set.EqOn m' m X → Q m') : Good X Q .done m :=
  .intro (fun _ => h) (fun _ _ _ _ hs => nomatch hs) fun _ _ _ _ hs => nomatch hs

/-- A serial piece. -/
theorem of_act {f : (Loc → V) → Loc → V} {next : (Loc → V) → Prog (Loc → V)}
    (h : ∀ m', Set.EqOn m' m X →
      Set.EqOn (f m') m' (Set.compl X) ∧ Good X Q (next m') (f m')) :
    Good X Q (.act f next) m := by
  refine .intro (fun hp => nomatch hp) (fun m' p' m'' hm hs => ?_) fun m' p' m'' hm hs => ?_
  · cases hs
    exact (h m' hm).1
  · cases hs
    exact (h m' hm).2

theorem of_fork_aux {l r next : Prog (Loc → V)} (hYX : Y ⊆ X) (hZX : Z ⊆ X)
    (hYZ : ∀ x ∈ Y, x ∉ Z) {m₀ m₁ m₂ : Loc → V} (hl : Good Y R l m₁) (hr : Good Z S r m₂)
    (hnext : ∀ m', R m' → S m' → Set.EqOn m' m₀ (X \ (Y ∪ Z)) → Good X Q next m')
    (h₁ : Set.EqOn m m₁ Y) (h₂ : Set.EqOn m m₂ Z) (h₀ : Set.EqOn m m₀ (X \ (Y ∪ Z))) :
    Good X Q (.fork l r next) m := by
  induction hl generalizing r m m₂ with
  | @intro l m₁ lends lowns lgoes ihl =>
    induction hr generalizing m with
    | @intro r m₂ rends rowns rgoes ihr =>
      refine .intro (fun hp => nomatch hp) (fun m' p' m'' hm hs => ?_)
        fun m' p' m'' hm hs => ?_
      all_goals
        have hm₁ : Set.EqOn m' m₁ Y := (hm.mono hYX).trans h₁
        have hm₂ : Set.EqOn m' m₂ Z := (hm.mono hZX).trans h₂
        have hm₀ : Set.EqOn m' m₀ (X \ (Y ∪ Z)) := (hm.mono Set.sdiff_subset).trans h₀
      · cases hs with
        | left hs => exact fun x hx => lowns m' _ m'' hm₁ hs fun hy => hx (hYX hy)
        | right hs => exact fun x hx => rowns m' _ m'' hm₂ hs fun hz => hx (hZX hz)
        | join => exact fun _ _ => rfl
      · cases hs with
        | left hs =>
          have hoff := lowns m' _ m'' hm₁ hs
          refine ihl m' _ m'' hm₁ hs (.intro rends rowns rgoes) (fun _ _ => rfl) ?_ ?_
          · exact fun x hx => (hoff fun hy => hYZ _ hy hx).trans (hm₂ hx)
          · exact fun x hx => (hoff fun hy => hx.2 (Or.inl hy)).trans (hm₀ hx)
        | right hs =>
          have hoff := rowns m' _ m'' hm₂ hs
          refine ihr m' _ m'' hm₂ hs ?_ (fun _ _ => rfl) ?_
          · exact fun x hx => (hoff fun hz => hYZ _ hx hz).trans (hm₁ hx)
          · exact fun x hx => (hoff fun hz => hx.2 (Or.inr hz)).trans (hm₀ hx)
        | join => exact hnext m' (lends rfl m' hm₁) (rends rfl m' hm₂) hm₀

/-- Two tasks that own disjoint parts of the cells. -/
theorem of_fork {l r next : Prog (Loc → V)} (hYX : Y ⊆ X) (hZX : Z ⊆ X)
    (hYZ : ∀ x ∈ Y, x ∉ Z) (hl : Good Y R l m) (hr : Good Z S r m)
    (hnext : ∀ m', R m' → S m' → Set.EqOn m' m (X \ (Y ∪ Z)) → Good X Q next m') :
    Good X Q (.fork l r next) m :=
  of_fork_aux hYX hZX hYZ hl hr hnext (fun _ _ => rfl) (fun _ _ => rfl) fun _ _ => rfl

/-- One task that is waited for at once. -/
theorem of_spawn {task next : Prog (Loc → V)} (htask : Good X R task m)
    (hnext : ∀ m', R m' → Good X Q next m') : Good X Q (.fork task .done next) m := by
  refine of_fork le_rfl (Set.empty_subset X) (fun _ _ => Set.notMem_empty _) htask
    (of_done (Q := fun _ => True) fun _ _ => trivial) ?_
  exact fun m' hR _ _ => hnext m' hR

end Good

/-! ## The number of tasks -/

/-- The number of tasks that a program begins with. -/
def Prog.forks {M : Type} : Prog M → ℕ
  | .fork _ _ _ => 2
  | _ => 0

/-- One step of one task, with the number of tasks that it spawns. -/
inductive Spawns {M : Type} : Prog M → M → ℕ → Prog M → M → Prop
  | act (f : M → M) (next : M → Prog M) (m : M) :
      Spawns (.act f next) m (next m).forks (next m) (f m)
  | left {l l' r next : Prog M} {m m' : M} {k : ℕ} (h : Spawns l m k l' m') :
      Spawns (.fork l r next) m k (.fork l' r next) m'
  | right {l r r' next : Prog M} {m m' : M} {k : ℕ} (h : Spawns r m k r' m') :
      Spawns (.fork l r next) m k (.fork l r' next) m'
  | join (next : Prog M) (m : M) : Spawns (.fork .done .done next) m next.forks next m

/-- A run, with the number of tasks that it spawns. -/
inductive Run {M : Type} : Prog M → M → ℕ → Prog M → M → Prop
  | refl (p : Prog M) (m : M) : Run p m 0 p m
  | step {p p' p'' : Prog M} {m m' m'' : M} {k n : ℕ} (h : Spawns p m k p' m')
      (rest : Run p' m' n p'' m'') : Run p m (k + n) p'' m''

/-- `p` owns the cells of `X`, changes no other cell and spawns `n` tasks until it ends, even
though other tasks may change the cells outside `X` between any two of its steps. -/
inductive Spends (X : Set Loc) : ℕ → Prog (Loc → V) → (Loc → V) → Prop
  | intro {n : ℕ} {p : Prog (Loc → V)} {m : Loc → V} (ends : p = .done → n = 0)
      (fits : ∀ m' k p' m'', Set.EqOn m' m X → Spawns p m' k p' m'' → k ≤ n)
      (owns : ∀ m' k p' m'', Set.EqOn m' m X → Spawns p m' k p' m'' →
        Set.EqOn m'' m' (Set.compl X))
      (goes : ∀ m' k p' m'', Set.EqOn m' m X → Spawns p m' k p' m'' →
        Spends X (n - k) p' m'') :
      Spends X n p m

namespace Spends

variable {X Y Z : Set Loc} {n nl nr : ℕ} {p : Prog (Loc → V)} {m : Loc → V}

/-- A run has spawned a part of the tasks, and spawns the others as it goes on. -/
theorem of_run {k : ℕ} {p' : Prog (Loc → V)} {m' : Loc → V} (h : Spends X n p m)
    (hr : Run p m k p' m') : k ≤ n ∧ Spends X (n - k) p' m' := by
  induction hr generalizing n with
  | refl p m => exact ⟨Nat.zero_le n, h⟩
  | step hs _ ih =>
    obtain ⟨-, fits, -, goes⟩ := h
    have hle := fits _ _ _ _ (fun _ _ => rfl) hs
    obtain ⟨hle', hrest⟩ := ih (goes _ _ _ _ (fun _ _ => rfl) hs)
    refine ⟨by omega, ?_⟩
    rwa [← Nat.sub_sub]

theorem congr (h : Spends X n p m) {m' : Loc → V} (hm : Set.EqOn m' m X) :
    Spends X n p m' := by
  obtain ⟨ends, fits, owns, goes⟩ := h
  exact .intro ends (fun m₁ k p' m₂ h₁ hs => fits m₁ k p' m₂ (h₁.trans hm) hs)
    (fun m₁ k p' m₂ h₁ hs => owns m₁ k p' m₂ (h₁.trans hm) hs)
    fun m₁ k p' m₂ h₁ hs => goes m₁ k p' m₂ (h₁.trans hm) hs

theorem of_done (m : Loc → V) : Spends X 0 .done m := by
  refine .intro (fun _ => rfl) (fun _ _ _ _ _ hs => ?_) (fun _ _ _ _ _ hs => ?_)
    fun _ _ _ _ _ hs => ?_
  all_goals cases hs

/-- A serial piece. -/
theorem of_act {f : (Loc → V) → Loc → V} {next : (Loc → V) → Prog (Loc → V)}
    (h : ∀ m', Set.EqOn m' m X → Set.EqOn (f m') m' (Set.compl X) ∧
      (next m').forks ≤ n ∧ Spends X (n - (next m').forks) (next m') (f m')) :
    Spends X n (.act f next) m := by
  refine .intro (fun hp => by cases hp) (fun m' k p' m'' hm hs => ?_)
    (fun m' k p' m'' hm hs => ?_) fun m' k p' m'' hm hs => ?_
  · cases hs
    exact (h m' hm).2.1
  · cases hs
    exact (h m' hm).1
  · cases hs
    exact (h m' hm).2.2

theorem of_fork_aux {l r : Prog (Loc → V)} (hYX : Y ⊆ X) (hZX : Z ⊆ X)
    (hYZ : ∀ x ∈ Y, x ∉ Z) {m₁ m₂ : Loc → V} (hl : Spends Y nl l m₁) (hr : Spends Z nr r m₂)
    (h₁ : Set.EqOn m m₁ Y) (h₂ : Set.EqOn m m₂ Z) :
    Spends X (nl + nr) (.fork l r .done) m := by
  induction hl generalizing r m m₂ nr with
  | @intro nl l m₁ lends lfits lowns lgoes ihl =>
    induction hr generalizing m with
    | @intro nr r m₂ rends rfits rowns rgoes ihr =>
      refine .intro (fun hp => by cases hp) (fun m' k p' m'' hm hs => ?_)
        (fun m' k p' m'' hm hs => ?_) fun m' k p' m'' hm hs => ?_
      all_goals
        have hm₁ : Set.EqOn m' m₁ Y := (hm.mono hYX).trans h₁
        have hm₂ : Set.EqOn m' m₂ Z := (hm.mono hZX).trans h₂
      · cases hs with
        | left hs => exact (lfits m' k _ m'' hm₁ hs).trans (Nat.le_add_right _ _)
        | right hs => exact (rfits m' k _ m'' hm₂ hs).trans (Nat.le_add_left _ _)
        | join => exact Nat.zero_le _
      · cases hs with
        | left hs => exact fun x hx => lowns m' k _ m'' hm₁ hs fun hy => hx (hYX hy)
        | right hs => exact fun x hx => rowns m' k _ m'' hm₂ hs fun hz => hx (hZX hz)
        | join => exact fun _ _ => rfl
      · cases hs with
        | left hs =>
          have hoff := lowns m' k _ m'' hm₁ hs
          rw [Nat.sub_add_comm (lfits m' k _ m'' hm₁ hs)]
          refine ihl m' k _ m'' hm₁ hs (.intro rends rfits rowns rgoes) (fun _ _ => rfl) ?_
          exact fun x hx => (hoff fun hy => hYZ _ hy hx).trans (hm₂ hx)
        | right hs =>
          have hoff := rowns m' k _ m'' hm₂ hs
          rw [Nat.add_sub_assoc (rfits m' k _ m'' hm₂ hs)]
          refine ihr m' k _ m'' hm₂ hs ?_ fun _ _ => rfl
          exact fun x hx => (hoff fun hz => hYZ _ hx hz).trans (hm₁ hx)
        | join =>
          rw [lends rfl, rends rfl]
          exact of_done _

/-- Two tasks that own disjoint parts of the cells. -/
theorem of_fork {l r : Prog (Loc → V)} (hYX : Y ⊆ X) (hZX : Z ⊆ X) (hYZ : ∀ x ∈ Y, x ∉ Z)
    (hl : Spends Y nl l m) (hr : Spends Z nr r m) : Spends X (nl + nr) (.fork l r .done) m :=
  of_fork_aux hYX hZX hYZ hl hr (fun _ _ => rfl) fun _ _ => rfl

end Spends

/-! ## The cells that a program reads and changes -/

/-- A serial piece changes cells of `X` only, and what it writes depends on no other cell. -/
structure Touches (X : Set Loc) (f : (Loc → V) → Loc → V) : Prop where
  writes : ∀ m, Set.EqOn (f m) m (Set.compl X)
  reads : ∀ m m', Set.EqOn m m' X → Set.EqOn (f m) (f m') X

namespace Touches

variable {X Y : Set Loc} {f g : (Loc → V) → Loc → V}

theorem of_id : Touches X (id : (Loc → V) → Loc → V) :=
  ⟨fun _ _ _ => rfl, fun _ _ hm => hm⟩

theorem comp (hg : Touches X g) (hf : Touches X f) : Touches X fun m => g (f m) where
  writes m := (hg.writes (f m)).trans (hf.writes m)
  reads m m' hm := hg.reads _ _ (hf.reads m m' hm)

theorem update [DecidableEq Loc] (hf : Touches X f) {c : Loc} (hc : c ∈ X) {v : (Loc → V) → V}
    (hv : ∀ m m', Set.EqOn m m' X → v m = v m') :
    Touches X fun m => Function.update (f m) c (v m) where
  writes m := (eqOn_update (f m) hc (v m)).trans (hf.writes m)
  reads m m' hm l hl := by
    rcases eq_or_ne l c with rfl | hne
    · rw [Function.update_self, Function.update_self, hv m m' hm]
    · rw [Function.update_of_ne hne, Function.update_of_ne hne, hf.reads m m' hm hl]

theorem mono (h : Touches X f) (hXY : X ⊆ Y) : Touches Y f where
  writes m := (h.writes m).mono fun _ hl hx => hl (hXY hx)
  reads m m' hm l hl := by
    by_cases hx : l ∈ X
    · exact h.reads m m' (hm.mono hXY) hx
    · rw [h.writes m hx, h.writes m' hx, hm hl]

end Touches

/-- All serial pieces of the program read and change cells of `X` only. -/
inductive Within (X : Set Loc) : Prog (Loc → V) → Prop
  | done : Within X .done
  | act {f : (Loc → V) → Loc → V} {next : (Loc → V) → Prog (Loc → V)} (touches : Touches X f)
      (reads : ∀ m m', Set.EqOn m m' X → next m = next m') (goes : ∀ m, Within X (next m)) :
      Within X (.act f next)
  | fork {l r next : Prog (Loc → V)} (left : Within X l) (right : Within X r)
      (rest : Within X next) : Within X (.fork l r next)

namespace Within

variable {X Y : Set Loc} {p p' : Prog (Loc → V)} {m m' : Loc → V} {k n : ℕ}

theorem mono (h : Within X p) (hXY : X ⊆ Y) : Within Y p := by
  induction h with
  | done => exact .done
  | act touches reads _ ih =>
    exact .act (touches.mono hXY) (fun m m' hm => reads m m' (hm.mono hXY)) ih
  | fork _ _ _ ihl ihr ih => exact .fork ihl ihr ih

/-- A step leaves all other cells alone, and is possible whatever they contain. -/
theorem step (h : Within X p) (hs : Spawns p m k p' m') :
    Within X p' ∧ Set.EqOn m' m (Set.compl X) ∧
      ∀ m₁, Set.EqOn m₁ m X → ∃ m₂, Spawns p m₁ k p' m₂ ∧ Set.EqOn m₂ m' X := by
  induction hs with
  | act f next m =>
    cases h with
    | act touches reads goes =>
      refine ⟨goes m, touches.writes m, fun m₁ hm => ⟨f m₁, ?_, touches.reads m₁ m hm⟩⟩
      rw [← reads m₁ m hm]
      exact .act f next m₁
  | left _ ih =>
    cases h with
    | fork hl hr hn =>
      obtain ⟨h₁, h₂, h₃⟩ := ih hl
      refine ⟨.fork h₁ hr hn, h₂, fun m₁ hm => ?_⟩
      obtain ⟨m₂, hs, hm₂⟩ := h₃ m₁ hm
      exact ⟨m₂, .left hs, hm₂⟩
  | right _ ih =>
    cases h with
    | fork hl hr hn =>
      obtain ⟨h₁, h₂, h₃⟩ := ih hr
      refine ⟨.fork hl h₁ hn, h₂, fun m₁ hm => ?_⟩
      obtain ⟨m₂, hs, hm₂⟩ := h₃ m₁ hm
      exact ⟨m₂, .right hs, hm₂⟩
  | join next m =>
    cases h with
    | fork _ _ hn => exact ⟨hn, fun _ _ => rfl, fun m₁ hm => ⟨m₁, .join next m₁, hm⟩⟩

/-- So does a whole run. -/
theorem run (h : Within X p) (hr : Run p m n p' m') :
    Set.EqOn m' m (Set.compl X) ∧
      ∀ m₁, Set.EqOn m₁ m X → ∃ m₂, Run p m₁ n p' m₂ ∧ Set.EqOn m₂ m' X := by
  induction hr with
  | refl p m => exact ⟨fun _ _ => rfl, fun m₁ hm => ⟨m₁, .refl p m₁, hm⟩⟩
  | step hs _ ih =>
    obtain ⟨hp, hoff, hgo⟩ := h.step hs
    obtain ⟨hoff', hgo'⟩ := ih hp
    refine ⟨hoff'.trans hoff, fun m₁ hm => ?_⟩
    obtain ⟨m₂, hs₂, hm₂⟩ := hgo m₁ hm
    obtain ⟨m₃, hr₃, hm₃⟩ := hgo' m₂ hm₂
    exact ⟨m₃, .step hs₂ hr₃, hm₃⟩

end Within

end Embb.ForkJoin
