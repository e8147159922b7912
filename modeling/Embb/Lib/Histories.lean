import Mathlib.Data.List.Infix

/-!
# Histories

A system takes calls one after the other. Where a call leads from a good state to a good state
exactly when it fits, a history passes through good states only exactly when all its calls fit.
Where each call is answered as a simpler system answers it, so is every history of calls.
-/

namespace Embb.Histories

variable {S T E C A : Type}

/-- What the invariant says of a history includes what it says of the calls that are left after
each step. `all` is the condition `fits` on every call and the state before it. -/
theorem good_iff_fits (inv : S → List E → Prop) {step : S → E → S} {good : S → Prop}
    {fits : S → E → Prop} {all : S → List E → Prop} (hnil : ∀ s, all s [])
    (hcons : ∀ s e es, all s (e :: es) ↔ fits s e ∧ all (step s e) es)
    (hstep : ∀ s e es, inv s (e :: es) → good s →
      (good (step s e) ↔ fits s e) ∧ (fits s e → inv (step s e) es))
    {s : S} {es : List E} (hi : inv s es) (hg : good s) :
    (∀ done, done <+: es → good (done.foldl step s)) ↔ all s es := by
  induction es generalizing s with
  | nil =>
    refine iff_of_true (fun done hd => ?_) (hnil s)
    rw [List.prefix_nil.mp hd]
    exact hg
  | cons e es ih =>
    obtain ⟨hiff, hinv⟩ := hstep s e es hi hg
    rw [hcons]
    constructor
    · intro h
      have hg' : good (step s e) := h [e] (List.cons_prefix_cons.mpr ⟨rfl, List.nil_prefix⟩)
      have hfit := hiff.mp hg'
      refine ⟨hfit, (ih (hinv hfit) hg').mp fun done hd => ?_⟩
      exact h (e :: done) (List.cons_prefix_cons.mpr ⟨rfl, hd⟩)
    · rintro ⟨hfit, hfits⟩ done hd
      rcases List.prefix_cons_iff.mp hd with rfl | ⟨done', rfl, hd'⟩
      · exact hg
      · exact (ih (hinv hfit) (hiff.mpr hfit)).mpr hfits done' hd'

/-- The state after a history of calls, and the answers to the calls. -/
def run (step : S → C → S × A) (s : S) : List C → S × List A
  | [] => (s, [])
  | c :: cs => ((run step (step s c).1 cs).1, (step s c).2 :: (run step (step s c).1 cs).2)

/-- One more call at the end of a history. -/
theorem run_concat (step : S → C → S × A) (s : S) (calls : List C) (c : C) :
    run step s (calls ++ [c]) =
      ((step (run step s calls).1 c).1,
        (run step s calls).2 ++ [(step (run step s calls).1 c).2]) := by
  induction calls generalizing s with
  | nil => rfl
  | cons c' cs ih =>
    simp only [List.cons_append, run, ih]

/-- The answers aside, a history is a fold over its calls. -/
theorem run_fst_eq_foldl (step : S → C → S × A) (s : S) (calls : List C) :
    (run step s calls).1 = calls.foldl (fun s c => (step s c).1) s := by
  induction calls generalizing s with
  | nil => rfl
  | cons c cs ih => exact ih (step s c).1

/-- An invariant of the calls holds after every history. -/
theorem run_inv {step : S → C → S × A} {inv : S → Prop} (hstep : ∀ s c, inv s → inv (step s c).1)
    {s : S} (hi : inv s) (calls : List C) : inv (run step s calls).1 := by
  induction calls generalizing s with
  | nil => exact hi
  | cons c cs ih => exact ih (hstep s c hi)

/-- A system whose calls are answered as those of another is another description of it. -/
theorem run_refines {step : S → C → S × A} {spec : T → C → T × A} {inv : S → Prop} {abs : S → T}
    (hstep : ∀ s c, inv s → inv (step s c).1)
    (hspec : ∀ s c, inv s → spec (abs s) c = (abs (step s c).1, (step s c).2))
    {s : S} (hi : inv s) (calls : List C) :
    run spec (abs s) calls = (abs (run step s calls).1, (run step s calls).2) := by
  induction calls generalizing s with
  | nil => rfl
  | cons c cs ih =>
    simp only [run, hspec s c hi]
    rw [ih (hstep s c hi)]

end Embb.Histories
