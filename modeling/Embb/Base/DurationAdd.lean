import Embb.Lib.Histories
import Embb.Base.Duration

/-!
# Sums of durations

The addition compares the seconds of the sum with the longest duration and leaves the nanoseconds
out. A sum in the second after the longest duration is therefore stored.
-/

namespace Embb.Base

/-- The carry that the code computes as an `int`. -/
def carry (platform : Platform) (lhs rhs : Nat) : Int :=
  toInt (((lhs + rhs) % platform.ulongRange / 1000000000 : Nat) : Int)

/-- `embb_duration_add`: the status, and what `lhs` holds afterwards. -/
def durationAdd (platform : Platform) (lhs rhs : Duration) : Status × Duration :=
  let carried := toUnsigned ullRange (carry platform lhs.nanoseconds rhs.nanoseconds)
  if maxSeconds < (lhs.seconds + rhs.seconds + carried) % ullRange then (.overflow, lhs)
  else
    (.success, ⟨(lhs.seconds + rhs.seconds + carried) % ullRange,
      (lhs.nanoseconds + rhs.nanoseconds) % platform.ulongRange % 1000000000⟩)

/-- The nanoseconds of two normalised values are added without wrapping. -/
theorem add_lt_ulongRange (platform : Platform) {a b : Nat} (ha : a < 1000000000)
    (hb : b < 1000000000) : a + b < platform.ulongRange := by
  have hr : 2000000000 ≤ platform.ulongRange := by cases platform <;> decide
  omega

theorem carry_eq (platform : Platform) {a b : Nat} (ha : a < 1000000000) (hb : b < 1000000000) :
    carry platform a b = ((a + b) / 1000000000 : Nat) := by
  rw [carry, Nat.mod_eq_of_lt (add_lt_ulongRange platform ha hb)]
  exact toInt_of_lt (by omega)

theorem Duration.Valid.seconds_le {d : Duration} (h : d.Valid) : d.seconds ≤ maxSeconds := by
  have hl := h.length_le
  simp only [Duration.length, durationMax] at hl
  omega

theorem Duration.valid_iff (s n : Nat) :
    Duration.Valid ⟨s, n⟩ ↔ n < 1000000000 ∧ s * 1000000000 + n ≤ 604800000000000 :=
  ⟨fun h => ⟨h.normalised, h.length_le⟩, fun h => ⟨h.1, h.2⟩⟩

/-- The sum of valid durations, without the conversions. -/
theorem durationAdd_eq (platform : Platform) {a b : Duration} (ha : a.Valid) (hb : b.Valid) :
    durationAdd platform a b =
      if maxSeconds < a.seconds + b.seconds + (a.nanoseconds + b.nanoseconds) / 1000000000
      then (.overflow, a)
      else (.success, ⟨a.seconds + b.seconds + (a.nanoseconds + b.nanoseconds) / 1000000000,
        (a.nanoseconds + b.nanoseconds) % 1000000000⟩) := by
  have hna := ha.normalised
  have hnb := hb.normalised
  have hsa := ha.seconds_le
  have hsb := hb.seconds_le
  have hmax : maxSeconds = 604800 := rfl
  have hull : ullRange = 18446744073709551616 := rfl
  have hcarried : toUnsigned ullRange (carry platform a.nanoseconds b.nanoseconds) =
      (a.nanoseconds + b.nanoseconds) / 1000000000 := by
    rw [carry_eq platform hna hnb]
    exact toUnsigned_of_lt (by omega)
  have hsum : a.seconds + b.seconds + (a.nanoseconds + b.nanoseconds) / 1000000000 < ullRange := by
    omega
  simp only [durationAdd, hcarried, Nat.mod_eq_of_lt hsum,
    Nat.mod_eq_of_lt (add_lt_ulongRange platform hna hnb)]

/-- The sum lies in the second that the longest duration ends with, and not at its start. -/
def PastMax (a b : Duration) : Prop :=
  a.seconds + b.seconds + (a.nanoseconds + b.nanoseconds) / 1000000000 = maxSeconds ∧
    0 < (a.nanoseconds + b.nanoseconds) % 1000000000

instance (a b : Duration) : Decidable (PastMax a b) := inferInstanceAs (Decidable (_ ∧ _))

/-- The addition stores the exact sum, normalised, or refuses a sum that is too long. -/
structure AddsExactly (platform : Platform) (a b : Duration) : Prop where
  refused_iff : durationAdd platform a b = (.overflow, a) ↔
    durationMax.length < a.length + b.length
  stored : ¬ durationMax.length < a.length + b.length →
    (durationAdd platform a b).1 = .success ∧
      (durationAdd platform a b).2.nanoseconds < 1000000000 ∧
      (durationAdd platform a b).2.length = a.length + b.length

theorem addsExactly_iff (platform : Platform) {a b : Duration} (ha : a.Valid) (hb : b.Valid) :
    AddsExactly platform a b ↔ ¬ PastMax a b := by
  have hmax : maxSeconds = 604800 := rfl
  have hlen : durationMax.length = 604800000000000 := rfl
  constructor
  · rintro ⟨hiff, -⟩ ⟨hs, hn⟩
    have hover := hiff.mpr (by rw [hlen, Duration.length, Duration.length]; omega)
    rw [durationAdd_eq platform ha hb, if_neg (by omega)] at hover
    exact absurd (congrArg Prod.fst hover) (by simp)
  · intro h
    have hpast : ¬ (a.seconds + b.seconds + (a.nanoseconds + b.nanoseconds) / 1000000000 =
        maxSeconds ∧ 0 < (a.nanoseconds + b.nanoseconds) % 1000000000) := h
    rw [hmax] at hpast
    constructor
    · rw [durationAdd_eq platform ha hb, hmax, hlen]
      unfold Duration.length
      split
      · exact iff_of_true rfl (by omega)
      · exact iff_of_false (by simp) (by omega)
    · intro hle
      rw [hlen, Duration.length, Duration.length] at hle
      rw [durationAdd_eq platform ha hb, hmax, if_neg (by omega)]
      refine ⟨rfl, Nat.mod_lt _ (by decide), ?_⟩
      simp only [Duration.length]
      omega

/-- The sum of valid durations is valid unless it is just past the longest one. -/
theorem valid_durationAdd_iff (platform : Platform) {a b : Duration} (ha : a.Valid)
    (hb : b.Valid) : (durationAdd platform a b).2.Valid ↔ ¬ PastMax a b := by
  have hmax : maxSeconds = 604800 := rfl
  rw [durationAdd_eq platform ha hb, PastMax, hmax]
  split
  · exact iff_of_true ha (by omega)
  · rw [Duration.valid_iff]
    omega

/-- A call on the duration variables of a program. -/
inductive DurationCall where
  | set (tick : Tick) (v ticks : Nat)
  | add (lhs rhs : Nat)

/-- The variables after a call; the caller may ignore the status. -/
def DurationCall.run (platform : Platform) (vars : Nat → Duration) : DurationCall → Nat → Duration
  | .set tick v ticks => Function.update vars v (tick.set platform (vars v) ticks).2
  | .add lhs rhs => Function.update vars lhs (durationAdd platform (vars lhs) (vars rhs)).2

/-- The call does not store a sum just past the longest duration. -/
def DurationCall.Fits (vars : Nat → Duration) : DurationCall → Prop
  | .set .. => True
  | .add lhs rhs => ¬ PastMax (vars lhs) (vars rhs)

/-- Every call of a history fits. -/
def AllFit (platform : Platform) (vars : Nat → Duration) : List DurationCall → Prop
  | [] => True
  | c :: cs => c.Fits vars ∧ AllFit platform (c.run platform vars) cs

/-- All variables hold valid durations. -/
def AllValid (vars : Nat → Duration) : Prop := ∀ v, (vars v).Valid

/-- A call keeps all variables valid exactly if it fits. -/
theorem allValid_run_iff (platform : Platform) {vars : Nat → Duration} (h : AllValid vars)
    (c : DurationCall) : AllValid (c.run platform vars) ↔ c.Fits vars := by
  cases c with
  | set tick v ticks =>
    refine iff_of_true (fun w => ?_) trivial
    rw [DurationCall.run, Function.update_apply]
    split
    · exact tick.valid_set platform (h v) ticks
    · exact h w
  | add lhs rhs =>
    have hsum := valid_durationAdd_iff platform (h lhs) (h rhs)
    constructor
    · intro hall
      have hl := hall lhs
      rw [DurationCall.run, Function.update_self] at hl
      exact hsum.mp hl
    · intro hfits w
      rw [DurationCall.run, Function.update_apply]
      split
      · exact hsum.mpr hfits
      · exact h w

/-- Two valid durations are added exactly, or refused, unless their sum is just past the longest
duration; and a history of calls keeps all durations valid unless it stores such a sum. -/
theorem durations_add_iff (platform : Platform) :
    (∀ a b : Duration, a.Valid → b.Valid → (AddsExactly platform a b ↔ ¬ PastMax a b)) ∧
      ∀ (vars : Nat → Duration) (calls : List DurationCall), AllValid vars →
        ((∀ done, done <+: calls → AllValid (done.foldl (DurationCall.run platform) vars)) ↔
          AllFit platform vars calls) := by
  refine ⟨fun a b ha hb => addsExactly_iff platform ha hb, fun vars calls h => ?_⟩
  have hstep : ∀ (vars : Nat → Duration) (c : DurationCall) (_ : List DurationCall), True →
      AllValid vars → (AllValid (DurationCall.run platform vars c) ↔ DurationCall.Fits vars c) ∧
        (DurationCall.Fits vars c → True) :=
    fun vars c _ _ hvalid => ⟨allValid_run_iff platform hvalid c, fun _ => trivial⟩
  exact Histories.good_iff_fits (fun _ _ => True) (fun _ => trivial) (fun _ _ _ => Iff.rfl)
    hstep trivial h

/-- The longest duration is valid, and nothing is added to it. -/
theorem durations_add_zero :
    durationMax.Valid ∧ durationZero.Valid ∧
      AddsExactly .posixthreads durationMax durationZero := by
  have hmax : durationMax.Valid := (Duration.valid_iff _ _).mpr (by decide)
  have hzero : durationZero.Valid := (Duration.valid_iff _ _).mpr (by decide)
  refine ⟨hmax, hzero, ?_⟩
  exact ((durations_add_iff .posixthreads).1 durationMax durationZero hmax hzero).mpr (by decide)

/-- The longest duration and one nanosecond more are added and stored. -/
theorem add_to_longest :
    ¬ ∀ a b : Duration, a.Valid → b.Valid → AddsExactly .posixthreads a b := by
  intro h
  have hmax : durationMax.Valid := (Duration.valid_iff _ _).mpr (by decide)
  have hone : Duration.Valid ⟨0, 1⟩ := (Duration.valid_iff _ _).mpr (by decide)
  have hover := (h durationMax ⟨0, 1⟩ hmax hone).refused_iff.mpr (by decide)
  exact absurd hover (by decide)

end Embb.Base
