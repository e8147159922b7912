import Embb.Base.Duration

/-!
# Bounds of the duration types

The C++ duration types promise a smallest and a largest number of ticks, which the preprocessor
computes, and check what they are constructed from with the setters.
-/

namespace Embb.Base

/-- What `Tick::CheckExceptions` throws. -/
inductive Exception where
  | underflowException
  | overflowException
  deriving DecidableEq, Repr

/-- `Tick::CheckExceptions`, for the states that the setters return. -/
def checkExceptions : Status → Except Exception Unit
  | .success => .ok ()
  | .overflow => .error .overflowException
  | .underflow => .error .underflowException

namespace Tick

/-- The common form of `Milliseconds::Min` and `Microseconds::Min`. -/
def minTicks (platform : Platform) (unit : Nat) : Nat :=
  if unit < platform.minNanoseconds then platform.minNanoseconds / unit else 1

/-- `Tick::Min`. -/
def min (platform : Platform) : Tick → Nat
  | .seconds => 1
  | .milliseconds => minTicks platform 1000000
  | .microseconds => minTicks platform 1000
  | .nanoseconds => platform.minNanoseconds

/-- The common form of `Max` for the ticks below a second. -/
def maxTicks (perSecond : Nat) : Nat :=
  if maxSeconds < (ullRange - 1) / perSecond then ullRange - 1 else maxSeconds * perSecond

/-- `Tick::Max`. -/
def max : Tick → Nat
  | .seconds => maxSeconds
  | .milliseconds => maxTicks 1000
  | .microseconds => maxTicks 1000000
  | .nanoseconds => maxTicks 1000000000

/-- `Tick::SetAndCheck`. -/
def setAndCheck (platform : Platform) (tick : Tick) (duration : Duration) (ticks : Nat) :
    Except Exception Duration := do
  checkExceptions (tick.set platform duration ticks).1
  return (tick.set platform duration ticks).2

/-- The constructor `Duration<Tick>::Duration` from a number of ticks. -/
def construct (platform : Platform) (tick : Tick) (ticks : Nat) : Except Exception Duration :=
  tick.setAndCheck platform ⟨0, 0⟩ ticks

/-- `Duration<Tick>::Count`. The local `ticks` is zero where the conversion fails; the assertion
that it does not fail is empty in a release build. -/
def count (tick : Tick) (d : Duration) : Nat := (tick.get d).toOption.getD 0

/-- The ticks can be constructed. -/
def Constructible (platform : Platform) (tick : Tick) (ticks : Nat) : Prop :=
  ∃ d, tick.construct platform ticks = .ok d

/-- The constructor accepts exactly what the setter does. -/
theorem construct_ok_iff (platform : Platform) (tick : Tick) (ticks : Nat) (d : Duration) :
    tick.construct platform ticks = .ok d ↔ tick.set platform ⟨0, 0⟩ ticks = (.success, d) := by
  unfold construct setAndCheck
  generalize tick.set platform ⟨0, 0⟩ ticks = r
  obtain ⟨status, stored⟩ := r
  cases status with
  | success =>
    constructor
    · rintro ⟨⟩
      rfl
    · rintro ⟨⟩
      rfl
  | underflow => exact iff_of_false (by rintro ⟨⟩) (by rintro ⟨⟩)
  | overflow => exact iff_of_false (by rintro ⟨⟩) (by rintro ⟨⟩)

theorem constructible_iff (platform : Platform) (tick : Tick) (ticks : Nat) :
    tick.Constructible platform ticks ↔
      ¬ (0 < ticks ∧ ticks * tick.unit % ullRange < platform.minNanoseconds) ∧
        ¬ durationMax.length < ticks * tick.unit := by
  unfold Constructible
  simp only [construct_ok_iff]
  rcases tick.set_cases platform ⟨0, 0⟩ ticks with ⟨hpos, hmin, hs⟩ | ⟨hmin, hmax, hs⟩ |
    ⟨hmin, hmax, hs⟩
  · rw [hs]
    exact iff_of_false (by simp) (fun h => h.1 ⟨hpos, hmin⟩)
  · rw [hs]
    exact iff_of_false (by simp) (fun h => h.2 hmax)
  · exact iff_of_true ⟨_, hs⟩ ⟨hmin, hmax⟩

/-- What can be constructed is counted as the ticks that it was constructed from. -/
theorem count_of_construct {platform : Platform} {tick : Tick} {ticks : Nat} {d : Duration}
    (ht : ticks < ullRange) (h : tick.construct platform ticks = .ok d) : tick.count d = ticks := by
  have hset := (tick.construct_ok_iff platform ticks d).mp h
  rcases tick.set_cases platform ⟨0, 0⟩ ticks with ⟨-, -, hs⟩ | ⟨-, -, hs⟩ | ⟨-, -, hs⟩
  · cases hset.symm.trans hs
  · cases hset.symm.trans hs
  · cases hset.symm.trans hs
    rw [count, tick.get_stored ht]
    rfl

theorem min_eq (platform : Platform) (tick : Tick) :
    tick.min platform = if tick = .nanoseconds then platform.minNanoseconds else 1 := by
  cases platform <;> cases tick <;> rfl

/-- The smallest number of ticks is the first that lasts as long as the shortest duration. -/
theorem min_le_iff (platform : Platform) (tick : Tick) (ticks : Nat) :
    tick.min platform ≤ ticks ↔ platform.minNanoseconds ≤ ticks * tick.unit := by
  have hle : platform.minNanoseconds ≤ 1000 := by cases platform <;> decide
  have hpos : 1 ≤ platform.minNanoseconds := by cases platform <;> decide
  rw [min_eq]
  by_cases hn : tick = .nanoseconds
  · rw [if_pos hn, hn, unit, Nat.mul_one]
  · have hunit : 1000 ≤ tick.unit := by
      cases tick with
      | nanoseconds => exact absurd rfl hn
      | _ => decide
    rw [if_neg hn]
    constructor
    · intro h
      calc platform.minNanoseconds ≤ 1 * tick.unit := by omega
        _ ≤ ticks * tick.unit := Nat.mul_le_mul_right _ h
    · intro h
      by_contra hz
      rw [Nat.lt_one_iff.mp (not_le.mp hz), Nat.zero_mul] at h
      omega

theorem min_le_maxSeconds (platform : Platform) (tick : Tick) :
    tick.min platform ≤ maxSeconds * tick.perSecond := by
  cases platform <;> cases tick <;> decide

/-- Below the longest duration nothing wraps, and the smallest number of ticks is exact. -/
theorem constructible_of_le (platform : Platform) (tick : Tick) {ticks : Nat}
    (h : ticks ≤ maxSeconds * tick.perSecond) :
    tick.Constructible platform ticks ↔ ticks = 0 ∨ tick.min platform ≤ ticks := by
  have hlen : ticks * tick.unit ≤ durationMax.length := by
    calc ticks * tick.unit ≤ maxSeconds * tick.perSecond * tick.unit := Nat.mul_le_mul_right _ h
      _ = durationMax.length := by rw [Nat.mul_assoc, perSecond_mul_unit]; rfl
  have hwrap : ticks * tick.unit < ullRange := Nat.lt_of_le_of_lt hlen (by decide)
  rw [constructible_iff, Nat.mod_eq_of_lt hwrap, min_le_iff]
  constructor
  · rintro ⟨hmin, -⟩
    by_cases hz : ticks = 0
    · exact Or.inl hz
    · exact Or.inr (not_lt.mp fun hlt => hmin ⟨Nat.pos_of_ne_zero hz, hlt⟩)
  · intro hmin
    refine ⟨?_, not_lt.mpr hlen⟩
    rintro ⟨hpos, hlt⟩
    rcases hmin with hz | hle
    · omega
    · exact absurd hlt (not_lt.mpr hle)

/-- More than the longest duration is never accepted, whichever test refuses it. -/
theorem not_constructible_of_lt (platform : Platform) (tick : Tick) {ticks : Nat}
    (h : maxSeconds * tick.perSecond < ticks) : ¬ tick.Constructible platform ticks := by
  rw [constructible_iff]
  refine fun hc => hc.2 ?_
  calc durationMax.length = maxSeconds * tick.perSecond * tick.unit := by
        rw [Nat.mul_assoc, perSecond_mul_unit]; rfl
    _ < ticks * tick.unit := Nat.mul_lt_mul_of_pos_right h tick.unit_pos

/-- Below a second the condition of the preprocessor selects the largest integer. -/
theorem max_eq (tick : Tick) :
    tick.max = if tick = .seconds then maxSeconds else ullRange - 1 := by
  cases tick <;> decide

/-- The constructor accepts exactly zero and the ticks between the two bounds, and what it
accepts is counted as it was given. -/
structure Bounded (platform : Platform) (tick : Tick) (ticks : Nat) : Prop where
  constructible_iff : tick.Constructible platform ticks ↔
    ticks = 0 ∨ tick.min platform ≤ ticks ∧ ticks ≤ tick.max
  count : ∀ d, tick.construct platform ticks = .ok d → tick.count d = ticks

/-- Up to the longest duration the largest number of ticks is no limit. -/
theorem le_max_of_le {tick : Tick} {ticks : Nat} (ht : ticks < ullRange)
    (h : ticks ≤ maxSeconds * tick.perSecond) : ticks ≤ tick.max := by
  rw [max_eq]
  split
  · rename_i hs
    rwa [hs, perSecond, Nat.mul_one] at h
  · omega

theorem bounded_of_le (platform : Platform) {tick : Tick} {ticks : Nat} (ht : ticks < ullRange)
    (h : ticks ≤ maxSeconds * tick.perSecond) : tick.Bounded platform ticks := by
  refine ⟨?_, fun d hd => count_of_construct ht hd⟩
  rw [tick.constructible_of_le platform h]
  exact ⟨Or.imp_right fun hmin => ⟨hmin, le_max_of_le ht h⟩, Or.imp_right fun hb => hb.1⟩

/-- Beyond the longest duration only the largest number of seconds agrees with the constructor. -/
theorem bounded_iff_of_lt (platform : Platform) {tick : Tick} {ticks : Nat} (ht : ticks < ullRange)
    (h : maxSeconds * tick.perSecond < ticks) : tick.Bounded platform ticks ↔ tick = .seconds := by
  have hno := tick.not_constructible_of_lt platform h
  by_cases hs : tick = .seconds
  · subst hs
    rw [perSecond, Nat.mul_one] at h
    refine iff_of_true ⟨iff_of_false hno ?_, fun d hd => count_of_construct ht hd⟩ rfl
    rintro (hz | ⟨-, hm⟩)
    · omega
    · exact absurd h (not_lt.mpr hm)
  · have hmin : tick.min platform ≤ ticks :=
      Nat.le_trans (tick.min_le_maxSeconds platform) (Nat.le_of_lt h)
    have hm : ticks ≤ tick.max := by
      rw [max_eq, if_neg hs]
      omega
    exact iff_of_false (fun hb => hno (hb.constructible_iff.mpr (Or.inr ⟨hmin, hm⟩))) hs

theorem constructible_max_iff (platform : Platform) (tick : Tick) :
    tick.Constructible platform tick.max ↔ tick = .seconds := by
  rw [max_eq]
  split
  · rename_i hs
    refine iff_of_true ?_ hs
    have hle : maxSeconds ≤ maxSeconds * tick.perSecond := by rw [hs]; decide
    have hmin : tick.min platform ≤ maxSeconds := by rw [hs, min]; decide
    exact (tick.constructible_of_le platform hle).mpr (Or.inr hmin)
  · rename_i hs
    refine iff_of_false (tick.not_constructible_of_lt platform ?_) hs
    cases tick <;> decide

/-- The bounds are those of the constructor for seconds, and for other ticks up to the longest
duration. The smallest number of ticks can always be constructed, the largest only of seconds. -/
theorem bounded_iff (platform : Platform) (tick : Tick) :
    (∀ ticks : Fin ullRange, tick.Bounded platform ticks ↔
        tick = .seconds ∨ ticks ≤ maxSeconds * tick.perSecond) ∧
      tick.Constructible platform (tick.min platform) ∧
      (tick.Constructible platform tick.max ↔ tick = .seconds) := by
  refine ⟨fun ticks => ?_, ?_, tick.constructible_max_iff platform⟩
  · by_cases hle : ticks ≤ maxSeconds * tick.perSecond
    · exact iff_of_true (bounded_of_le platform ticks.isLt hle) (Or.inr hle)
    · rw [bounded_iff_of_lt platform ticks.isLt (not_le.mp hle)]
      exact (or_iff_left hle).symm
  · exact (tick.constructible_of_le platform (tick.min_le_maxSeconds platform)).mpr
      (Or.inr le_rfl)

/-- The largest number of milliseconds cannot be constructed. -/
theorem max_milliseconds_refused :
    ¬ ∀ ticks : Fin ullRange, Tick.milliseconds.Bounded .posixthreads ticks := by
  intro h
  have hmax : Tick.milliseconds.max = ullRange - 1 := by decide
  have hb := (h ⟨ullRange - 1, by decide⟩).constructible_iff.mpr (Or.inr ⟨by decide, by rw [hmax]⟩)
  exact not_constructible_of_lt .posixthreads .milliseconds (by decide) hb

end Tick

end Embb.Base
