import Mathlib.Algebra.Ring.Int.Defs
import Mathlib.Algebra.Ring.Nat
import Mathlib.Data.Nat.Basic
import Mathlib.Tactic.Common

/-!
# Durations

A duration is a number of seconds and a number of nanoseconds below a second. The setters and
the conversions exist for four tick lengths; they compute in `unsigned long long`.
-/

namespace Embb.Base

/-- The number of values of an `unsigned long long`. -/
def ullRange : Nat := 2 ^ 64

/-- The conversion to `int`. -/
def toInt (x : Int) : Int := (BitVec.ofInt 32 x).toInt

/-- The conversion to an unsigned type of `range` values. -/
def toUnsigned (range : Nat) (x : Int) : Nat := (x % range).toNat

theorem toInt_of_lt {x : Nat} (h : x < 2 ^ 31) : toInt x = x := by
  rw [toInt, BitVec.toInt_ofInt, Int.bmod_eq_of_le] <;> omega

theorem toUnsigned_of_lt {range x : Nat} (h : x < range) : toUnsigned range x = x := by
  unfold toUnsigned
  rw [Int.emod_eq_of_lt] <;> omega

/-- The threading platform that the library is configured for. -/
inductive Platform where
  | winthreads
  | posixthreads
  deriving DecidableEq, Repr

/-- `EMBB_DURATION_MIN_NANOSECONDS`. -/
def Platform.minNanoseconds : Platform → Nat
  | .winthreads => 1000
  | .posixthreads => 1

/-- The number of values of an `unsigned long`. -/
def Platform.ulongRange : Platform → Nat
  | .winthreads => 2 ^ 32
  | .posixthreads => 2 ^ 64

/-- `EMBB_DURATION_MAX_SECONDS`. -/
def maxSeconds : Nat := 60 * 60 * 24 * 7

/-- `embb_errors_t`, as far as durations report them. -/
inductive Status where
  | success
  | underflow
  | overflow
  deriving DecidableEq, Repr

/-- `embb_duration_t`. -/
structure Duration where
  seconds : Nat
  nanoseconds : Nat
  deriving DecidableEq, Repr

/-- `embb_duration_max`. -/
def durationMax : Duration := ⟨maxSeconds, 0⟩

/-- `embb_duration_min`. -/
def durationMin (platform : Platform) : Duration := ⟨0, platform.minNanoseconds⟩

theorem nanoseconds_min (platform : Platform) :
    (durationMin platform).nanoseconds = platform.minNanoseconds := rfl

/-- `embb_duration_zero`. -/
def durationZero : Duration := ⟨0, 0⟩

/-- The exact length in nanoseconds. -/
def Duration.length (d : Duration) : Nat := d.seconds * 1000000000 + d.nanoseconds

/-- The range tests that every setter makes, in this order. -/
def checkTicks (platform : Platform) (unit perSecond ticks : Nat) : Status :=
  if 0 < ticks then
    if ticks * unit % ullRange < (durationMin platform).nanoseconds then .underflow
    else if (durationMax.seconds * perSecond + durationMax.nanoseconds / unit) % ullRange < ticks
    then .overflow
    else .success
  else .success

/-- The common form of the setters, for ticks of `unit` nanoseconds. A refused value leaves the
duration as it is. -/
def setTicks (platform : Platform) (unit perSecond : Nat) (duration : Duration) (ticks : Nat) :
    Status × Duration :=
  match checkTicks platform unit perSecond ticks with
  | .success => (.success, ⟨ticks / perSecond, ticks % perSecond * unit⟩)
  | status => (status, duration)

/-- `embb_duration_set_nanoseconds`. -/
def setNanoseconds (platform : Platform) : Duration → Nat → Status × Duration :=
  setTicks platform 1 1000000000

/-- `embb_duration_set_microseconds`. -/
def setMicroseconds (platform : Platform) : Duration → Nat → Status × Duration :=
  setTicks platform 1000 1000000

/-- `embb_duration_set_milliseconds`. -/
def setMilliseconds (platform : Platform) : Duration → Nat → Status × Duration :=
  setTicks platform 1000000 1000

/-- `embb_duration_set_seconds`. -/
def setSeconds (platform : Platform) : Duration → Nat → Status × Duration :=
  setTicks platform 1000000000 1

/-- The common form of the conversions. The sum is formed modulo `2 ^ 64` before it is compared
with `ULLONG_MAX`. -/
def asTicks (unit perSecond : Nat) (duration : Duration) : Except Status Nat :=
  if 0 < duration.nanoseconds % unit then .error .underflow
  else if ullRange - 1 < (duration.seconds * perSecond + duration.nanoseconds / unit) % ullRange
  then .error .overflow
  else .ok ((duration.seconds * perSecond + duration.nanoseconds / unit) % ullRange)

/-- `embb_duration_as_nanoseconds`. -/
def asNanoseconds : Duration → Except Status Nat := asTicks 1 1000000000

/-- `embb_duration_as_microseconds`. -/
def asMicroseconds : Duration → Except Status Nat := asTicks 1000 1000000

/-- `embb_duration_as_milliseconds`. -/
def asMilliseconds : Duration → Except Status Nat := asTicks 1000000 1000

/-- `embb_duration_as_seconds`, which does not add whole seconds of the nanoseconds. -/
def asSeconds (duration : Duration) : Except Status Nat :=
  if 0 < duration.nanoseconds % 1000000000 then .error .underflow
  else if ullRange - 1 < duration.seconds then .error .overflow
  else .ok duration.seconds

/-- The tick lengths that durations are set from and converted to. -/
inductive Tick where
  | nanoseconds
  | microseconds
  | milliseconds
  | seconds
  deriving DecidableEq, Repr

namespace Tick

/-- The nanoseconds in a tick. -/
def unit : Tick → Nat
  | .nanoseconds => 1
  | .microseconds => 1000
  | .milliseconds => 1000000
  | .seconds => 1000000000

/-- The ticks in a second. -/
def perSecond : Tick → Nat
  | .nanoseconds => 1000000000
  | .microseconds => 1000000
  | .milliseconds => 1000
  | .seconds => 1

/-- The setter of a tick length. -/
def set (platform : Platform) : Tick → Duration → Nat → Status × Duration
  | .nanoseconds => setNanoseconds platform
  | .microseconds => setMicroseconds platform
  | .milliseconds => setMilliseconds platform
  | .seconds => setSeconds platform

/-- The conversion to a tick length. -/
def get : Tick → Duration → Except Status Nat
  | .nanoseconds => asNanoseconds
  | .microseconds => asMicroseconds
  | .milliseconds => asMilliseconds
  | .seconds => asSeconds

theorem unit_pos (tick : Tick) : 0 < tick.unit := by cases tick <;> decide

theorem perSecond_pos (tick : Tick) : 0 < tick.perSecond := by cases tick <;> decide

theorem perSecond_mul_unit (tick : Tick) : tick.perSecond * tick.unit = 1000000000 := by
  cases tick <;> rfl

theorem set_eq (platform : Platform) (tick : Tick) :
    tick.set platform = setTicks platform tick.unit tick.perSecond := by
  cases tick <;> rfl

/-- The seconds are converted as the other ticks are, where they are normalised. -/
theorem get_eq (tick : Tick) {d : Duration} (hs : d.seconds < ullRange)
    (hn : d.nanoseconds < 1000000000) : tick.get d = asTicks tick.unit tick.perSecond d := by
  cases tick with
  | seconds =>
    have hdiv : d.nanoseconds / 1000000000 = 0 := Nat.div_eq_of_lt hn
    simp only [get, asSeconds, asTicks, unit, perSecond, hdiv, Nat.mul_one, Nat.add_zero,
      Nat.mod_eq_of_lt hs]
  | _ => rfl

/-- The duration that a setter stores is exactly as long as its ticks. -/
theorem length_stored (tick : Tick) (ticks : Nat) :
    Duration.length ⟨ticks / tick.perSecond, ticks % tick.perSecond * tick.unit⟩ =
      ticks * tick.unit := by
  calc ticks / tick.perSecond * 1000000000 + ticks % tick.perSecond * tick.unit
      = (tick.perSecond * (ticks / tick.perSecond) + ticks % tick.perSecond) * tick.unit := by
        rw [← tick.perSecond_mul_unit, Nat.add_mul]
        congr 1
        rw [Nat.mul_left_comm, Nat.mul_assoc, Nat.mul_left_comm]
    _ = ticks * tick.unit := by rw [Nat.div_add_mod]

/-- The duration that a setter stores is normalised. -/
theorem nanoseconds_stored (tick : Tick) (ticks : Nat) :
    ticks % tick.perSecond * tick.unit < 1000000000 := by
  rw [← tick.perSecond_mul_unit]
  exact Nat.mul_lt_mul_of_pos_right (Nat.mod_lt _ tick.perSecond_pos) tick.unit_pos

/-- A stored duration is converted to the ticks that it was set from. -/
theorem get_stored (tick : Tick) {ticks : Nat} (h : ticks < ullRange) :
    tick.get ⟨ticks / tick.perSecond, ticks % tick.perSecond * tick.unit⟩ = .ok ticks := by
  have hsum : ticks / tick.perSecond * tick.perSecond +
      ticks % tick.perSecond * tick.unit / tick.unit = ticks := by
    rw [Nat.mul_div_cancel _ tick.unit_pos, Nat.mul_comm, Nat.div_add_mod]
  rw [tick.get_eq (Nat.lt_of_le_of_lt (Nat.div_le_self _ _) h) (tick.nanoseconds_stored ticks),
    asTicks, if_neg (by rw [Nat.mul_mod_left]; exact lt_irrefl 0), hsum, Nat.mod_eq_of_lt h,
    if_neg (by omega)]

/-- The test against the maximum is exact. -/
theorem lt_max_iff (tick : Tick) (ticks : Nat) :
    (durationMax.seconds * tick.perSecond + durationMax.nanoseconds / tick.unit) % ullRange <
      ticks ↔ durationMax.length < ticks * tick.unit := by
  have hmax : (durationMax.seconds * tick.perSecond + durationMax.nanoseconds / tick.unit) %
      ullRange = maxSeconds * tick.perSecond := by cases tick <;> rfl
  have hlen : durationMax.length = maxSeconds * tick.perSecond * tick.unit := by
    rw [Nat.mul_assoc, perSecond_mul_unit]
    rfl
  rw [hmax, hlen, Nat.mul_lt_mul_right tick.unit_pos]

/-- What a setter does, test by test. -/
theorem set_cases (platform : Platform) (tick : Tick) (d : Duration) (ticks : Nat) :
    (0 < ticks ∧ ticks * tick.unit % ullRange < platform.minNanoseconds ∧
        tick.set platform d ticks = (.underflow, d)) ∨
      (¬ (0 < ticks ∧ ticks * tick.unit % ullRange < platform.minNanoseconds) ∧
        durationMax.length < ticks * tick.unit ∧ tick.set platform d ticks = (.overflow, d)) ∨
      (¬ (0 < ticks ∧ ticks * tick.unit % ullRange < platform.minNanoseconds) ∧
        ¬ durationMax.length < ticks * tick.unit ∧
        tick.set platform d ticks =
          (.success, ⟨ticks / tick.perSecond, ticks % tick.perSecond * tick.unit⟩)) := by
  rw [tick.set_eq, setTicks, checkTicks, nanoseconds_min]
  by_cases hpos : 0 < ticks
  · by_cases hmin : ticks * tick.unit % ullRange < platform.minNanoseconds
    · exact Or.inl ⟨hpos, hmin, by rw [if_pos hpos, if_pos hmin]⟩
    · rw [if_pos hpos, if_neg hmin]
      by_cases hmax : durationMax.length < ticks * tick.unit
      · rw [if_pos ((tick.lt_max_iff ticks).mpr hmax)]
        exact Or.inr (Or.inl ⟨fun h => hmin h.2, hmax, rfl⟩)
      · rw [if_neg (mt (tick.lt_max_iff ticks).mp hmax)]
        exact Or.inr (Or.inr ⟨fun h => hmin h.2, hmax, rfl⟩)
  · have hz : ticks = 0 := by omega
    refine Or.inr (Or.inr ⟨fun h => hpos h.1, ?_, by rw [if_neg hpos]⟩)
    rw [hz, Nat.zero_mul]
    exact Nat.not_lt_zero _

/-- The setter tells whether the exact length of the ticks is too long, too short or neither, and
stores what the conversion gives back. -/
structure Classifies (platform : Platform) (tick : Tick) (ticks : Nat) (d : Duration) : Prop where
  overflow_iff : (tick.set platform d ticks).1 = .overflow ↔
    durationMax.length < ticks * tick.unit
  underflow_iff : (tick.set platform d ticks).1 = .underflow ↔
    0 < ticks ∧ ticks * tick.unit < (durationMin platform).length
  success : ¬ durationMax.length < ticks * tick.unit →
    ¬ (0 < ticks ∧ ticks * tick.unit < (durationMin platform).length) →
    (tick.set platform d ticks).1 = .success ∧
      (tick.set platform d ticks).2.nanoseconds < 1000000000 ∧
      tick.get (tick.set platform d ticks).2 = .ok ticks

theorem length_min (platform : Platform) :
    (durationMin platform).length = platform.minNanoseconds := by
  cases platform <;> rfl

theorem minNanoseconds_le_max (platform : Platform) :
    platform.minNanoseconds ≤ durationMax.length := by
  cases platform <;> decide

/-- A setter classifies its argument correctly exactly if the length is not wrapped to less than
the shortest duration before it is tested. -/
theorem classifies_iff (platform : Platform) (tick : Tick) (ticks : Fin ullRange) (d : Duration) :
    Classifies platform tick ticks d ↔
      ticks * tick.unit < ullRange ∨
        platform.minNanoseconds ≤ ticks * tick.unit % ullRange := by
  have hle := minNanoseconds_le_max platform
  have hmaxlt : durationMax.length < ullRange := by decide
  rcases tick.set_cases platform d ticks with ⟨hpos, hmin, hs⟩ | ⟨hmin, hmax, hs⟩ |
    ⟨hmin, hmax, hs⟩
  · constructor
    · intro h
      have hunder := h.underflow_iff.mp (by rw [hs])
      rw [length_min] at hunder
      exact Or.inl (by omega)
    · intro h
      have hwrap : ticks.val * tick.unit < ullRange := h.resolve_right (by omega)
      rw [Nat.mod_eq_of_lt hwrap] at hmin
      refine ⟨?_, ?_, ?_⟩
      · rw [hs]
        exact iff_of_false (by simp) (by omega)
      · rw [hs, length_min]
        exact iff_of_true rfl ⟨hpos, hmin⟩
      · intro _ hn
        exact absurd ⟨hpos, by rwa [length_min]⟩ hn
  · refine iff_of_true ⟨?_, ?_, fun hn => absurd hmax hn⟩ ?_
    · rw [hs]
      exact iff_of_true rfl hmax
    · rw [hs, length_min]
      exact iff_of_false (by simp) (by omega)
    · have hu := tick.unit_pos
      have hpos : 0 < ticks.val := by
        by_contra hz
        rw [Nat.eq_zero_of_not_pos hz, Nat.zero_mul] at hmax
        exact absurd hmax (Nat.not_lt_zero _)
      exact Or.inr (not_lt.mp fun h => hmin ⟨hpos, h⟩)
  · have hwrap : ticks.val * tick.unit < ullRange := by omega
    rw [Nat.mod_eq_of_lt hwrap] at hmin
    refine iff_of_true ⟨?_, ?_, fun _ _ => ?_⟩ (Or.inl hwrap)
    · rw [hs]
      exact iff_of_false (by simp) hmax
    · rw [hs, length_min]
      exact iff_of_false (by simp) hmin
    · rw [hs]
      exact ⟨rfl, tick.nanoseconds_stored ticks, tick.get_stored ticks.isLt⟩

/-- Where the length of a tick wraps to zero, a value that is far too large is too small. -/
theorem set_seconds_wraps :
    ¬ ∀ ticks : Fin ullRange, Classifies .posixthreads .seconds ticks durationZero := by
  intro h
  have hover := (h ⟨2 ^ 55, by decide⟩).overflow_iff.mpr (by decide)
  exact absurd hover (by decide)

end Tick

/-- A normalised duration that is not longer than the longest one. -/
structure Duration.Valid (d : Duration) : Prop where
  normalised : d.nanoseconds < 1000000000
  length_le : d.length ≤ durationMax.length

/-- Whatever is set is valid, if the duration was. -/
theorem Tick.valid_set (platform : Platform) (tick : Tick) {d : Duration} (h : d.Valid)
    (ticks : Nat) : (tick.set platform d ticks).2.Valid := by
  rcases tick.set_cases platform d ticks with ⟨-, -, hs⟩ | ⟨-, -, hs⟩ | ⟨-, hmax, hs⟩
  · rwa [hs]
  · rwa [hs]
  · rw [hs]
    refine ⟨tick.nanoseconds_stored ticks, ?_⟩
    rw [tick.length_stored]
    exact not_lt.mp hmax

end Embb.Base
