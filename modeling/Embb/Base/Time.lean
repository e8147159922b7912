import Mathlib.Data.Nat.Cast.Basic
import Embb.Base.DurationAdd

/-!
# Points in time

A point in time is read from the clock and moved by a duration, with a carry from the
nanoseconds. Points are compared by their seconds first.
-/

namespace Embb.Base

/-- `embb_time_t`. -/
structure Time where
  seconds : Nat
  nanoseconds : Nat
  deriving DecidableEq, Repr

/-- The exact point in time, in nanoseconds. -/
def Time.instant (t : Time) : Nat := t.seconds * 1000000000 + t.nanoseconds

/-- What `clock_gettime` delivers. -/
structure Reading where
  tvSec : Nat
  tvNsec : Nat
  tvSec_lt : tvSec < 2 ^ 63
  tvNsec_lt : tvNsec < 1000000000

/-- The exact point in time of a reading. -/
def Reading.instant (r : Reading) : Nat := r.tvSec * 1000000000 + r.tvNsec

/-- `embb_time_in` with POSIX threads: the status, and what `time` holds afterwards. -/
def timeIn (reading : Reading) (duration : Duration) : Status × Time :=
  let time : Time := ⟨reading.tvSec, reading.tvNsec⟩
  let carry := carry .posixthreads time.nanoseconds duration.nanoseconds
  if ullRange - 1 < (time.seconds + duration.seconds + toUnsigned ullRange carry) % ullRange then
    (.overflow, time)
  else
    (.success, ⟨(time.seconds + (duration.seconds + toUnsigned ullRange carry)) % ullRange,
      toUnsigned Platform.posixthreads.ulongRange
        (time.nanoseconds + (duration.nanoseconds - toInt (carry * 1000000000)))⟩)

/-- `embb_time_now`. -/
def timeNow (reading : Reading) : Time := (timeIn reading durationZero).2

/-- `embb_time_compare`. -/
def timeCompare (lhs rhs : Time) : Int :=
  if rhs.seconds < lhs.seconds then 1
  else if lhs.seconds < rhs.seconds then -1
  else if rhs.nanoseconds < lhs.nanoseconds then 1
  else if lhs.nanoseconds < rhs.nanoseconds then -1
  else 0

/-- A valid duration moves a reading by its exact length, with at most one carry. -/
theorem timeIn_of_valid (reading : Reading) {d : Duration} (h : d.Valid) :
    timeIn reading d = (.success,
      ⟨reading.tvSec + d.seconds + (reading.tvNsec + d.nanoseconds) / 1000000000,
        (reading.tvNsec + d.nanoseconds) % 1000000000⟩) := by
  have hr := reading.tvNsec_lt
  have hs := reading.tvSec_lt
  have hd := h.normalised
  have hds : d.seconds ≤ 604800 := h.seconds_le
  have hull : ullRange = 18446744073709551616 := rfl
  have hulong : Platform.posixthreads.ulongRange = 18446744073709551616 := rfl
  have hcarry := carry_eq .posixthreads hr hd
  have hle : (reading.tvNsec + d.nanoseconds) / 1000000000 ≤ 1 := by omega
  have hcarried : toUnsigned ullRange
      (((reading.tvNsec + d.nanoseconds) / 1000000000 : Nat) : Int) =
        (reading.tvNsec + d.nanoseconds) / 1000000000 := toUnsigned_of_lt (by omega)
  have hproduct : toInt ((((reading.tvNsec + d.nanoseconds) / 1000000000 : Nat) : Int) *
      1000000000) = ((reading.tvNsec + d.nanoseconds) / 1000000000 * 1000000000 : Nat) := by
    have hprod : (reading.tvNsec + d.nanoseconds) / 1000000000 * 1000000000 < 2 ^ 31 := by omega
    exact_mod_cast toInt_of_lt hprod
  have hrest : toUnsigned Platform.posixthreads.ulongRange
      ((reading.tvNsec : Int) + ((d.nanoseconds : Int) -
        ((reading.tvNsec + d.nanoseconds) / 1000000000 * 1000000000 : Nat))) =
      (reading.tvNsec + d.nanoseconds) % 1000000000 := by
    have hrem : (reading.tvNsec : Int) + ((d.nanoseconds : Int) -
        ((reading.tvNsec + d.nanoseconds) / 1000000000 * 1000000000 : Nat)) =
        ((reading.tvNsec + d.nanoseconds) % 1000000000 : Nat) := by omega
    rw [hrem]
    exact toUnsigned_of_lt (by omega)
  have hsum : reading.tvSec + d.seconds + (reading.tvNsec + d.nanoseconds) / 1000000000 <
      ullRange := by omega
  simp only [timeIn, hcarry, hcarried, hproduct, hrest]
  rw [← Nat.add_assoc, Nat.mod_eq_of_lt hsum, if_neg (by omega)]

/-- The current time is the reading. -/
theorem timeNow_eq (reading : Reading) : timeNow reading = ⟨reading.tvSec, reading.tvNsec⟩ := by
  have hzero : durationZero.Valid := (Duration.valid_iff _ _).mpr (by decide)
  have hr := reading.tvNsec_lt
  rw [timeNow, timeIn_of_valid reading hzero]
  simp only [durationZero, Nat.add_zero, Nat.div_eq_of_lt hr, Nat.mod_eq_of_lt hr]

theorem instant_timeNow (reading : Reading) : (timeNow reading).instant = reading.instant := by
  rw [timeNow_eq]
  rfl

/-- The end of a valid duration is exact and normalised. -/
theorem instant_timeIn (reading : Reading) {d : Duration} (h : d.Valid) :
    (timeIn reading d).2.instant = reading.instant + d.length ∧
      (timeIn reading d).2.nanoseconds < 1000000000 := by
  rw [timeIn_of_valid reading h]
  refine ⟨?_, Nat.mod_lt _ (by decide)⟩
  simp only [Time.instant, Reading.instant, Duration.length]
  omega

/-- Normalised points are compared as the exact points are. -/
theorem timeCompare_eq {a b : Time} (ha : a.nanoseconds < 1000000000)
    (hb : b.nanoseconds < 1000000000) :
    timeCompare a b =
      if b.instant < a.instant then 1 else if a.instant < b.instant then -1 else 0 := by
  unfold timeCompare Time.instant
  split_ifs <;> first | rfl | omega

end Embb.Base
