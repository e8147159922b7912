import Embb.Base.Time
import Embb.Mtapi.PoolMemory

/-!
# Timeouts

The calls that wait compute a deadline when they start, and compare every later reading of the
clock with it. The longest duration is seven days; a longer timeout is refused by the setter,
whose status nobody reads, and the deadline is computed from a variable that was never set.
-/

namespace Embb.Mtapi

open Base

/-- How a call that waits ends. -/
inductive Waited where
  | arrived
  | timedOut (reading : Reading)

/-- The deadline that a call computes from its first reading. `garbage` and `unset` are what the
uninitialized variables `wait_duration` and `end_time` contain. -/
def endTime (timeout : Int) (garbage : Duration) (unset : Time) (start : Reading) : Time :=
  if infinite < timeout then
    -- the status of the setter and that of `embb_time_in` are dropped
    (timeIn start (setMilliseconds .posixthreads garbage (toUnsigned ullRange timeout)).2).2
  else unset

/-- The loop of the calls that wait, over what they observe and the readings of the clock. There
is no result as long as the loop goes on. -/
def waitLoop {S : Type} (busy : S → Bool) (timeout : Int) (deadline : Time) :
    List (S × Reading) → Option Waited
  | [] => none
  | (s, reading) :: rest =>
    if busy s then
      if infinite < timeout ∧ 0 < timeCompare (timeNow reading) deadline then
        some (.timedOut reading)
      else waitLoop busy timeout deadline rest
    else some .arrived

/-- `embb_mtapi_scheduler_wait_for_task`, which observes the state of the task. -/
def waitForTask (timeout : Int) (deadline : Time) (observed : List (TaskState × Reading)) :
    Option Waited :=
  waitLoop (fun state => decide (state = .scheduled ∨ state = .running ∨ state = .retained))
    timeout deadline observed

/-- `mtapi_group_wait_all`, which observes the number of tasks in the group. -/
def groupWaitAll (timeout : Int) (deadline : Time) (observed : List (Int × Reading)) :
    Option Waited :=
  waitLoop (fun numTasks => decide (numTasks ≠ 0)) timeout deadline observed

/-- `mtapi_group_wait_any`, which observes what it pops from the queue of the group. -/
def groupWaitAny (timeout : Int) (deadline : Time) (observed : List (Option Ptr × Reading)) :
    Option Waited :=
  waitLoop (fun localTask => localTask.isNone) timeout deadline observed

/-- A timeout is reported at a reading past the deadline. -/
theorem compare_of_timedOut {S : Type} {busy : S → Bool} {timeout : Int} {deadline : Time}
    {observed : List (S × Reading)} {reading : Reading}
    (h : waitLoop busy timeout deadline observed = some (.timedOut reading)) :
    0 < timeCompare (timeNow reading) deadline := by
  induction observed with
  | nil => cases h
  | cons x rest ih =>
    obtain ⟨s, r⟩ := x
    unfold waitLoop at h
    split at h
    · split at h
      · rename_i hpast
        cases h
        exact hpast.2
      · exact ih h
    · cases h

/-- The milliseconds of an admissible timeout, as nanoseconds. -/
def nanosOf (timeout : Int) : Nat := timeout.toNat * 1000000

/-- Whatever the uninitialized variables contain, the deadline is the exact end of the timeout,
readings are compared with it as the exact points in time are, and no call reports a timeout
before its end. -/
structure NeverEarly (timeout : Int) : Prop where
  deadline : ∀ garbage unset start,
    (endTime timeout garbage unset start).instant = start.instant + nanosOf timeout ∧
      (endTime timeout garbage unset start).nanoseconds < 1000000000
  compare : ∀ garbage unset (start reading : Reading),
    timeCompare (timeNow reading) (endTime timeout garbage unset start) =
      if start.instant + nanosOf timeout < reading.instant then 1
      else if reading.instant < start.instant + nanosOf timeout then -1 else 0
  task : ∀ garbage unset start observed reading,
    waitForTask timeout (endTime timeout garbage unset start) observed =
      some (.timedOut reading) → start.instant + nanosOf timeout < reading.instant
  all : ∀ garbage unset start observed reading,
    groupWaitAll timeout (endTime timeout garbage unset start) observed =
      some (.timedOut reading) → start.instant + nanosOf timeout < reading.instant
  any : ∀ garbage unset start observed reading,
    groupWaitAny timeout (endTime timeout garbage unset start) observed =
      some (.timedOut reading) → start.instant + nanosOf timeout < reading.instant

/-- The nanoseconds of a timeout do not wrap. -/
theorem one_le_nanos {n : Nat} (h0 : 0 < n) (hmax : n < 2 ^ 31) :
    1 ≤ n * 1000000 % ullRange := by
  have hlt : n * 1000000 < ullRange := by
    calc n * 1000000 < 2 ^ 31 * 1000000 := Nat.mul_lt_mul_of_pos_right hmax (by decide)
      _ < ullRange := by decide
  rw [Nat.mod_eq_of_lt hlt]
  omega

/-- The setter accepts seven days and refuses more, leaving the duration as it is. -/
theorem setMilliseconds_timeout {timeout : Int} (h0 : 0 < timeout) (hmax : timeout < 2 ^ 31)
    (garbage : Duration) :
    (timeout ≤ 604800000 ∧
        (setMilliseconds .posixthreads garbage (toUnsigned ullRange timeout)).2.Valid ∧
        (setMilliseconds .posixthreads garbage (toUnsigned ullRange timeout)).2.length =
          nanosOf timeout) ∨
      (604800000 < timeout ∧
        (setMilliseconds .posixthreads garbage (toUnsigned ullRange timeout)).2 = garbage) := by
  obtain ⟨n, rfl⟩ : ∃ n : Nat, timeout = n := ⟨timeout.toNat, by omega⟩
  have hrange : n < ullRange := by
    calc n < 2 ^ 31 := by omega
      _ < ullRange := by decide
  have hn : toUnsigned ullRange (n : Int) = n := toUnsigned_of_lt hrange
  have hlen : durationMax.length = 604800000000000 := rfl
  have hset : setMilliseconds .posixthreads = Tick.milliseconds.set .posixthreads := rfl
  have hmin : ¬ n * 1000000 % ullRange < 1 := not_lt.mpr (one_le_nanos (by omega) (by omega))
  rw [hn, hset]
  rcases Tick.milliseconds.set_cases .posixthreads garbage n with ⟨-, hmin', -⟩ |
    ⟨-, hover, hs⟩ | ⟨-, hle, hs⟩
  · exact absurd hmin' hmin
  · right
    rw [hlen] at hover
    change 604800000000000 < n * 1000000 at hover
    exact ⟨by omega, by rw [hs]⟩
  · left
    have hvalid := Tick.milliseconds.length_stored n
    rw [hs]
    refine ⟨?_, ⟨Tick.milliseconds.nanoseconds_stored n, ?_⟩, ?_⟩
    · rw [hlen] at hle
      change ¬ 604800000000000 < n * 1000000 at hle
      omega
    · rw [hvalid]
      exact not_lt.mp hle
    · rw [hvalid]
      rfl

/-- The deadline of a timeout of at most seven days is exact and normalised. -/
theorem endTime_exact {timeout : Int} (h0 : 0 < timeout) (hle : timeout ≤ 604800000)
    (garbage : Duration) (unset : Time) (start : Reading) :
    (endTime timeout garbage unset start).instant = start.instant + nanosOf timeout ∧
      (endTime timeout garbage unset start).nanoseconds < 1000000000 := by
  have hinfinite : infinite < timeout := by
    unfold infinite
    omega
  rcases setMilliseconds_timeout h0 (by omega) garbage with ⟨-, hv, hl⟩ | ⟨hlt, -⟩
  · rw [endTime, if_pos hinfinite, ← hl]
    exact instant_timeIn start hv
  · omega

/-- A longer timeout leaves the deadline to what the duration contains. -/
theorem endTime_of_refused {timeout : Int} (hlt : 604800000 < timeout) (hmax : timeout < 2 ^ 31)
    (garbage : Duration) (unset : Time) (start : Reading) :
    endTime timeout garbage unset start = (timeIn start garbage).2 := by
  have hinfinite : infinite < timeout := by
    unfold infinite
    omega
  rcases setMilliseconds_timeout (by omega) hmax garbage with ⟨hle, -, -⟩ | ⟨-, hs⟩
  · omega
  · rw [endTime, if_pos hinfinite, hs]

/-- A reading is compared with an exact deadline as the points in time are. -/
theorem timeCompare_endTime {timeout : Int} {garbage : Duration} {unset : Time} {start : Reading}
    (h : (endTime timeout garbage unset start).instant = start.instant + nanosOf timeout ∧
      (endTime timeout garbage unset start).nanoseconds < 1000000000) (reading : Reading) :
    timeCompare (timeNow reading) (endTime timeout garbage unset start) =
      if start.instant + nanosOf timeout < reading.instant then 1
      else if reading.instant < start.instant + nanosOf timeout then -1 else 0 := by
  have hnow : (timeNow reading).nanoseconds < 1000000000 := by
    rw [timeNow_eq]
    exact reading.tvNsec_lt
  rw [timeCompare_eq hnow h.2, instant_timeNow, h.1]

/-- No timeout fires early exactly if it is at most seven days. -/
theorem neverEarly_iff {timeout : Int} (h0 : 0 < timeout) (hmax : timeout < 2 ^ 31) :
    NeverEarly timeout ↔ timeout ≤ 604800000 := by
  constructor
  · intro h
    by_contra hlt
    let start : Reading := ⟨0, 0, by decide, by decide⟩
    have hdeadline := (h.deadline durationZero ⟨0, 0⟩ start).1
    have hnow : endTime timeout durationZero ⟨0, 0⟩ start = timeNow start := by
      rw [endTime_of_refused (not_le.mp hlt) hmax, timeNow]
    rw [hnow, instant_timeNow, nanosOf] at hdeadline
    omega
  · intro hle
    have hexact := endTime_exact h0 hle
    have hlate {garbage unset} {start reading : Reading}
        (hpast : 0 < timeCompare (timeNow reading) (endTime timeout garbage unset start)) :
        start.instant + nanosOf timeout < reading.instant := by
      rw [timeCompare_endTime (hexact garbage unset start) reading] at hpast
      split_ifs at hpast with h
      · exact h
      · omega
      · omega
    exact ⟨hexact, fun garbage unset start => timeCompare_endTime (hexact garbage unset start),
      fun _ _ _ _ _ h => hlate (compare_of_timedOut h),
      fun _ _ _ _ _ h => hlate (compare_of_timedOut h),
      fun _ _ _ _ _ h => hlate (compare_of_timedOut h)⟩

/-- A timeout of seven days is honoured. -/
theorem neverEarly_seven_days :
    (0 : Int) < 604800000 ∧ (604800000 : Int) < 2 ^ 31 ∧ NeverEarly 604800000 := by
  have h0 : (0 : Int) < 604800000 := by decide
  have hmax : (604800000 : Int) < 2 ^ 31 := by decide
  exact ⟨h0, hmax, (neverEarly_iff h0 hmax).mpr le_rfl⟩

/-- One millisecond more than seven days is reported to be over after a nanosecond, if the
uninitialized duration contains zero. -/
theorem timeout_fires_early :
    ¬ ∀ timeout : Int, 0 < timeout → timeout < 2 ^ 31 → NeverEarly timeout := by
  intro h
  let start : Reading := ⟨0, 0, by decide, by decide⟩
  let later : Reading := ⟨0, 1, by decide, by decide⟩
  have hend : endTime 604800001 durationZero ⟨0, 0⟩ start = timeNow start := by
    rw [endTime_of_refused (by decide) (by decide), timeNow]
  have hfires : waitForTask 604800001 (timeNow start) [(.running, later)] =
      some (.timedOut later) := by
    simp [waitForTask, waitLoop, timeNow_eq, timeCompare, infinite, start, later]
  have hlate := (h 604800001 (by decide) (by decide)).task durationZero ⟨0, 0⟩ start
    [(.running, later)] later (by rw [hend, hfires])
  exact absurd hlate (by decide)

end Embb.Mtapi
