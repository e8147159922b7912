import Mathlib.Algebra.BigOperators.Group.List.Basic
import Mathlib.Algebra.Order.BigOperators.Group.List
import Mathlib.Data.List.TakeWhile
import Embb.MtapiNetwork.Receive

/-!
# Sending a task to a peer

`network_task_start` puts the frame of a task together in the send buffer of its action, part
by part, and hands the buffer to the socket. With assertions compiled out it looks at none of
the results. The mutex of the action makes one call follow the other.

A call without an outcome is one that copies more bytes than any memory holds or adds integers
beyond the range of an `int`.
-/

namespace Embb.MtapiNetwork

open Embb.Mtapi

/-- The bytes of an `int32_t` in memory. -/
def int32Bytes (value : BitVec 32) : List UInt8 :=
  (List.range 4).map fun i => ⟨value.extractLsb' (8 * i) 8⟩

/-- `embb_mtapi_network_buffer_struct` where nothing is read from the front. -/
structure SendBuffer where
  capacity : Capacity
  data : List UInt8
  length_le : data.length ≤ capacity.1

namespace SendBuffer

/-- `embb_mtapi_network_buffer_initialize`. -/
def init (capacity : Capacity) : SendBuffer := ⟨capacity, [], Nat.zero_le _⟩

/-- `embb_mtapi_network_buffer_clear`. -/
def clear (b : SendBuffer) : SendBuffer := init b.capacity

/-- The copy of some bytes to the end of the buffer, if they fit: the number of bytes. -/
def pushBack (b : SendBuffer) (bytes : List UInt8) : ℤ × SendBuffer :=
  if h : b.data.length + bytes.length > b.capacity.1 then (0, b)
  else
    (bytes.length,
      { b with
        data := b.data ++ bytes
        length_le := by
          rw [List.length_append]
          omega })

/-- `embb_mtapi_network_buffer_push_back_int8`. -/
def pushBackInt8 (b : SendBuffer) (value : UInt8) : ℤ × SendBuffer := b.pushBack [value]

/-- `embb_mtapi_network_buffer_push_back_int32`. -/
def pushBackInt32 (b : SendBuffer) (value : BitVec 32) : ℤ × SendBuffer :=
  b.pushBack (int32Bytes value)

/-- `embb_mtapi_network_buffer_push_back_rawdata`; a negative size passes the comparison and is
a huge one for `memcpy`. -/
def pushBackRawdata (b : SendBuffer) (size : BitVec 32) (rawdata : List UInt8) :
    Option (ℤ × SendBuffer) :=
  if 2 ^ 31 ≤ b.data.length + size.toInt then none
  else if b.data.length + size.toInt > b.capacity.1 then some (0, b)
  else if size.toInt < 0 then none
  else some (b.pushBack (rawdata.take size.toInt.toNat))

end SendBuffer

/-- What the socket accepts of the bytes in the loop of `embb_mtapi_network_socket_sendbuffer`,
from the results of `send`; after the last one the connection is broken. -/
def sendLoop : List UInt8 → List ℤ → List UInt8
  | _, [] => []
  | buf, result :: results =>
    if min result buf.length ≤ 0 then []
    else if min result buf.length = buf.length then buf
    else buf.take result.toNat ++ sendLoop (buf.drop result.toNat) results

/-- `embb_mtapi_network_socket_sendbuffer`: its result, and the bytes that are on the connection
then. -/
def sendbuffer (b : SendBuffer) (results : List ℤ) : ℤ × List UInt8 :=
  let accepted := sendLoop b.data results
  (if accepted.length = b.data.length then b.data.length else 0, accepted)

/-- `embb_mtapi_network_action_struct`, with the bytes that are on its connection so far. -/
structure NetworkAction where
  domain_id : BitVec 32
  job_id : BitVec 32
  send_buffer : SendBuffer
  sent : List UInt8

/-- A task is to be started: the node as the call finds it, the sizes and arguments of the task,
and the results of the calls of `send`. -/
structure Start where
  isInitialized : Bool
  node : Node
  task : Handle
  result_size : BitVec 32
  arguments : List UInt8
  results : List ℤ
  arguments_lt : arguments.length < 2 ^ 32

namespace Start

/-- `arguments_size` as an `int32_t`. -/
def arguments_size (s : Start) : BitVec 32 := BitVec.ofNat 32 s.arguments.length

/-- The action of the task. -/
def action (s : Start) : Handle := (s.node.task s.task).action

/-- The call gets as far as the send buffer. -/
def IsValid (s : Start) : Prop :=
  s.isInitialized = true ∧ s.node.taskPool.isHandleValid s.task = true ∧
    s.node.actionPool.isHandleValid s.action = true

instance (s : Start) : Decidable s.IsValid := inferInstanceAs (Decidable (_ ∧ _ ∧ _))

end Start

namespace NetworkAction

/-- The pushes of `network_task_start` before the arguments. -/
def pushHeader (a : NetworkAction) (s : Start) : SendBuffer :=
  let local_task := s.node.task s.task
  let b := (a.send_buffer.pushBackInt8 0).2
  let b := (b.pushBackInt32 a.domain_id).2
  let b := (b.pushBackInt32 a.job_id).2
  let b := (b.pushBackInt32 (BitVec.ofNat 32 local_task.attributes.priority)).2
  let b := (b.pushBackInt32 (BitVec.ofNat 32 local_task.handle.id)).2
  let b := (b.pushBackInt32 (BitVec.ofNat 32 local_task.handle.tag)).2
  let b := (b.pushBackInt32 s.result_size).2
  (b.pushBackInt32 s.arguments_size).2

/-- `network_task_start`. -/
def network_task_start (a : NetworkAction) (s : Start) :
    Option (NetworkAction × Node × Status) :=
  if s.IsValid then
    match (a.pushHeader s).pushBackRawdata s.arguments_size s.arguments with
    | none => none
    | some (_, b) =>
      some ({ a with send_buffer := b.clear, sent := a.sent ++ (sendbuffer b s.results).2 },
        (s.node.addActionTasks s.action 1).setTaskState s.task .running, .success)
  else some (a, s.node, .errUnknown)

/-- The action as `mtapi_network_action_create` leaves it. -/
def init (domain_id job_id : BitVec 32) (capacity : Capacity) : NetworkAction :=
  ⟨domain_id, job_id, SendBuffer.init capacity, []⟩

/-- One call after the other. -/
def run (a : NetworkAction) : List Start → Option NetworkAction
  | [] => some a
  | s :: calls =>
    match a.network_task_start s with
    | none => none
    | some (a', _) => a'.run calls

/-- The fields of the header of a frame. -/
def header (a : NetworkAction) (s : Start) : List (List UInt8) :=
  let local_task := s.node.task s.task
  [[0], int32Bytes a.domain_id, int32Bytes a.job_id,
    int32Bytes (BitVec.ofNat 32 local_task.attributes.priority),
    int32Bytes (BitVec.ofNat 32 local_task.handle.id),
    int32Bytes (BitVec.ofNat 32 local_task.handle.tag),
    int32Bytes s.result_size, int32Bytes s.arguments_size]

/-- The complete frame of a task. -/
def frame (a : NetworkAction) (s : Start) : List UInt8 := (a.header s).flatten ++ s.arguments

/-- The call sends the complete frame and counts the task, or it reports an error and does
nothing; the send buffer is empty in both cases. -/
def AllOrNothing (a : NetworkAction) (s : Start) : Prop :=
  ∃ a' n status, a.network_task_start s = some (a', n, status) ∧ a'.send_buffer.data = [] ∧
    ((status = .success ∧ a'.sent = a.sent ++ a.frame s ∧
        (n.action s.action).numTasks = (s.node.action s.action).numTasks + 1) ∨
      (status ≠ .success ∧ a'.sent = a.sent ∧
        (n.action s.action).numTasks = (s.node.action s.action).numTasks ∧
        (n.task s.task).state = (s.node.task s.task).state))

end NetworkAction

/-- The frame of the task fits into the buffer and the socket accepts all of it, if the call gets
that far. -/
def Start.Fits (capacity : Capacity) (s : Start) : Prop :=
  s.IsValid → 29 + s.arguments.length ≤ capacity.1 ∧
    (29 + s.arguments.length : ℤ) ≤ (s.results.takeWhile (0 < ·)).sum

@[simp] theorem length_int32Bytes (value : BitVec 32) : (int32Bytes value).length = 4 := rfl

theorem length_header (a : NetworkAction) (s : Start) : (a.header s).flatten.length = 29 := rfl

theorem length_frame (a : NetworkAction) (s : Start) :
    (a.frame s).length = 29 + s.arguments.length := by
  rw [NetworkAction.frame, List.length_append, length_header]

/-- The socket accepts all bytes if the positive results of `send` add up to them. -/
theorem sendLoop_eq_iff (buf : List UInt8) (results : List ℤ) :
    sendLoop buf results = buf ↔ (buf.length : ℤ) ≤ (results.takeWhile (0 < ·)).sum := by
  induction results generalizing buf with
  | nil =>
    simp only [sendLoop, List.takeWhile_nil, List.sum_nil]
    rw [eq_comm, ← List.length_eq_zero_iff]
    omega
  | cons result results ih =>
    have hsum : 0 ≤ (results.takeWhile (0 < ·)).sum := by
      refine List.sum_nonneg fun x hx => ?_
      have hpos := List.mem_takeWhile_imp hx
      rw [decide_eq_true_eq] at hpos
      exact le_of_lt hpos
    by_cases hr : 0 < result
    · rw [List.takeWhile_cons_of_pos (by simpa using hr), List.sum_cons]
      by_cases hlen : buf.length = 0
      · rw [List.length_eq_zero_iff.mp hlen]
        simp only [sendLoop, List.length_nil]
        refine iff_of_true (if_pos (by omega)) (by omega)
      · simp only [sendLoop]
        rw [if_neg (by omega)]
        by_cases hall : min result buf.length = buf.length
        · rw [if_pos hall]
          exact iff_of_true rfl (by omega)
        · have hdrop : ((buf.drop result.toNat).length : ℤ) = buf.length - result := by
            rw [List.length_drop]
            omega
          rw [if_neg hall]
          have hih := ih (buf.drop result.toNat)
          rw [hdrop] at hih
          have hsplit : buf.take result.toNat ++ sendLoop (buf.drop result.toNat) results = buf ↔
              sendLoop (buf.drop result.toNat) results = buf.drop result.toNat := by
            conv_lhs => rhs; rw [← List.take_append_drop result.toNat buf]
            exact List.append_right_inj _
          rw [hsplit, hih]
          omega
    · rw [List.takeWhile_cons_of_neg (by simpa using hr), List.sum_nil]
      simp only [sendLoop]
      rw [if_pos (by omega), eq_comm, ← List.length_eq_zero_iff]
      omega

/-- Only bytes of the buffer get on the connection. -/
theorem sendLoop_isPrefixOf (buf : List UInt8) (results : List ℤ) :
    sendLoop buf results <+: buf := by
  induction results generalizing buf with
  | nil => exact List.nil_prefix
  | cons result results ih =>
    simp only [sendLoop]
    split_ifs
    · exact List.nil_prefix
    · exact List.prefix_rfl
    · have h := (List.prefix_append_right_inj (buf.take result.toNat)).mpr
        (ih (buf.drop result.toNat))
      rwa [List.take_append_drop] at h

namespace SendBuffer

/-- Some bytes go to the end of the buffer if there is room. -/
theorem data_pushBack {b : SendBuffer} {bytes : List UInt8}
    (hroom : b.data.length + bytes.length ≤ b.capacity.1) :
    (b.pushBack bytes).2.data = b.data ++ bytes := by
  rw [pushBack, dif_neg (by omega)]

@[simp] theorem capacity_pushBack (b : SendBuffer) (bytes : List UInt8) :
    (b.pushBack bytes).2.capacity = b.capacity := by
  unfold pushBack
  split <;> rfl

/-- Some fields, one after the other. -/
def pushFields (b : SendBuffer) (fields : List (List UInt8)) : SendBuffer :=
  fields.foldl (fun b bytes => (b.pushBack bytes).2) b

@[simp] theorem capacity_pushFields (b : SendBuffer) (fields : List (List UInt8)) :
    (b.pushFields fields).capacity = b.capacity := by
  induction fields generalizing b with
  | nil => rfl
  | cons bytes fields ih => exact (ih _).trans (b.capacity_pushBack bytes)

theorem data_pushFields {b : SendBuffer} {fields : List (List UInt8)}
    (hroom : b.data.length + fields.flatten.length ≤ b.capacity.1) :
    (b.pushFields fields).data = b.data ++ fields.flatten := by
  induction fields generalizing b with
  | nil => exact (List.append_nil _).symm
  | cons bytes fields ih =>
    rw [List.flatten_cons, List.length_append] at hroom
    have hdata := data_pushBack (show b.data.length + bytes.length ≤ b.capacity.1 by omega)
    have hrest := @ih (b.pushBack bytes).2 (by
      rw [hdata, List.length_append, capacity_pushBack]
      omega)
    rw [List.flatten_cons, ← List.append_assoc, ← hdata]
    exact hrest

/-- Arguments that fit are copied. -/
theorem pushBackRawdata_of_room {b : SendBuffer} {rawdata : List UInt8}
    (hroom : b.data.length + rawdata.length ≤ b.capacity.1) :
    ∃ b' : SendBuffer, b.pushBackRawdata (BitVec.ofNat 32 rawdata.length) rawdata =
        some ((rawdata.length : ℤ), b') ∧ b'.data = b.data ++ rawdata ∧
      b'.capacity = b.capacity := by
  have hcap := b.capacity.2
  have hsize : (BitVec.ofNat 32 rawdata.length).toInt = rawdata.length := by
    rw [BitVec.toInt_ofNat', Int.bmod_eq_of_le (by omega) (by omega)]
  refine ⟨(b.pushBack rawdata).2, ?_, data_pushBack hroom, capacity_pushBack b rawdata⟩
  rw [pushBackRawdata, hsize, if_neg (by omega), if_neg (by omega), if_neg (by omega),
    Int.toNat_natCast, List.take_length, pushBack, dif_neg (by omega)]

end SendBuffer

namespace NetworkAction

variable {a : NetworkAction} {s : Start}

theorem pushHeader_eq (a : NetworkAction) (s : Start) :
    a.pushHeader s = a.send_buffer.pushFields (a.header s) := rfl

theorem capacity_pushHeader (a : NetworkAction) (s : Start) :
    (a.pushHeader s).capacity = a.send_buffer.capacity := by
  rw [pushHeader_eq, SendBuffer.capacity_pushFields]

/-- A frame that fits is in the buffer when this is handed to the socket. -/
theorem push_of_room (he : a.send_buffer.data = [])
    (hroom : 29 + s.arguments.length ≤ a.send_buffer.capacity.1) :
    ∃ err b, (a.pushHeader s).pushBackRawdata s.arguments_size s.arguments = some (err, b) ∧
      b.data = a.frame s := by
  have hfit : a.send_buffer.data.length + (a.header s).flatten.length ≤
      a.send_buffer.capacity.1 := by
    rw [he, length_header, List.length_nil]
    omega
  have hheader : (a.pushHeader s).data = (a.header s).flatten := by
    rw [pushHeader_eq, SendBuffer.data_pushFields hfit, he, List.nil_append]
  have hlength : (a.pushHeader s).data.length = 29 := by
    rw [hheader, length_header]
  have hroom' : (a.pushHeader s).data.length + s.arguments.length ≤
      (a.pushHeader s).capacity.1 := by
    rw [hlength, capacity_pushHeader]
    exact hroom
  obtain ⟨b, hpush, hdata, -⟩ := SendBuffer.pushBackRawdata_of_room hroom'
  refine ⟨_, b, hpush, ?_⟩
  rw [hdata, hheader, frame]

theorem capacity_pushed {err : ℤ} {b : SendBuffer}
    (h : (a.pushHeader s).pushBackRawdata s.arguments_size s.arguments = some (err, b)) :
    b.capacity = a.send_buffer.capacity := by
  simp only [SendBuffer.pushBackRawdata] at h
  split_ifs at h
  · rw [Option.some.injEq, Prod.mk.injEq] at h
    rw [← h.2, capacity_pushHeader]
  · have hb := congrArg Prod.snd (Option.some.inj h)
    rw [← show _ = b from hb, SendBuffer.capacity_pushBack, capacity_pushHeader]

/-- A frame that does not fit is never complete in the buffer. -/
theorem push_of_no_room (hroom : ¬ 29 + s.arguments.length ≤ a.send_buffer.capacity.1)
    {err : ℤ} {b : SendBuffer}
    (h : (a.pushHeader s).pushBackRawdata s.arguments_size s.arguments = some (err, b)) :
    b.data.length < (a.frame s).length := by
  have hcap := capacity_pushed h
  have hle := b.length_le
  rw [hcap] at hle
  rw [length_frame]
  omega

/-- The call is all or nothing exactly if the frame fits and the socket accepts it. -/
theorem allOrNothing_iff (he : a.send_buffer.data = []) :
    a.AllOrNothing s ↔ s.Fits a.send_buffer.capacity := by
  by_cases hv : s.IsValid
  · have hstart : a.network_task_start s =
        match (a.pushHeader s).pushBackRawdata s.arguments_size s.arguments with
        | none => none
        | some (_, b) =>
          some ({ a with send_buffer := b.clear, sent := a.sent ++ (sendbuffer b s.results).2 },
            (s.node.addActionTasks s.action 1).setTaskState s.task .running, .success) :=
      if_pos hv
    have hnum : ((((s.node.addActionTasks s.action 1).setTaskState s.task .running)).action
        s.action).numTasks = (s.node.action s.action).numTasks + 1 := by
      rw [Node.setTaskState, Node.action, Node.modifyTask_actionPool, Node.addActionTasks,
        ← Node.action, Node.action_modifyAction_self]
    constructor
    · rintro ⟨a', n, status, hcall, -, hsent⟩ -
      cases hpush : (a.pushHeader s).pushBackRawdata s.arguments_size s.arguments with
      | none =>
        rw [hstart, hpush] at hcall
        cases hcall
      | some r =>
        obtain ⟨err, b⟩ := r
        rw [hstart, hpush] at hcall
        simp only [Option.some.injEq, Prod.mk.injEq] at hcall
        obtain ⟨rfl, rfl, rfl⟩ := hcall
        rcases hsent with ⟨-, hsent, -⟩ | ⟨hne, -⟩
        · have hall : sendLoop b.data s.results = a.frame s := List.append_cancel_left hsent
          by_cases hroom : 29 + s.arguments.length ≤ a.send_buffer.capacity.1
          · obtain ⟨err', b', hpush', hdata⟩ := push_of_room he hroom
            rw [hpush] at hpush'
            cases hpush'
            rw [hdata, sendLoop_eq_iff, length_frame] at hall
            exact ⟨hroom, by exact_mod_cast hall⟩
          · have hlt := push_of_no_room hroom hpush
            have hle := (sendLoop_isPrefixOf b.data s.results).length_le
            rw [hall] at hle
            omega
        · exact absurd rfl hne
    · intro hfits
      obtain ⟨hroom, hsum⟩ := hfits hv
      obtain ⟨err, b, hpush, hdata⟩ := push_of_room he hroom
      rw [hpush] at hstart
      refine ⟨_, _, _, hstart, rfl, Or.inl ⟨rfl, ?_, hnum⟩⟩
      have hall := (sendLoop_eq_iff (a.frame s) s.results).mpr (by
        rw [length_frame]
        exact_mod_cast hsum)
      show a.sent ++ sendLoop b.data s.results = a.sent ++ a.frame s
      rw [hdata, hall]
  · have hstart : a.network_task_start s = some (a, s.node, .errUnknown) := if_neg hv
    refine iff_of_true ⟨a, s.node, _, hstart, he, Or.inr ⟨by decide, rfl, rfl, rfl⟩⟩ fun h => ?_
    exact absurd h hv

/-- The send buffer is empty between the calls, and its capacity stays. -/
theorem empty_run (he : a.send_buffer.data = []) {calls : List Start} {a' : NetworkAction}
    (h : a.run calls = some a') :
    a'.send_buffer.data = [] ∧ a'.send_buffer.capacity = a.send_buffer.capacity := by
  induction calls generalizing a with
  | nil =>
    cases h
    exact ⟨he, rfl⟩
  | cons s calls ih =>
    simp only [run] at h
    split at h
    · cases h
    · rename_i a'' r hcall
      have hnext : a''.send_buffer.data = [] ∧
          a''.send_buffer.capacity = a.send_buffer.capacity := by
        unfold network_task_start at hcall
        split_ifs at hcall
        · split at hcall
          · cases hcall
          · rename_i err b hpush
            cases hcall
            have hcap := capacity_pushed hpush
            exact ⟨rfl, hcap⟩
        · cases hcall
          exact ⟨he, rfl⟩
      obtain ⟨he', hc'⟩ := ih hnext.1 h
      exact ⟨he', hc'.trans hnext.2⟩

end NetworkAction

open NetworkAction

/-- In every sequence of tasks that are started on a network action, whatever the arguments, the
capacity of the buffer and the results of `send`: a call sends the complete frame and counts the
task, or reports an error and does nothing, and leaves the buffer empty, exactly if it stops at an
invalid handle, or the frame fits into the buffer and the socket accepts all of it. -/
theorem all_or_nothing (domain_id job_id : BitVec 32) (capacity : Capacity) (calls : List Start)
    (a : NetworkAction) (h : (init domain_id job_id capacity).run calls = some a) (s : Start) :
    a.AllOrNothing s ↔ s.Fits capacity := by
  obtain ⟨he, hc⟩ := empty_run rfl h
  rw [allOrNothing_iff he, hc]
  rfl

/-- A task with eight bytes of arguments, for a socket that takes at most 20 bytes at a time. -/
def eightBytes : Start where
  isInitialized := true
  node := localNode.node
  task := ⟨0, 1⟩
  result_size := 4
  arguments := [1, 2, 3, 4, 5, 6, 7, 8]
  results := [20, 17]
  arguments_lt := by decide

/-- A buffer of 37 bytes holds the frame, and the socket takes it in two parts. -/
theorem all_or_nothing_room : (init 1 1 ⟨37, by decide⟩).AllOrNothing eightBytes :=
  (all_or_nothing 1 1 ⟨37, by decide⟩ [] _ rfl eightBytes).mpr fun _ =>
    ⟨by decide, by decide⟩

/-- A buffer of 32 bytes takes the header but not the arguments: the header alone is sent, and
success is reported. -/
theorem header_alone :
    ((init 1 1 ⟨32, by decide⟩).network_task_start eightBytes).map
      (fun r => (r.1.sent.length, r.2.2)) = some (29, .success) ∧
    ¬ (init 1 1 ⟨32, by decide⟩).AllOrNothing eightBytes := by
  have hcall : ((init 1 1 ⟨32, by decide⟩).network_task_start eightBytes).map
      (fun r => (r.1.sent.length, r.2.2)) = some (29, .success) := by
    decide +kernel
  refine ⟨hcall, ?_⟩
  rintro ⟨a', n, status, hstart, -, hsent⟩
  rw [hstart, Option.map_some, Option.some.injEq, Prod.mk.injEq] at hcall
  rcases hsent with ⟨-, hsent, -⟩ | ⟨hne, -⟩
  · have hlen := congrArg List.length hsent
    rw [hcall.1, List.length_append, length_frame] at hlen
    exact absurd hlen (by decide)
  · exact hne hcall.2

end Embb.MtapiNetwork
