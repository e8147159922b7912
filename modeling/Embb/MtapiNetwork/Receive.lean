import Mathlib.Algebra.Ring.Int.Defs
import Mathlib.Algebra.Ring.Nat
import Mathlib.Data.List.Basic
import Embb.Mtapi.Node

/-!
# The receive loop of the network plugin

A peer sends frames over a socket: an operation, a header of a fixed size, and data of
a size that the header gives. The plugin receives each part into a buffer, takes the
fields out of it, and starts a task or completes one with the result received. A step of
the loop handles one frame; the accesses to the buffer, to the result buffers of tasks
and to the state of tasks are recorded in their order.

Assertions are compiled out, so the number of bytes that a call reports is only looked at
where the code itself compares it, and a variable that a call does not set keeps what it
held before.
-/

namespace Embb.MtapiNetwork

open Embb.Mtapi

/-- What the loop does with memory. -/
inductive Access
  /-- `recv` of at most `size` bytes to the buffer from `offset` on. -/
  | receive (offset size : ℕ)
  /-- `memcpy` of `size` bytes of the buffer from `position` on. -/
  | copy (position : ℤ) (size : ℕ)
  /-- Bytes written to the result buffer of a local task. -/
  | result (task : Handle) (size : ℕ)
  /-- A local task is completed with a status. -/
  | complete (task : Handle) (status : BitVec 32)
  /-- A task is started. -/
  | start (domain_id job_id priority remote_task_id remote_task_tag : BitVec 32)
    (arguments_size results_size : ℤ)
  deriving DecidableEq

/-- The capacity of a buffer is an `int`. -/
abbrev Capacity := { capacity : ℕ // capacity < 2 ^ 31 }

/-- `embb_mtapi_network_buffer_struct`. -/
structure Buffer where
  position : ℤ
  size : ℤ
  capacity : Capacity
  data : ℕ → UInt8

/-- The buffer, what is still to arrive at the socket, and the accesses so far. What a call of
`recv` finds at the socket is a chunk; an empty one stands for a broken connection. -/
structure Receiver where
  buffer : Buffer
  stream : List (List UInt8)
  accesses : List Access

/-- The node of the process as the loop finds it; a task has a `result_size`, and an action may
be one of the network plugin. -/
structure Local where
  isInitialized : Bool
  node : Node
  resultSize : Ptr → ℕ
  isNetworkAction : Ptr → Bool

/-- What the variables of the loop hold before they are set. -/
structure Uninitialized where
  operation : BitVec 8
  domain_id : BitVec 32
  job_id : BitVec 32
  remote_task_id : BitVec 32
  remote_task_tag : BitVec 32
  results_size : BitVec 32
  arguments_size : BitVec 32
  task_id : BitVec 32
  task_tag : BitVec 32
  task_status : BitVec 32

/-- The conversion of an `int32_t` to a `size_t`. -/
def toSizeT (size : ℤ) : ℕ := (size % 2 ^ 64).toNat

/-- The value of four bytes in memory. -/
def int32At (data : ℕ → UInt8) (i : ℕ) : BitVec 32 :=
  (data (i + 3)).toBitVec ++ (data (i + 2)).toBitVec ++ (data (i + 1)).toBitVec ++
    (data i).toBitVec

def store (data : ℕ → UInt8) (offset : ℕ) (bytes : List UInt8) : ℕ → UInt8 :=
  fun i => if offset ≤ i then (bytes[i - offset]?).getD (data i) else data i

/-- What is left at a socket of a chunk that did not fit. -/
def putBack (chunk : List UInt8) (stream : List (List UInt8)) : List (List UInt8) :=
  if chunk = [] then stream else chunk :: stream

/-- What the loop of `embb_mtapi_network_socket_recvbuffer_sized` has received. -/
structure Received where
  isComplete : Bool
  data : ℕ → UInt8
  stream : List (List UInt8)
  accesses : List Access

/-- The loop of `embb_mtapi_network_socket_recvbuffer_sized`. -/
def recvLoop (size : ℕ) : List (List UInt8) → (cnt : ℕ) → (ℕ → UInt8) → Received
  | [], cnt, data => ⟨false, data, [], [.receive cnt (size - cnt)]⟩
  | chunk :: stream, cnt, data =>
    let bytes := chunk.take (size - cnt)
    if bytes = [] then ⟨false, data, stream, [.receive cnt (size - cnt)]⟩
    else if cnt + bytes.length = size then
      ⟨true, store data cnt bytes, putBack (chunk.drop (size - cnt)) stream,
        [.receive cnt (size - cnt)]⟩
    else
      let rest := recvLoop size stream (cnt + bytes.length) (store data cnt bytes)
      { rest with accesses := .receive cnt (size - cnt) :: rest.accesses }

namespace Receiver

/-- `embb_mtapi_network_buffer_clear`. -/
def clear (r : Receiver) : Receiver :=
  { r with buffer := { r.buffer with position := 0, size := 0 } }

/-- `embb_mtapi_network_socket_recvbuffer_sized`. -/
def recvbufferSized (size : ℤ) (r : Receiver) : ℤ × Receiver :=
  if (r.buffer.capacity.1 : ℤ) < size then (0, r)
  else if 0 < size then
    let received := recvLoop size.toNat r.stream 0 r.buffer.data
    let r' : Receiver :=
      { buffer := { r.buffer with data := received.data }
        stream := received.stream
        accesses := r.accesses ++ received.accesses }
    if received.isComplete then (size, { r' with buffer := { r'.buffer with size := size } })
    else (0, r')
  else if size = 0 then (0, { r with buffer := { r.buffer with size := 0 } })
  else (0, r)

/-- `embb_mtapi_network_buffer_pop_front_int8`, from what the variable holds. -/
def popFrontInt8 (value : BitVec 8) (r : Receiver) : BitVec 8 × Receiver :=
  if r.buffer.position + 1 > r.buffer.size then (value, r)
  else
    ((r.buffer.data r.buffer.position.toNat).toBitVec,
      { r with
        buffer := { r.buffer with position := r.buffer.position + 1 }
        accesses := r.accesses ++ [.copy r.buffer.position 1] })

/-- `embb_mtapi_network_buffer_pop_front_int32`, from what the variable holds. -/
def popFrontInt32 (value : BitVec 32) (r : Receiver) : BitVec 32 × Receiver :=
  if r.buffer.position + 4 > r.buffer.size then (value, r)
  else
    (int32At r.buffer.data r.buffer.position.toNat,
      { r with
        buffer := { r.buffer with position := r.buffer.position + 4 }
        accesses := r.accesses ++ [.copy r.buffer.position 4] })

/-- `embb_mtapi_network_buffer_pop_front_rawdata`, to the result buffer of a task or elsewhere. -/
def popFrontRawdata (size : ℤ) (task : Option Handle) (r : Receiver) : Receiver :=
  if r.buffer.position + size > r.buffer.size then r
  else
    { r with
      buffer := { r.buffer with position := r.buffer.position + size }
      accesses := r.accesses ++ (.copy r.buffer.position (toSizeT size) ::
        (task.map fun task => .result task (toSizeT size)).toList) }

/-- An access without the buffer. -/
def record (a : Access) (r : Receiver) : Receiver := { r with accesses := r.accesses ++ [a] }

end Receiver

open Receiver

/-- The branch of `embb_mtapi_network_thread` for `EMBB_MTAPI_NETWORK_START_TASK`. -/
def startTask (u : Uninitialized) (r : Receiver) : Receiver :=
  let r := (recvbufferSized 28 r).2
  let (domain_id, r) := popFrontInt32 u.domain_id r
  let (job_id, r) := popFrontInt32 u.job_id r
  let (priority, r) := popFrontInt32 0 r
  let (remote_task_id, r) := popFrontInt32 u.remote_task_id r
  let (remote_task_tag, r) := popFrontInt32 u.remote_task_tag r
  let (results_size, r) := popFrontInt32 u.results_size r
  let (arguments_size, r) := popFrontInt32 u.arguments_size r
  let r := (recvbufferSized arguments_size.toInt r.clear).2
  let r := (popFrontRawdata arguments_size.toInt none r).clear
  (r.record (.start domain_id job_id priority remote_task_id remote_task_tag
    arguments_size.toInt results_size.toInt)).clear

/-- The branch of `embb_mtapi_network_thread` for `EMBB_MTAPI_NETWORK_RETURN_RESULT`. -/
def returnResult (here : Local) (u : Uninitialized) (r : Receiver) : Receiver :=
  let r := r.clear
  if here.isInitialized then
    let r := (recvbufferSized 16 r).2
    let (task_id, r) := popFrontInt32 u.task_id r
    let (task_tag, r) := popFrontInt32 u.task_tag r
    let (task_status, r) := popFrontInt32 u.task_status r
    let (results_size, r) := popFrontInt32 u.results_size r
    let r := (recvbufferSized results_size.toInt r.clear).2
    let task : Handle := ⟨task_tag.toNat, task_id.toNat⟩
    if here.node.taskPool.isHandleValid task then
      if here.node.actionPool.isHandleValid (here.node.task task).action then
        (popFrontRawdata results_size.toInt (some task) r).record (.complete task task_status)
      else r
    else r
  else r

/-- The part of the loop of `embb_mtapi_network_thread` that handles a frame. -/
def handleFrame (here : Local) (u : Uninitialized) (r : Receiver) : Receiver :=
  let (err, r) := recvbufferSized 1 r.clear
  if err = 0 then r
  else
    let (operation, r) := popFrontInt8 u.operation r
    let r := r.clear
    if operation = 0 then startTask u r
    else if operation = 1 then returnResult here u r
    else r

/-- A socket becomes ready: the socket, what has arrived since it was read last and what the
loop finds then. -/
structure Event where
  socket : ℕ
  arrived : List (List UInt8)
  here : Local
  uninitialized : Uninitialized

/-- The buffer of the loop and what is left at each socket. -/
structure Loop where
  buffer : Buffer
  streams : ℕ → List (List UInt8)

/-- What the loop starts to handle a frame with. -/
def Loop.receiver (l : Loop) (e : Event) : Receiver :=
  ⟨l.buffer, l.streams e.socket ++ e.arrived, []⟩

/-- What the loop does with memory when it handles a frame. -/
def Loop.accesses (l : Loop) (e : Event) : List Access :=
  (handleFrame e.here e.uninitialized (l.receiver e)).accesses

/-- The loop handles a frame. -/
def Loop.step (l : Loop) (e : Event) : Loop :=
  let r := handleFrame e.here e.uninitialized (l.receiver e)
  ⟨r.buffer, Function.update l.streams e.socket r.stream⟩

/-- The loop handles one frame after the other. -/
def Loop.run (l : Loop) (es : List Event) : Loop := es.foldl Loop.step l

/-- The loop begins with an empty buffer and nothing at the sockets. -/
def Loop.init (capacity : Capacity) (data : ℕ → UInt8) : Loop :=
  ⟨⟨0, 0, capacity, data⟩, fun _ => []⟩

/-- A task is running on a network action. -/
def Local.IsRemote (here : Local) (task : Handle) : Prop :=
  (here.node.task task).state = .running ∧
    (here.node.action (here.node.task task).action).isPluginAction = true ∧
    here.isNetworkAction (here.node.task task).action = true

/-- An access stays within the buffer, does not write more to a result buffer than this holds,
and completes only a task that is running on a network action. -/
def Access.Harmless (capacity : Capacity) (here : Local) : Access → Prop
  | .receive offset size => offset + size ≤ capacity.1
  | .copy position size => 0 ≤ position ∧ position + size ≤ capacity.1
  | .result task size => size ≤ here.resultSize task
  | .complete task _ => here.IsRemote task
  | .start _ _ _ _ _ _ _ => True

/-- The bytes that arrive at a socket before the connection breaks. -/
def arrives : List (List UInt8) → List UInt8
  | [] => []
  | chunk :: stream => if chunk = [] then [] else chunk ++ arrives stream

/-- What is left at a socket after `n` bytes, or after the broken connection. -/
def remaining : (n : ℕ) → List (List UInt8) → List (List UInt8)
  | _, [] => []
  | n, chunk :: stream =>
    if chunk = [] then stream
    else if n ≤ chunk.length then putBack (chunk.drop n) stream
    else remaining (n - chunk.length) stream

/-- A part of a frame, when the buffer holds its size and it arrives. -/
def part (capacity : Capacity) (size : ℤ) (stream : List (List UInt8)) : Option (List UInt8) :=
  if 0 < size ∧ size ≤ capacity.1 ∧ size.toNat ≤ (arrives stream).length then
    some ((arrives stream).take size.toNat)
  else none

/-- What is left at a socket after a part of a frame. -/
def after (capacity : Capacity) (size : ℤ) (stream : List (List UInt8)) : List (List UInt8) :=
  if 0 < size ∧ size ≤ capacity.1 then remaining size.toNat stream else stream

/-- A field of a part; a variable keeps its value when the part is not there. -/
def field (value : BitVec 32) (bytes : Option (List UInt8)) (i : ℕ) : BitVec 32 :=
  bytes.elim value fun bytes => int32At (fun i => bytes.getD i 0) i

/-- The result that a frame returns has a task of the plugin to go to, and fits there when it
arrives. -/
def WellFormedResult (capacity : Capacity) (here : Local) (u : Uninitialized)
    (stream : List (List UInt8)) : Prop :=
  let header := part capacity 16 stream
  let task : Handle := ⟨(field u.task_tag header 4).toNat, (field u.task_id header 0).toNat⟩
  let results_size := (field u.results_size header 12).toInt
  here.isInitialized = true → here.node.taskPool.isHandleValid task = true →
    here.node.actionPool.isHandleValid (here.node.task task).action = true →
      here.IsRemote task ∧ 0 ≤ results_size ∧
        (part capacity results_size (after capacity 16 stream) ≠ none →
          results_size ≤ here.resultSize task)

/-- A frame that the loop handles without harm. -/
def WellFormed (capacity : Capacity) (here : Local) (u : Uninitialized)
    (stream : List (List UInt8)) : Prop :=
  let rest := after capacity 1 stream
  ∀ operation, part capacity 1 stream = some [operation] →
    (operation = 0 → 0 ≤ (field u.arguments_size (part capacity 28 rest) 24).toInt) ∧
    (operation = 1 → WellFormedResult capacity here u rest)

/-- Nothing that was done to memory does harm. -/
def Receiver.Harmless (r : Receiver) (here : Local) : Prop :=
  ∀ a ∈ r.accesses, a.Harmless r.buffer.capacity here

theorem store_of_lt (data : ℕ → UInt8) {offset i : ℕ} (bytes : List UInt8) (h : i < offset) :
    store data offset bytes i = data i := by
  simp only [store, Nat.not_le.mpr h, if_false]

theorem store_of_le (data : ℕ → UInt8) {offset i : ℕ} (bytes : List UInt8) (h : offset ≤ i)
    (hi : i < offset + bytes.length) : store data offset bytes i = bytes.getD (i - offset) 0 := by
  have hlt : i - offset < bytes.length := by omega
  simp only [store, h, if_true, List.getD_eq_getElem?_getD, List.getElem?_eq_getElem hlt,
    Option.getD_some]

/-- The loop receives what arrives, and reads on until the connection breaks. -/
theorem recvLoop_spec (size : ℕ) (stream : List (List UInt8)) (cnt : ℕ) (data : ℕ → UInt8)
    (h : cnt < size) :
    ((recvLoop size stream cnt data).isComplete = true ↔
      size - cnt ≤ (arrives stream).length) ∧
    (recvLoop size stream cnt data).stream = remaining (size - cnt) stream ∧
    (∀ i < cnt, (recvLoop size stream cnt data).data i = data i) ∧
    (∀ i, cnt ≤ i → i < size → i < cnt + (arrives stream).length →
      (recvLoop size stream cnt data).data i = (arrives stream).getD (i - cnt) 0) ∧
    ∀ a ∈ (recvLoop size stream cnt data).accesses,
      ∃ offset n, a = .receive offset n ∧ offset + n ≤ size := by
  induction stream generalizing cnt data with
  | nil =>
    simp only [recvLoop, arrives, remaining, List.length_nil, List.mem_singleton]
    refine ⟨?_, trivial, fun _ _ => trivial, fun i h₁ _ h₂ => ?_, fun a ha => ⟨_, _, ha, ?_⟩⟩
    · simp only [Bool.false_eq_true, false_iff]
      omega
    · omega
    · omega
  | cons chunk stream ih =>
    have hreceive : ∀ a ∈ [Access.receive cnt (size - cnt)],
        ∃ offset n, a = .receive offset n ∧ offset + n ≤ size := by
      intro a ha
      rw [List.mem_singleton] at ha
      exact ⟨_, _, ha, by omega⟩
    by_cases hc : chunk = []
    · simp only [recvLoop, arrives, remaining, hc, List.take_nil, if_true, List.length_nil]
      refine ⟨?_, trivial, fun _ _ => trivial, fun i h₁ _ h₂ => ?_, hreceive⟩
      · simp only [Bool.false_eq_true, false_iff]
        omega
      · omega
    · have hpos : 0 < chunk.length := List.length_pos_iff.mpr hc
      have htake : chunk.take (size - cnt) ≠ [] := by
        rw [Ne, List.take_eq_nil_iff]
        rintro (h | h)
        · omega
        · exact hc h
      by_cases hfull : size - cnt ≤ chunk.length
      · have hlen : cnt + (chunk.take (size - cnt)).length = size := by
          rw [List.length_take]
          omega
        simp only [recvLoop, htake, hlen, arrives, remaining, hc, hfull, if_true, if_false,
          List.length_append]
        refine ⟨?_, trivial, fun i hi => store_of_lt data _ hi, fun i h₁ h₂ h₃ => ?_, hreceive⟩
        · simp only [true_iff]
          omega
        · rw [store_of_le data _ h₁ (by omega)]
          simp only [List.getD_eq_getElem?_getD]
          rw [List.getElem?_take_of_lt (by omega), List.getElem?_append_left (by omega)]
      · have hbytes : chunk.take (size - cnt) = chunk := List.take_of_length_le (by omega)
        have hlen : cnt + chunk.length ≠ size := by omega
        obtain ⟨hcomplete, hstream, hbefore, hdata, haccesses⟩ :=
          ih (cnt + chunk.length) (store data cnt chunk) (by omega)
        simp only [recvLoop, hbytes, hlen, arrives, remaining, hc, hfull, if_false,
          List.length_append]
        rw [hcomplete, hstream, show size - (cnt + chunk.length) = size - cnt - chunk.length by
          omega]
        refine ⟨by omega, rfl, fun i hi => ?_, fun i h₁ h₂ h₃ => ?_, fun a ha => ?_⟩
        · rw [hbefore i (by omega), store_of_lt data _ hi]
        · by_cases hi : i < cnt + chunk.length
          · rw [hbefore i hi, store_of_le data _ h₁ hi]
            simp only [List.getD_eq_getElem?_getD]
            rw [List.getElem?_append_left (by omega)]
          · rw [hdata i (by omega) h₂ (by omega)]
            simp only [List.getD_eq_getElem?_getD]
            rw [List.getElem?_append_right (by omega), Nat.sub_sub]
        · rcases List.mem_cons.mp ha with rfl | ha
          · exact hreceive _ (List.mem_singleton.mpr rfl)
          · exact haccesses a ha

namespace Receiver

/-- Nothing but harmless accesses separates two states, and the socket is the same. -/
structure Same (r r' : Receiver) : Prop where
  capacity : r'.buffer.capacity = r.buffer.capacity
  stream : r'.stream = r.stream
  harmless : ∀ here, r'.Harmless here ↔ r.Harmless here

theorem Same.refl (r : Receiver) : Same r r := ⟨rfl, rfl, fun _ => Iff.rfl⟩

theorem Same.trans {r r' r'' : Receiver} (h : Same r r') (h' : Same r' r'') : Same r r'' :=
  ⟨h'.capacity.trans h.capacity, h'.stream.trans h.stream,
    fun here => (h'.harmless here).trans (h.harmless here)⟩

/-- The buffer holds a part of a frame and is read up to a position; without the part it is
empty. -/
structure Holds (r : Receiver) (position : ℕ) (bytes : Option (List UInt8)) : Prop where
  position : r.buffer.position = if bytes.isSome then (position : ℤ) else 0
  size : r.buffer.size = (bytes.getD []).length
  fits : (bytes.getD []).length ≤ r.buffer.capacity.1
  data : ∀ i < (bytes.getD []).length, r.buffer.data i = (bytes.getD []).getD i 0

theorem harmless_append {r' : Receiver} {here : Local} (r : Receiver) (accesses : List Access)
    (hc : r'.buffer.capacity = r.buffer.capacity) (ha : r'.accesses = r.accesses ++ accesses) :
    r'.Harmless here ↔
      r.Harmless here ∧ ∀ a ∈ accesses, a.Harmless r.buffer.capacity here := by
  simp only [Harmless, ha, hc, List.mem_append, or_imp, forall_and]

theorem same_clear (r : Receiver) : Same r r.clear := ⟨rfl, rfl, fun _ => Iff.rfl⟩

theorem holds_clear (r : Receiver) : r.clear.Holds 0 none :=
  ⟨rfl, rfl, Nat.zero_le _, fun _ h => absurd h (Nat.not_lt_zero _)⟩

theorem length_part {capacity : Capacity} {size : ℤ} {stream : List (List UInt8)}
    {bytes : List UInt8} (h : part capacity size stream = some bytes) :
    0 < size ∧ size ≤ capacity.1 ∧ (bytes.length : ℤ) = size := by
  simp only [part] at h
  split at h
  · rename_i hs
    obtain rfl := Option.some.inj h
    refine ⟨hs.1, hs.2.1, ?_⟩
    rw [List.length_take]
    omega
  · simp only [reduceCtorEq] at h

/-- What a call receives into a buffer that was cleared. -/
theorem recvbufferSized_spec (size : ℤ) (r : Receiver) :
    ∃ r' : Receiver, recvbufferSized size r.clear =
        ((((part r.buffer.capacity size r.stream).getD []).length : ℤ), r') ∧
      r'.Holds 0 (part r.buffer.capacity size r.stream) ∧
      r'.buffer.capacity = r.buffer.capacity ∧
      r'.stream = after r.buffer.capacity size r.stream ∧
      ∀ here, r'.Harmless here ↔ r.Harmless here := by
  by_cases hsize : 0 < size ∧ size ≤ r.buffer.capacity.1
  · obtain ⟨hcomplete, hstream, -, hdata, haccesses⟩ :=
      recvLoop_spec size.toNat r.stream 0 r.buffer.data (by omega)
    simp only [Nat.sub_zero, Nat.zero_add] at hcomplete hstream hdata
    have hle : ¬(r.buffer.capacity.1 : ℤ) < size := by omega
    have hharmless : ∀ r' : Receiver, r'.buffer.capacity = r.buffer.capacity →
        r'.accesses = r.accesses ++ (recvLoop size.toNat r.stream 0 r.buffer.data).accesses →
        ∀ here, r'.Harmless here ↔ r.Harmless here := by
      intro r' hc ha here
      rw [harmless_append r _ hc ha, and_iff_left]
      intro a ha
      obtain ⟨offset, n, rfl, hn⟩ := haccesses a ha
      show offset + n ≤ r.buffer.capacity.1
      omega
    by_cases harrives : size.toNat ≤ (arrives r.stream).length
    · have hpart : part r.buffer.capacity size r.stream =
          some ((arrives r.stream).take size.toNat) := by
        simp only [part, hsize, harrives, and_self, if_true]
      have hlength : ((arrives r.stream).take size.toNat).length = size.toNat := by
        rw [List.length_take]
        omega
      have hnat : (size.toNat : ℤ) = size := by omega
      simp only [recvbufferSized, clear, hle, hsize.1, hcomplete.mpr harrives, hpart, if_true,
        if_false, Option.getD_some, hlength, hnat]
      refine ⟨_, rfl, ⟨rfl, ?_, ?_, ?_⟩, rfl, ?_, hharmless _ rfl rfl⟩
      · simp only [Option.getD_some, hlength, hnat]
      · simp only [Option.getD_some, hlength]
        omega
      · simp only [Option.getD_some, hlength]
        intro i hi
        rw [hdata i (Nat.zero_le _) hi (by omega)]
        simp only [List.getD_eq_getElem?_getD, List.getElem?_take_of_lt hi]
      · simp only [after, hsize, and_self, if_true, hstream]
    · have hpart : part r.buffer.capacity size r.stream = none := by
        simp only [part, harrives, and_false, if_false]
      have hnot : (recvLoop size.toNat r.stream 0 r.buffer.data).isComplete = false :=
        Bool.eq_false_iff.mpr fun h => harrives (hcomplete.mp h)
      simp only [recvbufferSized, clear, hle, hsize.1, hnot, hpart, if_true, if_false,
        Bool.false_eq_true, Option.getD_none, List.length_nil]
      refine ⟨_, rfl, ⟨rfl, rfl, Nat.zero_le _, fun _ h => absurd h (Nat.not_lt_zero _)⟩, rfl, ?_,
        hharmless _ rfl rfl⟩
      simp only [after, hsize, and_self, if_true, hstream]
  · have hpart : part r.buffer.capacity size r.stream = none := by
      simp only [part, ← and_assoc, hsize, false_and, if_false]
    have hstream : after r.buffer.capacity size r.stream = r.stream := by
      simp only [after, hsize, if_false]
    have hcleared : recvbufferSized size r.clear = (0, r.clear) := by
      by_cases hle : (r.buffer.capacity.1 : ℤ) < size
      · simp only [recvbufferSized, clear, hle, if_true]
      · have hpos : ¬0 < size := by omega
        simp only [recvbufferSized, clear, hle, hpos, if_false, ite_self]
    rw [hpart, hstream]
    exact ⟨r.clear, hcleared, holds_clear r, rfl, rfl, fun _ => Iff.rfl⟩

/-- Taking a field out of a part that holds it. -/
theorem popFrontInt32_spec {r : Receiver} {position : ℕ} {bytes : Option (List UInt8)}
    (h : r.Holds position bytes) (value : BitVec 32)
    (hp : ∀ b, bytes = some b → position + 4 ≤ b.length) :
    ∃ r' : Receiver, popFrontInt32 value r = (field value bytes position, r') ∧
      r'.Holds (position + 4) bytes ∧ Same r r' := by
  obtain ⟨hposition, hsize, hfits, hdata⟩ := h
  cases bytes with
  | none =>
    simp only [Option.isSome_none, Bool.false_eq_true, if_false] at hposition
    simp only [Option.getD_none, List.length_nil] at hsize
    have hgt : r.buffer.position + 4 > r.buffer.size := by omega
    simp only [popFrontInt32, hgt, if_true]
    exact ⟨r, rfl, ⟨hposition, hsize, hfits, hdata⟩, Same.refl r⟩
  | some b =>
    simp only [Option.isSome_some, if_true] at hposition
    simp only [Option.getD_some] at hsize hfits hdata
    have hle := hp b rfl
    have hgt : ¬r.buffer.position + 4 > r.buffer.size := by omega
    have hvalue : int32At r.buffer.data r.buffer.position.toNat =
        field value (some b) position := by
      simp only [hposition, Int.toNat_natCast, field, Option.elim_some, int32At]
      rw [hdata _ (by omega), hdata _ (by omega), hdata _ (by omega), hdata _ (by omega)]
    simp only [popFrontInt32, hgt, if_false, hvalue]
    refine ⟨_, rfl, ⟨?_, hsize, hfits, hdata⟩, rfl, rfl, fun here => ?_⟩
    · simp only [hposition, Option.isSome_some, if_true, Nat.cast_add, Nat.cast_ofNat]
    · rw [harmless_append r [.copy r.buffer.position 4], and_iff_left]
      · intro a ha
        obtain rfl := List.mem_singleton.mp ha
        refine ⟨by omega, ?_⟩
        show r.buffer.position + ((4 : ℕ) : ℤ) ≤ r.buffer.capacity.1
        omega
      · rfl
      · rfl

/-- Taking the operation out of a part of one byte. -/
theorem popFrontInt8_spec {r : Receiver} {operation : UInt8} (h : r.Holds 0 (some [operation]))
    (value : BitVec 8) :
    ∃ r' : Receiver, popFrontInt8 value r = (operation.toBitVec, r') ∧ Same r r' := by
  obtain ⟨hposition, hsize, hfits, hdata⟩ := h
  simp only [Option.isSome_some, if_true, Nat.cast_zero] at hposition
  simp only [Option.getD_some, List.length_singleton, Nat.cast_one] at hsize hfits hdata
  have hgt : ¬r.buffer.position + 1 > r.buffer.size := by omega
  have hvalue : r.buffer.data r.buffer.position.toNat = operation := by
    rw [hposition]
    exact hdata 0 Nat.one_pos
  simp only [popFrontInt8, hgt, if_false, hvalue]
  refine ⟨_, rfl, rfl, rfl, fun here => ?_⟩
  rw [harmless_append r [.copy r.buffer.position 1], and_iff_left]
  · intro a ha
    obtain rfl := List.mem_singleton.mp ha
    refine ⟨by omega, ?_⟩
    show r.buffer.position + ((1 : ℕ) : ℤ) ≤ r.buffer.capacity.1
    omega
  · rfl
  · rfl

end Receiver

theorem toSizeT_of_nonneg {size : ℤ} (h : 0 ≤ size) (hlt : size < 2 ^ 31) :
    (toSizeT size : ℤ) = size := by
  unfold toSizeT
  omega

/-- A negative size is huge as a `size_t`. -/
theorem lt_toSizeT_of_neg {size : ℤ} (h : size < 0) (hle : -2 ^ 31 ≤ size) :
    2 ^ 31 < toSizeT size := by
  unfold toSizeT
  omega

namespace Receiver

/-- The data of a frame is copied as its header says. A negative size passes the comparison
with what the buffer holds. -/
theorem popFrontRawdata_spec {r : Receiver} {size : ℤ} {bytes : Option (List UInt8)}
    (h : r.Holds 0 bytes) (hle : -2 ^ 31 ≤ size)
    (hb : ∀ b, bytes = some b → 0 < size ∧ (b.length : ℤ) = size) (task : Option Handle) :
    (popFrontRawdata size task r).buffer.capacity = r.buffer.capacity ∧
    ∀ here, (popFrontRawdata size task r).Harmless here ↔
      r.Harmless here ∧ 0 ≤ size ∧
        ∀ t, task = some t → bytes ≠ none → size ≤ here.resultSize t := by
  obtain ⟨hposition, hsize, hfits, -⟩ := h
  have hposition : r.buffer.position = 0 := by
    simpa only [Nat.cast_zero, ite_self] using hposition
  have hcapacity := r.buffer.capacity.2
  by_cases hpop : r.buffer.position + size > r.buffer.size
  · simp only [popFrontRawdata, hpop, if_true]
    refine ⟨trivial, fun here => (and_iff_left ?_).symm⟩
    refine ⟨by omega, fun t _ hne => ?_⟩
    obtain ⟨b, rfl⟩ := Option.ne_none_iff_exists'.mp hne
    have := (hb b rfl).2
    simp only [Option.getD_some] at hsize
    omega
  · simp only [popFrontRawdata, hpop, if_false]
    refine ⟨trivial, fun here => ?_⟩
    rw [harmless_append r (.copy r.buffer.position (toSizeT size) ::
      (task.map fun task => .result task (toSizeT size)).toList)]
    · refine and_congr_right fun _ => ?_
      have hcopy : (Access.copy r.buffer.position (toSizeT size)).Harmless r.buffer.capacity here ↔
          0 ≤ size := by
        simp only [Access.Harmless, hposition, le_refl, true_and, zero_add]
        constructor
        · intro hfit
          by_contra hneg
          have := lt_toSizeT_of_neg (by omega) hle
          omega
        · intro hnonneg
          rw [toSizeT_of_nonneg hnonneg (by omega)]
          omega
      have hresult : 0 ≤ size → ∀ t, (Access.result t (toSizeT size)).Harmless r.buffer.capacity
          here ↔ (bytes ≠ none → size ≤ here.resultSize t) := by
        intro hnonneg t
        have hsizeT := toSizeT_of_nonneg hnonneg (by omega)
        show toSizeT size ≤ here.resultSize t ↔ _
        cases bytes with
        | none =>
          simp only [Option.getD_none, List.length_nil] at hsize
          simp only [ne_eq, not_true_eq_false, false_implies, iff_true]
          omega
        | some b =>
          simp only [ne_eq, reduceCtorEq, not_false_eq_true, true_implies]
          omega
      rw [List.forall_mem_cons, hcopy]
      refine and_congr_right fun hnonneg => ?_
      cases task with
      | none => simp only [Option.map_none, Option.toList_none, List.not_mem_nil, false_implies,
          implies_true, reduceCtorEq]
      | some t =>
        simp only [Option.map_some, Option.toList_some, List.mem_singleton, forall_eq,
          Option.some.injEq, forall_eq']
        exact hresult hnonneg t
    · rfl
    · rfl

theorem harmless_record (r : Receiver) (a : Access) (here : Local) :
    (r.record a).Harmless here ↔ r.Harmless here ∧ a.Harmless r.buffer.capacity here := by
  rw [harmless_append r [a]]
  · simp only [List.mem_singleton, forall_eq]
  · rfl
  · rfl

/-- A part of a frame is as long as its size. -/
theorem forall_part {capacity : Capacity} {size : ℤ} {stream : List (List UInt8)} {n : ℕ}
    (hn : (n : ℤ) ≤ size) :
    ∀ b, part capacity size stream = some b → n ≤ b.length := by
  intro b hb
  have := (length_part hb).2.2
  omega

/-- What is received by its size and copied by it. -/
theorem recv_popFrontRawdata_spec (size : BitVec 32) (r : Receiver) (task : Option Handle) :
    ∃ err r', recvbufferSized size.toInt r.clear = (err, r') ∧
      r'.buffer.capacity = r.buffer.capacity ∧
      (∀ here, r'.Harmless here ↔ r.Harmless here) ∧
      (popFrontRawdata size.toInt task r').buffer.capacity = r.buffer.capacity ∧
      ∀ here, (popFrontRawdata size.toInt task r').Harmless here ↔
        r.Harmless here ∧ 0 ≤ size.toInt ∧
          ∀ t, task = some t → part r.buffer.capacity size.toInt r.stream ≠ none →
            size.toInt ≤ here.resultSize t := by
  obtain ⟨r', hrecv, hholds, hcapacity, -, hharmless⟩ := recvbufferSized_spec size.toInt r
  obtain ⟨hcapacity', hharmless'⟩ := popFrontRawdata_spec hholds size.le_toInt
    (fun b hb => ⟨(length_part hb).1, (length_part hb).2.2⟩) task
  refine ⟨_, r', hrecv, hcapacity, hharmless, hcapacity'.trans hcapacity, fun here => ?_⟩
  rw [hharmless' here, hharmless here]

end Receiver

/-- A task that is started reads the arguments that its frame announces. -/
theorem startTask_spec (u : Uninitialized) (r : Receiver) :
    (startTask u r.clear).buffer.capacity = r.buffer.capacity ∧
    ∀ here, (startTask u r.clear).Harmless here ↔
      r.Harmless here ∧
        0 ≤ (field u.arguments_size (part r.buffer.capacity 28 r.stream) 24).toInt := by
  obtain ⟨r₀, h₀, hholds₀, hcapacity, -, hharmless⟩ := recvbufferSized_spec 28 r
  obtain ⟨r₁, h₁, hholds₁, hs₁⟩ :=
    popFrontInt32_spec hholds₀ u.domain_id (forall_part (by decide))
  obtain ⟨r₂, h₂, hholds₂, hs₂⟩ := popFrontInt32_spec hholds₁ u.job_id (forall_part (by decide))
  obtain ⟨r₃, h₃, hholds₃, hs₃⟩ := popFrontInt32_spec hholds₂ 0 (forall_part (by decide))
  obtain ⟨r₄, h₄, hholds₄, hs₄⟩ :=
    popFrontInt32_spec hholds₃ u.remote_task_id (forall_part (by decide))
  obtain ⟨r₅, h₅, hholds₅, hs₅⟩ :=
    popFrontInt32_spec hholds₄ u.remote_task_tag (forall_part (by decide))
  obtain ⟨r₆, h₆, hholds₆, hs₆⟩ :=
    popFrontInt32_spec hholds₅ u.results_size (forall_part (by decide))
  obtain ⟨r₇, h₇, -, hs₇⟩ :=
    popFrontInt32_spec hholds₆ u.arguments_size (forall_part (by decide))
  have hs := ((((((hs₁.trans hs₂).trans hs₃).trans hs₄).trans hs₅).trans hs₆).trans hs₇)
  obtain ⟨err, r₈, h₈, -, -, hcapacity₈, hharmless₈⟩ := recv_popFrontRawdata_spec
    (field u.arguments_size (part r.buffer.capacity 28 r.stream) 24) r₇ none
  simp only [startTask, h₀, h₁, h₂, h₃, h₄, h₅, h₆, h₇, h₈]
  refine ⟨hcapacity₈.trans (hs.capacity.trans hcapacity), fun here => ?_⟩
  rw [(same_clear _).harmless, harmless_record, (same_clear _).harmless, hharmless₈,
    hs.harmless, hharmless]
  simp only [Access.Harmless, reduceCtorEq, false_implies, implies_true, and_true]

/-- A result that is returned goes to the task that its frame names. -/
theorem returnResult_spec (u : Uninitialized) (r : Receiver) (here : Local) :
    (returnResult here u r).buffer.capacity = r.buffer.capacity ∧
    ((returnResult here u r).Harmless here ↔
      r.Harmless here ∧ WellFormedResult r.buffer.capacity here u r.stream) := by
  cases hinit : here.isInitialized with
  | false =>
    simp only [returnResult, WellFormedResult, hinit, Bool.false_eq_true, if_false, false_implies,
      and_true]
    exact ⟨rfl, (same_clear r).harmless here⟩
  | true =>
    obtain ⟨r₀, h₀, hholds₀, hcapacity, hstream, hharmless⟩ := recvbufferSized_spec 16 r
    have hfits : ∀ n : ℕ, n ≤ 16 →
        ∀ b, part r.buffer.capacity 16 r.stream = some b → n ≤ b.length :=
      fun n hn => forall_part (by omega)
    generalize hheader : part r.buffer.capacity 16 r.stream = header at h₀ hholds₀ hfits
    obtain ⟨r₁, h₁, hholds₁, hs₁⟩ :=
      popFrontInt32_spec hholds₀ u.task_id (hfits 4 (by decide))
    obtain ⟨r₂, h₂, hholds₂, hs₂⟩ :=
      popFrontInt32_spec hholds₁ u.task_tag (hfits 8 (by decide))
    obtain ⟨r₃, h₃, hholds₃, hs₃⟩ :=
      popFrontInt32_spec hholds₂ u.task_status (hfits 12 (by decide))
    obtain ⟨r₄, h₄, -, hs₄⟩ := popFrontInt32_spec hholds₃ u.results_size (hfits 16 (by decide))
    have hs := ((hs₁.trans hs₂).trans hs₃).trans hs₄
    simp only [Nat.zero_add, Nat.reduceAdd] at h₂ h₃ h₄
    simp only [returnResult, WellFormedResult, hinit, if_true, true_implies, hheader, h₀, h₁, h₂,
      h₃, h₄]
    generalize (⟨(field u.task_tag header 4).toNat, (field u.task_id header 0).toNat⟩ : Handle) =
      task
    generalize field u.results_size header 12 = results_size
    obtain ⟨err, r₅, h₅, hcapacity₅, hharmless₅, hcapacity₆, hharmless₆⟩ :=
      recv_popFrontRawdata_spec results_size r₄ (some task)
    have hcapacity₄ := hs.capacity.trans hcapacity
    have hstream₄ := hs.stream.trans hstream
    have hharmless₄ : r₄.Harmless here ↔ r.Harmless here :=
      (hs.harmless here).trans (hharmless here)
    rw [h₅]
    split
    · rename_i htask
      split
      · rename_i haction
        simp only [htask, haction, true_implies]
        refine ⟨hcapacity₆.trans hcapacity₄, ?_⟩
        rw [harmless_record, hharmless₆, hharmless₄, hcapacity₄, hstream₄]
        simp only [Access.Harmless, Option.some.injEq, forall_eq', and_assoc]
        constructor
        · rintro ⟨hr, hnonneg, hfit, hremote⟩
          exact ⟨hr, hremote, hnonneg, hfit⟩
        · rintro ⟨hr, hremote, hnonneg, hfit⟩
          exact ⟨hr, hnonneg, hfit, hremote⟩
      · rename_i haction
        simp only [htask, haction, false_implies, true_implies, and_true, Bool.false_eq_true]
        exact ⟨hcapacity₅.trans hcapacity₄, (hharmless₅ here).trans hharmless₄⟩
    · rename_i htask
      simp only [htask, false_implies, and_true, Bool.false_eq_true]
      exact ⟨hcapacity₅.trans hcapacity₄, (hharmless₅ here).trans hharmless₄⟩

/-- A frame is handled without harm if and only if it is well formed. -/
theorem handleFrame_spec (here : Local) (u : Uninitialized) (r : Receiver) :
    (handleFrame here u r).buffer.capacity = r.buffer.capacity ∧
    ((handleFrame here u r).Harmless here ↔
      r.Harmless here ∧ WellFormed r.buffer.capacity here u r.stream) := by
  obtain ⟨r₀, h₀, hholds₀, hcapacity, hstream, hharmless⟩ := recvbufferSized_spec 1 r
  simp only [handleFrame, WellFormed, h₀]
  cases hpart : part r.buffer.capacity 1 r.stream with
  | none =>
    simp only [Option.getD_none, List.length_nil, Nat.cast_zero, if_true, reduceCtorEq,
      false_implies, implies_true, and_true]
    exact ⟨hcapacity, hharmless here⟩
  | some b =>
    have hlength := (length_part hpart).2.2
    obtain ⟨operation, rfl⟩ := List.length_eq_one_iff.mp (by omega : b.length = 1)
    rw [hpart] at hholds₀
    obtain ⟨r₁, h₁, hs₁⟩ := popFrontInt8_spec hholds₀ u.operation
    have hcapacity₁ := hs₁.capacity.trans hcapacity
    have hstream₁ := hs₁.stream.trans hstream
    have hharmless₁ := (hs₁.harmless here).trans (hharmless here)
    simp only [Option.getD_some, List.length_singleton, Nat.cast_one, one_ne_zero, if_false, h₁,
      Option.some.injEq, List.cons.injEq, and_true, forall_eq']
    have hzero : operation.toBitVec = 0 ↔ operation = 0 :=
      UInt8.toBitVec_inj (b := 0)
    have hone : operation.toBitVec = 1 ↔ operation = 1 :=
      UInt8.toBitVec_inj (b := 1)
    simp only [hzero, hone]
    by_cases hstart : operation = 0
    · have hreturn : operation ≠ 1 := by
        rw [hstart]
        decide
      obtain ⟨hcapacity₂, hharmless₂⟩ := startTask_spec u r₁
      simp only [hstart, if_true, true_implies]
      rw [hcapacity₂, hharmless₂, hcapacity₁, hstream₁, hharmless₁]
      refine ⟨rfl, and_congr_right fun _ => ⟨fun h => ⟨h, fun h => ?_⟩, fun h => h.1⟩⟩
      exact absurd h (by decide)
    · by_cases hreturn : operation = 1
      · obtain ⟨hcapacity₂, hharmless₂⟩ := returnResult_spec u r₁.clear here
        have hcleared : r₁.clear.buffer.capacity = r.buffer.capacity := hcapacity₁
        have hclearedStream : r₁.clear.stream = after r.buffer.capacity 1 r.stream := hstream₁
        rw [hcleared] at hcapacity₂ hharmless₂
        rw [hclearedStream, (same_clear r₁).harmless, hharmless₁] at hharmless₂
        simp only [hstart, if_false, false_implies, true_and]
        rw [if_pos hreturn]
        refine ⟨hcapacity₂, hharmless₂.trans (and_congr_right fun _ => ?_)⟩
        exact ⟨fun h _ => h, fun h => h hreturn⟩
      · simp only [hstart, hreturn, if_false, false_implies, and_true]
        exact ⟨hcapacity₁, ((same_clear r₁).harmless here).trans hharmless₁⟩

/-- The accesses of a frame are harmless if and only if it is well formed. -/
theorem Loop.harmless_iff (l : Loop) (e : Event) :
    (∀ a ∈ l.accesses e, a.Harmless l.buffer.capacity e.here) ↔
      WellFormed l.buffer.capacity e.here e.uninitialized (l.streams e.socket ++ e.arrived) := by
  obtain ⟨hcapacity, hharmless⟩ := handleFrame_spec e.here e.uninitialized (l.receiver e)
  have hnone : (l.receiver e).Harmless e.here := fun a ha => absurd ha List.not_mem_nil
  rw [iff_true_intro hnone, true_and, Receiver.Harmless, hcapacity] at hharmless
  exact hharmless

theorem Loop.capacity_run (l : Loop) (es : List Event) :
    (l.run es).buffer.capacity = l.buffer.capacity := by
  induction es generalizing l with
  | nil => rfl
  | cons e es ih =>
    rw [Loop.run, List.foldl_cons, ← Loop.run, ih (l.step e)]
    exact (handleFrame_spec e.here e.uninitialized (l.receiver e)).1

/-- Over every run of the loop, what it does to memory is harmless if and only if each frame is
well formed when it is handled. -/
theorem wire_harmless (capacity : Capacity) (data : ℕ → UInt8) (es : List Event) :
    (∀ es₁ e es₂, es = es₁ ++ e :: es₂ →
        ∀ a ∈ ((Loop.init capacity data).run es₁).accesses e, a.Harmless capacity e.here) ↔
      ∀ es₁ e es₂, es = es₁ ++ e :: es₂ →
        WellFormed capacity e.here e.uninitialized
          (((Loop.init capacity data).run es₁).streams e.socket ++ e.arrived) := by
  have hstep : ∀ es₁ e,
      (∀ a ∈ ((Loop.init capacity data).run es₁).accesses e, a.Harmless capacity e.here) ↔
        WellFormed capacity e.here e.uninitialized
          (((Loop.init capacity data).run es₁).streams e.socket ++ e.arrived) := by
    intro es₁ e
    have h := Loop.harmless_iff ((Loop.init capacity data).run es₁) e
    rwa [Loop.capacity_run] at h
  constructor
  · intro h es₁ e es₂ he
    exact (hstep es₁ e).mp (h es₁ e es₂ he)
  · intro h es₁ e es₂ he
    exact (hstep es₁ e).mpr (h es₁ e es₂ he)

/-- A node with a task of four bytes of result that runs on an action of its own. -/
def localNode : Local where
  isInitialized := true
  node :=
    ((Node.init ⟨1, 1, 1, 1, 1, 1, 1, 1, 1, by decide⟩ .workStealLf).modifyTask ⟨0, 1⟩ fun t =>
        { t with handle := ⟨0, 1⟩, action := ⟨0, 1⟩, state := .running }).modifyAction ⟨0, 1⟩
      fun a => { a with handle := ⟨0, 1⟩, enabled := true, numTasks := 1 }
  resultSize _ := 4
  isNetworkAction _ := false

/-- A peer returns a result of `-1` bytes for that task. -/
def localResult : Event where
  socket := 1
  arrived := [[1], [1, 0, 0, 0, 0, 0, 0, 0, 0, 0, 0, 0, 255, 255, 255, 255]]
  here := localNode
  uninitialized := ⟨0, 0, 0, 0, 0, 0, 0, 0, 0, 0⟩

/-- The size passes all comparisons, so that all of memory is copied, and the task completes. -/
theorem accesses_localResult :
    (Loop.init ⟨64, by decide⟩ fun _ => 0).accesses localResult =
      [.receive 0 1, .copy 0 1, .receive 0 16, .copy 0 4, .copy 4 4, .copy 8 4, .copy 12 4,
        .copy 0 (2 ^ 64 - 1), .result ⟨0, 1⟩ (2 ^ 64 - 1), .complete ⟨0, 1⟩ 0] := by
  decide +kernel

/-- The copy leaves the buffer, the result does not fit its task, and the task that completes is
not on a network action. -/
theorem localResult_not_harmless (capacity : Capacity) :
    ¬(Access.copy 0 (2 ^ 64 - 1)).Harmless capacity localNode ∧
    ¬(Access.result ⟨0, 1⟩ (2 ^ 64 - 1)).Harmless capacity localNode ∧
    ¬(Access.complete ⟨0, 1⟩ 0).Harmless capacity localNode := by
  have hcapacity := capacity.2
  refine ⟨fun h => ?_, fun h => ?_, fun h => ?_⟩
  · have := h.2
    omega
  · have : 2 ^ 64 - 1 ≤ 4 := h
    omega
  · exact Bool.false_ne_true h.2.2

/-- A frame may do harm. -/
theorem wire_harmful :
    ¬∀ es₁ e es₂, [localResult] = es₁ ++ e :: es₂ →
      ∀ a ∈ ((Loop.init ⟨64, by decide⟩ fun _ => 0).run es₁).accesses e,
        a.Harmless ⟨64, by decide⟩ e.here := by
  intro h
  refine (localResult_not_harmless _).1 (h [] localResult [] rfl _ ?_)
  rw [Loop.run, List.foldl_nil, accesses_localResult]
  simp only [List.mem_cons, true_or, or_true]

end Embb.MtapiNetwork
