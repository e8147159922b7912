import Embb.Lib.Slice
import Embb.MtapiNetwork.Send

/-!
# Messages between nodes

A node writes a task that is started, or the result of one, as a frame to a
connection; the receive loop of the other node reads it back field by field. The
connection delivers the bytes in order and in chunks of any sizes.
-/

namespace Embb.MtapiNetwork

open Embb.Mtapi Slice

/-- The fields of a task that is started, with its arguments. -/
structure StartMessage where
  domain_id : BitVec 32
  job_id : BitVec 32
  priority : BitVec 32
  remote_task_id : BitVec 32
  remote_task_tag : BitVec 32
  results_size : BitVec 32
  arguments_size : BitVec 32
  arguments : List UInt8
  deriving DecidableEq

/-- The fields of a result that is returned, with the result. -/
structure ResultMessage where
  task_id : BitVec 32
  task_tag : BitVec 32
  task_status : BitVec 32
  results_size : BitVec 32
  results : List UInt8
  deriving DecidableEq

inductive Message where
  | start (m : StartMessage)
  | result (m : ResultMessage)
  deriving DecidableEq

/-- The value of a status in C. -/
def statusCode (status : Status) : BitVec 32 := BitVec.ofNat 32 status.ctorIdx

/-- The completion of a task that a peer has started: the node as the callback finds it, what the
task keeps of the peer's handle, its result, and the results of the calls of `send`. -/
structure Completion where
  isInitialized : Bool
  node : Node
  task : Handle
  remote_task_id : BitVec 32
  remote_task_tag : BitVec 32
  result_buffer : List UInt8
  results : List ℤ
  result_lt : result_buffer.length < 2 ^ 32

namespace Completion

/-- `result_size` as an `int32_t`. -/
def result_size (c : Completion) : BitVec 32 := BitVec.ofNat 32 c.result_buffer.length

/-- The callback gets as far as the send buffer. -/
def IsValid (c : Completion) : Prop :=
  c.isInitialized = true ∧ c.node.taskPool.isHandleValid c.task = true ∧
    c.node.actionPool.isHandleValid (c.node.task c.task).action = true

instance (c : Completion) : Decidable c.IsValid := inferInstanceAs (Decidable (_ ∧ _ ∧ _))

/-- The pushes of `embb_mtapi_network_task_complete` before the result. -/
def pushHeader (send_buffer : SendBuffer) (c : Completion) : SendBuffer :=
  let local_task := c.node.task c.task
  let b := send_buffer.clear
  let b := (b.pushBackInt8 1).2
  let b := (b.pushBackInt32 c.remote_task_id).2
  let b := (b.pushBackInt32 c.remote_task_tag).2
  let b := (b.pushBackInt32 (statusCode local_task.errorCode)).2
  (b.pushBackInt32 c.result_size).2

/-- The fields before the result. -/
def header (c : Completion) : List (List UInt8) :=
  let local_task := c.node.task c.task
  [[1], int32Bytes c.remote_task_id, int32Bytes c.remote_task_tag,
    int32Bytes (statusCode local_task.errorCode), int32Bytes c.result_size]

theorem pushHeader_eq (send_buffer : SendBuffer) (c : Completion) :
    c.pushHeader send_buffer = send_buffer.clear.pushFields c.header := rfl

theorem length_header (c : Completion) : c.header.flatten.length = 17 := rfl

end Completion

/-- The bytes that a call of `embb_mtapi_network_buffer_pop_front_rawdata` copies. -/
def Receiver.rawdata (size : ℤ) (r : Receiver) : List UInt8 :=
  if r.buffer.position + size > r.buffer.size then []
  else slice r.buffer.data r.buffer.position.toNat (r.buffer.position.toNat + toSizeT size)

open Receiver

/-- The reads of the branch for `EMBB_MTAPI_NETWORK_START_TASK`. -/
def readStart (u : Uninitialized) (r : Receiver) : StartMessage × Receiver :=
  let r := (recvbufferSized 28 r).2
  let (domain_id, r) := popFrontInt32 u.domain_id r
  let (job_id, r) := popFrontInt32 u.job_id r
  let (priority, r) := popFrontInt32 0 r
  let (remote_task_id, r) := popFrontInt32 u.remote_task_id r
  let (remote_task_tag, r) := popFrontInt32 u.remote_task_tag r
  let (results_size, r) := popFrontInt32 u.results_size r
  let (arguments_size, r) := popFrontInt32 u.arguments_size r
  let r := (recvbufferSized arguments_size.toInt r.clear).2
  (⟨domain_id, job_id, priority, remote_task_id, remote_task_tag, results_size, arguments_size,
    rawdata arguments_size.toInt r⟩, popFrontRawdata arguments_size.toInt none r)

/-- The reads of the branch for `EMBB_MTAPI_NETWORK_RETURN_RESULT` at an initialized node; the
result is copied only if the handle is valid. -/
def readResult (u : Uninitialized) (r : Receiver) : ResultMessage × Receiver :=
  let r := (recvbufferSized 16 r).2
  let (task_id, r) := popFrontInt32 u.task_id r
  let (task_tag, r) := popFrontInt32 u.task_tag r
  let (task_status, r) := popFrontInt32 u.task_status r
  let (results_size, r) := popFrontInt32 u.results_size r
  let r := (recvbufferSized results_size.toInt r.clear).2
  (⟨task_id, task_tag, task_status, results_size, rawdata results_size.toInt r⟩, r)

/-- What the loop takes from the frame that it handles. -/
def readMessage (here : Local) (u : Uninitialized) (r : Receiver) : Option Message :=
  let (err, r) := recvbufferSized 1 r.clear
  if err = 0 then none
  else
    let (operation, r) := popFrontInt8 u.operation r
    let r := r.clear
    if operation = 0 then some (.start (readStart u r).1)
    else if operation = 1 ∧ here.isInitialized then some (.result (readResult u r.clear).1)
    else none

/-- Chunks that are not empty hold what arrives. -/
theorem arrives_eq_flatten {stream : List (List UInt8)} (h : ∀ chunk ∈ stream, chunk ≠ []) :
    arrives stream = stream.flatten := by
  induction stream with
  | nil => rfl
  | cons chunk stream ih =>
    rw [List.forall_mem_cons] at h
    rw [arrives, if_neg h.1, ih h.2, List.flatten_cons]

/-- What is left after some bytes that have arrived. -/
theorem remaining_spec {stream : List (List UInt8)} (h : ∀ chunk ∈ stream, chunk ≠ []) {n : ℕ}
    (hn : n ≤ stream.flatten.length) (hpos : 0 < n) :
    (∀ chunk ∈ remaining n stream, chunk ≠ []) ∧
      (remaining n stream).flatten = stream.flatten.drop n := by
  induction stream generalizing n with
  | nil => exact absurd hn (by simp; omega)
  | cons chunk stream ih =>
    rw [List.forall_mem_cons] at h
    rw [List.flatten_cons, List.length_append] at hn
    rw [remaining, if_neg h.1, List.flatten_cons]
    split
    · rename_i hle
      rw [putBack]
      split
      · rename_i hdrop
        refine ⟨h.2, ?_⟩
        rw [List.drop_append_of_le_length hle, hdrop, List.nil_append]
      · rename_i hdrop
        refine ⟨List.forall_mem_cons.mpr ⟨hdrop, h.2⟩, ?_⟩
        rw [List.flatten_cons, List.drop_append_of_le_length hle]
    · rename_i hlt
      have hle : n - chunk.length ≤ stream.flatten.length := by omega
      have hrest : 0 < n - chunk.length := by omega
      have hchunk : chunk.drop n = [] := List.drop_of_length_le (by omega)
      obtain ⟨hne, hflat⟩ := ih h.2 hle hrest
      refine ⟨hne, ?_⟩
      rw [hflat, List.drop_append, hchunk, List.nil_append]

/-- The socket delivers some bytes next and others after them. -/
structure Receiver.Delivers (r : Receiver) (bytes rest : List UInt8) : Prop where
  chunks : ∀ chunk ∈ r.stream, chunk ≠ []
  flatten_eq : r.stream.flatten = bytes ++ rest

namespace Receiver.Delivers

variable {r r' : Receiver} {bytes back rest : List UInt8}

theorem congr (h : r.Delivers bytes rest) (hs : r'.stream = r.stream) : r'.Delivers bytes rest :=
  ⟨hs ▸ h.chunks, hs ▸ h.flatten_eq⟩

theorem split (h : r.Delivers (bytes ++ back) rest) : r.Delivers bytes (back ++ rest) :=
  ⟨h.chunks, by rw [h.flatten_eq, List.append_assoc]⟩

/-- Bytes that fit into the buffer are received as a part. -/
theorem receive (h : r.Delivers bytes rest) (hfits : bytes.length ≤ r.buffer.capacity.1)
    (hne : bytes ≠ []) :
    ∃ r', recvbufferSized bytes.length r.clear = ((bytes.length : ℤ), r') ∧
      r'.Holds 0 (some bytes) ∧ r'.buffer.capacity = r.buffer.capacity ∧ r'.Delivers [] rest := by
  obtain ⟨r', hrecv, hholds, hcapacity, hstream, -⟩ := recvbufferSized_spec bytes.length r
  have hpos : 0 < bytes.length := List.length_pos_iff.mpr hne
  have hlen : bytes.length ≤ r.stream.flatten.length := by
    rw [h.flatten_eq, List.length_append]
    exact Nat.le_add_right ..
  have hpart : part r.buffer.capacity bytes.length r.stream = some bytes := by
    rw [part, arrives_eq_flatten h.chunks, if_pos ⟨by omega, by omega, by rwa [Int.toNat_natCast]⟩,
      h.flatten_eq, Int.toNat_natCast, List.take_left]
  obtain ⟨hchunks, hflat⟩ := remaining_spec h.chunks hlen hpos
  rw [after, if_pos ⟨by omega, by omega⟩, Int.toNat_natCast] at hstream
  rw [hpart, Option.getD_some] at hrecv
  rw [hpart] at hholds
  refine ⟨r', hrecv, hholds, hcapacity, hstream ▸ hchunks, ?_⟩
  rw [hstream, hflat, h.flatten_eq, List.drop_left, List.nil_append]

end Receiver.Delivers

/-- Fields of four bytes, one after the other. -/
def fieldBytes (fields : List (BitVec 32)) : List UInt8 := fields.flatMap int32Bytes

namespace StartMessage

/-- The fields of the header of a frame that starts a task. -/
def header (m : StartMessage) : List (BitVec 32) :=
  [m.domain_id, m.job_id, m.priority, m.remote_task_id, m.remote_task_tag, m.results_size,
    m.arguments_size]

/-- The complete frame. -/
def frame (m : StartMessage) : List UInt8 := 0 :: (fieldBytes m.header ++ m.arguments)

end StartMessage

namespace ResultMessage

/-- The fields of the header of a frame that returns a result. -/
def header (m : ResultMessage) : List (BitVec 32) :=
  [m.task_id, m.task_tag, m.task_status, m.results_size]

/-- The complete frame. -/
def frame (m : ResultMessage) : List UInt8 := 1 :: (fieldBytes m.header ++ m.results)

end ResultMessage

namespace Message

/-- The complete frame. -/
def frame : Message → List UInt8
  | start m => m.frame
  | result m => m.frame

/-- The header and the data of the frame fit into a buffer one after the other. -/
def Fits (capacity : Capacity) : Message → Prop
  | start m => 28 ≤ capacity.1 ∧ m.arguments.length ≤ capacity.1
  | result m => 16 ≤ capacity.1 ∧ m.results.length ≤ capacity.1

end Message

/-- The operation of a frame is received and taken out. -/
theorem Receiver.Delivers.operation {r : Receiver} {operation : UInt8} {back rest : List UInt8}
    (hd : r.Delivers (operation :: back) rest) (hcapacity : 1 ≤ r.buffer.capacity.1)
    (value : BitVec 8) :
    ∃ r₀ r₁, recvbufferSized 1 r.clear = (1, r₀) ∧
      popFrontInt8 value r₀ = (operation.toBitVec, r₁) ∧
      r₁.buffer.capacity = r.buffer.capacity ∧ r₁.Delivers back rest := by
  have hd' : r.Delivers ([operation] ++ back) rest := hd
  obtain ⟨r₀, h₀, hh₀, hc₀, hd₀⟩ := hd'.split.receive hcapacity (by simp)
  obtain ⟨r₁, h₁, hsame⟩ := popFrontInt8_spec hh₀ value
  have hd₁ := hd₀.congr hsame.stream
  exact ⟨r₀, r₁, h₀, h₁, hsame.capacity.trans hc₀, hd₁.chunks, hd₁.flatten_eq⟩

/-- A message that is written: a task is started on an action of the plugin, or a task that a peer
has started is completed. -/
inductive Sending where
  | start (action : NetworkAction) (s : Start)
  | result (send_buffer : SendBuffer) (c : Completion)

namespace Sending

/-- What is to be told to the peer. -/
def message : Sending → Message
  | start a s =>
    let local_task := s.node.task s.task
    .start ⟨a.domain_id, a.job_id, BitVec.ofNat 32 local_task.attributes.priority,
      BitVec.ofNat 32 local_task.handle.id, BitVec.ofNat 32 local_task.handle.tag, s.result_size,
      s.arguments_size, s.arguments⟩
  | result _ c =>
    .result ⟨c.remote_task_id, c.remote_task_tag, statusCode (c.node.task c.task).errorCode,
      c.result_size, c.result_buffer⟩

/-- The whole frame fits into the buffer of the sender and is accepted by the socket. The action
may have been used before. -/
def Fits : Sending → Prop
  | start a s =>
    (∃ capacity calls, (NetworkAction.init a.domain_id a.job_id capacity).run calls = some a) ∧
      s.IsValid ∧ 29 + s.arguments.length ≤ a.send_buffer.capacity.1 ∧
      (29 + s.arguments.length : ℤ) ≤ (s.results.takeWhile (0 < ·)).sum
  | result send_buffer c =>
    c.IsValid ∧ 17 + c.result_buffer.length ≤ send_buffer.capacity.1 ∧
      (17 + c.result_buffer.length : ℤ) ≤ (c.results.takeWhile (0 < ·)).sum

end Sending

namespace Loop

/-- What the loop takes from the frame that it handles. -/
def message (l : Loop) (e : Event) : Option Message :=
  readMessage e.here e.uninitialized (l.receiver e)

end Loop

section Run

variable {socket : ℕ} {l : Loop} {e : Event} {es : List Event}

end Run

end Embb.MtapiNetwork
