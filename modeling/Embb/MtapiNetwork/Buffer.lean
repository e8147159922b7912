import Embb.Lib.Fifo
import Embb.Lib.Slice
import Embb.MtapiNetwork.Send

/-!
# The network buffer

Values are pushed at the end of a buffer and popped from its front; room is given back only when
the buffer is cleared. The calls compare the sum of a position and a size with a bound, both of
them signed, and copy as many bytes as the size has when it is converted.

A call without an outcome is one that adds integers beyond the range of an `int`.
-/

namespace Embb.MtapiNetwork

open Slice Fifo

/-- The addition of two `int` values. -/
def intAdd (x y : ℤ) : Option ℤ := if -2 ^ 31 ≤ x + y ∧ x + y < 2 ^ 31 then some (x + y) else none

/-- What a call returns and leaves, the ranges of the buffer that it copies, and the bytes that it
delivers. -/
structure Done where
  result : ℤ
  buffer : Buffer
  copied : List (ℤ × ℕ)
  value : List UInt8

namespace Buffer

/-- `embb_mtapi_network_buffer_initialize`, from what the new block contains. -/
def init (capacity : Capacity) (data : ℕ → UInt8) : Buffer := ⟨0, 0, capacity, data⟩

/-- `embb_mtapi_network_buffer_clear`. -/
def clear (b : Buffer) : Option Done := some ⟨0, { b with position := 0, size := 0 }, [], []⟩

/-- The common form of the pushes, for a value of `size` bytes in memory. -/
def pushBack (b : Buffer) (size : ℤ) (value : ℕ → UInt8) : Option Done :=
  (intAdd b.size size).map fun sum =>
    if sum > (b.capacity.1 : ℤ) then ⟨0, b, [], []⟩
    else
      ⟨size, { b with
        data := store b.data b.size.toNat (slice value 0 (toSizeT size))
        size := sum }, [(b.size, toSizeT size)], []⟩

/-- The memory of a value with the given bytes. -/
def memory (bytes : List UInt8) : ℕ → UInt8 := fun i => bytes.getD i 0

/-- The bytes of an `int16_t` in memory. -/
def int16Bytes (value : BitVec 16) : List UInt8 :=
  (List.range 2).map fun i => ⟨value.extractLsb' (8 * i) 8⟩

/-- `embb_mtapi_network_buffer_push_back_int8`. -/
def pushBackInt8 (b : Buffer) (value : UInt8) : Option Done := b.pushBack 1 (memory [value])

/-- `embb_mtapi_network_buffer_push_back_int16`. -/
def pushBackInt16 (b : Buffer) (value : BitVec 16) : Option Done :=
  b.pushBack 2 (memory (int16Bytes value))

/-- `embb_mtapi_network_buffer_push_back_int32`. -/
def pushBackInt32 (b : Buffer) (value : BitVec 32) : Option Done :=
  b.pushBack 4 (memory (int32Bytes value))

/-- `embb_mtapi_network_buffer_push_back_rawdata`. -/
def pushBackRawdata (b : Buffer) (size : BitVec 32) (rawdata : ℕ → UInt8) : Option Done :=
  b.pushBack size.toInt rawdata

/-- The common form of the pops, for a value of `size` bytes. -/
def popFront (b : Buffer) (size : ℤ) : Option Done :=
  (intAdd b.position size).map fun sum =>
    if sum > b.size then ⟨0, b, [], []⟩
    else
      ⟨size, { b with position := sum }, [(b.position, toSizeT size)],
        slice b.data b.position.toNat (b.position.toNat + toSizeT size)⟩

/-- `embb_mtapi_network_buffer_pop_front_int8`. -/
def popFrontInt8 (b : Buffer) : Option Done := b.popFront 1

/-- `embb_mtapi_network_buffer_pop_front_int16`. -/
def popFrontInt16 (b : Buffer) : Option Done := b.popFront 2

/-- `embb_mtapi_network_buffer_pop_front_int32`. -/
def popFrontInt32 (b : Buffer) : Option Done := b.popFront 4

/-- `embb_mtapi_network_buffer_pop_front_rawdata`. -/
def popFrontRawdata (b : Buffer) (size : BitVec 32) : Option Done := b.popFront size.toInt

/-- A call of the interface. -/
inductive Call where
  | clear
  | pushBackInt8 (value : UInt8)
  | pushBackInt16 (value : BitVec 16)
  | pushBackInt32 (value : BitVec 32)
  | pushBackRawdata (size : BitVec 32) (rawdata : ℕ → UInt8)
  | popFrontInt8
  | popFrontInt16
  | popFrontInt32
  | popFrontRawdata (size : BitVec 32)

/-- What a call does. -/
def Call.run (b : Buffer) : Call → Option Done
  | .clear => b.clear
  | .pushBackInt8 value => b.pushBackInt8 value
  | .pushBackInt16 value => b.pushBackInt16 value
  | .pushBackInt32 value => b.pushBackInt32 value
  | .pushBackRawdata size rawdata => b.pushBackRawdata size rawdata
  | .popFrontInt8 => b.popFrontInt8
  | .popFrontInt16 => b.popFrontInt16
  | .popFrontInt32 => b.popFrontInt32
  | .popFrontRawdata size => b.popFrontRawdata size

/-- The three forms that the calls have. -/
inductive Form where
  | clear
  | push (size : ℤ) (value : ℕ → UInt8)
  | pop (size : ℤ)

def Form.run (b : Buffer) : Form → Option Done
  | .clear => b.clear
  | .push size value => b.pushBack size value
  | .pop size => b.popFront size

/-- The form of a call. -/
def Call.form : Call → Form
  | .clear => .clear
  | .pushBackInt8 value => .push 1 (memory [value])
  | .pushBackInt16 value => .push 2 (memory (int16Bytes value))
  | .pushBackInt32 value => .push 4 (memory (int32Bytes value))
  | .pushBackRawdata size rawdata => .push size.toInt rawdata
  | .popFrontInt8 => .pop 1
  | .popFrontInt16 => .pop 2
  | .popFrontInt32 => .pop 4
  | .popFrontRawdata size => .pop size.toInt

theorem Call.run_eq (b : Buffer) (c : Call) : c.run b = c.form.run b := by
  cases c <;> rfl

/-- The positions are in their order. -/
structure Bounded (b : Buffer) : Prop where
  position_nonneg : 0 ≤ b.position
  position_le : b.position ≤ b.size
  size_le : b.size ≤ b.capacity.1

/-- A range of the buffer. -/
def Contains (b : Buffer) (range : ℤ × ℕ) : Prop :=
  0 ≤ range.1 ∧ range.1 + range.2 ≤ b.capacity.1

/-- The bytes that were pushed and not yet popped. -/
def held (b : Buffer) : List UInt8 := slice b.data b.position.toNat b.size.toNat

/-- The size is not negative, and its sum with the level that it is added to is an `int`. -/
def Form.Fits (b : Buffer) : Form → Prop
  | .clear => True
  | .push size _ => 0 ≤ size ∧ b.size + size < 2 ^ 31
  | .pop size => 0 ≤ size ∧ b.position + size < 2 ^ 31

/-- What a call does to the bytes held: a push adds as many bytes as it reports. -/
def Form.effect (d : Done) : Form → Effect UInt8
  | .clear => .emptied
  | .push _ value => .joined (slice value 0 (toSizeT d.result))
  | .pop _ => .departed d.value

theorem toSizeT_of_nonneg {size : ℤ} (h0 : 0 ≤ size) (hlt : size < 2 ^ 31) :
    toSizeT size = size.toNat := by
  rw [toSizeT, Int.emod_eq_of_lt h0 (by omega)]

/-- A negative size is converted to one that no buffer has. -/
theorem lt_toSizeT_of_neg {size : ℤ} (h0 : size < 0) (hge : -2 ^ 31 ≤ size) :
    2 ^ 32 < toSizeT size := by
  unfold toSizeT
  omega

theorem intAdd_of_lt {x y : ℤ} (hge : -2 ^ 31 ≤ x + y) (hlt : x + y < 2 ^ 31) :
    intAdd x y = some (x + y) := if_pos ⟨hge, hlt⟩

theorem intAdd_of_le {x y : ℤ} (h : 2 ^ 31 ≤ x + y) : intAdd x y = none :=
  if_neg fun hr => absurd hr.2 (not_lt.mpr h)

theorem intAdd_eq_some {x y z : ℤ} (h : intAdd x y = some z) : z = x + y ∧ x + y < 2 ^ 31 := by
  unfold intAdd at h
  split at h
  · rename_i hr
    exact ⟨(Option.some.inj h).symm, hr.2⟩
  · cases h

/-- A range that was just written reads as what was written. -/
theorem slice_store (data : ℕ → UInt8) (offset : ℕ) (bytes : List UInt8) :
    slice (store data offset bytes) offset (offset + bytes.length) = bytes := by
  apply List.ext_getElem?
  intro i
  simp only [slice, List.getElem?_map, Nat.add_sub_cancel_left]
  by_cases hi : i < bytes.length
  · rw [List.getElem?_range' hi, List.getElem?_eq_getElem hi]
    simp [store, List.getElem?_eq_getElem hi]
  · rw [List.getElem?_eq_none (by rw [List.length_range']; omega),
      List.getElem?_eq_none (by omega)]
    rfl

/-- What lies in front of the written range stays. -/
theorem slice_store_before (data : ℕ → UInt8) {first offset : ℕ} (bytes : List UInt8) :
    slice (store data offset bytes) first offset = slice data first offset := by
  refine slice_congr fun i _ hi => ?_
  rw [store, if_neg (by omega)]

/-- The buffer behind a push that is not refused. -/
def pushed (b : Buffer) (size : ℤ) (value : ℕ → UInt8) : Buffer :=
  { b with
    data := store b.data b.size.toNat (slice value 0 (toSizeT size))
    size := b.size + size }

/-- The buffer behind a pop that is not refused. -/
def popped (b : Buffer) (size : ℤ) : Buffer := { b with position := b.position + size }

section Calls

variable {b : Buffer} {size : ℤ} {value : ℕ → UInt8}

theorem pushBack_of_full (hadd : intAdd b.size size = some (b.size + size))
    (h : (b.capacity.1 : ℤ) < b.size + size) : b.pushBack size value = some ⟨0, b, [], []⟩ := by
  rw [pushBack, hadd, Option.map_some, if_pos h]

theorem pushBack_of_room (hadd : intAdd b.size size = some (b.size + size))
    (h : b.size + size ≤ b.capacity.1) : b.pushBack size value =
      some ⟨size, b.pushed size value, [(b.size, toSizeT size)], []⟩ := by
  rw [pushBack, hadd, Option.map_some, if_neg (not_lt.mpr h)]
  rfl

theorem popFront_of_short (hadd : intAdd b.position size = some (b.position + size))
    (h : b.size < b.position + size) : b.popFront size = some ⟨0, b, [], []⟩ := by
  rw [popFront, hadd, Option.map_some, if_pos h]

theorem popFront_of_enough (hadd : intAdd b.position size = some (b.position + size))
    (h : b.position + size ≤ b.size) : b.popFront size =
      some ⟨size, b.popped size, [(b.position, toSizeT size)],
        slice b.data b.position.toNat (b.position.toNat + toSizeT size)⟩ := by
  rw [popFront, hadd, Option.map_some, if_neg (not_lt.mpr h)]
  rfl

/-- The bytes of a push come behind those held. -/
theorem held_pushed (hb : b.Bounded) (h0 : 0 ≤ size) (hlt : size < 2 ^ 31) :
    (b.pushed size value).held = b.held ++ slice value 0 (toSizeT size) := by
  have hp := hb.position_nonneg
  have hps := hb.position_le
  have hlen : (slice value 0 (toSizeT size)).length = size.toNat := by
    rw [slice, List.length_map, List.length_range', toSizeT_of_nonneg h0 hlt, Nat.sub_zero]
  have hend : (b.pushed size value).size.toNat =
      b.size.toNat + (slice value 0 (toSizeT size)).length := by
    rw [hlen]
    change (b.size + size).toNat = b.size.toNat + size.toNat
    omega
  have hposition : (b.pushed size value).position = b.position := rfl
  rw [held, hend, hposition,
    ← slice_append _ (show b.position.toNat ≤ b.size.toNat by omega) (Nat.le_add_right _ _)]
  exact congrArg₂ (· ++ ·) (slice_store_before ..) (slice_store ..)

/-- The bytes of a pop are the first of those held. -/
theorem held_popped (hb : b.Bounded) (h0 : 0 ≤ size) (hlt : size < 2 ^ 31)
    (h : b.position + size ≤ b.size) :
    b.held = slice b.data b.position.toNat (b.position.toNat + toSizeT size) ++
      (b.popped size).held := by
  have hp := hb.position_nonneg
  have hstart : (b.popped size).position.toNat = b.position.toNat + toSizeT size := by
    rw [toSizeT_of_nonneg h0 hlt]
    change (b.position + size).toNat = b.position.toNat + size.toNat
    omega
  have hle : (b.popped size).position.toNat ≤ b.size.toNat := by
    change (b.position + size).toNat ≤ b.size.toNat
    omega
  rw [← hstart, held, held]
  exact (slice_append b.data (by omega) hle).symm

end Calls

/-- What a call leaves behind that is in order: a bounded buffer of the same capacity, copies
inside it, and the bytes held as the call reports them. -/
structure Keeps (b : Buffer) (f : Form) (d : Done) : Prop where
  bounded : d.buffer.Bounded
  capacity_eq : d.buffer.capacity = b.capacity
  contains : ∀ r ∈ d.copied, b.Contains r
  leads : (f.effect d).Leads b.held d.buffer.held

/-- A call that fits is in order, whether it is refused or not. -/
theorem keeps_of_fits {b : Buffer} (hb : b.Bounded) {f : Form} (h : f.Fits b) :
    ∃ d, f.run b = some d ∧ b.Keeps f d := by
  have hp := hb.position_nonneg
  have hps := hb.position_le
  have hsc := hb.size_le
  have hcap := b.capacity.2
  cases f with
  | clear =>
    refine ⟨_, rfl, ⟨le_rfl, le_rfl, Int.natCast_nonneg _⟩, rfl, by simp, ?_⟩
    rfl
  | push size value =>
    obtain ⟨h0, hlt⟩ := h
    have hadd : intAdd b.size size = some (b.size + size) := intAdd_of_lt (by omega) hlt
    by_cases hfull : (b.capacity.1 : ℤ) < b.size + size
    · refine ⟨_, pushBack_of_full hadd hfull, hb, rfl, by simp, ?_⟩
      exact (List.append_nil _).symm
    · have hroom := not_lt.mp hfull
      refine ⟨_, pushBack_of_room hadd hroom, ⟨hp, ?_, hroom⟩, rfl, ?_,
        held_pushed hb h0 (by omega)⟩
      · change b.position ≤ b.size + size
        omega
      · intro r hr
        rw [List.mem_singleton.mp hr]
        refine ⟨by omega, ?_⟩
        rw [toSizeT_of_nonneg h0 (by omega)]
        change b.size + (size.toNat : ℤ) ≤ b.capacity.1
        omega
  | pop size =>
    obtain ⟨h0, hlt⟩ := h
    have hadd : intAdd b.position size = some (b.position + size) := intAdd_of_lt (by omega) hlt
    by_cases hshort : b.size < b.position + size
    · refine ⟨_, popFront_of_short hadd hshort, hb, rfl, by simp, ?_⟩
      exact (List.nil_append _).symm
    · have henough := not_lt.mp hshort
      refine ⟨_, popFront_of_enough hadd henough, ⟨?_, henough, hsc⟩, rfl, ?_,
        held_popped hb h0 (by omega) henough⟩
      · change 0 ≤ b.position + size
        omega
      · intro r hr
        rw [List.mem_singleton.mp hr]
        refine ⟨hp, ?_⟩
        rw [toSizeT_of_nonneg h0 (by omega)]
        change b.position + (size.toNat : ℤ) ≤ b.capacity.1
        omega

/-- The sizes of a call are those of an `int32_t`. -/
def Form.IsInt : Form → Prop
  | .clear => True
  | .push size _ => -2 ^ 31 ≤ size ∧ size < 2 ^ 31
  | .pop size => -2 ^ 31 ≤ size ∧ size < 2 ^ 31

theorem Call.isInt (c : Call) : c.form.IsInt := by
  have hraw (size : BitVec 32) : -2 ^ 31 ≤ size.toInt ∧ size.toInt < 2 ^ 31 :=
    ⟨size.le_toInt, size.toInt_lt⟩
  cases c with
  | pushBackRawdata size rawdata => exact hraw size
  | popFrontRawdata size => exact hraw size
  | clear => exact trivial
  | _ => exact ⟨by decide, by decide⟩

/-- A range as long as a negative size lies in no buffer. -/
theorem not_contains_of_neg {b : Buffer} {size : ℤ} (h0 : size < 0) (hge : -2 ^ 31 ≤ size)
    (start : ℤ) : ¬ b.Contains (start, toSizeT size) := by
  rintro ⟨hs, hle⟩
  have hlt := lt_toSizeT_of_neg h0 hge
  have hcap := b.capacity.2
  change start + (toSizeT size : ℤ) ≤ b.capacity.1 at hle
  change 0 ≤ start at hs
  omega

/-- A call that does not fit has no outcome or copies outside the buffer. -/
theorem leaves_of_not_fits {b : Buffer} (hb : b.Bounded) {f : Form} (hf : f.IsInt)
    (h : ¬ f.Fits b) :
    f.run b = none ∨ ∃ d, f.run b = some d ∧ ∃ r ∈ d.copied, ¬ b.Contains r := by
  have hp := hb.position_nonneg
  have hps := hb.position_le
  have hsc := hb.size_le
  cases f with
  | clear => exact absurd trivial h
  | push size value =>
    by_cases h0 : 0 ≤ size
    · have hover : 2 ^ 31 ≤ b.size + size := not_lt.mp fun hlt => h ⟨h0, hlt⟩
      left
      change b.pushBack size value = none
      rw [pushBack, intAdd_of_le hover, Option.map_none]
    · have hge := hf.1
      have hadd : intAdd b.size size = some (b.size + size) :=
        intAdd_of_lt (by omega) (by have hcap := b.capacity.2; omega)
      refine Or.inr ⟨_, pushBack_of_room hadd (by omega), _, List.mem_singleton_self _, ?_⟩
      exact not_contains_of_neg (not_le.mp h0) hge _
  | pop size =>
    by_cases h0 : 0 ≤ size
    · have hover : 2 ^ 31 ≤ b.position + size := not_lt.mp fun hlt => h ⟨h0, hlt⟩
      left
      change b.popFront size = none
      rw [popFront, intAdd_of_le hover, Option.map_none]
    · have hge := hf.1
      have hadd : intAdd b.position size = some (b.position + size) :=
        intAdd_of_lt (by omega) (by have hcap := b.capacity.2; omega)
      refine Or.inr ⟨_, popFront_of_enough hadd (by omega), _, List.mem_singleton_self _, ?_⟩
      exact not_contains_of_neg (not_le.mp h0) hge _

/-- The size that a call is asked for. -/
def Form.size : Form → ℤ
  | .clear => 0
  | .push size _ => size
  | .pop size => size

/-- A call that reports no byte although it was asked for some leaves the buffer as it is. -/
theorem unchanged_of_zero {b : Buffer} {f : Form} {d : Done} (h : f.run b = some d)
    (hz : d.result = 0) (hne : f.size ≠ 0) : d.buffer = b := by
  cases f with
  | clear => exact absurd rfl hne
  | push size value =>
    obtain ⟨sum, -, hd⟩ := Option.map_eq_some_iff.mp h
    split at hd
    · rw [← hd]
    · rw [← hd] at hz
      exact absurd hz hne
  | pop size =>
    obtain ⟨sum, -, hd⟩ := Option.map_eq_some_iff.mp h
    split at hd
    · rw [← hd]
    · rw [← hd] at hz
      exact absurd hz hne

/-- A buffer in use, as long as the calls have an outcome, and all ranges copied so far. -/
structure Run where
  buffer : Option Buffer
  copied : List (ℤ × ℕ)

namespace Run

/-- The buffer behind its initialization. -/
def start (capacity : Capacity) (data : ℕ → UInt8) : Run := ⟨some (init capacity data), []⟩

/-- One call, and what it returns. -/
def step (s : Run) (c : Call) : Run × Option Done :=
  match s.buffer.bind fun b => c.run b with
  | none => (⟨none, s.copied⟩, none)
  | some d => (⟨some d.buffer, s.copied ++ d.copied⟩, some d)

/-- The buffer is in order, and all copies were inside it. -/
def Good (capacity : Capacity) (s : Run) : Prop :=
  ∃ b, s.buffer = some b ∧ b.capacity = capacity ∧ b.Bounded ∧ ∀ r ∈ s.copied, b.Contains r

/-- The call fits the buffer. -/
def Fits (s : Run) (c : Call) : Prop := ∀ b, s.buffer = some b → c.form.Fits b

/-- Every call of a history fits. -/
def AllFit (s : Run) : List Call → Prop
  | [] => True
  | c :: cs => s.Fits c ∧ AllFit (s.step c).1 cs

/-- The bytes held. -/
def held (s : Run) : List UInt8 := (s.buffer.map Buffer.held).getD []

/-- What a call does to the bytes held. -/
def effect (c : Call) : Option Done → Effect UInt8
  | none => .departed []
  | some d => c.form.effect d

theorem good_start (capacity : Capacity) (data : ℕ → UInt8) : (start capacity data).Good capacity :=
  ⟨init capacity data, rfl, rfl, ⟨le_rfl, le_rfl, Int.natCast_nonneg _⟩,
    fun _ hr => absurd hr List.not_mem_nil⟩

theorem step_of_run {s : Run} {b : Buffer} {c : Call} {d : Done} (hb : s.buffer = some b)
    (h : c.form.run b = some d) :
    s.step c = (⟨some d.buffer, s.copied ++ d.copied⟩, some d) := by
  have hrun : (s.buffer.bind fun b => c.run b) = some d := by
    rw [hb, Option.bind_some, c.run_eq, h]
  rw [step, hrun]

/-- A call that fits keeps the buffer in order, and the bytes as it reports them. -/
theorem good_step {capacity : Capacity} {s : Run} (hg : s.Good capacity) {c : Call}
    (h : s.Fits c) :
    (s.step c).1.Good capacity ∧ (effect c (s.step c).2).Leads s.held (s.step c).1.held := by
  obtain ⟨b, hb, hc, hbound, hcopied⟩ := hg
  obtain ⟨d, hd, hk⟩ := keeps_of_fits hbound (h b hb)
  have hcap : d.buffer.capacity = capacity := hk.capacity_eq.trans hc
  rw [step_of_run hb hd]
  refine ⟨⟨d.buffer, rfl, hcap, hk.bounded, fun r hr => ?_⟩, ?_⟩
  · rw [Contains, hk.capacity_eq]
    rcases List.mem_append.mp hr with hr | hr
    · exact hcopied r hr
    · exact hk.contains r hr
  · rw [held, hb]
    exact hk.leads

/-- A call that does not fit leaves the order. -/
theorem not_good_step {capacity : Capacity} {s : Run} (hg : s.Good capacity) {c : Call}
    (h : ¬ s.Fits c) : ¬ (s.step c).1.Good capacity := by
  obtain ⟨b, hb, hc, hbound, -⟩ := hg
  have hfits : ¬ c.form.Fits b := by
    intro hf
    refine h fun b' hb' => ?_
    rw [hb] at hb'
    cases hb'
    exact hf
  rintro ⟨b', hb', hc', -, hcopied⟩
  rcases leaves_of_not_fits hbound c.isInt hfits with hnone | ⟨d, hd, r, hr, hout⟩
  · have hrun : (s.buffer.bind fun b => c.run b) = none := by
      rw [hb, Option.bind_some, c.run_eq, hnone]
    rw [step, hrun] at hb'
    cases hb'
  · rw [step_of_run hb hd] at hcopied
    refine hout ?_
    rw [Contains, hc, ← hc']
    exact hcopied r (List.mem_append_right _ hr)

theorem allFit_of_prefix {s : Run} {calls done : List Call} (h : AllFit s calls)
    (hd : done <+: calls) : AllFit s done := by
  induction done generalizing s calls with
  | nil => exact trivial
  | cons c cs ih =>
    obtain ⟨rest, rfl⟩ := hd
    exact ⟨h.1, ih h.2 ⟨rest, rfl⟩⟩

end Run

/-- After every history the buffer is in order and all copies were inside it; a call that reports
no byte although it was asked for some does nothing; and the bytes pushed since the buffer was last
cleared are those popped since then, in the same order, followed by those held. -/
def KeepsBounds (capacity : Capacity) (data : ℕ → UInt8) (calls : List Call) : Prop :=
  ∀ done, done <+: calls →
    let after := (Histories.run Run.step (Run.start capacity data) done).1
    let effects := effects Run.effect Run.step (Run.start capacity data) done
    after.Good capacity ∧
      (∀ (b : Buffer) (c : Call) (d : Done), after.buffer = some b → c.run b = some d →
        d.result = 0 → c.form.size ≠ 0 → d.buffer = b) ∧
      joined effects = departed effects ++ after.held

/-- A history keeps the bounds exactly if no call has a negative size or a sum that is no `int`. -/
theorem keepsBounds_iff (capacity : Capacity) (data : ℕ → UInt8) (calls : List Call) :
    KeepsBounds capacity data calls ↔ Run.AllFit (Run.start capacity data) calls := by
  let next (s : Run) (c : Call) : Run := (s.step c).1
  have hstep : ∀ s c (_ : List Call), True → Run.Good capacity s →
      (Run.Good capacity (next s c) ↔ Run.Fits s c) ∧ (Run.Fits s c → True) := by
    intro s c _ _ hg
    refine ⟨⟨fun hnext => ?_, fun hf => (Run.good_step hg hf).1⟩, fun _ => trivial⟩
    by_contra hf
    exact Run.not_good_step hg hf hnext
  have hgood : (∀ done, done <+: calls →
      Run.Good capacity (done.foldl next (Run.start capacity data))) ↔
        Run.AllFit (Run.start capacity data) calls :=
    Histories.good_iff_fits (fun _ _ => True) (fun _ => trivial) (fun _ _ _ => Iff.rfl) hstep
      trivial (Run.good_start capacity data)
  constructor
  · intro h
    refine hgood.mp fun done hd => ?_
    have hafter := (h done hd).1
    rwa [Histories.run_fst_eq_foldl] at hafter
  · intro h done hd
    refine ⟨?_, fun b c d _ hrun => unchanged_of_zero (c.run_eq b ▸ hrun), ?_⟩
    · rw [Histories.run_fst_eq_foldl]
      exact hgood.mpr h done hd
    · let inOrder (s : Run) (cs : List Call) : Prop := s.Good capacity ∧ s.AllFit cs
      have hkeeps : ∀ s c cs, inOrder s (c :: cs) → inOrder (s.step c).1 cs ∧
          (Run.effect c (s.step c).2).Leads s.held (s.step c).1.held := by
        rintro s c cs ⟨hg, hf, hfits⟩
        obtain ⟨hg', hleads⟩ := Run.good_step hg hf
        exact ⟨⟨hg', hfits⟩, hleads⟩
      have hstart : inOrder (Run.start capacity data) done :=
        ⟨Run.good_start capacity data, Run.allFit_of_prefix h hd⟩
      exact joined_eq hkeeps hstart rfl

/-- A push of a negative number of bytes copies outside the buffer. -/
theorem push_negative_leaves_buffer :
    ¬ ∀ calls : List Call, KeepsBounds ⟨8, by decide⟩ (fun _ => 0) calls := by
  intro h
  have hgood := (h [.pushBackRawdata (-1) fun _ => 0] _ List.prefix_rfl).1
  refine Run.not_good_step (Run.good_start ⟨8, by decide⟩ fun _ => 0) (fun hf => ?_) hgood
  exact absurd (hf _ rfl).1 (by decide)

/-! ## The buffers of the plugin -/

/-- A receiver has popped from its buffer what a call of the interface has. -/
structure Pops (r r' : Receiver) (d : Done) : Prop where
  buffer : r'.buffer = d.buffer
  accesses : r'.accesses = r.accesses ++ d.copied.map fun c => .copy c.1 c.2

/-- The receive loop pops raw data as the interface does. -/
theorem pops_popFrontRawdata {r : Receiver} {size : BitVec 32} {d : Done}
    (h : r.buffer.popFrontRawdata size = some d) :
    Pops r (r.popFrontRawdata size.toInt none) d := by
  obtain ⟨sum, hsum, rfl⟩ := Option.map_eq_some_iff.mp h
  cases (intAdd_eq_some hsum).1
  rw [Receiver.popFrontRawdata]
  split
  · exact ⟨rfl, (List.append_nil _).symm⟩
  · exact ⟨rfl, rfl⟩

/-- The memory of a value that was popped is that of the buffer. -/
theorem memory_slice (data : ℕ → UInt8) (start : ℕ) {n i : ℕ} (h : i < n) :
    memory (slice data start (start + n)) i = data (start + i) := by
  rw [memory, slice, Nat.add_sub_cancel_left, List.getD_eq_getElem?_getD, List.getElem?_map,
    List.getElem?_range' h]
  simp

/-- The receive loop pops an `int8_t` as the interface does. -/
theorem pops_popFrontInt8 {r : Receiver} {d : Done} (h : r.buffer.popFrontInt8 = some d)
    (value : BitVec 8) : Pops r (r.popFrontInt8 value).2 d ∧
      (d.result ≠ 0 → (r.popFrontInt8 value).1 = (memory d.value 0).toBitVec) := by
  obtain ⟨sum, hsum, rfl⟩ := Option.map_eq_some_iff.mp h
  cases (intAdd_eq_some hsum).1
  rw [Receiver.popFrontInt8]
  split
  · exact ⟨⟨rfl, (List.append_nil _).symm⟩, fun hne => absurd rfl hne⟩
  · refine ⟨⟨rfl, rfl⟩, fun _ => ?_⟩
    exact congrArg UInt8.toBitVec
      (memory_slice r.buffer.data r.buffer.position.toNat Nat.one_pos).symm

/-- The receive loop pops an `int32_t` as the interface does. -/
theorem pops_popFrontInt32 {r : Receiver} {d : Done} (h : r.buffer.popFrontInt32 = some d)
    (value : BitVec 32) : Pops r (r.popFrontInt32 value).2 d ∧
      (d.result ≠ 0 → (r.popFrontInt32 value).1 = int32At (memory d.value) 0) := by
  obtain ⟨sum, hsum, rfl⟩ := Option.map_eq_some_iff.mp h
  cases (intAdd_eq_some hsum).1
  rw [Receiver.popFrontInt32]
  split
  · exact ⟨⟨rfl, (List.append_nil _).symm⟩, fun hne => absurd rfl hne⟩
  · refine ⟨⟨rfl, rfl⟩, fun _ => ?_⟩
    have hvalue {i : ℕ} (hi : i < 4) : memory (slice r.buffer.data r.buffer.position.toNat
        (r.buffer.position.toNat + toSizeT 4)) i = r.buffer.data (r.buffer.position.toNat + i) :=
      memory_slice r.buffer.data r.buffer.position.toNat hi
    simp only [int32At, Nat.zero_add]
    rw [hvalue (by omega), hvalue (by omega), hvalue (by omega), hvalue (by omega)]
    rfl

/-- A buffer from which nothing is popped contains the bytes of a send buffer. -/
structure Contents (b : Buffer) (s : SendBuffer) : Prop where
  bounded : b.Bounded
  position_eq : b.position = 0
  capacity_eq : b.capacity = s.capacity
  held_eq : b.held = s.data

theorem contents_init (capacity : Capacity) (data : ℕ → UInt8) :
    Contents (init capacity data) (.init capacity) :=
  ⟨⟨le_rfl, le_rfl, Int.natCast_nonneg _⟩, rfl, rfl, rfl⟩

theorem Contents.clear {b : Buffer} {s : SendBuffer} (h : Contents b s) {d : Done}
    (hd : b.clear = some d) : Contents d.buffer s.clear := by
  cases hd
  rw [SendBuffer.clear, ← h.capacity_eq]
  exact contents_init b.capacity b.data

/-- The bytes of a value in memory. -/
theorem slice_memory (bytes : List UInt8) {n : ℕ} (h : n ≤ bytes.length) :
    slice (memory bytes) 0 n = bytes.take n := by
  apply List.ext_getElem?
  intro i
  by_cases hi : i < n
  · rw [slice, List.getElem?_map, List.getElem?_range' (by omega), List.getElem?_take_of_lt hi]
    simp [memory, List.getElem?_eq_getElem (Nat.lt_of_lt_of_le hi h)]
  · rw [List.getElem?_eq_none (by rw [slice, List.length_map, List.length_range']; omega),
      List.getElem?_eq_none (by rw [List.length_take]; omega)]

theorem Contents.length_eq {b : Buffer} {s : SendBuffer} (h : Contents b s) :
    (s.data.length : ℤ) = b.size := by
  have hp := h.position_eq
  have hle := h.bounded.position_le
  rw [← h.held_eq, held, slice, List.length_map, List.length_range', hp]
  omega

/-- A push of some bytes onto the buffer is the push of these bytes onto the send buffer. -/
theorem Contents.pushBack {b : Buffer} {s : SendBuffer} (h : Contents b s) {bytes : List UInt8}
    {value : ℕ → UInt8} (hvalue : slice value 0 bytes.length = bytes) {d : Done}
    (hd : b.pushBack bytes.length value = some d) :
    d.result = (s.pushBack bytes).1 ∧ Contents d.buffer (s.pushBack bytes).2 := by
  have hp := h.position_eq
  have hb := h.bounded
  have hcap := b.capacity.2
  have hsize := h.length_eq
  obtain ⟨sum, hsum, -⟩ := Option.map_eq_some_iff.mp hd
  cases (intAdd_eq_some hsum).1
  rw [SendBuffer.pushBack]
  split
  · rename_i hfull
    rw [pushBack_of_full hsum (by rw [h.capacity_eq]; omega)] at hd
    cases hd
    exact ⟨rfl, h⟩
  · rename_i hfull
    have hroom : b.size + bytes.length ≤ b.capacity.1 := by
      rw [h.capacity_eq]
      omega
    have hlt : (bytes.length : ℤ) < 2 ^ 31 := by omega
    rw [pushBack_of_room hsum hroom] at hd
    cases hd
    refine ⟨rfl, ⟨hb.position_nonneg, ?_, hroom⟩, hp, h.capacity_eq, ?_⟩
    · change b.position ≤ b.size + bytes.length
      omega
    · rw [held_pushed hb (Int.natCast_nonneg _) hlt,
        toSizeT_of_nonneg (Int.natCast_nonneg _) hlt, Int.toNat_natCast, hvalue, h.held_eq]

/-- Pushes of some fields, one after the other, are pushes onto the send buffer. -/
theorem Contents.pushFields {b b' : Buffer} {s : SendBuffer} (h : Contents b s)
    {fields : List (List UInt8)}
    (hd : fields.foldlM (fun b bytes => (b.pushBack bytes.length (memory bytes)).map Done.buffer)
      b = some b') : Contents b' (s.pushFields fields) := by
  induction fields generalizing b s with
  | nil =>
    cases hd
    exact h
  | cons bytes fields ih =>
    rw [List.foldlM_cons] at hd
    obtain ⟨b₁, hb₁, hrest⟩ := Option.bind_eq_some_iff.mp hd
    obtain ⟨d, hpush, rfl⟩ := Option.map_eq_some_iff.mp hb₁
    have hvalue : slice (memory bytes) 0 bytes.length = bytes := by
      rw [slice_memory _ le_rfl, List.take_length]
    exact ih (h.pushBack hvalue hpush).2 hrest

theorem Contents.pushBackInt8 {b : Buffer} {s : SendBuffer} (h : Contents b s) {value : UInt8}
    {d : Done} (hd : b.pushBackInt8 value = some d) :
    d.result = (s.pushBackInt8 value).1 ∧ Contents d.buffer (s.pushBackInt8 value).2 :=
  h.pushBack (slice_memory [value] le_rfl) hd

theorem Contents.pushBackInt32 {b : Buffer} {s : SendBuffer} (h : Contents b s)
    {value : BitVec 32} {d : Done} (hd : b.pushBackInt32 value = some d) :
    d.result = (s.pushBackInt32 value).1 ∧ Contents d.buffer (s.pushBackInt32 value).2 := by
  have hlen := length_int32Bytes value
  refine h.pushBack ?_ (by rw [hlen]; exact hd)
  rw [slice_memory _ le_rfl, List.take_length]

/-- Raw data that are as long as the size says are pushed alike. -/
theorem Contents.pushBackRawdata {b : Buffer} {s : SendBuffer} (h : Contents b s)
    {size : BitVec 32} (h0 : 0 ≤ size.toInt) {rawdata : List UInt8}
    (hlen : size.toInt.toNat ≤ rawdata.length) {d : Done}
    (hd : b.pushBackRawdata size (memory rawdata) = some d) :
    ∃ s', s.pushBackRawdata size rawdata = some (d.result, s') ∧ Contents d.buffer s' := by
  have hsize := h.length_eq
  have hbytes : (rawdata.take size.toInt.toNat).length = size.toInt.toNat := by
    rw [List.length_take, Nat.min_eq_left hlen]
  have hcast : (((rawdata.take size.toInt.toNat).length : ℕ) : ℤ) = size.toInt := by
    rw [hbytes]
    exact Int.toNat_of_nonneg h0
  have hvalue : slice (memory rawdata) 0 (rawdata.take size.toInt.toNat).length =
      rawdata.take size.toInt.toNat := by
    rw [hbytes, slice_memory _ hlen]
  obtain ⟨sum, hsum, -⟩ := Option.map_eq_some_iff.mp hd
  have hlt := (intAdd_eq_some hsum).2
  obtain ⟨hresult, hcontents⟩ := h.pushBack hvalue (by rw [hcast]; exact hd)
  refine ⟨_, ?_, hcontents⟩
  rw [hresult, SendBuffer.pushBackRawdata, if_neg (by omega)]
  split
  · rename_i hfull
    rw [SendBuffer.pushBack, dif_pos (by omega)]
  · rw [if_neg (not_lt.mpr h0)]

end Buffer

end Embb.MtapiNetwork
