import Embb.Lib.Bits
import Embb.Mtapi.Types

/-!
# Core sets, node attributes and the placement of the workers

The core affinity of a node is a set of cores in a word of 64 bits. It is set through the node
attributes, which count its cores, and at initialization every worker looks for the core it is
pinned to. The number of processors of the system is `available`; a failed assertion is `none`.
-/

namespace Embb.Mtapi.CoreAffinity

/-- `embb_core_set_t`, the word `rep`. -/
abbrev CoreSet := BitVec 64

/-! ## Bit sets and core sets -/

def bitsetSet (that : CoreSet) (bit : ℕ) : CoreSet := that ||| 1#64 <<< bit

def bitsetClear (that : CoreSet) (bit : ℕ) : CoreSet := that &&& ~~~ (1#64 <<< bit)

def bitsetIsSet (that : CoreSet) (bit : ℕ) : Bool := decide (that &&& 1#64 <<< bit ≠ 0)

/-- The loop of `embb_bitset_count`, with `left` rounds to go. -/
def bitsetCountFrom (that : CoreSet) : (left : ℕ) → (mask : CoreSet) → (count : ℕ) → ℕ
  | 0, _, count => count
  | left + 1, mask, count =>
    bitsetCountFrom that left (mask <<< 1) (if that &&& mask ≠ 0 then count + 1 else count)

def bitsetCount (that : CoreSet) : ℕ := bitsetCountFrom that 64 1 0

section CoreSets

variable (available : ℕ)

/-- `embb_core_set_init`; the lowest bits are set for at least one core. -/
def coreSetInit (initializer : ℤ) : Option CoreSet :=
  if available < 64 then
    if initializer = 0 then some 0
    else if 0 < available then some (bitsetSetN available) else none
  else none

def coreSetAdd (core_set : CoreSet) (core_number : ℕ) : Option CoreSet :=
  if core_number < available then some (bitsetSet core_set core_number) else none

def coreSetRemove (core_set : CoreSet) (core_number : ℕ) : Option CoreSet :=
  if core_number < available then some (bitsetClear core_set core_number) else none

def coreSetContains (core_set : CoreSet) (core_number : ℕ) : Option Bool :=
  if core_number < available then some (bitsetIsSet core_set core_number) else none

def coreSetIntersection (set1 set2 : CoreSet) : CoreSet := set1 &&& set2

def coreSetUnion (set1 set2 : CoreSet) : CoreSet := set1 ||| set2

def coreSetCount (core_set : CoreSet) : ℕ := bitsetCount core_set

/-- A core set that the functions above have made, in any order and number of calls. -/
inductive Made : CoreSet → Prop
  | init {initializer : ℤ} {s : CoreSet} : coreSetInit available initializer = some s → Made s
  | add {s s' : CoreSet} {c : ℕ} : Made s → coreSetAdd available s c = some s' → Made s'
  | remove {s s' : CoreSet} {c : ℕ} : Made s → coreSetRemove available s c = some s' → Made s'
  | intersection {s t : CoreSet} : Made s → Made t → Made (coreSetIntersection s t)
  | union {s t : CoreSet} : Made s → Made t → Made (coreSetUnion s t)

end CoreSets

/-! ## Node attributes -/

/-- `mtapi_node_attributes_t`. -/
structure NodeAttributes where
  core_affinity : CoreSet
  num_cores : BitVec 32
  type : BitVec 32
  max_tasks : BitVec 32
  max_actions : BitVec 32
  max_groups : BitVec 32
  max_queues : BitVec 32
  queue_limit : BitVec 32
  max_jobs : BitVec 32
  max_actions_per_job : BitVec 32
  max_priorities : BitVec 32
  deriving DecidableEq

/-- The pointer that an attribute is passed by, and the eight bytes it points to. -/
structure Attribute where
  pointer : BitVec 64
  contents : BitVec 64
  deriving DecidableEq

/-- `mtapi_nodeattr_init` for attributes that are not null. -/
def nodeattrInit (available : ℕ) : Option NodeAttributes :=
  match coreSetInit available 1 with
  | none => none
  | some core_affinity =>
    if coreSetCount core_affinity = available then
      some
        { core_affinity := core_affinity
          num_cores := BitVec.ofNat 32 (coreSetCount core_affinity)
          type := 1
          max_tasks := 1024
          max_actions := 1024
          max_groups := 128
          max_queues := 16
          queue_limit := 1024
          max_jobs := 256
          max_actions_per_job := 4
          max_priorities := 4 }
    else none

/-- `embb_mtapi_attr_set_mtapi_uint_t`: the value is copied from where the pointer points to, or
is the pointer. -/
def attrSetUint (target : BitVec 32) (attr : Attribute) (attribute_size : ℕ) :
    Status × BitVec 32 :=
  if attribute_size = 4 then (.success, attr.contents.setWidth 32)
  else if attribute_size = 0 then (.success, attr.pointer.setWidth 32)
  else (.errAttrSize, target)

/-- The cases of `mtapi_nodeattr_set`. -/
def nodeattrSetCases (attributes : NodeAttributes) (attribute_num : ℕ) (attr : Attribute)
    (attribute_size : ℕ) : Status × NodeAttributes :=
  match attribute_num with
  | 0 =>
    if attribute_size = 8 then
      (.success,
        { attributes with
          core_affinity := attr.contents
          num_cores := BitVec.ofNat 32 (coreSetCount attr.contents) })
    else (.errAttrSize, attributes)
  | 1 => (.errAttrReadonly, attributes)
  | 2 =>
    let (status, type) := attrSetUint attributes.type attr attribute_size
    (status, { attributes with type := type })
  | 3 =>
    let (status, max_tasks) := attrSetUint attributes.max_tasks attr attribute_size
    (status, { attributes with max_tasks := max_tasks })
  | 4 =>
    let (status, max_actions) := attrSetUint attributes.max_actions attr attribute_size
    (status, { attributes with max_actions := max_actions })
  | 5 =>
    let (status, max_groups) := attrSetUint attributes.max_groups attr attribute_size
    (status, { attributes with max_groups := max_groups })
  | 6 =>
    let (status, max_queues) := attrSetUint attributes.max_queues attr attribute_size
    (status, { attributes with max_queues := max_queues })
  | 7 =>
    let (status, queue_limit) := attrSetUint attributes.queue_limit attr attribute_size
    (status, { attributes with queue_limit := queue_limit })
  | 8 =>
    let (status, max_jobs) := attrSetUint attributes.max_jobs attr attribute_size
    (status, { attributes with max_jobs := max_jobs })
  | 9 =>
    let (status, max_actions_per_job) :=
      attrSetUint attributes.max_actions_per_job attr attribute_size
    (status, { attributes with max_actions_per_job := max_actions_per_job })
  | 10 =>
    let (status, max_priorities) :=
      attrSetUint attributes.max_priorities attr attribute_size
    (status, { attributes with max_priorities := max_priorities })
  | _ => (.errAttrNum, attributes)

/-- `mtapi_nodeattr_set` for attributes that are not null. -/
def nodeattrSet (attributes : NodeAttributes) (attribute_num : ℕ) (attr : Attribute)
    (attribute_size : ℕ) : Status × NodeAttributes :=
  if attribute_size ≠ 0 ∧ attr.pointer = 0 then (.errParameter, attributes)
  else nodeattrSetCases attributes attribute_num attr attribute_size

/-- What `mtapi_node_get_attribute` writes to where the attribute points to. -/
inductive Written where
  | coreSet (core_set : CoreSet)
  | uint (value : BitVec 32)
  deriving DecidableEq

/-- `embb_mtapi_attr_get_mtapi_uint_t`. -/
def attrGetUint (source : BitVec 32) (attribute_size : ℕ) : Status × Option Written :=
  if attribute_size = 4 then (.success, some (.uint source)) else (.errAttrSize, none)

/-- The cases of `mtapi_node_get_attribute`. -/
def nodeGetAttributeCases (attributes : NodeAttributes) (attribute_num attribute_size : ℕ) :
    Status × Option Written :=
  match attribute_num with
  | 0 =>
    if attribute_size = 8 then (.success, some (.coreSet attributes.core_affinity))
    else (.errAttrSize, none)
  | 1 => attrGetUint attributes.num_cores attribute_size
  | 2 => attrGetUint attributes.type attribute_size
  | 3 => attrGetUint attributes.max_tasks attribute_size
  | 4 => attrGetUint attributes.max_actions attribute_size
  | 5 => attrGetUint attributes.max_groups attribute_size
  | 6 => attrGetUint attributes.max_queues attribute_size
  | 7 => attrGetUint attributes.queue_limit attribute_size
  | 8 => attrGetUint attributes.max_jobs attribute_size
  | 9 => attrGetUint attributes.max_actions_per_job attribute_size
  | 10 => attrGetUint attributes.max_priorities attribute_size
  | _ => (.errAttrNum, none)

/-- What a node keeps from its initialization: its number and its attributes. -/
structure LocalNode where
  node_id : BitVec 32
  attributes : NodeAttributes

/-- `mtapi_node_get_attribute`; the local node is none before the initialization. -/
def nodeGetAttribute (local_node : Option LocalNode) (node : BitVec 32) (attribute_num : ℕ)
    (isNull : Bool) (attribute_size : ℕ) : Status × Option Written :=
  match local_node with
  | none => (.errNodeNotinit, none)
  | some local_node =>
    if local_node.node_id = node then
      if isNull then (.errParameter, none)
      else nodeGetAttributeCases local_node.attributes attribute_num attribute_size
    else (.errNodeNotinit, none)

/-! ## The workers of a node -/

/-- What a thread context keeps of the worker: its index and its core. -/
structure ThreadContext where
  worker_index : ℕ
  core_num : ℕ
  deriving DecidableEq

section Scheduler

variable (available : ℕ)

/-- The loop that finds the core of worker `ii`: `ll` cores of the set are below `core_num`. -/
def findCore (core_affinity : CoreSet) (ii ll core_num : ℕ) : Option ℕ :=
  if core_num < available then
    if bitsetIsSet core_affinity core_num then
      if ll = ii then some core_num else findCore core_affinity ii (ll + 1) (core_num + 1)
    else findCore core_affinity ii ll (core_num + 1)
  else none
termination_by available - core_num

/-- The contexts that `embb_mtapi_scheduler_initialize_with_mode` makes. -/
def initializeContexts (attributes : NodeAttributes) : Option (List ThreadContext) :=
  if attributes.num_cores.toNat = coreSetCount attributes.core_affinity then
    (List.range attributes.num_cores.toNat).mapM fun ii =>
      (findCore available attributes.core_affinity ii 0 0).map (⟨ii, ·⟩)
  else none

/-- The core set that `embb_mtapi_thread_context_start` creates the thread with. -/
def startCores (context : ThreadContext) : Option CoreSet :=
  match coreSetInit available 0 with
  | none => none
  | some core_set => coreSetAdd available core_set context.core_num

end Scheduler

/-! ## What the bit operations say of a core set -/

variable {available : ℕ} {that s t : CoreSet} {i c : ℕ}

theorem bitsetIsSet_iff (hi : i < 64) : bitsetIsSet that i = true ↔ that.getLsbD i = true := by
  rw [bitsetIsSet, decide_eq_true_iff, ne_eq, Bits.and_bit_eq_zero_iff hi, Bool.not_eq_false]

theorem bitsetCountFrom_eq (left : ℕ) : ∀ {i : ℕ}, i + left = 64 → ∀ count,
    bitsetCountFrom that left (1#64 <<< i) count =
      count + ((List.range' i left).filter (that.getLsbD ·)).length := by
  induction left with
  | zero => exact fun _ count => rfl
  | succ left ih =>
    intro i hi count
    have hbit := Bits.and_bit_eq_zero_iff (v := that) (show i < 64 by omega)
    rw [bitsetCountFrom, ← BitVec.shiftLeft_add, ih (by omega), List.range'_succ,
      List.filter_cons]
    cases hv : that.getLsbD i with
    | false => simp only [hbit.mpr hv, ne_eq, not_true_eq_false, if_false, Bool.false_eq_true]
    | true =>
      have hne : that &&& 1#64 <<< i ≠ 0 := fun h => by rw [hbit.mp h] at hv; cases hv
      rw [if_pos hne, if_pos rfl, List.length_cons]
      omega

theorem bitsetCount_eq (that : CoreSet) : bitsetCount that = (Bits.positions that).length := by
  have h := @bitsetCountFrom_eq that 64 0 (Nat.zero_add 64) 0
  rw [Nat.zero_add, ← List.range_eq_range'] at h
  exact h

theorem bitsetCount_le (that : CoreSet) : bitsetCount that ≤ 64 :=
  (bitsetCount_eq that).trans_le Bits.length_positions_le

theorem getLsbD_bitsetSetN_iff {count : ℕ} (hcount : count ≤ 64) :
    (bitsetSetN count).getLsbD i = true ↔ i < count := by
  unfold bitsetSetN
  split
  · next h => rw [BitVec.getLsbD_allOnes, decide_eq_true_iff, h]
  · rw [BitVec.getLsbD_ofNat, Nat.testBit_two_pow_sub_one, Bool.and_eq_true, decide_eq_true_iff,
      decide_eq_true_iff]
    omega

theorem positions_bitsetSetN {count : ℕ} (hcount : count ≤ 64) :
    Bits.positions (bitsetSetN count) = List.range count := by
  rw [Bits.positions_eq_filter hcount fun i => (getLsbD_bitsetSetN_iff hcount).mp,
    List.filter_eq_self]
  exact fun i hi => (getLsbD_bitsetSetN_iff hcount).mpr (List.mem_range.mp hi)

/-- The cores of a set are cores of the system. -/
def Within (available : ℕ) (s : CoreSet) : Prop := ∀ i, s.getLsbD i = true → i < available

theorem coreSetInit_within {initializer : ℤ} (h : coreSetInit available initializer = some s) :
    Within available s := by
  unfold coreSetInit at h
  split_ifs at h with hb h0 ha
  · cases h
    intro i hi
    rw [BitVec.ofNat_eq_ofNat, BitVec.getLsbD_zero] at hi
    cases hi
  · cases h
    exact fun i => (getLsbD_bitsetSetN_iff hb.le).mp

theorem Made.within (h : Made available s) : Within available s := by
  induction h with
  | init h => exact coreSetInit_within h
  | @add s s' c _ h ih =>
    unfold coreSetAdd at h
    split_ifs at h with hc
    cases h
    intro i hi
    rw [bitsetSet, BitVec.getLsbD_or, Bool.or_eq_true, Bits.getLsbD_bit, Bool.and_eq_true,
      decide_eq_true_iff, decide_eq_true_iff] at hi
    rcases hi with hi | ⟨-, rfl⟩
    · exact ih i hi
    · exact hc
  | @remove s s' c _ h ih =>
    unfold coreSetRemove at h
    split_ifs at h with hc
    cases h
    exact fun i hi => ih i (Bits.getLsbD_and_not_bit.mp hi).1
  | intersection _ _ ihs iht =>
    intro i hi
    rw [coreSetIntersection, BitVec.getLsbD_and, Bool.and_eq_true] at hi
    exact ihs i hi.1
  | union _ _ ihs iht =>
    intro i hi
    rw [coreSetUnion, BitVec.getLsbD_or, Bool.or_eq_true] at hi
    exact hi.elim (ihs i) (iht i)

/-! ## Histories of the attributes -/

/-- A call on the attributes of the node to come. -/
inductive Request where
  | init
  | set (attribute_num : ℕ) (attr : Attribute) (attribute_size : ℕ)

def Request.apply (available : ℕ) (attributes : NodeAttributes) :
    Request → Option NodeAttributes
  | .init => nodeattrInit available
  | .set attribute_num attr attribute_size =>
    some (nodeattrSet attributes attribute_num attr attribute_size).2

def runFrom (available : ℕ) (attributes : NodeAttributes) : List Request → Option NodeAttributes
  | [] => some attributes
  | r :: requests =>
    match r.apply available attributes with
    | none => none
    | some attributes' => runFrom available attributes' requests

/-- The attributes are initialized first. -/
def runRequests (available : ℕ) (requests : List Request) : Option NodeAttributes :=
  match nodeattrInit available with
  | none => none
  | some attributes => runFrom available attributes requests

/-- What is handed over as a core set has been made by the functions for core sets. -/
def Request.WellFormed (available : ℕ) : Request → Prop
  | .init => True
  | .set attribute_num attr attribute_size =>
    attribute_num = 0 → attribute_size = 8 → attr.pointer ≠ 0 → Made available attr.contents

/-- The cores that the caller has asked for, where `cores` were asked for before. -/
def Request.asked (available : ℕ) (cores : ℕ → Prop) : Request → ℕ → Prop
  | .init => (· < available)
  | .set attribute_num attr attribute_size =>
    if attribute_num = 0 ∧ attribute_size = 8 ∧ attr.pointer ≠ 0 then
      (attr.contents.getLsbD · = true)
    else cores

/-- The attributes that are plain values, by their numbers. -/
def field (attribute_num : ℕ) (attributes : NodeAttributes) : Option (BitVec 32) :=
  match attribute_num with
  | 2 => some attributes.type
  | 3 => some attributes.max_tasks
  | 4 => some attributes.max_actions
  | 5 => some attributes.max_groups
  | 6 => some attributes.max_queues
  | 7 => some attributes.queue_limit
  | 8 => some attributes.max_jobs
  | 9 => some attributes.max_actions_per_job
  | 10 => some attributes.max_priorities
  | _ => none

/-- The values of new attributes. -/
def defaults (attribute_num : ℕ) : Option (BitVec 32) :=
  match attribute_num with
  | 2 => some 1
  | 3 | 4 | 7 => some 1024
  | 5 => some 128
  | 6 => some 16
  | 8 => some 256
  | 9 | 10 => some 4
  | _ => none

/-- The values that the attributes have been given, where they were `value` before. -/
def Request.given (value : ℕ → Option (BitVec 32)) : Request → ℕ → Option (BitVec 32)
  | .init => defaults
  | .set attribute_num attr attribute_size =>
    if attribute_size = 4 ∧ attr.pointer ≠ 0 then
      Function.update value attribute_num
        ((value attribute_num).map fun _ => attr.contents.setWidth 32)
    else if attribute_size = 0 then
      Function.update value attribute_num
        ((value attribute_num).map fun _ => attr.pointer.setWidth 32)
    else value

/-- What holds of the attributes between two calls. -/
structure Inv (cores : ℕ → Prop) (value : ℕ → Option (BitVec 32)) (attributes : NodeAttributes) :
    Prop where
  counted : attributes.num_cores = BitVec.ofNat 32 (coreSetCount attributes.core_affinity)
  asked : ∀ c, attributes.core_affinity.getLsbD c = true ↔ cores c
  values : ∀ attribute_num, field attribute_num attributes = value attribute_num

variable {cores : ℕ → Prop} {value : ℕ → Option (BitVec 32)} {attributes : NodeAttributes}

theorem Inv.toNat_num_cores (h : Inv cores value attributes) :
    attributes.num_cores.toNat = (Bits.positions attributes.core_affinity).length := by
  have hle := bitsetCount_le attributes.core_affinity
  rw [h.counted, BitVec.toNat_ofNat, Nat.mod_eq_of_lt (by unfold coreSetCount; omega)]
  exact bitsetCount_eq _

theorem nodeattrInit_spec (ha : 0 < available) (hb : available < 64) :
    ∃ attributes, nodeattrInit available = some attributes ∧
      Inv (· < available) defaults attributes := by
  have hset : coreSetInit available 1 = some (bitsetSetN available) := by
    rw [coreSetInit, if_pos hb, if_neg (by decide), if_pos ha]
  have hcount : coreSetCount (bitsetSetN available) = available := by
    rw [coreSetCount, bitsetCount_eq, positions_bitsetSetN hb.le, List.length_range]
  refine ⟨_, by rw [nodeattrInit, hset]; exact if_pos hcount, rfl, ?_, fun n => ?_⟩
  · exact fun c => getLsbD_bitsetSetN_iff hb.le
  · unfold field defaults
    split <;> first | rfl | (split <;> first | rfl | contradiction)

/-- Only the core affinity can change the cores of a node. -/
theorem nodeattrSetCases_of_ne (attributes : NodeAttributes) {attribute_num : ℕ}
    (h : attribute_num ≠ 0) (attr : Attribute) (attribute_size : ℕ) :
    (nodeattrSetCases attributes attribute_num attr attribute_size).2.core_affinity =
        attributes.core_affinity ∧
      (nodeattrSetCases attributes attribute_num attr attribute_size).2.num_cores =
        attributes.num_cores := by
  unfold nodeattrSetCases
  split
  · exact absurd rfl h
  all_goals exact ⟨rfl, rfl⟩

/-- A value is assigned at its own number, -/
theorem field_nodeattrSetCases_self (attributes : NodeAttributes) (attribute_num : ℕ)
    (attr : Attribute) (attribute_size : ℕ) :
    field attribute_num (nodeattrSetCases attributes attribute_num attr attribute_size).2 =
      (field attribute_num attributes).map fun target =>
        (attrSetUint target attr attribute_size).2 := by
  unfold nodeattrSetCases
  split
  · split_ifs <;> rfl
  all_goals first | rfl | skip
  unfold field
  split <;> first | rfl | contradiction

/-- and at no other number. -/
theorem field_nodeattrSetCases_of_ne (attributes : NodeAttributes) {attribute_num n : ℕ}
    (h : n ≠ attribute_num) (attr : Attribute) (attribute_size : ℕ) :
    field n (nodeattrSetCases attributes attribute_num attr attribute_size).2 =
      field n attributes := by
  unfold nodeattrSetCases
  split
  · split_ifs <;> rfl
  all_goals unfold field; split <;> first | rfl | exact absurd rfl h

theorem attrSetUint_snd {target : BitVec 32} {attr : Attribute} {attribute_size : ℕ} :
    (attrSetUint target attr attribute_size).2 =
      if attribute_size = 4 then attr.contents.setWidth 32
      else if attribute_size = 0 then attr.pointer.setWidth 32 else target := by
  unfold attrSetUint
  split_ifs <;> rfl

theorem Inv.nodeattrSet_values (h : Inv cores value attributes) (attribute_num : ℕ)
    (attr : Attribute) (attribute_size n : ℕ) :
    field n (nodeattrSet attributes attribute_num attr attribute_size).2 =
      Request.given value (.set attribute_num attr attribute_size) n := by
  rw [Request.given]
  by_cases hnull : attribute_size ≠ 0 ∧ attr.pointer = 0
  · rw [nodeattrSet, if_pos hnull, if_neg fun h => h.2 hnull.2, if_neg hnull.1, h.values]
  rw [nodeattrSet, if_neg hnull]
  rcases eq_or_ne n attribute_num with rfl | hne
  · rw [field_nodeattrSetCases_self, h.values]
    simp only [attrSetUint_snd]
    by_cases h4 : attribute_size = 4
    · rw [if_pos ⟨h4, fun he => hnull ⟨by omega, he⟩⟩, Function.update_self]
      simp only [h4, if_true]
    · rw [if_neg fun h => h4 h.1]
      split_ifs with h0
      · rw [Function.update_self]
      · exact Option.map_id'
  · rw [field_nodeattrSetCases_of_ne attributes hne, h.values]
    split_ifs
    · rw [Function.update_of_ne hne]
    · rw [Function.update_of_ne hne]
    · rfl

theorem Inv.apply (h : Inv cores value attributes) (ha : 0 < available) (hb : available < 64)
    (r : Request) :
    ∃ attributes', r.apply available attributes = some attributes' ∧
      Inv (r.asked available cores) (r.given value) attributes' := by
  cases r with
  | init => exact nodeattrInit_spec ha hb
  | set attribute_num attr attribute_size =>
    refine ⟨_, rfl, ?_⟩
    have hvalues := h.nodeattrSet_values attribute_num attr attribute_size
    by_cases hnull : attribute_size ≠ 0 ∧ attr.pointer = 0
    · rw [nodeattrSet, if_pos hnull] at hvalues ⊢
      rw [Request.asked, if_neg fun h => h.2.2 hnull.2]
      exact ⟨h.counted, h.asked, hvalues⟩
    rw [nodeattrSet, if_neg hnull] at hvalues ⊢
    rcases eq_or_ne attribute_num 0 with rfl | hnum
    · by_cases hsize : attribute_size = 8
      · have hpointer : attr.pointer ≠ 0 := fun he => hnull ⟨by omega, he⟩
        rw [nodeattrSetCases, if_pos hsize] at hvalues ⊢
        rw [Request.asked, if_pos ⟨rfl, hsize, hpointer⟩]
        exact ⟨rfl, fun c => Iff.rfl, hvalues⟩
      · rw [nodeattrSetCases, if_neg hsize] at hvalues ⊢
        rw [Request.asked, if_neg fun h => hsize h.2.1]
        exact ⟨h.counted, h.asked, hvalues⟩
    · rw [Request.asked, if_neg fun h => hnum h.1]
      obtain ⟨haff, hcores⟩ := nodeattrSetCases_of_ne attributes hnum attr attribute_size
      exact ⟨by rw [haff, hcores]; exact h.counted, by rw [haff]; exact h.asked, hvalues⟩

theorem Inv.runFrom (ha : 0 < available) (hb : available < 64) (requests : List Request) :
    ∀ {cores : ℕ → Prop} {value : ℕ → Option (BitVec 32)} {attributes : NodeAttributes},
      Inv cores value attributes →
      ∃ attributes', CoreAffinity.runFrom available attributes requests = some attributes' ∧
        Inv (requests.foldl (Request.asked available) cores) (requests.foldl Request.given value)
          attributes' := by
  induction requests with
  | nil => exact fun h => ⟨_, rfl, h⟩
  | cons r requests ih =>
    intro cores value attributes h
    obtain ⟨attributes', happly, hinv⟩ := h.apply ha hb r
    obtain ⟨last, hrun, hlast⟩ := ih hinv
    exact ⟨last, by rw [CoreAffinity.runFrom, happly]; exact hrun, hlast⟩

/-- Over every history of calls the core affinity is what was asked for last, the number of cores
is the number of its elements, and the values are those given last. -/
theorem runRequests_spec (ha : 0 < available) (hb : available < 64) (requests : List Request) :
    ∃ attributes, runRequests available requests = some attributes ∧
      Inv (requests.foldl (Request.asked available) (· < available))
        (requests.foldl Request.given defaults) attributes := by
  obtain ⟨attributes, hinit, hinv⟩ := nodeattrInit_spec ha hb
  obtain ⟨last, hrun, hlast⟩ := hinv.runFrom ha hb requests
  exact ⟨last, by rw [runRequests, hinit]; exact hrun, hlast⟩

/-- When the core sets are well-formed, only processors of the system are asked for. -/
theorem asked_lt {requests : List Request} :
    ∀ {cores : ℕ → Prop}, (∀ c, cores c → c < available) →
      (∀ r ∈ requests, r.WellFormed available) →
      ∀ c, requests.foldl (Request.asked available) cores c → c < available := by
  induction requests with
  | nil => exact fun h _ => h
  | cons r requests ih =>
    intro cores h hr
    refine ih ?_ fun r' h' => hr r' (List.mem_cons_of_mem r h')
    have hwell := hr r List.mem_cons_self
    cases r with
    | init => exact fun c hc => hc
    | set attribute_num attr attribute_size =>
      by_cases hset : attribute_num = 0 ∧ attribute_size = 8 ∧ attr.pointer ≠ 0
      · simp only [Request.asked, if_pos hset]
        exact (hwell hset.1 hset.2.1 hset.2.2).within
      · simp only [Request.asked, if_neg hset]
        exact h

theorem nodeGetAttribute_value {attribute_num : ℕ} {v : BitVec 32}
    (h : field attribute_num attributes = some v) (node : BitVec 32) :
    nodeGetAttribute (some ⟨node, attributes⟩) node attribute_num false 4 =
      (.success, some (.uint v)) := by
  rw [nodeGetAttribute, if_pos rfl, if_neg Bool.false_ne_true]
  unfold field at h
  unfold nodeGetAttributeCases
  split at h <;> cases h <;> rfl

/-- Whatever calls have been made on the attributes, a node that starts with them reports the
values that were given last, the core set that was asked for last, and its number of cores. -/
theorem node_reports_last (ha : 0 < available) (hb : available < 64) (requests : List Request)
    (node : BitVec 32) :
    ∃ attributes, runRequests available requests = some attributes ∧
      (∀ attribute_num v, requests.foldl Request.given defaults attribute_num = some v →
        nodeGetAttribute (some ⟨node, attributes⟩) node attribute_num false 4 =
          (.success, some (.uint v))) ∧
      ∃ core_set, nodeGetAttribute (some ⟨node, attributes⟩) node 0 false 8 =
          (.success, some (.coreSet core_set)) ∧
        (∀ c, core_set.getLsbD c = true ↔
          requests.foldl (Request.asked available) (· < available) c) ∧
        nodeGetAttribute (some ⟨node, attributes⟩) node 1 false 4 =
          (.success, some (.uint (BitVec.ofNat 32 (Bits.positions core_set).length))) := by
  obtain ⟨attributes, hrun, hinv⟩ := runRequests_spec ha hb requests
  refine ⟨attributes, hrun, fun n v h => nodeGetAttribute_value ((hinv.values n).trans h) node,
    attributes.core_affinity, ?_, hinv.asked, ?_⟩
  · rw [nodeGetAttribute, if_pos rfl, if_neg Bool.false_ne_true]
    rfl
  · rw [nodeGetAttribute, if_pos rfl, if_neg Bool.false_ne_true, ← bitsetCount_eq]
    exact congrArg (fun v => (Status.success, some (Written.uint v))) hinv.counted

/-- Two assignments of one value, a rejected one after them, and a core set. -/
theorem node_reports_last_two :
    ∃ attributes,
      runRequests 4 [.set 3 ⟨8, 64⟩ 4, .set 3 ⟨32, 0⟩ 0, .set 3 ⟨8, 7⟩ 8, .set 0 ⟨8, 10⟩ 8] =
        some attributes ∧
      nodeGetAttribute (some ⟨1, attributes⟩) 1 3 false 4 = (.success, some (.uint 32)) := by
  obtain ⟨attributes, hrun, hvalues, -⟩ := @node_reports_last 4 (by decide)
    (by decide) [.set 3 ⟨8, 64⟩ 4, .set 3 ⟨32, 0⟩ 0, .set 3 ⟨8, 7⟩ 8, .set 0 ⟨8, 10⟩ 8] 1
  exact ⟨attributes, hrun, hvalues 3 32 (by decide)⟩

/-! ## The placement -/

/-- The search counts the cores of the set from `core_num` on. -/
theorem findCore_eq (hb : available ≤ 64) (v : CoreSet) (ii : ℕ) (n : ℕ) :
    ∀ {ll core_num : ℕ}, ll ≤ ii → core_num + n = available →
      findCore available v ii ll core_num =
        ((List.range' core_num n).filter (v.getLsbD ·))[ii - ll]? := by
  induction n with
  | zero =>
    intro ll core_num _ hn
    rw [findCore, if_neg (by omega)]
    rfl
  | succ n ih =>
    intro ll core_num hll hn
    rw [findCore, if_pos (by omega), Bits.filter_range'_getElem?]
    refine if_congr (bitsetIsSet_iff (by omega)) ?_ (ih hll (by omega))
    by_cases he : ll = ii
    · rw [if_pos he, if_pos (by omega)]
    · rw [if_neg he, if_neg (by omega), ih (by omega) (by omega), Nat.sub_sub]

theorem findCore_zero (hb : available ≤ 64) {v : CoreSet} (hv : Within available v) (ii : ℕ) :
    findCore available v ii 0 0 = (Bits.positions v)[ii]? := by
  rw [findCore_eq hb v ii available (Nat.zero_le ii) (Nat.zero_add _),
    Bits.positions_eq_filter hb hv, List.range_eq_range', Nat.sub_zero]

/-- The contexts of the workers whose cores are listed. -/
def contextsOf (cores : List ℕ) : List ThreadContext :=
  (List.range cores.length).map fun ii => ⟨ii, cores.getD ii 0⟩

theorem contextsOf_worker_index (cores : List ℕ) :
    (contextsOf cores).map ThreadContext.worker_index = List.range cores.length := by
  rw [contextsOf, List.map_map]
  exact List.map_id _

theorem contextsOf_core_num (cores : List ℕ) :
    (contextsOf cores).map ThreadContext.core_num = cores := by
  rw [contextsOf, List.map_map]
  apply List.ext_getElem
  · rw [List.length_map, List.length_range]
  · intro i h h'
    rw [List.getElem_map, List.getElem_range]
    exact (List.getD_eq_getElem?_getD).trans (by rw [List.getElem?_eq_getElem h']; rfl)

theorem initializeContexts_eq (h : Inv cores value attributes) (hb : available ≤ 64)
    (hv : Within available attributes.core_affinity) :
    initializeContexts available attributes =
      some (contextsOf (Bits.positions attributes.core_affinity)) := by
  have hnum := h.toNat_num_cores
  have hcount : attributes.num_cores.toNat = coreSetCount attributes.core_affinity :=
    hnum.trans (bitsetCount_eq _).symm
  rw [initializeContexts, if_pos hcount, hnum]
  refine Bits.mapM_eq_map fun ii hii => ?_
  have hlt := List.mem_range.mp hii
  rw [findCore_zero hb hv, List.getD_eq_getElem?_getD, List.getElem?_eq_getElem hlt]
  rfl

theorem startCores_eq (hb : available < 64) {context : ThreadContext}
    (h : context.core_num < available) :
    ∃ s, startCores available context = some s ∧
      ∀ c, s.getLsbD c = true ↔ c = context.core_num := by
  refine ⟨bitsetSet 0 context.core_num, ?_, fun c => ?_⟩
  · rw [startCores, coreSetInit, if_pos hb, if_pos rfl]
    exact if_pos h
  · rw [bitsetSet, Bits.getLsbD_or_bit (by omega), BitVec.ofNat_eq_ofNat, BitVec.getLsbD_zero]
    simp only [Bool.false_eq_true, false_or]

/-- Over every history of the attributes the workers are pinned to different cores, in ascending
order, one to each core that was asked for last, and no assertion fails on the way. -/
theorem workers_pinned (ha : 0 < available) (hb : available < 64) {requests : List Request}
    (hr : ∀ r ∈ requests, r.WellFormed available) :
    ∃ attributes contexts, runRequests available requests = some attributes ∧
      initializeContexts available attributes = some contexts ∧
      contexts.map ThreadContext.worker_index = List.range attributes.num_cores.toNat ∧
      (contexts.map ThreadContext.core_num).Pairwise (· < ·) ∧
      (∀ c, c ∈ contexts.map ThreadContext.core_num ↔
        requests.foldl (Request.asked available) (· < available) c) ∧
      ∀ context ∈ contexts, ∃ s, startCores available context = some s ∧
        ∀ c, s.getLsbD c = true ↔ c = context.core_num := by
  obtain ⟨attributes, hrun, hinv⟩ := runRequests_spec ha hb requests
  have hwithin : Within available attributes.core_affinity := fun c hc =>
    asked_lt (fun c h => h) hr c ((hinv.asked c).mp hc)
  refine ⟨attributes, _, hrun, initializeContexts_eq hinv hb.le hwithin, ?_, ?_, fun c => ?_,
    fun context hcontext => startCores_eq hb ?_⟩
  · rw [contextsOf_worker_index, hinv.toNat_num_cores]
  · rw [contextsOf_core_num]
    exact Bits.pairwise_positions
  · rw [contextsOf_core_num, Bits.mem_positions]
    exact hinv.asked c
  · have hmem := List.mem_map_of_mem (f := ThreadContext.core_num) hcontext
    rw [contextsOf_core_num, Bits.mem_positions] at hmem
    exact hwithin _ hmem

/-- Four processors; the node is restricted to the second and the fourth of them. -/
theorem workers_pinned_two :
    ∃ attributes contexts,
      runRequests 4 [.set 0 ⟨8, 10⟩ 8, .set 1 ⟨8, 7⟩ 4, .set 8 ⟨12, 0⟩ 0] = some attributes ∧
      initializeContexts 4 attributes = some contexts ∧
      (contexts.map ThreadContext.core_num).Pairwise (· < ·) ∧
      ∀ c, c ∈ contexts.map ThreadContext.core_num ↔ (10#64).getLsbD c = true := by
  have hmade : Made 4 10#64 := .add (s := 2#64) (c := 3)
    (.add (s := 0#64) (c := 1) (@Made.init 4 0 _ rfl) rfl) rfl
  obtain ⟨attributes, contexts, hrun, hcontexts, -, hlt, hcores, -⟩ :=
    @workers_pinned 4 (by decide) (by decide)
      [.set 0 ⟨8, 10⟩ 8, .set 1 ⟨8, 7⟩ 4, .set 8 ⟨12, 0⟩ 0] (by
        intro r hr
        simp only [List.mem_cons, List.not_mem_nil, or_false] at hr
        rcases hr with rfl | rfl | rfl
        · exact fun _ _ _ => hmade
        · exact fun h => by cases h
        · exact fun h => by cases h)
  exact ⟨attributes, contexts, hrun, hcontexts, hlt, hcores⟩

end Embb.Mtapi.CoreAffinity
