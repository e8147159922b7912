import Mathlib.Algebra.Ring.Nat
import Mathlib.Data.Nat.Basic
import Mathlib.Data.Nat.Bits
import Mathlib.Tactic.Common

/-!
# Aligned allocation with a header

A debug build keeps three words in front of an aligned block: a flag, the address that `malloc`
returned and the number of bytes. The block is a little larger than the payload, and the code
searches in it for an aligned address that leaves room for the words.
-/

namespace Embb.Base

/-- The number of values of a `size_t`. -/
def sizeRange : Nat := 2 ^ 64

/-- `sizeof(size_t)`. -/
def sizeofSizeT : Nat := 8

/-- `additional_bytes`. -/
def additionalBytes : Nat := sizeofSizeT * 3

/-- `n`, the number of aligned sections for the payload. -/
def sections (alignment size : Nat) : Nat :=
  (size + (alignment - 1)) % sizeRange / alignment

/-- `bytes_to_allocate`. -/
def bytesToAllocate (alignment size : Nat) : Nat :=
  ((sections alignment size + 1) * alignment + (additionalBytes - 1)) % sizeRange

/-- The complement of `alignment - 1`. -/
def alignmentMask (alignment : Nat) : Nat := sizeRange - 1 - (alignment - 1)

/-- The search for an aligned address behind the words. The pointer difference is signed; the
search gives up only when the fuel is spent. -/
def searchAligned (alignment allocated : Nat) : Nat → Nat → Option Nat
  | 0, _ => none
  | fuel + 1, x =>
    if (x : Int) - allocated < additionalBytes then
      searchAligned alignment allocated fuel ((x + alignment) % sizeRange)
    else some x

/-- `ALIGNED_ALLOCATION`. -/
def alignedAllocation : Nat := 0x99AABB11

/-- What an allocation leaves behind: the pointer returned, the block it lies in, and the words
stored, each with its address. -/
structure Allocation where
  x : Nat
  allocated : Nat
  bytes : Nat
  words : List (Nat × Nat)
  deriving DecidableEq, Repr

/-- `embb_alloc_aligned` in a debug build; `malloc` returns zero where it fails. The outer result
is missing if the search runs out of fuel. -/
def allocAligned (malloc : Nat → Nat) (fuel alignment size : Nat) : Option (Option Allocation) :=
  let bytes := bytesToAllocate alignment size
  let allocated := malloc bytes
  if allocated = 0 then some none
  else
    (searchAligned alignment allocated fuel
      ((allocated + alignment) % sizeRange &&& alignmentMask alignment)).map fun x =>
        some ⟨x, allocated, bytes, [(x - sizeofSizeT, alignedAllocation),
          (x - 2 * sizeofSizeT, allocated), (x - 3 * sizeofSizeT, bytes)]⟩

/-- The three assertions at the end of the search. -/
structure Asserted (alignment size : Nat) (a : Allocation) : Prop where
  payload : size ≤ ((a.allocated + a.bytes) % sizeRange + sizeRange - a.x) % sizeRange
  aligned : a.x % alignment = 0
  additional : a.allocated ≤ a.x - additionalBytes

/-- The mask clears the bits below the alignment. -/
theorem and_alignmentMask {k y : Nat} (hk : k < 64) (hy : y < sizeRange) :
    y &&& alignmentMask (2 ^ k) = 2 ^ k * (y / 2 ^ k) := by
  have hmask : alignmentMask (2 ^ k) = 2 ^ k * (2 ^ (64 - k) - 1) := by
    have hpow : 2 ^ k * 2 ^ (64 - k) = sizeRange := by
      rw [← Nat.pow_add, Nat.add_sub_cancel' (Nat.le_of_lt hk)]
      rfl
    have hpos : 0 < 2 ^ k := Nat.two_pow_pos k
    rw [alignmentMask, Nat.mul_sub_one, hpow]
    omega
  apply Nat.eq_of_testBit_eq
  intro i
  rw [Nat.testBit_and, hmask, Nat.testBit_two_pow_mul, Nat.testBit_two_pow_mul,
    Nat.testBit_two_pow_sub_one, Nat.testBit_div_two_pow]
  by_cases hki : k ≤ i
  · rw [Nat.sub_add_cancel hki]
    by_cases hi : i < 64
    · simp [hki, show i - k < 64 - k by omega]
    · have hbit : y.testBit i = false := by
        refine Nat.testBit_lt_two_pow (Nat.lt_of_lt_of_le hy ?_)
        exact Nat.pow_le_pow_right (by decide) (not_lt.mp hi)
      rw [hbit, Bool.false_and, Bool.and_false]
  · simp [hki]

/-- The search ends at an aligned address that leaves room for the words, and passes it by less
than one step. -/
theorem searchAligned_spec {alignment allocated : Nat} (ha : 0 < alignment)
    (hend : allocated + (additionalBytes - 1) + alignment < sizeRange) {fuel x : Nat}
    (hfuel : allocated + additionalBytes - x < fuel) (hx : alignment ∣ x)
    (hle : x ≤ allocated + (additionalBytes - 1) + alignment) :
    ∃ y, searchAligned alignment allocated fuel x = some y ∧ alignment ∣ y ∧
      allocated + additionalBytes ≤ y ∧ y ≤ allocated + (additionalBytes - 1) + alignment := by
  have hwords : additionalBytes = 24 := rfl
  rw [hwords] at hend hfuel hle ⊢
  induction fuel generalizing x with
  | zero => exact absurd hfuel (Nat.not_lt_zero _)
  | succ fuel ih =>
    unfold searchAligned
    rw [hwords]
    by_cases hnear : (x : Int) - allocated < (24 : Nat)
    · have hstep : (x + alignment) % sizeRange = x + alignment := Nat.mod_eq_of_lt (by omega)
      rw [if_pos hnear, hstep]
      exact ih (by omega) (Nat.dvd_add hx (Nat.dvd_refl _)) (by omega)
    · rw [if_neg hnear]
      exact ⟨x, rfl, hx, by omega, hle⟩

/-- The sections hold the payload. -/
theorem le_sections_mul {alignment size : Nat} (ha : 0 < alignment) :
    size ≤ (size + (alignment - 1)) / alignment * alignment := by
  have hdiv := Nat.div_add_mod (size + (alignment - 1)) alignment
  have hmod := Nat.mod_lt (size + (alignment - 1)) ha
  rw [Nat.mul_comm]
  omega

/-- Where the exact number of bytes can be represented, no step of its computation wraps. -/
theorem bytesToAllocate_eq {alignment size : Nat} (ha : 0 < alignment)
    (h : ((size + (alignment - 1)) / alignment + 1) * alignment + (additionalBytes - 1) <
      sizeRange) :
    bytesToAllocate alignment size =
      (size + (alignment - 1)) / alignment * alignment + alignment + (additionalBytes - 1) := by
  have hle := @le_sections_mul alignment size ha
  rw [Nat.add_one_mul] at h
  rw [bytesToAllocate, sections, Nat.mod_eq_of_lt (a := size + (alignment - 1)) (by omega),
    Nat.add_one_mul, Nat.mod_eq_of_lt h]

/-- An allocation succeeds whenever `malloc` does. The pointer is aligned, the words in front of
it and the payload behind it lie in the block, and the assertions hold. -/
theorem allocAligned_spec {malloc : Nat → Nat}
    (hmalloc : ∀ bytes, malloc bytes ≠ 0 → malloc bytes + bytes < sizeRange) {k size fuel : Nat}
    (hk : k < 64)
    (hbytes : ((size + (2 ^ k - 1)) / 2 ^ k + 1) * 2 ^ k + (additionalBytes - 1) < sizeRange)
    (hfuel : additionalBytes ≤ fuel) :
    (malloc (bytesToAllocate (2 ^ k) size) = 0 ∧
        allocAligned malloc fuel (2 ^ k) size = some none) ∨
      ∃ a, allocAligned malloc fuel (2 ^ k) size = some (some a) ∧
        a.bytes = ((size + (2 ^ k - 1)) / 2 ^ k + 1) * 2 ^ k + (additionalBytes - 1) ∧
        a.allocated = malloc a.bytes ∧ 2 ^ k ∣ a.x ∧
        a.allocated + 3 * sizeofSizeT ≤ a.x ∧ a.x + size ≤ a.allocated + a.bytes ∧
        Asserted (2 ^ k) size a ∧
        ∀ w ∈ a.words, a.allocated ≤ w.1 ∧ w.1 + sizeofSizeT ≤ a.x := by
  have hpos : 0 < 2 ^ k := Nat.two_pow_pos k
  have hroom := @le_sections_mul (2 ^ k) size hpos
  have hexact := bytesToAllocate_eq hpos hbytes
  rw [Nat.add_one_mul] at hbytes ⊢
  by_cases hnull : malloc (bytesToAllocate (2 ^ k) size) = 0
  · exact Or.inl ⟨hnull, by rw [allocAligned, if_pos hnull]⟩
  · right
    have hblock := hmalloc _ hnull
    rw [allocAligned, if_neg hnull]
    rw [hexact] at hblock hnull ⊢
    generalize (size + (2 ^ k - 1)) / 2 ^ k * 2 ^ k = payload at hroom hbytes hblock hnull ⊢
    obtain ⟨start, hstart⟩ : ∃ start, malloc (payload + 2 ^ k + (additionalBytes - 1)) = start :=
      ⟨_, rfl⟩
    rw [hstart] at hblock hnull ⊢
    have hfirst : (start + 2 ^ k) % sizeRange &&& alignmentMask (2 ^ k) =
        2 ^ k * ((start + 2 ^ k) / 2 ^ k) := by
      rw [Nat.mod_eq_of_lt (by omega), and_alignmentMask hk (by omega)]
    have hdiv := Nat.div_add_mod (start + 2 ^ k) (2 ^ k)
    have hmod := Nat.mod_lt (start + 2 ^ k) hpos
    have hwords : additionalBytes = 24 := rfl
    have hword : sizeofSizeT = 8 := rfl
    obtain ⟨x, hsearch, hdvd, hge, hle⟩ := searchAligned_spec hpos (by omega)
      (show start + additionalBytes - 2 ^ k * ((start + 2 ^ k) / 2 ^ k) < fuel by omega)
      (Nat.dvd_mul_right _ _) (by omega)
    rw [hfirst, hsearch]
    have hfits : x + size ≤ start + (payload + 2 ^ k + (additionalBytes - 1)) := by omega
    have hpayload : (start + (payload + 2 ^ k + (additionalBytes - 1))) % sizeRange +
        sizeRange - x = start + (payload + 2 ^ k + (additionalBytes - 1)) - x + sizeRange := by
      rw [Nat.mod_eq_of_lt hblock]
      omega
    refine ⟨_, rfl, rfl, hstart.symm, hdvd, hge, hfits, ⟨?_, ?_, ?_⟩, ?_⟩
    · rw [hpayload, Nat.add_mod_right, Nat.mod_eq_of_lt (by omega)]
      exact Nat.le_sub_of_add_le' hfits
    · exact Nat.mod_eq_zero_of_dvd hdvd
    · change start ≤ x - additionalBytes
      omega
    · intro w hw
      simp only [List.mem_cons, List.not_mem_nil, or_false] at hw
      rcases hw with rfl | rfl | rfl
      all_goals
        simp only
        omega

/-- Five bytes at a multiple of eight, in a block that starts at the address forty. -/
theorem allocAligned_five :
    allocAligned (fun bytes => if bytes < 100 then 40 else 0) 24 (2 ^ 3) 5 =
      some (some ⟨64, 40, 39, [(56, alignedAllocation), (48, 40), (40, 39)]⟩) ∧
      40 + 3 * sizeofSizeT ≤ 64 ∧ 64 + 5 ≤ 40 + 39 := by
  have hmalloc : ∀ bytes, (if bytes < 100 then 40 else 0) ≠ 0 →
      (if bytes < 100 then 40 else 0) + bytes < sizeRange := by
    intro bytes
    have hrange : sizeRange = 18446744073709551616 := rfl
    split <;> omega
  have hspec := @allocAligned_spec _ hmalloc 3 5 24 (by decide) (by decide) (by decide)
  have halloc : allocAligned (fun bytes => if bytes < 100 then 40 else 0) 24 (2 ^ 3) 5 =
      some (some ⟨64, 40, 39, [(56, alignedAllocation), (48, 40), (40, 39)]⟩) := by decide
  rw [halloc] at hspec
  rcases hspec with ⟨-, hnone⟩ | ⟨a, ha, -, -, -, hge, hle, -, -⟩
  · cases hnone
  · cases ha
    exact ⟨rfl, hge, hle⟩

end Embb.Base
