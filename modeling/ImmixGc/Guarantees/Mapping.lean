import ImmixGc.Source.GlobalAllocator
import Mathlib.Data.Nat.Bitwise

/-!
# The address ranges of the two heaps

`GC_GlobalAllocator_init` maps `memory_limit` bytes twice and aligns each start to a block.
`Mapped` is what `mmap` promises about the two ranges, together with an initial size that
the limit allows.
-/
namespace ImmixGc.Guarantees
open Source

structure Mapped (smallMap largeMap memoryLimit initialSize : Nat) : Prop where
  small : 0 < smallMap ∧ smallMap + memoryLimit ≤ sizeModulus
  large : 0 < largeMap ∧ largeMap + memoryLimit ≤ sizeModulus
  disjoint : smallMap + memoryLimit ≤ largeMap ∨ largeMap + memoryLimit ≤ smallMap
  within : 2 * initialSize ≤ memoryLimit

/-- Two disjoint ranges leave less than half of the address space to each. -/
theorem Mapped.limit_lt {smallMap largeMap memoryLimit initialSize : Nat}
    (mapped : Mapped smallMap largeMap memoryLimit initialSize) : memoryLimit < 2 ^ 63 := by
  obtain ⟨⟨_, _⟩, ⟨_, _⟩, disjoint, _⟩ := mapped
  simp only [sizeModulus] at *
  omega

/-- An address that the alignment mask leaves alone is a multiple of the block size. -/
theorem aligned_of_mask {mapped size : Nat} (multiple : size % blockSize = 0) (positive : 0 < size)
    (fits : size ≤ sizeModulus)
    (unchanged : mapped &&& (sizeModulus - 1 - (size - 1)) = mapped) : mapped % blockSize = 0 := by
  have mask : (sizeModulus - 1 - (size - 1)) % 2 ^ 15 = 0 := by
    simp only [sizeModulus, blockSize] at *
    omega
  have low : (mapped &&& (sizeModulus - 1 - (size - 1))) % 2 ^ 15 = 0 := by
    rw [Nat.and_mod_two_pow, mask, Nat.and_zero]
  rw [unchanged] at low
  exact low

theorem mapAndAlign_spec (mapped : Nat) {size : Nat} (multiple : size % blockSize = 0) (positive : 0 < size)
    (fits : size ≤ sizeModulus) :
    GlobalAllocator.mapAndAlign mapped size % blockSize = 0 ∧
      mapped ≤ GlobalAllocator.mapAndAlign mapped size ∧
      GlobalAllocator.mapAndAlign mapped size ≤ mapped + blockSize := by
  simp only [GlobalAllocator.mapAndAlign]
  split
  · simp only [Block.from, blockSize] at *
    omega
  · next unchanged =>
    refine ⟨aligned_of_mask multiple positive fits (by simpa using unchanged), ?_, ?_⟩ <;> omega

end ImmixGc.Guarantees
