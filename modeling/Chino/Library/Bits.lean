import Mathlib.Data.Nat.Notation

/-!
# Fields of a register

A register of flags is written one field at a time, each through the mask of its bits.  `copyBits`
is such a write; what a field holds afterwards depends on the last write through its own mask, and
not on writes through masks that are disjoint from it.

The rules come in pairs: what a field holds after a write through its own mask, and that a write
through a disjoint mask leaves it alone.  With the two a register that is written field by field can
be read back in any order.
-/

set_option autoImplicit false

namespace Chino

variable {w : ℕ} {dest src mask mask' : BitVec w}

/-- `dest` with the bits of the mask as in `src`. -/
def copyBits (dest src mask : BitVec w) : BitVec w := dest &&& ~~~mask ||| src &&& mask

theorem getLsbD_copyBits {i : ℕ} (hi : i < w) : (copyBits dest src mask).getLsbD i =
    if mask.getLsbD i then src.getLsbD i else dest.getLsbD i := by
  rw [copyBits, BitVec.getLsbD_or, BitVec.getLsbD_and, BitVec.getLsbD_and, BitVec.getLsbD_not]
  cases mask.getLsbD i <;> simp [hi]

/-- The field holds what was written. -/
@[simp] theorem copyBits_and_self : copyBits dest src mask &&& mask = src &&& mask := by
  refine BitVec.eq_of_getLsbD_eq fun i hi ↦ ?_
  rw [BitVec.getLsbD_and, BitVec.getLsbD_and, getLsbD_copyBits hi]
  cases mask.getLsbD i <;> simp

/-- **The other fields are unchanged.** -/
theorem copyBits_and_of_disjoint (h : mask &&& mask' = 0#w) :
    copyBits dest src mask &&& mask' = dest &&& mask' := by
  refine BitVec.eq_of_getLsbD_eq fun i hi ↦ ?_
  have hbit : (mask &&& mask').getLsbD i = false := by rw [h, BitVec.getLsbD_zero]
  rw [BitVec.getLsbD_and] at hbit
  rw [BitVec.getLsbD_and, BitVec.getLsbD_and, getLsbD_copyBits hi]
  cases hm : mask.getLsbD i with
  | false => simp
  | true =>
    rw [hm, Bool.true_and] at hbit
    simp [hbit]

/-- The bits of a field that is clear can be set by an or. -/
theorem or_eq_copyBits (h : dest &&& mask = 0#w) :
    dest ||| src &&& mask = copyBits dest src mask := by
  refine BitVec.eq_of_getLsbD_eq fun i hi ↦ ?_
  have hbit : (dest &&& mask).getLsbD i = false := by rw [h, BitVec.getLsbD_zero]
  rw [BitVec.getLsbD_and] at hbit
  rw [BitVec.getLsbD_or, BitVec.getLsbD_and, getLsbD_copyBits hi]
  cases hm : mask.getLsbD i with
  | false => simp
  | true =>
    rw [hm, Bool.and_true] at hbit
    simp [hbit]

/-- A field of one bit is clear or equal to its mask. -/
theorem and_one_shiftLeft (x : BitVec w) (k : ℕ) :
    x &&& 1#w <<< k = 0#w ∨ x &&& 1#w <<< k = 1#w <<< k := by
  have hmask : ∀ i < w, (1#w <<< k).getLsbD i = decide (i = k) := fun i hi ↦ by
    rw [BitVec.getLsbD_shiftLeft, BitVec.getLsbD_one]
    by_cases hik : i < k
    · simp [hik, Nat.ne_of_lt hik]
    · have : i - k = 0 ↔ i = k := by omega
      simp [hi, hik, this]
      omega
  cases hb : x.getLsbD k with
  | false =>
    left
    refine BitVec.eq_of_getLsbD_eq fun i hi ↦ ?_
    rw [BitVec.getLsbD_and, hmask i hi, BitVec.getLsbD_zero]
    by_cases hik : i = k
    · rw [hik, hb, Bool.false_and]
    · simp [hik]
  | true =>
    right
    refine BitVec.eq_of_getLsbD_eq fun i hi ↦ ?_
    rw [BitVec.getLsbD_and, hmask i hi]
    by_cases hik : i = k
    · rw [hik, hb, Bool.true_and]
    · simp [hik]

end Chino
