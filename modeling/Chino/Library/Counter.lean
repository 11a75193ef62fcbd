import Mathlib.Algebra.Group.Nat.Defs

/-!
# Counters of 32 bits

A counter counts as long as what it counts stays below `2 ^ 32`.  Taking one more needs that bound;
dropping one does not, as what is dropped has been counted.  A program that drops the last one
compares the counter with one, which is right in the same cases.

The lemmas speak of a counter `c` and of the number `n` that it stands for, by `c.toNat = n`.  They
are used at the two places of a reference count: when a reference is added to an object, and when
one is dropped and the counter is compared.
-/

set_option autoImplicit false

namespace Chino

namespace Counter

variable {r : UInt32} {n : ℕ}

theorem toNat_add_one (h : r.toNat = n) (hn : n + 1 < 2 ^ 32) : (r + 1).toNat = n + 1 := by
  rw [UInt32.toNat_add, h]
  exact Nat.mod_eq_of_lt hn

theorem toNat_sub_one (h : r.toNat = n + 1) : (r - 1).toNat = n := by
  have hle : (1 : UInt32) ≤ r := by
    rw [UInt32.le_iff_toNat_le, h]
    exact Nat.le_add_left 1 n
  rw [UInt32.toNat_sub_of_le _ _ hle, h]
  exact Nat.add_sub_cancel n 1

/-- A counter that does not get to zero counts one more. -/
theorem toNat_add_one_of_ne (h : r + 1 ≠ 0) : (r + 1).toNat = r.toNat + 1 := by
  refine toNat_add_one rfl (Nat.lt_of_le_of_ne r.toNat_lt fun hr ↦ h ?_)
  rw [← UInt32.toNat_inj, UInt32.toNat_add]
  exact (congrArg (· % 2 ^ 32) hr).trans (Nat.mod_self _)

theorem toNat_sub_one_of_ne (h : r ≠ 0) : (r - 1).toNat = r.toNat - 1 := by
  have hr : r.toNat ≠ 0 := fun hz ↦ h (UInt32.toNat_inj.mp hz)
  exact toNat_sub_one (Nat.succ_pred_eq_of_ne_zero hr).symm

theorem eq_one_of_sub_one (h : r ≠ 0) (h1 : r - 1 = 0) : r = 1 := by
  have hr : r.toNat ≠ 0 := fun hz ↦ h (UInt32.toNat_inj.mp hz)
  have hn : r.toNat - 1 = 0 := (toNat_sub_one_of_ne h).symm.trans (congrArg UInt32.toNat h1)
  exact UInt32.toNat_inj.mp (Nat.le_antisymm (Nat.sub_eq_zero_iff_le.mp hn) (Nat.pos_of_ne_zero hr))

/-- The last one is dropped. -/
theorem eq_one_iff (h : r.toNat = n + 1) : r = 1 ↔ n = 0 := by
  rw [← UInt32.toNat_inj, h]
  exact Nat.succ_inj

theorem eq_zero_iff (h : r.toNat = n) : r = 0 ↔ n = 0 := by
  rw [← UInt32.toNat_inj, h]
  rfl

end Counter

end Chino
