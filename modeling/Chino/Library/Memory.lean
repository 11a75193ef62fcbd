import Mathlib.Algebra.Group.Nat.Defs

/-!
# Words in a byte memory

A memory has a byte at each of its `2 ^ w` addresses; behind the last one comes the first.  A word
of `n` bytes is stored with its lowest byte first.  A load gives what was stored last at its address
(`load_store`), and does not see a store to bytes that it does not read (`load_store_of_disjoint`),
however the two words are aligned.

Addresses are words and wrap around, and so do the bytes of a word that begins near the last
address.  `load_store_of_disjoint` says when two words do not meet, in terms of the two distances
between their addresses, which make one turn of the memory (`toNat_sub_add_lt`).
-/

set_option autoImplicit false

namespace Chino

/-- A byte at every address. -/
def Memory (w : ℕ) : Type := BitVec w → BitVec 8

namespace Memory

variable {w : ℕ}

/-- The value of `n` bytes, the lowest one first. -/
def load (m : Memory w) : (n : ℕ) → BitVec w → BitVec (8 * n)
  | 0, _ => 0#0
  | n + 1, a => m.load n (a + 1) ++ m a

/-- `n` bytes are written. -/
def store (m : Memory w) (n : ℕ) (a : BitVec w) (v : BitVec (8 * n)) : Memory w := fun b ↦
  if (b - a).toNat < n then v.extractLsb' (8 * (b - a).toNat) 8 else m b

variable {m : Memory w} {n k i j : ℕ} {a b : BitVec w} {v : BitVec (8 * n)}

/-- Bit `j` of a word is in byte `j / 8`. -/
theorem getLsbD_load (hj : j < 8 * n) :
    (m.load n a).getLsbD j = (m (a + BitVec.ofNat w (j / 8))).getLsbD (j % 8) := by
  induction n generalizing a j with
  | zero => omega
  | succ n ih =>
    rw [load, BitVec.getLsbD_append]
    by_cases h : j < 8
    · rw [if_pos h, Nat.div_eq_of_lt h, Nat.mod_eq_of_lt h]
      simp
    · have hdiv : j / 8 = 1 + (j - 8) / 8 := by omega
      have hmod : j % 8 = (j - 8) % 8 := by omega
      rw [if_neg h, ih (by omega), hdiv, hmod, BitVec.ofNat_add, BitVec.add_assoc]
      rfl

/-- Words are equal that read the same bytes. -/
theorem load_congr {m' : Memory w}
    (h : ∀ i, i < n → m' (a + BitVec.ofNat w i) = m (a + BitVec.ofNat w i)) :
    m'.load n a = m.load n a := by
  refine BitVec.eq_of_getLsbD_eq fun j hj ↦ ?_
  rw [getLsbD_load hj, getLsbD_load hj, h (j / 8) (by omega)]

theorem load_store (hn : n ≤ 2 ^ w) : (m.store n a v).load n a = v := by
  refine BitVec.eq_of_getLsbD_eq fun j hj ↦ ?_
  have hi : (a + BitVec.ofNat w (j / 8) - a).toNat = j / 8 := by
    rw [BitVec.add_comm, BitVec.add_sub_cancel, BitVec.toNat_ofNat, Nat.mod_eq_of_lt (by omega)]
  have hlt : j / 8 < n := by omega
  rw [getLsbD_load hj, store, hi, if_pos hlt, BitVec.getLsbD_extractLsb']
  have hmod : j % 8 < 8 := Nat.mod_lt _ (by decide)
  rw [decide_eq_true hmod, Bool.true_and, Nat.div_add_mod]

/-- The two distances between two addresses make a turn. -/
theorem toNat_sub_add_lt (hk : k ≤ (a - b).toNat) (hi : i < k) : (b - a).toNat + i < 2 ^ w := by
  have hneg : a - b = -(b - a) := by
    rw [BitVec.neg_sub, BitVec.add_comm, BitVec.sub_eq_add_neg]
  rw [hneg, BitVec.toNat_neg] at hk
  have hlt := (b - a).isLt
  rcases Nat.eq_zero_or_pos (b - a).toNat with h | h
  · rw [h, Nat.sub_zero, Nat.mod_self] at hk
    omega
  · rw [Nat.mod_eq_of_lt (by omega)] at hk
    omega

/-- **The frame rule.**  The word at `b` begins behind the one at `a`, and ends before it. -/
theorem load_store_of_disjoint (hn : n ≤ (b - a).toNat) (hk : k ≤ (a - b).toNat) :
    (m.store n a v).load k b = m.load k b := by
  refine load_congr fun i hi ↦ if_neg (Nat.not_lt.mpr ?_)
  have hlt := toNat_sub_add_lt hk hi
  rw [← BitVec.sub_add_comm, BitVec.toNat_add, BitVec.toNat_ofNat, Nat.add_mod_mod,
    Nat.mod_eq_of_lt hlt]
  omega

end Memory

end Chino
