import Chino.Library.Cells

/-!
# Cells in a circle

A block of `N` cells whose last one is followed by the first.  `around N m` is what somebody sees
who walks round and round, so what `Cells` says of a range is also said of one that goes over the
end.  `write` and `read` in two parts, up to the end and on from the start, are `writeAround` and a
read of `around`.  A place is a number of any size: `holds_mod` takes it into the block.

The block may hold more than one thing, and a list in it may be written over by a later one.  The
rules say what is left: a range beside the one that is written, both seen around the circle, is held
as before (`Holds.writeAround`).  That two ranges do not meet around a circle is an inequality of
the distances from the first one on, and `omega` can do it.
-/

set_option autoImplicit false

namespace Chino

namespace Cells

variable {α : Type} {m : Cells α} {N p q n a : ℕ} {xs ys : List α}

/-- The cells from `p` on. -/
def read (m : Cells α) (p n : ℕ) : List α := (List.range n).map fun i ↦ m (p + i)

/-- Behind the last cell comes the first one again. -/
def around (N : ℕ) (m : Cells α) : Cells α := fun a ↦ m (a % N)

/-- A list from cell `p` on, which goes on at the start of the block when it comes to the end. -/
def writeAround (N : ℕ) (m : Cells α) (p : ℕ) (xs : List α) : Cells α :=
  (m.write p (xs.take (N - p))).write 0 (xs.drop (N - p))

/-! ## Reading -/

@[simp] theorem length_read : (m.read p n).length = n := by simp [read]

theorem Holds.read_eq (h : m.Holds p xs) : m.read p xs.length = xs := by
  refine List.ext_getElem length_read fun i hi hi' ↦ ?_
  simpa only [read, List.getElem_map, List.getElem_range] using h i hi'

theorem read_congr {m' : Cells α} (h : ∀ i < n, m (p + i) = m' (q + i)) :
    m.read p n = m'.read q n := by
  refine List.map_congr_left fun i hi ↦ h i (List.mem_range.mp hi)

theorem read_add (k : ℕ) : m.read p (n + k) = m.read p n ++ m.read (p + n) k := by
  simp only [read, List.range_add, List.map_append, List.map_map]
  congr 1
  refine List.map_congr_left fun i _ ↦ ?_
  rw [Function.comp_apply, Nat.add_assoc]

theorem holds_around :
    (m.around N).Holds p xs ↔ ∀ i, (h : i < xs.length) → m ((p + i) % N) = xs[i] :=
  Iff.rfl

theorem holds_mod : (m.around N).Holds (p % N) xs ↔ (m.around N).Holds p xs := by
  simp only [holds_around, Nat.mod_add_mod]

theorem holds_around_add : (m.around N).Holds (N + p) xs ↔ (m.around N).Holds p xs := by
  rw [← holds_mod, Nat.add_mod_left, holds_mod]

theorem holds_around_of_le (h : p + xs.length ≤ N) :
    (m.around N).Holds p xs ↔ m.Holds p xs := by
  refine forall₂_congr fun i hi ↦ ?_
  rw [around, Nat.mod_eq_of_lt (by omega)]

/-- A range that does not go over the end. -/
theorem read_around (h : p + n ≤ N) : (m.around N).read p n = m.read p n := by
  refine read_congr fun i hi ↦ ?_
  rw [around, Nat.mod_eq_of_lt (by omega)]

/-- A range that goes over the end, in two parts. -/
theorem read_around_over (hp : p ≤ N) (hn : n ≤ N) (h : N ≤ p + n) :
    (m.around N).read p n = m.read p (N - p) ++ m.read 0 (n - (N - p)) := by
  obtain ⟨k, rfl⟩ := Nat.exists_eq_add_of_le (show N - p ≤ n by omega)
  rw [read_add, read_around (by omega), Nat.add_sub_cancel_left]
  congr 1
  refine read_congr fun i hi ↦ ?_
  have hN : p + (N - p) = N := by omega
  rw [hN, around, Nat.add_mod_left, Nat.mod_eq_of_lt (by omega), Nat.zero_add]

/-! ## Writing -/

theorem write_nil : m.write p [] = m := by
  funext a
  exact write_of_outside (by simp; omega)

theorem writeAround_of_le (h : xs.length ≤ N - p) : m.writeAround N p xs = m.write p xs := by
  rw [writeAround, List.take_of_length_le h, List.drop_of_length_le h, write_nil]

/-- The cell behind the last one is the first. -/
theorem writeAround_mod (hp : p ≤ N) (hn : xs.length ≤ N) :
    m.writeAround N (p % N) xs = m.writeAround N p xs := by
  rcases Nat.lt_or_eq_of_le hp with hlt | rfl
  · rw [Nat.mod_eq_of_lt hlt]
  · rw [Nat.mod_self, writeAround_of_le hn, writeAround, Nat.sub_self, List.take_zero, write_nil,
      List.drop_zero]

/-- A cell that is not one of those written. -/
theorem writeAround_of_outside (hp : p ≤ N) (hout : a < p ∨ p + xs.length ≤ a)
    (hover : p + xs.length ≤ N + a) : m.writeAround N p xs a = m a := by
  rw [writeAround, write_of_outside, write_of_outside]
  · rw [List.length_take]
    omega
  · rw [List.length_drop]
    omega

theorem mod_ne (h : a < p) (hlt : p < a + N) : p % N ≠ a % N := by
  intro heq
  have hdvd : N ∣ p - a := Nat.dvd_of_mod_eq_zero (Nat.sub_mod_eq_zero_of_mod_eq heq)
  have := Nat.le_of_dvd (Nat.sub_pos_of_lt h) hdvd
  omega

/-- A range of the circle beside the one that is written is still held. -/
theorem Holds.writeAround (h : (m.around N).Holds q ys) (xs : List α) (hN : 0 < N)
    (hq : q + ys.length ≤ p)
    (hp : p + xs.length ≤ q + N) : ((m.writeAround N (p % N) xs).around N).Holds q ys := by
  refine h.congr fun a ha hlt ↦ ?_
  have hpN := Nat.mod_lt p hN
  have haN := Nat.mod_lt a hN
  have hne : ∀ i < xs.length, (p % N + i) % N ≠ a % N := by
    intro i hi
    rw [Nat.mod_add_mod]
    exact mod_ne (by omega) (by omega)
  refine writeAround_of_outside (Nat.le_of_lt hpN) ?_ ?_
  · by_contra hin
    have := hne (a % N - p % N) (by omega)
    rw [Nat.add_sub_cancel' (by omega), Nat.mod_mod] at this
    exact this rfl
  · by_contra hover
    have := hne (N + a % N - p % N) (by omega)
    rw [Nat.add_sub_cancel' (by omega), Nat.add_mod_left, Nat.mod_mod] at this
    exact this rfl

theorem holds_writeAround (m : Cells α) (hp : p ≤ N) (hn : xs.length ≤ N) :
    ((m.writeAround N p xs).around N).Holds p xs := by
  have hsplit : (m.writeAround N p xs).Holds p (xs.take (N - p)) ∧
      (m.writeAround N p xs).Holds 0 (xs.drop (N - p)) := by
    refine ⟨holds_write.write (Or.inr ?_), holds_write⟩
    rw [List.length_drop]
    omega
  have hlength := List.length_take (i := N - p) (l := xs)
  rw [← List.take_append_drop (N - p) xs, holds_append]
  refine ⟨(holds_around_of_le ?_).mpr ?_, ?_⟩
  · omega
  · rw [List.take_append_drop]
    exact hsplit.1
  · rw [List.take_append_drop]
    rcases hdrop : xs.drop (N - p) with _ | ⟨x, rest⟩
    · exact holds_nil
    · have hlong := congrArg List.length hdrop
      rw [List.length_drop, List.length_cons] at hlong
      have hend : p + (xs.take (N - p)).length = N + 0 := by omega
      rw [hend, holds_around_add, holds_around_of_le (by rw [List.length_cons]; omega), ← hdrop]
      exact hsplit.2

end Cells

end Chino
