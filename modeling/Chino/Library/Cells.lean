import Mathlib.Data.List.Basic
import Mathlib.Tactic.SplitIfs

/-!
# Cells

A memory of numbered cells, and what it holds from some cell on.  `write` puts a list there, and
`move` copies a range to another place, where the two may overlap.  The lemmas say what each of them
leaves in its range and that it changes nothing outside of it; `holds_append` takes a range apart.
`Replaced` says both of a change that leaves a list of another length.

Cells are numbered from zero without an end, so nothing is said about what a program may write to; a
program that must not write behind its block says so by a frame, for which the `_of_outside` lemmas
are made.  `Holds` is monotone in nothing: it is about a range, and `Holds.congr` says that it does
not depend on anything else.
-/

set_option autoImplicit false

namespace Chino

/-- Something in every cell. -/
abbrev Cells (α : Type) := ℕ → α

namespace Cells

variable {α : Type} {m : Cells α} {p q n dst src a : ℕ} {xs ys : List α} {x : α}

/-- The list is there from cell `p` on. -/
def Holds (m : Cells α) (p : ℕ) (xs : List α) : Prop := ∀ i, (h : i < xs.length) → m (p + i) = xs[i]

/-- The cells from `p` on hold the list. -/
def write (m : Cells α) (p : ℕ) (xs : List α) : Cells α := fun a ↦
  if p ≤ a then (xs[a - p]?).getD (m a) else m a

/-- `memmove` -/
def move (m : Cells α) (dst src n : ℕ) : Cells α := fun a ↦
  if dst ≤ a ∧ a < dst + n then m (src + (a - dst)) else m a

/-! ## What is held -/

@[simp] theorem holds_nil : m.Holds p [] := fun i h ↦ absurd h (Nat.not_lt_zero i)

theorem holds_cons : m.Holds p (x :: xs) ↔ m p = x ∧ m.Holds (p + 1) xs := by
  constructor
  · intro h
    refine ⟨h 0 (Nat.succ_pos _), fun i hi ↦ ?_⟩
    have := h (i + 1) (Nat.succ_lt_succ hi)
    rwa [← Nat.add_assoc, Nat.add_right_comm] at this
  · rintro ⟨hx, hxs⟩ i hi
    cases i with
    | zero => exact hx
    | succ i =>
      have := hxs i (Nat.lt_of_succ_lt_succ hi)
      rwa [Nat.add_right_comm, Nat.add_assoc] at this

theorem holds_append : m.Holds p (xs ++ ys) ↔ m.Holds p xs ∧ m.Holds (p + xs.length) ys := by
  induction xs generalizing p with
  | nil => simp
  | cons x xs ih =>
    rw [List.cons_append, holds_cons, holds_cons, ih, List.length_cons, and_assoc, Nat.add_assoc,
      Nat.add_comm 1]

/-- What is held depends on the cells of the range only. -/
theorem Holds.congr {m' : Cells α} (h : m.Holds p xs)
    (hm : ∀ a, p ≤ a → a < p + xs.length → m' a = m a) : m'.Holds p xs := fun i hi ↦ by
  rw [hm (p + i) (Nat.le_add_right ..) (by omega)]
  exact h i hi

/-! ## Writing -/

theorem write_of_outside (h : a < p ∨ p + xs.length ≤ a) : m.write p xs a = m a := by
  unfold write
  split_ifs with hp
  · rw [List.getElem?_eq_none (by omega)]
    rfl
  · rfl

theorem holds_write : (m.write p xs).Holds p xs := fun i hi ↦ by
  rw [write, if_pos (Nat.le_add_right ..), Nat.add_sub_cancel_left, List.getElem?_eq_getElem hi]
  rfl

/-- A range beside the one that is written is still held. -/
theorem Holds.write (h : m.Holds q ys) (hd : q + ys.length ≤ p ∨ p + xs.length ≤ q) :
    (m.write p xs).Holds q ys := h.congr fun a ha hlt ↦ write_of_outside (by omega)

/-! ## Moving -/

theorem move_of_outside (h : a < dst ∨ dst + n ≤ a) : m.move dst src n a = m a :=
  if_neg fun ha ↦ by omega

theorem holds_move (h : m.Holds src xs) : (m.move dst src xs.length).Holds dst xs := fun i hi ↦ by
  rw [move, if_pos ⟨Nat.le_add_right .., by omega⟩, Nat.add_sub_cancel_left]
  exact h i hi

/-- A range beside the one that is moved to is still held. -/
theorem Holds.move (h : m.Holds q ys) (hd : q + ys.length ≤ dst ∨ dst + n ≤ q) :
    (m.move dst src n).Holds q ys := h.congr fun a ha hlt ↦ move_of_outside (by omega)

/-! ## A range with other contents -/

/-- From `p` on there is now a list where `n` cells have been, and only these or those of the list
have changed. -/
structure Replaced (m m' : Cells α) (p n : ℕ) (ys : List α) : Prop where
  holds : m'.Holds p ys
  outside : ∀ a, a < p ∨ p + max n ys.length ≤ a → m' a = m a

/-- What is in front of the range can be counted in. -/
theorem Replaced.append {m' : Cells α} (h : m.Replaced m' (p + xs.length) n ys)
    (hx : m.Holds p xs) :
    m.Replaced m' p (xs.length + n) (xs ++ ys) where
  holds := holds_append.mpr ⟨hx.congr fun a _ ha ↦ h.outside a (Or.inl ha), h.holds⟩
  outside a ha := h.outside a (by rw [List.length_append] at ha; omega)

end Cells

end Chino
