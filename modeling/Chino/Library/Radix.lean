import Mathlib.Algebra.BigOperators.Group.List.Basic
import Mathlib.Algebra.Order.BigOperators.Group.List
import Mathlib.Tactic.Ring

/-!
# Row-major order

The elements of an array with several dimensions, one behind the other: the last coordinate runs
fastest.  `position` is the place of an element and `coordinates` is the way back; between the
vectors inside the dimensions and the places below the product of the dimensions they are inverse to
each other.  A vector may have more coordinates than the array has dimensions; they do not count.

`position` is defined from the first coordinate on, by a multiplication and an addition for each
dimension, as programs do it, and `coordinates` divides the dimensions out again.
`position_coordinates` and `coordinates_position` need that the coordinates are inside and the
number is below the product; `position_inj` follows.
-/

set_option autoImplicit false

namespace Chino

namespace RowMajor

/-- The vector has a coordinate below each dimension. -/
def Inside : List ℕ → List ℕ → Prop
  | d :: ds, v :: vs => v < d ∧ Inside ds vs
  | _ :: _, [] => False
  | [], _ => True

instance decidableInside : ∀ ds vs : List ℕ, Decidable (Inside ds vs)
  | d :: ds, v :: vs =>
    have := decidableInside ds vs
    inferInstanceAs (Decidable (v < d ∧ Inside ds vs))
  | _ :: _, [] => isFalse id
  | [], _ => isTrue trivial

/-- The number with these digits, the first of which counts most. -/
def position : List ℕ → List ℕ → ℕ
  | _ :: ds, v :: vs => v * ds.prod + position ds vs
  | _, _ => 0

/-- The digits of a number. -/
def coordinates : List ℕ → ℕ → List ℕ
  | _ :: ds, i => i / ds.prod :: coordinates ds (i % ds.prod)
  | [], _ => []

variable {ds vs ws : List ℕ} {i : ℕ}

theorem inside_iff : ∀ {ds vs : List ℕ},
    Inside ds vs ↔ ds.length ≤ vs.length ∧ ∀ p ∈ ds.zip vs, p.2 < p.1
  | [], _ => by simp [Inside]
  | _ :: _, [] => by simp [Inside]
  | d :: ds, v :: vs => by
    have htail : Inside ds vs ↔ _ := inside_iff
    simp only [Inside, htail, List.length_cons, Nat.add_le_add_iff_right,
      List.zip_cons_cons, List.mem_cons, forall_eq_or_imp]
    exact and_left_comm

theorem position_take : ∀ ds vs : List ℕ, position ds (vs.take ds.length) = position ds vs
  | [], _ => rfl
  | _ :: _, [] => rfl
  | _ :: ds, v :: vs => by rw [List.length_cons, List.take_succ_cons, position, position,
      position_take ds vs]

theorem inside_take : ∀ {ds vs : List ℕ}, Inside ds (vs.take ds.length) ↔ Inside ds vs
  | [], _ => Iff.rfl
  | _ :: _, [] => Iff.rfl
  | _ :: _, _ :: _ => and_congr_right fun _ ↦ inside_take

theorem position_lt : ∀ {ds vs : List ℕ}, Inside ds vs → position ds vs < ds.prod
  | [], _, _ => by simp [position]
  | d :: ds, v :: vs, ⟨hv, hvs⟩ => by
    have hrest := position_lt hvs
    rw [position, List.prod_cons]
    calc v * ds.prod + position ds vs < v * ds.prod + ds.prod := by omega
      _ = (v + 1) * ds.prod := by ring
      _ ≤ d * ds.prod := Nat.mul_le_mul_right _ hv

theorem coordinates_position : ∀ {ds vs : List ℕ}, Inside ds vs →
    coordinates ds (position ds vs) = vs.take ds.length
  | [], _, _ => rfl
  | d :: ds, v :: vs, ⟨_, hvs⟩ => by
    have hrest := position_lt hvs
    have hdiv : (v * ds.prod + position ds vs) / ds.prod = v := by
      rw [Nat.add_comm, Nat.add_mul_div_right _ _ (by omega), Nat.div_eq_of_lt hrest, Nat.zero_add]
    have hmod : (v * ds.prod + position ds vs) % ds.prod = position ds vs := by
      rw [Nat.mul_add_mod_self_right, Nat.mod_eq_of_lt hrest]
    rw [position, coordinates, hdiv, hmod, coordinates_position hvs]
    rfl

theorem position_coordinates : ∀ {ds : List ℕ} {i : ℕ}, i < ds.prod →
    position ds (coordinates ds i) = i
  | [], i, h => by
    rw [List.prod_nil] at h
    exact (Nat.lt_one_iff.mp h).symm
  | d :: ds, i, h => by
    rw [List.prod_cons] at h
    have hpos : 0 < ds.prod := Nat.pos_of_mul_pos_left (Nat.zero_lt_of_lt h)
    rw [coordinates, position, position_coordinates (Nat.mod_lt _ hpos), Nat.div_add_mod']

theorem inside_coordinates : ∀ {ds : List ℕ} {i : ℕ}, i < ds.prod → Inside ds (coordinates ds i)
  | [], _, _ => trivial
  | d :: ds, i, h => by
    rw [List.prod_cons] at h
    have hpos : 0 < ds.prod := Nat.pos_of_mul_pos_left (Nat.zero_lt_of_lt h)
    exact ⟨(Nat.div_lt_iff_lt_mul hpos).mpr h, inside_coordinates (Nat.mod_lt _ hpos)⟩

/-- Two vectors inside have one place only if they are the same. -/
theorem position_inj (hv : Inside ds vs) (hw : Inside ds ws) :
    position ds vs = position ds ws ↔ vs.take ds.length = ws.take ds.length := by
  rw [← coordinates_position hv, ← coordinates_position hw]
  refine ⟨congrArg _, fun h ↦ ?_⟩
  rw [← position_coordinates (position_lt hv), h, position_coordinates (position_lt hw)]

end RowMajor

end Chino
