import Chino.Components.Variables
import Chino.Library.Radix

/-!
# The elements of an array

`calc_index` computes in `size_t` where an element is in row-major order, and `calc_vector` computes
the way back for a dump.  For a vector that was declared both are right as long as the size of the
array is a `size_t`.  `check_in_bounds` compares with one more than what was declared, so it also
lets vectors pass that were not: `elements_spec` says where these lead.

## The numbers

* `DIM` stores each bound with one added, so the dimensions are the numbers of indices from zero on.
  Declared vectors are those inside the dimensions (`Declared`), and with `Chino.Library.Radix`
  their places are the numbers below the product of the dimensions.
* All of it is computed in 64 bits.  If the product fits (`Fits`), no product or sum on the way
  wraps around, and this is where the proofs leave `UInt64` for numbers.
* `check_in_bounds` allows an index to be the dimension itself.  The last part of `elements_spec` is
  about the vectors in this gap: they lead behind the memory or to the element of another vector.
-/

set_option autoImplicit false

namespace Chino

open RowMajor

namespace ArrayVariable

variable {α : Type} {ds bounds vector : List UInt64} {v : UInt64}

/-- The values of coordinates or dimensions. -/
def values (vs : List UInt64) : List ℕ := vs.map UInt64.toNat

/-- The dimensions for some bounds, as numbers. -/
def sizes (bounds : List UInt64) : List ℕ := bounds.map fun b ↦ b.toNat + 1

/-- What `DIM` stores for these bounds. -/
def dimensionsOf (bounds : List UInt64) : List UInt64 := bounds.map (· + 1)

/-- The vector is one of those that were declared. -/
def Declared (bounds vector : List UInt64) : Prop := Inside (sizes bounds) (values vector)

/-- The size of the array is a `size_t`. -/
def Fits (bounds : List UInt64) : Prop := (sizes bounds).prod < 2 ^ 64

theorem values_cons (v : UInt64) (vs : List UInt64) :
    values (v :: vs) = v.toNat :: values vs := rfl

theorem values_inj {vs ws : List UInt64} : values vs = values ws ↔ vs = ws :=
  List.map_inj_right fun _ _ ↦ UInt64.toNat_inj.mp

theorem values_take (vector : List UInt64) :
    (values vector).take (sizes bounds).length = values (vector.take bounds.length) := by
  rw [values, values, List.map_take, sizes, List.length_map]

theorem sizes_cons (b : UInt64) (bs : List UInt64) :
    sizes (b :: bs) = (b.toNat + 1) :: sizes bs := rfl

theorem sizes_prod_pos : 0 < (sizes bounds).prod := by
  induction bounds with
  | nil => exact Nat.one_pos
  | cons b bs ih =>
    rw [sizes_cons, List.prod_cons]
    exact Nat.mul_pos b.toNat.succ_pos ih

/-- No dimension wraps around, as that alone would be too large. -/
theorem values_dimensions (hfits : Fits bounds) : values (dimensionsOf bounds) = sizes bounds := by
  induction bounds with
  | nil => rfl
  | cons b bs ih =>
    rw [Fits, sizes_cons, List.prod_cons] at hfits
    have hb : b.toNat + 1 < 2 ^ 64 :=
      (Nat.le_mul_of_pos_right _ sizes_prod_pos).trans_lt hfits
    have hbs : Fits bs := (Nat.le_mul_of_pos_left _ b.toNat.succ_pos).trans_lt hfits
    have hone : (b + 1).toNat = b.toNat + 1 := by
      rw [UInt64.toNat_add]
      exact Nat.mod_eq_of_lt hb
    exact congrArg₂ List.cons hone (ih hbs)

/-! ## `size_t` arithmetic -/

theorem toNat_product (v : UInt64) (ds : List UInt64) :
    (ds.foldl (· * ·) v).toNat = v.toNat * (values ds).prod % 2 ^ 64 := by
  induction ds generalizing v with
  | nil => simp [values, Nat.mod_eq_of_lt v.toNat_lt]
  | cons d ds ih =>
    rw [List.foldl_cons, ih, UInt64.toNat_mul, Nat.mod_mul_mod, Nat.mul_assoc, values_cons,
      List.prod_cons]

theorem toNat_calcIndexFrom (index : UInt64) (ds vector : List UInt64) :
    (calcIndexFrom index ds vector).toNat =
      (index.toNat + position (values ds) (values vector)) % 2 ^ 64 := by
  induction ds generalizing index vector with
  | nil => simp [calcIndexFrom, position, values, Nat.mod_eq_of_lt index.toNat_lt]
  | cons d ds ih =>
    rcases vector with _ | ⟨v, vector⟩
    · simp [calcIndexFrom, position, values, Nat.mod_eq_of_lt index.toNat_lt]
    · rw [calcIndexFrom, ih, UInt64.toNat_add, toNat_product]
      simp only [values_cons, position]
      omega

theorem toNat_calcIndex (ds vector : List UInt64) :
    (calcIndex ds vector).toNat = position (values ds) (values vector) % 2 ^ 64 := by
  rw [calcIndex, toNat_calcIndexFrom, UInt64.toNat_zero, Nat.zero_add]

theorem toNat_calcSize (hfits : Fits bounds) :
    (calcSize (dimensionsOf bounds)).toNat = (sizes bounds).prod := by
  rw [calcSize, toNat_product, values_dimensions hfits, UInt64.toNat_one,
    Nat.one_mul, Nat.mod_eq_of_lt hfits]

theorem toNat_calcIndex_of_declared (hfits : Fits bounds) (h : Declared bounds vector) :
    (calcIndex (dimensionsOf bounds) vector).toNat = position (sizes bounds) (values vector) := by
  rw [toNat_calcIndex, values_dimensions hfits,
    Nat.mod_eq_of_lt ((position_lt h).trans hfits)]

/-- Declared vectors lead to one element only if they are the same. -/
theorem calcIndex_eq_iff {other : List UInt64} (hfits : Fits bounds) (h : Declared bounds vector)
    (hother : Declared bounds other) :
    calcIndex (dimensionsOf bounds) vector = calcIndex (dimensionsOf bounds) other ↔
      vector.take bounds.length = other.take bounds.length := by
  rw [← UInt64.toNat_inj, toNat_calcIndex_of_declared hfits h,
    toNat_calcIndex_of_declared hfits hother, position_inj h hother, values_take, values_take,
    values_inj]

/-- `calc_vector` divides out one dimension after the other. -/
theorem values_calcVectorFrom {product index : UInt64}
    (hprod : product.toNat = (values ds).tail.prod) (hpos : ∀ d ∈ values ds, 0 < d) :
    values (calcVectorFrom product index ds) = coordinates (values ds) index.toNat := by
  induction ds generalizing product index with
  | nil => rfl
  | cons d ds ih =>
    rcases ds with _ | ⟨d', ds⟩
    · have hone : product.toNat = 1 := hprod
      simp [calcVectorFrom, values, coordinates, UInt64.toNat_div, hone]
    · have hd' : 0 < d'.toNat := hpos _ (by simp [values])
      have hrest : product.toNat = d'.toNat * (values ds).prod := hprod
      have hdiv : (product / d').toNat = (values (d' :: ds)).tail.prod := by
        rw [UInt64.toNat_div, hrest, Nat.mul_div_cancel_left _ hd']
        rfl
      rw [calcVectorFrom, values_cons, ih hdiv fun x hx ↦ hpos x (List.mem_cons_of_mem _ hx),
        values_cons, coordinates, UInt64.toNat_div, UInt64.toNat_mod, hprod]
      rfl

theorem values_calcVector (hfits : Fits bounds) (index : UInt64) :
    values (calcVector (dimensionsOf bounds) index) = coordinates (sizes bounds) index.toNat := by
  have hdims : values (dimensionsOf bounds) = sizes bounds := values_dimensions hfits
  have htail : (sizes bounds).tail.prod < 2 ^ 64 := by
    rcases bounds with _ | ⟨b, bs⟩
    · exact Nat.one_lt_two_pow (by decide)
    · rw [Fits, sizes_cons, List.prod_cons] at hfits
      exact (Nat.le_mul_of_pos_left _ b.toNat.succ_pos).trans_lt hfits
  rw [calcVector, values_calcVectorFrom, hdims]
  · rw [calcSize, toNat_product, UInt64.toNat_one, Nat.one_mul, values, List.map_tail, ← values,
      hdims, Nat.mod_eq_of_lt htail]
  · rw [hdims]
    intro d hd
    obtain ⟨b, -, rfl⟩ := List.mem_map.mp hd
    exact b.toNat.succ_pos

theorem get_set (var : ArrayVariable α) (vector other : List UInt64) (x : α) :
    (var.set vector x).get other =
      if calcIndex var.dimensions other = calcIndex var.dimensions vector then x
      else var.get other := Function.update_apply ..

/-! ## What `check_in_bounds` lets pass -/

theorem checkInBounds_iff : ∀ {ds vector : List UInt64}, checkInBounds ds vector = true ↔
    ∀ p ∈ (values ds).zip (values vector), p.2 ≤ p.1
  | [], _ => by simp [checkInBounds, values]
  | _ :: _, [] => by simp [checkInBounds, values]
  | d :: ds, v :: vector => by
    have hle : ¬v > d ↔ v.toNat ≤ d.toNat := by
      rw [gt_iff_lt, UInt64.lt_iff_toNat_lt, Nat.not_lt]
    have htail : checkInBounds ds vector = true ↔ _ := checkInBounds_iff
    simp only [checkInBounds, values_cons, List.zip_cons_cons, List.mem_cons, forall_eq_or_imp,
      ← htail, ← hle]
    split <;> simp_all

theorem checkInBounds_of_declared (hfits : Fits bounds) (h : Declared bounds vector) :
    checkInBounds (dimensionsOf bounds) vector = true := by
  rw [checkInBounds_iff, values_dimensions hfits]
  exact fun p hp ↦ ((inside_iff.mp h).2 p hp).le

/-- **Where the elements are.**  On the declared vectors, `calc_index` and `calc_vector` are inverse
to each other and lead to all of the memory and nowhere else.  A vector that was not declared but
passes the check has a coordinate one above its bound; it leads behind the memory, or to the
element of another vector. -/
theorem elements_spec {bounds : List UInt64} (hfits : Fits bounds) :
    (∀ vector, Declared bounds vector → checkInBounds (dimensionsOf bounds) vector = true ∧
      calcIndex (dimensionsOf bounds) vector < calcSize (dimensionsOf bounds) ∧
      calcVector (dimensionsOf bounds) (calcIndex (dimensionsOf bounds) vector) =
        vector.take bounds.length) ∧
    (∀ index < calcSize (dimensionsOf bounds),
      Declared bounds (calcVector (dimensionsOf bounds) index) ∧
      calcIndex (dimensionsOf bounds) (calcVector (dimensionsOf bounds) index) = index) ∧
    ∀ vector, bounds.length ≤ vector.length →
      checkInBounds (dimensionsOf bounds) vector = true → ¬Declared bounds vector →
      (∃ p ∈ bounds.zip vector, p.2.toNat = p.1.toNat + 1) ∧
      (calcSize (dimensionsOf bounds) ≤ calcIndex (dimensionsOf bounds) vector ∨
        ∃ other, Declared bounds other ∧ other ≠ vector.take bounds.length ∧
          calcIndex (dimensionsOf bounds) other = calcIndex (dimensionsOf bounds) vector) := by
  have hsize := toNat_calcSize hfits
  have hdims := values_dimensions hfits
  have hback : ∀ index < calcSize (dimensionsOf bounds),
      Declared bounds (calcVector (dimensionsOf bounds) index) ∧
      calcIndex (dimensionsOf bounds) (calcVector (dimensionsOf bounds) index) = index := by
    intro index hindex
    rw [UInt64.lt_iff_toNat_lt, hsize] at hindex
    have hdeclared : Declared bounds (calcVector (dimensionsOf bounds) index) := by
      rw [Declared, values_calcVector hfits]
      exact inside_coordinates hindex
    refine ⟨hdeclared, UInt64.toNat_inj.mp ?_⟩
    rw [toNat_calcIndex_of_declared hfits hdeclared, values_calcVector hfits,
      position_coordinates hindex]
  refine ⟨fun vector h ↦ ⟨?_, ?_, ?_⟩, hback, fun vector hlength hpass hnot ↦ ⟨?_, ?_⟩⟩
  · exact checkInBounds_of_declared hfits h
  · rw [UInt64.lt_iff_toNat_lt, hsize, toNat_calcIndex_of_declared hfits h]
    exact position_lt h
  · rw [← values_inj, values_calcVector hfits, toNat_calcIndex_of_declared hfits h,
      coordinates_position h, values_take]
  · rw [checkInBounds_iff, hdims] at hpass
    by_contra hnone
    refine hnot (inside_iff.mpr ⟨?_, fun p hp ↦ lt_of_le_of_ne (hpass p hp) fun heq ↦ hnone ?_⟩)
    · simpa [sizes, values] using hlength
    · rw [sizes, values, List.zip_map] at hp
      obtain ⟨⟨b, v⟩, hbv, rfl⟩ := List.mem_map.mp hp
      exact ⟨(b, v), hbv, heq⟩
  · by_cases hlt : calcIndex (dimensionsOf bounds) vector < calcSize (dimensionsOf bounds)
    · obtain ⟨hdeclared, hindex⟩ := hback _ hlt
      refine Or.inr ⟨_, hdeclared, fun hsame ↦ hnot ?_, hindex⟩
      rwa [hsame, Declared, ← values_take, inside_take] at hdeclared
    · exact Or.inl (UInt64.not_lt.mp hlt)

instance : Decidable (Declared bounds vector) := inferInstanceAs (Decidable (Inside _ _))

instance : Decidable (Fits bounds) := inferInstanceAs (Decidable (_ < _))

/-- With `DIM A(3,2)`, `A(1,3)` is another element. -/
theorem elements_spec_next_row : ∃ other, Declared [3, 2] other ∧ other ≠ [1, 3] ∧
    calcIndex (dimensionsOf [3, 2]) other = calcIndex (dimensionsOf [3, 2]) [1, 3] :=
  ((elements_spec (show Fits [3, 2] by decide)).2.2 [1, 3] (by decide) (by decide)
    (by decide)).2.resolve_left (by decide)

end ArrayVariable

end Chino
