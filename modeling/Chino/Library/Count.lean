import Mathlib.Algebra.BigOperators.Group.Finset.Basic
import Mathlib.Data.Finset.Card

/-!
# Counting the elements with a property

How the number of elements of a finite set with some property changes when the property changes at
one element only.  A state machine whose steps move one party at a time keeps its counters in this
way.

`tally p` is one or zero, and `count s p` the number of elements of `s` with `p`.  `count_change` is
the rule that most steps use: if two properties agree at all elements but one, then the counts
differ by the tallies there.  `count_exchange` is about two elements that change places, and
`count_values` sorts the elements by a value.  All equations are between sums, without subtraction.
-/

set_option autoImplicit false

namespace Chino

open Classical

/-- The number of elements of `T` with the property. -/
noncomputable def count {α : Type} (T : Finset α) (P : α → Prop) : ℕ := (T.filter P).card

/-- What one element contributes to a count. -/
noncomputable def tally (P : Prop) : ℕ := if P then 1 else 0

theorem tally_of {P : Prop} (h : P) : tally P = 1 := if_pos h

theorem tally_of_not {P : Prop} (h : ¬ P) : tally P = 0 := if_neg h

@[simp] theorem tally_true : tally True = 1 := tally_of trivial

@[simp] theorem tally_false : tally False = 0 := tally_of_not id

theorem tally_le_one (P : Prop) : tally P ≤ 1 := by
  unfold tally; split <;> omega

theorem tally_congr {P Q : Prop} (h : P ↔ Q) : tally P = tally Q := by rw [propext h]

section Count

variable {α : Type} {T : Finset α} {P Q : α → Prop} {t : α}

theorem count_congr (h : ∀ u ∈ T, P u ↔ Q u) : count T P = count T Q := by
  exact congrArg Finset.card (Finset.filter_congr h)

/-- One more element to look at. -/
theorem count_insert [DecidableEq α] (ht : t ∉ T) :
    count (insert t T) P = count T P + tally (P t) := by
  rw [count, Finset.filter_insert]
  split
  · rename_i h
    rw [Finset.card_insert_of_notMem (by simp [ht]), count, tally_of h]
  · rename_i h
    rw [count, tally_of_not h, Nat.add_zero]

/-- **One element changes.** -/
theorem count_change (ht : t ∈ T) (h : ∀ u ∈ T, u ≠ t → (P u ↔ Q u)) :
    count T P + tally (Q t) = count T Q + tally (P t) := by
  have hrest : count (T.erase t) P = count (T.erase t) Q :=
    count_congr fun u hu ↦ h u (Finset.mem_of_mem_erase hu) (Finset.ne_of_mem_erase hu)
  have hsplit : ∀ R : α → Prop, count T R = count (T.erase t) R + tally (R t) := by
    intro R
    conv_lhs => rw [← Finset.insert_erase ht, count_insert (Finset.notMem_erase t T)]
  rw [hsplit P, hsplit Q, hrest]
  omega

theorem count_pos (ht : t ∈ T) (hP : P t) : 0 < count T P :=
  Finset.card_pos.mpr ⟨t, Finset.mem_filter.mpr ⟨ht, hP⟩⟩

theorem exists_of_count_pos (h : 0 < count T P) : ∃ t ∈ T, P t := by
  obtain ⟨t, ht⟩ := Finset.card_pos.mp h
  exact ⟨t, (Finset.mem_filter.mp ht).1, (Finset.mem_filter.mp ht).2⟩

theorem count_eq_zero (h : ∀ t ∈ T, ¬ P t) : count T P = 0 := by
  by_contra hne
  obtain ⟨t, ht, hP⟩ := exists_of_count_pos (Nat.pos_of_ne_zero hne)
  exact h t ht hP

/-- The elements with a property are those with another one as well, and those without. -/
theorem count_split (Q : α → Prop) :
    count T P = count T (fun u ↦ P u ∧ Q u) + count T fun u ↦ P u ∧ ¬ Q u := by
  have hu : count T P = (T.filter (fun u ↦ P u ∧ Q u) ∪ T.filter fun u ↦ P u ∧ ¬ Q u).card := by
    refine congrArg Finset.card ?_
    ext u
    simp only [Finset.mem_filter, Finset.mem_union]
    tauto
  rw [hu, Finset.card_union_of_disjoint]
  · unfold count
    congr
  · exact Finset.disjoint_filter.mpr fun u _ hP hQ ↦ hQ.2 hP.2

/-- The elements whose value lies in `B`, value by value. -/
theorem count_values {β : Type} (B : Finset β) (g : α → Option β) :
    count T (fun u ↦ ∃ b ∈ B, g u = some b) = ∑ b ∈ B, count T fun u ↦ g u = some b := by
  have hu : count T (fun u ↦ ∃ b ∈ B, g u = some b) =
      (B.biUnion fun b ↦ T.filter fun u ↦ g u = some b).card := by
    refine congrArg Finset.card ?_
    ext u
    simp only [Finset.mem_filter, Finset.mem_biUnion]
    tauto
  rw [hu, Finset.card_biUnion]
  · refine Finset.sum_congr rfl fun b _ ↦ ?_
    unfold count
    congr
  · rintro b - b' - hne
    refine Finset.disjoint_filter.mpr fun u _ hb hb' ↦ hne ?_
    exact Option.some.inj (hb.symm.trans hb')

/-- **One summand changes.** -/
theorem sum_change {f g : α → ℕ} (ht : t ∈ T) (h : ∀ u ∈ T, u ≠ t → f u = g u) :
    ∑ u ∈ T, f u + g t = ∑ u ∈ T, g u + f t := by
  have hrest : ∑ u ∈ T.erase t, f u = ∑ u ∈ T.erase t, g u :=
    Finset.sum_congr rfl fun u hu ↦ h u (Finset.mem_of_mem_erase hu) (Finset.ne_of_mem_erase hu)
  rw [← Finset.add_sum_erase T f ht, ← Finset.add_sum_erase T g ht, hrest]
  exact Nat.add_right_comm _ _ _ |>.trans (by omega)

theorem count_le_card : count T P ≤ T.card := Finset.card_filter_le T P

/-- **One element takes the place of another one.** -/
theorem count_exchange {u : α} (ht : t ∈ T) (hu : u ∈ T) (hP : ¬ P t) (hQ : ¬ Q u)
    (hPQ : P u ↔ Q t) (h : ∀ v ∈ T, v ≠ t → v ≠ u → (P v ↔ Q v)) : count T P = count T Q := by
  -- without both of them
  have hleft := count_change (P := P) (Q := fun v ↦ P v ∧ v ≠ u) hu fun v _ hv ↦ by simp [hv]
  have hright := count_change (P := Q) (Q := fun v ↦ P v ∧ v ≠ u) ht fun v hv hvt ↦ by
    by_cases hvu : v = u
    · simp [hvu, hQ]
    · simp [hvu, h v hv hvt hvu]
  have ht' : ¬(P t ∧ t ≠ u) := fun hc ↦ hP hc.1
  rw [tally_of_not (show ¬(P u ∧ u ≠ u) from fun hc ↦ hc.2 rfl)] at hleft
  rw [tally_of_not ht', tally_congr hPQ.symm] at hright
  omega

/-- An element without the property is not counted. -/
theorem count_lt_card (ht : t ∈ T) (hP : ¬ P t) : count T P < T.card :=
  Finset.card_lt_card (Finset.filter_ssubset.mpr ⟨t, ht, hP⟩)

end Count

end Chino
