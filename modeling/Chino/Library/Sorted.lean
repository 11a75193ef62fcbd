import Mathlib.Data.List.TakeWhile
import Mathlib.Order.Lattice

/-!
# Lists sorted by a key

`SortedBy key l` says that the keys along `l` do not decrease.  In such a list the elements with
keys up to a bound `w` are a prefix, which `takeWhile` finds (`SortedBy.lt_of_mem_dropWhile`), and
an element with the key `w` that goes right behind them keeps the list sorted (`SortedBy.insert`).
This is all a queue of deadlines needs.

A key may occur more than once, and what is inserted goes behind the elements with its key, so
elements with one key stay in the order in which they came.
-/

set_option autoImplicit false

namespace Chino

variable {α β : Type} [LinearOrder β] {key : α → β} {l : List α} {w : β}

/-- The keys along the list do not decrease. -/
def SortedBy (key : α → β) (l : List α) : Prop := l.Pairwise fun a b ↦ key a ≤ key b

namespace SortedBy

theorem nil : SortedBy key [] := List.Pairwise.nil

theorem singleton (a : α) : SortedBy key [a] := List.pairwise_singleton _ a

theorem sublist {l' : List α} (h : SortedBy key l) (hs : l'.Sublist l) : SortedBy key l' :=
  List.Pairwise.sublist hs h

theorem congr {key' : α → β} (h : SortedBy key l) (hk : ∀ a ∈ l, key' a = key a) :
    SortedBy key' l :=
  List.Pairwise.imp_of_mem (fun ha hb hab ↦ by rwa [hk _ ha, hk _ hb]) h

/-- What is behind the prefix up to `w` is above `w`. -/
theorem lt_of_mem_dropWhile (h : SortedBy key l) {a : α}
    (ha : a ∈ l.dropWhile fun b ↦ key b ≤ w) : w < key a := by
  induction l with
  | nil => cases ha
  | cons b l ih =>
    obtain ⟨hb, hl⟩ := List.pairwise_cons.mp h
    by_cases hbw : key b ≤ w
    · rw [List.dropWhile_cons_of_pos (by simpa using hbw)] at ha
      exact ih hl ha
    · rw [List.dropWhile_cons_of_neg (by simpa using hbw)] at ha
      rcases List.mem_cons.mp ha with rfl | ha
      · exact lt_of_not_ge hbw
      · exact (lt_of_not_ge hbw).trans_le (hb a ha)

theorem le_of_mem_takeWhile {a : α} (ha : a ∈ l.takeWhile fun b ↦ key b ≤ w) : key a ≤ w := by
  simpa using List.mem_takeWhile_imp ha

/-- **Insertion behind the prefix**, where the new element takes the key `w`. -/
theorem insert {key' : α → β} (h : SortedBy key l) {t : α} (ht : key' t = w)
    (hk : ∀ a ∈ l, key' a = key a) :
    SortedBy key' ((l.takeWhile fun b ↦ key b ≤ w) ++ t :: l.dropWhile fun b ↦ key b ≤ w) := by
  have h' := h.congr hk
  have hlow : ∀ a ∈ l.takeWhile (fun b ↦ key b ≤ w), key' a ≤ w := fun a ha ↦
    (hk a ((List.takeWhile_sublist _).subset ha)).symm ▸ le_of_mem_takeWhile ha
  have hhigh : ∀ a ∈ l.dropWhile (fun b ↦ key b ≤ w), w ≤ key' a := fun a ha ↦
    (hk a ((List.dropWhile_sublist _).subset ha)).symm ▸ (h.lt_of_mem_dropWhile ha).le
  refine List.pairwise_append.mpr ⟨h'.sublist (List.takeWhile_sublist _), ?_, fun a ha b hb ↦ ?_⟩
  · exact List.pairwise_cons.mpr ⟨fun b hb ↦ ht.symm ▸ hhigh b hb,
      h'.sublist (List.dropWhile_sublist _)⟩
  · rcases List.mem_cons.mp hb with rfl | hb
    · exact ht.symm ▸ hlow a ha
    · exact (hlow a ha).trans (hhigh b hb)

end SortedBy

end Chino
