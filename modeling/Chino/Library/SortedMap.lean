import Mathlib.Data.List.Basic
import Mathlib.Logic.Function.Basic
import Mathlib.Order.Lattice

/-!
# Finite maps as sorted lists

A list of elements with a key and a value, in which the keys grow strictly, is a finite map:
`lookup` is what it maps a key to.  `insertBy` puts an element in its place, where it replaces the
one with its key, and `eraseP` takes a key out.  `lookup_insertBy` and `Ascending.lookup_erase` say
that this changes the map at this key only, and `Ascending.isAbove` that the first element behind a
bound has the least of the keys above it.

The operations are written as one pass over the list, in the order in which a program that keeps the
elements in memory goes over them.  Their lookup lemmas need no order; that the order is kept, and
that an element is found where it belongs, are separate lemmas (`Ascending.insertBy`,
`Ascending.lookup_of_mem`).
-/

set_option autoImplicit false

namespace Chino

open Function (update update_self update_of_ne update_apply)

namespace SortedMap

variable {α κ ν : Type} [LinearOrder κ] {key : α → κ} {val : α → ν} {l : List α} {a b : α} {k : κ}
  {v : ν}

/-- The keys along the list grow. -/
def Ascending (key : α → κ) (l : List α) : Prop := l.Pairwise fun a b ↦ key a < key b

/-- The value that the list has for a key. -/
def lookup (key : α → κ) (val : α → ν) (l : List α) (k : κ) : Option ν :=
  (l.find? (key · = k)).map val

/-- An element takes the place of the one with its key, or its own. -/
def insertBy (key : α → κ) (a : α) : List α → List α
  | [] => [a]
  | b :: l => if key a < key b then a :: b :: l
    else if key b = key a then a :: l
    else b :: insertBy key a l

/-- `k` is the least key above `n` of a map. -/
structure IsAbove (f : κ → Option ν) (n k : κ) : Prop where
  lt : n < k
  mem : (f k).isSome
  least : ∀ j, n < j → (f j).isSome → k ≤ j

/-! ## Looking up -/

@[simp] theorem lookup_nil : lookup key val [] = fun _ ↦ none := rfl

theorem lookup_cons : lookup key val (a :: l) k = if key a = k then some (val a)
    else lookup key val l k := by
  unfold lookup
  split_ifs with h <;> simp [h]

theorem mem_of_lookup (h : lookup key val l k = some v) : ∃ a ∈ l, key a = k ∧ val a = v := by
  obtain ⟨a, ha, rfl⟩ := Option.map_eq_some_iff.mp h
  exact ⟨a, List.mem_of_find?_eq_some ha, by simpa using List.find?_some ha, rfl⟩

theorem lookup_eq_none : lookup key val l k = none ↔ ∀ a ∈ l, key a ≠ k := by
  simp [lookup]

theorem Ascending.lookup_of_mem (h : Ascending key l) (ha : a ∈ l) :
    lookup key val l (key a) = some (val a) := by
  induction l with
  | nil => cases ha
  | cons b l ih =>
    obtain ⟨hb, hl⟩ := List.pairwise_cons.mp h
    rcases List.mem_cons.mp ha with rfl | ha
    · rw [lookup_cons, if_pos rfl]
    · rw [lookup_cons, if_neg (hb a ha).ne, ih hl ha]

/-- The elements are the map. -/
theorem Ascending.mem_map_iff (h : Ascending key l) {P : κ → Bool} :
    (k, v) ∈ (l.filter (P <| key ·)).map (fun a ↦ (key a, val a)) ↔
      P k ∧ lookup key val l k = some v := by
  simp only [List.mem_map, List.mem_filter, Prod.mk.injEq]
  constructor
  · rintro ⟨a, ⟨ha, hP⟩, rfl, rfl⟩
    exact ⟨hP, h.lookup_of_mem ha⟩
  · rintro ⟨hP, hlk⟩
    obtain ⟨a, ha, rfl, rfl⟩ := mem_of_lookup hlk
    exact ⟨a, ⟨ha, hP⟩, rfl, rfl⟩

/-! ## Inserting -/

theorem insertBy_of_lt (h : key a < key b) : insertBy key a (b :: l) = a :: b :: l := if_pos h

theorem insertBy_of_eq (h : key b = key a) : insertBy key a (b :: l) = a :: l := by
  rw [insertBy, if_neg h.not_gt, if_pos h]

theorem insertBy_of_gt (h : key b < key a) :
    insertBy key a (b :: l) = b :: insertBy key a l := by
  rw [insertBy, if_neg h.not_gt, if_neg h.ne]

theorem lookup_insertBy :
    lookup key val (insertBy key a l) = update (lookup key val l) (key a) (some (val a)) := by
  funext k
  induction l with
  | nil =>
    rw [insertBy, lookup_cons]
    by_cases h : key a = k
    · rw [if_pos h, h, update_self]
    · rw [if_neg h, update_of_ne (Ne.symm h)]
  | cons b l ih =>
    rw [insertBy]
    by_cases h : key a = k
    · subst h
      rw [update_self] at ih ⊢
      split_ifs with hlt heq
      · rw [lookup_cons, if_pos rfl]
      · rw [lookup_cons, if_pos rfl]
      · rw [lookup_cons, if_neg heq, ih]
    · rw [update_of_ne (Ne.symm h)] at ih ⊢
      split_ifs with hlt heq
      · rw [lookup_cons, if_neg h]
      · rw [lookup_cons, if_neg h, lookup_cons, if_neg (heq ▸ h)]
      · rw [lookup_cons, lookup_cons, ih]

theorem mem_insertBy (h : b ∈ insertBy key a l) : b = a ∨ b ∈ l := by
  induction l with
  | nil => exact Or.inl (List.mem_singleton.mp h)
  | cons c l ih =>
    rw [insertBy] at h
    split_ifs at h with hlt heq
    · exact List.mem_cons.mp h
    · exact (List.mem_cons.mp h).imp_right (List.mem_cons_of_mem _)
    · rcases List.mem_cons.mp h with rfl | h
      · exact Or.inr List.mem_cons_self
      · exact (ih h).imp_right (List.mem_cons_of_mem _)

theorem Ascending.insertBy (h : Ascending key l) : Ascending key (insertBy key a l) := by
  induction l with
  | nil => exact List.pairwise_singleton _ a
  | cons b l ih =>
    obtain ⟨hb, hl⟩ := List.pairwise_cons.mp h
    rw [SortedMap.insertBy]
    split_ifs with hlt heq
    · refine List.pairwise_cons.mpr ⟨fun c hc ↦ ?_, h⟩
      rcases List.mem_cons.mp hc with rfl | hc
      · exact hlt
      · exact hlt.trans (hb c hc)
    · exact List.pairwise_cons.mpr ⟨fun c hc ↦ heq ▸ hb c hc, hl⟩
    · refine List.pairwise_cons.mpr ⟨fun c hc ↦ ?_, ih hl⟩
      rcases mem_insertBy hc with rfl | hc
      · exact lt_of_le_of_ne (not_lt.mp hlt) heq
      · exact hb c hc

/-! ## Erasing -/

theorem Ascending.erase (h : Ascending key l) : Ascending key (l.eraseP (key · = k)) :=
  List.Pairwise.sublist List.eraseP_sublist h

theorem Ascending.lookup_erase (h : Ascending key l) :
    lookup key val (l.eraseP (key · = k)) = update (lookup key val l) k none := by
  funext j
  induction l with
  | nil => simp [update_apply]
  | cons a l ih =>
    obtain ⟨ha, hl⟩ := List.pairwise_cons.mp h
    by_cases hk : key a = k
    · rw [List.eraseP_cons_of_pos (by simpa using hk)]
      by_cases hj : j = k
      · rw [hj, update_self]
        exact lookup_eq_none.mpr fun b hb ↦ hk ▸ (ha b hb).ne'
      · rw [update_of_ne hj, lookup_cons, if_neg fun hja ↦ hj (hja.symm.trans hk)]
    · rw [List.eraseP_cons_of_neg (by simpa using hk), lookup_cons, ih hl]
      by_cases hj : j = k
      · rw [hj, update_self, update_self, if_neg hk]
      · rw [update_of_ne hj, update_of_ne hj, lookup_cons]

/-! ## The next key -/

theorem Ascending.isAbove {n : κ} (h : Ascending key l) (ha : l.find? (n < key ·) = some a) :
    IsAbove (lookup key val l) n (key a) := by
  refine ⟨by simpa using List.find?_some ha, ?_, fun j hj hm ↦ ?_⟩
  · rw [h.lookup_of_mem (List.mem_of_find?_eq_some ha)]
    rfl
  · obtain ⟨v, hv⟩ := Option.isSome_iff_exists.mp hm
    obtain ⟨b, hb, rfl, -⟩ := mem_of_lookup hv
    obtain ⟨-, l₁, l₂, rfl, hl₁⟩ := List.find?_eq_some_iff_append.mp ha
    rcases List.mem_append.mp hb with hb | hb
    · exact absurd hj (by simpa using hl₁ b hb)
    · rcases List.mem_cons.mp hb with rfl | hb
      · exact le_rfl
      · exact ((List.pairwise_cons.mp (List.pairwise_append.mp h).2.1).1 b hb).le

theorem lookup_of_find_none {n : κ} (ha : l.find? (n < key ·) = none) {j : κ} (hj : n < j) :
    lookup key val l j = none :=
  lookup_eq_none.mpr fun b hb hbj ↦ by
    have := List.find?_eq_none.mp ha b hb
    exact this (by simpa [hbj] using hj)

end SortedMap

end Chino
