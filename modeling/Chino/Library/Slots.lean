import Mathlib.Data.List.Nodup
import Mathlib.Logic.Function.Basic

/-!
# Slots

A pool of slots with a free list.  `Slots` carries its well-formedness: no slot is on the free list
twice, and those that are on it have no entry.

`Differs` compares a pool with an earlier one: they have the same entries, except for at most one
which the later pool has in addition.  Whoever takes one slot, works on its entry and puts the slot
back has `Differs p q none` in the end, which says that the entries are what they were.

`Within` says that all slots below a bound are free or have an entry, and no others, so a slot is
refused only if every one has an entry.

The free list is a stack, so what is taken and put back at once is where it was.  A program may hold
several slots at a time; `Differs` has room for one, which is enough for a program that takes one
slot of each of several pools.
-/

set_option autoImplicit false

namespace Chino

open Function (update)

/-- The entries, and the free slots in the order in which they will be taken. -/
structure Slots (α : Type) where
  entry : ℕ → Option α
  free : List ℕ
  nodup : free.Nodup
  vacant : ∀ i ∈ free, entry i = none

namespace Slots

variable {α : Type}

/-- So many slots, all of them free. -/
def unused (α : Type) (n : ℕ) : Slots α where
  entry _ := none
  free := List.range n
  nodup := List.nodup_range
  vacant _ _ := rfl

/-- The first free slot gets an entry. -/
def take (p : Slots α) (x : α) : Option (ℕ × Slots α) :=
  match hf : p.free with
  | [] => none
  | i :: is => some (i, {
      entry := update p.entry i (some x)
      free := is
      nodup := (List.nodup_cons.mp (hf ▸ p.nodup)).2
      vacant := fun j hj ↦ by
        have hne : j ≠ i := by
          rintro rfl
          exact (List.nodup_cons.mp (hf ▸ p.nodup)).1 hj
        rw [Function.update_of_ne hne]
        exact p.vacant j (hf ▸ List.mem_cons_of_mem i hj) })

/-- An entry is changed. -/
def modify (p : Slots α) (i : ℕ) (f : α → α) : Slots α where
  entry := update p.entry i ((p.entry i).map f)
  free := p.free
  nodup := p.nodup
  vacant j hj := by
    by_cases hji : j = i
    · subst hji
      rw [Function.update_self, p.vacant j hj]
      rfl
    · rw [Function.update_of_ne hji]
      exact p.vacant j hj

/-- A slot that has an entry becomes the first free one. -/
def put (p : Slots α) (i : ℕ) : Slots α :=
  if h : (p.entry i).isSome then {
    entry := update p.entry i none
    free := i :: p.free
    nodup := List.nodup_cons.mpr ⟨fun hi ↦ by simp [p.vacant i hi] at h, p.nodup⟩
    vacant := fun j hj ↦ by
      rcases List.mem_cons.mp hj with rfl | hj
      · exact Function.update_self ..
      · by_cases hji : j = i
        · rw [hji]
          exact Function.update_self ..
        · rw [Function.update_of_ne hji]
          exact p.vacant j hj }
  else p

/-- The second pool has the entries of the first one, and `own`. -/
def Differs (p q : Slots α) : Option (ℕ × α) → Prop
  | none => q.entry = p.entry
  | some (i, x) => p.entry i = none ∧ q.entry = update p.entry i (some x)

variable {p q : Slots α} {i : ℕ} {x : α}

/-- There is a free slot, or there is none. -/
theorem take_eq_none_iff : p.take x = none ↔ p.free = [] := by
  unfold Slots.take
  split
  · simp [*]
  · simp [*]

theorem differs_self (p : Slots α) : p.Differs p none := rfl

/-- What is taken is in addition. -/
theorem Differs.take {r : Slots α} (h : p.Differs q none) (ht : q.take x = some (i, r)) :
    p.Differs r (some (i, x)) := by
  have he : q.entry = p.entry := h
  unfold Slots.take at ht
  split at ht
  · cases ht
  · rename_i j is hf
    cases ht
    refine ⟨?_, ?_⟩
    · rw [← he]
      exact q.vacant i (hf ▸ List.mem_cons_self)
    · exact congrArg (fun e ↦ update e i (some x)) he

theorem Differs.entry (h : p.Differs q (some (i, x))) : q.entry i = some x := by
  rw [h.2, Function.update_self]

theorem Differs.modify (h : p.Differs q (some (i, x))) (f : α → α) :
    p.Differs (q.modify i f) (some (i, f x)) := by
  refine ⟨h.1, ?_⟩
  rw [Slots.modify]
  dsimp only
  rw [h.entry, h.2, Function.update_idem]
  rfl

/-- Once it is put back, the entries are what they were. -/
theorem Differs.put (h : p.Differs q (some (i, x))) : p.Differs (q.put i) none := by
  have he : (q.entry i).isSome := by rw [h.entry]; rfl
  show (q.put i).entry = p.entry
  rw [Slots.put, dif_pos he]
  dsimp only
  rw [h.2, Function.update_idem, ← h.1, Function.update_eq_self]

/-- An entry in addition makes a difference. -/
theorem Differs.entry_ne (h : p.Differs q (some (i, x))) : q.entry ≠ p.entry := fun he ↦ by
  have hx := h.entry
  rw [he, h.1] at hx
  cases hx

/-! ## One slot -/

theorem ext {p q : Slots α} (hentry : p.entry = q.entry) (hfree : p.free = q.free) : p = q := by
  cases p
  cases q
  cases hentry
  cases hfree
  rfl

variable {y : α} {f g : α → α} {n : ℕ}

theorem entry_modify_of_ne {j : ℕ} (h : j ≠ i) : (p.modify i f).entry j = p.entry j :=
  Function.update_of_ne h ..

theorem entry_modify (h : p.entry i = some x) : (p.modify i f).entry i = some (f x) := by
  rw [modify]
  simp only [Function.update_self, h, Option.map_some]

theorem modify_modify : (p.modify i f).modify i g = p.modify i (g ∘ f) := by
  refine ext ?_ rfl
  simp only [modify, Function.update_self, Function.update_idem, Option.map_map]

theorem modify_self (h : p.entry i = some x) (hx : f x = x) : p.modify i f = p := by
  refine ext ?_ rfl
  rw [modify]
  dsimp only
  rw [h, Option.map_some, hx, ← h, Function.update_eq_self]

theorem put_modify (h : p.entry i = some x) : (p.modify i f).put i = p.put i := by
  have h₁ : (p.entry i).isSome := by rw [h]; rfl
  have h₂ : ((p.modify i f).entry i).isSome := by rw [entry_modify h]; rfl
  rw [put, put, dif_pos h₁, dif_pos h₂]
  refine ext ?_ rfl
  simp only [modify, Function.update_idem]

theorem entry_put (h : p.entry i = some x) : (p.put i).entry = update p.entry i none := by
  have h₁ : (p.entry i).isSome := by rw [h]; rfl
  rw [put, dif_pos h₁]

theorem entry_take {r : Slots α} (h : p.take x = some (i, r)) :
    p.entry i = none ∧ r.entry = update p.entry i (some x) :=
  ⟨((differs_self p).take h).1, ((differs_self p).take h).2⟩

/-! ## All slots -/

/-- The slots are those below `n`. -/
def Within (p : Slots α) (n : ℕ) : Prop := ∀ i, i < n ↔ i ∈ p.free ∨ (p.entry i).isSome

theorem Within.modify (h : p.Within n) (i : ℕ) (f : α → α) : (p.modify i f).Within n := by
  intro j
  by_cases hji : j = i
  · subst hji
    simpa [Slots.modify] using h j
  · rw [entry_modify_of_ne hji]
    exact h j

theorem Within.take {r : Slots α} (h : p.Within n) (ht : p.take x = some (i, r)) : r.Within n := by
  intro j
  unfold Slots.take at ht
  split at ht
  · cases ht
  · rename_i k is hf
    cases ht
    have hj := h j
    rw [hf, List.mem_cons] at hj
    by_cases hjk : j = i
    · subst hjk
      simpa using hj
    · simpa [hjk] using hj

theorem Within.put (h : p.Within n) (hi : p.entry i = some x) : (p.put i).Within n := by
  have h₁ : (p.entry i).isSome := by rw [hi]; rfl
  intro j
  rw [Slots.put, dif_pos h₁]
  dsimp only
  by_cases hji : j = i
  · subst hji
    simpa [hi] using h j
  · simpa [hji] using h j

/-- A slot is refused only if all have an entry. -/
theorem Within.full (h : p.Within n) (ht : p.take x = none) (hi : i < n) : (p.entry i).isSome := by
  have hfree := take_eq_none_iff.mp ht
  have := (h i).mp hi
  rwa [hfree, List.mem_nil_iff, false_or] at this

end Slots

end Chino
