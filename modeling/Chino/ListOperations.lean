import Chino.IntrusiveList

/-!
# Sequences of operations on intrusive lists

What the lists are for: a family of sequences without common elements, `L : ι → List α`, on which
each operation does what its name says (`ListOp.effect`).  A caller may insert an element that is on
no list, and may only name elements of the list it operates on (`ListOp.Allowed`); the code checks
neither.

`Represents` relates the nodes to the sequences.  Each operation that is allowed keeps it
(`Represents.apply`), so every sequence of such operations does to the nodes what it does to the
sequences (`lists_refine`), and the sequences can be read off the nodes in both directions.

## What is stated

The family of sequences is the abstract list: no pointers, no sizes.  `ListOp.Allowed` is what the
header asks of its callers in effect, and `ListOp.effect` what each member function is for.
`lists_refine` says of any number of operations that are allowed in their turn that none of them
dereferences a null pointer, and that in the end, for every list,

* `front`, `back`, `empty`, `size` and `in_list` answer for the sequence;
* a walk by `next` goes through the sequence from its front, and a walk by `prev` from its back;
* the lists that no operation was about are as they were.
-/

set_option autoImplicit false

namespace Chino

open Function (update)

variable {ι α : Type}

namespace Heap

section Backwards

variable [DecidableEq ι] [DecidableEq α] {h : Heap ι α} {L : ι → List α}
  {l : ι} {xs ys : List α} {a : α}

/-- `prev(pivot)`. -/
def prevOf (h : Heap ι α) (l : ι) (pivot : α) : Option α := target l (h.prev (.elem pivot))

/-- `back` -/
def back (h : Heap ι α) (l : ι) : Option α := target l (h.prev (.dummy l))

theorem target_getLast? (l : ι) (xs : List α) :
    target l ((Node.dummy l :: xs.map Node.elem).getLast?) = xs.getLast? := by
  rcases xs.eq_nil_or_concat with rfl | ⟨xs, a, rfl⟩
  · simp [target]
  · rw [List.concat_eq_append, List.map_append, List.map_singleton, ← List.cons_append,
      List.getLast?_concat, List.getLast?_concat]
    simp [target, containerOf]

/-- `back` is the last one of the sequence. -/
theorem Represents.back_eq (hr : h.Represents L) (l : ι) : h.back l = (L l).getLast? := by
  obtain ⟨u, hu, hp⟩ := hr.exists_last l
  rw [back, hp, ← hu, target_getLast?]

/-- `prev` of an element is whatever it follows. -/
theorem Represents.prevOf_eq (hr : h.Represents L) (hL : L l = xs ++ a :: ys) :
    h.prevOf l a = xs.getLast? := by
  obtain ⟨u, hu, hp⟩ := hr.exists_prev hL
  rw [prevOf, hp, ← hu, target_getLast?]

end Backwards

end Heap

/-! ## Operations on sequences -/

/-- The member functions that change a list. -/
inductive ListOp (ι α : Type) where
  | pushFront (l : ι) (a : α)
  | pushBack (l : ι) (a : α)
  | insertBefore (l : ι) (pivot a : α)
  | insertAfter (l : ι) (pivot a : α)
  | remove (l : ι) (a : α)
deriving DecidableEq

/-- `a` right before the first `p`. -/
def insertAhead [DecidableEq α] (p a : α) : List α → List α
  | [] => []
  | x :: xs => if x = p then a :: x :: xs else x :: insertAhead p a xs

/-- `a` right after the first `p`. -/
def insertBehind [DecidableEq α] (p a : α) : List α → List α
  | [] => []
  | x :: xs => if x = p then x :: a :: xs else x :: insertBehind p a xs

section Insertion

variable [DecidableEq α] {p a : α} {xs ys : List α}

theorem insertAhead_append (h : p ∉ xs) :
    insertAhead p a (xs ++ p :: ys) = xs ++ a :: p :: ys := by
  induction xs with
  | nil => exact if_pos rfl
  | cons x xs ih =>
    rw [List.mem_cons, not_or] at h
    rw [List.cons_append, insertAhead, if_neg (Ne.symm h.1), ih h.2, List.cons_append]

theorem insertBehind_append (h : p ∉ xs) :
    insertBehind p a (xs ++ p :: ys) = xs ++ p :: a :: ys := by
  induction xs with
  | nil => exact if_pos rfl
  | cons x xs ih =>
    rw [List.mem_cons, not_or] at h
    rw [List.cons_append, insertBehind, if_neg (Ne.symm h.1), ih h.2, List.cons_append]

end Insertion

namespace ListOp

/-- The list that the operation is called on. -/
def list : ListOp ι α → ι
  | pushFront l _ | pushBack l _ | insertBefore l _ _ | insertAfter l _ _ | remove l _ => l

/-- What the caller has to see to. -/
def Allowed (L : ι → List α) : ListOp ι α → Prop
  | pushFront _ a | pushBack _ a => ∀ l, a ∉ L l
  | insertBefore l p a | insertAfter l p a => p ∈ L l ∧ ∀ l', a ∉ L l'
  | remove l a => a ∈ L l

variable [DecidableEq ι] [DecidableEq α]

/-- What an operation does to the sequences. -/
def effect (L : ι → List α) : ListOp ι α → ι → List α
  | pushFront l a => update L l (a :: L l)
  | pushBack l a => update L l (L l ++ [a])
  | insertBefore l p a => update L l (insertAhead p a (L l))
  | insertAfter l p a => update L l (insertBehind p a (L l))
  | remove l a => update L l ((L l).erase a)

theorem effect_of_ne {op : ListOp ι α} {L : ι → List α} {l : ι} (hl : l ≠ op.list) :
    op.effect L l = L l := by
  cases op <;> exact Function.update_of_ne hl ..

/-- Each operation of the sequence is allowed when its turn comes. -/
def AllAllowed (L : ι → List α) : List (ListOp ι α) → Prop
  | [] => True
  | op :: ops => op.Allowed L ∧ AllAllowed (op.effect L) ops

/-- What a sequence of operations does. -/
def effects (L : ι → List α) : List (ListOp ι α) → ι → List α
  | [] => L
  | op :: ops => effects (op.effect L) ops

end ListOp

namespace Heap

variable [DecidableEq ι] [DecidableEq α] {h : Heap ι α} {L : ι → List α} {op : ListOp ι α}
  {ops : List (ListOp ι α)}

/-- What the operation does to the pointers. -/
def apply (h : Heap ι α) : ListOp ι α → Option (Heap ι α)
  | .pushFront l a => h.pushFront l a
  | .pushBack l a => h.pushBack l a
  | .insertBefore l p a => h.insertBefore l p a
  | .insertAfter l p a => h.insertAfter l p a
  | .remove l a => h.remove l a

/-- What the operations do, one after the other. -/
def applyAll (h : Heap ι α) : List (ListOp ι α) → Option (Heap ι α)
  | [] => some h
  | op :: ops => do (← h.apply op).applyAll ops

/-- **One operation.** -/
theorem Represents.apply (hr : h.Represents L) (ha : op.Allowed L) :
    ∃ h', h.apply op = some h' ∧ h'.Represents (op.effect L) := by
  cases op with
  | pushFront l a => exact hr.pushFront_spec ha
  | pushBack l a => exact hr.pushBack_spec ha
  | insertBefore l p a =>
    obtain ⟨hp, ha⟩ := ha
    obtain ⟨xs, ys, hL, hpx⟩ := List.eq_append_cons_of_mem hp
    rw [ListOp.effect, hL, insertAhead_append hpx]
    exact hr.insertBefore_spec hL ha
  | insertAfter l p a =>
    obtain ⟨hp, ha⟩ := ha
    obtain ⟨xs, ys, hL, hpx⟩ := List.eq_append_cons_of_mem hp
    rw [ListOp.effect, hL, insertBehind_append hpx]
    exact hr.insertAfter_spec hL ha
  | remove l a => exact hr.remove_spec ha

/-- **A sequence of operations.** -/
theorem Represents.applyAll (hr : h.Represents L) (ha : ListOp.AllAllowed L ops) :
    ∃ h', h.applyAll ops = some h' ∧ h'.Represents (ListOp.effects L ops) := by
  induction ops generalizing h L with
  | nil => exact ⟨h, rfl, hr⟩
  | cons op ops ih =>
    obtain ⟨h₁, ho, hr₁⟩ := hr.apply ha.1
    obtain ⟨h', hops, hr'⟩ := ih hr₁ ha.2
    refine ⟨h', ?_, hr'⟩
    rw [Heap.applyAll, ho]
    exact hops

/-- What can be seen of the lists from outside is the family of sequences `L`. -/
structure Shows (h : Heap ι α) (L : ι → List α) : Prop where
  nodup : ∀ l, (L l).Nodup
  disjoint : ∀ l l' a, a ∈ L l → a ∈ L l' → l = l'
  front : ∀ l, h.front l = (L l).head?
  back : ∀ l, h.back l = (L l).getLast?
  next : ∀ l xs a ys, L l = xs ++ a :: ys → h.nextOf l a = ys.head?
  prev : ∀ l xs a ys, L l = xs ++ a :: ys → h.prevOf l a = xs.getLast?
  size : ∀ l, h.size l = (L l).length
  empty : ∀ l, h.isEmpty l = true ↔ L l = []
  inList : ∀ a, h.inList a = true ↔ ∃ l, a ∈ L l

theorem Represents.shows (hr : h.Represents L) : h.Shows L where
  nodup := hr.nodup
  disjoint := hr.disjoint
  front := hr.front_eq
  back := hr.back_eq
  next _ _ _ _ hL := hr.nextOf_eq hL
  prev _ _ _ _ hL := hr.prevOf_eq hL
  size := hr.size
  empty := hr.isEmpty_iff
  inList := hr.inList_iff

/-- **The lists are disjoint sequences.**  A sequence of allowed operations on new lists never
dereferences a null pointer, and afterwards the lists show the sequences that the same operations
make of empty ones.  One more operation leaves the sequences of the other lists as they are. -/
theorem lists_refine (ops : List (ListOp ι α)) (ha : ListOp.AllAllowed (fun _ ↦ []) ops) :
    ∃ h : Heap ι α, init.applyAll ops = some h ∧ h.Shows (ListOp.effects (fun _ ↦ []) ops) ∧
      ∀ op : ListOp ι α, op.Allowed (ListOp.effects (fun _ ↦ []) ops) →
        ∃ h', h.apply op = some h' ∧ ∀ l, l ≠ op.list → h'.toList l = h.toList l := by
  obtain ⟨h, ho, hr⟩ := represents_init.applyAll ha
  refine ⟨h, ho, hr.shows, fun op hop ↦ ?_⟩
  obtain ⟨h', ho', hr'⟩ := hr.apply hop
  refine ⟨h', ho', fun l hl ↦ ?_⟩
  rw [hr'.toList_eq, hr.toList_eq, ListOp.effect_of_ne hl]

/-- Two lists over the numbers. -/
theorem lists_refine_two : ∃ h : Heap Bool ℕ,
    init.applyAll [.pushBack false 1, .pushFront false 2, .insertBefore false 1 3,
      .insertAfter false 3 4, .pushBack true 5, .remove false 1] = some h ∧
      h.front false = some 2 ∧ h.back false = some 4 ∧ h.size true = 1 := by
  obtain ⟨h, ho, hs, -⟩ := lists_refine
    [.pushBack false 1, .pushFront false 2, .insertBefore false 1 3,
      .insertAfter false 3 4, .pushBack true 5, .remove false 1]
    (by simp [ListOp.AllAllowed, ListOp.Allowed, ListOp.effect, insertAhead, insertBehind])
  exact ⟨h, ho, hs.front false, hs.back false, hs.size true⟩

end Heap

end Chino
