import Chino.ErrorCode
import Chino.Library.Chain
import Mathlib.Data.BitVec

/-!
# Object pools

A segment is a page: a header, and after it the elements, which are free-list links or constructed
objects.  Both start at the same address, so the first word of an element is the link's `used` as
well as the first word of the object, and the second word its `next` as well as the rest of the
object.

Pointers are addresses here, and indices are computed from them.  A result `none` is an access to
something that is not an element.

A pool starts with one segment, and nothing links a second one: `next` of the head segment is null,
so the loops over the segments have one round.

## The free list

`FreeList free` says that the list of links from the head of the segment has the elements `free`, in
this order, that their first words are zero, and that all other elements have a first word that is
not.  It is a `Chain` of `Chino.Library.Chain`, so it has no element twice.

`allocate`, `push` and a write to a used element have one lemma each (`FreeList.allocate_cons`,
`FreeList.push`, `FreeList.update`).  The constructor links all elements in their order
(`freeList_init`), so a new pool gives out the indices from zero on.
-/

set_option autoImplicit false

namespace Chino

open Function (update)

/-- The two words of an element: `object_entry`. -/
structure ObjectEntry where
  used : ℕ
  next : ℕ
deriving DecidableEq

/-- `object_segment`, at its address. -/
structure ObjectSegment where
  address : ℕ
  frees : ℕ
  freeHead : ℕ
  element : ℕ → ObjectEntry

namespace ObjectSegment

/-- `hal::arch_t::min_page_size` -/
def segmentSize : ℕ := 4096

/-- `sizeof(object_segment_base)`: two pointers, the lock and the number of free elements. -/
def headerSize : ℕ := 32

/-- `sizeof(element)` -/
def elementSize : ℕ := 16

/-- `elements_count` -/
def elementsCount : ℕ := (segmentSize - headerSize) / elementSize

/-- The address of an element. -/
def elementAddress (s : ObjectSegment) (i : ℕ) : ℕ := s.address + headerSize + i * elementSize

/-- `index` -/
def index (s : ObjectSegment) (handle : ℕ) : ℕ := (handle - (s.address + headerSize)) / elementSize

/-- The element that a pointer points to. -/
def element? (s : ObjectSegment) (handle : ℕ) : Option ℕ :=
  if s.index handle < elementsCount ∧ handle = s.elementAddress (s.index handle) then
    some (s.index handle)
  else none

/-- The constructor: the elements are linked in their order. -/
def init (address : ℕ) : ObjectSegment :=
  let s : ObjectSegment := ⟨address, elementsCount, 0, fun _ ↦ ⟨0, 0⟩⟩
  { s with
    freeHead := s.elementAddress 0
    element := fun i ↦ if i < elementsCount - 1 then ⟨0, s.elementAddress (i + 1)⟩ else ⟨0, 0⟩ }

/-- `allocate`: the element, and its index. -/
def allocate (s : ObjectSegment) : Option (Except ErrorCode (ℕ × ℕ) × ObjectSegment) :=
  if s.freeHead = 0 then some (.error .outOfMemory, s)
  else do
    let i ← s.element? s.freeHead
    some (.ok (s.freeHead, s.index s.freeHead), { s with
      freeHead := (s.element i).next
      frees := s.frees - 1 })

/-- Something is written to an element. -/
def modify (s : ObjectSegment) (handle : ℕ) (f : ObjectEntry → ObjectEntry) :
    Option ObjectSegment := do
  let i ← s.element? handle
  some { s with element := update s.element i (f (s.element i)) }

/-- The locked part of `free`. -/
def push (s : ObjectSegment) (handle : ℕ) : Option ObjectSegment := do
  let s' ← s.modify handle fun _ ↦ ⟨0, s.freeHead⟩
  some { s' with
    freeHead := handle
    frees := s.frees + 1 }

/-- `at` -/
def entryAt (s : ObjectSegment) (index : ℕ) : Except ErrorCode ℕ :=
  if (s.element index).used = 0 then .error .invalidArgument else .ok (s.elementAddress index)

/-- `at_with_segment`, in a pool with one segment -/
def atWithSegment (s : ObjectSegment) (index : ℕ) : Except ErrorCode ℕ :=
  if elementsCount ≤ index then .error .notFound else s.entryAt index

/-! ## The free list -/

/-- The elements are free in the order of the list, and the others are used. -/
structure FreeList (s : ObjectSegment) (free : List ℕ) : Prop where
  chain : Chain s.elementAddress 0 (fun i ↦ (s.element i).next) s.freeHead free
  lt : ∀ i ∈ free, i < elementsCount
  frees : s.frees = free.length

variable {s s' : ObjectSegment} {i j : ℕ} {free : List ℕ} {f : ObjectEntry → ObjectEntry}

theorem elementsCount_pos : 0 < elementsCount := by decide

theorem index_elementAddress : s.index (s.elementAddress i) = i := by
  simp only [index, elementAddress, elementSize]
  omega

theorem elementAddress_injective : Function.Injective s.elementAddress := fun i j h ↦ by
  rw [← index_elementAddress (s := s) (i := i), h, index_elementAddress]

theorem elementAddress_ne_zero (i : ℕ) : s.elementAddress i ≠ 0 := by
  simp only [elementAddress, headerSize]
  omega

theorem element?_elementAddress (hi : i < elementsCount) :
    s.element? (s.elementAddress i) = some i := by
  rw [element?, index_elementAddress, if_pos ⟨hi, rfl⟩]

theorem FreeList.nodup (h : s.FreeList free) : free.Nodup :=
  h.chain.nodup elementAddress_injective elementAddress_ne_zero

theorem modify_eq (hi : i < elementsCount) :
    s.modify (s.elementAddress i) f =
      some { s with element := update s.element i (f (s.element i)) } := by
  rw [modify, element?_elementAddress hi]
  rfl

/-- Used elements are written without changing the free list. -/
theorem FreeList.update (h : s.FreeList free) (hi : i ∉ free) (e : ObjectEntry) :
    FreeList { s with element := Function.update s.element i e } free where
  chain := h.chain.congr fun j hj ↦ by
    have hne : j ≠ i := by
      rintro rfl
      exact hi hj
    simp [hne]
  lt := h.lt
  frees := h.frees

theorem FreeList.allocate_nil (h : s.FreeList []) : s.allocate = some (.error .outOfMemory, s) := by
  rw [allocate, if_pos (show s.freeHead = 0 from h.chain)]

/-- `allocate` takes the first element of the list. -/
theorem FreeList.allocate_cons (h : s.FreeList (i :: free)) :
    ∃ s', s.allocate = some (.ok (s.elementAddress i, i), s') ∧ s'.FreeList free ∧
      s'.address = s.address ∧ s'.element = s.element := by
  obtain ⟨hhead, hchain⟩ := h.chain
  have hi := h.lt i List.mem_cons_self
  have hne : s.freeHead ≠ 0 := by
    rw [hhead]
    exact elementAddress_ne_zero i
  refine ⟨{ s with freeHead := (s.element i).next, frees := s.frees - 1 }, ?_, ⟨hchain, ?_, ?_⟩,
    rfl, rfl⟩
  · rw [allocate, if_neg hne, hhead, element?_elementAddress hi, index_elementAddress]
    rfl
  · exact fun j hj ↦ h.lt j (List.mem_cons_of_mem _ hj)
  · dsimp only
    rw [h.frees, List.length_cons, Nat.add_sub_cancel]

/-- `push` makes an element the first one of the list. -/
theorem FreeList.push (h : s.FreeList free) (hi : i < elementsCount) (hfree : i ∉ free) :
    ∃ s', s.push (s.elementAddress i) = some s' ∧ s'.FreeList (i :: free) ∧
      s'.address = s.address ∧ s'.element = Function.update s.element i ⟨0, s.freeHead⟩ := by
  refine ⟨{ s with
    element := Function.update s.element i ⟨0, s.freeHead⟩
    freeHead := s.elementAddress i
    frees := s.frees + 1 }, ?_, ⟨?_, ?_, ?_⟩, rfl, rfl⟩
  · rw [ObjectSegment.push, modify_eq hi]
    rfl
  · refine ⟨rfl, ?_⟩
    simp only [Function.update_self]
    exact (h.update hfree ⟨0, s.freeHead⟩).chain
  · intro j hj
    rcases List.mem_cons.mp hj with rfl | hj
    · exact hi
    · exact h.lt j hj
  · dsimp only
    rw [h.frees, List.length_cons]

/-- The constructor links all elements. -/
theorem freeList_init (address : ℕ) : (init address).FreeList (List.range elementsCount) := by
  have hchain : ∀ k i, i + (k + 1) = elementsCount → Chain (init address).elementAddress 0
      (fun i ↦ ((init address).element i).next) ((init address).elementAddress i)
        (List.range' i (k + 1)) := by
    intro k
    induction k with
    | zero =>
      intro i hi
      refine ⟨rfl, ?_⟩
      have hlast : ¬ i < elementsCount - 1 := by omega
      simp [init, hlast, Chain]
    | succ k ih =>
      intro i hi
      refine ⟨rfl, ?_⟩
      have hlt : i < elementsCount - 1 := by omega
      have := ih (i + 1) (by omega)
      simpa [init, hlt, elementAddress] using this
  refine ⟨?_, fun i hi ↦ List.mem_range.mp hi, ?_⟩
  · rw [List.range_eq_range']
    exact hchain (elementsCount - 1) 0 (by decide)
  · rw [List.length_range]
    rfl

end ObjectSegment

end Chino
