import Chino.Library.Run
import Chino.Ob.ObjectPool

/-!
# Object pools of any type

`object_pool<T>` for every `T`, over the words of the memory.  An element of the pool is a union of
a free-list link, which is two words, and an entry; its size and alignment are those of the larger
one.  The base class of the segments does not know `T`.  It has the elements right behind its header
and counts them in links, while `object_segment` has its `elements_` where the alignment of an
element puts them, one behind the other.  `ObjectSegment` of `Chino.Ob.ObjectPool` is the case of an
element that is no larger than a link.

A run of `machine` is any sequence of `allocate`, of `free` by pointer and by index, and of changes
that the constructed objects make to themselves.  `live` records what `allocate` returned for the
objects that are not yet freed.

`indices_valid_iff` says which types have names for their entries: those whose elements are as large
as a link, and those of which there is only one on a page.

## Two layouts

The base class computes in units of a link: it counts how many fit on a page, and finds an element
from its index and an index from a pointer by a multiplication and a division by the size of a link.
The segment itself has elements of the size of the union.  So

* the index of an element is its number only if the two sizes agree, or if there is one element only
  and its index is zero;
* an index between two elements leads into an object, and is taken for an entry if the word there is
  not zero (`index_into_object`).

`IndicesValid` is what a caller expects of indices, in one state: they are below `elements_count`,
different for different live objects, lead to the pointer that `allocate` returned, and every other
index is an error.  `indices_valid_iff` is an equivalence over the element types, for the runs in
which the objects keep their first word from being zero (`Marked`).  Its second part says why that
has to be asked: an object whose first word is zero is not found under its own index.
-/

set_option autoImplicit false

namespace Chino

open Function (update)
open ObjectSegment (segmentSize headerSize)

/-- `sizeof(object_entry)` -/
def linkSize : ℕ := 16

/-- The layout of the `element` of an object pool. -/
structure ElementType where
  size : ℕ
  align : ℕ
  link_le : linkSize ≤ size
  align_pow : ∃ k, align = 2 ^ k
  /-- An element is a link, or an object in its place. -/
  word_dvd : 8 ∣ align
  align_dvd : align ∣ size
  fits : size ≤ segmentSize - headerSize

/-- A segment at its address, and the memory. -/
structure Segment where
  address : ℕ
  frees : ℕ
  freeHead : ℕ
  word : ℕ → ℕ

namespace ElementType

variable (T : ElementType)

/-- `object_segment::elements_count` -/
def elementsCount : ℕ := (segmentSize - headerSize) / T.size

/-- The offset of `object_segment::elements_`. -/
def elementsOffset : ℕ := (headerSize + T.align - 1) / T.align * T.align

/-- The constructor of `object_segment`, which links all elements but the last one. -/
def construct (address : ℕ) : Segment where
  address := address
  frees := T.elementsCount
  freeHead := address + headerSize
  word a :=
    let first := address + T.elementsOffset
    let i := (a - (first + 8)) / T.size
    if first + 8 ≤ a ∧ (a - (first + 8)) % T.size = 0 ∧ i < T.elementsCount - 1 then
      first + (i + 1) * T.size
    else 0

end ElementType

namespace Segment

/-- `object_segment_base::elements_` -/
def elements (s : Segment) : ℕ := s.address + headerSize

/-- `index`: the difference of two pointers to links. -/
def index (s : Segment) (handle : ℕ) : ℕ := (handle - s.elements) / linkSize

/-- `allocate` -/
def allocate (s : Segment) : Except ErrorCode (ℕ × ℕ) × Segment :=
  if s.freeHead = 0 then (.error .outOfMemory, s)
  else (.ok (s.freeHead, s.index s.freeHead),
    { s with freeHead := s.word (s.freeHead + 8), frees := s.frees - 1 })

/-- The locked part of `free`. -/
def push (s : Segment) (handle : ℕ) : Segment :=
  { s with
    word := update (update s.word handle 0) (handle + 8) s.freeHead
    freeHead := handle
    frees := s.frees + 1 }

/-- `at` of a pool with one segment. -/
def entryAt (T : ElementType) (s : Segment) (index : ℕ) : Except ErrorCode ℕ :=
  if T.elementsCount ≤ index then .error .notFound
  else if s.word (s.elements + index * linkSize) = 0 then .error .invalidArgument
  else .ok (s.elements + index * linkSize)

/-- `find_segment` finds the one segment. -/
def Contains (s : Segment) (handle : ℕ) : Prop :=
  s.address + headerSize ≤ handle ∧ handle < s.address + segmentSize

instance (s : Segment) (handle : ℕ) : Decidable (s.Contains handle) :=
  inferInstanceAs (Decidable (_ ∧ _))

/-- An object is constructed in an element. -/
def constructAt (T : ElementType) (s : Segment) (handle : ℕ) (object : ℕ → ℕ) : Segment :=
  { s with word := fun a ↦
      if handle ≤ a ∧ a < handle + T.size then object (a - handle) else s.word a }

end Segment

/-! ## Runs -/

/-- What `allocate` returned. -/
structure PoolEntry where
  pointer : ℕ
  index : ℕ
deriving DecidableEq

/-- The segment, and the objects that have been allocated and not freed. -/
structure ElementPool where
  segment : Segment
  live : List PoolEntry

/-- An object is constructed, changes itself, or is destroyed. -/
inductive PoolEvent where
  /-- `object` are the words of the constructed object. -/
  | allocate (object : ℕ → ℕ)
  /-- An object changes one of its words. -/
  | write (pointer offset value : ℕ)
  | freePointer (pointer : ℕ)
  | freeIndex (index : ℕ)

namespace ElementPool

/-- The element is freed, and with it the object in it. -/
def release (s : ElementPool) (pointer : ℕ) : ElementPool where
  segment := s.segment.push pointer
  live := s.live.filter fun x ↦ x.pointer ≠ pointer

/-- `allocate`, with the constructor. -/
def allocate (T : ElementType) (s : ElementPool) (object : ℕ → ℕ) : ElementPool :=
  match s.segment.allocate with
  | (.error _, segment) => { s with segment := segment }
  | (.ok (pointer, index), segment) =>
    { segment := segment.constructAt T pointer object
      live := s.live ++ [⟨pointer, index⟩] }

/-- The next state, or none where the event does not apply. -/
def next (T : ElementType) (s : ElementPool) : PoolEvent → Option ElementPool
  | .allocate object => some (s.allocate T object)
  | .write pointer offset value =>
    if pointer ∈ s.live.map PoolEntry.pointer ∧ 8 ∣ offset ∧ offset < T.size then
      some { s with segment :=
        { s.segment with word := update s.segment.word (pointer + offset) value } }
    else none
  | .freePointer pointer =>
    if pointer ∈ s.live.map PoolEntry.pointer then
      some (if s.segment.Contains pointer then s.release pointer else s)
    else none
  | .freeIndex index =>
    match s.segment.entryAt T index with
    | .error _ => some s
    | .ok pointer => some (s.release pointer)

/-- The pool of the type, with its segment at the address. -/
def machine (T : ElementType) (address : ℕ) : Machine ElementPool PoolEvent where
  init := ⟨T.construct address, []⟩
  next := next T

/-- Indices are names of the entries. -/
structure IndicesValid (T : ElementType) (s : ElementPool) : Prop where
  lt : ∀ x ∈ s.live, x.index < T.elementsCount
  nodup : (s.live.map PoolEntry.index).Nodup
  entryAt : ∀ x ∈ s.live, s.segment.entryAt T x.index = .ok x.pointer
  free : ∀ i, (∀ x ∈ s.live, x.index ≠ i) → ∃ e, s.segment.entryAt T i = .error e

/-- The first word of an object is not zero. -/
def Marked (_ : ElementPool) : PoolEvent → Prop
  | .allocate object => object 0 ≠ 0
  | .write _ offset value => offset = 0 → value ≠ 0
  | _ => True

/-! ## Elements at their addresses -/

/-- The index of the base class and the place of an element agree. -/
def Uniform (T : ElementType) : Prop := T.size = linkSize ∨ T.elementsCount = 1

end ElementPool

namespace Segment

variable {T : ElementType} {s s' : Segment} {i j o : ℕ}

/-- The address of an element, if the elements start right behind the header. -/
def slot (T : ElementType) (s : Segment) (i : ℕ) : ℕ := s.elements + i * T.size

theorem slot_ne_zero (i : ℕ) : s.slot T i ≠ 0 := by
  simp only [slot, elements, headerSize]
  omega

theorem slot_add_le (h : i < j) : s.slot T i + T.size ≤ s.slot T j := by
  have := Nat.mul_le_mul_right T.size h
  rw [Nat.succ_mul] at this
  simp only [slot]
  omega

theorem slot_injective : Function.Injective (s.slot T) := by
  have hpos := T.link_le
  intro i j h
  by_contra hne
  rcases Nat.lt_or_gt_of_ne hne with hlt | hlt <;> have := slot_add_le (s := s) (T := T) hlt <;>
    simp only [linkSize] at hpos <;> omega

/-- An element ends before another one begins. -/
theorem slot_disjoint (h : j ≠ i) (ho : o < T.size) :
    s.slot T j + o < s.slot T i ∨ s.slot T i + T.size ≤ s.slot T j + o := by
  rcases Nat.lt_or_gt_of_ne h with hlt | hlt <;> have := slot_add_le (s := s) (T := T) hlt <;> omega

theorem slot_contains (h : i < T.elementsCount) : s.Contains (s.slot T i) := by
  have hle : (i + 1) * T.size ≤ T.elementsCount * T.size := Nat.mul_le_mul_right _ h
  have hfit : T.elementsCount * T.size ≤ segmentSize - headerSize := Nat.div_mul_le_self _ _
  have hpos := T.link_le
  rw [Nat.succ_mul] at hle
  simp only [Contains, slot, elements, headerSize, segmentSize, linkSize] at *
  omega

/-- What is written to one element does not change the link of another one. -/
theorem words_of_ne {word : ℕ → ℕ} (hsame : ∀ a, a < s.slot T i ∨ s.slot T i + T.size ≤ a →
    word a = s.word a) (h : j ≠ i) :
    word (s.slot T j) = s.word (s.slot T j) ∧ word (s.slot T j + 8) = s.word (s.slot T j + 8) := by
  have hpos := T.link_le
  simp only [linkSize] at hpos
  exact ⟨hsame _ (slot_disjoint (o := 0) h (by omega)), hsame _ (slot_disjoint h (by omega))⟩

theorem mul_linkSize (hT : ElementPool.Uniform T) (hi : i < T.elementsCount) :
    i * T.size = i * linkSize := by
  rcases hT with hT | hT
  · rw [hT]
  · obtain rfl : i = 0 := by omega
    simp

theorem index_slot (hT : ElementPool.Uniform T) (hi : i < T.elementsCount) :
    s.index (s.slot T i) = i := by
  rw [index, slot, mul_linkSize hT hi, Nat.add_sub_cancel_left, Nat.mul_div_cancel _ (by decide)]

theorem entryAt_eq (hT : ElementPool.Uniform T) (hi : i < T.elementsCount) : s.entryAt T i =
    if s.word (s.slot T i) = 0 then .error .invalidArgument else .ok (s.slot T i) := by
  rw [entryAt, if_neg (by omega), slot, mul_linkSize hT hi]

end Segment

namespace ElementPool

variable {T : ElementType} {address : ℕ} {s s' : ElementPool} {free : List ℕ} {e : PoolEvent}
  {i j : ℕ}

/-- The elements of the list are free, in its order, and the others are live. -/
structure Indexed (T : ElementType) (s : ElementPool) (free : List ℕ) : Prop where
  chain : Chain (s.segment.slot T) 0 (fun i ↦ s.segment.word (s.segment.slot T i + 8))
    s.segment.freeHead free
  lt : ∀ i ∈ free, i < T.elementsCount
  zero : ∀ i ∈ free, s.segment.word (s.segment.slot T i) = 0
  live : ∀ x ∈ s.live, x.index < T.elementsCount ∧ x.pointer = s.segment.slot T x.index ∧
    s.segment.word x.pointer ≠ 0 ∧ x.index ∉ free
  nodup : (s.live.map PoolEntry.index).Nodup
  all : ∀ i < T.elementsCount, i ∈ free ∨ ∃ x ∈ s.live, x.index = i

/-- The names of an indexed pool. -/
theorem Indexed.valid (h : Indexed T s free) (hT : Uniform T) : IndicesValid T s where
  lt x hx := (h.live x hx).1
  nodup := h.nodup
  entryAt x hx := by
    obtain ⟨hlt, hp, hw, -⟩ := h.live x hx
    rw [Segment.entryAt_eq hT hlt, ← hp, if_neg hw]
  free i hi := by
    by_cases hlt : i < T.elementsCount
    · have hfree := (h.all i hlt).resolve_right fun ⟨x, hx, hxi⟩ ↦ hi x hx hxi
      exact ⟨_, by rw [Segment.entryAt_eq hT hlt, if_pos (h.zero i hfree)]⟩
    · exact ⟨_, by rw [Segment.entryAt, if_pos (by omega)]⟩

/-- Two live objects are in different elements. -/
theorem Indexed.eq_of_pointer (h : Indexed T s free) {x y : PoolEntry} (hx : x ∈ s.live)
    (hy : y ∈ s.live) (hp : x.pointer = y.pointer) : x = y := by
  have hi : x.index = y.index := by
    rw [(h.live x hx).2.1, (h.live y hy).2.1] at hp
    exact Segment.slot_injective hp
  cases x
  cases y
  simp_all

/-- A live object writes into its own element. -/
theorem Indexed.write (h : Indexed T s free) {x : PoolEntry} (hx : x ∈ s.live) {word : ℕ → ℕ}
    (hsame : ∀ a, a < x.pointer ∨ x.pointer + T.size ≤ a → word a = s.segment.word a)
    (hmark : word x.pointer ≠ 0) :
    Indexed T { s with segment := { s.segment with word := word } } free := by
  obtain ⟨hlt, hp, -, hfree⟩ := h.live x hx
  rw [hp] at hsame
  have hother : ∀ {j}, j ≠ x.index → _ := fun hj ↦ Segment.words_of_ne hsame hj
  have hne : ∀ j ∈ free, j ≠ x.index := by
    rintro j hj rfl
    exact hfree hj
  refine ⟨h.chain.congr fun j hj ↦ (hother (hne j hj)).2, h.lt,
    fun j hj ↦ ((hother (hne j hj)).1).trans (h.zero j hj), fun y hy ↦ ?_, h.nodup, h.all⟩
  obtain ⟨hylt, hyp, hyw, hyfree⟩ := h.live y hy
  refine ⟨hylt, hyp, ?_, hyfree⟩
  by_cases hi : y.index = x.index
  · rwa [hyp, hi, ← hp]
  · rw [hyp] at hyw ⊢
    exact (hother hi).1.trans_ne hyw

/-- The first free element is taken, and an object is constructed in it. -/
theorem Indexed.allocate (h : Indexed T s free) (hT : Uniform T) {object : ℕ → ℕ}
    (hmark : object 0 ≠ 0) : ∃ free', Indexed T (s.allocate T object) free' := by
  cases free with
  | nil =>
    have hnull : s.segment.freeHead = 0 := h.chain
    refine ⟨[], ?_⟩
    rw [ElementPool.allocate, Segment.allocate, if_pos hnull]
    exact h
  | cons i free =>
    obtain ⟨hhead, hchain⟩ := h.chain
    have hlt := h.lt i List.mem_cons_self
    have hnd := h.chain.nodup Segment.slot_injective Segment.slot_ne_zero
    have hne : ∀ j ∈ free, j ≠ i := by
      rintro j hj rfl
      exact (List.nodup_cons.mp hnd).1 hj
    have hpos := T.link_le
    simp only [linkSize] at hpos
    have heq : s.allocate T object =
        { segment := ({ s.segment with
            freeHead := s.segment.word (s.segment.slot T i + 8)
            frees := s.segment.frees - 1 } : Segment).constructAt T (s.segment.slot T i) object
          live := s.live ++ [⟨s.segment.slot T i, i⟩] } := by
      rw [ElementPool.allocate, Segment.allocate, if_neg (hhead ▸ Segment.slot_ne_zero i)]
      dsimp only
      rw [hhead, Segment.index_slot hT hlt]
    let word : ℕ → ℕ := fun a ↦
      if s.segment.slot T i ≤ a ∧ a < s.segment.slot T i + T.size then
        object (a - s.segment.slot T i) else s.segment.word a
    have hother : ∀ {j}, j ≠ i → word (s.segment.slot T j) = s.segment.word (s.segment.slot T j) ∧
        word (s.segment.slot T j + 8) = s.segment.word (s.segment.slot T j + 8) :=
      fun hj ↦ Segment.words_of_ne (fun a ha ↦ if_neg (by omega)) hj
    have hself : word (s.segment.slot T i) = object 0 := by
      simp only [word, Nat.sub_self]
      exact if_pos ⟨le_rfl, by omega⟩
    refine ⟨free, ?_⟩
    rw [heq]
    refine ⟨hchain.congr fun j hj ↦ (hother (hne j hj)).2,
      fun j hj ↦ h.lt j (List.mem_cons_of_mem _ hj),
      fun j hj ↦ (hother (hne j hj)).1.trans (h.zero j (List.mem_cons_of_mem _ hj)),
      fun x hx ↦ ?_, ?_, fun j hj ↦ ?_⟩
    · rcases List.mem_append.mp hx with hx | hx
      · obtain ⟨hxlt, hxp, hxw, hxfree⟩ := h.live x hx
        simp only [List.mem_cons, not_or] at hxfree
        refine ⟨hxlt, hxp, ?_, hxfree.2⟩
        rw [hxp] at hxw ⊢
        exact (hother hxfree.1).1.trans_ne hxw
      · rw [List.mem_singleton] at hx
        subst hx
        exact ⟨hlt, rfl, hself.trans_ne hmark, fun hi ↦ hne i hi rfl⟩
    · rw [List.map_append, List.nodup_append]
      refine ⟨h.nodup, List.nodup_singleton _, ?_⟩
      rintro _ ha _ hb rfl
      obtain ⟨x, hx, rfl⟩ := List.mem_map.mp ha
      rw [List.map_singleton, List.mem_singleton] at hb
      exact (h.live x hx).2.2.2 (hb ▸ List.mem_cons_self)
    · by_cases hji : j = i
      · exact Or.inr ⟨_, List.mem_append_right _ List.mem_cons_self, hji.symm⟩
      · rcases h.all j hj with hf | ⟨x, hx, hxj⟩
        · exact Or.inl ((List.mem_cons.mp hf).resolve_left hji)
        · exact Or.inr ⟨x, List.mem_append_left _ hx, hxj⟩

/-- A live object is freed. -/
theorem Indexed.release (h : Indexed T s free) {x : PoolEntry} (hx : x ∈ s.live) :
    Indexed T (s.release x.pointer) (x.index :: free) := by
  obtain ⟨hlt, hp, -, hfree⟩ := h.live x hx
  have hpos := T.link_le
  simp only [linkSize] at hpos
  have hsame : ∀ a, a < s.segment.slot T x.index ∨ s.segment.slot T x.index + T.size ≤ a →
      (s.segment.push x.pointer).word a = s.segment.word a := by
    intro a ha
    rw [← hp] at ha
    simp only [Segment.push]
    rw [Function.update_of_ne (by omega), Function.update_of_ne (by omega)]
  have hother : ∀ {j}, j ≠ x.index → _ := fun hj ↦ Segment.words_of_ne hsame hj
  have hne : ∀ j ∈ free, j ≠ x.index := by
    rintro j hj rfl
    exact hfree hj
  have hzero : (s.segment.push x.pointer).word x.pointer = 0 := by
    simp only [Segment.push]
    rw [Function.update_of_ne (by omega), Function.update_self]
  have hlink : (s.segment.push x.pointer).word (s.segment.slot T x.index + 8)
      = s.segment.freeHead := by
    simp only [Segment.push, ← hp, Function.update_self]
  have hmem : ∀ y, y ∈ (s.release x.pointer).live ↔ y ∈ s.live ∧ y.index ≠ x.index := by
    intro y
    rw [ElementPool.release, List.mem_filter]
    refine and_congr_right fun hy ↦ ?_
    simp only [ne_eq, decide_not, Bool.not_eq_true', decide_eq_false_iff_not]
    refine not_congr ⟨fun he ↦ congrArg _ (h.eq_of_pointer hy hx he), fun he ↦ ?_⟩
    rw [(h.live y hy).2.1, hp, he]
  refine ⟨⟨hp, ?_⟩, fun j hj ↦ ?_, fun j hj ↦ ?_, fun y hy ↦ ?_, ?_, fun j hj ↦ ?_⟩
  · have hchain := h.chain.congr fun j hj ↦ (hother (hne j hj)).2
    rw [← hlink] at hchain
    exact hchain
  · rcases List.mem_cons.mp hj with rfl | hj
    · exact hlt
    · exact h.lt j hj
  · rcases List.mem_cons.mp hj with rfl | hj
    · exact hp ▸ hzero
    · exact (hother (hne j hj)).1.trans (h.zero j hj)
  · obtain ⟨hy, hyx⟩ := (hmem y).mp hy
    obtain ⟨hylt, hyp, hyw, hyfree⟩ := h.live y hy
    refine ⟨hylt, hyp, ?_, fun hm ↦ hyfree ((List.mem_cons.mp hm).resolve_left hyx)⟩
    rw [hyp] at hyw ⊢
    exact (hother hyx).1.trans_ne hyw
  · exact h.nodup.sublist (List.filter_sublist.map _)
  · by_cases hjx : j = x.index
    · exact Or.inl (hjx ▸ List.mem_cons_self)
    · rcases h.all j hj with hf | ⟨y, hy, hyj⟩
      · exact Or.inl (List.mem_cons_of_mem _ hf)
      · exact Or.inr ⟨y, (hmem y).mpr ⟨hy, hyj ▸ hjx⟩, hyj⟩

/-- **Every marked step keeps the indices.** -/
theorem Indexed.next (h : Indexed T s free) (hT : Uniform T) (hmark : Marked s e)
    (hn : next T s e = some s') : ∃ free', Indexed T s' free' := by
  cases e with
  | allocate object =>
    cases hn
    exact h.allocate hT hmark
  | write pointer offset value =>
    rw [ElementPool.next] at hn
    split at hn
    swap
    · cases hn
    rename_i hw
    cases hn
    obtain ⟨hp, -, ho⟩ := hw
    obtain ⟨x, hx, rfl⟩ := List.mem_map.mp hp
    refine ⟨free, h.write hx (fun a ha ↦ Function.update_of_ne (by omega) ..) ?_⟩
    by_cases h0 : offset = 0
    · subst h0
      rw [Nat.add_zero, Function.update_self]
      exact hmark rfl
    · rw [Function.update_of_ne (by omega)]
      exact (h.live x hx).2.2.1
  | freePointer pointer =>
    rw [ElementPool.next] at hn
    split at hn
    swap
    · cases hn
    rename_i hp
    obtain ⟨x, hx, rfl⟩ := List.mem_map.mp hp
    obtain ⟨hlt, hxp, -⟩ := h.live x hx
    rw [if_pos (hxp ▸ Segment.slot_contains hlt)] at hn
    cases hn
    exact ⟨_, h.release hx⟩
  | freeIndex index =>
    rw [ElementPool.next] at hn
    by_cases hlive : ∃ x ∈ s.live, x.index = index
    · obtain ⟨x, hx, rfl⟩ := hlive
      rw [(h.valid hT).entryAt x hx] at hn
      cases hn
      exact ⟨_, h.release hx⟩
    · obtain ⟨err, herr⟩ := (h.valid hT).free index fun x hx hxi ↦ hlive ⟨x, hx, hxi⟩
      rw [herr] at hn
      cases hn
      exact ⟨free, h⟩

end ElementPool

namespace ElementType

variable {T : ElementType} {address i : ℕ}

theorem elementsCount_pos (T : ElementType) : 0 < T.elementsCount := by
  have hpos := T.link_le
  exact Nat.div_pos T.fits (by simp only [linkSize] at hpos; omega)

/-- Elements that are as large as a link begin right behind the header. -/
theorem elementsOffset_eq (h : T.size = linkSize) : T.elementsOffset = headerSize := by
  obtain ⟨m, hm⟩ := T.word_dvd
  have hdvd := h ▸ T.align_dvd
  have hle := Nat.le_of_dvd (by decide) hdvd
  have hne : T.align ≠ 0 := by
    intro h0
    rw [h0] at hdvd
    exact absurd (Nat.eq_zero_of_zero_dvd hdvd) (by decide)
  have hcase : T.align = 8 ∨ T.align = 16 := by
    simp only [linkSize] at hle
    omega
  rcases hcase with ha | ha <;> rw [elementsOffset, ha] <;> decide

/-- What the constructor writes into an element. -/
theorem construct_word (hT : ElementPool.Uniform T) (hi : i < T.elementsCount) :
    (T.construct address).word ((T.construct address).slot T i) = 0 ∧
      (T.construct address).word ((T.construct address).slot T i + 8) =
        if i + 1 < T.elementsCount then (T.construct address).slot T (i + 1) else 0 := by
  rcases hT with hT | hT
  · have hoff := elementsOffset_eq hT
    simp only [construct, Segment.slot, Segment.elements, hoff]
    rw [hT]
    refine ⟨if_neg ?_, ?_⟩
    · simp only [linkSize, headerSize]
      omega
    by_cases hlast : i + 1 < T.elementsCount
    · rw [if_pos hlast]
      refine (if_pos ?_).trans ?_ <;> simp only [linkSize, headerSize] <;> omega
    · rw [if_neg hlast]
      refine if_neg ?_
      simp only [linkSize, headerSize]
      omega
  · simp only [construct, hT]
    obtain rfl : i = 0 := by omega
    simp

end ElementType

namespace ElementPool

variable {T : ElementType} {address : ℕ}

/-- The constructor links the elements where the base class looks for them. -/
theorem indexed_init (hT : Uniform T) :
    Indexed T (machine T address).init (List.range T.elementsCount) := by
  have hword : ∀ i < T.elementsCount,
      (T.construct address).word ((T.construct address).slot T i) = 0 ∧
      (T.construct address).word ((T.construct address).slot T i + 8) =
        if i + 1 < T.elementsCount then (T.construct address).slot T (i + 1) else 0 :=
    fun i hi ↦ ElementType.construct_word hT hi
  have hchain : ∀ k i, i + (k + 1) = T.elementsCount →
      Chain ((T.construct address).slot T) 0
        (fun i ↦ (T.construct address).word ((T.construct address).slot T i + 8))
        ((T.construct address).slot T i) (List.range' i (k + 1)) := by
    intro k
    induction k with
    | zero =>
      intro i hi
      refine ⟨rfl, ?_⟩
      exact (hword i (by omega)).2.trans (if_neg (by omega))
    | succ k ih =>
      intro i hi
      refine ⟨rfl, ?_⟩
      dsimp only
      rw [(hword i (by omega)).2, if_pos (by omega)]
      exact ih (i + 1) (by omega)
  have hpos := T.elementsCount_pos
  refine ⟨?_, fun i hi ↦ List.mem_range.mp hi, fun i hi ↦ (hword i (List.mem_range.mp hi)).1,
    fun x hx ↦ (by cases hx), List.nodup_nil, fun i hi ↦ Or.inl (List.mem_range.mpr hi)⟩
  have h0 := hchain (T.elementsCount - 1) 0 (by omega)
  rw [List.range_eq_range']
  rw [Nat.sub_add_cancel hpos] at h0
  have hhead : (T.construct address).slot T 0 = (T.construct address).freeHead := by
    simp [Segment.slot, Segment.elements, ElementType.construct]
  exact hhead ▸ h0

/-- The first `allocate` takes the element behind the header. -/
theorem allocate_init (T : ElementType) (address : ℕ) (object : ℕ → ℕ) :
    ∃ segment, (machine T address).init.allocate T object = ⟨segment, [⟨segment.elements, 0⟩]⟩ ∧
      ∀ o < T.size, segment.word (segment.elements + o) = object o := by
  have hhead : (T.construct address).freeHead ≠ 0 := by
    simp only [ElementType.construct, headerSize]
    omega
  have hindex : (T.construct address).index (T.construct address).freeHead = 0 := by
    simp only [Segment.index, Segment.elements, ElementType.construct, Nat.sub_self, Nat.zero_div]
  refine ⟨({ T.construct address with
    freeHead := (T.construct address).word (address + headerSize + 8)
    frees := T.elementsCount - 1 } : Segment).constructAt T (address + headerSize) object, ?_, ?_⟩
  · simp only [ElementPool.allocate, machine, Segment.allocate, if_neg hhead, hindex,
      List.nil_append]
    rfl
  · intro o ho
    have hin : address + headerSize ≤ address + headerSize + o ∧
        address + headerSize + o < address + headerSize + T.size := by omega
    exact (if_pos hin).trans (congrArg object (Nat.add_sub_cancel_left ..))

/-- An object whose first word is zero is not found under its index, whatever its type. -/
theorem IndicesValid.marked {s : ElementPool} (h : IndicesValid T s) {x : PoolEntry}
    (hx : x ∈ s.live) : s.segment.word x.pointer ≠ 0 := by
  have hat := h.entryAt x hx
  rw [Segment.entryAt] at hat
  split at hat
  · cases hat
  · split at hat
    · cases hat
    · rename_i hw
      rwa [← Except.ok.inj hat]

/-- **Which types have names for their entries**, in the runs in which the first word of an object
is never zero.  In other runs no type has: an object whose first word is zero is not found. -/
theorem indices_valid_iff (T : ElementType) (address : ℕ) :
    ((∀ s, (machine T address).ReachableWhile Marked s → IndicesValid T s) ↔ Uniform T) ∧
    ∀ s, IndicesValid T s → ∀ x ∈ s.live, s.segment.word x.pointer ≠ 0 := by
  refine ⟨?_, fun s h x hx ↦ h.marked hx⟩
  constructor
  · intro hvalid
    by_contra hT
    simp only [Uniform, not_or] at hT
    have hlink := T.link_le
    have hcount := T.elementsCount_pos
    -- the words of the first object are where the second index leads
    have hrun : (machine T address).ReachableWhile Marked
        ((machine T address).init.allocate T fun _ ↦ 1) :=
      Machine.ReachableWhile.init.step (e := .allocate fun _ ↦ 1) Nat.one_ne_zero rfl
    obtain ⟨segment, halloc, hword⟩ := allocate_init T address fun _ ↦ 1
    rw [halloc] at hrun
    obtain ⟨err, herr⟩ := (hvalid _ hrun).free 1 (by simp)
    have hone : segment.word (segment.elements + 1 * linkSize) = 1 := hword _ (by omega)
    rw [Segment.entryAt, if_neg (by omega), hone] at herr
    cases herr
  · intro hT s h
    obtain ⟨free, hi⟩ := h.invariant (I := fun s ↦ ∃ free, Indexed T s free) ⟨_, indexed_init hT⟩
      fun _ _ _ _ ⟨_, hi⟩ hm hn ↦ hi.next hT hm hn
    exact hi.valid hT

/-- The element of an object of four words. -/
def fourWords : ElementType where
  size := 32
  align := 8
  link_le := by decide
  align_pow := ⟨3, rfl⟩
  word_dvd := ⟨1, rfl⟩
  align_dvd := ⟨4, rfl⟩
  fits := by decide

/-- With one object in the pool its index is zero, and `at` finds something under index one as well:
the second half of the object. -/
theorem index_into_object :
    let s := (machine fourWords 4096).after [.allocate fun _ ↦ 1]
    (machine fourWords 4096).Reachable s ∧ s.live = [⟨4128, 0⟩] ∧
      s.segment.entryAt fourWords 1 = .ok 4144 ∧ ¬IndicesValid fourWords s := by
  refine ⟨(machine fourWords 4096).reachable_after _, rfl, rfl, fun h ↦ ?_⟩
  obtain ⟨err, herr⟩ := h.free 1 (by decide)
  cases (rfl : _ = Except.ok 4144).symm.trans herr

end ElementPool

end Chino
