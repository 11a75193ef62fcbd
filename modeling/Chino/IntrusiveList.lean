import Chino.Library.Ring
import Mathlib.Data.List.Basic
import Mathlib.Data.List.Nodup

/-!
# Intrusive lists

`include/sdk/chino/intrusive_list.h` threads a list through nodes that live inside the elements.
Each list owns a `dummy_` node and a counter `size_`; a node that is on no list has two null
pointers.  All lists over one node type share their nodes, so the model is one `Heap` for a whole
family of lists `ι` over elements `α`, with the two pointer fields as two maps.

The operations are the assignments of the source in the order of the source.  Each of them
dereferences pointers, and a null one makes it fail: that is the `Option`.  Nothing in the code
checks that a node is removed from the list it is on — `remove` unlinks it from wherever it is and
decrements the counter of the list it was called on — and the model does not check it either.

`Represents h L` says that the heap spells out the sequences `L`: every ring reads the same in both
directions, no element is on two lists or twice on one, every counter is the length, and everything
else is unlinked.  The `_spec` theorems say that on such a heap, and on arguments that respect the
lists, every operation succeeds and does to the sequence what its name says.

## How an operation is proved

The two maps of pointers are a store in the sense of `Chino.Library.Ring`, whose nodes are the
dummies and the elements, and every list is a ring at its dummy.

* `Represents.link` and `Represents.unlink` are the two changes of a family of sequences, at a gap
  and at an element.  They use the surgery rules of the library, and find the four pointers in
  question by its readings.
* The `_spec` of an operation adds what the C++ does to get there: which node is dereferenced, and
  that it is not null.
* A caller that only wants to know what is on a list uses `Represents.toList_eq`,
  `Represents.inList_iff` or `Represents.isEmpty_iff`, which read the pointers.

`Spells` is for a reader that only follows the pointers.  It says the same of them and nothing of
the counters, which are wrong once `remove` was called on a list that the element is not on.
-/

set_option autoImplicit false

namespace Chino

open Function (update)

/-! ## Nodes and heaps -/

/-- An `intrusive_list_node`: the dummy of a list, or the node inside an element. -/
inductive Node (ι α : Type) where
  | dummy (l : ι)
  | elem (a : α)
deriving DecidableEq

/-- The `prev_` and `next_` fields of every node, and the `size_` of every list. -/
structure Heap (ι α : Type) where
  prev : Node ι α → Option (Node ι α)
  next : Node ι α → Option (Node ι α)
  size : ι → ℕ

variable {ι α : Type}

/-- `container_of`, which only makes sense at the node of an element. -/
def containerOf : Node ι α → Option α
  | .dummy _ => none
  | .elem a => some a

namespace Heap

/-- Freshly constructed lists and nodes: a dummy points at itself, a node at nothing. -/
def init : Heap ι α where
  prev
    | .dummy l => some (.dummy l)
    | .elem _ => none
  next
    | .dummy l => some (.dummy l)
    | .elem _ => none
  size _ := 0

/-- `in_list` -/
def inList (h : Heap ι α) (a : α) : Bool := (h.prev (.elem a)).isSome

/-- `empty` -/
def isEmpty (h : Heap ι α) (l : ι) : Bool := h.size l == 0

section Operations

variable [DecidableEq ι] [DecidableEq α]

/-- The element a pointer of list `l` leads to, null for the list's own dummy. -/
def target (l : ι) (n : Option (Node ι α)) : Option α :=
  if n = some (.dummy l) then none else n.bind containerOf

/-- `next(pivot)`. -/
def nextOf (h : Heap ι α) (l : ι) (pivot : α) : Option α := target l (h.next (.elem pivot))

/-- `front` -/
def front (h : Heap ι α) (l : ι) : Option α := target l (h.next (.dummy l))

/-- A `next` pointer is written. -/
def setNext (h : Heap ι α) (n : Node ι α) (v : Option (Node ι α)) : Heap ι α :=
  { h with next := update h.next n v }

/-- A `prev` pointer is written. -/
def setPrev (h : Heap ι α) (n : Node ι α) (v : Option (Node ι α)) : Heap ι α :=
  { h with prev := update h.prev n v }

/-- A size is written. -/
def setSize (h : Heap ι α) (l : ι) (n : ℕ) : Heap ι α := { h with size := update h.size l n }

/-- `intrusive_list_storage::insert_after`. -/
def insertAfterNode (h : Heap ι α) (l : ι) (pivot node : Node ι α) : Option (Heap ι α) := do
  let h := h.setNext node (h.next pivot)
  let h := h.setPrev node (some pivot)
  let succ ← h.next pivot
  let h := h.setPrev succ (some node)
  let h := h.setNext pivot (some node)
  return h.setSize l (h.size l + 1)

/-- `intrusive_list_storage::insert_before`. -/
def insertBeforeNode (h : Heap ι α) (l : ι) (pivot node : Node ι α) : Option (Heap ι α) := do
  let h := h.setPrev node (h.prev pivot)
  let h := h.setNext node (some pivot)
  let pred ← h.prev pivot
  let h := h.setNext pred (some node)
  let h := h.setPrev pivot (some node)
  return h.setSize l (h.size l + 1)

/-- `insert_after` -/
def insertAfter (h : Heap ι α) (l : ι) (pivot a : α) : Option (Heap ι α) :=
  h.insertAfterNode l (.elem pivot) (.elem a)

/-- `insert_before` -/
def insertBefore (h : Heap ι α) (l : ι) (pivot a : α) : Option (Heap ι α) :=
  h.insertBeforeNode l (.elem pivot) (.elem a)

/-- `push_front` -/
def pushFront (h : Heap ι α) (l : ι) (a : α) : Option (Heap ι α) :=
  h.insertAfterNode l (.dummy l) (.elem a)

/-- `push_back` -/
def pushBack (h : Heap ι α) (l : ι) (a : α) : Option (Heap ι α) :=
  h.insertBeforeNode l (.dummy l) (.elem a)

/-- `remove`: the node leaves the ring it is on, whichever that is; the counter that goes down is
the one of `l`. -/
def remove (h : Heap ι α) (l : ι) (a : α) : Option (Heap ι α) := do
  let node : Node ι α := .elem a
  let succ ← h.next node
  let h := h.setPrev succ (h.prev node)
  let pred ← h.prev node
  let h := h.setNext pred (h.next node)
  let h := (h.setPrev node none).setNext node none
  return h.setSize l (h.size l - 1)

/-- A walk along list `l` from an element, for at most `n` elements. -/
def walk (h : Heap ι α) (l : ι) : ℕ → Option α → List α
  | 0, _ => []
  | _, none => []
  | n + 1, some a => a :: h.walk l n (h.nextOf l a)

/-- The elements a walk along list `l` meets. -/
def toList (h : Heap ι α) (l : ι) : List α := h.walk l (h.size l) (h.front l)

end Operations

/-! ## What a heap spells out -/

/-- The heap spells out the family of sequences `L`. -/
structure Represents (h : Heap ι α) (L : ι → List α) : Prop where
  /-- Both directions of every ring read the sequence. -/
  ring : ∀ l, Ring.Segment h.next h.prev (.dummy l) ((L l).map .elem) (.dummy l)
  /-- The counters count. -/
  size : ∀ l, h.size l = (L l).length
  /-- No element is twice on one list. -/
  nodup : ∀ l, (L l).Nodup
  /-- No element is on two lists. -/
  disjoint : ∀ l l' a, a ∈ L l → a ∈ L l' → l = l'
  /-- A node on no list has two null pointers. -/
  free : ∀ a, (∀ l, a ∉ L l) → h.prev (.elem a) = none ∧ h.next (.elem a) = none

theorem represents_init : (init : Heap ι α).Represents fun _ ↦ [] where
  ring _ := ⟨rfl, rfl⟩
  size _ := rfl
  nodup _ := List.nodup_nil
  disjoint _ _ _ h := absurd h (List.not_mem_nil)
  free _ _ := ⟨rfl, rfl⟩

section Reading

variable {h : Heap ι α} {L : ι → List α}

theorem elem_injective : Function.Injective (Node.elem : α → Node ι α) := fun _ _ h ↦ by
  cases h; rfl

theorem nodup_ring (l : ι) {xs : List α} (h : xs.Nodup) :
    (Node.dummy l :: xs.map (Node.elem : α → Node ι α)).Nodup :=
  List.nodup_cons.mpr ⟨by simp, h.map elem_injective⟩

theorem target_head? [DecidableEq ι] [DecidableEq α] (l : ι) (xs : List α) :
    target l ((xs.map Node.elem ++ [Node.dummy l]).head?) = xs.head? := by
  cases xs <;> simp [target, containerOf]

section Neighbours

variable {l : ι} {xs ys : List α} {a : α}

theorem Represents.exists_first (hr : h.Represents L) (l : ι) :
    ∃ v, ((L l).map Node.elem ++ [Node.dummy l]).head? = some v ∧ h.next (.dummy l) = some v := by
  have hv := List.head?_eq_some_head (l := (L l).map Node.elem ++ [Node.dummy l]) (by simp)
  exact ⟨_, hv, (hr.ring l).next_source hv⟩

theorem Represents.exists_last (hr : h.Represents L) (l : ι) :
    ∃ u, (Node.dummy l :: (L l).map Node.elem).getLast? = some u ∧ h.prev (.dummy l) = some u := by
  have hu := List.getLast?_eq_some_getLast (l := Node.dummy l :: (L l).map Node.elem) (by simp)
  exact ⟨_, hu, (hr.ring l).prev_target hu⟩

theorem Represents.exists_next (hr : h.Represents L) (hL : L l = xs ++ a :: ys) :
    ∃ v, (ys.map Node.elem ++ [Node.dummy l]).head? = some v ∧ h.next (.elem a) = some v := by
  have hring := hr.ring l
  rw [hL, List.map_append, List.map_cons, Ring.segment_append_cons] at hring
  have hv := List.head?_eq_some_head (l := ys.map Node.elem ++ [Node.dummy l]) (by simp)
  exact ⟨_, hv, hring.2.next_source hv⟩

theorem Represents.exists_prev (hr : h.Represents L) (hL : L l = xs ++ a :: ys) :
    ∃ u, (Node.dummy l :: xs.map Node.elem).getLast? = some u ∧ h.prev (.elem a) = some u := by
  have hring := hr.ring l
  rw [hL, List.map_append, List.map_cons] at hring
  have hu := List.getLast?_eq_some_getLast (l := Node.dummy l :: xs.map Node.elem) (by simp)
  exact ⟨_, hu, hring.prev_head hu rfl⟩

end Neighbours

/-- `front` is the head of the sequence. -/
theorem Represents.front_eq [DecidableEq ι] [DecidableEq α] (hr : h.Represents L) (l : ι) :
    h.front l = (L l).head? := by
  obtain ⟨v, hv, hn⟩ := hr.exists_first l
  rw [front, hn, ← hv, target_head?]

/-- `next` of an element is whatever follows it. -/
theorem Represents.nextOf_eq [DecidableEq ι] [DecidableEq α] (hr : h.Represents L) {l : ι}
    {xs ys : List α} {a : α} (hL : L l = xs ++ a :: ys) : h.nextOf l a = ys.head? := by
  obtain ⟨v, hv, hn⟩ := hr.exists_next hL
  rw [nextOf, hn, ← hv, target_head?]

/-- `next` of a node that is on no list is null. -/
theorem Represents.nextOf_free [DecidableEq ι] [DecidableEq α] (hr : h.Represents L) {l : ι}
    {a : α} (ha : ∀ l, a ∉ L l) : h.nextOf l a = none := by
  rw [nextOf, (hr.free a ha).2]
  simp [target]

theorem Represents.walk_eq [DecidableEq ι] [DecidableEq α] (hr : h.Represents L) {l : ι}
    {xs ys : List α} (hL : L l = xs ++ ys) : h.walk l ys.length ys.head? = ys := by
  induction ys generalizing xs with
  | nil => rfl
  | cons a ys ih =>
    have hL' : L l = (xs ++ [a]) ++ ys := by simp [hL]
    rw [List.head?_cons, List.length_cons, walk, hr.nextOf_eq hL, ih hL']

/-- **A walk along a list reads the sequence.** -/
theorem Represents.toList_eq [DecidableEq ι] [DecidableEq α] (hr : h.Represents L) :
    h.toList = L := by
  funext l
  rw [toList, hr.size, hr.front_eq, hr.walk_eq (List.nil_append _).symm]

theorem Represents.isEmpty_iff (hr : h.Represents L) (l : ι) : h.isEmpty l = true ↔ L l = [] := by
  rw [isEmpty, hr.size, beq_iff_eq, List.length_eq_zero_iff]

theorem Represents.inList_iff (hr : h.Represents L) (a : α) :
    h.inList a = true ↔ ∃ l, a ∈ L l := by
  constructor
  · intro hin
    by_contra hno
    rw [inList, (hr.free a fun l hl ↦ hno ⟨l, hl⟩).1] at hin
    cases hin
  · rintro ⟨l, hl⟩
    obtain ⟨xs, ys, hL⟩ := List.append_of_mem hl
    obtain ⟨u, -, hp⟩ := hr.exists_prev hL
    rw [inList, hp]
    rfl

/-- The other rings do not see an operation between two nodes of one ring. -/
theorem Represents.ring_frame (hr : h.Represents L) {h' : Heap ι α} {l l' : ι} (hl : l' ≠ l)
    {S : List α} {u x v : Node ι α}
    (hS : ∀ a ∈ S, a ∉ L l') (hu : u ∈ Node.dummy l :: S.map .elem)
    (hx : x ∈ S.map Node.elem) (hv : v ∈ Node.dummy l :: S.map .elem)
    (hn : ∀ n, n ≠ u → n ≠ x → h'.next n = h.next n)
    (hp : ∀ n, n ≠ v → n ≠ x → h'.prev n = h.prev n) :
    Ring.Segment h'.next h'.prev (.dummy l') ((L l').map .elem) (.dummy l') := by
  have key : ∀ n ∈ Node.dummy l' :: (L l').map .elem, ∀ m ∈ Node.dummy l :: S.map .elem, n ≠ m := by
    intro n hn' m hm
    rcases List.mem_cons.mp hn' with rfl | hn'
    · rcases List.mem_cons.mp hm with rfl | hm
      · exact fun he ↦ hl (by cases he; rfl)
      · obtain ⟨b, -, rfl⟩ := List.mem_map.mp hm
        simp
    · obtain ⟨b, hb, rfl⟩ := List.mem_map.mp hn'
      rcases List.mem_cons.mp hm with rfl | hm
      · simp
      · obtain ⟨c, hc, rfl⟩ := List.mem_map.mp hm
        rintro he
        cases he
        exact hS b hc hb
  refine (hr.ring l').congr (fun n hm ↦ ?_) (fun n hm ↦ ?_)
  · exact hn n (key n hm u hu) (key n hm x (List.mem_cons_of_mem _ hx))
  · have hm' : n ∈ Node.dummy l' :: (L l').map .elem := by
      rcases List.mem_append.mp hm with hm | hm
      · exact List.mem_cons_of_mem _ hm
      · exact List.mem_cons.mpr (Or.inl (List.mem_singleton.mp hm))
    exact hp n (key n hm' v hv) (key n hm' x (List.mem_cons_of_mem _ hx))

end Reading

/-! ## Linking and unlinking -/

section Surgery

variable [DecidableEq ι] [DecidableEq α] {h : Heap ι α} {L : ι → List α}

/-- What both insertions leave behind when `x` goes between `u` and `v`. -/
def link (h : Heap ι α) (l : ι) (u x v : Node ι α) : Heap ι α where
  prev := update (update h.prev x (some u)) v (some x)
  next := update (update h.next x (some v)) u (some x)
  size := update h.size l (h.size l + 1)

/-- What `remove` leaves behind when `x` stood between `u` and `v`. -/
def unlink (h : Heap ι α) (l : ι) (u x v : Node ι α) : Heap ι α where
  prev := update (update h.prev v (some u)) x none
  next := update (update h.next u (some v)) x none
  size := update h.size l (h.size l - 1)

theorem insertAfterNode_eq {l : ι} {u x v : Node ι α} (hux : u ≠ x) (hv : h.next u = some v) :
    h.insertAfterNode l u x = some (h.link l u x v) := by
  simp [insertAfterNode, setNext, setPrev, setSize, link, hux, hv]

theorem insertBeforeNode_eq {l : ι} {u x v : Node ι α} (hvx : v ≠ x) (hu : h.prev v = some u) :
    h.insertBeforeNode l v x = some (h.link l u x v) := by
  simp [insertBeforeNode, setNext, setPrev, setSize, link, hvx, hu]

theorem remove_eq {l : ι} {a : α} {u v : Node ι α} (hva : v ≠ .elem a)
    (hu : h.prev (.elem a) = some u) (hv : h.next (.elem a) = some v) :
    h.remove l a = some (h.unlink l u (.elem a) v) := by
  simp [remove, setNext, setPrev, setSize, unlink, hva.symm, hu, hv]

omit [DecidableEq ι] [DecidableEq α] in
/-- An element that is not on a part of a ring is none of the nodes there. -/
theorem elem_ne_of_mem {l : ι} {zs : List α} {b : α} {u : Node ι α} (hb : b ∉ zs)
    (hu : u ∈ Node.dummy l :: zs.map Node.elem) : Node.elem b ≠ u := by
  rintro rfl
  simp at hu
  exact hb (by simp [hu])

/-- **Linking a free node into a gap of one list.** -/
theorem Represents.link (hr : h.Represents L) {l : ι} {xs ys : List α} {a : α} {u v : Node ι α}
    (hL : L l = xs ++ ys) (ha : ∀ l, a ∉ L l)
    (hu : (Node.dummy l :: xs.map Node.elem).getLast? = some u)
    (hv : (ys.map Node.elem ++ [Node.dummy l]).head? = some v) :
    (h.link l u (.elem a) v).Represents (update L l (xs ++ a :: ys)) := by
  have hal : a ∉ xs ++ ys := hL ▸ ha l
  have hum : u ∈ Node.dummy l :: xs.map Node.elem := List.mem_of_getLast? hu
  have hvm : v ∈ Node.dummy l :: ys.map Node.elem :=
    (List.perm_append_singleton ..).mem_iff.mp (List.mem_of_head? hv)
  have hua : u ≠ .elem a := (elem_ne_of_mem (fun hx ↦ hal (List.mem_append_left _ hx)) hum).symm
  have hva : v ≠ .elem a := (elem_ne_of_mem (fun hx ↦ hal (List.mem_append_right _ hx)) hvm).symm
  have hn : ∀ n, n ≠ u → n ≠ .elem a → (h.link l u (.elem a) v).next n = h.next n :=
    fun n h1 h2 ↦ by simp [Heap.link, h1, h2]
  have hp : ∀ n, n ≠ v → n ≠ .elem a → (h.link l u (.elem a) v).prev n = h.prev n :=
    fun n h1 h2 ↦ by simp [Heap.link, h1, h2]
  have hnd : (xs ++ ys).Nodup := hL ▸ hr.nodup l
  refine ⟨fun l' ↦ ?_, fun l' ↦ ?_, fun l' ↦ ?_, fun l₁ l₂ b h₁ h₂ ↦ ?_, fun b hb ↦ ?_⟩
  · by_cases hl : l' = l
    · subst hl
      have hring := hr.ring l'
      rw [hL, List.map_append] at hring
      rw [Function.update_self, List.map_append, List.map_cons]
      have hnr := nodup_ring l' hnd
      rw [List.map_append] at hnr
      refine hring.insert hnr (by simp) hu hv ?_ (by simp) ?_ ?_ ?_ ?_ hn hp
      · simpa [← List.map_append] using hal
      · simp [Heap.link]
      · simp [Heap.link, hua.symm]
      · simp [Heap.link, hva.symm]
      · simp [Heap.link]
    · rw [Function.update_of_ne hl]
      refine hr.ring_frame (S := xs ++ a :: ys) hl ?_ ?_ (by simp) ?_ hn hp
      · intro b hb hbl'
        rcases (by simpa [or_left_comm] using hb : b = a ∨ b ∈ xs ∨ b ∈ ys) with rfl | hb
        · exact ha l' hbl'
        · exact hl (hr.disjoint l' l b hbl' (hL ▸ List.mem_append.mpr hb))
      · simp only [List.map_append, List.map_cons, List.mem_cons, List.mem_append] at hum ⊢; tauto
      · simp only [List.map_append, List.map_cons, List.mem_cons, List.mem_append] at hvm ⊢; tauto
  · by_cases hl : l' = l
    · subst hl; simp [Heap.link, hr.size, hL]; omega
    · simp [Heap.link, hl, hr.size]
  · by_cases hl : l' = l
    · subst hl
      rw [Function.update_self]
      exact (List.nodup_middle.mpr (List.nodup_cons.mpr ⟨hal, hnd⟩))
    · rw [Function.update_of_ne hl]; exact hr.nodup l'
  · have key : ∀ l', b ∈ update L l (xs ++ a :: ys) l' → b = a ∧ l' = l ∨ b ∈ L l' := by
      intro l' hm
      by_cases hl : l' = l
      · subst hl
        rw [Function.update_self] at hm
        rcases (by simpa [or_left_comm] using hm : b = a ∨ b ∈ xs ∨ b ∈ ys) with rfl | hb
        · exact Or.inl ⟨rfl, rfl⟩
        · exact Or.inr (hL ▸ List.mem_append.mpr hb)
      · rw [Function.update_of_ne hl] at hm; exact Or.inr hm
    rcases key l₁ h₁ with ⟨hba, hl₁⟩ | hb₁ <;> rcases key l₂ h₂ with ⟨hba', hl₂⟩ | hb₂
    · exact hl₁.trans hl₂.symm
    · exact absurd (hba ▸ hb₂) (ha l₂)
    · exact absurd (hba' ▸ hb₁) (ha l₁)
    · exact hr.disjoint l₁ l₂ b hb₁ hb₂
  · have hba : b ≠ a := by rintro rfl; exact hb l (by simp)
    have hbL : ∀ l', b ∉ L l' := by
      intro l' hm
      refine hb l' ?_
      by_cases hl : l' = l
      · subst hl
        rw [hL] at hm
        rw [Function.update_self]
        rcases List.mem_append.mp hm with hm | hm <;> simp [hm]
      · rwa [Function.update_of_ne hl]
    have hbx : b ∉ xs ++ ys := hL ▸ hbL l
    have hbu : (Node.elem b : Node ι α) ≠ u :=
      elem_ne_of_mem (fun hx ↦ hbx (List.mem_append_left _ hx)) hum
    have hbv : (Node.elem b : Node ι α) ≠ v :=
      elem_ne_of_mem (fun hx ↦ hbx (List.mem_append_right _ hx)) hvm
    have hbe : (Node.elem b : Node ι α) ≠ .elem a := fun he ↦ hba (elem_injective he)
    rw [hp _ hbv hbe, hn _ hbu hbe]
    exact hr.free b hbL

/-- **Unlinking an element.** -/
theorem Represents.unlink (hr : h.Represents L) {l : ι} {xs ys : List α} {a : α} {u v : Node ι α}
    (hL : L l = xs ++ a :: ys)
    (hu : (Node.dummy l :: xs.map Node.elem).getLast? = some u)
    (hv : (ys.map Node.elem ++ [Node.dummy l]).head? = some v) :
    (h.unlink l u (.elem a) v).Represents (update L l (xs ++ ys)) := by
  have hnd : (xs ++ a :: ys).Nodup := hL ▸ hr.nodup l
  have hal : a ∉ xs ++ ys := (List.nodup_cons.mp (List.nodup_middle.mp hnd)).1
  have hum : u ∈ Node.dummy l :: xs.map Node.elem := List.mem_of_getLast? hu
  have hvm : v ∈ Node.dummy l :: ys.map Node.elem :=
    (List.perm_append_singleton ..).mem_iff.mp (List.mem_of_head? hv)
  have hua : u ≠ .elem a := (elem_ne_of_mem (fun hx ↦ hal (List.mem_append_left _ hx)) hum).symm
  have hva : v ≠ .elem a := (elem_ne_of_mem (fun hx ↦ hal (List.mem_append_right _ hx)) hvm).symm
  have hn : ∀ n, n ≠ u → n ≠ .elem a → (h.unlink l u (.elem a) v).next n = h.next n :=
    fun n h1 h2 ↦ by simp [Heap.unlink, h1, h2]
  have hp : ∀ n, n ≠ v → n ≠ .elem a → (h.unlink l u (.elem a) v).prev n = h.prev n :=
    fun n h1 h2 ↦ by simp [Heap.unlink, h1, h2]
  have hsub : ∀ l' b, b ∈ update L l (xs ++ ys) l' → b ∈ L l' := by
    intro l' b hm
    by_cases hl : l' = l
    · subst hl
      rw [Function.update_self] at hm
      rw [hL]
      rcases List.mem_append.mp hm with hm | hm <;> simp [hm]
    · rwa [Function.update_of_ne hl] at hm
  refine ⟨fun l' ↦ ?_, fun l' ↦ ?_, fun l' ↦ ?_,
    fun l₁ l₂ b h₁ h₂ ↦ hr.disjoint l₁ l₂ b (hsub _ _ h₁) (hsub _ _ h₂), fun b hb ↦ ?_⟩
  · by_cases hl : l' = l
    · subst hl
      have hring := hr.ring l'
      rw [hL, List.map_append, List.map_cons] at hring
      rw [Function.update_self, List.map_append]
      have hnr := nodup_ring l' hnd
      rw [List.map_append, List.map_cons] at hnr
      exact hring.remove hnr (by simp) hu hv (by simp [Heap.unlink, hua])
        (by simp [Heap.unlink, hva]) hn hp
    · rw [Function.update_of_ne hl]
      refine hr.ring_frame (S := xs ++ a :: ys) hl ?_ ?_ (by simp) ?_ hn hp
      · intro b hb hbl'
        exact hl (hr.disjoint l' l b hbl' (hL ▸ hb))
      · simp only [List.map_append, List.map_cons, List.mem_cons, List.mem_append] at hum ⊢; tauto
      · simp only [List.map_append, List.map_cons, List.mem_cons, List.mem_append] at hvm ⊢; tauto
  · by_cases hl : l' = l
    · subst hl; simp [Heap.unlink, hr.size, hL]
    · simp [Heap.unlink, hl, hr.size]
  · by_cases hl : l' = l
    · subst hl
      rw [Function.update_self]
      exact (List.nodup_cons.mp (List.nodup_middle.mp hnd)).2
    · rw [Function.update_of_ne hl]; exact hr.nodup l'
  · by_cases hba : b = a
    · subst hba; simp [Heap.unlink]
    have hbL : ∀ l', b ∉ L l' := by
      intro l' hm
      refine hb l' ?_
      by_cases hl : l' = l
      · subst hl
        rw [hL] at hm
        rw [Function.update_self]
        rcases (by simpa [hba] using hm : b ∈ xs ∨ b ∈ ys) with hm | hm <;> simp [hm]
      · rwa [Function.update_of_ne hl]
    have hbx : b ∉ xs ++ ys := fun hm ↦ hb l (by rwa [Function.update_self])
    have hbu : (Node.elem b : Node ι α) ≠ u :=
      elem_ne_of_mem (fun hx ↦ hbx (List.mem_append_left _ hx)) hum
    have hbv : (Node.elem b : Node ι α) ≠ v :=
      elem_ne_of_mem (fun hx ↦ hbx (List.mem_append_right _ hx)) hvm
    have hbe : (Node.elem b : Node ι α) ≠ .elem a := fun he ↦ hba (elem_injective he)
    rw [hp _ hbv hbe, hn _ hbu hbe]
    exact hr.free b hbL

/-! ## The operations on sequences -/

theorem Represents.pushBack_spec (hr : h.Represents L) {l : ι} {a : α} (ha : ∀ l, a ∉ L l) :
    ∃ h', h.pushBack l a = some h' ∧ h'.Represents (update L l (L l ++ [a])) := by
  obtain ⟨u, hu, hpu⟩ := hr.exists_last l
  have hL : L l = L l ++ [] := (List.append_nil _).symm
  refine ⟨_, insertBeforeNode_eq (by simp) hpu, ?_⟩
  exact hr.link hL ha hu rfl

theorem Represents.pushFront_spec (hr : h.Represents L) {l : ι} {a : α} (ha : ∀ l, a ∉ L l) :
    ∃ h', h.pushFront l a = some h' ∧ h'.Represents (update L l (a :: L l)) := by
  obtain ⟨v, hv, hnv⟩ := hr.exists_first l
  refine ⟨_, insertAfterNode_eq (by simp) hnv, ?_⟩
  have hL : L l = [] ++ L l := rfl
  exact hr.link hL ha rfl hv

omit [DecidableEq ι] [DecidableEq α] in
/-- An element that may be inserted is not the pivot. -/
theorem pivot_ne {l : ι} {xs ys : List α} {p a : α} (hL : L l = xs ++ p :: ys)
    (ha : ∀ l, a ∉ L l) : (Node.elem p : Node ι α) ≠ .elem a := by
  rintro he
  cases he
  exact ha l (by simp [hL])

theorem Represents.insertAfter_spec (hr : h.Represents L) {l : ι} {xs ys : List α} {p a : α}
    (hL : L l = xs ++ p :: ys) (ha : ∀ l, a ∉ L l) :
    ∃ h', h.insertAfter l p a = some h' ∧ h'.Represents (update L l (xs ++ p :: a :: ys)) := by
  obtain ⟨v, hv, hnv⟩ := hr.exists_next hL
  have hL' : L l = (xs ++ [p]) ++ ys := by simp [hL]
  have hu : (Node.dummy l :: (xs ++ [p]).map Node.elem).getLast? = some (.elem p) := by
    rw [List.map_append, ← List.cons_append, List.map_singleton, List.getLast?_concat]
  refine ⟨_, insertAfterNode_eq (pivot_ne hL ha) hnv, ?_⟩
  simpa using hr.link hL' ha hu hv

theorem Represents.insertBefore_spec (hr : h.Represents L) {l : ι} {xs ys : List α} {p a : α}
    (hL : L l = xs ++ p :: ys) (ha : ∀ l, a ∉ L l) :
    ∃ h', h.insertBefore l p a = some h' ∧ h'.Represents (update L l (xs ++ a :: p :: ys)) := by
  obtain ⟨u, hu, hpu⟩ := hr.exists_prev hL
  exact ⟨_, insertBeforeNode_eq (pivot_ne hL ha) hpu, hr.link hL ha hu rfl⟩

theorem Represents.remove_spec (hr : h.Represents L) {l : ι} {a : α} (ha : a ∈ L l) :
    ∃ h', h.remove l a = some h' ∧ h'.Represents (update L l ((L l).erase a)) := by
  obtain ⟨xs, ys, hL⟩ := List.append_of_mem ha
  have hnd : (xs ++ a :: ys).Nodup := hL ▸ hr.nodup l
  have hax : a ∉ xs ++ ys := (List.nodup_cons.mp (List.nodup_middle.mp hnd)).1
  have herase : (L l).erase a = xs ++ ys := by
    rw [hL, List.erase_append_right _ fun hm ↦ hax (by simp [hm]), List.erase_cons_head]
  obtain ⟨u, hu, hpa⟩ := hr.exists_prev hL
  obtain ⟨v, hv, hna⟩ := hr.exists_next hL
  have hvm : v ∈ Node.dummy l :: ys.map Node.elem :=
    (List.perm_append_singleton ..).mem_iff.mp (List.mem_of_head? hv)
  have hva : v ≠ .elem a := (elem_ne_of_mem (fun hx ↦ hax (List.mem_append_right _ hx)) hvm).symm
  refine ⟨_, remove_eq hva hpa hna, ?_⟩
  rw [herase]
  exact hr.unlink hL hu hv

/-! ## Pointers without counters

`remove` may be called on a list that the element is not on.  The pointers do not mind, the counters
do, and a reader that only follows the pointers does not notice. -/

/-- The pointers spell out `L`, whatever the counters say. -/
def Spells (h : Heap ι α) (L : ι → List α) : Prop :=
  Represents { h with size := fun l ↦ (L l).length } L

omit [DecidableEq ι] [DecidableEq α] in
/-- A heap with the pointers of one that represents `L` spells `L`. -/
theorem Represents.spells {h₀ : Heap ι α} (hr : h₀.Represents L) (hp : h.prev = h₀.prev)
    (hn : h.next = h₀.next) : h.Spells L := by
  obtain ⟨prev, next, size⟩ := h₀
  obtain rfl : size = fun l ↦ (L l).length := funext hr.size
  rw [Spells, hp, hn]
  exact hr

theorem Spells.front_eq (hs : h.Spells L) (l : ι) : h.front l = (L l).head? :=
  Represents.front_eq hs l

theorem Spells.nextOf_eq (hs : h.Spells L) {l : ι} {xs ys : List α} {a : α}
    (hL : L l = xs ++ a :: ys) : h.nextOf l a = ys.head? :=
  Represents.nextOf_eq hs hL

/-- A walk that may go on for longer stops at the end of the list. -/
theorem Spells.walk_eq (hs : h.Spells L) {l : ι} {n : ℕ} {xs ys : List α} (hL : L l = xs ++ ys)
    (hn : ys.length ≤ n) : h.walk l n ys.head? = ys := by
  induction n generalizing xs ys with
  | zero => rw [List.eq_nil_of_length_eq_zero (Nat.le_zero.mp hn)]; rfl
  | succ n ih =>
    cases ys with
    | nil => rfl
    | cons a ys =>
      have hL' : L l = (xs ++ [a]) ++ ys := by simp [hL]
      rw [List.head?_cons, walk, hs.nextOf_eq hL, ih hL' (Nat.le_of_succ_le_succ hn)]

theorem Spells.pushBack_spec (hs : h.Spells L) {l : ι} {a : α} (ha : ∀ l, a ∉ L l) :
    ∃ h', h.pushBack l a = some h' ∧ h'.Spells (update L l (L l ++ [a])) := by
  obtain ⟨u, hu, hpu⟩ := Represents.exists_last hs l
  have hL : L l = L l ++ [] := (List.append_nil _).symm
  refine ⟨_, insertBeforeNode_eq (by simp) hpu, ?_⟩
  exact Represents.spells (Represents.link hs hL ha hu rfl) rfl rfl

theorem Spells.insertBefore_spec (hs : h.Spells L) {l : ι} {xs ys : List α} {p a : α}
    (hL : L l = xs ++ p :: ys) (ha : ∀ l, a ∉ L l) :
    ∃ h', h.insertBefore l p a = some h' ∧ h'.Spells (update L l (xs ++ a :: p :: ys)) := by
  obtain ⟨u, hu, hpu⟩ := Represents.exists_prev hs hL
  refine ⟨_, insertBeforeNode_eq (pivot_ne hL ha) hpu, ?_⟩
  exact Represents.spells (Represents.link hs hL ha hu rfl) rfl rfl

/-- An element leaves the list it is on, whichever list it is removed from. -/
theorem Spells.remove_spec (hs : h.Spells L) {l : ι} {a : α} (ha : a ∈ L l) (k : ι) :
    ∃ h', h.remove k a = some h' ∧ h'.Spells (update L l ((L l).erase a)) := by
  obtain ⟨h₁, h₁r, h₁s⟩ := Represents.remove_spec hs ha
  obtain ⟨v, hv, hrest⟩ := Option.bind_eq_some_iff.mp h₁r
  obtain ⟨u, hu, hpure⟩ := Option.bind_eq_some_iff.mp hrest
  cases hpure
  refine ⟨_, Option.bind_eq_some_iff.mpr ⟨v, hv, Option.bind_eq_some_iff.mpr ⟨u, hu, rfl⟩⟩, ?_⟩
  exact h₁s.spells rfl rfl

theorem Spells.remove_free (hs : h.Spells L) {a : α} (ha : ∀ l, a ∉ L l) (k : ι) :
    h.remove k a = none := by
  have hn : h.next (.elem a) = none := (hs.free a ha).2
  rw [remove, hn]
  rfl

omit [DecidableEq ι] [DecidableEq α] in
theorem Spells.inList_iff (hs : h.Spells L) (a : α) : h.inList a = true ↔ ∃ l, a ∈ L l :=
  Represents.inList_iff hs a

end Surgery

end Heap

end Chino
