import Chino.Library.Count
import Chino.Library.Counter
import Chino.Ob.HandleTable

/-!
# Concurrent handle operations

The threads of one process, each in `alloc_handle`, `close_handle` or `reference_object`.  Only
taking an element from the free list and pushing it are locked; an entry is checked, destroyed and
pushed in separate steps, and looking it up is separate from adding a reference to its object.

So two threads can close one handle and push its element twice, and an object can be destroyed while
a thread is about to add a reference to it.  This module is the model and the invariant of the runs
in which what a thread has checked still holds when it goes on (`StillHolds`);
`Chino.Ob.HandleCloses` draws the conclusions.

The reference count of an object is a word of 32 bits.  `outside` are the references to it that are
neither an entry's nor those of the caller of an `alloc_handle`; whoever holds one may drop it at
any time.

The other fields are not in the code.  `popped`, `pushed`, `added` and `dropped` count what has
happened to an element, so `pushed` tells its uses apart.  `called` is what `pushed` was when the
thread called `close_handle`: a close in progress for which it differs has been overtaken by one
that has freed the handle.  If the element is not taken again meanwhile, the close finds it free and
fails, which is how of two closes of one handle one fails.

## The invariant

`Phase` says what an element is used for: it is free, a thread constructs an entry in it, the entry
is used, a thread destroys it, or has destroyed it and is about to push it.  `SlotOk` gives, for
each phase, what the two words and the four numbers of the element say.  `PlaceOk` gives, for each
place in a call, which phase the element must be in.  `Inv` says that each element has one phase,
and counts references: those of entries, of callers of `alloc_handle`, and those outside.

A step changes the phase of one element at most, and there is one lemma for each of the changes:
`Inv.pop`, `Inv.setObject`, `Inv.addRef`, `Inv.setGrantedAccess`, `Inv.decRef`, `Inv.clearObject`,
`Inv.push`.  `Inv.step` goes through the places of a call and uses one of them each time.

`StillHolds` is about the state before a step, and names what the step relies on: the pointer that a
close is about to read is not null; the entry still has the object whose reference is about to be
dropped, and no other thread is at work on the element; a lookup reads an entry that is in use; the
last reference does not go while a thread is about to add one; `alloc_handle` takes no element to
which a late close will come; and no counter is at its maximum.
-/

set_option autoImplicit false

namespace Chino

open Function (update)

open ObjectSegment (elementsCount)

/-- What a call returns. -/
inductive CallResult where
  | allocated (fd : ℤ)
  | closed
  | object (object : ℕ)
  | error (e : ErrorCode)
deriving DecidableEq

/-- Where a thread is. -/
inductive HandleCall where
  /-- In `alloc_handle`, about to take an element. -/
  | allocate (object : ObjectAddress) (grantedAccess : AccessMask)
  /-- In the constructor of the entry, about to write the pointer. -/
  | setObject (i : ℕ) (object : ObjectAddress) (grantedAccess : AccessMask)
  /-- About to add the reference of the entry. -/
  | addRef (i : ℕ) (object : ObjectAddress) (grantedAccess : AccessMask)
  /-- About to write the mask. -/
  | setGrantedAccess (i : ℕ) (object : ObjectAddress) (grantedAccess : AccessMask)
  /-- In `close_handle`, about to check the entry. -/
  | close (fd : ℤ)
  /-- In the destructor of the entry, about to read the pointer. -/
  | readObject (i : ℕ)
  /-- About to drop the reference of the entry. -/
  | decRef (i object : ℕ)
  /-- About to clear the pointer. -/
  | clearObject (i : ℕ)
  /-- About to push the element. -/
  | push (i : ℕ)
  /-- In `reference_object`, about to check the entry. -/
  | reference (fd : ℤ)
  /-- About to read the pointer, and to check the kind of the object. -/
  | readEntry (i : ℕ)
  /-- About to add a reference to the object. -/
  | addReference (object : ℕ)
  | done (result : CallResult)
  /-- A null pointer was dereferenced. -/
  | failed
deriving DecidableEq

/-- The pool of a handle table, the objects' counts, and where the threads are. -/
structure HandleThreads where
  pool : ObjectSegment
  refs : ℕ → UInt32
  outside : ℕ → ℕ
  thread : ℕ → Option HandleCall
  popped : ℕ → ℕ
  pushed : ℕ → ℕ
  added : ℕ → ℕ
  dropped : ℕ → ℕ
  called : ℕ → ℕ

/-- A thread calls something or goes on, or somebody drops a reference. -/
inductive ThreadAction where
  | allocHandle (t : ℕ) (object : ObjectAddress) (grantedAccess : AccessMask)
  | closeHandle (t : ℕ) (fd : ℤ)
  | referenceObject (t : ℕ) (fd : ℤ)
  | step (t : ℕ)
  /-- A reference that is held outside is dropped. -/
  | release (object : ℕ)
deriving DecidableEq

/-- One more. -/
def increment {α : Type} [Add α] [OfNat α 1] (f : ℕ → α) (x : ℕ) : ℕ → α := update f x (f x + 1)

/-- One less. -/
def decrement {α : Type} [Sub α] [OfNat α 1] (f : ℕ → α) (x : ℕ) : ℕ → α := update f x (f x - 1)

namespace HandleThreads

/-- The index of the entry that `at` finds. -/
def check (s : HandleThreads) (fd : ℤ) : Except ErrorCode ℕ :=
  (HandleTable.entryAt ⟨s.pool, [], []⟩ fd).map s.pool.index

/-- The next step of a call, before the thread is moved on. -/
def advance (isA : ℕ → Bool) (s : HandleThreads) : HandleCall → Option (HandleThreads × HandleCall)
  | .allocate object grantedAccess => do
    match ← s.pool.allocate with
    | (.error e, pool) =>
      some ({ s with pool := pool, outside := increment s.outside object }, .done (.error e))
    | (.ok (_, i), pool) =>
      some ({ s with pool := pool, popped := increment s.popped i },
        .setObject i object grantedAccess)
  | .setObject i object grantedAccess => do
    let pool ← s.pool.modify (s.pool.elementAddress i) fun e ↦ e.setObject object
    some ({ s with pool := pool }, .addRef i object grantedAccess)
  | .addRef i object grantedAccess =>
    some ({ s with refs := increment s.refs object, added := increment s.added i },
      .setGrantedAccess i object grantedAccess)
  | .setGrantedAccess i object grantedAccess => do
    let pool ← s.pool.modify (s.pool.elementAddress i) fun e ↦ e.setGrantedAccess grantedAccess
    some ({ s with pool := pool, outside := increment s.outside object },
      .done (.allocated (i + fdBase)))
  | .close fd =>
    match s.check fd with
    | .ok i => some (s, .readObject i)
    | .error e => some (s, .done (.error e))
  | .readObject i =>
    some (s, if (s.pool.element i).object = 0 then .push i else .decRef i (s.pool.element i).object)
  | .decRef i object =>
    some ({ s with refs := decrement s.refs object, dropped := increment s.dropped i },
      .clearObject i)
  | .clearObject i => do
    let pool ← s.pool.modify (s.pool.elementAddress i) fun e ↦ e.setObject 0
    some ({ s with pool := pool }, .push i)
  | .push i => do
    let pool ← s.pool.push (s.pool.elementAddress i)
    some ({ s with pool := pool, pushed := increment s.pushed i }, .done .closed)
  | .reference fd =>
    match s.check fd with
    | .ok i => some (s, .readEntry i)
    | .error e => some (s, .done (.error e))
  | .readEntry i =>
    some (s, if (s.pool.element i).object = 0 then .failed
      else if isA (s.pool.element i).object then .addReference (s.pool.element i).object
      else .done (.error .badCast))
  | .addReference object =>
    some ({ s with refs := increment s.refs object, outside := increment s.outside object },
      .done (.object object))
  | .done _ | .failed => none

/-- The thread calls something, if it is not in a call. -/
def call (N : ℕ) (s : HandleThreads) (t : ℕ) (c : HandleCall) : Option HandleThreads :=
  match s.thread t with
  | none | some (.done _) =>
    if t < N then some { s with thread := update s.thread t (some c) } else none
  | _ => none

/-- `isA` says of which objects `is_a` holds. -/
def next (isA : ℕ → Bool) (N : ℕ) (s : HandleThreads) : ThreadAction → Option HandleThreads
  | .allocHandle t object grantedAccess =>
    if 0 < s.outside object then
      call N { s with outside := decrement s.outside object } t (.allocate object grantedAccess)
    else none
  | .closeHandle t fd =>
    call N { s with called := update s.called t (s.pushed (fd - fdBase).toNat) } t (.close fd)
  | .referenceObject t fd => call N s t (.reference fd)
  | .step t => do
    let c ← s.thread t
    let (s', c') ← s.advance isA c
    some { s' with thread := update s'.thread t (some c') }
  | .release object =>
    if 0 < s.outside object then
      some { s with refs := decrement s.refs object, outside := decrement s.outside object }
    else none

/-- An empty table, and objects with their references. -/
def machine (isA : ℕ → Bool) (address : ℕ) (refs : ℕ → UInt32) (N : ℕ) :
    Machine HandleThreads ThreadAction where
  init := ⟨.init address, refs, fun o ↦ (refs o).toNat, fun _ ↦ none, fun _ ↦ 0, fun _ ↦ 0,
    fun _ ↦ 0,
    fun _ ↦ 0, fun _ ↦ 0⟩
  next := next isA N

end HandleThreads

/-! ## What a thread has to find -/

/-- The element that the thread constructs or has destroyed. -/
def HandleCall.owned? : HandleCall → Option ℕ
  | setObject i _ _ | addRef i _ _ | setGrantedAccess i _ _ | clearObject i | push i => some i
  | _ => none

/-- The index of the entry that the thread closes. -/
def HandleCall.closes? : HandleCall → Option ℕ
  | close fd => if fdBase ≤ fd then some (fd - fdBase).toNat else none
  | readObject i | decRef i _ | clearObject i | push i => some i
  | _ => none

/-- The object that the caller of `alloc_handle` has a reference to. -/
def HandleCall.object? : HandleCall → Option ℕ
  | allocate o _ | setObject _ o _ | addRef _ o _ | setGrantedAccess _ o _ => some o.val
  | _ => none

theorem HandleCall.object?_done (r : CallResult) : (HandleCall.done r).object? = none := rfl

namespace HandleThreads

/-- The thread constructs the entry, or has destroyed it. -/
def Owns (s : HandleThreads) (t i : ℕ) : Prop := (s.thread t).bind HandleCall.owned? = some i

/-- The thread is in a `close_handle` of the entry. -/
def Closes (s : HandleThreads) (t i : ℕ) : Prop := (s.thread t).bind HandleCall.closes? = some i

/-- No close of the entry has been overtaken by one that has freed it. -/
def NoneLate (N : ℕ) (s : HandleThreads) (i : ℕ) : Prop :=
  ∀ u < N, s.Closes u i → s.called u = s.pushed i

/-- If the last reference is dropped, no thread is about to add one. -/
def LastUnneeded (N : ℕ) (s : HandleThreads) (object : ℕ) : Prop :=
  s.refs object = 1 → ∀ u < N, s.thread u ≠ some (.addReference object)

/-- What a thread has checked still holds when it goes on.

A close reads the object of an entry that is used, and drops the reference to it while the entry
still points to it and no other thread constructs or destroys the entry.  A lookup reads the object
of an entry that is used, and not one whose last reference was just dropped.  A handle is not used
again while a close that has lost it to another one is in progress.  And no counter wraps around. -/
def StillHolds (N : ℕ) (s : HandleThreads) : ThreadAction → Prop
  | .release object => s.LastUnneeded N object
  | .step t =>
    match s.thread t with
    | some (.allocate ..) => s.pool.freeHead ≠ 0 → s.NoneLate N (s.pool.index s.pool.freeHead)
    | some (.addRef _ object _) => s.refs object + 1 ≠ 0
    | some (.addReference object) => s.refs object + 1 ≠ 0
    | some (.readObject i) => (s.pool.element i).object ≠ 0
    | some (.decRef i object) => (s.pool.element i).object = object ∧ (∀ u < N, ¬ s.Owns u i) ∧
        s.LastUnneeded N object
    | some (.readEntry i) => (s.pool.element i).object ≠ 0 ∧
        ∀ u < N, s.thread u = some (.clearObject i) → s.refs (s.pool.element i).object ≠ 0
    | _ => True
  | _ => True

instance (N : ℕ) (s : HandleThreads) (object : ℕ) : Decidable (s.LastUnneeded N object) := by
  unfold LastUnneeded; infer_instance

instance (s : HandleThreads) (t i : ℕ) : Decidable (s.Owns t i) :=
  inferInstanceAs (Decidable (_ = _))

instance (s : HandleThreads) (t i : ℕ) : Decidable (s.Closes t i) :=
  inferInstanceAs (Decidable (_ = _))

instance (N : ℕ) (s : HandleThreads) (i : ℕ) : Decidable (s.NoneLate N i) := by
  unfold NoneLate; infer_instance

instance (N : ℕ) (s : HandleThreads) : (a : ThreadAction) → Decidable (s.StillHolds N a)
  | .allocHandle .. | .closeHandle .. | .referenceObject .. => inferInstanceAs (Decidable True)
  | .release object => inferInstanceAs (Decidable (s.LastUnneeded N object))
  | .step t => by
    unfold StillHolds
    dsimp only
    split <;> infer_instance

/-! ## What an element is used for -/

/-- What an element is used for, and by which thread. -/
inductive Phase where
  | free
  /-- Taken from the free list. -/
  | fresh (t : ℕ)
  /-- The pointer is written. -/
  | pointed (t : ℕ)
  /-- The reference is added. -/
  | counted (t : ℕ)
  | live
  /-- The reference is dropped. -/
  | released (t : ℕ)
  /-- The pointer is cleared. -/
  | cleared (t : ℕ)
deriving DecidableEq

/-- The thread that the element belongs to. -/
def Phase.owner? : Phase → Option ℕ
  | fresh t | pointed t | counted t | released t | cleared t => some t
  | free | live => none

/-- The entry has a reference to its object. -/
def Phase.holds : Phase → Bool
  | counted _ | live => true
  | _ => false

/-- What the words and the numbers of an element say. -/
def SlotOk (s : HandleThreads) (i : ℕ) : Phase → Prop
  | .free => (s.pool.element i).used = 0 ∧
      s.popped i = s.pushed i ∧ s.added i = s.pushed i ∧ s.dropped i = s.pushed i
  | .fresh t => (∃ o m, s.thread t = some (.setObject i o m)) ∧ (s.pool.element i).used = 0 ∧
      s.popped i = s.pushed i + 1 ∧ s.added i = s.pushed i ∧ s.dropped i = s.pushed i
  | .pointed t => (∃ o m, s.thread t = some (.addRef i o m) ∧ (s.pool.element i).used = o) ∧
      s.popped i = s.pushed i + 1 ∧ s.added i = s.pushed i ∧ s.dropped i = s.pushed i
  | .counted t => (∃ o m, s.thread t = some (.setGrantedAccess i o m)) ∧
      (s.pool.element i).used ≠ 0 ∧
      s.popped i = s.pushed i + 1 ∧ s.added i = s.pushed i + 1 ∧ s.dropped i = s.pushed i
  | .live => (s.pool.element i).used ≠ 0 ∧
      s.popped i = s.pushed i + 1 ∧ s.added i = s.pushed i + 1 ∧ s.dropped i = s.pushed i
  | .released t => s.thread t = some (.clearObject i) ∧ (s.pool.element i).used ≠ 0 ∧
      s.popped i = s.pushed i + 1 ∧ s.added i = s.pushed i + 1 ∧ s.dropped i = s.pushed i + 1
  | .cleared t => s.thread t = some (.push i) ∧ (s.pool.element i).used = 0 ∧
      s.popped i = s.pushed i + 1 ∧ s.added i = s.pushed i + 1 ∧ s.dropped i = s.pushed i + 1

/-- What a thread in a call has. -/
def PlaceOk (phase : ℕ → Phase) (refs : ℕ → UInt32) (t : ℕ) : HandleCall → Prop
  | .setObject i .. => i < elementsCount ∧ phase i = .fresh t
  | .addRef i .. => i < elementsCount ∧ phase i = .pointed t
  | .setGrantedAccess i .. => i < elementsCount ∧ phase i = .counted t
  | .clearObject i => i < elementsCount ∧ phase i = .released t
  | .push i => i < elementsCount ∧ phase i = .cleared t
  | .readObject i | .readEntry i => i < elementsCount
  | .decRef i object => i < elementsCount ∧ object ≠ 0
  | .addReference object => refs object ≠ 0
  | .failed => False
  | _ => True

/-- The object for which the thread is in `alloc_handle`. -/
def lends? (s : HandleThreads) (t : ℕ) : Option ℕ := (s.thread t).bind HandleCall.object?

/-- The object to which the entry has a reference. -/
def holds? (s : HandleThreads) (phase : ℕ → Phase) (i : ℕ) : Option ℕ :=
  if (phase i).holds then some (s.pool.element i).used else none

/-- The references to the object that the callers of `alloc_handle` have. -/
noncomputable def lent (N : ℕ) (s : HandleThreads) (o : ℕ) : ℕ :=
  count (Finset.range N) fun t ↦ s.lends? t = some o

/-- The references to the object that entries have. -/
noncomputable def held (s : HandleThreads) (phase : ℕ → Phase) (o : ℕ) : ℕ :=
  count (Finset.range elementsCount) fun i ↦ s.holds? phase i = some o

/-- Every element has one use, and every reference belongs to somebody. -/
structure Inv (N : ℕ) (phase : ℕ → Phase) (s : HandleThreads) : Prop where
  outside : ∀ t, N ≤ t → s.thread t = none
  slot : ∀ i < elementsCount, s.SlotOk i (phase i)
  place : ∀ t c, s.thread t = some c → PlaceOk phase s.refs t c
  free : ∃ free, s.pool.FreeList free ∧ ∀ i < elementsCount, i ∈ free ↔ phase i = .free
  refs : ∀ o, (s.refs o).toNat = s.outside o + s.lent N o + s.held phase o

variable {N : ℕ} {phase phase' : ℕ → Phase} {p : Phase} {s s' : HandleThreads} {t u i j o : ℕ}
  {c : HandleCall} {refs refs' : ℕ → UInt32}

/-- The owner of an element is a thread that owns it. -/
theorem SlotOk.owns (h : s.SlotOk i p) (hp : p.owner? = some t) : s.Owns t i := by
  cases p with
  | free => cases hp
  | live => cases hp
  | fresh u =>
    cases hp
    obtain ⟨⟨o, m, ht⟩, -⟩ := h
    simp [Owns, ht, HandleCall.owned?]
  | pointed u =>
    cases hp
    obtain ⟨⟨o, m, ht, -⟩, -⟩ := h
    simp [Owns, ht, HandleCall.owned?]
  | counted u =>
    cases hp
    obtain ⟨⟨o, m, ht⟩, -⟩ := h
    simp [Owns, ht, HandleCall.owned?]
  | released u =>
    cases hp
    simp [Owns, h.1, HandleCall.owned?]
  | cleared u =>
    cases hp
    simp [Owns, h.1, HandleCall.owned?]

theorem PlaceOk.owner (h : PlaceOk phase refs t c) (hc : c.owned? = some i) :
    i < elementsCount ∧ (phase i).owner? = some t := by
  cases c <;> cases hc <;> exact ⟨h.1, by rw [h.2]; rfl⟩

/-- What an element is used for only depends on its owner. -/
theorem SlotOk.mono (h : s.SlotOk i p) (he : s'.pool.element i = s.pool.element i)
    (hpop : s'.popped i = s.popped i) (hpush : s'.pushed i = s.pushed i)
    (hadd : s'.added i = s.added i) (hdrop : s'.dropped i = s.dropped i)
    (ht : ∀ u, p.owner? = some u → s'.thread u = s.thread u) : s'.SlotOk i p := by
  cases p <;> simp only [SlotOk, he, hpop, hpush, hadd, hdrop] <;>
    first | exact h | rw [ht _ rfl]; exact h

theorem PlaceOk.mono (h : PlaceOk phase refs t c) (hp : ∀ i, c.owned? = some i → phase' i = phase i)
    (hr : ∀ o, c = .addReference o → refs' o ≠ 0) : PlaceOk phase' refs' t c := by
  cases c <;> first | exact h | exact hr _ rfl | exact ⟨h.1, (hp _ rfl).trans h.2⟩

/-! ### References -/

theorem increment_apply {α : Type} [Add α] [OfNat α 1] (f : ℕ → α) (x y : ℕ) :
    increment f x y = if y = x then f y + 1 else f y := by
  by_cases hy : y = x
  · subst hy
    simp [increment]
  · simp [increment, hy]

theorem decrement_apply {α : Type} [Sub α] [OfNat α 1] (f : ℕ → α) (x y : ℕ) :
    decrement f x y = if y = x then f y - 1 else f y := by
  by_cases hy : y = x
  · subst hy
    simp [decrement]
  · simp [decrement, hy]

/-- A reference is added, and the counter does not wrap around. -/
theorem toNat_increment {o : ℕ} (h : refs o + 1 ≠ 0) (x : ℕ) :
    (increment refs o x).toNat = (refs x).toNat + if x = o then 1 else 0 := by
  rw [increment_apply]
  split
  · rename_i heq
    subst heq
    exact Counter.toNat_add_one_of_ne h
  · rfl

theorem increment_ne_zero {o x : ℕ} (h : refs o + 1 ≠ 0) (hx : refs x ≠ 0) :
    increment refs o x ≠ 0 := by
  rw [increment_apply]
  split
  · rename_i heq
    exact heq ▸ h
  · exact hx

/-- A reference is dropped that was counted. -/
theorem toNat_decrement {o : ℕ} (h : refs o ≠ 0) (x : ℕ) :
    (decrement refs o x).toNat = (refs x).toNat - if x = o then 1 else 0 := by
  rw [decrement_apply]
  split
  · rename_i heq
    subst heq
    exact Counter.toNat_sub_one_of_ne h
  · rfl

theorem tally_some (a b : ℕ) : tally (some a = some b) = if b = a then 1 else 0 := by
  split
  · rename_i h
    exact tally_of (by rw [h])
  · rename_i h
    exact tally_of_not fun he ↦ h (Option.some.inj he).symm

theorem tally_none (b : ℕ) : tally ((none : Option ℕ) = some b) = 0 := tally_of_not (by simp)

theorem lent_change (ht : t < N) (hs : s'.thread = update s.thread t (some c)) (o : ℕ) :
    s'.lent N o + tally (s.lends? t = some o) = s.lent N o + tally (c.object? = some o) := by
  have := count_change (P := fun u ↦ s'.lends? u = some o) (Q := fun u ↦ s.lends? u = some o)
    (Finset.mem_range.mpr ht) fun u _ hu ↦ by rw [lends?, lends?, hs, Function.update_of_ne hu]
  rw [lent, this, lends?, hs, Function.update_self]
  rfl

variable (phase) in
theorem held_change (hi : i < elementsCount)
    (he : ∀ j ≠ i, s'.pool.element j = s.pool.element j) (o : ℕ) :
    s'.held (update phase i p) o + tally (s.holds? phase i = some o) =
      s.held phase o + tally (s'.holds? (update phase i p) i = some o) :=
  count_change (P := fun j ↦ s'.holds? (update phase i p) j = some o)
    (Q := fun j ↦ s.holds? phase j = some o) (Finset.mem_range.mpr hi)
    fun j _ hj ↦ by rw [holds?, holds?, Function.update_of_ne hj, he j hj]

theorem held_congr (he : s'.pool.element = s.pool.element) (o : ℕ) :
    s'.held phase o = s.held phase o := by
  simp only [held, holds?, he]

theorem holds?_of_holds (hp : (phase i).holds = true) :
    s.holds? phase i = some (s.pool.element i).used := if_pos hp

theorem holds?_of_not (hp : (phase i).holds = false) : s.holds? phase i = none :=
  if_neg (by rw [hp]; decide)

/-- An entry that has a reference keeps its object. -/
theorem Inv.refs_ne_zero (h : Inv N phase s) (hi : i < elementsCount)
    (hp : (phase i).holds = true) :
    s.refs (s.pool.element i).used ≠ 0 := by
  have := count_pos (P := fun j ↦ s.holds? phase j = some (s.pool.element i).used)
    (Finset.mem_range.mpr hi) (holds?_of_holds hp)
  rw [ne_eq, Counter.eq_zero_iff (h.refs _), held]
  omega

/-- So does the caller of `alloc_handle`. -/
theorem Inv.refs_ne_zero_of_lends (h : Inv N phase s) (ht : t < N) (hl : s.lends? t = some o) :
    s.refs o ≠ 0 := by
  have := count_pos (P := fun u ↦ s.lends? u = some o) (Finset.mem_range.mpr ht) hl
  rw [ne_eq, Counter.eq_zero_iff (h.refs _), lent]
  omega

/-- And whoever holds one outside. -/
theorem Inv.refs_ne_zero_of_outside (h : Inv N phase s) (hout : 0 < s.outside o) :
    s.refs o ≠ 0 := by
  rw [ne_eq, Counter.eq_zero_iff (h.refs _)]
  omega

theorem Inv.lt (h : Inv N phase s) (hc : s.thread t = some c) : t < N := by
  by_contra hle
  rw [h.outside t (by omega)] at hc
  cases hc

/-! ### Steps -/

/-- A thread goes on, and the elements stay. -/
theorem Inv.moves (h : Inv N phase s) (ht : t < N) (ho : ∀ i, ¬ s.Owns t i)
    (hs : s'.thread = update s.thread t (some c)) (hpool : s'.pool = s.pool)
    (hpop : s'.popped = s.popped) (hpush : s'.pushed = s.pushed) (hadd : s'.added = s.added)
    (hdrop : s'.dropped = s.dropped) (hplace : PlaceOk phase s'.refs t c)
    (hpos : ∀ u o, s.thread u = some (.addReference o) → u ≠ t → s'.refs o ≠ 0)
    (hrefs : ∀ o, (s'.refs o).toNat + s.outside o + tally (s.lends? t = some o) =
      (s.refs o).toNat + s'.outside o + tally (c.object? = some o)) : Inv N phase s' := by
  refine ⟨fun u hu ↦ ?_,
    fun i hi ↦ (h.slot i hi).mono (by rw [hpool]) (by rw [hpop]) (by rw [hpush])
    (by rw [hadd]) (by rw [hdrop]) fun u hu ↦ ?_, fun u c' hc' ↦ ?_, hpool ▸ h.free,
    fun o ↦ ?_⟩
  · rw [hs, Function.update_of_ne (by omega), h.outside u hu]
  · have hne : u ≠ t := by
      rintro rfl
      exact ho i ((h.slot i hi).owns hu)
    rw [hs, Function.update_of_ne hne]
  · rw [hs] at hc'
    by_cases hut : u = t
    · subst hut
      simp only [Function.update_self, Option.some.injEq] at hc'
      exact hc' ▸ hplace
    · rw [Function.update_of_ne hut] at hc'
      refine (h.place u c' hc').mono (fun _ _ ↦ rfl) ?_
      rintro o rfl
      exact hpos u o hc' hut
  · have := lent_change ht hs o
    have := h.refs o
    have := hrefs o
    rw [held_congr (congrArg ObjectSegment.element hpool)]
    omega

/-- What a step at one element leaves alone. -/
structure ChangesAt (s : HandleThreads) (t i : ℕ) (c : HandleCall) (s' : HandleThreads) : Prop where
  thread : s'.thread = update s.thread t (some c)
  element : ∀ j ≠ i, s'.pool.element j = s.pool.element j
  popped : ∀ j ≠ i, s'.popped j = s.popped j
  pushed : ∀ j ≠ i, s'.pushed j = s.pushed j
  added : ∀ j ≠ i, s'.added j = s.added j
  dropped : ∀ j ≠ i, s'.dropped j = s.dropped j

/-- A thread goes on, and an element gets another use. -/
theorem Inv.changes (h : Inv N phase s) (hc : s.ChangesAt t i c s') (ht : t < N)
    (hi : i < elementsCount) (howner : ∀ u, (phase i).owner? = some u → u = t)
    (howns : ∀ j, s.Owns t j → j = i) (hslot : s'.SlotOk i p)
    (hplace : PlaceOk (update phase i p) s'.refs t c)
    (hfree : ∃ free, s'.pool.FreeList free ∧
      ∀ j < elementsCount, j ∈ free ↔ update phase i p j = .free)
    (hpos : ∀ u o, s.thread u = some (.addReference o) → u ≠ t → s'.refs o ≠ 0)
    (hrefs : ∀ o, (s'.refs o).toNat + s.outside o + tally (s.lends? t = some o) +
        tally (s.holds? phase i = some o) =
      (s.refs o).toNat + s'.outside o + tally (c.object? = some o) +
        tally (s'.holds? (update phase i p) i = some o)) :
    Inv N (update phase i p) s' := by
  refine ⟨fun u hu ↦ ?_, fun j hj ↦ ?_, fun u c' hc' ↦ ?_, hfree, fun o ↦ ?_⟩
  · rw [hc.thread, Function.update_of_ne (by omega), h.outside u hu]
  · by_cases hji : j = i
    · subst hji
      rwa [Function.update_self]
    · rw [Function.update_of_ne hji]
      refine (h.slot j hj).mono (hc.element j hji) (hc.popped j hji) (hc.pushed j hji)
        (hc.added j hji) (hc.dropped j hji) fun u hu ↦ ?_
      have hne : u ≠ t := by
        rintro rfl
        exact hji (howns j ((h.slot j hj).owns hu))
      rw [hc.thread, Function.update_of_ne hne]
  · rw [hc.thread] at hc'
    by_cases hut : u = t
    · subst hut
      simp only [Function.update_self, Option.some.injEq] at hc'
      exact hc' ▸ hplace
    · rw [Function.update_of_ne hut] at hc'
      refine (h.place u c' hc').mono (fun j hj ↦ ?_) ?_
      · have hne : j ≠ i := by
          rintro rfl
          exact hut (howner u ((h.place u c' hc').owner hj).2)
        exact Function.update_of_ne hne ..
      · rintro o rfl
        exact hpos u o hc' hut
  · have := lent_change ht hc.thread o
    have := held_change phase (p := p) hi hc.element o
    have := h.refs o
    have := hrefs o
    omega

/-- Nothing changes but the place of a thread. -/
theorem Inv.goesOn (h : Inv N phase s) (ht : t < N) (ho : ∀ i, ¬ s.Owns t i)
    (hl : s.lends? t = c.object?) (hplace : PlaceOk phase s.refs t c) :
    Inv N phase { s with thread := update s.thread t (some c) } :=
  h.moves ht ho rfl rfl rfl rfl rfl rfl hplace (fun u o hu _ ↦ h.place u _ hu) fun o ↦ by rw [hl]

/-- `alloc_handle` is called. -/
theorem Inv.callAllocate (h : Inv N phase s) {object : ObjectAddress} {m : AccessMask} (ht : t < N)
    (ho : ∀ i, ¬ s.Owns t i) (hl : s.lends? t = none) (hout : 0 < s.outside object) :
    Inv N phase { s with
      outside := decrement s.outside object
      thread := update s.thread t (some (.allocate object m)) } := by
  refine h.moves ht ho rfl rfl rfl rfl rfl rfl trivial (fun u o hu _ ↦ h.place u _ hu) fun o ↦ ?_
  dsimp only
  rw [hl, tally_none, HandleCall.object?, tally_some, decrement_apply]
  split
  · rename_i heq
    subst heq
    omega
  · rfl

/-- `alloc_handle` gives its reference back. -/
theorem Inv.returns (h : Inv N phase s) {object : ObjectAddress} {r : CallResult} (ht : t < N)
    (ho : ∀ i, ¬ s.Owns t i) (hl : s.lends? t = some object.val) :
    Inv N phase { s with
      outside := increment s.outside object
      thread := update s.thread t (some (.done r)) } := by
  refine h.moves ht ho rfl rfl rfl rfl rfl rfl trivial (fun u o hu _ ↦ h.place u _ hu) fun o ↦ ?_
  dsimp only
  rw [hl, tally_some, HandleCall.object?_done, tally_none, increment_apply]
  split <;> omega

/-- `reference_object` adds its reference. -/
theorem Inv.addReference (h : Inv N phase s) {r : CallResult} (ht : t < N)
    (ho : ∀ i, ¬ s.Owns t i) (hl : s.lends? t = none) {object : ℕ} (hwrap : s.refs object + 1 ≠ 0) :
    Inv N phase { s with
      refs := increment s.refs object
      outside := increment s.outside object
      thread := update s.thread t (some (.done r)) } := by
  refine h.moves ht ho rfl rfl rfl rfl rfl rfl trivial
    (fun u o hu _ ↦ increment_ne_zero hwrap (h.place u _ hu)) fun o ↦ ?_
  dsimp only
  rw [hl, tally_none, HandleCall.object?_done, tally_none, toNat_increment hwrap, increment_apply]
  split <;> omega

/-- If the last reference is not needed, no thread misses it. -/
theorem Inv.decrement_ne_zero (h : Inv N phase s) {object : ℕ} (hlast : s.LastUnneeded N object)
    (hu : s.thread u = some (.addReference o)) : decrement s.refs object o ≠ 0 := by
  rw [decrement_apply]
  split
  · rename_i heq
    subst heq
    intro hz
    exact hlast (Counter.eq_one_of_sub_one (h.place u _ hu) hz) u (h.lt hu) hu
  · exact h.place u _ hu

/-- A reference that is held outside is dropped. -/
theorem Inv.release (h : Inv N phase s) {object : ℕ} (hout : 0 < s.outside object)
    (hlast : s.LastUnneeded N object) :
    Inv N phase { s with
      refs := decrement s.refs object
      outside := decrement s.outside object } := by
  refine ⟨h.outside, h.slot, fun u c hc ↦ (h.place u c hc).mono (fun _ _ ↦ rfl) ?_, h.free,
    fun o ↦ ?_⟩
  · rintro o rfl
    exact h.decrement_ne_zero hlast hc
  · have hrefs := h.refs o
    have hlent : HandleThreads.lent N { s with
      refs := decrement s.refs object
      outside := decrement s.outside object } o = s.lent N o := rfl
    have hheld : HandleThreads.held { s with
      refs := decrement s.refs object
      outside := decrement s.outside object } phase o = s.held phase o := rfl
    rw [hlent, hheld]
    dsimp only
    rw [toNat_decrement (h.refs_ne_zero_of_outside hout), decrement_apply]
    split
    · rename_i heq
      subst heq
      omega
    · exact hrefs

theorem owns_iff (hc : s.thread t = some c) : s.Owns t i ↔ c.owned? = some i := by simp [Owns, hc]

theorem lends?_eq (hc : s.thread t = some c) : s.lends? t = c.object? := by simp [lends?, hc]

/-- The element is one that the thread owns. -/
theorem Inv.changesOwn {c₀ : HandleCall} (h : Inv N phase s) (hc₀ : s.thread t = some c₀)
    (hown : c₀.owned? = some i) (hc : s.ChangesAt t i c s') (hslot : s'.SlotOk i p)
    (hplace : PlaceOk (update phase i p) s'.refs t c)
    (hfree : ∃ free, s'.pool.FreeList free ∧
      ∀ j < elementsCount, j ∈ free ↔ update phase i p j = .free)
    (hpos : ∀ u o, s.thread u = some (.addReference o) → u ≠ t → s'.refs o ≠ 0)
    (hrefs : ∀ o, (s'.refs o).toNat + s.outside o + tally (s.lends? t = some o) +
        tally (s.holds? phase i = some o) =
      (s.refs o).toNat + s'.outside o + tally (c.object? = some o) +
        tally (s'.holds? (update phase i p) i = some o)) :
    Inv N (update phase i p) s' := by
  obtain ⟨hi, howner⟩ := (h.place t c₀ hc₀).owner hown
  refine h.changes hc (h.lt hc₀) hi (fun u hu ↦ ?_) (fun j hj ↦ ?_) hslot hplace hfree hpos hrefs
  · exact Option.some.inj (hu.symm.trans howner)
  · rw [owns_iff hc₀, hown] at hj
    exact (Option.some.inj hj).symm

/-- An element that is not free before and after a step. -/
theorem Inv.free_stays (h : Inv N phase s) (hi : i < elementsCount) (hp : phase i ≠ .free)
    (hp' : p ≠ .free) {pool : ObjectSegment}
    (hpool : ∀ free, s.pool.FreeList free → i ∉ free → pool.FreeList free) :
    ∃ free, pool.FreeList free ∧ ∀ j < elementsCount, j ∈ free ↔ update phase i p j = .free := by
  obtain ⟨free, hlist, hmem⟩ := h.free
  have hnot : i ∉ free := fun hin ↦ hp ((hmem i hi).mp hin)
  refine ⟨free, hpool free hlist hnot, fun j hj ↦ ?_⟩
  by_cases hji : j = i
  · subst hji
    simp [hnot, hp']
  · rw [Function.update_of_ne hji, hmem j hj]

/-- An element is taken from the free list. -/
theorem Inv.pop (h : Inv N phase s) {object : ObjectAddress} {m : AccessMask} {pool : ObjectSegment}
    {a : ℕ} (hc : s.thread t = some (.allocate object m))
    (hp : s.pool.allocate = some (.ok (a, i), pool)) :
    Inv N (update phase i (.fresh t)) { s with
      pool := pool
      popped := increment s.popped i
      thread := update s.thread t (some (.setObject i object m)) } := by
  obtain ⟨free, hlist, hmem⟩ := h.free
  cases free with
  | nil =>
    rw [hlist.allocate_nil] at hp
    cases hp
  | cons k free =>
    obtain ⟨pool', hp', hlist', -, helem⟩ := hlist.allocate_cons
    cases hp.symm.trans hp'
    have hi := hlist.lt i List.mem_cons_self
    have hnot := (List.nodup_cons.mp hlist.nodup).1
    have hfree := (hmem i hi).mp List.mem_cons_self
    have hslot := hfree ▸ h.slot i hi
    refine h.changes (t := t) (c := .setObject i object m) ⟨rfl, fun j _ ↦ by rw [helem], ?_,
      fun _ _ ↦ rfl,
      fun _ _ ↦ rfl, fun _ _ ↦ rfl⟩ (h.lt hc) hi ?_ ?_ ?_ ?_ ?_
        (fun u o hu _ ↦ h.place u _ hu) fun o ↦ ?_
    · intro j hj
      dsimp only
      rw [increment_apply, if_neg hj]
    · rw [hfree]
      exact fun u hu ↦ by cases hu
    · intro j hj
      rw [owns_iff hc] at hj
      cases hj
    · obtain ⟨hused, hpop, hadd, hdrop⟩ := hslot
      refine ⟨⟨object, m, by simp⟩, by rw [helem, hused], ?_, hadd, hdrop⟩
      dsimp only
      rw [increment_apply, if_pos rfl, hpop]
    · exact ⟨hi, by simp⟩
    · refine ⟨free, hlist', fun j hj ↦ ?_⟩
      by_cases hji : j = i
      · subst hji
        simp [hnot]
      · rw [Function.update_of_ne hji, ← hmem j hj, List.mem_cons, or_iff_right hji]
    · rw [lends?_eq hc, holds?_of_not (by rw [hfree]; rfl),
        holds?_of_not (by rw [Function.update_self]; rfl)]
      rfl

/-- The pointer of an entry is written. -/
theorem Inv.setObject (h : Inv N phase s) {object : ObjectAddress} {m : AccessMask}
    (hc : s.thread t = some (.setObject i object m)) : ∃ phase', Inv N phase' { s with
      pool := { s.pool with
        element := update s.pool.element i ((s.pool.element i).setObject object) }
      thread := update s.thread t (some (.addRef i object m)) } := by
  obtain ⟨hi, hphase⟩ := h.place t _ hc
  have hslot := hphase ▸ h.slot i hi
  refine ⟨update phase i (.pointed t), h.changesOwn hc rfl (c := .addRef i object m)
    ⟨rfl, fun j hj ↦ Function.update_of_ne hj .., fun _ _ ↦ rfl, fun _ _ ↦ rfl, fun _ _ ↦ rfl,
      fun _ _ ↦ rfl⟩ ?_ ?_ ?_ (fun u o hu _ ↦ h.place u _ hu) fun o ↦ ?_⟩
  · obtain ⟨-, -, hnum⟩ := hslot
    exact ⟨⟨object, m, by simp, by simp [ObjectEntry.setObject]⟩, hnum⟩
  · exact ⟨hi, by simp⟩
  · exact h.free_stays hi (by simp [hphase]) (by simp) fun free hf hnot ↦ hf.update hnot _
  · rw [lends?_eq hc, holds?_of_not (by rw [hphase]; rfl),
      holds?_of_not (by rw [Function.update_self]; rfl)]
    rfl

/-- The reference of an entry is added. -/
theorem Inv.addRef (h : Inv N phase s) {object : ObjectAddress} {m : AccessMask}
    (hc : s.thread t = some (.addRef i object m)) (hwrap : s.refs object + 1 ≠ 0) :
    ∃ phase', Inv N phase' { s with
      refs := increment s.refs object
      added := increment s.added i
      thread := update s.thread t (some (.setGrantedAccess i object m)) } := by
  obtain ⟨hi, hphase⟩ := h.place t _ hc
  have hslot := hphase ▸ h.slot i hi
  obtain ⟨⟨o, m', hc', hused⟩, hpop, hadd, hdrop⟩ := hslot
  cases hc.symm.trans hc'
  refine ⟨update phase i (.counted t), h.changesOwn hc rfl (c := .setGrantedAccess i object m)
    ⟨rfl, fun _ _ ↦ rfl, fun _ _ ↦ rfl, fun _ _ ↦ rfl, fun j hj ↦ ?_, fun _ _ ↦ rfl⟩ ?_ ?_ ?_
    (fun u o hu _ ↦ increment_ne_zero hwrap (h.place u _ hu)) fun o ↦ ?_⟩
  · dsimp only
    rw [increment_apply, if_neg hj]
  · refine ⟨⟨object, m, by simp⟩, hused ▸ object.property, hpop, ?_, hdrop⟩
    dsimp only
    rw [increment_apply, if_pos rfl, hadd]
  · exact ⟨hi, by simp⟩
  · exact h.free_stays hi (by simp [hphase]) (by simp) fun free hf _ ↦ hf
  · rw [lends?_eq hc, holds?_of_not (by rw [hphase]; rfl),
      holds?_of_holds (by rw [Function.update_self]; rfl)]
    dsimp only
    rw [toNat_increment hwrap, hused, tally_some, tally_none, HandleCall.object?,
      HandleCall.object?,
      tally_some]
    split <;> omega

/-- The mask of an entry is written, and the handle is allocated. -/
theorem Inv.setGrantedAccess (h : Inv N phase s) {object : ObjectAddress} {m : AccessMask}
    {r : CallResult}
    (hc : s.thread t = some (.setGrantedAccess i object m)) : ∃ phase', Inv N phase' { s with
      pool := { s.pool with
        element := update s.pool.element i ((s.pool.element i).setGrantedAccess m) }
      outside := increment s.outside object
      thread := update s.thread t (some (.done r)) } := by
  obtain ⟨hi, hphase⟩ := h.place t _ hc
  have hslot := hphase ▸ h.slot i hi
  obtain ⟨-, hused, hnum⟩ := hslot
  refine ⟨update phase i .live, h.changesOwn hc rfl (c := .done r)
    ⟨rfl, fun j hj ↦ Function.update_of_ne hj .., fun _ _ ↦ rfl, fun _ _ ↦ rfl, fun _ _ ↦ rfl,
      fun _ _ ↦ rfl⟩ ?_ trivial ?_ (fun u o hu _ ↦ h.place u _ hu) fun o ↦ ?_⟩
  · exact ⟨by simpa [ObjectEntry.setGrantedAccess] using hused, hnum⟩
  · exact h.free_stays hi (by simp [hphase]) (by simp) fun free hf hnot ↦ hf.update hnot _
  · rw [lends?_eq hc, holds?_of_holds (by rw [hphase]; rfl),
      holds?_of_holds (by rw [Function.update_self]; rfl)]
    dsimp only
    rw [increment_apply, HandleCall.object?_done, tally_none, HandleCall.object?, tally_some,
      Function.update_self, ObjectEntry.used_setGrantedAccess]
    split <;> omega

/-- The reference of an entry is dropped. -/
theorem Inv.decRef (h : Inv N phase s) (hi : i < elementsCount)
    (hused : (s.pool.element i).used ≠ 0)
    (hnone : ∀ u < N, ¬ s.Owns u i) (hlast : s.LastUnneeded N (s.pool.element i).used)
    (hc : s.thread t = some (.decRef i (s.pool.element i).used)) : ∃ phase', Inv N phase' { s with
      refs := decrement s.refs (s.pool.element i).used
      dropped := increment s.dropped i
      thread := update s.thread t (some (.clearObject i)) } := by
  have hslot := h.slot i hi
  have hlive : phase i = .live := by
    cases hp : phase i with
    | live => rfl
    | free =>
      rw [hp] at hslot
      exact absurd hslot.1 hused
    | fresh u | pointed u | counted u | released u | cleared u =>
      have ho : s.Owns u i := (h.slot i hi).owns (by rw [hp]; rfl)
      obtain ⟨c, hc, -⟩ := Option.bind_eq_some_iff.mp ho
      exact absurd ho (hnone u (h.lt hc))
  rw [hlive] at hslot
  obtain ⟨-, hpop, hadd, hdrop⟩ := hslot
  refine ⟨update phase i (.released t), h.changes (t := t) (c := .clearObject i)
    ⟨rfl, fun _ _ ↦ rfl, fun _ _ ↦ rfl, fun _ _ ↦ rfl, fun _ _ ↦ rfl, fun j hj ↦ ?_⟩ (h.lt hc) hi
    ?_ ?_ ?_ ?_ ?_ (fun u o hu _ ↦ h.decrement_ne_zero hlast hu) fun o ↦ ?_⟩
  · dsimp only
    rw [increment_apply, if_neg hj]
  · rw [hlive]
    rintro u ⟨⟩
  · intro j hj
    rw [owns_iff hc] at hj
    cases hj
  · refine ⟨by simp, hused, hpop, hadd, ?_⟩
    dsimp only
    rw [increment_apply, if_pos rfl, hdrop]
  · exact ⟨hi, by simp⟩
  · exact h.free_stays hi (by simp [hlive]) (by simp) fun free hf _ ↦ hf
  · have hne := h.refs_ne_zero hi (by rw [hlive]; rfl)
    rw [lends?_eq hc, holds?_of_holds (by rw [hlive]; rfl),
      holds?_of_not (by rw [Function.update_self]; rfl)]
    have hpos : 0 < (s.refs (s.pool.element i).used).toNat :=
      Nat.pos_of_ne_zero ((Counter.eq_zero_iff rfl).not.mp hne)
    dsimp only
    rw [toNat_decrement hne, tally_some, tally_none,
      show (HandleCall.decRef i (s.pool.element i).used).object? = none from rfl,
      show (HandleCall.clearObject i).object? = none from rfl]
    split
    · rename_i heq
      rw [heq]
      omega
    · rfl

/-- The pointer of an entry is cleared. -/
theorem Inv.clearObject (h : Inv N phase s) (hc : s.thread t = some (.clearObject i)) :
    ∃ phase', Inv N phase' { s with
      pool := { s.pool with element := update s.pool.element i ((s.pool.element i).setObject 0) }
      thread := update s.thread t (some (.push i)) } := by
  obtain ⟨hi, hphase⟩ := h.place t _ hc
  have hslot := hphase ▸ h.slot i hi
  obtain ⟨-, -, hnum⟩ := hslot
  refine ⟨update phase i (.cleared t), h.changesOwn hc rfl (c := .push i)
    ⟨rfl, fun j hj ↦ Function.update_of_ne hj .., fun _ _ ↦ rfl, fun _ _ ↦ rfl, fun _ _ ↦ rfl,
      fun _ _ ↦ rfl⟩ ?_ ?_ ?_ (fun u o hu _ ↦ h.place u _ hu) fun o ↦ ?_⟩
  · exact ⟨by simp, by simp [ObjectEntry.setObject], hnum⟩
  · exact ⟨hi, by simp⟩
  · exact h.free_stays hi (by simp [hphase]) (by simp) fun free hf hnot ↦ hf.update hnot _
  · rw [lends?_eq hc, holds?_of_not (by rw [hphase]; rfl),
      holds?_of_not (by rw [Function.update_self]; rfl)]
    rfl

/-- The element of an entry is pushed. -/
theorem Inv.push (h : Inv N phase s) {r : CallResult} {pool : ObjectSegment}
    (hc : s.thread t = some (.push i)) (hp : s.pool.push (s.pool.elementAddress i) = some pool) :
    ∃ phase', Inv N phase' { s with
      pool := pool
      pushed := increment s.pushed i
      thread := update s.thread t (some (.done r)) } := by
  obtain ⟨hi, hphase⟩ := h.place t _ hc
  have hslot := hphase ▸ h.slot i hi
  obtain ⟨-, hused, hpop, hadd, hdrop⟩ := hslot
  obtain ⟨free, hlist, hmem⟩ := h.free
  have hnot : i ∉ free := fun hin ↦ by
    rw [hmem i hi, hphase] at hin
    cases hin
  obtain ⟨pool', hp', hlist', -, helem⟩ := hlist.push hi hnot
  cases hp.symm.trans hp'
  refine ⟨update phase i .free, h.changesOwn hc rfl (c := .done r)
    ⟨rfl, fun j hj ↦ by rw [helem, Function.update_of_ne hj], fun _ _ ↦ rfl, fun j hj ↦ ?_,
      fun _ _ ↦ rfl, fun _ _ ↦ rfl⟩ ?_ trivial ?_ (fun u o hu _ ↦ h.place u _ hu) fun o ↦ ?_⟩
  · dsimp only
    rw [increment_apply, if_neg hj]
  · refine ⟨by rw [helem, Function.update_self], ?_⟩
    dsimp only
    rw [increment_apply, if_pos rfl]
    exact ⟨hpop, hadd, hdrop⟩
  · refine ⟨i :: free, hlist', fun j hj ↦ ?_⟩
    by_cases hji : j = i
    · subst hji
      simp
    · rw [Function.update_of_ne hji, ← hmem j hj, List.mem_cons, or_iff_right hji]
  · rw [lends?_eq hc, holds?_of_not (by rw [hphase]; rfl),
      holds?_of_not (by rw [Function.update_self]; rfl)]
    rfl

/-! ## Every run -/

theorem check_lt {fd : ℤ} (h : s.check fd = .ok i) : i < elementsCount := by
  unfold check HandleTable.entryAt at h
  split at h
  · cases h
  · simp only [ObjectSegment.atWithSegment] at h
    split at h
    · cases h
    · rename_i hlt
      simp only [ObjectSegment.entryAt] at h
      split at h
      · cases h
      · cases h
        rw [ObjectSegment.index_elementAddress]
        exact not_le.mp hlt

/-- A thread that calls something is in no call. -/
theorem call_eq_some (h : call N s t c = some s') : t < N ∧ (∀ i, ¬ s.Owns t i) ∧
    s.lends? t = none ∧ s' = { s with thread := update s.thread t (some c) } := by
  unfold call at h
  split at h
  · rename_i hn
    split at h
    · cases h
      exact ⟨‹_›, by simp [Owns, hn], by simp [lends?, hn], rfl⟩
    · cases h
  · rename_i r hd
    split at h
    · cases h
      exact ⟨‹_›, by simp [Owns, hd, HandleCall.owned?], by simp [lends?, hd, HandleCall.object?],
        rfl⟩
    · cases h
  · cases h

/-- An entry that a lookup reads has an object with a reference. -/
theorem Inv.refs_ne_zero_of_used (h : Inv N phase s) (hi : i < elementsCount)
    (hused : (s.pool.element i).object ≠ 0)
    (hrel : ∀ u < N, s.thread u = some (.clearObject i) → s.refs (s.pool.element i).object ≠ 0) :
    s.refs (s.pool.element i).object ≠ 0 := by
  have hslot := h.slot i hi
  cases hp : phase i with
  | live | counted => exact h.refs_ne_zero hi (by rw [hp]; rfl)
  | free =>
    rw [hp] at hslot
    exact absurd hslot.1 hused
  | fresh | cleared =>
    rw [hp] at hslot
    exact absurd hslot.2.1 hused
  | pointed u =>
    rw [hp] at hslot
    obtain ⟨⟨o, m, hu, he⟩, -⟩ := hslot
    rw [ObjectEntry.object, he]
    exact h.refs_ne_zero_of_lends (h.lt hu) (lends?_eq hu)
  | released u =>
    rw [hp] at hslot
    exact hrel u (h.lt hslot.1) hslot.1

/-- **A step keeps the bookkeeping**, if what the thread has checked still holds. -/
theorem Inv.step {isA : ℕ → Bool} {c' : HandleCall} (h : Inv N phase s) (hc : s.thread t = some c)
    (hcond : s.StillHolds N (.step t)) (hs : s.advance isA c = some (s', c')) :
    ∃ phase', Inv N phase' { s' with thread := update s'.thread t (some c') } := by
  have ht := h.lt hc
  have hplace := h.place t c hc
  have hlends := lends?_eq hc
  have howns : c.owned? = none → ∀ i, ¬ s.Owns t i := fun hn i ↦ by
    rw [owns_iff hc, hn]
    simp
  simp only [StillHolds, hc] at hcond
  cases c with
  | allocate object m =>
    obtain ⟨⟨r, pool⟩, hp, hs⟩ := Option.bind_eq_some_iff.mp hs
    cases r with
    | error e =>
      obtain ⟨free, hlist, -⟩ := h.free
      cases free with
      | nil =>
        cases hp.symm.trans hlist.allocate_nil
        cases hs
        exact ⟨phase, h.returns ht (howns rfl) hlends⟩
      | cons i free =>
        obtain ⟨_, hp', -⟩ := hlist.allocate_cons
        cases hp.symm.trans hp'
    | ok x =>
      obtain ⟨a, i⟩ := x
      cases hs
      exact ⟨_, h.pop hc hp⟩
  | setObject i object m =>
    rw [advance, ObjectSegment.modify_eq hplace.1] at hs
    cases hs
    exact h.setObject hc
  | addRef i object m =>
    cases hs
    exact h.addRef hc hcond
  | setGrantedAccess i object m =>
    rw [advance, ObjectSegment.modify_eq hplace.1] at hs
    cases hs
    exact h.setGrantedAccess hc
  | close fd =>
    simp only [advance] at hs
    split at hs
    · rename_i i hi
      cases hs
      exact ⟨phase, h.goesOn ht (howns rfl) hlends (check_lt hi)⟩
    · cases hs
      exact ⟨phase, h.goesOn ht (howns rfl) hlends trivial⟩
  | readObject i =>
    simp only [advance, Option.some.injEq, Prod.mk.injEq] at hs
    obtain ⟨rfl, rfl⟩ := hs
    rw [if_neg hcond]
    exact ⟨phase, h.goesOn ht (howns rfl) hlends ⟨hplace, hcond⟩⟩
  | decRef i object =>
    obtain ⟨rfl, hnone, hlast⟩ := hcond
    cases hs
    exact h.decRef hplace.1 hplace.2 hnone hlast hc
  | clearObject i =>
    rw [advance, ObjectSegment.modify_eq hplace.1] at hs
    cases hs
    exact h.clearObject hc
  | push i =>
    obtain ⟨pool, hp, hs⟩ := Option.bind_eq_some_iff.mp hs
    cases hs
    exact h.push hc hp
  | reference fd =>
    simp only [advance] at hs
    split at hs
    · rename_i i hi
      cases hs
      exact ⟨phase, h.goesOn ht (howns rfl) hlends (check_lt hi)⟩
    · cases hs
      exact ⟨phase, h.goesOn ht (howns rfl) hlends trivial⟩
  | readEntry i =>
    simp only [advance, Option.some.injEq, Prod.mk.injEq] at hs
    obtain ⟨rfl, rfl⟩ := hs
    rw [if_neg hcond.1]
    split
    · exact ⟨phase, h.goesOn ht (howns rfl) hlends (h.refs_ne_zero_of_used hplace hcond.1 hcond.2)⟩
    · exact ⟨phase, h.goesOn ht (howns rfl) hlends trivial⟩
  | addReference object =>
    cases hs
    exact ⟨phase, h.addReference ht (howns rfl) hlends hcond⟩
  | done => cases hs
  | failed => cases hs

variable {isA : ℕ → Bool} {address : ℕ}

theorem inv_init : Inv N (fun _ ↦ .free) (machine isA address refs N).init := by
  refine ⟨fun _ _ ↦ rfl, fun i _ ↦ ⟨?_, rfl, rfl, rfl⟩, fun t c hc ↦ ?_, ⟨_,
    ObjectSegment.freeList_init address, fun i hi ↦ by simp [hi]⟩, fun o ↦ ?_⟩
  · simp only [machine, ObjectSegment.init]
    split <;> rfl
  · cases hc
  · have hlent : (machine isA address refs N).init.lent N o = 0 :=
      count_eq_zero fun t _ ht ↦ by simp [lends?, machine] at ht
    have hheld : (machine isA address refs N).init.held (fun _ ↦ .free) o = 0 :=
      count_eq_zero fun i _ hi ↦ by simp [holds?, Phase.holds] at hi
    rw [hlent, hheld]
    rfl

theorem inv_of_reachable (h : (machine isA address refs N).ReachableWhile (StillHolds N) s) :
    ∃ phase, Inv N phase s := by
  refine h.invariant (I := fun s ↦ ∃ phase, Inv N phase s) ⟨_, inv_init⟩ ?_
  rintro s a s' - ⟨phase, hI⟩ hc hn
  cases a with
  | allocHandle t object m =>
    simp only [machine, next] at hn
    split at hn
    · obtain ⟨ht, ho, hl, rfl⟩ := call_eq_some hn
      exact ⟨phase, hI.callAllocate ht ho hl ‹_›⟩
    · cases hn
  | closeHandle t fd =>
    obtain ⟨ht, ho, hl, rfl⟩ := call_eq_some hn
    exact ⟨phase, hI.moves ht ho rfl rfl rfl rfl rfl rfl trivial (fun u o hu _ ↦ hI.place u _ hu)
      fun o ↦ by rw [show s.lends? t = none from hl]; rfl⟩
  | referenceObject t fd =>
    obtain ⟨ht, ho, hl, rfl⟩ := call_eq_some hn
    exact ⟨phase, hI.goesOn ht ho hl trivial⟩
  | step t =>
    obtain ⟨c, hct, hn⟩ := Option.bind_eq_some_iff.mp hn
    obtain ⟨⟨s₁, c'⟩, hs, hn⟩ := Option.bind_eq_some_iff.mp hn
    cases hn
    exact hI.step hct hc hs
  | release object =>
    simp only [machine, next] at hn
    split at hn
    · cases hn
      exact ⟨phase, hI.release ‹_› hc⟩
    · cases hn

end HandleThreads

end Chino
