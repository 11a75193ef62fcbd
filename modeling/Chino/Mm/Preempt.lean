import Chino.Mm.Allocation
import Chino.Mm.Take
import Mathlib.Algebra.Order.BigOperators.Group.Finset

/-!
# Allocating pages on one CPU

The threads of one CPU, each in `allocate_page`, with preemption between any two accesses to shared
memory.  Renting a bucket is one step, because it runs under the scheduler lock.

A thread reserves a page by decrementing `free_pages_`, and reads only then which bucket that was
for.  If another thread rents a bucket in between, the reservation is one of the new bucket, which
does not know of it: `reservation_outlives_bucket`.  `pages_accounted` says that nothing else goes
wrong.

## The accounting

`pages_accounted` compares `free_pages_` with what the tables of the rented bucket have left.  The
two differ by the threads that have reserved a page in `free_pages_` and not yet taken one from the
tables.  `Inv` says this, and the same one level below: what an entry counts and what its level-2
table has left differ by the threads that have reserved a page in the entry.

* `inFlight` and `reservedIn` count threads, over the finite set of those that run; a step moves one
  thread, so by `Chino.Library.Count` they change by one.
* Within a bucket the calls of `take` interleave as in `Chino.Mm.Take`, whose step lemmas are used
  here.
* `Inv.rent` is the delicate step.  It replaces the bucket of the CPU, and it is all right if no
  thread holds a reservation that it has not yet used: `RentsUndisturbed`.

The condition is about the state before the renting, and only about that step.
-/

set_option autoImplicit false

namespace Chino

open Function (update)

/-- Where a thread is in `allocate_page`. -/
inductive AllocState where
  /-- About to load `free_pages_`. -/
  | load
  /-- About to decrement it. -/
  | reserve (freePages : ℕ)
  /-- About to read `segment_index_`, for the level-1 table. -/
  | readSegment
  /-- About to read `pt01_index_`, for the level-1 table. -/
  | readPt01 (s : ℕ)
  /-- About to read `segment_index_`, for the level-2 tables. -/
  | readBucketSegment (s i : ℕ)
  /-- About to read `pt01_index_`, for the level-2 tables. -/
  | readBucketPt01 (s i s' : ℕ)
  /-- In `page_table_1::take`. -/
  | take (s i s' i' : ℕ) (st : TakeState)
  /-- About to read `segment_index_`, for the address. -/
  | readBase (pfn : ℕ)
  /-- About to rent a bucket. -/
  | rent
  | done (result : Except ErrorCode ℕ)
  /-- An `unwrap` was applied to an error. -/
  | failed

namespace AllocState

/-- The thread has decremented `free_pages_` and not taken a page yet. -/
def inFlight : AllocState → Bool
  | readSegment | readPt01 _ | readBucketSegment .. | readBucketPt01 .. | take .. => true
  | _ => false

/-- The entry of the level-1 table in which the thread has reserved its page. -/
def reserved? : AllocState → Option ℕ
  | take _ _ _ _ st => st.reserved?
  | _ => none

end AllocState

namespace PhysicalMemory

/-- The bucket that CPU 0 takes its pages from. -/
def current (m : PhysicalMemory) : Bucket :=
  (m.segment (m.cpu 0).segmentIndex).bucket (m.cpu 0).pt01Index

/-- CPU 0 has rented it. -/
def Rented (m : PhysicalMemory) : Prop :=
  (m.segment (m.cpu 0).segmentIndex).pt0 (m.cpu 0).pt01Index % 2 = 1

instance (m : PhysicalMemory) : Decidable m.Rented := inferInstanceAs (Decidable (_ = _))

/-- The number of free pages of the bucket that CPU 0 has rented, if it has rented one. -/
def bucketPages (m : PhysicalMemory) : ℕ :=
  if m.Rented then ∑ e ∈ Finset.range PageTable1.maxEntries, (m.current.pt2 e).untaken else 0

/-- A level-1 table and level-2 tables that need not be those of one bucket. -/
def tables (m : PhysicalMemory) (s i s' i' : ℕ) : Bucket :=
  ⟨(m.segment s).pt1 i, ((m.segment s').bucket i').pt2⟩

/-- The counters of one bucket and the bits of another one change. -/
def setTables (m : PhysicalMemory) (s i s' i' : ℕ) (b : Bucket) : PhysicalMemory :=
  let segment := update m.segment s { m.segment s with pt1 := update (m.segment s).pt1 i b.entries }
  { m with segment := update segment s' ((segment s').setBucket i' ⟨(segment s').pt1 i', b.pt2⟩) }

/-- Where a thread is after an operation of `take`. -/
def taking (s i s' i' : ℕ) : TakeState → AllocState
  | .done (some x) => .readBase (Bucket.index x)
  | .done none | .failed => .failed
  | st => .take s i s' i' st

/-- The next access of a thread of CPU 0. -/
def step (m : PhysicalMemory) : AllocState → Option (PhysicalMemory × AllocState)
  | .load => some (m, if 0 < (m.cpu 0).freePages then .reserve (m.cpu 0).freePages else .rent)
  | .reserve freePages =>
    if (m.cpu 0).freePages = freePages then some (m.reserve 0, .readSegment) else some (m, .load)
  | .readSegment => some (m, .readPt01 (m.cpu 0).segmentIndex)
  | .readPt01 s => some (m, .readBucketSegment s (m.cpu 0).pt01Index)
  | .readBucketSegment s i => some (m, .readBucketPt01 s i (m.cpu 0).segmentIndex)
  | .readBucketPt01 s i s' => some (m, .take s i s' (m.cpu 0).pt01Index (.load 0))
  | .take s i s' i' st => do
    let (b, st') ← (m.tables s i s' i').step st
    some (m.setTables s i s' i' b, taking s i s' i' st')
  | .readBase pfn => some (m, .done (.ok ((m.segment (m.cpu 0).segmentIndex).pfnToPaddr pfn)))
  | .rent =>
    if (m.cpu 0).freePages = 0 then
      match m.rentNewPt0 0 with
      | some m' => some (m', .load)
      | none => some (m, .done (.error .outOfMemory))
    else some (m, .load)
  | .done _ | .failed => none

end PhysicalMemory

/-! ## The machine -/

/-- The threads `0`, …, `N - 1`. -/
structure Allocators where
  memory : PhysicalMemory
  thread : ℕ → Option AllocState

/-- A thread calls `allocate_page`, or goes on in it. -/
inductive AllocAction where
  /-- A thread calls `allocate_page`. -/
  | call (t : ℕ)
  | step (t : ℕ)
deriving DecidableEq

namespace Allocators

/-- The next state, or none where the action does not apply. -/
def next (N : ℕ) (a : Allocators) : AllocAction → Option Allocators
  | .call t =>
    match a.thread t with
    | none | some (.done _) =>
      if t < N then some { a with thread := update a.thread t (some .load) } else none
    | _ => none
  | .step t => do
    let st ← a.thread t
    let (m, st') ← a.memory.step st
    some ⟨m, update a.thread t (some st')⟩

/-- Runs of the threads below `N`. -/
def machine (descs : List BootMemoryDesc) (N : ℕ) : Machine Allocators AllocAction where
  init := ⟨.initializePhase0 descs, fun _ ↦ none⟩
  next := next N

/-- A thread is in flight. -/
def InFlight (a : Allocators) (t : ℕ) : Prop := (a.thread t).any AllocState.inFlight = true

instance (a : Allocators) (t : ℕ) : Decidable (a.InFlight t) :=
  inferInstanceAs (Decidable (_ = true))

/-- A thread that is about to rent a bucket finds one only if no thread is in flight. -/
def RentsUndisturbed (N : ℕ) (a : Allocators) : AllocAction → Prop
  | .call _ => True
  | .step t =>
    match a.thread t with
    | some .rent => (a.memory.cpu 0).freePages = 0 →
        (∃ s < a.memory.segmentsCount, ∃ i < (a.memory.segment s).pt01Count,
          (a.memory.segment s).pt0 i % 2 = 0) → ∀ u < N, ¬ a.InFlight u
    | _ => True

instance (N : ℕ) (a : Allocators) : (e : AllocAction) → Decidable (a.RentsUndisturbed N e)
  | .call _ => inferInstanceAs (Decidable True)
  | .step t => by
    unfold RentsUndisturbed
    dsimp only
    split <;> infer_instance

/-! ## The bookkeeping -/

end Allocators

namespace PhysicalMemory

variable {m m' : PhysicalMemory} {st st' : AllocState}

/-- A thread in flight is in the current bucket. -/
def PlaceOk (m : PhysicalMemory) : AllocState → Prop
  | .reserve freePages => 0 < freePages
  | .readSegment => m.Rented
  | .readPt01 s => m.Rented ∧ s = (m.cpu 0).segmentIndex
  | .readBucketSegment s i => m.Rented ∧ s = (m.cpu 0).segmentIndex ∧ i = (m.cpu 0).pt01Index
  | .readBucketPt01 s i s' =>
    m.Rented ∧ s = (m.cpu 0).segmentIndex ∧ i = (m.cpu 0).pt01Index ∧ s' = (m.cpu 0).segmentIndex
  | .take s i s' i' st =>
    m.Rented ∧ s = (m.cpu 0).segmentIndex ∧ i = (m.cpu 0).pt01Index ∧
      s' = (m.cpu 0).segmentIndex ∧ i' = (m.cpu 0).pt01Index ∧
      Bucket.init.CallOk m.current st ∧ m.current.Before st ∧ ∀ r, st ≠ .done r
  | .failed => False
  | _ => True

theorem PlaceOk.rented (h : m.PlaceOk st) (hf : st.inFlight = true) : m.Rented := by
  cases st <;> first | exact h.1 | exact h | cases hf

/-- What a thread has found stays true. -/
theorem PlaceOk.mono (h : m.PlaceOk st) (hr : m.Rented → m'.Rented)
    (hs : (m'.cpu 0).segmentIndex = (m.cpu 0).segmentIndex)
    (hi : (m'.cpu 0).pt01Index = (m.cpu 0).pt01Index) (hg : m.current.Grows m'.current)
    (he : ∀ e, m.current.entries e = 0 → m'.current.entries e = 0) : m'.PlaceOk st := by
  cases st with
  | take s i s' i' st =>
    obtain ⟨h₁, h₂, h₃, h₄, h₅, hok, hbefore, hd⟩ := h
    refine ⟨hr h₁, h₂.trans hs.symm, h₃.trans hi.symm, h₄.trans hs.symm, h₅.trans hi.symm,
      hok.mono hg, ?_, hd⟩
    cases st <;> first | exact fun e' hlt ↦ he e' (hbefore e' hlt) | trivial
  | readSegment => exact hr h
  | readPt01 => exact ⟨hr h.1, h.2.trans hs.symm⟩
  | readBucketSegment => exact ⟨hr h.1, h.2.1.trans hs.symm, h.2.2.trans hi.symm⟩
  | readBucketPt01 =>
    exact ⟨hr h.1, h.2.1.trans hs.symm, h.2.2.1.trans hi.symm, h.2.2.2.trans hs.symm⟩
  | _ => exact h

/-- Outside of a bucket there is nothing to find. -/
theorem PlaceOk.of_not_inFlight (h : m.PlaceOk st) (hf : st.inFlight = false) : m'.PlaceOk st := by
  cases st <;> first | exact h | cases hf

theorem reserved?_taking (s i s' i' : ℕ) (st : TakeState) :
    (taking s i s' i' st).reserved? = st.reserved? := by
  match st with
  | .done none | .done (some _) | .failed | .load _ | .reserve .. | .scan .. | .mark .. => rfl

theorem setTables_self (m : PhysicalMemory) (s i : ℕ) (b : Bucket) :
    m.setTables s i s i b =
      { m with segment := update m.segment s ((m.segment s).setBucket i b) } := by
  simp [setTables, PhysicalSegment.setBucket]

/-- The current bucket is written. -/
def setCurrent (m : PhysicalMemory) (b : Bucket) : PhysicalMemory :=
  m.setTables (m.cpu 0).segmentIndex (m.cpu 0).pt01Index
    (m.cpu 0).segmentIndex (m.cpu 0).pt01Index b

theorem cpu_setCurrent (m : PhysicalMemory) (b : Bucket) : (m.setCurrent b).cpu = m.cpu := rfl

theorem current_setCurrent {b : Bucket}
    (h : ∀ e, PageTable1.maxEntries ≤ e → b.pt2 e = m.current.pt2 e) :
    (m.setCurrent b).current = b := by
  rw [setCurrent, setTables_self, current]
  simp only [Function.update_self]
  exact PhysicalSegment.bucket_setBucket_self h

theorem pt0_setCurrent {b : Bucket} (s : ℕ) :
    ((m.setCurrent b).segment s).pt0 = (m.segment s).pt0 := by
  rw [setCurrent, setTables_self]
  exact apply_update_eq (g := m.segment) (x := (m.cpu 0).segmentIndex)
    (v := (m.segment (m.cpu 0).segmentIndex).setBucket (m.cpu 0).pt01Index b) PhysicalSegment.pt0 rfl s

/-- Buckets that nobody has rented are as they were at the start. -/
def Fresh (m : PhysicalMemory) : Prop := ∀ s i, (m.segment s).pt0 i % 2 = 0 →
  (m.segment s).pt0 i = PageTable0.initialValue ∧ ((m.segment s).bucket i).Filled 0

theorem Fresh.setCurrent {b : Bucket} (h : m.Fresh) (hr : m.Rented) : (m.setCurrent b).Fresh := by
  intro s i hz
  rw [pt0_setCurrent] at hz ⊢
  obtain ⟨hp, hf⟩ := h s i hz
  refine ⟨hp, ?_⟩
  rw [PhysicalMemory.setCurrent, setTables_self]
  dsimp only
  rw [filled_update s i rfl, if_neg]
  · exact hf
  · rintro ⟨rfl, rfl⟩
    rw [Rented] at hr
    omega

end PhysicalMemory

namespace Allocators

open PhysicalMemory (setCurrent)

variable {N : ℕ} {a a' : Allocators} {t u e : ℕ} {m : PhysicalMemory} {st st' : AllocState}
  {descs : List BootMemoryDesc}

/-- The entry in which a thread has reserved its page. -/
def reservedIn (a : Allocators) (t : ℕ) : Option ℕ := (a.thread t).bind AllocState.reserved?

/-- A thread has decremented `free_pages_` and not yet the counter of an entry. -/
def Unreserved (a : Allocators) (t : ℕ) : Prop := a.InFlight t ∧ a.reservedIn t = none

/-- What the counters say, while CPU 0 has rented a bucket. -/
structure Books (N : ℕ) (a : Allocators) : Prop where
  even : ∀ e < PageTable1.maxEntries, a.memory.current.entries e % 2 = 0
  balanced : ∀ e < PageTable1.maxEntries, (a.memory.current.pt2 e).untaken =
    a.memory.current.entries e / 2 + count (Finset.range N) fun t ↦ a.reservedIn t = some e
  pending : (a.memory.cpu 0).freePages + count (Finset.range N) a.Unreserved =
    ∑ e ∈ Finset.range PageTable1.maxEntries, a.memory.current.entries e / 2

/-- What every step keeps, as long as nobody is disturbed while it rents. -/
structure Inv (N : ℕ) (a : Allocators) : Prop where
  outside : ∀ t, N ≤ t → a.thread t = none
  fresh : a.memory.Fresh
  place : ∀ t st, a.thread t = some st → a.memory.PlaceOk st
  idle : ¬ a.memory.Rented → (a.memory.cpu 0).freePages = 0
  books : a.memory.Rented → a.Books N

theorem inFlight_iff : a.InFlight t ↔ ∃ st, a.thread t = some st ∧ st.inFlight = true := by
  rw [InFlight, Option.any_eq_true]

theorem inFlight_of_reservedIn (hr : a.reservedIn t = some e) : a.InFlight t := by
  obtain ⟨st, hst, he⟩ := Option.bind_eq_some_iff.mp hr
  refine inFlight_iff.mpr ⟨st, hst, ?_⟩
  cases st <;> first | rfl | cases he

/-- The entry of a reservation is one of the table. -/
theorem Inv.lt_of_reservedIn (h : a.Inv N) (hr : a.reservedIn t = some e) :
    e < PageTable1.maxEntries := by
  obtain ⟨st, hst, he⟩ := Option.bind_eq_some_iff.mp hr
  have hplace := h.place t st hst
  cases st with
  | take s i s' i' st =>
    have hok := hplace.2.2.2.2.2.1
    cases st <;> cases he <;> exact hok.1
  | _ => cases he

/-- **The equation.** -/
theorem Inv.freePages_add_inFlight (h : a.Inv N) :
    (a.memory.cpu 0).freePages + count (Finset.range N) a.InFlight = a.memory.bucketPages := by
  by_cases hr : a.memory.Rented
  · have hb := h.books hr
    have hreserved : count (Finset.range N) (fun t ↦ a.InFlight t ∧ ¬ a.reservedIn t = none) =
        ∑ e ∈ Finset.range PageTable1.maxEntries,
          count (Finset.range N) fun t ↦ a.reservedIn t = some e := by
      rw [← count_values]
      refine count_congr fun t _ ↦ ?_
      constructor
      · rintro ⟨-, hne⟩
        obtain ⟨e, he⟩ := Option.ne_none_iff_exists'.mp hne
        exact ⟨e, Finset.mem_range.mpr (h.lt_of_reservedIn he), he⟩
      · rintro ⟨e, -, he⟩
        exact ⟨inFlight_of_reservedIn he, by simp [he]⟩
    have hsum : a.memory.bucketPages = ∑ e ∈ Finset.range PageTable1.maxEntries,
        (a.memory.current.entries e / 2 +
          count (Finset.range N) fun t ↦ a.reservedIn t = some e) := by
      rw [PhysicalMemory.bucketPages, if_pos hr]
      exact Finset.sum_congr rfl fun e he ↦ hb.balanced e (Finset.mem_range.mp he)
    rw [count_split fun t ↦ a.reservedIn t = none, hreserved, hsum, Finset.sum_add_distrib,
      ← hb.pending]
    exact (Nat.add_assoc _ _ _).symm
  · have hnone : ∀ t ∈ Finset.range N, ¬ a.InFlight t := fun t _ hf ↦ by
      obtain ⟨st, hst, hf⟩ := inFlight_iff.mp hf
      exact hr ((h.place t st hst).rented hf)
    rw [h.idle hr, count_eq_zero hnone, PhysicalMemory.bucketPages,
      if_neg hr]

/-! ## What a step changes -/

theorem inFlight_update : InFlight ⟨m, update a.thread t (some st)⟩ u ↔
    if u = t then st.inFlight = true else a.InFlight u := by
  by_cases hu : u = t
  · subst hu
    simp [InFlight]
  · simp [InFlight, hu]

theorem reservedIn_update : reservedIn ⟨m, update a.thread t (some st)⟩ u =
    if u = t then st.reserved? else a.reservedIn u := by
  by_cases hu : u = t
  · subst hu
    simp [reservedIn]
  · simp [reservedIn, hu]

variable (st) in
/-- The reservations in an entry. -/
theorem count_reservedIn (ht : t < N) :
    count (Finset.range N) (fun u ↦ reservedIn ⟨m, update a.thread t (some st)⟩ u = some e) +
        tally (a.reservedIn t = some e) =
      count (Finset.range N) (fun u ↦ a.reservedIn u = some e) + tally (st.reserved? = some e) := by
  have := count_change (P := fun u ↦ reservedIn ⟨m, update a.thread t (some st)⟩ u = some e)
    (Q := fun u ↦ a.reservedIn u = some e) (Finset.mem_range.mpr ht)
    fun u _ hu ↦ by rw [reservedIn_update, if_neg hu]
  simpa only [reservedIn_update, if_true] using this

variable (st) in
/-- The threads that have not yet decremented the counter of an entry. -/
theorem count_unreserved (ht : t < N) :
    count (Finset.range N) (Unreserved ⟨m, update a.thread t (some st)⟩) + tally (a.Unreserved t) =
      count (Finset.range N) a.Unreserved + tally (st.inFlight = true ∧ st.reserved? = none) := by
  have := count_change (P := Unreserved ⟨m, update a.thread t (some st)⟩) (Q := a.Unreserved)
    (Finset.mem_range.mpr ht) fun u _ hu ↦ by
      simp only [Unreserved, inFlight_update, reservedIn_update, if_neg hu]
  simpa only [Unreserved, inFlight_update, reservedIn_update, if_true] using this

theorem Inv.lt (h : a.Inv N) (hst : a.thread t = some st) : t < N := by
  by_contra hle
  rw [h.outside t (by omega)] at hst
  cases hst

theorem outside_update (h : ∀ t, N ≤ t → a.thread t = none) (ht : t < N) (u : ℕ) (hu : N ≤ u) :
    update a.thread t (some st) u = none := by
  rw [Function.update_of_ne (by omega), h u hu]

/-- A thread goes on and the memory stays. -/
theorem Inv.goesOn (h : a.Inv N) (ht : t < N) (hplace : a.memory.PlaceOk st)
    (hf : st.inFlight = true ↔ a.InFlight t) (hr : st.reserved? = a.reservedIn t) :
    Inv N ⟨a.memory, update a.thread t (some st)⟩ := by
  refine ⟨outside_update h.outside ht, h.fresh, fun u st' hst' ↦ ?_, h.idle, fun hrent ↦ ?_⟩
  · by_cases hu : u = t
    · subst hu
      simp only [Function.update_self, Option.some.injEq] at hst'
      exact hst' ▸ hplace
    · exact h.place u st' (by simpa [hu] using hst')
  · have hb := h.books hrent
    refine ⟨hb.even, fun e he ↦ ?_, ?_⟩
    · have := count_reservedIn (m := a.memory) (a := a) (e := e) st ht
      rw [hr] at this
      rw [Nat.add_right_cancel this]
      exact hb.balanced e he
    · have := count_unreserved (m := a.memory) (a := a) st ht
      rw [tally_congr (P := st.inFlight = true ∧ st.reserved? = none) (Q := a.Unreserved t) (by
        rw [hf, hr, Unreserved])] at this
      rw [Nat.add_right_cancel this]
      exact hb.pending

/-- The `compare_exchange` on `free_pages_` succeeds. -/
theorem Inv.reserve (h : a.Inv N) (ht : t < N) (hpos : 0 < (a.memory.cpu 0).freePages)
    (hf : ¬ a.InFlight t) : Inv N ⟨a.memory.reserve 0, update a.thread t (some .readSegment)⟩ := by
  have hrent : a.memory.Rented := by
    by_contra hr
    have := h.idle hr
    omega
  have hcur : (a.memory.reserve 0).current = a.memory.current := by
    simp [PhysicalMemory.current, PhysicalMemory.reserve]
  have hrent' : (a.memory.reserve 0).Rented := by
    simpa [PhysicalMemory.Rented, PhysicalMemory.reserve] using hrent
  refine ⟨outside_update h.outside ht, h.fresh, fun u st' hst' ↦ ?_, fun hr ↦ absurd hrent' hr,
    fun _ ↦ ?_⟩
  · by_cases hu : u = t
    · subst hu
      simp only [Function.update_self, Option.some.injEq] at hst'
      exact hst' ▸ hrent'
    · refine (h.place u st' (by simpa [hu] using hst')).mono (fun _ ↦ hrent') ?_ ?_ ?_ ?_
      · simp [PhysicalMemory.reserve]
      · simp [PhysicalMemory.reserve]
      · rw [hcur]
        exact fun _ _ ↦ id
      · rw [hcur]
        exact fun _ ↦ id
  · have hb := h.books hrent
    have hnone : a.reservedIn t = none := by
      by_contra hne
      obtain ⟨e, he⟩ := Option.ne_none_iff_exists'.mp hne
      exact hf (inFlight_of_reservedIn he)
    refine ⟨hcur ▸ hb.even, fun e he ↦ ?_, ?_⟩
    · have := count_reservedIn (m := a.memory.reserve 0) (a := a) (e := e) .readSegment ht
      rw [hnone] at this
      rw [Nat.add_right_cancel this, hcur]
      exact hb.balanced e he
    · have := count_unreserved (m := a.memory.reserve 0) (a := a) .readSegment ht
      rw [tally_of_not fun hu ↦ hf hu.1, tally_of ⟨rfl, rfl⟩] at this
      have hfree : ((a.memory.reserve 0).cpu 0).freePages = (a.memory.cpu 0).freePages - 1 := by
        simp [PhysicalMemory.reserve]
      have := hb.pending
      dsimp only
      rw [hcur, hfree]
      omega

/-- A thread in `take` finds a page. -/
theorem Inv.not_done_none (h : a.Inv N) (ht : t < N) {s i s' i' : ℕ} {st : TakeState} {b : Bucket}
    (hst : a.thread t = some (.take s i s' i' st)) :
    a.memory.current.step st ≠ some (b, .done none) := by
  intro hs
  obtain ⟨e, rfl, he, hv⟩ := Bucket.step_done_none hs
  obtain ⟨hrent, -, -, -, -, hok, hbefore, -⟩ := h.place t _ hst
  have hb := h.books hrent
  have hzero : ∀ e' < PageTable1.maxEntries, a.memory.current.entries e' = 0 := fun e' he' ↦ by
    rcases Nat.lt_or_ge e' e with hlt | hge
    · exact hbefore e' hlt
    · have : e' = e := by
        have : e < PageTable1.maxEntries := hok
        omega
      have := hb.even e hok
      rw [‹e' = e›]
      omega
  have hsum : ∑ e ∈ Finset.range PageTable1.maxEntries, a.memory.current.entries e / 2 = 0 :=
    Finset.sum_eq_zero fun e' he' ↦ by simp [hzero e' (Finset.mem_range.mp he')]
  have hun : a.Unreserved t := ⟨inFlight_iff.mpr ⟨_, hst, rfl⟩, by simp [reservedIn, hst,
    AllocState.reserved?, TakeState.reserved?]⟩
  have := count_pos (P := a.Unreserved) (Finset.mem_range.mpr ht) hun
  have := hb.pending
  omega

/-- **An atomic operation of `take`.** -/
theorem Inv.take (h : a.Inv N) (ht : t < N) {s i s' i' : ℕ} {st st₁ : TakeState} {b : Bucket}
    (hst : a.thread t = some (.take s i s' i' st)) (hs : a.memory.current.step st = some (b, st₁)) :
    Inv N ⟨a.memory.setCurrent b, update a.thread t (some (PhysicalMemory.taking s i s' i' st₁))⟩ := by
  obtain ⟨hrent, hs₁, hi₁, hs₂, hi₂, hok, hbefore, hd⟩ := h.place t _ hst
  have hb := h.books hrent
  have hres : ∀ {e}, a.reservedIn t = some e ↔ st.reserved? = some e := by
    simp [reservedIn, hst, AllocState.reserved?]
  have hpos : ∀ e, st.reserved? = some e → 0 < (a.memory.current.pt2 e).untaken := fun e he ↦ by
    have := count_pos (P := fun t ↦ a.reservedIn t = some e) (Finset.mem_range.mpr ht) (hres.mpr he)
    rw [hb.balanced e (h.lt_of_reservedIn (hres.mpr he))]
    omega
  have heffect := hok.stepEffect hpos hs
  have hok' :=
    hok.step (fun e j hj ↦ by simp [Bucket.init, PageTable2.init, PageTable2.taken] at hj) hpos hs
  have hcur : (a.memory.setCurrent b).current = b :=
    PhysicalMemory.current_setCurrent fun e he ↦ hok.outside hs he
  have hrent' : (a.memory.setCurrent b).Rented := by
    rw [PhysicalMemory.Rented, PhysicalMemory.pt0_setCurrent]
    exact hrent
  have hplace : (a.memory.setCurrent b).PlaceOk (PhysicalMemory.taking s i s' i' st₁) := by
    have hbefore' := hbefore.step hb.even hok hs
    rw [← hcur] at hok' hbefore'
    cases st₁ with
    | done o =>
      cases o with
      | none => exact absurd hs (h.not_done_none ht hst)
      | some x => trivial
    | failed => exact hok'
    | load | reserve | scan | mark =>
      exact ⟨hrent', hs₁, hi₁, hs₂, hi₂, hok', hbefore', by simp⟩
  have hreserved := PhysicalMemory.reserved?_taking s i s' i' st₁
  refine ⟨outside_update h.outside ht, h.fresh.setCurrent hrent, fun u st' hst' ↦ ?_,
    fun hr ↦ absurd hrent' hr, fun _ ↦ ⟨?_, fun e he ↦ ?_, ?_⟩⟩
  · by_cases hu : u = t
    · subst hu
      simp only [Function.update_self, Option.some.injEq] at hst'
      exact hst' ▸ hplace
    · refine (h.place u st' (by simpa [hu] using hst')).mono (fun _ ↦ hrent') rfl rfl ?_ ?_
      · rw [hcur]
        exact heffect.grows hok
      · rw [hcur]
        exact fun e ↦ heffect.entries_zero
  · rw [hcur]
    exact fun e he ↦ heffect.even (hb.even e he)
  · have := count_reservedIn (m := a.memory.setCurrent b) (a := a) (e := e)
      (PhysicalMemory.taking s i s' i' st₁) ht
    rw [hreserved, tally_congr hres] at this
    have := heffect.balance (e := e) hok
    have := hb.balanced e he
    rw [hcur]
    omega
  · have := count_unreserved (m := a.memory.setCurrent b) (a := a)
      (PhysicalMemory.taking s i s' i' st₁) ht
    have hpending := hb.pending
    have hold : a.Unreserved t ↔ st.reserved? = none := by
      simp [Unreserved, inFlight_iff, hst, AllocState.inFlight, reservedIn, AllocState.reserved?]
    rw [tally_congr hold, hreserved] at this
    rw [hcur]
    dsimp only
    rw [PhysicalMemory.cpu_setCurrent]
    cases heffect with
    | goesOn he _ hr hx =>
      have hf : (PhysicalMemory.taking s i s' i' st₁).inFlight = true := by
        cases st₁ with
        | done o =>
          cases o with
          | none => exact absurd hs (h.not_done_none ht hst)
          | some x => exact absurd rfl (hx x)
        | failed => exact absurd hok' id
        | load | reserve | scan | mark => rfl
      rw [hr, hf, tally_congr (and_iff_right rfl)] at this
      rw [he]
      exact (Nat.add_right_cancel this) ▸ hpending
    | @reserves e value hv =>
      rw [tally_of (P := TakeState.reserved? (.reserve e value) = none) rfl,
        tally_of_not fun hn ↦ absurd hn.2 (by simp [TakeState.reserved?])] at this
      have hsum := sum_change (f := fun e' ↦ update a.memory.current.entries e (value - 2) e' / 2)
        (g := fun e' ↦ a.memory.current.entries e' / 2) (Finset.mem_range.mpr hok.1)
        fun e' _ hne ↦ by rw [Function.update_of_ne hne]
      simp only [Function.update_self, hv] at hsum
      have := hok.2
      have : 2 ≤ value := by omega
      have : (value - 2) / 2 + 1 = value / 2 := by omega
      dsimp only
      omega
    | takes =>
      rw [tally_of_not (by simp [TakeState.reserved?]),
        tally_of_not (by simp [PhysicalMemory.taking, AllocState.inFlight])] at this
      exact (Nat.add_right_cancel this) ▸ hpending

/-! ## Renting -/

/-- A thread that is not in flight does not count. -/
theorem none_inFlight (h : ∀ u < N, ¬ a.InFlight u) :
    ∀ u < N, ¬ InFlight ⟨m, update a.thread t (some .load)⟩ u := by
  intro u hu hf
  rw [inFlight_update] at hf
  split at hf
  · cases hf
  · exact h u hu hf

/-- A new bucket. -/
theorem Inv.rent (h : a.Inv N) (ht : t < N)
    (hm : a.memory.rentNewPt0 0 = some m) (hnone : ∀ u < N, ¬ a.InFlight u) :
    Inv N ⟨m, update a.thread t (some .load)⟩ := by
  have hnone' := none_inFlight (m := m) (t := t) hnone
  obtain ⟨s, i, hs, hi, hp, -, -, rfl⟩ := PhysicalMemory.rentNewPt0_eq_some hm
  obtain ⟨hinit, hfilled⟩ := h.fresh s i hp
  have hval : (a.memory.segment s).pt0 i / 2 = PageTable0.maxPages := by rw [hinit]; rfl
  have hbucket : ∀ s' i', (update a.memory.segment s { a.memory.segment s with
      pt0 := update (a.memory.segment s).pt0 i 1 } s').bucket i' =
        (a.memory.segment s').bucket i' :=
    fun s' i' ↦ apply_update_eq (g := a.memory.segment) (x := s) (v := { a.memory.segment s with
      pt0 := update (a.memory.segment s).pt0 i 1 })
        (fun seg : PhysicalSegment ↦ seg.bucket i') rfl s'
  refine ⟨outside_update h.outside ht, fun s' i' hz ↦ ?_, fun u st' hst' ↦ ?_, fun hr ↦ ?_,
    fun _ ↦ ?_⟩
  · dsimp only at hz ⊢
    rw [hbucket]
    by_cases hss : s' = s
    · subst hss
      by_cases hii : i' = i
      · subst hii
        simp at hz
      · simp only [Function.update_self, Function.update_of_ne hii] at hz ⊢
        exact h.fresh s' i' hz
    · simp only [Function.update_of_ne hss] at hz ⊢
      exact h.fresh s' i' hz
  · by_cases hu : u = t
    · subst hu
      simp only [Function.update_self, Option.some.injEq] at hst'
      exact hst' ▸ trivial
    · have hst₀ : a.thread u = some st' := by simpa [hu] using hst'
      refine (h.place u st' hst₀).of_not_inFlight ?_
      by_contra hf
      exact hnone u (h.lt hst₀) (inFlight_iff.mpr ⟨st', hst₀, by simpa using hf⟩)
  · exact absurd (by simp [PhysicalMemory.Rented]) hr
  · have hcur : PhysicalMemory.current { a.memory with
        segment := update a.memory.segment s { a.memory.segment s with
          pt0 := update (a.memory.segment s).pt0 i 1 }
        cpu := update a.memory.cpu 0 ⟨s, i, (a.memory.segment s).pt0 i / 2⟩ } =
        (a.memory.segment s).bucket i := by
      simp only [PhysicalMemory.current, Function.update_self]
      rfl
    have hentry : ∀ e < PageTable1.maxEntries, ((a.memory.segment s).bucket i).entries e =
        PageTable1.initialValue := fun e he ↦ by
      rw [(hfilled e he).1, Nat.zero_sub, Nat.sub_zero, PageTable1.initialValue, Nat.mul_comm]
    refine ⟨fun e he ↦ ?_, fun e he ↦ ?_, ?_⟩
    · rw [hcur, hentry e he]
      rfl
    · rw [hcur, hentry e he, (hfilled.untaken he), count_eq_zero]
      · rfl
      · exact fun u hu hr ↦ hnone' u (Finset.mem_range.mp hu) (inFlight_of_reservedIn hr)
    · rw [count_eq_zero fun u hu hr ↦ hnone' u (Finset.mem_range.mp hu) hr.1, hcur,
        Finset.sum_congr rfl fun e he ↦ by rw [hentry e (Finset.mem_range.mp he)]]
      simp [hval, PageTable0.maxPages, PageTable1.initialValue, Nat.mul_comm]

/-! ## Every run -/

theorem inv_init : Inv N (machine descs N).init := by
  have hok : (PhysicalMemory.initializePhase0 descs).Ok fun _ _ ↦ 0 :=
    PhysicalMemory.ok_initializePhase0
  have heven : ∀ s i, ((PhysicalMemory.initializePhase0 descs).segment s).pt0 i % 2 = 0 :=
    fun s i ↦ by
    have hinit : PageTable0.initialValue % 2 = 0 := by decide
    simp only [PhysicalMemory.initializePhase0]
    split <;> exact hinit
  refine ⟨fun _ _ ↦ rfl, fun s i hz ↦ ⟨(hok.free s i hz).1, hok.filled s i⟩, fun t st hst ↦ ?_,
    fun _ ↦ rfl, fun hr ↦ ?_⟩
  · cases hst
  · have := heven 0 0
    rw [PhysicalMemory.Rented] at hr
    exact absurd (hr.symm.trans this) (by decide)

/-- **A step keeps the bookkeeping**, if it rents no bucket while a thread is in flight. -/
theorem Inv.step (h : a.Inv N) (ht : a.thread t = some st) (hc : a.RentsUndisturbed N (.step t))
    (hs : a.memory.step st = some (m, st')) : Inv N ⟨m, update a.thread t (some st')⟩ := by
  have hlt := h.lt ht
  have hplace := h.place t st ht
  have hres : a.reservedIn t = st.reserved? := by simp [reservedIn, ht]
  have hflight : a.InFlight t ↔ st.inFlight = true := by simp [inFlight_iff, ht]
  cases st with
  | load =>
    cases hs
    refine h.goesOn hlt ?_ ?_ ?_
    · split
      · assumption
      · trivial
    · rw [hflight]
      split <;> simp [AllocState.inFlight]
    · rw [hres]
      split <;> rfl
  | reserve freePages =>
    simp only [PhysicalMemory.step] at hs
    split at hs
    · rename_i hf
      cases hs
      refine h.reserve hlt (hf ▸ hplace) ?_
      rw [hflight]
      simp [AllocState.inFlight]
    · cases hs
      exact h.goesOn hlt trivial hflight.symm hres.symm
  | readSegment =>
    cases hs
    exact h.goesOn hlt ⟨hplace, rfl⟩ hflight.symm hres.symm
  | readPt01 s =>
    cases hs
    exact h.goesOn hlt ⟨hplace.1, hplace.2, rfl⟩ hflight.symm hres.symm
  | readBucketSegment s i =>
    cases hs
    exact h.goesOn hlt ⟨hplace.1, hplace.2.1, hplace.2.2, rfl⟩ hflight.symm hres.symm
  | readBucketPt01 s i s' =>
    cases hs
    refine h.goesOn hlt ⟨hplace.1, hplace.2.1, hplace.2.2.1, hplace.2.2.2, rfl, ?_, ?_, ?_⟩
      hflight.symm hres.symm
    · exact Nat.zero_lt_succ _
    · exact fun e' he' ↦ absurd he' (Nat.not_lt_zero _)
    · simp
  | take s i s' i' st =>
    obtain ⟨⟨b, st₁⟩, hb, hs⟩ := Option.bind_eq_some_iff.mp hs
    obtain ⟨-, rfl, rfl, rfl, rfl, -⟩ := hplace
    cases hs
    exact h.take hlt ht hb
  | readBase pfn =>
    cases hs
    exact h.goesOn hlt trivial hflight.symm hres.symm
  | rent =>
    simp only [PhysicalMemory.step] at hs
    split at hs
    · rename_i hzero
      split at hs
      · rename_i m' hm
        cases hs
        obtain ⟨s, i, hseg, hi, hp, -⟩ := PhysicalMemory.rentNewPt0_eq_some hm
        simp only [RentsUndisturbed, ht] at hc
        exact h.rent hlt hm (hc hzero ⟨s, hseg, i, hi, hp⟩)
      · cases hs
        exact h.goesOn hlt trivial hflight.symm hres.symm
    · cases hs
      exact h.goesOn hlt trivial hflight.symm hres.symm
  | done => cases hs
  | failed => cases hs

theorem inv_of_reachable (h : (machine descs N).ReachableWhile (RentsUndisturbed N) a) :
    a.Inv N := by
  refine h.invariant inv_init ?_
  rintro a e a' - hI hc hn
  cases e with
  | call t =>
    simp only [machine, next] at hn
    have hcall : ∀ {st}, (a.thread t = none ∨ ∃ r, a.thread t = some (.done r)) → t < N →
        st = AllocState.load → Inv N ⟨a.memory, update a.thread t (some st)⟩ := fun ht hlt hst ↦ by
      subst hst
      refine hI.goesOn hlt trivial ?_ ?_ <;>
        rcases ht with ht | ⟨r, ht⟩ <;>
          simp [inFlight_iff, reservedIn, ht, AllocState.inFlight, AllocState.reserved?]
    split at hn
    · split at hn
      · cases hn
        exact hcall (Or.inl ‹_›) ‹_› rfl
      · cases hn
    · split at hn
      · cases hn
        exact hcall (Or.inr ⟨_, ‹_›⟩) ‹_› rfl
      · cases hn
    · cases hn
  | step t =>
    obtain ⟨st, ht, hn⟩ := Option.bind_eq_some_iff.mp hn
    obtain ⟨⟨m, st'⟩, hs, hn⟩ := Option.bind_eq_some_iff.mp hn
    cases hn
    exact hI.step ht hc hs

/-- **`allocate_page` is safe under preemption**, as long as no bucket is rented while a thread is
in flight: `free_pages_` and the threads in flight say how many pages the bucket has, and no thread
fails to take its page. -/
theorem pages_accounted (h : (machine descs N).ReachableWhile (RentsUndisturbed N) a) :
    (a.memory.cpu 0).freePages + count (Finset.range N) a.InFlight = a.memory.bucketPages ∧
      ∀ t, a.thread t ≠ some .failed :=
  ⟨(inv_of_reachable h).freePages_add_inFlight, fun t ht ↦ (inv_of_reachable h).place t _ ht⟩

open PhysicalMemory (twoBuckets)

/-- Two threads take pages of the first bucket, and one of them is preempted. -/
def twoThreads : List AllocAction :=
  [.call 0, .step 0, .step 0, .call 1, .step 0, .step 1, .step 0, .step 1, .step 1, .step 0]

theorem pages_accounted_two_threads :
    (((machine [twoBuckets] 2).afterWhile (RentsUndisturbed 2) twoThreads).memory.cpu 0).freePages +
        count (Finset.range 2)
          ((machine [twoBuckets] 2).afterWhile (RentsUndisturbed 2) twoThreads).InFlight =
      ((machine [twoBuckets] 2).afterWhile (RentsUndisturbed 2) twoThreads).memory.bucketPages ∧
    (((machine [twoBuckets] 2).afterWhile (RentsUndisturbed 2) twoThreads).memory.cpu 0).freePages =
      16383 :=
  ⟨(pages_accounted (Machine.reachableWhile_afterWhile twoThreads)).1, by decide +kernel⟩

/-! ## A bucket is rented while threads are in flight -/

/-- The memory after the first bucket was rented, with what the CPU knows. -/
def firstRented (cpu : CpuId → CpuPhysicalAllocator) : PhysicalMemory :=
  { ((PhysicalMemory.initializePhase0 [twoBuckets]).rentNewPt0 0).getD (.initializePhase0 []) with
    cpu := cpu }

/-- The second bucket is still there. -/
theorem rentNewPt0_firstRented (cpu : CpuId → CpuPhysicalAllocator) :
    ∃ m, (firstRented cpu).rentNewPt0 0 = some m ∧ (m.cpu 0).freePages = 16384 := by
  have hcount : (firstRented cpu).segmentsCount = 1 :=
    (by decide +kernel : (firstRented fun _ ↦ ⟨0, 0, 0⟩).segmentsCount = 1)
  have hseg : ((firstRented cpu).segment 0).rent.map Prod.fst = some (1, 16384) :=
    (by decide +kernel :
      ((firstRented fun _ ↦ ⟨0, 0, 0⟩).segment 0).rent.map Prod.fst = some (1, 16384))
  obtain ⟨⟨x, seg⟩, hr, rfl⟩ := Option.map_eq_some_iff.mp hseg
  simp [PhysicalMemory.rentNewPt0, hcount, hr]

/-- The threads below `k` are in flight in the first bucket, and thread 16384 goes on. -/
structure Preempted (k : ℕ) (a : Allocators) : Prop where
  reachable : (machine [twoBuckets] 16385).Reachable a
  memory : ∃ cpu, a.memory = firstRented cpu ∧ cpu 0 = ⟨0, 0, 16384 - k⟩
  inFlight : ∀ u < k, a.thread u = some .readSegment
  idle : ∀ u, k ≤ u → u < 16384 → a.thread u = none
  last : a.thread 16384 = some .load

theorem preempted_zero : ∃ a, Preempted 0 a := by
  obtain ⟨m, hm, hcpu⟩ : ∃ m, (PhysicalMemory.initializePhase0 [twoBuckets]).rentNewPt0 0 = some m ∧
      m.cpu 0 = ⟨0, 0, 16384⟩ :=
    Option.map_eq_some_iff.mp (by decide +kernel :
      ((PhysicalMemory.initializePhase0 [twoBuckets]).rentNewPt0 0).map (fun m ↦ m.cpu 0) =
        some ⟨0, 0, 16384⟩)
  have hzero : ((PhysicalMemory.initializePhase0 [twoBuckets]).cpu 0).freePages = 0 := rfl
  have h₁ := Machine.Reachable.init (M := machine [twoBuckets] 16385) |>.step (e := .call 16384)
    (t := ⟨.initializePhase0 [twoBuckets], update (fun _ ↦ none) 16384 (some .load)⟩) (by
      simp [machine, next])
  have h₂ := h₁.step (e := .step 16384)
    (t := ⟨.initializePhase0 [twoBuckets], update (fun _ ↦ none) 16384 (some .rent)⟩) (by
      simp [machine, next, PhysicalMemory.step, hzero])
  have h₃ := h₂.step (e := .step 16384) (t := ⟨m, update (fun _ ↦ none) 16384 (some .load)⟩) (by
      simp [machine, next, PhysicalMemory.step, hzero, hm])
  refine ⟨_, h₃, ⟨m.cpu, ?_, hcpu⟩, fun u hu ↦ absurd hu (Nat.not_lt_zero u), fun u _ hu ↦ ?_, ?_⟩
  · rw [firstRented, hm]
    rfl
  · have hne : u ≠ 16384 := by omega
    simp [hne]
  · simp

theorem Preempted.succ {k : ℕ} (h : Preempted k a) (hk : k < 16384) : ∃ a, Preempted (k + 1) a := by
  obtain ⟨cpu, hm, hcpu⟩ := h.memory
  have hpos : 0 < 16384 - k := by omega
  have h₁ :=
    h.reachable.step (e := .call k) (t := { a with thread := update a.thread k (some .load) })
    (by simp [machine, next, h.idle k le_rfl hk]; omega)
  have h₂ := h₁.step (e := .step k) (t := { a with
      thread := update a.thread k (some (.reserve (16384 - k))) })
    (by simp [machine, next, PhysicalMemory.step, hm, firstRented, hcpu, hpos])
  have h₃ := h₂.step (e := .step k) (t := {
      memory := a.memory.reserve 0
      thread := update a.thread k (some .readSegment) })
    (by simp [machine, next, PhysicalMemory.step, hm, firstRented, hcpu])
  refine ⟨_, h₃, ⟨_, by rw [hm]; rfl, ?_⟩, fun u hu ↦ ?_, fun u hku hu ↦ ?_, ?_⟩
  · simp [firstRented, hcpu]
    omega
  · by_cases huk : u = k
    · simp [huk]
    · simp only [Function.update_of_ne huk]
      exact h.inFlight u (by omega)
  · simp only [Function.update_of_ne (show u ≠ k by omega)]
    exact h.idle u (by omega) hu
  · simp only [Function.update_of_ne (show 16384 ≠ k by omega)]
    exact h.last

theorem exists_preempted {k : ℕ} (hk : k ≤ 16384) : ∃ a, Preempted k a := by
  induction k with
  | zero => exact preempted_zero
  | succ k ih =>
    obtain ⟨a, ha⟩ := ih (by omega)
    exact ha.succ (by omega)

/-- The second bucket is rented while 16384 threads have reserved a page of the first one. -/
theorem reservation_outlives_bucket : ∃ a, (machine [twoBuckets] 16385).Reachable a ∧
    (a.memory.cpu 0).freePages + count (Finset.range 16385) a.InFlight ≠ a.memory.bucketPages := by
  obtain ⟨a, ha⟩ := exists_preempted le_rfl
  obtain ⟨cpu, hm, hcpu⟩ := ha.memory
  have hzero : (a.memory.cpu 0).freePages = 0 := by simp [hm, firstRented, hcpu]
  obtain ⟨m, hrent, hcpu'⟩ : ∃ m, a.memory.rentNewPt0 0 = some m ∧ (m.cpu 0).freePages = 16384 := by
    rw [hm]
    exact rentNewPt0_firstRented cpu
  have h₁ := ha.reachable.step (e := .step 16384) (t := { a with
      thread := update a.thread 16384 (some .rent) })
    (by simp [machine, next, PhysicalMemory.step, ha.last, hzero])
  have h₂ := h₁.step (e := .step 16384) (t := ⟨m, update a.thread 16384 (some .load)⟩)
    (by simp [machine, next, PhysicalMemory.step, hzero, hrent])
  refine ⟨_, h₂, ?_⟩
  have hpos :
      0 < count (Finset.range 16385) (InFlight ⟨m, update a.thread 16384 (some .load)⟩) := by
    refine count_pos (t := 0) (Finset.mem_range.mpr (by omega)) ?_
    rw [inFlight_update, if_neg (by omega), inFlight_iff]
    exact ⟨_, ha.inFlight 0 (by omega), rfl⟩
  have hle : m.bucketPages ≤ 16384 := by
    rw [PhysicalMemory.bucketPages]
    split
    · refine (Finset.sum_le_sum fun e _ ↦ ?_).trans (Finset.sum_const PageTable2.maxPages).le
      exact (Finset.card_filter_le _ _).trans (by simp)
    · omega
  dsimp only
  omega

end Allocators

end Chino
