import Chino.Mm.Physical

/-!
# Renting level-0 entries

The CPUs rent the level-0 entries of a segment from each other without a lock.  An entry is one
16-bit word, the number of its free pages shifted to the left, above a bit that says whether it is
rented.  `rent` loads the word and replaces all of it by compare-exchange; `return_` adds the number
back, less the bit.

Here every access to a word is a step, and the calls of any number of CPUs are interleaved.  A CPU
returns an entry that it has rented, with at most the pages it was granted.  `rents` are the rents
in effect, `latest` is the number of pages that the latest `return_` of an entry gave back, and
`failures` has for each call that failed the rents it ran into.

`rent_exclusive` says what comes of it.

## The invariant

For each entry, `Inv` compares the word with the rents in effect and with the calls that are about
to write it:

* the word is odd just if there is a rent, and then there is one rent;
* a call that has loaded an even word and finds the same one at its exchange gets what the word says
  then, which need not be what it said in between (a rent and a return may have come and gone);
* a call that is about to return an entry has a rent of it, and adds the number of pages it gives
  back less the bit, so the word is even again and counts those pages.

`rents` has the rents with the pages that were granted, and `latest` what the latest return has
given back.  A failing `rent` goes over all entries and finds each of them rented at the moment at
which it looks, not all of them at the same time; `failures` records what it has found.
-/

set_option autoImplicit false

namespace Chino

open Function (update)

namespace PageTable0

/-- The rent bit. -/
def isRented (value : UInt16) : Bool := value &&& 1 ≠ 0

/-- What `return_` adds: an `int`, before it is converted. -/
def addValue (freePages : UInt16) : ℤ := ((freePages.toNat <<< 1 : ℕ) : ℤ) - 1

/-- The word of an entry with so many free pages that nobody has rented. -/
def Counts (value : UInt16) (freePages : UInt16) : Prop := value.toNat = 2 * freePages.toNat

variable {value freePages : UInt16}

theorem not_isRented_iff : isRented value = false ↔ value.toNat % 2 = 0 := by
  simp [isRented, ← UInt16.toNat_inj, Nat.and_one_is_mod]

theorem isRented_one : isRented 1 = true := rfl

theorem Counts.not_isRented (h : Counts value freePages) : isRented value = false := by
  rw [not_isRented_iff, h]
  exact Nat.mul_mod_right 2 _

/-- `rent` reads the count off a word. -/
theorem Counts.shift (h : Counts value freePages) : value >>> 1 = freePages := by
  rw [← UInt16.toNat_inj, UInt16.toNat_shiftRight, h]
  simp [Nat.shiftRight_eq_div_pow]

/-- `return_` writes a count to a rented word, without a carry into the bit or out of the word. -/
theorem counts_return (h : freePages.toNat ≤ maxPages) :
    Counts (1 + UInt16.ofInt (addValue freePages)) freePages := by
  have hsum : 1 + addValue freePages = ((freePages.toNat * 2 : ℕ) : ℤ) := by
    simp [addValue, Nat.shiftLeft_eq]
  have hmax : maxPages = 16384 := rfl
  rw [Counts, ← UInt16.ofInt_one, ← UInt16.ofInt_add, hsum, UInt16.ofInt]
  simp
  omega

theorem counts_initial : Counts (UInt16.ofNat initialValue) (UInt16.ofNat maxPages) := by
  unfold Counts
  decide

end PageTable0

/-! ## The machine -/

/-- A rent in effect: who has which entry, and how many pages it was granted. -/
structure Rent where
  cpu : CpuId
  pt01Index : ℕ
  freePages : UInt16
deriving DecidableEq

/-- Where a CPU is in `physical_segment::rent`, and the rents that it has run into. -/
inductive RentCall where
  /-- About to load the word of the entry, if there is one. -/
  | loading (i : ℕ) (seen : List Rent)
  /-- About to compare and exchange it. -/
  | swapping (i : ℕ) (value : UInt16) (seen : List Rent)
deriving DecidableEq

/-- The level-0 entries, the calls of the CPUs, and what they were granted. -/
structure Rents where
  pt0 : ℕ → UInt16
  call : CpuId → Option RentCall
  rents : List Rent
  latest : ℕ → UInt16
  failures : List (List Rent)

/-- A CPU rents an entry, goes on, or gives one back. -/
inductive RentEvent where
  /-- A CPU calls `rent`. -/
  | rent (c : CpuId)
  /-- The next step of its call. -/
  | step (c : CpuId)
  /-- The CPU that has the rent calls `return_`. -/
  | return_ (r : Rent) (freePages : UInt16)
deriving DecidableEq

namespace Rents

open PageTable0 (isRented addValue initialValue maxPages)

/-- Nothing is rented. -/
def init : Rents where
  pt0 _ := UInt16.ofNat initialValue
  call _ := none
  rents := []
  latest _ := UInt16.ofNat maxPages
  failures := []

variable (segment : PhysicalSegment)

/-- The next step of a call. -/
def advance (s : Rents) (c : CpuId) : RentCall → Rents
  | .loading i seen =>
    if i < segment.pt01Count then
      if isRented (s.pt0 i) then
        { s with
          call := update s.call c (some (.loading (i + 1)
            (seen ++ (s.rents.find? fun r ↦ r.pt01Index = i).toList))) }
      else { s with call := update s.call c (some (.swapping i (s.pt0 i) seen)) }
    else { s with
      call := update s.call c none
      failures := s.failures ++ [seen] }
  | .swapping i value seen =>
    if s.pt0 i = value then { s with
      pt0 := update s.pt0 i 1
      call := update s.call c none
      rents := ⟨c, i, value >>> 1⟩ :: s.rents }
    else { s with call := update s.call c (some (.loading i seen)) }

/-- The next state, or none where the event does not apply. -/
def next (s : Rents) : RentEvent → Option Rents
  | .rent c => if s.call c = none then
      some { s with call := update s.call c (some (.loading 0 [])) } else none
  | .step c => (s.call c).map fun call ↦ s.advance segment c call
  | .return_ r freePages =>
    if r ∈ s.rents ∧ s.call r.cpu = none ∧ freePages ≤ r.freePages then some { s with
      pt0 := update s.pt0 r.pt01Index (s.pt0 r.pt01Index + UInt16.ofInt (addValue freePages))
      rents := s.rents.erase r
      latest := update s.latest r.pt01Index freePages }
    else none

/-- Runs of any number of CPUs. -/
def machine : Machine Rents RentEvent where
  init := init
  next := next segment

/-! ## The invariant -/

/-- Nobody has rented the entry. -/
def Free (s : Rents) (i : ℕ) : Prop := ∀ r ∈ s.rents, r.pt01Index ≠ i

/-- The rents that a call has run into are of the entries before the one it is at. -/
def CallOk : RentCall → Prop
  | .loading i seen => ∀ j < i, ∃ r ∈ seen, r.pt01Index = j
  | .swapping i value seen => isRented value = false ∧ ∀ j < i, ∃ r ∈ seen, r.pt01Index = j

/-- What every step keeps. -/
structure Inv (s : Rents) : Prop where
  /-- At most one renter holds an entry. -/
  exclusive : (s.rents.map Rent.pt01Index).Nodup
  /-- It was granted what was given back before. -/
  granted : ∀ r ∈ s.rents, r.freePages = s.latest r.pt01Index
  le : ∀ i, (s.latest i).toNat ≤ maxPages
  rented : ∀ r ∈ s.rents, s.pt0 r.pt01Index = 1
  counts : ∀ i, s.Free i → PageTable0.Counts (s.pt0 i) (s.latest i)
  call : ∀ c call, s.call c = some call → CallOk call
  failed : ∀ seen ∈ s.failures, ∀ i < segment.pt01Count, ∃ r ∈ seen, r.pt01Index = i

variable {segment} {s s' : Rents} {c : CpuId} {e : RentEvent}

theorem inv_init : init.Inv segment where
  exclusive := List.nodup_nil
  granted r h := by cases h
  le i := le_of_eq rfl
  rented r h := by cases h
  counts i _ := PageTable0.counts_initial
  call c call h := by cases h
  failed seen h := by cases h

/-- A word with the bit set is one of a rent in effect. -/
theorem Inv.find_of_isRented (h : s.Inv segment) {i : ℕ} (hr : isRented (s.pt0 i) = true) :
    ∃ r, s.rents.find? (fun r ↦ r.pt01Index = i) = some r ∧ r.pt01Index = i := by
  by_cases hfree : s.Free i
  · rw [(h.counts i hfree).not_isRented] at hr
    cases hr
  · simp only [Free, not_forall, not_not] at hfree
    obtain ⟨r, hmem, hi⟩ := hfree
    obtain ⟨r', hr'⟩ := Option.isSome_iff_exists.mp
      (List.find?_isSome (p := fun r ↦ decide (r.pt01Index = i)) |>.mpr
        ⟨r, hmem, by simpa using hi⟩)
    exact ⟨r', hr', by simpa using List.find?_some hr'⟩

/-- A word without it is one of an entry that nobody has rented. -/
theorem Inv.free_of_not_isRented (h : s.Inv segment) {i : ℕ} (hr : isRented (s.pt0 i) = false) :
    s.Free i := by
  rintro r hmem rfl
  rw [h.rented r hmem, PageTable0.isRented_one] at hr
  cases hr

/-- A step of a call that touches no word. -/
theorem Inv.setCall (h : s.Inv segment) (call? : Option RentCall)
    (hc : ∀ call ∈ call?, CallOk call) : Inv segment { s with call := update s.call c call? } where
  exclusive := h.exclusive
  granted := h.granted
  le := h.le
  rented := h.rented
  counts := h.counts
  call d call hd := by
    by_cases hdc : d = c
    · subst hdc
      exact hc call (by simpa using hd)
    · exact h.call d call (by simpa [hdc] using hd)
  failed := h.failed

/-- **The compare-exchange grants what the latest `return_` gave back.** -/
theorem Inv.grant (h : s.Inv segment) {i : ℕ} {value : UInt16} (hv : s.pt0 i = value)
    (hr : isRented value = false) : Inv segment { s with
      pt0 := update s.pt0 i 1
      rents := ⟨c, i, value >>> 1⟩ :: s.rents } := by
  subst hv
  have hfree := h.free_of_not_isRented hr
  refine ⟨?_, ?_, h.le, ?_, ?_, h.call, h.failed⟩
  · refine List.nodup_cons.mpr ⟨fun hmem ↦ ?_, h.exclusive⟩
    obtain ⟨r, hr, hi⟩ := List.mem_map.mp hmem
    exact hfree r hr hi
  · rintro r hr
    rcases List.mem_cons.mp hr with rfl | hr
    · exact (h.counts i hfree).shift
    · exact h.granted r hr
  · rintro r hr
    rcases List.mem_cons.mp hr with rfl | hr
    · simp
    · simp [hfree r hr, h.rented r hr]
  · intro j hj
    have hji : j ≠ i := fun hji ↦ hj _ List.mem_cons_self hji.symm
    simpa [hji] using h.counts j fun r hr ↦ hj r (List.mem_cons_of_mem _ hr)

theorem Inv.advance (h : s.Inv segment) {call : RentCall} (hc : s.call c = some call) :
    (s.advance segment c call).Inv segment := by
  have hok := h.call c call hc
  cases call with
  | loading i seen =>
    simp only [Rents.advance]
    split_ifs with hi hr
    · obtain ⟨r, hfind, hri⟩ := h.find_of_isRented hr
      refine h.setCall _ fun call hcall ↦ ?_
      cases hcall
      intro j hj
      rcases Nat.lt_succ_iff_lt_or_eq.mp hj with hj | rfl
      · obtain ⟨r', hr', hj'⟩ := hok j hj
        exact ⟨r', List.mem_append_left _ hr', hj'⟩
      · exact ⟨r, by simp [hfind], hri⟩
    · refine h.setCall _ fun call hcall ↦ ?_
      cases hcall
      exact ⟨by simpa using hr, hok⟩
    · have hs := h.setCall (c := c) none (by simp)
      refine { hs with failed := fun seen' hseen ↦ ?_ }
      rcases List.mem_append.mp hseen with hseen | hseen
      · exact h.failed seen' hseen
      · cases List.mem_singleton.mp hseen
        exact fun j hj ↦ hok j (by omega)
  | swapping i value seen =>
    simp only [Rents.advance]
    split_ifs with hv
    · exact (h.grant hv hok.1).setCall none (by simp)
    · refine h.setCall _ fun call hcall ↦ ?_
      cases hcall
      exact hok.2

/-- **A `return_` gives back what it says.** -/
theorem Inv.giveBack (h : s.Inv segment) {r : Rent} (hr : r ∈ s.rents) {freePages : UInt16}
    (hle : freePages ≤ r.freePages) : Inv segment { s with
      pt0 := update s.pt0 r.pt01Index (s.pt0 r.pt01Index + UInt16.ofInt (addValue freePages))
      rents := s.rents.erase r
      latest := update s.latest r.pt01Index freePages } := by
  have hmax : freePages.toNat ≤ maxPages := by
    have hg := h.le r.pt01Index
    rw [← h.granted r hr] at hg
    exact (UInt16.le_iff_toNat_le.mp hle).trans hg
  -- no other rent is of this entry
  have hne : ∀ r' ∈ s.rents.erase r, r'.pt01Index ≠ r.pt01Index := by
    intro r' hr' he
    have hnd := h.exclusive
    have hperm := (List.perm_cons_erase hr).map Rent.pt01Index
    rw [hperm.nodup_iff, List.map_cons, List.nodup_cons] at hnd
    exact hnd.1 (he ▸ List.mem_map_of_mem hr')
  refine ⟨?_, fun r' hr' ↦ ?_, fun i ↦ ?_, fun r' hr' ↦ ?_, fun i hi ↦ ?_, h.call, h.failed⟩
  · exact h.exclusive.sublist (List.erase_sublist.map _)
  · simpa [hne r' hr'] using h.granted r' (List.mem_of_mem_erase hr')
  · by_cases hi : i = r.pt01Index
    · simpa [hi] using hmax
    · simpa [hi] using h.le i
  · simpa [hne r' hr'] using h.rented r' (List.mem_of_mem_erase hr')
  · by_cases hir : i = r.pt01Index
    · subst hir
      simpa [h.rented r hr] using PageTable0.counts_return hmax
    · have hfree : s.Free i := by
        intro r' hr' he
        by_cases hrr : r' = r
        · exact hir (hrr ▸ he.symm)
        · exact hi r' ((List.mem_erase_of_ne hrr).mpr hr') he
      simpa [hir] using h.counts i hfree

theorem Inv.next (h : s.Inv segment) (hn : s.next segment e = some s') : s'.Inv segment := by
  cases e with
  | rent c =>
    simp only [Rents.next] at hn
    split at hn
    · cases hn
      exact h.setCall _ fun call hcall ↦ by
        cases hcall
        exact fun j hj ↦ absurd hj (Nat.not_lt_zero j)
    · cases hn
  | step c =>
    obtain ⟨call, hc, rfl⟩ := Option.map_eq_some_iff.mp hn
    exact h.advance hc
  | return_ r freePages =>
    simp only [Rents.next] at hn
    split at hn
    · rename_i hr
      cases hn
      exact h.giveBack hr.1 hr.2.2
    · cases hn

/-! ## Every run -/

/-- **Renting is exclusive and loses no pages.** -/
theorem rent_exclusive (h : (machine segment).Reachable s) :
    (s.rents.map Rent.pt01Index).Nodup ∧
    (∀ r ∈ s.rents, r.freePages = s.latest r.pt01Index) ∧
    (∀ i, (s.latest i).toNat ≤ maxPages ∧ (s.pt0 i).toNat =
      if ∃ r ∈ s.rents, r.pt01Index = i then 1 else 2 * (s.latest i).toNat) ∧
    ∀ seen ∈ s.failures, ∀ i < segment.pt01Count, ∃ r ∈ seen, r.pt01Index = i := by
  have hinv : s.Inv segment := h.invariant inv_init fun _ _ _ _ hI hn ↦ hI.next hn
  refine ⟨hinv.exclusive, hinv.granted, fun i ↦ ⟨hinv.le i, ?_⟩, hinv.failed⟩
  split_ifs with hi
  · obtain ⟨r, hr, rfl⟩ := hi
    rw [hinv.rented r hr]
    rfl
  · exact hinv.counts i fun r hr he ↦ hi ⟨r, hr, he⟩

/-- CPU 0 rents an entry and gives half of its pages back; then both CPUs want it, and CPU 1 is the
one that gets it. -/
def contested : List RentEvent :=
  [.rent 0, .step 0, .step 0, .return_ ⟨0, 0, 16384⟩ 8192, .rent 0, .step 0, .rent 1, .step 1,
    .step 1, .step 0, .step 0]

theorem rent_exclusive_contested :
    ((machine (.initializeSegment .init 0 (2 ^ 26))).after contested).rents = [⟨1, 0, 8192⟩] ∧
    (((machine (.initializeSegment .init 0 (2 ^ 26))).after contested).rents.map
      Rent.pt01Index).Nodup ∧
    ∀ r ∈ ((machine (.initializeSegment .init 0 (2 ^ 26))).after contested).rents,
      r.freePages = ((machine (.initializeSegment .init 0 (2 ^ 26))).after contested).latest
        r.pt01Index :=
  have h :=
    rent_exclusive (Machine.reachable_after (M := machine (.initializeSegment .init 0 (2 ^ 26)))
    contested)
  ⟨by decide +kernel, h.1, h.2.1⟩

end Rents

end Chino
