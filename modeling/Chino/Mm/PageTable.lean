import Chino.Library.Count
import Mathlib.Data.Nat.Basic

/-!
# Page tables of the physical memory

A level-2 table has a bit for each of 512 pages.  A level-1 table has 32 entries, each of which
counts the pages that are free in one level-2 table; its lowest bit says that the 512 pages are
taken as one.  A level-0 entry stands for one level-1 table with its level-2 tables, a *bucket*, and
its lowest bit says that a CPU has rented the bucket.

The functions here are what the code does when nobody interferes; `Chino.Mm.Take` has the same code
step by step.  A result `none` is a failed `unwrap`.

The counters are 16 bits wide and only go down, so they are natural numbers here.  `CHINO_ASSUME` is
empty in the emulator's build.

## The specification

* A level-2 table: `setFirstUntaken_spec` says that the first page that is not taken is found and
  taken, and `setFirstUntaken_none` that there is an error only if every page is taken.
* A bucket: `Filled n` says that exactly the first `n` pages are taken, in the bits and in the
  counts.  `Filled.take` says that a call then takes page `n`.  `Chino.Mm.Complete` is about buckets
  in any other state.

`countr_one` is a search for the lowest clear bit, `fetchOr` sets it.
-/

set_option autoImplicit false

namespace Chino

open Function (update)

/-- `std::countr_one` -/
def countrOne {w : ℕ} (v : BitVec w) : ℕ := ((List.range w).find? fun i ↦ !v.getLsbD i).getD w

theorem countrOne_lt {w : ℕ} {v : BitVec w} (h : v ≠ BitVec.allOnes w) :
    countrOne v < w ∧ v.getLsbD (countrOne v) = false ∧
      ∀ i < countrOne v, v.getLsbD i = true := by
  cases hf : (List.range w).find? fun i ↦ !v.getLsbD i with
  | none =>
    refine absurd (BitVec.eq_of_getLsbD_eq fun i hi ↦ ?_) h
    simpa [hi] using List.find?_eq_none.mp hf i (List.mem_range.mpr hi)
  | some i =>
    have hc : countrOne v = i := by rw [countrOne, hf]; rfl
    rw [hc]
    obtain ⟨hb, n, hn, hi, hlt⟩ := List.find?_eq_some_iff_getElem.mp hf
    simp only [List.getElem_range] at hi hlt
    subst hi
    refine ⟨by simpa using hn, by simpa using hb, fun j hj ↦ by simpa using hlt j hj⟩

/-! ## Level 2 -/

/-- `page_table_2` -/
structure PageTable2 where
  rows : ℕ → BitVec 64

namespace PageTable2

/-- `max_pages` -/
def maxPages : ℕ := 512

/-- `row_digits` -/
def rowDigits : ℕ := 64

/-- The number of rows. -/
def atomicsCount : ℕ := maxPages / rowDigits

/-- No page is taken. -/
def init : PageTable2 := ⟨fun _ ↦ 0⟩

/-- The bit of a page. -/
def taken (t : PageTable2) (index : ℕ) : Bool :=
  (t.rows (index / rowDigits)).getLsbD (index % rowDigits)

/-- `row.fetch_or(mask)` for the mask with one bit -/
def fetchOr (t : PageTable2) (r i : ℕ) : PageTable2 :=
  { t with rows := update t.rows r (t.rows r ||| 1#64 <<< i) }

/-- The row has no clear bit. -/
def full (t : PageTable2) (r : ℕ) : Bool := t.rows r == BitVec.allOnes 64

/-- The number of clear bits. -/
def untaken (t : PageTable2) : ℕ := ((Finset.range maxPages).filter fun j ↦ t.taken j = false).card

/-- `set_first_untaken` -/
def setFirstUntaken (t : PageTable2) : Option (ℕ × PageTable2) :=
  ((List.range atomicsCount).find? fun r ↦ !t.full r).map fun r ↦
    (r * rowDigits + countrOne (t.rows r), t.fetchOr r (countrOne (t.rows r)))

variable {t : PageTable2} {r i j n : ℕ}

theorem taken_row (hi : i < 64) : t.taken (r * rowDigits + i) = (t.rows r).getLsbD i := by
  have h₁ : (r * rowDigits + i) / rowDigits = r := by simp only [rowDigits]; omega
  have h₂ : (r * rowDigits + i) % rowDigits = i := by simp only [rowDigits]; omega
  rw [taken, h₁, h₂]

theorem full_iff : t.full r = true ↔ ∀ i < 64, t.taken (r * rowDigits + i) = true := by
  rw [full, beq_iff_eq]
  constructor
  · intro h i hi
    rw [taken_row hi, h, BitVec.getLsbD_allOnes, decide_eq_true hi]
  · intro h
    refine BitVec.eq_of_getLsbD_eq fun i hi ↦ ?_
    rw [← taken_row hi, h i hi, BitVec.getLsbD_allOnes, decide_eq_true hi]

theorem getLsbD_mask (hi : i < 64) : (1#64 <<< i).getLsbD j = decide (j = i) := by
  rw [BitVec.getLsbD_shiftLeft, BitVec.getLsbD_one]
  by_cases hj : j = i
  · subst hj
    simp [hi]
  · by_cases hlt : j < i
    · simp [hj, hlt]
    · simp [hj]
      omega

/-- Setting a bit changes that bit. -/
theorem taken_fetchOr (hi : i < 64) :
    (t.fetchOr r i).taken = update t.taken (r * rowDigits + i) true := by
  funext j
  by_cases hj : j = r * rowDigits + i
  · subst hj
    rw [Function.update_self, taken_row hi]
    simp only [fetchOr, Function.update_self, BitVec.getLsbD_or, getLsbD_mask hi]
    simp
  · rw [Function.update_of_ne hj]
    by_cases hr : j / rowDigits = r
    · have hne : j % rowDigits ≠ i := by
        rintro rfl
        exact hj (by rw [← hr, Nat.div_add_mod'])
      simp only [taken, fetchOr, hr, Function.update_self, BitVec.getLsbD_or, getLsbD_mask hi]
      simp [hne]
    · simp [taken, fetchOr, hr]

/-- The first page that is not taken is found and taken. -/
theorem setFirstUntaken_spec {t' : PageTable2} (h : t.setFirstUntaken = some (j, t')) :
    j < maxPages ∧ t.taken j = false ∧ (∀ i < j, t.taken i = true) ∧
      t'.taken = update t.taken j true := by
  obtain ⟨r, hr, he⟩ := Option.map_eq_some_iff.mp h
  cases he
  obtain ⟨hf, n, hn, hi, hlt⟩ := List.find?_eq_some_iff_getElem.mp hr
  simp only [List.length_range] at hn
  simp only [List.getElem_range] at hi hlt
  subst hi
  obtain ⟨hc, hclear, hbefore⟩ := countrOne_lt (v := t.rows n) (by simpa [full] using hf)
  have hn8 : n < 8 := hn
  refine ⟨?_, ?_, fun i hi ↦ ?_, taken_fetchOr hc⟩
  · simp only [maxPages, rowDigits]
    omega
  · rw [taken_row hc, hclear]
  · simp only [rowDigits] at hi
    by_cases hrow : i / 64 < n
    · have hfull := hlt (i / 64) hrow
      rw [Bool.not_not] at hfull
      have := full_iff.mp hfull (i % 64) (Nat.mod_lt _ (by decide))
      rwa [show i / 64 * rowDigits + i % 64 = i from Nat.div_add_mod' i 64] at this
    · have hrow' : i = n * rowDigits + (i - n * 64) := by simp only [rowDigits]; omega
      rw [hrow', taken_row (by omega)]
      exact hbefore _ (by omega)

/-- Nothing is found if every page is taken. -/
theorem setFirstUntaken_none (h : t.setFirstUntaken = none) (hj : j < maxPages) :
    t.taken j = true := by
  have hf := List.find?_eq_none.mp (Option.map_eq_none_iff.mp h) (j / 64)
    (List.mem_range.mpr
      (by simp only [maxPages] at hj; simp only [atomicsCount, maxPages, rowDigits]; omega))
  have := full_iff.mp (by simpa using hf) (j % 64) (Nat.mod_lt _ (by decide))
  rwa [show j / 64 * rowDigits + j % 64 = j from Nat.div_add_mod' j 64] at this

theorem untaken_eq_count : t.untaken = count (Finset.range maxPages) fun j ↦ t.taken j = false := by
  unfold untaken count
  congr

theorem untaken_init : init.untaken = maxPages := by
  rw [untaken, Finset.filter_true_of_mem fun j _ ↦ by simp [init, taken], Finset.card_range]

/-- Setting a clear bit leaves one clear bit less. -/
theorem untaken_update {t' : PageTable2} (h : t'.taken = update t.taken j true) (hj : j < maxPages)
    (hc : t.taken j = false) : t'.untaken + 1 = t.untaken := by
  have := count_change (P := fun j ↦ t'.taken j = false) (Q := fun j ↦ t.taken j = false)
    (Finset.mem_range.mpr hj) fun i _ hne ↦ by rw [h, Function.update_of_ne hne]
  rw [tally_of hc, tally_of_not (by rw [h, Function.update_self]; simp)] at this
  rw [untaken_eq_count, untaken_eq_count]
  omega

theorem untaken_fetchOr (hr : r < atomicsCount) (hi : i < 64)
    (hc : t.taken (r * rowDigits + i) = false) :
    (t.fetchOr r i).untaken + 1 = t.untaken := by
  refine untaken_update (taken_fetchOr hi) ?_ hc
  simp only [maxPages, rowDigits, atomicsCount] at *
  omega

/-- A table with a clear bit has a row with one. -/
theorem exists_not_full (h : 0 < t.untaken) : ∃ r < atomicsCount, t.full r = false := by
  rw [untaken_eq_count] at h
  obtain ⟨j, hj, hc⟩ := exists_of_count_pos h
  have hlt : j < 512 := Finset.mem_range.mp hj
  refine ⟨j / 64, ?_, ?_⟩
  · simp only [atomicsCount, maxPages, rowDigits]
    omega
  · by_contra hf
    have := full_iff.mp (by simpa using hf) (j % 64) (Nat.mod_lt _ (by decide))
    rw [show j / 64 * rowDigits + j % 64 = j from Nat.div_add_mod' j 64, hc] at this
    cases this

end PageTable2

/-! ## Level 1 -/

/-- A `page_table_1` with the level-2 tables of its entries. -/
structure Bucket where
  entries : ℕ → ℕ
  pt2 : ℕ → PageTable2

namespace PageTable1

/-- `max_entries` -/
def maxEntries : ℕ := 32

/-- `page_table_1_entry::initial_value` -/
def initialValue : ℕ := PageTable2.maxPages * 2

end PageTable1

namespace Bucket

/-- No page is taken. -/
def init : Bucket := ⟨fun _ ↦ PageTable1.initialValue, fun _ ↦ .init⟩

/-- `page_table_1_entry::take` with the level-2 table of the entry: an index in that table, or
`out_of_memory`. -/
def takeEntry (m : Bucket) (e : ℕ) : Option (Option ℕ × Bucket) :=
  if m.entries e = 0 ∨ m.entries e % 2 = 1 then some (none, m)
  else do
    let (j, t) ← (m.pt2 e).setFirstUntaken
    some (some j, { entries := update m.entries e (m.entries e - 2), pt2 := update m.pt2 e t })

/-- The loop of `page_table_1::take`; the entry, and the index in its level-2 table. -/
def takeFrom (m : Bucket) : List ℕ → Option (Option (ℕ × ℕ) × Bucket)
  | [] => some (none, m)
  | e :: es => do
    match ← m.takeEntry e with
    | (some j, m') => some (some (e, j), m')
    | (none, m') => m'.takeFrom es

/-- `page_table_1::take` -/
def take (m : Bucket) : Option (Option (ℕ × ℕ) × Bucket) :=
  m.takeFrom (List.range PageTable1.maxEntries)

/-- The index that `page_table_1::take` returns. -/
def index : ℕ × ℕ → ℕ
  | (e, j) => e * PageTable2.maxPages + j

/-- The pages that are not taken yet are those from `n` on. -/
def Filled (m : Bucket) (n : ℕ) : Prop :=
  ∀ e < PageTable1.maxEntries,
    m.entries e = 2 * (PageTable2.maxPages - (n - index (e, 0))) ∧
      ∀ j < PageTable2.maxPages, (m.pt2 e).taken j = decide (index (e, j) < n)

theorem filled_init : init.Filled 0 := fun e _ ↦
  ⟨by simp [init, PageTable1.initialValue, Nat.mul_comm], fun j _ ↦ by
    simp [init, PageTable2.init, PageTable2.taken]⟩

variable {m m' : Bucket} {e j n : ℕ} {es es' : List ℕ}

theorem index_inj {e' j' : ℕ} (hj : j < PageTable2.maxPages) (hj' : j' < PageTable2.maxPages)
    (h : index (e, j) = index (e', j')) : e = e' ∧ j = j' := by
  simp only [index, PageTable2.maxPages] at *
  omega

theorem Filled.untaken (h : m.Filled 0) (he : e < PageTable1.maxEntries) :
    (m.pt2 e).untaken = PageTable2.maxPages := by
  rw [PageTable2.untaken, Finset.filter_true_of_mem, Finset.card_range]
  intro j hj
  simp [(h e he).2 j (Finset.mem_range.mp hj)]

/-- Empty entries are passed over. -/
theorem takeFrom_append (h : ∀ e ∈ es, m.entries e = 0) :
    m.takeFrom (es ++ es') = m.takeFrom es' := by
  induction es with
  | nil => rfl
  | cons e es ih =>
    rw [List.cons_append, takeFrom, takeEntry, if_pos (Or.inl (h e (by simp)))]
    exact ih fun e he ↦ h e (by simp [he])

/-- An entry takes the next page of its table. -/
theorem Filled.takeEntry (h : m.Filled n) (he : e < PageTable1.maxEntries)
    (hj : j < PageTable2.maxPages) (hn : n = index (e, j)) :
    ∃ m', m.takeEntry e = some (some j, m') ∧ m'.Filled (n + 1) := by
  obtain ⟨hentry, htaken⟩ := h e he
  have hval : m.entries e = 2 * (PageTable2.maxPages - j) := by
    rw [hentry, hn]
    simp only [index]
    omega
  have htaken' : ∀ i < PageTable2.maxPages, (m.pt2 e).taken i = decide (i < j) := fun i hi ↦ by
    rw [htaken i hi, hn]
    simp [index]
  have hpos : ¬ (m.entries e = 0 ∨ m.entries e % 2 = 1) := by omega
  cases hs : (m.pt2 e).setFirstUntaken with
  | none =>
    have := PageTable2.setFirstUntaken_none hs hj
    simp [htaken' j hj] at this
  | some q =>
    obtain ⟨i, t⟩ := q
    obtain ⟨hi, hclear, hbefore, ht⟩ := PageTable2.setFirstUntaken_spec hs
    have hij : i = j := by
      rw [htaken' i hi, decide_eq_false_iff_not, not_lt] at hclear
      refine le_antisymm (le_of_not_gt fun hlt ↦ ?_) hclear
      have := hbefore j hlt
      simp [htaken' j hj] at this
    subst hij
    refine ⟨_, by rw [Bucket.takeEntry, if_neg hpos, hs]; rfl, fun e' he' ↦ ?_⟩
    by_cases hee : e' = e
    · subst hee
      simp only [Function.update_self, hval, ht]
      refine ⟨?_, fun i' hi' ↦ ?_⟩
      · rw [hn]
        simp only [index]
        omega
      · by_cases hii : i' = i
        · subst hii
          simp [hn]
        · rw [Function.update_of_ne hii, htaken' i' hi', hn, decide_eq_decide]
          simp only [index]
          omega
    · obtain ⟨h₁, h₂⟩ := h e' he'
      simp only [Function.update_of_ne hee]
      refine ⟨?_, fun i' hi' ↦ ?_⟩
      · rw [h₁, hn]
        simp only [index, PageTable2.maxPages] at *
        omega
      · rw [h₂ i' hi', hn, decide_eq_decide]
        simp only [index, PageTable2.maxPages] at *
        omega

/-- **The pages of a bucket are taken in their order.** -/
theorem Filled.take (h : m.Filled n) (hn : n < PageTable1.maxEntries * PageTable2.maxPages) :
    ∃ e j m', m.take = some (some (e, j), m') ∧ m'.Filled (n + 1) ∧ e < PageTable1.maxEntries ∧
      j < PageTable2.maxPages ∧ index (e, j) = n := by
  have hlt : 0 < PageTable2.maxPages := by decide
  have he : n / PageTable2.maxPages < PageTable1.maxEntries := by
    rw [Nat.div_lt_iff_lt_mul hlt]
    exact hn
  have hj : n % PageTable2.maxPages < PageTable2.maxPages := Nat.mod_lt _ hlt
  have hidx : index (n / PageTable2.maxPages, n % PageTable2.maxPages) = n := Nat.div_add_mod' _ _
  obtain ⟨m', hm, hm'⟩ := h.takeEntry he hj hidx.symm
  obtain ⟨es, es', hes⟩ := List.append_of_mem (List.mem_range.mpr he)
  refine ⟨_, _, m', ?_, hm', he, hj, hidx⟩
  have hskip : ∀ e ∈ es, m.entries e = 0 := fun e hmem ↦ by
    have hord := hes ▸ List.pairwise_lt_range
    have hlt := (List.pairwise_append.mp hord).2.2 e hmem _ List.mem_cons_self
    rw [(h e (hlt.trans he)).1]
    simp only [index, PageTable2.maxPages] at *
    omega
  rw [Bucket.take, hes, takeFrom_append hskip, takeFrom, hm]
  rfl

end Bucket

end Chino
