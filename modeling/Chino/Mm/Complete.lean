import Chino.Mm.Pages
import Mathlib.Algebra.Order.BigOperators.Group.Finset

/-!
# No free page is missed

A CPU takes its pages from the bucket it has rented, and when that has none left it rents another
one.  A level-0 entry may say that it has no free pages at all, and `rent` grants it all the same;
then `allocate_page` goes round its loop once more.

Here the tables are in any state in which the counters of the three levels agree.  What ends the
loop is that each round but the last rents an entry, and a rented entry is not granted again
(`Counted.rent`).  What makes the loop find a page is that the count of a bucket is the number of
its clear bits, at every level (`Bucket.take_of_free`).

## The statement

The state is any one in which the counts agree (`Counted`): each entry that nobody has rented counts
the free pages below it, the level-1 entries of these buckets do, and so do `free_pages_` and the
level-1 entries of the bucket that the CPU has rented.  The counts may be zero anywhere.

`allocatePage_complete` says how a call ends:

* it ends, and more rounds of the loop make no difference;
* it gets a page just if the CPU's bucket or an entry that nobody has rented has a free page;
* the page is a page of the bucket that the CPU has afterwards, its bit was clear and is set now, no
  other bit has changed, and the address is what the code makes of its index;
* otherwise it is `out_of_memory`, and the level-1 and level-2 tables are as they were;
* in each case the counts agree again, with the bucket that the CPU has then.

The measure for the loop is the number of entries that nobody has rented.
-/

set_option autoImplicit false

namespace Chino

open Function (update)

namespace Bucket

/-- The pages that are free below an entry: none, if all of them were taken as one. -/
def freePagesAt (b : Bucket) (e : ℕ) : ℕ := if b.entries e % 2 = 1 then 0 else (b.pt2 e).untaken

/-- The pages of a bucket that nobody has taken. -/
def freePages (b : Bucket) : ℕ := ∑ e ∈ Finset.range PageTable1.maxEntries, b.freePagesAt e

/-- Each level-1 count is the number of pages that are free below it. -/
def Agrees (b : Bucket) : Prop :=
  ∀ e < PageTable1.maxEntries, b.entries e % 2 = 0 → b.entries e = 2 * (b.pt2 e).untaken

/-- A free page is taken, and the count of its entry goes down by one. -/
structure TakesPage (b : Bucket) (e j : ℕ) (b' : Bucket) : Prop where
  entry : e < PageTable1.maxEntries
  index : j < PageTable2.maxPages
  even : b.entries e % 2 = 0
  clear : (b.pt2 e).taken j = false
  entries : b'.entries = update b.entries e (b.entries e - 2)
  taken : (b'.pt2 e).taken = update (b.pt2 e).taken j true
  others : ∀ e' ≠ e, b'.pt2 e' = b.pt2 e'

variable {b b' : Bucket} {e j : ℕ} {es : List ℕ}

/-- An entry without free pages is passed over. -/
theorem Agrees.takeEntry_of_not_free (h : b.Agrees) (he : e < PageTable1.maxEntries)
    (hf : b.freePagesAt e = 0) : b.takeEntry e = some (none, b) := by
  refine if_pos ?_
  by_cases hodd : b.entries e % 2 = 1
  · exact Or.inr hodd
  · rw [freePagesAt, if_neg hodd] at hf
    exact Or.inl (by rw [h e he (by omega), hf])

/-- `set_first_untaken` does not fail in an entry that counts a free page. -/
theorem Agrees.takeEntry_of_free (h : b.Agrees) (he : e < PageTable1.maxEntries)
    (hf : 0 < b.freePagesAt e) :
    ∃ j b', b.takeEntry e = some (some j, b') ∧ b.TakesPage e j b' := by
  have heven : b.entries e % 2 = 0 := by
    rw [freePagesAt] at hf
    split at hf <;> omega
  rw [freePagesAt, if_neg (by omega)] at hf
  have hval := h e he heven
  cases hs : (b.pt2 e).setFirstUntaken with
  | none =>
    obtain ⟨j, hj, hc⟩ := exists_of_count_pos (PageTable2.untaken_eq_count ▸ hf)
    rw [PageTable2.setFirstUntaken_none hs (Finset.mem_range.mp hj)] at hc
    cases hc
  | some q =>
    obtain ⟨j, t⟩ := q
    obtain ⟨hj, hc, -, ht⟩ := PageTable2.setFirstUntaken_spec hs
    refine ⟨j, { entries := update b.entries e (b.entries e - 2), pt2 := update b.pt2 e t }, ?_,
      he, hj,
      heven, hc, rfl, by simp only [Function.update_self, ht],
      fun e' hne ↦ Function.update_of_ne hne _ _⟩
    rw [takeEntry, if_neg (by omega), hs]
    rfl

theorem Agrees.takeFrom (h : b.Agrees) (hes : ∀ e ∈ es, e < PageTable1.maxEntries)
    (hf : ∃ e ∈ es, 0 < b.freePagesAt e) :
    ∃ e j b', b.takeFrom es = some (some (e, j), b') ∧ b.TakesPage e j b' := by
  induction es with
  | nil =>
    obtain ⟨e, he, -⟩ := hf
    exact absurd he List.not_mem_nil
  | cons e es ih =>
    have he : e < PageTable1.maxEntries := hes e List.mem_cons_self
    by_cases hfree : 0 < b.freePagesAt e
    · obtain ⟨j, b', htake, hspec⟩ := h.takeEntry_of_free he hfree
      refine ⟨e, j, b', ?_, hspec⟩
      rw [Bucket.takeFrom, htake]
      rfl
    · rw [Bucket.takeFrom, h.takeEntry_of_not_free he (by omega)]
      refine ih (fun e' he' ↦ hes e' (List.mem_cons_of_mem _ he')) ?_
      obtain ⟨e', hmem, hpos⟩ := hf
      rcases List.mem_cons.mp hmem with rfl | hmem
      · exact absurd hpos hfree
      · exact ⟨e', hmem, hpos⟩

/-- **A bucket with a free page gives one.** -/
theorem Agrees.take_of_free (h : b.Agrees) (hf : 0 < b.freePages) :
    ∃ e j b', b.take = some (some (e, j), b') ∧ b.TakesPage e j b' := by
  obtain ⟨e, he, hpos⟩ := Finset.exists_ne_zero_of_sum_ne_zero (Nat.pos_iff_ne_zero.mp hf)
  have hlt : e < PageTable1.maxEntries := Finset.mem_range.mp he
  exact h.takeFrom (fun e he ↦ List.mem_range.mp he)
    ⟨e, List.mem_range.mpr hlt, Nat.pos_of_ne_zero hpos⟩

theorem TakesPage.untaken (h : b.TakesPage e j b') : (b'.pt2 e).untaken + 1 = (b.pt2 e).untaken :=
  PageTable2.untaken_update h.taken h.index h.clear

theorem TakesPage.agrees (h : b.TakesPage e j b') (hb : b.Agrees) : b'.Agrees := by
  intro e' he' heven
  rw [h.entries] at heven ⊢
  by_cases hee : e' = e
  · subst hee
    rw [Function.update_self, hb e' he' h.even]
    have := h.untaken
    omega
  · rw [Function.update_of_ne hee] at heven ⊢
    rw [h.others e' hee, hb e' he' heven]

theorem TakesPage.freePages (h : b.TakesPage e j b') (hb : b.Agrees) :
    b'.freePages + 1 = b.freePages := by
  have hsum := sum_change (f := b'.freePagesAt) (g := b.freePagesAt) (Finset.mem_range.mpr h.entry)
    fun e' _ hne ↦ by
      rw [freePagesAt, freePagesAt, h.entries, Function.update_of_ne hne, h.others e' hne]
  have hval := hb e h.entry h.even
  have hu := h.untaken
  have hbefore : b.freePagesAt e = (b.pt2 e).untaken := if_neg (by have := h.even; omega)
  have hafter : b'.freePagesAt e = (b'.pt2 e).untaken := by
    refine if_neg ?_
    rw [h.entries, Function.update_self]
    omega
  rw [Bucket.freePages, Bucket.freePages]
  omega

theorem agrees_init : init.Agrees := fun e _ _ ↦ by
  rw [init, PageTable2.untaken_init, Nat.mul_comm]
  rfl

theorem freePages_init : init.freePages = PageTable0.maxPages := by
  have hentry : ∀ e, init.freePagesAt e = PageTable2.maxPages := fun e ↦ by
    rw [freePagesAt, if_neg (by simp [init, PageTable1.initialValue]), init,
      PageTable2.untaken_init]
  rw [freePages, Finset.sum_congr rfl fun e _ ↦ hentry e, Finset.sum_const, Finset.card_range]
  rfl

/-- The buckets have the same tables. -/
def Same (b b' : Bucket) : Prop :=
  ∀ e < PageTable1.maxEntries, b'.entries e = b.entries e ∧ b'.pt2 e = b.pt2 e

theorem Same.agrees (h : b.Same b') (hb : b.Agrees) : b'.Agrees := by
  intro e he heven
  obtain ⟨hentry, htable⟩ := h e he
  rw [hentry] at heven ⊢
  rw [htable, hb e he heven]

theorem Same.freePages (h : b.Same b') : b'.freePages = b.freePages := by
  refine Finset.sum_congr rfl fun e he ↦ ?_
  obtain ⟨hentry, htable⟩ := h e (Finset.mem_range.mp he)
  rw [freePagesAt, freePagesAt, hentry, htable]

end Bucket

namespace PhysicalSegment

/-- The number of level-0 entries that nobody has rented. -/
def unrentedEntries (s : PhysicalSegment) : ℕ :=
  ((Finset.range s.pt01Count).filter fun i ↦ s.pt0 i % 2 = 0).card

variable {s : PhysicalSegment} {b : Bucket} {i i' : ℕ}

theorem unrentedEntries_eq_count :
    s.unrentedEntries = count (Finset.range s.pt01Count) fun i ↦ s.pt0 i % 2 = 0 := by
  unfold unrentedEntries count
  congr

theorem same_setBucket :
    (if i' = i then b else s.bucket i').Same ((s.setBucket i b).bucket i') := by
  intro e he
  by_cases hi : i' = i
  · subst hi
    rw [if_pos rfl, bucket_setBucket he, if_pos rfl]
    exact ⟨by simp [bucket, setBucket], rfl⟩
  · rw [if_neg hi, bucket_setBucket he, if_neg hi]
    exact ⟨by simp [bucket, setBucket, hi], rfl⟩

/-- The level-2 tables after a bucket was written. -/
theorem pt2_setBucket {e j k : ℕ} (h : (s.bucket i).TakesPage e j b) :
    (s.setBucket i b).pt2 k = if k = pt2BucketBase i + e then b.pt2 e else s.pt2 k := by
  have he := h.entry
  by_cases hk : k / PageTable1.maxEntries = i
  · have hdiv : pt2BucketBase i + k % PageTable1.maxEntries = k := by
      rw [← hk]
      exact Nat.div_add_mod' k PageTable1.maxEntries
    simp only [setBucket, if_pos hk]
    by_cases hke : k % PageTable1.maxEntries = e
    · rw [if_pos (by rw [← hdiv, hke]), hke]
    · rw [if_neg fun heq ↦ hke (by omega), h.others _ hke]
      simp only [bucket, hdiv]
  · rw [if_neg]
    · simp only [setBucket, if_neg hk]
    · rintro rfl
      exact hk (by simp only [pt2BucketBase, PageTable1.maxEntries] at *; omega)

end PhysicalSegment

namespace PhysicalMemory

/-- The pages that are free below a level-0 entry. -/
def pagesOf (m : PhysicalMemory) (s i : ℕ) : ℕ := ((m.segment s).bucket i).freePages

/-- The counters of the buckets that nobody has rented agree, and those of the bucket `own`, which
the CPU has rented.  Without one the CPU has no free pages. -/
structure Counted (m : PhysicalMemory) (c : CpuId) (own : Option (ℕ × ℕ)) : Prop where
  unrented : ∀ s < m.segmentsCount, ∀ i < (m.segment s).pt01Count, (m.segment s).pt0 i % 2 = 0 →
    ((m.segment s).bucket i).Agrees ∧ (m.segment s).pt0 i = 2 * m.pagesOf s i
  rented : ∀ s i, own = some (s, i) → m.IsRented s i ∧ ((m.segment s).bucket i).Agrees ∧
    m.cpu c = ⟨s, i, m.pagesOf s i⟩
  idle : own = none → (m.cpu c).freePages = 0

/-- The rented bucket has a free page, or an entry that nobody has rented. -/
def HasFreePage (m : PhysicalMemory) (own : Option (ℕ × ℕ)) : Prop :=
  (∃ s i, own = some (s, i) ∧ 0 < m.pagesOf s i) ∨
    ∃ s < m.segmentsCount, ∃ i < (m.segment s).pt01Count, (m.segment s).pt0 i % 2 = 0 ∧
      0 < m.pagesOf s i

/-- The bits of the level-2 tables of the segments. -/
def bits (m : PhysicalMemory) : ℕ × ℕ × ℕ → Bool
  | (s, k, j) => ((m.segment s).pt2 k).taken j

/-- The bit of one page of the bucket is newly set, and no other changes. -/
structure SetsBit (m : PhysicalMemory) (s i e j : ℕ) (m' : PhysicalMemory) : Prop where
  segment : s < m.segmentsCount
  bucket : i < (m.segment s).pt01Count
  entry : e < PageTable1.maxEntries
  index : j < PageTable2.maxPages
  clear : m.bits (s, PhysicalSegment.pt2BucketBase i + e, j) = false
  bits : m'.bits = update m.bits (s, PhysicalSegment.pt2BucketBase i + e, j) true

/-- The level-0 entries of all segments that nobody has rented. -/
def unrentedEntries (m : PhysicalMemory) : ℕ :=
  ∑ s ∈ Finset.range m.segmentsCount, (m.segment s).unrentedEntries

variable {m m' m₁ : PhysicalMemory} {c : CpuId} {own own' : Option (ℕ × ℕ)} {s i e j : ℕ}

theorem SameTables.refl : m.SameTables m := fun _ ↦ ⟨rfl, rfl⟩

theorem SameTables.trans (h : m.SameTables m₁) (h' : m₁.SameTables m') : m.SameTables m' :=
  fun s ↦ ⟨(h' s).1.trans (h s).1, (h' s).2.trans (h s).2⟩

theorem SameTables.pagesOf (h : m.SameTables m') (s i : ℕ) : m'.pagesOf s i = m.pagesOf s i :=
  congrArg Bucket.freePages (h.bucket s i)

theorem SameTables.bits (h : m.SameTables m') : m'.bits = m.bits := by
  funext p
  obtain ⟨s, k, j⟩ := p
  rw [PhysicalMemory.bits, PhysicalMemory.bits, (h s).2]

theorem unrentedEntries_le : m.unrentedEntries ≤ m.entryCount := by
  have hsum : m.entryCount = ∑ s ∈ Finset.range m.segmentsCount, (m.segment s).pt01Count := rfl
  rw [hsum]
  refine Finset.sum_le_sum fun s _ ↦ (Finset.card_filter_le _ _).trans ?_
  rw [Finset.card_range]

theorem RentsEntry.unrentedEntries (h : m.RentsEntry c s i m₁) :
    m₁.unrentedEntries + 1 = m.unrentedEntries := by
  have hother : ∀ s' ≠ s, (m₁.segment s').unrentedEntries = (m.segment s').unrentedEntries :=
    fun s' hne ↦ by
      rw [PhysicalSegment.unrentedEntries_eq_count, PhysicalSegment.unrentedEntries_eq_count,
        h.same.pt01Count]
      exact count_congr fun i' _ ↦ by rw [h.pt0, if_neg fun he ↦ hne he.1]
  have hentry : (m₁.segment s).unrentedEntries + 1 = (m.segment s).unrentedEntries := by
    have := count_change (P := fun i' ↦ (m₁.segment s).pt0 i' % 2 = 0)
      (Q := fun i' ↦ (m.segment s).pt0 i' % 2 = 0) (Finset.mem_range.mpr h.entry)
      fun i' _ hne ↦ by rw [h.pt0, if_neg fun he ↦ hne he.2]
    rw [tally_of h.unrented, tally_of_not (by rw [h.pt0, if_pos ⟨rfl, rfl⟩]; decide)] at this
    rw [PhysicalSegment.unrentedEntries_eq_count, PhysicalSegment.unrentedEntries_eq_count,
      h.same.pt01Count]
    omega
  have := sum_change (Finset.mem_range.mpr h.segment) fun s' _ hne ↦ hother s' hne
  rw [PhysicalMemory.unrentedEntries, PhysicalMemory.unrentedEntries, h.same.count]
  omega

/-- `rent` grants an entry that nobody has rented, whatever its count. -/
theorem Counted.rent (h : m.Counted c own) (hr : m.RentsEntry c s i m₁) :
    m₁.Counted c (some (s, i)) where
  unrented s' hs' i' hi' hp := by
    rw [hr.pt0] at hp ⊢
    rw [hr.tables.pagesOf, hr.tables.bucket]
    split at hp
    · cases hp
    · rename_i hne
      rw [if_neg hne]
      exact h.unrented s' (hs'.trans_eq hr.same.count) i' (hi'.trans_eq (hr.same.pt01Count s')) hp
  rented s' i' hown := by
    cases hown
    obtain ⟨hag, hval⟩ := h.unrented s hr.segment i hr.entry hr.unrented
    refine ⟨⟨hr.segment.trans_eq hr.same.count.symm, hr.entry.trans_eq (hr.same.pt01Count s).symm, by
      rw [hr.pt0, if_pos ⟨rfl, rfl⟩]⟩, hr.tables.bucket s i ▸ hag, ?_⟩
    rw [hr.cpu, Function.update_self, hr.tables.pagesOf, hval,
      Nat.mul_div_cancel_left _ (by decide)]
  idle he := by cases he

/-- A free page is in the entry that was rented or in another one, and the old bucket of the CPU has
none. -/
theorem RentsEntry.hasFreePage_iff (hr : m.RentsEntry c s i m₁) (h : m.Counted c own)
    (hc : (m.cpu c).freePages = 0) : m₁.HasFreePage (some (s, i)) ↔ m.HasFreePage own := by
  constructor
  · rintro (⟨s', i', he, hpos⟩ | ⟨s', hs', i', hi', hp, hpos⟩)
    · cases he
      exact Or.inr ⟨s, hr.segment, i, hr.entry, hr.unrented, hr.tables.pagesOf s i ▸ hpos⟩
    · rw [hr.pt0] at hp
      split at hp
      · cases hp
      · exact Or.inr ⟨s', hs'.trans_eq hr.same.count, i', hi'.trans_eq (hr.same.pt01Count s'), hp,
          hr.tables.pagesOf s' i' ▸ hpos⟩
  · rintro (⟨s', i', he, hpos⟩ | ⟨s', hs', i', hi', hp, hpos⟩)
    · rw [(h.rented s' i' he).2.2] at hc
      exact absurd hc (Nat.pos_iff_ne_zero.mp hpos)
    · rw [← hr.tables.pagesOf] at hpos
      by_cases hsi : s' = s ∧ i' = i
      · obtain ⟨rfl, rfl⟩ := hsi
        exact Or.inl ⟨s', i', rfl, hpos⟩
      · refine Or.inr ⟨s', hs'.trans_eq hr.same.count.symm, i',
          hi'.trans_eq (hr.same.pt01Count s').symm, ?_, hpos⟩
        rw [hr.pt0, if_neg hsi, hp]

/-- What `allocate_page` does when it takes a page of a bucket. -/
structure TakesPage (m : PhysicalMemory) (c : CpuId) (s i e j : ℕ) (m' : PhysicalMemory) :
    Prop where
  same : m.SameSegments m'
  pt0 : ∀ s', (m'.segment s').pt0 = (m.segment s').pt0
  cpu : m'.cpu c = { m.cpu c with freePages := (m.cpu c).freePages - 1 }
  bucket : ∃ b, ((m.segment s).bucket i).TakesPage e j b ∧
    m'.segment = update m.segment s ((m.segment s).setBucket i b)

/-- The address of a page. -/
def pageAddress (m : PhysicalMemory) (s e j : ℕ) : ℕ :=
  (m.segment s).pfnToPaddr (Bucket.index (e, j))

/-- A bucket whose count is not zero does not fail. -/
theorem Counted.takePage (h : m.Counted c (some (s, i))) (hc : 0 < (m.cpu c).freePages) :
    ∃ e j m', (m.reserve c).takePage c = some (m.pageAddress s e j, m') ∧
      m.TakesPage c s i e j m' := by
  obtain ⟨-, hag, hcpu⟩ := h.rented s i rfl
  obtain ⟨e, j, b, htake, hspec⟩ := hag.take_of_free (by
    rw [hcpu] at hc
    exact hc)
  have hsame {γ : Type} (f : PhysicalSegment → γ)
      (hf : f ((m.segment s).setBucket i b) = f (m.segment s)) := apply_update_eq f hf
  refine ⟨e, j, _, by
    simp only [PhysicalMemory.takePage, reserve, Function.update_self, hcpu, htake]
    rfl, ?_⟩
  refine ⟨⟨rfl, hsame PhysicalSegment.physicalAddressBase rfl,
    hsame PhysicalSegment.totalPages rfl⟩,
    hsame PhysicalSegment.pt0 rfl, ?_, b, hspec, rfl⟩
  rw [hcpu]
  exact Function.update_self ..

theorem TakesPage.same_bucket (h : m.TakesPage c s i e j m') :
    ∃ b, ((m.segment s).bucket i).TakesPage e j b ∧ ∀ s' i',
      (if s' = s ∧ i' = i then b else (m.segment s').bucket i').Same
        ((m'.segment s').bucket i') := by
  obtain ⟨b, hspec, hseg⟩ := h.bucket
  refine ⟨b, hspec, fun s' i' ↦ ?_⟩
  rw [hseg]
  by_cases hss : s' = s
  · subst hss
    rw [Function.update_self]
    simpa using PhysicalSegment.same_setBucket
  · rw [Function.update_of_ne hss, if_neg fun he ↦ hss he.1]
    exact fun e _ ↦ ⟨rfl, rfl⟩

theorem TakesPage.setsBit (h : m.TakesPage c s i e j m') (hrent : m.IsRented s i) :
    m.SetsBit s i e j m' := by
  obtain ⟨b, hspec, hseg⟩ := h.bucket
  refine ⟨hrent.1, hrent.2.1, hspec.entry, hspec.index, hspec.clear, ?_⟩
  funext p
  obtain ⟨s', k, j'⟩ := p
  rw [bits, hseg]
  by_cases hss : s' = s
  · subst hss
    rw [Function.update_self, PhysicalSegment.pt2_setBucket hspec]
    by_cases hk : k = PhysicalSegment.pt2BucketBase i + e
    · subst hk
      rw [if_pos rfl, hspec.taken]
      by_cases hj : j' = j
      · subst hj
        rw [Function.update_self, Function.update_self]
      · rw [Function.update_of_ne hj, Function.update_of_ne (by simp [hj])]
        rfl
    · rw [if_neg hk, Function.update_of_ne (by simp [hk])]
      rfl
  · rw [Function.update_of_ne hss, Function.update_of_ne (by simp [hss])]
    rfl

theorem TakesPage.counted (ht : m.TakesPage c s i e j m') (h : m.Counted c (some (s, i))) :
    m'.Counted c (some (s, i)) := by
  obtain ⟨hrent, hag, hcpu⟩ := h.rented s i rfl
  obtain ⟨b, hspec, hsame⟩ := ht.same_bucket
  have hown := hsame s i
  rw [if_pos ⟨rfl, rfl⟩] at hown
  have hpages : m'.pagesOf s i + 1 = m.pagesOf s i := by
    rw [pagesOf, hown.freePages, hspec.freePages hag]
    rfl
  refine ⟨fun s' hs' i' hi' hp ↦ ?_, fun s' i' he ↦ ?_, fun he ↦ by cases he⟩
  · rw [ht.pt0] at hp ⊢
    have hother := hsame s' i'
    rw [if_neg] at hother
    · obtain ⟨hag', hval⟩ :=
        h.unrented s' (hs'.trans_eq ht.same.count) i' (hi'.trans_eq (ht.same.pt01Count s')) hp
      exact ⟨hother.agrees hag', by rw [pagesOf, hother.freePages, hval, pagesOf]⟩
    · rintro ⟨rfl, rfl⟩
      have := hrent.2.2
      omega
  · cases he
    refine ⟨hrent.congr ht.same (by rw [ht.pt0]; exact hrent.2.2), hown.agrees (hspec.agrees hag),
      ?_⟩
    rw [ht.cpu, hcpu, ← hpages, Nat.add_sub_cancel]

/-- How a call of `allocate_page` ends; `own'` is the bucket that the CPU has then. -/
structure Completes (m : PhysicalMemory) (c : CpuId) (own own' : Option (ℕ × ℕ))
    (result : Except ErrorCode ℕ) (m' : PhysicalMemory) : Prop where
  counted : m'.Counted c own'
  page_iff : (∃ a, result = .ok a) ↔ m.HasFreePage own
  took : m.HasFreePage own → ∃ s i e j, own' = some (s, i) ∧ result = .ok (m.pageAddress s e j) ∧
    m.SetsBit s i e j m'
  failed : ¬ m.HasFreePage own → result = .error .outOfMemory ∧ m.SameTables m'

/-- The round that takes a page. -/
theorem Counted.completes_take (h : m.Counted c own) (hc : 0 < (m.cpu c).freePages) :
    ∃ a m', (m.reserve c).takePage c = some (a, m') ∧ m.Completes c own own (.ok a) m' := by
  cases own with
  | none =>
    have := h.idle rfl
    omega
  | some p =>
    obtain ⟨s, i⟩ := p
    obtain ⟨hrent, -, hcpu⟩ := h.rented s i rfl
    obtain ⟨e, j, m', htake, hspec⟩ := h.takePage hc
    have hfree : m.HasFreePage (some (s, i)) := by
      rw [hcpu] at hc
      exact Or.inl ⟨s, i, rfl, hc⟩
    exact ⟨_, m', htake, hspec.counted h, ⟨fun _ ↦ hfree, fun _ ↦ ⟨_, rfl⟩⟩,
      fun _ ↦ ⟨s, i, e, j, rfl, rfl, hspec.setsBit hrent⟩, fun hno ↦ absurd hfree hno⟩

/-- The round that finds nothing to rent. -/
theorem Counted.completes_none (h : m.Counted c own) (hc : (m.cpu c).freePages = 0)
    (hr : m.rentNewPt0 c = none) : m.Completes c own own (.error .outOfMemory) m := by
  have hno : ¬ m.HasFreePage own := by
    rintro (⟨s, i, he, hpos⟩ | ⟨s, hs, i, hi, hp, -⟩)
    · rw [(h.rented s i he).2.2] at hc
      exact absurd hc (Nat.pos_iff_ne_zero.mp hpos)
    · have hnone := List.findSome?_eq_none_iff.mp hr s (List.mem_range.mpr hs)
      have hodd := PhysicalSegment.rent_eq_none.mp (Option.map_eq_none_iff.mp hnone) i hi
      omega
  refine ⟨h, iff_of_false ?_ hno, fun hfree ↦ absurd hfree hno, fun _ ↦ ⟨rfl, .refl⟩⟩
  rintro ⟨a, ha⟩
  cases ha

/-- The rounds that rent a bucket before one ends the call. -/
theorem RentsEntry.completes {result : Except ErrorCode ℕ} (hr : m.RentsEntry c s i m₁)
    (h : m.Counted c own) (hc : (m.cpu c).freePages = 0)
    (hm : m₁.Completes c (some (s, i)) own' result m') : m.Completes c own own' result m' := by
  have hiff := hr.hasFreePage_iff h hc
  refine ⟨hm.counted, hm.page_iff.trans hiff, fun hfree ↦ ?_, fun hno ↦ ?_⟩
  · obtain ⟨s', i', e, j, hown, hresult, hset⟩ := hm.took (hiff.mpr hfree)
    refine ⟨s', i', e, j, hown, ?_, hset.segment.trans_eq hr.same.count,
      hset.bucket.trans_eq (hr.same.pt01Count s'), hset.entry, hset.index, ?_, ?_⟩
    · rw [hresult]
      simp only [pageAddress, PhysicalSegment.pfnToPaddr, hr.same.base]
    · rw [← hr.tables.bits]
      exact hset.clear
    · rw [← hr.tables.bits]
      exact hset.bits
  · obtain ⟨he, hsame⟩ := hm.failed fun hfree ↦ hno (hiff.mp hfree)
    exact ⟨he, hr.tables.trans hsame⟩

/-- **The loop ends**: each round that does not end it rents an entry. -/
theorem Counted.allocateLoop (h : m.Counted c own) :
    ∃ result m' own', (∀ n, m.unrentedEntries < n → m.allocateLoop c n = some (result, m')) ∧
      m.Completes c own own' result m' := by
  induction hk : m.unrentedEntries using Nat.strong_induction_on generalizing m own with
  | _ k ih =>
    by_cases hc : 0 < (m.cpu c).freePages
    · obtain ⟨a, m', htake, hm⟩ := h.completes_take hc
      refine ⟨.ok a, m', own, fun n hn ↦ ?_, hm⟩
      obtain ⟨n, rfl⟩ := Nat.exists_eq_succ_of_ne_zero (Nat.ne_zero_of_lt hn)
      rw [PhysicalMemory.allocateLoop, if_pos hc, htake]
      rfl
    · cases hr : m.rentNewPt0 c with
      | none =>
        refine ⟨.error .outOfMemory, m, own, fun n hn ↦ ?_, h.completes_none (by omega) hr⟩
        obtain ⟨n, rfl⟩ := Nat.exists_eq_succ_of_ne_zero (Nat.ne_zero_of_lt hn)
        rw [PhysicalMemory.allocateLoop, if_neg hc, hr]
      | some m₁ =>
        obtain ⟨s, i, hrents⟩ := rentsEntry hr
        have hless := hrents.unrentedEntries
        obtain ⟨result, m', own', hloop, hm⟩ := ih _ (by omega) (h.rent hrents) rfl
        refine ⟨result, m', own', fun n hn ↦ ?_, hrents.completes h (by omega) hm⟩
        obtain ⟨n, rfl⟩ := Nat.exists_eq_succ_of_ne_zero (Nat.ne_zero_of_lt hn)
        rw [PhysicalMemory.allocateLoop, if_neg hc, hr]
        exact hloop n (by omega)

/-- **`allocate_page` ends, and finds a page if there is one**: a page of the bucket that the CPU
has then, whose bit it sets, and the counters agree for that bucket and those that nobody has
rented. -/
theorem allocatePage_complete (h : m.Counted c own) :
    ∃ result m' own', m.allocatePage c = some (result, m') ∧
      (∀ n, m.unrentedEntries < n → m.allocateLoop c n = some (result, m')) ∧ m'.Counted c own' ∧
      ((∃ a, result = .ok a) ↔ m.HasFreePage own) ∧
      (m.HasFreePage own → ∃ s i e j, own' = some (s, i) ∧
        result = .ok (m.pageAddress s e j) ∧ m.SetsBit s i e j m') ∧
      (¬ m.HasFreePage own → result = .error .outOfMemory ∧ m.SameTables m') := by
  obtain ⟨result, m', own', hloop, hcounted, hiff, htook, hfailed⟩ := h.allocateLoop
  exact ⟨result, m', own', hloop _ (Nat.lt_succ_of_le unrentedEntries_le), hloop, hcounted, hiff,
    htook,
    hfailed⟩

/-- The tables agree as the constructors leave them. -/
theorem counted_initializePhase0 (descs : List BootMemoryDesc) (c : CpuId) :
    (initializePhase0 descs).Counted c none := by
  have hbucket : ∀ s i, ((initializePhase0 descs).segment s).bucket i = .init ∧
      ((initializePhase0 descs).segment s).pt0 i = PageTable0.initialValue := fun s i ↦ by
    simp only [initializePhase0]
    split <;> exact ⟨rfl, rfl⟩
  refine ⟨fun s _ i _ _ ↦ ?_, fun s i he ↦ (Option.some_ne_none _ he.symm).elim, fun _ ↦ rfl⟩
  rw [pagesOf, (hbucket s i).1, (hbucket s i).2, Bucket.freePages_init, Nat.mul_comm]
  exact ⟨Bucket.agrees_init, rfl⟩

/-- The first call rents a bucket, and takes a page of it. -/
theorem allocatePage_complete_first :
    ∃ s i e j m', (initializePhase0 [⟨.free, 8192, 8192, by decide⟩]).allocatePage 0 =
        some (.ok ((initializePhase0 [⟨.free, 8192, 8192, by decide⟩]).pageAddress s e j), m') ∧
      m'.Counted 0 (some (s, i)) ∧
      (initializePhase0 [⟨.free, 8192, 8192, by decide⟩]).SetsBit s i e j m' := by
  obtain ⟨result, m', own', hrun, -, hcounted, -, htook, -⟩ :=
    allocatePage_complete (counted_initializePhase0 [⟨.free, 8192, 8192, by decide⟩] 0)
  have hpos : 0 < PageTable0.maxPages := by decide
  have hfree : (initializePhase0 [⟨.free, 8192, 8192, by decide⟩]).HasFreePage none :=
    Or.inr ⟨0, by decide, 0, by decide +kernel, by decide, hpos.trans_eq Bucket.freePages_init.symm⟩
  obtain ⟨s, i, e, j, rfl, rfl, hset⟩ := htook hfree
  exact ⟨s, i, e, j, m', hrun, hcounted, hset⟩

end PhysicalMemory

end Chino
