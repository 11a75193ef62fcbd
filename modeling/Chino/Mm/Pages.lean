import Chino.Mm.Physical

/-!
# Which page a CPU gets

The pages of a bucket are handed out in their order, so a bucket is described by the number of pages
that were taken from it.  `Ok.allocatePage` is the specification of `allocate_page` in these terms:
the CPU gets the next page of its bucket, or the first page of the first bucket that nobody has
rented.

## The state in numbers

`Ok n` describes the memory by a function `n`: the number of pages taken from each bucket.  Each
bucket is rented by one CPU at most, and `free_pages_` of that CPU is what is left of it.  `used` is
the number of pages that a CPU has taken from its bucket, so its next page is the one with that
number.

`Takes` and `RentsEntry` describe the two ways in which a round of `allocate_page` goes, with the
new `n` and everything that stays the same; `Ok.allocatePage` is the whole call.  The address that
is returned is computed from the number as the source does it, whether or not it is the right one.
-/

set_option autoImplicit false

namespace Chino

open Function (update)

/-- What a write does not change about the value, it does not change anywhere. -/
theorem apply_update_eq {α β γ : Type} [DecidableEq α] {g : α → β} {x : α} {v : β} (f : β → γ)
    (h : f v = f (g x)) (y : α) : f (update g x v y) = f (g y) := by
  by_cases hy : y = x
  · subst hy
    rw [Function.update_self, h]
  · rw [Function.update_of_ne hy]

namespace PhysicalSegment

variable {s : PhysicalSegment} {b : Bucket} {i i' n : ℕ}

theorem bucket_setBucket (he : n < PageTable1.maxEntries) :
    ((s.setBucket i b).bucket i').pt2 n = if i' = i then b.pt2 n else (s.bucket i').pt2 n := by
  have h₁ : (pt2BucketBase i' + n) / PageTable1.maxEntries = i' := by
    simp only [pt2BucketBase, PageTable1.maxEntries] at *
    omega
  have h₂ : (pt2BucketBase i' + n) % PageTable1.maxEntries = n := by
    simp only [pt2BucketBase, PageTable1.maxEntries] at *
    omega
  simp only [bucket, setBucket, h₁, h₂]

/-- A bucket is written that is still the old one outside of its 32 tables. -/
theorem bucket_setBucket_self
    (h : ∀ e, PageTable1.maxEntries ≤ e → b.pt2 e = (s.bucket i).pt2 e) :
    (s.setBucket i b).bucket i = b := by
  have he : ((s.setBucket i b).bucket i).pt2 = b.pt2 := by
    funext e
    by_cases hlt : e < PageTable1.maxEntries
    · rw [bucket_setBucket hlt, if_pos rfl]
    · have hne : (pt2BucketBase i + e) / PageTable1.maxEntries ≠ i := by
        simp only [pt2BucketBase, PageTable1.maxEntries] at *
        omega
      rw [h e (by omega)]
      simp [bucket, setBucket, hne]
  cases b
  simp only [bucket, Bucket.mk.injEq] at he ⊢
  exact ⟨by simp [setBucket], he⟩

/-- A bucket is written without changing the others. -/
theorem filled_setBucket :
    ((s.setBucket i b).bucket i').Filled n ↔
      if i' = i then b.Filled n else (s.bucket i').Filled n := by
  by_cases hi : i' = i
  · rw [if_pos hi]
    refine forall₂_congr fun e he ↦ ?_
    rw [bucket_setBucket he, if_pos hi]
    simp [bucket, setBucket, hi]
  · rw [if_neg hi]
    refine forall₂_congr fun e he ↦ ?_
    rw [bucket_setBucket he, if_neg hi]
    simp [bucket, setBucket, hi]

/-- `rent` finds the first level-0 entry that is not rented. -/
theorem rent_eq_some {r : (ℕ × ℕ) × PhysicalSegment} : s.rent = some r ↔
    ∃ i, i < s.pt01Count ∧ s.pt0 i % 2 = 0 ∧ (∀ j < i, s.pt0 j % 2 = 1) ∧
      r = ((i, s.pt0 i / 2), { s with pt0 := update s.pt0 i 1 }) := by
  rw [rent, Option.map_eq_some_iff]
  constructor
  · rintro ⟨i, hf, rfl⟩
    obtain ⟨hp, k, hk, hki, hlt⟩ := List.find?_eq_some_iff_getElem.mp hf
    simp only [List.getElem_range, decide_eq_true_eq] at hki hlt hp
    subst hki
    refine ⟨k, by simpa using hk, hp, fun j hj ↦ ?_, rfl⟩
    have := hlt j hj
    simp only [Bool.not_eq_true', decide_eq_false_iff_not] at this
    omega
  · rintro ⟨i, hi, hp, hlt, rfl⟩
    refine ⟨i, List.find?_eq_some_iff_getElem.mpr ⟨by simpa using hp, i, by simpa using hi, ?_,
      fun j hj ↦ ?_⟩, rfl⟩
    · simp
    · simp [hlt j hj]

theorem rent_eq_none : s.rent = none ↔ ∀ i < s.pt01Count, s.pt0 i % 2 = 1 := by
  rw [rent, Option.map_eq_none_iff, List.find?_eq_none]
  refine ⟨fun h i hi ↦ ?_, fun h i hi ↦ ?_⟩
  · have := h i (List.mem_range.mpr hi)
    simp only [decide_eq_true_eq] at this
    omega
  · simp [h i (List.mem_range.mp hi)]

end PhysicalSegment

namespace PhysicalMemory

variable {m m' : PhysicalMemory} {n : ℕ → ℕ → ℕ} {c : CpuId} {s i : ℕ}

/-- The bucket is the one the CPU takes its next page from: its own, or the first one that is not
rented. -/
def Next (m : PhysicalMemory) (c : CpuId) (s i : ℕ) : Prop :=
  if 0 < (m.cpu c).freePages then (m.cpu c).segmentIndex = s ∧ (m.cpu c).pt01Index = i
  else (m.segment s).pt0 i % 2 = 0 ∧ (∀ j < i, (m.segment s).pt0 j % 2 = 1) ∧
    ∀ s' < s, ∀ j < (m.segment s').pt01Count, (m.segment s').pt0 j % 2 = 1

/-- The number of pages that the CPU has taken from its bucket. -/
def used (m : PhysicalMemory) (c : CpuId) : ℕ :=
  if 0 < (m.cpu c).freePages then PageTable0.maxPages - (m.cpu c).freePages else 0

/-- The segments lie where they did. -/
structure SameSegments (m m' : PhysicalMemory) : Prop where
  count : m'.segmentsCount = m.segmentsCount
  base : ∀ s, (m'.segment s).physicalAddressBase = (m.segment s).physicalAddressBase
  pages : ∀ s, (m'.segment s).totalPages = (m.segment s).totalPages

theorem SameSegments.trans {m₁ : PhysicalMemory} (h : m.SameSegments m₁) (h' : m₁.SameSegments m') :
    m.SameSegments m' where
  count := h'.count.trans h.count
  base s := (h'.base s).trans (h.base s)
  pages s := (h'.pages s).trans (h.pages s)

theorem SameSegments.pt01Count (h : m.SameSegments m') (s : ℕ) :
    (m'.segment s).pt01Count = (m.segment s).pt01Count := by
  rw [PhysicalSegment.pt01Count, PhysicalSegment.pt2Count, h.pages]
  rfl

/-- The bucket is one of the tables of the segments, and is rented. -/
def IsRented (m : PhysicalMemory) (s i : ℕ) : Prop :=
  s < m.segmentsCount ∧ i < (m.segment s).pt01Count ∧ (m.segment s).pt0 i % 2 = 1

theorem IsRented.congr (h : m.IsRented s i) (hsame : m.SameSegments m')
    (hp : (m'.segment s).pt0 i % 2 = 1) : m'.IsRented s i :=
  ⟨h.1.trans_eq hsame.count.symm, h.2.1.trans_eq (hsame.pt01Count s).symm, hp⟩

/-- `n` pages are taken from each bucket, and each bucket is used by one CPU. -/
structure Ok (m : PhysicalMemory) (n : ℕ → ℕ → ℕ) : Prop where
  filled : ∀ s i, ((m.segment s).bucket i).Filled (n s i)
  free : ∀ s i, (m.segment s).pt0 i % 2 = 0 →
    (m.segment s).pt0 i = PageTable0.initialValue ∧ n s i = 0
  current : ∀ c, 0 < (m.cpu c).freePages →
    m.IsRented (m.cpu c).segmentIndex (m.cpu c).pt01Index ∧
      (m.cpu c).freePages + n (m.cpu c).segmentIndex (m.cpu c).pt01Index = PageTable0.maxPages
  distinct : ∀ c c', 0 < (m.cpu c).freePages → 0 < (m.cpu c').freePages →
    (m.cpu c).segmentIndex = (m.cpu c').segmentIndex → (m.cpu c).pt01Index = (m.cpu c').pt01Index →
      c = c'

/-- One more page is taken from a bucket. -/
def bump (n : ℕ → ℕ → ℕ) (s i : ℕ) : ℕ → ℕ → ℕ := update n s (update (n s) i (n s i + 1))

theorem bump_apply (s' i' : ℕ) :
    bump n s i s' i' = if s' = s ∧ i' = i then n s i + 1 else n s' i' := by
  by_cases hs : s' = s
  · subst hs
    by_cases hi : i' = i <;> simp [bump, hi]
  · simp [bump, hs]

/-- What `allocate_page` does when it gets a page. -/
structure Takes (m : PhysicalMemory) (n : ℕ → ℕ → ℕ) (s i : ℕ) (a : ℕ) (m' : PhysicalMemory) :
    Prop where
  rented : m'.IsRented s i
  addr : a = (m.segment s).pfnToPaddr (n s i)
  same : m.SameSegments m'
  returned : m'.returned = m.returned
  accessed : m'.accessed =
    m.accessed ++ [(s, PhysicalSegment.pt2BucketBase i + n s i / PageTable2.maxPages)]
  ok : m'.Ok (bump n s i)

theorem filled_update {seg : PhysicalSegment} {b : Bucket} {k : ℕ} (s' i' : ℕ)
    (hseg : seg = m.segment s) :
    ((update m.segment s (seg.setBucket i b) s').bucket i').Filled k ↔
      if s' = s ∧ i' = i then b.Filled k else ((m.segment s').bucket i').Filled k := by
  subst hseg
  by_cases hs : s' = s
  · subst hs
    rw [Function.update_self, PhysicalSegment.filled_setBucket]
    simp
  · simp [hs]

/-- A CPU that has free pages takes the next one. -/
theorem Ok.takePage (h : m.Ok n) (hc : 0 < (m.cpu c).freePages) :
    ∃ a m', (m.reserve c).takePage c = some (a, m') ∧
      m.Takes n (m.cpu c).segmentIndex (m.cpu c).pt01Index a m' := by
  obtain ⟨hrent, hsum⟩ := h.current c hc
  obtain ⟨e, j, b, hb, hfilled, he, hj, hidx⟩ :=
    (h.filled (m.cpu c).segmentIndex (m.cpu c).pt01Index).take (by
      simp only [PageTable0.maxPages, PageTable2.maxPages, PageTable1.maxEntries] at *
      omega)
  have hdiv : n (m.cpu c).segmentIndex (m.cpu c).pt01Index / PageTable2.maxPages = e := by
    rw [← hidx]
    simp only [Bucket.index, PageTable2.maxPages] at *
    omega
  refine ⟨_, _, by simp only [PhysicalMemory.takePage, reserve, Function.update_self, hb]; rfl, ?_⟩
  have hpt0 := apply_update_eq (g := m.segment) (x := (m.cpu c).segmentIndex)
    (v := (m.segment (m.cpu c).segmentIndex).setBucket (m.cpu c).pt01Index b) PhysicalSegment.pt0 rfl
  have hsame : m.SameSegments { m.reserve c with
      segment := update m.segment (m.cpu c).segmentIndex
        ((m.segment (m.cpu c).segmentIndex).setBucket (m.cpu c).pt01Index b)
      accessed := m.accessed ++
        [((m.cpu c).segmentIndex, PhysicalSegment.pt2BucketBase (m.cpu c).pt01Index + e)] } :=
    ⟨rfl, apply_update_eq PhysicalSegment.physicalAddressBase rfl,
      apply_update_eq PhysicalSegment.totalPages rfl⟩
  have hfree : ∀ c', 0 < (update m.cpu c { m.cpu c with
      freePages := (m.cpu c).freePages - 1 } c').freePages → 0 < (m.cpu c').freePages := fun c' hc' ↦ by
    by_cases hcc : c' = c
    · exact hcc ▸ hc
    · simpa [hcc] using hc'
  have hindex := apply_update_eq (g := m.cpu) (x := c)
    (v := { m.cpu c with freePages := (m.cpu c).freePages - 1 }) CpuPhysicalAllocator.segmentIndex rfl
  have hindex' := apply_update_eq (g := m.cpu) (x := c)
    (v := { m.cpu c with freePages := (m.cpu c).freePages - 1 }) CpuPhysicalAllocator.pt01Index rfl
  have hrented : ∀ {s i}, m.IsRented s i → IsRented { m.reserve c with
      segment := update m.segment (m.cpu c).segmentIndex
        ((m.segment (m.cpu c).segmentIndex).setBucket (m.cpu c).pt01Index b)
      accessed := m.accessed ++
        [((m.cpu c).segmentIndex, PhysicalSegment.pt2BucketBase (m.cpu c).pt01Index + e)] } s i :=
    fun hr ↦ hr.congr hsame ((congrFun (hpt0 _) _).symm ▸ hr.2.2)
  refine ⟨hrented hrent, by simp [hidx], hsame, rfl, by simp [hdiv],
    ⟨fun s' i' ↦ ?_, fun s' i' hz ↦ ?_,
    fun c' hc' ↦ ?_, fun c₁ c₂ h₁ h₂ hseg hidx ↦ ?_⟩⟩
  · rw [filled_update s' i' rfl, bump_apply]
    split
    · exact hfilled
    · exact h.filled s' i'
  · have hz' : (m.segment s').pt0 i' % 2 = 0 := congrFun (hpt0 s') i' ▸ hz
    obtain ⟨h₁, h₂⟩ := h.free s' i' hz'
    refine ⟨(congrFun (hpt0 s') i').trans h₁, ?_⟩
    rw [bump_apply, if_neg, h₂]
    rintro ⟨rfl, rfl⟩
    have := hrent.2.2
    omega
  · have hc₀ := hfree c' hc'
    obtain ⟨hr, hsum'⟩ := h.current c' hc₀
    by_cases hcc : c' = c
    · subst hcc
      simp only [Function.update_self, bump_apply, and_self, if_true]
      exact ⟨hrented hr, by omega⟩
    · simp only [Function.update_of_ne hcc]
      refine ⟨hrented hr, ?_⟩
      rw [bump_apply, if_neg]
      · exact hsum'
      · rintro ⟨hss, hii⟩
        exact hcc (h.distinct c' c hc₀ hc hss hii)
  · exact h.distinct c₁ c₂ (hfree c₁ h₁) (hfree c₂ h₂)
      ((hindex c₁).symm.trans (hseg.trans (hindex c₂)))
      ((hindex' c₁).symm.trans (hidx.trans (hindex' c₂)))

/-- `rent_new_pt0` rents the first bucket that is not rented. -/
theorem rentNewPt0_eq_some (h : m.rentNewPt0 c = some m') :
    ∃ s i, s < m.segmentsCount ∧ i < (m.segment s).pt01Count ∧ (m.segment s).pt0 i % 2 = 0 ∧
      (∀ j < i, (m.segment s).pt0 j % 2 = 1) ∧
      (∀ s' < s, ∀ j < (m.segment s').pt01Count, (m.segment s').pt0 j % 2 = 1) ∧
      m' = { m with
        segment := update m.segment s { m.segment s with pt0 := update (m.segment s).pt0 i 1 }
        cpu := update m.cpu c ⟨s, i, (m.segment s).pt0 i / 2⟩ } := by
  obtain ⟨xs, s, ys, hl, hs, hxs⟩ := List.findSome?_eq_some_iff.mp h
  obtain ⟨r, hr, rfl⟩ := Option.map_eq_some_iff.mp hs
  obtain ⟨i, hi, hp, hlt, rfl⟩ := PhysicalSegment.rent_eq_some.mp hr
  have hmem : s ∈ List.range m.segmentsCount := hl ▸ by simp
  refine ⟨s, i, List.mem_range.mp hmem, hi, hp, hlt, fun s' hs' ↦ ?_, rfl⟩
  have hmem' : s' ∈ xs ++ s :: ys :=
    hl ▸ List.mem_range.mpr (hs'.trans (List.mem_range.mp hmem))
  have hord := List.pairwise_append.mp (hl ▸ List.pairwise_lt_range)
  rcases List.mem_append.mp hmem' with hx | hx
  · exact PhysicalSegment.rent_eq_none.mp (Option.map_eq_none_iff.mp (hxs s' hx))
  · rcases List.mem_cons.mp hx with rfl | hy
    · exact absurd hs' (lt_irrefl _)
    · exact absurd hs' (not_lt_of_gt ((List.pairwise_cons.mp hord.2.1).1 s' hy))

/-- The level-1 and the level-2 tables are the same. -/
def SameTables (m m' : PhysicalMemory) : Prop :=
  ∀ s, (m'.segment s).pt1 = (m.segment s).pt1 ∧ (m'.segment s).pt2 = (m.segment s).pt2

theorem SameTables.bucket (h : m.SameTables m') (s i : ℕ) :
    (m'.segment s).bucket i = (m.segment s).bucket i := by
  rw [PhysicalSegment.bucket, PhysicalSegment.bucket, (h s).1, (h s).2]

/-- What `rent_new_pt0` does when it rents an entry: the first one that nobody has rented. -/
structure RentsEntry (m : PhysicalMemory) (c : CpuId) (s i : ℕ) (m' : PhysicalMemory) : Prop where
  segment : s < m.segmentsCount
  entry : i < (m.segment s).pt01Count
  unrented : (m.segment s).pt0 i % 2 = 0
  first : ∀ j < i, (m.segment s).pt0 j % 2 = 1
  firstSegment : ∀ s' < s, ∀ j < (m.segment s').pt01Count, (m.segment s').pt0 j % 2 = 1
  same : m.SameSegments m'
  tables : m.SameTables m'
  pt0 : ∀ s' i', (m'.segment s').pt0 i' = if s' = s ∧ i' = i then 1 else (m.segment s').pt0 i'
  cpu : m'.cpu = update m.cpu c ⟨s, i, (m.segment s).pt0 i / 2⟩
  returned : m'.returned = m.returned
  accessed : m'.accessed = m.accessed

theorem rentsEntry (h : m.rentNewPt0 c = some m') : ∃ s i, m.RentsEntry c s i m' := by
  obtain ⟨s, i, hs, hi, hp, hlt, hbefore, rfl⟩ := rentNewPt0_eq_some h
  have hsame {γ : Type} (f : PhysicalSegment → γ)
      (hf : f { m.segment s with pt0 := update (m.segment s).pt0 i 1 } = f (m.segment s)) :=
    apply_update_eq f hf
  refine ⟨s, i, hs, hi, hp, hlt, hbefore, ⟨rfl, hsame PhysicalSegment.physicalAddressBase rfl,
    hsame PhysicalSegment.totalPages rfl⟩, fun s' ↦ ⟨hsame PhysicalSegment.pt1 rfl s',
    hsame PhysicalSegment.pt2 rfl s'⟩, fun s' i' ↦ ?_, rfl, rfl, rfl⟩
  by_cases hss : s' = s
  · subst hss
    by_cases hii : i' = i <;> simp [hii]
  · simp [hss]

/-- A CPU without free pages rents a bucket from which no page was taken. -/
theorem Ok.rent (h : m.Ok n) (hc : (m.cpu c).freePages = 0) (hr : m.rentNewPt0 c = some m') :
    ∃ s i, m.Next c s i ∧ n s i = 0 ∧ m'.cpu c = ⟨s, i, PageTable0.maxPages⟩ ∧ m'.Ok n ∧
      m.SameSegments m' ∧ m'.returned = m.returned ∧ m'.accessed = m.accessed ∧ 0 < m.entryCount := by
  obtain ⟨s, i, hrents⟩ := rentsEntry hr
  have hp := hrents.unrented
  obtain ⟨hinit, hn⟩ := h.free s i hp
  have hval : (m.segment s).pt0 i / 2 = PageTable0.maxPages := by rw [hinit]; rfl
  have hcpu : m'.cpu c = ⟨s, i, PageTable0.maxPages⟩ := by
    rw [hrents.cpu, Function.update_self, hval]
  have hother : ∀ c' ≠ c, m'.cpu c' = m.cpu c' := fun c' hcc ↦ by
    rw [hrents.cpu, Function.update_of_ne hcc]
  -- rented buckets stay rented
  have hodd : ∀ {s' i'}, (m.segment s').pt0 i' % 2 = 1 → (m'.segment s').pt0 i' % 2 = 1 :=
    fun ho ↦ by
    rw [hrents.pt0]
    split
    · rfl
    · exact ho
  have hcur : ∀ {c'}, c' ≠ c → 0 < (m.cpu c').freePages →
      ¬ ((m.cpu c').segmentIndex = s ∧ (m.cpu c').pt01Index = i) := by
    rintro c' - hc' ⟨rfl, rfl⟩
    have := (h.current c' hc').1.2.2
    omega
  refine ⟨s, i, ?_, hn, hcpu, ⟨fun s' i' ↦ ?_, fun s' i' hz ↦ ?_, fun c' hc' ↦ ?_,
    fun c₁ c₂ h₁ h₂ hseg hidx ↦ ?_⟩, hrents.same, hrents.returned, hrents.accessed, ?_⟩
  · rw [Next, if_neg (by omega)]
    exact ⟨hp, hrents.first, hrents.firstSegment⟩
  · exact hrents.tables.bucket s' i' ▸ h.filled s' i'
  · rw [hrents.pt0] at hz ⊢
    split at hz
    · cases hz
    · rename_i hne
      rw [if_neg hne]
      exact h.free s' i' hz
  · by_cases hcc : c' = c
    · subst hcc
      simp only [hcpu, hn, Nat.add_zero, and_true]
      refine ⟨hrents.segment.trans_eq hrents.same.count.symm,
        hrents.entry.trans_eq (hrents.same.pt01Count s).symm, ?_⟩
      rw [hrents.pt0, if_pos ⟨rfl, rfl⟩]
    · rw [hother c' hcc] at hc' ⊢
      obtain ⟨hr, hsum⟩ := h.current c' hc'
      exact ⟨hr.congr hrents.same (hodd hr.2.2), hsum⟩
  · by_cases hc₁ : c₁ = c <;> by_cases hc₂ : c₂ = c
    · rw [hc₁, hc₂]
    · subst hc₁
      rw [hother c₂ hc₂] at h₂ hseg hidx
      rw [hcpu] at hseg hidx
      exact absurd ⟨hseg.symm, hidx.symm⟩ (hcur hc₂ h₂)
    · subst hc₂
      rw [hother c₁ hc₁] at h₁ hseg hidx
      rw [hcpu] at hseg hidx
      exact absurd ⟨hseg, hidx⟩ (hcur hc₁ h₁)
    · rw [hother c₁ hc₁] at h₁ hseg hidx
      rw [hother c₂ hc₂] at h₂ hseg hidx
      exact h.distinct c₁ c₂ h₁ h₂ hseg hidx
  · exact List.sum_pos_iff_exists_pos_nat.mpr ⟨_, List.mem_map.mpr
      ⟨s, List.mem_range.mpr hrents.segment, rfl⟩, Nat.zero_lt_of_lt hrents.entry⟩

/-- **What `allocate_page` does**: it takes the next page, or nothing is left. -/
theorem Ok.allocatePage (h : m.Ok n) (c : CpuId) :
    (∃ s i a m', m.allocatePage c = some (.ok a, m') ∧ m.Next c s i ∧ n s i = m.used c ∧
      m.Takes n s i a m') ∨ m.allocatePage c = some (.error .outOfMemory, m) := by
  by_cases hc : 0 < (m.cpu c).freePages
  · obtain ⟨a, m', ht, htakes⟩ := h.takePage hc
    refine Or.inl ⟨_, _, a, m', ?_, by rw [Next, if_pos hc]; exact ⟨rfl, rfl⟩, ?_, htakes⟩
    · rw [PhysicalMemory.allocatePage, allocateLoop, if_pos hc, ht]
      rfl
    · have := (h.current c hc).2
      rw [used, if_pos hc]
      omega
  · cases hr : m.rentNewPt0 c with
    | none => exact Or.inr (by rw [PhysicalMemory.allocatePage, allocateLoop, if_neg hc, hr])
    | some m₁ =>
      obtain ⟨s, i, hnext, hn, hcpu, hok, hsame, hret, hacc, hpos⟩ := h.rent (by omega) hr
      have hc₁ : 0 < (m₁.cpu c).freePages := by
        rw [hcpu]
        exact Nat.mul_pos (by decide) (by decide)
      obtain ⟨a, m', ht, htakes⟩ := hok.takePage hc₁
      rw [hcpu] at htakes
      refine Or.inl ⟨s, i, a, m', ?_, hnext, by rw [used, if_neg hc, hn], htakes.rented, ?_,
        hsame.trans htakes.same, htakes.returned.trans hret, hacc ▸ htakes.accessed, htakes.ok⟩
      · obtain ⟨k, hk⟩ := Nat.exists_eq_succ_of_ne_zero (Nat.pos_iff_ne_zero.mp hpos)
        rw [PhysicalMemory.allocatePage, allocateLoop, if_neg hc, hr, hk]
        simp only [Nat.succ_eq_add_one]
        rw [allocateLoop, if_pos hc₁, ht]
        rfl
      · rw [htakes.addr]
        simp only [PhysicalSegment.pfnToPaddr, hsame.base]

end PhysicalMemory

end Chino
