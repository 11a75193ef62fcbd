import Chino.Mm.Pages

/-!
# Which memory is handed out

`pfn_to_paddr` gets the index of a page in its bucket, and not in its segment, so every bucket of a
segment gives the same addresses: `page_returned_twice`.  A bucket always has 16384 pages, however
small the segment is, and the kind of a descriptor is not looked at: `page_outside_free_memory`.

`pages_distinct` and `pages_in_free_memory` say what is left in runs that stay clear of this.  For
free memory it is enough that the segment is free and has as many pages as the CPU's buckets would
have up to the page it takes: the level-2 table of that page is then in the array of the chip, as
the arrays are sized for the largest segment (`SameSegments.table_lt`).

## The two conditions

* `InFirstBucket`, for the addresses: the CPU takes its next page from the first bucket of a
  segment, and the segment has that page.  Then the missing offset of the bucket is zero, and the
  address is the right one.  With descriptors that have no address in common, no page is handed out
  twice.
* `InFreeMemory`, for the kind of memory: the descriptor of the segment is free memory, and the
  number of the page within the segment, `pt01_index * 16384` and the pages already taken of the
  bucket, is below `totalPages`.  That the level-2 table of the page is in the array of the chip is
  derived from this.

Both are about the state before a call, and say nothing about the page it returns.  `Takes` of
`Chino.Mm.Pages` says what a call does then, so by `invariant_takes` only calls that get a page have
to be looked at.
-/

set_option autoImplicit false

namespace Chino

namespace BootMemoryDesc

/-- The descriptors have no address in common. -/
def Disjoint (d d' : BootMemoryDesc) : Prop :=
  d.physicalAddress + d.sizeBytes ≤ d'.physicalAddress ∨
    d'.physicalAddress + d'.sizeBytes ≤ d.physicalAddress

/-- A page lies in the memory of the descriptor. -/
def HasPage (d : BootMemoryDesc) (a : ℕ) : Prop :=
  d.physicalAddress ≤ a ∧ a + minPageSize ≤ d.physicalAddress + d.sizeBytes

instance (d d' : BootMemoryDesc) : Decidable (d.Disjoint d') :=
  inferInstanceAs (Decidable (_ ∨ _))

instance (d : BootMemoryDesc) (a : ℕ) : Decidable (d.HasPage a) :=
  inferInstanceAs (Decidable (_ ∧ _))

end BootMemoryDesc

namespace PhysicalMemory

variable {m m' : PhysicalMemory} {n : ℕ → ℕ → ℕ} {c : CpuId} {s i k a : ℕ}
  {descs : List BootMemoryDesc} {sizes : List ℕ}

/-! ## Every run -/

theorem ok_initializePhase0 : (initializePhase0 descs).Ok fun _ _ ↦ 0 := by
  have hseg : ∀ s, ∃ base pages, (initializePhase0 descs).segment s =
      { PhysicalSegment.init with physicalAddressBase := base, totalPages := pages } := fun s ↦ by
    simp only [initializePhase0]
    split
    · exact ⟨_, _, rfl⟩
    · exact ⟨0, 0, rfl⟩
  refine ⟨fun s i ↦ ?_, fun s i _ ↦ ?_, fun c hc ↦ ?_, fun c _ hc ↦ ?_⟩
  · obtain ⟨base, pages, h⟩ := hseg s
    rw [h]
    exact Bucket.filled_init
  · obtain ⟨base, pages, h⟩ := hseg s
    rw [h]
    exact ⟨rfl, rfl⟩
  · exact absurd hc (lt_irrefl 0)
  · exact absurd hc (lt_irrefl 0)

/-- Where the segments lie. -/
theorem SameSegments.desc (h : (initializePhase0 descs).SameSegments m) (hs : s < m.segmentsCount) :
    ∃ d, descs[s]? = some d ∧ (m.segment s).physicalAddressBase = d.physicalAddress ∧
      (m.segment s).totalPages = d.sizeBytes / minPageSize := by
  rw [h.count] at hs
  have hd : descs[s]? = some descs[s] := List.getElem?_eq_getElem hs
  refine ⟨descs[s], hd, ?_, ?_⟩
  · rw [h.base]
    simp [initializePhase0, hd, PhysicalSegment.initializeSegment]
  · rw [h.pages]
    simp [initializePhase0, hd, PhysicalSegment.initializeSegment]

/-- **The invariant rule of the physical allocator.**  Only a call that gets a page needs to be
checked. -/
theorem invariant_takes {cond : PhysicalMemory → CpuId → Prop}
    {I : PhysicalMemory → (ℕ → ℕ → ℕ) → Prop} (hinit : I (initializePhase0 descs) fun _ _ ↦ 0)
    (hstep : ∀ m n c s i a m', (initializePhase0 descs).SameSegments m → m.Ok n → I m n → cond m c →
      s < m.segmentsCount → i < (m.segment s).pt01Count → m.Next c s i → n s i = m.used c →
      m.Takes n s i a m' → I { m' with returned := m'.returned ++ [a] } (bump n s i))
    (h : (machine descs).ReachableWhile cond m) :
    ∃ n, I m n ∧ m.Ok n ∧ (initializePhase0 descs).SameSegments m := by
  refine h.invariant (I := fun m ↦ ∃ n, I m n ∧ m.Ok n ∧ (initializePhase0 descs).SameSegments m)
    ⟨_, hinit, ok_initializePhase0, rfl, fun _ ↦ rfl, fun _ ↦ rfl⟩ ?_
  rintro m c m' - ⟨n, hI, hok, hsame⟩ hc hn
  simp only [machine, next] at hn
  rcases hok.allocatePage c with ⟨s, i, a, m₁, he, hnext, hused, htakes⟩ | he
  · rw [he] at hn
    cases hn
    have hrent := htakes.rented
    refine ⟨_, hstep m n c s i a m₁ hsame hok hI hc ?_ ?_ hnext hused htakes,
      ⟨htakes.ok.filled, htakes.ok.free, htakes.ok.current, htakes.ok.distinct⟩,
      hsame.trans ⟨htakes.same.count, htakes.same.base, htakes.same.pages⟩⟩
    · exact hrent.1.trans_eq htakes.same.count
    · exact hrent.2.1.trans_eq (htakes.same.pt01Count s)
  · rw [he] at hn
    cases hn
    exact ⟨n, hI, hok, hsame⟩

/-- Every call of `allocate_page` returns, and no `unwrap` in it fails. -/
theorem allocatePage_ne_none (h : (machine descs).Reachable m) (c : CpuId) :
    m.allocatePage c ≠ none := by
  obtain ⟨n, -, hok, -⟩ := invariant_takes (I := fun _ _ ↦ True) trivial (by simp) h
  rcases hok.allocatePage c with ⟨s, i, a, m', he, -⟩ | he <;> simp [he]

/-- A page that the segment has. -/
theorem SameSegments.hasPage (h : (initializePhase0 descs).SameSegments m)
    (hs : s < m.segmentsCount)
    (hk : k < (m.segment s).totalPages) : ∃ d, descs[s]? = some d ∧
      (m.segment s).pfnToPaddr k = d.physicalAddress + k * minPageSize ∧
        d.HasPage (d.physicalAddress + k * minPageSize) := by
  obtain ⟨d, hd, hbase, hpages⟩ := h.desc hs
  rw [hpages] at hk
  have hle := d.le
  have hin : d.HasPage (d.physicalAddress + k * minPageSize) := by
    simp only [BootMemoryDesc.HasPage, minPageSize] at *
    omega
  refine ⟨d, hd, ?_, hin⟩
  rw [PhysicalSegment.pfnToPaddr, hbase]
  refine Nat.mod_eq_of_lt ?_
  have := hin.2
  simp only [minPageSize] at *
  omega

/-! ## Distinct pages -/

/-- The CPU takes its next page from the first bucket of a segment, and the segment has that
page. -/
def InFirstBucket (m : PhysicalMemory) (c : CpuId) : Prop :=
  ∀ s < m.segmentsCount, ∀ i < (m.segment s).pt01Count, m.Next c s i →
    i = 0 ∧ m.used c < (m.segment s).totalPages

instance (m : PhysicalMemory) (c : CpuId) (s i : ℕ) : Decidable (m.Next c s i) := by
  unfold Next; infer_instance

instance (m : PhysicalMemory) (c : CpuId) : Decidable (m.InFirstBucket c) := by
  unfold InFirstBucket; infer_instance

/-- The returned pages are those that were taken from the first buckets, and are in the segments. -/
def FromFirst (m : PhysicalMemory) (n : ℕ → ℕ → ℕ) : Prop :=
  m.returned.Nodup ∧ ∀ a ∈ m.returned, ∃ s < m.segmentsCount, ∃ k < n s 0,
    k < (m.segment s).totalPages ∧ a = (m.segment s).pfnToPaddr k

/-- Pages of different segments are different. -/
theorem SameSegments.eq_of_hasPage (h : (initializePhase0 descs).SameSegments m)
    (hd : descs.Pairwise BootMemoryDesc.Disjoint) {s' k' : ℕ} (hs : s < m.segmentsCount)
    (hs' : s' < m.segmentsCount) (hk : k < (m.segment s).totalPages)
    (hk' : k' < (m.segment s').totalPages)
    (he : (m.segment s).pfnToPaddr k = (m.segment s').pfnToPaddr k') : s = s' ∧ k = k' := by
  obtain ⟨d, hds, ha, hin⟩ := h.hasPage hs hk
  obtain ⟨d', hds', ha', hin'⟩ := h.hasPage hs' hk'
  have hoverlap : ∀ {d₁ d₂ : BootMemoryDesc} {a₁ a₂ : ℕ}, d₁.HasPage a₁ → d₂.HasPage a₂ → a₁ = a₂ →
      ¬ d₁.Disjoint d₂ := fun h₁ h₂ he hdis ↦ by
    simp only [BootMemoryDesc.HasPage, BootMemoryDesc.Disjoint, minPageSize] at *
    omega
  have heq : d.physicalAddress + k * minPageSize = d'.physicalAddress + k' * minPageSize := by
    rw [← ha, ← ha', he]
  have hss : s = s' := by
    obtain ⟨hlt, rfl⟩ := List.getElem?_eq_some_iff.mp hds
    obtain ⟨hlt', rfl⟩ := List.getElem?_eq_some_iff.mp hds'
    rcases Nat.lt_trichotomy s s' with hlt₁ | rfl | hlt₁
    · exact absurd (List.pairwise_iff_getElem.mp hd s s' hlt hlt' hlt₁) (hoverlap hin hin' heq)
    · rfl
    · exact absurd (List.pairwise_iff_getElem.mp hd s' s hlt' hlt hlt₁) (hoverlap hin' hin heq.symm)
  subst hss
  cases hds.symm.trans hds'
  refine ⟨rfl, ?_⟩
  simp only [minPageSize] at heq
  omega

theorem Takes.fromFirst (h : m.Takes n s 0 a m') (hsame : (initializePhase0 descs).SameSegments m)
    (hd : descs.Pairwise BootMemoryDesc.Disjoint) (hs : s < m.segmentsCount)
    (hk : n s 0 < (m.segment s).totalPages) (hfirst : m.FromFirst n) :
    FromFirst { m' with returned := m'.returned ++ [a] } (bump n s 0) := by
  have hnew : a ∉ m.returned := fun ha ↦ by
    obtain ⟨s', hs', k', hk', htot, he⟩ := hfirst.2 a ha
    obtain ⟨rfl, rfl⟩ := hsame.eq_of_hasPage hd hs hs' hk htot (h.addr.symm.trans he)
    exact lt_irrefl _ hk'
  have hpfn : ∀ s k, (m'.segment s).pfnToPaddr k = (m.segment s).pfnToPaddr k := fun s k ↦ by
    simp only [PhysicalSegment.pfnToPaddr, h.same.base]
  simp only [FromFirst, h.returned, h.same.count, h.same.pages, hpfn]
  refine ⟨List.nodup_append.mpr ⟨hfirst.1, by simp, ?_⟩, fun b hb ↦ ?_⟩
  · rintro b hb c hc rfl
    exact hnew (List.mem_singleton.mp hc ▸ hb)
  · rcases List.mem_append.mp hb with hb | hb
    · obtain ⟨s', hs', k', hk', htot, he⟩ := hfirst.2 b hb
      refine ⟨s', hs', k', ?_, htot, he⟩
      rw [bump_apply]
      split
      · rename_i h
        rw [h.1] at hk'
        exact Nat.lt_succ_of_lt hk'
      · exact hk'
    · cases List.mem_singleton.mp hb
      exact ⟨s, hs, n s 0, by simp [bump_apply], hk, h.addr⟩

/-- **Physical pages are handed out once**, as long as they come from the first bucket of a segment
and are in the segment. -/
theorem pages_distinct (hd : descs.Pairwise BootMemoryDesc.Disjoint)
    (h : (machine descs).ReachableWhile InFirstBucket m) : m.returned.Nodup := by
  obtain ⟨n, hfirst, -⟩ := invariant_takes (I := FromFirst)
    ⟨List.nodup_nil, fun a ha ↦ absurd ha List.not_mem_nil⟩
    (fun m n c s i a m' hsame _ hfirst hc hs hi hnext hused htakes ↦ by
      obtain ⟨rfl, hk⟩ := hc s hs i hi hnext
      exact htakes.fromFirst hsame hd hs (hused ▸ hk) hfirst) h
  exact hfirst.1

/-- 64 MiB and one page. -/
def twoBuckets : BootMemoryDesc := ⟨.free, 8192, 16385 * 4096, by decide⟩

/-- Another 8 KiB. -/
def smallSegment : BootMemoryDesc := ⟨.free, 0, 8192, by decide⟩

/-- Two CPUs with pages of different segments. -/
theorem pages_distinct_two_cpus :
    ((machine [smallSegment, ⟨.free, 8192, 4096, by decide⟩]).afterWhile InFirstBucket
      [0, 0, 1]).returned = [0, 4096, 8192] ∧ [0, 4096, 8192].Nodup := by
  have h :=
    pages_distinct (show [smallSegment, ⟨.free, 8192, 4096, by decide⟩].Pairwise _ by decide)
    (Machine.reachableWhile_afterWhile [0, 0, 1])
  have he : ((machine [smallSegment, ⟨.free, 8192, 4096, by decide⟩]).afterWhile InFirstBucket
      [0, 0, 1]).returned = [0, 4096, 8192] := by decide +kernel
  exact ⟨he, he ▸ h⟩

/-- Two CPUs rent the two buckets of one segment, and both get its first page. -/
theorem page_returned_twice : ∃ m, (machine [twoBuckets]).Reachable m ∧
    [twoBuckets].Pairwise BootMemoryDesc.Disjoint ∧ m.returned = [8192, 8192] ∧
      ¬ m.returned.Nodup :=
  ⟨(machine [twoBuckets]).after [0, 1], Machine.reachable_after _, by decide +kernel⟩

/-! ## Free memory -/

/-- No segment is larger than the chip's array for it. -/
def WithinChip (descs : List BootMemoryDesc) (sizes : List ℕ) : Prop :=
  ∀ (s : ℕ) (d : BootMemoryDesc), descs[s]? = some d → ∃ size ∈ sizes[s]?, d.sizeBytes ≤ size

/-- The segment that the CPU takes its next page from is free memory, and so large that its
buckets up to there are full of pages. -/
def InFreeMemory (descs : List BootMemoryDesc) (m : PhysicalMemory) (c : CpuId) : Prop :=
  ∀ s < m.segmentsCount, ∀ i < (m.segment s).pt01Count, m.Next c s i →
    (∃ d ∈ descs[s]?, d.kind = .free) ∧
      i * PageTable0.maxPages + m.used c < (m.segment s).totalPages

instance (m : PhysicalMemory) (c : CpuId) : Decidable (m.InFreeMemory descs c) := by
  unfold InFreeMemory; infer_instance

/-- What was handed out is free memory, and what was accessed are tables. -/
def OnlyFree (descs : List BootMemoryDesc) (sizes : List ℕ) (m : PhysicalMemory) : Prop :=
  (∀ a ∈ m.returned, ∃ d ∈ descs, d.kind = .free ∧ d.HasPage a) ∧
    ∀ s j, (s, j) ∈ m.accessed → ∃ size ∈ sizes[s]?, j < maxPt2Count size

/-- The level-2 table of a page that the segment has is in the chip's array. -/
theorem SameSegments.table_lt (h : (initializePhase0 descs).SameSegments m)
    (hchip : WithinChip descs sizes) (hs : s < m.segmentsCount)
    (hk : i * PageTable0.maxPages + k < (m.segment s).totalPages) :
    ∃ size ∈ sizes[s]?,
      PhysicalSegment.pt2BucketBase i + k / PageTable2.maxPages < maxPt2Count size := by
  obtain ⟨d, hd, -, hpages⟩ := h.desc hs
  obtain ⟨size, hsize, hle⟩ := hchip s d hd
  refine ⟨size, hsize, ?_⟩
  have hmax : d.sizeBytes / minPageSize ≤ size / minPageSize := Nat.div_le_div_right hle
  have hceil : size / minPageSize ≤ maxPt2Count size * PageTable2.maxPages := by
    rw [maxPt2Count, ceilDiv]
    split
    · rw [Nat.add_mul, Nat.one_mul]
      exact (Nat.lt_div_mul_add (by decide)).le
    · exact Nat.le_of_not_lt ‹_›
  rw [hpages] at hk
  simp only [PhysicalSegment.pt2BucketBase, PageTable0.maxPages, PageTable1.maxEntries,
    PageTable2.maxPages] at *
  omega

theorem Takes.onlyFree (h : m.Takes n s i a m') (hsame : (initializePhase0 descs).SameSegments m)
    (hchip : WithinChip descs sizes) (hs : s < m.segmentsCount)
    (hkind : (∃ d ∈ descs[s]?, d.kind = .free))
    (hk : i * PageTable0.maxPages + n s i < (m.segment s).totalPages)
    (hfree : m.OnlyFree descs sizes) :
    OnlyFree descs sizes { m' with returned := m'.returned ++ [a] } := by
  simp only [OnlyFree, h.returned, h.accessed, List.mem_append, List.mem_singleton]
  refine ⟨fun b hb ↦ ?_, fun s' j hj' ↦ ?_⟩
  · rcases hb with hb | rfl
    · exact hfree.1 b hb
    · obtain ⟨d, hd, ha, hin⟩ := hsame.hasPage hs ((Nat.le_add_left _ _).trans_lt hk)
      obtain ⟨d', hd', hkind⟩ := hkind
      cases hd.symm.trans hd'
      exact ⟨d, List.mem_of_getElem? hd, hkind, h.addr ▸ ha ▸ hin⟩
  · rcases hj' with hj' | he
    · exact hfree.2 s' j hj'
    · cases he
      exact hsame.table_lt hchip hs hk

/-- **Only existing free memory is handed out**, as long as the pages come from segments of free
memory and no further from their start than these are long. -/
theorem pages_in_free_memory (hchip : WithinChip descs sizes)
    (h : (machine descs).ReachableWhile (InFreeMemory descs) m) :
    (∀ a ∈ m.returned, ∃ d ∈ descs, d.kind = .free ∧ d.HasPage a) ∧
      ∀ s j, (s, j) ∈ m.accessed → ∃ size ∈ sizes[s]?, j < maxPt2Count size := by
  obtain ⟨n, hfree, -⟩ := invariant_takes (I := fun m _ ↦ m.OnlyFree descs sizes)
    ⟨fun a ha ↦ absurd ha List.not_mem_nil, fun s j h ↦ absurd h List.not_mem_nil⟩
    (fun m n c s i a m' hsame _ hI hc hs hi hnext hused htakes ↦ by
      obtain ⟨hkind, hk⟩ := hc s hs i hi hnext
      exact htakes.onlyFree hsame hchip hs hkind (hused ▸ hk) hI) h
  exact hfree

theorem pages_in_free_memory_two_buckets :
    ((machine [twoBuckets]).afterWhile (InFreeMemory [twoBuckets]) [0, 1]).accessed =
      [(0, 0), (0, 32)] ∧
    ∀ s j, (s, j) ∈ [(0, 0), (0, 32)] → ∃ size ∈ [128 * 1024 * 1024][s]?, j < maxPt2Count size := by
  have hchip : WithinChip [twoBuckets] [128 * 1024 * 1024] := by
    rintro s d hd
    obtain ⟨hlt, rfl⟩ := List.getElem?_eq_some_iff.mp hd
    obtain rfl : s = 0 := Nat.lt_one_iff.mp hlt
    exact ⟨_, rfl, show twoBuckets.sizeBytes ≤ _ by decide⟩
  have h := pages_in_free_memory hchip (Machine.reachableWhile_afterWhile
    (M := machine [twoBuckets]) (c := InFreeMemory [twoBuckets]) [0, 1])
  have he : ((machine [twoBuckets]).afterWhile (InFreeMemory [twoBuckets]) [0, 1]).accessed =
      [(0, 0), (0, 32)] := by decide +kernel
  exact ⟨he, he ▸ h.2⟩

/-- A page of reserved memory is handed out, and one that lies behind a segment of 8 KiB. -/
theorem page_outside_free_memory :
    (∃ m, (machine [⟨.reserved, 8192, 8192, by decide⟩]).Reachable m ∧ m.returned = [8192]) ∧
      ∃ m, (machine [smallSegment]).Reachable m ∧ 8192 ∈ m.returned ∧ ¬ smallSegment.HasPage 8192 :=
  ⟨⟨_, Machine.reachable_after [0], by decide +kernel⟩,
    ⟨_, Machine.reachable_after [0, 0, 0], by decide +kernel⟩⟩

end PhysicalMemory

end Chino
