import Chino.ErrorCode
import Chino.Library.Run
import Chino.Mm.PageTable
import Mathlib.Algebra.GroupWithZero.Nat

/-!
# The physical allocator

Each descriptor of the boot options becomes a segment, with a level-0 entry for every started 64
MiB.  A CPU rents one bucket at a time, and takes its pages from there.

Here the calls of `allocate_page` run one after another, on any CPUs.  `returned` and `accessed`
record the addresses that were handed out and the level-2 tables that were accessed, as indices into
the array of their segment.

The `kind` of a descriptor is in the model although no function here reads it.  The loop of
`allocate_page` has as many rounds as there are level-0 entries, and one more: every round but the
last rents one (`allocatePage_ne_none`).

## What is modelled

`initialize_phase0` makes a segment of each descriptor.  The number of pages is the length divided
by 4096, and the numbers of level-2 tables and of level-0 entries are two roundings up of it, one
after the other; each entry starts with the count of a full bucket.  The arrays of the chip have
their own sizes, by the template parameters (`maxPt2Count`), and nothing compares the two.

An address of a page is computed by `pfn_to_paddr` from the base of the segment and an index.
Lengths and addresses are natural numbers; a descriptor whose end is no address cannot be written
down (`BootMemoryDesc`).
-/

set_option autoImplicit false

namespace Chino

open Function (update)

/-- CPUs are numbered. -/
abbrev CpuId := ℕ

/-! ## Boot options -/

/-- `boot_memory_kind` -/
inductive BootMemoryKind where
  | free
  | boot
  | kernel
  | reserved
deriving DecidableEq

/-- `hal::arch_t::min_page_size` -/
def minPageSize : ℕ := 4096

/-- The number of values of `uintptr_t`. -/
def addressSpace : ℕ := 2 ^ 64

/-- `boot_memory_desc`: memory that exists has addresses. -/
structure BootMemoryDesc where
  kind : BootMemoryKind
  physicalAddress : ℕ
  sizeBytes : ℕ
  le : physicalAddress + sizeBytes ≤ addressSpace
deriving DecidableEq

/-- `ceil_div` -/
def ceilDiv (divisor dividend : ℕ) : ℕ :=
  if divisor / dividend * dividend < divisor then divisor / dividend + 1 else divisor / dividend

/-! ## Segments -/

namespace PageTable0

/-- `page_table_0::max_pages` -/
def maxPages : ℕ := PageTable2.maxPages * PageTable1.maxEntries

/-- `page_table_0::initial_value` -/
def initialValue : ℕ := maxPages * 2

end PageTable0

/-- `physical_segment` -/
structure PhysicalSegment where
  physicalAddressBase : ℕ
  totalPages : ℕ
  pt0 : ℕ → ℕ
  pt1 : ℕ → ℕ → ℕ
  pt2 : ℕ → PageTable2

namespace PhysicalSegment

/-- A segment with the tables as the constructors leave them. -/
def init : PhysicalSegment where
  physicalAddressBase := 0
  totalPages := 0
  pt0 _ := PageTable0.initialValue
  pt1 _ := Bucket.init.entries
  pt2 _ := .init

/-- `initialize` -/
def initializeSegment (s : PhysicalSegment) (physicalAddress sizeBytes : ℕ) : PhysicalSegment :=
  { s with
    physicalAddressBase := physicalAddress
    totalPages := sizeBytes / minPageSize }

/-- The number of level-2 tables. -/
def pt2Count (s : PhysicalSegment) : ℕ := ceilDiv s.totalPages PageTable2.maxPages

/-- The number of level-0 entries. -/
def pt01Count (s : PhysicalSegment) : ℕ := ceilDiv s.pt2Count PageTable1.maxEntries

/-- `&pt2(pt01_index * page_table_1::max_entries)` -/
def pt2BucketBase (pt01Index : ℕ) : ℕ := pt01Index * PageTable1.maxEntries

/-- The level-1 table of a level-0 entry, with its level-2 tables. -/
def bucket (s : PhysicalSegment) (i : ℕ) : Bucket :=
  ⟨s.pt1 i, fun e ↦ s.pt2 (pt2BucketBase i + e)⟩

/-- The tables of a bucket change. -/
def setBucket (s : PhysicalSegment) (i : ℕ) (b : Bucket) : PhysicalSegment :=
  { s with
    pt1 := update s.pt1 i b.entries
    pt2 := fun j ↦ if j / PageTable1.maxEntries = i then b.pt2 (j % PageTable1.maxEntries)
      else s.pt2 j }

/-- The address of a page. -/
def pfnToPaddr (s : PhysicalSegment) (pfn : ℕ) : ℕ :=
  (s.physicalAddressBase + pfn * minPageSize) % addressSpace

/-- `rent`: the level-0 entry, and the number of its free pages. -/
def rent (s : PhysicalSegment) : Option ((ℕ × ℕ) × PhysicalSegment) :=
  ((List.range s.pt01Count).find? fun i ↦ s.pt0 i % 2 = 0).map fun i ↦
    ((i, s.pt0 i / 2), { s with pt0 := update s.pt0 i 1 })

end PhysicalSegment

/-- The arrays of `inline_physical_segment<MaxSizeBytes>`. -/
def maxPt2Count (maxSizeBytes : ℕ) : ℕ := ceilDiv (maxSizeBytes / minPageSize) PageTable2.maxPages

/-! ## The allocators of the CPUs -/

/-- `cpu_physical_allocator` -/
structure CpuPhysicalAllocator where
  segmentIndex : ℕ
  pt01Index : ℕ
  freePages : ℕ
deriving DecidableEq

/-- The segments, the allocators of the CPUs, and what was handed out and accessed. -/
structure PhysicalMemory where
  segmentsCount : ℕ
  segment : ℕ → PhysicalSegment
  cpu : CpuId → CpuPhysicalAllocator
  returned : List ℕ
  accessed : List (ℕ × ℕ)

namespace PhysicalMemory

/-- `physical_allocator::initialize_phase0` -/
def initializePhase0 (descs : List BootMemoryDesc) : PhysicalMemory where
  segmentsCount := descs.length
  segment i :=
    match descs[i]? with
    | some desc => PhysicalSegment.init.initializeSegment desc.physicalAddress desc.sizeBytes
    | none => .init
  cpu _ := ⟨0, 0, 0⟩
  returned := []
  accessed := []

/-- `rent_new_pt0` -/
def rentNewPt0 (m : PhysicalMemory) (c : CpuId) : Option PhysicalMemory :=
  (List.range m.segmentsCount).findSome? fun s ↦
    (m.segment s).rent.map fun ((i, freePages), seg) ↦ { m with
      segment := update m.segment s seg
      cpu := update m.cpu c ⟨s, i, freePages⟩ }

/-- The `compare_exchange` on `free_pages_`. -/
def reserve (m : PhysicalMemory) (c : CpuId) : PhysicalMemory :=
  { m with cpu := update m.cpu c { m.cpu c with freePages := (m.cpu c).freePages - 1 } }

/-- A page of the current bucket, after it was reserved. -/
def takePage (m : PhysicalMemory) (c : CpuId) : Option (ℕ × PhysicalMemory) :=
  let a := m.cpu c
  let seg := m.segment a.segmentIndex
  match (seg.bucket a.pt01Index).take with
  | some (some (e, j), b) => some (seg.pfnToPaddr (Bucket.index (e, j)), { m with
      segment := update m.segment a.segmentIndex (seg.setBucket a.pt01Index b)
      accessed := m.accessed ++ [(a.segmentIndex, PhysicalSegment.pt2BucketBase a.pt01Index + e)] })
  | _ => none

/-- The loop of `allocate_page`, for a number of rounds. -/
def allocateLoop (c : CpuId) : ℕ → PhysicalMemory → Option (Except ErrorCode ℕ × PhysicalMemory)
  | 0, _ => none
  | n + 1, m =>
    if 0 < (m.cpu c).freePages then
      ((m.reserve c).takePage c).map fun (a, m') ↦ (.ok a, m')
    else
      match m.rentNewPt0 c with
      | some m' => m'.allocateLoop c n
      | none => some (.error .outOfMemory, m)

/-- The number of level-0 entries. -/
def entryCount (m : PhysicalMemory) : ℕ :=
  ((List.range m.segmentsCount).map fun s ↦ (m.segment s).pt01Count).sum

/-- `cpu_physical_allocator::allocate_page`, which tries an entry after the other. -/
def allocatePage (m : PhysicalMemory) (c : CpuId) : Option (Except ErrorCode ℕ × PhysicalMemory) :=
  m.allocateLoop c (m.entryCount + 1)

/-- The calls of `allocate_page`, one after another. -/
def next (m : PhysicalMemory) (c : CpuId) : Option PhysicalMemory :=
  match m.allocatePage c with
  | some (.ok a, m') => some { m' with returned := m'.returned ++ [a] }
  | some (.error _, m') => some m'
  | none => none

/-- Runs of `allocate_page` on the memory that was booted. -/
def machine (descs : List BootMemoryDesc) : Machine PhysicalMemory CpuId where
  init := initializePhase0 descs
  next := next

end PhysicalMemory

end Chino
