import Chino.Library.Chain
import Chino.Library.Memory
import Chino.Mm.Physical
import Mathlib.Data.List.Chain

/-!
# The list of free pages

`free_page_list::initialize` threads a list through the free memory.  The first word of each page is
the `next` of its node, the second one its `pages`; the next page is that many pages further on.
But `pages` is only ever read, so where the loop goes is up to what the memory held before.

All of the address space can be read and written here, so a loop that goes astray writes where it
comes to.  It never writes over a part of a node of its own descriptor, for all its nodes have the
same offset in their page (`Leads`); this is why nothing mends the list later, and why `covers_iff`
is an equivalence: the list covers the free memory just in case the memory already held the right
`pages`.

## The loop, seen from the end

What the inner loop visits depends on what it finds in memory, and it changes memory while it goes.
Three observations make this tractable.

* Nobody writes `pages` (`pages_setNext`), so the end of each node is what the memory held at the
  start, unless a link is written over it.
* A link never hits a node of a descriptor in part, because all nodes that the loop can get to
  within it have the same offset (`NoClash`, `Clear`).
* So whatever the loop has linked leads, in the end, to what it has linked next (`Leads`).  If in
  the end every page leads to the next one, then the loop went from each page to the next
  (`trail_eq_of_next`, `trails_eq_of_next`).

`covers_iff` compares the finished list with the list of all free pages.  For descriptors without
common addresses it is an equivalence, with a condition on the previous contents of the memory
alone: a one in the second word of every free page but the last of its descriptor (or what amounts
to a one), and no free page at the null address.
-/

set_option autoImplicit false

namespace Chino

/-- Addresses, which wrap around. -/
abbrev Address := BitVec 64

/-- What `initialize` reads of a `boot_memory_desc`. -/
structure VirtualMemoryDesc where
  kind : BootMemoryKind
  virtualAddress : Address
  sizeBytes : BitVec 64
  le : virtualAddress.toNat + sizeBytes.toNat ≤ addressSpace
deriving DecidableEq

/-! ## Nodes -/

namespace FreePageNode

/-- `next` -/
def next (m : Memory 64) (node : Address) : Address := m.load 8 node

/-- The link of a node, which is in its first word. -/
def setNext (m : Memory 64) (node v : Address) : Memory 64 := m.store 8 node v

/-- `pages` -/
def pages (m : Memory 64) (node : Address) : BitVec 64 := m.load 8 (node + 8)

/-- `end()` -/
def nodeEnd (m : Memory 64) (node : Address) : Address := node + pages m node * 4096

end FreePageNode

/-- The local variables of `initialize`, and the memory. -/
structure ListBuilder where
  memory : Memory 64
  head : Address
  prev : Address

namespace ListBuilder

open FreePageNode

/-- A node is put behind the last one. -/
def link (s : ListBuilder) (node : Address) : ListBuilder :=
  if s.prev ≠ 0 then { s with memory := setNext s.memory s.prev node, prev := node }
  else { s with head := node, prev := node }

/-- The inner loop. -/
def linkPages (s : ListBuilder) : ℕ → Address → ListBuilder
  | 0, _ => s
  | n + 1, node => (s.link node).linkPages n (nodeEnd (s.link node).memory node)

/-- `if (prev) prev->next = nullptr;` -/
def finish (s : ListBuilder) : ListBuilder :=
  if s.prev ≠ 0 then { s with memory := setNext s.memory s.prev 0 } else s

end ListBuilder

/-- A `free_page_list`, and the memory. -/
structure FreePageList where
  memory : Memory 64
  head : Address
  availPages : BitVec 64

namespace FreePageList

/-- The body of the outer loop. -/
def addDesc (s : ListBuilder × BitVec 64) (desc : VirtualMemoryDesc) : ListBuilder × BitVec 64 :=
  if desc.kind = .free then
    let pages := desc.sizeBytes / 4096
    (s.1.linkPages pages.toNat desc.virtualAddress, s.2 + pages)
  else s

/-- `initialize`, of a list that is new. -/
def initializeList (m : Memory 64) (descs : List VirtualMemoryDesc) : FreePageList :=
  let (s, availPages) := descs.foldl addDesc (⟨m, 0, 0⟩, 0)
  ⟨s.finish.memory, s.finish.head, availPages⟩

end FreePageList

/-! ## What the list is for -/

/-- The first bytes of `n` pages, one behind the other. -/
def pagesFrom (n : ℕ) (a : Address) : List Address :=
  (List.range n).map fun i ↦ a + BitVec.ofNat 64 (i * 4096)

namespace VirtualMemoryDesc

/-- An address of the memory. -/
def Has (desc : VirtualMemoryDesc) (a : ℕ) : Prop :=
  desc.virtualAddress.toNat ≤ a ∧ a < desc.virtualAddress.toNat + desc.sizeBytes.toNat

/-- The number of its whole pages, if it is free. -/
def freePages (desc : VirtualMemoryDesc) : ℕ :=
  if desc.kind = .free then desc.sizeBytes.toNat / 4096 else 0

/-- The first bytes of its pages. -/
def freeNodes (desc : VirtualMemoryDesc) : List Address :=
  pagesFrom desc.freePages desc.virtualAddress

end VirtualMemoryDesc

/-- The first bytes of all pages that are free. -/
def freeNodes (descs : List VirtualMemoryDesc) : List Address :=
  descs.flatMap VirtualMemoryDesc.freeNodes

/-- The list is the list of the free pages. -/
structure FreePageList.Covers (l : FreePageList) (descs : List VirtualMemoryDesc) : Prop where
  chain : Chain id 0 (FreePageNode.next l.memory) l.head (freeNodes descs)
  /-- No node is where the list ends. -/
  ne_null : 0 ∉ freeNodes descs
  nodup : (freeNodes descs).Nodup
  availPages : l.availPages.toNat = (freeNodes descs).length

/-! ## Nodes that do not overlap -/

/-- The words of two nodes are apart. -/
def Apart (x a : Address) : Prop := 16 ≤ (a - x).toNat ∧ 16 ≤ (x - a).toNat

/-- Two nodes do not overlap in part. -/
def NoClash (x a : Address) : Prop := x = a ∨ Apart x a

section Apart

variable {m : Memory 64} {x a v : Address}

theorem Apart.symm (h : Apart x a) : Apart a x := ⟨h.2, h.1⟩

instance : Std.Symm Apart := ⟨fun _ _ h ↦ h.symm⟩

theorem Apart.ne (h : Apart x a) : x ≠ a := by
  rintro rfl
  simp [Apart] at h

theorem NoClash.apart (h : NoClash x a) (hne : x ≠ a) : Apart x a := h.resolve_left hne

theorem noClash_of_mem {S : List Address} (hS : S.Pairwise Apart) (hx : x ∈ S) (ha : a ∈ S) :
    NoClash x a := by
  by_cases hne : x = a
  · exact .inl hne
  · exact .inr (hS.forall hx ha hne)

/-- Two pages of a descriptor. -/
theorem noClash_of_mod (h : x.toNat % 4096 = a.toNat % 4096) : NoClash x a := by
  by_cases hne : x = a
  · exact .inl hne
  · have hne' : x.toNat ≠ a.toNat := fun he ↦ hne (BitVec.eq_of_toNat_eq he)
    refine .inr ⟨?_, ?_⟩ <;> rw [BitVec.toNat_sub] <;> omega

/-- Two pages that do not overlap. -/
theorem apart_of_le (h : x.toNat + 4096 ≤ a.toNat) (ha : a.toNat + 4096 ≤ addressSpace) :
    Apart x a := by
  have hs : addressSpace = 2 ^ 64 := rfl
  constructor <;> rw [BitVec.toNat_sub] <;> omega

namespace FreePageNode

theorem next_setNext : next (setNext m a v) a = v := Memory.load_store (by decide)

theorem next_setNext_of_apart (h : Apart x a) : next (setNext m x v) a = next m a := by
  refine Memory.load_store_of_disjoint ?_ ?_
  · exact le_trans (by decide) h.1
  · exact le_trans (by decide) h.2

/-- Nobody writes `pages`. -/
theorem pages_setNext (h : NoClash x a) : pages (setNext m x v) a = pages m a := by
  have h8 : (8 : Address).toNat = 8 := rfl
  have hdist : 8 ≤ (a + 8 - x).toNat ∧ 8 ≤ (x - (a + 8)).toNat := by
    rw [BitVec.toNat_sub, BitVec.toNat_sub, BitVec.toNat_add, h8]
    rcases h with rfl | ⟨h₁, h₂⟩
    · omega
    · rw [BitVec.toNat_sub] at h₁ h₂
      omega
  exact Memory.load_store_of_disjoint hdist.1 hdist.2

theorem nodeEnd_setNext (h : NoClash x a) : nodeEnd (setNext m x v) a = nodeEnd m a := by
  rw [nodeEnd, pages_setNext h, nodeEnd]

theorem nodeEnd_mod (m : Memory 64) (a : Address) :
    (nodeEnd m a).toNat % 4096 = a.toNat % 4096 := by
  have h4096 : (4096 : Address).toNat = 4096 := rfl
  rw [nodeEnd, BitVec.toNat_add, BitVec.toNat_mul, h4096]
  omega

end FreePageNode

end Apart

/-! ## What the loops link -/

namespace ListBuilder

open FreePageNode

variable {s : ListBuilder} {c p q y w : Address} {n : ℕ} {xs : List Address}

@[simp] theorem link_prev (s : ListBuilder) (c : Address) : (s.link c).prev = c := by
  rw [link]
  split <;> rfl

/-- The write of `link` does not hit a node in part. -/
def Clear (s : ListBuilder) (q : Address) : Prop := s.prev = 0 ∨ NoClash s.prev q

theorem next_link (hq : q ≠ 0) (h : s.Clear q) :
    next (s.link c).memory q = if s.prev = q then c else next s.memory q := by
  rcases eq_or_ne s.prev 0 with h0 | h0
  · rw [link, if_neg (not_not_intro h0), if_neg (h0 ▸ hq.symm)]
  · rw [link, if_pos h0]
    split
    · rename_i hp
      exact hp ▸ next_setNext
    · rename_i hp
      exact next_setNext_of_apart ((h.resolve_left h0).apart hp)

theorem nodeEnd_link (h : s.Clear q) : nodeEnd (s.link c).memory q = nodeEnd s.memory q := by
  rw [link]
  split
  · rename_i h0
    exact nodeEnd_setNext (h.resolve_left h0)
  · rfl

/-- The end of the list is written like a link. -/
theorem finish_memory (s : ListBuilder) : s.finish.memory = (s.link 0).memory := by
  rw [finish, link]
  split <;> rfl

theorem finish_head (s : ListBuilder) : s.finish.head = s.head := by
  rw [finish]
  split <;> rfl

/-- **Links elsewhere.**  A node keeps its successor, and if it is the last one, it gets the first
of the nodes that come next. -/
theorem next_foldl (hq : q ≠ 0) (h : s.Clear q) (hxs : ∀ x ∈ xs, Apart x q) :
    next (xs.foldl link s).finish.memory q =
      if s.prev = q then xs.head?.getD 0 else next s.memory q := by
  induction xs generalizing s with
  | nil => rw [List.foldl_nil, finish_memory, next_link hq h, List.head?_nil, Option.getD_none]
  | cons x xs ih =>
    have hx : Apart x q := hxs x List.mem_cons_self
    have hclear : (s.link x).Clear q := .inr (by rw [link_prev]; exact .inr hx)
    rw [List.foldl_cons, ih hclear fun z hz ↦ hxs z (List.mem_cons_of_mem _ hz), link_prev,
      if_neg hx.ne, next_link hq h, List.head?_cons, Option.getD_some]

/-- **A list of nodes that are apart is threaded through them.** -/
theorem chain_foldl (hap : xs.Pairwise Apart) (h0 : 0 ∉ xs) :
    Chain id 0 (next (xs.foldl link s).finish.memory) (xs.head?.getD 0) xs := by
  induction xs generalizing s with
  | nil => rfl
  | cons x xs ih =>
    rw [List.pairwise_cons] at hap
    rw [List.mem_cons, not_or] at h0
    refine ⟨rfl, ?_⟩
    have hx : next (xs.foldl link (s.link x)).finish.memory x = xs.head?.getD 0 := by
      rw [next_foldl (Ne.symm h0.1) (.inr (.inl (link_prev ..))) fun z hz ↦ (hap.1 z hz).symm,
        link_prev, if_pos rfl]
    rw [List.foldl_cons, hx]
    exact ih hap.2 h0.2

theorem head_foldl (hs : s.prev ≠ 0) (h0 : 0 ∉ xs) : (xs.foldl link s).head = s.head := by
  induction xs generalizing s with
  | nil => rfl
  | cons x xs ih =>
    rw [List.mem_cons, not_or] at h0
    rw [List.foldl_cons, ih (by rw [link_prev]; exact Ne.symm h0.1) h0.2, link, if_pos hs]

/-- The nodes that the inner loop links. -/
def trail (s : ListBuilder) : ℕ → Address → List Address
  | 0, _ => []
  | n + 1, node => node :: (s.link node).trail n (nodeEnd (s.link node).memory node)

theorem length_trail : (s.trail n c).length = n := by
  induction n generalizing s c with
  | zero => rfl
  | succ n ih => rw [trail, List.length_cons, ih]

theorem linkPages_eq : s.linkPages n c = (s.trail n c).foldl link s := by
  induction n generalizing s c with
  | zero => rfl
  | succ n ih => rw [linkPages, trail, List.foldl_cons, ih]

/-- What a descriptor does to the list. -/
def linkDesc (s : ListBuilder) (desc : VirtualMemoryDesc) : ListBuilder :=
  s.linkPages desc.freePages desc.virtualAddress

/-- The loop of the constructor, over the descriptors. -/
def linkAll (s : ListBuilder) (descs : List VirtualMemoryDesc) : ListBuilder :=
  descs.foldl linkDesc s

/-- The nodes that the loops link. -/
def trails (s : ListBuilder) : List VirtualMemoryDesc → List Address
  | [] => []
  | desc :: descs => s.trail desc.freePages desc.virtualAddress ++ (s.linkDesc desc).trails descs

theorem linkAll_eq (s : ListBuilder) (descs : List VirtualMemoryDesc) :
    s.linkAll descs = (s.trails descs).foldl link s := by
  induction descs generalizing s with
  | nil => rfl
  | cons desc descs ih =>
    rw [trails, List.foldl_append, ← linkPages_eq]
    exact ih (s.linkDesc desc)

end ListBuilder

theorem pagesFrom_succ (n : ℕ) (a : Address) :
    pagesFrom (n + 1) a = a :: pagesFrom n (a + 4096) := by
  rw [pagesFrom, List.range_succ_eq_map, List.map_cons, List.map_map, pagesFrom]
  refine List.cons_eq_cons.mpr ⟨by simp, List.map_congr_left fun i _ ↦ ?_⟩
  have hi : (i + 1) * 4096 = 4096 + i * 4096 := by omega
  rw [Function.comp_apply, Nat.succ_eq_add_one, hi, BitVec.ofNat_add, ← BitVec.add_assoc]
  rfl

theorem length_pagesFrom (n : ℕ) (a : Address) : (pagesFrom n a).length = n := by
  rw [pagesFrom, List.length_map, List.length_range]

theorem mod_of_mem_pagesFrom {n : ℕ} {a q : Address} (hq : q ∈ pagesFrom n a) :
    q.toNat % 4096 = a.toNat % 4096 := by
  obtain ⟨i, -, rfl⟩ := List.mem_map.mp hq
  rw [BitVec.toNat_add, BitVec.toNat_ofNat]
  omega

namespace ListBuilder

open FreePageNode

variable {s : ListBuilder} {c p q y w : Address} {n : ℕ} {xs : List Address}

/-! ## A loop that goes astray

All nodes that the inner loop links have the offset of the first one in their page, so none of them
overlaps another one in part, and whenever the loop comes back to a node it goes on as before. -/

/-- The node `p` leads to `y`: it has been linked, and nothing but `y` is linked behind it. -/
structure Leads (s : ListBuilder) (p y c : Address) : Prop where
  prev : s.prev.toNat % 4096 = p.toNat % 4096
  node : c.toNat % 4096 = p.toNat % 4096
  nodeEnd : nodeEnd s.memory p = y
  goesOn : s.prev = p → c = y
  next : s.prev = p ∨ next s.memory p = y

theorem Leads.link (h : s.Leads p y c) (hp : p ≠ 0) :
    (s.link c).Leads p y (FreePageNode.nodeEnd (s.link c).memory c) := by
  have hclear : s.Clear p := .inr (noClash_of_mod h.prev)
  have hend : FreePageNode.nodeEnd (s.link c).memory p = y := (nodeEnd_link hclear).trans h.nodeEnd
  refine ⟨?_, ?_, hend, ?_, .inr ?_⟩
  · rw [link_prev]
    exact h.node
  · rw [nodeEnd_mod]
    exact h.node
  · rw [link_prev]
    rintro rfl
    exact hend
  · rw [next_link hp hclear]
    split
    · exact h.goesOn ‹_›
    · exact h.next.resolve_left ‹_›

theorem Leads.linkPages (h : s.Leads p y c) (hp : p ≠ 0) :
    ∃ c', (s.linkPages n c).Leads p y c' := by
  induction n generalizing s c with
  | zero => exact ⟨c, h⟩
  | succ n ih => exact ih (h.link hp)

/-- A node that is linked leads to its end. -/
theorem leads_link (s : ListBuilder) (p : Address) :
    (s.link p).Leads p (FreePageNode.nodeEnd (s.link p).memory p)
      (FreePageNode.nodeEnd (s.link p).memory p) where
  prev := by rw [link_prev]
  node := nodeEnd_mod ..
  nodeEnd := rfl
  goesOn _ := rfl
  next := .inl (link_prev ..)

/-- The inner loop, seen from the end: if its nodes still lead from one page to the next when all is
done, it has not left them. -/
theorem trail_eq_of_next {next' : Address → Address} (h0 : 0 ∉ pagesFrom n p)
    (hw : w ∉ pagesFrom n p)
    (hnext : ∀ q ∈ pagesFrom n p, next' q =
      if (s.linkPages n p).prev = q then w else FreePageNode.next (s.linkPages n p).memory q)
    (hchain : (pagesFrom n p).IsChain fun a b ↦ next' a = b) : s.trail n p = pagesFrom n p := by
  induction n generalizing s p with
  | zero => rfl
  | succ n ih =>
    rw [pagesFrom_succ] at h0 hw hnext hchain ⊢
    rw [List.mem_cons, not_or] at h0 hw
    rw [trail]
    cases n with
    | zero => rfl
    | succ n =>
      -- the first page leads to where the loop goes, to `w` if it is the last one, or to the second
      have hsnd : pagesFrom (n + 1) (p + 4096) = (p + 4096) :: pagesFrom n (p + 4096 + 4096) :=
        pagesFrom_succ ..
      have hp : next' p = p + 4096 := by
        rw [hsnd, List.isChain_cons_cons] at hchain
        exact hchain.1
      obtain ⟨c, hl⟩ := (leads_link s p).linkPages (n := n + 1) (Ne.symm h0.1)
      have hy : FreePageNode.nodeEnd (s.link p).memory p = p + 4096 := by
        have hpn := hnext p List.mem_cons_self
        rw [hp] at hpn
        split at hpn
        · refine absurd ?_ hw.2
          rw [← hpn, hsnd]
          exact List.mem_cons_self
        · exact (hl.next.resolve_left ‹_›).symm.trans hpn.symm
      rw [hy, ih h0.2 hw.2 ?_ hchain.tail]
      intro q hq
      have hqn := hnext q (List.mem_cons_of_mem _ hq)
      rw [linkPages, hy] at hqn
      exact hqn

theorem clear_linkPages (h0 : 0 ∉ pagesFrom n p) (hq : q ∈ pagesFrom n p) :
    (s.linkPages n p).Clear q := by
  cases n with
  | zero => exact absurd hq List.not_mem_nil
  | succ n =>
    have hp : p ≠ 0 := by
      rintro rfl
      rw [pagesFrom_succ] at h0
      exact h0 List.mem_cons_self
    obtain ⟨c, hl⟩ := (leads_link s p).linkPages (n := n) hp
    exact .inr (noClash_of_mod (hl.prev.trans (mod_of_mem_pagesFrom hq).symm))

/-- **The outer loop, seen from the end.** -/
theorem trails_eq_of_next {descs : List VirtualMemoryDesc} (hap : (freeNodes descs).Pairwise Apart)
    (h0 : 0 ∉ freeNodes descs)
    (hchain : (freeNodes descs).IsChain
      fun a b ↦ FreePageNode.next (s.linkAll descs).finish.memory a = b) :
    s.trails descs = freeNodes descs := by
  induction descs generalizing s with
  | nil => rfl
  | cons desc descs ih =>
    have hcons : freeNodes (desc :: descs) = desc.freeNodes ++ freeNodes descs := List.flatMap_cons
    rw [hcons] at hap h0 hchain
    rw [List.pairwise_append] at hap
    rw [List.mem_append, not_or] at h0
    have htail : (s.linkDesc desc).trails descs = freeNodes descs :=
      ih hap.2.1 h0.2 hchain.right_of_append
    have hhead : s.trail desc.freePages desc.virtualAddress = desc.freeNodes := by
      refine trail_eq_of_next (w := (freeNodes descs).head?.getD 0) h0.1 ?_ ?_
        hchain.left_of_append
      · intro (hw : (freeNodes descs).head?.getD 0 ∈ desc.freeNodes)
        cases hd : freeNodes descs with
        | nil =>
          rw [hd] at hw
          exact h0.1 hw
        | cons x xs =>
          rw [hd] at hw
          exact (hap.2.2 x hw x (hd ▸ List.mem_cons_self)).ne rfl
      · intro q hq
        have hq0 : q ≠ 0 := fun he ↦ h0.1 (he ▸ hq)
        have hl : s.linkAll (desc :: descs) = (freeNodes descs).foldl link (s.linkDesc desc) := by
          rw [← htail, ← linkAll_eq]
          rfl
        rw [hl]
        exact next_foldl hq0 (clear_linkPages h0.1 hq) fun x hx ↦ (hap.2.2 q hq x hx).symm
    rw [trails, hhead, htail, hcons]

/-! ## A loop that does not

As long as only nodes of `S` are linked, their ends are where they were at first. -/

section Keeps

variable {m : Memory 64} {S : List Address} {descs : List VirtualMemoryDesc}

/-- The nodes in `S` have the ends they had, and the last node is one of them. -/
structure Keeps (m : Memory 64) (S : List Address) (s : ListBuilder) : Prop where
  prev : s.prev = 0 ∨ s.prev ∈ S
  nodeEnd : ∀ q ∈ S, nodeEnd s.memory q = nodeEnd m q

theorem Keeps.link (h : s.Keeps m S) (hS : S.Pairwise Apart) (hc : c ∈ S) :
    (s.link c).Keeps m S := by
  refine ⟨.inr (by rwa [link_prev]), fun q hq ↦ ?_⟩
  rw [nodeEnd_link ?_, h.nodeEnd q hq]
  exact h.prev.imp_right fun hp ↦ noClash_of_mem hS hp hq

theorem Keeps.foldl (h : s.Keeps m S) (hS : S.Pairwise Apart) (hxs : ∀ x ∈ xs, x ∈ S) :
    (xs.foldl ListBuilder.link s).Keeps m S := by
  induction xs generalizing s with
  | nil => exact h
  | cons x xs ih =>
    exact ih (h.link hS (hxs x List.mem_cons_self)) fun z hz ↦ hxs z (List.mem_cons_of_mem _ hz)

theorem Keeps.trail_eq_iff (h : s.Keeps m S) (hS : S.Pairwise Apart)
    (hp : ∀ x ∈ pagesFrom n p, x ∈ S) :
    s.trail n p = pagesFrom n p ↔
      (pagesFrom n p).IsChain fun a b ↦ FreePageNode.nodeEnd m a = b := by
  induction n generalizing s p with
  | zero => exact iff_of_true rfl .nil
  | succ n ih =>
    rw [pagesFrom_succ, List.forall_mem_cons] at hp
    rw [pagesFrom_succ, trail]
    cases n with
    | zero => exact iff_of_true rfl (.singleton _)
    | succ n =>
      have hl := h.link hS hp.1
      rw [hl.nodeEnd p hp.1, List.cons_eq_cons, and_iff_right rfl]
      have hsnd : pagesFrom (n + 1) (p + 4096) = (p + 4096) :: pagesFrom n (p + 4096 + 4096) :=
        pagesFrom_succ ..
      by_cases hy : FreePageNode.nodeEnd m p = p + 4096
      · rw [hy, ih hl hp.2, hsnd, List.isChain_cons_cons, and_iff_right hy]
      · refine iff_of_false (fun he ↦ hy ?_) (fun hc ↦ hy ?_)
        · rw [hsnd, trail] at he
          exact (List.cons_eq_cons.mp he).1
        · rw [hsnd, List.isChain_cons_cons] at hc
          exact hc.1

theorem Keeps.trails_eq_iff (h : s.Keeps m S) (hS : S.Pairwise Apart)
    (hd : ∀ x ∈ freeNodes descs, x ∈ S) : s.trails descs = freeNodes descs ↔
      ∀ desc ∈ descs, desc.freeNodes.IsChain fun a b ↦ FreePageNode.nodeEnd m a = b := by
  induction descs generalizing s with
  | nil => exact iff_of_true rfl fun _ hx ↦ absurd hx List.not_mem_nil
  | cons desc descs ih =>
    have hcons : freeNodes (desc :: descs) = desc.freeNodes ++ freeNodes descs := List.flatMap_cons
    rw [hcons, List.forall_mem_append] at hd
    have hiff : s.trail desc.freePages desc.virtualAddress = desc.freeNodes ↔
        desc.freeNodes.IsChain fun a b ↦ FreePageNode.nodeEnd m a = b := h.trail_eq_iff hS hd.1
    rw [hcons, trails, List.forall_mem_cons, ← hiff]
    have hlen : (s.trail desc.freePages desc.virtualAddress).length = desc.freeNodes.length :=
      length_trail.trans (length_pagesFrom ..).symm
    constructor
    · intro he
      obtain ⟨h₁, h₂⟩ := List.append_inj he hlen
      refine ⟨h₁, (ih ?_ hd.2).mp h₂⟩
      rw [linkDesc, linkPages_eq, h₁]
      exact h.foldl hS hd.1
    · rintro ⟨h₁, h₂⟩
      have hk : (s.linkDesc desc).Keeps m S := by
        rw [linkDesc, linkPages_eq, h₁]
        exact h.foldl hS hd.1
      rw [h₁, (ih hk hd.2).mpr h₂]

end Keeps

end ListBuilder

/-! ## Pages of memory that does not overlap -/

section Disjoint

variable {desc : VirtualMemoryDesc} {descs : List VirtualMemoryDesc} {x a : Address} {i n : ℕ}

/-- Descriptors without common addresses. -/
def Disjointed (descs : List VirtualMemoryDesc) : Prop :=
  descs.Pairwise fun desc desc' ↦ ∀ a, desc.Has a → ¬ desc'.Has a

namespace VirtualMemoryDesc

theorem freePages_mul_le (desc : VirtualMemoryDesc) :
    desc.freePages * 4096 ≤ desc.sizeBytes.toNat := by
  rw [freePages]
  split <;> omega

/-- A page lies behind the first byte as far as its index says. -/
theorem toNat_page (hi : i < desc.freePages) :
    (desc.virtualAddress + BitVec.ofNat 64 (i * 4096)).toNat =
      desc.virtualAddress.toNat + i * 4096 := by
  have hle := desc.le
  have hmul := desc.freePages_mul_le
  have hs : addressSpace = 2 ^ 64 := rfl
  rw [BitVec.toNat_add, BitVec.toNat_ofNat]
  omega

/-- A whole page is memory of its descriptor. -/
theorem has_of_mem (hx : x ∈ desc.freeNodes) :
    desc.virtualAddress.toNat ≤ x.toNat ∧
      x.toNat + 4096 ≤ desc.virtualAddress.toNat + desc.sizeBytes.toNat := by
  obtain ⟨i, hi, rfl⟩ := List.mem_map.mp hx
  have hlt := List.mem_range.mp hi
  have hmul := desc.freePages_mul_le
  rw [toNat_page hlt]
  omega

theorem apart_freeNodes (desc : VirtualMemoryDesc) : desc.freeNodes.Pairwise Apart := by
  rw [freeNodes, pagesFrom, List.pairwise_map]
  refine List.pairwise_lt_range.imp_of_mem fun hi hj hlt ↦ ?_
  have hle := desc.le
  have hmul := desc.freePages_mul_le
  rw [List.mem_range] at hi hj
  refine apart_of_le ?_ ?_
  · rw [toNat_page hi, toNat_page hj]
    omega
  · rw [toNat_page hj]
    omega

theorem zero_mem_freeNodes : 0 ∈ desc.freeNodes ↔
    0 < desc.freePages ∧ desc.virtualAddress = 0 := by
  constructor
  · intro h
    obtain ⟨i, hi, h0⟩ := List.mem_map.mp h
    have hlt := List.mem_range.mp hi
    have hsum := toNat_page hlt
    rw [h0] at hsum
    have hz : (0 : Address).toNat = 0 := rfl
    exact ⟨Nat.zero_lt_of_lt hlt, BitVec.eq_of_toNat_eq (by omega)⟩
  · rintro ⟨hpos, h0⟩
    exact List.mem_map.mpr ⟨0, List.mem_range.mpr hpos, by rw [h0]; rfl⟩

/-- Each page leads to the next one if its `pages` is one, or one for all the difference it
makes. -/
theorem isChain_freeNodes_iff {m : Memory 64} :
    (desc.freeNodes.IsChain fun a b ↦ FreePageNode.nodeEnd m a = b) ↔
      ∀ i, i + 1 < desc.freePages →
        FreePageNode.pages m (desc.virtualAddress + BitVec.ofNat 64 (i * 4096)) * 4096 = 4096 := by
  rw [List.isChain_iff_getElem]
  have hlen : desc.freeNodes.length = desc.freePages := length_pagesFrom ..
  have hget (i : ℕ) (hi : i < desc.freeNodes.length) :
      desc.freeNodes[i] = desc.virtualAddress + BitVec.ofNat 64 (i * 4096) := by
    simp [freeNodes, pagesFrom]
  rw [← hlen]
  refine forall₂_congr fun i hi ↦ ?_
  rw [hget, hget, Nat.succ_mul, BitVec.ofNat_add, ← BitVec.add_assoc, FreePageNode.nodeEnd]
  exact BitVec.add_right_inj _

end VirtualMemoryDesc

/-- **Free pages are apart.** -/
theorem apart_freeNodes (h : Disjointed descs) : (freeNodes descs).Pairwise Apart := by
  refine List.pairwise_flatMap.mpr ⟨fun desc _ ↦ desc.apart_freeNodes, ?_⟩
  refine h.imp fun {desc desc'} hd x hx a ha ↦ ?_
  have hx' := VirtualMemoryDesc.has_of_mem hx
  have ha' := VirtualMemoryDesc.has_of_mem ha
  have hle := desc.le
  have hle' := desc'.le
  have hor : x.toNat + 4096 ≤ a.toNat ∨ a.toNat + 4096 ≤ x.toNat := by
    by_contra hno
    -- the first byte of the page that begins last is on both
    rcases Nat.le_total x.toNat a.toNat with hxa | hxa
    · exact hd a.toNat ⟨by omega, by omega⟩ ⟨by omega, by omega⟩
    · exact hd x.toNat ⟨by omega, by omega⟩ ⟨by omega, by omega⟩
  rcases hor with hlt | hlt
  · exact apart_of_le hlt (by omega)
  · exact (apart_of_le hlt (by omega)).symm

/-- Addresses that are not null can be counted. -/
theorem length_lt_of_nodup {w : ℕ} {xs : List (BitVec w)} (h : xs.Nodup) (h0 : 0 ∉ xs) :
    xs.length < 2 ^ w := by
  have hnd : ((0 :: xs).map BitVec.toNat).Nodup :=
    (List.nodup_cons.mpr ⟨h0, h⟩).map fun _ _ ↦ BitVec.eq_of_toNat_eq
  have hsub : (0 :: xs).map BitVec.toNat ⊆ List.range (2 ^ w) := by
    intro a ha
    obtain ⟨x, -, rfl⟩ := List.mem_map.mp ha
    exact List.mem_range.mpr x.isLt
  have hle := hnd.length_le_of_subset hsub
  rw [List.length_map, List.length_cons, List.length_range] at hle
  exact hle

end Disjoint

/-! ## The list -/

namespace FreePageList

open ListBuilder

variable {m : Memory 64} {descs : List VirtualMemoryDesc}

theorem addDesc_eq (s : ListBuilder × BitVec 64) (desc : VirtualMemoryDesc) : addDesc s desc =
    (s.1.linkDesc desc, s.2 + BitVec.ofNat 64 desc.freeNodes.length) := by
  have hpages : (desc.sizeBytes / 4096).toNat = desc.sizeBytes.toNat / 4096 := BitVec.toNat_udiv
  rw [VirtualMemoryDesc.freeNodes, length_pagesFrom, linkDesc, addDesc,
    VirtualMemoryDesc.freePages]
  by_cases hk : desc.kind = .free
  · rw [if_pos hk, if_pos hk, ← hpages, BitVec.ofNat_toNat, BitVec.setWidth_eq]
  · rw [if_neg hk, if_neg hk]
    exact Prod.ext rfl (BitVec.add_zero _).symm

theorem foldl_addDesc (s : ListBuilder × BitVec 64) : descs.foldl addDesc s =
    (s.1.linkAll descs, s.2 + BitVec.ofNat 64 (freeNodes descs).length) := by
  induction descs generalizing s with
  | nil => simp [linkAll, freeNodes]
  | cons desc descs ih =>
    have hcons : freeNodes (desc :: descs) = desc.freeNodes ++ freeNodes descs := List.flatMap_cons
    rw [List.foldl_cons, addDesc_eq, ih, hcons, List.length_append, BitVec.ofNat_add,
      ← BitVec.add_assoc]
    rfl

/-- What `initialize` makes. -/
theorem initializeList_eq (m : Memory 64) (descs : List VirtualMemoryDesc) :
    initializeList m descs = ⟨(ListBuilder.linkAll ⟨m, 0, 0⟩ descs).finish.memory,
      (ListBuilder.linkAll ⟨m, 0, 0⟩ descs).head, BitVec.ofNat 64 (freeNodes descs).length⟩ := by
  simp only [initializeList, foldl_addDesc, finish_head]
  exact congrArg _ (BitVec.zero_add _)

/-- The list is made of the nodes that the loops link. -/
theorem covers_iff_trails (hd : Disjointed descs) : (initializeList m descs).Covers descs ↔
    0 ∉ freeNodes descs ∧ ListBuilder.trails ⟨m, 0, 0⟩ descs = freeNodes descs := by
  have hap := apart_freeNodes hd
  rw [initializeList_eq]
  constructor
  · intro h
    refine ⟨h.ne_null, trails_eq_of_next hap h.ne_null ?_⟩
    exact h.chain.isChain
  · rintro ⟨h0, ht⟩
    have hnd : (freeNodes descs).Nodup := hap.imp Apart.ne
    rw [linkAll_eq, ht]
    refine ⟨?_, h0, hnd, ?_⟩
    · have hhead :
          ((freeNodes descs).foldl link ⟨m, 0, 0⟩).head = (freeNodes descs).head?.getD 0 := by
        cases hf : freeNodes descs with
        | nil => rfl
        | cons x xs =>
          rw [hf, List.mem_cons, not_or] at h0
          exact head_foldl (by rw [link_prev]; exact Ne.symm h0.1) h0.2
      rw [hhead]
      exact chain_foldl hap h0
    · exact (BitVec.toNat_ofNat ..).trans (Nat.mod_eq_of_lt (length_lt_of_nodup hnd h0))

/-- **When the list covers the free memory**: no free page is at the null address, and in every free
page but the last one of its descriptor, the memory held a one where the code reads `pages`, or a
word with the same low 52 bits. -/
theorem covers_iff (hd : Disjointed descs) : (initializeList m descs).Covers descs ↔
    ∀ desc ∈ descs, desc.kind = .free → (4096 ≤ desc.sizeBytes.toNat → desc.virtualAddress ≠ 0) ∧
      ∀ i, i + 1 < desc.sizeBytes.toNat / 4096 →
        FreePageNode.pages m (desc.virtualAddress + BitVec.ofNat 64 (i * 4096)) * 4096 = 4096 := by
  have hk : ListBuilder.Keeps m (freeNodes descs) ⟨m, 0, 0⟩ := ⟨.inl rfl, fun _ _ ↦ rfl⟩
  rw [covers_iff_trails hd, hk.trails_eq_iff (apart_freeNodes hd) fun _ hx ↦ hx]
  have h0 : 0 ∉ freeNodes descs ↔ ∀ desc ∈ descs, 0 ∉ desc.freeNodes := by
    simp only [freeNodes, List.mem_flatMap, not_exists, not_and]
  rw [h0, ← forall₂_and]
  refine forall₂_congr fun desc _ ↦ ?_
  rw [VirtualMemoryDesc.zero_mem_freeNodes, VirtualMemoryDesc.isChain_freeNodes_iff,
    VirtualMemoryDesc.freePages]
  by_cases hf : desc.kind = .free
  · rw [if_pos hf, not_and, forall_prop_of_true hf]
    exact and_congr_left fun _ ↦ imp_congr_left (by omega)
  · rw [if_neg hf]
    exact iff_of_true ⟨fun h ↦ absurd h.1 (lt_irrefl 0), fun i hi ↦ absurd hi (Nat.not_lt_zero _)⟩
      fun h ↦ absurd h hf

/-- Two free pages. -/
def twoPages : VirtualMemoryDesc := ⟨.free, 0x10000, 0x2000, by decide⟩

/-- Two pages, in the first of which the memory holds a one. -/
theorem covers_iff_one : (initializeList (fun a ↦ if a = 0x10008 then 1 else 0) [twoPages]).Covers
    [twoPages] := by
  refine (covers_iff (List.pairwise_singleton ..)).mpr fun desc hd _ ↦ ?_
  obtain rfl := List.mem_singleton.mp hd
  refine ⟨fun _ ↦ by decide, fun i hi ↦ ?_⟩
  have hi0 : i = 0 := by
    have hp : twoPages.sizeBytes.toNat / 4096 = 2 := by decide
    omega
  rw [hi0]
  decide +kernel

/-- Fresh memory is zero, so the first page leads to itself.  The list ends there, and the second
page is not on it. -/
theorem not_covers : (initializeList (fun _ ↦ 0) [twoPages]).head = 0x10000 ∧
    FreePageNode.next (initializeList (fun _ ↦ 0) [twoPages]).memory 0x10000 = 0 ∧
    (initializeList (fun _ ↦ 0) [twoPages]).availPages = 2 ∧
    ¬ (initializeList (fun _ ↦ 0) [twoPages]).Covers [twoPages] := by
  have hnext : FreePageNode.next (initializeList (fun _ ↦ 0) [twoPages]).memory 0x10000 = 0 := by
    decide +kernel
  refine ⟨by decide +kernel, hnext, by decide +kernel, fun h ↦ ?_⟩
  have hfree : freeNodes [twoPages] = [0x10000, 0x11000] := by decide
  have hchain := h.chain
  rw [hfree] at hchain
  exact absurd (hnext.symm.trans hchain.2.1) (by decide)

end FreePageList

end Chino
