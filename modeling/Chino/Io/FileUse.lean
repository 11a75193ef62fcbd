import Chino.Io.Frames
import Chino.Library.Counter

/-!
# Who refers to a file

The references of a file of the pool are its handles, the frames that name it and the pointers that
calls hold.  `Base` says that they are counted, and that a file is closed if it was opened and has
no reference left.

A file that is not open yet is known to its opener only, and to the frames of the request to open it
(`Opening`).  It has its device until the open fails, and from then on just if it was opened.

The steps outside of the I/O manager concern one thread and one file (`ActsOn`).

## How a step is checked

A file is in the hands of threads, entries and frames, and a step is about one of these.  So the
proof goes file by file, and for each by who acts.

* `Counted` is about one file and one number: taking, dropping and giving away references.  It is
  the only place where the word `refCount` and the number of references meet;
  `Chino.Library.Counter` has the arithmetic.
* `Base` says for all files that the numbers are those of entries, frames and pointers of calls.
* `ActsOn` is a step of one thread on one file.  What holds of the other files is carried over once,
  by `ActsOn.base` and `ActsOn.inIo`, and each kind of step has a lemma of its own for the file it
  is about: `Inv.allocates`, `Inv.references`, `Inv.inserts`, `Inv.closes`, `Inv.leaves`.

The opener is the delicate one.  Between `prepare_to_open` and the answer of the driver the file has
a device but is not open, and if its last reference went then, the file would close a device that
never opened it.  `Opening` says that the opener holds the file all that time and that nobody else
knows it, except for the frame of its own request.
-/

set_option autoImplicit false

namespace Chino

open Function (update)
open Finset (range)

/-! ## One file -/

/-- The file has `n` references, and was closed if it was opened and has none left. -/
structure IoFile.Counted (x : IoFile) (n : ℕ) : Prop where
  count : x.refCount.toNat = n
  closes : x.closes = if x.opened = true ∧ n = 0 then 1 else 0
  fresh : x.allocated = false → n = 0 ∧ x.opened = false ∧ x.device = none

namespace IoFile

variable {x : IoFile} {n : ℕ}

@[simp] theorem destroy_refCount (x : IoFile) : x.destroy.refCount = x.refCount := by
  unfold destroy; split <;> rfl

@[simp] theorem destroy_opened (x : IoFile) : x.destroy.opened = x.opened := by
  unfold destroy; split <;> rfl

@[simp] theorem destroy_device (x : IoFile) : x.destroy.device = x.device := by
  unfold destroy; split <;> rfl

@[simp] theorem destroy_allocated (x : IoFile) : x.destroy.allocated = x.allocated := by
  unfold destroy; split <;> rfl

@[simp] theorem decRef_opened (x : IoFile) : x.decRef.opened = x.opened := by
  unfold decRef; split <;> simp

@[simp] theorem decRef_device (x : IoFile) : x.decRef.device = x.device := by
  unfold decRef; split <;> simp

@[simp] theorem decRef_allocated (x : IoFile) : x.decRef.allocated = x.allocated := by
  unfold decRef; split <;> simp

@[simp] theorem decRef_refCount (x : IoFile) : x.decRef.refCount = x.refCount - 1 := by
  unfold decRef; split <;> simp

theorem counted_unallocated : unallocated.Counted 0 := ⟨rfl, rfl, fun _ ↦ ⟨rfl, rfl, rfl⟩⟩

theorem counted_construct : construct.Counted 1 := ⟨rfl, rfl, fun h ↦ by cases h⟩

/-- A reference is taken by somebody who has one. -/
theorem Counted.addRef (h : x.Counted n) (hn : 0 < n) (hb : n + 1 < 2 ^ 32) :
    x.addRef.Counted (n + 1) where
  count := Counter.toNat_add_one h.count hb
  closes := by
    rw [if_neg (by omega)]
    exact h.closes.trans (if_neg (by omega))
  fresh hx := absurd (h.fresh hx).1 (by omega)

/-- A file that is in use gets or loses its device. -/
theorem Counted.setDevice (h : x.Counted n) (hn : 0 < n) (d : Option DeviceId) :
    { x with device := d }.Counted n where
  count := h.count
  closes := h.closes
  fresh hx := absurd (h.fresh hx).1 (by omega)

/-- A reference is dropped; the last one, if the file has its device just when it was opened. -/
theorem Counted.decRef (h : x.Counted (n + 1))
    (hd : n = 0 → (x.device.isSome = true ↔ x.opened = true)) : x.decRef.Counted n where
  count := by
    rw [decRef_refCount]
    exact Counter.toNat_sub_one h.count
  closes := by
    have hc : x.closes = 0 := h.closes.trans (if_neg (by omega))
    rw [decRef_opened]
    by_cases hn : n = 0
    · have h1 : x.refCount = 1 := (Counter.eq_one_iff h.count).mpr hn
      by_cases ho : x.opened = true
      · simp [IoFile.decRef, destroy, h1, hc, hn, ho, (hd hn).mpr ho]
      · have hno : x.device.isSome = false := by simpa using (hd hn).not.mpr ho
        simp [IoFile.decRef, destroy, h1, hc, ho, hno]
    · have h1 : x.refCount ≠ 1 := (Counter.eq_one_iff h.count).not.mpr hn
      simp [IoFile.decRef, h1, hc, hn]
  fresh hx := absurd (h.fresh (by simpa using hx)).1 (by omega)

end IoFile

namespace Files

open ObjectSegment (elementsCount)

variable {device : FileId → DeviceId} {pooled : FileId → Bool} {processOf : ThreadId → ProcessId}
  {N : ℕ} {s s' : Files} {t u : ThreadId} {f g : FileId} {c c' : FileCall}

/-! ## Who refers to a file -/

/-- The entries of the handle tables. -/
def entries (processOf : ThreadId → ProcessId) (N : ℕ) : Finset (ProcessId × ℕ) :=
  (range N).image processOf ×ˢ range elementsCount

/-- The number of handles to the file. -/
noncomputable def handleRefs (processOf : ThreadId → ProcessId) (N : ℕ) (s : Files)
    (f : FileId) : ℕ :=
  count (entries processOf N) fun x ↦ s.handle x.1 x.2 = some f

/-- The pointers to the file that the thread holds. -/
def pointersOf (s : Files) (f : FileId) (t : ThreadId) : ℕ :=
  match s.call t with
  | some c => if c.file = f then c.pointers else 0
  | none => 0

/-- The number of pointers to the file that calls hold. -/
def callRefs (N : ℕ) (s : Files) (f : FileId) : ℕ := ∑ t ∈ range N, s.pointersOf f t

/-- All references to the file. -/
noncomputable def refs (processOf : ThreadId → ProcessId) (N : ℕ) (s : Files) (f : FileId) : ℕ :=
  s.handleRefs processOf N f + s.io.frameRefs f + s.callRefs N f

/-- No file has more references than its counter can count. -/
def Uncrowded (pooled : FileId → Bool) (processOf : ThreadId → ProcessId) (N : ℕ) (s : Files) :
    Prop :=
  ∀ f, pooled f = true → s.refs processOf N f < 2 ^ 32

/-- The thread is in a call on the file. -/
def OnFile (s : Files) (f : FileId) (t : ThreadId) (c : FileCall) : Prop :=
  s.call t = some c ∧ c.file = f

theorem OnFile.unique (hc : s.OnFile f t c) (hc' : s.OnFile g t c') : c = c' :=
  Option.some.inj (hc.1.symm.trans hc'.1)

/-- A file that is being opened belongs to its opener, and has its device from then on if the open
succeeds. -/
structure Opening (s : Files) (f : FileId) : Prop where
  opener : ∀ t c, s.OnFile f t c → c.opens = true → (s.file f).opened = false ∧
    (∀ p i, s.handle p i ≠ some f) ∧ ∀ u c', s.OnFile f u c' → u = t
  device : (s.file f).device.isSome = true ↔
    (s.file f).opened = true ∨ ∃ t c, s.OnFile f t c ∧ c.attached = true

/-- **The references are counted.** -/
structure Base (pooled : FileId → Bool) (processOf : ThreadId → ProcessId) (N : ℕ) (s : Files) :
    Prop where
  io : ∃ L, s.io.Inv L
  frames : s.io.FramesIn
  threads : ∀ t, N ≤ t → s.call t = none
  handles : ∀ p i f, s.handle p i = some f → (p, i) ∈ entries processOf N ∧ pooled f = true
  calls : ∀ t c, s.call t = some c → pooled c.file = true
  counted : ∀ f, pooled f = true → (s.file f).Counted (s.refs processOf N f)
  opening : ∀ f, pooled f = true → s.Opening f

/-- The calls in `dispatch_io_fast_slow` have the file it is about. -/
def InIo (s : Files) : Prop :=
  ∀ p c, s.io.callAt p = some c → ∃ t c', p = .thread t ∧ s.call t = some c' ∧
    c'.inIo = true ∧ ∀ f, c.file? = some f → c'.file = f

/-- What all steps keep. -/
structure Inv (pooled : FileId → Bool) (processOf : ThreadId → ProcessId) (N : ℕ) (s : Files) : Prop
    extends s.Base pooled processOf N where
  inIo : s.InIo

/-! ## Steps of a call -/

/-- The thread does something to the file, and to no other. -/
structure ActsOn (s s' : Files) (t : ThreadId) (f : FileId) : Prop where
  file : ∀ g, g ≠ f → s'.file g = s.file g
  handle : ∀ p i g, g ≠ f → (s'.handle p i = some g ↔ s.handle p i = some g)
  call : ∀ u, u ≠ t → s'.call u = s.call u
  old : ∀ c, s.call t = some c → c.file = f
  new : ∀ c, s'.call t = some c → c.file = f

theorem ActsOn.onFile (h : s.ActsOn s' t f) (hg : g ≠ f) (u : ThreadId) (c : FileCall) :
    s'.OnFile g u c ↔ s.OnFile g u c := by
  by_cases hu : u = t
  · subst hu
    constructor
    · rintro ⟨hc, rfl⟩
      exact absurd (h.new c hc) hg
    · rintro ⟨hc, rfl⟩
      exact absurd (h.old c hc) hg
  · simp only [OnFile, h.call u hu]

theorem pointersOf_congr (h : ∀ c, s'.OnFile f t c ↔ s.OnFile f t c) :
    s'.pointersOf f t = s.pointersOf f t := by
  have hnone : ∀ {s : Files}, (∀ c, ¬ s.OnFile f t c) → s.pointersOf f t = 0 := by
    intro s hs
    unfold pointersOf
    split
    · rename_i c hc
      exact if_neg fun hf ↦ hs c ⟨hc, hf⟩
    · rfl
  by_cases hs : ∃ c, s.OnFile f t c
  · obtain ⟨c, hc⟩ := hs
    have hc' := (h c).mpr hc
    simp [pointersOf, hc.1, hc'.1]
  · rw [hnone fun c hc ↦ hs ⟨c, hc⟩, hnone fun c hc ↦ hs ⟨c, (h c).mp hc⟩]

theorem Opening.congr (h : s.Opening f) (hon : ∀ u c, s'.OnFile f u c ↔ s.OnFile f u c)
    (ho : (s'.file f).opened = (s.file f).opened) (hd : (s'.file f).device = (s.file f).device)
    (hh : ∀ p i, s'.handle p i = some f → s.handle p i = some f) : s'.Opening f where
  opener t c hc hop := by
    obtain ⟨h₁, h₂, h₃⟩ := h.opener t c ((hon t c).mp hc) hop
    exact ⟨ho ▸ h₁, fun p i hp ↦ h₂ p i (hh p i hp), fun u c' hc' ↦ h₃ u c' ((hon u c').mp hc')⟩
  device := by
    rw [hd, ho]
    simp only [hon]
    exact h.device

/-- What is true of the other files stays true. -/
theorem ActsOn.base (ha : s.ActsOn s' t f) (h : s.Base pooled processOf N) (hio : s'.io = s.io)
    (ht : t < N) (hf : pooled f = true)
    (hentries : ∀ p i, s'.handle p i = some f → (p, i) ∈ entries processOf N)
    (hcount : (s'.file f).Counted (s'.refs processOf N f)) (hop : s'.Opening f) :
    s'.Base pooled processOf N where
  io := hio ▸ h.io
  frames := hio ▸ h.frames
  threads u hu := by
    have hne : u ≠ t := by
      rintro rfl
      exact absurd ht (Nat.not_lt_of_le hu)
    rw [ha.call u hne, h.threads u hu]
  handles p i g hg := by
    by_cases hgf : g = f
    · subst hgf
      exact ⟨hentries p i hg, hf⟩
    · exact h.handles p i g ((ha.handle p i g hgf).mp hg)
  calls u c hc := by
    by_cases hu : u = t
    · subst hu
      rw [ha.new c hc]
      exact hf
    · exact h.calls u c (ha.call u hu ▸ hc)
  counted g hg := by
    by_cases hgf : g = f
    · subst hgf
      exact hcount
    · have he : s'.refs processOf N g = s.refs processOf N g := by
        have h₁ : s'.handleRefs processOf N g = s.handleRefs processOf N g :=
          count_congr fun x _ ↦ ha.handle x.1 x.2 g hgf
        have h₂ : s'.callRefs N g = s.callRefs N g :=
          Finset.sum_congr rfl fun u _ ↦ pointersOf_congr (ha.onFile hgf u)
        rw [refs, refs, h₁, h₂, hio]
      rw [he, ha.file g hgf]
      exact h.counted g hg
  opening g hg := by
    by_cases hgf : g = f
    · subst hgf
      exact hop
    · exact (h.opening g hg).congr (ha.onFile hgf) (by rw [ha.file g hgf])
        (by rw [ha.file g hgf]) fun p i ↦ (ha.handle p i g hgf).mp

/-- A call outside of the I/O manager concerns no other. -/
theorem ActsOn.inIo (ha : s.ActsOn s' t f) (h : s.InIo) (hio : s'.io = s.io)
    (hidle : ∀ c, s.call t = some c → c.inIo = false) : s'.InIo := by
  intro p c hc
  rw [hio] at hc
  obtain ⟨u, c', rfl, hu, hin, hfile⟩ := h p c hc
  have hne : u ≠ t := by
    rintro rfl
    rw [hidle c' hu] at hin
    cases hin
  exact ⟨u, c', rfl, (ha.call u hne).trans hu, hin, hfile⟩

theorem ActsOn.inv (ha : s.ActsOn s' t f) (h : s.Inv pooled processOf N) (hio : s'.io = s.io)
    (ht : t < N) (hf : pooled f = true)
    (hidle : ∀ c, s.call t = some c → c.inIo = false)
    (hentries : ∀ p i, s'.handle p i = some f → (p, i) ∈ entries processOf N)
    (hcount : (s'.file f).Counted (s'.refs processOf N f)) (hop : s'.Opening f) :
    s'.Inv pooled processOf N where
  toBase := ha.base h.toBase hio ht hf hentries hcount hop
  inIo := ha.inIo h.inIo hio hidle

/-! ## How the references change -/

theorem callRefs_change {d : Files} (ht : t < N) (hcall : ∀ u, u ≠ t → d.call u = s.call u)
    (f : FileId) : d.callRefs N f + s.pointersOf f t = s.callRefs N f + d.pointersOf f t := by
  refine sum_change (T := range N) (f := d.pointersOf f) (g := s.pointersOf f)
    (Finset.mem_range.mpr ht) fun u _ hu ↦ ?_
  rw [pointersOf, pointersOf, hcall u hu]

theorem handleRefs_change {d : Files} {p : ProcessId} {i : ℕ} (hi : (p, i) ∈ entries processOf N)
    (hh : ∀ q j, (q, j) ≠ (p, i) → d.handle q j = s.handle q j) (f : FileId) :
    d.handleRefs processOf N f + tally (s.handle p i = some f) =
      s.handleRefs processOf N f + tally (d.handle p i = some f) := by
  refine count_change (P := fun x ↦ d.handle x.1 x.2 = some f)
    (Q := fun x ↦ s.handle x.1 x.2 = some f) (t := (p, i)) hi fun x _ hx ↦ ?_
  rw [hh x.1 x.2 hx]

theorem pointersOf_some (hc : s.OnFile f t c) : s.pointersOf f t = c.pointers := by
  rw [pointersOf, hc.1]
  exact if_pos hc.2

theorem pointersOf_none (hc : s.call t = none) : s.pointersOf f t = 0 := by
  rw [pointersOf, hc]

theorem callRefs_pos (ht : t < N) (hc : s.OnFile f t c) : 0 < s.callRefs N f := by
  have hpos := c.pointers_pos
  rw [← pointersOf_some hc] at hpos
  rw [callRefs, ← Finset.add_sum_erase _ _ (Finset.mem_range.mpr ht)]
  exact Nat.add_pos_left hpos _

theorem Base.lt (h : s.Base pooled processOf N) (hc : s.call t = some c) : t < N := by
  by_contra hle
  rw [h.threads t (Nat.le_of_not_lt hle)] at hc
  cases hc

/-- A file that is not counted is in nobody's hands. -/
theorem Base.unused (h : s.Base pooled processOf N) (hr : s.refs processOf N f = 0) :
    (∀ p i, s.handle p i ≠ some f) ∧ (∀ i k, (s.io.irp i).fileAt k ≠ some f) ∧
      ∀ t c, ¬ s.OnFile f t c := by
  have hr' : s.handleRefs processOf N f = 0 ∧ s.io.frameRefs f = 0 ∧ s.callRefs N f = 0 := by
    rw [refs] at hr
    omega
  refine ⟨fun p i hp ↦ ?_, fun i k hk ↦ ?_, fun t c hc ↦ ?_⟩
  · have hpos := count_pos (P := fun x ↦ s.handle x.1 x.2 = some f) (h.handles p i f hp).1 hp
    exact absurd hr'.1 hpos.ne'
  · have hin : i < s.io.allocated ∧ k < frameCount := by
      by_contra hn
      rw [h.frames.fileAt_eq_none hn] at hk
      cases hk
    have hpos := count_pos (P := fun x ↦ (s.io.irp x.1).fileAt x.2 = some f) (t := (i, k))
      (Finset.mem_product.mpr ⟨Finset.mem_range.mpr hin.1, Finset.mem_range.mpr hin.2⟩) hk
    exact absurd hr'.2.1 hpos.ne'
  · exact absurd hr'.2.2 (callRefs_pos (h.lt hc.1) hc).ne'

/-! ## Who opens a file -/

/-- Nobody else has the file of its opener. -/
theorem Opening.device_iff (h : s.Opening f) (hc : s.OnFile f t c) :
    (s.file f).device.isSome = true ↔ (s.file f).opened = true ∨ c.attached = true := by
  refine h.device.trans (or_congr_right ⟨?_, fun ha ↦ ⟨t, c, hc, ha⟩⟩)
  rintro ⟨u, c', hc', ha⟩
  obtain rfl := (h.opener u c' hc' (FileCall.opens_of_attached ha)).2.2 t c hc
  rwa [hc.unique hc']

/-- The call goes on with its file. -/
theorem Opening.moves (h : s.Opening f) (hcall : ∀ u, u ≠ t → s'.call u = s.call u)
    (hc : s.OnFile f t c) (hb : s'.OnFile f t c')
    (hop : c'.opens = true → c.opens = true ∧ (s'.file f).opened = (s.file f).opened ∧
      ∀ p i, s'.handle p i = some f → s.handle p i = some f)
    (hd : (s'.file f).device.isSome = true ↔ (s'.file f).opened = true ∨ c'.attached = true) :
    s'.Opening f where
  opener u c₁ hu ho := by
    by_cases hut : u = t
    · subst hut
      obtain ⟨ho', hopened, hh⟩ := hop (hb.unique hu ▸ ho)
      obtain ⟨h₁, h₂, h₃⟩ := h.opener u c hc ho'
      refine ⟨hopened ▸ h₁, fun p i hp ↦ h₂ p i (hh p i hp), fun v c₂ hv ↦ ?_⟩
      by_contra hvu
      exact hvu (h₃ v c₂ ⟨hcall v hvu ▸ hv.1, hv.2⟩)
    · exact absurd ((h.opener u c₁ ⟨hcall u hut ▸ hu.1, hu.2⟩ ho).2.2 t c hc).symm hut
  device := by
    refine hd.trans (or_congr_right ⟨fun ha ↦ ⟨t, c', hb, ha⟩, ?_⟩)
    rintro ⟨u, c₁, hu, ha⟩
    by_cases hut : u = t
    · subst hut
      rwa [hb.unique hu]
    · have ho :=
        (h.opener u c₁ ⟨hcall u hut ▸ hu.1, hu.2⟩ (FileCall.opens_of_attached ha)).2.2 t c hc
      exact absurd ho.symm hut

/-! ## The steps outside of the I/O manager -/

theorem setFile_self (s : Files) (f : FileId) : s.setFile f (s.file f) = s := by
  simp [setFile]

theorem addRef_of_pooled (hf : pooled f = true) :
    s.addRef pooled f = s.setFile f (s.file f).addRef := if_pos hf

theorem decRef_of_pooled (hf : pooled f = true) :
    s.decRef pooled f = s.setFile f (s.file f).decRef := if_pos hf

/-- The thread changes the file and moves on. -/
theorem actsOn_setCall (x : IoFile) (o : Option FileCall)
    (hold : ∀ c, s.call t = some c → c.file = f) (hnew : ∀ c, o = some c → c.file = f) :
    s.ActsOn ((s.setFile f x).setCall t o) t f where
  file g hg := Function.update_of_ne hg _ _
  handle _ _ _ _ := Iff.rfl
  call u hu := Function.update_of_ne hu _ _
  old := hold
  new c hc := hnew c (by simpa [setCall] using hc)

theorem refs_setCall (processOf : ThreadId → ProcessId) (ht : t < N) (x : IoFile)
    (o : Option FileCall) :
    ((s.setFile f x).setCall t o).refs processOf N f + s.pointersOf f t =
      s.refs processOf N f + ((s.setFile f x).setCall t o).pointersOf f t := by
  have hc := callRefs_change (N := N) (s := s) (d := (s.setFile f x).setCall t o) ht
    (fun u hu ↦ Function.update_of_ne hu _ _) f
  have hh : ((s.setFile f x).setCall t o).handleRefs processOf N f = s.handleRefs processOf N f :=
    rfl
  have hio : ((s.setFile f x).setCall t o).io = s.io := rfl
  rw [refs, refs, hh, hio]
  omega

theorem Base.refs_pos (h : s.Base pooled processOf N) (hc : s.OnFile f t c) :
    0 < s.refs processOf N f :=
  Nat.add_pos_right _ (callRefs_pos (h.lt hc.1) hc)

/-- The call goes on with its file, which it may change. -/
theorem Base.goesOn {b : FileCall} (h : s.Base pooled processOf N) (hc : s.OnFile f t c)
    (hfile : b.file = f) {x : IoFile}
    (hx : ∀ n, n + c.pointers = s.refs processOf N f + b.pointers → x.Counted n)
    (hop : b.opens = true → c.opens = true ∧ x.opened = (s.file f).opened)
    (hd : x.device.isSome = true ↔ x.opened = true ∨ b.attached = true) :
    ((s.setFile f x).setCall t (some b)).Base pooled processOf N := by
  have ht := h.lt hc.1
  have hf : pooled f = true := hc.2 ▸ h.calls t c hc.1
  have hself : ((s.setFile f x).setCall t (some b)).file f = x := Function.update_self ..
  have hnew : ((s.setFile f x).setCall t (some b)).OnFile f t b :=
    ⟨Function.update_self .., hfile⟩
  refine (actsOn_setCall x (some b) (fun c₁ hc₁ ↦ ?_) ?_).base h rfl ht hf
    (fun p i hp ↦ (h.handles p i f hp).1) ?_ ?_
  · cases hc.1.symm.trans hc₁
    exact hc.2
  · rintro c₁ ⟨⟩
    exact hfile
  · rw [hself]
    refine hx _ ?_
    rw [← pointersOf_some hc, ← pointersOf_some hnew]
    exact refs_setCall processOf ht x _
  · refine (h.opening f hf).moves (fun u hu ↦ Function.update_of_ne hu _ _) hc hnew ?_ ?_
    · intro ho
      rw [hself]
      exact ⟨(hop ho).1, (hop ho).2, fun _ _ hp ↦ hp⟩
    · rw [hself]
      exact hd

theorem Inv.goesOn {b : FileCall} (h : s.Inv pooled processOf N) (hc : s.OnFile f t c)
    (hidle : c.inIo = false) (hfile : b.file = f) {x : IoFile}
    (hx : ∀ n, n + c.pointers = s.refs processOf N f + b.pointers → x.Counted n)
    (hop : b.opens = true → c.opens = true ∧ x.opened = (s.file f).opened)
    (hd : x.device.isSome = true ↔ x.opened = true ∨ b.attached = true) :
    ((s.setFile f x).setCall t (some b)).Inv pooled processOf N where
  toBase := h.toBase.goesOn hc hfile hx hop hd
  inIo := by
    refine (actsOn_setCall (f := f) x (some b) (fun c₁ hc₁ ↦ ?_) ?_).inIo h.inIo rfl fun c₁ hc₁ ↦ ?_
    · cases hc.1.symm.trans hc₁
      exact hc.2
    · rintro c₁ ⟨⟩
      exact hfile
    · cases hc.1.symm.trans hc₁
      exact hidle

/-- The call drops its pointer and returns. -/
theorem Inv.leaves (h : s.Inv pooled processOf N) (hc : s.call t = some (.leaving f)) :
    ((s.decRef pooled f).setCall t none).Inv pooled processOf N := by
  have ht := h.lt hc
  have hf : pooled f = true := h.calls t _ hc
  have hon : s.OnFile f t (.leaving f) := ⟨hc, rfl⟩
  have hone : ∀ c₁, s.call t = some c₁ → c₁ = .leaving f := fun c₁ hc₁ ↦
    Option.some.inj (hc₁.symm.trans hc)
  rw [decRef_of_pooled hf]
  have hrefs := refs_setCall (s := s) (f := f) processOf ht (s.file f).decRef none
  rw [pointersOf_some hon, pointersOf_none (s := (s.setFile f _).setCall t none)
    (Function.update_self ..)] at hrefs
  have hdev := (h.opening f hf).device_iff hon
  have hother : ∀ u c₁, u ≠ t → (((s.setFile f (s.file f).decRef).setCall t none).OnFile f u c₁ ↔
      s.OnFile f u c₁) := fun u c₁ hu ↦ by
    simp only [OnFile, setCall, setFile, Function.update_of_ne hu]
  have hnone : ∀ c₁, ¬ ((s.setFile f (s.file f).decRef).setCall t none).OnFile f t c₁ :=
    fun c₁ hc₁ ↦ by
    have := hc₁.1
    simp [setCall] at this
  have hno : ∀ u c₁, s.OnFile f u c₁ → c₁.opens = true → u = t := fun u c₁ hu ho ↦
    ((h.opening f hf).opener u c₁ hu ho).2.2 t _ hon ▸ rfl
  have hself : ((s.setFile f (s.file f).decRef).setCall t none).file f = (s.file f).decRef :=
    Function.update_self ..
  refine (actsOn_setCall _ none (fun c₁ hc₁ ↦ hone c₁ hc₁ ▸ rfl) (by simp)).inv h rfl ht hf
    (fun c₁ hc₁ ↦ hone c₁ hc₁ ▸ rfl) (fun p i hp ↦ (h.handles p i f hp).1) ?_ ⟨?_, ?_⟩
  · rw [hself]
    refine IoFile.Counted.decRef ?_ fun _ ↦ by simpa [FileCall.attached] using hdev
    have hcount := h.counted f hf
    rw [← Nat.add_zero (s.refs processOf N f), ← hrefs] at hcount
    exact hcount
  · intro u c₁ hu ho
    by_cases hut : u = t
    · exact absurd (hut ▸ hu) (hnone c₁)
    · exact absurd (hno u c₁ ((hother u c₁ hut).mp hu) ho) hut
  · rw [hself, IoFile.decRef_device, IoFile.decRef_opened, hdev]
    refine or_congr_right (iff_of_false (by simp [FileCall.attached]) ?_)
    rintro ⟨u, c₁, hu, ha⟩
    by_cases hut : u = t
    · exact hnone c₁ (hut ▸ hu)
    · exact hut (hno u c₁ ((hother u c₁ hut).mp hu) (FileCall.opens_of_attached ha))

/-- A call gets a new file. -/
theorem Inv.allocates (h : s.Inv pooled processOf N) {socket : Bool} (ht : t < N)
    (hc : s.call t = none) (hf : pooled f = true) (hfresh : (s.file f).allocated = false) :
    ((s.setFile f .construct).setCall t (some (.allocated f socket))).Inv pooled processOf N := by
  obtain ⟨hn, hopened, hdevice⟩ := (h.counted f hf).fresh hfresh
  obtain ⟨hhandle, -, honfile⟩ := h.unused hn
  have hself : ((s.setFile f .construct).setCall t (some (.allocated f socket))).file f =
      .construct := Function.update_self ..
  have hnew : ((s.setFile f .construct).setCall t (some (.allocated f socket))).OnFile f t
      (.allocated f socket) := ⟨Function.update_self .., rfl⟩
  have honly : ∀ u c₁, ((s.setFile f .construct).setCall t (some (.allocated f socket))).OnFile f u c₁ →
      u = t := fun u c₁ hu ↦ by
    by_contra hut
    refine honfile u c₁ ?_
    simpa only [OnFile, setCall, setFile, Function.update_of_ne hut] using hu
  have hrefs := refs_setCall (s := s) (f := f) processOf ht .construct
    (some (.allocated f socket))
  rw [pointersOf_some hnew, pointersOf_none hc, hn] at hrefs
  refine (actsOn_setCall _ _ (by simp [hc]) (by rintro c₁ ⟨⟩; rfl)).inv h rfl ht hf (by simp [hc])
    (fun p i hp ↦ absurd hp (hhandle p i)) ?_ ⟨?_, ?_⟩
  · rw [hself]
    have h1 : (1 : ℕ) = ((s.setFile f .construct).setCall t (some (.allocated f socket))).refs
        processOf N f := hrefs.symm
    exact h1 ▸ IoFile.counted_construct
  · intro u c₁ hu ho
    obtain rfl := honly u c₁ hu
    exact ⟨by rw [hself]; rfl, hhandle, honly⟩
  · rw [hself]
    refine iff_of_false (by simp [IoFile.construct]) ?_
    rintro (ho | ⟨u, c₁, hu, ha⟩)
    · cases ho
    · obtain rfl := honly u c₁ hu
      rw [hu.unique hnew] at ha
      cases ha

/-- A file with a handle is open. -/
theorem Opening.device_of_handle (h : s.Opening f) {p : ProcessId} {i : ℕ}
    (hp : s.handle p i = some f) :
    ((s.file f).device.isSome = true ↔ (s.file f).opened = true) ∧
      ∀ u c₁, s.OnFile f u c₁ → c₁.opens = false := by
  have hno : ∀ u c₁, s.OnFile f u c₁ → c₁.opens = false := fun u c₁ hu ↦ by
    by_contra ho
    exact (h.opener u c₁ hu (by simpa using ho)).2.1 p i hp
  refine ⟨h.device.trans (or_iff_left ?_), hno⟩
  rintro ⟨u, c₁, hu, ha⟩
  have ho := FileCall.opens_of_attached ha
  rw [hno u c₁ hu] at ho
  cases ho

/-- A call takes a pointer from a handle. -/
theorem Inv.references (h : s.Inv pooled processOf N) {p : ProcessId} {i : ℕ} {op : FileOp}
    (ht : t < N)
    (hc : s.call t = none) (hp : s.handle p i = some f)
    (hb : Uncrowded pooled processOf N ((s.addRef pooled f).setCall t (some (.referenced f op)))) :
    ((s.addRef pooled f).setCall t (some (.referenced f op))).Inv pooled processOf N := by
  have hf := (h.handles p i f hp).2
  rw [addRef_of_pooled hf] at hb ⊢
  obtain ⟨hdev, hno⟩ := (h.opening f hf).device_of_handle hp
  have hself : ((s.setFile f (s.file f).addRef).setCall t (some (.referenced f op))).file f =
      (s.file f).addRef := Function.update_self ..
  have hnew : ((s.setFile f (s.file f).addRef).setCall t (some (.referenced f op))).OnFile f t
      (.referenced f op) := ⟨Function.update_self .., rfl⟩
  have hclosed : ∀ u c₁, ((s.setFile f (s.file f).addRef).setCall t
      (some (.referenced f op))).OnFile f u c₁ → c₁.opens = false := fun u c₁ hu ↦ by
    by_cases hut : u = t
    · subst hut
      rw [hu.unique hnew]
      rfl
    · refine hno u c₁ ?_
      simpa only [OnFile, setCall, setFile, Function.update_of_ne hut] using hu
  have hrefs := refs_setCall (s := s) (f := f) processOf ht (s.file f).addRef
    (some (.referenced f op))
  rw [pointersOf_some hnew, pointersOf_none hc] at hrefs
  have hpos : 0 < s.refs processOf N f := Nat.pos_of_ne_zero fun hz ↦ (h.unused hz).1 p i hp
  refine (actsOn_setCall _ _ (by simp [hc]) (by rintro c₁ ⟨⟩; rfl)).inv h rfl ht hf (by simp [hc])
    (fun p i hp ↦ (h.handles p i f hp).1) ?_ ⟨?_, ?_⟩
  · have hn : ((s.setFile f (s.file f).addRef).setCall t (some (.referenced f op))).refs processOf N f =
        s.refs processOf N f + 1 := hrefs
    rw [hself, hn]
    exact (h.counted f hf).addRef hpos (hn ▸ hb f hf)
  · intro u c₁ hu ho
    rw [hclosed u c₁ hu] at ho
    cases ho
  · rw [hself]
    refine hdev.trans (or_iff_left ?_).symm
    rintro ⟨u, c₁, hu, ha⟩
    have ho := FileCall.opens_of_attached ha
    rw [hclosed u c₁ hu] at ho
    cases ho

theorem setHandle_apply (p q : ProcessId) (i j : ℕ) (o : Option FileId) :
    (s.setHandle p i o).handle q j = if (q, j) = (p, i) then o else s.handle q j := by
  by_cases hq : q = p
  · subst hq
    by_cases hj : j = i
    · simp [setHandle, hj]
    · simp [setHandle, hj]
  · simp [setHandle, hq]

theorem handleRefs_setHandle {p : ProcessId} {i : ℕ} (hi : (p, i) ∈ entries processOf N)
    (o : Option FileId) (f : FileId) :
    (s.setHandle p i o).handleRefs processOf N f + tally (s.handle p i = some f) =
      s.handleRefs processOf N f + tally (o = some f) := by
  have hc := handleRefs_change (s := s) (d := s.setHandle p i o) hi
    (fun q j hne ↦ by rw [setHandle_apply, if_neg hne]) f
  rwa [setHandle_apply, if_pos rfl] at hc

theorem setHandle_eq_some {p q : ProcessId} {i j : ℕ} {o : Option FileId}
    (h : (s.setHandle p i o).handle q j = some g) : (q, j) = (p, i) ∧ o = some g ∨
      s.handle q j = some g := by
  rw [setHandle_apply] at h
  split at h
  · exact Or.inl ⟨‹_›, h⟩
  · exact Or.inr h

/-- The other files have the handles they had. -/
theorem setHandle_eq_some_iff {p q : ProcessId} {i j : ℕ} {o : Option FileId} (hg : g ≠ f)
    (hold : ∀ g, s.handle p i = some g → g = f) (hnew : ∀ g, o = some g → g = f) :
    (s.setHandle p i o).handle q j = some g ↔ s.handle q j = some g := by
  rw [setHandle_apply]
  split
  · rename_i he
    cases he
    exact iff_of_false (fun h ↦ hg (hnew g h)) fun h ↦ hg (hold g h)
  · rfl

/-- `alloc_handle` gives the file a handle. -/
theorem Inv.inserts (h : s.Inv pooled processOf N) {i : ℕ} (hc : s.call t = some (.inserting f))
    (hi : i < elementsCount) (hfree : s.handle (processOf t) i = none)
    (hb : Uncrowded pooled processOf N
      (((s.addRef pooled f).setHandle (processOf t) i (some f)).setCall t (some (.leaving f)))) :
    (((s.addRef pooled f).setHandle (processOf t) i (some f)).setCall t (some (.leaving f))).Inv
      pooled processOf N := by
  have ht := h.lt hc
  have hf : pooled f = true := h.calls t _ hc
  have hon : s.OnFile f t (.inserting f) := ⟨hc, rfl⟩
  have hentry : (processOf t, i) ∈ entries processOf N := Finset.mem_product.mpr
    ⟨Finset.mem_image_of_mem _ (Finset.mem_range.mpr ht), Finset.mem_range.mpr hi⟩
  rw [addRef_of_pooled hf] at hb ⊢
  generalize hs' : ((s.setFile f (s.file f).addRef).setHandle (processOf t) i (some f)).setCall t
    (some (.leaving f)) = s' at hb ⊢
  have hself : s'.file f = (s.file f).addRef := by
    rw [← hs']
    exact Function.update_self ..
  have hcall : ∀ u, u ≠ t → s'.call u = s.call u := fun u hu ↦ by
    rw [← hs']
    exact Function.update_of_ne hu _ _
  have hnew : s'.OnFile f t (.leaving f) := by
    rw [← hs']
    exact ⟨Function.update_self .., rfl⟩
  have hhandle : ∀ q j, s'.handle q j = (s.setHandle (processOf t) i (some f)).handle q j :=
    fun q j ↦ by
    rw [← hs']
    rfl
  have hio : s'.io = s.io := by
    rw [← hs']
    rfl
  have hrefs : s'.refs processOf N f = s.refs processOf N f + 1 := by
    have h₁ := callRefs_change (N := N) ht hcall f
    have h₂ := handleRefs_setHandle (s := s) hentry (some f) f
    have h₃ : s'.handleRefs processOf N f =
        (s.setHandle (processOf t) i (some f)).handleRefs processOf N f :=
      count_congr fun x _ ↦ by rw [hhandle]
    rw [pointersOf_some hon, pointersOf_some hnew] at h₁
    rw [hfree, tally_of rfl, tally_of_not (by simp)] at h₂
    simp only [FileCall.pointers] at h₁
    rw [refs, refs, h₃, hio]
    omega
  have hact : s.ActsOn s' t f := {
    file := fun g hg ↦ by
      rw [← hs']
      exact Function.update_of_ne hg _ _
    handle := fun q j g hg ↦ by
      rw [hhandle]
      exact setHandle_eq_some_iff hg (by simp [hfree]) (by simp)
    call := hcall
    old := fun c₁ hc₁ ↦ (Option.some.inj (hc.symm.trans hc₁)) ▸ rfl
    new := fun c₁ hc₁ ↦ (Option.some.inj (hnew.1.symm.trans hc₁)) ▸ rfl }
  refine hact.inv h hio ht hf (fun c₁ hc₁ ↦ (Option.some.inj (hc.symm.trans hc₁)) ▸ rfl) ?_ ?_ ?_
  · intro q j hq
    rw [hhandle] at hq
    rcases setHandle_eq_some hq with ⟨he, -⟩ | hq
    · exact he ▸ hentry
    · exact (h.handles q j f hq).1
  · rw [hself, hrefs]
    exact (h.counted f hf).addRef (h.refs_pos hon) (hrefs ▸ hb f hf)
  · refine (h.opening f hf).moves hcall hon hnew (fun ho ↦ by cases ho) ?_
    rw [hself]
    simpa [FileCall.attached, IoFile.addRef] using (h.opening f hf).device_iff hon

/-- `close_handle` drops the reference of the entry. -/
theorem Inv.closes (h : s.Inv pooled processOf N) {i : ℕ} (ht : t < N) (hc : s.call t = none)
    (hp : s.handle (processOf t) i = some f) :
    ((s.setHandle (processOf t) i none).decRef pooled f).Inv pooled processOf N := by
  obtain ⟨hentry, hf⟩ := h.handles _ i f hp
  obtain ⟨hdev, -⟩ := (h.opening f hf).device_of_handle hp
  rw [decRef_of_pooled hf]
  generalize hs' : (s.setHandle (processOf t) i none).setFile f
    ((s.setHandle (processOf t) i none).file f).decRef = s'
  have hself : s'.file f = (s.file f).decRef := by
    rw [← hs']
    exact Function.update_self ..
  have hcall : s'.call = s.call := by
    rw [← hs']
    rfl
  have hhandle : ∀ q j, s'.handle q j = (s.setHandle (processOf t) i none).handle q j :=
    fun q j ↦ by
    rw [← hs']
    rfl
  have hio : s'.io = s.io := by
    rw [← hs']
    rfl
  have hrefs : s.refs processOf N f = s'.refs processOf N f + 1 := by
    have h₁ : s'.callRefs N f = s.callRefs N f := by
      simp only [callRefs, pointersOf, hcall]
    have h₂ := handleRefs_setHandle (s := s) hentry none f
    have h₃ : s'.handleRefs processOf N f =
        (s.setHandle (processOf t) i none).handleRefs processOf N f :=
      count_congr fun x _ ↦ by rw [hhandle]
    rw [hp, tally_of rfl, tally_of_not (by simp)] at h₂
    rw [refs, refs, h₁, h₃, hio]
    omega
  have hact : s.ActsOn s' t f := {
    file := fun g hg ↦ by
      rw [← hs']
      exact Function.update_of_ne hg _ _
    handle := fun q j g hg ↦ by
      rw [hhandle]
      exact setHandle_eq_some_iff hg (fun g hg ↦ Option.some.inj (hg.symm.trans hp)) (by simp)
    call := fun u _ ↦ congrFun hcall u
    old := by simp [hc]
    new := by simp [hcall, hc] }
  refine hact.inv h hio ht hf (by simp [hc]) ?_ ?_ ?_
  · intro q j hq
    rw [hhandle] at hq
    rcases setHandle_eq_some hq with ⟨-, he⟩ | hq
    · cases he
    · exact (h.handles q j f hq).1
  · rw [hself]
    exact (hrefs ▸ h.counted f hf).decRef fun _ ↦ hdev
  · refine (h.opening f hf).congr (fun u c ↦ by simp only [OnFile, hcall]) (by rw [hself]; simp)
      (by rw [hself]; simp) fun q j hq ↦ ?_
    rw [hhandle] at hq
    rcases setHandle_eq_some hq with ⟨-, he⟩ | hq
    · cases he
    · exact hq

end Files

end Chino
