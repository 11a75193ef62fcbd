import Chino.Io.FileUse
import Mathlib.Algebra.Order.BigOperators.Group.Finset

/-!
# A file lives as long as it is used

What the I/O manager does to the frames it does to their files.  A call that takes a reference finds
one that is counted already, so a file whose count got to zero is never used again, and
`device::close` was called for it then if it had been opened.

## The counter

`Chino.Io.FileUse` counts references as numbers.  `ref_count_` is a word of 32 bits, and the two
agree as long as there are fewer than `2 ^ 32` references.  `StaysUncrowded` asks this of the state
that a step leads to, for every file of the pool.

It is a condition on the number of threads and requests, not on what they do.  `file_lives` has no
other: drivers may complete requests in any order and with any results, and the calls may fail where
they like.  `Lives` is its conclusion, for one file: the count is the number of entries, live frames
and pointers in calls; `device::close` was called once at most, and just if the count is zero and
the file had been opened; and nobody who has the file finds it closed.

The bound cannot be left out.  `closed_in_use` is a run with one thread more than the counter can
count: each of them references one open file, the count comes round to one, and `close` of the
descriptor drops it to zero.  The run is not written out but built by induction on the number of
threads (`exists_crowd`), where `Crowd k` says that the first `k` threads have their references.
-/

set_option autoImplicit false

namespace Chino

open Function (update)
open Finset (range)

namespace Files

open ObjectSegment (elementsCount)

variable {device : FileId → DeviceId} {pooled : FileId → Bool} {processOf : ThreadId → ProcessId}
  {N : ℕ} {s s' : Files} {t u : ThreadId} {f g : FileId} {c c' : FileCall}

/-! ## The steps of the I/O manager -/

/-- The frames change, and the files with them. -/
theorem Base.recount (h : s.Base pooled processOf N) (hio : ∃ L, s'.io.Inv L)
    (hframes : s'.io.FramesIn) (hcall : s'.call = s.call) (hhandle : s'.handle = s.handle)
    (hfile : ∀ g, pooled g = true → (s'.file g).Counted (s'.refs processOf N g) ∧
      (s'.file g).opened = (s.file g).opened ∧ (s'.file g).device = (s.file g).device) :
    s'.Base pooled processOf N where
  io := hio
  frames := hframes
  threads t ht := hcall ▸ h.threads t ht
  handles := hhandle ▸ h.handles
  calls := hcall ▸ h.calls
  counted g hg := (hfile g hg).1
  opening g hg := (h.opening g hg).congr (fun u c ↦ by simp only [OnFile, hcall]) (hfile g hg).2.1
    (hfile g hg).2.2 fun p i hp ↦ hhandle ▸ hp

/-- Nobody opens a file that is not in use. -/
theorem Base.device_of_unused (h : s.Base pooled processOf N) (hf : pooled f = true)
    (hno : ∀ t c, ¬ s.OnFile f t c) :
    (s.file f).device.isSome = true ↔ (s.file f).opened = true :=
  (h.opening f hf).device.trans (or_iff_left fun ⟨t, c, hc, _⟩ ↦ hno t c hc)

/-- **A step of the I/O manager counts its frames.** -/
theorem Inv.count {L L' : IoQueues} {io : IoManager} {a : IoAction} (h : s.Inv pooled processOf N)
    (hL : s.io.Inv L) (ha : s.io.Acts device L a io L') (hL' : io.Inv L')
    (hp : ∀ k f, a = .move k f → pooled f = true → s.io.fileInHand = some f)
    (hb : Uncrowded pooled processOf N { s.countFrames pooled a with io := io }) :
    Base pooled processOf N { s.countFrames pooled a with io := io } := by
  have hrefs : ∀ {d : Files}, d.call = s.call → d.handle = s.handle → d.io = io → ∀ g,
      d.refs processOf N g + tally (s.io.given a = some g) =
        s.refs processOf N g + tally (s.io.taken a = some g) := by
    intro d h₁ h₂ h₃ g
    have hf := ha.frameRefs hL h.frames g
    simp only [refs, handleRefs, callRefs, pointersOf, h₁, h₂, h₃]
    omega
  have hframes := ha.framesIn hL h.frames
  -- no file of the pool gets a frame or loses one
  have hkept : (∀ g, pooled g = true → s.io.taken a ≠ some g ∧ s.io.given a ≠ some g) →
      s.countFrames pooled a = s →
        Base pooled processOf N { s.countFrames pooled a with io := io } := by
    intro hno he
    rw [he]
    refine h.recount ⟨L', hL'⟩ hframes rfl rfl fun g hpg ↦ ⟨?_, rfl, rfl⟩
    have hr := hrefs (d := { s with io := io }) rfl rfl rfl g
    rw [tally_of_not (hno g hpg).1, tally_of_not (hno g hpg).2] at hr
    exact Nat.add_right_cancel hr ▸ h.counted g hpg
  -- one does, and is counted again
  have hone : ∀ f x, pooled f = true → s.countFrames pooled a = s.setFile f x →
      (∀ g ≠ f, s.io.taken a ≠ some g ∧ s.io.given a ≠ some g) →
      x.Counted (refs processOf N { s.setFile f x with io := io } f) →
        x.opened = (s.file f).opened →
      x.device = (s.file f).device →
      Base pooled processOf N { s.countFrames pooled a with io := io } := by
    intro f x hpf he hno hx hopened hdevice
    rw [he]
    refine h.recount ⟨L', hL'⟩ hframes rfl rfl fun g hpg ↦ ?_
    by_cases hgf : g = f
    · subst hgf
      simp only [setFile, Function.update_self]
      exact ⟨hx, hopened, hdevice⟩
    · have hr := hrefs (d := { s.setFile f x with io := io }) rfl rfl rfl g
      rw [tally_of_not (hno g hgf).1, tally_of_not (hno g hgf).2] at hr
      rw [Nat.add_right_cancel hr]
      simpa [setFile, hgf] using h.counted g hpg
  -- somebody has the file that a frame is constructed for
  have htake : ∀ f, s.io.taken a = some f → s.io.given a = none →
      (pooled f = true → 0 < s.refs processOf N f) →
      Base pooled processOf N { s.countFrames pooled a with io := io } := by
    intro f ht hg hpos
    have he : s.countFrames pooled a = s.addRef pooled f := by simp [countFrames, ht, hg]
    have hno : ∀ g ≠ f, s.io.taken a ≠ some g ∧ s.io.given a ≠ some g := fun g hne ↦ by
      simp [ht, hg, hne.symm]
    by_cases hf : pooled f = true
    · rw [addRef_of_pooled hf] at he
      refine hone f _ hf he hno ?_ rfl rfl
      have hr := hrefs (d := { s.setFile f (s.file f).addRef with io := io }) rfl rfl rfl f
      rw [ht, hg, tally_of rfl, tally_of_not (Option.some_ne_none f).symm, Nat.add_zero] at hr
      rw [hr]
      rw [he] at hb
      exact (h.counted f hf).addRef (hpos hf) (hr ▸ hb f hf)
    · exact hkept (fun g hpg ↦ hno g fun hgf ↦ hf (hgf ▸ hpg)) (he.trans (if_neg hf))
  cases ha.framesEffect with
  | kept _ _ ht hg => exact hkept (by simp [ht, hg]) (by simp [countFrames, ht, hg])
  | constructed hx _ _ ht hg =>
    refine htake _ ht hg fun _ ↦ ?_
    obtain ⟨t, c, -, hc, -, hfile⟩ := h.inIo _ _ hx.callAt
    exact h.refs_pos ⟨hc, hfile _ rfl⟩
  | moved hmove hs _ _ _ ht hg =>
    refine htake _ ht hg fun hpf ↦ Nat.pos_of_ne_zero fun hz ↦ ?_
    have hhand := hp _ _ hmove hpf
    simp only [IoManager.fileInHand, hs] at hhand
    exact (h.unused hz).2.1 _ _ hhand
  | @destroyed i k _ _ _ ht hg =>
    cases hf₀ : (s.io.irp i).fileAt k with
    | none => exact hkept (by simp [ht, hg, hf₀]) (by simp [countFrames, ht, hg, hf₀])
    | some f =>
      rw [hf₀] at hg
      have he : s.countFrames pooled a = s.decRef pooled f := by simp [countFrames, ht, hg]
      have hno : ∀ g ≠ f, s.io.taken a ≠ some g ∧ s.io.given a ≠ some g := fun g hne ↦ by
        simp [ht, hg, hne.symm]
      by_cases hf : pooled f = true
      · rw [decRef_of_pooled hf] at he
        refine hone f _ hf he hno ?_ (by simp) (by simp)
        have hr := hrefs (d := { s.setFile f (s.file f).decRef with io := io }) rfl rfl rfl f
        rw [ht, hg, tally_of rfl, tally_of_not (Option.some_ne_none f).symm, Nat.add_zero] at hr
        refine IoFile.Counted.decRef (hr ▸ h.counted f hf) fun hz ↦
          h.device_of_unused hf fun t c hon ↦ ?_
        -- the last reference was the frame's
        have hpos : 0 < s.callRefs N f := callRefs_pos (h.lt hon.1) hon
        have hle : s.callRefs N f ≤
            refs processOf N { s.setFile f (s.file f).decRef with io := io } f :=
          Nat.le_add_left _ _
        omega
      · exact hkept (fun g hpg ↦ hno g fun hgf ↦ hf (hgf ▸ hpg)) (he.trans (if_neg hf))

/-- `dispatch_io_fast_slow` returns; an open has succeeded then, or its file will get rid of its
device. -/
theorem Base.resume (h : s.Base pooled processOf N) (o : Option (ThreadId × IoResult)) :
    (s.resume o).Base pooled processOf N := by
  cases o with
  | none => exact h
  | some tr =>
    obtain ⟨t, r⟩ := tr
    cases hc : s.call t with
    | none =>
      have he : s.resume (some (t, r)) = s := by
        have hcall : update s.call t none = s.call := by rw [← hc, Function.update_eq_self]
        simp [Files.resume, hc, setCall, hcall]
      rw [he]
      exact h
    | some c =>
      have hon : s.OnFile c.file t c := ⟨hc, rfl⟩
      have hdev := (h.opening _ (h.calls t c hc)).device_iff hon
      have hcount := h.counted _ (h.calls t c hc)
      by_cases hok : ∃ f socket b, c = .opening f socket ∧ r = .ok b
      · obtain ⟨f, socket, b, rfl, rfl⟩ := hok
        have he : s.resume (some (t, .ok b)) =
            (s.setFile f { s.file f with opened := true }).setCall t (some (.opened f socket)) := by
          simp [Files.resume, hc, FileCall.back]
        rw [he]
        have hpos := h.refs_pos hon
        refine h.goesOn (f := f) (b := .opened f socket) hon rfl (fun n hn ↦ ?_)
          (fun ho ↦ by cases ho) ?_
        · obtain rfl : n = s.refs processOf N f := Nat.add_right_cancel hn
          refine ⟨hcount.count, ?_, fun hfresh ↦ absurd (hcount.fresh hfresh).1 hpos.ne'⟩
          have hz : ¬ s.refs processOf N f = 0 := hpos.ne'
          have := hcount.closes
          simpa [FileCall.file, hz] using this
        · simpa [FileCall.attached, FileCall.file] using hdev
      · have he : s.resume (some (t, r)) =
            (s.setFile c.file (s.file c.file)).setCall t (some (c.back r)) := by
          rw [setFile_self]
          cases c with
          | opening f socket =>
            cases r with
            | ok b => exact absurd ⟨f, socket, b, rfl, rfl⟩ hok
            | err e => simp [Files.resume, hc]
          | _ => simp [Files.resume, hc]
        rw [he]
        have hback : (c.back r).opens = c.opens ∧ (c.back r).attached = c.attached := by
          cases c with
          | opening f socket =>
            cases r with
            | ok b => exact absurd ⟨f, socket, b, rfl, rfl⟩ hok
            | err e => exact ⟨rfl, rfl⟩
          | _ => exact ⟨rfl, rfl⟩
        obtain ⟨hopens, hatt⟩ := hback
        refine h.goesOn hon (c.back_file r) (fun n hn ↦ ?_) (fun ho ↦ ⟨hopens ▸ ho, rfl⟩)
          (hatt ▸ hdev)
        rw [c.back_pointers] at hn
        exact Nat.add_right_cancel hn ▸ hcount

theorem resume_io (s : Files) (o : Option (ThreadId × IoResult)) (io : IoManager) :
    { s.resume o with io := io } = Files.resume { s with io := io } o := by
  cases o with
  | none => rfl
  | some tr =>
    obtain ⟨t, r⟩ := tr
    unfold Files.resume
    dsimp only
    split <;> simp_all [setCall, setFile]

theorem resume_call (o : Option (ThreadId × IoResult)) (hu : ∀ r, o ≠ some (u, r)) :
    (s.resume o).call u = s.call u := by
  cases o with
  | none => rfl
  | some tr =>
    obtain ⟨t, r⟩ := tr
    have hut : u ≠ t := fun h ↦ hu r (h ▸ rfl)
    unfold Files.resume
    dsimp only
    split <;> exact Function.update_of_ne hut _ _

/-- The call that goes on has the pointers it had. -/
theorem resume_refs (s : Files) (o : Option (ThreadId × IoResult)) (f : FileId) :
    (s.resume o).refs processOf N f = s.refs processOf N f := by
  have hptr : ∀ t, (s.resume o).pointersOf f t = s.pointersOf f t := fun t ↦ by
    cases o with
    | none => rfl
    | some ur =>
      obtain ⟨u, r⟩ := ur
      by_cases htu : t = u
      · subst htu
        cases hc : s.call t with
        | none =>
          have hn : (s.resume (some (t, r))).call t = none := by simp [Files.resume, hc, setCall]
          rw [pointersOf_none hn, pointersOf_none hc]
        | some c =>
          have hb : (s.resume (some (t, r))).call t = some (c.back r) := by
            unfold Files.resume
            dsimp only
            split <;> simp [setCall, hc]
          simp [pointersOf, hb, hc]
      · rw [pointersOf, resume_call (u := t) _ fun r' he ↦ htu (by cases he; rfl)]
        rfl
  have hsame : (s.resume o).handle = s.handle ∧ (s.resume o).io = s.io := by
    unfold Files.resume
    split
    · dsimp only
      split <;> exact ⟨rfl, rfl⟩
    · exact ⟨rfl, rfl⟩
  simp only [refs, handleRefs, callRefs, hptr, hsame.1, hsame.2]

theorem countFrames_call (s : Files) (a : IoAction) : (s.countFrames pooled a).call = s.call := by
  have hadd : ∀ (s : Files) f, (s.addRef pooled f).call = s.call := fun s f ↦ by
    unfold addRef; split <;> rfl
  have hdec : ∀ (s : Files) f, (s.decRef pooled f).call = s.call := fun s f ↦ by
    unfold decRef; split <;> rfl
  unfold countFrames
  cases s.io.taken a <;> cases s.io.given a <;> simp [hadd, hdec]

/-- A call that returns is over. -/
theorem call_of_returns {s s' : IoManager} {a : IoAction} {r : IoResult}
    (hn : s.next device a = some s') (hr : s.returns a = some (t, r)) : s'.call t = none := by
  unfold IoManager.returns at hr
  split at hr
  · split at hr
    · rename_i u r' f kind block hc
      split at hr
      · cases hr
      · cases hr
        simp only [IoManager.next, IoManager.callOf, hc, Option.some.injEq] at hn
        rw [if_neg ‹_›] at hn
        simp [← hn, IoManager.setCall]
    · cases hr
  · rename_i u
    obtain ⟨c, hc, he⟩ := Option.map_eq_some_iff.mp hr
    cases he
    simp only [IoManager.next, IoManager.callOf, hc] at hn
    split at hn
    · cases hn
      simp [IoManager.setCall]
    · cases hn
  · split at hr
    · rename_i u i r' hc
      cases hr
      simp only [IoManager.next, hc, Option.bind_eq_bind, Option.bind_some, IoManager.advanceCall,
        Option.some.injEq] at hn
      simp [← hn, IoManager.setCall]
    · cases hr
  · cases hr

/-- The calls in the I/O manager stay with their threads. -/
theorem InIo.resume {L L' : IoQueues} {io : IoManager} {a : IoAction} (h : s.InIo)
    (ha : s.io.Acts device L a io L') (hn : s.io.next device a = some io)
    (hd : ∀ x f kind block, a ≠ .dispatch x f kind block) :
    InIo { (s.countFrames pooled a).resume (s.io.returns a) with io := io } := by
  -- the call was there before, and about the same file
  have hold : ∀ p c, io.callAt p = some c → ∃ c₀, s.io.callAt p = some c₀ ∧
      ∀ f, c.file? = some f → c₀.file? = some f := by
    intro p c hc
    rcases ha.callAt with he | ⟨q, c', he, h'⟩
    · exact ⟨c, he ▸ hc, fun _ hf ↦ hf⟩
    · by_cases hpq : p = q
      · rw [h', hpq, Function.update_self] at hc
        rw [hpq]
        generalize s.io.callAt q = c₀ at he
        cases he with
        | dispatch => exact absurd rfl (hd _ _ _ _)
        | moves hm => cases hm <;> cases hc <;> exact ⟨_, rfl, fun f hf ↦ by cases hf <;> rfl⟩
        | allocate | resume => cases hc; exact ⟨_, rfl, fun f hf ↦ by cases hf⟩
        | enqueue hc₁ =>
          cases hc
          refine ⟨_, rfl, fun f hf ↦ ?_⟩
          split at hc₁ <;> (subst hc₁; cases hf)
        | drop => cases hc
      · rw [h', Function.update_of_ne hpq] at hc
        exact ⟨c, hc, fun _ hf ↦ hf⟩
  intro p c hc
  obtain ⟨c₀, hc₀, hfile⟩ := hold p c hc
  obtain ⟨t, c', rfl, ht, hin, hf⟩ := h p c₀ hc₀
  refine ⟨t, c', rfl, ?_, hin, fun f hcf ↦ hf f (hfile f hcf)⟩
  have hne : ∀ r, s.io.returns a ≠ some (t, r) := fun r hr ↦ by
    have hnone : io.callAt (.thread t) = none := call_of_returns hn hr
    rw [hnone] at hc
    cases hc
  have hcall := (resume_call (s := s.countFrames pooled a) _ hne).trans
    (congrFun (countFrames_call s a) t)
  exact hcall.trans ht

/-! ## Every step -/

theorem Inv.dispatches (h : s.Inv pooled processOf N) {kind : IoFrameKind} {block : Option BlockId}
    {io : IoManager} (hc : s.call t = some c) (hd : c.dispatch? = some (f, kind, block, c'))
    (hn : s.io.next device (.dispatch (.thread t) f kind block) = some io) :
    Inv pooled processOf N { s.setCall t (some c') with io := io } := by
  have hc' : c.file = f ∧ c'.file = f ∧ c'.pointers = c.pointers ∧ c'.opens = c.opens ∧
      c'.attached = c.attached ∧ c'.inIo = true := by
    cases c with
    | prepared f socket => cases hd; exact ⟨rfl, rfl, rfl, rfl, rfl, rfl⟩
    | referenced f op => cases hd; exact ⟨rfl, rfl, rfl, rfl, rfl, rfl⟩
    | _ => cases hd
  obtain ⟨hf, hf', hptr, hopens, hatt, hin⟩ := hc'
  have hon : s.OnFile f t c := ⟨hc, hf⟩
  have hpf : pooled f = true := hf ▸ h.calls t c hc
  have hbase : (s.setCall t (some c')).Base pooled processOf N := by
    rw [← setFile_self s f]
    refine h.toBase.goesOn hon hf' (fun n hn ↦ ?_) (fun ho ↦ ⟨hopens ▸ ho, rfl⟩)
      (hatt ▸ (h.opening f hpf).device_iff hon)
    rw [hptr] at hn
    exact Nat.add_right_cancel hn ▸ h.counted f hpf
  obtain ⟨L, hL⟩ := h.io
  obtain ⟨L', ha, hr⟩ := hL.acts hn
  have hframes : io.frameRefs = s.io.frameRefs := funext fun g ↦ by
    have hg := ha.frameRefs hL h.frames g
    exact Nat.add_right_cancel hg
  refine ⟨hbase.recount ⟨L', ha.inv hL hr⟩ (ha.framesIn hL h.frames) rfl rfl fun g hg ↦
    ⟨?_, rfl, rfl⟩, ?_⟩
  · have he : refs processOf N { s.setCall t (some c') with io := io } g =
        (s.setCall t (some c')).refs processOf N g := by
      rw [refs, refs, hframes]
      rfl
    exact he ▸ hbase.counted g hg
  · intro p c₁ hc₁
    have hio : io.callAt = update s.io.callAt (.thread t) (some (.fast f kind block)) := by
      simp only [IoManager.next] at hn
      split at hn
      · rename_i hcan
        cases hn
        exact (IoManager.inCall_of_canCall hcan).callAt_setCall_of rfl rfl
      · cases hn
    by_cases hp : p = .thread t
    · rw [hio, hp, Function.update_self] at hc₁
      cases hc₁
      refine ⟨t, c', hp, Function.update_self .., hin, fun g hg ↦ ?_⟩
      cases hg
      exact hf'
    · rw [hio, Function.update_of_ne hp] at hc₁
      obtain ⟨u, c₂, rfl, hu, hin₂, hfile⟩ := h.inIo p c₁ hc₁
      have hut : u ≠ t := fun he ↦ hp (he ▸ rfl)
      exact ⟨u, c₂, rfl, (Function.update_of_ne hut _ _).trans hu, hin₂, hfile⟩

/-- The next step of a call outside of the I/O manager. -/
theorem Inv.advances (h : s.Inv pooled processOf N) (hc : s.call t = some c)
    (hn : s.advance device pooled t c = some s') (hb : s'.Uncrowded pooled processOf N) :
    s'.Inv pooled processOf N := by
  have hon : s.OnFile c.file t c := ⟨hc, rfl⟩
  have hf := h.calls t c hc
  have hcount := h.counted _ hf
  have hpos := h.refs_pos hon
  have hdev := (h.opening _ hf).device_iff hon
  cases c with
  | allocated f socket =>
    obtain ⟨x, hx, he⟩ := Option.bind_eq_some_iff.mp hn
    cases he
    simp only [IoFile.prepareToOpen] at hx
    split at hx
    · cases hx
      refine h.goesOn (f := f) hon rfl rfl (fun n hn ↦ ?_) (fun ho ↦ ⟨rfl, rfl⟩) ?_
      · exact Nat.add_right_cancel hn ▸ hcount.setDevice hpos _
      · simp [FileCall.attached]
    · cases hx
  | failed f =>
    cases hn
    refine h.goesOn (f := f) hon rfl rfl (fun n hn ↦ ?_) (fun ho ↦ by cases ho) ?_
    · exact Nat.add_right_cancel hn ▸ hcount.setDevice hpos none
    · have ho := ((h.opening f hf).opener t _ hon rfl).1
      simp [IoFile.failedToOpen, FileCall.attached, ho]
  | opened f socket =>
    cases hn
    rw [addRef_of_pooled (f := f) hf] at hb ⊢
    refine h.goesOn (f := f) hon rfl rfl (fun n hn ↦ ?_) (fun ho ↦ by cases ho) hdev
    have hn' : n = s.refs processOf N f + 1 := by
      simp only [FileCall.pointers] at hn
      omega
    have hr : ((s.setFile f (s.file f).addRef).setCall t (some (.copied f socket))).refs processOf N
        f = s.refs processOf N f + 1 := by
      have hr' := refs_setCall (s := s) (f := f) processOf (h.lt hc) (s.file f).addRef
        (some (.copied f socket))
      have hnew : ((s.setFile f (s.file f).addRef).setCall t (some (.copied f socket))).OnFile f t
        (.copied f socket) := ⟨Function.update_self .., rfl⟩
      rw [pointersOf_some hnew, pointersOf_some (f := f) hon] at hr'
      exact Nat.add_right_cancel hr'
    exact hn' ▸ hcount.addRef hpos (hr ▸ hb f hf)
  | copied f socket =>
    cases hn
    rw [decRef_of_pooled (f := f) hf]
    refine h.goesOn (f := f) hon rfl (by split <;> rfl) (fun n hn ↦ ?_)
      (fun ho ↦ by split at ho <;> cases ho) ?_
    · have hn' : s.refs processOf N f = n + 1 := by
        have hp : (if socket then FileCall.created f else .inserting f).pointers = 1 := by
          split <;> rfl
        rw [hp] at hn
        simp only [FileCall.pointers] at hn
        omega
      exact (hn' ▸ hcount).decRef fun _ ↦ by simpa [FileCall.attached] using hdev
    · have ha : (if socket then FileCall.created f else .inserting f).attached = false := by
        split <;> rfl
      rw [ha]
      simpa [FileCall.attached, FileCall.file] using hdev
  | leaving f =>
    cases hn
    exact h.leaves hc
  | _ => cases hn

/-- **A step keeps the references counted.** -/
theorem Inv.next {a : FileAction} (h : s.Inv pooled processOf N)
    (hn : s.next device pooled processOf N a = some s') (hb : s'.Uncrowded pooled processOf N) :
    s'.Inv pooled processOf N := by
  cases a with
  | allocate t f socket =>
    simp only [Files.next] at hn
    split at hn
    · rename_i hc
      cases hn
      exact h.allocates hc.2.1 hc.1 hc.2.2.1 hc.2.2.2
    · cases hn
  | dispatch t =>
    simp only [Files.next, Option.bind_eq_bind, Option.bind_eq_some_iff, Option.some.injEq] at hn
    obtain ⟨c, hc, ⟨f, kind, block, c'⟩, hd, io, hio, rfl⟩ := hn
    exact h.dispatches hc hd hio
  | io a =>
    simp only [Files.next] at hn
    split at hn
    · rename_i hp
      simp only [nextIo, Option.bind_eq_bind, Option.bind_eq_some_iff, Option.some.injEq] at hn
      obtain ⟨io, hio, rfl⟩ := hn
      obtain ⟨L, hL⟩ := h.io
      obtain ⟨L', ha, hr⟩ := hL.acts hio
      rw [resume_io] at hb ⊢
      have hbase := h.count hL ha (ha.inv hL hr) (fun k f hm hf ↦ by
        subst hm
        simpa [permits, hf] using hp) fun f hf ↦ resume_refs _ _ f ▸ hb f hf
      refine ⟨hbase.resume (s.io.returns a), ?_⟩
      rw [← resume_io]
      refine h.inIo.resume ha hio fun x f kind block hd ↦ ?_
      subst hd
      cases hp
    · cases hn
  | advance t =>
    simp only [Files.next, Option.bind_eq_bind, Option.bind_eq_some_iff] at hn
    obtain ⟨c, hc, hn⟩ := hn
    exact h.advances hc hn hb
  | socket t ok =>
    simp only [Files.next] at hn
    split at hn
    · rename_i f hc
      cases hn
      have hon : s.OnFile f t (.created f) := ⟨hc, rfl⟩
      have hf : pooled f = true := h.calls t _ hc
      rw [← setFile_self s f]
      refine h.goesOn hon rfl (by split <;> rfl) (fun n hn ↦ ?_)
        (fun ho ↦ by split at ho <;> cases ho) ?_
      · have hp : (if ok then FileCall.inserting f else .leaving f).pointers = 1 := by
          split <;> rfl
        rw [hp] at hn
        exact Nat.add_right_cancel hn ▸ h.counted f hf
      · have ha : (if ok then FileCall.inserting f else .leaving f).attached = false := by
          split <;> rfl
        rw [ha]
        simpa [FileCall.attached] using (h.opening f hf).device_iff hon
    · cases hn
  | allocHandle t i =>
    simp only [Files.next] at hn
    split at hn
    · rename_i f i hc
      split at hn
      · rename_i hi
        cases hn
        exact h.inserts hc hi.1 hi.2 hb
      · cases hn
    · rename_i f hc
      cases hn
      have hon : s.OnFile f t (.inserting f) := ⟨hc, rfl⟩
      have hf : pooled f = true := h.calls t _ hc
      rw [← setFile_self s f]
      refine h.goesOn hon rfl rfl (fun n hn ↦ ?_) (fun ho ↦ by cases ho) ?_
      · exact Nat.add_right_cancel hn ▸ h.counted f hf
      · simpa [FileCall.attached] using (h.opening f hf).device_iff hon
    · cases hn
  | reference t i op =>
    simp only [Files.next] at hn
    split at hn
    · rename_i hc
      simp only [Option.bind_eq_bind, Option.bind_eq_some_iff, Option.some.injEq] at hn
      obtain ⟨f, hp, rfl⟩ := hn
      exact h.references hc.2 hc.1 hp hb
    · cases hn
  | closeHandle t i =>
    simp only [Files.next] at hn
    split at hn
    · rename_i hc
      simp only [Option.bind_eq_bind, Option.bind_eq_some_iff, Option.some.injEq] at hn
      obtain ⟨f, hp, rfl⟩ := hn
      exact h.closes hc.2 hc.1 hp
    · cases hn

theorem inv_init : init.Inv pooled processOf N where
  io := ⟨_, IoManager.inv_init⟩
  frames := IoManager.framesIn_init
  threads _ _ := rfl
  handles _ _ _ hp := by cases hp
  calls _ _ hc := by cases hc
  counted f hf := by
    have hr : init.refs processOf N f = 0 := by
      have h₁ : init.handleRefs processOf N f = 0 := count_eq_zero fun x _ hx ↦ by cases hx
      have h₂ : init.io.frameRefs f = 0 := count_eq_zero fun x _ hx ↦ by cases hx
      have h₃ : init.callRefs N f = 0 := Finset.sum_eq_zero fun t _ ↦ rfl
      rw [refs, h₁, h₂, h₃]
    exact hr ▸ IoFile.counted_unallocated
  opening f hf :=
    ⟨fun t c hc ↦ (by cases hc.1), iff_of_false (by simp [init, IoFile.unallocated]) (by
      rintro (ho | ⟨t, c, hc, -⟩)
      · cases ho
      · cases hc.1)⟩
  inIo p c hc := by
    cases p with
    | thread t => cases hc
    | level n => cases n <;> cases hc

/-- The counters can count what the step leads to. -/
def StaysUncrowded (device : FileId → DeviceId) (pooled : FileId → Bool)
    (processOf : ThreadId → ProcessId) (N : ℕ) (s : Files) (a : FileAction) : Prop :=
  ∀ s', s.next device pooled processOf N a = some s' → s'.Uncrowded pooled processOf N

theorem inv_of_uncrowded
    (h : (machine device pooled processOf N).ReachableWhile
      (StaysUncrowded device pooled processOf N) s) :
    s.Inv pooled processOf N :=
  h.invariant (I := fun s ↦ s.Inv pooled processOf N) inv_init fun _ _ s' _ hI hc hn ↦
    hI.next hn (hc s' hn)

/-- The file is there as long as somebody refers to it. -/
structure Lives (processOf : ThreadId → ProcessId) (N : ℕ) (s : Files) (f : FileId) : Prop where
  count : (s.file f).refCount.toNat =
    s.handleRefs processOf N f + s.io.frameRefs f + s.callRefs N f
  /-- `device::close` was called once if the file was opened and has no reference left, and else not
  yet. -/
  closes : (s.file f).closes = if (s.file f).opened = true ∧ (s.file f).refCount = 0 then 1 else 0
  /-- Then nobody refers to it. -/
  closed : 0 < (s.file f).closes → (∀ p i, s.handle p i ≠ some f) ∧
    (∀ i k, (s.io.irp i).fileAt k ≠ some f) ∧ ∀ t c, s.call t = some c → c.file ≠ f

/-- **A pooled file lives exactly as long as it is used,** in runs in which no counter wraps
around. -/
theorem file_lives
    (h : (machine device pooled processOf N).ReachableWhile
      (StaysUncrowded device pooled processOf N) s)
    (hf : pooled f = true) : s.Lives processOf N f := by
  have hI := inv_of_uncrowded h
  obtain ⟨hcount, hcloses, -⟩ := hI.counted f hf
  have hzero : (s.file f).refCount = 0 ↔ s.refs processOf N f = 0 := Counter.eq_zero_iff hcount
  refine ⟨hcount, by simpa only [hzero] using hcloses, fun hpos ↦ ?_⟩
  have hz : s.refs processOf N f = 0 := by
    by_contra hne
    rw [hcloses, if_neg fun h ↦ hne h.2] at hpos
    exact lt_irrefl _ hpos
  obtain ⟨h₁, h₂, h₃⟩ := hI.unused hz
  exact ⟨h₁, h₂, fun t c hc hfile ↦ h₃ t c ⟨hc, hfile⟩⟩

/-! ## Runs with few references -/

/-- There are no more references than entries, frames and pointers of threads. -/
theorem refs_le (s : Files) (f : FileId) :
    s.refs processOf N f ≤ N * elementsCount + s.io.allocated * frameCount + N * 2 := by
  have h₁ : s.handleRefs processOf N f ≤ N * elementsCount := by
    refine count_le_card.trans ?_
    rw [entries, Finset.card_product, Finset.card_range]
    exact Nat.mul_le_mul_right _ (Finset.card_image_le.trans (Finset.card_range N).le)
  have h₂ : s.io.frameRefs f ≤ s.io.allocated * frameCount := by
    refine count_le_card.trans ?_
    rw [Finset.card_product, Finset.card_range, Finset.card_range]
  have h₃ : s.callRefs N f ≤ N * 2 := by
    refine (Finset.sum_le_card_nsmul (range N) _ 2 fun t _ ↦ ?_).trans_eq ?_
    · unfold pointersOf
      split
      · split
        · exact FileCall.pointers_le_two _
        · exact Nat.zero_le 2
      · exact Nat.zero_le 2
    · rw [Finset.card_range]
      rfl
  rw [refs]
  omega

/-- The step leads to a state with at most `n` requests so far. -/
def FewRequests (device : FileId → DeviceId) (pooled : FileId → Bool)
    (processOf : ThreadId → ProcessId) (N n : ℕ) (s : Files) (a : FileAction) : Prop :=
  ((s.next device pooled processOf N a).all fun s' ↦ s'.io.allocated ≤ n) = true

instance (n : ℕ) : ∀ s a, Decidable (FewRequests device pooled processOf N n s a) := fun _ _ ↦
  inferInstanceAs (Decidable (Option.all _ _ = true))

theorem staysUncrowded_of_fewRequests {n : ℕ} {a : FileAction}
    (hn : N * elementsCount + n * frameCount + N * 2 < 2 ^ 32)
    (h : FewRequests device pooled processOf N n s a) :
    StaysUncrowded device pooled processOf N s a := by
  intro s' hs' f _
  have hle : s'.io.allocated ≤ n := by simpa [FewRequests, hs'] using h
  have hm := Nat.mul_le_mul_right frameCount hle
  exact (refs_le s' f).trans_lt (by omega)

/-- A file is opened, read asynchronously and closed before the request is completed. -/
def closedEarly : List FileAction :=
  ([.allocate 0 0 false, .advance 0, .dispatch 0, .io (.fast (.thread 0) (.ok 0)),
  .advance 0, .advance 0,
    .allocHandle 0 (some 0), .advance 0, .reference 0 0 (.readAsync 7), .dispatch 0,
    .io (.fast (.thread 0) (.err .slowIo))] : List FileAction) ++
    (List.replicate 4 (.io (.advance (.thread 0))) : List FileAction) ++
    ([.advance 0, .closeHandle 0 0] : List FileAction) ++
    ([.io (.advance .worker), .io (.advance .worker),
      .io (.complete (.ok (some 5)))] : List FileAction) ++
    (List.replicate 4 (.io (.advance .worker)) : List FileAction)

/-- The frame has the last reference, and the worker closes the file with it. -/
theorem file_lives_closedEarly :
    ((machine id (fun _ ↦ true) id 1).afterWhile (FewRequests id (fun _ ↦ true) id 1 1)
        closedEarly).Lives id 1 0 ∧
      (((machine id (fun _ ↦ true) id 1).afterWhile (FewRequests id (fun _ ↦ true) id 1 1)
        closedEarly).file 0).closes = 1 :=
  ⟨file_lives ((Machine.reachableWhile_afterWhile closedEarly).mono fun _ _ h ↦
    staysUncrowded_of_fewRequests (by decide) h) rfl, by decide +kernel⟩

/-! ## A counter that wraps around -/

/-- The process opens a file and gets the handle `0`. -/
def openingRun : List FileAction :=
  [.allocate 0 0 false, .advance 0, .dispatch 0, .io (.fast (.thread 0) (.ok 0)),
  .advance 0, .advance 0,
    .allocHandle 0 (some 0), .advance 0]

/-- One process, and one thread more than the counter can count. -/
def crowded : Machine Files FileAction :=
  machine id (fun _ ↦ true) (fun _ ↦ 0) (2 ^ 32 + 1)

/-- The first `k` threads have just referenced the file for a read. -/
structure Crowd (k : ℕ) (s : Files) : Prop where
  handle : s.handle 0 0 = some 0
  count : (s.file 0).refCount = 1 + UInt32.ofNat k
  device : (s.file 0).device.isSome = true
  reading : ∀ t < k, s.call t = some (.referenced 0 .read)
  idle : ∀ t, k ≤ t → s.call t = none

theorem crowd_openingRun : Crowd 0 (crowded.after openingRun) where
  handle := by decide +kernel
  count := by decide +kernel
  device := by decide +kernel
  reading t ht := absurd ht (Nat.not_lt_zero t)
  idle t _ := by cases t <;> rfl

/-- One more thread references the file. -/
theorem Crowd.reference {k : ℕ} (h : Crowd k s) (hk : k < 2 ^ 32 + 1) :
    ∃ s', crowded.next s (.reference k 0 .read) = some s' ∧ Crowd (k + 1) s' := by
  have hn : crowded.next s (.reference k 0 .read) =
      some ((s.setFile 0 (s.file 0).addRef).setCall k (some (.referenced 0 .read))) := by
    have hadd : s.addRef (fun _ ↦ true) 0 = s.setFile 0 (s.file 0).addRef := addRef_of_pooled rfl
    rw [← hadd]
    exact (if_pos ⟨h.idle k le_rfl, hk⟩).trans (by rw [h.handle]; rfl)
  have hfile : ((s.setFile 0 (s.file 0).addRef).setCall k (some (.referenced 0 .read))).file 0 =
      (s.file 0).addRef := by simp [setFile, setCall]
  refine ⟨_, hn, h.handle, ?_, hfile ▸ h.device, fun t ht ↦ ?_, fun t ht ↦ ?_⟩
  · rw [hfile, IoFile.addRef, h.count, UInt32.ofNat_add, ← UInt32.add_assoc]
    rfl
  · by_cases htk : t = k
    · subst htk
      exact Function.update_self ..
    · exact (Function.update_of_ne htk _ _).trans (h.reading t (by omega))
  · have htk : t ≠ k := (Nat.lt_of_succ_le ht).ne'
    exact (Function.update_of_ne htk _ _).trans (h.idle t (Nat.le_of_succ_le ht))

theorem exists_crowd (k : ℕ) (hk : k ≤ 2 ^ 32) : ∃ s, crowded.Reachable s ∧ Crowd k s := by
  induction k with
  | zero => exact ⟨_, Machine.reachable_after openingRun, crowd_openingRun⟩
  | succ k ih =>
    obtain ⟨s, hs, hcrowd⟩ := ih (by omega)
    obtain ⟨s', hn, hcrowd'⟩ := hcrowd.reference (by omega)
    exact ⟨s', hs.step hn, hcrowd'⟩

/-- **A file that is closed in use.**  With `2 ^ 32` references besides the handle's the counter is
one, so closing the handle calls `device::close`. -/
theorem closed_in_use : ∃ s, crowded.Reachable s ∧ ¬ s.Lives (fun _ ↦ 0) (2 ^ 32 + 1) 0 := by
  obtain ⟨s, hs, h⟩ := exists_crowd (2 ^ 32) le_rfl
  have hone : (s.file 0).refCount = 1 := by
    rw [h.count]
    decide
  have hn : crowded.next s (.closeHandle (2 ^ 32) 0) =
      some ((s.setHandle 0 0 none).setFile 0 (s.file 0).decRef) := by
    have hdec : (s.setHandle 0 0 none).decRef (fun _ ↦ true) 0 =
        (s.setHandle 0 0 none).setFile 0 (s.file 0).decRef := decRef_of_pooled rfl
    rw [← hdec]
    exact (if_pos ⟨h.idle _ le_rfl, Nat.lt_succ_self _⟩).trans (by rw [h.handle]; rfl)
  refine ⟨_, hs.step hn, fun hlives ↦ ?_⟩
  have hfile : ((s.setHandle 0 0 none).setFile 0 (s.file 0).decRef).file 0 = (s.file 0).decRef := by
    simp [setFile]
  have hclosed : 0 < (((s.setHandle 0 0 none).setFile 0 (s.file 0).decRef).file 0).closes := by
    rw [hfile]
    simp [IoFile.decRef, IoFile.destroy, hone, h.device]
  exact (hlives.closed hclosed).2.2 0 _ (h.reading 0 (by decide)) rfl

end Files

end Chino
