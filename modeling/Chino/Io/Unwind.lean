import Chino.Io.Request
import Chino.Library.Run

/-!
# The frames of one request

Any drivers work on one request: they construct a next frame, queue the request to the device of its
current frame, and one of them completes it.  `complete` ends the current frame and calls
`on_io_completion` of the device of the frame below, and a device that does not override this calls
`complete` again.

An event is a call of a driver, or the next part of the call of `complete` that is in progress.  The
drivers make their calls one after another, and not on a request that is completed: the code then
goes through a null pointer.  Such an access and a failed assertion have no next state.

`handed`, `notified` and `destroyed` record the devices whose `queue_io` was called, the files whose
events were notified and the frames that were destroyed; `ready` has the blocks that were queued to
their processes, with their results.  A waiter reads the status of the request, which `complete`
does not write (`status_advance`).

## The recursion

`complete` is called for the current frame, destroys it, makes the one below current, and calls
`on_io_completion` there, which calls `complete` again unless a device overrides it.  In between
others may run, so the recursion is a stack of places (`Control`) and not a function.

* `Unwinds` is a call of `complete` from its first part to any later one.
* `Ends` is how one call ends: it has destroyed its frame and notified the waiters of the file, and
  it is about to call `complete` for the frame below, or there was none and it has returned.
* `unwinds_ends` says that one call whose assertions hold gets there, and `unwinds_unwound` goes
  down the stack by induction on its depth.

`frames_unwind` is the whole of it: the frames are a stack of at most three, `move_next_frame` fails
just when it is full, and a call of `complete` from any depth ends with no frame left, each
destroyed once, each file notified, each device handed on in the order of the frames.
-/

set_option autoImplicit false

namespace Chino

namespace IoRequest

/-- What `complete(result)` writes to the status; `complete()` writes nothing. -/
def finish (r : IoRequest) : Option Completion → IoRequest
  | some result => (r.finishCode result).finishBytes result
  | none => r

/-- The files of the frames below the `n`-th one, from the top down. -/
def filesBelow (r : IoRequest) (n : ℕ) : List FileId :=
  (List.range n).reverse.filterMap fun k ↦ (r.frames k).map IoFrame.file

variable {r r' : IoRequest} {c k : ℕ}

@[simp] theorem finish_frames (result : Option Completion) :
    (r.finish result).frames = r.frames := by
  cases result with
  | none => rfl
  | some result => exact finishBytes_frames _ result

@[simp] theorem finish_currentFrame (result : Option Completion) :
    (r.finish result).currentFrame = r.currentFrame := by
  cases result with
  | none => rfl
  | some result => exact finishBytes_currentFrame _ result

@[simp] theorem finish_asyncIoBlock (result : Option Completion) :
    (r.finish result).asyncIoBlock = r.asyncIoBlock := by
  cases result with
  | none => rfl
  | some result => exact finishBytes_asyncIoBlock _ result

theorem finish_status (result : Completion) (h : r.status.bytesTransferred = 0) :
    (r.finish (some result)).status = ⟨result.code, result.bytes⟩ := by
  cases result with
  | ok bytes => cases bytes with
    | none => simp [finish, finishCode, finishBytes, Completion.bytes, h]
    | some bytes => rfl
  | err e => simp [finish, finishCode, finishBytes, Completion.bytes, h]

theorem filesBelow_succ {frame : IoFrame} (h : r.frames k = some frame) :
    r.filesBelow (k + 1) = frame.file :: r.filesBelow k := by
  rw [filesBelow, List.range_succ, List.reverse_append]
  simp [h, filesBelow]

theorem filesBelow_congr (h : ∀ i < k, r'.frames i = r.frames i) :
    r'.filesBelow k = r.filesBelow k := by
  refine List.filterMap_congr fun i hi ↦ ?_
  rw [h i (List.mem_range.mp (List.mem_reverse.mp hi))]

/-- **`move_next_frame` fails if and only if all frames are alive.** -/
theorem moveNextFrame_eq_none (h : r.Stacked) (hc : r.currentFrame = some c)
    (hlt : c < frameCount) (kind : IoFrameKind) (f : FileId) :
    r.moveNextFrame kind f = none ↔ ∀ k < frameCount, (r.frames k).isSome = true := by
  have hnone : r.moveNextFrame kind f = none ↔ c = frameCount - 1 := by
    simp [moveNextFrame, hc]
  rw [hnone]
  constructor
  · rintro rfl k hk
    exact (h k).mpr ⟨frameCount - 1, hc, Nat.le_sub_one_of_lt hk⟩
  · intro hall
    obtain ⟨c', hc', hle⟩ := (h (frameCount - 1)).mp (hall _ (by decide))
    cases hc.symm.trans hc'
    omega

end IoRequest

/-- Where the calls on a request are. -/
inductive Control where
  /-- A driver can make a call. -/
  | drivers
  /-- At the head of `complete`, which `on_io_completion` has called if `nested`. -/
  | complete (nested : Bool)
  /-- The event was notified. -/
  | destroy
  /-- The last frame was destroyed. -/
  | deliver
  /-- In the `on_io_completion` of a device. -/
  | onIoCompletion (d : DeviceId)
deriving DecidableEq

/-- A request, whose turn it is, and what has happened to it. -/
structure IrpRun where
  irp : IoRequest
  control : Control
  inIrqHandler : Bool
  handed : List DeviceId
  notified : List FileId
  destroyed : List ℕ
  ready : List (BlockId × IoStatus)

/-- What drivers do with the request, and the steps that follow from it. -/
inductive IrpEvent where
  | moveNextFrame (kind : IoFrameKind) (f : FileId)
  | queue
  /-- `complete(result)`, or `complete()` without a result. -/
  | complete (inIrqHandler : Bool) (result : Option Completion)
  | advance
deriving DecidableEq

namespace IrpRun

/-- The assertions at the head of `complete`. -/
def Asserts (s : IrpRun) : Prop :=
  s.irp.isCompleted = false ∧ s.inIrqHandler = false ∧ s.irp.status.code ≠ .ioPending

instance (s : IrpRun) : Decidable s.Asserts := by unfold Asserts; infer_instance

variable (device : FileId → DeviceId)

/-- `queue` -/
def queue (s : IrpRun) : Option IrpRun := do
  let k ← s.irp.currentFrame
  let frame ← s.irp.frames k
  some { s with
    irp := if k = 0 then { s.irp with refCount := s.irp.refCount + 1 } else s.irp
    handed := s.handed ++ [device frame.file] }

/-- The next part of `complete`. -/
def advance (s : IrpRun) : Option IrpRun :=
  match s.control with
  | .drivers => none
  | .complete _ =>
    if s.Asserts then do
      let k ← s.irp.currentFrame
      let frame ← s.irp.frames k
      some { s with notified := s.notified ++ [frame.file], control := .destroy }
    else none
  | .destroy => do
    let k ← s.irp.currentFrame
    let s := { s with irp := s.irp.destroyFrame, destroyed := s.destroyed ++ [k] }
    if k = 0 then some { s with control := .deliver }
    else do
      let frame ← s.irp.frames (k - 1)
      some { s with control := .onIoCompletion (device frame.file) }
  | .deliver => some { s with
      ready := s.ready ++ (s.irp.asyncIoBlock.map fun b ↦ (b, s.irp.status)).toList
      control := .drivers }
  -- `device::on_io_completion`
  | .onIoCompletion _ => some { s with control := .complete true }

/-- The next state, or none where the event does not apply. -/
def next (s : IrpRun) : IrpEvent → Option IrpRun
  | .moveNextFrame kind f =>
    if s.control = .drivers then do
      let _ ← s.irp.currentFrame
      some { s with irp := (s.irp.moveNextFrame kind f).getD s.irp }
    else none
  | .queue => if s.control = .drivers then s.queue device else none
  | .complete inIrqHandler result =>
    if s.control = .drivers then
      some { s with
        irp := s.irp.finish result
        control := .complete false
        inIrqHandler := inIrqHandler }
    else none
  | .advance => s.advance device

/-- A request that was allocated. -/
def machine (block : Option BlockId) (kind : IoFrameKind) (f : FileId) :
    Machine IrpRun IrpEvent where
  init := ⟨.construct block kind f, .drivers, false, [], [], [], []⟩
  next := next device

variable {device} {s s' s₁ : IrpRun} {block : Option BlockId} {kind : IoFrameKind} {f : FileId}
  {c : ℕ}

/-! ## Unwinding -/

/-- A call of `complete` goes on for any number of parts. -/
def Unwinds (device : FileId → DeviceId) : IrpRun → IrpRun → Prop :=
  Relation.ReflTransGen fun s s' ↦ s.advance device = some s'

/-- No part of `complete` writes the status. -/
theorem status_advance (h : s.advance device = some s') : s'.irp.status = s.irp.status := by
  unfold advance at h
  split at h
  · cases h
  · split at h
    · obtain ⟨k, -, h⟩ := Option.bind_eq_some_iff.mp h
      obtain ⟨frame, -, h⟩ := Option.bind_eq_some_iff.mp h
      cases h
      rfl
    · cases h
  · obtain ⟨k, hk, h⟩ := Option.bind_eq_some_iff.mp h
    simp only [IoRequest.destroyFrame_eq hk] at h
    split at h
    · cases h
      rfl
    · obtain ⟨frame, -, h⟩ := Option.bind_eq_some_iff.mp h
      cases h
      rfl
  · cases h
    rfl
  · cases h
    rfl

theorem Unwinds.status (h : s.Unwinds device s') : s'.irp.status = s.irp.status := by
  induction h with
  | refl => rfl
  | tail _ hn ih => exact (status_advance hn).trans ih

/-- What is left when a call of `complete` has ended its frame: it is about to call `complete` for
the frame below, or it has returned. -/
structure Ends (s : IrpRun) (c : ℕ) (f : FileId) (s' : IrpRun) : Prop where
  irp : s'.irp = s.irp.destroyFrame
  irq : s'.inIrqHandler = s.inIrqHandler
  notified : s'.notified = s.notified ++ [f]
  destroyed : s'.destroyed = s.destroyed ++ [c]
  last : c = 0 → s'.control = .drivers ∧
    s'.ready = s.ready ++ (s.irp.asyncIoBlock.map fun b ↦ (b, s.irp.status)).toList
  below : c ≠ 0 → s'.control = .complete true ∧ s'.ready = s.ready

theorem advance_complete {nested : Bool} {frame : IoFrame} (hctl : s.control = .complete nested)
    (ha : s.Asserts) (hc : s.irp.currentFrame = some c) (hf : s.irp.frames c = some frame) :
    s.advance device =
      some { s with notified := s.notified ++ [frame.file], control := .destroy } := by
  simp [advance, hctl, ha, hc, hf]

theorem advance_destroy_last (hctl : s.control = .destroy) (hc : s.irp.currentFrame = some 0) :
    s.advance device = some { s with
      irp := s.irp.destroyFrame
      destroyed := s.destroyed ++ [0]
      control := .deliver } := by
  simp [advance, hctl, hc]

theorem advance_destroy_below {frame : IoFrame} (hctl : s.control = .destroy)
    (hc : s.irp.currentFrame = some (c + 1)) (hf : s.irp.frames c = some frame) :
    s.advance device = some { s with
      irp := s.irp.destroyFrame
      destroyed := s.destroyed ++ [c + 1]
      control := .onIoCompletion (device frame.file) } := by
  simp [advance, hctl, hc, hf, IoRequest.destroyFrame_eq hc]

variable (device) in
/-- **One call of `complete`**, if its assertions hold. -/
theorem unwinds_ends {nested : Bool} {frame : IoFrame} (hs : s.irp.Stacked)
    (hctl : s.control = .complete nested) (ha : s.Asserts) (hc : s.irp.currentFrame = some c)
    (hf : s.irp.frames c = some frame) : ∃ s', s.Unwinds device s' ∧ s.Ends c frame.file s' := by
  have hnotify : s.Unwinds device _ := .single (advance_complete hctl ha hc hf)
  cases c with
  | zero =>
    refine ⟨_, (hnotify.tail (advance_destroy_last rfl hc)).tail rfl, rfl, rfl, rfl, rfl,
      fun _ ↦ ⟨rfl, ?_⟩, fun hne ↦ absurd rfl hne⟩
    simp only [IoRequest.destroyFrame_eq hc]
  | succ c =>
    obtain ⟨frame', hf'⟩ := hs.exists_frame hc (Nat.le_succ c)
    exact ⟨_, (hnotify.tail (advance_destroy_below rfl hc hf')).tail rfl, rfl, rfl, rfl, rfl,
      fun he ↦ absurd he (Nat.succ_ne_zero c), fun _ ↦ ⟨rfl, rfl⟩⟩

/-- Nothing is left of the frames up to the `c`-th one. -/
structure Unwound (s : IrpRun) (c : ℕ) (s' : IrpRun) : Prop where
  returned : s'.control = .drivers
  completed : s'.irp.isCompleted = true
  frames : ∀ k, s'.irp.frames k = none
  notified : s'.notified = s.notified ++ s.irp.filesBelow (c + 1)
  destroyed : s'.destroyed = s.destroyed ++ (List.range (c + 1)).reverse
  ready : s'.ready = s.ready ++ (s.irp.asyncIoBlock.map fun b ↦ (b, s.irp.status)).toList

variable (device) in
/-- **`complete` unwinds the stack.**  By induction on the depth: the call for the frame below finds
its assertions true. -/
theorem unwinds_unwound {nested : Bool} (hs : s.irp.Stacked) (hctl : s.control = .complete nested)
    (ha : s.Asserts) (hc : s.irp.currentFrame = some c) :
    ∃ s', s.Unwinds device s' ∧ s.Unwound c s' := by
  induction c generalizing s nested with
  | zero =>
    obtain ⟨frame, hf⟩ := hs.exists_frame hc (Nat.le_refl _)
    obtain ⟨s', hrun, hends⟩ := unwinds_ends device hs hctl ha hc hf
    obtain ⟨hctl', hready⟩ := hends.last rfl
    have hirp := hends.irp.trans (IoRequest.destroyFrame_eq hc)
    have hnone : s'.irp.currentFrame = none := by rw [hirp]; rfl
    have hs' : s'.irp.Stacked := hends.irp ▸ hs.destroyFrame
    refine ⟨s', hrun, hctl', by rw [IoRequest.isCompleted, hnone]; rfl, fun k ↦ ?_, ?_,
      hends.destroyed, hready⟩
    · have := hs' k
      simpa [hnone] using this
    · rw [hends.notified, IoRequest.filesBelow_succ hf]
      rfl
  | succ c ih =>
    obtain ⟨frame, hf⟩ := hs.exists_frame hc (Nat.le_refl _)
    obtain ⟨s₁, hrun, hends⟩ := unwinds_ends device hs hctl ha hc hf
    obtain ⟨hctl₁, hready₁⟩ := hends.below (Nat.succ_ne_zero c)
    have hirp := hends.irp.trans (IoRequest.destroyFrame_eq hc)
    have hc₁ : s₁.irp.currentFrame = some c := by rw [hirp]; rfl
    have hstatus := hrun.status
    have ha₁ : s₁.Asserts := ⟨by rw [IoRequest.isCompleted, hc₁]; rfl, hends.irq.trans ha.2.1,
      hstatus ▸ ha.2.2⟩
    have hfiles : s₁.irp.filesBelow (c + 1) = s.irp.filesBelow (c + 1) :=
      IoRequest.filesBelow_congr fun i hi ↦ by
        rw [hirp]
        exact Function.update_of_ne (Nat.ne_of_lt hi) ..
    obtain ⟨s', hrun', hunwound⟩ := ih (hends.irp ▸ hs.destroyFrame) hctl₁ ha₁ hc₁
    refine ⟨s', hrun.trans hrun', hunwound.returned, hunwound.completed, hunwound.frames, ?_, ?_,
      ?_⟩
    · rw [hunwound.notified, hends.notified, hfiles, IoRequest.filesBelow_succ hf,
        List.append_assoc]
      rfl
    · have hlist : (List.range (c + 1 + 1)).reverse = (c + 1) :: (List.range (c + 1)).reverse := by
        rw [List.range_succ, List.reverse_append]
        rfl
      rw [hunwound.destroyed, hends.destroyed, hlist, List.append_assoc]
      rfl
    · rw [hunwound.ready, hready₁, hstatus, hirp]

/-! ## Every run -/

/-- The frames are a stack, nothing was unwound before a driver calls `complete`, and a nested call
finds its assertions true. -/
structure Inv (block : Option BlockId) (s : IrpRun) : Prop where
  stacked : s.irp.Stacked
  bounded : ∀ c, s.irp.currentFrame = some c → c < frameCount
  block : s.irp.asyncIoBlock = block
  fresh : s.control = .drivers ∨ s.control = .complete false → s.irp.isCompleted = false →
    s.notified = [] ∧ s.destroyed = []
  undelivered : s.irp.isCompleted = false ∨ s.control = .deliver → s.ready = []
  once : s.ready.length ≤ 1
  bytes : s.control = .drivers → s.irp.isCompleted = false → s.irp.status.bytesTransferred = 0
  asserts : (s.control = .destroy ∨ s.control = .complete true ∨ ∃ d, s.control = .onIoCompletion d) →
    s.Asserts
  completed : s.control = .deliver → s.irp.isCompleted = true

theorem inv_init : Inv block (machine device block kind f).init where
  stacked := IoRequest.stacked_construct block kind f
  bounded c hc := by
    cases hc
    decide
  block := rfl
  fresh _ _ := ⟨rfl, rfl⟩
  undelivered _ := rfl
  once := Nat.zero_le 1
  bytes _ _ := rfl
  asserts h := by
    rcases h with h | h | ⟨d, h⟩ <;> cases h
  completed h := by cases h

theorem Inv.advance (h : s.Inv block) (hn : s.advance device = some s') : s'.Inv block := by
  unfold IrpRun.advance at hn
  split at hn
  · cases hn
  · rename_i nested hctl
    split at hn
    · rename_i ha
      obtain ⟨k, -, hn⟩ := Option.bind_eq_some_iff.mp hn
      obtain ⟨frame, -, hn⟩ := Option.bind_eq_some_iff.mp hn
      cases hn
      exact ⟨h.stacked, h.bounded, h.block, by simp, fun _ ↦ h.undelivered (Or.inl ha.1), h.once,
        by simp, fun _ ↦ ha, by simp⟩
    · cases hn
  · rename_i hctl
    have ha := h.asserts (Or.inl hctl)
    obtain ⟨k, hk, hn⟩ := Option.bind_eq_some_iff.mp hn
    have hready := h.undelivered (Or.inl ha.1)
    have hirp := IoRequest.destroyFrame_eq hk
    have hblock : s.irp.destroyFrame.asyncIoBlock = block := by rw [hirp, h.block]
    split at hn
    · rename_i hzero
      cases hn
      exact ⟨h.stacked.destroyFrame, by simp [hirp, hzero], hblock, by simp, fun _ ↦ hready, h.once,
        by simp, by simp, by simp [IoRequest.isCompleted, hirp, hzero]⟩
    · rename_i hpos
      obtain ⟨frame, -, hn⟩ := Option.bind_eq_some_iff.mp hn
      cases hn
      have hlt := h.bounded k hk
      refine ⟨h.stacked.destroyFrame, ?_, hblock, by simp, fun _ ↦ hready, h.once, by simp,
        fun _ ↦ ?_, by simp⟩
      · simp only [hirp, if_neg hpos, Option.some.injEq]
        omega
      · exact ⟨by simp [IoRequest.isCompleted, hirp, hpos], ha.2.1, by simpa [hirp] using ha.2.2⟩
  · rename_i hctl
    have hdone := h.completed hctl
    have hready := h.undelivered (Or.inr hctl)
    cases hn
    refine ⟨h.stacked, h.bounded, h.block, by simp [hdone], by simp [hdone], ?_, by simp [hdone],
      by simp,
      by simp⟩
    rw [hready]
    cases s.irp.asyncIoBlock <;> simp
  · rename_i d hctl
    have ha := h.asserts (Or.inr (Or.inr ⟨d, hctl⟩))
    cases hn
    exact ⟨h.stacked, h.bounded, h.block, by simp, fun _ ↦ h.undelivered (Or.inl ha.1), h.once,
      by simp,
      fun _ ↦ ha, by simp⟩

theorem Inv.next {e : IrpEvent} (h : s.Inv block) (hn : s.next device e = some s') :
    s'.Inv block := by
  cases e with
  | moveNextFrame kind f =>
    obtain ⟨hctl, hn⟩ := Option.ite_none_right_eq_some.mp hn
    obtain ⟨c, hc, hn⟩ := Option.bind_eq_some_iff.mp hn
    cases hm : s.irp.moveNextFrame kind f with
    | none =>
      rw [hm] at hn
      cases hn
      exact h
    | some r =>
      rw [hm] at hn
      cases hn
      obtain ⟨c, hc, hlt, rfl⟩ := IoRequest.moveNextFrame_eq_some.mp hm
      have := h.bounded c hc
      have hlive : s.irp.isCompleted = false := by rw [IoRequest.isCompleted, hc]; rfl
      refine ⟨h.stacked.moveNextFrame hm, fun k hk ↦ ?_, h.block, fun hctl _ ↦ h.fresh hctl hlive,
        fun _ ↦ h.undelivered (Or.inl hlive), h.once, fun hctl _ ↦ h.bytes hctl hlive,
        by simp [hctl],
        by simp [hctl]⟩
      cases hk
      omega
  | queue =>
    obtain ⟨hctl, hn⟩ := Option.ite_none_right_eq_some.mp hn
    obtain ⟨k, hk, hn⟩ := Option.bind_eq_some_iff.mp hn
    obtain ⟨frame, hf, hn⟩ := Option.bind_eq_some_iff.mp hn
    cases hn
    split <;> exact ⟨h.stacked, h.bounded, h.block, h.fresh, h.undelivered, h.once, h.bytes,
      by simp [hctl], by simp [hctl]⟩
  | complete irq result =>
    obtain ⟨hctl, hn⟩ := Option.ite_none_right_eq_some.mp hn
    cases hn
    have hdone : (s.irp.finish result).isCompleted = s.irp.isCompleted := by
      simp [IoRequest.isCompleted]
    refine ⟨?_, by simpa using h.bounded, by simpa using h.block,
      fun _ hlive ↦ h.fresh (Or.inl hctl) (hdone ▸ hlive), fun hlive ↦ h.undelivered (Or.inl ?_),
      h.once,
      by simp, by simp, by simp⟩
    · intro k
      simpa using h.stacked k
    · simpa [hdone] using hlive
  | advance => exact h.advance hn

theorem Inv.of_reachable (h : (machine device block kind f).Reachable s) : s.Inv block :=
  h.invariant inv_init fun _ _ _ _ hI hn ↦ hI.next hn

/-- **The frames of a request are a stack, and `complete` unwinds all of it.** -/
theorem frames_unwind (h : (machine device block kind f).Reachable s) :
    (∀ k, (s.irp.frames k).isSome = true ↔ ∃ c, s.irp.currentFrame = some c ∧ k ≤ c) ∧
    (s.irp.isCompleted = false → ∀ kind f,
      (s.irp.moveNextFrame kind f = none ↔ ∀ k < frameCount, (s.irp.frames k).isSome = true) ∧
        (s.irp.moveNextFrame kind f = none →
          ∀ s', s.next device (.moveNextFrame kind f) = some s' → s' = s)) ∧
    (∀ irq result s₁, s.next device (.complete irq result) = some s₁ → s₁.Asserts →
      (∀ r, result = some r → s₁.irp.status = ⟨r.code, r.bytes⟩) ∧
      (∀ v, s₁.Unwinds device v → v.irp.status = s₁.irp.status) ∧
      ∃ c s', s.irp.currentFrame = some c ∧ s₁.Unwinds device s' ∧ s'.control = .drivers ∧
        s'.irp.isCompleted = true ∧ (∀ k, s'.irp.frames k = none) ∧
        s'.notified = s.irp.filesBelow (c + 1) ∧ s'.destroyed = (List.range (c + 1)).reverse ∧
        s'.ready = (block.map fun b ↦ (b, s₁.irp.status)).toList) ∧
    s.ready.length ≤ 1 ∧ (s.control = .complete true → s.Asserts) := by
  have hI := Inv.of_reachable h
  refine ⟨hI.stacked, fun hlive kind f ↦ ?_, fun irq result s₁ hn ha ↦ ?_, hI.once,
    fun hctl ↦ hI.asserts (Or.inr (Or.inl hctl))⟩
  · obtain ⟨c, hc⟩ := Option.isSome_iff_exists.mp (by simpa [IoRequest.isCompleted] using hlive)
    refine ⟨IoRequest.moveNextFrame_eq_none hI.stacked hc (hI.bounded c hc) kind f,
      fun hm s' hn ↦ ?_⟩
    obtain ⟨-, hn⟩ := Option.ite_none_right_eq_some.mp hn
    rw [hc, hm] at hn
    cases hn
    rfl
  · have hI₁ := hI.next hn
    obtain ⟨hctl, hn⟩ := Option.ite_none_right_eq_some.mp hn
    cases hn
    obtain ⟨c, hc⟩ := Option.isSome_iff_exists.mp (by simpa [IoRequest.isCompleted] using ha.1)
    have hlive : s.irp.isCompleted = false := by rw [IoRequest.isCompleted, hc]; rfl
    refine ⟨fun r hr ↦ ?_, fun v hv ↦ hv.status, ?_⟩
    · subst hr
      exact IoRequest.finish_status r (hI.bytes hctl hlive)
    · obtain ⟨s', hrun, hu⟩ :=
        unwinds_unwound device hI₁.stacked rfl ha ((IoRequest.finish_currentFrame result).trans hc)
      obtain ⟨hnotified, hdestroyed⟩ := hI.fresh (Or.inl hctl) hlive
      refine ⟨c, s', hc, hrun, hu.returned, hu.completed, hu.frames, ?_, ?_, ?_⟩
      · rw [hu.notified, hnotified, List.nil_append]
        exact IoRequest.filesBelow_congr fun i _ ↦ congrFun (IoRequest.finish_frames result) i
      · rw [hu.destroyed, hdestroyed, List.nil_append]
      · rw [hu.ready, hI.undelivered (Or.inl hlive), hI₁.block, List.nil_append]

/-- A request on two devices is completed with five bytes. -/
theorem frames_unwind_two : ∃ s', IrpRun.Unwinds id
    ((machine id (some 7) ⟨.generic, 1⟩ 4).after
      [.queue, .moveNextFrame ⟨.generic, 1⟩ 9, .queue, .complete false (some (.ok (some 5)))]) s' ∧
    s'.notified = [9, 4] ∧ s'.destroyed = [1, 0] ∧ s'.ready = [(7, ⟨.success, 5⟩)] := by
  obtain ⟨-, -, hcomplete, -, -⟩ := frames_unwind (Machine.reachable_after
    (M := machine id (some 7) ⟨.generic, 1⟩ 4) [.queue, .moveNextFrame ⟨.generic, 1⟩ 9, .queue])
  obtain ⟨hstatus, -, c, s', hc, hrun, -, -, -, hnotified, hdestroyed, hready⟩ :=
    hcomplete false (some (.ok (some 5))) _ rfl ⟨rfl, rfl, by decide⟩
  cases hc
  rw [hstatus _ rfl] at hready
  exact ⟨s', hrun, hnotified, hdestroyed, hready⟩

end IrpRun

end Chino
