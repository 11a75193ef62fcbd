import Chino.Io.Request
import Chino.Library.Slots

/-!
# Dispatching a request

`dispatch_io_fast_slow` as one call, with the two pools that it takes from: `io_block_pool_` and
`io_request_pool_`.  In `Chino.Io.Manager` an allocation fails when the system chooses so, and
blocks are never exhausted; here the pools have the slots they have.

The driver is what its fast function answers.  A call without an `async_io_result` ends here where
it starts to wait.  The worker does not run in between, so that what the call itself has taken and
queued can be seen when it returns.

## When a dispatch is tidy

`Tidy` says what a call with an `async_io_result` is to leave behind.  If it answers `io_pending`
there is one more block and one more request, the block belongs to the request and the request is
queued on the device.  Otherwise the pools are as they were.

`dispatchIoFastSlow_tidy_iff` says when it is: the driver does not answer `io_pending` from its fast
function, which would promise a completion that nobody works on, and it does not happen that the
call gets its block but no request.  The second is the leak: the block is allocated first, and
nothing frees it on the way out.  Both conditions are about what the call finds, so this is an
equivalence.

The lemmas are about `IoPools` up to the slots that a step touches (`Differs`), since an allocation
picks the first free slot whatever it is.
-/

set_option autoImplicit false

namespace Chino

open Function (update)

/-- An `async_io_result` of a caller. -/
abbrev AsyncResultId := ℕ

/-- `async_io_block` -/
structure AsyncIoBlock where
  process : ℕ
  result : AsyncResultId
deriving DecidableEq

/-- What `dispatch_io_fast_slow` reads and writes. -/
structure IoPools where
  blocks : Slots AsyncIoBlock
  irps : Slots IoRequest
  /-- `irps_` of the devices -/
  queued : DeviceId → List IrpId
  workList : List DeviceId
  workAvail : Bool
  signal : FileId → Bool

/-- How a call goes on. -/
inductive Dispatched where
  | returned (r : IoResult)
  /-- It waits for the request. -/
  | waits (i : IrpId)
deriving DecidableEq

namespace IoPools

/-- `register_device_process_io` -/
def registerDevice (s : IoPools) (d : DeviceId) : IoPools :=
  if d ∈ s.workList then s else { s with workList := s.workList ++ [d], workAvail := true }

/-- `device::queue_io` -/
def queueIo (s : IoPools) (d : DeviceId) (i : IrpId) : IoPools :=
  { s with queued := update s.queued d (s.queued d ++ [i]) }.registerDevice d

/-- `io_request::queue` of a request that was just allocated. -/
def queueIrp (s : IoPools) (d : DeviceId) (i : IrpId) : IoPools :=
  { s with irps := s.irps.modify i fun r ↦ { r with refCount := r.refCount + 1 } }.queueIo d i

/-- The pointer to a request that is queued goes out of scope. -/
def dropIrp (s : IoPools) (i : IrpId) : IoPools :=
  { s with irps := s.irps.modify i fun r ↦ { r with refCount := r.refCount - 1 } }

/-- `async_io_block::allocate`, if there is an `async_io_result`. -/
def allocateBlock (s : IoPools) (process : ℕ) : Option AsyncResultId →
    Option (Option BlockId × IoPools)
  | none => some (none, s)
  | some result =>
    match s.blocks.take ⟨process, result⟩ with
    | none => none
    | some (b, blocks) => some (some b, { s with blocks := blocks })

variable (fast : FileId → IoFrameKind → IoResult) (device : FileId → DeviceId)

/-- `dispatch_io_fast_slow` -/
def dispatchIoFastSlow (s : IoPools) (process : ℕ) (f : FileId) (kind : IoFrameKind)
    (result : Option AsyncResultId) : Dispatched × IoPools :=
  let s := { s with signal := update s.signal f false }
  match fast f kind with
  | .ok bytes => (.returned (.ok bytes), s)
  | .err e =>
    if e = .slowIo then
      match s.allocateBlock process result with
      | none => (.returned (.err .outOfMemory), s)
      | some (block, s) =>
        match s.irps.take (.construct block kind f) with
        -- nobody frees the block
        | none => (.returned (.err .outOfMemory), s)
        | some (i, irps) =>
          let s := { s with irps := irps }.queueIrp (device f) i
          if result.isSome then (.returned (.err .ioPending), s.dropIrp i) else (.waits i, s)
    else (.returned (.err e), s)

/-- What a dispatch with an `async_io_result` is to leave: if it says `io_pending`, one new block
and one new request, which is queued, and else nothing. -/
structure Tidy (s : IoPools) (device : DeviceId) (r : Dispatched) (s' : IoPools) : Prop where
  pending : r = .returned (.err .ioPending) → ∃ b block i irp,
    s.blocks.Differs s'.blocks (some (b, block)) ∧ s.irps.Differs s'.irps (some (i, irp)) ∧
    irp.asyncIoBlock = some b ∧ s'.queued = update s.queued device (s.queued device ++ [i])
  other : r ≠ .returned (.err .ioPending) →
    s'.blocks.entry = s.blocks.entry ∧ s'.irps.entry = s.irps.entry ∧ s'.queued = s.queued

variable {s : IoPools} {fast} {device}

theorem queueIo_queued (s : IoPools) (d : DeviceId) (i : IrpId) :
    (s.queueIo d i).queued = update s.queued d (s.queued d ++ [i]) := by
  rw [queueIo, registerDevice]
  split <;> rfl

theorem queueIo_pools (s : IoPools) (d : DeviceId) (i : IrpId) :
    (s.queueIo d i).blocks = s.blocks ∧ (s.queueIo d i).irps = s.irps := by
  rw [queueIo, registerDevice]
  split <;> exact ⟨rfl, rfl⟩

/-- A request that was allocated is queued, and keeps the reference of the queue. -/
theorem differs_queueIrp {d : DeviceId} {i : IrpId} {irp : IoRequest} {p : Slots IoRequest}
    (h : p.Differs s.irps (some (i, irp))) : ∃ irp', irp'.asyncIoBlock = irp.asyncIoBlock ∧
      p.Differs ((s.queueIrp d i).dropIrp i).irps (some (i, irp')) := by
  have hm := (h.modify fun r ↦ { r with refCount := r.refCount + 1 }).modify
    fun r ↦ { r with refCount := r.refCount - 1 }
  rw [dropIrp, queueIrp, (queueIo_pools ..).2]
  refine ⟨_, ?_, hm⟩
  rfl

/-- The pools are as they were. -/
theorem tidy_of_eq {d : DeviceId} {r : Dispatched} {s' : IoPools}
    (hr : r ≠ .returned (.err .ioPending)) (hb : s'.blocks.entry = s.blocks.entry)
    (hi : s'.irps.entry = s.irps.entry) (hq : s'.queued = s.queued) : s.Tidy d r s' :=
  ⟨fun h ↦ absurd h hr, fun _ ↦ ⟨hb, hi, hq⟩⟩

/-- **A dispatch is tidy**, if and only if the driver does not answer `io_pending` itself, and it is
not the case that a slow request gets a block but no `io_request`. -/
theorem dispatchIoFastSlow_tidy_iff (s : IoPools) (process : ℕ) (f : FileId) (kind : IoFrameKind)
    (result : AsyncResultId) :
    s.Tidy (device f) (s.dispatchIoFastSlow fast device process f kind (some result)).1
        (s.dispatchIoFastSlow fast device process f kind (some result)).2 ↔
      fast f kind ≠ .err .ioPending ∧
        ¬ (fast f kind = .err .slowIo ∧ s.blocks.free ≠ [] ∧ s.irps.free = []) := by
  rw [dispatchIoFastSlow]
  cases hfast : fast f kind with
  | ok bytes =>
    exact iff_of_true (tidy_of_eq (by simp) rfl rfl rfl) (by simp)
  | err e =>
    by_cases he : e = .slowIo
    · subst he
      simp only [if_true, allocateBlock]
      cases hb : s.blocks.take ⟨process, result⟩ with
      | none =>
        have hfree := Slots.take_eq_none_iff.mp hb
        exact iff_of_true (tidy_of_eq (by simp) rfl rfl rfl) (by simp [hfree])
      | some p =>
        obtain ⟨b, blocks⟩ := p
        have hblocks : s.blocks.free ≠ [] := fun hfree ↦ by
          rw [Slots.take_eq_none_iff.mpr hfree] at hb
          cases hb
        have hdiffers := (Slots.differs_self s.blocks).take hb
        dsimp only
        cases hi : s.irps.take (.construct (some b) kind f) with
        | none =>
          have hfree := Slots.take_eq_none_iff.mp hi
          refine iff_of_false (fun h ↦ ?_) (by simp [hblocks, hfree])
          -- the block has stayed
          exact hdiffers.entry_ne (h.other (by simp)).1
        | some q =>
          obtain ⟨i, irps⟩ := q
          have hirps : s.irps.free ≠ [] := fun hfree ↦ by
            rw [Slots.take_eq_none_iff.mpr hfree] at hi
            cases hi
          obtain ⟨irp, hblock, hirp⟩ := differs_queueIrp (d := device f)
            (s := { s with signal := update s.signal f false, blocks := blocks, irps := irps })
            ((Slots.differs_self s.irps).take hi)
          refine iff_of_true ⟨fun _ ↦ ⟨b, ⟨process, result⟩, i, irp, ?_, ?_, hblock, ?_⟩,
            fun h ↦ absurd rfl h⟩ (by simp [hirps])
          · show s.blocks.Differs (queueIo _ _ _).blocks _
            rw [(queueIo_pools ..).1]
            exact hdiffers
          · exact hirp
          · exact queueIo_queued ..
    · simp only [he, if_false]
      by_cases hp : e = .ioPending
      · subst hp
        refine iff_of_false (fun h ↦ ?_) (by simp)
        obtain ⟨b, block, i, irp, hb, -⟩ := h.pending rfl
        exact hb.entry_ne rfl
      · exact iff_of_true (tidy_of_eq (by simpa using hp) rfl rfl rfl) (by simp [hp, he])

/-- One block is free, and no request. -/
def noRequest : IoPools where
  blocks := .unused _ 1
  irps := .unused _ 0
  queued _ := []
  workList := []
  workAvail := false
  signal _ := false

/-- A slow read fails with `out_of_memory`, and the block is still there. -/
theorem noRequest_leaks :
    let out := noRequest.dispatchIoFastSlow (fun _ _ ↦ .err .slowIo) id 0 0 ⟨.generic, 1⟩ (some 5)
    out.1 = .returned (.err .outOfMemory) ∧ out.2.blocks.entry 0 = some ⟨0, 5⟩ ∧
      ¬ noRequest.Tidy 0 out.1 out.2 := by
  refine ⟨rfl, rfl, fun h ↦ ?_⟩
  exact absurd (congrFun (h.other (by decide)).1 0) (by decide)

end IoPools

end Chino
