import Chino.ErrorCode
import Mathlib.Data.List.Basic

/-!
# I/O request packets

An `io_request` carries a status, a reference count and a stack of at most three `io_frame`s, one
for each device the request has been handed to.  `frames_` is storage: a frame lives from
`construct_at` to `destroy_at`, and `current_frame_` points at the topmost one, or nowhere once the
request is completed.

The model keeps a frame pointer as an index and a frame as an `Option`, which is `none` while the
frame is not alive; so is the file of a destroyed frame, because `~object_ptr` clears the pointer.
The bytes of `params_` are left out: what is said about `params()` is when it is read.

`io_request::complete` is a recursion over the frames with the calls of others in between, and is
spelled out step by step in `Chino.Io.Manager`; `finishCode`, `finishBytes` and `destroyFrame` are
its pieces.

The numbers of requests, files and devices are natural numbers, as the pools that they come from are
in other modules.  `ref_count_` is a word of 32 bits.

Two functions are named after what they do rather than after the source, since `complete` does them
in the middle: `finishCode` and `finishBytes` are what it writes to the status, and `destroyFrame`
ends the current frame and makes the one below it current.  The lemmas say what each of them leaves
alone.
-/

set_option autoImplicit false

namespace Chino

open Function (update)

/-! ## Results -/

/-- `io_status` -/
structure IoStatus where
  code : ErrorCode
  bytesTransferred : ℕ
deriving DecidableEq

/-- The argument of `io_request::complete`: a `result<T>`, where `T` may be `void`. -/
inductive Completion where
  | ok (bytes : Option ℕ)
  | err (e : ErrorCode)
deriving DecidableEq

/-- `result::unwrap_err`, which is `success` for a result that is not an error. -/
def Completion.code : Completion → ErrorCode
  | ok _ => .success
  | err e => e

/-- The byte count of the status after `complete`. -/
def Completion.bytes : Completion → ℕ
  | ok (some bytes) => bytes
  | _ => 0

/-- What `read_file`, `write_file` and `control_file` return. -/
inductive IoResult where
  | ok (bytes : ℕ)
  | err (e : ErrorCode)
deriving DecidableEq

/-! ## Frames -/

/-- Files are numbered. -/
abbrev FileId := ℕ
/-- Devices are numbered. -/
abbrev DeviceId := ℕ
/-- Requests are numbered. -/
abbrev IrpId := ℕ

/-- An `async_io_result` of a caller, and the `async_io_block` that stands for it. -/
abbrev BlockId := ℕ

/-- `io_frame_major_kind` -/
inductive IoFrameMajorKind where
  | generic
  | ble
deriving DecidableEq

/-- `io_frame_kind` -/
structure IoFrameKind where
  major : IoFrameMajorKind
  minor : ℕ
deriving DecidableEq

/-- `io_frame` -/
structure IoFrame where
  kind : IoFrameKind
  file : FileId
deriving DecidableEq

/-- `std::size(frames_)` -/
def frameCount : ℕ := 3

/-- `io_request` -/
structure IoRequest where
  asyncIoBlock : Option BlockId
  status : IoStatus
  frames : ℕ → Option IoFrame
  currentFrame : Option ℕ
  refCount : UInt32

namespace IoRequest

/-- Storage in the pool that no request was ever constructed in. -/
def unallocated : IoRequest where
  asyncIoBlock := none
  status := ⟨.success, 0⟩
  frames _ := none
  currentFrame := none
  refCount := 0

/-- The constructor, with the reference that `ref_counted_object` starts with. -/
def construct (asyncIoBlock : Option BlockId) (kind : IoFrameKind) (file : FileId) : IoRequest where
  asyncIoBlock := asyncIoBlock
  status := ⟨.ioPending, 0⟩
  frames k := if k = 0 then some ⟨kind, file⟩ else none
  currentFrame := some 0
  refCount := 1

/-- `is_completed` -/
def isCompleted (r : IoRequest) : Bool := r.currentFrame.isNone

/-- `move_next_frame`; `none` is `out_of_memory`. -/
def moveNextFrame (r : IoRequest) (kind : IoFrameKind) (file : FileId) : Option IoRequest := do
  let k ← r.currentFrame
  if k ≠ frameCount - 1 then
    some { r with
      currentFrame := some (k + 1)
      frames := update r.frames (k + 1) (some ⟨kind, file⟩) }
  else none

/-- The first assignment of `complete(result)`. -/
def finishCode (r : IoRequest) (result : Completion) : IoRequest :=
  { r with status := { r.status with code := result.code } }

/-- The second one. -/
def finishBytes (r : IoRequest) : Completion → IoRequest
  | .ok (some bytes) => { r with status := { r.status with bytesTransferred := bytes } }
  | _ => r

@[simp] theorem finishBytes_currentFrame (r : IoRequest) (result : Completion) :
    (r.finishBytes result).currentFrame = r.currentFrame := by
  unfold finishBytes; split <;> rfl

@[simp] theorem finishBytes_frames (r : IoRequest) (result : Completion) :
    (r.finishBytes result).frames = r.frames := by
  unfold finishBytes; split <;> rfl

@[simp] theorem finishBytes_asyncIoBlock (r : IoRequest) (result : Completion) :
    (r.finishBytes result).asyncIoBlock = r.asyncIoBlock := by
  unfold finishBytes; split <;> rfl

/-- What `complete` does to the frames: the current one is destroyed, and the one below it becomes
current. -/
def destroyFrame (r : IoRequest) : IoRequest :=
  match r.currentFrame with
  | some k =>
    { r with
      frames := update r.frames k none
      currentFrame := if k = 0 then none else some (k - 1) }
  | none => r

/-- The frames are a stack: those up to the current one are alive. -/
def Stacked (r : IoRequest) : Prop :=
  ∀ k, (r.frames k).isSome = true ↔ ∃ c, r.currentFrame = some c ∧ k ≤ c

variable {r r' : IoRequest}

theorem stacked_unallocated : unallocated.Stacked := fun k ↦ by simp [unallocated]

theorem stacked_construct (block : Option BlockId) (kind : IoFrameKind) (file : FileId) :
    (construct block kind file).Stacked := fun k ↦ by
  by_cases hk : k = 0 <;> simp [construct, hk]

theorem moveNextFrame_eq_some {kind : IoFrameKind} {file : FileId} :
    r.moveNextFrame kind file = some r' ↔ ∃ k, r.currentFrame = some k ∧ k ≠ frameCount - 1 ∧
      r' = { r with
        currentFrame := some (k + 1)
        frames := update r.frames (k + 1) (some ⟨kind, file⟩) } := by
  cases hc : r.currentFrame with
  | none => simp [moveNextFrame, hc]
  | some k =>
    by_cases hk : k = frameCount - 1
    · simp [moveNextFrame, hc, hk]
    · simp [moveNextFrame, hc, hk, eq_comm]

theorem Stacked.moveNextFrame (h : r.Stacked) {kind : IoFrameKind} {file : FileId}
    (hm : r.moveNextFrame kind file = some r') : r'.Stacked := by
  obtain ⟨c, hc, -, rfl⟩ := moveNextFrame_eq_some.mp hm
  intro k
  by_cases hk : k = c + 1
  · simp [hk]
  · have hle : k ≤ c ↔ k ≤ c + 1 := by omega
    simpa [hk, hc, hle] using h k

theorem destroyFrame_eq {k : ℕ} (hc : r.currentFrame = some k) : r.destroyFrame = { r with
    frames := update r.frames k none
    currentFrame := if k = 0 then none else some (k - 1) } := by
  simp [destroyFrame, hc]

theorem Stacked.destroyFrame (h : r.Stacked) : r.destroyFrame.Stacked := by
  cases hc : r.currentFrame with
  | none => simpa [IoRequest.destroyFrame, hc] using h
  | some c =>
    intro k
    have hk := h k
    simp only [hc, Option.some.injEq, exists_eq_left'] at hk
    rw [destroyFrame_eq hc]
    by_cases hkc : k = c
    · subst hkc
      by_cases hk0 : k = 0 <;> simp [hk0]
      omega
    · have hle : k ≤ c ↔ c ≠ 0 ∧ k ≤ c - 1 := by omega
      rw [hle] at hk
      by_cases hc0 : c = 0
      · simpa [hkc, hc0, hc0 ▸ hkc] using hk
      · simpa [hkc, hc0] using hk

/-- The current frame is alive. -/
theorem Stacked.exists_frame (h : r.Stacked) {k c : ℕ} (hc : r.currentFrame = some c) (hk : k ≤ c) :
    ∃ f, r.frames k = some f :=
  Option.isSome_iff_exists.mp ((h k).mpr ⟨c, hc, hk⟩)

end IoRequest

end Chino
