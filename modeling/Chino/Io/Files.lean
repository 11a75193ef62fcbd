import Chino.Io.Iocp
import Chino.Ob.ObjectPool

/-!
# Files, their handles and their references

`Files` is the I/O manager with what `open`, `socket`, `close` and the calls on open files add: the
files of `file_table_` with their reference counts, the handle tables of the processes, and where
every thread is between its handles and `dispatch_io_fast_slow`.

A file of the pool is counted by `object_ptr`s: that of its handle entry, those of the frames of
requests, and the locals of calls.  Files that are not in the pool, such as the `stream_file_` of a
driver, are not counted; `pooled` tells them apart.  A file keeps its number for good, so two files
that used the same slot are not confused, and `device` says which device a number is opened on.

What a handle operation does to its entry is one action, so no two of them on one entry overlap; the
call that made it goes on afterwards, while others close or use the handle.  So is a `dec_ref` with
the `internal_release` it may end with: nobody else has a pointer to the file by then.

A driver may move a request to a file of its own or to the one the request is for.  It does no
synchronous I/O of its own.

The reference count is a word of 32 bits, as `ref_counted_object` has it, and it wraps around.
Every thread can hold a reference or two, so a run with enough threads gets it there.

Calls that fail before they have a file change nothing and are left out.  The fields `opened` and
`closes` are not in the code; they record that the open succeeded, and how often `device::close` was
called.

## The calls

`FileCall` is where a thread is in a call that has a file.  `open` and `socket` allocate a file, ask
the device, and allocate a handle; a call on an open file references it through the handle, goes
through `dispatch_io_fast_slow`, and drops its pointer; `close` drops the reference of the entry.
The functions `pointers`, `opens`, `attached` and `inIo` say what a call holds at each place, and
are all that the invariants know of it.

`nextIo` takes a step of `Chino.Io.Manager` and does to the files what it does to the frames:
`countFrames` takes a reference for a frame that is constructed, and drops that of a frame which is
destroyed.  `permits` keeps drivers to the files they have.
-/

set_option autoImplicit false

namespace Chino

open Function (update)

/-- `io::file` -/
structure IoFile where
  refCount : UInt32
  device : Option DeviceId
  allocated : Bool
  opened : Bool
  closes : ℕ
deriving DecidableEq

namespace IoFile

/-- A number that was not used yet. -/
def unallocated : IoFile := ⟨0, none, false, false, 0⟩

/-- The constructor, with the reference that `ref_counted_object` starts with. -/
def construct : IoFile := ⟨1, none, true, false, 0⟩

/-- `ref_counted_object::add_ref` -/
def addRef (f : IoFile) : IoFile := { f with refCount := f.refCount + 1 }

/-- `file::~file` -/
def destroy (f : IoFile) : IoFile :=
  if f.device.isSome then { f with closes := f.closes + 1 } else f

/-- `ref_counted_object::dec_ref` -/
def decRef (f : IoFile) : IoFile :=
  let f' := { f with refCount := f.refCount - 1 }
  if f.refCount = 1 then f'.destroy else f'

/-- `prepare_to_open`, which asserts that the file has no device. -/
def prepareToOpen (f : IoFile) (device : DeviceId) : Option IoFile :=
  if f.device = none then some { f with device := some device } else none

/-- `failed_to_open` -/
def failedToOpen (f : IoFile) : IoFile := { f with device := none }

end IoFile

/-- `make_io_frame_kind(io_frame_major_kind::generic, io_frame_generic_kind::open)` -/
def ioOpen : IoFrameKind := ⟨.generic, 0⟩

/-- The calls on an open file. -/
inductive FileOp where
  | read
  | write
  | control
  | readAsync (block : BlockId)
deriving DecidableEq

/-- The kind of the frame that the call is dispatched with. -/
def FileOp.kind : FileOp → IoFrameKind
  | read | readAsync _ => ⟨.generic, 1⟩
  | write => ⟨.generic, 2⟩
  | control => ⟨.generic, 3⟩

/-- The block of an asynchronous call. -/
def FileOp.block : FileOp → Option BlockId
  | readAsync b => some b
  | _ => none

/-- Where a thread is in a call that has a file. -/
inductive FileCall where
  /-- About to `prepare_to_open` the new file. -/
  | allocated (f : FileId) (socket : Bool)
  /-- About to dispatch the open. -/
  | prepared (f : FileId) (socket : Bool)
  | opening (f : FileId) (socket : Bool)
  /-- About to call `failed_to_open`. -/
  | failed (f : FileId)
  /-- `open_file` is about to copy its pointer into the result. -/
  | opened (f : FileId) (socket : Bool)
  /-- `open_file` is about to drop its own pointer. -/
  | copied (f : FileId) (socket : Bool)
  /-- About to call `socket_device::socket`. -/
  | created (f : FileId)
  /-- About to call `alloc_handle`. -/
  | inserting (f : FileId)
  /-- `reference_object` has returned the file, and it is about to be used. -/
  | referenced (f : FileId) (op : FileOp)
  | dispatching (f : FileId)
  /-- About to drop the pointer and to return. -/
  | leaving (f : FileId)
deriving DecidableEq

namespace FileCall

/-- The file of a call. -/
def file : FileCall → FileId
  | allocated f _ | prepared f _ | opening f _ | failed f | opened f _ | copied f _ | created f
  | inserting f | referenced f _ | dispatching f | leaving f => f

/-- The `object_ptr`s that a call holds. -/
def pointers : FileCall → ℕ
  | copied .. => 2
  | _ => 1

/-- The file is being opened by this call. -/
def opens : FileCall → Bool
  | allocated .. | prepared .. | opening .. | failed _ => true
  | _ => false

/-- The file has its device, although it is not open yet. -/
def attached : FileCall → Bool
  | prepared .. | opening .. | failed _ => true
  | _ => false

/-- The call is in `dispatch_io_fast_slow`. -/
def inIo : FileCall → Bool
  | opening .. | dispatching _ => true
  | _ => false

/-- The arguments of `dispatch_io_fast_slow`, and where the call is then. -/
def dispatch? : FileCall → Option (FileId × IoFrameKind × Option BlockId × FileCall)
  | prepared f socket => some (f, ioOpen, none, opening f socket)
  | referenced f op => some (f, op.kind, op.block, dispatching f)
  | _ => none

/-- Where the call is when `dispatch_io_fast_slow` has returned. -/
def back : FileCall → IoResult → FileCall
  | opening f socket, .ok _ => opened f socket
  | opening f _, .err _ => failed f
  | dispatching f, _ => leaving f
  | c, _ => c

theorem pointers_pos (c : FileCall) : 0 < c.pointers := by
  cases c <;> simp [pointers]

theorem pointers_le_two (c : FileCall) : c.pointers ≤ 2 := by
  cases c <;> simp [pointers]

@[simp] theorem back_file (c : FileCall) (r : IoResult) : (c.back r).file = c.file := by
  cases c <;> cases r <;> rfl

@[simp] theorem back_pointers (c : FileCall) (r : IoResult) :
    (c.back r).pointers = c.pointers := by
  cases c <;> cases r <;> rfl

theorem opens_of_attached {c : FileCall} (h : c.attached = true) : c.opens = true := by
  cases c <;> first | rfl | cases h

end FileCall

/-- The file that a call needs once more. -/
def Call.file? : Call → Option FileId
  | fast f _ _ | slow f _ _ => some f
  | _ => none

namespace IoManager

/-- The thread whose call returns with the action, and what it returns. -/
def returns (s : IoManager) : IoAction → Option (ThreadId × IoResult)
  | .fast (.thread t) r =>
    match s.call t with
    | some (.fast ..) => if r = .err .slowIo then none else some (t, r)
    | _ => none
  | .exhausted (.thread t) => (s.call t).map fun _ ↦ (t, .err .outOfMemory)
  | .advance (.thread t) =>
    match s.call t with
    | some (.returning _ r) => some (t, r)
    | _ => none
  | _ => none

/-- The file that an `io_frame` is constructed for. -/
def taken (s : IoManager) : IoAction → Option FileId
  | .advance x =>
    match s.callOf x with
    | some (.slow f _ _) => some f
    | _ => none
  | .move _ f => some f
  | _ => none

/-- The file of the frame that is destroyed. -/
def given (s : IoManager) : IoAction → Option FileId
  | .advance .worker =>
    match s.stack with
    | ⟨_, .completing _ i _ _ .destroy _⟩ :: _ => do
      let k ← (s.irp i).currentFrame
      let frame ← (s.irp i).frames k
      some frame.file
    | _ => none
  | _ => none

/-- The file that the request in `process_io` is for. -/
def fileInHand (s : IoManager) : Option FileId :=
  match s.stack with
  | ⟨_, .processing _ i last _ _⟩ :: _ => ((s.irp i).frames last).map IoFrame.file
  | _ => none

end IoManager

/-- The I/O manager, the files, the handle tables, and where the calls are. -/
structure Files where
  io : IoManager
  file : FileId → IoFile
  handle : ProcessId → ℕ → Option FileId
  call : ThreadId → Option FileCall

/-- What threads, the worker and drivers do. -/
inductive FileAction where
  /-- `open` or `socket` has found the device, and `file_table_.allocate` gives it a file. -/
  | allocate (t : ThreadId) (f : FileId) (socket : Bool)
  /-- `dispatch_io_fast_slow` is called. -/
  | dispatch (t : ThreadId)
  /-- Any other step of the I/O manager. -/
  | io (a : IoAction)
  /-- The next step outside of it, where the code leaves no choice. -/
  | advance (t : ThreadId)
  /-- `socket_device::socket` returns. -/
  | socket (t : ThreadId) (ok : Bool)
  /-- `alloc_handle` finds a free entry, or the table is full. -/
  | allocHandle (t : ThreadId) (i : Option ℕ)
  /-- `reference_object` -/
  | reference (t : ThreadId) (i : ℕ) (op : FileOp)
  /-- `close_handle` -/
  | closeHandle (t : ThreadId) (i : ℕ)

namespace Files

open ObjectSegment (elementsCount)

/-- Nothing is open. -/
def init : Files where
  io := .init
  file _ := .unallocated
  handle _ _ := none
  call _ := none

variable (device : FileId → DeviceId) (pooled : FileId → Bool)

/-- A file changes. -/
def setFile (s : Files) (f : FileId) (x : IoFile) : Files := { s with file := update s.file f x }

/-- A call moves on. -/
def setCall (s : Files) (t : ThreadId) (c : Option FileCall) : Files :=
  { s with call := update s.call t c }

/-- An entry of a handle table changes. -/
def setHandle (s : Files) (p : ProcessId) (i : ℕ) (o : Option FileId) : Files :=
  { s with handle := update s.handle p (update (s.handle p) i o) }

/-- `object_ptr`'s constructors; `object::add_ref` does nothing. -/
def addRef (s : Files) (f : FileId) : Files :=
  if pooled f then s.setFile f (s.file f).addRef else s

/-- `object_ptr::~object_ptr` -/
def decRef (s : Files) (f : FileId) : Files :=
  if pooled f then s.setFile f (s.file f).decRef else s

/-- The driver keeps to what is its own. -/
def permits (s : Files) : IoAction → Bool
  | .dispatch .. => false
  | .move _ f => !pooled f || s.io.fileInHand = some f
  | _ => true

/-- The frame that a step constructs takes a reference, and the one it destroys drops its own. -/
def countFrames (s : Files) (a : IoAction) : Files :=
  let s₁ := (s.io.taken a).elim s fun f ↦ s.addRef pooled f
  (s.io.given a).elim s₁ fun f ↦ s₁.decRef pooled f

/-- `dispatch_io_fast_slow` returns to the call. -/
def resume (s : Files) : Option (ThreadId × IoResult) → Files
  | some (t, r) =>
    match s.call t, r with
    | some (.opening f _), .ok _ =>
      (s.setFile f { s.file f with opened := true }).setCall t ((s.call t).map fun c ↦ c.back r)
    | c, _ => s.setCall t (c.map fun c ↦ c.back r)
  | none => s

/-- A step of the I/O manager. -/
def nextIo (s : Files) (a : IoAction) : Option Files := do
  let io ← s.io.next device a
  some { (s.countFrames pooled a).resume (s.io.returns a) with io := io }

/-- The next step of a call. -/
def advance (s : Files) (t : ThreadId) : FileCall → Option Files
  | .allocated f socket => do
    let file ← (s.file f).prepareToOpen (device f)
    some ((s.setFile f file).setCall t (some (.prepared f socket)))
  | .failed f => some ((s.setFile f (s.file f).failedToOpen).setCall t (some (.leaving f)))
  | .opened f socket => some ((s.addRef pooled f).setCall t (some (.copied f socket)))
  | .copied f socket =>
    some ((s.decRef pooled f).setCall t (some (if socket then .created f else .inserting f)))
  | .leaving f => some ((s.decRef pooled f).setCall t none)
  | _ => none

variable (processOf : ThreadId → ProcessId) (N : ℕ)

/-- The next state; the threads are those below `N`. -/
def next (s : Files) : FileAction → Option Files
  | .allocate t f socket =>
    if s.call t = none ∧ t < N ∧ pooled f ∧ (s.file f).allocated = false then
      some ((s.setFile f .construct).setCall t (some (.allocated f socket)))
    else none
  | .dispatch t => do
    let c ← s.call t
    let (f, kind, block, c') ← c.dispatch?
    let io ← s.io.next device (.dispatch (.thread t) f kind block)
    some { s.setCall t (some c') with io := io }
  | .io a => if s.permits pooled a then s.nextIo device pooled a else none
  | .advance t => do
    let c ← s.call t
    s.advance device pooled t c
  | .socket t ok =>
    match s.call t with
    | some (.created f) => some (s.setCall t (some (if ok then .inserting f else .leaving f)))
    | _ => none
  | .allocHandle t i =>
    match s.call t, i with
    | some (.inserting f), some i =>
      if i < elementsCount ∧ s.handle (processOf t) i = none then
        some (((s.addRef pooled f).setHandle (processOf t) i (some f)).setCall t
          (some (.leaving f)))
      else none
    | some (.inserting f), none => some (s.setCall t (some (.leaving f)))
    | _, _ => none
  | .reference t i op =>
    if s.call t = none ∧ t < N then do
      let f ← s.handle (processOf t) i
      some ((s.addRef pooled f).setCall t (some (.referenced f op)))
    else none
  | .closeHandle t i =>
    if s.call t = none ∧ t < N then do
      let f ← s.handle (processOf t) i
      some ((s.setHandle (processOf t) i none).decRef pooled f)
    else none

/-- Runs of the threads below `N`. -/
def machine : Machine Files FileAction where
  init := init
  next := next device pooled processOf N

end Files

end Chino
