import Chino.Io.Files
import Chino.Library.Slots
import Chino.Ob.HandleTable
import Chino.Ob.Path

/-!
# Opening a file or a socket

`kernel_ke_service_mt::open` and `kernel_ke_service_mt::socket`, from the arguments to the result,
with everything they take and give back: a file of `file_table_`, an `io_request`, an entry of the
handle table, references on the device, and what the driver records in the file.

In `Chino.Io.Files` threads share their files.  Here one call runs alone, but for the worker, which
completes the request of a slow open; its steps and those of the call come in any order.  The pools
and the counts on the devices are arbitrary when the call starts (`Kernel`), so every allocation may
fail.

A driver is what it answers and what its `close` gives back (`OpenDriver`).  An access to an entry
that is not there, an access through a null pointer and a failed assertion have no next state.

`deviceRefs` counts the `add_ref` calls on a device less its `dec_ref` calls.  The fields `opened`,
`recorded` and `released` are not in the code: they record that the open succeeded, what the driver
recorded in the file, and what `close` has given back.

## What is here

* `OpenRequest` is an `open` with what `find_device` has found for its path, or a `socket`.  The
  arguments reach the device through it, with the `create_disposition` that the call opens with.
* `OpenPc` is where the call is, and `OpenWork` how far the worker is with its request.  `advance`
  and `advanceWork` are the two programs; a run is any interleaving of them.
* `Kernel` is what the call takes from.  The pools are `Slots`, so what is already in them stays
  there whatever the call does, and a full pool refuses.
* `LeavesNothing` is what a failed call is to leave: the pools and the counts as they were, and what
  the driver has recorded in the file given back, once.

The model does not fix how often anything is referenced on the way.  That is what
`Chino.Io.OpenShape` works out, place by place.
-/

set_option autoImplicit false

namespace Chino

open Function (update)

/-! ## Drivers -/

/-- A handle of the host, a `SOCKET` or a `netconn`. -/
abbrev Resource := ℕ

/-- `create_disposition` -/
inductive CreateDisposition where
  | createAlways
  | createNew
  | openAlways
  | openExisting
  | truncateExisting
deriving DecidableEq

/-- A `result<void>`, and what was recorded in the file before it was returned. -/
inductive OpenAnswer where
  | ok (resource : Option Resource)
  | err (e : ErrorCode)
deriving DecidableEq

namespace OpenAnswer

/-- `result::unwrap_err` -/
def code : OpenAnswer → ErrorCode
  | ok _ => .success
  | err e => e

/-- The argument of `complete`. -/
def completion : OpenAnswer → Completion
  | ok _ => .ok none
  | err e => .err e

/-- What a successful answer has recorded. -/
def resource? : OpenAnswer → Option Resource
  | ok r => r
  | err _ => none

end OpenAnswer

/-- What a device does with files: `fast_open`, the open in `process_io`, `socket` if it is a
`socket_device`, and what `close` gives back of the data of a file. -/
structure OpenDriver where
  fastOpen : Text → CreateDisposition → OpenAnswer
  slowOpen : Text → CreateDisposition → OpenAnswer
  socket : Option (ℤ → ℤ → ℤ → OpenAnswer)
  close : Option Resource → List Resource

/-! ## Requests -/

/-- `open` with what `find_device` returns for its path, or `socket` with the default socket device
and the arguments. -/
inductive OpenRequest where
  | openFile (found : Except ErrorCode (DeviceId × Text))
  | socket (device : Option DeviceId) (domain type protocol : ℤ)

namespace OpenRequest

/-- The device, and the path that it is asked for. -/
def found : OpenRequest → Except ErrorCode (DeviceId × Text)
  | openFile found => found
  | socket none .. => .error .noSuchDevice
  | socket (some d) .. => .ok (d, [])

/-- The `create_disposition` that the call opens with. -/
def disposition : OpenRequest → CreateDisposition
  | openFile _ => .openExisting
  | socket .. => .createNew

/-- The result of `find_device` holds the device until `open_file` returns. -/
def holdsDevice : OpenRequest → Bool
  | openFile _ => true
  | socket .. => false

end OpenRequest

/-- `wrap_posix` -/
def wrapPosix : Except ErrorCode ℤ → ℤ
  | .ok fd => fd
  | .error _ => -1

/-! ## The machine -/

/-- `io::file` -/
structure FileObject where
  refCount : ℕ
  device : Option DeviceId
  data : Option Resource
deriving DecidableEq

/-- The constructor, with the reference that `ref_counted_object` starts with. -/
def FileObject.construct : FileObject := ⟨1, none, none⟩

/-- What the call takes from. -/
structure Kernel where
  files : Slots FileObject
  irps : Slots IoRequest
  handles : Slots FileId
  deviceRefs : DeviceId → ℤ

/-- Where the call is. -/
inductive OpenPc where
  | start
  /-- About to allocate a file. -/
  | found
  /-- About to `prepare_to_open`. -/
  | allocated
  /-- About to ask for a fast answer. -/
  | prepared
  /-- The answer was `slow_io`: about to allocate a request. -/
  | slow
  /-- About to `queue` it. -/
  | requested
  /-- In `internal_wait`. -/
  | queued
  /-- In `event::wait`. -/
  | waiting
  /-- About to read the code. -/
  | reading
  /-- About to drop the request. -/
  | returning (code : ErrorCode)
  /-- About to call `failed_to_open`. -/
  | failed (e : ErrorCode)
  /-- `open_file` is about to drop its file, and to return the error. -/
  | dropping (e : ErrorCode)
  /-- The outer `open_file` is about to drop the device, and to return the error. -/
  | undoing (e : ErrorCode)
  /-- `open_file` is about to copy its pointer into the result. -/
  | opened
  /-- It is about to drop its own pointer. -/
  | copied
  /-- The outer `open_file` is about to drop the device, and to return the file. -/
  | settling
  /-- About to call `socket_device::socket`. -/
  | created
  /-- About to call `alloc_handle`. -/
  | inserting
  /-- About to drop the file, and to return. -/
  | leaving (r : Except ErrorCode ℤ)
  | returned (r : Except ErrorCode ℤ)
deriving DecidableEq

/-- How far the worker is with the request. -/
inductive OpenWork where
  | idle
  /-- The request is on the list of the device. -/
  | queued
  /-- The status was written: about to notify the event. -/
  | finished
  /-- About to destroy the frame. -/
  | notified
  /-- About to drop the reference of the queue. -/
  | destroyed
deriving DecidableEq

/-- An `open` or a `socket`, from its device to its handle. -/
structure OpenCall extends Kernel where
  pc : OpenPc
  work : OpenWork
  device : DeviceId
  path : Text
  file : FileId
  irp : IrpId
  /-- The event of the file. -/
  signal : Bool
  opened : Bool
  recorded : List Resource
  released : List Resource

/-- The call or the worker goes on. -/
inductive OpenAction where
  | advance
  | worker
deriving DecidableEq

namespace OpenCall

/-- The call starts. -/
def start (k : Kernel) : OpenCall where
  toKernel := k
  pc := .start
  work := .idle
  device := 0
  path := []
  file := 0
  irp := 0
  signal := false
  opened := false
  recorded := []
  released := []

/-- `add_ref` on a device, or `dec_ref`. -/
def addDeviceRef (s : OpenCall) (d : DeviceId) (n : ℤ) : OpenCall :=
  { s with deviceRefs := update s.deviceRefs d (s.deviceRefs d + n) }

/-- A file changes. -/
def setFile (s : OpenCall) (i : FileId) (f : FileObject → FileObject) : OpenCall :=
  { s with files := s.files.modify i f }

/-- The request of the call changes. -/
def setIrp (s : OpenCall) (f : IoRequest → IoRequest) : OpenCall :=
  { s with irps := s.irps.modify s.irp f }

/-- `object_ptr`'s constructors -/
def addFileRef (s : OpenCall) : OpenCall :=
  s.setFile s.file fun f ↦ { f with refCount := f.refCount + 1 }

variable (driver : DeviceId → OpenDriver)

/-- `file::~file` -/
def destroyFile (s : OpenCall) (f : FileObject) : OpenCall :=
  match f.device with
  | some d =>
    { s with released := s.released ++ (driver d).close f.data }.addDeviceRef d (-1)
  | none => s

/-- `object_ptr::~object_ptr` for the file, with the `internal_release` it may end with. -/
def dropFile (s : OpenCall) (i : FileId) : Option OpenCall := do
  let f ← s.files.entry i
  if f.refCount = 1 then
    let s := s.destroyFile driver f
    some { s with files := s.files.put i }
  else
    some (s.setFile i fun f ↦ { f with refCount := f.refCount - 1 })

/-- `object_ptr::~object_ptr` for the request. -/
def dropIrp (s : OpenCall) : Option OpenCall := do
  let r ← s.irps.entry s.irp
  if r.refCount = 1 then some { s with irps := s.irps.put s.irp }
  else some (s.setIrp fun r ↦ { r with refCount := r.refCount - 1 })

/-- The driver has answered with `ok`. -/
def record (s : OpenCall) (i : FileId) : Option Resource → OpenCall
  | some r => { s.setFile i fun f ↦ { f with data := some r } with recorded := s.recorded ++ [r] }
  | none => s

/-- The current frame of the request. -/
def frame (s : OpenCall) : Option IoFrame := do
  let r ← s.irps.entry s.irp
  let k ← r.currentFrame
  r.frames k

/-- `add_ref` in `io_request::queue` -/
def addIrpRef (s : OpenCall) : OpenCall :=
  s.setIrp fun r ↦ if r.currentFrame = some 0 then { r with refCount := r.refCount + 1 } else r

variable (request : OpenRequest)

/-- The result of `find_device` is dropped. -/
def dropFound (s : OpenCall) : OpenCall :=
  if request.holdsDevice then s.addDeviceRef s.device (-1) else s

/-- The next step of the call. -/
def advance (s : OpenCall) : Option OpenCall :=
  match s.pc with
  | .start =>
    match request.found with
    | .error e => some { s with pc := .returned (.error e) }
    | .ok (d, path) =>
      let s := if request.holdsDevice then s.addDeviceRef d 1 else s
      some { s with device := d, path := path, pc := .found }
  | .found =>
    match s.files.take .construct with
    | none => some { s with pc := .undoing .outOfMemory }
    | some (i, files) => some { s with files := files, file := i, pc := .allocated }
  | .allocated => do
    let f ← s.files.entry s.file
    if f.device = none then
      some { (s.setFile s.file fun f ↦ { f with device := some s.device }).addDeviceRef s.device 1 with
        pc := .prepared }
    else none
  | .prepared =>
    let answer := (driver s.device).fastOpen s.path request.disposition
    let s := { s with signal := false }
    if answer.code = .slowIo then some { s with pc := .slow }
    else if answer.code = .success then
      some { s.record s.file answer.resource? with pc := .opened, opened := true }
    else some { s with pc := .failed answer.code }
  | .slow =>
    match s.irps.take (.construct none ioOpen s.file) with
    | none => some { s with pc := .failed .outOfMemory }
    | some (i, irps) => some { s.addFileRef with irps := irps, irp := i, pc := .requested }
  | .requested => do
    let _ ← s.frame
    some { s.addIrpRef with pc := .queued, work := .queued }
  | .queued => do
    let r ← s.irps.entry s.irp
    let _ ← r.frames 0
    some { s with pc := .waiting }
  | .waiting => if s.signal then some { s with pc := .reading } else none
  | .reading => do
    let r ← s.irps.entry s.irp
    some { s with pc := .returning r.status.code }
  | .returning code => do
    let s ← s.dropIrp
    if code = .success then some { s with pc := .opened, opened := true }
    else some { s with pc := .failed code }
  | .failed e => do
    let f ← s.files.entry s.file
    let s := f.device.elim s fun d ↦ s.addDeviceRef d (-1)
    some { s.setFile s.file fun f ↦ { f with device := none } with pc := .dropping e }
  | .dropping e => do
    let s ← s.dropFile driver s.file
    some { s with pc := .undoing e }
  | .undoing e => some { s.dropFound request with pc := .returned (.error e) }
  | .opened => some { s.addFileRef with pc := .copied }
  | .copied => do
    let s ← s.dropFile driver s.file
    some { s with pc := .settling }
  | .settling =>
    some { s.dropFound request with
      pc := match request with | .openFile _ => .inserting | .socket .. => .created }
  | .created =>
    match request with
    | .openFile _ => none
    | .socket _ domain type protocol => do
      let socket ← (driver s.device).socket
      let answer := socket domain type protocol
      if answer.code = .success then some { s.record s.file answer.resource? with pc := .inserting }
      else some { s with pc := .leaving (.error answer.code) }
  | .inserting =>
    match s.handles.take s.file with
    | none => some { s with pc := .leaving (.error .outOfMemory) }
    | some (i, handles) =>
      some { s.addFileRef with handles := handles, pc := .leaving (.ok (i + fdBase)) }
  | .leaving r => do
    let s ← s.dropFile driver s.file
    some { s with pc := .returned r }
  | .returned _ => none

/-- The next step of the worker. -/
def advanceWork (s : OpenCall) : Option OpenCall :=
  match s.work with
  | .idle => none
  | .queued => do
    let frame ← s.frame
    let answer := (driver s.device).slowOpen s.path request.disposition
    if answer.code = .ioPending then none
    else
      some { (s.record frame.file answer.resource?).setIrp fun r ↦
        r.finishCode answer.completion with
      work := .finished }
  | .finished => do
    let _ ← s.frame
    some { s with signal := true, work := .notified }
  | .notified => do
    let frame ← s.frame
    let s ← (s.setIrp IoRequest.destroyFrame).dropFile driver frame.file
    some { s with work := .destroyed }
  | .destroyed => do
    let s ← s.dropIrp
    some { s with work := .idle }

/-- The next state, or none where the action does not apply. -/
def next (s : OpenCall) : OpenAction → Option OpenCall
  | .advance => s.advance driver request
  | .worker => s.advanceWork driver request

/-- One call, with what the kernel has when it starts. -/
def machine (k : Kernel) : Machine OpenCall OpenAction where
  init := start k
  next := next driver request

/-! ## What a failed call is to leave -/

/-- The pools and the counts are as before, and what the driver has recorded was given back once. -/
structure LeavesNothing (k : Kernel) (s : OpenCall) : Prop where
  files : s.files.entry = k.files.entry
  irps : s.irps.entry = k.irps.entry
  handles : s.handles.entry = k.handles.entry
  deviceRefs : s.deviceRefs = k.deviceRefs
  released : ∀ r ∈ s.recorded, s.released.count r = 1

end OpenCall

end Chino
