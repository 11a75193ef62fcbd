import Chino.Io.OpenCall

/-!
# The services of the kernel

The calls of `i_ke_services` that take a descriptor or return one, as `kernel_ke_service_mt` and
`user_ke_services_mt` answer them, in one thread: `open`, `socket` and `close`, and what is done
with an open file.  A call goes from its descriptor over the handle table to a file of
`file_table_`, and from there to the device of the file.

What a device does with its files is a parameter (`Devices`), with a state of its own that holds
whatever the device may look at: memory, other devices, the host.  An answer to `open`, `read`,
`write` or `control` is what `dispatch_io_fast_slow` returns, be it fast or slow.

A file is numbered by its slot, and slot `i` stands for the address `i + 1`.  Devices are not
allocated, and their reference counts are left out.  Where the code would use a pointer that is null
or an object that is not there, there is no next state.

## From the call to the device

* `Standard` is what a call does with one of the three standard descriptors; these are not looked
  up.  The kernel and user space differ here, and only here (`user`).
* `referenceFile` goes from a descriptor to a file, over `Chino.Ob.HandleTable`.  It takes a
  reference, which `dropRef` gives back at the end of the call.  The last `dropRef` destroys the
  file, and `file::~file` tells its device to close it.
* `openFile` and `allocHandle` are the two halves of `open` and `socket`.
* `perform` adds `wrap_posix`: a value, or `-1` and the error number in `errno`.

`Session` keeps the log of all calls with what they returned.  The results of
`Chino.Io.DescriptorRuns` are about these logs.
-/

set_option autoImplicit false

namespace Chino

open Function (update)

/-! ## Error numbers -/

/-- The values of `errno`. -/
inductive Errno where
  | none | einval | enomem | enoent | ebusy | eexist | enotsup | eio | ebadf | etimedout | emsgsize
  | enodev | efault
deriving DecidableEq

/-- `to_errno` -/
def toErrno : ErrorCode → Errno
  | .success => .none
  | .argumentNull | .invalidArgument => .einval
  | .outOfMemory | .insufficientBuffer => .enomem
  | .notFound | .invalidPath => .enoent
  | .unavailable => .ebusy
  | .keyAlreadyExists => .eexist
  | .notImplemented | .notSupported => .enotsup
  | .ioError => .eio
  | .badCast => .ebadf
  | .timeout => .etimedout
  | .messageTooLong => .emsgsize
  | .noSuchDevice => .enodev
  | .fail | .again | .slowIo | .ioPending => .efault

/-- Every error but `success` has a number. -/
theorem toErrno_eq_none {e : ErrorCode} : toErrno e = .none ↔ e = .success := by
  cases e <;> decide

/-! ## Requests -/

/-- A `file &` that a device gets: the `stdio_` of the services, or one of `file_table_`. -/
inductive FileRef where
  | stdio
  | pooled (f : FileId)
deriving DecidableEq

/-- What is done with an open file.  Buffers and other pointers are addresses. -/
inductive FileRequest where
  | read (buffer size : ℕ)
  | write (buffer size : ℕ)
  | control (code : ℤ) (arg : ℕ)
  | setsockopt (level option : ℤ) (value length : ℕ)
  | sendto (data size : ℕ) (flags : ℤ) (dest tolen : ℕ)
  | recvfrom (mem len : ℕ) (flags : ℤ) (source fromlen : ℕ)
deriving DecidableEq

/-- What a device gets to see. -/
inductive DeviceRequest where
  | open (path : Text) (disposition : CreateDisposition)
  | close
  | socket (domain type protocol : ℤ)
  | file (request : FileRequest)
deriving DecidableEq

namespace FileRequest

/-- The calls that start with `GET_SOCK_DEV`. -/
def needsSocket : FileRequest → Bool
  | setsockopt .. | sendto .. | recvfrom .. => true
  | read .. | write .. | control .. => false

/-- The value of a call whose device has answered with a `size_t`. -/
def value : FileRequest → ℕ → ℤ
  | read .., n | write .., n | sendto .., n | recvfrom .., n => Int.bmod n (2 ^ 64)
  | control .., n => Int.bmod n (2 ^ 32)
  | setsockopt .., _ => 0

end FileRequest

/-- The devices, with the state that they share. -/
structure Devices (W : Type) where
  /-- `find_device` -/
  find : W → Text → Except ErrorCode (DeviceId × Text)
  /-- `default_socket_device_` -/
  defaultSocket : Option DeviceId
  /-- `is_a(socket_device::kind())` -/
  isSocket : DeviceId → Bool
  /-- The answer to a request, what the file holds for the device then, and the new state. -/
  serve : W → DeviceId → FileRef → Option Resource → DeviceRequest →
    Except ErrorCode ℕ × Option Resource × W
  /-- `chip_t::debug_print` -/
  print : W → ℕ → W

/-! ## The services -/

/-- What the services work on: the handle table of the process, `file_table_`, `stdio_`, `errno`. -/
structure Services (W : Type) where
  table : HandleTable
  files : Slots FileObject
  stdio : FileObject
  world : W
  errno : Errno

/-- `access_mask::generic_all` -/
def genericAll : AccessMask := 1

/-- The address of a file of the pool. -/
def fileAddress (f : FileId) : ObjectAddress := ⟨f + 1, f.succ_ne_zero⟩

/-- The file at an address. -/
def fileAt (address : ℕ) : FileId := address - 1

@[simp] theorem fileAt_fileAddress (f : FileId) : fileAt (fileAddress f).val = f := rfl

namespace Services

variable {W : Type} (D : Devices W)

/-- A result, and the state after it. -/
abbrev Answer (W α : Type) := Except ErrorCode α × Services W

/-- The file that a device gets. -/
def file? (s : Services W) : FileRef → Option FileObject
  | .stdio => some s.stdio
  | .pooled f => s.files.entry f

/-- `file::data` is written. -/
def setData (s : Services W) (f : FileRef) (data : Option Resource) : Services W :=
  match f with
  | .stdio => { s with stdio := { s.stdio with data := data } }
  | .pooled f => { s with files := s.files.modify f fun x ↦ { x with data := data } }

/-- A call of a function of the device of a file. -/
def request (s : Services W) (f : FileRef) (r : DeviceRequest) : Option (Answer W ℕ) := do
  let x ← s.file? f
  let d ← x.device
  let (answer, data, w) := D.serve s.world d f x.data r
  some (answer, { s.setData f data with world := w })

/-- `object_ptr`'s constructors -/
def addRef (s : Services W) (f : FileId) : Services W :=
  { s with files := s.files.modify f fun x ↦ { x with refCount := x.refCount + 1 } }

/-- `object_ptr::~object_ptr`; the last one frees the file, whose destructor closes it. -/
def dropRef (s : Services W) (f : FileId) : Option (Services W) := do
  let x ← s.files.entry f
  if x.refCount = 1 then
    let s ← if x.device.isSome then (s.request D (.pooled f) .close).map Prod.snd else some s
    some { s with files := s.files.put f }
  else some { s with files := s.files.modify f fun x ↦ { x with refCount := x.refCount - 1 } }

/-- `file::prepare_to_open` and `file::failed_to_open` -/
def setDevice (s : Services W) (f : FileId) (d : Option DeviceId) : Services W :=
  { s with files := s.files.modify f fun x ↦ { x with device := d } }

/-- `io::open_file` with a device -/
def openFile (s : Services W) (d : DeviceId) (path : Text) (disposition : CreateDisposition) :
    Option (Answer W FileId) :=
  match s.files.take .construct with
  | none => some (.error .outOfMemory, s)
  | some (f, files) => do
    let (answer, s) ← ({ s with files := files }.setDevice f (some d)).request D (.pooled f)
      (.open path disposition)
    match answer with
    | .error e =>
      let s ← (s.setDevice f none).dropRef D f
      some (.error e, s)
    | .ok _ =>
      -- the pointer is copied into the result
      let s ← (s.addRef f).dropRef D f
      some (.ok f, s)

/-- `alloc_handle`, and the end of `open` or `socket`, which drop their pointer. -/
def allocHandle (s : Services W) (f : FileId) : Option (Answer W ℤ) := do
  let (r, table) ← s.table.allocate (fileAddress f) genericAll
  match r with
  | .error e =>
    let s ← { s with table := table }.dropRef D f
    some (.error e, s)
  | .ok (_, fd) =>
    let s ← ({ s with table := table }.addRef f).dropRef D f
    some (.ok fd, s)

/-- `open` -/
def openCall (s : Services W) (path : Text) : Option (Answer W ℤ) :=
  match D.find s.world path with
  | .error e => some (.error e, s)
  | .ok (d, rest) => do
    let (r, s) ← s.openFile D d rest .openExisting
    match r with
    | .error e => some (.error e, s)
    | .ok f => s.allocHandle D f

/-- `socket` -/
def socketCall (s : Services W) (domain type protocol : ℤ) : Option (Answer W ℤ) :=
  match D.defaultSocket with
  | none => some (.error .noSuchDevice, s)
  | some d => do
    let (r, s) ← s.openFile D d [] .createNew
    match r with
    | .error e => some (.error e, s)
    | .ok f =>
      let (answer, s) ← s.request D (.pooled f) (.socket domain type protocol)
      match answer with
      | .error e =>
        let s ← s.dropRef D f
        some (.error e, s)
      | .ok _ => s.allocHandle D f

/-- `reference_object<io::file>`; everything in the table is a file. -/
def referenceFile (s : Services W) (fd : ℤ) : Option (Answer W FileId) :=
  match s.table.entryAt fd with
  | .error e => some (.error e, s)
  | .ok entry => do
    let (object, _) ← s.table.read entry
    some (.ok (fileAt object), s.addRef (fileAt object))

/-- `close`: the entry is destroyed, and with it its pointer. -/
def closeCall (s : Services W) (fd : ℤ) : Option (Answer W ℤ) := do
  let (r, table) ← s.table.free fd
  match r with
  | .error e => some (.error e, { s with table := table })
  | .ok () =>
    let object ← table.dropped.getLast?
    let s ← { s with table := table }.dropRef D (fileAt object)
    some (.ok 0, s)

/-- A call on a file of the table. -/
def fileCall (s : Services W) (fd : ℤ) (r : FileRequest) : Option (Answer W ℤ) := do
  let (found, s) ← s.referenceFile fd
  match found with
  | .error e => some (.error e, s)
  | .ok f =>
    let x ← s.files.entry f
    let d ← x.device
    if r.needsSocket ∧ ¬D.isSocket d then
      let s ← s.dropRef D f
      some (.error .badCast, s)
    else
      let (answer, s) ← s.request D (.pooled f) (.file r)
      let s ← s.dropRef D f
      some (answer.map r.value, s)

/-- What a call does with `STDIN_FILENO`, `STDOUT_FILENO` or `STDERR_FILENO`. -/
inductive Standard where
  | refuse (e : ErrorCode)
  | print (buffer size : ℕ)
  | stdio
deriving DecidableEq

/-- The descriptors that are not looked up; `user` for `user_ke_services_mt`. -/
def standard (user : Bool) (fd : ℤ) : FileRequest → Option Standard
  | .read .. =>
    if user ∧ (fd = 0 ∨ fd = 2) then some .stdio
    else if fd = 0 then some (.refuse .notSupported)
    else if fd = 1 ∨ fd = 2 then some (.refuse .badCast)
    else none
  | .write buffer size =>
    if user ∧ fd = 1 then some .stdio
    else if fd = 0 then some (.refuse .badCast)
    else if fd = 1 ∨ fd = 2 then some (.print buffer size)
    else none
  | .control .. => if fd = 0 ∨ fd = 1 ∨ fd = 2 then some (.refuse .badCast) else none
  | .setsockopt .. | .sendto .. | .recvfrom .. => none

/-- A call on a descriptor. -/
def descriptorCall (user : Bool) (s : Services W) (fd : ℤ) (r : FileRequest) :
    Option (Answer W ℤ) :=
  match standard user fd r with
  | some (.refuse e) => some (.error e, s)
  | some (.print buffer size) =>
    some (.ok (r.value size), { s with world := D.print s.world buffer })
  | some .stdio => (s.request D .stdio (.file r)).map fun (answer, s) ↦ (answer.map r.value, s)
  | none => s.fileCall D fd r

end Services

/-- A call of the services. -/
inductive ServiceCall where
  | open (path : Text)
  | socket (domain type protocol : ℤ)
  | close (fd : ℤ)
  | file (fd : ℤ) (r : FileRequest)
deriving DecidableEq

namespace Services

variable {W : Type} (D : Devices W) (user : Bool)

/-- A call without `wrap_posix`. -/
def call (s : Services W) : ServiceCall → Option (Answer W ℤ)
  | .open path => s.openCall D path
  | .socket domain type protocol => s.socketCall D domain type protocol
  | .close fd => s.closeCall D fd
  | .file fd r => s.descriptorCall D user fd r

/-- `errno` after `wrap_posix`. -/
def setErrno (s : Services W) : Except ErrorCode ℤ → Services W
  | .ok _ => s
  | .error e => { s with errno := toErrno e }

/-- What a call returns, and the state after it. -/
def perform (s : Services W) (c : ServiceCall) : Option (ℤ × Services W) :=
  (s.call D user c).map fun (r, s) ↦ (wrapPosix r, s.setErrno r)

/-- Before the first call: no file is open but `stdio_`. -/
def boot (address capacity : ℕ) (stdio : FileObject) (w : W) : Services W where
  table := .init address
  files := .unused FileObject capacity
  stdio := stdio
  world := w
  errno := .none

end Services

/-- The services, with the calls so far and their values. -/
structure Session (W : Type) where
  services : Services W
  calls : List (ServiceCall × ℤ)

namespace Session

variable {W : Type} (D : Devices W) (user : Bool)

/-- A call is performed, and goes to the log. -/
def next (s : Session W) (c : ServiceCall) : Option (Session W) :=
  (s.services.perform D user c).map fun (v, services) ↦ ⟨services, s.calls ++ [(c, v)]⟩

/-- The sessions that begin when the system is booted. -/
def machine (address capacity : ℕ) (stdio : FileObject) (w : W) :
    Machine (Session W) ServiceCall where
  init := ⟨.boot address capacity stdio w, []⟩
  next := next D user

end Session

end Chino
