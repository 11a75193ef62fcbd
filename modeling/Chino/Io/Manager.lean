import Chino.Io.Device
import Chino.Library.Run
import Chino.Sched.Scheduler

/-!
# The I/O manager

Requests, devices, the I/O worker and the threads that issue I/O.  A thread goes through
`dispatch_io_fast_slow`; where it is in it is a `Call`.  The worker goes through
`io::process_queued_ios` and `device::process_queued_ios`; where it is in them is a `Phase`.

A driver is not a program here but a choice: in `process_io` it may complete the request, move it to
a next frame and queue it, leave it pending, or return an error, with any arguments.  It may also do
synchronous I/O of its own.  The worker then does not wait for an event but drains the queues itself
until that request is completed, so its activations form a `stack`, the innermost at the head.

An action is one access to memory that threads share, or one section with interrupts disabled, which
the locks of `device.cpp` and `io_manager.cpp` are on one CPU.  In particular `queue_io` is one
action.  A wait for an event is a read of its signal that finds it set: when a waiting thread gets
to read it is the scheduler's business, and here any time will do.

A failed assertion and an access through a null pointer have no next state.

The fields `queued`, `outcome`, `drops` and `releases` are not in the code; they record what
happened to a request.  `allocated` numbers the requests, which therefore are never confused even if
they used the same slot of the pool.

## What is not in the model

* **The slots of the pool.**  A request keeps its number for good, so no slot is used again, not
  even after the request was freed too early.  That this happens shows in `refCount`, `drops` and
  `releases` only (`Chino.Io.Accounting`); the results about places, results, frames and work lists
  are about requests by their numbers.
* **Contents.**  Buffers and parameters of a request are not followed.  A fast function answers what
  it likes, and so does a driver.
* **Time.**  Nothing here waits for a time, and the CPU has no scheduler: that a woken thread gets
  to run is the business of `Chino.Sched`, and what wakes the worker that of `Chino.Io.Worker`.

## The worker

An `Activation` is one `io::process_queued_ios`, with the request that it waits for, or none for the
outermost one, and with its `Phase`.  Only the innermost activation moves.  The phases follow the
statements: looking at the work list, taking a request off a device, `process_io`, what the driver
does in there, the statements of `complete` (`CompleteStage`), and dropping the reference.
-/

set_option autoImplicit false

namespace Chino

open Function (update)

/-! ## Places in the code -/

/-- Where a `dispatch_io_fast_slow` is. -/
inductive Call where
  /-- The event was reset, and the device is asked for a fast answer. -/
  | fast (f : FileId) (kind : IoFrameKind) (block : Option BlockId)
  /-- The answer was `slow_io`: about to allocate. -/
  | slow (f : FileId) (kind : IoFrameKind) (block : Option BlockId)
  /-- About to write the parameters. -/
  | allocated (i : IrpId)
  /-- About to `queue`. -/
  | filled (i : IrpId)
  /-- In `internal_wait`. -/
  | queued (i : IrpId)
  /-- In `event::wait` for the event of `f`. -/
  | waiting (i : IrpId) (f : FileId)
  /-- Back from `internal_wait`, about to read the code. -/
  | reading (i : IrpId)
  /-- About to read the number of bytes. -/
  | readingBytes (i : IrpId)
  /-- About to return and to drop the reference. -/
  | returning (i : IrpId) (r : IoResult)
deriving DecidableEq

/-- The request of a call. -/
def Call.irp? : Call → Option IrpId
  | fast .. | slow .. => none
  | allocated i | filled i | queued i | waiting i _ | reading i | readingBytes i
  | returning i _ => some i

/-- What `process_io` has done with its request. -/
inductive Hand where
  | fresh
  /-- A next frame was constructed. -/
  | moved
  /-- It was queued or completed. -/
  | gone
deriving DecidableEq

/-- The next statement of `complete`. -/
inductive CompleteStage where
  | code
  | bytes
  | notify
  | destroy
  | deliver
deriving DecidableEq

/-- Where an activation of `io::process_queued_ios` is. -/
inductive Phase where
  /-- About to take a device from the work list. -/
  | picking
  /-- Waiting for `device_work_list_avail_event_`. -/
  | sleeping
  /-- About to take a request from the device. -/
  | popping (d : DeviceId)
  /-- In `process_io`, and there perhaps in a call of its own. -/
  | processing (d : DeviceId) (i : IrpId) (last : ℕ) (hand : Hand) (call : Option Call)
  /-- In `complete`, called by `process_io` if `inside`. -/
  | completing (d : DeviceId) (i : IrpId) (last : ℕ) (result : Completion) (stage : CompleteStage)
    (inside : Bool)
  /-- About to compare the current frame with the last one. -/
  | checking (d : DeviceId) (i : IrpId) (last : ℕ) (hand : Hand)
  /-- About to drop the reference of the queue. -/
  | dropping (d : DeviceId) (i : IrpId)
  /-- About to `queue_pending_io`. -/
  | parking (d : DeviceId) (i : IrpId)
deriving DecidableEq

/-- The request an activation works on. -/
def Phase.irp? : Phase → Option IrpId
  | picking | sleeping | popping _ => none
  | processing _ i _ _ _ | completing _ i _ _ _ _ | checking _ i _ _ | dropping _ i
  | parking _ i => some i

/-- An activation of `io::process_queued_ios(wait_irp)`. -/
structure Activation where
  waitIrp : Option IrpId
  phase : Phase
deriving DecidableEq

/-- Who calls `dispatch_io_fast_slow`: a thread, or a driver on the worker. -/
inductive Caller where
  | thread (t : ThreadId)
  | worker
deriving DecidableEq

/-- The requests, the devices, and everybody who is at work on them. -/
structure IoManager where
  irp : IrpId → IoRequest
  allocated : ℕ
  lists : IoLists
  workList : Heap Unit DeviceId
  workAvail : Bool
  signal : FileId → Bool
  call : ThreadId → Option Call
  stack : List Activation
  /-- The `requeue_pending_io` calls that are between their two sections. -/
  requeue : ℕ → Option (DeviceId × IrpId)
  /-- The blocks that were queued to their processes, with their results. -/
  ready : List (BlockId × IoStatus)
  queued : IrpId → Bool
  outcome : IrpId → Option Completion
  drops : IrpId → ℕ
  releases : IrpId → ℕ

/-- What threads, the worker and drivers do. -/
inductive IoAction where
  /-- `dispatch_io_fast_slow` is called, and resets the event. -/
  | dispatch (x : Caller) (f : FileId) (kind : IoFrameKind) (block : Option BlockId)
  /-- The fast function answers. -/
  | fast (x : Caller) (r : IoResult)
  /-- A pool has no free slot. -/
  | exhausted (x : Caller)
  /-- The next step, where the code leaves no choice. -/
  | advance (x : Caller)
  /-- `process_io` reads its frame. -/
  | access
  /-- `process_io` calls `complete`. -/
  | complete (result : Completion)
  /-- `process_io` calls `move_next_frame`. -/
  | move (kind : IoFrameKind) (f : FileId)
  /-- `process_io` calls `queue`. -/
  | queue
  /-- `process_io` returns `ok`. -/
  | finish
  /-- `process_io` returns an error. -/
  | fail (e : ErrorCode)
  /-- An interrupt handler calls `requeue_pending_io`; `n` tells the calls apart. -/
  | irq (n : ℕ) (d : DeviceId) (pred : IoRequest → Bool)
  /-- It goes on to `queue_io`. -/
  | requeue (n : ℕ)

namespace IoManager

/-- Nothing was issued yet, and the worker has been started. -/
def init : IoManager where
  irp _ := .unallocated
  allocated := 0
  lists := Heap.init
  workList := Heap.init
  workAvail := false
  signal _ := false
  call _ := none
  stack := [⟨none, .picking⟩]
  requeue _ := none
  ready := []
  queued _ := false
  outcome _ := none
  drops _ := 0
  releases _ := 0

/-! ## Operations -/

/-- `register_device_process_io` -/
def registerDevice (s : IoManager) (d : DeviceId) : Option IoManager :=
  if s.workList.inList d then some s
  else do
    let l ← s.workList.pushBack () d
    some { s with workList := l, workAvail := true }

/-- `device::queue_io` -/
def queueIo (s : IoManager) (d : DeviceId) (i : IrpId) : Option IoManager := do
  let l ← s.lists.pushBack (.irps d) i
  { s with lists := l }.registerDevice d

/-- A request changes. -/
def setIrp (s : IoManager) (i : IrpId) (r : IoRequest) : IoManager :=
  { s with irp := update s.irp i r }

/-- `ref_counted_object::add_ref` -/
def addRef (s : IoManager) (i : IrpId) : IoManager :=
  s.setIrp i { s.irp i with refCount := (s.irp i).refCount + 1 }

/-- `ref_counted_object::dec_ref` -/
def decRef (s : IoManager) (i : IrpId) : IoManager :=
  { s.setIrp i { s.irp i with refCount := (s.irp i).refCount - 1 } with
    releases :=
      if (s.irp i).refCount = 1 then update s.releases i (s.releases i + 1) else s.releases }

variable (device : FileId → DeviceId)

/-- `io_request::queue` -/
def queueIrp (s : IoManager) (i : IrpId) : Option IoManager := do
  let k ← (s.irp i).currentFrame
  let s := if k = 0 then s.addRef i else s
  let frame ← (s.irp i).frames k
  let s ← s.queueIo (device frame.file) i
  some { s with queued := update s.queued i true }

/-- The call a caller is in. -/
def callOf (s : IoManager) : Caller → Option Call
  | .thread t => s.call t
  | .worker =>
    match s.stack with
    | ⟨_, .processing _ _ _ _ call⟩ :: _ => call
    | _ => none

/-- The caller is at a point where it can call. -/
def canCall (s : IoManager) : Caller → Bool
  | .thread t => s.call t = none
  | .worker =>
    match s.stack with
    | ⟨_, .processing _ _ _ _ none⟩ :: _ => true
    | _ => false

/-- A call moves on, in its thread or in the worker. -/
def setCall (s : IoManager) (x : Caller) (call : Option Call) : IoManager :=
  match x, s.stack with
  | .thread t, _ => { s with call := update s.call t call }
  | .worker, ⟨w, .processing d i last hand _⟩ :: as =>
    { s with stack := ⟨w, .processing d i last hand call⟩ :: as }
  | .worker, _ => s

/-- The next step of a call. -/
def advanceCall (s : IoManager) (x : Caller) : Call → Option IoManager
  | .fast .. => none
  | .slow f kind block =>
    some ({ s with
      irp := update s.irp s.allocated (.construct block kind f)
      allocated := s.allocated + 1 }.setCall x (some (.allocated s.allocated)))
  | .allocated i => do
    let k ← (s.irp i).currentFrame
    let _ ← (s.irp i).frames k
    some (s.setCall x (some (.filled i)))
  | .filled i => do
    let s ← s.queueIrp device i
    some (s.setCall x (some
      (if (s.irp i).asyncIoBlock.isSome then .returning i (.err .ioPending) else .queued i)))
  | .queued i =>
    match x with
    | .thread _ => do
      let frame ← (s.irp i).frames 0
      some (s.setCall x (some (.waiting i frame.file)))
    | .worker =>
      if (s.irp i).isCompleted then some (s.setCall x (some (.reading i)))
      else some { s with stack := ⟨some i, .picking⟩ :: s.stack }
  | .waiting i f => if s.signal f then some (s.setCall x (some (.reading i))) else none
  | .reading i =>
    some (s.setCall x (some (if (s.irp i).status.code = .success then .readingBytes i
      else .returning i (.err (s.irp i).status.code))))
  | .readingBytes i =>
    some (s.setCall x (some (.returning i (.ok (s.irp i).status.bytesTransferred))))
  | .returning i _ => some ((s.decRef i).setCall x none)

/-! ## The worker -/

/-- The activation below the innermost one, after `process_queued_ios` has returned to it. -/
def resume : List Activation → List Activation
  | ⟨w, .processing d i last hand (some (.queued j))⟩ :: as =>
    ⟨w, .processing d i last hand (some (.reading j))⟩ :: as
  | as => as

/-- The next statement of `complete` in the innermost activation `w`, above `as`. -/
def advanceComplete (s : IoManager) (w : Option IrpId) (as : List Activation) (d : DeviceId)
    (i : IrpId) (last : ℕ) (result : Completion) (inside : Bool) : CompleteStage → Option IoManager
  | .code => some { s.setIrp i ((s.irp i).finishCode result) with
      stack := ⟨w, .completing d i last result .bytes inside⟩ :: as }
  | .bytes => some { s.setIrp i ((s.irp i).finishBytes result) with
      outcome := update s.outcome i (some result)
      stack := ⟨w, .completing d i last result .notify inside⟩ :: as }
  | .notify => do
    let k ← (s.irp i).currentFrame
    let frame ← (s.irp i).frames k
    some { s with
      signal := update s.signal frame.file true
      stack := ⟨w, .completing d i last result .destroy inside⟩ :: as }
  | .destroy => do
    let k ← (s.irp i).currentFrame
    let s := s.setIrp i (s.irp i).destroyFrame
    if k = 0 then
      some { s with stack := ⟨w, .completing d i last result .deliver inside⟩ :: as }
    else do
      -- the device of the frame below completes it in turn
      let _ ← (s.irp i).frames (k - 1)
      some { s with stack := ⟨w, .completing d i last result .notify inside⟩ :: as }
  | .deliver => some { s with
      ready := s.ready ++ ((s.irp i).asyncIoBlock.map fun b ↦ (b, (s.irp i).status)).toList
      stack := ⟨w, if inside then .processing d i last .gone none else .checking d i last .gone⟩ :: as }

/-- The next step of the worker. -/
def advanceWorker (s : IoManager) : Option IoManager :=
  match s.stack with
  | [] => none
  | ⟨w, phase⟩ :: as =>
    match phase with
    | .picking =>
      match s.workList.front () with
      | some d => do
        let l ← s.workList.remove () d
        some { s with workList := l, stack := ⟨w, .popping d⟩ :: as }
      | none => some { s with workAvail := false, stack := ⟨w, .sleeping⟩ :: as }
    | .sleeping => if s.workAvail then some { s with stack := ⟨w, .picking⟩ :: as } else none
    | .popping d => do
      let (irp, l) ← Device.takeIrp s.lists d
      match irp with
      | some i => do
        let k ← (s.irp i).currentFrame
        some { s with lists := l, stack := ⟨w, .processing d i k .fresh none⟩ :: as }
      | none => some { s with stack := ⟨w, .picking⟩ :: as }
    | .processing _ _ _ _ call => do
      let c ← call
      s.advanceCall device .worker c
    | .completing d i last result stage inside =>
      s.advanceComplete w as d i last result inside stage
    | .checking d i last _ =>
      match (s.irp i).currentFrame with
      | none => some { s with stack := ⟨w, .dropping d i⟩ :: as }
      | some k =>
        if k ≠ last then some { s with stack := ⟨w, .popping d⟩ :: as }
        else some { s with stack := ⟨w, .parking d i⟩ :: as }
    | .dropping d i =>
      some { s.decRef i with
        drops := update s.drops i (s.drops i + 1)
        stack := if w = some i then resume as else ⟨w, .popping d⟩ :: as }
    | .parking d i => do
      let l ← s.lists.pushBack (.pending d) i
      some { s with lists := l, stack := ⟨w, .popping d⟩ :: as }

/-! ## The machine -/

/-- The next state, or none where the action does not apply. -/
def next (s : IoManager) : IoAction → Option IoManager
  | .dispatch x f kind block =>
    if s.canCall x then
      some ({ s with signal := update s.signal f false }.setCall x (some (.fast f kind block)))
    else none
  | .fast x r =>
    match s.callOf x with
    | some (.fast f kind block) =>
      some (s.setCall x (if r = .err .slowIo then some (.slow f kind block) else none))
    | _ => none
  | .exhausted x =>
    match s.callOf x with
    | some (.slow ..) => some (s.setCall x none)
    | _ => none
  | .advance (.thread t) => do
    let c ← s.call t
    s.advanceCall device (.thread t) c
  | .advance .worker => s.advanceWorker device
  | .access =>
    match s.stack with
    | ⟨_, .processing _ i last hand none⟩ :: _ =>
      if hand = .gone then none else ((s.irp i).frames last).map fun _ ↦ s
    | _ => none
  | .complete result =>
    match s.stack with
    | ⟨w, .processing d i last .fresh none⟩ :: as =>
      if result.code = .ioPending then none
      else some { s with stack := ⟨w, .completing d i last result .code true⟩ :: as }
    | _ => none
  | .move kind f =>
    match s.stack with
    | ⟨w, .processing d i last .fresh none⟩ :: as => do
      let r ← (s.irp i).moveNextFrame kind f
      some { s.setIrp i r with stack := ⟨w, .processing d i last .moved none⟩ :: as }
    | _ => none
  | .queue =>
    match s.stack with
    | ⟨w, .processing d i last .moved none⟩ :: as => do
      let s ← s.queueIrp device i
      some { s with stack := ⟨w, .processing d i last .gone none⟩ :: as }
    | _ => none
  | .finish =>
    match s.stack with
    | ⟨w, .processing d i last hand none⟩ :: as =>
      if hand = .moved then none else some { s with stack := ⟨w, .checking d i last hand⟩ :: as }
    | _ => none
  | .fail e =>
    match s.stack with
    | ⟨w, .processing d i last .fresh none⟩ :: as =>
      if e = .success ∨ e = .ioPending then none
      else some { s with stack := ⟨w, .completing d i last (.err e) .code false⟩ :: as }
    | _ => none
  | .irq n d pred =>
    match s.requeue n with
    | some _ => none
    | none => do
      let (irp, l) ← Device.takePending s.lists d fun i ↦ pred (s.irp i)
      let i ← irp
      some { s with lists := l, requeue := update s.requeue n (some (d, i)) }
  | .requeue n => do
    let (d, i) ← s.requeue n
    { s with requeue := update s.requeue n none }.queueIo d i

/-- Runs of all threads and the worker. -/
def machine : Machine IoManager IoAction where
  init := init
  next := next device

end IoManager

end Chino
