import Chino.Io.Blocks

/-!
# Asynchronous reads

`Iocp` is the I/O manager with what `read_file_async` and `wait_queued_io` add: the pool of
`async_io_block`s, the list of completed blocks that each process has, and the threads that wait on
it.

The calls of `read_file_async` are numbered, and the number of a call also stands for its block and
for the `async_io_result` it was given, of which every call has its own.  A block remembers the
process of the thread that allocated it.

`dispatch_io_fast_slow` allocates the block before the request.  If there is no request left, it
returns and keeps the block.

`ready_io_blocks_avail_` is never reset, so a thread that finds the list empty looks again.

The fields from `issuer` on record what happened.

## The threads that wait

A `Consumer` is where a thread is in `io_wait_queued_io`: it waits for the event, looks at the list,
has a block, or has written the result and is about to free the block.  Looking takes the front of
the list and is one action, as it is under a lock.  What happens inside of that lock, step by step,
is in `Chino.Io.ReadyBlocks`.

`queueCompletedIo` belongs to the worker: it is the part of `complete` that writes the result and
puts the block on the list of the process that the block remembers, not of the process that runs.

## What is recorded

`issuer`, the answers, the order of completions and the deliveries are not in the code.  They say
which thread made a call, what it returned, and to whom which result was given; nothing the machine
does depends on them.
-/

set_option autoImplicit false

namespace Chino

open Function (update)

/-- Processes are numbered. -/
abbrev ProcessId := ℕ

/-- `async_io_result` -/
structure AsyncIoResult where
  error : ErrorCode
  bytesTransferred : ℕ
deriving DecidableEq

/-- Where a thread is in `io_wait_queued_io`. -/
inductive Consumer where
  /-- In `ready_io_blocks_avail_.wait()`. -/
  | waiting
  /-- About to look into the list. -/
  | looking
  /-- It has taken a block and is about to free it. -/
  | freeing (b : BlockId)
  | returning (b : BlockId)
deriving DecidableEq

/-- The I/O manager, the asynchronous blocks, and the completion port of each process. -/
structure Iocp where
  io : IoManager
  calls : ℕ
  live : BlockId → Bool
  process : BlockId → ProcessId
  result : BlockId → AsyncIoResult
  readyIoBlocks : Heap ProcessId BlockId
  readyIoBlocksAvail : ProcessId → Bool
  consumer : ThreadId → Option Consumer
  issuer : BlockId → ThreadId
  /-- The blocks whose requests were completed. -/
  completions : List BlockId
  /-- What `read_file_async` returned. -/
  returned : BlockId → Option IoResult
  dequeued : ProcessId → List BlockId
  /-- What `io_wait_queued_io` returned, and to whom. -/
  delivered : List (ThreadId × BlockId)
  frees : BlockId → ℕ

/-- What threads, the worker and drivers do. -/
inductive IocpAction where
  | readAsync (t : ThreadId) (f : FileId) (kind : IoFrameKind)
  /-- `async_io_block::allocate` -/
  | allocate (t : ThreadId)
  /-- `io_block_pool_` has no free slot. -/
  | exhausted (t : ThreadId)
  /-- Any other step of the I/O manager. -/
  | io (a : IoAction)
  | waitQueuedIo (t : ThreadId)
  /-- The next step of `io_wait_queued_io`. -/
  | consume (t : ThreadId)

namespace IoManager

/-- The asynchronous call that returns with the action, and what it returns. -/
def answers (s : IoManager) : IoAction → Option (BlockId × IoResult)
  | .fast (.thread t) r =>
    match s.call t with
    | some (.fast _ _ (some b)) => if r = .err .slowIo then none else some (b, r)
    | _ => none
  | .exhausted (.thread t) =>
    match s.call t with
    | some (.slow _ _ (some b)) => some (b, .err .outOfMemory)
    | _ => none
  | .advance (.thread t) =>
    match s.call t with
    | some (.returning i r) => (s.irp i).asyncIoBlock.map fun b ↦ (b, r)
    | _ => none
  | _ => none

end IoManager

namespace Iocp

/-- No asynchronous call has been made. -/
def init : Iocp where
  io := .init
  calls := 0
  live _ := false
  process _ := 0
  result _ := ⟨.success, 0⟩
  readyIoBlocks := Heap.init
  readyIoBlocksAvail _ := false
  consumer _ := none
  issuer _ := 0
  completions := []
  returned _ := none
  dequeued _ := []
  delivered := []
  frees _ := 0

/-- `complete` writes the result of the block and calls `process::queue_completed_io`. -/
def queueCompletedIo (s : Iocp) : Option (BlockId × IoStatus) → Option Iocp
  | some (b, status) => do
    let l ← s.readyIoBlocks.pushBack (s.process b) b
    some { s with
      result := update s.result b ⟨status.code, status.bytesTransferred⟩
      readyIoBlocks := l
      readyIoBlocksAvail := update s.readyIoBlocksAvail (s.process b) true }
  | none => some s

/-- `read_file_async` returns, and has written the number of bytes if it is known. -/
def answer (s : Iocp) : Option (BlockId × IoResult) → Iocp
  | some (b, .ok bytes) => { s with
      returned := update s.returned b (some (.ok bytes))
      result := update s.result b { s.result b with bytesTransferred := bytes } }
  | some (b, .err e) => { s with returned := update s.returned b (some (.err e)) }
  | none => s

/-- Asynchronous calls are made by `readAsync`; a call that needs a block has one when it goes on,
and a thread is in one call at a time. -/
def permits (s : Iocp) : IoAction → Bool
  | .dispatch _ _ _ (some _) => false
  | .dispatch (.thread t) _ _ none => s.consumer t = none
  | .advance (.thread t) | .exhausted (.thread t) =>
    match s.io.call t with
    | some (.slow _ _ (some b)) => s.live b
    | _ => true
  | _ => true

variable (device : FileId → DeviceId) (processOf : ThreadId → ProcessId)

/-- A step of the I/O manager. -/
def nextIo (s : Iocp) (a : IoAction) : Option Iocp := do
  let io ← s.io.next device a
  let s₁ := { s with io := io, completions := s.completions ++ (s.io.completes a).toList }
  (s₁.answer (s.io.answers a)).queueCompletedIo (s.io.queues a)

/-- The next step of `io_wait_queued_io`. -/
def nextConsumer (s : Iocp) (t : ThreadId) : Consumer → Option Iocp
  | .waiting =>
    if s.readyIoBlocksAvail (processOf t) then
      some { s with consumer := update s.consumer t (some .looking) }
    else none
  | .looking =>
    match s.readyIoBlocks.front (processOf t) with
    | some b => do
      let l ← s.readyIoBlocks.remove (processOf t) b
      some { s with
        readyIoBlocks := l
        dequeued := update s.dequeued (processOf t) (s.dequeued (processOf t) ++ [b])
        consumer := update s.consumer t (some (.freeing b)) }
    | none => some { s with consumer := update s.consumer t (some .waiting) }
  | .freeing b => some { s with
      live := update s.live b false
      frees := update s.frees b (s.frees b + 1)
      consumer := update s.consumer t (some (.returning b)) }
  | .returning b => some { s with
      delivered := s.delivered ++ [(t, b)]
      consumer := update s.consumer t none }

/-- The next state, or none where the action does not apply. -/
def next (s : Iocp) : IocpAction → Option Iocp
  | .readAsync t f kind =>
    if s.consumer t = none then do
      let io ← s.io.next device (.dispatch (.thread t) f kind (some s.calls))
      some { s with
        io := io
        calls := s.calls + 1
        issuer := update s.issuer s.calls t }
    else none
  | .allocate t =>
    match s.io.call t with
    | some (.slow _ _ (some b)) =>
      if s.live b then none
      else some { s with
        live := update s.live b true
        process := update s.process b (processOf t) }
    | _ => none
  | .exhausted t =>
    match s.io.call t with
    | some (.slow _ _ (some b)) =>
      if s.live b then none else s.nextIo device (.exhausted (.thread t))
    | _ => none
  | .io a => if s.permits a then s.nextIo device a else none
  | .waitQueuedIo t =>
    if s.consumer t = none ∧ s.io.call t = none then
      some { s with consumer := update s.consumer t (some .waiting) }
    else none
  | .consume t => do
    let c ← s.consumer t
    s.nextConsumer processOf t c

/-- Runs with asynchronous reads. -/
def machine : Machine Iocp IocpAction where
  init := init
  next := next device processOf

end Iocp

end Chino
