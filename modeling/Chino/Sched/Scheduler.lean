import Chino.IntrusiveList
import Mathlib.Data.UInt
import Mathlib.Data.Fintype.Defs

/-!
# The scheduler of one CPU

The functions of `src/os/kernel/ps/sched/scheduler.cpp` on the state of one scheduler object, its
threads and the few machine registers they use.  Every function here is one that the code runs with
interrupts disabled, so each is one uninterrupted step; what happens between them is the subject of
`Chino.Sched.Machine`.

* The lists are those of the code: one ready list for each priority, `blocked_threads_` and
  `delayed_threads_`, all threaded through the `scheduler_list_node` of the threads.
* `thread_flags` stores priority and status in bit fields that are wide enough for the enumerators,
  so both are enumerations here.  `scheduler()` is only ever null or this scheduler: `attached`.
* Times are the 64-bit signed nanosecond counts of `std::chrono::nanoseconds`.
* `yieldRequests` counts the `syscall(yield)` interrupts that have been posted and not yet handled.

Code that the language gives no meaning to — a null pointer dereferenced, an array indexed out of
range, a failed `kassert`, a `fail_fast` — ends in a `Fault`.  The loops over lists follow `next`
pointers, and the model lets them run for as many rounds as the list's counter promises;
`endlessWalk` is what would come out of a ring that does not close in time.

`thread` is not reference counted (`object::add_ref` does nothing), so the `add_ref` and `dec_ref`
of attaching and detaching have no counterpart.

## How the code is rendered

A function of the source is a function from a `Scheduler` to a `Scheduler`, or to a `Fault`, and is
written as a `do` block with the statements in their order.  Where a function ends with a call of
`switch_task` or of `yield`, the model ends before it and the caller adds it, because `yield` posts
an interrupt and the switch happens when that is answered.

`select_next_thread` is rendered with all its branches, down to the index that runs below zero if
the search finds nobody; it is not replaced by a specification.  So are the two loops that move
several threads, `unblock_local_threads` and `wakeup_delayed_threads`, with their cursors.
-/

set_option autoImplicit false

namespace Chino

open Function (update)

/-! ## Threads -/

/-- Threads are numbered. -/
abbrev ThreadId := ℕ

/-- The address of a `std::atomic<uint32_t>`. -/
abbrev Addr := ℕ

/-- `std::chrono::nanoseconds` -/
abbrev Nanoseconds := ℤ

/-- Addition of two 64-bit signed counts. -/
def Nanoseconds.add (a b : Nanoseconds) : Nanoseconds := Int.bmod (a + b) (2 ^ 64)

/-- `thread_priority` -/
inductive ThreadPriority where
  | idle | lowest | low | normal | high | highest
deriving DecidableEq

namespace ThreadPriority

instance : Fintype ThreadPriority where
  elems := {idle, lowest, low, normal, high, highest}
  complete p := by cases p <;> decide

/-- The value of the enumerator, which is also the index of the ready list. -/
def toNat : ThreadPriority → ℕ
  | idle => 0
  | lowest => 1
  | low => 2
  | normal => 3
  | high => 4
  | highest => 5

/-- The ready list at an index, if the array has one there. -/
def ofNat? : ℕ → Option ThreadPriority
  | 0 => some idle
  | 1 => some lowest
  | 2 => some low
  | 3 => some normal
  | 4 => some high
  | 5 => some highest
  | _ => none

@[simp] theorem ofNat?_toNat (p : ThreadPriority) : ofNat? p.toNat = some p := by cases p <;> rfl

theorem toNat_injective {p q : ThreadPriority} (h : p.toNat = q.toNat) : p = q :=
  Option.some.inj ((ofNat?_toNat p).symm.trans (h ▸ ofNat?_toNat q))

theorem exists_toNat : ∀ {n : ℕ}, n ≤ 5 → ∃ p, toNat p = n
  | 0, _ => ⟨idle, rfl⟩
  | 1, _ => ⟨lowest, rfl⟩
  | 2, _ => ⟨low, rfl⟩
  | 3, _ => ⟨normal, rfl⟩
  | 4, _ => ⟨high, rfl⟩
  | 5, _ => ⟨highest, rfl⟩
  | n + 6, h => by omega

theorem toNat_le (p : ThreadPriority) : p.toNat ≤ 5 := by cases p <;> decide

end ThreadPriority

/-- `thread_status` -/
inductive ThreadStatus where
  | ready | running | blocked | delayed | terminated
deriving DecidableEq

/-- The lists of one scheduler. -/
inductive ListId where
  | ready (p : ThreadPriority)
  | blocked
  | delayed
deriving DecidableEq

/-- `thread`, as far as the scheduler uses it. -/
structure Thread where
  priority : ThreadPriority
  status : ThreadStatus
  /-- `wait_address`, which may be null. -/
  waitAddress : Option Addr
  wakeupTime : Nanoseconds
  /-- `scheduler()` is not null. -/
  attached : Bool
deriving DecidableEq

/-- What the code does instead of returning. -/
inductive Fault where
  /-- A null pointer of an intrusive list is dereferenced. -/
  | nullLink
  /-- `kassert(next_thread)` fails, or there is no current thread to refer to. -/
  | nullThread
  /-- `ready_threads_` is indexed outside of `0..5`. -/
  | readyIndex
  /-- `fail_fast("Terminated thread.")`. -/
  | terminatedThread
  /-- A list is longer than its counter says. -/
  | endlessWalk
deriving DecidableEq

/-- `scheduler`, with the threads. -/
structure Scheduler where
  lists : Heap ListId ThreadId
  thread : ThreadId → Thread
  /-- `chino_current_threads` of this CPU. -/
  current : Option ThreadId
  started : Bool
  lockDepth : UInt32
  maxReadyPriority : ThreadPriority
  /-- `hal::arch_t::current_cpu_time()`. -/
  now : Nanoseconds
  yieldRequests : ℕ

namespace Scheduler

/-- A list operation inside the scheduler. -/
def linkOp {α : Type} : Option α → Except Fault α
  | none => .error .nullLink
  | some a => .ok a

@[simp] theorem linkOp_some {α : Type} (a : α) : linkOp (some a) = .ok a := rfl

/-- A thread changes. -/
def modifyThread (s : Scheduler) (t : ThreadId) (f : Thread → Thread) : Scheduler :=
  { s with thread := update s.thread t (f (s.thread t)) }

/-- `current_thread`, which must not be null where it is used. -/
def currentThread (s : Scheduler) : Except Fault ThreadId :=
  match s.current with
  | none => .error .nullThread
  | some t => .ok t

/-- The list that a thread of this status is in. -/
def listOf (th : Thread) : Except Fault ListId :=
  match th.status with
  | .ready | .running => .ok (.ready th.priority)
  | .blocked => .ok .blocked
  | .delayed => .ok .delayed
  | .terminated => .error .terminatedThread

/-- `update_max_ready_priority` -/
def updateMaxReadyPriority (s : Scheduler) (p : ThreadPriority) : Scheduler :=
  { s with maxReadyPriority :=
    if s.maxReadyPriority.toNat < p.toNat then p else s.maxReadyPriority }

/-! ## Selecting and switching -/

/-- One round of the search in `select_next_thread`: the front of `ready_threads_[i]`, or what the
loop does next if that list is empty. -/
def tryReady (h : Heap ListId ThreadId) (i : ℕ) (rest : Except Fault (Option ThreadId)) :
    Except Fault (Option ThreadId) :=
  match ThreadPriority.ofNat? i with
  | none => .error .readyIndex
  | some p => if h.isEmpty (.ready p) then rest else .ok (h.front (.ready p))

/-- The loop of `select_next_thread` that searches the ready lists from `i` down to `low`.  The
index is unsigned: below `0` comes the largest `size_t`, and the loop goes on there. -/
def searchReady (h : Heap ListId ThreadId) (low : ℕ) : ℕ → Except Fault (Option ThreadId)
  | 0 => if 0 < low then .ok none else tryReady h 0 (.error .readyIndex)
  | i + 1 => if i + 1 < low then .ok none else tryReady h (i + 1) (searchReady h low i)

/-- `select_next_thread` -/
def selectNextThread (s : Scheduler) : Except Fault ThreadId := do
  let cnt ← s.currentThread
  let th := s.thread cnt
  let search := s.maxReadyPriority.toNat
  let next ←
    if search > th.priority.toNat ∨ th.status ≠ .running then
      -- a higher thread is ready or the current one is not running
      searchReady s.lists (if th.status ≠ .running then 0 else th.priority.toNat) search
    else do
      -- round robin in the list of the current thread
      let l ← listOf th
      match s.lists.nextOf l cnt with
      | some t => .ok (some t)
      | none => .ok (s.lists.front l)
  match next with
  | none => .error .nullThread
  | some t => .ok t

/-- `set_current_thread` -/
def setCurrentThread (s : Scheduler) (t : ThreadId) : Except Fault Scheduler := do
  let cnt ← s.currentThread
  if cnt ≠ t then
    let s := if (s.thread cnt).status = .running then
        s.modifyThread cnt fun th ↦ { th with status := .ready } else s
    let s := s.modifyThread t fun th ↦ { th with status := .running }
    .ok { s with maxReadyPriority := (s.thread t).priority, current := some t }
  else .ok s

/-- `switch_task` -/
def switchTask (s : Scheduler) : Except Fault Scheduler := do
  if s.lockDepth = 0 then
    let cnt ← s.currentThread
    let next ← s.selectNextThread
    if next ≠ cnt then s.setCurrentThread next else .ok s
  else .ok s

/-! ## Making threads ready -/

/-- The lines `unblock_local_threads` and `wakeup_delayed_threads` have in common: take the thread
off the list it waits on, make it ready, and queue it at its priority. -/
def makeReady (s : Scheduler) (l : ListId) (t : ThreadId) : Except Fault Scheduler := do
  let lists ← linkOp (s.lists.remove l t)
  let s := { s with lists := lists }
  let s := s.modifyThread t fun th ↦ { th with status := .ready }
  let l' ← listOf (s.thread t)
  let lists ← linkOp (s.lists.pushBack l' t)
  .ok ({ s with lists := lists }.updateMaxReadyPriority (s.thread t).priority)

/-- The loop of `unblock_local_threads`.  The second component is `unblocked`. -/
def unblockLoop (waitAddress : Addr) (unblockAll : Bool) :
    ℕ → Option ThreadId → Scheduler → Bool → Except Fault (Scheduler × Bool)
  | _, none, s, unblocked => .ok (s, unblocked)
  | 0, some _, _, _ => .error .endlessWalk
  | n + 1, some t, s, unblocked => do
    let next := s.lists.nextOf .blocked t
    if (s.thread t).waitAddress = some waitAddress then
      let s := s.modifyThread t fun th ↦ { th with waitAddress := none }
      let s ← s.makeReady .blocked t
      if unblockAll then unblockLoop waitAddress unblockAll n next s true
      else .ok (s, true)
    else unblockLoop waitAddress unblockAll n next s unblocked

/-- `unblock_local_threads` -/
def unblockLocalThreads (s : Scheduler) (waitAddress : Addr) (unblockAll : Bool) :
    Except Fault Scheduler := do
  let (s, unblocked) ← unblockLoop waitAddress unblockAll (s.lists.size .blocked)
    (s.lists.front .blocked) s false
  .ok (if unblocked then { s with yieldRequests := s.yieldRequests + 1 } else s)

/-- The loop of `wakeup_delayed_threads`, which stops at the first thread that is not due. -/
def wakeupLoop (currentTime : Nanoseconds) :
    ℕ → Option ThreadId → Scheduler → Except Fault Scheduler
  | _, none, s => .ok s
  | n, some head, s =>
    if (s.thread head).wakeupTime ≤ currentTime then
      match n with
      | 0 => .error .endlessWalk
      | n + 1 => do
        let next := s.lists.nextOf .delayed head
        let s ← s.makeReady .delayed head
        wakeupLoop currentTime n next s
    else .ok s

/-- `wakeup_delayed_threads` -/
def wakeupDelayedThreads (s : Scheduler) : Except Fault Scheduler :=
  wakeupLoop s.now (s.lists.size .delayed) (s.lists.front .delayed) s

/-! ## Leaving the CPU -/

/-- The loop of `add_to_delay_list`: from `pivot` on, follow `next` while it is due no later. -/
def delayPivot (s : Scheduler) (wakeupTime : Nanoseconds) : ℕ → ThreadId → Except Fault ThreadId
  | 0, _ => .error .endlessWalk
  | n + 1, pivot =>
    match s.lists.nextOf .delayed pivot with
    | none => .ok pivot
    | some next =>
      if (s.thread next).wakeupTime ≤ wakeupTime then delayPivot s wakeupTime n next
      else .ok pivot

/-- `add_to_delay_list` -/
def addToDelayList (s : Scheduler) (t : ThreadId) (timeout : Nanoseconds) :
    Except Fault Scheduler := do
  let wakeupTime := s.now.add timeout
  let lists ← match s.lists.front .delayed with
    | some pivot => do
      let pivot ← s.delayPivot wakeupTime (s.lists.size .delayed) pivot
      linkOp (s.lists.insertAfter .delayed pivot t)
    | none => linkOp (s.lists.pushFront .delayed t)
  .ok ({ s with lists := lists }.modifyThread t fun th ↦
    { th with wakeupTime := wakeupTime, status := .delayed })

/-- `list_of(thread).remove(&thread)`. -/
def unlinkThread (s : Scheduler) (t : ThreadId) : Except Fault Scheduler := do
  let l ← listOf (s.thread t)
  let lists ← linkOp (s.lists.remove l t)
  .ok { s with lists := lists }

/-- The constructor of `thread`, which sets its flags and no other field. -/
def construct (s : Scheduler) (t : ThreadId) (p : ThreadPriority) : Scheduler :=
  s.modifyThread t fun th ↦ { th with priority := p, status := .ready, attached := false }

/-- `attach_thread`, up to its `yield`. -/
def attachThread (s : Scheduler) (t : ThreadId) : Except Fault Scheduler := do
  let l ← listOf (s.thread t)
  let lists ← linkOp (s.lists.pushBack l t)
  let s := { s with lists := lists }.updateMaxReadyPriority (s.thread t).priority
  .ok (s.modifyThread t fun th ↦ { th with attached := true, status := .ready })

/-- `detach_thread`, without the `switch_task` it ends with. -/
def detachThread (s : Scheduler) (t : ThreadId) : Except Fault Scheduler := do
  let s ← s.unlinkThread t
  let s := s.modifyThread t fun th ↦ { th with attached := false }
  .ok (if (s.thread t).priority = s.maxReadyPriority then { s with maxReadyPriority := .idle }
    else s)

/-- The interrupt-disabled section of `block_current_thread`, once `*wait_address` was found to be
`old`. -/
def blockThread (s : Scheduler) (t : ThreadId) (waitAddress : Addr) (timeout : Option Nanoseconds) :
    Except Fault Scheduler := do
  let s := s.modifyThread t fun th ↦ { th with waitAddress := some waitAddress }
  let s ← s.unlinkThread t
  match timeout with
  | none =>
    let lists ← linkOp (s.lists.pushBack .blocked t)
    .ok ({ s with lists := lists }.modifyThread t fun th ↦ { th with status := .blocked })
  | some timeout => s.addToDelayList t timeout

/-- `delay_current_thread`, up to its `yield`. -/
def delayThread (s : Scheduler) (t : ThreadId) (timeout : Nanoseconds) :
    Except Fault Scheduler := do
  let s ← s.unlinkThread t
  s.addToDelayList t timeout

end Scheduler

end Chino
