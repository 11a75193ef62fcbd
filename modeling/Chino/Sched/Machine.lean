import Chino.Library.Run
import Chino.Sched.Scheduler

/-!
# One CPU: threads, interrupts and the scheduler between them

`Cpu` is the scheduler together with what its callers add: where every thread is inside
`block_current_thread` or `thread_main_thunk`, and the words it waits on.  `machine` runs it.  One
event is one section that the code executes with interrupts disabled, one interrupt handler, or one
access to memory; between any two events any interrupt may come, so a run is any interleaving the
single CPU allows.

The events of the current thread are its calls.  A call that is not one section has a `Pc` for
every point at which it can be interrupted:

* `block_current_thread` reads the clock (`entered`), then runs its locked section, and then
  alternates between being about to `yield` (`suspended`) and being back from it (`resumed`);
* a thread whose entry function returned is `exiting` after `detach_thread` and `exited` after its
  last `yield`, which it must not come back from.

`attach`, `unblock` and `store` may come from the current thread or from an interrupt handler.
`attach` is the constructor of `thread`, so the thread is fresh: it is not attached, and it is not
the one that is executing.  Before `startSchedule` the machine is booting: there is no current
thread, and interrupts are disabled.

`act` is an event up to the `switch_task` call it ends with, if it ends with one, and `step` adds
that call.

The components `arrivals` and `arrival` are not in the code.  They number the suspensions of
`block_current_thread` in the order in which they happen.
-/

set_option autoImplicit false

namespace Chino

open Function (update)

/-- What `block_current_thread` returns. -/
inductive WaitResult where
  | ok
  | timeout
deriving DecidableEq

/-- The arguments of a `block_current_thread` call, and its `last_time`. -/
structure BlockCall where
  waitAddress : Addr
  old : UInt32
  timeout : Option Nanoseconds
  lastTime : Nanoseconds
deriving DecidableEq

/-- Where a thread is. -/
inductive Pc where
  | user
  | entered (call : BlockCall)
  | suspended (call : BlockCall)
  | resumed (call : BlockCall)
  | exiting
  | exited
deriving DecidableEq

/-- The `block_current_thread` call a thread is in. -/
def Pc.call? : Pc → Option BlockCall
  | entered call | suspended call | resumed call => some call
  | _ => none

/-- The scheduler of one CPU, the memory, and where its threads are. -/
structure Cpu where
  sched : Scheduler
  pc : ThreadId → Pc
  /-- What the last `block_current_thread` call of a thread returned. -/
  result : ThreadId → WaitResult
  mem : Addr → UInt32
  arrivals : ℕ
  arrival : ThreadId → ℕ

/-- What the current thread or an interrupt does next. -/
inductive Event where
  | attach (t : ThreadId) (p : ThreadPriority)
  | startSchedule (t : ThreadId)
  | detach
  | block (waitAddress : Addr) (old : UInt32) (timeout : Option Nanoseconds)
  | blockSection
  | blockCheck
  | yield
  | delay (timeout : Nanoseconds)
  | unblock (waitAddress : Addr) (unblockAll : Bool)
  | store (a : Addr) (v : UInt32)
  | lock
  | unlock
  | tick
  | irqYield
  | clock (now : Nanoseconds)
deriving DecidableEq

namespace Cpu

/-- The state before the first constructor runs: zeroed storage, and memory `mem`. -/
def init (mem : Addr → UInt32) : Cpu where
  sched :=
    { lists := Heap.init
      thread := fun _ ↦ ⟨.idle, .ready, none, 0, false⟩
      current := none
      started := false
      lockDepth := 0
      maxReadyPriority := .idle
      now := 0
      yieldRequests := 0 }
  pc _ := .user
  result _ := .ok
  mem := mem
  arrivals := 0
  arrival _ := 0

/-- A thread goes on. -/
def setPc (c : Cpu) (t : ThreadId) (pc : Pc) : Cpu := { c with pc := update c.pc t pc }

/-- A word is written. -/
def setMem (c : Cpu) (a : Addr) (v : UInt32) : Cpu := { c with mem := update c.mem a v }

/-- `block_current_thread` returns. -/
def returnFrom (c : Cpu) (t : ThreadId) (r : WaitResult) : Cpu :=
  { c with pc := update c.pc t .user, result := update c.result t r }

/-- The `pc` of the current thread. -/
def currentPc (c : Cpu) : Option Pc := c.sched.current.map c.pc

/-- Which events are possible. -/
def enabled (c : Cpu) : Event → Bool
  | .attach t _ => !(c.sched.thread t).attached && c.sched.current ≠ some t
  | .startSchedule t => !c.sched.started && (c.sched.thread t).attached
  | .detach | .block .. | .delay _ => c.currentPc = some .user
  | .lock | .unlock => !c.sched.started || c.currentPc = some .user
  | .blockSection => c.currentPc.any fun | .entered _ => true | _ => false
  | .blockCheck => c.currentPc.any fun | .resumed _ => true | _ => false
  | .yield => c.currentPc.any fun | .user | .suspended _ | .exiting => true | _ => false
  | .unblock .. | .store .. => true
  | .tick => c.sched.started
  | .irqYield => c.sched.started && 0 < c.sched.yieldRequests
  | .clock now => c.sched.now ≤ now

/-- The locked section of `block_current_thread`. -/
def blockSection (c : Cpu) (t : ThreadId) (call : BlockCall) : Except Fault Cpu := do
  if c.mem call.waitAddress = call.old then
    let s ← c.sched.blockThread t call.waitAddress call.timeout
    .ok { c.setPc t (.suspended call) with
      sched := s
      arrivals := c.arrivals + 1
      arrival := update c.arrival t c.arrivals }
  else .ok (c.returnFrom t .ok)

/-- The end of the loop of `block_current_thread`, after its `yield`. -/
def blockCheck (c : Cpu) (t : ThreadId) (call : BlockCall) : Cpu :=
  if c.mem call.waitAddress ≠ call.old then c.returnFrom t .ok
  else if call.timeout.any fun timeout ↦ call.lastTime.add timeout ≤ c.sched.now then
    c.returnFrom t .timeout
  else c.setPc t (.suspended call)

/-- Where a thread is once its `yield` returns. -/
def afterYield : Pc → Pc
  | .suspended call => .resumed call
  | .exiting => .exited
  | pc => pc

@[simp] theorem setPc_sched (c : Cpu) (t : ThreadId) (pc : Pc) : (c.setPc t pc).sched = c.sched :=
  rfl

@[simp] theorem setPc_pc (c : Cpu) (t : ThreadId) (pc : Pc) :
    (c.setPc t pc).pc = update c.pc t pc := rfl

@[simp] theorem setMem_sched (c : Cpu) (a : Addr) (v : UInt32) : (c.setMem a v).sched = c.sched :=
  rfl

@[simp] theorem setMem_mem_self (c : Cpu) (a : Addr) (v : UInt32) : (c.setMem a v).mem a = v :=
  Function.update_self ..

theorem setMem_mem_of_ne (c : Cpu) {a a' : Addr} (v : UInt32) (h : a' ≠ a) :
    (c.setMem a v).mem a' = c.mem a' :=
  Function.update_of_ne h _ _

@[simp] theorem blockCheck_sched (c : Cpu) (t : ThreadId) (call : BlockCall) :
    (c.blockCheck t call).sched = c.sched := by
  unfold blockCheck; split
  · rfl
  · split <;> rfl

@[simp] theorem blockCheck_mem (c : Cpu) (t : ThreadId) (call : BlockCall) :
    (c.blockCheck t call).mem = c.mem := by
  unfold blockCheck; split
  · rfl
  · split <;> rfl

/-- `block_current_thread` returns `timeout` only if it has a timeout. -/
theorem blockCheck_returns (c : Cpu) (t : ThreadId) (call : BlockCall) :
    (c.blockCheck t call).pc t = .user ∧
      ((c.blockCheck t call).result t = .timeout → call.timeout ≠ none) ∨
      (c.blockCheck t call).pc t = .suspended call := by
  unfold blockCheck
  split
  · exact Or.inl (by simp [returnFrom])
  · split
    · rename_i htime
      refine Or.inl ⟨by simp [returnFrom], fun _ hnone ↦ ?_⟩
      rw [hnone] at htime
      cases htime
    · exact Or.inr (by simp)

/-- `block_current_thread` returns to its caller or goes round again. -/
theorem blockCheck_pc (c : Cpu) (t : ThreadId) (call : BlockCall) :
    (c.blockCheck t call).pc = update c.pc t .user ∨
      (c.blockCheck t call).pc = update c.pc t (.suspended call) := by
  unfold blockCheck; split
  · exact Or.inl rfl
  · split
    · exact Or.inl rfl
    · exact Or.inr rfl

/-- An event up to the call of `switch_task` it ends with.  The second component says whether it
ends with one. -/
def act (c : Cpu) : Event → Except Fault (Cpu × Bool)
  | .attach t p => do
    let s ← (c.sched.construct t p).attachThread t
    .ok ({ c.setPc t .user with sched := s }, c.sched.started)
  | .startSchedule t =>
    .ok ({ c with sched :=
      { c.sched.modifyThread t fun th ↦ { th with status := .running } with
        current := some t, started := true } }, false)
  | .detach => do
    let t ← c.sched.currentThread
    let s ← c.sched.detachThread t
    .ok ({ c.setPc t .exiting with sched := s }, false)
  | .block a old timeout => do
    let t ← c.sched.currentThread
    .ok (c.setPc t (.entered ⟨a, old, timeout, c.sched.now⟩), false)
  | .blockSection => do
    let t ← c.sched.currentThread
    match c.pc t with
    | .entered call => do
      let c ← c.blockSection t call
      .ok (c, false)
    | _ => .ok (c, false)
  | .blockCheck => do
    let t ← c.sched.currentThread
    match c.pc t with
    | .resumed call => .ok (c.blockCheck t call, false)
    | _ => .ok (c, false)
  | .yield => do
    let t ← c.sched.currentThread
    .ok (c.setPc t (afterYield (c.pc t)), true)
  | .delay timeout => do
    let t ← c.sched.currentThread
    let s ← c.sched.delayThread t timeout
    .ok ({ c with sched := s }, true)
  | .unblock a all => do
    let s ← c.sched.unblockLocalThreads a all
    .ok ({ c with sched := s }, false)
  | .store a v => .ok (c.setMem a v, false)
  | .lock => .ok ({ c with sched := { c.sched with lockDepth := c.sched.lockDepth + 1 } }, false)
  | .unlock => .ok ({ c with sched := { c.sched with lockDepth := c.sched.lockDepth - 1 } }, false)
  | .tick => do
    let s ← c.sched.wakeupDelayedThreads
    .ok ({ c with sched := s }, true)
  | .irqYield =>
    .ok ({ c with sched := { c.sched with yieldRequests := c.sched.yieldRequests - 1 } }, true)
  | .clock now => .ok ({ c with sched := { c.sched with now := now } }, false)

/-- The state in which an event calls `switch_task`, if it does. -/
def beforeSwitch (c : Cpu) (e : Event) : Option Cpu :=
  match c.act e with
  | .ok (d, true) => some d
  | _ => none

theorem beforeSwitch_eq_some {c d : Cpu} {e : Event} :
    c.beforeSwitch e = some d ↔ c.act e = .ok (d, true) := by
  unfold beforeSwitch
  split
  · rename_i h; rw [h]; simp
  · rename_i h
    constructor
    · intro he; cases he
    · exact fun he ↦ absurd he (h d)

/-- `switch_task` on the CPU. -/
def switchTask (c : Cpu) : Except Fault Cpu := do
  let s ← c.sched.switchTask
  .ok { c with sched := s }

/-- A whole event. -/
def step (c : Cpu) (e : Event) : Except Fault Cpu := do
  let (c, switches) ← c.act e
  if switches then c.switchTask else .ok c

/-- The state after an event: there is none if the event is not possible, or where the code has no
next state. -/
def next (c : Cpu) (e : Event) : Option Cpu :=
  if c.enabled e then (c.step e).toOption else none

/-- `next`, or nothing at all. -/
def nextOpt (c : Cpu) : Option Event → Option Cpu
  | none => some c
  | some e => c.next e

/-- The machine that starts with memory `mem`. -/
def machine (mem : Addr → UInt32) : Machine Cpu Event where
  init := init mem
  next := next

/-- Memory that holds zeros. -/
def zeroed : Addr → UInt32 := fun _ ↦ 0

theorem next_eq_some {c c' : Cpu} {e : Event} :
    c.next e = some c' ↔ c.enabled e = true ∧ c.step e = .ok c' := by
  unfold next
  cases hs : c.step e with
  | error f => split <;> simp_all [Except.toOption]
  | ok d => split <;> simp_all [Except.toOption]

theorem next_store (c : Cpu) (a : Addr) (v : UInt32) :
    c.next (.store a v) = some (c.setMem a v) := rfl

/-- A step is an action, and a `switch_task` where the action ends with one. -/
theorem step_eq_ok {c c' : Cpu} {e : Event} (h : c.step e = .ok c') :
    (c.act e = .ok (c', false)) ∨ ∃ d, c.act e = .ok (d, true) ∧ d.switchTask = .ok c' := by
  cases ha : c.act e with
  | error f => simp [step, ha, bind, Except.bind] at h
  | ok r =>
    obtain ⟨d, _ | _⟩ := r
    · simp only [step, ha, bind, Except.bind] at h
      exact Or.inl (by cases h; rfl)
    · simp only [step, ha, bind, Except.bind, if_true] at h
      exact Or.inr ⟨d, rfl, h⟩

end Cpu

end Chino
