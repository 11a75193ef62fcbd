import Chino.Sched.Unlocked

/-!
# Mutex, semaphore and auto-reset event

The three blocking primitives of `include/sdk/chino/os/processapi.h`.  Each has a word that threads
wait on (`held_`, `res_`, `signal_`) and a counter `waiters_` of the threads inside its
`waiters_guard`.  They share one shape:

* `lock`, `take`, `wait`: try; if that fails enter the guard, and then try again and
  `atomic_wait` on the word in turns, until a try succeeds or a wait times out;
* `unlock`, `give`, `notify_one`: change the word, read `waiters_`, and notify one waiter unless it
  is zero.

They differ in what a try does to the word, in what a release does to it, and in the value the
waiters wait on; `Object` collects the three members.

`System` is the CPU together with the place (`Spot`) where each thread is inside a primitive, and
`machine` runs it.  An event is one atomic load, store or read-modify-write of the current thread,
one section with interrupts disabled, or an event of the CPU that is not the business of the
primitives: an interrupt, a new thread, or a call of a thread that is in none of them.  Every event
is at most one event of the CPU (`next_cases`), so the runs of the scheduler under the primitives
are runs of `Cpu.machine`, without the scheduler lock.

`Stage.inside woken` records one thing that is not in the code: whether the try at hand is the one
after a wait in `blocked_threads_`.

## How a try is rendered

The three tries are different machines of atomic accesses: `try_lock` and `try_wait` are one
exchange each, `try_take` is a load and then compare-exchanges until one of them succeeds or the
count is zero.  `Attempt` has the places in between and `Outcome` what an access leads to, so a try
that is interrupted goes on where it was, with the value it has loaded before.

`Available` and `free` say what is common to them: how many tries could succeed on a word, one after
the other.  `free_of_success`, `free_of_failure`, `word_of_again` and `free_release_le` are all that
the later modules use of the three.  A counter has 32 bits, and `give` may wrap it around.
-/

set_option autoImplicit false

namespace Chino

open Function (update)

/-! ## The words -/

/-- A try of a primitive, between its atomic accesses. -/
inductive Attempt where
  /-- Before the first access. -/
  | first
  /-- `semaphore::try_take` has read `expected` and is about to exchange it. -/
  | exchange (expected : { res : UInt32 // res ≠ 0 })
deriving DecidableEq

/-- What one access of a try leads to. -/
inductive Outcome where
  | again (a : Attempt)
  | returned (success : Bool)
deriving DecidableEq

/-- `mutex::try_lock`, with the word after it. -/
def tryLock (held : UInt32) : UInt32 × Outcome :=
  if held = 0 then (1, .returned true) else (held, .returned false)

/-- `auto_reset_event::try_wait`. -/
def tryWait (signal : UInt32) : UInt32 × Outcome :=
  if signal = 1 then (0, .returned true) else (signal, .returned false)

/-- The condition of the loop of `semaphore::try_take`. -/
def tryTakeLoop (res : UInt32) : Outcome :=
  if h : res ≠ 0 then .again (.exchange ⟨res, h⟩) else .returned false

/-- One access of `semaphore::try_take`: the load, or a `compare_exchange_strong`, which reloads
`res` when it fails. -/
def tryTake : Attempt → UInt32 → UInt32 × Outcome
  | .first, res => (res, tryTakeLoop res)
  | .exchange expected, res =>
    if res = expected then (res - 1, .returned true) else (res, tryTakeLoop res)

/-- The store of `mutex::unlock`. -/
def unlock (_held : UInt32) : UInt32 := 0

/-- The store of `auto_reset_event::notify_one`. -/
def notifyOne (_signal : UInt32) : UInt32 := 1

/-- The `fetch_add` of `semaphore::give`. -/
def give (res : UInt32) : UInt32 := res + 1

/-- A primitive, with the argument of its constructor. -/
inductive Object where
  | mutex
  | autoResetEvent (signal : Bool)
  | semaphore (res : UInt32)
deriving DecidableEq

namespace Object

/-- The word after construction. -/
def initial : Object → UInt32
  | mutex => 0
  | autoResetEvent signal => if signal then 1 else 0
  | semaphore res => res

/-- The value waiters wait on. -/
def busy : Object → UInt32
  | mutex => 1
  | autoResetEvent _ => 0
  | semaphore _ => 0

/-- What an attempt on the word does, and how it ends. -/
def attempt : Object → Attempt → UInt32 → UInt32 × Outcome
  | mutex, _, w => tryLock w
  | autoResetEvent _, _, w => tryWait w
  | semaphore _, a, w => tryTake a w

/-- What giving the object back does to the word. -/
def release : Object → UInt32 → UInt32
  | mutex => unlock
  | autoResetEvent _ => notifyOne
  | semaphore _ => give

/-- A try can succeed. -/
def Available : Object → UInt32 → Prop
  | mutex, w => w = 0
  | autoResetEvent _, w => w = 1
  | semaphore _, w => 0 < w

instance (o : Object) (w : UInt32) : Decidable (o.Available w) := by
  cases o <;> unfold Available <;> infer_instance

/-- How many tries can succeed on the word. -/
def free : Object → UInt32 → ℕ
  | mutex, w => if w = 0 then 1 else 0
  | autoResetEvent _, w => if w = 1 then 1 else 0
  | semaphore _, w => w.toNat

variable {o : Object} {a a' : Attempt} {w w' : UInt32}

@[simp] theorem free_busy (o : Object) : o.free o.busy = 0 := by cases o <;> rfl

theorem available_iff_free : o.Available w ↔ 0 < o.free w := by
  cases o with
  | mutex => by_cases hw : w = 0 <;> simp [Available, free, hw]
  | autoResetEvent s => by_cases hw : w = 1 <;> simp [Available, free, hw]
  | semaphore r => exact UInt32.lt_iff_toNat_lt

/-- A successful try uses up one. -/
theorem free_of_success (h : o.attempt a w = (w', .returned true)) :
    o.free w = o.free w' + 1 := by
  cases o with
  | mutex =>
    by_cases hw : w = 0
    · obtain rfl : 1 = w' := by simpa [attempt, tryLock, hw] using h
      simp [free, hw]
    · simp [attempt, tryLock, hw] at h
  | autoResetEvent s =>
    by_cases hw : w = 1
    · obtain rfl : 0 = w' := by simpa [attempt, tryWait, hw] using h
      simp [free, hw]
    · simp [attempt, tryWait, hw] at h
  | semaphore r =>
    have hloop : ∀ v, tryTakeLoop v ≠ .returned true := fun v ↦ by
      unfold tryTakeLoop; split <;> simp
    cases a with
    | first => exact absurd (Prod.mk.inj h).2 (hloop w)
    | exchange e =>
      by_cases hw : w = e.1
      · obtain rfl : w - 1 = w' := by simpa [attempt, tryTake, hw] using h
        have h0 : w ≠ 0 := hw ▸ e.2
        have hpos : 0 < w.toNat := Nat.pos_of_ne_zero fun h ↦ h0 (UInt32.toNat.inj h)
        have hsub : (w - 1).toNat = w.toNat - 1 := by
          rw [UInt32.toNat_sub_of_le _ _ (by rw [UInt32.le_iff_toNat_le]; exact hpos)]
          rfl
        simp only [free, hsub]
        omega
      · simp only [attempt, tryTake, if_neg hw] at h
        exact absurd (Prod.mk.inj h).2 (hloop w)

/-- A try fails for want of one, and changes nothing. -/
theorem free_of_failure (h : o.attempt a w = (w', .returned false)) :
    w' = w ∧ o.free w = 0 := by
  cases o with
  | mutex =>
    by_cases hw : w = 0
    · simp [attempt, tryLock, hw] at h
    · obtain rfl : w = w' := by simpa [attempt, tryLock, hw] using h
      simp [free, hw]
  | autoResetEvent s =>
    by_cases hw : w = 1
    · simp [attempt, tryWait, hw] at h
    · obtain rfl : w = w' := by simpa [attempt, tryWait, hw] using h
      simp [free, hw]
  | semaphore r =>
    have hloop : ∀ v, tryTakeLoop v = .returned false → v = 0 := fun v ↦ by
      unfold tryTakeLoop; split
      · simp
      · rename_i hv; exact fun _ ↦ not_not.mp hv
    cases a with
    | first =>
      obtain ⟨rfl, hr⟩ := Prod.mk.inj h
      simp [free, hloop _ hr]
    | exchange e =>
      by_cases hw : w = e.1
      · simp [attempt, tryTake, hw] at h
      · simp only [attempt, tryTake, if_neg hw] at h
        obtain ⟨rfl, hr⟩ := Prod.mk.inj h
        simp [free, hloop _ hr]

/-- A try that goes on has changed nothing. -/
theorem word_of_again (h : o.attempt a w = (w', .again a')) : w' = w := by
  cases o with
  | mutex => by_cases hw : w = 0 <;> simp [attempt, tryLock, hw] at h
  | autoResetEvent s => by_cases hw : w = 1 <;> simp [attempt, tryWait, hw] at h
  | semaphore r =>
    cases a with
    | first => exact (Prod.mk.inj h).1.symm
    | exchange e =>
      by_cases hw : w = e.1
      · simp [attempt, tryTake, hw] at h
      · simp only [attempt, tryTake, if_neg hw] at h
        exact (Prod.mk.inj h).1.symm

/-- A release makes at most one more available. -/
theorem free_release_le (o : Object) (w : UInt32) : o.free (o.release w) ≤ o.free w + 1 := by
  cases o with
  | mutex => simp [free, release, unlock]
  | autoResetEvent s => simp [free, release, notifyOne]
  | semaphore r =>
    simp only [free, release, give, UInt32.toNat_add]
    exact Nat.mod_le _ _

end Object

/-! ## Threads inside the primitives -/

/-- Objects are numbered. -/
abbrev ObjectId := ℕ

/-- The address of the word of an object. -/
def word (o : ObjectId) : Addr := 2 * o

/-- The address of its `waiters_`. -/
def waiters (o : ObjectId) : Addr := 2 * o + 1

@[simp] theorem word_inj {o o' : ObjectId} : word o = word o' ↔ o = o' :=
  ⟨fun h ↦ Nat.eq_of_mul_eq_mul_left Nat.two_pos h, congrArg word⟩

@[simp] theorem waiters_inj {o o' : ObjectId} : waiters o = waiters o' ↔ o = o' :=
  ⟨fun h ↦ Nat.eq_of_mul_eq_mul_left Nat.two_pos (Nat.succ.inj h), congrArg waiters⟩

@[simp] theorem word_ne_waiters (o o' : ObjectId) : word o ≠ waiters o' := by
  show (2 * o : ℕ) ≠ 2 * o' + 1
  omega

/-- Which try of `lock`, `take` or `wait` this is. -/
inductive Stage where
  /-- The first one, outside the `waiters_guard`. -/
  | outside
  /-- One of the loop; `woken` if it follows a wait in `blocked_threads_`. -/
  | inside (woken : Bool)
deriving DecidableEq

/-- Where a thread is. -/
inductive Spot where
  /-- In no primitive; the last call returned this. -/
  | idle (returned : WaitResult)
  | trying (o : ObjectId) (timeout : Option Nanoseconds) (stage : Stage) (a : Attempt)
  /-- About to construct the `waiters_guard`. -/
  | entering (o : ObjectId) (timeout : Option Nanoseconds)
  /-- About to load the word in `atomic_wait`. -/
  | loading (o : ObjectId) (timeout : Option Nanoseconds)
  /-- About to call `block_current_thread`. -/
  | calling (o : ObjectId) (timeout : Option Nanoseconds)
  /-- In `block_current_thread`. -/
  | waiting (o : ObjectId) (timeout : Option Nanoseconds)
  /-- About to destroy the `waiters_guard` and return. -/
  | leaving (o : ObjectId) (r : WaitResult)
  /-- About to read `waiters_` after a release. -/
  | released (o : ObjectId)
  /-- About to `atomic_notify_one`. -/
  | notifying (o : ObjectId)
deriving DecidableEq

namespace Spot

/-- The thread is in none of the primitives. -/
def isIdle : Spot → Bool
  | idle _ => true
  | _ => false

theorem exists_idle {spot : Spot} (h : spot.isIdle = true) : ∃ r, spot = idle r := by
  cases spot with
  | idle r => exact ⟨r, rfl⟩
  | _ => cases h

/-- The thread is inside the `waiters_guard` of `o`. -/
def inGuard (o : ObjectId) : Spot → Bool
  | trying o' _ (.inside _) _ | loading o' _ | calling o' _ | waiting o' _ | leaving o' _ => o' = o
  | _ => false

/-- The thread is between its release of `o` and the end of the notification that follows it. -/
def notifies (o : ObjectId) : Spot → Bool
  | released o' | notifying o' => o' = o
  | _ => false

/-- The thread was notified while it waited for `o` and is about to try again. -/
def retries (o : ObjectId) : Spot → Bool
  | trying o' none (.inside true) _ => o' = o
  | _ => false

/-- After one access of a try. -/
def afterAttempt (o : ObjectId) (timeout : Option Nanoseconds) (stage : Stage) : Outcome → Spot
  | .again a => trying o timeout stage a
  | .returned true =>
    match stage with
    | .outside => idle .ok
    | .inside _ => leaving o .ok
  | .returned false =>
    match stage with
    | .outside => entering o timeout
    | .inside _ => loading o timeout

/-- After a step of `block_current_thread`, which may have been its last. -/
def afterWait (o : ObjectId) (timeout : Option Nanoseconds) (woken : Bool) (pc : Pc)
    (result : WaitResult) : Spot :=
  match pc with
  | .user =>
    match result with
    | .ok => trying o timeout (.inside woken) .first
    | .timeout => leaving o .timeout
  | _ => waiting o timeout

end Spot

/-! ## The machine -/

/-- The CPU, and where its threads are in the primitives. -/
structure System where
  cpu : Cpu
  spot : ThreadId → Spot

/-- What the threads and the interrupts do. -/
inductive Action where
  /-- What does not concern the primitives. -/
  | cpu (e : Event)
  /-- `lock`, `take` or `wait`. -/
  | acquire (o : ObjectId) (timeout : Option Nanoseconds)
  /-- `unlock`, `give` or `notify_one`, with its access to the word. -/
  | release (o : ObjectId)
  /-- The next step of the current thread in the primitive it is in. -/
  | advance
deriving DecidableEq

/-- The thread that an action creates. -/
def Action.newThread? : Action → Option ThreadId
  | cpu (.attach t _) => some t
  | _ => none

namespace System

/-- The memory in which the objects have been constructed. -/
def memory (objects : ObjectId → Object) (a : Addr) : UInt32 :=
  if a % 2 = 0 then (objects (a / 2)).initial else 0

/-- Every object is as it was constructed. -/
def init (objects : ObjectId → Object) : System where
  cpu := Cpu.init (memory objects)
  spot _ := .idle .ok

variable (objects : ObjectId → Object)

/-- The current thread is in no primitive. -/
def isFree (s : System) : Bool :=
  s.cpu.sched.current.any fun t ↦ (s.spot t).isIdle && s.cpu.pc t = .user

/-- The events of the CPU that do not concern the primitives. -/
def background (s : System) : Event → Bool
  | .attach .. | .startSchedule _ | .tick | .irqYield | .clock _ => true
  | .detach | .delay _ | .yield => s.cpu.sched.current.any fun t ↦ (s.spot t).isIdle
  | _ => false

/-- The next step of a thread in a primitive: the event of the CPU it consists of, if there is one,
and where the thread is afterwards. -/
def plan (s : System) (t : ThreadId) : Option (Option Event × (Cpu → Spot)) :=
  match s.spot t with
  | .idle _ => none
  | .trying o timeout stage a =>
    let r := (objects o).attempt a (s.cpu.mem (word o))
    some (some (.store (word o) r.1), fun _ ↦ .afterAttempt o timeout stage r.2)
  | .entering o timeout =>
    some (some (.store (waiters o) (s.cpu.mem (waiters o) + 1)),
      fun _ ↦ .trying o timeout (.inside false) .first)
  | .loading o timeout =>
    some (none, fun _ ↦ if s.cpu.mem (word o) ≠ (objects o).busy
      then .trying o timeout (.inside false) .first else .calling o timeout)
  | .calling o timeout =>
    some (some (.block (word o) (objects o).busy timeout), fun _ ↦ .waiting o timeout)
  | .waiting o timeout =>
    match s.cpu.pc t with
    | .entered _ =>
      some (some .blockSection, fun c ↦ .afterWait o timeout false (c.pc t) (c.result t))
    | .suspended _ => some (some .yield, fun _ ↦ .waiting o timeout)
    | .resumed _ =>
      some (some .blockCheck, fun c ↦ .afterWait o timeout timeout.isNone (c.pc t) (c.result t))
    | _ => none
  | .leaving o r => some (some (.store (waiters o) (s.cpu.mem (waiters o) - 1)), fun _ ↦ .idle r)
  | .released o =>
    some (none, fun _ ↦ if s.cpu.mem (waiters o) ≠ 0 then .notifying o else .idle .ok)
  | .notifying o => some (some (.unblock (word o) false), fun _ ↦ .idle .ok)

/-- The next state, or none where the action does not apply. -/
def next (s : System) : Action → Option System
  | .cpu e => if s.background e then (s.cpu.next e).map fun c ↦ { s with cpu := c } else none
  | .acquire o timeout => do
    let t ← s.cpu.sched.current
    if s.isFree then some { s with spot := update s.spot t (.trying o timeout .outside .first) }
    else none
  | .release o => do
    let t ← s.cpu.sched.current
    let c ← s.cpu.next (.store (word o) ((objects o).release (s.cpu.mem (word o))))
    if s.isFree then some { cpu := c, spot := update s.spot t (.released o) } else none
  | .advance => do
    let t ← s.cpu.sched.current
    let (e, spot) ← s.plan objects t
    let c ← s.cpu.nextOpt e
    some { cpu := c, spot := update s.spot t (spot c) }

/-- Runs of any threads with these objects. -/
def machine : Machine System Action where
  init := init objects
  next := next objects

/-! ## What a step can do -/

/-- What the current thread `t` can do in the primitives: the CPU and its own spot afterwards, one
constructor for each kind of step. -/
inductive Moves (s : System) (t : ThreadId) : Cpu → Spot → Prop
  | acquire {o : ObjectId} {timeout : Option Nanoseconds} (hspot : (s.spot t).isIdle = true)
      (hpc : s.cpu.pc t = .user) : Moves s t s.cpu (.trying o timeout .outside .first)
  | release {o : ObjectId} (hspot : (s.spot t).isIdle = true) (hpc : s.cpu.pc t = .user) :
      Moves s t (s.cpu.setMem (word o) ((objects o).release (s.cpu.mem (word o)))) (.released o)
  | attempt {o : ObjectId} {timeout : Option Nanoseconds} {stage : Stage} {a : Attempt}
      {w : UInt32} {r : Outcome} (hspot : s.spot t = .trying o timeout stage a)
      (hr : (objects o).attempt a (s.cpu.mem (word o)) = (w, r)) :
      Moves s t (s.cpu.setMem (word o) w)
        (.afterAttempt o timeout stage r)
  | enter {o : ObjectId} {timeout : Option Nanoseconds} (hspot : s.spot t = .entering o timeout) :
      Moves s t (s.cpu.setMem (waiters o) (s.cpu.mem (waiters o) + 1))
        (.trying o timeout (.inside false) .first)
  | load {o : ObjectId} {timeout : Option Nanoseconds} (hspot : s.spot t = .loading o timeout) :
      Moves s t s.cpu (if s.cpu.mem (word o) ≠ (objects o).busy
        then .trying o timeout (.inside false) .first else .calling o timeout)
  | call {o : ObjectId} {timeout : Option Nanoseconds} {c : Cpu}
      (hspot : s.spot t = .calling o timeout)
      (hc : s.cpu.next (.block (word o) (objects o).busy timeout) = some c) :
      Moves s t c (.waiting o timeout)
  | blockSection {o : ObjectId} {timeout : Option Nanoseconds} {call : BlockCall} {c : Cpu}
      (hspot : s.spot t = .waiting o timeout) (hpc : s.cpu.pc t = .entered call)
      (hc : s.cpu.next .blockSection = some c) :
      Moves s t c (.afterWait o timeout false (c.pc t) (c.result t))
  | yield {o : ObjectId} {timeout : Option Nanoseconds} {call : BlockCall} {c : Cpu}
      (hspot : s.spot t = .waiting o timeout) (hpc : s.cpu.pc t = .suspended call)
      (hc : s.cpu.next .yield = some c) : Moves s t c (.waiting o timeout)
  | blockCheck {o : ObjectId} {timeout : Option Nanoseconds} {call : BlockCall} {c : Cpu}
      (hspot : s.spot t = .waiting o timeout) (hpc : s.cpu.pc t = .resumed call)
      (hc : s.cpu.next .blockCheck = some c) :
      Moves s t c (.afterWait o timeout timeout.isNone (c.pc t) (c.result t))
  | leave {o : ObjectId} {r : WaitResult} (hspot : s.spot t = .leaving o r) :
      Moves s t (s.cpu.setMem (waiters o) (s.cpu.mem (waiters o) - 1))
        (.idle r)
  | read {o : ObjectId} (hspot : s.spot t = .released o) :
      Moves s t s.cpu (if s.cpu.mem (waiters o) ≠ 0 then .notifying o else .idle .ok)
  | notify {o : ObjectId} {c : Cpu} (hspot : s.spot t = .notifying o)
      (hc : s.cpu.next (.unblock (word o) false) = some c) : Moves s t c (.idle .ok)

variable {objects} {s s' : System} {a : Action}

/-- **A step is a background event or a move of the current thread.** -/
theorem next_cases (hn : next objects s a = some s') :
    (∃ e, a = .cpu e ∧ s.background e = true ∧ s.cpu.next e = some s'.cpu ∧ s'.spot = s.spot) ∨
    ∃ t spot, s.cpu.sched.current = some t ∧ (∀ e, a ≠ .cpu e) ∧
      s'.spot = update s.spot t spot ∧ s.Moves objects t s'.cpu spot := by
  have hfree : ∀ {t}, s.cpu.sched.current = some t → s.isFree = true →
      (s.spot t).isIdle = true ∧ s.cpu.pc t = .user := fun hc hf ↦ by
    simpa [isFree, hc] using hf
  cases a with
  | cpu e =>
    simp only [next] at hn
    split at hn
    · rename_i hb
      obtain ⟨c, hc, rfl⟩ := Option.map_eq_some_iff.mp hn
      exact Or.inl ⟨e, rfl, hb, hc, rfl⟩
    · cases hn
  | acquire o timeout =>
    obtain ⟨t, hc, hn⟩ := Option.bind_eq_some_iff.mp hn
    split at hn
    · rename_i hf
      obtain ⟨h1, h2⟩ := hfree hc hf
      cases hn
      exact Or.inr ⟨t, _, hc, by simp, rfl, .acquire h1 h2⟩
    · cases hn
  | release o =>
    obtain ⟨t, hc, hn⟩ := Option.bind_eq_some_iff.mp hn
    obtain ⟨c, hnext, hn⟩ := Option.bind_eq_some_iff.mp hn
    split at hn
    · rename_i hf
      obtain ⟨h1, h2⟩ := hfree hc hf
      cases hn
      rw [Cpu.next_store] at hnext
      cases hnext
      exact Or.inr ⟨t, _, hc, by simp, rfl, .release h1 h2⟩
    · cases hn
  | advance =>
    obtain ⟨t, hc, hn⟩ := Option.bind_eq_some_iff.mp hn
    obtain ⟨⟨e, spot⟩, hplan, hn⟩ := Option.bind_eq_some_iff.mp hn
    obtain ⟨c, hnext, hn⟩ := Option.bind_eq_some_iff.mp hn
    cases hn
    refine Or.inr ⟨t, _, hc, by simp, rfl, ?_⟩
    unfold plan at hplan
    split at hplan
    · cases hplan
    · rename_i hspot; cases hplan; cases hnext; exact .attempt hspot rfl
    · rename_i hspot; cases hplan; cases hnext; exact .enter hspot
    · rename_i hspot; cases hplan; cases hnext; exact .load hspot
    · rename_i hspot; cases hplan; exact .call hspot hnext
    · rename_i hspot
      split at hplan
      · rename_i hpc; cases hplan; exact .blockSection hspot hpc hnext
      · rename_i hpc; cases hplan; exact .yield hspot hpc hnext
      · rename_i hpc; cases hplan; exact .blockCheck hspot hpc hnext
      · cases hplan
    · rename_i hspot; cases hplan; cases hnext; exact .leave hspot
    · rename_i hspot; cases hplan; cases hnext; exact .read hspot
    · rename_i hspot; cases hplan; exact .notify hspot hnext

end System

end Chino
