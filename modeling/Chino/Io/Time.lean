import Chino.Sched.Delay

/-!
# Sleeping and waiting with a timeout

`nanosleep` of `src/os/kernel/io/time.cpp` turns a `timespec` into a 64-bit count of nanoseconds and
calls `delay_current_thread`; `atomic_wait` turns its milliseconds into nanoseconds and calls
`block_current_thread`.  `Timed` is the CPU with these two as the only calls that give a time.

Three of its components are not in the code: the exact time before which the `nanosleep` call of a
thread must not return, the same for its `block_current_thread` call, and the log of the returns in
question, each with the time at which it must not come earlier and the time at which it came.

`no_early_return` says that no return of the log is early, in the runs whose deadlines fit into the
64 bits and in which nobody sleeps while it holds the scheduler lock.

## Where a time may go wrong

* **The conversion.**  Seconds and milliseconds are multiplied up to nanoseconds in 64 bits.  `mul`
  and `ofMilliseconds` wrap around as the code does, and `exact` is the time that was meant.
* **The sum.**  The clock is added to it, in 64 bits again.
* **The sleep.**  The thread is on `delayed_threads_` with the sum as its wakeup time, and the tick
  takes it off.

`Fits` is the condition on a call that the first two are exact, and that the caller does not hold
the scheduler lock.  `AsleepUntil` is the third: a thread that sleeps until `w` is on the list with
`w`, and `AsleepUntil.next` says that whatever happens it stays there until the clock has reached
`w`.  `Punctual` follows each call from its deadline to its return.

`nanosleep_wraps` is a call that does not fit: its sum is smaller than the clock, and the sleeper is
awake at the next tick.
-/

set_option autoImplicit false

namespace Chino

open Function (update)
open Scheduler

/-! ## Counts of nanoseconds -/

namespace Nanoseconds

/-- Multiplication of two 64-bit signed counts. -/
def mul (a b : ℤ) : Nanoseconds := Int.bmod (a * b) (2 ^ 64)

/-- The conversion of `std::chrono::milliseconds`. -/
def ofMilliseconds (ms : ℤ) : Nanoseconds := mul ms 1000000

theorem add_eq {a b : ℤ} (h : 0 ≤ a + b) (h' : a + b < 2 ^ 63) : add a b = a + b :=
  Int.bmod_eq_of_le (by omega) (by omega)

theorem mul_eq {a b : ℤ} (h : 0 ≤ a * b) (h' : a * b < 2 ^ 63) : mul a b = a * b :=
  Int.bmod_eq_of_le (by omega) (by omega)

/-- A deadline that is given in milliseconds. -/
theorem add_ofMilliseconds {now ms : ℤ} (h0 : 0 ≤ now) (hms : 0 ≤ ms)
    (hfit : now + ms * 1000000 < 2 ^ 63) : add now (ofMilliseconds ms) = now + ms * 1000000 := by
  rw [ofMilliseconds, mul_eq (by omega) (by omega), add_eq (by omega) hfit]

end Nanoseconds

/-- `struct timespec`. -/
structure TimeSpec where
  sec : ℤ
  nsec : ℤ
deriving DecidableEq

namespace TimeSpec

/-- The argument of `delay_current_thread` in `nanosleep`. -/
def nanoseconds (rqtp : TimeSpec) : Nanoseconds :=
  (Nanoseconds.mul rqtp.sec 1000000000).add rqtp.nsec

/-- The time it stands for. -/
def exact (rqtp : TimeSpec) : ℤ := rqtp.sec * 1000000000 + rqtp.nsec

/-- The fields are in their ranges. -/
def Valid (rqtp : TimeSpec) : Prop :=
  0 ≤ rqtp.sec ∧ rqtp.sec < 2 ^ 63 ∧ 0 ≤ rqtp.nsec ∧ rqtp.nsec < 1000000000

instance (rqtp : TimeSpec) : Decidable rqtp.Valid := inferInstanceAs (Decidable (_ ∧ _))

/-- A deadline that is given as a `timespec`. -/
theorem add_nanoseconds {rqtp : TimeSpec} {now : ℤ} (h0 : 0 ≤ now) (h : rqtp.Valid)
    (hfit : now + rqtp.exact < 2 ^ 63) :
    Nanoseconds.add now rqtp.nanoseconds = now + rqtp.exact := by
  obtain ⟨h₁, -, h₂, -⟩ := h
  rw [exact] at hfit
  rw [nanoseconds, Nanoseconds.mul_eq (by omega) (by omega),
    Nanoseconds.add_eq (a := _ * _) (by omega) (by omega), Nanoseconds.add_eq (by omega) hfit,
    exact]

end TimeSpec

/-! ## What a step of the CPU does to a sleeper -/

namespace Cpu

variable {mem : Addr → UInt32} {c c' d : Cpu} {L L' : Queues} {e : Event} {b : Bool}
  {t : ThreadId}

/-- The thread sleeps until `w`. -/
def AsleepUntil (c : Cpu) (t : ThreadId) (w : Nanoseconds) : Prop :=
  t ∈ c.sched.lists.toList .delayed ∧ c.sched.current ≠ some t ∧ c.sched.wakeupTime t = w

theorem Acts.now_le (ha : c.Acts L e d b L') : c.sched.now ≤ d.sched.now := by
  cases ha with
  | clock hnow => exact hnow
  | blockCheck => rw [blockCheck_sched]
  | _ => exact le_refl _

/-- A sleeper sleeps on until it is due. -/
theorem Acts.asleep (ha : c.Acts L e d b L') (h : c.Inv L) (hc : c.sched.current ≠ some t)
    (ht : t ∈ L .delayed) : c.sched.wakeupTime t ≤ c.sched.now ∨
      (t ∈ L' .delayed ∧ d.sched.current ≠ some t ∧
        d.sched.wakeupTime t = c.sched.wakeupTime t) := by
  have hr := h.linked.rep
  have hne : ∀ {u}, c.sched.current = some u → t ≠ u := by
    rintro u hu rfl
    exact hc hu
  cases ha with
  | @attach u p h' hu hcur =>
    have htu : t ≠ u := by
      rintro rfl
      exact h.linked.free hu _ ht
    refine Or.inr ⟨by rwa [Function.update_of_ne (by simp)], hc, ?_⟩
    simp [wakeupTime, Scheduler.attached, construct, modifyThread, htu]
  | startSchedule hs =>
    have hready := h.boot hs t (h.linked.attached ht)
    have hdelayed := listOf_eq_delayed.mp (h.linked.listOf_eq ht)
    exact absurd (hready.symm.trans hdelayed) (by simp)
  | detach hu hpc hm =>
    refine Or.inr ⟨(mem_without hr hm).mpr ⟨hne hu, ht⟩, hc, ?_⟩
    simp [wakeupTime, detached, hne hu]
  | blockUntimed hu hpc hmem htime hm =>
    refine Or.inr ⟨?_, hc, by simp [wakeupTime, Scheduler.blocked, hne hu]⟩
    rw [Function.update_of_ne (by simp)]
    exact (mem_without hr hm).mpr ⟨hne hu, ht⟩
  | blockTimed hu hpc hmem htime hm =>
    refine Or.inr ⟨?_, hc, by simp [wakeupTime, asleep_waiting_thread, hne hu]⟩
    rw [sleepQueues, Function.update_self, mem_insertDelayed]
    exact Or.inr ((mem_without hr hm).mpr ⟨hne hu, ht⟩)
  | delay hu hpc hm =>
    refine Or.inr ⟨?_, hc, by simp [wakeupTime, Scheduler.asleep, hne hu]⟩
    rw [sleepQueues, Function.update_self, mem_insertDelayed]
    exact Or.inr ((mem_without hr hm).mpr ⟨hne hu, ht⟩)
  | unblock =>
    refine Or.inr ⟨by simpa [wakeQueues] using ht, hc, ?_⟩
    rw [wakeupTime, unblocked_thread]
    split <;> rfl
  | tick =>
    by_cases hdue : t ∈ c.sched.due (L .delayed)
    · exact Or.inl (by simpa [wakeupTime] using List.mem_takeWhile_imp hdue)
    · refine Or.inr ⟨by simpa [wakeQueues, hdue] using ht, hc, ?_⟩
      rw [wakeupTime, woken_thread, if_neg hdue]
      rfl
  | blockCheck => exact Or.inr ⟨ht, by rwa [blockCheck_sched], by rw [blockCheck_sched]⟩
  | _ => exact Or.inr ⟨ht, hc, rfl⟩

/-- No switch changes a clock time. -/
theorem switchTask_times (hs : d.switchTask = .ok c') :
    c'.sched.now = d.sched.now ∧ c'.pc = d.pc ∧
      ∀ u, c'.sched.wakeupTime u = d.sched.wakeupTime u := by
  obtain ⟨s, hsw, rfl⟩ := switchTask_eq_ok hs
  rcases switchTask_cases hsw with rfl | ⟨cnt, next, -, -, -, -, rfl⟩
  · exact ⟨rfl, rfl, fun _ ↦ rfl⟩
  · refine ⟨rfl, rfl, fun u ↦ ?_⟩
    rw [wakeupTime, switched_thread]
    split
    · rfl
    · split <;> rfl

/-- No switch selects a sleeper. -/
theorem switchTask_sleeper (h : d.Inv L) (ht : t ∈ L .delayed) (hs : d.switchTask = .ok c')
    (hcase : d.sched.current ≠ some t ∨ d.sched.lockDepth = 0) : c'.sched.current ≠ some t := by
  obtain ⟨s, hsw, rfl⟩ := switchTask_eq_ok hs
  by_cases hlock : d.sched.lockDepth = 0
  · obtain ⟨cnt, next, hc, hsel⟩ := selectNextThread_of_switchTask hlock hsw
    obtain ⟨s', hsw', hcur, -⟩ := switchTask_selected hlock hc hsel
    cases hsw.symm.trans hsw'
    obtain ⟨p, hp⟩ := h.linked.selectNextThread_mem hc hsel
    rw [hcur]
    rintro ⟨⟩
    cases h.linked.rep.disjoint _ _ _ ht hp
  · rw [switchTask_locked hlock] at hsw
    cases hsw
    exact hcase.resolve_right hlock

theorem now_le (h : (machine mem).Reachable c) (hn : c.next e = some c') :
    c.sched.now ≤ c'.sched.now := by
  obtain ⟨L, hI⟩ := inv_of_reachable h
  obtain ⟨d, b, L', ha, -, -, ⟨-, rfl⟩ | ⟨-, -, hsw⟩⟩ := hI.next_cases hn
  · exact ha.now_le
  · exact (switchTask_times hsw).1 ▸ ha.now_le

/-- **A step wakes a sleeper only when it is due.** -/
theorem AsleepUntil.next {w : Nanoseconds} (ht : c.AsleepUntil t w) (h : (machine mem).Reachable c)
    (hn : c.next e = some c') : w ≤ c'.sched.now ∨ c'.AsleepUntil t w := by
  obtain ⟨L, hI⟩ := inv_of_reachable h
  obtain ⟨hm, hc, rfl⟩ := ht
  rw [hI.linked.rep.toList_eq] at hm
  obtain ⟨d, b, L', ha, hId, hI', hcase⟩ := hI.next_cases hn
  rcases ha.asleep hI hc hm with hdue | ⟨hm', hc', hw⟩
  · exact Or.inl (hdue.trans (now_le h hn))
  · refine Or.inr ?_
    rw [AsleepUntil, hI'.linked.rep.toList_eq]
    rcases hcase with ⟨-, rfl⟩ | ⟨-, -, hsw⟩
    · exact ⟨hm', hc', hw⟩
    · exact ⟨hm', switchTask_sleeper hId hm' hsw (Or.inl hc'),
        ((switchTask_times hsw).2.2 t).trans hw⟩

/-- `delay_current_thread` puts the current thread to sleep, unless the scheduler is locked. -/
theorem asleepUntil_delay {timeout : Nanoseconds} (h : (machine mem).Reachable c)
    (hc : c.sched.current = some t) (hlock : c.sched.lockDepth = 0)
    (hn : c.next (.delay timeout) = some c') : c'.AsleepUntil t (c.sched.now.add timeout) := by
  obtain ⟨L, hI⟩ := inv_of_reachable h
  obtain ⟨d, b, L', ha, hId, hI', hcase⟩ := hI.next_cases hn
  cases ha with
  | @delay u _ l h' hu hpc hm =>
    cases hc.symm.trans hu
    rcases hcase with ⟨hno, -⟩ | ⟨-, -, hsw⟩
    · cases hno
    have hmem : t ∈ c.sched.sleepQueues L l t (c.sched.now.add timeout) .delayed := by
      rw [sleepQueues, Function.update_self, mem_insertDelayed]
      exact Or.inl rfl
    refine ⟨?_, switchTask_sleeper hId hmem hsw (Or.inr hlock), ?_⟩
    · rwa [hI'.linked.rep.toList_eq]
    · rw [(switchTask_times hsw).2.2 t]
      simp [wakeupTime, Scheduler.asleep, sleepThread]

/-- A thread that is in a call has been in it before, or has just begun it. -/
theorem next_call? {call : BlockCall} (h : (machine mem).Reachable c) (hn : c.next e = some c')
    (hcall : (c'.pc t).call? = some call) : (c.pc t).call? = some call ∨
      (c.sched.current = some t ∧
        e = .block call.waitAddress call.old call.timeout ∧ call.lastTime = c.sched.now) := by
  obtain ⟨L, hI⟩ := inv_of_reachable h
  obtain ⟨d, b, L', ha, -, -, hcase⟩ := hI.next_cases hn
  have hd : (d.pc t).call? = some call := by
    rcases hcase with ⟨-, rfl⟩ | ⟨-, -, hsw⟩
    · exact hcall
    · rwa [(switchTask_times hsw).2.1] at hcall
  rcases ha.call? hd with hold | ⟨hc, rfl⟩
  · exact Or.inl hold
  · cases ha with
    | @block u _ _ _ hu hpc =>
      cases hc.symm.trans hu
      refine Or.inr ⟨hc, rfl, ?_⟩
      rw [setPc_pc, Function.update_self] at hd
      exact (congrArg BlockCall.lastTime (Option.some.inj hd)).symm

/-- What `block_current_thread` returns `timeout` for. -/
theorem timeout_of_blockCheck (h : (machine mem).Reachable c) (hc : c.sched.current = some t)
    (hn : c.next .blockCheck = some c') (hpc : c'.pc t = .user) (hr : c'.result t = .timeout) :
    ∃ call timeout, (c.pc t).call? = some call ∧ call.timeout = some timeout ∧
      call.lastTime.add timeout ≤ c'.sched.now := by
  obtain ⟨L, hI⟩ := inv_of_reachable h
  obtain ⟨d, b, L', ha, -, -, hcase⟩ := hI.next_cases hn
  cases ha with
  | @blockCheck u call hu hpc' =>
    cases hc.symm.trans hu
    rcases hcase with ⟨-, rfl⟩ | ⟨hno, -⟩
    swap
    · cases hno
    rw [blockCheck_sched]
    rw [blockCheck] at hpc hr
    split at hr
    · simp [returnFrom] at hr
    · rename_i hmem
      rw [if_neg hmem] at hpc
      split at hr
      · rename_i htime
        cases htimeout : call.timeout with
        | none => simp [htimeout] at htime
        | some timeout => exact ⟨call, timeout, by rw [hpc']; rfl, htimeout, by
            simpa [htimeout] using htime⟩
      · rename_i htime
        rw [if_neg htime, setPc_pc, Function.update_self] at hpc
        cases hpc

end Cpu

/-! ## The calls -/

/-- A return of `nanosleep`, or of `block_current_thread` with `timeout`. -/
structure Return where
  /-- The start of the call plus the time it was given. -/
  deadline : ℤ
  clock : Nanoseconds
deriving DecidableEq

/-- The CPU, the deadlines of the calls its threads are in, and the returns so far. -/
structure Timed where
  cpu : Cpu
  /-- The deadline of the `nanosleep` call a thread is in. -/
  sleep : ThreadId → Option ℤ
  /-- The deadline of the last `block_current_thread` call of a thread that has a timeout. -/
  block : ThreadId → ℤ
  returns : List Return

/-- What the threads and the clock do. -/
inductive TimedEvent where
  | run (e : Event)
  | nanosleep (rqtp : TimeSpec)
  /-- `nanosleep` returns. -/
  | awake
  /-- `atomic_wait` with a timeout calls `block_current_thread`. -/
  | atomicWait (waitAddress : Addr) (old : UInt32) (ms : ℤ)
deriving DecidableEq

/-- The event is a step of the current thread that is not possible inside `nanosleep`. -/
def Event.isOwn : Event → Bool
  | .detach | .block .. | .blockSection | .blockCheck | .yield | .delay _ | .lock | .unlock => true
  | _ => false

/-- The event is a call that is given a time. -/
def Event.isTimed : Event → Bool
  | .delay _ => true
  | .block _ _ timeout => timeout.isSome
  | _ => false

namespace Timed

variable {mem : Addr → UInt32} {s s' : Timed} {e : TimedEvent} {t : ThreadId}

/-- Before the first thread. -/
def init (mem : Addr → UInt32) : Timed where
  cpu := Cpu.init mem
  sleep _ := none
  block _ := 0
  returns := []

/-- The deadline of the `nanosleep` call the current thread is in. -/
def currentSleep (s : Timed) : Option ℤ := s.cpu.sched.current.bind s.sleep

/-- The entry of the current thread is set. -/
def setCurrent {α : Type} (s : Timed) (f : ThreadId → α) (x : α) : ThreadId → α :=
  match s.cpu.sched.current with
  | none => f
  | some t => update f t x

/-- The current thread has returned from `block_current_thread` with `timeout`, in `c`. -/
def timedOut (s : Timed) (c : Cpu) : Option Return :=
  match s.cpu.sched.current with
  | none => none
  | some t => if c.pc t = .user ∧ c.result t = .timeout then some ⟨s.block t, c.sched.now⟩ else none

theorem timedOut_eq_some {c : Cpu} {r : Return} : s.timedOut c = some r ↔
    ∃ t, s.cpu.sched.current = some t ∧ c.pc t = .user ∧ c.result t = .timeout ∧
      r = ⟨s.block t, c.sched.now⟩ := by
  unfold timedOut
  cases hc : s.cpu.sched.current with
  | none => simp
  | some t =>
    dsimp only
    split
    · rename_i h
      simp [h, eq_comm]
    · rename_i h
      simp only [reduceCtorEq, false_iff]
      rintro ⟨u, hu, h₁, h₂, -⟩
      cases hu
      exact h ⟨h₁, h₂⟩

/-- An event of the scheduler, which may end a wait with a timeout. -/
def afterRun (s : Timed) (e : Event) (c : Cpu) : Timed :=
  { s with
    cpu := c
    returns := if e = .blockCheck then s.returns ++ (s.timedOut c).toList else s.returns }

/-- The current thread sleeps. -/
def afterNanosleep (s : Timed) (rqtp : TimeSpec) (c : Cpu) : Timed :=
  { s with cpu := c, sleep := s.setCurrent s.sleep (some (s.cpu.sched.now + rqtp.exact)) }

/-- The current thread waits, with its timeout. -/
def afterAtomicWait (s : Timed) (ms : ℤ) (c : Cpu) : Timed :=
  { s with cpu := c, block := s.setCurrent s.block (s.cpu.sched.now + ms * 1000000) }

/-- The next state, or none where the event does not apply. -/
def next (s : Timed) : TimedEvent → Option Timed
  | .run e =>
    if e.isTimed ∨ e.isOwn ∧ s.currentSleep.isSome then none
    else (s.cpu.next e).map (s.afterRun e)
  | .nanosleep rqtp =>
    if rqtp.Valid ∧ s.currentSleep = none then
      (s.cpu.next (.delay rqtp.nanoseconds)).map (s.afterNanosleep rqtp)
    else none
  | .awake => s.currentSleep.map fun deadline ↦
      { s with
        sleep := s.setCurrent s.sleep none
        returns := s.returns ++ [⟨deadline, s.cpu.sched.now⟩] }
  | .atomicWait a old ms =>
    if 0 ≤ ms ∧ ms < 2 ^ 63 ∧ s.currentSleep = none then
      (s.cpu.next (.block a old (some (Nanoseconds.ofMilliseconds ms)))).map (s.afterAtomicWait ms)
    else none

/-- Runs that start with the memory `mem`. -/
def machine (mem : Addr → UInt32) : Machine Timed TimedEvent where
  init := init mem
  next := next

/-- The deadline of the call is a 64-bit time, and nobody sleeps while it holds the scheduler
lock. -/
def Fits (s : Timed) : TimedEvent → Prop
  | .nanosleep rqtp => s.cpu.sched.now + rqtp.exact < 2 ^ 63 ∧
      (s.cpu.sched.lockDepth = 0 ∨ rqtp.exact = 0)
  | .atomicWait _ _ ms => s.cpu.sched.now + ms * 1000000 < 2 ^ 63
  | _ => True

instance (s : Timed) (e : TimedEvent) : Decidable (s.Fits e) := by
  cases e <;> unfold Fits <;> infer_instance

/-! ## The invariant -/

/-- Every call returns after its deadline, and has done so. -/
structure Punctual (mem : Addr → UInt32) (s : Timed) : Prop where
  reachable : (Cpu.machine mem).Reachable s.cpu
  now_nonneg : 0 ≤ s.cpu.sched.now
  /-- A thread that is in `nanosleep` sleeps, or it is past its deadline. -/
  sleep : ∀ t deadline, s.sleep t = some deadline →
    deadline ≤ s.cpu.sched.now ∨ s.cpu.AsleepUntil t deadline
  /-- The deadline the code computes is the exact one. -/
  block : ∀ t call timeout, (s.cpu.pc t).call? = some call → call.timeout = some timeout →
    call.lastTime.add timeout = s.block t
  returns : ∀ r ∈ s.returns, r.deadline ≤ r.clock

/-- What a step of the CPU keeps. -/
theorem Punctual.cpu (h : Punctual mem s) {e : Event} {c : Cpu} (hn : s.cpu.next e = some c) :
    (Cpu.machine mem).Reachable c ∧ 0 ≤ c.sched.now ∧
      ∀ t deadline, s.sleep t = some deadline →
        deadline ≤ c.sched.now ∨ c.AsleepUntil t deadline := by
  have hle := Cpu.now_le h.reachable hn
  refine ⟨h.reachable.step hn, h.now_nonneg.trans hle, fun t deadline ht ↦ ?_⟩
  rcases h.sleep t deadline ht with hd | hd
  · exact Or.inl (hd.trans hle)
  · exact hd.next h.reachable hn

theorem Punctual.run (h : Punctual mem s) {e : Event} {c : Cpu} (he : e.isTimed = false)
    (hn : s.cpu.next e = some c) : Punctual mem (s.afterRun e c) := by
  obtain ⟨hr, hnow, hsleep⟩ := h.cpu hn
  refine ⟨hr, hnow, hsleep, fun t call timeout hcall htime ↦ ?_, fun r hr ↦ ?_⟩
  · rcases Cpu.next_call? h.reachable hn hcall with hold | ⟨-, rfl, -⟩
    · exact h.block t call timeout hold htime
    · simp [Event.isTimed, htime] at he
  · rw [afterRun] at hr
    dsimp only at hr
    by_cases hcheck : e = .blockCheck
    swap
    · rw [if_neg hcheck] at hr
      exact h.returns r hr
    subst hcheck
    rw [if_pos rfl] at hr
    rcases List.mem_append.mp hr with hr | hr
    · exact h.returns r hr
    -- the new return is that of the current thread
    obtain ⟨t, ht, hpc, hout, rfl⟩ := timedOut_eq_some.mp (Option.mem_toList.mp hr)
    obtain ⟨call, timeout, hcall, htime, hle⟩ :=
      Cpu.timeout_of_blockCheck h.reachable ht hn hpc hout
    exact h.block t call timeout hcall htime ▸ hle

theorem Punctual.nanosleep (h : Punctual mem s) {rqtp : TimeSpec} {c : Cpu} (hv : rqtp.Valid)
    (hfit : s.Fits (.nanosleep rqtp)) (hn : s.cpu.next (.delay rqtp.nanoseconds) = some c) :
    Punctual mem (s.afterNanosleep rqtp c) := by
  obtain ⟨hr, hnow, hsleep⟩ := h.cpu hn
  obtain ⟨hfit, hlock⟩ := hfit
  obtain ⟨u, hu, -⟩ := Cpu.currentPc_eq
    (by simpa [Cpu.enabled] using (Cpu.next_eq_some.mp hn).1 : s.cpu.currentPc = some .user)
  refine ⟨hr, hnow, fun t deadline ht ↦ ?_, fun t call timeout hcall htime ↦ ?_, h.returns⟩
  · rw [afterNanosleep, setCurrent, hu] at ht
    dsimp only at ht
    by_cases htu : t = u
    · subst htu
      rw [Function.update_self] at ht
      cases ht
      rcases hlock with hlock | hzero
      · have hasleep := Cpu.asleepUntil_delay h.reachable hu hlock hn
        rw [TimeSpec.add_nanoseconds h.now_nonneg hv hfit] at hasleep
        exact Or.inr hasleep
      · rw [hzero, add_zero]
        exact Or.inl (Cpu.now_le h.reachable hn)
    · rw [Function.update_of_ne htu] at ht
      exact hsleep t deadline ht
  · rcases Cpu.next_call? h.reachable hn hcall with hold | ⟨-, hno, -⟩
    · exact h.block t call timeout hold htime
    · cases hno

theorem Punctual.awake (h : Punctual mem s) {deadline : ℤ} (hd : s.currentSleep = some deadline) :
    Punctual mem { s with
      sleep := s.setCurrent s.sleep none
      returns := s.returns ++ [⟨deadline, s.cpu.sched.now⟩] } := by
  obtain ⟨t, hc, ht⟩ := Option.bind_eq_some_iff.mp hd
  refine ⟨h.reachable, h.now_nonneg, fun u due hu ↦ ?_, h.block, fun r hr ↦ ?_⟩
  · rw [setCurrent, hc] at hu
    dsimp only at hu
    by_cases hut : u = t
    · rw [hut, Function.update_self] at hu
      cases hu
    · rw [Function.update_of_ne hut] at hu
      exact h.sleep u due hu
  · rcases List.mem_append.mp hr with hr | hr
    · exact h.returns r hr
    · rw [List.mem_singleton] at hr
      subst hr
      -- the current thread does not sleep
      exact (h.sleep t deadline ht).resolve_right fun hasleep ↦ hasleep.2.1 hc

theorem Punctual.atomicWait (h : Punctual mem s) {a : Addr} {old : UInt32} {ms : ℤ} {c : Cpu}
    (hms : 0 ≤ ms) (hfit : s.Fits (.atomicWait a old ms))
    (hn : s.cpu.next (.block a old (some (Nanoseconds.ofMilliseconds ms))) = some c) :
    Punctual mem (s.afterAtomicWait ms c) := by
  obtain ⟨hr, hnow, hsleep⟩ := h.cpu hn
  obtain ⟨u, hu, hpc⟩ := Cpu.currentPc_eq
    (by simpa [Cpu.enabled] using (Cpu.next_eq_some.mp hn).1 : s.cpu.currentPc = some .user)
  have hblock : (s.afterAtomicWait ms c).block
      = update s.block u (s.cpu.sched.now + ms * 1000000) := by
    rw [afterAtomicWait, setCurrent, hu]
  refine ⟨hr, hnow, hsleep, fun t call timeout hcall htime ↦ ?_, h.returns⟩
  rw [hblock]
  rcases Cpu.next_call? h.reachable hn hcall with hold | ⟨hc, he, hlast⟩
  · have htu : t ≠ u := by
      rintro rfl
      rw [hpc] at hold
      cases hold
    rw [Function.update_of_ne htu]
    exact h.block t call timeout hold htime
  · cases hc.symm.trans hu
    injection he with _ _ he
    cases htime.symm.trans he.symm
    rw [Function.update_self, hlast]
    exact Nanoseconds.add_ofMilliseconds h.now_nonneg hms hfit

theorem punctual_init : Punctual mem (init mem) where
  reachable := .init
  now_nonneg := le_refl _
  sleep t deadline h := by cases h
  block t call timeout h := by cases h
  returns r h := by cases h

theorem Punctual.next (h : Punctual mem s) (hfit : s.Fits e) (hn : s.next e = some s') :
    Punctual mem s' := by
  cases e with
  | run e =>
    rw [Timed.next] at hn
    split at hn
    · cases hn
    rename_i hno
    obtain ⟨c, hc, rfl⟩ := Option.map_eq_some_iff.mp hn
    exact h.run (by simpa using fun ht ↦ hno (Or.inl ht)) hc
  | nanosleep rqtp =>
    rw [Timed.next] at hn
    split at hn
    swap
    · cases hn
    rename_i hv
    obtain ⟨c, hc, rfl⟩ := Option.map_eq_some_iff.mp hn
    exact h.nanosleep hv.1 hfit hc
  | awake =>
    obtain ⟨deadline, hd, rfl⟩ := Option.map_eq_some_iff.mp hn
    exact h.awake hd
  | atomicWait a old ms =>
    rw [Timed.next] at hn
    split at hn
    swap
    · cases hn
    rename_i hms
    obtain ⟨c, hc, rfl⟩ := Option.map_eq_some_iff.mp hn
    exact h.atomicWait hms.1 hfit hc

/-- **No sleep ends early**, in the runs whose calls fit. -/
theorem no_early_return (h : (machine mem).ReachableWhile Fits s) :
    ∀ r ∈ s.returns, r.deadline ≤ r.clock :=
  (h.invariant (I := Punctual mem) punctual_init
    fun _ _ _ _ hp hfit hn ↦ hp.next hfit hn).returns

/-- One thread sleeps for five nanoseconds, and another one waits in vain for a millisecond. -/
theorem no_early_return_two :
    let s := (machine Cpu.zeroed).afterWhile Fits [.run (.attach 0 .idle), .run (.attach 1 .normal),
      .run (.attach 2 .normal), .run (.startSchedule 1), .nanosleep ⟨0, 5⟩, .atomicWait 100 0 1,
      .run .blockSection, .run .yield, .run (.clock 1000000), .run .tick, .awake, .run .yield,
      .run .blockCheck]
    s.returns = [⟨5, 1000000⟩, ⟨1000000, 1000000⟩] ∧ ∀ r ∈ s.returns, r.deadline ≤ r.clock :=
  ⟨by decide +kernel,
    no_early_return (Machine.reachableWhile_afterWhile (M := machine Cpu.zeroed) _)⟩

/-- A time of `2^64` nanoseconds is none at all: the sleeper is awake at the next tick. -/
theorem nanosleep_wraps :
    let s := (machine Cpu.zeroed).after [.run (.attach 0 .idle), .run (.attach 1 .normal),
      .run (.startSchedule 1), .nanosleep ⟨18446744073, 709551616⟩, .run (.clock 1), .run .tick,
      .awake]
    (machine Cpu.zeroed).Reachable s ∧ ∃ r ∈ s.returns, r.clock < r.deadline :=
  ⟨(machine Cpu.zeroed).reachable_after _, ⟨18446744073709551616, 1⟩, by decide +kernel,
    by decide⟩

end Timed

end Chino
