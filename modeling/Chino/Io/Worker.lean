import Chino.Io.Device
import Chino.Sched.Unlocked

/-!
# The I/O worker and the event it sleeps on

The loop of `io::process_queued_ios` and `register_device_process_io` on the machine of
`Chino.Sched.Machine`, with one step for each access to the words of `device_work_list_avail_event_`
and one for each section under `device_work_list_lock_` or with interrupts disabled.

`Alone` is about the CPU and has nothing to do with the work list: if only one thread ever waits on
an address, and calls `block_current_thread` for it without the scheduler lock, then it is linked
for that address only while it is inside its call.  `Awake` ties the list, the signal word, the
number of waiters and the place of the worker together.  A device on the list means that the signal
is set or about to be set; a linked worker means that the signal is not set or that its notification
is on the way.

## The event, step by step

`event::wait` reads the signal; if it is not set, it counts itself as a waiter, calls
`block_current_thread` and looks again.  `notify_one` sets the signal and then reads the number of
waiters; only if there is one it notifies the address.  `WorkStage` and `RegisterPhase` have a place
for each of these accesses, so a registration may come between any two of them, from an interrupt
handler or from another thread.

* A registration that puts its device on the list before the worker looks is found.
* One that comes later sets the signal before the worker can read it, or the worker is counted by
  the time the registration reads the number.
* In the second case the notification finds the worker linked, or not yet linked; then
  `block_current_thread` finds that the word has changed and does not suspend it.

`Awake` has a clause for each of the three, and `notified_of_asleep` is what is left of them in the
states in which the worker sleeps.
-/

set_option autoImplicit false

namespace Chino

open Function (update)
open Scheduler

namespace Cpu

variable {c c' d : Cpu} {L L' : Queues} {e : Event} {b : Bool} {t u : ThreadId} {a : Addr}

/-! ## An address that one thread waits on -/

/-- The thread is linked in `blocked_threads_` for the address. -/
def LinkedFor (c : Cpu) (L : Queues) (a : Addr) (t : ThreadId) : Prop :=
  t ∈ L .blocked ∧ (c.sched.thread t).waitAddress = some a

/-- Nobody but `t` waits on `a`, and `t` only inside its call. -/
structure Sole (c : Cpu) (L : Queues) (t : ThreadId) (a : Addr) : Prop where
  calls : ∀ u call, (c.pc u).call? = some call → call.waitAddress = a → u = t
  inCall : ∀ u, c.LinkedFor L a u → ∃ call, (c.pc u = .suspended call ∨ c.pc u = .resumed call) ∧
    call.waitAddress = a
  unlocked : ∀ call, c.sched.current = some t → (c.pc t).call? = some call →
    call.waitAddress = a → c.sched.lockDepth = 0
  boot : c.sched.started = false → ∀ u, (c.pc u).call? = none

/-- The current thread is linked for `a` only before it has yielded. -/
def Yielding (c : Cpu) (L : Queues) (t : ThreadId) (a : Addr) : Prop :=
  c.sched.current = some t → c.LinkedFor L a t → ∃ call, c.pc t = .suspended call

theorem Sole.eq_of_linkedFor (hs : c.Sole L t a) (hu : c.LinkedFor L a u) : u = t := by
  obtain ⟨call, hpc, hcall⟩ := hs.inCall u hu
  refine hs.calls u call ?_ hcall
  rcases hpc with hpc | hpc <;> rw [hpc] <;> rfl

/-- A thread that is linked for an address after an action was linked before, and was not notified,
or it has just joined. -/
theorem Acts.linkedFor (ha : c.Acts L e d b L') (h : c.Inv L) (hu : d.LinkedFor L' a u) :
    (c.LinkedFor L a u ∧ ∀ all, e = .unblock a all → u ∉ c.sched.notified a all (L .blocked)) ∨
    (e = .blockSection ∧ ∃ call, c.sched.current = some u ∧ c.pc u = .entered call ∧
      call.waitAddress = a ∧ c.mem a = call.old ∧ d.pc u = .suspended call) := by
  obtain ⟨hm, hw⟩ := hu
  have hold : ∀ {l : ListId} {v : ThreadId}, u ∈ without L l v .blocked → u ∈ L .blocked :=
    fun hm ↦ (without_sublist ..).subset hm
  cases ha with
  | @attach v p h' hatt =>
    rw [Function.update_of_ne (by simp)] at hm
    have huv : u ≠ v := by
      rintro rfl
      exact h.linked.free hatt _ hm
    refine Or.inl ⟨⟨hm, ?_⟩, fun _ he ↦ by cases he⟩
    simpa [Scheduler.attached, construct, modifyThread, huv] using hw
  | @startSchedule v hs hatt =>
    refine Or.inl ⟨⟨hm, ?_⟩, fun _ he ↦ by cases he⟩
    by_cases huv : u = v
    · subst huv; simpa [modifyThread] using hw
    · simpa [modifyThread, huv] using hw
  | @detach v l h' hc hpc ht =>
    have huv : u ≠ v := ((mem_without h.linked.rep ht).mp hm).1
    exact Or.inl ⟨⟨hold hm, by simpa [detached, huv] using hw⟩, fun _ he ↦ by cases he⟩
  | @blockUntimed v call l h' hc hpc hmem htime ht =>
    by_cases huv : u = v
    · subst huv
      have haddr : call.waitAddress = a := by simpa [Scheduler.blocked] using hw
      subst haddr
      exact Or.inr ⟨rfl, call, hc, hpc, rfl, hmem, Function.update_self ..⟩
    · rw [Function.update_self, List.mem_append, List.mem_singleton, or_iff_left huv] at hm
      exact Or.inl ⟨⟨hold hm, by simpa [Scheduler.blocked, huv] using hw⟩, fun _ he ↦ by cases he⟩
  | @blockTimed v call timeout l h' hc hpc hmem htime ht =>
    rw [sleepQueues, Function.update_of_ne (by simp)] at hm
    have huv : u ≠ v := ((mem_without h.linked.rep ht).mp hm).1
    refine Or.inl ⟨⟨hold hm, ?_⟩, fun _ he ↦ by cases he⟩
    simpa [asleep_waiting_thread, huv] using hw
  | @delay v timeout l h' hc hpc ht =>
    rw [sleepQueues, Function.update_of_ne (by simp)] at hm
    have huv : u ≠ v := ((mem_without h.linked.rep ht).mp hm).1
    exact Or.inl ⟨⟨hold hm, by simpa [Scheduler.asleep, huv] using hw⟩, fun _ he ↦ by cases he⟩
  | @unblock a' all h' =>
    have hmem : u ∈ L .blocked ∧ u ∉ c.sched.notified a' all (L .blocked) := by
      simpa [wakeQueues] using hm
    rw [unblocked_thread, if_neg hmem.2] at hw
    refine Or.inl ⟨⟨hmem.1, hw⟩, fun all' he ↦ ?_⟩
    cases he
    exact hmem.2
  | tick hs =>
    have hmem : u ∈ L .blocked := by simpa [wakeQueues] using hm
    rw [woken_thread] at hw
    refine Or.inl ⟨⟨hmem, ?_⟩, fun _ he ↦ by cases he⟩
    split at hw <;> exact hw
  | blockCheck =>
    rw [blockCheck_sched] at hw
    exact Or.inl ⟨⟨hm, hw⟩, fun _ he ↦ by cases he⟩
  | _ => exact Or.inl ⟨⟨hm, hw⟩, fun _ he ↦ by cases he⟩

/-- What decides who is current and whether the scheduler is locked. -/
theorem Acts.lockDepth_eq (ha : c.Acts L e d b L') (he : c.enabled e = true) :
    (d.sched.lockDepth = c.sched.lockDepth ∨ c.sched.started = false ∨
      c.currentPc = some .user) ∧
    (d.sched.current = c.sched.current ∨ c.sched.started = false) := by
  cases ha with
  | startSchedule hs => exact ⟨Or.inl rfl, Or.inr hs⟩
  | lock | unlock =>
    refine ⟨Or.inr ?_, Or.inl rfl⟩
    simpa [enabled] using he
  | blockCheck => rw [blockCheck_sched]; exact ⟨Or.inl rfl, Or.inl rfl⟩
  | _ => exact ⟨Or.inl rfl, Or.inl rfl⟩

/-- **What an action keeps**, if only `t` calls `block_current_thread` for `a`, and not while it
holds the scheduler lock. -/
theorem Acts.sole (ha : c.Acts L e d b L') (he : c.enabled e = true) (h : c.Inv L)
    (hs : c.Sole L t a) (hy : c.Yielding L t a)
    (hcall : ∀ old timeout, e = .block a old timeout →
      c.sched.current = some t ∧ c.sched.lockDepth = 0) : d.Sole L' t a where
  calls u call hu hwait := by
    rcases ha.call? hu with hold | ⟨hc, rfl⟩
    · exact hs.calls u call hold hwait
    · subst hwait
      exact Option.some.inj (hc.symm.trans (hcall _ _ rfl).1)
  inCall u hu := by
    rcases ha.linkedFor h hu with ⟨hold, -⟩ | ⟨-, call, -, -, hwait, -, hpc⟩
    · obtain ⟨call, hpc, hwait⟩ := hs.inCall u hold
      rcases ha.pc_of_suspended hpc with ⟨hpc', -⟩ | ⟨p, rfl⟩ | ⟨rfl, hc, hpc'⟩
      · exact ⟨call, hpc', hwait⟩
      · cases ha with
        | attach hatt => rw [h.linked.attached hold.1] at hatt; cases hatt
      · -- it has not yielded yet, so it cannot be back from its `yield`
        cases hs.eq_of_linkedFor hold
        obtain ⟨call', hsusp⟩ := hy hc hold
        rw [hsusp] at hpc'
        cases hpc'
    · exact ⟨call, Or.inl hpc, hwait⟩
  unlocked call hcur hu hwait := by
    obtain ⟨hlock, hsame⟩ := ha.lockDepth_eq he
    rcases ha.call? hu with hold | ⟨hc, rfl⟩
    · have hst : c.sched.started = true := by
        by_contra hst
        rw [hs.boot (by simpa using hst) t] at hold
        cases hold
      have hc : c.sched.current = some t := by
        rw [← hcur]
        exact (hsame.resolve_right (by simp [hst])).symm
      rcases hlock with hlock | hno | huser
      · rw [hlock]; exact hs.unlocked call hc hold hwait
      · rw [hst] at hno; cases hno
      · obtain ⟨v, hv, hpc⟩ := currentPc_eq huser
        cases hc.symm.trans hv
        rw [hpc] at hold
        cases hold
    · cases ha with
      | block => subst hwait; exact (hcall _ _ rfl).2
  boot hst u := by
    have hst' : c.sched.started = false := by
      cases ha with
      | startSchedule => cases hst
      | blockCheck => rwa [blockCheck_sched] at hst
      | _ => exact hst
    cases hcu : (d.pc u).call? with
    | none => rfl
    | some call =>
      rcases ha.call? hcu with hold | ⟨hc, -⟩
      · rw [hs.boot hst' u] at hold; cases hold
      · have := h.started
        rw [hst', hc] at this
        cases this

theorem Acts.yielding (ha : c.Acts L e d false L') (h : c.Inv L) (hy : c.Yielding L t a) :
    d.Yielding L' t a := by
  intro hcur hlink
  rcases ha.linkedFor h hlink with ⟨hold, -⟩ | ⟨-, call, -, -, -, -, hpc⟩
  · have hc : c.sched.current = some t := by
      generalize hb : false = b at ha
      cases ha with
      | startSchedule hst hatt =>
        have := listOf_eq_blocked.mp (h.linked.listOf_eq hold.1)
        rw [h.boot hst t (h.linked.attached hold.1)] at this
        cases this
      | blockCheck => rwa [blockCheck_sched] at hcur
      | _ => exact hcur
    obtain ⟨call, hpc⟩ := hy hc hold
    rcases ha.pc_of_suspended (Or.inl hpc) with ⟨-, hsame⟩ | ⟨p, rfl⟩ | ⟨-, -, hpc'⟩
    · exact ⟨call, (hsame rfl).trans hpc⟩
    · generalize hb : false = b at ha
      cases ha with
      | attach hatt => rw [h.linked.attached hold.1] at hatt; cases hatt
    · rw [hpc] at hpc'; cases hpc'
  · exact ⟨call, hpc⟩

/-- `switch_task` changes who is current and which threads are ready. -/
theorem switchTask_linkedFor (hsw : d.switchTask = .ok c') :
    c'.pc = d.pc ∧ c'.mem = d.mem ∧ c'.sched.lockDepth = d.sched.lockDepth ∧
      c'.sched.started = d.sched.started ∧ (c'.LinkedFor L a u ↔ d.LinkedFor L a u) := by
  obtain ⟨s, hs, rfl⟩ := switchTask_eq_ok hsw
  rcases switchTask_cases hs with rfl | ⟨cnt, next, -, -, -, -, rfl⟩
  · exact ⟨rfl, rfl, rfl, rfl, Iff.rfl⟩
  · refine ⟨rfl, rfl, rfl, rfl, and_congr_right fun _ ↦ ?_⟩
    rw [switched_thread]
    split
    · rename_i hu; rw [hu]
    · split
      · rename_i hu; rw [hu.1]
      · exact Iff.rfl

theorem sole_switchTask (h : d.Inv L) (hs : d.Sole L t a) (hsw : d.switchTask = .ok c') :
    c'.Sole L t a ∧ c'.Yielding L t a := by
  obtain ⟨hpc, -, hlock, hstart, hlink⟩ := switchTask_linkedFor (L := L) (a := a) (u := t) hsw
  obtain ⟨s, hs', rfl⟩ := switchTask_eq_ok hsw
  have hcase : d.sched.lockDepth = 0 ∧ t ∉ L .blocked ∨ d.sched.lockDepth = 0 ∧
      s.current ≠ some t ∨ d.sched.lockDepth ≠ 0 ∧ s = d.sched := by
    by_cases hl : d.sched.lockDepth = 0
    · obtain ⟨cnt, next, hc, hsel⟩ := selectNextThread_of_switchTask hl hs'
      obtain ⟨s', hsw', hcur, -⟩ := switchTask_selected hl hc hsel
      cases hs'.symm.trans hsw'
      obtain ⟨p, hp⟩ := h.linked.selectNextThread_mem hc hsel
      by_cases hnext : next = t
      · refine Or.inl ⟨hl, fun hm ↦ ?_⟩
        subst hnext
        cases h.linked.rep.disjoint _ _ _ hp hm
      · exact Or.inr (Or.inl ⟨hl, by rw [hcur]; simpa using hnext⟩)
    · rw [switchTask_locked hl] at hs'
      exact Or.inr (Or.inr ⟨hl, (Except.ok.inj hs').symm⟩)
  refine ⟨⟨hs.calls, fun u hu ↦ ?_, fun call hcur hcall hwait ↦ ?_, fun hst ↦ ?_⟩, fun hcur hu ↦ ?_⟩
  · exact hs.inCall u ((switchTask_linkedFor hsw).2.2.2.2.mp hu)
  · rcases hcase with ⟨hl, -⟩ | ⟨hl, -⟩ | ⟨-, rfl⟩
    · rw [hlock]; exact hl
    · rw [hlock]; exact hl
    · exact hs.unlocked call hcur hcall hwait
  · rw [hstart] at hst
    exact hs.boot hst
  · rcases hcase with ⟨-, hno⟩ | ⟨-, hno⟩ | ⟨hl, rfl⟩
    · exact absurd hu.1 hno
    · exact absurd hcur hno
    · -- the switch was refused, and a call for `a` is not made under the lock
      obtain ⟨call, hcall, hwait⟩ := hs.inCall t hu
      refine absurd (hs.unlocked call hcur ?_ hwait) hl
      rcases hcall with hcall | hcall <;> rw [hcall] <;> rfl

/-- The thread `t` is the only one that waits on `a`, and is linked only inside its call. -/
structure Alone (c : Cpu) (L : Queues) (t : ThreadId) (a : Addr) : Prop where
  inv : c.Inv L
  sole : c.Sole L t a
  yielding : c.Yielding L t a

/-- **A step keeps the only waiter alone.**  If it is linked afterwards, it was linked before and
nobody notified it, or it has just found the word unchanged. -/
theorem Alone.next (h : c.Alone L t a) (hn : c.next e = some c')
    (hcall : ∀ old timeout, e = .block a old timeout →
      c.sched.current = some t ∧ c.sched.lockDepth = 0) :
    ∃ L', c'.Alone L' t a ∧ ((∀ a v, e ≠ .store a v) → c'.mem = c.mem) ∧
      (c'.LinkedFor L' a t → (c.LinkedFor L a t ∧ ∀ all, e ≠ .unblock a all) ∨
        e = .blockSection ∧ ∃ call, (c.pc t).call? = some call ∧ call.waitAddress = a ∧
          c.mem a = call.old) ∧
      ∀ u call, (c'.pc u).call? = some call → (c.pc u).call? = some call ∨
        (c.sched.current = some u ∧ e = .block call.waitAddress call.old call.timeout) := by
  obtain ⟨he, -⟩ := next_eq_some.mp hn
  obtain ⟨d, b, L', ha, hd, hI', hcase⟩ := h.inv.next_cases hn
  have hs' := ha.sole he h.inv h.sole h.yielding hcall
  have hlink : d.LinkedFor L' a t → (c.LinkedFor L a t ∧ ∀ all, e ≠ .unblock a all) ∨
      e = .blockSection ∧ ∃ call, (c.pc t).call? = some call ∧ call.waitAddress = a ∧
        c.mem a = call.old := by
    intro hl
    rcases ha.linkedFor h.inv hl with ⟨hold, hnot⟩ | ⟨rfl, call, hc, hpc, hwait, hmem, -⟩
    · refine Or.inl ⟨hold, fun all he ↦ hnot all he ?_⟩
      -- it is the only one linked for the address, so it is the one that is notified
      have hf : t ∈ (L .blocked).filter fun u ↦ (c.sched.thread u).waitAddress = some a :=
        List.mem_filter.mpr ⟨hold.1, by simpa using hold.2⟩
      cases all with
      | true => exact hf
      | false =>
        obtain ⟨v, us, hus⟩ := List.exists_cons_of_ne_nil (List.ne_nil_of_mem hf)
        have hv : v ∈ (L .blocked).filter fun u ↦ (c.sched.thread u).waitAddress = some a := by
          simp [hus]
        obtain ⟨hvm, hvw⟩ := List.mem_filter.mp hv
        have hvt : v = t := h.sole.eq_of_linkedFor ⟨hvm, by simpa using hvw⟩
        simp [notified, hus, hvt]
    · exact Or.inr ⟨rfl, call, by rw [hpc]; rfl, hwait, hmem⟩
  rcases hcase with ⟨rfl, rfl⟩ | ⟨rfl, -, hsw⟩
  · exact ⟨L', ⟨hI', hs', ha.yielding h.inv h.yielding⟩, ha.mem_eq, hlink,
      fun u call hu ↦ ha.call? hu⟩
  · obtain ⟨hpc, hmem, -, -, hiff⟩ := switchTask_linkedFor (L := L') (a := a) (u := t) hsw
    obtain ⟨hsole, hyield⟩ := sole_switchTask hd hs' hsw
    refine ⟨L', ⟨hI', hsole, hyield⟩, fun hne ↦ hmem.trans (ha.mem_eq hne),
      fun hl ↦ hlink (hiff.mp hl), fun u call hu ↦ ha.call? (hpc ▸ hu)⟩

theorem alone_init (mem : Addr → UInt32) : (init mem).Alone (fun _ ↦ []) t a where
  inv := inv_init
  sole :=
    { calls := fun _ _ h ↦ by cases h
      inCall := fun _ h ↦ by cases h.1
      unlocked := fun _ h ↦ by cases h
      boot := fun _ _ ↦ rfl }
  yielding h := by cases h

end Cpu

/-! ## The loop of the worker -/

/-- The thread of the I/O worker and the two words of `device_work_list_avail_event_`. -/
structure IoWorker where
  thread : ThreadId
  /-- The address of `signal_`. -/
  signal : Addr
  /-- The address of `waiters_`. -/
  waiters : Addr
  distinct : signal ≠ waiters

/-- Where a `register_device_process_io` call is that has put its device on the list. -/
inductive RegisterPhase where
  /-- About to set `signal_`. -/
  | pushed
  /-- About to read `waiters_`. -/
  | stored
  /-- About to `atomic_notify_one`. -/
  | notifying
deriving DecidableEq

/-- Where the worker is in `process_queued_ios`. -/
inductive WorkStage where
  /-- About to look at the list. -/
  | looking
  /-- In `device::process_queued_ios`. -/
  | draining
  /-- About to `try_wait`. -/
  | waiting
  /-- About to construct the `waiters_guard`. -/
  | guarding
  /-- About to load `signal_` in `atomic_wait`. -/
  | entering
  /-- About to call `block_current_thread`. -/
  | calling
  /-- In `block_current_thread`. -/
  | blocked
  /-- About to destroy the `waiters_guard`. -/
  | leaving
deriving DecidableEq

/-- The worker is inside its `waiters_guard`. -/
def WorkStage.inGuard : WorkStage → Bool
  | entering | calling | blocked | leaving => true
  | _ => false

/-- The work list, its event and the thread that waits for it. -/
structure WorkLoop where
  cpu : Cpu
  /-- `device_work_list_`. -/
  workList : Heap Unit DeviceId
  /-- The registration that holds `device_work_list_lock_`. -/
  register : Option RegisterPhase
  stage : WorkStage

/-- What the worker and those who register devices do. -/
inductive WorkEvent where
  /-- What concerns neither the list nor its event. -/
  | run (e : Event)
  /-- `register_device_process_io`, up to the `push_back`. -/
  | register (d : DeviceId)
  /-- The next step of a registration. -/
  | notify
  /-- The next step of the worker. -/
  | work
deriving DecidableEq

namespace WorkLoop

variable (w : IoWorker)

/-- The worker is about to look for the first time. -/
def init (mem : Addr → UInt32) : WorkLoop where
  cpu := Cpu.init (update (update mem w.signal 0) w.waiters 0)
  workList := Heap.init
  register := none
  stage := .looking

/-- The current thread is free to make a call: the worker makes its own ones while it drains a
device. -/
def free (s : WorkLoop) : Bool := s.cpu.sched.current ≠ some w.thread || s.stage = .draining

/-- The thread is inside `block_current_thread`. -/
def inside (s : WorkLoop) : Bool :=
  s.cpu.currentPc.any fun pc ↦ pc.call?.isSome

/-- The events of the CPU that concern neither the list nor its event. -/
def background (s : WorkLoop) : Event → Bool
  | .block a _ _ => a ≠ w.signal && s.free w
  | .store a _ => a ≠ w.signal && a ≠ w.waiters
  | .detach => s.cpu.sched.current ≠ some w.thread
  | .delay _ | .lock | .unlock => s.free w
  | .yield => s.free w || s.inside
  | _ => true

/-- A registration up to its `push_back`. -/
def registerDevice (s : WorkLoop) (d : DeviceId) : Option WorkLoop :=
  if s.register.isSome then none
  else if s.workList.inList d then some s
  else do
    let l ← s.workList.pushBack () d
    some { s with workList := l, register := some .pushed }

/-- `notify_one`, by the registration that holds the lock. -/
def notifyOne (s : WorkLoop) : RegisterPhase → Option WorkLoop
  | .pushed => some { s with cpu := s.cpu.setMem w.signal 1, register := some .stored }
  | .stored =>
    some { s with register := if s.cpu.mem w.waiters ≠ 0 then some .notifying else none }
  | .notifying => do
    let c ← s.cpu.next (.unblock w.signal false)
    some { s with cpu := c, register := none }

/-- The locked section of `process_queued_ios`. -/
def look (s : WorkLoop) : Option WorkLoop :=
  match s.workList.front () with
  | some d => do
    let l ← s.workList.remove () d
    some { s with workList := l, stage := .draining }
  | none => some { s with cpu := s.cpu.setMem w.signal 0, stage := .waiting }

/-- A step of the worker, which holds no scheduler lock here. -/
def work (s : WorkLoop) : Option WorkLoop :=
  match s.stage with
  | .looking => if s.register.isSome then none else s.look w
  | .draining => some { s with stage := .looking }
  | .waiting => some { s with stage := if s.cpu.mem w.signal ≠ 0 then .looking else .guarding }
  | .guarding => some { s with
      cpu := s.cpu.setMem w.waiters (s.cpu.mem w.waiters + 1), stage := .entering }
  | .entering => some { s with stage := if s.cpu.mem w.signal ≠ 0 then .leaving else .calling }
  | .calling => do
    let c ← s.cpu.next (.block w.signal 0 none)
    some { s with cpu := c, stage := .blocked }
  | .blocked => some { s with stage := .leaving }
  | .leaving => some { s with
      cpu := s.cpu.setMem w.waiters (s.cpu.mem w.waiters - 1), stage := .looking }

/-- The next state, or none where the event does not apply. -/
def next (s : WorkLoop) : WorkEvent → Option WorkLoop
  | .run e => if s.background w e then (s.cpu.next e).map fun c ↦ { s with cpu := c } else none
  | .register d => s.registerDevice d
  | .notify => s.register.bind (s.notifyOne w)
  | .work =>
    if s.cpu.sched.current = some w.thread ∧ s.cpu.pc w.thread = .user ∧
      s.cpu.sched.lockDepth = 0 then s.work w else none

/-- Runs that start with the memory `mem`. -/
def machine (mem : Addr → UInt32) : Machine WorkLoop WorkEvent where
  init := init w mem
  next := next w

/-! ## What ties the list, the signal and the worker together -/

variable {w} {s s' : WorkLoop} {L L' : Queues}

/-- The devices on the list. -/
def devices (s : WorkLoop) : List DeviceId := s.workList.toList ()

/-- The worker does not sleep while there is a device on its list. -/
structure Awake (w : IoWorker) (s : WorkLoop) (L : Queues) : Prop where
  alone : s.cpu.Alone L w.thread w.signal
  rep : ∃ W, s.workList.Represents W
  waiters : s.cpu.mem w.waiters = if s.stage.inGuard then 1 else 0
  calls : ∀ u call, (s.cpu.pc u).call? = some call → call.waitAddress = w.signal →
    s.stage = .blocked ∧ call.old = 0
  /-- A device on the list has set the signal, or is about to. -/
  signal : s.devices ≠ [] → s.cpu.mem w.signal ≠ 0 ∨ s.register = some .pushed
  /-- A worker that sleeps has seen no signal, or its notification is on the way. -/
  asleep : s.cpu.LinkedFor L w.signal w.thread → s.cpu.mem w.signal = 0 ∨
    s.register = some .stored ∨ s.register = some .notifying

/-- A change of the memory touches neither threads nor lists. -/
theorem setMem_alone {c : Cpu} {t : ThreadId} {a : Addr} (h : c.Alone L t a) (a' : Addr)
    (v : UInt32) : (c.setMem a' v).Alone L t a := by
  obtain ⟨he, -⟩ := Cpu.next_eq_some.mp (Cpu.next_store c a' v)
  obtain ⟨d, b, L', ha, -, hI', hcase⟩ := h.inv.next_cases (Cpu.next_store c a' v)
  cases ha with
  | store =>
    refine ⟨?_, ⟨h.sole.calls, h.sole.inCall, h.sole.unlocked, h.sole.boot⟩, h.yielding⟩
    rcases hcase with ⟨-, hd⟩ | ⟨hb, -⟩
    · exact hI'
    · cases hb

/-- **A step of the CPU keeps the words of the event**, and the worker falls asleep in it only if
it has found the signal not set. -/
theorem Awake.cpu (h : s.Awake w L) {e : Event} {c : Cpu} (hn : s.cpu.next e = some c)
    (hstore : ∀ a v, e = .store a v → a ≠ w.signal ∧ a ≠ w.waiters)
    (hcall : ∀ old timeout, e = .block w.signal old timeout →
      s.cpu.sched.current = some w.thread ∧ s.cpu.sched.lockDepth = 0) :
    ∃ L', c.Alone L' w.thread w.signal ∧ c.mem w.signal = s.cpu.mem w.signal ∧
      c.mem w.waiters = s.cpu.mem w.waiters ∧
      (c.LinkedFor L' w.signal w.thread →
        (s.cpu.LinkedFor L w.signal w.thread ∧ ∀ all, e ≠ .unblock w.signal all) ∨
          c.mem w.signal = 0) ∧
      ∀ u call, (c.pc u).call? = some call → call.waitAddress = w.signal →
        (s.stage = .blocked ∧ call.old = 0) ∨ e = .block w.signal call.old call.timeout := by
  obtain ⟨L', ha, hmem, hlink, hcalls⟩ := h.alone.next hn hcall
  have hwords : c.mem w.signal = s.cpu.mem w.signal ∧ c.mem w.waiters = s.cpu.mem w.waiters := by
    by_cases hst : ∃ a v, e = .store a v
    · obtain ⟨a, v, rfl⟩ := hst
      obtain ⟨h1, h2⟩ := hstore a v rfl
      cases (Cpu.next_store s.cpu a v).symm.trans hn
      exact ⟨Cpu.setMem_mem_of_ne _ _ h1.symm, Cpu.setMem_mem_of_ne _ _ h2.symm⟩
    · rw [hmem fun a v he ↦ hst ⟨a, v, he⟩]
      exact ⟨rfl, rfl⟩
  refine ⟨L', ha, hwords.1, hwords.2, fun hl ↦ ?_, fun u call hu hwait ↦ ?_⟩
  · rcases hlink hl with hold | ⟨-, call, hcall', hwait, hold⟩
    · exact Or.inl hold
    · refine Or.inr ?_
      rw [hwords.1, hold]
      exact (h.calls _ _ hcall' hwait).2
  · rcases hcalls u call hu with hold | ⟨-, he⟩
    · exact Or.inl (h.calls u call hold hwait)
    · exact Or.inr (hwait ▸ he)

theorem Awake.run (h : s.Awake w L) {e : Event} {c : Cpu} (hb : s.background w e = true)
    (hn : s.cpu.next e = some c) : ∃ L', ({ s with cpu := c } : WorkLoop).Awake w L' := by
  have hblock : ∀ old timeout, e ≠ .block w.signal old timeout := by
    rintro old timeout rfl
    simp [background] at hb
  obtain ⟨L', ha, hsignal, hwaiters, hlink, hcalls⟩ := h.cpu hn
    (by rintro a v rfl; simpa [background] using hb) (fun old timeout he ↦ absurd he (hblock _ _))
  refine ⟨L', ⟨ha, h.rep, hwaiters.trans h.waiters, fun u call hu hwait ↦ ?_, fun hne ↦ ?_,
    fun hl ↦ ?_⟩⟩
  · exact (hcalls u call hu hwait).resolve_right (hblock _ _)
  · exact (h.signal hne).imp (hsignal.trans_ne ·) id
  · rcases hlink hl with ⟨hold, -⟩ | hzero
    · exact (h.asleep hold).imp hsignal.trans id
    · exact Or.inl hzero

theorem Awake.register (h : s.Awake w L) {d : DeviceId} (hn : s.registerDevice d = some s') :
    s'.Awake w L := by
  rw [registerDevice] at hn
  split at hn
  · cases hn
  rename_i hfree
  have hnone : s.register = none := by simpa using hfree
  split at hn
  · cases hn; exact h
  rename_i hin
  obtain ⟨l, hl, hs⟩ := Option.bind_eq_some_iff.mp hn
  cases hs
  obtain ⟨W, hW⟩ := h.rep
  have hout : ∀ u, d ∉ W u := fun u hd ↦ hin ((hW.inList_iff d).mpr ⟨u, hd⟩)
  obtain ⟨l', hl', hW'⟩ := hW.pushBack_spec (l := ()) hout
  cases hl.symm.trans hl'
  refine ⟨h.alone, ⟨_, hW'⟩, h.waiters, h.calls, fun _ ↦ Or.inr rfl, fun hlink ↦ ?_⟩
  refine Or.inl ((h.asleep hlink).resolve_right ?_)
  simp [hnone]

theorem Awake.notify (h : s.Awake w L) {phase : RegisterPhase} (hr : s.register = some phase)
    (hn : s.notifyOne w phase = some s') : ∃ L', s'.Awake w L' := by
  cases phase with
  | pushed =>
    cases hn
    refine ⟨L, ⟨setMem_alone h.alone _ _, h.rep, ?_, h.calls, fun _ ↦ Or.inl ?_, fun _ ↦
      Or.inr (Or.inl rfl)⟩⟩
    · exact (Cpu.setMem_mem_of_ne _ _ w.distinct.symm).trans h.waiters
    · simp
  | stored =>
    cases hn
    have hset : s.devices ≠ [] → s.cpu.mem w.signal ≠ 0 := fun hne ↦
      (h.signal hne).resolve_right (by simp [hr])
    refine ⟨L, ⟨h.alone, h.rep, h.waiters, h.calls, fun hne ↦ Or.inl (hset hne), fun hl ↦ ?_⟩⟩
    -- a worker that is linked is inside its `waiters_guard`
    obtain ⟨call, hpc, hwait⟩ := h.alone.sole.inCall _ hl
    have hstage : s.stage = .blocked := by
      refine (h.calls w.thread call ?_ hwait).1
      rcases hpc with hpc | hpc <;> rw [hpc] <;> rfl
    have hone : s.cpu.mem w.waiters ≠ 0 := by
      rw [h.waiters, hstage]
      decide
    exact Or.inr (Or.inr (if_pos hone))
  | notifying =>
    obtain ⟨c, hc, hs⟩ := Option.bind_eq_some_iff.mp hn
    cases hs
    obtain ⟨L', ha, hsignal, hwaiters, hlink, hcalls⟩ := h.cpu hc (by simp) (by simp)
    refine ⟨L', ⟨ha, h.rep, hwaiters.trans h.waiters, fun u call hu hwait ↦ ?_, fun hne ↦ ?_,
      fun hl ↦ ?_⟩⟩
    · exact (hcalls u call hu hwait).resolve_right (by simp)
    · exact Or.inl (hsignal.trans_ne ((h.signal hne).resolve_right (by simp [hr])))
    · rcases hlink hl with ⟨-, hno⟩ | hzero
      · exact absurd rfl (hno false)
      · exact Or.inl hzero

/-- Nothing but the place of the worker changes, and it is not in `block_current_thread`. -/
theorem Awake.setStage (h : s.Awake w L) {stage : WorkStage} (hg : stage.inGuard = s.stage.inGuard)
    (hb : s.stage ≠ .blocked) : ({ s with stage := stage } : WorkLoop).Awake w L :=
  ⟨h.alone, h.rep, by rw [hg]; exact h.waiters,
    fun u call hu hwait ↦ absurd (h.calls u call hu hwait).1 hb, h.signal, h.asleep⟩

theorem Awake.look (h : s.Awake w L) (hstage : s.stage = .looking) (hr : s.register = none)
    (hn : s.look w = some s') : s'.Awake w L := by
  have hcalls : ∀ u call, (s.cpu.pc u).call? = some call → call.waitAddress ≠ w.signal := by
    intro u call hu hwait
    have := (h.calls u call hu hwait).1
    rw [hstage] at this
    cases this
  have hwaiters : s.cpu.mem w.waiters = 0 := by rw [h.waiters, hstage]; rfl
  obtain ⟨W, hW⟩ := h.rep
  have hdev : s.devices = W () := congrFun hW.toList_eq ()
  rw [WorkLoop.look, hW.front_eq] at hn
  cases hl : W () with
  | nil =>
    rw [hl] at hn
    cases hn
    refine ⟨setMem_alone h.alone _ _, h.rep, ?_,
      fun u call hu hwait ↦ absurd hwait (hcalls u call hu),
      fun hne ↦ absurd (hdev.trans hl) hne, fun _ ↦ Or.inl (Cpu.setMem_mem_self ..)⟩
    exact (Cpu.setMem_mem_of_ne _ _ w.distinct.symm).trans hwaiters
  | cons d ds =>
    rw [hl] at hn
    obtain ⟨l, hrem, hs⟩ := Option.bind_eq_some_iff.mp hn
    cases hs
    obtain ⟨l', hrem', hW'⟩ := hW.remove_spec (l := ()) (a := d) (by simp [hl])
    cases hrem.symm.trans hrem'
    refine ⟨h.alone, ⟨_, hW'⟩, hwaiters, fun u call hu hwait ↦ absurd hwait (hcalls u call hu),
      fun _ ↦ Or.inl ?_, h.asleep⟩
    exact (h.signal (by rw [hdev, hl]; simp)).resolve_right (by simp [hr])

theorem Awake.work (h : s.Awake w L) (hc : s.cpu.sched.current = some w.thread)
    (hpc : s.cpu.pc w.thread = .user) (hlock : s.cpu.sched.lockDepth = 0)
    (hn : s.work w = some s') : ∃ L', s'.Awake w L' := by
  rw [WorkLoop.work] at hn
  cases hstage : s.stage with
  | looking =>
    simp only [hstage] at hn
    split at hn
    · cases hn
    · rename_i hr
      exact ⟨L, h.look hstage (by simpa using hr) hn⟩
  | draining | waiting | entering =>
    simp only [hstage] at hn
    cases hn
    refine ⟨L, h.setStage ?_ (by simp [hstage])⟩
    rw [hstage]
    first | rfl | (split <;> rfl)
  | guarding =>
    simp only [hstage] at hn
    cases hn
    have hzero : s.cpu.mem w.waiters = 0 := by rw [h.waiters, hstage]; rfl
    have hsig : (s.cpu.setMem w.waiters (s.cpu.mem w.waiters + 1)).mem w.signal
        = s.cpu.mem w.signal := Cpu.setMem_mem_of_ne _ _ w.distinct
    refine ⟨L, ⟨setMem_alone h.alone _ _, h.rep, ?_, fun u call hu hwait ↦ ?_, fun hne ↦ ?_,
      fun hl ↦ ?_⟩⟩
    · simp [hzero, WorkStage.inGuard]
    · exact absurd (h.calls u call hu hwait).1 (by simp [hstage])
    · exact (h.signal hne).imp (hsig.trans_ne ·) id
    · exact (h.asleep hl).imp hsig.trans id
  | calling =>
    simp only [hstage] at hn
    obtain ⟨c, hnext, hs⟩ := Option.bind_eq_some_iff.mp hn
    cases hs
    obtain ⟨L', ha, hsignal, hwaiters, hlink, hcalls⟩ := h.cpu hnext (by simp)
      fun _ _ _ ↦ ⟨hc, hlock⟩
    refine ⟨L', ⟨ha, h.rep, ?_, fun u call hu hwait ↦ ⟨rfl, ?_⟩, fun hne ↦ ?_, fun hl ↦ ?_⟩⟩
    · rw [hwaiters, h.waiters, hstage]; rfl
    · rcases hcalls u call hu hwait with ⟨hb, -⟩ | he
      · rw [hstage] at hb; cases hb
      · injection he with _ hold
        exact hold.symm
    · exact (h.signal hne).imp (hsignal.trans_ne ·) id
    · rcases hlink hl with ⟨hold, -⟩ | hzero
      · exact (h.asleep hold).imp hsignal.trans id
      · exact Or.inl hzero
  | blocked =>
    simp only [hstage] at hn
    cases hn
    refine ⟨L, ⟨h.alone, h.rep, ?_, fun u call hu hwait ↦ ?_, h.signal, h.asleep⟩⟩
    · rw [h.waiters, hstage]; rfl
    · -- the worker is back from its call, and nobody else waits on the signal
      cases h.alone.sole.calls u call hu hwait
      rw [hpc] at hu
      cases hu
  | leaving =>
    simp only [hstage] at hn
    cases hn
    have hone : s.cpu.mem w.waiters = 1 := by rw [h.waiters, hstage]; rfl
    have hsig : (s.cpu.setMem w.waiters (s.cpu.mem w.waiters - 1)).mem w.signal
        = s.cpu.mem w.signal := Cpu.setMem_mem_of_ne _ _ w.distinct
    refine ⟨L, ⟨setMem_alone h.alone _ _, h.rep, ?_, fun u call hu hwait ↦ ?_, fun hne ↦ ?_,
      fun hl ↦ ?_⟩⟩
    · simp [hone, WorkStage.inGuard]
    · exact absurd (h.calls u call hu hwait).1 (by simp [hstage])
    · exact (h.signal hne).imp (hsig.trans_ne ·) id
    · exact (h.asleep hl).imp hsig.trans id

theorem Awake.next (h : s.Awake w L) {e : WorkEvent} (hn : s.next w e = some s') :
    ∃ L', s'.Awake w L' := by
  cases e with
  | run e =>
    simp only [WorkLoop.next] at hn
    split at hn
    · rename_i hb
      obtain ⟨c, hc, rfl⟩ := Option.map_eq_some_iff.mp hn
      exact h.run hb hc
    · cases hn
  | register d => exact ⟨L, h.register hn⟩
  | notify =>
    obtain ⟨phase, hr, hn⟩ := Option.bind_eq_some_iff.mp hn
    exact h.notify hr hn
  | work =>
    simp only [WorkLoop.next] at hn
    split at hn
    · rename_i hcond
      exact h.work hcond.1 hcond.2.1 hcond.2.2 hn
    · cases hn

theorem awake_init (mem : Addr → UInt32) : (init w mem).Awake w fun _ ↦ [] where
  alone := Cpu.alone_init _
  rep := ⟨_, Heap.represents_init⟩
  waiters := by simp [init, Cpu.init, WorkStage.inGuard]
  calls _ _ h := by cases h
  signal h := absurd (by simp [devices, init, Heap.represents_init.toList_eq]) h
  asleep h := by cases h.1

/-! ## Every run -/

/-- The worker is in `blocked_threads_` and waits on the event. -/
def Asleep (w : IoWorker) (s : WorkLoop) : Prop :=
  w.thread ∈ s.cpu.sched.lists.toList .blocked ∧
    (s.cpu.sched.thread w.thread).waitAddress = some w.signal

/-- **The worker does not sleep over work.**  While it sleeps and the list is not empty, some
registration is between its `push_back` and the end of its `notify_one`. -/
theorem notified_of_asleep {mem : Addr → UInt32} (h : (machine w mem).Reachable s)
    (hsleep : s.Asleep w) (hwork : s.devices ≠ []) : ∃ phase, s.register = some phase := by
  obtain ⟨L, hL⟩ := h.invariant (I := fun s ↦ ∃ L, s.Awake w L) ⟨_, awake_init mem⟩
    fun _ _ _ _ ⟨_, hs⟩ hn ↦ hs.next hn
  have hlink : s.cpu.LinkedFor L w.signal w.thread := by
    rw [Asleep, hL.alone.inv.linked.rep.toList_eq] at hsleep
    exact hsleep
  rcases hL.signal hwork with hset | hpushed
  · rcases hL.asleep hlink with hzero | hstored | hnotifying
    · exact absurd hzero hset
    · exact ⟨_, hstored⟩
    · exact ⟨_, hnotifying⟩
  · exact ⟨_, hpushed⟩

/-- The worker goes to sleep, and a device is registered. -/
theorem notified_of_asleep_registered :
    let w : IoWorker := ⟨1, 100, 101, by decide⟩
    let s := (machine w Cpu.zeroed).after [.run (.attach 0 .idle), .run (.attach 1 .normal),
      .run (.startSchedule 1), .work, .work, .work, .work, .work, .run .blockSection,
      .run .yield, .register 7]
    s.Asleep w ∧ s.devices = [7] ∧ ∃ phase, s.register = some phase := by
  intro w s
  have hsleep : s.Asleep w := ⟨by decide, by decide⟩
  have hdev : s.devices = [7] := by decide
  exact ⟨hsleep, hdev, notified_of_asleep (Machine.reachable_after _) hsleep (by rw [hdev]; simp)⟩

end WorkLoop

end Chino
