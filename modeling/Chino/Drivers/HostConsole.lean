import Chino.Drivers.DeviceQueue
import Chino.Library.Run
import Mathlib.Data.List.Perm.Subperm

/-!
# The console of the host

A read that `host_console.cpp` cannot answer at once registers a one-shot wait for `stdin` and goes
to `pending_irps_`; the callback of the wait sends an interrupt, whose handler queues the first
pending read again.  Every read that is processed cancels the wait of the one before it and, if it
has to wait too, registers its own, so there is never more than one wait.

One step is one access to `stdin_wait_handle_`, one call of the host, one statement of a callback,
or one interrupt handler.  What `fast_read` finds in the console is up to the environment: its
result is part of the event, and so is whether the host accepts a wait.

`Paired` says that the waits, callbacks and interrupts are at most as many as the reads that wait.
They may be fewer: a read that is completed has cancelled the wait, and nobody registers another one
for the reads that are still pending.  `awaited_of_pending` says that such a completion is the only
way to strand a reader, and `stranded` is a run with two readers in which it happens.  It cannot
happen if the readers take turns: `awaited_of_oneReader` only asks that no read is submitted while
another one is outstanding.

## The two invariants

* `Paired` counts from above.  A wait that is registered, a callback that runs and an interrupt that
  was sent are each for some read that is not completed; so an interrupt finds a read unless the
  only one is in the worker's hand (`requeue_isSome_iff`), which is the window of
  `Chino.Drivers.Interrupts`.
* `Alert` counts from below: while a read is pending, some of these are there.  It is kept by every
  step but one, the completion of a read, which has cancelled the wait for all of them.

`LeavesNobody` is the condition on that step, in the state before it: no other read is pending, or a
callback or an interrupt is on its way, or another read is queued.  Everything else is proved
without a condition.  `awaited_of_oneReader` replaces it by one on `submit` alone, which the users
of the console can keep: with one unfinished read there is nobody to be left.
-/

set_option autoImplicit false

namespace Chino

open Function (update)

/-- Where the worker is with the device. -/
inductive ConsoleStage where
  | idle
  /-- In `process_io` for a read, about to look at `stdin_wait_handle_`. -/
  | entered (i : IrpId)
  /-- About to call `UnregisterWait`. -/
  | cancelling (i : IrpId)
  /-- About to `fast_read`. -/
  | reading (i : IrpId)
  /-- About to call `RegisterWaitForSingleObject`. -/
  | arming (i : IrpId)
  /-- Back from `process_io`, about to `queue_pending_io`. -/
  | queueing (i : IrpId)
deriving DecidableEq

/-- The request in the worker's hand. -/
def ConsoleStage.hand? : ConsoleStage → Option IrpId
  | idle => none
  | entered i | cancelling i | reading i | arming i | queueing i => some i

/-- The device with the wait that it has registered. -/
structure HostConsole where
  queue : DeviceQueue
  stage : ConsoleStage
  /-- `stdin_wait_handle_` is not null. -/
  waitHandle : Bool
  /-- The wait is registered and has not fired. -/
  armed : Bool
  /-- Callbacks that have not yet sent their interrupt. -/
  callbacks : ℕ
  /-- Interrupts that were sent and not yet handled. -/
  irqs : ℕ
  completed : IrpId → Option Completion

/-- What threads, the worker and the host do. -/
inductive ConsoleEvent where
  /-- A thread queues a request. -/
  | submit
  /-- The worker takes a request. -/
  | take
  /-- The next step of the worker, where the code leaves no choice. -/
  | work
  /-- `fast_read` returns. -/
  | fastRead (r : IoResult)
  /-- `RegisterWaitForSingleObject` returns, with an error if it has not registered the wait. -/
  | register (error : Option ErrorCode)
  /-- A request that is not a read is completed by `device::process_io`, or fails there. -/
  | other (result : Completion)
  /-- `stdin` is signaled, and the wait fires. -/
  | fire
  /-- `handle_ready_callback` -/
  | callback
  /-- `stdin_irq_handler` -/
  | irq
deriving DecidableEq

namespace HostConsole

/-- No request has been queued, and no wait registered. -/
def init : HostConsole where
  queue := .init
  stage := .idle
  waitHandle := false
  armed := false
  callbacks := 0
  irqs := 0
  completed _ := none

variable (d : DeviceId) (frame : IrpId → Request)

/-- The request is completed, and the worker goes on to the next one. -/
def complete (s : HostConsole) (i : IrpId) (result : Completion) : HostConsole :=
  { s with completed := update s.completed i (some result), stage := .idle }

/-- A step of `process_io`, or `queue_pending_io`. -/
def work (s : HostConsole) : Option HostConsole :=
  match s.stage with
  | .idle | .reading _ | .arming _ => none
  | .entered i =>
    if (frame i).kind = ioRead then
      some (if s.waitHandle then { s with waitHandle := false, stage := .cancelling i }
        else { s with stage := .reading i })
    else none
  | .cancelling i => some { s with armed := false, stage := .reading i }
  | .queueing i => do
    let q ← s.queue.queuePending d i
    some { s with queue := q, stage := .idle }

/-- The next state, or none where the event does not apply. -/
def next (s : HostConsole) : ConsoleEvent → Option HostConsole
  | .submit => do
    let q ← s.queue.submit d
    some { s with queue := q }
  | .take =>
    if s.stage = .idle then do
      let (irp, q) ← s.queue.take d
      some { s with queue := q, stage := irp.elim .idle .entered }
    else none
  | .work => s.work d frame
  | .fastRead r =>
    match s.stage with
    | .reading i =>
      match r with
      | .ok bytes => some (s.complete i (.ok (some bytes)))
      | .err _ => some { s with stage := .arming i }
    | _ => none
  | .register error =>
    match s.stage with
    | .arming i =>
      match error with
      | none => some { s with waitHandle := true, armed := true, stage := .queueing i }
      | some e => if e = .ioPending then none else some (s.complete i (.err e))
    | _ => none
  | .other result =>
    match s.stage with
    | .entered i =>
      if (frame i).kind ≠ ioRead ∧ result.code ≠ .ioPending then some (s.complete i result) else none
    | _ => none
  | .fire => if s.armed then some { s with armed := false, callbacks := s.callbacks + 1 } else none
  | .callback =>
    if s.callbacks = 0 then none
    else some { s with callbacks := s.callbacks - 1, irqs := s.irqs + 1 }
  | .irq =>
    if s.irqs = 0 then none
    else do
      let q ← s.queue.requeuePending d fun i ↦ (frame i).kind = ioRead
      some { s with queue := q, irqs := s.irqs - 1 }

/-- The device `d`, whose `n`-th request is `frame n`. -/
def machine : Machine HostConsole ConsoleEvent where
  init := init
  next := next d frame

variable {d} {frame} {s s' : HostConsole} {e : ConsoleEvent} {xs ys : List IrpId} {i : IrpId}

/-! ## No more interrupts than reads -/

/-- The read that has registered a wait and is not in `pending_irps_` yet. -/
def window (s : HostConsole) : List IrpId :=
  match s.stage with
  | .queueing i => [i]
  | _ => []

/-- The handle and the wait are as the stage says. -/
def Handled (s : HostConsole) : Prop :=
  match s.stage with
  | .cancelling _ => s.waitHandle = false
  | .reading _ | .arming _ => s.waitHandle = false ∧ s.armed = false
  | _ => s.armed = true → s.waitHandle = true

/-- No wait, callback or interrupt is there without a read that it is for. -/
structure Paired (d : DeviceId) (frame : IrpId → Request) (s : HostConsole)
    (xs ys : List IrpId) : Prop where
  lists : s.queue.Spells d xs ys s.stage.hand?
  handled : s.Handled
  /-- Only reads wait. -/
  reads : ∀ i ∈ ys, (frame i).kind = ioRead
  hand : ∀ i, s.stage.hand? = some i → s.stage ≠ .entered i → (frame i).kind = ioRead
  balance : s.armed.toNat + s.callbacks + s.irqs ≤ (ys ++ s.window).length

theorem Paired.work (h : s.Paired d frame xs ys) (hn : s.work d frame = some s') :
    ∃ ys', s'.Paired d frame xs ys' := by
  obtain ⟨hlists, hhandled, hreads, hhand, hbal⟩ := h
  rw [HostConsole.work] at hn
  cases hs : s.stage with
  | idle | reading | arming => simp [hs] at hn
  | entered i =>
    simp only [hs] at hn
    simp only [hs, ConsoleStage.hand?] at hlists
    simp only [Handled, hs] at hhandled
    simp only [window, hs] at hbal
    split at hn
    · rename_i hk
      cases hw : s.waitHandle with
      | true =>
        simp only [hw, if_true] at hn
        cases hn
        exact ⟨ys, ⟨hlists, rfl, hreads, fun j hj _ ↦ (by cases hj; exact hk), hbal⟩⟩
      | false =>
        simp only [hw, Bool.false_eq_true, if_false] at hn
        cases hn
        refine ⟨ys, ⟨hlists, ⟨rfl, ?_⟩, hreads, fun j hj _ ↦ (by cases hj; exact hk), hbal⟩⟩
        dsimp only
        by_contra ha
        rw [hhandled (by simpa using ha)] at hw
        cases hw
    · cases hn
  | cancelling i =>
    simp only [hs] at hn
    cases hn
    simp only [hs, ConsoleStage.hand?] at hlists
    simp only [Handled, hs] at hhandled
    simp only [window, hs] at hbal
    refine ⟨ys, ⟨hlists, ⟨hhandled, rfl⟩, hreads, fun j hj _ ↦ ?_, ?_⟩⟩
    · cases hj
      exact hhand i (by rw [hs]; rfl) (by simp [hs])
    · simp only [window, Bool.toNat_false]
      omega
  | queueing i =>
    simp only [hs] at hn
    simp only [hs, ConsoleStage.hand?] at hlists
    simp only [Handled, hs] at hhandled
    simp only [window, hs] at hbal
    obtain ⟨q, hq, hs'⟩ := Option.bind_eq_some_iff.mp hn
    cases hs'
    obtain ⟨q', hq', -, hlists'⟩ := hlists.queuePending
    cases hq.symm.trans hq'
    refine ⟨ys ++ [i], ⟨hlists', hhandled, fun j hj ↦ ?_, fun j hj ↦ (by cases hj), ?_⟩⟩
    · simp only [List.mem_append, List.mem_singleton] at hj
      rcases hj with hj | rfl
      · exact hreads j hj
      · exact hhand j (by rw [hs]; rfl) (by simp [hs])
    · simpa [window] using hbal

/-- A request leaves the worker's hand. -/
theorem Paired.complete (h : s.Paired d frame xs ys) (hs : ∀ i, s.stage ≠ .queueing i)
    (ha : s.armed = true → s.waitHandle = true) (result : Completion) :
    (s.complete i result).Paired d frame xs ys where
  lists := h.lists.release
  handled := ha
  reads := h.reads
  hand j hj := by cases hj
  balance := by
    have hw : s.window = [] := by
      unfold window
      split
      · exact absurd ‹_› (hs _)
      · rfl
    have := h.balance
    rw [hw] at this
    exact this

theorem Paired.next (h : s.Paired d frame xs ys) (hn : s.next d frame e = some s') :
    ∃ xs ys, s'.Paired d frame xs ys := by
  have hlists := h.lists
  have hhandled := h.handled
  have hbal := h.balance
  cases e with
  | submit =>
    obtain ⟨q, hq, hs⟩ := Option.bind_eq_some_iff.mp hn
    cases hs
    obtain ⟨q', hq', -, hlists'⟩ := hlists.submit
    cases hq.symm.trans hq'
    exact ⟨_, _, hlists', hhandled, h.reads, h.hand, hbal⟩
  | take =>
    simp only [HostConsole.next] at hn
    split at hn
    swap
    · cases hn
    rename_i hs
    simp only [hs, ConsoleStage.hand?] at hlists
    simp only [Handled, hs] at hhandled
    simp only [window, hs] at hbal
    obtain ⟨⟨irp, q⟩, hq, hs'⟩ := Option.bind_eq_some_iff.mp hn
    cases hs'
    cases xs with
    | nil =>
      cases hq.symm.trans hlists.take_nil
      exact ⟨_, _, hlists, hhandled, h.reads, fun j hj ↦ (by cases hj), hbal⟩
    | cons i xs =>
      obtain ⟨q', hq', -, hlists'⟩ := hlists.take_cons
      cases hq.symm.trans hq'
      refine ⟨_, _, hlists', hhandled, h.reads, fun j hj hne ↦ ?_, hbal⟩
      cases hj
      exact absurd rfl hne
  | work =>
    obtain ⟨ys', h'⟩ := h.work hn
    exact ⟨_, _, h'⟩
  | fastRead r =>
    simp only [HostConsole.next] at hn
    cases hs : s.stage with
    | reading i =>
      simp only [hs] at hn
      simp only [Handled, hs] at hhandled
      cases r with
      | ok bytes =>
        cases hn
        exact ⟨_, _, h.complete (by simp [hs]) (fun ha ↦ by rw [hhandled.2] at ha; cases ha) _⟩
      | err e =>
        cases hn
        simp only [hs, ConsoleStage.hand?] at hlists
        simp only [window, hs] at hbal
        refine ⟨_, _, hlists, hhandled, h.reads, fun j hj _ ↦ ?_, hbal⟩
        cases hj
        exact h.hand i (by rw [hs]; rfl) (by simp [hs])
    | _ => simp [hs] at hn
  | register error =>
    simp only [HostConsole.next] at hn
    cases hs : s.stage with
    | arming i =>
      simp only [hs] at hn
      simp only [Handled, hs] at hhandled
      cases error with
      | none =>
        cases hn
        simp only [hs, ConsoleStage.hand?] at hlists
        simp only [window, hs, hhandled.2, Bool.toNat_false, List.append_nil] at hbal
        refine ⟨_, _, hlists, fun _ ↦ rfl, h.reads, fun j hj _ ↦ ?_, ?_⟩
        · cases hj
          exact h.hand i (by rw [hs]; rfl) (by simp [hs])
        · simp only [window, Bool.toNat_true, List.length_append, List.length_singleton]
          omega
      | some e =>
        simp only at hn
        split at hn
        · cases hn
        · cases hn
          exact ⟨_, _, h.complete (by simp [hs]) (fun ha ↦ by rw [hhandled.2] at ha; cases ha) _⟩
    | _ => simp [hs] at hn
  | other result =>
    simp only [HostConsole.next] at hn
    cases hs : s.stage with
    | entered i =>
      simp only [hs] at hn
      simp only [Handled, hs] at hhandled
      split at hn
      · cases hn
        exact ⟨_, _, h.complete (by simp [hs]) hhandled _⟩
      · cases hn
    | _ => simp [hs] at hn
  | fire =>
    simp only [HostConsole.next] at hn
    split at hn
    · rename_i ha
      cases hn
      refine ⟨_, _, hlists, ?_, h.reads, h.hand, ?_⟩
      · simp only [Handled] at hhandled ⊢
        cases hs : s.stage <;> simp_all
      · simp only [ha, Bool.toNat_true] at hbal
        simp only [Bool.toNat_false]
        exact Nat.le_trans (by omega) hbal
    · cases hn
  | callback =>
    simp only [HostConsole.next] at hn
    split at hn
    · cases hn
    · cases hn
      exact ⟨_, _, hlists, hhandled, h.reads, h.hand, Nat.le_trans (by simp only; omega) hbal⟩
  | irq =>
    simp only [HostConsole.next] at hn
    split at hn
    · cases hn
    · rename_i hirq
      obtain ⟨q, hq, hs⟩ := Option.bind_eq_some_iff.mp hn
      cases hs
      cases hf : ys.find? (fun i ↦ (frame i).kind = ioRead) with
      | none => rw [hlists.requeuePending_none hf] at hq; cases hq
      | some i =>
        obtain ⟨q', hq', -, hlists'⟩ := hlists.requeuePending_some hf
        cases hq.symm.trans hq'
        have hi := List.mem_of_find?_eq_some hf
        refine ⟨_, _, hlists', hhandled, fun j hj ↦ h.reads j (List.mem_of_mem_erase hj), h.hand,
          ?_⟩
        have hlen := List.length_erase_of_mem hi
        have hpos := List.length_pos_of_mem hi
        rw [List.length_append] at hbal ⊢
        have hw : ({ s with queue := q, irqs := s.irqs - 1 } : HostConsole).window = s.window := rfl
        rw [hw, hlen]
        simp only
        omega

theorem paired_init : init.Paired d frame [] [] where
  lists := DeviceQueue.spells_init
  handled h := by cases h
  reads _ h := by cases h
  hand _ h := by cases h
  balance := Nat.le_refl _

theorem paired_of_reachable (h : (machine d frame).Reachable s) :
    ∃ xs ys, s.Paired d frame xs ys :=
  h.invariant (I := fun s ↦ ∃ xs ys, s.Paired d frame xs ys) ⟨_, _, paired_init⟩
    fun _ _ _ _ ⟨_, _, hs⟩ hn ↦ hs.next hn

/-- The worker is about to `queue_pending_io` of the only read that waits. -/
def InWindow (d : DeviceId) (s : HostConsole) : Prop :=
  ∃ i ∈ s.window, s.queue.pending d = []

/-- **An interrupt finds a read, except in the window.** -/
theorem requeue_isSome_iff (h : (machine d frame).Reachable s) (hk : s.irqs ≠ 0) :
    (s.queue.requeuePending d fun i ↦ (frame i).kind = ioRead).isSome ↔ ¬ s.InWindow d := by
  obtain ⟨xs, ys, hs⟩ := paired_of_reachable h
  rw [InWindow, hs.lists.pending_eq]
  cases hy : ys with
  | cons i is =>
    have hf : ys.find? (fun i ↦ (frame i).kind = ioRead) = some i := by
      rw [hy, List.find?_cons_of_pos]
      simpa using hs.reads i (by simp [hy])
    obtain ⟨q, hq, -⟩ := hs.lists.requeuePending_some hf
    rw [hq]
    simp
  | nil =>
    rw [hs.lists.requeuePending_none (by rw [hy]; rfl)]
    have hpos : s.window ≠ [] := by
      have := hs.balance
      rw [hy] at this
      rintro hw
      rw [hw] at this
      simp only [List.append_nil, List.length_nil] at this
      omega
    simpa [List.eq_nil_iff_forall_not_mem] using hpos

/-! ## Readers that nobody wakes -/

/-- Something will queue a pending read again, or a read is queued. -/
def Watched (frame : IrpId → Request) (s : HostConsole) (xs : List IrpId) : Prop :=
  s.armed = true ∨ 0 < s.callbacks ∨ 0 < s.irqs ∨ ∃ i ∈ xs, (frame i).kind = ioRead

/-- If a read is pending, then a wait is registered, its callback or interrupt is in flight, or a
read is queued for the worker or processed by it. -/
def Awaited (d : DeviceId) (frame : IrpId → Request) (s : HostConsole) : Prop :=
  (∃ i ∈ s.queue.pending d, (frame i).kind = ioRead) →
    s.Watched frame (s.queue.irps d) ∨ ∃ i, s.stage.hand? = some i ∧ (frame i).kind = ioRead

/-- A read is completed only if no other read is pending, or if something else will process a
read. -/
def LeavesNobody (d : DeviceId) (frame : IrpId → Request) (s : HostConsole) : ConsoleEvent → Prop
  | .fastRead (.ok _) | .register (some _) => s.queue.pending d = [] ∨ 0 < s.callbacks ∨
    0 < s.irqs ∨
    ∃ i ∈ s.queue.irps d, (frame i).kind = ioRead
  | _ => True

instance (s : HostConsole) (e : ConsoleEvent) : Decidable (s.LeavesNobody d frame e) := by
  unfold LeavesNobody
  split <;> infer_instance

/-- A read that waits is watched over, or the worker is on its way to a read. -/
structure Alert (frame : IrpId → Request) (s : HostConsole) (xs ys : List IrpId) : Prop where
  window : ∀ i, s.stage = .queueing i → s.Watched frame xs
  pending : ys ≠ [] → s.Watched frame xs ∨ ∃ i, s.stage.hand? = some i ∧ (frame i).kind = ioRead

theorem Watched.mono (h : s.Watched frame xs) {xs' : List IrpId} (ha : s'.armed = s.armed)
    (hcb : s'.callbacks = s.callbacks) (hirq : s'.irqs = s.irqs)
    (hx : ∀ i ∈ xs, (frame i).kind = ioRead → i ∈ xs') : s'.Watched frame xs' := by
  rw [Watched, ha, hcb, hirq]
  exact h.imp id (Or.imp id (Or.imp id fun ⟨i, hi, hk⟩ ↦ ⟨i, hx i hi hk, hk⟩))

/-- The worker's request stays in its hand, and it is a read. -/
theorem Alert.of_hand {j : IrpId} (hj : s.stage.hand? = some j) (hk : (frame j).kind = ioRead)
    (hs : ∀ i, s.stage ≠ .queueing i) : s.Alert frame xs ys :=
  ⟨fun i hi ↦ absurd hi (hs i), fun _ ↦ Or.inr ⟨j, hj, hk⟩⟩

theorem Alert.work (h : s.Alert frame xs ys) (hp : s.Paired d frame xs ys)
    (hn : s.work d frame = some s') :
    ∃ ys', s'.queue.Spells d xs ys' s'.stage.hand? ∧ s'.Alert frame xs ys' := by
  obtain ⟨ys₁, hp'⟩ := hp.work hn
  rw [HostConsole.work] at hn
  cases hs : s.stage with
  | idle | reading | arming => simp [hs] at hn
  | entered i =>
    simp only [hs] at hn
    split at hn
    · rename_i hk
      cases hn
      refine ⟨ys₁, hp'.lists, ?_⟩
      cases hw : s.waitHandle with
      | true => exact Alert.of_hand (j := i) (by simp [ConsoleStage.hand?]) hk (by simp)
      | false => exact Alert.of_hand (j := i) (by simp [ConsoleStage.hand?]) hk (by simp)
    · cases hn
  | cancelling i =>
    simp only [hs] at hn
    cases hn
    have hk := hp.hand i (by rw [hs]; rfl) (by simp [hs])
    exact ⟨ys₁, hp'.lists, Alert.of_hand (j := i) rfl hk (by simp)⟩
  | queueing i =>
    simp only [hs] at hn
    obtain ⟨q, hq, hs'⟩ := Option.bind_eq_some_iff.mp hn
    cases hs'
    have hwatch : s.Watched frame xs := h.window i hs
    exact ⟨ys₁, hp'.lists, fun j hj ↦ (by cases hj), fun _ ↦ Or.inl hwatch⟩

/-- A request is completed. -/
theorem Alert.complete {i : IrpId} {result : Completion}
    (hc : ys = [] ∨ s.Watched frame xs) : (s.complete i result).Alert frame xs ys where
  window j hj := by cases hj
  pending hne := Or.inl (hc.resolve_left hne)

theorem Alert.next (h : s.Alert frame xs ys) (hp : s.Paired d frame xs ys)
    (hc : s.LeavesNobody d frame e) (hn : s.next d frame e = some s') :
    ∃ xs ys, s'.queue.Spells d xs ys s'.stage.hand? ∧ s'.Alert frame xs ys := by
  have hlists := hp.lists
  cases e with
  | submit =>
    obtain ⟨q, hq, hs⟩ := Option.bind_eq_some_iff.mp hn
    cases hs
    obtain ⟨q', hq', -, hlists'⟩ := hlists.submit
    cases hq.symm.trans hq'
    have hmono : s.Watched frame xs →
        ({ s with queue := q } : HostConsole).Watched frame (xs ++ [s.queue.queued]) :=
      fun hw ↦ hw.mono rfl rfl rfl fun i hi _ ↦ List.mem_append_left _ hi
    exact ⟨_, _, hlists', fun i hi ↦ hmono (h.window i hi), fun hne ↦ (h.pending hne).imp hmono id⟩
  | take =>
    simp only [HostConsole.next] at hn
    split at hn
    swap
    · cases hn
    rename_i hs
    simp only [hs, ConsoleStage.hand?] at hlists
    obtain ⟨⟨irp, q⟩, hq, hs'⟩ := Option.bind_eq_some_iff.mp hn
    cases hs'
    cases xs with
    | nil =>
      cases hq.symm.trans hlists.take_nil
      refine ⟨_, _, hlists, fun i hi ↦ (by cases hi), fun hne ↦ ?_⟩
      rcases h.pending hne with hw | ⟨j, hj, -⟩
      · exact Or.inl hw
      · rw [hs] at hj; cases hj
    | cons i xs =>
      obtain ⟨q', hq', -, hlists'⟩ := hlists.take_cons
      cases hq.symm.trans hq'
      refine ⟨_, _, hlists', fun j hj ↦ (by cases hj), fun hne ↦ ?_⟩
      by_cases hk : (frame i).kind = ioRead
      · exact Or.inr ⟨i, rfl, hk⟩
      · rcases h.pending hne with hw | ⟨j, hj, -⟩
        · refine Or.inl (hw.mono rfl rfl rfl fun j hj hjk ↦ ?_)
          rcases List.mem_cons.mp hj with rfl | hj
          · exact absurd hjk hk
          · exact hj
        · rw [hs] at hj; cases hj
  | work =>
    obtain ⟨ys', h'⟩ := h.work hp hn
    exact ⟨_, _, h'⟩
  | fastRead r =>
    simp only [HostConsole.next] at hn
    cases hs : s.stage with
    | reading i =>
      simp only [hs] at hn
      simp only [hs, ConsoleStage.hand?] at hlists
      cases r with
      | ok bytes =>
        cases hn
        simp only [LeavesNobody, hp.lists.pending_eq, hp.lists.irps_eq] at hc
        exact ⟨_, _, hlists.release, Alert.complete (hc.imp id Or.inr)⟩
      | err e =>
        cases hn
        have hk := hp.hand i (by rw [hs]; rfl) (by simp [hs])
        exact ⟨_, _, hlists, Alert.of_hand (j := i) rfl hk (by simp)⟩
    | _ => simp [hs] at hn
  | register error =>
    simp only [HostConsole.next] at hn
    cases hs : s.stage with
    | arming i =>
      simp only [hs] at hn
      simp only [hs, ConsoleStage.hand?] at hlists
      cases error with
      | none =>
        cases hn
        exact ⟨_, _, hlists, fun _ _ ↦ Or.inl rfl, fun _ ↦ Or.inl (Or.inl rfl)⟩
      | some e =>
        simp only at hn
        split at hn
        · cases hn
        · cases hn
          simp only [LeavesNobody, hp.lists.pending_eq, hp.lists.irps_eq] at hc
          exact ⟨_, _, hlists.release, Alert.complete (hc.imp id Or.inr)⟩
    | _ => simp [hs] at hn
  | other result =>
    simp only [HostConsole.next] at hn
    cases hs : s.stage with
    | entered i =>
      simp only [hs] at hn
      simp only [hs, ConsoleStage.hand?] at hlists
      split at hn
      · rename_i hk
        cases hn
        refine ⟨_, _, hlists.release, Alert.complete ?_⟩
        by_cases hy : ys = []
        · exact Or.inl hy
        · rcases h.pending hy with hw | ⟨j, hj, hjk⟩
          · exact Or.inr hw
          · rw [hs] at hj
            cases hj
            exact absurd hjk hk.1
      · cases hn
    | _ => simp [hs] at hn
  | fire =>
    simp only [HostConsole.next] at hn
    split at hn
    · cases hn
      have hw : ({ s with armed := false, callbacks := s.callbacks + 1 } : HostConsole).Watched
          frame xs := Or.inr (Or.inl (Nat.succ_pos _))
      exact ⟨_, _, hlists, fun _ _ ↦ hw, fun _ ↦ Or.inl hw⟩
    · cases hn
  | callback =>
    simp only [HostConsole.next] at hn
    split at hn
    · cases hn
    · cases hn
      have hw : ({ s with callbacks := s.callbacks - 1, irqs := s.irqs + 1 } : HostConsole).Watched
          frame xs := Or.inr (Or.inr (Or.inl (Nat.succ_pos _)))
      exact ⟨_, _, hlists, fun _ _ ↦ hw, fun _ ↦ Or.inl hw⟩
  | irq =>
    simp only [HostConsole.next] at hn
    split at hn
    · cases hn
    · obtain ⟨q, hq, hs⟩ := Option.bind_eq_some_iff.mp hn
      cases hs
      cases hf : ys.find? (fun i ↦ (frame i).kind = ioRead) with
      | none => rw [hlists.requeuePending_none hf] at hq; cases hq
      | some i =>
        obtain ⟨q', hq', -, hlists'⟩ := hlists.requeuePending_some hf
        cases hq.symm.trans hq'
        have hw : ({ s with queue := q, irqs := s.irqs - 1 } : HostConsole).Watched frame
            (xs ++ [i]) :=
          Or.inr (Or.inr (Or.inr ⟨i, by simp, by simpa using List.find?_some hf⟩))
        exact ⟨_, _, hlists', fun _ _ ↦ hw, fun _ ↦ Or.inl hw⟩

theorem alert_of_reachable (h : (machine d frame).ReachableWhile (LeavesNobody d frame) s) :
    ∃ xs ys, s.queue.Spells d xs ys s.stage.hand? ∧ s.Alert frame xs ys :=
  h.invariant (I := fun s ↦ ∃ xs ys, s.queue.Spells d xs ys s.stage.hand? ∧ s.Alert frame xs ys)
    ⟨[], [], DeviceQueue.spells_init, fun _ hi ↦ (by cases hi), fun hne ↦ absurd rfl hne⟩
    fun s e s' hs ⟨xs, ys, hl, ha⟩ hc hn ↦ by
      obtain ⟨xs', ys', hp⟩ := paired_of_reachable hs.reachable
      obtain rfl := hl.irps_eq.symm.trans hp.lists.irps_eq
      obtain rfl := hl.pending_eq.symm.trans hp.lists.pending_eq
      exact ha.next hp hc hn

theorem Alert.awaited (h : s.Alert frame xs ys) (hlists : s.queue.Spells d xs ys s.stage.hand?) :
    s.Awaited d frame := by
  rintro ⟨i, hi, -⟩
  rw [hlists.pending_eq] at hi
  rw [hlists.irps_eq]
  exact h.pending (List.ne_nil_of_mem hi)

/-- **No reader is stranded**, as long as no read is completed over the head of another one. -/
theorem awaited_of_pending (h : (machine d frame).ReachableWhile (LeavesNobody d frame) s) :
    s.Awaited d frame := by
  obtain ⟨xs, ys, hlists, halert⟩ := alert_of_reachable h
  exact halert.awaited hlists

/-! ## One reader at a time -/

/-- The requests that are queued, pending or in the worker's hand. -/
def requests (s : HostConsole) (xs ys : List IrpId) : List IrpId :=
  s.stage.hand?.toList ++ (xs ++ ys)

/-- Other steps than `submit` bring no request. -/
theorem Paired.requests_subperm (hp : s.Paired d frame xs ys) (he : e ≠ .submit)
    (hn : s.next d frame e = some s') : ∃ xs' ys', s'.queue.Spells d xs' ys' s'.stage.hand? ∧
      (s'.requests xs' ys').Subperm (s.requests xs ys) := by
  have hlists := hp.lists
  cases e with
  | submit => exact absurd rfl he
  | take =>
    simp only [HostConsole.next] at hn
    split at hn
    swap
    · cases hn
    rename_i hs
    simp only [hs, ConsoleStage.hand?] at hlists
    obtain ⟨⟨irp, q⟩, hq, hs'⟩ := Option.bind_eq_some_iff.mp hn
    cases hs'
    cases xs with
    | nil =>
      cases hq.symm.trans hlists.take_nil
      exact ⟨_, _, hlists, by simp [requests, hs, ConsoleStage.hand?, List.Subperm.refl]⟩
    | cons i xs =>
      obtain ⟨q', hq', -, hlists'⟩ := hlists.take_cons
      cases hq.symm.trans hq'
      exact ⟨_, _, hlists', by simp [requests, hs, ConsoleStage.hand?, List.Subperm.refl]⟩
  | work =>
    simp only [HostConsole.next, HostConsole.work] at hn
    cases hs : s.stage with
    | idle | reading | arming => simp [hs] at hn
    | entered i =>
      simp only [hs] at hn
      simp only [hs, ConsoleStage.hand?] at hlists
      split at hn
      · cases hn
        split <;> exact ⟨_, _, hlists,
          by simp [requests, hs, ConsoleStage.hand?, List.Subperm.refl]⟩
      · cases hn
    | cancelling i =>
      simp only [hs] at hn
      cases hn
      simp only [hs, ConsoleStage.hand?] at hlists
      exact ⟨_, _, hlists, by simp [requests, hs, ConsoleStage.hand?, List.Subperm.refl]⟩
    | queueing i =>
      simp only [hs] at hn
      simp only [hs, ConsoleStage.hand?] at hlists
      obtain ⟨q, hq, hs'⟩ := Option.bind_eq_some_iff.mp hn
      cases hs'
      obtain ⟨q', hq', -, hlists'⟩ := hlists.queuePending
      cases hq.symm.trans hq'
      refine ⟨_, _, hlists', ?_⟩
      simp only [requests, hs, ConsoleStage.hand?, Option.toList_none, Option.toList_some]
      -- the request has gone from the hand to the end
      rw [List.nil_append, ← List.append_assoc]
      exact List.perm_append_comm.subperm
  | fastRead r =>
    simp only [HostConsole.next] at hn
    cases hs : s.stage with
    | reading i =>
      simp only [hs] at hn
      cases r with
      | ok bytes =>
        cases hn
        exact ⟨_, _, hlists.release, (List.sublist_append_right _ _).subperm⟩
      | err e =>
        cases hn
        simp only [hs, ConsoleStage.hand?] at hlists
        exact ⟨_, _, hlists, by simp [requests, hs, ConsoleStage.hand?, List.Subperm.refl]⟩
    | _ => simp [hs] at hn
  | register error =>
    simp only [HostConsole.next] at hn
    cases hs : s.stage with
    | arming i =>
      simp only [hs] at hn
      cases error with
      | none =>
        cases hn
        simp only [hs, ConsoleStage.hand?] at hlists
        exact ⟨_, _, hlists, by simp [requests, hs, ConsoleStage.hand?, List.Subperm.refl]⟩
      | some e =>
        simp only at hn
        split at hn
        · cases hn
        · cases hn
          exact ⟨_, _, hlists.release, (List.sublist_append_right _ _).subperm⟩
    | _ => simp [hs] at hn
  | other result =>
    simp only [HostConsole.next] at hn
    cases hs : s.stage with
    | entered i =>
      simp only [hs] at hn
      split at hn
      · cases hn
        exact ⟨_, _, hlists.release, (List.sublist_append_right _ _).subperm⟩
      · cases hn
    | _ => simp [hs] at hn
  | fire =>
    simp only [HostConsole.next] at hn
    split at hn
    · cases hn
      exact ⟨_, _, hlists, List.Subperm.refl _⟩
    · cases hn
  | callback =>
    simp only [HostConsole.next] at hn
    split at hn
    · cases hn
    · cases hn
      exact ⟨_, _, hlists, List.Subperm.refl _⟩
  | irq =>
    simp only [HostConsole.next] at hn
    split at hn
    · cases hn
    · obtain ⟨q, hq, hs⟩ := Option.bind_eq_some_iff.mp hn
      cases hs
      cases hf : ys.find? (fun i ↦ (frame i).kind = ioRead) with
      | none => rw [hlists.requeuePending_none hf] at hq; cases hq
      | some i =>
        obtain ⟨q', hq', -, hlists'⟩ := hlists.requeuePending_some hf
        cases hq.symm.trans hq'
        refine ⟨_, _, hlists', List.Perm.subperm (List.Perm.append_left _ ?_)⟩
        rw [List.append_assoc]
        exact (List.perm_cons_erase (List.mem_of_find?_eq_some hf)).symm.append_left xs

/-- The reads among the requests. -/
def unfinishedReads (frame : IrpId → Request) (s : HostConsole) (xs ys : List IrpId) : List IrpId :=
  (s.requests xs ys).filter fun i ↦ (frame i).kind = ioRead

/-- A read is only submitted while no other one is queued, pending or in the worker's hand. -/
def OneReader (d : DeviceId) (frame : IrpId → Request) (s : HostConsole) : ConsoleEvent → Prop
  | .submit => (frame s.queue.queued).kind = ioRead →
    s.unfinishedReads frame (s.queue.irps d) (s.queue.pending d) = []
  | _ => True

theorem Paired.unfinishedReads_le_one (hp : s.Paired d frame xs ys)
    (hle : (s.unfinishedReads frame xs ys).length ≤ 1)
    (hc : s.OneReader d frame e) (hn : s.next d frame e = some s') :
    ∃ xs' ys', s'.queue.Spells d xs' ys' s'.stage.hand? ∧
      (s'.unfinishedReads frame xs' ys').length ≤ 1 := by
  by_cases he : e = .submit
  · subst he
    obtain ⟨q, hq, hs⟩ := Option.bind_eq_some_iff.mp hn
    cases hs
    obtain ⟨q', hq', -, hlists'⟩ := hp.lists.submit
    cases hq.symm.trans hq'
    refine ⟨_, _, hlists', ?_⟩
    simp only [OneReader, hp.lists.irps_eq, hp.lists.pending_eq] at hc
    by_cases hk : (frame s.queue.queued).kind = ioRead
    · have hnil := hc hk
      simp only [unfinishedReads, requests, List.filter_append, List.append_eq_nil_iff] at hnil ⊢
      simp [hnil, hk]
    · simp only [unfinishedReads, requests, List.filter_append, List.length_append] at hle ⊢
      simpa [hk] using hle
  · obtain ⟨xs', ys', hlists', hsub⟩ := hp.requests_subperm he hn
    exact ⟨xs', ys', hlists', Nat.le_trans (hsub.filter _).length_le hle⟩

/-- With one read at most, its completion leaves nobody. -/
theorem Paired.leavesNobody (hp : s.Paired d frame xs ys)
    (hle : (s.unfinishedReads frame xs ys).length ≤ 1)
    (hn : s.next d frame e = some s') : s.LeavesNobody d frame e := by
  have hnone : ∀ i, s.stage.hand? = some i → s.stage ≠ .entered i → s.queue.pending d = [] := by
    intro i hi hne
    have hk := hp.hand i hi hne
    have hys : ys.filter (fun i ↦ (frame i).kind = ioRead) = ys :=
      List.filter_eq_self.mpr fun j hj ↦ by simpa using hp.reads j hj
    have hone : [i].filter (fun i ↦ (frame i).kind = ioRead) = [i] := by simp [hk]
    simp only [unfinishedReads, requests, hi, List.filter_append, hys, hone, List.length_append,
      Option.toList_some, List.length_singleton] at hle
    rw [hp.lists.pending_eq]
    exact List.eq_nil_of_length_eq_zero (by omega)
  unfold LeavesNobody
  split
  · simp only [HostConsole.next] at hn
    cases hs : s.stage with
    | reading i => exact Or.inl (hnone i (by rw [hs]; rfl) (by simp [hs]))
    | _ => simp [hs] at hn
  · simp only [HostConsole.next] at hn
    cases hs : s.stage with
    | arming i => exact Or.inl (hnone i (by rw [hs]; rfl) (by simp [hs]))
    | _ => simp [hs] at hn
  · trivial

/-- **One reader at a time is not stranded.** -/
theorem awaited_of_oneReader (h : (machine d frame).ReachableWhile (OneReader d frame) s) :
    s.Awaited d frame := by
  obtain ⟨hrun, -⟩ :=
    h.invariant (I := fun s ↦ (machine d frame).ReachableWhile (LeavesNobody d frame) s ∧
      ∃ xs ys, s.queue.Spells d xs ys s.stage.hand? ∧ (s.unfinishedReads frame xs ys).length ≤ 1)
    ⟨.init, [], [], DeviceQueue.spells_init, Nat.zero_le 1⟩
    fun s e s' hs ⟨hrun, xs, ys, hl, hle⟩ hc hn ↦ by
      obtain ⟨xs', ys', hp⟩ := paired_of_reachable hs.reachable
      obtain rfl := hl.irps_eq.symm.trans hp.lists.irps_eq
      obtain rfl := hl.pending_eq.symm.trans hp.lists.pending_eq
      exact ⟨hrun.step (hp.leavesNobody hle hn) hn, hp.unfinishedReads_le_one hle hc hn⟩
  obtain ⟨xs, ys, hlists, halert⟩ := alert_of_reachable hrun
  exact halert.awaited hlists

/-! ## Runs -/

/-- Only reads. -/
def onlyReads (i : IrpId) : Request := ⟨ioRead, ⟨i, 8⟩⟩

/-- A reader waits for a key. -/
def waitForKey : List ConsoleEvent :=
  [.take, .work, .fastRead (.err .slowIo), .register none, .work]

/-- A second reader cancels the wait of the first one and registers its own. -/
def waitToo : List ConsoleEvent :=
  [.take, .work, .work, .fastRead (.err .slowIo), .register none, .work]

/-- One reader waits. -/
theorem awaited_of_pending_one :
    let s := (machine 0 onlyReads).afterWhile (LeavesNobody 0 onlyReads) (.submit :: waitForKey)
    s.queue.pending 0 = [0] ∧ s.Awaited 0 onlyReads :=
  ⟨by decide +kernel, awaited_of_pending (Machine.reachableWhile_afterWhile _)⟩

/-- Two readers wait, and a key is pressed.  The first one takes it and has cancelled the wait, and
nothing wakes the second one. -/
theorem stranded : ∃ s, (machine 0 onlyReads).Reachable s ∧ s.queue.pending 0 = [1] ∧
    ¬ s.Awaited 0 onlyReads := by
  let s := (machine 0 onlyReads).after (([.submit, .submit] : List ConsoleEvent) ++
      waitForKey ++ waitToo ++
    ([.fire, .callback, .irq, .take, .work, .work, .fastRead (.ok 1)] : List ConsoleEvent))
  have hpend : s.queue.pending 0 = [1] := by decide +kernel
  have hirps : s.queue.irps 0 = [] := by decide +kernel
  have hrest : s.armed = false ∧ s.callbacks = 0 ∧ s.irqs = 0 ∧ s.stage = .idle := by decide +kernel
  obtain ⟨ha, hcb, hirq, hstage⟩ := hrest
  refine ⟨s, Machine.reachable_after _, hpend, fun hw ↦ ?_⟩
  rcases hw ⟨1, by simp [hpend], rfl⟩ with (hw | hw | hw | ⟨i, hi, -⟩) | ⟨i, hi, -⟩
  · rw [ha] at hw; cases hw
  · rw [hcb] at hw; cases hw
  · rw [hirq] at hw; cases hw
  · rw [hirps] at hi; cases hi
  · rw [hstage] at hi; cases hi

end HostConsole

end Chino
