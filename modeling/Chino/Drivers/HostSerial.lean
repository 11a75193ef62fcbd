import Chino.Drivers.DeviceQueue
import Chino.Library.Run

/-!
# The serial port of the host

`host_serial.cpp` has one `irq_overlapped` for each direction.  It is the argument of the operation
that the host is given, the place where its result arrives, and the flag that tells a new request
from a finished one: `process_io` starts an operation if the error is `io_pending`, and completes
its request with what the record says otherwise.

One step is one access to the record by the worker, one call of the host, one statement of
`port_io_completed`, or one interrupt handler.  Host threads run at any time, and so do interrupts,
for nothing here disables them for longer than a step.

The fields `started`, `finished` and `completed` are not in the code.  They record over which
buffers operations were started for a request, what the last of them came to, and what the request
was completed with.

## The record

An `irq_overlapped` goes through the same states over and over: it says `io_pending` when nothing
was begun, an operation of the host writes the number of bytes and then the error to it, the
interrupt queues a request again, the worker completes that request and resets the record.
`FlightStage` has the places of the host in this, between the call and the interrupt.

`Counted` is the invariant that this module proves of the two directions: every request that waits
has an operation in flight, or an interrupt that will come for one of them.  The numbers agree, for
any number of requests, although the record is one.  Whose operation the record belongs to is the
subject of `Chino.Drivers.SerialLanes`.

`requeue_isSome_iff` is what the count says about an interrupt: it finds a pending request of its
direction, except in the window.
-/

set_option autoImplicit false

namespace Chino

open Function (update)

/-- Reads and writes have a lane each. -/
inductive Direction where
  | rx
  | tx
deriving DecidableEq

namespace Direction

/-- The requests of a direction. -/
def kind : Direction → IoFrameKind
  | rx => ioRead
  | tx => ioWrite

/-- The `switch` of `process_io`. -/
def ofKind? (kind : IoFrameKind) : Option Direction :=
  if kind = ioRead then some rx else if kind = ioWrite then some tx else none

@[simp] theorem kind_inj {k k' : Direction} : k.kind = k'.kind ↔ k = k' := by
  cases k <;> cases k' <;> decide

theorem ofKind?_eq_some {kind : IoFrameKind} {k : Direction} :
    ofKind? kind = some k ↔ kind = k.kind := by
  cases k
  · by_cases hk : kind = ioRead
    · simp [ofKind?, hk, Direction.kind]
    · by_cases hk' : kind = ioWrite <;> simp [ofKind?, hk', hk, Direction.kind]
  · by_cases hk : kind = ioRead
    · simp [ofKind?, hk, Direction.kind, ioRead, ioWrite]
    · by_cases hk' : kind = ioWrite
      · simp [ofKind?, hk', Direction.kind, ioRead, ioWrite]
      · simp [ofKind?, hk', hk, Direction.kind]

end Direction

/-- `hal::win32_to_error_code` -/
def win32ToErrorCode (win32 : UInt32) : ErrorCode := if win32 = 0 then .success else .fail

theorem win32ToErrorCode_ne (win32 : UInt32) : win32ToErrorCode win32 ≠ .ioPending := by
  unfold win32ToErrorCode; split <;> simp

/-- `ERROR_IO_PENDING` -/
def errorIoPending : UInt32 := 997

/-- What an operation of the host came to: its error code and its number of bytes. -/
def completionOf (win32 bytes : UInt32) : Completion :=
  if win32ToErrorCode win32 = .success then .ok (some bytes.toNat) else .err (win32ToErrorCode win32)

/-- How far an operation of the host is. -/
inductive FlightStage where
  | running
  /-- `port_io_completed` has stored the error, and is about to store the number of bytes. -/
  | stored (bytes : UInt32)
  /-- It is about to send the interrupt. -/
  | sending
deriving DecidableEq

/-- An operation that the host was given, until its interrupt is sent. -/
structure Flight where
  irp : IrpId
  direction : Direction
  buffer : Buffer
  stage : FlightStage
deriving DecidableEq

/-- Where the worker is with the device. -/
inductive SerialStage where
  /-- With no request of the device. -/
  | idle
  /-- In `process_io`, about to look at the error. -/
  | entered (i : IrpId)
  /-- About to reset the `OVERLAPPED`. -/
  | resetting (i : IrpId)
  /-- About to call `ReadFile` or `WriteFile`. -/
  | issuing (i : IrpId)
  /-- About to complete the request with the record. -/
  | finishing (i : IrpId)
  /-- About to set the error to `io_pending` again. -/
  | clearing (i : IrpId)
  /-- Back from `process_io`, about to `queue_pending_io`. -/
  | queueing (i : IrpId)
deriving DecidableEq

namespace SerialStage

/-- The request the worker works on. -/
def subject? : SerialStage → Option IrpId
  | idle => none
  | entered i | resetting i | issuing i | finishing i | clearing i | queueing i => some i

/-- The request that is in the worker's hand and not completed. -/
def hand? : SerialStage → Option IrpId
  | idle | clearing _ => none
  | entered i | resetting i | issuing i | finishing i | queueing i => some i

end SerialStage

/-- The device with the overlapped structures of its two lanes. -/
structure HostSerial where
  queue : DeviceQueue
  stage : SerialStage
  /-- `rx_overlapped_.error` and `tx_overlapped_.error` -/
  error : Direction → ErrorCode
  /-- `rx_overlapped_.bytes_transferred` and `tx_overlapped_.bytes_transferred` -/
  bytes : Direction → UInt32
  flights : List Flight
  /-- Interrupts that were sent and not yet handled. -/
  irqs : Direction → ℕ
  started : IrpId → List Buffer
  finished : IrpId → Option Completion
  completed : IrpId → Option Completion

/-- What threads, the worker and the host do. -/
inductive SerialEvent where
  /-- A thread queues a request. -/
  | submit
  /-- The worker takes a request. -/
  | take
  /-- The next step of the worker, where the code leaves no choice. -/
  | work
  /-- `ReadFile` or `WriteFile` returns, with an error if it has not started the operation. -/
  | issue (win32 : Option UInt32)
  /-- A request that is neither a read nor a write is completed by `device::process_io`, or fails
  there. -/
  | other (result : Completion)
  /-- An operation comes to its end, and `port_io_completed` stores the error. -/
  | finish (f : Flight) (win32 bytes : UInt32)
  /-- The next statement of `port_io_completed`. -/
  | callback (f : Flight)
  /-- `rx_irq_handler` or `tx_irq_handler` -/
  | irq (k : Direction)
deriving DecidableEq

namespace HostSerial

/-- No request has been queued, and nothing is in flight. -/
def init : HostSerial where
  queue := .init
  stage := .idle
  error _ := .ioPending
  bytes _ := 0
  flights := []
  irqs _ := 0
  started _ := []
  finished _ := none
  completed _ := none

variable (d : DeviceId) (frame : IrpId → Request)

/-- A step of `process_io`, or `queue_pending_io`. -/
def work (s : HostSerial) : Option HostSerial :=
  match s.stage with
  | .idle | .issuing _ => none
  | .entered i => do
    let k ← Direction.ofKind? (frame i).kind
    some { s with stage := if s.error k = .ioPending then .resetting i else .finishing i }
  | .resetting i => some { s with stage := .issuing i }
  | .finishing i => do
    let k ← Direction.ofKind? (frame i).kind
    some { s with
      completed := update s.completed i (some (if s.error k = .success
        then .ok (some (s.bytes k).toNat) else .err (s.error k)))
      stage := .clearing i }
  | .clearing i => do
    let k ← Direction.ofKind? (frame i).kind
    some { s with error := update s.error k .ioPending, stage := .idle }
  | .queueing i => do
    let q ← s.queue.queuePending d i
    some { s with queue := q, stage := .idle }

/-- `TRY_WIN32_IO_IF_NOT(ReadFile(..))`, or `WriteFile`. -/
def issue (s : HostSerial) (win32 : Option UInt32) : Option HostSerial :=
  match s.stage with
  | .issuing i => do
    let k ← Direction.ofKind? (frame i).kind
    let started := update s.started i (s.started i ++ [(frame i).buffer])
    match win32 with
    | none => some { s with
        started := started
        flights := ⟨i, k, (frame i).buffer, .running⟩ :: s.flights
        stage := .queueing i }
    | some win32 =>
      if win32 = 0 ∨ win32 = errorIoPending then none
      else some { s with
        started := started
        finished := update s.finished i (some (.err (win32ToErrorCode win32)))
        completed := update s.completed i (some (.err (win32ToErrorCode win32)))
        stage := .idle }
  | _ => none

/-- A statement of `port_io_completed` after the first one. -/
def callback (s : HostSerial) (f : Flight) : Option HostSerial :=
  if f ∈ s.flights then
    match f.stage with
    | .running => none
    | .stored bytes => some { s with
        bytes := update s.bytes f.direction bytes
        flights := { f with stage := .sending } :: s.flights.erase f }
    | .sending => some { s with
        irqs := update s.irqs f.direction (s.irqs f.direction + 1)
        flights := s.flights.erase f }
  else none

/-- The next state, or none where the event does not apply. -/
def next (s : HostSerial) : SerialEvent → Option HostSerial
  | .submit => do
    let q ← s.queue.submit d
    some { s with queue := q }
  | .take =>
    if s.stage = .idle then do
      let (irp, q) ← s.queue.take d
      some { s with queue := q, stage := irp.elim .idle .entered }
    else none
  | .work => s.work d frame
  | .issue win32 => s.issue frame win32
  | .other result =>
    match s.stage with
    | .entered i =>
      if Direction.ofKind? (frame i).kind = none ∧ result.code ≠ .ioPending then
        some { s with completed := update s.completed i (some result), stage := .idle }
      else none
    | _ => none
  | .finish f win32 bytes =>
    if f ∈ s.flights ∧ f.stage = .running then some { s with
      error := update s.error f.direction (win32ToErrorCode win32)
      flights := { f with stage := .stored bytes } :: s.flights.erase f
      finished := update s.finished f.irp (some (completionOf win32 bytes)) }
    else none
  | .callback f => s.callback f
  | .irq k =>
    if s.irqs k = 0 then none
    else do
      let q ← s.queue.requeuePending d fun i ↦ (frame i).kind = k.kind
      some { s with queue := q, irqs := update s.irqs k (s.irqs k - 1) }

/-- The device `d`, whose `n`-th request is `frame n`. -/
def machine : Machine HostSerial SerialEvent where
  init := init
  next := next d frame

variable {d} {frame} {s s' : HostSerial} {e : SerialEvent} {xs ys : List IrpId} {k : Direction}

/-! ## As many requests as operations -/

/-- The request that has an operation and is not in `pending_irps_` yet. -/
def window (s : HostSerial) : List IrpId :=
  match s.stage with
  | .queueing i => [i]
  | _ => []

/-- The request asks for this direction. -/
def asks (frame : IrpId → Request) (k : Direction) (i : IrpId) : Bool := (frame i).kind = k.kind

/-- Every request that waits has an operation or an interrupt that will come for one of them. -/
structure Counted (d : DeviceId) (frame : IrpId → Request) (s : HostSerial)
    (xs ys : List IrpId) : Prop where
  lists : s.queue.Spells d xs ys s.stage.hand?
  balance : ∀ k, s.flights.countP (fun f ↦ f.direction = k) + s.irqs k
    = (ys ++ s.window).countP (asks frame k)

/-- One element is looked at, and counts the same whatever is done with it. -/
theorem countP_erase_add {α : Type} [DecidableEq α] (p : α → Bool) {l : List α} {a : α}
    (ha : a ∈ l) : (l.erase a).countP p + (if p a then 1 else 0) = l.countP p := by
  rw [(List.perm_cons_erase ha).countP_eq p, List.countP_cons]

theorem ofKind?_asks {i : IrpId} (h : Direction.ofKind? (frame i).kind = some k)
    (k' : Direction) : asks frame k' i = decide (k = k') := by
  rw [asks, Direction.ofKind?_eq_some.mp h]
  simp

theorem Counted.work (h : s.Counted d frame xs ys) (hn : s.work d frame = some s') :
    ∃ ys', s'.Counted d frame xs ys' := by
  have hlists := h.lists
  have hbal := h.balance
  rw [HostSerial.work] at hn
  cases hstage : s.stage with
  | idle | issuing i => simp [hstage] at hn
  | entered i =>
    simp only [hstage] at hn
    obtain ⟨k, hk, hs⟩ := Option.bind_eq_some_iff.mp hn
    cases hs
    simp only [hstage, SerialStage.hand?] at hlists
    refine ⟨ys, ⟨?_, fun k' ↦ ?_⟩⟩
    · dsimp only
      split <;> exact hlists
    · have hw : ∀ st : SerialStage, (st = .resetting i ∨ st = .finishing i) →
          ({ s with stage := st } : HostSerial).window = s.window := by
        rintro st (rfl | rfl) <;> simp [window, hstage]
      rw [hw _ (by split <;> simp)]
      exact hbal k'
  | resetting i =>
    simp only [hstage] at hn
    cases hn
    simp only [hstage, SerialStage.hand?] at hlists
    simp only [window, hstage] at hbal
    exact ⟨ys, ⟨hlists, hbal⟩⟩
  | finishing i =>
    simp only [hstage] at hn
    obtain ⟨k, hk, hs⟩ := Option.bind_eq_some_iff.mp hn
    cases hs
    simp only [window, hstage] at hbal
    exact ⟨ys, ⟨hlists.release, hbal⟩⟩
  | clearing i =>
    simp only [hstage] at hn
    obtain ⟨k, hk, hs⟩ := Option.bind_eq_some_iff.mp hn
    cases hs
    simp only [hstage, SerialStage.hand?] at hlists
    simp only [window, hstage] at hbal
    exact ⟨ys, ⟨hlists, hbal⟩⟩
  | queueing i =>
    simp only [hstage] at hn
    simp only [hstage, SerialStage.hand?] at hlists
    simp only [window, hstage] at hbal
    obtain ⟨q, hq, hs⟩ := Option.bind_eq_some_iff.mp hn
    cases hs
    obtain ⟨q', hq', -, hlists'⟩ := hlists.queuePending
    cases hq.symm.trans hq'
    exact ⟨ys ++ [i], ⟨hlists', fun k ↦ by rw [hbal k]; simp [window]⟩⟩

theorem Counted.issue (h : s.Counted d frame xs ys) {win32 : Option UInt32}
    (hn : s.issue frame win32 = some s') : s'.Counted d frame xs ys := by
  have hlists := h.lists
  have hbal := h.balance
  rw [HostSerial.issue] at hn
  cases hstage : s.stage with
  | issuing i =>
    simp only [hstage] at hn
    simp only [hstage, SerialStage.hand?] at hlists
    simp only [window, hstage] at hbal
    obtain ⟨k, hk, hs⟩ := Option.bind_eq_some_iff.mp hn
    cases win32 with
    | none =>
      cases hs
      refine ⟨hlists, fun k' ↦ ?_⟩
      have := hbal k'
      simp only [window, List.countP_append, List.countP_cons, ofKind?_asks hk, List.append_nil,
        List.countP_nil] at this ⊢
      omega
    | some code =>
      simp only at hs
      split at hs
      · cases hs
      · cases hs
        exact ⟨hlists.release, hbal⟩
  | _ => simp [hstage] at hn

theorem Counted.callback (h : s.Counted d frame xs ys) {f : Flight}
    (hn : s.callback f = some s') : s'.Counted d frame xs ys := by
  rw [HostSerial.callback] at hn
  split at hn
  swap
  · cases hn
  rename_i hf
  cases hstage : f.stage with
  | running => simp [hstage] at hn
  | stored bytes =>
    simp only [hstage] at hn
    cases hn
    refine ⟨h.lists, fun k ↦ (Eq.trans ?_ (h.balance k))⟩
    have := countP_erase_add (fun f : Flight ↦ decide (f.direction = k)) hf
    simp only [List.countP_cons]
    omega
  | sending =>
    simp only [hstage] at hn
    cases hn
    refine ⟨h.lists, fun k ↦ (Eq.trans ?_ (h.balance k))⟩
    have := countP_erase_add (fun f : Flight ↦ decide (f.direction = k)) hf
    by_cases hk : f.direction = k
    · subst hk
      simp only [decide_true, if_true] at this
      simp only [Function.update_self]
      omega
    · simp only [hk, decide_false, Bool.false_eq_true, if_false] at this
      simp only [Function.update_of_ne (Ne.symm hk)]
      omega

/-- The lists and the numbers after an interrupt. -/
theorem Counted.irq (h : s.Counted d frame xs ys) {q : DeviceQueue} (hk : s.irqs k ≠ 0)
    (hq : s.queue.requeuePending d (fun i ↦ (frame i).kind = k.kind) = some q) :
    ∃ i, ({ s with queue := q, irqs := update s.irqs k (s.irqs k - 1) } : HostSerial).Counted d frame
      (xs ++ [i]) (ys.erase i) := by
  cases hf : ys.find? (fun i ↦ (frame i).kind = k.kind) with
  | none => rw [h.lists.requeuePending_none hf] at hq; cases hq
  | some i =>
    obtain ⟨q', hq', -, hlists⟩ := h.lists.requeuePending_some hf
    cases hq.symm.trans hq'
    refine ⟨i, hlists, fun k' ↦ ?_⟩
    have hbal := h.balance k'
    have hkind : (frame i).kind = k.kind := by simpa using List.find?_some hf
    have hcount := countP_erase_add (asks frame k') (List.mem_of_find?_eq_some hf)
    have hw : ({ s with queue := q, irqs := update s.irqs k (s.irqs k - 1) } : HostSerial).window
        = s.window := rfl
    rw [hw]
    rw [List.countP_append] at hbal ⊢
    rw [asks, hkind] at hcount
    by_cases hkk : k = k'
    · subst hkk
      simp only [decide_true, if_true] at hcount
      simp only [Function.update_self]
      omega
    · simp only [Direction.kind_inj, hkk, decide_false, Bool.false_eq_true, if_false] at hcount
      simp only [Function.update_of_ne (Ne.symm hkk)]
      omega

theorem Counted.next (h : s.Counted d frame xs ys) (hn : s.next d frame e = some s') :
    ∃ xs ys, s'.Counted d frame xs ys := by
  cases e with
  | submit =>
    obtain ⟨q, hq, hs⟩ := Option.bind_eq_some_iff.mp hn
    cases hs
    obtain ⟨q', hq', -, hlists⟩ := h.lists.submit
    cases hq.symm.trans hq'
    exact ⟨_, _, hlists, h.balance⟩
  | take =>
    simp only [HostSerial.next] at hn
    split at hn
    swap
    · cases hn
    rename_i hstage
    have hlists := h.lists
    have hbal := h.balance
    simp only [hstage, SerialStage.hand?] at hlists
    simp only [window, hstage] at hbal
    obtain ⟨⟨irp, q⟩, hq, hs⟩ := Option.bind_eq_some_iff.mp hn
    cases hs
    cases xs with
    | nil =>
      cases hq.symm.trans hlists.take_nil
      exact ⟨_, _, hlists, hbal⟩
    | cons i xs =>
      obtain ⟨q', hq', -, hlists'⟩ := hlists.take_cons
      cases hq.symm.trans hq'
      exact ⟨_, _, hlists', hbal⟩
  | work =>
    obtain ⟨ys', h'⟩ := h.work hn
    exact ⟨_, _, h'⟩
  | issue win32 => exact ⟨_, _, h.issue hn⟩
  | other result =>
    simp only [HostSerial.next] at hn
    cases hstage : s.stage with
    | entered i =>
      simp only [hstage] at hn
      split at hn
      · cases hn
        have hbal := h.balance
        simp only [window, hstage] at hbal
        exact ⟨_, _, h.lists.release, hbal⟩
      · cases hn
    | _ => simp [hstage] at hn
  | finish f win32 bytes =>
    simp only [HostSerial.next] at hn
    split at hn
    · rename_i hf
      cases hn
      refine ⟨_, _, h.lists, fun k ↦ (Eq.trans ?_ (h.balance k))⟩
      have := countP_erase_add (fun f : Flight ↦ decide (f.direction = k)) hf.1
      simp only [List.countP_cons]
      omega
    · cases hn
  | callback f => exact ⟨_, _, h.callback hn⟩
  | irq k =>
    simp only [HostSerial.next] at hn
    split at hn
    · cases hn
    · rename_i hk
      obtain ⟨q, hq, hs⟩ := Option.bind_eq_some_iff.mp hn
      cases hs
      obtain ⟨i, h'⟩ := h.irq hk hq
      exact ⟨_, _, h'⟩

theorem counted_init : init.Counted d frame [] [] where
  lists := DeviceQueue.spells_init
  balance _ := rfl

theorem counted_of_reachable (h : (machine d frame).Reachable s) :
    ∃ xs ys, s.Counted d frame xs ys :=
  h.invariant (I := fun s ↦ ∃ xs ys, s.Counted d frame xs ys) ⟨_, _, counted_init⟩
    fun _ _ _ _ ⟨_, _, hs⟩ hn ↦ hs.next hn

/-- The worker is about to `queue_pending_io` of the only request of the direction that waits. -/
def InWindow (d : DeviceId) (frame : IrpId → Request) (s : HostSerial) (k : Direction) : Prop :=
  ∃ i ∈ s.window, asks frame k i ∧ ∀ j ∈ s.queue.pending d, asks frame k j = false

/-- **An interrupt finds a request, except in the window.** -/
theorem requeue_isSome_iff (h : (machine d frame).Reachable s) (hk : s.irqs k ≠ 0) :
    (s.queue.requeuePending d fun i ↦ (frame i).kind = k.kind).isSome ↔ ¬ s.InWindow d frame k := by
  obtain ⟨xs, ys, hs⟩ := counted_of_reachable h
  cases hf : ys.find? (fun i ↦ (frame i).kind = k.kind) with
  | some i =>
    obtain ⟨q, hq, -⟩ := hs.lists.requeuePending_some hf
    refine iff_of_true (by rw [hq]; rfl) ?_
    rintro ⟨_, -, -, hnone⟩
    rw [hs.lists.pending_eq] at hnone
    have := hnone i (List.mem_of_find?_eq_some hf)
    rw [asks, List.find?_some hf] at this
    cases this
  | none =>
    rw [hs.lists.requeuePending_none hf]
    refine iff_of_false (by simp) (not_not.mpr ?_)
    have hnone : ∀ j ∈ ys, asks frame k j = false := by
      simpa [asks] using List.find?_eq_none.mp hf
    have hzero : ys.countP (asks frame k) = 0 :=
      List.countP_eq_zero.mpr fun j hj ↦ by simp [hnone j hj]
    have hpos : 0 < s.window.countP (asks frame k) := by
      have := hs.balance k
      rw [List.countP_append] at this
      omega
    obtain ⟨i, hi, hik⟩ := List.countP_pos_iff.mp hpos
    exact ⟨i, hi, hik, by rwa [hs.lists.pending_eq]⟩

end HostSerial

end Chino
