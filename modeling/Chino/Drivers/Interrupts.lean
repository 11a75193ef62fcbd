import Chino.Drivers.HostConsole
import Chino.Drivers.SerialLanes

/-!
# Interrupts that find no request

The host is given its operation, or its wait, while the request is still in the worker's hand; it
goes to `pending_irps_` only after `process_io` has returned.  An interrupt that comes in between
finds the request nowhere.  If no other request of the kind is pending, the assertion of
`requeue_pending_io` fails, and without assertions a null request is queued.

Both drivers have as many requests that wait as there are interrupts still to come, so nothing else
can go wrong: `irq_finds_request_iff` is the exact condition.

This module puts the two drivers side by side.  The condition is about the state in which the
interrupt is handled: the worker is about to call `queue_pending_io` for the only request of the
kind that waits.  Both theorems behind it are equivalences in every reachable state with an
interrupt in flight, so the statement has no other condition, for any requests and in any
interleaving.

`irq_in_window` is the shortest run into the window: the host answers at once.
-/

set_option autoImplicit false

namespace Chino

open HostSerial (reads answer)
open HostConsole (onlyReads waitForKey)

/-- **An interrupt finds its request, except in the window** between the start of the operation and
`queue_pending_io`, if no other request waits. -/
theorem irq_finds_request_iff (d : DeviceId) (frame : IrpId → Request) :
    (∀ (s : HostSerial) (k : Direction),
      (HostSerial.machine d frame).Reachable s → s.irqs k ≠ 0 →
      ((s.queue.requeuePending d fun i ↦ (frame i).kind = k.kind).isSome ↔
        ¬ s.InWindow d frame k)) ∧
    ∀ s : HostConsole, (HostConsole.machine d frame).Reachable s → s.irqs ≠ 0 →
      ((s.queue.requeuePending d fun i ↦ (frame i).kind = ioRead).isSome ↔ ¬ s.InWindow d) :=
  ⟨fun _ _ h hk ↦ HostSerial.requeue_isSome_iff h hk,
    fun _ h hk ↦ HostConsole.requeue_isSome_iff h hk⟩

/-- A read of each device waits, and its interrupt is sent. -/
theorem irq_finds_request_iff_pending :
    let s := (HostSerial.machine 0 reads).after
      (([.submit] : List SerialEvent) ++ HostSerial.begin ++ (answer 0 .rx ⟨0, 8⟩ 5).dropLast)
    let c := (HostConsole.machine 0 onlyReads).after
      (([.submit] : List ConsoleEvent) ++ waitForKey ++ ([.fire, .callback] : List ConsoleEvent))
    ((s.queue.requeuePending 0 fun i ↦ (reads i).kind = Direction.rx.kind).isSome ↔
      ¬ s.InWindow 0 reads .rx) ∧
    ((c.queue.requeuePending 0 fun i ↦ (onlyReads i).kind = ioRead).isSome ↔ ¬ c.InWindow 0) :=
  ⟨(irq_finds_request_iff 0 reads).1 _ .rx (Machine.reachable_after _) (by decide +kernel),
    (irq_finds_request_iff 0 onlyReads).2 _ (Machine.reachable_after _) (by decide +kernel)⟩

/-- The host answers before the request is pending, and the interrupt handler finds nothing. -/
theorem irq_in_window :
    (∃ s, (HostSerial.machine 0 reads).Reachable s ∧ s.irqs .rx ≠ 0 ∧
      s.queue.requeuePending 0 (fun i ↦ (reads i).kind = Direction.rx.kind) = none) ∧
    ∃ s, (HostConsole.machine 0 onlyReads).Reachable s ∧ s.irqs ≠ 0 ∧
      s.queue.requeuePending 0 (fun i ↦ (onlyReads i).kind = ioRead) = none := by
  refine ⟨⟨(HostSerial.machine 0 reads).after (([.submit] : List SerialEvent) ++
      HostSerial.begin.dropLast ++
    (answer 0 .rx ⟨0, 8⟩ 5).dropLast), Machine.reachable_after _, by decide +kernel, ?_⟩,
    (HostConsole.machine 0 onlyReads).after
      (([.submit] : List ConsoleEvent) ++ waitForKey.dropLast ++
      ([.fire, .callback] : List ConsoleEvent)),
    Machine.reachable_after _, by decide +kernel, ?_⟩
  · rw [← Option.not_isSome_iff_eq_none]
    decide +kernel
  · rw [← Option.not_isSome_iff_eq_none]
    decide +kernel

end Chino
