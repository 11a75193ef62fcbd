import Chino.Drivers.Openers
import Chino.Io.OpenSteps

/-!
# What a failed open leaves

When the call has returned an error, all it ever took has been given back, unless the worker still
holds the request; and the file has been closed if the open had succeeded.  So nothing is left
behind exactly if the worker is done and the `close` of the driver gives back what was recorded.

`lwip_socket_device` has no `close`, so a `socket` that fails because the handle table is full
leaves its connection behind.

## The condition

The theorem is an equivalence for every state in which the call has returned an error, so it covers
every point at which it may have failed, and every place the worker may be at.

* **The worker.**  A slow open waits for the event of the file, not for its own request to be gone.
  It may therefore return while the worker still holds a reference of the request, and with it a
  frame that holds the file.  This is not a leak: the worker gives both back later.
* **The driver.**  `file::~file` calls the `close` of the device if the file was opened.  Whether
  that gives back what was recorded is up to the driver; the drivers of the host do,
  `lwip_socket_device` does not.

The two runs at the end show the second case on either side.
-/

set_option autoImplicit false

namespace Chino

namespace OpenCall

variable {k : Kernel} {s : OpenCall} {driver : DeviceId → OpenDriver} {request : OpenRequest}

/-- **The account is right at every point of a call.** -/
theorem inv_reachable (h : (machine driver request k).Reachable s) :
    ∃ code, s.Inv driver request k code := by
  refine h.invariant (I := fun s ↦ ∃ code, s.Inv driver request k code) ⟨_, inv_start k⟩ ?_
  rintro s a s' - ⟨code, hinv⟩ hn
  cases a with
  | advance => exact hinv.advance hn
  | worker => exact hinv.advanceWork hn

/-- **A failed call leaves nothing behind**, if and only if the worker has let go of the request and
the driver gives back what it has recorded in the file, once. -/
theorem failed_leavesNothing_iff {r : Except ErrorCode ℤ}
    (h : (machine driver request k).Reachable s) (hpc : s.pc = .returned r)
    (hr : wrapPosix r = -1) :
    LeavesNothing k s ↔ s.work = .idle ∧
      ∀ x ∈ s.recorded, ((driver s.device).close s.recorded.getLast?).count x = 1 := by
  obtain ⟨code, hinv⟩ := inv_reachable h
  obtain ⟨hhas, -, hrec, hfd⟩ := hinv.at hpc
  cases r with
  | ok fd =>
    have hpos := hfd fd rfl
    rw [show fd = -1 from hr] at hpos
    omega
  | error e =>
    -- without the worker the file was closed, if it ever was open
    have hclosed : s.work = .idle → s.recorded ≠ [] →
        s.released = (driver s.device).close s.recorded.getLast? := fun hwork hne ↦ by
      rw [hhas.released, hwork, hrec.resolve_left hne]
      rfl
    constructor
    · intro hl
      have hwork : s.work = .idle := by
        by_contra hwork
        have hirps := hhas.irps
        rw [if_neg (by simp [account, hwork])] at hirps
        exact hirps.entry_ne hl.irps
      refine ⟨hwork, fun x hx ↦ ?_⟩
      rw [← hclosed hwork (List.ne_nil_of_mem hx)]
      exact hl.released x hx
    · rintro ⟨hwork, hclose⟩
      have hd := hhas.deviceRefs
      obtain ⟨own, hhandles, hown⟩ := hhas.handles
      rw [hwork] at hhas hd
      refine ⟨hhas.files, hhas.irps, ?_, ?_, fun x hx ↦ ?_⟩
      · rw [Option.isSome_eq_false_iff.mp hown |> Option.isNone_iff_eq_none.mp] at hhandles
        exact hhandles
      · simpa [account, OpenPc.holdsFound, OpenPc.inserted, OpenPc.pointers,
          OpenWork.framed] using hd
      · rw [hclosed hwork (List.ne_nil_of_mem hx)]
        exact hclose x hx

/-! ## A full handle table -/

/-- There is room for a file, but the handle table is full. -/
def fullTable : Kernel where
  files := .unused _ 1
  irps := .unused _ 0
  handles := .unused _ 0
  deviceRefs _ := 0

/-- All the steps of a `socket` that gets no handle, for UDP. -/
def socketRun (driver : OpenDriver) : OpenCall :=
  (machine (fun _ ↦ driver) (.socket (some 0) afInet sockDgram 0) fullTable).after
    (List.replicate 10 .advance)

/-- A `SOCKET` is closed. -/
theorem socketRun_hostSocket :
    LeavesNothing fullTable (socketRun (hostSocket fun _ _ _ ↦ .ok 7)) :=
  (failed_leavesNothing_iff (Machine.reachable_after _) (r := .error .outOfMemory)
    (by decide +kernel) rfl).mpr (by decide +kernel)

/-- A `netconn` is not: the call has failed and the worker has nothing to do, but the connection
that was recorded was not given back. -/
theorem socketRun_lwipSocket :
    let s := socketRun (lwipSocket fun _ _ ↦ some 7)
    (machine (fun _ ↦ lwipSocket fun _ _ ↦ some 7) (.socket (some 0) afInet sockDgram 0)
      fullTable).Reachable s ∧ s.pc = .returned (.error .outOfMemory) ∧ s.work = .idle ∧
      s.recorded = [7] ∧ s.released = [] ∧ ¬ LeavesNothing fullTable s := by
  refine ⟨Machine.reachable_after _, by decide +kernel, by decide +kernel, by decide +kernel,
    by decide +kernel, fun h ↦ ?_⟩
  exact absurd (h.released 7 (by decide +kernel)) (by decide +kernel)

/-- There is room for a file and a request. -/
def roomForOpen : Kernel where
  files := .unused _ 1
  irps := .unused _ 1
  handles := .unused _ 1
  deviceRefs _ := 0

/-- A slow open fails.  The call hears of it while the worker has yet to destroy the frame. -/
def slowRun : OpenCall :=
  (machine (fun _ ↦ ⟨fun _ _ ↦ .err .slowIo, fun _ _ ↦ .err .notFound, none, Device.close⟩)
    (.openFile (.ok (0, []))) roomForOpen).after
    (List.replicate 7 .advance ++ List.replicate 2 .worker ++ List.replicate 6 .advance)

/-- It returns while the file and the request are still there. -/
example : slowRun.pc = .returned (.error .notFound) ∧ slowRun.work = .notified ∧
    (slowRun.files.entry slowRun.file).isSome ∧ (slowRun.irps.entry slowRun.irp).isSome := by
  decide +kernel

end OpenCall

end Chino
