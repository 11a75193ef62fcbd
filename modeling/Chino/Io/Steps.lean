import Chino.Io.Manager

/-!
# What a step of the I/O manager can do

`Acts device s L a s' L'` lists the outcomes of an action, one constructor for each kind of step,
with the sequences `L` and `L'` that the lists of the devices spell out before and after it.  Steps
that differ only in where their caller is inside of a call are one constructor with a `CallMoves`,
and steps of the worker between two requests are one constructor `turn`.

`Acts` presumes that nothing is put on a list which is on one already; `Chino.Io.Places` shows that
this is so, and gets from there to `Acts` by `Inv.acts`.

## Why there is a list of steps

A property of the I/O manager would have to be checked for every action of the program, and many of
these differ only in their place in the code.  `Acts` has one constructor for each way in which the
requests, the lists, the work list and the events change.  Each constructor says in its arguments
what the guard was and in its index what the next state is, so an invariant is checked by cases on
it with no need to unfold the program.

The sequences `L` and `L'` are part of the relation: a constructor that puts a request at the end of
a list says `L'` in terms of `L`, and how the pointers do this is left to `Chino.Io.Device`.
-/

set_option autoImplicit false

namespace Chino

open Function (update)

/-- The call a driver on the worker is in. -/
def Phase.call? : Phase → Option Call
  | processing _ _ _ _ call => call
  | _ => none

/-- The call has not queued its request yet. -/
def Call.early : Call → Bool
  | allocated _ | filled _ => true
  | _ => false

/-- The request an activation has taken off a list and neither queued nor completed since. -/
def Phase.held : Phase → Option IrpId
  | processing _ i _ hand _ | checking _ i _ hand => if hand = .gone then none else some i
  | completing _ i _ _ stage _ => if stage = .deliver then none else some i
  | parking _ i => some i
  | _ => none

theorem Phase.call?_of_irp? {p : Phase} (h : p.irp? = none) : p.call? = none := by
  cases p <;> first | rfl | cases h

theorem Phase.held_of_irp? {p : Phase} (h : p.irp? = none) : p.held = none := by
  cases p <;> first | rfl | cases h

namespace IoManager

/-- The steps of a call that concern nobody else: `CallMoves s x a c c'` takes the caller from `c`
to `c'`, where `none` is outside of a call. -/
inductive CallMoves (s : IoManager) (x : Caller) : IoAction → Option Call → Option Call → Prop
  | slow {f : FileId} {kind : IoFrameKind} {block : Option BlockId} :
      CallMoves s x (.fast x (.err .slowIo)) (some (.fast f kind block)) (some (.slow f kind block))
  | answered {f : FileId} {kind : IoFrameKind} {block : Option BlockId} {r : IoResult}
      (hr : r ≠ .err .slowIo) : CallMoves s x (.fast x r) (some (.fast f kind block)) none
  | exhausted {f : FileId} {kind : IoFrameKind} {block : Option BlockId} :
      CallMoves s x (.exhausted x) (some (.slow f kind block)) none
  | fill {i : IrpId} : CallMoves s x (.advance x) (some (.allocated i)) (some (.filled i))
  | watch {t : ThreadId} {i : IrpId} {frame : IoFrame} (hx : x = .thread t)
      (hf : (s.irp i).frames 0 = some frame) :
      CallMoves s x (.advance x) (some (.queued i)) (some (.waiting i frame.file))
  | awaited {i : IrpId} (hx : x = .worker) (hc : (s.irp i).isCompleted = true) :
      CallMoves s x (.advance x) (some (.queued i)) (some (.reading i))
  | wake {i : IrpId} {f : FileId} (hf : s.signal f = true) :
      CallMoves s x (.advance x) (some (.waiting i f)) (some (.reading i))
  | success {i : IrpId} (hc : (s.irp i).status.code = .success) :
      CallMoves s x (.advance x) (some (.reading i)) (some (.readingBytes i))
  | error {i : IrpId} (hc : (s.irp i).status.code ≠ .success) :
      CallMoves s x (.advance x) (some (.reading i))
        (some (.returning i (.err (s.irp i).status.code)))
  | bytes {i : IrpId} : CallMoves s x (.advance x) (some (.readingBytes i))
        (some (.returning i (.ok (s.irp i).status.bytesTransferred)))

/-- The caller is in the call `c`, or is free to call if that is `none`. -/
def InCall (s : IoManager) (x : Caller) (c : Option Call) : Prop :=
  match x with
  | .thread t => s.call t = c
  | .worker => ∃ w d i last hand as, s.stack = ⟨w, .processing d i last hand c⟩ :: as

@[simp] theorem setCall_irp (s : IoManager) (x : Caller) (c : Option Call) :
    (s.setCall x c).irp = s.irp := by
  unfold setCall; split <;> rfl

@[simp] theorem setCall_allocated (s : IoManager) (x : Caller) (c : Option Call) :
    (s.setCall x c).allocated = s.allocated := by
  unfold setCall; split <;> rfl

@[simp] theorem setCall_lists (s : IoManager) (x : Caller) (c : Option Call) :
    (s.setCall x c).lists = s.lists := by
  unfold setCall; split <;> rfl

@[simp] theorem setCall_signal (s : IoManager) (x : Caller) (c : Option Call) :
    (s.setCall x c).signal = s.signal := by
  unfold setCall; split <;> rfl

@[simp] theorem setCall_requeue (s : IoManager) (x : Caller) (c : Option Call) :
    (s.setCall x c).requeue = s.requeue := by
  unfold setCall; split <;> rfl

@[simp] theorem setCall_queued (s : IoManager) (x : Caller) (c : Option Call) :
    (s.setCall x c).queued = s.queued := by
  unfold setCall; split <;> rfl

@[simp] theorem setCall_outcome (s : IoManager) (x : Caller) (c : Option Call) :
    (s.setCall x c).outcome = s.outcome := by
  unfold setCall; split <;> rfl

@[simp] theorem setCall_drops (s : IoManager) (x : Caller) (c : Option Call) :
    (s.setCall x c).drops = s.drops := by
  unfold setCall; split <;> rfl

@[simp] theorem setCall_releases (s : IoManager) (x : Caller) (c : Option Call) :
    (s.setCall x c).releases = s.releases := by
  unfold setCall; split <;> rfl

/-- The lists and the work list after a `queue_io`. -/
def pushed (s : IoManager) (h' : IoLists) (work : Heap Unit DeviceId) (avail : Bool) : IoManager :=
  { s with lists := h', workList := work, workAvail := avail }

/-- What `register_device_process_io` does to the work list and its event. -/
inductive Registers (s : IoManager) (d : DeviceId) : Heap Unit DeviceId → Bool → Prop
  | linked (h : s.workList.inList d = true) : Registers s d s.workList s.workAvail
  | pushed {work : Heap Unit DeviceId} (h : s.workList.inList d = false)
      (hp : s.workList.pushBack () d = some work) : Registers s d work true

/-- The steps of the worker between two requests. -/
inductive Turns (s : IoManager) (L : IoQueues) :
    Phase → Phase → Heap Unit DeviceId → Bool → Prop
  | pick {d : DeviceId} {work : Heap Unit DeviceId} (hf : s.workList.front () = some d)
      (hr : s.workList.remove () d = some work) :
      Turns s L .picking (.popping d) work s.workAvail
  | sleep (hf : s.workList.front () = none) : Turns s L .picking .sleeping s.workList false
  | wake (ha : s.workAvail = true) : Turns s L .sleeping .picking s.workList s.workAvail
  | drained {d : DeviceId} (hL : L (.irps d) = []) :
      Turns s L (.popping d) .picking s.workList s.workAvail

variable (device : FileId → DeviceId)

/-- **What an action can do.** -/
inductive Acts (s : IoManager) (L : IoQueues) : IoAction → IoManager → IoQueues → Prop
  | dispatch {x : Caller} {f : FileId} {kind : IoFrameKind} {block : Option BlockId}
      (hx : s.InCall x none) : Acts s L (.dispatch x f kind block)
        ({ s with signal := update s.signal f false }.setCall x (some (.fast f kind block))) L
  | call {x : Caller} {a : IoAction} {c c' : Option Call} (hx : s.InCall x c)
      (hm : s.CallMoves x a c c') : Acts s L a (s.setCall x c') L
  | allocate {x : Caller} {f : FileId} {kind : IoFrameKind} {block : Option BlockId}
      (hx : s.InCall x (some (.slow f kind block))) :
      Acts s L (.advance x) ({ s with
        irp := update s.irp s.allocated (.construct block kind f)
        allocated := s.allocated + 1 }.setCall x (some (.allocated s.allocated))) L
  | enqueue {x : Caller} {i : IrpId} {frame : IoFrame} {c : Call} {h' : IoLists}
      {work : Heap Unit DeviceId} {avail : Bool} (hx : s.InCall x (some (.filled i)))
      (hf : (s.irp i).frames 0 = some frame)
      (hc : c = if (s.irp i).asyncIoBlock.isSome then .returning i (.err .ioPending) else .queued i)
      (hr : s.Registers (device frame.file) work avail) :
      Acts s L (.advance x)
        ({ (s.addRef i).pushed h' work avail with queued := update s.queued i true }.setCall x
          (some c))
        (update L (.irps (device frame.file)) (L (.irps (device frame.file)) ++ [i]))
  | await {i : IrpId} (hx : s.InCall .worker (some (.queued i)))
      (hc : (s.irp i).isCompleted = false) :
      Acts s L (.advance .worker) { s with stack := ⟨some i, .picking⟩ :: s.stack } L
  | drop {x : Caller} {i : IrpId} {r : IoResult} (hx : s.InCall x (some (.returning i r))) :
      Acts s L (.advance x) ((s.decRef i).setCall x none) L
  | turn {w : Option IrpId} {as : List Activation} {p p' : Phase} {work : Heap Unit DeviceId}
      {avail : Bool} (hs : s.stack = ⟨w, p⟩ :: as) (hp : p.irp? = none) (hp' : p'.irp? = none)
      (ht : s.Turns L p p' work avail) :
      Acts s L (.advance .worker)
        { s with workList := work, workAvail := avail, stack := ⟨w, p'⟩ :: as } L
  | pop {w : Option IrpId} {as : List Activation} {d : DeviceId} {i : IrpId} {is : List IrpId}
      {k : ℕ} {h' : IoLists} (hs : s.stack = ⟨w, .popping d⟩ :: as) (hL : L (.irps d) = i :: is)
      (hk : (s.irp i).currentFrame = some k) : Acts s L (.advance .worker)
        { s with lists := h', stack := ⟨w, .processing d i k .fresh none⟩ :: as }
        (update L (.irps d) is)
  | access {w : Option IrpId} {as : List Activation} {d : DeviceId} {i : IrpId} {last : ℕ}
      {hand : Hand} (hs : s.stack = ⟨w, .processing d i last hand none⟩ :: as)
      (hh : hand ≠ .gone) : Acts s L .access s L
  | start {w : Option IrpId} {as : List Activation} {d : DeviceId} {i : IrpId} {last : ℕ}
      {a : IoAction} {result : Completion} {inside : Bool}
      (hs : s.stack = ⟨w, .processing d i last .fresh none⟩ :: as) (hr : result.code ≠ .ioPending)
      (ha : a = .complete result ∨ ∃ e, a = .fail e) : Acts s L a
        { s with stack := ⟨w, .completing d i last result .code inside⟩ :: as } L
  | move {w : Option IrpId} {as : List Activation} {d : DeviceId} {i : IrpId} {last : ℕ}
      {kind : IoFrameKind} {f : FileId} {r : IoRequest}
      (hs : s.stack = ⟨w, .processing d i last .fresh none⟩ :: as)
      (hr : (s.irp i).moveNextFrame kind f = some r) : Acts s L (.move kind f)
        { s.setIrp i r with stack := ⟨w, .processing d i last .moved none⟩ :: as } L
  | handOver {w : Option IrpId} {as : List Activation} {d : DeviceId} {i : IrpId} {last k : ℕ}
      {frame : IoFrame} {h' : IoLists} {work : Heap Unit DeviceId} {avail : Bool}
      (hs : s.stack = ⟨w, .processing d i last .moved none⟩ :: as)
      (hk : (s.irp i).currentFrame = some k) (hk0 : k ≠ 0)
      (hf : (s.irp i).frames k = some frame) (hr : s.Registers (device frame.file) work avail) :
      Acts s L .queue
        { s.pushed h' work avail with
          queued := update s.queued i true
          stack := ⟨w, .processing d i last .gone none⟩ :: as }
        (update L (.irps (device frame.file)) (L (.irps (device frame.file)) ++ [i]))
  | finish {w : Option IrpId} {as : List Activation} {d : DeviceId} {i : IrpId} {last : ℕ}
      {hand : Hand} (hs : s.stack = ⟨w, .processing d i last hand none⟩ :: as)
      (hh : hand ≠ .moved) : Acts s L .finish
        { s with stack := ⟨w, .checking d i last hand⟩ :: as } L
  | code {w : Option IrpId} {as : List Activation} {d : DeviceId} {i : IrpId} {last : ℕ}
      {result : Completion} {inside : Bool}
      (hs : s.stack = ⟨w, .completing d i last result .code inside⟩ :: as) :
      Acts s L (.advance .worker) { s.setIrp i ((s.irp i).finishCode result) with
        stack := ⟨w, .completing d i last result .bytes inside⟩ :: as } L
  | bytes {w : Option IrpId} {as : List Activation} {d : DeviceId} {i : IrpId} {last : ℕ}
      {result : Completion} {inside : Bool}
      (hs : s.stack = ⟨w, .completing d i last result .bytes inside⟩ :: as) :
      Acts s L (.advance .worker) { s.setIrp i ((s.irp i).finishBytes result) with
        outcome := update s.outcome i (some result)
        stack := ⟨w, .completing d i last result .notify inside⟩ :: as } L
  | notify {w : Option IrpId} {as : List Activation} {d : DeviceId} {i : IrpId} {last k : ℕ}
      {result : Completion} {inside : Bool} {frame : IoFrame}
      (hs : s.stack = ⟨w, .completing d i last result .notify inside⟩ :: as)
      (hk : (s.irp i).currentFrame = some k) (hf : (s.irp i).frames k = some frame) :
      Acts s L (.advance .worker) { s with
        signal := update s.signal frame.file true
        stack := ⟨w, .completing d i last result .destroy inside⟩ :: as } L
  | destroy {w : Option IrpId} {as : List Activation} {d : DeviceId} {i : IrpId} {last k : ℕ}
      {result : Completion} {inside : Bool}
      (hs : s.stack = ⟨w, .completing d i last result .destroy inside⟩ :: as)
      (hk : (s.irp i).currentFrame = some k) : Acts s L (.advance .worker)
        { s.setIrp i (s.irp i).destroyFrame with
          stack := ⟨w, .completing d i last result (if k = 0 then .deliver else .notify) inside⟩ :: as }
        L
  | deliver {w : Option IrpId} {as : List Activation} {d : DeviceId} {i : IrpId} {last : ℕ}
      {result : Completion} {inside : Bool}
      (hs : s.stack = ⟨w, .completing d i last result .deliver inside⟩ :: as) :
      Acts s L (.advance .worker) { s with
        ready := s.ready ++ ((s.irp i).asyncIoBlock.map fun b ↦ (b, (s.irp i).status)).toList
        stack := ⟨w, if inside then .processing d i last .gone none
          else .checking d i last .gone⟩ :: as } L
  | check {w : Option IrpId} {as : List Activation} {d : DeviceId} {i : IrpId} {last : ℕ}
      {hand : Hand} {p : Phase} (hs : s.stack = ⟨w, .checking d i last hand⟩ :: as)
      (hp : (s.irp i).currentFrame = none ∧ p = .dropping d i ∨
        (∃ k, (s.irp i).currentFrame = some k ∧ k ≠ last) ∧ p = .popping d ∨
        (s.irp i).currentFrame = some last ∧ p = .parking d i) :
      Acts s L (.advance .worker) { s with stack := ⟨w, p⟩ :: as } L
  | release {w : Option IrpId} {as : List Activation} {d : DeviceId} {i : IrpId}
      (hs : s.stack = ⟨w, .dropping d i⟩ :: as) : Acts s L (.advance .worker)
        { s.decRef i with
          drops := update s.drops i (s.drops i + 1)
          stack := if w = some i then resume as else ⟨w, .popping d⟩ :: as } L
  | park {w : Option IrpId} {as : List Activation} {d : DeviceId} {i : IrpId} {h' : IoLists}
      (hs : s.stack = ⟨w, .parking d i⟩ :: as) : Acts s L (.advance .worker)
        { s with lists := h', stack := ⟨w, .popping d⟩ :: as }
        (update L (.pending d) (L (.pending d) ++ [i]))
  | irq {n : ℕ} {d : DeviceId} {pred : IoRequest → Bool} {i : IrpId} {h' : IoLists}
      (hn : s.requeue n = none) (hi : i ∈ L (.pending d)) : Acts s L (.irq n d pred)
        { s with lists := h', requeue := update s.requeue n (some (d, i)) }
        (update L (.pending d) ((L (.pending d)).erase i))
  | requeue {n : ℕ} {d : DeviceId} {i : IrpId} {h' : IoLists} {work : Heap Unit DeviceId}
      {avail : Bool} (hn : s.requeue n = some (d, i)) (hr : s.Registers d work avail) :
      Acts s L (.requeue n)
        { s.pushed h' work avail with requeue := update s.requeue n none }
        (update L (.irps d) (L (.irps d) ++ [i]))

end IoManager

end Chino
