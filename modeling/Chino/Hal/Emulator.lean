import Chino.Library.Count
import Chino.Library.Run
import Mathlib.Data.Fintype.Defs

/-!
# The emulated CPU

`src/os/hal/archs/emulator/emulator_cpu.cpp` runs every kernel thread on a thread of the host and
switches between them with `SuspendThread` and `ResumeThread`.  A host thread runs while its suspend
count is zero; `ResumeThread` on a thread that is not suspended does nothing.

* The CPU threads run `yield`, one statement at a time, from `ps::yield`, which disables interrupts
  around it.
* The event thread runs `process_irq`, one statement at a time.  It holds `irq_lock_` from the test
  of `emulator_irq_state` until it has suspended the current host thread.
* `disable_irq` and `restore_irq` are one step each: they hold `irq_lock_` all the time.

What the scheduler selects is part of the event.  `own` is not in the code: it is the interrupt
state a thread had when it last gave up the CPU, or has set since.

`yield` is still running on the old host thread when the new one is resumed, until it suspends
itself.  `current_host_thread_runs` says that nothing goes wrong unless a thread that is still there
is switched to: the resume is lost then.

## The invariant

At any time one of three has the CPU: the current kernel thread, a thread in the middle of its
`yield`, or the event thread.  `Control` says which, and for each of them who runs:

* in `yield`, before the switch is complete, the old host thread and, once it is resumed, the new
  one;
* in `process_irq`, nobody but the event thread once the current host thread is suspended;
* otherwise the current host thread alone.

A thread that has switched away still has to suspend itself, and does so behind the point at which
the new one may go on.  These tails are the difficulty: there may be many of them, and each of them
may be switched back to before it is through.  `YieldFacts` and `IrqFacts` list what is known before
each statement, and `ResumesSuspended` is the condition that no `ResumeThread` comes while its
target has not suspended itself.

`all_host_threads_suspended` is what happens otherwise, with two threads that yield to each other.
-/

set_option autoImplicit false

namespace Chino

open Function (update)

/-- Before which statement of `yield` a thread is. -/
inductive YieldPhase (T : Type) where
  /-- Elsewhere, or suspended in the last statement. -/
  | outside
  | entered
  | loaded (last : T)
  | saved (last : T)
  | switched (last : T)
  | chosen (last new : T)
  | stored (last new : T)
  | resuming (last new : T)
  | suspending (last : T)
deriving DecidableEq

/-- Before which statement of `process_irq` the event thread is. -/
inductive IrqPhase (T : Type) where
  | idle
  | acquired
  | loaded (cnt : T)
  | suspended
  | released
  | entered
  | saved
  | handling (last : T)
  | handled (last : T)
  | stored (new : T)
  | restored (new : T)
  | resuming (new : T)
deriving DecidableEq

/-- The event thread holds `irq_lock_`. -/
def IrqPhase.locks {T : Type} : IrqPhase T → Bool
  | acquired | loaded _ | suspended => true
  | _ => false

/-- The host threads, the interrupt state, and where the statements are. -/
structure Emulator (T : Type) where
  /-- `ps::current_thread()` -/
  scheduled : T
  /-- `current_thread_` -/
  currentThread : T
  /-- `emulator_irq_state` -/
  irqState : Bool
  /-- `emulator_in_irq_handler` -/
  inIrqHandler : Bool
  /-- `thread::emulator_irq_state` -/
  savedState : T → Bool
  suspendCount : T → ℕ
  yielding : T → YieldPhase T
  irq : IrqPhase T
  own : T → Bool

/-- What happens next. -/
inductive EmulatorEvent (T : Type) where
  /-- A thread runs `disable_irq` or `restore_irq`. -/
  | setIrq (t : T) (state : Bool)
  /-- A thread enters `yield`. -/
  | yield (t : T)
  /-- The next statement of `yield`; `next` is what `ps_switch_task` selects. -/
  | statement (t next : T)
  /-- The next statement of `process_irq`; `next` is what the handler makes current. -/
  | processIrq (next : T)
deriving DecidableEq

namespace Emulator

variable {T : Type} [DecidableEq T]

/-- The state after `start_schedule`: the other host threads were created suspended. -/
def init (first : T) (irqState : Bool) : Emulator T where
  scheduled := first
  currentThread := first
  irqState := irqState
  inIrqHandler := false
  savedState _ := true
  suspendCount t := if t = first then 0 else 1
  yielding _ := .outside
  irq := .idle
  own := update (fun _ ↦ true) first irqState

/-- `SuspendThread` -/
def suspendThread (s : Emulator T) (t : T) : Emulator T :=
  { s with suspendCount := update s.suspendCount t (s.suspendCount t + 1) }

/-- `ResumeThread` -/
def resumeThread (s : Emulator T) (t : T) : Emulator T :=
  { s with suspendCount := update s.suspendCount t (s.suspendCount t - 1) }

/-- The current kernel thread gives up the CPU with the interrupt state as it is. -/
def saveState (s : Emulator T) : Emulator T :=
  { s with
    savedState := update s.savedState s.scheduled s.irqState
    own := update s.own s.scheduled s.irqState }

/-- A thread goes on in `yield`. -/
def setPhase (s : Emulator T) (t : T) (p : YieldPhase T) : Emulator T :=
  { s with yielding := update s.yielding t p }

/-- The next statement of `yield`. -/
def statement (s : Emulator T) (t next : T) : Option (Emulator T) :=
  match s.yielding t with
  | .outside => none
  | .entered => some (s.setPhase t (.loaded s.currentThread))
  | .loaded last => some (s.saveState.setPhase t (.saved last))
  | .saved last => some ({ s with scheduled := next }.setPhase t (.switched last))
  | .switched last =>
    some (s.setPhase t (if last ≠ s.scheduled then .chosen last s.scheduled else .outside))
  | .chosen last new => some ({ s with currentThread := new }.setPhase t (.stored last new))
  | .stored last new =>
    if s.irq.locks then none
    else some ({ s with irqState := s.savedState s.scheduled }.setPhase t (.resuming last new))
  | .resuming last new => some ((s.resumeThread new).setPhase t (.suspending last))
  | .suspending last => some ((s.suspendThread last).setPhase t .outside)

/-- The next statement of `process_irq`. -/
def processIrq (s : Emulator T) (next : T) : Option (Emulator T) :=
  match s.irq with
  | .idle => if s.irqState then some { s with irq := .acquired } else none
  | .acquired => some { s with irq := .loaded s.currentThread }
  | .loaded cnt => some { s.suspendThread cnt with irq := .suspended }
  | .suspended => some { s with irq := .released }
  | .released => some { s with inIrqHandler := true, irq := .entered }
  | .entered => some { s.saveState with irq := .saved }
  | .saved => some { s with irq := .handling s.currentThread }
  | .handling last => some { s with scheduled := next, irq := .handled last }
  | .handled last => some { s with
      currentThread := if last ≠ s.scheduled then s.scheduled else s.currentThread
      irq := .stored s.scheduled }
  | .stored new => some { s with irqState := s.savedState s.scheduled, irq := .restored new }
  | .restored new => some { s with inIrqHandler := false, irq := .resuming new }
  | .resuming new => some { s.resumeThread new with irq := .idle }

/-- The next state, or none where the event does not apply. -/
def next (s : Emulator T) : EmulatorEvent T → Option (Emulator T)
  | .setIrq t state =>
    if s.suspendCount t = 0 ∧ s.yielding t = .outside ∧ s.irq.locks = false then
      some { s with irqState := state, own := update s.own t state }
    else none
  | .yield t =>
    if s.suspendCount t = 0 ∧ s.yielding t = .outside ∧ s.irq.locks = false ∧
        s.inIrqHandler = false then
      some ({ s with irqState := false, own := update s.own t false }.setPhase t .entered)
    else none
  | .statement t next => if s.suspendCount t = 0 then s.statement t next else none
  | .processIrq next => s.processIrq next

/-- Runs that begin with the schedule of the first thread. -/
def machine (first : T) (irqState : Bool) : Machine (Emulator T) (EmulatorEvent T) where
  init := init first irqState
  next := next

/-- Neither a `yield` nor a `process_irq` is in progress. -/
def Quiet (s : Emulator T) : Prop := s.irq = .idle ∧ ∀ t, s.yielding t = .outside

instance [Fintype T] (s : Emulator T) : Decidable s.Quiet := inferInstanceAs (Decidable (_ ∧ _))

/-- Exactly the current thread runs, with its own interrupt state. -/
def RunsCurrent (s : Emulator T) : Prop :=
  (∀ t, s.suspendCount t = 0 ↔ t = s.scheduled) ∧ s.irqState = s.own s.scheduled

/-- The host thread that the next statement resumes. -/
def resumed (s : Emulator T) : EmulatorEvent T → Option T
  | .statement t _ =>
    match s.yielding t with
    | .resuming _ new => some new
    | _ => none
  | .processIrq _ =>
    match s.irq with
    | .resuming new => some new
    | _ => none
  | _ => none

/-- A host thread is only resumed while it is suspended. -/
def ResumesSuspended (s : Emulator T) (e : EmulatorEvent T) : Prop :=
  ∀ t ∈ s.resumed e, 0 < s.suspendCount t

instance (s : Emulator T) (e : EmulatorEvent T) : Decidable (s.ResumesSuspended e) := by
  unfold ResumesSuspended
  infer_instance

/-! ## What is still to come -/

end Emulator

/-- The host thread that the `yield` is still to resume. -/
def YieldPhase.resumes {T : Type} : YieldPhase T → Option T
  | stored _ new | resuming _ new => some new
  | _ => none

/-- The host thread that the `yield` is still to suspend, once the CPU is given up. -/
def YieldPhase.leaves {T : Type} : YieldPhase T → Option T
  | stored last _ | resuming last _ | suspending last => some last
  | _ => none

/-- The `yield` has not yet restored the interrupt state. -/
def YieldPhase.switching {T : Type} : YieldPhase T → Bool
  | entered | loaded _ | saved _ | switched _ | chosen _ _ | stored _ _ => true
  | _ => false

/-- The event thread has suspended the current host thread. -/
def IrqPhase.holds {T : Type} : IrqPhase T → Bool
  | idle | acquired | loaded _ => false
  | _ => true

namespace Emulator

variable {T : Type} {s s' : Emulator T} {t u : T} {p : YieldPhase T}

/-- What is known before each statement of `yield` up to the one that restores the interrupt
state. -/
inductive YieldFacts (s : Emulator T) (t : T) : YieldPhase T → Prop
  | entered (hs : s.scheduled = t) (hc : s.currentThread = t) : YieldFacts s t .entered
  | loaded (hs : s.scheduled = t) (hc : s.currentThread = t) : YieldFacts s t (.loaded t)
  | saved (hc : s.currentThread = t) (ho : s.own t = s.irqState)
      (hv : s.savedState t = s.irqState) : YieldFacts s t (.saved t)
  | switched (hc : s.currentThread = t) (ho : s.own t = s.irqState)
      (hv : s.savedState t = s.irqState) : YieldFacts s t (.switched t)
  | chosen (hc : s.currentThread = t) (ho : s.own t = s.irqState)
      (hv : s.savedState t = s.irqState) (hne : t ≠ s.scheduled) :
      YieldFacts s t (.chosen t s.scheduled)
  | stored (hc : s.currentThread = s.scheduled)
      (ho : s.own s.scheduled = s.savedState s.scheduled) : YieldFacts s t (.stored t s.scheduled)

/-- What is known before each statement of `process_irq` once the current host thread is
suspended. -/
inductive IrqFacts (s : Emulator T) : IrqPhase T → Prop
  | suspended (hs : s.scheduled = s.currentThread) (ho : s.irqState = s.own s.currentThread) :
      IrqFacts s .suspended
  | released (hs : s.scheduled = s.currentThread) (ho : s.irqState = s.own s.currentThread) :
      IrqFacts s .released
  | entered (hs : s.scheduled = s.currentThread) (ho : s.irqState = s.own s.currentThread) :
      IrqFacts s .entered
  | saved (ho : s.own s.currentThread = s.savedState s.currentThread) : IrqFacts s .saved
  | handling (ho : s.own s.currentThread = s.savedState s.currentThread) :
      IrqFacts s (.handling s.currentThread)
  | handled (ho : s.own s.currentThread = s.savedState s.currentThread) :
      IrqFacts s (.handled s.currentThread)
  | stored (hs : s.scheduled = s.currentThread)
      (ho : s.own s.currentThread = s.savedState s.currentThread) :
      IrqFacts s (.stored s.currentThread)
  | restored (hs : s.scheduled = s.currentThread) (ho : s.irqState = s.own s.currentThread) :
      IrqFacts s (.restored s.currentThread)
  | resuming (hs : s.scheduled = s.currentThread) (ho : s.irqState = s.own s.currentThread) :
      IrqFacts s (.resuming s.currentThread)

/-- Who has the CPU: the current thread, a thread that switches, or the interrupt handler. -/
inductive Control (s : Emulator T) : Prop
  | user (hyield : ∀ t, (s.yielding t).switching = false) (hholds : s.irq.holds = false)
      (hstate : s.irq = .idle ∨ s.irqState = true)
      (hloaded : ∀ cnt, s.irq = .loaded cnt → cnt = s.currentThread)
      (hs : s.scheduled = s.currentThread) (ho : s.irqState = s.own s.currentThread)
  | yield (t : T) (hothers : ∀ u, u ≠ t → (s.yielding u).switching = false) (hirq : s.irq = .idle)
      (hstate : s.irqState = false) (hfacts : YieldFacts s t (s.yielding t))
  | irq (hyield : ∀ t, (s.yielding t).switching = false) (hfacts : IrqFacts s s.irq)

/-- The `ResumeThread` calls for a host thread that are still to come from a `yield`. -/
noncomputable def resumes [Fintype T] (yielding : T → YieldPhase T) (t : T) : ℕ :=
  count Finset.univ fun u ↦ (yielding u).resumes = some t

/-- What holds between any two statements, if no resume was lost. -/
structure Inv [Fintype T] (s : Emulator T) : Prop where
  /-- A host thread is suspended once for each time it is not the current one, and for each call
  that is still to resume it. -/
  suspendCount : ∀ t, s.suspendCount t + tally ((s.yielding t).leaves = some t) =
    tally (t ≠ s.currentThread) + resumes s.yielding t +
      tally (s.irq.holds = true ∧ t = s.currentThread)
  /-- A thread suspends itself. -/
  leaves : ∀ t last, (s.yielding t).leaves = some last → last = t
  own : ∀ t, t ≠ s.currentThread → s.own t = s.savedState t
  control : s.Control

theorem YieldFacts.switching {p : YieldPhase T} (h : YieldFacts s t p) : p.switching = true := by
  cases h <;> rfl

theorem IrqFacts.holds {p : IrqPhase T} (h : IrqFacts s p) : p.holds = true := by
  cases h <;> rfl

/-- A thread that is switching has the CPU. -/
theorem Control.of_switching (h : s.Control) (ht : (s.yielding t).switching = true) :
    (∀ u, u ≠ t → (s.yielding u).switching = false) ∧ s.irq = .idle ∧ s.irqState = false ∧
      YieldFacts s t (s.yielding t) := by
  cases h with
  | user hyield => exact absurd ht (by simp [hyield t])
  | irq hyield => exact absurd ht (by simp [hyield t])
  | yield t' hothers hirq hstate hfacts =>
    by_cases htt : t = t'
    · exact htt ▸ ⟨hothers, hirq, hstate, hfacts⟩
    · exact absurd ht (by simp [hothers t htt])

section Irq

variable [Fintype T]

/-- A statement of `process_irq` that does not suspend or resume anybody. -/
theorem Inv.irq_counts (h : s.Inv) {q : IrqPhase T} (hq : s.irq.holds = q.holds) (u : T) :
    s.suspendCount u + tally ((s.yielding u).leaves = some u) =
      tally (u ≠ s.currentThread) + resumes s.yielding u +
        tally (q.holds = true ∧ u = s.currentThread) := hq ▸ h.suspendCount u

/-- The event thread that has got past the test of `emulator_irq_state` finds no thread that
switches. -/
theorem Inv.irq_user (h : s.Inv) (hirq : s.irq ≠ .idle) (hholds : s.irq.holds = false) :
    (∀ t, (s.yielding t).switching = false) ∧ s.irqState = true ∧
      (∀ cnt, s.irq = .loaded cnt → cnt = s.currentThread) ∧
      s.scheduled = s.currentThread ∧ s.irqState = s.own s.currentThread := by
  cases h.control with
  | user hyield _ hstate hloaded hs ho => exact ⟨hyield, hstate.resolve_left hirq, hloaded, hs, ho⟩
  | yield t _ hno => exact absurd hno hirq
  | irq _ hfacts => exact absurd hfacts.holds (by simp [hholds])

/-- What the event thread knows once it has suspended the current host thread. -/
theorem Inv.irq_facts (h : s.Inv) (hholds : s.irq.holds = true) :
    (∀ t, (s.yielding t).switching = false) ∧ IrqFacts s s.irq := by
  cases h.control with
  | user _ hno => exact absurd hholds (by simp [hno])
  | yield _ _ hno => exact absurd hholds (by simp [hno, IrqPhase.holds])
  | irq hyield hfacts => exact ⟨hyield, hfacts⟩

end Irq

variable [DecidableEq T]

/-- What a thread does behind its switch changes nobody's control. -/
theorem Control.tail (h : s.Control) (ht : (s.yielding t).switching = false)
    (hp : p.switching = false) (f : T → ℕ) :
    Control { s with suspendCount := f, yielding := update s.yielding t p } := by
  have hsame : ∀ u, (update s.yielding t p u).switching = (s.yielding u).switching := by
    intro u
    by_cases hu : u = t
    · rw [hu, Function.update_self, hp, ht]
    · rw [Function.update_of_ne hu]
  cases h with
  | user hyield hholds hstate hloaded hs ho =>
    exact .user (fun u ↦ (hsame u).trans (hyield u)) hholds hstate hloaded hs ho
  | irq hyield hfacts =>
    refine .irq (fun u ↦ (hsame u).trans (hyield u)) ?_
    revert hfacts
    generalize s.irq = q
    intro hfacts
    cases hfacts <;> constructor <;> assumption
  | yield t' hothers hirq hstate hfacts =>
    refine .yield t' (fun u hu ↦ (hsame u).trans (hothers u hu)) hirq hstate ?_
    have htt : t' ≠ t := by
      rintro rfl
      exact absurd hfacts.switching (by simp [ht])
    dsimp only
    rw [Function.update_of_ne htt]
    revert hfacts
    generalize s.yielding t' = q
    intro hfacts
    cases hfacts <;> constructor <;> assumption

theorem resumes_update [Fintype T] (y : T → YieldPhase T) (t u : T) (p : YieldPhase T) :
    resumes (update y t p) u + tally ((y t).resumes = some u) =
      resumes y u + tally (p.resumes = some u) := by
  have h := count_change (T := Finset.univ) (P := fun v ↦ (y v).resumes = some u)
    (Q := fun v ↦ (update y t p v).resumes = some u) (t := t) (Finset.mem_univ t)
    fun v _ hv ↦ by rw [Function.update_of_ne hv]
  rw [Function.update_self] at h
  exact h.symm

/-- A statement that neither resumes nor suspends anybody. -/
theorem resumes_update_same [Fintype T] {y : T → YieldPhase T} {t : T} {p : YieldPhase T}
    (h : (y t).resumes = p.resumes) (u : T) : resumes (update y t p) u = resumes y u := by
  have := resumes_update y t u p
  rw [h] at this
  omega

section Steps

variable [Fintype T]

/-- **A host thread that runs and is not in `yield` is the current one**, and nobody else has the
CPU. -/
theorem Inv.running (h : s.Inv) (hcount : s.suspendCount t = 0) (ht : s.yielding t = .outside) :
    t = s.currentThread ∧ s.irq.holds = false ∧ (∀ u, (s.yielding u).switching = false) ∧
      s.scheduled = s.currentThread ∧ s.irqState = s.own s.currentThread := by
  have hsum := h.suspendCount t
  have hstays : ¬(YieldPhase.outside : YieldPhase T).leaves = some t := by simp [YieldPhase.leaves]
  rw [hcount, ht, tally_of_not hstays] at hsum
  have hcur : t = s.currentThread := by
    by_contra hne
    rw [tally_of hne] at hsum
    omega
  have hholds : s.irq.holds = false := by
    by_contra hh
    rw [tally_of (P := s.irq.holds = true ∧ _) ⟨by simpa using hh, hcur⟩] at hsum
    omega
  refine ⟨hcur, hholds, ?_⟩
  cases h.control with
  | user hyield _ _ _ hs ho => exact ⟨hyield, hs, ho⟩
  | irq _ hfacts => exact absurd hfacts.holds (by simp [hholds])
  | yield t' _ _ _ hfacts =>
    exfalso
    -- the thread that switches is not `t`, and has not given up the CPU, or it is to resume `t`
    have htt : t ≠ t' := by
      rintro rfl
      rw [ht] at hfacts
      cases hfacts
    generalize hq : s.yielding t' = q at hfacts
    cases hfacts with
    | entered _ hc | loaded _ hc | saved hc | switched hc | chosen hc => exact htt (hcur.trans hc)
    | stored hc =>
      have hpos : 0 < resumes s.yielding t := count_pos (Finset.mem_univ t') (by
        rw [hq, hcur, hc]
        rfl)
      omega

theorem Inv.setIrq (h : s.Inv) (state : Bool) (hcount : s.suspendCount t = 0)
    (ht : s.yielding t = .outside) (hlocks : s.irq.locks = false) :
    Inv { s with irqState := state, own := update s.own t state } := by
  obtain ⟨hcur, hholds, hyield, hs, -⟩ := h.running hcount ht
  have hidle : s.irq = .idle := by
    revert hholds hlocks
    cases s.irq <;> simp [IrqPhase.holds, IrqPhase.locks]
  refine ⟨h.suspendCount, h.leaves, fun u hu ↦ ?_, ?_⟩
  · have hut : u ≠ t := fun hut ↦ hu (hut.trans hcur)
    dsimp only
    rw [Function.update_of_ne hut]
    exact h.own u hu
  · refine .user hyield hholds (Or.inl hidle) (fun cnt hcnt ↦ ?_) hs ?_
    · cases hidle.symm.trans hcnt
    · dsimp only
      rw [← hcur, Function.update_self]

/-- The counts of a statement that changes only where a thread is inside `yield`. -/
theorem Inv.setPhase_counts (h : s.Inv) (hresumes : (s.yielding t).resumes = p.resumes)
    (hleaves : (s.yielding t).leaves = p.leaves) (u : T) :
    s.suspendCount u + tally ((update s.yielding t p u).leaves = some u) =
      tally (u ≠ s.currentThread) + resumes (update s.yielding t p) u +
        tally (s.irq.holds = true ∧ u = s.currentThread) := by
  rw [resumes_update_same hresumes]
  by_cases hu : u = t
  · subst hu
    rw [Function.update_self, ← hleaves]
    exact h.suspendCount u
  · rw [Function.update_of_ne hu]
    exact h.suspendCount u

theorem Inv.setPhase_leaves (h : s.Inv) (hp : ∀ last, p.leaves = some last → last = t) (u last : T)
    (hu : (update s.yielding t p u).leaves = some last) : last = u := by
  by_cases hut : u = t
  · subst hut
    rw [Function.update_self] at hu
    exact hp last hu
  · rw [Function.update_of_ne hut] at hu
    exact h.leaves u last hu

omit [Fintype T] in
/-- The other threads, after a statement of the one that switches. -/
theorem switching_others (hothers : ∀ u, u ≠ t → (s.yielding u).switching = false) (u : T)
    (hu : u ≠ t) : (update s.yielding t p u).switching = false := by
  rw [Function.update_of_ne hu]
  exact hothers u hu

omit [Fintype T] in
/-- No thread switches any more. -/
theorem switching_none (hothers : ∀ u, u ≠ t → (s.yielding u).switching = false)
    (hp : p.switching = false) (u : T) : (update s.yielding t p u).switching = false := by
  by_cases hu : u = t
  · rw [hu, Function.update_self, hp]
  · exact switching_others hothers u hu

theorem Inv.yield (h : s.Inv) (hcount : s.suspendCount t = 0) (ht : s.yielding t = .outside)
    (hlocks : s.irq.locks = false) :
    Inv ({ s with irqState := false, own := update s.own t false }.setPhase t .entered) := by
  obtain ⟨hcur, -, hyield, hs, -⟩ := h.running hcount ht
  have h' := h.setIrq false hcount ht hlocks
  refine ⟨h'.setPhase_counts (by rw [ht]; rfl) (by rw [ht]; rfl),
    h'.setPhase_leaves (fun last hl ↦ by cases hl), h'.own, ?_⟩
  have hidle : s.irq = .idle := by
    have hholds := (h.running hcount ht).2.1
    revert hholds hlocks
    cases s.irq <;> simp [IrqPhase.holds, IrqPhase.locks]
  refine .yield t (switching_others fun u _ ↦ hyield u) hidle rfl ?_
  dsimp only [setPhase]
  rw [Function.update_self]
  exact .entered (hs.trans hcur.symm) hcur.symm

/-- The statements of `yield` up to the one that restores the interrupt state. -/
theorem Inv.switching (h : s.Inv) {next : T} (ht : (s.yielding t).switching = true)
    (hn : s.statement t next = some s') : s'.Inv := by
  obtain ⟨hothers, hirq, hstate, hfacts⟩ := h.control.of_switching ht
  generalize hq : s.yielding t = q at hfacts
  cases hfacts with
  | entered hs hc =>
    rw [statement, hq] at hn
    cases hn
    refine ⟨h.setPhase_counts (by rw [hq]; rfl) (by rw [hq]; rfl),
      h.setPhase_leaves (fun last hl ↦ by cases hl), h.own, ?_⟩
    refine .yield t (switching_others hothers) hirq hstate ?_
    dsimp only [setPhase]
    rw [Function.update_self, hc]
    exact .loaded hs rfl
  | loaded hs hc =>
    rw [statement, hq] at hn
    cases hn
    refine ⟨h.setPhase_counts (by rw [hq]; rfl) (by rw [hq]; rfl),
      h.setPhase_leaves (fun last hl ↦ by cases hl), fun u hu ↦ ?_, ?_⟩
    · have hut : u ≠ s.scheduled := fun he ↦ hu (he.trans (hs.trans hc.symm))
      dsimp only [setPhase, saveState]
      rw [Function.update_of_ne hut, Function.update_of_ne hut]
      exact h.own u hu
    · refine .yield t (switching_others hothers) hirq hstate ?_
      dsimp only [setPhase, saveState]
      rw [Function.update_self]
      refine .saved hc ?_ ?_
      · dsimp only
        rw [hs, Function.update_self]
      · dsimp only
        rw [hs, Function.update_self]
  | saved hc ho hv =>
    rw [statement, hq] at hn
    cases hn
    refine ⟨h.setPhase_counts (by rw [hq]; rfl) (by rw [hq]; rfl),
      h.setPhase_leaves (fun last hl ↦ by cases hl), h.own, ?_⟩
    refine .yield t (switching_others hothers) hirq hstate ?_
    dsimp only [setPhase]
    rw [Function.update_self]
    exact .switched hc ho hv
  | switched hc ho hv =>
    rw [statement, hq] at hn
    cases hn
    by_cases hne : t ≠ s.scheduled
    · rw [if_pos hne]
      refine ⟨h.setPhase_counts (by rw [hq]; rfl) (by rw [hq]; rfl),
        h.setPhase_leaves (fun last hl ↦ by cases hl), h.own, ?_⟩
      refine .yield t (switching_others hothers) hirq hstate ?_
      dsimp only [setPhase]
      rw [Function.update_self]
      exact .chosen hc ho hv hne
    · rw [if_neg hne]
      have hts : t = s.scheduled := not_not.mp hne
      refine ⟨h.setPhase_counts (by rw [hq]; rfl) (by rw [hq]; rfl),
        h.setPhase_leaves (fun last hl ↦ by cases hl), h.own, ?_⟩
      refine .user (switching_none hothers rfl) (by dsimp only [setPhase]; rw [hirq]; rfl)
        (Or.inl hirq) (fun cnt hcnt ↦ ?_) (hts.symm.trans hc.symm) ?_
      · cases hirq.symm.trans hcnt
      · dsimp only [setPhase]
        rw [hc, ho]
  | chosen hc ho hv hne =>
    rw [statement, hq] at hn
    cases hn
    refine ⟨fun u ↦ ?_, h.setPhase_leaves (fun last hl ↦ by cases hl; rfl), fun u hu ↦ ?_, ?_⟩
    · -- `t` is no longer the current thread, and is to suspend itself; the new one is to be resumed
      have hsum := h.suspendCount u
      have hres := resumes_update s.yielding t u (.stored t s.scheduled)
      dsimp only [setPhase]
      rw [hq] at hres
      simp only [YieldPhase.resumes, reduceCtorEq, tally_false, Option.some.injEq] at hres
      rw [hirq] at hsum ⊢
      simp only [IrqPhase.holds, Bool.false_eq_true, false_and, tally_false] at hsum ⊢
      by_cases hut : u = t
      · subst hut
        rw [hq] at hsum
        rw [Function.update_self]
        simp only [YieldPhase.leaves, reduceCtorEq, tally_false, hc, ne_eq, not_true,
          tally_true] at hsum ⊢
        rw [tally_of_not (Ne.symm hne)] at hres
        rw [tally_of hne]
        omega
      · rw [Function.update_of_ne hut]
        rw [tally_of (fun he ↦ hut (he.trans hc) : u ≠ s.currentThread)] at hsum
        by_cases hus : u = s.scheduled
        · rw [tally_of hus.symm] at hres
          rw [tally_of_not (not_not.mpr hus)]
          omega
        · rw [tally_of_not (Ne.symm hus)] at hres
          rw [tally_of hus]
          omega
    · by_cases hut : u = t
      · rw [hut]
        exact ho.trans hv.symm
      · exact h.own u (fun he ↦ hut (he.trans hc))
    · refine .yield t (switching_others hothers) hirq hstate ?_
      dsimp only [setPhase]
      rw [Function.update_self]
      exact .stored rfl (h.own _ (fun he ↦ hne (he.trans hc).symm))
  | stored hc ho =>
    have hlocks : ¬s.irq.locks = true := by
      rw [hirq]
      exact Bool.false_ne_true
    rw [statement, hq] at hn
    dsimp only at hn
    rw [if_neg hlocks] at hn
    cases hn
    refine ⟨h.setPhase_counts (by rw [hq]; rfl) (by rw [hq]; rfl),
      h.setPhase_leaves (fun last hl ↦ by cases hl; rfl), h.own, ?_⟩
    refine .user (switching_none hothers rfl) (by dsimp only [setPhase]; rw [hirq]; rfl)
      (Or.inl hirq) (fun cnt hcnt ↦ ?_) hc.symm ?_
    · cases hirq.symm.trans hcnt
    · dsimp only [setPhase]
      rw [hc, ho]

/-- The statements of `yield` behind it. -/
theorem Inv.tail (h : s.Inv) {next : T} (ht : (s.yielding t).switching = false)
    (hlost : s.ResumesSuspended (.statement t next))
    (hn : s.statement t next = some s') : s'.Inv := by
  rw [statement] at hn
  cases hq : s.yielding t with
  | outside =>
    rw [hq] at hn
    cases hn
  | entered | loaded | saved | switched | chosen | stored =>
    rw [hq] at ht
    cases ht
  | resuming last new =>
    rw [hq] at hn
    cases hn
    obtain rfl := h.leaves t last (by rw [hq]; rfl)
    refine ⟨fun u ↦ ?_, h.setPhase_leaves (fun last hl ↦ by cases hl; rfl), h.own,
      h.control.tail ht rfl _⟩
    have hsum := h.suspendCount u
    have hres := resumes_update s.yielding last u (.suspending last)
    have hpos := hlost new (by simp [resumed, hq])
    rw [hq] at hres
    simp only [YieldPhase.resumes, reduceCtorEq, tally_false, Option.some.injEq] at hres
    dsimp only [setPhase, resumeThread]
    have hleaves : ((update s.yielding last (.suspending last) u).leaves = some u) ↔
        ((s.yielding u).leaves = some u) := by
      by_cases hut : u = last
      · subst hut
        rw [Function.update_self, hq]
        rfl
      · rw [Function.update_of_ne hut]
    rw [tally_congr hleaves]
    by_cases hun : u = new
    · subst hun
      rw [Function.update_self]
      rw [tally_of rfl] at hres
      omega
    · rw [Function.update_of_ne hun]
      rw [tally_of_not (Ne.symm hun)] at hres
      omega
  | suspending last =>
    rw [hq] at hn
    cases hn
    obtain rfl := h.leaves t last (by rw [hq]; rfl)
    refine ⟨fun u ↦ ?_, h.setPhase_leaves (fun last hl ↦ by cases hl), h.own,
      h.control.tail ht rfl _⟩
    have hsum := h.suspendCount u
    dsimp only [setPhase, suspendThread]
    rw [resumes_update_same (by rw [hq]; rfl)]
    by_cases hut : u = last
    · subst hut
      rw [hq, tally_of (show (YieldPhase.suspending u).leaves = some u from rfl)] at hsum
      rw [Function.update_self, Function.update_self, tally_of_not (by simp [YieldPhase.leaves])]
      omega
    · rw [Function.update_of_ne hut, Function.update_of_ne hut]
      exact hsum

/-- **Every statement of `process_irq` keeps the invariant.** -/
theorem Inv.processIrq (h : s.Inv) {next : T}
    (hlost : s.ResumesSuspended (.processIrq next))
    (hn : s.processIrq next = some s') : s'.Inv := by
  rw [Emulator.processIrq] at hn
  cases hq : s.irq with
  | idle =>
    rw [hq] at hn
    dsimp only at hn
    split at hn
    swap
    · cases hn
    rename_i hstate
    cases hn
    refine ⟨h.irq_counts (by rw [hq]; rfl), h.leaves, h.own, ?_⟩
    cases h.control with
    | user hyield _ _ _ hs ho =>
      exact .user hyield rfl (Or.inr hstate) (fun cnt hcnt ↦ by cases hcnt) hs ho
    | yield _ _ _ hno => exact absurd hstate (by simp [hno])
    | irq _ hfacts =>
      rw [hq] at hfacts
      cases hfacts
  | acquired =>
    rw [hq] at hn
    cases hn
    obtain ⟨hyield, hstate, -, hs, ho⟩ := h.irq_user (by simp [hq]) (by rw [hq]; rfl)
    exact ⟨h.irq_counts (by rw [hq]; rfl), h.leaves, h.own,
      .user hyield rfl (Or.inr hstate) (fun cnt hcnt ↦ by cases hcnt; rfl) hs ho⟩
  | loaded cnt =>
    rw [hq] at hn
    cases hn
    obtain ⟨hyield, -, hloaded, hs, ho⟩ := h.irq_user (by simp [hq]) (by rw [hq]; rfl)
    obtain rfl := hloaded cnt hq
    refine ⟨fun u ↦ ?_, h.leaves, h.own, .irq hyield (.suspended hs ho)⟩
    have hsum := h.suspendCount u
    rw [hq] at hsum
    simp only [IrqPhase.holds, Bool.false_eq_true, false_and, tally_false] at hsum
    dsimp only [suspendThread]
    simp only [IrqPhase.holds, true_and]
    by_cases hu : u = s.currentThread
    · rw [hu] at hsum ⊢
      rw [Function.update_self, tally_of rfl]
      omega
    · rw [Function.update_of_ne hu, tally_of_not (P := u = _) hu]
      exact hsum
  | suspended =>
    rw [hq] at hn
    cases hn
    obtain ⟨hyield, hfacts⟩ := h.irq_facts (by rw [hq]; rfl)
    rw [hq] at hfacts
    obtain ⟨hs, ho⟩ := hfacts
    exact ⟨h.irq_counts (by rw [hq]; rfl), h.leaves, h.own, .irq hyield (.released hs ho)⟩
  | released =>
    rw [hq] at hn
    cases hn
    obtain ⟨hyield, hfacts⟩ := h.irq_facts (by rw [hq]; rfl)
    rw [hq] at hfacts
    cases hfacts with
    | released hs ho =>
      exact ⟨h.irq_counts (by rw [hq]; rfl), h.leaves, h.own, .irq hyield (.entered hs ho)⟩
  | entered =>
    rw [hq] at hn
    cases hn
    obtain ⟨hyield, hfacts⟩ := h.irq_facts (by rw [hq]; rfl)
    rw [hq] at hfacts
    cases hfacts with
    | entered hs ho =>
      refine ⟨h.irq_counts (by rw [hq]; rfl), h.leaves, fun u hu ↦ ?_, .irq hyield (.saved ?_)⟩
      · have hus : u ≠ s.scheduled := fun he ↦ hu (he.trans hs)
        dsimp only [saveState]
        rw [Function.update_of_ne hus, Function.update_of_ne hus]
        exact h.own u hu
      · dsimp only [saveState]
        rw [hs, Function.update_self, Function.update_self]
  | saved =>
    rw [hq] at hn
    cases hn
    obtain ⟨hyield, hfacts⟩ := h.irq_facts (by rw [hq]; rfl)
    rw [hq] at hfacts
    cases hfacts with
    | saved ho =>
      exact ⟨h.irq_counts (by rw [hq]; rfl), h.leaves, h.own, .irq hyield (.handling ho)⟩
  | handling last =>
    rw [hq] at hn
    cases hn
    obtain ⟨hyield, hfacts⟩ := h.irq_facts (by rw [hq]; rfl)
    rw [hq] at hfacts
    cases hfacts with
    | handling ho =>
      exact ⟨h.irq_counts (by rw [hq]; rfl), h.leaves, h.own, .irq hyield (.handled ho)⟩
  | handled last =>
    rw [hq] at hn
    cases hn
    obtain ⟨hyield, hfacts⟩ := h.irq_facts (by rw [hq]; rfl)
    rw [hq] at hfacts
    cases hfacts with
    | handled ho =>
      have hcur : (if s.currentThread ≠ s.scheduled then s.scheduled else s.currentThread)
          = s.scheduled := by
        split
        · rfl
        · rename_i hne
          exact not_not.mp hne
      rw [hcur]
      have hown : ∀ u, s.own u = s.savedState u := by
        intro u
        by_cases hu : u = s.currentThread
        · rw [hu, ho]
        · exact h.own u hu
      refine ⟨fun u ↦ ?_, h.leaves, fun u _ ↦ hown u, .irq hyield (.stored rfl (hown _))⟩
      -- whichever thread is the current one, it is suspended once
      have hsum := h.suspendCount u
      rw [hq] at hsum
      have hone : ∀ v : T, tally (u ≠ v) + tally (u = v) = 1 := by
        intro v
        by_cases huv : u = v
        · rw [tally_of huv, tally_of_not (not_not.mpr huv)]
        · rw [tally_of_not huv, tally_of huv]
      have h₁ := hone s.currentThread
      have h₂ := hone s.scheduled
      simp only [IrqPhase.holds, true_and] at hsum ⊢
      omega
  | stored new =>
    rw [hq] at hn
    cases hn
    obtain ⟨hyield, hfacts⟩ := h.irq_facts (by rw [hq]; rfl)
    rw [hq] at hfacts
    cases hfacts with
    | stored hs ho =>
      exact ⟨h.irq_counts (by rw [hq]; rfl), h.leaves, h.own,
        .irq hyield (.restored hs (by rw [hs]; exact ho.symm))⟩
  | restored new =>
    rw [hq] at hn
    cases hn
    obtain ⟨hyield, hfacts⟩ := h.irq_facts (by rw [hq]; rfl)
    rw [hq] at hfacts
    cases hfacts with
    | restored hs ho =>
      exact ⟨h.irq_counts (by rw [hq]; rfl), h.leaves, h.own, .irq hyield (.resuming hs ho)⟩
  | resuming new =>
    rw [hq] at hn
    cases hn
    obtain ⟨hyield, hfacts⟩ := h.irq_facts (by rw [hq]; rfl)
    rw [hq] at hfacts
    cases hfacts with
    | resuming hs ho =>
      refine ⟨fun u ↦ ?_, h.leaves, h.own,
        .user hyield rfl (Or.inl rfl) (fun cnt hcnt ↦ by cases hcnt) hs ho⟩
      have hsum := h.suspendCount u
      have hpos := hlost s.currentThread (by simp [resumed, hq])
      rw [hq] at hsum
      simp only [IrqPhase.holds, true_and] at hsum
      dsimp only [resumeThread]
      simp only [IrqPhase.holds, Bool.false_eq_true, false_and, tally_false]
      by_cases hu : u = s.currentThread
      · rw [hu] at hsum ⊢
        rw [tally_of rfl] at hsum
        rw [Function.update_self]
        omega
      · rw [Function.update_of_ne hu]
        rwa [tally_of_not (P := u = _) hu] at hsum

/-- **Every step that loses no resume keeps the invariant.** -/
theorem Inv.next (h : s.Inv) {e : EmulatorEvent T} (hlost : s.ResumesSuspended e)
    (hn : s.next e = some s') : s'.Inv := by
  cases e with
  | setIrq t state =>
    rw [Emulator.next] at hn
    split at hn
    swap
    · cases hn
    rename_i hc
    cases hn
    exact h.setIrq state hc.1 hc.2.1 hc.2.2
  | yield t =>
    rw [Emulator.next] at hn
    split at hn
    swap
    · cases hn
    rename_i hc
    cases hn
    exact h.yield hc.1 hc.2.1 hc.2.2.1
  | statement t next =>
    rw [Emulator.next] at hn
    split at hn
    swap
    · cases hn
    cases ht : (s.yielding t).switching with
    | true => exact h.switching ht hn
    | false => exact h.tail ht hlost hn
  | processIrq next => exact h.processIrq hlost hn

end Steps

theorem inv_init [Fintype T] (first : T) (irqState : Bool) : (init first irqState).Inv where
  suspendCount t := by
    have hnone : resumes (init first irqState).yielding t = 0 :=
      count_eq_zero fun u _ h ↦ by cases h
    rw [hnone]
    dsimp only [init]
    simp only [YieldPhase.leaves, IrqPhase.holds, reduceCtorEq, Bool.false_eq_true, false_and,
      tally_false]
    by_cases ht : t = first
    · rw [if_pos ht, tally_of_not (not_not.mpr ht)]
    · rw [if_neg ht, tally_of ht]
  leaves t last h := by cases h
  own t ht := by
    dsimp only [init] at ht ⊢
    rw [Function.update_of_ne ht]
  control := by
    refine .user (fun _ ↦ rfl) rfl (Or.inl rfl) (fun cnt h ↦ by cases h) rfl ?_
    dsimp only [init]
    rw [Function.update_self]

/-- **The current host thread runs.**  In every run in which no `ResumeThread` is called for a host
thread that is not suspended, whenever neither a `yield` nor a `process_irq` is in progress exactly
the host thread of the current thread runs, with the interrupt state of that thread. -/
theorem current_host_thread_runs [Fintype T] {first : T} {irqState : Bool}
    (h : (machine first irqState).ReachableWhile ResumesSuspended s) (hq : s.Quiet) :
    s.RunsCurrent := by
  have hI : s.Inv :=
    h.invariant (inv_init first irqState) fun _ _ _ _ hI hlost hn ↦ hI.next hlost hn
  obtain ⟨hidle, houtside⟩ := hq
  cases hI.control with
  | irq _ hfacts => exact absurd hfacts.holds (by simp [hidle, IrqPhase.holds])
  | yield t _ _ _ hfacts =>
    exact absurd hfacts.switching (by simp [houtside t, YieldPhase.switching])
  | user _ hholds _ _ hs ho =>
    refine ⟨fun t ↦ ?_, hs ▸ ho⟩
    have hsum := hI.suspendCount t
    have hnone : resumes s.yielding t = 0 :=
      count_eq_zero fun u _ h ↦ by simp [houtside u, YieldPhase.resumes] at h
    rw [hnone, houtside t, tally_of_not (by simp [YieldPhase.leaves]),
      tally_of_not (P := _ ∧ _) (by simp [hholds])] at hsum
    rw [hs]
    by_cases ht : t = s.currentThread
    · rw [tally_of_not (not_not.mpr ht)] at hsum
      simp [ht] at hsum ⊢
      omega
    · rw [tally_of ht] at hsum
      simp only [ht, iff_false]
      omega

/-- A thread yields to another one, which is then interrupted for the first one. -/
theorem current_host_thread_runs_interrupted :
    let s := (machine false true).afterWhile ResumesSuspended
        (([.yield false] : List (EmulatorEvent Bool)) ++
      (List.replicate 8 (.statement false true) : List (EmulatorEvent Bool)) ++
      (List.replicate 12 (.processIrq false) : List (EmulatorEvent Bool)))
    s.Quiet ∧ s.scheduled = false ∧ s.RunsCurrent :=
  ⟨by decide, by decide, current_host_thread_runs
    (Machine.reachableWhile_afterWhile (M := machine false true) _) (by decide)⟩

/-- The second thread yields back before the first one has suspended itself.  Its `ResumeThread`
comes too early and does nothing, and in the end both are suspended. -/
theorem all_host_threads_suspended :
    let s := (machine false true).after (([.yield false] : List (EmulatorEvent Bool)) ++
      (List.replicate 7 (.statement false true) : List (EmulatorEvent Bool)) ++
      ([.yield true] : List (EmulatorEvent Bool)) ++
      (List.replicate 8 (.statement true false) : List (EmulatorEvent Bool)) ++
      ([.statement false true] : List (EmulatorEvent Bool)))
    (machine false true).Reachable s ∧ s.Quiet ∧ s.scheduled = false ∧
      s.suspendCount false = 1 ∧ s.suspendCount true = 1 ∧ ¬s.RunsCurrent := by
  refine ⟨(machine false true).reachable_after _, by decide, by decide, by decide, by decide, ?_⟩
  rintro ⟨h, -⟩
  exact absurd ((h false).mpr (by decide)) (by decide)

end Emulator

end Chino
