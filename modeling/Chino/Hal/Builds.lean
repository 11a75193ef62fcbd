import Chino.Hal.Emulator

/-!
# Debug and release builds

`kassert` evaluates its argument in a debug build.  Where `NDEBUG` is defined it expands to nothing,
and the argument is not evaluated.  `yield` and `process_irq` put their calls of `ResumeThread` and
the last `SuspendThread` into such arguments, so a release build never resumes the host thread of
the thread it has switched to.

`Chino.Hal.Emulator` is the debug build, in which no assertion fails.  `releaseMachine` is the other
one: the statements are the same, and three of them do nothing.  The two are compared event by
event.  They part at the first statement whose argument would have changed a suspend count:
`builds_agree_iff`.

## What is compared

`observe` is what can be seen of a state: the current thread, as the scheduler and as the CPU have
it, the suspend count of every host thread, and the interrupt state.  The two builds run on the same
list of events, so on the same choices of the scheduler and the same interrupts.

* An event whose statement is not an assertion does the same in both builds.
* An asserted `ResumeThread` of a host thread that is not suspended does nothing in either.
* Any other asserted call changes a suspend count in one build only.

`Inert` is the second and the first line as a condition on the state and the event.  Since suspend
counts are part of what is seen, the builds differ at once where it fails, and `builds_agree_iff` is
an equivalence over all prefixes of the run.

A switch by `yield` ends with an asserted `SuspendThread`, so the builds agree only on runs in which
no `yield` that switches gets to its end (`builds_agree_iff_handledBack`).
-/

set_option autoImplicit false

namespace Chino

open Function (update)

namespace Emulator

variable {T : Type} [DecidableEq T]

/-! ## The release build -/

/-- The next statement of `yield`, where `kassert` expands to nothing. -/
def releaseStatement (s : Emulator T) (t next : T) : Option (Emulator T) :=
  match s.yielding t with
  | .resuming last _ => some (s.setPhase t (.suspending last))
  | .suspending _ => some (s.setPhase t .outside)
  | _ => s.statement t next

/-- The next statement of `process_irq`, where `kassert` expands to nothing. -/
def releaseProcessIrq (s : Emulator T) (next : T) : Option (Emulator T) :=
  match s.irq with
  | .resuming _ => some { s with irq := .idle }
  | _ => s.processIrq next

/-- The next state of the release build, or none where the event does not apply. -/
def releaseNext (s : Emulator T) : EmulatorEvent T → Option (Emulator T)
  | .setIrq t state => s.next (.setIrq t state)
  | .yield t => s.next (.yield t)
  | .statement t next => if s.suspendCount t = 0 then s.releaseStatement t next else none
  | .processIrq next => s.releaseProcessIrq next

/-- Runs of the release build. -/
def releaseMachine (first : T) (irqState : Bool) : Machine (Emulator T) (EmulatorEvent T) where
  init := init first irqState
  next := releaseNext

/-! ## Where they part -/

/-- What can be seen of a state: the current thread, as the scheduler and as the CPU have it, the
suspend counts, and the interrupt state. -/
def observe (s : Emulator T) : T × T × (T → ℕ) × Bool :=
  (s.scheduled, s.currentThread, s.suspendCount, s.irqState)

/-- The event is an asserted `SuspendThread`. -/
def assertsSuspend (s : Emulator T) : EmulatorEvent T → Bool
  | .statement t _ =>
    match s.yielding t with
    | .suspending _ => true
    | _ => false
  | _ => false

/-- No assertion changes anything: the event is not an asserted `SuspendThread`, and if it is an
asserted `ResumeThread` then of a host thread that is not suspended. -/
def Inert (s : Emulator T) (e : EmulatorEvent T) : Prop :=
  s.assertsSuspend e = false ∧ ∀ t ∈ s.resumed e, s.suspendCount t = 0

instance (s : Emulator T) (e : EmulatorEvent T) : Decidable (s.Inert e) := by
  unfold Inert; infer_instance

variable {s s' : Emulator T} {e : EmulatorEvent T}

theorem resumeThread_eq_self {t : T} (h : s.suspendCount t = 0) : s.resumeThread t = s := by
  have hcount : update s.suspendCount t (s.suspendCount t - 1) = s.suspendCount := by
    rw [h, Nat.zero_sub, ← h, Function.update_eq_self]
  rw [resumeThread, hcount]

/-- An event without such an assertion does the same in both builds. -/
theorem releaseNext_eq (h : s.Inert e) : s.releaseNext e = s.next e := by
  obtain ⟨hsuspend, hresume⟩ := h
  cases e with
  | setIrq | yield => rfl
  | statement t next =>
    simp only [releaseNext, Emulator.next, releaseStatement, statement]
    cases hp : s.yielding t with
    | resuming last new =>
      have hcount : s.suspendCount new = 0 := hresume new (by simp [resumed, hp])
      simp [resumeThread_eq_self hcount]
    | suspending last => simp [assertsSuspend, hp] at hsuspend
    | _ => rfl
  | processIrq next =>
    simp only [releaseNext, Emulator.next, releaseProcessIrq, processIrq]
    cases hp : s.irq with
    | resuming new =>
      have hcount : s.suspendCount new = 0 := hresume new (by simp [resumed, hp])
      simp [resumeThread_eq_self hcount]
    | _ => rfl

theorem suspendCount_resumeThread {t : T} (h : 0 < s.suspendCount t) :
    (s.resumeThread t).suspendCount ≠ s.suspendCount := by
  intro he
  have := congrFun he t
  simp only [resumeThread, Function.update_self] at this
  omega

theorem suspendCount_suspendThread (t : T) :
    (s.suspendThread t).suspendCount ≠ s.suspendCount := by
  intro he
  have := congrFun he t
  simp only [suspendThread, Function.update_self] at this
  omega

/-- An event with one changes a suspend count in the debug build and none in the release build. -/
theorem suspendCount_of_not_inert (h : ¬ s.Inert e) (hn : s.next e = some s') :
    s'.suspendCount ≠ s.suspendCount ∧
      ∃ r, s.releaseNext e = some r ∧ r.suspendCount = s.suspendCount := by
  have hcases : s.assertsSuspend e = true ∨ ∃ t ∈ s.resumed e, 0 < s.suspendCount t := by
    by_contra hno
    obtain ⟨h₁, h₂⟩ := not_or.mp hno
    refine h ⟨by simpa using h₁, fun t ht ↦ ?_⟩
    by_contra hpos
    exact h₂ ⟨t, ht, Nat.pos_of_ne_zero hpos⟩
  cases e with
  | setIrq | yield => simp [assertsSuspend, resumed] at hcases
  | statement t next =>
    simp only [Emulator.next, statement] at hn
    simp only [releaseNext, releaseStatement]
    split at hn
    · rename_i hcount
      cases hp : s.yielding t with
      | resuming last new =>
        simp only [hp] at hn
        cases hn
        have hpos : 0 < s.suspendCount new := by simpa [assertsSuspend, resumed, hp] using hcases
        exact ⟨suspendCount_resumeThread hpos, _, if_pos hcount, rfl⟩
      | suspending last =>
        simp only [hp] at hn
        cases hn
        exact ⟨suspendCount_suspendThread last, _, if_pos hcount, rfl⟩
      | _ => simp [assertsSuspend, resumed, hp] at hcases
    · cases hn
  | processIrq next =>
    simp only [Emulator.next, processIrq] at hn
    simp only [releaseNext, releaseProcessIrq]
    cases hp : s.irq with
    | resuming new =>
      simp only [hp] at hn
      cases hn
      have hpos : 0 < s.suspendCount new := by simpa [assertsSuspend, resumed, hp] using hcases
      exact ⟨suspendCount_resumeThread hpos, _, rfl, rfl⟩
    | _ => simp [assertsSuspend, resumed, hp] at hcases

/-- So the builds can be told apart after it. -/
theorem observe_ne_of_not_inert (h : ¬ s.Inert e) (hn : s.next e = some s') :
    (s.releaseNext e).map observe ≠ (s.next e).map observe := by
  obtain ⟨hne, r, hr, hcount⟩ := suspendCount_of_not_inert h hn
  rw [hn, hr]
  intro he
  simp only [Option.map_some, Option.some.injEq, observe, Prod.mk.injEq] at he
  exact hne (he.2.2.1 ▸ hcount)

/-! ## Every run -/

/-- What can be seen after a list of events, if every one is possible. -/
def seenAfter (M : Machine (Emulator T) (EmulatorEvent T)) (s : Emulator T)
    (es : List (EmulatorEvent T)) : Option (T × T × (T → ℕ) × Bool) :=
  (M.runWhile (fun _ _ ↦ True) s es).map observe

variable {first : T} {irqState : Bool}

omit [DecidableEq T] in
theorem seenAfter_cons (M : Machine (Emulator T) (EmulatorEvent T)) (s : Emulator T)
    (e : EmulatorEvent T) (es : List (EmulatorEvent T)) :
    seenAfter M s (e :: es) = (M.next s e).bind fun s' ↦ seenAfter M s' es := by
  cases h : M.next s e <;> simp [seenAfter, Machine.runWhile, h]

/-- From one state, the builds can be told apart at some point if and only if some assertion changes
something. -/
theorem agree_iff_from (es : List (EmulatorEvent T)) :
    ∀ s : Emulator T, (seenAfter (machine first irqState) s es).isSome = true →
      ((∀ es', es' <+: es → seenAfter (releaseMachine first irqState) s es' =
        seenAfter (machine first irqState) s es') ↔
      ((machine first irqState).runWhile Inert s es).isSome = true) := by
  induction es with
  | nil =>
    intro s _
    refine iff_of_true (fun es' hes ↦ ?_) rfl
    rw [List.prefix_nil.mp hes]
    rfl
  | cons e es ih =>
    intro s hrun
    rw [seenAfter_cons] at hrun
    obtain ⟨s', hn, hrun⟩ : ∃ s', s.next e = some s' ∧
        (seenAfter (machine first irqState) s' es).isSome = true := by
      cases hn : s.next e with
      | none => simp [machine, hn] at hrun
      | some s' => exact ⟨s', rfl, by simpa [machine, hn] using hrun⟩
    rw [Machine.runWhile]
    by_cases hi : s.Inert e
    · rw [if_pos hi, show (machine first irqState).next s e = some s' from hn, Option.bind_some,
        ← ih s' hrun]
      have hrel : (releaseMachine first irqState).next s e = some s' := (releaseNext_eq hi).trans hn
      have hdeb : (machine first irqState).next s e = some s' := hn
      constructor
      · intro hall es' hes
        have := hall (e :: es') (List.cons_prefix_cons.mpr ⟨rfl, hes⟩)
        rwa [seenAfter_cons, seenAfter_cons, hrel, hdeb] at this
      · intro hall es' hes
        cases es' with
        | nil => rfl
        | cons e' es' =>
          obtain ⟨rfl, htail⟩ := List.cons_prefix_cons.mp hes
          rw [seenAfter_cons, seenAfter_cons, hrel, hdeb]
          exact hall es' htail
    · rw [if_neg hi]
      refine iff_of_false (fun hall ↦ observe_ne_of_not_inert hi hn ?_) (by simp)
      have hone := hall [e] (List.cons_prefix_cons.mpr ⟨rfl, List.nil_prefix⟩)
      rw [seenAfter_cons, seenAfter_cons] at hone
      have hmap : ((releaseMachine first irqState).next s e).map observe =
          ((machine first irqState).next s e).map observe := by
        simpa [seenAfter, Machine.runWhile, Option.map_eq_bind, Function.comp_def] using hone
      exact hmap

/-- **When the two builds agree.**  In a run of the debug build in which no assertion fails, the
release build gets to the same states all along if and only if no event evaluates an assertion that
changes something. -/
theorem builds_agree_iff (es : List (EmulatorEvent T))
    (h : (seenAfter (machine first irqState) (init first irqState) es).isSome = true) :
    (∀ es', es' <+: es → seenAfter (releaseMachine first irqState) (init first irqState) es' =
      seenAfter (machine first irqState) (init first irqState) es') ↔
    ((machine first irqState).runWhile Inert (init first irqState) es).isSome = true :=
  agree_iff_from es (init first irqState) h

/-- A thread yields, and an interrupt comes when it is about to resume the one it has yielded to.
The handler switches back to it. -/
def handledBack : List (EmulatorEvent Bool) :=
  .yield false :: (List.replicate 6 (.statement false true) ++
    List.replicate 12 (.processIrq false))

/-- The last statement asserts a `ResumeThread` of the host thread that runs, which changes nothing,
so the builds agree. -/
theorem builds_agree_iff_handledBack :
    ((machine false true).after handledBack.dropLast).resumed (.processIrq false) = some false ∧
    ((machine false true).after handledBack).irq = .idle ∧
    ∀ es', es' <+: handledBack → seenAfter (releaseMachine false true) (init false true) es' =
      seenAfter (machine false true) (init false true) es' :=
  ⟨by decide, by decide, (builds_agree_iff handledBack (by decide)).mpr (by decide)⟩

/-- A thread yields to another one: in the release build the host thread of the first one goes on
running, and the one of the second stays suspended. -/
theorem builds_part :
    let es := EmulatorEvent.yield false :: List.replicate 8 (.statement false true)
    ∃ s r, (machine false true).runWhile (fun _ _ ↦ True) (init false true) es = some s ∧
      (releaseMachine false true).runWhile (fun _ _ ↦ True) (init false true) es = some r ∧
      s.scheduled = true ∧ s.suspendCount true = 0 ∧ s.suspendCount false = 1 ∧
      r.scheduled = true ∧ r.suspendCount true = 1 ∧ r.suspendCount false = 0 ∧
      s.observe ≠ r.observe := by
  intro es
  refine ⟨(machine false true).after es, (releaseMachine false true).after es, rfl, rfl, by decide,
    by decide, by decide, by decide, by decide, by decide, fun he ↦ ?_⟩
  have := congrFun (Prod.mk.inj (Prod.mk.inj (Prod.mk.inj he).2).2).1 true
  revert this
  decide

end Emulator

end Chino
