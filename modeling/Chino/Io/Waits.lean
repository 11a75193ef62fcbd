import Chino.Io.WorkList

/-!
# The waits of the worker

A driver that does synchronous I/O on the worker waits by draining the queues itself:
`process_queued_ios` for that request goes on until `device::process_queued_ios` tells it that the
request is done.  It is told so only if this very drain took the last step of the request.  Between
two devices nobody looks at the request again, and a drain that is started further in, for another
request, takes requests off every queue.

So the request of an outer drain may be completed by an inner one, and the outer drain, which hears
nothing of it, goes to sleep on a request that is done (`asleep_completed`).  Where the worker
completes no request that a drain further out waits for, it does not: `asleep_not_completed`.

## The proof

`Told` says of an activation that it has not missed the completion of its request: if the request is
completed, then what the activation is still to do leads to its return (`Phase.finishes`).  `Prompt`
says so of all activations.

`Acts.comes` looks where an activation comes from that is there after a step, by its level: it was
there before, or it has just been pushed and waits for a request that is new.  `Acts.completes` adds
that the request which a step completes is the one whose last frame goes.  So `Prompt` can be lost
in one way only, by a completion in an activation that is not the one that waits for it, and
`FinishesInside` asks that there is none.

The condition looks at the stack and at that request, in the state before the step.  Requests are
numbered, so the request that an activation waits for is not confused with a later one.
-/

set_option autoImplicit false

namespace Chino

open IoManager (resume)

/-- What is left to do of an activation whose request is completed. -/
def Phase.finishes (i : IrpId) : Phase → Prop
  | processing _ j _ hand _ | checking _ j _ hand => j = i ∧ hand = .gone
  | completing _ j _ _ stage _ => j = i ∧ stage = .deliver
  | dropping _ j => j = i
  | picking | sleeping | popping _ | parking .. => False

namespace IoManager

variable {s s' : IoManager} {L L' : IoQueues} {i : IrpId} {device : FileId → DeviceId}
  {a : IoAction} {w : Option IrpId} {p p' : Phase} {as : List Activation}

/-- The last frame of a request is destroyed only where no activation further out waits for it. -/
def FinishesInside (s : IoManager) : IoAction → Prop
  | .advance .worker => ∀ i ∈ s.finishing, ∀ b ∈ s.stack.tail, b.waitIrp ≠ some i
  | _ => True

instance : (a : IoAction) → Decidable (s.FinishesInside a)
  | .advance .worker =>
    inferInstanceAs (Decidable (∀ i ∈ s.finishing, ∀ b ∈ s.stack.tail, b.waitIrp ≠ some i))
  | .advance (.thread _) | .dispatch .. | .fast .. | .exhausted _ | .access | .complete _
  | .move .. | .queue | .finish | .fail _ | .irq .. | .requeue _ => isTrue trivial

/-- An activation knows of the completion of its request. -/
def Told (s : IoManager) (b : Activation) : Prop :=
  ∀ i, b.waitIrp = some i → (s.irp i).currentFrame = none → b.phase.finishes i

/-- Every activation knows. -/
def Prompt (s : IoManager) : Prop := ∀ b ∈ s.stack, s.Told b

/-! ## What a step does -/

theorem prompt_init : init.Prompt := by
  intro b hb i hi
  cases List.mem_singleton.mp hb
  cases hi

/-- A request that a step completes is the one whose last frame it destroys. -/
theorem Acts.completes (ha : s.Acts device L a s' L') (hc : (s'.irp i).currentFrame = none) :
    (s.irp i).currentFrame = none ∨ a = .advance .worker ∧ s.finishing = some i ∧
      ∃ w d last result inside as,
        s.stack = ⟨w, .completing d i last result .destroy inside⟩ :: as ∧
        s'.stack = ⟨w, .completing d i last result .deliver inside⟩ :: as := by
  cases ha.frames i with
  | kept _ hc' => exact Or.inl (hc' ▸ hc)
  | constructed _ hr =>
    rw [hr] at hc
    cases hc
  | moved _ hr =>
    obtain ⟨k, -, -, hr⟩ := IoRequest.moveNextFrame_eq_some.mp hr
    rw [hr] at hc
    cases hc
  | @destroyed w as d last k result inside hs hs' hk hr he =>
    rw [hr, IoRequest.destroyFrame_eq hk] at hc
    by_cases hk0 : k = 0
    · subst hk0
      exact Or.inr ⟨he, by simp [finishing, hs, hk], w, d, last, result, inside, as, hs, hs'⟩
    · simp [hk0] at hc

/-- Where an activation comes from that is there after a step: from one that waits for the same
request, and that was told no more. -/
def Comes (s : IoManager) (b' : Activation) : Prop :=
  ∃ b ∈ s.stack, b.waitIrp = b'.waitIrp ∧ ∀ i, b'.waitIrp = some i →
    (s.irp i).currentFrame = none → b.phase.finishes i → b'.phase.finishes i

theorem Comes.self {b : Activation} (hb : b ∈ s.stack) : s.Comes b :=
  ⟨b, hb, rfl, fun _ _ _ ↦ id⟩

/-- A step of the innermost activation leaves the others alone. -/
theorem comes_top {b : Activation} (hs : s.stack = ⟨w, p⟩ :: as) (hb : b ∈ ⟨w, p'⟩ :: as)
    (hp : ∀ i, w = some i → (s.irp i).currentFrame = none → p.finishes i → p'.finishes i) :
    s.Comes b := by
  rcases List.mem_cons.mp hb with rfl | hb
  · exact ⟨⟨w, p⟩, by simp [hs], rfl, hp⟩
  · exact .self (by simp [hs, hb])

theorem comes_setCall {x : Caller} {c c' : Option Call} {s₁ : IoManager} (hx : s.InCall x c)
    (h₁ : s₁.stack = s.stack) {b : Activation} (hb : b ∈ (s₁.setCall x c').stack) :
    s.Comes b := by
  cases x with
  | thread t => exact .self (h₁ ▸ hb)
  | worker =>
    obtain ⟨w, d, j, last, hand, as, hs⟩ := hx
    rw [setCall_worker (h₁.trans hs)] at hb
    exact comes_top hs hb fun _ _ _ ↦ id

theorem comes_resume {b : Activation} (hs : s.stack = ⟨w, p⟩ :: as) (hb : b ∈ resume as) :
    s.Comes b := by
  rcases resume_cases as with h | ⟨w', d, j, last, hand, k, bs, rfl, h⟩
  · exact .self (by simp [hs, h ▸ hb])
  · rw [h] at hb
    rcases List.mem_cons.mp hb with rfl | hb
    · exact ⟨⟨w', .processing d j last hand (some (.queued k))⟩, by simp [hs], rfl, fun _ _ _ ↦ id⟩
    · exact .self (by simp [hs, hb])

/-- **What a step does to the activations.**  None forgets that its request is completed; a new one
waits for a request that is not. -/
theorem Acts.comes (ha : s.Acts device L a s' L') {b : Activation} (hb : b ∈ s'.stack) :
    s.Comes b ∨ ∃ j, b.waitIrp = some j ∧ (s'.irp j).currentFrame ≠ none := by
  cases ha with
  | dispatch hx | call hx | allocate hx | drop hx => exact Or.inl (comes_setCall hx (by rfl) hb)
  | enqueue hx => exact Or.inl (comes_setCall hx (by rfl) hb)
  | @await j hx hc =>
    rcases List.mem_cons.mp hb with rfl | hb
    · refine Or.inr ⟨j, rfl, fun hnone ↦ ?_⟩
      have hnone : (s.irp j).currentFrame = none := hnone
      rw [IoRequest.isCompleted, hnone] at hc
      cases hc
    · exact Or.inl (.self hb)
  | @turn w as p p' work avail hs hp hp' ht =>
    refine Or.inl (comes_top hs hb fun i _ _ hf ↦ ?_)
    cases ht <;> cases hf
  | pop hs => exact Or.inl (comes_top hs hb fun i _ _ hf ↦ by cases hf)
  | access => exact Or.inl (.self hb)
  | start hs | move hs | handOver hs | code hs | bytes hs | notify hs | destroy hs =>
    exact Or.inl (comes_top hs hb fun i _ _ hf ↦ by cases hf.2)
  | finish hs => exact Or.inl (comes_top hs hb fun i _ _ ↦ id)
  | @deliver w as d j last result inside hs =>
    refine Or.inl (comes_top hs hb fun i _ _ hf ↦ ?_)
    cases inside <;> exact ⟨hf.1, rfl⟩
  | @check w as d j last hand p hs hp =>
    refine Or.inl (comes_top hs hb fun i _ hc hf ↦ ?_)
    obtain ⟨rfl, -⟩ := hf
    rcases hp with ⟨-, rfl⟩ | ⟨⟨k, hk, -⟩, -⟩ | ⟨hk, -⟩
    · rfl
    · cases hc.symm.trans hk
    · cases hc.symm.trans hk
  | @release w as d j hs =>
    by_cases hw : w = some j
    · simp only [hw, if_pos] at hb
      exact Or.inl (comes_resume hs hb)
    · simp only [hw, if_neg, not_false_eq_true] at hb
      refine Or.inl (comes_top hs hb fun i hi _ hf ↦ ?_)
      -- the activation would have returned
      have hf : j = i := hf
      exact absurd (hf ▸ hi) hw
  | park hs => exact Or.inl (comes_top hs hb fun i _ _ hf ↦ by cases hf)
  | irq | requeue => exact Or.inl (.self hb)

/-- **A step leaves every activation told.** -/
theorem Acts.prompt (ha : s.Acts device L a s' L') (h : s.Prompt) (hc : s.FinishesInside a) :
    s'.Prompt := by
  intro b hb i hi hcur
  rcases ha.comes hb with ⟨b₀, hb₀, hwait, hkeep⟩ | ⟨j, hj, hcj⟩
  · rcases ha.completes hcur with hcur₀ | ⟨rfl, hfin, w, d, last, result, inside, as, hs, hs'⟩
    · exact hkeep i hi hcur₀ (h b₀ hb₀ i (hwait.trans hi) hcur₀)
    · -- this is the step that completes the request, and the innermost activation takes it
      rw [hs'] at hb
      rcases List.mem_cons.mp hb with rfl | hb
      · exact ⟨rfl, rfl⟩
      · exact absurd hi (hc i hfin b (by simpa [hs] using hb))
  · cases hi.symm.trans hj
    exact absurd hcur hcj

/-! ## Every run -/

/-- **No activation sleeps on a request that is done**, if none is completed further in. -/
theorem asleep_not_completed (h : (machine device).ReachableWhile FinishesInside s)
    (hs : s.stack = ⟨some i, .sleeping⟩ :: as) : (s.irp i).isCompleted = false := by
  obtain ⟨hI, -⟩ := invariant_acts (I := Prompt) prompt_init
    (fun s L a s' L' _ hI hc ha _ ↦ ha.prompt hI hc) h
  by_contra hcompleted
  have hcur : (s.irp i).currentFrame = none := by simpa [IoRequest.isCompleted] using hcompleted
  exact hI ⟨some i, .sleeping⟩ (by simp [hs]) i rfl hcur

/-- The driver of device 0 waits for a request that device 1 leaves pending. -/
def waitPending : List IoAction :=
  slowCall (.thread 1) 0 none ++ work 2 ++ slowCall .worker 1 none ++ work 1 ++ leavePending ++
    work 2

theorem asleep_not_completed_pending :
    (((machine id).afterWhile FinishesInside waitPending).irp 1).isCompleted = false :=
  have hs : ((machine id).afterWhile FinishesInside waitPending).stack =
      [⟨some 1, .sleeping⟩, ⟨none, .processing 0 0 0 .fresh (some (.queued 1))⟩] := by decide +kernel
  asleep_not_completed (Machine.reachableWhile_afterWhile (M := machine id) waitPending) hs

/-- The worker takes a request from a list, completes it and drops it. -/
def serve : List IoAction :=
  completeWith (.ok (some 5)) ++ work 2 ++ ([.finish] : List IoAction) ++ work 2

/-- While that driver waits, the one of device 2 starts to wait for a request of its own, and the
inner drain gets to complete the request of the first driver, which an interrupt has queued
again. -/
def waitTwice : List IoAction :=
  slowCall (.thread 1) 0 none ++ work 2 ++ slowCall .worker 1 none ++ work 1 ++ leavePending ++
    slowCall (.thread 2) 2 none ++ work 3 ++
      ([.irq 0 1 fun _ ↦ true, .requeue 0] : List IoAction) ++
    slowCall .worker 3 none ++ work 1 ++ serve ++ work 1 ++ serve ++ work 3 ++
    ([.complete (.ok none)] : List IoAction) ++ work 5 ++ ([.finish] : List IoAction) ++ work 4

/-- The outer drain sleeps although its request is done, with nothing queued anywhere. -/
theorem asleep_completed : ∃ s as, (machine id).Reachable s ∧
    s.stack = ⟨some 1, .sleeping⟩ :: as ∧ (s.irp 1).isCompleted = true :=
  ⟨(machine id).after waitTwice, [⟨none, .processing 0 0 0 .fresh (some (.queued 1))⟩],
    Machine.reachable_after _, by decide +kernel⟩

end IoManager

end Chino
