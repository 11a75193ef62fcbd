import Chino.Sched.Notify
import Mathlib.Data.List.TakeWhile

/-!
# Waiters whose condition does not hold

`block_current_thread` takes the waiter off its ready list once.  What puts it back — a
notification, a tick — does not look at the word, and the loop around `yield` that does look again
never takes the waiter off a second time: it stays in a ready list and calls `yield` for as long as
the word has the old value, and no thread of a lower priority runs.

`Honest` says of one step that it keeps the condition of every waiter it makes ready, or that is
ready: a notification comes while the condition holds, a store does not take it back, and a sleeper
is not due before its timeout has passed.  `waiter_not_runnable` is what follows for the runs of
such steps, and `recheck_stays_ready` is a run with one other step.

## The condition

A waiter whose word still has the old value has nothing to do on a ready list.  It may become ready
by a notification that came too early, by a word that was changed and changed back, or by a timeout.
`Honest` excludes the three, one step at a time, in the state before the step.

With it `waiter_not_runnable` says of every state of the run that a waiter in its loop whose
condition does not hold is in `blocked_threads_` or in `delayed_threads_`, and in no ready list.

The run at the end has one notification too many.  After it the waiter is ready for good: each time
it gets the CPU it reads the word, finds the old value, and yields.
-/

set_option autoImplicit false

namespace Chino

open Function (update)
open Scheduler

namespace Cpu

variable {mem : Addr → UInt32} {c c' d : Cpu} {L L' : Queues} {e : Event} {b : Bool}
  {t : ThreadId} {call : BlockCall}

/-- The thread is in the wait loop of the `block_current_thread` call. -/
def Looping (c : Cpu) (t : ThreadId) (call : BlockCall) : Prop :=
  c.pc t = .suspended call ∨ c.pc t = .resumed call

/-- What the loop waits for has come: the word has changed, or the timeout has passed. -/
def Holds (c : Cpu) (call : BlockCall) : Prop :=
  c.mem call.waitAddress ≠ call.old ∨
    ∃ timeout, call.timeout = some timeout ∧ call.lastTime.add timeout ≤ c.sched.now

/-- The thread is in `blocked_threads_` or `delayed_threads_`, and in no ready list. -/
def NotRunnable (c : Cpu) (t : ThreadId) : Prop :=
  (t ∈ c.sched.lists.toList .blocked ∨ t ∈ c.sched.lists.toList .delayed) ∧
    ∀ p, t ∉ c.sched.lists.toList (.ready p)

/-- The step keeps the condition of the waiters that it makes ready, or that are ready.  A tick
wakes those that are due, which is behind their timeout unless the sum that makes their
`wakeup_time` has wrapped around. -/
def Honest (c : Cpu) : Event → Prop
  | .unblock a all => ∀ t ∈ c.sched.notified a all (c.sched.lists.toList .blocked),
      ∀ call, c.Looping t call → c.Holds call
  | .store a v => ∀ t call, c.Looping t call →
      ((c.sched.thread t).status = .ready ∨ (c.sched.thread t).status = .running) →
      (c.setMem a v).Holds call
  | .blockSection => ∀ t call timeout, c.sched.current = some t → c.pc t = .entered call →
      call.timeout = some timeout → call.lastTime.add timeout ≤ c.sched.now.add timeout
  | _ => True

/-! ## What an action does to a waiter -/

/-- How a thread can be in the loop after an action. -/
inductive LoopEffect (c : Cpu) (L : Queues) (e : Event) (d : Cpu) (t : ThreadId)
    (call : BlockCall) :
    Prop
  | kept (hc : c.Looping t call) (hth : d.sched.thread t = c.sched.thread t)
  | readied (hc : c.Looping t call)
      (hatt : (d.sched.thread t).attached = (c.sched.thread t).attached)
      (hst : (d.sched.thread t).status = .ready ∨ (d.sched.thread t).status = .running)
      (hwhy : (∃ a all, e = .unblock a all ∧ t ∈ c.sched.notified a all (L .blocked)) ∨
        e = .tick ∧ t ∈ c.sched.due (L .delayed) ∨
        (∃ u, e = .startSchedule u) ∧ (c.sched.thread t).status = .ready)
  | blocked (he : e = .blockSection) (hatt : (d.sched.thread t).attached = true)
      (hst : (d.sched.thread t).status = .blocked)
  | delayed {timeout : Nanoseconds} (he : e = .blockSection) (hc : c.sched.current = some t)
      (hpc : c.pc t = .entered call) (hatt : (d.sched.thread t).attached = true)
      (htime : call.timeout = some timeout) (hst : (d.sched.thread t).status = .delayed)
      (hwake : (d.sched.thread t).wakeupTime = c.sched.now.add timeout)

/-- **What an action does to a thread that is in the loop afterwards.** -/
theorem Acts.looping (ha : c.Acts L e d b L') (h : c.Inv L) (hl : d.Looping t call) :
    c.LoopEffect L e d t call := by
  -- an action that moves the `pc` of a thread out of the loop, or of another thread
  have key : ∀ {u : ThreadId} {pc : Pc}, d.pc = update c.pc u pc →
      (t ≠ u → d.sched.thread t = c.sched.thread t) → pc = .user ∨ pc = .exiting ∨
        (∃ call, pc = .entered call) → c.Looping t call ∧ d.sched.thread t = c.sched.thread t := by
    intro u pc hd hth hp
    by_cases htu : t = u
    · subst htu
      rw [Looping, hd, Function.update_self] at hl
      rcases hp with rfl | rfl | ⟨call', rfl⟩ <;> rcases hl with hl | hl <;> cases hl
    · rw [Looping, hd, Function.update_of_ne htu] at hl
      exact ⟨hl, hth htu⟩
  cases ha with
  | @attach u p h' =>
    obtain ⟨hc, hth⟩ := key rfl (fun htu ↦ by
      simp [Scheduler.attached, construct, modifyThread, htu]) (Or.inl rfl)
    exact .kept hc hth
  | @startSchedule u hs hatt =>
    by_cases htu : t = u
    · subst htu
      exact .readied hl (by simp [modifyThread]) (Or.inr (by simp [modifyThread]))
        (Or.inr (Or.inr ⟨⟨t, rfl⟩, h.boot hs t hatt⟩))
    · exact .kept hl (by simp [modifyThread, htu])
  | @detach u l h' =>
    obtain ⟨hc, hth⟩ := key rfl (fun htu ↦ by simp [Scheduler.detached, htu]) (Or.inr (Or.inl rfl))
    exact .kept hc hth
  | block =>
    obtain ⟨hc, hth⟩ := key rfl (fun _ ↦ rfl) (Or.inr (Or.inr ⟨_, rfl⟩))
    exact .kept hc hth
  | @blockUntimed u call' l h' hc hpc hmem htime hu =>
    by_cases htu : t = u
    · subst htu
      obtain rfl : call' = call := by
        rw [Looping, setPc_pc, Function.update_self] at hl
        rcases hl with hl | hl <;> cases hl
        rfl
      exact .blocked rfl (by simp [Scheduler.blocked, h.linked.attached hu])
        (by simp [Scheduler.blocked])
    · rw [Looping, setPc_pc, Function.update_of_ne htu] at hl
      exact .kept hl (by simp [Scheduler.blocked, htu])
  | @blockTimed u call' timeout l h' hc hpc hmem htime hu =>
    by_cases htu : t = u
    · subst htu
      obtain rfl : call' = call := by
        rw [Looping, setPc_pc, Function.update_self] at hl
        rcases hl with hl | hl <;> cases hl
        rfl
      exact .delayed rfl hc hpc
        (by simp [asleep_waiting_thread, sleepThread, h.linked.attached hu]) htime
        (by simp [asleep_waiting_thread, sleepThread]) (by simp [asleep_waiting_thread, sleepThread])
    · rw [Looping, setPc_pc, Function.update_of_ne htu] at hl
      exact .kept hl (by simp only [asleep_waiting_thread, Function.update_of_ne htu])
  | blockMissed =>
    obtain ⟨hc, hth⟩ := key rfl (fun _ ↦ rfl) (Or.inl rfl)
    exact .kept hc hth
  | @blockCheck u call' hc hpc =>
    refine .kept ?_ (by rw [blockCheck_sched])
    by_cases htu : t = u
    · subst htu
      rcases blockCheck_pc c t call' with hd | hd
      · rw [Looping, hd, Function.update_self] at hl
        rcases hl with hl | hl <;> cases hl
      · rw [Looping, hd, Function.update_self] at hl
        rcases hl with hl | hl <;> cases hl
        exact Or.inr hpc
    · rcases blockCheck_pc c u call' with hd | hd <;>
        rwa [Looping, hd, Function.update_of_ne htu] at hl
  | @yield u hc hpc =>
    refine .kept ?_ rfl
    by_cases htu : t = u
    · subst htu
      rw [Looping, setPc_pc, Function.update_self] at hl
      rcases hpc with hpc | ⟨call', hpc⟩ | hpc <;> rw [hpc] at hl
      · rcases hl with hl | hl <;> cases hl
      · rcases hl with hl | hl <;> cases hl
        exact Or.inl hpc
      · rcases hl with hl | hl <;> cases hl
    · rwa [Looping, setPc_pc, Function.update_of_ne htu] at hl
  | @delay u timeout l h' hc hpc hu =>
    by_cases htu : t = u
    · subst htu
      rcases hl with hl | hl <;> exact absurd (hl.symm.trans hpc) (by simp)
    · exact .kept hl (by simp [Scheduler.asleep, htu])
  | @unblock a all h' =>
    by_cases hm : t ∈ c.sched.notified a all (L .blocked)
    · exact .readied hl (by rw [unblocked_thread, if_pos hm]; rfl)
        (Or.inl (by rw [unblocked_thread, if_pos hm]; rfl))
        (Or.inl ⟨a, all, rfl, hm⟩)
    · exact .kept hl (by rw [unblocked_thread, if_neg hm])
  | tick =>
    by_cases hm : t ∈ c.sched.due (L .delayed)
    · exact .readied hl (by rw [woken_thread, if_pos hm]; rfl)
        (Or.inl (by rw [woken_thread, if_pos hm]; rfl))
        (Or.inr (Or.inl ⟨rfl, hm⟩))
    · exact .kept hl (by rw [woken_thread, if_neg hm])
  | _ => exact .kept hl rfl

/-! ## The invariant -/

/-- What the waiters of an honest run satisfy. -/
structure Awaits (c : Cpu) : Prop where
  attached : ∀ t call, c.Looping t call → (c.sched.thread t).attached = true
  /-- A sleeper is not due before its timeout has passed. -/
  deadline : ∀ t call, c.Looping t call → (c.sched.thread t).status = .delayed →
    ∃ timeout, call.timeout = some timeout ∧
      call.lastTime.add timeout ≤ (c.sched.thread t).wakeupTime
  /-- The condition of a runnable waiter holds. -/
  holds : ∀ t call, c.Looping t call →
    ((c.sched.thread t).status = .ready ∨ (c.sched.thread t).status = .running) → c.Holds call

/-- The condition stays true, except by a store. -/
theorem Acts.holds (ha : c.Acts L e d b L') (he : ∀ a v, e ≠ .store a v) (hh : c.Holds call) :
    d.Holds call := by
  have hnow : c.sched.now ≤ d.sched.now := by
    cases ha with
    | clock hnow => exact hnow
    | blockCheck => rw [blockCheck_sched]
    | _ => exact le_refl _
  refine hh.imp (fun h ↦ by rwa [ha.mem_eq he]) fun ⟨timeout, ht, hle⟩ ↦ ?_
  exact ⟨timeout, ht, hle.trans hnow⟩

/-- **An honest action keeps the condition of the runnable waiters.** -/
theorem Acts.awaits (ha : c.Acts L e d b L') (h : c.Inv L) (hw : c.Awaits) (hs : c.Honest e) :
    d.Awaits := by
  refine ⟨fun t call hl ↦ ?_, fun t call hl hst ↦ ?_, fun t call hl hst ↦ ?_⟩
  · cases ha.looping h hl with
    | kept hc hth => exact hth ▸ hw.attached t call hc
    | readied hc hatt => exact hatt ▸ hw.attached t call hc
    | blocked he hatt => exact hatt
    | delayed he hc hpc hatt => exact hatt
  · cases ha.looping h hl with
    | kept hc hth =>
      rw [hth] at hst ⊢
      exact hw.deadline t call hc hst
    | readied hc hatt hst' => rcases hst' with hst' | hst' <;> cases hst.symm.trans hst'
    | blocked he hatt hst' => cases hst.symm.trans hst'
    | @delayed timeout he hc hpc hatt htime hst' hwake =>
      subst he
      exact ⟨timeout, htime, hwake ▸ hs t call timeout hc hpc htime⟩
  · by_cases hstore : ∃ a v, e = .store a v
    · obtain ⟨a, v, rfl⟩ := hstore
      cases ha with
      | store => exact hs t call hl hst
    have hstep : c.Holds call → d.Holds call := ha.holds fun a v he ↦ hstore ⟨a, v, he⟩
    cases ha.looping h hl with
    | kept hc hth => exact hstep (hw.holds t call hc (hth ▸ hst))
    | readied hc hatt hst' hwhy =>
      refine hstep ?_
      obtain ⟨a, all, rfl, hm⟩ | ⟨rfl, hm⟩ | ⟨-, hready⟩ := hwhy
      · exact hs t (by rwa [h.linked.rep.toList_eq]) call hc
      · have hdelayed : t ∈ L .delayed := (List.takeWhile_sublist _).subset hm
        obtain ⟨timeout, htime, hle⟩ := hw.deadline t call hc
          (listOf_eq_delayed.mp (h.linked.listOf_eq hdelayed))
        have hdue : (c.sched.thread t).wakeupTime ≤ c.sched.now := by
          simpa using List.mem_takeWhile_imp hm
        exact Or.inr ⟨timeout, htime, hle.trans hdue⟩
      · exact hw.holds t call hc (Or.inl hready)
    | blocked he hatt hst' => rw [hst'] at hst; rcases hst with hst | hst <;> cases hst
    | delayed he hc hpc hatt htime hst' => rw [hst'] at hst; rcases hst with hst | hst <;> cases hst

theorem awaits_switchTask (h : d.Inv L) (hw : d.Awaits) (hs : d.switchTask = .ok c') :
    c'.Awaits := by
  obtain ⟨s, hsw, rfl⟩ := switchTask_eq_ok hs
  rcases switchTask_cases hsw with rfl | ⟨cnt, next, -, hc, -, hsel, rfl⟩
  · exact hw
  obtain ⟨p, hp⟩ := h.linked.selectNextThread_mem hc hsel
  have hnext := (listOf_eq_ready.mp (h.linked.listOf_eq hp)).1
  -- a switch changes the status of threads that are runnable, and nothing else
  have hsame : ∀ t, (d.sched.switched cnt next).thread t = d.sched.thread t ∨
      ((d.sched.thread t).status = .ready ∨ (d.sched.thread t).status = .running) ∧
        (((d.sched.switched cnt next).thread t).status = .ready ∨
          ((d.sched.switched cnt next).thread t).status = .running) ∧
        ((d.sched.switched cnt next).thread t).attached = (d.sched.thread t).attached := by
    intro t
    rw [switched_thread]
    by_cases hn : t = next
    · subst hn
      exact Or.inr ⟨hnext, by simp⟩
    · by_cases hcnt : t = cnt ∧ (d.sched.thread cnt).status = .running
      · rw [if_neg hn, if_pos hcnt]
        obtain ⟨rfl, hrun⟩ := hcnt
        exact Or.inr ⟨Or.inr hrun, by simp⟩
      · rw [if_neg hn, if_neg hcnt]
        exact Or.inl rfl
  refine ⟨fun t call hl ↦ ?_, fun t call hl hst ↦ ?_, fun t call hl hst ↦ ?_⟩
  · rcases hsame t with hth | ⟨-, -, hatt⟩
    · exact (congrArg Thread.attached hth).trans (hw.attached t call hl)
    · exact hatt.trans (hw.attached t call hl)
  · rcases hsame t with hth | ⟨-, hst' | hst', -⟩
    · dsimp only at hst ⊢
      rw [hth] at hst ⊢
      exact hw.deadline t call hl hst
    · exact absurd (hst.symm.trans hst') (by simp)
    · exact absurd (hst.symm.trans hst') (by simp)
  · rcases hsame t with hth | ⟨hold, -⟩
    · dsimp only at hst
      rw [hth] at hst
      exact hw.holds t call hl hst
    · exact hw.holds t call hl hold

theorem awaits_init : (init mem).Awaits where
  attached _ _ h := by rcases h with h | h <;> cases h
  deadline _ _ h := by rcases h with h | h <;> cases h
  holds _ _ h := by rcases h with h | h <;> cases h

theorem awaits_of_reachable (h : (machine mem).ReachableWhile Honest c) :
    ∃ L, c.Inv L ∧ c.Awaits := by
  refine h.invariant (I := fun c ↦ ∃ L, c.Inv L ∧ c.Awaits) ⟨_, inv_init, awaits_init⟩ ?_
  rintro c e c' - ⟨L, hI, hw⟩ hs hn
  obtain ⟨d, b, L', ha, hId, hI', ⟨rfl, rfl⟩ | ⟨rfl, -, hsw⟩⟩ := hI.next_cases hn
  · exact ⟨L', hI', ha.awaits hI hw hs⟩
  · exact ⟨L', hI', awaits_switchTask hId (ha.awaits hI hw hs) hsw⟩

/-- **A waiter whose condition does not hold is not runnable**, in the runs of honest steps. -/
theorem waiter_not_runnable (h : (machine mem).ReachableWhile Honest c) (hl : c.Looping t call)
    (hn : ¬c.Holds call) : c.NotRunnable t := by
  obtain ⟨L, hI, hw⟩ := awaits_of_reachable h
  obtain ⟨l, hlist, hm⟩ := hI.linked.exists_mem (hw.attached t call hl)
  rw [NotRunnable, hI.linked.rep.toList_eq]
  cases l with
  | ready p => exact absurd (hw.holds t call hl (listOf_eq_ready.mp hlist).1) hn
  | blocked =>
    exact ⟨Or.inl hm, fun p hp ↦ by cases hI.linked.rep.disjoint _ _ t hm hp⟩
  | delayed =>
    exact ⟨Or.inr hm, fun p hp ↦ by cases hI.linked.rep.disjoint _ _ t hm hp⟩

/-- Nobody is notified, nothing is stored, and nobody gives a timeout. -/
def Untouched (c : Cpu) : Event → Bool
  | .unblock .. | .store .. => false
  | .blockSection => c.currentPc.all fun
    | .entered call => call.timeout.isNone
    | _ => true
  | _ => true

theorem honest_of_untouched (h : c.Untouched e = true) : c.Honest e := by
  cases e with
  | unblock | store => cases h
  | blockSection =>
    intro t call timeout hc hpc htime
    simp [Untouched, currentPc, hc, hpc, htime] at h
  | _ => trivial

/-- A thread waits while the scheduler is locked, so its `yield` does not leave the CPU. -/
def waitsLocked : List Event :=
  [.attach 0 .idle, .attach 1 .high, .startSchedule 1, .lock, .block 100 0 none, .blockSection,
    .yield]

/-- It goes on and reads the old value again. -/
theorem waiter_not_runnable_blocked :
    ((machine zeroed).afterWhile (fun c e ↦ c.Untouched e = true) waitsLocked).pc 1 =
      .resumed ⟨100, 0, none, 0⟩ ∧
    ((machine zeroed).afterWhile (fun c e ↦ c.Untouched e = true)
      (waitsLocked ++ [.blockCheck])).pc 1 = .suspended ⟨100, 0, none, 0⟩ ∧
    ((machine zeroed).afterWhile (fun c e ↦ c.Untouched e = true)
      (waitsLocked ++ [.blockCheck])).NotRunnable 1 := by
  refine ⟨by decide, by decide, waiter_not_runnable
    ((Machine.reachableWhile_afterWhile (M := machine zeroed) _).mono
      fun _ _ ↦ honest_of_untouched) (Or.inl (by decide : _ = Pc.suspended ⟨100, 0, none, 0⟩)) ?_⟩
  rintro (h | ⟨timeout, h, -⟩)
  · exact h (by decide)
  · cases h

/-- The word changes for a notification and back before the waiter reads it.  The waiter stays in
its ready list, and its `yield` does not leave the CPU to the thread of a lower priority. -/
theorem recheck_stays_ready :
    let c := (machine zeroed).after [.attach 0 .idle, .attach 1 .high, .startSchedule 1,
      .block 100 0 none, .blockSection, .yield, .store 100 1, .unblock 100 true, .store 100 0,
      .irqYield]
    let c' := (c.next .blockCheck).get (by decide)
    let call : BlockCall := ⟨100, 0, none, 0⟩
    (machine zeroed).Reachable c ∧ c.sched.current = some 1 ∧ c.pc 1 = .resumed call ∧
      ¬c.Holds call ∧ c.next .blockCheck = some c' ∧ c'.pc 1 = .suspended call ∧
      ¬c'.NotRunnable 1 ∧ (c'.next .yield).map (fun c ↦ c.sched.current) = some (some 1) := by
  refine ⟨(machine zeroed).reachable_after _, by decide, by decide, ?_, (Option.some_get _).symm,
    by decide, fun h ↦ h.2 .high (by decide), by decide⟩
  rintro (h | ⟨timeout, h, -⟩)
  · exact h (by decide)
  · cases h

end Cpu

end Chino
