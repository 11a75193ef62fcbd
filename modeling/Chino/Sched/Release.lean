import Chino.Sched.Exit

/-!
# Releasing the scheduler lock

A thread that becomes ready asks for a switch by posting a yield request.  While the scheduler lock
is held, the interrupt that answers the request finds `lock_depth_` not zero, and the request is
gone.  `unlock` only counts down, so nobody asks again before the next tick: a thread may wait for
as long as that while one of a lower priority runs (`outranked_after_unlock`).

Everything else is in order.  Between two steps no ready thread outranks the current one, unless a
request is still to be answered or the lock is held: `nobody_outranks`, for the runs in which this
is also so whenever the depth of the lock comes back to zero.

## The condition

`AsksAgain` is about three kinds of events, in the state before them: an `unlock` (or a `lock` whose
depth wraps around) that brings the depth to zero, the start of the scheduler, and a switch away
from a thread that has exited.  None of them may leave a ready thread above the current one without
a yield request.

Everything else keeps the property without any condition, and this is the larger half of the proof:
a thread that becomes ready by a notification, a tick or its attachment posts a request if it is
above the current one; a request is dropped only by the interrupt that answers it; and that
interrupt switches, unless the lock is held.  `Acts.ranked` and `ranked_switchTask` are these two.
-/

set_option autoImplicit false

namespace Chino

open Function (update)
open Scheduler

namespace Cpu

variable {mem : Addr → UInt32} {c c' d : Cpu} {L L' : Queues} {e : Event}

/-! ## The condition -/

/-- No ready thread has a higher priority than the current one. -/
def NobodyOutranks (s : Scheduler) : Prop :=
  ∀ t ∈ s.current, ∀ q, s.lists.toList (.ready q) ≠ [] → q.toNat ≤ (s.thread t).priority.toNat

instance (s : Scheduler) : Decidable (NobodyOutranks s) := by unfold NobodyOutranks; infer_instance

/-- A switch that is owed to somebody has been asked for. -/
def Asked (s : Scheduler) : Prop := s.yieldRequests ≠ 0 ∨ NobodyOutranks s

instance (s : Scheduler) : Decidable (Asked s) := by unfold Asked; infer_instance

/-- An exiting thread that is not running hides no ready thread from `switch_task`. -/
def HidesNobody (d : Cpu) : Prop :=
  ∀ t ∈ d.sched.current, d.Exits t → (d.sched.thread t).status ≠ .running →
    ∀ q, d.sched.lists.toList (.ready q) ≠ [] → q.toNat ≤ d.sched.maxReadyPriority.toNat

instance (d : Cpu) : Decidable (HidesNobody d) := by unfold HidesNobody; infer_instance

/-- The first thread is one that nobody outranks, and where the depth of the lock comes back to zero
a switch that is owed has been asked for. -/
def AsksAgain (c : Cpu) : Event → Prop
  | .startSchedule t => ∀ q, c.sched.lists.toList (.ready q) ≠ [] →
      q.toNat ≤ (c.sched.thread t).priority.toNat
  | .lock => c.sched.lockDepth + 1 = 0 → Asked c.sched
  | .unlock => c.sched.lockDepth - 1 = 0 → Asked c.sched
  | e => ∀ d ∈ c.beforeSwitch e, HidesNobody d

instance (c : Cpu) : (e : Event) → Decidable (AsksAgain c e)
  | .startSchedule t => inferInstanceAs (Decidable (∀ q, c.sched.lists.toList (.ready q) ≠ [] →
      q.toNat ≤ (c.sched.thread t).priority.toNat))
  | .lock => inferInstanceAs (Decidable (c.sched.lockDepth + 1 = 0 → Asked c.sched))
  | .unlock => inferInstanceAs (Decidable (c.sched.lockDepth - 1 = 0 → Asked c.sched))
  | .attach .. | .detach | .block .. | .blockSection | .blockCheck | .yield | .delay _ | .unblock ..
  | .store .. | .tick | .irqYield | .clock _ =>
    inferInstanceAs (Decidable (∀ d ∈ c.beforeSwitch _, HidesNobody d))

/-! ## The invariant -/

/-- `NobodyOutranks`, of the sequences that the lists spell out. -/
def Tops (s : Scheduler) (L : Queues) : Prop :=
  ∀ t, s.current = some t → ∀ q, L (.ready q) ≠ [] → q.toNat ≤ (s.thread t).priority.toNat

/-- What holds between two steps. -/
def Ranked (s : Scheduler) (L : Queues) : Prop :=
  s.lockDepth = 0 → s.yieldRequests = 0 → Tops s L

theorem nobodyOutranks_iff {s : Scheduler} (hr : s.lists.Represents L) :
    NobodyOutranks s ↔ Tops s L := by
  simp [NobodyOutranks, Tops, hr.toList_eq]

/-- Threads leave the ready lists. -/
theorem Tops.leave {s s' : Scheduler} (h : Tops s L) (hcur : s'.current = s.current)
    (hprio : ∀ t, (s'.thread t).priority = (s.thread t).priority)
    (hL : ∀ q, L' (.ready q) ≠ [] → L (.ready q) ≠ []) : Tops s' L' := by
  intro t ht q hq
  rw [hprio]
  exact h t (hcur.symm.trans ht) q (hL q hq)

/-- The same, of what holds between two steps. -/
theorem Ranked.leave {s s' : Scheduler} (h : Ranked s L) (hlock : s'.lockDepth = s.lockDepth)
    (hreq : s'.yieldRequests = s.yieldRequests) (hcur : s'.current = s.current)
    (hprio : ∀ t, (s'.thread t).priority = (s.thread t).priority)
    (hL : ∀ q, L' (.ready q) ≠ [] → L (.ready q) ≠ []) : Ranked s' L' := fun h₁ h₂ ↦
  (h (hlock ▸ h₁) (hreq ▸ h₂)).leave hcur hprio hL

theorem without_ne_nil {l l' : ListId} {t : ThreadId} (h : without L l t l' ≠ []) : L l' ≠ [] := by
  intro hnil
  have := without_sublist L l t l'
  rw [hnil, List.sublist_nil] at this
  exact h this

theorem update_priority {s : Scheduler} {t u : ThreadId} {th : Thread}
    (h : th.priority = (s.thread t).priority) :
    (update s.thread t th u).priority = (s.thread u).priority := by
  by_cases hu : u = t
  · rw [hu, Function.update_self, h]
  · rw [Function.update_of_ne hu]

/-- **A section that does not switch leaves nobody behind**: whoever it makes ready has a request
posted. -/
theorem Acts.ranked (ha : c.Acts L e d false L') (h : c.Inv L) (hr : Ranked c.sched L)
    (hc : c.AsksAgain e) : Ranked d.sched L' := by
  generalize hb : false = b at ha
  cases ha with
  | attach =>
    -- nobody is running yet
    intro _ _ t ht
    have hnone := h.started
    rw [← hb, show c.sched.current = some t from ht] at hnone
    cases hnone
  | startSchedule hs ht =>
    rintro - - u hu q hq
    cases hu
    have := hc q (by rwa [h.linked.rep.toList_eq])
    simpa [modifyThread] using this
  | detach hcur hpc ht =>
    exact hr.leave rfl rfl rfl (fun u ↦ update_priority rfl) fun q ↦ without_ne_nil
  | blockUntimed hcur hpc hmem htime ht =>
    refine hr.leave rfl rfl rfl (fun u ↦ update_priority rfl) fun q hq ↦ ?_
    rw [Function.update_of_ne (by simp)] at hq
    exact without_ne_nil hq
  | @blockTimed t call timeout l h' hcur hpc hmem htime ht =>
    refine hr.leave rfl rfl rfl (fun u ↦ ?_) fun q hq ↦ ?_
    · rw [asleep_waiting_thread]
      exact update_priority rfl
    · rw [sleepQueues, Function.update_of_ne (by simp)] at hq
      exact without_ne_nil hq
  | blockCheck => rw [blockCheck_sched]; exact hr
  | block | blockMissed | store | clock => exact hr
  | @unblock a all h' =>
    cases hn : c.sched.notified a all (L .blocked) with
    | nil =>
      refine hr.leave rfl (by simp [unblocked, hn]) rfl (fun u ↦ ?_) fun q hq ↦ ?_
      · rw [unblocked_thread, hn, if_neg List.not_mem_nil]
      · rwa [wakeQueues_nil] at hq
    | cons u us =>
      intro _ hreq
      simp [unblocked, hn] at hreq
  | lock | unlock =>
    intro hlock hreq
    have := (hc hlock).resolve_left (not_not.mpr hreq)
    exact (nobodyOutranks_iff h.linked.rep).mp this
  | _ => cases hb

/-- **An unlocked switch leaves nobody behind.** -/
theorem ranked_switchTask (h : d.Inv L) (hp : d.sched.Peak L) (hh : HidesNobody d)
    (hs : d.switchTask = .ok c') : Ranked c'.sched L := by
  obtain ⟨s, hsw, rfl⟩ := switchTask_eq_ok hs
  by_cases hlock : d.sched.lockDepth = 0
  · obtain ⟨cnt, next, hc, hsel⟩ := selectNextThread_of_switchTask hlock hsw
    obtain ⟨s', hsw', hcur, -, hsame, -⟩ := switchTask_selected hlock hc hsel
    cases hsw.symm.trans hsw'
    have hover : (d.sched.thread cnt).status ≠ .running → ∀ q, L (.ready q) ≠ [] →
        q.toNat ≤ d.sched.maxReadyPriority.toNat := by
      intro hst q hq
      by_contra hlt
      have ho : Overtopped d.sched :=
        ⟨cnt, hc, hst, q, by rwa [h.linked.rep.toList_eq], by omega⟩
      obtain ⟨t, hx, hst', -⟩ := exits_of_overtopped h hp hlock ho
      cases hc.symm.trans hx.2.1
      exact hlt (hh cnt hc hx hst' q (by rwa [h.linked.rep.toList_eq]))
    obtain ⟨-, hhigh⟩ := selected_highest h.linked hp hc hover hsel
    rintro - - t ht q hq
    cases hcur.symm.trans ht
    rw [(hsame next).1]
    exact hhigh q hq
  · rw [switchTask_locked hlock] at hsw
    cases hsw
    exact fun hlock' ↦ absurd hlock' hlock

/-- An event that ends with a switch is not one of those that the condition names. -/
theorem AsksAgain.hidesNobody (hc : c.AsksAgain e) (hd : c.beforeSwitch e = some d) :
    HidesNobody d := by
  have hact := beforeSwitch_eq_some.mp hd
  cases e with
  | startSchedule | lock | unlock => cases hact
  | _ => exact hc d hd

/-! ## Every run -/

theorem ranked_invariant (h : (machine mem).ReachableWhile AsksAgain c) :
    ∃ L, c.Inv L ∧ c.sched.Peak L ∧ Ranked c.sched L := by
  refine h.invariant (I := fun c ↦ ∃ L, c.Inv L ∧ c.sched.Peak L ∧ Ranked c.sched L)
    ⟨_, inv_init, peak_init, fun _ _ t ht ↦ by cases ht⟩ ?_
  rintro c e c' - ⟨L, hI, hP, hr⟩ hc hn
  obtain ⟨d, b, L', ha, hd, hI', ⟨rfl, rfl⟩ | ⟨rfl, hbefore, hsw⟩⟩ := hI.next_cases hn
  · exact ⟨L', hI', ha.peak hI hP, ha.ranked hI hr hc⟩
  · have hP' := ha.peak hI hP
    have hh := hc.hidesNobody hbefore
    refine ⟨L', hI', peak_switchTask hd hP' (fun hlock ho ↦ ?_) hsw,
      ranked_switchTask hd hP' hh hsw⟩
    obtain ⟨t, hx, hst, hno⟩ := exits_of_overtopped hd hP' hlock ho
    refine hno ?_
    rw [HandsOver, if_neg hst]
    exact hh t hx.2.1 hx hst

/-- **No ready thread outranks the current one** when the lock is free and no request is pending. -/
theorem nobody_outranks (h : (machine mem).ReachableWhile AsksAgain c)
    (hlock : c.sched.lockDepth = 0) (hreq : c.sched.yieldRequests = 0) :
    NobodyOutranks c.sched := by
  obtain ⟨L, hI, -, hr⟩ := ranked_invariant h
  exact (nobodyOutranks_iff hI.linked.rep).mpr (hr hlock hreq)

/-- The idle thread runs, and a thread of normal priority waits for the word 5. -/
def idleRuns : List Event :=
  [.attach 0 .idle, .attach 1 .normal, .startSchedule 1, .block 5 0 none, .blockSection, .yield]

/-- The thread is notified at the end of a locked region, and the request is answered after it. -/
theorem nobody_outranks_idle :
    let c := (machine zeroed).afterWhile AsksAgain
      (idleRuns ++ ([.lock, .lock, .unlock, .store 5 1, .unblock 5 true, .unlock,
        .irqYield] : List Event))
    c.sched.current = some 1 ∧ NobodyOutranks c.sched :=
  ⟨by decide +kernel, nobody_outranks (Machine.reachableWhile_afterWhile _) (by decide +kernel)
    (by decide +kernel)⟩

/-- The thread is notified in the middle of a locked region and the request is answered there: the
idle thread goes on after it. -/
theorem outranked_after_unlock :
    let c := (machine zeroed).after
      (idleRuns ++ ([.lock, .store 5 1, .unblock 5 true, .irqYield, .unlock] : List Event))
    (machine zeroed).Reachable c ∧ c.sched.lockDepth = 0 ∧ c.sched.yieldRequests = 0 ∧
      c.currentPc = some .user ∧ c.sched.current = some 0 ∧
      c.sched.lists.toList (.ready .normal) = [1] ∧ ¬ NobodyOutranks c.sched :=
  ⟨(machine zeroed).reachable_after _, by decide +kernel⟩

end Cpu

end Chino
