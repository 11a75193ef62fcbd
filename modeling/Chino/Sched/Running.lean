import Chino.Sched.Partition

/-!
# The running thread

`set_current_thread` makes the thread it is given `running`, and the one before `ready`.  But
`switch_task` does not call it if the selected thread is the current one, and that thread need not
be running: an interrupt between the locked section of `block_current_thread` and its `yield` makes
it `ready` while it is current.  If it is selected then it stays `ready`, and no thread is running.

`current_runs_iff` says that this is the only way.

## The condition

An unlocked `switch_task` ends in three ways: nobody was selected and nothing happens, the current
thread is selected, or another one is.  In the third case `set_current_thread` writes both states
and all is well.  In the second one the current thread keeps the state it has.

So the condition is about the state before the switch: a current thread that is not running is not
the one that would be selected.  The theorem is an equivalence for every switch that is not locked,
in any reachable state, and covers the two things a caller wants: the current thread is `running`,
and no other thread is.

The run at the end interrupts a thread between its locked section and its `yield`; the notification
puts it back on its list, it is selected, and stays `ready` while it runs.

## The condition

`unlocked_switchTask` ends in three ways: nobody was selected and nothing happens, the current
thread is selected, or another one is.  In the third case `set_current_thread` writes both states
and all is well.  In the second one the current thread keeps the state it has.

So the condition is about the state before the switch: a current thread that is not running is not
the one that would be selected.  The theorem is an equivalence for every switch that is not locked,
in any reachable state, and covers the two things a caller wants: the current thread is `running`,
and no other thread is.

The run at the end interrupts a thread between its locked section and its `yield`; the notification
puts it back on its list, it is selected, and stays `ready` while it runs.
-/

set_option autoImplicit false

namespace Chino

open Function (update)
open Scheduler

namespace Cpu

variable {mem : Addr → UInt32} {c c' d : Cpu} {L L' : Queues} {e : Event} {b : Bool}

/-- The current thread, and no other attached thread, is running. -/
def CurrentRuns (c : Cpu) : Prop :=
  ∃ t, c.sched.current = some t ∧
    ∀ u, (c.sched.thread u).attached = true ∧ (c.sched.thread u).status = .running ↔ u = t

/-- The current thread has been made ready while it was current, and is the first one in the range
of the search of `select_next_thread`. -/
def Relisted (c : Cpu) : Prop :=
  ∃ t, c.sched.current = some t ∧ (c.sched.thread t).status = .ready ∧
    (c.sched.lists.toList (.ready (c.sched.thread t).priority)).head? = some t ∧
    (c.sched.thread t).priority.toNat ≤ c.sched.maxReadyPriority.toNat ∧
    ∀ q, (c.sched.thread t).priority.toNat < q.toNat → q.toNat ≤ c.sched.maxReadyPriority.toNat →
      c.sched.lists.toList (.ready q) = []

/-- No thread but the current one is running. -/
def OnlyCurrent (c : Cpu) : Prop :=
  ∀ u, (c.sched.thread u).attached = true → (c.sched.thread u).status = .running →
    c.sched.current = some u

/-- A thread that is running after an action was running before it, or is the first one. -/
theorem Acts.onlyCurrent (ha : c.Acts L e d b L') (h : c.Inv L) (hc : c.OnlyCurrent) :
    d.OnlyCurrent := by
  intro u hatt hst
  cases ha with
  | @attach t p h' ht hcur =>
    by_cases hu : u = t
    · subst hu
      simp [Scheduler.attached, construct, modifyThread] at hst
    · simp only [Scheduler.attached, construct, modifyThread, Function.update_of_ne hu] at hatt hst
      exact hc u hatt hst
  | @startSchedule t hs ht =>
    by_cases hu : u = t
    · exact congrArg some hu.symm
    · simp only [modifyThread, Function.update_of_ne hu] at hatt hst
      exact absurd ((h.boot hs u hatt).symm.trans hst) (by simp)
  | @detach t =>
    by_cases hu : u = t
    · subst hu
      simp [Scheduler.detached] at hatt
    · simp only [Scheduler.detached, Function.update_of_ne hu] at hatt hst
      exact hc u hatt hst
  | @blockUntimed t =>
    by_cases hu : u = t
    · subst hu
      simp [Scheduler.blocked] at hst
    · simp only [Scheduler.blocked, Function.update_of_ne hu] at hatt hst
      exact hc u hatt hst
  | @blockTimed t =>
    by_cases hu : u = t
    · subst hu
      simp [asleep_waiting_thread, sleepThread] at hst
    · simp only [asleep_waiting_thread, Function.update_of_ne hu] at hatt hst
      exact hc u hatt hst
  | @delay t =>
    by_cases hu : u = t
    · subst hu
      simp [Scheduler.asleep, sleepThread] at hst
    · simp only [Scheduler.asleep, Function.update_of_ne hu] at hatt hst
      exact hc u hatt hst
  | unblock =>
    rw [unblocked_thread] at hatt hst
    split at hst
    · simp at hst
    · rename_i hm
      exact hc u (by simpa [hm] using hatt) hst
  | tick =>
    rw [woken_thread] at hatt hst
    split at hst
    · simp at hst
    · rename_i hm
      exact hc u (by simpa [hm] using hatt) hst
  | blockCheck =>
    rw [blockCheck_sched] at hatt hst ⊢
    exact hc u hatt hst
  | _ => exact hc u hatt hst

theorem onlyCurrent_switchTask (hc : d.OnlyCurrent) (hs : d.switchTask = .ok c') :
    c'.OnlyCurrent := by
  obtain ⟨s, hsw, rfl⟩ := switchTask_eq_ok hs
  rcases switchTask_cases hsw with rfl | ⟨cnt, next, -, hcur, -, -, rfl⟩
  · exact hc
  intro u hatt hst
  dsimp only at hatt hst
  rw [switched_thread] at hatt hst
  by_cases hn : u = next
  · exact congrArg some hn.symm
  · rw [if_neg hn] at hatt hst
    by_cases hcnt : u = cnt ∧ (d.sched.thread cnt).status = .running
    · rw [if_pos hcnt] at hst
      cases hst
    · rw [if_neg hcnt] at hatt hst
      cases hcur.symm.trans (hc u hatt hst)
      exact absurd ⟨rfl, hst⟩ hcnt

theorem onlyCurrent_of_reachable (h : (machine mem).Reachable c) :
    ∃ L, c.Inv L ∧ c.OnlyCurrent := by
  refine Machine.Reachable.invariant (I := fun c ↦ ∃ L, c.Inv L ∧ c.OnlyCurrent)
    ⟨_, inv_init, fun u hatt ↦ by cases hatt⟩ ?_ h
  rintro c e c' - ⟨L, hI, hc⟩ hn
  obtain ⟨d, b, L', ha, -, hI', ⟨rfl, rfl⟩ | ⟨rfl, -, hsw⟩⟩ := hI.next_cases hn
  · exact ⟨L', hI', ha.onlyCurrent hI hc⟩
  · exact ⟨L', hI', onlyCurrent_switchTask (ha.onlyCurrent hI hc) hsw⟩

/-- The current thread runs as soon as it is attached and running. -/
theorem OnlyCurrent.currentRuns_iff (hc : c.OnlyCurrent) {t : ThreadId}
    (ht : c.sched.current = some t) : c.CurrentRuns ↔
      (c.sched.thread t).attached = true ∧ (c.sched.thread t).status = .running := by
  constructor
  · rintro ⟨u, hu, hiff⟩
    cases ht.symm.trans hu
    exact (hiff t).mpr rfl
  · intro hrun
    refine ⟨t, ht, fun u ↦ ⟨fun ⟨hatt, hst⟩ ↦ ?_, fun hu ↦ hu ▸ hrun⟩⟩
    cases ht.symm.trans (hc u hatt hst)
    rfl

/-- The search selects the current thread exactly if it is relisted. -/
theorem Inv.selects_current_iff (h : d.Inv L) {t next : ThreadId} (ht : d.sched.current = some t)
    (hst : (d.sched.thread t).status ≠ .running) (hsel : d.sched.selectNextThread = .ok next) :
    next = t ↔ d.Relisted := by
  rw [selectNextThread_search ht (Or.inr hst), searchBound, if_pos hst] at hsel
  have hlists := h.linked.rep.toList_eq
  rcases searchReady_cases h.linked.rep 0 _ d.sched.maxReadyPriority rfl with
    ⟨p, -, hple, -, hhigh, hres⟩ | ⟨-, hres⟩
  swap
  · rw [hres] at hsel
    cases hsel
  rw [hres] at hsel
  obtain ⟨zs, hz⟩ : ∃ zs, L (.ready p) = next :: zs := by
    cases hL : L (.ready p) with
    | nil => rw [hL] at hsel; cases hsel
    | cons z zs => rw [hL] at hsel; cases hsel; exact ⟨zs, rfl⟩
  have hnext := h.linked.listOf_eq (t := next) (l := .ready p) (hz ▸ List.mem_cons_self)
  obtain ⟨hready, hprio⟩ := listOf_eq_ready.mp hnext
  constructor
  · rintro rfl
    refine ⟨next, ht, hready.resolve_right hst, ?_, hprio ▸ hple, fun q hq hqm ↦ ?_⟩
    · rw [hlists, hprio, hz]
      rfl
    · rw [hlists]
      exact hhigh q (hprio ▸ hq) hqm
  · rintro ⟨u, hu, -, hhead, hle, hempty⟩
    cases ht.symm.trans hu
    rw [hlists] at hhead hempty
    -- both lists are the highest one that is not empty
    have hpt : p = (d.sched.thread t).priority := by
      refine ThreadPriority.toNat_injective ?_
      rcases Nat.lt_trichotomy p.toNat (d.sched.thread t).priority.toNat with hlt | heq | hlt
      · have hnil := hhigh _ hlt hle
        rw [hnil] at hhead
        cases hhead
      · exact heq
      · have hnil := hempty p hlt hple
        rw [hz] at hnil
        cases hnil
    rw [← hpt, hz] at hhead
    exact Option.some.inj hhead

/-- **After `switch_task` the current thread is the running one, unless it was relisted.** -/
theorem current_runs_iff (h : (machine mem).Reachable c) (hd : c.beforeSwitch e = some d)
    (hn : c.next e = some c') (hlock : c'.sched.lockDepth = 0) :
    c'.CurrentRuns ↔ ¬d.Relisted := by
  obtain ⟨L, hI, hc⟩ := onlyCurrent_of_reachable h
  obtain ⟨L', ha, hId, hI', hsw⟩ := hI.next_switch hd hn
  have hcd := ha.onlyCurrent hI hc
  have hcc := onlyCurrent_switchTask hcd hsw
  obtain ⟨s, hs, rfl⟩ := switchTask_eq_ok hsw
  have hlock' : d.sched.lockDepth = 0 := by
    rcases switchTask_cases hs with rfl | ⟨cnt, next, hl, -⟩
    · exact hlock
    · exact hl
  obtain ⟨cnt, next, hcur, hsel⟩ := selectNextThread_of_switchTask hlock' hs
  by_cases hne : cnt = next
  · subst hne
    rw [switchTask_stay hcur hsel] at hs
    cases hs
    rw [hcd.currentRuns_iff hcur]
    obtain ⟨p, hp⟩ := hId.linked.selectNextThread_mem hcur hsel
    have hatt := hId.linked.attached hp
    by_cases hrun : (d.sched.thread cnt).status = .running
    · refine iff_of_true ⟨hatt, hrun⟩ ?_
      rintro ⟨t, ht, hready, -⟩
      cases hcur.symm.trans ht
      exact absurd (hready.symm.trans hrun) (by simp)
    · exact iff_of_false (fun h ↦ hrun h.2)
        (not_not.mpr ((hId.selects_current_iff hcur hrun hsel).mp rfl))
  · rw [switchTask_move hlock' hcur hsel hne] at hs
    cases hs
    obtain ⟨p, hp⟩ := hId.linked.selectNextThread_mem hcur hsel
    refine iff_of_true ((hcc.currentRuns_iff rfl).mpr ?_) fun hre ↦ ?_
    · dsimp only
      rw [switched_thread, if_pos rfl]
      exact ⟨hId.linked.attached hp, rfl⟩
    · obtain ⟨t, ht, hready, -⟩ := id hre
      cases hcur.symm.trans ht
      exact hne ((hId.selects_current_iff hcur (by simp [hready]) hsel).mpr hre).symm

/-- A thread that yields to another one of its priority. -/
theorem current_runs_iff_yield :
    let c := (machine zeroed).after [.attach 0 .idle, .attach 1 .normal, .attach 2 .normal,
      .startSchedule 1]
    let d := (c.beforeSwitch .yield).get (by decide)
    let c' := (c.next .yield).get (by decide)
    c'.sched.current = some 2 ∧ (c'.CurrentRuns ↔ ¬d.Relisted) :=
  ⟨by decide, current_runs_iff ((machine zeroed).reachable_after _) (Option.some_get _).symm
    (Option.some_get _).symm (by decide)⟩

/-- A thread is notified between its locked section and its `yield`.  It stays ready, and from then
on every `switch_task` selects it again, whoever else is ready at its priority. -/
theorem relisted_stays_ready :
    let c := (machine zeroed).after [.attach 0 .idle, .attach 1 .normal, .startSchedule 1,
      .block 100 0 none, .blockSection, .unblock 100 true]
    let c' := (c.next .yield).get (by decide)
    (machine zeroed).Reachable c ∧ c.next .yield = some c' ∧ c'.sched.lockDepth = 0 ∧
      ¬c'.CurrentRuns ∧ ((c'.next (.attach 2 .normal)).bind fun c ↦ c.next .tick).map
        (fun c ↦ c.sched.current) = some (some 1) := by
  refine ⟨(machine zeroed).reachable_after _, (Option.some_get _).symm, by decide, ?_, by decide⟩
  rintro ⟨t, ht, hiff⟩
  have hrun := ((hiff t).mpr rfl).2
  obtain rfl : (1 : ThreadId) = t := Option.some.inj ((by decide : _ = some 1).symm.trans ht)
  exact absurd hrun (by decide)

end Cpu

end Chino
