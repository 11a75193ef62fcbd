import Chino.Library.Sorted
import Chino.Sched.Partition

/-!
# Sleepers and the clock

`wakeup_delayed_threads` stops at the first thread that is not due, so it relies on
`delayed_threads_` being sorted by `wakeup_time`.  `add_to_delay_list` looks for the place of a new
sleeper behind the head of the list and never in front of it: a thread that is due before the head
comes second, and is not woken before the head is.

`SleepRule` is the rule that no thread goes to sleep in front of the head.
`sorted_insertDelayed_iff` says that an insertion keeps the list sorted exactly then, and
`no_sleeper_overslept` is what follows for the runs under this rule.

## What is here

* `InTime` is sortedness of the delayed list by `wakeup_time`, with `Chino.Library.Sorted` for what
  the tick makes of a sorted list: the due threads are a prefix.
* `insertDelayed` is where the code puts a sleeper, as `Chino.Sched.Sequences` has worked it out.
  `sorted_insertDelayed_iff` compares it with the place it should go to: the two agree unless the
  list is not empty and its head is due later than the new sleeper.
* `SleepRule` is a condition on events, in the state before them, and `Acts.inTime` says that it is
  enough: no other action breaks the order, since all of them only take threads off the list.

A run in which an earlier sleeper is left behind a later one is at the end
(`overslept_behind_later`).  The list is in order again once the head was woken, so the rule is
about the moment of going to sleep and not about the run as a whole.
-/

set_option autoImplicit false

namespace Chino

open Function (update)

namespace Scheduler

variable {s : Scheduler} {L : Queues} {t : ThreadId} {w : Nanoseconds}

/-- The time that a delayed thread sleeps until. -/
def wakeupTime (s : Scheduler) (t : ThreadId) : Nanoseconds := (s.thread t).wakeupTime

/-- The sequence is sorted by `wakeup_time`. -/
abbrev InTime (s : Scheduler) (zs : List ThreadId) : Prop := SortedBy s.wakeupTime zs

/-- The thread at the head of a list is due no later than `w`. -/
def HeadBefore (s : Scheduler) (zs : List ThreadId) (w : Nanoseconds) : Prop :=
  ∀ p ∈ zs.head?, s.wakeupTime p ≤ w

instance (zs : List ThreadId) : Decidable (s.HeadBefore zs w) := by
  unfold HeadBefore; infer_instance

/-- **An insertion keeps the list sorted exactly if the new sleeper is due after the head.** -/
theorem sorted_insertDelayed_iff {s' : Scheduler} {zs : List ThreadId} (hz : s.InTime zs)
    (hw : ∀ u, s'.wakeupTime u = if u = t then w else s.wakeupTime u) (ht : t ∉ zs) :
    s'.InTime (s.insertDelayed w t zs) ↔ s.HeadBefore zs w := by
  have hsame : ∀ u ∈ zs, s'.wakeupTime u = s.wakeupTime u := fun u hu ↦ by
    have hut : u ≠ t := fun he ↦ ht (he ▸ hu)
    rw [hw, if_neg hut]
  have hself : s'.wakeupTime t = w := by rw [hw, if_pos rfl]
  cases zs with
  | nil => exact iff_of_true (SortedBy.singleton t) fun p hp ↦ by cases hp
  | cons p zs =>
    constructor
    · intro h q hq
      obtain rfl : p = q := by simpa using hq
      have := (List.pairwise_cons.mp h).1 t (by simp)
      rwa [hself, hsame p (by simp)] at this
    · intro h
      have hp : s.wakeupTime p ≤ w := h p rfl
      have hins := hz.insert hself hsame
      rwa [List.takeWhile_cons_of_pos (by simpa using hp),
        List.dropWhile_cons_of_pos (by simpa using hp)] at hins

end Scheduler

open Scheduler

namespace Cpu

variable {mem : Addr → UInt32} {c c' d : Cpu} {L L' : Queues} {e : Event} {b : Bool}

/-! ## The rule -/

/-- The time until which an event sends the current thread to sleep, if it does. -/
def sleepsUntil (c : Cpu) : Event → Option Nanoseconds
  | .delay timeout => some (c.sched.now.add timeout)
  | .blockSection =>
    match c.currentPc with
    | some (.entered call) =>
      if c.mem call.waitAddress = call.old then call.timeout.map c.sched.now.add else none
    | _ => none
  | _ => none

/-- The rule of a run in which no thread goes to sleep in front of the head of the delayed list. -/
def SleepRule (c : Cpu) (e : Event) : Prop :=
  ∀ w ∈ c.sleepsUntil e, ∀ t ∈ c.sched.current,
    c.sched.HeadBefore ((c.sched.lists.toList .delayed).erase t) w

instance (c : Cpu) (e : Event) : Decidable (SleepRule c e) := by unfold SleepRule; infer_instance

/-! ## The delayed list -/

theorem wakeupTime_waiting (s : Scheduler) (t u : ThreadId) (a : Addr) :
    (s.waiting t a).wakeupTime u = s.wakeupTime u := by
  by_cases hu : u = t <;> simp [wakeupTime, waiting, modifyThread, hu]

theorem insertDelayed_waiting (s : Scheduler) (t : ThreadId) (a : Addr) (w : Nanoseconds)
    (zs : List ThreadId) : (s.waiting t a).insertDelayed w t zs = s.insertDelayed w t zs := by
  cases zs with
  | nil => rfl
  | cons p zs =>
    have h := fun u ↦ wakeupTime_waiting s t u a
    simp only [wakeupTime] at h
    simp only [insertDelayed, h]

theorem without_delayed (hr : c.sched.lists.Represents L) {t : ThreadId} {l : ListId}
    (ht : t ∈ L l) : without L l t .delayed = (L .delayed).erase t := by
  by_cases hl : l = .delayed
  · rw [hl, without, Function.update_self]
  · rw [without, Function.update_of_ne (Ne.symm hl), List.erase_of_not_mem]
    exact fun hm ↦ hl (hr.disjoint _ _ t ht hm)

/-- What an action does to the delayed list: a sleeper is inserted, or some threads leave. -/
theorem Acts.delayed (ha : c.Acts L e d b L') (h : c.Inv L) :
    (∃ t w, c.sched.current = some t ∧ w ∈ c.sleepsUntil e ∧
      L' .delayed = c.sched.insertDelayed w t ((L .delayed).erase t) ∧
      ∀ u, d.sched.wakeupTime u = if u = t then w else c.sched.wakeupTime u) ∨
    ((L' .delayed).Sublist (L .delayed) ∧
      ∀ u, d.sched.wakeupTime u = c.sched.wakeupTime u) := by
  have hr := h.linked.rep
  cases ha with
  | @attach t p =>
    refine Or.inr ⟨by rw [Function.update_of_ne (by simp)], fun u ↦ ?_⟩
    by_cases hu : u = t <;>
      simp [wakeupTime, Scheduler.attached, construct, modifyThread, hu]
  | @startSchedule t =>
    refine Or.inr ⟨List.Sublist.refl _, fun u ↦ ?_⟩
    by_cases hu : u = t <;> simp [wakeupTime, modifyThread, hu]
  | @detach t l h' hc hpc ht =>
    refine Or.inr ⟨by rw [without_delayed hr ht]; exact List.erase_sublist, fun u ↦ ?_⟩
    by_cases hu : u = t <;> simp [wakeupTime, detached, hu]
  | @blockUntimed t call l h' hc hpc hmem htime ht =>
    refine Or.inr ⟨?_, fun u ↦ ?_⟩
    · rw [Function.update_of_ne (by simp), without_delayed hr ht]
      exact List.erase_sublist
    · by_cases hu : u = t <;> simp [wakeupTime, Scheduler.blocked, hu]
  | @blockTimed t call timeout l h' hc hpc hmem htime ht =>
    refine Or.inl ⟨t, c.sched.now.add timeout, hc, ?_, ?_, fun u ↦ ?_⟩
    · simp [sleepsUntil, currentPc, hc, hpc, hmem, htime]
    · rw [sleepQueues, Function.update_self, without_delayed hr ht, insertDelayed_waiting]
    · by_cases hu : u = t <;> simp [wakeupTime, asleep_waiting_thread, sleepThread, hu]
  | @delay t timeout l h' hc hpc ht =>
    refine Or.inl ⟨t, c.sched.now.add timeout, hc, rfl, ?_, fun u ↦ ?_⟩
    · rw [sleepQueues, Function.update_self, without_delayed hr ht]
    · by_cases hu : u = t <;> simp [wakeupTime, Scheduler.asleep, sleepThread, hu]
  | unblock =>
    refine Or.inr ⟨by simp [wakeQueues], fun u ↦ ?_⟩
    rw [wakeupTime, unblocked_thread]
    split <;> rfl
  | tick =>
    refine Or.inr ⟨by simp only [wakeQueues, if_true]; exact List.filter_sublist, fun u ↦ ?_⟩
    rw [wakeupTime, woken_thread]
    split <;> rfl
  | blockCheck => exact Or.inr ⟨List.Sublist.refl _, fun u ↦ by rw [blockCheck_sched]⟩
  | _ => exact Or.inr ⟨List.Sublist.refl _, fun u ↦ rfl⟩

/-- **Under the rule the list stays sorted.** -/
theorem Acts.inTime (ha : c.Acts L e d b L') (h : c.Inv L) (ht : c.sched.InTime (L .delayed))
    (hrule : SleepRule c e) : d.sched.InTime (L' .delayed) := by
  rcases ha.delayed h with ⟨t, w, hc, hw, hL, hd⟩ | ⟨hsub, hd⟩
  · rw [hL]
    refine (sorted_insertDelayed_iff (ht.sublist List.erase_sublist) hd ?_).mpr ?_
    · exact (h.linked.rep.nodup _).not_mem_erase
    · rw [← h.linked.rep.toList_eq]
      exact hrule w hw t hc
  · exact (ht.sublist hsub).congr fun u _ ↦ hd u

theorem inTime_switchTask (ht : d.sched.InTime (L .delayed)) (hs : d.switchTask = .ok c') :
    c'.sched.InTime (L .delayed) := by
  obtain ⟨s, hsw, rfl⟩ := switchTask_eq_ok hs
  rcases switchTask_cases hsw with rfl | ⟨cnt, next, -, -, -, -, rfl⟩
  · exact ht
  · refine ht.congr fun u _ ↦ ?_
    rw [wakeupTime, switched_thread]
    split
    · rfl
    · split <;> rfl

theorem sleep_invariant (h : (machine mem).ReachableWhile SleepRule c) :
    ∃ L, c.Inv L ∧ c.sched.InTime (L .delayed) := by
  refine Machine.ReachableWhile.invariant (I := fun c ↦ ∃ L, c.Inv L ∧ c.sched.InTime (L .delayed))
    ⟨_, inv_init, SortedBy.nil⟩ ?_ h
  rintro c e c' - ⟨L, hI, ht⟩ hrule hn
  obtain ⟨d, b, L', ha, -, hI', ⟨rfl, rfl⟩ | ⟨rfl, -, hsw⟩⟩ := hI.next_cases hn
  · exact ⟨L', hI', ha.inTime hI ht hrule⟩
  · exact ⟨L', hI', inTime_switchTask (ha.inTime hI ht hrule) hsw⟩

/-! ## The tick -/

/-- **No sleeper is overslept.**  In a run under the rule, after every `wakeup_delayed_threads` the
sleepers that are left are not due, and those that became ready were due. -/
theorem no_sleeper_overslept (h : (machine mem).ReachableWhile SleepRule c)
    (he : c.enabled .tick = true) :
    ∃ d, c.beforeSwitch .tick = some d ∧
      (∀ u ∈ d.sched.lists.toList .delayed, c.sched.now < (d.sched.thread u).wakeupTime) ∧
      ∀ u p, u ∈ d.sched.lists.toList (.ready p) → u ∉ c.sched.lists.toList (.ready p) →
        (c.sched.thread u).wakeupTime ≤ c.sched.now := by
  obtain ⟨L, hI, ht⟩ := sleep_invariant h
  obtain ⟨d, b, L', hact, ha, hr⟩ := hI.act_acts he
  cases ha with
  | @tick h' hs =>
    refine ⟨_, beforeSwitch_eq_some.mpr hact, fun u hu ↦ ?_, fun u p hu hold ↦ ?_⟩
    · rw [hr.toList_eq] at hu
      obtain ⟨hu, hdue⟩ : u ∈ L .delayed ∧ u ∉ c.sched.due (L .delayed) := by
        simpa [wakeQueues] using hu
      rw [woken_thread, if_neg hdue]
      have hsplit : u ∈ (L .delayed).dropWhile fun v ↦ c.sched.wakeupTime v ≤ c.sched.now := by
        rw [← List.takeWhile_append_dropWhile
          (p := fun v ↦ decide (c.sched.wakeupTime v ≤ c.sched.now)) (l := L .delayed)] at hu
        exact (List.mem_append.mp hu).resolve_left hdue
      exact ht.lt_of_mem_dropWhile hsplit
    · rw [hr.toList_eq] at hu
      rw [hI.linked.rep.toList_eq] at hold
      have hdue : u ∈ c.sched.due (L .delayed) :=
        (List.mem_filter.mp ((List.mem_append.mp hu).resolve_left hold)).1
      simpa using List.mem_takeWhile_imp hdue

/-- Of two sleepers the one that is due first wakes first, if it went to sleep first. -/
theorem no_sleeper_overslept_in_order :
    let c := (machine zeroed).afterWhile SleepRule
      [.attach 0 .idle, .attach 1 .normal, .attach 2 .normal,
      .startSchedule 1, .delay 5, .delay 10, .clock 7]
    c.sched.lists.toList .delayed = [1, 2] ∧ ∃ d, c.beforeSwitch .tick = some d ∧
      (∀ u ∈ d.sched.lists.toList .delayed, c.sched.now < (d.sched.thread u).wakeupTime) ∧
      ∀ u p, u ∈ d.sched.lists.toList (.ready p) → u ∉ c.sched.lists.toList (.ready p) →
        (c.sched.thread u).wakeupTime ≤ c.sched.now :=
  ⟨by decide, no_sleeper_overslept (Machine.reachableWhile_afterWhile _) (by decide)⟩

/-- In the other order it is left in the delayed list. -/
theorem overslept_behind_later :
    let c := (machine zeroed).after [.attach 0 .idle, .attach 1 .normal, .attach 2 .normal,
      .startSchedule 1, .delay 10, .delay 5, .clock 7]
    let d := (c.beforeSwitch .tick).get (by decide)
    (machine zeroed).Reachable c ∧ c.enabled .tick = true ∧ c.beforeSwitch .tick = some d ∧
      2 ∈ d.sched.lists.toList .delayed ∧ (d.sched.thread 2).wakeupTime ≤ c.sched.now :=
  ⟨(machine zeroed).reachable_after _, by decide, (Option.some_get _).symm, by decide, by decide⟩

end Cpu

end Chino
