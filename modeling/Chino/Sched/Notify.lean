import Chino.Sched.Partition

/-!
# Who a notification reaches

`block_current_thread` puts a waiter into `blocked_threads_` if it gave no timeout and into
`delayed_threads_` if it gave one.  `unblock_local_threads` walks `blocked_threads_` only, so a
waiter with a timeout is never notified: it sleeps until it is due.

There is a second gap.  A thread that blocks while it holds the scheduler lock stays current, and
its `block_current_thread` may return while it is still linked as a waiter.  Notifying one waiter
may choose such a thread, which does not wait any more.

`Waits` is the invariant that ties the lists to the calls: what a suspended thread waits on, which
list its timeout has sent it to, and that `blocked_threads_` is in the order of arrival.
`notification_reaches_iff` gives the exact condition for a notification to reach the waiters it
should reach.

## The condition

`Reaches` is what `unblock_threads(a, all)` is for, in terms of who waits and since when: all
waiters of `a` become ready, or the one that has been waiting longest, and nobody else changes.
`InReach` is when it does that:

* for all waiters: none of them gave a timeout;
* for one: the one that has been waiting longest gave none, and nobody who was linked for `a` before
  it is in `blocked_threads_` without waiting any more.

Both are about the state before the call.  The theorem is an equivalence in every reachable state,
for both modes, so the condition is exact.

`notification_misses_timed` is the first gap, with one waiter.  The design in
`docs/design/thread-state.drawio` has a delayed thread become ready on a notification.
-/

set_option autoImplicit false

namespace Chino

open Function (update)
open Scheduler

namespace Cpu

variable {mem : Addr → UInt32} {c c' d : Cpu} {L L' : Queues} {e : Event} {b : Bool}

/-! ## Suspended threads -/

/-- The thread is suspended in the `block_current_thread` call. -/
def Suspended (c : Cpu) (t : ThreadId) (call : BlockCall) : Prop :=
  (c.pc t = .suspended call ∨ c.pc t = .resumed call) ∧
    ((c.sched.thread t).status = .blocked ∨ (c.sched.thread t).status = .delayed)

/-- A thread is suspended in one call at a time. -/
theorem Suspended.unique {t : ThreadId} {call call' : BlockCall} (h : c.Suspended t call)
    (h' : c.Suspended t call') : call = call' := by
  rcases h.1 with h | h <;> rcases h'.1 with h' | h' <;> rw [h] at h' <;> cases h' <;> rfl

/-- The thread is suspended in some call that waits on `a`. -/
def WaitsOn (c : Cpu) (a : Addr) (t : ThreadId) : Prop :=
  ∃ call, c.Suspended t call ∧ call.waitAddress = a

/-- What the lists say about the calls. -/
structure Waits (c : Cpu) (L : Queues) : Prop where
  linked : ∀ t call, c.Suspended t call → (c.sched.thread t).attached = true
  untimed : ∀ t call, c.Suspended t call → (c.sched.thread t).status = .blocked →
    (c.sched.thread t).waitAddress = some call.waitAddress ∧ call.timeout = none
  timed : ∀ t call, c.Suspended t call → (c.sched.thread t).status = .delayed →
    (c.sched.thread t).waitAddress = some call.waitAddress ∧ call.timeout ≠ none
  /-- The blocked list is in the order of arrival. -/
  order : (L .blocked).Pairwise fun t u ↦ c.arrival t < c.arrival u
  recent : ∀ t ∈ L .blocked, c.arrival t < c.arrivals

/-- A suspension after an action is either new or was there before. -/
theorem Acts.suspended (ha : c.Acts L e d b L') (h : c.Inv L) {t : ThreadId} {call : BlockCall}
    (hs : d.Suspended t call) :
    (c.Suspended t call ∧ d.sched.thread t = c.sched.thread t) ∨
    ((d.sched.thread t).attached = true ∧
      (d.sched.thread t).waitAddress = some call.waitAddress ∧
      ((d.sched.thread t).status = .blocked ∧ call.timeout = none ∨
        (d.sched.thread t).status = .delayed ∧ call.timeout ≠ none)) := by
  obtain ⟨hpc, hst⟩ := hs
  have key : ∀ {u : ThreadId} {pc : Pc}, d.pc = update c.pc u pc →
      (t ≠ u → d.sched.thread t = c.sched.thread t) → pc = .user ∨ pc = .exiting ∨
        (∃ call, pc = .entered call) →
      c.Suspended t call ∧ d.sched.thread t = c.sched.thread t := by
    intro u pc hd hth hp
    by_cases htu : t = u
    · subst htu
      rw [hd, Function.update_self] at hpc
      rcases hp with rfl | rfl | ⟨call', rfl⟩ <;> rcases hpc with hpc | hpc <;> cases hpc
    · rw [hd, Function.update_of_ne htu] at hpc
      rw [hth htu] at hst
      exact ⟨⟨hpc, hst⟩, hth htu⟩
  cases ha with
  | @attach u p h' =>
    refine Or.inl (key rfl (fun htu ↦ ?_) (Or.inl rfl))
    simp [Scheduler.attached, construct, modifyThread, htu]
  | @startSchedule u hs' =>
    by_cases htu : t = u
    · subst htu
      simp [modifyThread] at hst
    · have hth : (c.sched.modifyThread u fun th ↦ { th with status := .running }).thread t
          = c.sched.thread t := by simp [modifyThread, htu]
      exact Or.inl ⟨⟨hpc, hth ▸ hst⟩, hth⟩
  | @detach u l h' =>
    exact Or.inl (key rfl (fun htu ↦ by simp [Scheduler.detached, htu]) (Or.inr (Or.inl rfl)))
  | block => exact Or.inl (key rfl (fun _ ↦ rfl) (Or.inr (Or.inr ⟨_, rfl⟩)))
  | @blockUntimed u call' l h' hc hpc' hmem htime ht =>
    by_cases htu : t = u
    · subst htu
      obtain rfl : call' = call := by
        rw [setPc_pc, Function.update_self] at hpc
        rcases hpc with hpc | hpc <;> cases hpc
        rfl
      exact Or.inr (by simp [Scheduler.blocked, htime, h.linked.attached ht])
    · rw [setPc_pc, Function.update_of_ne htu] at hpc
      have hth : (c.sched.blocked u call'.waitAddress h').thread t = c.sched.thread t := by
        simp [Scheduler.blocked, htu]
      exact Or.inl ⟨⟨hpc, hth ▸ hst⟩, hth⟩
  | @blockTimed u call' timeout l h' hc hpc' hmem htime ht =>
    by_cases htu : t = u
    · subst htu
      obtain rfl : call' = call := by
        rw [setPc_pc, Function.update_self] at hpc
        rcases hpc with hpc | hpc <;> cases hpc
        rfl
      exact Or.inr (by simp [asleep_waiting_thread, sleepThread, htime, h.linked.attached ht])
    · rw [setPc_pc, Function.update_of_ne htu] at hpc
      have hth : ((c.sched.waiting u call'.waitAddress).asleep u (c.sched.now.add timeout)
          h').thread t = c.sched.thread t := by
        rw [asleep_waiting_thread, Function.update_of_ne htu]
      exact Or.inl ⟨⟨hpc, hth ▸ hst⟩, hth⟩
  | blockMissed => exact Or.inl (key rfl (fun _ ↦ rfl) (Or.inl rfl))
  | @blockCheck u call' hc hpc' =>
    rw [blockCheck_sched] at hst ⊢
    refine Or.inl ⟨⟨?_, hst⟩, rfl⟩
    by_cases htu : t = u
    · subst htu
      rcases blockCheck_pc c t call' with hd | hd
      · rw [hd, Function.update_self] at hpc
        rcases hpc with hpc | hpc <;> cases hpc
      · rw [hd, Function.update_self] at hpc
        rcases hpc with hpc | hpc <;> cases hpc
        exact Or.inr hpc'
    · rcases blockCheck_pc c u call' with hd | hd <;>
        rwa [hd, Function.update_of_ne htu] at hpc
  | @yield u hc hpc' =>
    refine Or.inl ⟨⟨?_, hst⟩, rfl⟩
    by_cases htu : t = u
    · subst htu
      rw [setPc_pc, Function.update_self] at hpc
      rcases hpc' with hpc' | ⟨call', hpc'⟩ | hpc' <;> rw [hpc'] at hpc ⊢ <;>
        simp_all [afterYield]
    · rwa [setPc_pc, Function.update_of_ne htu] at hpc
  | @delay u timeout l h' hc hpc' ht =>
    by_cases htu : t = u
    · subst htu
      rw [hpc'] at hpc
      rcases hpc with hpc | hpc <;> cases hpc
    · have hth : (c.sched.asleep u (c.sched.now.add timeout) h').thread t = c.sched.thread t := by
        simp [Scheduler.asleep, htu]
      exact Or.inl ⟨⟨hpc, hth ▸ hst⟩, hth⟩
  | unblock =>
    rw [unblocked_thread] at hst ⊢
    split at hst
    · simp at hst
    · rename_i hn
      exact Or.inl ⟨⟨hpc, hst⟩, if_neg hn⟩
  | tick =>
    rw [woken_thread] at hst ⊢
    split at hst
    · simp at hst
    · rename_i hn
      exact Or.inl ⟨⟨hpc, hst⟩, if_neg hn⟩
  | store | lock | unlock | irqYield | clock => exact Or.inl ⟨⟨hpc, hst⟩, rfl⟩

/-! ## The order of arrival -/

/-- What an action does to the blocked list: the latest arrival leaves its place and may come last,
or some threads leave. -/
theorem Acts.arrivals (ha : c.Acts L e d b L') :
    (∃ t l, t ∈ L l ∧ d.arrival = update c.arrival t c.arrivals ∧ d.arrivals = c.arrivals + 1 ∧
      (L' .blocked = without L l t .blocked ∨ L' .blocked = without L l t .blocked ++ [t])) ∨
    ((L' .blocked).Sublist (L .blocked) ∧ d.arrival = c.arrival ∧ d.arrivals = c.arrivals) := by
  cases ha with
  | attach => exact Or.inr ⟨by rw [Function.update_of_ne (by simp)], rfl, rfl⟩
  | detach => exact Or.inr ⟨without_sublist .., rfl, rfl⟩
  | @blockUntimed t call l h' hc hpc hmem htime ht =>
    exact Or.inl ⟨t, l, ht, rfl, rfl, Or.inr (Function.update_self ..)⟩
  | @blockTimed t call timeout l h' hc hpc hmem htime ht =>
    refine Or.inl ⟨t, l, ht, rfl, rfl, Or.inl ?_⟩
    rw [sleepQueues, Function.update_of_ne (by simp)]
  | delay =>
    refine Or.inr ⟨?_, rfl, rfl⟩
    rw [sleepQueues, Function.update_of_ne (by simp)]
    exact without_sublist ..
  | unblock =>
    refine Or.inr ⟨?_, rfl, rfl⟩
    simp only [wakeQueues, if_true]
    exact List.filter_sublist
  | tick => exact Or.inr ⟨by simp [wakeQueues], rfl, rfl⟩
  | @blockCheck t call =>
    refine Or.inr ⟨List.Sublist.refl _, ?_, ?_⟩ <;> unfold Cpu.blockCheck <;> split
    · rfl
    · split <;> rfl
    · rfl
    · split <;> rfl
  | _ => exact Or.inr ⟨List.Sublist.refl _, rfl, rfl⟩

theorem Acts.waits (ha : c.Acts L e d b L') (h : c.Inv L) (hw : c.Waits L) : d.Waits L' := by
  refine ⟨fun t call hs ↦ ?_, fun t call hs hst ↦ ?_, fun t call hs hst ↦ ?_, ?_, ?_⟩
  · rcases ha.suspended h hs with ⟨hs', hth⟩ | ⟨hatt, -⟩
    · rw [hth]; exact hw.linked t call hs'
    · exact hatt
  · rcases ha.suspended h hs with ⟨hs', hth⟩ | ⟨-, haddr, ⟨-, htime⟩ | ⟨hst', -⟩⟩
    · rw [hth] at hst ⊢
      exact hw.untimed t call hs' hst
    · exact ⟨haddr, htime⟩
    · rw [hst] at hst'; cases hst'
  · rcases ha.suspended h hs with ⟨hs', hth⟩ | ⟨-, haddr, ⟨hst', -⟩ | ⟨-, htime⟩⟩
    · rw [hth] at hst ⊢
      exact hw.timed t call hs' hst
    · rw [hst] at hst'; cases hst'
    · exact ⟨haddr, htime⟩
  all_goals
    rcases ha.arrivals with ⟨t, l, ht, harr, hcnt, hL⟩ | ⟨hsub, harr, hcnt⟩
  · -- the threads that stay keep their number, and the new one is above them all
    have hold : ∀ u ∈ without L l t .blocked, d.arrival u = c.arrival u ∧
        c.arrival u < c.arrivals := fun u hu ↦ by
      obtain ⟨hut, hu⟩ := (mem_without h.linked.rep ht).mp hu
      exact ⟨by rw [harr, Function.update_of_ne hut], hw.recent u hu⟩
    have hstay : (without L l t .blocked).Pairwise fun u v ↦ d.arrival u < d.arrival v := by
      refine (List.Pairwise.sublist (without_sublist ..) hw.order).imp_of_mem fun hu hv huv ↦ ?_
      rwa [(hold _ hu).1, (hold _ hv).1]
    rcases hL with hL | hL <;> rw [hL]
    · exact hstay
    · refine List.pairwise_append.mpr ⟨hstay, List.pairwise_singleton _ _, fun u hu v hv ↦ ?_⟩
      obtain rfl : v = t := by simpa using hv
      rw [(hold u hu).1, harr, Function.update_self]
      exact (hold u hu).2
  · rw [harr]; exact List.Pairwise.sublist hsub hw.order
  · intro u hu
    rw [hcnt, harr]
    by_cases hut : u = t
    · subst hut; rw [Function.update_self]; exact Nat.lt_succ_self _
    · rw [Function.update_of_ne hut]
      have hu' : u ∈ without L l t .blocked := by
        rcases hL with hL | hL <;> rw [hL] at hu
        · exact hu
        · exact (List.mem_append.mp hu).resolve_right (by simpa using hut)
      exact (hw.recent u ((mem_without h.linked.rep ht).mp hu').2).trans (Nat.lt_succ_self _)
  · intro u hu
    rw [hcnt, harr]
    exact hw.recent u (hsub.subset hu)

theorem waits_switchTask (hw : d.Waits L) (hs : d.switchTask = .ok c') : c'.Waits L := by
  obtain ⟨s, hsw, rfl⟩ := switchTask_eq_ok hs
  rcases switchTask_cases hsw with rfl | ⟨cnt, next, -, -, -, -, rfl⟩
  · exact hw
  -- a thread whose status a switch changes is not suspended
  have hsame : ∀ t, ((d.sched.switched cnt next).thread t).status = .blocked ∨
      ((d.sched.switched cnt next).thread t).status = .delayed →
      (d.sched.switched cnt next).thread t = d.sched.thread t := fun t ht ↦ by
    rw [switched_thread] at ht ⊢
    split at ht
    · simp at ht
    · rename_i hn
      rw [if_neg hn]
      split at ht
      · simp at ht
      · rename_i hc
        exact if_neg hc
  refine ⟨fun t call hs ↦ ?_, fun t call hs hst ↦ ?_, fun t call hs hst ↦ ?_, hw.order, hw.recent⟩
  · have hth := hsame t hs.2
    have hst := hs.2
    simp only [hth] at hst ⊢
    exact hw.linked t call ⟨hs.1, hst⟩
  · have hth := hsame t (Or.inl hst)
    simp only [hth] at hst ⊢
    exact hw.untimed t call ⟨hs.1, Or.inl hst⟩ hst
  · have hth := hsame t (Or.inr hst)
    simp only [hth] at hst ⊢
    exact hw.timed t call ⟨hs.1, Or.inr hst⟩ hst

theorem waits_init : (init mem).Waits fun _ ↦ [] where
  linked _ _ h := by rcases h.1 with h | h <;> cases h
  untimed _ _ h := by rcases h.1 with h | h <;> cases h
  timed _ _ h := by rcases h.1 with h | h <;> cases h
  order := List.Pairwise.nil
  recent _ h := by cases h

theorem waits_of_reachable (h : (machine mem).Reachable c) : ∃ L, c.Inv L ∧ c.Waits L := by
  refine Machine.Reachable.invariant (I := fun c ↦ ∃ L, c.Inv L ∧ c.Waits L)
    ⟨_, inv_init, waits_init⟩ ?_ h
  rintro c e c' - ⟨L, hI, hw⟩ hn
  obtain ⟨d, b, L', ha, -, hI', ⟨rfl, rfl⟩ | ⟨rfl, -, hsw⟩⟩ := hI.next_cases hn
  · exact ⟨L', hI', ha.waits hI hw⟩
  · exact ⟨L', hI', waits_switchTask (ha.waits hI hw) hsw⟩

/-! ## Notification -/

/-- The thread is the one that has been waiting on `a` longest. -/
def WaitsLongest (c : Cpu) (a : Addr) (t : ThreadId) : Prop :=
  c.WaitsOn a t ∧ ∀ u, c.WaitsOn a u → c.arrival t ≤ c.arrival u

/-- What `unblock_threads(a, all)` should do to the waiters between `c` and `c'`: make all waiters
of `a` ready, or only the one that has been waiting longest if there is any, and leave everybody
who waits on another address as and where they are. -/
def Reaches (c c' : Cpu) (a : Addr) (all : Bool) : Prop :=
  (if all then ∀ t, c.WaitsOn a t → (c'.sched.thread t).status = .ready
    else (∃ t, c.WaitsOn a t) → ∃ t, c.WaitsLongest a t ∧ (c'.sched.thread t).status = .ready ∧
      ∀ u, u ≠ t → c'.sched.thread u = c.sched.thread u) ∧
  (∀ t, (c.sched.thread t).waitAddress ≠ some a → c'.sched.thread t = c.sched.thread t) ∧
  ∀ l, (c'.sched.lists.toList l).filter (fun t ↦ (c.sched.thread t).waitAddress ≠ some a)
    = (c.sched.lists.toList l).filter fun t ↦ (c.sched.thread t).waitAddress ≠ some a

/-- When it does: no waiter of `a` gave a timeout, or, if one is to be notified, the one that has
been waiting longest did not, and nobody who was linked for `a` before it is linked still. -/
def InReach (c : Cpu) (a : Addr) (all : Bool) : Prop :=
  if all then ∀ t call, c.Suspended t call → call.waitAddress = a → call.timeout = none
  else (∃ t, c.WaitsOn a t) → ∃ t call, c.WaitsLongest a t ∧ c.Suspended t call ∧
    call.timeout = none ∧ ∀ u ∈ c.sched.lists.toList .blocked,
      (c.sched.thread u).waitAddress = some a → c.arrival t ≤ c.arrival u

/-- Everybody else keeps their state and place. -/
theorem wakeQueues_filter {s : Scheduler} {a : Addr} {ts : List ThreadId}
    (hts : ∀ t ∈ ts, (s.thread t).waitAddress = some a) (l : ListId) :
    (s.wakeQueues L .blocked ts l).filter (fun t ↦ (s.thread t).waitAddress ≠ some a)
      = (L l).filter fun t ↦ (s.thread t).waitAddress ≠ some a := by
  cases l with
  | ready p =>
    have hnone : (ts.filter fun t ↦ (s.thread t).priority = p).filter
        (fun t ↦ (s.thread t).waitAddress ≠ some a) = [] := by
      refine List.filter_eq_nil_iff.mpr fun t ht ↦ ?_
      simpa using hts t (List.mem_filter.mp ht).1
    rw [wakeQueues, List.filter_append, hnone, List.append_nil]
  | blocked =>
    simp only [wakeQueues, if_true, List.filter_filter]
    refine List.filter_congr fun t _ ↦ ?_
    by_cases ht : t ∈ ts <;> simp_all
  | delayed => simp [wakeQueues]

/-- A waiter without a timeout is in the blocked list. -/
theorem Waits.mem_blocked (hw : c.Waits L) (h : c.Inv L) {t : ThreadId} {call : BlockCall}
    (hs : c.Suspended t call) (htime : call.timeout = none) :
    t ∈ L .blocked ∧ (c.sched.thread t).waitAddress = some call.waitAddress := by
  have hst : (c.sched.thread t).status = .blocked :=
    hs.2.resolve_right fun hst ↦ (hw.timed t call hs hst).2 htime
  refine ⟨?_, (hw.untimed t call hs hst).1⟩
  rw [h.linked.mem_iff]
  exact ⟨hw.linked t call hs, listOf_eq_blocked.mpr hst⟩

/-- A suspended thread that is ready afterwards was notified, and gave no timeout. -/
theorem Waits.of_notified (hw : c.Waits L) {a : Addr} {all : Bool} {h' : Heap ListId ThreadId}
    {t : ThreadId} {call : BlockCall} (hs : c.Suspended t call) (h : c.Inv L)
    (hr : ((c.sched.unblocked a all (L .blocked) h').thread t).status = .ready) :
    t ∈ c.sched.notified a all (L .blocked) ∧ call.timeout = none := by
  rw [unblocked_thread] at hr
  split at hr
  · rename_i hm
    have hb := listOf_eq_blocked.mp (h.linked.listOf_eq (mem_of_mem_notified hm).1)
    exact ⟨hm, (hw.untimed t call hs hb).2⟩
  · rcases hs.2 with hst | hst <;> rw [hst] at hr <;> cases hr

/-- The one that is notified is the first of the blocked threads that are linked for the address. -/
theorem notified_one {s : Scheduler} {a : Addr} {zs : List ThreadId} {t : ThreadId}
    (h : t ∈ s.notified a false zs) :
    s.notified a false zs = [t] ∧ ∃ us, (zs.filter fun u ↦ (s.thread u).waitAddress = some a)
      = t :: us := by
  have heq : s.notified a false zs
      = (zs.filter fun u ↦ (s.thread u).waitAddress = some a).take 1 := rfl
  rw [heq] at h ⊢
  cases hf : zs.filter fun u ↦ (s.thread u).waitAddress = some a with
  | nil => rw [hf] at h; cases h
  | cons v us =>
    rw [hf] at h
    obtain rfl : t = v := by simpa using h
    exact ⟨rfl, us, rfl⟩

/-- **Notification reaches the waiters exactly if none of those that matter gave a timeout**, and
if the one to be notified is not behind a thread that does not wait any more. -/
theorem notification_reaches_iff (h : (machine mem).Reachable c) (a : Addr) (all : Bool) :
    (∃ c', c.next (.unblock a all) = some c' ∧ c.Reaches c' a all) ↔ c.InReach a all := by
  obtain ⟨L, hI, hw⟩ := waits_of_reachable h
  obtain ⟨d, b, L', hact, ha, hr⟩ := hI.act_acts (e := .unblock a all) rfl
  cases ha with
  | @unblock _ _ h' =>
  have hnext : c.next (.unblock a all)
      = some { c with sched := c.sched.unblocked a all (L .blocked) h' } := by
    refine next_eq_some.mpr ⟨rfl, ?_⟩
    simp [step, hact, bind, Except.bind]
  have hmem : ∀ t ∈ c.sched.notified a all (L .blocked),
      (c.sched.thread t).waitAddress = some a := fun t ht ↦ (mem_of_mem_notified ht).2
  have hkeep : ∀ t ∉ c.sched.notified a all (L .blocked),
      (c.sched.unblocked a all (L .blocked) h').thread t = c.sched.thread t := fun t ht ↦ by
    rw [unblocked_thread, if_neg ht]
  have hready : ∀ t ∈ c.sched.notified a all (L .blocked),
      ((c.sched.unblocked a all (L .blocked) h').thread t).status = .ready := fun t ht ↦ by
    rw [unblocked_thread, if_pos ht]; rfl
  -- whoever does not wait on `a` is where it was, whether the condition holds or not
  have hframe : (∀ t, (c.sched.thread t).waitAddress ≠ some a →
        (c.sched.unblocked a all (L .blocked) h').thread t = c.sched.thread t) ∧
      ∀ l, ((c.sched.unblocked a all (L .blocked) h').lists.toList l).filter
          (fun t ↦ (c.sched.thread t).waitAddress ≠ some a)
        = (c.sched.lists.toList l).filter fun t ↦ (c.sched.thread t).waitAddress ≠ some a := by
    refine ⟨fun t ht ↦ hkeep t fun hm ↦ ht (hmem t hm), fun l ↦ ?_⟩
    rw [hr.toList_eq, hI.linked.rep.toList_eq]
    exact wakeQueues_filter hmem l
  have hiff : (∃ c', c.next (.unblock a all) = some c' ∧ c.Reaches c' a all) ↔
      c.Reaches { c with sched := c.sched.unblocked a all (L .blocked) h' } a all := by
    constructor
    · rintro ⟨c', he, hreach⟩
      rw [hnext] at he
      cases he
      exact hreach
    · exact fun hreach ↦ ⟨_, hnext, hreach⟩
  rw [hiff]
  cases all with
  | true =>
    constructor
    · rintro ⟨hall, -⟩ t call hs rfl
      exact (hw.of_notified hs hI (hall t ⟨call, hs, rfl⟩)).2
    · intro hreach
      refine ⟨?_, hframe⟩
      rintro t ⟨call, hs, rfl⟩
      obtain ⟨hm, haddr⟩ := hw.mem_blocked hI hs (hreach t call hs rfl)
      exact hready t (List.mem_filter.mpr ⟨hm, by simpa using haddr⟩)
  | false =>
    constructor
    · rintro ⟨hone, -⟩ hex
      obtain ⟨t, ⟨⟨call, hs, rfl⟩, hlong⟩, hrdy, -⟩ := hone hex
      obtain ⟨hm, htime⟩ := hw.of_notified hs hI hrdy
      refine ⟨t, call, ⟨⟨call, hs, rfl⟩, hlong⟩, hs, htime, fun u hu haddr ↦ ?_⟩
      rw [hI.linked.rep.toList_eq] at hu
      obtain ⟨-, us, hus⟩ := notified_one hm
      have hsorted := List.Pairwise.sublist (List.filter_sublist
        (p := fun v ↦ (c.sched.thread v).waitAddress = some call.waitAddress)) hw.order
      have huf : u ∈ (L .blocked).filter fun v ↦
          (c.sched.thread v).waitAddress = some call.waitAddress :=
        List.mem_filter.mpr ⟨hu, by simpa using haddr⟩
      rw [hus] at hsorted huf
      rcases List.mem_cons.mp huf with rfl | huf
      · exact le_rfl
      · exact ((List.pairwise_cons.mp hsorted).1 u huf).le
    · intro hreach
      refine ⟨fun hex ↦ ?_, hframe⟩
      obtain ⟨t, call, hlong, hs, htime, hfirst⟩ := hreach hex
      obtain ⟨call', hs', rfl⟩ := hlong.1
      obtain rfl := hs.unique hs'
      obtain ⟨hm, haddr⟩ := hw.mem_blocked hI hs htime
      have hone : c.sched.notified call.waitAddress false (L .blocked) = [t] := by
        have htf : t ∈ (L .blocked).filter fun v ↦
            (c.sched.thread v).waitAddress = some call.waitAddress :=
          List.mem_filter.mpr ⟨hm, by simpa using haddr⟩
        obtain ⟨v, us, hus⟩ := List.exists_cons_of_ne_nil (List.ne_nil_of_mem htf)
        have hv : v ∈ c.sched.notified call.waitAddress false (L .blocked) := by
          simp [notified, hus]
        rw [(notified_one hv).1]
        have hsorted := List.Pairwise.sublist (List.filter_sublist
          (p := fun v ↦ (c.sched.thread v).waitAddress = some call.waitAddress)) hw.order
        rw [hus] at hsorted htf
        rcases List.mem_cons.mp htf with rfl | htu
        · rfl
        · have h1 := (List.pairwise_cons.mp hsorted).1 t htu
          have h2 := hfirst v (by rw [hI.linked.rep.toList_eq]; exact (mem_of_mem_notified hv).1)
            (mem_of_mem_notified hv).2
          omega
      refine ⟨t, hlong, hready t (by simp [hone]), fun u hu ↦ hkeep u ?_⟩
      rw [hone]
      simpa using hu

/-- Two untimed waiters: the first one is notified. -/
theorem notification_reaches_iff_two_untimed :
    let c := (machine zeroed).after [.attach 0 .idle, .attach 1 .normal, .attach 2 .normal,
      .startSchedule 1, .block 100 0 none, .blockSection, .yield, .block 100 0 none, .blockSection,
      .yield]
    c.sched.lists.toList .blocked = [1, 2] ∧
      ((∃ c', c.next (.unblock 100 true) = some c' ∧ c.Reaches c' 100 true) ↔
        c.InReach 100 true) :=
  ⟨by decide, notification_reaches_iff ((machine zeroed).reachable_after _) 100 true⟩

/-- A waiter with a timeout is not made ready by a notification of all waiters. -/
theorem notification_misses_timed :
    let c := (machine zeroed).after [.attach 0 .idle, .attach 1 .normal, .startSchedule 1,
      .block 100 0 (some 10), .blockSection, .yield]
    (machine zeroed).Reachable c ∧ c.WaitsOn 100 1 ∧
      ∃ c', c.next (.unblock 100 true) = some c' ∧
        (c'.sched.thread 1).status = .delayed ∧ ¬ c.Reaches c' 100 true := by
  intro c
  have hw : c.WaitsOn 100 1 := ⟨⟨100, 0, some 10, 0⟩, ⟨by decide, by decide⟩, rfl⟩
  obtain ⟨c', hn⟩ : ∃ c', c.next (.unblock 100 true) = some c' :=
    Option.isSome_iff_exists.mp (by decide)
  have hst : (c'.sched.thread 1).status = .delayed := by
    have h : ((c.next (.unblock 100 true)).get (by decide)).sched.thread 1
      = ⟨.normal, .delayed, some 100, 10, true⟩ := by decide
    simp only [hn, Option.get_some] at h
    rw [h]
  refine ⟨(machine zeroed).reachable_after _, hw, c', hn, hst, fun hr ↦ ?_⟩
  have := hr.1 1 hw
  rw [hst] at this
  cases this

end Cpu

end Chino
