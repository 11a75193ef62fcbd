import Chino.Sched.Machine
import Chino.Sched.Sequences

/-!
# The scheduler's lists partition the threads

`Linked s L` is the invariant of the lists: the heap spells out `L`, and a thread is in the
sequence of exactly the list `list_of` selects if it is attached, and in none if it is not.  The
status of a thread and its place are changed by separate assignments in the code, in an order that
differs from operation to operation; `Linked.retarget`, `Linked.woken` and `Linked.switched` are the
three ways in which they come back into agreement.

`Inv` adds what a run needs besides: a scheduler has a current thread once it was started, and a
current thread that is not exiting is attached.  `Acts.inv` and `Inv.switchTask` keep it, and say on
the way that no event faults before it reaches `switch_task`.

## The steps, once and for all

`Acts c L e d b L'` lists what an event can do up to its `switch_task`, one constructor for each
branch of the code, with the sequences before and after.  `Inv.act_acts` says that the list is
complete, and that no branch faults; `Acts.inv` that each of them keeps `Inv`.  Every other property
of runs in these modules is proved by cases on `Acts`, with `Inv.next_cases` to take a step apart
into an action and a switch, so the functions of `scheduler.cpp` are unfolded in
`Chino.Sched.Sequences` and here only.

`lists_partition_threads` states the invariant in terms of the pointers: each list is a ring in both
directions with its counter, the lists have no common element, an attached thread is in the list its
status and priority select and in no other, and one that is not attached is in none.
-/

set_option autoImplicit false

namespace Chino

open Function (update)

namespace Scheduler

/-! ## The invariant of the lists -/

/-- The lists of the scheduler are the sequences `L`, and partition the attached threads. -/
structure Linked (s : Scheduler) (L : Queues) : Prop where
  /-- The heap spells out the sequences. -/
  rep : s.lists.Represents L
  /-- A thread is in the list its status and priority select, if it is attached. -/
  mem_iff : ∀ t l, t ∈ L l ↔ (s.thread t).attached = true ∧ listOf (s.thread t) = .ok l
  /-- No attached thread is terminated. -/
  alive : ∀ t, (s.thread t).attached = true → (s.thread t).status ≠ .terminated

variable {s : Scheduler} {L : Queues} {t : ThreadId}

theorem exists_listOf {th : Thread} (h : th.status ≠ .terminated) : ∃ l, listOf th = .ok l := by
  cases hs : th.status with
  | ready => exact ⟨.ready th.priority, by simp [listOf, hs]⟩
  | running => exact ⟨.ready th.priority, by simp [listOf, hs]⟩
  | blocked => exact ⟨.blocked, by simp [listOf, hs]⟩
  | delayed => exact ⟨.delayed, by simp [listOf, hs]⟩
  | terminated => exact absurd hs h

theorem listOf_eq_ready {th : Thread} {p : ThreadPriority} :
    listOf th = .ok (.ready p) ↔ (th.status = .ready ∨ th.status = .running) ∧ th.priority = p := by
  cases hs : th.status <;> simp [listOf, hs]

theorem listOf_eq_blocked {th : Thread} : listOf th = .ok .blocked ↔ th.status = .blocked := by
  cases hs : th.status <;> simp [listOf, hs]

theorem listOf_eq_delayed {th : Thread} : listOf th = .ok .delayed ↔ th.status = .delayed := by
  cases hs : th.status <;> simp [listOf, hs]

namespace Linked

theorem exists_mem (h : Linked s L) (ht : (s.thread t).attached = true) :
    ∃ l, listOf (s.thread t) = .ok l ∧ t ∈ L l := by
  obtain ⟨l, hl⟩ := exists_listOf (h.alive t ht)
  exact ⟨l, hl, (h.mem_iff t l).mpr ⟨ht, hl⟩⟩

theorem listOf_eq (h : Linked s L) {l : ListId} (ht : t ∈ L l) : listOf (s.thread t) = .ok l :=
  ((h.mem_iff t l).mp ht).2

theorem attached (h : Linked s L) {l : ListId} (ht : t ∈ L l) : (s.thread t).attached = true :=
  ((h.mem_iff t l).mp ht).1

theorem free (h : Linked s L) (ht : (s.thread t).attached = false) (l : ListId) : t ∉ L l := by
  intro hm
  rw [h.attached hm] at ht
  cases ht

theorem priority_eq (h : Linked s L) {p : ThreadPriority} (ht : t ∈ L (.ready p)) :
    (s.thread t).priority = p :=
  (listOf_eq_ready.mp (h.listOf_eq ht)).2

/-- The lists do not depend on the rest of the scheduler. -/
theorem congr {s' : Scheduler} (h : Linked s L) (hl : s'.lists = s.lists)
    (ht : s'.thread = s.thread) : Linked s' L :=
  ⟨hl ▸ h.rep, by simpa only [ht] using h.mem_iff, by simpa only [ht] using h.alive⟩

/-- One thread changes, and with it its place. -/
theorem retarget (h : Linked s L) {h' : Heap ListId ThreadId} {L' : Queues} (th : Thread)
    {s' : Scheduler} (hl : s'.lists = h') (ht : s'.thread = update s.thread t th)
    (hr : h'.Represents L')
    (hself : ∀ l, t ∈ L' l ↔ th.attached = true ∧ listOf th = .ok l)
    (hother : ∀ u l, u ≠ t → (u ∈ L' l ↔ u ∈ L l))
    (halive : th.attached = true → th.status ≠ .terminated) : Linked s' L' := by
  refine ⟨hl ▸ hr, fun u l ↦ ?_, fun u ↦ ?_⟩
  · by_cases hu : u = t
    · subst hu; rw [ht, Function.update_self]; exact hself l
    · rw [ht, Function.update_of_ne hu, hother u l hu]; exact h.mem_iff u l
  · by_cases hu : u = t
    · subst hu; rw [ht, Function.update_self]; exact halive
    · rw [ht, Function.update_of_ne hu]; exact h.alive u

/-- Threads of one waiting list are made ready. -/
theorem woken (h : Linked s L) {src : ListId} (hsrc : ∀ p, src ≠ .ready p) {ts : List ThreadId}
    (hts : ∀ t ∈ ts, t ∈ L src) (b : Bool) {h' : Heap ListId ThreadId}
    (hr : h'.Represents (s.wakeQueues L src ts)) :
    Linked (s.woken b ts h') (s.wakeQueues L src ts) := by
  refine ⟨hr, fun u l ↦ ?_, fun u ↦ ?_⟩
  · by_cases hu : u ∈ ts
    · have hus := hts u hu
      have hul : ∀ p, u ∉ L (.ready p) := fun p hm ↦
        hsrc p (h.rep.disjoint _ _ u hus hm)
      have hatt := h.attached hus
      cases l with
      | ready p => simp [wakeQueues, hu, hul p, hatt]
      | blocked | delayed =>
        by_cases hls : src = .blocked
        · subst hls
          have : u ∉ L .delayed := fun hm ↦ by cases h.rep.disjoint _ _ u hus hm
          simp [wakeQueues, hu, this]
        · by_cases hls' : src = .delayed
          · subst hls'
            have : u ∉ L .blocked := fun hm ↦ by cases h.rep.disjoint _ _ u hus hm
            simp [wakeQueues, hu, this]
          · cases src <;> simp_all
    · have hmem : u ∈ s.wakeQueues L src ts l ↔ u ∈ L l := by
        cases l with
        | ready p => simp [wakeQueues, hu]
        | blocked | delayed => simp only [wakeQueues]; split <;> simp [hu]
      rw [hmem, woken_thread, if_neg hu]
      exact h.mem_iff u l
  · rw [woken_thread]
    split
    · intro _; simp
    · exact h.alive u

/-- A thread goes to sleep. -/
theorem asleep (h : Linked s L) {l : ListId} {w : Nanoseconds} {s₀ s' : Scheduler} (th : Thread)
    (hatt : th.attached = true) (hth : s'.thread = update s.thread t (sleepThread w th))
    (ht : t ∈ L l) (hr : s'.lists.Represents (s₀.sleepQueues L l t w)) :
    Linked s' (s₀.sleepQueues L l t w) := by
  refine h.retarget _ rfl hth hr (fun l' ↦ ?_) (fun u l' hu ↦ ?_) (by simp [sleepThread])
  · by_cases hld : l' = .delayed
    · subst hld
      simp [sleepQueues, mem_insertDelayed, listOf, sleepThread, hatt]
    · rw [sleepQueues, Function.update_of_ne hld, mem_without h.rep ht]
      simp [listOf, sleepThread, Ne.symm hld]
  · by_cases hld : l' = .delayed
    · subst hld
      simp [sleepQueues, mem_insertDelayed, mem_without h.rep ht, hu]
    · rw [sleepQueues, Function.update_of_ne hld, mem_without h.rep ht]
      simp [hu]

/-- A change of the current thread moves nobody. -/
theorem switched (h : Linked s L) (cnt : ThreadId) {next : ThreadId} {p : ThreadPriority}
    (hnext : next ∈ L (.ready p)) : Linked (s.switched cnt next) L := by
  refine ⟨h.rep, fun u l ↦ ?_, fun u hu ↦ ?_⟩
  · rw [h.mem_iff u l, switched_thread]
    by_cases hn : u = next
    · subst hn
      have hst := (listOf_eq_ready.mp (h.listOf_eq hnext)).1
      rcases hst with hst | hst <;> simp [listOf, hst]
    · by_cases hc : u = cnt ∧ (s.thread cnt).status = .running
      · obtain ⟨rfl, hrun⟩ := hc
        simp [hn, hrun, listOf]
      · simp [hn, hc]
  · rw [switched_thread] at hu ⊢
    by_cases hn : u = next
    · simp [hn]
    · by_cases hc : u = cnt ∧ (s.thread cnt).status = .running
      · rw [if_neg hn, if_pos hc]
        simp
      · rw [if_neg hn, if_neg hc] at hu ⊢
        exact h.alive u hu

/-- Without a search, a thread of the priority of the current one is selected. -/
theorem roundRobin_mem (h : Linked s L) {cnt next : ThreadId} (hc : s.current = some cnt)
    (hrun : (s.thread cnt).status = .running)
    (hmax : s.maxReadyPriority.toNat ≤ (s.thread cnt).priority.toNat)
    (hsel : s.selectNextThread = .ok next) : next ∈ L (.ready (s.thread cnt).priority) := by
  cases hatt : (s.thread cnt).attached with
  | false =>
    rw [selectNextThread_orphan h.rep hc hrun hmax (h.free hatt)] at hsel
    exact mem_of_chosen hsel
  | true =>
    obtain ⟨l, hl, hm⟩ := h.exists_mem hatt
    obtain rfl : l = .ready (s.thread cnt).priority := by simpa [listOf, hrun] using hl.symm
    obtain ⟨xs, ys, hL⟩ := List.append_of_mem hm
    rw [selectNextThread_roundRobin h.rep hc hrun hmax hL] at hsel
    rw [← Except.ok.inj hsel, hL]
    have hmem := List.head_mem (l := ys ++ (xs ++ [cnt])) (by simp)
    simp only [List.mem_append, List.mem_cons, List.not_mem_nil, or_false] at hmem ⊢
    tauto

/-- A selected thread is in a ready list. -/
theorem selectNextThread_mem (h : Linked s L) {cnt next : ThreadId} (hc : s.current = some cnt)
    (hsel : s.selectNextThread = .ok next) : ∃ p, next ∈ L (.ready p) := by
  by_cases hb : s.maxReadyPriority.toNat > (s.thread cnt).priority.toNat ∨
      (s.thread cnt).status ≠ .running
  · rw [selectNextThread_search hc hb] at hsel
    rcases searchReady_cases h.rep (searchBound (s.thread cnt)) _ s.maxReadyPriority rfl with
      ⟨p, -, -, -, -, hp⟩ | ⟨-, hp⟩
    · rw [hp] at hsel
      exact ⟨p, mem_of_chosen hsel⟩
    · rw [hp] at hsel
      split at hsel <;> cases hsel
  · have hrun : (s.thread cnt).status = .running := by tauto
    have hmax : s.maxReadyPriority.toNat ≤ (s.thread cnt).priority.toNat := by
      by_contra hlt
      exact hb (Or.inl (by omega))
    exact ⟨_, h.roundRobin_mem hc hrun hmax hsel⟩

end Linked

end Scheduler

open Scheduler

namespace Cpu

/-! ## The invariant of a run -/

/-- What holds between any two sections of a run, with `L` for what the lists spell out. -/
structure Inv (c : Cpu) (L : Queues) : Prop where
  linked : c.sched.Linked L
  /-- There is a current thread as soon as the scheduler is started. -/
  started : c.sched.started = c.sched.current.isSome
  /-- Before that, nobody waits. -/
  boot : c.sched.started = false → ∀ t, (c.sched.thread t).attached = true →
    (c.sched.thread t).status = .ready
  /-- A current thread is attached as long as it does not exit. -/
  current : ∀ t, c.sched.current = some t → c.pc t ≠ .exiting → c.pc t ≠ .exited →
    (c.sched.thread t).attached = true

/-- **What an action can do.**  `Acts c L e d b L'` lists the outcomes `d` and `b` of `c.act e`, one
constructor for each branch of the code, with the sequences `L'` the lists spell out next. -/
inductive Acts (c : Cpu) (L : Queues) : Event → Cpu → Bool → Queues → Prop
  | attach {t : ThreadId} {p : ThreadPriority} {h' : Heap ListId ThreadId}
      (ht : (c.sched.thread t).attached = false) (hcur : c.sched.current ≠ some t) :
      Acts c L (.attach t p)
        { c.setPc t .user with sched := (c.sched.construct t p).attached t h' } c.sched.started
        (update L (.ready p) (L (.ready p) ++ [t]))
  | startSchedule {t : ThreadId} (hs : c.sched.started = false)
      (ht : (c.sched.thread t).attached = true) :
      Acts c L (.startSchedule t)
        { c with sched :=
          { c.sched.modifyThread t fun th ↦ { th with status := .running } with
            current := some t, started := true } } false L
  | detach {t : ThreadId} {l : ListId} {h' : Heap ListId ThreadId}
      (hc : c.sched.current = some t) (hpc : c.pc t = .user) (ht : t ∈ L l) :
      Acts c L .detach { c.setPc t .exiting with sched := c.sched.detached t h' } false
        (without L l t)
  | block {t : ThreadId} {a : Addr} {old : UInt32} {timeout : Option Nanoseconds}
      (hc : c.sched.current = some t) (hpc : c.pc t = .user) :
      Acts c L (.block a old timeout) (c.setPc t (.entered ⟨a, old, timeout, c.sched.now⟩)) false L
  | blockUntimed {t : ThreadId} {call : BlockCall} {l : ListId} {h' : Heap ListId ThreadId}
      (hc : c.sched.current = some t) (hpc : c.pc t = .entered call)
      (hmem : c.mem call.waitAddress = call.old) (htime : call.timeout = none) (ht : t ∈ L l) :
      Acts c L .blockSection
        { c.setPc t (.suspended call) with
          sched := c.sched.blocked t call.waitAddress h'
          arrivals := c.arrivals + 1
          arrival := update c.arrival t c.arrivals } false
        (update (without L l t) .blocked (without L l t .blocked ++ [t]))
  | blockTimed {t : ThreadId} {call : BlockCall} {timeout : Nanoseconds} {l : ListId}
      {h' : Heap ListId ThreadId}
      (hc : c.sched.current = some t) (hpc : c.pc t = .entered call)
      (hmem : c.mem call.waitAddress = call.old) (htime : call.timeout = some timeout)
      (ht : t ∈ L l) :
      Acts c L .blockSection
        { c.setPc t (.suspended call) with
          sched := (c.sched.waiting t call.waitAddress).asleep t (c.sched.now.add timeout) h'
          arrivals := c.arrivals + 1
          arrival := update c.arrival t c.arrivals } false
        ((c.sched.waiting t call.waitAddress).sleepQueues L l t (c.sched.now.add timeout))
  | blockMissed {t : ThreadId} {call : BlockCall} (hc : c.sched.current = some t)
      (hpc : c.pc t = .entered call) (hmem : c.mem call.waitAddress ≠ call.old) :
      Acts c L .blockSection (c.returnFrom t .ok) false L
  | blockCheck {t : ThreadId} {call : BlockCall} (hc : c.sched.current = some t)
      (hpc : c.pc t = .resumed call) : Acts c L .blockCheck (c.blockCheck t call) false L
  | yield {t : ThreadId} (hc : c.sched.current = some t)
      (hpc : c.pc t = .user ∨ (∃ call, c.pc t = .suspended call) ∨ c.pc t = .exiting) :
      Acts c L .yield (c.setPc t (afterYield (c.pc t))) true L
  | delay {t : ThreadId} {timeout : Nanoseconds} {l : ListId} {h' : Heap ListId ThreadId}
      (hc : c.sched.current = some t) (hpc : c.pc t = .user) (ht : t ∈ L l) :
      Acts c L (.delay timeout) { c with sched := c.sched.asleep t (c.sched.now.add timeout) h' }
        true (c.sched.sleepQueues L l t (c.sched.now.add timeout))
  | unblock {a : Addr} {all : Bool} {h' : Heap ListId ThreadId} :
      Acts c L (.unblock a all) { c with sched := c.sched.unblocked a all (L .blocked) h' } false
        (c.sched.wakeQueues L .blocked (c.sched.notified a all (L .blocked)))
  | store {a : Addr} {v : UInt32} :
      Acts c L (.store a v) (c.setMem a v) false L
  | lock : Acts c L .lock
      { c with sched := { c.sched with lockDepth := c.sched.lockDepth + 1 } } false L
  | unlock : Acts c L .unlock
      { c with sched := { c.sched with lockDepth := c.sched.lockDepth - 1 } } false L
  | tick {h' : Heap ListId ThreadId} (hs : c.sched.started = true) :
      Acts c L .tick { c with sched := c.sched.woken false (c.sched.due (L .delayed)) h' } true
        (c.sched.wakeQueues L .delayed (c.sched.due (L .delayed)))
  | irqYield (hs : c.sched.started = true) : Acts c L .irqYield
      { c with sched := { c.sched with yieldRequests := c.sched.yieldRequests - 1 } } true L
  | clock {now : Nanoseconds} (hnow : c.sched.now ≤ now) :
      Acts c L (.clock now) { c with sched := { c.sched with now := now } } false L

variable {mem : Addr → UInt32} {c d c' : Cpu} {L L' : Queues} {e : Event} {b : Bool}

theorem currentPc_any {p : Pc → Bool} (h : c.currentPc.any p = true) :
    ∃ t, c.sched.current = some t ∧ p (c.pc t) = true := by
  cases hc : c.sched.current with
  | none => simp [currentPc, hc] at h
  | some t => exact ⟨t, rfl, by simpa [currentPc, hc] using h⟩

theorem currentPc_eq {pc : Pc} (h : c.currentPc = some pc) :
    ∃ t, c.sched.current = some t ∧ c.pc t = pc := by
  simpa [currentPc] using h

/-- A current thread that can call the scheduler is in the list it selects. -/
theorem Inv.current_mem (h : c.Inv L) {t : ThreadId} (hc : c.sched.current = some t)
    (h1 : c.pc t ≠ .exiting) (h2 : c.pc t ≠ .exited) :
    ∃ l, listOf (c.sched.thread t) = .ok l ∧ t ∈ L l :=
  h.linked.exists_mem (h.current t hc h1 h2)

/-- **No action faults.** -/
theorem Inv.act_acts (h : c.Inv L) (he : c.enabled e = true) :
    ∃ d b L', c.act e = .ok (d, b) ∧ c.Acts L e d b L' ∧ d.sched.lists.Represents L' := by
  have hr := h.linked.rep
  cases e with
  | attach t p =>
    obtain ⟨ht, hcur⟩ : (c.sched.thread t).attached = false ∧ c.sched.current ≠ some t := by
      simpa [enabled] using he
    obtain ⟨h', hs, hr'⟩ := attachThread_spec (s := c.sched.construct t p) (t := t) hr
      (h.linked.free ht) (by simp [construct, modifyThread])
    have hp : ((c.sched.construct t p).thread t).priority = p := by
      simp [construct, modifyThread]
    rw [hp] at hr'
    exact ⟨_, _, _, by simp only [act, hs, bind, Except.bind], .attach ht hcur, hr'⟩
  | startSchedule t =>
    obtain ⟨hs, ht⟩ : c.sched.started = false ∧ (c.sched.thread t).attached = true := by
      simpa [enabled] using he
    exact ⟨_, _, _, rfl, .startSchedule hs ht, hr⟩
  | detach =>
    obtain ⟨t, hc, hpc⟩ := currentPc_eq (by simpa [enabled] using he)
    obtain ⟨l, hl, ht⟩ := h.current_mem hc (by simp [hpc]) (by simp [hpc])
    obtain ⟨h', hs, hr'⟩ := detachThread_spec hr hl ht
    exact ⟨_, _, _, by simp only [act, currentThread, hc, hs, bind, Except.bind],
      .detach hc hpc ht, hr'⟩
  | block a old timeout =>
    obtain ⟨t, hc, hpc⟩ := currentPc_eq (by simpa [enabled] using he)
    exact ⟨_, _, _, by simp only [act, currentThread, hc, bind, Except.bind], .block hc hpc, hr⟩
  | blockSection =>
    obtain ⟨t, hc, hpc⟩ := currentPc_any he
    obtain ⟨call, hpc⟩ : ∃ call, c.pc t = .entered call := by
      revert hpc; cases c.pc t <;> simp
    by_cases hmem : c.mem call.waitAddress = call.old
    · obtain ⟨l, hl, ht⟩ := h.current_mem hc (by simp [hpc]) (by simp [hpc])
      cases htime : call.timeout with
      | none =>
        obtain ⟨h', hs, hr'⟩ := blockThread_none_spec call.waitAddress hr hl ht
        exact ⟨_, _, _, by
          simp only [act, currentThread, hc, hpc, blockSection, hmem, htime, hs, bind, Except.bind,
            if_true], .blockUntimed hc hpc hmem htime ht, hr'⟩
      | some timeout =>
        obtain ⟨h', hs, hr'⟩ := blockThread_some_spec call.waitAddress timeout hr hl ht
        exact ⟨_, _, _, by
          simp only [act, currentThread, hc, hpc, blockSection, hmem, htime, hs, bind, Except.bind,
            if_true], .blockTimed hc hpc hmem htime ht, hr'⟩
    · exact ⟨_, _, _, by
        simp only [act, currentThread, hc, hpc, blockSection, hmem, bind, Except.bind, if_false],
        .blockMissed hc hpc hmem, hr⟩
  | blockCheck =>
    obtain ⟨t, hc, hpc⟩ := currentPc_any he
    obtain ⟨call, hpc⟩ : ∃ call, c.pc t = .resumed call := by
      revert hpc; cases c.pc t <;> simp
    refine ⟨c.blockCheck t call, false, L,
      by simp only [act, currentThread, hc, hpc, bind, Except.bind], .blockCheck hc hpc, ?_⟩
    unfold blockCheck
    split
    · exact hr
    · split <;> exact hr
  | yield =>
    obtain ⟨t, hc, hpc⟩ := currentPc_any he
    refine ⟨_, _, _, by simp only [act, currentThread, hc, bind, Except.bind], .yield hc ?_, hr⟩
    revert hpc; cases c.pc t <;> simp
  | delay timeout =>
    obtain ⟨t, hc, hpc⟩ := currentPc_eq (by simpa [enabled] using he)
    obtain ⟨l, hl, ht⟩ := h.current_mem hc (by simp [hpc]) (by simp [hpc])
    obtain ⟨h', hs, hr'⟩ := delayThread_spec timeout hr hl ht
    exact ⟨_, _, _, by simp only [act, currentThread, hc, hs, bind, Except.bind],
      .delay hc hpc ht, hr'⟩
  | unblock a all =>
    obtain ⟨h', hs, hr'⟩ := unblockLocalThreads_spec a all hr
    exact ⟨_, _, _, by simp only [act, hs, bind, Except.bind], .unblock, hr'⟩
  | store a v => exact ⟨_, _, _, rfl, .store, hr⟩
  | lock => exact ⟨_, _, _, rfl, .lock, hr⟩
  | unlock => exact ⟨_, _, _, rfl, .unlock, hr⟩
  | tick =>
    obtain ⟨h', hs, hr'⟩ := wakeupDelayedThreads_spec hr
    exact ⟨_, _, _, by simp only [act, hs, bind, Except.bind], .tick he, hr'⟩
  | irqYield =>
    obtain ⟨hs, -⟩ : c.sched.started = true ∧ 0 < c.sched.yieldRequests := by
      simpa [enabled] using he
    exact ⟨_, _, _, rfl, .irqYield hs, hr⟩
  | clock now => exact ⟨_, _, _, rfl, .clock (by simpa [enabled] using he), hr⟩

/-! ## Every step keeps the invariant -/

/-- What the lists say is kept by every action. -/
theorem Acts.linked (ha : c.Acts L e d b L') (h : c.Inv L) (hr : d.sched.lists.Represents L') :
    d.sched.Linked L' := by
  have hl := h.linked
  cases ha with
  | @attach t p h' ht hcur =>
    refine hl.retarget (t := t) ⟨p, .ready, (c.sched.thread t).waitAddress,
      (c.sched.thread t).wakeupTime, true⟩ rfl ?_ hr (fun l ↦ ?_) (fun u l hu ↦ ?_) (by simp)
    · simp [Scheduler.attached, construct, modifyThread]
    · have hfree := hl.free ht
      by_cases hlp : l = .ready p
      · subst hlp; simp [listOf]
      · rw [Function.update_of_ne hlp]
        simp [listOf, hfree l, Ne.symm hlp]
    · by_cases hlp : l = .ready p
      · subst hlp; simp [hu]
      · rw [Function.update_of_ne hlp]
  | @startSchedule t hs ht =>
    have hst := h.boot hs t ht
    refine hl.retarget (t := t) _ rfl rfl hr (fun l ↦ ?_) (fun u l hu ↦ Iff.rfl) (by simp)
    rw [hl.mem_iff t l]
    simp [listOf, hst]
  | @detach t l h' hc hpc ht =>
    refine hl.retarget (t := t) _ rfl rfl hr (fun l' ↦ ?_) (fun u l' hu ↦ ?_) (by simp)
    · simp [mem_without hl.rep ht]
    · simp [mem_without hl.rep ht, hu]
  | block hc hpc => exact hl
  | @blockUntimed t call l h' hc hpc hmem htime ht =>
    have hatt := hl.attached ht
    refine hl.retarget (t := t) _ rfl rfl hr (fun l' ↦ ?_) (fun u l' hu ↦ ?_) (by simp)
    · by_cases hlb : l' = .blocked
      · subst hlb; simp [listOf, hatt]
      · rw [Function.update_of_ne hlb, mem_without hl.rep ht]
        simp [listOf, Ne.symm hlb]
    · by_cases hlb : l' = .blocked
      · subst hlb; simp [mem_without hl.rep ht, hu]
      · rw [Function.update_of_ne hlb, mem_without hl.rep ht]
        simp [hu]
  | @blockTimed t call timeout l h' hc hpc hmem htime ht =>
    exact hl.asleep { c.sched.thread t with waitAddress := some call.waitAddress }
      (hl.attached ht) (asleep_waiting_thread ..) ht hr
  | blockMissed hc hpc hmem => exact hl
  | @blockCheck t call hc hpc =>
    unfold Cpu.blockCheck
    split
    · exact hl
    · split <;> exact hl
  | yield hc hpc => exact hl
  | @delay t timeout l h' hc hpc ht => exact hl.asleep _ (hl.attached ht) rfl ht hr
  | @unblock a all h' =>
    exact (hl.woken (by simp) (fun t ht ↦ (mem_of_mem_notified ht).1) true hr).congr rfl rfl
  | store => exact hl
  | lock => exact hl.congr rfl rfl
  | unlock => exact hl.congr rfl rfl
  | @tick h' hs =>
    exact hl.woken (by simp) (fun t ht ↦ (List.takeWhile_sublist _).subset ht) false hr
  | irqYield hs => exact hl.congr rfl rfl
  | clock hnow => exact hl.congr rfl rfl

/-- Only `attach` and `detach` change whether a thread is attached. -/
theorem Acts.attached (ha : c.Acts L e d b L') (u : ThreadId) :
    (d.sched.thread u).attached = (c.sched.thread u).attached ∨
      (∃ p, e = .attach u p) ∨ (e = .detach ∧ c.sched.current = some u) := by
  cases ha with
  | @attach t =>
    by_cases hu : u = t
    · subst hu; exact Or.inr (Or.inl ⟨_, rfl⟩)
    · exact Or.inl (by simp [Scheduler.attached, construct, modifyThread, hu])
  | @detach t l h' hc =>
    by_cases hu : u = t
    · subst hu; exact Or.inr (Or.inr ⟨rfl, hc⟩)
    · exact Or.inl (by simp [Scheduler.detached, hu])
  | @startSchedule t =>
    by_cases hu : u = t
    · subst hu; exact Or.inl (by simp [modifyThread])
    · exact Or.inl (by simp [modifyThread, hu])
  | @blockUntimed t =>
    by_cases hu : u = t
    · subst hu; exact Or.inl (by simp [Scheduler.blocked])
    · exact Or.inl (by simp [Scheduler.blocked, hu])
  | @blockTimed t | @delay t =>
    by_cases hu : u = t
    · subst hu; exact Or.inl (by simp [Scheduler.asleep, sleepThread, waiting, modifyThread])
    · exact Or.inl (by simp [Scheduler.asleep, waiting, modifyThread, hu])
  | @unblock a all h' =>
    refine Or.inl ?_
    rw [unblocked_thread]; split <;> rfl
  | tick =>
    refine Or.inl ?_
    rw [woken_thread]; split <;> rfl
  | blockCheck => exact Or.inl (by rw [blockCheck_sched])
  | _ => exact Or.inl rfl

/-- A thread that is not exiting after an action was not exiting before it, unless it is new. -/
theorem Acts.not_exiting (ha : c.Acts L e d b L') {u : ThreadId} (he : ∀ p, e ≠ .attach u p)
    (hpc : d.pc u ≠ .exiting ∧ d.pc u ≠ .exited) : c.pc u ≠ .exiting ∧ c.pc u ≠ .exited := by
  -- the thread whose `pc` an action sets is either new or was not exiting
  have key : ∀ {t : ThreadId} {pc : Pc} {d' : Cpu}, d'.pc = update c.pc t pc →
      d'.pc u ≠ .exiting ∧ d'.pc u ≠ .exited →
      (u = t → c.pc u ≠ .exiting ∧ c.pc u ≠ .exited) → c.pc u ≠ .exiting ∧ c.pc u ≠ .exited := by
    intro t pc d' hd h hself
    by_cases hu : u = t
    · exact hself hu
    · rwa [hd, Function.update_of_ne hu] at h
  cases ha with
  | @attach t p => exact key rfl hpc fun hu ↦ absurd (by rw [hu]) (he p)
  | @detach t _ _ hc ht => exact key rfl hpc fun hu ↦ by simp [hu, ht]
  | @block t _ _ _ hc ht => exact key rfl hpc fun hu ↦ by simp [hu, ht]
  | @blockUntimed t call _ _ hc ht => exact key rfl hpc fun hu ↦ by simp [hu, ht]
  | @blockTimed t call _ _ _ hc ht => exact key rfl hpc fun hu ↦ by simp [hu, ht]
  | @blockMissed t call hc ht => exact key rfl hpc fun hu ↦ by simp [hu, ht]
  | @blockCheck t call hc ht =>
    rcases blockCheck_pc c t call with hd | hd
    · exact key hd hpc fun hu ↦ by simp [hu, ht]
    · exact key hd hpc fun hu ↦ by simp [hu, ht]
  | @yield t hc ht =>
    refine key rfl hpc fun hu ↦ ?_
    subst hu
    rcases ht with ht | ⟨call, ht⟩ | ht
    · simp [ht]
    · simp [ht]
    · exact absurd (by simp [ht, afterYield]) hpc.2
  | _ => exact hpc

/-- Before the scheduler is started, nothing but `attach` touches a thread. -/
theorem Acts.boot (ha : c.Acts L e d b L') (h : c.Inv L) (hs : d.sched.started = false)
    {u : ThreadId} (hu : (d.sched.thread u).attached = true) :
    (d.sched.thread u).status = .ready := by
  have hcur : ∀ {t}, c.sched.current = some t → d.sched.started = c.sched.started → False := by
    intro t hc hst
    rw [hst, h.started, hc] at hs
    cases hs
  cases ha with
  | @attach t p h' ht hc =>
    by_cases hut : u = t
    · subst hut; simp [Scheduler.attached, construct, modifyThread]
    · simp only [Scheduler.attached, construct, modifyThread, Function.update_of_ne hut] at hu ⊢
      exact h.boot hs u hu
  | startSchedule => cases hs
  | detach hc | block hc | blockUntimed hc | blockTimed hc | blockMissed hc | yield hc
  | delay hc => exact (hcur hc rfl).elim
  | blockCheck hc => exact (hcur hc (by rw [blockCheck_sched])).elim
  | @unblock a all h' =>
    rw [unblocked_thread] at hu ⊢
    split at hu
    · rename_i hm; simp [hm]
    · rename_i hm; simp only [if_neg hm]; exact h.boot hs u hu
  | tick hst => exact absurd hs (by simp [woken, hst])
  | irqYield hst => exact absurd hs (by simp [hst])
  | store | lock | unlock | clock => exact h.boot hs u hu

/-- **Every action keeps the invariant.** -/
theorem Acts.inv (ha : c.Acts L e d b L') (h : c.Inv L) (hr : d.sched.lists.Represents L') :
    d.Inv L' := by
  refine ⟨ha.linked h hr, ?_, fun hs u hu ↦ ha.boot h hs hu, fun u hcur h1 h2 ↦ ?_⟩
  · cases ha with
    | startSchedule => rfl
    | blockCheck => rw [blockCheck_sched]; exact h.started
    | _ => exact h.started
  · rcases ha.attached u with hatt | ⟨p, rfl⟩ | ⟨rfl, hc⟩
    · rw [hatt]
      by_cases hst : ∃ t, e = .startSchedule t
      · obtain ⟨t, rfl⟩ := hst
        cases ha with
        | startSchedule hs ht => cases hcur; exact ht
      · have hsame : d.sched.current = c.sched.current := by
          cases ha with
          | startSchedule => exact absurd ⟨_, rfl⟩ hst
          | blockCheck => rw [blockCheck_sched]
          | _ => rfl
        by_cases hatt' : ∃ p, e = .attach u p
        · obtain ⟨p, rfl⟩ := hatt'
          cases ha with
          | attach ht hne => exact absurd (hsame.symm.trans hcur) hne
        · obtain ⟨g1, g2⟩ := ha.not_exiting (fun p he ↦ hatt' ⟨p, he⟩) ⟨h1, h2⟩
          exact h.current u (hsame.symm.trans hcur) g1 g2
    · cases ha with
      | attach ht hne => exact absurd hcur hne
    · cases ha with
      | detach hc' =>
        rw [hc] at hc'
        cases hc'
        simp at h1

theorem switchTask_eq_ok (h : d.switchTask = .ok c') :
    ∃ s, d.sched.switchTask = .ok s ∧ c' = { d with sched := s } := by
  cases hsw : d.sched.switchTask with
  | error f => simp [Cpu.switchTask, hsw, bind, Except.bind] at h
  | ok s =>
    simp only [Cpu.switchTask, hsw, bind, Except.bind] at h
    exact ⟨s, rfl, by cases h; rfl⟩

/-- A thread is in a call after an action if it was in it before, or has just begun it. -/
theorem Acts.call? (ha : c.Acts L e d b L') {u : ThreadId} {call : BlockCall}
    (hu : (d.pc u).call? = some call) : (c.pc u).call? = some call ∨
      (c.sched.current = some u ∧ e = .block call.waitAddress call.old call.timeout) := by
  have key : ∀ {t : ThreadId} {pc : Pc} {d' : Cpu}, d'.pc = update c.pc t pc →
      (d'.pc u).call? = some call → (u = t → pc.call? = some call → (c.pc t).call? = some call) →
      (c.pc u).call? = some call := by
    intro t pc d' hd hu h
    by_cases hut : u = t
    · subst hut
      rw [hd, Function.update_self] at hu
      exact h rfl hu
    · rwa [hd, Function.update_of_ne hut] at hu
  cases ha with
  | attach | detach | blockMissed => exact Or.inl (key rfl hu fun _ h ↦ by cases h)
  | @block t a old timeout hc hpc =>
    by_cases hut : u = t
    · subst hut
      rw [setPc_pc, Function.update_self] at hu
      cases hu
      exact Or.inr ⟨hc, rfl⟩
    · exact Or.inl (key rfl hu fun h ↦ absurd h hut)
  | blockUntimed hc hpc | blockTimed hc hpc =>
    refine Or.inl (key rfl hu fun _ h ↦ ?_)
    rw [hpc]
    exact h
  | @blockCheck t call' hc hpc =>
    rcases blockCheck_pc c t call' with hd | hd
    · exact Or.inl (key hd hu fun _ h ↦ by cases h)
    · refine Or.inl (key hd hu fun _ h ↦ ?_)
      rw [hpc]
      exact h
  | @yield t hc hpc =>
    refine Or.inl (key rfl hu fun _ h ↦ ?_)
    rcases hpc with hpc | ⟨call', hpc⟩ | hpc <;> rw [hpc] at h ⊢
    · exact h
    · exact h
    · cases h
  | _ => exact Or.inl hu

/-- Only `store` changes the memory. -/
theorem Acts.mem_eq (ha : c.Acts L e d b L') (he : ∀ a v, e ≠ .store a v) : d.mem = c.mem := by
  cases ha with
  | store => exact absurd rfl (he _ _)
  | blockCheck => exact blockCheck_mem ..
  | _ => rfl

/-- An action moves the current thread, or a new one. -/
theorem Acts.pc_other (ha : c.Acts L e d b L') {u : ThreadId} (hu : c.sched.current ≠ some u)
    (he : ∀ p, e ≠ .attach u p) : d.pc u = c.pc u := by
  have hne : ∀ {t}, c.sched.current = some t → u ≠ t := fun hc hut ↦ hu (hut ▸ hc)
  cases ha with
  | @attach t p =>
    have hut : u ≠ t := by rintro rfl; exact he p rfl
    exact Function.update_of_ne hut _ _
  | detach hc | block hc | blockUntimed hc | blockTimed hc | blockMissed hc | yield hc =>
    exact Function.update_of_ne (hne hc) _ _
  | @blockCheck t call hc =>
    rcases blockCheck_pc c t call with hd | hd <;> rw [hd] <;>
      exact Function.update_of_ne (hne hc) _ _
  | _ => rfl

/-- `switch_task` keeps the invariant. -/
theorem Inv.switchTask (h : d.Inv L) (hs : d.switchTask = .ok c') : c'.Inv L := by
  obtain ⟨s, hsw, rfl⟩ := switchTask_eq_ok hs
  rcases switchTask_cases hsw with rfl | ⟨cnt, next, -, hc, hne, hsel, rfl⟩
  · exact h
  · obtain ⟨p, hp⟩ := h.linked.selectNextThread_mem hc hsel
    have hlinked := h.linked.switched cnt hp
    have hstarted : d.sched.started = true := by rw [h.started, hc]; rfl
    refine ⟨hlinked, hstarted, fun hs ↦ ?_, fun t ht _ _ ↦ ?_⟩
    · exact absurd (hs.symm.trans hstarted) (by simp)
    · cases ht
      exact hlinked.attached hp

/-- Only a started scheduler switches. -/
theorem Acts.exists_current (ha : c.Acts L e d true L') (h : d.Inv L') :
    ∃ t, d.sched.current = some t := by
  have hst : d.sched.started = true := by
    generalize hb : true = b at ha
    cases ha with
    | attach => exact hb ▸ rfl
    | yield hc => rw [h.started]; simp [hc]
    | delay hc => rw [h.started]; simp [asleep, hc]
    | tick hs => exact hs
    | irqYield hs => exact hs
    | _ => cases hb
  rw [h.started] at hst
  exact Option.isSome_iff_exists.mp hst

theorem inv_init : (init mem).Inv fun _ ↦ [] where
  linked := ⟨Heap.represents_init, by simp [init], by simp [init]⟩
  started := rfl
  boot := by simp [init]
  current := by simp [init]

/-- **What a step can do**: an action, and a `switch_task` where the action ends with one. -/
theorem Inv.next_cases (h : c.Inv L) (hn : c.next e = some c') :
    ∃ d b L', c.Acts L e d b L' ∧ d.Inv L' ∧ c'.Inv L' ∧
      (b = false ∧ c' = d ∨ b = true ∧ c.beforeSwitch e = some d ∧ d.switchTask = .ok c') := by
  obtain ⟨he, hs⟩ := next_eq_some.mp hn
  obtain ⟨d, b, L', hact, ha, hr⟩ := h.act_acts he
  have hd := ha.inv h hr
  refine ⟨d, b, L', ha, hd, ?_⟩
  rcases step_eq_ok hs with hact' | ⟨d', hact', hsw⟩
  · cases hact.symm.trans hact'
    exact ⟨hd, Or.inl ⟨rfl, rfl⟩⟩
  · cases hact.symm.trans hact'
    exact ⟨hd.switchTask hsw, Or.inr ⟨rfl, beforeSwitch_eq_some.mpr hact, hsw⟩⟩

/-- A step that calls `switch_task` is an action and that call. -/
theorem Inv.next_switch (h : c.Inv L) (hd : c.beforeSwitch e = some d) (hn : c.next e = some c') :
    ∃ L', c.Acts L e d true L' ∧ d.Inv L' ∧ c'.Inv L' ∧ d.switchTask = .ok c' := by
  obtain ⟨he, hs⟩ := next_eq_some.mp hn
  obtain ⟨d', b, L', hact, ha, hr⟩ := h.act_acts he
  have hact' := beforeSwitch_eq_some.mp hd
  cases hact.symm.trans hact'
  have hinv := ha.inv h hr
  rcases step_eq_ok hs with hno | ⟨d', hyes, hsw⟩
  · cases hact'.symm.trans hno
  · cases hact'.symm.trans hyes
    exact ⟨L', ha, hinv, hinv.switchTask hsw, hsw⟩

/-- **Every reachable state satisfies the invariant.** -/
theorem inv_of_reachable (h : (machine mem).Reachable c) : ∃ L, c.Inv L :=
  Machine.Reachable.invariant (I := fun c ↦ ∃ L, c.Inv L) ⟨_, inv_init⟩
    (fun _ _ _ _ ⟨_, hI⟩ hn ↦ by
      obtain ⟨_, _, L', -, -, hI', -⟩ := hI.next_cases hn
      exact ⟨L', hI'⟩) h

/-! ## The partition -/

/-- **The lists of the scheduler partition the threads.**  In every state of every run the pointers
of each list close into a ring in both directions, its counter is its number of elements, an
attached thread is in the list that `list_of` selects, once, and in no other, and a thread that is
not attached is in none. -/
theorem lists_partition_threads (h : (machine mem).Reachable c) :
    c.sched.lists.Represents c.sched.lists.toList ∧
    (∀ l, c.sched.lists.size l = (c.sched.lists.toList l).length) ∧
    (∀ t, (c.sched.thread t).attached = true → ∃ l, listOf (c.sched.thread t) = .ok l ∧
      (c.sched.lists.toList l).count t = 1 ∧ ∀ l', l' ≠ l → t ∉ c.sched.lists.toList l') ∧
    (∀ t, (c.sched.thread t).attached = false → ∀ l, t ∉ c.sched.lists.toList l) := by
  obtain ⟨L, hI⟩ := inv_of_reachable h
  have hr := hI.linked.rep
  rw [hr.toList_eq]
  refine ⟨hr, hr.size, fun t ht ↦ ?_, fun t ht ↦ hI.linked.free ht⟩
  obtain ⟨l, hl, hm⟩ := hI.linked.exists_mem ht
  refine ⟨l, hl, List.count_eq_one_of_mem (hr.nodup l) hm, fun l' hne hm' ↦ ?_⟩
  exact hne (hr.disjoint l' l t hm' hm)

/-- A sleeper among three threads is where it should be. -/
theorem lists_partition_threads_sleeper :
    let c := (machine zeroed).after
      [.attach 0 .idle, .attach 1 .normal, .attach 2 .high, .startSchedule 0,
      .yield, .delay 5]
    (c.sched.thread 2).status = .delayed ∧ ∃ l, listOf (c.sched.thread 2) = .ok l ∧
      (c.sched.lists.toList l).count 2 = 1 ∧ ∀ l', l' ≠ l → 2 ∉ c.sched.lists.toList l' :=
  ⟨by decide, (lists_partition_threads ((machine zeroed).reachable_after _)).2.2.1 2 (by decide)⟩

end Cpu

end Chino
