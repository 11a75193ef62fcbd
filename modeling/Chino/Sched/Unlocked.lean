import Chino.Sched.Notify

/-!
# Runs without the scheduler lock

A thread that blocks while it holds the scheduler lock stays current, and may return from
`block_current_thread` while it is still linked as a waiter.  In a run without the lock neither
happens.  `Calm` says so: a thread in `blocked_threads_` is inside its call, and it is the current
one only before it has yielded.  `Acts.blocked_mem` is what an action then does to the set of
blocked threads: a thread joins it in the locked section of `block_current_thread`, and threads
leave it by notification and in no other way.

## What it is used for

The primitives of `Chino.Sync` call `block_current_thread` without the scheduler lock, and so do all
callers in the source but the tests of the lock itself.  For these runs `Settled` adds to `Calm`
what is known of the current thread: it is not blocked, except between its locked section and its
`yield`.

`Settled.next` then describes a step by what a waiter can see of it: the set of blocked threads
changes as `Acts.blocked_mem` says, and the switch at the end changes no more than which threads are
ready and running.  `Chino.Sync.Ledger` and `Chino.Sync.Wakeup` count on top of this.
-/

set_option autoImplicit false

namespace Chino

open Function (update)
open Scheduler

namespace Cpu

variable {mem : Addr → UInt32} {c c' d : Cpu} {L L' : Queues} {e : Event} {b : Bool}

/-- The rule of a run in which nobody takes the scheduler lock. -/
def NoLock (_ : Cpu) (e : Event) : Prop := e ≠ .lock ∧ e ≠ .unlock

instance (c : Cpu) (e : Event) : Decidable (NoLock c e) := by unfold NoLock; infer_instance

/-- Blocked threads are inside their calls. -/
structure Calm (c : Cpu) (L : Queues) : Prop where
  unlocked : c.sched.lockDepth = 0
  waiting : ∀ t ∈ L .blocked, ∃ call, c.pc t = .suspended call ∨ c.pc t = .resumed call
  current : ∀ t, c.sched.current = some t → t ∈ L .blocked → ∃ call, c.pc t = .suspended call

/-- A current thread that is not about to yield is not blocked. -/
theorem Calm.not_mem_blocked (hk : c.Calm L) {t : ThreadId} (hc : c.sched.current = some t)
    (hpc : ∀ call, c.pc t ≠ .suspended call) : t ∉ L .blocked := fun hm ↦ by
  obtain ⟨call, hcall⟩ := hk.current t hc hm
  exact hpc call hcall

/-- **What an action does to the set of blocked threads.** -/
theorem Acts.blocked_mem (ha : c.Acts L e d b L') (h : c.Inv L) (hk : c.Calm L) :
    (∀ u, u ∈ L' .blocked ↔ u ∈ L .blocked) ∨
    (e = .blockSection ∧ ∃ t call, c.sched.current = some t ∧ c.pc t = .entered call ∧
      c.mem call.waitAddress = call.old ∧ call.timeout = none ∧
      d.pc = update c.pc t (.suspended call) ∧ ∀ u, u ∈ L' .blocked ↔ u = t ∨ u ∈ L .blocked) ∨
    (∃ a all, e = .unblock a all ∧
      ∀ u, u ∈ L' .blocked ↔ u ∈ L .blocked ∧ u ∉ c.sched.notified a all (L .blocked)) := by
  have hout : ∀ {t : ThreadId} {l : ListId}, c.sched.current = some t → t ∈ L l →
      (∀ call, c.pc t ≠ .suspended call) → ∀ u, u ∈ without L l t .blocked ↔ u ∈ L .blocked := by
    intro t l hc ht hpc u
    rw [mem_without h.linked.rep ht]
    refine and_iff_right_of_imp fun hu ↦ ?_
    rintro rfl
    exact hk.not_mem_blocked hc hpc hu
  cases ha with
  | attach => exact Or.inl fun u ↦ by rw [Function.update_of_ne (by simp)]
  | detach hc hpc ht => exact Or.inl (hout hc ht (by simp [hpc]))
  | @blockUntimed t call l h' hc hpc hmem htime ht =>
    refine Or.inr (Or.inl ⟨rfl, t, call, hc, hpc, hmem, htime, rfl, fun u ↦ ?_⟩)
    rw [Function.update_self, List.mem_append, hout hc ht (by simp [hpc]), List.mem_singleton,
      or_comm]
  | blockTimed hc hpc hmem htime ht =>
    refine Or.inl fun u ↦ ?_
    rw [sleepQueues, Function.update_of_ne (by simp), hout hc ht (by simp [hpc])]
  | delay hc hpc ht =>
    refine Or.inl fun u ↦ ?_
    rw [sleepQueues, Function.update_of_ne (by simp), hout hc ht (by simp [hpc])]
  | @unblock a all h' =>
    refine Or.inr (Or.inr ⟨a, all, rfl, fun u ↦ ?_⟩)
    simp [wakeQueues]
  | tick => exact Or.inl fun u ↦ by simp [wakeQueues]
  | _ => exact Or.inl fun _ ↦ Iff.rfl

/-- A suspended thread leaves its call only at the end of the loop. -/
theorem Acts.pc_of_suspended (ha : c.Acts L e d b L') {u : ThreadId} {call : BlockCall}
    (hu : c.pc u = .suspended call ∨ c.pc u = .resumed call) :
    ((d.pc u = .suspended call ∨ d.pc u = .resumed call) ∧ (b = false → d.pc u = c.pc u)) ∨
      (∃ p, e = .attach u p) ∨ (e = .blockCheck ∧ c.sched.current = some u ∧
        c.pc u = .resumed call) := by
  have key : ∀ {t : ThreadId} {pc : Pc}, d.pc = update c.pc t pc → u ≠ t →
      (d.pc u = .suspended call ∨ d.pc u = .resumed call) ∧ (b = false → d.pc u = c.pc u) := by
    intro t pc hd hut
    rw [hd, Function.update_of_ne hut]
    exact ⟨hu, fun _ ↦ rfl⟩
  have hother : ∀ {t : ThreadId} {pc : Pc}, c.pc t = pc → (∀ call, pc ≠ .suspended call) →
      (∀ call, pc ≠ .resumed call) → u ≠ t := by
    rintro t pc rfl h1 h2 rfl
    rcases hu with hu | hu
    · exact h1 _ hu
    · exact h2 _ hu
  cases ha with
  | @attach t p =>
    by_cases hut : u = t
    · subst hut; exact Or.inr (Or.inl ⟨p, rfl⟩)
    · exact Or.inl (key rfl hut)
  | detach hc hpc | block hc hpc | blockUntimed hc hpc | blockTimed hc hpc | blockMissed hc hpc =>
    exact Or.inl (key rfl (hother hpc (by simp) (by simp)))
  | @blockCheck t call' hc hpc =>
    by_cases hut : u = t
    · subst hut
      rcases hu with hu | hu
      · rw [hpc] at hu; cases hu
      · exact Or.inr (Or.inr ⟨rfl, hc, hu⟩)
    · rcases blockCheck_pc c t call' with hd | hd <;> exact Or.inl (key hd hut)
  | @yield t hc hpc =>
    by_cases hut : u = t
    · subst hut
      refine Or.inl ⟨Or.inr ?_, fun hb ↦ by cases hb⟩
      rcases hu with hu | hu
      · simp [hu, afterYield]
      · rcases hpc with hpc | ⟨call', hpc⟩ | hpc <;> rw [hpc] at hu <;> cases hu
    · exact Or.inl (key rfl hut)
  | _ => exact Or.inl ⟨hu, fun _ ↦ rfl⟩

/-- An action keeps the blocked threads inside their calls. -/
theorem Acts.calm (ha : c.Acts L e d b L') (h : c.Inv L) (hk : c.Calm L) (hrule : NoLock c e) :
    d.sched.lockDepth = 0 ∧
    (∀ t ∈ L' .blocked, ∃ call, d.pc t = .suspended call ∨ d.pc t = .resumed call) ∧
    (b = false → d.Calm L') := by
  have hlock : d.sched.lockDepth = 0 := by
    cases ha with
    | lock => exact absurd rfl hrule.1
    | unlock => exact absurd rfl hrule.2
    | blockCheck => rw [blockCheck_sched]; exact hk.unlocked
    | _ => exact hk.unlocked
  -- a thread that was blocked before keeps its call
  have hold : ∀ t ∈ L .blocked, ∃ call, (d.pc t = .suspended call ∨ d.pc t = .resumed call) ∧
      (b = false → d.pc t = c.pc t) := by
    intro t ht
    obtain ⟨call, hcall⟩ := hk.waiting t ht
    rcases ha.pc_of_suspended hcall with hd | ⟨p, rfl⟩ | ⟨rfl, hc, hpc⟩
    · exact ⟨call, hd⟩
    · cases ha with
      | attach hfree => rw [h.linked.attached ht] at hfree; cases hfree
    · exact absurd ht (hk.not_mem_blocked hc (by simp [hpc]))
  have hwait : ∀ t ∈ L' .blocked, ∃ call, d.pc t = .suspended call ∨ d.pc t = .resumed call := by
    intro t ht
    rcases ha.blocked_mem h hk with hmem | ⟨-, t', call, -, -, -, -, hpc, hmem⟩ | ⟨a, all, -, hmem⟩
    · obtain ⟨call, hcall, -⟩ := hold t ((hmem t).mp ht)
      exact ⟨call, hcall⟩
    · rcases (hmem t).mp ht with rfl | ht
      · exact ⟨call, Or.inl (by rw [hpc, Function.update_self])⟩
      · obtain ⟨call, hcall, -⟩ := hold t ht
        exact ⟨call, hcall⟩
    · obtain ⟨call, hcall, -⟩ := hold t ((hmem t).mp ht).1
      exact ⟨call, hcall⟩
  refine ⟨hlock, hwait, fun hb ↦ ⟨hlock, hwait, fun t hcur ht ↦ ?_⟩⟩
  have hsame : d.sched.current = c.sched.current ∨ ∃ t, e = .startSchedule t := by
    cases ha with
    | startSchedule => exact Or.inr ⟨_, rfl⟩
    | blockCheck => exact Or.inl (by rw [blockCheck_sched])
    | _ => exact Or.inl rfl
  rcases hsame with hsame | ⟨t', rfl⟩
  · rw [hsame] at hcur
    have hmem : (∃ call, d.pc t = .suspended call) ∨ t ∈ L .blocked := by
      rcases ha.blocked_mem h hk with hmem | ⟨-, t', call, -, -, -, -, hpc, hmem⟩ | ⟨a, all, -,
        hmem⟩
      · exact Or.inr ((hmem t).mp ht)
      · rcases (hmem t).mp ht with rfl | ht
        · exact Or.inl ⟨call, by rw [hpc, Function.update_self]⟩
        · exact Or.inr ht
      · exact Or.inr ((hmem t).mp ht).1
    rcases hmem with hmem | hmem
    · exact hmem
    · obtain ⟨call, -, hpc⟩ := hold t hmem
      rw [hpc hb]
      exact hk.current t hcur hmem
  · cases ha with
    | startSchedule hs hatt =>
      cases hcur
      have := listOf_eq_blocked.mp (h.linked.listOf_eq ht)
      rw [h.boot hs t hatt] at this
      cases this

/-- After an unlocked `switch_task` the current thread is not blocked. -/
theorem calm_switchTask (h : d.Inv L) (hlock : d.sched.lockDepth = 0)
    (hw : ∀ t ∈ L .blocked, ∃ call, d.pc t = .suspended call ∨ d.pc t = .resumed call)
    (hs : d.switchTask = .ok c') : c'.Calm L := by
  obtain ⟨s, hsw, rfl⟩ := switchTask_eq_ok hs
  obtain ⟨cnt, next, hc, hsel⟩ := selectNextThread_of_switchTask hlock hsw
  obtain ⟨p, hp⟩ := h.linked.selectNextThread_mem hc hsel
  obtain ⟨s', hsw', hcur, -, -, -⟩ := switchTask_selected hlock hc hsel
  cases hsw.symm.trans hsw'
  have hlock' : s.lockDepth = 0 := by
    rcases switchTask_cases hsw with rfl | ⟨_, _, -, -, -, -, rfl⟩ <;> exact hlock
  refine ⟨hlock', hw, fun t ht hm ↦ ?_⟩
  cases hcur.symm.trans ht
  cases h.linked.rep.disjoint _ _ _ hp hm

/-- What is known of a CPU in a run without the lock. -/
structure Settled (c : Cpu) (L : Queues) : Prop where
  inv : c.Inv L
  waits : c.Waits L
  calm : c.Calm L

/-- **A step without the lock.**  It is an action `d`, up to a switch that changes no more than
which threads are ready and running. -/
theorem Settled.next (h : c.Settled L) (hrule : NoLock c e) (hn : c.next e = some c') :
    ∃ d b L', c.Acts L e d b L' ∧ c'.Settled L' ∧ c'.pc = d.pc ∧ c'.mem = d.mem ∧
      c'.result = d.result ∧
      ∀ u, (c'.sched.thread u).attached = (d.sched.thread u).attached := by
  obtain ⟨d, b, L', ha, hd, hI', hcase⟩ := h.inv.next_cases hn
  have hw' := ha.waits h.inv h.waits
  obtain ⟨hlock, hwait, hcalm⟩ := ha.calm h.inv h.calm hrule
  refine ⟨d, b, L', ha, ?_⟩
  rcases hcase with ⟨rfl, rfl⟩ | ⟨rfl, -, hsw⟩
  · exact ⟨⟨hI', hw', hcalm rfl⟩, rfl, rfl, rfl, fun _ ↦ rfl⟩
  · refine ⟨⟨hI', waits_switchTask hw' hsw, calm_switchTask hd hlock hwait hsw⟩, ?_⟩
    obtain ⟨s, hs, rfl⟩ := switchTask_eq_ok hsw
    refine ⟨rfl, rfl, rfl, fun u ↦ ?_⟩
    rcases switchTask_cases hs with rfl | ⟨cnt, next, -, -, -, -, rfl⟩
    · rfl
    · rw [switched_thread]
      split
      · rfl
      · split <;> rfl

theorem Settled.setMem (h : c.Settled L) (a : Addr) (v : UInt32) : (c.setMem a v).Settled L := by
  obtain ⟨d, b, L', ha, hs, -⟩ := h.next (e := .store a v) (by simp [NoLock]) (next_store c a v)
  cases ha
  exact hs

theorem calm_init : (init mem).Calm fun _ ↦ [] where
  unlocked := rfl
  waiting _ h := by cases h
  current _ h := by cases h

theorem settled_init : (init mem).Settled fun _ ↦ [] := ⟨inv_init, waits_init, calm_init⟩

end Cpu

end Chino
