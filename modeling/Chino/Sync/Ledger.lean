import Chino.Library.Count
import Chino.Sync.Primitives

/-!
# Who is on the way to a waiter

A waiter that is still in `blocked_threads_` although its word is available has to be somebody's
business: of a thread that has changed the word and is still on its way to the notification, or of
a waiter that was notified and is about to try again.  `Ledger.wake` is the counting form of this,
which makes it an invariant: while somebody is blocked on the word, no more tries can succeed than
there are such threads.

The other half is `Ledger.guard`: `waiters_` is the number of threads inside the `waiters_guard`,
modulo 2^32.  A release reads it after it has changed the word, and skips the notification if it is
zero, so it must not be zero because it has wrapped around.  With at most 2^32 threads it is not,
for the releasing thread is outside of the guard.

Each kind of step has a lemma `Places.sound_…`, and `sound_of_reachable` assembles them.

## The two entries

* **`wake`.**  For each object the number of tries that can still succeed is compared with the
  number of threads that are on their way: those between a release and the end of its notification,
  and those that were notified and have their next try ahead.  While somebody is blocked on the
  word, the first is not above the second.
* **`guard`.**  `waiters_` counts the threads in the guard.

`Places` ties a thread's `Spot` in the primitive to its `Pc` in `block_current_thread` and to the
list it is on.  A step of the system moves one thread, and the ledger changes with it in one of the
ways of `Ledger.move`; the exception is a notification, in which two threads change at once, the
notified one taking the place of the notifying one (`Places.ledger_notify`).

The lemmas follow the order of the code: outside, the guard, the load of `atomic_wait`, its locked
section, the way out, the release, the load of `waiters_`, the notification.
-/

set_option autoImplicit false

namespace Chino

open Function (update)
open Scheduler

namespace System

variable {objects : ObjectId → Object} {s s' : System} {T : Finset ThreadId} {L L' : Queues}
  {t : ThreadId} {o : ObjectId}

/-! ## Places -/

/-- What the scheduler and the primitives say about the same threads. -/
structure Places (objects : ObjectId → Object) (T : Finset ThreadId) (s : System) (L : Queues) :
    Prop where
  cpu : s.cpu.Settled L
  /-- The threads are those of `T`. -/
  threads : ∀ t, (s.cpu.sched.thread t).attached = true → t ∈ T
  /-- A thread in a primitive is attached. -/
  attached : ∀ t, (s.spot t).isIdle = false → (s.cpu.sched.thread t).attached = true
  /-- A `block_current_thread` call is that of a primitive. -/
  call : ∀ t call, (s.cpu.pc t).call? = some call → ∃ o, s.spot t = .waiting o call.timeout ∧
    call.waitAddress = word o ∧ call.old = (objects o).busy

/-- A blocked thread waits for an object, and is linked for its word. -/
theorem Places.blocked (h : s.Places objects T L) (ht : t ∈ L .blocked) :
    ∃ o call, s.spot t = .waiting o none ∧ (s.cpu.sched.thread t).waitAddress = some (word o) ∧
      (s.cpu.pc t = .suspended call ∨ s.cpu.pc t = .resumed call) := by
  obtain ⟨call, hpc⟩ := h.cpu.calm.waiting t ht
  have hcall : (s.cpu.pc t).call? = some call := by rcases hpc with hpc | hpc <;> rw [hpc] <;> rfl
  obtain ⟨o, hspot, haddr, -⟩ := h.call t call hcall
  have hst := listOf_eq_blocked.mp (h.cpu.inv.linked.listOf_eq ht)
  obtain ⟨hwait, htime⟩ := h.cpu.waits.untimed t call ⟨hpc, Or.inl hst⟩ hst
  exact ⟨o, call, by rw [hspot, htime], by rw [hwait, haddr], hpc⟩

/-- A thread that moves is one of `T`. -/
theorem Places.current_mem (h : s.Places objects T L) (hc : s.cpu.sched.current = some t)
    (hpc : (s.spot t).isIdle = true → s.cpu.pc t = .user) : t ∈ T := by
  refine h.threads t ?_
  cases hi : (s.spot t).isIdle with
  | false => exact h.attached t hi
  | true =>
    have hu := hpc hi
    exact h.cpu.inv.current t hc (by rw [hu]; simp) (by rw [hu]; simp)

/-! ## The ledger -/

/-- A thread with this spot, `pc` and place was notified while it waited for `o`, and has its next
try ahead. -/
def WokenAt (o : ObjectId) (spot : Spot) (pc : Pc) (blocked : Prop) : Prop :=
  spot = .waiting o none ∧ (∃ call, pc = .suspended call ∨ pc = .resumed call) ∧ ¬ blocked ∨
    spot.retries o = true

/-- The thread was notified and has its next try ahead; `L` is what the lists spell out. -/
def Woken (s : System) (L : Queues) (o : ObjectId) (t : ThreadId) : Prop :=
  WokenAt o (s.spot t) (s.cpu.pc t) (t ∈ L .blocked)

/-- Somebody is blocked on the word of `o`. -/
def Blocked (s : System) (L : Queues) (o : ObjectId) : Prop :=
  ∃ t ∈ L .blocked, s.spot t = .waiting o none

/-- The counters of the primitives and of the threads in them. -/
structure Ledger (objects : ObjectId → Object) (T : Finset ThreadId) (s : System) (L : Queues) :
    Prop where
  /-- `waiters_` counts the threads in the guard. -/
  guard : ∀ o, s.cpu.mem (waiters o) = UInt32.ofNat (count T fun t ↦ (s.spot t).inGuard o = true)
  /-- For every try that can succeed somebody is on the way. -/
  wake : ∀ o, s.Blocked L o → (objects o).free (s.cpu.mem (word o))
    ≤ count T (fun t ↦ (s.spot t).notifies o = true) + count T (s.Woken L o)

/-- **One thread moves.**  The ledger is kept if `waiters_` follows the thread, and if a try more
that can succeed is matched by the thread being on its way. -/
theorem Ledger.move (h : s.Ledger objects T L) (ht : t ∈ T) {spot : Spot}
    (hspot : s'.spot = update s.spot t spot) (hpc : ∀ u, u ≠ t → s'.cpu.pc u = s.cpu.pc u)
    (hblocked : ∀ u, u ≠ t → (u ∈ L' .blocked ↔ u ∈ L .blocked))
    (hguard : ∀ o, s'.cpu.mem (waiters o) = s.cpu.mem (waiters o) ∧
        spot.inGuard o = (s.spot t).inGuard o ∨
      s'.cpu.mem (waiters o) = s.cpu.mem (waiters o) + 1 ∧ spot.inGuard o = true ∧
        (s.spot t).inGuard o = false ∨
      s'.cpu.mem (waiters o) = s.cpu.mem (waiters o) - 1 ∧ spot.inGuard o = false ∧
        (s.spot t).inGuard o = true)
    (hwake : ∀ o, s'.Blocked L' o → (objects o).free (s'.cpu.mem (word o)) = 0 ∨ s.Blocked L o ∧
      (objects o).free (s'.cpu.mem (word o)) + tally ((s.spot t).notifies o = true)
          + tally (s.Woken L o t)
        ≤ (objects o).free (s.cpu.mem (word o)) + tally (spot.notifies o = true)
          + tally (WokenAt o spot (s'.cpu.pc t) (t ∈ L' .blocked))) :
    s'.Ledger objects T L' := by
  have hself : s'.spot t = spot := by rw [hspot, Function.update_self]
  have hother : ∀ u, u ≠ t → s'.spot u = s.spot u := fun u hu ↦ by
    rw [hspot, Function.update_of_ne hu]
  constructor
  · intro o
    have hcount := count_change (P := fun u ↦ (s.spot u).inGuard o = true)
      (Q := fun u ↦ (s'.spot u).inGuard o = true) ht fun u _ hu ↦ by rw [hother u hu]
    simp only [hself] at hcount
    have hg := h.guard o
    rcases hguard o with ⟨hm, hs⟩ | ⟨hm, h1, h2⟩ | ⟨hm, h1, h2⟩
    · rw [hs] at hcount
      rw [hm, hg]
      exact congrArg UInt32.ofNat (by omega)
    · rw [tally_of h1, tally_of_not (by simp [h2])] at hcount
      have hsum : count T (fun u ↦ (s'.spot u).inGuard o = true)
          = count T (fun u ↦ (s.spot u).inGuard o = true) + 1 := by omega
      rw [hm, hg, hsum, UInt32.ofNat_add]
      rfl
    · rw [tally_of_not (by simp [h1]), tally_of h2] at hcount
      have hsum : count T (fun u ↦ (s.spot u).inGuard o = true)
          = count T (fun u ↦ (s'.spot u).inGuard o = true) + 1 := by omega
      rw [hm, hg, hsum, UInt32.ofNat_add]
      exact UInt32.add_sub_cancel _ _
  · intro o hb
    have hn := count_change (P := fun u ↦ (s.spot u).notifies o = true)
      (Q := fun u ↦ (s'.spot u).notifies o = true) ht fun u _ hu ↦ by rw [hother u hu]
    have hw := count_change (P := s.Woken L o) (Q := s'.Woken L' o) ht fun u _ hu ↦ by
      rw [Woken, Woken, hother u hu, hpc u hu, hblocked u hu]
    have hwt : s'.Woken L' o t = WokenAt o spot (s'.cpu.pc t) (t ∈ L' .blocked) := by
      rw [Woken, hself]
    simp only [hself] at hn
    rw [hwt] at hw
    rcases hwake o hb with h0 | ⟨hb', hle⟩
    · omega
    · have := h.wake o hb'
      omega

/-! ## What a move does to the CPU -/

/-- A step of the CPU by which `t` alone can change its place. -/
structure Step (s : System) (t : ThreadId) (c : Cpu) (L : Queues) : Prop where
  settled : c.Settled L
  attached : ∀ u, (c.sched.thread u).attached = (s.cpu.sched.thread u).attached
  pc : ∀ u, u ≠ t → c.pc u = s.cpu.pc u

theorem Places.step_refl (h : s.Places objects T L) : s.Step t s.cpu L :=
  ⟨h.cpu, fun _ ↦ rfl, fun _ _ ↦ rfl⟩

theorem Places.step_setMem (h : s.Places objects T L) (a : Addr) (v : UInt32) :
    s.Step t (s.cpu.setMem a v) L :=
  ⟨h.cpu.setMem a v, fun _ ↦ rfl, fun _ _ ↦ rfl⟩

/-- The events of the CPU that the primitives consist of. -/
def IsCall (e : Event) : Prop :=
  match e with
  | .block .. | .blockSection | .yield | .blockCheck | .unblock .. => True
  | _ => False

theorem Places.step_next (h : s.Places objects T L) (hc : s.cpu.sched.current = some t)
    {e : Event} (he : IsCall e) {c : Cpu} (hn : s.cpu.next e = some c) :
    ∃ d b L', s.cpu.Acts L e d b L' ∧ c.pc = d.pc ∧ c.mem = d.mem ∧ c.result = d.result ∧
      s.Step t c L' := by
  have hne : (∀ u p, e ≠ .attach u p) ∧ e ≠ .detach ∧ e ≠ .lock ∧ e ≠ .unlock := by
    cases e <;> simp_all [IsCall]
  obtain ⟨d, b, L', ha, hs, hpc, hmem, hres, hatt⟩ := h.cpu.next hne.2.2 hn
  refine ⟨d, b, L', ha, hpc, hmem, hres, hs, fun u ↦ ?_, fun u hu ↦ ?_⟩
  · rw [hatt]
    rcases ha.attached u with hd | ⟨p, rfl⟩ | ⟨rfl, -⟩
    · exact hd
    · exact absurd rfl (hne.1 u p)
    · exact absurd rfl hne.2.1
  · rw [hpc]
    refine ha.pc_other (fun hcu ↦ hu ?_) fun p ↦ hne.1 u p
    exact Option.some.inj (hcu.symm.trans hc)

/-- **A move keeps the places**, if the thread is in a call only while it is in that of a
primitive. -/
theorem Places.move (h : s.Places objects T L) {spot : Spot} {c : Cpu} (hs : s.Step t c L')
    (ht : (s.cpu.sched.thread t).attached = true)
    (hcall : ∀ call, (c.pc t).call? = some call → ∃ o, spot = .waiting o call.timeout ∧
      call.waitAddress = word o ∧ call.old = (objects o).busy) :
    Places objects T ⟨c, update s.spot t spot⟩ L' := by
  refine ⟨hs.settled, fun u hu ↦ ?_, fun u hu ↦ ?_, fun u call hu ↦ ?_⟩
  · exact h.threads u (hs.attached u ▸ hu)
  · show (c.sched.thread u).attached = true
    rw [hs.attached u]
    by_cases hut : u = t
    · rw [hut]; exact ht
    · refine h.attached u ?_
      simpa [hut] using hu
  · by_cases hut : u = t
    · subst hut
      simpa using hcall call hu
    · have hu' : (s.cpu.pc u).call? = some call := by rw [← hs.pc u hut]; exact hu
      simpa [hut] using h.call u call hu'

/-! ## The moves, one by one -/

/-- What a state has to keep. -/
def Sound (objects : ObjectId → Object) (T : Finset ThreadId) (s : System) : Prop :=
  ∃ L, s.Places objects T L ∧ s.Ledger objects T L

theorem wokenAt_of_not_waiting {spot : Spot} {pc : Pc} {b : Prop}
    (h : ∀ o, spot ≠ .waiting o none) :
    WokenAt o spot pc b ↔ spot.retries o = true :=
  or_iff_right fun hw ↦ h o hw.1

/-- **A move outside of `block_current_thread`.** -/
theorem Places.sound_outside (hp : s.Places objects T L) (hl : s.Ledger objects T L)
    (hc : s.cpu.sched.current = some t)
    (hpc : (s.spot t).isIdle = true → s.cpu.pc t = .user) {spot : Spot} {c : Cpu}
    (hs : s.Step t c L) (hcpc : c.pc = s.cpu.pc) (hold : ∀ o timeout, s.spot t ≠ .waiting o timeout)
    (hnew : ∀ o timeout, spot ≠ .waiting o timeout)
    (hguard : ∀ o, c.mem (waiters o) = s.cpu.mem (waiters o) ∧
        spot.inGuard o = (s.spot t).inGuard o ∨
      c.mem (waiters o) = s.cpu.mem (waiters o) + 1 ∧ spot.inGuard o = true ∧
        (s.spot t).inGuard o = false ∨
      c.mem (waiters o) = s.cpu.mem (waiters o) - 1 ∧ spot.inGuard o = false ∧
        (s.spot t).inGuard o = true)
    (hwake : ∀ o, s.Blocked L o → (objects o).free (c.mem (word o)) = 0 ∨
      (objects o).free (c.mem (word o)) + tally ((s.spot t).notifies o = true)
          + tally ((s.spot t).retries o = true)
        ≤ (objects o).free (s.cpu.mem (word o)) + tally (spot.notifies o = true)
          + tally (spot.retries o = true)) :
    Sound objects T ⟨c, update s.spot t spot⟩ := by
  have ht : t ∈ T := hp.current_mem hc hpc
  have hatt : (s.cpu.sched.thread t).attached = true := by
    cases hi : (s.spot t).isIdle with
    | false => exact hp.attached t hi
    | true =>
      have hu := hpc hi
      exact hp.cpu.inv.current t hc (by rw [hu]; simp) (by rw [hu]; simp)
  refine ⟨L, hp.move hs hatt fun call hcall ↦ ?_, ?_⟩
  · rw [hcpc] at hcall
    obtain ⟨o, hspot, -⟩ := hp.call t call hcall
    exact absurd hspot (hold o _)
  · refine hl.move ht rfl (fun u hu ↦ hs.pc u hu) (fun _ _ ↦ Iff.rfl) hguard fun o hb ↦ ?_
    obtain ⟨u, hu, hspot⟩ := hb
    have hut : u ≠ t := by
      rintro rfl
      simp at hspot
      exact hnew o none hspot
    have hb : s.Blocked L o := ⟨u, hu, by simpa [hut] using hspot⟩
    refine (hwake o hb).imp_right fun hle ↦ ⟨hb, ?_⟩
    rwa [Woken, tally_congr (wokenAt_of_not_waiting fun o ↦ hold o none),
      tally_congr (wokenAt_of_not_waiting fun o ↦ hnew o none)]

/-- A release puts the thread on its way to a notification. -/
theorem Places.sound_release (hp : s.Places objects T L) (hl : s.Ledger objects T L)
    (hc : s.cpu.sched.current = some t) (hspot : (s.spot t).isIdle = true)
    (hpc : s.cpu.pc t = .user) : Sound objects T
      ⟨s.cpu.setMem (word o) ((objects o).release (s.cpu.mem (word o))),
        update s.spot t (.released o)⟩ := by
  obtain ⟨r, hr⟩ := Spot.exists_idle hspot
  refine hp.sound_outside hl hc (fun _ ↦ hpc) (hp.step_setMem _ _) rfl (by simp [hr]) (by simp)
    (fun o' ↦ Or.inl ?_) fun o' hb ↦ Or.inr ?_
  · rw [hr]
    exact ⟨Function.update_of_ne (word_ne_waiters o o').symm _ _, rfl⟩
  · rw [hr]
    by_cases ho : o' = o
    · subst ho
      have hle := (objects o').free_release_le (s.cpu.mem (word o'))
      simpa [Cpu.setMem, Spot.notifies, Spot.retries] using hle
    · have hw : word o' ≠ word o := by simpa using ho
      simp [Cpu.setMem, hw, Spot.notifies, Spot.retries]

/-- A try takes one of the tries that can succeed, or finds that there is none. -/
theorem Places.sound_attempt (hp : s.Places objects T L) (hl : s.Ledger objects T L)
    (hc : s.cpu.sched.current = some t) {timeout : Option Nanoseconds} {stage : Stage}
    {a : Attempt} {w : UInt32} {r : Outcome} (hspot : s.spot t = .trying o timeout stage a)
    (hr : (objects o).attempt a (s.cpu.mem (word o)) = (w, r)) : Sound objects T
      ⟨s.cpu.setMem (word o) w, update s.spot t (.afterAttempt o timeout stage r)⟩ := by
  refine hp.sound_outside hl hc (by simp [hspot, Spot.isIdle]) (hp.step_setMem _ _) rfl
    (by simp [hspot]) ?_ (fun o' ↦ Or.inl ?_) fun o' hb ↦ ?_
  · rcases r with a | _ | _ <;> rcases stage with _ | _ <;> simp [Spot.afterAttempt]
  · rw [hspot]
    refine ⟨Function.update_of_ne (word_ne_waiters o o').symm _ _, ?_⟩
    rcases r with a | _ | _ <;> rcases stage with _ | _ <;> simp [Spot.afterAttempt, Spot.inGuard]
  · rw [hspot]
    by_cases ho : o' = o
    · subst ho
      have hself : (s.cpu.setMem (word o') w).mem (word o') = w := Function.update_self ..
      rw [hself]
      rcases r with a' | _ | _
      · -- the try goes on
        rw [Object.word_of_again hr]
        have hsame : (Spot.trying o' timeout stage a).retries o'
            = (Spot.trying o' timeout stage a').retries o' := by
          rcases timeout with _ | _ <;> rcases stage with _ | _ | _ <;> rfl
        exact Or.inr (by simp [Spot.afterAttempt, Spot.notifies, hsame])
      · -- it failed
        obtain ⟨rfl, hfree⟩ := Object.free_of_failure hr
        exact Or.inl hfree
      · -- it succeeded
        have hfree := Object.free_of_success hr
        refine Or.inr ?_
        have hle := tally_le_one ((Spot.trying o' timeout stage a).retries o' = true)
        have hn : tally ((Spot.trying o' timeout stage a).notifies o' = true) = 0 :=
          tally_of_not (by simp [Spot.notifies])
        omega
    · have hw : word o' ≠ word o := by simpa using ho
      have hmem : (s.cpu.setMem (word o) w).mem (word o') = s.cpu.mem (word o') :=
        Function.update_of_ne hw _ _
      have hn : tally ((Spot.trying o timeout stage a).notifies o' = true) = 0 :=
        tally_of_not (by simp [Spot.notifies])
      have hbefore : tally ((Spot.trying o timeout stage a).retries o' = true) = 0 :=
        tally_of_not (by
          rcases timeout with _ | _ <;> rcases stage with _ | _ | _ <;>
            simp [Spot.retries, Ne.symm ho])
      rw [hmem]
      exact Or.inr (by omega)

/-- The constructor of the guard. -/
theorem Places.sound_enter (hp : s.Places objects T L) (hl : s.Ledger objects T L)
    (hc : s.cpu.sched.current = some t) {timeout : Option Nanoseconds}
    (hspot : s.spot t = .entering o timeout) : Sound objects T
      ⟨s.cpu.setMem (waiters o) (s.cpu.mem (waiters o) + 1),
        update s.spot t (.trying o timeout (.inside false) .first)⟩ := by
  refine hp.sound_outside hl hc (by simp [hspot, Spot.isIdle]) (hp.step_setMem _ _) rfl
    (by simp [hspot]) (by simp) (fun o' ↦ ?_) fun o' hb ↦ Or.inr ?_
  · rw [hspot]
    by_cases ho : o' = o
    · subst ho
      exact Or.inr (Or.inl ⟨Function.update_self .., by simp [Spot.inGuard], rfl⟩)
    · have hw : waiters o' ≠ waiters o := by simpa using ho
      exact Or.inl ⟨Function.update_of_ne hw _ _, by simp [Spot.inGuard, Ne.symm ho]⟩
  · rw [hspot]
    have hmem : (s.cpu.setMem (waiters o) (s.cpu.mem (waiters o) + 1)).mem (word o')
        = s.cpu.mem (word o') := Function.update_of_ne (word_ne_waiters o' o) _ _
    simp [hmem, Spot.notifies, Spot.retries]

/-- The destructor of the guard. -/
theorem Places.sound_leave (hp : s.Places objects T L) (hl : s.Ledger objects T L)
    (hc : s.cpu.sched.current = some t) {r : WaitResult} (hspot : s.spot t = .leaving o r) :
    Sound objects T ⟨s.cpu.setMem (waiters o) (s.cpu.mem (waiters o) - 1),
      update s.spot t (.idle r)⟩ := by
  refine hp.sound_outside hl hc (by simp [hspot, Spot.isIdle]) (hp.step_setMem _ _) rfl
    (by simp [hspot]) (by simp) (fun o' ↦ ?_) fun o' hb ↦ Or.inr ?_
  · rw [hspot]
    by_cases ho : o' = o
    · subst ho
      exact Or.inr (Or.inr ⟨Function.update_self .., rfl, by simp [Spot.inGuard]⟩)
    · have hw : waiters o' ≠ waiters o := by simpa using ho
      exact Or.inl ⟨Function.update_of_ne hw _ _, by simp [Spot.inGuard, Ne.symm ho]⟩
  · rw [hspot]
    have hmem : (s.cpu.setMem (waiters o) (s.cpu.mem (waiters o) - 1)).mem (word o')
        = s.cpu.mem (word o') := Function.update_of_ne (word_ne_waiters o' o) _ _
    simp [hmem, Spot.notifies, Spot.retries]

/-- The load of `atomic_wait`. -/
theorem Places.sound_load (hp : s.Places objects T L) (hl : s.Ledger objects T L)
    (hc : s.cpu.sched.current = some t) {timeout : Option Nanoseconds}
    (hspot : s.spot t = .loading o timeout) {spot : Spot}
    (hnew : spot = .trying o timeout (.inside false) .first ∨ spot = .calling o timeout) :
    Sound objects T ⟨s.cpu, update s.spot t spot⟩ := by
  refine hp.sound_outside hl hc (by simp [hspot, Spot.isIdle]) hp.step_refl rfl (by simp [hspot])
    ?_ (fun o' ↦ Or.inl ⟨rfl, ?_⟩) fun o' hb ↦ Or.inr ?_
  · rcases hnew with rfl | rfl <;> simp
  · rcases hnew with rfl | rfl <;> simp [hspot, Spot.inGuard]
  · rcases hnew with rfl | rfl <;> simp [hspot, Spot.notifies, Spot.retries]

/-- **The load of `waiters_`** finds zero only if nobody is in the guard, because the thread itself
is not. -/
theorem Places.sound_read (hp : s.Places objects T L) (hl : s.Ledger objects T L)
    (hc : s.cpu.sched.current = some t) (hT : T.card ≤ 2 ^ 32) (hspot : s.spot t = .released o) :
    Sound objects T ⟨s.cpu,
      update s.spot t (if s.cpu.mem (waiters o) ≠ 0 then .notifying o else .idle .ok)⟩ := by
  have ht : t ∈ T := hp.current_mem hc (by simp [hspot, Spot.isIdle])
  refine hp.sound_outside hl hc (by simp [hspot, Spot.isIdle]) hp.step_refl rfl (by simp [hspot])
    ?_ (fun o' ↦ Or.inl ⟨rfl, ?_⟩) fun o' hb ↦ Or.inr ?_
  · split <;> simp
  · rw [hspot]; split <;> rfl
  · rw [hspot]
    by_cases hw : s.cpu.mem (waiters o) = 0
    · rw [if_neg (not_not.mpr hw)]
      -- a blocked thread would be in the guard
      have hne : o' ≠ o := by
        rintro rfl
        obtain ⟨u, hu, huspot⟩ := hb
        have huT : u ∈ T := hp.threads u (hp.cpu.inv.linked.attached hu)
        have hpos := count_pos (P := fun v ↦ (s.spot v).inGuard o' = true) huT
          (by simp [huspot, Spot.inGuard])
        have hlt := count_lt_card (P := fun v ↦ (s.spot v).inGuard o' = true) ht
          (by simp [hspot, Spot.inGuard])
        have h0 := congrArg UInt32.toNat ((hl.guard o').symm.trans hw)
        rw [UInt32.toNat_ofNat', Nat.mod_eq_of_lt (by omega)] at h0
        exact absurd h0 (by simp; omega)
      simp [Spot.notifies, Spot.retries, Ne.symm hne]
    · rw [if_pos hw]
      simp [Spot.notifies, Spot.retries]

/-- A call of `lock`, `take` or `wait`. -/
theorem Places.sound_acquire (hp : s.Places objects T L) (hl : s.Ledger objects T L)
    (hc : s.cpu.sched.current = some t) (hspot : (s.spot t).isIdle = true)
    (hpc : s.cpu.pc t = .user) (timeout : Option Nanoseconds) :
    Sound objects T ⟨s.cpu, update s.spot t (.trying o timeout .outside .first)⟩ := by
  obtain ⟨r, hr⟩ := Spot.exists_idle hspot
  refine hp.sound_outside hl hc (fun _ ↦ hpc) hp.step_refl rfl (by simp [hr]) (by simp)
    (fun o' ↦ Or.inl ⟨rfl, ?_⟩) fun o' hb ↦ Or.inr ?_
  · simp [hr, Spot.inGuard]
  · simp [hr, Spot.notifies, Spot.retries]

/-- **A move into, inside or out of `block_current_thread`.** -/
theorem Places.sound_inside (hp : s.Places objects T L) (hl : s.Ledger objects T L)
    (hc : s.cpu.sched.current = some t) {spot : Spot} {c : Cpu} (hs : s.Step t c L')
    (hmem : c.mem = s.cpu.mem) (hidle : (s.spot t).isIdle = false)
    (hguard : ∀ o, spot.inGuard o = (s.spot t).inGuard o)
    (hn : ∀ o, (s.spot t).notifies o = false)
    (hblocked : ∀ u, u ≠ t → (u ∈ L' .blocked ↔ u ∈ L .blocked))
    (hcall : ∀ call, (c.pc t).call? = some call → ∃ o, spot = .waiting o call.timeout ∧
      call.waitAddress = word o ∧ call.old = (objects o).busy)
    (hself : ∀ o, t ∈ L' .blocked → spot = .waiting o none →
      s.cpu.mem (word o) = (objects o).busy ∨ t ∈ L .blocked ∧ s.spot t = .waiting o none)
    (hwoken : ∀ o, s.Woken L o t → WokenAt o spot (c.pc t) (t ∈ L' .blocked)) :
    Sound objects T ⟨c, update s.spot t spot⟩ := by
  have ht : t ∈ T := hp.current_mem hc (by simp [hidle])
  refine ⟨L', hp.move hs (hp.attached t hidle) hcall, ?_⟩
  refine hl.move ht rfl (fun u hu ↦ hs.pc u hu) hblocked (fun o ↦ Or.inl ⟨?_, hguard o⟩) ?_
  · rw [hmem]
  · rintro o ⟨u, hu, huspot⟩
    show (objects o).free (c.mem (word o)) = 0 ∨ _
    rw [hmem]
    have hle : s.Blocked L o → (objects o).free (s.cpu.mem (word o))
          + tally ((s.spot t).notifies o = true) + tally (s.Woken L o t)
        ≤ (objects o).free (s.cpu.mem (word o)) + tally (spot.notifies o = true)
          + tally (WokenAt o spot (c.pc t) (t ∈ L' .blocked)) := fun _ ↦ by
      have h0 : tally ((s.spot t).notifies o = true) = 0 := tally_of_not (by simp [hn o])
      have h1 : tally (s.Woken L o t) ≤ tally (WokenAt o spot (c.pc t) (t ∈ L' .blocked)) := by
        by_cases hw : s.Woken L o t
        · rw [tally_of hw, tally_of (hwoken o hw)]
        · rw [tally_of_not hw]; exact Nat.zero_le _
      omega
    by_cases hut : u = t
    · subst hut
      rcases hself o hu (by simpa using huspot) with hbusy | ⟨hu', hspot'⟩
      · rw [hbusy]
        exact Or.inl (objects o).free_busy
      · exact Or.inr ⟨⟨u, hu', hspot'⟩, hle ⟨u, hu', hspot'⟩⟩
    · have hb : s.Blocked L o := ⟨u, (hblocked u hut).mp hu, by simpa [hut] using huspot⟩
      exact Or.inr ⟨hb, hle hb⟩

/-- The call of `block_current_thread`. -/
theorem Places.sound_call (hp : s.Places objects T L) (hl : s.Ledger objects T L)
    (hc : s.cpu.sched.current = some t) {timeout : Option Nanoseconds} {c : Cpu}
    (hspot : s.spot t = .calling o timeout)
    (hn : s.cpu.next (.block (word o) (objects o).busy timeout) = some c) :
    Sound objects T ⟨c, update s.spot t (.waiting o timeout)⟩ := by
  obtain ⟨d, b, L', ha, hpc, hmem, -, hs⟩ := hp.step_next hc (by trivial) hn
  cases ha with
  | block hc' huser =>
    cases hc.symm.trans hc'
    have hout : t ∉ L .blocked := hp.cpu.calm.not_mem_blocked hc (by simp [huser])
    refine hp.sound_inside hl hc hs hmem (by simp [hspot, Spot.isIdle])
      (by simp [hspot, Spot.inGuard]) (by simp [hspot, Spot.notifies]) (fun _ _ ↦ Iff.rfl) ?_
      (fun o hm ↦ absurd hm hout) fun o hw ↦ ?_
    · intro call hcall
      rw [hpc, Cpu.setPc_pc, Function.update_self] at hcall
      cases hcall
      exact ⟨o, rfl, rfl, rfl⟩
    · rw [Woken, hspot] at hw
      rcases hw with ⟨hw, -⟩ | hw <;> cases hw

/-- A `yield` inside `block_current_thread`. -/
theorem Places.sound_yield (hp : s.Places objects T L) (hl : s.Ledger objects T L)
    (hc : s.cpu.sched.current = some t) {timeout : Option Nanoseconds} {call : BlockCall} {c : Cpu}
    (hspot : s.spot t = .waiting o timeout) (hpct : s.cpu.pc t = .suspended call)
    (hn : s.cpu.next .yield = some c) :
    Sound objects T ⟨c, update s.spot t (.waiting o timeout)⟩ := by
  obtain ⟨d, b, L', ha, hpc, hmem, -, hs⟩ := hp.step_next hc (by trivial) hn
  cases ha with
  | yield hc' =>
    cases hc.symm.trans hc'
    have hpct' : c.pc t = .resumed call := by
      rw [hpc, Cpu.setPc_pc, Function.update_self, hpct]; rfl
    refine hp.sound_inside hl hc hs hmem (by simp [hspot, Spot.isIdle]) (by simp [hspot])
      (by simp [hspot, Spot.notifies]) (fun _ _ ↦ Iff.rfl) ?_ (fun o' hm h ↦ Or.inr ⟨hm, ?_⟩)
      fun o' hw ↦ ?_
    · intro call' hcall
      rw [hpct'] at hcall
      cases hcall
      obtain ⟨o', hspot', h1, h2⟩ := hp.call t call (by rw [hpct]; rfl)
      exact ⟨o', hspot.symm.trans hspot', h1, h2⟩
    · rw [hspot]; exact h
    · rw [Woken, hspot] at hw
      rcases hw with ⟨h, -, hnb⟩ | h
      · exact Or.inl ⟨h, ⟨call, Or.inr hpct'⟩, hnb⟩
      · exact Or.inr h

/-- How a step of `block_current_thread` can end: back in the caller, or still inside. -/
theorem afterWait_cases (timeout : Option Nanoseconds) (woken : Bool) (pc : Pc) {r : WaitResult}
    (htime : pc = .user → r = .timeout → timeout ≠ none) :
    (pc = .user ∧ (Spot.afterWait o timeout woken pc r = .trying o timeout (.inside woken) .first ∨
      timeout ≠ none ∧ Spot.afterWait o timeout woken pc r = .leaving o .timeout)) ∨
    (pc ≠ .user ∧ Spot.afterWait o timeout woken pc r = .waiting o timeout) := by
  cases pc with
  | user =>
    cases r with
    | ok => exact Or.inl ⟨rfl, Or.inl rfl⟩
    | timeout => exact Or.inl ⟨rfl, Or.inr ⟨htime rfl rfl, rfl⟩⟩
  | _ => exact Or.inr ⟨by simp, rfl⟩

/-- The end of the loop of `block_current_thread`. -/
theorem Places.sound_blockCheck (hp : s.Places objects T L) (hl : s.Ledger objects T L)
    (hc : s.cpu.sched.current = some t) {timeout : Option Nanoseconds} {call : BlockCall} {c : Cpu}
    (hspot : s.spot t = .waiting o timeout) (hpct : s.cpu.pc t = .resumed call)
    (hn : s.cpu.next .blockCheck = some c) : Sound objects T
      ⟨c, update s.spot t (.afterWait o timeout timeout.isNone (c.pc t) (c.result t))⟩ := by
  obtain ⟨d, b, L', ha, hpc, hmem, hres, hs⟩ := hp.step_next hc (by trivial) hn
  obtain ⟨o', hspot', haddr, hold⟩ := hp.call t call (by rw [hpct]; rfl)
  cases hspot.symm.trans hspot'
  have hout : t ∉ L .blocked := hp.cpu.calm.not_mem_blocked hc (by simp [hpct])
  cases ha with
  | @blockCheck t' call' hc' hpc' =>
    cases hc.symm.trans hc'
    cases hpct.symm.trans hpc'
    have hmem' : c.mem = s.cpu.mem := hmem.trans (Cpu.blockCheck_mem ..)
    have hpcs : c.pc t = .user ∧ (c.result t = .timeout → call.timeout ≠ none) ∨
        c.pc t = .suspended call := by
      rw [hpc, hres]
      exact s.cpu.blockCheck_returns t call
    have hend := afterWait_cases (o := o) (r := c.result t) call.timeout call.timeout.isNone
      (c.pc t) fun hu hr ↦ by
        rcases hpcs with ⟨-, h⟩ | h
        · exact h hr
        · rw [h] at hu; cases hu
    generalize Spot.afterWait o call.timeout call.timeout.isNone (c.pc t) (c.result t) = spot at *
    refine hp.sound_inside hl hc hs hmem' (by simp [hspot, Spot.isIdle]) (fun o' ↦ ?_)
      (by simp [hspot, Spot.notifies]) (fun _ _ ↦ Iff.rfl) (fun call' hcall ↦ ?_)
      (fun o' hm ↦ absurd hm hout) fun o' hw ↦ ?_
    · rw [hspot]
      rcases hend with ⟨-, rfl | ⟨-, rfl⟩⟩ | ⟨-, rfl⟩ <;> rfl
    · rcases hpcs with ⟨hu, -⟩ | hsus
      · rw [hu] at hcall; cases hcall
      · rw [hsus] at hcall
        cases hcall
        rcases hend with ⟨hu, -⟩ | ⟨-, rfl⟩
        · rw [hsus] at hu; cases hu
        · exact ⟨o, rfl, haddr, hold⟩
    · rw [Woken, hspot] at hw
      rcases hw with ⟨hw, -⟩ | hw
      · -- it was waiting without a timeout, so it stays on its way
        obtain ⟨rfl, htime⟩ := Spot.waiting.inj hw
        rcases hend with ⟨-, rfl | ⟨h, -⟩⟩ | ⟨hu, rfl⟩
        · exact Or.inr (by simp [Spot.retries, htime])
        · exact absurd htime h
        · have hsus := hpcs.resolve_left fun h ↦ hu h.1
          exact Or.inl ⟨hw, ⟨call, Or.inl hsus⟩, hout⟩
      · cases hw

/-- The locked section of `block_current_thread`: who joins the blocked threads has just seen that
the word is busy. -/
theorem Places.sound_blockSection (hp : s.Places objects T L) (hl : s.Ledger objects T L)
    (hc : s.cpu.sched.current = some t) {timeout : Option Nanoseconds} {call : BlockCall} {c : Cpu}
    (hspot : s.spot t = .waiting o timeout) (hpct : s.cpu.pc t = .entered call)
    (hn : s.cpu.next .blockSection = some c) : Sound objects T
      ⟨c, update s.spot t (.afterWait o timeout false (c.pc t) (c.result t))⟩ := by
  obtain ⟨d, b, L', ha, hpc, hmem, hres, hs⟩ := hp.step_next hc (by trivial) hn
  obtain ⟨o', hspot', haddr, hold⟩ := hp.call t call (by rw [hpct]; rfl)
  cases hspot.symm.trans hspot'
  have hout : t ∉ L .blocked := hp.cpu.calm.not_mem_blocked hc (by simp [hpct])
  have hmem' : c.mem = s.cpu.mem := hmem.trans (ha.mem_eq (by simp))
  -- who joins is the thread itself
  have hjoin : (∀ u, u ∈ L' .blocked ↔ u ∈ L .blocked) ∨
      s.cpu.mem (word o) = (objects o).busy ∧ ∀ u, u ∈ L' .blocked ↔ u = t ∨ u ∈ L .blocked := by
    rcases ha.blocked_mem hp.cpu.inv hp.cpu.calm with
      hm | ⟨-, t', call', hc', hpc', hbusy, -, -, hm⟩ | ⟨a, all, h, -⟩
    · exact Or.inl hm
    · cases hc.symm.trans hc'
      cases hpct.symm.trans hpc'
      rw [haddr, hold] at hbusy
      exact Or.inr ⟨hbusy, hm⟩
    · cases h
  have hpcs : c.pc t = .user ∧ c.result t = .ok ∨ c.pc t = .suspended call := by
    rw [hpc, hres]
    cases ha with
    | blockUntimed hc' hpc' | blockTimed hc' hpc' =>
      cases hc.symm.trans hc'
      cases hpct.symm.trans hpc'
      exact Or.inr (Function.update_self ..)
    | blockMissed hc' hpc' =>
      cases hc.symm.trans hc'
      exact Or.inl ⟨Function.update_self .., Function.update_self ..⟩
  have hend := afterWait_cases (o := o) (r := c.result t) call.timeout false (c.pc t)
    fun hu hr ↦ by
      rcases hpcs with ⟨-, h⟩ | h
      · rw [h] at hr; cases hr
      · rw [h] at hu; cases hu
  generalize Spot.afterWait o call.timeout false (c.pc t) (c.result t) = spot at *
  refine hp.sound_inside hl hc hs hmem' (by simp [hspot, Spot.isIdle]) (fun o' ↦ ?_)
    (by simp [hspot, Spot.notifies]) (fun u hu ↦ ?_) (fun call' hcall ↦ ?_)
    (fun o' hm hsp ↦ ?_) fun o' hw ↦ ?_
  · rw [hspot]
    rcases hend with ⟨-, rfl | ⟨-, rfl⟩⟩ | ⟨-, rfl⟩ <;> rfl
  · rcases hjoin with hm | ⟨-, hm⟩
    · exact hm u
    · rw [hm u]
      exact or_iff_right hu
  · rcases hpcs with ⟨hu, -⟩ | hsus
    · rw [hu] at hcall; cases hcall
    · rw [hsus] at hcall
      cases hcall
      rcases hend with ⟨hu, -⟩ | ⟨-, rfl⟩
      · rw [hsus] at hu; cases hu
      · exact ⟨o, rfl, haddr, hold⟩
  · rcases hjoin with hm' | ⟨hbusy, -⟩
    · exact absurd ((hm' t).mp hm) hout
    · rcases hend with ⟨-, rfl | ⟨-, rfl⟩⟩ | ⟨-, rfl⟩
      · cases hsp
      · cases hsp
      · obtain ⟨rfl, -⟩ := Spot.waiting.inj hsp
        exact Or.inl hbusy
  · rw [Woken, hspot] at hw
    rcases hw with ⟨-, ⟨call', h | h⟩, -⟩ | hw
    · rw [hpct] at h; cases h
    · rw [hpct] at h; cases h
    · cases hw

/-- A blocked thread is not yet woken. -/
theorem Places.not_woken (hp : s.Places objects T L) {u : ThreadId} (hu : u ∈ L .blocked) :
    ¬ s.Woken L o u := by
  obtain ⟨o', call, hspot, -⟩ := hp.blocked hu
  rintro (⟨-, -, hnb⟩ | hw)
  · exact hnb hu
  · rw [hspot] at hw; cases hw

/-- The thread that is notified takes the place of the notifying one. -/
theorem Places.ledger_notify (hp : s.Places objects T L) (hl : s.Ledger objects T L) (ht : t ∈ T)
    (hspot : s.spot t = .notifying o) (hspot' : s'.spot = update s.spot t (.idle .ok))
    (hpc : s'.cpu.pc = s.cpu.pc) (hmem : s'.cpu.mem = s.cpu.mem)
    (hL : ∀ u, u ∈ L' .blocked ↔ u ∈ L .blocked ∧
      u ∉ s.cpu.sched.notified (word o) false (L .blocked)) : s'.Ledger objects T L' := by
  have hother : ∀ u, u ≠ t → s'.spot u = s.spot u := fun u hu ↦ by
    rw [hspot', Function.update_of_ne hu]
  have hself : s'.spot t = .idle .ok := by rw [hspot', Function.update_self]
  have htout : t ∉ L .blocked := fun hm ↦ by
    obtain ⟨o', call, h, -⟩ := hp.blocked hm
    rw [hspot] at h
    cases h
  have hidle : ∀ o', ¬ s'.Woken L' o' t := fun o' h ↦ by
    rw [Woken, hself] at h
    rcases h with ⟨h, -⟩ | h <;> cases h
  have hnotifying : ∀ o', ¬ s.Woken L o' t := fun o' h ↦ by
    rw [Woken, hspot] at h
    rcases h with ⟨h, -⟩ | h <;> cases h
  -- a thread that was not notified is where it was
  have hsame : ∀ o' u, u ∉ s.cpu.sched.notified (word o) false (L .blocked) →
      (s.Woken L o' u ↔ s'.Woken L' o' u) := fun o' u hu ↦ by
    by_cases hut : u = t
    · subst hut
      exact iff_of_false (hnotifying o') (hidle o')
    · rw [Woken, Woken, hother u hut, hpc, hL u, and_iff_left hu]
  have hsub : ∀ o', s'.Blocked L' o' → s.Blocked L o' := by
    rintro o' ⟨u, hu, hus⟩
    have hu := ((hL u).mp hu).1
    exact ⟨u, hu, by rw [← hother u fun h ↦ htout (h ▸ hu)]; exact hus⟩
  constructor
  · intro o'
    rw [hmem, hl.guard o']
    refine congrArg UInt32.ofNat (count_congr fun u _ ↦ ?_)
    by_cases hut : u = t
    · subst hut; rw [hspot, hself]; rfl
    · rw [hother u hut]
  · intro o' hb
    have hwake := hl.wake o' (hsub o' hb)
    have hn := count_change (P := fun u ↦ (s.spot u).notifies o' = true)
      (Q := fun u ↦ (s'.spot u).notifies o' = true) ht fun u _ hu ↦ by rw [hother u hu]
    simp only [hself, hspot] at hn
    rw [tally_of_not (P := Spot.notifies o' (.idle .ok) = true) (by simp [Spot.notifies])] at hn
    rw [hmem]
    by_cases hN : s.cpu.sched.notified (word o) false (L .blocked) = []
    · -- nobody is blocked on the word
      have hw := count_congr (T := T) (P := s.Woken L o') (Q := s'.Woken L' o') fun u _ ↦
        hsame o' u (by rw [hN]; simp)
      have hne : o' ≠ o := by
        rintro rfl
        obtain ⟨u, hu, hus⟩ := hsub o' hb
        obtain ⟨o'', call, hspot'', haddr, -⟩ := hp.blocked hu
        cases hus.symm.trans hspot''
        have hf : u ∈ (L .blocked).filter fun v ↦
            (s.cpu.sched.thread v).waitAddress = some (word o') := by
          simp [hu, haddr]
        rw [Scheduler.notified] at hN
        simp only [Bool.false_eq_true, if_false, List.take_eq_nil_iff, one_ne_zero, false_or] at hN
        rw [hN] at hf
        cases hf
      rw [tally_of_not (by simp [Spot.notifies, Ne.symm hne])] at hn
      omega
    · -- the notified thread
      obtain ⟨v, hv⟩ := List.exists_mem_of_ne_nil _ hN
      obtain ⟨hN, -⟩ := Cpu.notified_one hv
      obtain ⟨hvb, hva⟩ := mem_of_mem_notified hv
      obtain ⟨o'', call, hvs, haddr, hvpc⟩ := hp.blocked hvb
      obtain rfl : o'' = o := word_inj.mp (Option.some.inj (haddr.symm.trans hva))
      have hvt : v ≠ t := fun h ↦ htout (h ▸ hvb)
      have hw := count_change (P := s.Woken L o') (Q := s'.Woken L' o')
        (hp.threads v (hp.cpu.inv.linked.attached hvb)) fun u _ hu ↦
          hsame o' u (by rw [hN]; simpa using hu)
      rw [tally_of_not (hp.not_woken hvb)] at hw
      by_cases ho : o' = o''
      · subst ho
        have hwv : s'.Woken L' o' v := by
          refine Or.inl ⟨by rw [hother v hvt, hvs], ⟨call, by rw [hpc]; exact hvpc⟩, fun h ↦ ?_⟩
          exact ((hL v).mp h).2 hv
        rw [tally_of hwv] at hw
        rw [tally_of (by simp [Spot.notifies])] at hn
        omega
      · have hwv : ¬ s'.Woken L' o' v := by
          rw [Woken, hother v hvt, hvs]
          rintro (⟨h, -⟩ | h)
          · exact ho (Spot.waiting.inj h).1.symm
          · cases h
        rw [tally_of_not hwv] at hw
        rw [tally_of_not (by simp [Spot.notifies, Ne.symm ho])] at hn
        omega

/-- **The notification** wakes a waiter, who is on its way in the place of the notifying thread, or
finds that nobody is blocked on the word. -/
theorem Places.sound_notify (hp : s.Places objects T L) (hl : s.Ledger objects T L)
    (hc : s.cpu.sched.current = some t) {c : Cpu} (hspot : s.spot t = .notifying o)
    (hn : s.cpu.next (.unblock (word o) false) = some c) :
    Sound objects T ⟨c, update s.spot t (.idle .ok)⟩ := by
  obtain ⟨d, b, L', ha, hpc, hmem, -, hs⟩ := hp.step_next hc (by trivial) hn
  have ht : t ∈ T := hp.current_mem hc (by simp [hspot, Spot.isIdle])
  cases ha with
  | unblock =>
    refine ⟨_, hp.move hs (hp.attached t (by simp [hspot, Spot.isIdle])) fun call hcall ↦ ?_,
      hp.ledger_notify hl ht hspot rfl hpc hmem fun u ↦ ?_⟩
    · rw [hpc] at hcall
      obtain ⟨o', h, -⟩ := hp.call t call hcall
      rw [hspot] at h
      cases h
    · simp [wakeQueues]

/-! ## Runs -/

/-- A background event leaves the threads in the primitives alone. -/
theorem Places.background_pc (hp : s.Places objects T L) {e : Event} (hb : s.background e = true)
    {d : Cpu} {b : Bool} (ha : s.cpu.Acts L e d b L') {u : ThreadId}
    (hu : (s.spot u).isIdle = false) : d.pc u = s.cpu.pc u := by
  have hne : ∀ {v}, s.cpu.sched.current = some v → s.background .detach = true → u ≠ v := by
    rintro v hc hb rfl
    simp [background, hc, hu] at hb
  cases ha with
  | @attach v p h' hfree =>
    refine Function.update_of_ne (fun h ↦ ?_) _ _
    rw [← h, hp.attached u hu] at hfree
    cases hfree
  | detach hc => exact Function.update_of_ne (hne hc hb) _ _
  | yield hc => exact Function.update_of_ne (hne hc hb) _ _
  | delay | startSchedule | tick | irqYield | clock => rfl
  | _ => cases hb

/-- The rule of a run whose threads are those of `T`. -/
def Threads (T : Finset ThreadId) (_ : System) (a : Action) : Prop := ∀ t ∈ a.newThread?, t ∈ T

instance (T : Finset ThreadId) (s : System) (a : Action) : Decidable (Threads T s a) := by
  unfold Threads; infer_instance

/-- A background event. -/
theorem Places.sound_background (hp : s.Places objects T L) (hl : s.Ledger objects T L)
    {e : Event} (hrule : Threads T s (.cpu e)) (hb : s.background e = true)
    (hn : s.cpu.next e = some s'.cpu) (hspot : s'.spot = s.spot) : Sound objects T s' := by
  have hlock : Cpu.NoLock s.cpu e := by constructor <;> rintro rfl <;> cases hb
  obtain ⟨d, b, L', ha, hs, hpc, hmem, -, hatt⟩ := hp.cpu.next hlock hn
  have hpc' : ∀ u, (s.spot u).isIdle = false → s'.cpu.pc u = s.cpu.pc u := fun u hu ↦ by
    rw [hpc, hp.background_pc hb ha hu]
  have hmem' : s'.cpu.mem = s.cpu.mem := by
    rw [hmem, ha.mem_eq]
    rintro a v rfl
    cases hb
  have hblocked : ∀ u, u ∈ L' .blocked ↔ u ∈ L .blocked := by
    rcases ha.blocked_mem hp.cpu.inv hp.cpu.calm with h | ⟨rfl, -⟩ | ⟨a, all, rfl, -⟩
    · exact h
    · cases hb
    · cases hb
  refine ⟨L', ⟨hs, fun u hu ↦ ?_, fun u hu ↦ ?_, fun u call hcall ↦ ?_⟩, fun o ↦ ?_, fun o ho ↦ ?_⟩
  · rw [hatt] at hu
    rcases ha.attached u with h | ⟨p, rfl⟩ | ⟨rfl, hc⟩
    · exact hp.threads u (h ▸ hu)
    · exact hrule u rfl
    · cases ha with
      | detach hc' hpc' =>
        cases hc.symm.trans hc'
        exact hp.threads u (hp.cpu.inv.current u hc (by simp [hpc']) (by simp [hpc']))
  · rw [hspot] at hu
    rw [hatt]
    rcases ha.attached u with h | ⟨p, rfl⟩ | ⟨rfl, hc⟩
    · rw [h]; exact hp.attached u hu
    · cases ha with
      | attach hfree =>
        rw [hp.attached u hu] at hfree
        cases hfree
    · simp [background, hc, hu] at hb
  · rw [hspot]
    rw [hpc] at hcall
    rcases ha.call? hcall with hcall | ⟨-, rfl⟩
    · exact hp.call u call hcall
    · cases hb
  · rw [hmem', hspot]
    exact hl.guard o
  · have hbefore : s.Blocked L o := by
      obtain ⟨u, hu, hus⟩ := ho
      exact ⟨u, (hblocked u).mp hu, by rw [← hspot]; exact hus⟩
    have hwoken : count T (s'.Woken L' o) = count T (s.Woken L o) := count_congr fun u _ ↦ by
      rw [Woken, Woken, hspot, hblocked]
      cases hi : (s.spot u).isIdle with
      | false => rw [hpc' u hi]
      | true =>
        obtain ⟨r, hr⟩ := Spot.exists_idle hi
        simp [WokenAt, hr, Spot.retries]
    rw [hmem', hspot, hwoken]
    exact hl.wake o hbefore

theorem sound_init : Sound objects T (init objects) := by
  refine ⟨fun _ ↦ [], ⟨Cpu.settled_init, fun t ht ↦ ?_, fun t ht ↦ ?_, fun t call h ↦ ?_⟩,
    fun o ↦ ?_, fun o h ↦ ?_⟩
  · simp [init, Cpu.init] at ht
  · simp [init, Spot.isIdle] at ht
  · simp [init, Cpu.init, Pc.call?] at h
  · have hodd : waiters o % 2 = 1 := Nat.mul_add_mod 2 o 1
    rw [count_eq_zero (by simp [init, Spot.inGuard])]
    simp [init, Cpu.init, memory, hodd]
  · obtain ⟨u, hu, -⟩ := h
    cases hu

/-- **A step keeps the state sound**, as long as `waiters_` cannot wrap around to zero. -/
theorem Sound.next (h : Sound objects T s) (hT : T.card ≤ 2 ^ 32) {a : Action}
    (hrule : Threads T s a) (hn : next objects s a = some s') : Sound objects T s' := by
  obtain ⟨L, hp, hl⟩ := h
  obtain ⟨c, spot⟩ := s'
  rcases next_cases hn with ⟨e, rfl, hb, hc, hspot⟩ | ⟨t, spot', hc, -, hspot, hmove⟩
  · exact hp.sound_background hl hrule hb hc hspot
  · obtain rfl : spot = update s.spot t spot' := hspot
    change s.Moves objects t c spot' at hmove
    cases hmove with
    | acquire hspot hpc => exact hp.sound_acquire hl hc hspot hpc _
    | release hspot hpc => exact hp.sound_release hl hc hspot hpc
    | attempt hspot hr => exact hp.sound_attempt hl hc hspot hr
    | enter hspot => exact hp.sound_enter hl hc hspot
    | load hspot => exact hp.sound_load hl hc hspot (by split <;> simp)
    | call hspot hcpu => exact hp.sound_call hl hc hspot hcpu
    | blockSection hspot hpc hcpu => exact hp.sound_blockSection hl hc hspot hpc hcpu
    | yield hspot hpc hcpu => exact hp.sound_yield hl hc hspot hpc hcpu
    | blockCheck hspot hpc hcpu => exact hp.sound_blockCheck hl hc hspot hpc hcpu
    | leave hspot => exact hp.sound_leave hl hc hspot
    | read hspot => exact hp.sound_read hl hc hT hspot
    | notify hspot hcpu => exact hp.sound_notify hl hc hspot hcpu

/-- What every run of at most 2^32 threads keeps. -/
theorem sound_of_reachable (hT : T.card ≤ 2 ^ 32)
    (h : (machine objects).ReachableWhile (Threads T) s) : Sound objects T s :=
  h.invariant sound_init fun _ _ _ _ hs hrule hn ↦ hs.next hT hrule hn

end System

end Chino
