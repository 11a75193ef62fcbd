import Chino.Sched.Priority
import Chino.Sync.Ledger

/-!
# No lost wakeup

`LostWakeup` is a state in which a waiter is stuck: it is blocked on the word of an object that is
available, and nobody is on the way to it.  No run of at most 2^32 threads reaches one.

With more threads there is one.  `Crowd n` is a state in which `n` threads wait for an event and
nobody else runs but the idle thread, and `Crowd.step` brings one thread more.  At 2^32 of them
`waiters_` is zero again, and the next notification does not wake anybody.

## Both sides of the bound

For at most `2 ^ 32` threads the result follows from `Chino.Sync.Ledger`: if the object is available
and somebody is blocked on its word, then by `Ledger.wake` some thread is on its way, which is what
`LostWakeup` denies.

For the other side there is no run to be written down, as it has billions of steps.  It is built by
induction: `crowd_zero` is a state with the idle thread alone, `Crowd.attach` creates a thread of
high priority, which runs at once, and `Crowd.step` has it call `wait` and fall asleep.
`lost_wakeup_of_crowd` takes a crowd of `2 ^ 32` and lets the idle thread notify: the word is set,
`waiters_` reads as zero, and everybody sleeps on.
-/

set_option autoImplicit false

namespace Chino

open Function (update)
open Scheduler

namespace Cpu

variable {i : ThreadId} {c c' d : Cpu} {L L' : Queues} {e : Event} {b : Bool}

/-! ## A CPU with an idle thread -/

/-- What is known of a CPU in a run without the lock and with an idle thread. -/
structure Steady (i : ThreadId) (c : Cpu) (L : Queues) : Prop where
  settled : c.Settled L
  peak : c.sched.Peak L
  idle : IdleInv i c

/-- **Every event leads to a next state**: an action, after which a thread of the highest priority
runs if it ends with a switch. -/
theorem Steady.run (h : Steady i c L) (hlock : NoLock c e) (hrule : IdleRule i c e)
    (he : c.enabled e = true) :
    ∃ d b L' c', c.Acts L e d b L' ∧ c.next e = some c' ∧ Steady i c' L' ∧ c'.pc = d.pc ∧
      c'.mem = d.mem ∧ (∀ u, (c'.sched.thread u).attached = (d.sched.thread u).attached ∧
        (c'.sched.thread u).waitAddress = (d.sched.thread u).waitAddress) ∧
      (b = false ∧ c' = d ∨ b = true ∧ ∃ next, c'.sched.current = some next ∧
        next ∈ L' (.ready (d.sched.thread next).priority) ∧
        ∀ q, L' (.ready q) ≠ [] → q.toNat ≤ (d.sched.thread next).priority.toNat) := by
  have hI := h.settled.inv
  obtain ⟨d, b, L', hact, ha, hr⟩ := hI.act_acts he
  have hd := ha.inv hI hr
  have hw := ha.waits hI h.settled.waits
  have hp := ha.peak hI h.peak
  have hi := ha.idleInv h.idle hrule
  obtain ⟨hlock', hwait, hcalm⟩ := ha.calm hI h.settled.calm hlock
  cases b with
  | false =>
    refine ⟨d, false, L', d, ha, next_eq_some.mpr ⟨he, ?_⟩, ⟨⟨hd, hw, hcalm rfl⟩, hp, hi⟩, rfl,
      rfl, fun _ ↦ ⟨rfl, rfl⟩, Or.inl ⟨rfl, rfl⟩⟩
    simp [step, hact, bind, Except.bind]
  | true =>
    obtain ⟨cnt, hc⟩ := ha.exists_current hd
    obtain ⟨c', next, hsw, hcur, hnext, hhigh, -, -⟩ := switchTask_highest hd hp hi hlock' hc
    refine ⟨d, true, L', c', ha, next_eq_some.mpr ⟨he, ?_⟩,
      ⟨⟨hd.switchTask hsw, waits_switchTask hw hsw, calm_switchTask hd hlock' hwait hsw⟩,
        peak_switchTask hd hp (fun _ ↦ not_overtopped hp hd hi) hsw, idleInv_switchTask hi hsw⟩,
      ?_⟩
    · simp [step, hact, bind, Except.bind, hsw]
    · obtain ⟨s, hs, rfl⟩ := switchTask_eq_ok hsw
      refine ⟨rfl, rfl, fun u ↦ ?_, Or.inr ⟨rfl, next, hcur, hnext, hhigh⟩⟩
      rcases switchTask_cases hs with rfl | ⟨cnt, next, -, -, -, -, rfl⟩
      · exact ⟨rfl, rfl⟩
      · rw [switched_thread]
        split
        · exact ⟨rfl, rfl⟩
        · split <;> exact ⟨rfl, rfl⟩

theorem Steady.setMem (h : Steady i c L) (a : Addr) (v : UInt32) : Steady i (c.setMem a v) L :=
  ⟨h.settled.setMem a v, h.peak, ⟨h.idle.first, h.idle.awake, h.idle.user, h.idle.stay⟩⟩

/-- A thread that finds the word unchanged in `block_current_thread` is blocked. -/
theorem Steady.blocks (h : Steady i c L) {v : ThreadId} (hc : c.sched.current = some v) (hv : v ≠ i)
    (hpc : c.pc v = .user) {a : Addr} {old : UInt32} (hmem : c.mem a = old) :
    ∃ c₁ c₂ c₃ call L', c.next (.block a old none) = some c₁ ∧
      c₁.sched.current = some v ∧ c₁.pc v = .entered call ∧ c₁.next .blockSection = some c₂ ∧
      c₂.sched.current = some v ∧ c₂.pc v = .suspended call ∧ c₂.next .yield = some c₃ ∧
      Steady i c₃ L' ∧ c₃.mem = c.mem ∧
      (∃ next p, c₃.sched.current = some next ∧ next ∈ L' (.ready p)) ∧
      (∀ u l, u ≠ v → (u ∈ L' l ↔ u ∈ L l)) ∧ v ∈ L' .blocked ∧
      (c₃.sched.thread v).waitAddress = some a ∧
      ∀ u, u ≠ v → (c₃.sched.thread u).attached = (c.sched.thread u).attached ∧
        (c₃.sched.thread u).waitAddress = (c.sched.thread u).waitAddress := by
  -- the call
  obtain ⟨d, b, L₁, c₁, ha, hn₁, hs₁, -, -, -, hcase⟩ := h.run (e := .block a old none)
    (by simp [NoLock]) (by simpa [IdleRule, hc] using hv) (by simp [enabled, currentPc, hc, hpc])
  cases ha with
  | block hc' =>
    cases hc.symm.trans hc'
    obtain ⟨-, rfl⟩ | ⟨hb, -⟩ := hcase
    case inr => cases hb
    -- the locked section
    obtain ⟨d, b, L₂, c₂, ha, hn₂, hs₂, -, -, -, hcase⟩ := hs₁.run (e := .blockSection)
      (by simp [NoLock]) (by simp [IdleRule]) (by simp [enabled, currentPc, hc])
    cases ha with
    | blockTimed hc'' hpc'' hmem'' htime =>
      cases hc.symm.trans hc''
      rw [setPc_pc, Function.update_self] at hpc''
      cases hpc''
      cases htime
    | blockMissed hc'' hpc'' hne =>
      cases hc.symm.trans hc''
      rw [setPc_pc, Function.update_self] at hpc''
      cases hpc''
      exact absurd hmem hne
    | @blockUntimed v' call l h' hc'' hpc'' hmem'' htime hl =>
      cases hc.symm.trans hc''
      rw [setPc_pc, Function.update_self] at hpc''
      cases hpc''
      obtain ⟨-, rfl⟩ | ⟨hb, -⟩ := hcase
      case inr => cases hb
      -- the switch
      obtain ⟨d, b, L₃, c₃, ha, hn₃, hs₃, -, hmem₃, hth₃, hcase⟩ := hs₂.run (e := .yield)
        (by simp [NoLock]) (by simp [IdleRule])
        (by simp [enabled, currentPc, Scheduler.blocked, hc])
      cases ha with
      | yield =>
        obtain ⟨hb, -⟩ | ⟨-, next, hcur, hnext, -⟩ := hcase
        · cases hb
        refine ⟨_, _, _, _, _, hn₁, hc, Function.update_self .., hn₂, hc, Function.update_self ..,
          hn₃, hs₃, hmem₃, ⟨next, _, hcur, hnext⟩, fun u l' hu ↦ ?_, ?_, ?_, fun u hu ↦ ?_⟩
        · have hw : u ∈ without _ _ v l' ↔ _ := mem_without h.settled.inv.linked.rep hl
          by_cases hlb : l' = .blocked
          · subst hlb
            simp [hw, hu]
          · simp [hlb, hw, hu]
        · simp
        · rw [(hth₃ v).2]
          simp [Scheduler.blocked]
        · rw [(hth₃ u).1, (hth₃ u).2]
          simp [Scheduler.blocked, hu]

end Cpu

namespace System

variable {objects : ObjectId → Object} {s s' : System} {T : Finset ThreadId} {L L' : Queues}
  {o : ObjectId} {n : ℕ}

/-- A thread is blocked on the word of `o` although `o` is available, no thread is between its
store to the word and the end of the notification, and none was woken and has its retry ahead. -/
def LostWakeup (objects : ObjectId → Object) (s : System) (o : ObjectId) : Prop :=
  (∃ t ∈ s.cpu.sched.lists.toList .blocked,
    (s.cpu.sched.thread t).waitAddress = some (word o)) ∧
  (objects o).Available (s.cpu.mem (word o)) ∧
  (∀ t, (s.spot t).notifies o = false) ∧
  ∀ t, ¬ WokenAt o (s.spot t) (s.cpu.pc t) (t ∈ s.cpu.sched.lists.toList .blocked)

/-- **No wakeup is lost** in a run of at most 2^32 threads. -/
theorem no_lost_wakeup (hT : T.card ≤ 2 ^ 32)
    (h : (machine objects).ReachableWhile (Threads T) s) (o : ObjectId) :
    ¬ LostWakeup objects s o := by
  rintro ⟨⟨t, ht, haddr⟩, hfree, hnotifies, hwoken⟩
  obtain ⟨L, hp, hl⟩ := sound_of_reachable hT h
  rw [hp.cpu.inv.linked.rep.toList_eq] at ht hwoken
  obtain ⟨o', call, hspot, haddr', -⟩ := hp.blocked ht
  obtain rfl : o' = o := word_inj.mp (Option.some.inj (haddr'.symm.trans haddr))
  have hwake := hl.wake o' ⟨t, ht, hspot⟩
  rw [count_eq_zero fun u _ ↦ by simp [hnotifies u],
    count_eq_zero (P := s.Woken L o') fun u _ ↦ hwoken u] at hwake
  have := Object.available_iff_free.mp hfree
  omega

/-- The idle thread has just unlocked a mutex that another thread is blocked on. -/
theorem no_lost_wakeup_unlocked :
    let objects : ObjectId → Object := fun _ ↦ .mutex
    let s := (machine objects).afterWhile (Threads {1, 2}) [.cpu (.attach 1 .idle),
      .cpu (.startSchedule 1), .acquire 0 none, .advance, .cpu (.attach 2 .high), .acquire 0 none,
      .advance, .advance, .advance, .advance, .advance, .advance, .advance, .release 0]
    s.cpu.sched.lists.toList .blocked = [2] ∧ (objects 0).Available (s.cpu.mem (word 0)) ∧
      s.spot 1 = .released 0 ∧ ¬ LostWakeup objects s 0 :=
  ⟨by decide, by decide, by decide,
    no_lost_wakeup (T := {1, 2}) (by decide) (Machine.reachableWhile_afterWhile _) 0⟩

/-! ## A crowd that is too large -/

/-- Auto-reset events that are not signalled. -/
def events : ObjectId → Object := fun _ ↦ .autoResetEvent false

/-- The idle thread 1 runs, and the threads 2, …, `n + 1` wait for an event. -/
structure Crowd (n : ℕ) (s : System) (L : Queues) : Prop where
  steady : s.cpu.Steady 1 L
  current : s.cpu.sched.current = some 1
  alone : ∀ p t, t ∈ L (.ready p) → t = 1
  spot : ∀ t, s.spot t = .idle .ok ∨ s.spot t = .waiting 0 none ∧ t ∈ L .blocked
  waiting : ∀ t, 2 ≤ t → t < n + 2 → t ∈ L .blocked ∧
    (s.cpu.sched.thread t).waitAddress = some (word 0)
  fresh : ∀ t, n + 2 ≤ t → (s.cpu.sched.thread t).attached = false
  unsignaled : s.cpu.mem (word 0) = 0
  guard : s.cpu.mem (waiters 0) = UInt32.ofNat n

variable {v : ThreadId}

/-- A thread that is not blocked is idle. -/
theorem Crowd.idle (h : Crowd n s L) (hv : v ∉ L .blocked) : s.spot v = .idle .ok :=
  (h.spot v).resolve_right fun hw ↦ hv hw.2

/-- A call of `wait` comes as far as `block_current_thread`. -/
theorem reachable_calling (h : (machine events).Reachable s) (hc : s.cpu.sched.current = some v)
    (hspot : s.spot v = .idle .ok) (hpc : s.cpu.pc v = .user) (hw : s.cpu.mem (word 0) = 0) :
    (machine events).Reachable ⟨s.cpu.setMem (waiters 0) (s.cpu.mem (waiters 0) + 1),
      update s.spot v (.calling 0 none)⟩ := by
  have hsame : ∀ c : Cpu, c.mem (word 0) = 0 → c.setMem (word 0) 0 = c := fun c hc ↦ by
    rw [Cpu.setMem, ← hc, Function.update_eq_self]
  have h1 : (machine events).Reachable ⟨s.cpu, update s.spot v (.trying 0 none .outside .first)⟩ :=
    h.step (e := .acquire 0 none) (by simp [machine, next, isFree, hc, hspot, hpc, Spot.isIdle])
  have h2 : (machine events).Reachable ⟨s.cpu, update s.spot v (.entering 0 none)⟩ :=
    h1.step (e := .advance) (by
      simp [machine, next, plan, hc, events, Object.attempt, tryWait, hw, Cpu.nextOpt,
        Cpu.next_store, hsame, Spot.afterAttempt])
  have h3 : (machine events).Reachable ⟨s.cpu.setMem (waiters 0) (s.cpu.mem (waiters 0) + 1),
      update s.spot v (.trying 0 none (.inside false) .first)⟩ :=
    h2.step (e := .advance) (by
      simp [machine, next, plan, hc, Cpu.nextOpt, Cpu.next_store])
  -- inside the guard nothing has changed but `waiters_`
  have hc' : (s.cpu.setMem (waiters 0) (s.cpu.mem (waiters 0) + 1)).sched.current = some v := hc
  have hw' : (s.cpu.setMem (waiters 0) (s.cpu.mem (waiters 0) + 1)).mem (word 0) = 0 :=
    (Cpu.setMem_mem_of_ne _ _ (word_ne_waiters 0 0)).trans hw
  generalize s.cpu.setMem (waiters 0) (s.cpu.mem (waiters 0) + 1) = c at *
  have h4 : (machine events).Reachable ⟨c, update s.spot v (.loading 0 none)⟩ :=
    h3.step (e := .advance) (by
      simp [machine, next, plan, hc', events, Object.attempt, tryWait, hw', Cpu.nextOpt,
        Cpu.next_store, hsame, Spot.afterAttempt])
  exact h4.step (e := .advance) (by
    simp [machine, next, plan, hc', events, Object.busy, hw', Cpu.nextOpt])

/-- A new thread of high priority runs at once. -/
theorem Crowd.attach (h : Crowd n s L) (hv : n + 2 ≤ v) :
    ∃ c, s.cpu.next (.attach v .high) = some c ∧
      c.Steady 1 (update L (.ready .high) (L (.ready .high) ++ [v])) ∧
      c.sched.current = some v ∧ c.pc v = .user ∧ c.mem = s.cpu.mem ∧
      ∀ u, u ≠ v → (c.sched.thread u).attached = (s.cpu.sched.thread u).attached ∧
        (c.sched.thread u).waitAddress = (s.cpu.sched.thread u).waitAddress := by
  have hI := h.steady.settled.inv
  have hv1 : v ≠ 1 := by rintro rfl; omega
  have hatt : (s.cpu.sched.thread 1).attached = true :=
    hI.current 1 h.current (by simp [h.steady.idle.user]) (by simp [h.steady.idle.user])
  have hidle := h.steady.idle.awake hatt
  have hstarted : s.cpu.sched.started = true := by rw [hI.started, h.current]; rfl
  obtain ⟨d, b, L', c, ha, hn, hs, hpc, hmem, hth, hcase⟩ := h.steady.run (e := .attach v .high)
    (by simp [Cpu.NoLock]) (by simp [Cpu.IdleRule, hv1, hatt])
    (by simp [Cpu.enabled, h.fresh v hv, h.current, Ne.symm hv1])
  generalize hb : b = b' at ha hcase
  cases ha with
  | attach hfree hcur =>
    obtain ⟨hb', -⟩ | ⟨-, next, hc, hnext, hhigh⟩ := hcase
    · rw [hstarted] at hb'; cases hb'
    have hother : ∀ u, u ≠ v → (c.sched.thread u).attached = (s.cpu.sched.thread u).attached ∧
        (c.sched.thread u).waitAddress = (s.cpu.sched.thread u).waitAddress := fun u hu ↦ by
      rw [(hth u).1, (hth u).2]
      simp [Scheduler.attached, construct, modifyThread, hu]
    -- the idle thread has a lower priority
    have hnv : next = v := by
      by_contra hne
      have hq := hhigh .high (by simp)
      simp only [Scheduler.attached, construct, modifyThread, Function.update_of_ne hne] at hq hnext
      have hL : next ∈ L (.ready (s.cpu.sched.thread next).priority) := by
        by_cases hp : (s.cpu.sched.thread next).priority = .high
        · rw [hp] at hnext ⊢
          simpa [hne] using hnext
        · rwa [Function.update_of_ne (by simpa using hp)] at hnext
      rw [h.alone _ _ hL, hidle.1] at hq
      exact absurd hq (by decide)
    subst hnv
    exact ⟨c, hn, hs, hc, by rw [hpc]; exact Function.update_self .., hmem, hother⟩

/-- **One thread more.** -/
theorem Crowd.step (h : Crowd n s L) (hr : (machine events).Reachable s) :
    ∃ s' L', Crowd (n + 1) s' L' ∧ (machine events).Reachable s' := by
  have hle : n + 2 ≤ n + 2 := le_rfl
  generalize hv : n + 2 = v at hle
  have hv1 : v ≠ 1 := by rintro rfl; omega
  have hvL : v ∉ L .blocked := h.steady.settled.inv.linked.free (h.fresh v (by omega)) _
  have hidle := h.idle hvL
  -- the thread arrives
  obtain ⟨c, hn, hs, hc, hpc, hmem, hsame⟩ := h.attach (v := v) (by omega)
  have hr₁ : (machine events).Reachable ⟨c, s.spot⟩ :=
    hr.step (e := .cpu (.attach v .high)) (by simp [machine, next, background, hn])
  have hw : c.mem (word 0) = 0 := by rw [hmem]; exact h.unsignaled
  have hr₂ := reachable_calling hr₁ hc hidle hpc hw
  simp only at hr₂
  -- it enters the guard and is blocked
  have hs₂ := hs.setMem (waiters 0) (c.mem (waiters 0) + 1)
  have hw₂ : (c.setMem (waiters 0) (c.mem (waiters 0) + 1)).mem (word 0) = 0 :=
    (Cpu.setMem_mem_of_ne _ _ (word_ne_waiters 0 0)).trans hw
  obtain ⟨c₁, c₂, c₃, call, L', hn₁, hc₁, hpc₁, hn₂, hc₂, hpc₂, hn₃, hs₃, hmem₃,
    ⟨next, p, hc₃, hnext⟩,
    hother, hvL', hvw, hsame₃⟩ := hs₂.blocks hc hv1 hpc hw₂
  generalize hcpu : c.setMem (waiters 0) (c.mem (waiters 0) + 1) = c₀ at *
  have hc₀ : c₀.sched.current = some v := by rw [← hcpu]; exact hc
  have hr₃ : (machine events).Reachable ⟨c₁, update s.spot v (.waiting 0 none)⟩ :=
    hr₂.step (e := .advance) (by
      simp [machine, System.next, plan, hc₀, Cpu.nextOpt, events, Object.busy, hn₁])
  have hr₄ : (machine events).Reachable ⟨c₂, update s.spot v (.waiting 0 none)⟩ :=
    hr₃.step (e := .advance) (by
      simp [machine, System.next, plan, hc₁, hpc₁, Cpu.nextOpt, hn₂, hpc₂, Spot.afterWait])
  have hr₅ : (machine events).Reachable ⟨c₃, update s.spot v (.waiting 0 none)⟩ :=
    hr₄.step (e := .advance) (by simp [machine, System.next, plan, hc₂, hpc₂, Cpu.nextOpt, hn₃])
  have hrep := hs₃.settled.inv.linked.rep
  have hready : ∀ p t, t ∈ L' (.ready p) → t = 1 := fun p t ht ↦ by
    have htv : t ≠ v := by
      rintro rfl
      cases hrep.disjoint _ _ _ ht hvL'
    have ht' := (hother t _ htv).mp ht
    by_cases hp : p = .high
    · subst hp
      rw [Function.update_self, List.mem_append, List.mem_singleton] at ht'
      exact h.alone _ t (ht'.resolve_right htv)
    · rw [Function.update_of_ne (by simpa using hp)] at ht'
      exact h.alone p t ht'
  have hblocked : ∀ u, u ∈ L .blocked → u ∈ L' .blocked := fun u hu ↦ by
    have huv : u ≠ v := fun huv ↦ hvL (huv ▸ hu)
    rw [hother u _ huv, Function.update_of_ne (by simp)]
    exact hu
  refine ⟨_, L', ⟨hs₃, ?_, hready, fun t ↦ ?_, fun t h1 h2 ↦ ?_, fun t ht ↦ ?_, ?_, ?_⟩, hr₅⟩
  · rw [← hready p next hnext]
    exact hc₃
  · by_cases htv : t = v
    · subst htv
      exact Or.inr ⟨Function.update_self .., hvL'⟩
    · exact (h.spot t).imp (Function.update_of_ne htv _ _).trans fun hsp ↦
        ⟨(Function.update_of_ne htv _ _).trans hsp.1, hblocked t hsp.2⟩
  · by_cases htv : t = v
    · subst htv
      exact ⟨hvL', hvw⟩
    · obtain ⟨hb, hwait⟩ := h.waiting t h1 (by omega)
      refine ⟨hblocked t hb, ?_⟩
      rw [(hsame₃ t htv).2, ← hcpu, Cpu.setMem_sched, (hsame t htv).2, hwait]
  · have htv : t ≠ v := by omega
    rw [(hsame₃ t htv).1, ← hcpu, Cpu.setMem_sched, (hsame t htv).1]
    exact h.fresh t (by omega)
  · rw [hmem₃]; exact hw₂
  · rw [hmem₃, ← hcpu, Cpu.setMem_mem_self, hmem, h.guard, UInt32.ofNat_add]
    rfl

/-- Only the idle thread is there. -/
theorem crowd_zero : ∃ s L, Crowd 0 s L ∧ (machine events).Reachable s := by
  have h₀ : Cpu.Steady 1 (Cpu.init (memory events)) fun _ ↦ [] :=
    ⟨Cpu.settled_init, Cpu.peak_init, Cpu.idleInv_init⟩
  obtain ⟨d, b, L₁, c₁, ha, hn₁, hs₁, -, hmem₁, hth₁, hcase⟩ := h₀.run (e := .attach 1 .idle)
    (by simp [Cpu.NoLock]) (by simp [Cpu.IdleRule]) (by simp [Cpu.enabled, Cpu.init])
  generalize hb : b = b' at ha hcase
  cases ha with
  | attach hfree hcur =>
    obtain ⟨-, rfl⟩ | ⟨hb', -⟩ := hcase
    case inr => cases hb'
    obtain ⟨d, b, L₂, c₂, ha, hn₂, hs₂, -, hmem₂, hth₂, hcase⟩ := hs₁.run (e := .startSchedule 1)
      (by simp [Cpu.NoLock]) (by simp [Cpu.IdleRule])
      (by simp [Cpu.enabled, Cpu.init, Scheduler.attached, construct, modifyThread])
    cases ha with
    | startSchedule =>
      obtain ⟨-, rfl⟩ | ⟨hb', -⟩ := hcase
      case inr => cases hb'
      have hr : (machine events).Reachable ⟨_, (init events).spot⟩ :=
        (Machine.Reachable.init.step (e := .cpu (.attach 1 .idle)) (by
          simp only [machine, next, background, if_true, init, hn₁]
          rfl)).step (e := .cpu (.startSchedule 1)) (by
            simp only [machine, next, background, if_true, hn₂]
            rfl)
      refine ⟨_, _, ⟨hs₂, rfl, fun p t ht ↦ ?_, fun t ↦ Or.inl rfl, fun t h1 h2 ↦ ?_, fun t ht ↦ ?_,
        rfl, rfl⟩, hr⟩
      · by_cases hp : p = .idle
        · subst hp
          simpa using ht
        · simp [hp] at ht
      · omega
      · have ht1 : t ≠ 1 := by omega
        simp [Scheduler.attached, construct, modifyThread, ht1, Cpu.init]

/-- Crowds of every size. -/
theorem exists_crowd (n : ℕ) : ∃ s L, Crowd n s L ∧ (machine events).Reachable s := by
  induction n with
  | zero => exact crowd_zero
  | succ n ih =>
    obtain ⟨s, L, h, hr⟩ := ih
    obtain ⟨s', L', h', hr'⟩ := h.step hr
    exact ⟨s', L', h', hr'⟩

/-- **A lost wakeup.**  With 2^32 threads in the guard `waiters_` is zero, so a notification is
skipped. -/
theorem lost_wakeup_of_crowd :
    ∃ s, (machine events).Reachable s ∧ LostWakeup events s 0 := by
  obtain ⟨s, L, h, hr⟩ := exists_crowd (2 ^ 32)
  have hI := h.steady.settled.inv
  have h1 : (1 : ThreadId) ∉ L .blocked := h.steady.settled.calm.not_mem_blocked h.current
    (by simp [h.steady.idle.user])
  have hr₁ : (machine events).Reachable ⟨s.cpu.setMem (word 0) 1, update s.spot 1 (.released 0)⟩ :=
    hr.step (e := .release 0) (by
      simp [machine, next, h.current, Cpu.next_store, isFree, h.idle h1, h.steady.idle.user,
        Spot.isIdle, events, Object.release, notifyOne])
  have hw : (s.cpu.setMem (word 0) 1).mem (waiters 0) = 0 := by
    rw [Cpu.setMem_mem_of_ne _ _ (word_ne_waiters 0 0).symm, h.guard]
    rfl
  have hr₂ : (machine events).Reachable ⟨s.cpu.setMem (word 0) 1, update s.spot 1 (.idle .ok)⟩ :=
    hr₁.step (e := .advance) (by simp [machine, next, h.current, plan, hw, Cpu.nextOpt])
  have hspot : update s.spot 1 (.idle .ok) = s.spot := by
    rw [← h.idle h1, Function.update_eq_self]
  rw [hspot] at hr₂
  have hlists : s.cpu.sched.lists.toList = L := hI.linked.rep.toList_eq
  obtain ⟨hb, hwait⟩ := h.waiting 2 le_rfl (by omega)
  refine ⟨_, hr₂, ⟨2, ?_, hwait⟩, Cpu.setMem_mem_self _ _ _, fun t ↦ ?_, fun t ↦ ?_⟩
  · show 2 ∈ s.cpu.sched.lists.toList .blocked
    rw [hlists]; exact hb
  · rcases h.spot t with ht | ⟨ht, -⟩ <;> simp [ht, Spot.notifies]
  · show ¬ WokenAt 0 (s.spot t) (s.cpu.pc t) (t ∈ s.cpu.sched.lists.toList .blocked)
    rw [hlists]
    rcases h.spot t with ht | ⟨ht, hb⟩ <;> simp [WokenAt, ht, Spot.retries]
    simp [hb]

end System

end Chino
