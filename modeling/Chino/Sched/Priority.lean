import Chino.Sched.Partition

/-!
# The thread with the highest priority runs

`select_next_thread` trusts `max_ready_priority_`, a bound that is raised when a thread becomes
ready, overwritten when another thread becomes current, and reset when a thread is detached.
`Peak s L` says in what sense it can be trusted, whatever happens:

* a ready thread is above the bound only if it is no higher than the current thread, and that only
  after the current thread was detached;
* a bound above the current thread is the priority of some ready thread.

`Acts.peak` and `selected_highest` show that this is kept, the latter by showing that what is
selected has the highest priority of all ready threads.  The exception is a current thread that is
neither running nor attached: `Chino.Sched.Exit` is about that one.

`highest_priority_runs` is the result for runs without exits in which an idle thread is always
there to be selected.

## The proof

* **The bound.**  Each action has its lemma in terms of the sequences (`Peak.shrink`, `Peak.woken`,
  `Peak.attached`, …), because an action may move many threads at once.
* **The selection.**  `selected_highest` goes through the three ends of the search.  A running
  thread that is not preempted is followed round its own list, and then the bound says that nobody
  is higher.  Otherwise the lists are searched from the bound down.
* **The idle thread.**  `IdleRule` is about events: the idle thread is attached first and never
  blocks, and no thread exits.  With it a search always ends with a thread (`exists_selected`), and
  the current one is attached, which closes the gap that `selected_highest` leaves.

`highest_priority_runs` speaks of every `switch_task` that is not locked, in any run under the rule:
the bound is right before it, and the thread that is current after it has the highest priority of
all ready threads.
-/

set_option autoImplicit false

namespace Chino

open Function (update)

namespace Scheduler

/-! ## The bound -/

/-- What `max_ready_priority_` says about the ready lists. -/
structure Peak (s : Scheduler) (L : Queues) : Prop where
  /-- Nobody ready is above both the bound and the current thread. -/
  bound : ∀ q, L (.ready q) ≠ [] → q.toNat ≤ s.maxReadyPriority.toNat ∨
    ∃ t, s.current = some t ∧ q.toNat ≤ (s.thread t).priority.toNat
  /-- The bound covers an attached current thread. -/
  le : ∀ t, s.current = some t → (s.thread t).attached = true →
    (s.thread t).priority.toNat ≤ s.maxReadyPriority.toNat
  /-- A bound above the current thread is attained. -/
  hit : (∀ t, s.current = some t → (s.thread t).priority.toNat < s.maxReadyPriority.toNat) →
    L (.ready s.maxReadyPriority) ≠ [] ∨ s.maxReadyPriority = .idle

variable {s s' : Scheduler} {L L' : Queues}

namespace Peak

theorem bound_attached (h : Peak s L) {t : ThreadId} (hc : s.current = some t)
    (ht : (s.thread t).attached = true) {q : ThreadPriority} (hq : L (.ready q) ≠ []) :
    q.toNat ≤ s.maxReadyPriority.toNat := by
  rcases h.bound q hq with hb | ⟨u, hu, hb⟩
  · exact hb
  · cases hc.symm.trans hu
    exact hb.trans (h.le t hc ht)

theorem hit_of_lt (h : Peak s L) {t : ThreadId} (hc : s.current = some t)
    (hlt : (s.thread t).priority.toNat < s.maxReadyPriority.toNat) :
    L (.ready s.maxReadyPriority) ≠ [] := by
  refine (h.hit fun u hu ↦ ?_).resolve_right fun hidle ↦ ?_
  · cases hc.symm.trans hu; exact hlt
  · rw [hidle] at hlt
    exact Nat.not_lt_zero _ hlt

/-- The bound stays, and of the ready threads only such as are no higher than the current thread
leave. -/
theorem shrink (h : Peak s L) (hcur : s'.current = s.current)
    (hmax : s'.maxReadyPriority = s.maxReadyPriority)
    (hprio : ∀ t, s.current = some t → (s'.thread t).priority = (s.thread t).priority)
    (hatt : ∀ t, s.current = some t → (s'.thread t).attached = true →
      (s.thread t).attached = true)
    (hsub : ∀ q, L' (.ready q) ≠ [] → L (.ready q) ≠ [])
    (hkeep : ∀ q, (∀ t, s.current = some t → (s.thread t).priority.toNat < q.toNat) →
      L (.ready q) ≠ [] → L' (.ready q) ≠ []) : Peak s' L' := by
  refine ⟨fun q hq ↦ ?_, fun t ht hta ↦ ?_, fun hlt ↦ ?_⟩
  · rcases h.bound q (hsub q hq) with hb | ⟨t, ht, hb⟩
    · exact Or.inl (hmax ▸ hb)
    · exact Or.inr ⟨t, hcur.trans ht, by rwa [hprio t ht]⟩
  · have ht' := hcur.symm.trans ht
    rw [hmax, hprio t ht']
    exact h.le t ht' (hatt t ht' hta)
  · have hlt' : ∀ t, s.current = some t →
        (s.thread t).priority.toNat < s.maxReadyPriority.toNat := fun t ht ↦ by
      have := hlt t (hcur.trans ht)
      rwa [hmax, hprio t ht] at this
    rw [hmax]
    exact (h.hit hlt').imp_left (hkeep _ hlt')

theorem congr (h : Peak s L) (hcur : s'.current = s.current)
    (hmax : s'.maxReadyPriority = s.maxReadyPriority) (ht : s'.thread = s.thread) : Peak s' L :=
  h.shrink hcur hmax (fun t _ ↦ by rw [ht]) (fun t _ hta ↦ by rwa [ht] at hta) (fun _ h ↦ h)
    fun _ _ h ↦ h

/-- The current thread leaves its list. -/
theorem leave (h : Peak s L) (hl : Linked s L) {t : ThreadId} {l : ListId} {th : Thread}
    (hc : s.current = some t) (ht : t ∈ L l) (hcur : s'.current = s.current)
    (hmax : s'.maxReadyPriority = s.maxReadyPriority) (hth : s'.thread = update s.thread t th)
    (hprio : th.priority = (s.thread t).priority)
    (hL : ∀ q, L' (.ready q) = without L l t (.ready q)) : Peak s' L' := by
  refine h.shrink hcur hmax (fun u hu ↦ ?_) (fun u hu _ ↦ ?_) (fun q hq ↦ ?_) fun q hlt hq ↦ ?_
  · cases hc.symm.trans hu
    rw [hth, Function.update_self, hprio]
  · cases hc.symm.trans hu
    exact hl.attached ht
  · obtain ⟨u, hu⟩ := List.exists_mem_of_ne_nil _ hq
    rw [hL, mem_without hl.rep ht] at hu
    exact List.ne_nil_of_mem hu.2
  · obtain ⟨u, hu⟩ := List.exists_mem_of_ne_nil _ hq
    refine List.ne_nil_of_mem (a := u) ?_
    rw [hL, mem_without hl.rep ht]
    refine ⟨?_, hu⟩
    rintro rfl
    have := hlt u hc
    rw [hl.priority_eq hu] at this
    omega

theorem foldl_raise (f : ThreadId → ThreadPriority) (ts : List ThreadId) (m : ThreadPriority) :
    m.toNat ≤ (ts.foldl (fun m t ↦ raise m (f t)) m).toNat ∧
    (∀ t ∈ ts, (f t).toNat ≤ (ts.foldl (fun m t ↦ raise m (f t)) m).toNat) ∧
    (ts.foldl (fun m t ↦ raise m (f t)) m = m ∨
      ∃ t ∈ ts, ts.foldl (fun m t ↦ raise m (f t)) m = f t) := by
  induction ts generalizing m with
  | nil => simp
  | cons t ts ih =>
    obtain ⟨h1, h2, h3⟩ := ih (raise m (f t))
    have hr := raise_toNat m (f t)
    rw [List.foldl_cons]
    refine ⟨by omega, fun u hu ↦ ?_, ?_⟩
    · rcases List.mem_cons.mp hu with rfl | hu
      · omega
      · exact h2 u hu
    · rcases h3 with h3 | ⟨u, hu, h3⟩
      · rw [h3]
        unfold raise
        split
        · exact Or.inr ⟨t, by simp, rfl⟩
        · exact Or.inl rfl
      · exact Or.inr ⟨u, List.mem_cons_of_mem _ hu, h3⟩

/-- Threads become ready, and the bound is raised to the highest of them. -/
theorem woken (h : Peak s L) (b : Bool) (src : ListId) (ts : List ThreadId)
    (h' : Heap ListId ThreadId) : Peak (s.woken b ts h') (s.wakeQueues L src ts) := by
  obtain ⟨h1, h2, h3⟩ := foldl_raise (fun t ↦ (s.thread t).priority) ts s.maxReadyPriority
  refine ⟨fun q hq ↦ ?_, fun t ht hta ↦ ?_, fun hlt ↦ ?_⟩
  · obtain ⟨u, hu⟩ := List.exists_mem_of_ne_nil _ hq
    rcases List.mem_append.mp hu with hu | hu
    · refine (h.bound q (List.ne_nil_of_mem hu)).imp (fun hb ↦ hb.trans h1) ?_
      rintro ⟨t, ht, hb⟩
      exact ⟨t, ht, by rwa [woken_priority]⟩
    · obtain ⟨hu, hup⟩ := List.mem_filter.mp hu
      rw [← of_decide_eq_true hup]
      exact Or.inl (h2 u hu)
  · rw [woken_priority]
    refine (h.le t ht ?_).trans h1
    rw [woken_thread] at hta
    split at hta <;> exact hta
  · rcases h3 with h3 | ⟨u, hu, h3⟩
    · have hmax : (s.woken b ts h').maxReadyPriority = s.maxReadyPriority := h3
      rw [hmax]
      refine (h.hit fun t ht ↦ ?_).imp_left fun hne hnil ↦ hne ?_
      · have := hlt t ht
        rwa [woken_priority, hmax] at this
      · exact (List.append_eq_nil_iff.mp hnil).1
    · have hmax : (s.woken b ts h').maxReadyPriority = (s.thread u).priority := h3
      rw [hmax]
      refine Or.inl (List.ne_nil_of_mem (a := u) (List.mem_append_right _ ?_))
      simp [hu]

/-- A new thread becomes ready. -/
theorem attached (h : Peak s L) {t : ThreadId} {p : ThreadPriority} {h' : Heap ListId ThreadId}
    (hcur : s.current ≠ some t) : Peak ((s.construct t p).attached t h')
      (update L (.ready p) (L (.ready p) ++ [t])) := by
  have hmax : ((s.construct t p).attached t h').maxReadyPriority = raise s.maxReadyPriority p := by
    simp [Scheduler.attached, construct, modifyThread]
  have hthread : ∀ u, s.current = some u →
      ((s.construct t p).attached t h').thread u = s.thread u := fun u hu ↦ by
    have hut : u ≠ t := fun he ↦ hcur (he ▸ hu)
    simp [Scheduler.attached, construct, modifyThread, hut]
  have hr := raise_toNat s.maxReadyPriority p
  refine ⟨fun q hq ↦ ?_, fun u hu hua ↦ ?_, fun hlt ↦ ?_⟩
  · rw [hmax]
    by_cases hqp : q = p
    · subst hqp; exact Or.inl (by omega)
    · rw [Function.update_of_ne (by simpa using hqp)] at hq
      refine (h.bound q hq).imp (fun hb ↦ by omega) ?_
      rintro ⟨u, hu, hb⟩
      exact ⟨u, hu, by rwa [hthread u hu]⟩
  · rw [hthread u hu] at hua ⊢
    rw [hmax]
    have := h.le u hu hua
    omega
  · rw [hmax] at hlt ⊢
    by_cases hqp : raise s.maxReadyPriority p = p
    · rw [hqp]; simp
    · have hsame : raise s.maxReadyPriority p = s.maxReadyPriority := by
        unfold raise at hqp ⊢; split <;> simp_all
      rw [hsame] at hqp hlt ⊢
      rw [Function.update_of_ne (by simpa using hqp)]
      exact h.hit fun u hu ↦ by simpa [hthread u hu] using hlt u hu

/-- The current thread is detached, and may take the bound with it. -/
theorem detached (h : Peak s L) (hl : Linked s L) {t : ThreadId} {l : ListId}
    {h' : Heap ListId ThreadId} (hc : s.current = some t) (ht : t ∈ L l) :
    Peak (s.detached t h') (without L l t) := by
  have hleave : Peak { s with thread := update s.thread t { s.thread t with attached := false } }
      (without L l t) := h.leave hl hc ht rfl rfl rfl rfl fun _ ↦ rfl
  by_cases hp : (s.thread t).priority = s.maxReadyPriority
  · refine ⟨fun q hq ↦ Or.inr ⟨t, hc, ?_⟩, fun u hu hua ↦ ?_, fun _ ↦ Or.inr (if_pos hp)⟩
    · rcases hleave.bound q hq with hb | ⟨u, hu, hb⟩
      · simpa [Scheduler.detached, hp] using hb
      · cases hc.symm.trans hu; exact hb
    · cases hc.symm.trans hu
      simp [Scheduler.detached] at hua
  · exact hleave.congr rfl (if_neg hp) rfl

/-- The first thread becomes current. -/
theorem startSchedule (h : Peak s L) (hl : Linked s L) (hnone : s.current = none) {t : ThreadId}
    (ht : (s.thread t).attached = true) (hst : (s.thread t).status = .ready) :
    Peak { s.modifyThread t fun th ↦ { th with status := .running } with
      current := some t, started := true } L := by
  have hm : t ∈ L (.ready (s.thread t).priority) := by
    rw [hl.mem_iff]
    exact ⟨ht, listOf_eq_ready.mpr ⟨Or.inl hst, rfl⟩⟩
  have hle : ∀ q, L (.ready q) ≠ [] → q.toNat ≤ s.maxReadyPriority.toNat := fun q hq ↦ by
    rcases h.bound q hq with hb | ⟨u, hu, -⟩
    · exact hb
    · rw [hnone] at hu; cases hu
  refine ⟨fun q hq ↦ Or.inl (hle q hq), fun u hu _ ↦ ?_, fun _ ↦ h.hit fun u hu ↦ ?_⟩
  · cases hu
    simpa [modifyThread] using hle _ (List.ne_nil_of_mem hm)
  · rw [hnone] at hu; cases hu

end Peak

/-! ## Selection -/

variable {cnt next : ThreadId}

/-- **What is selected has the highest priority of all ready threads**, unless the current thread
left the ready lists and there is a ready thread above the bound. -/
theorem selected_highest (hl : Linked s L) (hp : Peak s L) (hc : s.current = some cnt)
    (hst : (s.thread cnt).status ≠ .running → ∀ q, L (.ready q) ≠ [] →
      q.toNat ≤ s.maxReadyPriority.toNat)
    (hsel : s.selectNextThread = .ok next) :
    next ∈ L (.ready (s.thread next).priority) ∧
      ∀ q, L (.ready q) ≠ [] → q.toNat ≤ (s.thread next).priority.toNat := by
  suffices h : ∃ p, next ∈ L (.ready p) ∧ ∀ q, L (.ready q) ≠ [] → q.toNat ≤ p.toNat by
    obtain ⟨p, hm, hq⟩ := h
    obtain rfl := hl.priority_eq hm
    exact ⟨hm, hq⟩
  have hbound : ∀ q, L (.ready q) ≠ [] → q.toNat ≤ s.maxReadyPriority.toNat ∨
      q.toNat ≤ (s.thread cnt).priority.toNat := fun q hq ↦ by
    rcases hp.bound q hq with hb | ⟨t, ht, hb⟩
    · exact Or.inl hb
    · cases hc.symm.trans ht; exact Or.inr hb
  by_cases hb : s.maxReadyPriority.toNat > (s.thread cnt).priority.toNat ∨
      (s.thread cnt).status ≠ .running
  · -- every ready thread is within the range of the search
    have hmax : ∀ q, L (.ready q) ≠ [] → q.toNat ≤ s.maxReadyPriority.toNat := fun q hq ↦ by
      rcases hb with hb | hb
      · rcases hbound q hq with h | h <;> omega
      · exact hst hb q hq
    rw [selectNextThread_search hc hb] at hsel
    rcases searchReady_cases hl.rep (searchBound (s.thread cnt)) _ s.maxReadyPriority rfl with
      ⟨p, -, -, -, hhigh, hres⟩ | ⟨-, hres⟩
    · rw [hres] at hsel
      refine ⟨p, mem_of_chosen hsel, fun q hq ↦ ?_⟩
      by_contra hlt
      exact hq (hhigh q (by omega) (hmax q hq))
    · rw [hres] at hsel
      split at hsel <;> cases hsel
  · have hrun : (s.thread cnt).status = .running := by tauto
    have hmax : s.maxReadyPriority.toNat ≤ (s.thread cnt).priority.toNat := by
      by_contra hlt
      exact hb (Or.inl (by omega))
    refine ⟨(s.thread cnt).priority, hl.roundRobin_mem hc hrun hmax hsel, fun q hq ↦ ?_⟩
    rcases hbound q hq with h | h <;> omega

/-- When a thread is selected at all. -/
theorem exists_selected (hl : Linked s L) (hp : Peak s L) (hc : s.current = some cnt)
    (hrun : (s.thread cnt).status = .running →
      s.maxReadyPriority.toNat ≤ (s.thread cnt).priority.toNat →
      L (.ready (s.thread cnt).priority) ≠ [])
    (hst : (s.thread cnt).status ≠ .running → ∃ q, L (.ready q) ≠ [] ∧
      q.toNat ≤ s.maxReadyPriority.toNat) :
    ∃ next, s.selectNextThread = .ok next := by
  have hchosen : ∀ {p}, L (.ready p) ≠ [] → ∃ next, chosen (L (.ready p)).head? = .ok next := by
    intro p hne
    obtain ⟨t, ht⟩ := Option.ne_none_iff_exists'.mp (mt List.head?_eq_none_iff.mp hne)
    exact ⟨t, by rw [ht]; rfl⟩
  by_cases hb : s.maxReadyPriority.toNat > (s.thread cnt).priority.toNat ∨
      (s.thread cnt).status ≠ .running
  · rw [selectNextThread_search hc hb]
    rcases searchReady_cases hl.rep (searchBound (s.thread cnt)) _ s.maxReadyPriority rfl with
      ⟨p, -, -, hne, -, hres⟩ | ⟨hempty, -⟩
    · rw [hres]
      exact hchosen hne
    · -- the range of the search is not empty
      by_cases hs : (s.thread cnt).status = .running
      · have hlt : (s.thread cnt).priority.toNat < s.maxReadyPriority.toNat :=
          hb.resolve_right (not_not.mpr hs)
        exact absurd (hempty _ (by simp [searchBound, hs]; omega) le_rfl) (hp.hit_of_lt hc hlt)
      · obtain ⟨q, hq, hle⟩ := hst hs
        exact absurd (hempty q (by simp [searchBound, hs]) hle) hq
  · have hs : (s.thread cnt).status = .running := by tauto
    have hmax : s.maxReadyPriority.toNat ≤ (s.thread cnt).priority.toNat := by
      by_contra hlt
      exact hb (Or.inl (by omega))
    cases hatt : (s.thread cnt).attached with
    | false =>
      rw [selectNextThread_orphan hl.rep hc hs hmax (hl.free hatt)]
      exact hchosen (hrun hs hmax)
    | true =>
      obtain ⟨l, hlo, hm⟩ := hl.exists_mem hatt
      obtain rfl : l = .ready (s.thread cnt).priority := by simpa [listOf, hs] using hlo.symm
      obtain ⟨xs, ys, hL⟩ := List.append_of_mem hm
      exact ⟨_, selectNextThread_roundRobin hl.rep hc hs hmax hL⟩

/-- A thread that has the highest priority makes a true bound when it becomes current. -/
theorem Peak.switched (hm : next ∈ L (.ready (s.thread next).priority))
    (hhigh : ∀ q, L (.ready q) ≠ [] → q.toNat ≤ (s.thread next).priority.toNat) :
    Peak (s.switched cnt next) L := by
  have hprio : ((s.switched cnt next).thread next).priority = (s.thread next).priority := by
    rw [switched_thread, if_pos rfl]
  refine ⟨fun q hq ↦ Or.inl (hhigh q hq), fun u hu _ ↦ ?_, fun _ ↦ Or.inl (List.ne_nil_of_mem hm)⟩
  cases hu
  exact hprio.symm ▸ le_rfl

end Scheduler

open Scheduler

namespace Cpu

variable {mem : Addr → UInt32} {c c' d : Cpu} {L L' : Queues} {e : Event} {b : Bool}

/-- **Every action keeps the bound.** -/
theorem Acts.peak (ha : c.Acts L e d b L') (h : c.Inv L) (hp : c.sched.Peak L) :
    d.sched.Peak L' := by
  have hl := h.linked
  cases ha with
  | attach ht hcur => exact hp.attached hcur
  | startSchedule hs ht =>
    refine hp.startSchedule hl ?_ ht (h.boot hs _ ht)
    have := h.started
    rw [hs] at this
    exact Option.not_isSome_iff_eq_none.mp (by rw [← this]; simp)
  | detach hc hpc ht => exact hp.detached hl hc ht
  | blockUntimed hc hpc hmem htime ht =>
    exact hp.leave hl hc ht rfl rfl rfl rfl fun q ↦ Function.update_of_ne (by simp) _ _
  | blockTimed hc hpc hmem htime ht =>
    exact hp.leave hl hc ht rfl rfl (asleep_waiting_thread ..) rfl
      fun q ↦ Function.update_of_ne (by simp) _ _
  | delay hc hpc ht =>
    exact hp.leave hl hc ht rfl rfl rfl rfl fun q ↦ Function.update_of_ne (by simp) _ _
  | @unblock a all h' => exact (hp.woken true .blocked _ h').congr rfl rfl rfl
  | tick => exact hp.woken false .delayed _ _
  | blockCheck => rw [blockCheck_sched]; exact hp
  | block | blockMissed | yield | store => exact hp
  | lock | unlock | irqYield | clock => exact hp.congr rfl rfl rfl

/-- The current thread is not running, and there is a ready thread above the bound. -/
def Overtopped (s : Scheduler) : Prop :=
  ∃ t, s.current = some t ∧ (s.thread t).status ≠ .running ∧
    ∃ q, s.lists.toList (.ready q) ≠ [] ∧ s.maxReadyPriority.toNat < q.toNat

/-- A switch keeps the bound, unless the current thread was not running and hid a ready one. -/
theorem peak_switchTask (h : d.Inv L) (hp : d.sched.Peak L)
    (hover : d.sched.lockDepth = 0 → ¬ Overtopped d.sched) (hs : d.switchTask = .ok c') :
    c'.sched.Peak L := by
  obtain ⟨s, hsw, rfl⟩ := switchTask_eq_ok hs
  rcases switchTask_cases hsw with rfl | ⟨cnt, next, hlock, hc, hne, hsel, rfl⟩
  · exact hp
  · obtain ⟨hm, hhigh⟩ := selected_highest h.linked hp hc (fun hst q hq ↦ by
      by_contra hlt
      exact hover hlock ⟨cnt, hc, hst, q, by rwa [h.linked.rep.toList_eq], by omega⟩) hsel
    exact .switched hm hhigh

theorem peak_init : (init mem).sched.Peak fun _ ↦ [] where
  bound _ h := absurd rfl h
  le _ h := by cases h
  hit _ := Or.inr rfl

/-! ## Runs with an idle thread and without exits -/

/-- The rules of a run in which `i` is the idle thread: it is attached first, it never blocks, and
no thread exits. -/
def IdleRule (i : ThreadId) (c : Cpu) : Event → Prop
  | .attach t p => if t = i then p = .idle else (c.sched.thread i).attached = true
  | .detach => False
  | .block .. | .delay _ => c.sched.current ≠ some i
  | _ => True

instance (i : ThreadId) (c : Cpu) (e : Event) : Decidable (IdleRule i c e) := by
  cases e <;> unfold IdleRule <;> infer_instance

/-- What these rules keep true. -/
structure IdleInv (i : ThreadId) (c : Cpu) : Prop where
  first : (c.sched.thread i).attached = true ∨ ∀ t, (c.sched.thread t).attached = false
  awake : (c.sched.thread i).attached = true → (c.sched.thread i).priority = .idle ∧
    ((c.sched.thread i).status = .ready ∨ (c.sched.thread i).status = .running)
  user : c.pc i = .user
  stay : ∀ t, c.pc t ≠ .exiting ∧ c.pc t ≠ .exited

/-- A thread that an action does not attach, detach or send to sleep may become ready or running. -/
theorem Acts.awake (ha : c.Acts L e d b L') (u : ThreadId) :
    (∃ p, e = .attach u p) ∨
    (c.sched.current = some u ∧
      (e = .detach ∨ e = .blockSection ∧ (∃ call, c.pc u = .entered call) ∨
      ∃ timeout, e = .delay timeout)) ∨
    ((d.sched.thread u).priority = (c.sched.thread u).priority ∧
      ((d.sched.thread u).status = (c.sched.thread u).status ∨
        (d.sched.thread u).status = .ready ∨ (d.sched.thread u).status = .running)) := by
  cases ha with
  | @attach t p =>
    by_cases hu : u = t
    · subst hu; exact Or.inl ⟨p, rfl⟩
    · exact Or.inr (Or.inr (by simp [Scheduler.attached, construct, modifyThread, hu]))
  | @detach t l h' hc =>
    by_cases hu : u = t
    · subst hu; exact Or.inr (Or.inl ⟨hc, Or.inl rfl⟩)
    · exact Or.inr (Or.inr (by simp [Scheduler.detached, hu]))
  | @startSchedule t =>
    by_cases hu : u = t
    · subst hu; exact Or.inr (Or.inr (by simp [modifyThread]))
    · exact Or.inr (Or.inr (by simp [modifyThread, hu]))
  | @blockUntimed t call l h' hc hpc =>
    by_cases hu : u = t
    · subst hu; exact Or.inr (Or.inl ⟨hc, Or.inr (Or.inl ⟨rfl, call, hpc⟩)⟩)
    · exact Or.inr (Or.inr (by simp [Scheduler.blocked, hu]))
  | @blockTimed t call timeout l h' hc hpc =>
    by_cases hu : u = t
    · subst hu; exact Or.inr (Or.inl ⟨hc, Or.inr (Or.inl ⟨rfl, call, hpc⟩)⟩)
    · exact Or.inr (Or.inr (by simp [Scheduler.asleep, waiting, modifyThread, hu]))
  | @delay t timeout l h' hc =>
    by_cases hu : u = t
    · subst hu; exact Or.inr (Or.inl ⟨hc, Or.inr (Or.inr ⟨timeout, rfl⟩)⟩)
    · exact Or.inr (Or.inr (by simp [Scheduler.asleep, hu]))
  | @unblock a all h' =>
    refine Or.inr (Or.inr ?_)
    simp only [unblocked_thread]
    split
    · exact ⟨rfl, Or.inr (Or.inl rfl)⟩
    · exact ⟨rfl, Or.inl rfl⟩
  | tick =>
    refine Or.inr (Or.inr ?_)
    rw [woken_thread]
    split
    · exact ⟨rfl, Or.inr (Or.inl rfl)⟩
    · exact ⟨rfl, Or.inl rfl⟩
  | blockCheck => exact Or.inr (Or.inr (by rw [blockCheck_sched]; exact ⟨rfl, Or.inl rfl⟩))
  | _ => exact Or.inr (Or.inr ⟨rfl, Or.inl rfl⟩)

theorem Acts.pc_stays (ha : c.Acts L e d b L') {u : ThreadId} (he : e ≠ .detach)
    (hu : c.pc u ≠ .exiting ∧ c.pc u ≠ .exited) : d.pc u ≠ .exiting ∧ d.pc u ≠ .exited := by
  have key : ∀ {t : ThreadId} {pc : Pc} {d' : Cpu}, d'.pc = update c.pc t pc →
      (u = t → pc ≠ .exiting ∧ pc ≠ .exited) → d'.pc u ≠ .exiting ∧ d'.pc u ≠ .exited := by
    intro t pc d' hd h
    rw [hd]
    by_cases hut : u = t
    · subst hut; rw [Function.update_self]; exact h rfl
    · rwa [Function.update_of_ne hut]
  cases ha with
  | detach => exact absurd rfl he
  | attach | block | blockUntimed | blockTimed | blockMissed => exact key rfl fun _ ↦ by simp
  | blockCheck =>
    rcases blockCheck_pc c _ _ with hd | hd
    · exact key hd fun _ ↦ by simp
    · exact key hd fun _ ↦ by simp
  | @yield t hc hpc =>
    refine key rfl fun hut ↦ ?_
    subst hut
    rcases hpc with hpc | ⟨call, hpc⟩ | hpc
    · simp [hpc, afterYield]
    · simp [hpc, afterYield]
    · exact absurd hpc hu.1
  | _ => exact hu

variable {i : ThreadId}

theorem Acts.pc_user (ha : c.Acts L e d b L') {u : ThreadId} (hu : c.pc u = .user)
    (he : e ≠ .detach) (hb : ∀ a old timeout, e = .block a old timeout →
      c.sched.current ≠ some u) : d.pc u = .user := by
  have key : ∀ {t : ThreadId} {pc : Pc} {d' : Cpu}, d'.pc = update c.pc t pc →
      (u = t → pc = .user) → d'.pc u = .user := by
    intro t pc d' hd h
    rw [hd]
    by_cases hut : u = t
    · subst hut; rw [Function.update_self]; exact h rfl
    · rwa [Function.update_of_ne hut]
  cases ha with
  | detach => exact absurd rfl he
  | block hc => exact key rfl fun hut ↦ absurd (hut ▸ hc) (hb _ _ _ rfl)
  | blockUntimed _ hpc | blockTimed _ hpc =>
    exact key rfl fun hut ↦ by rw [← hut, hu] at hpc; cases hpc
  | attach | blockMissed => exact key rfl fun _ ↦ rfl
  | blockCheck _ hpc =>
    rcases blockCheck_pc c _ _ with hd | hd
    · exact key hd fun _ ↦ rfl
    · exact key hd fun hut ↦ by rw [← hut, hu] at hpc; cases hpc
  | yield => exact key rfl fun hut ↦ by rw [← hut, hu]; rfl
  | _ => exact hu

theorem Acts.idleInv (ha : c.Acts L e d b L') (hi : IdleInv i c)
    (hrule : IdleRule i c e) : IdleInv i d := by
  have hdetach : e ≠ .detach := by rintro rfl; exact hrule
  have hstay := fun t ↦ ha.pc_stays hdetach (hi.stay t)
  have huser : d.pc i = .user := ha.pc_user hi.user hdetach <| by rintro a old τ rfl; exact hrule
  by_cases hat : ∃ p, e = .attach i p
  · -- the idle thread is attached just now
    obtain ⟨p, rfl⟩ := hat
    obtain rfl : p = .idle := by simpa [IdleRule] using hrule
    cases ha with
    | attach =>
      exact ⟨Or.inl (by simp [Scheduler.attached]),
        fun _ ↦ by simp [Scheduler.attached, construct, modifyThread], huser, hstay⟩
  have hatt : (d.sched.thread i).attached = (c.sched.thread i).attached := by
    rcases ha.attached i with hd | ⟨p, rfl⟩ | ⟨rfl, -⟩
    · exact hd
    · exact absurd ⟨p, rfl⟩ hat
    · exact absurd rfl hdetach
  refine ⟨?_, fun hatt' ↦ ?_, huser, hstay⟩
  · rcases hi.first with hf | hf
    · exact Or.inl (hatt.trans hf)
    · refine Or.inr fun t ↦ ?_
      rcases ha.attached t with hd | ⟨p, rfl⟩ | ⟨rfl, -⟩
      · exact hd.trans (hf t)
      · have hti : t ≠ i := by rintro rfl; exact hat ⟨p, rfl⟩
        simp only [IdleRule, if_neg hti, hf i] at hrule
        cases hrule
      · exact absurd rfl hdetach
  · obtain ⟨h1, h2⟩ := hi.awake (hatt ▸ hatt')
    rcases ha.awake i with ⟨p, rfl⟩ | ⟨hc, rfl | ⟨rfl, call, hpc⟩ | ⟨τ, rfl⟩⟩ | ⟨hp, hs⟩
    · exact absurd ⟨p, rfl⟩ hat
    · exact absurd rfl hdetach
    · rw [hi.user] at hpc; cases hpc
    · exact absurd hc hrule
    · refine ⟨hp.trans h1, ?_⟩
      rcases hs with hs | hs | hs
      · rwa [hs]
      · exact Or.inl hs
      · exact Or.inr hs

theorem switched_awake (s : Scheduler) (cnt next u : ThreadId) :
    ((s.switched cnt next).thread u).attached = (s.thread u).attached ∧
    ((s.switched cnt next).thread u).priority = (s.thread u).priority ∧
    (((s.switched cnt next).thread u).status = (s.thread u).status ∨
      ((s.switched cnt next).thread u).status = .ready ∨
      ((s.switched cnt next).thread u).status = .running) := by
  rw [switched_thread]
  split
  · simp
  · split <;> simp

theorem idleInv_switchTask (hi : IdleInv i d) (hs : d.switchTask = .ok c') : IdleInv i c' := by
  obtain ⟨s, hsw, rfl⟩ := switchTask_eq_ok hs
  rcases switchTask_cases hsw with rfl | ⟨cnt, next, -, hc, hne, hsel, rfl⟩
  · exact hi
  · have hsame := switched_awake d.sched cnt next
    refine ⟨?_, fun hatt ↦ ?_, hi.user, hi.stay⟩
    · exact hi.first.imp (hsame i).1.trans fun hf t ↦ (hsame t).1.trans (hf t)
    · obtain ⟨h1, h2⟩ := hi.awake ((hsame i).1 ▸ hatt)
      refine ⟨(hsame i).2.1.trans h1, ?_⟩
      rcases (hsame i).2.2 with hs | hs | hs
      · rwa [hs]
      · exact Or.inl hs
      · exact Or.inr hs

theorem idleInv_init : IdleInv i (init mem) where
  first := Or.inr fun _ ↦ rfl
  awake h := by cases h
  user := rfl
  stay _ := by simp [init]

theorem not_overtopped (hp : d.sched.Peak L) (h : d.Inv L) (hi : IdleInv i d) :
    ¬ Overtopped d.sched := by
  rintro ⟨t, hc, -, q, hq, hlt⟩
  rw [h.linked.rep.toList_eq] at hq
  have := hp.bound_attached hc (h.current t hc (hi.stay t).1 (hi.stay t).2) hq
  omega

/-- Everything that runs under the rules keep. -/
theorem idle_invariant (h : (machine mem).ReachableWhile (IdleRule i) c) :
    ∃ L, c.Inv L ∧ c.sched.Peak L ∧ IdleInv i c := by
  refine Machine.ReachableWhile.invariant (I := fun c ↦ ∃ L, c.Inv L ∧ c.sched.Peak L ∧ IdleInv i c)
    ⟨_, inv_init, peak_init, idleInv_init⟩ ?_ h
  rintro c e c' - ⟨L, hI, hP, hi⟩ hrule hn
  obtain ⟨d, b, L', ha, hd, hI', ⟨rfl, rfl⟩ | ⟨rfl, -, hsw⟩⟩ := hI.next_cases hn
  · exact ⟨L', hI', ha.peak hI hP, ha.idleInv hi hrule⟩
  · have hP' := ha.peak hI hP
    have hi' := ha.idleInv hi hrule
    exact ⟨L', hI', peak_switchTask hd hP' (fun _ ↦ not_overtopped hP' hd hi') hsw,
      idleInv_switchTask hi' hsw⟩

/-- With the idle thread there, an unlocked `switch_task` makes a thread current that no ready
thread is above. -/
theorem switchTask_highest (h : d.Inv L) (hp : d.sched.Peak L) (hi : IdleInv i d)
    (hlock : d.sched.lockDepth = 0) {cnt : ThreadId} (hc : d.sched.current = some cnt) :
    ∃ c' next, d.switchTask = .ok c' ∧ c'.sched.current = some next ∧
      next ∈ L (.ready (d.sched.thread next).priority) ∧
      (∀ q, L (.ready q) ≠ [] → q.toNat ≤ (d.sched.thread next).priority.toNat) ∧
      c'.sched.lists = d.sched.lists ∧
      ∀ u, (c'.sched.thread u).priority = (d.sched.thread u).priority := by
  have hatt := h.current cnt hc (hi.stay cnt).1 (hi.stay cnt).2
  have hbound : ∀ q, L (.ready q) ≠ [] → q.toNat ≤ d.sched.maxReadyPriority.toNat := fun q hq ↦
    hp.bound_attached hc hatt hq
  -- the current thread is in the list of a round robin, the idle thread in the range of a search
  have hmem : ∀ t, (d.sched.thread t).attached = true →
      ((d.sched.thread t).status = .ready ∨ (d.sched.thread t).status = .running) →
      t ∈ L (.ready (d.sched.thread t).priority) := fun t ht hs ↦
    (h.linked.mem_iff t _).mpr ⟨ht, listOf_eq_ready.mpr ⟨hs, rfl⟩⟩
  have hidle : L (.ready .idle) ≠ [] := by
    have hia : (d.sched.thread i).attached = true := by
      rcases hi.first with hf | hf
      · exact hf
      · rw [hf cnt] at hatt; cases hatt
    obtain ⟨h1, h2⟩ := hi.awake hia
    exact List.ne_nil_of_mem (h1 ▸ hmem i hia h2)
  obtain ⟨next, hsel⟩ := exists_selected h.linked hp hc
    (fun hrun _ ↦ List.ne_nil_of_mem (hmem cnt hatt (Or.inr hrun)))
    (fun _ ↦ ⟨.idle, hidle, Nat.zero_le _⟩)
  obtain ⟨hnext, hhigh⟩ := selected_highest h.linked hp hc (fun _ q hq ↦ hbound q hq) hsel
  obtain ⟨s', hsw, hc', hl', hsame, -⟩ := switchTask_selected hlock hc hsel
  exact ⟨{ d with sched := s' }, next, by rw [Cpu.switchTask, hsw]; rfl, hc', hnext, hhigh, hl',
    fun u ↦ (hsame u).1⟩

/-- **The thread with the highest priority runs.**  In a run with an idle thread that never blocks,
and without exits, at every `switch_task` that is not locked: the bound covers every ready thread
before it, and after it the current thread is ready and no ready thread is above it. -/
theorem highest_priority_runs (h : (machine mem).ReachableWhile (IdleRule i) c)
    (hrule : IdleRule i c e)
    (he : c.enabled e = true) (hd : c.beforeSwitch e = some d) (hlock : d.sched.lockDepth = 0) :
    (∀ t p, t ∈ d.sched.lists.toList (.ready p) →
      (d.sched.thread t).priority.toNat ≤ d.sched.maxReadyPriority.toNat) ∧
    ∃ c' t, d.switchTask = .ok c' ∧ c'.sched.current = some t ∧
      (∃ p, t ∈ c'.sched.lists.toList (.ready p)) ∧
      ∀ u p, u ∈ c'.sched.lists.toList (.ready p) →
        (c'.sched.thread u).priority.toNat ≤ (c'.sched.thread t).priority.toNat := by
  obtain ⟨L, hI, hP, hi⟩ := idle_invariant h
  obtain ⟨d', b, L', hact', ha, hr⟩ := hI.act_acts he
  cases (beforeSwitch_eq_some.mp hd).symm.trans hact'
  have hd := ha.inv hI hr
  have hP' := ha.peak hI hP
  have hi' := ha.idleInv hi hrule
  have hlists := hd.linked.rep.toList_eq
  obtain ⟨cnt, hc⟩ := ha.exists_current hd
  have hatt := hd.current cnt hc (hi'.stay cnt).1 (hi'.stay cnt).2
  obtain ⟨c', next, hsw, hc', hnext, hhigh, hl', hprio⟩ := switchTask_highest hd hP' hi' hlock hc
  refine ⟨fun t p ht ↦ ?_, c', next, hsw, hc', ⟨(d.sched.thread next).priority, ?_⟩,
    fun u p hu ↦ ?_⟩
  · rw [hlists] at ht
    rw [hd.linked.priority_eq ht]
    exact hP'.bound_attached hc hatt (List.ne_nil_of_mem ht)
  · rw [hl', hlists]; exact hnext
  · rw [hl', hlists] at hu
    rw [hprio u, hprio next, hd.linked.priority_eq hu]
    exact hhigh p (List.ne_nil_of_mem hu)

/-- A tick wakes a thread of high priority, which takes over from one of normal priority. -/
theorem highest_priority_runs_tick :
    let c := (machine zeroed).afterWhile (IdleRule 0)
      [.attach 0 .idle, .attach 1 .normal, .attach 2 .high,
      .startSchedule 0, .yield, .delay 5, .clock 7]
    let d := (c.beforeSwitch .tick).get (by decide)
    c.sched.current = some 1 ∧ ∃ c' t, d.switchTask = .ok c' ∧ c'.sched.current = some t ∧
      (∃ p, t ∈ c'.sched.lists.toList (.ready p)) ∧
      ∀ u p, u ∈ c'.sched.lists.toList (.ready p) →
        (c'.sched.thread u).priority.toNat ≤ (c'.sched.thread t).priority.toNat :=
  ⟨by decide, (highest_priority_runs (Machine.reachableWhile_afterWhile _) (by decide) (by decide)
    (Option.some_get _).symm (by decide)).2⟩

end Cpu

end Chino
