import Chino.Sched.Scheduler

/-!
# What the scheduler's functions do to its lists

Every function of `Chino.Sched.Scheduler` that touches a list is described here by what it does to
the sequences `L` the heap spells out: under the stated conditions it does not fault, every field
other than `lists` is given outright, and the new heap spells out a given new family of sequences.
Later files never unfold a list operation again.

* Making threads ready is described for a whole list `ts` of them at once (`woken`, `wakeQueues`).
  `unblockLoop_spec` and `wakeupLoop_spec` say which threads the two loops wake: the waiters of one
  address, or the first of them, and the due prefix of the delayed list.
* `addToDelayList_spec` says where a sleeper is inserted: behind the head of the list and behind
  the due threads that follow the head (`insertDelayed`).
* `searchReady_cases` is the result of the search of `select_next_thread`, with its three ends:
  the front of the highest non-empty list of the range, nothing, or an index below zero.

## How to read a specification

A lemma `f_spec` has three parts: what is asked of the arguments (an element is on no list, or on
the list it should be on), that `f` returns without a fault, and what it returns: a record with
every field but `lists` given outright, and a heap that represents the sequences on the right.

The auxiliary definitions are those right-hand sides.  `woken`, `attached`, `detached`, `blocked`
and `asleep` are schedulers, and `wakeQueues`, `without` and `sleepQueues` are families of
sequences.  They are written so that what a later proof asks of them, who is on which list and in
which order, is a `simp` away.

`switchTask_cases` is the last one, and the most used: `switch_task` does nothing, or makes one
selected thread current and moves nobody.
-/

set_option autoImplicit false

namespace Chino

open Function (update)

/-- The sequences the scheduler's lists spell out. -/
abbrev Queues := ListId → List ThreadId

namespace Scheduler

/-- The bound `update_max_ready_priority` leaves behind. -/
def raise (m p : ThreadPriority) : ThreadPriority := if m.toNat < p.toNat then p else m

theorem raise_toNat (m p : ThreadPriority) : (raise m p).toNat = max m.toNat p.toNat := by
  unfold raise; split <;> omega

section Lists

variable {s : Scheduler} {L : Queues} {t : ThreadId}

/-! ## Unlinking -/

theorem unlinkThread_spec (hr : s.lists.Represents L) {l : ListId}
    (hl : listOf (s.thread t) = .ok l) (ht : t ∈ L l) :
    ∃ h', s.unlinkThread t = .ok { s with lists := h' } ∧
      h'.Represents (update L l ((L l).erase t)) := by
  obtain ⟨h', he, hr'⟩ := hr.remove_spec ht
  exact ⟨h', by simp [unlinkThread, hl, he, bind, Except.bind], hr'⟩

/-! ## Making threads ready -/

/-- A thread that was made ready, by a notification or by the clock. -/
def wakeThread (notified : Bool) (th : Thread) : Thread :=
  { th with status := .ready, waitAddress := if notified then none else th.waitAddress }

@[simp] theorem wakeThread_priority (b : Bool) (th : Thread) :
    (wakeThread b th).priority = th.priority := rfl

@[simp] theorem wakeThread_status (b : Bool) (th : Thread) :
    (wakeThread b th).status = .ready := rfl

@[simp] theorem wakeThread_attached (b : Bool) (th : Thread) :
    (wakeThread b th).attached = th.attached := rfl

@[simp] theorem wakeThread_wakeupTime (b : Bool) (th : Thread) :
    (wakeThread b th).wakeupTime = th.wakeupTime := rfl

@[simp] theorem listOf_wakeThread (b : Bool) (th : Thread) :
    listOf (wakeThread b th) = .ok (.ready th.priority) := rfl

@[simp] theorem wakeThread_wakeThread (b : Bool) (th : Thread) :
    wakeThread b (wakeThread b th) = wakeThread b th := by
  cases b <;> rfl

/-- The scheduler after the threads `ts` were made ready, up to the links. -/
def woken (s : Scheduler) (notified : Bool) (ts : List ThreadId)
    (h' : Heap ListId ThreadId) : Scheduler :=
  { s with
    lists := h'
    thread := fun t ↦ if t ∈ ts then wakeThread notified (s.thread t) else s.thread t
    maxReadyPriority := ts.foldl (fun m t ↦ raise m (s.thread t).priority) s.maxReadyPriority }

/-- The sequences after the threads `ts` moved from `src` to their ready lists. -/
def wakeQueues (s : Scheduler) (L : Queues) (src : ListId) (ts : List ThreadId) : Queues
  | .ready p => L (.ready p) ++ ts.filter fun t ↦ (s.thread t).priority = p
  | l => if l = src then (L l).filter (· ∉ ts) else L l

@[simp] theorem woken_thread (b : Bool) (ts : List ThreadId) (h' : Heap ListId ThreadId)
    (t : ThreadId) : (s.woken b ts h').thread t =
      if t ∈ ts then wakeThread b (s.thread t) else s.thread t := rfl

@[simp] theorem woken_lists (b : Bool) (ts : List ThreadId) (h' : Heap ListId ThreadId) :
    (s.woken b ts h').lists = h' := rfl

theorem woken_priority (b : Bool) (ts : List ThreadId) (h' : Heap ListId ThreadId)
    (t : ThreadId) : ((s.woken b ts h').thread t).priority = (s.thread t).priority := by
  rw [woken_thread]; split <;> rfl

theorem woken_nil (b : Bool) : s.woken b [] s.lists = s := by
  simp [woken]

theorem woken_woken (b : Bool) (ts us : List ThreadId) (h₁ h₂ : Heap ListId ThreadId) :
    (s.woken b ts h₁).woken b us h₂ = s.woken b (ts ++ us) h₂ := by
  have hthread : ((s.woken b ts h₁).woken b us h₂).thread = (s.woken b (ts ++ us) h₂).thread := by
    funext t
    simp only [woken_thread, List.mem_append]
    by_cases hu : t ∈ us <;> by_cases ht : t ∈ ts <;> simp [hu, ht]
  have hmax : ((s.woken b ts h₁).woken b us h₂).maxReadyPriority
      = (s.woken b (ts ++ us) h₂).maxReadyPriority := by
    simp only [woken, List.foldl_append]
    congr 1
    funext m t
    split <;> rfl
  exact congrArg₂ (fun th m ↦ { s with lists := h₂, thread := th, maxReadyPriority := m })
    hthread hmax

theorem wakeQueues_nil (src : ListId) : s.wakeQueues L src [] = L := by
  funext l; cases l <;> simp [wakeQueues]

theorem wakeQueues_append (b : Bool) (src : ListId) (ts us : List ThreadId)
    (h₁ : Heap ListId ThreadId) :
    (s.woken b ts h₁).wakeQueues (s.wakeQueues L src ts) src us
      = s.wakeQueues L src (ts ++ us) := by
  funext l
  cases l with
  | ready p => simp only [wakeQueues, woken_priority, List.filter_append, List.append_assoc]
  | blocked | delayed =>
    simp only [wakeQueues, List.mem_append, not_or]
    split
    · rw [List.filter_filter]
      exact List.filter_congr fun t _ ↦ by by_cases t ∈ ts <;> by_cases t ∈ us <;> simp [*]
    · rfl

/-- **Making one thread ready.** -/
theorem makeReady_spec (hr : s.lists.Represents L) {src : ListId} (hsrc : ∀ p, src ≠ .ready p)
    (ht : t ∈ L src) : ∃ h', s.makeReady src t = .ok (s.woken false [t] h') ∧
      h'.Represents (s.wakeQueues L src [t]) := by
  obtain ⟨h₁, he₁, hr₁⟩ := hr.remove_spec ht
  have hfree : ∀ l, t ∉ update L src ((L src).erase t) l := by
    intro l hl
    by_cases hls : l = src
    · subst hls
      rw [Function.update_self] at hl
      exact List.Nodup.not_mem_erase (hr.nodup l) hl
    · rw [Function.update_of_ne hls] at hl
      exact hls (hr.disjoint l src t hl ht)
  obtain ⟨h₂, he₂, hr₂⟩ := hr₁.pushBack_spec (l := .ready (s.thread t).priority) hfree
  refine ⟨h₂, ?_, ?_⟩
  · have hthread : update s.thread t { s.thread t with status := .ready }
        = fun u ↦ if u ∈ [t] then wakeThread false (s.thread u) else s.thread u := by
      funext u
      by_cases hu : u = t
      · subst hu; simp [wakeThread]
      · simp [hu]
    simp [makeReady, he₁, modifyThread, he₂, bind, Except.bind, woken,
      updateMaxReadyPriority, raise, hthread]
  · convert hr₂ using 1
    funext l
    by_cases hl : l = .ready (s.thread t).priority
    · subst hl
      simp [wakeQueues, Function.update_of_ne (hsrc _).symm]
    · rw [Function.update_of_ne hl]
      by_cases hls : l = src
      · subst hls
        rw [Function.update_self, (hr.nodup l).erase_eq_filter]
        cases l with
        | ready p => exact absurd rfl (hsrc p)
        | blocked | delayed =>
          simp only [wakeQueues, if_true]
          exact List.filter_congr fun u _ ↦ by by_cases u = t <;> simp [*]
      · rw [Function.update_of_ne hls]
        cases l with
        | ready p =>
          have hp : (s.thread t).priority ≠ p := fun he ↦ hl (by rw [he])
          simp [wakeQueues, hp]
        | blocked | delayed => simp [wakeQueues, hls]

/-! ## Notification -/

/-- The threads `unblock_local_threads` wakes, out of the blocked ones `zs`. -/
def notified (s : Scheduler) (a : Addr) (unblockAll : Bool) (zs : List ThreadId) :
    List ThreadId :=
  let ws := zs.filter fun t ↦ (s.thread t).waitAddress = some a
  if unblockAll then ws else ws.take 1

theorem mem_of_mem_notified {a : Addr} {all : Bool} {zs : List ThreadId}
    (h : t ∈ s.notified a all zs) : t ∈ zs ∧ (s.thread t).waitAddress = some a := by
  have : t ∈ zs.filter fun t ↦ (s.thread t).waitAddress = some a := by
    cases all with
    | true => exact h
    | false => exact List.mem_of_mem_take h
  simpa using this

/-- Clearing `wait_address` and making ready is one notification. -/
theorem makeReady_notified (hr : s.lists.Represents L) (ht : t ∈ L .blocked) :
    ∃ h', (s.modifyThread t fun th ↦ { th with waitAddress := none }).makeReady .blocked t
        = .ok (s.woken true [t] h') ∧ h'.Represents (s.wakeQueues L .blocked [t]) := by
  obtain ⟨h', he, hr'⟩ := makeReady_spec
    (s := s.modifyThread t fun th ↦ { th with waitAddress := none }) hr (by simp) ht
  refine ⟨h', he.trans (congrArg Except.ok ?_), ?_⟩
  · simp only [woken, modifyThread, Scheduler.mk.injEq, true_and, and_true]
    refine ⟨?_, by simp⟩
    funext u
    by_cases hu : u = t
    · subst hu; simp [wakeThread]
    · simp [hu]
  · convert hr' using 1
    funext l
    cases l with
    | ready p =>
      by_cases hp : (s.thread t).priority = p <;> simp [wakeQueues, modifyThread, hp]
    | blocked | delayed => rfl

/-- **The loop of `unblock_local_threads`** wakes the waiters of the address, or the first one. -/
theorem unblockLoop_spec {a : Addr} {all : Bool} {xs zs : List ThreadId} {n : ℕ} (ub : Bool)
    (hr : s.lists.Represents L) (hL : L .blocked = xs ++ zs) (hn : zs.length ≤ n) :
    ∃ h', unblockLoop a all n zs.head? s ub
        = .ok (s.woken true (s.notified a all zs) h', ub || !(s.notified a all zs).isEmpty) ∧
      h'.Represents (s.wakeQueues L .blocked (s.notified a all zs)) := by
  induction zs generalizing s L xs n ub with
  | nil =>
    have hnil : s.notified a all [] = [] := by cases all <;> rfl
    refine ⟨s.lists, ?_, ?_⟩
    · cases n <;> simp [unblockLoop, hnil, woken_nil]
    · rwa [hnil, wakeQueues_nil]
  | cons t zs ih =>
    obtain ⟨n, rfl⟩ : ∃ m, n = m + 1 := ⟨n - 1, by simp at hn; omega⟩
    have hn' : zs.length ≤ n := by simpa using hn
    have hnext : s.lists.nextOf .blocked t = zs.head? := hr.nextOf_eq hL
    by_cases ha : (s.thread t).waitAddress = some a
    · have htm : t ∈ L .blocked := by simp [hL]
      obtain ⟨h₁, he₁, hr₁⟩ := makeReady_notified hr htm
      have hnd : (xs ++ t :: zs).Nodup := hL ▸ hr.nodup .blocked
      have htz : t ∉ xs ++ zs := (List.nodup_cons.mp (List.nodup_middle.mp hnd)).1
      cases all with
      | false =>
        have hone : s.notified a false (t :: zs) = [t] := by simp [notified, ha]
        exact ⟨h₁, by simp [unblockLoop, ha, he₁, hone, bind, Except.bind], hone ▸ hr₁⟩
      | true =>
        have hL₁ : s.wakeQueues L .blocked [t] .blocked = xs ++ zs := by
          have hkeep : (xs ++ zs).filter (· ∉ [t]) = xs ++ zs :=
            List.filter_eq_self.mpr fun u hu ↦ by
              have : u ≠ t := fun he ↦ htz (he ▸ hu)
              simpa using this
          simpa [wakeQueues, hL, List.filter_append] using hkeep
        obtain ⟨h₂, he₂, hr₂⟩ := ih (s := s.woken true [t] h₁) true hr₁ hL₁ hn'
        have hsame : (s.woken true [t] h₁).notified a true zs = s.notified a true zs := by
          simp only [notified, if_true]
          refine List.filter_congr fun u hu ↦ ?_
          have : u ≠ t := fun he ↦ htz (by simp [← he, hu])
          simp [this]
        have hcons : s.notified a true (t :: zs) = [t] ++ s.notified a true zs := by
          simp [notified, ha]
        rw [hsame, woken_woken] at he₂
        rw [hsame, wakeQueues_append] at hr₂
        refine ⟨h₂, ?_, hcons ▸ hr₂⟩
        simp [unblockLoop, ha, he₁, hnext, he₂, hcons, bind, Except.bind]
    · have hskip : s.notified a all (t :: zs) = s.notified a all zs := by simp [notified, ha]
      have hL' : L .blocked = (xs ++ [t]) ++ zs := by simp [hL]
      obtain ⟨h', he, hr'⟩ := ih ub hr hL' hn'
      refine ⟨h', ?_, hskip ▸ hr'⟩
      simp [unblockLoop, ha, hnext, he, hskip]

/-- `unblock_local_threads`, up to the links. -/
def unblocked (s : Scheduler) (a : Addr) (all : Bool) (zs : List ThreadId)
    (h' : Heap ListId ThreadId) : Scheduler :=
  { s.woken true (s.notified a all zs) h' with
    yieldRequests := if (s.notified a all zs).isEmpty then s.yieldRequests
      else s.yieldRequests + 1 }

theorem unblocked_thread (a : Addr) (all : Bool) (zs : List ThreadId) (h' : Heap ListId ThreadId)
    (u : ThreadId) : (s.unblocked a all zs h').thread u =
      if u ∈ s.notified a all zs then wakeThread true (s.thread u) else s.thread u := rfl

theorem unblockLocalThreads_spec (a : Addr) (all : Bool) (hr : s.lists.Represents L) :
    ∃ h', s.unblockLocalThreads a all = .ok (s.unblocked a all (L .blocked) h') ∧
      h'.Represents (s.wakeQueues L .blocked (s.notified a all (L .blocked))) := by
  have hL : L .blocked = [] ++ L .blocked := rfl
  have hn : (L .blocked).length ≤ s.lists.size .blocked := by rw [hr.size]
  obtain ⟨h', he, hr'⟩ := unblockLoop_spec false hr hL hn
  refine ⟨h', ?_, hr'⟩
  rw [← hr.front_eq] at he
  simp only [unblockLocalThreads, he, bind, Except.bind, Bool.false_or]
  cases hn : (s.notified a all (L .blocked)).isEmpty <;> simp [unblocked, hn, woken]

/-! ## The clock -/

/-- The threads `wakeup_delayed_threads` wakes: the due ones at the head of the list. -/
def due (s : Scheduler) (zs : List ThreadId) : List ThreadId :=
  zs.takeWhile fun t ↦ (s.thread t).wakeupTime ≤ s.now

theorem wakeupLoop_spec {zs : List ThreadId} {n : ℕ} (hr : s.lists.Represents L)
    (hL : L .delayed = zs) (hn : zs.length ≤ n) :
    ∃ h', wakeupLoop s.now n zs.head? s = .ok (s.woken false (s.due zs) h') ∧
      h'.Represents (s.wakeQueues L .delayed (s.due zs)) := by
  induction zs generalizing s L n with
  | nil =>
    refine ⟨s.lists, ?_, by rwa [due, List.takeWhile_nil, wakeQueues_nil]⟩
    cases n <;> simp [wakeupLoop, due, woken_nil]
  | cons t zs ih =>
    obtain ⟨n, rfl⟩ : ∃ m, n = m + 1 := ⟨n - 1, by simp at hn; omega⟩
    have hn' : zs.length ≤ n := by simpa using hn
    by_cases hd : (s.thread t).wakeupTime ≤ s.now
    · have hnext : s.lists.nextOf .delayed t = zs.head? :=
        hr.nextOf_eq (hL.trans (List.nil_append _).symm)
      have htm : t ∈ L .delayed := by simp [hL]
      obtain ⟨h₁, he₁, hr₁⟩ := makeReady_spec hr (by simp) htm
      have htz : t ∉ zs := (List.nodup_cons.mp (hL ▸ hr.nodup .delayed)).1
      have hL₁ : s.wakeQueues L .delayed [t] .delayed = zs := by
        have hkeep : zs.filter (· ∉ [t]) = zs :=
          List.filter_eq_self.mpr fun u hu ↦ by
            have : u ≠ t := fun he ↦ htz (he ▸ hu)
            simpa using this
        simpa [wakeQueues, hL] using hkeep
      obtain ⟨h₂, he₂, hr₂⟩ := ih (s := s.woken false [t] h₁) hr₁ hL₁ hn'
      have hsame : (s.woken false [t] h₁).due zs = s.due zs := by
        have hfun : ∀ u, ((s.woken false [t] h₁).thread u).wakeupTime
            = (s.thread u).wakeupTime := fun u ↦ by rw [woken_thread]; split <;> rfl
        simp only [due, hfun]
        rfl
      have hcons : s.due (t :: zs) = [t] ++ s.due zs := by simp [due, hd]
      rw [hsame, woken_woken] at he₂
      rw [hsame, wakeQueues_append] at hr₂
      refine ⟨h₂, ?_, hcons ▸ hr₂⟩
      have he₂' : wakeupLoop s.now n zs.head? (s.woken false [t] h₁)
          = .ok (s.woken false ([t] ++ s.due zs) h₂) := he₂
      simp [wakeupLoop, hd, he₁, hnext, he₂', hcons, bind, Except.bind]
    · have hnone : s.due (t :: zs) = [] := by simp [due, hd]
      refine ⟨s.lists, ?_, by rwa [hnone, wakeQueues_nil]⟩
      simp [wakeupLoop, hd, hnone, woken_nil]

theorem wakeupDelayedThreads_spec (hr : s.lists.Represents L) :
    ∃ h', s.wakeupDelayedThreads = .ok (s.woken false (s.due (L .delayed)) h') ∧
      h'.Represents (s.wakeQueues L .delayed (s.due (L .delayed))) := by
  obtain ⟨h', he, hr'⟩ := wakeupLoop_spec (n := s.lists.size .delayed) hr rfl (by rw [hr.size])
  exact ⟨h', by rw [wakeupDelayedThreads, hr.front_eq, he], hr'⟩

/-! ## Going to sleep -/

/-- Where `add_to_delay_list` puts a thread that is due at `w`: the head of the list is skipped
whatever its time is. -/
def insertDelayed (s : Scheduler) (w : Nanoseconds) (t : ThreadId) : List ThreadId → List ThreadId
  | [] => [t]
  | p :: zs => p :: (zs.takeWhile (fun u ↦ (s.thread u).wakeupTime ≤ w) ++
      t :: zs.dropWhile fun u ↦ (s.thread u).wakeupTime ≤ w)

theorem mem_insertDelayed {w : Nanoseconds} {u : ThreadId} {zs : List ThreadId} :
    u ∈ s.insertDelayed w t zs ↔ u = t ∨ u ∈ zs := by
  cases zs with
  | nil => simp [insertDelayed]
  | cons p zs =>
    have h : ∀ u, u ∈ zs ↔ u ∈ zs.takeWhile (fun u ↦ (s.thread u).wakeupTime ≤ w) ∨
        u ∈ zs.dropWhile fun u ↦ (s.thread u).wakeupTime ≤ w := fun u ↦ by
      rw [← List.mem_append, List.takeWhile_append_dropWhile]
    simp only [insertDelayed, List.mem_cons, List.mem_append, h u]
    tauto

/-- The pivot the loop stops at is the last thread before the insertion point. -/
theorem delayPivot_spec {w : Nanoseconds} {n : ℕ} {p : ThreadId} {xs zs : List ThreadId}
    (hr : s.lists.Represents L) (hL : L .delayed = xs ++ p :: zs) (hn : zs.length < n) :
    ∃ ys q, s.delayPivot w n p = .ok q ∧
      p :: zs.takeWhile (fun u ↦ (s.thread u).wakeupTime ≤ w) = ys ++ [q] := by
  induction zs generalizing p xs n with
  | nil =>
    obtain ⟨n, rfl⟩ : ∃ m, n = m + 1 := ⟨n - 1, by simp at hn; omega⟩
    have hnext : s.lists.nextOf .delayed p = none := hr.nextOf_eq hL
    exact ⟨[], p, by simp [delayPivot, hnext], rfl⟩
  | cons z zs ih =>
    obtain ⟨n, rfl⟩ : ∃ m, n = m + 1 := ⟨n - 1, by simp at hn; omega⟩
    have hnext : s.lists.nextOf .delayed p = some z := hr.nextOf_eq hL
    by_cases hz : (s.thread z).wakeupTime ≤ w
    · have hL' : L .delayed = (xs ++ [p]) ++ z :: zs := by simp [hL]
      obtain ⟨ys, q, he, hq⟩ := ih hL' (by simpa using hn)
      refine ⟨p :: ys, q, by simp [delayPivot, hnext, hz, he], ?_⟩
      rw [List.takeWhile_cons_of_pos (by simpa using hz), hq]
      rfl
    · refine ⟨[], p, by simp [delayPivot, hnext, hz], ?_⟩
      rw [List.takeWhile_cons_of_neg (by simpa using hz)]
      rfl

/-- A thread after `add_to_delay_list`. -/
def sleepThread (w : Nanoseconds) (th : Thread) : Thread :=
  { th with wakeupTime := w, status := .delayed }

theorem addToDelayList_spec (timeout : Nanoseconds) (hr : s.lists.Represents L)
    (ht : ∀ l, t ∉ L l) :
    ∃ h', s.addToDelayList t timeout
        = .ok ({ s with lists := h' }.modifyThread t (sleepThread (s.now.add timeout))) ∧
      h'.Represents
        (update L .delayed (s.insertDelayed (s.now.add timeout) t (L .delayed))) := by
  cases hd : L .delayed with
  | nil =>
    obtain ⟨h', he, hr'⟩ := hr.pushFront_spec (l := .delayed) ht
    have hf : s.lists.front .delayed = none := by rw [hr.front_eq, hd]; rfl
    refine ⟨h', ?_, by rwa [hd] at hr'⟩
    simp only [addToDelayList, hf, he, bind, Except.bind, linkOp_some]
    rfl
  | cons p zs =>
    have hf : s.lists.front .delayed = some p := by rw [hr.front_eq, hd]; rfl
    obtain ⟨ys, q, he, hq⟩ := delayPivot_spec (w := s.now.add timeout)
      (n := s.lists.size .delayed) hr (hd.trans (List.nil_append _).symm)
      (by rw [hr.size, hd]; simp)
    have hsplit : L .delayed = ys ++ q :: zs.dropWhile fun u ↦
        (s.thread u).wakeupTime ≤ s.now.add timeout := by
      rw [hd, ← List.singleton_append (x := q), ← List.append_assoc, ← hq, List.cons_append,
        List.takeWhile_append_dropWhile]
    obtain ⟨h', he', hr'⟩ := hr.insertAfter_spec hsplit ht
    refine ⟨h', ?_, ?_⟩
    · simp only [addToDelayList, hf, he, he', bind, Except.bind, linkOp_some]
      rfl
    · convert hr' using 2
      rw [insertDelayed, ← List.cons_append, hq, List.append_assoc, List.singleton_append]

/-! ## Searching the ready lists -/

theorem tryReady_nonempty (hr : s.lists.Represents L) {p : ThreadPriority}
    (hp : L (.ready p) ≠ []) (rest : Except Fault (Option ThreadId)) :
    tryReady s.lists p.toNat rest = .ok (L (.ready p)).head? := by
  have : s.lists.isEmpty (.ready p) = false := by
    rw [← Bool.not_eq_true, hr.isEmpty_iff]; exact hp
  simp [tryReady, this, hr.front_eq]

theorem tryReady_empty (hr : s.lists.Represents L) {p : ThreadPriority}
    (hp : L (.ready p) = []) (rest : Except Fault (Option ThreadId)) :
    tryReady s.lists p.toNat rest = rest := by
  have : s.lists.isEmpty (.ready p) = true := (hr.isEmpty_iff _).mpr hp
  simp [tryReady, this]

/-- **The search of the ready lists** between `low` and the priority `m`: the front of the highest
list with a thread in it, or, if there is none, nothing when `low` stops the loop and an index
below zero when it does not. -/
theorem searchReady_cases (hr : s.lists.Represents L) (low : ℕ) :
    ∀ (i : ℕ) (m : ThreadPriority), m.toNat = i →
    (∃ p, low ≤ p.toNat ∧ p.toNat ≤ i ∧ L (.ready p) ≠ [] ∧
      (∀ q, p.toNat < q.toNat → q.toNat ≤ i → L (.ready q) = []) ∧
      searchReady s.lists low i = .ok (L (.ready p)).head?) ∨
    ((∀ q, low ≤ q.toNat → q.toNat ≤ i → L (.ready q) = []) ∧
      searchReady s.lists low i = if low = 0 then .error .readyIndex else .ok none)
  | 0, m, hm => by
    by_cases hlow : low = 0
    · subst hlow
      by_cases he : L (.ready m) = []
      · refine Or.inr ⟨fun q _ hq ↦ ?_, ?_⟩
        · rwa [ThreadPriority.toNat_injective (p := q) (q := m) (by omega)]
        · simp [searchReady, ← hm, tryReady_empty hr he]
      · refine Or.inl ⟨m, by omega, by omega, he, fun q _ _ ↦ by omega, ?_⟩
        simp [searchReady, ← hm, tryReady_nonempty hr he]
    · exact Or.inr ⟨fun q _ _ ↦ by omega, by simp [searchReady, hlow, Nat.pos_of_ne_zero hlow]⟩
  | i + 1, m, hm => by
    by_cases hlow : i + 1 < low
    · refine Or.inr ⟨fun q _ _ ↦ by omega, ?_⟩
      rw [searchReady, if_pos hlow, if_neg (by omega)]
    by_cases he : L (.ready m) = []
    · have hstep : searchReady s.lists low (i + 1) = searchReady s.lists low i := by
        rw [searchReady, if_neg hlow, ← hm, tryReady_empty hr he]
      have heq : ∀ q : ThreadPriority, q.toNat = i + 1 → L (.ready q) = [] := fun q hq ↦ by
        rwa [ThreadPriority.toNat_injective (p := q) (q := m) (by omega)]
      obtain ⟨m', hm'⟩ := ThreadPriority.exists_toNat (n := i) (by have := m.toNat_le; omega)
      rcases searchReady_cases hr low i m' hm' with ⟨p, h1, h2, h3, h4, h5⟩ | ⟨h1, h2⟩
      · refine Or.inl ⟨p, h1, by omega, h3, fun q hq hqi ↦ ?_, hstep.trans h5⟩
        rcases Nat.lt_or_ge q.toNat (i + 1) with hlt | hge
        · exact h4 q hq (by omega)
        · exact heq q (by omega)
      · refine Or.inr ⟨fun q hq hqi ↦ ?_, hstep.trans h2⟩
        rcases Nat.lt_or_ge q.toNat (i + 1) with hlt | hge
        · exact h1 q hq (by omega)
        · exact heq q (by omega)
    · refine Or.inl ⟨m, by omega, by omega, he, fun q _ _ ↦ by omega, ?_⟩
      rw [searchReady, if_neg hlow, ← hm, tryReady_nonempty hr he]

/-! ## The operations of a thread on itself -/

/-- The sequences after `t` was taken off `l`. -/
def without (L : Queues) (l : ListId) (t : ThreadId) : Queues := update L l ((L l).erase t)

theorem mem_without (hr : s.lists.Represents L) {l l' : ListId} {t u : ThreadId} (ht : t ∈ L l) :
    u ∈ without L l t l' ↔ u ≠ t ∧ u ∈ L l' := by
  by_cases hl : l' = l
  · subst hl
    rw [without, Function.update_self, (hr.nodup l').mem_erase_iff]
  · rw [without, Function.update_of_ne hl]
    exact ⟨fun h ↦ ⟨fun he ↦ hl (hr.disjoint l' l t (he ▸ h) ht), h⟩, And.right⟩

theorem without_sublist (L : Queues) (l : ListId) (t : ThreadId) (l' : ListId) :
    (without L l t l').Sublist (L l') := by
  by_cases hl : l' = l
  · subst hl; rw [without, Function.update_self]; exact List.erase_sublist
  · rw [without, Function.update_of_ne hl]

/-- A scheduler after `attach_thread`, up to the links. -/
def attached (s : Scheduler) (t : ThreadId) (h' : Heap ListId ThreadId) : Scheduler :=
  { s with
    lists := h'
    thread := update s.thread t { s.thread t with attached := true, status := .ready }
    maxReadyPriority := raise s.maxReadyPriority (s.thread t).priority }

theorem attachThread_spec (hr : s.lists.Represents L) (ht : ∀ l, t ∉ L l)
    (hs : (s.thread t).status = .ready) :
    ∃ h', s.attachThread t = .ok (s.attached t h') ∧
      h'.Represents (update L (.ready (s.thread t).priority)
        (L (.ready (s.thread t).priority) ++ [t])) := by
  obtain ⟨h', he, hr'⟩ := hr.pushBack_spec (l := .ready (s.thread t).priority) ht
  have hl : listOf (s.thread t) = .ok (.ready (s.thread t).priority) := by simp [listOf, hs]
  refine ⟨h', ?_, hr'⟩
  simp only [attachThread, hl, he, bind, Except.bind, linkOp_some]
  rfl

/-- A scheduler after `detach_thread`, up to the links. -/
def detached (s : Scheduler) (t : ThreadId) (h' : Heap ListId ThreadId) : Scheduler :=
  { s with
    lists := h'
    thread := update s.thread t { s.thread t with attached := false }
    maxReadyPriority :=
      if (s.thread t).priority = s.maxReadyPriority then .idle else s.maxReadyPriority }

theorem detachThread_spec (hr : s.lists.Represents L) {l : ListId}
    (hl : listOf (s.thread t) = .ok l) (ht : t ∈ L l) :
    ∃ h', s.detachThread t = .ok (s.detached t h') ∧ h'.Represents (without L l t) := by
  obtain ⟨h', he, hr'⟩ := unlinkThread_spec hr hl ht
  refine ⟨h', ?_, hr'⟩
  simp only [detachThread, he, bind, Except.bind, modifyThread, Function.update_self]
  by_cases hp : (s.thread t).priority = s.maxReadyPriority <;> simp [detached, hp]

/-- A scheduler after an untimed `block_current_thread`, up to the links. -/
def blocked (s : Scheduler) (t : ThreadId) (a : Addr) (h' : Heap ListId ThreadId) : Scheduler :=
  { s with
    lists := h'
    thread := update s.thread t { s.thread t with waitAddress := some a, status := .blocked } }

/-- The thread `t` with a new `wait_address`. -/
def waiting (s : Scheduler) (t : ThreadId) (a : Addr) : Scheduler :=
  s.modifyThread t fun th ↦ { th with waitAddress := some a }

/-- A scheduler after `add_to_delay_list`, up to the links. -/
def asleep (s : Scheduler) (t : ThreadId) (w : Nanoseconds) (h' : Heap ListId ThreadId) :
    Scheduler :=
  { s with lists := h', thread := update s.thread t (sleepThread w (s.thread t)) }

theorem asleep_waiting_thread (a : Addr) (w : Nanoseconds) (h' : Heap ListId ThreadId) :
    ((s.waiting t a).asleep t w h').thread
      = update s.thread t (sleepThread w { s.thread t with waitAddress := some a }) := by
  simp [asleep, waiting, modifyThread]

/-- The sequences after `t` went from `l` to sleep until `w`. -/
def sleepQueues (s : Scheduler) (L : Queues) (l : ListId) (t : ThreadId) (w : Nanoseconds) :
    Queues :=
  update (without L l t) .delayed (s.insertDelayed w t (without L l t .delayed))

theorem not_mem_without (hr : s.lists.Represents L) {l : ListId} (ht : t ∈ L l) (l' : ListId) :
    t ∉ without L l t l' := fun h ↦ ((mem_without hr ht).mp h).1 rfl

theorem delayThread_spec (timeout : Nanoseconds) (hr : s.lists.Represents L) {l : ListId}
    (hl : listOf (s.thread t) = .ok l) (ht : t ∈ L l) :
    ∃ h', s.delayThread t timeout = .ok (s.asleep t (s.now.add timeout) h') ∧
      h'.Represents (s.sleepQueues L l t (s.now.add timeout)) := by
  obtain ⟨h₁, he₁, hr₁⟩ := unlinkThread_spec hr hl ht
  obtain ⟨h₂, he₂, hr₂⟩ := addToDelayList_spec (s := { s with lists := h₁ }) (t := t) timeout hr₁
    (not_mem_without hr ht)
  exact ⟨h₂, by simp only [delayThread, he₁, bind, Except.bind]; exact he₂, hr₂⟩

theorem blockThread_none_spec (a : Addr) (hr : s.lists.Represents L) {l : ListId}
    (hl : listOf (s.thread t) = .ok l) (ht : t ∈ L l) :
    ∃ h', s.blockThread t a none = .ok (s.blocked t a h') ∧
      h'.Represents (update (without L l t) .blocked (without L l t .blocked ++ [t])) := by
  have hl' : listOf ((s.waiting t a).thread t) = .ok l := by
    simpa [waiting, modifyThread, listOf] using hl
  obtain ⟨h₁, he₁, hr₁⟩ := unlinkThread_spec (s := s.waiting t a) hr hl' ht
  obtain ⟨h₂, he₂, hr₂⟩ := hr₁.pushBack_spec (l := .blocked) (not_mem_without hr ht)
  refine ⟨h₂, ?_, hr₂⟩
  have he₁' : (s.modifyThread t fun th ↦ { th with waitAddress := some a }).unlinkThread t
      = .ok { s.waiting t a with lists := h₁ } := he₁
  simp only [blockThread, he₁', he₂, bind, Except.bind, linkOp_some]
  simp [blocked, waiting, modifyThread]

theorem blockThread_some_spec (a : Addr) (timeout : Nanoseconds) (hr : s.lists.Represents L)
    {l : ListId} (hl : listOf (s.thread t) = .ok l) (ht : t ∈ L l) :
    ∃ h', s.blockThread t a (some timeout)
        = .ok ((s.waiting t a).asleep t (s.now.add timeout) h') ∧
      h'.Represents ((s.waiting t a).sleepQueues L l t (s.now.add timeout)) := by
  have hl' : listOf ((s.waiting t a).thread t) = .ok l := by
    simpa [waiting, modifyThread, listOf] using hl
  exact delayThread_spec (s := s.waiting t a) timeout hr hl' ht

/-! ## Switching -/

/-- A scheduler after `set_current_thread`, when that changes the current thread. -/
def switched (s : Scheduler) (cnt next : ThreadId) : Scheduler :=
  let th := if (s.thread cnt).status = .running then
      update s.thread cnt { s.thread cnt with status := .ready } else s.thread
  { s with
    thread := update th next { th next with status := .running }
    maxReadyPriority := (s.thread next).priority
    current := some next }

theorem setCurrentThread_eq {cnt next : ThreadId} (hc : s.current = some cnt) (hne : cnt ≠ next) :
    s.setCurrentThread next = .ok (s.switched cnt next) := by
  simp only [setCurrentThread, currentThread, hc, bind, Except.bind, if_pos hne, modifyThread]
  by_cases hrun : (s.thread cnt).status = .running <;> simp [switched, hrun, Ne.symm hne]

theorem switched_thread {cnt next u : ThreadId} :
    (s.switched cnt next).thread u =
      if u = next then { s.thread u with status := .running }
      else if u = cnt ∧ (s.thread cnt).status = .running then { s.thread u with status := .ready }
      else s.thread u := by
  by_cases hrun : (s.thread cnt).status = .running <;> by_cases hn : u = next <;>
    by_cases hc : u = cnt <;> simp_all [switched, Function.update_apply]

theorem switchTask_locked (h : s.lockDepth ≠ 0) : s.switchTask = .ok s := by
  simp [switchTask, h]

theorem switchTask_stay {cnt : ThreadId} (hc : s.current = some cnt)
    (hsel : s.selectNextThread = .ok cnt) : s.switchTask = .ok s := by
  simp [switchTask, currentThread, hc, hsel, bind, Except.bind]

theorem switchTask_move {cnt next : ThreadId} (hlock : s.lockDepth = 0) (hc : s.current = some cnt)
    (hsel : s.selectNextThread = .ok next) (hne : cnt ≠ next) :
    s.switchTask = .ok (s.switched cnt next) := by
  have hset := setCurrentThread_eq hc hne
  rw [switchTask, if_pos hlock]
  simp only [currentThread, hc, hsel, bind, Except.bind, if_pos (Ne.symm hne)]
  exact hset

/-- An unlocked `switch_task` that returns has selected a thread. -/
theorem selectNextThread_of_switchTask {s' : Scheduler} (hlock : s.lockDepth = 0)
    (h : s.switchTask = .ok s') :
    ∃ cnt next, s.current = some cnt ∧ s.selectNextThread = .ok next := by
  cases hc : s.current with
  | none => simp [switchTask, hlock, currentThread, hc, bind, Except.bind] at h
  | some cnt =>
    cases hsel : s.selectNextThread with
    | error f => simp [switchTask, hlock, currentThread, hc, hsel, bind, Except.bind] at h
    | ok next => exact ⟨cnt, next, rfl, rfl⟩

/-- **What `switch_task` can do**: nothing, or make another selected thread current. -/
theorem switchTask_cases {s' : Scheduler} (h : s.switchTask = .ok s') :
    s' = s ∨ ∃ cnt next, s.lockDepth = 0 ∧ s.current = some cnt ∧ cnt ≠ next ∧
      s.selectNextThread = .ok next ∧ s' = s.switched cnt next := by
  by_cases hlock : s.lockDepth = 0
  · obtain ⟨cnt, next, hc, hsel⟩ := selectNextThread_of_switchTask hlock h
    by_cases hne : cnt = next
    · subst hne
      rw [switchTask_stay hc hsel] at h
      exact Or.inl (by cases h; rfl)
    · rw [switchTask_move hlock hc hsel hne] at h
      exact Or.inr ⟨cnt, next, hlock, hc, hne, hsel, by cases h; rfl⟩
  · rw [switchTask_locked hlock] at h
    exact Or.inl (by cases h; rfl)

/-- A switch moves nobody between lists and makes the selected thread current. -/
theorem switchTask_selected {cnt next : ThreadId} (hlock : s.lockDepth = 0)
    (hc : s.current = some cnt) (hsel : s.selectNextThread = .ok next) :
    ∃ s', s.switchTask = .ok s' ∧ s'.current = some next ∧ s'.lists = s.lists ∧
      (∀ u, (s'.thread u).priority = (s.thread u).priority ∧
        (s'.thread u).attached = (s.thread u).attached) ∧
      (cnt = next ∧ s' = s ∨ s'.maxReadyPriority = (s.thread next).priority) := by
  by_cases hne : cnt = next
  · subst hne
    exact ⟨s, switchTask_stay hc hsel, hc, rfl, fun _ ↦ ⟨rfl, rfl⟩, Or.inl ⟨rfl, rfl⟩⟩
  · refine ⟨_, switchTask_move hlock hc hsel hne, rfl, rfl, fun u ↦ ?_, Or.inr rfl⟩
    rw [switched_thread]
    split
    · exact ⟨rfl, rfl⟩
    · split <;> exact ⟨rfl, rfl⟩

/-- The outcome of a search: a null thread fails the assertion. -/
def chosen : Option ThreadId → Except Fault ThreadId
  | none => .error .nullThread
  | some t => .ok t

theorem mem_of_chosen {zs : List ThreadId} {n : ThreadId} (h : chosen zs.head? = .ok n) :
    n ∈ zs := by
  cases hz : zs.head? with
  | none => rw [hz] at h; cases h
  | some t => rw [hz] at h; cases h; exact List.mem_of_head? hz

/-- Where the search of `select_next_thread` ends. -/
def searchBound (th : Thread) : ℕ := if th.status ≠ .running then 0 else th.priority.toNat

/-- A thread that is not running, or that a higher bound may preempt, starts a search. -/
theorem selectNextThread_search {cnt : ThreadId} (hc : s.current = some cnt)
    (hb : s.maxReadyPriority.toNat > (s.thread cnt).priority.toNat ∨
      (s.thread cnt).status ≠ .running) :
    s.selectNextThread
      = (searchReady s.lists (searchBound (s.thread cnt)) s.maxReadyPriority.toNat).bind chosen := by
  simp only [selectNextThread, currentThread, hc, bind, Except.bind, if_pos hb]
  rfl

/-- Otherwise the next thread of the same list is taken, round the ring. -/
theorem selectNextThread_roundRobin {cnt : ThreadId} {xs ys : List ThreadId}
    (hr : s.lists.Represents L) (hc : s.current = some cnt)
    (hrun : (s.thread cnt).status = .running)
    (hmax : s.maxReadyPriority.toNat ≤ (s.thread cnt).priority.toNat)
    (hL : L (.ready (s.thread cnt).priority) = xs ++ cnt :: ys) :
    s.selectNextThread = .ok ((ys ++ (xs ++ [cnt])).head (by simp)) := by
  have hb : ¬ (s.maxReadyPriority.toNat > (s.thread cnt).priority.toNat ∨
      (s.thread cnt).status ≠ .running) := by simp [hrun]; omega
  have hl : listOf (s.thread cnt) = .ok (.ready (s.thread cnt).priority) := by simp [listOf, hrun]
  have hnext := hr.nextOf_eq hL
  have hfront := hr.front_eq (.ready (s.thread cnt).priority)
  simp only [selectNextThread, currentThread, hc, bind, Except.bind, if_neg hb, hl, hnext]
  cases ys with
  | nil => cases xs <;> simp [hfront, hL]
  | cons y ys => simp

/-- A current thread that has been detached has no successor; the list it was on starts anew. -/
theorem selectNextThread_orphan {cnt : ThreadId} (hr : s.lists.Represents L)
    (hc : s.current = some cnt) (hrun : (s.thread cnt).status = .running)
    (hmax : s.maxReadyPriority.toNat ≤ (s.thread cnt).priority.toNat)
    (hfree : ∀ l, cnt ∉ L l) :
    s.selectNextThread = chosen (L (.ready (s.thread cnt).priority)).head? := by
  have hb : ¬ (s.maxReadyPriority.toNat > (s.thread cnt).priority.toNat ∨
      (s.thread cnt).status ≠ .running) := by simp [hrun]; omega
  have hl : listOf (s.thread cnt) = .ok (.ready (s.thread cnt).priority) := by simp [listOf, hrun]
  simp only [selectNextThread, currentThread, hc, bind, Except.bind, if_neg hb, hl,
    hr.nextOf_free hfree, hr.front_eq]
  rfl

end Lists

end Scheduler

end Chino
