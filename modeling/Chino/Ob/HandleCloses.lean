import Chino.Ob.HandleThreads

/-!
# Closes of one handle

Two threads that are in `close_handle` of one handle at the same time both see it alive if the
second one checks the entry before the first has cleared the pointer.  What has to be excluded for
only one of them to succeed is said by `StillHolds`; this module draws the conclusion.

The element of a handle has at most one use at a time, and a close ends the use that it finds.  Once
it has, every other close in progress has been called in a use that is over (`Overtaken`): `called`
is below `pushed` for it, and the entry stays free, as no `alloc_handle` takes it before that close
has come to its end.  So it can only fail (`Contender`).

`handles_atomic` puts this next to what the invariant of `Chino.Ob.HandleThreads` says about the
references and the free list.

## The proof

The statement is about a state in which both threads are in `close_handle` of the same entry,
whatever they have done so far, and about every continuation of the run in which neither of them
makes another call (`Continues`).

* At first neither has succeeded, and at most one of them owns the element, by the invariant.
* The first one that clears the pointer and pushes the element ends the use.  From then on the other
  one is `Overtaken`.
* An overtaken close finds the entry free or its own check out of date; `StillHolds` excludes that
  it goes on with the pointer of a later use, because `alloc_handle` does not take the element
  meanwhile (`NoneLate`).

The condition about `alloc_handle` is needed: a close that has checked the entry and sleeps may find
it used again when it wakes up, and close it a second time.
-/

set_option autoImplicit false

namespace Chino

open Function (update)

open ObjectSegment (elementsCount)

/-- The thread calls an operation. -/
def ThreadAction.Calls (t : ℕ) : ThreadAction → Prop
  | allocHandle u .. | closeHandle u _ | referenceObject u _ => u = t
  | step _ | release _ => False

namespace HandleThreads

variable {N : ℕ} {phase : ℕ → Phase} {p : Phase} {s s' : HandleThreads} {t u i j : ℕ}
  {c c' : HandleCall} {refs : ℕ → UInt32} {isA : ℕ → Bool} {address : ℕ} {a : ThreadAction}

/-! ## The uses of an element -/

/-- How a step of a call changes the uses of the elements. -/
inductive UseEffect (s s' : HandleThreads) (c c' : HandleCall) : Prop
  | takes {object : ObjectAddress} {m : AccessMask} (hc : c = .allocate object m)
      (hdone : c' ≠ .done .closed) (hhead : s.pool.freeHead ≠ 0)
      (hpop : s'.popped = increment s.popped (s.pool.index s.pool.freeHead))
      (hpush : s'.pushed = s.pushed)
  | pushes {i : ℕ} (hc : c = .push i) (hpop : s'.popped = s.popped)
      (hpush : s'.pushed = increment s.pushed i)
  | keeps (hpop : s'.popped = s.popped) (hpush : s'.pushed = s.pushed) (hdone : c' ≠ .done .closed)

theorem check_eq {fd : ℤ} (h : s.check fd = .ok i) : (HandleCall.close fd).closes? = some i := by
  unfold check HandleTable.entryAt at h
  split at h
  · cases h
  · rename_i hfd
    simp only [ObjectSegment.atWithSegment] at h
    split at h
    · cases h
    · simp only [ObjectSegment.entryAt] at h
      split at h
      · cases h
      · cases h
        rw [ObjectSegment.index_elementAddress]
        exact if_pos (not_lt.mp hfd)

/-- What a step of a call does, as far as the closes are concerned. -/
structure Moves (s s' : HandleThreads) (c c' : HandleCall) : Prop where
  called : s'.called = s.called
  thread : s'.thread = s.thread
  going : ∀ r, c ≠ .done r
  /-- A close goes on with its entry until it is done. -/
  closes : c'.closes? = c.closes? ∨ ∃ r, c' = .done r
  uses : s.UseEffect s' c c'

theorem moves_of_advance (h : s.advance isA c = some (s', c')) : s.Moves s' c c' := by
  cases c with
  | allocate object m =>
    obtain ⟨⟨r, pool⟩, hp, h⟩ := Option.bind_eq_some_iff.mp h
    cases r with
    | error e =>
      cases h
      exact ⟨rfl, rfl, by simp, Or.inr ⟨_, rfl⟩, .keeps rfl rfl (by simp)⟩
    | ok x =>
      cases h
      unfold ObjectSegment.allocate at hp
      split at hp
      · cases hp
      · obtain ⟨k, -, hp⟩ := Option.bind_eq_some_iff.mp hp
        cases hp
        exact ⟨rfl, rfl, by simp, Or.inl rfl, .takes rfl (by simp) ‹_› rfl rfl⟩
  | push i =>
    obtain ⟨pool, -, h⟩ := Option.bind_eq_some_iff.mp h
    cases h
    exact ⟨rfl, rfl, by simp, Or.inr ⟨_, rfl⟩, .pushes rfl rfl rfl⟩
  | setGrantedAccess i object m =>
    obtain ⟨pool, -, h⟩ := Option.bind_eq_some_iff.mp h
    cases h
    exact ⟨rfl, rfl, by simp, Or.inl rfl, .keeps rfl rfl (by simp)⟩
  | setObject | clearObject =>
    obtain ⟨pool, -, h⟩ := Option.bind_eq_some_iff.mp h
    cases h
    exact ⟨rfl, rfl, by simp, Or.inl rfl, .keeps rfl rfl (by simp)⟩
  | close fd =>
    simp only [advance] at h
    split at h
    · rename_i i hi
      cases h
      exact ⟨rfl, rfl, by simp, Or.inl (check_eq hi).symm, .keeps rfl rfl (by simp)⟩
    · cases h
      exact ⟨rfl, rfl, by simp, Or.inr ⟨_, rfl⟩, .keeps rfl rfl (by simp)⟩
  | reference fd =>
    simp only [advance] at h
    split at h
    · cases h
      exact ⟨rfl, rfl, by simp, Or.inl rfl, .keeps rfl rfl (by simp)⟩
    · cases h
      exact ⟨rfl, rfl, by simp, Or.inr ⟨_, rfl⟩, .keeps rfl rfl (by simp)⟩
  | readObject i =>
    cases h
    split <;> exact ⟨rfl, rfl, by simp, Or.inl rfl, .keeps rfl rfl (by simp)⟩
  | readEntry i =>
    cases h
    split
    · exact ⟨rfl, rfl, by simp, Or.inl rfl, .keeps rfl rfl (by simp)⟩
    · split
      · exact ⟨rfl, rfl, by simp, Or.inl rfl, .keeps rfl rfl (by simp)⟩
      · exact ⟨rfl, rfl, by simp, Or.inr ⟨_, rfl⟩, .keeps rfl rfl (by simp)⟩
  | addRef | decRef =>
    cases h
    exact ⟨rfl, rfl, by simp, Or.inl rfl, .keeps rfl rfl (by simp)⟩
  | addReference =>
    cases h
    exact ⟨rfl, rfl, by simp, Or.inr ⟨_, rfl⟩, .keeps rfl rfl (by simp)⟩
  | done | failed => cases h

theorem Moves.pushed_le (h : s.Moves s' c c') (i : ℕ) : s.pushed i ≤ s'.pushed i := by
  cases h.uses with
  | takes _ _ _ _ hpush => rw [hpush]
  | keeps _ hpush => rw [hpush]
  | pushes _ _ hpush =>
    rw [hpush, increment_apply]
    split <;> omega

/-- A close that succeeds ends the use of its entry. -/
theorem Moves.closed (h : s.Moves s' c c') (hdone : c' = .done .closed) :
    ∃ i, c = .push i ∧ s'.pushed i = s.pushed i + 1 := by
  cases h.uses with
  | takes _ hne => exact absurd hdone hne
  | keeps _ _ hne => exact absurd hdone hne
  | @pushes i hc _ hpush => exact ⟨i, hc, by rw [hpush, increment_apply, if_pos rfl]⟩

/-! ## Closes that are too late -/

theorem closes_iff (hc : s.thread t = some c) : s.Closes t i ↔ c.closes? = some i := by
  simp [Closes, hc]

/-- The element of a close in progress is in the use in which the close was called, or free. -/
def Overtaken (s : HandleThreads) : Prop :=
  ∀ u i, s.Closes u i → s.called u ≤ s.pushed i ∧
    (s.called u < s.pushed i → s.popped i = s.pushed i)

/-- A close that pushes an element ends its use. -/
theorem Inv.popped_of_push (h : Inv N phase s) (hc : s.thread t = some (.push i)) :
    s.popped i = s.pushed i + 1 := by
  obtain ⟨hi, hphase⟩ := h.place t _ hc
  have hslot := h.slot i hi
  rw [hphase] at hslot
  exact hslot.2.2.1

theorem Overtaken.step (h : s.Overtaken) (hI : Inv N phase s) (hc : s.thread t = some c)
    (hcond : s.StillHolds N (.step t)) (hm : s.Moves s' c c') :
    Overtaken { s' with thread := update s'.thread t (some c') } := by
  intro u i hu
  -- it was a close of this entry before
  have hold : s.Closes u i := by
    by_cases hut : u = t
    · subst hut
      have hi : c'.closes? = some i := by simpa [Closes] using hu
      rcases hm.closes with he | ⟨r, rfl⟩
      · exact (closes_iff hc).mpr (he ▸ hi)
      · cases hi
    · have he : s'.thread u = s.thread u := congrFun hm.thread u
      simpa [Closes, Function.update_of_ne hut, he] using hu
  obtain ⟨hle, hlate⟩ := h u i hold
  obtain ⟨c₀, hc₀, -⟩ := Option.bind_eq_some_iff.mp hold
  have hu' : u < N := hI.lt hc₀
  dsimp only
  rw [hm.called]
  cases hm.uses with
  | takes hcall _ hhead hpop hpush =>
    rw [hpop, hpush, increment_apply]
    simp only [StillHolds, hc, hcall] at hcond
    refine ⟨hle, fun hlt ↦ ?_⟩
    -- an entry that is taken again has no close that is too late
    rw [if_neg]
    · exact hlate hlt
    · rintro rfl
      exact absurd (hcond hhead u hu' hold) hlt.ne
  | @pushes j hcall hpop hpush =>
    subst hcall
    rw [hpop, hpush, increment_apply]
    by_cases hij : i = j
    · subst hij
      rw [if_pos rfl]
      exact ⟨hle.trans (Nat.le_succ _), fun _ ↦ hI.popped_of_push hc⟩
    · rw [if_neg hij]
      exact ⟨hle, hlate⟩
  | keeps hpop hpush =>
    rw [hpop, hpush]
    exact ⟨hle, hlate⟩

/-- A thread that calls something is in no close then, or in one of the present use. -/
theorem Overtaken.call {f : ℕ → ℕ} {g : ℕ → ℕ} (h : s.Overtaken) (hf : ∀ u ≠ t, f u = s.called u)
    (hclose : ∀ i, c.closes? = some i → f t = s.pushed i) :
    Overtaken { s with outside := g, called := f, thread := update s.thread t (some c) } := by
  intro u i hu
  by_cases hut : u = t
  · subst hut
    have hi : f u = s.pushed i := hclose i (by simpa [Closes] using hu)
    exact ⟨hi.le, fun hlt ↦ absurd hi hlt.ne⟩
  · have hold : s.Closes u i := by simpa [Closes, Function.update_of_ne hut] using hu
    dsimp only
    rw [hf u hut]
    exact h u i hold

theorem overtaken_of_next (h : s.Overtaken) (hI : Inv N phase s) (hcond : s.StillHolds N a)
    (hn : next isA N s a = some s') : s'.Overtaken := by
  cases a with
  | allocHandle t object m =>
    simp only [next] at hn
    split at hn
    · obtain ⟨-, -, -, rfl⟩ := call_eq_some hn
      exact h.call (fun _ _ ↦ rfl) fun i hi ↦ by cases hi
    · cases hn
  | closeHandle t fd =>
    obtain ⟨-, -, -, rfl⟩ := call_eq_some hn
    refine h.call (fun u hu ↦ Function.update_of_ne hu _ _) fun i hi ↦ ?_
    simp only [HandleCall.closes?] at hi
    split at hi
    · cases hi
      exact Function.update_self ..
    · cases hi
  | referenceObject t fd =>
    obtain ⟨-, -, -, rfl⟩ := call_eq_some hn
    exact h.call (fun _ _ ↦ rfl) fun i hi ↦ by cases hi
  | step t =>
    obtain ⟨c, hc, hn⟩ := Option.bind_eq_some_iff.mp hn
    obtain ⟨⟨s₁, c'⟩, hs, hn⟩ := Option.bind_eq_some_iff.mp hn
    cases hn
    exact h.step hI hc hcond (moves_of_advance hs)
  | release object =>
    simp only [next] at hn
    split at hn
    · cases hn
      exact h
    · cases hn

theorem overtaken_init : Overtaken (machine isA address refs N).init := by
  rintro u i hu
  cases hu

theorem overtaken_of_reachable (h : (machine isA address refs N).ReachableWhile (StillHolds N) s) :
    s.Overtaken :=
  h.invariant (I := Overtaken) overtaken_init fun _ _ _ hs hO hc hn ↦ by
    obtain ⟨phase, hI⟩ := inv_of_reachable hs
    exact overtaken_of_next hO hI hc hn

/-! ## Two closes -/

/-- The first of two closes of the entry has not ended, or its success leaves the other one late. -/
structure Contender (s : HandleThreads) (i t u : ℕ) : Prop where
  place : s.Closes t i ∨ ∃ r, s.thread t = some (.done r)
  wins : s.thread t = some (.done .closed) →
    (s.Closes u i ∧ s.called u < s.pushed i) ∨ ∃ r, s.thread u = some (.done r) ∧ r ≠ .closed

theorem contender_of_closes (ht : s.Closes t i) : s.Contender i t u := by
  refine ⟨Or.inl ht, fun hd ↦ ?_⟩
  rw [closes_iff hd] at ht
  cases ht

/-- A close that is late does not get to push the element. -/
theorem Overtaken.not_push (h : s.Overtaken) (hI : Inv N phase s) (hlt : s.called t < s.pushed i) :
    s.thread t ≠ some (.push i) := fun hc ↦ by
  have h₁ := (h t i ((closes_iff hc).mpr rfl)).2 hlt
  have h₂ := hI.popped_of_push hc
  omega

theorem Contender.congr (h : s.Contender i t u) (ht : s'.thread t = s.thread t)
    (hu : s'.thread u = s.thread u) (hcalled : s'.called u = s.called u)
    (hpushed : s.pushed i ≤ s'.pushed i) : s'.Contender i t u := by
  refine ⟨by simpa only [Closes, ht] using h.place, fun hd ↦ ?_⟩
  rcases h.wins (ht ▸ hd) with ⟨hcl, hlt⟩ | hr
  · refine Or.inl ⟨by simpa only [Closes, hu] using hcl, ?_⟩
    omega
  · exact Or.inr (hu ▸ hr)

theorem Contender.step {v : ℕ} (h : s.Contender i t u) (h' : s.Contender i u t) (htu : t ≠ u)
    (hO : s.Overtaken) (hI : Inv N phase s) (hc : s.thread v = some c) (hm : s.Moves s' c c') :
    Contender { s' with thread := update s'.thread v (some c') } i t u := by
  have hsame : ∀ w ≠ v, update s'.thread v (some c') w = s.thread w := fun w hw ↦
    (Function.update_of_ne hw _ _).trans (congrFun hm.thread w)
  have hpush := hm.pushed_le i
  by_cases hvt : t = v
  · -- the first one goes on, and may succeed
    subst hvt
    have hu := hsame u htu.symm
    have hcl : s.Closes t i := h.place.resolve_right fun ⟨r, hr⟩ ↦
      hm.going r (Option.some.inj (hc.symm.trans hr))
    have hci : c.closes? = some i := (closes_iff hc).mp hcl
    refine ⟨?_, fun hd ↦ ?_⟩
    · rcases hm.closes with he | ⟨r, rfl⟩
      · exact Or.inl (by simp [Closes, he, hci])
      · exact Or.inr ⟨r, Function.update_self ..⟩
    · have hdone : c' = .done .closed := by simpa using hd
      obtain ⟨j, rfl, hj⟩ := hm.closed hdone
      cases hci
      rcases h'.place with hcu | ⟨r, hr⟩
      · refine Or.inl ⟨by simpa only [Closes, hu] using hcu, ?_⟩
        have hle := (hO u i hcu).1
        dsimp only
        rw [hm.called, hj]
        omega
      · refine Or.inr ⟨r, hu.trans hr, ?_⟩
        rintro rfl
        rcases h'.wins hr with ⟨-, hlt⟩ | ⟨r', hr', -⟩
        · exact hO.not_push hI hlt hc
        · cases hc.symm.trans hr'
  · by_cases hvu : u = v
    · -- the other one goes on, and cannot succeed any more if the first one has
      subst hvu
      have ht := hsame t htu
      refine ⟨by simpa only [Closes, ht] using h.place, fun hd ↦ ?_⟩
      rcases h.wins (ht ▸ hd) with ⟨hcu, hlt⟩ | ⟨r, hr, -⟩
      · have hci : c.closes? = some i := (closes_iff hc).mp hcu
        rcases hm.closes with he | ⟨r, rfl⟩
        · refine Or.inl ⟨by simp [Closes, he, hci], ?_⟩
          dsimp only
          rw [hm.called]
          omega
        · refine Or.inr ⟨r, Function.update_self .., ?_⟩
          rintro rfl
          obtain ⟨j, rfl, -⟩ := hm.closed rfl
          cases hci
          exact hO.not_push hI hlt hc
      · exact absurd (Option.some.inj (hc.symm.trans hr)) (hm.going r)
    · exact h.congr (hsame t hvt) (hsame u hvu) (congrFun hm.called u) hpush

/-- A step in which neither thread calls anything new. -/
theorem Contender.next (h : s.Contender i t u) (h' : s.Contender i u t) (htu : t ≠ u)
    (hO : s.Overtaken) (hI : Inv N phase s) (ht : ¬ a.Calls t) (hu : ¬ a.Calls u)
    (hn : next isA N s a = some s') : s'.Contender i t u := by
  cases a with
  | allocHandle v object m =>
    simp only [HandleThreads.next] at hn
    split at hn
    · obtain ⟨-, -, -, rfl⟩ := call_eq_some hn
      exact h.congr (Function.update_of_ne (Ne.symm ht) _ _)
        (Function.update_of_ne (Ne.symm hu) _ _)
        rfl le_rfl
    · cases hn
  | closeHandle v fd =>
    obtain ⟨-, -, -, rfl⟩ := call_eq_some hn
    exact h.congr (Function.update_of_ne (Ne.symm ht) _ _) (Function.update_of_ne (Ne.symm hu) _ _)
      (Function.update_of_ne (Ne.symm hu) _ _) le_rfl
  | referenceObject v fd =>
    obtain ⟨-, -, -, rfl⟩ := call_eq_some hn
    exact h.congr (Function.update_of_ne (Ne.symm ht) _ _) (Function.update_of_ne (Ne.symm hu) _ _)
      rfl le_rfl
  | step v =>
    obtain ⟨c, hc, hn⟩ := Option.bind_eq_some_iff.mp hn
    obtain ⟨⟨s₁, c'⟩, hs, hn⟩ := Option.bind_eq_some_iff.mp hn
    cases hn
    exact h.step h' htu hO hI hc (moves_of_advance hs)
  | release object =>
    simp only [HandleThreads.next] at hn
    split at hn
    · cases hn
      exact h.congr rfl rfl rfl le_rfl
    · cases hn

/-- The steps of a run in which the threads go on with their calls. -/
def Continues (N t u : ℕ) (s : HandleThreads) (a : ThreadAction) : Prop :=
  s.StillHolds N a ∧ ¬ a.Calls t ∧ ¬ a.Calls u

/-- **Of two overlapping closes of one handle at most one succeeds.** -/
theorem not_both_closed (h : (machine isA address refs N).ReachableWhile (StillHolds N) s)
    (htu : t ≠ u)
    (ht : s.Closes t i) (hu : s.Closes u i)
    (hrun : (machine isA address refs N).LeadsWhile (Continues N t u) s s') :
    ¬ (s'.thread t = some (.done .closed) ∧ s'.thread u = some (.done .closed)) := by
  have hpair : (machine isA address refs N).ReachableWhile (StillHolds N) s' ∧
      s'.Contender i t u ∧ s'.Contender i u t := by
    refine hrun.invariant (I := fun s ↦ (machine isA address refs N).ReachableWhile (StillHolds N) s ∧
      s.Contender i t u ∧ s.Contender i u t)
      ⟨h, contender_of_closes ht, contender_of_closes hu⟩ ?_
    rintro v a v' ⟨hv, h₁, h₂⟩ ⟨hcond, hat, hau⟩ hn
    obtain ⟨phase, hI⟩ := inv_of_reachable hv
    have hO := overtaken_of_reachable hv
    exact ⟨hv.step hcond hn, h₁.next h₂ htu hO hI hat hau hn, h₂.next h₁ htu.symm hO hI hau hat hn⟩
  rintro ⟨hdt, hdu⟩
  rcases hpair.2.1.wins hdt with ⟨hcu, -⟩ | ⟨r, hr, hne⟩
  · rw [closes_iff hdu] at hcu
    cases hcu
  · cases hdu.symm.trans hr
    exact hne rfl

/-! ## All operations -/

/-- Every use of an element ends before the next one begins. -/
theorem SlotOk.numbers (h : s.SlotOk i p) : s.pushed i ≤ s.dropped i ∧ s.dropped i ≤ s.added i ∧
    s.added i ≤ s.popped i ∧ s.popped i ≤ s.pushed i + 1 := by
  cases p <;> simp only [SlotOk] at h <;> omega

/-- **Handle operations are atomic**, as long as what a thread has checked still holds when it goes
on.  An element is pushed and its reference dropped once for each time that it was taken, the free
list has no element twice and none that is used, no reference is added to an object that has none,
and of two overlapping closes of a handle at most one succeeds. -/
theorem handles_atomic (h : (machine isA address refs N).ReachableWhile (StillHolds N) s) :
    (∀ i < elementsCount, s.pushed i ≤ s.dropped i ∧ s.dropped i ≤ s.added i ∧
      s.added i ≤ s.popped i ∧ s.popped i ≤ s.pushed i + 1) ∧
    (∃ free, s.pool.FreeList free ∧ free.Nodup ∧ ∀ i ∈ free,
      (s.pool.element i).used = 0 ∧ s.popped i = s.pushed i) ∧
    (∀ t o, s.thread t = some (.addReference o) → s.refs o ≠ 0) ∧
    (∀ t, s.thread t ≠ some .failed) ∧
    ∀ t u i s', t ≠ u → s.Closes t i → s.Closes u i →
      (machine isA address refs N).LeadsWhile (Continues N t u) s s' →
      ¬ (s'.thread t = some (.done .closed) ∧ s'.thread u = some (.done .closed)) := by
  obtain ⟨phase, hI⟩ := inv_of_reachable h
  refine ⟨fun i hi ↦ (hI.slot i hi).numbers, ?_, fun t o ht ↦ hI.place t _ ht,
    fun t ht ↦ hI.place t _ ht, fun t u i s' htu ht hu hrun ↦ not_both_closed h htu ht hu hrun⟩
  obtain ⟨free, hlist, hmem⟩ := hI.free
  refine ⟨free, hlist, hlist.nodup, fun i hi ↦ ?_⟩
  have hlt := hlist.lt i hi
  have hslot := hI.slot i hlt
  rw [(hmem i hlt).mp hi] at hslot
  exact ⟨hslot.1, hslot.2.1⟩

/-! ## Runs -/

/-- The object that the runs below are about. -/
def someObject : ObjectAddress := ⟨1, Nat.one_ne_zero⟩

/-- A thread allocates a handle. -/
def allocates (t : ℕ) : List ThreadAction :=
  [.allocHandle t someObject 1, .step t, .step t, .step t, .step t]

/-- A lookup in a close that has not ended when another one is called. -/
def lookupBetween : List ThreadAction :=
  allocates 0 ++ ([.referenceObject 1 3, .closeHandle 0 3, .step 0, .step 1, .step 1,
    .step 0, .step 1, .step 0,
    .step 0, .closeHandle 2 3] : List ThreadAction)

/-- The second close finds nothing. -/
theorem handles_atomic_lookup :
    (((machine (fun _ ↦ true) 4096 (fun _ ↦ 1) 3).afterWhile (StillHolds 3) lookupBetween).Closes 0 0 ∧
      ((machine (fun _ ↦ true) 4096 (fun _ ↦ 1) 3).afterWhile (StillHolds 3) lookupBetween).Closes 2 0 ∧
      ∀ s', (machine (fun _ ↦ true) 4096 (fun _ ↦ 1) 3).LeadsWhile (Continues 3 0 2)
          ((machine (fun _ ↦ true) 4096 (fun _ ↦ 1) 3).afterWhile (StillHolds 3) lookupBetween) s' →
        ¬ (s'.thread 0 = some (.done .closed) ∧ s'.thread 2 = some (.done .closed))) ∧
    ((machine (fun _ ↦ true) 4096 (fun _ ↦ 1) 3).afterWhile (StillHolds 3)
      (lookupBetween ++ [.step 2, .step 0])).thread 0 = some (.done .closed) ∧
    ((machine (fun _ ↦ true) 4096 (fun _ ↦ 1) 3).afterWhile (StillHolds 3)
      (lookupBetween ++ [.step 2, .step 0])).pushed 0 = 1 := by
  have ht : ((machine (fun _ ↦ true) 4096 (fun _ ↦ 1) 3).afterWhile (StillHolds 3)
      lookupBetween).Closes 0 0 := by decide +kernel
  have hu : ((machine (fun _ ↦ true) 4096 (fun _ ↦ 1) 3).afterWhile (StillHolds 3)
      lookupBetween).Closes 2 0 := by decide +kernel
  exact ⟨⟨ht, hu, fun s' hrun ↦ (handles_atomic (Machine.reachableWhile_afterWhile
    lookupBetween)).2.2.2.2 0 2 0 s' (by decide) ht hu hrun⟩, by decide +kernel, by decide +kernel⟩

/-- Two threads close a handle, each after the other has checked it. -/
def closeTwice : List ThreadAction :=
  allocates 0 ++ ([.closeHandle 0 3, .closeHandle 1 3, .step 0, .step 1, .step 0,
    .step 1, .step 0, .step 1,
    .step 0, .step 1, .step 0, .step 1] : List ThreadAction)

/-- A handle is closed that a thread has looked up. -/
def closeLookedUp : List ThreadAction :=
  allocates 0 ++ ([.release someObject, .referenceObject 1 3, .step 1, .step 1,
    .closeHandle 0 3, .step 0,
    .step 0, .step 0] : List ThreadAction)

/-- Two closes of one handle succeed, and drop its reference and push its element twice, so that the
free list is a circle.  And a thread is about to add a reference to an object that has none. -/
theorem operations_interfere :
    (∃ s, (machine (fun _ ↦ true) 4096 (fun _ ↦ 1) 2).Reachable s ∧
      s.thread 0 = some (.done .closed) ∧ s.thread 1 = some (.done .closed) ∧
      s.popped 0 = 1 ∧ s.dropped 0 = 2 ∧ s.pushed 0 = 2 ∧
      s.pool.freeHead = s.pool.elementAddress 0 ∧
      (s.pool.element 0).next = s.pool.elementAddress 0) ∧
    ∃ s, (machine (fun _ ↦ true) 4096 (fun _ ↦ 1) 2).Reachable s ∧
      s.thread 1 = some (.addReference someObject) ∧ s.refs someObject = 0 :=
  ⟨⟨_, Machine.reachable_after closeTwice, by decide +kernel⟩,
    ⟨_, Machine.reachable_after closeLookedUp, by decide +kernel⟩⟩

end HandleThreads

end Chino
