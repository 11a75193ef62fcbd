import Chino.Mm.Take

/-!
# Huge pages and small pages

`page_table_1::take_huge` takes the 512 pages of an entry as one.  It shares the word of the entry
with `take`: a compare-exchange from the initial value to one, against the loads and the decrements
by two of the calls that take single pages.  Neither looks at the other's work again, so all that
keeps the two apart is the word: once it has left its initial value it does not come back
(`Inv.word`), and the lowest bit is set by `take_huge` only.

The calls run in single atomic operations, any number of both kinds.  `reservations` counts the
decrements that were successful.

## The invariant

An entry is in one of three states, and its word says which: nothing was taken yet, single pages
were reserved, or it was taken as one.  `take_huge` goes from the first to the third, by an exchange
that fails if the word has changed; a reservation of `take` goes from the first or the second to the
second, and finds no free page in the third, because an odd word counts as full.

`Inside` says where the pages of a call lie, and `entry?` in which entry a call of `take` has its
reservation from the decrement on, whether or not it has got to its bit.  `Inv.small` and
`Inv.hugeStep` are the two halves of the proof: one operation of each kind of call.

`huge_exclusive` is about any two calls at any time, in every interleaving: two single pages differ,
two huge pages differ, and no single page lies in a huge one.
-/

set_option autoImplicit false

namespace Chino

open Function (update)

namespace PageTable1

/-- `page_table_1_entry::free_pages` of the value it loads -/
def freePages (value : ℕ) : ℕ := if value % 2 = 1 then 0 else value / 2

/-- The index that `page_table_1::take_huge` returns. -/
def hugeIndex (e : ℕ) : ℕ := e * PageTable2.maxPages

end PageTable1

/-- Where a `page_table_1::take_huge` is. -/
inductive HugeState where
  /-- About to exchange the value of an entry. -/
  | exchange (e : ℕ)
  /-- It has returned the index of the entry, or `out_of_memory`. -/
  | done (result : Option ℕ)
deriving DecidableEq

/-- The next atomic operation of `take_huge`. -/
def Bucket.hugeStep (m : Bucket) : HugeState → Option (Bucket × HugeState)
  | .exchange e =>
    if m.entries e = PageTable1.initialValue then
      some ({ m with entries := update m.entries e 1 }, .done (some e))
    else some (m, if e + 1 < PageTable1.maxEntries then .exchange (e + 1) else .done none)
  | .done _ => none

/-- A call of `take` or of `take_huge`. -/
inductive PageCall where
  | small (st : TakeState)
  | huge (st : HugeState)
deriving DecidableEq

/-- The calls of `take` and `take_huge` on one level-1 table. -/
structure PageTakers where
  bucket : Bucket
  call : ℕ → Option PageCall
  /-- How often an entry was decremented. -/
  reservations : ℕ → ℕ

/-- A call begins, or goes on. -/
inductive PageEvent where
  | take (c : ℕ)
  | takeHuge (c : ℕ)
  | step (c : ℕ)
deriving DecidableEq

namespace PageTakers

/-- A call begins. -/
def start (s : PageTakers) (c : ℕ) (call : PageCall) : Option PageTakers :=
  if s.call c = none then some { s with call := update s.call c (some call) } else none

/-- The next atomic operation of a call. -/
def advance (s : PageTakers) (c : ℕ) : PageCall → Option PageTakers
  | .small st => do
    let (b, st') ← s.bucket.step st
    some {
      bucket := b
      call := update s.call c (some (.small st'))
      reservations e := s.reservations e + if st = .reserve e (s.bucket.entries e) then 1 else 0 }
  | .huge st => do
    let (b, st') ← s.bucket.hugeStep st
    some { s with bucket := b, call := update s.call c (some (.huge st')) }

/-- The next state, or none where the event does not apply. -/
def next (s : PageTakers) : PageEvent → Option PageTakers
  | .take c => s.start c (.small (.load 0))
  | .takeHuge c => s.start c (.huge (.exchange 0))
  | .step c => do s.advance c (← s.call c)

/-- Runs of any number of calls on a new table. -/
def machine : Machine PageTakers PageEvent where
  init := ⟨.init, fun _ ↦ none, fun _ ↦ 0⟩
  next := next

end PageTakers

/-! ## What an atomic operation does -/

namespace TakeState

/-- The call is inside of the tables. -/
def Inside : TakeState → Prop
  | .load e => e < PageTable1.maxEntries
  | .reserve e value => e < PageTable1.maxEntries ∧ value ≠ 0 ∧ value % 2 = 0
  | .scan e r => e < PageTable1.maxEntries ∧ r < PageTable2.atomicsCount
  | .mark e r i => e < PageTable1.maxEntries ∧ r < PageTable2.atomicsCount ∧ i < 64
  | .done (some (e, j)) => e < PageTable1.maxEntries ∧ j < PageTable2.maxPages
  | .done none | .failed => True

/-- The entry in which the call has reserved a page, whether or not it has taken it. -/
def entry? : TakeState → Option ℕ
  | .scan e _ | .mark e _ _ => some e
  | .done (some (e, _)) => some e
  | _ => none

/-- **An atomic operation of `take`** decrements the entry that it reserves a page in. -/
structure Effect (m : Bucket) (st : TakeState) (m' : Bucket) (st' : TakeState) : Prop where
  inside : st'.Inside
  entries : ∀ e, m'.entries e = m.entries e - 2 * if st = .reserve e (m.entries e) then 1 else 0
  entry : ∀ e, st'.entry? = some e → st.entry? = some e ∨ st = .reserve e (m.entries e)

variable {m m' : Bucket} {st st' : TakeState}

theorem Inside.effect (h : st.Inside) (hs : m.step st = some (m', st')) : st.Effect m m' st' := by
  match st, h with
  | .load e, he =>
    simp only [Bucket.step] at hs
    split at hs
    · cases hs
      refine ⟨?_, fun e' ↦ by simp, fun e' h ↦ ?_⟩
      · split
        · assumption
        · trivial
      · split at h <;> cases h
    · rename_i hv
      cases hs
      exact ⟨⟨he, by omega, by omega⟩, fun e' ↦ by simp, fun e' h ↦ by cases h⟩
  | .reserve e value, ⟨he, hne, heven⟩ =>
    simp only [Bucket.step] at hs
    split at hs
    · rename_i hv
      cases hs
      refine ⟨⟨he, by decide⟩, fun e' ↦ ?_, fun e' h ↦ ?_⟩
      · by_cases hee : e' = e
        · subst hee
          simp [hv]
        · simp [hee, Ne.symm hee]
      · cases h
        exact Or.inr (by rw [hv])
    · rename_i hv
      cases hs
      refine ⟨he, fun e' ↦ ?_, fun e' h ↦ by cases h⟩
      rw [if_neg]
      · rfl
      · intro heq
        cases heq
        exact hv rfl
  | .scan e r, ⟨he, hr⟩ =>
    simp only [Bucket.step] at hs
    split at hs
    · cases hs
      refine ⟨?_, fun e' ↦ by simp, fun e' h ↦ ?_⟩
      · split
        · exact ⟨he, ‹_›⟩
        · trivial
      · split at h
        · exact Or.inl h
        · cases h
    · rename_i hf
      cases hs
      refine ⟨⟨he, hr, ?_⟩, fun e' ↦ by simp, fun e' h ↦ Or.inl h⟩
      exact (countrOne_lt (by simpa [PageTable2.full] using hf)).1
  | .mark e r i, ⟨he, hr, hi⟩ =>
    simp only [Bucket.step, Option.some.injEq, Prod.mk.injEq] at hs
    obtain ⟨rfl, rfl⟩ := hs
    refine ⟨?_, fun e' ↦ by simp, fun e' h ↦ ?_⟩
    · split
      · exact ⟨he, hr⟩
      · refine ⟨he, ?_⟩
        simp only [PageTable2.maxPages, PageTable2.rowDigits, PageTable2.atomicsCount] at *
        omega
    · split at h <;> exact Or.inl h

end TakeState

namespace PageTakers

variable {s s' : PageTakers} {c c' e : ℕ} {ev : PageEvent}

/-! ## The word of an entry -/

/-- The entry was taken as one. -/
def TakenHuge (s : PageTakers) (e : ℕ) : Prop := ∃ c, s.call c = some (.huge (.done (some e)))

/-- What every atomic operation keeps. -/
structure Inv (s : PageTakers) : Prop where
  inside : ∀ c st, s.call c = some (.small st) → st.Inside
  /-- The word is one, or it counts the pages that are not reserved. -/
  word : ∀ e, s.bucket.entries e = 1 ∧ s.reservations e = 0 ∨
    s.bucket.entries e + 2 * s.reservations e = PageTable1.initialValue
  reserved : ∀ c st e, s.call c = some (.small st) → st.entry? = some e → 0 < s.reservations e
  huge : ∀ e, s.bucket.entries e = 1 ↔ s.TakenHuge e
  unique : ∀ c c' e, s.call c = some (.huge (.done (some e))) →
    s.call c' = some (.huge (.done (some e))) → c = c'

theorem inv_init : machine.init.Inv where
  inside c st hc := by cases hc
  word e := Or.inr rfl
  reserved c st e hc := by cases hc
  huge e := by
    constructor
    · intro h
      cases h
    · rintro ⟨c, hc⟩
      cases hc
  unique c c' e hc := by cases hc

/-- A call that has not returned a huge page may go on to another place without one. -/
theorem takenHuge_update {call : PageCall} {b : Bucket} {n : ℕ → ℕ}
    (hc : ∀ e, s.call c ≠ some (.huge (.done (some e))))
    (hcall : ∀ e, call ≠ .huge (.done (some e))) :
    TakenHuge ⟨b, update s.call c (some call), n⟩ e ↔ s.TakenHuge e := by
  constructor
  · rintro ⟨c', hc'⟩
    by_cases hcc : c' = c
    · subst hcc
      simp [hcall] at hc'
    · exact ⟨c', by simpa [hcc] using hc'⟩
  · rintro ⟨c', hc'⟩
    refine ⟨c', ?_⟩
    have hcc : c' ≠ c := by
      rintro rfl
      exact hc e hc'
    simpa [hcc] using hc'

theorem Inv.start (h : s.Inv) {call : PageCall} (hs : s.start c call = some s')
    (hin : ∀ st, call = .small st → st.Inside ∧ st.entry? = none)
    (hcall : ∀ e, call ≠ .huge (.done (some e))) : s'.Inv := by
  unfold PageTakers.start at hs
  split at hs
  · rename_i hc
    cases hs
    have hold : ∀ {c'} {call' : PageCall}, c' ≠ c → update s.call c (some call) c' = some call' →
        s.call c' = some call' := fun hne h ↦ by simpa [hne] using h
    have hfree : ∀ e, s.call c ≠ some (.huge (.done (some e))) := fun e ↦ by simp [hc]
    refine ⟨fun c' st hc' ↦ ?_, h.word, fun c' st e hc' he ↦ ?_, fun e ↦ ?_, fun c₁ c₂ e h₁ h₂ ↦ ?_⟩
    · by_cases hcc : c' = c
      · subst hcc
        exact (hin st (by simpa using hc')).1
      · exact h.inside c' st (hold hcc hc')
    · by_cases hcc : c' = c
      · subst hcc
        rw [(hin st (by simpa using hc')).2] at he
        cases he
      · exact h.reserved c' st e (hold hcc hc') he
    · rw [h.huge e, takenHuge_update hfree hcall]
    · have hne :
          ∀ {c'}, update s.call c (some call) c' = some (.huge (.done (some e))) → c' ≠ c := by
        rintro c' h' rfl
        simp [hcall] at h'
      exact h.unique c₁ c₂ e (hold (hne h₁) h₁) (hold (hne h₂) h₂)
  · cases hs

/-- **An operation of `take`** leaves an entry alone that was taken as one. -/
theorem Inv.small (h : s.Inv) {st : TakeState} (hc : s.call c = some (.small st))
    (hs : s.advance c (.small st) = some s') : s'.Inv := by
  obtain ⟨⟨b, st'⟩, hstep, hs⟩ := Option.bind_eq_some_iff.mp hs
  cases hs
  have hin := h.inside c st hc
  have heff := hin.effect hstep
  -- a decrement finds a word that is even and not zero
  have hdec : ∀ e, st = .reserve e (s.bucket.entries e) →
      s.bucket.entries e ≠ 0 ∧ s.bucket.entries e % 2 = 0 := by
    rintro e rfl
    exact hin.2
  have hfree : ∀ e, s.call c ≠ some (.huge (.done (some e))) := fun e ↦ by simp [hc]
  refine ⟨fun c' st₁ hc' ↦ ?_, fun e ↦ ?_, fun c' st₁ e hc' he ↦ ?_, fun e ↦ ?_,
    fun c₁ c₂ e h₁ h₂ ↦ ?_⟩
  · by_cases hcc : c' = c
    · subst hcc
      obtain rfl : st' = st₁ := by simpa using hc'
      exact heff.inside
    · exact h.inside c' st₁ (by simpa [hcc] using hc')
  · have hentry := heff.entries e
    have hword := h.word e
    dsimp only
    split at hentry
    · rename_i hres
      have := hdec e hres
      rw [if_pos hres]
      omega
    · rename_i hres
      rw [if_neg hres]
      omega
  · by_cases hcc : c' = c
    · subst hcc
      obtain rfl : st' = st₁ := by simpa using hc'
      rcases heff.entry e he with hold | hres
      · exact Nat.add_pos_left (h.reserved c' st e hc hold) _
      · simp [hres]
    · exact Nat.add_pos_left (h.reserved c' st₁ e (by simpa [hcc] using hc') he) _
  · rw [takenHuge_update hfree (by simp), ← h.huge e]
    have hentry := heff.entries e
    dsimp only
    split at hentry
    · rename_i hres
      have := hdec e hres
      omega
    · omega
  · have hold : ∀ {c'}, update s.call c (some (.small st')) c' = some (.huge (.done (some e))) →
        s.call c' = some (.huge (.done (some e))) := fun {c'} h' ↦ by
      by_cases hcc : c' = c
      · subst hcc
        simp at h'
      · simpa [hcc] using h'
    exact h.unique c₁ c₂ e (hold h₁) (hold h₂)

/-- **An operation of `take_huge`** takes an entry in which no page is reserved. -/
theorem Inv.hugeStep (h : s.Inv) {st : HugeState} (hc : s.call c = some (.huge st))
    (hs : s.advance c (.huge st) = some s') : s'.Inv := by
  obtain ⟨⟨b, st'⟩, hstep, hs⟩ := Option.bind_eq_some_iff.mp hs
  cases hs
  cases st with
  | done r => cases hstep
  | exchange e =>
    have hother : ∀ {c'} {st₁ : TakeState},
        update s.call c (some (.huge st')) c' = some (.small st₁) →
        s.call c' = some (.small st₁) := fun {c'} {st₁} h' ↦ by
      by_cases hcc : c' = c
      · subst hcc
        simp at h'
      · simpa [hcc] using h'
    have hfree : ∀ e, s.call c ≠ some (.huge (.done (some e))) := fun e ↦ by simp [hc]
    simp only [Bucket.hugeStep] at hstep
    split at hstep
    · rename_i hv
      cases hstep
      have hres : s.reservations e = 0 := by
        have := h.word e
        omega
      have hnot : ¬ s.TakenHuge e := by
        rw [← h.huge e, hv]
        decide
      refine ⟨fun c' st₁ hc' ↦ h.inside c' st₁ (hother hc'), fun e' ↦ ?_,
        fun c' st₁ e' hc' ↦ h.reserved c' st₁ e' (hother hc'), fun e' ↦ ?_, fun c₁ c₂ e' h₁ h₂ ↦ ?_⟩
      · by_cases hee : e' = e
        · subst hee
          exact Or.inl ⟨Function.update_self .., hres⟩
        · simpa [hee] using h.word e'
      · by_cases hee : e' = e
        · subst hee
          exact iff_of_true (Function.update_self ..) ⟨c, Function.update_self ..⟩
        · simp only [Function.update_of_ne hee, h.huge e']
          constructor
          · rintro ⟨c', hc'⟩
            have hcc : c' ≠ c := by
              rintro rfl
              exact hfree e' hc'
            exact ⟨c', by simpa [hcc] using hc'⟩
          · rintro ⟨c', hc'⟩
            by_cases hcc : c' = c
            · subst hcc
              simp [Ne.symm hee] at hc'
            · exact ⟨c', by simpa [hcc] using hc'⟩
      · by_cases hc₁ : c₁ = c <;> by_cases hc₂ : c₂ = c
        · rw [hc₁, hc₂]
        · subst hc₁
          obtain rfl : e = e' := by simpa using h₁
          exact absurd ⟨c₂, by simpa [hc₂] using h₂⟩ hnot
        · subst hc₂
          obtain rfl : e = e' := by simpa using h₂
          exact absurd ⟨c₁, by simpa [hc₁] using h₁⟩ hnot
        · exact h.unique c₁ c₂ e' (by simpa [hc₁] using h₁) (by simpa [hc₂] using h₂)
    · cases hstep
      have hdone : ∀ e',
          (if e + 1 < PageTable1.maxEntries then HugeState.exchange (e + 1) else .done none) ≠
          .done (some e') := fun e' ↦ by split <;> simp
      refine ⟨fun c' st₁ hc' ↦ h.inside c' st₁ (hother hc'), h.word,
        fun c' st₁ e' hc' ↦ h.reserved c' st₁ e' (hother hc'), fun e' ↦ ?_, fun c₁ c₂ e' h₁ h₂ ↦ ?_⟩
      · rw [h.huge e', takenHuge_update hfree (by simpa using hdone)]
      · have hne : ∀ {c'}, update s.call c (some (.huge
            (if e + 1 < PageTable1.maxEntries then .exchange (e + 1) else .done none))) c' =
              some (.huge (.done (some e'))) → c' ≠ c := by
          rintro c' h' rfl
          rw [Function.update_self, Option.some.injEq, PageCall.huge.injEq] at h'
          exact hdone e' h'
        exact h.unique c₁ c₂ e' (by simpa [hne h₁] using h₁) (by simpa [hne h₂] using h₂)

theorem Inv.next (h : s.Inv) (hn : s.next ev = some s') : s'.Inv := by
  cases ev with
  | take c =>
    refine h.start hn ?_ (by simp)
    rintro st hst
    cases hst
    exact ⟨Nat.zero_lt_succ _, rfl⟩
  | takeHuge c => exact h.start hn (by simp) (by simp)
  | step c =>
    obtain ⟨call, hc, hs⟩ := Option.bind_eq_some_iff.mp hn
    cases call with
    | small st => exact h.small hc hs
    | huge st => exact h.hugeStep hc hs

theorem inv_of_reachable (h : machine.Reachable s) : s.Inv :=
  h.invariant inv_init fun _ _ _ _ hI hn ↦ hI.next hn

/-! ## Huge pages and small pages are apart -/

/-- **Huge and small pages never overlap.**  No small page lies in a huge page, no huge page is
given to two calls, and an entry counts the pages that are not reserved until it is taken as one. -/
theorem huge_exclusive (h : machine.Reachable s) :
    (∀ c c' x e, s.call c = some (.small (.done (some x))) →
      s.call c' = some (.huge (.done (some e))) →
      ¬ (PageTable1.hugeIndex e ≤ Bucket.index x ∧
        Bucket.index x < PageTable1.hugeIndex e + PageTable2.maxPages)) ∧
    (∀ c c' e e', s.call c = some (.huge (.done (some e))) →
      s.call c' = some (.huge (.done (some e'))) →
      PageTable1.hugeIndex e = PageTable1.hugeIndex e' → c = c') ∧
    ∀ e, (s.TakenHuge e → PageTable1.freePages (s.bucket.entries e) = 0) ∧
      (¬ s.TakenHuge e → s.reservations e ≤ PageTable2.maxPages ∧
        PageTable1.freePages (s.bucket.entries e) = PageTable2.maxPages - s.reservations e) := by
  have hI := inv_of_reachable h
  refine ⟨?_, ?_, fun e ↦ ⟨fun ht ↦ ?_, fun ht ↦ ?_⟩⟩
  · rintro c c' ⟨e', j⟩ e hc hc' ⟨hle, hlt⟩
    obtain ⟨-, hj⟩ := hI.inside c _ hc
    have he : e' = e := by
      simp only [PageTable1.hugeIndex, Bucket.index, PageTable2.maxPages] at *
      omega
    subst he
    have hres := hI.reserved c _ e' hc rfl
    have hone := (hI.huge e').mpr ⟨c', hc'⟩
    have hword := hI.word e'
    simp only [PageTable1.initialValue, PageTable2.maxPages] at hword
    omega
  · intro c c' e e' hc hc' hidx
    have he : e = e' := by
      simp only [PageTable1.hugeIndex, PageTable2.maxPages] at hidx
      omega
    exact hI.unique c c' e hc (he ▸ hc')
  · rw [(hI.huge e).mpr ht]
    rfl
  · have hne : s.bucket.entries e ≠ 1 := fun hone ↦ ht ((hI.huge e).mp hone)
    have hword := hI.word e
    simp only [PageTable1.freePages, PageTable1.initialValue, PageTable2.maxPages] at hword ⊢
    split <;> omega

/-- A small page is reserved before the exchange of another call, which takes the next entry. -/
def smallFirst : List PageEvent :=
  [.take 0, .takeHuge 1, .step 0, .step 0, .step 1, .step 1, .step 0, .step 0]

theorem huge_exclusive_two :
    let s := machine.after smallFirst
    s.call 0 = some (.small (.done (some (0, 0)))) ∧ s.call 1 = some (.huge (.done (some 1))) ∧
      ¬ (PageTable1.hugeIndex 1 ≤ Bucket.index (0, 0) ∧
        Bucket.index (0, 0) < PageTable1.hugeIndex 1 + PageTable2.maxPages) := by
  have h₀ : (machine.after smallFirst).call 0 = some (.small (.done (some (0, 0)))) := by
    decide +kernel
  have h₁ : (machine.after smallFirst).call 1 = some (.huge (.done (some 1))) := by decide +kernel
  exact ⟨h₀, h₁, (huge_exclusive (Machine.reachable_after smallFirst)).1 0 1 _ _ h₀ h₁⟩

end PageTakers

end Chino
