import Chino.Library.Run
import Chino.Mm.PageTable
import Mathlib.Logic.Relation

/-!
# Taking pages concurrently

`page_table_1::take` in single atomic operations.  A call first reserves a page by decrementing the
counter of an entry and then looks for a clear bit in the rows of its level-2 table, going forward
only, while other calls set bits in front of it and behind it.

The reservations are what makes this work: a level-2 table has as many clear bits as its counter and
the reservations of the calls together say (`Balanced`), so the row after the last one is not
reached.

## The proof

* **One call alone.**  `alone_take` says that a call which nobody interferes with does what
  `Bucket.take` of `Chino.Mm.PageTable` says, in as many steps as it takes: the functions there are
  the code.
* **Many calls.**  `CallOk` is what a call knows at its place.  It has a reservation from the
  decrement on, it is at a row, and the rows that it has passed are full.  Bits are only ever set,
  so this stays true whatever the others do (`CallOk.mono`).
* **The balance.**  The decrement of a counter and the setting of a bit are the two steps that
  change `Balanced`, and the call that makes them changes its side of the equation with it
  (`Inv.balanced_step`).

A call that has a reservation and has passed all rows but one therefore finds a clear bit in the
last one.  `take_correct` adds that different calls get different pages, which were free at the
start, and that counters and bits agree again once all calls are over.

The calls may start from any state in which counters and bits agree.
-/

set_option autoImplicit false

namespace Chino

open Function (update)

/-- Where a `page_table_1::take` is. -/
inductive TakeState where
  /-- About to load the counter of an entry. -/
  | load (e : ℕ)
  /-- About to decrement it. -/
  | reserve (e value : ℕ)
  /-- In `set_first_untaken`, about to load a row. -/
  | scan (e r : ℕ)
  /-- About to set the bit. -/
  | mark (e r i : ℕ)
  /-- It has returned the entry and the index in its level-2 table, or `out_of_memory`. -/
  | done (result : Option (ℕ × ℕ))
  /-- `set_first_untaken` has returned an error. -/
  | failed
deriving DecidableEq

namespace Bucket

/-- The next atomic operation of a call. -/
def step (m : Bucket) : TakeState → Option (Bucket × TakeState)
  | .load e =>
    if m.entries e = 0 ∨ m.entries e % 2 = 1 then
      some (m, if e + 1 < PageTable1.maxEntries then .load (e + 1) else .done none)
    else some (m, .reserve e (m.entries e))
  | .reserve e value =>
    if m.entries e = value then some ({ m with entries := update m.entries e (value - 2) }, .scan e 0)
    else some (m, .load e)
  | .scan e r =>
    if (m.pt2 e).full r then
      some (m, if r + 1 < PageTable2.atomicsCount then .scan e (r + 1) else .failed)
    else some (m, .mark e r (countrOne ((m.pt2 e).rows r)))
  | .mark e r i =>
    some ({ m with pt2 := update m.pt2 e ((m.pt2 e).fetchOr r i) },
      if ((m.pt2 e).rows r).getLsbD i then .scan e r
      else .done (some (e, r * PageTable2.rowDigits + i)))
  | .done _ | .failed => none

end Bucket

/-! ## A call that is alone -/

namespace Bucket

variable {m m' : Bucket} {e r j k : ℕ}

/-- What a call does that nobody interferes with. -/
def Alone : Bucket × TakeState → Bucket × TakeState → Prop :=
  Relation.ReflTransGen fun p q ↦ p.1.step p.2 = some q

theorem Alone.step {p q : Bucket × TakeState} {st : TakeState} (h : Alone p (m, st))
    (hs : m.step st = some q) : Alone p q :=
  Relation.ReflTransGen.tail h hs

theorem Alone.trans {p q p' : Bucket × TakeState} (h : Alone p q) (h' : Alone q p') : Alone p p' :=
  Relation.ReflTransGen.trans h h'

/-- Full rows are passed over. -/
theorem alone_scan (hr : r < PageTable2.atomicsCount) (hf : ∀ r' < r, (m.pt2 e).full r' = true) :
    Alone (m, .scan e 0) (m, .scan e r) := by
  induction r with
  | zero => exact .refl
  | succ r ih =>
    refine (ih (Nat.lt_of_succ_lt hr) fun r' h ↦ hf r' (Nat.lt_succ_of_lt h)).tail ?_
    simp [Bucket.step, hf r (Nat.lt_succ_self r), hr]

/-- `set_first_untaken` -/
theorem alone_setFirstUntaken {t : PageTable2} (h : (m.pt2 e).setFirstUntaken = some (j, t)) :
    Alone (m, .scan e 0) ({ m with pt2 := update m.pt2 e t }, .done (some (e, j))) := by
  obtain ⟨r, hr, he⟩ := Option.map_eq_some_iff.mp h
  cases he
  obtain ⟨hf, n, hn, hi, hlt⟩ := List.find?_eq_some_iff_getElem.mp hr
  simp only [List.length_range] at hn
  simp only [List.getElem_range] at hi hlt
  subst hi
  have hrow : (m.pt2 e).full n = false := by simpa using hf
  obtain ⟨-, hclear, -⟩ :=
    countrOne_lt (v := (m.pt2 e).rows n) (by simpa [PageTable2.full] using hrow)
  have hscan : Alone (m, .scan e 0) (m, .scan e n) :=
    alone_scan hn fun r' hr' ↦ by simpa using hlt r' hr'
  refine (hscan.step (q := (m, .mark e n (countrOne ((m.pt2 e).rows n)))) ?_).step ?_
  · simp [Bucket.step, hrow]
  · simp [Bucket.step, hclear]

theorem alone_takeEntry (h : m.takeEntry e = some (some j, m')) :
    Alone (m, .load e) (m', .done (some (e, j))) := by
  unfold takeEntry at h
  split at h
  · cases h
  · rename_i hv
    obtain ⟨⟨j', t⟩, ht, he⟩ := Option.bind_eq_some_iff.mp h
    cases he
    refine Alone.trans ?_ (alone_setFirstUntaken (m := { m with
      entries := update m.entries e (m.entries e - 2) }) ht)
    refine (Alone.step (q := (m, .reserve e (m.entries e))) .refl ?_).step ?_
    · simp [Bucket.step, hv]
    · simp [Bucket.step]

/-- Where the loop of `take` goes on. -/
def loopAt (e : ℕ) : TakeState := if e < PageTable1.maxEntries then .load e else .done none

theorem alone_takeFrom {result : Option (ℕ × ℕ)} (hk : e + k = PageTable1.maxEntries)
    (h : m.takeFrom (List.range' e k) = some (result, m')) :
    Alone (m, loopAt e) (m', .done result) := by
  induction k generalizing e with
  | zero =>
    cases h
    rw [loopAt, if_neg (by omega)]
    exact .refl
  | succ k ih =>
    rw [List.range'_succ, takeFrom] at h
    obtain ⟨⟨r, m₁⟩, he, h⟩ := Option.bind_eq_some_iff.mp h
    rw [loopAt, if_pos (by omega)]
    cases r with
    | some j =>
      cases h
      exact alone_takeEntry he
    | none =>
      unfold takeEntry at he
      split at he
      · rename_i hv
        cases he
        exact (Alone.step .refl (by simp [Bucket.step, hv, loopAt])).trans (ih (by omega) h)
      · obtain ⟨_, -, he⟩ := Option.bind_eq_some_iff.mp he
        cases he

/-- **`take` is what a call does alone.** -/
theorem alone_take {result : Option (ℕ × ℕ)} (h : m.take = some (result, m')) :
    Alone (m, .load 0) (m', .done result) :=
  alone_takeFrom (e := 0) (Nat.zero_add _) (by rwa [take, List.range_eq_range'] at h)

end Bucket

/-! ## What an atomic operation does -/

/-- The entry in which a call has reserved a page that it has not taken yet. -/
def TakeState.reserved? : TakeState → Option ℕ
  | scan e _ | mark e _ _ => some e
  | _ => none

namespace Bucket

variable {m m₀ m' : Bucket} {st st' : TakeState} {e r i j : ℕ}

/-- A call found what its place in the code tells; `m₀` is the bucket as it was at the start. -/
def CallOk (m₀ m : Bucket) : TakeState → Prop
  | .load e => e < PageTable1.maxEntries
  | .reserve e value => e < PageTable1.maxEntries ∧ value ≠ 0 ∧ value % 2 = 0
  | .scan e r => e < PageTable1.maxEntries ∧ r < PageTable2.atomicsCount ∧
    ∀ r' < r, (m.pt2 e).full r' = true
  | .mark e r i => e < PageTable1.maxEntries ∧ r < PageTable2.atomicsCount ∧ i < 64 ∧
    ∀ r' < r, (m.pt2 e).full r' = true
  | .done (some (e, j)) => e < PageTable1.maxEntries ∧ j < PageTable2.maxPages ∧
    (m₀.pt2 e).taken j = false ∧ (m.pt2 e).taken j = true
  | .done none => True
  | .failed => False

/-- Bits are set and not cleared. -/
def Grows (m m' : Bucket) : Prop := ∀ e j, (m.pt2 e).taken j = true → (m'.pt2 e).taken j = true

theorem Grows.full (h : m.Grows m') (hf : (m.pt2 e).full r = true) : (m'.pt2 e).full r = true :=
  PageTable2.full_iff.mpr fun i hi ↦ h e _ (PageTable2.full_iff.mp hf i hi)

/-- What a call has found stays true. -/
theorem CallOk.mono (h : m₀.CallOk m st) (hg : m.Grows m') : m₀.CallOk m' st := by
  match st, h with
  | .load _, h | .reserve .., h | .done none, h => exact h
  | .scan .., ⟨he, hr, hf⟩ => exact ⟨he, hr, fun r' hr' ↦ hg.full (hf r' hr')⟩
  | .mark .., ⟨he, hr, hi, hf⟩ => exact ⟨he, hr, hi, fun r' hr' ↦ hg.full (hf r' hr')⟩
  | .done (some _), ⟨he, hj, h₀, h⟩ => exact ⟨he, hj, h₀, hg _ _ h⟩

/-- **What an atomic operation can do.** -/
inductive StepEffect (m : Bucket) : TakeState → Bucket → TakeState → Prop
  | goesOn {st st' : TakeState} {m' : Bucket} (he : m'.entries = m.entries)
      (ht : ∀ e, (m'.pt2 e).taken = (m.pt2 e).taken) (hr : st'.reserved? = st.reserved?)
      (hd : ∀ x, st' ≠ .done (some x)) : StepEffect m st m' st'
  | reserves {e value : ℕ} (hv : m.entries e = value) :
      StepEffect m (.reserve e value) { m with entries := update m.entries e (value - 2) }
        (.scan e 0)
  | takes {e r i : ℕ} (hc : (m.pt2 e).taken (r * PageTable2.rowDigits + i) = false) :
      StepEffect m (.mark e r i) { m with pt2 := update m.pt2 e ((m.pt2 e).fetchOr r i) }
        (.done (some (e, r * PageTable2.rowDigits + i)))

/-- A row behind a full one, if the table has a clear bit. -/
theorem CallOk.scan_next (h : m₀.CallOk m (.scan e r)) (hf : (m.pt2 e).full r = true)
    (hpos : 0 < (m.pt2 e).untaken) : r + 1 < PageTable2.atomicsCount := by
  obtain ⟨r', hr', hf'⟩ := PageTable2.exists_not_full hpos
  refine lt_of_le_of_lt (Nat.succ_le_of_lt (lt_of_not_ge fun hle ↦ ?_)) hr'
  rcases Nat.lt_or_eq_of_le hle with hlt | rfl
  · rw [h.2.2 r' hlt] at hf'
    cases hf'
  · rw [hf] at hf'
    cases hf'

theorem CallOk.stepEffect (h : m₀.CallOk m st)
    (hpos : ∀ e, st.reserved? = some e → 0 < (m.pt2 e).untaken) (hs : m.step st = some (m', st')) :
    m.StepEffect st m' st' := by
  match st, h with
  | .load e, h =>
    simp only [step] at hs
    split at hs
    · cases hs
      refine .goesOn rfl (fun _ ↦ rfl) (by split <;> rfl) fun x ↦ by split <;> simp
    · cases hs
      exact .goesOn rfl (fun _ ↦ rfl) rfl (by simp)
  | .reserve e value, h =>
    simp only [step] at hs
    split at hs
    · cases hs
      exact .reserves ‹_›
    · cases hs
      exact .goesOn rfl (fun _ ↦ rfl) rfl (by simp)
  | .scan e r, h =>
    simp only [step] at hs
    split at hs
    · rename_i hf
      cases hs
      rw [if_pos (h.scan_next hf (hpos e rfl))]
      exact .goesOn rfl (fun _ ↦ rfl) rfl (by simp)
    · cases hs
      exact .goesOn rfl (fun _ ↦ rfl) rfl (by simp)
  | .mark e r i, ⟨he, hr, hi, hf⟩ =>
    simp only [step, Option.some.injEq, Prod.mk.injEq] at hs
    obtain ⟨rfl, rfl⟩ := hs
    rw [← PageTable2.taken_row hi]
    split
    · rename_i ht
      refine .goesOn rfl (fun e' ↦ ?_) rfl (by simp)
      by_cases hee : e' = e
      · subst hee
        simp only [Function.update_self]
        rw [PageTable2.taken_fetchOr hi]
        exact Function.update_eq_self_iff.mpr ht.symm
      · simp [hee]
    · rename_i ht
      exact .takes (by simpa using ht)

theorem StepEffect.grows (h : m.StepEffect st m' st') (hok : m₀.CallOk m st) : m.Grows m' := by
  cases h with
  | goesOn _ ht => exact fun e j hj ↦ by rw [ht e, hj]
  | reserves => exact fun _ _ ↦ id
  | @takes e r i hc =>
    intro e' j hj
    by_cases hee : e' = e
    · subst hee
      simp only [Function.update_self]
      rw [PageTable2.taken_fetchOr hok.2.2.1]
      by_cases hjj : j = r * PageTable2.rowDigits + i
      · simp [hjj]
      · simpa [hjj] using hj
    · simpa [hee] using hj

/-- Clear bits and reservations change together. -/
theorem StepEffect.balance (h : m.StepEffect st m' st') (hok : m₀.CallOk m st) :
    (m'.pt2 e).untaken + m.entries e / 2 + tally (st.reserved? = some e) =
      (m.pt2 e).untaken + m'.entries e / 2 + tally (st'.reserved? = some e) := by
  cases h with
  | goesOn hent ht hr => rw [PageTable2.untaken, ht e, hent, hr, PageTable2.untaken]
  | @reserves e' value hv =>
    by_cases hee : e' = e
    · subst hee
      rw [tally_of_not (by simp [TakeState.reserved?]), tally_of (by rfl)]
      simp only [Function.update_self]
      have := hok.2.1
      have := hok.2.2
      omega
    · rw [tally_of_not (by simp [TakeState.reserved?]),
        tally_of_not (by simpa [TakeState.reserved?] using hee)]
      simp only [Function.update_of_ne (Ne.symm hee)]
  | @takes e' r i hclear =>
    by_cases hee : e' = e
    · subst hee
      rw [tally_of (by rfl), tally_of_not (by simp [TakeState.reserved?])]
      have := PageTable2.untaken_fetchOr hok.2.1 hok.2.2.1 hclear
      simp only [Function.update_self]
      omega
    · rw [tally_of_not (by simpa [TakeState.reserved?] using hee),
        tally_of_not (by simp [TakeState.reserved?])]
      simp only [Function.update_of_ne (Ne.symm hee)]

/-- An empty entry stays empty. -/
theorem StepEffect.entries_zero (h : m.StepEffect st m' st') (hz : m.entries e = 0) :
    m'.entries e = 0 := by
  cases h with
  | goesOn hent => rw [hent, hz]
  | @reserves e' value hv =>
    by_cases hee : e = e'
    · subst hee
      simp [← hv, hz]
    · simp [hee, hz]
  | takes => exact hz

/-- The counters are counted down by two. -/
theorem StepEffect.even (h : m.StepEffect st m' st') (hz : m.entries e % 2 = 0) :
    m'.entries e % 2 = 0 := by
  cases h with
  | goesOn hent => rw [hent, hz]
  | @reserves e' value hv =>
    by_cases hee : e = e'
    · subst hee
      simp only [Function.update_self]
      omega
    · simp [hee, hz]
  | takes => exact hz

/-- A call stays in the tables of its bucket. -/
theorem CallOk.outside (h : m₀.CallOk m st) (hs : m.step st = some (m', st'))
    (he : PageTable1.maxEntries ≤ e) : m'.pt2 e = m.pt2 e := by
  match st, h with
  | .load _, _ | .reserve .., _ | .scan .., _ =>
    simp only [step] at hs
    split at hs <;> (cases hs; rfl)
  | .mark e' r i, h =>
    simp only [step, Option.some.injEq, Prod.mk.injEq] at hs
    obtain ⟨rfl, -⟩ := hs
    have hne : e ≠ e' := by
      have := h.1
      omega
    simp [hne]

/-- A call that finds nothing has looked at the last entry. -/
theorem step_done_none (hs : m.step st = some (m', .done none)) :
    ∃ e, st = .load e ∧ PageTable1.maxEntries ≤ e + 1 ∧ (m.entries e = 0 ∨ m.entries e % 2 = 1) := by
  match st with
  | .load e =>
    simp only [step] at hs
    split at hs
    · refine ⟨e, rfl, ?_, ‹_›⟩
      by_contra hlt
      rw [if_pos (by omega)] at hs
      cases hs
    · cases hs
  | .reserve .. =>
    simp only [step] at hs
    split at hs <;> cases hs
  | .scan .. =>
    simp only [step] at hs
    split at hs
    · split at hs <;> cases hs
    · cases hs
  | .mark .. =>
    simp only [step] at hs
    split at hs <;> cases hs

/-- A call looks at an entry only if those before it are empty. -/
def Before (m : Bucket) : TakeState → Prop
  | .load e | .reserve e _ => ∀ e' < e, m.entries e' = 0
  | _ => True

/-- The entries before the one a call looks at are still empty. -/
theorem Before.step (h : m.Before st) (heven : ∀ e < PageTable1.maxEntries, m.entries e % 2 = 0)
    (hok : m₀.CallOk m st) (hs : m.step st = some (m', st')) : m'.Before st' := by
  match st, hok with
  | .load e, hlt =>
    simp only [Bucket.step] at hs
    split at hs
    · rename_i hv
      cases hs
      split
      · intro e' he'
        rcases Nat.lt_succ_iff_lt_or_eq.mp he' with hlt' | rfl
        · exact h e' hlt'
        · have := heven e' hlt
          omega
      · trivial
    · cases hs
      exact h
  | .reserve e value, hlt =>
    simp only [Bucket.step] at hs
    split at hs
    · cases hs
      trivial
    · cases hs
      exact h
  | .scan .., _ =>
    simp only [Bucket.step] at hs
    split at hs
    · cases hs
      split <;> trivial
    · cases hs
      trivial
  | .mark .., _ =>
    simp only [Bucket.step, Option.some.injEq, Prod.mk.injEq] at hs
    obtain ⟨-, rfl⟩ := hs
    split <;> trivial

/-- **A call finds what it should** at its next place. -/
theorem CallOk.step (h : m₀.CallOk m st) (hg : m₀.Grows m)
    (hpos : ∀ e, st.reserved? = some e → 0 < (m.pt2 e).untaken) (hs : m.step st = some (m', st')) :
    m₀.CallOk m' st' := by
  have hgrows := (h.stepEffect hpos hs).grows h
  match st, h with
  | .load e, h =>
    simp only [Bucket.step] at hs
    split at hs
    · cases hs
      split
      · assumption
      · trivial
    · rename_i hv
      cases hs
      exact ⟨h, by omega, by omega⟩
  | .reserve e value, h =>
    simp only [Bucket.step] at hs
    split at hs
    · cases hs
      exact ⟨h.1, by decide, fun r' hr' ↦ absurd hr' (Nat.not_lt_zero _)⟩
    · cases hs
      exact h.1
  | .scan e r, h =>
    simp only [Bucket.step] at hs
    split at hs
    · rename_i hf
      cases hs
      rw [if_pos (h.scan_next hf (hpos e rfl))]
      refine ⟨h.1, h.scan_next hf (hpos e rfl), fun r' hr' ↦ ?_⟩
      rcases Nat.lt_succ_iff_lt_or_eq.mp hr' with hlt | rfl
      · exact h.2.2 r' hlt
      · exact hf
    · rename_i hf
      cases hs
      exact ⟨h.1, h.2.1, (countrOne_lt (by simpa [PageTable2.full] using hf)).1, h.2.2⟩
  | .mark e r i, ⟨he, hr, hi, hf⟩ =>
    simp only [Bucket.step, Option.some.injEq, Prod.mk.injEq] at hs
    obtain ⟨rfl, rfl⟩ := hs
    split
    · exact ⟨he, hr, fun r' hr' ↦ hgrows.full (hf r' hr')⟩
    · rename_i hb
      refine ⟨he, ?_, ?_, ?_⟩
      · simp only [PageTable2.maxPages, PageTable2.rowDigits, PageTable2.atomicsCount] at *
        omega
      · rw [← PageTable2.taken_row hi] at hb
        by_contra hne
        exact hb (hg e _ (by simpa using hne))
      · simp only [Function.update_self]
        rw [PageTable2.taken_fetchOr hi, Function.update_self]

end Bucket

/-! ## The machine -/

/-- The calls of `take` on one level-1 table. -/
structure Takers where
  bucket : Bucket
  call : ℕ → Option TakeState

/-- A call begins, or goes on. -/
inductive TakeAction where
  | call (c : ℕ)
  | step (c : ℕ)
deriving DecidableEq

namespace Takers

/-- The next state, or none where the action does not apply. -/
def next (s : Takers) : TakeAction → Option Takers
  | .call c =>
    if s.call c = none then some { s with call := update s.call c (some (.load 0)) } else none
  | .step c => do
    let st ← s.call c
    let (b, st') ← s.bucket.step st
    some ⟨b, update s.call c (some st')⟩

/-- Runs of any number of calls on a bucket. -/
def machine (b : Bucket) : Machine Takers TakeAction where
  init := ⟨b, fun _ ↦ none⟩
  next := next

variable {s s' : Takers} {m₀ : Bucket} {T : Finset ℕ} {c : ℕ} {a : TakeAction}

/-- Nobody interferes with a call. -/
theorem reachable_alone {m m' : Bucket} {st st' : TakeState} (h : Bucket.Alone (m, st) (m', st'))
    (hs : (machine m₀).Reachable s) (hb : s.bucket = m) (hc : s.call c = some st) :
    (machine m₀).Reachable ⟨m', update s.call c (some st')⟩ := by
  generalize hq : (m', st') = q at h
  induction h generalizing m' st' with
  | refl =>
    cases hq
    rwa [← hb, ← hc, Function.update_eq_self]
  | @tail p q _ hstep ih =>
    subst hq
    obtain ⟨b, st₁⟩ := p
    refine (ih rfl).step (e := .step c) ?_
    simp only [machine, next, Function.update_self, Option.bind_eq_bind, Option.bind_some]
    rw [show b.step st₁ = some (m', st') from hstep]
    simp

/-- **The sequential `take` is one of the interleavings.**  A call that runs from its beginning to
its end while the others stand still returns what `Bucket.take` does, whatever they have done so
far. -/
theorem reachable_take {result : Option (ℕ × ℕ)} {m' : Bucket} (hs : (machine m₀).Reachable s)
    (hc : s.call c = none) (ht : s.bucket.take = some (result, m')) :
    (machine m₀).Reachable ⟨m', update s.call c (some (.done result))⟩ := by
  have hcall : (machine m₀).Reachable { s with call := update s.call c (some (.load 0)) } :=
    hs.step (e := .call c) (if_pos hc)
  have hrun := reachable_alone (Bucket.alone_take ht) hcall rfl (Function.update_self ..)
  rwa [Function.update_idem] at hrun

/-- The call has reserved a page in the entry that it has not taken yet. -/
def Reserved (s : Takers) (e c : ℕ) : Prop := (s.call c).bind TakeState.reserved? = some e

/-- The clear bits are those of the counters and of the reservations. -/
def Balanced (s : Takers) (T : Finset ℕ) : Prop := ∀ e < PageTable1.maxEntries,
  (s.bucket.pt2 e).untaken = s.bucket.entries e / 2 + count T (s.Reserved e)

/-- The calls of `T` started with the bucket `m₀`. -/
structure Inv (m₀ : Bucket) (T : Finset ℕ) (s : Takers) : Prop where
  outside : ∀ c, c ∉ T → s.call c = none
  grows : m₀.Grows s.bucket
  ok : ∀ c st, s.call c = some st → m₀.CallOk s.bucket st
  balanced : s.Balanced T
  unique : ∀ c c' x, s.call c = some (.done (some x)) → s.call c' = some (.done (some x)) → c = c'

theorem Inv.call (h : s.Inv m₀ T) (hc : s.call c = none) :
    Inv m₀ (insert c T) { s with call := update s.call c (some (.load 0)) } := by
  have hres : ∀ e c', Reserved { s with call := update s.call c (some (.load 0)) } e c' ↔
      s.Reserved e c' := fun e c' ↦ by
    by_cases hcc : c' = c
    · subst hcc
      simp [Reserved, hc, TakeState.reserved?]
    · simp [Reserved, hcc]
  refine ⟨fun c' hc' ↦ ?_, h.grows, fun c' st hst ↦ ?_, fun e he ↦ ?_, fun c₁ c₂ x h₁ h₂ ↦ ?_⟩
  · rw [Finset.mem_insert, not_or] at hc'
    simpa [hc'.1] using h.outside c' hc'.2
  · by_cases hcc : c' = c
    · subst hcc
      simp only [Function.update_self, Option.some.injEq] at hst
      subst hst
      exact Nat.zero_lt_succ _
    · exact h.ok c' st (by simpa [hcc] using hst)
  · rw [count_congr fun c' _ ↦ hres e c', h.balanced e he]
    by_cases hcT : c ∈ T
    · rw [Finset.insert_eq_of_mem hcT]
    · rw [count_insert hcT, tally_of_not (by simp [Reserved, hc])]
      rfl
  · have hne : ∀ {c'}, update s.call c (some (.load 0)) c' = some (.done (some x)) →
        s.call c' = some (.done (some x)) := fun {c'} h' ↦ by
      by_cases hcc : c' = c
      · subst hcc
        simp at h'
      · simpa [hcc] using h'
    exact h.unique c₁ c₂ x (hne h₁) (hne h₂)

/-- A call with a reservation finds a clear bit. -/
theorem Inv.untaken_pos (h : s.Inv m₀ T) {st : TakeState} (hc : s.call c = some st) {e : ℕ}
    (he : st.reserved? = some e) : 0 < (s.bucket.pt2 e).untaken := by
  have hlt : e < PageTable1.maxEntries := by
    have := h.ok c st hc
    cases st <;> cases he <;> exact this.1
  have hmem : c ∈ T := by
    by_contra hn
    rw [h.outside c hn] at hc
    cases hc
  have := count_pos (P := s.Reserved e) hmem (by simp [Reserved, hc, he])
  rw [h.balanced e hlt]
  omega

theorem Inv.balanced_step (h : s.Inv m₀ T) {st st' : TakeState} {b : Bucket}
    (hc : s.call c = some st)
    (he : s.bucket.StepEffect st b st') : Balanced ⟨b, update s.call c (some st')⟩ T := by
  have hmem : c ∈ T := by
    by_contra hn
    rw [h.outside c hn] at hc
    cases hc
  have hok := h.ok c st hc
  have hother : ∀ {e c'}, c' ≠ c →
      (Reserved ⟨b, update s.call c (some st')⟩ e c' ↔ s.Reserved e c') :=
    fun hne ↦ by simp [Reserved, hne]
  have hself : ∀ {e}, Reserved ⟨b, update s.call c (some st')⟩ e c ↔ st'.reserved? = some e := by
    simp [Reserved]
  have hself' : ∀ {e}, s.Reserved e c ↔ st.reserved? = some e := by simp [Reserved, hc]
  intro e hlt
  have hcount := count_change (P := Reserved ⟨b, update s.call c (some st')⟩ e) (Q := s.Reserved e)
    hmem fun c' _ hne ↦ hother hne
  rw [tally_congr hself, tally_congr hself'] at hcount
  have hbal := h.balanced e hlt
  have := he.balance (e := e) hok
  dsimp only
  omega

/-- **An atomic operation keeps the bookkeeping.** -/
theorem Inv.step (h : s.Inv m₀ T) {st st' : TakeState} {b : Bucket} (hc : s.call c = some st)
    (hs : s.bucket.step st = some (b, st')) : Inv m₀ T ⟨b, update s.call c (some st')⟩ := by
  have hok := h.ok c st hc
  have hpos : ∀ e, st.reserved? = some e → 0 < (s.bucket.pt2 e).untaken :=
    fun e he ↦ h.untaken_pos hc he
  have he := hok.stepEffect hpos hs
  have hgrows := he.grows hok
  refine ⟨fun c' hc' ↦ ?_, fun e j hj ↦ hgrows e j (h.grows e j hj), fun c' st₁ hst ↦ ?_,
    h.balanced_step hc he, fun c₁ c₂ x h₁ h₂ ↦ ?_⟩
  · have hcc : c' ≠ c := by
      rintro rfl
      rw [h.outside _ hc'] at hc
      cases hc
    simpa [hcc] using h.outside c' hc'
  · by_cases hcc : c' = c
    · subst hcc
      simp only [Function.update_self, Option.some.injEq] at hst
      subst hst
      exact hok.step h.grows hpos hs
    · exact (h.ok c' st₁ (by simpa [hcc] using hst)).mono hgrows
  · -- the bit of a call that has just finished was clear
    have hnew : ∀ {c'}, c' ≠ c → s.call c' = some (.done (some x)) → st' ≠ .done (some x) := by
      rintro c' - hx rfl
      cases he with
      | goesOn _ _ _ hd => exact hd x rfl
      | takes hclear =>
        have := (h.ok c' _ hx).2.2.2
        rw [hclear] at this
        cases this
    by_cases hc₁ : c₁ = c <;> by_cases hc₂ : c₂ = c
    · rw [hc₁, hc₂]
    · subst hc₁
      simp only [Function.update_self, Option.some.injEq, Function.update_of_ne hc₂] at h₁ h₂
      exact absurd h₁ (hnew hc₂ h₂)
    · subst hc₂
      simp only [Function.update_self, Option.some.injEq, Function.update_of_ne hc₁] at h₁ h₂
      exact absurd h₂ (hnew hc₁ h₁)
    · exact h.unique c₁ c₂ x (by simpa [hc₁] using h₁) (by simpa [hc₂] using h₂)

theorem inv_init (hb : ∀ e < PageTable1.maxEntries, (m₀.pt2 e).untaken = m₀.entries e / 2) :
    Inv m₀ ∅ (machine m₀).init where
  outside _ _ := rfl
  grows _ _ := id
  ok c st hc := by cases hc
  balanced e he := by
    rw [count_eq_zero fun c hc ↦ absurd hc (Finset.notMem_empty c)]
    exact hb e he
  unique c _ x hc := by cases hc

theorem inv_of_reachable (hb : ∀ e < PageTable1.maxEntries, (m₀.pt2 e).untaken = m₀.entries e / 2)
    (h : (machine m₀).Reachable s) : ∃ T, s.Inv m₀ T := by
  refine h.invariant (I := fun s ↦ ∃ T, s.Inv m₀ T) ⟨∅, inv_init hb⟩ ?_
  rintro s a s' - ⟨T, hI⟩ hn
  cases a with
  | call c =>
    simp only [machine, next] at hn
    split at hn
    · cases hn
      exact ⟨_, hI.call ‹_›⟩
    · cases hn
  | step c =>
    obtain ⟨st, hc, hn⟩ := Option.bind_eq_some_iff.mp hn
    obtain ⟨⟨b, st'⟩, hs, hn⟩ := Option.bind_eq_some_iff.mp hn
    cases hn
    exact ⟨T, hI.step hc hs⟩

/-- The call is over. -/
def Over (s : Takers) (c : ℕ) : Prop := ∀ st, s.call c = some st → ∃ r, st = .done r

/-- **Lock-free page taking is correct.**  No call fails to find a clear bit after its reservation,
no two calls return the same index, every returned bit was clear and is set, and the counters are
right when no call is in progress. -/
theorem take_correct (hb : ∀ e < PageTable1.maxEntries, (m₀.pt2 e).untaken = m₀.entries e / 2)
    (h : (machine m₀).Reachable s) :
    (∀ c, s.call c ≠ some .failed) ∧
      (∀ c c' x x', s.call c = some (.done (some x)) → s.call c' = some (.done (some x')) →
        Bucket.index x = Bucket.index x' → c = c') ∧
      (∀ c e j, s.call c = some (.done (some (e, j))) → e < PageTable1.maxEntries ∧
        j < PageTable2.maxPages ∧ (m₀.pt2 e).taken j = false ∧ (s.bucket.pt2 e).taken j = true) ∧
      ((∀ c, s.Over c) → ∀ e < PageTable1.maxEntries,
        (s.bucket.pt2 e).untaken = s.bucket.entries e / 2) := by
  obtain ⟨T, hI⟩ := inv_of_reachable hb h
  refine ⟨fun c hc ↦ hI.ok c _ hc, fun c c' x x' hc hc' hx ↦ ?_, fun c e j hc ↦ hI.ok c _ hc,
    fun hover e he ↦ ?_⟩
  · obtain ⟨-, hj, -⟩ := hI.ok c _ hc
    obtain ⟨-, hj', -⟩ := hI.ok c' _ hc'
    obtain ⟨h₁, h₂⟩ := Bucket.index_inj hj hj' hx
    exact hI.unique c c' x hc (by rw [hc', Prod.ext h₁ h₂])
  · rw [hI.balanced e he, count_eq_zero, Nat.add_zero]
    intro c _ hr
    obtain ⟨st, hc, hst⟩ := Option.bind_eq_some_iff.mp hr
    obtain ⟨r, rfl⟩ := hover c st hc
    cases hst

theorem untaken_init (e : ℕ) : (Bucket.init.pt2 e).untaken = Bucket.init.entries e / 2 := by
  rw [show Bucket.init.pt2 e = .init from rfl, PageTable2.untaken_init]
  simp [Bucket.init, PageTable1.initialValue]

/-- Two calls that see the same clear bit. -/
def twoTakes : List TakeAction :=
  [.call 0, .call 1, .step 0, .step 1, .step 0, .step 1, .step 1, .step 1, .step 0, .step 1,
    .step 0,
    .step 1, .step 1, .step 1]

theorem take_correct_two : ((machine .init).after twoTakes).call 0 = some (.done (some (0, 0))) ∧
    ((machine .init).after twoTakes).call 1 = some (.done (some (0, 1))) ∧
      ∀ c, ((machine .init).after twoTakes).call c ≠ some .failed :=
  ⟨by decide +kernel, by decide +kernel,
    (take_correct (fun e _ ↦ untaken_init e) (Machine.reachable_after twoTakes)).1⟩

end Takers

end Chino
