import Chino.Library.Run
import Chino.Mm.PageTable
import Mathlib.Order.Interval.Finset.Nat

/-!
# The search for a clear bit, and what the compiler is told

`page_table_2::set_first_untaken` has a loop over the rows and in it a loop that tries again when
another CPU was faster.  Between them stands a `CHINO_ASSUME`, which is `__builtin_assume` for every
compiler but one: the compiler may rely on what it says.

The functions here have both loops and write down the value of `first_zero_index` at each execution
of the assumption.  A call that nobody interferes with never tries again, and does what
`setFirstUntaken` says (`search_eq`); so it is exact.  The assumption excludes an empty row, and
each row is empty once: `search_correct_iff` says that of the tables that calls lead to, it holds in
just those whose clear bits are not a positive number of whole rows.

## What is here

`search` has both loops as they stand in the source, and is compared with `setFirstUntaken` of
`Chino.Mm.PageTable`, which is what the other modules use.  `BitmapSearch` is how a call ends, with
the values that `first_zero_index` had when the assumption was executed.

* `Exact` is the property of the search itself: it finds the first clear bit and sets it, or there
  is none.  This holds for every table.
* `AssumptionHolds` is about the hint: the value is not zero.  In an empty row the first clear bit
  has the index zero, so the hint is false there, although the search is right.

The tables that calls lead to are those whose first `n` bits are set (`SetBefore`), so the exact
condition can be said in terms of `n`, and `search_correct_iff` is an equivalence.
-/

set_option autoImplicit false

namespace Chino

/-- How a call of `set_first_untaken` ends. -/
structure BitmapSearch where
  /-- `first_zero_index` at each execution of `CHINO_ASSUME` -/
  assumed : List ℕ
  result : Option ℕ
  table : PageTable2

/-- What `CHINO_ASSUME` says holds whenever it is executed. -/
def BitmapSearch.AssumptionHolds (s : BitmapSearch) : Prop :=
  ∀ firstZeroIndex ∈ s.assumed, 0 < firstZeroIndex ∧ firstZeroIndex < PageTable2.rowDigits

namespace PageTable2

/-- The `while (true)` for a row, of which at most `fuel` rounds are made. -/
def searchRow (r : ℕ) : ℕ → PageTable2 → Option BitmapSearch
  | 0, _ => none
  | fuel + 1, t =>
    let rowValue := t.rows r
    if rowValue ≠ BitVec.allOnes 64 then
      let firstZeroIndex := countrOne rowValue
      let mask := 1#64 <<< firstZeroIndex
      let t' := t.fetchOr r firstZeroIndex
      if rowValue &&& mask = 0 then
        some ⟨[firstZeroIndex], some (r * rowDigits + firstZeroIndex), t'⟩
      else do
        let s ← searchRow r fuel t'
        some { s with assumed := firstZeroIndex :: s.assumed }
    else some ⟨[], none, t⟩

/-- The outer loop, over the rows of the table. -/
def searchRows (fuel : ℕ) : List ℕ → PageTable2 → Option BitmapSearch
  | [], t => some ⟨[], none, t⟩
  | r :: rs, t => do
    let s ← searchRow r fuel t
    if s.result.isSome then some s
    else
      let s' ← searchRows fuel rs s.table
      some { s' with assumed := s.assumed ++ s'.assumed }

/-- `set_first_untaken`, if no row takes more than `fuel` rounds -/
def search (fuel : ℕ) (t : PageTable2) : Option BitmapSearch :=
  searchRows fuel (List.range atomicsCount) t

/-- Calls of `set_first_untaken` one after the other. -/
def machine : Machine PageTable2 ℕ where
  init := init
  next t fuel := (t.search fuel).map BitmapSearch.table

variable {t : PageTable2} {fuel r : ℕ} {rs : List ℕ}

/-! ## A call that is alone -/

/-- The bit that was found is clear, so the first round is the last one. -/
theorem searchRow_of_not_full (h : t.full r = false) : searchRow r (fuel + 1) t =
    some ⟨[countrOne (t.rows r)], some (r * rowDigits + countrOne (t.rows r)),
      t.fetchOr r (countrOne (t.rows r))⟩ := by
  have hne : t.rows r ≠ BitVec.allOnes 64 := by simpa [full] using h
  obtain ⟨hlt, hclear, -⟩ := countrOne_lt hne
  have hmask : t.rows r &&& 1#64 <<< countrOne (t.rows r) = 0 := by
    refine BitVec.eq_of_getLsbD_eq fun i _ ↦ ?_
    rw [BitVec.getLsbD_and, getLsbD_mask hlt]
    by_cases hi : i = countrOne (t.rows r)
    · simp [hi, hclear]
    · simp [hi]
  rw [searchRow, if_pos hne, if_pos hmask]

theorem searchRow_of_full (h : t.full r = true) :
    searchRow r (fuel + 1) t = some ⟨[], none, t⟩ := by
  rw [searchRow, if_neg (by simpa [full] using h)]

/-- The rows before the first one with a clear bit are passed over. -/
theorem searchRows_eq : searchRows (fuel + 1) rs t =
    some (match rs.find? fun r ↦ !t.full r with
      | some r => ⟨[countrOne (t.rows r)], some (r * rowDigits + countrOne (t.rows r)),
          t.fetchOr r (countrOne (t.rows r))⟩
      | none => ⟨[], none, t⟩) := by
  induction rs with
  | nil => rfl
  | cons r rs ih =>
    rw [searchRows]
    cases hf : t.full r with
    | false =>
      rw [searchRow_of_not_full hf, List.find?_cons_of_pos (by simp [hf])]
      rfl
    | true =>
      rw [searchRow_of_full hf, List.find?_cons_of_neg (by simp [hf])]
      simp only [Option.bind_eq_bind, Option.bind_some, Option.isSome_none, Bool.false_eq_true,
        if_false, List.nil_append]
      rw [ih]
      rfl

/-- **The loops are `setFirstUntaken`**, with one execution of the assumption if there is a clear
bit. -/
theorem search_eq : t.search (fuel + 1) =
    some (match t.setFirstUntaken with
      | some (j, t') => ⟨[j % rowDigits], some j, t'⟩
      | none => ⟨[], none, t⟩) := by
  rw [search, searchRows_eq, setFirstUntaken]
  cases hr : (List.range atomicsCount).find? fun r ↦ !t.full r with
  | none => rfl
  | some r =>
    have hne : t.rows r ≠ BitVec.allOnes 64 := by simpa [full] using List.find?_some hr
    have hlt := (countrOne_lt hne).1
    have hmod : (r * rowDigits + countrOne (t.rows r)) % rowDigits = countrOne (t.rows r) := by
      simp only [rowDigits]
      omega
    simp only [Option.map_some, hmod]

/-! ## The tables that calls lead to -/

/-- The bits before the `n`-th one are set. -/
def SetBefore (t : PageTable2) (n : ℕ) : Prop :=
  n ≤ maxPages ∧ ∀ j < maxPages, t.taken j = decide (j < n)

theorem setBefore_init : init.SetBefore 0 := ⟨Nat.zero_le _, fun j _ ↦ by simp [init, taken]⟩

theorem SetBefore.untaken {n : ℕ} (h : t.SetBefore n) : t.untaken = maxPages - n := by
  have heq :
      ((Finset.range maxPages).filter fun j ↦ t.taken j = false) = Finset.Ico n maxPages := by
    ext j
    rw [Finset.mem_filter, Finset.mem_range, Finset.mem_Ico]
    constructor
    · rintro ⟨hj, hc⟩
      rw [h.2 j hj] at hc
      exact ⟨by simpa using hc, hj⟩
    · rintro ⟨hle, hj⟩
      exact ⟨hj, by simpa [h.2 j hj] using hle⟩
  rw [PageTable2.untaken, heq, Nat.card_Ico]

/-- The bit that a call finds is the first one that is not set. -/
theorem SetBefore.eq_of_setFirstUntaken {n j : ℕ} {t' : PageTable2} (h : t.SetBefore n)
    (hs : t.setFirstUntaken = some (j, t')) : j = n := by
  obtain ⟨hj, hclear, hbefore, -⟩ := setFirstUntaken_spec hs
  rw [h.2 j hj, decide_eq_false_iff_not, not_lt] at hclear
  refine le_antisymm (le_of_not_gt fun hlt ↦ ?_) hclear
  have := hbefore n hlt
  simp [h.2 n (hlt.trans hj)] at this

theorem SetBefore.next {n : ℕ} {t' : PageTable2} (h : t.SetBefore n)
    (hn : machine.next t fuel = some t') :
    ∃ n', t'.SetBefore n' := by
  obtain ⟨s, hs, rfl⟩ := Option.map_eq_some_iff.mp hn
  cases fuel with
  | zero => cases hs
  | succ fuel =>
    rw [search_eq] at hs
    cases hf : t.setFirstUntaken with
    | none =>
      rw [hf] at hs
      cases hs
      exact ⟨n, h⟩
    | some q =>
      obtain ⟨j, t₁⟩ := q
      rw [hf] at hs
      cases hs
      obtain rfl := h.eq_of_setFirstUntaken hf
      obtain ⟨hj, -, -, ht⟩ := setFirstUntaken_spec hf
      refine ⟨j + 1, hj, fun i hi ↦ ?_⟩
      dsimp only
      rw [ht]
      by_cases hij : i = j
      · subst hij
        simp
      · rw [Function.update_of_ne hij, h.2 i hi, decide_eq_decide]
        omega

theorem setBefore_of_reachable (h : machine.Reachable t) : ∃ n, t.SetBefore n :=
  h.invariant (I := fun t ↦ ∃ n, t.SetBefore n) ⟨0, setBefore_init⟩
    fun _ _ _ _ ⟨_, hI⟩ hn ↦ hI.next hn

/-! ## Exactness and the assumption -/

/-- The call finds the first clear bit and sets it, and fails if there is none. -/
structure Exact (t : PageTable2) (s : BitmapSearch) : Prop where
  least : ∀ j, s.result = some j ↔ j < maxPages ∧ t.taken j = false ∧ ∀ i < j, t.taken i = true
  sets : ∀ j, s.result = some j → s.table.taken = Function.update t.taken j true
  fails : s.result = none ↔ ∀ j < maxPages, t.taken j = true
  unchanged : s.result = none → s.table = t

/-- **The search is exact**, whatever the table. -/
theorem search_exact (t : PageTable2) :
    ∃ s, (∀ fuel, t.search (fuel + 1) = some s) ∧ t.Exact s := by
  refine ⟨_, fun fuel ↦ search_eq, ?_⟩
  cases hf : t.setFirstUntaken with
  | none =>
    have hall : ∀ j < maxPages, t.taken j = true := fun j hj ↦ setFirstUntaken_none hf hj
    refine ⟨fun j ↦ iff_of_false (by simp) ?_, by simp, iff_of_true rfl hall, fun _ ↦ rfl⟩
    rintro ⟨hj, hclear, -⟩
    rw [hall j hj] at hclear
    cases hclear
  | some q =>
    obtain ⟨n, t'⟩ := q
    obtain ⟨hn, hclear, hbefore, ht⟩ := setFirstUntaken_spec hf
    refine ⟨fun j ↦ ⟨?_, ?_⟩, ?_, iff_of_false (by simp) fun hall ↦ ?_, by simp⟩
    · intro hj
      cases hj
      exact ⟨hn, hclear, hbefore⟩
    · rintro ⟨hj, hc, hb⟩
      rcases Nat.lt_trichotomy n j with hlt | rfl | hlt
      · rw [hb n hlt] at hclear
        cases hclear
      · rfl
      · rw [hbefore j hlt] at hc
        cases hc
    · intro j hj
      cases hj
      exact ht
    · rw [hall n hn] at hclear
      cases hclear

/-- **When the compiler is told the truth**: unless the clear bits are those of one or more whole
rows, so that the row of the first one is empty. -/
theorem search_correct_iff (h : machine.Reachable t) :
    (∃ s, (∀ fuel, t.search (fuel + 1) = some s) ∧ t.Exact s ∧ s.AssumptionHolds) ↔
      t.untaken = 0 ∨ t.untaken % rowDigits ≠ 0 := by
  obtain ⟨n, hI⟩ := setBefore_of_reachable h
  obtain ⟨s, hs, hexact⟩ := search_exact t
  have hassumed : s.AssumptionHolds ↔ n = maxPages ∨ n % rowDigits ≠ 0 := by
    have hs₀ := (hs 0).symm.trans search_eq
    cases hf : t.setFirstUntaken with
    | none =>
      rw [hf] at hs₀
      cases hs₀
      refine iff_of_true (by simp [BitmapSearch.AssumptionHolds]) (Or.inl ?_)
      by_contra hne
      have hlt : n < maxPages := lt_of_le_of_ne hI.1 hne
      have := setFirstUntaken_none hf hlt
      simp [hI.2 n hlt] at this
    | some q =>
      obtain ⟨j, t'⟩ := q
      rw [hf] at hs₀
      cases hs₀
      obtain rfl := hI.eq_of_setFirstUntaken hf
      have hj := (setFirstUntaken_spec hf).1
      simp only [BitmapSearch.AssumptionHolds, List.mem_singleton, forall_eq, rowDigits,
        maxPages] at hj ⊢
      omega
  have hcond : t.untaken = 0 ∨ t.untaken % rowDigits ≠ 0 ↔ n = maxPages ∨ n % rowDigits ≠ 0 := by
    have hle := hI.1
    rw [hI.untaken]
    simp only [maxPages, rowDigits] at hle ⊢
    omega
  rw [hcond, ← hassumed]
  constructor
  · rintro ⟨s', hs', -, hholds⟩
    obtain rfl := Option.some.inj ((hs 0).symm.trans (hs' 0))
    exact hholds
  · exact fun hholds ↦ ⟨s, hs, hexact, hholds⟩

/-- After one call there are 511 clear bits. -/
theorem search_correct_iff_once :
    ∃ s, (∀ fuel, (machine.after [1]).search (fuel + 1) = some s) ∧ (machine.after [1]).Exact s ∧
      s.AssumptionHolds :=
  (search_correct_iff (Machine.reachable_after [1])).mpr (Or.inr (by decide +kernel))

/-- The first call of all finds an empty row. -/
theorem assumption_fails : machine.Reachable init ∧
    ∀ s, init.search 1 = some s → s.result = some 0 ∧ ¬ s.AssumptionHolds := by
  refine ⟨.init, fun s hs ↦ ?_⟩
  have hassumed : s.assumed = [0] ∧ s.result = some 0 := by
    have he : (init.search 1).map (fun s ↦ (s.assumed, s.result)) = some ([0], some 0) := by
      decide +kernel
    rw [hs] at he
    exact Prod.ext_iff.mp (Option.some.inj he)
  refine ⟨hassumed.2, fun h ↦ ?_⟩
  exact absurd (h 0 (by simp [hassumed.1])).1 (lt_irrefl 0)

end PageTable2

end Chino
