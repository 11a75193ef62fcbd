import Chino.Library.Run
import Chino.Ob.ObjectPool

/-!
# Handle tables

A handle is the index of an entry in an object pool, plus `fd_base`.  An entry is used if its first
word is not zero, and that word is the pointer to its object.

Here the operations of a table run one after another.  `handle_table_map` says that the table is a
finite map from handles to objects with their access masks.

## The map

* `Ok` relates the pool to a map from indices to entries: the free list has the elements that the
  map does not have, and an element that it has holds its object and its mask.
* `ok_perform` goes through the operations.  `allocate` gives an index that is not in the map, the
  first one of the free list; `free` takes an index out and says whether it was there; `at` finds
  what is in the map, and an error for everything else, be it out of range or not in use.
* `handle_table_map` puts this into words for runs of any length, with the log of what each
  operation has returned.

The mask shares a word with bits that nobody uses; what is read is what was written to its half
(`ObjectEntry.grantedAccess_setGrantedAccess`).
-/

set_option autoImplicit false

namespace Chino

open Function (update)

/-- `access_mask` -/
abbrev AccessMask := BitVec 32

/-- The address of an object that exists. -/
abbrev ObjectAddress := {a : ℕ // a ≠ 0}

/-! ## Entries -/

/-- An element as a `handle_entry`: a pointer, and a mask in the lower half of the second word. -/
def ObjectEntry.object (e : ObjectEntry) : ℕ := e.used

/-- The mask, which is the lower half of the second word. -/
def ObjectEntry.grantedAccess (e : ObjectEntry) : AccessMask := BitVec.ofNat 32 e.next

/-- The pointer is written. -/
def ObjectEntry.setObject (e : ObjectEntry) (object : ℕ) : ObjectEntry := { e with used := object }

/-- The mask is written, and the upper half of the word stays. -/
def ObjectEntry.setGrantedAccess (e : ObjectEntry) (grantedAccess : AccessMask) : ObjectEntry :=
  { e with next := e.next / 2 ^ 32 * 2 ^ 32 + grantedAccess.toNat }

@[simp] theorem ObjectEntry.grantedAccess_setGrantedAccess (e : ObjectEntry) (mask : AccessMask) :
    (e.setGrantedAccess mask).grantedAccess = mask := by
  refine BitVec.eq_of_toNat_eq ?_
  have := mask.isLt
  simp only [grantedAccess, setGrantedAccess, BitVec.toNat_ofNat]
  omega

theorem ObjectEntry.used_setGrantedAccess (e : ObjectEntry) (mask : AccessMask) :
    (e.setGrantedAccess mask).used = e.used := rfl

/-! ## The table -/

/-- `fd_base`, behind the standard streams -/
def fdBase : ℤ := 3

/-- A table with the objects whose `add_ref` and `dec_ref` it has called. -/
structure HandleTable where
  pool : ObjectSegment
  added : List ℕ
  dropped : List ℕ

namespace HandleTable

/-- A table with all entries free. -/
def init (address : ℕ) : HandleTable := ⟨.init address, [], []⟩

/-- `allocate`: the entry is constructed in the element, and its object gets a reference. -/
def allocate (t : HandleTable) (object : ObjectAddress) (grantedAccess : AccessMask) :
    Option (Except ErrorCode (ℕ × ℤ) × HandleTable) := do
  match ← t.pool.allocate with
  | (.error e, pool) => some (.error e, { t with pool := pool })
  | (.ok (entry, index), pool) =>
    let pool ← pool.modify entry fun e ↦ (e.setObject object).setGrantedAccess grantedAccess
    some (.ok (entry, index + fdBase), { t with
      pool := pool
      added := t.added ++ [object.val] })

/-- `free`: the destructor drops the reference and clears the pointer, and the element is pushed. -/
def free (t : HandleTable) (fd : ℤ) : Option (Except ErrorCode Unit × HandleTable) :=
  if fd < fdBase then some (.error .invalidArgument, t)
  else
    match t.pool.atWithSegment (fd - fdBase).toNat with
    | .error e => some (.error e, t)
    | .ok entry => do
      let i ← t.pool.element? entry
      let pool ← t.pool.modify entry fun e ↦ e.setObject 0
      let pool ← pool.push entry
      some (.ok (), { t with
        pool := pool
        dropped := t.dropped ++ [(t.pool.element i).object] })

/-- `at` -/
def entryAt (t : HandleTable) (fd : ℤ) : Except ErrorCode ℕ :=
  if fd < fdBase then .error .invalidArgument else t.pool.atWithSegment (fd - fdBase).toNat

/-- The object and the mask of an entry. -/
def read (t : HandleTable) (entry : ℕ) : Option (ℕ × AccessMask) :=
  (t.pool.element? entry).map fun i ↦ ((t.pool.element i).object, (t.pool.element i).grantedAccess)

end HandleTable

/-! ## Runs -/

/-- The member functions of the table. -/
inductive HandleOp where
  | allocate (object : ObjectAddress) (grantedAccess : AccessMask)
  /-- `at` -/
  | entryAt (fd : ℤ)
  | free (fd : ℤ)
deriving DecidableEq

/-- What an operation returns. -/
inductive HandleResult where
  | allocated (fd : ℤ)
  | entry (entry : ℕ)
  | freed
  | error (e : ErrorCode)
deriving DecidableEq

/-- What an operation returns, and the table after it. -/
def HandleTable.perform (t : HandleTable) : HandleOp → Option (HandleResult × HandleTable)
  | .allocate object grantedAccess => (t.allocate object grantedAccess).map fun
    | (.ok (_, fd), t) => (.allocated fd, t)
    | (.error e, t) => (.error e, t)
  | .entryAt fd => some (match t.entryAt fd with
    | .ok entry => .entry entry
    | .error e => .error e, t)
  | .free fd => (t.free fd).map fun
    | (.ok (), t) => (.freed, t)
    | (.error e, t) => (.error e, t)

/-- A table with the operations that it has performed. -/
structure Handles where
  table : HandleTable
  log : List (HandleOp × HandleResult)

namespace Handles

/-- An operation is performed, and goes to the log. -/
def next (s : Handles) (op : HandleOp) : Option Handles :=
  (s.table.perform op).map fun (r, t) ↦ ⟨t, s.log ++ [(op, r)]⟩

/-- Runs of any operations. -/
def machine (address : ℕ) : Machine Handles HandleOp where
  init := ⟨.init address, []⟩
  next := next

end Handles

/-! ## The finite map -/

/-- Handles with their objects and masks. -/
abbrev HandleMap := ℤ → Option (ℕ × AccessMask)

/-- One operation: an allocated handle is there until it is freed. -/
def HandleMap.after (m : HandleMap) : HandleOp × HandleResult → HandleMap
  | (.allocate object grantedAccess, .allocated fd) =>
    update m fd (some (object.val, grantedAccess))
  | (.free fd, .freed) => update m fd none
  | _ => m

/-- The handles that are live after a list of operations. -/
def live (log : List (HandleOp × HandleResult)) : HandleMap :=
  log.foldl HandleMap.after fun _ ↦ none

/-- `at` and the entry it finds say what the map says. -/
def HandleTable.Shows (t : HandleTable) (m : HandleMap) : Prop := ∀ fd,
  match m fd with
  | some x => ∃ entry, t.entryAt fd = .ok entry ∧ t.read entry = some x
  | none => ∃ e, t.entryAt fd = .error e

namespace HandleTable

open ObjectSegment (elementsCount)

variable {t t' : HandleTable} {m : HandleMap} {free : List ℕ} {i : ℕ} {fd : ℤ}

/-- What the words of an element say. -/
def content (e : ObjectEntry) : Option (ℕ × AccessMask) :=
  if e.used = 0 then none else some (e.object, e.grantedAccess)

/-- The elements say what the map says, and those on the free list are not used. -/
structure Ok (t : HandleTable) (m : HandleMap) (free : List ℕ) : Prop where
  list : t.pool.FreeList free
  outside : ∀ fd, (fd < fdBase ∨ fdBase + elementsCount ≤ fd) → m fd = none
  inside : ∀ i < elementsCount, m (i + fdBase) = content (t.pool.element i)
  free : ∀ i < elementsCount, i ∈ free ↔ (t.pool.element i).used = 0

theorem ok_init (address : ℕ) : (init address).Ok (fun _ ↦ none) (List.range elementsCount) where
  list := ObjectSegment.freeList_init address
  outside _ _ := rfl
  inside i _ := by
    simp only [init, ObjectSegment.init]
    split <;> rfl
  free i hi := by
    simp only [init, ObjectSegment.init, List.mem_range, hi, true_iff]
    split <;> rfl

/-- A handle that is in range. -/
theorem exists_index (h : fdBase ≤ fd) : ∃ i : ℕ, fd = i + fdBase ∧ (fd - fdBase).toNat = i :=
  ⟨(fd - fdBase).toNat, by omega, rfl⟩

/-- What `at_with_segment` finds. -/
theorem Ok.atWithSegment (h : t.Ok m free) (i : ℕ) :
    match m (i + fdBase) with
    | some x => i < elementsCount ∧ t.pool.atWithSegment i = .ok (t.pool.elementAddress i) ∧
        ((t.pool.element i).object, (t.pool.element i).grantedAccess) = x ∧
          (t.pool.element i).used ≠ 0
    | none => ∃ e, t.pool.atWithSegment i = .error e := by
  by_cases hi : elementsCount ≤ i
  · rw [h.outside _ (Or.inr (by omega))]
    exact ⟨_, by rw [ObjectSegment.atWithSegment, if_pos hi]⟩
  · rw [h.inside i (by omega), content, ObjectSegment.atWithSegment, if_neg hi,
      ObjectSegment.entryAt]
    by_cases hu : (t.pool.element i).used = 0
    · rw [if_pos hu, if_pos hu]
      exact ⟨_, rfl⟩
    · rw [if_neg hu, if_neg hu]
      exact ⟨by omega, rfl, rfl, hu⟩

theorem Ok.shows (h : t.Ok m free) : t.Shows m := by
  intro fd
  by_cases hlt : fd < fdBase
  · rw [h.outside fd (Or.inl hlt)]
    exact ⟨_, by rw [HandleTable.entryAt, if_pos hlt]⟩
  · obtain ⟨i, rfl, hi⟩ := exists_index (le_of_not_gt hlt)
    have hat := h.atWithSegment i
    rw [HandleTable.entryAt, if_neg hlt, hi]
    cases hm : m (i + fdBase) with
    | none =>
      rw [hm] at hat
      exact hat
    | some x =>
      rw [hm] at hat
      obtain ⟨hlt', hok, hx, -⟩ := hat
      exact ⟨_, hok, by
        rw [HandleTable.read, ObjectSegment.element?_elementAddress hlt', Option.map_some, hx]⟩

/-- The map changes where the elements change. -/
theorem update_inside {e : ObjectEntry} (h : t.Ok m free) (hi : i < elementsCount) (j : ℕ)
    (hj : j < elementsCount) : update m (i + fdBase) (content e) (j + fdBase) =
      content (update t.pool.element i e j) := by
  by_cases hij : j = i
  · subst hij
    simp
  · rw [Function.update_of_ne hij, Function.update_of_ne (by omega), h.inside j hj]

theorem update_outside (h : t.Ok m free) (hi : i < elementsCount) (x : Option (ℕ × AccessMask))
    (fd : ℤ)
    (hfd : fd < fdBase ∨ fdBase + elementsCount ≤ fd) : update m (i + fdBase) x fd = none := by
  rw [Function.update_of_ne (by omega), h.outside fd hfd]

/-- **`allocate`** fails if every handle is live. -/
theorem Ok.allocate_nil (h : t.Ok m []) (object : ObjectAddress) (mask : AccessMask) :
    t.allocate object mask = some (.error .outOfMemory, t) ∧
      ∀ i < elementsCount, m (i + fdBase) ≠ none := by
  refine ⟨by rw [HandleTable.allocate, h.list.allocate_nil]; rfl, fun i hi hm ↦ ?_⟩
  rw [h.inside i hi, content] at hm
  split at hm
  · rename_i hu
    exact absurd ((h.free i hi).mpr hu) List.not_mem_nil
  · cases hm

/-- **`allocate`** takes the first free element. -/
theorem Ok.allocate_cons (h : t.Ok m (i :: free)) (object : ObjectAddress) (mask : AccessMask) :
    i < elementsCount ∧ m (i + fdBase) = none ∧ ∃ t',
      t.allocate object mask = some (.ok (t.pool.elementAddress i, i + fdBase), t') ∧
        t'.Ok (update m (i + fdBase) (some (object.val, mask))) free ∧
          t'.added = t.added ++ [object.val] ∧ t'.dropped = t.dropped := by
  have hi := h.list.lt i List.mem_cons_self
  have hnodup := List.nodup_cons.mp h.list.nodup
  obtain ⟨pool, hpool, hlist, haddr, helem⟩ := h.list.allocate_cons
  have haddr' : t.pool.elementAddress i = pool.elementAddress i := by
    rw [ObjectSegment.elementAddress, ObjectSegment.elementAddress, haddr]
  let e := ((pool.element i).setObject object).setGrantedAccess mask
  let pool' : ObjectSegment := { pool with element := update pool.element i e }
  refine ⟨hi, ?_, ⟨pool', t.added ++ [object.val], t.dropped⟩, ?_,
    ⟨?_, ?_, fun j hj ↦ ?_, fun j hj ↦ ?_⟩, rfl, rfl⟩
  · rw [h.inside i hi, content, if_pos ((h.free i hi).mp List.mem_cons_self)]
  · rw [HandleTable.allocate, hpool]
    simp only [Option.bind_eq_bind, Option.bind_some, haddr']
    rw [ObjectSegment.modify_eq hi]
    rfl
  · exact hlist.update hnodup.1 _
  · exact update_outside h hi _
  · have hc : content e = some (object.val, mask) := by
      have hused : e.used ≠ 0 := object.property
      rw [content, if_neg hused, ObjectEntry.grantedAccess_setGrantedAccess]
      rfl
    rw [← hc, update_inside h hi j hj, ← helem]
  · by_cases hij : j = i
    · subst hij
      simp only [pool', Function.update_self, hnodup.1, false_iff]
      exact object.property
    · simp only [pool', Function.update_of_ne hij]
      rw [helem, ← h.free j hj, List.mem_cons, or_iff_right hij]

/-- **`free`** succeeds on a live handle, and drops the reference of its entry. -/
theorem Ok.free_some (h : t.Ok m free) {x : ℕ × AccessMask} (hm : m fd = some x) :
    ∃ t' free', t.free fd = some (.ok (), t') ∧ t'.Ok (update m fd none) free' ∧
      t'.added = t.added ∧ t'.dropped = t.dropped ++ [x.1] := by
  have hlt : ¬ fd < fdBase := fun hlt ↦ by
    rw [h.outside fd (Or.inl hlt)] at hm
    cases hm
  obtain ⟨i, rfl, hidx⟩ := exists_index (le_of_not_gt hlt)
  have hat := h.atWithSegment i
  rw [hm] at hat
  obtain ⟨hi, hat, hx, hused⟩ := hat
  have hfree : i ∉ free := fun hmem ↦ hused ((h.free i hi).mp hmem)
  obtain ⟨pool, hpool, hlist, haddr, helem⟩ :=
    (h.list.update hfree ((t.pool.element i).setObject 0)).push hi hfree
  refine ⟨⟨pool, t.added, t.dropped ++ [(t.pool.element i).object]⟩, i :: free, ?_,
    ⟨hlist, ?_, fun j hj ↦ ?_, fun j hj ↦ ?_⟩, rfl, by rw [← hx]⟩
  · rw [HandleTable.free, if_neg hlt, hidx, hat]
    simp only [ObjectSegment.element?_elementAddress hi, ObjectSegment.modify_eq hi,
      Option.bind_eq_bind, Option.bind_some]
    rw [show t.pool.elementAddress i = ObjectSegment.elementAddress { t.pool with
      element := update t.pool.element i ((t.pool.element i).setObject 0) } i from rfl, hpool]
    rfl
  · exact update_outside h hi _
  · have := update_inside (e := ⟨0, t.pool.freeHead⟩) h hi j hj
    rw [helem]
    simpa [content] using this
  · rw [helem]
    by_cases hij : j = i
    · subst hij
      simp
    · simp only [Function.update_of_ne hij, List.mem_cons, hij, false_or]
      exact h.free j hj

/-- **`free`** fails on other handles, and changes nothing. -/
theorem Ok.free_none (h : t.Ok m free) (hm : m fd = none) :
    ∃ e, t.free fd = some (.error e, t) := by
  by_cases hlt : fd < fdBase
  · exact ⟨_, by rw [HandleTable.free, if_pos hlt]⟩
  · obtain ⟨i, rfl, hidx⟩ := exists_index (le_of_not_gt hlt)
    have hat := h.atWithSegment i
    rw [hm] at hat
    obtain ⟨e, he⟩ := hat
    exact ⟨e, by rw [HandleTable.free, if_neg hlt, hidx, he]⟩

end HandleTable

/-! ## Every run -/

namespace Handles

open ObjectSegment (elementsCount)

variable {s s' : Handles} {address : ℕ} {op : HandleOp} {fd : ℤ}

theorem live_append (log : List (HandleOp × HandleResult)) (op : HandleOp) (r : HandleResult) :
    live (log ++ [(op, r)]) = (live log).after (op, r) := by
  rw [live, List.foldl_append]
  rfl

/-- An operation does to the table what it does to the map. -/
theorem ok_perform {t : HandleTable} {m : HandleMap} {free : List ℕ} (h : t.Ok m free)
    (op : HandleOp) :
    ∃ r t' free', t.perform op = some (r, t') ∧ t'.Ok (m.after (op, r)) free' := by
  cases op with
  | allocate object mask =>
    cases free with
    | nil =>
      obtain ⟨ha, -⟩ := h.allocate_nil object mask
      exact ⟨.error .outOfMemory, t, [], by rw [HandleTable.perform, ha]; rfl, h⟩
    | cons i free =>
      obtain ⟨-, -, t', ha, hok, -⟩ := h.allocate_cons object mask
      exact ⟨.allocated (i + fdBase), t', free, by rw [HandleTable.perform, ha]; rfl, hok⟩
  | entryAt fd =>
    refine ⟨_, t, free, rfl, ?_⟩
    split <;> exact h
  | free fd =>
    cases hm : m fd with
    | none =>
      obtain ⟨e, he⟩ := h.free_none hm
      exact ⟨.error e, t, free, by rw [HandleTable.perform, he]; rfl, h⟩
    | some x =>
      obtain ⟨t', free', hf, hok, -⟩ := h.free_some hm
      exact ⟨.freed, t', free', by rw [HandleTable.perform, hf]; rfl, hok⟩

theorem ok_of_reachable (h : (machine address).Reachable s) :
    ∃ free, s.table.Ok (live s.log) free := by
  refine h.invariant (I := fun s ↦ ∃ free, s.table.Ok (live s.log) free)
    ⟨_, HandleTable.ok_init address⟩ ?_
  rintro s op s' - ⟨free, hok⟩ hn
  obtain ⟨⟨r, t⟩, hp, rfl⟩ := Option.map_eq_some_iff.mp hn
  obtain ⟨r', t', free', hp', hok'⟩ := ok_perform hok op
  cases hp.symm.trans hp'
  exact ⟨free', by rwa [live_append]⟩

/-- **The handle table is a finite map.** -/
theorem handle_table_map (h : (machine address).Reachable s) :
    -- `at` returns what the latest `allocate` was given, and an error if the handle is not live
    s.table.Shows (live s.log) ∧
    -- `allocate` returns a handle that is not live, or fails because all are
    (∀ object mask,
      (∃ entry fd t, s.table.allocate object mask = some (.ok (entry, fd), t) ∧
        fdBase ≤ fd ∧ fd < fdBase + elementsCount ∧ live s.log fd = none ∧
        t.Shows (update (live s.log) fd (some (object.val, mask))) ∧
        t.added = s.table.added ++ [object.val] ∧ t.dropped = s.table.dropped) ∨
      s.table.allocate object mask = some (.error .outOfMemory, s.table) ∧
        ∀ i < elementsCount, live s.log (i + fdBase) ≠ none) ∧
    -- `free` succeeds on live handles, and drops the reference of their entry
    ∀ fd, match live s.log fd with
      | some x => ∃ t, s.table.free fd = some (.ok (), t) ∧
          t.Shows (update (live s.log) fd none) ∧
          t.added = s.table.added ∧ t.dropped = s.table.dropped ++ [x.1]
      | none => ∃ e, s.table.free fd = some (.error e, s.table) := by
  obtain ⟨free, hok⟩ := ok_of_reachable h
  refine ⟨hok.shows, fun object mask ↦ ?_, fun fd ↦ ?_⟩
  · cases free with
    | nil => exact Or.inr (hok.allocate_nil object mask)
    | cons i free =>
      obtain ⟨hi, hnone, t, ha, hok', hadd, hdrop⟩ := hok.allocate_cons object mask
      exact Or.inl ⟨_, _, t, ha, by omega, by omega, hnone, hok'.shows, hadd, hdrop⟩
  · cases hm : live s.log fd with
    | none => exact hok.free_none hm
    | some x =>
      obtain ⟨t, free', hf, hok', hadd, hdrop⟩ := hok.free_some hm
      exact ⟨t, hf, hok'.shows, hadd, hdrop⟩

/-- A handle is freed and allocated again. -/
def reuse : List HandleOp :=
  [.allocate ⟨1, by decide⟩ 1, .allocate ⟨2, by decide⟩ 2, .free 3, .entryAt 3, .free 3,
    .allocate ⟨5, by decide⟩ 3]

theorem handle_table_map_reuse : ((machine 4096).after reuse).table.Shows
    (live ((machine 4096).after reuse).log) ∧
      live ((machine 4096).after reuse).log 3 = some (5, 3) ∧
      live ((machine 4096).after reuse).log 4 = some (2, 2) ∧
      ((machine 4096).after reuse).table.dropped = [1] :=
  ⟨(handle_table_map (Machine.reachable_after reuse)).1, by decide +kernel, by decide +kernel,
    by decide +kernel⟩

end Handles

end Chino
