import Chino.Ob.Namespace

/-!
# Partial lookups

`lookup_object_partial` returns the object where the walk down a path ends, with what is left of the
path, and `find_device` asks it for a device before it turns to `/dev/fs0`.

A partial lookup and the full lookup of what it has used up take the same steps, which is so for any
lists, well formed or not (`insertOrLookup_splits`).  In a tree every path has an answer: it is what
`locate` says of its components (`partialAnswer`), and what `find_device` answers follows from it
(`deviceAnswer`).

## What is proved

* For any lists: what a partial lookup returns splits the path, and a full lookup of the part it has
  used up returns the same object.  This is an induction over the recursion of the code, with both
  lookups side by side, and needs no tree.
* For any lists: `find_device` passes on what the lookup has returned, and turns to `/dev/fs0`
  exactly for `not_found` and an absolute path.
* For the lists of a namespace: both functions return, with the answers `partialAnswer` and
  `deviceAnswer`.  These are functions of the edges and the path, with no recursion over lists in
  them.

The third part is what makes the other two say something of every path: the recursion of the code
has a bound on its depth in the model, and here it is shown to be enough.
-/

set_option autoImplicit false

namespace Chino

namespace Directories

variable {α : Type} [DecidableEq α] (N : NamedObjects α)

/-! ## The code -/

/-- `directory::lookup_partial` -/
def lookupPartial (s : Directories α) (self : α) (remainingPath : Text) :
    Option (Except ErrorCode (α × Text) × Directories α) :=
  s.insertOrLookup N (remainingPath.length + 1) self none remainingPath

/-- `ob::lookup_object_partial` -/
def lookupObjectPartial (s : Directories α) (remainingPath : Text) :
    Option (Except ErrorCode (α × Text) × Directories α) :=
  if remainingPath = [] ∨ remainingPath.head? ≠ some directorySeparator then
    some (.error .invalidPath, s)
  else s.lookupPartial N N.rootDirectory remainingPath.tail

/-- `/dev/fs0` -/
def fs0Path : Text := [47, 100, 101, 118, 47, 102, 115, 48]

variable (isDevice : α → Bool)

/-- `object_ptr::as<device>` -/
def asDevice (a : α) : Except ErrorCode α := if isDevice a then .ok a else .error .badCast

/-- `lookup_object<device>` -/
def lookupDevice (s : Directories α) (fullPath : Text) :
    Option (Except ErrorCode α × Directories α) := do
  let (r, s) ← s.lookupObject N fullPath
  some (r.bind (asDevice isDevice), s)

/-- `lookup_object_partial<device>` -/
def lookupDevicePartial (s : Directories α) (remainingPath : Text) :
    Option (Except ErrorCode (α × Text) × Directories α) := do
  let (r, s) ← s.lookupObjectPartial N remainingPath
  some (r.bind fun (a, rest) ↦ (asDevice isDevice a).map fun d ↦ (d, rest), s)

/-- `find_device` -/
def findDevice (s : Directories α) (path : Text) :
    Option (Except ErrorCode (α × Text) × Directories α) := do
  -- 1. Search by absolute path
  let (r, s) ← s.lookupDevicePartial N isDevice path
  match r with
  | .ok found => some (.ok found, s)
  | .error e =>
    if e = .notFound ∧ path ≠ [] ∧ path.head? = some directorySeparator then do
      -- 2. Search in fs0
      let (fs0, s) ← s.lookupDevice N isDevice fs0Path
      some (fs0.map fun d ↦ (d, path.tail), s)
    else some (.error e, s)

/-! ## What a partial lookup has used up -/

variable {N} {isDevice} {s s' : Directories α} {self o : α} {p q r c : Text} {n : ℕ}

theorem not_mem_componentName (p : Text) : directorySeparator ∉ componentName p := fun h ↦ by
  simpa using List.mem_takeWhile_imp h

/-- A path is its first component, or goes on behind it. -/
theorem eq_componentName (p : Text) : p = componentName p ∧ afterComponent p = [] ∨
    p = componentName p ++ directorySeparator :: afterComponent p := by
  rcases split_cases p with ⟨hc, ha, -⟩ | ⟨hs, -⟩
  · exact Or.inl ⟨hc.symm, ha⟩
  · right
    have hp := pathOf_split p
    rw [hs, pathOf_cons, pathOf_split, List.cons.injEq] at hp
    exact hp.2.symm

theorem component_append (hc : directorySeparator ∉ c) (q : Text) :
    componentName (c ++ directorySeparator :: q) = c ∧
      afterComponent (c ++ directorySeparator :: q) = q := by
  have hall : ∀ b ∈ c, decide (b ≠ directorySeparator) = true := fun b hb ↦ by
    simp only [ne_eq, decide_not, Bool.not_eq_true', decide_eq_false_iff_not]
    rintro rfl
    exact hc hb
  rw [componentName, afterComponent, List.takeWhile_append_of_pos hall,
    List.dropWhile_append_of_pos hall]
  simp

theorem component_self (hc : directorySeparator ∉ c) :
    componentName c = c ∧ afterComponent c = [] := by
  rcases eq_componentName c with ⟨h, ha⟩ | h
  · exact ⟨h.symm, ha⟩
  · exact absurd (h ▸ List.mem_append_right _ List.mem_cons_self) hc

/-- A path that starts with a separator is refused. -/
theorem insertOrLookup_separator {insertObject : Option α} (hnil : p ≠ [])
    (hsep : p.head? = some directorySeparator) :
    s.insertOrLookup N (n + 1) self insertObject p = some (.error .invalidPath, s) := by
  rw [insertOrLookup.eq_def]
  dsimp only
  rw [if_neg hnil, if_pos hsep]

/-- The steps of a lookup, where there is a component. -/
theorem insertOrLookup_component (hnil : p ≠ []) (hsep : p.head? ≠ some directorySeparator) :
    s.insertOrLookup N (n + 1) self none p =
      (search N s.items self (componentName p) (s.inserted + 1) (s.items.front self)).bind
        fun (pivot, findResult) ↦
          if afterComponent p = [] then s.noRemaining self none pivot findResult
          else
            match findResult, pivot with
            | .keyAlreadyExists, some component =>
              if N.isDirectory component then
                s.insertOrLookup N n component none (afterComponent p)
              else some (.ok (component, afterComponent p), s)
            | _, _ => some (.error findResult, s) := by
  have hname : componentName p ≠ [] := fun h ↦ (componentName_eq_nil_iff.mp h).elim hnil hsep
  rw [insertOrLookup.eq_def]
  dsimp only
  rw [if_neg hnil, if_neg hsep, if_neg hname]
  rfl

/-- The lookup of a component that the search finds. -/
theorem insertOrLookup_found (hc : directorySeparator ∉ c) (hnil : c ≠ [])
    (hs : search N s.items self c (s.inserted + 1) (s.items.front self) =
      some (some o, .keyAlreadyExists)) {m : ℕ} (hm : c.length < m) :
    s.insertOrLookup N m self none c = some (.ok (o, []), s) := by
  obtain ⟨m, rfl⟩ := Nat.exists_eq_succ_of_ne_zero (Nat.ne_of_gt (Nat.zero_lt_of_lt hm))
  obtain ⟨hself, hafter⟩ := component_self hc
  rw [insertOrLookup_component hnil fun h ↦ hc (List.mem_of_mem_head? h), hself, hafter, hs]
  rfl

/-- **A partial lookup and the lookup of what it has used up take the same steps.** -/
theorem insertOrLookup_splits (hn : p.length < n)
    (h : s.insertOrLookup N n self none p = some (.ok (o, r), s')) :
    s' = s ∧ ∃ q, (p = q ∧ r = [] ∨ p = q ++ [directorySeparator] ∧ r = [] ∨
        p = q ++ directorySeparator :: r) ∧ (r ≠ [] → N.isDirectory o = false) ∧
      (p ≠ [] → q ≠ [] ∧ q.head? ≠ some directorySeparator) ∧
      ∀ m, q.length < m → s.insertOrLookup N m self none q = some (.ok (o, []), s) := by
  induction n generalizing self p with
  | zero => exact absurd hn (Nat.not_lt_zero _)
  | succ n ih =>
    by_cases hnil : p = []
    · subst hnil
      simp only [insertOrLookup, if_true, Option.some.injEq, Prod.mk.injEq, Except.ok.injEq] at h
      obtain ⟨⟨rfl, rfl⟩, rfl⟩ := h
      refine ⟨rfl, [], Or.inl ⟨rfl, rfl⟩, by simp, by simp, fun m hm ↦ ?_⟩
      obtain ⟨m, rfl⟩ := Nat.exists_eq_succ_of_ne_zero (Nat.ne_of_gt hm)
      simp [insertOrLookup]
    by_cases hsep : p.head? = some directorySeparator
    · rw [insertOrLookup_separator hnil hsep] at h
      cases h
    rw [insertOrLookup_component hnil hsep] at h
    obtain ⟨⟨pivot, findResult⟩, hsearch, h⟩ := Option.bind_eq_some_iff.mp h
    have hc := not_mem_componentName p
    have hcnil : componentName p ≠ [] := fun h ↦ (componentName_eq_nil_iff.mp h).elim hnil hsep
    have hchead : (componentName p).head? ≠ some directorySeparator := fun h ↦
      hc (List.mem_of_mem_head? h)
    dsimp only at h
    split at h
    · -- the component is the last
      rename_i hafter
      have hpath : p = componentName p ∨ p = componentName p ++ [directorySeparator] :=
        (eq_componentName p).imp And.left fun h ↦ hafter ▸ h
      unfold noRemaining at h
      dsimp only at h
      split at h
      · cases h
        exact ⟨rfl, componentName p, hpath.imp (⟨·, rfl⟩) fun h ↦ Or.inl ⟨h, rfl⟩, by simp,
          fun _ ↦ ⟨hcnil, hchead⟩, fun m hm ↦ insertOrLookup_found hc hcnil hsearch hm⟩
      · cases h
    · rename_i hafter
      have hpath : p = componentName p ++ directorySeparator :: afterComponent p :=
        (eq_componentName p).resolve_left fun h ↦ hafter h.2
      have hlen : (afterComponent p).length < n := by
        have := congrArg List.length hpath
        rw [List.length_append, List.length_cons] at this
        omega
      split at h
      · rename_i component
        split at h
        · -- the component is a directory that has the rest
          rename_i hdir
          obtain ⟨rfl, q, hq, hr, hne, hfound⟩ := ih hlen h
          obtain ⟨hqnil, -⟩ := hne hafter
          refine ⟨rfl, componentName p ++ directorySeparator :: q, ?_, hr, fun _ ↦ ⟨by simp, ?_⟩,
            fun m hm ↦ ?_⟩
          · rcases hq with ⟨hq, hr⟩ | ⟨hq, hr⟩ | hq
            · exact Or.inl ⟨hq ▸ hpath, hr⟩
            · exact Or.inr (Or.inl ⟨by rw [List.append_assoc, List.cons_append, ← hq]; exact hpath,
                hr⟩)
            · exact Or.inr (Or.inr (by rw [List.append_assoc, List.cons_append, ← hq]; exact hpath))
          · rwa [List.head?_append_of_ne_nil _ hcnil]
          · obtain ⟨m, rfl⟩ := Nat.exists_eq_succ_of_ne_zero (Nat.ne_of_gt (Nat.zero_lt_of_lt hm))
            obtain ⟨hname, hrest⟩ := component_append hc q
            rw [insertOrLookup_component (by simp)
              (by rwa [List.head?_append_of_ne_nil _ hcnil]), hname, hrest, hsearch]
            simp only [Option.bind_some, hqnil, if_false, hdir, if_true]
            exact hfound m (by simp at hm; omega)
        · cases h
          rename_i hdir
          exact ⟨rfl, componentName p, Or.inr (Or.inr hpath), fun _ ↦ by simpa using hdir,
            fun _ ↦ ⟨hcnil, hchead⟩, fun m hm ↦ insertOrLookup_found hc hcnil hsearch hm⟩
      · cases h

theorem name_of_search {m : ℕ} {pivot : Option α}
    (h : search N s.items self c m pivot = some (some o, .keyAlreadyExists)) : N.name o = c := by
  induction m generalizing pivot with
  | zero => cases h
  | succ m ih =>
    cases pivot with
    | none => cases h
    | some b =>
      rw [search] at h
      split at h
      · cases h
        assumption
      · split at h
        · cases h
        · exact ih h

/-- What a path finds is called like its last component, so its name has no separator. -/
theorem not_mem_name (hn : p.length < n) (hnil : p ≠ [])
    (h : s.insertOrLookup N n self none p = some (.ok (o, []), s')) :
    directorySeparator ∉ N.name o := by
  induction n generalizing self p with
  | zero => exact absurd hn (Nat.not_lt_zero _)
  | succ n ih =>
    by_cases hsep : p.head? = some directorySeparator
    · rw [insertOrLookup_separator hnil hsep] at h
      cases h
    rw [insertOrLookup_component hnil hsep] at h
    obtain ⟨⟨pivot, findResult⟩, hsearch, h⟩ := Option.bind_eq_some_iff.mp h
    dsimp only at h
    split at h
    · unfold noRemaining at h
      dsimp only at h
      split at h
      · cases h
        rw [name_of_search hsearch]
        exact not_mem_componentName p
      · cases h
    · rename_i hafter
      have hlen : (afterComponent p).length < p.length := by
        rcases split_cases p with ⟨-, ha, -⟩ | ⟨-, hlt⟩
        · exact absurd ha hafter
        · exact hlt
      split at h
      · split at h
        · exact ih (by omega) hafter h
        · simp only [Option.some.injEq, Prod.mk.injEq, Except.ok.injEq] at h
          exact absurd h.1.2 hafter
      · cases h

/-- A lookup changes nothing, and nor does an insertion that fails. -/
theorem insertOrLookup_unchanged {insertObject : Option α} {x : Except ErrorCode (α × Text)}
    (hx : insertObject = none ∨ ∃ e, x = .error e)
    (h : s.insertOrLookup N n self insertObject p = some (x, s')) : s' = s := by
  induction n generalizing self p with
  | zero => cases h
  | succ n ih =>
    rw [insertOrLookup.eq_def] at h
    dsimp only at h
    split at h
    · split at h <;> cases h <;> rfl
    split at h
    · cases h
      rfl
    split at h
    · split at h <;> cases h <;> rfl
    obtain ⟨⟨pivot, findResult⟩, -, h⟩ := Option.bind_eq_some_iff.mp h
    dsimp only at h
    split at h
    · unfold noRemaining at h
      split at h
      · split at h
        · -- this is the insertion
          obtain ⟨items, -, h⟩ := Option.map_eq_some_iff.mp h
          cases h
          rcases hx with hx | ⟨e, hx⟩ <;> cases hx
        · cases h
          rfl
      · split at h <;> cases h <;> rfl
    · split at h
      · split at h
        · exact ih h
        · split at h <;> cases h <;> rfl
      · cases h
        rfl

/-- What a partial lookup returns, a full lookup of what was used up returns. -/
theorem lookupObjectPartial_splits
    (h : s.lookupObjectPartial N p = some (.ok (o, r), s')) :
    s' = s ∧ ∃ q, (p = directorySeparator :: q ∧ r = [] ∨
        p = directorySeparator :: q ++ [directorySeparator] ∧ r = [] ∨
        p = directorySeparator :: q ++ directorySeparator :: r) ∧
      s.lookupObject N (directorySeparator :: q) = some (.ok o, s) ∧
      (r ≠ [] → N.isDirectory o = false) := by
  rw [lookupObjectPartial] at h
  split at h
  · cases h
  rename_i hp
  obtain ⟨hnil, hhead⟩ := not_or.mp hp
  have hcons : p = directorySeparator :: p.tail :=
    (List.cons_head?_tail (not_not.mp hhead)).symm
  obtain ⟨rfl, q, hq, hr, -, hfound⟩ := insertOrLookup_splits (Nat.lt_succ_self _) h
  refine ⟨rfl, q, ?_, ?_, hr⟩
  · rw [hcons]
    simpa using hq
  · rw [lookupObject, if_neg (by simp), List.tail_cons, lookup,
      hfound _ (Nat.lt_succ_self _)]
    rfl

theorem findDevice_of_ok (isDevice : α → Bool)
    (h : s.lookupObjectPartial N p = some (.ok (o, r), s)) :
    s.findDevice N isDevice p = some (if isDevice o then .ok (o, r) else .error .badCast, s) := by
  rw [findDevice, lookupDevicePartial, h]
  cases hd : isDevice o <;> simp [Except.bind, Except.map, asDevice, hd]

theorem lookupObjectPartial_error {e : ErrorCode}
    (h : s.lookupObjectPartial N p = some (.error e, s')) : s' = s := by
  rw [lookupObjectPartial] at h
  split at h
  · cases h
    rfl
  · exact insertOrLookup_unchanged (Or.inl rfl) h

theorem findDevice_of_error (isDevice : α → Bool) {e : ErrorCode}
    (h : s.lookupObjectPartial N p = some (.error e, s)) :
    s.findDevice N isDevice p =
      if e = .notFound ∧ p.head? = some directorySeparator then
        (s.lookupDevice N isDevice fs0Path).map fun x ↦ (x.1.map fun d ↦ (d, p.tail), x.2)
      else some (.error e, s) := by
  rw [findDevice, lookupDevicePartial, h]
  simp only [Option.bind_eq_bind, Option.bind_some, Except.bind]
  by_cases hp : p.head? = some directorySeparator
  · have hnil : p ≠ [] := by
      rintro rfl
      cases hp
    simp only [hp, hnil, ne_eq, not_false_eq_true, and_true]
    split
    · cases s.lookupDevice N isDevice fs0Path <;> rfl
    · rfl
  · simp only [hp, and_false, if_false]

/-! ## The answers of a tree -/

section Answers

variable (e : α → Text → Option α) (isDirectory : α → Bool)

omit [DecidableEq α] in
/-- What a partial lookup makes of a place. -/
def foundPartial : Place α → Except ErrorCode (α × Text)
  | .itself d => .ok (d, [])
  | .invalid => .error .invalidPath
  | .entry d c => match e d c with
    | none => .error .notFound
    | some a => .ok (a, [])
  | .absent => .error .notFound
  | .through a rest => .ok (a, [directorySeparator].intercalate rest)

/-- What a partial lookup answers: an absolute path leads down from the root. -/
def partialAnswer (root : α) (p : Text) : Except ErrorCode (α × Text) :=
  if p.head? = some directorySeparator then
    foundPartial e (locate e isDirectory root (split p.tail))
  else .error .invalidPath

/-- What `find_device` answers. -/
def deviceAnswer (isDevice : α → Bool) (root : α) (p : Text) : Except ErrorCode (α × Text) :=
  match partialAnswer e isDirectory root p with
  | .ok (o, r) => if isDevice o then .ok (o, r) else .error .badCast
  | .error error =>
    if error = .notFound ∧ p.head? = some directorySeparator then
      match find e isDirectory root (split fs0Path.tail) with
      | .ok d => if isDevice d then .ok (d, p.tail) else .error .badCast
      | .error error => .error error
    else .error error

end Answers

variable {L : α → List α}

/-- **The code ends with the answer of the tree.** -/
theorem Inv.lookupObjectPartial_eq (hI : Inv N s L) (p : Text) :
    s.lookupObjectPartial N p =
      some (partialAnswer (entryOf N L) N.isDirectory N.rootDirectory p, s) := by
  rw [lookupObjectPartial, partialAnswer]
  by_cases hp : p.head? = some directorySeparator
  · have hnil : p ≠ [] := by
      rintro rfl
      cases hp
    rw [if_neg (not_or.mpr ⟨hnil, not_not.mpr hp⟩), if_pos hp, lookupPartial,
      hI.insertOrLookup_eq none (Nat.lt_succ_self _)]
    cases hplace : locate (entryOf N L) N.isDirectory N.rootDirectory (split p.tail) with
    | itself d => rfl
    | invalid => rfl
    | absent => rfl
    | through b rest => rfl
    | entry d c =>
      cases he : entryOf N L d c with
      | none =>
        obtain ⟨xs, ys, -, -, -, hsearch⟩ := hI.search_none he
        simp only [settle, hsearch, Option.bind_some, foundPartial, he, noRemaining]
      | some b =>
        simp only [settle, hI.search_some he, Option.bind_some, foundPartial, he, noRemaining]
  · rw [if_pos (Or.inr hp), if_neg hp]

theorem Inv.lookupDevice_fs0 (hI : Inv N s L) (isDevice : α → Bool) :
    s.lookupDevice N isDevice fs0Path =
      some ((find (entryOf N L) N.isDirectory N.rootDirectory (split fs0Path.tail)).bind
        (asDevice isDevice), s) := by
  rw [lookupDevice, lookupObject, if_neg (by decide), hI.lookup_eq]
  rfl

theorem Inv.findDevice_eq (hI : Inv N s L) (isDevice : α → Bool) (p : Text) :
    s.findDevice N isDevice p =
      some (deviceAnswer (entryOf N L) N.isDirectory isDevice N.rootDirectory p, s) := by
  have hlookup := hI.lookupObjectPartial_eq p
  rw [deviceAnswer]
  rcases hanswer : partialAnswer (entryOf N L) N.isDirectory N.rootDirectory p with e | ⟨o, r⟩ <;>
    rw [hanswer] at hlookup
  · rw [findDevice_of_error isDevice hlookup, hI.lookupDevice_fs0]
    dsimp only
    split
    · rcases find (entryOf N L) N.isDirectory N.rootDirectory (split fs0Path.tail) with e' | d
      · rfl
      · cases hd : isDevice d <;> simp [Except.bind, Except.map, asDevice, hd]
    · rfl
  · exact findDevice_of_ok isDevice hlookup

/-- **A partial lookup splits the path**: what was used up of it is a path that finds the object,
and something is left only behind what is no directory.  **`find_device` takes what it finds**, if
that is a device, and turns to `/dev/fs0` exactly if there is nothing of an absolute path.  In a
tree both have an answer for every path. -/
theorem partial_lookup_faithful (N : NamedObjects α) (isDevice : α → Bool) (s : Directories α)
    (p : Text) :
    (∀ o r s', s.lookupObjectPartial N p = some (.ok (o, r), s') → s' = s ∧
      (∃ q, (p = directorySeparator :: q ∧ r = [] ∨
          p = directorySeparator :: q ++ [directorySeparator] ∧ r = [] ∨
          p = directorySeparator :: q ++ directorySeparator :: r) ∧
        s.lookupObject N (directorySeparator :: q) = some (.ok o, s) ∧
        (r ≠ [] → N.isDirectory o = false)) ∧
      s.findDevice N isDevice p =
        some (if isDevice o then .ok (o, r) else .error .badCast, s)) ∧
    (∀ e s', s.lookupObjectPartial N p = some (.error e, s') → s' = s ∧
      s.findDevice N isDevice p =
        if e = .notFound ∧ p.head? = some directorySeparator then
          (s.lookupDevice N isDevice fs0Path).map fun x ↦ (x.1.map fun d ↦ (d, p.tail), x.2)
        else some (.error e, s)) ∧
    ∀ L, Inv N s L →
      s.lookupObjectPartial N p =
        some (partialAnswer (entryOf N L) N.isDirectory N.rootDirectory p, s) ∧
      s.findDevice N isDevice p =
        some (deviceAnswer (entryOf N L) N.isDirectory isDevice N.rootDirectory p, s) := by
  refine ⟨fun o r s' h ↦ ?_, fun e s' h ↦ ?_, fun L hI ↦ ?_⟩
  · obtain ⟨rfl, hq⟩ := lookupObjectPartial_splits h
    exact ⟨rfl, hq, findDevice_of_ok isDevice h⟩
  · obtain rfl := lookupObjectPartial_error h
    exact ⟨rfl, findDevice_of_error isDevice h⟩
  · exact ⟨hI.lookupObjectPartial_eq p, hI.findDevice_eq isDevice p⟩

/-- `/d/c/x` leads to the object `/d/c`, with `x` left. -/
theorem partial_lookup_faithful_below :
    ∃ s, (machine threeObjects).ReachableWhile (Proper threeObjects) s ∧
      s.lookupObjectPartial threeObjects [47, 100, 47, 99, 47, 120] = some (.ok (2, [120]), s) ∧
      s.findDevice threeObjects (fun a ↦ a = 2) [47, 100, 47, 99, 47, 120] =
        some (.ok (2, [120]), s) := by
  have hreach := Machine.reachableWhile_afterWhile (M := machine threeObjects)
    (c := Proper threeObjects) [.insertObject 1 [47, 100], .insertObject 2 [47, 100, 47, 99]]
  obtain ⟨L, hI⟩ := exists_inv hreach
  have hlists : L = Directories.listing _ := funext fun d ↦ (hI.listing_eq d).symm
  obtain ⟨hlookup, hdevice⟩ := (partial_lookup_faithful threeObjects (fun a ↦ a = 2) _
    [47, 100, 47, 99, 47, 120]).2.2 L hI
  subst hlists
  refine ⟨_, hreach, hlookup.trans ?_, hdevice.trans ?_⟩
  · exact congrArg (fun answer ↦ some (answer, _)) (by decide +kernel)
  · exact congrArg (fun answer ↦ some (answer, _)) (by decide +kernel)

end Directories

end Chino
