import Chino.ErrorCode
import Chino.IntrusiveList
import Chino.Library.Tree
import Chino.Ob.Path

/-!
# Directories

Every directory is an object, and its `items_` is an intrusive list of the objects in it, in the
order of their names.  `insert_or_lookup` walks down from directory to directory, takes one
component off the path at each, and does one of two things when it has the last one.

`locate` walks down the components at once, over any edges, and only says where the walk ends;
`insertOrLookup_eq` is the refinement.

## How the code is compared with the walk

`insert_or_lookup` is one function for both purposes.  It takes a component off the path, looks for
it in the list of the directory, and calls itself in the directory it has found; at the last
component it returns what it has found, or inserts.  The list is sorted, so the search stops at the
first name that is not less.

* `locate` separates the walk from what is done at its end.  It works on any edges `e a c`, and ends
  in one of few ways: at a directory with the last component left (`entry`), at an object that is no
  directory with some of the path left, or with an error.
* `settle` is what the code does there.
* `insertOrLookup_eq` says that the code is `settle` after `locate`, on lists that represent the
  directories.  From there on nothing is proved about the code of the function any more.

What an early stop of the search means is said by the order of the list: a name that is greater is
in front of everything behind it.
-/

set_option autoImplicit false

namespace Chino

open Function (update)

/-- The named objects: what they are called, and which of them are directories. -/
structure NamedObjects (α : Type) where
  name : α → Text
  isDirectory : α → Bool
  /-- `root_directory_` -/
  rootDirectory : α
  name_rootDirectory : name rootDirectory = []
  isDirectory_rootDirectory : isDirectory rootDirectory = true

/-- The lists of all directories, with the references that the lists hold.  `inserted` counts the
insertions; no list is longer, which is what ends the search in a directory. -/
structure Directories (α : Type) where
  items : Heap α α
  refs : α → ℕ
  inserted : ℕ

namespace Directories

variable {α : Type}

/-- The root, which is empty. -/
def init : Directories α := ⟨.init, fun _ ↦ 0, 0⟩

variable [DecidableEq α] (N : NamedObjects α)

/-! ## The code -/

/-- The search loop: the pivot it stops at and the `find_result`. -/
def search (items : Heap α α) (self : α) (name : Text) :
    ℕ → Option α → Option (Option α × ErrorCode)
  | 0, _ => none
  | _ + 1, none => some (none, .notFound)
  | n + 1, some pivot =>
    if N.name pivot = name then some (some pivot, .keyAlreadyExists)
    else if name < N.name pivot then some (some pivot, .notFound)
    else search items self name n (items.nextOf self pivot)

/-- `pivot ? items_.insert_before(pivot, insert_object) : items_.push_back(insert_object)` -/
def insertAtPivot (items : Heap α α) (self a : α) : Option α → Option (Heap α α)
  | some pivot => items.insertBefore self pivot a
  | none => items.pushBack self a

/-- Step 5.1: no remaining path, lookup or insert. -/
def noRemaining (s : Directories α) (self : α) (insertObject : Option α) (pivot : Option α)
    (findResult : ErrorCode) : Option (Except ErrorCode (α × Text) × Directories α) :=
  match insertObject with
  | some a =>
    if findResult = .notFound then
      (insertAtPivot s.items self a pivot).map fun items ↦
        (.ok (a, []), ⟨items, update s.refs a (s.refs a + 1), s.inserted + 1⟩)
    else some (.error findResult, s)
  | none =>
    match findResult, pivot with
    | .keyAlreadyExists, some pivot => some (.ok (pivot, []), s)
    | _, _ => some (.error findResult, s)

/-- `insert_or_lookup`; a null `insert_object` makes it a lookup. -/
def insertOrLookup : ℕ → Directories α → α → Option α → Text →
    Option (Except ErrorCode (α × Text) × Directories α)
  | 0, _, _, _, _ => none
  | n + 1, s, self, insertObject, remainingPath =>
    -- 1. Empty name
    if remainingPath = [] then
      match insertObject with
      | none => some (.ok (self, []), s)
      | some _ => some (.error .invalidPath, s)
    -- 2. Should not start with separator
    else if remainingPath.head? = some directorySeparator then some (.error .invalidPath, s)
    else
      -- 3. Find component name
      let name := componentName remainingPath
      let remainingPath := afterComponent remainingPath
      -- 4. Empty component name
      if name = [] then
        if remainingPath = [] ∧ insertObject = none then some (.ok (self, []), s)
        else some (.error .invalidPath, s)
      else do
        -- 5. Find the component object
        let (pivot, findResult) ←
          search N s.items self name (s.inserted + 1) (s.items.front self)
        if remainingPath = [] then s.noRemaining self insertObject pivot findResult
        else
          match findResult, pivot with
          | .keyAlreadyExists, some component =>
            -- 6. Relay to the sub-directory, or return the component with the remaining path
            if N.isDirectory component then
              insertOrLookup n s component insertObject remainingPath
            else
              match insertObject with
              | none => some (.ok (component, remainingPath), s)
              | some _ => some (.error .notSupported, s)
          | _, _ => some (.error findResult, s)

/-- `directory::insert` -/
def insert (s : Directories α) (self a : α) (fullPath : Text) :
    Option (Except ErrorCode Unit × Directories α) :=
  (s.insertOrLookup N (fullPath.length + 1) self (some a) fullPath).map fun r ↦
    (r.1.map fun _ ↦ (), r.2)

/-- `directory::lookup` -/
def lookup (s : Directories α) (self : α) (fullPath : Text) :
    Option (Except ErrorCode α × Directories α) :=
  (s.insertOrLookup N (fullPath.length + 1) self none fullPath).map fun (r, s) ↦
    (match r with
      | .ok (a, rest) => if rest = [] then .ok a else .error .notFound
      | .error e => .error e, s)

/-- `directory::remove` -/
def remove (s : Directories α) (self a : α) : Option (Directories α) := do
  let items ← s.items.remove self a
  return { s with items := items, refs := update s.refs a (s.refs a - 1) }

/-- `ob::insert_object` -/
def insertObject (s : Directories α) (a : α) (fullPath : Text) :
    Option (Except ErrorCode Unit × Directories α) :=
  if fullPath = [] ∨ fullPath.head? ≠ some directorySeparator then some (.error .invalidPath, s)
  else s.insert N N.rootDirectory a fullPath.tail

/-- `ob::lookup_object` -/
def lookupObject (s : Directories α) (fullPath : Text) :
    Option (Except ErrorCode α × Directories α) :=
  if fullPath = [] ∨ fullPath.head? ≠ some directorySeparator then some (.error .invalidPath, s)
  else s.lookup N N.rootDirectory fullPath.tail

/-- What a lookup of a path returns. -/
def resolve (s : Directories α) (fullPath : Text) : Option (Except ErrorCode α) :=
  (s.lookupObject N fullPath).map Prod.fst

omit N in
/-- The items of a directory in their order. -/
def listing (s : Directories α) (d : α) : List α := s.items.walk d s.inserted (s.items.front d)

end Directories

/-! ## Where a walk ends -/

/-- Where the components of a path lead. -/
inductive Place (α : Type) where
  /-- The path is empty. -/
  | itself (d : α)
  /-- A component is empty. -/
  | invalid
  /-- The last component is `name`, in the directory `d`. -/
  | entry (d : α) (name : Text)
  /-- A component before the last is missing. -/
  | absent
  /-- A component before the last is not a directory. -/
  | through (a : α) (rest : List Text)
deriving DecidableEq

section Locate

variable {α : Type} (e : α → Text → Option α) (isDirectory : α → Bool)

/-- Down the components, from directory to directory. -/
def locate : α → List Text → Place α
  | d, [] => .itself d
  | d, [c] => if c = [] then .itself d else .entry d c
  | d, c :: p :: ps =>
    if c = [] then .invalid
    else if p :: ps = [[]] then .entry d c
    else match e d c with
      | none => .absent
      | some x => if isDirectory x then locate x (p :: ps) else .through x (p :: ps)

/-- What a lookup makes of a place. -/
def Place.found : Place α → Except ErrorCode α
  | .itself d => .ok d
  | .invalid => .error .invalidPath
  | .entry d c => match e d c with
    | none => .error .notFound
    | some a => .ok a
  | .absent => .error .notFound
  | .through _ _ => .error .notFound

/-- What a lookup finds. -/
def find (d : α) (ps : List Text) : Except ErrorCode α := (locate e isDirectory d ps).found e

variable {e isDirectory}

/-- Nothing is left of a path but a separator. -/
theorem locate_last {d : α} {c : Text} {ps : List Text} (hc : c ≠ []) (hps : ps = [] ∨ ps = [[]]) :
    locate e isDirectory d (c :: ps) = .entry d c := by
  rcases hps with rfl | rfl
  · simp [locate, hc]
  · simp [locate, hc]

theorem locate_inner {d : α} {c : Text} {ps : List Text} (hc : c ≠ []) (hn : ps ≠ [])
    (hs : ps ≠ [[]]) :
    locate e isDirectory d (c :: ps) = match e d c with
      | none => .absent
      | some x => if isDirectory x then locate e isDirectory x ps else .through x ps := by
  cases ps with
  | nil => exact absurd rfl hn
  | cons p ps => rw [locate, if_neg hc, if_neg hs]

end Locate

/-! ## The lists -/

/-- The object of a directory with a name. -/
def entryOf {α : Type} (N : NamedObjects α) (L : α → List α) (d : α) (c : Text) : Option α :=
  (L d).find? fun a ↦ N.name a = c

namespace Directories

variable {α : Type}

/-- The lists `L`, each ascending by name, and the references they hold. -/
structure Inv (N : NamedObjects α) (s : Directories α) (L : α → List α) : Prop where
  spells : s.items.Spells L
  ascending : ∀ d, (L d).Pairwise fun a b ↦ N.name a < N.name b
  bound : ∀ d, (L d).length ≤ s.inserted
  component : ∀ d a, a ∈ L d → Component (N.name a)
  isDirectory : ∀ d a, a ∈ L d → N.isDirectory d = true
  linked : ∀ d a, a ∈ L d → s.refs a = 1
  free : ∀ a, (∀ d, a ∉ L d) → s.refs a = 0

variable {N : NamedObjects α} {s : Directories α} {L : α → List α} {a d : α} {c : Text}

theorem inv_init : Inv N (init : Directories α) fun _ ↦ [] where
  spells := Heap.represents_init.spells rfl rfl
  ascending _ := List.Pairwise.nil
  bound _ := Nat.le_refl _
  component _ _ h := absurd h List.not_mem_nil
  isDirectory _ _ h := absurd h List.not_mem_nil
  linked _ _ h := absurd h List.not_mem_nil
  free _ _ := rfl

theorem Inv.name_injective (hI : Inv N s L) {b : α} (ha : a ∈ L d) (hb : b ∈ L d)
    (h : N.name a = N.name b) : a = b := by
  have hne : ((L d).map N.name).Nodup :=
    List.pairwise_map.mpr ((hI.ascending d).imp fun h ↦ ne_of_lt h)
  exact List.inj_on_of_nodup_map hne ha hb h

theorem Inv.entryOf_eq_some_iff (hI : Inv N s L) :
    entryOf N L d c = some a ↔ a ∈ L d ∧ N.name a = c := by
  constructor
  · intro h
    exact ⟨List.mem_of_find?_eq_some h, by simpa using List.find?_some h⟩
  · rintro ⟨ha, rfl⟩
    cases h : entryOf N L d (N.name a) with
    | none => simpa using List.find?_eq_none.mp h a ha
    | some b =>
      have hb := List.mem_of_find?_eq_some h
      rw [hI.name_injective hb ha (by simpa using List.find?_some h)]

theorem Inv.entryOf_eq_none_iff : entryOf N L d c = none ↔ ∀ a ∈ L d, N.name a ≠ c := by
  simp [entryOf, List.find?_eq_none]

variable [DecidableEq α]

theorem Inv.listing_eq (hI : Inv N s L) (d : α) : s.listing d = L d := by
  rw [listing, hI.spells.front_eq]
  exact hI.spells.walk_eq (List.nil_append _).symm (hI.bound d)

/-! ## The search -/

/-- **Where the search stops.**  What is before the pivot has lesser names; the order lets the
search stop at the first one that is not less. -/
theorem Inv.search_eq (hI : Inv N s L) (d : α) (c : Text) :
    ∃ xs ys, L d = xs ++ ys ∧ (∀ x ∈ xs, N.name x < c) ∧
      ((∃ b zs, ys = b :: zs ∧ N.name b = c ∧
          search N s.items d c (s.inserted + 1) (s.items.front d) =
            some (some b, .keyAlreadyExists)) ∨
        (∀ y ∈ ys, c < N.name y) ∧
          search N s.items d c (s.inserted + 1) (s.items.front d) = some (ys.head?, .notFound)) := by
  have key : ∀ n xs ys, L d = xs ++ ys → (∀ x ∈ xs, N.name x < c) → ys.length < n →
      ∃ xs ys', L d = xs ++ ys' ∧ (∀ x ∈ xs, N.name x < c) ∧
        ((∃ b zs, ys' = b :: zs ∧ N.name b = c ∧
            search N s.items d c n ys.head? = some (some b, .keyAlreadyExists)) ∨
          (∀ y ∈ ys', c < N.name y) ∧
            search N s.items d c n ys.head? = some (ys'.head?, .notFound)) := by
    intro n
    induction n with
    | zero => exact fun _ _ _ _ h ↦ absurd h (Nat.not_lt_zero _)
    | succ n ih =>
      intro xs ys hL hxs hn
      cases ys with
      | nil => exact ⟨xs, [], hL, hxs, Or.inr ⟨fun _ h ↦ absurd h List.not_mem_nil, rfl⟩⟩
      | cons y ys =>
        rw [List.head?_cons, search]
        rcases lt_trichotomy (N.name y) c with hy | hy | hy
        · rw [if_neg hy.ne, if_neg hy.not_gt, hI.spells.nextOf_eq hL]
          refine ih (xs ++ [y]) ys (by rw [hL, List.append_assoc]; rfl) ?_
            (Nat.lt_of_succ_lt_succ hn)
          exact List.forall_mem_append.mpr ⟨hxs, fun x hx ↦ List.mem_singleton.mp hx ▸ hy⟩
        · exact ⟨xs, _, hL, hxs, Or.inl ⟨y, ys, rfl, hy, by rw [if_pos hy]⟩⟩
        · refine ⟨xs, _, hL, hxs, Or.inr ⟨?_, by rw [if_neg hy.ne', if_pos hy]; rfl⟩⟩
          have hys := (List.pairwise_append.mp (hL ▸ hI.ascending d)).2.1
          exact List.forall_mem_cons.mpr
            ⟨hy, fun z hz ↦ hy.trans ((List.pairwise_cons.mp hys).1 z hz)⟩
  rw [hI.spells.front_eq]
  exact key _ [] (L d) rfl (fun _ h ↦ absurd h List.not_mem_nil) (Nat.lt_succ_of_le (hI.bound d))

/-- The search finds what is there. -/
theorem Inv.search_some (hI : Inv N s L) (h : entryOf N L d c = some a) :
    search N s.items d c (s.inserted + 1) (s.items.front d) = some (some a, .keyAlreadyExists) := by
  obtain ⟨ha, hc⟩ := hI.entryOf_eq_some_iff.mp h
  obtain ⟨xs, ys, hL, hxs, ⟨b, zs, rfl, hb, hsearch⟩ | ⟨hys, -⟩⟩ := hI.search_eq d c
  · have hbL : b ∈ L d := hL ▸ List.mem_append_right _ List.mem_cons_self
    rwa [hI.name_injective ha hbL (hc.trans hb.symm)]
  · rcases List.mem_append.mp (hL ▸ ha) with hx | hy
    · exact absurd hc (hxs a hx).ne
    · exact absurd hc (hys a hy).ne'

/-- Where it finds nothing it stops where the name belongs. -/
theorem Inv.search_none (hI : Inv N s L) (h : entryOf N L d c = none) :
    ∃ xs ys, L d = xs ++ ys ∧ (∀ x ∈ xs, N.name x < c) ∧ (∀ y ∈ ys, c < N.name y) ∧
      search N s.items d c (s.inserted + 1) (s.items.front d) = some (ys.head?, .notFound) := by
  obtain ⟨xs, ys, hL, hxs, ⟨b, zs, rfl, hb, -⟩ | ⟨hys, hsearch⟩⟩ := hI.search_eq d c
  · exact absurd hb (Inv.entryOf_eq_none_iff.mp h b
      (hL ▸ List.mem_append_right _ List.mem_cons_self))
  · exact ⟨xs, ys, hL, hxs, hys, hsearch⟩

/-! ## The walk of the code -/

/-- What `insertOrLookup` does at the place where the walk ends. -/
def settle (N : NamedObjects α) (s : Directories α) (insertObject : Option α) :
    Place α → Option (Except ErrorCode (α × Text) × Directories α)
  | .itself d => match insertObject with
    | none => some (.ok (d, []), s)
    | some _ => some (.error .invalidPath, s)
  | .invalid => some (.error .invalidPath, s)
  | .entry d c =>
    (search N s.items d c (s.inserted + 1) (s.items.front d)).bind fun (pivot, findResult) ↦
      s.noRemaining d insertObject pivot findResult
  | .absent => some (.error .notFound, s)
  | .through a rest => match insertObject with
    | none => some (.ok (a, [directorySeparator].intercalate rest), s)
    | some _ => some (.error .notSupported, s)

/-- **The code walks to the place of the path.** -/
theorem Inv.insertOrLookup_eq (hI : Inv N s L) (insertObject : Option α) {n : ℕ} {self : α}
    {remainingPath : Text} (hn : remainingPath.length < n) :
    s.insertOrLookup N n self insertObject remainingPath =
      s.settle N insertObject (locate (entryOf N L) N.isDirectory self (split remainingPath)) := by
  induction n generalizing self remainingPath with
  | zero => exact absurd hn (Nat.not_lt_zero _)
  | succ n ih =>
    rw [insertOrLookup.eq_def]
    dsimp only
    by_cases hnil : remainingPath = []
    · rw [if_pos hnil, hnil, split_nil]
      rfl
    rw [if_neg hnil]
    by_cases hsep : remainingPath.head? = some directorySeparator
    · obtain ⟨rest, rfl⟩ : ∃ rest, remainingPath = directorySeparator :: rest :=
        ⟨_, (List.cons_head?_tail hsep).symm⟩
      rw [if_pos hsep, split_separator]
      obtain ⟨p, ps, hps⟩ := List.exists_cons_of_ne_nil (split_ne_nil rest)
      rw [hps, locate, if_pos rfl]
      rfl
    have hname : componentName remainingPath ≠ [] := fun h ↦
      (componentName_eq_nil_iff.mp h).elim hnil hsep
    rw [if_neg hsep, if_neg hname]
    rcases split_cases remainingPath with ⟨hc, hafter, hsplit⟩ | ⟨hsplit, hlt⟩
    · rw [hsplit, locate_last hnil (Or.inl rfl), hc, hafter]
      rfl
    · by_cases hafter : afterComponent remainingPath = []
      · rw [hsplit, hafter, split_nil, locate_last hname (Or.inr rfl)]
        rfl
      · rw [hsplit, locate_inner hname (split_ne_nil _) (fun h ↦ hafter (split_eq_nil_iff.mp h))]
        cases he : entryOf N L self (componentName remainingPath) with
        | none =>
          obtain ⟨xs, ys, -, -, -, hsearch⟩ := hI.search_none he
          rw [hsearch]
          show (if _ then _ else _) = _
          rw [if_neg hafter]
          rfl
        | some x =>
          rw [hI.search_some he]
          show (if _ then _ else _) = _
          rw [if_neg hafter]
          dsimp only
          by_cases hx : N.isDirectory x
          · rw [if_pos hx, if_pos hx, ih (by omega)]
          · rw [if_neg hx, if_neg hx]
            cases insertObject with
            | some a => rfl
            | none =>
              show _ = some (Except.ok (x, [directorySeparator].intercalate (split _)), s)
              rw [split, List.intercalate_splitOn]

end Directories

end Chino
