import Chino.Library.Run
import Chino.Ob.Directory

/-!
# The object namespace

The lists of the directories are a forest: `entryOf` goes from a directory along a name, no object
is entered twice and nothing enters the root.  So what a path finds is where `follow` leads, an
insertion or a removal changes one edge, and only the paths through that edge see it.

`namespace_tree_map` says so of every run of insertions, lookups and removals, for every path.  An
inserted directory brings along what it holds, so the paths below the inserted one may change too:
`reinsertion_revives_children` is such a run.

## The layers

* **Edges.**  `entryOf N L d c` is the object named `c` in the directory `d`.  By
  `Chino.Library.Tree` a forest has unique paths, and `find_congr` is the frame rule: a path sees
  the edges it runs through.
* **Paths.**  `locate_eq_entry_iff` says which paths end at a place where something can be inserted,
  in terms of their components; the rules about leading, doubled and trailing separators are in
  `Chino.Ob.Path`.
* **Lists.**  `Inv` ties the lists of the directories to the edges: each is sorted strictly by name,
  no object is in two of them, and only objects with a component for a name are linked.
* **Operations.**  `Inv.insertedAt` and `Inv.removed` say what an insertion and a removal do to the
  lookups of all paths; `Inv.insertObject_of_not_insertable` that everything else changes nothing.

`namespace_tree_map` is the assembly, for every run of operations on proper objects: the object is
in no directory, and its name is the last component of the path.
-/

set_option autoImplicit false

namespace Chino

open Function (update)

/-! ## Finding along edges -/

section Find

variable {α : Type} {e e' : α → Text → Option α} {isDirectory : α → Bool} {a d x : α} {c : Text}
  {cs ps : List Text}

/-- Edges leave directories, and their labels are not empty. -/
def Labelled (e : α → Text → Option α) (isDirectory : α → Bool) : Prop :=
  ∀ d c a, e d c = some a → isDirectory d = true ∧ c ≠ []

theorem find_last (hc : c ≠ []) (hps : ps = [] ∨ ps = [[]]) :
    find e isDirectory d (c :: ps) = match e d c with
      | none => .error .notFound
      | some a => .ok a := by
  rw [find, locate_last hc hps]
  rfl

theorem find_inner (hc : c ≠ []) (hn : ps ≠ []) (hs : ps ≠ [[]]) :
    find e isDirectory d (c :: ps) = match e d c with
      | none => .error .notFound
      | some x => if isDirectory x then find e isDirectory x ps else .error .notFound := by
  rw [find, locate_inner hc hn hs]
  cases e d c with
  | none => rfl
  | some x =>
    dsimp only
    split <;> rfl

/-- A walk that ends before the last component has some of the path left. -/
theorem locate_through {rest : List Text} (h : locate e isDirectory d ps = .through x rest) :
    [directorySeparator].intercalate rest ≠ [] := by
  induction ps generalizing d with
  | nil => cases h
  | cons c ps ih =>
    by_cases hc : c = []
    · cases ps with
      | nil => rw [locate, if_pos hc] at h; cases h
      | cons p ps => rw [locate, if_pos hc] at h; cases h
    by_cases hlast : ps = [] ∨ ps = [[]]
    · rw [locate_last hc hlast] at h
      cases h
    · obtain ⟨hn, hs⟩ := not_or.mp hlast
      rw [locate_inner hc hn hs] at h
      cases he : e d c with
      | none => rw [he] at h; cases h
      | some y =>
        rw [he] at h
        dsimp only at h
        split at h
        · exact ih h
        · cases h
          cases rest with
          | nil => exact absurd rfl hn
          | cons p rest =>
            cases rest with
            | nil => simpa using hs
            | cons q rest => simp

/-- A missing edge ends every path through it. -/
theorem find_of_follow_none (hcs : ∀ c ∈ cs, c ≠ []) (h : follow e d cs = none) (ps : List Text) :
    find e isDirectory d (cs ++ ps) = .error .notFound := by
  induction cs generalizing d with
  | nil => cases h
  | cons c cs ih =>
    obtain ⟨hc, hcs⟩ := List.forall_mem_cons.mp hcs
    rw [follow] at h
    rw [List.cons_append]
    by_cases hlast : cs ++ ps = [] ∨ cs ++ ps = [[]]
    · rw [find_last hc hlast]
      cases he : e d c with
      | none => rfl
      | some x =>
        rw [he] at h
        have hnil : cs = [] := by
          cases cs with
          | nil => rfl
          | cons b cs => simp [hcs b List.mem_cons_self] at hlast
        rw [hnil] at h
        cases h
    · obtain ⟨hn, hs⟩ := not_or.mp hlast
      rw [find_inner hc hn hs]
      cases he : e d c with
      | none => rfl
      | some x =>
        rw [he] at h
        dsimp only
        rw [ih hcs h, ite_self]

/-- A component that is not the last one leads on to the directory it names. -/
theorem find_through {b y : α} {c' : Text} (hl : Labelled e isDirectory) (hc : c ≠ [])
    (hc' : c' ≠ []) (hb : e d c = some b) (hy : e b c' = some y) :
    find e isDirectory d (c :: c' :: ps) = find e isDirectory b (c' :: ps) := by
  rw [find_inner hc (by simp) (by simp [hc']), hb]
  dsimp only
  rw [if_pos (hl _ _ _ hy).1]

/-- What lies behind a path is found from where the path leads. -/
theorem find_append (hl : Labelled e isDirectory) (hcs : ∀ c ∈ cs, c ≠ []) (hne : cs ≠ [])
    (h : follow e d cs = some x) (hn : ps ≠ []) (hs : ps ≠ [[]]) :
    find e isDirectory d (cs ++ ps) =
      if isDirectory x then find e isDirectory x ps else .error .notFound := by
  induction cs generalizing d with
  | nil => exact absurd rfl hne
  | cons c cs ih =>
    obtain ⟨hc, hcs⟩ := List.forall_mem_cons.mp hcs
    obtain ⟨b, hb, h⟩ := Option.bind_eq_some_iff.mp h
    rw [List.cons_append]
    cases cs with
    | nil =>
      cases h
      rw [List.nil_append, find_inner hc hn hs, hb]
    | cons c' cs =>
      obtain ⟨y, hy, -⟩ := Option.bind_eq_some_iff.mp h
      rw [List.cons_append, find_through hl hc (hcs c' List.mem_cons_self) hb hy]
      exact ih hcs (by simp) h

/-- **A path finds where it leads**, with a separator behind it or not. -/
theorem find_of_follow_some (hl : Labelled e isDirectory) (hcs : ∀ c ∈ cs, c ≠ []) (hne : cs ≠ [])
    (h : follow e d cs = some x) {ps : List Text} (hps : ps = [] ∨ ps = [[]]) :
    find e isDirectory d (cs ++ ps) = .ok x := by
  induction cs generalizing d with
  | nil => exact absurd rfl hne
  | cons c cs ih =>
    obtain ⟨hc, hcs⟩ := List.forall_mem_cons.mp hcs
    obtain ⟨b, hb, h⟩ := Option.bind_eq_some_iff.mp h
    rw [List.cons_append]
    cases cs with
    | nil =>
      cases h
      rw [List.nil_append, find_last hc hps, hb]
    | cons c' cs =>
      obtain ⟨y, hy, -⟩ := Option.bind_eq_some_iff.mp h
      rw [List.cons_append, find_through hl hc (hcs c' List.mem_cons_self) hb hy]
      exact ih hcs (by simp) h

theorem find_eq_ok_iff (hl : Labelled e isDirectory) (hcs : ∀ c ∈ cs, c ≠ []) (hne : cs ≠ []) :
    find e isDirectory d cs = .ok x ↔ follow e d cs = some x := by
  constructor
  · intro h
    cases hf : follow e d cs with
    | none =>
      have : find e isDirectory d (cs ++ []) = _ := find_of_follow_none hcs hf []
      rw [List.append_nil, h] at this
      cases this
    | some y =>
      have := find_of_follow_some hl hcs hne hf (Or.inl rfl)
      rw [List.append_nil, h] at this
      cases this
      rfl
  · intro h
    simpa using find_of_follow_some hl hcs hne h (Or.inl rfl)

/-- **The frame rule.**  A path sees only the edges it runs through. -/
theorem find_congr
    (h : ∀ ys x c, ys ++ [c] <+: ps → follow e d ys = some x → e' x c = e x c) :
    find e' isDirectory d ps = find e isDirectory d ps := by
  induction ps generalizing d with
  | nil => rfl
  | cons c ps ih =>
    by_cases hc : c = []
    · cases ps with
      | nil => subst hc; rfl
      | cons p ps => rw [find, find, locate, locate, if_pos hc, if_pos hc]; rfl
    have hd : e' d c = e d c := h [] d c ⟨ps, rfl⟩ rfl
    by_cases hlast : ps = [] ∨ ps = [[]]
    · rw [find_last hc hlast, find_last hc hlast, hd]
    · obtain ⟨hn, hs⟩ := not_or.mp hlast
      rw [find_inner hc hn hs, find_inner hc hn hs, hd]
      cases he : e d c with
      | none => rfl
      | some x =>
        dsimp only
        rw [ih fun ys y c' hpre hy ↦ h (c :: ys) y c' ?_ ?_]
        · exact (List.prefix_cons_inj c).mpr hpre
        · exact Option.bind_eq_some_iff.mpr ⟨x, he, hy⟩

/-- **Where an insertion goes**: the shape of the path and where the components before the last
lead. -/
theorem locate_eq_entry_iff (hl : Labelled e isDirectory) :
    locate e isDirectory d ps = .entry x c ↔
      ∃ cs, (ps = cs ++ [c] ∨ ps = cs ++ [c] ++ [[]]) ∧ (∀ y ∈ cs ++ [c], y ≠ []) ∧
        follow e d cs = some x ∧ (cs ≠ [] → isDirectory x = true) := by
  constructor
  · intro h
    induction ps generalizing d with
    | nil => cases h
    | cons y ps ih =>
      by_cases hy : y = []
      · cases ps with
        | nil => rw [locate, if_pos hy] at h; cases h
        | cons p ps => rw [locate, if_pos hy] at h; cases h
      by_cases hlast : ps = [] ∨ ps = [[]]
      · rw [locate_last hy hlast] at h
        cases h
        refine ⟨[], ?_, by simpa using hy, rfl, fun h ↦ absurd rfl h⟩
        rcases hlast with rfl | rfl
        · exact Or.inl rfl
        · exact Or.inr rfl
      · obtain ⟨hn, hs⟩ := not_or.mp hlast
        rw [locate_inner hy hn hs] at h
        cases he : e d y with
        | none => rw [he] at h; cases h
        | some z =>
          rw [he] at h
          dsimp only at h
          split at h
          · rename_i hz
            obtain ⟨cs, hps, hcs, hx, hdir⟩ := ih h
            refine ⟨y :: cs, ?_, List.forall_mem_cons.mpr ⟨hy, hcs⟩,
              Option.bind_eq_some_iff.mpr ⟨z, he, hx⟩, fun _ ↦ ?_⟩
            · rcases hps with rfl | rfl
              · exact Or.inl rfl
              · exact Or.inr rfl
            · cases cs with
              | nil => cases hx; exact hz
              | cons _ _ => exact hdir (by simp)
          · cases h
  · rintro ⟨cs, hps, hcs, hx, hdir⟩
    obtain ⟨t, rfl, ht⟩ : ∃ t, ps = cs ++ c :: t ∧ (t = [] ∨ t = [[]]) := by
      rcases hps with rfl | rfl
      · exact ⟨[], rfl, Or.inl rfl⟩
      · exact ⟨[[]], List.append_assoc .., Or.inr rfl⟩
    clear hps
    induction cs generalizing d with
    | nil =>
      cases hx
      exact locate_last (by simpa using hcs) ht
    | cons y cs ih =>
      obtain ⟨hy, hcs⟩ := List.forall_mem_cons.mp hcs
      obtain ⟨z, hz, hx⟩ := Option.bind_eq_some_iff.mp hx
      have hzdir : isDirectory z = true := by
        cases cs with
        | nil => cases hx; exact hdir (by simp)
        | cons y' cs =>
          obtain ⟨w, hw, -⟩ := Option.bind_eq_some_iff.mp hx
          exact (hl _ _ _ hw).1
      have hs : cs ++ c :: t ≠ [[]] := by
        cases cs with
        | nil => simpa using fun h ↦ absurd h (hcs c List.mem_cons_self)
        | cons y' cs => simp
      rw [List.cons_append, locate_inner hy (by simp) hs, hz]
      dsimp only
      rw [if_pos hzdir]
      exact ih hcs hx fun _ ↦ by
        cases cs with
        | nil => cases hx; exact hzdir
        | cons _ _ => exact hdir (by simp)

end Find

/-! ## The operations -/

namespace Directories

variable {α : Type} [DecidableEq α] {N : NamedObjects α} {s : Directories α} {L L' : α → List α}
  {a b d x : α} {c y : Text} {cs ps : List Text}

omit [DecidableEq α] in
theorem Inv.labelled (hI : Inv N s L) : Labelled (entryOf N L) N.isDirectory := fun d c a h ↦ by
  obtain ⟨ha, rfl⟩ := hI.entryOf_eq_some_iff.mp h
  exact ⟨hI.isDirectory d a ha, (hI.component d a ha).1⟩

omit [DecidableEq α] in
theorem Inv.forest (hI : Inv N s L) : Forest (entryOf N L) := fun x y c c' a h h' ↦ by
  obtain ⟨ha, rfl⟩ := hI.entryOf_eq_some_iff.mp h
  obtain ⟨ha', rfl⟩ := hI.entryOf_eq_some_iff.mp h'
  exact ⟨hI.spells.disjoint x y a ha ha', rfl⟩

omit [DecidableEq α] in
theorem Inv.root (hI : Inv N s L) : Root (entryOf N L) N.rootDirectory := fun d c h ↦ by
  obtain ⟨ha, -⟩ := hI.entryOf_eq_some_iff.mp h
  exact (hI.component d _ ha).1 N.name_rootDirectory

omit [DecidableEq α] in
/-- Along the names of linked objects there are only components. -/
theorem Inv.component_of_follow (hI : Inv N s L) (h : follow (entryOf N L) d cs = some x) :
    ∀ c ∈ cs, Component c := by
  induction cs generalizing d with
  | nil => exact fun _ h ↦ absurd h List.not_mem_nil
  | cons c cs ih =>
    obtain ⟨b, hb, hcs⟩ := Option.bind_eq_some_iff.mp h
    obtain ⟨hbd, rfl⟩ := hI.entryOf_eq_some_iff.mp hb
    exact List.forall_mem_cons.mpr ⟨hI.component d b hbd, ih hcs⟩

/-! ### Lookups -/

theorem Inv.lookup_eq (hI : Inv N s L) (self : α) (p : Text) :
    s.lookup N self p = some (find (entryOf N L) N.isDirectory self (split p), s) := by
  rw [lookup, hI.insertOrLookup_eq none (Nat.lt_succ_self _), find]
  cases hp : locate (entryOf N L) N.isDirectory self (split p) with
  | itself d => rfl
  | invalid => rfl
  | absent => rfl
  | entry d c =>
    cases he : entryOf N L d c with
    | none =>
      obtain ⟨xs, ys, -, -, -, hsearch⟩ := hI.search_none he
      simp only [settle, hsearch, Option.bind_some, Place.found, he, noRemaining, Option.map_some]
    | some b =>
      simp only [settle, hI.search_some he, Option.bind_some, Place.found, he, noRemaining,
        Option.map_some, if_true]
  | through b rest =>
    simp only [settle, Option.map_some, Place.found, if_neg (locate_through hp)]

/-- A path that does not start with a separator finds nothing. -/
theorem resolve_of_head? {q : Text} (h : q.head? ≠ some directorySeparator) :
    s.resolve N q = some (.error .invalidPath) := by
  rw [resolve, lookupObject, if_pos (Or.inr h)]
  rfl

theorem Inv.resolve_eq (hI : Inv N s L) {q : Text} (hq : split q = [] :: ps) (hps : ps ≠ []) :
    s.resolve N q = some (find (entryOf N L) N.isDirectory N.rootDirectory ps) := by
  obtain ⟨p, ps', rfl⟩ := List.exists_cons_of_ne_nil hps
  have he := eq_pathOf_of_split hq
  rw [pathOf_cons] at he
  subst he
  rw [split_separator, List.cons.injEq] at hq
  rw [resolve, lookupObject, if_neg (by simp), List.tail_cons, hI.lookup_eq, hq.2]
  rfl

theorem Inv.resolve_separator (hI : Inv N s L) (p : Text) :
    s.resolve N (directorySeparator :: p) =
      some (find (entryOf N L) N.isDirectory N.rootDirectory (split p)) :=
  hI.resolve_eq (split_separator p) (split_ne_nil p)

theorem Inv.resolve_pathOf (hI : Inv N s L) (hcs : ∀ c ∈ cs, Component c) (hne : cs ≠ []) :
    s.resolve N (pathOf cs) = some (find (entryOf N L) N.isDirectory N.rootDirectory cs) :=
  hI.resolve_eq (split_pathOf hcs).1 hne

theorem Inv.resolve_pathOf_append (hI : Inv N s L) (hcs : ∀ c ∈ cs, Component c) (rest : Text) :
    s.resolve N (pathOf cs ++ directorySeparator :: rest) =
      some (find (entryOf N L) N.isDirectory N.rootDirectory (cs ++ split rest)) :=
  hI.resolve_eq ((split_pathOf hcs).2 rest) (by simp [split_ne_nil])

theorem Inv.resolve_pathOf_eq_ok_iff (hI : Inv N s L) (hcs : ∀ c ∈ cs, Component c)
    (hne : cs ≠ []) : s.resolve N (pathOf cs) = some (.ok x) ↔
      follow (entryOf N L) N.rootDirectory cs = some x := by
  rw [hI.resolve_pathOf hcs hne, Option.some.injEq,
    find_eq_ok_iff hI.labelled (fun c hc ↦ (hcs c hc).1) hne]

/-- **What an edge changes.**  Where the edges differ only at the name `c` of the directory `d`, the
paths that are not under this name find what they found. -/
theorem Inv.resolve_frame {s' : Directories α} (hI : Inv N s L) (hI' : Inv N s' L')
    (he : ∀ x y, ¬(x = d ∧ y = c) → entryOf N L' x y = entryOf N L x y) {q : Text}
    (hq : ∀ zs, follow (entryOf N L) N.rootDirectory zs = some d → ¬Under (zs ++ [c]) q) :
    s'.resolve N q = s.resolve N q := by
  by_cases hhead : q.head? = some directorySeparator
  · obtain ⟨p, rfl⟩ : ∃ p, q = directorySeparator :: p := ⟨_, (List.cons_head?_tail hhead).symm⟩
    rw [hI.resolve_separator, hI'.resolve_separator, find_congr fun ys x y hpre hx ↦ he x y ?_]
    rintro ⟨rfl, rfl⟩
    have hunder := under_pathOf_of_prefix hpre
    rw [pathOf_split] at hunder
    exact hq ys hx hunder
  · rw [resolve_of_head? hhead, resolve_of_head? hhead]

/-- Equal lists find equally. -/
theorem Inv.resolve_congr {s' : Directories α} (hI : Inv N s L) (hI' : Inv N s' L) (q : Text) :
    s'.resolve N q = s.resolve N q := by
  by_cases hhead : q.head? = some directorySeparator
  · obtain ⟨p, rfl⟩ : ∃ p, q = directorySeparator :: p := ⟨_, (List.cons_head?_tail hhead).symm⟩
    rw [hI.resolve_separator, hI'.resolve_separator]
  · rw [resolve_of_head? hhead, resolve_of_head? hhead]

/-! ### Insertions -/

/-- An object can be inserted at `p`: a path whose components before the last lead through
directories, with nothing at the last. -/
def Insertable (N : NamedObjects α) (s : Directories α) (p : Text) : Prop :=
  ∃ cs c, Names p (cs ++ [c]) ∧
    (∀ xs, xs <+: cs → xs ≠ [] →
      ∃ d, s.resolve N (pathOf xs) = some (.ok d) ∧ N.isDirectory d = true) ∧
    ∀ b, s.resolve N (pathOf (cs ++ [c])) ≠ some (.ok b)

/-- **Where an object can be inserted.** -/
theorem Inv.insertable_iff (hI : Inv N s L) (q : Text) :
    s.Insertable N q ↔ ∃ ps d c, split q = [] :: ps ∧ ps ≠ [] ∧
      locate (entryOf N L) N.isDirectory N.rootDirectory ps = .entry d c ∧
      entryOf N L d c = none := by
  constructor
  · rintro ⟨cs, c, hq, hpre, hlast⟩
    have hcomp : ∀ y ∈ cs ++ [c], Component y := hq.1
    have hcs : ∀ y ∈ cs, Component y := fun y hy ↦ hcomp y (List.mem_append_left _ hy)
    obtain ⟨d, hd, hdir⟩ : ∃ d, follow (entryOf N L) N.rootDirectory cs = some d ∧
        N.isDirectory d = true := by
      by_cases hne : cs = []
      · exact ⟨_, by rw [hne, follow_nil], N.isDirectory_rootDirectory⟩
      · obtain ⟨d, hd, hdir⟩ := hpre cs (List.prefix_refl _) hne
        exact ⟨d, (hI.resolve_pathOf_eq_ok_iff hcs hne).mp hd, hdir⟩
    have he : entryOf N L d c = none := by
      cases he : entryOf N L d c with
      | none => rfl
      | some b =>
        exact absurd ((hI.resolve_pathOf_eq_ok_iff hcomp (by simp)).mpr
          (follow_concat_eq_some.mpr ⟨d, hd, he⟩)) (hlast b)
    have hloc : ∀ ps, (ps = cs ++ [c] ∨ ps = cs ++ [c] ++ [[]]) →
        locate (entryOf N L) N.isDirectory N.rootDirectory ps = .entry d c := fun ps hps ↦
      (locate_eq_entry_iff hI.labelled).mpr
        ⟨cs, hps, fun y hy ↦ (hcomp y hy).1, hd, fun _ ↦ hdir⟩
    rcases split_of_names hq with hsplit | hsplit
    · exact ⟨_, d, c, hsplit, by simp, hloc _ (Or.inl rfl), he⟩
    · exact ⟨_, d, c, hsplit, by simp, hloc _ (Or.inr rfl), he⟩
  · rintro ⟨ps, d, c, hsplit, -, hloc, he⟩
    obtain ⟨cs, hps, hne, hd, hdir⟩ := (locate_eq_entry_iff hI.labelled).mp hloc
    have hcomp : ∀ y ∈ cs ++ [c], Component y := fun y hy ↦ by
      refine ⟨hne y hy, not_mem_of_mem_split (p := q) ?_⟩
      rw [hsplit]
      rcases hps with rfl | rfl
      · exact List.mem_cons_of_mem _ hy
      · exact List.mem_cons_of_mem _ (List.mem_append_left _ hy)
    refine ⟨cs, c, ⟨hcomp, ?_⟩, fun xs hxs hxne ↦ ?_, fun b hb ↦ ?_⟩
    · rw [eq_pathOf_of_split hsplit]
      rcases hps with rfl | rfl
      · exact Or.inl rfl
      · exact Or.inr (by rw [pathOf_append _ [[]]]; rfl)
    · obtain ⟨ys, rfl⟩ := hxs
      rw [follow_append] at hd
      obtain ⟨x, hx, hxd⟩ := Option.bind_eq_some_iff.mp hd
      have hxc : ∀ y ∈ xs, Component y := fun y hy ↦ hcomp y (by simp [hy])
      refine ⟨x, (hI.resolve_pathOf_eq_ok_iff hxc hxne).mpr hx, ?_⟩
      cases ys with
      | nil => cases hxd; exact hdir (by simpa using hxne)
      | cons y ys =>
        obtain ⟨z, hz, -⟩ := Option.bind_eq_some_iff.mp hxd
        exact (hI.labelled _ _ _ hz).1
    · obtain ⟨d', hd', hb'⟩ := follow_concat_eq_some.mp
        ((hI.resolve_pathOf_eq_ok_iff hcomp (by simp)).mp hb)
      rw [hd] at hd'
      cases hd'
      rw [he] at hb'
      cases hb'

/-- Where nothing is of a name, the code links the object. -/
theorem Inv.noRemaining_spells (hI : Inv N s L) (ha : ∀ d, a ∉ L d) (he : entryOf N L d c = none) :
    ∃ xs ys items, L d = xs ++ ys ∧ (∀ x ∈ xs, N.name x < c) ∧ (∀ y ∈ ys, c < N.name y) ∧
      (search N s.items d c (s.inserted + 1) (s.items.front d)).bind
        (fun (pivot, findResult) ↦ s.noRemaining d (some a) pivot findResult) =
          some (.ok (a, []), ⟨items, update s.refs a (s.refs a + 1), s.inserted + 1⟩) ∧
      items.Spells (update L d (xs ++ a :: ys)) := by
  obtain ⟨xs, ys, hL, hxs, hys, hsearch⟩ := hI.search_none he
  obtain ⟨items, hinsert, hspells⟩ : ∃ items, insertAtPivot s.items d a ys.head? = some items ∧
      items.Spells (update L d (xs ++ a :: ys)) := by
    cases ys with
    | nil =>
      obtain ⟨items, h, hs⟩ := hI.spells.pushBack_spec (l := d) ha
      rw [List.append_nil] at hL
      exact ⟨items, h, by rwa [hL] at hs⟩
    | cons y ys => exact hI.spells.insertBefore_spec hL ha
  refine ⟨xs, ys, items, hL, hxs, hys, ?_, hspells⟩
  simp only [hsearch, Option.bind_some, noRemaining, if_true, hinsert, Option.map_some]

/-- An object goes into a directory that has nothing of its name. -/
theorem Inv.noRemaining_insert (hI : Inv N s L) (ha : ∀ d, a ∉ L d) (hc : Component (N.name a))
    (hd : N.isDirectory d = true) (he : entryOf N L d (N.name a) = none) :
    ∃ xs ys s', L d = xs ++ ys ∧
      (search N s.items d (N.name a) (s.inserted + 1) (s.items.front d)).bind
        (fun (pivot, findResult) ↦ s.noRemaining d (some a) pivot findResult) =
          some (.ok (a, []), s') ∧
      Inv N s' (update L d (xs ++ a :: ys)) := by
  obtain ⟨xs, ys, items, hL, hxs, hys, hinsert, hspells⟩ := hI.noRemaining_spells ha he
  have hmem : ∀ d' b, b ∈ update L d (xs ++ a :: ys) d' → b = a ∧ d' = d ∨ b ∈ L d' := by
    intro d' b hb
    by_cases hdd : d' = d
    · subst hdd
      rw [Function.update_self] at hb
      rw [hL]
      rcases (by simpa [or_left_comm] using hb : b = a ∨ b ∈ xs ∨ b ∈ ys) with rfl | hb
      · exact Or.inl ⟨rfl, rfl⟩
      · exact Or.inr (List.mem_append.mpr hb)
    · rw [Function.update_of_ne hdd] at hb
      exact Or.inr hb
  refine ⟨xs, ys, ⟨items, update s.refs a (s.refs a + 1), s.inserted + 1⟩, hL, hinsert, hspells,
    fun d' ↦ ?_, fun d' ↦ ?_, fun d' b hb ↦ ?_, fun d' b hb ↦ ?_, fun d' b hb ↦ ?_, fun b hb ↦ ?_⟩
  · by_cases hdd : d' = d
    · subst hdd
      rw [Function.update_self]
      have hLd := List.pairwise_append.mp (hL ▸ hI.ascending d')
      refine List.pairwise_append.mpr ⟨hLd.1, List.pairwise_cons.mpr ⟨hys, hLd.2.1⟩,
        fun x hx y hy ↦ ?_⟩
      rcases List.mem_cons.mp hy with rfl | hy
      · exact hxs x hx
      · exact hLd.2.2 x hx y hy
    · rw [Function.update_of_ne hdd]
      exact hI.ascending d'
  · have hb := hI.bound d'
    by_cases hdd : d' = d
    · subst hdd
      rw [hL, List.length_append] at hb
      rw [Function.update_self, List.length_append, List.length_cons]
      dsimp only
      omega
    · rw [Function.update_of_ne hdd]
      exact Nat.le_succ_of_le hb
  · rcases hmem d' b hb with ⟨rfl, -⟩ | hb
    · exact hc
    · exact hI.component d' b hb
  · rcases hmem d' b hb with ⟨-, rfl⟩ | hb
    · exact hd
    · exact hI.isDirectory d' b hb
  · dsimp only
    rcases hmem d' b hb with ⟨rfl, -⟩ | hbL
    · rw [Function.update_self, hI.free b ha]
    · rw [Function.update_of_ne (by rintro rfl; exact ha d' hbL), hI.linked d' b hbL]
  · have hba : b ≠ a := by rintro rfl; exact hb d (by simp)
    dsimp only
    rw [Function.update_of_ne hba]
    refine hI.free b fun d' hbd ↦ hb d' ?_
    by_cases hdd : d' = d
    · subst hdd
      rw [Function.update_self]
      rcases List.mem_append.mp (hL ▸ hbd) with h | h
      · exact List.mem_append_left _ h
      · exact List.mem_append_right _ (List.mem_cons_of_mem _ h)
    · rwa [Function.update_of_ne hdd]

/-- The code of `insert` in any directory. -/
theorem Inv.insert_eq (hI : Inv N s L) (self a : α) (p : Text) : s.insert N self a p =
    (s.settle N (some a) (locate (entryOf N L) N.isDirectory self (split p))).map
      fun r ↦ (r.1.map fun _ ↦ (), r.2) := by
  rw [insert, hI.insertOrLookup_eq (some a) (Nat.lt_succ_self _)]

/-- An object is only inserted as an entry that is not there yet. -/
theorem Inv.insert_of_occupied (hI : Inv N s L) {self : α} (a : α) {p : Text}
    (h : ∀ d c, locate (entryOf N L) N.isDirectory self (split p) = .entry d c →
      entryOf N L d c ≠ none) : ∃ e, s.insert N self a p = some (.error e, s) := by
  rw [hI.insert_eq]
  cases hloc : locate (entryOf N L) N.isDirectory self (split p) with
  | itself d => exact ⟨_, rfl⟩
  | invalid => exact ⟨_, rfl⟩
  | absent => exact ⟨_, rfl⟩
  | through b rest => exact ⟨_, rfl⟩
  | entry d c =>
    obtain ⟨b, he⟩ := Option.ne_none_iff_exists'.mp (h d c hloc)
    refine ⟨.keyAlreadyExists, ?_⟩
    rw [settle, hI.search_some he]
    rfl

/-- The code of `insert_object` behind a leading separator. -/
theorem Inv.insertObject_eq (hI : Inv N s L) (a : α) {q : Text} (hq : split q = [] :: ps)
    (hps : ps ≠ []) : s.insertObject N a q =
      (s.settle N (some a) (locate (entryOf N L) N.isDirectory N.rootDirectory ps)).map
        fun r ↦ (r.1.map fun _ ↦ (), r.2) := by
  obtain ⟨p, ps', rfl⟩ := List.exists_cons_of_ne_nil hps
  have he := eq_pathOf_of_split hq
  rw [pathOf_cons] at he
  subst he
  rw [split_separator, List.cons.injEq] at hq
  rw [insertObject, if_neg (by simp), List.tail_cons, hI.insert_eq, hq.2]

/-- The insertion at a path where nothing is. -/
theorem Inv.insertObject_of_entry (hI : Inv N s L) (ha : ∀ d, a ∉ L d) (hc : Component (N.name a))
    {q : Text} (hq : split q = [] :: ps) (hps : ps ≠ [])
    (hloc : locate (entryOf N L) N.isDirectory N.rootDirectory ps = .entry d (N.name a))
    (he : entryOf N L d (N.name a) = none) :
    ∃ xs ys s', L d = xs ++ ys ∧ s.insertObject N a q = some (.ok (), s') ∧
      Inv N s' (update L d (xs ++ a :: ys)) := by
  have hd : N.isDirectory d = true := by
    obtain ⟨cs, -, -, hx, hdir⟩ := (locate_eq_entry_iff hI.labelled).mp hloc
    by_cases hne : cs = []
    · rw [hne] at hx
      cases hx
      exact N.isDirectory_rootDirectory
    · exact hdir hne
  obtain ⟨xs, ys, s', hL, hs', hI'⟩ := hI.noRemaining_insert ha hc hd he
  refine ⟨xs, ys, s', hL, ?_, hI'⟩
  rw [hI.insertObject_eq a hq hps, hloc, settle, hs']
  rfl

/-- **An insertion that cannot be made changes nothing.** -/
theorem Inv.insertObject_of_not_insertable (hI : Inv N s L) (a : α) {q : Text}
    (h : ¬s.Insertable N q) : ∃ e, s.insertObject N a q = some (.error e, s) := by
  by_cases hhead : q.head? = some directorySeparator
  · obtain ⟨p, rfl⟩ : ∃ p, q = directorySeparator :: p := ⟨_, (List.cons_head?_tail hhead).symm⟩
    rw [insertObject, if_neg (by simp), List.tail_cons]
    exact hI.insert_of_occupied a fun d c hloc he ↦
      h ((hI.insertable_iff _).mpr ⟨_, d, c, split_separator p, split_ne_nil p, hloc, he⟩)
  · exact ⟨.invalidPath, by rw [insertObject, if_pos (Or.inr hhead)]⟩

/-! ### Removals -/

/-- An object leaves the directory it is in, whichever directory it is removed from. -/
theorem Inv.remove_eq (hI : Inv N s L) (ha : a ∈ L d) (k : α) :
    ∃ s', s.remove k a = some s' ∧ Inv N s' (update L d ((L d).erase a)) := by
  obtain ⟨items, hremove, hspells⟩ := hI.spells.remove_spec ha k
  have hsub : ∀ d', (update L d ((L d).erase a) d').Sublist (L d') := by
    intro d'
    by_cases hdd : d' = d
    · subst hdd
      rw [Function.update_self]
      exact List.erase_sublist
    · rw [Function.update_of_ne hdd]
  have hnot : ∀ d', a ∉ update L d ((L d).erase a) d' := by
    intro d' hm
    by_cases hdd : d' = d
    · subst hdd
      rw [Function.update_self] at hm
      exact ((hI.spells.nodup d').not_mem_erase) hm
    · rw [Function.update_of_ne hdd] at hm
      exact hdd (hI.spells.disjoint d' d a hm ha)
  refine ⟨⟨items, update s.refs a (s.refs a - 1), s.inserted⟩, ?_, hspells,
    fun d' ↦ (hI.ascending d').sublist (hsub d'), fun d' ↦ (hsub d').length_le.trans (hI.bound d'),
    fun d' b hb ↦ hI.component d' b ((hsub d').subset hb),
    fun d' b hb ↦ hI.isDirectory d' b ((hsub d').subset hb), fun d' b hb ↦ ?_, fun b hb ↦ ?_⟩
  · rw [remove]
    show (_ : Option _).bind _ = _
    rw [hremove]
    rfl
  · have hba : b ≠ a := by rintro rfl; exact hnot d' hb
    dsimp only
    rw [Function.update_of_ne hba]
    exact hI.linked d' b ((hsub d').subset hb)
  · dsimp only
    by_cases hba : b = a
    · subst hba
      rw [Function.update_self, hI.linked d b ha]
    · rw [Function.update_of_ne hba]
      refine hI.free b fun d' hbd ↦ hb d' ?_
      by_cases hdd : d' = d
      · subst hdd
        rw [Function.update_self]
        exact (List.mem_erase_of_ne hba).mpr hbd
      · rwa [Function.update_of_ne hdd]

/-! ### What an insertion does -/

/-- What an insertion of `a` at the components `cs` does to the lookups. -/
structure InsertedAt (N : NamedObjects α) (s s' : Directories α) (a : α) (cs : List Text) :
    Prop where
  found : s'.resolve N (pathOf cs) = some (.ok a)
  found_separator : s'.resolve N (pathOf cs ++ [directorySeparator]) = some (.ok a)
  /-- Below the new path everything is found from the new object, as it was before. -/
  below : ∀ rest, rest ≠ [] → s'.resolve N (pathOf cs ++ directorySeparator :: rest) =
    if N.isDirectory a then (s.lookup N a rest).map Prod.fst else some (.error .notFound)
  elsewhere : ∀ q, ¬Under cs q → s'.resolve N q = s.resolve N q
  /-- An object that holds nothing changes what its own path finds, and nothing else. -/
  alone : s.listing a = [] → ∀ q, q ≠ pathOf cs → q ≠ pathOf cs ++ [directorySeparator] →
    ∀ b, s'.resolve N q = some (.ok b) ↔ s.resolve N q = some (.ok b)
  /-- Removing it again restores every list and every lookup. -/
  undone : ∀ k, ∃ s'', s'.remove k a = some s'' ∧ s''.listing = s.listing ∧
    ∀ q, s''.resolve N q = s.resolve N q

/-- The new edge. -/
theorem Inv.entryOf_insert {s' : Directories α} (hI : Inv N s L) {xs ys : List α}
    (hL : L d = xs ++ ys) (hI' : Inv N s' (update L d (xs ++ a :: ys))) :
    entryOf N (update L d (xs ++ a :: ys)) d (N.name a) = some a ∧
      ∀ x y, ¬(x = d ∧ y = N.name a) →
        entryOf N (update L d (xs ++ a :: ys)) x y = entryOf N L x y := by
  refine ⟨hI'.entryOf_eq_some_iff.mpr ⟨by simp, rfl⟩, fun x y hxy ↦ Option.ext fun b ↦ ?_⟩
  rw [hI'.entryOf_eq_some_iff, hI.entryOf_eq_some_iff]
  by_cases hx : x = d
  · subst hx
    rw [Function.update_self, hL]
    constructor
    · rintro ⟨hb, rfl⟩
      rcases (by simpa [or_left_comm] using hb : b = a ∨ b ∈ xs ∨ b ∈ ys) with rfl | hb
      · exact absurd ⟨rfl, rfl⟩ hxy
      · exact ⟨List.mem_append.mpr hb, rfl⟩
    · rintro ⟨hb, rfl⟩
      rcases List.mem_append.mp hb with hb | hb
      · exact ⟨List.mem_append_left _ hb, rfl⟩
      · exact ⟨List.mem_append_right _ (List.mem_cons_of_mem _ hb), rfl⟩
  · rw [Function.update_of_ne hx]

/-- **An insertion puts the object at its path.** -/
theorem Inv.insertedAt {s' : Directories α} (hI : Inv N s L) (ha : ∀ d, a ∉ L d) {xs ys : List α}
    (hL : L d = xs ++ ys) (hI' : Inv N s' (update L d (xs ++ a :: ys)))
    (hcs : ∀ y ∈ cs ++ [N.name a], Component y)
    (hd : follow (entryOf N L) N.rootDirectory cs = some d)
    (hfree : entryOf N L d (N.name a) = none) : InsertedAt N s s' a (cs ++ [N.name a]) := by
  obtain ⟨hself, hother⟩ := hI.entryOf_insert hL hI'
  have hne : ∀ y ∈ cs ++ [N.name a], y ≠ [] := fun y hy ↦ (hcs y hy).1
  have hmono : ∀ x y b, entryOf N L x y = some b →
      entryOf N (update L d (xs ++ a :: ys)) x y = some b := by
    intro x y b hb
    rwa [hother x y]
    rintro ⟨rfl, rfl⟩
    rw [hfree] at hb
    cases hb
  have hpath : follow (entryOf N (update L d (xs ++ a :: ys))) N.rootDirectory
      (cs ++ [N.name a]) = some a :=
    follow_concat_eq_some.mpr ⟨d, follow_mono hmono hd, hself⟩
  have hmissing : follow (entryOf N L) N.rootDirectory (cs ++ [N.name a]) = none := by
    rw [follow_append, hd, Option.bind_some, follow, hfree]
    rfl
  -- the new object is not above the directory that it went into
  have habove : ∀ zs, follow (entryOf N L) a zs ≠ some d := by
    intro zs hz
    obtain ⟨ws, -, hw⟩ := hI.root.suffix hI.forest hd hz
    cases ws using List.reverseRecOn with
    | nil =>
      cases hw
      exact (hcs (N.name N.rootDirectory) (by simp)).1 N.name_rootDirectory
    | append_singleton ws y =>
      obtain ⟨x, -, hx⟩ := follow_concat_eq_some.mp hw
      exact ha x (hI.entryOf_eq_some_iff.mp hx).1
  have helse : ∀ q, ¬Under (cs ++ [N.name a]) q → s'.resolve N q = s.resolve N q := by
    intro q hq
    refine hI.resolve_frame hI' hother fun zs hz ↦ ?_
    rwa [hI.root.follow_injective hI.forest hz hd]
  have hbelow : ∀ rest, rest ≠ [] →
      s'.resolve N (pathOf (cs ++ [N.name a]) ++ directorySeparator :: rest) =
        if N.isDirectory a then (s.lookup N a rest).map Prod.fst else some (.error .notFound) := by
    intro rest hrest
    rw [hI'.resolve_pathOf_append hcs, find_append hI'.labelled hne (by simp) hpath
      (split_ne_nil rest) (fun h ↦ hrest (split_eq_nil_iff.mp h)), hI.lookup_eq, Option.map_some,
      find_congr fun zs x y _ hx ↦ hother x y ?_]
    · split <;> rfl
    · rintro ⟨rfl, -⟩
      exact habove zs hx
  refine ⟨?_, ?_, hbelow, helse, fun halone q hq hq' b ↦ ?_, fun k ↦ ?_⟩
  · exact (hI'.resolve_pathOf_eq_ok_iff hcs (by simp)).mpr hpath
  · rw [hI'.resolve_pathOf_append hcs, split_nil,
      find_of_follow_some hI'.labelled hne (by simp) hpath (Or.inr rfl)]
  · by_cases hunder : Under (cs ++ [N.name a]) q
    · obtain rfl | ⟨rest, rfl⟩ := hunder
      · exact absurd rfl hq
      have hrest : rest ≠ [] := by rintro rfl; exact hq' rfl
      have hnone : ∀ y, follow (entryOf N L) a [y] = none := by
        intro y
        rw [hI.listing_eq] at halone
        rw [follow, entryOf, halone]
        rfl
      rw [hbelow rest hrest, hI.resolve_pathOf_append hcs, find_of_follow_none hne hmissing,
        hI.lookup_eq, Option.map_some]
      obtain ⟨y, ps, hps⟩ := List.exists_cons_of_ne_nil (split_ne_nil rest)
      have hfail : find (entryOf N L) N.isDirectory a (split rest) ≠ .ok b := by
        rw [hps]
        by_cases hy : y = []
        · cases ps with
          | nil => exact absurd (split_eq_nil_iff.mp (hps.trans (by rw [hy]))) hrest
          | cons p ps =>
            rw [find, locate, if_pos hy]
            exact fun h ↦ by cases h
        · rw [show y :: ps = [y] ++ ps from rfl,
            find_of_follow_none (by simpa using hy) (hnone y) ps]
          exact fun h ↦ by cases h
      constructor
      · intro h
        split at h
        · exact absurd (Option.some.inj h) hfail
        · cases h
      · intro h
        cases h
    · rw [helse q hunder]
  · obtain ⟨s'', hs'', hI''⟩ := hI'.remove_eq (d := d) (a := a) (by simp) k
    have hax : a ∉ xs := fun h ↦ ha d (hL ▸ List.mem_append_left _ h)
    have hback : update (update L d (xs ++ a :: ys)) d
        ((update L d (xs ++ a :: ys) d).erase a) = L := by
      rw [Function.update_self, Function.update_idem, List.erase_append_right _ hax,
        List.erase_cons_head, ← hL, Function.update_eq_self]
    rw [hback] at hI''
    exact ⟨s'', hs'', funext fun d ↦ (hI''.listing_eq d).trans (hI.listing_eq d).symm,
      hI.resolve_congr hI''⟩

/-! ### What a removal does -/

/-- What a removal of `a` does to the lookups. -/
structure Removed (N : NamedObjects α) (s s' : Directories α) (a : α) : Prop where
  unlinked : s'.items.inList a = false
  /-- The path of the object and those below it find nothing. -/
  gone : ∀ cs, (∀ c ∈ cs, Component c) → s.resolve N (pathOf cs) = some (.ok a) →
    ∀ q, Under cs q → s'.resolve N q = some (.error .notFound)
  elsewhere : ∀ q, (∀ cs, (∀ c ∈ cs, Component c) → s.resolve N (pathOf cs) = some (.ok a) →
    ¬Under cs q) → s'.resolve N q = s.resolve N q

/-- **A removal takes the object away from its path.** -/
theorem Inv.removed {s' : Directories α} (hI : Inv N s L) (ha : a ∈ L d)
    (hI' : Inv N s' (update L d ((L d).erase a))) : Removed N s s' a := by
  have hedge : entryOf N L d (N.name a) = some a := hI.entryOf_eq_some_iff.mpr ⟨ha, rfl⟩
  have hmem : ∀ x b, b ∈ update L d ((L d).erase a) x ↔ b ∈ L x ∧ b ≠ a := by
    intro x b
    by_cases hx : x = d
    · subst hx
      rw [Function.update_self, (hI.spells.nodup x).mem_erase_iff, and_comm]
    · rw [Function.update_of_ne hx]
      refine ⟨fun hb ↦ ⟨hb, ?_⟩, fun h ↦ h.1⟩
      rintro rfl
      exact hx (hI.spells.disjoint x d b hb ha)
  have hiff : ∀ x y b, entryOf N (update L d ((L d).erase a)) x y = some b ↔
      entryOf N L x y = some b ∧ b ≠ a := by
    intro x y b
    rw [hI'.entryOf_eq_some_iff, hI.entryOf_eq_some_iff, hmem, and_right_comm]
  have hother : ∀ x y, ¬(x = d ∧ y = N.name a) →
      entryOf N (update L d ((L d).erase a)) x y = entryOf N L x y := by
    intro x y hxy
    refine Option.ext fun b ↦ (hiff x y b).trans ⟨fun h ↦ h.1, fun h ↦ ⟨h, ?_⟩⟩
    rintro rfl
    obtain ⟨rfl, rfl⟩ := hI.forest _ _ _ _ _ h hedge
    exact hxy ⟨rfl, rfl⟩
  have hnone : entryOf N (update L d ((L d).erase a)) d (N.name a) = none := by
    refine Option.eq_none_iff_forall_not_mem.mpr fun b hb ↦ ?_
    obtain ⟨hb, hba⟩ := (hiff _ _ _).mp hb
    rw [hedge] at hb
    exact hba (Option.some.inj hb).symm
  refine ⟨?_, fun cs hcs hok q hq ↦ ?_, fun q hq ↦ ?_⟩
  · rw [← Bool.not_eq_true, hI'.spells.inList_iff]
    rintro ⟨x, hx⟩
    exact ((hmem x a).mp hx).2 rfl
  · have hne : cs ≠ [] := by
      rintro rfl
      rw [pathOf_nil, resolve_of_head? (by simp)] at hok
      cases hok
    have hfollow := (hI.resolve_pathOf_eq_ok_iff hcs hne).mp hok
    have hcut : follow (entryOf N (update L d ((L d).erase a))) N.rootDirectory cs = none := by
      cases h : follow (entryOf N (update L d ((L d).erase a))) N.rootDirectory cs with
      | none => rfl
      | some b =>
        have hb := follow_mono (fun x y b h ↦ ((hiff x y b).mp h).1) h
        rw [hfollow] at hb
        cases hb
        cases cs using List.reverseRecOn with
        | nil => exact absurd rfl hne
        | append_singleton zs y =>
          obtain ⟨x, -, hx⟩ := follow_concat_eq_some.mp h
          exact absurd rfl ((hiff _ _ _).mp hx).2
    have hfail : ∀ ps, find _ N.isDirectory _ (cs ++ ps) = _ :=
      find_of_follow_none (fun c hc ↦ (hcs c hc).1) hcut
    obtain rfl | ⟨rest, rfl⟩ := hq
    · have := hfail []
      rw [List.append_nil] at this
      rw [hI'.resolve_pathOf hcs hne, this]
    · rw [hI'.resolve_pathOf_append hcs, hfail]
  · refine hI.resolve_frame hI' hother fun zs hz ↦ ?_
    have hz' : follow (entryOf N L) N.rootDirectory (zs ++ [N.name a]) = some a :=
      follow_concat_eq_some.mpr ⟨d, hz, hedge⟩
    have hcs := hI.component_of_follow hz'
    exact hq _ hcs ((hI.resolve_pathOf_eq_ok_iff hcs (by simp)).mpr hz')

end Directories

/-! ## Runs -/

/-- The operations on the namespace. -/
inductive NamespaceOp (α : Type) where
  | insertObject (a : α) (fullPath : Text)
  | lookupObject (fullPath : Text)
  /-- `directory.remove(a)` -/
  | remove (directory a : α)

namespace Directories

variable {α : Type} [DecidableEq α] (N : NamedObjects α)

/-- The next state, or none where the code cannot go on. -/
def next (s : Directories α) : NamespaceOp α → Option (Directories α)
  | .insertObject a p => (s.insertObject N a p).map Prod.snd
  | .lookupObject p => (s.lookupObject N p).map Prod.snd
  | .remove d a => s.remove d a

/-- Runs of any operations. -/
def machine : Machine (Directories α) (NamespaceOp α) where
  init := init
  next := next N

/-- An inserted object is in no directory and is called like the last component of the path. -/
def Proper (s : Directories α) : NamespaceOp α → Prop
  | .insertObject a p => s.items.inList a = false ∧ ∀ cs c, Names p (cs ++ [c]) → N.name a = c
  | _ => True

omit [DecidableEq α] in
theorem proper_insertObject_iff (s : Directories α) (a : α) (p : Text) :
    Proper N s (.insertObject a p) ↔ s.items.inList a = false ∧
      ∀ c ∈ (components p).getLast?, Names p (components p) → N.name a = c := by
  refine and_congr_right fun _ ↦ ⟨fun h c hc hn ↦ ?_, fun h cs c hn ↦ ?_⟩
  · obtain ⟨cs, hcs⟩ := List.mem_getLast?_eq_getLast hc |>.elim fun hne he ↦
      (⟨(components p).dropLast, by rw [he, List.dropLast_append_getLast hne]⟩ :
        ∃ cs, components p = cs ++ [c])
    exact h cs c (hcs ▸ hn)
  · have hcs := components_of_names hn
    exact h c (by rw [hcs, List.getLast?_concat]; rfl) (hcs ▸ hn)

instance (s : Directories α) (op : NamespaceOp α) : Decidable (Proper N s op) :=
  match op with
  | .insertObject a p => decidable_of_iff _ (proper_insertObject_iff N s a p).symm
  | .lookupObject _ => .isTrue trivial
  | .remove _ _ => .isTrue trivial

variable {N} {s : Directories α} {L : α → List α} {a : α}

omit [DecidableEq α] in
theorem Inv.not_mem (hI : Inv N s L) (h : s.items.inList a = false) (d : α) : a ∉ L d := fun hd ↦ by
  rw [hI.spells.inList_iff a |>.mpr ⟨d, hd⟩] at h
  cases h

/-- **A proper insertion at a path where an object can be inserted.** -/
theorem Inv.insertObject_of_insertable (hI : Inv N s L) {q : Text}
    (hp : Proper N s (.insertObject a q)) (hq : s.Insertable N q) :
    ∃ s' L', s.insertObject N a q = some (.ok (), s') ∧ Inv N s' L' ∧
      ∀ cs, cs ≠ [] → Names q cs → InsertedAt N s s' a cs := by
  obtain ⟨ps, d, c, hsplit, hps, hloc, he⟩ := (hI.insertable_iff q).mp hq
  obtain ⟨cs, c', hnames, -⟩ := hq
  have hc := hp.2 cs c' hnames
  have ha := hI.not_mem hp.1
  have hlast : ∀ cs', cs' ≠ [] → Names q cs' → ∃ zs, cs' = zs ++ [N.name a] ∧
      follow (entryOf N L) N.rootDirectory zs = some d ∧ N.name a = c := by
    intro cs' hne hn
    obtain ⟨zs, y, rfl⟩ : ∃ zs y, cs' = zs ++ [y] :=
      ⟨_, _, (List.dropLast_append_getLast hne).symm⟩
    obtain ⟨ws, hws, hwne, hd, -⟩ := (locate_eq_entry_iff hI.labelled).mp hloc
    -- both lists are the components of `q`
    have hwz : ws ++ [c] = zs ++ [y] := by
      have hfil : (ws ++ [c]).filter (fun x ↦ x ≠ []) = ws ++ [c] :=
        List.filter_eq_self.mpr fun x hx ↦ by simpa using hwne x hx
      rw [← components_of_names hn, components, hsplit, List.filter_cons_of_neg (by simp)]
      rcases hws with rfl | rfl
      · exact hfil.symm
      · rw [List.filter_append, hfil]
        simp
    obtain ⟨rfl, hcy⟩ := List.append_inj' hwz rfl
    cases hcy
    rw [hp.2 _ _ hn]
    exact ⟨_, rfl, hd, rfl⟩
  obtain ⟨zs, -, -, hac⟩ := hlast _ (by simp) hnames
  rw [← hac] at hloc he
  have hcomp : Component (N.name a) := hc ▸ hnames.1 c' (by simp)
  obtain ⟨xs, ys, s', hL, hs', hI'⟩ := hI.insertObject_of_entry ha hcomp hsplit hps hloc he
  refine ⟨s', _, hs', hI', fun cs' hne hn ↦ ?_⟩
  obtain ⟨zs, rfl, hd, -⟩ := hlast cs' hne hn
  exact hI.insertedAt ha hL hI' hn.1 hd he

/-- Every state of a run of proper operations has such lists. -/
theorem exists_inv (h : (machine N).ReachableWhile (Proper N) s) : ∃ L, Inv N s L := by
  refine h.invariant (I := fun s ↦ ∃ L, Inv N s L) ⟨_, inv_init⟩ fun s op s' _ ⟨L, hI⟩ hp hn ↦ ?_
  cases op with
  | insertObject a p =>
    obtain ⟨r, hr, rfl⟩ := Option.map_eq_some_iff.mp hn
    by_cases hq : s.Insertable N p
    · obtain ⟨s', L', hs', hI', -⟩ := hI.insertObject_of_insertable hp hq
      rw [hs'] at hr
      cases hr
      exact ⟨L', hI'⟩
    · obtain ⟨e, he⟩ := hI.insertObject_of_not_insertable a hq
      rw [he] at hr
      cases hr
      exact ⟨L, hI⟩
  | lookupObject p =>
    obtain ⟨r, hr, rfl⟩ := Option.map_eq_some_iff.mp hn
    rw [lookupObject] at hr
    split at hr
    · cases hr
      exact ⟨L, hI⟩
    · rw [hI.lookup_eq] at hr
      cases hr
      exact ⟨L, hI⟩
  | remove d a =>
    by_cases ha : ∃ d', a ∈ L d'
    · obtain ⟨d', hd'⟩ := ha
      obtain ⟨s'', hs'', hI''⟩ := hI.remove_eq hd' d
      obtain rfl : s'' = s' := Option.some.inj (hs''.symm.trans hn)
      exact ⟨_, hI''⟩
    · have hnone := hI.spells.remove_free (fun d' hd' ↦ ha ⟨d', hd'⟩) d
      have hrem : s.remove d a = some s' := hn
      rw [remove, hnone] at hrem
      cases hrem

/-- **The object namespace is a tree map.** -/
theorem namespace_tree_map (hs : (machine N).ReachableWhile (Proper N) s) :
    (∀ d, (s.listing d).Pairwise fun a b ↦ N.name a < N.name b) ∧
    (∀ q, ∃ r, s.lookupObject N q = some (r, s)) ∧
    (∀ a q, Proper N s (.insertObject a q) →
      (s.Insertable N q → ∃ s', s.insertObject N a q = some (.ok (), s') ∧
        ∀ cs, cs ≠ [] → Names q cs → InsertedAt N s s' a cs) ∧
      (¬s.Insertable N q → ∃ e, s.insertObject N a q = some (.error e, s))) ∧
    ∀ d a, ((s.remove d a).isSome = s.items.inList a) ∧
      ∀ s', s.remove d a = some s' → Removed N s s' a := by
  obtain ⟨L, hI⟩ := exists_inv hs
  refine ⟨fun d ↦ ?_, fun q ↦ ?_, fun a q hp ↦ ⟨fun hq ↦ ?_, fun hq ↦ ?_⟩, fun d a ↦ ?_⟩
  · rw [hI.listing_eq]
    exact hI.ascending d
  · rw [lookupObject]
    split
    · exact ⟨_, rfl⟩
    · exact ⟨_, hI.lookup_eq _ _⟩
  · obtain ⟨s', -, hs', -, hins⟩ := hI.insertObject_of_insertable hp hq
    exact ⟨s', hs', hins⟩
  · exact hI.insertObject_of_not_insertable a hq
  · by_cases ha : ∃ d', a ∈ L d'
    · obtain ⟨d', hd'⟩ := ha
      obtain ⟨s'', hs'', hI''⟩ := hI.remove_eq hd' d
      rw [hs'', (hI.spells.inList_iff a).mpr ⟨d', hd'⟩]
      refine ⟨rfl, fun s' hs' ↦ ?_⟩
      cases hs'
      exact hI.removed hd' hI''
    · have hnone := hI.spells.remove_free (fun d' hd' ↦ ha ⟨d', hd'⟩) d
      have hrem : s.remove d a = none := by
        rw [remove, hnone]
        rfl
      rw [hrem, Bool.eq_false_iff.mpr fun h ↦ ha ((hI.spells.inList_iff a).mp h)]
      exact ⟨rfl, fun _ h ↦ by cases h⟩

/-! ## A directory that is inserted again -/

/-- A root, a directory `d` and an object `c`. -/
def threeObjects : NamedObjects (Fin 3) where
  name a := if a = 0 then [] else if a = 1 then [100] else [99]
  isDirectory a := decide (a ≠ 2)
  rootDirectory := 0
  name_rootDirectory := rfl
  isDirectory_rootDirectory := rfl

/-- `/d` gets `/d/c` and is removed. -/
def detached : Directories (Fin 3) :=
  (machine threeObjects).afterWhile (Proper threeObjects)
    [.insertObject 1 [47, 100], .insertObject 2 [47, 100, 47, 99], .remove 0 1]

theorem namespace_tree_map_two :
    ∃ s', ((machine threeObjects).afterWhile (Proper threeObjects)
        [.insertObject 1 [47, 100]]).insertObject threeObjects 2 [47, 100, 47, 99] =
          some (.ok (), s') ∧
      s'.resolve threeObjects [47, 100, 47, 99] = some (.ok 2) := by
  have hfree : ((machine threeObjects).afterWhile (Proper threeObjects)
      [.insertObject 1 [47, 100]]).Insertable threeObjects [47, 100, 47, 99] := by
    refine ⟨[[100]], [99], by decide, fun xs hxs hne ↦ ⟨1, ?_, by decide⟩, by decide +kernel⟩
    obtain rfl : xs = [[100]] := by
      have hxs' : xs <+: [] ++ [[100]] := hxs
      rcases List.prefix_concat_iff.mp hxs' with h | h
      · exact h
      · exact absurd (List.prefix_nil.mp h) hne
    decide +kernel
  have hreach := Machine.reachableWhile_afterWhile (M := machine threeObjects)
    (c := Proper threeObjects) [.insertObject 1 [47, 100]]
  have hnamed := (namespace_tree_map hreach).2.2.1 2 [47, 100, 47, 99] (by decide +kernel)
  obtain ⟨s', hs', hins⟩ := hnamed.1 hfree
  exact ⟨s', hs', (hins [[100], [99]] (by decide) (by decide)).found⟩

/-- **Inserting `/d` again brings `/d/c` back.** -/
theorem reinsertion_revives_children :
    (machine threeObjects).ReachableWhile (Proper threeObjects) detached ∧
    Proper threeObjects detached (.insertObject 1 [47, 100]) ∧
    detached.resolve threeObjects [47, 100, 47, 99] = some (.error .notFound) ∧
    ∃ s', detached.insertObject threeObjects 1 [47, 100] = some (.ok (), s') ∧
      s'.resolve threeObjects [47, 100, 47, 99] = some (.ok 2) := by
  have key : ∀ o : Option (Except ErrorCode Unit × Directories (Fin 3)),
      (o.any fun (r, s) ↦ r = .ok () ∧
        s.resolve threeObjects [47, 100, 47, 99] = some (.ok 2)) = true →
      ∃ s', o = some (.ok (), s') ∧ s'.resolve threeObjects [47, 100, 47, 99] = some (.ok 2) := by
    rintro (_ | ⟨r, s'⟩) h
    · cases h
    · obtain ⟨rfl, hfound⟩ := of_decide_eq_true h
      exact ⟨s', rfl, hfound⟩
  exact ⟨Machine.reachableWhile_afterWhile _, by decide +kernel, by decide +kernel,
    key _ (by decide +kernel)⟩

end Directories

end Chino
