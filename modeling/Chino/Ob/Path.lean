import Mathlib.Algebra.GroupWithZero.Nat
import Mathlib.Data.List.Lex
import Mathlib.Data.List.TakeWhile
import Mathlib.Order.Fin.Basic

/-!
# Paths

A path is a text of bytes, and its components are what stands between its separators.
`insert_or_lookup` takes one component after the other off the front; `split` takes the text apart
at once, and `split_cases` says that both see the same.  `pathOf` goes the other way.

`Names p cs` says that `p` is a path with the components `cs`, with or without a separator at its
end.  A path has at most one list of components (`components_of_names`), and whether it has one can
be computed (`components`).  `Under` is the order of paths that the namespace needs: one path goes
on below another one.

Names are compared as `std::string_view::compare` does it, byte by byte as unsigned values.
-/

set_option autoImplicit false

namespace Chino

/-- A `char`, as the unsigned byte that `compare` takes it for. -/
abbrev Byte := Fin 256

instance instNeZeroByte : NeZero 256 := ⟨by decide⟩

/-- A `std::string_view`, as its characters. -/
abbrev Text := List Byte

/-- `directory_separator` -/
def directorySeparator : Byte := 47

/-! ## Taking the first component off -/

/-- What stands before the first separator. -/
def componentName (remainingPath : Text) : Text :=
  remainingPath.takeWhile fun b ↦ b ≠ directorySeparator

/-- What stands behind the first separator. -/
def afterComponent (remainingPath : Text) : Text :=
  (remainingPath.dropWhile fun b ↦ b ≠ directorySeparator).tail

/-- What stands between the separators. -/
def split (p : Text) : List Text := p.splitOn directorySeparator

@[simp] theorem split_nil : split [] = [[]] := List.splitOn_nil _

theorem split_ne_nil (p : Text) : split p ≠ [] := List.splitOn_ne_nil _ _

@[simp] theorem split_separator (p : Text) : split (directorySeparator :: p) = [] :: split p :=
  List.splitOn_append_cons_self_of_not_mem List.not_mem_nil p

theorem split_of_not_mem {c : Text} (hc : directorySeparator ∉ c) : split c = [c] :=
  List.splitOn_eq_singleton hc

theorem split_eq_nil_iff {p : Text} : split p = [[]] ↔ p = [] := by
  constructor
  · intro h
    have hp : [directorySeparator].intercalate (split p) = p := List.intercalate_splitOn _
    rw [← hp, h]
    rfl
  · rintro rfl
    exact split_nil

theorem not_mem_of_mem_split {p c : Text} (hc : c ∈ split p) : directorySeparator ∉ c := by
  induction p generalizing c with
  | nil => rw [split_nil, List.mem_singleton] at hc; simp [hc]
  | cons b p ih =>
    rw [split, List.splitOn_cons_eq_if_modifyHead] at hc
    split at hc
    · rcases List.mem_cons.mp hc with rfl | hc
      · exact List.not_mem_nil
      · exact ih hc
    · rename_i hb
      obtain ⟨x, xs, hx⟩ := List.exists_cons_of_ne_nil (split_ne_nil p)
      rw [split] at hx
      rw [hx, List.modifyHead_cons] at hc
      rcases List.mem_cons.mp hc with rfl | hc
      · have hx' := ih (c := x) (by rw [split, hx]; exact List.mem_cons_self)
        simp only [List.mem_cons, not_or]
        exact ⟨fun h ↦ hb (by simp [h]), hx'⟩
      · exact ih (by rw [split, hx]; exact List.mem_cons_of_mem _ hc)

/-- **The first component and what is behind it**, of a text that is not empty. -/
theorem split_cases (p : Text) :
    (componentName p = p ∧ afterComponent p = [] ∧ split p = [p]) ∨
      (split p = componentName p :: split (afterComponent p) ∧
        (afterComponent p).length < p.length) := by
  have hp : componentName p ++ p.dropWhile (fun b ↦ b ≠ directorySeparator) = p :=
    List.takeWhile_append_dropWhile
  have hc : directorySeparator ∉ componentName p := fun h ↦ by
    simpa using List.mem_takeWhile_imp h
  cases hd : p.dropWhile (fun b ↦ b ≠ directorySeparator) with
  | nil =>
    rw [hd, List.append_nil] at hp
    refine Or.inl ⟨hp, by rw [afterComponent, hd]; rfl, ?_⟩
    rw [← hp]
    exact split_of_not_mem hc
  | cons b rest =>
    have hb : b = directorySeparator := by
      have := List.head?_dropWhile_not (fun b ↦ b ≠ directorySeparator) p
      rw [hd] at this
      simpa using this
    have ha : afterComponent p = rest := by rw [afterComponent, hd]; rfl
    rw [hd, hb] at hp
    refine Or.inr ⟨?_, ?_⟩
    · rw [ha]
      conv_lhs => rw [← hp]
      exact List.splitOn_append_cons_self_of_not_mem hc rest
    · have := congrArg List.length hp
      rw [List.length_append, List.length_cons] at this
      rw [ha]
      omega

theorem componentName_eq_nil_iff {p : Text} :
    componentName p = [] ↔ p = [] ∨ p.head? = some directorySeparator := by
  cases p with
  | nil => simp [componentName]
  | cons b p => simp [componentName, List.takeWhile_cons]

/-! ## Components and their path -/

/-- What an object may be called: not empty, and without a separator. -/
def Component (c : Text) : Prop := c ≠ [] ∧ directorySeparator ∉ c

instance (c : Text) : Decidable (Component c) := inferInstanceAs (Decidable (_ ∧ _))

/-- The path with the components `cs`. -/
def pathOf (cs : List Text) : Text := cs.flatMap fun c ↦ directorySeparator :: c

/-- `p` is a path with the components `cs`.  One separator may follow the last. -/
def Names (p : Text) (cs : List Text) : Prop :=
  (∀ c ∈ cs, Component c) ∧ (p = pathOf cs ∨ p = pathOf cs ++ [directorySeparator])

instance (p : Text) (cs : List Text) : Decidable (Names p cs) := inferInstanceAs (Decidable (_ ∧ _))

/-- The components of a path, which are the only ones it can have (`components_of_names`). -/
def components (p : Text) : List Text := (split p).filter fun c ↦ c ≠ []

@[simp] theorem pathOf_nil : pathOf [] = [] := rfl

@[simp] theorem pathOf_cons (c : Text) (cs : List Text) :
    pathOf (c :: cs) = directorySeparator :: (c ++ pathOf cs) := rfl

theorem pathOf_append (cs ds : List Text) : pathOf (cs ++ ds) = pathOf cs ++ pathOf ds :=
  List.flatMap_append

/-- Behind the leading separator. -/
theorem pathOf_split (p : Text) : pathOf (split p) = directorySeparator :: p := by
  have key : ∀ c (cs : List Text),
      c ++ pathOf cs = [directorySeparator].intercalate (c :: cs) := by
    intro c cs
    induction cs generalizing c with
    | nil => simp
    | cons d cs ih => simp [ih]
  obtain ⟨c, cs, h⟩ := List.exists_cons_of_ne_nil (split_ne_nil p)
  rw [h, pathOf_cons, key, ← h]
  exact congrArg _ (List.intercalate_splitOn directorySeparator)

/-- The path itself, or one that goes on below it. -/
def Under (cs : List Text) (q : Text) : Prop :=
  q = pathOf cs ∨ ∃ rest, q = pathOf cs ++ directorySeparator :: rest

theorem eq_pathOf_of_split {q : Text} {ps : List Text} (h : split q = [] :: ps) :
    q = pathOf ps := by
  have hq := pathOf_split q
  rw [h, pathOf_cons, List.cons.injEq] at hq
  exact hq.2.symm

theorem under_pathOf_of_prefix {cs ps : List Text} (h : cs <+: ps) : Under cs (pathOf ps) := by
  obtain ⟨ts, rfl⟩ := h
  rw [Under, pathOf_append]
  cases ts with
  | nil => exact Or.inl (List.append_nil _)
  | cons t ts => exact Or.inr ⟨_, rfl⟩

/-- `split` finds the components of a path again, and what follows them. -/
theorem split_pathOf {cs : List Text} (hcs : ∀ c ∈ cs, Component c) :
    split (pathOf cs) = [] :: cs ∧
      ∀ rest, split (pathOf cs ++ directorySeparator :: rest) = [] :: (cs ++ split rest) := by
  induction cs with
  | nil => exact ⟨split_nil, split_separator⟩
  | cons c cs ih =>
    obtain ⟨hc, hcs⟩ := List.forall_mem_cons.mp hcs
    obtain ⟨h₁, h₂⟩ := ih hcs
    -- behind `c` there is nothing or a separator
    have key : ∀ t ts, (t = [] ∨ ∃ y, t = directorySeparator :: y) → split t = [] :: ts →
        split (directorySeparator :: (c ++ t)) = [] :: c :: ts := by
      rintro t ts (rfl | ⟨y, rfl⟩) ht
      · rw [split_nil, List.cons.injEq] at ht
        rw [split_separator, List.append_nil, split_of_not_mem hc.2, ht.2]
      · rw [split_separator, List.cons.injEq] at ht
        rw [split_separator, ← ht.2]
        exact congrArg _ (List.splitOn_append_cons_self_of_not_mem hc.2 y)
    refine ⟨key _ _ ?_ h₁, fun rest ↦ ?_⟩
    · cases cs with
      | nil => exact Or.inl rfl
      | cons d cs => exact Or.inr ⟨_, rfl⟩
    · rw [pathOf_cons, List.cons_append, List.append_assoc]
      refine key _ _ ?_ (h₂ rest)
      cases cs with
      | nil => exact Or.inr ⟨_, rfl⟩
      | cons d cs => exact Or.inr ⟨_, rfl⟩

/-- A path of components, with a separator behind it or not, as `split` sees it. -/
theorem split_of_names {p : Text} {cs : List Text} (h : Names p cs) :
    split p = [] :: cs ∨ split p = [] :: (cs ++ [[]]) := by
  obtain ⟨hcs, rfl | rfl⟩ := h
  · exact Or.inl (split_pathOf hcs).1
  · exact Or.inr ((split_pathOf hcs).2 [])

theorem components_of_names {p : Text} {cs : List Text} (h : Names p cs) : components p = cs := by
  have hcs : cs.filter (fun c ↦ c ≠ []) = cs :=
    List.filter_eq_self.mpr fun c hc ↦ by simpa using (h.1 c hc).1
  rw [components]
  rcases split_of_names h with hs | hs
  · rw [hs, List.filter_cons_of_neg (by simp), hcs]
  · rw [hs, List.filter_cons_of_neg (by simp), List.filter_append, hcs]
    simp

end Chino
