import Mathlib.Data.List.Basic
import Mathlib.Data.List.Induction

/-!
# Trees by labelled edges

`e a c` is the node that the edge with the label `c` leads to from `a`, and `follow` goes along a
path of labels.  In a `Forest` no node is entered twice, so two paths to one node agree from its end
on backwards (`Forest.comparable`), and the paths from a `Root`, which nothing enters, are unique
(`Root.follow_injective`): a change at one edge is seen by the paths through that edge and by no
others.

Nothing is said about finiteness or about which nodes there are: a tree is given by its edges alone,
as a function that may be undefined.  The root is what makes paths unique; without it two paths to a
node agree as far back as the shorter one goes.
-/

set_option autoImplicit false

namespace Chino

variable {α β : Type}

/-- The node that a path of labels leads to. -/
def follow (e : α → β → Option α) : α → List β → Option α
  | a, [] => some a
  | a, c :: cs => (e a c).bind fun b ↦ follow e b cs

/-- No node is entered by two edges. -/
def Forest (e : α → β → Option α) : Prop :=
  ∀ a b c c' x, e a c = some x → e b c' = some x → a = b ∧ c = c'

/-- Nothing enters `r`. -/
def Root (e : α → β → Option α) (r : α) : Prop := ∀ a c, e a c ≠ some r

variable {e e' : α → β → Option α} {a b d r x : α} {c : β} {xs ys : List β}

@[simp] theorem follow_nil (e : α → β → Option α) (a : α) : follow e a [] = some a := rfl

theorem follow_append (a : α) (xs ys : List β) :
    follow e a (xs ++ ys) = (follow e a xs).bind fun b ↦ follow e b ys := by
  induction xs generalizing a with
  | nil => rfl
  | cons c xs ih =>
    rw [List.cons_append, follow, follow]
    cases e a c with
    | none => rfl
    | some b => exact ih b

theorem follow_concat_eq_some :
    follow e a (xs ++ [c]) = some x ↔ ∃ d, follow e a xs = some d ∧ e d c = some x := by
  rw [follow_append, Option.bind_eq_some_iff]
  refine exists_congr fun d ↦ and_congr_right fun _ ↦ ?_
  show ((e d c).bind fun b ↦ some b) = some x ↔ e d c = some x
  rw [Option.bind_fun_some]

/-- A path stays a path when edges are added. -/
theorem follow_mono (he : ∀ a c x, e a c = some x → e' a c = some x)
    (h : follow e a xs = some x) : follow e' a xs = some x := by
  induction xs generalizing a with
  | nil => exact h
  | cons c xs ih =>
    obtain ⟨b, hb, hx⟩ := Option.bind_eq_some_iff.mp h
    exact Option.bind_eq_some_iff.mpr ⟨b, he a c b hb, ih hx⟩

/-- **Two paths to one node agree backwards**, up to where the shorter one starts. -/
theorem Forest.comparable (hf : Forest e) (hx : follow e a xs = some x)
    (hy : follow e b ys = some x) :
    (∃ zs, xs = zs ++ ys ∧ follow e a zs = some b) ∨
      ∃ zs, ys = zs ++ xs ∧ follow e b zs = some a := by
  induction xs using List.reverseRecOn generalizing ys x with
  | nil =>
    cases hx
    exact Or.inr ⟨ys, (List.append_nil ys).symm, hy⟩
  | append_singleton xs c ih =>
    cases ys using List.reverseRecOn with
    | nil =>
      cases hy
      exact Or.inl ⟨xs ++ [c], (List.append_nil _).symm, hx⟩
    | append_singleton ys c' =>
      obtain ⟨d, hd, hdx⟩ := follow_concat_eq_some.mp hx
      obtain ⟨d', hd', hdx'⟩ := follow_concat_eq_some.mp hy
      obtain ⟨rfl, rfl⟩ := hf _ _ _ _ _ hdx hdx'
      rcases ih hd hd' with ⟨zs, rfl, hz⟩ | ⟨zs, rfl, hz⟩
      · exact Or.inl ⟨zs, List.append_assoc .., hz⟩
      · exact Or.inr ⟨zs, List.append_assoc .., hz⟩

/-- Only the empty path leads to a root. -/
theorem Root.eq_nil (hr : Root e r) (h : follow e a xs = some r) : xs = [] := by
  cases xs using List.reverseRecOn with
  | nil => rfl
  | append_singleton xs c =>
    obtain ⟨d, -, hd⟩ := follow_concat_eq_some.mp h
    exact absurd hd (hr d c)

/-- A path to `x` extends backwards to the path of `x` from the root. -/
theorem Root.suffix (hr : Root e r) (hf : Forest e) (hx : follow e r xs = some x)
    (hy : follow e b ys = some x) : ∃ zs, xs = zs ++ ys ∧ follow e r zs = some b := by
  rcases hf.comparable hx hy with h | ⟨zs, rfl, hz⟩
  · exact h
  · obtain rfl := hr.eq_nil hz
    cases hz
    exact ⟨[], rfl, rfl⟩

/-- **The path from the root to a node is unique.** -/
theorem Root.follow_injective (hr : Root e r) (hf : Forest e) (hx : follow e r xs = some x)
    (hy : follow e r ys = some x) : xs = ys := by
  obtain ⟨zs, rfl, hz⟩ := hr.suffix hf hx hy
  obtain rfl := hr.eq_nil hz
  rfl

end Chino
