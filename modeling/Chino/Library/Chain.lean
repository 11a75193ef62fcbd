import Mathlib.Data.List.Nodup
import Mathlib.Logic.Function.Basic

/-!
# Singly linked chains

Nodes that hold the address of the next node in a word, with a word that is no node's address at the
end.  `Chain` reads such a list off the words; the end makes it acyclic (`Chain.nodup`), so a free
list never needs to say that it has no node twice.

Two changes are all that a free list needs.  `Chain.push` puts a node in front, which only has to be
new; and the rest of a chain behind its first node is a chain.  Writes to other words do not concern
a chain (`Chain.congr`), and a chain is read off the words in one way only (`Chain.unique`).
-/

set_option autoImplicit false

namespace Chino

/-- The chain that starts with the word `w` has the nodes `xs`. -/
def Chain {W N : Type} (addr : N → W) (null : W) (next : N → W) : W → List N → Prop
  | w, [] => w = null
  | w, x :: xs => w = addr x ∧ Chain addr null next (next x) xs

variable {W N : Type} {addr : N → W} {null w : W} {next next' : N → W} {x : N} {xs ys : List N}

/-- **The frame rule.**  A chain only reads the words of its nodes. -/
theorem Chain.congr (h : Chain addr null next w xs) (hn : ∀ x ∈ xs, next' x = next x) :
    Chain addr null next' w xs := by
  induction xs generalizing w with
  | nil => exact h
  | cons x xs ih =>
    refine ⟨h.1, ?_⟩
    rw [hn x List.mem_cons_self]
    exact ih h.2 fun y hy ↦ hn y (List.mem_cons_of_mem _ hy)

/-- A node is pushed that is not in the chain. -/
theorem Chain.push [DecidableEq N] (h : Chain addr null next w xs) (hx : x ∉ xs) :
    Chain addr null (Function.update next x w) (addr x) (x :: xs) := by
  refine ⟨rfl, ?_⟩
  rw [Function.update_self]
  refine h.congr fun y hy ↦ Function.update_of_ne ?_ ..
  rintro rfl
  exact hx hy

/-- The words say what the chain is. -/
theorem Chain.unique (hinj : Function.Injective addr) (hnull : ∀ x, addr x ≠ null)
    (h : Chain addr null next w xs) (h' : Chain addr null next w ys) : xs = ys := by
  induction xs generalizing w ys with
  | nil =>
    cases ys with
    | nil => rfl
    | cons y ys => exact absurd (h'.1.symm.trans h) (hnull y)
  | cons x xs ih =>
    cases ys with
    | nil => exact absurd (h.1.symm.trans h') (hnull x)
    | cons y ys =>
      obtain rfl := hinj (h.1.symm.trans h'.1)
      rw [ih h.2 h'.2]

/-- A chain goes on behind each of its nodes. -/
theorem Chain.of_append (h : Chain addr null next w (xs ++ x :: ys)) :
    Chain addr null next (next x) ys := by
  induction xs generalizing w with
  | nil => exact h.2
  | cons y xs ih => exact ih h.2

/-- Each node of a chain leads to the next one. -/
theorem Chain.isChain (h : Chain addr null next w xs) : xs.IsChain fun x y ↦ next x = addr y := by
  induction xs generalizing w with
  | nil => exact .nil
  | cons x xs ih =>
    cases xs with
    | nil => exact .singleton x
    | cons y ys => exact .cons_cons h.2.1 (ih h.2)

/-- **A chain has no node twice.** -/
theorem Chain.nodup (hinj : Function.Injective addr) (hnull : ∀ x, addr x ≠ null)
    (h : Chain addr null next w xs) : xs.Nodup := by
  induction xs generalizing w with
  | nil => exact List.nodup_nil
  | cons x xs ih =>
    refine List.nodup_cons.mpr ⟨fun hx ↦ ?_, ih h.2⟩
    obtain ⟨ys, zs, rfl⟩ := List.append_of_mem hx
    -- behind both places of `x` the chain is the same
    have he := h.2.unique hinj hnull h.2.of_append
    have := congrArg List.length he
    simp only [List.length_append, List.length_cons] at this
    omega

end Chino
