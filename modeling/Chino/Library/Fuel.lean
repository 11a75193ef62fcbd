import Mathlib.Order.Basic

/-!
# Programs with fuel

A loop or a recursion whose end nobody has proved is a function of a number that bounds its depth.
What it *does* is what it settles on: the value it has for all numbers from one on.  `Settles` is
closed under the ways programs are put together, so a proof about a program need not say how much
fuel it takes; the last part is about programs that can fail.

Programs of this kind are monotone in their fuel, but that is nowhere needed.  What a proof needs is
that a value, once reached, is reached with any larger number as well, and `Settles` says just this.
A call one level deeper takes one number more (`of_succ`), two programs one after the other settle
if each does (`bind`), and what a program settles on is unique.
-/

set_option autoImplicit false

namespace Chino

universe u v

variable {α β : Type u} {ε : Type v}

/-- The value that a program has with enough fuel. -/
def Settles (f : ℕ → α) (a : α) : Prop := ∃ n, ∀ m, n ≤ m → f m = a

namespace Settles

variable {f g : ℕ → α} {a b : α}

/-- A program has one value. -/
theorem unique (h : Settles f a) (h' : Settles f b) : a = b := by
  obtain ⟨n, hn⟩ := h
  obtain ⟨m, hm⟩ := h'
  rw [← hn (n + m) (Nat.le_add_right n m), hm (n + m) (Nat.le_add_left m n)]

theorem const (a : α) : Settles (fun _ ↦ a) a := ⟨0, fun _ _ ↦ rfl⟩

/-- One call deeper. -/
theorem of_succ (hf : ∀ n, f (n + 1) = g n) (h : Settles g a) : Settles f a := by
  obtain ⟨n, hn⟩ := h
  refine ⟨n + 1, fun m hm ↦ ?_⟩
  obtain ⟨k, rfl⟩ := Nat.exists_eq_add_of_le' hm
  rw [← Nat.add_assoc, hf, hn _ (Nat.le_add_left n k)]

theorem congr (h : Settles g a) (hfg : ∀ n, f n = g n) : Settles f a := by
  rwa [funext hfg]

/-- What is done with a value. -/
theorem map (φ : α → β) (h : Settles f a) : Settles (fun n ↦ φ (f n)) (φ a) := by
  obtain ⟨n, hn⟩ := h
  exact ⟨n, fun m hm ↦ congrArg φ (hn m hm)⟩

/-- A program that goes on with the value of another one, if that does not fail. -/
theorem bind {γ : Type u} {f : ℕ → Except ε α} {x : Except ε γ} {φ : γ → α}
    {g : ℕ → α → Except ε β} {y : γ → Except ε β} (hf : Settles f (x >>= fun c ↦ .ok (φ c)))
    (hg : ∀ c, Settles (fun n ↦ g n (φ c)) (y c)) : Settles (fun n ↦ f n >>= g n) (x >>= y) := by
  obtain ⟨n, hn⟩ := hf
  rcases x with e | c
  · exact ⟨n, fun m hm ↦ congrArg (· >>= g m) (hn m hm)⟩
  · obtain ⟨k, hk⟩ := hg c
    refine ⟨n + k, fun m hm ↦ ?_⟩
    calc f m >>= g m = .ok (φ c) >>= g m := congrArg (· >>= g m) (hn m (by omega))
      _ = y c := hk m (by omega)

/-- A program that begins with something that takes no fuel. -/
theorem bind_const {γ : Type u} {x : Except ε γ} {g : ℕ → γ → Except ε β} {y : γ → Except ε β}
    (hg : ∀ c, Settles (fun n ↦ g n c) (y c)) : Settles (fun n ↦ x >>= g n) (x >>= y) := by
  rcases x with e | c
  · exact .const _
  · exact hg c

end Settles

end Chino
