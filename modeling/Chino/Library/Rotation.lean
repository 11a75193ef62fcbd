import Mathlib.Data.List.Nodup

/-!
# Going round a list

A pointer goes round a list: to the next element, and from the last one to the first.  `Ahead l a b
x` says that on its way from `x` it comes by `b` before it comes by `a`; where it stands on `a`,
that is the whole round.  `Ahead.next` is one step of the pointer, `Ahead.append` an element that
joins the list at its end, and `ahead_head` a pointer that starts at the first element.

`between l x b` counts the elements that the pointer comes by on its way from `x` to `b`.

## Why the way and not the position

Positions in a list change when elements leave it, and a pointer that goes round has no first
position.  What stays is the order of the elements on the way ahead.  `wayFrom l x` is that way,
once round, and `Ahead` and `between` are about it.

* A step of the pointer takes the first element off the way and puts it at the end.
* An element that joins the list at its end comes somewhere on the way, and is counted once
  (`between_append`).
* An element that leaves makes no count larger.
-/

set_option autoImplicit false

namespace Chino

variable {α : Type} {l xs ys : List α} {a b x y : α}

/-- On the way round from `x`, `b` comes before `a`. -/
inductive Ahead (l : List α) (a b : α) : α → Prop
  | here : Ahead l a b a
  | behind {u v w : List α} {x : α} (hl : l = u ++ x :: (v ++ b :: w)) (ha : a ∉ v) : Ahead l a b x
  | around {u v w : List α} {x : α} (hl : l = u ++ b :: (v ++ x :: w)) (ha : a ∈ v) : Ahead l a b x

theorem Ahead.append (h : Ahead l a b x) (zs : List α) : Ahead (l ++ zs) a b x := by
  cases h with
  | here => exact .here
  | @behind xs ys zs' _ hl ha =>
    refine .behind (u := xs) (v := ys) (w := zs' ++ zs) ?_ ha
    rw [hl]
    simp only [List.append_assoc, List.cons_append]
  | @around xs ys zs' _ hl ha =>
    refine .around (u := xs) (v := ys) (w := zs' ++ zs) ?_ ha
    rw [hl]
    simp only [List.append_assoc, List.cons_append]

/-- A pointer that starts at the head comes by `b` first, unless `a` is in front of it. -/
theorem ahead_head (hl : l = y :: ys) (hb : b ∈ l) (hyb : y ≠ b) (hab : ¬[a, b].Sublist l) :
    y ≠ a ∧ Ahead l a b y := by
  have hby : b ∈ ys := (List.mem_cons.mp (hl ▸ hb)).resolve_left (Ne.symm hyb)
  constructor
  · rintro rfl
    exact hab (hl ▸ (List.singleton_sublist.mpr hby).cons_cons y)
  · obtain ⟨us, vs, hus⟩ := List.append_of_mem hby
    refine .behind (u := []) (w := vs) (by rw [hl, hus]; rfl) fun ha ↦ hab ?_
    have hsub : [a, b].Sublist (us ++ b :: vs) := (List.singleton_sublist.mpr ha).append
      (List.singleton_sublist.mpr List.mem_cons_self)
    exact hl ▸ hus ▸ hsub.cons y

/-- **The next element of the round is not `a`, unless it is `b`**, and `b` stays ahead. -/
theorem Ahead.next (h : Ahead l a b x) (hl : l.Nodup) (hx : x ∈ l) (hb : b ∈ l) (hxb : x ≠ b)
    (hyb : y ≠ b) (hnext : ∀ xs ys, l = xs ++ x :: ys → (ys ++ (xs ++ [x])).head? = some y) :
    y ≠ a ∧ Ahead l a b y := by
  cases h with
  | here =>
    obtain ⟨xs, ys, hL⟩ := List.append_of_mem hx
    have hy := hnext xs ys hL
    subst hL
    cases ys with
    | cons z ys =>
      obtain rfl : z = y := by simpa using hy
      simp only [List.nodup_append, List.nodup_cons, List.mem_cons] at hl
      refine ⟨by grind, ?_⟩
      rcases List.mem_append.mp hb with hb | hb
      · obtain ⟨us, vs, rfl⟩ := List.append_of_mem hb
        exact .around (u := us) (v := vs ++ [a]) (w := ys) (by simp) (by simp)
      · obtain ⟨us, vs, rfl⟩ := List.append_of_mem (a := b) (l := ys) (by grind)
        exact .behind (u := xs ++ [a]) (v := us) (w := vs) (by simp) (by grind)
    | nil =>
      have hbxs : b ∈ xs := by simpa [Ne.symm hxb] using hb
      cases xs with
      | nil => cases hbxs
      | cons z xs =>
        obtain rfl : z = y := by simpa using hy
        simp only [List.nodup_append, List.nodup_cons, List.mem_cons] at hl
        obtain ⟨us, vs, rfl⟩ := List.append_of_mem (a := b) (l := xs) (by grind)
        exact ⟨by grind, .behind (u := []) (v := us) (w := vs ++ [a]) (by simp) (by grind)⟩
  | @behind xs ys zs _ hL ha =>
    have hy := hnext _ _ hL
    cases ys with
    | nil => exact absurd (Option.some.inj hy).symm hyb
    | cons z ys =>
      obtain rfl : z = y := by simpa using hy
      simp only [List.mem_cons, not_or] at ha
      exact ⟨Ne.symm ha.1, .behind (u := xs ++ [x]) (v := ys) (w := zs) (by simp [hL]) ha.2⟩
  | @around xs ys zs _ hL ha =>
    have hy := hnext (xs ++ b :: ys) zs (by simp [hL])
    subst hL
    cases zs with
    | cons z zs =>
      obtain rfl : z = y := by simpa using hy
      simp only [List.nodup_append, List.nodup_cons, List.mem_cons] at hl
      exact ⟨by grind, .around (u := xs) (v := ys ++ [x]) (w := zs) (by simp) (by simp [ha])⟩
    | nil =>
      cases xs with
      | nil => exact absurd (by simpa using hy) (Ne.symm hyb)
      | cons z xs =>
        obtain rfl : z = y := by simpa using hy
        simp only [List.nodup_append, List.nodup_cons, List.mem_cons, List.cons_append] at hl
        exact ⟨by grind, .behind (u := []) (v := xs) (w := ys ++ [x]) (by simp) (by grind)⟩

/-! ## How far it is -/

section

variable [DecidableEq α]

/-- What comes after `x`, once round the list. -/
def wayFrom (l : List α) (x : α) : List α :=
  l.drop (l.idxOf x + 1) ++ l.take (l.idxOf x)

/-- The number of elements on the way from `x` to `b`. -/
def between (l : List α) (x b : α) : ℕ := (wayFrom l x).idxOf b

theorem wayFrom_eq (hl : (xs ++ x :: ys).Nodup) : wayFrom (xs ++ x :: ys) x = ys ++ xs := by
  have hx : x ∉ xs := fun hx ↦ (List.nodup_append.mp hl).2.2 x hx x List.mem_cons_self rfl
  have hidx : (xs ++ x :: ys).idxOf x = xs.length := by
    rw [List.idxOf_append_of_notMem hx, List.idxOf_cons_self, Nat.add_zero]
  rw [wayFrom, hidx, List.take_left, ← List.singleton_append, ← List.append_assoc]
  congr 1
  exact List.drop_left' (by simp)

/-- The pointer makes a step. -/
theorem between_next (hl : l.Nodup) (hx : x ∈ l) (hb : b ∈ l) (hxb : x ≠ b) (hyb : y ≠ b)
    (hnext : ∀ xs ys, l = xs ++ x :: ys → (ys ++ (xs ++ [x])).head? = some y) :
    between l y b + 1 = between l x b := by
  obtain ⟨us, vs, rfl⟩ := List.append_of_mem hx
  have hy := hnext us vs rfl
  -- the way from `x` starts with `y`, and the rest of it is on the way from `y`
  have key : ∀ rest, vs ++ us = y :: rest → wayFrom (us ++ x :: vs) y = rest ++ [x] →
      between (us ++ x :: vs) y b + 1 = between (us ++ x :: vs) x b := by
    intro rest hrest hway
    have hmem : b ∈ rest := by
      have : b ∈ vs ++ us := by
        rcases List.mem_append.mp hb with h | h
        · exact List.mem_append_right _ h
        · exact List.mem_append_left _ ((List.mem_cons.mp h).resolve_left (Ne.symm hxb))
      exact (List.mem_cons.mp (hrest ▸ this)).resolve_left (Ne.symm hyb)
    rw [between, between, hway, wayFrom_eq hl, hrest, List.idxOf_append_of_mem hmem,
      List.idxOf_cons_ne _ hyb]
  cases vs with
  | cons z vs =>
    obtain rfl : z = y := by simpa using hy
    refine key (vs ++ us) rfl ?_
    have : wayFrom (us ++ [x] ++ z :: vs) z = vs ++ (us ++ [x]) := wayFrom_eq (by simpa using hl)
    simpa using this
  | nil =>
    cases us with
    | nil => simp at hb; exact absurd hb (Ne.symm hxb)
    | cons z us =>
      obtain rfl : z = y := by simpa using hy
      refine key us rfl ?_
      have : wayFrom ([] ++ z :: (us ++ [x])) z = us ++ [x] ++ [] := wayFrom_eq (by simpa using hl)
      simpa using this

/-- Whoever joins the list at its end is passed once at most. -/
theorem between_append (hl : (l ++ ys).Nodup) (hx : x ∈ l) (hb : b ∈ l) :
    between (l ++ ys) x b ≤ between l x b + ys.length := by
  obtain ⟨us, vs, rfl⟩ := List.append_of_mem hx
  have hl₁ := (List.nodup_append.mp hl).1
  have hway : wayFrom (us ++ x :: vs ++ ys) x = vs ++ ys ++ us := by
    rw [List.append_assoc, List.cons_append] at hl ⊢
    exact wayFrom_eq hl
  rw [between, between, hway, wayFrom_eq hl₁]
  by_cases hv : b ∈ vs
  · rw [List.append_assoc, List.idxOf_append_of_mem hv, List.idxOf_append_of_mem hv]
    omega
  · have hbys : b ∉ ys := fun h ↦ (List.nodup_append.mp hl).2.2 b hb b h rfl
    rw [List.append_assoc, List.idxOf_append_of_notMem hv, List.idxOf_append_of_notMem hbys,
      List.idxOf_append_of_notMem hv]
    omega

/-- The pointer starts at the head. -/
theorem between_head (hl : (y :: ys).Nodup) (hyb : y ≠ b) :
    between (y :: ys) y b + 1 = (y :: ys).idxOf b := by
  have : wayFrom ([] ++ y :: ys) y = ys ++ [] := wayFrom_eq hl
  simp only [List.nil_append, List.append_nil] at this
  rw [between, this, List.idxOf_cons_ne _ hyb]

theorem idxOf_erase_le (hx : x ≠ b) : (l.erase x).idxOf b ≤ l.idxOf b := by
  induction l with
  | nil => simp
  | cons z l ih =>
    by_cases hzx : z = x
    · subst hzx
      rw [List.erase_cons_head, List.idxOf_cons_ne _ hx]
      omega
    · rw [List.erase_cons_tail (by simpa using hzx)]
      by_cases hzb : z = b
      · subst hzb
        simp
      · rw [List.idxOf_cons_ne _ hzb, List.idxOf_cons_ne _ hzb]
        omega

end

end Chino
