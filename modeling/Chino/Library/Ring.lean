import Mathlib.Data.List.Basic
import Mathlib.Data.List.Nodup
import Mathlib.Logic.Function.Basic

/-!
# Circular doubly linked chains in a store of nodes

A store gives every node two optional pointers, `prev` and `next`.  A *segment* from `a` to `b`
through `xs` is a path that can be walked in both directions: every step `u → v` of it has
`next u = v` and `prev v = u`.  A *ring* at `d` is a segment from `d` back to `d`; the node `d` is
the sentinel and `xs` are the elements.

Nothing here knows what a node is.  What the file provides is the frame rule `Segment.congr` (a
segment only reads the `next` of its sources and the `prev` of its targets), the two surgery
rules `Segment.insert` and `Segment.remove`, and the readings `Segment.next_getLast` and
`Segment.prev_head` that tell an implementation which two nodes sit on either side of a gap.

The surgery rules do not mention any order of assignments.  They ask for the four pointers that
the operation is supposed to leave behind and for everything else to be unchanged, so one rule
serves both an insertion phrased at the left neighbour and one phrased at the right neighbour.
-/

set_option autoImplicit false

namespace Chino.Ring

variable {N : Type}

/-! ## Segments -/

/-- `v` is the successor of `u`, seen from both ends. -/
def Joined (next prev : N → Option N) (u v : N) : Prop := next u = some v ∧ prev v = some u

/-- A path from `a` to `b` through `xs` that reads the same in both directions. -/
def Segment (next prev : N → Option N) : N → List N → N → Prop
  | a, [], b => Joined next prev a b
  | a, x :: xs, b => Joined next prev a x ∧ Segment next prev x xs b

variable {next prev next' prev' : N → Option N}

/-- **The frame rule.**  A segment reads `next` at its sources and `prev` at its targets only. -/
theorem Segment.congr {a b : N} {xs : List N} (h : Segment next prev a xs b)
    (hn : ∀ n ∈ a :: xs, next' n = next n) (hp : ∀ n ∈ xs ++ [b], prev' n = prev n) :
    Segment next' prev' a xs b := by
  induction xs generalizing a with
  | nil => exact ⟨(hn a (by simp)).trans h.1, (hp b (by simp)).trans h.2⟩
  | cons x xs ih =>
    refine ⟨⟨(hn a (by simp)).trans h.1.1, (hp x (by simp)).trans h.1.2⟩, ih h.2 ?_ ?_⟩
    · exact fun n hn' ↦ hn n (List.mem_cons_of_mem _ hn')
    · exact fun n hn' ↦ hp n (by simpa using Or.inr (by simpa using hn'))

/-- A segment through `x` is a segment up to `x` and a segment from `x`. -/
theorem segment_append_cons {a b x : N} {xs ys : List N} :
    Segment next prev a (xs ++ x :: ys) b ↔
      Segment next prev a xs x ∧ Segment next prev x ys b := by
  induction xs generalizing a with
  | nil => rfl
  | cons c xs ih => rw [List.cons_append, Segment, Segment, ih, and_assoc]

/-- The successor of the last source before a gap is the first target after it. -/
theorem Segment.next_getLast {a b u v : N} {xs ys : List N}
    (h : Segment next prev a (xs ++ ys) b) (hu : (a :: xs).getLast? = some u)
    (hv : (ys ++ [b]).head? = some v) : next u = some v := by
  induction xs generalizing a with
  | nil =>
    obtain rfl : a = u := by simpa using hu
    cases ys with
    | nil =>
      obtain rfl : b = v := by simpa using hv
      exact h.1
    | cons y ys =>
      obtain rfl : y = v := by simpa using hv
      exact h.1.1
  | cons x xs ih => exact ih h.2 (by simpa using hu)

/-- The predecessor of the first target after a gap is the last source before it. -/
theorem Segment.prev_head {a b u v : N} {xs ys : List N}
    (h : Segment next prev a (xs ++ ys) b) (hu : (a :: xs).getLast? = some u)
    (hv : (ys ++ [b]).head? = some v) : prev v = some u := by
  induction xs generalizing a with
  | nil =>
    obtain rfl : a = u := by simpa using hu
    cases ys with
    | nil =>
      obtain rfl : b = v := by simpa using hv
      exact h.2
    | cons y ys =>
      obtain rfl : y = v := by simpa using hv
      exact h.1.2
  | cons x xs ih => exact ih h.2 (by simpa using hu)

theorem Segment.next_source {a b v : N} {ys : List N} (h : Segment next prev a ys b)
    (hv : (ys ++ [b]).head? = some v) : next a = some v :=
  have h' : Segment next prev a ([] ++ ys) b := h
  h'.next_getLast rfl hv

theorem Segment.prev_target {a b u : N} {xs : List N} (h : Segment next prev a xs b)
    (hu : (a :: xs).getLast? = some u) : prev b = some u :=
  have h' : Segment next prev a (xs ++ []) b := by rwa [List.append_nil]
  h'.prev_head hu rfl

theorem mem_of_getLast? {a u : N} {xs : List N} (hu : (a :: xs).getLast? = some u) :
    u ∈ a :: xs :=
  List.mem_of_getLast? hu

theorem mem_of_head? {b v : N} {ys : List N} (hv : (ys ++ [b]).head? = some v) :
    v ∈ ys ++ [b] :=
  List.mem_of_head? hv

/-! ## Surgery -/

/-- **Insertion.**  Into the gap between `u` and `v` goes a node `x` that was not on the segment.
Only the two pointers facing the gap and the two of `x` change. -/
theorem Segment.insert {a b u v x : N} {xs ys : List N}
    (h : Segment next prev a (xs ++ ys) b)
    (hnd : (a :: (xs ++ ys)).Nodup) (hb : b ∉ xs ++ ys)
    (hu : (a :: xs).getLast? = some u) (hv : (ys ++ [b]).head? = some v)
    (hxa : x ∉ a :: (xs ++ ys)) (hxb : x ≠ b)
    (hnu : next' u = some x) (hnx : next' x = some v)
    (hpx : prev' x = some u) (hpv : prev' v = some x)
    (hn : ∀ n, n ≠ u → n ≠ x → next' n = next n)
    (hp : ∀ n, n ≠ v → n ≠ x → prev' n = prev n) :
    Segment next' prev' a (xs ++ x :: ys) b := by
  induction xs generalizing a with
  | nil =>
    obtain rfl : a = u := by simpa using hu
    refine ⟨⟨hnu, hpx⟩, ?_⟩
    cases ys with
    | nil =>
      obtain rfl : b = v := by simpa using hv
      exact ⟨hnx, hpv⟩
    | cons y ys =>
      obtain rfl : y = v := by simpa using hv
      refine ⟨⟨hnx, hpv⟩, h.2.congr ?_ ?_⟩
      · intro n hmem
        refine hn n ?_ ?_
        · rintro rfl; exact (List.nodup_cons.mp hnd).1 hmem
        · rintro rfl; exact hxa (List.mem_cons_of_mem _ hmem)
      · intro n hmem
        have hnd' : (y :: ys).Nodup := (List.nodup_cons.mp hnd).2
        rcases List.mem_append.mp hmem with hys | hnb
        · refine hp n ?_ ?_
          · rintro rfl; exact (List.nodup_cons.mp hnd').1 hys
          · rintro rfl; exact hxa (by simp [hys])
        · obtain rfl : n = b := by simpa using hnb
          exact hp n (fun he ↦ hb (by simp [he])) (Ne.symm hxb)
  | cons c xs ih =>
    obtain ⟨hac, hseg⟩ := h
    have hnd' : (c :: (xs ++ ys)).Nodup := (List.nodup_cons.mp hnd).2
    have ha : a ∉ c :: (xs ++ ys) := (List.nodup_cons.mp hnd).1
    have hu' : (c :: xs).getLast? = some u := by simpa using hu
    have hbc : b ∉ xs ++ ys := fun hm ↦ hb (List.mem_cons_of_mem _ hm)
    refine ⟨⟨?_, ?_⟩, ih hseg hnd' hbc hu' fun hm ↦ hxa (List.mem_cons_of_mem _ hm)⟩
    · have hau : a ≠ u := by
        rintro rfl
        have := mem_of_getLast? hu'
        exact ha (by simp only [List.mem_cons, List.mem_append] at this ⊢; tauto)
      exact (hn a hau (by rintro rfl; exact hxa (by simp))).trans hac.1
    · have hcv : c ≠ v := by
        rintro rfl
        rcases List.mem_append.mp (mem_of_head? hv) with hys | hcb
        · exact (List.nodup_cons.mp hnd').1 (by simp [hys])
        · exact hb (by simp [List.mem_singleton.mp hcb])
      exact (hp c hcv (by rintro rfl; exact hxa (by simp))).trans hac.2

/-- **Removal.**  Taking `x` out joins its two neighbours. -/
theorem Segment.remove {a b u v x : N} {xs ys : List N}
    (h : Segment next prev a (xs ++ x :: ys) b)
    (hnd : (a :: (xs ++ x :: ys)).Nodup) (hb : b ∉ xs ++ x :: ys)
    (hu : (a :: xs).getLast? = some u) (hv : (ys ++ [b]).head? = some v)
    (hnu : next' u = some v) (hpv : prev' v = some u)
    (hn : ∀ n, n ≠ u → n ≠ x → next' n = next n)
    (hp : ∀ n, n ≠ v → n ≠ x → prev' n = prev n) :
    Segment next' prev' a (xs ++ ys) b := by
  induction xs generalizing a with
  | nil =>
    obtain rfl : a = u := by simpa using hu
    obtain ⟨-, hseg⟩ := h
    have hnd' : (x :: ys).Nodup := (List.nodup_cons.mp hnd).2
    cases ys with
    | nil =>
      obtain rfl : b = v := by simpa using hv
      exact ⟨hnu, hpv⟩
    | cons y ys =>
      obtain rfl : y = v := by simpa using hv
      refine ⟨⟨hnu, hpv⟩, hseg.2.congr ?_ ?_⟩
      · intro n hmem
        refine hn n ?_ ?_
        · rintro rfl; exact (List.nodup_cons.mp hnd).1 (List.mem_cons_of_mem _ hmem)
        · rintro rfl; exact (List.nodup_cons.mp hnd').1 hmem
      · intro n hmem
        rcases List.mem_append.mp hmem with hys | hnb
        · refine hp n ?_ ?_
          · rintro rfl; exact (List.nodup_cons.mp (List.nodup_cons.mp hnd').2).1 hys
          · rintro rfl; exact (List.nodup_cons.mp hnd').1 (List.mem_cons_of_mem _ hys)
        · obtain rfl : n = b := by simpa using hnb
          exact hp n (fun he ↦ hb (by simp [he])) (fun he ↦ hb (by simp [he]))
  | cons c xs ih =>
    obtain ⟨hac, hseg⟩ := h
    have hnd' : (c :: (xs ++ x :: ys)).Nodup := (List.nodup_cons.mp hnd).2
    have ha : a ∉ c :: (xs ++ x :: ys) := (List.nodup_cons.mp hnd).1
    have hu' : (c :: xs).getLast? = some u := by simpa using hu
    have hbc : b ∉ xs ++ x :: ys := fun hm ↦ hb (List.mem_cons_of_mem _ hm)
    refine ⟨⟨?_, ?_⟩, ih hseg hnd' hbc hu'⟩
    · have hau : a ≠ u := by
        rintro rfl
        have := mem_of_getLast? hu'
        exact ha (by simp only [List.mem_cons, List.mem_append] at this ⊢; tauto)
      exact (hn a hau (by rintro rfl; exact ha (by simp))).trans hac.1
    · have hcv : c ≠ v := by
        rintro rfl
        rcases List.mem_append.mp (mem_of_head? hv) with hys | hcb
        · exact (List.nodup_cons.mp hnd').1 (by simp [hys])
        · exact hb (by simp [List.mem_singleton.mp hcb])
      exact (hp c hcv (by rintro rfl; exact (List.nodup_cons.mp hnd').1 (by simp))).trans hac.2

end Chino.Ring
