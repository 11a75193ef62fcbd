import Chino.Components.LineStore
import Chino.Library.Run
import Mathlib.Data.List.Flatten

/-!
# The program store is a finite map

Runs of the program store.  A store asks for what the code does not check: that the text is a string
whose length fits, and that there is room for it (`Fits`).  `Maps` is what the operations mean for a
finite map from numbers to texts, and `Answers` says that what the store is asked about it, the
map answers.  `lines_refine`: in runs whose stores fit it always does, no operation runs on beyond
the memory, and what lies behind the memory is never written.

## The relation

`Represents` says what a run has made of the memory it started with: up to the end of the program
the bytes are those of lines in ascending order, behind the memory nothing has changed.  `Lists`
gives the lines, and `Chino.Library.SortedMap` makes a map of them.

`Represents.step` takes one operation.  It comes to an end, it leaves the bytes of other lines, and
what it returns is what `Maps` says: a deletion tells whether the line was there, a store and a
clear succeed.

`Answers` has the queries: the text of a number, the first line, the line behind a number, the list
of a range in ascending order, and the bytes in use, from which the number of free bytes is
computed.  Each of them is a walk, and ends.

The memory has three bytes at least, as the empty program needs its end.
-/

set_option autoImplicit false

namespace Chino

open Function (update)

namespace LineMemory

open Cells (Holds)
open Line (image body)
open SortedMap (Ascending IsAbove insertBy insertBy_of_lt insertBy_of_eq insertBy_of_gt lookup
  lookup_cons lookup_eq_none)

variable {m : Cells Byte} {s : LineMemory} {p number : ℕ} {l line : Line} {ls : List Line}

/-! ## What the queries say of a list of lines -/

/-- Memory that holds lines, and is large enough for them. -/
structure Lists (s : LineMemory) (ls : List Line) : Prop where
  holds : s.memory.Holds 0 (image ls)
  room : (image ls).length ≤ s.memorySize

theorem Lists.length_le (h : Lists s ls) : ls.length ≤ s.memorySize :=
  (Line.length_le_image ls).trans h.room

theorem Lists.text_le (h : Lists s ls) (hl : l ∈ ls) : l.text.length ≤ s.memorySize := by
  obtain ⟨ls₁, ls₂, rfl⟩ := List.append_of_mem hl
  have := h.room
  rw [Line.image_append, List.length_append, Line.length_image_cons] at this
  omega

theorem memoryUsed_spec (h : Lists s ls) : s.memoryUsed = some (image ls).length := by
  rw [memoryUsed, findEnd_eq h.holds h.length_le, Option.map_some, nextLine_findEnd h.holds,
    Nat.zero_add]

theorem getContents_spec (h : Lists s ls) :
    s.getContents number = some (lookup Line.number Line.text ls number) := by
  rcases hf : ls.find? (·.number = number) with _ | l
  · have hls : ∀ x ∈ ls, x.number ≠ number := by simpa using hf
    simp only [getContents, findLine_missing h.holds h.length_le hls, Option.bind_eq_bind,
      Option.bind_some, if_pos (isEnd_end (Cells.holds_append.mp h.holds).2), lookup, hf,
      Option.map_none]
  · have htext := h.text_le (List.mem_of_find?_eq_some hf)
    obtain ⟨hnum, ls₁, ls₂, rfl, hls⟩ := List.find?_eq_some_iff_append.mp hf
    obtain rfl : l.number = number := by simpa using hnum
    have hl := (holds_image_cons.mp (holds_image_append h.holds)).1
    simp only [getContents, findLine_found h.holds h.length_le (by simpa using hls),
      Option.bind_eq_bind, Option.bind_some, if_neg (not_isEnd_line hl), stringAt_line hl htext,
      lookup, hf, Option.map_some]

theorem list_spec (h : Lists s ls) (start stop : ℕ) : s.list start stop =
    some ((ls.filter fun l ↦ inRange l.number start stop).map fun l ↦ (l.number, l.text)) :=
  listLoop_eq h.holds h.length_le fun _ hl ↦ h.text_le hl

/-- The number where the lines from a place on are, which is that of the first, or zero. -/
theorem numberAt_eq (h : m.Holds p (image ls)) :
    numberAt m p = (ls.head?.map Line.number).getD 0 := by
  cases ls with
  | nil => exact numberAt_end h
  | cons l ls => exact numberAt_line (holds_image_cons.mp h).1

theorem next_spec (h : Lists s ls) :
    s.next number = some (((ls.find? (number < ·.number)).map Line.number).getD 0) := by
  have hsplit := List.takeWhile_append_dropWhile (p := fun l : Line ↦ l.number ≤ number) (l := ls)
  have hat := holds_image_append (hsplit.symm ▸ h.holds)
  -- the walk stops at the first line behind the number
  have hfind : (ls.dropWhile fun l ↦ l.number ≤ number).head? = ls.find? (number < ·.number) := by
    rw [List.find?_eq_head?_dropWhile_not]
    congr 2
    funext l
    simp only [← Nat.not_lt, decide_not]
  simp only [next, nextLoop_eq h.holds h.length_le, Option.bind_eq_bind, Option.bind_some,
    numberAt_eq hat, hfind]
  cases hf : ls.find? (number < ·.number) with
  | none => exact congrArg some (ite_self 0)
  | some l =>
    have hlt : number < l.number := by simpa using List.find?_some hf
    exact congrArg some (if_neg hlt.ne)

/-! ## A finite map -/

/-- The queries answer for a map from numbers to texts. -/
structure Answers (s : LineMemory) (f : ℕ → Option (List Byte)) : Prop where
  contents : ∀ n, s.getContents n = some (f n)
  /-- The listing is the part of the map in the range, in ascending order. -/
  list : ∀ start stop, ∃ out, s.list start stop = some out ∧ out.Pairwise (·.1 < ·.1) ∧
    ∀ n t, (n, t) ∈ out ↔ inRange n start stop = true ∧ f n = some t
  first : ((f s.first).isSome ∧ ∀ n, (f n).isSome → s.first ≤ n) ∨
    s.first = 0 ∧ ∀ n, f n = none
  next : ∀ n, ∃ k, s.next n = some k ∧ (IsAbove f n k ∨ k = 0 ∧ ∀ j, n < j → f j = none)
  /-- Each line costs four bytes beside its text, and the end three. -/
  used : ∃ out, s.list 0 0 = some out ∧
    s.memoryUsed = some ((out.map fun e ↦ e.2.length + 4).sum + 3)

theorem length_image_eq (ls : List Line) :
    (image ls).length = (ls.map fun l ↦ l.text.length + 4).sum + 3 := by
  induction ls with
  | nil => rfl
  | cons l ls ih => rw [Line.length_image_cons, ih, List.map_cons, List.sum_cons, ← Nat.add_assoc]

theorem Lists.answers (h : Lists s ls) (hs : Ascending Line.number ls) :
    Answers s (lookup Line.number Line.text ls) where
  contents _ := getContents_spec h
  list start stop := by
    refine ⟨_, list_spec h start stop, List.pairwise_map.mpr ?_, fun n t ↦ ?_⟩
    · exact List.Pairwise.sublist List.filter_sublist hs
    · exact hs.mem_map_iff (P := fun n ↦ inRange n start stop)
  first := by
    rw [LineMemory.first, numberAt_eq h.holds]
    cases ls with
    | nil => exact Or.inr ⟨rfl, fun _ ↦ rfl⟩
    | cons l ls =>
      refine Or.inl ⟨?_, fun n hn ↦ ?_⟩
      · simp [lookup_cons]
      · obtain ⟨t, ht⟩ := Option.isSome_iff_exists.mp hn
        obtain ⟨x, hx, rfl, -⟩ := SortedMap.mem_of_lookup ht
        rcases List.mem_cons.mp hx with rfl | hx
        · exact le_rfl
        · exact ((List.pairwise_cons.mp hs).1 x hx).le
  next n := by
    refine ⟨_, next_spec h, ?_⟩
    cases hf : ls.find? (n < ·.number) with
    | none => exact Or.inr ⟨rfl, fun j hj ↦ SortedMap.lookup_of_find_none hf hj⟩
    | some l => exact Or.inl (hs.isAbove hf)
  used := by
    refine ⟨_, list_spec h 0 0, ?_⟩
    rw [memoryUsed_spec h, length_image_eq, List.map_map]
    congr 4
    exact (List.filter_eq_self.mpr fun _ _ ↦ rfl).symm

/-! ## The operations in a run -/

/-- What changes the program. -/
inductive LineOp
  | store (number : ℕ) (contents : List Byte)
  | delete (number : ℕ)
  | clear
deriving DecidableEq

/-- An operation, with what it returns. -/
def perform (s : LineMemory) : LineOp → Option (Bool × LineMemory)
  | .store number contents => (s.store number contents).map (true, ·)
  | .delete number => s.delete number
  | .clear => s.clear.map (true, ·)

/-- The memory, and what has been done and returned. -/
structure Program where
  lines : LineMemory
  log : List (LineOp × Bool)

/-- Runs of operations, with their results, on a memory of the given size. -/
def machine (memory : Cells Byte) (memorySize : ℕ) : Machine Program LineOp where
  init := ⟨init memory memorySize, []⟩
  next s op := (perform s.lines op).map fun r ↦ ⟨r.2, s.log ++ [(op, r.1)]⟩

/-- A store is of a text whose length fits its byte, and there is room for it, counting the line
that it replaces. -/
def Fits (s : Program) : LineOp → Prop
  | .store number contents => number < 2 ^ 16 ∧ contents.length < 255 ∧ 0 ∉ contents ∧
    ∃ used ∈ s.lines.memoryUsed, ∃ old ∈ s.lines.getContents number,
      used + (contents.length + 4) ≤ s.lines.memorySize + old.elim 0 (·.length + 4)
  | .delete _ => True
  | .clear => True

instance (s : Program) (op : LineOp) : Decidable (Fits s op) := by
  cases op <;> unfold Fits <;> infer_instance

/-- What operations make of a finite map, and what they return. -/
inductive Maps : List (LineOp × Bool) → (ℕ → Option (List Byte)) → Prop
  | init : Maps [] fun _ ↦ none
  | store {log : List (LineOp × Bool)} {f : ℕ → Option (List Byte)} (h : Maps log f)
      (number : ℕ) (contents : List Byte) :
      Maps (log ++ [(.store number contents, true)]) (update f number (some contents))
  | delete {log : List (LineOp × Bool)} {f : ℕ → Option (List Byte)} (h : Maps log f)
      (number : ℕ) : Maps (log ++ [(.delete number, (f number).isSome)]) (update f number none)
  | clear {log : List (LineOp × Bool)} {f : ℕ → Option (List Byte)} (h : Maps log f) :
      Maps (log ++ [(.clear, true)]) fun _ ↦ none

/-! ## One operation -/

/-- A new line takes its room, and gives back that of the line it replaces. -/
theorem length_image_insertBy (line : Line) (hs : Ascending Line.number ls) :
    (image (insertBy Line.number line ls)).length +
      (lookup Line.number Line.text ls line.number).elim 0 (·.length + 4) =
    (image ls).length + (line.text.length + 4) := by
  induction ls with
  | nil =>
    rw [insertBy, Line.length_image_cons, SortedMap.lookup_nil, Option.elim_none, Nat.add_zero]
    exact Nat.add_comm _ _
  | cons l ls ih =>
    obtain ⟨hl, hls⟩ := List.pairwise_cons.mp hs
    rcases lt_trichotomy line.number l.number with hlt | heq | hgt
    · have hnone : lookup Line.number Line.text (l :: ls) line.number = none := by
        refine lookup_eq_none.mpr fun x hx ↦ ?_
        rcases List.mem_cons.mp hx with rfl | hx
        · exact hlt.ne'
        · exact (hlt.trans (hl x hx)).ne'
      rw [insertBy_of_lt hlt, hnone, Line.length_image_cons, Option.elim_none, Nat.add_zero]
      exact Nat.add_comm _ _
    · rw [insertBy_of_eq heq.symm, lookup_cons, if_pos heq.symm, Line.length_image_cons,
        Line.length_image_cons]
      simp only [Option.elim_some]
      omega
    · rw [insertBy_of_gt hgt, lookup_cons, if_neg hgt.ne, Line.length_image_cons,
        Line.length_image_cons]
      have := ih hls
      omega

/-- A step leaves a memory with other lines, and touches nothing behind the memory. -/
theorem Lists.stored {s' : LineMemory} {ls' : List Line} (h : Lists s ls)
    (hst : Stored s s' 0 ls ls') (hroom : (image ls').length ≤ s.memorySize) :
    Lists s' ls' ∧ ∀ a, s.memorySize ≤ a → s'.memory a = s.memory a := by
  refine ⟨⟨hst.1.holds, hst.2 ▸ hroom⟩, fun a ha ↦ hst.1.outside a (Or.inr ?_)⟩
  have := h.room
  omega

/-- What a run has made of the memory it started with. -/
structure Represents (memory : Cells Byte) (memorySize : ℕ) (s : Program) (ls : List Line) :
    Prop where
  lists : Lists s.lines ls
  ascending : Ascending Line.number ls
  maps : Maps s.log (lookup Line.number Line.text ls)
  size : s.lines.memorySize = memorySize
  outside : ∀ a, memorySize ≤ a → s.lines.memory a = memory a

variable {memory : Cells Byte} {memorySize : ℕ} {t t' : Program}

theorem represents_init (hsize : 3 ≤ memorySize) :
    Represents memory memorySize (machine memory memorySize).init [] where
  lists := ⟨holds_setEnd memory 0, hsize⟩
  ascending := List.Pairwise.nil
  maps := .init
  size := rfl
  outside _ ha := setEnd_of_outside (Or.inr (by omega))

/-- An operation that leaves the bytes of other lines. -/
theorem Represents.after {s' : LineMemory} {ls' : List Line} {op : LineOp} {result : Bool}
    (h : Represents memory memorySize t ls) (hst : Stored t.lines s' 0 ls ls')
    (hroom : (image ls').length ≤ t.lines.memorySize) (hs : Ascending Line.number ls')
    (hmaps : Maps (t.log ++ [(op, result)]) (lookup Line.number Line.text ls')) :
    Represents memory memorySize ⟨s', t.log ++ [(op, result)]⟩ ls' := by
  obtain ⟨hlists, houtside⟩ := h.lists.stored hst hroom
  exact ⟨hlists, hs, hmaps, hst.2.trans h.size, fun a ha ↦
    (houtside a (h.size.symm ▸ ha)).trans (h.outside a ha)⟩

/-- **One operation.**  It comes to an end, and what it leaves represents lines again. -/
theorem Represents.step {op : LineOp} (h : Represents memory memorySize t ls) (hop : Fits t op) :
    ∃ t' ls', (machine memory memorySize).next t op = some t' ∧
      Represents memory memorySize t' ls' := by
  cases op with
  | store number contents =>
    obtain ⟨hnumber, hshort, hnz, used, hused, old, hold, hroom⟩ := hop
    obtain ⟨line, rfl, rfl⟩ : ∃ line : Line, line.number = number ∧ line.text = contents :=
      ⟨⟨number, contents, hnumber, hshort, hnz⟩, rfl, rfl⟩
    obtain ⟨s', hs', hst⟩ := storeLoop_spec line h.lists.holds h.lists.length_le
      h.lists.room
    have hstore : t.lines.store line.number line.text = some s' := hs'
    rw [memoryUsed_spec h.lists, Option.mem_some_iff] at hused
    rw [getContents_spec h.lists, Option.mem_some_iff] at hold
    have hlong := length_image_insertBy line h.ascending
    refine ⟨⟨s', t.log ++ [(.store line.number line.text, true)]⟩, insertBy Line.number line ls, ?_,
      h.after hst ?_ h.ascending.insertBy ?_⟩
    · simp [machine, perform, hstore]
    · -- the room that the operation asks for
      subst hused hold
      omega
    · rw [SortedMap.lookup_insertBy]
      exact h.maps.store line.number line.text
  | delete number =>
    obtain ⟨s', hs', hst⟩ := delete_spec number h.lists.holds h.lists.room
    have hmaps := h.maps.delete number
    rw [← h.ascending.lookup_erase] at hmaps
    refine ⟨⟨s', t.log ++ [(.delete number, (lookup Line.number Line.text ls number).isSome)]⟩,
      ls.eraseP (·.number = number), ?_,
      h.after hst ?_ h.ascending.erase hmaps⟩
    · simp [machine, perform, hs']
    · have hsub : (body (ls.eraseP (·.number = number))).Sublist (body ls) :=
        List.eraseP_sublist.flatMap _
      have := hsub.length_le
      have := h.lists.room
      rw [Line.length_image] at this ⊢
      omega
  | clear =>
    obtain ⟨s', hs', hst⟩ := clear_spec h.lists.holds h.lists.room
    refine ⟨⟨s', t.log ++ [(.clear, true)]⟩, [], ?_,
      h.after hst ?_ List.Pairwise.nil h.maps.clear⟩
    · simp [machine, perform, hs']
    · have := h.lists.room
      rw [Line.length_image] at this ⊢
      have := (body ls).length.zero_le
      simp [Line.body]
      omega

/-! ## Every run -/

theorem reachable_represents (hsize : 3 ≤ memorySize)
    (h : (machine memory memorySize).ReachableWhile Fits t) :
    ∃ ls, Represents memory memorySize t ls := by
  refine h.invariant (I := fun t ↦ ∃ ls, Represents memory memorySize t ls)
    ⟨[], represents_init hsize⟩ fun t op t' _ ⟨ls, hls⟩ hop hn ↦ ?_
  obtain ⟨t'', ls', hn', hls'⟩ := hls.step hop
  obtain rfl := Option.some_inj.mp (hn.symm.trans hn')
  exact ⟨ls', hls'⟩

/-- **The program store is a finite map from numbers to texts**, as long as there is room for what
is stored.  The map is what the operations have made of it, the answers are its, no operation runs
on, and nothing behind the memory changes. -/
theorem lines_refine (hsize : 3 ≤ memorySize)
    (h : (machine memory memorySize).ReachableWhile Fits t) :
    ∃ f, Maps t.log f ∧ Answers t.lines f ∧ (∀ a, memorySize ≤ a → t.lines.memory a = memory a) ∧
      ∀ op, Fits t op → ((machine memory memorySize).next t op).isSome := by
  obtain ⟨ls, hls⟩ := reachable_represents hsize h
  refine ⟨_, hls.maps, hls.lists.answers hls.ascending, hls.outside, fun op hop ↦ ?_⟩
  obtain ⟨t', -, hn, -⟩ := hls.step hop
  exact Option.isSome_of_eq_some hn

/-- A program of two lines, stored the other way round, of which one is replaced and one deleted. -/
theorem lines_refine_edited :
    let t := (machine (fun _ ↦ 7) 24).afterWhile Fits
      [.store 20 [66], .store 10 [65, 65], .store 20 [67], .delete 10, .delete 30]
    t.log.map Prod.snd = [true, true, true, true, false] ∧ t.lines.list 0 0 = some [(20, [67])] ∧
      t.lines.memory 24 = 7 :=
  ⟨by decide, by decide, by
    have hr : (machine (fun _ ↦ 7) 24).ReachableWhile Fits _ := Machine.reachableWhile_afterWhile
      [.store 20 [66], .store 10 [65, 65], .store 20 [67], .delete 10, .delete 30]
    obtain ⟨-, -, -, h, -⟩ := lines_refine (by decide) hr
    exact h 24 le_rfl⟩

end LineMemory

end Chino
