import Chino.Components.Lines
import Chino.Library.SortedMap

/-!
# What the program store does to its bytes

Memory that represents a list of lines holds their bytes and the end behind them (`image`).  The
walks of `Chino.Components.Lines` find the places of this list (`findEnd_eq`, `findLine_eq`), and
each operation turns the bytes of one list into those of another: a store inserts or replaces, and a
deletion takes out.  `Stored` says so, and that only bytes of one of the two lists have changed.

A text must be shorter than 255 bytes, or its length does not fit the byte that it is stored in.

## The walks and the writes

A place in memory is described by the lines in front of it: `image` of a list is as long as its
bytes, so the place behind `xs` in `xs ++ ys` is known, and `holds_image_append` takes the memory
apart there.

* A walk has a lemma of the form "from the place of these lines on, it finds the place of that one":
  `nextLine_findEnd`, `findLine_eq`, `nextLoop_eq`, `listLoop_eq`.
* A write is a move of what is behind the place, and then the bytes of a line, or of the end.  A
  store that replaces a text by a longer or a shorter one moves in either direction.

`storeLoop_spec` is the loop of `lines_store` as a whole.  It has four ends: in front of a line with
a greater number, at the line itself, at the end, and in an empty program.
-/

set_option autoImplicit false

namespace Chino

/-! ## Lines and their bytes -/

/-- A line whose length fits, with a text that has no terminator in it. -/
structure Line where
  number : ℕ
  text : List Byte
  number_lt : number < 2 ^ 16
  short : text.length < 255
  nonzero : 0 ∉ text

namespace Line

open LineMemory (byte)

/-- A `line` in memory. -/
def bytes (l : Line) : List Byte :=
  [byte l.number, byte (l.number / 256)] ++ ([byte (l.text.length + 1)] ++ (l.text ++ [0]))

/-- The bytes of lines, one after the other. -/
def body (ls : List Line) : List Byte := ls.flatMap bytes

/-- Those of a program, with its end. -/
def image (ls : List Line) : List Byte := body ls ++ [0, 0, 0]

variable {l : Line} {ls : List Line}

theorem length_bytes (l : Line) : l.bytes.length = l.text.length + 4 := by
  simp [bytes]

theorem body_cons : body (l :: ls) = l.bytes ++ body ls := rfl

theorem body_append (ls ls' : List Line) : body (ls ++ ls') = body ls ++ body ls' :=
  List.flatMap_append

theorem image_cons : image (l :: ls) = l.bytes ++ image ls := by
  rw [image, body_cons, List.append_assoc, image]

theorem image_append (ls ls' : List Line) : image (ls ++ ls') = body ls ++ image ls' := by
  rw [image, body_append, List.append_assoc, image]

theorem length_image (ls : List Line) : (image ls).length = (body ls).length + 3 := by
  simp [image]

theorem length_image_cons : (image (l :: ls)).length = l.text.length + 4 + (image ls).length := by
  rw [image_cons, List.length_append, length_bytes]

/-- There are no more lines than bytes. -/
theorem length_le_image (ls : List Line) : ls.length ≤ (image ls).length := by
  induction ls with
  | nil => exact Nat.zero_le _
  | cons l ls ih =>
    rw [length_image_cons, List.length_cons]
    omega

end Line

namespace LineMemory

open Cells (Holds)
open Line (image body)
open SortedMap (insertBy lookup insertBy_of_lt insertBy_of_eq insertBy_of_gt)

variable {m m' : Cells Byte} {s s' : LineMemory} {p n number : ℕ} {l line : Line} {ls : List Line}
  {rest : List Byte}

/-! ## Reading a line -/

theorem val_byte (n : ℕ) : (byte n).val = n % 256 := rfl

theorem numberAt_line (h : m.Holds p (l.bytes ++ rest)) : numberAt m p = l.number := by
  obtain ⟨h₀, h⟩ := Cells.holds_cons.mp h
  obtain ⟨h₁, -⟩ := Cells.holds_cons.mp h
  have := l.number_lt
  rw [numberAt, h₀, h₁, val_byte, val_byte]
  omega

theorem lengthAt_line (h : m.Holds p (l.bytes ++ rest)) : lengthAt m p = l.text.length + 1 := by
  obtain ⟨-, h⟩ := Cells.holds_cons.mp h
  obtain ⟨-, h⟩ := Cells.holds_cons.mp h
  obtain ⟨h₂, -⟩ := Cells.holds_cons.mp h
  have := l.short
  rw [lengthAt, h₂, val_byte]
  omega

theorem nextLine_line (h : m.Holds p (l.bytes ++ rest)) : nextLine m p = p + l.bytes.length := by
  rw [nextLine, lengthAt_line h, l.length_bytes, headerSize]
  omega

theorem not_isEnd_line (h : m.Holds p (l.bytes ++ rest)) : ¬isEnd m p := fun he ↦ by
  have := he.2
  rw [lengthAt_line h] at this
  cases this

theorem isEnd_end (h : m.Holds p [0, 0, 0]) : isEnd m p := by
  obtain ⟨h₀, h⟩ := Cells.holds_cons.mp h
  obtain ⟨h₁, h⟩ := Cells.holds_cons.mp h
  obtain ⟨h₂, -⟩ := Cells.holds_cons.mp h
  refine ⟨?_, ?_⟩
  · rw [numberAt, h₀, h₁]
    rfl
  · rw [lengthAt, h₂]
    rfl

theorem numberAt_end (h : m.Holds p [0, 0, 0]) : numberAt m p = 0 := (isEnd_end h).1

theorem nextLine_end (h : m.Holds p [0, 0, 0]) : nextLine m p = p + 3 := by
  rw [nextLine, (isEnd_end h).2, headerSize]

/-- The text of a line as the string it is. -/
theorem stringAt_eq {text : List Byte} (h : m.Holds p (text ++ [0])) (hnz : 0 ∉ text)
    (hn : text.length ≤ n) : stringAt m n p = some text := by
  induction text generalizing p n with
  | nil =>
    obtain ⟨h₀, -⟩ := Cells.holds_cons.mp h
    cases n <;> exact if_pos h₀
  | cons b text ih =>
    obtain ⟨h₀, h⟩ := Cells.holds_cons.mp h
    obtain ⟨n, rfl⟩ := Nat.exists_eq_add_one_of_ne_zero (Nat.ne_of_gt (Nat.zero_lt_of_lt hn))
    have hb : b ≠ 0 := fun hb ↦ hnz (hb ▸ List.mem_cons_self)
    have hnz' : 0 ∉ text := fun hm ↦ hnz (List.mem_cons_of_mem _ hm)
    rw [stringAt, h₀, if_neg hb, ih h hnz' (Nat.le_of_succ_le_succ hn)]
    rfl

theorem stringAt_line (h : m.Holds p (l.bytes ++ rest)) (hn : l.text.length ≤ n) :
    stringAt m n (contentsAt p) = some l.text := by
  obtain ⟨h, -⟩ := Cells.holds_append.mp h
  obtain ⟨-, h⟩ := Cells.holds_append.mp h
  obtain ⟨-, h⟩ := Cells.holds_append.mp h
  exact stringAt_eq h l.nonzero hn

/-! ## Walking over the lines -/

theorem holds_image_cons : m.Holds p (image (l :: ls)) ↔
    m.Holds p (l.bytes ++ image ls) ∧ m.Holds (p + l.bytes.length) (image ls) := by
  rw [Line.image_cons]
  exact ⟨fun h ↦ ⟨h, (Cells.holds_append.mp h).2⟩, fun h ↦ h.1⟩

theorem findEnd_eq (h : m.Holds p (image ls)) (hn : ls.length ≤ n) :
    findEnd m n p = some (p + (body ls).length) := by
  induction ls generalizing p n with
  | nil => cases n <;> exact if_pos (isEnd_end h)
  | cons l ls ih =>
    obtain ⟨hl, hls⟩ := holds_image_cons.mp h
    obtain ⟨n, rfl⟩ := Nat.exists_eq_add_one_of_ne_zero (Nat.ne_of_gt (Nat.zero_lt_of_lt hn))
    rw [findEnd, if_neg (not_isEnd_line hl), nextLine_line hl, ih hls (Nat.le_of_succ_le_succ hn),
      Line.body_cons, List.length_append, Nat.add_assoc]

/-- The end of the walk, and what is behind it. -/
theorem nextLine_findEnd (h : m.Holds p (image ls)) :
    nextLine m (p + (body ls).length) = p + (image ls).length := by
  rw [nextLine_end (Cells.holds_append.mp h).2, Line.length_image, Nat.add_assoc]

/-- The walk to a line with a number. -/
theorem findLine_eq (h : m.Holds p (image ls)) (hn : ls.length ≤ n) : findLine m number n p =
    some (p + (body (ls.takeWhile (·.number ≠ number))).length) := by
  induction ls generalizing p n with
  | nil => cases n <;> exact if_pos (Or.inl (isEnd_end h))
  | cons l ls ih =>
    obtain ⟨hl, hls⟩ := holds_image_cons.mp h
    obtain ⟨n, rfl⟩ := Nat.exists_eq_add_one_of_ne_zero (Nat.ne_of_gt (Nat.zero_lt_of_lt hn))
    rw [findLine, numberAt_line hl]
    by_cases hnum : l.number = number
    · rw [if_pos (Or.inr hnum), List.takeWhile_cons_of_neg (by simpa using hnum)]
      rfl
    · rw [if_neg (not_or.mpr ⟨not_isEnd_line hl, hnum⟩), nextLine_line hl,
        ih hls (Nat.le_of_succ_le_succ hn), List.takeWhile_cons_of_pos (by simpa using hnum),
        Line.body_cons, List.length_append, Nat.add_assoc]

/-- The walk to the first line behind a number. -/
theorem nextLoop_eq (h : m.Holds p (image ls)) (hn : ls.length ≤ n) : nextLoop m number n p =
    some (p + (body (ls.takeWhile (·.number ≤ number))).length) := by
  induction ls generalizing p n with
  | nil => cases n <;> exact if_pos (Or.inl (isEnd_end h))
  | cons l ls ih =>
    obtain ⟨hl, hls⟩ := holds_image_cons.mp h
    obtain ⟨n, rfl⟩ := Nat.exists_eq_add_one_of_ne_zero (Nat.ne_of_gt (Nat.zero_lt_of_lt hn))
    rw [nextLoop, numberAt_line hl]
    by_cases hnum : number < l.number
    · rw [if_pos (Or.inr hnum), List.takeWhile_cons_of_neg (by simpa using hnum)]
      rfl
    · rw [if_neg (not_or.mpr ⟨not_isEnd_line hl, hnum⟩), nextLine_line hl,
        ih hls (Nat.le_of_succ_le_succ hn),
        List.takeWhile_cons_of_pos (by simpa using Nat.le_of_not_lt hnum), Line.body_cons,
        List.length_append, Nat.add_assoc]

theorem findLine_missing (h : m.Holds p (image ls)) (hn : ls.length ≤ n)
    (hls : ∀ l ∈ ls, l.number ≠ number) :
    findLine m number n p = some (p + (body ls).length) := by
  rw [findLine_eq h hn, List.takeWhile_eq_self_iff.mpr (by simpa using hls)]

theorem findLine_found {ls₁ ls₂ : List Line} (h : m.Holds p (image (ls₁ ++ l :: ls₂)))
    (hn : (ls₁ ++ l :: ls₂).length ≤ n) (hls : ∀ x ∈ ls₁, x.number ≠ l.number) :
    findLine m l.number n p = some (p + (body ls₁).length) := by
  rw [findLine_eq h hn, List.takeWhile_append_of_pos (by simpa using hls),
    List.takeWhile_cons_of_neg (by simp), List.append_nil]

/-- What is held from the place of a part of the lines on. -/
theorem holds_image_append {ls' : List Line} (h : m.Holds p (image (ls ++ ls'))) :
    m.Holds (p + (body ls).length) (image ls') :=
  (Cells.holds_append.mp (Line.image_append ls ls' ▸ h)).2

/-- The list of `lines_list`. -/
theorem listLoop_eq {size start stop : ℕ} (h : m.Holds p (image ls)) (hn : ls.length ≤ n)
    (hsize : ∀ l ∈ ls, l.text.length ≤ size) : listLoop m size start stop n p =
      some ((ls.filter fun l ↦ inRange l.number start stop).map fun l ↦ (l.number, l.text)) := by
  induction ls generalizing p n with
  | nil => cases n <;> exact if_pos (isEnd_end h)
  | cons l ls ih =>
    obtain ⟨hl, hls⟩ := holds_image_cons.mp h
    obtain ⟨n, rfl⟩ := Nat.exists_eq_add_one_of_ne_zero (Nat.ne_of_gt (Nat.zero_lt_of_lt hn))
    rw [listLoop, if_neg (not_isEnd_line hl), stringAt_line hl (hsize l List.mem_cons_self),
      nextLine_line hl, ih hls (Nat.le_of_succ_le_succ hn) fun x hx ↦
        hsize x (List.mem_cons_of_mem _ hx), numberAt_line hl, List.filter_cons]
    cases inRange l.number start stop <;> rfl

/-! ## Writing a line -/

/-- The stores of the length and the text make a line where its number is. -/
theorem holds_setText (h : m.Holds p [byte line.number, byte (line.number / 256)]) :
    (setContents (setLength m p (line.text.length + 1)) p line.text).Holds p line.bytes := by
  have hnum : (setContents (setLength m p (line.text.length + 1)) p line.text).Holds p
      [byte line.number, byte (line.number / 256)] :=
    (h.write (Or.inl (by simp))).write (Or.inl (by simp [contentsAt]))
  have hlen : (setContents (setLength m p (line.text.length + 1)) p line.text).Holds (p + 2)
      [byte (line.text.length + 1)] :=
    Cells.holds_write.write (Or.inl (by simp [contentsAt]))
  exact Cells.holds_append.mpr ⟨hnum, Cells.holds_append.mpr ⟨hlen, Cells.holds_write⟩⟩

/-- They change nothing else. -/
theorem setText_of_outside {a : ℕ} (h : a < p ∨ p + line.bytes.length ≤ a) :
    setContents (setLength m p (line.text.length + 1)) p line.text a = m a := by
  rw [line.length_bytes] at h
  rw [setContents, Cells.write_of_outside (by simp [contentsAt]; omega), setLength,
    Cells.write_of_outside (by simp; omega)]

theorem holds_setLine (m : Cells Byte) (p : ℕ) (line : Line) :
    (setContents (setLength (setNumber m p line.number) p (line.text.length + 1)) p
      line.text).Holds p line.bytes := holds_setText Cells.holds_write

theorem setLine_of_outside {a : ℕ} (h : a < p ∨ p + line.bytes.length ≤ a) :
    setContents (setLength (setNumber m p line.number) p (line.text.length + 1)) p line.text a =
      m a := by
  rw [setText_of_outside h, setNumber]
  rw [line.length_bytes] at h
  exact Cells.write_of_outside (by simp; omega)

/-- The end, from the stores that mark it. -/
theorem holds_setEnd (m : Cells Byte) (p : ℕ) :
    (setLength (setNumber m p 0) p 0).Holds p [0, 0, 0] := by
  have hlist : ([0, 0, 0] : List Byte) = [0, 0] ++ [0] := rfl
  rw [hlist]
  exact Cells.holds_append.mpr ⟨Cells.holds_write.write (Or.inl (by simp)), Cells.holds_write⟩

theorem setEnd_of_outside {a : ℕ} (h : a < p ∨ p + 3 ≤ a) :
    setLength (setNumber m p 0) p 0 a = m a := by
  rw [setLength, Cells.write_of_outside (by simp; omega), setNumber,
    Cells.write_of_outside (by simp; omega)]

/-! ## Storing a line -/

/-- The bytes of lines have become those of others. -/
def Stored (s s' : LineMemory) (p : ℕ) (ls ls' : List Line) : Prop :=
  s.memory.Replaced s'.memory p (image ls).length (image ls') ∧ s'.memorySize = s.memorySize

theorem Stored.cons {ls' : List Line}
    (h : Stored s s' (p + l.bytes.length) ls ls') (hl : s.memory.Holds p (image (l :: ls))) :
    Stored s s' p (l :: ls) (l :: ls') := by
  refine ⟨?_, h.2⟩
  rw [Line.image_cons, List.length_append, Line.image_cons]
  exact h.1.append (Cells.holds_append.mp (Line.image_cons ▸ hl)).1

theorem Stored.append {ls' ls₁ : List Line}
    (h : Stored s s' (p + (body ls₁).length) ls ls') (hl : s.memory.Holds p (image (ls₁ ++ ls))) :
    Stored s s' p (ls₁ ++ ls) (ls₁ ++ ls') := by
  refine ⟨?_, h.2⟩
  rw [Line.image_append, List.length_append, Line.image_append]
  exact h.1.append (Cells.holds_append.mp (Line.image_append _ _ ▸ hl)).1

theorem insertAt_spec (line : Line) (h : s.memory.Holds p (image ls))
    (hn : ls.length ≤ s.memorySize) :
    ∃ s', s.insertAt p line.number line.text = some s' ∧ Stored s s' p ls (line :: ls) := by
  have hsize : nextLine s.memory (p + (body ls).length) - p = (image ls).length := by
    rw [nextLine_findEnd h]
    exact Nat.add_sub_cancel_left ..
  have hlen : headerSize + line.text.length + 1 = line.bytes.length := by
    rw [line.length_bytes, headerSize]
    omega
  have heq : s.insertAt p line.number line.text = some { s with
      memory := setContents (setLength (setNumber (s.memory.move (p + line.bytes.length) p
        (image ls).length) p line.number) p (line.text.length + 1)) p line.text } := by
    simp only [insertAt, findEnd_eq h hn, Option.bind_eq_bind, Option.bind_some, hsize, hlen]
  refine ⟨_, heq, ?_, rfl⟩
  rw [Line.image_cons]
  refine ⟨Cells.holds_append.mpr ⟨holds_setLine _ p line, ?_⟩, fun a ha ↦ ?_⟩
  · exact (Cells.holds_move h).congr fun a ha _ ↦ setLine_of_outside (Or.inr ha)
  · rw [List.length_append] at ha
    refine (setLine_of_outside ?_).trans (Cells.move_of_outside ?_) <;> omega

theorem replaceAt_spec (h : s.memory.Holds p (image (l :: ls))) (hnum : l.number = line.number)
    (hn : (l :: ls).length ≤ s.memorySize) (ht : l.text.length ≤ s.memorySize) :
    ∃ s', s.replaceAt p line.text = some s' ∧ Stored s s' p (l :: ls) (line :: ls) := by
  obtain ⟨hl, hls⟩ := holds_image_cons.mp h
  have hsize : nextLine s.memory (p + (body (l :: ls)).length) - (p + l.bytes.length) =
      (image ls).length := by
    rw [nextLine_findEnd h, Line.image_cons, List.length_append]
    omega
  have hdst : p + l.bytes.length + (headerSize + line.text.length + 1) -
      (headerSize + l.text.length + 1) = p + line.bytes.length := by
    rw [line.length_bytes, l.length_bytes, headerSize]
    omega
  have heq : s.replaceAt p line.text = some { s with
      memory := setContents (setLength (s.memory.move (p + line.bytes.length) (p + l.bytes.length)
        (image ls).length) p (line.text.length + 1)) p line.text } := by
    simp only [replaceAt, findEnd_eq h hn, stringAt_line hl ht, nextLine_line hl,
      Option.bind_eq_bind, Option.bind_some, hsize, hdst]
  refine ⟨_, heq, ?_, rfl⟩
  rw [Line.image_cons, Line.image_cons]
  have hlong := line.length_bytes
  refine ⟨Cells.holds_append.mpr ⟨holds_setText ?_, ?_⟩, fun a ha ↦ ?_⟩
  · -- the number stays
    rw [← hnum]
    refine (Cells.holds_append.mp (Cells.holds_append.mp hl).1).1.move (Or.inl ?_)
    rw [List.length_cons, List.length_singleton]
    omega
  · exact (Cells.holds_move hls).congr fun a ha _ ↦ setText_of_outside (Or.inr ha)
  · rw [List.length_append, List.length_append] at ha
    refine (setText_of_outside ?_).trans (Cells.move_of_outside ?_) <;> omega

theorem appendAt_spec (s : LineMemory) (p : ℕ) (line : Line) :
    Stored s (s.appendAt p line.number line.text) p [] [line] := by
  refine ⟨?_, rfl⟩
  have hline := holds_setLine s.memory p line
  have hnext := nextLine_line ((List.append_nil line.bytes).symm ▸ hline)
  rw [Line.image_cons]
  have hlong := line.length_bytes
  simp only [appendAt]
  rw [hnext]
  refine ⟨Cells.holds_append.mpr ⟨hline.congr fun a _ ha ↦ setEnd_of_outside (Or.inl ha),
    holds_setEnd _ _⟩, fun a ha ↦ ?_⟩
  rw [List.length_append, Line.length_image] at ha
  rw [setEnd_of_outside (by simp at ha; omega), setLine_of_outside (by omega)]

/-- **The loop of `lines_store`** puts the line in its place, wherever it stands. -/
theorem storeLoop_spec (line : Line) (h : s.memory.Holds p (image ls)) (hn : ls.length ≤ n)
    (hsize : (image ls).length ≤ s.memorySize) :
    ∃ s', s.storeLoop line.number line.text n p = some s' ∧
      Stored s s' p ls (insertBy Line.number line ls) := by
  induction ls generalizing p n with
  | nil => cases n <;> exact ⟨_, if_pos (isEnd_end h), s.appendAt_spec p line⟩
  | cons l ls ih =>
    obtain ⟨hl, hls⟩ := holds_image_cons.mp h
    obtain ⟨n, rfl⟩ := Nat.exists_eq_add_one_of_ne_zero (Nat.ne_of_gt (Nat.zero_lt_of_lt hn))
    have hlong := (Line.length_le_image (l :: ls)).trans hsize
    have hcons : (image (l :: ls)).length = _ := Line.length_image_cons
    have hrest := Nat.le_of_succ_le hlong
    simp only [storeLoop, if_neg (not_isEnd_line hl), numberAt_line hl, nextLine_line hl]
    rcases lt_trichotomy l.number line.number with hlt | heq | hgt
    · rw [insertBy_of_gt hlt]
      by_cases hahead : numberAt s.memory (p + l.bytes.length) > line.number
      · -- the place is between this line and the next one, which is not the end
        rw [if_pos ⟨hlt, hahead⟩]
        cases ls with
        | nil =>
          rw [numberAt_end hls] at hahead
          exact absurd hahead (Nat.not_lt_zero _)
        | cons l' ls =>
          rw [numberAt_line (holds_image_cons.mp hls).1] at hahead
          rw [insertBy_of_lt hahead]
          obtain ⟨s', hs', hst⟩ := insertAt_spec line hls hrest
          exact ⟨s', hs', hst.cons h⟩
      · rw [if_neg (fun hc ↦ hahead hc.2), if_neg hlt.ne, if_neg (Nat.lt_asymm hlt)]
        obtain ⟨s', hs', hst⟩ := ih hls (Nat.le_of_succ_le_succ hn) (by omega)
        exact ⟨s', hs', hst.cons h⟩
    · rw [if_neg (fun hc ↦ hc.1.ne heq), if_pos heq, insertBy_of_eq heq]
      exact replaceAt_spec h heq hlong (by omega)
    · rw [if_neg (fun hc ↦ Nat.lt_asymm hgt hc.1), if_neg hgt.ne', if_pos hgt, insertBy_of_lt hgt]
      exact insertAt_spec line h hlong

/-! ## Deleting -/

/-- The last line becomes the end. -/
theorem clearLast_spec (s : LineMemory) (p : ℕ) (l : Line) :
    Stored s ⟨setContents (setLength (setNumber (clearAt s.memory p
      (headerSize + l.text.length + 1)) p 0) p 0) p [], s.memorySize⟩ p [l] [] := by
  have hone : (image [l]).length = l.text.length + 7 := Line.length_image_cons
  refine ⟨⟨(holds_setEnd _ p).write (Or.inl (by simp [contentsAt])), fun a ha ↦ ?_⟩, rfl⟩
  rw [hone, Line.length_image] at ha
  refine ((Cells.write_of_outside ?_).trans (setEnd_of_outside ?_)).trans
    (Cells.write_of_outside ?_)
  · simp [contentsAt]
    omega
  · omega
  · rw [List.length_replicate, headerSize]
    omega

/-- Any other line is covered by those behind it. -/
theorem closeUp_spec (h : s.memory.Holds p (image (l :: ls))) :
    Stored s ⟨clearAt (s.memory.move p (p + l.bytes.length) (image ls).length)
      (p + (image ls).length) l.bytes.length, s.memorySize⟩ p (l :: ls) ls := by
  obtain ⟨-, hls⟩ := holds_image_cons.mp h
  refine ⟨⟨(Cells.holds_move hls).write (Or.inl le_rfl), fun a ha ↦ ?_⟩, rfl⟩
  rw [Line.image_cons, List.length_append] at ha
  refine (Cells.write_of_outside ?_).trans (Cells.move_of_outside ?_)
  · rw [List.length_replicate]
    omega
  · omega

theorem delete_spec (number : ℕ) (h : s.memory.Holds 0 (image ls))
    (hsize : (image ls).length ≤ s.memorySize) :
    ∃ s', s.delete number = some ((lookup Line.number Line.text ls number).isSome, s') ∧
      Stored s s' 0 ls (ls.eraseP (·.number = number)) := by
  have hlong := (Line.length_le_image ls).trans hsize
  rcases hf : ls.find? (·.number = number) with _ | l
  · have hls : ∀ x ∈ ls, x.number ≠ number := by simpa using hf
    rw [lookup, hf, List.eraseP_of_forall_not (by simpa using hls)]
    refine ⟨s, ?_, ⟨h, fun a _ ↦ rfl⟩, rfl⟩
    simp only [delete, findLine_missing h hlong hls, Option.bind_eq_bind, Option.bind_some]
    exact if_pos (isEnd_end (Cells.holds_append.mp h).2)
  · obtain ⟨hnum, ls₁, ls₂, rfl, hls⟩ := List.find?_eq_some_iff_append.mp hf
    obtain rfl : l.number = number := by simpa using hnum
    have hls : ∀ x ∈ ls₁, x.number ≠ l.number := by simpa using hls
    have hat := holds_image_append h
    obtain ⟨hl, hrest⟩ := holds_image_cons.mp hat
    have htext : l.text.length ≤ s.memorySize := by
      have : (image (l :: ls₂)).length = _ := Line.length_image_cons
      rw [Line.image_append, List.length_append] at hsize
      omega
    rw [lookup, hf, List.eraseP_append_right _ (by simpa using hls),
      List.eraseP_cons_of_pos (by simp)]
    cases ls₂ with
    | nil =>
      refine ⟨_, ?_, (clearLast_spec s _ l).append h⟩
      simp only [delete, findLine_found h hlong hls, Option.bind_eq_bind, Option.bind_some,
        if_neg (not_isEnd_line hl), nextLine_line hl, if_pos (isEnd_end hrest),
        stringAt_line hl htext, Option.map_some, Option.isSome_some]
    | cons l' ls₂ =>
      have hshort : (l' :: ls₂).length ≤ s.memorySize := by
        rw [List.length_append, List.length_cons] at hlong
        omega
      have hplace (q n k : ℕ) : q + n + k - n = q + k := by omega
      refine ⟨_, ?_, (closeUp_spec hat).append h⟩
      simp only [delete, findLine_found h hlong hls, Option.bind_eq_bind, Option.bind_some,
        if_neg (not_isEnd_line hl), nextLine_line hl,
        if_neg (not_isEnd_line (holds_image_cons.mp hrest).1), findEnd_eq hrest hshort,
        nextLine_findEnd hrest, Nat.add_sub_cancel_left, hplace, Option.map_some,
        Option.isSome_some]

/-! ## Clearing -/

theorem clear_spec (h : s.memory.Holds 0 (image ls)) (hsize : (image ls).length ≤ s.memorySize) :
    ∃ s', s.clear = some s' ∧ Stored s s' 0 ls [] := by
  have heq : s.clear = some ⟨setLength (setNumber (clearAt s.memory 0 (image ls).length) 0 0) 0 0,
      s.memorySize⟩ := by
    simp only [clear, findEnd_eq h ((Line.length_le_image ls).trans hsize), Option.bind_eq_bind,
      Option.bind_some, nextLine_findEnd h]
    rw [Nat.zero_add]
  refine ⟨_, heq, ⟨holds_setEnd _ 0, fun a ha ↦ ?_⟩, rfl⟩
  rw [Line.length_image []] at ha
  refine (setEnd_of_outside ?_).trans (Cells.write_of_outside ?_)
  · omega
  · rw [List.length_replicate]
    omega

end LineMemory

end Chino
