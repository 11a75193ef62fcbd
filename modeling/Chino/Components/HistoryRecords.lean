import Chino.Components.History
import Mathlib.Data.List.GetD

/-!
# The records in the ring

`Records` says that a list of lines is in the ring from some header on, and `Keeps` that they are
the history.  The specs of `hist_save_line` and `hist_restore_line` follow: a line that fits is
saved behind those that there is still room for, and going up and down leads to the line that is so
far from the end.

## The ring

A line of `n` characters takes `n + 1` bytes, wherever in the ring they are:
`Chino.Library.Circular` makes a record that goes over the end the same as any other.

* `Records` is defined along the list of lines, with the header of each where the one before it
  ends.
* `seek_spec` is the walk: it counts the lines from the oldest one on and stops at the one asked
  for.
* `makeSpace_spec` is the loop that erases the oldest lines until the new one fits, which keeps the
  newest lines there is room for.
* `Keeps.saveLine`, `Keeps.restore_up` and `Keeps.restore_down` are what the editor uses.

A line of which the ring has no room for, or an empty one, is not saved.
-/

set_option autoImplicit false

namespace Chino

namespace RingHistory

open Cells (Holds holds_append holds_cons holds_nil holds_mod holds_writeAround writeAround_of_le)
open History

variable {ring line : Cells Byte} {h : RingHistory} {l : Text} {ls : List Text} {p n : ℕ}

/-- The bytes of lines. -/
def body (ls : List Text) : List Byte := ls.flatMap fun l ↦ Fin.ofNat 256 l.length :: l

@[simp] theorem body_nil : body [] = [] := rfl

theorem body_cons (l : Text) (ls : List Text) :
    body (l :: ls) = Fin.ofNat 256 l.length :: (l ++ body ls) := rfl

theorem body_append (ls ls' : List Text) : body (ls ++ ls') = body ls ++ body ls' :=
  List.flatMap_append

@[simp] theorem length_body (ls : List Text) : (body ls).length = size ls := by
  induction ls with
  | nil => rfl
  | cons l ls ih =>
    rw [body_cons, List.length_cons, List.length_append, ih, size_cons]
    omega

theorem wrapped_eq (hp : p < 2 * ringHistoryLen) : wrapped p = p % ringHistoryLen := by
  unfold wrapped ringHistoryLen at *
  split_ifs with hge
  · rw [Nat.mod_eq_sub_mod hge, Nat.mod_eq_of_lt (by omega)]
  · rw [Nat.mod_eq_of_lt (by omega)]

/-- The ring has room for the line. -/
def IsShort (l : Text) : Prop := 0 < l.length ∧ l.length ≤ ringHistoryLen - 2

theorem IsShort.val (hl : IsShort l) : (Fin.ofNat 256 l.length : Byte).val = l.length := by
  have := hl.2
  rw [Fin.val_ofNat, Nat.mod_eq_of_lt (by unfold ringHistoryLen at this; omega)]

theorem IsShort.ne_zero (hl : IsShort l) : (Fin.ofNat 256 l.length : Byte) ≠ 0 := by
  intro hzero
  have hval := hl.val
  rw [hzero] at hval
  exact absurd hval hl.1.ne

/-- The lines are in the ring, with their header there, the oldest one first. -/
structure Records (ring : Cells Byte) (p : ℕ) (ls : List Text) : Prop where
  lt : p < ringHistoryLen
  short : ∀ l ∈ ls, IsShort l
  room : size ls ≤ capacity
  holds : (ring.around ringHistoryLen).Holds p (body ls ++ [0])

theorem around_of_lt (ring : Cells Byte) (hp : p < ringHistoryLen) :
    ring.around ringHistoryLen p = ring p := by
  rw [Cells.around, Nat.mod_eq_of_lt hp]

theorem Records.header_nil (hr : Records ring p []) : ring p = 0 := by
  rw [← around_of_lt ring hr.lt]
  exact (holds_cons.mp hr.holds).1

theorem Records.holds_first (hr : Records ring p (l :: ls)) :
    ring p = Fin.ofNat 256 l.length ∧ (ring.around ringHistoryLen).Holds (p + 1) l ∧
      (ring.around ringHistoryLen).Holds (p + (l.length + 1)) (body ls ++ [0]) := by
  have hholds := hr.holds
  rw [body_cons, List.cons_append, holds_cons, List.append_assoc, holds_append,
    around_of_lt ring hr.lt, Nat.add_assoc, Nat.add_comm 1] at hholds
  exact hholds

theorem Records.header (hr : Records ring p (l :: ls)) : ring p = Fin.ofNat 256 l.length :=
  hr.holds_first.1

theorem Records.header_val (hr : Records ring p (l :: ls)) : (ring p).val = l.length := by
  rw [hr.header, (hr.short l List.mem_cons_self).val]

theorem Records.header_ne_zero (hr : Records ring p (l :: ls)) : ring p ≠ 0 := by
  rw [hr.header]
  exact (hr.short l List.mem_cons_self).ne_zero

theorem Records.nextHeader_eq (hr : Records ring p (l :: ls)) :
    nextHeader ring p = (p + (l.length + 1)) % ringHistoryLen := by
  have hp := hr.lt
  have hl := (hr.short l List.mem_cons_self).2
  rw [nextHeader, hr.header_val, ← Nat.add_assoc, wrapped_eq (by unfold ringHistoryLen at *; omega)]

/-- The next header is in front of the other lines. -/
theorem Records.next (hr : Records ring p (l :: ls)) : Records ring (nextHeader ring p) ls where
  lt := by
    rw [hr.nextHeader_eq]
    exact Nat.mod_lt _ (by decide)
  short l' hl' := hr.short l' (List.mem_cons_of_mem _ hl')
  room := by
    have := hr.room
    rw [size_cons] at this
    omega
  holds := by
    rw [hr.nextHeader_eq, holds_mod]
    exact hr.holds_first.2.2

/-! ## Walks -/

theorem count_eq (hr : Records ring p ls) (hn : ls.length ≤ n) :
    count ring n p = some ls.length := by
  induction ls generalizing p n with
  | nil => rcases n with _ | n <;> exact if_pos hr.header_nil
  | cons l ls ih =>
    obtain ⟨n, rfl⟩ := Nat.exists_eq_add_of_le' (show 1 ≤ n from Nat.one_le_of_lt hn)
    rw [count, if_neg hr.header_ne_zero, ih hr.next (Nat.le_of_succ_le_succ hn)]
    rfl

/-- The walk ends where the counter comes to `cur`, or at the end. -/
theorem seek_spec (cur : ℕ) {i : ℕ} {k : ℤ} (hr : Records ring p ls) (hn : ls.length ≤ n)
    (hi : i ≤ ls.length) (hgo : ∀ j < i, k - j ≠ cur) (hstop : i = ls.length ∨ k - i = cur) :
    ∃ header, seek ring cur n k p = some header ∧ Records ring header (ls.drop i) := by
  induction i generalizing p n k ls with
  | zero =>
    refine ⟨p, ?_, hr⟩
    have hhere : ¬(ring p ≠ 0 ∧ k ≠ cur) := by
      rintro ⟨hne, hk⟩
      rcases hstop with hnil | hcur
      · rw [List.length_eq_zero_iff.mp hnil.symm] at hr
        exact hne hr.header_nil
      · exact hk (by simpa using hcur)
    rcases n with _ | n <;> exact if_neg hhere
  | succ i ih =>
    rcases ls with _ | ⟨l, ls⟩
    · exact absurd hi (Nat.not_succ_le_zero i)
    obtain ⟨n, rfl⟩ := Nat.exists_eq_add_of_le' (show 1 ≤ n from Nat.one_le_of_lt hn)
    have hk : k ≠ cur := by simpa using hgo 0 (Nat.succ_pos i)
    rw [seek, if_pos ⟨hr.header_ne_zero, hk⟩]
    refine ih hr.next (Nat.le_of_succ_le_succ hn) (Nat.le_of_succ_le_succ hi) (fun j hj ↦ ?_) ?_
    · have := hgo (j + 1) (Nat.succ_lt_succ hj)
      push_cast at this
      omega
    · rw [List.length_cons] at hstop
      push_cast at hstop
      omega

theorem copyLine_holds (hr : Records ring p (l :: ls)) : (copyLine ring p line).Holds 0 l := by
  have hp := hr.lt
  have hl := hr.short l List.mem_cons_self
  have hread := hr.holds_first.2.1.read_eq
  rw [copyLine, hr.header_val]
  dsimp only
  split_ifs with hin
  · rw [← Cells.read_around (N := ringHistoryLen) (by omega), hread]
    exact Cells.holds_write
  · have hlen : l.length ≤ ringHistoryLen := by
      have := hl.2
      omega
    rw [Cells.read_around_over (by omega) hlen (by omega)] at hread
    have hpart : ringHistoryLen - p - 1 = ringHistoryLen - (p + 1) := by omega
    rw [hpart, ← hread, holds_append, Nat.zero_add, Cells.length_read]
    refine ⟨Cells.holds_write.write (Or.inl ?_), ?_⟩
    · rw [Cells.length_read, Nat.zero_add]
    · rw [hread]
      exact Cells.holds_write

/-! ## The history -/

/-- The history consists of these lines, the oldest one first. -/
structure Keeps (h : RingHistory) (ls : List Text) : Prop where
  records : Records h.ringBuf h.beginPos ls
  endPos : h.endPos = (h.beginPos + size ls) % ringHistoryLen

theorem Keeps.eraseOlder (hk : Keeps h (l :: ls)) : Keeps h.histEraseOlder ls where
  records := hk.records.next
  endPos := by
    rw [histEraseOlder, hk.endPos, hk.records.nextHeader_eq, Nat.mod_add_mod, size_cons,
      ← Nat.add_assoc]

theorem Keeps.isSpaceForNew_iff (hk : Keeps h ls) (hn : n ≤ ringHistoryLen - 2) :
    h.histIsSpaceForNew n = true ↔ size ls + (n + 1) ≤ capacity := by
  have hlt := hk.records.lt
  have hroom := hk.records.room
  have hend := hk.endPos
  rw [← wrapped_eq (by unfold capacity at hroom; omega), wrapped] at hend
  unfold capacity ringHistoryLen at *
  rcases ls with _ | ⟨l, ls⟩
  · rw [histIsSpaceForNew, if_pos hk.records.header_nil, size_nil]
    simp only [true_iff]
    omega
  · have hpos : 0 < size (l :: ls) := by
      rw [size_cons]
      omega
    rw [histIsSpaceForNew, if_neg hk.records.header_ne_zero]
    unfold ringHistoryLen
    split_ifs at hend ⊢ <;> exact decide_eq_true_iff.trans (by omega)

/-- What is left are as many of the newest lines as there is room for. -/
theorem makeSpace_spec (hk : Keeps h ls) (hls : ls.length ≤ n) {len : ℕ}
    (hlen : len ≤ ringHistoryLen - 2) :
    ∃ h', makeSpace len n h = some h' ∧
      Keeps h' (keep (capacity - (len + 1)) ls.reverse).reverse := by
  have hcap : len + 1 ≤ capacity := by
    unfold capacity ringHistoryLen at *
    omega
  induction ls generalizing h n with
  | nil =>
    have hspace := (hk.isSpaceForNew_iff hlen).mpr (by simpa using hcap)
    refine ⟨h, ?_, hk⟩
    rcases n with _ | n <;> exact if_pos hspace
  | cons l ls ih =>
    obtain ⟨n, rfl⟩ := Nat.exists_eq_add_of_le' (show 1 ≤ n from Nat.one_le_of_lt hls)
    have hspace := hk.isSpaceForNew_iff hlen
    rw [makeSpace]
    by_cases hfits : size (l :: ls) + (len + 1) ≤ capacity
    · rw [if_pos (hspace.mpr hfits), keep_of_size_le (by rw [size_reverse]; omega),
        List.reverse_reverse]
      exact ⟨h, rfl, hk⟩
    · rw [if_neg fun htrue ↦ hfits (hspace.mp htrue), List.reverse_cons, keep_append_singleton]
      · exact ih hk.eraseOlder (Nat.le_of_succ_le_succ hls)
      · rw [← List.reverse_cons, size_reverse]
        omega

/-- The writes of `hist_save_line` behind lines that leave room for another one. -/
theorem saved_holds {V : ℕ} (hbody : (ring.around ringHistoryLen).Holds p (body ls))
    (hV : V = p + size ls) (hroom : size ls + (l.length + 1) ≤ capacity) :
    ((((ring.writeAround ringHistoryLen ((V + 1) % ringHistoryLen) l).writeAround ringHistoryLen
      (V % ringHistoryLen) [Fin.ofNat 256 l.length]).writeAround ringHistoryLen
      ((V + (l.length + 1)) % ringHistoryLen) [0]).around ringHistoryLen).Holds p
        (body (ls ++ [l]) ++ [0]) := by
  have hlen : l.length ≤ ringHistoryLen ∧ l.length + 1 ≤ ringHistoryLen := by
    unfold capacity at hroom
    omega
  have hN : 0 < ringHistoryLen := by decide
  unfold capacity at hroom
  -- what is written stays where it is when the next part is written
  have hlines := hbody.writeAround l hN (p := V + 1) (by rw [length_body]; omega) (by omega)
  have htext := holds_mod.mp (holds_writeAround ring (Nat.mod_lt (V + 1) hN).le hlen.1)
  set ring₁ := ring.writeAround ringHistoryLen ((V + 1) % ringHistoryLen) l
  have hlines := hlines.writeAround [Fin.ofNat 256 l.length] hN (p := V)
    (by rw [length_body]; omega) (by rw [List.length_singleton]; omega)
  have htext := htext.writeAround [Fin.ofNat 256 l.length] hN (p := V + ringHistoryLen)
    (by omega) (by rw [List.length_singleton]; omega)
  have hone : [(Fin.ofNat 256 l.length : Byte)].length ≤ ringHistoryLen := by
    rw [List.length_singleton]
    decide
  have hheader := holds_mod.mp (holds_writeAround ring₁ (Nat.mod_lt V hN).le hone)
  rw [Nat.add_mod_right] at htext
  set ring₂ := ring₁.writeAround ringHistoryLen (V % ringHistoryLen) [Fin.ofNat 256 l.length]
  have hrecord : (ring₂.around ringHistoryLen).Holds p (body (ls ++ [l])) := by
    rw [body_append, holds_append, length_body, ← hV, body_cons, body_nil, List.append_nil,
      holds_cons]
    exact ⟨hlines, (holds_cons.mp hheader).1, htext⟩
  have hsize : V + (l.length + 1) = p + size (ls ++ [l]) := by
    rw [size_append, size_cons, size_nil]
    omega
  rw [holds_append, length_body, ← hsize]
  refine ⟨hrecord.writeAround [0] hN ?_ ?_, holds_mod.mp (holds_writeAround ring₂ ?_ (by decide))⟩
  · rw [length_body, hsize]
  · rw [List.length_singleton]
    omega
  · exact (Nat.mod_lt _ hN).le

theorem writeAround_singleton {x : Byte} (hp : p < ringHistoryLen) :
    ring.writeAround ringHistoryLen p [x] = ring.write p [x] := by
  refine writeAround_of_le ?_
  rw [List.length_singleton]
  omega

/-- Where the first line goes its length is written twice. -/
def lengthFirst (h : RingHistory) (len : ℕ) : Cells Byte :=
  if h.ringBuf h.beginPos = 0 then h.ringBuf.write h.beginPos [Fin.ofNat 256 len] else h.ringBuf

theorem histSaveLine_eq (hl : IsShort l) {h₁ : RingHistory}
    (hspace : makeSpace l.length ringHistoryLen h = some h₁) (hend : h₁.endPos < ringHistoryLen) :
    h.histSaveLine l = some { h₁ with
      ringBuf := (((lengthFirst h₁ l.length).writeAround ringHistoryLen
        ((h₁.endPos + 1) % ringHistoryLen) l).writeAround ringHistoryLen
        (h₁.endPos % ringHistoryLen) [Fin.ofNat 256 l.length]).writeAround ringHistoryLen
        ((h₁.endPos + (l.length + 1)) % ringHistoryLen) [0]
      endPos := (h₁.endPos + (l.length + 1)) % ringHistoryLen
      cur := 0 } := by
  have hlen := hl.2
  have hle : l.length ≤ ringHistoryLen := hlen.trans (Nat.sub_le _ _)
  have hlast : (h₁.endPos + (l.length + 1)) % ringHistoryLen < ringHistoryLen :=
    Nat.mod_lt _ (by decide)
  have hwrap : wrapped (h₁.endPos + l.length + 1) =
      (h₁.endPos + (l.length + 1)) % ringHistoryLen := by
    rw [Nat.add_assoc, wrapped_eq (by unfold ringHistoryLen at *; omega)]
  have htext (m : Cells Byte) : (if l.length < ringHistoryLen - h₁.endPos - 1 then
      m.write (h₁.endPos + 1) l else
      (m.write (h₁.endPos + 1) (l.take (ringHistoryLen - h₁.endPos - 1))).write 0
        (l.drop (ringHistoryLen - h₁.endPos - 1))) =
      m.writeAround ringHistoryLen ((h₁.endPos + 1) % ringHistoryLen) l := by
    rw [Cells.writeAround_mod (by omega) hle]
    split_ifs with hin
    · rw [writeAround_of_le (by omega)]
    · rw [Cells.writeAround, Nat.sub_sub]
  simp only [histSaveLine, if_neg (Nat.not_lt.mpr hlen), hspace, Option.bind_eq_bind,
    Option.bind_some, htext, hwrap, lengthFirst]
  rw [Nat.mod_eq_of_lt hend, writeAround_singleton hend, writeAround_singleton hlast]

/-- A line that is short enough is saved. -/
theorem Keeps.saveLine (hk : Keeps h ls) (hl : IsShort l) :
    ∃ h', h.histSaveLine l = some h' ∧ h'.cur = 0 ∧
      Keeps h' ((keep (capacity - (l.length + 1)) ls.reverse).reverse ++ [l]) := by
  have hlen := hl.2
  have hN : 0 < ringHistoryLen := by decide
  have hls : ls.length ≤ ringHistoryLen :=
    (length_le_size ls).trans (hk.records.room.trans (Nat.sub_le _ _))
  obtain ⟨h₁, hspace, hk₁⟩ := makeSpace_spec hk hls hl.2
  have hroom := size_keep_le (capacity - (l.length + 1)) ls.reverse
  rw [← size_reverse] at hroom
  set kept := (keep (capacity - (l.length + 1)) ls.reverse).reverse
  have hend : h₁.endPos < ringHistoryLen := hk₁.endPos ▸ Nat.mod_lt _ hN
  have hcap : size kept + (l.length + 1) ≤ capacity := by
    unfold capacity ringHistoryLen at *
    omega
  have hbody : ((lengthFirst h₁ l.length).around ringHistoryLen).Holds h₁.beginPos (body kept) := by
    rcases hkept : kept with _ | ⟨l', rest⟩
    · exact holds_nil
    · rw [hkept] at hk₁
      rw [lengthFirst, if_neg hk₁.records.header_ne_zero]
      exact (holds_append.mp hk₁.records.holds).1
  refine ⟨_, histSaveLine_eq hl hspace hend, rfl, ⟨hk₁.records.lt, ?_, ?_, ?_⟩, ?_⟩
  · intro l' hl'
    rcases List.mem_append.mp hl' with hmem | hmem
    · exact hk₁.records.short l' hmem
    · rwa [List.mem_singleton.mp hmem]
  · rwa [size_append, size_cons, size_nil, Nat.add_zero]
  · have hsaved := saved_holds hbody rfl hcap
    dsimp only
    rw [hk₁.endPos, Nat.mod_add_mod, Nat.mod_add_mod, Nat.mod_mod]
    exact hsaved
  · dsimp only
    rw [hk₁.endPos, Nat.mod_add_mod, size_append, size_cons, size_nil, Nat.add_zero, Nat.add_assoc]

/-! ## Going back and forth -/

/-- The line that is so far back; the newest one is the first, and there is nothing before it. -/
def lineAt (recent : List Text) (back : ℕ) : Text := ([] :: recent).getD back []

theorem Records.lineAt {back : ℕ} (hr : Records ring p (ls.drop (ls.length - back)))
    (hback : back ≤ ls.length) (line : Cells Byte) :
    (ring p).val = (RingHistory.lineAt ls.reverse back).length ∧
      (copyLine ring p line).Holds 0 (RingHistory.lineAt ls.reverse back) := by
  rcases back with _ | back
  · rw [Nat.sub_zero, List.drop_length] at hr
    exact ⟨congrArg Fin.val hr.header_nil, holds_nil⟩
  · have hlt : ls.length - (back + 1) < ls.length := by omega
    have hline : RingHistory.lineAt ls.reverse (back + 1) = ls[ls.length - (back + 1)] := by
      rw [RingHistory.lineAt, List.getD_cons_succ,
        List.getD_eq_getElem _ _ (by rwa [List.length_reverse]),
        List.getElem_reverse]
      congr 1
      omega
    rw [List.drop_eq_getElem_cons hlt] at hr
    rw [hline]
    exact ⟨hr.header_val, copyLine_holds hr⟩

theorem Keeps.length_le (hk : Keeps h ls) : ls.length ≤ ringHistoryLen :=
  (length_le_size ls).trans (hk.records.room.trans (Nat.sub_le _ _))

/-- Up: one line further back, if there is one. -/
theorem Keeps.restore_up (hk : Keeps h ls) (line : Cells Byte) (hcur : h.cur ≤ ls.length) :
    if h.cur < ls.length then ∃ line',
      h.histRestoreLine line .up = some (some (lineAt ls.reverse (h.cur + 1)).length, line',
        { h with cur := h.cur + 1 }) ∧ line'.Holds 0 (lineAt ls.reverse (h.cur + 1))
    else h.histRestoreLine line .up = some (none, line, h) := by
  have hcount := count_eq hk.records hk.length_le
  rw [histRestoreLine, hcount, Option.bind_eq_bind, Option.bind_some, if_pos hcur]
  split_ifs with hlt
  · obtain ⟨header, hseek, hr⟩ := seek_spec h.cur (i := ls.length - (h.cur + 1))
      (k := ls.length - 1) hk.records hk.length_le (Nat.sub_le _ _) (by omega) (by omega)
    obtain ⟨hval, hholds⟩ := hr.lineAt hlt (line.write 0 (List.replicate commandLineLen 0))
    have hne : h.ringBuf header ≠ 0 := by
      rw [List.drop_eq_getElem_cons (by omega)] at hr
      exact hr.header_ne_zero
    refine ⟨_, ?_, hholds⟩
    rw [hseek, Option.bind_some, if_pos hne, hval]
  · obtain ⟨header, hseek, hr⟩ := seek_spec h.cur (i := ls.length)
      (k := ls.length - 1) hk.records hk.length_le le_rfl (by omega) (by omega)
    rw [List.drop_length] at hr
    rw [hseek, Option.bind_some, if_neg (not_not.mpr hr.header_nil)]

/-- Down: one line less far back, and an empty line in the end. -/
theorem Keeps.restore_down (hk : Keeps h ls) (line : Cells Byte) (hcur : h.cur ≤ ls.length) :
    ∃ line', h.histRestoreLine line .down = some (some (lineAt ls.reverse (h.cur - 1)).length,
      line', { h with cur := h.cur - 1 }) ∧ line'.Holds 0 (lineAt ls.reverse (h.cur - 1)) := by
  have hcount := count_eq hk.records hk.length_le
  rw [histRestoreLine, hcount, Option.bind_eq_bind, Option.bind_some]
  split_ifs with hpos
  · obtain ⟨header, hseek, hr⟩ := seek_spec (h.cur - 1) (i := ls.length - (h.cur - 1))
      (k := ls.length) hk.records hk.length_le (Nat.sub_le _ _) (by omega) (by omega)
    obtain ⟨hval, hholds⟩ := hr.lineAt (by omega) line
    refine ⟨_, ?_, hholds⟩
    dsimp only
    rw [hseek, Option.bind_some, hval]
  · obtain hzero : h.cur = 0 := by omega
    refine ⟨line, ?_, ?_⟩
    · rw [hzero]
      rcases h
      cases hzero
      rfl
    · rw [hzero]
      exact holds_nil

end RingHistory

end Chino
