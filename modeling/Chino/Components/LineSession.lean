import Chino.Components.LineEditor
import Mathlib.Data.List.Basic
import Mathlib.Logic.Function.Iterate

/-!
# What somebody writes is what is read

The line editor shows a draft: `Reflects` says that the bytes of the line are the text, what is
hidden behind it and a terminator, and that the ring has the lines entered so far.  Every edit keeps
it, so the lines that are read are those that somebody has written (`lines_typed`).

## The proof

* `Reflects` relates one line: the bytes are `before ++ after ++ hidden` with a terminator, the
  length and the cursor are those of the two parts, and the ring keeps the lines entered so far
  (`Chino.Components.HistoryRecords`).
* Most keys write nothing: they move the cursor or cut the text, which is the same bytes split
  another way (`Reflects.resplit`).  Inserting, deleting and fetching a line from the history are
  the others.
* `Shows` adds where in an escape sequence the characters are.  `Shows.type` is one character,
  `Shows.readLoop` a line, by induction on the characters, and the theorem goes over the reads.

A line is freed before the next one is read, as the callers in the source do it; freeing clears the
bytes of the line and leaves the ring alone.
-/

set_option autoImplicit false

namespace Chino

/-- A draft from which so many characters are deleted. -/
theorem Draft.backspace_iterate {n : ℕ} {d : Draft} (hn : d.before.length = n) :
    Draft.backspace^[n] d = d.killBefore := by
  induction n generalizing d with
  | zero => exact (if_pos (List.length_eq_zero_iff.mp hn)).symm
  | succ n ih =>
    have hne : d.before ≠ [] := by
      rintro hnil
      rw [hnil] at hn
      cases hn
    have hnext : d.backspace.before.length = n := by
      rw [backspace, if_neg hne, List.length_dropLast, hn, Nat.add_sub_cancel]
    rw [Function.iterate_succ_apply, ih hnext, killBefore, killBefore, if_neg hne, backspace,
      if_neg hne]
    dsimp only
    rcases hlast : d.before.dropLast with _ | ⟨c, before⟩
    · rw [if_pos rfl]
    · rw [if_neg (List.cons_ne_nil c before), List.take_take, Nat.min_self]

namespace Microrl

open Cells (Holds holds_append holds_cons holds_nil holds_write holds_move)
open RingHistory (IsShort Keeps Records lineAt)
open History (keep capacity)

variable {m : Microrl} {d : Draft} {ring cmdline : Cells Byte}

/-- The bytes of the line and the history are those of a draft. -/
structure Reflects (m : Microrl) (d : Draft) : Prop where
  before : m.cmdline.Holds 0 d.before
  after : m.cmdline.Holds d.before.length d.after
  behind : m.cmdline.Holds (d.before.length + d.after.length) (d.hidden ++ [0])
  cursor : m.cursor = d.before.length
  cmdlen : m.cmdlen = d.before.length + d.after.length
  fits : d.before.length + d.after.length + d.hidden.length < commandLineLen
  nonzero : (0 : Byte) ∉ d.before ++ (d.after ++ d.hidden)
  keeps : Keeps m.ringHist d.recent.reverse
  cur : m.ringHist.cur = d.back
  back_le : d.back ≤ d.recent.length
  entered : ∀ l ∈ d.entered, IsShort l ∧ 0 ∉ l

/-- What the edits do not change. -/
def control (m : Microrl) : EscSeq × Bool × Bool × Bool :=
  (m.escapeSeq, m.escape, m.eot, m.waitNewline)

/-! ## Edits -/

/-- The same bytes, with the cursor or the end at another place. -/
theorem Reflects.resplit (h : Reflects m d) {m' : Microrl} {before after hidden : Text}
    (heq : before ++ (after ++ hidden) = d.before ++ (d.after ++ d.hidden))
    (hline : m'.cmdline = m.cmdline) (hhist : m'.ringHist = m.ringHist)
    (hcursor : m'.cursor = before.length) (hcmdlen : m'.cmdlen = before.length + after.length) :
    Reflects m' { d with before, after, hidden } := by
  have hall : m.cmdline.Holds 0 (d.before ++ (d.after ++ (d.hidden ++ [0]))) := by
    rw [holds_append, holds_append, Nat.zero_add]
    exact ⟨h.before, h.after, h.behind⟩
  have hsplit : m'.cmdline.Holds 0 (before ++ (after ++ (hidden ++ [0]))) := by
    have happ := congrArg (· ++ [(0 : Byte)]) heq
    simp only [List.append_assoc] at happ
    rwa [happ, hline]
  rw [holds_append, holds_append, Nat.zero_add] at hsplit
  have hlength := congrArg List.length heq
  simp only [List.length_append] at hlength
  have hfits := h.fits
  exact
    { before := hsplit.1, after := hsplit.2.1, behind := hsplit.2.2
      cursor := hcursor, cmdlen := hcmdlen
      fits := by dsimp only; omega
      nonzero := heq ▸ h.nonzero
      keeps := hhist ▸ h.keeps, cur := hhist ▸ h.cur, back_le := h.back_le, entered := h.entered }

theorem Reflects.cursorRight (h : Reflects m d) : Reflects m.cursorRight d.right := by
  have hcursor := h.cursor
  have hcmdlen := h.cmdlen
  rw [Microrl.cursorRight, Draft.right]
  rcases hafter : d.after with _ | ⟨c, after⟩
  · rw [hafter, List.length_nil] at hcmdlen
    rwa [if_neg (by omega)]
  · rw [hafter, List.length_cons] at hcmdlen
    rw [if_pos (by omega)]
    refine h.resplit ?_ rfl rfl ?_ ?_
    · rw [hafter, List.append_assoc, List.singleton_append, List.cons_append]
    · rw [List.length_append, List.length_singleton, hcursor]
    · rw [List.length_append, List.length_singleton]
      dsimp only
      omega

theorem Reflects.cursorLeft (h : Reflects m d) : Reflects m.cursorLeft d.left := by
  have hcursor := h.cursor
  have hcmdlen := h.cmdlen
  rw [Microrl.cursorLeft, Draft.left]
  rcases List.eq_nil_or_concat' d.before with hbefore | ⟨before, c, hbefore⟩
  · rw [hbefore] at hcursor ⊢
    rwa [if_neg (by rw [hcursor]; exact Nat.lt_irrefl 0)]
  · rw [hbefore, List.length_append, List.length_singleton] at hcursor hcmdlen
    rw [if_pos (by omega), hbefore, List.getLast?_concat, List.dropLast_concat]
    refine h.resplit ?_ rfl rfl ?_ ?_
    · rw [hbefore, List.append_assoc, List.singleton_append, List.cons_append]
    · dsimp only
      omega
    · rw [List.length_cons]
      dsimp only
      omega

theorem Reflects.home (h : Reflects m d) : Reflects { m with cursor := 0 } d.home := by
  refine h.resplit ?_ rfl rfl rfl ?_
  · rw [List.nil_append, Draft.text, List.append_assoc]
  · rw [List.length_nil, Nat.zero_add, Draft.text, List.length_append]
    exact h.cmdlen

theorem Reflects.toEnd (h : Reflects m d) : Reflects { m with cursor := m.cmdlen } d.toEnd := by
  have hlength : m.cmdlen = d.text.length := by
    rw [Draft.text, List.length_append]
    exact h.cmdlen
  refine h.resplit ?_ rfl rfl hlength ?_
  · rw [List.nil_append, Draft.text, List.append_assoc]
  · exact hlength

theorem Reflects.killAfter (h : Reflects m d) :
    Reflects { m with cmdlen := m.cursor } d.killAfter :=
  h.resplit rfl rfl rfl h.cursor h.cursor

theorem Reflects.insert (h : Reflects m d) {c : Byte} (hc : c ≠ 0) :
    Reflects (m.insertText [c]) (d.insert c) := by
  have hcursor := h.cursor
  have hcmdlen := h.cmdlen
  rw [insertText, Draft.insert, Draft.text, List.length_append, ← hcmdlen, List.length_singleton]
  dsimp only
  split_ifs with hfits
  swap
  · exact h
  have hlen : m.cmdlen - m.cursor = d.after.length := by omega
  rw [hlen]
  have hmoved : (m.cmdline.move (m.cursor + 1) m.cursor d.after.length).Holds (m.cursor + 1)
      d.after := holds_move (hcursor ▸ h.after)
  have hbefore : (m.cmdline.move (m.cursor + 1) m.cursor d.after.length).Holds 0 d.before :=
    h.before.move (Or.inl (by omega))
  have hnonzero := h.nonzero
  simp only [List.mem_append, not_or] at hnonzero
  exact
    { before := by
        refine holds_append.mpr ⟨(hbefore.write (Or.inl ?_)).write (Or.inl ?_), ?_⟩
        · omega
        · omega
        · rw [Nat.zero_add, ← hcursor]
          exact holds_write.write (Or.inl (by rw [List.length_singleton]; omega))
      after := by
        rw [List.length_append, ← hcursor]
        exact (hmoved.write (Or.inr (Nat.le_refl _))).write (Or.inl (by omega))
      behind := by
        rw [List.length_append, ← hcursor, List.length_singleton, List.nil_append]
        have hend : m.cursor + 1 + d.after.length = m.cmdlen + 1 := by omega
        rw [hend]
        exact holds_write
      cursor := by rw [List.length_append, ← hcursor]; rfl
      cmdlen := by
        rw [List.length_append, List.length_singleton]
        dsimp only
        omega
      fits := by
        rw [List.length_append, List.length_singleton, List.length_nil]
        dsimp only
        omega
      nonzero := by simp [hnonzero, hc.symm]
      keeps := h.keeps, cur := h.cur, back_le := h.back_le, entered := h.entered }

theorem Reflects.backspace (h : Reflects m d) : Reflects m.backspace d.backspace := by
  have hcursor := h.cursor
  have hcmdlen := h.cmdlen
  rw [Microrl.backspace, Draft.backspace]
  rcases List.eq_nil_or_concat' d.before with hnil | ⟨before, c, hbefore⟩
  · rw [hnil] at hcursor
    rwa [if_neg (by rw [hcursor]; exact Nat.lt_irrefl 0), if_pos hnil]
  have hone : d.before.length = before.length + 1 := by
    rw [hbefore, List.length_append, List.length_singleton]
  rw [if_pos (by omega), if_neg (by rw [hbefore]; simp), hbefore, List.dropLast_concat]
  have hfront : m.cursor - 1 = before.length := by omega
  have hfits := h.fits
  have hnonzero := h.nonzero
  simp only [hbefore, List.mem_append, not_or] at hnonzero
  -- the text behind the cursor moves, and with it the byte that is behind the text
  obtain ⟨x, rest, hrest⟩ : ∃ x rest, d.hidden ++ [0] = x :: rest :=
    List.exists_cons_of_ne_nil (by simp)
  have hmoving : m.cmdline.Holds m.cursor (d.after ++ [x]) := by
    have hbehind := h.behind
    rw [hrest, holds_cons] at hbehind
    rw [holds_append, hcursor]
    exact ⟨h.after, holds_cons.mpr ⟨hbehind.1, holds_nil⟩⟩
  have hlen : m.cmdlen - m.cursor + 1 = (d.after ++ [x]).length := by
    rw [List.length_append, List.length_singleton]
    omega
  rw [hlen, hfront]
  set moved := m.cmdline.move before.length m.cursor (d.after ++ [x]).length
  have hmoved : moved.Holds before.length (d.after ++ [x]) := holds_move hmoving
  have hkept : moved.Holds 0 before := by
    have hall := h.before
    rw [hbefore, holds_append] at hall
    exact hall.1.move (Or.inl (by omega))
  rw [holds_append] at hmoved
  have hlast : (moved.write m.cmdlen [0]).Holds (before.length + d.after.length) [x] :=
    hmoved.2.write (Or.inl (by rw [List.length_singleton]; omega))
  exact
    { before := hkept.write (Or.inl (by omega))
      after := hmoved.1.write (Or.inl (by omega))
      behind := by
        rcases hhidden : d.hidden with _ | ⟨y, hidden⟩
        · rw [hhidden] at hrest
          cases hrest
          exact hlast
        · rw [hhidden] at hrest
          cases hrest
          have hend : before.length + d.after.length + 1 = m.cmdlen := by omega
          rw [List.take_succ_cons, List.take_zero, holds_append, List.length_singleton, hend]
          exact ⟨hlast, holds_write⟩
      cursor := rfl
      cmdlen := by
        dsimp only
        omega
      fits := by
        have := List.length_take_le 1 d.hidden
        have := List.length_take_le' 1 d.hidden
        dsimp only
        omega
      nonzero := by
        simp only [List.mem_append, not_or]
        exact ⟨hnonzero.1.1, hnonzero.2.1, fun hmem ↦ hnonzero.2.2 (List.mem_of_mem_take hmem)⟩
      keeps := h.keeps, cur := h.cur, back_le := h.back_le, entered := h.entered }

theorem Reflects.backspace_iterate (h : Reflects m d) (n : ℕ) :
    Reflects (Microrl.backspace^[n] m) (Draft.backspace^[n] d) := by
  induction n generalizing m d with
  | zero => exact h
  | succ n ih =>
    rw [Function.iterate_succ_apply, Function.iterate_succ_apply]
    exact ih h.backspace

theorem Reflects.killBefore (h : Reflects m d) :
    Reflects (Microrl.backspace^[m.cursor] m) d.killBefore := by
  rw [← Draft.backspace_iterate h.cursor.symm]
  exact h.backspace_iterate m.cursor

/-! ## The history -/

theorem lineAt_mem (recent : List Text) (back : ℕ) :
    lineAt recent back = [] ∨ lineAt recent back ∈ recent := by
  rcases hget : ([] :: recent)[back]? with _ | l
  · exact Or.inl (List.getD_eq_default _ _ (List.getElem?_eq_none_iff.mp hget))
  · have hline : lineAt recent back = l := by
      rw [lineAt, List.getD_eq_getElem?_getD, hget, Option.getD_some]
    rw [hline]
    exact List.mem_cons.mp (List.mem_of_getElem? hget)

theorem Reflects.fetch (h : Reflects m d) {back : ℕ} (hback : back ≤ d.recent.length)
    {line : Cells Byte} (hline : line.Holds 0 (lineAt d.recent back)) :
    Reflects { m with
      ringHist := { m.ringHist with cur := back }
      cmdline := line.write (lineAt d.recent back).length [0]
      cursor := (lineAt d.recent back).length
      cmdlen := (lineAt d.recent back).length } (d.fetch back) := by
  have hgood : (lineAt d.recent back).length < commandLineLen ∧ 0 ∉ lineAt d.recent back := by
    rcases lineAt_mem d.recent back with hnil | hmem
    · rw [hnil]
      exact ⟨by decide, List.not_mem_nil⟩
    · obtain ⟨hshort, hzero⟩ := h.entered _ (History.mem_of_mem_keep hmem)
      refine ⟨?_, hzero⟩
      have := hshort.2
      unfold ringHistoryLen at this
      unfold commandLineLen
      omega
  exact
    { before := hline.write (Or.inl (by omega))
      after := holds_nil
      behind := holds_write
      cursor := rfl
      cmdlen := rfl
      fits := hgood.1
      nonzero := by
        rw [Draft.fetch, List.append_nil, List.append_nil]
        exact hgood.2
      keeps := ⟨h.keeps.records, h.keeps.endPos⟩
      cur := rfl
      back_le := hback
      entered := h.entered }

theorem Reflects.histSearch_up (h : Reflects m d) :
    ∃ m', m.histSearch .up = some m' ∧ Reflects m' d.up ∧ m'.control = m.control := by
  have hup := h.keeps.restore_up m.cmdline (by
    rw [h.cur, List.length_reverse]
    exact h.back_le)
  rw [h.cur, List.length_reverse, List.reverse_reverse] at hup
  rw [histSearch, Draft.up]
  split_ifs at hup ⊢ with hlt
  · obtain ⟨line, hrestore, hline⟩ := hup
    rw [hrestore]
    exact ⟨_, rfl, h.fetch hlt hline, rfl⟩
  · rw [hup]
    exact ⟨_, rfl, h, rfl⟩

theorem Reflects.histSearch_down (h : Reflects m d) :
    ∃ m', m.histSearch .down = some m' ∧ Reflects m' d.down ∧ m'.control = m.control := by
  obtain ⟨line, hrestore, hline⟩ := h.keeps.restore_down m.cmdline (by
    rw [h.cur, List.length_reverse]
    exact h.back_le)
  rw [h.cur, List.reverse_reverse] at hrestore hline
  rw [histSearch, hrestore]
  exact ⟨_, rfl, h.fetch ((Nat.sub_le _ _).trans h.back_le) hline, rfl⟩

/-! ## Keys -/

theorem control_cursorRight (m : Microrl) : m.cursorRight.control = m.control := by
  unfold cursorRight
  split_ifs <;> rfl

theorem control_cursorLeft (m : Microrl) : m.cursorLeft.control = m.control := by
  unfold cursorLeft
  split_ifs <;> rfl

theorem control_insertText (m : Microrl) (text : Text) :
    (m.insertText text).control = m.control := by
  unfold insertText
  dsimp only
  split_ifs <;> rfl

theorem control_backspace (m : Microrl) : m.backspace.control = m.control := by
  unfold backspace
  split_ifs <;> rfl

theorem control_backspace_iterate (m : Microrl) (n : ℕ) :
    (backspace^[n] m).control = m.control := by
  induction n generalizing m with
  | zero => rfl
  | succ n ih => rw [Function.iterate_succ_apply, ih, control_backspace]

/-- The fields that the bytes do not depend on. -/
theorem Reflects.of_control (h : Reflects m d) (seq : EscSeq) (escape eot wait : Bool) :
    Reflects { m with escapeSeq := seq, escape, eot, waitNewline := wait } d :=
  h.resplit rfl rfl rfl h.cursor h.cmdlen

theorem control_eq {m m' : Microrl} (h : m'.control = m.control) : m'.escapeSeq = m.escapeSeq ∧
    m'.escape = m.escape ∧ m'.eot = m.eot ∧ m'.waitNewline = m.waitNewline := by
  simpa only [control, Prod.mk.injEq] using h

/-- A character of an escape sequence. -/
theorem Reflects.escapeProcess (h : Reflects m d) {seq : EscSeq} (hseq : m.escapeSeq = seq)
    (ch : Byte) :
    ∃ m', m.escapeProcess ch = some (!(Decoder.sequence seq ch).2.escape, m') ∧
      Reflects m' ((Decoder.sequence seq ch).1.apply d) ∧
      m'.control = ((Decoder.sequence seq ch).2.escapeSeq, m.escape, m.eot, m.waitNewline) := by
  have hcontrol : m.control = (seq, m.escape, m.eot, m.waitNewline) := by rw [control, hseq]
  rw [Microrl.escapeProcess, hseq]
  by_cases hbracket : ch = 91
  · subst hbracket
    exact ⟨_, rfl, h.of_control .bracket m.escape m.eot m.waitNewline, rfl⟩
  rw [if_neg hbracket, Decoder.sequence.eq_def, if_neg hbracket]
  rcases seq with _ | _ | _ | _
  case bracket =>
    by_cases hup : ch = 65
    · subst hup
      obtain ⟨m', hm', hreflects, hm⟩ := h.histSearch_up
      exact ⟨m', congrArg (Option.map (true, ·)) hm', hreflects, hm.trans hcontrol⟩
    by_cases hdown : ch = 66
    · subst hdown
      obtain ⟨m', hm', hreflects, hm⟩ := h.histSearch_down
      exact ⟨m', congrArg (Option.map (true, ·)) hm', hreflects, hm.trans hcontrol⟩
    by_cases hright : ch = 67
    · subst hright
      exact ⟨_, rfl, h.cursorRight, (control_cursorRight m).trans hcontrol⟩
    by_cases hleft : ch = 68
    · subst hleft
      exact ⟨_, rfl, h.cursorLeft, (control_cursorLeft m).trans hcontrol⟩
    by_cases hhome : ch = 55
    · subst hhome
      exact ⟨_, rfl, h.of_control .home m.escape m.eot m.waitNewline, rfl⟩
    by_cases hlast : ch = 56
    · subst hlast
      exact ⟨_, rfl, h.of_control .last m.escape m.eot m.waitNewline, rfl⟩
    simp only [hup, hdown, hright, hleft, hhome, hlast, and_false, if_true, if_false]
    exact ⟨m, rfl, h, hcontrol⟩
  case home =>
    by_cases htilde : ch = 126
    · subst htilde
      exact ⟨_, rfl, h.home.of_control .home m.escape m.eot m.waitNewline, rfl⟩
    · simp only [htilde, reduceCtorEq, false_and, if_false]
      exact ⟨m, rfl, h, hcontrol⟩
  case last =>
    by_cases htilde : ch = 126
    · subst htilde
      exact ⟨_, rfl, h.toEnd.of_control .last m.escape m.eot m.waitNewline, rfl⟩
    · simp only [htilde, reduceCtorEq, false_and, if_false]
      exact ⟨m, rfl, h, hcontrol⟩
  case start =>
    simp only [reduceCtorEq, false_and, if_false, ite_self]
    exact ⟨m, rfl, h, hcontrol⟩

/-- The bytes are those of the desk while somebody writes. -/
structure Shows (m : Microrl) (d : Desk) : Prop where
  draft : Reflects m d.draft
  escapeSeq : m.escapeSeq = d.decoder.escapeSeq
  escape : m.escape = d.decoder.escape
  eot : m.eot = false

/-- A key that is an edit. -/
theorem Shows.of_edit {d : Desk} (h : Shows m d) (hescape : d.decoder.escape = false)
    (hwait : m.waitNewline = true) {m' : Microrl} {draft : Draft} (hm : Reflects m' draft)
    (hcontrol : m'.control = m.control) : ∃ m'', some m' = some m'' ∧ m''.waitNewline = true ∧
      Shows m'' ⟨draft, ⟨false, d.decoder.escapeSeq⟩⟩ := by
  obtain ⟨hseq, hesc, heot, hw⟩ := control_eq hcontrol
  exact ⟨m', rfl, hw.trans hwait,
    ⟨hm, hseq.trans h.escapeSeq, hesc.trans (h.escape.trans hescape), heot.trans h.eot⟩⟩

theorem Shows.insert {d : Desk} (h : Shows m d) (ch : Byte) : ∃ m',
    (if ch = 32 ∧ m.cmdlen = 0 ∨ ch ≤ 31 then some m else some (m.insertText [ch])) = some m' ∧
      Reflects m' ((if ch ≤ 31 then Edit.nothing else .insert ch).apply d.draft) ∧
      m'.control = m.control := by
  have hempty : m.cmdlen = 0 ↔ d.draft.text = [] := by
    rw [h.draft.cmdlen, Draft.text, ← List.length_append, List.length_eq_zero_iff]
  by_cases hcode : ch ≤ 31
  · rw [if_pos (Or.inr hcode), if_pos hcode]
    exact ⟨m, rfl, h.draft, rfl⟩
  rw [if_neg hcode, Edit.apply]
  dsimp only
  by_cases hblank : ch = 32 ∧ d.draft.text = []
  · rw [if_pos (Or.inl ⟨hblank.1, hempty.mpr hblank.2⟩), if_pos hblank]
    exact ⟨m, rfl, h.draft, rfl⟩
  · have hzero : ch ≠ 0 := by
      rintro rfl
      exact hcode (by decide)
    rw [if_neg, if_neg hblank]
    · exact ⟨_, rfl, h.draft.insert hzero, control_insertText m [ch]⟩
    · rintro (⟨hch, hlen⟩ | hch)
      · exact hblank ⟨hch, hempty.mp hlen⟩
      · exact hcode hch

/-- A key that does not end the line. -/
theorem Shows.type {d : Desk} (h : Shows m d) (hwait : m.waitNewline = true) {ch : Byte}
    (hline : d.decoder.escape = true ∨ Key.of ch ≠ .lf ∧ Key.of ch ≠ .eot) :
    ∃ m', m.insertChar ch = some m' ∧ m'.waitNewline = true ∧ Shows m' (d.type ch) := by
  rcases hescape : d.decoder.escape with _ | _
  · have hkeys : Key.of ch ≠ .lf ∧ Key.of ch ≠ .eot :=
      hline.resolve_left (by rw [hescape]; exact nofun)
    have hinsert := h.insert ch
    have hedit {m' : Microrl} {draft : Draft} (hm : Reflects m' draft)
        (hcontrol : m'.control = m.control) := h.of_edit hescape hwait hm hcontrol
    have hd := h.draft
    have hnot : ¬d.decoder.escape = true := ne_true_of_eq_false hescape
    rw [insertChar, if_neg (h.escape ▸ hnot), Desk.type, if_neg hnot, Decoder.key]
    rcases hkey : Key.of ch
    case lf => exact absurd hkey hkeys.1
    case eot => exact absurd hkey hkeys.2
    case esc =>
      exact ⟨_, rfl, hwait, ⟨hd.of_control m.escapeSeq true m.eot m.waitNewline, h.escapeSeq, rfl,
        h.eot⟩⟩
    case nak => exact hedit hd.killBefore (control_backspace_iterate m m.cursor)
    case vt => exact hedit hd.killAfter rfl
    case enq => exact hedit hd.toEnd rfl
    case soh => exact hedit hd.home rfl
    case ack => exact hedit hd.cursorRight (control_cursorRight m)
    case stx => exact hedit hd.cursorLeft (control_cursorLeft m)
    case bs => exact hedit hd.backspace (control_backspace m)
    case dle =>
      obtain ⟨m', hm', hreflects, hcontrol⟩ := hd.histSearch_up
      dsimp only
      rw [hm']
      exact hedit hreflects hcontrol
    case so =>
      obtain ⟨m', hm', hreflects, hcontrol⟩ := hd.histSearch_down
      dsimp only
      rw [hm']
      exact hedit hreflects hcontrol
    case other =>
      obtain ⟨m', hm', hreflects, hcontrol⟩ := hinsert
      dsimp only
      rw [hm']
      exact hedit hreflects hcontrol
    all_goals exact hedit hd rfl
  · obtain ⟨m', hm', hreflects, hcontrol⟩ := h.draft.escapeProcess h.escapeSeq ch
    obtain ⟨hseq, hesc, heot, hw⟩ : m'.escapeSeq = _ ∧ m'.escape = _ ∧ m'.eot = _ ∧
        m'.waitNewline = _ := by
      simpa only [control, Prod.mk.injEq] using hcontrol
    rw [insertChar, if_pos (h.escape.trans hescape), hm', Desk.type, if_pos hescape]
    rcases hover : (Decoder.sequence d.decoder.escapeSeq ch).2.escape with _ | _
    · exact ⟨_, rfl, hw.trans hwait, ⟨hreflects.of_control m'.escapeSeq false m'.eot m'.waitNewline,
        hseq, hover.symm, heot.trans h.eot⟩⟩
    · exact ⟨_, rfl, hw.trans hwait,
        ⟨hreflects, hseq, (hesc.trans (h.escape.trans hescape)).trans hover.symm, heot.trans h.eot⟩⟩

/-! ## Lines -/

theorem Reflects.text_holds (h : Reflects m d) : m.cmdline.Holds 0 d.text := by
  rw [Draft.text, holds_append, Nat.zero_add]
  exact ⟨h.before, h.after⟩

theorem Reflects.length_text (h : Reflects m d) : m.cmdlen = d.text.length := by
  rw [Draft.text, List.length_append]
  exact h.cmdlen

theorem Reflects.zero_notMem (h : Reflects m d) : 0 ∉ d.text := by
  intro hmem
  refine h.nonzero ?_
  rw [← List.append_assoc]
  exact List.mem_append_left _ hmem

theorem Draft.enter_of_short (h : IsShort d.text) :
    d.enter = { d with entered := d.text :: d.entered, back := 0 } := if_pos h

theorem Draft.enter_of_not_short (h : ¬IsShort d.text) : d.enter = d := if_neg h

theorem Draft.enter_line (d : Draft) : d.enter.text ++ d.enter.hidden = d.text ++ d.hidden := by
  unfold Draft.enter
  split_ifs <;> rfl

/-- What the history is after a line. -/
theorem Reflects.saved (h : Reflects m d) : ∃ hist, m.savedHist = some hist ∧
    Keeps hist d.enter.recent.reverse ∧ hist.cur = d.enter.back := by
  rw [savedHist, h.length_text, h.text_holds.read_eq]
  by_cases hshort : IsShort d.text
  · rw [if_pos hshort.1, Draft.enter_of_short hshort]
    obtain ⟨hist, hsave, hcur, hkeeps⟩ := h.keeps.saveLine hshort
    refine ⟨hist, hsave, ?_, hcur⟩
    have hroom : d.text.length + 1 ≤ capacity := by
      have := hshort.2
      unfold capacity ringHistoryLen at *
      omega
    rw [Draft.recent, keep, if_pos hroom, List.reverse_cons]
    rwa [List.reverse_reverse, Draft.recent, History.keep_keep (Nat.sub_le _ _)] at hkeeps
  · rw [Draft.enter_of_not_short hshort]
    refine ⟨m.ringHist, ?_, h.keeps, h.cur⟩
    split_ifs with hpos
    · rw [RingHistory.histSaveLine]
      exact if_pos (Nat.lt_of_not_le fun hle ↦ hshort ⟨hpos, hle⟩)
    · rfl

/-- The bytes of the line stay, and with them what is hidden. -/
theorem Reflects.enter (h : Reflects m d) {hist : RingHistory}
    (hkeeps : Keeps hist d.enter.recent.reverse) (hcur : hist.cur = d.enter.back) :
    Reflects { m with ringHist := hist, waitNewline := false } d.enter := by
  by_cases hshort : IsShort d.text
  · rw [Draft.enter_of_short hshort] at *
    exact
      { before := h.before, after := h.after, behind := h.behind, cursor := h.cursor
        cmdlen := h.cmdlen, fits := h.fits, nonzero := h.nonzero, keeps := hkeeps, cur := hcur
        back_le := Nat.zero_le _
        entered := by
          rw [List.forall_mem_cons]
          exact ⟨⟨hshort, h.zero_notMem⟩, h.entered⟩ }
  · rw [Draft.enter_of_not_short hshort] at *
    exact { h with keeps := hkeeps, cur := hcur }

/-- The line is finished. -/
theorem Reflects.newLine (h : Reflects m d) (hwait : m.waitNewline = true) :
    ∃ m', m.newLineHandler = some m' ∧ m'.waitNewline = false ∧ m'.eot = m.eot ∧
      m'.escape = m.escape ∧ m'.escapeSeq = m.escapeSeq ∧ Reflects m' d.enter := by
  obtain ⟨hist, hsave, hkeeps, hcur⟩ := h.saved
  rw [newLineHandler, hsave]
  exact ⟨_, if_pos hwait, rfl, rfl, rfl, rfl, h.enter hkeeps hcur⟩

theorem holds_cleared (cmdline : Cells Byte) : (cleared cmdline).Holds 0 [0] := by
  have hall : (cleared cmdline).Holds 0 (List.replicate commandLineLen 0) := holds_write
  exact holds_cons.mpr ⟨(holds_cons.mp hall).1, holds_nil⟩

theorem Reflects.free (h : Reflects m d) : Reflects m.free d.clear :=
  { before := holds_nil, after := holds_nil, behind := holds_cleared m.cmdline, cursor := rfl
    cmdlen := rfl, fits := Nat.succ_pos 100, nonzero := List.not_mem_nil
    keeps := ⟨h.keeps.records, h.keeps.endPos⟩
    cur := rfl, back_le := Nat.zero_le _, entered := h.entered }

theorem shows_init (ring cmdline : Cells Byte) : Shows (init ring cmdline) .empty where
  draft :=
    { before := holds_nil, after := holds_nil, behind := holds_cleared cmdline, cursor := rfl
      cmdlen := rfl, fits := by decide, nonzero := List.not_mem_nil
      keeps :=
        { records :=
            { lt := Nat.succ_pos 63
              short := nofun
              room := Nat.zero_le _
              holds := holds_cons.mpr ⟨rfl, holds_nil⟩ }
          endPos := rfl }
      cur := rfl, back_le := Nat.le_refl 0, entered := nofun }
  escapeSeq := rfl
  escape := rfl
  eot := rfl

theorem readLoop_cons {m' : Microrl} {ch : Byte} (h : m.insertChar ch = some m')
    (input : List Byte) : m.readLoop (ch :: input) =
      if m'.waitNewline then m'.readLoop input else some (m', input) := by
  rw [readLoop, h, Option.bind_eq_bind, Option.bind_some]

theorem insertChar_lf {ch : Byte} (hescape : m.escape = false) (hkey : Key.of ch = .lf) :
    m.insertChar ch = m.newLineHandler := by
  rw [insertChar, if_neg (ne_true_of_eq_false hescape), hkey]

theorem insertChar_eot {ch : Byte} (hescape : m.escape = false) (hkey : Key.of ch = .eot) :
    m.insertChar ch = newLineHandler { m with eot := true } := by
  rw [insertChar, if_neg (ne_true_of_eq_false hescape), hkey]

/-- The string that is returned is the text with what is hidden behind it. -/
theorem Reflects.stringAt (h : Reflects m d) :
    LineMemory.stringAt m.cmdline commandLineLen 0 = some (d.text ++ d.hidden) := by
  have hfits := h.fits
  refine LineMemory.stringAt_eq ?_ ?_ ?_
  · rw [List.append_assoc, holds_append, Nat.zero_add, Draft.text, List.length_append]
    exact ⟨h.text_holds, h.behind⟩
  · rw [Draft.text, List.append_assoc]
    exact h.nonzero
  · rw [Draft.text, List.length_append, List.length_append]
    omega

/-- Reading a line. -/
theorem Shows.readLoop {d : Desk} (h : Shows m d) (hwait : m.waitNewline = true)
    (input : List Byte) :
    match d.readline input with
    | none => m.readLoop input = none
    | some (none, _, rest) => ∃ m', m.readLoop input = some (m', rest) ∧ m'.eot = true
    | some (some line, d', rest) => ∃ m', m.readLoop input = some (m', rest) ∧ Shows m' d' ∧
        LineMemory.stringAt m'.cmdline commandLineLen 0 = some line := by
  induction input generalizing m d with
  | nil => rfl
  | cons ch input ih =>
    rw [Desk.readline]
    by_cases hlf : d.decoder.escape = false ∧ Key.of ch = .lf
    · obtain ⟨m', hm', hw, heot, hesc, hseq, hreflects⟩ := h.draft.newLine hwait
      have hread := readLoop_cons ((insertChar_lf (h.escape.trans hlf.1) hlf.2).trans hm') input
      rw [hw] at hread
      rw [if_pos hlf]
      refine ⟨m', hread, ⟨hreflects, hseq.trans h.escapeSeq, hesc.trans h.escape,
        heot.trans h.eot⟩, ?_⟩
      rw [hreflects.stringAt, Draft.enter_line]
    by_cases heof : d.decoder.escape = false ∧ Key.of ch = .eot
    · obtain ⟨m', hm', hw, heot, -⟩ :=
        (h.draft.of_control m.escapeSeq m.escape true m.waitNewline).newLine hwait
      have hread := readLoop_cons ((insertChar_eot (h.escape.trans heof.1) heof.2).trans hm') input
      rw [hw] at hread
      rw [if_neg hlf, if_pos heof]
      exact ⟨m', hread, heot⟩
    · have hline : d.decoder.escape = true ∨ Key.of ch ≠ .lf ∧ Key.of ch ≠ .eot := by
        rcases hescape : d.decoder.escape
        · exact Or.inr ⟨fun hkey ↦ hlf ⟨hescape, hkey⟩, fun hkey ↦ heof ⟨hescape, hkey⟩⟩
        · exact Or.inl rfl
      obtain ⟨m', hm', hw, hshows⟩ := h.type hwait hline
      rw [if_neg hlf, if_neg heof, readLoop_cons hm', if_pos hw]
      exact ih hshows hw

/-- Calling `microrl_readline`. -/
theorem Shows.readline {d : Desk} (h : Shows m d) (input : List Byte) :
    match d.readline input with
    | none => m.readline input = none
    | some (none, _, rest) => ∃ m', m.readline input = some (none, m', rest)
    | some (some line, d', rest) => ∃ m', m.readline input = some (some line, m', rest) ∧
        Shows m' d' := by
  have hwaiting : Shows { m with waitNewline := true } d :=
    ⟨h.draft.of_control m.escapeSeq m.escape m.eot true, h.escapeSeq, h.escape, h.eot⟩
  have hloop := hwaiting.readLoop rfl input
  rcases hread : d.readline input with _ | ⟨_ | line, d', rest⟩
  · rw [hread] at hloop
    rw [Microrl.readline, hloop]
    rfl
  · rw [hread] at hloop
    obtain ⟨m', hm', heot⟩ := hloop
    refine ⟨m', ?_⟩
    rw [Microrl.readline, hm']
    exact if_pos heot
  · rw [hread] at hloop
    obtain ⟨m', hm', hshows, hstring⟩ := hloop
    refine ⟨m', ?_, hshows⟩
    rw [Microrl.readline, hm', Option.bind_eq_bind, Option.bind_some]
    dsimp only
    rw [hshows.eot, hstring]
    rfl

theorem Shows.lines {d : Desk} (h : Shows m d) (n : ℕ) (input : List Byte) :
    m.lines n input = d.lines n input := by
  induction n generalizing m d input with
  | zero => rfl
  | succ n ih =>
    have hread := h.readline input
    rw [Microrl.lines, Desk.lines]
    rcases hdesk : d.readline input with _ | ⟨_ | line, d', rest⟩
    · rw [hdesk] at hread
      rw [hread]
    · rw [hdesk] at hread
      obtain ⟨m', hm'⟩ := hread
      rw [hm']
    · rw [hdesk] at hread
      obtain ⟨m', hm', hshows⟩ := hread
      rw [hm']
      have hfree : Shows m'.free { d' with draft := d'.draft.clear } :=
        ⟨hshows.draft.free, hshows.escapeSeq, hshows.escape, hshows.eot⟩
      exact congrArg (line :: ·) (ih hfree rest)

end Microrl

/-- **What is read is what somebody has written.**  Whatever characters come, the lines that the
editor's ring and buffer of bytes give are those of a text with a cursor and a history that has
the newest lines for which there is room.  Behind a line comes what has been cut off its end since
something was written, or the first character of it if something was deleted after that.  Every line
is freed before the next one is read. -/
theorem lines_typed (ring cmdline : Cells Byte) (n : ℕ) (input : List Byte) :
    (Microrl.init ring cmdline).lines n input = Desk.empty.lines n input :=
  (Microrl.shows_init ring cmdline).lines n input

end Chino
