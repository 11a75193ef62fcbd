import Chino.Library.Circular
import Chino.Ob.Path

/-!
# The history of the line editor

`hist_save_line` and `hist_restore_line` of `components/readline/microrl/src/microrl.c`.  The lines
are in a ring of bytes, each behind its length, and a length of zero is behind the newest one; where
there is no room for another line, the oldest ones go.  A walk from `begin` over the lengths finds a
line, and `cur` says how far back the user has gone.

Lengths and positions are numbers here, as none of them is larger than the ring.  A loop that takes
more rounds than the ring has bytes has no result.

## Why the loops end

Every record has a length of at least one, so a walk over the records goes on by two bytes at least
in each round, and the records of a ring are at most half as many as its bytes.  The model lets each
loop run for as many rounds as the ring has bytes; `Chino.Components.HistoryRecords` shows that this
is enough for every ring that the editor can make.

`History.keep` is the specification of what is forgotten: of a list of lines, the newest one first,
it keeps as many as there is room for, in a row.  `capacity` is the room for lines with their
lengths.
-/

set_option autoImplicit false

namespace Chino

/-- `_RING_HISTORY_LEN` -/
def ringHistoryLen : ℕ := 64

/-- `_COMMAND_LINE_LEN` -/
def commandLineLen : ℕ := 101

/-- `ring_history_t` -/
structure RingHistory where
  ringBuf : Cells Byte
  beginPos : ℕ
  endPos : ℕ
  cur : ℕ

/-- `_HIST_UP` and `_HIST_DOWN` -/
inductive HistDir where
  | up
  | down
deriving DecidableEq

namespace RingHistory

/-- A position that is at most once around. -/
def wrapped (pos : ℕ) : ℕ := if pos ≥ ringHistoryLen then pos - ringHistoryLen else pos

/-- The header behind the line at this one. -/
def nextHeader (ring : Cells Byte) (header : ℕ) : ℕ := wrapped (header + (ring header).val + 1)

/-- `hist_erase_older` -/
def histEraseOlder (h : RingHistory) : RingHistory :=
  { h with beginPos := nextHeader h.ringBuf h.beginPos }

/-- `hist_is_space_for_new` -/
def histIsSpaceForNew (h : RingHistory) (len : ℕ) : Bool :=
  if h.ringBuf h.beginPos = 0 then true
  else if h.endPos ≥ h.beginPos then ringHistoryLen - h.endPos + h.beginPos - 1 > len
  else h.beginPos - h.endPos - 1 > len

/-- The loop of `hist_save_line` -/
def makeSpace (len : ℕ) : ℕ → RingHistory → Option RingHistory
  | 0, h => if h.histIsSpaceForNew len then some h else none
  | n + 1, h => if h.histIsSpaceForNew len then some h else makeSpace len n h.histEraseOlder

/-- `hist_save_line` -/
def histSaveLine (h : RingHistory) (line : Text) : Option RingHistory :=
  let len := line.length
  if len > ringHistoryLen - 2 then some h
  else do
    let h ← makeSpace len ringHistoryLen h
    let ring := if h.ringBuf h.beginPos = 0 then h.ringBuf.write h.beginPos [Fin.ofNat 256 len]
      else h.ringBuf
    let partLen := ringHistoryLen - h.endPos - 1
    let ring := if len < partLen then ring.write (h.endPos + 1) line
      else (ring.write (h.endPos + 1) (line.take partLen)).write 0 (line.drop partLen)
    let ring := ring.write h.endPos [Fin.ofNat 256 len]
    let endPos := wrapped (h.endPos + len + 1)
    some { h with ringBuf := ring.write endPos [0], endPos, cur := 0 }

/-- The number of records from a header on. -/
def count (ring : Cells Byte) : ℕ → ℕ → Option ℕ
  | 0, header => if ring header = 0 then some 0 else none
  | n + 1, header =>
    if ring header = 0 then some 0 else (count ring n (nextHeader ring header)).map (· + 1)

/-- The two loops that look for a record: `cnt - j - 1` and `cnt - j` start at `k`. -/
def seek (ring : Cells Byte) (cur : ℕ) : ℕ → ℤ → ℕ → Option ℕ
  | 0, k, header => if ring header ≠ 0 ∧ k ≠ cur then none else some header
  | n + 1, k, header =>
    if ring header ≠ 0 ∧ k ≠ cur then seek ring cur n (k - 1) (nextHeader ring header)
    else some header

/-- The line behind a header. -/
def copyLine (ring : Cells Byte) (header : ℕ) (line : Cells Byte) : Cells Byte :=
  let len := (ring header).val
  if len + header < ringHistoryLen then line.write 0 (ring.read (header + 1) len)
  else
    let part0 := ringHistoryLen - header - 1
    (line.write 0 (ring.read (header + 1) part0)).write part0 (ring.read 0 (len - part0))

/-- `hist_restore_line`: the length, or `none` for -1, and the line. -/
def histRestoreLine (h : RingHistory) (line : Cells Byte) :
    HistDir → Option (Option ℕ × Cells Byte × RingHistory)
  | .up => do
    let cnt ← count h.ringBuf ringHistoryLen h.beginPos
    if cnt ≥ h.cur then
      let header ← seek h.ringBuf h.cur ringHistoryLen (cnt - 1) h.beginPos
      if h.ringBuf header ≠ 0 then
        let line := line.write 0 (List.replicate commandLineLen 0)
        some (some (h.ringBuf header).val, copyLine h.ringBuf header line,
          { h with cur := h.cur + 1 })
      else some (none, line, h)
    else some (none, line, h)
  | .down => do
    let cnt ← count h.ringBuf ringHistoryLen h.beginPos
    if h.cur > 0 then
      let h := { h with cur := h.cur - 1 }
      let header ← seek h.ringBuf h.cur ringHistoryLen cnt h.beginPos
      some (some (h.ringBuf header).val, copyLine h.ringBuf header line, h)
    else some (some 0, line, h)

end RingHistory

/-! ## Lists of lines -/

namespace History

/-- The bytes that lines take, each with its length. -/
def size (lines : List Text) : ℕ := (lines.map fun l ↦ l.length + 1).sum

/-- As many of the first lines as there is room for. -/
def keep : ℕ → List Text → List Text
  | _, [] => []
  | room, l :: lines => if l.length + 1 ≤ room then l :: keep (room - (l.length + 1)) lines else []

/-- What the ring has room for. -/
def capacity : ℕ := ringHistoryLen - 1

@[simp] theorem size_nil : size [] = 0 := rfl

@[simp] theorem size_cons (l : Text) (lines : List Text) :
    size (l :: lines) = l.length + 1 + size lines := by
  simp [size]

theorem size_append (ls ls' : List Text) : size (ls ++ ls') = size ls + size ls' := by
  simp [size]

@[simp] theorem size_reverse (ls : List Text) : size ls.reverse = size ls := by
  simp [size, List.sum_reverse]

theorem length_le_size (ls : List Text) : ls.length ≤ size ls := by
  induction ls with
  | nil => exact Nat.zero_le _
  | cons l ls ih =>
    rw [List.length_cons, size_cons]
    omega

theorem size_keep_le (room : ℕ) (ls : List Text) : size (keep room ls) ≤ room := by
  induction ls generalizing room with
  | nil => exact Nat.zero_le _
  | cons l ls ih =>
    rw [keep]
    split_ifs with h
    · have := ih (room - (l.length + 1))
      rw [size_cons]
      omega
    · exact Nat.zero_le _

theorem keep_of_size_le {room : ℕ} {ls : List Text} (h : size ls ≤ room) : keep room ls = ls := by
  induction ls generalizing room with
  | nil => rfl
  | cons l ls ih =>
    rw [size_cons] at h
    rw [keep, if_pos (by omega), ih (by omega)]

/-- A last line for which there is no room. -/
theorem keep_append_singleton {room : ℕ} {ls : List Text} {l : Text}
    (h : room < size (ls ++ [l])) : keep room (ls ++ [l]) = keep room ls := by
  induction ls generalizing room with
  | nil =>
    have hroom : ¬l.length + 1 ≤ room := by simpa using h
    exact if_neg hroom
  | cons l' ls ih =>
    rw [List.cons_append, size_cons] at h
    rw [List.cons_append, keep, keep]
    by_cases hl : l'.length + 1 ≤ room
    · rw [if_pos hl, if_pos hl, ih (by omega)]
    · rw [if_neg hl, if_neg hl]

theorem keep_keep {room room' : ℕ} (h : room ≤ room') (ls : List Text) :
    keep room (keep room' ls) = keep room ls := by
  induction ls generalizing room room' with
  | nil => rfl
  | cons l ls ih =>
    rw [keep.eq_2 room', keep.eq_2 room]
    by_cases hl : l.length + 1 ≤ room
    · rw [if_pos (by omega), if_pos hl, keep, if_pos hl, ih (by omega)]
    · rw [if_neg hl]
      split_ifs
      · rw [keep, if_neg hl]
      · rfl

theorem mem_of_mem_keep {room : ℕ} {ls : List Text} {l : Text} (h : l ∈ keep room ls) : l ∈ ls := by
  induction ls generalizing room with
  | nil => exact h
  | cons l' ls ih =>
    rw [keep] at h
    split_ifs at h
    · rcases List.mem_cons.mp h with rfl | hmem
      · exact List.mem_cons_self
      · exact List.mem_cons_of_mem _ (ih hmem)
    · exact absurd h List.not_mem_nil

end History

end Chino
