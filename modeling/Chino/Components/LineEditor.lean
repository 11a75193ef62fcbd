import Chino.Components.HistoryRecords
import Chino.Components.LineStore

/-!
# The line editor

`components/readline/microrl/src/microrl.c`, which the Lua interpreter reads its lines with: the
keys of `microrl_insert_char`, `microrl_readline` and `microrl_free`.  The callbacks are not set, as
there, and what goes to the terminal is left out.

Cutting off the end of the line changes its length only, so the bytes of the end are still there,
and with them what is behind the text when somebody reads it as a string.

## Bytes and text

The first half of the module is the code: `Microrl` has the bytes of the line, their number, the
cursor, the ring, and where in an escape sequence the characters are.  The second half says what it
is for.  A `Draft` is a text with a cursor, as the text in front of it and the text behind it, with
the lines entered so far.  A `Desk` adds the decoder of escape sequences, and `Desk.lines` is what
somebody has written.

What makes this more than a change of data is `hidden`.  `KEY_VT` cuts the text off at the cursor by
setting the length, and writes nothing.  The string that is returned ends at the first terminator,
so it goes on with what was cut off.  A character that is inserted writes a terminator behind the
text, and a deletion moves the terminator along, so only one character of what was hidden is left in
front of it.
-/

set_option autoImplicit false

namespace Chino

/-- The codes of `escape_seq` -/
inductive EscSeq where
  | start
  | bracket
  | home
  | last
deriving DecidableEq

/-- The labels of the switch in `microrl_insert_char`. -/
inductive Key where
  | soh
  | stx
  | etx
  | eot
  | enq
  | ack
  | bs
  | ht
  | lf
  | vt
  | cr
  | so
  | dle
  | dc2
  | nak
  | esc
  | other
deriving DecidableEq

/-- The codes of the keys; `KEY_DEL` has the branch of `KEY_BS`. -/
def Key.of (ch : Byte) : Key :=
  if ch = 1 then .soh else if ch = 2 then .stx else if ch = 3 then .etx else if ch = 4 then .eot
  else if ch = 5 then .enq else if ch = 6 then .ack else if ch = 8 then .bs else if ch = 9 then .ht
  else if ch = 10 then .lf else if ch = 11 then .vt else if ch = 13 then .cr
  else if ch = 14 then .so else if ch = 16 then .dle else if ch = 18 then .dc2
  else if ch = 21 then .nak else if ch = 27 then .esc else if ch = 127 then .bs else .other

/-- `microrl_t` -/
structure Microrl where
  escapeSeq : EscSeq
  escape : Bool
  ringHist : RingHistory
  cmdline : Cells Byte
  cmdlen : ℕ
  cursor : ℕ
  eot : Bool
  waitNewline : Bool

namespace Microrl

/-- `memset(pThis->cmdline, 0, _COMMAND_LINE_LEN)` -/
def cleared (cmdline : Cells Byte) : Cells Byte :=
  cmdline.write 0 (List.replicate commandLineLen 0)

/-- `microrl_init` -/
def init (ring cmdline : Cells Byte) : Microrl where
  escapeSeq := .start
  escape := false
  ringHist := ⟨ring.write 0 (List.replicate ringHistoryLen 0), 0, 0, 0⟩
  cmdline := cleared cmdline
  cmdlen := 0
  cursor := 0
  eot := false
  waitNewline := false

/-- `hist_search` -/
def histSearch (m : Microrl) (dir : HistDir) : Option Microrl := do
  let (len, cmdline, ringHist) ← m.ringHist.histRestoreLine m.cmdline dir
  match len with
  | some len =>
    some { m with ringHist, cmdline := cmdline.write len [0], cursor := len, cmdlen := len }
  | none => some { m with ringHist, cmdline }

/-- What the right arrow and `KEY_ACK` do. -/
def cursorRight (m : Microrl) : Microrl :=
  if m.cursor < m.cmdlen then { m with cursor := m.cursor + 1 } else m

/-- What the left arrow and `KEY_STX` do. -/
def cursorLeft (m : Microrl) : Microrl :=
  if m.cursor > 0 then { m with cursor := m.cursor - 1 } else m

/-- `escape_process`: whether the sequence is over. -/
def escapeProcess (m : Microrl) (ch : Byte) : Option (Bool × Microrl) :=
  if ch = 91 then some (false, { m with escapeSeq := .bracket })
  else if m.escapeSeq = .bracket then
    if ch = 65 then (m.histSearch .up).map (true, ·)
    else if ch = 66 then (m.histSearch .down).map (true, ·)
    else if ch = 67 then some (true, m.cursorRight)
    else if ch = 68 then some (true, m.cursorLeft)
    else if ch = 55 then some (false, { m with escapeSeq := .home })
    else if ch = 56 then some (false, { m with escapeSeq := .last })
    else some (true, m)
  else if ch = 126 then
    if m.escapeSeq = .home then some (true, { m with cursor := 0 })
    else if m.escapeSeq = .last then some (true, { m with cursor := m.cmdlen })
    else some (true, m)
  else some (true, m)

/-- `microrl_insert_text` -/
def insertText (m : Microrl) (text : Text) : Microrl :=
  let len := text.length
  if m.cmdlen + len < commandLineLen then
    let line := m.cmdline.move (m.cursor + len) m.cursor (m.cmdlen - m.cursor)
    let line := line.write m.cursor text
    { m with
      cmdline := line.write (m.cmdlen + len) [0]
      cursor := m.cursor + len
      cmdlen := m.cmdlen + len }
  else m

/-- `microrl_backspace` -/
def backspace (m : Microrl) : Microrl :=
  if m.cursor > 0 then
    let line := m.cmdline.move (m.cursor - 1) m.cursor (m.cmdlen - m.cursor + 1)
    { m with
      cmdline := line.write m.cmdlen [0]
      cursor := m.cursor - 1
      cmdlen := m.cmdlen - 1 }
  else m

/-- The history with the line, if there is one. -/
def savedHist (m : Microrl) : Option RingHistory :=
  if m.cmdlen > 0 then m.ringHist.histSaveLine (m.cmdline.read 0 m.cmdlen) else some m.ringHist

/-- `new_line_handler`, for `wait_newline` and for callbacks that are not set. -/
def newLineHandler (m : Microrl) : Option Microrl := do
  let ringHist ← m.savedHist
  if m.waitNewline then some { m with ringHist, waitNewline := false }
  else some { m with
    ringHist := { ringHist with cur := 0 }, cmdline := cleared m.cmdline, cmdlen := 0, cursor := 0 }

/-- `microrl_insert_char` -/
def insertChar (m : Microrl) (ch : Byte) : Option Microrl :=
  if m.escape then do
    let (finished, m) ← m.escapeProcess ch
    some (if finished then { m with escape := false } else m)
  else match Key.of ch with
    | .lf => m.newLineHandler
    | .esc => some { m with escape := true }
    -- each round of the loop moves the cursor
    | .nak => some (backspace^[m.cursor] m)
    | .vt => some { m with cmdlen := m.cursor }
    | .enq => some { m with cursor := m.cmdlen }
    | .soh => some { m with cursor := 0 }
    | .ack => some m.cursorRight
    | .stx => some m.cursorLeft
    | .dle => m.histSearch .up
    | .so => m.histSearch .down
    | .bs => some m.backspace
    | .eot => newLineHandler { m with eot := true }
    | .cr | .ht | .dc2 | .etx => some m
    | .other =>
      if ch = 32 ∧ m.cmdlen = 0 ∨ ch ≤ 31 then some m else some (m.insertText [ch])

/-- The loop of `microrl_readline`: there is no result if there are no more characters. -/
def readLoop : Microrl → List Byte → Option (Microrl × List Byte)
  | _, [] => none
  | m, ch :: input => do
    let m ← m.insertChar ch
    if m.waitNewline then readLoop m input else some (m, input)

/-- `microrl_readline`: what it returns, and the characters that are left. -/
def readline (m : Microrl) (input : List Byte) : Option (Option Text × Microrl × List Byte) := do
  let (m, rest) ← readLoop { m with waitNewline := true } input
  if m.eot then some (none, m, rest)
  else do
    let line ← LineMemory.stringAt m.cmdline commandLineLen 0
    some (some line, m, rest)

/-- `microrl_free` -/
def free (m : Microrl) : Microrl :=
  { m with
    ringHist := { m.ringHist with cur := 0 }, cmdline := cleared m.cmdline, cmdlen := 0, cursor := 0 }

/-- The first lines that somebody gets who reads and frees them until there are no more. -/
def lines : ℕ → Microrl → List Byte → List Text
  | 0, _, _ => []
  | n + 1, m, input => match m.readline input with
    | some (some line, m, rest) => line :: lines n m.free rest
    | _ => []

end Microrl

/-! ## A text with a cursor -/

/-- What somebody writes: the text in front of the cursor and behind it, and how far back in the
lines entered so far the text comes from.  `hidden` is what has been cut off the end since something
was written there, and only the first character of it once something has been deleted since. -/
structure Draft where
  before : Text
  after : Text
  hidden : Text
  entered : List Text
  back : ℕ

namespace Draft

open RingHistory (lineAt)

/-- The line as it is shown. -/
def text (d : Draft) : Text := d.before ++ d.after

/-- The lines that the history has room for, the newest one first. -/
def recent (d : Draft) : List Text := History.keep History.capacity d.entered

/-- A new line. -/
def empty : Draft := ⟨[], [], [], [], 0⟩

/-- A character is written at the cursor, if there is room for it. -/
def insert (d : Draft) (c : Byte) : Draft :=
  if d.text.length + 1 < commandLineLen then { d with before := d.before ++ [c], hidden := [] }
  else d

/-- One character of what is hidden moves along with the text. -/
def backspace (d : Draft) : Draft :=
  if d.before = [] then d
  else { d with before := d.before.dropLast, hidden := d.hidden.take 1 }

/-- The cursor goes one character to the left. -/
def left (d : Draft) : Draft := match d.before.getLast? with
  | none => d
  | some c => { d with before := d.before.dropLast, after := c :: d.after }

/-- The cursor goes one character to the right. -/
def right (d : Draft) : Draft := match d.after with
  | [] => d
  | c :: after => { d with before := d.before ++ [c], after }

/-- The cursor goes in front of the line. -/
def home (d : Draft) : Draft := { d with before := [], after := d.text }

/-- The cursor goes behind the line. -/
def toEnd (d : Draft) : Draft := { d with before := d.text, after := [] }

/-- Delete up to the cursor. -/
def killBefore (d : Draft) : Draft :=
  if d.before = [] then d else { d with before := [], hidden := d.hidden.take 1 }

/-- Cut off what is behind the cursor. -/
def killAfter (d : Draft) : Draft := { d with after := [], hidden := d.after ++ d.hidden }

/-- The text of the line that is so far back. -/
def fetch (d : Draft) (back : ℕ) : Draft :=
  { d with before := lineAt d.recent back, after := [], hidden := [], back }

/-- The line before the one that is shown is fetched, if there is one. -/
def up (d : Draft) : Draft := if d.back < d.recent.length then d.fetch (d.back + 1) else d

/-- The line after it is fetched, which is an empty one in the end. -/
def down (d : Draft) : Draft := d.fetch (d.back - 1)

/-- A line that is not too long becomes the newest one. -/
def enter (d : Draft) : Draft :=
  if 0 < d.text.length ∧ d.text.length ≤ ringHistoryLen - 2 then
    { d with entered := d.text :: d.entered, back := 0 }
  else d

/-- The line is returned, and the next one begins. -/
def clear (d : Draft) : Draft := { empty with entered := d.entered }

end Draft

/-! ## The keys -/

/-- What a key asks for. -/
inductive Edit where
  | insert (c : Byte)
  | backspace
  | left
  | right
  | home
  | toEnd
  | killBefore
  | killAfter
  | up
  | down
  | nothing

/-- What a key does to the draft.  A line does not begin with a blank. -/
def Edit.apply : Edit → Draft → Draft
  | .insert c => fun d ↦ if c = 32 ∧ d.text = [] then d else d.insert c
  | .backspace => Draft.backspace
  | .left => Draft.left
  | .right => Draft.right
  | .home => Draft.home
  | .toEnd => Draft.toEnd
  | .killBefore => Draft.killBefore
  | .killAfter => Draft.killAfter
  | .up => Draft.up
  | .down => Draft.down
  | .nothing => id

/-- Whether the characters are those of an escape sequence, and its last one that counts. -/
structure Decoder where
  escape : Bool
  escapeSeq : EscSeq

namespace Decoder

/-- A character of an escape sequence, and whether more of them follow. -/
def sequence (seq : EscSeq) (ch : Byte) : Edit × Decoder :=
  if ch = 91 then (.nothing, ⟨true, .bracket⟩)
  else if seq = .bracket ∧ ch = 55 then (.nothing, ⟨true, .home⟩)
  else if seq = .bracket ∧ ch = 56 then (.nothing, ⟨true, .last⟩)
  else (match seq with
    | .bracket => if ch = 65 then .up else if ch = 66 then .down else if ch = 67 then .right
      else if ch = 68 then .left else .nothing
    | .home => if ch = 126 then .home else .nothing
    | .last => if ch = 126 then .toEnd else .nothing
    | .start => .nothing, ⟨false, seq⟩)

/-- The keys that are one character. -/
def key (ch : Byte) : Edit := match Key.of ch with
  | .soh => .home
  | .stx => .left
  | .enq => .toEnd
  | .ack => .right
  | .bs => .backspace
  | .vt => .killAfter
  | .so => .down
  | .dle => .up
  | .nak => .killBefore
  | .other => if ch ≤ 31 then .nothing else .insert ch
  | _ => .nothing

end Decoder

/-- The draft, and where in an escape sequence the characters are. -/
structure Desk where
  draft : Draft
  decoder : Decoder

namespace Desk

/-- Before the first character. -/
def empty : Desk := ⟨.empty, ⟨false, .start⟩⟩

/-- A character that does not end the line. -/
def type (d : Desk) (ch : Byte) : Desk :=
  if d.decoder.escape then
    let (edit, decoder) := Decoder.sequence d.decoder.escapeSeq ch
    ⟨edit.apply d.draft, decoder⟩
  else ⟨(Decoder.key ch).apply d.draft, ⟨Key.of ch = .esc, d.decoder.escapeSeq⟩⟩

/-- The line somebody enters, or `none` for the end of the input. -/
def readline (d : Desk) : List Byte → Option (Option Text × Desk × List Byte)
  | [] => none
  | ch :: input =>
    if d.decoder.escape = false ∧ Key.of ch = .lf then
      some (some (d.draft.text ++ d.draft.hidden), { d with draft := d.draft.enter }, input)
    else if d.decoder.escape = false ∧ Key.of ch = .eot then
      some (none, { d with draft := d.draft.enter }, input)
    else (d.type ch).readline input

/-- The lines that so many reads return. -/
def lines : ℕ → Desk → List Byte → List Text
  | 0, _, _ => []
  | n + 1, d, input => match d.readline input with
    | some (some line, d, rest) => line :: lines n { d with draft := d.draft.clear } rest
    | _ => []

end Desk

end Chino
