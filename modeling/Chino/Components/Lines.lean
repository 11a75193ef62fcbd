import Chino.Library.Cells
import Chino.Ob.Path

/-!
# The program store of the BASIC interpreter

`components/basic/src/lines.c`: the lines of a program, one behind the other in a block of memory.
A `line` is its number, a length and the text with its terminator; the length is that of the text
and the terminator, so it says where the next line is, and a number and a length of zero are the
end.  There is nothing but the bytes: every operation walks over them, and moves what is behind the
place it changes.

Addresses count from the start of the memory.  `memorySize` bounds the loops: one that takes more
rounds than there are bytes is outside of the memory, and there is no next state.  A byte beyond the
end of the memory can be written, as in C; nothing here checks it.

A number takes two bytes and a length one, and `setNumber` and `setLength` store what fits; a text
of 255 bytes or more does not.  The test of the end looks at both, so a line with the number zero
and no text would be taken for the end; a text with its terminator has a length of one at least, so
there is none.

`lines_list` calls its argument for each line; the model returns the arguments of these calls.
-/

set_option autoImplicit false

namespace Chino

/-- `__memory` and `__memory_size` -/
structure LineMemory where
  memory : Cells Byte
  memorySize : ℕ

namespace LineMemory

/-- A byte of a number, and the lowest one of any number. -/
def byte (n : ℕ) : Byte := Fin.ofNat 256 n

/-! ## One line -/

/-- `l->number` -/
def numberAt (m : Cells Byte) (l : ℕ) : ℕ := (m l).val + 256 * (m (l + 1)).val

/-- `l->length` -/
def lengthAt (m : Cells Byte) (l : ℕ) : ℕ := (m (l + 2)).val

/-- `&(l->contents)` -/
def contentsAt (l : ℕ) : ℕ := l + 3

/-- `sizeof(line) - 1` -/
def headerSize : ℕ := 3

/-- The number of a line, in two bytes. -/
def setNumber (m : Cells Byte) (l number : ℕ) : Cells Byte :=
  m.write l [byte number, byte (number / 256)]

/-- The length of its text, in one byte. -/
def setLength (m : Cells Byte) (l length : ℕ) : Cells Byte := m.write (l + 2) [byte length]

/-- `strcpy(&(l->contents), contents)` -/
def setContents (m : Cells Byte) (l : ℕ) (contents : List Byte) : Cells Byte :=
  m.write (contentsAt l) (contents ++ [0])

/-- `_next` -/
def nextLine (m : Cells Byte) (l : ℕ) : ℕ := l + (headerSize + lengthAt m l)

/-- `_is_end` -/
def isEnd (m : Cells Byte) (l : ℕ) : Prop := numberAt m l = 0 ∧ lengthAt m l = 0

instance (m : Cells Byte) (l : ℕ) : Decidable (isEnd m l) := inferInstanceAs (Decidable (_ ∧ _))

/-- `_find_end` -/
def findEnd (m : Cells Byte) : ℕ → ℕ → Option ℕ
  | 0, l => if isEnd m l then some l else none
  | n + 1, l => if isEnd m l then some l else findEnd m n (nextLine m l)

/-- The bytes of the string at an address, without its terminator. -/
def stringAt (m : Cells Byte) : ℕ → ℕ → Option (List Byte)
  | 0, p => if m p = 0 then some [] else none
  | n + 1, p => if m p = 0 then some [] else (stringAt m n (p + 1)).map (m p :: ·)

/-! ## The operations -/

/-- `lines_init` -/
def init (memory : Cells Byte) (memorySize : ℕ) : LineMemory :=
  ⟨setLength (setNumber memory 0 0) 0 0, memorySize⟩

/-- `lines_memory_used` -/
def memoryUsed (s : LineMemory) : Option ℕ :=
  (findEnd s.memory s.memorySize 0).map (nextLine s.memory)

/-- A line goes in front of the one at `insert`. -/
def insertAt (s : LineMemory) (insert number : ℕ) (contents : List Byte) : Option LineMemory := do
  let last ← findEnd s.memory s.memorySize insert
  let size := nextLine s.memory last - insert
  let insertSize := headerSize + contents.length + 1
  let m := s.memory.move (insert + insertSize) insert size
  let m := setLength (setNumber m insert number) insert (contents.length + 1)
  some { s with memory := setContents m insert contents }

/-- The line at `l` gets another text. -/
def replaceAt (s : LineMemory) (l : ℕ) (contents : List Byte) : Option LineMemory := do
  let next := nextLine s.memory l
  let last ← findEnd s.memory s.memorySize l
  let size := nextLine s.memory last - next
  let old ← stringAt s.memory s.memorySize (contentsAt l)
  let replaceSize := headerSize + contents.length + 1
  let actualSize := headerSize + old.length + 1
  let m := s.memory.move (next + replaceSize - actualSize) next size
  some { s with memory := setContents (setLength m l (contents.length + 1)) l contents }

/-- A line goes to the end. -/
def appendAt (s : LineMemory) (l number : ℕ) (contents : List Byte) : LineMemory :=
  let m := setLength (setNumber s.memory l number) l (contents.length + 1)
  let m := setContents m l contents
  let last := nextLine m l
  { s with memory := setLength (setNumber m last 0) last 0 }

/-- The loop of `lines_store` -/
def storeLoop (s : LineMemory) (number : ℕ) (contents : List Byte) : ℕ → ℕ → Option LineMemory
  | 0, l => if isEnd s.memory l then some (s.appendAt l number contents) else none
  | n + 1, l =>
    if isEnd s.memory l then some (s.appendAt l number contents)
    else
      let next := nextLine s.memory l
      if numberAt s.memory l < number ∧ numberAt s.memory next > number then
        s.insertAt next number contents
      else if numberAt s.memory l = number then s.replaceAt l contents
      else if numberAt s.memory l > number then s.insertAt l number contents
      else s.storeLoop number contents n next

/-- `lines_store` -/
def store (s : LineMemory) (number : ℕ) (contents : List Byte) : Option LineMemory :=
  s.storeLoop number contents s.memorySize 0

/-- The loop of `lines_delete` and `lines_get_contents`: the place of a line, or the end. -/
def findLine (m : Cells Byte) (number : ℕ) : ℕ → ℕ → Option ℕ
  | 0, l => if isEnd m l ∨ numberAt m l = number then some l else none
  | n + 1, l =>
    if isEnd m l ∨ numberAt m l = number then some l else findLine m number n (nextLine m l)

/-- `memset(l, 0, n)` -/
def clearAt (m : Cells Byte) (l n : ℕ) : Cells Byte := m.write l (List.replicate n 0)

/-- `lines_delete`: what it returns, and the memory after it. -/
def delete (s : LineMemory) (number : ℕ) : Option (Bool × LineMemory) := do
  let l ← findLine s.memory number s.memorySize 0
  if isEnd s.memory l then some (false, s)
  else
    let next := nextLine s.memory l
    if isEnd s.memory next then
      let old ← stringAt s.memory s.memorySize (contentsAt l)
      let m := clearAt s.memory l (headerSize + old.length + 1)
      let m := setLength (setNumber m l 0) l 0
      some (true, { s with memory := setContents m l [] })
    else
      let last ← findEnd s.memory s.memorySize next
      let theEnd := nextLine s.memory last
      let m := s.memory.move l next (theEnd - next)
      let rest := next - l
      some (true, { s with memory := clearAt m (theEnd - rest) rest })

/-- `_in_range` -/
def inRange (i low high : ℕ) : Bool :=
  if low = 0 ∧ high = 0 then true
  else if low = 0 ∧ i ≤ high then true
  else if high = 0 ∧ i ≥ low then true
  else decide (i ≥ low ∧ i ≤ high)

/-- The loop of `lines_list`: the arguments of the calls of `out`. -/
def listLoop (m : Cells Byte) (size start stop : ℕ) : ℕ → ℕ → Option (List (ℕ × List Byte))
  | 0, l => if isEnd m l then some [] else none
  | n + 1, l =>
    if isEnd m l then some []
    else do
      let contents ← stringAt m size (contentsAt l)
      let rest ← listLoop m size start stop n (nextLine m l)
      some (if inRange (numberAt m l) start stop then (numberAt m l, contents) :: rest else rest)

/-- `lines_list` -/
def list (s : LineMemory) (start stop : ℕ) : Option (List (ℕ × List Byte)) :=
  listLoop s.memory s.memorySize start stop s.memorySize 0

/-- `lines_clear` -/
def clear (s : LineMemory) : Option LineMemory := do
  let last ← findEnd s.memory s.memorySize 0
  let m := clearAt s.memory 0 (nextLine s.memory last)
  some { s with memory := setLength (setNumber m 0 0) 0 0 }

/-- `lines_get_contents`: the string at the pointer, if it is not null. -/
def getContents (s : LineMemory) (number : ℕ) : Option (Option (List Byte)) := do
  let l ← findLine s.memory number s.memorySize 0
  if isEnd s.memory l then some none
  else (stringAt s.memory s.memorySize (contentsAt l)).map some

/-- `lines_first` -/
def first (s : LineMemory) : ℕ := numberAt s.memory 0

/-- The loop of `lines_next` -/
def nextLoop (m : Cells Byte) (number : ℕ) : ℕ → ℕ → Option ℕ
  | 0, l => if isEnd m l ∨ number < numberAt m l then some l else none
  | n + 1, l =>
    if isEnd m l ∨ number < numberAt m l then some l else nextLoop m number n (nextLine m l)

/-- `lines_next` -/
def next (s : LineMemory) (number : ℕ) : Option ℕ := do
  let l ← nextLoop s.memory number s.memorySize 0
  some (if number = numberAt s.memory l then 0 else numberAt s.memory l)

end LineMemory

end Chino
