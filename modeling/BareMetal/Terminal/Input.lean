import BareMetal.Framework.ByteMem
import BareMetal.Tools.Builtin

/-!
# The input line

`terminal::input` edits one line of at most 128 characters in an array of 129 bytes.
Two pointers into the array give the cursor and the end of the data; the byte at the
end is NUL, and the editor recognises the end of the line by it. Insertion and
deletion shift the bytes behind the cursor with pointer loops.

Pointers are offsets from `input_buffer`. The pointer arithmetic of the loops is done
in integers, so that a position before the array would show, and every access is
recorded with its offset. The output object of the class is left to the handlers.
-/

namespace BareMetal

open Framework

def inputCapacity : ℕ := 128

/-- The fields of an `input`, and the offsets of the accesses to its buffer. -/
structure Input where
  cursor : ℕ
  dataEnd : ℕ
  inputBuffer : ByteMem
  inputReady : Bool
  /-- The offsets read and written so far. -/
  accesses : List ℤ

/-- `string_length`, of the characters before the NUL. -/
def stringLength (string : List (BitVec 8)) : ℕ := u8 string.length

/-- The C string at an offset: the bytes before the next NUL. `fuel` bounds its length. -/
def cString (b : ByteMem) : (fuel : ℕ) → ℕ → List (BitVec 8)
  | 0, _ => []
  | fuel + 1, i => if b i = 0 then [] else b i :: cString b fuel (i + 1)

namespace Input

/-- The constructor. -/
def init : Input where
  cursor := 0
  dataEnd := 0
  inputBuffer := fun _ => 0
  inputReady := false
  accesses := []

variable (s : Input)

/-- The byte at an offset. -/
def peek (i : ℤ) : BitVec 8 := s.inputBuffer i.toNat

/-- A read at an offset, as far as the record goes. -/
def touch (i : ℤ) : Input := { s with accesses := i :: s.accesses }

/-- A byte written at an offset. -/
def poke (i : ℤ) (c : BitVec 8) : Input :=
  { s with inputBuffer := setByte s.inputBuffer i.toNat c, accesses := i :: s.accesses }

/-- One iteration of the shifting loops: the byte at `source` is stored at `target`. -/
def copyByte (target source : ℤ) : Input := (s.touch source).poke target (s.peek source)

/-- `move_data_right(end, begin, step)`; `fuel` bounds the number of bytes. -/
def moveDataRight (start : ℤ) (step : ℕ) : (fuel : ℕ) → (stop : ℤ) → Input → Input
  | 0, _, s => s
  | fuel + 1, stop, s =>
    if start < stop then moveDataRight start step fuel (stop - 1) (s.copyByte stop (stop - step))
    else s

/-- `move_data_left(begin, end, step)`; `fuel` bounds the number of bytes. -/
def moveDataLeft (stop : ℤ) (step : ℕ) : (fuel : ℕ) → (start : ℤ) → Input → Input
  | 0, _, s => s
  | fuel + 1, start, s =>
    if start < stop then moveDataLeft stop step fuel (start + 1) (s.copyByte start (start + step))
    else s

/-- `buffer_full`. -/
def bufferFull : Bool := s.dataEnd = inputCapacity

/-- `buffer_begin`. -/
def bufferBegin : Bool := s.cursor = 0

/-- `count`. -/
def count : ℕ := u8 s.dataEnd

/-- `add_character`. -/
def addCharacter (c : BitVec 8) : Bool × Input :=
  if s.bufferFull then (false, s)
  else
    let s := s.touch s.cursor
    let s :=
      if s.peek s.cursor ≠ 0 then moveDataRight s.cursor 1 (s.dataEnd - s.cursor) s.dataEnd s else s
    let s := s.poke s.cursor c
    let s := { s with cursor := s.cursor + 1, dataEnd := s.dataEnd + 1 }
    (true, s.poke s.dataEnd 0)

/-- The loop that ends `add_string`. -/
def writeString : List (BitVec 8) → Input → Input
  | [], s => s
  | c :: string, s => writeString string { s.poke s.cursor c with cursor := s.cursor + 1 }

/-- `add_string`. -/
def addString (string : List (BitVec 8)) : Bool × Input :=
  let length := stringLength string
  if inputCapacity ≤ s.dataEnd + length then (false, s)
  else
    let s := { s with dataEnd := s.dataEnd + length }
    let s := s.touch s.cursor
    let s :=
      if s.peek s.cursor ≠ 0 then
        moveDataRight (s.cursor + length - 1) length (s.dataEnd + 1) s.dataEnd s
      else s
    let s := s.poke s.dataEnd 0
    (true, writeString string s)

/-- `delete_character`. -/
def deleteCharacter : Bool × Input :=
  if s.bufferBegin then (false, s)
  else
    let s := { s with cursor := s.cursor - 1 }
    let s := moveDataLeft s.dataEnd 1 (s.dataEnd - s.cursor) s.cursor s
    let s := { s with dataEnd := s.dataEnd - 1 }
    (true, s.poke s.dataEnd 0)

/-- `move_cursor_left`. -/
def moveCursorLeft : Bool × Input :=
  if s.cursor = 0 then (false, s) else (true, { s with cursor := s.cursor - 1 })

/-- `move_cursor_right`. -/
def moveCursorRight : Bool × Input :=
  if s.cursor = s.dataEnd then (false, s) else (true, { s with cursor := s.cursor + 1 })

/-- `reset_buffer`. -/
def resetBuffer : Input :=
  let s := { s with cursor := 0, dataEnd := 0 }
  { s.poke s.cursor 0 with inputReady := false }

/-- The loop of `trim_end`, from the position of `data_end` down. -/
def trimSpaces : ℕ → Input → Input
  | 0, s => s
  | n + 1, s =>
    let s := s.touch n
    if s.peek n = 0x20 then trimSpaces n { s with dataEnd := n } else s

/-- `trim_end`. -/
def trimEnd : Input :=
  if s.dataEnd = 0 then s
  else
    let s := trimSpaces s.dataEnd s
    s.poke s.dataEnd 0

/-- `read_buffer`, the line as its reader sees it. -/
def readBuffer : List (BitVec 8) := cString s.inputBuffer (inputCapacity + 1) 0

end Input
end BareMetal
