import BareMetal.Cpu.Features
import BareMetal.Io.HardwareCursor
import BareMetal.Tools.Builtin
import BareMetal.Tools.Bulk

/-!
# The VGA text buffer

The text window is 32 KiB of video memory at `VGA_BASE`, two bytes a cell, 80
cells a row. The display shows 25 rows from a start cell on, and the driver
scrolls by moving the start: it keeps a base row, a row below it and a column,
and when the cursor leaves the last displayed row the base row goes up, the row
that comes into view is blanked and the display start is rewritten. After 179
rows it copies what is displayed back to the top (`reset`).

A state `Vga` holds the four fields of the class and the hardware it drives: the
memory and the display controller. The fields are 8 bits wide; the arithmetic is
written out with its wrap-around, as the source relies on it. Three further fields
only record: the loads issued, the stores issued (in batches, each with the base
row of the window it draws), and the number of times the window scrolled.

The fills and copies exist for each tier, with stores of 4, 16 and 32 bytes.
-/

namespace BareMetal

open Framework

/-! ### Constants -/

def vgaWidth : ℕ := 80
def vgaHeight : ℕ := 25
def baseRowMax : ℕ := 179
def vgaLength : ℕ := (vgaWidth * vgaHeight) <<< 1
def vgaBase : ℕ := 0xB8000

/-- `default_color`: white on black. -/
def defaultColor : BitVec 8 := 0x0F ||| (0x00 <<< 4)

/-- `make_entry`. -/
def makeEntry (c color : BitVec 8) : BitVec 16 := c.setWidth 16 ||| color.setWidth 16 <<< 8

/-- A blank cell, `make_entry(' ', default_color)`. -/
def blankEntry : BitVec 16 := makeEntry 0x20 defaultColor

/-- Two blank cells. -/
def blankEntry32 : BitVec 32 := blankEntry.setWidth 32 <<< 16 ||| blankEntry.setWidth 32

/-! ### Fills -/

/-- `fallback_fill`. -/
def fallbackFill (m : ByteMem) (dst bytes : ℕ) (entry : BitVec 32) : Fill :=
  storeLoop (fun m a => store m 4 a entry) 4 (dst + 4 * (bytes >>> 2)) bytes ⟨m, dst, []⟩

/-- `use_sse_2` (`log2 = 4`) and `use_avx_2` (`log2 = 5`). -/
def vectorFill (log2 : ℕ) (m : ByteMem) (dst bytes : ℕ) (entry : BitVec 32) : Fill :=
  storeLoop (fun m a => mmStore m a (set1Epi32 (2 ^ log2) entry)) (2 ^ log2)
    (dst + 2 ^ log2 * (bytes >>> log2)) bytes ⟨m, dst, []⟩

def useSse2 : ByteMem → ℕ → ℕ → BitVec 32 → Fill := vectorFill 4
def useAvx2 : ByteMem → ℕ → ℕ → BitVec 32 → Fill := vectorFill 5

/-- The fill of a tier, `g_dispatch.entries`. -/
def fillEntries : Tier → ByteMem → ℕ → ℕ → BitVec 32 → Fill
  | .gpr => fallbackFill
  | .simd => useSse2
  | .avx2 => useAvx2

/-! ### Copies -/

/-- `fallback_copy`. -/
def fallbackCopy (m : ByteMem) (src dst count : ℕ) : Copy :=
  copyLoop (fun m s d => store m 4 d (load m 4 s)) 4 (src + 4 * (count >>> 2)) count
    ⟨m, src, dst, [], []⟩

/-- `use_sse_2_copy` (`log2 = 4`) and `use_avx_2_copy` (`log2 = 5`). -/
def vectorCopy (log2 : ℕ) (m : ByteMem) (src dst count : ℕ) : Copy :=
  copyLoop (fun m s d => mmStore m d (mmLoad m (2 ^ log2) s)) (2 ^ log2)
    (src + 2 ^ log2 * (count >>> log2)) count ⟨m, src, dst, [], []⟩

def useSse2Copy : ByteMem → ℕ → ℕ → ℕ → Copy := vectorCopy 4
def useAvx2Copy : ByteMem → ℕ → ℕ → ℕ → Copy := vectorCopy 5

/-- The copy of a tier, `g_dispatch_cpy.entries`. -/
def copyEntries : Tier → ByteMem → ℕ → ℕ → ℕ → Copy
  | .gpr => fallbackCopy
  | .simd => useSse2Copy
  | .avx2 => useAvx2Copy

/-! ### The buffer -/

/-- A `vga_text_buffer` with the memory and the display controller it drives. -/
structure Vga where
  baseRow : ℕ
  row : ℕ
  column : ℕ
  activeColor : BitVec 8
  mem : ByteMem
  crtc : Crtc
  /-- The loads from video memory issued so far. -/
  loads : List Access
  /-- The stores issued so far, each batch with the base row of the window it draws. -/
  stores : List (ℕ × List Access)
  /-- How often the window moved down one row. -/
  scrolls : ℕ

namespace Vga

/-- The constructor, on the hardware as it is found. -/
def init (mem : ByteMem) (crtc : Crtc) : Vga where
  baseRow := 0
  row := 0
  column := 0
  activeColor := defaultColor
  mem := mem
  crtc := crtc
  loads := []
  stores := []
  scrolls := 0

variable (tier : Tier) (v : Vga)

/-- `get_position`. -/
def getPosition : BitVec 16 := BitVec.ofNat 16 ((v.baseRow + v.row) * vgaWidth + v.column)

/-- The address that `cell` and `cell_32` point to. -/
def cell : ℕ := vgaBase + v.getPosition.toNat <<< 1

/-- The two writes to the display controller after a scroll. -/
def setDisplayStart (position : ℕ) : Vga :=
  { v with crtc := HardwareCursor.setDisplayStart v.crtc (BitVec.ofNat 16 position) }

/-- `reset`: what is displayed is copied to rows 1 to 24, and row 25 is blanked. -/
def reset : Vga :=
  let copyBytes := (vgaHeight - 1) * vgaWidth <<< 1
  let source := vgaBase + 4 * ((v.baseRow * vgaWidth) >>> 1)
  let dstWidth := vgaWidth >>> 1
  let copied := copyEntries tier v.mem source (vgaBase + 4 * dstWidth) copyBytes
  let remainingBytes := u8 (vgaWidth <<< 1)
  let filled := fillEntries tier copied.mem copied.dst remainingBytes blankEntry32
  { v with
    baseRow := 1
    row := vgaHeight - 1
    mem := filled.mem
    loads := copied.loads ++ v.loads
    stores := (1, filled.stores ++ copied.stores) :: v.stores }

/-- `clear`. -/
def clear : Vga :=
  let filled := fillEntries tier v.mem vgaBase vgaLength blankEntry32
  let v := { v with
    mem := filled.mem
    stores := (0, filled.stores) :: v.stores
    baseRow := 0
    column := 0
    row := 0 }
  v.setDisplayStart 0

/-- `clear_row`. -/
def clearRow : Vga :=
  let filled := fillEntries tier v.mem v.cell (u8 (vgaWidth <<< 1)) blankEntry32
  { v with mem := filled.mem, stores := (v.baseRow, filled.stores) :: v.stores }

/-- The end of `move_forward` and of `move_to_next_line`, after `row` was advanced:
a row past the last one scrolls the window. -/
def scrollOverflow : Vga :=
  let overflowed := (v.row == vgaHeight).toNat
  let v := { v with baseRow := u8 (v.baseRow + overflowed), row := u8Sub v.row overflowed }
  if overflowed = 1 then
    let v := if baseRowMax < v.baseRow then v.reset tier else v.clearRow tier
    { v.setDisplayStart (v.baseRow * vgaWidth) with scrolls := v.scrolls + 1 }
  else v

/-- `move_forward`. -/
def moveForward : Vga :=
  let column := u8 (v.column + 1)
  let overflowed := (column == vgaWidth).toNat
  scrollOverflow tier { v with
    column := u8Sub column (overflowed * vgaWidth)
    row := u8 (v.row + overflowed) }

/-- `move_to_next_line`. -/
def moveToNextLine : Vga :=
  scrollOverflow tier { v with column := 0, row := u8 (v.row + 1) }

/-- `*cell() = make_entry(c, active_color)`. -/
def writeCell (c : BitVec 8) : Vga :=
  { v with
    mem := store v.mem 2 v.cell (makeEntry c v.activeColor)
    stores := (v.baseRow, [⟨v.cell, 2⟩]) :: v.stores }

/-- `put`. -/
def put (c : BitVec 8) : Vga := (v.writeCell c).moveForward tier

/-- `move_backwards`. -/
def moveBackwards : Vga :=
  let columnAtEnd := (v.column == 0).toNat
  let rowAtEnd := (v.row == 0).toNat &&& columnAtEnd
  { v with
    column := u8 (v.column + 2 ^ 8 - 1 + columnAtEnd * vgaWidth)
    baseRow := u8Sub v.baseRow rowAtEnd
    row := u8 (v.row + 2 ^ 8 - columnAtEnd + rowAtEnd * vgaHeight) }

/-- `remove_last_char`. -/
def removeLastChar : Vga := v.moveBackwards.writeCell 0x20

/-- `line_start`. -/
def lineStart : Vga := { v with column := 0 }

/-- `set_color_code`. -/
def setColorCode (color : BitVec 8) : Vga := { v with activeColor := color }

/-- The common end of `move_cursor_left_n` and `move_cursor_right_n`: the cursor goes
to the cell `absPos` of the window. -/
def jumpTo (absPos : ℤ) : Vga :=
  let newRow := u8OfInt (absPos.tdiv vgaWidth)
  let newColumn := u8OfInt (absPos - newRow * vgaWidth)
  { v with
    baseRow := u8Sub v.baseRow (u8OfInt (v.row - newRow))
    row := newRow
    column := newColumn }

/-- `move_cursor_left_n`. -/
def moveCursorLeftN (count : ℕ) : Vga := v.jumpTo (i16 (v.row * vgaWidth + v.column - count))

/-- `move_cursor_right_n`. -/
def moveCursorRightN (count : ℕ) : Vga := v.jumpTo (i16 (v.row * vgaWidth + v.column + count))

end Vga
end BareMetal
