import BareMetal.Io.Window

/-!
# Terminal output

`terminal::output` prints to the one text buffer and keeps the hardware cursor in
step: the `no_sync` methods only draw, the others move the blinking cursor to the
cell reached as well. Line breaks and carriage returns move the cursor, every other
character is put.
-/

namespace BareMetal

namespace Vga

variable (tier : Tier) (v : Vga)

/-- `put_char_no_sync`. -/
def putCharNoSync (c : BitVec 8) : Vga :=
  if c = 0x0D then v.lineStart
  else if c = 0x0A then v.moveToNextLine tier
  else v.put tier c

/-- `write_string_no_sync`, of the characters before the NUL. -/
def writeStringNoSync (text : List (BitVec 8)) : Vga :=
  text.foldl (fun v c => v.putCharNoSync tier c) v

/-- `sync_cursor`: `hardware_cursor::set_position(buffer.get_position())`. -/
def syncCursor : Vga := { v with crtc := HardwareCursor.setPosition v.crtc v.getPosition }

/-- `operator<<(const char)`. -/
def printChar (c : BitVec 8) : Vga := (v.putCharNoSync tier c).syncCursor

/-- `operator<<(const char*)`. -/
def printString (text : List (BitVec 8)) : Vga := (v.writeStringNoSync tier text).syncCursor

end Vga
end BareMetal
