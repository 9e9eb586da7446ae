import Mathlib.Data.Nat.Basic
import Mathlib.Logic.Function.Basic

/-!
# The hardware cursor

The display controller is reached through two ports: a byte sent to the command
port selects a register, a byte sent to the data port writes the selected one.
The kernel writes two 16-bit numbers this way, one byte each: the position of the
blinking cursor and the cell the display starts at.

`cursorPosition` and `displayStart` read the two numbers back as the controller
does. Each is what was last written (`cursorPosition_setPosition`,
`displayStart_setDisplayStart`), and writing one leaves the other alone.
-/

namespace BareMetal

/-- The display controller: the selected register and the register file. -/
structure Crtc where
  index : BitVec 8
  regs : BitVec 8 → BitVec 8

namespace HardwareCursor

def commandPort : BitVec 16 := 0x3D4
def dataPort : BitVec 16 := 0x3D5
def cursorRegisterLow : BitVec 8 := 0x0F
def cursorRegisterHigh : BitVec 8 := 0x0E
def displayRegisterLow : BitVec 8 := 0x0D
def displayRegisterHigh : BitVec 8 := 0x0C

/-- `outb`, seen from the display controller. -/
def outb (c : Crtc) (port : BitVec 16) (value : BitVec 8) : Crtc :=
  if port = commandPort then { c with index := value }
  else if port = dataPort then { c with regs := Function.update c.regs c.index value }
  else c

/-- `hardware_cursor::write_register`. -/
def writeRegister (c : Crtc) (index value : BitVec 8) : Crtc :=
  outb (outb c commandPort index) dataPort value

/-- `hardware_cursor::set_position`. -/
def setPosition (c : Crtc) (position : BitVec 16) : Crtc :=
  let c := writeRegister c cursorRegisterLow ((position &&& 0x00FF).setWidth 8)
  writeRegister c cursorRegisterHigh (((position >>> 8) &&& 0x00FF).setWidth 8)

/-- `hardware_cursor::set_display_start`. -/
def setDisplayStart (c : Crtc) (position : BitVec 16) : Crtc :=
  let c := writeRegister c displayRegisterLow ((position &&& 0x00FF).setWidth 8)
  writeRegister c displayRegisterHigh (((position >>> 8) &&& 0x00FF).setWidth 8)

/-- The cell the cursor blinks at. -/
def cursorPosition (c : Crtc) : BitVec 16 := c.regs cursorRegisterHigh ++ c.regs cursorRegisterLow

/-- The cell the display starts at. -/
def displayStart (c : Crtc) : BitVec 16 := c.regs displayRegisterHigh ++ c.regs displayRegisterLow

/-- The two bytes a 16-bit number is sent in make it up again. -/
theorem bytes_append (position : BitVec 16) :
    (((position >>> 8) &&& 0x00FF).setWidth 8 : BitVec 8) ++
      ((position &&& 0x00FF).setWidth 8 : BitVec 8) = position := by
  -- the low byte is bits 0 to 7 of the append, the high byte bits 8 to 15
  ext i hi
  have h00FF : ∀ j < 16, (0x00FF : BitVec 16).getLsbD j = decide (j < 8) := by decide
  rw [← BitVec.getLsbD_eq_getElem, ← BitVec.getLsbD_eq_getElem, BitVec.getLsbD_append]
  by_cases h : i < 8
  · rw [if_pos h, BitVec.getLsbD_setWidth, BitVec.getLsbD_and, h00FF i hi]
    simp [h]
  · rw [if_neg h, BitVec.getLsbD_setWidth, BitVec.getLsbD_and, h00FF _ (by omega)]
    simp [show i - 8 < 8 by omega, show 8 + (i - 8) = i by omega]

section Registers

variable (c : Crtc) (position : BitVec 16)

@[simp] theorem displayStart_setDisplayStart :
    displayStart (setDisplayStart c position) = position := bytes_append position

@[simp] theorem cursorPosition_setDisplayStart :
    cursorPosition (setDisplayStart c position) = cursorPosition c := rfl

@[simp] theorem cursorPosition_setPosition :
    cursorPosition (setPosition c position) = position := bytes_append position

@[simp] theorem displayStart_setPosition :
    displayStart (setPosition c position) = displayStart c := rfl

end Registers

end HardwareCursor
end BareMetal
