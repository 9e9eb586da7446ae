import BareMetal.Framework.Pic8259
import BareMetal.Tools.Builtin

/-!
# The interrupt controllers

`pic_remap` initialises both chips with new vectors and keeps their masks, which the
initialisation clears; `send_eoi` ends an interrupt, at both chips if it came from the second.
Everything goes through four ports. `io_wait` writes to a port of no device.
-/

namespace BareMetal

open Framework

namespace PicPorts

def masterCommand : BitVec 16 := 0x20
def masterData : BitVec 16 := 0x21
def slaveCommand : BitVec 16 := 0xA0
def slaveData : BitVec 16 := 0xA1

def enable : BitVec 8 := 0x11
def masterBit : BitVec 8 := 0x04
def slaveBit : BitVec 8 := 0x02
def x86Mode : BitVec 8 := 0x01
def eoiCommand : BitVec 8 := 0x20

/-- `outb`, seen from the interrupt controllers. -/
def outb (s : Pics) (port : BitVec 16) (value : BitVec 8) : Pics :=
  if port = masterCommand then { s with master := s.master.writeCommand value }
  else if port = masterData then { s with master := s.master.writeData value }
  else if port = slaveCommand then { s with slave := s.slave.writeCommand value }
  else if port = slaveData then { s with slave := s.slave.writeData value }
  else s

/-- `inb` from a data port, which reads the mask. -/
def inb (s : Pics) (port : BitVec 16) : BitVec 8 :=
  if port = masterData then s.master.mask
  else if port = slaveData then s.slave.mask
  else 0

/-- `io_wait`. -/
def ioWait (s : Pics) : Pics := outb s 0x80 0

/-- `pic_remap`. -/
def picRemap (s : Pics) (offset1 offset2 : BitVec 8) : Pics :=
  let masterMask := inb s masterData
  let slaveMask := inb s slaveData
  let s := ioWait (outb s masterCommand enable)
  let s := ioWait (outb s slaveCommand enable)
  let s := ioWait (outb s masterData offset1)
  let s := ioWait (outb s slaveData offset2)
  let s := ioWait (outb s masterData masterBit)
  let s := ioWait (outb s slaveData slaveBit)
  let s := ioWait (outb s masterData x86Mode)
  let s := ioWait (outb s slaveData x86Mode)
  let s := ioWait (outb s masterData masterMask)
  ioWait (outb s slaveData slaveMask)

/-- `send_eoi`. -/
def sendEoi (s : Pics) (vector : ℕ) : Pics :=
  let s := if 7 < vector then outb s slaveCommand eoiCommand else s
  outb s masterCommand eoiCommand

/-- `mask_all_except_timer_and_keyboard`. -/
def maskAllExceptTimerAndKeyboard (s : Pics) : Pics :=
  let s := ioWait (outb s masterData 0xFC)
  ioWait (outb s slaveData 0xFF)

/-! ### What the sequences do -/

variable {s : Pics}

/-- **Remapping**, whatever state the chips were in: the new vectors, no request left, and the
masks and the interrupts in service as they were. -/
theorem picRemap_eq (s : Pics) (offset1 offset2 : BitVec 8) :
    picRemap s offset1 offset2 =
      ⟨⟨[], offset1 &&& 0xF8, 0x04, 0x01, s.master.mask, fun _ => false, s.master.inService⟩,
        ⟨[], offset2 &&& 0xF8, 0x02, 0x01, s.slave.mask, fun _ => false, s.slave.inService⟩⟩ :=
  rfl

/-- A chip that expects no word takes a byte at its data port for the mask. -/
theorem maskAllExceptTimerAndKeyboard_eq (hmaster : s.master.expects = [])
    (hslave : s.slave.expects = []) :
    maskAllExceptTimerAndKeyboard s =
      ⟨{ s.master with mask := 0xFC }, { s.slave with mask := 0xFF }⟩ := by
  have hmask {p : Pic} (h : p.expects = []) (value : BitVec 8) :
      p.writeData value = { p with mask := value } := by
    unfold Pic.writeData
    rw [h]
  change (⟨s.master.writeData 0xFC, s.slave.writeData 0xFF⟩ : Pics) = _
  rw [hmask hmaster, hmask hslave]

/-- An end of interrupt for a line of the first chip. -/
theorem sendEoi_of_le {vector : ℕ} (h : vector ≤ 7) :
    sendEoi s vector = ⟨s.master.endOfInterrupt, s.slave⟩ := by
  unfold sendEoi
  rw [if_neg (Nat.not_lt.mpr h)]
  rfl

end PicPorts
end BareMetal
