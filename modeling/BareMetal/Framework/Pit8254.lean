import Mathlib.Algebra.GroupWithZero.Nat
import Mathlib.Data.Nat.Notation
import Mathlib.Logic.Function.Basic

/-!
# The 8254 interval timer

A chip has three counters, programmed through one port for control words and a data port for
each counter. A control word selects a counter, its mode, and which bytes of the count its data
port takes; for the two bytes of a whole count the low one comes first. A new control word
forgets a count that is half written.

In modes 2 and 3 the output of a counter has a rising edge every `Counter.period` clocks. The
largest count is written as zero.
-/

namespace Framework

/-- One counter, as it is programmed. -/
structure Counter where
  /-- Which bytes the data port takes: the low one, the high one or both. -/
  access : BitVec 2
  mode : BitVec 3
  bcd : Bool
  /-- The low byte of a count whose high byte has not come yet. -/
  low : Option (BitVec 8)
  /-- The last count since the control word. -/
  count : Option (BitVec 16)

namespace Counter

/-- A byte at the data port. -/
def writeData (c : Counter) (value : BitVec 8) : Counter :=
  if c.access = 1 then { c with count := some (0#8 ++ value) }
  else if c.access = 2 then { c with count := some (value ++ 0#8) }
  else
    match c.low with
    | none => { c with low := some value }
    | some low => { c with low := none, count := some (value ++ low) }

/-- The clocks from one rising edge of the output to the next, of a binary counter that starts
over by itself. -/
def period (c : Counter) : Option ℕ :=
  if c.bcd = false ∧ c.mode.getLsbD 1 = true then
    c.count.map fun count => if count = 0 then 2 ^ 16 else count.toNat
  else none

/-- The period for a count of 16 bits that is not zero. -/
theorem period_eq {c : Counter} {n : ℕ} (hbcd : c.bcd = false) (hmode : c.mode.getLsbD 1 = true)
    (hcount : c.count = some (BitVec.ofNat 16 n)) (hn : 0 < n) (hn' : n < 2 ^ 16) :
    c.period = some n := by
  have hval : (BitVec.ofNat 16 n).toNat = n := by
    rw [BitVec.toNat_ofNat, Nat.mod_eq_of_lt hn']
  have hne : BitVec.ofNat 16 n ≠ 0 := by
    intro heq
    rw [heq] at hval
    exact Nat.ne_of_lt hn hval
  unfold period
  rw [if_pos ⟨hbcd, hmode⟩, hcount, Option.map_some, if_neg hne, hval]

end Counter

/-- The chip. -/
structure Pit where
  counters : BitVec 2 → Counter

namespace Pit

/-- A byte at the control port. The word for the last number is a read-back, and one without
access latches the count; neither programs anything. -/
def writeControl (p : Pit) (value : BitVec 8) : Pit :=
  let select := value.extractLsb' 6 2
  let access := value.extractLsb' 4 2
  if select = 3 ∨ access = 0 then p
  else
    ⟨Function.update p.counters select
      ⟨access, value.extractLsb' 1 3, value.getLsbD 0, none, none⟩⟩

/-- A byte at the data port of a counter. -/
def writeData (p : Pit) (select : BitVec 2) (value : BitVec 8) : Pit :=
  ⟨Function.update p.counters select ((p.counters select).writeData value)⟩

/-- **A whole count**, from any state of the chip: a control word for both bytes, the low one
and the high one. -/
theorem writeData_writeControl (p : Pit) {word : BitVec 8} (hselect : word.extractLsb' 6 2 ≠ 3)
    (haccess : word.extractLsb' 4 2 = 3) (low high : BitVec 8) :
    ((p.writeControl word).writeData (word.extractLsb' 6 2) low).writeData
        (word.extractLsb' 6 2) high =
      ⟨Function.update p.counters (word.extractLsb' 6 2)
        ⟨3, word.extractLsb' 1 3, word.getLsbD 0, none, some (high ++ low)⟩⟩ := by
  have hword : p.writeControl word = ⟨Function.update p.counters (word.extractLsb' 6 2)
      ⟨3, word.extractLsb' 1 3, word.getLsbD 0, none, none⟩⟩ := by
    unfold writeControl
    rw [haccess, if_neg (not_or.mpr ⟨hselect, by decide⟩)]
  rw [hword]
  unfold writeData
  simp only [Function.update_self, Function.update_idem]
  rfl

end Pit
end Framework
