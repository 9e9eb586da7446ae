import Mathlib.Data.List.FinRange
import Mathlib.Logic.Function.Basic

/-!
# The 8259 interrupt controller

A chip has eight lines. A device requests an interrupt on its line; the chip signals it to the
processor if the line is not masked and no interrupt of the same or a higher priority is in
service. Line 0 has the highest priority. When the processor acknowledges, the request becomes
an interrupt in service and the chip answers with its vector. It stays in service until the
processor ends it. A first command word starts the initialisation: the words that follow go
to the data port.

Two chips are cascaded: the second one signals on a line of the first. The first chip knows
its lines with a chip behind them, the second one its number; it answers with the vector if
that number is the line acknowledged.

`Pics.Idle` says that nothing is in service. What it takes to get back there after an
acknowledgement is one end of interrupt for each chip that took part (`Pic.Only.endOfInterrupt`).
-/

namespace Framework

/-- A word that the initialisation waits for at the data port. -/
inductive PicWord where
  | offset
  | cascade
  | mode
  deriving DecidableEq

/-- One chip. -/
structure Pic where
  /-- The words of the initialisation that have not come yet. -/
  expects : List PicWord
  offset : BitVec 8
  cascade : BitVec 8
  mode : BitVec 8
  mask : BitVec 8
  requested : Fin 8 → Bool
  inService : Fin 8 → Bool

namespace Pic

/-- The line of the highest priority. -/
def first (lines : Fin 8 → Bool) : Option (Fin 8) := (List.finRange 8).find? lines

/-- A non-specific end of interrupt: that of the highest priority is no more in service. -/
def endOfInterrupt (p : Pic) : Pic :=
  match first p.inService with
  | some i => { p with inService := Function.update p.inService i false }
  | none => p

/-- A byte at the command port: the first word of an initialisation, or an end of interrupt.
Of the other commands none is covered. -/
def writeCommand (p : Pic) (value : BitVec 8) : Pic :=
  if value &&& 0x10 ≠ 0 then
    { p with
      expects := .offset :: (if value &&& 0x02 = 0 then [.cascade] else []) ++
        (if value &&& 0x01 = 0 then [] else [.mode])
      mask := 0
      requested := fun _ => false }
  else if value &&& 0xF8 = 0x20 then p.endOfInterrupt
  else p

/-- A byte at the data port: a word of the initialisation, or else the mask. -/
def writeData (p : Pic) (value : BitVec 8) : Pic :=
  match p.expects with
  | .offset :: words => { p with expects := words, offset := value &&& 0xF8 }
  | .cascade :: words => { p with expects := words, cascade := value }
  | .mode :: words => { p with expects := words, mode := value }
  | [] => { p with mask := value }

/-- The line that the chip signals, of those that request. -/
def pending (p : Pic) (lines : Fin 8 → Bool) : Option (Fin 8) :=
  (first fun i => lines i && !p.mask.getLsbD i).filter fun i =>
    decide (∀ j ≤ i, p.inService j = false)

/-- The acknowledgement of a line. -/
def accept (p : Pic) (i : Fin 8) : Pic :=
  { p with
    requested := Function.update p.requested i false
    inService := Function.update p.inService i true }

/-- The vector of a line. -/
def vector (p : Pic) (i : Fin 8) : BitVec 8 := p.offset ||| BitVec.ofNat 8 i

/-- Nothing is in service. -/
def Idle (p : Pic) : Prop := ∀ i, p.inService i = false

/-- At most one interrupt is in service. -/
def Only (p : Pic) (line : Option (Fin 8)) : Prop := ∀ i, p.inService i = decide (line = some i)

theorem Idle.only {p : Pic} (h : p.Idle) : p.Only none := fun i => h i

/-- An acknowledgement of a chip with nothing in service. -/
theorem Idle.accept {p : Pic} (h : p.Idle) (i : Fin 8) : (p.accept i).Only (some i) := by
  intro j
  change Function.update p.inService i true j = _
  by_cases hj : j = i
  · rw [hj, Function.update_self, decide_eq_true rfl]
  · rw [Function.update_of_ne hj, h j, decide_eq_false fun heq => hj (Option.some.inj heq).symm]

/-- **One end of interrupt is enough** if at most one interrupt is in service. -/
theorem Only.endOfInterrupt {p : Pic} {line : Option (Fin 8)} (h : p.Only line) :
    p.endOfInterrupt = { p with inService := fun _ => false } := by
  have hlines : p.inService = fun i => decide (line = some i) := funext h
  unfold Pic.endOfInterrupt
  cases line with
  | none =>
    have hnone : first p.inService = none :=
      List.find?_eq_none.mpr fun i _ => by rw [h i]; exact Bool.false_ne_true
    rw [hnone]
    exact congrArg (fun inService => { p with inService := inService }) hlines
  | some i =>
    -- the first line in service is the only one
    have hfirst : ∀ i : Fin 8, first (fun j => decide (some i = some j)) = some i := by decide
    rw [show first p.inService = some i from hlines ▸ hfirst i]
    -- and without it there is none
    have hclear : Function.update p.inService i false = fun _ => false := by
      funext j
      by_cases hj : j = i
      · rw [hj, Function.update_self]
      · rw [Function.update_of_ne hj, h j,
          decide_eq_false fun heq => hj (Option.some.inj heq).symm]
    exact congrArg (fun inService => { p with inService := inService }) hclear

/-- With nothing in service a chip signals the first line that requests and is not masked. -/
theorem pending_of_idle {p : Pic} (h : p.Idle) (lines : Fin 8 → Bool) :
    p.pending lines = first fun i => lines i && !p.mask.getLsbD i := by
  unfold pending
  cases first fun i => lines i && !p.mask.getLsbD i with
  | none => rfl
  | some i =>
    rw [Option.filter_some, decide_eq_true fun j _ => h j]
    rfl

end Pic

/-- Two chips in cascade, the second on line 2 of the first. -/
structure Pics where
  master : Pic
  slave : Pic

namespace Pics

/-- The line of the first chip that the second one is on. -/
def cascadeLine : Fin 8 := 2

/-- The lines of the first chip, as they are wired. -/
def lines (s : Pics) : Fin 8 → Bool :=
  Function.update s.master.requested cascadeLine (s.slave.pending s.slave.requested).isSome

/-- A device requests an interrupt. Its line is one of the first chip, or one of the second. -/
def request (s : Pics) : Fin 8 ⊕ Fin 8 → Pics
  | .inl i => { s with
      master := { s.master with requested := Function.update s.master.requested i true } }
  | .inr j => { s with
      slave := { s.slave with requested := Function.update s.slave.requested j true } }

/-- The processor acknowledges: the vector that it gets, if a line is signalled and the chip
that it belongs to answers. -/
def acknowledge (s : Pics) : Option (BitVec 8 × Pics) := do
  let i ← s.master.pending s.lines
  if s.master.cascade.getLsbD i then
    if s.slave.cascade = BitVec.ofNat 8 i then do
      let j ← s.slave.pending s.slave.requested
      some (s.slave.vector j, ⟨s.master.accept i, s.slave.accept j⟩)
    else none
  else some (s.master.vector i, ⟨s.master.accept i, s.slave⟩)

/-- Nothing is in service. -/
def Idle (s : Pics) : Prop := s.master.Idle ∧ s.slave.Idle

/-- The two chips are set up for the cascade. -/
def Cascaded (s : Pics) : Prop := s.master.cascade = 0x04 ∧ s.slave.cascade = 0x02

end Pics
end Framework
