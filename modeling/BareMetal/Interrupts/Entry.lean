import BareMetal.Framework.WordStack
import Mathlib.Logic.Function.Basic

/-!
# Entering and leaving an interrupt

The CPU pushes the flags, the code segment and the instruction pointer, for some
exceptions an error code, and runs the stub of the vector. A stub counts itself in the
counter of its kind, unless the counter is at its limit; then it halts. It pushes zero if
the CPU pushed no error code, then the vector, then all general registers. So every
stub leaves the same `interrupt_frame`.

The common entry chooses the stack. An interrupt of the kernel goes to the top of the
interrupt stack, an interrupt of a handler stays where it is; what tells them apart is
whether the frame is on the interrupt stack. The pointer to the frame is pushed twice,
once to get back and once as the argument of `interrupt_dispatcher`. On the way back
the vector is read from the frame, to see which counter to count down.

A state `Cpu` holds the registers, the two counters, which are bytes of their own, and
the memory. The arithmetic flags are not modelled: `iret` restores them all.
-/

namespace BareMetal

open Framework

/-! ### The processor -/

/-- The general registers that are not the stack pointer. -/
structure Registers where
  edi : BitVec 32
  esi : BitVec 32
  ebp : BitVec 32
  ebx : BitVec 32
  edx : BitVec 32
  ecx : BitVec 32
  eax : BitVec 32
  deriving DecidableEq

/-- `interrupt_frame`. -/
structure InterruptFrame where
  edi : BitVec 32
  esi : BitVec 32
  ebp : BitVec 32
  esp : BitVec 32
  ebx : BitVec 32
  edx : BitVec 32
  ecx : BitVec 32
  eax : BitVec 32
  vector : BitVec 32
  errorCode : BitVec 32
  eip : BitVec 32
  cs : BitVec 32
  eflags : BitVec 32

/-- The words of a frame in memory, from its address on. -/
def InterruptFrame.words (f : InterruptFrame) : List (BitVec 32) :=
  [f.edi, f.esi, f.ebp, f.esp, f.ebx, f.edx, f.ecx, f.eax, f.vector, f.errorCode, f.eip, f.cs,
    f.eflags]

/-- The two kinds of activations that are counted. -/
inductive Counter where
  | pic
  | exception
  deriving DecidableEq

/-- `pic_count_max` and `exception_count_max`. -/
def Counter.countMax : Counter → BitVec 8
  | .pic => 0x0F
  | .exception => 0x03

/-- The state of the processor. `counters` are `pic_counter` and `exception_counter`. -/
structure Cpu where
  regs : Registers
  esp : BitVec 32
  eip : BitVec 32
  eflags : BitVec 32
  cs : BitVec 16
  ds : BitVec 16
  es : BitVec 16
  counters : Counter → BitVec 8
  mem : Memory32
  halted : Bool

/-- The addresses that the linker fixes. The interrupt stack has room for a raw stack and
17 times a raw stack with a frame. -/
structure Image where
  interruptStackBottom : BitVec 32
  interruptStackTop : BitVec 32
  interruptRawStack : ℕ
  top_eq : interruptStackTop.toNat =
    interruptStackBottom.toNat + (interruptRawStack + (interruptRawStack + 52) * 17)
  /-- Where `interrupt_dispatcher` starts. -/
  interruptDispatcher : BitVec 32
  /-- The instruction after the call of it. -/
  returnAddress : BitVec 32

/-! ### Instructions -/

namespace Cpu

/-- `pushl`. -/
def push (cpu : Cpu) (v : BitVec 32) : Cpu :=
  { cpu with esp := cpu.esp - 4, mem := store32 cpu.mem (cpu.esp - 4) v }

/-- The word at the stack pointer. -/
def peek (cpu : Cpu) : BitVec 32 := load32 cpu.mem cpu.esp

/-- The stack pointer goes up by `n` bytes. -/
def drop (cpu : Cpu) (n : BitVec 32) : Cpu := { cpu with esp := cpu.esp + n }

/-- `pusha`. -/
def pusha (cpu : Cpu) : Cpu :=
  let r := cpu.regs
  (((((((cpu.push r.eax).push r.ecx).push r.edx).push r.ebx).push cpu.esp).push r.ebp).push
    r.esi).push r.edi

/-- `popa`: the word for the stack pointer is skipped. -/
def popa (cpu : Cpu) : Cpu :=
  let word (offset : BitVec 32) := load32 cpu.mem (cpu.esp + offset)
  { cpu with
    regs :=
      { edi := word 0, esi := word 4, ebp := word 8, ebx := word 16, edx := word 20,
        ecx := word 24, eax := word 28 }
    esp := cpu.esp + 32 }

/-- `iret` without a change of privilege. -/
def iret (cpu : Cpu) : Cpu :=
  { cpu with
    eip := load32 cpu.mem cpu.esp
    cs := (load32 cpu.mem (cpu.esp + 4)).setWidth 16
    eflags := load32 cpu.mem (cpu.esp + 8)
    esp := cpu.esp + 12 }

end Cpu

def interruptFlag : BitVec 32 := 0x200
def dataSeg : BitVec 16 := 0x10

/-! ### The stubs -/

/-- The vectors of `ISR_WITH_ERROR`. -/
def isrWithErrorVectors : List ℕ := [8, 10, 11, 12, 13, 14, 17]

/-- The vectors of `ISR_NO_ERROR`. -/
def isrNoErrorVectors : List ℕ :=
  [0, 1, 2, 3, 4, 5, 6, 7, 9, 15, 16] ++ [18, 19, 20, 21, 22, 23, 24, 25, 26, 27, 28, 29, 30, 31]

/-- The vectors of `IRQ`. -/
def irqVectors : List ℕ := [32, 33, 34, 35, 36, 37, 38, 39, 40, 41, 42, 43, 44, 45, 46, 47]

/-- `nesting_overflow_hlt`: interrupts off, and a loop of halts. -/
def nestingOverflowHlt (cpu : Cpu) : Cpu :=
  { cpu with eflags := cpu.eflags &&& ~~~interruptFlag, halted := true }

/-- What the three macros have in common: the counter, whether a zero stands in for the
error code, and the vector. -/
def stubOf (counter : Counter) (zero : Bool) (vector : ℕ) (cpu : Cpu) : Cpu :=
  if counter.countMax ≤ cpu.counters counter then nestingOverflowHlt cpu
  else
    let cpu := { cpu with
      counters := Function.update cpu.counters counter (cpu.counters counter + 1) }
    let cpu := if zero then cpu.push 0 else cpu
    (cpu.push (BitVec.ofNat 32 vector)).pusha

/-- `ISR_NO_ERROR`. -/
def isrNoError : ℕ → Cpu → Cpu := stubOf .exception true

/-- `ISR_WITH_ERROR`. -/
def isrWithError : ℕ → Cpu → Cpu := stubOf .exception false

/-- `IRQ`. -/
def irq : ℕ → Cpu → Cpu := stubOf .pic true

/-- The stub of a vector. -/
def stub (vector : Fin 48) : Cpu → Cpu :=
  if vector.val ∈ irqVectors then irq vector
  else if vector.val ∈ isrWithErrorVectors then isrWithError vector
  else isrNoError vector

/-- Every vector has one stub. -/
example : ∀ vector : Fin 48, vector.val ∉ irqVectors → vector.val ∉ isrWithErrorVectors →
    vector.val ∈ isrNoErrorVectors := by decide

/-- What the CPU does before the stub: an interrupt gate. It pushes an error code for the
vectors whose stub counts on one. -/
def interruptGate (vector : Fin 48) (errorCode : BitVec 32) (cpu : Cpu) : Cpu :=
  let cpu := ((cpu.push cpu.eflags).push (cpu.cs.setWidth 32)).push cpu.eip
  let cpu := if vector.val ∈ isrWithErrorVectors then cpu.push errorCode else cpu
  { cpu with eflags := cpu.eflags &&& ~~~interruptFlag }

/-! ### The common entry -/

/-- The first part of `common_interrupt_entry`: the two conditional moves. -/
def selectStack (image : Image) (cpu : Cpu) : Cpu :=
  let edx := cpu.esp
  let ebx := image.interruptStackBottom
  let ecx := image.interruptStackTop
  let esp := if edx ≤ ebx then ecx else cpu.esp
  let esp := if ecx < edx then ecx else esp
  { cpu with regs := { cpu.regs with edx := edx, ebx := ebx, ecx := ecx }, esp := esp }

/-- `set_interrupt_grounds`, up to the call. -/
def setInterruptGrounds (image : Image) (cpu : Cpu) : Cpu :=
  let cpu := cpu.push cpu.regs.edx
  let eax := (cpu.regs.eax &&& 0xFFFF0000) ||| dataSeg.setWidth 32
  let cpu := { cpu with regs := { cpu.regs with eax := eax }, ds := dataSeg, es := dataSeg }
  let cpu := (cpu.push cpu.regs.edx).push image.returnAddress
  { cpu with eip := image.interruptDispatcher }

/-- An interrupt, up to the first instruction of `interrupt_dispatcher` or to the halt. -/
def enterInterrupt (image : Image) (vector : Fin 48) (errorCode : BitVec 32) (cpu : Cpu) : Cpu :=
  let cpu := stub vector (interruptGate vector errorCode cpu)
  if cpu.halted then cpu else setInterruptGrounds image (selectStack image cpu)

/-! ### The way back -/

/-- From the instruction after the call to `iret`. -/
def interruptReturn (cpu : Cpu) : Cpu :=
  let cpu := cpu.drop 4
  let cpu := { cpu with esp := cpu.peek }
  let vector := load32 cpu.mem (cpu.esp + 0x20)
  -- `al` and `bl`, which `popa` overwrites
  let al : BitVec 8 := if 0x20 ≤ vector then 1 else 0
  let bl : BitVec 8 := if vector < 0x20 then 1 else 0
  let counters := Function.update cpu.counters .pic (cpu.counters .pic - al)
  let counters := Function.update counters .exception (counters .exception - bl)
  (({ cpu with counters := counters }.popa).drop 8).iret

/-- The `ret` of `interrupt_dispatcher`, and what follows. -/
def dispatcherReturn (image : Image) (cpu : Cpu) : Cpu :=
  let eip := cpu.peek
  let cpu := cpu.drop 4
  if eip = image.returnAddress then interruptReturn cpu else { cpu with eip := eip }

end BareMetal
