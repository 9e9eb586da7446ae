import BareMetal.Interrupts.EntrySpec
import BareMetal.Kernel.Logger
import BareMetal.Kernel.Pic
import BareMetal.Kernel.Timer
import BareMetal.Drivers.Guard

/-!
# Interrupt handlers

The kernel fills an interrupt descriptor table and a table of handlers. The first has a gate
for each of the six vectors that the kernel knows, with the address of the stub of the vector;
the second has a handler for each of the 256 vectors, one and the same for those that are not
known. `interrupt_dispatcher` calls the handler of the vector in the frame and then ends the
interrupt at the controllers, if it came from there.
-/

namespace BareMetal

open Framework

/-! ### The descriptor table -/

/-- `idt_entry`. -/
structure IdtEntry where
  offsetLow : BitVec 16
  selector : BitVec 16
  zero : BitVec 8
  typeAttributes : BitVec 8
  offsetHigh : BitVec 16
  deriving DecidableEq

/-- `idt_entry_table`, as it is initialised. -/
def IdtEntry.init : IdtEntry := ⟨0, 0, 0, 0, 0⟩

/-- `total_entries`. -/
def totalEntries : ℕ := 256

/-- `idtr_descriptor`. -/
structure IdtrDescriptor where
  limit : BitVec 16
  base : BitVec 32

/-- `set_interrupt_gate`. -/
def setInterruptGate (table : BitVec 8 → IdtEntry) (vector : BitVec 8)
    (handlerAddress : BitVec 32) (selector : BitVec 16) (typeAttributes : BitVec 8) :
    BitVec 8 → IdtEntry :=
  Function.update table vector
    { offsetLow := (handlerAddress &&& 0xFFFF).setWidth 16
      selector := selector
      zero := 0
      typeAttributes := typeAttributes
      offsetHigh := ((handlerAddress >>> 16) &&& 0xFFFF).setWidth 16 }

/-- What `load_idt` gives to the processor. -/
def loadIdt (tableAddress : BitVec 32) : IdtrDescriptor where
  limit := BitVec.ofNat 16 (8 * totalEntries - 1)
  base := tableAddress

/-- What the processor makes of an entry: a 32-bit interrupt gate that is present, with the
address to go to and the code segment. -/
def IdtEntry.gate? (e : IdtEntry) : Option (BitVec 32 × BitVec 16) :=
  if e.typeAttributes.getLsbD 7 ∧ e.typeAttributes &&& 0x1F = 0x0E then
    some (e.offsetHigh ++ e.offsetLow, e.selector)
  else none

/-! ### The lists -/

def kernelCodeSelector : BitVec 16 := 0x08
def interruptGateAttributes : BitVec 8 := 0x8E
def irqBase : ℕ := 32
def irqMax : ℕ := 47

/-- An exception of `CPU_INTERRUPT_LIST`. -/
structure CpuInterrupt where
  vector : Fin 48
  title : List (BitVec 8)
  mnemonic : List (BitVec 8)

/-- `CPU_INTERRUPT_LIST`. -/
def cpuInterruptList : List CpuInterrupt :=
  [⟨0, ascii "Divide Error", ascii "#DE"⟩, ⟨6, ascii "Invalid Opcode", ascii "#UD"⟩,
    ⟨13, ascii "General Protection Fault", ascii "#GP"⟩, ⟨14, ascii "Page Fault", ascii "#PF"⟩]

/-- `interrupt_handler`: what an entry of the table of handlers may be. -/
inductive InterruptHandler where
  | handleCpuException
  | handleTimerInterrupt
  | handleKeyboardInterrupt
  | defaultInterruptHandler
  deriving DecidableEq

/-- `HARDWARE_INTERRUPT_LIST`, with the handlers that its entries name. -/
def hardwareInterruptList : List (Fin 48 × InterruptHandler) :=
  [(32, .handleTimerInterrupt), (33, .handleKeyboardInterrupt)]

/-- `g_interrupt_handlers`. -/
def gInterruptHandlers : ℕ → InterruptHandler :=
  let entries := fun _ => InterruptHandler.defaultInterruptHandler
  let entries := cpuInterruptList.foldl
    (fun entries x => Function.update entries x.vector.val .handleCpuException) entries
  hardwareInterruptList.foldl (fun entries x => Function.update entries x.1.val x.2) entries

/-! ### The handlers -/

/-- What the handlers work on: the controllers, the globals of the timer and of the keyboard,
and the logger. A processor that is halted with interrupts off stays so. -/
structure InterruptState where
  pics : Pics
  timer : Timer
  keyboard : Keyboard
  log : Logger
  halted : Bool

namespace InterruptState

variable (tier : Tier) (clzZero : ℤ) (s : InterruptState)

/-- `halt_forever`. -/
def haltForever : InterruptState := { s with halted := true }

/-- What `handle_exception` sends to the logger. -/
def exceptionItems (name mnemonic : List (BitVec 8)) (frame : InterruptFrame) : List Item :=
  let value (v : BitVec 32) : Item := .unsigned .w32 v.toNat
  [.string (ascii "CPU exception: "), .string name, .char 0x20, .string mnemonic,
    .hex, .string (ascii "\nEIP:"), value frame.eip, .string (ascii "\nEFLAGS:"),
    value frame.eflags, .string (ascii "\nError Code:"), value frame.errorCode,
    .string (ascii "\nEAX:"), value frame.eax, .string (ascii "     ECX:"), value frame.ecx,
    .string (ascii "\nEDX:"), value frame.edx, .string (ascii " EBX:"), value frame.ebx,
    .string (ascii "\nESP:"), value frame.esp, .string (ascii " EBP:"), value frame.ebp,
    .string (ascii "\nESI:"), value frame.esi, .string (ascii "  EDI:"), value frame.edi,
    .string (ascii "\nVector:"), value frame.vector, .char 0x0A]

/-- `handle_exception`. -/
def handleException (name mnemonic : List (BitVec 8)) (frame : InterruptFrame) :
    InterruptState :=
  let log := (Logger.error tier clzZero s.log).printAll tier clzZero
    (exceptionItems name mnemonic frame)
  { s with log := Logger.panic tier clzZero log (ascii "Unhandled CPU exception") }.haltForever

/-- `handle_cpu_exception`. -/
def handleCpuException (frame : InterruptFrame) : InterruptState :=
  match cpuInterruptList.find? fun x => frame.vector.toNat = x.vector.val with
  | some x => s.handleException tier clzZero x.title x.mnemonic frame
  | none =>
    { s with
      log := (Logger.warning tier clzZero s.log).printAll tier clzZero
        [.string (ascii "No handler registered in vector "),
          .unsigned .w32 frame.vector.toNat] }.haltForever

/-- `default_interrupt_handler`, of a frame that is there. -/
def defaultInterruptHandler (frame : InterruptFrame) : InterruptState :=
  let vector := frame.vector.toNat
  let s := { s with
    log := (Logger.error tier clzZero s.log).printAll tier clzZero
      [.string (ascii "Unhandled interrupt vector: "), .unsigned .w32 vector,
        .string (ascii "\nError Code: "), .unsigned .w32 frame.errorCode.toNat,
        .string (ascii "\nEIP: "), .hex, .unsigned .w32 frame.eip.toNat, .char 0x0A, .dec] }
  if irqBase ≤ vector ∧ vector ≤ irqMax then s else s.haltForever

/-- The handler of an entry. The keyboard's reads its two ports. -/
def handle (ports : KeyboardPorts) (frame : InterruptFrame) : InterruptHandler → InterruptState
  | .handleCpuException => s.handleCpuException tier clzZero frame
  | .handleTimerInterrupt => { s with timer := s.timer.handleInterrupt }
  | .handleKeyboardInterrupt =>
    { s with keyboard := s.keyboard.handleInterrupt ports.status ports.scancode }
  | .defaultInterruptHandler => s.defaultInterruptHandler tier clzZero frame

/-- `interrupt_dispatcher`. A handler that halts does not come back. -/
def interruptDispatcher (ports : KeyboardPorts) (frame : InterruptFrame) : InterruptState :=
  let vector := frame.vector.toNat
  let s := s.handle tier clzZero ports frame (gInterruptHandlers vector)
  if s.halted then s
  else if irqBase ≤ vector ∧ vector ≤ irqMax then
    { s with pics := PicPorts.sendEoi s.pics (vector - irqBase) }
  else s

section Dispatch

variable {tier clzZero s} {ports : KeyboardPorts} {frame : InterruptFrame}

/-- The interrupt of the timer. -/
theorem dispatch_timer (hhalted : s.halted = false) (hvector : frame.vector.toNat = 32) :
    s.interruptDispatcher tier clzZero ports frame =
      { s with timer := s.timer.handleInterrupt, pics := PicPorts.sendEoi s.pics 0 } := by
  have hhandler : gInterruptHandlers 32 = .handleTimerInterrupt := by rfl
  unfold interruptDispatcher
  simp only [hvector, hhandler, handle, hhalted, Bool.false_eq_true, if_false]
  exact if_pos (by decide)

/-- The interrupt of the keyboard. -/
theorem dispatch_keyboard (hhalted : s.halted = false) (hvector : frame.vector.toNat = 33) :
    s.interruptDispatcher tier clzZero ports frame =
      { s with
        keyboard := s.keyboard.handleInterrupt ports.status ports.scancode
        pics := PicPorts.sendEoi s.pics 1 } := by
  have hhandler : gInterruptHandlers 33 = .handleKeyboardInterrupt := by rfl
  unfold interruptDispatcher
  simp only [hvector, hhandler, handle, hhalted, Bool.false_eq_true, if_false]
  exact if_pos (by decide)

/-- An exception of the list is found by its own entry. It is not ended, since its handler
does not come back. -/
theorem dispatch_exception {x : CpuInterrupt} (hmem : x ∈ cpuInterruptList)
    (hvector : frame.vector.toNat = x.vector.val) :
    s.interruptDispatcher tier clzZero ports frame =
      s.handleException tier clzZero x.title x.mnemonic frame := by
  have hlists : ∀ x ∈ cpuInterruptList,
      gInterruptHandlers x.vector.val = .handleCpuException ∧
        cpuInterruptList.find? (fun y => x.vector.val = y.vector.val) = some x := by
    intro x hx
    simp only [cpuInterruptList, List.mem_cons, List.not_mem_nil, or_false] at hx
    rcases hx with rfl | rfl | rfl | rfl <;> exact ⟨rfl, rfl⟩
  obtain ⟨hhandler, hfind⟩ := hlists x hmem
  have hhandle : s.handle tier clzZero ports frame (gInterruptHandlers x.vector.val) =
      s.handleException tier clzZero x.title x.mnemonic frame := by
    rw [hhandler]
    unfold handle handleCpuException
    simp only [hvector, hfind]
  unfold interruptDispatcher
  simp only [hvector, hhandle]
  exact if_pos rfl

end Dispatch
end InterruptState

/-! ### Setting up -/

/-- `install_exception`, for the vectors of the two lists; `stubs` are the addresses of
`isr_` and `irq_`. -/
def installAll (stubs : Fin 48 → BitVec 32) (table : BitVec 8 → IdtEntry) :
    BitVec 8 → IdtEntry :=
  (cpuInterruptList.map (·.vector) ++ hardwareInterruptList.map (·.1)).foldl
    (fun table (v : Fin 48) => setInterruptGate table (BitVec.ofNat 8 v.val) (stubs v)
      kernelCodeSelector interruptGateAttributes) table

/-- `initialize_exceptions`, as far as the controllers go. -/
def initializePics (pics : Pics) : Pics :=
  PicPorts.maskAllExceptTimerAndKeyboard (PicPorts.picRemap pics 32 40)

end BareMetal
