import BareMetal.Interrupts.Entry

/-!
# What an entry writes and a return reads

With or without an error code of the CPU, a stub that does not halt has pushed the
thirteen words of one `InterruptFrame` (`stub_spec`). The common entry adds three words
on the stack it chooses (`enterInterrupt_spec`): the pointer to the frame, the same again
as the argument, and the return address.

`Saved` says that the words that matter on the way back are in memory: the frame, the
return address and the pointer. Then the way back ends with the registers of the frame
and with the stack pointer above it, and has counted down the counter of the vector in
the frame (`dispatcherReturn_spec`).
-/

namespace BareMetal

open Framework

/-! ### The frame -/

/-- The counter of a vector. -/
def counterOf (vector : Fin 48) : Counter := if 32 ≤ vector.val then .pic else .exception

/-- The word in the frame for the error code. -/
def errorWord (vector : Fin 48) (errorCode : BitVec 32) : BitVec 32 :=
  if vector.val ∈ isrWithErrorVectors then errorCode else 0

/-- The frame that an interrupt leaves. -/
def savedFrame (vector : Fin 48) (errorCode : BitVec 32) (cpu : Cpu) : InterruptFrame where
  edi := cpu.regs.edi
  esi := cpu.regs.esi
  ebp := cpu.regs.ebp
  esp := cpu.esp - 20
  ebx := cpu.regs.ebx
  edx := cpu.regs.edx
  ecx := cpu.regs.ecx
  eax := cpu.regs.eax
  vector := BitVec.ofNat 32 vector
  errorCode := errorWord vector errorCode
  eip := cpu.eip
  cs := cpu.cs.setWidth 32
  eflags := cpu.eflags

/-- What has to be in memory for the way back, with the dispatcher called at `callEsp`. -/
structure Saved (image : Image) (m : Memory32) (callEsp frame : BitVec 32) (f : InterruptFrame) :
    Prop where
  words : WordsAt m frame f.words
  returnAddress : load32 m callEsp = image.returnAddress
  pointer : load32 m (callEsp + 8) = frame

/-! ### The entry -/

namespace Cpu

/-- The stack of the processor. -/
def stack (cpu : Cpu) : WordStack := ⟨cpu.mem, cpu.esp⟩

@[simp] theorem push_counters (cpu : Cpu) (v : BitVec 32) :
    (cpu.push v).counters = cpu.counters := rfl

@[simp] theorem push_halted (cpu : Cpu) (v : BitVec 32) : (cpu.push v).halted = cpu.halted := rfl

@[simp] theorem pusha_counters (cpu : Cpu) : cpu.pusha.counters = cpu.counters := by simp [pusha]

@[simp] theorem pusha_halted (cpu : Cpu) : cpu.pusha.halted = cpu.halted := by simp [pusha]

end Cpu

/-- The words that the CPU pushes. -/
def gateWords (vector : Fin 48) (errorCode : BitVec 32) (cpu : Cpu) : List (BitVec 32) :=
  [cpu.eflags, cpu.cs.setWidth 32, cpu.eip] ++
    if vector.val ∈ isrWithErrorVectors then [errorCode] else []

/-- The CPU pushes words and turns interrupts off. -/
structure Gated (vector : Fin 48) (errorCode : BitVec 32) (cpu cpu' : Cpu) : Prop where
  stack : cpu'.stack = cpu.stack.pushAll (gateWords vector errorCode cpu)
  regs : cpu'.regs = cpu.regs
  counters : cpu'.counters = cpu.counters
  halted : cpu'.halted = cpu.halted

theorem interruptGate_spec (vector : Fin 48) (errorCode : BitVec 32) (cpu : Cpu) :
    Gated vector errorCode cpu (interruptGate vector errorCode cpu) := by
  unfold interruptGate
  by_cases hv : vector.val ∈ isrWithErrorVectors
  · have hwords : gateWords vector errorCode cpu = _ ++ _ := congrArg (_ ++ ·) (if_pos hv)
    simp only [if_pos hv]
    exact ⟨by rw [hwords]; rfl, rfl, rfl, rfl⟩
  · have hwords : gateWords vector errorCode cpu = _ ++ _ := congrArg (_ ++ ·) (if_neg hv)
    simp only [if_neg hv]
    exact ⟨by rw [hwords]; rfl, rfl, rfl, rfl⟩

theorem length_gateWords_le (vector : Fin 48) (errorCode : BitVec 32) (cpu : Cpu) :
    (gateWords vector errorCode cpu).length ≤ 4 := by
  unfold gateWords
  by_cases hv : vector.val ∈ isrWithErrorVectors <;> simp [hv]

/-- The words that a stub pushes before the registers. -/
def stubWords (zero : Bool) (vector : ℕ) : List (BitVec 32) :=
  (if zero then [0] else []) ++ [BitVec.ofNat 32 vector]

/-- The stack of a stub whose counter has room. -/
theorem stubOf_stack {counter : Counter} {zero : Bool} {vector : ℕ} {cpu : Cpu}
    (hroom : ¬ counter.countMax ≤ cpu.counters counter) :
    (stubOf counter zero vector cpu).stack =
      let s := cpu.stack.pushAll (stubWords zero vector)
      let r := cpu.regs
      s.pushAll [r.eax, r.ecx, r.edx, r.ebx, s.sp, r.ebp, r.esi, r.edi] := by
  unfold stubOf
  rw [if_neg hroom]
  cases zero <;> rfl

theorem stubOf_counters {counter : Counter} {zero : Bool} {vector : ℕ} {cpu : Cpu}
    (hroom : ¬ counter.countMax ≤ cpu.counters counter) :
    (stubOf counter zero vector cpu).counters
        = Function.update cpu.counters counter (cpu.counters counter + 1) ∧
      (stubOf counter zero vector cpu).halted = cpu.halted := by
  unfold stubOf
  rw [if_neg hroom]
  cases zero <;> simp

/-- Which macro makes the stub. -/
theorem stub_eq (vector : Fin 48) :
    stub vector = stubOf (counterOf vector) (decide (vector.val ∉ isrWithErrorVectors)) vector := by
  have hirq : ∀ v : Fin 48, v.val ∈ irqVectors ↔ 32 ≤ v.val := by decide
  have hno : ∀ v : Fin 48, 32 ≤ v.val → v.val ∉ isrWithErrorVectors := by decide
  unfold stub counterOf
  by_cases hv : 32 ≤ vector.val
  · rw [if_pos ((hirq vector).mpr hv), if_pos hv, decide_eq_true (hno vector hv)]
    rfl
  · rw [if_neg (mt (hirq vector).mp hv), if_neg hv]
    by_cases he : vector.val ∈ isrWithErrorVectors
    · rw [if_pos he, decide_eq_false (not_not.mpr he)]
      rfl
    · rw [if_neg he, decide_eq_true he]
      rfl

section Entry

variable {image : Image} {vector : Fin 48} {errorCode : BitVec 32} {cpu : Cpu}

/-- A stub whose counter is at its limit halts, and has pushed nothing. -/
theorem enterInterrupt_of_full
    (hfull : (counterOf vector).countMax ≤ cpu.counters (counterOf vector)) :
    enterInterrupt image vector errorCode cpu =
      nestingOverflowHlt (interruptGate vector errorCode cpu) := by
  have hstub : stub vector (interruptGate vector errorCode cpu)
      = nestingOverflowHlt (interruptGate vector errorCode cpu) := by
    rw [stub_eq]
    apply if_pos
    rw [(interruptGate_spec vector errorCode cpu).counters]
    exact hfull
  unfold enterInterrupt
  rw [hstub]
  rfl

/-- The state in which the common entry starts. -/
structure Stubbed (vector : Fin 48) (errorCode : BitVec 32) (cpu cpu' : Cpu) : Prop where
  stack : cpu'.stack = cpu.stack.pushAll (savedFrame vector errorCode cpu).words.reverse
  counters : cpu'.counters = Function.update cpu.counters (counterOf vector)
    (cpu.counters (counterOf vector) + 1)
  halted : cpu'.halted = cpu.halted

/-- **Every stub leaves the same frame.** -/
theorem stub_spec (hroom : ¬ (counterOf vector).countMax ≤ cpu.counters (counterOf vector)) :
    Stubbed vector errorCode cpu (stub vector (interruptGate vector errorCode cpu)) := by
  have hgate := interruptGate_spec vector errorCode cpu
  have hroom' : ¬ (counterOf vector).countMax ≤
      (interruptGate vector errorCode cpu).counters (counterOf vector) := by
    rw [hgate.counters]
    exact hroom
  rw [stub_eq]
  refine ⟨?_, ?_, ?_⟩
  · -- with or without an error code the gate and the stub push five words first
    have hwords : gateWords vector errorCode cpu ++
          stubWords (decide (vector.val ∉ isrWithErrorVectors)) vector =
        [cpu.eflags, cpu.cs.setWidth 32, cpu.eip, errorWord vector errorCode,
          BitVec.ofNat 32 vector] := by
      unfold gateWords stubWords errorWord
      by_cases hv : vector.val ∈ isrWithErrorVectors <;> simp [hv]
    have hfive := congrArg (cpu.stack.pushAll ·) hwords
    rw [← WordStack.pushAll_append, ← hgate.stack] at hfive
    rw [stubOf_stack hroom', hfive, hgate.regs]
    -- the stack pointer among the registers is the one after those five
    change WordStack.pushAll (WordStack.pushAll _ _) _ = _
    rw [WordStack.pushAll_append, WordStack.sp_pushAll]
    rfl
  · rw [(stubOf_counters hroom').1, hgate.counters]
  · rw [(stubOf_counters hroom').2, hgate.halted]

/-- The stack that the common entry goes on with, given the address of the frame. -/
def stackBase (image : Image) (frame : BitVec 32) : BitVec 32 :=
  if frame ≤ image.interruptStackBottom ∨ image.interruptStackTop < frame then
    image.interruptStackTop
  else frame

theorem selectStack_esp (image : Image) (cpu : Cpu) :
    (selectStack image cpu).esp = stackBase image cpu.esp := by
  unfold selectStack stackBase
  by_cases htop : image.interruptStackTop < cpu.esp
  · simp only [htop, or_true, if_true]
  · simp only [htop, or_false, if_false]

/-- The words that the common entry pushes. -/
theorem setInterruptGrounds_stack (image : Image) (cpu : Cpu) :
    (setInterruptGrounds image cpu).stack =
      cpu.stack.pushAll [cpu.regs.edx, cpu.regs.edx, image.returnAddress] := rfl

/-- The state in which the dispatcher starts. -/
structure Entered (image : Image) (vector : Fin 48) (errorCode : BitVec 32) (cpu cpu' : Cpu) :
    Prop where
  stack : cpu'.stack =
    WordStack.pushAll ⟨(cpu.stack.pushAll (savedFrame vector errorCode cpu).words.reverse).mem,
      stackBase image (cpu.esp - 52)⟩ [cpu.esp - 52, cpu.esp - 52, image.returnAddress]
  counters : cpu'.counters = Function.update cpu.counters (counterOf vector)
    (cpu.counters (counterOf vector) + 1)
  halted : cpu'.halted = false

/-- The stub leaves the stack pointer at the frame. -/
theorem stub_esp (hroom : ¬ (counterOf vector).countMax ≤ cpu.counters (counterOf vector)) :
    (stub vector (interruptGate vector errorCode cpu)).esp = cpu.esp - 52 :=
  (congrArg WordStack.sp (stub_spec hroom).stack).trans (WordStack.sp_pushAll _)

/-- **An entry.** A frame below the stack pointer, and three words on the chosen stack. -/
theorem enterInterrupt_spec (hhalted : cpu.halted = false)
    (hroom : ¬ (counterOf vector).countMax ≤ cpu.counters (counterOf vector)) :
    Entered image vector errorCode cpu (enterInterrupt image vector errorCode cpu) := by
  have hstub : Stubbed vector errorCode cpu _ := stub_spec hroom
  have hhalted' := hstub.halted.trans hhalted
  have hesp : (stub vector (interruptGate vector errorCode cpu)).esp = _ := stub_esp hroom
  unfold enterInterrupt
  simp only [hhalted', Bool.false_eq_true, if_false]
  refine ⟨?_, hstub.counters, hhalted'⟩
  rw [setInterruptGrounds_stack, ← hstub.stack, ← hesp]
  change WordStack.pushAll ⟨_, (selectStack image _).esp⟩ _ = _
  rw [selectStack_esp]
  rfl

namespace Entered

variable {cpu' : Cpu}

theorem esp (h : Entered image vector errorCode cpu cpu') :
    cpu'.esp = stackBase image (cpu.esp - 52) - 12 :=
  (congrArg WordStack.sp h.stack).trans (WordStack.sp_pushAll _)

theorem wordsAt_call (h : Entered image vector errorCode cpu cpu') :
    WordsAt cpu'.mem cpu'.esp [image.returnAddress, cpu.esp - 52, cpu.esp - 52] := by
  have hwords := WordStack.wordsAt_pushAll
    ⟨(cpu.stack.pushAll (savedFrame vector errorCode cpu).words.reverse).mem,
      stackBase image (cpu.esp - 52)⟩
    [cpu.esp - 52, cpu.esp - 52, image.returnAddress] (show 4 * 3 ≤ 2 ^ 32 by decide)
  rw [← h.stack] at hwords
  exact hwords

/-- The three words change nothing else. -/
theorem mem_call (h : Entered image vector errorCode cpu cpu') {x : BitVec 32}
    (hx : x ∉ region cpu'.esp 12) :
    cpu'.mem x = (cpu.stack.pushAll (savedFrame vector errorCode cpu).words.reverse).mem x := by
  rw [show cpu'.esp = _ from congrArg WordStack.sp h.stack] at hx
  exact (congrArg (fun s => s.mem x) h.stack).trans (WordStack.mem_pushAll
    [cpu.esp - 52, cpu.esp - 52, image.returnAddress] (show 4 * 3 ≤ 2 ^ 32 by decide) hx)

/-- The frame is in memory, if the three words are not written over it. -/
theorem wordsAt_frame (h : Entered image vector errorCode cpu cpu')
    (hapart : ∀ x ∈ region (cpu.esp - 52) 52, x ∉ region cpu'.esp 12) :
    WordsAt cpu'.mem (cpu.esp - 52) (savedFrame vector errorCode cpu).words := by
  have hwords := WordStack.wordsAt_pushAll cpu.stack
    (savedFrame vector errorCode cpu).words.reverse (show 4 * 13 ≤ 2 ^ 32 by decide)
  rw [WordStack.sp_pushAll, List.reverse_reverse] at hwords
  exact hwords.congr (show 4 * 13 ≤ 2 ^ 32 by decide) fun x hx => h.mem_call (hapart x hx)

/-- What the way back needs is there. -/
theorem saved (h : Entered image vector errorCode cpu cpu')
    (hapart : ∀ x ∈ region (cpu.esp - 52) 52, x ∉ region cpu'.esp 12) :
    Saved image cpu'.mem cpu'.esp (cpu.esp - 52) (savedFrame vector errorCode cpu) where
  words := h.wordsAt_frame hapart
  returnAddress := h.wordsAt_call.1
  pointer := h.wordsAt_call.load (show 2 < 3 by decide)

/-- **Only the frame and the three words are written.** -/
theorem mem_eq (h : Entered image vector errorCode cpu cpu') {x : BitVec 32}
    (hframe : x ∉ region (cpu.esp - 52) 52) (hcall : x ∉ region cpu'.esp 12) :
    cpu'.mem x = cpu.mem x := by
  rw [h.mem_call hcall]
  refine WordStack.mem_pushAll (savedFrame vector errorCode cpu).words.reverse
    (show 4 * 13 ≤ 2 ^ 32 by decide) ?_
  rw [WordStack.sp_pushAll]
  exact hframe

end Entered
end Entry

/-! ### The way back -/

/-- The bytes that matter on the way back. -/
def savedBytes (callEsp frame : BitVec 32) : Set (BitVec 32) :=
  region frame 52 ∪ (region callEsp 4 ∪ region (callEsp + 8) 4)

/-- What is saved stays saved as long as its bytes do. -/
theorem Saved.congr {image : Image} {m m' : Memory32} {callEsp frame : BitVec 32}
    {f : InterruptFrame} (h : Saved image m callEsp frame f)
    (hmem : ∀ x ∈ savedBytes callEsp frame, m' x = m x) : Saved image m' callEsp frame f where
  words := h.words.congr (show 4 * 13 ≤ 2 ^ 32 by decide) fun x hx => hmem x (.inl hx)
  returnAddress := (load32_congr fun x hx => hmem x (.inr (.inl hx))).trans h.returnAddress
  pointer := (load32_congr fun x hx => hmem x (.inr (.inr hx))).trans h.pointer

section Return

variable {image : Image} {cpu : Cpu} {frame : BitVec 32} {f : InterruptFrame}

/-- The counters after the vector is read. -/
def countDown (vector : BitVec 32) (counters : Counter → BitVec 8) : Counter → BitVec 8
  | .pic => counters .pic - if 0x20 ≤ vector then 1 else 0
  | .exception => counters .exception - if vector < 0x20 then 1 else 0

/-- The state after the way back, from what was in memory. -/
def returned (cpu : Cpu) (frame : BitVec 32) (f : InterruptFrame) : Cpu :=
  { cpu with
    regs :=
      { edi := f.edi, esi := f.esi, ebp := f.ebp, ebx := f.ebx, edx := f.edx, ecx := f.ecx,
        eax := f.eax }
    esp := frame + 52
    eip := f.eip
    cs := f.cs.setWidth 16
    eflags := f.eflags
    counters := countDown f.vector cpu.counters }

/-- The two subtractions. -/
theorem update_counters (counters : Counter → BitVec 8) (vector : BitVec 32) :
    (Function.update (Function.update counters .pic
        (counters .pic - if 0x20 ≤ vector then 1 else 0)) .exception
      (Function.update counters .pic (counters .pic - if 0x20 ≤ vector then 1 else 0) .exception
        - if vector < 0x20 then 1 else 0)) = countDown vector counters := by
  funext c
  cases c <;> rfl

/-- **A return.** All registers come from the frame, and the stack pointer ends above it. -/
theorem dispatcherReturn_spec (h : Saved image cpu.mem cpu.esp frame f) :
    dispatcherReturn image cpu = returned cpu frame f := by
  have hword (i : ℕ) (hi : i < 13) : load32 cpu.mem (frame + BitVec.ofNat 32 (4 * i)) = _ :=
    h.words.load hi
  have hpointer : load32 cpu.mem (cpu.esp + 4 + 4) = frame := by
    rw [show cpu.esp + 4 + 4 = cpu.esp + 8 by bv_omega]
    exact h.pointer
  have hreturn : dispatcherReturn image cpu = interruptReturn (cpu.drop 4) :=
    if_pos h.returnAddress
  rw [hreturn]
  unfold interruptReturn Cpu.drop Cpu.peek
  simp only [hpointer]
  unfold Cpu.popa Cpu.iret returned
  simp only [Cpu.mk.injEq, Registers.mk.injEq]
  -- the vector selects the counter that is decremented
  have hvector : load32 cpu.mem (frame + 0x20) = f.vector := hword 8 (by decide)
  rw [hvector]
  have hiret : frame + 32 + 8 = frame + 40 := by bv_omega
  have hesp : frame + 40 + 12 = frame + 52 := by bv_omega
  have hcs : frame + 40 + 4 = frame + 44 := by bv_omega
  have heflags : frame + 40 + 8 = frame + 48 := by bv_omega
  rw [hiret, hesp, hcs, heflags, update_counters]
  -- word 3 is the pointer that `popa` skips
  exact ⟨⟨hword 0 (by decide), hword 1 (by decide), hword 2 (by decide), hword 4 (by decide),
    hword 5 (by decide), hword 6 (by decide), hword 7 (by decide)⟩, rfl, hword 10 (by decide),
    hword 12 (by decide), congrArg _ (hword 11 (by decide)), trivial, trivial, rfl, trivial,
    trivial⟩

/-- The counter that goes down is the one that went up. -/
theorem countDown_eq (vector : Fin 48) (counters : Counter → BitVec 8) :
    countDown (BitVec.ofNat 32 vector) counters =
      Function.update counters (counterOf vector) (counters (counterOf vector) - 1) := by
  have hle : ∀ v : Fin 48, (0x20 : BitVec 32) ≤ BitVec.ofNat 32 v ↔ 32 ≤ v.val := by decide
  have hlt : ∀ v : Fin 48, BitVec.ofNat 32 v < (0x20 : BitVec 32) ↔ ¬ 32 ≤ v.val := by decide
  funext c
  unfold counterOf
  by_cases hv : 32 ≤ vector.val
  · cases c <;> simp only [countDown, hle, hlt, hv] <;> simp
  · cases c <;> simp only [countDown, hle, hlt, hv] <;> simp

/-- The state after the return of an interrupt. -/
def resumed (cpu interrupted : Cpu) (vector : Fin 48) : Cpu :=
  { cpu with
    regs := interrupted.regs
    esp := interrupted.esp
    eip := interrupted.eip
    cs := interrupted.cs
    eflags := interrupted.eflags
    counters := Function.update cpu.counters (counterOf vector)
      (cpu.counters (counterOf vector) - 1) }

/-- **What was interrupted is resumed.** -/
theorem returned_savedFrame (cpu interrupted : Cpu) (vector : Fin 48) (errorCode : BitVec 32) :
    returned cpu (interrupted.esp - 52) (savedFrame vector errorCode interrupted) =
      resumed cpu interrupted vector := by
  have hcs : (interrupted.cs.setWidth 32).setWidth 16 = interrupted.cs := by
    rw [BitVec.setWidth_setWidth_of_le _ (by decide), BitVec.setWidth_eq]
  have hcounters : countDown (savedFrame vector errorCode interrupted).vector cpu.counters = _ :=
    countDown_eq vector cpu.counters
  unfold returned
  rw [hcounters, BitVec.sub_add_cancel]
  unfold savedFrame resumed
  rw [hcs]

end Return
end BareMetal
