import BareMetal.Interrupts.Nesting
import BareMetal.Kernel.Exceptions

/-!
# From a vector to its handler

An interrupt takes three tables: the descriptor table has the address of the stub, the stub
leaves its own vector in the frame, and the table of handlers is indexed with that. The three
are filled from the same two lists. So what the processor can enter at all is handled by
what the lists say (`vectors_routed`): `default_interrupt_handler` is never called, nor is the
`default` of `handle_cpu_exception`.
-/

namespace BareMetal

open Framework

/-! ### The gates -/

/-- The vectors of the two lists. -/
def knownVectors : List (Fin 48) :=
  cpuInterruptList.map (·.vector) ++ hardwareInterruptList.map (·.1)

/-- The processor finds in an entry what was put there. -/
theorem setInterruptGate_gate (table : BitVec 8 → IdtEntry) (vector : BitVec 8)
    (handlerAddress : BitVec 32) :
    (setInterruptGate table vector handlerAddress kernelCodeSelector interruptGateAttributes
      vector).gate? = some (handlerAddress, kernelCodeSelector) := by
  have hpresent : interruptGateAttributes.getLsbD 7 = true ∧
      interruptGateAttributes &&& 0x1F = 0x0E := by decide
  have haddress : ((handlerAddress >>> 16) &&& 0xFFFF).setWidth 16
      ++ (handlerAddress &&& 0xFFFF).setWidth 16 = handlerAddress :=
    @append_halves 16 0xFFFF rfl handlerAddress
  unfold setInterruptGate
  rw [Function.update_self, IdtEntry.gate?, if_pos hpresent, haddress]

/-- Gates that are set one after the other. Two of one vector would have the same stub. -/
theorem foldl_setInterruptGate (stubs : Fin 48 → BitVec 32) (vectors : List (Fin 48))
    (table : BitVec 8 → IdtEntry) (v : BitVec 8) :
    (vectors.foldl (fun table (x : Fin 48) => setInterruptGate table (BitVec.ofNat 8 x.val)
        (stubs x) kernelCodeSelector interruptGateAttributes) table v).gate? =
      match vectors.find? fun x => v.toNat = x.val with
      | some x => some (stubs x, kernelCodeSelector)
      | none => (table v).gate? := by
  -- on the vectors; a gate that is set later wins, but it is the same one for the same vector
  induction vectors generalizing table with
  | nil => rfl
  | cons x vectors ih =>
    rw [List.foldl_cons, ih]
    have hx : v = BitVec.ofNat 8 x.val ↔ v.toNat = x.val := by bv_omega
    by_cases hv : v.toNat = x.val
    · rw [List.find?_cons_of_pos (p := fun x : Fin 48 => v.toNat = x.val) (decide_eq_true hv)]
      cases hfind : vectors.find? fun x => v.toNat = x.val with
      | some y =>
        have hy : v.toNat = y.val := of_decide_eq_true
          (List.find?_some (p := fun x : Fin 48 => v.toNat = x.val) hfind)
        rw [Fin.ext (hv.symm.trans hy)]
      | none =>
        change (setInterruptGate _ _ _ _ _ v).gate? = _
        rw [hx.mpr hv]
        exact setInterruptGate_gate table _ (stubs x)
    · rw [List.find?_cons_of_neg (p := fun x : Fin 48 => v.toNat = x.val)
        (mt of_decide_eq_true hv)]
      unfold setInterruptGate
      rw [Function.update_of_ne (mt hx.mp hv)]

/-- **The vectors with a gate** are those of the two lists, each with its stub. -/
theorem installAll_gate (stubs : Fin 48 → BitVec 32) (v : BitVec 8) :
    (installAll stubs (fun _ => .init) v).gate? =
      (knownVectors.find? fun x => v.toNat = x.val).map fun x => (stubs x, kernelCodeSelector) := by
  unfold installAll
  rw [foldl_setInterruptGate, ← knownVectors]
  cases knownVectors.find? fun x => v.toNat = x.val with
  | some x => rfl
  | none => rfl

/-! ### The handlers -/

/-- The frame at an address. -/
def frameAt (m : Memory32) (p : BitVec 32) : InterruptFrame :=
  let word (offset : BitVec 32) := load32 m (p + offset)
  { edi := word 0, esi := word 4, ebp := word 8, esp := word 12, ebx := word 16, edx := word 20,
    ecx := word 24, eax := word 28, vector := word 32, errorCode := word 36, eip := word 40,
    cs := word 44, eflags := word 48 }

theorem frameAt_words {m : Memory32} {p : BitVec 32} {f : InterruptFrame}
    (h : WordsAt m p f.words) : frameAt m p = f := by
  have hword (i : Fin 13) : load32 m (p + BitVec.ofNat 32 (4 * i)) = f.words.get i :=
    h.load i.isLt
  obtain ⟨edi, esi, ebp, esp, ebx, edx, ecx, eax, vector, errorCode, eip, cs, eflags⟩ := f
  unfold frameAt
  dsimp only
  congr 1
  exacts [hword 0, hword 1, hword 2, hword 3, hword 4, hword 5, hword 6, hword 7, hword 8,
    hword 9, hword 10, hword 11, hword 12]

/-- What a dispatcher does for a vector of the lists. -/
inductive Handled (tier : Tier) (clzZero : ℤ) (ports : KeyboardPorts) (f : InterruptFrame)
    (s : InterruptState) : InterruptState → Prop
  | timer (hvector : f.vector = 32) : Handled tier clzZero ports f s
      { s with timer := s.timer.handleInterrupt, pics := PicPorts.sendEoi s.pics 0 }
  | keyboard (hvector : f.vector = 33) : Handled tier clzZero ports f s
      { s with
        keyboard := s.keyboard.handleInterrupt ports.status ports.scancode
        pics := PicPorts.sendEoi s.pics 1 }
  | exception {x : CpuInterrupt} (hmem : x ∈ cpuInterruptList)
      (hvector : f.vector = BitVec.ofNat 32 x.vector.val) : Handled tier clzZero ports f s
      (s.handleException tier clzZero x.title x.mnemonic f)

variable {tier : Tier} {clzZero : ℤ} {ports : KeyboardPorts} {f : InterruptFrame}
  {s : InterruptState}

/-- **Every known vector has its handler.** -/
theorem dispatch_handled {vector : Fin 48} (hknown : vector ∈ knownVectors)
    (hvector : f.vector = BitVec.ofNat 32 vector.val) (hhalted : s.halted = false) :
    Handled tier clzZero ports f s (s.interruptDispatcher tier clzZero ports f) := by
  have htoNat : f.vector.toNat = vector.val := by
    rw [hvector, BitVec.toNat_ofNat, Nat.mod_eq_of_lt (by omega)]
  rcases List.mem_append.mp hknown with hcpu | hhardware
  · obtain ⟨x, hmem, rfl⟩ := List.mem_map.mp hcpu
    rw [InterruptState.dispatch_exception hmem htoNat]
    exact .exception hmem hvector
  · simp only [hardwareInterruptList, List.map_cons, List.map_nil, List.mem_cons,
      List.not_mem_nil, or_false] at hhardware
    rcases hhardware with rfl | rfl
    · rw [InterruptState.dispatch_timer hhalted htoNat]
      exact .timer hvector
    · rw [InterruptState.dispatch_keyboard hhalted htoNat]
      exact .keyboard hvector

/-- **From a vector to its handler.** If the processor finds a gate for a vector in the table,
it is the one to the stub of the vector, and it is within the limit of the table. The stub, if
the nesting allows it, gives the dispatcher a frame of the interrupted processor. The
dispatcher calls the handler that the lists have for the vector, and ends the interrupt if it
came from the controllers. -/
theorem vectors_routed {stubs : Fin 48 → BitVec 32} {v : BitVec 8} {target : BitVec 32}
    {selector : BitVec 16}
    (hgate : (installAll stubs (fun _ => .init) v).gate? = some (target, selector)) :
    ∃ vector : Fin 48, v.toNat = vector.val ∧ vector ∈ knownVectors ∧ target = stubs vector ∧
      selector = kernelCodeSelector ∧
      (∀ tableAddress, 8 * v.toNat + 7 ≤ (loadIdt tableAddress).limit.toNat) ∧
      ∀ (image : Image) (errorCode : BitVec 32) (cpu : Cpu), cpu.halted = false →
        cpu.counters (counterOf vector) < (counterOf vector).countMax →
        (∀ x ∈ region (cpu.esp - 52) 52,
          x ∉ region (stackBase image (cpu.esp - 52) - 12) 12) →
        let cpu' := enterInterrupt image vector errorCode cpu
        frameAt cpu'.mem (load32 cpu'.mem (cpu'.esp + 4)) = savedFrame vector errorCode cpu ∧
          ∀ (s : InterruptState) (ports : KeyboardPorts), s.halted = false →
            Handled tier clzZero ports (savedFrame vector errorCode cpu) s
              (s.interruptDispatcher tier clzZero ports (savedFrame vector errorCode cpu)) := by
  rw [installAll_gate] at hgate
  obtain ⟨vector, hfind, htarget⟩ := Option.map_eq_some_iff.mp hgate
  obtain ⟨rfl, rfl⟩ := Prod.mk.inj htarget
  have hv : v.toNat = vector.val := of_decide_eq_true
    (List.find?_some (p := fun x : Fin 48 => v.toNat = x.val) hfind)
  have hknown : vector ∈ knownVectors := List.mem_of_find?_eq_some hfind
  have hlimit (tableAddress : BitVec 32) :
      8 * v.toNat + 7 ≤ (loadIdt tableAddress).limit.toNat := by
    change 8 * v.toNat + 7 ≤ 2047
    omega
  refine ⟨vector, hv, hknown, rfl, rfl, hlimit, ?_⟩
  intro image errorCode cpu hhalted hroom hapart cpu'
  have hentered : Entered image vector errorCode cpu cpu' :=
    enterInterrupt_spec hhalted (BitVec.not_le.mpr hroom)
  -- the argument is the middle one of the three words
  have hargument : load32 cpu'.mem (cpu'.esp + 4) = cpu.esp - 52 :=
    hentered.wordsAt_call.load (show 1 < 3 by decide)
  refine ⟨?_, fun s ports hs => dispatch_handled hknown rfl hs⟩
  rw [hargument]
  exact frameAt_words (hentered.wordsAt_frame fun x hx => hentered.esp ▸ hapart x hx)

/-- A key pressed in the kernel. -/
theorem vectors_routed_keyboard :
    let stubs (vector : Fin 48) : BitVec 32 := 0x101000 + 16 * BitVec.ofNat 32 vector.val
    let cpu' := enterInterrupt smallImage 33 0 (idleCpu 0x1F00)
    (installAll stubs (fun _ => .init) 33).gate? = some (0x101210, 8) ∧
      frameAt cpu'.mem (load32 cpu'.mem (cpu'.esp + 4)) = savedFrame 33 0 (idleCpu 0x1F00) := by
  intro stubs cpu'
  have hgate : (installAll stubs (fun _ => .init) 33).gate? = some (0x101210, 8) := by decide
  obtain ⟨vector, hv, -, -, -, -, hframe⟩ := @vectors_routed .gpr 0 stubs 33 _ _ hgate
  obtain rfl : vector = 33 := Fin.ext hv.symm
  have hapart : ∀ x ∈ region ((0x1F00 : BitVec 32) - 52) 52,
      x ∉ region (stackBase smallImage (0x1F00 - 52) - 12) 12 := by
    intro x hx hx'
    have hbase : stackBase smallImage ((0x1F00 : BitVec 32) - 52) = 0x2374 := by decide
    rw [hbase, mem_region] at hx'
    rw [mem_region] at hx
    bv_omega
  exact ⟨hgate, (hframe smallImage 0 (idleCpu 0x1F00) rfl (by decide) hapart).1⟩

end BareMetal
