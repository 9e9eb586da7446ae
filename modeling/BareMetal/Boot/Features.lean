import BareMetal.Cpu.Features
import BareMetal.Framework.ByteMem

/-!
# Feature detection

In protected mode `pm_entry` asks the processor for its vector units and turns them on: the
flag that it leaves in `ebx` selects the way the kernel is copied, and every dispatch table of
the kernel later. An instruction that the processor or a control register does not allow is a
fault, for which there is no handler yet; so what has to hold is that detection comes to its
end on every processor, and that the flag promises no more than what is turned on
(`features_detected`).

A `Processor` says what `cpuid` returns, and which bits of `cr4` and of `xcr0` may be set.
-/

namespace BareMetal

open Framework

/-- What `cpuid` returns. -/
structure CpuidLeaf where
  eax : BitVec 32
  ebx : BitVec 32
  ecx : BitVec 32
  edx : BitVec 32

/-- A processor. -/
structure Processor where
  cpuid : BitVec 32 → BitVec 32 → CpuidLeaf
  cr4Bits : BitVec 32
  xcr0Bits : BitVec 32

/-- The registers of the boot code, and the memory. -/
structure BootCpu where
  eax : BitVec 32
  ebx : BitVec 32
  ecx : BitVec 32
  edx : BitVec 32
  esi : BitVec 32
  edi : BitVec 32
  esp : BitVec 32
  cr0 : BitVec 32
  cr4 : BitVec 32
  xcr0 : BitVec 32
  mem : ByteMem

def osfxsr : BitVec 32 := 0x00000600
def osxsave : BitVec 32 := 0x00040000

/-! ### Instructions -/

namespace BootCpu

variable (p : Processor) (s : BootCpu)

/-- `pushl`. -/
def push (v : BitVec 32) : BootCpu :=
  { s with esp := s.esp - 4, mem := store s.mem 4 (s.esp - 4).toNat v }

/-- `cpuid`. -/
def cpuid : BootCpu :=
  let leaf := p.cpuid s.eax s.ecx
  { s with eax := leaf.eax, ebx := leaf.ebx, ecx := leaf.ecx, edx := leaf.edx }

/-- `movl %eax, %cr4`. -/
def movCr4 : Option BootCpu :=
  if s.eax &&& ~~~p.cr4Bits = 0 then some { s with cr4 := s.eax } else none

/-- `xsetbv` of the register `xcr0`, for a value with the bit of the x87 unit. -/
def xsetbv : Option BootCpu :=
  if s.cr4 &&& osxsave = osxsave ∧ s.ecx = 0 ∧ s.edx = 0 ∧ s.eax &&& ~~~p.xcr0Bits = 0 ∧
    s.eax.getLsbD 0 ∧ (s.eax.getLsbD 2 → s.eax.getLsbD 1) then
    some { s with xcr0 := s.eax }
  else none

/-- `xgetbv` of the register `xcr0`. -/
def xgetbv : Option BootCpu :=
  if s.cr4 &&& osxsave = osxsave ∧ s.ecx = 0 then some { s with eax := s.xcr0, edx := 0 }
  else none

/-! ### The labels of `pm_entry` -/

/-- `.set_leaf_1`. -/
def setLeaf1 : BootCpu :=
  let eax := (s.cr0 &&& 0xFFFFFFF3) ||| 0x00000002
  { s with eax := eax, cr0 := eax }

/-- `.leaf_0`. -/
def leaf0 : BootCpu :=
  let s := { s with eax := 0 }.cpuid p
  { s with esi := s.eax }

/-- `.leaf_1`, up to the jump that a processor without SSE2 takes. -/
def leaf1 : BootCpu :=
  let s := { s with eax := 1 }.cpuid p
  { s with ebx := 0, edx := s.edx &&& 0x04000000 }

/-- `.compute_mm_flag`. -/
def computeMmFlag : BootCpu :=
  let s := { s with edx := load s.mem 4 s.esp.toNat, esp := s.esp + 4 }
  let s := { s with ebx := (s.ebx >>> 5) + 1 }
  { s with ebx := s.ebx * s.edx }

/-- `.leaf_7`. -/
def leaf7 : Option BootCpu :=
  let s := { s with ecx := 0, eax := 7 }.cpuid p
  let s := { s with edx := 0, ebx := s.ebx &&& 0x00000020 }
  if s.ebx = 0 then some s.computeMmFlag
  else do
    let s ← { s with ecx := 0, eax := 7 }.xsetbv p
    let s ← { s with ecx := 0 }.xgetbv
    let s := { s with eax := s.eax &&& 0x04 }
    if s.eax ≠ 0 then some s.computeMmFlag else some { s with ebx := 0 }.computeMmFlag

/-- `.set_leaf_7`. -/
def setLeaf7 : Option BootCpu := do
  let s ← { s with eax := s.cr4 ||| osxsave }.movCr4 p
  s.leaf7 p

/-- From `.set_leaf_1` to `.copy_kernel_setup`. -/
def detectFeatures : Option BootCpu :=
  let s := ((s.setLeaf1.leaf0 p).leaf1 p)
  if s.edx = 0 then some s
  else do
    let s := { s with edx := s.edx >>> 26 }
    let s := s.push s.edx
    let s ← { s with eax := s.cr4 ||| osfxsr }.movCr4 p
    let s := { s with ecx := s.ecx &&& 0x14000000 }
    if s.ecx ≠ 0x14000000 then some s.computeMmFlag
    else if s.esi < 0x7 then some s.computeMmFlag
    else s.setLeaf7 p

end BootCpu

/-! ### What a processor has -/

namespace Processor

variable (p : Processor)

def sse2 : Bool := (p.cpuid 1 0).edx.getLsbD 26
def xsave : Bool := (p.cpuid 1 0).ecx.getLsbD 26
def avx : Bool := (p.cpuid 1 0).ecx.getLsbD 28
def avx2 : Bool := 7 ≤ (p.cpuid 0 0).eax && (p.cpuid 7 0).ebx.getLsbD 5

/-- The best tier of the processor. -/
def tier : Tier :=
  if p.sse2 then if p.xsave && p.avx && p.avx2 then .avx2 else .simd else .gpr

/-- The first two leaves have no subleaves, and what `cpuid` announces can be turned on. -/
structure Documented : Prop where
  leaf_zero : ∀ ecx, p.cpuid 0 ecx = p.cpuid 0 0
  leaf_one : ∀ ecx, p.cpuid 1 ecx = p.cpuid 1 0
  osfxsr_le : p.sse2 → osfxsr &&& ~~~p.cr4Bits = 0
  osxsave_le : p.xsave → osxsave &&& ~~~p.cr4Bits = 0
  xcr0_le : p.avx → 7 &&& ~~~p.xcr0Bits = 0

end Processor

/-- `gpr_flag`, `simd_flag` and `avx2_flag`. -/
def Tier.flag : Tier → ℕ
  | .gpr => 0
  | .simd => 1
  | .avx2 => 2

/-- The instructions of the tier are turned on. -/
def BootCpu.Enabled (s : BootCpu) : Tier → Prop
  | .gpr => True
  | .simd => s.cr4 &&& osfxsr = osfxsr ∧ s.cr0 &&& 0x0C = 0
  | .avx2 => s.cr4 &&& osfxsr = osfxsr ∧ s.cr0 &&& 0x0C = 0 ∧ s.cr4 &&& osxsave = osxsave ∧
      s.xcr0 &&& 7 = 7

/-! ### Bits -/

/-- A mask of one bit. -/
theorem and_bit {x : BitVec 32} (i : ℕ) :
    x &&& BitVec.twoPow 32 i = if x.getLsbD i then BitVec.twoPow 32 i else 0 :=
  BitVec.and_twoPow x i

/-- The two bits of the AVX unit. -/
theorem and_avx_eq_iff {x : BitVec 32} :
    x &&& 0x14000000 = 0x14000000 ↔ (x.getLsbD 26 && x.getLsbD 28) = true := by
  have hmask : (0x14000000 : BitVec 32) = BitVec.twoPow 32 26 ||| BitVec.twoPow 32 28 := by decide
  rw [hmask, BitVec.and_or_distrib_left, and_bit, and_bit]
  cases x.getLsbD 26 <;> cases x.getLsbD 28 <;> decide

theorem or_and_not {x y z : BitVec 32} (hx : x &&& ~~~z = 0) (hy : y &&& ~~~z = 0) :
    (x ||| y) &&& ~~~z = 0 := by
  rw [BitVec.and_comm, BitVec.and_or_distrib_left, BitVec.and_comm _ x, BitVec.and_comm _ y, hx, hy]
  rfl

theorem or_and_mask (x y : BitVec 32) : (x ||| y) &&& y = y := by
  apply BitVec.eq_of_getLsbD_eq
  intro i _
  rw [BitVec.getLsbD_and, BitVec.getLsbD_or]
  cases x.getLsbD i <;> cases y.getLsbD i <;> rfl

theorem or_and_of_and {x y z : BitVec 32} (h : x &&& z = z) : (x ||| y) &&& z = z := by
  rw [BitVec.and_comm, BitVec.and_or_distrib_left, BitVec.and_comm z x, h]
  exact (BitVec.or_comm _ _).trans (by
    apply BitVec.eq_of_getLsbD_eq
    intro i _
    rw [BitVec.getLsbD_or, BitVec.getLsbD_and]
    cases z.getLsbD i <;> cases y.getLsbD i <;> rfl)

/-! ### Detection -/

/-- The flag of a tier, whose instructions are turned on. -/
structure Detected (tier : Tier) (s' : BootCpu) (esp : BitVec 32) (mem : ByteMem) : Prop where
  ebx : s'.ebx = BitVec.ofNat 32 tier.flag
  esp : s'.esp = esp
  mem : s'.mem = mem
  enabled : s'.Enabled tier

/-- What holds at the labels after the test for SSE2: its instructions are turned on, and one
is on the stack. -/
structure Pushed (s : BootCpu) : Prop where
  top : load s.mem 4 s.esp.toNat = (1 : BitVec 32)
  osfxsr : s.cr4 &&& osfxsr = osfxsr
  cr0 : s.cr0 &&& 0x0C = 0

section Detection

variable {p : Processor} {s : BootCpu}

theorem computeMmFlag_eq (h : load s.mem 4 s.esp.toNat = (1 : BitVec 32)) :
    s.computeMmFlag = { s with edx := 1, esp := s.esp + 4, ebx := (s.ebx >>> 5) + 1 } := by
  unfold BootCpu.computeMmFlag
  simp only [h]
  exact congrArg (fun ebx => { s with edx := 1, esp := s.esp + 4, ebx := ebx })
    (BitVec.mul_one _)

/-- Without the bit of AVX2 in `ebx` the flag is that of SSE2. -/
theorem detected_simd (h : Pushed s) (hebx : s.ebx = 0) :
    Detected .simd s.computeMmFlag (s.esp + 4) s.mem := by
  rw [computeMmFlag_eq h.top]
  refine ⟨?_, rfl, rfl, h.osfxsr, h.cr0⟩
  change (s.ebx >>> 5) + 1 = _
  rw [hebx]
  rfl

/-- With the bit it is that of AVX2. -/
theorem detected_avx2 (h : Pushed s) (hebx : s.ebx = BitVec.twoPow 32 5)
    (hosxsave : s.cr4 &&& osxsave = osxsave) (hxcr0 : s.xcr0 = 7) :
    Detected .avx2 s.computeMmFlag (s.esp + 4) s.mem := by
  rw [computeMmFlag_eq h.top]
  refine ⟨?_, rfl, rfl, h.osfxsr, h.cr0, hosxsave, ?_⟩
  · change (s.ebx >>> 5) + 1 = _
    rw [hebx]
    rfl
  · change s.xcr0 &&& 7 = 7
    rw [hxcr0]
    rfl

/-- `.leaf_7`: the instructions of AVX2 are turned on if the processor has them. -/
theorem leaf7_spec (hp : p.Documented) (h : Pushed s) (havx : p.avx = true)
    (hosxsave : s.cr4 &&& osxsave = osxsave) :
    ∃ s', s.leaf7 p = some s' ∧
      Detected (if (p.cpuid 7 0).ebx.getLsbD 5 then .avx2 else .simd) s' (s.esp + 4) s.mem := by
  unfold BootCpu.leaf7 BootCpu.cpuid
  simp only [show (0x00000020 : BitVec 32) = BitVec.twoPow 32 5 by decide, and_bit]
  by_cases hbit : (p.cpuid 7 0).ebx.getLsbD 5 = true
  · have hone : (BitVec.twoPow 32 5 : BitVec 32) ≠ 0 := by decide
    have hseven : (7 : BitVec 32).getLsbD 0 = true ∧
        ((7 : BitVec 32).getLsbD 2 = true → (7 : BitVec 32).getLsbD 1 = true) := by decide
    -- seven is written and read back, so the bit of AVX is there
    let t : BootCpu := { s with eax := 7, ebx := BitVec.twoPow 32 5, ecx := 0, edx := 0 }
    have hset : t.xsetbv p = some { t with xcr0 := 7 } :=
      if_pos ⟨hosxsave, rfl, rfl, hp.xcr0_le havx, hseven⟩
    have hget : { t with xcr0 := 7 }.xgetbv = some { t with xcr0 := 7 } := if_pos ⟨hosxsave, rfl⟩
    simp only [hbit, if_true, if_neg hone]
    change ∃ s', (t.xsetbv p).bind _ = some s' ∧ _
    rw [hset, Option.bind_some]
    change ∃ s', Option.bind (BootCpu.xgetbv { t with xcr0 := 7 }) _ = some s' ∧ _
    rw [hget, Option.bind_some]
    refine ⟨_, if_pos (show (7 : BitVec 32) &&& 0x04 ≠ 0 by decide), ?_⟩
    exact detected_avx2 ⟨h.top, h.osfxsr, h.cr0⟩ rfl hosxsave rfl
  · simp only [hbit]
    refine ⟨_, rfl, ?_⟩
    have hpushed : Pushed { s with
        eax := (p.cpuid 7 0).eax, ebx := 0, ecx := (p.cpuid 7 0).ecx, edx := 0 } :=
      ⟨h.top, h.osfxsr, h.cr0⟩
    exact detected_simd hpushed rfl

/-- `.set_leaf_7`. -/
theorem setLeaf7_spec (hp : p.Documented) (h : Pushed s) (havx : p.avx = true)
    (hxsave : p.xsave = true) (hcr4 : s.cr4 &&& ~~~p.cr4Bits = 0) :
    ∃ s', s.setLeaf7 p = some s' ∧
      Detected (if (p.cpuid 7 0).ebx.getLsbD 5 then .avx2 else .simd) s' (s.esp + 4) s.mem := by
  unfold BootCpu.setLeaf7 BootCpu.movCr4
  rw [if_pos (or_and_not hcr4 (hp.osxsave_le hxsave))]
  exact leaf7_spec hp ⟨h.top, or_and_of_and h.osfxsr, h.cr0⟩ havx (or_and_mask _ _)

/-- What is known after the first two leaves. -/
structure Asked (p : Processor) (s u : BootCpu) : Prop where
  edx : u.edx = if p.sse2 then BitVec.twoPow 32 26 else 0
  ecx : u.ecx = (p.cpuid 1 0).ecx
  esi : u.esi = (p.cpuid 0 0).eax
  ebx : u.ebx = 0
  esp : u.esp = s.esp
  mem : u.mem = s.mem
  cr4 : u.cr4 = s.cr4
  cr0 : u.cr0 &&& 0x0C = 0

theorem asked (hp : p.Documented) : Asked p s ((s.setLeaf1.leaf0 p).leaf1 p) := by
  have hleaf {ecx : BitVec 32} : p.cpuid 1 ecx = p.cpuid 1 0 := hp.leaf_one ecx
  refine ⟨?_, congrArg CpuidLeaf.ecx hleaf, congrArg CpuidLeaf.eax (hp.leaf_zero _), rfl, rfl, rfl,
    rfl, ?_⟩
  · change (p.cpuid 1 _).edx &&& BitVec.twoPow 32 26 = _
    rw [hleaf, and_bit]
    rfl
  · change ((s.cr0 &&& 0xFFFFFFF3) ||| 0x00000002) &&& 0x0C = 0
    rw [BitVec.and_comm, BitVec.and_or_distrib_left, BitVec.and_comm s.cr0, ← BitVec.and_assoc]
    rw [show (0x0C : BitVec 32) &&& 0xFFFFFFF3 = 0#32 by decide, BitVec.zero_and]
    rfl

/-- **Feature detection.** On a processor that can turn on what it announces, no instruction
faults, and the flag is that of the best tier, whose instructions are turned on. The stack
pointer is back where it was; a word below it has been written if there is SSE2. -/
theorem features_detected (hp : p.Documented) (hcr4 : s.cr4 &&& ~~~p.cr4Bits = 0) :
    ∃ s', s.detectFeatures p = some s' ∧
      Detected p.tier s' s.esp
        (if p.sse2 then store s.mem 4 (s.esp - 4).toNat (1 : BitVec 32) else s.mem) := by
  have hasked := asked (s := s) hp
  unfold BootCpu.detectFeatures
  generalize (s.setLeaf1.leaf0 p).leaf1 p = u at hasked
  obtain ⟨hedx, hecx, hesi, hebx, hesp, hmem, hucr4, hcr0⟩ := hasked
  unfold Processor.tier
  simp only
  by_cases hsse2 : p.sse2 = true
  · rw [if_pos hsse2] at hedx
    rw [if_pos hsse2, if_pos hsse2, if_neg (by rw [hedx]; decide), hedx]
    -- the one that the flag is multiplied with, and the first bits of `cr4`
    let v := { u with edx := BitVec.twoPow 32 26 >>> 26 }.push (BitVec.twoPow 32 26 >>> 26)
    let w : BootCpu := { v with eax := v.cr4 ||| osfxsr, cr4 := v.cr4 ||| osfxsr }
    have hmov : { v with eax := v.cr4 ||| osfxsr }.movCr4 p = some w := by
      refine if_pos (or_and_not ?_ (hp.osfxsr_le hsse2))
      change u.cr4 &&& ~~~p.cr4Bits = 0
      rw [hucr4]
      exact hcr4
    have hpushed : Pushed w := ⟨load_store _ 4 _ _, or_and_mask _ _, hcr0⟩
    have hesp' : w.esp + 4 = s.esp := by
      change u.esp - 4 + 4 = s.esp
      rw [hesp, BitVec.sub_add_cancel]
    have hmem' : w.mem = store s.mem 4 (s.esp - 4).toNat (1 : BitVec 32) := by
      change store u.mem 4 (u.esp - 4).toNat (BitVec.twoPow 32 26 >>> 26) = _
      rw [hesp, hmem]
      rfl
    change ∃ s', (BootCpu.movCr4 p { v with eax := v.cr4 ||| osfxsr }).bind _ = some s' ∧ _
    rw [hmov, Option.bind_some, ← hmem', ← hesp']
    -- what the jumps compare
    have havx : w.ecx &&& 0x14000000 = 0x14000000 ↔ (p.xsave && p.avx) = true := by
      rw [show w.ecx = _ from hecx]
      exact and_avx_eq_iff
    have hleaf : w.esi < 0x7 ↔ ¬ 7 ≤ (p.cpuid 0 0).eax := by
      rw [show w.esi = _ from hesi]
      exact BitVec.not_le.symm
    have hkeep (ecx : BitVec 32) : Pushed { w with ecx := ecx } :=
      ⟨hpushed.top, hpushed.osfxsr, hpushed.cr0⟩
    unfold Processor.avx2
    by_cases hboth : (p.xsave && p.avx) = true
    · rw [if_neg (not_not.mpr (havx.mpr hboth)), hboth, Bool.true_and]
      by_cases hseven : 7 ≤ (p.cpuid 0 0).eax
      · rw [if_neg (mt hleaf.mp (not_not.mpr hseven)), decide_eq_true hseven, Bool.true_and]
        obtain ⟨hxsave, havx⟩ := Bool.and_eq_true_iff.mp hboth
        refine setLeaf7_spec hp (hkeep _) havx hxsave ?_
        exact or_and_not (by rw [show v.cr4 = s.cr4 from hucr4]; exact hcr4) (hp.osfxsr_le hsse2)
      · rw [if_pos (hleaf.mpr hseven), decide_eq_false hseven, Bool.false_and]
        exact ⟨_, rfl, detected_simd (hkeep _) hebx⟩
    · rw [if_pos (mt havx.mp hboth), Bool.eq_false_iff.mpr hboth, Bool.false_and]
      exact ⟨_, rfl, detected_simd (hkeep _) hebx⟩
  · rw [if_neg hsse2] at hedx ⊢
    rw [if_pos hedx, if_neg hsse2]
    exact ⟨u, rfl, hebx, hesp, hmem, trivial⟩

end Detection

end BareMetal
