import BareMetal.Boot.Features
import BareMetal.Tools.Bulk
import Mathlib.Algebra.GroupWithZero.Nat

/-!
# The kernel image

The boot loader reads the kernel behind itself, below one megabyte. `pm_entry` copies it to
the address it is linked for, by words or by vectors as the flag says. The vector loops have a
negative index that runs up to zero; they need addresses that are aligned, and a size that is a
multiple of the step and not zero. All this the linker script provides (`Layout`). Then
`kernel_entry` clears the bytes without an image, stores the flag among them, and calls
`kernel_main`.

What `kernel_main` finds is the same for every method (`kernel_loaded`).
-/

namespace BareMetal

open Framework

/-- The addresses that the linker fixes, and what is known about them. -/
structure Layout where
  /-- `_kernel_source_image`. -/
  kernelSourceImage : ℕ
  kernelStart : ℕ
  bssStart : ℕ
  bssEnd : ℕ
  kernelStackTop : ℕ
  /-- `_mm_flag`. -/
  mmFlag : ℕ
  /-- The instruction after the call of `kernel_main`. -/
  returnAddress : BitVec 32
  source_ge : 0x7E00 ≤ kernelSourceImage
  source_aligned : 512 ∣ kernelSourceImage
  start_eq : kernelStart = 0x100000
  bssStart_aligned : 32 ∣ bssStart
  start_lt : kernelStart < bssStart
  /-- The image is a file of at most 127 sectors. -/
  source_le : kernelSourceImage + (bssStart - kernelStart) ≤ kernelStart
  mmFlag_ge : bssStart ≤ mmFlag
  mmFlag_lt : mmFlag < bssEnd
  /-- The stack has room for a frame at least. -/
  stack_ge : bssEnd + 52 ≤ kernelStackTop
  stack_lt : kernelStackTop < 2 ^ 32

/-- `_kernel_size`. -/
def Layout.kernelSize (l : Layout) : ℕ := l.bssStart - l.kernelStart

/-- `_sp_32_address`. -/
def sp32Address : BitVec 32 := 0x7E00

/-! ### The copy -/

namespace BootCpu

variable (l : Layout) (s : BootCpu)

/-- `.copy_kernel_setup`, up to the jump. -/
def copyKernelSetup : BootCpu :=
  { s with
    esi := BitVec.ofNat 32 l.kernelSourceImage
    edi := BitVec.ofNat 32 l.kernelStart
    ecx := BitVec.ofNat 32 l.kernelSize }

/-- `rep movsl`, of the given number of words. -/
def repMovsl : ℕ → BootCpu → BootCpu
  | 0, s => s
  | count + 1, s => repMovsl count
    { s with
      mem := store s.mem 4 s.edi.toNat (load s.mem 4 s.esi.toNat)
      esi := s.esi + 4
      edi := s.edi + 4
      ecx := s.ecx - 1 }

/-- `.copy_32`. -/
def copy32 : BootCpu :=
  let s := { s with ecx := s.ecx >>> 2 }
  repMovsl s.ecx.toNat s

/-- `.start_copy_sse_2` and `.start_copy_avx_2`, with registers of `n` bytes. The loads and the
stores are of the aligned kind. -/
def copyVectorLoop (n : ℕ) : ℕ → BootCpu → Option BootCpu
  | 0, _ => none
  | fuel + 1, s =>
    let src := (s.esi + s.edx).toNat
    let dst := (s.edi + s.edx).toNat
    if n ∣ src ∧ n ∣ dst then
      let s := { s with
        mem := mmStore s.mem dst (mmLoad s.mem n src)
        edx := s.edx + BitVec.ofNat 32 n }
      if s.edx ≠ 0 then copyVectorLoop n fuel s else some s
    else none

/-- What comes before the two loops: the pointers go to the ends, the index to minus the
size. -/
def copyVectorSetup : BootCpu :=
  { s with edx := -s.ecx, esi := s.esi + s.ecx, edi := s.edi + s.ecx }

/-- `.copy_sse2`. -/
def copySse2 (fuel : ℕ) : Option BootCpu := copyVectorLoop 16 fuel s.copyVectorSetup

/-- `.copy_avx2`. -/
def copyAvx2 (fuel : ℕ) : Option BootCpu := copyVectorLoop 32 fuel s.copyVectorSetup

/-- The jump through `.copy_kernel_method`. -/
def copyKernel (fuel : ℕ) : Option BootCpu :=
  let s := s.copyKernelSetup l
  match s.ebx.toNat with
  | 0 => some s.copy32
  | 1 => s.copySse2 fuel
  | 2 => s.copyAvx2 fuel
  | _ => none

/-! ### The entry of the kernel -/

/-- `.init_bss`. -/
def initBss : ℕ → BootCpu → Option BootCpu
  | 0, _ => none
  | fuel + 1, s =>
    if s.edi = s.ecx then some s
    else initBss fuel { s with mem := setByte s.mem s.edi.toNat 0, edi := s.edi + 1 }

/-- `kernel_entry`, up to the first instruction of `kernel_main`. -/
def kernelEntry (fuel : ℕ) : Option BootCpu := do
  let s ← initBss fuel
    { s with
      esp := BitVec.ofNat 32 l.kernelStackTop
      edi := BitVec.ofNat 32 l.bssStart
      ecx := BitVec.ofNat 32 l.bssEnd }
  let s := { s with mem := setByte s.mem l.mmFlag (s.ebx.setWidth 8) }
  some (s.push l.returnAddress)

/-- `pm_entry`, and the jump to `kernel_entry`. -/
def pmEntry (p : Processor) (fuel : ℕ) : Option BootCpu := do
  let s ← { s with esp := sp32Address }.detectFeatures p
  let s ← s.copyKernel l fuel
  s.kernelEntry l fuel

end BootCpu

/-! ### What the copies do -/

/-- A copy loop that is done does nothing. -/
theorem copyLoop_done {move : ByteMem → ℕ → ℕ → ByteMem} {k stop fuel : ℕ} {c : Copy}
    (h : stop ≤ c.src) : copyLoop move k stop fuel c = c := by
  cases fuel with
  | zero => rfl
  | succ fuel => rw [copyLoop, if_neg (Nat.not_lt.mpr h)]

section Copies

variable {src dst size : ℕ}

/-- **The loop with the negative index** is the copy loop with two pointers. -/
theorem copyVectorLoop_eq {n : ℕ} (hn : 0 < n) (hsrc : n ∣ src) (hdst : n ∣ dst) (hsize : n ∣ size)
    (hsrc_lt : src + size < 2 ^ 32) (hdst_lt : dst + size < 2 ^ 32) (fuel : ℕ) {t : ℕ}
    (ht : t < size) (hnt : n ∣ t) (hfuel : size - t ≤ fuel) {s : BootCpu} {c : Copy}
    (hesi : s.esi = BitVec.ofNat 32 (src + size)) (hedi : s.edi = BitVec.ofNat 32 (dst + size))
    (hedx : s.edx = BitVec.ofNat 32 t - BitVec.ofNat 32 size) (hmem : c.mem = s.mem)
    (hcsrc : c.src = src + t) (hcdst : c.dst = dst + t) :
    BootCpu.copyVectorLoop n fuel s = some { s with
      edx := 0
      mem := (copyLoop (fun m s d => mmStore m d (mmLoad m n s)) n (src + size) fuel c).mem } := by
  induction fuel generalizing t s c with
  | zero => omega
  | succ fuel ih =>
    -- the index counts up to zero, from the ends of the two regions
    have haddr : (s.esi + s.edx).toNat = src + t ∧ (s.edi + s.edx).toNat = dst + t := by
      rw [hesi, hedi, hedx]
      constructor <;> bv_omega
    have hnext : n ∣ t + n := Nat.dvd_add hnt (Nat.dvd_refl n)
    have hfits : t + n ≤ size := Nat.le_of_lt_add_of_dvd (by omega) hnext hsize
    have hedx' : s.edx + BitVec.ofNat 32 n = BitVec.ofNat 32 (t + n) - BitVec.ofNat 32 size := by
      rw [hedx]
      bv_omega
    have hlt : c.src < src + size := by omega
    unfold BootCpu.copyVectorLoop copyLoop
    simp only [haddr.1, haddr.2]
    rw [if_pos ⟨Nat.dvd_add hsrc hnt, Nat.dvd_add hdst hnt⟩, if_pos hlt, hedx', hmem, hcsrc, hcdst]
    by_cases hlast : t + n = size
    · -- the index is zero, and the pointer is at the end
      have hdone : src + size ≤ src + t + n := by omega
      have hzero : BitVec.ofNat 32 (t + n) - BitVec.ofNat 32 size = 0 := by
        rw [hlast, BitVec.sub_self]
        rfl
      rw [hzero, if_neg (not_not.mpr rfl), copyLoop_done hdone]
    · rw [if_pos (by bv_omega)]
      exact ih (by omega) hnext (by omega) hesi hedi rfl rfl (Nat.add_assoc _ _ _)
        (Nat.add_assoc _ _ _)

/-- `rep movsl` is the copy loop over words. -/
theorem repMovsl_eq (count : ℕ) {fuel : ℕ} (hfuel : count ≤ fuel) {s : BootCpu} {c : Copy}
    (hesi : s.esi.toNat = c.src) (hedi : s.edi.toNat = c.dst) (hmem : c.mem = s.mem)
    (hsrc_lt : c.src + 4 * count < 2 ^ 32) (hdst_lt : c.dst + 4 * count < 2 ^ 32) :
    ∃ esi edi ecx, BootCpu.repMovsl count s = { s with
      esi := esi
      edi := edi
      ecx := ecx
      mem := (copyLoop (fun m s d => store m 4 d (load m 4 s)) 4 (c.src + 4 * count) fuel c).mem } := by
  -- on the words that are left
  induction count generalizing fuel s c with
  | zero =>
    rw [copyLoop_done (show c.src + 4 * 0 ≤ c.src from Nat.le_refl _), hmem]
    exact ⟨s.esi, s.edi, s.ecx, rfl⟩
  | succ count ih =>
    obtain ⟨fuel, rfl⟩ := Nat.exists_eq_add_of_le' (Nat.lt_of_lt_of_le (Nat.succ_pos count) hfuel)
    have hlt : c.src < c.src + 4 * (count + 1) := by omega
    have hstop : c.src + 4 * (count + 1) = c.src + 4 + 4 * count := by omega
    unfold BootCpu.repMovsl copyLoop
    rw [if_pos hlt, hesi, hedi, hstop, hmem]
    let m := store s.mem 4 c.dst (load s.mem 4 c.src)
    let s' : BootCpu := { s with mem := m, esi := s.esi + 4, edi := s.edi + 4, ecx := s.ecx - 1 }
    let c' : Copy := ⟨m, c.src + 4, c.dst + 4, ⟨c.src, 4⟩ :: c.loads, ⟨c.dst, 4⟩ :: c.stores⟩
    -- the registers do not wrap
    have hesi' : s'.esi.toNat = c'.src := by
      change (s.esi + 4).toNat = c.src + 4
      bv_omega
    have hedi' : s'.edi.toNat = c'.dst := by
      change (s.edi + 4).toNat = c.dst + 4
      bv_omega
    have hsrc_lt' : c'.src + 4 * count < 2 ^ 32 := by
      change c.src + 4 + 4 * count < 2 ^ 32
      omega
    have hdst_lt' : c'.dst + 4 * count < 2 ^ 32 := by
      change c.dst + 4 + 4 * count < 2 ^ 32
      omega
    exact ih (Nat.le_of_succ_le_succ hfuel) hesi' hedi' rfl hsrc_lt' hdst_lt'

end Copies

namespace Layout

variable (l : Layout)

theorem start_add_size : l.kernelStart + l.kernelSize = l.bssStart :=
  Nat.add_sub_cancel' l.start_lt.le

theorem start_dvd : 32 ∣ l.kernelStart := l.start_eq ▸ (by decide)

theorem source_dvd : 32 ∣ l.kernelSourceImage := Nat.dvd_trans (by decide) l.source_aligned

theorem size_dvd : 32 ∣ l.kernelSize := Nat.dvd_sub l.bssStart_aligned l.start_dvd

theorem size_pos : 0 < l.kernelSize := Nat.sub_pos_of_lt l.start_lt

theorem source_end_le : l.kernelSourceImage + l.kernelSize ≤ l.kernelStart := l.source_le

theorem bssEnd_lt : l.bssEnd < 2 ^ 32 := by
  have := l.stack_ge
  have := l.stack_lt
  omega

theorem bssStart_lt : l.bssStart < l.bssEnd := lt_of_le_of_lt l.mmFlag_ge l.mmFlag_lt

/-- The image, copied by a loop whose step divides 32. -/
theorem copyLoop_image {k : ℕ} {move : ByteMem → ℕ → ℕ → ByteMem} (hmove : ChunkMove move k)
    (hk : k ∣ 32) (m : ByteMem) {fuel : ℕ} (hfuel : l.kernelSize ≤ fuel) :
    (copyLoop move k (l.kernelSourceImage + l.kernelSize) fuel
      ⟨m, l.kernelSourceImage, l.kernelStart, [], []⟩).mem = overlay m l.kernelStart l.bssStart
        fun x => m (l.kernelSourceImage + (x - l.kernelStart)) := by
  rw [← l.start_add_size]
  exact (copyLoop_spec hmove (Nat.dvd_trans hk l.source_dvd) (Nat.dvd_trans hk l.start_dvd)
    (Nat.dvd_trans hk l.size_dvd) (.inr l.source_end_le) fuel 0 (Nat.zero_le _) (Nat.dvd_zero _)
    hfuel ⟨m, l.kernelSourceImage, l.kernelStart, [], []⟩ rfl rfl (overlay_self _ _ _).symm
    (AccessesIn.nil _ _) (AccessesIn.nil _ _)).2.1

end Layout

/-- The image is at the address it is linked for, and the flag where it was. -/
structure ImageCopied (l : Layout) (s s' : BootCpu) : Prop where
  mem : s'.mem = overlay s.mem l.kernelStart l.bssStart
    fun x => s.mem (l.kernelSourceImage + (x - l.kernelStart))
  ebx : s'.ebx = s.ebx
  cr0 : s'.cr0 = s.cr0
  cr4 : s'.cr4 = s.cr4
  xcr0 : s'.xcr0 = s.xcr0

section Image

variable (l : Layout) (s : BootCpu) {fuel : ℕ} (hfuel : l.kernelSize ≤ fuel)
include hfuel

/-- The copy by vectors. -/
theorem copyVectorLoop_image {k : ℕ} (hk : 2 ^ k ∣ 32) :
    ∃ s', (s.copyKernelSetup l).copyVectorSetup.copyVectorLoop (2 ^ k) fuel = some s' ∧
      ImageCopied l s s' := by
  have hsource := l.source_end_le
  have hsize := l.start_add_size
  have hstart := l.start_eq
  have hend := l.bssStart_lt
  have hlt := l.bssEnd_lt
  have hindex : (s.copyKernelSetup l).copyVectorSetup.edx
      = BitVec.ofNat 32 0 - BitVec.ofNat 32 l.kernelSize := (BitVec.zero_sub _).symm
  refine ⟨_, copyVectorLoop_eq (c := ⟨s.mem, l.kernelSourceImage, l.kernelStart, [], []⟩)
    (Nat.two_pow_pos k) (Nat.dvd_trans hk l.source_dvd) (Nat.dvd_trans hk l.start_dvd)
    (Nat.dvd_trans hk l.size_dvd) (by omega) (by omega) fuel l.size_pos (Nat.dvd_zero _) hfuel
    (BitVec.ofNat_add ..).symm (BitVec.ofNat_add ..).symm hindex rfl rfl rfl,
    ?_, rfl, rfl, rfl, rfl⟩
  exact l.copyLoop_image (chunkMove_vector k) hk s.mem hfuel

/-- The copy by words. -/
theorem copy32_image : ImageCopied l s (s.copyKernelSetup l).copy32 := by
  have hsource := l.source_end_le
  have hsize := l.start_add_size
  have hstart := l.start_eq
  have hend := l.bssStart_lt
  have hlt := l.bssEnd_lt
  -- whole words are copied, since the size is a multiple of the vectors'
  have hwords : 4 * (l.kernelSize / 4) = l.kernelSize :=
    Nat.mul_div_cancel' (Nat.dvd_trans (by decide) l.size_dvd)
  have hcount : ((s.copyKernelSetup l).ecx >>> 2).toNat = l.kernelSize / 4 := by
    change (BitVec.ofNat 32 l.kernelSize >>> 2).toNat = _
    rw [BitVec.toNat_ushiftRight, BitVec.toNat_ofNat, Nat.mod_eq_of_lt (by omega),
      Nat.shiftRight_eq_div_pow]
  unfold BootCpu.copy32
  simp only [hcount]
  obtain ⟨esi, edi, ecx, heq⟩ := @repMovsl_eq (l.kernelSize / 4) fuel (by omega)
    { s.copyKernelSetup l with ecx := (s.copyKernelSetup l).ecx >>> 2 }
    ⟨s.mem, l.kernelSourceImage, l.kernelStart, [], []⟩
    (Nat.mod_eq_of_lt (by omega)) (Nat.mod_eq_of_lt (by omega)) rfl
    (by rw [hwords]; exact lt_of_le_of_lt hsource (by omega))
    (by rw [hwords]; exact lt_of_eq_of_lt hsize (by omega))
  rw [hwords] at heq
  rw [heq]
  exact ⟨l.copyLoop_image chunkMove_word (by decide) s.mem hfuel, rfl, rfl, rfl, rfl⟩

/-- **Every method copies the image**, and keeps the flag. -/
theorem copyKernel_spec {tier : Tier} (hebx : s.ebx = BitVec.ofNat 32 tier.flag) :
    ∃ s', s.copyKernel l fuel = some s' ∧ ImageCopied l s s' := by
  have hflag : (s.copyKernelSetup l).ebx.toNat = tier.flag := by
    change s.ebx.toNat = _
    rw [hebx]
    cases tier <;> rfl
  unfold BootCpu.copyKernel
  simp only [hflag]
  cases tier with
  | gpr => exact ⟨_, rfl, copy32_image l s hfuel⟩
  | simd => exact copyVectorLoop_image l s hfuel (k := 4) (by decide)
  | avx2 => exact copyVectorLoop_image l s hfuel (k := 5) (by decide)

end Image

/-! ### The entry of the kernel -/

theorem fillRange_succ (m : ByteMem) {lo hi : ℕ} (h : lo < hi) (v : BitVec 8) :
    fillRange (setByte m lo v) (lo + 1) hi v = fillRange m lo hi v := by
  funext x
  unfold fillRange overlay setByte
  grind

/-- `.init_bss` clears the range between the pointers. -/
theorem initBss_eq (fuel : ℕ) {s : BootCpu} (hle : s.edi.toNat ≤ s.ecx.toNat)
    (hfuel : s.ecx.toNat - s.edi.toNat < fuel) :
    s.initBss fuel = some { s with
      edi := s.ecx
      mem := fillRange s.mem s.edi.toNat s.ecx.toNat 0 } := by
  -- on the fuel: one byte is cleared, up to the end
  induction fuel generalizing s with
  | zero => omega
  | succ fuel ih =>
    unfold BootCpu.initBss
    by_cases hdone : s.edi = s.ecx
    · have hsame : { s with edi := s.ecx } = s := by
        cases s
        cases hdone
        rfl
      rw [if_pos hdone, hdone, show fillRange s.mem s.ecx.toNat s.ecx.toNat 0 = s.mem from
        overlay_self _ _ _]
      exact congrArg some hsame.symm
    · have hnext : (s.edi + 1).toNat = s.edi.toNat + 1 := by bv_omega
      have hlt : s.edi.toNat < s.ecx.toNat := by bv_omega
      have hfuel' : s.ecx.toNat - (s.edi.toNat + 1) < fuel := by omega
      rw [if_neg hdone, ih (by rw [hnext]; exact hlt) (by rw [hnext]; exact hfuel')]
      simp only [hnext, fillRange_succ _ hlt]

/-- What `kernel_main` finds, when the boot loader had `m` in memory. -/
structure KernelLoaded (l : Layout) (tier : Tier) (m : ByteMem) (s : BootCpu) : Prop where
  image : ∀ i < l.kernelSize, s.mem (l.kernelStart + i) = m (l.kernelSourceImage + i)
  bss : ∀ x, l.bssStart ≤ x → x < l.bssEnd → x ≠ l.mmFlag → s.mem x = 0
  mmFlag : s.mem l.mmFlag = BitVec.ofNat 8 tier.flag
  enabled : s.Enabled tier
  esp : s.esp.toNat = l.kernelStackTop - 4
  returns : load s.mem 4 s.esp.toNat = l.returnAddress
  /-- The word below the boot stack is the only one written besides the kernel's own memory. -/
  frame : ∀ x, ¬ (l.kernelStart ≤ x ∧ x < l.bssEnd) →
    ¬ (l.kernelStackTop - 4 ≤ x ∧ x < l.kernelStackTop) → ¬ (0x7DFC ≤ x ∧ x < 0x7E00) →
    s.mem x = m x

theorem store_outside (m : ByteMem) {k a x : ℕ} {v : BitVec (8 * k)} (h : x < a ∨ a + k ≤ x) :
    store m k a v x = m x := if_neg (by omega)

/-- `kernel_entry`, for an image in its place. -/
theorem kernelEntry_spec (l : Layout) (s : BootCpu) {fuel : ℕ}
    (hfuel : l.bssEnd - l.bssStart < fuel) :
    ∃ s', s.kernelEntry l fuel = some s' ∧ s'.esp.toNat = l.kernelStackTop - 4 ∧
      s'.mem = store (setByte (fillRange s.mem l.bssStart l.bssEnd 0) l.mmFlag (s.ebx.setWidth 8)) 4
        (l.kernelStackTop - 4) l.returnAddress ∧
      s'.cr0 = s.cr0 ∧ s'.cr4 = s.cr4 ∧ s'.xcr0 = s.xcr0 := by
  have hlt := l.bssStart_lt
  have hend := l.bssEnd_lt
  have htop := l.stack_lt
  have hroom := l.stack_ge
  -- the symbols of the linker fit into the registers
  have hedi : (BitVec.ofNat 32 l.bssStart).toNat = l.bssStart := Nat.mod_eq_of_lt (by omega)
  have hecx : (BitVec.ofNat 32 l.bssEnd).toNat = l.bssEnd := Nat.mod_eq_of_lt (by omega)
  have hesp : (BitVec.ofNat 32 l.kernelStackTop - 4).toNat = l.kernelStackTop - 4 := by bv_omega
  let t : BootCpu := { s with
    esp := BitVec.ofNat 32 l.kernelStackTop
    edi := BitVec.ofNat 32 l.bssStart
    ecx := BitVec.ofNat 32 l.bssEnd }
  have hcleared := initBss_eq fuel (s := t) (by rw [hedi, hecx]; exact hlt.le)
    (by rw [hedi, hecx]; exact hfuel)
  unfold BootCpu.kernelEntry
  change ∃ s', (t.initBss fuel).bind _ = some s' ∧ _
  rw [hcleared, Option.bind_some]
  refine ⟨_, rfl, hesp, ?_, rfl, rfl, rfl⟩
  change store (setByte (fillRange s.mem (BitVec.ofNat 32 l.bssStart).toNat
    (BitVec.ofNat 32 l.bssEnd).toNat 0) l.mmFlag (s.ebx.setWidth 8)) 4
    (BitVec.ofNat 32 l.kernelStackTop - 4).toNat l.returnAddress = _
  rw [hedi, hecx, hesp]

/-- **The kernel is loaded.** Whatever the processor has, `kernel_main` is called with the
image of the boot loader at the address it is linked for, with its other data zero, and with
the flag of the best vector unit, which is turned on. -/
theorem kernel_loaded (l : Layout) {p : Processor} (hp : p.Documented) (s : BootCpu)
    (hcr4 : s.cr4 &&& ~~~p.cr4Bits = 0) {fuel : ℕ} (hcopy : l.kernelSize ≤ fuel)
    (hbss : l.bssEnd - l.bssStart < fuel) :
    ∃ s', s.pmEntry l p fuel = some s' ∧ KernelLoaded l p.tier s.mem s' := by
  obtain ⟨u, hu, hebx, -, humem, hon⟩ :=
    features_detected (s := { s with esp := sp32Address }) hp hcr4
  obtain ⟨v, hv, hvmem, hvebx, hv0, hv4, hvx⟩ := copyKernel_spec l u hcopy hebx
  obtain ⟨w, hw, hesp, hwmem, hw0, hw4, hwx⟩ := kernelEntry_spec l v hbss
  have hlt := l.bssStart_lt
  have hroom := l.stack_ge
  have hsize := l.start_add_size
  have hsource := l.source_ge
  have hsource_le := l.source_end_le
  have hstart := l.start_eq
  have hge := l.mmFlag_ge
  -- the detection has written its word, or nothing
  have hscratch {x : ℕ} (hx : ¬ (0x7DFC ≤ x ∧ x < 0x7E00)) : u.mem x = s.mem x := by
    rw [humem]
    split
    · have haddr : (sp32Address - 4).toNat = 0x7DFC := by decide
      exact store_outside _ (by simp only [haddr]; omega)
    · rfl
  refine ⟨w, ?_, ?_⟩
  · unfold BootCpu.pmEntry
    rw [hu]
    change (u.copyKernel l fuel).bind _ = _
    rw [hv]
    exact hw
  refine ⟨?_, ?_, ?_, ?_, hesp, ?_, ?_⟩
  · -- the image
    intro i hi
    rw [hwmem, store_outside _ (by omega)]
    unfold setByte fillRange
    rw [if_neg (by omega), overlay_outside (by omega), hvmem, overlay_inside (by omega) (by omega),
      Nat.add_sub_cancel_left]
    exact hscratch (by omega)
  · -- the data without an image
    intro x hx hx' hne
    rw [hwmem, store_outside _ (by omega)]
    unfold setByte fillRange
    rw [if_neg hne, overlay_inside hx hx']
  · -- the flag
    rw [hwmem, store_outside _ (by have := l.mmFlag_lt; omega)]
    unfold setByte
    rw [if_pos rfl, hvebx, hebx]
    cases p.tier <;> rfl
  · -- the control registers
    unfold BootCpu.Enabled at hon ⊢
    rw [hw0, hw4, hwx, hv0, hv4, hvx]
    exact hon
  · rw [hesp, hwmem]
    exact load_store _ 4 _ _
  · intro x hx hstack hx'
    rw [hwmem, store_outside _ (by omega)]
    unfold setByte fillRange
    rw [if_neg (by have := l.mmFlag_lt; omega), overlay_outside (by omega), hvmem,
      overlay_outside (by omega)]
    exact hscratch hx'

/-- A byte of a word. -/
theorem byte_of_load_eq {m m' : ByteMem} {k a x : ℕ} (h : load m k a = load m' k a) (hx : a ≤ x)
    (hx' : x < a + k) : m x = m' x := by
  have hm := extractLsb'_load m k a (j := x - a) (by omega)
  have hm' := extractLsb'_load m' k a (j := x - a) (by omega)
  rw [Nat.add_sub_cancel' hx] at hm hm'
  rw [← hm, ← hm', h]

/-- What `kernel_main` finds does not depend on the method, but for the flag. -/
theorem KernelLoaded.mem_eq {l : Layout} {tier tier' : Tier} {m : ByteMem} {s s' : BootCpu}
    (h : KernelLoaded l tier m s) (h' : KernelLoaded l tier' m s') {x : ℕ} (hflag : x ≠ l.mmFlag)
    (hx : ¬ (0x7DFC ≤ x ∧ x < 0x7E00)) : s.mem x = s'.mem x := by
  have hsize := l.start_add_size
  have hroom := l.stack_ge
  by_cases himage : l.kernelStart ≤ x ∧ x < l.bssStart
  · obtain ⟨i, rfl⟩ := Nat.exists_eq_add_of_le himage.1
    rw [h.image i (by omega), h'.image i (by omega)]
  · by_cases hbss : l.bssStart ≤ x ∧ x < l.bssEnd
    · rw [h.bss x hbss.1 hbss.2 hflag, h'.bss x hbss.1 hbss.2 hflag]
    · by_cases hstack : l.kernelStackTop - 4 ≤ x ∧ x < l.kernelStackTop
      · -- the word that `call` has pushed
        have hword : load s.mem 4 (l.kernelStackTop - 4) = load s'.mem 4 (l.kernelStackTop - 4) := by
          rw [← h.esp, h.returns, h.esp, ← h'.esp, h'.returns]
        exact byte_of_load_eq hword hstack.1 (by omega)
      · rw [h.frame x (by omega) hstack hx, h'.frame x (by omega) hstack hx]

/-- **The methods agree.** Two processors that start with the same memory come to `kernel_main`
with the same memory and the same stack, whatever either can do. Only the flag differs, which is
that of the processor, and the word that the detection uses. -/
theorem methods_agree (l : Layout) {p p' : Processor} (hp : p.Documented) (hp' : p'.Documented)
    {s s' : BootCpu} (hmem : s'.mem = s.mem) (hcr4 : s.cr4 &&& ~~~p.cr4Bits = 0)
    (hcr4' : s'.cr4 &&& ~~~p'.cr4Bits = 0) {fuel : ℕ} (hcopy : l.kernelSize ≤ fuel)
    (hbss : l.bssEnd - l.bssStart < fuel) :
    ∃ t t', s.pmEntry l p fuel = some t ∧ s'.pmEntry l p' fuel = some t' ∧ t.esp = t'.esp ∧
      (∀ x, x ≠ l.mmFlag → ¬ (0x7DFC ≤ x ∧ x < 0x7E00) → t.mem x = t'.mem x) ∧
      t.mem l.mmFlag = BitVec.ofNat 8 p.tier.flag ∧
      t'.mem l.mmFlag = BitVec.ofNat 8 p'.tier.flag := by
  obtain ⟨t, ht, hloaded⟩ := kernel_loaded l hp s hcr4 hcopy hbss
  obtain ⟨t', ht', hloaded'⟩ := kernel_loaded l hp' s' hcr4' hcopy hbss
  rw [hmem] at hloaded'
  refine ⟨t, t', ht, ht', ?_, ?_, hloaded.mmFlag, hloaded'.mmFlag⟩
  · exact BitVec.eq_of_toNat_eq (hloaded.esp.trans hloaded'.esp.symm)
  · exact fun x hflag hx => hloaded.mem_eq hloaded' hflag hx

/-- A processor with every vector unit. -/
def vectorProcessor : Processor where
  cpuid eax _ :=
    if eax = 0 then ⟨0x0D, 0, 0, 0⟩
    else if eax = 1 then ⟨0, 0, 0x14000000, 0x04000000⟩
    else ⟨0, 0x20, 0, 0⟩
  cr4Bits := 0x00040600
  xcr0Bits := 0x7

/-- A processor without any. -/
def plainProcessor : Processor where
  cpuid eax _ := if eax = 0 then ⟨1, 0, 0, 0⟩ else ⟨0, 0, 0, 1⟩
  cr4Bits := 0
  xcr0Bits := 0

theorem vectorProcessor_documented : vectorProcessor.Documented :=
  ⟨fun _ => rfl, fun _ => rfl, fun _ => by decide, fun _ => by decide, fun _ => by decide⟩

theorem plainProcessor_documented : plainProcessor.Documented :=
  ⟨fun _ => rfl, fun _ => rfl, fun h => absurd h (by decide), fun h => absurd h (by decide),
    fun h => absurd h (by decide)⟩

/-- The registers after the jump to protected mode. -/
def protectedMode (m : ByteMem) : BootCpu := ⟨0x11, 0, 0, 0, 0, 0, 0x7A00, 0x11, 0, 1, m⟩

/-- An image of three sectors. -/
def threeSectors : Layout where
  kernelSourceImage := 0x8000
  kernelStart := 0x100000
  bssStart := 0x100600
  bssEnd := 0x100700
  kernelStackTop := 0x101734
  mmFlag := 0x100600
  returnAddress := 0x100040
  source_ge := by decide
  source_aligned := by decide
  start_eq := rfl
  bssStart_aligned := by decide
  start_lt := by decide
  source_le := by decide
  mmFlag_ge := by decide
  mmFlag_lt := by decide
  stack_ge := by decide
  stack_lt := by decide

theorem methods_agree_threeSectors :
    let s := protectedMode fun x => BitVec.ofNat 8 x
    ∃ t t', s.pmEntry threeSectors vectorProcessor 0x1000 = some t ∧
      s.pmEntry threeSectors plainProcessor 0x1000 = some t' ∧ t.esp = t'.esp ∧
      (∀ x, x ≠ 0x100600 → ¬ (0x7DFC ≤ x ∧ x < 0x7E00) → t.mem x = t'.mem x) ∧
      t.mem 0x100600 = 2 ∧ t'.mem 0x100600 = 0 :=
  methods_agree threeSectors vectorProcessor_documented plainProcessor_documented rfl (by decide)
    (by decide) (by decide) (by decide)

end BareMetal
