import BareMetal.Pmm.Alignment
import BareMetal.Pmm.Cores

/-!
# Bulk fills of the bitmap

`set_frames_used_*` and `set_frames_free_*` store `0xFF` or `0x00` in every byte of
a range. A fill is a chain of loops over stores of one width, `set_gpr<T>` for the
general purpose registers, `set_sse2` and `set_avx2` for the vector units, peeled
and ended in the same way as a sweep. Both halves of the source, and the `_inline`
variants of each loop, do the same for the two values of `set_bits`, so each is
written once with the value as a parameter.

`setRange_mem` says that every tier is `fillRange`, and `fills_write_exactly` says it of
the six functions byte by byte.
-/

namespace BareMetal

open Framework

/-- `set_bits`. -/
inductive SetBits where
  | allZeros
  | allOnes
  deriving DecidableEq

/-- The underlying value of a `set_bits`. -/
def SetBits.val : SetBits → ℕ
  | .allZeros => 0
  | .allOnes => 1

/-- The byte that a fill writes. -/
def SetBits.byte : SetBits → BitVec 8
  | .allZeros => 0x00
  | .allOnes => 0xFF

/-! ### The loops -/

/-- A loop over `[*start, stop)`. -/
def setCore (put : ByteMem → ℕ → ByteMem) (k stop : ℕ) (s : Fill) : Fill :=
  storeLoop put k stop (stop - s.start) s

/-- `set_gpr<T, Set>` and `set_gpr_inline<T, Set>`, for a type `T` of `k` bytes. -/
def setGpr (k : ℕ) (set : SetBits) (stop : ℕ) (s : Fill) : Fill :=
  let value := BitVec.allOnes (8 * k) * BitVec.ofNat (8 * k) set.val
  setCore (fun m current => store m k current value) k stop s

/-- The register that the vector fills store. -/
def SetBits.reg (n : ℕ) : SetBits → Reg n
  | .allZeros => setzero n
  | .allOnes =>
    let temp := setzero n
    cmpeqEpi32 temp temp

/-- `set_sse2<Set>` and `set_sse2_inline<Set>`. -/
def setSse2 (set : SetBits) (stop : ℕ) (s : Fill) : Fill :=
  setCore (fun m current => mmStore m current (set.reg 16)) 16 stop s

/-- `set_avx2<Set>` and `set_avx2_inline<Set>`. -/
def setAvx2 (set : SetBits) (stop : ℕ) (s : Fill) : Fill :=
  setCore (fun m current => mmStore m current (set.reg 32)) 32 stop s

/-! ### The fills -/

/-- `set_frames_used_32` and `set_frames_free_32`. The 32-bit loop runs up to the
same end as the 16-bit loop before it, so it has nothing left to store. -/
def setFrames32 (set : SetBits) (m : ByteMem) (start stop : ℕ) : Fill :=
  let alignedEnd2 := alignDown 0x01 stop
  let s := setGpr 1 set (alignedEnd 0x01 start stop) ⟨m, start, []⟩
  let tempEnd := alignedEnd 0x03 s.start stop
  let s := setGpr 2 set tempEnd s
  let s := setGpr 4 set tempEnd s
  -- Fallback
  let s := setGpr 2 set alignedEnd2 s
  setGpr 1 set stop s

/-- `set_frames_used_sse2` and `set_frames_free_sse2`. -/
def setFramesSse2 (set : SetBits) (m : ByteMem) (start stop : ℕ) : Fill :=
  let alignedEnd2 := alignDown 0x01 stop
  let alignedEnd4 := alignDown 0x03 stop
  let alignedEnd16 := alignDown 0x0F stop
  let s := setGpr 1 set (alignedEnd 0x01 start stop) ⟨m, start, []⟩
  let s := setGpr 2 set (alignedEnd 0x03 s.start stop) s
  let s := setGpr 4 set (alignedEnd 0x0F s.start stop) s
  let s := setSse2 set alignedEnd16 s
  -- Fallback
  let s := setGpr 4 set alignedEnd4 s
  let s := setGpr 2 set alignedEnd2 s
  setGpr 1 set stop s

/-- `set_frames_used_avx2` and `set_frames_free_avx2`. -/
def setFramesAvx2 (set : SetBits) (m : ByteMem) (start stop : ℕ) : Fill :=
  let alignedEnd2 := alignDown 0x01 stop
  let alignedEnd4 := alignDown 0x03 stop
  let alignedEnd16 := alignDown 0x0F stop
  let alignedEnd32 := alignDown 0x1F stop
  let s := setGpr 1 set (alignedEnd 0x01 start stop) ⟨m, start, []⟩
  let s := setGpr 2 set (alignedEnd 0x03 s.start stop) s
  let s := setGpr 4 set (alignedEnd 0x0F s.start stop) s
  let s := setSse2 set (alignedEnd 0x1F s.start stop) s
  let s := setAvx2 set alignedEnd32 s
  -- Fallback
  let s := setSse2 set alignedEnd16 s
  let s := setGpr 4 set alignedEnd4 s
  let s := setGpr 2 set alignedEnd2 s
  setGpr 1 set stop s

/-- The entries of `set_range_used` and `set_range_free`. -/
def setRange : Tier → SetBits → ByteMem → ℕ → ℕ → Fill
  | .gpr => setFrames32
  | .simd => setFramesSse2
  | .avx2 => setFramesAvx2

/-! The six functions of the source. -/

namespace Fill

def setFramesUsed32 : ByteMem → ℕ → ℕ → Fill := setFrames32 .allOnes
def setFramesUsedSse2 : ByteMem → ℕ → ℕ → Fill := setFramesSse2 .allOnes
def setFramesUsedAvx2 : ByteMem → ℕ → ℕ → Fill := setFramesAvx2 .allOnes
def setFramesFree32 : ByteMem → ℕ → ℕ → Fill := setFrames32 .allZeros
def setFramesFreeSse2 : ByteMem → ℕ → ℕ → Fill := setFramesSse2 .allZeros
def setFramesFreeAvx2 : ByteMem → ℕ → ℕ → Fill := setFramesAvx2 .allZeros

end Fill

/-! ### What one store writes -/

theorem chunkStore_gpr {k : ℕ} (hk : 0 < k) (set : SetBits) :
    ChunkStore (fun m current => store m k current
      (BitVec.allOnes (8 * k) * BitVec.ofNat (8 * k) set.val)) k fun _ => set.byte := by
  refine ⟨hk, fun m a _ => store_eq_overlay m k a ?_⟩
  intro j hj
  -- the source multiplies all ones by zero or one
  have hword : BitVec.allOnes (8 * k) * BitVec.ofNat (8 * k) set.val
      = if set = .allOnes then BitVec.allOnes (8 * k) else 0#(8 * k) := by
    cases set with
    | allZeros => exact BitVec.mul_zero
    | allOnes => exact BitVec.mul_one _
  rw [hword]
  apply BitVec.eq_of_getLsbD_eq
  intro i hi
  rw [BitVec.getLsbD_extractLsb']
  cases set with
  | allZeros => simp [SetBits.byte]
  | allOnes =>
    rw [if_pos rfl, BitVec.getLsbD_allOnes]
    change _ = (BitVec.allOnes 8).getLsbD i
    rw [BitVec.getLsbD_allOnes]
    simp [hi, show 8 * j + i < 8 * k by omega]

theorem chunkStore_vector {n : ℕ} (hn : 0 < n) (set : SetBits) :
    ChunkStore (fun m current => mmStore m current (set.reg n)) n fun _ => set.byte := by
  refine ⟨hn, fun m a _ => mmStore_eq_overlay m n a ?_⟩
  intro i
  cases set with
  | allZeros => rfl
  | allOnes =>
    change cmpeqEpi32 (setzero n) (setzero n) i = _
    rw [cmpeqEpi32_self]
    rfl

/-! ### Correctness -/

/-- A fill of `[lo, hi)` with `v` that has got to a pointer with the alignments
`ks`. -/
structure FilledTo (m : ByteMem) (v : BitVec 8) (lo hi : ℕ) (ks : List ℕ) (s : Fill) :
    Prop where
  mem : s.mem = fillRange m lo s.start v
  lo_le : lo ≤ s.start
  le_hi : s.start ≤ hi
  reached : Reached hi ks s.start
  stores : AccessesIn lo hi s.stores

section Spec

variable {m : ByteMem} {v : BitVec 8} {lo hi : ℕ} {put : ByteMem → ℕ → ByteMem} {k : ℕ}

/-- A loop whose end is behind the pointer stores nothing. -/
theorem setCore_of_le {stop : ℕ} {s : Fill} (h : stop ≤ s.start) : setCore put k stop s = s := by
  unfold setCore
  rw [Nat.sub_eq_zero_of_le h]
  rfl

variable (hhi : hi + 32 ≤ 2 ^ 32)

include hhi

/-- A loop that aligns the pointer to the next width. -/
theorem FilledTo.alignStage (hput : ChunkStore put k fun _ => v) {ks : List ℕ} {s : Fill}
    {j mask : ℕ} (hs : FilledTo m v lo hi ks s) (hstep : Ladder k j mask ks) :
    FilledTo m v lo hi (j :: ks) (setCore put k (alignedEnd mask s.start hi) s) ∧
      alignedEnd mask s.start hi ≤ (setCore put k (alignedEnd mask s.start hi) s).start := by
  have hj := hstep.alignMask
  obtain ⟨hend, hendle⟩ := hj.alignedEnd_spec hs.le_hi hhi
  have hdownle := Nat.div_mul_le_self hi j
  have haligned := hs.reached.dvd_of_lt_alignedEnd hj hs.le_hi hhi hstep.pos hstep.dvd hstep.mem
  obtain ⟨hstart, hm, hst⟩ := storeLoop_spec hput (hstep.dvd.trans hend) (show _ ≤ hi by omega) _ s
    (le_refl _) haligned hs.mem hs.lo_le hs.stores
  have hle := hs.le_hi
  have hlo := hs.lo_le
  -- the new pointer is the end of the stage, if it was not past it before
  have hreached := hs.reached.alignStage hj hs.le_hi hhi hstep.dvd_of_mem
  unfold setCore
  rw [← hstart] at hm hreached
  exact ⟨⟨hm, by omega, by omega, hreached, hst⟩, by omega⟩

omit hhi in
/-- Alignments that no later loop needs may be forgotten. -/
theorem FilledTo.mono {ks js : List ℕ} {s : Fill} (hs : FilledTo m v lo hi ks s) (hsub : js ⊆ ks) :
    FilledTo m v lo hi js s :=
  ⟨hs.mem, hs.lo_le, hs.le_hi, hs.reached.mono hsub, hs.stores⟩

/-- A loop that runs up to the last multiple of its width in the range. -/
theorem FilledTo.core (hput : ChunkStore put k fun _ => v) {ks : List ℕ} {s : Fill}
    {j mask : ℕ} (hs : FilledTo m v lo hi (k :: ks) s) (hstep : Ladder j k mask ks) :
    FilledTo m v lo hi ks (setCore put k (alignDown mask hi) s) := by
  have hk := hstep.alignMask
  have hdownle := Nat.div_mul_le_self hi k
  rw [hk.alignDown_eq (a := hi) (by omega)]
  have hdvd : k ∣ hi / k * k := Nat.dvd_mul_left _ _
  obtain ⟨hstart, hm, hst⟩ := storeLoop_spec hput hdvd hdownle _ s (le_refl _)
    (hs.reached k List.mem_cons_self) hs.mem hs.lo_le hs.stores
  have hle := hs.le_hi
  have hlo := hs.lo_le
  have hreached := (hs.reached.mono (List.subset_cons_self k ks)).max_of_dvd fun i hi =>
    (hstep.dvd_of_mem i hi).trans hdvd
  unfold setCore
  rw [← hstart] at hm hreached
  exact ⟨hm, by omega, by omega, hreached, hst⟩

omit hhi in
/-- The last loop stores single bytes and ends the fill. -/
theorem FilledTo.finish (hput : ChunkStore put 1 fun _ => v) {ks : List ℕ} {s : Fill}
    (hs : FilledTo m v lo hi ks s) :
    (setCore put 1 hi s).mem = fillRange m lo hi v ∧
      AccessesIn lo hi (setCore put 1 hi s).stores := by
  obtain ⟨-, hm, hst⟩ := storeLoop_spec hput (one_dvd hi) (le_refl hi) _ s (le_refl _)
    (fun _ => one_dvd _) hs.mem hs.lo_le hs.stores
  rw [Nat.max_eq_right hs.le_hi] at hm
  exact ⟨hm, hst⟩

end Spec

section Tiers

variable {start stop : ℕ} (hrange : start ≤ stop) (hstop : stop + 32 ≤ 2 ^ 32) (set : SetBits)
  (m : ByteMem)

/-- What a fill of `[start, stop)` leaves: the range filled, everything else as it
was, and stores inside the range with aligned vectors. -/
def FillSpec (set : SetBits) (m : ByteMem) (start stop : ℕ) (s : Fill) : Prop :=
  s.mem = fillRange m start stop set.byte ∧ AccessesIn start stop s.stores

include hrange in
theorem FilledTo.init : FilledTo m set.byte start stop [] ⟨m, start, []⟩ :=
  ⟨(overlay_self m start _).symm, le_refl _, hrange, Reached.nil _ _, .nil _ _⟩

include hrange hstop

theorem setFrames32_spec : FillSpec set m start stop (setFrames32 set m start stop) := by
  have h8 := chunkStore_gpr (k := 1) (by decide) set
  have h16 := chunkStore_gpr (k := 2) (by decide) set
  simp only [setFrames32]
  obtain ⟨h₁, -⟩ := (FilledTo.init hrange set m).alignStage hstop h8 .two
  obtain ⟨h₂, hpassed⟩ := h₁.alignStage hstop h16 .four
  -- the 32-bit loop has the end of the loop before it
  have hnone : setGpr 4 set _ _ = _ := setCore_of_le hpassed
  -- the fallback stages, of which the first has nothing to do
  have h₃ := (h₂.mono (List.subset_cons_self 4 [2])).core hstop h16 .two
  rw [← hnone] at h₃
  exact h₃.finish h8

theorem setFramesSse2_spec : FillSpec set m start stop (setFramesSse2 set m start stop) := by
  have h8 := chunkStore_gpr (k := 1) (by decide) set
  have h16 := chunkStore_gpr (k := 2) (by decide) set
  have h32 := chunkStore_gpr (k := 4) (by decide) set
  have h128 := chunkStore_vector (n := 16) (by decide) set
  simp only [setFramesSse2]
  obtain ⟨h₁, -⟩ := (FilledTo.init hrange set m).alignStage hstop h8 .two
  obtain ⟨h₂, -⟩ := h₁.alignStage hstop h16 .four
  obtain ⟨h₃, -⟩ := h₂.alignStage hstop h32 .sixteen
  have h₄ := h₃.core hstop h128 .sixteen
  -- fallback
  have h₅ := h₄.core hstop h32 .four
  have h₆ := h₅.core hstop h16 .two
  exact h₆.finish h8

theorem setFramesAvx2_spec : FillSpec set m start stop (setFramesAvx2 set m start stop) := by
  have h8 := chunkStore_gpr (k := 1) (by decide) set
  have h16 := chunkStore_gpr (k := 2) (by decide) set
  have h32 := chunkStore_gpr (k := 4) (by decide) set
  have h128 := chunkStore_vector (n := 16) (by decide) set
  have h256 := chunkStore_vector (n := 32) (by decide) set
  simp only [setFramesAvx2]
  obtain ⟨h₁, -⟩ := (FilledTo.init hrange set m).alignStage hstop h8 .two
  obtain ⟨h₂, -⟩ := h₁.alignStage hstop h16 .four
  obtain ⟨h₃, -⟩ := h₂.alignStage hstop h32 .sixteen
  obtain ⟨h₄, -⟩ := h₃.alignStage hstop h128 .thirtyTwo
  have h₅ := h₄.core hstop h256 .thirtyTwo
  -- fallback
  have h₆ := h₅.core hstop h128 .sixteen
  have h₇ := h₆.core hstop h32 .four
  have h₈ := h₇.core hstop h16 .two
  exact h₈.finish h8

/-- **Every tier fills exactly its range.** -/
theorem setRange_spec (tier : Tier) :
    FillSpec set m start stop (setRange tier set m start stop) := by
  cases tier with
  | gpr => exact setFrames32_spec hrange hstop set m
  | simd => exact setFramesSse2_spec hrange hstop set m
  | avx2 => exact setFramesAvx2_spec hrange hstop set m

theorem setRange_mem (tier : Tier) :
    (setRange tier set m start stop).mem = fillRange m start stop set.byte :=
  (setRange_spec hrange hstop set m tier).1

end Tiers

/-! ### The six functions -/

/-- From `m`, the fill `s` wrote `v` to the bytes of `[start, stop)` and nothing else, and
its vector stores were aligned. -/
structure WritesExactly (v : BitVec 8) (m : ByteMem) (start stop : ℕ) (s : Fill) : Prop where
  inside : ∀ a, start ≤ a → a < stop → s.mem a = v
  outside : ∀ a, a < start ∨ stop ≤ a → s.mem a = m a
  stores_in : ∀ a ∈ s.stores, start ≤ a.address ∧ a.address + a.width ≤ stop
  aligned : ∀ a ∈ s.stores, a.width = 16 ∨ a.width = 32 → a.width ∣ a.address

theorem FillSpec.writesExactly {set : SetBits} {m : ByteMem} {start stop : ℕ} {s : Fill}
    (h : FillSpec set m start stop s) : WritesExactly set.byte m start stop s := by
  obtain ⟨hmem, hstores⟩ := h
  refine ⟨?_, ?_, ?_, ?_⟩
  · intro a h₁ h₂
    rw [hmem]
    exact if_pos ⟨h₁, h₂⟩
  · intro a ha
    rw [hmem]
    exact if_neg (by omega)
  · intro a ha
    exact ⟨(hstores a ha).1, (hstores a ha).2.1⟩
  · intro a ha hwidth
    exact (hstores a ha).2.2 (by omega)

/-- **Every bulk fill writes exactly its range.** The three functions for used frames write
`0xFF`, those for free frames `0x00`; their vector stores are aligned, and the three tiers
of either kind leave the same memory. -/
theorem fills_write_exactly (m : ByteMem) {start stop : ℕ} (hrange : start ≤ stop)
    (hstop : stop + 32 ≤ 2 ^ 32) :
    (∀ fill ∈ [Fill.setFramesUsed32, Fill.setFramesUsedSse2, Fill.setFramesUsedAvx2],
        WritesExactly 0xFF m start stop (fill m start stop)) ∧
      (∀ fill ∈ [Fill.setFramesFree32, Fill.setFramesFreeSse2, Fill.setFramesFreeAvx2],
        WritesExactly 0x00 m start stop (fill m start stop)) ∧
      ((Fill.setFramesUsed32 m start stop).mem = (Fill.setFramesUsedSse2 m start stop).mem ∧
        (Fill.setFramesUsedSse2 m start stop).mem = (Fill.setFramesUsedAvx2 m start stop).mem) ∧
      (Fill.setFramesFree32 m start stop).mem = (Fill.setFramesFreeSse2 m start stop).mem ∧
        (Fill.setFramesFreeSse2 m start stop).mem = (Fill.setFramesFreeAvx2 m start stop).mem := by
  have hspec : ∀ set tier, FillSpec set m start stop (setRange tier set m start stop) :=
    fun set tier => setRange_spec hrange hstop set m tier
  have hsame : ∀ set tier tier', (setRange tier set m start stop).mem
      = (setRange tier' set m start stop).mem :=
    fun set tier tier' => (hspec set tier).1.trans (hspec set tier').1.symm
  -- the six functions are the entries of the two tables
  refine ⟨?_, ?_, ⟨hsame .allOnes .gpr .simd, hsame .allOnes .simd .avx2⟩,
    hsame .allZeros .gpr .simd, hsame .allZeros .simd .avx2⟩
  · intro fill hfill
    simp only [List.mem_cons, List.not_mem_nil, or_false] at hfill
    rcases hfill with rfl | rfl | rfl
    · exact (hspec .allOnes .gpr).writesExactly
    · exact (hspec .allOnes .simd).writesExactly
    · exact (hspec .allOnes .avx2).writesExactly
  · intro fill hfill
    simp only [List.mem_cons, List.not_mem_nil, or_false] at hfill
    rcases hfill with rfl | rfl | rfl
    · exact (hspec .allZeros .gpr).writesExactly
    · exact (hspec .allZeros .simd).writesExactly
    · exact (hspec .allZeros .avx2).writesExactly

/-- A range from an odd address to one between two multiples of 32. -/
theorem fills_write_exactly_odd :
    WritesExactly 0xFF (fun _ => 0x5A) 0x101 0x1B3
      (Fill.setFramesUsedAvx2 (fun _ => 0x5A) 0x101 0x1B3) :=
  (fills_write_exactly (fun _ => 0x5A) (by decide) (by decide)).1 _ (by simp)

end BareMetal
