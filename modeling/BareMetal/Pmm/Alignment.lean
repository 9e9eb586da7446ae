import Mathlib.Data.Nat.Bitwise
import BareMetal.Tools.Builtin

/-!
# Peeling to an alignment

The bulk loops of the memory manager walk a byte range with stores or loads of
growing width. Before each wider stage a narrower one brings the pointer to the
next multiple of the new width, or to the last multiple in the range if that
comes first (`alignedEnd`).

`Reached last ks x` is what such a chain keeps: the pointer `x` is aligned to every
width in `ks` unless the last multiple of that width has been passed. A stage adds
its width to the list (`Reached.alignStage`), and a bulk or fallback stage keeps
the narrower ones (`Reached.max_of_dvd`). The widths and the lists they meet are the
same in every chain; they are the four steps of a `Ladder`.
-/

namespace BareMetal

/-! ### Alignment -/

/-- `address & ~mask` on 32-bit addresses. -/
def alignDown (mask address : ℕ) : ℕ :=
  (BitVec.ofNat 32 address &&& ~~~(BitVec.ofNat 32 mask)).toNat

/-- `(address + mask) & ~mask` on 32-bit addresses. -/
def alignUp (mask address : ℕ) : ℕ := alignDown mask (usize (address + mask))

/-- `get_best_aligned_address`. -/
def getBestAlignedAddress (addr1 addr2 : ℕ) : ℕ := if addr1 ≤ addr2 then addr1 else addr2

/-- The end of a stage that brings the pointer `start` to the alignment `mask + 1`:
the next multiple, or the last one before `stop`. -/
def alignedEnd (mask start stop : ℕ) : ℕ :=
  getBestAlignedAddress (alignUp mask start) (alignDown mask stop)

/-- Clearing the low bits rounds down to a multiple of the power of two. -/
theorem alignDown_two_pow (p : ℕ) {address : ℕ} (ha : address < 2 ^ 32) :
    alignDown (2 ^ p - 1) address = address / 2 ^ p * 2 ^ p := by
  -- masking is shifting the low bits out and back
  have hbits : BitVec.ofNat 32 address &&& ~~~(BitVec.ofNat 32 (2 ^ p - 1))
      = BitVec.ofNat 32 address >>> p <<< p := by
    apply BitVec.eq_of_getLsbD_eq
    intro i hi
    rw [BitVec.getLsbD_and, BitVec.getLsbD_not, BitVec.getLsbD_ofNat, BitVec.getLsbD_ofNat,
      Nat.testBit_two_pow_sub_one, BitVec.getLsbD_shiftLeft, BitVec.getLsbD_ushiftRight,
      BitVec.getLsbD_ofNat]
    by_cases h : i < p
    · simp [hi, h]
    · rw [Nat.add_sub_cancel' (Nat.le_of_not_lt h)]
      simp [hi, h]
  unfold alignDown
  rw [hbits, BitVec.toNat_shiftLeft, BitVec.toNat_ushiftRight, BitVec.toNat_ofNat,
    Nat.mod_eq_of_lt ha, Nat.shiftLeft_eq, Nat.shiftRight_eq_div_pow, Nat.mod_eq_of_lt]
  exact lt_of_le_of_lt (Nat.div_mul_le_self _ _) ha

/-! ### Positions of the pointer -/

/-- The masks of the source and the widths they align to. -/
inductive AlignMask : ℕ → ℕ → Prop
  | two : AlignMask 2 0x01
  | four : AlignMask 4 0x03
  | sixteen : AlignMask 16 0x0F
  | thirtyTwo : AlignMask 32 0x1F

theorem AlignMask.bounds {k mask : ℕ} (h : AlignMask k mask) : 0 < k ∧ k ≤ 32 ∧ mask + 1 = k := by
  cases h <;> decide

theorem AlignMask.alignDown_eq {k mask a : ℕ} (h : AlignMask k mask)
    (ha : a < 2 ^ 32) : alignDown mask a = a / k * k := by
  cases h with
  | two => exact alignDown_two_pow 1 ha
  | four => exact alignDown_two_pow 2 ha
  | sixteen => exact alignDown_two_pow 4 ha
  | thirtyTwo => exact alignDown_two_pow 5 ha

/-- Rounding up gives the next multiple. -/
theorem AlignMask.alignUp_spec {k mask a : ℕ} (h : AlignMask k mask)
    (ha : a + 32 ≤ 2 ^ 32) :
    a ≤ alignUp mask a ∧ k ∣ alignUp mask a ∧
      alignUp mask a < a + k := by
  obtain ⟨hpos, hle, hmask⟩ := h.bounds
  unfold alignUp
  rw [usize_of_lt (by omega), h.alignDown_eq (by omega)]
  -- the remainder is less than the mask was
  have hdiv := Nat.div_add_mod (a + mask) k
  have hmod := Nat.mod_lt (a + mask) hpos
  rw [Nat.mul_comm] at hdiv
  exact ⟨by omega, Nat.dvd_mul_left _ _, by omega⟩

/-- The pointer `x` is aligned to `k` unless it has passed the last multiple
of `k` in the range, for every width in `ks`. -/
def Reached (last : ℕ) (ks : List ℕ) (x : ℕ) : Prop :=
  ∀ k ∈ ks, x < last / k * k → k ∣ x

theorem Reached.nil (last x : ℕ) : Reached last [] x := fun _ h => absurd h (by simp)

theorem Reached.mono {last x : ℕ} {ks js : List ℕ} (h : Reached last ks x) (hsub : js ⊆ ks) :
    Reached last js x := fun j hj => h j (hsub hj)

/-- Moving to a common multiple keeps the alignments. -/
theorem Reached.max_of_dvd {last x stop : ℕ} {ks : List ℕ} (h : Reached last ks x)
    (hdvd : ∀ j ∈ ks, j ∣ stop) : Reached last ks (max x stop) := by
  intro j hj hlt
  -- either the pointer was past `stop` already, or it stops there
  rcases Nat.le_total stop x with hle | hle
  · rw [Nat.max_eq_left hle] at hlt ⊢
    exact h j hj hlt
  · rw [Nat.max_eq_right hle]
    exact hdvd j hj

section AlignedEnd

variable {last x j k mask : ℕ} {ks : List ℕ} (hk : AlignMask k mask) (hx : x ≤ last)
  (hlast : last + 32 ≤ 2 ^ 32)

include hk hx hlast

/-- An aligning stage ends at a multiple of the new width inside the range. -/
theorem AlignMask.alignedEnd_spec :
    k ∣ alignedEnd mask x last ∧ alignedEnd mask x last ≤ last / k * k := by
  obtain ⟨-, hupdvd, -⟩ := hk.alignUp_spec (a := x) (by omega)
  unfold alignedEnd getBestAlignedAddress
  rw [hk.alignDown_eq (a := last) (by omega)]
  split
  · next h => exact ⟨hupdvd, h⟩
  · exact ⟨Nat.dvd_mul_left _ _, le_refl _⟩

/-- A stage of width `j` that has something to do starts at a multiple of `j`. -/
theorem Reached.dvd_of_lt_alignedEnd (h : Reached last ks x) (hj : 0 < j) (hjk : j ∣ k)
    (hmem : j ∈ 1 :: ks) (hlt : x < alignedEnd mask x last) : j ∣ x := by
  obtain ⟨-, hend⟩ := hk.alignedEnd_spec hx hlast
  have hdownle := Nat.div_mul_le_self last k
  -- below the last multiple of `k` the pointer is below the last multiple of `j`
  have hdivle : last / k * k ≤ last / j * j := by
    obtain ⟨c, hc⟩ := hjk.trans (Nat.dvd_mul_left k (last / k))
    rw [hc, Nat.mul_comm j c]
    refine Nat.mul_le_mul_right j ((Nat.le_div_iff_mul_le hj).mpr ?_)
    rw [Nat.mul_comm, ← hc]
    exact hdownle
  rcases List.mem_cons.mp hmem with rfl | hmem
  · exact one_dvd _
  · exact h j hmem (by omega)

/-- The position after an aligning stage is aligned to the new width as well. -/
theorem Reached.alignStage (h : Reached last ks x) (hdvd : ∀ j ∈ ks, j ∣ k) :
    Reached last (k :: ks) (max x (alignedEnd mask x last)) := by
  obtain ⟨hup, hupdvd, -⟩ := hk.alignUp_spec (a := x) (by omega)
  obtain ⟨hbest, -⟩ := hk.alignedEnd_spec hx hlast
  have hdown := hk.alignDown_eq (a := last) (by omega)
  intro j hj hlt
  rcases List.mem_cons.mp hj with rfl | hj
  · -- short of the last multiple, the stage stopped at the next multiple
    have hstop : alignedEnd mask x last = alignUp mask x := by
      unfold alignedEnd getBestAlignedAddress at hlt ⊢
      rw [hdown] at hlt ⊢
      split at hlt
      · next hle => exact if_pos hle
      · omega
    rw [hstop, Nat.max_eq_right hup]
    exact hupdvd
  · exact (h.max_of_dvd fun j hj => (hdvd j hj).trans hbest) j hj hlt

end AlignedEnd

/-! ### The widths of a chain -/

/-- One step of a chain. Going up, accesses of width `j` bring a pointer with the
alignments `ks` to the width `k`; coming down, accesses of width `k` leave `ks`. -/
inductive Ladder : (j k mask : ℕ) → (ks : List ℕ) → Prop
  | two : Ladder 1 2 0x01 []
  | four : Ladder 2 4 0x03 [2]
  | sixteen : Ladder 4 16 0x0F [4, 2]
  | thirtyTwo : Ladder 16 32 0x1F [16, 4, 2]

namespace Ladder

variable {j k mask : ℕ} {ks : List ℕ}

theorem alignMask (h : Ladder j k mask ks) : AlignMask k mask := by
  cases h <;> constructor

theorem pos (h : Ladder j k mask ks) : 0 < j := by
  cases h <;> decide

theorem dvd (h : Ladder j k mask ks) : j ∣ k := by
  cases h <;> decide

/-- The accesses that go up are aligned by the steps before. -/
theorem mem (h : Ladder j k mask ks) : j ∈ 1 :: ks := by
  cases h <;> decide

/-- The widths below divide the new one. -/
theorem dvd_of_mem (h : Ladder j k mask ks) : ∀ i ∈ ks, i ∣ k := by
  cases h <;> decide

end Ladder

end BareMetal
