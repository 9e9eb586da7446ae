import Mathlib.Algebra.Ring.Int.Defs
import Mathlib.Algebra.Ring.Nat
import Mathlib.Order.Basic
import Mathlib.Tactic.Set

/-!
# Machine arithmetic and the bit builtins

The kernel is 32-bit code, so `size_t` and `uintptr_t` are 32-bit unsigned. They
are modelled by natural numbers, with the wrap-around written out where the
source computes: `usize` truncates a result and `usizeSub` is the wrapping
difference. `u8` and `u8Sub` do the same for `uint8_t`; `u8OfInt` and `i16` are the
conversions of a signed result to `uint8_t` and `int16_t`.

`leadingZeros` and `trailingZeros` are `builtin::leading_zeros` and
`builtin::trailing_zeros`. Both go through the 32-bit compiler builtins; the
leading count of a narrow type shifts its value to the top first, so that the
one builtin serves every width. The lemmas below describe them on the widths
the source instantiates and on nonzero values, where the builtins are defined.
`highestOf2` is `power::highest_of_2`.
-/

namespace BareMetal

/-! ### Unsigned 32-bit arithmetic -/

/-- Truncation of a `size_t` result. -/
def usize (x : ℕ) : ℕ := x % 2 ^ 32

/-- The wrapping difference of two `size_t` values. -/
def usizeSub (a b : ℕ) : ℕ := (a + 2 ^ 32 - b) % 2 ^ 32

/-- Truncation to `uint8_t`. -/
def u8 (x : ℕ) : ℕ := x % 2 ^ 8

/-- The wrapping difference of two `uint8_t` values. -/
def u8Sub (a b : ℕ) : ℕ := (a + 2 ^ 8 - b) % 2 ^ 8

/-- Conversion of an `int` to `uint8_t`. -/
def u8OfInt (x : ℤ) : ℕ := (x % 2 ^ 8).toNat

/-- Conversion of an `int` to `int16_t`. -/
def i16 (x : ℤ) : ℤ := x.bmod (2 ^ 16)

@[simp] theorem usize_of_lt {x : ℕ} (h : x < 2 ^ 32) : usize x = x := Nat.mod_eq_of_lt h

theorem usize_lt (x : ℕ) : usize x < 2 ^ 32 := Nat.mod_lt _ (by decide)

theorem usizeSub_lt (a b : ℕ) : usizeSub a b < 2 ^ 32 := Nat.mod_lt _ (by decide)

theorem usizeSub_of_le {a b : ℕ} (hba : b ≤ a) (ha : a < 2 ^ 32) : usizeSub a b = a - b := by
  unfold usizeSub
  omega

/-- Subtracting a negated value adds it: the two wraps cancel. -/
theorem usizeSub_neg {a b : ℕ} (hb : b < 2 ^ 32) (hab : a + b < 2 ^ 32) :
    usizeSub a (usizeSub 0 b) = a + b := by
  unfold usizeSub
  omega

/-- A value put together again from its two halves, which are taken by a shift and a mask. -/
theorem append_halves {w : ℕ} {mask : BitVec (w + w)} (hmask : mask.setWidth w = .allOnes w)
    (a : BitVec (w + w)) :
    ((a >>> w) &&& mask).setWidth w ++ (a &&& mask).setWidth w = a := by
  rw [BitVec.setWidth_and, BitVec.setWidth_and, hmask, BitVec.and_allOnes, BitVec.and_allOnes]
  ext i hi
  rw [BitVec.getElem_append]
  split
  · rw [BitVec.getElem_setWidth, BitVec.getLsbD_eq_getElem]
  · rw [BitVec.getElem_setWidth, BitVec.getLsbD_ushiftRight, Nat.add_sub_cancel' (by omega),
      BitVec.getLsbD_eq_getElem]

/-! ### Counting zeros -/

/-- The compiler's count of trailing zeros of an `unsigned int`. -/
def builtinCtz (value : BitVec 32) : ℕ := value.ctz.toNat

/-- The compiler's count of leading zeros of an `unsigned int`. -/
def builtinClz (value : BitVec 32) : ℕ := value.clz.toNat

/-- The compiler's count of leading zeros of an `unsigned long long`. -/
def builtinClzll (value : BitVec 64) : ℕ := value.clz.toNat

/-- The leading zeros of a nonzero value bracket it between two powers of two. -/
theorem clz_bounds {w n : ℕ} (hw : 0 < w) (h₀ : n ≠ 0) (h : n < 2 ^ w) :
    (BitVec.ofNat w n).clz.toNat < w ∧ 2 ^ (w - 1 - (BitVec.ofNat w n).clz.toNat) ≤ n ∧
      n < 2 ^ (w - (BitVec.ofNat w n).clz.toNat) := by
  have htoNat : (BitVec.ofNat w n).toNat = n := by
    rw [BitVec.toNat_ofNat, Nat.mod_eq_of_lt h]
  have hne : BitVec.ofNat w n ≠ 0#w := by
    intro hzero
    rw [hzero, BitVec.toNat_ofNat, Nat.zero_mod] at htoNat
    exact h₀ htoNat.symm
  have hlow := BitVec.two_pow_sub_clz_le_toNat_of_ne_zero hw hne
  have hhigh := BitVec.toNat_lt_two_pow_sub_clz (x := BitVec.ofNat w n)
  rw [htoNat] at hlow hhigh
  refine ⟨?_, hlow, hhigh⟩
  by_contra hge
  rw [Nat.sub_eq_zero_of_le (not_lt.mp hge), Nat.pow_zero] at hhigh
  omega

/-- `builtin::trailing_zeros<T>`, for a type `T` of `w ≤ 32` bits. -/
def trailingZeros {w : ℕ} (value : BitVec w) : ℕ := builtinCtz (value.setWidth 32)

/-- `builtin::leading_zeros<T>`, for a type `T` of `w ≤ 32` bits: the value is
shifted to the top of an `unsigned int` first. -/
def leadingZeros {w : ℕ} (value : BitVec w) : ℕ :=
  builtinClz (value.setWidth 32 <<< (32 - w))

section Counting

variable {w : ℕ} {v : BitVec w}

theorem setWidth_ne_zero (hw : w ≤ 32) (hv : v ≠ 0#w) : v.setWidth 32 ≠ 0#32 := by
  intro h
  refine hv (BitVec.eq_of_getLsbD_eq ?_)
  intro i hi
  have hbit := congrArg (fun x => x.getLsbD i) h
  simpa [show i < 32 by omega] using hbit

/-- The bit at the trailing count is set. -/
theorem getLsbD_trailingZeros (hw : w ≤ 32) (hv : v ≠ 0#w) :
    v.getLsbD (trailingZeros v) = true := by
  have h := BitVec.getLsbD_true_ctz_of_ne_zero (setWidth_ne_zero hw hv)
  rw [BitVec.getLsbD_setWidth, Bool.and_eq_true] at h
  exact h.2

/-- The bits below the trailing count are clear. -/
theorem getLsbD_of_lt_trailingZeros {i : ℕ} (hi : i < trailingZeros v) :
    v.getLsbD i = false := by
  have hle : trailingZeros v ≤ 32 := by
    have := BitVec.clz_le (x := (v.setWidth 32).reverse)
    rw [BitVec.le_def] at this
    simpa [trailingZeros, builtinCtz, BitVec.ctz] using this
  have h := BitVec.getLsbD_false_of_lt_ctz (x := v.setWidth 32) hi
  rw [BitVec.getLsbD_setWidth, decide_eq_true (by omega), Bool.true_and] at h
  exact h

theorem trailingZeros_lt (hw : w ≤ 32) (hv : v ≠ 0#w) : trailingZeros v < w := by
  by_contra hge
  have h := getLsbD_trailingZeros hw hv
  rw [BitVec.getLsbD_of_ge _ _ (by omega)] at h
  exact absurd h (by simp)

/-- A bit of a value shifted to the top of an `unsigned int`. -/
theorem getLsbD_toTop (hw : w ≤ 32) {i : ℕ} (hi : i < w) :
    (v.setWidth 32 <<< (32 - w)).getLsbD (32 - w + i) = v.getLsbD i := by
  rw [BitVec.getLsbD_shiftLeft, BitVec.getLsbD_setWidth]
  simp [show 32 - w + i < 32 by omega, show i < 32 by omega]

theorem toTop_ne_zero (hw : w ≤ 32) (hv : v ≠ 0#w) :
    v.setWidth 32 <<< (32 - w) ≠ 0#32 := by
  intro h
  refine hv (BitVec.eq_of_getLsbD_eq ?_)
  intro i hi
  rw [← getLsbD_toTop hw hi, h]
  simp

/-- The bits from `w - leadingZeros v` on are clear. -/
theorem getLsbD_of_leadingZeros (hw : w ≤ 32) {i : ℕ} (hi : w ≤ i + leadingZeros v) :
    v.getLsbD i = false := by
  by_cases hiw : i < w
  · rw [← getLsbD_toTop hw hiw]
    have hlt := BitVec.toNat_lt_two_pow_sub_clz (x := v.setWidth 32 <<< (32 - w))
    refine Nat.testBit_lt_two_pow (lt_of_lt_of_le hlt ?_)
    unfold leadingZeros builtinClz at hi
    exact Nat.pow_le_pow_right (by decide) (by omega)
  · exact BitVec.getLsbD_of_ge _ _ (by omega)

/-- The leading count stops inside the type, and the bit it stops at is set. -/
theorem getLsbD_leadingZeros (hw : w ≤ 32) (hv : v ≠ 0#w) :
    leadingZeros v < w ∧ v.getLsbD (w - 1 - leadingZeros v) = true := by
  have hlt : leadingZeros v < w := by
    by_contra hge
    refine hv (BitVec.zero_iff_eq_false.mpr fun i => getLsbD_of_leadingZeros hw (by omega))
  -- the builtin counts from the top of the shifted value
  have htop := BitVec.getLsbD_true_clz_of_ne_zero (by decide) (toTop_ne_zero hw hv)
  refine ⟨hlt, ?_⟩
  rw [← getLsbD_toTop hw (show w - 1 - leadingZeros v < w by omega)]
  unfold leadingZeros builtinClz at hlt ⊢
  rwa [show 32 - w + (w - 1 - (v.setWidth 32 <<< (32 - w)).clz.toNat)
    = 32 - 1 - (v.setWidth 32 <<< (32 - w)).clz.toNat by omega]

end Counting

/-! ### Powers of two -/

/-- `power::highest_of_2`: the highest power of two in a `size_t`. -/
def highestOf2 (value : ℕ) : ℕ := 1 <<< (31 - leadingZeros (BitVec.ofNat 32 value))

/-- The highest power of two in a nonzero `size_t` is a power of two between half
of the value and the value. -/
theorem highestOf2_spec {n : ℕ} (h₀ : 0 < n) (h : n < 2 ^ 32) :
    ∃ p, highestOf2 n = 2 ^ p ∧ 2 ^ p ≤ n ∧ n < 2 ^ (p + 1) := by
  obtain ⟨hlt, hlow, hhigh⟩ := clz_bounds (by decide) h₀.ne' h
  -- at 32 bits nothing is shifted
  have hclz : leadingZeros (BitVec.ofNat 32 n) = (BitVec.ofNat 32 n).clz.toNat := by
    simp [leadingZeros, builtinClz]
  rw [← hclz] at hlt hlow hhigh
  refine ⟨31 - leadingZeros (BitVec.ofNat 32 n), Nat.one_shiftLeft _, hlow, ?_⟩
  rwa [show 31 - leadingZeros (BitVec.ofNat 32 n) + 1 = 32 - leadingZeros (BitVec.ofNat 32 n)
    by omega]

end BareMetal
