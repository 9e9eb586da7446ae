import BareMetal.Framework.ByteMem
import Mathlib.Data.Fin.Basic

/-!
# Vector registers and the intrinsics the kernel uses

A register of `n` bytes (`n = 16` for `__m128i`, `n = 32` for `__m256i`) is a
function from its byte lanes. The intrinsics follow the documented lane-wise
meaning: `cmpeqEpi32` compares groups of four lanes and writes all ones or zeros
to the group, `cmpeqEpi8` does so lane by lane, `movemaskEpi8` collects the top
bit of every lane, and loads and stores are little-endian.

The kernel uses the comparisons in one way only: the packed result of a
comparison is all ones exactly when the two registers are equal
(`movemask_cmpeqEpi32`, `movemask_cmpeqEpi8`).
-/

namespace BareMetal

open Framework

/-- A vector register of `n` bytes. -/
abbrev Reg (n : ℕ) := Fin n → BitVec 8

/-- `_mm_setzero_si128`, `_mm256_setzero_si256`. -/
def setzero (n : ℕ) : Reg n := fun _ => 0

/-- `_mm_load_si128`, `_mm256_load_si256`. -/
def mmLoad (m : ByteMem) (n a : ℕ) : Reg n := fun i => m (a + i)

/-- `_mm_store_si128`, `_mm256_store_si256`. -/
def mmStore {n : ℕ} (m : ByteMem) (a : ℕ) (v : Reg n) : ByteMem :=
  fun x => if h : a ≤ x ∧ x < a + n then v ⟨x - a, by omega⟩ else m x

/-- `_mm_set1_epi32`, `_mm256_set1_epi32`. -/
def set1Epi32 (n : ℕ) (v : BitVec 32) : Reg n := fun i => v.extractLsb' (8 * (i % 4)) 8

/-- `_mm_cmpeq_epi32`, `_mm256_cmpeq_epi32`. -/
def cmpeqEpi32 {n : ℕ} (a b : Reg n) : Reg n :=
  fun i => if ∀ j : Fin n, j.val / 4 = i.val / 4 → a j = b j then 0xFF else 0x00

/-- `_mm256_cmpeq_epi8`. -/
def cmpeqEpi8 {n : ℕ} (a b : Reg n) : Reg n :=
  fun i => if a i = b i then 0xFF else 0x00

/-- The word of `n` bits with bit `i` equal to `b i`. -/
def packBits (b : ℕ → Bool) : (n : ℕ) → BitVec n
  | 0 => 0#0
  | n + 1 => BitVec.cons (b n) (packBits b n)

/-- `_mm_movemask_epi8`, `_mm256_movemask_epi8`: the top bit of every lane. -/
def movemaskEpi8 {n : ℕ} (a : Reg n) : BitVec n :=
  packBits (fun i => if h : i < n then (a ⟨i, h⟩).msb else false) n

theorem getLsbD_packBits (b : ℕ → Bool) (n i : ℕ) :
    (packBits b n).getLsbD i = (decide (i < n) && b i) := by
  induction n with
  | zero => simp [packBits]
  | succ n ih =>
    unfold packBits
    rw [BitVec.getLsbD_cons, ih]
    -- the new bit is the top one
    by_cases hi : i = n
    · subst hi
      simp
    · rw [if_neg hi]
      congr 1
      exact decide_eq_decide.mpr (by omega)

/-- The packed mask is all ones exactly when every lane has its top bit set. -/
theorem movemaskEpi8_eq_allOnes {n : ℕ} {a : Reg n} :
    movemaskEpi8 a = BitVec.allOnes n ↔ ∀ i, (a i).msb = true := by
  rw [eq_allOnes_iff_getLsbD]
  constructor
  · intro h i
    have hi := h i i.isLt
    rw [movemaskEpi8, getLsbD_packBits] at hi
    simpa using hi
  · intro h i hi
    rw [movemaskEpi8, getLsbD_packBits]
    simp [hi, h ⟨i, hi⟩]

/-- The lane a comparison writes has its top bit set exactly when it is all ones. -/
theorem msb_ite {p : Prop} [Decidable p] :
    (if p then (0xFF : BitVec 8) else 0x00).msb = true ↔ p := by
  by_cases hp : p
  · rw [if_pos hp]
    exact ⟨fun _ => hp, fun _ => by decide⟩
  · rw [if_neg hp]
    exact ⟨fun h => absurd h (by decide), fun h => absurd h hp⟩

/-- **A packed 32-bit comparison is all ones exactly on equal registers.** -/
theorem movemask_cmpeqEpi32 {n : ℕ} (a b : Reg n) :
    movemaskEpi8 (cmpeqEpi32 a b) = BitVec.allOnes n ↔ a = b := by
  rw [movemaskEpi8_eq_allOnes]
  constructor
  · -- each lane is in the group it compares
    intro h
    funext i
    exact msb_ite.mp (h i) i rfl
  · rintro rfl i
    exact msb_ite.mpr fun _ _ => rfl

/-- **A packed 8-bit comparison is all ones exactly on equal registers.** -/
theorem movemask_cmpeqEpi8 {n : ℕ} (a b : Reg n) :
    movemaskEpi8 (cmpeqEpi8 a b) = BitVec.allOnes n ↔ a = b := by
  rw [movemaskEpi8_eq_allOnes]
  constructor
  · intro h
    funext i
    exact msb_ite.mp (h i)
  · rintro rfl i
    exact msb_ite.mpr rfl

/-- The all-ones register the kernel makes by comparing a register with itself. -/
theorem cmpeqEpi32_self {n : ℕ} (a : Reg n) : cmpeqEpi32 a a = fun _ => 0xFF := by
  funext i
  exact if_pos fun _ _ => rfl

/-- Storing a register is an overlay by its lanes. -/
theorem mmStore_eq_overlay (m : ByteMem) (n a : ℕ) {v : Reg n} {f : ℕ → BitVec 8}
    (hv : ∀ i : Fin n, v i = f (a + i)) : mmStore m a v = overlay m a (a + n) f := by
  funext x
  unfold mmStore overlay
  by_cases hx : a ≤ x ∧ x < a + n
  · rw [dif_pos hx, if_pos hx, hv]
    exact congrArg f (by simp only; omega)
  · rw [dif_neg hx, if_neg hx]

/-- A loaded register has the constant lanes `v` exactly when the memory has. -/
theorem mmLoad_eq_const (m : ByteMem) (n a : ℕ) (v : BitVec 8) :
    mmLoad m n a = (fun _ => v) ↔ ∀ x, a ≤ x → x < a + n → m x = v := by
  constructor
  · intro h x hx₁ hx₂
    have := congrFun h ⟨x - a, by omega⟩
    simpa [mmLoad, show a + (x - a) = x by omega] using this
  · intro h
    funext i
    exact h _ (by omega) (by omega)

end BareMetal
