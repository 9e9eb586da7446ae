import BareMetal.Framework.ByteMem
import BareMetal.Tools.Builtin
import Mathlib.Data.Nat.Bitwise
import Mathlib.Order.Bounds.Defs

/-!
# The shift-and-mask run finder

`array_of_shifts<T>` finds runs of `frames` ones inside a word of type `T` by a
fixed number of steps `inv &= inv >> step`. The steps are computed from
`d`, the highest power of two in `frames`: step `N` doubles the length found so
far while it is below `d` and shifts by zero afterwards, and the last step adds
the remaining `frames - d`.

`space_runMap` says that the result is exactly the map of the runs of `frames`
ones, for each of the three types the source instantiates and every `frames`
below their width. So its trailing zeros count up to the first run
(`space_exact`).
-/

namespace BareMetal

open Framework

/-- The byte sizes of `uint8_t`, `uint16_t` and `uint32_t`. -/
def GprWidth (k : ℕ) : Prop := k = 1 ∨ k = 2 ∨ k = 4

/-- `power::of_2`: the exponent of a power of two, `-1` for anything else. -/
def powerOf2 (value : ℕ) : ℤ :=
  if value ≤ 0 ∨ value &&& (value - 1) ≠ 0 then -1
  else (trailingZeros (BitVec.ofNat 32 value) : ℤ)

/-- The number of steps for a type of `w` bits. -/
def arraySize (w : ℕ) : ℕ := (powerOf2 w).toNat

/-- Step `N` for a type of `w` bits. -/
def computeStep (w frames d N : ℕ) : ℕ :=
  if N = arraySize w - 1 then u8 (usizeSub frames d)
  else u8 (usizeSub d 1 &&& (1 <<< N))

/-- The steps of `array_of_shifts<T>{frames}`, for a type `T` of `w` bits. -/
def arrayOfShifts (w frames : ℕ) : List ℕ :=
  (List.range (arraySize w)).map (computeStep w frames (highestOf2 frames))

/-- One step of `space`. -/
def shiftAnd {w : ℕ} (inv : BitVec w) (step : ℕ) : BitVec w := inv &&& (inv >>> step)

/-- `array_of_shifts<T>::space`. -/
def space {w : ℕ} (step : List ℕ) (inv : BitVec w) : BitVec w := step.foldl shiftAnd inv

theorem GprWidth.pos {k : ℕ} (hk : GprWidth k) : 0 < k := by
  rcases hk with rfl | rfl | rfl <;> decide

theorem GprWidth.le {k : ℕ} (hk : GprWidth k) : 8 * k ≤ 32 := by
  rcases hk with rfl | rfl | rfl <;> decide

/-- The number of steps is the exponent of the width. -/
theorem GprWidth.two_pow_arraySize {k : ℕ} (hk : GprWidth k) :
    2 ^ arraySize (8 * k) = 8 * k ∧ 0 < arraySize (8 * k) := by
  rcases hk with rfl | rfl | rfl <;> decide +kernel

/-- Every step but the last doubles the length while it is below `d = 2 ^ q`. -/
theorem computeStep_of_lt {w frames q N : ℕ} (hq : q < 8) (hN : N < arraySize w - 1) :
    computeStep w frames (2 ^ q) N = if N < q then 2 ^ N else 0 := by
  have hpow : (2 : ℕ) ^ q ≤ 2 ^ 7 := Nat.pow_le_pow_right (by decide) (by omega)
  have hpos : 0 < (2 : ℕ) ^ q := Nat.two_pow_pos q
  unfold computeStep
  rw [if_neg (by omega), usizeSub_of_le (by omega) (by omega), Nat.one_shiftLeft,
    Nat.and_two_pow, Nat.testBit_two_pow_sub_one]
  by_cases h : N < q
  · have hN : (2 : ℕ) ^ N ≤ 2 ^ 7 := Nat.pow_le_pow_right (by decide) (by omega)
    rw [if_pos h, decide_eq_true h, Bool.toNat_true, Nat.one_mul]
    exact Nat.mod_eq_of_lt (by omega)
  · rw [if_neg h, decide_eq_false h, Bool.toNat_false, Nat.zero_mul]
    rfl

/-- The first `j` steps find the runs of length `min (2 ^ j) d`. -/
theorem runMap_doubling {w frames q : ℕ} (hq : q < 8) (inv : BitVec w) (j : ℕ)
    (hj : j ≤ arraySize w - 1) :
    RunMap inv (2 ^ min j q)
      (space ((List.range j).map (computeStep w frames (2 ^ q))) inv) := by
  induction j with
  | zero => simpa [space] using RunMap.self inv
  | succ j ih =>
    have hprev := ih (by omega)
    rw [List.range_succ, List.map_append, List.map_singleton, computeStep_of_lt hq (by omega)]
    unfold space at hprev ⊢
    rw [List.foldl_append, List.foldl_cons, List.foldl_nil]
    -- below `d` the step doubles the length, from there on it shifts by zero
    by_cases h : j < q
    · rw [if_pos h, show min (j + 1) q = j + 1 by omega, Nat.pow_succ, Nat.mul_two]
      rw [show min j q = j by omega] at hprev
      exact hprev.shift_and (le_refl _)
    · rw [if_neg h, show min (j + 1) q = min j q by omega]
      exact hprev.shift_and (Nat.zero_le _)

/-- **The run finder is exact.** For a type of `8 * k` bits and `1 ≤ frames < 8 * k`,
bit `i` of `space inv` is set exactly when bits `i, …, i + frames - 1` of `inv`
are. -/
theorem space_runMap {k frames : ℕ} (hk : GprWidth k) (h₀ : 0 < frames) (hf : frames < 8 * k)
    (inv : BitVec (8 * k)) :
    RunMap inv frames (space (arrayOfShifts (8 * k) frames) inv) := by
  have hle := hk.le
  obtain ⟨hpow, hpos⟩ := hk.two_pow_arraySize
  obtain ⟨q, hd, hqle, hqlt⟩ := highestOf2_spec h₀ (by omega)
  -- `frames` is below the width, so its top power has a step of its own
  have hq : q < arraySize (8 * k) :=
    (Nat.pow_lt_pow_iff_right (a := 2) (by decide)).mp (by omega)
  have hsize : arraySize (8 * k) < 8 := by
    refine (Nat.pow_lt_pow_iff_right (a := 2) (by decide)).mp ?_
    omega
  -- the doubling steps reach length `d`, the last step adds the rest
  have hdouble : RunMap inv (2 ^ min (arraySize (8 * k) - 1) q) (space
      ((List.range (arraySize (8 * k) - 1)).map (computeStep (8 * k) frames (2 ^ q))) inv) :=
    runMap_doubling (by omega) inv _ (le_refl _)
  rw [show min (arraySize (8 * k) - 1) q = q by omega] at hdouble
  have hlast : computeStep (8 * k) frames (2 ^ q) (arraySize (8 * k) - 1) = frames - 2 ^ q := by
    unfold computeStep
    rw [if_pos rfl, usizeSub_of_le hqle (by omega)]
    exact Nat.mod_eq_of_lt (by omega)
  -- the rest is shorter than `d`, so the two runs of length `d` overlap
  have hadd := hdouble.shift_and (s := frames - 2 ^ q) (by rw [Nat.pow_succ] at hqlt; omega)
  rw [show 2 ^ q + (frames - 2 ^ q) = frames by omega] at hadd
  unfold arrayOfShifts
  rw [hd, show arraySize (8 * k) = arraySize (8 * k) - 1 + 1 by omega, List.range_succ,
    List.map_append, List.map_singleton]
  unfold space at hadd ⊢
  rw [List.foldl_append, List.foldl_cons, List.foldl_nil, hlast]
  exact hadd

/-- The trailing zeros of a map of runs say where the first run is. -/
theorem isLeast_trailingZeros {w n : ℕ} (hw : w ≤ 32) (hn : 0 < n) {v x : BitVec w}
    (h : RunMap v n x) (hx : x ≠ 0#w) :
    IsLeast {i | i + n ≤ w ∧ ∀ j < n, v.getLsbD (i + j) = true} (trailingZeros x) := by
  have hset : x.getLsbD (trailingZeros x) = true := getLsbD_trailingZeros hw hx
  refine ⟨⟨h.le_width hn hset, (h _).mp hset⟩, ?_⟩
  rintro i ⟨-, hrun⟩
  by_contra hlt
  -- below the count every bit is clear
  have hclear := getLsbD_of_lt_trailingZeros (v := x) (not_le.mp hlt)
  rw [(h i).mpr hrun] at hclear
  exact Bool.noConfusion hclear

/-- **Exactly the runs.** For `uint8_t`, `uint16_t` and `uint32_t`, every number of frames
below the width and every value: the bits of `space` are the positions of the runs of
`frames` ones inside the value, and if there are any, the trailing zeros count up to the
first. -/
theorem space_exact {k frames : ℕ} (hk : GprWidth k) (h₀ : 1 ≤ frames)
    (hf : frames ≤ 8 * k - 1) (inv : BitVec (8 * k)) :
    let x := space (arrayOfShifts (8 * k) frames) inv
    (∀ i, x.getLsbD i = true ↔
        i + frames ≤ 8 * k ∧ ∀ j < frames, inv.getLsbD (i + j) = true) ∧
      (x ≠ 0#(8 * k) →
        IsLeast {i | i + frames ≤ 8 * k ∧ ∀ j < frames, inv.getLsbD (i + j) = true}
          (trailingZeros x)) := by
  intro x
  have hmap : RunMap inv frames x := space_runMap hk h₀ (by have := hk.pos; omega) inv
  refine ⟨fun i => ⟨?_, ?_⟩, isLeast_trailingZeros hk.le h₀ hmap⟩
  · intro hi
    exact ⟨hmap.le_width h₀ hi, (hmap i).mp hi⟩
  · rintro ⟨-, hrun⟩
    exact (hmap i).mpr hrun

/-- Three ones from bit 20 on, in 32 bits. -/
theorem space_exact_three :
    let x := space (arrayOfShifts 32 3) (0x700030#32)
    IsLeast {i | i + 3 ≤ 32 ∧ ∀ j < 3, (0x700030#32).getLsbD (i + j) = true} (trailingZeros x) :=
  (space_exact (k := 4) (.inr (.inr rfl)) (by decide) (by decide) 0x700030#32).2 (by decide +kernel)

end BareMetal
