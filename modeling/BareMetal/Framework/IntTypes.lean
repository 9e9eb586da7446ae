import Mathlib.Algebra.Ring.Int.Defs
import Mathlib.Algebra.Ring.Nat
import Mathlib.Order.Basic

/-!
# Integer types of C++

The sized integer types, with `int` the signed one of 32 bits. Values are integers. A
conversion takes its operand modulo the power of two (`wrap`).

An operand of a type narrower than `int` is promoted to `int` before the operation, also
when it is unsigned. So the difference of two unsigned values wraps from 32 bits on, and is
a signed number below (`promote`, `sub`). Subtracting a negative value, converted, from
zero gives its magnitude in the wide types alone (`sub_wrap_wide`, `sub_wrap_narrow`); in
the narrow ones it takes a conversion back (`wrap_sub_wrap`).
-/

namespace Framework

/-- The sizes of the integer types. -/
inductive Width where
  | w8 | w16 | w32 | w64
  deriving DecidableEq

/-- The number of bits. -/
def Width.bits : Width → ℕ
  | .w8 => 8
  | .w16 => 16
  | .w32 => 32
  | .w64 => 64

/-- `sizeof`. -/
def Width.bytes (w : Width) : ℕ := w.bits / 8

/-- An integer type. -/
structure IntType where
  signed : Bool
  width : Width
  deriving DecidableEq

/-- The unsigned type of a width. -/
def Width.unsigned (w : Width) : IntType := ⟨false, w⟩

/-- The signed type of a width. -/
def Width.signed (w : Width) : IntType := ⟨true, w⟩

namespace IntType

/-- `int`. -/
def int : IntType := Width.w32.signed

/-- The values of a type. -/
def InRange (t : IntType) (x : ℤ) : Prop :=
  if t.signed then -2 ^ (t.width.bits - 1) ≤ x ∧ x < 2 ^ (t.width.bits - 1)
  else 0 ≤ x ∧ x < 2 ^ t.width.bits

instance (t : IntType) (x : ℤ) : Decidable (t.InRange x) := by
  unfold InRange
  infer_instance

/-- Conversion to a type. -/
def wrap (t : IntType) (x : ℤ) : ℤ :=
  if t.signed then x.bmod (2 ^ t.width.bits) else x % 2 ^ t.width.bits

/-- The type that operands of a type are promoted to. -/
def promote (t : IntType) : IntType :=
  match t.width with
  | .w8 | .w16 => int
  | .w32 | .w64 => t

/-- The difference of two values of a type. -/
def sub (t : IntType) (a b : ℤ) : ℤ := t.promote.wrap (a - b)

/-- A value of the type converts to itself. -/
theorem wrap_of_inRange {t : IntType} {x : ℤ} (h : t.InRange x) : t.wrap x = x := by
  obtain ⟨signed, w⟩ := t
  cases signed with
  | false => exact Int.emod_eq_of_lt h.1 h.2
  | true =>
    obtain ⟨hle, hlt⟩ : -2 ^ (w.bits - 1) ≤ x ∧ x < 2 ^ (w.bits - 1) := h
    change x.bmod (2 ^ w.bits) = x
    apply Int.bmod_eq_of_le <;> cases w <;> (simp only [Width.bits] at *; omega)

end IntType

namespace Width

variable {w : Width} {v : ℤ}

theorem bounds_of_inRange (hv : w.signed.InRange v) :
    -2 ^ (w.bits - 1) ≤ v ∧ v < 2 ^ (w.bits - 1) := hv

/-- The magnitude of a signed value is a value of the unsigned type. -/
theorem natAbs_lt (hv : w.signed.InRange v) : v.natAbs < 2 ^ w.bits := by
  obtain ⟨hle, hlt⟩ := bounds_of_inRange hv
  cases w <;> (simp only [bits] at *; omega)

/-- A signed value that is not negative is the same in the unsigned type. -/
theorem wrap_of_nonneg (hv : w.signed.InRange v) (h : 0 ≤ v) : w.unsigned.wrap v = v := by
  obtain ⟨-, hlt⟩ := bounds_of_inRange hv
  change v % 2 ^ w.bits = v
  cases w <;> (simp only [bits] at *; omega)

/-- A negative value in the unsigned type. -/
theorem wrap_of_neg (hv : w.signed.InRange v) (h : v < 0) :
    w.unsigned.wrap v = 2 ^ w.bits + v := by
  obtain ⟨hle, -⟩ := bounds_of_inRange hv
  change v % 2 ^ w.bits = 2 ^ w.bits + v
  cases w <;> (simp only [bits] at *; omega)

/-- **The magnitude, in a wide type.** -/
theorem sub_wrap_wide (hwide : w = .w32 ∨ w = .w64) (hv : w.signed.InRange v) (h : v < 0) :
    w.unsigned.sub 0 (w.unsigned.wrap v) = v.natAbs := by
  have hmag : 0 - w.unsigned.wrap v = -v - 2 ^ w.bits := by
    rw [wrap_of_neg hv h]
    omega
  obtain ⟨hle, -⟩ := bounds_of_inRange hv
  rw [IntType.sub, hmag]
  rcases hwide with rfl | rfl
  · change (-v - 2 ^ 32) % 2 ^ 32 = _
    simp only [bits] at hle
    omega
  · change (-v - 2 ^ 64) % 2 ^ 64 = _
    simp only [bits] at hle
    omega

/-- **No magnitude, in a narrow type**: the difference is an `int` below zero. -/
theorem sub_wrap_narrow (hnarrow : w = .w8 ∨ w = .w16) (hv : w.signed.InRange v) (h : v < 0) :
    w.unsigned.sub 0 (w.unsigned.wrap v) = -(2 ^ w.bits + v) := by
  rw [IntType.sub, wrap_of_neg hv h, zero_sub]
  obtain ⟨hle, -⟩ := bounds_of_inRange hv
  rcases hnarrow with rfl | rfl
  · have hint : IntType.int.InRange (-(2 ^ 8 + v)) := by
      change -2 ^ 31 ≤ _ ∧ _ < 2 ^ 31
      simp only [bits] at hle
      omega
    exact IntType.wrap_of_inRange hint
  · have hint : IntType.int.InRange (-(2 ^ 16 + v)) := by
      change -2 ^ 31 ≤ _ ∧ _ < 2 ^ 31
      simp only [bits] at hle
      omega
    exact IntType.wrap_of_inRange hint

/-- Converted back, the difference is the magnitude at every width. -/
theorem wrap_sub_wrap (hv : w.signed.InRange v) (h : v < 0) :
    w.unsigned.wrap (w.unsigned.sub 0 (w.unsigned.wrap v)) = v.natAbs := by
  by_cases hwide : w = .w32 ∨ w = .w64
  · rw [sub_wrap_wide hwide hv h]
    obtain ⟨hle, -⟩ := bounds_of_inRange hv
    change (v.natAbs : ℤ) % 2 ^ w.bits = v.natAbs
    cases w <;> (simp only [bits] at *; omega)
  · have hnarrow : w = .w8 ∨ w = .w16 := by cases w <;> simp_all
    rw [sub_wrap_narrow hnarrow hv h]
    -- the difference and the magnitude differ by the modulus
    obtain ⟨hle, -⟩ := bounds_of_inRange hv
    change (-(2 ^ w.bits + v)) % 2 ^ w.bits = v.natAbs
    cases w <;> (simp only [bits] at *; omega)

end Width
end Framework
