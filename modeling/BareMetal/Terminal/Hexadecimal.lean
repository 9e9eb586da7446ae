import BareMetal.Terminal.Decimal
import BareMetal.Terminal.Printing

/-!
# Hexadecimal output

The four functions for unsigned values start at the nibble that the count of leading zeros
points to, and print the places from there down: the numeral of the value
(`writeHex_prints`). `operator<<` of a signed value converts the negated operand back to
the unsigned type, and so prints the magnitude at every width (`hex_round_trip`).

`write_pointer_no_sync` is `write_hex_32_no_sync` without its case for zero. On the null
pointer it counts the leading zeros of zero (`writePointer_eq_writeHex_iff`).
-/

namespace BareMetal

open Framework

/-- The text that `put_hex_prefix` puts. -/
def hexPrefix : List (BitVec 8) := [0x30, 0x78]

/-- The nibble of a character. -/
def hexValue? (c : BitVec 8) : Option ℕ := hexTable.idxOf? c

theorem hexValue?_hexDigit {d : ℕ} (hd : d < 16) : hexValue? (hexDigit d) = some d := by
  have hall : ∀ d < 16, hexValue? (hexDigit d) = some d := by decide
  exact hall d hd

/-- A hexadecimal number after its prefix. -/
def readHex? (text : List (BitVec 8)) : Option ℕ :=
  if text.take 2 = hexPrefix then readNumeral 16 hexValue? (text.drop 2) else none

theorem readHex?_text {ds : List ℕ} {n : ℕ} (h : IsNumeral 16 ds n) :
    readHex? (hexPrefix ++ ds.map hexDigit) = some n := by
  have hprefix : (hexPrefix ++ ds.map hexDigit).take 2 = hexPrefix := rfl
  rw [readHex?, if_pos hprefix]
  exact h.readNumeral_map fun _ => hexValue?_hexDigit

namespace Output

variable (tier : Tier) {P : PartialOp → Prop} {o : Output}

/-! ### The nibble loop -/

/-- A nibble is a digit of the value. -/
theorem shiftRight_and_nibble (value k : ℕ) :
    (value >>> (4 * k)) &&& 0x0F = value / 16 ^ k % 16 := by
  rw [Nat.shiftRight_eq_div_pow, pow_mul]
  exact Nat.and_two_pow_sub_one_eq_mod _ 4

/-- **The loop**, started at the highest of `k` nibbles. -/
theorem putNibbles_prints {bits : ℕ} (value k : ℕ)
    (hshift : ∀ i < k, P (.shift bits (4 * i : ℕ))) (o : Output) :
    Prints tier P o (putNibbles tier bits value (4 * k - 4) o)
      ((places 16 value k).map hexDigit) := by
  induction k generalizing o with
  | zero =>
    rw [putNibbles, if_neg (by omega)]
    exact prints_nil
  | succ k ih =>
    have hstart : 4 * ((k + 1 : ℕ) : ℤ) - 4 = (4 * k : ℕ) := by omega
    rw [hstart, putNibbles, if_pos (Int.natCast_nonneg _), Int.toNat_natCast,
      shiftRight_and_nibble, places, List.map_cons]
    have hrest := ih (fun i hi => hshift i (by omega))
      ((o.perform (.shift bits (4 * k : ℕ))).putCharNoSync tier (hexDigit (value / 16 ^ k % 16)))
    rw [show 4 * (k : ℤ) - 4 = (4 * k : ℕ) - 4 by omega] at hrest
    exact ((prints_perform (hshift k (by omega))).trans (prints_putChar _)).trans hrest

/-! ### The start -/

/-- A count that is made on a wider type and corrected. -/
theorem corrected_bounds {bits n : ℕ} (hbits : bits ≤ 32) (h₀ : n ≠ 0) (h : n < 2 ^ bits) :
    ∃ z : ℕ, (builtinClz (BitVec.ofNat 32 n) : ℤ) - (32 - bits) = z ∧ z < bits ∧
      2 ^ (bits - 1 - z) ≤ n ∧ n < 2 ^ (bits - z) := by
  obtain ⟨hlt, hlow, hhigh⟩ := clz_bounds (by decide) h₀
    (h.trans_le (Nat.pow_le_pow_right (by decide) hbits))
  -- a small value has at least the leading zeros of the wider type
  have hge : 32 - bits ≤ builtinClz (BitVec.ofNat 32 n) := by
    have hpow := (Nat.pow_lt_pow_iff_right (by decide)).mp (hlow.trans_lt h)
    unfold builtinClz
    omega
  obtain ⟨z, hz⟩ := Nat.exists_eq_add_of_le hge
  unfold builtinClz at hz
  rw [hz] at hlt hlow hhigh
  refine ⟨z, by unfold builtinClz; omega, by omega, ?_, ?_⟩
  · rwa [show 32 - 1 - (32 - bits + z) = bits - 1 - z by omega] at hlow
  · rwa [show 32 - (32 - bits + z) = bits - z by omega] at hhigh

/-- **The count is right in every type.** -/
theorem leadingZerosOf_bounds {w : Width} {value : ℕ} (h₀ : value ≠ 0) (h : value < 2 ^ w.bits) :
    ∃ z : ℕ, leadingZerosOf w value = z ∧ z < w.bits ∧ 2 ^ (w.bits - 1 - z) ≤ value ∧
      value < 2 ^ (w.bits - z) := by
  cases w with
  | w8 => exact corrected_bounds (by decide) h₀ h
  | w16 => exact corrected_bounds (by decide) h₀ h
  | w32 =>
    obtain ⟨z, hz, hbounds⟩ := corrected_bounds (le_refl 32) h₀ h
    exact ⟨z, by rw [← hz]; exact (sub_zero _).symm, hbounds⟩
  | w64 => exact ⟨_, rfl, clz_bounds (by decide) h₀ h⟩

/-- The nibbles from there are the numeral. -/
theorem putSignificantNibbles_prints {w : Width} {value z : ℕ} (hz : z < w.bits)
    (hlow : 2 ^ (w.bits - 1 - z) ≤ value) (hhigh : value < 2 ^ (w.bits - z))
    (hshift : ∀ i, 4 * i < w.bits → P (.shift w.bits (4 * i : ℕ))) (o : Output) :
    ∃ ds, IsNumeral 16 ds value ∧
      Prints tier P o (o.putSignificantNibbles tier w value z) (ds.map hexDigit) := by
  -- `k` nibbles lie below the first one
  obtain ⟨k, hk⟩ : ∃ k, w.bits = 4 * (k + 1) + 4 * (z / 4) := by
    refine ⟨w.bits / 4 - 1 - z / 4, ?_⟩
    cases w <;> (simp only [Width.bits] at *; omega)
  have hstart : ((w.bytes : ℤ) * 2 - 1 - (z : ℤ) >>> (2 : ℕ)) * 4 = 4 * (k + 1 : ℕ) - 4 := by
    rw [Int.shiftRight_eq_div_pow]
    cases w <;> (simp only [Width.bytes, Width.bits] at *; omega)
  have hpow (j : ℕ) : 16 ^ j = 2 ^ (4 * j) := (pow_mul 2 4 j).symm
  refine ⟨places 16 value (k + 1), isNumeral_places ?_ ?_ (by decide), ?_⟩
  · rw [hpow]
    exact le_trans (Nat.pow_le_pow_right (by decide) (by omega)) hlow
  · rw [hpow]
    exact hhigh.trans_le (Nat.pow_le_pow_right (by decide) (by omega))
  · rw [putSignificantNibbles, hstart]
    exact putNibbles_prints tier value (k + 1) (fun i hi => hshift i (by omega)) o

/-! ### Unsigned and signed numbers -/

theorem prints_hexPrefix : Prints tier P o (o.putHexPrefix tier) hexPrefix :=
  (prints_putChar 0x30).trans (prints_putChar 0x78)

/-- **Unsigned numbers.** Each function prints the prefix and the numeral of its value. It
counts the leading zeros of nonzero values alone, and shifts by whole nibbles inside the
type. -/
theorem writeHex_prints {w : Width} {value : ℕ} (h : value < 2 ^ w.bits)
    (hclz : ∀ n, n ≠ 0 → P (.clz n))
    (hshift : ∀ i, 4 * i < w.bits → P (.shift w.bits (4 * i : ℕ))) (o : Output) :
    ∃ ds, IsNumeral 16 ds value ∧
      Prints tier P o (o.writeHexNoSync tier w value) (hexPrefix ++ ds.map hexDigit) := by
  rw [writeHexNoSync_eq, writeHexOf]
  by_cases hzero : value = 0
  · obtain rfl := hzero
    exact ⟨[0], isNumeral_of_lt (by decide), (prints_hexPrefix tier).trans (prints_putChar _)⟩
  · simp only [if_neg hzero]
    obtain ⟨z, hz, hlt, hlow, hhigh⟩ := leadingZerosOf_bounds hzero h
    rw [hz]
    obtain ⟨ds, hnumeral, hprints⟩ := putSignificantNibbles_prints tier hlt hlow hhigh
      hshift ((o.putHexPrefix tier).perform (.clz value))
    refine ⟨ds, hnumeral, (prints_hexPrefix tier).trans ?_⟩
    exact (prints_perform (hclz value hzero)).trans hprints

/-- The operations of such a call are defined. -/
theorem writeHex_defined {w : Width} {value : ℕ} (h : value < 2 ^ w.bits) (o : Output) :
    ∃ ds, IsNumeral 16 ds value ∧ Prints tier PartialOp.Defined o
      (o.writeHexNoSync tier w value) (hexPrefix ++ ds.map hexDigit) :=
  writeHex_prints tier h (fun _ hn => hn) (fun i hi => ⟨Int.natCast_nonneg _, by omega⟩) o

/-- `operator<<` of a signed value prints its sign and its magnitude. -/
theorem printSigned_hex {w : Width} {v : ℤ} (hv : w.signed.InRange v) {o : Output}
    (hstate : o.state = .hex) :
    ∃ ds, IsNumeral 16 ds v.natAbs ∧
      emitted o (o.printSigned tier w v) = signText v ++ (hexPrefix ++ ds.map hexDigit) := by
  rw [printSigned, hstate, signText]
  by_cases hneg : v < 0
  · simp only [if_pos hneg, Width.wrap_sub_wrap hv hneg, Int.toNat_natCast]
    obtain ⟨ds, hnumeral, hprints⟩ :=
      writeHex_defined tier (Width.natAbs_lt hv) (o.putCharNoSync tier 0x2D)
    exact ⟨ds, hnumeral, ((prints_putChar _).trans hprints).emitted_eq⟩
  · have hnonneg : 0 ≤ v := not_lt.mp hneg
    simp only [if_neg hneg, Width.wrap_of_nonneg hv hnonneg]
    obtain ⟨ds, hnumeral, hprints⟩ := writeHex_defined tier (Width.natAbs_lt hv) o
    refine ⟨ds, hnumeral, ?_⟩
    rw [show v.toNat = v.natAbs by omega]
    exact hprints.emitted_eq

/-- **Hexadecimal output reads back.** For every value of an unsigned type its function
prints the prefix and the numeral of the value, with no shift and no count that is not
defined. In hexadecimal, `operator<<` of every value of a signed type prints its sign and
the text of the magnitude. Both texts read back as the value. -/
theorem hex_round_trip (tier : Tier) (w : Width) (o : Output) :
    (∀ value : ℕ, value < 2 ^ w.bits →
      (∃ ds, IsNumeral 16 ds value ∧ Prints tier PartialOp.Defined o
        (o.writeHexNoSync tier w value) (hexPrefix ++ ds.map hexDigit)) ∧
      readHex? (emitted o (o.writeHexNoSync tier w value)) = some value) ∧
    (o.state = .hex → ∀ v : ℤ, w.signed.InRange v →
      emitted o (o.printSigned tier w v)
        = signText v ++ emitted o (o.writeHexNoSync tier w v.natAbs) ∧
      readSigned? readHex? (emitted o (o.printSigned tier w v)) = some v) := by
  constructor
  · intro value hvalue
    obtain ⟨ds, hnumeral, hprints⟩ := writeHex_defined tier hvalue o
    refine ⟨⟨ds, hnumeral, hprints⟩, ?_⟩
    rw [hprints.emitted_eq]
    exact readHex?_text hnumeral
  · intro hstate v hv
    obtain ⟨ds, hnumeral, hprints⟩ := writeHex_defined tier (Width.natAbs_lt hv) o
    obtain ⟨ds', hnumeral', hsigned⟩ := printSigned_hex tier hv hstate
    -- the digits of the absolute value are the same in both texts
    obtain rfl := hnumeral.unique hnumeral' (by decide)
    rw [hsigned, hprints.emitted_eq]
    exact ⟨rfl, readSigned?_signText (readHex?_text hnumeral) (by simp [hexPrefix])⟩

/-- The least `int8_t` reads back. -/
theorem hex_round_trip_min :
    readSigned? readHex? (emitted Output.init.hex (Output.init.hex.printSigned .gpr .w8 (-128)))
      = some (-128) :=
  ((hex_round_trip .gpr .w8 Output.init.hex).2 rfl (-128) (by decide)).2

/-! ### Pointers -/

/-- A pointer that is not null prints as `write_hex_32_no_sync` prints its value. -/
theorem writePointer_eq (clzZero : ℤ) {p : ℕ} (hp : p ≠ 0) :
    o.writePointerNoSync tier clzZero p = o.writeHex32NoSync tier p := by
  unfold writePointerNoSync writeHex32NoSync writeHexOf
  simp only [if_neg hp]

/-- The null pointer leaves a count on zero in the record. -/
theorem writePointer_null_ops (clzZero : ℤ) (o : Output) :
    ∃ rest, (o.writePointerNoSync tier clzZero 0).ops = rest ++ .clz 0 :: o.ops := by
  unfold writePointerNoSync putSignificantNibbles
  have hprefix : ((o.putHexPrefix tier).perform (.clz 0)).ops = .clz 0 :: o.ops := by
    simp [putHexPrefix]
  rw [← hprefix]
  obtain ⟨_, hprints⟩ : Shows tier ((o.putHexPrefix tier).perform (.clz 0)) _ :=
    shows_putNibbles Width.w32.bits 0 _ _
  obtain ⟨rest, hrest, -⟩ := hprints.ops
  exact ⟨rest, hrest⟩

/-- **When a pointer prints like a number.** Whatever the compiler's count gives on zero:
`write_pointer_no_sync` prints what `write_hex_32_no_sync` prints, counts the leading zeros
of nonzero values alone and shifts by 0 to 28, exactly for the pointers that are not null. -/
theorem writePointer_eq_writeHex_iff (tier : Tier) (clzZero : ℤ) (o : Output) {p : ℕ}
    (hp : p < 2 ^ 32) :
    (emitted o (o.writePointerNoSync tier clzZero p) = emitted o (o.writeHex32NoSync tier p) ∧
      ∃ ops, (o.writePointerNoSync tier clzZero p).ops = ops ++ o.ops ∧
        ∀ op ∈ ops, op.Defined ∧
          ∀ bits count, op = .shift bits count → 0 ≤ count ∧ count ≤ 28) ↔
      p ≠ 0 := by
  constructor
  · rintro ⟨-, ops, hops, hdefined⟩ rfl
    obtain ⟨rest, hrest⟩ := writePointer_null_ops tier clzZero o
    -- the record of the null pointer holds a count on zero
    rw [hops, List.append_cons] at hrest
    obtain rfl := List.append_cancel_right hrest
    exact (hdefined (.clz 0) (by simp)).1 rfl
  · intro hne
    rw [writePointer_eq tier clzZero hne]
    refine ⟨rfl, ?_⟩
    -- a whole nibble inside 32 bits is at 28 at most
    have hshift (i : ℕ) (hi : 4 * i < 32) : (PartialOp.shift 32 (4 * i : ℕ)).Defined ∧
        ∀ bits count, PartialOp.shift 32 (4 * i : ℕ) = .shift bits count →
          0 ≤ count ∧ count ≤ 28 := by
      refine ⟨⟨Int.natCast_nonneg _, by omega⟩, ?_⟩
      rintro bits count ⟨⟩
      omega
    have hclz (n : ℕ) (hn : n ≠ 0) : (PartialOp.clz n).Defined ∧
        ∀ bits count, PartialOp.clz n = .shift bits count → 0 ≤ count ∧ count ≤ 28 :=
      ⟨hn, by rintro _ _ ⟨⟩⟩
    obtain ⟨ds, -, hprints⟩ := writeHex_prints tier (w := .w32)
      (P := fun op => op.Defined ∧ ∀ bits count, op = .shift bits count → 0 ≤ count ∧ count ≤ 28)
      hp hclz hshift o
    exact hprints.ops

/-- The pointer to the text buffer. -/
theorem writePointer_eq_writeHex_iff_buffer :
    emitted .init (Output.init.writePointerNoSync .gpr 32 0xB8000)
      = emitted .init (Output.init.writeHex32NoSync .gpr 0xB8000) :=
  ((writePointer_eq_writeHex_iff .gpr 32 .init (by decide)).mpr (by decide)).1

/-- **The null pointer.** Its leading zeros are counted, which is not defined. If the count
gives 32, the pointer prints as the prefix alone, and zero as a number with a digit. -/
theorem writePointer_null :
    PartialOp.clz 0 ∈ (Output.init.writePointerNoSync .gpr 32 0).ops ∧
      ¬ (PartialOp.clz 0).Defined ∧
      emitted .init (Output.init.writePointerNoSync .gpr 32 0) = hexPrefix ∧
      emitted .init (Output.init.writeHex32NoSync .gpr 0) = hexPrefix ++ [0x30] := by
  refine ⟨by decide +kernel, fun h => h rfl, by decide +kernel, by decide +kernel⟩

end Output
end BareMetal
