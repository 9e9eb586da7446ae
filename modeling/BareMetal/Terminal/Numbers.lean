import BareMetal.Framework.IntTypes
import BareMetal.Terminal.Output

/-!
# Printing numbers

An `output` prints integers in decimal or in hexadecimal, as its state says, and pointers
in hexadecimal. The decimal digits of an integer come out from the last to the first and go
through an array on the stack; the template is instantiated at the type of its argument,
after promotion. The hexadecimal digits are printed from the first to the last, and
the leading zeros of the value say where to start.

Some operations of these functions are not defined on every operand: a store into the
array, a count of leading zeros, a shift. An `Output` records them with their operands, and
the characters it was given.
-/

namespace BareMetal

open Framework

/-- `integer_base`. -/
inductive IntegerBase where
  | dec
  | hex
  deriving DecidableEq

/-- An operation that is defined on some operands alone. -/
inductive PartialOp where
  /-- A store into an array on the stack, of a size and at an offset. -/
  | store (size : ℕ) (offset : ℤ)
  /-- A count of the leading zeros of a value. -/
  | clz (value : ℕ)
  /-- A shift of a value of a number of bits. -/
  | shift (bits : ℕ) (count : ℤ)
  deriving DecidableEq

/-- The operation is defined. -/
def PartialOp.Defined : PartialOp → Prop
  | .store size offset => 0 ≤ offset ∧ offset < size
  | .clz value => value ≠ 0
  | .shift bits count => 0 ≤ count ∧ count < bits

/-- The fields of an `output` with its buffer, the characters that were put, oldest first,
and the partial operations that were made, newest first. -/
structure Output where
  buffer : Vga
  state : IntegerBase
  boolAlphaEnabled : Bool
  text : List (BitVec 8)
  ops : List PartialOp

/-- An output object that has printed nothing. -/
def Output.init : Output where
  buffer := .init (fun _ => 0) ⟨0, fun _ => 0⟩
  state := .dec
  boolAlphaEnabled := false
  text := []
  ops := []

/-! ### Characters -/

/-- The table of `hex_digit`. -/
def hexTable : List (BitVec 8) :=
  [0x30, 0x31, 0x32, 0x33, 0x34, 0x35, 0x36, 0x37, 0x38, 0x39, 0x41, 0x42, 0x43, 0x44, 0x45, 0x46]

/-- `hex_digit`. -/
def hexDigit (nibble : ℕ) : BitVec 8 := hexTable.getD nibble 0

/-- `max_digits`. -/
def maxDigits (t : IntType) : ℕ :=
  if t.width.bytes = 1 then 3
  else if t.width.bytes = 2 then 5
  else if t.width.bytes = 4 then 10
  else 20

namespace Output

variable (tier : Tier) (o : Output)

/-- `put_char_no_sync`. -/
def putCharNoSync (c : BitVec 8) : Output :=
  { o with buffer := o.buffer.putCharNoSync tier c, text := o.text ++ [c] }

@[simp] theorem putCharNoSync_ops (c : BitVec 8) : (o.putCharNoSync tier c).ops = o.ops := rfl

/-- `write_string_no_sync`, of the characters before the NUL. -/
def writeStringNoSync (text : List (BitVec 8)) : Output :=
  text.foldl (fun o c => o.putCharNoSync tier c) o

/-- A partial operation, as far as the record goes. -/
def perform (op : PartialOp) : Output := { o with ops := op :: o.ops }

@[simp] theorem perform_ops (op : PartialOp) : (o.perform op).ops = op :: o.ops := rfl

/-- `sync_cursor`. -/
def syncCursor : Output := { o with buffer := o.buffer.syncCursor }

/-- `put_hex_prefix`. -/
def putHexPrefix : Output := (o.putCharNoSync tier 0x30).putCharNoSync tier 0x78

/-! ### Decimal -/

/-- The loop of `write_unsigned_no_sync` that fills the array of `size` characters from its
end; `digits` is the part from the offset `current` on. -/
def fillDigits (size : ℕ) (value current : ℤ) (digits : List (BitVec 8)) (o : Output) :
    List (BitVec 8) × Output :=
  let current := current - 1
  let o := o.perform (.store size current)
  let digits := BitVec.ofInt 8 (0x30 + (value - value.tdiv 10 * 10)) :: digits
  let value' := value.tdiv 10
  if value' ≠ 0 then fillDigits size value' current digits o else (digits, o)
termination_by value.natAbs
decreasing_by
  rename_i hvalue
  rw [Int.natAbs_tdiv]
  refine Nat.div_lt_self (Int.natAbs_pos.mpr ?_) (by decide)
  rintro rfl
  exact hvalue rfl

/-- `write_unsigned_no_sync<T>`. -/
def writeUnsignedNoSync (t : IntType) (value : ℤ) : Output :=
  let r := fillDigits (maxDigits t) value (maxDigits t) [] o
  -- each of the filled characters is put
  r.2.writeStringNoSync tier r.1

/-- The functions `write_signed_8_no_sync` to `write_signed_64_no_sync`. -/
def writeSignedOf (w : Width) (value : ℤ) : Output :=
  if value < 0 then
    -- the difference has the promoted type, and so has the argument of the template
    (o.putCharNoSync tier 0x2D).writeUnsignedNoSync tier w.unsigned.promote
      (w.unsigned.sub 0 (w.unsigned.wrap value))
  else o.writeUnsignedNoSync tier w.unsigned (w.unsigned.wrap value)

/-- `write_signed_8_no_sync`. -/
def writeSigned8NoSync : ℤ → Output := o.writeSignedOf tier .w8

/-- `write_signed_16_no_sync`. -/
def writeSigned16NoSync : ℤ → Output := o.writeSignedOf tier .w16

/-- `write_signed_32_no_sync`. -/
def writeSigned32NoSync : ℤ → Output := o.writeSignedOf tier .w32

/-- `write_signed_64_no_sync`. -/
def writeSigned64NoSync : ℤ → Output := o.writeSignedOf tier .w64

/-- The function for a width. -/
def writeSignedNoSync : Width → ℤ → Output
  | .w8 => o.writeSigned8NoSync tier
  | .w16 => o.writeSigned16NoSync tier
  | .w32 => o.writeSigned32NoSync tier
  | .w64 => o.writeSigned64NoSync tier

theorem writeSignedNoSync_eq (w : Width) (value : ℤ) :
    o.writeSignedNoSync tier w value = o.writeSignedOf tier w value := by
  cases w <;> rfl

/-! ### Hexadecimal -/

/-- The loop that prints the nibbles of a value of `bits` bits, from the one at `shift`. -/
def putNibbles (bits value : ℕ) (shift : ℤ) (o : Output) : Output :=
  if 0 ≤ shift then
    putNibbles bits value (shift - 4)
      ((o.perform (.shift bits shift)).putCharNoSync tier
        (hexDigit ((value >>> shift.toNat) &&& 0x0F)))
  else o
termination_by (shift + 4).toNat

/-- The nibbles of a value from the highest that is not zero, given the count of its leading
zeros. -/
def putSignificantNibbles (w : Width) (value : ℕ) (clz : ℤ) : Output :=
  let totalNibblesM1 : ℤ := w.bytes * 2 - 1
  let leadingZeros := clz >>> (2 : ℕ)
  let startingShift := (totalNibblesM1 - leadingZeros) * 4
  putNibbles tier w.bits value startingShift o

/-- The functions `write_hex_8_no_sync` to `write_hex_64_no_sync`; `clz` counts the leading
zeros in the type. -/
def writeHexOf (w : Width) (clz : ℕ → ℤ) (value : ℕ) : Output :=
  let o := o.putHexPrefix tier
  if value = 0 then o.putCharNoSync tier 0x30
  else (o.perform (.clz value)).putSignificantNibbles tier w value (clz value)

/-- `write_hex_8_no_sync`. -/
def writeHex8NoSync : ℕ → Output :=
  o.writeHexOf tier .w8 fun value => (builtinClz (BitVec.ofNat 32 value) : ℤ) - 24

/-- `write_hex_16_no_sync`. -/
def writeHex16NoSync : ℕ → Output :=
  o.writeHexOf tier .w16 fun value => (builtinClz (BitVec.ofNat 32 value) : ℤ) - 16

/-- `write_hex_32_no_sync`. -/
def writeHex32NoSync : ℕ → Output :=
  o.writeHexOf tier .w32 fun value => builtinClz (BitVec.ofNat 32 value)

/-- `write_hex_64_no_sync`. -/
def writeHex64NoSync : ℕ → Output :=
  o.writeHexOf tier .w64 fun value => builtinClzll (BitVec.ofNat 64 value)

/-- The function for a width. -/
def writeHexNoSync : Width → ℕ → Output
  | .w8 => o.writeHex8NoSync tier
  | .w16 => o.writeHex16NoSync tier
  | .w32 => o.writeHex32NoSync tier
  | .w64 => o.writeHex64NoSync tier

/-- The count of leading zeros that the function for a width makes. -/
def leadingZerosOf : Width → ℕ → ℤ
  | .w8, value => (builtinClz (BitVec.ofNat 32 value) : ℤ) - 24
  | .w16, value => (builtinClz (BitVec.ofNat 32 value) : ℤ) - 16
  | .w32, value => builtinClz (BitVec.ofNat 32 value)
  | .w64, value => builtinClzll (BitVec.ofNat 64 value)

theorem writeHexNoSync_eq (w : Width) (value : ℕ) :
    o.writeHexNoSync tier w value = o.writeHexOf tier w (leadingZerosOf w) value := by
  cases w <;> rfl

/-- `write_pointer_no_sync`. It has no case for zero; `clzZero` is what the compiler's count
of leading zeros happens to give there. -/
def writePointerNoSync (clzZero : ℤ) (value : ℕ) : Output :=
  let o := o.putHexPrefix tier
  let clz := if value = 0 then clzZero else builtinClz (BitVec.ofNat 32 value)
  (o.perform (.clz value)).putSignificantNibbles tier .w32 value clz

/-! ### Operators -/

/-- `operator<<` of `uint8_t` to `uint64_t`. -/
def printUnsigned (w : Width) (value : ℕ) : Output :=
  match o.state with
  | .dec => (o.writeUnsignedNoSync tier w.unsigned value).syncCursor
  | .hex => (o.writeHexNoSync tier w value).syncCursor

/-- `operator<<` of `int8_t` to `int64_t`. -/
def printSigned (w : Width) (value : ℤ) : Output :=
  match o.state with
  | .dec => (o.writeSignedNoSync tier w value).syncCursor
  | .hex =>
    if value < 0 then
      -- the parameter converts the difference back
      ((o.putCharNoSync tier 0x2D).writeHexNoSync tier w (w.unsigned.wrap
        (w.unsigned.sub 0 (w.unsigned.wrap value))).toNat).syncCursor
    else (o.writeHexNoSync tier w (w.unsigned.wrap value).toNat).syncCursor

/-- `operator<<(const bool)`. -/
def printBool (value : Bool) : Output :=
  if o.boolAlphaEnabled then
    (o.writeStringNoSync tier
      (if value then [0x74, 0x72, 0x75, 0x65] else [0x66, 0x61, 0x6C, 0x73, 0x65])).syncCursor
  else (o.putCharNoSync tier (if value then 0x31 else 0x30)).syncCursor

/-- `operator<<(const void*)`. -/
def printPointer (clzZero : ℤ) (value : ℕ) : Output :=
  (o.writePointerNoSync tier clzZero value).syncCursor

/-! ### Manipulators -/

/-- `dec`. -/
def dec : Output := { o with state := .dec }

/-- `hex`. -/
def hex : Output := { o with state := .hex }

/-- `bool_alpha`. -/
def boolAlpha : Output := { o with boolAlphaEnabled := true }

/-- `bool_no_alpha`. -/
def boolNoAlpha : Output := { o with boolAlphaEnabled := false }

/-! ### What a call prints -/

/-- `o'` is `o` after printing a text, with partial operations that satisfy `P`. -/
structure Prints (P : PartialOp → Prop) (o o' : Output) (text : List (BitVec 8)) : Prop where
  text_eq : o'.text = o.text ++ text
  buffer_eq : o'.buffer = o.buffer.writeStringNoSync tier text
  state_eq : o'.state = o.state
  boolAlphaEnabled_eq : o'.boolAlphaEnabled = o.boolAlphaEnabled
  ops : ∃ ops, o'.ops = ops ++ o.ops ∧ ∀ op ∈ ops, P op

section Prints

variable {tier} {P : PartialOp → Prop} {o o₁ o' : Output} {text text₁ : List (BitVec 8)}

theorem prints_nil : Prints tier P o o [] where
  text_eq := (List.append_nil _).symm
  buffer_eq := rfl
  state_eq := rfl
  boolAlphaEnabled_eq := rfl
  ops := ⟨[], rfl, fun _ h => absurd h List.not_mem_nil⟩

theorem prints_putChar (c : BitVec 8) : Prints tier P o (o.putCharNoSync tier c) [c] where
  text_eq := rfl
  buffer_eq := rfl
  state_eq := rfl
  boolAlphaEnabled_eq := rfl
  ops := ⟨[], rfl, fun _ h => absurd h List.not_mem_nil⟩

theorem prints_perform {op : PartialOp} (hop : P op) : Prints tier P o (o.perform op) [] where
  text_eq := (List.append_nil _).symm
  buffer_eq := rfl
  state_eq := rfl
  boolAlphaEnabled_eq := rfl
  ops := ⟨[op], rfl, fun _ h => List.mem_singleton.mp h ▸ hop⟩

/-- One text after the other. -/
theorem Prints.trans (h₁ : Prints tier P o o₁ text₁) (h : Prints tier P o₁ o' text) :
    Prints tier P o o' (text₁ ++ text) where
  text_eq := by rw [h.text_eq, h₁.text_eq, List.append_assoc]
  buffer_eq := by
    rw [h.buffer_eq, h₁.buffer_eq]
    exact (List.foldl_append ..).symm
  state_eq := h.state_eq.trans h₁.state_eq
  boolAlphaEnabled_eq := h.boolAlphaEnabled_eq.trans h₁.boolAlphaEnabled_eq
  ops := by
    obtain ⟨ops₁, heq₁, hops₁⟩ := h₁.ops
    obtain ⟨ops, heq, hops⟩ := h.ops
    refine ⟨ops ++ ops₁, by rw [heq, heq₁, List.append_assoc], ?_⟩
    intro op hop
    rcases List.mem_append.mp hop with hop | hop
    · exact hops op hop
    · exact hops₁ op hop

/-- The characters of a list, one after the other. -/
theorem prints_writeString (text : List (BitVec 8)) :
    Prints tier P o (o.writeStringNoSync tier text) text := by
  induction text generalizing o with
  | nil => exact prints_nil
  | cons c text ih => exact (prints_putChar c).trans ih

end Prints

/-- The characters that a call put. -/
def emitted (o o' : Output) : List (BitVec 8) := o'.text.drop o.text.length

theorem Prints.emitted_eq {tier : Tier} {P : PartialOp → Prop} {o o' : Output}
    {text : List (BitVec 8)} (h : Prints tier P o o' text) : emitted o o' = text := by
  rw [emitted, h.text_eq, List.drop_left]

end Output
end BareMetal
