import BareMetal.Framework.Numeral
import BareMetal.Terminal.Numbers

/-!
# Decimal output

`write_unsigned_no_sync` prints the numeral of its argument and stays in its array
(`writeUnsigned_numeral`). What it prints of a negative argument is not a numeral: each
digit is taken from the character of zero instead of added to it. It gets one from
`operator<<` of the two narrow signed types, whose negated operand is an `int`, and from
no other (`printSigned_dec_iff`).
-/

namespace BareMetal

open Framework

/-- The character of a decimal digit. -/
def decimalDigit (d : ℕ) : BitVec 8 := BitVec.ofNat 8 (0x30 + d)

/-- The digit of a character. -/
def decimalValue? (c : BitVec 8) : Option ℕ :=
  if 0x30 ≤ c.toNat ∧ c.toNat ≤ 0x39 then some (c.toNat - 0x30) else none

theorem decimalValue?_decimalDigit {d : ℕ} (hd : d < 10) :
    decimalValue? (decimalDigit d) = some d := by
  have hall : ∀ d < 10, decimalValue? (decimalDigit d) = some d := by decide
  exact hall d hd

/-- The sign of a number, as text. -/
def signText (v : ℤ) : List (BitVec 8) := if v < 0 then [0x2D] else []

/-- A number after an optional sign, if `read?` knows how to read one. -/
def readSigned? (read? : List (BitVec 8) → Option ℕ) (text : List (BitVec 8)) : Option ℤ :=
  if text.head? = some 0x2D then (read? text.tail).map fun n : ℕ => -(n : ℤ)
  else (read? text).map fun n : ℕ => (n : ℤ)

/-- A sign and a magnitude read back as the number. -/
theorem readSigned?_signText {read? : List (BitVec 8) → Option ℕ} {text : List (BitVec 8)} {v : ℤ}
    (hread : read? text = some v.natAbs) (hsign : text.head? ≠ some 0x2D) :
    readSigned? read? (signText v ++ text) = some v := by
  unfold readSigned? signText
  by_cases hv : v < 0
  · have hminus : ([0x2D] ++ text : List (BitVec 8)).head? = some 0x2D := rfl
    rw [if_pos hv, if_pos hminus, List.singleton_append, List.tail_cons, hread, Option.map_some]
    exact congrArg some (show -(v.natAbs : ℤ) = v by omega)
  · rw [if_neg hv, List.nil_append, if_neg hsign, hread, Option.map_some]
    exact congrArg some (show (v.natAbs : ℤ) = v by omega)

/-- A decimal number. -/
def readDecimal? : List (BitVec 8) → Option ℤ := readSigned? (readNumeral 10 decimalValue?)

/-! ### The digit loop -/

/-- The character that the loop makes of a digit of a number with the sign `σ`. -/
def loopDigit (σ : ℤ) (d : ℕ) : BitVec 8 := BitVec.ofInt 8 (0x30 + σ * d)

theorem loopDigit_one (d : ℕ) : loopDigit 1 d = decimalDigit d := by
  rw [loopDigit, one_mul]
  exact BitVec.ofInt_natCast 8 (0x30 + d)

namespace Output

variable (tier : Tier) {o : Output}

/-- The digits of a number and of its magnitude. -/
theorem tdiv_ten {σ : ℤ} (hσ : σ = 1 ∨ σ = -1) (n : ℕ) :
    (σ * n).tdiv 10 = σ * (n / 10 : ℕ) ∧
      σ * n - (σ * n).tdiv 10 * 10 = σ * (n % 10 : ℕ) := by
  have hquot : (n : ℤ).tdiv 10 = n / 10 := Int.tdiv_eq_ediv_of_nonneg (Int.natCast_nonneg n)
  rcases hσ with rfl | rfl
  · rw [one_mul, hquot]
    omega
  · rw [neg_one_mul, Int.neg_tdiv, hquot]
    omega

/-- One iteration, on a number with a sign. -/
theorem fillDigits_eq {σ : ℤ} (hσ : σ = 1 ∨ σ = -1) (size n : ℕ) (current : ℤ)
    (digits : List (BitVec 8)) (o : Output) :
    fillDigits size (σ * n) current digits o =
      let digits := loopDigit σ (n % 10) :: digits
      let o := o.perform (.store size (current - 1))
      if n / 10 = 0 then (digits, o)
      else fillDigits size (σ * (n / 10 : ℕ)) (current - 1) digits o := by
  obtain ⟨hquot, hrem⟩ := tdiv_ten hσ n
  rw [fillDigits]
  dsimp only
  rw [hrem, hquot, ite_not]
  have hzero : σ * (n / 10 : ℕ) = 0 ↔ n / 10 = 0 := by
    rcases hσ with rfl | rfl <;> omega
  simp only [hzero]
  rfl

/-- **The loop.** From the offset `current`, with room for the digits that are left, it
fills in the numeral and stays in the array. -/
theorem fillDigits_spec {σ : ℤ} (hσ : σ = 1 ∨ σ = -1) {size n current : ℕ}
    (hpos : 0 < current) (hsize : current ≤ size) (hroom : n < 10 ^ current)
    (digits : List (BitVec 8)) (o : Output) :
    ∃ ds, IsNumeral 10 ds n ∧
      (fillDigits size (σ * n) current digits o).1 = ds.map (loopDigit σ) ++ digits ∧
      Prints tier PartialOp.Defined o (fillDigits size (σ * n) current digits o).2 [] := by
  -- on the number, which loses its last digit
  induction n using Nat.strong_induction_on generalizing current digits o with
  | _ n ih =>
    have hstore : (PartialOp.store size (current - 1)).Defined := by
      constructor <;> omega
    rw [fillDigits_eq hσ]
    by_cases hlast : n / 10 = 0
    · have hn : n < 10 := by omega
      refine ⟨[n], isNumeral_of_lt hn, ?_⟩
      simp only [if_pos hlast]
      rw [Nat.mod_eq_of_lt hn]
      exact ⟨rfl, prints_perform hstore⟩
    · -- at least two digits, so there is room for another one
      simp only [if_neg hlast]
      obtain ⟨room, rfl⟩ : ∃ room, current = room + 2 := by
        refine ⟨current - 2, ?_⟩
        by_contra hne
        obtain rfl : current = 1 := by omega
        omega
      have hcurrent : ((room + 2 : ℕ) : ℤ) - 1 = (room + 1 : ℕ) := by omega
      rw [hcurrent] at hstore ⊢
      obtain ⟨ds, hnumeral, hdigits, hprints⟩ := ih (n / 10) (by omega) (Nat.succ_pos room)
        (by omega) (Nat.div_lt_of_lt_mul (by rwa [← pow_succ'])) (loopDigit σ (n % 10) :: digits)
        (o.perform (.store size (room + 1 : ℕ)))
      refine ⟨ds ++ [n % 10], hnumeral.snoc (by decide) (by omega), ?_, ?_⟩
      · rw [hdigits, List.map_append, List.append_assoc]
        rfl
      · exact (prints_perform hstore).trans hprints

/-! ### Unsigned numbers -/

theorem maxDigits_pos (t : IntType) : 0 < maxDigits t := by
  unfold maxDigits
  split_ifs <;> decide

/-- What the template prints, for a number with a sign that has room in the array. -/
theorem writeUnsigned_prints {σ : ℤ} (hσ : σ = 1 ∨ σ = -1) {t : IntType} {n : ℕ}
    (hroom : n < 10 ^ maxDigits t) (o : Output) :
    ∃ ds, IsNumeral 10 ds n ∧ Prints tier PartialOp.Defined o
      (o.writeUnsignedNoSync tier t (σ * n)) (ds.map (loopDigit σ)) := by
  obtain ⟨ds, hnumeral, hdigits, hprints⟩ :=
    fillDigits_spec tier hσ (maxDigits_pos t) le_rfl hroom [] o
  rw [List.append_nil] at hdigits
  refine ⟨ds, hnumeral, ?_⟩
  rw [writeUnsignedNoSync, ← hdigits]
  exact hprints.trans (prints_writeString _)

/-- The values of an unsigned type have room. -/
theorem lt_pow_maxDigits {w : Width} {value : ℕ} (h : value < 2 ^ w.bits) :
    value < 10 ^ maxDigits w.unsigned := by
  refine h.trans_le ?_
  cases w <;> decide

/-- The template prints the numeral of an unsigned value. -/
theorem writeUnsigned_decimal {w : Width} {value : ℕ} (h : value < 2 ^ w.bits) (o : Output) :
    ∃ ds, IsNumeral 10 ds value ∧ Prints tier PartialOp.Defined o
      (o.writeUnsignedNoSync tier w.unsigned value) (ds.map decimalDigit) := by
  obtain ⟨ds, hnumeral, hprints⟩ :=
    writeUnsigned_prints tier (.inl rfl) (lt_pow_maxDigits h) o
  rw [one_mul, funext loopDigit_one] at hprints
  exact ⟨ds, hnumeral, hprints⟩

/-- **Unsigned numbers.** For every value of an unsigned type `write_unsigned_no_sync`
prints its numeral, in decimal digits, and every store is inside the array. Distinct values
give distinct texts. -/
theorem writeUnsigned_numeral (tier : Tier) (w : Width) (o : Output) {value : ℕ}
    (hvalue : value < 2 ^ w.bits) :
    (∃ ds, IsNumeral 10 ds value ∧ Prints tier PartialOp.Defined o
      (o.writeUnsignedNoSync tier w.unsigned value) (ds.map decimalDigit)) ∧
    ∀ value' : ℕ, value' < 2 ^ w.bits →
      emitted o (o.writeUnsignedNoSync tier w.unsigned value')
        = emitted o (o.writeUnsignedNoSync tier w.unsigned value) → value' = value := by
  refine ⟨writeUnsigned_decimal tier hvalue o, ?_⟩
  intro value' hvalue' heq
  obtain ⟨ds, hnumeral, hprints⟩ := writeUnsigned_decimal tier hvalue o
  obtain ⟨ds', hnumeral', hprints'⟩ := writeUnsigned_decimal tier hvalue' o
  -- equal texts read back as equal numbers
  rw [hprints.emitted_eq, hprints'.emitted_eq] at heq
  have hread := hnumeral.readNumeral_map fun _ => decimalValue?_decimalDigit
  rw [← heq, hnumeral'.readNumeral_map fun _ => decimalValue?_decimalDigit] at hread
  exact Option.some.inj hread

/-- The largest of all values. -/
theorem writeUnsigned_numeral_max :
    (∃ ds, IsNumeral 10 ds (2 ^ 64 - 1) ∧ Prints .gpr PartialOp.Defined .init
      (Output.init.writeUnsignedNoSync .gpr Width.w64.unsigned (2 ^ 64 - 1 : ℕ))
      (ds.map decimalDigit)) :=
  (writeUnsigned_numeral .gpr .w64 .init (by decide)).1

/-! ### Signed numbers -/

/-- A value that is no narrow negative one prints as its sign and its magnitude. -/
theorem writeSigned_prints {w : Width} {v : ℤ} (hv : w.signed.InRange v)
    (hcases : w = .w32 ∨ w = .w64 ∨ 0 ≤ v) (o : Output) :
    ∃ ds, IsNumeral 10 ds v.natAbs ∧ Prints tier PartialOp.Defined o
      (o.writeSignedNoSync tier w v) (signText v ++ ds.map decimalDigit) := by
  rw [writeSignedNoSync_eq, writeSignedOf, signText]
  by_cases hneg : v < 0
  -- a byte or a short would be promoted to `int` before the subtraction
  · have hwide : w = .w32 ∨ w = .w64 := by
      rcases hcases with h | h | h
      · exact .inl h
      · exact .inr h
      · omega
    have hpromote : w.unsigned.promote = w.unsigned := by
      rcases hwide with rfl | rfl <;> rfl
    rw [if_pos hneg, if_pos hneg, Width.sub_wrap_wide hwide hv hneg, hpromote]
    obtain ⟨ds, hnumeral, hprints⟩ :=
      writeUnsigned_decimal tier (Width.natAbs_lt hv) (o.putCharNoSync tier 0x2D)
    exact ⟨ds, hnumeral, (prints_putChar _).trans hprints⟩
  · have hnonneg : 0 ≤ v := by omega
    rw [if_neg hneg, if_neg hneg, Width.wrap_of_nonneg hv hnonneg]
    have hdecimal := writeUnsigned_decimal tier (Width.natAbs_lt hv) o
    rw [Int.natAbs_of_nonneg hnonneg] at hdecimal
    exact hdecimal

/-- A narrow negative value prints as a sign and the digits of another number, each taken
from the character of zero. -/
theorem writeSigned_narrow {w : Width} {v : ℤ} (hv : w.signed.InRange v)
    (hnarrow : w = .w8 ∨ w = .w16) (hneg : v < 0) (o : Output) :
    ∃ n ds, 0 < n ∧ IsNumeral 10 ds n ∧ Prints tier PartialOp.Defined o
      (o.writeSignedNoSync tier w v) (0x2D :: ds.map (loopDigit (-1))) := by
  -- the template gets the negative of the value modulo its width, as an `int`
  have hoperand : (0 : ℤ) < 2 ^ w.bits + v ∧ 2 ^ w.bits + v < 2 ^ 16 := by
    obtain ⟨hle, -⟩ := Width.bounds_of_inRange hv
    rcases hnarrow with rfl | rfl <;> (simp only [Width.bits] at *; omega)
  obtain ⟨n, hn⟩ := Int.eq_ofNat_of_zero_le hoperand.1.le
  have hpromote : w.unsigned.promote = .int := by
    rcases hnarrow with rfl | rfl <;> rfl
  have hroom : n < 10 ^ maxDigits .int := by
    rw [show maxDigits .int = 10 from rfl]
    omega
  obtain ⟨ds, hnumeral, hprints⟩ :=
    writeUnsigned_prints tier (.inr rfl) hroom (o.putCharNoSync tier 0x2D)
  refine ⟨n, ds, by omega, hnumeral, ?_⟩
  rw [writeSignedNoSync_eq, writeSignedOf, if_pos hneg, Width.sub_wrap_narrow hnarrow hv hneg,
    hpromote, hn, ← neg_one_mul]
  exact (prints_putChar _).trans hprints

/-- No text of that kind is a numeral after a sign. -/
theorem loopDigit_text_ne {n m : ℕ} {ds ds' : List ℕ} (hn : 0 < n) (h : IsNumeral 10 ds n)
    (h' : IsNumeral 10 ds' m) : ds.map (loopDigit (-1)) ≠ ds'.map decimalDigit := by
  have hdigits : ∀ d < 10, ∀ d' < 10, d ≠ 0 → loopDigit (-1) d ≠ decimalDigit d' := by decide
  intro heq
  obtain ⟨d, rest, rfl⟩ := List.exists_cons_of_ne_nil h.ne_nil
  obtain ⟨d', rest', rfl⟩ := List.exists_cons_of_ne_nil h'.ne_nil
  -- the first digit is not zero, and taken from the character of zero it leaves the digits
  have hd : d ≠ 0 := by
    rintro rfl
    have hzero := h.value_eq
    rw [h.leading rfl, List.reverse_singleton, Nat.ofDigits_singleton] at hzero
    omega
  exact hdigits d (h.lt_base d List.mem_cons_self) d' (h'.lt_base d' List.mem_cons_self) hd
    (List.cons.inj heq).1

/-- **Signed numbers.** In decimal, `operator<<` of a value of a signed type prints the sign
and what `operator<<` of the unsigned type prints of the magnitude, which is a numeral that
reads back as the value, exactly when the type is wide or the value is not negative. -/
theorem printSigned_dec_iff (tier : Tier) {w : Width} {v : ℤ} (hv : w.signed.InRange v)
    {o : Output} (hstate : o.state = .dec) :
    ((∃ ds, IsNumeral 10 ds v.natAbs ∧
          emitted o (o.printSigned tier w v) = signText v ++ ds.map decimalDigit) ∧
        emitted o (o.printSigned tier w v)
          = signText v ++ emitted o (o.printUnsigned tier w v.natAbs) ∧
        readDecimal? (emitted o (o.printSigned tier w v)) = some v) ↔
      w = .w32 ∨ w = .w64 ∨ 0 ≤ v := by
  have hsigned : emitted o (o.printSigned tier w v) = emitted o (o.writeSignedNoSync tier w v) := by
    rw [printSigned, hstate]
    rfl
  have hunsigned : emitted o (o.printUnsigned tier w v.natAbs)
      = emitted o (o.writeUnsignedNoSync tier w.unsigned v.natAbs) := by
    rw [printUnsigned, hstate]
    rfl
  rw [hsigned, hunsigned]
  constructor
  · rintro ⟨⟨ds, hnumeral, hcanonical⟩, -⟩
    by_contra hfails
    have hneg : v < 0 := by
      by_contra hnonneg
      exact hfails (.inr (.inr (not_lt.mp hnonneg)))
    have hnarrow : w = .w8 ∨ w = .w16 := by
      cases w <;> simp_all
    obtain ⟨n, ds', hn, hnumeral', hprints⟩ := writeSigned_narrow tier hv hnarrow hneg o
    rw [hprints.emitted_eq, signText, if_pos hneg] at hcanonical
    exact loopDigit_text_ne hn hnumeral' hnumeral (List.cons.inj hcanonical).2
  · intro hcases
    obtain ⟨ds, hnumeral, hprints⟩ := writeSigned_prints tier hv hcases o
    obtain ⟨ds', hnumeral', hprints'⟩ := writeUnsigned_decimal tier (Width.natAbs_lt hv) o
    obtain rfl := hnumeral.unique hnumeral' (by decide)
    rw [hprints.emitted_eq, hprints'.emitted_eq]
    refine ⟨⟨ds, hnumeral, rfl⟩, rfl, ?_⟩
    refine readSigned?_signText (hnumeral.readNumeral_map fun _ => decimalValue?_decimalDigit) ?_
    -- no digit is a minus
    obtain ⟨d, rest, rfl⟩ := List.exists_cons_of_ne_nil hnumeral.ne_nil
    intro hminus
    have hvalue := decimalValue?_decimalDigit (hnumeral.lt_base d List.mem_cons_self)
    rw [Option.some.inj hminus] at hvalue
    exact absurd hvalue (by simp [decimalValue?])

/-- The least `int32_t` reads back. -/
theorem printSigned_dec_iff_min :
    readDecimal? (emitted .init (Output.init.printSigned .gpr .w32 (-2 ^ 31)))
      = some (-2 ^ 31) :=
  ((printSigned_dec_iff .gpr (by decide) rfl).mpr (.inl rfl)).2.2

/-- **A narrow negative number is not printed.** Of an `int8_t` that is -5 the screen shows
a minus and the characters `.+/`, which are no digits. -/
theorem printSigned_narrow_negative :
    let v : ℤ := -5
    Width.w8.signed.InRange v ∧ Output.init.state = .dec ∧
      emitted .init (Output.init.printSigned .gpr .w8 v) = [0x2D, 0x2E, 0x2B, 0x2F] ∧
      signText v ++ emitted .init (Output.init.printUnsigned .gpr .w8 v.natAbs) = [0x2D, 0x35] ∧
      readDecimal? (emitted .init (Output.init.printSigned .gpr .w8 v)) = none := by
  refine ⟨by decide, rfl, ?_, ?_, ?_⟩
  · decide +kernel
  · decide +kernel
  · decide +kernel

end Output
end BareMetal
