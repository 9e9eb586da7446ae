import BareMetal.Pmm.Manager

/-!
# Frame ranges as bits

`bitUsed p f` is the bitmap's bit of frame `f`. The functions of the memory manager
address it through byte indices, bit positions and partial-byte masks; here each of
them is described by the bits it reads or writes, so that nothing later mentions a
mask. A range inside one byte takes one mask; a longer one takes a mask for the
first byte, a bulk fill for the bytes between, and a mask for the last byte.
-/

namespace BareMetal

open Framework

/-- The bit of frame `f`. -/
def bitUsed (p : Pmm) (f : ℕ) : Bool := bitAt p.mem (8 * p.bitmap.start + f)

/-! ### Indices and masks -/

theorem bitmapIndex_eq (f : ℕ) : bitmapIndex f = f / 8 := by
  unfold bitmapIndex bitsPerByteShift
  rw [Nat.shiftRight_eq_div_pow]

theorem bitPosition_eq (f : ℕ) : bitPosition f = f % 8 := by
  unfold bitPosition bitMask
  exact Nat.and_two_pow_sub_one_eq_mod f 3

theorem frameIndex_eq (address : ℕ) : frameIndex address = address / 4096 := by
  unfold frameIndex frameShift
  rw [Nat.shiftRight_eq_div_pow]

theorem frameAddress_eq {f : ℕ} (h : f < 2 ^ 20) : frameAddress f = 4096 * f := by
  unfold frameAddress frameShift
  rw [Nat.shiftLeft_eq, usize_of_lt (by omega)]
  omega

theorem getLsbD_maskFrom (shift : ℕ) {t : ℕ} (ht : t < 8) :
    (maskFrom shift).getLsbD t = decide (shift ≤ t) := by
  unfold maskFrom
  rw [show 0xFF#8 = BitVec.allOnes 8 from rfl, BitVec.getLsbD_shiftLeft,
    BitVec.getLsbD_allOnes, decide_eq_true ht, decide_eq_true (show t - shift < 8 by omega),
    Bool.true_and, Bool.and_true, ← decide_not]
  exact decide_eq_decide.mpr (by omega)

theorem getLsbD_maskTo (shift : ℕ) {t : ℕ} : (maskTo shift).getLsbD t = decide (t + shift < 8) := by
  unfold maskTo
  rw [show 0xFF#8 = BitVec.allOnes 8 from rfl, BitVec.getLsbD_ushiftRight,
    BitVec.getLsbD_allOnes, Nat.add_comm]

theorem getLsbD_bit {i t : ℕ} (ht : t < 8) :
    (1#8 <<< i).getLsbD t = decide (i ≤ t ∧ t < i + 1) := by
  rw [BitVec.getLsbD_shiftLeft, BitVec.getLsbD_one, decide_eq_true ht, Bool.true_and,
    decide_eq_true (show (0 : ℕ) < 8 by decide), Bool.true_and, ← decide_not, ← Bool.decide_and]
  exact decide_eq_decide.mpr (by omega)

/-- A byte contains a mask exactly when every bit of the mask is set in it. -/
theorem and_eq_mask_iff {v mask : BitVec 8} :
    v &&& mask = mask ↔ ∀ t < 8, mask.getLsbD t = true → v.getLsbD t = true := by
  constructor
  · intro h t _ hbit
    rw [← h, BitVec.getLsbD_and, Bool.and_eq_true] at hbit
    exact hbit.1
  · intro h
    apply BitVec.eq_of_getLsbD_eq
    intro t ht
    rw [BitVec.getLsbD_and]
    -- where the mask is clear both sides are
    cases hm : mask.getLsbD t with
    | false => exact Bool.and_false _
    | true => rw [h t ht hm, Bool.true_and]

/-- The frames of the byte at index `byte`. -/
theorem bitUsed_byte (p : Pmm) (byte : ℕ) {t : ℕ} (ht : t < 8) :
    bitUsed p (8 * byte + t) = (p.mem (p.bitmap.start + byte)).getLsbD t := by
  unfold bitUsed
  rw [← Nat.add_assoc, ← Nat.mul_add]
  exact bitAt_byte p.mem _ ht

theorem byte_eq_ff_iff (p : Pmm) (byte : ℕ) :
    p.mem (p.bitmap.start + byte) = 0xFF ↔
      ∀ f, 8 * byte ≤ f → f < 8 * byte + 8 → bitUsed p f = true := by
  rw [show (0xFF : BitVec 8) = BitVec.allOnes 8 from rfl, eq_allOnes_iff_getLsbD]
  constructor
  · intro h f h₁ h₂
    obtain ⟨t, rfl⟩ := Nat.exists_eq_add_of_le h₁
    rw [bitUsed_byte p byte (by omega)]
    exact h t (by omega)
  · intro h t ht
    rw [← bitUsed_byte p byte ht]
    exact h _ (by omega) (by omega)

/-! ### Single frames -/

theorem isFrameUsed_eq (p : Pmm) (f : ℕ) :
    isFrameUsed p.mem (p.bitmap.start + bitmapIndex f) (bitPosition f) = bitUsed p f := by
  rw [bitmapIndex_eq, bitPosition_eq]
  have hpos : f % 8 < 8 := Nat.mod_lt _ (by decide)
  have hbit := bitUsed_byte p (f / 8) hpos
  rw [Nat.div_add_mod] at hbit
  rw [hbit]
  unfold isFrameUsed
  rw [Bool.eq_iff_iff, decide_eq_true_iff, ne_eq, show (0 : BitVec 8) = 0#8 from rfl,
    BitVec.zero_iff_eq_false]
  constructor
  · intro h
    by_contra hclear
    -- the masked byte has no other bit that could be set
    apply h
    intro t
    rw [BitVec.getLsbD_and]
    by_cases ht : t < 8
    · rw [getLsbD_bit ht]
      by_cases heq : t = f % 8
      · rw [heq, Bool.eq_false_of_not_eq_true hclear, Bool.false_and]
      · rw [decide_eq_false (by omega), Bool.and_false]
    · rw [BitVec.getLsbD_of_ge _ _ (by omega), Bool.false_and]
  · intro h hall
    have hzero := hall (f % 8)
    rw [BitVec.getLsbD_and, h, getLsbD_bit hpos, decide_eq_true (by omega)] at hzero
    exact absurd hzero (by decide)

/-- Setting the bit of a frame. -/
theorem setFrameUsed_bits (p : Pmm) (a : ℕ) {i : ℕ} (hi : i < 8) :
    BitsWritten p.mem (setFrameUsed p a (p.mem a) i).2.mem (8 * a + i) (8 * a + i + 1) true :=
  bitsWritten_or p.mem a _ hi fun _ ht => getLsbD_bit ht

/-- Clearing the bit of a frame. -/
theorem setFrameFree_bits (p : Pmm) (a : ℕ) {i : ℕ} (hi : i < 8) :
    BitsWritten p.mem (setFrameFree p a i).mem (8 * a + i) (8 * a + i + 1) false := by
  refine bitsWritten_and p.mem a _ hi ?_
  intro t ht
  rw [BitVec.getLsbD_not, getLsbD_bit ht, decide_eq_true ht, Bool.true_and]

/-! ### Searching a free byte -/

/-- What a search of the bytes `[begin, stop)` for a clear bit returns: a null pointer
when there is none, or else the first byte that has one. -/
def FreeByteFound (m : ByteMem) (begin stop a : ℕ) : Prop :=
  (a = nullptr ∧ ∀ x, begin ≤ x → x < stop → m x = 0xFF) ∨
    (begin ≤ a ∧ a < stop ∧ m a ≠ 0xFF ∧ ∀ x, begin ≤ x → x < a → m x = 0xFF)

/-- A full first byte may be skipped. -/
theorem FreeByteFound.skip {m : ByteMem} {begin stop a : ℕ}
    (h : FreeByteFound m (begin + 1) stop a) (hfull : m begin = 0xFF) :
    FreeByteFound m begin stop a := by
  -- the first byte, or one the rest of the search has seen
  have hskip : ∀ x, begin ≤ x → (begin + 1 ≤ x → m x = 0xFF) → m x = 0xFF := by
    intro x hx hrest
    rcases Nat.eq_or_lt_of_le hx with rfl | hlt
    · exact hfull
    · exact hrest hlt
  rcases h with ⟨hnull, hall⟩ | ⟨hle, hlt, hne, hall⟩
  · exact .inl ⟨hnull, fun x h₁ h₂ => hskip x h₁ fun h => hall x h h₂⟩
  · exact .inr ⟨by omega, hlt, hne, fun x h₁ h₂ => hskip x h₁ fun h => hall x h h₂⟩

theorem findFreeByteLoop_found (m : ByteMem) (stop fuel begin : ℕ) (hfuel : stop - begin ≤ fuel) :
    FreeByteFound m begin stop (findFreeByteLoop m stop fuel begin) := by
  induction fuel generalizing begin with
  | zero => exact .inl ⟨rfl, fun x h₁ h₂ => by omega⟩
  | succ fuel ih =>
    rw [findFreeByteLoop]
    by_cases hlt : begin < stop
    · rw [if_pos hlt]
      by_cases hfree : m begin ≠ 0xFF
      · rw [if_pos hfree]
        exact .inr ⟨le_refl _, hlt, hfree, fun x h₁ h₂ => by omega⟩
      · rw [if_neg hfree]
        exact (ih (begin + 1) (by omega)).skip (not_not.mp hfree)
    · rw [if_neg hlt]
      exact .inl ⟨rfl, fun x h₁ h₂ => by omega⟩

/-- `find_free_byte` stops at the first byte with a clear bit. -/
theorem findFreeByte_found (m : ByteMem) (begin stop : ℕ) :
    FreeByteFound m begin stop (findFreeByte m begin stop) :=
  findFreeByteLoop_found m stop _ begin (le_refl _)

/-- Away from address zero, a null pointer says that every frame of the bytes is used. -/
theorem findFreeByte_eq_nullptr_iff (p : Pmm) (lo hi : ℕ) (hlo : 0 < p.bitmap.start + lo) :
    findFreeByte p.mem (p.bitmap.start + lo) (p.bitmap.start + hi) = nullptr ↔
      ∀ f, 8 * lo ≤ f → f < 8 * hi → bitUsed p f = true := by
  have hfound := findFreeByte_found p.mem (p.bitmap.start + lo) (p.bitmap.start + hi)
  generalize findFreeByte p.mem (p.bitmap.start + lo) (p.bitmap.start + hi) = a at *
  rcases hfound with ⟨hnull, hall⟩ | ⟨hle, hlt, hne, -⟩
  · refine iff_of_true hnull ?_
    intro f h₁ h₂
    exact (byte_eq_ff_iff p (f / 8)).mp (hall _ (by omega) (by omega)) f (by omega) (by omega)
  · -- a byte was found: one of its frames is free
    obtain ⟨byte, rfl⟩ := Nat.exists_eq_add_of_le (show p.bitmap.start ≤ a by omega)
    refine iff_of_false (by unfold nullptr; omega) fun hall => hne ?_
    exact (byte_eq_ff_iff p byte).mpr fun f h₁ h₂ => hall f (by omega) (by omega)

/-! ### Ranges -/

section Range

variable {p : Pmm} {startFrame endFrame : ℕ}

/-- The three writes of a range that leaves its first byte. -/
theorem bitsWritten_threeParts {m m₁ m₂ m₃ : ByteMem} {base s e : ℕ} {b : Bool}
    (h₁ : BitsWritten m m₁ (8 * (base + s / 8) + s % 8) (8 * (base + s / 8) + 8) b)
    (hse : s < e) (hbytes : s / 8 ≠ (e - 1) / 8)
    (h₂ : BitsWritten m₁ m₂ (8 * (base + s / 8 + 1)) (8 * (base + (e - 1) / 8)) b)
    (h₃ : BitsWritten m₂ m₃ (8 * (base + (e - 1) / 8) + 0)
      (8 * (base + (e - 1) / 8) + ((e - 1) % 8 + 1)) b) :
    BitsWritten m m₃ (8 * base + s) (8 * base + e) b := by
  have hlt : s / 8 < (e - 1) / 8 := by omega
  rw [show 8 * (base + s / 8) + s % 8 = 8 * base + s by omega,
    show 8 * (base + s / 8) + 8 = 8 * (base + s / 8 + 1) by omega] at h₁
  rw [Nat.add_zero, show 8 * (base + (e - 1) / 8) + ((e - 1) % 8 + 1) = 8 * base + e by omega]
    at h₃
  exact (h₁.append h₂ (by omega) (by omega)).append h₃ (by omega) (by omega)

/-- **Freeing a range clears exactly its bits** and takes its length off the
counter. -/
theorem freeFrameRange_spec (tier : Tier) (p : Pmm) (hse : startFrame < endFrame)
    (he : endFrame ≤ 2 ^ 20) (hend : p.bitmap.start + (endFrame - 1) / 8 + 32 ≤ 2 ^ 32) :
    ∃ m, BitsWritten p.mem m (8 * p.bitmap.start + startFrame) (8 * p.bitmap.start + endFrame)
        false ∧
      freeFrameRange tier p startFrame endFrame =
        { p with mem := m, usedFrames := usizeSub p.usedFrames (endFrame - startFrame) } := by
  have hlen : usizeSub endFrame startFrame = endFrame - startFrame :=
    usizeSub_of_le (by omega) (by omega)
  simp only [freeFrameRange, bitmapIndex_eq, bitPosition_eq, hlen, byteSize]
  have hs : startFrame % 8 < 8 := Nat.mod_lt _ (by decide)
  have hepos : (endFrame - 1) % 8 < 8 := Nat.mod_lt _ (by decide)
  by_cases hbyte : startFrame / 8 = (endFrame - 1) / 8
  · -- one byte takes the bits before the start and behind the end
    rw [if_pos hbyte]
    refine ⟨_, ?_, rfl⟩
    have hbits := bitsWritten_and p.mem (p.bitmap.start + (endFrame - 1) / 8)
      (maskTo (8 - startFrame % 8) ||| maskFrom ((endFrame - 1) % 8 + 1))
      (i := startFrame % 8) (j := (endFrame - 1) % 8 + 1) (by omega) fun t ht => by
        rw [BitVec.getLsbD_or, getLsbD_maskTo, getLsbD_maskFrom _ ht, ← decide_not,
          ← Bool.decide_or]
        exact decide_eq_decide.mpr (by omega)
    rwa [show 8 * (p.bitmap.start + (endFrame - 1) / 8) + startFrame % 8
        = 8 * p.bitmap.start + startFrame by omega,
      show 8 * (p.bitmap.start + (endFrame - 1) / 8) + ((endFrame - 1) % 8 + 1)
        = 8 * p.bitmap.start + endFrame by omega] at hbits
  · -- first byte, bytes between, last byte
    rw [if_neg hbyte]
    refine ⟨_, ?_, rfl⟩
    have hfront := bitsWritten_and p.mem (p.bitmap.start + startFrame / 8)
      (maskTo (8 - startFrame % 8)) (i := startFrame % 8) (le_refl 8) fun t ht => by
        rw [getLsbD_maskTo, ← decide_not]
        exact decide_eq_decide.mpr (by omega)
    -- the parts are apart, so each is written by its own mask or fill
    refine bitsWritten_threeParts hfront hse hbyte ?_
      (bitsWritten_and _ _ _ (by omega) ?_)
    · rw [setRange_mem (by omega) (by omega)]
      exact bitsWritten_fillRange _ _ _ fun i _ => BitVec.getLsbD_zero
    · intro t ht
      rw [getLsbD_maskFrom _ ht, ← decide_not]
      exact decide_eq_decide.mpr (by omega)

/-- A masked byte test is a test of the mask's frames. -/
theorem and_eq_mask_iff_used (p : Pmm) (byte lo hi : ℕ) {mask : BitVec 8} (hhi : hi ≤ 8)
    (hmask : ∀ t < 8, mask.getLsbD t = decide (lo ≤ t ∧ t < hi)) :
    p.mem (p.bitmap.start + byte) &&& mask = mask ↔
      ∀ f, 8 * byte + lo ≤ f → f < 8 * byte + hi → bitUsed p f = true := by
  rw [and_eq_mask_iff]
  constructor
  · intro h f h₁ h₂
    have hf := h (f - 8 * byte) (by omega)
    rw [hmask _ (by omega), ← bitUsed_byte p byte (by omega), Nat.add_sub_cancel' (by omega)]
      at hf
    exact hf (decide_eq_true (by omega))
  · intro h t ht hbit
    rw [hmask t ht, decide_eq_true_iff] at hbit
    rw [← bitUsed_byte p byte ht]
    exact h _ (by omega) (by omega)

/-- **The range check reads exactly the bits of the range.** -/
theorem isFrameRangeUsed_iff (hse : startFrame < endFrame) :
    isFrameRangeUsed p startFrame endFrame = true ↔
      ∀ f, startFrame ≤ f → f < endFrame → bitUsed p f = true := by
  have hs : startFrame % 8 < 8 := Nat.mod_lt _ (by decide)
  have hepos : (endFrame - 1) % 8 < 8 := Nat.mod_lt _ (by decide)
  simp only [isFrameRangeUsed, bitmapIndex_eq, bitPosition_eq, bitMaxPos]
  by_cases hbyte : startFrame / 8 = (endFrame - 1) / 8
  · -- one byte, one mask
    rw [if_pos hbyte, decide_eq_true_iff, and_eq_mask_iff_used p _ (startFrame % 8)
      ((endFrame - 1) % 8 + 1) (by omega) (fun t ht => ?_)]
    · rw [show 8 * (startFrame / 8) + startFrame % 8 = startFrame by omega,
        show 8 * (startFrame / 8) + ((endFrame - 1) % 8 + 1) = endFrame by omega]
    · rw [BitVec.getLsbD_and, getLsbD_maskFrom _ ht, getLsbD_maskTo, ← Bool.decide_and]
      exact decide_eq_decide.mpr (by omega)
  · have hfront := and_eq_mask_iff_used p (startFrame / 8) (startFrame % 8) 8 (le_refl 8)
      (fun t ht => (getLsbD_maskFrom (startFrame % 8) ht).trans (decide_eq_decide.mpr (by omega)))
    have hback := and_eq_mask_iff_used p ((endFrame - 1) / 8) 0 ((endFrame - 1) % 8 + 1)
      (by omega)
      (fun t ht => (getLsbD_maskTo (7 - (endFrame - 1) % 8)).trans
        (decide_eq_decide.mpr (by omega)))
    have hmiddle := findFreeByte_eq_nullptr_iff p (startFrame / 8 + 1) ((endFrame - 1) / 8)
      (by omega)
    -- the frames of the first byte, of the bytes between and of the last byte are the range
    have hsplit : (∀ f, startFrame ≤ f → f < endFrame → bitUsed p f = true) ↔
        (p.mem (p.bitmap.start + startFrame / 8) &&& maskFrom (startFrame % 8)
            = maskFrom (startFrame % 8)) ∧
          findFreeByte p.mem (p.bitmap.start + (startFrame / 8 + 1))
            (p.bitmap.start + (endFrame - 1) / 8) = nullptr ∧
          p.mem (p.bitmap.start + (endFrame - 1) / 8) &&& maskTo (7 - (endFrame - 1) % 8)
            = maskTo (7 - (endFrame - 1) % 8) := by
      rw [hfront, hmiddle, hback]
      constructor
      · exact fun h => ⟨fun f h₁ h₂ => h f (by omega) (by omega),
          fun f h₁ h₂ => h f (by omega) (by omega), fun f h₁ h₂ => h f (by omega) (by omega)⟩
      · rintro ⟨hfirst, hbetween, hlast⟩ f h₁ h₂
        by_cases hf : f < 8 * (startFrame / 8) + 8
        · exact hfirst f (by omega) hf
        · by_cases hf' : f < 8 * ((endFrame - 1) / 8)
          · exact hbetween f (by omega) hf'
          · exact hlast f (by omega) (by omega)
    rw [if_neg hbyte, hsplit]
    -- the source tests the three parts one after the other
    by_cases h₁ : p.mem (p.bitmap.start + startFrame / 8) &&& maskFrom (startFrame % 8)
        = maskFrom (startFrame % 8)
    · rw [if_neg (not_not.mpr h₁)]
      by_cases h₂ : findFreeByte p.mem (p.bitmap.start + (startFrame / 8 + 1))
          (p.bitmap.start + (endFrame - 1) / 8) = nullptr
      · rw [if_neg (not_not.mpr h₂), decide_eq_true_iff]
        exact ⟨fun h₃ => ⟨h₁, h₂, h₃⟩, fun h => h.2.2⟩
      · rw [if_pos h₂]
        exact iff_of_false Bool.false_ne_true fun h => h₂ h.2.1
    · rw [if_pos h₁]
      exact iff_of_false Bool.false_ne_true fun h => h₁ h.1

end Range

end BareMetal
