import BareMetal.Pmm.Cores

/-!
# Correctness of the scanning cores

Each width is shown to be `InspectSound`: the inspection of a chunk turns the
carry of `[lo, 8 * current)` into the first fit or the carry of
`[lo, 8 * current + 8 * k)`. For a general purpose word this is a case analysis on
the word, matched to the rules of `Framework.FirstFit`; for a vector register the
mixed case is the narrower core run over the register's own bytes, so its
soundness comes from `contiguousCore_spec` for that core.
-/

namespace BareMetal

open Framework

variable {m : ByteMem} {bitmapStart lo hi frames : ℕ}

/-! ### Bits of one word -/

section Word

variable {k current : ℕ}

theorem load_eq_zero_iff :
    load m k current = 0#(8 * k) ↔ FreeRun (clearBit m) (8 * current) (8 * k) := by
  rw [BitVec.zero_iff_eq_false]
  constructor
  · intro h x h₁ h₂
    have hx := h (x - 8 * current)
    rwa [getLsbD_load_of_lt m current (by omega), Nat.add_sub_cancel' h₁] at hx
  · intro h i
    by_cases hi : i < 8 * k
    · rw [getLsbD_load_of_lt m current hi]
      exact h _ (by omega) (by omega)
    · exact BitVec.getLsbD_of_ge _ _ (by omega)

theorem load_eq_allOnes_iff :
    load m k current = BitVec.allOnes (8 * k) ↔
      ∀ i < 8 * k, ¬ clearBit m (8 * current + i) := by
  rw [eq_allOnes_iff_getLsbD]
  -- bit `i` of the word is bit `8 * current + i` of the memory
  apply forall₂_congr
  intro i hi
  rw [getLsbD_load_of_lt m current hi]
  unfold clearBit
  simp

/-- The trailing count of a nonzero word is the length of its free prefix. -/
theorem trailingZeros_load (hk : GprWidth k) (hv : load m k current ≠ 0#(8 * k)) :
    trailingZeros (load m k current) < 8 * k ∧
    FreeRun (clearBit m) (8 * current) (trailingZeros (load m k current)) ∧
    ¬ clearBit m (8 * current + trailingZeros (load m k current)) := by
  have hlt := trailingZeros_lt hk.le hv
  refine ⟨hlt, ?_, ?_⟩
  · intro x h₁ h₂
    have hx := getLsbD_of_lt_trailingZeros (v := load m k current)
      (i := x - 8 * current) (by omega)
    rwa [getLsbD_load_of_lt m current (by omega), Nat.add_sub_cancel' h₁] at hx
  · have hbit := getLsbD_trailingZeros hk.le hv
    rw [getLsbD_load_of_lt m current hlt] at hbit
    unfold clearBit
    rw [hbit]
    simp

/-- The leading count of a nonzero word is the length of its free suffix. -/
theorem leadingZeros_load (hk : GprWidth k) (hv : load m k current ≠ 0#(8 * k)) :
    leadingZeros (load m k current) < 8 * k ∧
    FreeRun (clearBit m) (8 * current + 8 * k - leadingZeros (load m k current))
      (leadingZeros (load m k current)) ∧
    ¬ clearBit m (8 * current + 8 * k - leadingZeros (load m k current) - 1) := by
  obtain ⟨hlt, hbit⟩ := getLsbD_leadingZeros hk.le hv
  refine ⟨hlt, ?_, ?_⟩
  · intro x h₁ h₂
    have hx := getLsbD_of_leadingZeros (v := load m k current) hk.le
      (i := x - 8 * current) (by omega)
    rwa [getLsbD_load_of_lt m current (by omega),
      show 8 * current + (x - 8 * current) = x by omega] at hx
  · rw [getLsbD_load_of_lt m current (by omega)] at hbit
    unfold clearBit
    rw [show 8 * current + 8 * k - leadingZeros (load m k current) - 1
      = 8 * current + (8 * k - 1 - leadingZeros (load m k current)) by omega, hbit]
    simp

/-- Where the inverted word has `frames` ones in a row, the memory has `frames`
clear bits. -/
theorem freeRun_iff_not_load {i : ℕ} (hi : i + frames ≤ 8 * k) :
    FreeRun (clearBit m) (8 * current + i) frames ↔
      ∀ j < frames, (~~~(load m k current)).getLsbD (i + j) = true := by
  -- inverting the word turns clear bits into ones
  have hbit : ∀ j < frames, (~~~(load m k current)).getLsbD (i + j)
      = !bitAt m (8 * current + (i + j)) := by
    intro j hj
    rw [BitVec.getLsbD_not, getLsbD_load_of_lt m current (by omega),
      decide_eq_true (by omega), Bool.true_and]
  constructor
  · intro h j hj
    rw [hbit j hj, h _ (by omega) (by omega)]
    rfl
  · intro h x h₁ h₂
    have hx := h (x - (8 * current + i)) (by omega)
    rw [hbit _ (by omega), show 8 * current + (i + (x - (8 * current + i))) = x by omega] at hx
    simpa [clearBit] using hx

/-- **The lowest run inside a word.** A nonzero result of the run finder has its
lowest one at the first fit of the word. -/
theorem firstFit_of_space (hk : GprWidth k) (h₀ : 0 < frames) (hf : frames < 8 * k)
    (hne : space (arrayOfShifts (8 * k) frames) (~~~(load m k current)) ≠ 0#(8 * k)) :
    FirstFit (clearBit m) (8 * current) (8 * current + 8 * k) frames
      (8 * current +
        trailingZeros (space (arrayOfShifts (8 * k) frames) (~~~(load m k current)))) := by
  have hmap := space_runMap hk h₀ hf (~~~(load m k current))
  set x := space (arrayOfShifts (8 * k) frames) (~~~(load m k current))
  have hbit := getLsbD_trailingZeros hk.le hne
  have hle := hmap.le_width h₀ hbit
  refine ⟨by omega, by omega, (freeRun_iff_not_load hle).mpr ((hmap _).mp hbit), ?_⟩
  intro t ht hlt hrun
  -- an earlier run would set an earlier bit of the result
  have hearly := (hmap (t - 8 * current)).mpr
  rw [← freeRun_iff_not_load (m := m) (by omega), Nat.add_sub_cancel' ht] at hearly
  have hclear := getLsbD_of_lt_trailingZeros (v := x) (i := t - 8 * current) (by omega)
  rw [hearly hrun] at hclear
  exact absurd hclear (by simp)

/-- A zero result of the run finder means that the word has no run. -/
theorem not_hasRun_of_space (hk : GprWidth k) (h₀ : 0 < frames) (hf : frames < 8 * k)
    (hzero : space (arrayOfShifts (8 * k) frames) (~~~(load m k current)) = 0#(8 * k)) :
    ¬ HasRun (clearBit m) (8 * current) (8 * current + 8 * k) frames := by
  rintro ⟨t, ht, hte, hrun⟩
  -- a run would set the bit of the result at its start
  have hbit := (space_runMap hk h₀ hf (~~~(load m k current)) (t - 8 * current)).mpr
  rw [← freeRun_iff_not_load (m := m) (by omega), Nat.add_sub_cancel' ht, hzero] at hbit
  simpa using hbit hrun

end Word

/-! ### One chunk of a general purpose core -/

/-- The frame reported for a run that started `length` bits before `ptr`. -/
theorem runFound_of_le {ptr length : ℕ} (hptr : bitmapStart ≤ ptr)
    (hsize : 8 * (ptr - bitmapStart) < 2 ^ 32) (hlen : length ≤ 8 * (ptr - bitmapStart)) :
    runFound bitmapStart ptr length + 8 * bitmapStart = 8 * ptr - length := by
  unfold runFound bitsPerByteShift
  rw [usize_of_lt (by omega), usizeSub_of_le (by omega) (by omega)]
  omega

/-- The frame reported for a run inside a chunk: the length is negated, and the
wrap-around of the two subtractions cancels. -/
theorem runFound_neg {ptr offset : ℕ} (hptr : bitmapStart ≤ ptr)
    (hsize : 8 * (ptr - bitmapStart) + offset < 2 ^ 32) :
    runFound bitmapStart ptr (usizeSub 0 offset) + 8 * bitmapStart = 8 * ptr + offset := by
  unfold runFound bitsPerByteShift
  rw [usize_of_lt (by omega), usizeSub_neg (by omega) (by omega)]
  omega

/-- **A general purpose word is inspected soundly.** -/
theorem inspectWord_sound {k : ℕ} (hk : GprWidth k) (h₀ : 0 < frames) (m : ByteMem)
    (bitmapStart : ℕ) :
    InspectSound m bitmapStart k frames fun current length =>
      (inspectWord m bitmapStart k frames current length, [⟨current, k⟩]) := by
  intro lo current length hbm hlo _ hsize hcarry
  have hkle := hk.le
  have hkpos := hk.pos
  have hlen := hcarry.len_le
  have hlt := hcarry.lt
  refine ⟨?_, ?_⟩
  · -- the one load of the chunk, too narrow to need alignment
    intro a ha
    obtain rfl : a = ⟨current, k⟩ := by simpa using ha
    exact ⟨le_refl _, le_refl _, fun h => absurd h (by simp only; omega)⟩
  simp only [inspectWord]
  by_cases hzero : load m k current = 0#(8 * k)
  · -- all clear: the run grows by the whole word
    have hfree := load_eq_zero_iff.mp hzero
    rw [if_pos hzero, usize_of_lt (x := length + 8 * k) (by omega)]
    by_cases hfit : frames ≤ length + 8 * k
    · rw [if_pos hfit, usizeSub_of_le (by omega) (by omega), Nat.add_sub_cancel]
      simp only
      rw [runFound_of_le hbm (by omega) (by omega)]
      exact hcarry.found hfree hfit
    · rw [if_neg hfit]
      exact hcarry.extend_free hfree (by omega)
  rw [if_neg hzero]
  obtain ⟨htzlt, htzfree, htzused⟩ := trailingZeros_load hk hzero
  by_cases hones : load m k current = BitVec.allOnes (8 * k)
  · -- all set: nothing is carried
    have hused := load_eq_allOnes_iff.mp hones
    rw [if_pos hones]
    exact hcarry.extend_used (by omega) hused
  rw [if_neg hones, usize_of_lt (x := length + trailingZeros (load m k current)) (by omega)]
  by_cases hprefix : frames ≤ length + trailingZeros (load m k current)
  · -- the free prefix of the word completes the carried run
    rw [if_pos hprefix]
    simp only
    rw [runFound_of_le hbm (by omega) (by omega)]
    exact (hcarry.found htzfree hprefix).mono (by omega)
  rw [if_neg hprefix]
  by_cases hinside : frames ≤ 8 * k - 1 ∧
      space (arrayOfShifts (8 * k) frames) (~~~(load m k current)) ≠ 0#(8 * k)
  · -- the lowest run inside the word
    have hfit := firstFit_of_space hk h₀ (by omega) hinside.2
    have hbound := trailingZeros_lt hk.le hinside.2
    rw [if_pos hinside]
    simp only
    rw [runFound_neg hbm (by omega)]
    exact hcarry.found_inside htzused (by omega) hfit
  · -- no run: the free suffix of the word is carried on
    rw [if_neg hinside]
    obtain ⟨hlzlt, hlzfree, hlzused⟩ := leadingZeros_load hk hzero
    refine hcarry.extend_mixed htzlt htzused (by omega) ⟨by omega, hlzfree, fun _ => hlzused, ?_⟩
    by_cases hf : frames ≤ 8 * k - 1
    · exact not_hasRun_of_space hk h₀ (by omega) (not_not.mp fun h => hinside ⟨hf, h⟩)
    · -- a run this long would fill the word
      rintro ⟨t, ht, hte, hrun⟩
      exact htzused (hrun _ (by omega) (by omega))

/-! ### The loop of a core -/

/-- Where a scan stands that searches the bits from `lo` on and reads the bytes of
`[begin, last)`: it has found the first fit up to `last`, or it carries the free
suffix of what it has seen, with the scan pointer at a position `P` describes. -/
structure Swept (m : ByteMem) (bitmapStart lo begin last frames : ℕ) (s : Scan)
    (P : ℕ → Prop) : Prop where
  loads : AccessesIn begin last s.loads
  outcome : Found m bitmapStart lo (8 * last) frames s.run ∨
    (Carry (clearBit m) lo (8 * s.start) frames s.run.length ∧ P s.start)

/-- The loop of a core carries a scan on up to `stop`. -/
theorem contiguousLoop_spec {inspect : ℕ → ℕ → Inspect × List Access} {k begin stop last : ℕ}
    (hins : InspectSound m bitmapStart k frames inspect) (hk : 0 < k)
    (hbm : bitmapStart ≤ begin) (hlo : 8 * bitmapStart ≤ lo) (hstop : k ∣ stop)
    (hlast : stop ≤ last) (hsize : 8 * (last - bitmapStart) < 2 ^ 32) (fuel : ℕ) (s : Scan)
    (hfuel : stop - s.start ≤ fuel) (hbegin : begin ≤ s.start)
    (haligned : s.start < stop → k ∣ s.start) (hloads : AccessesIn begin last s.loads)
    (hcarry : Carry (clearBit m) lo (8 * s.start) frames s.run.length) :
    Swept m bitmapStart lo begin last frames (contiguousLoop inspect k frames stop fuel s)
      (· = max s.start stop) := by
  induction fuel generalizing s with
  | zero => exact ⟨hloads, .inr ⟨hcarry, by simp only [contiguousLoop]; omega⟩⟩
  | succ fuel ih =>
    rw [contiguousLoop]
    by_cases hlt : s.start < stop
    · have hnext : k ∣ s.start + k := Nat.dvd_add (haligned hlt) (Nat.dvd_refl k)
      have hfits : s.start + k ≤ stop := Nat.le_of_lt_add_of_dvd (by omega) hnext hstop
      rw [if_pos hlt]
      -- the chunk is inspected with the carry so far
      obtain ⟨hl, hverdict⟩ := hins lo s.start s.run.length (by omega) hlo
        (haligned hlt) (by omega) hcarry
      generalize inspect s.start s.run.length = r at hl hverdict
      have hloads' : AccessesIn begin last (r.2 ++ s.loads) :=
        (hl.mono hbegin (by omega)).append hloads
      obtain ⟨verdict, loads⟩ := r
      -- a hit ends the loop; a carry goes on with the next chunk
      cases verdict with
      | found f => exact ⟨hloads', .inl ⟨rfl, hverdict.mono (by omega)⟩⟩
      | carry l =>
        rw [← Nat.mul_add] at hverdict
        have hrest := ih ⟨⟨s.run.startFrame, l⟩, s.start + k, loads ++ s.loads⟩
          (by simp only; omega) (by simp only; omega) (fun _ => hnext) hloads' hverdict
        simp only at hrest
        rwa [show max (s.start + k) stop = max s.start stop by omega] at hrest
    · rw [if_neg hlt]
      exact ⟨hloads, .inr ⟨hcarry, by omega⟩⟩

/-- **A core carries a scan on**, over chunks that tile the range up to `stop`. -/
theorem contiguousCore_spec {inspect : ℕ → ℕ → Inspect × List Access} {k begin stop last : ℕ}
    {s : Scan} (hins : InspectSound m bitmapStart k frames inspect) (hk : 0 < k)
    (hbm : bitmapStart ≤ begin) (hlo : 8 * bitmapStart ≤ lo) (hstop : k ∣ stop)
    (hlast : stop ≤ last) (hsize : 8 * (last - bitmapStart) < 2 ^ 32) (hbegin : begin ≤ s.start)
    (haligned : s.start < stop → k ∣ s.start) (hloads : AccessesIn begin last s.loads)
    (hcarry : Carry (clearBit m) lo (8 * s.start) frames s.run.length) :
    Swept m bitmapStart lo begin last frames (contiguousCore inspect k frames stop s)
      (· = max s.start stop) :=
  contiguousLoop_spec hins hk hbm hlo hstop hlast hsize _ s (le_refl _) hbegin haligned hloads
    hcarry

/-! ### One chunk of a vector core -/

/-- The memory under a register is all zero exactly when its bits are all clear. -/
theorem mmLoad_eq_setzero_iff {n current : ℕ} :
    mmLoad m n current = setzero n ↔ FreeRun (clearBit m) (8 * current) (8 * n) := by
  unfold setzero
  rw [mmLoad_eq_const]
  constructor
  · intro h x h₁ h₂
    unfold clearBit bitAt
    rw [h (x / 8) (by omega) (by omega)]
    exact BitVec.getLsbD_zero
  · -- byte by byte, each of its bits is clear
    intro h a h₁ h₂
    apply BitVec.eq_of_getLsbD_eq
    intro i hi
    have hbit := h (8 * a + i) (by omega) (by omega)
    unfold clearBit at hbit
    rw [bitAt_byte m a hi] at hbit
    rw [hbit]
    exact BitVec.getLsbD_zero.symm

/-- Where the memory under a register is all ones, its bits are all set. -/
theorem mmLoad_eq_allOnes {n current : ℕ} (h : mmLoad m n current = fun _ => 0xFF) {i : ℕ}
    (hi : i < 8 * n) : ¬ clearBit m (8 * current + i) := by
  rw [mmLoad_eq_const] at h
  unfold clearBit bitAt
  rw [h _ (by omega) (by omega), show (0xFF : BitVec 8) = BitVec.allOnes 8 from rfl,
    BitVec.getLsbD_allOnes, decide_eq_true (Nat.mod_lt _ (by decide))]
  simp

/-- **A vector register is inspected soundly**, if the narrower core it falls back
to is sound and its width tiles the register. -/
theorem inspectVector_sound {n k : ℕ} (hn : 16 ≤ n) (hkn : k ∣ n) (hk : 0 < k)
    (m : ByteMem) (bitmapStart : ℕ) {cmpeq : Reg n → Reg n → Reg n}
    {inspect : ℕ → ℕ → Inspect × List Access}
    (hcmp : ∀ a b, movemaskEpi8 (cmpeq a b) = BitVec.allOnes n ↔ a = b)
    (hins : InspectSound m bitmapStart k frames inspect) :
    InspectSound m bitmapStart n frames
      (inspectVector m bitmapStart n cmpeq (contiguousCore inspect k frames) frames) := by
  intro lo current length hbm hlo hdvd hsize hcarry
  have hlen := hcarry.len_le
  have hlt := hcarry.lt
  have hself : AccessesIn current (current + n) [⟨current, n⟩] := by
    intro a ha
    obtain rfl : a = ⟨current, n⟩ := by simpa using ha
    exact ⟨le_refl _, le_refl _, fun _ => hdvd⟩
  simp only [inspectVector]
  by_cases hzero : movemaskEpi8 (cmpeqEpi32 (mmLoad m n current) (setzero n)) = BitVec.allOnes n
  · -- all clear: the run grows by the whole register
    have hfree := mmLoad_eq_setzero_iff.mp ((movemask_cmpeqEpi32 _ _).mp hzero)
    rw [if_pos hzero, usize_of_lt (x := length + 8 * n) (by omega)]
    by_cases hfit : frames ≤ length + 8 * n
    · rw [if_pos hfit, usizeSub_of_le (by omega) (by omega), Nat.add_sub_cancel]
      refine ⟨hself, ?_⟩
      simp only
      rw [runFound_of_le hbm (by omega) (by omega)]
      exact hcarry.found hfree hfit
    · rw [if_neg hfit]
      exact ⟨hself, hcarry.extend_free hfree (by omega)⟩
  rw [if_neg hzero]
  by_cases hones : movemaskEpi8 (cmpeq (mmLoad m n current)
      (cmpeqEpi32 (setzero n) (setzero n))) = BitVec.allOnes n
  · -- all set: nothing is carried
    have hset := (hcmp _ _).mp hones
    rw [cmpeqEpi32_self] at hset
    have hused : ∀ i < 8 * n, ¬ clearBit m (8 * current + i) :=
      fun i hi => mmLoad_eq_allOnes hset hi
    rw [if_pos hones]
    exact ⟨hself, hcarry.extend_used (by omega) hused⟩
  rw [if_neg hones]
  -- mixed: the narrower core finishes the register
  have hnarrow : Swept m bitmapStart lo current (current + n) frames
      (contiguousCore inspect k frames (current + n) ⟨⟨0, length⟩, current, []⟩)
      (· = max current (current + n)) :=
    contiguousCore_spec hins hk hbm hlo (Nat.dvd_add (hkn.trans hdvd) hkn) (le_refl _) hsize
      (le_refl _) (fun _ => hkn.trans hdvd) (fun a ha => absurd ha (by simp)) hcarry
  obtain ⟨hloads, hfound | ⟨hcarry', hpos⟩⟩ := hnarrow
  · -- the narrower core found the run, and reports its own loads
    rw [if_pos (le_of_eq hfound.length_eq.symm)]
    refine ⟨hloads.append hself, ?_⟩
    rw [← Nat.mul_add]
    exact hfound.fit
  · rw [if_neg (by have := hcarry'.lt; omega)]
    refine ⟨hloads.append hself, ?_⟩
    rw [hpos, show 8 * max current (current + n) = 8 * current + 8 * n by omega] at hcarry'
    exact hcarry'

end BareMetal
