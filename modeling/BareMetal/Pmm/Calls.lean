import BareMetal.Pmm.FrameRange

/-!
# What the public calls do

Every public call of the memory manager does one of three things: nothing, mark a
range of free frames as used (`Marked`), or clear a range of used frames
(`Cleared`). The theorems `*_spec` say which, with the answer the call gives, and
everything that is proved about runs goes through them.

`PmmInv` is the invariant the calls rely on: the layout of the bitmap, the search
hint inside it, the padding bits of its last byte set, and the reserved frames used.
-/

namespace BareMetal

open Framework

/-- Frame `f` lies in one of the reserved regions. -/
def Reserved (p : Pmm) (f : ℕ) : Prop :=
  ∃ r ∈ [p.reserved0, p.reserved1], r.base ≤ f ∧ f < r.base + r.length

/-- The invariant of the memory manager. -/
structure PmmInv (p : Pmm) : Prop where
  end_eq : p.bitmap.end_ = p.bitmap.start + (p.totalFrames + 7) / 8
  /-- The end can be rounded up to a frame. -/
  end_lt : p.bitmap.end_ + 4095 < 2 ^ 32
  total_le : p.totalFrames ≤ 2 ^ 20
  used_lt : p.usedFrames < 2 ^ 32
  start_le : p.bitmap.start ≤ p.bitmap.searchBegin
  search_le : p.bitmap.searchBegin ≤ p.bitmap.end_
  first_reserved : p.reserved0 = ⟨0, 1⟩
  reserved_le : p.reserved1.base + p.reserved1.length ≤ 2 ^ 20
  padding_used : ∀ f, p.totalFrames ≤ f → f < 8 * ((p.totalFrames + 7) / 8) → bitUsed p f = true
  reserved_used : ∀ f, Reserved p f → f < p.totalFrames → bitUsed p f = true

/-- The parts of the state that no call changes. -/
structure SameLayout (p p' : Pmm) : Prop where
  total : p'.totalFrames = p.totalFrames
  start : p'.bitmap.start = p.bitmap.start
  end_ : p'.bitmap.end_ = p.bitmap.end_
  reserved0 : p'.reserved0 = p.reserved0
  reserved1 : p'.reserved1 = p.reserved1

/-- The frames `[s, s + n)` get the bit `b`, and all other bits of the memory stay. -/
structure Rewritten (p p' : Pmm) (s n : ℕ) (b : Bool) : Prop where
  layout : SameLayout p p'
  pos : 0 < n
  fits : s + n ≤ p.totalFrames
  before : ∀ f, s ≤ f → f < s + n → bitUsed p f = !b
  bits : BitsWritten p.mem p'.mem (8 * p.bitmap.start + s) (8 * p.bitmap.start + (s + n)) b

/-- A successful allocation of `[s, s + n)`. -/
structure Marked (p p' : Pmm) (s n : ℕ) : Prop extends Rewritten p p' s n true where
  used_eq : p'.usedFrames = usize (p.usedFrames + n)
  /-- The search goes on at the last byte of the range, or behind it if it is full. -/
  hint : p'.bitmap.searchBegin = p.bitmap.start + (s + n - 1) / 8 +
    (if p'.mem (p.bitmap.start + (s + n - 1) / 8) = 0xFF then 1 else 0)

/-- A successful release of `[s, s + n)`. -/
structure Cleared (p p' : Pmm) (s n : ℕ) : Prop extends Rewritten p p' s n false where
  unreserved : ∀ f, s ≤ f → f < s + n → ¬ Reserved p f
  used_eq : p'.usedFrames = usizeSub p.usedFrames n
  hint : p'.bitmap.searchBegin = min (p.bitmap.start + s / 8) p.bitmap.searchBegin

section Preservation

variable {p p' : Pmm} {s n : ℕ} {b : Bool}

theorem SameLayout.reserved_iff (h : SameLayout p p') (f : ℕ) : Reserved p' f ↔ Reserved p f := by
  unfold Reserved
  rw [h.reserved0, h.reserved1]

theorem Rewritten.bitUsed_eq (h : Rewritten p p' s n b) (f : ℕ) :
    bitUsed p' f = if s ≤ f ∧ f < s + n then b else bitUsed p f := by
  unfold bitUsed
  rw [h.layout.start, h.bits]
  by_cases hf : s ≤ f ∧ f < s + n
  · rw [if_pos (by omega), if_pos hf]
  · rw [if_neg (by omega), if_neg hf]

/-- The invariant from one state to another of the same layout: what is left to show is
about the counter, the hint, and the frames that have to be used. -/
theorem SameLayout.inv (hl : SameLayout p p') (hp : PmmInv p) (hused : p'.usedFrames < 2 ^ 32)
    (hhint : p.bitmap.start ≤ p'.bitmap.searchBegin ∧ p'.bitmap.searchBegin ≤ p.bitmap.end_)
    (hpad : ∀ f, p.totalFrames ≤ f → f < 8 * ((p.totalFrames + 7) / 8) → bitUsed p' f = true)
    (hres : ∀ f, Reserved p f → f < p.totalFrames → bitUsed p' f = true) : PmmInv p' := by
  refine ⟨?_, ?_, ?_, hused, ?_, ?_, ?_, ?_, ?_, ?_⟩
  · rw [hl.end_, hl.start, hl.total]
    exact hp.end_eq
  · rw [hl.end_]
    exact hp.end_lt
  · rw [hl.total]
    exact hp.total_le
  · rw [hl.start]
    exact hhint.1
  · rw [hl.end_]
    exact hhint.2
  · rw [hl.reserved0]
    exact hp.first_reserved
  · rw [hl.reserved1]
    exact hp.reserved_le
  -- the two conditions on the bits are the only ones about the memory
  · intro f h₁ h₂
    rw [hl.total] at h₁ h₂
    exact hpad f h₁ h₂
  · intro f h₁ h₂
    rw [hl.reserved_iff] at h₁
    rw [hl.total] at h₂
    exact hres f h₁ h₂

/-- A rewrite that leaves the hint in place and the reserved frames used keeps the
invariant. -/
theorem Rewritten.inv (h : Rewritten p p' s n b) (hp : PmmInv p) (hused : p'.usedFrames < 2 ^ 32)
    (hhint : p.bitmap.start ≤ p'.bitmap.searchBegin ∧ p'.bitmap.searchBegin ≤ p.bitmap.end_)
    (hres : b = true ∨ ∀ f, s ≤ f → f < s + n → ¬ Reserved p f) : PmmInv p' := by
  have hfits := h.fits
  refine h.layout.inv hp hused hhint ?_ ?_
  · intro f h₁ h₂
    -- the range lies below the total, so it has no padding bit
    rw [h.bitUsed_eq, if_neg (by omega)]
    exact hp.padding_used f h₁ h₂
  · intro f h₁ h₂
    rw [h.bitUsed_eq]
    split
    · next hf =>
      rcases hres with rfl | hres
      · rfl
      · exact absurd h₁ (hres f hf.1 hf.2)
    · exact hp.reserved_used f h₁ h₂

theorem Marked.inv (h : Marked p p' s n) (hp : PmmInv p) : PmmInv p' := by
  have hend := hp.end_eq
  have hfits := h.fits
  have hpos := h.pos
  refine h.toRewritten.inv hp (h.used_eq ▸ usize_lt _) ?_ (.inl rfl)
  rw [h.hint]
  split <;> omega

theorem Cleared.inv (h : Cleared p p' s n) (hp : PmmInv p) : PmmInv p' := by
  have hstart := hp.start_le
  have hsearch := hp.search_le
  refine h.toRewritten.inv hp (h.used_eq ▸ usizeSub_lt _ _) ?_ (.inr h.unreserved)
  rw [h.hint]
  omega

end Preservation

/-! ### The contiguous search -/

/-- The bit of frame `f` is clear. -/
def frameFree (p : Pmm) (f : ℕ) : Prop := bitUsed p f = false

/-- The first frame of the byte the search hint points to. -/
def hintFrame (p : Pmm) : ℕ := 8 * (p.bitmap.searchBegin - p.bitmap.start)

/-- The number of bits in the bitmap, padding included. -/
def bitmapBits (p : Pmm) : ℕ := 8 * ((p.totalFrames + 7) / 8)

theorem PmmInv.hintFrame_le {p : Pmm} (hp : PmmInv p) : hintFrame p ≤ bitmapBits p := by
  have h₁ := hp.end_eq
  have h₂ := hp.search_le
  unfold hintFrame bitmapBits
  omega

/-- A sweep of a part of the bitmap, on frame numbers. -/
theorem sweep_frames {p : Pmm} (hp : PmmInv p) (tier : Tier) {frames : ℕ} (h₀ : 0 < frames)
    {begin last : ℕ} (hb : p.bitmap.start ≤ begin) (hbl : begin ≤ last)
    (hl : last ≤ p.bitmap.end_) (startFrame : ℕ) :
    (HasRun (frameFree p) (8 * (begin - p.bitmap.start)) (8 * (last - p.bitmap.start)) frames →
      (sweep tier p.mem p.bitmap.start begin last frames ⟨startFrame, 0⟩).run.length = frames ∧
      FirstFit (frameFree p) (8 * (begin - p.bitmap.start)) (8 * (last - p.bitmap.start)) frames
        (sweep tier p.mem p.bitmap.start begin last frames ⟨startFrame, 0⟩).run.startFrame) ∧
    (¬ HasRun (frameFree p) (8 * (begin - p.bitmap.start)) (8 * (last - p.bitmap.start)) frames →
      (sweep tier p.mem p.bitmap.start begin last frames ⟨startFrame, 0⟩).run.length < frames) := by
  have hend := hp.end_eq
  have hendlt := hp.end_lt
  have htotal := hp.total_le
  have hans := (sweep_spec hb (show last + 32 ≤ 2 ^ 32 by omega) (by omega) h₀ hbl tier
    p.mem startFrame).answer
  -- frame numbers count from the first bit of the bitmap
  have hiff : HasRun (frameFree p) (8 * (begin - p.bitmap.start)) (8 * (last - p.bitmap.start))
      frames ↔ HasRun (clearBit p.mem) (8 * begin) (8 * last) frames := by
    rw [show 8 * begin = 8 * p.bitmap.start + 8 * (begin - p.bitmap.start) by omega,
      show 8 * last = 8 * p.bitmap.start + 8 * (last - p.bitmap.start) by omega, hasRun_shift]
    rfl
  refine ⟨?_, fun h => (hans.miss (mt hiff.mpr h)).1⟩
  intro h
  obtain ⟨hlen, hfit⟩ := hans.hit (hiff.mp h)
  refine ⟨hlen, ?_⟩
  rw [Nat.add_comm, show 8 * begin = 8 * p.bitmap.start + 8 * (begin - p.bitmap.start) by omega,
    show 8 * last = 8 * p.bitmap.start + 8 * (last - p.bitmap.start) by omega] at hfit
  exact hfit.shift _

/-- Where the two sweeps of `find_contiguous_frames` find a run of free frames: the
first fit from the hint on, or else the first fit below the hint. -/
inductive FoundAt (p : Pmm) (frames s : ℕ) : Prop
  | upper (fit : FirstFit (frameFree p) (hintFrame p) (bitmapBits p) frames s)
  | lower (none : ¬ HasRun (frameFree p) (hintFrame p) (bitmapBits p) frames)
      (fit : FirstFit (frameFree p) 0 (hintFrame p) frames s)

/-- Neither part of the bitmap holds a run. -/
def FoundNowhere (p : Pmm) (frames : ℕ) : Prop :=
  ¬ HasRun (frameFree p) (hintFrame p) (bitmapBits p) frames ∧
    ¬ HasRun (frameFree p) 0 (hintFrame p) frames

theorem findContiguousFrames_spec {p : Pmm} (hp : PmmInv p) (tier : Tier) {frames : ℕ}
    (h₀ : 0 < frames) :
    ((findContiguousFrames tier p frames).length = frames ∧
        FoundAt p frames (findContiguousFrames tier p frames).startFrame) ∨
      ((findContiguousFrames tier p frames).length < frames ∧ FoundNowhere p frames) := by
  have hend := hp.end_eq
  have hbits : 8 * (p.bitmap.end_ - p.bitmap.start) = bitmapBits p := by
    unfold bitmapBits
    omega
  have hzero : 8 * (p.bitmap.start - p.bitmap.start) = 0 := by omega
  -- the first sweep goes from the hint to the end, the second one from the start to the hint
  obtain ⟨hhit, hmiss⟩ := sweep_frames hp tier h₀ hp.start_le hp.search_le (le_refl _) 0
  rw [hbits] at hhit hmiss
  unfold findContiguousFrames
  by_cases hupper : HasRun (frameFree p) (hintFrame p) (bitmapBits p) frames
  · obtain ⟨hlen, hfit⟩ := hhit hupper
    simp only
    rw [if_neg (by omega)]
    exact .inl ⟨hlen, .upper hfit⟩
  · -- nothing from the hint on: the second sweep
    have hshort := hmiss hupper
    simp only
    rw [if_pos hshort]
    generalize (sweep tier p.mem p.bitmap.start p.bitmap.searchBegin p.bitmap.end_ frames
      ⟨0, 0⟩).run.startFrame = f
    obtain ⟨hhit', hmiss'⟩ := sweep_frames hp tier h₀ (le_refl _) hp.start_le hp.search_le f
    rw [hzero] at hhit' hmiss'
    by_cases hlower : HasRun (frameFree p) 0 (hintFrame p) frames
    · obtain ⟨hlen, hfit⟩ := hhit' hlower
      exact .inl ⟨hlen, .lower hupper hfit⟩
    · exact .inr ⟨hmiss' hlower, hupper, hlower⟩

/-- A run that was found consists of frames below the total: padding bits are set. -/
theorem FoundAt.spec {p : Pmm} (hp : PmmInv p) {frames s : ℕ} (h₀ : 0 < frames)
    (h : FoundAt p frames s) : s + frames ≤ p.totalFrames ∧
      ∀ f, s ≤ f → f < s + frames → bitUsed p f = false := by
  have hhint := hp.hintFrame_le
  have hrun : FreeRun (frameFree p) s frames ∧ s + frames ≤ bitmapBits p := by
    cases h with
    | upper fit => exact ⟨fit.run, fit.le_hi⟩
    | lower _ fit => exact ⟨fit.run, fit.le_hi.trans hhint⟩
  refine ⟨?_, fun f h₁ h₂ => hrun.1 f h₁ h₂⟩
  by_contra hlt
  -- past the total its last frame would be a padding bit
  have hlast := hrun.1 (s + frames - 1) (by omega) (by omega)
  have hpad := hp.padding_used (s + frames - 1) (by omega)
    (by have := hrun.2; unfold bitmapBits at this; omega)
  unfold frameFree at hlast
  rw [hpad] at hlast
  exact absurd hlast (by decide)

/-! ### The four calls -/

/-- The lowest clear bit of a byte that is not full. -/
theorem clear_trailingZeros (p : Pmm) {byte : ℕ} (hv : p.mem (p.bitmap.start + byte) ≠ 0xFF) :
    trailingZeros (~~~(p.mem (p.bitmap.start + byte))) < 8 ∧
      bitUsed p (8 * byte + trailingZeros (~~~(p.mem (p.bitmap.start + byte)))) = false := by
  have hne : ~~~(p.mem (p.bitmap.start + byte)) ≠ 0#8 := by
    intro h
    rw [BitVec.not_eq_comm] at h
    exact hv (h.trans rfl)
  have hlt := trailingZeros_lt (by decide) hne
  refine ⟨hlt, ?_⟩
  have hbit := getLsbD_trailingZeros (by decide) hne
  rw [BitVec.getLsbD_not, Bool.and_eq_true, Bool.not_eq_true'] at hbit
  rw [bitUsed_byte p byte hlt]
  exact hbit.2

/-- A byte of the bitmap with a clear bit: its lowest clear bit is that of a frame. -/
theorem lowestClear_spec {p : Pmm} (hp : PmmInv p) {byte : ℕ}
    (hin : byte < (p.totalFrames + 7) / 8) (hv : p.mem (p.bitmap.start + byte) ≠ 0xFF) :
    trailingZeros (~~~(p.mem (p.bitmap.start + byte))) < 8 ∧
      8 * byte + trailingZeros (~~~(p.mem (p.bitmap.start + byte))) < p.totalFrames ∧
      bitUsed p (8 * byte + trailingZeros (~~~(p.mem (p.bitmap.start + byte)))) = false := by
  obtain ⟨hlt, hclear⟩ := clear_trailingZeros p hv
  refine ⟨hlt, ?_, hclear⟩
  by_contra hge
  -- otherwise it would be a padding bit, which is set
  rw [hp.padding_used _ (by omega) (by omega)] at hclear
  exact absurd hclear (by decide)

/-- The byte that `pmm_allocate_frame` looks into: the first one with a clear bit from the
hint on, or else the first one below the hint. -/
def freeBytePtr (p : Pmm) : ℕ :=
  if findFreeByte p.mem p.bitmap.searchBegin p.bitmap.end_ = nullptr then
    findFreeByte p.mem p.bitmap.start p.bitmap.searchBegin
  else findFreeByte p.mem p.bitmap.searchBegin p.bitmap.end_

/-- Either search returns a byte of the bitmap that is not full. -/
theorem freeBytePtr_mem {p : Pmm} (hp : PmmInv p) (h : freeBytePtr p ≠ nullptr) :
    ∃ byte, freeBytePtr p = p.bitmap.start + byte ∧ byte < (p.totalFrames + 7) / 8 ∧
      p.mem (p.bitmap.start + byte) ≠ 0xFF := by
  have hend := hp.end_eq
  have hstart := hp.start_le
  have hsearch := hp.search_le
  -- the byte is the one found above the hint, or else the one found below it
  have hfound : p.bitmap.start ≤ freeBytePtr p ∧ freeBytePtr p < p.bitmap.end_ ∧
      p.mem (freeBytePtr p) ≠ 0xFF := by
    unfold freeBytePtr at h ⊢
    split at h
    · next hupper =>
      rw [if_pos hupper]
      rcases findFreeByte_found p.mem p.bitmap.start p.bitmap.searchBegin with hf | hf
      · exact absurd hf.1 h
      · exact ⟨hf.1, by omega, hf.2.2.1⟩
    · next hupper =>
      rw [if_neg hupper]
      rcases findFreeByte_found p.mem p.bitmap.searchBegin p.bitmap.end_ with hf | hf
      · exact absurd hf.1 h
      · exact ⟨by omega, hf.2.1, hf.2.2.1⟩
  obtain ⟨byte, hbyte⟩ := Nat.exists_eq_add_of_le hfound.1
  rw [hbyte] at hfound
  exact ⟨byte, hbyte, by omega, hfound.2.2⟩

theorem pmmAllocateFrame_spec {p : Pmm} (hp : PmmInv p) :
    (freeBytePtr p = nullptr ∧ (pmmAllocateFrame p).1 = none ∧ (pmmAllocateFrame p).2 = p) ∨
      ∃ byte f, freeBytePtr p = p.bitmap.start + byte ∧ freeBytePtr p ≠ nullptr ∧
        f = 8 * byte + trailingZeros (~~~(p.mem (p.bitmap.start + byte))) ∧
        (pmmAllocateFrame p).1 = some (4096 * f) ∧ Marked p (pmmAllocateFrame p).2 f 1 := by
  have htotal := hp.total_le
  have halloc : pmmAllocateFrame p = if freeBytePtr p = nullptr then (none, p)
      else
        let bitIndex := trailingZeros (~~~(p.mem (freeBytePtr p)))
        let r := setFrameUsed p (freeBytePtr p) (p.mem (freeBytePtr p)) bitIndex
        (some (frameAddress (usize ((freeBytePtr p - p.bitmap.start) <<< bitsPerByteShift)
            + bitIndex)),
          { r.2 with bitmap := { r.2.bitmap with
            searchBegin := freeBytePtr p + (if r.1 = 0xFF then 1 else 0) } }) := rfl
  rw [halloc]
  by_cases hnull : freeBytePtr p = nullptr
  · -- both searches failed
    rw [if_pos hnull]
    exact .inl ⟨hnull, rfl, rfl⟩
  rw [if_neg hnull]
  obtain ⟨byte, hbyte, hin, hv⟩ := freeBytePtr_mem hp hnull
  obtain ⟨hi, hf, hclear⟩ := lowestClear_spec hp hin hv
  have hbits := setFrameUsed_bits p (p.bitmap.start + byte) hi
  simp only [hbyte]
  set i := trailingZeros (~~~(p.mem (p.bitmap.start + byte)))
  -- the byte index and the bit index make up the frame
  have haddress : frameAddress
      (usize ((p.bitmap.start + byte - p.bitmap.start) <<< bitsPerByteShift) + i)
        = 4096 * (8 * byte + i) := by
    unfold bitsPerByteShift
    rw [Nat.add_sub_cancel_left, Nat.shiftLeft_eq, usize_of_lt (by omega),
      frameAddress_eq (by omega)]
    omega
  have hlast : (8 * byte + i + 1 - 1) / 8 = byte := by omega
  rw [show 8 * (p.bitmap.start + byte) + i = 8 * p.bitmap.start + (8 * byte + i) by omega] at hbits
  refine .inr ⟨byte, 8 * byte + i, rfl, by rwa [← hbyte], rfl, congrArg some haddress, ?_⟩
  refine ⟨⟨⟨rfl, rfl, rfl, rfl, rfl⟩, Nat.one_pos, hf, ?_, hbits⟩, rfl, ?_⟩
  · intro f h₁ h₂
    obtain rfl : f = 8 * byte + i := by omega
    exact hclear
  · -- the byte read back is the value that was stored
    have hstored : (setFrameUsed p (p.bitmap.start + byte) (p.mem (p.bitmap.start + byte)) i).2.mem
        (p.bitmap.start + byte) = p.mem (p.bitmap.start + byte) ||| 1#8 <<< i := if_pos rfl
    rw [hlast]
    simp only
    rw [hstored]
    rfl

/-- The memory after a contiguous allocation has marked its range. -/
theorem markRange_bits (tier : Tier) (p : Pmm) {s frames : ℕ} (h₀ : 0 < frames)
    (hend : p.bitmap.start + (s + frames - 1) / 8 + 32 ≤ 2 ^ 32) :
    let end_ := p.bitmap.start + (s + frames - 1) / 8
    let r := if s / 8 = (s + frames - 1) / 8 then
        (p.mem, p.mem end_ ||| (maskFrom (s % 8) &&& maskTo (7 - (s + frames - 1) % 8)))
      else
        ((setRange tier .allOnes (setByte p.mem (p.bitmap.start + s / 8)
          (p.mem (p.bitmap.start + s / 8) ||| maskFrom (s % 8))) (p.bitmap.start + s / 8 + 1)
          end_).mem, p.mem end_ ||| maskTo (7 - (s + frames - 1) % 8))
    BitsWritten p.mem (setByte r.1 end_ r.2) (8 * p.bitmap.start + s)
      (8 * p.bitmap.start + (s + frames)) true := by
  intro end_ r
  have hs : s % 8 < 8 := Nat.mod_lt _ (by decide)
  have hepos : (s + frames - 1) % 8 < 8 := Nat.mod_lt _ (by decide)
  by_cases hbyte : s / 8 = (s + frames - 1) / 8
  · -- one byte takes both masks
    have hr : r = (p.mem, p.mem end_ |||
        (maskFrom (s % 8) &&& maskTo (7 - (s + frames - 1) % 8))) := if_pos hbyte
    rw [hr]
    have hbits := bitsWritten_or p.mem end_
      (maskFrom (s % 8) &&& maskTo (7 - (s + frames - 1) % 8))
      (i := s % 8) (j := (s + frames - 1) % 8 + 1) (by omega) fun t ht => by
        rw [BitVec.getLsbD_and, getLsbD_maskFrom _ ht, getLsbD_maskTo, ← Bool.decide_and]
        exact decide_eq_decide.mpr (by omega)
    rwa [show 8 * end_ + s % 8 = 8 * p.bitmap.start + s by omega,
      show 8 * end_ + ((s + frames - 1) % 8 + 1) = 8 * p.bitmap.start + (s + frames) by omega]
      at hbits
  · have hlt : s / 8 < (s + frames - 1) / 8 := by omega
    set m₁ := setByte p.mem (p.bitmap.start + s / 8)
      (p.mem (p.bitmap.start + s / 8) ||| maskFrom (s % 8)) with hm₁
    have hr : r = ((setRange tier .allOnes m₁ (p.bitmap.start + s / 8 + 1) end_).mem,
        p.mem end_ ||| maskTo (7 - (s + frames - 1) % 8)) := if_neg hbyte
    have hfill := setRange_mem (show p.bitmap.start + s / 8 + 1 ≤ end_ by omega) (by omega)
      .allOnes m₁ tier
    -- the last byte is still the one that was read before the fill
    have hlast : p.mem end_ = fillRange m₁ (p.bitmap.start + s / 8 + 1) end_ 0xFF end_ := by
      unfold fillRange
      rw [overlay_outside (by omega), hm₁]
      exact (if_neg (by omega)).symm
    rw [hr, hfill]
    simp only
    rw [hlast]
    have hfront := bitsWritten_or p.mem (p.bitmap.start + s / 8)
      (maskFrom (s % 8)) (i := s % 8) (le_refl 8) fun t ht =>
        (getLsbD_maskFrom _ ht).trans (decide_eq_decide.mpr (by omega))
    refine bitsWritten_threeParts hfront (by omega) hbyte
      (bitsWritten_fillRange _ _ _ ?_) (bitsWritten_or _ _ _ (by omega) ?_)
    · intro i hi
      change (BitVec.allOnes 8).getLsbD i = true
      rw [BitVec.getLsbD_allOnes, decide_eq_true hi]
    · intro t ht
      rw [getLsbD_maskTo]
      exact decide_eq_decide.mpr (by omega)

theorem pmmAllocateContiguousFrames_spec {p : Pmm} (hp : PmmInv p) (tier : Tier) (frames : ℕ) :
    ((pmmAllocateContiguousFrames tier p frames).1 = none ∧
        (pmmAllocateContiguousFrames tier p frames).2 = p ∧
        (0 < frames → FoundNowhere p frames)) ∨
      ∃ s, (pmmAllocateContiguousFrames tier p frames).1 = some (4096 * s) ∧
        FoundAt p frames s ∧ Marked p (pmmAllocateContiguousFrames tier p frames).2 s frames := by
  have hend := hp.end_eq
  have hendlt := hp.end_lt
  have htotal := hp.total_le
  unfold pmmAllocateContiguousFrames
  by_cases h₀ : frames = 0
  · rw [if_pos h₀]
    exact .inl ⟨rfl, rfl, fun h => by omega⟩
  rw [if_neg h₀]
  simp only [bitmapIndex_eq, bitPosition_eq, bitMaxPos]
  rcases findContiguousFrames_spec hp tier (Nat.pos_of_ne_zero h₀) with ⟨hlen, hfound⟩ | ⟨hlt, hno⟩
  · obtain ⟨hfits, hfree⟩ := hfound.spec hp (Nat.pos_of_ne_zero h₀)
    rw [if_neg (by omega)]
    generalize (findContiguousFrames tier p frames).startFrame = s at hfits hfree hfound
    have hbits := markRange_bits tier p (s := s) (Nat.pos_of_ne_zero h₀) (by omega)
    simp only at hbits
    refine .inr ⟨s, by rw [frameAddress_eq (by omega)], hfound, ?_⟩
    refine ⟨⟨⟨rfl, rfl, rfl, rfl, rfl⟩, Nat.pos_of_ne_zero h₀, hfits, hfree, hbits⟩, rfl, ?_⟩
    -- the hint tests the value that was stored last
    simp only [setByte, if_true]
  · rw [if_pos hlt]
    exact .inl ⟨rfl, rfl, fun _ => hno⟩

/-- The branch-free choice is the minimum. -/
theorem lowerHint_eq {candidate hint : ℕ} (hc : candidate < 2 ^ 32) (hh : hint < 2 ^ 32) :
    lowerHint candidate hint = min candidate hint := by
  simp only [lowerHint]
  by_cases h : candidate < hint
  · rw [if_pos h, BitVec.and_allOnes, BitVec.not_allOnes, BitVec.and_zero, BitVec.or_zero,
      BitVec.toNat_ofNat, Nat.mod_eq_of_lt hc, Nat.min_eq_left (le_of_lt h)]
  · rw [if_neg h, show (0 : BitVec 32) = 0#32 from rfl, BitVec.and_zero, BitVec.not_zero,
      BitVec.and_allOnes, BitVec.zero_or, BitVec.toNat_ofNat, Nat.mod_eq_of_lt hh,
      Nat.min_eq_right (not_lt.mp h)]

/-- The unrolled overlap test with the reserved regions accepts only frames outside
of them. -/
theorem not_reserved_of_test {p : Pmm} (hp : PmmInv p) {index frames : ℕ}
    (hi : index + frames ≤ 2 ^ 20)
    (h₀ : ¬ usizeSub index p.reserved0.base < p.reserved0.length)
    (h₁ : ¬ usizeSub index p.reserved1.base < p.reserved1.length)
    (hbelow : p.reserved1.base ≤ index ∨ index + frames ≤ p.reserved1.base) :
    ∀ f, index ≤ f → f < index + frames → ¬ Reserved p f := by
  have hres := hp.reserved_le
  rintro f hle hlt ⟨r, hr, hbase, hlength⟩
  rw [hp.first_reserved] at h₀
  unfold usizeSub at h₀ h₁
  simp only at h₀
  rcases List.mem_cons.mp hr with rfl | hr
  · -- frame 0 is the first region, and `index` is above it
    rw [hp.first_reserved] at hlength
    simp only at hlength
    omega
  · -- a wrapped difference is not below the length, so `index` is not inside
    obtain rfl : r = p.reserved1 := by simpa using hr
    omega

theorem pmmFreeFrame_spec {p : Pmm} (hp : PmmInv p) {address : ℕ} (ha : address < 2 ^ 32) :
    ((pmmFreeFrame p address).1 ≠ .success ∧ (pmmFreeFrame p address).2 = p) ∨
      ((pmmFreeFrame p address).1 = .success ∧
        Cleared p (pmmFreeFrame p address).2 (address / 4096) 1) := by
  have hend := hp.end_eq
  have hendlt := hp.end_lt
  have htotal := hp.total_le
  have hsearch := hp.search_le
  simp only [pmmFreeFrame, frameIndex_eq]
  have hindex : address / 4096 < 2 ^ 20 := by omega
  set index := address / 4096
  by_cases hrange : p.totalFrames ≤ index
  · rw [if_pos hrange]
    exact .inl ⟨by simp, rfl⟩
  rw [if_neg hrange]
  by_cases hres : usizeSub index p.reserved0.base < p.reserved0.length ∨
      usizeSub index p.reserved1.base < p.reserved1.length
  · rw [if_pos hres]
    exact .inl ⟨by simp, rfl⟩
  rw [if_neg hres]
  rw [not_or] at hres
  have hunreserved := not_reserved_of_test hp (show index + 1 ≤ 2 ^ 20 by omega) hres.1 hres.2
    (by omega)
  rw [isFrameUsed_eq]
  cases hused : bitUsed p index with
  | false => exact .inl ⟨by simp, rfl⟩
  | true =>
    -- the bit is set: it is cleared, and the hint may go down to its byte
    have hbits := setFrameFree_bits p (p.bitmap.start + index / 8) (i := index % 8)
      (Nat.mod_lt _ (by decide))
    rw [show 8 * (p.bitmap.start + index / 8) + index % 8 = 8 * p.bitmap.start + index by omega]
      at hbits
    simp only [Bool.not_true, Bool.false_eq_true, if_false, bitmapIndex_eq, bitPosition_eq]
    refine .inr ⟨trivial, ⟨⟨rfl, rfl, rfl, rfl, rfl⟩, Nat.one_pos, by omega, ?_, hbits⟩,
      hunreserved, rfl, lowerHint_eq (by omega) (lt_of_le_of_lt hsearch (by omega))⟩
    intro f h₁ h₂
    obtain rfl : f = index := by omega
    exact hused

theorem pmmFreeContiguousFrames_spec {p : Pmm} (hp : PmmInv p) (tier : Tier) {address : ℕ}
    (ha : address < 2 ^ 32) (frames : ℕ) :
    ((pmmFreeContiguousFrames tier p address frames).1 ≠ .success ∧
        (pmmFreeContiguousFrames tier p address frames).2 = p) ∨
      ((pmmFreeContiguousFrames tier p address frames).1 = .success ∧
        Cleared p (pmmFreeContiguousFrames tier p address frames).2 (address / 4096) frames) := by
  have hend := hp.end_eq
  have hendlt := hp.end_lt
  have htotal := hp.total_le
  have hsearch := hp.search_le
  simp only [pmmFreeContiguousFrames, frameIndex_eq]
  have hindex : address / 4096 < 2 ^ 20 := by omega
  set index := address / 4096
  by_cases h₀ : frames = 0
  · rw [if_pos h₀]
    exact .inl ⟨by simp, rfl⟩
  rw [if_neg h₀]
  by_cases hrange : p.totalFrames ≤ index ∨ usizeSub p.totalFrames index < frames
  · rw [if_pos hrange]
    exact .inl ⟨by simp, rfl⟩
  rw [if_neg hrange]
  rw [not_or, not_le] at hrange
  have hfits := hrange.2
  rw [usizeSub_of_le (le_of_lt hrange.1) (by omega)] at hfits
  by_cases hres : usizeSub index p.reserved0.base < p.reserved0.length ∨
      usizeSub p.reserved0.base index < frames ∨
      usizeSub index p.reserved1.base < p.reserved1.length ∨
      usizeSub p.reserved1.base index < frames
  · rw [if_pos hres]
    exact .inl ⟨by simp, rfl⟩
  rw [if_neg hres]
  simp only [not_or] at hres
  have hunreserved := not_reserved_of_test hp (show index + frames ≤ 2 ^ 20 by omega) hres.1
    hres.2.2.1 (by
    -- a region that starts above `index` starts behind the range
    have hbase := hp.reserved_le
    have habove := hres.2.2.2
    unfold usizeSub at habove
    omega)
  cases hused : isFrameRangeUsed p index (index + frames) with
  | false => exact .inl ⟨by simp, rfl⟩
  | true =>
    -- all bits are set: the range is cleared
    obtain ⟨m, hbits, heq⟩ := freeFrameRange_spec tier p (show index < index + frames by omega)
      (by omega) (by omega)
    simp only [Bool.not_true, Bool.false_eq_true, if_false, bitmapIndex_eq]
    rw [heq, Nat.add_sub_cancel_left]
    refine .inr ⟨trivial, ⟨⟨rfl, rfl, rfl, rfl, rfl⟩, Nat.pos_of_ne_zero h₀, by omega, ?_, hbits⟩,
      hunreserved, rfl, lowerHint_eq (by simp only; omega) (lt_of_le_of_lt hsearch (by omega))⟩
    exact fun f h₁ h₂ => (isFrameRangeUsed_iff (by omega)).mp hused f h₁ h₂

end BareMetal
