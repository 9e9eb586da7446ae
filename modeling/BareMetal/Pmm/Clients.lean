import BareMetal.Pmm.MemoryMap
import BareMetal.Pmm.Requests

/-!
# The manager and its clients

The bitmap lies in the memory that the manager hands out frames of, so that a store of a client
could destroy it. It cannot if clients store to frames that they own: those are never frames of
a reserved region, and the bitmap is in one.

`clientMachine` interleaves the calls with such stores. Along every run the answers are those
that the calls alone would get, on any tier, and outside of the bitmap the memory is what the
stores make of it (`clients_isolated`). Both come from one relation: two managers are `Alike`
if they differ at most in the memory outside of the bitmap, and then they answer alike and stay
alike, whatever the tiers (`Alike.call`).
-/

namespace BareMetal

open Framework

/-! ### Alike managers -/

/-- The search for a byte with a clear bit reads the bytes of its range. -/
theorem findFreeByte_congr {m m' : ByteMem} {begin stop : ℕ}
    (h : ∀ x, begin ≤ x → x < stop → m' x = m x) :
    findFreeByte m' begin stop = findFreeByte m begin stop := by
  unfold findFreeByte
  generalize stop - begin = fuel
  induction fuel generalizing begin with
  | zero => rfl
  | succ fuel ih =>
    unfold findFreeByteLoop
    by_cases hlt : begin < stop
    · rw [if_pos hlt, if_pos hlt, h begin (le_refl _) hlt, ih fun x hx => h x (by omega)]
    · rw [if_neg hlt, if_neg hlt]

/-- The two managers have the same state, and the same bytes in the bitmap. -/
structure Alike (p q : Pmm) : Prop where
  layout : SameLayout p q
  used : q.usedFrames = p.usedFrames
  hint : q.bitmap.searchBegin = p.bitmap.searchBegin
  bytes : ∀ x, p.bitmap.start ≤ x → x < p.bitmap.end_ → q.mem x = p.mem x

section Alike

variable {p q p' q' : Pmm} (h : Alike p q) (hp : PmmInv p)

theorem Alike.refl (p : Pmm) : Alike p p := ⟨.refl p, rfl, rfl, fun _ _ _ => rfl⟩

theorem Alike.symm (h : Alike p q) : Alike q p where
  layout := ⟨h.layout.total.symm, h.layout.start.symm, h.layout.end_.symm, h.layout.reserved0.symm,
    h.layout.reserved1.symm⟩
  used := h.used.symm
  hint := h.hint.symm
  bytes x hx hx' := by
    rw [h.layout.start] at hx
    rw [h.layout.end_] at hx'
    exact (h.bytes x hx hx').symm

theorem Alike.trans {r : Pmm} (h : Alike p q) (h' : Alike q r) : Alike p r := by
  refine ⟨h.layout.trans h'.layout, h'.used.trans h.used, h'.hint.trans h.hint, ?_⟩
  intro x hx hx'
  rw [h'.bytes x (by rwa [h.layout.start]) (by rwa [h.layout.end_]), h.bytes x hx hx']

include h

/-- The same bits are written to both. -/
theorem Alike.rewritten {s n : ℕ} {b : Bool} (hr : Rewritten p p' s n b)
    (hr' : Rewritten q q' s n b) :
    SameLayout p' q' ∧ ∀ x, p'.bitmap.start ≤ x → x < p'.bitmap.end_ → q'.mem x = p'.mem x := by
  have hp' := hr.layout
  have hq' := hr'.layout
  have hl := h.layout
  refine ⟨⟨?_, ?_, ?_, ?_, ?_⟩, ?_⟩
  · rw [hq'.total, hl.total, hp'.total]
  · rw [hq'.start, hl.start, hp'.start]
  · rw [hq'.end_, hl.end_, hp'.end_]
  · rw [hq'.reserved0, hl.reserved0, hp'.reserved0]
  · rw [hq'.reserved1, hl.reserved1, hp'.reserved1]
  · intro x hx hx'
    rw [hp'.start] at hx
    rw [hp'.end_] at hx'
    apply BitVec.eq_of_getLsbD_eq
    intro i hi
    rw [← bitAt_byte _ _ hi, ← bitAt_byte _ _ hi, hr'.bits, hr.bits, hl.start, bitAt_byte _ _ hi,
      bitAt_byte _ _ hi, h.bytes x hx hx']

theorem Alike.cleared {s n : ℕ} (hc : Cleared p p' s n) (hc' : Cleared q q' s n) :
    Alike p' q' := by
  obtain ⟨hlayout, hbytes⟩ := h.rewritten hc.toRewritten hc'.toRewritten
  refine ⟨hlayout, ?_, ?_, hbytes⟩
  · rw [hc'.used_eq, hc.used_eq, h.used]
  · rw [hc'.hint, hc.hint, h.layout.start, h.hint]

include hp

/-- The bits of the frames are the same, those of the padding too. -/
theorem Alike.bitUsed_eq {f : ℕ} (hf : f < bitmapBits p) : bitUsed q f = bitUsed p f := by
  have hend := hp.end_eq
  unfold bitmapBits at hf
  unfold bitUsed bitAt
  rw [h.layout.start, h.bytes _ (by omega) (by omega)]

theorem Alike.inv : PmmInv q := by
  have hbits {f : ℕ} (hf : f < 8 * ((p.totalFrames + 7) / 8)) : bitUsed q f = bitUsed p f :=
    h.bitUsed_eq hp hf
  refine h.layout.inv hp (h.used ▸ hp.used_lt) (h.hint ▸ ⟨hp.start_le, hp.search_le⟩) ?_ ?_
  · intro f h₁ h₂
    rw [hbits h₂]
    exact hp.padding_used f h₁ h₂
  · intro f h₁ h₂
    rw [hbits (by omega)]
    exact hp.reserved_used f h₁ h₂

theorem Alike.marked {s n : ℕ} (hm : Marked p p' s n) (hm' : Marked q q' s n) : Alike p' q' := by
  obtain ⟨hlayout, hbytes⟩ := h.rewritten hm.toRewritten hm'.toRewritten
  refine ⟨hlayout, ?_, ?_, hbytes⟩
  · rw [hm'.used_eq, hm.used_eq, h.used]
  · have hend := hp.end_eq
    have hfits := hm.fits
    have hpos := hm.pos
    rw [hm'.hint, hm.hint, h.layout.start,
      hbytes _ (by rw [hm.layout.start]; omega) (by rw [hm.layout.end_]; omega)]

/-- One finds what the other finds. -/
theorem Alike.foundAt {n s : ℕ} (hs : FoundAt p n s) : FoundAt q n s := by
  have hbits : bitmapBits q = bitmapBits p := by
    unfold bitmapBits
    rw [h.layout.total]
  have hhint : hintFrame q = hintFrame p := by
    unfold hintFrame
    rw [h.hint, h.layout.start]
  have hle := hp.hintFrame_le
  -- the searches look at nothing but the frames' bits, the hint and the size
  have hfree : ∀ f, f < bitmapBits p → (frameFree p f ↔ frameFree q f) := by
    intro f hf
    unfold frameFree
    rw [h.bitUsed_eq hp hf]
  cases hs with
  | upper fit =>
    refine .upper ?_
    rw [hhint, hbits]
    exact fit.congr fun f _ hf => hfree f hf
  | lower none fit =>
    refine .lower ?_ ?_
    · rw [hhint, hbits]
      exact mt (hasRun_congr fun f _ hf => hfree f hf).mpr none
    · rw [hhint]
      exact fit.congr fun f _ hf => hfree f (hf.trans_le hle)

/-- An allocation of frames, on any tiers. -/
theorem Alike.allocateContiguous (tier tier' : Tier) (n : ℕ) :
    (pmmAllocateContiguousFrames tier' q n).1 = (pmmAllocateContiguousFrames tier p n).1 ∧
      Alike (pmmAllocateContiguousFrames tier p n).2 (pmmAllocateContiguousFrames tier' q n).2 := by
  have hq := h.inv hp
  rcases Nat.eq_zero_or_pos n with rfl | h₀
  · rw [allocateContiguous_zero, allocateContiguous_zero]
    exact ⟨rfl, h⟩
  rcases pmmAllocateContiguousFrames_spec hp tier n with ⟨hnone, heq, -⟩ | ⟨s, hsome, hat, hmark⟩
  · rcases pmmAllocateContiguousFrames_spec hq tier' n with ⟨hnone', heq', -⟩ | ⟨s, -, hat, -⟩
    · rw [heq, heq']
      exact ⟨hnone'.trans hnone.symm, h⟩
    · -- what the second one finds the first one finds too
      obtain ⟨hsome, -⟩ := (h.symm.foundAt hq hat).allocate hp tier h₀
      exact absurd (hnone.symm.trans hsome) (by simp)
  · obtain ⟨hsome', hmark'⟩ := (h.foundAt hp hat).allocate hq tier' h₀
    exact ⟨hsome'.trans hsome.symm, h.marked hp hmark hmark'⟩

/-- The byte in which a frame is found. -/
theorem Alike.freeBytePtr_eq : freeBytePtr q = freeBytePtr p := by
  have hstart := hp.start_le
  have hsearch := hp.search_le
  unfold freeBytePtr
  rw [h.hint, h.layout.start, h.layout.end_,
    findFreeByte_congr fun x hx hx' => h.bytes x (hstart.trans hx) hx',
    findFreeByte_congr fun x hx hx' => h.bytes x hx (hx'.trans_le hsearch)]

/-- An allocation of one frame. -/
theorem Alike.allocateFrame :
    (pmmAllocateFrame q).1 = (pmmAllocateFrame p).1 ∧
      Alike (pmmAllocateFrame p).2 (pmmAllocateFrame q).2 := by
  have hq := h.inv hp
  have hptr := h.freeBytePtr_eq hp
  rcases pmmAllocateFrame_spec hp with
    ⟨hnull, hnone, heq⟩ | ⟨byte, f, hbyte, hne, hf, hsome, hmark⟩
  · rcases pmmAllocateFrame_spec hq with ⟨-, hnone', heq'⟩ | ⟨-, -, -, hne', -⟩
    · rw [heq, heq']
      exact ⟨hnone'.trans hnone.symm, h⟩
    · exact absurd (hptr.trans hnull) hne'
  · rcases pmmAllocateFrame_spec hq with
      ⟨hnull', -, -⟩ | ⟨byte', f', hbyte', -, hf', hsome', hmark'⟩
    · exact absurd (hptr.symm.trans hnull') hne
    · -- the same byte, and the same bit of it
      obtain ⟨i, hi, hlt, -⟩ := freeBytePtr_mem hp hne
      have hend := hp.end_eq
      rw [hbyte', hbyte, h.layout.start] at hptr
      rw [hbyte] at hi
      obtain rfl : byte' = byte := Nat.add_left_cancel hptr
      obtain rfl : byte' = i := Nat.add_left_cancel hi
      rw [h.layout.start, h.bytes _ (Nat.le_add_right _ _) (by omega), ← hf] at hf'
      subst hf'
      exact ⟨hsome'.trans hsome.symm, h.marked hp hmark hmark'⟩

/-- A bit of a frame there is. -/
theorem Alike.bitUsed_of_lt {f : ℕ} (hf : f < p.totalFrames) : bitUsed q f = bitUsed p f :=
  h.bitUsed_eq hp (by unfold bitmapBits; omega)

theorem Alike.freeFrame_answer (address : ℕ) :
    (pmmFreeFrame q address).1 = (pmmFreeFrame p address).1 := by
  simp only [pmmFreeFrame, h.layout.total, h.layout.reserved0, h.layout.reserved1]
  generalize frameIndex address = index
  by_cases hrange : p.totalFrames ≤ index
  · rw [if_pos hrange, if_pos hrange]
  rw [if_neg hrange, if_neg hrange]
  split
  · rfl
  · rw [isFrameUsed_eq, isFrameUsed_eq, h.bitUsed_of_lt hp (Nat.not_le.mp hrange)]
    cases bitUsed p index <;> rfl

theorem Alike.freeContiguous_answer (tier tier' : Tier) (address n : ℕ) :
    (pmmFreeContiguousFrames tier' q address n).1
      = (pmmFreeContiguousFrames tier p address n).1 := by
  have htotal := hp.total_le
  simp only [pmmFreeContiguousFrames, h.layout.total, h.layout.reserved0, h.layout.reserved1]
  generalize frameIndex address = index
  by_cases h₀ : n = 0
  · rw [if_pos h₀, if_pos h₀]
  rw [if_neg h₀, if_neg h₀]
  by_cases hrange : p.totalFrames ≤ index ∨ usizeSub p.totalFrames index < n
  · rw [if_pos hrange, if_pos hrange]
  rw [if_neg hrange, if_neg hrange]
  rw [not_or, not_le] at hrange
  have hfits := hrange.2
  rw [usizeSub_of_le (le_of_lt hrange.1) (by omega)] at hfits
  -- the range check reads bits of frames there are
  have hused : isFrameRangeUsed q index (index + n) = isFrameRangeUsed p index (index + n) := by
    rw [Bool.eq_iff_iff, isFrameRangeUsed_iff (by omega), isFrameRangeUsed_iff (by omega)]
    refine forall_congr' fun f => forall_congr' fun _ => forall_congr' fun hf => ?_
    rw [h.bitUsed_of_lt hp (by omega)]
  split
  · rfl
  · rw [hused]
    cases isFrameRangeUsed p index (index + n) <;> rfl

/-- **Alike managers answer alike and stay alike**, on any tiers. -/
theorem Alike.call (tier tier' : Tier) (c : Call) :
    (call tier' q c).1 = (call tier p c).1 ∧ Alike (call tier p c).2 (call tier' q c).2 := by
  have hq := h.inv hp
  cases c with
  | allocateFrame =>
    obtain ⟨hanswer, halike⟩ := h.allocateFrame hp
    exact ⟨congrArg Answer.address hanswer, halike⟩
  | allocateContiguousFrames frames =>
    obtain ⟨hanswer, halike⟩ := h.allocateContiguous hp tier tier' frames.toNat
    exact ⟨congrArg Answer.address hanswer, halike⟩
  | freeFrame address =>
    have hanswer := h.freeFrame_answer hp address.toNat
    refine ⟨congrArg Answer.result hanswer, ?_⟩
    change Alike (pmmFreeFrame p address.toNat).2 (pmmFreeFrame q address.toNat).2
    -- both calls fail and change nothing, or both clear the same frame
    rcases pmmFreeFrame_spec hp address.isLt with ⟨hne, heq⟩ | ⟨hsuccess, hcleared⟩
    · rcases pmmFreeFrame_spec hq address.isLt with ⟨-, heq'⟩ | ⟨hsuccess', -⟩
      · rw [heq, heq']
        exact h
      · exact absurd (hanswer.symm.trans hsuccess') hne
    · rcases pmmFreeFrame_spec hq address.isLt with ⟨hne', -⟩ | ⟨-, hcleared'⟩
      · exact absurd (hanswer.trans hsuccess) hne'
      · exact h.cleared hcleared hcleared'
  | freeContiguousFrames address frames =>
    have hanswer := h.freeContiguous_answer hp tier tier' address.toNat frames.toNat
    refine ⟨congrArg Answer.result hanswer, ?_⟩
    change Alike (pmmFreeContiguousFrames tier p address.toNat frames.toNat).2
      (pmmFreeContiguousFrames tier' q address.toNat frames.toNat).2
    -- likewise for the frames of a range
    rcases pmmFreeContiguousFrames_spec hp tier address.isLt frames.toNat with
      ⟨hne, heq⟩ | ⟨hsuccess, hcleared⟩
    · rcases pmmFreeContiguousFrames_spec hq tier' address.isLt frames.toNat with
        ⟨-, heq'⟩ | ⟨hsuccess', -⟩
      · rw [heq, heq']
        exact h
      · exact absurd (hanswer.symm.trans hsuccess') hne
    · rcases pmmFreeContiguousFrames_spec hq tier' address.isLt frames.toNat with
        ⟨hne', -⟩ | ⟨-, hcleared'⟩
      · exact absurd (hanswer.trans hsuccess) hne'
      · exact h.cleared hcleared hcleared'

end Alike

/-- The tiers build alike managers. -/
theorem pmmInitialize_alike (tier tier' : Tier) (mem : ByteMem) (map : List E820Entry)
    {kernelStart kernelEnd : ℕ} (hkernel : kernelStart ≤ kernelEnd)
    (hend : kernelEnd + (totalFramesOf map + 7) / 8 + 4095 < 2 ^ 32) :
    Alike (pmmInitialize tier mem map kernelStart kernelEnd)
      (pmmInitialize tier' mem map kernelStart kernelEnd) := by
  obtain ⟨hinv, hlayout, hhint, hbits⟩ := pmmInitialize_spec tier mem hkernel hend
  obtain ⟨hinv', hlayout', hhint', hbits'⟩ := pmmInitialize_spec tier' mem hkernel hend
  have hstart : (pmmInitialize tier mem map kernelStart kernelEnd).bitmap.start = kernelEnd :=
    hlayout.start
  have hlast := hinv.end_eq
  have htotal : (pmmInitialize tier mem map kernelStart kernelEnd).totalFrames = totalFramesOf map :=
    hlayout.total
  have hsame : SameLayout (pmmInitialize tier mem map kernelStart kernelEnd)
      (pmmInitialize tier' mem map kernelStart kernelEnd) :=
    ⟨hlayout'.total.trans hlayout.total.symm, hlayout'.start.trans hlayout.start.symm,
      hlayout'.end_.trans hlayout.end_.symm, hlayout'.reserved0.trans hlayout.reserved0.symm,
      hlayout'.reserved1.trans hlayout.reserved1.symm⟩
  refine ⟨hsame, ?_, hhint'.trans hhint.symm, ?_⟩
  · -- the counters lose the same number, and are words
    have hused := freeEntries_usedFrames tier map (initialBitmap_inv tier mem hkernel hend).1
    have hused' := freeEntries_usedFrames tier' map (initialBitmap_inv tier' mem hkernel hend).1
    have hlt := hinv.used_lt
    have hlt' := hinv'.used_lt
    have hcongr := Nat.ModEq.add_right_cancel' _ (hused'.trans hused.symm)
    exact Nat.ModEq.eq_of_lt_of_lt hcongr hlt' hlt
  · -- a bit is that of a frame, or padding
    intro x hx hx'
    apply BitVec.eq_of_getLsbD_eq
    intro i hi
    rw [hstart] at hx
    obtain ⟨byte, rfl⟩ := Nat.exists_eq_add_of_le hx
    have hbyte := bitUsed_byte (pmmInitialize tier mem map kernelStart kernelEnd) byte hi
    have hbyte' := bitUsed_byte (pmmInitialize tier' mem map kernelStart kernelEnd) byte hi
    rw [hsame.start] at hbyte'
    rw [hstart] at hbyte hbyte'
    rw [← hbyte, ← hbyte']
    by_cases hf : 8 * byte + i < totalFramesOf map
    · rw [Bool.eq_iff_iff, hbits _ hf, hbits' _ hf]
      exact Iff.rfl
    · have hpad := hinv.padding_used (8 * byte + i) (by omega) (by omega)
      have hpad' := hinv'.padding_used (8 * byte + i) (by rw [hsame.total]; omega)
        (by rw [hsame.total]; omega)
      rw [hpad, hpad']

/-! ### Outside of the bitmap -/

/-- From `p` to `r` the memory outside of the bitmap has not changed. -/
structure SameOutside (p r : Pmm) : Prop where
  layout : SameLayout p r
  mem : ∀ x, x < p.bitmap.start ∨ p.bitmap.end_ ≤ x → r.mem x = p.mem x

theorem SameOutside.refl (p : Pmm) : SameOutside p p := ⟨.refl p, fun _ _ => rfl⟩

theorem SameOutside.trans {p q r : Pmm} (h : SameOutside p q) (h' : SameOutside q r) :
    SameOutside p r := by
  refine ⟨h.layout.trans h'.layout, ?_⟩
  intro x hx
  rw [h'.mem x (by rwa [h.layout.start, h.layout.end_]), h.mem x hx]

/-- Bits of frames are bits of the bitmap. -/
theorem mem_eq_of_bitsWritten {p : Pmm} (hp : PmmInv p) {m : ByteMem} {s e : ℕ} {b : Bool}
    (h : BitsWritten p.mem m (8 * p.bitmap.start + s) (8 * p.bitmap.start + e) b)
    (he : e ≤ p.totalFrames) {x : ℕ} (hx : x < p.bitmap.start ∨ p.bitmap.end_ ≤ x) :
    m x = p.mem x := by
  have hend := hp.end_eq
  apply BitVec.eq_of_getLsbD_eq
  intro i hi
  rw [← bitAt_byte _ _ hi, ← bitAt_byte _ _ hi, h.outside (by omega)]

/-- A call changes nothing but the bitmap. -/
theorem CallEffect.sameOutside {p p' : Pmm} (hp : PmmInv p) {e : Call × Answer}
    (h : CallEffect p e p') : SameOutside p p' := by
  refine ⟨h.layout, ?_⟩
  intro x hx
  cases h with
  | idle eq => rw [eq]
  | marked s _ effect => exact mem_eq_of_bitsWritten hp effect.bits effect.fits hx
  | cleared s _ effect => exact mem_eq_of_bitsWritten hp effect.bits effect.fits hx

/-- Freeing the frames of a piece changes nothing but the bitmap. -/
theorem SameOutside.piece {p r : Pmm} (tier : Tier) (hp : PmmInv p) (h : SameOutside p r) {s e : ℕ}
    (he : e ≤ p.totalFrames) :
    SameOutside p (if s < e then freeFrameRange tier r s e else r) := by
  have hend := hp.end_eq
  have hend_lt := hp.end_lt
  have htotal := hp.total_le
  split
  · next hse =>
    obtain ⟨m, hbits, heq⟩ := freeFrameRange_spec tier r hse (by omega)
      (by rw [h.layout.start]; omega)
    rw [heq]
    refine ⟨h.layout.trans ⟨rfl, rfl, rfl, rfl, rfl⟩, ?_⟩
    intro x hx
    rw [← h.mem x hx]
    rw [h.layout.start] at hbits
    apply BitVec.eq_of_getLsbD_eq
    intro i hi
    rw [← bitAt_byte _ _ hi, ← bitAt_byte _ _ hi, hbits.outside (by omega)]
  · exact h

theorem SameOutside.freeEntry {p r : Pmm} (tier : Tier) (hp : PmmInv p) (h : SameOutside p r)
    (entry : E820Entry) : SameOutside p (freeEntry tier r entry) := by
  have hle : (entryFrames r.totalFrames entry).2 ≤ p.totalFrames := by
    rw [h.layout.total]
    exact entryFrames_le _ _
  unfold BareMetal.freeEntry
  split
  · generalize entryFrames r.totalFrames entry = frames at hle
    obtain ⟨startFrame, endFrame⟩ := frames
    simp only
    split
    · exact SameOutside.piece tier hp (SameOutside.piece tier hp (SameOutside.piece tier hp h
        ((Nat.min_le_right _ _).trans hle)) ((Nat.min_le_right _ _).trans hle)) hle
    · exact h
  · exact h

/-- `pmm_initialize` writes nothing but the bitmap. -/
theorem pmmInitialize_outside (tier : Tier) (mem : ByteMem) (map : List E820Entry)
    {kernelStart kernelEnd : ℕ} (hkernel : kernelStart ≤ kernelEnd)
    (hend : kernelEnd + (totalFramesOf map + 7) / 8 + 4095 < 2 ^ 32) {x : ℕ}
    (hx : x < (pmmInitialize tier mem map kernelStart kernelEnd).bitmap.start ∨
      (pmmInitialize tier mem map kernelStart kernelEnd).bitmap.end_ ≤ x) :
    (pmmInitialize tier mem map kernelStart kernelEnd).mem x = mem x := by
  obtain ⟨hinv, -⟩ := initialBitmap_inv tier mem hkernel hend
  have hentries (entries : List E820Entry) {r : Pmm}
      (h : SameOutside (initialBitmap tier mem map kernelStart kernelEnd) r) :
      SameOutside (initialBitmap tier mem map kernelStart kernelEnd)
        (entries.foldl (freeEntry tier) r) := by
    induction entries generalizing r with
    | nil => exact h
    | cons entry entries ih => exact ih (h.freeEntry tier hinv entry)
  have houtside : SameOutside (initialBitmap tier mem map kernelStart kernelEnd)
      (pmmInitialize tier mem map kernelStart kernelEnd) := hentries map (.refl _)
  rw [houtside.layout.start, houtside.layout.end_] at hx
  rw [houtside.mem x hx]
  -- the fill of the bitmap
  have hlast : (initialBitmap tier mem map kernelStart kernelEnd).bitmap.end_
      = kernelEnd + (totalFramesOf map + 7) / 8 := initialBitmap_end tier mem hend
  have hfill := setRange_mem (show kernelEnd ≤ (initialBitmap tier mem map kernelStart
    kernelEnd).bitmap.end_ by omega) (by omega) .allOnes mem tier
  change (setRange tier .allOnes mem kernelEnd (initialBitmap tier mem map kernelStart
    kernelEnd).bitmap.end_).mem x = _
  rw [hfill]
  exact overlay_outside hx

/-! ### Clients -/

/-- A client calls the manager, or stores a byte. -/
inductive ClientStep where
  | call (c : Call)
  | store (address : ℕ) (value : BitVec 8)

/-- The manager, and the frames that the clients own. -/
structure Clients where
  pmm : Pmm
  owned : ℕ → Prop

/-- The manager with its clients, which store to frames that they own. -/
def clientMachine (tier : Tier) : Machine Clients ClientStep (Option Answer) where
  step s
    | .call c =>
      let r := call tier s.pmm c
      (some r.1, ⟨r.2, ownedAfter s.owned (c, r.1)⟩)
    | .store address value =>
      (none, { s with pmm := { s.pmm with mem := setByte s.pmm.mem address value } })
  enabled s
    | .call _ => True
    | .store address _ => s.owned (address / 4096)

/-- The call of an event. -/
def callOf : ClientStep × Option Answer → Option (Call × Answer)
  | (.call c, some a) => some (c, a)
  | _ => none

/-- The memory after the store of an event. -/
def storeOf (m : ByteMem) : ClientStep × Option Answer → ByteMem
  | (.store address value, _) => setByte m address value
  | (.call _, _) => m

/-- A byte after the stores depends on that byte before them. -/
theorem storesOf_congr (h : List (ClientStep × Option Answer)) {m m' : ByteMem} {x : ℕ}
    (hx : m x = m' x) : h.foldl storeOf m x = h.foldl storeOf m' x := by
  induction h generalizing m m' with
  | nil => exact hx
  | cons e h ih =>
    refine ih ?_
    obtain ⟨l, o⟩ := e
    cases l with
    | call c => exact hx
    | store address value =>
      change setByte m address value x = setByte m' address value x
      unfold setByte
      rw [hx]

/-- What holds along a run: the bitmap is in a reserved region, owned frames are in none, and
outside of the bitmap the memory is that of the stores. -/
structure ClientInv (p₀ : Pmm) (h : List (ClientStep × Option Answer)) (s : Clients) : Prop where
  inv : PmmInv s.pmm
  layout : SameLayout p₀ s.pmm
  owned : ∀ f, s.owned f → ¬ Reserved p₀ f
  owned_iff : ∀ f, s.owned f ↔ Owned (h.filterMap callOf) f
  mem : ∀ x, x < p₀.bitmap.start ∨ p₀.bitmap.end_ ≤ x → s.pmm.mem x = h.foldl storeOf p₀.mem x

section Clients

variable {p₀ : Pmm} {h : List (ClientStep × Option Answer)} {s : Clients}

/-- Frames that are granted are in no reserved region. -/
theorem CallEffect.not_reserved {p p' : Pmm} (hp : PmmInv p) {e : Call × Answer}
    (heff : CallEffect p e p') {f : ℕ} (hg : Grants e f) : ¬ Reserved p f := by
  intro hres
  have hclear := heff.clear_of_grants hg
  cases heff with
  | idle _ answer => exact not_grants answer f hg
  | cleared s answer => exact not_grants (by rw [answer]; simp) f hg
  | marked s answer effect =>
    rw [grants_iff answer] at hg
    have hfits := effect.fits
    rw [hp.reserved_used f hres (by omega)] at hclear
    exact absurd hclear (by decide)

theorem ClientInv.call (hi : ClientInv p₀ h s) (tier : Tier) (c : Call) :
    ClientInv p₀ (h ++ [(.call c, ((clientMachine tier).step s (.call c)).1)])
      ((clientMachine tier).step s (.call c)).2 := by
  have heff := call_cases tier hi.inv c
  have houtside := heff.sameOutside hi.inv
  refine ⟨heff.inv hi.inv, hi.layout.trans heff.layout, ?_, ?_, ?_⟩
  · rintro f (hg | ⟨hf, -⟩)
    · rw [← hi.layout.reserved_iff]
      exact heff.not_reserved hi.inv hg
    · exact hi.owned f hf
  -- who owns a frame is told by the answers, which the history has
  · intro f
    rw [List.filterMap_append]
    change ownedAfter s.owned _ f ↔
      Owned (h.filterMap callOf ++ [(c, (BareMetal.call tier s.pmm c).1)]) f
    rw [owned_snoc, ← hi.owned_iff]
    rfl
  -- outside of the bitmap a call writes nothing
  · intro x hx
    rw [List.foldl_append]
    change (BareMetal.call tier s.pmm c).2.mem x = h.foldl storeOf p₀.mem x
    rw [houtside.mem x (by rwa [hi.layout.start, hi.layout.end_]), hi.mem x hx]

/-- The byte of an owned frame is not one of the bitmap. -/
theorem ClientInv.outside (hi : ClientInv p₀ h s)
    (hbitmap : ∀ x, p₀.bitmap.start ≤ x → x < p₀.bitmap.end_ → Reserved p₀ (x / 4096)) {x : ℕ}
    (hx : s.owned (x / 4096)) : x < p₀.bitmap.start ∨ p₀.bitmap.end_ ≤ x := by
  by_contra hin
  rw [not_or, not_lt, not_le] at hin
  exact hi.owned _ hx (hbitmap x hin.1 hin.2)

/-- The manager does not notice a store outside of the bitmap. -/
theorem alike_setByte (p : Pmm) {x : ℕ} (hx : x < p.bitmap.start ∨ p.bitmap.end_ ≤ x)
    (value : BitVec 8) : Alike p { p with mem := setByte p.mem x value } :=
  ⟨⟨rfl, rfl, rfl, rfl, rfl⟩, rfl, rfl, fun _ h₁ h₂ => if_neg (by omega)⟩

theorem ClientInv.store (hi : ClientInv p₀ h s)
    (hbitmap : ∀ x, p₀.bitmap.start ≤ x → x < p₀.bitmap.end_ → Reserved p₀ (x / 4096)) (tier : Tier)
    {x : ℕ} (hx : s.owned (x / 4096)) (value : BitVec 8) :
    ClientInv p₀ (h ++ [(.store x value, none)])
      ((clientMachine tier).step s (.store x value)).2 := by
  have hout : x < s.pmm.bitmap.start ∨ s.pmm.bitmap.end_ ≤ x := by
    rw [hi.layout.start, hi.layout.end_]
    exact hi.outside hbitmap hx
  refine ⟨(alike_setByte s.pmm hout value).inv hi.inv, hi.layout.trans ⟨rfl, rfl, rfl, rfl, rfl⟩,
    hi.owned, ?_, ?_⟩
  -- a store is not a call, so it changes no owner
  · intro f
    rw [List.filterMap_append]
    change s.owned f ↔ Owned (h.filterMap callOf ++ []) f
    rw [List.append_nil]
    exact hi.owned_iff f
  -- the stores of the history are made in their order
  · intro y hy
    rw [List.foldl_append]
    change setByte s.pmm.mem x value y = setByte (h.foldl storeOf p₀.mem) x value y
    unfold setByte
    rw [hi.mem y hy]

end Clients

/-- The bitmap is in the second reserved region. -/
theorem bitmap_reserved (tier : Tier) (mem : ByteMem) (map : List E820Entry)
    {kernelStart kernelEnd : ℕ} (hkernel : kernelStart ≤ kernelEnd)
    (hend : kernelEnd + (totalFramesOf map + 7) / 8 + 4095 < 2 ^ 32) {x : ℕ}
    (hx : (pmmInitialize tier mem map kernelStart kernelEnd).bitmap.start ≤ x)
    (hx' : x < (pmmInitialize tier mem map kernelStart kernelEnd).bitmap.end_) :
    Reserved (pmmInitialize tier mem map kernelStart kernelEnd) (x / 4096) := by
  obtain ⟨-, hlayout, -⟩ := pmmInitialize_spec tier mem hkernel hend
  rw [hlayout.reserved_iff, initialBitmap_reserved_iff tier mem hkernel hend]
  rw [hlayout.start] at hx
  rw [hlayout.end_, initialBitmap_end tier mem hend] at hx'
  change kernelEnd ≤ x at hx
  omega

/-- **Clients do not disturb the manager, nor the manager its clients.** In every run of calls
and of stores to owned frames, the answers are those of a run of the calls alone, on any tier,
and the manager is in the same state. Outside of the bitmap the memory is that before
initialization with the stores: so a client reads back what it has stored, and the kernel is as
it was. -/
theorem clients_isolated (tier tier' : Tier) (mem : ByteMem) (map : List E820Entry)
    {kernelStart kernelEnd : ℕ} (hkernel : kernelStart ≤ kernelEnd)
    (hend : kernelEnd + (totalFramesOf map + 7) / 8 < 2 ^ 32 - 4096)
    {h : List (ClientStep × Option Answer)} {s : Clients}
    (hrun : (clientMachine tier).Run
      ⟨pmmInitialize tier mem map kernelStart kernelEnd, fun _ => False⟩ h s) :
    (∃ q, (pmmMachine tier').Run (pmmInitialize tier' mem map kernelStart kernelEnd)
      (h.filterMap callOf) q ∧ Alike s.pmm q) ∧
      (∀ f, s.owned f ↔ Owned (h.filterMap callOf) f) ∧
      ∀ x, x < s.pmm.bitmap.start ∨ s.pmm.bitmap.end_ ≤ x →
        s.pmm.mem x = h.foldl storeOf mem x := by
  have hend' : kernelEnd + (totalFramesOf map + 7) / 8 + 4095 < 2 ^ 32 := by omega
  obtain ⟨hinit, -⟩ := pmmInitialize_spec tier mem hkernel hend'
  set p₀ := pmmInitialize tier mem map kernelStart kernelEnd with hp₀
  have hbitmap : ∀ x, p₀.bitmap.start ≤ x → x < p₀.bitmap.end_ → Reserved p₀ (x / 4096) :=
    fun x => bitmap_reserved tier mem map hkernel hend'
  -- the invariant, and the run of the calls
  have hinv : ClientInv p₀ h s ∧ ∃ q, (pmmMachine tier').Run
      (pmmInitialize tier' mem map kernelStart kernelEnd) (h.filterMap callOf) q ∧
        Alike s.pmm q := by
    refine hrun.invariant (P := fun h s => ClientInv p₀ h s ∧ ∃ q, (pmmMachine tier').Run
      (pmmInitialize tier' mem map kernelStart kernelEnd) (h.filterMap callOf) q ∧
        Alike s.pmm q) ?_ ?_
    · exact ⟨⟨hinit, .refl p₀, fun _ hf => False.elim hf, fun _ => Iff.rfl, fun _ _ => rfl⟩,
        _, .nil, pmmInitialize_alike tier tier' mem map hkernel hend'⟩
    intro h s l ⟨hi, q, hq, halike⟩ hen
    cases l with
    | call c =>
      obtain ⟨hanswer, halike'⟩ := halike.call hi.inv tier tier' c
      refine ⟨hi.call tier c, _, ?_, halike'⟩
      rw [List.filterMap_append]
      have hstep := Machine.Run.snoc (m := pmmMachine tier') c hq trivial
      rw [show ((pmmMachine tier').step q c).1 = (call tier s.pmm c).1 from hanswer] at hstep
      exact hstep
    | store x value =>
      have hout : x < s.pmm.bitmap.start ∨ s.pmm.bitmap.end_ ≤ x := by
        rw [hi.layout.start, hi.layout.end_]
        exact hi.outside hbitmap hen
      refine ⟨hi.store hbitmap tier hen value, q, ?_, ?_⟩
      · rw [List.filterMap_append]
        change (pmmMachine tier').Run _ (h.filterMap callOf ++ []) q
        rw [List.append_nil]
        exact hq
      · exact (alike_setByte s.pmm hout value).symm.trans halike
  obtain ⟨hinv, hcalls⟩ := hinv
  refine ⟨hcalls, hinv.owned_iff, ?_⟩
  intro x hx
  rw [hinv.layout.start, hinv.layout.end_] at hx
  rw [hinv.mem x hx]
  exact storesOf_congr h (pmmInitialize_outside tier mem map hkernel hend' hx)

/-- A client stores to a frame that it gets, and calls again. -/
theorem run_store {tier : Tier} (s : Clients) {c c' : Call} {x : ℕ}
    (hgrants : Grants (c, (call tier s.pmm c).1) (x / 4096)) (value : BitVec 8) :
    ∃ h, (clientMachine tier).Run s h
      ((clientMachine tier).step ((clientMachine tier).step
        ((clientMachine tier).step s (.call c)).2 (.store x value)).2 (.call c')).2 ∧
      ∀ m, h.foldl storeOf m = setByte m x value := by
  let m := clientMachine tier
  have h₁ := Machine.Run.snoc (m := m) (ClientStep.call c) (@Machine.Run.nil _ _ _ m s) trivial
  have h₂ := Machine.Run.snoc (m := m) (ClientStep.store x value) h₁ (Or.inl hgrants)
  exact ⟨_, Machine.Run.snoc (m := m) (ClientStep.call c') h₂ trivial, fun _ => rfl⟩

/-- The byte is there after the other call. -/
theorem clients_isolated_holeMap :
    let p₀ := pmmInitialize .gpr (fun _ => 0) holeMap 0x1000 0x1000
    let m := clientMachine .gpr
    let s := (m.step (m.step (m.step ⟨p₀, fun _ => False⟩ (.call .allocateFrame)).2
      (.store 0x3000 0x41)).2 (.call .allocateFrame)).2
    s.pmm.mem 0x3000 = 0x41 := by
  intro p₀ m s
  obtain ⟨h, hrun, hstores⟩ := @run_store .gpr ⟨p₀, fun _ => False⟩ .allocateFrame .allocateFrame
    0x3000 (by decide +kernel) 0x41
  obtain ⟨-, -, hmem⟩ := @clients_isolated .gpr .avx2 (fun _ => 0) holeMap 0x1000 0x1000
    (by decide) (by decide +kernel) h s hrun
  have hout : s.pmm.bitmap.end_ ≤ 0x3000 := by decide +kernel
  rw [hmem 0x3000 (.inr hout), hstores]
  exact if_pos rfl

end BareMetal
