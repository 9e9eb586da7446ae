import BareMetal.Pmm.Calls
import Mathlib.Order.Interval.Finset.Nat

/-!
# Initialization

`pmmInitialize` starts with every frame used and frees, entry by entry, the frames
that a usable e820 entry wholly contains, less the reserved regions. Each step
clears a finite set of frames and takes its size off the counter (`Released`), so
the final bitmap is read off the sets (`pmmInitialize_bitUsed`), whatever the
entries are, in any order and overlapping or not. The counter is only right if no
frame is cleared twice, which is where `Accounting` needs the entries disjoint.
-/

namespace BareMetal

open Framework

/-- Clearing the bits of a set of frames, with the counter lowered by its size. -/
structure Released (p p' : Pmm) (S : Finset ℕ) : Prop where
  layout : SameLayout p p'
  hint_eq : p'.bitmap.searchBegin = p.bitmap.searchBegin
  bits : ∀ f, bitUsed p' f = if f ∈ S then false else bitUsed p f
  used_eq : p'.usedFrames = usizeSub p.usedFrames S.card

theorem SameLayout.refl (p : Pmm) : SameLayout p p := ⟨rfl, rfl, rfl, rfl, rfl⟩

theorem SameLayout.trans {p p' p'' : Pmm} (h : SameLayout p p') (h' : SameLayout p' p'') :
    SameLayout p p'' :=
  ⟨h'.total.trans h.total, h'.start.trans h.start, h'.end_.trans h.end_,
    h'.reserved0.trans h.reserved0, h'.reserved1.trans h.reserved1⟩

instance (p : Pmm) (f : ℕ) : Decidable (Reserved p f) :=
  inferInstanceAs (Decidable (∃ r ∈ [p.reserved0, p.reserved1], _))

section Released

variable {p p' p'' : Pmm} {S T : Finset ℕ}

/-- Two disjoint releases are one. -/
theorem Released.union (h : Released p p' S) (h' : Released p' p'' T) (hdisj : Disjoint S T)
    (hsize : S.card + T.card ≤ 2 ^ 32) : Released p p'' (S ∪ T) := by
  refine ⟨h.layout.trans h'.layout, h'.hint_eq.trans h.hint_eq, ?_, ?_⟩
  · intro f
    rw [h'.bits, h.bits]
    by_cases hT : f ∈ T
    · rw [if_pos hT, if_pos (Finset.mem_union_right S hT)]
    · rw [if_neg hT]
      exact if_congr (by simp [hT]) rfl rfl
  · rw [h'.used_eq, h.used_eq, Finset.card_union_of_disjoint hdisj]
    unfold usizeSub
    omega

/-- Releasing frames outside the reserved regions keeps the invariant. -/
theorem Released.inv (h : Released p p' S) (hp : PmmInv p)
    (hS : ∀ f ∈ S, f < p.totalFrames ∧ ¬ Reserved p f) : PmmInv p' := by
  have hhint : p.bitmap.start ≤ p'.bitmap.searchBegin ∧ p'.bitmap.searchBegin ≤ p.bitmap.end_ := by
    rw [h.hint_eq]
    exact ⟨hp.start_le, hp.search_le⟩
  refine h.layout.inv hp (h.used_eq ▸ usizeSub_lt _ _) hhint ?_ ?_
  · intro f h₁ h₂
    rw [h.bits, if_neg fun hf => by have := (hS f hf).1; omega]
    exact hp.padding_used f h₁ h₂
  · intro f h₁ h₂
    rw [h.bits, if_neg fun hf => (hS f hf).2 h₁]
    exact hp.reserved_used f h₁ h₂

theorem released_empty (hp : PmmInv p) : Released p p ∅ := by
  refine ⟨SameLayout.refl p, rfl, fun f => (if_neg (Finset.notMem_empty f)).symm, ?_⟩
  rw [Finset.card_empty, usizeSub_of_le (Nat.zero_le _) hp.used_lt, Nat.sub_zero]

/-- A piece of an entry, empty or not, is released. -/
theorem released_piece (tier : Tier) (hp : PmmInv p) {s e : ℕ} (he : e ≤ p.totalFrames) :
    Released p (if s < e then freeFrameRange tier p s e else p) (Finset.Ico s e) := by
  have hend := hp.end_eq
  have hendlt := hp.end_lt
  have htotal := hp.total_le
  by_cases hse : s < e
  -- the range is cut to the frames there are, so the bitmap has all its bits
  · rw [if_pos hse]
    obtain ⟨m, hbits, heq⟩ := freeFrameRange_spec tier p hse (by omega) (by omega)
    rw [heq]
    refine ⟨⟨rfl, rfl, rfl, rfl, rfl⟩, rfl, ?_, ?_⟩
    · intro f
      unfold bitUsed
      simp only
      rw [hbits]
      exact if_congr (by rw [Finset.mem_Ico]; omega) rfl rfl
    · rw [Nat.card_Ico]
  · rw [if_neg hse, Finset.Ico_eq_empty (by omega)]
    exact released_empty hp

end Released

/-! ### One entry -/

/-- The frames an entry releases. -/
def entrySet (p : Pmm) (entry : E820Entry) : Finset ℕ :=
  if entry.type = .usable then
    (Finset.Ico (entryFrames p.totalFrames entry).1 (entryFrames p.totalFrames entry).2).filter
      fun f => ¬ Reserved p f
  else ∅

theorem mem_entrySet {p : Pmm} {entry : E820Entry} {f : ℕ} :
    f ∈ entrySet p entry ↔ entry.type = .usable ∧ (entryFrames p.totalFrames entry).1 ≤ f ∧
      f < (entryFrames p.totalFrames entry).2 ∧ ¬ Reserved p f := by
  unfold entrySet
  by_cases h : entry.type = .usable
  · rw [if_pos h, Finset.mem_filter, Finset.mem_Ico]
    tauto
  · rw [if_neg h]
    simp [h]

theorem entryFrames_le (total : ℕ) (entry : E820Entry) : (entryFrames total entry).2 ≤ total :=
  Nat.min_le_right _ _

theorem lt_total_of_mem_entrySet {p : Pmm} {entry : E820Entry} {f : ℕ}
    (h : f ∈ entrySet p entry) : f < p.totalFrames :=
  lt_of_lt_of_le (mem_entrySet.mp h).2.2.1 (entryFrames_le _ _)

/-- **One entry is released**: the piece below the second reserved region and the
piece above it. -/
theorem freeEntry_spec (tier : Tier) {p : Pmm} (hp : PmmInv p) (entry : E820Entry) :
    Released p (freeEntry tier p entry) (entrySet p entry) := by
  have htotal := hp.total_le
  have hres1 := hp.reserved_le
  unfold freeEntry entrySet
  by_cases htype : entry.type = .usable
  swap
  · rw [if_neg htype, if_neg htype]
    exact released_empty hp
  rw [if_pos htype, if_pos htype]
  have hle := entryFrames_le p.totalFrames entry
  generalize entryFrames p.totalFrames entry = r at hle
  obtain ⟨s, e⟩ := r
  simp only at hle ⊢
  by_cases hse : s < e
  swap
  · rw [if_neg hse, Finset.Ico_eq_empty (by omega), Finset.filter_empty]
    exact released_empty hp
  rw [if_pos hse]
  -- the first region starts at frame 0, so the loop frees nothing before it
  have hfirst : freePiece tier e (p, s) p.reserved0 = (p, max s 1) := by
    unfold freePiece
    rw [hp.first_reserved]
    simp only
    rw [if_neg (by omega)]
    rfl
  have hrunner : usize (p.reserved1.base + p.reserved1.length)
      = p.reserved1.base + p.reserved1.length := usize_of_lt (by omega)
  simp only [List.foldl_cons, List.foldl_nil, hfirst]
  simp only [freePiece, hrunner]
  have hlower := released_piece tier hp (s := max s 1) (e := min p.reserved1.base e) (by omega)
  set q := if max s 1 < min p.reserved1.base e
    then freeFrameRange tier p (max s 1) (min p.reserved1.base e) else p
  -- the two regions, written out
  have hreserved : ∀ f, Reserved p f ↔
      f = 0 ∨ (p.reserved1.base ≤ f ∧ f < p.reserved1.base + p.reserved1.length) := by
    intro f
    unfold Reserved
    rw [hp.first_reserved]
    simp
  -- the piece below the region keeps the invariant, so the other may follow
  have hq : PmmInv q := hlower.inv hp fun f hf => by
    rw [Finset.mem_Ico] at hf
    rw [hreserved]
    omega
  have hupper := released_piece tier hq
    (s := max (max s 1) (p.reserved1.base + p.reserved1.length)) (e := e)
    (by rw [hlower.layout.total]; exact hle)
  -- the unreserved frames of the entry are the two pieces
  have hset : (Finset.Ico s e).filter (fun f => ¬ Reserved p f)
      = Finset.Ico (max s 1) (min p.reserved1.base e) ∪
        Finset.Ico (max (max s 1) (p.reserved1.base + p.reserved1.length)) e := by
    ext f
    rw [Finset.mem_filter, Finset.mem_union, Finset.mem_Ico, Finset.mem_Ico, Finset.mem_Ico,
      hreserved]
    omega
  rw [hset]
  refine hlower.union hupper ?_ (by rw [Nat.card_Ico, Nat.card_Ico]; omega)
  apply Finset.disjoint_left.mpr
  intro f h₁ h₂
  rw [Finset.mem_Ico] at h₁ h₂
  omega

/-! ### The whole map -/

theorem SameLayout.entrySet_eq {p p' : Pmm} (h : SameLayout p p') (entry : E820Entry) :
    entrySet p' entry = entrySet p entry := by
  ext f
  rw [mem_entrySet, mem_entrySet, h.total, h.reserved_iff]

/-- The second loop of `pmm_initialize`. -/
theorem freeEntries_spec (tier : Tier) (map : List E820Entry) {p : Pmm} (hp : PmmInv p) :
    PmmInv (map.foldl (freeEntry tier) p) ∧ SameLayout p (map.foldl (freeEntry tier) p) ∧
      (map.foldl (freeEntry tier) p).bitmap.searchBegin = p.bitmap.searchBegin ∧
      ∀ f, bitUsed (map.foldl (freeEntry tier) p) f = true ↔
        bitUsed p f = true ∧ ∀ entry ∈ map, f ∉ entrySet p entry := by
  induction map generalizing p with
  | nil => exact ⟨hp, SameLayout.refl p, rfl, fun f => by simp⟩
  | cons entry map ih =>
    have hstep := freeEntry_spec tier hp entry
    have hp' : PmmInv (freeEntry tier p entry) := hstep.inv hp fun f hf =>
      ⟨lt_total_of_mem_entrySet hf, (mem_entrySet.mp hf).2.2.2⟩
    obtain ⟨hinv, hlayout, hhint, hbits⟩ := ih hp'
    refine ⟨hinv, hstep.layout.trans hlayout, hhint.trans hstep.hint_eq, ?_⟩
    intro f
    rw [List.foldl_cons, hbits, hstep.bits]
    simp only [hstep.layout.entrySet_eq, List.forall_mem_cons]
    -- the entry's own frames are clear from here on
    by_cases hf : f ∈ entrySet p entry
    · simp [hf]
    · simp [hf]

theorem totalFramesOf_le (map : List E820Entry) : totalFramesOf map ≤ 2 ^ 20 :=
  Nat.min_le_right _ _

section Initialize

variable (tier : Tier) (mem : ByteMem) {map : List E820Entry} {kernelStart kernelEnd : ℕ}
  (hkernel : kernelStart ≤ kernelEnd)
  (hend : kernelEnd + (totalFramesOf map + 7) / 8 + 4095 < 2 ^ 32)

include hend

/-- The end of the bitmap, which is the end of the second reserved region too. -/
theorem initialBitmap_end : (initialBitmap tier mem map kernelStart kernelEnd).bitmap.end_
    = kernelEnd + (totalFramesOf map + 7) / 8 := by
  simp only [initialBitmap, bitmapIndex_eq]
  exact usize_of_lt (by omega)

include hkernel

theorem initialBitmap_reserved : (initialBitmap tier mem map kernelStart kernelEnd).reserved1
    = ⟨kernelStart / 4096,
      (kernelEnd + (totalFramesOf map + 7) / 8 + 4095) / 4096 - kernelStart / 4096⟩ := by
  have hlast : (initialBitmap tier mem map kernelStart kernelEnd).bitmap.end_
      = kernelEnd + (totalFramesOf map + 7) / 8 := initialBitmap_end tier mem hend
  simp only [initialBitmap, frameIndex_eq] at hlast ⊢
  rw [hlast]
  unfold frameSize
  rw [usize_of_lt (by omega), usizeSub_of_le (Nat.div_le_div_right (by omega)) (by omega)]

/-- Before the second loop every bit is set and the invariant holds. -/
theorem initialBitmap_inv : PmmInv (initialBitmap tier mem map kernelStart kernelEnd) ∧
    ∀ f < 8 * ((totalFramesOf map + 7) / 8),
      bitUsed (initialBitmap tier mem map kernelStart kernelEnd) f = true := by
  have htotal := totalFramesOf_le map
  have hlast : (initialBitmap tier mem map kernelStart kernelEnd).bitmap.end_
      = kernelEnd + (totalFramesOf map + 7) / 8 := initialBitmap_end tier mem hend
  have hres := initialBitmap_reserved tier mem hkernel hend
  have hused : ∀ f < 8 * ((totalFramesOf map + 7) / 8),
      bitUsed (initialBitmap tier mem map kernelStart kernelEnd) f = true := by
    intro f hf
    -- the fill covers exactly the bytes of the bitmap
    have hmem : (initialBitmap tier mem map kernelStart kernelEnd).mem
        = fillRange mem kernelEnd (kernelEnd + (totalFramesOf map + 7) / 8) 0xFF := by
      rw [← hlast]
      exact setRange_mem (le_trans (Nat.le_add_right _ _) (le_of_eq hlast.symm))
        (le_trans (Nat.add_le_add_right (le_of_eq hlast) 32) (by omega)) .allOnes mem tier
    unfold bitUsed
    rw [hmem]
    refine (bitsWritten_fillRange mem _ _ (b := true) ?_).inside ?_ ?_
    · intro i hi
      change (BitVec.allOnes 8).getLsbD i = true
      rw [BitVec.getLsbD_allOnes, decide_eq_true hi]
    · exact Nat.le_add_right _ _
    · change 8 * kernelEnd + f < _
      omega
  refine ⟨⟨hlast, ?_, htotal, ?_, le_refl _, ?_, rfl, ?_, fun f _ h => hused f h,
    fun f _ h => hused f ?_⟩, hused⟩
  · rw [hlast]
    exact hend
  · exact lt_of_le_of_lt htotal (by decide)
  · rw [hlast]
    exact Nat.le_add_right _ _
  · rw [hres]
    simp only
    omega
  · change f < totalFramesOf map at h
    omega

/-- **What `pmm_initialize` leaves**: the invariant, the layout, and a bit that is
clear exactly for the frames that a usable entry contains outside the reserved
regions. -/
theorem pmmInitialize_spec :
    PmmInv (pmmInitialize tier mem map kernelStart kernelEnd) ∧
      SameLayout (initialBitmap tier mem map kernelStart kernelEnd)
        (pmmInitialize tier mem map kernelStart kernelEnd) ∧
      (pmmInitialize tier mem map kernelStart kernelEnd).bitmap.searchBegin = kernelEnd ∧
      ∀ f < totalFramesOf map,
        (bitUsed (pmmInitialize tier mem map kernelStart kernelEnd) f = true ↔
          ∀ entry ∈ map,
            f ∉ entrySet (initialBitmap tier mem map kernelStart kernelEnd) entry) := by
  obtain ⟨hinv, hused⟩ := initialBitmap_inv tier mem hkernel hend
  obtain ⟨hinv', hlayout, hhint, hbits⟩ := freeEntries_spec tier map hinv
  refine ⟨hinv', hlayout, hhint, ?_⟩
  intro f hf
  rw [pmmInitialize, hbits, hused f (by omega)]
  simp

/-- The reserved regions: frame 0, and the frames from the kernel's start to the end
of the bitmap. -/
theorem initialBitmap_reserved_iff (f : ℕ) :
    Reserved (initialBitmap tier mem map kernelStart kernelEnd) f ↔
      f = 0 ∨ (kernelStart / 4096 ≤ f ∧
        f < (kernelEnd + (totalFramesOf map + 7) / 8 + 4095) / 4096) := by
  unfold Reserved
  rw [initialBitmap_reserved tier mem hkernel hend]
  have hfirst : (initialBitmap tier mem map kernelStart kernelEnd).reserved0 = ⟨0, 1⟩ := rfl
  rw [hfirst]
  simp only [List.mem_cons, List.not_mem_nil, or_false, exists_eq_or_imp, exists_eq_left]
  have hle : kernelStart / 4096 ≤ (kernelEnd + (totalFramesOf map + 7) / 8 + 4095) / 4096 :=
    Nat.div_le_div_right (by omega)
  omega

end Initialize

end BareMetal
