import BareMetal.Pmm.Requests
import Mathlib.Data.List.Perm.Basic
import Mathlib.Data.List.Range
import Mathlib.Data.Nat.ModEq

/-!
# Laws between the calls

Equations between sequences of calls, in every state of the accounting invariant.

* Freeing a range is freeing its frames one by one, in any order
  (`freeContiguous_eq_freeEach`). Both clear the same set of frames, and the hint ends at
  the lowest byte of the set or stays below it (`ClearedAll`).
* Allocating a run, freeing it and allocating again gives the run back
  (`allocate_free_allocate`): the release moves the hint to the first byte of the run, and
  the first fit from there on is the run, whichever sweep had found it.
* The fast path for one frame is the general path (`allocateFrame_eq_allocateContiguous`).
-/

namespace BareMetal

open Framework

/-! ### Freeing frame by frame -/

/-- The frames of a list are cleared, and the hint is lowered to the first of their bytes. -/
structure ClearedAll (p p' : Pmm) (fs : List ℕ) : Prop where
  layout : SameLayout p p'
  bits : ∀ x, bitAt p'.mem x =
    if 8 * p.bitmap.start ≤ x ∧ x - 8 * p.bitmap.start ∈ fs then false else bitAt p.mem x
  used_eq : p'.usedFrames + fs.length ≡ p.usedFrames [MOD 2 ^ 32]
  used_lt : p'.usedFrames < 2 ^ 32
  hint_le : p'.bitmap.searchBegin ≤ p.bitmap.searchBegin
  hint_le_byte : ∀ f ∈ fs, p'.bitmap.searchBegin ≤ p.bitmap.start + f / 8
  hint_mem : p'.bitmap.searchBegin = p.bitmap.searchBegin ∨
    ∃ f ∈ fs, p'.bitmap.searchBegin = p.bitmap.start + f / 8

section ClearedAll

variable {p p₁ p₂ p' : Pmm}

/-- The order of the frames does not matter. -/
theorem ClearedAll.unique {fs fs' : List ℕ} (h₁ : ClearedAll p p₁ fs) (h₂ : ClearedAll p p₂ fs')
    (hperm : fs.Perm fs') : p₁ = p₂ := by
  refine h₁.layout.ext h₂.layout (eq_of_bitAt_eq ?_) ?_ ?_
  · intro x
    rw [h₁.bits, h₂.bits]
    exact if_congr (and_congr_right fun _ => hperm.mem_iff) rfl rfl
  · have hused₁ := h₁.used_eq
    have hused₂ := h₂.used_eq
    have hlt₁ := h₁.used_lt
    have hlt₂ := h₂.used_lt
    rw [← hperm.length_eq] at hused₂
    unfold Nat.ModEq at hused₁ hused₂
    omega
  · -- either hint is a lower bound of the values that the other may have
    have key : ∀ {q q' : Pmm} {gs gs' : List ℕ}, ClearedAll p q gs → ClearedAll p q' gs' →
        gs.Perm gs' → q.bitmap.searchBegin ≤ q'.bitmap.searchBegin := by
      intro q q' gs gs' h h' hp
      rcases h'.hint_mem with heq | ⟨f, hf, heq⟩
      · rw [heq]
        exact h.hint_le
      · rw [heq]
        exact h.hint_le_byte f (hp.mem_iff.mpr hf)
    exact le_antisymm (key h₁ h₂ hperm) (key h₂ h₁ hperm.symm)

/-- Nothing was cleared. -/
theorem clearedAll_nil (hp : PmmInv p) : ClearedAll p p [] where
  layout := SameLayout.refl p
  bits _ := (if_neg fun h => List.not_mem_nil h.2).symm
  used_eq := Nat.ModEq.refl _
  used_lt := hp.used_lt
  hint_le := le_refl _
  hint_le_byte _ hf := absurd hf List.not_mem_nil
  hint_mem := .inl rfl

/-- One more frame, before the others. -/
theorem ClearedAll.cons {f : ℕ} {fs : List ℕ} (h : Cleared p p₁ f 1) (hrest : ClearedAll p₁ p' fs)
    (hp : PmmInv p) : ClearedAll p p' (f :: fs) := by
  have hstart := h.layout.start
  have hhint := h.hint
  have hle := hrest.hint_le
  refine ⟨h.layout.trans hrest.layout, ?_, ?_, hrest.used_lt, by omega, ?_, ?_⟩
  -- a bit is cleared with the first frame, or with one of the others
  · intro x
    rw [hrest.bits, hstart, h.bits]
    by_cases hx : 8 * p.bitmap.start ≤ x ∧ x - 8 * p.bitmap.start ∈ fs
    · rw [if_pos hx, if_pos ⟨hx.1, List.mem_cons_of_mem f hx.2⟩]
    · rw [if_neg hx]
      refine if_congr ?_ rfl rfl
      rw [List.mem_cons]
      constructor
      · exact fun h => ⟨by omega, .inl (by omega)⟩
      · rintro ⟨hlo, heq | hmem⟩
        · omega
        · exact absurd ⟨hlo, hmem⟩ hx
  -- modulo the word size the counter loses one more
  · have hused := hrest.used_eq
    have hone := h.used_eq
    have hlt := hp.used_lt
    rw [List.length_cons]
    unfold usizeSub at hone
    unfold Nat.ModEq at hused ⊢
    omega
  -- the hint is not above any of the bytes, and is one of them unless it stayed
  · intro g hg
    rcases List.mem_cons.mp hg with rfl | hg
    · omega
    · have := hrest.hint_le_byte g hg
      omega
  · rcases hrest.hint_mem with heq | ⟨g, hg, heq⟩
    · rcases Nat.le_total (p.bitmap.start + f / 8) p.bitmap.searchBegin with hmin | hmin
      · exact .inr ⟨f, List.mem_cons_self, by omega⟩
      · exact .inl (by omega)
    · exact .inr ⟨g, List.mem_cons_of_mem f hg, by omega⟩

/-- A range is the list of its frames. -/
theorem Cleared.clearedAll {s n : ℕ} (h : Cleared p p' s n) (hp : PmmInv p) :
    ClearedAll p p' (List.range' s n) := by
  have hhint := h.hint
  have hpos := h.pos
  have hfits := h.fits
  have htotal := hp.total_le
  have hlt := hp.used_lt
  refine ⟨h.layout, ?_, ?_, ?_, by omega, ?_, ?_⟩
  -- the frames of the range are those of the list
  · intro x
    rw [h.bits]
    refine if_congr ?_ rfl rfl
    rw [List.mem_range'_1]
    omega
  · have hused := h.used_eq
    rw [List.length_range']
    unfold usizeSub at hused
    unfold Nat.ModEq
    omega
  · rw [h.used_eq]
    exact usizeSub_lt _ _
  · intro f hf
    rw [List.mem_range'_1] at hf
    omega
  -- the hint goes to the byte of the first frame if that is lower
  · rcases Nat.le_total (p.bitmap.start + s / 8) p.bitmap.searchBegin with hmin | hmin
    · exact .inr ⟨s, List.mem_range'_1.mpr ⟨le_refl s, by omega⟩, by omega⟩
    · exact .inl (by omega)

end ClearedAll

/-- The frame that an address lies in. -/
def frameOf (address : BitVec 32) : ℕ := address.toNat / 4096

/-- Used frames outside the reserved regions can be freed one by one. -/
theorem freeEach_spec (tier : Tier) {p : Pmm} (hp : AccountingInv p) (addresses : List (BitVec 32))
    (hnodup : (addresses.map frameOf).Nodup)
    (hall : ∀ f ∈ addresses.map frameOf, f < p.totalFrames ∧ ¬ Reserved p f ∧ bitUsed p f = true) :
    (∀ e ∈ ((pmmMachine tier).exec p (addresses.map .freeFrame)).1, e.2 = .result .success) ∧
      ClearedAll p ((pmmMachine tier).exec p (addresses.map .freeFrame)).2
        (addresses.map frameOf) := by
  induction addresses generalizing p with
  | nil => exact ⟨fun e he => absurd he List.not_mem_nil, clearedAll_nil hp.toPmmInv⟩
  | cons address addresses ih =>
    obtain ⟨hnot, hnodup⟩ := List.nodup_cons.mp hnodup
    obtain ⟨hlt, hres, hused⟩ := hall (frameOf address) List.mem_cons_self
    -- the verdict on the first frame is success
    have hresult : (pmmFreeFrame p address.toNat).1 = .success := by
      rw [pmmFreeFrame_result hp address.isLt]
      unfold freeVerdict
      simp only [exists_mem_Ico_succ]
      change ¬ Reserved p (address.toNat / 4096) at hres
      change bitUsed p (address.toNat / 4096) = true at hused
      change address.toNat / 4096 + 1 ≤ p.totalFrames at hlt
      rw [if_neg one_ne_zero, if_neg (not_not.mpr hlt), if_neg hres, hused]
      rfl
    rcases pmmFreeFrame_spec hp.toPmmInv address.isLt with ⟨hne, -⟩ | ⟨-, hcleared⟩
    · exact absurd hresult hne
    obtain ⟨hsuccess, hrest⟩ := ih (hcleared.accountingInv hp) hnodup fun f hf => by
      obtain ⟨h₁, h₂, h₃⟩ := hall f (List.mem_cons_of_mem _ hf)
      rw [hcleared.layout.total, hcleared.layout.reserved_iff, hcleared.toRewritten.bitUsed_eq,
        if_neg ?_]
      · exact ⟨h₁, h₂, h₃⟩
      · rintro ⟨hge, hle⟩
        exact hnot ((show f = frameOf address by unfold frameOf; omega) ▸ hf)
    refine ⟨?_, hrest.cons hcleared hp.toPmmInv⟩
    intro e he
    rcases List.mem_cons.mp he with rfl | he
    · exact congrArg Answer.result hresult
    · exact hsuccess e he

/-- What a successful release of a range says about the range. -/
theorem freeVerdict_eq_success {p : Pmm} {i n : ℕ} (h : freeVerdict p i n = .success) :
    ∀ f, i ≤ f → f < i + n → f < p.totalFrames ∧ ¬ Reserved p f ∧ bitUsed p f = true := by
  unfold freeVerdict at h
  split at h
  · exact absurd h (by decide)
  split at h
  · exact absurd h (by decide)
  split at h
  · exact absurd h (by decide)
  split at h
  · exact absurd h (by decide)
  next hfits hres hclear =>
    intro f h₁ h₂
    have hf := Finset.mem_Ico.mpr ⟨h₁, h₂⟩
    refine ⟨by omega, fun hr => hres ⟨f, hf, hr⟩, ?_⟩
    by_contra hbit
    exact hclear ⟨f, hf, Bool.eq_false_of_not_eq_true hbit⟩

/-- **Freeing a range is freeing its frames one by one, in any order.** The frames may be
named by any address inside them, and the two ways may run on different tiers. -/
theorem freeContiguous_eq_freeEach {p : Pmm} (hp : AccountingInv p) (tier tier' : Tier)
    (address frames : BitVec 32)
    (hsuccess : (pmmFreeContiguousFrames tier p address.toNat frames.toNat).1 = .success)
    (addresses : List (BitVec 32))
    (hperm : (addresses.map frameOf).Perm (List.range' (frameOf address) frames.toNat)) :
    let each := (pmmMachine tier').exec p (addresses.map .freeFrame)
    each.1.map Prod.fst = addresses.map .freeFrame ∧
      (∀ e ∈ each.1, e.2 = .result .success) ∧
      each.2 = (pmmFreeContiguousFrames tier p address.toNat frames.toNat).2 := by
  intro each
  rcases pmmFreeContiguousFrames_spec hp.toPmmInv tier address.isLt frames.toNat with
    ⟨hne, -⟩ | ⟨-, hcleared⟩
  · exact absurd hsuccess hne
  -- each frame of the range would be freed on its own as well, in any order
  rw [pmmFreeContiguousFrames_result hp] at hsuccess
  obtain ⟨hall, heach⟩ := freeEach_spec tier' hp addresses
    (hperm.nodup_iff.mpr (List.nodup_range')) fun f hf => by
      rw [hperm.mem_iff, List.mem_range'_1] at hf
      exact freeVerdict_eq_success hsuccess f hf.1 hf.2
  refine ⟨?_, hall, heach.unique (hcleared.clearedAll hp.toPmmInv) hperm⟩
  exact Machine.exec_map_fst _ _ _

/-- A run of two frames, freed in falling order. -/
theorem freeContiguous_eq_freeEach_ramMap :
    let p := ((pmmMachine .simd).exec (pmmInitialize .simd (fun _ => 0) ramMap 0x1000 0x1000)
      [.allocateContiguousFrames 2]).2
    ((pmmMachine .gpr).exec p ([0x3000, 0x2FFF].map .freeFrame)).2
      = (pmmFreeContiguousFrames .simd p (0x2000 : BitVec 32).toNat (2 : BitVec 32).toNat).2 := by
  intro p
  have hp : AccountingInv p :=
    accountingInv_of_run .simd (fun _ => 0) (by decide) (by decide) (by decide +kernel)
      ramMap_disjoint (Machine.run_exec (fun _ _ => trivial) _ _)
  exact (freeContiguous_eq_freeEach hp .simd .gpr 0x2000 2 (by decide +kernel) [0x3000, 0x2FFF]
    (by decide +kernel)).2.2

/-! ### Allocating again what was freed -/

/-- A first fit from the hint on is one from its own byte on. -/
theorem FoundAt.from_byte {p q : Pmm} {n s : ℕ} (h : FoundAt p n s) (hp : PmmInv p)
    (hfree : ∀ f, frameFree q f ↔ frameFree p f) (htotal : q.totalFrames = p.totalFrames)
    (hhint : hintFrame q = 8 * (s / 8)) : FoundAt q n s := by
  have hrun : frameFree q = frameFree p := by
    ext f
    exact hfree f
  have hbits : bitmapBits q = bitmapBits p := by
    unfold bitmapBits
    rw [htotal]
  refine .upper ?_
  rw [hrun, hbits, hhint]
  cases h with
  | upper fit =>
    -- the old hint is a byte border at or below `s`
    have hle := fit.lo_le
    unfold hintFrame at hle
    exact fit.mono_lo (by unfold hintFrame; omega) (by omega)
  | lower _ fit => exact (fit.mono hp.hintFrame_le).mono_lo (Nat.zero_le _) (by omega)

/-- **Allocate, free, allocate.** A run that was allocated can be freed. The release
restores the memory and the counter, and the next request of the same size is given the
same run. -/
theorem allocate_free_allocate {p : Pmm} (hp : AccountingInv p) (tier : Tier) {n a : ℕ}
    (ha : (pmmAllocateContiguousFrames tier p n).1 = some a) :
    let q := (pmmAllocateContiguousFrames tier p n).2
    let r := pmmFreeContiguousFrames tier q a n
    r.1 = .success ∧ r.2.mem = p.mem ∧ r.2.usedFrames = p.usedFrames ∧
      (pmmAllocateContiguousFrames tier r.2 n).1 = some a := by
  intro q r
  rcases pmmAllocateContiguousFrames_spec hp.toPmmInv tier n with
    ⟨hnone, -, -⟩ | ⟨s, hsome, hat, hmark⟩
  · exact absurd (ha.symm.trans hnone) (by simp)
  obtain rfl : a = 4096 * s := Option.some.inj (ha.symm.trans hsome)
  have hpos := hmark.pos
  have hfits := hmark.fits
  have htotal := hp.total_le
  have haddress : 4096 * s < 2 ^ 32 := by omega
  have hdiv : 4096 * s / 4096 = s := Nat.mul_div_cancel_left s (by decide)
  -- the run is used now, and it was not reserved, as reserved frames were used before
  have hverdict : freeVerdict q s n = .success := by
    unfold freeVerdict
    have hres : ¬ ∃ f ∈ Finset.Ico s (s + n), Reserved q f := by
      rintro ⟨f, hf, hr⟩
      rw [Finset.mem_Ico] at hf
      rw [hmark.layout.reserved_iff] at hr
      have hclear := hmark.before f hf.1 hf.2
      rw [hp.reserved_used f hr (by omega)] at hclear
      exact absurd hclear (by decide)
    have hused : ¬ ∃ f ∈ Finset.Ico s (s + n), bitUsed q f = false := by
      rintro ⟨f, hf, hbit⟩
      rw [Finset.mem_Ico] at hf
      rw [hmark.bitUsed_eq, if_pos hf] at hbit
      exact absurd hbit (by decide)
    rw [if_neg (by omega), if_neg (not_not.mpr (le_of_le_of_eq hfits hmark.layout.total.symm)),
      if_neg hres, if_neg hused]
  have hq := hmark.accountingInv hp
  have hsuccess : r.1 = .success := by
    change (pmmFreeContiguousFrames tier q (4096 * s) n).1 = .success
    rw [pmmFreeContiguousFrames_result hq, hdiv]
    exact hverdict
  rcases pmmFreeContiguousFrames_spec hq.toPmmInv tier haddress n with ⟨hne, -⟩ | ⟨-, hclear⟩
  · exact absurd hsuccess hne
  rw [hdiv] at hclear
  have hstart := hmark.layout.start
  -- the release writes back the bits that the allocation found
  have hmem : r.2.mem = p.mem := by
    have hbits := hclear.bits
    rw [hstart] at hbits
    refine hmark.bits.restore hbits ?_
    intro x h₁ h₂
    obtain ⟨f, rfl⟩ := Nat.exists_eq_add_of_le (show 8 * p.bitmap.start ≤ x by omega)
    exact hmark.before f (by omega) (by omega)
  refine ⟨hsuccess, hmem, ?_, ?_⟩
  · have hused : r.2.usedFrames = usizeSub q.usedFrames n := hclear.used_eq
    have hlt := hp.used_lt
    rw [hused, hmark.used_eq]
    unfold usize usizeSub
    omega
  · have hr := hclear.accountingInv hq
    refine (FoundAt.allocate hr.toPmmInv tier hpos (hat.from_byte hp.toPmmInv ?_
      (hclear.layout.total.trans hmark.layout.total) ?_)).1
    · intro f
      unfold frameFree bitUsed
      rw [hclear.layout.start, hstart]
      exact iff_of_eq (congrArg (fun m => bitAt m _ = false) hmem)
    · have hhint := hclear.hint
      have hlast := hmark.hint
      unfold hintFrame
      rw [hhint, hclear.layout.start, hstart]
      omega

theorem allocate_free_allocate_ramMap :
    let p := pmmInitialize .avx2 (fun _ => 0) ramMap 0x1000 0x1000
    (pmmFreeContiguousFrames .avx2 (pmmAllocateContiguousFrames .avx2 p 14).2 0x2000 14).1
      = .success :=
  (allocate_free_allocate (accountingInv_of_run .avx2 (fun _ => 0) (by decide) (by decide)
    (by decide +kernel) ramMap_disjoint .nil) .avx2 (n := 14) (a := 0x2000) (by decide +kernel)).1

/-! ### One frame -/

/-- The byte that a search finds holds the first free frame, at its lowest clear bit. -/
theorem FreeByteFound.firstFit {p : Pmm} {lo hi byte : ℕ}
    (h : FreeByteFound p.mem (p.bitmap.start + lo) (p.bitmap.start + hi) (p.bitmap.start + byte))
    (hne : p.bitmap.start + byte ≠ nullptr) :
    FirstFit (frameFree p) (8 * lo) (8 * hi) 1
      (8 * byte + trailingZeros (~~~(p.mem (p.bitmap.start + byte)))) := by
  rcases h with ⟨hnull, -⟩ | ⟨hlo, hhi, hfree, hfull⟩
  · exact absurd hnull hne
  obtain ⟨hlt, hclear⟩ := clear_trailingZeros p hfree
  refine ⟨by omega, by omega, ?_, ?_⟩
  · intro f h₁ h₂
    obtain rfl := le_antisymm (Nat.lt_succ_iff.mp h₂) h₁
    exact hclear
  · intro t h₁ h₂ hrun
    -- an earlier frame lies in a full byte, or below the lowest clear bit
    have hfree' : bitUsed p t = false := hrun t (le_refl t) (Nat.lt_succ_self t)
    by_cases hbyte : t < 8 * byte
    · rw [(byte_eq_ff_iff p (t / 8)).mp (hfull _ (by omega) (by omega)) t (by omega) (by omega)]
        at hfree'
      exact absurd hfree' (by decide)
    · obtain ⟨j, rfl⟩ := Nat.exists_eq_add_of_le (not_lt.mp hbyte)
      have hbit := getLsbD_of_lt_trailingZeros (i := j) (Nat.lt_of_add_lt_add_left h₂)
      rw [BitVec.getLsbD_not, ← bitUsed_byte p byte (by omega), hfree',
        decide_eq_true (show j < 8 by omega)] at hbit
      exact absurd hbit (by decide)

/-- Where every frame is used no run of one is found. -/
theorem not_hasRun_one {p : Pmm} {lo hi : ℕ}
    (h : ∀ f, lo ≤ f → f < hi → bitUsed p f = true) : ¬ HasRun (frameFree p) lo hi 1 := by
  rintro ⟨s, hlo, hhi, hrun⟩
  have hclear : bitUsed p s = false := hrun s (le_refl s) (Nat.lt_succ_self s)
  rw [h s hlo (by omega)] at hclear
  exact absurd hclear (by decide)

/-- The byte scans of the fast path find what the sweeps find. -/
theorem freeBytePtr_spec {p : Pmm} (hp : AccountingInv p) :
    (freeBytePtr p = nullptr → FoundNowhere p 1) ∧
      ∀ byte, freeBytePtr p = p.bitmap.start + byte → freeBytePtr p ≠ nullptr →
        FoundAt p 1 (8 * byte + trailingZeros (~~~(p.mem (p.bitmap.start + byte)))) := by
  have hend := hp.end_eq
  have hstart := hp.start_le
  have hsearch := hp.search_le
  have hpos := hp.start_pos
  -- the three borders, counted from the start of the bitmap
  obtain ⟨hint, hhint⟩ := Nat.exists_eq_add_of_le hstart
  have hbits : bitmapBits p = 8 * ((p.totalFrames + 7) / 8) := rfl
  have hframe : hintFrame p = 8 * hint := by
    unfold hintFrame
    rw [hhint, Nat.add_sub_cancel_left]
  have hupper := findFreeByte_eq_nullptr_iff p hint ((p.totalFrames + 7) / 8) (by omega)
  have hlower := findFreeByte_eq_nullptr_iff p 0 hint (by omega)
  have hfoundUpper := findFreeByte_found p.mem (p.bitmap.start + hint)
    (p.bitmap.start + (p.totalFrames + 7) / 8)
  have hfoundLower := findFreeByte_found p.mem (p.bitmap.start + 0) (p.bitmap.start + hint)
  unfold FoundNowhere
  unfold freeBytePtr
  rw [hend, hhint, hframe, hbits]
  rw [Nat.add_zero] at hlower hfoundLower
  split
  · next hnull =>
    have hnone := not_hasRun_one (hupper.mp hnull)
    refine ⟨fun h => ⟨hnone, not_hasRun_one (hlower.mp h)⟩, ?_⟩
    intro byte heq hne
    rw [heq] at hfoundLower hne
    refine .lower ?_ ?_
    · rw [hframe, hbits]
      exact hnone
    · have hfit : FirstFit (frameFree p) (8 * 0) (8 * hint) 1 _ := hfoundLower.firstFit hne
      rwa [hframe]
  · next hne =>
    refine ⟨fun h => absurd h hne, fun byte heq _ => .upper ?_⟩
    rw [heq] at hfoundUpper hne
    rw [hframe, hbits]
    exact hfoundUpper.firstFit hne

/-- **The fast path for one frame is the general path**: the same answer and the same
state, on every tier. -/
theorem allocateFrame_eq_allocateContiguous {p : Pmm} (hp : AccountingInv p) (tier : Tier) :
    pmmAllocateFrame p = pmmAllocateContiguousFrames tier p 1 := by
  obtain ⟨hnowhere, hat⟩ := freeBytePtr_spec hp
  rcases pmmAllocateFrame_spec hp.toPmmInv with
    ⟨hnull, hnone, heq⟩ | ⟨byte, f, hbyte, hne, hf, hsome, hmark⟩
  · rw [(hnowhere hnull).allocate hp.toPmmInv tier]
    exact Prod.ext hnone heq
  · have hfound := hat byte hbyte hne
    rw [← hf] at hfound
    obtain ⟨hsome', hmark'⟩ := hfound.allocate hp.toPmmInv tier Nat.one_pos
    exact Prod.ext (hsome.trans hsome'.symm) (hmark.unique hmark')

theorem allocateFrame_eq_allocateContiguous_holeMap :
    let p := pmmInitialize .simd (fun _ => 0) holeMap 0x1000 0x1000
    pmmAllocateFrame p = pmmAllocateContiguousFrames .simd p 1 :=
  allocateFrame_eq_allocateContiguous (holeMap_accountingInv .simd) .simd

end BareMetal
