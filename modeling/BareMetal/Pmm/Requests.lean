import BareMetal.Pmm.Accounting
import BareMetal.Pmm.Completeness

/-!
# What requests do and what they answer

In a state of the accounting invariant every request has one correct outcome.

* A contiguous allocation marks exactly the run that it returns, and which run that is
  does not depend on the tier (`allocateContiguous_marks_run`).
* A request to free frames is judged by four questions in a fixed order: is the count
  zero, does the range leave the frames there are, does it meet a reserved region, is one
  of its frames free already (`freeVerdict`). The branch-free tests of the source come to
  the same verdict for all arguments, and only a request that is granted changes the
  state (`free_classifies`).

A state is determined by its effect: two states that `Marked` or `Cleared` the same range
of the same state are equal (`Marked.unique`, `Cleared.unique`).
-/

namespace BareMetal

open Framework

/-! ### Effects determine states -/

section Unique

variable {p p₁ p₂ : Pmm} {s n : ℕ}

/-- Two states of one layout differ in memory, counter or hint. -/
theorem SameLayout.ext (h₁ : SameLayout p p₁) (h₂ : SameLayout p p₂) (hmem : p₁.mem = p₂.mem)
    (hused : p₁.usedFrames = p₂.usedFrames)
    (hhint : p₁.bitmap.searchBegin = p₂.bitmap.searchBegin) : p₁ = p₂ := by
  obtain ⟨ht₁, hs₁, he₁, hr₁, hr₁'⟩ := h₁
  obtain ⟨ht₂, hs₂, he₂, hr₂, hr₂'⟩ := h₂
  obtain ⟨m₁, u₁, t₁, ⟨b₁, e₁, k₁⟩, r₁, r₁'⟩ := p₁
  obtain ⟨m₂, u₂, t₂, ⟨b₂, e₂, k₂⟩, r₂, r₂'⟩ := p₂
  simp only at *
  subst hmem hused hhint ht₁ hs₁ he₁ hr₁ hr₁' ht₂ hs₂ he₂ hr₂ hr₂'
  rfl

theorem Marked.unique (h₁ : Marked p p₁ s n) (h₂ : Marked p p₂ s n) : p₁ = p₂ := by
  have hmem := h₁.bits.unique h₂.bits
  refine h₁.layout.ext h₂.layout hmem (h₁.used_eq.trans h₂.used_eq.symm) ?_
  rw [h₁.hint, h₂.hint, hmem]

theorem Cleared.unique (h₁ : Cleared p p₁ s n) (h₂ : Cleared p p₂ s n) : p₁ = p₂ :=
  h₁.layout.ext h₂.layout (h₁.bits.unique h₂.bits) (h₁.used_eq.trans h₂.used_eq.symm)
    (h₁.hint.trans h₂.hint.symm)

/-- The two sweeps find one run. -/
theorem FoundAt.unique {s' : ℕ} (h : FoundAt p n s) (h' : FoundAt p n s') : s = s' := by
  cases h with
  | upper fit =>
    cases h' with
    | upper fit' => exact fit.unique fit'
    | lower none' => exact absurd fit.hasRun none'
  | lower none fit =>
    cases h' with
    | upper fit' => exact absurd fit'.hasRun none
    | lower _ fit' => exact fit.unique fit'

/-- A run that is found is not found nowhere. -/
theorem FoundAt.not_nowhere (h : FoundAt p n s) : ¬ FoundNowhere p n := by
  rintro ⟨hupper, hlower⟩
  cases h with
  | upper fit => exact hupper fit.hasRun
  | lower _ fit => exact hlower fit.hasRun

end Unique

/-! ### Contiguous allocation -/

/-- An allocation whose search finds the run at `s` returns it and marks it. -/
theorem FoundAt.allocate {p : Pmm} (hp : PmmInv p) (tier : Tier) {n s : ℕ} (h₀ : 0 < n)
    (h : FoundAt p n s) : (pmmAllocateContiguousFrames tier p n).1 = some (4096 * s) ∧
      Marked p (pmmAllocateContiguousFrames tier p n).2 s n := by
  rcases pmmAllocateContiguousFrames_spec hp tier n with ⟨-, -, hno⟩ | ⟨s', hsome, hat, hmarked⟩
  · exact absurd (hno h₀) h.not_nowhere
  · obtain rfl := h.unique hat
    exact ⟨hsome, hmarked⟩

/-- An allocation whose search finds nothing changes nothing. -/
theorem FoundNowhere.allocate {p : Pmm} (hp : PmmInv p) (tier : Tier) {n : ℕ}
    (h : FoundNowhere p n) : pmmAllocateContiguousFrames tier p n = (none, p) := by
  rcases pmmAllocateContiguousFrames_spec hp tier n with ⟨hnone, heq, -⟩ | ⟨s, -, hat, -⟩
  · exact Prod.ext hnone heq
  · exact absurd h hat.not_nowhere

theorem allocateContiguous_zero (tier : Tier) (p : Pmm) :
    pmmAllocateContiguousFrames tier p 0 = (none, p) := if_pos rfl

/-- The tiers agree. -/
theorem allocateContiguous_tier_eq {p : Pmm} (hp : PmmInv p) (tier tier' : Tier) (n : ℕ) :
    pmmAllocateContiguousFrames tier p n = pmmAllocateContiguousFrames tier' p n := by
  rcases Nat.eq_zero_or_pos n with rfl | h₀
  · rw [allocateContiguous_zero, allocateContiguous_zero]
  rcases pmmAllocateContiguousFrames_spec hp tier n with ⟨hnone, heq, hno⟩ | ⟨s, hsome, hat, hmark⟩
  · rw [(hno h₀).allocate hp tier']
    exact Prod.ext hnone heq
  · obtain ⟨hsome', hmark'⟩ := hat.allocate hp tier' h₀
    exact Prod.ext (hsome.trans hsome'.symm) (hmark.unique hmark')

/-- A set of free frames leaves room in the counter. -/
theorem Counted.add_le {p : Pmm} (hc : Counted p) {s n : ℕ} (hfits : s + n ≤ p.totalFrames)
    (hfree : ∀ f, s ≤ f → f < s + n → bitUsed p f = false) : p.usedFrames + n ≤ p.totalFrames := by
  have hsub : usedSet p ⊆ Finset.range p.totalFrames \ Finset.Ico s (s + n) := by
    intro f hf
    obtain ⟨hlt, hused⟩ := mem_usedSet.mp hf
    refine Finset.mem_sdiff.mpr ⟨Finset.mem_range.mpr hlt, ?_⟩
    intro hin
    rw [Finset.mem_Ico] at hin
    rw [hfree f hin.1 hin.2] at hused
    exact absurd hused (by decide)
  have hrange : Finset.Ico s (s + n) ⊆ Finset.range p.totalFrames := fun f hf => by
    rw [Finset.mem_Ico] at hf
    exact Finset.mem_range.mpr (by omega)
  have hle := Finset.card_le_card hsub
  rw [Finset.card_sdiff_of_subset hrange, Finset.card_range, Nat.card_Ico] at hle
  unfold Counted at hc
  omega

/-- **A contiguous allocation marks exactly the run that it returns.** The frames of the
run were clear and are set, no other bit of the memory changes, the counter grows by
their number, and the hint points to the last byte of the run, or behind it if that byte
is full. A null answer changes nothing, a request for no frames has one, and all tiers
answer alike and leave the same state. -/
theorem allocateContiguous_marks_run {p : Pmm} (hp : AccountingInv p) (tier : Tier) (n : ℕ) :
    let q := (pmmAllocateContiguousFrames tier p n).2
    (∀ a, (pmmAllocateContiguousFrames tier p n).1 = some a →
      a ≠ 0 ∧ 4096 ∣ a ∧ a / 4096 + n ≤ p.totalFrames ∧
        (∀ f, a / 4096 ≤ f → f < a / 4096 + n → bitUsed p f = false ∧ bitUsed q f = true) ∧
        (∀ x, ¬ (8 * p.bitmap.start + a / 4096 ≤ x ∧ x < 8 * p.bitmap.start + (a / 4096 + n)) →
          bitAt q.mem x = bitAt p.mem x) ∧
        q.usedFrames = p.usedFrames + n ∧ SameLayout p q ∧
        q.bitmap.start ≤ q.bitmap.searchBegin ∧ q.bitmap.searchBegin ≤ q.bitmap.end_ ∧
        (q.bitmap.searchBegin ≤ q.bitmap.start + (a / 4096 + n - 1) / 8 ∨
          q.bitmap.searchBegin = q.bitmap.start + (a / 4096 + n - 1) / 8 + 1 ∧
            q.mem (q.bitmap.start + (a / 4096 + n - 1) / 8) = 0xFF)) ∧
      ((pmmAllocateContiguousFrames tier p n).1 = none → q = p) ∧
      (n = 0 → (pmmAllocateContiguousFrames tier p n).1 = none) ∧
      ∀ tier', pmmAllocateContiguousFrames tier' p n = pmmAllocateContiguousFrames tier p n := by
  intro q
  refine ⟨?_, ?_, ?_, fun tier' =>
    allocateContiguous_tier_eq hp.toPmmInv tier' tier n⟩
  · intro a ha
    rcases pmmAllocateContiguousFrames_spec hp.toPmmInv tier n with
      ⟨hnone, -, -⟩ | ⟨s, hsome, -, hmark⟩
    · exact absurd (ha.symm.trans hnone) (by simp)
    -- the frames of the run were free, and are marked now
    · have hinv := hmark.inv hp.toPmmInv
      obtain rfl : a = 4096 * s := Option.some.inj (ha.symm.trans hsome)
      have hroom := hp.counted.add_le hmark.fits hmark.before
      have htotal := hp.total_le
      have hhint := hmark.hint
      rw [Nat.mul_div_cancel_left s (by decide)]
      refine ⟨?_, Nat.dvd_mul_right 4096 s, hmark.fits, fun f h₁ h₂ => ⟨hmark.before f h₁ h₂, ?_⟩,
        fun x hx => hmark.bits.outside (by omega), ?_, hmark.layout, hinv.start_le, hinv.search_le,
        ?_⟩
      · -- frame 0 is reserved, hence used
        rintro hzero
        have hclear := hmark.before 0 (by omega) (by have := hmark.pos; omega)
        rw [hp.reserved_used 0 ⟨p.reserved0, by simp, by simp [hp.first_reserved]⟩
          (by have := hmark.pos; have := hmark.fits; omega)] at hclear
        exact absurd hclear (by decide)
      · exact (hmark.bitUsed_eq f).trans (if_pos ⟨h₁, h₂⟩)
      · exact hmark.used_eq.trans (usize_of_lt (by omega))
      · rw [hmark.layout.start]
        -- the hint is behind the last byte of the run only if that byte is full
        split at hhint
        · next hfull => exact .inr ⟨hhint, hfull⟩
        · exact .inl (le_of_eq hhint)
  · intro hnone
    rcases pmmAllocateContiguousFrames_spec hp.toPmmInv tier n with ⟨-, heq, -⟩ | ⟨s, hsome, -⟩
    · exact heq
    · exact absurd (hnone.symm.trans hsome) (by simp)
  · intro h₀
    rw [h₀, allocateContiguous_zero]

/-- The invariant of the small machine with a hole. -/
theorem holeMap_accountingInv (tier : Tier) :
    AccountingInv (pmmInitialize tier (fun _ => 0) holeMap 0x1000 0x1000) :=
  accountingInv_of_run tier (fun _ => 0) (by decide) (by decide) (by decide +kernel)
    holeMap_disjoint .nil

/-- Ten frames over the border of two bytes of the bitmap. -/
theorem allocateContiguous_marks_run_ramMap :
    let q := (pmmAllocateContiguousFrames .simd
      (pmmInitialize .simd (fun _ => 0) ramMap 0x1000 0x1000) 10).2
    q.usedFrames = 12 ∧ bitUsed q 7 = true ∧ bitUsed q 8 = true := by
  intro q
  have hinv : AccountingInv (pmmInitialize .simd (fun _ => 0) ramMap 0x1000 0x1000) :=
    accountingInv_of_run .simd (fun _ => 0) (by decide) (by decide) (by decide +kernel)
      ramMap_disjoint .nil
  obtain ⟨-, -, -, hbits, -, hused, -⟩ :=
    (allocateContiguous_marks_run hinv .simd 10).1 0x2000 (by decide +kernel)
  exact ⟨hused.trans (by decide +kernel), (hbits 7 (by decide) (by decide)).2,
    (hbits 8 (by decide) (by decide)).2⟩

/-! ### Requests to free -/

/-- The verdict on a request to free the frames `[i, i + n)`. -/
def freeVerdict (p : Pmm) (i n : ℕ) : PmmResult :=
  if n = 0 then .zeroFrames
  else if ¬ i + n ≤ p.totalFrames then .outOfRange
  else if ∃ f ∈ Finset.Ico i (i + n), Reserved p f then .reserved
  else if ∃ f ∈ Finset.Ico i (i + n), bitUsed p f = false then .failed
  else .success

/-- The unrolled overlap test of a range with the reserved regions. -/
def onReserved (p : Pmm) (index frames : ℕ) : Prop :=
  usizeSub index p.reserved0.base < p.reserved0.length ∨
    usizeSub p.reserved0.base index < frames ∨
    usizeSub index p.reserved1.base < p.reserved1.length ∨
    usizeSub p.reserved1.base index < frames

/-- Where there are frames the bitmap is not empty, and neither is the region around it. -/
theorem AccountingInv.reserved1_pos {p : Pmm} (hp : AccountingInv p) (h : 0 < p.totalFrames) :
    0 < p.reserved1.length := by
  have hend := hp.end_eq
  have hbitmap := hp.bitmap_reserved
  omega

/-- **The overlap test is exact**: the wrapped differences are small exactly when the
range meets a region. -/
theorem onReserved_iff {p : Pmm} (hp : AccountingInv p) {i n : ℕ} (h₀ : 0 < n)
    (hfits : i + n ≤ p.totalFrames) :
    onReserved p i n ↔ ∃ f ∈ Finset.Ico i (i + n), Reserved p f := by
  have htotal := hp.total_le
  have hbound := hp.reserved_le
  have hpos := hp.reserved1_pos (by omega)
  have hreserved : ∀ f, Reserved p f ↔
      f = 0 ∨ (p.reserved1.base ≤ f ∧ f < p.reserved1.base + p.reserved1.length) := by
    intro f
    unfold Reserved
    rw [hp.first_reserved]
    simp
  simp only [Finset.mem_Ico, hreserved]
  unfold onReserved usizeSub
  rw [hp.first_reserved]
  simp only
  constructor
  · -- the first frame of the range, or the first frame of the region
    rintro (h | h | h | h)
    · exact ⟨i, by omega, .inl (by omega)⟩
    · exact ⟨0, by omega, .inl rfl⟩
    · exact ⟨i, by omega, .inr (by omega)⟩
    · exact ⟨p.reserved1.base, by omega, .inr (by omega)⟩
  · rintro ⟨f, hf, rfl | hf'⟩
    · exact .inl (by omega)
    · -- the range starts inside the region, or before it
      rcases Nat.lt_or_ge i p.reserved1.base with hlt | hge
      · exact .inr (.inr (.inr (by omega)))
      · exact .inr (.inr (.inl (by omega)))

/-- The contiguous call comes to the verdict. -/
theorem pmmFreeContiguousFrames_result {p : Pmm} (hp : AccountingInv p) (tier : Tier)
    (address n : ℕ) :
    (pmmFreeContiguousFrames tier p address n).1 = freeVerdict p (address / 4096) n := by
  have htotal := hp.total_le
  simp only [pmmFreeContiguousFrames, freeVerdict, frameIndex_eq]
  generalize address / 4096 = i
  by_cases h₀ : n = 0
  · rw [if_pos h₀, if_pos h₀]
  rw [if_neg h₀, if_neg h₀]
  by_cases hrange : p.totalFrames ≤ i ∨ usizeSub p.totalFrames i < n
  · have hout : ¬ i + n ≤ p.totalFrames := by
      unfold usizeSub at hrange
      omega
    rw [if_pos hrange, if_pos hout]
  rw [not_or, not_le] at hrange
  have hfits : i + n ≤ p.totalFrames := by
    rw [usizeSub_of_le (le_of_lt hrange.1) (by omega)] at hrange
    omega
  rw [if_neg (by omega), if_neg (not_not.mpr hfits)]
  have hres := onReserved_iff hp (Nat.pos_of_ne_zero h₀) hfits
  unfold onReserved at hres
  simp only [hres]
  by_cases hmeets : ∃ f ∈ Finset.Ico i (i + n), Reserved p f
  · rw [if_pos hmeets, if_pos hmeets]
  rw [if_neg hmeets, if_neg hmeets]
  -- the range check reads the bits of the range
  have hused := isFrameRangeUsed_iff (p := p) (show i < i + n by omega)
  by_cases hclear : ∃ f ∈ Finset.Ico i (i + n), bitUsed p f = false
  · have hnot : isFrameRangeUsed p i (i + n) = false := by
      obtain ⟨f, hf, hbit⟩ := hclear
      rw [Finset.mem_Ico] at hf
      rw [Bool.eq_false_iff, ne_eq, hused]
      intro hall
      rw [hall f hf.1 hf.2] at hbit
      exact absurd hbit (by decide)
    rw [hnot, if_pos hclear]
    rfl
  · have hall : isFrameRangeUsed p i (i + n) = true := hused.mpr fun f h₁ h₂ => by
      by_contra hbit
      exact hclear ⟨f, Finset.mem_Ico.mpr ⟨h₁, h₂⟩, Bool.eq_false_of_not_eq_true hbit⟩
    rw [hall, if_neg hclear]
    rfl

/-- A range of one frame. -/
theorem exists_mem_Ico_succ {P : ℕ → Prop} (i : ℕ) : (∃ f ∈ Finset.Ico i (i + 1), P f) ↔ P i := by
  constructor
  · rintro ⟨f, hf, h⟩
    rw [Finset.mem_Ico] at hf
    obtain rfl : f = i := by omega
    exact h
  · exact fun h => ⟨i, Finset.mem_Ico.mpr ⟨le_refl i, Nat.lt_succ_self i⟩, h⟩

/-- The call for one frame comes to the verdict too, with half of the overlap tests. -/
theorem pmmFreeFrame_result {p : Pmm} (hp : AccountingInv p) {address : ℕ}
    (ha : address < 2 ^ 32) : (pmmFreeFrame p address).1 = freeVerdict p (address / 4096) 1 := by
  simp only [pmmFreeFrame, freeVerdict, frameIndex_eq, exists_mem_Ico_succ, one_ne_zero, if_false]
  have hi : address / 4096 < 2 ^ 20 := by omega
  generalize address / 4096 = i at hi
  by_cases hrange : p.totalFrames ≤ i
  · rw [if_pos hrange, if_pos (by omega)]
  rw [if_neg hrange, if_neg (not_not.mpr (show i + 1 ≤ p.totalFrames by omega))]
  -- a region that starts at the frame contains it, so two of the four tests suffice
  have htest : (usizeSub i p.reserved0.base < p.reserved0.length ∨
      usizeSub i p.reserved1.base < p.reserved1.length) ↔ Reserved p i := by
    rw [← exists_mem_Ico_succ (P := Reserved p), ← onReserved_iff hp Nat.one_pos (by omega)]
    have hpos := hp.reserved1_pos (by omega)
    have hbound := hp.reserved_le
    unfold onReserved usizeSub
    rw [hp.first_reserved]
    simp only
    omega
  simp only [htest]
  by_cases hres : Reserved p i
  · rw [if_pos hres, if_pos hres]
  rw [if_neg hres, if_neg hres, isFrameUsed_eq]
  cases bitUsed p i <;> rfl

/-- **Every request to free is classified exactly**, and only success changes the state. -/
theorem free_classifies {p : Pmm} (hp : AccountingInv p) (tier : Tier)
    (address frames : BitVec 32) :
    let i := address.toNat >>> 12
    (pmmFreeContiguousFrames tier p address.toNat frames.toNat).1
        = freeVerdict p i frames.toNat ∧
      (pmmFreeFrame p address.toNat).1
        = (pmmFreeContiguousFrames tier p address.toNat 1).1 ∧
      ((pmmFreeContiguousFrames tier p address.toNat frames.toNat).1 ≠ .success →
        (pmmFreeContiguousFrames tier p address.toNat frames.toNat).2 = p) ∧
      ((pmmFreeFrame p address.toNat).1 ≠ .success → (pmmFreeFrame p address.toNat).2 = p) := by
  intro i
  have hi : i = address.toNat / 4096 := Nat.shiftRight_eq_div_pow _ _
  have ha := address.isLt
  refine ⟨?_, ?_, ?_, ?_⟩
  · rw [hi]
    exact pmmFreeContiguousFrames_result hp tier address.toNat frames.toNat
  · rw [pmmFreeFrame_result hp ha, pmmFreeContiguousFrames_result hp tier]
  -- a failed request changes nothing
  · intro hne
    rcases pmmFreeContiguousFrames_spec hp.toPmmInv tier ha frames.toNat with
      ⟨-, heq⟩ | ⟨hsuccess, -⟩
    · exact heq
    · exact absurd hsuccess hne
  · intro hne
    rcases pmmFreeFrame_spec hp.toPmmInv ha with ⟨-, heq⟩ | ⟨hsuccess, -⟩
    · exact heq
    · exact absurd hsuccess hne

theorem free_classifies_holeMap :
    (pmmFreeFrame (pmmInitialize .gpr (fun _ => 0) holeMap 0x1000 0x1000) 0x1000).1
      = .reserved := by
  have h := free_classifies (holeMap_accountingInv .gpr) .gpr 0x1000 1
  exact h.2.1.trans (h.1.trans (by decide +kernel))

end BareMetal
