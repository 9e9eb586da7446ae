import BareMetal.Pmm.Alignment
import BareMetal.Pmm.CoreSpec

/-!
# The three sweeps

A sweep searches the bytes of `[begin, end)` for `frames` consecutive clear bits.
It chains cores of growing width, each one bringing the scan pointer to the
alignment of the next, then the widest core of its tier over the aligned middle,
and last the narrower cores again for the unaligned tail. Every stage returns
early once a run is found, and otherwise hands its run length to the next.

`sweep_spec` is the common statement of the three tiers: a sweep of
`[begin, end)` started with run length zero reports the first fit when there is
one and the length of the free suffix otherwise, and it reads inside the range
with aligned vector loads.
-/

namespace BareMetal

open Framework

/-! ### The sweeps -/

/-- The early return between two stages, `if(run->length >= frames) return;`. -/
def Scan.unlessFound (s : Scan) (frames : ℕ) (next : Scan → Scan) : Scan :=
  if frames ≤ s.run.length then s else next s

/-- The stage that brings the pointer from alignment to the next one: the core runs
up to the next multiple of `mask + 1`, or to the last one in the range. -/
def alignStage (core : ℕ → Scan → Scan) (mask stop : ℕ) (s : Scan) : Scan :=
  core (alignedEnd mask s.start stop) s

/-- `sweep_32`. -/
def sweep32 (m : ByteMem) (bitmapStart begin stop frames : ℕ) (run : AllocationRun) : Scan :=
  let alignedEnd2 := alignDown 0x01 stop
  let alignedEnd4 := alignDown 0x03 stop
  (alignStage (contiguous8Core m bitmapStart frames) 0x01 stop ⟨run, begin, []⟩).unlessFound
    frames fun s =>
  (alignStage (contiguous16Core m bitmapStart frames) 0x03 stop s).unlessFound frames fun s =>
  (contiguous32Core m bitmapStart frames alignedEnd4 s).unlessFound frames fun s =>
  -- fallback
  (contiguous16Core m bitmapStart frames alignedEnd2 s).unlessFound frames fun s =>
  contiguous8Core m bitmapStart frames stop s

/-- `sweep_sse_2`. -/
def sweepSse2 (m : ByteMem) (bitmapStart begin stop frames : ℕ) (run : AllocationRun) : Scan :=
  let alignedEnd2 := alignDown 0x01 stop
  let alignedEnd4 := alignDown 0x03 stop
  let alignedEnd16 := alignDown 0x0F stop
  (alignStage (contiguous8Core m bitmapStart frames) 0x01 stop ⟨run, begin, []⟩).unlessFound
    frames fun s =>
  (alignStage (contiguous16Core m bitmapStart frames) 0x03 stop s).unlessFound frames fun s =>
  (alignStage (contiguous32Core m bitmapStart frames) 0x0F stop s).unlessFound frames fun s =>
  (contiguousSse2Core m bitmapStart frames alignedEnd16 s).unlessFound frames fun s =>
  -- fallback
  (contiguous32Core m bitmapStart frames alignedEnd4 s).unlessFound frames fun s =>
  (contiguous16Core m bitmapStart frames alignedEnd2 s).unlessFound frames fun s =>
  contiguous8Core m bitmapStart frames stop s

/-- `sweep_avx_2`. -/
def sweepAvx2 (m : ByteMem) (bitmapStart begin stop frames : ℕ) (run : AllocationRun) : Scan :=
  let alignedEnd2 := alignDown 0x01 stop
  let alignedEnd4 := alignDown 0x03 stop
  let alignedEnd16 := alignDown 0x0F stop
  let alignedEnd32 := alignDown 0x1F stop
  (alignStage (contiguous8Core m bitmapStart frames) 0x01 stop ⟨run, begin, []⟩).unlessFound
    frames fun s =>
  (alignStage (contiguous16Core m bitmapStart frames) 0x03 stop s).unlessFound frames fun s =>
  (alignStage (contiguous32Core m bitmapStart frames) 0x0F stop s).unlessFound frames fun s =>
  (alignStage (contiguousSse2Core m bitmapStart frames) 0x1F stop s).unlessFound frames fun s =>
  (contiguousAvx2Core m bitmapStart frames alignedEnd32 s).unlessFound frames fun s =>
  -- fallback
  (contiguousSse2Core m bitmapStart frames alignedEnd16 s).unlessFound frames fun s =>
  (contiguous32Core m bitmapStart frames alignedEnd4 s).unlessFound frames fun s =>
  (contiguous16Core m bitmapStart frames alignedEnd2 s).unlessFound frames fun s =>
  contiguous8Core m bitmapStart frames stop s

/-- The sweep of a tier. -/
def sweep : Tier → ByteMem → ℕ → ℕ → ℕ → ℕ → AllocationRun → Scan
  | .gpr => sweep32
  | .simd => sweepSse2
  | .avx2 => sweepAvx2

/-! ### Correctness -/

section Spec

variable {m : ByteMem} {bitmapStart begin last frames : ℕ}

/-- A sweep of `[begin, last)` that has got to a pointer with the alignments `ks`. -/
abbrev SweptTo (m : ByteMem) (bitmapStart begin last frames : ℕ) (ks : List ℕ) (s : Scan) :
    Prop :=
  Swept m bitmapStart (8 * begin) begin last frames s
    fun x => begin ≤ x ∧ x ≤ last ∧ Reached last ks x

/-- The early return: a stage is entered only with a carry. -/
theorem Swept.unlessFound {s : Scan} {lo : ℕ} {P Q : ℕ → Prop} {next : Scan → Scan}
    (h : Swept m bitmapStart lo begin last frames s P)
    (hnext : AccessesIn begin last s.loads →
      Carry (clearBit m) lo (8 * s.start) frames s.run.length → P s.start →
        Swept m bitmapStart lo begin last frames (next s) Q) :
    Swept m bitmapStart lo begin last frames (s.unlessFound frames next) Q := by
  obtain ⟨hloads, hfound | ⟨hcarry, hpos⟩⟩ := h
  · -- found: the later stages are skipped
    unfold Scan.unlessFound
    rw [if_pos (le_of_eq hfound.length_eq.symm)]
    exact ⟨hloads, .inl hfound⟩
  · have hlt := hcarry.lt
    unfold Scan.unlessFound
    rw [if_neg (by omega)]
    exact hnext hloads hcarry hpos

variable (hbm : bitmapStart ≤ begin) (hlast : last + 32 ≤ 2 ^ 32)
  (hsize : 8 * (last - bitmapStart) < 2 ^ 32)

include hbm hlast hsize

/-- A stage that aligns the pointer to the next width. -/
theorem SweptTo.alignStage {inspect : ℕ → ℕ → Inspect × List Access} {s : Scan} {j k mask : ℕ}
    {ks : List ℕ} (hins : InspectSound m bitmapStart j frames inspect) (hstep : Ladder j k mask ks)
    (hloads : AccessesIn begin last s.loads)
    (hcarry : Carry (clearBit m) (8 * begin) (8 * s.start) frames s.run.length)
    (hpos : begin ≤ s.start ∧ s.start ≤ last ∧ Reached last ks s.start) :
    SweptTo m bitmapStart begin last frames (k :: ks)
      (BareMetal.alignStage (contiguousCore inspect j frames) mask last s) := by
  obtain ⟨hb, hle, hreached⟩ := hpos
  have hk := hstep.alignMask
  obtain ⟨hend, hendle⟩ := hk.alignedEnd_spec hle hlast
  have hdownle := Nat.div_mul_le_self last k
  have haligned := hreached.dvd_of_lt_alignedEnd hk hle hlast hstep.pos hstep.dvd hstep.mem
  obtain ⟨hl, hout⟩ := contiguousCore_spec hins hstep.pos hbm (by omega) (hstep.dvd.trans hend)
    (by omega) hsize hb haligned hloads hcarry
  refine ⟨hl, hout.imp id fun ⟨hc, hp⟩ => ⟨hc, ?_⟩⟩
  -- without a hit the core stops at the end of the stage
  have hstart : (BareMetal.alignStage (contiguousCore inspect j frames) mask last s).start
      = max s.start (alignedEnd mask s.start last) := hp
  rw [hstart]
  exact ⟨by omega, by omega, hreached.alignStage hk hle hlast hstep.dvd_of_mem⟩

/-- A core that runs up to the last multiple of its width in the range. The alignment
to its own width is spent; the narrower ones are all the stages after it need. -/
theorem SweptTo.core {inspect : ℕ → ℕ → Inspect × List Access} {s : Scan} {j k mask : ℕ}
    {ks : List ℕ} (hins : InspectSound m bitmapStart k frames inspect) (hstep : Ladder j k mask ks)
    (hloads : AccessesIn begin last s.loads)
    (hcarry : Carry (clearBit m) (8 * begin) (8 * s.start) frames s.run.length)
    (hpos : begin ≤ s.start ∧ s.start ≤ last ∧ Reached last (k :: ks) s.start) :
    SweptTo m bitmapStart begin last frames ks
      (contiguousCore inspect k frames (alignDown mask last) s) := by
  obtain ⟨hb, hle, hreached⟩ := hpos
  have hk := hstep.alignMask
  have hdownle := Nat.div_mul_le_self last k
  rw [hk.alignDown_eq (a := last) (by omega)]
  have hdvd : k ∣ last / k * k := Nat.dvd_mul_left _ _
  obtain ⟨hl, hout⟩ := contiguousCore_spec hins hk.bounds.1 hbm (by omega) hdvd hdownle hsize hb
    (hreached k List.mem_cons_self) hloads hcarry
  refine ⟨hl, hout.imp id fun ⟨hc, hp⟩ => ⟨hc, ?_⟩⟩
  -- the pointer is at a multiple of `k`, hence of every narrower width
  have hnew := (hreached.mono (List.subset_cons_self k ks)).max_of_dvd fun i hi =>
    (hstep.dvd_of_mem i hi).trans hdvd
  have hstart : (contiguousCore inspect k frames (last / k * k) s).start
      = max s.start (last / k * k) := hp
  rw [hstart]
  exact ⟨by omega, by omega, hnew⟩

omit hlast in
/-- The last stage takes single bytes and ends the sweep. -/
theorem SweptTo.finish {inspect : ℕ → ℕ → Inspect × List Access} {s : Scan} {ks : List ℕ}
    (hins : InspectSound m bitmapStart 1 frames inspect)
    (hloads : AccessesIn begin last s.loads)
    (hcarry : Carry (clearBit m) (8 * begin) (8 * s.start) frames s.run.length)
    (hpos : begin ≤ s.start ∧ s.start ≤ last ∧ Reached last ks s.start) :
    Swept m bitmapStart (8 * begin) begin last frames
      (contiguousCore inspect 1 frames last s) (· = last) := by
  obtain ⟨hb, hle, -⟩ := hpos
  obtain ⟨hl, hout⟩ := contiguousCore_spec hins Nat.one_pos hbm (by omega) (one_dvd _) (le_refl _)
    hsize hb (fun _ => one_dvd _) hloads hcarry
  exact ⟨hl, hout.imp id fun ⟨hc, hp⟩ => ⟨hc, hp.trans (Nat.max_eq_right hle)⟩⟩

section Tiers

variable (h₀ : 0 < frames) (hrange : begin ≤ last)

include h₀ hrange

/-- The first stage, common to the three tiers. -/
theorem SweptTo.first (m : ByteMem) (startFrame : ℕ) :
    SweptTo m bitmapStart begin last frames [2]
      (BareMetal.alignStage (contiguous8Core m bitmapStart frames) 0x01 last
        ⟨⟨startFrame, 0⟩, begin, []⟩) := by
  have h8 := inspectWord_sound (.inl rfl) h₀ m bitmapStart
  have hnil : AccessesIn begin last [] := fun a ha => absurd ha (List.not_mem_nil)
  exact SweptTo.alignStage (s := ⟨⟨startFrame, 0⟩, begin, []⟩) hbm hlast hsize h8
    .two hnil (Carry.init h₀) ⟨le_refl _, hrange, Reached.nil _ _⟩

theorem sweep32_spec (m : ByteMem) (startFrame : ℕ) :
    Swept m bitmapStart (8 * begin) begin last frames
      (sweep32 m bitmapStart begin last frames ⟨startFrame, 0⟩) (· = last) := by
  have h8 := inspectWord_sound (.inl rfl) h₀ m bitmapStart
  have h16 := inspectWord_sound (.inr (.inl rfl)) h₀ m bitmapStart
  have h32 := inspectWord_sound (.inr (.inr rfl)) h₀ m bitmapStart
  simp only [sweep32]
  refine (SweptTo.first hbm hlast hsize h₀ hrange m startFrame).unlessFound ?_
  intro hl hc hp
  refine (SweptTo.alignStage hbm hlast hsize h16 .four hl hc hp).unlessFound ?_
  intro hl hc hp
  refine (SweptTo.core hbm hlast hsize h32 .four hl hc hp).unlessFound ?_
  intro hl hc hp
  -- fallback
  refine (SweptTo.core hbm hlast hsize h16 .two hl hc hp).unlessFound ?_
  intro hl hc hp
  exact SweptTo.finish hbm hsize h8 hl hc hp

theorem sweepSse2_spec (m : ByteMem) (startFrame : ℕ) :
    Swept m bitmapStart (8 * begin) begin last frames
      (sweepSse2 m bitmapStart begin last frames ⟨startFrame, 0⟩) (· = last) := by
  have h8 := inspectWord_sound (.inl rfl) h₀ m bitmapStart
  have h16 := inspectWord_sound (.inr (.inl rfl)) h₀ m bitmapStart
  have h32 := inspectWord_sound (.inr (.inr rfl)) h₀ m bitmapStart
  have h128 := inspectVector_sound (n := 16) (by decide) (by decide) (by decide) m bitmapStart
    movemask_cmpeqEpi32 h32
  simp only [sweepSse2]
  refine (SweptTo.first hbm hlast hsize h₀ hrange m startFrame).unlessFound ?_
  intro hl hc hp
  refine (SweptTo.alignStage hbm hlast hsize h16 .four hl hc hp).unlessFound ?_
  intro hl hc hp
  refine (SweptTo.alignStage hbm hlast hsize h32 .sixteen hl hc hp).unlessFound ?_
  intro hl hc hp
  refine (SweptTo.core hbm hlast hsize h128 .sixteen hl hc hp).unlessFound ?_
  intro hl hc hp
  -- fallback
  refine (SweptTo.core hbm hlast hsize h32 .four hl hc hp).unlessFound ?_
  intro hl hc hp
  refine (SweptTo.core hbm hlast hsize h16 .two hl hc hp).unlessFound ?_
  intro hl hc hp
  exact SweptTo.finish hbm hsize h8 hl hc hp

theorem sweepAvx2_spec (m : ByteMem) (startFrame : ℕ) :
    Swept m bitmapStart (8 * begin) begin last frames
      (sweepAvx2 m bitmapStart begin last frames ⟨startFrame, 0⟩) (· = last) := by
  have h8 := inspectWord_sound (.inl rfl) h₀ m bitmapStart
  have h16 := inspectWord_sound (.inr (.inl rfl)) h₀ m bitmapStart
  have h32 := inspectWord_sound (.inr (.inr rfl)) h₀ m bitmapStart
  have h128 := inspectVector_sound (n := 16) (by decide) (by decide) (by decide) m bitmapStart
    movemask_cmpeqEpi32 h32
  have h256 := inspectVector_sound (n := 32) (by decide) (by decide) (by decide) m bitmapStart
    movemask_cmpeqEpi8 h128
  simp only [sweepAvx2]
  refine (SweptTo.first hbm hlast hsize h₀ hrange m startFrame).unlessFound ?_
  intro hl hc hp
  refine (SweptTo.alignStage hbm hlast hsize h16 .four hl hc hp).unlessFound ?_
  intro hl hc hp
  refine (SweptTo.alignStage hbm hlast hsize h32 .sixteen hl hc hp).unlessFound ?_
  intro hl hc hp
  refine (SweptTo.alignStage hbm hlast hsize h128 .thirtyTwo hl hc hp).unlessFound
    ?_
  intro hl hc hp
  refine (SweptTo.core hbm hlast hsize h256 .thirtyTwo hl hc hp).unlessFound ?_
  intro hl hc hp
  -- fallback
  refine (SweptTo.core hbm hlast hsize h128 .sixteen hl hc hp).unlessFound ?_
  intro hl hc hp
  refine (SweptTo.core hbm hlast hsize h32 .four hl hc hp).unlessFound ?_
  intro hl hc hp
  refine (SweptTo.core hbm hlast hsize h16 .two hl hc hp).unlessFound ?_
  intro hl hc hp
  exact SweptTo.finish hbm hsize h8 hl hc hp

/-- **Every tier sweeps its range**, whatever its alignment. -/
theorem sweep_spec (tier : Tier) (m : ByteMem) (startFrame : ℕ) :
    Swept m bitmapStart (8 * begin) begin last frames
      (sweep tier m bitmapStart begin last frames ⟨startFrame, 0⟩) (· = last) := by
  cases tier with
  | gpr => exact sweep32_spec hbm hlast hsize h₀ hrange m startFrame
  | simd => exact sweepSse2_spec hbm hlast hsize h₀ hrange m startFrame
  | avx2 => exact sweepAvx2_spec hbm hlast hsize h₀ hrange m startFrame

end Tiers

end Spec

/-! ### The answer -/

/-- What a bit-by-bit first-fit scan of `[begin, last)` answers: the smallest start
of a run of `frames` clear bits, counted from the first bit of the bitmap, or else
the number of clear bits that end at `last`. -/
structure ScanAnswer (m : ByteMem) (bitmapStart begin last frames : ℕ) (run : AllocationRun) :
    Prop where
  hit : HasRun (clearBit m) (8 * begin) (8 * last) frames →
    run.length = frames ∧
      FirstFit (clearBit m) (8 * begin) (8 * last) frames (run.startFrame + 8 * bitmapStart)
  miss : ¬ HasRun (clearBit m) (8 * begin) (8 * last) frames →
    run.length < frames ∧ 8 * begin + run.length ≤ 8 * last ∧
      FreeRun (clearBit m) (8 * last - run.length) run.length ∧
      (8 * begin < 8 * last - run.length → ¬ clearBit m (8 * last - run.length - 1))

theorem Swept.answer {m : ByteMem} {bitmapStart begin last frames : ℕ} {s : Scan}
    (h : Swept m bitmapStart (8 * begin) begin last frames s (· = last)) :
    ScanAnswer m bitmapStart begin last frames s.run := by
  obtain ⟨-, hfound | ⟨hcarry, hpos⟩⟩ := h
  · -- a hit is the first fit of the whole range
    exact ⟨fun _ => ⟨hfound.length_eq, hfound.fit⟩, fun hno => absurd hfound.fit.hasRun hno⟩
  · rw [hpos] at hcarry
    exact ⟨fun hrun => absurd hrun hcarry.noFit,
      fun _ => ⟨hcarry.lt, hcarry.len_le, hcarry.suffix, hcarry.maximal⟩⟩

/-- A scan has one answer. -/
theorem ScanAnswer.length_unique {m : ByteMem} {bitmapStart begin last frames : ℕ}
    {run run' : AllocationRun} (h : ScanAnswer m bitmapStart begin last frames run)
    (h' : ScanAnswer m bitmapStart begin last frames run') : run.length = run'.length := by
  by_cases hrun : HasRun (clearBit m) (8 * begin) (8 * last) frames
  · exact (h.hit hrun).1.trans (h'.hit hrun).1.symm
  · obtain ⟨-, h₁, h₂, h₃⟩ := h.miss hrun
    obtain ⟨-, h₁', h₂', h₃'⟩ := h'.miss hrun
    exact Carry.unique ⟨h₁, h₂, h₃, hrun⟩ ⟨h₁', h₂', h₃', hrun⟩

theorem ScanAnswer.startFrame_unique {m : ByteMem} {bitmapStart begin last frames : ℕ}
    {run run' : AllocationRun} (h : ScanAnswer m bitmapStart begin last frames run)
    (h' : ScanAnswer m bitmapStart begin last frames run')
    (hrun : HasRun (clearBit m) (8 * begin) (8 * last) frames) :
    run.startFrame = run'.startFrame := by
  have heq := (h.hit hrun).2.unique (h'.hit hrun).2
  omega

/-- **The tiers agree with a bit-by-bit first-fit scan.** Whatever the bitmap
holds and however the range is aligned, every tier gives the scan's answer, all
tiers give the same one, and none reads outside the range or loads an unaligned
vector. The bitmap's bit numbers have to fit a `size_t`, as `pmm_initialize`
ensures with `accessable_frames`. -/
theorem sweep_answers (tier : Tier) (m : ByteMem)
    (bitmapStart begin last frames startFrame : ℕ) (hbm : bitmapStart ≤ begin)
    (hrange : begin ≤ last) (hlast : last + 32 ≤ 2 ^ 32)
    (hsize : 8 * (last - bitmapStart) < 2 ^ 32) (h₀ : 1 ≤ frames) :
    ScanAnswer m bitmapStart begin last frames
        (sweep tier m bitmapStart begin last frames ⟨startFrame, 0⟩).run ∧
      AccessesIn begin last (sweep tier m bitmapStart begin last frames ⟨startFrame, 0⟩).loads ∧
      ∀ tier' startFrame',
        (sweep tier m bitmapStart begin last frames ⟨startFrame, 0⟩).run.length
          = (sweep tier' m bitmapStart begin last frames ⟨startFrame', 0⟩).run.length ∧
        (HasRun (clearBit m) (8 * begin) (8 * last) frames →
          (sweep tier m bitmapStart begin last frames ⟨startFrame, 0⟩).run
            = (sweep tier' m bitmapStart begin last frames ⟨startFrame', 0⟩).run) := by
  -- whatever `start_frame` held before, as the run length starts at zero
  have hspec := fun t f => sweep_spec hbm hlast hsize h₀ hrange t m f
  refine ⟨(hspec tier startFrame).answer, (hspec tier startFrame).loads, ?_⟩
  intro t f
  have hlength := (hspec tier startFrame).answer.length_unique (hspec t f).answer
  refine ⟨hlength, ?_⟩
  intro hrun
  have hstart := (hspec tier startFrame).answer.startFrame_unique (hspec t f).answer hrun
  generalize (sweep tier m bitmapStart begin last frames ⟨startFrame, 0⟩).run = r at *
  generalize (sweep t m bitmapStart begin last frames ⟨f, 0⟩).run = r' at *
  cases r
  cases r'
  exact congrArg₂ AllocationRun.mk hstart hlength

/-- A bitmap at an odd address whose only clear bits are a run of 20 across three
bytes: the widest tier reports it. -/
theorem sweep_answers_avx2 :
    (sweep .avx2 (fun a => if a = 0x1045 then 0x0F else if a = 0x1046 ∨ a = 0x1047 then 0
      else 0xFF) 0x1001 0x1003 0x1093 20 ⟨0, 0⟩).run.length = 20 := by
  have hrun : HasRun (clearBit fun a => if a = 0x1045 then 0x0F
      else if a = 0x1046 ∨ a = 0x1047 then 0 else 0xFF) (8 * 0x1003) (8 * 0x1093) 20 := by
    refine ⟨8 * 0x1045 + 4, by decide, by decide, ?_⟩
    intro i h₁ h₂
    obtain ⟨j, rfl⟩ := Nat.exists_eq_add_of_le h₁
    have hj : j < 20 := by omega
    clear h₁ h₂
    revert j
    decide
  exact ((sweep_answers .avx2 _ 0x1001 0x1003 0x1093 20 0 (by decide) (by decide) (by decide)
    (by decide) (by decide)).1.hit hrun).1

end BareMetal
