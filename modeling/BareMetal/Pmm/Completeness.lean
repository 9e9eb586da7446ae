import BareMetal.Pmm.Runs

/-!
# Completeness of the contiguous search

The search is split at the hint into two sweeps, and the run length is reset between
them. A run of free frames that lies across the byte border at the hint is seen by
neither. `allocateContiguous_complete_iff` says that this is the only way to miss
one: a null answer means that no run exists exactly when some run, if there is any,
lies on one side of the hint.

`straddlingRun_missed` is a history that leaves the hint in the middle of the only
run of two free frames. The hint moves to the last byte of an allocation even if
that byte is not full, and a later release in the same byte does not move it back.
-/

namespace BareMetal

open Framework

/-- Below the total there are as many runs as in the whole bitmap. -/
theorem hasRun_bitmapBits_iff {p : Pmm} (hp : PmmInv p) {lo frames : ℕ} (h₀ : 0 < frames) :
    HasRun (frameFree p) lo (bitmapBits p) frames ↔
      HasRun (frameFree p) lo p.totalFrames frames := by
  constructor
  · rintro ⟨s, hlo, hhi, hrun⟩
    refine ⟨s, hlo, ?_, hrun⟩
    by_contra hlt
    -- the last frame of the run would be a padding bit
    have hlast : bitUsed p (s + frames - 1) = false := hrun _ (by omega) (by omega)
    rw [hp.padding_used _ (by omega) (by unfold bitmapBits at hhi; omega)] at hlast
    exact absurd hlast (by decide)
  · exact fun h => h.mono (le_refl _) (by unfold bitmapBits; omega)

/-- A null answer says that neither side of the hint holds a run. -/
theorem allocateContiguous_none_iff (tier : Tier) {p : Pmm} (hp : PmmInv p) {frames : ℕ}
    (h₀ : 0 < frames) :
    (pmmAllocateContiguousFrames tier p frames).1 = none ↔ FoundNowhere p frames := by
  rcases pmmAllocateContiguousFrames_spec hp tier frames with ⟨hnone, -, hno⟩ | ⟨s, hsome, hat, -⟩
  · exact ⟨fun _ => hno h₀, fun _ => hnone⟩
  · -- an address was returned, so one of the sweeps found a run
    refine ⟨fun h => absurd (h.symm.trans hsome) (by simp), fun ⟨hupper, hlower⟩ => ?_⟩
    cases hat with
    | upper fit => exact absurd fit.hasRun hupper
    | lower _ fit => exact absurd fit.hasRun hlower

/-- **When the contiguous search is complete.** In every state that any sequence of
calls reaches from initialization, a null answer to a request for `n ≥ 1` frames
means that there are no `n` consecutive free frames, if and only if such frames, when
there are any, can be found on one side of the search hint. -/
theorem allocateContiguous_complete_iff (tier : Tier) (mem : ByteMem) (map : List E820Entry)
    (kernelStart kernelEnd : ℕ) (hkernel : kernelStart ≤ kernelEnd)
    (hend : kernelEnd + (totalFramesOf map + 7) / 8 < 2 ^ 32 - 4096)
    {h : List (Call × Answer)} {p : Pmm}
    (hrun : (pmmMachine tier).Run (pmmInitialize tier mem map kernelStart kernelEnd) h p)
    {n : ℕ} (hn : 1 ≤ n) :
    ((pmmAllocateContiguousFrames tier p n).1 = none →
        ¬ HasRun (frameFree p) 0 p.totalFrames n) ↔
      (HasRun (frameFree p) 0 p.totalFrames n →
        HasRun (frameFree p) 0 (hintFrame p) n ∨
          HasRun (frameFree p) (hintFrame p) p.totalFrames n) := by
  have hbitmap : kernelEnd + (totalFramesOf map + 7) / 8 + 4095 < 2 ^ 32 := by omega
  obtain ⟨hinit, -⟩ := pmmInitialize_spec tier mem hkernel hbitmap
  have hp := (runInv_of_run hinit hrun).inv
  rw [allocateContiguous_none_iff tier hp hn, FoundNowhere, hasRun_bitmapBits_iff hp hn]
  constructor
  · -- a run on neither side is missed by both sweeps
    intro hcomplete hex
    by_contra hno
    rw [not_or] at hno
    exact hcomplete ⟨hno.2, hno.1⟩ hex
  · -- a run on either side would have been found by its sweep
    rintro hside ⟨hupper, hlower⟩ hex
    rcases hside hex with h | h
    · exact hlower h
    · exact hupper h

/-- A history that leaves frames 7 and 8 free on both sides of the hint. -/
def straddlingCalls : List Call :=
  [.allocateContiguousFrames 14, .freeFrame 0x7000, .freeContiguousFrames 0xA000 3,
    .freeFrame 0xF000, .allocateContiguousFrames 3, .freeFrame 0x8000]

/-- **A straddling run is missed**: frames 7 and 8 are free, and a request for two
frames is answered with a null pointer. -/
theorem straddlingRun_missed :
    let p₀ := pmmInitialize .gpr (fun _ => 0) ramMap 0x1000 0x1000
    let r := (pmmMachine .gpr).exec p₀ straddlingCalls
    (pmmMachine .gpr).Run p₀ r.1 r.2 ∧
      r.1.map Prod.snd = [.address (some 0x2000), .result .success, .result .success,
        .result .success, .address (some 0xA000), .result .success] ∧
      (pmmAllocateContiguousFrames .gpr r.2 2).1 = none ∧
      HasRun (frameFree r.2) 0 r.2.totalFrames 2 := by
  intro p₀ r
  have hbits : bitUsed r.2 7 = false ∧ bitUsed r.2 8 = false ∧ 9 ≤ r.2.totalFrames := by
    decide +kernel
  refine ⟨Machine.run_exec (fun _ _ => trivial) _ _, by decide +kernel, by decide +kernel, 7,
    Nat.zero_le _, hbits.2.2, ?_⟩
  intro f h₁ h₂
  obtain rfl | rfl : f = 7 ∨ f = 8 := by omega
  · exact hbits.1
  · exact hbits.2.1

/-- Allocations and frees that leave the hint at the start, so that the search is complete. -/
theorem allocateContiguous_complete_ramMap :
    let r := (pmmMachine .gpr).exec (pmmInitialize .gpr (fun _ => 0) ramMap 0x1000 0x1000)
      fragmentingCalls
    ¬ HasRun (frameFree r.2) 0 r.2.totalFrames 4 := by
  intro r
  have hhint : hintFrame r.2 = 0 := by decide +kernel
  refine (allocateContiguous_complete_iff .gpr (fun _ => 0) ramMap 0x1000 0x1000 (by decide)
    (by decide +kernel) (Machine.run_exec (fun _ _ => trivial) _ fragmentingCalls)
    (by decide)).mpr (fun h => .inr ?_) (by decide +kernel)
  change HasRun (frameFree r.2) (hintFrame r.2) r.2.totalFrames 4
  rwa [hhint]

end BareMetal
