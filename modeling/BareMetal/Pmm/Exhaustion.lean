import BareMetal.Framework.Pool
import BareMetal.Pmm.Laws

/-!
# Exhaustion

No free frame is hidden from `pmm_allocate_frame`. The hint may sit anywhere, as a
contiguous allocation moves it forward over gaps, but a null answer means that both scans,
from the hint to the end and from the start to the hint, met full bytes only. So the calls
drain the set of free frames (`draws_freeSet`), and `allocateFrame_exhausts` is
`Draws.drain` for it.
-/

namespace BareMetal

open Framework

variable {p p' : Pmm}

/-- Where neither side of the hint has a free frame, there is none. -/
theorem FoundNowhere.freeSet_eq (h : FoundNowhere p 1) : freeSet p = ∅ := by
  apply Finset.eq_empty_of_forall_notMem
  intro f hf
  obtain ⟨hlt, hclear⟩ := mem_freeSet.mp hf
  -- a free frame is a run of one, on either side of the hint
  have hrun : FreeRun (frameFree p) f 1 := by
    intro t h₁ h₂
    obtain rfl : t = f := by omega
    exact hclear
  by_cases hside : f < hintFrame p
  · exact h.2 ⟨f, Nat.zero_le f, hside, hrun⟩
  · exact h.1 ⟨f, not_lt.mp hside, by unfold bitmapBits; omega, hrun⟩

/-- Marking one free frame takes it out of the set. -/
theorem Marked.freeSet_eq {f : ℕ} (h : Marked p p' f 1) : freeSet p' = (freeSet p).erase f := by
  ext g
  rw [Finset.mem_erase, mem_freeSet, mem_freeSet, h.bitUsed_eq, h.layout.total]
  by_cases hg : g = f
  · rw [if_pos (by omega)]
    simp [hg]
  · rw [if_neg (by omega)]
    simp [hg]

/-- A free frame is not frame 0, so its address is not the null pointer. -/
theorem frameAddress_ne_nullptr (hp : PmmInv p) {f : ℕ} (hf : f ∈ freeSet p) :
    frameAddress f ≠ nullptr := by
  obtain ⟨hlt, hclear⟩ := mem_freeSet.mp hf
  have htotal := hp.total_le
  rw [frameAddress_eq (by omega)]
  intro hnull
  obtain rfl : f = 0 := by
    unfold nullptr at hnull
    omega
  have hreserved : Reserved p 0 :=
    ⟨p.reserved0, List.mem_cons_self, by rw [hp.first_reserved]; decide⟩
  rw [hp.reserved_used 0 hreserved hlt] at hclear
  exact absurd hclear (by decide)

/-- **`pmm_allocate_frame` draws from the free frames.** -/
theorem draws_freeSet (tier : Tier) : Draws (pmmMachine tier) .allocateFrame AccountingInv freeSet
    (fun f => .address (some (frameAddress f))) (.address none) where
  hit p hp hne := by
    rcases pmmAllocateFrame_spec hp.toPmmInv with ⟨hnull, -, -⟩ | ⟨-, f, -, -, -, hsome, hmark⟩
    · rw [((freeBytePtr_spec hp).1 hnull).freeSet_eq] at hne
      exact absurd hne Finset.not_nonempty_empty
    · have hfits := hmark.fits
      have htotal := hp.total_le
      refine ⟨f, mem_freeSet.mpr ⟨hfits, hmark.before f (le_refl f) (Nat.lt_succ_self f)⟩, ?_,
        hmark.accountingInv hp, hmark.freeSet_eq⟩
      rw [frameAddress_eq (by omega)]
      exact congrArg Answer.address hsome
  miss p hp hempty := by
    rcases pmmAllocateFrame_spec hp.toPmmInv with ⟨-, hnone, heq⟩ | ⟨-, f, -, -, -, -, hmark⟩
    · exact Prod.ext (congrArg Answer.address hnone) heq
    · -- a frame that was marked had been free
      have hmem : f ∈ freeSet p :=
        mem_freeSet.mpr ⟨hmark.fits, hmark.before f (le_refl f) (Nat.lt_succ_self f)⟩
      rw [hempty] at hmem
      exact absurd hmem (Finset.notMem_empty f)

/-- The call under the answer. -/
theorem allocateFrame_of_step {tier : Tier} {a : Option ℕ}
    (h : (pmmMachine tier).step p .allocateFrame = (.address a, p')) :
    pmmAllocateFrame p = (a, p') := by
  have hanswer : Answer.address (pmmAllocateFrame p).1 = .address a := congrArg Prod.fst h
  have hstate : (pmmAllocateFrame p).2 = p' := congrArg Prod.snd h
  exact Prod.ext (Answer.address.inj hanswer) hstate

/-- As many calls as there are free frames return their addresses, and the next one
fails. -/
theorem exec_allocateFrame (hp : AccountingInv p) (tier : Tier) {n : ℕ}
    (hn : (freeSet p).card = n) :
    let drained := (pmmMachine tier).exec p (List.replicate n .allocateFrame)
    ∃ addresses : List ℕ,
      drained.1 = addresses.map (fun a => (.allocateFrame, .address (some a))) ∧
        addresses.length = n ∧ nullptr ∉ addresses ∧ addresses.Nodup ∧
        (∀ a, a ∈ addresses ↔
          ∃ f < p.totalFrames, bitUsed p f = false ∧ a = frameAddress f) ∧
        pmmAllocateFrame drained.2 = (none, drained.2) := by
  intro drained
  -- each call takes one free frame, until none is left
  obtain ⟨fs, hexec, hnodup, hset, hlast⟩ := (draws_freeSet tier).drain hp hn
  have hmem : ∀ f, f ∈ fs ↔ f ∈ freeSet p := by
    intro f
    rw [← hset, List.mem_toFinset]
  refine ⟨fs.map frameAddress, ?_, ?_, ?_, ?_, ?_, allocateFrame_of_step hlast⟩
  · rw [List.map_map]
    exact hexec
  · rw [List.length_map, ← hn, ← hset, List.toFinset_card_of_nodup hnodup]
  -- frame 0 is not free
  · intro h
    obtain ⟨f, hf, hnull⟩ := List.mem_map.mp h
    exact frameAddress_ne_nullptr hp.toPmmInv ((hmem f).mp hf) hnull
  · -- addresses of frames below `2 ^ 20` do not wrap
    have htotal := hp.total_le
    refine hnodup.map_on ?_
    intro f hf g hg heq
    have hlt := (mem_freeSet.mp ((hmem f).mp hf)).1
    have hlt' := (mem_freeSet.mp ((hmem g).mp hg)).1
    rw [frameAddress_eq (by omega), frameAddress_eq (by omega)] at heq
    omega
  -- the addresses are those of the frames that were free
  · intro a
    rw [List.mem_map]
    constructor
    · rintro ⟨f, hf, rfl⟩
      obtain ⟨hlt, hclear⟩ := mem_freeSet.mp ((hmem f).mp hf)
      exact ⟨f, hlt, hclear, rfl⟩
    · rintro ⟨f, hlt, hclear, rfl⟩
      exact ⟨f, (hmem f).mpr (mem_freeSet.mpr ⟨hlt, hclear⟩), rfl⟩

/-- **No free frame is hidden.** With `k` the value of `pmm_free_frames`, `k` calls of
`pmm_allocate_frame` in a row return addresses other than null. They are pairwise distinct,
and they are the addresses of the frames whose bit was clear. The next call returns null and
leaves the state alone. -/
theorem allocateFrame_exhausts (hp : AccountingInv p) (tier : Tier) :
    let drained := (pmmMachine tier).exec p (List.replicate (pmmFreeFrames p) .allocateFrame)
    ∃ addresses : List ℕ,
      drained.1 = addresses.map (fun a => (.allocateFrame, .address (some a))) ∧
        addresses.length = pmmFreeFrames p ∧ nullptr ∉ addresses ∧ addresses.Nodup ∧
        (∀ a, a ∈ addresses ↔
          ∃ f < p.totalFrames, bitUsed p f = false ∧ a = frameAddress f) ∧
        pmmAllocateFrame drained.2 = (none, drained.2) :=
  exec_allocateFrame hp tier (hp.counted.pmmFreeFrames_eq hp.toPmmInv).symm

theorem allocateFrame_exhausts_holeMap :
    let p := pmmInitialize .simd (fun _ => 0) holeMap 0x1000 0x1000
    let drained := (pmmMachine .simd).exec p (List.replicate (pmmFreeFrames p) .allocateFrame)
    pmmFreeFrames p = 1 ∧ pmmAllocateFrame drained.2 = (none, drained.2) := by
  obtain ⟨_, -, -, -, -, -, hlast⟩ :=
    allocateFrame_exhausts (holeMap_accountingInv .simd) .simd
  exact ⟨by decide +kernel, hlast⟩

end BareMetal
