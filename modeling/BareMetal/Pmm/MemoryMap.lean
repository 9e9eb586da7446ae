import BareMetal.Pmm.Accounting
import Mathlib.Algebra.BigOperators.Group.Finset.Piecewise
import Mathlib.Algebra.Order.BigOperators.Group.Finset
import Mathlib.Data.Nat.ModEq

/-!
# The memory map after initialization

The bitmap that `pmm_initialize` builds depends on the usable entries only through
the set of frames they wholly contain: entries may come in any order, overlap or be
empty (`pmmInitialize_bitmap`). The counter does not. Each entry takes the number of
its frames off, whether their bits were still set or not, so a frame that lies in
several usable entries is taken off several times.

`holders map f` is the number of usable entries that contain frame `f`, and `surplus`
adds up what is counted too often. The counter is right exactly when the surplus is
lost in the wrap-around of a `size_t` (`pmmInitialize_counted_iff`), which for maps of at
most 4096 entries means that there is none. `repeatedMap` has one: three equal entries
leave more free frames than there are frames.
-/

namespace BareMetal

open Framework Finset

/-! ### Entries -/

/-- The sums that the code forms with an entry do not wrap. -/
def E820Entry.Bounded (entry : E820Entry) : Prop :=
  entry.base.toNat + entry.length.toNat + 4095 < 2 ^ 64

/-- The entry is usable and wholly contains frame `f`. -/
def E820Entry.Holds (entry : E820Entry) (f : ℕ) : Prop :=
  entry.type = .usable ∧ (entry.base.toNat + 4095) / 4096 ≤ f ∧
    f < (entry.base.toNat + entry.length.toNat) / 4096

instance (entry : E820Entry) (f : ℕ) : Decidable (entry.Holds f) :=
  inferInstanceAs (Decidable (_ ∧ _))

/-- The ends of the usable entries. -/
def usableEnds (map : List E820Entry) : List ℕ :=
  (map.filter fun entry => entry.type = .usable).map fun entry =>
    entry.base.toNat + entry.length.toNat

theorem E820Entry.Bounded.end_eq {entry : E820Entry} (h : entry.Bounded) :
    (entry.base + entry.length).toNat = entry.base.toNat + entry.length.toNat := by
  unfold E820Entry.Bounded at h
  rw [BitVec.toNat_add]
  exact Nat.mod_eq_of_lt (by omega)

theorem E820Entry.Bounded.roundUp_eq {entry : E820Entry} (h : entry.Bounded) :
    (entry.base + BitVec.ofNat 64 (frameSize - 1)).toNat = entry.base.toNat + 4095 := by
  unfold E820Entry.Bounded at h
  rw [BitVec.toNat_add, BitVec.toNat_ofNat]
  unfold frameSize
  omega

/-- The frames that an entry releases. -/
theorem mem_entrySet_iff {p : Pmm} {entry : E820Entry} (hb : entry.type = .usable → entry.Bounded)
    {f : ℕ} : f ∈ entrySet p entry ↔ entry.Holds f ∧ f < p.totalFrames ∧ ¬ Reserved p f := by
  rw [mem_entrySet]
  unfold E820Entry.Holds
  by_cases htype : entry.type = .usable
  · have hbounded := hb htype
    unfold entryFrames frameShift
    rw [hbounded.end_eq, hbounded.roundUp_eq, Nat.shiftRight_eq_div_pow, Nat.shiftRight_eq_div_pow]
    simp only [lt_min_iff, min_le_iff]
    -- below the total the cut at the total does not matter
    constructor
    · rintro ⟨-, hlo | hlo, ⟨hhi, hlt⟩, hres⟩
      · exact ⟨⟨htype, hlo, hhi⟩, hlt, hres⟩
      · omega
    · rintro ⟨⟨-, hlo, hhi⟩, hlt, hres⟩
      exact ⟨htype, .inl hlo, ⟨hhi, hlt⟩, hres⟩
  · simp [htype]

/-- The highest address is the largest end of a usable entry. -/
theorem highestAddress_eq {map : List E820Entry}
    (hmap : ∀ entry ∈ map, entry.type = .usable → entry.Bounded) :
    highestAddress map = (usableEnds map).foldl max 0 := by
  unfold highestAddress usableEnds
  generalize 0 = highest
  induction map generalizing highest with
  | nil => rfl
  | cons entry map ih =>
    have htail := ih fun e he => hmap e (List.mem_cons_of_mem entry he)
    by_cases htype : entry.type = .usable
    · rw [List.foldl_cons, if_pos htype, (hmap entry List.mem_cons_self htype).end_eq, htail,
        List.filter_cons, if_pos (decide_eq_true htype), List.map_cons, List.foldl_cons]
    · rw [List.foldl_cons, if_neg htype, htail,
        List.filter_cons, if_neg (by rw [decide_eq_true_iff]; exact htype)]

/-! ### The bitmap -/

/-- **What `pmm_initialize` builds.** The number of frames is that below the highest end
of a usable entry, at most `2 ^ 20`. The bitmap lies behind the kernel, with one bit a
frame; a bit is clear exactly for the frames outside the two reserved regions that some
usable entry wholly contains, and the rest of the last byte is set. -/
theorem pmmInitialize_bitmap (tier : Tier) (mem : ByteMem) {map : List E820Entry}
    {kernelStart kernelEnd : ℕ} (hmap : ∀ entry ∈ map, entry.type = .usable → entry.Bounded)
    (hkernel : kernelStart ≤ kernelEnd)
    (hend : kernelEnd + (totalFramesOf map + 7) / 8 + 4095 < 2 ^ 32) :
    let p := pmmInitialize tier mem map kernelStart kernelEnd
    p.totalFrames = min ((usableEnds map).foldl max 0 / 4096) (2 ^ 20) ∧
      p.bitmap.start = kernelEnd ∧ p.bitmap.end_ = kernelEnd + (p.totalFrames + 7) / 8 ∧
      (∀ f < p.totalFrames, bitUsed p f = false ↔
        f ≠ 0 ∧ ¬ (kernelStart / 4096 ≤ f ∧ f < (p.bitmap.end_ + 4095) / 4096) ∧
          ∃ entry ∈ map, entry.Holds f) ∧
      ∀ f, p.totalFrames ≤ f → f < 8 * (p.bitmap.end_ - p.bitmap.start) →
        bitUsed p f = true := by
  intro p
  obtain ⟨hinv, hlayout, -, hbits⟩ := pmmInitialize_spec tier mem hkernel hend
  have htotal : p.totalFrames = totalFramesOf map := hlayout.total
  have hstart : p.bitmap.start = kernelEnd := hlayout.start
  have hlast : p.bitmap.end_ = kernelEnd + (totalFramesOf map + 7) / 8 :=
    hlayout.end_.trans (initialBitmap_end tier mem hend)
  refine ⟨?_, hstart, by rw [hlast, htotal], ?_, ?_⟩
  · rw [htotal, totalFramesOf, highestAddress_eq hmap, frameShift, Nat.shiftRight_eq_div_pow]
    rfl
  · intro f hf
    rw [htotal] at hf
    rw [Bool.eq_false_iff, ne_eq, hbits f hf]
    -- the frames of the entries, and the regions written out
    have hentry : ∀ entry ∈ map, (f ∈ entrySet (initialBitmap tier mem map kernelStart kernelEnd)
        entry ↔ entry.Holds f ∧ f < totalFramesOf map ∧ ¬ Reserved
          (initialBitmap tier mem map kernelStart kernelEnd) f) :=
      fun entry he => mem_entrySet_iff (hmap entry he)
    rw [initialBitmap_reserved_iff tier mem hkernel hend, ← hlast] at hentry
    simp only [not_forall, not_not]
    constructor
    · rintro ⟨entry, he, hmem⟩
      obtain ⟨hholds, -, hres⟩ := (hentry entry he).mp hmem
      exact ⟨by omega, by omega, entry, he, hholds⟩
    · rintro ⟨hzero, hkernelf, entry, he, hholds⟩
      exact ⟨entry, he, (hentry entry he).mpr ⟨hholds, hf, by omega⟩⟩
  · intro f h₁ h₂
    rw [show p.bitmap.end_ = p.bitmap.start + (p.totalFrames + 7) / 8 from hinv.end_eq,
      Nat.add_sub_cancel_left] at h₂
    exact hinv.padding_used f h₁ h₂

/-! ### The counter -/

/-- The number of usable entries that wholly contain frame `f`. -/
def holders (map : List E820Entry) (f : ℕ) : ℕ := map.countP fun entry => entry.Holds f

/-- The frames that initialization may free. -/
def unreserved (p : Pmm) : Finset ℕ := (range p.totalFrames).filter fun f => ¬ Reserved p f

/-- How often unreserved frames are taken off the counter after the first time. -/
def surplus (p : Pmm) (map : List E820Entry) : ℕ := ∑ f ∈ unreserved p, (holders map f - 1)

theorem mem_unreserved {p : Pmm} {f : ℕ} :
    f ∈ unreserved p ↔ f < p.totalFrames ∧ ¬ Reserved p f := by
  rw [unreserved, mem_filter, mem_range]

theorem SameLayout.unreserved_eq {p p' : Pmm} (h : SameLayout p p') :
    unreserved p' = unreserved p := by
  ext f
  rw [mem_unreserved, mem_unreserved, h.total, h.reserved_iff]

/-- The sizes of the entries' sets, counted frame by frame. -/
theorem sum_card_entrySet {p : Pmm} {map : List E820Entry}
    (hmap : ∀ entry ∈ map, entry.type = .usable → entry.Bounded) :
    (map.map fun entry => (entrySet p entry).card).sum = ∑ f ∈ unreserved p, holders map f := by
  induction map with
  | nil => exact (sum_eq_zero fun f _ => rfl).symm
  | cons entry map ih =>
    have hset : entrySet p entry = (unreserved p).filter fun f => entry.Holds f := by
      ext f
      rw [mem_entrySet_iff (hmap entry List.mem_cons_self), mem_filter, mem_unreserved]
      tauto
    rw [List.map_cons, List.sum_cons, ih fun e he => hmap e (List.mem_cons_of_mem entry he), hset,
      card_filter, ← sum_add_distrib]
    refine sum_congr rfl ?_
    intro f _
    unfold holders
    rw [List.countP_cons, Nat.add_comm]
    simp only [decide_eq_true_iff]

/-- What the second loop of `pmm_initialize` takes off the counter. -/
theorem freeEntries_usedFrames (tier : Tier) (map : List E820Entry) {p : Pmm} (hp : PmmInv p) :
    (map.foldl (freeEntry tier) p).usedFrames + (map.map fun e => (entrySet p e).card).sum
      ≡ p.usedFrames [MOD 2 ^ 32] := by
  induction map generalizing p with
  | nil => exact Nat.ModEq.refl _
  | cons entry map ih =>
    have hstep := freeEntry_spec tier hp entry
    have hp' : PmmInv (freeEntry tier p entry) := hstep.inv hp fun f hf =>
      ⟨lt_total_of_mem_entrySet hf, (mem_entrySet.mp hf).2.2.2⟩
    have hrest := ih hp'
    simp only [hstep.layout.entrySet_eq] at hrest
    -- one entry wraps at most once
    have hcard : (entrySet p entry).card ≤ p.totalFrames := by
      have hsub : entrySet p entry ⊆ range p.totalFrames := fun f hf =>
        mem_range.mpr (lt_total_of_mem_entrySet hf)
      exact (card_le_card hsub).trans (le_of_eq (card_range _))
    have htotal := hp.total_le
    have hused := hstep.used_eq
    rw [List.foldl_cons, List.map_cons, List.sum_cons]
    unfold usizeSub at hused
    unfold Nat.ModEq at hrest ⊢
    omega

/-- Every frame that is held is counted once or in the surplus. -/
theorem sum_holders (p : Pmm) (map : List E820Entry) :
    ∑ f ∈ unreserved p, holders map f
      = surplus p map + ((unreserved p).filter fun f => 0 < holders map f).card := by
  unfold surplus
  rw [card_filter, ← sum_add_distrib]
  refine sum_congr rfl ?_
  intro f _
  split <;> omega

theorem surplus_eq_zero_iff (p : Pmm) (map : List E820Entry) :
    surplus p map = 0 ↔ ∀ f < p.totalFrames, ¬ Reserved p f → holders map f ≤ 1 := by
  unfold surplus
  rw [sum_eq_zero_iff]
  simp only [mem_unreserved, Nat.sub_eq_zero_iff_le, and_imp]

/-- A short map cannot lose its surplus in the wrap-around. -/
theorem surplus_lt {p : Pmm} {map : List E820Entry} (htotal : p.totalFrames ≤ 2 ^ 20)
    (hlength : map.length ≤ 4096) : surplus p map < 2 ^ 32 := by
  have hone : ∀ f ∈ unreserved p, holders map f - 1 ≤ 4095 := fun f _ => by
    have hle : holders map f ≤ map.length := List.countP_le_length
    omega
  have hcard : (unreserved p).card ≤ 2 ^ 20 := by
    have hle := card_filter_le (range p.totalFrames) fun f => ¬ Reserved p f
    rw [card_range] at hle
    exact hle.trans htotal
  calc surplus p map ≤ (unreserved p).card * 4095 := sum_le_card_nsmul _ _ _ hone
    _ ≤ 2 ^ 20 * 4095 := Nat.mul_le_mul_right _ hcard
    _ < 2 ^ 32 := by decide

/-- The set bits are the frames that no entry frees. -/
theorem card_usedSet_pmmInitialize (tier : Tier) (mem : ByteMem) {map : List E820Entry}
    {kernelStart kernelEnd : ℕ} (hmap : ∀ entry ∈ map, entry.type = .usable → entry.Bounded)
    (hkernel : kernelStart ≤ kernelEnd)
    (hend : kernelEnd + (totalFramesOf map + 7) / 8 + 4095 < 2 ^ 32) :
    let p := pmmInitialize tier mem map kernelStart kernelEnd
    (usedSet p).card + ((unreserved p).filter fun f => 0 < holders map f).card
      = p.totalFrames := by
  intro p
  obtain ⟨-, hlayout, -, hbits⟩ := pmmInitialize_spec tier mem hkernel hend
  have htotal : p.totalFrames = totalFramesOf map := hlayout.total
  have hused : usedSet p
      = range p.totalFrames \ (unreserved p).filter fun f => 0 < holders map f := by
    ext f
    rw [mem_usedSet, mem_sdiff, mem_range, mem_filter, mem_unreserved]
    apply and_congr_right
    intro hf
    rw [hbits f (htotal ▸ hf)]
    unfold holders
    rw [List.countP_pos_iff, hlayout.reserved_iff]
    -- a bit is set if no entry's set has the frame
    constructor
    · rintro hnone ⟨⟨-, hres⟩, entry, he, hholds⟩
      exact hnone entry he ((mem_entrySet_iff (hmap entry he)).mpr
        ⟨of_decide_eq_true hholds, lt_of_lt_of_eq hf htotal, hres⟩)
    · intro hnone entry he hmem
      obtain ⟨hholds, -, hres⟩ := (mem_entrySet_iff (hmap entry he)).mp hmem
      exact hnone ⟨⟨hf, hres⟩, entry, he, decide_eq_true hholds⟩
  have hsub : (unreserved p).filter (fun f => 0 < holders map f) ⊆ range p.totalFrames := by
    intro f hf
    exact mem_range.mpr (mem_unreserved.mp (mem_filter.mp hf).1).1
  rw [hused, card_sdiff_add_card_eq_card hsub, card_range]

/-- **When the initial counter is right.** After `pmm_initialize` the counter is the
number of set bits below the total, and at most the total, if and only if the surplus is
a multiple of `2 ^ 32`. For a map of at most 4096 entries this says that no frame outside
the reserved regions lies wholly in two usable entries. -/
theorem pmmInitialize_counted_iff (tier : Tier) (mem : ByteMem) {map : List E820Entry}
    {kernelStart kernelEnd : ℕ} (hmap : ∀ entry ∈ map, entry.type = .usable → entry.Bounded)
    (hkernel : kernelStart ≤ kernelEnd)
    (hend : kernelEnd + (totalFramesOf map + 7) / 8 + 4095 < 2 ^ 32) :
    let p := pmmInitialize tier mem map kernelStart kernelEnd
    (p.usedFrames = (usedSet p).card ∧ p.usedFrames ≤ p.totalFrames ↔
        2 ^ 32 ∣ surplus p map) ∧
      (map.length ≤ 4096 →
        (2 ^ 32 ∣ surplus p map ↔ ∀ f < p.totalFrames, ¬ Reserved p f → holders map f ≤ 1)) := by
  intro p
  obtain ⟨hinv, -⟩ := initialBitmap_inv tier mem hkernel hend
  obtain ⟨hinv', hlayout, -⟩ := pmmInitialize_spec tier mem hkernel hend
  have htotal : p.totalFrames ≤ 2 ^ 20 := hinv'.total_le
  refine ⟨?_, ?_⟩
  · -- off the counter come the frames that are freed, and the surplus
    have hcounter := freeEntries_usedFrames tier map hinv
    rw [sum_card_entrySet hmap, ← hlayout.unreserved_eq, sum_holders,
      show (initialBitmap tier mem map kernelStart kernelEnd).usedFrames = p.totalFrames from
        hlayout.total.symm] at hcounter
    have hcard : (usedSet p).card + ((unreserved p).filter fun f => 0 < holders map f).card
        = p.totalFrames := card_usedSet_pmmInitialize tier mem hmap hkernel hend
    have hlt : p.usedFrames < 2 ^ 32 := hinv'.used_lt
    unfold Nat.ModEq at hcounter
    change (p.usedFrames +
      (surplus p map + ((unreserved p).filter fun f => 0 < holders map f).card)) % _ = _ at hcounter
    omega
  · intro hlength
    rw [← surplus_eq_zero_iff]
    exact ⟨fun h => Nat.eq_zero_of_dvd_of_lt h (surplus_lt htotal hlength),
      fun h => h ▸ dvd_zero _⟩

/-- Four frames of RAM, reported three times. -/
def repeatedMap : List E820Entry := List.replicate 3 ⟨0, 0x4000, .usable⟩

/-- **A repeated entry is taken off repeatedly**: two of the four frames are used, and the
counter says that `2 ^ 32 - 2` are. -/
theorem repeatedMap_miscounted :
    (∀ entry ∈ repeatedMap, entry.Bounded) ∧
      (pmmInitialize .gpr (fun _ => 0) repeatedMap 0x1000 0x1000).totalFrames = 4 ∧
      (usedSet (pmmInitialize .gpr (fun _ => 0) repeatedMap 0x1000 0x1000)).card = 2 ∧
      (pmmInitialize .gpr (fun _ => 0) repeatedMap 0x1000 0x1000).usedFrames = 2 ^ 32 - 2 := by
  unfold E820Entry.Bounded
  decide +kernel

theorem pmmInitialize_bitmap_holeMap :
    bitUsed (pmmInitialize .avx2 (fun _ => 0) holeMap 0x1000 0x1000) 3 = false :=
  ((pmmInitialize_bitmap .avx2 (fun _ => 0)
    (fun entry he _ => (show ∀ e ∈ holeMap, e.Bounded by unfold E820Entry.Bounded; decide) entry he)
    (by decide) (by decide +kernel)).2.2.2.1 3 (by decide +kernel)).mpr
    ⟨by decide, by decide +kernel, ⟨0x3000, 0x1000, .usable⟩, by decide, by decide⟩

theorem pmmInitialize_counted_iff_holeMap :
    (pmmInitialize .avx2 (fun _ => 0) holeMap 0x1000 0x1000).usedFrames ≤ 4 :=
  ((pmmInitialize_counted_iff .avx2 (fun _ => 0)
    (fun entry he _ => (show ∀ e ∈ holeMap, e.Bounded by unfold E820Entry.Bounded; decide) entry he)
    (by decide) (by decide +kernel)).1.mpr (by decide +kernel)).2

end BareMetal
