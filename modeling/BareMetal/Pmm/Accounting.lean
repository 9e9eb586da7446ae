import BareMetal.Pmm.Runs

/-!
# Accounting

`g_used_frames` is kept apart from the bitmap. `Counted` says that it is the number
of set bits below the total. Every call adds or removes a range of bits that all
had the other value, so it moves the counter by the size of the range
(`CallEffect.counted`). Initialization starts with all bits set and removes the set
of frames of each usable entry; with pairwise disjoint entries no frame is removed
twice (`pmmInitialize_counted`).
-/

namespace BareMetal

open Framework

/-- The frames whose bit is set. -/
def usedSet (p : Pmm) : Finset ℕ :=
  (Finset.range p.totalFrames).filter fun f => bitUsed p f = true

/-- The frames whose bit is clear. -/
def freeSet (p : Pmm) : Finset ℕ :=
  (Finset.range p.totalFrames).filter fun f => bitUsed p f = false

/-- The counter is the number of set bits. -/
def Counted (p : Pmm) : Prop := p.usedFrames = (usedSet p).card

theorem mem_usedSet {p : Pmm} {f : ℕ} : f ∈ usedSet p ↔ f < p.totalFrames ∧ bitUsed p f = true := by
  rw [usedSet, Finset.mem_filter, Finset.mem_range]

theorem mem_freeSet {p : Pmm} {f : ℕ} :
    f ∈ freeSet p ↔ f < p.totalFrames ∧ bitUsed p f = false := by
  rw [freeSet, Finset.mem_filter, Finset.mem_range]

theorem card_usedSet_le (p : Pmm) : (usedSet p).card ≤ p.totalFrames := by
  have h := Finset.card_filter_le (Finset.range p.totalFrames) fun f => bitUsed p f = true
  rwa [Finset.card_range] at h

/-- Used and free frames make up the total. -/
theorem card_usedSet_add_card_freeSet (p : Pmm) :
    (usedSet p).card + (freeSet p).card = p.totalFrames := by
  have hsplit := Finset.card_filter_add_card_filter_not (s := Finset.range p.totalFrames)
    fun f => bitUsed p f = true
  simp only [Bool.not_eq_true, Finset.card_range] at hsplit
  exact hsplit

section Counted

variable {p p' : Pmm}

/-- The other counter is the number of clear bits. -/
theorem Counted.pmmFreeFrames_eq (hc : Counted p) (hp : PmmInv p) :
    pmmFreeFrames p = (freeSet p).card := by
  have hsplit := card_usedSet_add_card_freeSet p
  have hused := hp.used_lt
  have htotal := hp.total_le
  unfold Counted at hc
  unfold pmmFreeFrames
  rw [usizeSub_of_le (by omega) (by omega)]
  omega

/-- Clearing the bits of used frames lowers the count by their number. -/
theorem Counted.clear {S : Finset ℕ} (hc : Counted p) (hp : PmmInv p)
    (htotal : p'.totalFrames = p.totalFrames) (hS : S ⊆ usedSet p)
    (hbits : ∀ f, bitUsed p' f = if f ∈ S then false else bitUsed p f)
    (hused : p'.usedFrames = usizeSub p.usedFrames S.card) : Counted p' := by
  have hset : usedSet p' = usedSet p \ S := by
    ext f
    rw [Finset.mem_sdiff, mem_usedSet, mem_usedSet, hbits, htotal]
    by_cases hf : f ∈ S
    · simp [hf]
    · simp [hf]
  have hle := card_usedSet_le p
  have htotal := hp.total_le
  have hcard := Finset.card_le_card hS
  unfold Counted at hc ⊢
  rw [hused, hset, Finset.card_sdiff_of_subset hS, hc, usizeSub_of_le hcard (by omega)]

/-- Setting the bits of free frames raises the count by their number. -/
theorem Counted.set {S : Finset ℕ} (hc : Counted p) (hp : PmmInv p)
    (htotal : p'.totalFrames = p.totalFrames)
    (hS : ∀ f ∈ S, f < p.totalFrames ∧ bitUsed p f = false)
    (hbits : ∀ f, bitUsed p' f = if f ∈ S then true else bitUsed p f)
    (hused : p'.usedFrames = usize (p.usedFrames + S.card)) : Counted p' := by
  have hset : usedSet p' = usedSet p ∪ S := by
    ext f
    rw [Finset.mem_union, mem_usedSet, mem_usedSet, hbits, htotal]
    by_cases hf : f ∈ S
    · simp [hf, (hS f hf).1]
    · simp [hf]
  have hdisj : Disjoint (usedSet p) S := by
    apply Finset.disjoint_left.mpr
    intro f h₁ h₂
    have hclear := (hS f h₂).2
    rw [(mem_usedSet.mp h₁).2] at hclear
    exact absurd hclear (by decide)
  -- the set bits number at most the total, so the sum does not wrap
  have hle := card_usedSet_le p'
  have htotalle := hp.total_le
  rw [hset, Finset.card_union_of_disjoint hdisj] at hle
  unfold Counted at hc ⊢
  rw [hused, hset, Finset.card_union_of_disjoint hdisj, hc, usize_of_lt (by omega)]

/-- A range that was clear is counted. -/
theorem Marked.counted {s n : ℕ} (h : Marked p p' s n) (hc : Counted p) (hp : PmmInv p) :
    Counted p' := by
  have hfits := h.fits
  refine hc.set (S := Finset.Ico s (s + n)) hp h.layout.total ?_ ?_ ?_
  · intro f hf
    rw [Finset.mem_Ico] at hf
    exact ⟨by omega, h.before f hf.1 hf.2⟩
  · intro f
    rw [h.bitUsed_eq]
    exact if_congr Finset.mem_Ico.symm rfl rfl
  · rw [h.used_eq, Nat.card_Ico, Nat.add_sub_cancel_left]

/-- A range that was set is no longer counted. -/
theorem Cleared.counted {s n : ℕ} (h : Cleared p p' s n) (hc : Counted p) (hp : PmmInv p) :
    Counted p' := by
  have hfits := h.fits
  refine hc.clear (S := Finset.Ico s (s + n)) hp h.layout.total ?_ ?_ ?_
  · intro f hf
    rw [Finset.mem_Ico] at hf
    exact mem_usedSet.mpr ⟨by omega, h.before f hf.1 hf.2⟩
  · intro f
    rw [h.bitUsed_eq]
    exact if_congr Finset.mem_Ico.symm rfl rfl
  · rw [h.used_eq, Nat.card_Ico, Nat.add_sub_cancel_left]

/-- **Every call keeps the count.** -/
theorem CallEffect.counted {e : Call × Answer} (h : CallEffect p e p') (hc : Counted p)
    (hp : PmmInv p) : Counted p' := by
  cases h with
  | idle eq => exact eq ▸ hc
  | marked s _ effect => exact effect.counted hc hp
  | cleared s _ effect => exact effect.counted hc hp

end Counted

/-! ### Initialization -/

/-- Address `a` lies in the interval of an entry. -/
def E820Entry.Contains (entry : E820Entry) (a : ℕ) : Prop :=
  entry.base.toNat ≤ a ∧ a < entry.base.toNat + entry.length.toNat

/-- The usable entries of a map end below `2 ^ 64 - 4096`, and no two of them share
an address. -/
structure DisjointUsable (map : List E820Entry) : Prop where
  bounded : ∀ entry ∈ map, entry.type = .usable →
    entry.base.toNat + entry.length.toNat < 2 ^ 64 - 4096
  disjoint : map.Pairwise fun e e' => e.type = .usable → e'.type = .usable →
    ∀ a, ¬ (e.Contains a ∧ e'.Contains a)

/-- A frame of an entry that does not wrap lies wholly inside it. -/
theorem contains_of_mem_entrySet {p : Pmm} {entry : E820Entry} {f : ℕ}
    (hb : entry.base.toNat + entry.length.toNat < 2 ^ 64 - 4096) (hf : f ∈ entrySet p entry) :
    entry.Contains (4096 * f) := by
  obtain ⟨-, h₁, h₂, -⟩ := mem_entrySet.mp hf
  have hlt := lt_total_of_mem_entrySet hf
  -- below `2 ^ 64 - 4096` neither sum wraps
  have hround : (entry.base + BitVec.ofNat 64 (frameSize - 1)).toNat = entry.base.toNat + 4095 := by
    rw [BitVec.toNat_add, BitVec.toNat_ofNat]
    unfold frameSize
    omega
  have hlast : (entry.base + entry.length).toNat = entry.base.toNat + entry.length.toNat := by
    rw [BitVec.toNat_add]
    omega
  unfold entryFrames frameShift at h₁ h₂
  rw [hround, Nat.shiftRight_eq_div_pow] at h₁
  rw [hlast, Nat.shiftRight_eq_div_pow] at h₂
  unfold E820Entry.Contains
  simp only at h₁ h₂
  omega

/-- The second loop of `pmm_initialize` keeps the count, if the frames of every entry
to come are still used. -/
theorem freeEntries_counted (tier : Tier) {map : List E820Entry} (hmap : DisjointUsable map)
    {p : Pmm} (hp : PmmInv p) (hc : Counted p)
    (hused : ∀ entry ∈ map, ∀ f ∈ entrySet p entry, bitUsed p f = true) :
    Counted (map.foldl (freeEntry tier) p) := by
  induction map generalizing p with
  | nil => exact hc
  | cons entry map ih =>
    have hstep := freeEntry_spec tier hp entry
    have hp' : PmmInv (freeEntry tier p entry) := hstep.inv hp fun f hf =>
      ⟨lt_total_of_mem_entrySet hf, (mem_entrySet.mp hf).2.2.2⟩
    have hc' : Counted (freeEntry tier p entry) :=
      hc.clear hp hstep.layout.total (fun f hf => mem_usedSet.mpr
        ⟨lt_total_of_mem_entrySet hf, hused entry List.mem_cons_self f hf⟩) hstep.bits hstep.used_eq
    obtain ⟨hhead, htail⟩ := List.pairwise_cons.mp hmap.disjoint
    have hbounded := hmap.bounded
    refine ih ⟨fun e he => hbounded e (List.mem_cons_of_mem _ he), htail⟩ hp' hc'
      ?_
    intro e he f hf
    rw [hstep.layout.entrySet_eq] at hf
    -- a frame of two entries would give them a common address
    have hnot : f ∉ entrySet p entry := fun hf' => by
      have htype := (mem_entrySet.mp hf).1
      have htype' := (mem_entrySet.mp hf').1
      exact hhead e he htype' htype (4096 * f)
        ⟨contains_of_mem_entrySet (hbounded entry List.mem_cons_self htype') hf',
          contains_of_mem_entrySet (hbounded e (List.mem_cons_of_mem _ he) htype) hf⟩
    rw [hstep.bits, if_neg hnot]
    exact hused e (List.mem_cons_of_mem _ he) f hf

theorem pmmInitialize_counted (tier : Tier) (mem : ByteMem) (map : List E820Entry)
    (kernelStart kernelEnd : ℕ) (hkernel : kernelStart ≤ kernelEnd)
    (hend : kernelEnd + (totalFramesOf map + 7) / 8 + 4095 < 2 ^ 32) (hmap : DisjointUsable map) :
    Counted (pmmInitialize tier mem map kernelStart kernelEnd) := by
  obtain ⟨hinv, hused⟩ := initialBitmap_inv tier mem hkernel hend
  have hall : ∀ f < (initialBitmap tier mem map kernelStart kernelEnd).totalFrames,
      bitUsed (initialBitmap tier mem map kernelStart kernelEnd) f = true := by
    intro f hf
    change f < totalFramesOf map at hf
    exact hused f (by omega)
  have hc : Counted (initialBitmap tier mem map kernelStart kernelEnd) := by
    unfold Counted usedSet
    rw [Finset.filter_true_of_mem fun f hf => hall f (Finset.mem_range.mp hf), Finset.card_range]
    rfl
  exact freeEntries_counted tier hmap hinv hc fun entry _ f hf =>
    hall f (lt_total_of_mem_entrySet hf)

section FromInitialize

variable (tier : Tier) (mem : ByteMem) (map : List E820Entry) (kernelStart kernelEnd : ℕ)
  (hkernel : kernelStart ≤ kernelEnd)
  (hend : kernelEnd + (totalFramesOf map + 7) / 8 < 2 ^ 32 - 4096)

include hkernel hend

/-- **Accounting.** In every state that any sequence of calls reaches from
initialization on disjoint usable entries, the counter is the number of set bits
below the total, the padding bits and the bits of both reserved regions are set,
and the search hint lies in the bitmap. -/
theorem accounting_invariant (hmap : DisjointUsable map) {h : List (Call × Answer)} {p : Pmm}
    (hrun : (pmmMachine tier).Run (pmmInitialize tier mem map kernelStart kernelEnd) h p) :
    p.usedFrames = (usedSet p).card ∧
      pmmFreeFrames p
        = ((Finset.range p.totalFrames).filter fun f => bitUsed p f = false).card ∧
      p.usedFrames ≤ p.totalFrames ∧
      (∀ f, p.totalFrames ≤ f → f < 8 * (p.bitmap.end_ - p.bitmap.start) → bitUsed p f = true) ∧
      (∀ f < p.totalFrames, f = 0 ∨ (kernelStart / 4096 ≤ f ∧ 4096 * f < p.bitmap.end_) →
        bitUsed p f = true) ∧
      p.bitmap.start ≤ p.bitmap.searchBegin ∧ p.bitmap.searchBegin ≤ p.bitmap.end_ := by
  have hbitmap : kernelEnd + (totalFramesOf map + 7) / 8 + 4095 < 2 ^ 32 := by omega
  obtain ⟨hinit, hlayout, -⟩ := pmmInitialize_spec tier mem hkernel hbitmap
  have hi := runInv_of_run hinit hrun
  -- the count along the run, with the invariant it needs
  have hcount : Counted p := by
    refine (hrun.invariant_state (P := fun p => PmmInv p ∧ Counted p)
      ⟨hinit, pmmInitialize_counted tier mem map kernelStart kernelEnd hkernel hbitmap hmap⟩ ?_).2
    intro p c ⟨hp, hc⟩ _
    have heff := call_cases tier hp c
    exact ⟨heff.inv hp, heff.counted hc hp⟩
  have hsame := hlayout.trans hi.layout
  have hend' := hi.inv.end_eq
  have htotal := hi.inv.total_le
  have hle := card_usedSet_le p
  have hfree := hcount.pmmFreeFrames_eq hi.inv
  unfold Counted at hcount
  refine ⟨hcount, hfree, by omega, ?_, ?_, hi.inv.start_le, hi.inv.search_le⟩
  · intro f h₁ h₂
    exact hi.inv.padding_used f h₁ (by omega)
  · intro f hf hr
    refine hi.inv.reserved_used f ?_ hf
    rw [hsame.reserved_iff, initialBitmap_reserved_iff tier mem hkernel hbitmap]
    have hlast := hsame.end_.trans (initialBitmap_end tier mem hbitmap)
    omega

end FromInitialize

/-! ### The invariant with the counter -/

/-- The invariant of the manager with its counter. The bitmap has memory of its own: it
is not at the null pointer, and its frames are reserved. -/
structure AccountingInv (p : Pmm) : Prop extends PmmInv p where
  counted : Counted p
  start_pos : 0 < p.bitmap.start
  bitmap_reserved : 4096 * p.reserved1.base ≤ p.bitmap.start ∧
    p.bitmap.end_ ≤ 4096 * (p.reserved1.base + p.reserved1.length)

theorem SameLayout.accountingInv {p p' : Pmm} (h : SameLayout p p') (hp : AccountingInv p)
    (hinv : PmmInv p') (hc : Counted p') : AccountingInv p' := by
  refine ⟨hinv, hc, ?_, ?_⟩
  · rw [h.start]
    exact hp.start_pos
  · rw [h.start, h.end_, h.reserved1]
    exact hp.bitmap_reserved

theorem Marked.accountingInv {p p' : Pmm} {s n : ℕ} (h : Marked p p' s n)
    (hp : AccountingInv p) : AccountingInv p' :=
  h.layout.accountingInv hp (h.inv hp.toPmmInv) (h.counted hp.counted hp.toPmmInv)

theorem Cleared.accountingInv {p p' : Pmm} {s n : ℕ} (h : Cleared p p' s n)
    (hp : AccountingInv p) : AccountingInv p' :=
  h.layout.accountingInv hp (h.inv hp.toPmmInv) (h.counted hp.counted hp.toPmmInv)

theorem CallEffect.accountingInv {p p' : Pmm} {e : Call × Answer} (h : CallEffect p e p')
    (hp : AccountingInv p) : AccountingInv p' :=
  h.layout.accountingInv hp (h.inv hp.toPmmInv) (h.counted hp.counted hp.toPmmInv)

/-- Along every run from initialization on disjoint usable entries, behind a kernel that is
not at the null pointer. -/
theorem accountingInv_of_run (tier : Tier) (mem : ByteMem) {map : List E820Entry}
    {kernelStart kernelEnd : ℕ} (hkernel : kernelStart ≤ kernelEnd) (hpos : 0 < kernelEnd)
    (hend : kernelEnd + (totalFramesOf map + 7) / 8 + 4095 < 2 ^ 32) (hmap : DisjointUsable map)
    {h : List (Call × Answer)} {p : Pmm}
    (hrun : (pmmMachine tier).Run (pmmInitialize tier mem map kernelStart kernelEnd) h p) :
    AccountingInv p := by
  obtain ⟨hinit, hlayout, -⟩ := pmmInitialize_spec tier mem hkernel hend
  refine hrun.invariant_state ⟨hinit,
    pmmInitialize_counted tier mem map kernelStart kernelEnd hkernel hend hmap, ?_, ?_⟩
    fun q c hq _ => (call_cases tier hq.toPmmInv c).accountingInv hq
  · rw [hlayout.start]
    exact hpos
  · rw [hlayout.start, hlayout.end_, hlayout.reserved1, initialBitmap_end tier mem hend,
      initialBitmap_reserved tier mem hkernel hend]
    change 4096 * (kernelStart / 4096) ≤ kernelEnd ∧ _
    simp only
    omega

theorem holeMap_disjoint : DisjointUsable holeMap where
  bounded := by decide
  disjoint := by
    unfold holeMap E820Entry.Contains
    simp
    omega

theorem ramMap_disjoint : DisjointUsable ramMap where
  bounded := by decide +kernel
  disjoint := List.pairwise_singleton _ _

/-- The counter after allocations and frees. -/
theorem accounting_invariant_ramMap :
    let r := (pmmMachine .gpr).exec (pmmInitialize .gpr (fun _ => 0) ramMap 0x1000 0x1000)
      fragmentingCalls
    r.2.usedFrames = 12 ∧ (usedSet r.2).card = 12 := by
  intro r
  have hused : r.2.usedFrames = 12 := by decide +kernel
  have hcount := (accounting_invariant .gpr (fun _ => 0) ramMap 0x1000 0x1000 (by decide)
    (by decide +kernel) ramMap_disjoint
    (Machine.run_exec (fun _ _ => trivial) _ fragmentingCalls)).1
  exact ⟨hused, hcount.symm.trans hused⟩

end BareMetal
