import BareMetal.Framework.Machine
import BareMetal.Pmm.Initialize

/-!
# Runs of the memory manager

`pmmMachine` takes the four public calls with arbitrary arguments. A history of
calls and answers determines which frames are owned: a frame is owned from an
allocation that returned a range containing it until a later successful release of
a range containing it (`Owned`).

`call_cases` is the inversion of a step. Everything below is an induction over the
run with that lemma:

* `allocation_exclusive`: an allocated range is unowned, below the total, and
  outside the reserved regions;
* `hole_allocated_only_after_stray_free`: a frame that initialization left used is
  handed out only after a successful release of it while nobody owned it.
-/

namespace BareMetal

open Framework

/-! ### Calls, answers and ranges -/

/-- The public calls. -/
inductive Call where
  | allocateFrame
  | allocateContiguousFrames (frames : BitVec 32)
  | freeFrame (address : BitVec 32)
  | freeContiguousFrames (address frames : BitVec 32)
  deriving DecidableEq

/-- What a call returns: an address, where `none` is a null pointer, or a result. -/
inductive Answer where
  | address (a : Option ℕ)
  | result (r : PmmResult)
  deriving DecidableEq

/-- One call. -/
def call (tier : Tier) (p : Pmm) : Call → Answer × Pmm
  | .allocateFrame => ((pmmAllocateFrame p).map .address id)
  | .allocateContiguousFrames frames =>
    (pmmAllocateContiguousFrames tier p frames.toNat).map .address id
  | .freeFrame address => (pmmFreeFrame p address.toNat).map .result id
  | .freeContiguousFrames address frames =>
    (pmmFreeContiguousFrames tier p address.toNat frames.toNat).map .result id

/-- The memory manager, driven by its public calls. -/
def pmmMachine (tier : Tier) : Machine Pmm Call Answer where
  step := call tier

/-- The number of frames a call is about. -/
def Call.frames : Call → ℕ
  | .allocateFrame => 1
  | .allocateContiguousFrames frames => frames.toNat
  | .freeFrame _ => 1
  | .freeContiguousFrames _ frames => frames.toNat

/-- Frame `f` is in the range that the call obtained. -/
def Grants : Call × Answer → ℕ → Prop
  | (c, .address (some a)), f => a / 4096 ≤ f ∧ f < a / 4096 + c.frames
  | _, _ => False

instance (e : Call × Answer) (f : ℕ) : Decidable (Grants e f) :=
  match e with
  | (c, .address (some a)) =>
    inferInstanceAs (Decidable (a / 4096 ≤ f ∧ f < a / 4096 + c.frames))
  | (_, .address none) => isFalse id
  | (_, .result _) => isFalse id

/-- Frame `f` is in the range that the call gave back. -/
def Releases : Call × Answer → ℕ → Prop
  | (.freeFrame address, .result .success), f => f = address.toNat / 4096
  | (.freeContiguousFrames address frames, .result .success), f =>
    address.toNat / 4096 ≤ f ∧ f < address.toNat / 4096 + frames.toNat
  | _, _ => False

/-- The frames owned after one more event. -/
def ownedAfter (owned : ℕ → Prop) (e : Call × Answer) (f : ℕ) : Prop :=
  Grants e f ∨ (owned f ∧ ¬ Releases e f)

/-- The frames that are owned after a history. -/
def Owned (h : List (Call × Answer)) : ℕ → Prop := h.foldl ownedAfter fun _ => False

theorem owned_snoc (h : List (Call × Answer)) (e : Call × Answer) (f : ℕ) :
    Owned (h ++ [e]) f ↔ Grants e f ∨ (Owned h f ∧ ¬ Releases e f) := by
  unfold Owned
  rw [List.foldl_append]
  rfl

/-! ### Steps -/

/-- What a call with its answer did to the state. -/
inductive CallEffect (p : Pmm) (e : Call × Answer) (p' : Pmm) : Prop
  | idle (eq : p' = p) (answer : ∀ a, e.2 ≠ .address (some a)) (releases : ∀ f, ¬ Releases e f)
  | marked (s : ℕ) (answer : e.2 = .address (some (4096 * s)))
      (effect : Marked p p' s e.1.frames) (releases : ∀ f, ¬ Releases e f)
  | cleared (s : ℕ) (answer : e.2 = .result .success) (effect : Cleared p p' s e.1.frames)
      (releases : ∀ f, Releases e f ↔ s ≤ f ∧ f < s + e.1.frames)

/-- **Inversion of a call.** -/
theorem call_cases (tier : Tier) {p : Pmm} (hp : PmmInv p) (c : Call) :
    CallEffect p (c, (call tier p c).1) (call tier p c).2 := by
  -- an error releases nothing
  have hfail : ∀ (c : Call) (r : PmmResult), r ≠ .success → ∀ f, ¬ Releases (c, .result r) f := by
    intro c r hr f
    cases r with
    | success => exact absurd rfl hr
    | _ => cases c <;> exact id
  cases c with
  | allocateFrame =>
    rcases pmmAllocateFrame_spec hp with ⟨-, hnone, heq⟩ | ⟨-, s, -, -, -, hsome, hmarked⟩
    · refine .idle heq ?_ fun f => id
      intro a ha
      rw [show (call tier p .allocateFrame).1 = .address none from congrArg Answer.address hnone]
        at ha
      exact absurd ha (by simp)
    · exact .marked s (congrArg Answer.address hsome) hmarked fun f => id
  | allocateContiguousFrames frames =>
    rcases pmmAllocateContiguousFrames_spec hp tier frames.toNat with
      ⟨hnone, heq, -⟩ | ⟨s, hsome, -, hmarked⟩
    · refine .idle heq ?_ fun f => id
      intro a ha
      rw [show (call tier p (.allocateContiguousFrames frames)).1 = .address none from
        congrArg Answer.address hnone] at ha
      exact absurd ha (by simp)
    · exact .marked s (congrArg Answer.address hsome) hmarked fun f => id
  | freeFrame address =>
    rcases pmmFreeFrame_spec hp address.isLt with ⟨hne, heq⟩ | ⟨hsuccess, hcleared⟩
    · exact .idle heq (fun a ha => Answer.noConfusion ha) (hfail _ _ hne)
    · refine .cleared _ (congrArg Answer.result hsuccess) hcleared ?_
      intro f
      simp only [call, Prod.map_fst, hsuccess, Releases, Call.frames]
      omega
  | freeContiguousFrames address frames =>
    rcases pmmFreeContiguousFrames_spec hp tier address.isLt frames.toNat with
      ⟨hne, heq⟩ | ⟨hsuccess, hcleared⟩
    · exact .idle heq (fun a ha => Answer.noConfusion ha) (hfail _ _ hne)
    · refine .cleared _ (congrArg Answer.result hsuccess) hcleared ?_
      intro f
      simp only [call, Prod.map_fst, hsuccess, Releases, Call.frames]

theorem CallEffect.inv {p p' : Pmm} {e : Call × Answer} (h : CallEffect p e p') (hp : PmmInv p) :
    PmmInv p' := by
  cases h with
  | idle eq => exact eq ▸ hp
  | marked s _ effect => exact effect.inv hp
  | cleared s _ effect => exact effect.inv hp

theorem CallEffect.layout {p p' : Pmm} {e : Call × Answer} (h : CallEffect p e p') :
    SameLayout p p' := by
  cases h with
  | idle eq => exact eq ▸ SameLayout.refl p
  | marked s _ effect => exact effect.layout
  | cleared s _ effect => exact effect.layout

theorem grants_iff {e : Call × Answer} {s : ℕ} (h : e.2 = .address (some (4096 * s))) (f : ℕ) :
    Grants e f ↔ s ≤ f ∧ f < s + e.1.frames := by
  obtain ⟨c, a⟩ := e
  obtain rfl : a = .address (some (4096 * s)) := h
  change 4096 * s / 4096 ≤ f ∧ f < 4096 * s / 4096 + c.frames ↔ _
  rw [Nat.mul_div_cancel_left s (by decide)]

theorem not_grants {e : Call × Answer} (h : ∀ a, e.2 ≠ .address (some a)) (f : ℕ) :
    ¬ Grants e f := by
  obtain ⟨c, a⟩ := e
  cases a with
  | result r => exact id
  | address a =>
    cases a with
    | none => exact id
    | some a => exact absurd rfl (h a)

/-- A frame granted by a step was not used before it. -/
theorem CallEffect.clear_of_grants {p p' : Pmm} {e : Call × Answer} (h : CallEffect p e p') {f : ℕ}
    (hg : Grants e f) : bitUsed p f = false := by
  cases h with
  | idle _ answer => exact absurd hg (not_grants answer f)
  | marked s answer effect =>
    rw [grants_iff answer] at hg
    exact effect.before f hg.1 hg.2
  | cleared s answer => exact absurd hg (not_grants (by rw [answer]; simp) f)

/-! ### Ownership -/

/-- What holds after a history: the invariant, the layout of initialization, and a
set bit for every owned frame. -/
structure RunInv (p₀ : Pmm) (h : List (Call × Answer)) (p : Pmm) : Prop where
  inv : PmmInv p
  layout : SameLayout p₀ p
  owned_used : ∀ f, Owned h f → bitUsed p f = true

theorem RunInv.step {p₀ p p' : Pmm} {h : List (Call × Answer)} {e : Call × Answer}
    (hi : RunInv p₀ h p) (heff : CallEffect p e p') : RunInv p₀ (h ++ [e]) p' := by
  refine ⟨heff.inv hi.inv, hi.layout.trans heff.layout, ?_⟩
  intro f hf
  rw [owned_snoc] at hf
  cases heff with
  -- nothing was granted or given back
  | idle eq answer releases =>
    rw [eq]
    exact hi.owned_used f (hf.resolve_left (not_grants answer f)).1
  | marked s answer effect releases =>
    rw [effect.toRewritten.bitUsed_eq]
    split
    · rfl
    · next hout =>
      rw [grants_iff answer] at hf
      exact hi.owned_used f (hf.resolve_left hout).1
  | cleared s answer effect releases =>
    -- the frame is not in the range given back, so its bit stays
    obtain ⟨howned, hkept⟩ := hf.resolve_left (not_grants (by rw [answer]; simp) f)
    rw [releases] at hkept
    rw [effect.toRewritten.bitUsed_eq, if_neg hkept]
    exact hi.owned_used f howned

/-- Along every run of calls. -/
theorem runInv_of_run {tier : Tier} {p₀ p : Pmm} {h : List (Call × Answer)} (hp : PmmInv p₀)
    (hrun : (pmmMachine tier).Run p₀ h p) : RunInv p₀ h p := by
  refine hrun.invariant (P := RunInv p₀) ⟨hp, SameLayout.refl p₀, fun f hf => hf.elim⟩ ?_
  intro h p c hi _
  exact hi.step (call_cases tier hi.inv c)

section FromInitialize

variable (tier : Tier) (mem : ByteMem) (map : List E820Entry) (kernelStart kernelEnd : ℕ)
  (hkernel : kernelStart ≤ kernelEnd)
  (hend : kernelEnd + (totalFramesOf map + 7) / 8 < 2 ^ 32 - 4096)

include hkernel hend

/-- **Exclusive ownership.** In every state that any sequence of calls reaches from
initialization, a call that returns an address `a` returns whole frames
`[s, s + n)` below the total, `n` being the number asked for, none of which is
owned or in a reserved region; and the address is not zero. -/
theorem allocation_exclusive {h : List (Call × Answer)} {p : Pmm}
    (hrun : (pmmMachine tier).Run (pmmInitialize tier mem map kernelStart kernelEnd) h p)
    {c : Call} {a : ℕ} (ha : (call tier p c).1 = .address (some a)) :
    ∃ s, a = 4096 * s ∧ a ≠ 0 ∧ 0 < c.frames ∧ s + c.frames ≤ p.totalFrames ∧
      ∀ f, s ≤ f → f < s + c.frames →
        ¬ Owned h f ∧ f ≠ 0 ∧ ¬ (kernelStart / 4096 ≤ f ∧ 4096 * f < p.bitmap.end_) := by
  have hbitmap : kernelEnd + (totalFramesOf map + 7) / 8 + 4095 < 2 ^ 32 := by omega
  obtain ⟨hinit, hlayout, -⟩ := pmmInitialize_spec tier mem hkernel hbitmap
  have hi := runInv_of_run hinit hrun
  have hsame := hlayout.trans hi.layout
  cases call_cases tier hi.inv c with
  | idle _ answer => exact absurd ha (answer a)
  | cleared s answer => exact absurd (ha.symm.trans answer) (by simp)
  | marked s answer effect =>
    -- the answer names the frames that were marked
    have haddr : a = 4096 * s := by
      have heq := ha.symm.trans answer
      simpa using heq
    have hunreserved : ∀ f, s ≤ f → f < s + c.frames →
        ¬ Owned h f ∧ f ≠ 0 ∧ ¬ (kernelStart / 4096 ≤ f ∧ 4096 * f < p.bitmap.end_) := by
      intro f h₁ h₂
      have hclear := effect.before f h₁ h₂
      have hfits := effect.fits
      -- owned and reserved frames are used
      have howned : ¬ Owned h f := fun ho => by
        rw [hi.owned_used f ho] at hclear
        exact absurd hclear (by decide)
      have hres : ¬ Reserved p f := fun hr => by
        rw [hi.inv.reserved_used f hr (by simp only at *; omega)] at hclear
        exact absurd hclear (by decide)
      rw [hsame.reserved_iff, initialBitmap_reserved_iff tier mem hkernel hbitmap] at hres
      have hlast := hsame.end_.trans (initialBitmap_end tier mem hbitmap)
      exact ⟨howned, by omega, by omega⟩
    have hpos : 0 < c.frames := effect.pos
    have hne := (hunreserved s (le_refl s) (by omega)).2.1
    exact ⟨s, haddr, by omega, hpos, effect.fits, hunreserved⟩

end FromInitialize

/-- A small machine: RAM, a hole at frame 2, RAM. The kernel and the bitmap share
frame 1. -/
def holeMap : List E820Entry :=
  [⟨0, 0x2000, .usable⟩, ⟨0x2000, 0x1000, .reserved⟩, ⟨0x3000, 0x1000, .usable⟩]

/-- Sixteen frames of RAM. -/
def ramMap : List E820Entry := [⟨0, 0x10000, .usable⟩]

/-- All that is free is allocated, and then frames 7 and 10 to 12 are free. -/
def fragmentingCalls : List Call :=
  [.allocateContiguousFrames 14, .freeFrame 0x7000, .freeContiguousFrames 0xA000 3]

/-- After allocations and frees, an allocation returns the first of the frames that nobody
owns. -/
theorem allocation_exclusive_ramMap :
    let r := (pmmMachine .gpr).exec (pmmInitialize .gpr (fun _ => 0) ramMap 0x1000 0x1000)
      fragmentingCalls
    (call .gpr r.2 .allocateFrame).1 = .address (some 0x7000) ∧ ¬ Owned r.1 7 := by
  intro r
  have hanswer : (call .gpr r.2 .allocateFrame).1 = .address (some 0x7000) := by decide +kernel
  obtain ⟨s, hs, -, -, -, hfrees⟩ := allocation_exclusive .gpr (fun _ => 0) ramMap 0x1000 0x1000
    (by decide) (by decide +kernel) (Machine.run_exec (fun _ _ => trivial) _ fragmentingCalls)
    hanswer
  obtain rfl : s = 7 := by omega
  exact ⟨hanswer, (hfrees 7 le_rfl (by decide)).1⟩

/-! ### Frames that are no memory -/

/-- Frame `f` was released successfully at a moment when nobody owned it. -/
def StrayFree (h : List (Call × Answer)) (f : ℕ) : Prop :=
  ∃ h₁ e h₂, h = h₁ ++ e :: h₂ ∧ Releases e f ∧ ¬ Owned h₁ f

theorem StrayFree.snoc {h : List (Call × Answer)} {f : ℕ} (hs : StrayFree h f)
    (e : Call × Answer) : StrayFree (h ++ [e]) f := by
  obtain ⟨h₁, e', h₂, rfl, hrel, hown⟩ := hs
  exact ⟨h₁, e', h₂ ++ [e], by simp, hrel, hown⟩

/-- A used frame stays used and unowned as long as every release of it is by an
owner. -/
theorem used_of_not_strayFree {tier : Tier} {p₀ p : Pmm} {h : List (Call × Answer)} {f : ℕ}
    (hp : PmmInv p₀) (hf : bitUsed p₀ f = true) (hrun : (pmmMachine tier).Run p₀ h p)
    (hstray : ¬ StrayFree h f) : bitUsed p f = true ∧ ¬ Owned h f := by
  refine (hrun.invariant (P := fun h p => PmmInv p ∧
    (¬ StrayFree h f → bitUsed p f = true ∧ ¬ Owned h f)) ⟨hp, fun _ => ⟨hf, id⟩⟩ ?_).2 hstray
  intro h p c ⟨hinv, hi⟩ _
  have heff := call_cases tier hinv c
  refine ⟨heff.inv hinv, ?_⟩
  intro hstray
  obtain ⟨hused, hown⟩ := hi fun hs => hstray (hs.snoc _)
  -- the step grants only clear frames, and a release of `f` would be stray
  have hgrant : ¬ Grants (c, (call tier p c).1) f := fun hg => by
    rw [heff.clear_of_grants hg] at hused
    exact absurd hused (by decide)
  have hrelease : ¬ Releases (c, (call tier p c).1) f :=
    fun hr => hstray ⟨h, _, [], rfl, hr, hown⟩
  refine ⟨?_, ?_⟩
  · cases heff with
    | idle eq =>
      change bitUsed (call tier p c).2 f = true
      rw [eq]
      exact hused
    | marked s answer effect =>
      change bitUsed (call tier p c).2 f = true
      rw [effect.toRewritten.bitUsed_eq]
      split
      · rfl
      · exact hused
    | cleared s answer effect releases =>
      rw [releases] at hrelease
      change bitUsed (call tier p c).2 f = true
      rw [effect.toRewritten.bitUsed_eq, if_neg hrelease]
      exact hused
  · intro ho
    rw [show (pmmMachine tier).step p c = call tier p c from rfl, owned_snoc] at ho
    exact hown (ho.resolve_left hgrant).1

/-- **A frame that initialization left used is handed out only after a stray
release**, one that succeeded while nobody owned the frame. -/
theorem hole_allocated_only_after_stray_free (tier : Tier) (mem : ByteMem)
    (map : List E820Entry) (kernelStart kernelEnd : ℕ) (hkernel : kernelStart ≤ kernelEnd)
    (hend : kernelEnd + (totalFramesOf map + 7) / 8 < 2 ^ 32 - 4096)
    {h : List (Call × Answer)} {p : Pmm}
    (hrun : (pmmMachine tier).Run (pmmInitialize tier mem map kernelStart kernelEnd) h p)
    {f : ℕ} (hhole : bitUsed (pmmInitialize tier mem map kernelStart kernelEnd) f = true)
    {c : Call} (hgrant : Grants (c, (call tier p c).1) f) : StrayFree h f := by
  have hbitmap : kernelEnd + (totalFramesOf map + 7) / 8 + 4095 < 2 ^ 32 := by omega
  obtain ⟨hinit, -⟩ := pmmInitialize_spec tier mem hkernel hbitmap
  by_contra hstray
  obtain ⟨hused, -⟩ := used_of_not_strayFree hinit hhole hrun hstray
  -- granted frames were clear, and this one is used
  have hinv := (runInv_of_run hinit hrun).inv
  rw [(call_cases tier hinv c).clear_of_grants hgrant] at hused
  exact absurd hused (by decide)

/-- The hole of `holeMap` can be freed, and is then handed out. -/
theorem hole_freed_and_allocated :
    (∀ entry ∈ holeMap, entry.type = .usable →
      ¬ (entry.base.toNat ≤ 0x2000 ∧ 0x3000 ≤ entry.base.toNat + entry.length.toNat)) ∧
    bitUsed (pmmInitialize .gpr (fun _ => 0) holeMap 0x1000 0x1000) 2 = true ∧
    ((pmmMachine .gpr).exec (pmmInitialize .gpr (fun _ => 0) holeMap 0x1000 0x1000)
      [.freeFrame 0x2000, .allocateFrame]).1 =
        [(.freeFrame 0x2000, .result .success), (.allocateFrame, .address (some 0x2000))] := by
  decide +kernel

theorem hole_allocated_only_after_stray_free_holeMap :
    StrayFree [(.freeFrame 0x2000, .result .success)] 2 := by
  have hrun := Machine.run_exec (m := pmmMachine .gpr) (fun _ _ => trivial)
    (pmmInitialize .gpr (fun _ => 0) holeMap 0x1000 0x1000) [.freeFrame 0x2000]
  rw [show ((pmmMachine .gpr).exec (pmmInitialize .gpr (fun _ => 0) holeMap 0x1000 0x1000)
    [.freeFrame 0x2000]).1 = [(.freeFrame 0x2000, .result .success)] by decide +kernel] at hrun
  exact hole_allocated_only_after_stray_free .gpr (fun _ => 0) holeMap 0x1000 0x1000 (by decide)
    (by decide +kernel) hrun (f := 2) (by decide +kernel) (c := .allocateFrame)
    (by decide +kernel)

end BareMetal
