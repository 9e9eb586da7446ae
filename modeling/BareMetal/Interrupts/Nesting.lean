import BareMetal.Framework.Machine
import BareMetal.Interrupts.EntrySpec

/-!
# Nested interrupts

A run interleaves entries on any vectors, the execution of whatever code was interrupted
or called, and returns of the dispatcher. Code that runs may do what it likes with
registers and memory, except that a handler keeps to its part of the stack: it does not
touch what the entries below it have saved, and it comes back to the stack pointer it was
called with before it returns. The activations that are under way, latest first, are a
ghost of the state; each remembers the processor as it was interrupted.

The invariant `NestingInv` says that the activations lie on the stack in order
(`Stacked`), that each finds its frame as it left it (`Saved`), and that the two counters
count them. From it follow the balance of the counters, the disjointness of the frames
and that a return gives back what was interrupted (`interrupt_nesting`).

Two conditions on the stacks are needed. The frame of a first interrupt is written to
the stack of the interrupted code, so its 52 bytes must not reach into the interrupt
stack; and a nested entry writes 64 bytes, which must be left above the bottom. Without them
the counters get out of step (`overflow_unbalances`).
-/

namespace BareMetal

open Framework

/-! ### Activations -/

/-- An interrupt that has not returned: the processor as it was interrupted, and the stack
pointer with which the dispatcher was called. -/
structure Activation where
  vector : Fin 48
  errorCode : BitVec 32
  interrupted : Cpu
  callEsp : BitVec 32

namespace Activation

/-- The address of the frame. -/
def frame (a : Activation) : BitVec 32 := a.interrupted.esp - 52

/-- The bytes that an entry writes: the frame, and the pointer to it, the argument and the
return address. -/
def area (a : Activation) : Set (BitVec 32) := region a.frame 52 ∪ region a.callEsp 12

/-- The bytes that have to be there on the way back, all but the argument. -/
def saved (a : Activation) : Set (BitVec 32) := savedBytes a.callEsp a.frame

/-- The activation finds what it saved. -/
def Intact (image : Image) (m : Memory32) (a : Activation) : Prop :=
  Saved image m a.callEsp a.frame (savedFrame a.vector a.errorCode a.interrupted)

theorem saved_subset_area (a : Activation) : a.saved ⊆ a.area := by
  refine Set.union_subset_union_right _ (Set.union_subset (region_mono (by decide)) ?_)
  exact region_add_subset (k := 8) (by decide) (by decide)

theorem Intact.congr {image : Image} {m m' : Memory32} {a : Activation} (h : a.Intact image m)
    (hmem : ∀ x ∈ a.saved, m' x = m x) : a.Intact image m' :=
  Saved.congr h hmem

end Activation

/-- The addresses of the interrupt stack. -/
def Image.interruptStack (image : Image) : Set (BitVec 32) :=
  {x | image.interruptStackBottom ≤ x ∧ x < image.interruptStackTop}

/-! ### The machine -/

/-- The processor, and the activations under way, latest first. -/
structure NestingState where
  cpu : Cpu
  active : List Activation

/-- What happens next: an interrupt, the code that runs gets to another state, or the
dispatcher returns. -/
inductive NestingStep where
  | enter (vector : Fin 48) (errorCode : BitVec 32)
  | run (cpu : Cpu)
  | ret

/-- The processor and the activations after a step. -/
def NestingState.step (image : Image) (s : NestingState) : NestingStep → NestingState
  | .enter vector errorCode =>
    let cpu := enterInterrupt image vector errorCode s.cpu
    if cpu.halted then ⟨cpu, s.active⟩
    else ⟨cpu, ⟨vector, errorCode, s.cpu, cpu.esp⟩ :: s.active⟩
  | .run cpu => ⟨cpu, s.active⟩
  | .ret => ⟨dispatcherReturn image s.cpu, s.active.tail⟩

/-- Code that runs leaves the counters and what is saved alone, and a handler stays below
the stack pointer it was called with. -/
structure Disciplined (s : NestingState) (cpu : Cpu) : Prop where
  counters : cpu.counters = s.cpu.counters
  halted : cpu.halted = false
  saved : ∀ a ∈ s.active, ∀ x ∈ a.saved, cpu.mem x = s.cpu.mem x
  esp_le : ∀ a ∈ s.active.head?, cpu.esp ≤ a.callEsp

/-- Interrupts under a condition `room` on the state in which one may come. -/
def nestingMachine (image : Image) (room : NestingState → Prop) :
    Machine NestingState NestingStep Unit where
  step s l := ((), s.step image l)
  enabled s l := s.cpu.halted = false ∧ match l with
    | .enter _ _ => room s
    | .run cpu => Disciplined s cpu
    -- the handler is back at the stack pointer it was called with
    | .ret => ∃ a ∈ s.active.head?, s.cpu.esp = a.callEsp

/-- There is room for an entry: a first frame is outside the interrupt stack, a nested
entry does not overflow it. -/
def Room (image : Image) (s : NestingState) : Prop :=
  match s.active with
  | [] => ∀ x ∈ region (s.cpu.esp - 52) 52, x ∉ image.interruptStack
  | _ :: _ => image.interruptStackBottom.toNat + 64 ≤ s.cpu.esp.toNat

section Room

variable {image : Image} {s : NestingState}

theorem Room.first (hroom : Room image s) (hactive : s.active = []) :
    ∀ x ∈ region (s.cpu.esp - 52) 52, x ∉ image.interruptStack := by
  unfold Room at hroom
  rwa [hactive] at hroom

theorem Room.nested (hroom : Room image s) {b : Activation} {rest : List Activation}
    (hactive : s.active = b :: rest) :
    image.interruptStackBottom.toNat + 64 ≤ s.cpu.esp.toNat := by
  unfold Room at hroom
  rwa [hactive] at hroom

end Room

/-! ### The activations on the stack -/

/-- The activations lie on the stack in order. The first interrupted some other code, each
other one the handler of the one before, of which it is on the lower side. -/
inductive Stacked (image : Image) : List Activation → Prop
  | nil : Stacked image []
  | first {a : Activation} (outside : ∀ x ∈ region a.frame 52, x ∉ image.interruptStack)
      (callEsp : a.callEsp = image.interruptStackTop - 12) : Stacked image [a]
  | nested {a b : Activation} {rest : List Activation} (below : Stacked image (b :: rest))
      (room : image.interruptStackBottom.toNat + 64 ≤ a.interrupted.esp.toNat)
      (esp_le : a.interrupted.esp ≤ b.callEsp) (callEsp : a.callEsp = a.interrupted.esp - 64) :
      Stacked image (a :: b :: rest)

namespace Stacked

variable {image : Image} {a : Activation} {rest : List Activation}

theorem tail (h : Stacked image (a :: rest)) : Stacked image rest := by
  cases h with
  | first => exact .nil
  | nested below => exact below

/-- The dispatcher is called within the interrupt stack. -/
theorem callEsp_bounds (h : Stacked image (a :: rest)) :
    image.interruptStackBottom.toNat ≤ a.callEsp.toNat ∧
      a.callEsp.toNat + 12 ≤ image.interruptStackTop.toNat := by
  generalize hactive : a :: rest = active at h
  induction h generalizing a rest with
  | nil => exact absurd hactive (List.cons_ne_nil a rest)
  | @first a' _ hcall =>
    obtain ⟨rfl, -⟩ := List.cons.inj hactive
    have htop := image.top_eq
    rw [hcall]
    bv_omega
  | @nested a' b rest' _ hroom hle hcall ih =>
    obtain ⟨rfl, -⟩ := List.cons.inj hactive
    obtain ⟨-, hb⟩ := ih rfl
    rw [hcall]
    bv_omega

/-- What a nested entry writes is within the 64 bytes below the interrupted stack pointer. -/
theorem area_subset (h : Stacked image (a :: rest)) (hrest : rest ≠ []) :
    a.area ⊆ region (a.interrupted.esp - 64) 64 := by
  cases h with
  | first => exact absurd rfl hrest
  | nested _ hroom _ hcall =>
    intro x hx
    unfold Activation.area Activation.frame at hx
    rw [hcall] at hx
    rw [mem_region]
    rcases hx with hx | hx
    · rw [mem_region] at hx
      bv_omega
    · exact region_mono (by decide) hx

/-- **On the interrupt stack everything written is above the latest call.** -/
theorem callEsp_le_of_mem_area (h : Stacked image (a :: rest)) {b : Activation}
    (hb : b ∈ a :: rest) {x : BitVec 32} (hx : x ∈ b.area) (hstack : x ∈ image.interruptStack) :
    a.callEsp ≤ x := by
  generalize hactive : a :: rest = active at h hb
  induction h generalizing a rest with
  | nil => exact absurd hactive (List.cons_ne_nil a rest)
  | @first a' houtside hcall =>
    obtain ⟨rfl, -⟩ := List.cons.inj hactive
    obtain rfl := List.mem_singleton.mp hb
    have htop := image.top_eq
    rcases hx with hx | hx
    · exact absurd hstack (houtside x hx)
    · rw [mem_region, hcall] at hx
      rw [hcall]
      bv_omega
  | @nested a' b' rest' hbelow hroom hle hcall ih =>
    obtain ⟨rfl, -⟩ := List.cons.inj hactive
    rcases List.mem_cons.mp hb with rfl | hb
    · have hsub := (Stacked.nested hbelow hroom hle hcall).area_subset (List.cons_ne_nil _ _) hx
      rw [mem_region] at hsub
      rw [hcall]
      bv_omega
    · -- what the earlier ones wrote is above their latest call
      have hx' := ih rfl hb
      rw [hcall]
      bv_omega

/-- The room for a nested entry is free. -/
theorem notMem_area (h : Stacked image (a :: rest)) {e : BitVec 32}
    (hroom : image.interruptStackBottom.toNat + 64 ≤ e.toNat) (hle : e ≤ a.callEsp)
    {x : BitVec 32} (hx : x ∈ region (e - 64) 64) {b : Activation} (hb : b ∈ a :: rest) :
    x ∉ b.area := by
  intro hxb
  obtain ⟨-, htop⟩ := h.callEsp_bounds
  rw [mem_region] at hx
  have hstack : x ∈ image.interruptStack := by
    constructor <;> bv_omega
  have habove := h.callEsp_le_of_mem_area hb hxb hstack
  bv_omega

/-- **Active frames do not overlap**, nor what else their entries wrote. -/
theorem pairwise_apart {active : List Activation} (h : Stacked image active) :
    active.Pairwise fun a b => ∀ x ∈ a.area, x ∉ b.area := by
  induction h with
  | nil => exact .nil
  | first => exact List.pairwise_singleton _ _
  | @nested a b rest hbelow hroom hle hcall ih =>
    refine .cons ?_ ih
    intro c hc x hx
    have hsub := (Stacked.nested hbelow hroom hle hcall).area_subset (List.cons_ne_nil _ _) hx
    exact hbelow.notMem_area hroom hle hsub hc

end Stacked

/-- Where there is room, the common entry chooses the top for a first interrupt. -/
theorem stackBase_of_outside {image : Image} {frame : BitVec 32}
    (houtside : ∀ x ∈ region frame 52, x ∉ image.interruptStack) :
    stackBase image frame = image.interruptStackTop := by
  have hframe : frame ∉ image.interruptStack := houtside frame (by rw [mem_region]; simp)
  unfold stackBase
  by_cases h : frame ≤ image.interruptStackBottom ∨ image.interruptStackTop < frame
  · exact if_pos h
  · rw [if_neg h]
    -- neither below nor above nor inside: the frame is at the top
    simp only [not_or] at h
    by_contra hne
    refine hframe ⟨?_, ?_⟩ <;> bv_omega

/-- A nested interrupt stays on its stack. -/
theorem stackBase_of_room {image : Image} {e : BitVec 32}
    (hroom : image.interruptStackBottom.toNat + 64 ≤ e.toNat)
    (hle : e.toNat ≤ image.interruptStackTop.toNat) : stackBase image (e - 52) = e - 52 := by
  apply if_neg
  simp only [not_or]
  constructor <;> bv_omega

/-! ### The invariant -/

/-- What holds in every state of a run. -/
structure NestingInv (image : Image) (s : NestingState) : Prop where
  stacked : Stacked image s.active
  intact : ∀ a ∈ s.active, a.Intact image s.cpu.mem
  counted : ∀ c, (s.cpu.counters c).toNat = s.active.countP fun a => counterOf a.vector = c
  limited : ∀ c, s.cpu.counters c ≤ c.countMax
  esp_le : ∀ a ∈ s.active.head?, s.cpu.esp ≤ a.callEsp

namespace NestingInv

variable {image : Image} {s : NestingState}

/-- What is written into the room for an entry leaves the saved bytes alone. -/
theorem intact_of_room (h : NestingInv image s) (hroom : Room image s) {m : Memory32}
    (hmem : s.active ≠ [] → ∀ x ∉ region (s.cpu.esp - 64) 64, m x = s.cpu.mem x) :
    ∀ a ∈ s.active, a.Intact image m := by
  intro a ha
  refine (h.intact a ha).congr ?_
  intro x hx
  have hne : s.active ≠ [] := List.ne_nil_of_mem ha
  obtain ⟨b, rest, hactive⟩ := List.exists_cons_of_ne_nil hne
  refine hmem hne x ?_
  intro hx'
  have hstacked : Stacked image (b :: rest) := hactive ▸ h.stacked
  have hle : s.cpu.esp ≤ b.callEsp := h.esp_le b (by rw [hactive]; rfl)
  rw [hactive] at ha
  exact hstacked.notMem_area (hroom.nested hactive) hle hx' ha (a.saved_subset_area hx)

/-- A run of code that keeps to the discipline. -/
theorem run (h : NestingInv image s) {cpu : Cpu} (hcpu : Disciplined s cpu) :
    NestingInv image (s.step image (.run cpu)) where
  stacked := h.stacked
  intact a ha := (h.intact a ha).congr (hcpu.saved a ha)
  counted c := (congrArg (fun k => (k c).toNat) hcpu.counters).trans (h.counted c)
  limited c := (congrArg (fun k => k c) hcpu.counters).trans_le (h.limited c)
  esp_le := hcpu.esp_le

/-- An entry beyond the limit halts. -/
theorem step_enter_of_full {vector : Fin 48} {errorCode : BitVec 32}
    (hfull : (counterOf vector).countMax ≤ s.cpu.counters (counterOf vector)) :
    s.step image (.enter vector errorCode) =
      ⟨nestingOverflowHlt (interruptGate vector errorCode s.cpu), s.active⟩ := by
  change (if (enterInterrupt image vector errorCode s.cpu).halted then _ else _) = _
  rw [enterInterrupt_of_full hfull]
  exact if_pos rfl

/-- An entry within the limit adds an activation. -/
theorem step_enter_of_room {vector : Fin 48} {errorCode : BitVec 32}
    (hhalted : s.cpu.halted = false)
    (hlimit : ¬ (counterOf vector).countMax ≤ s.cpu.counters (counterOf vector)) :
    s.step image (.enter vector errorCode) =
      let cpu := enterInterrupt image vector errorCode s.cpu
      ⟨cpu, ⟨vector, errorCode, s.cpu, cpu.esp⟩ :: s.active⟩ := by
  have hentered : Entered image vector errorCode s.cpu _ := enterInterrupt_spec hhalted hlimit
  unfold NestingState.step
  simp only [hentered.halted, Bool.false_eq_true, if_false]

theorem enter_of_full (h : NestingInv image s) (hroom : Room image s) {vector : Fin 48}
    {errorCode : BitVec 32}
    (hfull : (counterOf vector).countMax ≤ s.cpu.counters (counterOf vector)) :
    NestingInv image (s.step image (.enter vector errorCode)) := by
  rw [step_enter_of_full hfull]
  have hgate := interruptGate_spec vector errorCode s.cpu
  have hlen := length_gateWords_le vector errorCode s.cpu
  have hesp : (interruptGate vector errorCode s.cpu).esp =
      s.cpu.esp - BitVec.ofNat 32 (4 * (gateWords vector errorCode s.cpu).length) :=
    (congrArg WordStack.sp hgate.stack).trans (WordStack.sp_pushAll _)
  refine ⟨h.stacked, h.intact_of_room hroom ?_, ?_, ?_, ?_⟩
  -- what the gate pushes is in the room below, so that no frame is written over
  · intro _ x hx
    refine (congrArg (fun t => t.mem x) hgate.stack).trans
      (WordStack.mem_pushAll _ (by omega) fun hx' => hx ?_)
    rw [WordStack.sp_pushAll] at hx'
    exact region_sub_subset (n := 64) (by omega) hx'
  · intro c
    exact (congrArg (fun k => (k c).toNat) hgate.counters).trans (h.counted c)
  · intro c
    exact (congrArg (fun k => k c) hgate.counters).trans_le (h.limited c)
  · -- the words pushed are in the room below, so the pointer does not wrap
    intro a ha
    have hle := h.esp_le a ha
    obtain ⟨rest, hactive⟩ := List.head?_eq_some_iff.mp ha
    have hbottom := hroom.nested hactive
    change (interruptGate vector errorCode s.cpu).esp ≤ a.callEsp
    rw [hesp]
    bv_omega

theorem countMax_le (c : Counter) : c.countMax ≤ 15 := by
  cases c <;> decide

/-- One activation more of the kind that was counted. -/
theorem counted_cons {counters : Counter → BitVec 8} {active : List Activation} {a : Activation}
    (h : ∀ c, (counters c).toNat = active.countP fun b => counterOf b.vector = c)
    (hlimit : ¬ (counterOf a.vector).countMax ≤ counters (counterOf a.vector)) (c : Counter) :
    (Function.update counters (counterOf a.vector) (counters (counterOf a.vector) + 1) c).toNat =
      (a :: active).countP fun b => counterOf b.vector = c := by
  rw [List.countP_cons, ← h c]
  by_cases hc : c = counterOf a.vector
  · subst hc
    rw [Function.update_self]
    simp only [decide_true, if_true]
    -- below the limit the byte does not wrap
    have hmax : (counterOf a.vector).countMax ≤ 15 := countMax_le _
    bv_omega
  · rw [Function.update_of_ne hc]
    simp only [decide_eq_false (Ne.symm hc), Bool.false_eq_true, if_false, Nat.add_zero]

theorem limited_update {counters : Counter → BitVec 8} {c₀ : Counter}
    (h : ∀ c, counters c ≤ c.countMax) (hlimit : ¬ c₀.countMax ≤ counters c₀) (c : Counter) :
    Function.update counters c₀ (counters c₀ + 1) c ≤ c.countMax := by
  by_cases hc : c = c₀
  · subst hc
    rw [Function.update_self]
    bv_omega
  · rw [Function.update_of_ne hc]
    exact h c

/-- A first entry: its frame is outside, its call at the top. -/
theorem enter_first {vector : Fin 48} (errorCode : BitVec 32) (hactive : s.active = [])
    (hroom : Room image s) (hhalted : s.cpu.halted = false)
    (hlimit : ¬ (counterOf vector).countMax ≤ s.cpu.counters (counterOf vector)) :
    let cpu := enterInterrupt image vector errorCode s.cpu
    let a : Activation := ⟨vector, errorCode, s.cpu, cpu.esp⟩
    Stacked image [a] ∧ a.Intact image cpu.mem := by
  have hentered : Entered image vector errorCode s.cpu _ := enterInterrupt_spec hhalted hlimit
  have houtside := hroom.first hactive
  have hesp := hentered.esp
  rw [stackBase_of_outside houtside] at hesp
  refine ⟨.first houtside hesp, hentered.saved fun x hx hx' => houtside x hx ?_⟩
  have htop := image.top_eq
  rw [hesp, mem_region] at hx'
  constructor <;> bv_omega

/-- A nested entry: it goes on below. -/
theorem enter_nested (h : NestingInv image s) {vector : Fin 48} (errorCode : BitVec 32)
    {b : Activation} {rest : List Activation} (hactive : s.active = b :: rest)
    (hroom : Room image s) (hhalted : s.cpu.halted = false)
    (hlimit : ¬ (counterOf vector).countMax ≤ s.cpu.counters (counterOf vector)) :
    let cpu := enterInterrupt image vector errorCode s.cpu
    let a : Activation := ⟨vector, errorCode, s.cpu, cpu.esp⟩
    Stacked image (a :: b :: rest) ∧ a.Intact image cpu.mem ∧
      ∀ x ∉ region (s.cpu.esp - 64) 64, cpu.mem x = s.cpu.mem x := by
  have hentered : Entered image vector errorCode s.cpu _ := enterInterrupt_spec hhalted hlimit
  have hstacked : Stacked image (b :: rest) := hactive ▸ h.stacked
  have hle : s.cpu.esp ≤ b.callEsp := h.esp_le b (by rw [hactive]; rfl)
  have hbounds := hstacked.callEsp_bounds
  have hbottom := hroom.nested hactive
  have hesp := hentered.esp
  -- the stack is not changed, so the new frame and its area are right below the pointer
  rw [stackBase_of_room hbottom (by bv_omega)] at hesp
  have hesp' : (enterInterrupt image vector errorCode s.cpu).esp = s.cpu.esp - 64 := by
    rw [hesp]
    bv_omega
  refine ⟨.nested hstacked hbottom hle hesp', hentered.saved ?_, ?_⟩
  -- the frame is within what was pushed
  · intro x hx hx'
    rw [hesp', mem_region] at hx'
    rw [mem_region] at hx
    bv_omega
  · intro x hx
    refine hentered.mem_eq (fun hx' => hx (region_sub_subset (n := 64) (by decide) hx')) ?_
    rw [hesp']
    exact fun hx' => hx (region_mono (by decide) hx')

theorem enter_of_room (h : NestingInv image s) (hroom : Room image s)
    (hhalted : s.cpu.halted = false) {vector : Fin 48} {errorCode : BitVec 32}
    (hlimit : ¬ (counterOf vector).countMax ≤ s.cpu.counters (counterOf vector)) :
    NestingInv image (s.step image (.enter vector errorCode)) := by
  have hentered : Entered image vector errorCode s.cpu _ := enterInterrupt_spec hhalted hlimit
  rw [step_enter_of_room hhalted hlimit]
  -- the counters first: one more is counted, still within the limits
  have hcounted := counted_cons (a := ⟨vector, errorCode, s.cpu,
    (enterInterrupt image vector errorCode s.cpu).esp⟩) h.counted hlimit
  have hlimited := limited_update h.limited hlimit
  rw [← hentered.counters] at hcounted hlimited
  have hesp : ∀ a ∈ (some (⟨vector, errorCode, s.cpu,
      (enterInterrupt image vector errorCode s.cpu).esp⟩ : Activation)),
      (enterInterrupt image vector errorCode s.cpu).esp ≤ a.callEsp := by
    rintro a ⟨⟩
    exact BitVec.le_refl _
  -- the first entry changes to the interrupt stack, a nested one stays on it
  cases hactive : s.active with
  | nil =>
    obtain ⟨hstacked, hintact⟩ := enter_first errorCode hactive hroom hhalted hlimit
    rw [hactive] at hcounted
    exact ⟨hstacked, fun a ha => List.mem_singleton.mp ha ▸ hintact, hcounted, hlimited, hesp⟩
  | cons b rest =>
    obtain ⟨hstacked, hintact, hmem⟩ :=
      h.enter_nested errorCode hactive hroom hhalted hlimit
    have hothers := h.intact_of_room hroom fun _ => hmem
    rw [hactive] at hcounted hothers
    refine ⟨hstacked, ?_, hcounted, hlimited, hesp⟩
    intro a ha
    rcases List.mem_cons.mp ha with rfl | ha
    · exact hintact
    · exact hothers a ha

/-- A return resumes what the latest activation interrupted. -/
theorem step_ret (h : NestingInv image s) {a : Activation} {rest : List Activation}
    (hactive : s.active = a :: rest) (hesp : s.cpu.esp = a.callEsp) :
    s.step image .ret = ⟨resumed s.cpu a.interrupted a.vector, rest⟩ := by
  have hsaved : Saved image s.cpu.mem a.callEsp a.frame _ :=
    h.intact a (hactive ▸ List.mem_cons_self)
  rw [← hesp] at hsaved
  change NestingState.mk (dispatcherReturn image s.cpu) s.active.tail = _
  rw [dispatcherReturn_spec hsaved, hactive]
  exact congrArg (NestingState.mk · rest) (returned_savedFrame _ _ _ _)

theorem ret (h : NestingInv image s) {a : Activation} {rest : List Activation}
    (hactive : s.active = a :: rest) (hesp : s.cpu.esp = a.callEsp) :
    NestingInv image (s.step image .ret) := by
  have hstacked : Stacked image (a :: rest) := hactive ▸ h.stacked
  rw [h.step_ret hactive hesp]
  refine ⟨hstacked.tail, fun b hb => h.intact b (hactive ▸ List.mem_cons_of_mem a hb),
    ?_, ?_, ?_⟩
  · intro c
    have hcount := h.counted c
    rw [hactive, List.countP_cons] at hcount
    change (Function.update s.cpu.counters (counterOf a.vector) _ c).toNat = _
    by_cases hc : c = counterOf a.vector
    · subst hc
      rw [Function.update_self]
      simp only [decide_true, if_true] at hcount
      -- the activation itself was counted, so the byte does not wrap
      bv_omega
    · rw [Function.update_of_ne hc, hcount, decide_eq_false (Ne.symm hc)]
      rfl
  · intro c
    have hlimited := h.limited c
    have hcount := h.counted c
    rw [hactive, List.countP_cons] at hcount
    change Function.update s.cpu.counters (counterOf a.vector) _ c ≤ _
    by_cases hc : c = counterOf a.vector
    · subst hc
      rw [Function.update_self]
      simp only [decide_true, if_true] at hcount
      bv_omega
    · rw [Function.update_of_ne hc]
      exact hlimited
  · cases hstacked with
    | first => exact fun b hb => absurd hb (by simp)
    | nested _ _ hle _ =>
      rintro b ⟨⟩
      exact hle

/-- No activations and no counts. -/
theorem init (hcounters : ∀ c, s.cpu.counters c = 0) (hactive : s.active = []) :
    NestingInv image s where
  stacked := hactive ▸ .nil
  intact a ha := absurd ha (hactive ▸ List.not_mem_nil)
  counted c := by rw [hcounters c, hactive]; rfl
  limited c := by rw [hcounters c]; bv_omega
  esp_le a ha := absurd ha (by rw [hactive]; simp)

theorem step (h : NestingInv image s) {l : NestingStep}
    (hen : (nestingMachine image (Room image)).enabled s l) :
    NestingInv image (s.step image l) := by
  obtain ⟨hhalted, hen⟩ := hen
  cases l with
  | enter vector errorCode =>
    by_cases hfull : (counterOf vector).countMax ≤ s.cpu.counters (counterOf vector)
    · exact h.enter_of_full hen hfull
    · exact h.enter_of_room hen hhalted hfull
  | run cpu => exact h.run hen
  | ret =>
    obtain ⟨a, ha, hesp⟩ := hen
    obtain ⟨rest, hactive⟩ := List.head?_eq_some_iff.mp ha
    exact h.ret hactive hesp

end NestingInv

theorem nestingInv_of_run {image : Image} {s₀ s : NestingState} {h : List (NestingStep × Unit)}
    (hcounters : ∀ c, s₀.cpu.counters c = 0) (hactive : s₀.active = [])
    (hrun : (nestingMachine image (Room image)).Run s₀ h s) : NestingInv image s :=
  hrun.invariant_state (.init hcounters hactive) fun _ _ hinv hen => hinv.step hen

theorem counterOf_eq_pic {vector : Fin 48} : counterOf vector = .pic ↔ 32 ≤ vector.val := by
  unfold counterOf
  by_cases h : 32 ≤ vector.val <;> simp [h]

theorem counterOf_eq_exception {vector : Fin 48} :
    counterOf vector = .exception ↔ vector.val < 32 := by
  unfold counterOf
  by_cases h : 32 ≤ vector.val <;> simp [h]
  omega

/-- The stack that an interrupt would go on with. -/
def entryBase (image : Image) (s : NestingState) (vector : Fin 48) (errorCode : BitVec 32) :
    BitVec 32 :=
  (selectStack image (stub vector (interruptGate vector errorCode s.cpu))).esp

/-- **Entries and returns keep counters and stacks consistent.** In every state of a run in
which entries have room: the counters count the active activations of the two kinds and
are within their limits; an entry beyond its limit halts, and any other adds an
activation, the first one at the top of the interrupt stack and a nested one below all
that is there; what the active entries have written does not overlap; and a return
resumes what was interrupted. -/
theorem interrupt_nesting {image : Image} {s₀ s : NestingState} {h : List (NestingStep × Unit)}
    (hcounters : ∀ c, s₀.cpu.counters c = 0) (hactive : s₀.active = [])
    (hrun : (nestingMachine image (Room image)).Run s₀ h s) :
    (s.cpu.counters .pic).toNat = (s.active.countP fun a => 32 ≤ a.vector.val) ∧
      (s.cpu.counters .exception).toNat = (s.active.countP fun a => a.vector.val < 32) ∧
      s.cpu.counters .pic ≤ 15 ∧ s.cpu.counters .exception ≤ 3 ∧
      (∀ vector errorCode, s.cpu.halted = false → Room image s →
        ((counterOf vector).countMax ≤ s.cpu.counters (counterOf vector) →
          ∃ cpu, s.step image (.enter vector errorCode) = ⟨cpu, s.active⟩ ∧ cpu.halted = true ∧
            cpu.counters = s.cpu.counters) ∧
        (s.cpu.counters (counterOf vector) < (counterOf vector).countMax →
          ∃ cpu a, s.step image (.enter vector errorCode) = ⟨cpu, a :: s.active⟩ ∧
            cpu.halted = false ∧ a.vector = vector ∧ a.interrupted = s.cpu ∧
            (s.active = [] → entryBase image s vector errorCode = image.interruptStackTop) ∧
            ∀ b ∈ s.active.head?, entryBase image s vector errorCode = a.frame ∧
              ∀ x ∈ a.area, x < b.callEsp)) ∧
      (s.active.Pairwise fun a b => ∀ x ∈ a.area, x ∉ b.area) ∧
      ∀ a rest, s.active = a :: rest → s.cpu.esp = a.callEsp →
        s.step image .ret = ⟨resumed s.cpu a.interrupted a.vector, rest⟩ := by
  have hinv := nestingInv_of_run hcounters hactive hrun
  refine ⟨?_, ?_, hinv.limited .pic, hinv.limited .exception, ?_,
    hinv.stacked.pairwise_apart, fun a rest => hinv.step_ret⟩
  -- the counters count the activations of their kind, which the vector tells
  · rw [hinv.counted .pic]
    exact List.countP_congr fun a _ => by simp [counterOf_eq_pic]
  · rw [hinv.counted .exception]
    exact List.countP_congr fun a _ => by simp [counterOf_eq_exception]
  intro vector errorCode hhalted hroom
  constructor
  -- an entry at the limit pushes what the gate pushes, and halts
  · intro hfull
    exact ⟨_, NestingInv.step_enter_of_full hfull, rfl,
      (interruptGate_spec vector errorCode s.cpu).counters⟩
  · intro hlt
    -- an entry below it has its frame on the stack that the pointer selects
    have hlimit := BitVec.not_le.mpr hlt
    have hentered : Entered image vector errorCode s.cpu _ := enterInterrupt_spec hhalted hlimit
    have hbase : entryBase image s vector errorCode = stackBase image (s.cpu.esp - 52) :=
      (selectStack_esp _ _).trans (congrArg _ (stub_esp hlimit))
    refine ⟨_, _, NestingInv.step_enter_of_room hhalted hlimit, hentered.halted, rfl, rfl,
      ?_, ?_⟩
    · intro hfirst
      exact hbase.trans (stackBase_of_outside (hroom.first hfirst))
    -- nested: the new area lies below all that the interrupted handler has there
    · intro b hb
      obtain ⟨rest, hcons⟩ := List.head?_eq_some_iff.mp hb
      obtain ⟨hstacked, -, -⟩ := hinv.enter_nested errorCode hcons hroom hhalted hlimit
      have hle := hinv.esp_le b hb
      obtain ⟨-, htop⟩ := hstacked.tail.callEsp_bounds
      have hbottom := hroom.nested hcons
      refine ⟨hbase.trans (stackBase_of_room hbottom (by bv_omega)), ?_⟩
      intro x hx
      have hx' := hstacked.area_subset (List.cons_ne_nil _ _) hx
      rw [mem_region] at hx'
      change (x - (s.cpu.esp - 64)).toNat < 64 at hx'
      bv_omega

/-! ### Without room -/

/-- An image with the smallest interrupt stack the linker script lays out. -/
def smallImage : Image where
  interruptStackBottom := 0x2000
  interruptStackTop := 0x2374
  interruptRawStack := 0
  top_eq := by decide
  interruptDispatcher := 0x1000
  returnAddress := 0x1800

/-- A processor that no interrupt has reached yet. -/
def idleCpu (esp : BitVec 32) : Cpu where
  regs := ⟨1, 2, 3, 4, 5, 6, 7⟩
  esp := esp
  eip := 0x1400
  eflags := 0x202
  cs := 0x08
  ds := 0x10
  es := 0x10
  counters := fun _ => 0
  mem := fun _ => 0
  halted := false

/-- A fault in the handler of the timer: both are counted, and the return from the fault resumes
the handler. -/
theorem interrupt_nesting_fault :
    let s₀ : NestingState := ⟨idleCpu 0x1F00, []⟩
    let s₁ := s₀.step smallImage (.enter 32 0)
    let s₂ := s₁.step smallImage (.enter 0 0)
    (s₂.cpu.counters .pic).toNat = 1 ∧ (s₂.cpu.counters .exception).toNat = 1 ∧
      s₂.step smallImage .ret = ⟨resumed s₂.cpu s₁.cpu 0, s₁.active⟩ := by
  intro s₀ s₁ s₂
  have hfirst : Room smallImage s₀ := by
    intro x hx hstack
    change (x - (0x1F00 - 52)).toNat < 52 at hx
    have hle : (0x2000 : BitVec 32) ≤ x := hstack.1
    bv_omega
  have hnested : Room smallImage s₁ := by
    change smallImage.interruptStackBottom.toNat + 64 ≤ s₁.cpu.esp.toNat
    decide +kernel
  let m := nestingMachine smallImage (Room smallImage)
  have h₁ : m.Run s₀ _ s₁ :=
    Machine.Run.snoc (m := m) (NestingStep.enter 32 0) .nil ⟨rfl, hfirst⟩
  have h₂ : m.Run s₀ _ s₂ :=
    Machine.Run.snoc (m := m) (NestingStep.enter 0 0) h₁ ⟨rfl, hnested⟩
  obtain ⟨hpic, hexception, -, -, -, -, hret⟩ := interrupt_nesting (fun _ => rfl) rfl h₂
  exact ⟨hpic, hexception, hret _ _ rfl rfl⟩

/-- Interrupts of code that is not on the interrupt stack, with no other condition. -/
def Outside (image : Image) (s : NestingState) : Prop :=
  s.active = [] → s.cpu.esp ∉ image.interruptStack

/-- Code that only moves its stack pointer. -/
theorem Disciplined.of_esp {s : NestingState} (hhalted : s.cpu.halted = false) {e : BitVec 32}
    (hle : ∀ a ∈ s.active.head?, e ≤ a.callEsp) : Disciplined s { s.cpu with esp := e } :=
  ⟨rfl, hhalted, fun _ _ _ _ => rfl, hle⟩

/-- **Entries without room.** From a stack pointer right above the interrupt stack the
first entry does not go to the top. And if a handler runs its stack down to the bottom,
an entry there starts again at the top and takes the place of the first pointer; the
returns then count down the wrong counter. -/
theorem overflow_unbalances :
    (Outside smallImage ⟨idleCpu 0x2378, []⟩ ∧
      entryBase smallImage ⟨idleCpu 0x2378, []⟩ 32 0 ≠ smallImage.interruptStackTop) ∧
    ∃ h s, (nestingMachine smallImage (Outside smallImage)).Run ⟨idleCpu 0x1F00, []⟩ h s ∧
      s.active = [] ∧ s.cpu.counters .pic = 1 ∧ s.cpu.counters .exception = 255 := by
  refine ⟨⟨fun _ h => absurd h.2 (by decide), by decide +kernel⟩, ?_⟩
  let m := nestingMachine smallImage (Outside smallImage)
  let s₀ : NestingState := ⟨idleCpu 0x1F00, []⟩
  let s₁ := s₀.step smallImage (.enter 32 0)
  let s₂ := s₁.step smallImage (.run { s₁.cpu with esp := 0x2030 })
  let s₃ := s₂.step smallImage (.enter 0 0)
  let s₄ := s₃.step smallImage .ret
  let s₅ := s₄.step smallImage (.run { s₄.cpu with esp := s₁.cpu.esp })
  let s₆ := s₅.step smallImage .ret
  have h₁ : m.Run s₀ _ s₁ := Machine.Run.snoc (m := m) (NestingStep.enter 32 0) .nil
    ⟨rfl, fun _ h => absurd h.1 (by decide)⟩
  have h₂ : m.Run s₀ _ s₂ := Machine.Run.snoc (m := m)
    (NestingStep.run { s₁.cpu with esp := 0x2030 }) h₁
    ⟨rfl, .of_esp rfl (by rintro a ⟨⟩; decide)⟩
  have h₃ : m.Run s₀ _ s₃ := Machine.Run.snoc (m := m) (NestingStep.enter 0 0) h₂
    ⟨rfl, fun h => absurd h (List.cons_ne_nil _ _)⟩
  have h₄ : m.Run s₀ _ s₄ := Machine.Run.snoc (m := m) NestingStep.ret h₃ ⟨rfl, _, rfl, rfl⟩
  have h₅ : m.Run s₀ _ s₅ := Machine.Run.snoc (m := m)
    (NestingStep.run { s₄.cpu with esp := s₁.cpu.esp }) h₄
    ⟨by decide +kernel, .of_esp (by decide +kernel) (by rintro a ⟨⟩; exact BitVec.le_refl _)⟩
  have h₆ : m.Run s₀ _ s₆ := Machine.Run.snoc (m := m) NestingStep.ret h₅
    ⟨by decide +kernel, _, rfl, rfl⟩
  exact ⟨_, s₆, h₆, rfl, by decide +kernel, by decide +kernel⟩

end BareMetal
