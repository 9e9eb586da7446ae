import BareMetal.Interrupts.Nesting

/-!
# The size of the interrupt stack

The linker script lays out the interrupt stack for eighteen activations: the counters let
fifteen interrupts of the controllers and three exceptions nest. Each activation has the
`_interrupt_raw_stack` bytes that the build has found a handler to need, and every one but the
first also the frame of the interrupt.

If a handler keeps to its bytes, then every entry that the counters let through finds room
(`interrupt_stack_suffices`), so that nothing but this bound is asked of a nested interrupt. Of
the bytes of a handler the common entry takes twelve, for the saved pointer, the argument and
the return address.
-/

namespace BareMetal

open Framework

/-- Interrupts within the limits of the counters, where a handler, with what it calls, takes at
most `depth` bytes below its return address. -/
def depthMachine (image : Image) (depth : ℕ) : Machine NestingState NestingStep Unit where
  step s l := ((), s.step image l)
  enabled s l := s.cpu.halted = false ∧ match l with
    | .enter vector _ => s.cpu.counters (counterOf vector) < (counterOf vector).countMax ∧
        (s.active = [] → ∀ x ∈ region (s.cpu.esp - 52) 52, x ∉ image.interruptStack)
    | .run cpu => Disciplined s cpu ∧
        ∀ a ∈ s.active.head?, a.callEsp.toNat ≤ cpu.esp.toNat + depth
    | .ret => ∃ a ∈ s.active.head?, s.cpu.esp = a.callEsp

/-- The most activations that the counters let nest. -/
def activationMax : ℕ := Counter.pic.countMax.toNat + Counter.exception.countMax.toNat

/-- Every handler had kept to its bytes when it was interrupted. -/
def Shallow (depth : ℕ) (active : List Activation) : Prop :=
  active.IsChain fun a b => b.callEsp.toNat ≤ a.interrupted.esp.toNat + depth

/-- **An activation takes its bytes and those of an entry.** -/
theorem Stacked.top_le {image : Image} {depth : ℕ} {a : Activation} {rest : List Activation}
    (h : Stacked image (a :: rest)) (hdepth : Shallow depth (a :: rest)) :
    image.interruptStackTop.toNat ≤ a.callEsp.toNat + 12 + rest.length * (depth + 64) := by
  generalize hactive : a :: rest = active at h hdepth
  induction h generalizing a rest with
  | nil => exact absurd hactive (List.cons_ne_nil a rest)
  | @first a' _ hcall =>
    obtain ⟨rfl, rfl⟩ := List.cons.inj hactive
    have htop := image.top_eq
    rw [hcall, List.length_nil, Nat.zero_mul]
    bv_omega
  | @nested a' b rest' hbelow hroom hle hcall ih =>
    obtain ⟨rfl, rfl⟩ := List.cons.inj hactive
    obtain ⟨hab, hrest⟩ := List.isChain_cons_cons.mp hdepth
    have hb := ih rfl hrest
    have hcall' : a.callEsp.toNat + 64 = a.interrupted.esp.toNat := by
      rw [hcall]
      bv_omega
    rw [List.length_cons, Nat.succ_mul]
    omega

/-- What holds in every state of a run. -/
structure DepthInv (image : Image) (depth : ℕ) (s : NestingState) : Prop
    extends NestingInv image s where
  shallow : Shallow depth s.active
  current : ∀ a ∈ s.active.head?, a.callEsp.toNat ≤ s.cpu.esp.toNat + depth

namespace DepthInv

variable {image : Image} {depth : ℕ} {s : NestingState}

/-- The counters count all the activations. -/
theorem length_eq (h : DepthInv image depth s) :
    s.active.length
      = (s.cpu.counters .pic).toNat + (s.cpu.counters .exception).toNat := by
  rw [h.counted .pic, h.counted .exception,
    List.length_eq_countP_add_countP fun a : Activation => counterOf a.vector = .pic]
  congr 1
  refine List.countP_congr fun a _ => ?_
  cases counterOf a.vector <;> simp

theorem length_le (h : DepthInv image depth s) : s.active.length ≤ activationMax := by
  have hpic := h.limited .pic
  have hexception := h.limited .exception
  rw [h.length_eq]
  exact Nat.add_le_add hpic hexception

/-- With one more to come there are fewer. -/
theorem length_lt (h : DepthInv image depth s) {c : Counter}
    (hlimit : s.cpu.counters c < c.countMax) : s.active.length < activationMax := by
  have hpic : (s.cpu.counters .pic).toNat ≤ Counter.pic.countMax.toNat := h.limited .pic
  have hexception : (s.cpu.counters .exception).toNat ≤ Counter.exception.countMax.toNat :=
    h.limited .exception
  have hlimit : (s.cpu.counters c).toNat < c.countMax.toNat := hlimit
  rw [h.length_eq]
  unfold activationMax
  cases c <;> omega

/-- The stack pointer, by the number of activations. -/
theorem top_le (h : DepthInv image depth s) (hactive : s.active ≠ []) :
    image.interruptStackTop.toNat + 64 ≤
      s.cpu.esp.toNat + 12 + s.active.length * (depth + 64) := by
  obtain ⟨a, rest, hcons⟩ := List.exists_cons_of_ne_nil hactive
  have hstacked := h.stacked
  have hshallow := h.shallow
  have hcurrent := h.current a (by rw [hcons]; rfl)
  rw [hcons] at hstacked hshallow ⊢
  have htop := hstacked.top_le hshallow
  rw [List.length_cons, Nat.succ_mul]
  omega

variable (hdepth : depth + 12 ≤ image.interruptRawStack)
include hdepth

/-- The stack does not overflow. -/
theorem bottom_le (h : DepthInv image depth s) (hactive : s.active ≠ []) :
    image.interruptStackBottom.toNat ≤ s.cpu.esp.toNat := by
  have hle := h.top_le hactive
  have htop := image.top_eq
  have hmul : s.active.length * (depth + 64) ≤ 18 * (depth + 64) :=
    Nat.mul_le_mul_right _ h.length_le
  omega

/-- **There is room for every entry that the counters let through.** -/
theorem room (h : DepthInv image depth s) {vector : Fin 48}
    (hlimit : s.cpu.counters (counterOf vector) < (counterOf vector).countMax)
    (hfirst : s.active = [] → ∀ x ∈ region (s.cpu.esp - 52) 52, x ∉ image.interruptStack) :
    Room image s := by
  unfold Room
  cases hactive : s.active with
  | nil => exact hfirst hactive
  | cons b rest =>
    have hne : s.active ≠ [] := by
      rw [hactive]
      exact List.cons_ne_nil b rest
    have hle := h.top_le hne
    have htop := image.top_eq
    -- at most seventeen activations lie above
    have hmul : s.active.length * (depth + 64) ≤ 17 * (depth + 64) :=
      Nat.mul_le_mul_right _ (Nat.le_of_lt_succ (h.length_lt hlimit))
    change image.interruptStackBottom.toNat + 64 ≤ s.cpu.esp.toNat
    omega

/-- A step of the machine is one for which there is room. -/
theorem enabled (h : DepthInv image depth s) {l : NestingStep}
    (hen : (depthMachine image depth).enabled s l) :
    (nestingMachine image (Room image)).enabled s l := by
  obtain ⟨hhalted, hen⟩ := hen
  refine ⟨hhalted, ?_⟩
  cases l with
  | enter vector errorCode => exact h.room hdepth hen.1 hen.2
  | run cpu => exact hen.1
  | ret => exact hen

theorem step (h : DepthInv image depth s) {l : NestingStep}
    (hen : (depthMachine image depth).enabled s l) : DepthInv image depth (s.step image l) := by
  have hinv : NestingInv image (s.step image l) := h.toNestingInv.step (h.enabled hdepth hen)
  suffices hkept : Shallow depth (s.step image l).active ∧
      ∀ a ∈ (s.step image l).active.head?,
        a.callEsp.toNat ≤ (s.step image l).cpu.esp.toNat + depth from ⟨hinv, hkept.1, hkept.2⟩
  obtain ⟨hhalted, hen⟩ := hen
  cases l with
  | enter vector errorCode =>
    rw [NestingInv.step_enter_of_room hhalted (BitVec.not_le.mpr hen.1)]
    refine ⟨?_, ?_⟩
    · -- the interrupted handler had kept to its bytes so far
      cases hactive : s.active with
      | nil => exact List.IsChain.singleton _
      | cons b rest =>
        have hshallow := h.shallow
        rw [hactive] at hshallow
        exact List.isChain_cons_cons.mpr ⟨h.current b (by rw [hactive]; rfl), hshallow⟩
    · rintro a ⟨⟩
      exact Nat.le_add_right _ _
  | run cpu => exact ⟨h.shallow, hen.2⟩
  | ret =>
    obtain ⟨a, ha, hesp⟩ := hen
    obtain ⟨rest, hactive⟩ := List.head?_eq_some_iff.mp ha
    have hshallow := h.shallow
    rw [hactive] at hshallow
    rw [h.step_ret hactive hesp]
    cases rest with
    | nil => exact ⟨.nil, nofun⟩
    | cons b rest =>
      -- the handler below goes on with the pointer that it had at the interruption
      obtain ⟨hab, hrest⟩ := List.isChain_cons_cons.mp hshallow
      refine ⟨hrest, ?_⟩
      rintro b ⟨⟩
      exact hab

end DepthInv

/-- **The interrupt stack suffices.** If a handler takes at most the raw size less twelve bytes,
then in every run in which the first frames are outside, the stack pointer of the handlers never
goes below the bottom, at most eighteen activations nest, and there is room for every entry that
the counters let through. So the run is one of the machine whose entries have room. -/
theorem interrupt_stack_suffices {image : Image} {depth : ℕ}
    (hdepth : depth + 12 ≤ image.interruptRawStack) {s₀ s : NestingState}
    {h : List (NestingStep × Unit)} (hcounters : ∀ c, s₀.cpu.counters c = 0)
    (hactive : s₀.active = []) (hrun : (depthMachine image depth).Run s₀ h s) :
    (nestingMachine image (Room image)).Run s₀ h s ∧
      s.active.length ≤ 18 ∧
      (s.active ≠ [] → image.interruptStackBottom.toNat ≤ s.cpu.esp.toNat ∧
        s.cpu.esp.toNat + 12 ≤ image.interruptStackTop.toNat) ∧
      ∀ vector, s.active ≠ [] →
        s.cpu.counters (counterOf vector) < (counterOf vector).countMax → Room image s := by
  have hinit : DepthInv image depth s₀ := by
    refine ⟨.init hcounters hactive, ?_, ?_⟩
    · rw [hactive]
      exact .nil
    · rw [hactive]
      exact nofun
  -- there is room for each entry, so this is a run of the machine that asks for room
  obtain ⟨hinv, hrun'⟩ : DepthInv image depth s ∧
      (nestingMachine image (Room image)).Run s₀ h s :=
    hrun.simulation id hinit fun s l hs hen => ⟨hs.step hdepth hen, hs.enabled hdepth hen, rfl⟩
  refine ⟨hrun', hinv.length_le, ?_, ?_⟩
  · intro hne
    refine ⟨hinv.bottom_le hdepth hne, ?_⟩
    obtain ⟨a, rest, hcons⟩ := List.exists_cons_of_ne_nil hne
    have hle : s.cpu.esp.toNat ≤ a.callEsp.toNat := hinv.esp_le a (by rw [hcons]; rfl)
    have hstacked := hinv.stacked
    rw [hcons] at hstacked
    exact (Nat.add_le_add_right hle 12).trans hstacked.callEsp_bounds.2
  · exact fun vector hne hlimit => hinv.room hdepth hlimit fun hnil => absurd hnil hne

/-- An image whose handlers have 256 bytes. -/
def roomyImage : Image where
  interruptStackBottom := 0x2000
  interruptStackTop := 0x3574
  interruptRawStack := 0x100
  top_eq := by decide
  interruptDispatcher := 0x1000
  returnAddress := 0x1800

/-- A fault in the handler of the timer. -/
theorem interrupt_stack_suffices_fault :
    let s₀ : NestingState := ⟨idleCpu 0x1F00, []⟩
    let s₁ := s₀.step roomyImage (.enter 32 0)
    let s₂ := s₁.step roomyImage (.enter 0 0)
    (∃ h, (nestingMachine roomyImage (Room roomyImage)).Run s₀ h s₂) ∧
      s₂.active.length ≤ 18 := by
  intro s₀ s₁ s₂
  let m := depthMachine roomyImage 244
  have houtside : ∀ x ∈ region (s₀.cpu.esp - 52) 52, x ∉ roomyImage.interruptStack := by
    intro x hx hstack
    change (x - (0x1F00 - 52)).toNat < 52 at hx
    have hle : (0x2000 : BitVec 32) ≤ x := hstack.1
    bv_omega
  have h₁ : m.Run s₀ _ s₁ := Machine.Run.snoc (m := m) (NestingStep.enter 32 0) .nil
    ⟨rfl, by decide, fun _ => houtside⟩
  have h₂ : m.Run s₀ _ s₂ := Machine.Run.snoc (m := m) (NestingStep.enter 0 0) h₁
    ⟨rfl, by decide, fun h => absurd h (List.cons_ne_nil _ _)⟩
  obtain ⟨hrun, hlen, -⟩ :=
    @interrupt_stack_suffices roomyImage 244 (by decide) s₀ s₂ _ (fun _ => rfl) rfl h₂
  exact ⟨⟨_, hrun⟩, hlen⟩

end BareMetal
