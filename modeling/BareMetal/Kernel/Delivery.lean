import BareMetal.Kernel.Exceptions

/-!
# The delivery of interrupts

Devices request interrupts at any moment. The processor accepts one when none is being
handled: a gate turns interrupts off and `iret` turns them on again. `interrupt_dispatcher`
runs the handler and ends the interrupt at the controllers. `deliveryMachine` has these three
moves in any order.

`initialize_exceptions` leaves the controllers so that only the timer and the keyboard get
through. Along every run from there (`interrupts_delivered`) each handler starts with its own
line in service and leaves nothing in service, so no line is ever blocked; a request stays
until it is accepted; and the two drivers see the interrupts that were accepted, each once and
in order.
-/

namespace BareMetal

open Framework

/-! ### The machine -/

/-- What the handlers work on, and the vector whose handler runs. -/
structure Delivery where
  state : InterruptState
  active : Option (BitVec 8)

inductive DeliveryMove where
  | request (line : Fin 8 ⊕ Fin 8)
  | accept
  | dispatch (ports : KeyboardPorts) (frame : InterruptFrame)

inductive DeliveryEffect where
  | silent
  | accepted (vector : BitVec 8)
  | ended (vector : BitVec 8)
  deriving DecidableEq

abbrev DeliveryHistory := List (DeliveryMove × DeliveryEffect)

/-- One move. -/
def Delivery.step (tier : Tier) (clzZero : ℤ) (p : Delivery) :
    DeliveryMove → DeliveryEffect × Delivery
  | .request line =>
    (.silent, { p with state := { p.state with pics := p.state.pics.request line } })
  | .accept =>
    match p.state.pics.acknowledge with
    | some (vector, pics) => (.accepted vector, ⟨{ p.state with pics := pics }, some vector⟩)
    | none => (.silent, p)
  | .dispatch ports frame =>
    match p.active with
    | some vector => (.ended vector, ⟨p.state.interruptDispatcher tier clzZero ports frame, none⟩)
    | none => (.silent, p)

/-- No device is on the line of the cascade. The processor accepts an interrupt when none is
being handled and it does not stand still with interrupts off. The dispatcher gets a frame
with the vector that was accepted. -/
def deliveryMachine (tier : Tier) (clzZero : ℤ) :
    Machine Delivery DeliveryMove DeliveryEffect where
  step := Delivery.step tier clzZero
  enabled p
    | .request line => line ≠ .inl Pics.cascadeLine
    | .accept => p.active = none ∧ p.state.halted = false
    | .dispatch _ frame => p.active.map (·.setWidth 32) = some frame.vector

/-! ### What a history says -/

/-- The vectors that were accepted. -/
def acceptedVectors (h : DeliveryHistory) : List (BitVec 8) :=
  h.filterMap fun
    | (_, .accepted vector) => some vector
    | _ => none

/-- The vectors whose handler came to its end. -/
def endedVectors (h : DeliveryHistory) : List (BitVec 8) :=
  h.filterMap fun
    | (_, .ended vector) => some vector
    | _ => none

/-- What the handler of the keyboard read, if it is the one that ran. -/
def keyboardRead : DeliveryMove × DeliveryEffect → Option KeyboardPorts
  | (.dispatch ports _, .ended vector) => if vector = 33 then some ports else none
  | _ => none

def keyboardReads (h : DeliveryHistory) : List KeyboardPorts := h.filterMap keyboardRead

/-- A line of the first chip that was requested and not accepted since. -/
def waiting (i : Fin 8) (h : DeliveryHistory) : Bool :=
  h.foldl (fun w e =>
    match e with
    | (.request line, _) => w || decide (line = .inl i)
    | (_, .accepted vector) => w && decide (vector ≠ BitVec.ofNat 8 (irqBase + i))
    | _ => w) false

theorem waiting_snoc (i : Fin 8) (h : DeliveryHistory) (e : DeliveryMove × DeliveryEffect) :
    waiting i (h ++ [e]) =
      match e with
      | (.request line, _) => waiting i h || decide (line = .inl i)
      | (_, .accepted vector) => waiting i h && decide (vector ≠ BitVec.ofNat 8 (irqBase + i))
      | _ => waiting i h := by
  unfold waiting
  rw [List.foldl_append]
  rfl

theorem acceptedVectors_snoc (h : DeliveryHistory) (e : DeliveryMove × DeliveryEffect) :
    acceptedVectors (h ++ [e]) = acceptedVectors h ++ acceptedVectors [e] :=
  List.filterMap_append ..

theorem endedVectors_snoc (h : DeliveryHistory) (e : DeliveryMove × DeliveryEffect) :
    endedVectors (h ++ [e]) = endedVectors h ++ endedVectors [e] :=
  List.filterMap_append ..

theorem keyboardReads_snoc (h : DeliveryHistory) (e : DeliveryMove × DeliveryEffect) :
    keyboardReads (h ++ [e]) = keyboardReads h ++ keyboardReads [e] :=
  List.filterMap_append ..

/-! ### The controllers -/

namespace PicPorts

/-- The chips as `initialize_exceptions` sets them up. -/
structure Configured (s : Pics) : Prop where
  offset : s.master.offset = 0x20
  cascaded : s.Cascaded
  masterMask : s.master.mask = 0xFC
  slaveMask : s.slave.mask = 0xFF

/-- The lines that are not masked, with their vectors. -/
def openLine (i : Fin 8) (vector : BitVec 8) : Prop :=
  i.val = 0 ∧ vector = 32 ∨ i.val = 1 ∧ vector = 33

/-- In service is what is being handled. -/
def Serving (s : Pics) (active : Option (BitVec 8)) : Prop :=
  s.slave.Idle ∧
    match active with
    | none => s.master.Idle
    | some vector => ∃ i, openLine i vector ∧ s.master.Only (some i)

variable {s : Pics}

/-- What `initialize_exceptions` makes of the chips. -/
theorem initializePics_eq (s : Pics) :
    initializePics s =
      ⟨⟨[], 0x20, 0x04, 0x01, 0xFC, fun _ => false, s.master.inService⟩,
        ⟨[], 0x28, 0x02, 0x01, 0xFF, fun _ => false, s.slave.inService⟩⟩ := by
  rw [initializePics, picRemap_eq, maskAllExceptTimerAndKeyboard_eq rfl rfl]
  rfl

theorem initializePics_configured (s : Pics) : Configured (initializePics s) := by
  rw [initializePics_eq]
  exact ⟨rfl, ⟨rfl, rfl⟩, rfl, rfl⟩

theorem initializePics_serving (hidle : s.Idle) : Serving (initializePics s) none := by
  rw [initializePics_eq]
  exact ⟨hidle.2, hidle.1⟩

/-- A line of the first chip is signalled if it is one of the two. -/
theorem Configured.pending (h : Configured s) (hidle : s.master.Idle) :
    s.master.pending s.lines =
      if s.master.requested 0 then some 0 else if s.master.requested 1 then some 1 else none := by
  have hmask : ∀ i : Fin 8, (0xFC : BitVec 8).getLsbD i = decide (2 ≤ i) := by decide
  have hlines : List.finRange 8 = [0, 1, 2, 3, 4, 5, 6, 7] := by decide
  rw [Pic.pending_of_idle hidle, h.masterMask]
  unfold Pic.first
  rw [hlines]
  have hzero : s.lines 0 = s.master.requested 0 := Function.update_of_ne (by decide) ..
  have hone : s.lines 1 = s.master.requested 1 := Function.update_of_ne (by decide) ..
  simp only [List.find?_cons, List.find?_nil, hmask, hzero, hone]
  cases s.master.requested 0 <;> cases s.master.requested 1 <;> simp

/-- **Nothing blocks the two lines**: with nothing in service the processor gets the vector of
the first that was requested. -/
theorem Configured.acknowledge (h : Configured s) (hidle : s.master.Idle) :
    s.acknowledge =
      if s.master.requested 0 then some (32, ⟨s.master.accept 0, s.slave⟩)
      else if s.master.requested 1 then some (33, ⟨s.master.accept 1, s.slave⟩)
      else none := by
  unfold Pics.acknowledge
  rw [h.pending hidle, h.cascaded.1]
  have hzero : s.master.vector 0 = 32 := by unfold Pic.vector; rw [h.offset]; rfl
  have hone : s.master.vector 1 = 33 := by unfold Pic.vector; rw [h.offset]; rfl
  split
  · exact congrArg (fun v => some (v, _)) hzero
  · split
    · exact congrArg (fun v => some (v, _)) hone
    · rfl

/-- The end of the interrupt that is being handled. -/
theorem Serving.sendEoi {vector : BitVec 8} (h : Serving s (some vector)) :
    PicPorts.sendEoi s (vector.toNat - irqBase) =
      ⟨{ s.master with inService := fun _ => false }, s.slave⟩ := by
  obtain ⟨-, i, hline, honly⟩ := h
  have hle : vector.toNat - irqBase ≤ 7 := by rcases hline with ⟨-, rfl⟩ | ⟨-, rfl⟩ <;> decide
  rw [sendEoi_of_le hle, honly.endOfInterrupt]

end PicPorts

/-! ### The dispatcher -/

namespace InterruptState

variable {tier : Tier} {clzZero : ℤ} {s : InterruptState} {ports : KeyboardPorts}
  {frame : InterruptFrame}

/-- **The handler of an interrupt that was accepted.** It is the one of a driver, and then the
interrupt is ended. -/
theorem interruptDispatcher_eq {vector : BitVec 8} (hhalted : s.halted = false)
    (hserving : PicPorts.Serving s.pics (some vector))
    (hframe : frame.vector = vector.setWidth 32) :
    s.interruptDispatcher tier clzZero ports frame =
      { s with
        pics := ⟨{ s.pics.master with inService := fun _ => false }, s.pics.slave⟩
        timer := if vector = 32 then s.timer.handleInterrupt else s.timer
        keyboard := if vector = 33 then s.keyboard.handleInterrupt ports.status ports.scancode
          else s.keyboard } := by
  have heoi := hserving.sendEoi
  obtain ⟨-, i, ⟨-, rfl⟩ | ⟨-, rfl⟩, -⟩ := hserving
  · rw [dispatch_timer hhalted (by rw [hframe]; rfl)]
    exact congrArg (fun pics => InterruptState.mk pics _ _ _ _) heoi
  · rw [dispatch_keyboard hhalted (by rw [hframe]; rfl)]
    exact congrArg (fun pics => InterruptState.mk pics _ _ _ _) heoi

end InterruptState

/-! ### Every run -/

/-- The invariant of the machine that was started with the drivers and the logger of `s₀`. -/
structure DeliveryInv (s₀ : InterruptState) (h : DeliveryHistory) (p : Delivery) : Prop where
  configured : PicPorts.Configured p.state.pics
  serving : PicPorts.Serving p.state.pics p.active
  accepted : acceptedVectors h = endedVectors h ++ p.active.toList
  vectors : ∀ vector ∈ acceptedVectors h, vector = 32 ∨ vector = 33
  requested : ∀ i, p.state.pics.master.requested i = waiting i h
  timer : p.state.timer = Timer.handleInterrupt^[(endedVectors h).count 32] s₀.timer
  keyboard : p.state.keyboard = (keyboardReads h).foldl
    (fun k ports => k.handleInterrupt ports.status ports.scancode) s₀.keyboard
  log : p.state.log = s₀.log
  halted : p.state.halted = false

section Runs

variable {tier : Tier} {clzZero : ℤ} {s₀ : InterruptState} {h : DeliveryHistory} {p : Delivery}

theorem DeliveryInv.init (hidle : s₀.pics.Idle) (hhalted : s₀.halted = false) :
    DeliveryInv s₀ [] ⟨{ s₀ with pics := initializePics s₀.pics }, none⟩ where
  configured := PicPorts.initializePics_configured s₀.pics
  serving := PicPorts.initializePics_serving hidle
  accepted := rfl
  vectors := nofun
  requested i :=
    congrArg (fun pics : Pics => pics.master.requested i) (PicPorts.initializePics_eq s₀.pics)
  timer := rfl
  keyboard := rfl
  log := rfl
  halted := hhalted

/-- A move that shows nothing changes nothing but the controllers. -/
theorem DeliveryInv.silent (hinv : DeliveryInv s₀ h p) (move : DeliveryMove) {pics : Pics}
    (hconfigured : PicPorts.Configured pics) (hserving : PicPorts.Serving pics p.active)
    (hrequested : ∀ i, pics.master.requested i = waiting i (h ++ [(move, .silent)])) :
    DeliveryInv s₀ (h ++ [(move, .silent)]) { p with state := { p.state with pics := pics } } where
  configured := hconfigured
  serving := hserving
  accepted := by
    rw [acceptedVectors_snoc, endedVectors_snoc]
    change acceptedVectors h ++ [] = endedVectors h ++ [] ++ _
    rw [List.append_nil, List.append_nil]
    exact hinv.accepted
  vectors := by
    rw [acceptedVectors_snoc]
    change ∀ vector ∈ acceptedVectors h ++ [], _
    rw [List.append_nil]
    exact hinv.vectors
  requested := hrequested
  timer := by
    rw [endedVectors_snoc]
    change _ = Timer.handleInterrupt^[(endedVectors h ++ []).count 32] _
    rw [List.append_nil]
    exact hinv.timer
  keyboard := by
    have hreads : keyboardReads [(move, .silent)] = [] := by cases move <;> rfl
    rw [keyboardReads_snoc, hreads, List.append_nil]
    exact hinv.keyboard
  log := hinv.log
  halted := hinv.halted

/-- A request is noted by the chip that it is a request to. -/
theorem DeliveryInv.request (hinv : DeliveryInv s₀ h p) (line : Fin 8 ⊕ Fin 8) :
    DeliveryInv s₀ (h ++ [(.request line, .silent)])
      { p with state := { p.state with pics := p.state.pics.request line } } := by
  refine hinv.silent _ ?_ ?_ ?_
  · obtain ⟨hoffset, hcascaded, hmaster, hslave⟩ := hinv.configured
    cases line <;> exact ⟨hoffset, hcascaded, hmaster, hslave⟩
  · cases line <;> exact hinv.serving
  · intro i
    rw [waiting_snoc]
    change _ = (waiting i h || decide (line = .inl i))
    rw [← hinv.requested i]
    cases line with
    | inl j =>
      change Function.update p.state.pics.master.requested j true i = _
      by_cases hij : i = j
      · rw [hij, Function.update_self, decide_eq_true rfl, Bool.or_true]
      · rw [Function.update_of_ne hij,
          decide_eq_false fun heq => hij (Sum.inl.inj heq).symm, Bool.or_false]
    | inr j => exact (Bool.or_false _).symm

/-- An interrupt that is accepted is in service, and no request any more. -/
theorem DeliveryInv.accept (hinv : DeliveryInv s₀ h p) (hactive : p.active = none) {i : Fin 8}
    {vector : BitVec 8} (hline : PicPorts.openLine i vector) :
    DeliveryInv s₀ (h ++ [(.accept, .accepted vector)])
      ⟨{ p.state with
        pics := ⟨p.state.pics.master.accept i, p.state.pics.slave⟩ }, some vector⟩ := by
  have hserving := hinv.serving
  rw [hactive] at hserving
  refine ⟨?_, ⟨hserving.1, i, hline, hserving.2.accept i⟩, ?_, ?_, ?_, ?_, ?_, hinv.log,
    hinv.halted⟩
  -- an acknowledgement touches neither the offsets nor the masks
  · obtain ⟨hoffset, hcascaded, hmaster, hslave⟩ := hinv.configured
    exact ⟨hoffset, hcascaded, hmaster, hslave⟩
  -- nothing was active, so whatever was accepted before has ended
  · have haccepted := hinv.accepted
    rw [hactive, Option.toList_none, List.append_nil] at haccepted
    rw [acceptedVectors_snoc, endedVectors_snoc, haccepted]
    change _ = endedVectors h ++ [] ++ [vector]
    rw [List.append_nil]
    rfl
  · rw [acceptedVectors_snoc]
    intro v hv
    rcases List.mem_append.mp hv with hv | hv
    · exact hinv.vectors v hv
    · obtain rfl := List.mem_singleton.mp hv
      exact hline.imp And.right And.right
  -- only line `i` loses its request
  · intro j
    rw [waiting_snoc]
    change Function.update p.state.pics.master.requested i false j =
      (waiting j h && decide (vector ≠ BitVec.ofNat 8 (irqBase + j)))
    have hvector : vector = BitVec.ofNat 8 (irqBase + j) ↔ j = i := by
      rcases hline with ⟨hi, rfl⟩ | ⟨hi, rfl⟩
      · obtain rfl : i = 0 := Fin.ext hi
        revert j
        decide
      · obtain rfl : i = 1 := Fin.ext hi
        revert j
        decide
    by_cases hij : j = i
    · rw [decide_eq_false (not_not.mpr (hvector.mpr hij)), Bool.and_false, hij,
        Function.update_self]
    · rw [decide_eq_true (mt hvector.mp hij), Bool.and_true, Function.update_of_ne hij,
        hinv.requested j]
  -- no handler has run
  · rw [endedVectors_snoc]
    change _ = Timer.handleInterrupt^[(endedVectors h ++ []).count 32] _
    rw [List.append_nil]
    exact hinv.timer
  · rw [keyboardReads_snoc]
    change _ = (keyboardReads h ++ []).foldl _ _
    rw [List.append_nil]
    exact hinv.keyboard

/-- The handler of the interrupt that was accepted runs to its end. -/
theorem DeliveryInv.dispatch (hinv : DeliveryInv s₀ h p) {vector : BitVec 8}
    (hactive : p.active = some vector) {ports : KeyboardPorts} {frame : InterruptFrame}
    (hframe : frame.vector = vector.setWidth 32) :
    DeliveryInv s₀ (h ++ [(.dispatch ports frame, .ended vector)])
      ⟨p.state.interruptDispatcher tier clzZero ports frame, none⟩ := by
  have hserving := hinv.serving
  rw [hactive] at hserving
  rw [InterruptState.interruptDispatcher_eq hinv.halted hserving hframe]
  refine ⟨?_, ⟨hserving.1, fun _ => rfl⟩, ?_, ?_, ?_, ?_, ?_, hinv.log, hinv.halted⟩
  · obtain ⟨hoffset, hcascaded, hmaster, hslave⟩ := hinv.configured
    exact ⟨hoffset, hcascaded, hmaster, hslave⟩
  -- the active vector is the one accepted last, and it ends now
  · have haccepted := hinv.accepted
    rw [hactive] at haccepted
    rw [acceptedVectors_snoc, endedVectors_snoc, haccepted]
    rfl
  · rw [acceptedVectors_snoc]
    change ∀ v ∈ acceptedVectors h ++ [], _
    rw [List.append_nil]
    exact hinv.vectors
  · intro i
    rw [waiting_snoc]
    exact hinv.requested i
  -- the ticks are advanced for vector 32 alone, the ports are read for vector 33 alone
  · rw [endedVectors_snoc, List.count_append]
    change (if vector = 32 then p.state.timer.handleInterrupt else p.state.timer) =
      Timer.handleInterrupt^[_ + [vector].count 32] _
    rw [List.count_singleton, hinv.timer]
    by_cases hvector : vector = 32
    · rw [if_pos hvector, if_pos (beq_iff_eq.mpr hvector), Function.iterate_succ_apply']
    · rw [if_neg hvector, if_neg (mt beq_iff_eq.mp hvector), Nat.add_zero]
  · rw [keyboardReads_snoc, List.foldl_append, ← hinv.keyboard]
    change (if vector = 33 then _ else p.state.keyboard) = _
    unfold keyboardReads
    by_cases hvector : vector = 33
    · have hread : keyboardRead (.dispatch ports frame, .ended vector) = some ports :=
        if_pos hvector
      rw [if_pos hvector, List.filterMap_cons_some hread]
      rfl
    · have hread : keyboardRead (.dispatch ports frame, .ended vector) = none := if_neg hvector
      rw [if_neg hvector, List.filterMap_cons_none hread]
      rfl

theorem deliveryInv_of_run (hidle : s₀.pics.Idle) (hhalted : s₀.halted = false)
    (hrun : (deliveryMachine tier clzZero).Run
      ⟨{ s₀ with pics := initializePics s₀.pics }, none⟩ h p) : DeliveryInv s₀ h p := by
  refine hrun.invariant (P := DeliveryInv s₀) (DeliveryInv.init hidle hhalted) ?_
  intro h p move hinv hen
  cases move with
  | request line => exact hinv.request line
  | accept =>
    -- the master gives the timer if it is requested, else the keyboard, else nothing
    have hserving := hinv.serving
    rw [hen.1] at hserving
    have hacknowledge := hinv.configured.acknowledge hserving.2
    change DeliveryInv s₀ (h ++ [(.accept, (p.step tier clzZero .accept).1)])
      (p.step tier clzZero .accept).2
    unfold Delivery.step
    simp only [hacknowledge]
    by_cases hzero : p.state.pics.master.requested 0 = true
    · simp only [hzero, if_true]
      exact hinv.accept hen.1 (.inl ⟨rfl, rfl⟩)
    · by_cases hone : p.state.pics.master.requested 1 = true
      · simp only [hzero, hone, if_true]
        exact hinv.accept hen.1 (.inr ⟨rfl, rfl⟩)
      · simp only [hzero, hone]
        refine hinv.silent _ hinv.configured hinv.serving fun i => ?_
        rw [waiting_snoc]
        exact hinv.requested i
  | dispatch ports frame =>
    obtain ⟨vector, hactive, hframe⟩ := Option.map_eq_some_iff.mp hen
    change DeliveryInv s₀ (h ++ [(.dispatch ports frame, (p.step tier clzZero _).1)])
      (p.step tier clzZero _).2
    unfold Delivery.step
    simp only [hactive]
    exact hinv.dispatch hactive hframe.symm

/-- **The delivery of interrupts**, along every run from `initialize_exceptions` on.

* What is accepted is handled, one after the other.
* While nothing is handled both controllers have nothing in service, and the processor gets the
  timer or else the keyboard as soon as it has been requested.
* The timer counts its interrupts, the keyboard decodes what its handler read, and nothing is
  printed. -/
theorem interrupts_delivered (hidle : s₀.pics.Idle) (hhalted : s₀.halted = false)
    (hrun : (deliveryMachine tier clzZero).Run
      ⟨{ s₀ with pics := initializePics s₀.pics }, none⟩ h p) :
    acceptedVectors h = endedVectors h ++ p.active.toList ∧
      (∀ vector ∈ acceptedVectors h, vector = 32 ∨ vector = 33) ∧
      (p.active = none → p.state.pics.Idle ∧
        p.state.pics.acknowledge.map Prod.fst =
          if waiting 0 h then some 32 else if waiting 1 h then some 33 else none) ∧
      p.state.timer = Timer.handleInterrupt^[(endedVectors h).count 32] s₀.timer ∧
      p.state.keyboard = (keyboardReads h).foldl
        (fun k ports => k.handleInterrupt ports.status ports.scancode) s₀.keyboard ∧
      p.state.log = s₀.log ∧ p.state.halted = false := by
  have hinv := deliveryInv_of_run hidle hhalted hrun
  refine ⟨hinv.accepted, hinv.vectors, ?_, hinv.timer, hinv.keyboard, hinv.log, hinv.halted⟩
  intro hactive
  have hserving := hinv.serving
  rw [hactive] at hserving
  refine ⟨⟨hserving.2, hserving.1⟩, ?_⟩
  -- what waits is requested, and the timer comes before the keyboard
  rw [hinv.configured.acknowledge hserving.2, hinv.requested, hinv.requested]
  cases waiting 0 h <;> cases waiting 1 h <;> rfl

end Runs

/-- The controllers as the firmware of a PC leaves them, and the drivers as they start. -/
def InterruptState.boot : InterruptState where
  pics := ⟨⟨[], 0x08, 0x04, 0x01, 0xB8, fun _ => false, fun _ => false⟩,
    ⟨[], 0x70, 0x02, 0x01, 0x8E, fun _ => false, fun _ => false⟩⟩
  timer := ⟨0, 100⟩
  keyboard := .init
  log := .init
  halted := false

instance (tier : Tier) (clzZero : ℤ) (p : Delivery) (move : DeliveryMove) :
    Decidable ((deliveryMachine tier clzZero).enabled p move) :=
  match move with
  | .request line => inferInstanceAs (Decidable (line ≠ .inl Pics.cascadeLine))
  | .accept => inferInstanceAs (Decidable (p.active = none ∧ p.state.halted = false))
  | .dispatch _ frame =>
    inferInstanceAs (Decidable (p.active.map (·.setWidth 32) = some frame.vector))

/-- The frame of a vector, of an interrupt at zero. -/
def bareFrame (vector : BitVec 32) : InterruptFrame :=
  ⟨0, 0, 0, 0, 0, 0, 0, 0, vector, 0, 0, 8, 0x202⟩

/-- A key and then a tick, and another key while the tick is handled: the tick is first, and
both requests of the keyboard are one. -/
theorem interrupts_delivered_moves :
    let moves : List DeliveryMove :=
      [.request (.inl 1), .request (.inl 0), .request (.inr 3), .accept, .request (.inl 1),
        .dispatch ⟨0, 0⟩ (bareFrame 32), .accept, .dispatch ⟨1, 0x1E⟩ (bareFrame 33), .accept]
    let r := (deliveryMachine .gpr 0).exec
      ⟨{ InterruptState.boot with pics := initializePics InterruptState.boot.pics }, none⟩ moves
    acceptedVectors r.1 = [32, 33] ∧ r.2.active = none ∧ r.2.state.pics.Idle := by
  intro moves r
  have henabled : (deliveryMachine .gpr 0).EnabledAlong
      ⟨{ InterruptState.boot with pics := initializePics InterruptState.boot.pics }, none⟩
      moves := by
    decide +kernel
  obtain ⟨-, -, hidle, -⟩ := interrupts_delivered
    (show InterruptState.boot.pics.Idle from ⟨fun _ => rfl, fun _ => rfl⟩) rfl
    henabled.run
  have hactive : r.2.active = none := by decide +kernel
  exact ⟨by decide +kernel, hactive, (hidle hactive).1⟩

end BareMetal
