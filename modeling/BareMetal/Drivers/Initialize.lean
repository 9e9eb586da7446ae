import BareMetal.Drivers.Keyboard
import BareMetal.Framework.Ps2
import BareMetal.Kernel.Logger

/-!
# The initialization of the keyboard

`initialize_keyboard` reads away what waits in the output buffer of the controller, and sends
two bytes: the command that sets the LEDs, and the byte that says that all are off. The keyboard
acknowledges each. All waits are bounded; if one is in vain, or if something else than an
acknowledgement comes, there is a warning.

Whatever the device answers, each access to the data port is one that the status read right before
allows, the second byte is sent only if the first was acknowledged, and there is a warning exactly
if not both were (`keyboard_handshake`).
-/

namespace BareMetal

open Framework

namespace KeyboardSetup

def inputBufferFull : BitVec 8 := 0x02
def keyboardTimeout : ℕ := 100000
def keyboardAck : BitVec 8 := 0xFA
def setLedsCommand : BitVec 8 := 0xED
def allLedsOff : BitVec 8 := 0x00

/-- The data port may be written to. -/
def inputBufferClear (status : BitVec 8) : Bool := status &&& inputBufferFull = 0

/-- The data port may be read. -/
def outputBufferReady (status : BitVec 8) : Bool := status &&& outputBufferFull ≠ 0

section Device

-- the status register is at `status_port`, the data register at `data_port`, and a pause is an
-- `io_wait`
variable {D : Type} (dev : PolledDevice D)

/-- `wait_input_buffer_clear`. -/
def waitInputBufferClear (d : D) : Polled D := waitStatus dev inputBufferClear keyboardTimeout d

/-- `wait_output_buffer_full`. -/
def waitOutputBufferFull (d : D) : Polled D := waitStatus dev outputBufferReady keyboardTimeout d

/-- `read_keyboard_ack`. -/
def readKeyboardAck (d : D) : Polled D :=
  (waitOutputBufferFull dev d).andThen fun d =>
    let r := dev.readData d
    ⟨r.1 = keyboardAck, [.read r.1], r.2⟩

/-- `send_keyboard_byte_and_wait_ack`. -/
def sendKeyboardByteAndWaitAck (byte : BitVec 8) (d : D) : Polled D :=
  (waitInputBufferClear dev d).andThen fun d =>
    (readKeyboardAck dev (dev.writeData byte d)).after [.write byte]

/-- The loop of `flush_keyboard_output_buffer`. -/
def flushLoop : (attempts : ℕ) → D → Polled D
  | 0, d => ⟨true, [], d⟩
  | attempts + 1, d =>
    let r := dev.readStatus d
    if r.1 &&& outputBufferFull = 0 then ⟨true, [.status r.1], r.2⟩
    else
      let r' := dev.readData r.2
      (flushLoop attempts (dev.wait r'.2)).after [.status r.1, .read r'.1, .wait]

/-- `flush_keyboard_output_buffer`. -/
def flushKeyboardOutputBuffer (d : D) : Polled D := flushLoop dev keyboardTimeout d

end Device
end KeyboardSetup

/-- What `initialize_keyboard` works on, with the accesses so far. -/
structure KeyboardSetup (D : Type) where
  keyboard : Keyboard
  screen : Vga
  device : D
  trace : List PortAccess

namespace KeyboardSetup

variable {D : Type} (tier : Tier) (clzZero : ℤ) (dev : PolledDevice D)

/-- `log.warning() << message`, of a new `log`. -/
def warn (screen : Vga) (message : List (BitVec 8)) : Vga :=
  (Output.print tier clzZero (Logger.warning tier clzZero { Output.init with buffer := screen })
    (.string message)).buffer

/-- `initialize_keyboard`. -/
def initializeKeyboard (s : KeyboardSetup D) : KeyboardSetup D :=
  let flushed := flushKeyboardOutputBuffer dev s.device
  let sent := (sendKeyboardByteAndWaitAck dev setLedsCommand flushed.device).andThen
    (sendKeyboardByteAndWaitAck dev allLedsOff)
  { keyboard := { s.keyboard with modifierState := 0 }
    screen := if sent.ok then s.screen
      else warn tier clzZero s.screen (ascii "Failed to initialize Keyboard\n")
    device := sent.device
    trace := s.trace ++ flushed.trace ++ sent.trace }

/-! ### Any device -/

/-- The exchange of some bytes: each one is sent when the one before it was acknowledged. -/
inductive Exchange : (bytes : List (BitVec 8)) → (ok : Bool) → List PortAccess → Prop
  | done : Exchange [] true []
  | unsent {b bytes} : Exchange (b :: bytes) false []
  | unanswered {b bytes} : Exchange (b :: bytes) false [.write b]
  | refused {b bytes} {x : BitVec 8} (h : x ≠ keyboardAck) :
      Exchange (b :: bytes) false [.write b, .read x]
  | acknowledged {b bytes ok t} : Exchange bytes ok t →
      Exchange (b :: bytes) ok (.write b :: .read keyboardAck :: t)

theorem waitStatus_length_le (ready : BitVec 8 → Bool) (d : D) :
    (waitStatus dev ready keyboardTimeout d).trace.length ≤ 2 * keyboardTimeout :=
  (waitStatus_spec dev ready keyboardTimeout d).1

theorem waitStatus_quiet (ready : BitVec 8 → Bool) (d : D) :
    Quiet (waitStatus dev ready keyboardTimeout d).trace :=
  (waitStatus_spec dev ready keyboardTimeout d).2.1

/-- Quiet traces are guarded. -/
theorem guarded_of_quiet {t : List PortAccess} (h : Quiet t) :
    Guarded outputBufferReady inputBufferClear t := by
  rw [← List.append_nil t]
  exact h.guarded .nil

/-- What comes after a byte was written. -/
structure Answered (r : Polled D) : Prop where
  guarded : Guarded outputBufferReady inputBufferClear r.trace
  length_le : r.trace.length ≤ 2 * keyboardTimeout + 1
  acknowledged : r.ok = true → dataAccesses r.trace = [.read keyboardAck]
  failed : r.ok = false →
    dataAccesses r.trace = [] ∨ ∃ x, x ≠ keyboardAck ∧ dataAccesses r.trace = [.read x]

theorem readKeyboardAck_answered (d : D) : Answered (readKeyboardAck dev d) := by
  have hlength := waitStatus_length_le dev outputBufferReady d
  have hquiet := waitStatus_quiet dev outputBufferReady d
  unfold readKeyboardAck
  cases hfull : (waitOutputBufferFull dev d).ok with
  | false =>
    rw [Polled.andThen_of_failed hfull]
    refine ⟨guarded_of_quiet hquiet, Nat.le_succ_of_le hlength, fun hok => ?_,
      fun _ => .inl hquiet.dataAccesses_eq⟩
    exact Bool.noConfusion (hfull.symm.trans hok)
  | true =>
    rw [Polled.andThen_of_ok hfull]
    -- the byte that is read
    generalize dev.readData (waitOutputBufferFull dev d).device = answer
    have hdata : dataAccesses ((waitOutputBufferFull dev d).trace ++ [.read answer.1])
        = [.read answer.1] := by
      rw [dataAccesses_append, waitOutputBufferFull, hquiet.dataAccesses_eq]
      rfl
    refine ⟨waitStatus_read hfull answer.1 .nil, ?_, fun hok => ?_, fun hok => .inr ?_⟩
    · rw [Polled.length_after]
      exact Nat.succ_le_succ hlength
    · rw [Polled.after, hdata, of_decide_eq_true hok]
    · exact ⟨answer.1, of_decide_eq_false hok, hdata⟩

/-- A byte was sent, or not. -/
structure Sent (byte : BitVec 8) (r : Polled D) : Prop where
  guarded : Guarded outputBufferReady inputBufferClear r.trace
  length_le : r.trace.length ≤ 4 * keyboardTimeout + 2
  acknowledged : r.ok = true → dataAccesses r.trace = [.write byte, .read keyboardAck]
  failed : r.ok = false → ∀ bytes, Exchange (byte :: bytes) false (dataAccesses r.trace)

theorem sendKeyboardByteAndWaitAck_sent (byte : BitVec 8) (d : D) :
    Sent byte (sendKeyboardByteAndWaitAck dev byte d) := by
  have hlength := waitStatus_length_le dev inputBufferClear d
  have hquiet := waitStatus_quiet dev inputBufferClear d
  unfold sendKeyboardByteAndWaitAck
  cases hclear : (waitInputBufferClear dev d).ok with
  | false =>
    rw [Polled.andThen_of_failed hclear]
    refine ⟨guarded_of_quiet hquiet, hlength.trans (by decide), fun hok => ?_, fun _ bytes => ?_⟩
    · exact Bool.noConfusion (hclear.symm.trans hok)
    · rw [waitInputBufferClear, hquiet.dataAccesses_eq]
      exact .unsent
  | true =>
    rw [Polled.andThen_of_ok hclear]
    have hanswered := readKeyboardAck_answered dev
      (dev.writeData byte (waitInputBufferClear dev d).device)
    generalize readKeyboardAck dev _ = r at hanswered
    -- of all the accesses the write is the first one to the data port
    have hdata : dataAccesses ((waitInputBufferClear dev d).trace ++ .write byte :: r.trace)
        = .write byte :: dataAccesses r.trace := by
      rw [dataAccesses_append, waitInputBufferClear, hquiet.dataAccesses_eq]
      rfl
    refine ⟨waitStatus_write hclear byte hanswered.guarded, ?_, fun hok => ?_,
      fun hok bytes => ?_⟩
    · calc ((waitInputBufferClear dev d).trace ++ .write byte :: r.trace).length
          = (waitInputBufferClear dev d).trace.length + (r.trace.length + 1) := by
            rw [List.length_append, List.length_cons]
        _ ≤ 2 * keyboardTimeout + (2 * keyboardTimeout + 1 + 1) :=
            Nat.add_le_add hlength (Nat.succ_le_succ hanswered.length_le)
        _ = 4 * keyboardTimeout + 2 := by omega
    · exact hdata.trans (congrArg (.write byte :: ·) (hanswered.acknowledged hok))
    · change Exchange _ _ (dataAccesses (_ ++ .write byte :: r.trace))
      rw [hdata]
      -- no answer, or another one than the acknowledgement
      rcases hanswered.failed hok with hnone | ⟨x, hx, hread⟩
      · rw [hnone]
        exact .unanswered
      · rw [hread]
        exact .refused hx

/-- A trace whose data accesses are those of an exchange, with a bound for its length. -/
structure Exchanges (bytes : List (BitVec 8)) (bound : ℕ) (r : Polled D) : Prop where
  guarded : Guarded outputBufferReady inputBufferClear r.trace
  length_le : r.trace.length ≤ bound
  exchange : Exchange bytes r.ok (dataAccesses r.trace)

/-- **One byte more** in front. -/
theorem Sent.exchanges {byte : BitVec 8} {bytes : List (BitVec 8)} {bound : ℕ} {r : Polled D}
    {next : D → Polled D} (h : Sent byte r) (hnext : ∀ d, Exchanges bytes bound (next d)) :
    Exchanges (byte :: bytes) (4 * keyboardTimeout + 2 + bound) (r.andThen next) := by
  cases hok : r.ok with
  | false =>
    rw [Polled.andThen_of_failed hok]
    refine ⟨h.guarded, Nat.le_add_right_of_le h.length_le, ?_⟩
    rw [hok]
    exact h.failed hok bytes
  | true =>
    rw [Polled.andThen_of_ok hok]
    obtain ⟨hguarded, hlength, hexchange⟩ := hnext r.device
    refine ⟨h.guarded.append hguarded, ?_, ?_⟩
    · rw [Polled.length_after]
      exact Nat.add_le_add h.length_le hlength
    · rw [Polled.after, dataAccesses_append, h.acknowledged hok]
      exact .acknowledged hexchange

/-- **The flush** reads bytes as long as the status says so. -/
theorem flushLoop_spec (attempts : ℕ) (d : D) :
    Guarded outputBufferReady inputBufferClear (flushLoop dev attempts d).trace ∧
      (flushLoop dev attempts d).trace.length ≤ 3 * attempts ∧
      ∃ stale : List (BitVec 8),
        dataAccesses (flushLoop dev attempts d).trace = stale.map PortAccess.read := by
  -- on the attempts: a byte takes a status, a read and a pause
  induction attempts generalizing d with
  | zero => exact ⟨.nil, Nat.le_refl 0, [], rfl⟩
  | succ attempts ih =>
    by_cases hempty : (dev.readStatus d).1 &&& outputBufferFull = 0
    · have heq : flushLoop dev (attempts + 1) d
          = ⟨true, [.status (dev.readStatus d).1], (dev.readStatus d).2⟩ := if_pos hempty
      rw [heq]
      refine ⟨.status _ .nil, ?_, [], rfl⟩
      change 1 ≤ 3 * (attempts + 1)
      omega
    · have heq : flushLoop dev (attempts + 1) d
          = (flushLoop dev attempts (dev.wait (dev.readData (dev.readStatus d).2).2)).after
              [.status (dev.readStatus d).1, .read (dev.readData (dev.readStatus d).2).1, .wait] :=
        if_neg hempty
      obtain ⟨hguarded, hlength, stale, hstale⟩ :=
        ih (dev.wait (dev.readData (dev.readStatus d).2).2)
      rw [heq]
      refine ⟨.read _ (decide_eq_true hempty) (.wait hguarded), ?_,
        (dev.readData (dev.readStatus d).2).1 :: stale, ?_⟩
      · calc ((flushLoop dev attempts (dev.wait (dev.readData (dev.readStatus d).2).2)).after
                _).trace.length
            = 3 + _ := Polled.length_after _ _
          _ ≤ 3 + 3 * attempts := Nat.add_le_add_left hlength 3
          _ = 3 * (attempts + 1) := Nat.add_comm 3 (3 * attempts)
      · rw [Polled.after, dataAccesses_append, hstale]
        rfl

/-- **The handshake**, with any device. Each access to the data port comes right after a status that
allows it, and there are not more than so many accesses. After bytes that were read away the two
bytes are sent, the second one only if the first was acknowledged; and there is a warning if
not both were. -/
theorem keyboard_handshake (s : KeyboardSetup D) :
    let s' := initializeKeyboard tier clzZero dev s
    s'.keyboard = { s.keyboard with modifierState := 0 } ∧
      ∃ (trace : List PortAccess) (stale : List (BitVec 8)) (exchange : List PortAccess)
          (ok : Bool),
        s'.trace = s.trace ++ trace ∧
        Guarded outputBufferReady inputBufferClear trace ∧
        trace.length ≤ 11 * keyboardTimeout + 4 ∧
        dataAccesses trace = stale.map PortAccess.read ++ exchange ∧
        Exchange [setLedsCommand, allLedsOff] ok exchange ∧
        s'.screen = if ok then s.screen
          else warn tier clzZero s.screen (ascii "Failed to initialize Keyboard\n") := by
  obtain ⟨hflushed, hflushedLength, stale, hstale⟩ :=
    flushLoop_spec dev keyboardTimeout s.device
  -- nothing is left to be sent after the second byte
  have hlast : ∀ d, Exchanges [allLedsOff] (4 * keyboardTimeout + 2)
      (sendKeyboardByteAndWaitAck dev allLedsOff d) := by
    intro d
    have hsent := sendKeyboardByteAndWaitAck_sent dev allLedsOff d
    refine ⟨hsent.guarded, hsent.length_le, ?_⟩
    cases hok : (sendKeyboardByteAndWaitAck dev allLedsOff d).ok with
    | false => exact hsent.failed hok []
    | true =>
      rw [hsent.acknowledged hok]
      exact .acknowledged .done
  obtain ⟨hguarded, hlength, hexchange⟩ := (sendKeyboardByteAndWaitAck_sent dev setLedsCommand
    (flushKeyboardOutputBuffer dev s.device).device).exchanges hlast
  refine ⟨rfl, _, stale, _, _, List.append_assoc .., hflushed.append hguarded, ?_, ?_, hexchange,
    rfl⟩
  · calc (_ ++ _ : List PortAccess).length
        = (flushLoop dev keyboardTimeout s.device).trace.length + _ := List.length_append
      _ ≤ 3 * keyboardTimeout + (4 * keyboardTimeout + 2 + (4 * keyboardTimeout + 2)) :=
        Nat.add_le_add hflushedLength hlength
      _ = 11 * keyboardTimeout + 4 := by omega
  · rw [dataAccesses_append]
    exact congrArg (· ++ _) hstale

/-! ### A keyboard -/

section Ps2

variable {lag delay : ℕ} {p : Ps2}

theorem flushLoop_device (hreply : p.reply = none) {attempts : ℕ}
    (houtput : p.output.length < attempts) :
    (flushLoop (Ps2.device lag delay) attempts p).device
      = { p with output := [], busy := p.busy - (p.output.length + 1) } := by
  -- on the attempts; with no answer to come there is a byte as long as the list is not empty
  induction attempts generalizing p with
  | zero => exact absurd houtput (Nat.not_lt_zero _)
  | succ attempts ih =>
    have htick : p.tick = { p with busy := p.busy - 1 } := by
      rw [Ps2.tick, hreply]
      rfl
    have hfull : p.outputFull = !p.output.isEmpty := by
      rw [Ps2.outputFull, hreply]
      exact Bool.or_false _
    cases hp : p.output with
    | nil =>
      rw [hp] at hfull
      have hempty : p.status &&& outputBufferFull = 0 := p.status_and.1.mpr hfull
      refine (congrArg Polled.device (if_pos hempty)).trans (htick.trans ?_)
      rw [hp]
      rfl
    | cons x output =>
      rw [hp] at hfull houtput
      have hbyte : ¬ p.status &&& outputBufferFull = 0 := fun h =>
        Bool.noConfusion (hfull.symm.trans (p.status_and.1.mp h))
      have hread : (Ps2.readData p.tick).2 = { p with output := output, busy := p.busy - 1 } := by
        rw [htick, Ps2.readData]
        simp only [hp]
      refine (congrArg Polled.device (if_neg hbyte)).trans ?_
      change (flushLoop _ attempts (Ps2.readData p.tick).2).device = _
      rw [hread, @ih { p with output := output, busy := p.busy - 1 } hreply
        (Nat.lt_of_succ_lt_succ houtput), List.length_cons]
      refine congrArg (fun busy => Ps2.mk [] p.reply busy p.argument p.leds) ?_
      change p.busy - 1 - (output.length + 1) = _
      omega

/-- A byte that the keyboard acknowledges. -/
theorem send_device (hreply : p.reply = none) (hbusy : p.busy < keyboardTimeout)
    (hdelay : delay < keyboardTimeout) {byte : BitVec 8} {q : Ps2}
    (hq : Ps2.writeData lag delay byte { p with busy := 0 } = q) (houtput : q.output = [])
    (hanswer : q.reply = some (delay, keyboardAck)) :
    (sendKeyboardByteAndWaitAck (Ps2.device lag delay) byte p).ok = true ∧
      (sendKeyboardByteAndWaitAck (Ps2.device lag delay) byte p).device
        = { q with busy := q.busy - (delay + 1), reply := none } := by
  have hclear : ∀ p : Ps2, inputBufferClear p.status = decide (p.busy = 0) :=
    fun p => decide_eq_decide.mpr p.status_and.2
  have hready : ∀ p : Ps2, outputBufferReady p.status = p.outputFull := by
    intro p
    cases hfull : p.outputFull with
    | false => exact decide_eq_false fun h => h (p.status_and.1.mpr hfull)
    | true =>
      exact decide_eq_true fun h => Bool.noConfusion (hfull.symm.trans (p.status_and.1.mp h))
  obtain ⟨hok, hdevice⟩ := @Ps2.waitStatus_clear lag delay _ _ _ hclear hreply hbusy
  obtain ⟨hok', hdevice'⟩ :=
    @Ps2.waitStatus_answer lag delay _ _ _ hready houtput _ _ hanswer hdelay
  have hread : Ps2.readData { q with busy := q.busy - (delay + 1), reply := some (0, keyboardAck) }
      = (keyboardAck, { q with busy := q.busy - (delay + 1), reply := none }) := by
    rw [Ps2.readData]
    simp only [houtput]
  -- the byte, the wait for the answer, and the answer
  obtain ⟨hsent, hsentDevice⟩ := Polled.andThen_ok hok hdevice fun d =>
    (readKeyboardAck (Ps2.device lag delay) (Ps2.writeData lag delay byte d)).after [.write byte]
  obtain ⟨hack, hackDevice⟩ := Polled.andThen_ok hok' hdevice' fun d =>
    (⟨(Ps2.readData d).1 = keyboardAck, [.read (Ps2.readData d).1], (Ps2.readData d).2⟩ :
      Polled Ps2)
  rw [hq] at hsent hsentDevice
  rw [hread] at hack hackDevice
  exact ⟨hsent.trans hack, hsentDevice.trans hackDevice⟩

/-- **A keyboard is initialized.** If no more bytes wait than are read away, and the keyboard takes
and answers each byte before the wait for it ends, then its LEDs are off, it has nothing more to
say, and there is no warning. -/
theorem keyboard_initialized {s : KeyboardSetup Ps2} (hreply : s.device.reply = none)
    (hargument : s.device.argument = false) (houtput : s.device.output.length < keyboardTimeout)
    (hbusy : s.device.busy < keyboardTimeout) (hlag : lag < keyboardTimeout)
    (hdelay : delay < keyboardTimeout) :
    let s' := initializeKeyboard tier clzZero (Ps2.device lag delay) s
    s'.screen = s.screen ∧ s'.device.leds = 0 ∧ s'.device.output = [] ∧
      s'.device.reply = none ∧ s'.device.argument = false := by
  let p₀ : Ps2 :=
    { s.device with output := [], busy := s.device.busy - (s.device.output.length + 1) }
  let q₁ : Ps2 := { p₀ with busy := lag, argument := true, reply := some (delay, keyboardAck) }
  let p₁ : Ps2 := { q₁ with busy := lag - (delay + 1), reply := none }
  let q₂ : Ps2 := { p₁ with
    busy := lag, argument := false, leds := 0, reply := some (delay, keyboardAck) }
  have hflushed : (flushKeyboardOutputBuffer (Ps2.device lag delay) s.device).device = p₀ :=
    flushLoop_device hreply houtput
  -- the command
  have hq₁ : Ps2.writeData lag delay setLedsCommand { p₀ with busy := 0 } = q₁ := by
    refine (if_neg ?_).trans (if_pos rfl)
    rw [hargument]
    exact Bool.false_ne_true
  have hbusy₀ : p₀.busy < keyboardTimeout := Nat.lt_of_le_of_lt (Nat.sub_le ..) hbusy
  obtain ⟨hfirst, hfirstDevice⟩ := send_device (p := p₀) hreply hbusy₀ hdelay hq₁ rfl rfl
  -- its argument
  have hq₂ : Ps2.writeData lag delay allLedsOff { p₁ with busy := 0 } = q₂ := if_pos rfl
  have hbusy₁ : p₁.busy < keyboardTimeout := Nat.lt_of_le_of_lt (Nat.sub_le ..) hlag
  obtain ⟨hsecond, hsecondDevice⟩ := send_device (p := p₁) rfl hbusy₁ hdelay hq₂ rfl rfl
  rw [← hflushed] at hfirst hfirstDevice
  obtain ⟨hok, hdevice⟩ := Polled.andThen_ok hfirst hfirstDevice
    (sendKeyboardByteAndWaitAck (Ps2.device lag delay) allLedsOff)
  have hlast := hdevice.trans hsecondDevice
  refine ⟨if_pos (hok.trans hsecond), ?_, ?_, ?_, ?_⟩
  · exact (congrArg Ps2.leds hlast :)
  · exact (congrArg Ps2.output hlast :)
  · exact (congrArg Ps2.reply hlast :)
  · exact (congrArg Ps2.argument hlast :)

/-- A key was pressed and released before, and the LED of the lock of numbers is on. -/
def keyPressed : KeyboardSetup Ps2 where
  keyboard := Keyboard.init
  screen := Output.init.buffer
  device := { output := [0x1C, 0x9C], reply := none, busy := 1, argument := false, leds := 0x02 }
  trace := []

theorem keyboard_initialized_keyPressed :
    let s' := initializeKeyboard .simd 0 (Ps2.device 3 5) keyPressed
    s'.screen = keyPressed.screen ∧ s'.device.leds = 0 ∧ s'.device.output = [] ∧
      s'.device.reply = none ∧ s'.device.argument = false :=
  keyboard_initialized .simd 0 rfl rfl (by decide) (by decide) (by decide) (by decide)

end Ps2
end KeyboardSetup
end BareMetal
