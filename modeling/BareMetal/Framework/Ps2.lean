import BareMetal.Framework.Polling

/-!
# The keyboard controller

A controller with a keyboard behind it. Bytes that the keyboard has sent wait in the output
buffer. A byte that is written to the data register takes some time to get to the keyboard, until
when the input buffer is full; the keyboard answers after some time, with an acknowledgement to
the command that sets the LEDs and to its argument. Time passes with each status that is read.
-/

namespace Framework

/-- The controller and the keyboard. -/
structure Ps2 where
  /-- What the keyboard has sent before. -/
  output : List (BitVec 8)
  /-- The answer, and how many times the status is read until it is there. -/
  reply : Option (ℕ × BitVec 8)
  /-- How many times the status is read until the input buffer is clear. -/
  busy : ℕ
  /-- The next byte is the argument of the command that sets the LEDs. -/
  argument : Bool
  leds : BitVec 8

namespace Ps2

/-- There is a byte to be read. -/
def outputFull (p : Ps2) : Bool :=
  !p.output.isEmpty || p.reply.any fun reply => reply.1 == 0

def status (p : Ps2) : BitVec 8 :=
  (if p.outputFull then 0x01 else 0) ||| (if p.busy = 0 then 0 else 0x02)

/-- Time passes. -/
def tick (p : Ps2) : Ps2 :=
  { p with busy := p.busy - 1, reply := p.reply.map fun reply => (reply.1 - 1, reply.2) }

/-- The byte that is read; without one it is some byte. -/
def readData (p : Ps2) : BitVec 8 × Ps2 :=
  match p.output, p.reply with
  | x :: output, _ => (x, { p with output := output })
  | [], some (0, x) => (x, { p with reply := none })
  | [], _ => (0, p)

variable (lag delay : ℕ)

/-- A byte for the keyboard, which answers that it does not know a command other than `0xED`. -/
def writeData (x : BitVec 8) (p : Ps2) : Ps2 :=
  if p.argument then
    { p with busy := lag, argument := false, leds := x, reply := some (delay, 0xFA) }
  else if x = 0xED then { p with busy := lag, argument := true, reply := some (delay, 0xFA) }
  else { p with busy := lag, reply := some (delay, 0xFE) }

/-- The device, where a byte takes `lag` to the keyboard and its answer `delay`. -/
def device : PolledDevice Ps2 where
  readStatus p := (p.status, p.tick)
  readData := readData
  writeData := writeData lag delay
  wait p := p

/-- The two bits of the status. -/
theorem status_and (p : Ps2) :
    (p.status &&& 0x01 = 0 ↔ p.outputFull = false) ∧ (p.status &&& 0x02 = 0 ↔ p.busy = 0) := by
  unfold status
  by_cases hbusy : p.busy = 0 <;> cases p.outputFull <;> simp [hbusy]

variable {lag delay} {p : Ps2} {attempts : ℕ} {ready : BitVec 8 → Bool}

/-- **The input buffer gets clear.** -/
theorem waitStatus_clear (hready : ∀ p : Ps2, ready p.status = decide (p.busy = 0))
    (hreply : p.reply = none) (hbusy : p.busy < attempts) :
    (waitStatus (device lag delay) ready attempts p).ok = true ∧
      (waitStatus (device lag delay) ready attempts p).device = { p with busy := 0 } := by
  induction attempts generalizing p with
  | zero => exact absurd hbusy (Nat.not_lt_zero _)
  | succ attempts ih =>
    have htick : p.tick = { p with busy := p.busy - 1 } := by
      rw [tick, hreply]
      rfl
    by_cases hzero : p.busy = 0
    · have h : ready p.status = true := (hready p).trans (decide_eq_true hzero)
      rw [@waitStatus_of_ready _ (device lag delay) _ _ h]
      refine ⟨rfl, htick.trans ?_⟩
      rw [hzero]
    · have h : ready p.status = false := (hready p).trans (decide_eq_false hzero)
      rw [@waitStatus_of_busy _ (device lag delay) _ _ h]
      change (waitStatus _ _ _ p.tick).ok = true ∧ (waitStatus _ _ _ p.tick).device = _
      rw [htick]
      exact @ih { p with busy := p.busy - 1 } hreply (by change p.busy - 1 < attempts; omega)

/-- **The answer comes.** -/
theorem waitStatus_answer (hready : ∀ p : Ps2, ready p.status = p.outputFull)
    (houtput : p.output = []) {n : ℕ} {x : BitVec 8} (hreply : p.reply = some (n, x))
    (hn : n < attempts) :
    (waitStatus (device lag delay) ready attempts p).ok = true ∧
      (waitStatus (device lag delay) ready attempts p).device
        = { p with busy := p.busy - (n + 1), reply := some (0, x) } := by
  induction attempts generalizing p n with
  | zero => exact absurd hn (Nat.not_lt_zero _)
  | succ attempts ih =>
    have htick : p.tick = { p with busy := p.busy - 1, reply := some (n - 1, x) } := by
      rw [tick, hreply]
      rfl
    have hfull : ready p.status = (n == 0) := by
      rw [hready, outputFull, houtput, hreply]
      rfl
    cases n with
    | zero =>
      rw [@waitStatus_of_ready _ (device lag delay) _ _ (hfull.trans rfl)]
      exact ⟨rfl, htick⟩
    | succ n =>
      rw [@waitStatus_of_busy _ (device lag delay) _ _ (hfull.trans rfl)]
      change (waitStatus _ _ _ p.tick).ok = true ∧ (waitStatus _ _ _ p.tick).device = _
      rw [htick]
      obtain ⟨hok, hdevice⟩ := @ih { p with busy := p.busy - 1, reply := some (n, x) } houtput n rfl
        (Nat.lt_of_succ_lt_succ hn)
      refine ⟨hok, hdevice.trans ?_⟩
      rw [Nat.sub_sub, Nat.add_comm 1]

end Ps2
end Framework
