import BareMetal.Framework.Pit8254
import BareMetal.Kernel.Logger
import BareMetal.Kernel.Sleep
import BareMetal.Tools.Stopwatch
import Mathlib.Tactic.GCongr
import Mathlib.Tactic.Ring

/-!
# The interval timer

`initialize_pit` programs the counter behind the timer interrupt with the divisor that is
closest to a frequency, and halts the kernel if the frequency is not one of those supported.
The kernel then counts in ticks of that frequency: `sleep_ms` and the stopwatch convert by the
frequency, and the device by the divisor (`timer_accurate`).

A sleep that a stopwatch measures is never shown shorter than it was asked for
(`sleep_measured`).
-/

namespace BareMetal

open Framework

/-! ### The device -/

namespace PitPorts

def inputFrequency : ℕ := 1193182
def minDivisor : ℕ := 1
def maxDivisor : ℕ := 0xFFFF
def minSupportedFrequency : ℕ := 20
def maxSupportedFrequency : ℕ := 100

def channel0DataPort : BitVec 16 := 0x40
def commandPort : BitVec 16 := 0x43

def channel0LobyteHibyteMode3Binary : BitVec 8 := 0x36

/-- `outb`, seen from the timer. -/
def outb (p : Pit) (port : BitVec 16) (value : BitVec 8) : Pit :=
  if port = commandPort then p.writeControl value
  else if port = channel0DataPort then p.writeData 0 value
  else if port = 0x41 then p.writeData 1 value
  else if port = 0x42 then p.writeData 2 value
  else p

end PitPorts

/-- What `initialize_pit` works on. -/
structure PitSetup where
  pit : Pit
  screen : Vga
  halted : Bool

namespace PitSetup

open PitPorts

variable (tier : Tier) (clzZero : ℤ) (s : PitSetup)

/-- `log.panic(panic_message)`, of a new `log`. -/
def panic (panicMessage : List (BitVec 8)) : PitSetup :=
  { s with
    screen := (Logger.panic tier clzZero { Output.init with buffer := s.screen }
      panicMessage).buffer
    halted := true }

/-- `initialize_pit`. -/
def initializePit (frequency : ℕ) : PitSetup :=
  if frequency < minSupportedFrequency ∨ maxSupportedFrequency < frequency then
    s.panic tier clzZero (ascii "Failed to initialize PIT")
  else
    let divisor32 := usize (inputFrequency + frequency / 2) / frequency
    if divisor32 < minDivisor ∨ maxDivisor < divisor32 then
      s.panic tier clzZero (ascii "Failed to initialize PIT")
    else
      let divisor := BitVec.ofNat 16 divisor32
      let pit := outb s.pit commandPort channel0LobyteHibyteMode3Binary
      let pit := outb pit channel0DataPort ((divisor &&& 0x00FF).setWidth 8)
      { s with pit := outb pit channel0DataPort (((divisor >>> 8) &&& 0x00FF).setWidth 8) }

end PitSetup

/-! ### The divisor -/

open PitPorts

/-- The divisor is that of the closest frequency: it is off by at most half a clock a tick. -/
theorem divisor_bounds {f : ℕ} (hf : 0 < f) :
    2 * ((inputFrequency + f / 2) / f * f) ≤ 2 * inputFrequency + f ∧
      2 * inputFrequency ≤ 2 * ((inputFrequency + f / 2) / f * f) + f := by
  have hdiv := Nat.div_add_mod (inputFrequency + f / 2) f
  have hmod := Nat.mod_lt (inputFrequency + f / 2) hf
  rw [Nat.mul_comm] at hdiv
  generalize (inputFrequency + f / 2) / f * f = product at hdiv ⊢
  omega

/-- For the frequencies supported it is in the range of the counter. -/
theorem divisor_range {f : ℕ} (hf : minSupportedFrequency ≤ f) (hf' : f ≤ maxSupportedFrequency) :
    minDivisor ≤ (inputFrequency + f / 2) / f ∧ (inputFrequency + f / 2) / f ≤ maxDivisor := by
  unfold minSupportedFrequency at hf
  unfold maxSupportedFrequency at hf'
  unfold minDivisor maxDivisor inputFrequency
  refine ⟨?_, ?_⟩
  · exact (Nat.le_div_iff_mul_le (by omega)).mpr (by omega)
  · refine Nat.le_of_lt_succ ((Nat.div_lt_iff_lt_mul (by omega)).mpr ?_)
    omega

namespace PitSetup

variable {tier : Tier} {clzZero : ℤ} {s : PitSetup} {f : ℕ}

/-- **The frequencies supported.** The counter of the timer interrupt is programmed, and nothing
else changes. -/
theorem initializePit_eq (hf : minSupportedFrequency ≤ f) (hf' : f ≤ maxSupportedFrequency) :
    s.initializePit tier clzZero f = { s with
      pit := ⟨Function.update s.pit.counters 0 ⟨3, 3, false, none,
        some (BitVec.ofNat 16 ((inputFrequency + f / 2) / f))⟩⟩ } := by
  -- the sum that is rounded does not wrap
  have hsum : inputFrequency + f / 2 < 2 ^ 32 := by
    unfold maxSupportedFrequency at hf'
    unfold inputFrequency
    omega
  obtain ⟨hmin, hmax⟩ := divisor_range hf hf'
  unfold initializePit
  rw [usize_of_lt hsum, if_neg (by omega), if_neg (by omega)]
  generalize BitVec.ofNat 16 ((inputFrequency + f / 2) / f) = divisor
  -- the two bytes written are those of the divisor
  have hbytes : ((divisor >>> 8) &&& 0x00FF).setWidth 8 ++ (divisor &&& 0x00FF).setWidth 8
      = divisor := @append_halves 8 0x00FF rfl divisor
  have hwritten := @Pit.writeData_writeControl s.pit channel0LobyteHibyteMode3Binary (by decide)
    (by decide) ((divisor &&& 0x00FF).setWidth 8) (((divisor >>> 8) &&& 0x00FF).setWidth 8)
  rw [hbytes] at hwritten
  exact congrArg (fun pit => { s with pit := pit }) hwritten

/-- The others halt the kernel before anything is programmed. -/
theorem initializePit_panics (h : ¬ (minSupportedFrequency ≤ f ∧ f ≤ maxSupportedFrequency)) :
    s.initializePit tier clzZero f = s.panic tier clzZero (ascii "Failed to initialize PIT") := by
  unfold initializePit
  rw [if_pos (by omega)]

end PitSetup

/-! ### Milliseconds, ticks and clocks -/

/-- The ticks that `sleep_ms` waits for, when they fit the counter: those of the milliseconds,
rounded up. -/
theorem sleepMs_ticks {t : Timer} {f ms : ℕ} (hfrequency : t.frequency = f) (hf : 1 ≤ f)
    (hf' : f ≤ 4294967) (hms : 1 ≤ ms) (hms' : ms < 2 ^ 32)
    (hfit : ms * f ≤ 1000 * (2 ^ 32 - 1)) :
    ∃ ticks, t.sleepMs ms = [ticks] ∧ ms * f ≤ 1000 * ticks ∧ 1000 * ticks < ms * f + 1000 := by
  have hsplit : ms * f = 1000 * (ms / 1000 * f) + ms % 1000 * f := by
    conv_lhs => rw [← Nat.div_add_mod ms 1000]
    rw [Nat.add_mul, Nat.mul_assoc]
  have hrest : ms % 1000 * f ≤ 999 * 4294967 :=
    Nat.mul_le_mul (Nat.le_of_lt_succ (Nat.mod_lt _ (by decide))) hf'
  refine ⟨_, Timer.sleepMs_eq hfrequency hf (by omega) hms hms', ?_⟩
  rw [Nat.mod_eq_of_lt (by omega)]
  generalize ms / 1000 * f = whole at hsplit ⊢
  generalize ms % 1000 * f = rest at hsplit hrest ⊢
  omega

/-- The milliseconds that a stopwatch shows after `d` ticks, when they fit: those of the ticks,
rounded down. -/
theorem elapsedMs_ticks {w : Stopwatch} {t : Timer} {d f : ℕ}
    (hdiff : usizeSub t.ticks w.start = d) (hfrequency : t.frequency = f) (hf : 1 ≤ f)
    (hf' : f ≤ 4294967) (hfit : d * 1000 < 2 ^ 32 * f) :
    ∃ ms, w.elapsedMs t = some ms ∧ ms * f ≤ d * 1000 ∧ d * 1000 < (ms + 1) * f := by
  have hd : d < 2 ^ 32 := hdiff ▸ usizeSub_lt _ _
  have hrest : d % f * 1000 < 2 ^ 32 := by
    have hmod : d % f < f := Nat.mod_lt d hf
    clear hfit hdiff
    omega
  refine ⟨d * 1000 / f, ?_, Nat.div_mul_le_self _ _, ?_⟩
  · rw [Stopwatch.elapsedMs_eq hdiff hd hfrequency hf, Nat.mod_eq_of_lt hrest,
      ← Stopwatch.mul_thousand_div hf, Nat.min_eq_left]
    have hlt : d * 1000 / f < 2 ^ 32 := (Nat.div_lt_iff_lt_mul hf).mpr hfit
    omega
  · rw [Nat.mul_comm (_ + 1)]
    exact Nat.lt_mul_div_succ _ hf

/-- Ticks of a divisor that is off by at most half a clock, against milliseconds. -/
theorem clocks_le {p f n ticks ms slack : ℕ} (hn : 2 * (n * f) ≤ 2 * p + f)
    (hticks : 1000 * ticks ≤ ms * f + slack) :
    2 * (1000 * (ticks * n)) ≤ ms * (2 * p + f) + 2 * (slack * n) := by
  calc 2 * (1000 * (ticks * n))
    _ = 2 * (1000 * ticks * n) := by ring
    _ ≤ 2 * ((ms * f + slack) * n) := by gcongr
    _ = ms * (2 * (n * f)) + 2 * (slack * n) := by ring
    _ ≤ ms * (2 * p + f) + 2 * (slack * n) := by gcongr

/-- And the other way round. -/
theorem le_clocks {p f n ticks ms : ℕ} (hn : 2 * p ≤ 2 * (n * f) + f)
    (hticks : ms * f ≤ 1000 * ticks) :
    2 * (ms * p) ≤ 2 * (1000 * (ticks * n)) + ms * f := by
  calc 2 * (ms * p)
    _ = ms * (2 * p) := by ring
    _ ≤ ms * (2 * (n * f) + f) := by gcongr
    _ = 2 * (ms * f * n) + ms * f := by ring
    _ ≤ 2 * (1000 * ticks * n) + ms * f := by gcongr
    _ = 2 * (1000 * (ticks * n)) + ms * f := by ring

/-- **The timer is accurate.** Whatever state the device is in, a frequency that is not
supported halts the kernel and programs nothing. Otherwise the counter of the interrupt, and no
other, gets a period of `n` clocks that is off by at most half a clock a tick. When the kernel
counts with the same frequency, the clocks of a sleep are those of its milliseconds, and the
milliseconds a stopwatch shows those of the clocks, up to this and the rounding to a tick or to
a millisecond. -/
theorem timer_accurate (tier : Tier) (clzZero : ℤ) (s : PitSetup) (f : ℕ) :
    let s' := s.initializePit tier clzZero f
    if minSupportedFrequency ≤ f ∧ f ≤ maxSupportedFrequency then
      s'.halted = s.halted ∧ s'.screen = s.screen ∧
        (∀ select ≠ 0, s'.pit.counters select = s.pit.counters select) ∧
        ∃ n, (s'.pit.counters 0).period = some n ∧
          (2 * (n * f) ≤ 2 * inputFrequency + f ∧ 2 * inputFrequency ≤ 2 * (n * f) + f) ∧
          (∀ (t : Timer) (ms : ℕ), 1 ≤ ms → ms < 2 ^ 32 →
            ∃ ticks, (t.setFrequency f).sleepMs ms = [ticks] ∧
              2 * (ms * inputFrequency) ≤ 2 * (1000 * (ticks * n)) + ms * f ∧
              2 * (1000 * (ticks * n)) ≤ ms * (2 * inputFrequency + f) + 2 * (999 * n)) ∧
          ∀ (w : Stopwatch) (t : Timer) (d : ℕ), usizeSub t.ticks w.start = d →
            d * 1000 < 2 ^ 32 * f →
            ∃ ms, w.elapsedMs (t.setFrequency f) = some ms ∧
              2 * (ms * inputFrequency) ≤ 2 * (1000 * (d * n)) + ms * f ∧
              2 * (1000 * (d * n)) ≤ (ms + 1) * (2 * inputFrequency + f)
    else s'.halted = true ∧ s'.pit = s.pit := by
  intro s'
  by_cases hsupported : minSupportedFrequency ≤ f ∧ f ≤ maxSupportedFrequency
  · have hmin := hsupported.1
    have hmax := hsupported.2
    have hf : 1 ≤ f := le_trans (by decide) hmin
    have hf' : f ≤ 100 := hmax
    -- the divisor is the nearest one, and it fits into the counter
    obtain ⟨hupper, hlower⟩ := divisor_bounds hf
    obtain ⟨hpos, hrange⟩ := divisor_range hmin hmax
    rw [if_pos hsupported]
    have hs' : s' = _ := PitSetup.initializePit_eq hmin hmax
    generalize (inputFrequency + f / 2) / f = n at *
    rw [hs']
    refine ⟨rfl, rfl, fun select hne => Function.update_of_ne hne _ _, n, ?_, ⟨hupper, hlower⟩,
      ?_, ?_⟩
    -- in mode 3 the divisor is the period
    · have hmode : (3 : BitVec 3).getLsbD 1 = true := by decide
      have hcounter := Function.update_self (f := s.pit.counters) (0 : BitVec 2)
        ⟨3, 3, false, none, some (BitVec.ofNat 16 n)⟩
      exact (congrArg Counter.period hcounter).trans
        (Counter.period_eq rfl hmode rfl hpos (Nat.lt_succ_of_le hrange))
    · intro t ms hms hms'
      -- a sleep: `f` is at most 100, so its ticks fit into a word
      have hfrequency : (t.setFrequency f).frequency = f := rfl
      have hfit : ms * f ≤ 1000 * (2 ^ 32 - 1) :=
        (Nat.mul_le_mul_left ms hf').trans (by omega)
      obtain ⟨ticks, hticks, hle, hlt⟩ :=
        sleepMs_ticks hfrequency hf (by omega) hms hms' hfit
      exact ⟨ticks, hticks, le_clocks hlower hle, clocks_le hupper (by omega)⟩
    · intro w t d hd hfit
      -- a stopwatch: what it shows is rounded down, hence the bound with `ms + 1`
      obtain ⟨ms, hms, hle, hlt⟩ :=
        @elapsedMs_ticks w (t.setFrequency f) d f hd rfl hf (by omega) hfit
      have hclocks := @clocks_le _ _ _ d (ms + 1) 0 hupper (by omega)
      exact ⟨ms, hms, le_clocks hlower (by omega), by omega⟩
  · rw [if_neg hsupported]
    -- the panic comes before anything is written to a port
    have hs' : s' = s.panic tier clzZero (ascii "Failed to initialize PIT") :=
      PitSetup.initializePit_panics hsupported
    generalize ascii "Failed to initialize PIT" = message at hs'
    rw [hs']
    exact ⟨rfl, rfl⟩

/-- A device in the middle of a count, and an empty screen. -/
def PitSetup.boot : PitSetup :=
  ⟨⟨fun _ => ⟨3, 0, true, some 0x12, none⟩⟩, Output.init.buffer, false⟩

/-- The frequency of the kernel. A second of sleep is 100 ticks of 11932 clocks, and these are
18 clocks more than a second. -/
theorem timer_accurate_hundred :
    let s' := PitSetup.boot.initializePit .gpr 0 100
    (s'.pit.counters 0).period = some 11932 ∧
      (Timer.setFrequency ⟨7, 0⟩ 100).sleepMs 1000 = [100] ∧
      2 * (1000 * (100 * 11932)) ≤ 1000 * (2 * inputFrequency + 100) + 2 * (999 * 11932) := by
  intro s'
  have hperiod : (s'.pit.counters 0).period = some 11932 := by decide +kernel
  have haccurate := timer_accurate .gpr 0 PitSetup.boot 100
  rw [if_pos (by decide)] at haccurate
  obtain ⟨-, -, -, n, hn, -, hsleep, -⟩ := haccurate
  obtain rfl : n = 11932 := Option.some.inj (hn.symm.trans hperiod)
  obtain ⟨ticks, hticks, -, hclocks⟩ := hsleep ⟨7, 0⟩ 1000 (by decide) (by decide)
  have hhundred : (Timer.setFrequency ⟨7, 0⟩ 100).sleepMs 1000 = [100] := by decide +kernel
  obtain rfl : ticks = 100 := List.singleton_inj.mp (hticks.symm.trans hhundred)
  exact ⟨hperiod, hhundred, hclocks⟩

/-! ### A sleep under a stopwatch -/

/-- **A sleep under a stopwatch.** A stopwatch is created before `sleep_ms` and destroyed after
it. Wherever the interrupts come, in between them `before` before `sleep_ticks` loads its start
and `after` when it has returned, it prints at least the milliseconds that were asked for. It
prints more by the rounding to a tick and by the ticks that came beyond those of the sleep. -/
theorem sleep_measured {t : Timer} {flag : Bool} {f ms ticks before after : ℕ}
    (ht : t.ticks < 2 ^ 32) (hfrequency : t.frequency = f) (hf : 1 ≤ f) (hf' : f ≤ 4294967)
    (hms : 1 ≤ ms) (hms' : ms < 2 ^ 32) (hfit : ms * f ≤ 1000 * (2 ^ 32 - 1))
    (hticks : t.sleepMs ms = [ticks]) {h : List (SleepMove × Bool)} {s : Sleeper}
    (hrun : sleepMachine.Run (Sleeper.enter (Timer.handleInterrupt^[before] t) flag ticks) h s)
    (hdone : s.point = .done) (hlt : (before + elapsedTicks h + after) * 1000 < 2 ^ 32 * f)
    (hlt' : before + elapsedTicks h + after < 2 ^ 32) (tier : Tier) (clzZero : ℤ) (screen : Vga) :
    ∃ (shown : ℕ) (ds : List ℕ) (texts : List (List (BitVec 8))), ms ≤ shown ∧
      shown * f < ms * f + 1000 + 1000 * (before + elapsedTicks h + after - ticks) ∧
      IsNumeral 10 ds shown ∧
      texts.flatten = ascii "Time elapsed: " ++ ds.map decimalDigit ++ ascii "ms\n" ∧
      (Stopwatch.create t).destroy (Timer.handleInterrupt^[after] s.timer) tier clzZero screen
        = texts.foldl (fun v text => v.printString tier text) screen := by
  rw [Timer.iterate_handleInterrupt ht] at hrun
  have hstart : usize (t.ticks + before) < 2 ^ 32 := Nat.mod_lt _ (by decide)
  obtain ⟨htimer, -, -, hpoint⟩ := sleepInv_of_run hstart hrun
  unfold Sleeper.AtPoint at hpoint
  rw [hdone] at hpoint
  have hle : ticks ≤ elapsedTicks h := hpoint.2.2
  obtain ⟨ticks', hticks', hlow, hhigh⟩ := sleepMs_ticks hfrequency hf hf' hms hms' hfit
  obtain rfl : ticks = ticks' := List.singleton_inj.mp (hticks.symm.trans hticks')
  have hend : s.timer.ticks < 2 ^ 32 := by
    rw [htimer]
    exact Nat.mod_lt _ (by decide)
  rw [Timer.iterate_handleInterrupt hend]
  -- the counter is ahead by the ticks that came
  have hdiff : usizeSub (usize (s.timer.ticks + after)) t.ticks
      = before + elapsedTicks h + after := by
    rw [htimer]
    unfold usizeSub usize
    clear hlt hfit
    dsimp only
    omega
  have hfrequency' : s.timer.frequency = f := by
    rw [htimer]
    exact hfrequency
  obtain ⟨shown, hshown, hlow', hhigh'⟩ :=
    @elapsedMs_ticks (Stopwatch.create t) { s.timer with ticks := usize (s.timer.ticks + after) }
      _ f hdiff hfrequency' hf hf' hlt
  have hshown' : shown < 2 ^ 32 := Nat.lt_of_mul_lt_mul_right (hlow'.trans_lt hlt)
  have hdec : ({ Output.init with buffer := screen } : Output).state = .dec := rfl
  obtain ⟨ds, hnumeral, htext⟩ := Stopwatch.report_text tier clzZero hdec hshown'
  -- what comes to the screen is this text, in the pieces that the console prints
  obtain ⟨texts, hbuffer, hpieces⟩ := @Output.printAll_texts tier clzZero
    { Output.init with buffer := screen } (Stopwatch.report shown)
  refine ⟨shown, ds, texts, ?_, ?_, hnumeral, hpieces.symm.trans htext, ?_⟩
  · have hmul : ms * f < (shown + 1) * f := by omega
    exact Nat.le_of_lt_succ (Nat.lt_of_mul_lt_mul_right hmul)
  · omega
  · unfold Stopwatch.destroy
    rw [hshown]
    exact hbuffer

/-- Fifteen milliseconds at 100 Hz, over the wrap of the counter, with one tick before the sleep
and one after it. -/
theorem sleep_measured_race :
    let t : Timer := ⟨2 ^ 32 - 2, 100⟩
    let r := sleepMachine.exec (Sleeper.enter (Timer.handleInterrupt^[1] t) false 2) sleepRace
    ∃ (shown : ℕ) (ds : List ℕ) (texts : List (List (BitVec 8))), 15 ≤ shown ∧
      shown * 100 < 15 * 100 + 1000 + 1000 * (1 + elapsedTicks r.1 + 1 - 2) ∧
      IsNumeral 10 ds shown ∧
      texts.flatten = ascii "Time elapsed: " ++ ds.map decimalDigit ++ ascii "ms\n" ∧
      (Stopwatch.create t).destroy (Timer.handleInterrupt^[1] r.2.timer) .gpr 0 Output.init.buffer
        = texts.foldl (fun v text => v.printString .gpr text) Output.init.buffer := by
  intro t r
  have hticks : t.sleepMs 15 = [2] := by decide +kernel
  have hdone : r.2.point = .done := by decide +kernel
  have helapsed : elapsedTicks r.1 = 2 := by decide +kernel
  have hcame : 1 + elapsedTicks r.1 + 1 < 5 := by
    rw [helapsed]
    decide
  exact @sleep_measured t false 100 15 2 1 1 (by decide) rfl (by decide) (by decide) (by decide)
    (by decide) (by decide) hticks r.1 r.2 sleepRace_enabled.run hdone
    (by omega) (by omega) .gpr 0 Output.init.buffer

end BareMetal
