import BareMetal.Kernel.Timer
import BareMetal.Terminal.Decimal
import BareMetal.Terminal.Printing

/-!
# The stopwatch

A `stopwatch` keeps the count of ticks at its construction. Its destructor takes the
difference to the count at that time, converts it to milliseconds and prints them
(`report_text`).

The conversion is that of `sleep_ms` the other way round, whole seconds and the rest apart.
It guards the product of the seconds and the sum of the two parts, and not the product of
the rest. That one wraps when the rest is more than about 4.3 million ticks, and then the
time is too short, since a frequency that leaves such a rest is far too high for the
seconds to reach the limit (`elapsedMs_exact_iff`).
-/

namespace BareMetal

open Framework

/-- `stopwatch`. -/
structure Stopwatch where
  start : ℕ

namespace Stopwatch

/-- `ms_per_sec`. -/
def msPerSec : ℕ := 1000

/-- The constructor. -/
def create (t : Timer) : Stopwatch := ⟨t.ticks⟩

variable (w : Stopwatch) (t : Timer)

/-- The `elapsed_ms` that `~stopwatch` computes, if the timer has a frequency. -/
def elapsedMs : Option ℕ :=
  let timeDiff := usizeSub t.ticks w.start
  let frequency := t.frequency
  if frequency ≠ 0 then
    let wholeSeconds := timeDiff / frequency
    let remainingTicks := usizeSub timeDiff (usize (wholeSeconds * frequency))
    if uint32Max / msPerSec < wholeSeconds then some uint32Max
    else
      let wholeSecondsMs := usize (wholeSeconds * msPerSec)
      let remainingMs := usize (remainingTicks * msPerSec) / frequency
      if usizeSub uint32Max remainingMs < wholeSecondsMs then some uint32Max
      else some (usize (wholeSecondsMs + remainingMs))
  else none

/-- What `~stopwatch` sends to its `console`. -/
def report (elapsedMs : ℕ) : List Item :=
  [.string (ascii "Time elapsed: "), .unsigned .w32 elapsedMs, .string (ascii "ms\n")]

/-- `~stopwatch`: an `output` of its own prints on the screen, if there is a time. -/
def destroy (tier : Tier) (clzZero : ℤ) (screen : Vga) : Vga :=
  match w.elapsedMs t with
  | some elapsedMs =>
    let console := { Output.init with buffer := screen }
    (console.printAll tier clzZero (report elapsedMs)).buffer
  | none => screen

/-! ### What is printed -/

variable {w t}

/-- **The report** is the time as a decimal numeral, between two texts. -/
theorem report_text (tier : Tier) (clzZero : ℤ) {console : Output} (hdec : console.state = .dec)
    {elapsedMs : ℕ} (hlt : elapsedMs < 2 ^ 32) :
    ∃ ds, IsNumeral 10 ds elapsedMs ∧
      (console.printAll tier clzZero (report elapsedMs)).text =
        console.text ++ ascii "Time elapsed: " ++ ds.map decimalDigit ++ ascii "ms\n" := by
  unfold report
  generalize ascii "Time elapsed: " = label
  generalize ascii "ms\n" = unit
  let o := console.writeStringNoSync tier label
  have hlabel : Output.Prints tier (fun _ => True) console o label := Output.prints_writeString _
  obtain ⟨ds, hnumeral, hdigits⟩ :=
    Output.writeUnsigned_decimal tier (w := .w32) hlt o.syncCursor
  refine ⟨ds, hnumeral, ?_⟩
  -- the console is in decimal, so the number goes through the loop of the digits
  have hnumber : o.syncCursor.printUnsigned tier .w32 elapsedMs
      = (o.syncCursor.writeUnsignedNoSync tier Width.w32.unsigned elapsedMs).syncCursor := by
    have hstate : o.syncCursor.state = .dec := hlabel.state_eq.trans hdec
    rw [Output.printUnsigned, hstate]
  have hunit : Output.Prints tier (fun _ => True) (o.syncCursor.printUnsigned tier .w32 elapsedMs)
      ((o.syncCursor.printUnsigned tier .w32 elapsedMs).writeStringNoSync tier unit) unit :=
    Output.prints_writeString _
  calc ((o.syncCursor.printUnsigned tier .w32 elapsedMs).writeStringNoSync tier unit).text
    _ = (o.syncCursor.printUnsigned tier .w32 elapsedMs).text ++ unit := hunit.text_eq
    _ = o.text ++ ds.map decimalDigit ++ unit := by
      rw [hnumber]
      exact congrArg (· ++ unit) hdigits.text_eq
    _ = console.text ++ label ++ ds.map decimalDigit ++ unit := by rw [hlabel.text_eq]

/-! ### The elapsed time -/

/-- What `~stopwatch` computes: the product of the rest is taken modulo `2 ^ 32`, and the sum
is cut off at the limit. -/
theorem elapsedMs_eq {d f : ℕ} (hdiff : usizeSub t.ticks w.start = d) (hd : d < 2 ^ 32)
    (hfrequency : t.frequency = f) (hf : 1 ≤ f) :
    w.elapsedMs t =
      some (min (d / f * 1000 + d % f * 1000 % 2 ^ 32 / f) (2 ^ 32 - 1)) := by
  have hle : d / f * f ≤ d := Nat.div_mul_le_self d f
  have hrest : usizeSub d (usize (d / f * f)) = d % f := by
    rw [usize_of_lt (hle.trans_lt hd), usizeSub_of_le hle hd, Nat.mod_def, Nat.mul_comm]
  unfold elapsedMs msPerSec uint32Max
  simp only [hdiff, hfrequency, if_pos (Nat.ne_of_gt hf), hrest]
  have hms : d % f * 1000 % 2 ^ 32 / f < 2 ^ 32 :=
    (Nat.div_le_self _ _).trans_lt (Nat.mod_lt _ (by decide))
  unfold usize
  generalize d % f * 1000 % 2 ^ 32 / f = ms at hms
  generalize d / f = whole
  by_cases hguard : (2 ^ 32 - 1) / 1000 < whole
  · rw [if_pos hguard, Nat.min_eq_right (by omega)]
  · -- the seconds do not wrap
    rw [if_neg hguard, Nat.mod_eq_of_lt (by omega), usizeSub_of_le (by omega) (by omega)]
    by_cases hsum : 2 ^ 32 - 1 - ms < whole * 1000
    · rw [if_pos hsum, Nat.min_eq_right (by omega)]
    · rw [if_neg hsum, Nat.mod_eq_of_lt (by omega), Nat.min_eq_left (by omega)]

/-- Seconds and the rest. -/
theorem mul_thousand_div {d f : ℕ} (hf : 1 ≤ f) :
    d * 1000 / f = d / f * 1000 + d % f * 1000 / f := by
  conv_lhs => rw [← Nat.div_add_mod d f]
  rw [Nat.add_mul, Nat.mul_assoc, Nat.mul_add_div hf]

/-- **When the time is right.** For all counts at the start and at the stop, whether or not
the counter wrapped in between, and for every frequency, `~stopwatch` computes the
milliseconds of exact arithmetic, rounded down and cut off at the limit, exactly when the
product of the remaining ticks does not wrap. -/
theorem elapsedMs_exact_iff (start stop : ℕ) {f : ℕ} (hf : 1 ≤ f) (hf' : f ≤ 2 ^ 32 - 1) :
    let d := (stop + 2 ^ 32 - start) % 2 ^ 32
    (Stopwatch.create ⟨start, f⟩).elapsedMs ⟨stop, f⟩ = some (min (d * 1000 / f) (2 ^ 32 - 1)) ↔
      d % f * 1000 < 2 ^ 32 := by
  intro d
  have hd : d < 2 ^ 32 := Nat.mod_lt _ (by decide)
  rw [elapsedMs_eq (d := d) (f := f) rfl hd rfl hf, Option.some_inj, mul_thousand_div hf]
  have hrest : d % f < f := Nat.mod_lt _ hf
  refine ⟨?_, ?_⟩
  · intro heq
    by_contra hwrap
    -- so long a rest takes a high frequency, at which there are few seconds
    have hwhole : d / f ≤ 999 := by
      have hmul : d / f * f ≤ d := Nat.div_mul_le_self d f
      by_contra hmany
      have hlow : 1000 * 4294968 ≤ d / f * f := Nat.mul_le_mul (by omega) (by omega)
      omega
    have hms : d % f * 1000 / f < 1000 := (Nat.div_lt_iff_lt_mul hf).mpr (by omega)
    -- and a wrap takes at least one millisecond
    have hless : d % f * 1000 % 2 ^ 32 / f + 1 ≤ d % f * 1000 / f := by
      rw [← Nat.add_div_right _ hf]
      exact Nat.div_le_div_right (by omega)
    omega
  · intro hlt
    rw [Nat.mod_eq_of_lt hlt]

/-- At 100 Hz, over a wrap of the counter. -/
theorem elapsedMs_exact_iff_wrap :
    (Stopwatch.create ⟨2 ^ 32 - 10, 100⟩).elapsedMs ⟨113, 100⟩
      = some (min (123 * 1000 / 100) (2 ^ 32 - 1)) :=
  (elapsedMs_exact_iff _ _ (by decide) (by decide)).mpr (by decide)

/-- **A time that is too short.** At 5 MHz, 4500000 ticks are 900 ms, and `~stopwatch` reports
41 ms. -/
theorem elapsedMs_wraps :
    (Stopwatch.create ⟨0, 5000000⟩).elapsedMs ⟨4500000, 5000000⟩ = some 41 ∧
      min (4500000 * 1000 / 5000000) (2 ^ 32 - 1) = 900 := by
  refine ⟨?_, ?_⟩
  · decide +kernel
  · decide +kernel

end Stopwatch
end BareMetal
