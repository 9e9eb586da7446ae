import BareMetal.Tools.Builtin
import Mathlib.Algebra.Order.Floor.Div

/-!
# The timer

The timer interrupt counts ticks in 32 bits. `sleep_ms` converts milliseconds to ticks, whole
seconds and the rest apart, the rest rounded up, and `sleep_ticks` waits for so many. It guards
the product of the seconds and the sum of the two parts, and not the product of the rest: at
frequencies from about 4.3 MHz on that one can wrap, and the sleep is too short unless the whole
seconds reach the limit anyway (`sleepMs_exact_iff`).
-/

namespace BareMetal

def millisecondsPerSecond : ℕ := 1000

/-- `UINT32_MAX`. -/
def uint32Max : ℕ := 2 ^ 32 - 1

/-- The globals of the timer. -/
structure Timer where
  ticks : ℕ
  frequency : ℕ

namespace Timer

variable (t : Timer)

/-- `handle_timer_interrupt`. -/
def handleInterrupt : Timer := { t with ticks := usize (t.ticks + 1) }

/-- `set_timer_frequency`. -/
def setFrequency (frequency : ℕ) : Timer := { t with frequency := frequency }

/-- `sleep_ms`, as the arguments of its calls of `sleep_ticks`. -/
def sleepMs (ms : ℕ) : List ℕ :=
  let frequency := t.frequency
  if frequency = 0 ∨ ms = 0 then []
  else
    let wholeSeconds := ms / millisecondsPerSecond
    let remainingMilliseconds := usizeSub ms (usize (wholeSeconds * millisecondsPerSecond))
    if uint32Max / frequency < wholeSeconds then [uint32Max]
    else
      let wholeSecondTicks := usize (wholeSeconds * frequency)
      let remainingTicks :=
        usizeSub (usize (usize (remainingMilliseconds * frequency) + millisecondsPerSecond)) 1
          / millisecondsPerSecond
      if usizeSub uint32Max remainingTicks < wholeSecondTicks then [uint32Max]
      else [usize (wholeSecondTicks + remainingTicks)]

/-! ### Counting ticks -/

variable {t}

/-- The count after some interrupts. -/
theorem iterate_handleInterrupt (ht : t.ticks < 2 ^ 32) (n : ℕ) :
    handleInterrupt^[n] t = { t with ticks := usize (t.ticks + n) } := by
  induction n with
  | zero =>
    rw [Nat.add_zero, usize_of_lt ht]
    rfl
  | succ n ih =>
    rw [Function.iterate_succ_apply', ih]
    unfold handleInterrupt usize
    simp only [Timer.mk.injEq, and_true]
    omega

/-! ### Waiting for milliseconds -/

/-- What `sleep_ms` does: the product of the rest, rounded up, is taken modulo `2 ^ 32`, and
the sum is cut off at the limit. -/
theorem sleepMs_eq {f ms : ℕ} (hfrequency : t.frequency = f) (hf : 1 ≤ f) (hf' : f < 2 ^ 32)
    (hms : 1 ≤ ms) (hms' : ms < 2 ^ 32) :
    t.sleepMs ms =
      [min (ms / 1000 * f + (ms % 1000 * f + 999) % 2 ^ 32 / 1000) (2 ^ 32 - 1)] := by
  have hrest : usizeSub ms (usize (ms / 1000 * 1000)) = ms % 1000 := by
    unfold usizeSub usize
    omega
  have hround (p : ℕ) : usizeSub (usize (usize p + 1000)) 1 = (p + 999) % 2 ^ 32 := by
    unfold usizeSub usize
    omega
  have hzero : ¬ (f = 0 ∨ ms = 0) := by omega
  unfold sleepMs millisecondsPerSecond uint32Max
  simp only [hfrequency, if_neg hzero, hrest, hround, Nat.div_lt_iff_lt_mul hf]
  generalize ms % 1000 * f + 999 = p
  generalize ms / 1000 * f = whole
  by_cases hguard : 2 ^ 32 - 1 < whole
  · rw [if_pos hguard, Nat.min_eq_right (by omega)]
  · -- the seconds do not wrap, and the rest is at most a thousandth of the limit
    have hsub : usizeSub (2 ^ 32 - 1) (p % 2 ^ 32 / 1000) = 2 ^ 32 - 1 - p % 2 ^ 32 / 1000 :=
      usizeSub_of_le (by omega) (by omega)
    rw [if_neg hguard, usize_of_lt (by omega), hsub]
    by_cases hsum : 2 ^ 32 - 1 - p % 2 ^ 32 / 1000 < whole
    · rw [if_pos hsum, Nat.min_eq_right (by omega)]
    · rw [if_neg hsum, usize_of_lt (by omega), Nat.min_eq_left (by omega)]

/-- **When a sleep is long enough.** For every frequency and every number of milliseconds
`sleep_ms` calls `sleep_ticks` once, with the ticks of exact arithmetic, rounded up and cut
off at the limit, exactly when the product of the rest does not wrap, or the exact number
is above the limit by what the wraps take. -/
theorem sleepMs_exact_iff (t : Timer) {f ms : ℕ} (hf : 1 ≤ f) (hf' : f ≤ 2 ^ 32 - 1)
    (hms : 1 ≤ ms) (hms' : ms ≤ 2 ^ 32 - 1) :
    (t.setFrequency f).sleepMs ms = [min (ms * f ⌈/⌉ 1000) (2 ^ 32 - 1)] ↔
      let wraps := (ms % 1000 * f + 999) / 2 ^ 32
      wraps = 0 ∨ 1000 * (2 ^ 32 - 1) + wraps * 2 ^ 32 ≤ ms * f + 999 := by
  have hsplit : ms * f = 1000 * (ms / 1000 * f) + ms % 1000 * f := by
    conv_lhs => rw [← Nat.div_add_mod ms 1000]
    rw [Nat.add_mul, Nat.mul_assoc]
  have hceil : ms * f ⌈/⌉ 1000 = (ms * f + 999) / 1000 := Nat.ceilDiv_eq_add_pred_div _ _
  rw [sleepMs_eq (f := f) rfl hf (by omega) hms (by omega), hceil, List.singleton_inj, hsplit]
  generalize ms % 1000 * f = p
  generalize ms / 1000 * f = whole
  dsimp only
  omega

/-- At 100 Hz. -/
theorem sleepMs_exact_iff_hundred :
    (setFrequency ⟨0, 0⟩ 100).sleepMs 1234 = [min (1234 * 100 ⌈/⌉ 1000) (2 ^ 32 - 1)] :=
  (sleepMs_exact_iff ⟨0, 0⟩ (by decide) (by decide) (by decide) (by decide)).mpr
    (.inl (by decide))

/-- **A sleep that returns at once.** At the highest frequency, 999 milliseconds are most of
the limit in ticks, and `sleep_ms` waits for none. -/
theorem sleepMs_wraps :
    (setFrequency ⟨0, 0⟩ (2 ^ 32 - 1)).sleepMs 999 = [0] ∧
      min (999 * (2 ^ 32 - 1) ⌈/⌉ 1000) (2 ^ 32 - 1) = 4290672328 := by
  constructor
  · decide +kernel
  · decide +kernel

end Timer
end BareMetal
