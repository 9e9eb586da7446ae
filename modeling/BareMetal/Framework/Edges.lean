import Mathlib.Algebra.Ring.Parity
import Mathlib.Data.List.Basic

/-!
# Edges of a signal

A signal is the list of its samples, oldest first. It rises where a sample is true and the
one before it was not; before the first one it counts as low. Repeated samples of one value
make no edge.

`Toggle` is the usual way to act on rises only: it remembers the last sample and turns its
value over at each rise. `Toggle.Follows.step` says that the value is the parity of the
number of rises.
-/

namespace Framework

/-- The number of rises of a signal, after the sample `last`. -/
def risesAfter : (last : Bool) → List Bool → ℕ
  | _, [] => 0
  | last, b :: signal => (b && !last).toNat + risesAfter b signal

/-- The number of rises of a signal. -/
def rises (signal : List Bool) : ℕ := risesAfter false signal

theorem risesAfter_snoc (last : Bool) (signal : List Bool) (b : Bool) :
    risesAfter last (signal ++ [b])
      = risesAfter last signal + (b && !(signal.getLast?.getD last)).toNat := by
  induction signal generalizing last with
  | nil => exact Nat.add_comm _ 0
  | cons a signal ih =>
    rw [List.cons_append, risesAfter, ih, risesAfter, List.getLast?_cons, Nat.add_assoc]
    rfl

/-- One more sample. -/
theorem rises_snoc (signal : List Bool) (b : Bool) :
    rises (signal ++ [b]) = rises signal + (b && !(signal.getLast?.getD false)).toNat :=
  risesAfter_snoc false signal b

/-! ### Toggles -/

/-- A toggle: the sample it saw last, and its value. -/
structure Toggle where
  seen : Bool
  value : Bool
  deriving DecidableEq

/-- A sample: the value turns over at a rise. -/
def Toggle.step (t : Toggle) (b : Bool) : Toggle where
  seen := b
  value := if b && !t.seen then !t.value else t.value

/-- A toggle that follows a signal. -/
structure Toggle.Follows (t : Toggle) (signal : List Bool) : Prop where
  seen_eq : t.seen = signal.getLast?.getD false
  value_iff : t.value = true ↔ Odd (rises signal)

/-- **The value is the parity of the rises**, sample by sample. -/
theorem Toggle.Follows.step {t : Toggle} {signal : List Bool} (h : t.Follows signal) (b : Bool) :
    (t.step b).Follows (signal ++ [b]) := by
  refine ⟨by rw [List.getLast?_concat]; rfl, ?_⟩
  rw [rises_snoc, ← h.seen_eq]
  cases hrise : b && !t.seen with
  | false =>
    rw [Bool.toNat_false, Nat.add_zero, ← h.value_iff, Toggle.step, hrise]
    rfl
  | true =>
    -- a rise turns the value and the parity over
    rw [Bool.toNat_true, Nat.odd_add_one, ← h.value_iff]
    simp only [Toggle.step, hrise, if_true, Bool.not_eq_true, Bool.not_eq_true']

end Framework
