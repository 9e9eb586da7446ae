import Mathlib.Data.List.Induction
import Mathlib.Logic.Function.Basic

/-!
# A queue in a ring of slots

A bounded queue is often kept in an array of `size` slots with two indices that move
around it and a counter: the oldest element is at `head`, the next free slot is at
`tail`, and `count` says how many elements there are, so that a full ring and an empty
one, which have equal indices, can be told apart.

`ringContents size slots head count` is the queue, oldest element first. `RingInv` is
what the two operations keep: the indices are in the ring and the tail is `count` slots
behind the head. Filling the slot at the tail appends an element
(`RingInv.contents_push`), since none of the `count < size` slots in use is the slot at
the tail; moving the head takes the oldest one off (`ringContents_pop`).
-/

namespace Framework

variable {α : Type} {size head tail count : ℕ} {slots : ℕ → α}

/-- The elements of a ring, oldest first. -/
def ringContents (size : ℕ) (slots : ℕ → α) (head : ℕ) : (count : ℕ) → List α
  | 0 => []
  | count + 1 => ringContents size slots head count ++ [slots ((head + count) % size)]

/-- The indices and the counter of a ring fit together. -/
structure RingInv (size head tail count : ℕ) : Prop where
  head_lt : head < size
  count_le : count ≤ size
  tail_eq : tail = (head + count) % size

@[simp] theorem length_ringContents : (ringContents size slots head count).length = count := by
  induction count with
  | zero => rfl
  | succ count ih => rw [ringContents, List.length_append, ih, List.length_singleton]

/-- The contents are read off the slots in use. -/
theorem ringContents_congr {slots' : ℕ → α}
    (h : ∀ i < count, slots' ((head + i) % size) = slots ((head + i) % size)) :
    ringContents size slots' head count = ringContents size slots head count := by
  induction count with
  | zero => rfl
  | succ count ih =>
    rw [ringContents, ringContents, ih fun i hi => h i (Nat.lt_succ_of_lt hi),
      h count (Nat.lt_succ_self count)]

/-- Less than one turn apart are different slots. -/
theorem add_mod_ne {i j : ℕ} (hij : i < j) (hj : j < size) :
    (head + i) % size ≠ (head + j) % size := by
  intro h
  have hi := Nat.div_add_mod (head + i) size
  have hj' := Nat.div_add_mod (head + j) size
  rw [h] at hi
  -- the two sums differ by a multiple of the size, and by less than one
  have hdiff : size * ((head + j) / size) = size * ((head + i) / size) + (j - i) := by omega
  have hdvd : size ∣ j - i := (Nat.dvd_add_right (Nat.dvd_mul_right size _)).mp
    (hdiff ▸ Nat.dvd_mul_right size _)
  exact absurd (Nat.le_of_dvd (by omega) hdvd) (by omega)

/-- **Filling the slot at the tail appends.** -/
theorem RingInv.contents_push (h : RingInv size head tail count)
    (hroom : count < size) (a : α) :
    ringContents size (Function.update slots tail a) head (count + 1)
      = ringContents size slots head count ++ [a] := by
  rw [ringContents, h.tail_eq, Function.update_self]
  refine congrArg (· ++ [a]) (ringContents_congr ?_)
  intro i hi
  exact Function.update_of_ne (add_mod_ne hi hroom) _ _

theorem RingInv.push (h : RingInv size head tail count) (hroom : count < size) :
    RingInv size head ((tail + 1) % size) (count + 1) :=
  ⟨h.head_lt, hroom, by rw [h.tail_eq, Nat.mod_add_mod, Nat.add_assoc]⟩

/-- **Moving the head takes the oldest element off.** -/
theorem ringContents_pop (size : ℕ) (slots : ℕ → α) (head count : ℕ) :
    ringContents size slots head (count + 1)
      = slots (head % size) :: ringContents size slots ((head + 1) % size) count := by
  induction count with
  | zero => rfl
  | succ count ih =>
    have hslot : (head + (count + 1)) % size = ((head + 1) % size + count) % size := by
      rw [Nat.mod_add_mod, Nat.add_assoc, Nat.add_comm 1 count]
    calc ringContents size slots head (count + 1 + 1)
      _ = ringContents size slots head (count + 1) ++ [slots ((head + (count + 1)) % size)] := rfl
      _ = slots (head % size) :: (ringContents size slots ((head + 1) % size) count ++
          [slots (((head + 1) % size + count) % size)]) := by
        rw [ih, hslot, List.cons_append]

theorem RingInv.pop (h : RingInv size head tail (count + 1)) :
    RingInv size ((head + 1) % size) tail count := by
  refine ⟨Nat.mod_lt _ (Nat.zero_lt_of_lt h.head_lt), Nat.le_of_succ_le h.count_le, ?_⟩
  rw [h.tail_eq, Nat.mod_add_mod, Nat.add_assoc, Nat.add_comm 1 count]

end Framework
