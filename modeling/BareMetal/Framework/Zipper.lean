import Mathlib.Data.List.Basic

/-!
# Lines with a cursor

A line that is being edited is a `Zipper`: the text left of the cursor and the text
right of it. Insertion and deletion happen at the cursor, moves carry elements from
one side to the other.

An editor that keeps its line in an array holds the bytes, the cursor and the end of
the line as positions. `segment b lo n` is the list of the `n` elements of the array
from `lo` on, and `Zipper.ofBuffer b cursor stop` is the line of such an editor. The
rules `ofBuffer_insert` to `ofBuffer_toEnd` say what an edit has to do to the array.
-/

namespace Framework

variable {α : Type}

/-! ### Segments of an array -/

/-- The `n` elements from `lo` on. -/
def segment (b : ℕ → α) (lo : ℕ) : ℕ → List α
  | 0 => []
  | n + 1 => b lo :: segment b (lo + 1) n

section Segment

variable {b b' : ℕ → α} {lo lo' n m : ℕ}

@[simp] theorem length_segment (b : ℕ → α) (lo n : ℕ) : (segment b lo n).length = n := by
  induction n generalizing lo with
  | zero => rfl
  | succ n ih => rw [segment, List.length_cons, ih]

theorem segment_congr (h : ∀ i < n, b (lo + i) = b' (lo' + i)) :
    segment b lo n = segment b' lo' n := by
  induction n generalizing lo lo' with
  | zero => rfl
  | succ n ih =>
    have htail : segment b (lo + 1) n = segment b' (lo' + 1) n := by
      apply ih
      intro i hi
      rw [Nat.add_right_comm lo, Nat.add_right_comm lo']
      exact h (i + 1) (Nat.succ_lt_succ hi)
    rw [segment, segment, htail]
    exact congrArg (· :: _) (h 0 (Nat.zero_lt_succ n))

/-- Adjacent segments compose. -/
theorem segment_append (b : ℕ → α) (lo n m : ℕ) :
    segment b lo n ++ segment b (lo + n) m = segment b lo (n + m) := by
  induction n generalizing lo with
  | zero => rw [Nat.zero_add, Nat.add_zero, segment, List.nil_append]
  | succ n ih =>
    rw [segment, List.cons_append, Nat.add_right_comm n 1 m, segment, ← ih (lo + 1),
      Nat.add_assoc lo 1 n, Nat.add_comm 1 n]

theorem segment_succ (b : ℕ → α) (lo n : ℕ) :
    segment b lo (n + 1) = segment b lo n ++ [b (lo + n)] :=
  (segment_append b lo n 1).symm

theorem mem_segment {a : α} : a ∈ segment b lo n ↔ ∃ i < n, a = b (lo + i) := by
  induction n with
  | zero => simp [segment]
  | succ n ih =>
    rw [segment_succ, List.mem_append, ih, List.mem_singleton]
    constructor
    · rintro (⟨i, hi, rfl⟩ | rfl)
      · exact ⟨i, Nat.lt_succ_of_lt hi, rfl⟩
      · exact ⟨n, Nat.lt_succ_self n, rfl⟩
    · rintro ⟨i, hi, rfl⟩
      rcases Nat.lt_succ_iff_lt_or_eq.mp hi with hi | rfl
      · exact .inl ⟨i, hi, rfl⟩
      · exact .inr rfl

theorem getElem?_segment {i : ℕ} (hi : i < n) : (segment b lo n)[i]? = some (b (lo + i)) := by
  induction n generalizing lo i with
  | zero => exact absurd hi (Nat.not_lt_zero i)
  | succ n ih =>
    cases i with
    | zero => rfl
    | succ i =>
      rw [segment, List.getElem?_cons_succ, ih (Nat.lt_of_succ_lt_succ hi), Nat.add_assoc,
        Nat.add_comm 1 i]

/-- A list that the array holds is a segment of it. -/
theorem segment_eq {t : List α} (h : ∀ i (hi : i < t.length), b (lo + i) = t[i]) :
    segment b lo t.length = t := by
  induction t generalizing lo with
  | nil => rfl
  | cons a t ih =>
    have htail : segment b (lo + 1) t.length = t := by
      apply ih
      intro i hi
      rw [Nat.add_assoc, Nat.add_comm 1 i]
      exact h (i + 1) (Nat.succ_lt_succ hi)
    have hhead : b lo = a := h 0 (Nat.zero_lt_succ _)
    rw [List.length_cons, segment, htail, hhead]

end Segment

/-! ### Zippers -/

/-- A line with a cursor between two elements. -/
structure Zipper (α : Type) where
  left : List α
  right : List α
  deriving DecidableEq

namespace Zipper

/-- The empty line. -/
def empty : Zipper α := ⟨[], []⟩

/-- The line without its cursor. -/
def text (z : Zipper α) : List α := z.left ++ z.right

/-- Text inserted at the cursor, which stays behind it. -/
def insert (z : Zipper α) (t : List α) : Zipper α := ⟨z.left ++ t, z.right⟩

/-- The element left of the cursor deleted. -/
def delete (z : Zipper α) : Zipper α := ⟨z.left.dropLast, z.right⟩

/-- One element to the left. -/
def moveLeft (z : Zipper α) : Zipper α :=
  match z.left.getLast? with
  | none => z
  | some a => ⟨z.left.dropLast, a :: z.right⟩

/-- One element to the right. -/
def moveRight (z : Zipper α) : Zipper α :=
  match z.right with
  | [] => z
  | a :: right => ⟨z.left ++ [a], right⟩

/-- To the start of the line. -/
def toHome (z : Zipper α) : Zipper α := ⟨[], z.text⟩

/-- To the end of the line. -/
def toEnd (z : Zipper α) : Zipper α := ⟨z.text, []⟩

/-! ### Lines in an array -/

/-- The line `[0, stop)` of an array with the cursor before position `cursor`. -/
def ofBuffer (b : ℕ → α) (cursor stop : ℕ) : Zipper α :=
  ⟨segment b 0 cursor, segment b cursor (stop - cursor)⟩

section Buffer

variable {b b' : ℕ → α} {cursor stop : ℕ}

theorem text_ofBuffer (hc : cursor ≤ stop) : (ofBuffer b cursor stop).text = segment b 0 stop := by
  have happ := segment_append b 0 cursor (stop - cursor)
  rwa [Nat.zero_add, Nat.add_sub_cancel' hc] at happ

/-- **Insertion**: the text stands at the cursor, and what was right of it behind the
text. -/
theorem ofBuffer_insert {t : List α} (hc : cursor ≤ stop) (hleft : ∀ i < cursor, b' i = b i)
    (htext : segment b' cursor t.length = t)
    (hright : ∀ i, cursor ≤ i → i < stop → b' (i + t.length) = b i) :
    ofBuffer b' (cursor + t.length) (stop + t.length) = (ofBuffer b cursor stop).insert t := by
  unfold ofBuffer insert
  have hleft_eq : segment b' 0 (cursor + t.length) = segment b 0 cursor ++ t := by
    rw [← segment_append, Nat.zero_add, htext]
    refine congrArg (· ++ t) (segment_congr ?_)
    intro i hi
    rw [Nat.zero_add]
    exact hleft i hi
  -- the right part kept its bytes, at higher positions
  have hright_eq : segment b' (cursor + t.length) (stop + t.length - (cursor + t.length))
      = segment b cursor (stop - cursor) := by
    rw [Nat.add_sub_add_right]
    apply segment_congr
    intro i hi
    rw [Nat.add_right_comm]
    exact hright (cursor + i) (Nat.le_add_right cursor i) (by omega)
  rw [hleft_eq, hright_eq]

/-- **Deletion**: what was right of the cursor moves one to the left. -/
theorem ofBuffer_delete (hc : cursor < stop) (hleft : ∀ i < cursor, b' i = b i)
    (hright : ∀ i, cursor ≤ i → i + 1 < stop → b' i = b (i + 1)) :
    ofBuffer b' cursor (stop - 1) = (ofBuffer b (cursor + 1) stop).delete := by
  unfold ofBuffer delete
  have hleft_eq : segment b' 0 cursor = (segment b 0 (cursor + 1)).dropLast := by
    rw [segment_succ, List.dropLast_concat]
    apply segment_congr
    intro i hi
    rw [Nat.zero_add]
    exact hleft i hi
  -- the right part kept its bytes, one position lower
  have hright_eq : segment b' cursor (stop - 1 - cursor)
      = segment b (cursor + 1) (stop - (cursor + 1)) := by
    rw [show stop - 1 - cursor = stop - (cursor + 1) by omega]
    apply segment_congr
    intro i hi
    rw [Nat.add_right_comm]
    exact hright (cursor + i) (Nat.le_add_right cursor i) (by omega)
  rw [hleft_eq, hright_eq]

theorem ofBuffer_moveLeft (hc : cursor < stop) :
    ofBuffer b cursor stop = (ofBuffer b (cursor + 1) stop).moveLeft := by
  unfold ofBuffer moveLeft
  simp only [segment_succ, List.getLast?_concat, List.dropLast_concat, Nat.zero_add]
  rw [show stop - cursor = stop - (cursor + 1) + 1 by omega]
  rfl

theorem ofBuffer_moveRight (hc : cursor < stop) :
    ofBuffer b (cursor + 1) stop = (ofBuffer b cursor stop).moveRight := by
  have hright : segment b cursor (stop - cursor)
      = b cursor :: segment b (cursor + 1) (stop - (cursor + 1)) := by
    rw [show stop - cursor = stop - (cursor + 1) + 1 by omega]
    rfl
  unfold ofBuffer moveRight
  simp only [hright, segment_succ, Nat.zero_add]

theorem ofBuffer_toHome (hc : cursor ≤ stop) :
    ofBuffer b 0 stop = (ofBuffer b cursor stop).toHome := by
  unfold toHome
  rw [text_ofBuffer hc]
  rfl

theorem ofBuffer_toEnd (hc : cursor ≤ stop) :
    ofBuffer b stop stop = (ofBuffer b cursor stop).toEnd := by
  unfold toEnd
  rw [text_ofBuffer hc]
  unfold ofBuffer
  rw [Nat.sub_self]
  rfl

end Buffer

end Zipper
end Framework
