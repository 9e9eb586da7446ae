import Mathlib.Data.Fin.Basic
import Mathlib.Tactic.Ring

/-!
# A plain scrolling screen

A screen is a grid of cells with a cursor in it. Both are bounded by their types, so
a cursor outside the grid cannot be built. Writing a cell moves the cursor on; the
end of a row wraps to the next one, and the end of the last row scrolls the grid up
by one line and blanks the last.

A device rarely keeps a grid. It keeps a linear window of cells and an offset in it,
and `Shows W o s` says that the window `W` with the cursor at `o` shows the screen
`s`. The rules `Shows.set`, `Shows.newLine`, `Shows.advance` and `Shows.clear` say
what a device has to do to its window for each operation; those that may scroll are
stated for a cursor that moves on to a `target` (`MovesOn`), with the window moving
up by a row when the target is its end.
-/

namespace Framework

/-- A grid of `h` rows and `w` columns with a cursor. -/
structure Screen (h w : ℕ) (α : Type) where
  cells : Fin h → Fin w → α
  row : Fin h
  column : Fin w

namespace Screen

variable {h w : ℕ} {α : Type}

/-- The blank screen with the cursor at the top left. -/
def clear [NeZero h] [NeZero w] (blank : α) : Screen h w α := ⟨fun _ _ => blank, 0, 0⟩

/-- The grid goes up by one line, and the last line is blank. -/
def scroll (blank : α) (s : Screen h w α) : Screen h w α :=
  { s with cells := fun i j => if hi : i + 1 < h then s.cells ⟨i + 1, hi⟩ j else blank }

/-- To the start of the row. -/
def carriageReturn [NeZero w] (s : Screen h w α) : Screen h w α := { s with column := 0 }

/-- One row down; the last row scrolls. -/
def lineFeed (blank : α) (s : Screen h w α) : Screen h w α :=
  if hr : s.row + 1 < h then { s with row := ⟨s.row + 1, hr⟩ } else s.scroll blank

/-- To the start of the next row. -/
def newLine [NeZero w] (blank : α) (s : Screen h w α) : Screen h w α :=
  s.carriageReturn.lineFeed blank

/-- One cell on, wrapping at the end of a row. -/
def advance [NeZero w] (blank : α) (s : Screen h w α) : Screen h w α :=
  if hc : s.column + 1 < w then { s with column := ⟨s.column + 1, hc⟩ } else s.newLine blank

/-- The cell at the cursor becomes `a`. -/
def set (a : α) (s : Screen h w α) : Screen h w α :=
  { s with cells := fun i j => if i = s.row ∧ j = s.column then a else s.cells i j }

/-- A cell is written and the cursor moves on. -/
def write [NeZero w] (blank a : α) (s : Screen h w α) : Screen h w α := (s.set a).advance blank

/-! ### Linear windows -/

/-- The window `W` with the cursor at the offset `o` shows the screen. -/
structure Shows (W : ℕ → α) (o : ℕ) (s : Screen h w α) : Prop where
  cells_eq : ∀ i j, s.cells i j = W (w * i + j)
  cursor_eq : o = w * s.row + s.column

/-- From `W` to `W'` the cursor moved on to `target`: to the offset `target`, or, when
this is past the window, to the row above it with everything moved up. -/
def MovesOn (h w : ℕ) (blank : α) (W W' : ℕ → α) (o' target : ℕ) : Prop :=
  o' + w * (target / (h * w)) = target ∧ ∀ j < h * w, W' j =
    if j + w * (target / (h * w)) < h * w then W (j + w * (target / (h * w))) else blank

theorem linear_lt (i : Fin h) (j : Fin w) : w * i + j < h * w :=
  calc w * i + j < w * i + w := Nat.add_lt_add_left j.isLt _
    _ = (i + 1) * w := by ring
    _ ≤ h * w := Nat.mul_le_mul_right w i.isLt

/-- The linear index determines the cell. -/
theorem linear_inj {i i' : Fin h} {j j' : Fin w} (heq : w * i + j = w * i' + j') :
    i = i' ∧ j = j' := by
  have hdiv : ∀ (a : Fin h) (b : Fin w), (w * a + b) / w = a := fun a b => by
    rw [Nat.mul_add_div (Fin.pos b), Nat.div_eq_of_lt b.isLt, Nat.add_zero]
  have hi : i = i' := Fin.ext (by rw [← hdiv i j, heq, hdiv])
  subst hi
  exact ⟨rfl, Fin.ext (Nat.add_left_cancel heq)⟩

section Shows

variable {W W' : ℕ → α} {o o' : ℕ} {blank : α} {s : Screen h w α}

/-- Writing the cell at the offset. -/
theorem Shows.set (hs : Shows W o s) {a : α}
    (hW : ∀ j, W' j = if j = o then a else W j) : Shows W' o (s.set a) := by
  refine ⟨?_, hs.cursor_eq⟩
  intro i j
  rw [hW, hs.cursor_eq]
  change (if i = s.row ∧ j = s.column then a else s.cells i j) = _
  by_cases hij : i = s.row ∧ j = s.column
  · rw [if_pos hij, hij.1, hij.2, if_pos rfl]
  · rw [if_neg hij, if_neg fun heq => hij (linear_inj heq), hs.cells_eq]

/-- Moving on inside the window: only the cursor changes. -/
theorem Shows.movesOn_inside (hs : Shows W o s) {t : Screen h w α}
    (ht : t.cells = s.cells) {target : ℕ} (hlt : target < h * w)
    (hcursor : target = w * t.row + t.column) (hm : MovesOn h w blank W W' o' target) :
    Shows W' o' t := by
  obtain ⟨ho, hW⟩ := hm
  rw [Nat.div_eq_of_lt hlt, Nat.mul_zero] at ho hW
  refine ⟨?_, by omega⟩
  intro i j
  rw [hW _ (linear_lt i j), Nat.add_zero, if_pos (linear_lt i j), ht, hs.cells_eq]

/-- Moving on past the window scrolls it. -/
theorem Shows.movesOn_scroll (hs : Shows W o s) {t : Screen h w α}
    (ht : t.cells = (s.scroll blank).cells) (hcursor : w * (t.row + 1) + t.column = h * w)
    (hm : MovesOn h w blank W W' o' (h * w)) : Shows W' o' t := by
  have hpos : 0 < h * w := lt_of_le_of_lt (Nat.zero_le _) (linear_lt t.row t.column)
  obtain ⟨ho, hW⟩ := hm
  rw [Nat.div_self hpos, Nat.mul_one] at ho hW
  refine ⟨?_, ?_⟩
  · intro i j
    -- row `i` shows what row `i + 1` showed
    have hnext : w * i + j + w = w * (i + 1) + j := by ring
    rw [hW _ (linear_lt i j), ht]
    change (if hi : i.val + 1 < h then s.cells ⟨i + 1, hi⟩ j else blank) = _
    by_cases hi : i.val + 1 < h
    · rw [dif_pos hi, hs.cells_eq, if_pos (by rw [hnext]; exact linear_lt ⟨i + 1, hi⟩ j), hnext]
    · have hlast : h * w = w * i + w := by
        calc h * w = (i.val + 1) * w := by rw [show i.val + 1 = h by omega]
          _ = w * i + w := by ring
      rw [dif_neg hi, if_neg (by omega)]
  · -- one row up, the target is the cursor
    have hrow : w * (t.row + 1) = w * t.row + w := by ring
    omega

/-- **The start of the next row.** -/
theorem Shows.newLine [NeZero w] (hs : Shows W o s)
    (hm : MovesOn h w blank W W' o' (w * (s.row + 1))) : Shows W' o' (s.newLine blank) := by
  unfold Screen.newLine lineFeed
  by_cases hr : s.row.val + 1 < h
  · rw [dif_pos (show s.carriageReturn.row.val + 1 < h from hr)]
    -- the row below is still inside the grid
    refine hs.movesOn_inside rfl ?_ ?_ hm
    · exact linear_lt (⟨s.row + 1, hr⟩ : Fin h) (0 : Fin w)
    · rfl
  · -- from the last row the target is the end of the window
    have hlast : w * (s.row + 1) = h * w := by
      rw [show s.row.val + 1 = h by omega, Nat.mul_comm]
    rw [dif_neg (show ¬ s.carriageReturn.row.val + 1 < h from hr)]
    rw [hlast] at hm
    exact hs.movesOn_scroll rfl hlast hm

/-- **One cell on.** -/
theorem Shows.advance [NeZero w] (hs : Shows W o s) (hm : MovesOn h w blank W W' o' (o + 1)) :
    Shows W' o' (s.advance blank) := by
  unfold Screen.advance
  by_cases hc : s.column.val + 1 < w
  · have hcursor : o + 1 = w * s.row + (s.column + 1) := by rw [hs.cursor_eq]; rfl
    rw [dif_pos hc]
    refine hs.movesOn_inside rfl ?_ hcursor hm
    rw [hcursor]
    exact linear_lt s.row ⟨s.column + 1, hc⟩
  · -- the last column: the target is the start of the next row
    have htarget : o + 1 = w * (s.row + 1) := by
      rw [hs.cursor_eq, Nat.mul_add, Nat.mul_one]
      have := s.column.isLt
      omega
    rw [dif_neg hc]
    rw [htarget] at hm
    exact hs.newLine hm

theorem Shows.write [NeZero w] (hs : Shows W o s) {a : α} {W₁ : ℕ → α}
    (hW : ∀ j, W₁ j = if j = o then a else W j) (hm : MovesOn h w blank W₁ W' o' (o + 1)) :
    Shows W' o' (s.write blank a) := (hs.set hW).advance hm

theorem Shows.clear [NeZero h] [NeZero w] (hW : ∀ j < h * w, W j = blank) :
    Shows W 0 (Screen.clear blank : Screen h w α) :=
  ⟨fun i j => (hW _ (linear_lt i j)).symm, rfl⟩

/-- A window shows one screen. -/
theorem Shows.unique {t : Screen h w α} (hs : Shows W o s) (ht : Shows W o t) : s = t := by
  obtain ⟨hrow, hcolumn⟩ := linear_inj (hs.cursor_eq.symm.trans ht.cursor_eq)
  cases s
  cases t
  congr 1
  funext i j
  exact (hs.cells_eq i j).trans (ht.cells_eq i j).symm

end Shows

end Screen
end Framework
