import BareMetal.Io.JumpRows

/-!
# Many steps at once

`move_cursor_left_n(n)` stands for `n` calls of `move_backwards`, and
`move_cursor_right_n(n)` for `n` calls of `move_forward`. Inside the window the single
steps only walk through its cells (`iterate_moveBackwards`, `iterate_moveForward`). The
jump finds the same cell, but it takes the difference of the rows from the base row as
well, and the position counts both. So the two agree exactly when the jump does not leave
its row (`jump_eq_steps_iff`).
-/

namespace BareMetal
namespace Vga

variable {v : Vga}

theorem row_column_offset (hcol : v.column < vgaWidth) :
    { v with row := v.offset / 80, column := v.offset % 80 : Vga } = v := by
  unfold vgaWidth at hcol
  have hrow : v.offset / 80 = v.row := by
    unfold offset
    omega
  have hcolumn : v.offset % 80 = v.column := by
    unfold offset
    omega
  rw [hrow, hcolumn]

section Steps

variable (hbase : v.baseRow ≤ baseRowMax) (hrow : v.row < vgaHeight) (hcol : v.column < vgaWidth)

include hrow hcol in
theorem offset_lt : v.offset < 2000 := by
  unfold vgaHeight at hrow
  unfold vgaWidth at hcol
  unfold offset
  omega

include hbase hcol

include hrow in
/-- **Steps back** walk through the cells of the window. -/
theorem iterate_moveBackwards {n : ℕ} (hn : n ≤ v.offset) :
    moveBackwards^[n] v = { v with row := (v.offset - n) / 80, column := (v.offset - n) % 80 } := by
  have hoffset := offset_lt hrow hcol
  induction n with
  | zero => exact (row_column_offset hcol).symm
  | succ n ih =>
    let w : Vga := { v with row := (v.offset - n) / 80, column := (v.offset - n) % 80 }
    have hw : w.offset = v.offset - n := offset_cursor v _
    calc moveBackwards^[n + 1] v
        = (moveBackwards^[n] v).moveBackwards := Function.iterate_succ_apply' _ n v
      _ = w.moveBackwards := congrArg moveBackwards (ih (by omega))
      _ = { w with row := (w.offset - 1) / 80, column := (w.offset - 1) % 80 } :=
          moveBackwards_eq hbase (show (v.offset - n) / 80 < 25 by omega)
            (Nat.mod_lt _ (by decide)) (by omega)
      _ = _ := by rw [hw, Nat.sub_sub]

/-- **Steps forward** walk through the cells of the window, as long as they stay in it. -/
theorem iterate_moveForward (tier : Tier) {n : ℕ} (hn : v.offset + n < 2000) :
    (moveForward tier)^[n] v
      = { v with row := (v.offset + n) / 80, column := (v.offset + n) % 80 } := by
  induction n with
  | zero => exact (row_column_offset hcol).symm
  | succ n ih =>
    let w : Vga := { v with row := (v.offset + n) / 80, column := (v.offset + n) % 80 }
    have hw : w.offset = v.offset + n := offset_cursor v _
    let u : Vga := { w with row := (w.offset + 1) / 80, column := (w.offset + 1) % 80 }
    unfold baseRowMax at hbase
    calc (moveForward tier)^[n + 1] v
        = ((moveForward tier)^[n] v).moveForward tier := Function.iterate_succ_apply' _ n v
      _ = w.moveForward tier := congrArg (moveForward tier) (ih (by omega))
      _ = u.scrollOverflow tier :=
          moveForward_eq tier (show (v.offset + n) / 80 < 25 by omega) (Nat.mod_lt _ (by decide))
      -- the cell reached is in the window, so nothing scrolls
      _ = u := scrollOverflow_of_lt tier (show v.baseRow < 2 ^ 8 by omega)
            (show (w.offset + 1) / 80 < 25 by omega)
      _ = _ := by
          change { v with row := (w.offset + 1) / 80, column := (w.offset + 1) % 80 : Vga } = _
          rw [hw, Nat.add_assoc]

end Steps

/-! ### Jumps against steps -/

/-- The cursor of `w` is where that of `u` is. -/
structure SameCursor (w u : Vga) : Prop where
  baseRow_eq : w.baseRow = u.baseRow
  row_eq : w.row = u.row
  column_eq : w.column = u.column

/-- A jump to the cell `n` ends like steps to the cell `n'`, exactly when these are the same
cell and it lies in the row of the cursor. -/
theorem sameCursor_jumpTo_iff (hbase : v.baseRow ≤ baseRowMax) (hrow : v.row < vgaHeight)
    {n n' : ℕ} (hn : n < 2000) (hn' : n' < 2000) :
    SameCursor (v.jumpTo (i16 n)) { v with row := n' / 80, column := n' % 80 } ↔
      n = n' ∧ n' / 80 = v.row := by
  unfold baseRowMax at hbase
  unfold vgaHeight at hrow
  have hjump := baseRow_jump_iff (b := v.baseRow) (r := v.row) (q := n / 80) (by omega) hrow
    (by omega)
  rw [jumpTo_eq v hn]
  constructor
  · rintro ⟨hb, hr, hc⟩
    simp only at hb hr hc
    have hrow' := hjump.mp hb
    omega
  · rintro ⟨rfl, hr⟩
    exact ⟨hjump.mpr hr, rfl, rfl⟩

/-- A cursor that is where the steps lead is at the position they lead to. -/
theorem SameCursor.getPosition_eq {w u : Vga} (h : SameCursor w u) :
    w.getPosition = u.getPosition := by
  unfold getPosition
  rw [h.baseRow_eq, h.row_eq, h.column_eq]

/-- The position of a cell of the window. -/
theorem getPosition_cursor (hbase : v.baseRow ≤ baseRowMax) {n : ℕ} (hn : n < 2000) :
    { v with row := n / 80, column := n % 80 : Vga }.getPosition.toNat
      = 80 * v.baseRow + n := by
  unfold baseRowMax at hbase
  have hposition := getPosition_toNat (v := { v with row := n / 80, column := n % 80 })
    (show v.baseRow < 2 ^ 8 by omega) (show n / 80 < 2 ^ 8 by omega)
    (show n % 80 < 2 ^ 8 by omega)
  rwa [offset_cursor] at hposition

/-- **When a jump is that many steps.** For a cursor inside the window and any base row, and
every count that stays in the window (which the call truncates to 8 bits), the jump ends
where the single steps end, and moves the position by the count, exactly when it stays in
its row. -/
theorem jump_eq_steps_iff (tier : Tier) (hbase : v.baseRow ≤ baseRowMax)
    (hrow : v.row < vgaHeight) (hcol : v.column < vgaWidth) (n : ℕ) :
    (n ≤ v.row * vgaWidth + v.column →
      (SameCursor (v.moveCursorLeftN (u8 n)) (moveBackwards^[n] v) ∧
          (v.moveCursorLeftN (u8 n)).getPosition.toNat + n = v.getPosition.toNat ↔
        n ≤ v.column)) ∧
    (v.row * vgaWidth + v.column + n < vgaHeight * vgaWidth →
      (SameCursor (v.moveCursorRightN (u8 n)) ((moveForward tier)^[n] v) ∧
          (v.moveCursorRightN (u8 n)).getPosition.toNat = v.getPosition.toNat + n ↔
        v.column + n < vgaWidth)) := by
  have hlt := offset_lt hrow hcol
  have hsmall : u8 n ≤ n := Nat.mod_le n _
  have hself : v.getPosition.toNat = 80 * v.baseRow + v.offset := by
    conv_lhs => rw [← row_column_offset hcol]
    exact getPosition_cursor hbase hlt
  have hcolumn : v.offset = 80 * v.row + v.column := rfl
  rw [show v.row * vgaWidth + v.column = v.offset by unfold offset vgaWidth; omega,
    show vgaHeight * vgaWidth = 2000 from rfl]
  unfold vgaWidth at hcol ⊢
  constructor
  · intro hn
    have hposition := getPosition_cursor hbase (show v.offset - n < 2000 by omega)
    rw [iterate_moveBackwards hbase hrow hcol hn, moveCursorLeftN_eq (hsmall.trans hn)]
    calc _ ↔ SameCursor (v.jumpTo (i16 (v.offset - u8 n : ℕ)))
          { v with row := (v.offset - n) / 80, column := (v.offset - n) % 80 } :=
          and_iff_left_of_imp fun h => by
            rw [h.getPosition_eq, hposition, hself]
            omega
      _ ↔ v.offset - u8 n = v.offset - n ∧ (v.offset - n) / 80 = v.row :=
          sameCursor_jumpTo_iff hbase hrow (by omega) (by omega)
      -- a truncated count leads to another cell
      _ ↔ n ≤ v.column := by
          unfold u8
          omega
  · intro hn
    have hposition := getPosition_cursor hbase hn
    rw [iterate_moveForward hbase hcol tier hn, moveCursorRightN_eq]
    calc _ ↔ SameCursor (v.jumpTo (i16 (v.offset + u8 n : ℕ)))
          { v with row := (v.offset + n) / 80, column := (v.offset + n) % 80 } :=
          and_iff_left_of_imp fun h => by
            rw [h.getPosition_eq, hposition, hself]
            omega
      _ ↔ v.offset + u8 n = v.offset + n ∧ (v.offset + n) / 80 = v.row :=
          sameCursor_jumpTo_iff hbase hrow (by omega) (by omega)
      _ ↔ v.column + n < 80 := by
          unfold u8
          omega

/-- In the middle of a row the two agree. -/
theorem jump_eq_steps_iff_row :
    let v : Vga := { Vga.init (fun _ => 0) ⟨0, fun _ => 0⟩ with row := 3, column := 40 }
    SameCursor (v.moveCursorLeftN (u8 7)) (moveBackwards^[7] v) :=
  (((jump_eq_steps_iff .gpr (v := { Vga.init (fun _ => 0) ⟨0, fun _ => 0⟩ with
    row := 3, column := 40 }) (by decide) (by decide) (by decide) 7).1 (by decide)).mpr
      (by decide)).1

/-- **A jump over a row border is not its steps.** At the start of row 1, one step back
leads to the end of row 0, and leaves the base row alone; the jump takes one from it. -/
theorem jump_left_overshoots :
    let v := (Vga.init (fun _ => 0) ⟨0, fun _ => 0⟩).moveToNextLine .gpr
    v.baseRow ≤ baseRowMax ∧ v.row < vgaHeight ∧ v.column < vgaWidth ∧
      1 ≤ v.row * vgaWidth + v.column ∧ (moveBackwards^[1] v).baseRow = 0 ∧
      (v.moveCursorLeftN 1).baseRow = 255 ∧
      ¬ (SameCursor (v.moveCursorLeftN 1) (moveBackwards^[1] v) ∧
        (v.moveCursorLeftN 1).getPosition.toNat + 1 = v.getPosition.toNat) := by
  refine ⟨by decide, by decide, by decide, by decide, rfl, rfl, ?_⟩
  rintro ⟨hsame, -⟩
  exact absurd hsame.baseRow_eq (by decide)

end Vga
end BareMetal
