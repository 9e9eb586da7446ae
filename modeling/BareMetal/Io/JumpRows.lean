import BareMetal.Io.PlainTerminal

/-!
# The representation invariant and the jumps

The public operations of the text buffer, called within the window, keep its
representation invariant, with one exception. `move_cursor_left_n` and
`move_cursor_right_n` take the difference of the old and the new row from the base
row and leave the display start alone. Both are right only when the difference is
zero: `move_backwards`, which moves one cell by hand, changes the base row at row 0
only, and row 0 is never left upwards by a jump inside the window.

`Vga.rep_screenApply_iff` is the step: an operation keeps the invariant exactly when it does not
jump to another row. `rep_along_run_iff` lifts it to runs.
-/

namespace BareMetal

open Framework

/-- The operations that move the cursor. -/
inductive ScreenOp where
  | put (c : BitVec 8)
  | moveForward
  | moveToNextLine
  | lineStart
  | removeLastChar
  | moveBackwards
  | moveCursorLeftN (count : BitVec 8)
  | moveCursorRightN (count : BitVec 8)
  deriving DecidableEq

/-- A call that stays in the window. -/
def ScreenOp.InWindow (v : Vga) : ScreenOp → Prop
  | .removeLastChar | .moveBackwards => 0 < v.offset
  | .moveCursorLeftN count => count.toNat ≤ v.offset
  | .moveCursorRightN count => v.offset + count.toNat < 2000
  | _ => True

/-- A call that does not jump to another row. -/
def ScreenOp.InRow (v : Vga) : ScreenOp → Prop
  | .moveCursorLeftN count => count.toNat ≤ v.column
  | .moveCursorRightN count => v.column + count.toNat < 80
  | _ => True

namespace Vga

/-- The operations of the buffer. -/
def screenApply (tier : Tier) (v : Vga) : ScreenOp → Vga
  | .put c => v.put tier c
  | .moveForward => v.moveForward tier
  | .moveToNextLine => v.moveToNextLine tier
  | .lineStart => v.lineStart
  | .removeLastChar => v.removeLastChar
  | .moveBackwards => v.moveBackwards
  | .moveCursorLeftN count => v.moveCursorLeftN count.toNat
  | .moveCursorRightN count => v.moveCursorRightN count.toNat

/-- The cursor moved inside the window keeps everything. -/
theorem Rep.of_cursor {v : Vga} (h : v.Rep) {n : ℕ} (hn : n < 2000) :
    { v with row := n / 80, column := n % 80 : Vga }.Rep :=
  ⟨h.baseRow_le, show n / 80 < 25 by omega, show n % 80 < 80 by omega, h.displayStart_eq⟩

theorem Rep.moveBackwards {v : Vga} (h : v.Rep) (h₀ : 0 < v.offset) : v.moveBackwards.Rep := by
  have hoffset := h.offset_lt
  rw [moveBackwards_eq h.baseRow_le h.row_lt h.column_lt h₀]
  exact h.of_cursor (by omega)

theorem Touches.moveBackwards {v : Vga} (h : v.Touches) : v.moveBackwards.Touches :=
  ⟨h.loads_in, h.stores_in⟩

theorem Touches.jumpTo {v : Vga} (h : v.Touches) (n : ℤ) : (v.jumpTo n).Touches :=
  ⟨h.loads_in, h.stores_in⟩

/-- The base row after a jump is the one before it exactly when the row is. -/
theorem baseRow_jump_iff {b r q : ℕ} (hb : b < 2 ^ 8) (hr : r < 25) (hq : q < 25) :
    u8Sub b (u8OfInt ((r : ℤ) - (q : ℕ))) = b ↔ q = r := by
  unfold u8Sub u8OfInt
  omega

/-- **A jump keeps the invariant exactly when it stays in its row.** Otherwise the base
row is no longer the one the display controller was told. -/
theorem rep_jumpTo_iff {v : Vga} (h : v.Rep) {n : ℕ} (hn : n < 2000) :
    (v.jumpTo (i16 n)).Rep ↔ n / 80 = v.row := by
  constructor
  · intro hjump
    have hbase := h.baseRow_le
    have hrow := h.row_lt
    unfold baseRowMax at hbase
    unfold vgaHeight at hrow
    have hdisplay := hjump.displayStart_eq
    rw [jumpTo_eq v hn] at hdisplay
    -- the register still holds the old base row
    have hsame : v.baseRow * vgaWidth
        = u8Sub v.baseRow (u8OfInt ((v.row : ℤ) - (n / 80 : ℕ))) * vgaWidth :=
      h.displayStart_eq.symm.trans hdisplay
    rw [Nat.mul_right_cancel_iff (by decide)] at hsame
    exact (baseRow_jump_iff (by omega) (by omega) (by omega)).mp hsame.symm
  · intro hrow
    rw [jumpTo_of_row_eq h hrow]
    exact ⟨h.baseRow_le, h.row_lt, Nat.mod_lt n (by decide), h.displayStart_eq⟩

theorem moveCursorLeftN_eq {v : Vga} {count : ℕ} (h : count ≤ v.offset) :
    v.moveCursorLeftN count = v.jumpTo (i16 (v.offset - count : ℕ)) := by
  unfold moveCursorLeftN
  rw [show (v.row : ℤ) * vgaWidth + v.column - count = (v.offset - count : ℕ) by
    unfold offset vgaWidth at *
    omega]

theorem moveCursorRightN_eq (v : Vga) (count : ℕ) :
    v.moveCursorRightN count = v.jumpTo (i16 (v.offset + count : ℕ)) := by
  unfold moveCursorRightN
  rw [show (v.row : ℤ) * vgaWidth + v.column + count = (v.offset + count : ℕ) by
    unfold offset vgaWidth
    omega]

/-- **The step.** A call in the window keeps the invariant exactly when it does not
jump to another row. -/
theorem rep_screenApply_iff (tier : Tier) {v : Vga} (h : v.Rep) {op : ScreenOp}
    (hop : op.InWindow v) : (v.screenApply tier op).Rep ↔ op.InRow v := by
  have hoffset := h.offset_lt
  have hdiv := h.offset_div
  cases op with
  -- the calls that do not jump keep the invariant
  | put c => exact iff_of_true (put_advanced tier h c).rep trivial
  | moveForward => exact iff_of_true (moveForward_advanced tier h).rep trivial
  | moveToNextLine => exact iff_of_true (moveToNextLine_advanced tier h).rep trivial
  | lineStart =>
    exact iff_of_true
      ⟨h.baseRow_le, h.row_lt, show 0 < vgaWidth by decide, h.displayStart_eq⟩ trivial
  | removeLastChar => exact iff_of_true ((h.moveBackwards hop).writeCell 0x20) trivial
  | moveBackwards => exact iff_of_true (h.moveBackwards hop) trivial
  | moveCursorLeftN count =>
    change (v.moveCursorLeftN count.toNat).Rep ↔ count.toNat ≤ v.column
    -- the target is in the cursor's row if the count is at most the column
    have hcount : count.toNat ≤ v.offset := hop
    rw [moveCursorLeftN_eq hcount, rep_jumpTo_iff h (by omega)]
    omega
  | moveCursorRightN count =>
    change (v.moveCursorRightN count.toNat).Rep ↔ v.column + count.toNat < 80
    -- the target is in the cursor's row if it is left of column 80
    have hcount : v.offset + count.toNat < 2000 := hop
    rw [moveCursorRightN_eq, rep_jumpTo_iff h hcount]
    omega

/-- Every call keeps the recorded accesses where they belong. -/
theorem touches_screenApply (tier : Tier) {v : Vga} (h : v.Rep) (ht : v.Touches) {op : ScreenOp}
    (hop : op.InWindow v) : (v.screenApply tier op).Touches := by
  cases op with
  | put c => exact (put_advanced tier h c).touches (ht.writeCell h c)
  | moveForward => exact (moveForward_advanced tier h).touches ht
  | moveToNextLine => exact (moveToNextLine_advanced tier h).touches ht
  | removeLastChar => exact ht.moveBackwards.writeCell (h.moveBackwards hop) 0x20
  | lineStart => exact ⟨ht.loads_in, ht.stores_in⟩
  | moveBackwards => exact ht.moveBackwards
  | moveCursorLeftN count => exact ht.jumpTo _
  | moveCursorRightN count => exact ht.jumpTo _

end Vga

/-! ### Runs -/

/-- The buffer under calls that stay in the window. -/
def screenBuffer (tier : Tier) : Machine Vga ScreenOp Unit where
  step v op := ((), v.screenApply tier op)
  enabled v op := op.InWindow v

section Runs

variable {tier : Tier} {v₀ v : Vga} {h : List (ScreenOp × Unit)}

/-- Along a run without jumps between rows the invariant holds. -/
theorem rep_of_run (hv₀ : v₀.Rep ∧ v₀.Touches) (hrun : (screenBuffer tier).Run v₀ h v)
    (hrows : ∀ h₁ op h₂ t, h = h₁ ++ (op, ()) :: h₂ → (screenBuffer tier).Run v₀ h₁ t →
      op.InRow t) : v.Rep ∧ v.Touches := by
  induction hrun with
  | nil => exact hv₀
  | @snoc h s op hprev hen ih =>
    obtain ⟨hrep, htouches⟩ := ih fun h₁ op' h₂ t heq ht =>
      hrows h₁ op' (h₂ ++ [(op, ())]) t (by rw [heq, List.append_assoc]; rfl) ht
    have hrow : op.InRow s := hrows h op [] s rfl hprev
    exact ⟨(Vga.rep_screenApply_iff tier hrep hen).mpr hrow,
      Vga.touches_screenApply tier hrep htouches hen⟩

/-- **The invariant along a run.** After `clear`, the invariant holds and every access
stays in the text window in all states of a run of calls within the window, exactly
when no call of the run jumps to another row. -/
theorem rep_along_run_iff (tier : Tier) (v₀ : Vga) {h : List (ScreenOp × Unit)} {v : Vga}
    (hrun : (screenBuffer tier).Run (v₀.unrecorded.clear tier) h v) :
    (∀ h₁ h₂ t, h = h₁ ++ h₂ → (screenBuffer tier).Run (v₀.unrecorded.clear tier) h₁ t →
        t.Rep ∧ t.InTextWindow) ↔
      ∀ h₁ op h₂ t, h = h₁ ++ (op, ()) :: h₂ →
        (screenBuffer tier).Run (v₀.unrecorded.clear tier) h₁ t → op.InRow t := by
  obtain ⟨hrep₀, -, htouches₀⟩ := Vga.clear_spec tier v₀.unrecorded
  constructor
  · intro hall h₁ op h₂ t heq ht
    -- the states before and after the call satisfy the invariant, so it stayed in its row
    have hcut : h = (h₁ ++ [(op, ())]) ++ h₂ := by rw [heq, List.append_assoc]; rfl
    obtain ⟨u, hu, -⟩ := (hcut ▸ hrun).append_inv
    obtain ⟨t', ht', hen, hstep⟩ := hu.snoc_inv
    obtain rfl := ht'.unique ht
    have hu_eq : t'.screenApply tier op = u := congrArg Prod.snd hstep
    have hrep_u := (hall _ h₂ u hcut hu).1
    rw [← hu_eq] at hrep_u
    exact (Vga.rep_screenApply_iff tier (hall h₁ _ t' heq ht).1 hen).mp hrep_u
  · -- the calls of a part of the run are calls of the run
    intro hrows h₁ h₂ t heq ht
    have hkept := rep_of_run ⟨hrep₀, htouches₀ v₀.touches_unrecorded⟩ ht fun h₁' op h₂' t' heq' =>
      hrows h₁' op (h₂' ++ h₂) t' (by rw [heq, heq', List.append_assoc]; rfl)
    exact ⟨hkept.1, hkept.2.inTextWindow⟩

end Runs

/-- Two characters after boot, and a jump back to the first. -/
theorem rep_along_run_iff_init : ∃ v,
    (screenBuffer .simd).Run ((Vga.init (fun _ => 0) ⟨0, fun _ => 0⟩).unrecorded.clear .simd)
      [(.put 0x41, ()), (.put 0x42, ()), (.moveCursorLeftN 2, ())] v ∧
      v.Rep ∧ v.InTextWindow := by
  let s₀ := (Vga.init (fun _ => 0) ⟨0, fun _ => 0⟩).unrecorded.clear .simd
  have hput := Machine.Run.snoc (m := screenBuffer .simd) (ScreenOp.put 0x42)
    (.snoc (ScreenOp.put 0x41) (.nil : (screenBuffer .simd).Run s₀ [] s₀) trivial) trivial
  have hrun := Machine.Run.snoc (m := screenBuffer .simd) (ScreenOp.moveCursorLeftN 2) hput
    (by change 2 ≤ Vga.offset _; decide +kernel)
  refine ⟨_, hrun, (rep_along_run_iff .simd _ hrun).mpr ?_ _ [] _ (List.append_nil _).symm hrun⟩
  intro h₁ op h₂ t heq ht
  rcases h₁ with _ | ⟨e₁, _ | ⟨e₂, _ | ⟨e₃, h₁⟩⟩⟩
  · obtain rfl : ScreenOp.put 0x41 = op := congrArg Prod.fst (List.cons.inj heq).1
    trivial
  · have hrest := (List.cons.inj heq).2
    obtain rfl : ScreenOp.put 0x42 = op := congrArg Prod.fst (List.cons.inj hrest).1
    trivial
  · -- the jump starts in the third column
    obtain ⟨rfl, hrest⟩ := List.cons.inj heq
    obtain ⟨rfl, hlast⟩ := List.cons.inj hrest
    obtain rfl : ScreenOp.moveCursorLeftN 2 = op := congrArg Prod.fst (List.cons.inj hlast).1
    rw [ht.unique hput]
    change 2 ≤ Vga.column _
    decide +kernel
  · exact absurd (congrArg List.length heq) (by simp)

/-- **A jump over a row border breaks the buffer.** After a line break, one cell to the
left is a cell of the window; the jump there leaves base row 255, and the next cell
written is outside the text window. -/
theorem jump_breaks_rep : ∃ v,
    (screenBuffer .gpr).Run ((Vga.init (fun _ => 0) ⟨0, fun _ => 0⟩).unrecorded.clear .gpr)
      [(.moveToNextLine, ()), (.moveCursorLeftN 1, ())] v ∧
      v.baseRow = 255 ∧ ¬ v.Rep ∧ vgaBase + 2 * 16384 ≤ v.cell := by
  refine ⟨_, .snoc (ScreenOp.moveCursorLeftN 1)
    (.snoc (h := []) ScreenOp.moveToNextLine .nil trivial) (show 1 ≤ 80 by decide), rfl,
    ?_, ?_⟩
  · intro h
    exact absurd (show 255 ≤ 179 from h.baseRow_le) (by decide)
  · change vgaBase + 2 * 16384 ≤ vgaBase + (BitVec.ofNat 16 ((255 + 0) * 80 + 79)).toNat <<< 1
    decide

end BareMetal
