import BareMetal.Framework.Machine
import BareMetal.Framework.Screen
import BareMetal.Io.Window

/-!
# The text buffer is a plain terminal

What a program that prints can rely on: the text buffer behaves as a terminal of 25
rows and 80 columns that scrolls. `PlainTerminal` is that terminal, a
`Framework.Screen` of cells with a current colour, and `Vga.abstraction` reads it off
a state of the buffer: the cells of the video rows from the base row on, the cursor
and the active colour.

`textBuffer_refines_plainTerminal` says that every run of the buffer is a run of the
terminal. The base row, the copy back to the top of video memory and the tier that
does it cannot be seen in it.
-/

namespace BareMetal

open Framework

/-- The operations of a program that prints. -/
inductive TextOp where
  | clear
  | put (c : BitVec 8)
  | moveToNextLine
  | lineStart
  | setColorCode (color : BitVec 8)
  deriving DecidableEq

/-- A terminal of 25 rows and 80 columns, with the colour it writes in. -/
structure PlainTerminal where
  screen : Screen 25 80 Cell
  color : BitVec 8

/-- The operations of the terminal. Lines scrolled in are blank in the default colour,
whatever the current colour is. -/
def PlainTerminal.apply (t : PlainTerminal) : TextOp → PlainTerminal
  | .clear => { t with screen := .clear .blank }
  | .put c => { t with screen := t.screen.write .blank ⟨c, t.color⟩ }
  | .moveToNextLine => { t with screen := t.screen.newLine .blank }
  | .lineStart => { t with screen := t.screen.carriageReturn }
  | .setColorCode color => { t with color := color }

/-- The cleared terminal. -/
def PlainTerminal.start (color : BitVec 8) : PlainTerminal := ⟨.clear .blank, color⟩

namespace Vga

/-- The operations of the buffer. -/
def apply (tier : Tier) (v : Vga) : TextOp → Vga
  | .clear => v.clear tier
  | .put c => v.put tier c
  | .moveToNextLine => v.moveToNextLine tier
  | .lineStart => v.lineStart
  | .setColorCode color => v.setColorCode color

/-- The terminal that a state shows: the video rows from the base row on, the cursor
and the colour. -/
def abstraction (v : Vga) : PlainTerminal where
  screen :=
    { cells := fun i j => cellAt v.mem (80 * (v.baseRow + i) + j)
      row := Fin.ofNat 25 v.row
      column := Fin.ofNat 80 v.column }
  color := v.activeColor

/-- The state with an empty record of accesses. -/
def unrecorded (v : Vga) : Vga := { v with loads := [], stores := [] }

/-- Every access recorded is to a cell of the text window. -/
def InTextWindow (v : Vga) : Prop :=
  AccessesIn vgaBase (vgaBase + 2 * 16384) v.loads ∧
    ∀ b ∈ v.stores, AccessesIn vgaBase (vgaBase + 2 * 16384) b.2

theorem Touches.inTextWindow {v : Vga} (h : v.Touches) : v.InTextWindow := by
  refine ⟨h.loads_in, ?_⟩
  intro b hb
  obtain ⟨hmax, hin⟩ := h.stores_in b hb
  unfold baseRowMax at hmax
  exact hin.mono (by omega) (by omega)

theorem touches_unrecorded (v : Vga) : v.unrecorded.Touches :=
  ⟨AccessesIn.nil _ _, fun _ hb => absurd hb List.not_mem_nil⟩

/-! ### The simulation -/

/-- The window and the offset show the abstraction. -/
theorem Rep.shows {v : Vga} (h : v.Rep) : Screen.Shows v.window v.offset v.abstraction.screen := by
  have hrow : v.row % 25 = v.row := Nat.mod_eq_of_lt h.row_lt
  have hcolumn : v.column % 80 = v.column := Nat.mod_eq_of_lt h.column_lt
  refine ⟨?_, ?_⟩
  · intro i j
    change cellAt v.mem _ = cellAt v.mem _
    rw [Nat.mul_add, Nat.add_assoc]
  · change v.offset = 80 * (v.row % 25) + v.column % 80
    rw [hrow, hcolumn]
    rfl

/-- Moving on is moving on in the library's sense. -/
theorem Advanced.movesOn {v v' : Vga} {target k : ℕ} (h : Advanced v v' target k) :
    Screen.MovesOn 25 80 Cell.blank v.window v'.window v'.offset target := by
  have hk := h.scrolled
  subst hk
  exact ⟨h.offset_eq, h.window_eq⟩

/-- **One operation of the buffer is the operation of the terminal.** -/
theorem abstraction_apply (tier : Tier) {v : Vga} (h : v.Rep) (op : TextOp) :
    (v.apply tier op).Rep ∧ (v.Touches → (v.apply tier op).Touches) ∧
      (v.apply tier op).abstraction = v.abstraction.apply op := by
  have hshows := h.shows
  cases op with
  | clear =>
    -- a blank window shows the cleared screen
    obtain ⟨hrep, hblank, htouches⟩ := clear_spec tier v
    refine ⟨hrep, htouches, ?_⟩
    have hscreen := hrep.shows.unique (Screen.Shows.clear hblank)
    exact congrArg (PlainTerminal.mk · v.activeColor) hscreen
  | put c =>
    have hadv := put_advanced tier h c
    refine ⟨hadv.rep, fun ht => hadv.touches (ht.writeCell h c), ?_⟩
    -- writing the cell and moving on are the two steps of `Screen.write`
    have hscreen := hadv.rep.shows.unique (hshows.write (window_writeCell h c) hadv.movesOn)
    have hcolor : (v.put tier c).activeColor = v.activeColor := hadv.activeColor_eq
    exact congrArg₂ PlainTerminal.mk hscreen hcolor
  | moveToNextLine =>
    have hadv := moveToNextLine_advanced tier h
    refine ⟨hadv.rep, hadv.touches, ?_⟩
    -- the target is the start of the row below the cursor's
    have hrow : (v.abstraction.screen.row : ℕ) = v.row := Nat.mod_eq_of_lt h.row_lt
    have hmoves := hadv.movesOn
    rw [← hrow] at hmoves
    exact congrArg₂ PlainTerminal.mk (hadv.rep.shows.unique (hshows.newLine hmoves))
      hadv.activeColor_eq
  | lineStart =>
    have hrep : v.lineStart.Rep :=
      ⟨h.baseRow_le, h.row_lt, show 0 < vgaWidth by decide, h.displayStart_eq⟩
    -- only the column changes
    exact ⟨hrep, fun ht => ⟨ht.loads_in, ht.stores_in⟩, rfl⟩
  | setColorCode color =>
    exact ⟨⟨h.baseRow_le, h.row_lt, h.column_lt, h.displayStart_eq⟩,
      fun ht => ⟨ht.loads_in, ht.stores_in⟩, rfl⟩

end Vga

/-! ### Runs -/

/-- The text buffer as a machine. -/
def textBuffer (tier : Tier) : Machine Vga TextOp Unit where
  step v op := ((), v.apply tier op)

/-- The plain terminal as a machine. -/
def plainTerminal : Machine PlainTerminal TextOp Unit where
  step t op := ((), t.apply op)

/-- **The ring-scrolled buffer is a plain terminal.** Take any state, clear it, and print
by any operations, with any tier. What the window shows is the result of the same
operations on the plain terminal, the base row never passes 179, the display starts
at the base row, and every cell touched is one of the 16384 of the text window. -/
theorem textBuffer_refines_plainTerminal (tier : Tier) (v₀ : Vga) {h : List (TextOp × Unit)}
    {v : Vga} (hrun : (textBuffer tier).Run (v₀.unrecorded.clear tier) h v) :
    plainTerminal.Run (.start v₀.activeColor) h v.abstraction ∧ v.row < 25 ∧ v.column < 80 ∧
      v.baseRow ≤ 179 ∧ (HardwareCursor.displayStart v.crtc).toNat = v.baseRow * 80 ∧
      v.InTextWindow := by
  obtain ⟨hrep₀, hblank, htouches₀⟩ := Vga.clear_spec tier v₀.unrecorded
  obtain ⟨⟨hrep, htouches⟩, hrun'⟩ : (v.Rep ∧ v.Touches) ∧
      plainTerminal.Run (v₀.unrecorded.clear tier).abstraction h v.abstraction :=
    hrun.simulation (I := fun v => v.Rep ∧ v.Touches) Vga.abstraction
      ⟨hrep₀, htouches₀ v₀.touches_unrecorded⟩ fun v op hI _ => by
        obtain ⟨hrep, htouches, habs⟩ := Vga.abstraction_apply tier hI.1 op
        exact ⟨⟨hrep, htouches hI.2⟩, trivial, congrArg (Prod.mk ()) habs.symm⟩
  have hstart : (v₀.unrecorded.clear tier).abstraction = .start v₀.activeColor :=
    congrArg (PlainTerminal.mk · v₀.activeColor) (hrep₀.shows.unique (Screen.Shows.clear hblank))
  rw [hstart] at hrun'
  exact ⟨hrun', hrep.row_lt, hrep.column_lt, hrep.baseRow_le, hrep.displayStart_eq,
    htouches.inTextWindow⟩

/-- A character and a line break after boot. -/
theorem textBuffer_refines_plainTerminal_init :
    plainTerminal.Run (.start defaultColor) [(.put 0x41, ()), (.moveToNextLine, ())]
      ((textBuffer .avx2).exec ((Vga.init (fun _ => 0) ⟨0, fun _ => 0⟩).unrecorded.clear .avx2)
        [.put 0x41, .moveToNextLine]).2.abstraction :=
  (textBuffer_refines_plainTerminal .avx2 (.init (fun _ => 0) ⟨0, fun _ => 0⟩)
    (Machine.run_exec (m := textBuffer .avx2) (fun _ _ => trivial) _
      [TextOp.put 0x41, TextOp.moveToNextLine])).1

end BareMetal
