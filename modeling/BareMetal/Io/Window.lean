import BareMetal.Io.Cells

/-!
# The displayed window

The 2000 cells from the base row on are what the display shows (`Vga.window`), and
the cursor is the cell `Vga.offset` of them. The operations are described in these
terms. An operation that moves the cursor on has a target, the offset it would
reach in an endless window; when the target is the end of the window, everything
moves up by one row, whether the base row is advanced or what is displayed is
copied back to the top (`Advanced`, `scrollOverflow_advanced`).

* `Vga.Rep` is the representation invariant: the fields are in range, and the
  display controller was told the base row.
* `Vga.Touches` says where the recorded loads and stores lie: the loads in the text
  window, the stores of a batch in the window they draw.
-/

namespace BareMetal

open Framework

namespace Vga

/-- The cell `j` of the displayed window, in reading order. -/
def window (v : Vga) (j : ℕ) : Cell := cellAt v.mem (80 * v.baseRow + j)

/-- The cell of the window the cursor is at. -/
def offset (v : Vga) : ℕ := 80 * v.row + v.column

/-- The representation invariant. -/
structure Rep (v : Vga) : Prop where
  baseRow_le : v.baseRow ≤ baseRowMax
  row_lt : v.row < vgaHeight
  column_lt : v.column < vgaWidth
  displayStart_eq : (HardwareCursor.displayStart v.crtc).toNat = v.baseRow * vgaWidth

/-- Where the recorded accesses lie. -/
structure Touches (v : Vga) : Prop where
  loads_in : AccessesIn vgaBase (vgaBase + 0x8000) v.loads
  stores_in : ∀ b ∈ v.stores, b.1 ≤ baseRowMax ∧
    AccessesIn (vgaBase + 160 * b.1) (vgaBase + 160 * (b.1 + 25)) b.2

/-- From `v` to `v'` the cursor moved on to the offset `target`, and the window moved
up by `k` rows for it. -/
structure Advanced (v v' : Vga) (target k : ℕ) : Prop where
  rep : v'.Rep
  scrolled : k = target / 2000
  offset_eq : v'.offset + 80 * k = target
  window_eq : ∀ j < 2000,
    v'.window j = if j + 80 * k < 2000 then v.window (j + 80 * k) else Cell.blank
  activeColor_eq : v'.activeColor = v.activeColor
  cursor_eq : HardwareCursor.cursorPosition v'.crtc = HardwareCursor.cursorPosition v.crtc
  scrolls_eq : v'.scrolls = v.scrolls + k
  touches : v.Touches → v'.Touches

/-! ### Positions -/

theorem getPosition_toNat {v : Vga} (hbase : v.baseRow < 2 ^ 8) (hrow : v.row < 2 ^ 8)
    (hcol : v.column < 2 ^ 8) : v.getPosition.toNat = 80 * v.baseRow + v.offset := by
  unfold getPosition offset vgaWidth
  rw [BitVec.toNat_ofNat, Nat.mod_eq_of_lt (by omega)]
  omega

theorem cell_eq {v : Vga} (hbase : v.baseRow < 2 ^ 8) (hrow : v.row < 2 ^ 8)
    (hcol : v.column < 2 ^ 8) : v.cell = vgaBase + 2 * (80 * v.baseRow + v.offset) := by
  unfold cell
  rw [getPosition_toNat hbase hrow hcol, Nat.shiftLeft_eq]
  omega

theorem Rep.offset_lt {v : Vga} (h : v.Rep) : v.offset < 2000 := by
  have hrow := h.row_lt
  have hcol := h.column_lt
  unfold vgaHeight at hrow
  unfold vgaWidth at hcol
  unfold offset
  omega

/-- The row and the column are recovered from the offset. -/
theorem Rep.offset_div {v : Vga} (h : v.Rep) :
    v.offset / 80 = v.row ∧ v.offset % 80 = v.column := by
  have hcol := h.column_lt
  unfold vgaWidth at hcol
  unfold offset
  omega

theorem Rep.getPosition_toNat {v : Vga} (h : v.Rep) :
    v.getPosition.toNat = 80 * v.baseRow + v.offset := by
  have hbase := h.baseRow_le
  have hrow := h.row_lt
  have hcol := h.column_lt
  unfold baseRowMax at hbase
  unfold vgaHeight at hrow
  unfold vgaWidth at hcol
  exact Vga.getPosition_toNat (by omega) (by omega) (by omega)

theorem Rep.cell_eq {v : Vga} (h : v.Rep) :
    v.cell = vgaBase + 2 * (80 * v.baseRow + v.offset) := by
  unfold cell
  rw [h.getPosition_toNat, Nat.shiftLeft_eq]
  omega

/-- A batch of stores inside the window it draws may be recorded. -/
theorem Touches.draw {v v' : Vga} {b : ℕ} {accesses : List Access} (h : v.Touches)
    (hloads : v'.loads = v.loads) (hstores : v'.stores = (b, accesses) :: v.stores)
    (hb : b ≤ baseRowMax)
    (hin : AccessesIn (vgaBase + 160 * b) (vgaBase + 160 * (b + 25)) accesses) : v'.Touches := by
  refine ⟨hloads ▸ h.loads_in, ?_⟩
  intro s hs
  rw [hstores] at hs
  rcases List.mem_cons.mp hs with rfl | hs
  · exact ⟨hb, hin⟩
  · exact h.stores_in s hs

/-! ### Writing a cell -/

/-- **Writing at the cursor changes one cell of the window.** -/
theorem window_writeCell {v : Vga} (h : v.Rep) (c : BitVec 8) (j : ℕ) :
    (v.writeCell c).window j = if j = v.offset then ⟨c, v.activeColor⟩ else v.window j := by
  unfold window writeCell
  simp only
  rw [h.cell_eq, cellAt_store]
  by_cases hj : j = v.offset
  · rw [if_pos hj, if_pos (by omega)]
  · rw [if_neg hj, if_neg (by omega)]

theorem Rep.writeCell {v : Vga} (h : v.Rep) (c : BitVec 8) : (v.writeCell c).Rep :=
  ⟨h.baseRow_le, h.row_lt, h.column_lt, h.displayStart_eq⟩

theorem Touches.writeCell {v : Vga} (hv : v.Rep) (h : v.Touches) (c : BitVec 8) :
    (v.writeCell c).Touches := by
  have hoffset := hv.offset_lt
  refine h.draw rfl rfl hv.baseRow_le (.cons ?_ ?_ ?_ (.nil _ _))
  · simp only [hv.cell_eq]
    omega
  · simp only [hv.cell_eq]
    omega
  · intro h16
    exact absurd (show 16 ≤ 2 from h16) (by decide)

/-! ### Scrolling -/

/-- `clear_row`, on the row that came into view, blanks the last row of the window. -/
theorem clearRow_spec (tier : Tier) {v : Vga} (hbase : v.baseRow ≤ baseRowMax) (hrow : v.row = 24)
    (hcol : v.column = 0) :
    (∀ j < 2000, (v.clearRow tier).window j = if j < 1920 then v.window j else Cell.blank) ∧
      (v.Touches → (v.clearRow tier).Touches) := by
  have hbase' := hbase
  unfold baseRowMax at hbase'
  -- the cursor is at the first cell of the row
  have hcell : v.cell = vgaBase + 160 * (v.baseRow + 24) := by
    rw [cell_eq (by omega) (by omega) (by omega)]
    unfold offset
    omega
  obtain ⟨hcells, hstores⟩ := fillEntries_cells v.mem tier (v.baseRow + 24) 1
  rw [← hcell] at hcells hstores
  constructor
  · intro j hj
    refine (hcells (80 * v.baseRow + j)).trans ?_
    by_cases hlast : j < 1920
    · rw [if_pos hlast, if_neg (by omega)]
      rfl
    · rw [if_neg hlast, if_pos (by omega)]
  · exact fun h => h.draw rfl rfl hbase (hstores.mono (by omega) (by omega))

/-- `reset`, with the window just past the last base row, keeps what the window shows
and blanks its last row. The copy reads rows 180 to 203. -/
theorem reset_spec (tier : Tier) {v : Vga} (hbase : v.baseRow = 180) :
    (∀ j < 2000, (v.reset tier).window j = if j < 1920 then v.window j else Cell.blank) ∧
      (v.Touches → (v.reset tier).Touches) := by
  obtain ⟨hdst, hcopied, hloads, hcopyStores⟩ :=
    copyEntries_cells v.mem tier (s := 180) (r := 1) (n := 24) (by decide)
  obtain ⟨hfilled, hfillStores⟩ := fillEntries_cells
    (copyEntries tier v.mem (vgaBase + 160 * 180) (vgaBase + 160 * 1) (160 * 24)).mem tier 25 1
  -- the pointer arithmetic of the source, in rows
  have hreset : v.reset tier =
      let copied := copyEntries tier v.mem (vgaBase + 160 * 180) (vgaBase + 160 * 1) (160 * 24)
      let filled := fillEntries tier copied.mem (vgaBase + 160 * 25) (160 * 1) blankEntry32
      { v with
        baseRow := 1
        row := 24
        mem := filled.mem
        loads := copied.loads ++ v.loads
        stores := (1, filled.stores ++ copied.stores) :: v.stores } := by
    simp only
    rw [← hdst]
    unfold reset
    rw [hbase]
    rfl
  rw [hreset]
  constructor
  · intro j hj
    refine (hfilled (80 * 1 + j)).trans ?_
    by_cases hlast : j < 1920
    · rw [if_pos hlast, if_neg (by omega), hcopied, if_pos (by omega)]
      unfold window
      rw [hbase]
      congr 1
      omega
    · rw [if_neg hlast, if_pos (by omega)]
  · intro h
    -- rows 1 to 24 are copied, row 25 is filled: the window with base row 1
    have hdrawn : AccessesIn (vgaBase + 160 * 1) (vgaBase + 160 * (1 + 25)) _ :=
      (hfillStores.mono (by decide) (by decide)).append (hcopyStores.mono (by decide) (by decide))
    refine ⟨(hloads.mono (by omega) (by omega)).append h.loads_in, ?_⟩
    intro s hs
    rcases List.mem_cons.mp hs with rfl | hs
    · exact ⟨show 1 ≤ baseRowMax by decide, hdrawn⟩
    · exact h.stores_in s hs

theorem scrollOverflow_of_lt (tier : Tier) {v : Vga} (hbase : v.baseRow < 2 ^ 8)
    (hrow : v.row < vgaHeight) : v.scrollOverflow tier = v := by
  have hne : (v.row == vgaHeight) = false := by
    rw [beq_eq_false_iff_ne]
    omega
  unfold vgaHeight at hrow
  have hb : u8 (v.baseRow + 0) = v.baseRow := Nat.mod_eq_of_lt hbase
  have hr : u8Sub v.row 0 = v.row := by
    unfold u8Sub
    omega
  simp only [scrollOverflow, hne, Bool.toNat_false, hb, hr]
  rfl

/-- A row past the last one: the base row goes up, the new last row is blanked or the
window is moved back, and the display controller is told. -/
theorem scrollOverflow_of_eq (tier : Tier) {v : Vga} (hbase : v.baseRow ≤ baseRowMax)
    (hrow : v.row = vgaHeight) :
    v.scrollOverflow tier =
      let w := { v with baseRow := v.baseRow + 1, row := 24 }
      let u := if baseRowMax < v.baseRow + 1 then w.reset tier else w.clearRow tier
      { u.setDisplayStart (u.baseRow * vgaWidth) with scrolls := u.scrolls + 1 } := by
  have heq : (v.row == vgaHeight) = true := by rw [hrow, beq_self_eq_true]
  unfold baseRowMax at hbase
  have hb : u8 (v.baseRow + 1) = v.baseRow + 1 := Nat.mod_eq_of_lt (by omega)
  have hr : u8Sub v.row 1 = 24 := by rw [hrow]; rfl
  simp only [scrollOverflow, heq, Bool.toNat_true, hb, hr]
  rfl

theorem displayStart_toNat {b : ℕ} (c : Crtc) (hb : b ≤ baseRowMax) :
    (HardwareCursor.displayStart (HardwareCursor.setDisplayStart c
      (BitVec.ofNat 16 (b * vgaWidth)))).toNat = b * vgaWidth := by
  unfold baseRowMax at hb
  rw [HardwareCursor.displayStart_setDisplayStart, BitVec.toNat_ofNat]
  exact Nat.mod_eq_of_lt (by unfold vgaWidth; omega)

/-- Room for a last row, made by blanking the one that came into view or by moving the
window back to the top: the cursor is at the start of the last row of a window that
shows what it showed before above it. -/
theorem makeRoom_spec (tier : Tier) {w : Vga} (hbase : w.baseRow ≤ baseRowMax + 1)
    (hrow : w.row = 24) (hcol : w.column = 0) :
    let u := if baseRowMax < w.baseRow then w.reset tier else w.clearRow tier
    (u.baseRow ≤ baseRowMax ∧ u.row = 24 ∧ u.column = 0) ∧
      (u.activeColor = w.activeColor ∧ u.crtc = w.crtc ∧ u.scrolls = w.scrolls) ∧
      (∀ j < 2000, u.window j = if j < 1920 then w.window j else Cell.blank) ∧
      (w.Touches → u.Touches) := by
  by_cases hmax : baseRowMax < w.baseRow
  -- at the end of the buffer the window moves to its start
  · have hbase180 : w.baseRow = 180 := by
      unfold baseRowMax at hbase hmax
      omega
    obtain ⟨hwindow, htouches⟩ := reset_spec tier hbase180
    rw [if_pos hmax]
    exact ⟨⟨show 1 ≤ baseRowMax by decide, rfl, hcol⟩, ⟨rfl, rfl, rfl⟩, hwindow, htouches⟩
  -- before that only the new row is cleared
  · have hbase' : w.baseRow ≤ baseRowMax := Nat.not_lt.mp hmax
    obtain ⟨hwindow, htouches⟩ := clearRow_spec tier hbase' hrow hcol
    rw [if_neg hmax]
    exact ⟨⟨hbase', hrow, hcol⟩, ⟨rfl, rfl, rfl⟩, hwindow, htouches⟩

/-- **Scrolling is invisible.** From a cursor that may stand at the end of the window,
the window moves up by one row if it does, with either way of making room. -/
theorem scrollOverflow_advanced (tier : Tier) {v : Vga} (hbase : v.baseRow ≤ baseRowMax)
    (hrow : v.row ≤ vgaHeight) (hcol : v.column < vgaWidth)
    (hend : v.row = vgaHeight → v.column = 0)
    (hdisplay : (HardwareCursor.displayStart v.crtc).toNat = v.baseRow * vgaWidth) :
    Advanced v (v.scrollOverflow tier) v.offset (v.offset / 2000) := by
  by_cases hlt : v.row < vgaHeight
  · -- inside the window nothing happens
    have hrep : v.Rep := ⟨hbase, hlt, hcol, hdisplay⟩
    have hk : v.offset / 2000 = 0 := Nat.div_eq_of_lt hrep.offset_lt
    rw [scrollOverflow_of_lt tier (lt_of_le_of_lt hbase (by decide)) hlt, hk]
    refine ⟨hrep, hk.symm, rfl, ?_, rfl, rfl, rfl, id⟩
    intro j hj
    rw [if_pos (by omega)]
    rfl
  · have heq : v.row = vgaHeight := by omega
    have hcol₀ := hend heq
    have hoffset : v.offset = 2000 := by
      unfold offset
      rw [heq, hcol₀]
      rfl
    rw [scrollOverflow_of_eq tier hbase heq, hoffset]
    simp only
    set w : Vga := { v with baseRow := v.baseRow + 1, row := 24 } with hw
    -- one row further, the window is the old one moved up
    have hshift : ∀ j, w.window j = v.window (j + 80) := fun j => by
      unfold window
      rw [hw]
      simp only
      congr 1
      omega
    obtain ⟨⟨hbase', hrow', hcol'⟩, ⟨hcolor, hcrtc, hscrolls⟩, hwindow, htouches⟩ :=
      makeRoom_spec tier (w := w) (Nat.succ_le_succ hbase) rfl hcol₀
    set u := if baseRowMax < v.baseRow + 1 then w.reset tier else w.clearRow tier
    refine ⟨⟨hbase', ?_, ?_, displayStart_toNat _ hbase'⟩, rfl, ?_, ?_, hcolor, ?_, ?_,
      ?_⟩
    · exact lt_of_le_of_lt (le_of_eq hrow') (by decide)
    · exact lt_of_le_of_lt (le_of_eq hcol') (by decide)
    · change 80 * u.row + u.column + 80 * 1 = 2000
      omega
    · intro j hj
      refine (hwindow j hj).trans ?_
      rw [hshift]
      exact if_congr (by omega) rfl rfl
    · exact (HardwareCursor.cursorPosition_setDisplayStart _ _).trans
        (congrArg HardwareCursor.cursorPosition hcrtc)
    · exact congrArg (· + 1) hscrolls
    · intro h
      obtain ⟨hloads, hstores⟩ := htouches ⟨h.loads_in, h.stores_in⟩
      exact ⟨hloads, hstores⟩

/-! ### The operations -/

/-- Moving the cursor first changes neither the window nor the rest. -/
theorem Advanced.of_cursor {v v' : Vga} {r c target k : ℕ}
    (h : Advanced { v with row := r, column := c } v' target k) : Advanced v v' target k :=
  ⟨h.rep, h.scrolled, h.offset_eq, h.window_eq, h.activeColor_eq, h.cursor_eq, h.scrolls_eq,
    fun hv => h.touches ⟨hv.loads_in, hv.stores_in⟩⟩

theorem offset_cursor (v : Vga) (n : ℕ) :
    { v with row := n / 80, column := n % 80 : Vga }.offset = n := Nat.div_add_mod n 80

/-- The carry of `move_forward` from the column into the row. -/
theorem moveForward_eq (tier : Tier) {v : Vga} (hrow : v.row < vgaHeight)
    (hcol : v.column < vgaWidth) : v.moveForward tier =
      { v with row := (v.offset + 1) / 80, column := (v.offset + 1) % 80 : Vga }.scrollOverflow
        tier := by
  unfold vgaHeight at hrow
  unfold vgaWidth at hcol
  have hu : u8 (v.column + 1) = v.column + 1 := Nat.mod_eq_of_lt (by omega)
  by_cases hwrap : v.column + 1 = 80
  · -- the end of a row
    have hcolumn : (u8 (v.column + 1) == vgaWidth) = true := by rw [hu, hwrap]; rfl
    unfold moveForward offset
    simp only [hcolumn, Bool.toNat_true]
    rw [hu, hwrap, show u8 (v.row + 1) = v.row + 1 from Nat.mod_eq_of_lt (by omega),
      show (80 * v.row + v.column + 1) / 80 = v.row + 1 by omega,
      show (80 * v.row + v.column + 1) % 80 = 0 by omega]
    rfl
  · have hcolumn : (u8 (v.column + 1) == vgaWidth) = false := by
      rw [hu]
      exact beq_eq_false_iff_ne.mpr hwrap
    unfold moveForward offset
    simp only [hcolumn, Bool.toNat_false]
    rw [hu, show u8 (v.row + 0) = v.row from Nat.mod_eq_of_lt (by omega),
      show u8Sub (v.column + 1) (0 * vgaWidth) = v.column + 1 by unfold u8Sub; omega,
      show (80 * v.row + v.column + 1) / 80 = v.row by omega,
      show (80 * v.row + v.column + 1) % 80 = v.column + 1 by omega]

/-- **One cell on.** -/
theorem moveForward_advanced (tier : Tier) {v : Vga} (h : v.Rep) :
    Advanced v (v.moveForward tier) (v.offset + 1) ((v.offset + 1) / 2000) := by
  have hoffset := h.offset_lt
  have hadvanced := scrollOverflow_advanced
    (v := { v with row := (v.offset + 1) / 80, column := (v.offset + 1) % 80 }) tier h.baseRow_le
    (show (v.offset + 1) / 80 ≤ 25 by omega) (show (v.offset + 1) % 80 < vgaWidth from
      Nat.mod_lt _ (by decide))
    (fun hlast => show (v.offset + 1) % 80 = 0 by
      -- the row past the last one is entered at its start
      have hrow : (v.offset + 1) / 80 = 25 := hlast
      omega) h.displayStart_eq
  rw [offset_cursor] at hadvanced
  rw [moveForward_eq tier h.row_lt h.column_lt]
  exact hadvanced.of_cursor

/-- **To the start of the next line.** -/
theorem moveToNextLine_advanced (tier : Tier) {v : Vga} (h : v.Rep) :
    Advanced v (v.moveToNextLine tier) (80 * (v.row + 1)) (80 * (v.row + 1) / 2000) := by
  obtain ⟨hbase, hrow, -, hdisplay⟩ := h
  unfold vgaHeight at hrow
  unfold moveToNextLine
  rw [show u8 (v.row + 1) = v.row + 1 from Nat.mod_eq_of_lt (by omega)]
  exact (scrollOverflow_advanced (v := { v with row := v.row + 1, column := 0 }) tier hbase
    (show v.row + 1 ≤ 25 by omega) (show 0 < vgaWidth by decide) (fun _ => rfl)
    hdisplay).of_cursor

theorem put_advanced (tier : Tier) {v : Vga} (h : v.Rep) (c : BitVec 8) :
    Advanced (v.writeCell c) (v.put tier c) (v.offset + 1) ((v.offset + 1) / 2000) :=
  moveForward_advanced tier (h.writeCell c)

/-- **Clearing blanks the window**, whatever the state was. -/
theorem clear_spec (tier : Tier) (v : Vga) :
    (v.clear tier).Rep ∧ (∀ j < 2000, (v.clear tier).window j = Cell.blank) ∧
      (v.Touches → (v.clear tier).Touches) := by
  obtain ⟨hcells, hstores⟩ := fillEntries_cells v.mem tier 0 25
  -- `length` bytes are 25 rows of 160
  have hclear : v.clear tier =
      let filled := fillEntries tier v.mem (vgaBase + 160 * 0) (160 * 25) blankEntry32
      { v with
        baseRow := 0
        row := 0
        column := 0
        mem := filled.mem
        crtc := HardwareCursor.setDisplayStart v.crtc (BitVec.ofNat 16 0)
        stores := (0, filled.stores) :: v.stores } := by
    rw [Nat.mul_zero, Nat.add_zero, show 160 * 25 = vgaLength from rfl]
    rfl
  have hdisplay := displayStart_toNat (b := 0) v.crtc (Nat.zero_le _)
  rw [Nat.zero_mul] at hdisplay
  rw [hclear]
  refine ⟨⟨Nat.zero_le _, show 0 < vgaHeight by decide, show 0 < vgaWidth by decide, ?_⟩,
    ?_, ?_⟩
  · rw [hdisplay, Nat.zero_mul]
  · intro j hj
    refine (hcells (80 * 0 + j)).trans ?_
    rw [if_pos (by omega)]
  · intro h
    exact h.draw rfl rfl (Nat.zero_le _) hstores

/-- **One cell back**, for a cursor that is not at the start of the window. -/
theorem moveBackwards_eq {v : Vga} (hbase : v.baseRow ≤ baseRowMax) (hrow : v.row < vgaHeight)
    (hcol : v.column < vgaWidth) (h₀ : 0 < v.offset) :
    v.moveBackwards = { v with row := (v.offset - 1) / 80, column := (v.offset - 1) % 80 } := by
  unfold baseRowMax at hbase
  unfold vgaHeight at hrow
  unfold vgaWidth at hcol
  unfold offset at h₀ ⊢
  by_cases hc : v.column = 0
  · -- the end of the row above
    have hcolumn : (v.column == 0) = true := by rw [hc]; rfl
    have hr : (v.row == 0) = false := by
      rw [beq_eq_false_iff_ne]
      omega
    simp only [moveBackwards, hcolumn, hr, Bool.toNat_true, Bool.toNat_false, Nat.zero_and]
    congr 1
    · unfold u8Sub
      omega
    · unfold u8
      omega
    · unfold u8 vgaWidth
      omega
  -- within the row
  · have hcolumn : (v.column == 0) = false := beq_eq_false_iff_ne.mpr hc
    simp only [moveBackwards, hcolumn, Bool.toNat_false, Nat.and_zero]
    congr 1
    · unfold u8Sub
      omega
    · unfold u8
      omega
    · unfold u8
      omega

/-- **A jump inside the window**: the cursor goes to the cell, but the base row goes
down by the difference of the rows. -/
theorem jumpTo_eq (v : Vga) {n : ℕ} (hn : n < 2000) :
    v.jumpTo (i16 n) = { v with
      baseRow := u8Sub v.baseRow (u8OfInt ((v.row : ℤ) - (n / 80 : ℕ)))
      row := n / 80
      column := n % 80 } := by
  have hi16 : i16 (n : ℤ) = n := Int.bmod_eq_of_le (by omega) (by omega)
  -- the quotient fits a byte
  have hrow : u8OfInt ((n : ℤ).tdiv vgaWidth) = n / 80 := by
    unfold u8OfInt vgaWidth
    rw [Int.tdiv_eq_ediv_of_nonneg (by omega)]
    omega
  have hcolumn : u8OfInt ((n : ℤ) - (n / 80 : ℕ) * vgaWidth) = n % 80 := by
    unfold u8OfInt vgaWidth
    omega
  simp only [jumpTo, hi16, hrow, hcolumn]

/-- A jump that stays in its row moves the cursor and nothing else. -/
theorem jumpTo_of_row_eq {v : Vga} (hv : v.Rep) {n : ℕ} (hrow : n / 80 = v.row) :
    v.jumpTo (i16 n) = { v with column := n % 80 } := by
  have hbase := hv.baseRow_le
  have hlt := hv.row_lt
  unfold baseRowMax at hbase
  unfold vgaHeight at hlt
  rw [jumpTo_eq v (by omega), hrow, Int.sub_self]
  congr 1
  unfold u8Sub
  rw [show u8OfInt 0 = 0 from rfl]
  omega

end Vga
end BareMetal
