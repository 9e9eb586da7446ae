import BareMetal.Framework.Zipper
import BareMetal.Io.JumpRows
import BareMetal.Terminal.Output

/-!
# Drawing a line

A line is drawn on the screen from some origin on, over row borders and over the end of
the window, where it scrolls. In the window the cells of the line move when it does.
They do not on the tape, the window continued by blank cells: a scroll shifts the
origin by a row and nothing else (`Advanced.tape_eq`).

`Draws v K o i g` says that the line with origin `o` shows the characters `g`, with the
cursor at its position `i`. `K` is the origin counted from the first row that was ever
displayed, which scrolling leaves alone. Each output operation has a rule that says what
it does to `g` and `i`.
-/

namespace BareMetal

open Framework

namespace Vga

/-- The window, continued by blank cells. -/
def tape (v : Vga) (x : ℕ) : Cell := if x < 2000 then v.window x else Cell.blank

/-- The line with origin `o` shows `g`, and the cursor is at its position `i`. -/
structure Draws (v : Vga) (K o i : ℕ) (g : ℕ → BitVec 8) : Prop where
  rep : v.Rep
  offset_eq : v.offset = o + i
  origin_eq : o + 80 * v.scrolls = K
  shows : ∀ j, (v.tape (o + j)).char = g j
  touches : v.Touches

/-- On the tape a scroll is a shift. -/
theorem Advanced.tape_eq {v v' : Vga} {target k : ℕ} (h : Advanced v v' target k) (x : ℕ) :
    v'.tape x = v.tape (x + 80 * k) := by
  unfold tape
  by_cases hx : x < 2000
  · rw [if_pos hx, h.window_eq x hx]
  · rw [if_neg hx, if_neg (by omega)]

theorem tape_writeCell {v : Vga} (h : v.Rep) (c : BitVec 8) (x : ℕ) :
    (v.writeCell c).tape x = if x = v.offset then ⟨c, v.activeColor⟩ else v.tape x := by
  have hoffset := h.offset_lt
  unfold tape
  rw [window_writeCell h]
  by_cases hx : x < 2000
  · rw [if_pos hx, if_pos hx]
  · rw [if_neg hx, if_neg hx, if_neg (by omega)]

section Rules

variable {v : Vga} {K o i : ℕ} {g : ℕ → BitVec 8}

/-- Moving on from a line of which `u` shows the characters. -/
theorem Advanced.draws {u v' : Vga} {k : ℕ} (hadv : Advanced u v' (o + i) k) (hi : i ≤ 129)
    (horigin : o + 80 * u.scrolls = K)
    (hshows : ∀ j, (u.tape (o + j)).char = g j) (htouches : u.Touches) :
    ∃ o', o' ≤ o ∧ Draws v' K o' i g := by
  have hk := hadv.scrolled
  have hoffset := hadv.offset_eq
  have hscrolls := hadv.scrolls_eq
  refine ⟨o - 80 * k, Nat.sub_le _ _, hadv.rep, by omega, by omega, ?_,
    hadv.touches htouches⟩
  intro j
  rw [hadv.tape_eq, show o - 80 * k + j + 80 * k = o + j by omega, hshows]

/-- Moving the cursor along the line. -/
theorem Draws.of_cursor (h : Draws v K o i g) {n : ℕ} (hn : o + n < 2000) :
    Draws { v with row := (o + n) / 80, column := (o + n) % 80 } K o n g :=
  ⟨h.rep.of_cursor hn, Nat.div_add_mod (o + n) 80, h.origin_eq, h.shows,
    ⟨h.touches.loads_in, h.touches.stores_in⟩⟩

/-- **A character is drawn.** -/
theorem Draws.put (tier : Tier) (h : Draws v K o i g) (hi : i ≤ 128) (c : BitVec 8) :
    ∃ o', o' ≤ o ∧ Draws (v.put tier c) K o' (i + 1) (Function.update g i c) := by
  have hadv := put_advanced tier h.rep c
  rw [h.offset_eq, Nat.add_assoc] at hadv
  refine hadv.draws (by omega) h.origin_eq ?_ (h.touches.writeCell h.rep c)
  intro j
  rw [tape_writeCell h.rep, h.offset_eq]
  by_cases hj : j = i
  · rw [if_pos (by omega), hj, Function.update_self]
  · rw [if_neg (by omega), Function.update_of_ne hj, h.shows]

/-- One position on. -/
theorem Draws.moveForward (tier : Tier) (h : Draws v K o i g) (hi : i ≤ 128) :
    ∃ o', o' ≤ o ∧ Draws (v.moveForward tier) K o' (i + 1) g := by
  have hadv := moveForward_advanced tier h.rep
  rw [h.offset_eq, Nat.add_assoc] at hadv
  exact hadv.draws (by omega) h.origin_eq h.shows h.touches

/-- One position back. -/
theorem Draws.moveBackwards (h : Draws v K o i g) (hi : 0 < i) :
    Draws v.moveBackwards K o (i - 1) g := by
  have hoffset := h.rep.offset_lt
  rw [h.offset_eq] at hoffset
  rw [moveBackwards_eq h.rep.baseRow_le h.rep.row_lt h.rep.column_lt (by rw [h.offset_eq]; omega),
    h.offset_eq, Nat.add_sub_assoc hi]
  exact h.of_cursor (by omega)

/-- **The last character is replaced by a space.** -/
theorem Draws.removeLastChar (h : Draws v K o i g) (hi : 0 < i) :
    Draws v.removeLastChar K o (i - 1) (Function.update g (i - 1) 0x20) := by
  have hback := h.moveBackwards hi
  refine ⟨hback.rep.writeCell _, hback.offset_eq, hback.origin_eq, ?_,
    hback.touches.writeCell hback.rep _⟩
  intro j
  refine (congrArg Cell.char (tape_writeCell hback.rep 0x20 (o + j))).trans ?_
  rw [hback.offset_eq]
  by_cases hj : j = i - 1
  · rw [if_pos (by omega), hj, Function.update_self]
  · rw [if_neg (by omega), Function.update_of_ne hj, hback.shows]

/-- A jump along the line that stays in its row. -/
theorem Draws.jumpTo (h : Draws v K o i g) {n : ℕ} (hrow : (o + i) / 80 = (o + n) / 80) :
    Draws (v.jumpTo (i16 (o + n : ℕ))) K o n g := by
  have hoffset := h.rep.offset_lt
  have hdiv := h.rep.offset_div.1
  rw [h.offset_eq] at hoffset hdiv
  rw [jumpTo_of_row_eq h.rep (hrow.symm.trans hdiv)]
  have hcursor := h.of_cursor (n := n) (by omega)
  rwa [← hrow, hdiv] at hcursor

theorem Draws.moveCursorLeftN (h : Draws v K o i g) {n : ℕ} (hn : n ≤ i)
    (hrow : (o + i) / 80 = (o + (i - n)) / 80) : Draws (v.moveCursorLeftN n) K o (i - n) g := by
  rw [moveCursorLeftN_eq (by rw [h.offset_eq]; omega), h.offset_eq, Nat.add_sub_assoc hn]
  exact h.jumpTo hrow

theorem Draws.moveCursorRightN (h : Draws v K o i g) {n : ℕ}
    (hrow : (o + i) / 80 = (o + (i + n)) / 80) : Draws (v.moveCursorRightN n) K o (i + n) g := by
  rw [moveCursorRightN_eq, h.offset_eq, Nat.add_assoc]
  exact h.jumpTo hrow

/-- Moving the hardware cursor draws nothing. -/
theorem Draws.syncCursor (h : Draws v K o i g) : Draws v.syncCursor K o i g :=
  ⟨⟨h.rep.baseRow_le, h.rep.row_lt, h.rep.column_lt, h.rep.displayStart_eq⟩, h.offset_eq,
    h.origin_eq, h.shows, ⟨h.touches.loads_in, h.touches.stores_in⟩⟩

/-- A row equality holds for the line wherever it has scrolled to. -/
theorem Draws.row_eq (h : Draws v K o i g) {v' : Vga} {o' i' : ℕ} {g' : ℕ → BitVec 8}
    (h' : Draws v' K o' i' g') {p q : ℕ} (hrow : (o + p) / 80 = (o + q) / 80) :
    (o' + p) / 80 = (o' + q) / 80 := by
  have horigin := h.origin_eq
  have horigin' := h'.origin_eq
  omega

/-! ### Strings -/

/-- The characters `g` with the string `t` written from position `i` on. -/
def written (g : ℕ → BitVec 8) (i : ℕ) (t : List (BitVec 8)) (j : ℕ) : BitVec 8 :=
  if i ≤ j then t[j - i]?.getD (g j) else g j

theorem written_cons (g : ℕ → BitVec 8) (i : ℕ) (c : BitVec 8) (t : List (BitVec 8)) :
    written (Function.update g i c) (i + 1) t = written g i (c :: t) := by
  funext j
  unfold written
  -- behind position `i` both sides look at `t`, at it at `c`, before it at `g`
  by_cases hlater : i + 1 ≤ j
  · rw [if_pos hlater, if_pos (by omega), Function.update_of_ne (by omega),
      show j - i = j - (i + 1) + 1 by omega, List.getElem?_cons_succ]
  · rw [if_neg hlater]
    by_cases hj : j = i
    · subst hj
      rw [if_pos (Nat.le_refl _), Function.update_self, Nat.sub_self]
      rfl
    · rw [if_neg (by omega), Function.update_of_ne hj]

/-- A character that is no line break is put. -/
theorem putCharNoSync_eq (tier : Tier) (v : Vga) {c : BitVec 8} (hcr : c ≠ 0x0D) (hlf : c ≠ 0x0A) :
    v.putCharNoSync tier c = v.put tier c := by
  unfold putCharNoSync
  rw [if_neg hcr, if_neg hlf]

/-- **A string is drawn**, if it has no line break. -/
theorem Draws.writeStringNoSync (tier : Tier) {t : List (BitVec 8)}
    (ht : ∀ c ∈ t, c ≠ 0x0D ∧ c ≠ 0x0A) (h : Draws v K o i g) (hi : i + t.length ≤ 129) :
    ∃ o', o' ≤ o ∧ Draws (v.writeStringNoSync tier t) K o' (i + t.length) (written g i t) := by
  induction t generalizing v o i g with
  | nil =>
    refine ⟨o, Nat.le_refl o, ?_⟩
    have hnone : written g i [] = g := by
      funext j
      unfold written
      split
      · rfl
      · rfl
    rw [hnone]
    exact h
  | cons c t ih =>
    rw [List.length_cons] at hi
    obtain ⟨hcr, hlf⟩ := ht c List.mem_cons_self
    -- each character may scroll, and the origin goes up with it
    obtain ⟨o₁, ho₁, h₁⟩ := h.put tier (by omega) c
    obtain ⟨o₂, ho₂, h₂⟩ := ih (fun c' hc' => ht c' (List.mem_cons_of_mem c hc')) h₁ (by omega)
    refine ⟨o₂, ho₂.trans ho₁, ?_⟩
    rw [← written_cons, List.length_cons, Nat.add_comm t.length 1, ← Nat.add_assoc]
    change Draws (List.foldl _ (v.putCharNoSync tier c) t) _ _ _ _
    rw [putCharNoSync_eq tier v hcr hlf]
    exact h₂

/-- A segment of an array, written at its own position. -/
theorem written_segment (g : ℕ → BitVec 8) (b : ByteMem) (i n j : ℕ) :
    written g i (segment b i n) j = if i ≤ j ∧ j < i + n then b j else g j := by
  unfold written
  by_cases hlow : i ≤ j
  · rw [if_pos hlow]
    by_cases hhigh : j < i + n
    · rw [if_pos ⟨hlow, hhigh⟩, getElem?_segment (by omega), Nat.add_sub_cancel' hlow]
      rfl
    · rw [if_neg (by omega), List.getElem?_eq_none (by rw [length_segment]; omega)]
      rfl
  · rw [if_neg hlow, if_neg (by omega)]

end Rules

end Vga
end BareMetal
