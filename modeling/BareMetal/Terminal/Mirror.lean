import BareMetal.Terminal.Drawing
import BareMetal.Terminal.LineEditor

/-!
# The screen mirrors the line

The handlers edit the line and repair the screen with separate code. This file proves
that the two stay together: the cells from the place where the line started show the
bytes of the line, the cells it once occupied behind its end show spaces, and the
hardware cursor blinks at the cursor of the line (`Mirrors`).

The handlers jump along the line with `move_cursor_left_n` and `move_cursor_right_n`,
which are wrong between rows. `Input.jump?` lists the jumps, one per key, by the
positions in the line they connect, and `Console.JumpsInRow` says that the jump of a key
stays in its screen row. Under this condition each key keeps the mirror
(`perform_mirrors`), and so does every run (`screen_mirrors_line`); without it the mirror
breaks at once (`home_breaks_mirror`).
-/

namespace BareMetal

open Framework

/-! ### Keys -/

/-- What a key event asks for. -/
inductive KeyAction where
  | text (c : BitVec 8)
  | escape | backspace | tab | enter | home | arrowLeft | arrowRight | endKey | ignored
  deriving DecidableEq

/-- The action of an event. -/
def keyAction (event : KeyboardEvent) : KeyAction :=
  match event.tryTranslateText with
  | some c => .text c
  | none =>
    if event.isControlInputCandidate then
      match event.key with
      | .escape => .escape
      | .backspace => .backspace
      | .tab => .tab
      | .enter => .enter
      | _ => .ignored
    else if event.isNavigationInputCandidate then
      match event.key with
      | .home => .home
      | .arrowLeft => .arrowLeft
      | .arrowRight => .arrowRight
      | .endKey => .endKey
      | _ => .ignored
    else .ignored

/-- The handler of an action. -/
def Console.perform (tier : Tier) (con : Console) : KeyAction → Console
  | .text c => textInput tier con c
  | .escape => handleEscape con
  | .backspace => handleBackspace tier con
  | .tab => handleTab tier con
  | .enter => handleEnter tier con
  | .home => handleHome con
  | .arrowLeft => handleArrowLeft con
  | .arrowRight => handleArrowRight tier con
  | .endKey => handleEnd con
  | .ignored => con

/-- Processing an event is performing its action. -/
theorem Console.processEvent_eq (tier : Tier) (con : Console) (event : KeyboardEvent) :
    processEvent tier con event = con.perform tier (keyAction event) := by
  unfold processEvent keyAction
  cases event.tryTranslateText with
  | some c => rfl
  | none =>
    simp only
    -- the classes are tried in the order of the source
    by_cases hcontrol : event.isControlInputCandidate = true
    · rw [if_pos hcontrol, if_pos hcontrol]
      cases event.key <;> rfl
    · rw [if_neg hcontrol, if_neg hcontrol]
      by_cases hnavigation : event.isNavigationInputCandidate = true
      · rw [if_pos hnavigation, if_pos hnavigation]
        cases event.key <;> rfl
      · rw [if_neg hnavigation, if_neg hnavigation]
        rfl

/-- The jump along the line that a key makes, from one position to another: the rest of
the line is printed and the cursor goes back, or the cursor goes to an end. -/
def Input.jump? (s : Input) : KeyAction → Option (ℕ × ℕ)
  | .text _ =>
    if s.dataEnd < inputCapacity ∧ s.cursor < s.dataEnd then some (s.dataEnd + 1, s.cursor + 1)
    else none
  | .tab =>
    if s.dataEnd + 4 < inputCapacity ∧ s.cursor < s.dataEnd then
      some (s.dataEnd + 4, s.cursor + 4)
    else none
  | .backspace =>
    if 0 < s.cursor ∧ s.cursor < s.dataEnd then some (s.dataEnd, s.cursor - 1) else none
  | .escape | .endKey => some (s.cursor, s.dataEnd)
  | .home => some (s.cursor, 0)
  | _ => none

/-- The cell of the window where the line starts. -/
def Console.origin (con : Console) : ℕ := con.screen.offset - con.input.cursor

/-- The jump of a key, if it makes one, stays in its screen row. -/
def Console.JumpsInRow (con : Console) (action : KeyAction) : Prop :=
  ∀ p q, con.input.jump? action = some (p, q) → (con.origin + p) / 80 = (con.origin + q) / 80

theorem Console.jumpsInRow_of_none {con : Console} {action : KeyAction}
    (h : con.input.jump? action = none) : con.JumpsInRow action := fun p q hjump => by
  rw [h] at hjump
  exact absurd hjump (by simp)

/-! ### The mirror -/

/-- A character that text events produce. -/
def Printable (c : BitVec 8) : Prop := 0x20 ≤ c ∧ c ≤ 0x7E

/-- The screen mirrors the line. `o` is the origin of the line in the window, `K` the
origin counted from the first row displayed, and `M` the length the line had at most. -/
structure Mirrors (con : Console) (K o M : ℕ) : Prop where
  inv : con.input.Inv
  printable : ∀ i < con.input.dataEnd, Printable (con.input.inputBuffer i)
  draws : ∃ g, con.screen.Draws K o con.input.cursor g ∧
    (∀ j < con.input.dataEnd, g j = con.input.inputBuffer j) ∧
    ∀ j, con.input.dataEnd ≤ j → j < M → g j = 0x20
  reach : o + M < 2000
  dataEnd_le : con.input.dataEnd ≤ M
  synced : HardwareCursor.cursorPosition con.screen.crtc = con.screen.getPosition

theorem Printable.no_break {c : BitVec 8} (h : Printable c) : c ≠ 0 ∧ c ≠ 0x0D ∧ c ≠ 0x0A := by
  refine ⟨?_, ?_, ?_⟩
  · rintro rfl
    exact absurd h.1 (by decide)
  · rintro rfl
    exact absurd h.1 (by decide)
  · rintro rfl
    exact absurd h.1 (by decide)

namespace Input

/-- The string from the cursor on is the rest of the line. -/
theorem Inv.rest_eq {s : Input} (h : s.Inv) :
    s.rest = segment s.inputBuffer s.cursor (s.dataEnd - s.cursor) := by
  have hcursor := h.cursor_le
  have hdataEnd := h.dataEnd_le
  refine cString_eq_segment (by omega) (fun i hi => h.nonNul _ (by omega)) ?_
  rw [Nat.add_sub_cancel' hcursor]
  exact h.terminated

theorem Inv.restCount_eq {s : Input} (h : s.Inv) : s.restCount = s.dataEnd - s.cursor := by
  have hcursor := h.cursor_le
  have hdataEnd := h.dataEnd_le
  unfold inputCapacity at hdataEnd
  unfold restCount u8OfInt
  omega

/-- The rest of a printable line has no line break. -/
theorem Inv.rest_printable {s : Input} (h : s.Inv)
    (hp : ∀ i < s.dataEnd, Printable (s.inputBuffer i)) : ∀ c ∈ s.rest, c ≠ 0x0D ∧ c ≠ 0x0A := by
  intro c hc
  rw [h.rest_eq, mem_segment] at hc
  obtain ⟨i, hi, rfl⟩ := hc
  exact (hp _ (by omega)).no_break.2

end Input

/-- A line and its drawing, with the hardware cursor moved along, are a mirror. -/
theorem mirrors_of_draws {input : Input} {v : Vga} {K o M : ℕ} {g : ℕ → BitVec 8}
    (hinv : input.Inv) (hp : ∀ i < input.dataEnd, Printable (input.inputBuffer i))
    (hdraws : v.Draws K o input.cursor g) (htext : ∀ j < input.dataEnd, g j = input.inputBuffer j)
    (hspaces : ∀ j, input.dataEnd ≤ j → j < M → g j = 0x20) (hreach : o + M < 2000)
    (hend : o + input.dataEnd < 2000) :
    Mirrors ⟨input, v.syncCursor⟩ K o (max M input.dataEnd) := by
  refine ⟨hinv, hp, ⟨g, hdraws.syncCursor, htext, fun j h₁ h₂ => hspaces j h₁ ?_⟩, ?_,
    Nat.le_max_right _ _, HardwareCursor.cursorPosition_setPosition _ _⟩
  · simp only at h₁
    omega
  · omega

section Handlers

variable {tier : Tier} {con : Console} {K o M : ℕ}

/-- Text inserted into a printable line leaves it printable. -/
theorem inserted_printable {s s' : Input} {t : List (BitVec 8)} (hi : s.Inserted s' t)
    (hp : ∀ i < s.dataEnd, Printable (s.inputBuffer i)) (ht : ∀ c ∈ t, Printable c)
    (hcursor : s.cursor ≤ s.dataEnd) : ∀ i < s'.dataEnd, Printable (s'.inputBuffer i) := by
  intro i hlt
  rw [hi.dataEnd_eq] at hlt
  by_cases h₁ : i < s.cursor
  · rw [hi.left i h₁]
    exact hp i (by omega)
  · by_cases h₂ : i < s.cursor + t.length
    · refine ht _ ?_
      rw [← hi.text, mem_segment]
      exact ⟨i - s.cursor, by omega, by rw [Nat.add_sub_cancel' (Nat.not_lt.mp h₁)]⟩
    · have hbyte := hi.right (i - t.length) (by omega) (by omega)
      rw [Nat.sub_add_cancel (by omega)] at hbyte
      rw [hbyte]
      exact hp _ (by omega)

theorem reprintRest_input (tier : Tier) (con : Console) :
    (con.reprintRest tier).input = con.input := by
  unfold Console.reprintRest
  split
  · rfl
  · rfl

/-- **An insertion keeps the mirror.** The text is printed over the cell of the cursor, then
the rest of the line behind it, and the cursor jumps back over the rest. -/
theorem insertion_mirrors {input : Input} {t : List (BitVec 8)} (h : Mirrors con K o M)
    (hi : con.input.Inserted input t) (ht : ∀ c ∈ t, Printable c)
    (hrow : con.input.cursor < con.input.dataEnd →
      (o + (con.input.dataEnd + t.length)) / 80 = (o + (con.input.cursor + t.length)) / 80) :
    ∃ o', Mirrors (Console.reprintRest tier ⟨input, con.screen.printString tier t⟩) K o'
      (max M (Console.reprintRest tier ⟨input, con.screen.printString tier t⟩).input.dataEnd) := by
  rw [reprintRest_input]
  simp only
  obtain ⟨g, hdraws, htext, hspaces⟩ := h.draws
  have hinv := hi.inv
  have hcursor := h.inv.cursor_le
  have hcursor' := hinv.cursor_le
  have hdataEnd' := hinv.dataEnd_le
  have hcursor_eq := hi.cursor_eq
  have hdataEnd_eq := hi.dataEnd_eq
  rw [← hcursor_eq, ← hdataEnd_eq] at hrow
  have hreach := h.reach
  have hp := inserted_printable hi h.printable ht hcursor
  unfold inputCapacity at hdataEnd'
  obtain ⟨o₁, ho₁, h₁⟩ :=
    hdraws.writeStringNoSync tier (fun c hc => (ht c hc).no_break.2) (by omega)
  rw [← hi.cursor_eq] at h₁
  -- left of the new cursor the cells show the new bytes already
  have hshown : ∀ j < input.cursor, Vga.written g con.input.cursor t j = input.inputBuffer j := by
    intro j hj
    rw [← hi.text, Vga.written_segment]
    by_cases hnew : con.input.cursor ≤ j ∧ j < con.input.cursor + t.length
    · rw [if_pos hnew]
    · rw [if_neg hnew, hi.left j (by omega)]
      exact htext j (by omega)
  -- and from the cursor on they are as they were
  have hbehind : ∀ j, input.cursor ≤ j → Vga.written g con.input.cursor t j = g j := by
    intro j hj
    rw [← hi.text, Vga.written_segment, if_neg (by omega)]
  have hpeak₁ := h₁.rep.offset_lt
  rw [h₁.offset_eq] at hpeak₁
  unfold Console.reprintRest
  by_cases hend : input.cursor = input.dataEnd
  · rw [if_neg (not_not.mpr hend)]
    refine ⟨o₁, mirrors_of_draws hinv hp h₁ (fun j hj => hshown j (by omega)) ?_
      (by omega) (by omega)⟩
    intro j h₂ h₃
    rw [hbehind j (by omega)]
    exact hspaces j (by omega) h₃
  · rw [if_pos hend]
    -- the rest of the line goes behind the text
    obtain ⟨o₂, ho₂, h₂⟩ := h₁.syncCursor.writeStringNoSync tier (hinv.rest_printable hp)
      (by rw [hinv.rest_eq, length_segment]; omega)
    rw [hinv.rest_eq, length_segment, Nat.add_sub_cancel' hcursor'] at h₂
    have hpeak₂ := h₂.rep.offset_lt
    rw [h₂.offset_eq] at hpeak₂
    -- the jump back goes over what was printed
    have hback : input.dataEnd - (input.dataEnd - input.cursor) = input.cursor := by omega
    have hjump := h₂.moveCursorLeftN (n := input.dataEnd - input.cursor) (Nat.sub_le _ _)
      (by rw [hback]; exact hdraws.row_eq h₂ (hrow (by omega)))
    rw [hback] at hjump
    simp only [hinv.restCount_eq, hinv.rest_eq]
    refine ⟨o₂, mirrors_of_draws hinv hp hjump ?_ ?_ (by omega)
      (by omega)⟩
    · intro j hj
      rw [Vga.written_segment]
      by_cases hrest : input.cursor ≤ j ∧ j < input.cursor + (input.dataEnd - input.cursor)
      · rw [if_pos hrest]
      · rw [if_neg hrest]
        exact hshown j (by omega)
    · intro j h₃ h₄
      rw [Vga.written_segment, if_neg (by omega), hbehind j (by omega)]
      exact hspaces j (by omega) h₄

/-- The origin of a mirrored line. -/
theorem Mirrors.origin_eq (h : Mirrors con K o M) : con.origin = o := by
  obtain ⟨g, hdraws, -⟩ := h.draws
  unfold Console.origin
  rw [hdraws.offset_eq, Nat.add_sub_cancel]

/-- Nothing changed: the mirror stays. -/
theorem Mirrors.keep (h : Mirrors con K o M) : Mirrors con K o (max M con.input.dataEnd) := by
  rw [Nat.max_eq_left h.dataEnd_le]
  exact h

theorem textInput_mirrors (h : Mirrors con K o M) {c : BitVec 8} (hc : Printable c)
    (hjump : con.JumpsInRow (.text c)) :
    ∃ o', Mirrors (con.textInput tier c) K o' (max M (con.textInput tier c).input.dataEnd) := by
  have ht : ∀ c' ∈ [c], Printable c' := fun c' hc' => List.mem_singleton.mp hc' ▸ hc
  unfold Console.textInput
  rcases Input.addCharacter_spec h.inv hc.no_break.1 with ⟨-, hadd⟩ | ⟨hfits, htrue, hi⟩
  · rw [hadd]
    exact ⟨o, h.keep⟩
  · rw [show con.input.addCharacter c = (true, (con.input.addCharacter c).2) from
      Prod.ext htrue rfl]
    simp only [show con.screen.printChar tier c = con.screen.printString tier [c] from rfl]
    refine insertion_mirrors h hi.toInserted ht ?_
    intro hlt
    have hrow := hjump _ _ (if_pos ⟨hfits, hlt⟩)
    rwa [h.origin_eq] at hrow

theorem handleTab_mirrors (h : Mirrors con K o M) (hjump : con.JumpsInRow .tab) :
    ∃ o', Mirrors (con.handleTab tier) K o' (max M (con.handleTab tier).input.dataEnd) := by
  have ht : ∀ c ∈ tabSpaces, Printable c := by
    unfold Printable
    decide
  unfold Console.handleTab
  rcases Input.addString_spec (t := tabSpaces) h.inv (by decide) (by decide) with
    ⟨-, hadd⟩ | ⟨hfits, htrue, hi⟩
  · rw [hadd]
    exact ⟨o, h.keep⟩
  · rw [show con.input.addString tabSpaces = (true, (con.input.addString tabSpaces).2)
      from Prod.ext htrue rfl]
    simp only
    refine insertion_mirrors h hi.toInserted ht ?_
    intro hlt
    have hrow := hjump _ _ (if_pos ⟨hfits, hlt⟩)
    rwa [h.origin_eq] at hrow

/-- **A deletion keeps the mirror.** The last character is blanked; the rest of the line is
printed one cell further left with a space behind it, and the cursor jumps back. -/
theorem handleBackspace_mirrors (h : Mirrors con K o M) (hjump : con.JumpsInRow .backspace) :
    ∃ o', Mirrors (con.handleBackspace tier) K o'
      (max M (con.handleBackspace tier).input.dataEnd) := by
  unfold Console.handleBackspace
  rcases Input.deleteCharacter_spec h.inv with ⟨-, hdel⟩ | ⟨hpos, htrue, hd⟩
  · rw [hdel]
    exact ⟨o, h.keep⟩
  rw [show con.input.deleteCharacter = (true, con.input.deleteCharacter.2) from Prod.ext htrue rfl]
  set input := con.input.deleteCharacter.2
  obtain ⟨g, hdraws, htext, hspaces⟩ := h.draws
  have hinv := hd.inv
  have hcursor' := hinv.cursor_le
  have hdataEnd' := hinv.dataEnd_le
  have hcursor_eq := hd.cursor_eq
  have hdataEnd_eq := hd.dataEnd_eq
  have hdataEnd := h.dataEnd_le
  have hreach := h.reach
  unfold inputCapacity at hdataEnd'
  have hp : ∀ i < input.dataEnd, Printable (input.inputBuffer i) := by
    intro i hi
    by_cases hleft : i < input.cursor
    · rw [hd.left i hleft]
      exact h.printable i (by omega)
    · rw [hd.right i (by omega) hi]
      exact h.printable _ (by omega)
  have h₁ := hdraws.removeLastChar hpos
  rw [show con.input.cursor - 1 = input.cursor by omega] at h₁
  simp only
  by_cases hend : input.cursor = input.dataEnd
  · rw [if_neg (not_not.mpr hend)]
    refine ⟨o, mirrors_of_draws hinv hp h₁ ?_ ?_ (by omega)
      (by omega)⟩
    · intro j hj
      rw [Function.update_of_ne (by omega), hd.left j (by omega)]
      exact htext j (by omega)
    · intro j h₂ h₃
      -- the deleted cell is blank, and those behind it were
      by_cases hj : j = input.cursor
      · rw [hj, Function.update_self]
      · rw [Function.update_of_ne hj]
        exact hspaces j (by omega) h₃
  · rw [if_pos hend]
    obtain ⟨o₂, ho₂, h₂⟩ := h₁.writeStringNoSync tier (hinv.rest_printable hp)
      (by rw [hinv.rest_eq, length_segment]; omega)
    rw [hinv.rest_eq, length_segment, Nat.add_sub_cancel' hcursor'] at h₂
    obtain ⟨o₃, ho₃, h₃⟩ := h₂.put tier (by omega) 0x20
    have hrow := hjump _ _ (if_pos ⟨hpos, by omega⟩)
    rw [h.origin_eq, show con.input.dataEnd = input.dataEnd + 1 by omega,
      show con.input.cursor - 1 = input.cursor by omega] at hrow
    have hcount : u8 (input.restCount + 1) = input.dataEnd + 1 - input.cursor := by
      rw [hinv.restCount_eq]
      unfold u8
      omega
    have hback : input.dataEnd + 1 - (input.dataEnd + 1 - input.cursor) = input.cursor := by omega
    have hjumped := h₃.moveCursorLeftN (n := input.dataEnd + 1 - input.cursor) (Nat.sub_le _ _)
      (by rw [hback]; exact hdraws.row_eq h₃ hrow)
    rw [hback] at hjumped
    rw [hcount, hinv.rest_eq, Vga.putCharNoSync_eq tier _ (by decide) (by decide)]
    -- the space printed behind the line falls on its old last cell
    refine ⟨o₃, mirrors_of_draws hinv hp hjumped ?_ ?_ (by omega)
      (by omega)⟩
    · intro j hj
      rw [Function.update_of_ne (by omega), Vga.written_segment]
      by_cases hrest : input.cursor ≤ j ∧ j < input.cursor + (input.dataEnd - input.cursor)
      · rw [if_pos hrest]
      · rw [if_neg hrest, Function.update_of_ne (by omega), hd.left j (by omega)]
        exact htext j (by omega)
    · intro j h₄ h₅
      by_cases hj : j = input.dataEnd
      · rw [hj, Function.update_self]
      · rw [Function.update_of_ne hj, Vga.written_segment, if_neg (by omega),
          Function.update_of_ne (by omega)]
        exact hspaces j (by omega) h₅

/-- The loop of `handle_escape` blanks the last `n` characters. -/
theorem deleteLastChars_draws (n : ℕ) {v : Vga} {i : ℕ} {g : ℕ → BitVec 8}
    (h : v.Draws K o i g) (hn : n ≤ i) :
    ∃ g', (Console.deleteLastChars n v).Draws K o (i - n) g' ∧
      ∀ j, g' j = if i - n ≤ j ∧ j < i then 0x20 else g j := by
  induction n generalizing v i g with
  | zero => exact ⟨g, h, fun j => (if_neg (by omega)).symm⟩
  | succ n ih =>
    obtain ⟨g', hdraws, hg'⟩ := ih (h.removeLastChar (by omega)) (by omega)
    rw [show i - 1 - n = i - (n + 1) by omega] at hdraws hg'
    refine ⟨g', hdraws, ?_⟩
    intro j
    rw [hg']
    by_cases hlast : j = i - 1
    · rw [hlast, if_neg (by omega), if_pos (by omega), Function.update_self]
    · rw [Function.update_of_ne hlast]
      exact if_congr (by omega) rfl rfl

theorem handleEscape_mirrors (h : Mirrors con K o M) (hjump : con.JumpsInRow .escape) :
    ∃ o', Mirrors con.handleEscape K o' (max M con.handleEscape.input.dataEnd) := by
  obtain ⟨g, hdraws, htext, hspaces⟩ := h.draws
  have hcursor := h.inv.cursor_le
  have hdataEnd := h.inv.dataEnd_le
  have hle := h.dataEnd_le
  have hreach := h.reach
  unfold inputCapacity at hdataEnd
  have hcount : con.input.count = con.input.dataEnd := Nat.mod_eq_of_lt (by omega)
  have hrow := hjump _ _ rfl
  rw [h.origin_eq] at hrow
  -- first to the end of the line, then back over all of it
  have hright := hdraws.moveCursorRightN (n := con.input.dataEnd - con.input.cursor)
    (by rwa [Nat.add_sub_cancel' hcursor])
  rw [Nat.add_sub_cancel' hcursor] at hright
  obtain ⟨g', hdraws', hg'⟩ := deleteLastChars_draws con.input.dataEnd hright (Nat.le_refl _)
  rw [Nat.sub_self] at hdraws' hg'
  unfold Console.handleEscape
  simp only [hcount, h.inv.restCount_eq]
  -- the line is empty now, and all its cells are blank
  refine ⟨o, mirrors_of_draws (Input.resetBuffer_inv h.inv.accesses_in)
    (fun i hi => absurd hi (Nat.not_lt_zero i)) hdraws' (fun j hj => absurd hj (Nat.not_lt_zero j))
    ?_ hreach (show o + 0 < 2000 by omega)⟩
  intro j _ hj
  rw [hg']
  by_cases hold : 0 ≤ j ∧ j < con.input.dataEnd
  · rw [if_pos hold]
  · rw [if_neg hold]
    exact hspaces j (by omega) hj

/-- Moving the cursor along the line keeps the mirror, if the screen follows. -/
theorem cursor_mirrors {v : Vga} {o' c : ℕ} {g : ℕ → BitVec 8} (h : Mirrors con K o M)
    (hc : c ≤ con.input.dataEnd) (ho' : o' ≤ o) (hdraws : v.Draws K o' c g)
    (htext : ∀ j < con.input.dataEnd, g j = con.input.inputBuffer j)
    (hspaces : ∀ j, con.input.dataEnd ≤ j → j < M → g j = 0x20) :
    Mirrors ⟨{ con.input with cursor := c }, v.syncCursor⟩ K o' (max M con.input.dataEnd) := by
  have hle := h.dataEnd_le
  have hreach := h.reach
  exact mirrors_of_draws (h.inv.of_cursor hc) h.printable hdraws htext hspaces (by omega)
    (show o' + con.input.dataEnd < 2000 by omega)

theorem handleHome_mirrors (h : Mirrors con K o M) (hjump : con.JumpsInRow .home) :
    ∃ o', Mirrors con.handleHome K o' (max M con.handleHome.input.dataEnd) := by
  obtain ⟨g, hdraws, htext, hspaces⟩ := h.draws
  have hcursor := h.inv.cursor_le
  have hdataEnd := h.inv.dataEnd_le
  unfold inputCapacity at hdataEnd
  have hrow := hjump _ _ rfl
  rw [h.origin_eq] at hrow
  have hleft := hdraws.moveCursorLeftN (Nat.le_refl _) (by rwa [Nat.sub_self])
  rw [Nat.sub_self] at hleft
  unfold Console.handleHome
  rw [show u8 con.input.cursor = con.input.cursor from Nat.mod_eq_of_lt (by omega)]
  exact ⟨o, cursor_mirrors h (Nat.zero_le _) (Nat.le_refl o) hleft htext hspaces⟩

theorem handleEnd_mirrors (h : Mirrors con K o M) (hjump : con.JumpsInRow .endKey) :
    ∃ o', Mirrors con.handleEnd K o' (max M con.handleEnd.input.dataEnd) := by
  obtain ⟨g, hdraws, htext, hspaces⟩ := h.draws
  have hcursor := h.inv.cursor_le
  have hrow := hjump _ _ rfl
  rw [h.origin_eq] at hrow
  have hright := hdraws.moveCursorRightN (n := con.input.dataEnd - con.input.cursor)
    (by rwa [Nat.add_sub_cancel' hcursor])
  rw [Nat.add_sub_cancel' hcursor] at hright
  unfold Console.handleEnd
  simp only [h.inv.restCount_eq]
  exact ⟨o, cursor_mirrors h (Nat.le_refl _) (Nat.le_refl o) hright htext hspaces⟩

theorem handleArrowLeft_mirrors (h : Mirrors con K o M) :
    ∃ o', Mirrors con.handleArrowLeft K o' (max M con.handleArrowLeft.input.dataEnd) := by
  obtain ⟨g, hdraws, htext, hspaces⟩ := h.draws
  have hcursor := h.inv.cursor_le
  unfold Console.handleArrowLeft Input.moveCursorLeft
  by_cases hbegin : con.input.cursor = 0
  · rw [if_pos hbegin]
    exact ⟨o, cursor_mirrors h hcursor (Nat.le_refl o) hdraws htext hspaces⟩
  · rw [if_neg hbegin]
    exact ⟨o, cursor_mirrors h (by omega) (Nat.le_refl o)
      (hdraws.moveBackwards (Nat.pos_of_ne_zero hbegin)) htext hspaces⟩

theorem handleArrowRight_mirrors (h : Mirrors con K o M) :
    ∃ o', Mirrors (con.handleArrowRight tier) K o'
      (max M (con.handleArrowRight tier).input.dataEnd) := by
  obtain ⟨g, hdraws, htext, hspaces⟩ := h.draws
  have hcursor := h.inv.cursor_le
  have hdataEnd := h.inv.dataEnd_le
  unfold inputCapacity at hdataEnd
  unfold Console.handleArrowRight Input.moveCursorRight
  by_cases hend : con.input.cursor = con.input.dataEnd
  · rw [if_pos hend]
    exact ⟨o, cursor_mirrors h hcursor (Nat.le_refl o) hdraws htext hspaces⟩
  · rw [if_neg hend]
    obtain ⟨o', ho', hforward⟩ := hdraws.moveForward tier (by omega)
    exact ⟨o', cursor_mirrors h (by omega) ho' hforward htext hspaces⟩

/-- **Every key keeps the mirror**, if its jump stays in its row. -/
theorem perform_mirrors (tier : Tier) (h : Mirrors con K o M) {action : KeyAction}
    (hjump : con.JumpsInRow action) (htext : ∀ c, action = .text c → Printable c)
    (henter : action ≠ .enter) :
    ∃ o', Mirrors (con.perform tier action) K o'
      (max M (con.perform tier action).input.dataEnd) := by
  cases action with
  | text c => exact textInput_mirrors h (htext c rfl) hjump
  | escape => exact handleEscape_mirrors h hjump
  | backspace => exact handleBackspace_mirrors h hjump
  | tab => exact handleTab_mirrors h hjump
  | enter => exact absurd rfl henter
  | home => exact handleHome_mirrors h hjump
  | arrowLeft => exact handleArrowLeft_mirrors h
  | arrowRight => exact handleArrowRight_mirrors h
  | endKey => exact handleEnd_mirrors h hjump
  | ignored => exact ⟨o, h.keep⟩

end Handlers

/-! ### Runs -/

/-- A cell of what is displayed. -/
def Vga.displayed (v : Vga) (j : ℕ) : Cell :=
  cellAt v.mem ((HardwareCursor.displayStart v.crtc).toNat + j)

/-- Right after a prompt: an empty line, and a screen with the hardware cursor at its
cursor, in any cell of the window. -/
structure AfterPrompt (con : Console) : Prop where
  started : con.input.Started
  rep : con.screen.Rep
  synced : HardwareCursor.cursorPosition con.screen.crtc = con.screen.getPosition
  unrecorded : con.screen.loads = [] ∧ con.screen.stores = []

/-- Keys processed as in `start_data_receiving`, up to the Enter key, whose jumps stay in
their rows. The output is the length of the line after the key. -/
def consoleMachine (tier : Tier) : Machine Console KeyboardEvent ℕ where
  step con event :=
    ((con.processEvent tier event).input.dataEnd, con.processEvent tier event)
  enabled con event := keyAction event ≠ .enter ∧ con.JumpsInRow (keyAction event)

/-- The length that the line had at most. -/
def longest (h : List (KeyboardEvent × ℕ)) : ℕ := h.foldl (fun m e => max m e.2) 0

theorem keyAction_text {event : KeyboardEvent} {c : BitVec 8} (h : keyAction event = .text c) :
    Printable c := by
  unfold keyAction at h
  cases htext : event.tryTranslateText with
  | some c' =>
    rw [htext] at h
    rw [← KeyAction.text.inj h]
    exact KeyboardEvent.tryTranslateText_printable htext
  | none =>
    rw [htext] at h
    simp only at h
    split at h
    · split at h <;> exact absurd h (by simp)
    · split at h
      · split at h <;> exact absurd h (by simp)
      · exact absurd h (by simp)

/-- The mirror right after the prompt. -/
theorem AfterPrompt.mirrors {con : Console} (h : AfterPrompt con) :
    Mirrors con (con.screen.offset + 80 * con.screen.scrolls) con.screen.offset 0 := by
  have hinv := h.started.inv.1
  -- a started line has no characters and has had none
  have hempty : con.input.cursor = 0 ∧ con.input.dataEnd = 0 := by
    rcases h.started with heq | ⟨used, -, heq⟩
    · rw [heq]
      exact ⟨rfl, rfl⟩
    · rw [heq]
      exact ⟨rfl, rfl⟩
  refine ⟨hinv, ?_, ⟨fun j => (con.screen.tape (con.screen.offset + j)).char, ?_, ?_, ?_⟩,
    h.rep.offset_lt, by omega, h.synced⟩
  · rw [hempty.2]
    exact fun i hi => absurd hi (Nat.not_lt_zero i)
  · rw [hempty.1]
    refine ⟨h.rep, rfl, rfl, fun j => rfl, ⟨?_, ?_⟩⟩
    · rw [h.unrecorded.1]
      exact AccessesIn.nil _ _
    · rw [h.unrecorded.2]
      exact fun b hb => absurd hb List.not_mem_nil
  · rw [hempty.2]
    exact fun j hj => absurd hj (Nat.not_lt_zero j)
  · exact fun j _ hj => absurd hj (Nat.not_lt_zero j)

/-- The mirror along a run. -/
theorem mirrors_of_run {tier : Tier} {con₀ con : Console} {h : List (KeyboardEvent × ℕ)} {K : ℕ}
    (h₀ : ∃ o, Mirrors con₀ K o 0) (hrun : (consoleMachine tier).Run con₀ h con) :
    ∃ o, Mirrors con K o (longest h) := by
  induction hrun with
  | nil => exact h₀
  | @snoc h con event _ hen ih =>
    obtain ⟨o, hmirrors⟩ := ih
    obtain ⟨o', hmirrors'⟩ := perform_mirrors tier hmirrors hen.2
      (fun c hc => keyAction_text hc) hen.1
    rw [← Console.processEvent_eq] at hmirrors'
    refine ⟨o', ?_⟩
    unfold longest
    rw [List.foldl_append]
    exact hmirrors'

/-- **The screen mirrors the edited line.** Start after a prompt, anywhere in the window.
In every run of keys whose jumps stay in their screen rows, with the origin moved up
one row for every scroll: the displayed cells from the origin on show the line, the
cells the line occupied earlier show spaces, the hardware cursor is at the cursor of the
line, and every store was into the window it draws. -/
theorem screen_mirrors_line (tier : Tier) {con₀ con : Console} {h : List (KeyboardEvent × ℕ)}
    (h₀ : AfterPrompt con₀) (hrun : (consoleMachine tier).Run con₀ h con) :
    ∃ o, o + 80 * con.screen.scrolls = con₀.screen.offset + 80 * con₀.screen.scrolls ∧
      o + longest h < 2000 ∧
      (∀ j < con.input.dataEnd,
        (con.screen.displayed (o + j)).char = con.input.inputBuffer j) ∧
      (∀ j, con.input.dataEnd ≤ j → j < longest h →
        (con.screen.displayed (o + j)).char = 0x20) ∧
      (HardwareCursor.cursorPosition con.screen.crtc).toNat
        = (HardwareCursor.displayStart con.screen.crtc).toNat + (o + con.input.cursor) ∧
      ∀ b ∈ con.screen.stores, b.1 ≤ baseRowMax ∧
        AccessesIn (vgaBase + 160 * b.1) (vgaBase + 160 * (b.1 + 25)) b.2 := by
  obtain ⟨o, hmirrors⟩ := mirrors_of_run ⟨_, h₀.mirrors⟩ hrun
  obtain ⟨g, hdraws, htext, hspaces⟩ := hmirrors.draws
  have hreach := hmirrors.reach
  have hle := hmirrors.dataEnd_le
  have hdisplay :
      (HardwareCursor.displayStart con.screen.crtc).toNat = 80 * con.screen.baseRow := by
    rw [hdraws.rep.displayStart_eq, Nat.mul_comm]
    rfl
  -- up to its greatest length the line lies in the window
  have hcells : ∀ j < longest h, (con.screen.displayed (o + j)).char = g j := by
    intro j hj
    rw [← hdraws.shows]
    unfold Vga.displayed Vga.tape
    rw [if_pos (by omega), hdisplay]
    rfl
  refine ⟨o, hdraws.origin_eq, hreach, ?_, ?_, ?_,
    hdraws.touches.stores_in⟩
  · intro j hj
    rw [hcells j (by omega)]
    exact htext j hj
  · intro j h₁ h₂
    rw [hcells j h₂]
    exact hspaces j h₁ h₂
  · rw [hmirrors.synced, hdraws.rep.getPosition_toNat, hdisplay, hdraws.offset_eq]

/-! ### Two lines after a prompt -/

/-- An empty line on a cleared screen, with the cursor in a column of its first row. -/
def Console.prompt (column : ℕ) : Console where
  input := .init
  screen :=
    let v := (Vga.init (fun _ => 0) ⟨0, fun _ => 0⟩).clear .gpr
    ({ v.unrecorded with column := column } : Vga).syncCursor

theorem afterPrompt_of_rep {v : Vga} (h : v.Rep) {column : ℕ} (hcolumn : column < vgaWidth) :
    AfterPrompt ⟨.init, ({ v.unrecorded with column := column } : Vga).syncCursor⟩ :=
  ⟨.inl rfl, ⟨h.baseRow_le, h.row_lt, hcolumn, h.displayStart_eq⟩,
    HardwareCursor.cursorPosition_setPosition _ _, rfl, rfl⟩

/-- The press of a key. -/
def KeyboardEvent.press (key : KeyboardKey) : KeyboardEvent := ⟨key, 0, .pressed, false, 0⟩

/-- Two letters and `Home`, in the first row. -/
theorem screen_mirrors_line_prompt :
    let con := (((Console.prompt 2).processEvent .simd (.press .a)).processEvent .simd
      (.press .b)).processEvent .simd (.press .home)
    ∃ o, (con.screen.displayed (o + 0)).char = 0x61 ∧ (con.screen.displayed (o + 1)).char = 0x62 ∧
      (HardwareCursor.cursorPosition con.screen.crtc).toNat
        = (HardwareCursor.displayStart con.screen.crtc).toNat + o := by
  intro con
  have hprompt : AfterPrompt (Console.prompt 2) :=
    afterPrompt_of_rep (Vga.clear_spec .gpr _).1 (by decide)
  have ha : keyAction (.press .a) = .text 0x61 := by decide
  have hb : keyAction (.press .b) = .text 0x62 := by decide
  have hhome : keyAction (.press .home) = .home := by decide
  let con₁ := (Console.prompt 2).processEvent .simd (.press .a)
  let con₂ := con₁.processEvent .simd (.press .b)
  -- the cursor goes back from the third cell of the line to the first
  have hjump : con₂.JumpsInRow .home := by
    intro p q hpq
    have hp : con₂.input.jump? .home = some (2, 0) := by decide +kernel
    obtain ⟨rfl, rfl⟩ := Prod.mk.inj (Option.some.inj (hp.symm.trans hpq))
    decide +kernel
  have hletters := Machine.Run.snoc (m := consoleMachine .simd) (KeyboardEvent.press .b)
    (.snoc (KeyboardEvent.press .a)
      (.nil : (consoleMachine .simd).Run (Console.prompt 2) [] (Console.prompt 2))
      ⟨by decide, Console.jumpsInRow_of_none (by rw [ha]; rfl)⟩)
    ⟨by decide, Console.jumpsInRow_of_none (by rw [hb]; rfl)⟩
  have hrun := Machine.Run.snoc (m := consoleMachine .simd) (KeyboardEvent.press .home) hletters
    ⟨by decide, by rw [hhome]; exact hjump⟩
  obtain ⟨o, -, -, htext, -, hcursor, -⟩ := screen_mirrors_line .simd hprompt hrun
  exact ⟨o, htext 0 (by decide), htext 1 (by decide), hcursor⟩

/-- **A jump over a row border breaks the mirror.** The prompt ends in the last column, and
a letter wraps to the next row. `Home` then puts the hardware cursor at cell 20479,
while the display starts at cell 0 and the line at cell 79. -/
theorem home_breaks_mirror :
    let con₀ := Console.prompt 79
    let con := (con₀.processEvent .gpr (.press .a)).processEvent .gpr (.press .home)
    AfterPrompt con₀ ∧ con₀.screen.offset = 79 ∧ con.screen.scrolls = con₀.screen.scrolls ∧
      con.input.cursor = 0 ∧ (HardwareCursor.displayStart con.screen.crtc).toNat = 0 ∧
      (HardwareCursor.cursorPosition con.screen.crtc).toNat = 20479 := by
  intro con₀ con
  refine ⟨afterPrompt_of_rep (Vga.clear_spec .gpr _).1 (by decide), rfl, ?_⟩
  decide +kernel

end BareMetal
