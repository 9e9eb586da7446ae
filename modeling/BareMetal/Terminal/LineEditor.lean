import BareMetal.Framework.Machine
import BareMetal.Framework.Zipper
import BareMetal.Terminal.Handlers
import Mathlib.Data.List.DropRight

/-!
# The line editor is a pair of lists

What an editor of one line is for: a text with a cursor in it, that grows and shrinks
at the cursor up to a capacity. `LineEditor.apply` is that editor, on a
`Framework.Zipper`. `Input.line` reads the zipper off the array, and
`input_refines_lineEditor` says that every run of `terminal::input` is a run of the
editor with the same answers.

`Input.Inv` is the invariant: the pointers are in order, the bytes of the line are not
NUL and the byte after them is. The end of the line is recognised by this NUL, so the
invariant is what makes "am I at the end" right. The pointer loops are described
once (`moveDataRight_eq`, `moveDataLeft_eq`), and the effect of an insertion and of a
deletion on the array is stated byte by byte (`Inserted`, `Deleted`), for the zipper
here and for the screen later.
-/

namespace BareMetal

open Framework

namespace Input

/-- The invariant of the line. -/
structure Inv (s : Input) : Prop where
  cursor_le : s.cursor ≤ s.dataEnd
  dataEnd_le : s.dataEnd ≤ inputCapacity
  nonNul : ∀ i < s.dataEnd, s.inputBuffer i ≠ 0
  terminated : s.inputBuffer s.dataEnd = 0
  accesses_in : ∀ a ∈ s.accesses, 0 ≤ a ∧ a ≤ 128

/-- The line in the array. -/
def line (s : Input) : Zipper (BitVec 8) := .ofBuffer s.inputBuffer s.cursor s.dataEnd

/-- `s'` is `s` with the text `t` inserted at the cursor. -/
structure Inserted (s s' : Input) (t : List (BitVec 8)) : Prop where
  inv : s'.Inv
  cursor_eq : s'.cursor = s.cursor + t.length
  dataEnd_eq : s'.dataEnd = s.dataEnd + t.length
  left : ∀ i < s.cursor, s'.inputBuffer i = s.inputBuffer i
  text : segment s'.inputBuffer s.cursor t.length = t
  right : ∀ i, s.cursor ≤ i → i < s.dataEnd → s'.inputBuffer (i + t.length) = s.inputBuffer i

/-- An insertion that writes nothing behind the end of the new line. -/
structure InsertedOnly (s s' : Input) (t : List (BitVec 8)) : Prop extends Inserted s s' t where
  behind : ∀ i, s'.dataEnd < i → s'.inputBuffer i = s.inputBuffer i

/-- `s'` is `s` with the byte left of the cursor deleted. -/
structure Deleted (s s' : Input) : Prop where
  inv : s'.Inv
  cursor_eq : s'.cursor + 1 = s.cursor
  dataEnd_eq : s'.dataEnd + 1 = s.dataEnd
  left : ∀ i < s'.cursor, s'.inputBuffer i = s.inputBuffer i
  right : ∀ i, s'.cursor ≤ i → i < s'.dataEnd → s'.inputBuffer i = s.inputBuffer (i + 1)

/-! ### The shifting loops -/

/-- A record that stays in the array. -/
def InArray (log : List ℤ) : Prop := ∀ a ∈ log, 0 ≤ a ∧ a ≤ 128

theorem InArray.cons {a : ℤ} {log : List ℤ} (ha : 0 ≤ a ∧ a ≤ 128) (h : InArray log) :
    InArray (a :: log) := by
  intro b hb
  rcases List.mem_cons.mp hb with rfl | hb
  · exact ha
  · exact h b hb

/-- **Shifting right**: the bytes of `(start, stop]` come from `step` positions below. The
loop goes down, so it reads each byte before it writes it. -/
theorem moveDataRight_eq (start stop : ℤ) (step fuel : ℕ) (s : Input) (hstep : step ≤ start + 1)
    (hfuel : stop - start ≤ fuel) (hstop : stop ≤ 128) (hlog : InArray s.accesses) :
    ∃ log, InArray log ∧ moveDataRight start step fuel stop s =
      { s with
        inputBuffer := fun x => if start < (x : ℤ) ∧ (x : ℤ) ≤ stop then s.inputBuffer (x - step)
          else s.inputBuffer x
        accesses := log } := by
  induction fuel generalizing stop s with
  | zero =>
    refine ⟨s.accesses, hlog, ?_⟩
    have hnone : ∀ x : ℕ, ¬ (start < (x : ℤ) ∧ (x : ℤ) ≤ stop) := fun x => by omega
    simp only [moveDataRight, if_neg (hnone _)]
  | succ fuel ih =>
    rw [moveDataRight]
    by_cases hlt : start < stop
    · rw [if_pos hlt]
      obtain ⟨log, hin, heq⟩ := ih (stop - 1) (s.copyByte stop (stop - step)) (by omega) (by omega)
        (.cons (by omega) (.cons (by omega) hlog))
      refine ⟨log, hin, heq.trans ?_⟩
      simp only [copyByte, touch, poke, peek]
      congr 1
      -- the byte just written is above all that are still read
      funext x
      simp only [setByte]
      by_cases htop : (x : ℤ) = stop
      · rw [if_neg (by omega), if_pos (by omega), if_pos (by omega)]
        congr 1
        omega
      · by_cases hx : start < (x : ℤ) ∧ (x : ℤ) ≤ stop
        · rw [if_pos (by omega), if_neg (by omega), if_pos hx]
        · rw [if_neg (by omega), if_neg (by omega), if_neg hx]
    · rw [if_neg hlt]
      refine ⟨s.accesses, hlog, ?_⟩
      have hnone : ∀ x : ℕ, ¬ (start < (x : ℤ) ∧ (x : ℤ) ≤ stop) := fun x => by omega
      simp only [if_neg (hnone _)]

/-- **Shifting left**: the bytes of `[start, stop)` come from the position above. The
loop goes up, so it reads each byte before it writes it. -/
theorem moveDataLeft_eq (start stop : ℤ) (fuel : ℕ) (s : Input) (hfuel : stop - start ≤ fuel)
    (hstart : 0 ≤ start) (hstop : stop ≤ 128) (hlog : InArray s.accesses) :
    ∃ log, InArray log ∧ moveDataLeft stop 1 fuel start s =
      { s with
        inputBuffer := fun x => if start ≤ (x : ℤ) ∧ (x : ℤ) < stop then s.inputBuffer (x + 1)
          else s.inputBuffer x
        accesses := log } := by
  -- on the fuel: the loop goes upwards, so a byte is read before it is written over
  induction fuel generalizing start s with
  | zero =>
    refine ⟨s.accesses, hlog, ?_⟩
    have hnone : ∀ x : ℕ, ¬ (start ≤ (x : ℤ) ∧ (x : ℤ) < stop) := fun x => by omega
    simp only [moveDataLeft, if_neg (hnone _)]
  | succ fuel ih =>
    rw [moveDataLeft]
    by_cases hlt : start < stop
    · rw [if_pos hlt]
      obtain ⟨log, hin, heq⟩ := ih (start + 1) (s.copyByte start (start + (1 : ℕ))) (by omega)
        (by omega) (.cons (by omega) (.cons (by omega) hlog))
      refine ⟨log, hin, heq.trans ?_⟩
      simp only [copyByte, touch, poke, peek]
      congr 1
      funext x
      simp only [setByte]
      -- the byte copied first, one of the others, or one that stays
      by_cases hbottom : (x : ℤ) = start
      · rw [if_neg (by omega), if_pos (by omega), if_pos (by omega)]
        congr 1
        omega
      · by_cases hx : start ≤ (x : ℤ) ∧ (x : ℤ) < stop
        · rw [if_pos (by omega), if_neg (by omega), if_pos hx]
        · rw [if_neg (by omega), if_neg (by omega), if_neg hx]
    · rw [if_neg hlt]
      refine ⟨s.accesses, hlog, ?_⟩
      have hnone : ∀ x : ℕ, ¬ (start ≤ (x : ℤ) ∧ (x : ℤ) < stop) := fun x => by omega
      simp only [if_neg (hnone _)]

/-! ### Insertion -/

/-- At the end of the line the byte under the cursor is NUL, and nowhere else. -/
theorem Inv.peek_cursor {s : Input} (h : s.Inv) : s.peek s.cursor = 0 ↔ s.cursor = s.dataEnd := by
  change s.inputBuffer (s.cursor : ℤ).toNat = 0 ↔ _
  rw [Int.toNat_natCast]
  constructor
  · intro hzero
    have hle := h.cursor_le
    by_contra hne
    exact h.nonNul s.cursor (by omega) hzero
  · intro heq
    rw [heq]
    exact h.terminated

/-- **Opening a gap.** Behind the cursor the bytes move up by `n`; at the end of the line
there is nothing to move and the loop is not run. -/
theorem openGap {s : Input} (h : s.Inv) (s₁ : Input) (n fuel : ℕ) (start stop : ℤ)
    (hcursor : s₁.cursor = s.cursor) (hbuffer : s₁.inputBuffer = s.inputBuffer)
    (hlog : InArray s₁.accesses) (hstart : start = s.cursor + n - 1)
    (hlow : s.dataEnd + n ≤ stop + 1) (hstop : stop ≤ 128) (hfuel : stop - start ≤ fuel) :
    ∃ b log, InArray log ∧
      (if s₁.peek s₁.cursor ≠ 0 then moveDataRight start n fuel stop s₁ else s₁)
        = { s₁ with inputBuffer := b, accesses := log } ∧
      (∀ i < s.cursor, b i = s.inputBuffer i) ∧
      (∀ i, s.cursor ≤ i → i < s.dataEnd → b (i + n) = s.inputBuffer i) ∧
      ∀ i : ℕ, stop < i → b i = s.inputBuffer i := by
  -- the test looks at the byte under the cursor, which nothing has changed yet
  have hpeek : s₁.peek s₁.cursor = s.peek s.cursor := by
    unfold peek
    rw [hbuffer, hcursor]
  rw [hpeek]
  by_cases hend : s.peek s.cursor = 0
  · have hcur : s.cursor = s.dataEnd := h.peek_cursor.mp hend
    rw [if_neg (not_not.mpr hend)]
    exact ⟨s₁.inputBuffer, s₁.accesses, hlog, rfl, fun i _ => by rw [hbuffer],
      fun i h₁ h₂ => absurd h₂ (by omega), fun i _ => by rw [hbuffer]⟩
  · rw [if_pos hend]
    -- not at the end: the bytes from the cursor on move up
    obtain ⟨log, hin, heq⟩ := moveDataRight_eq start stop n fuel s₁ (by omega) hfuel hstop hlog
    refine ⟨_, log, hin, heq, ?_, ?_, ?_⟩
    · intro i hi
      simp only [hbuffer]
      rw [if_neg (by omega)]
    · intro i h₁ h₂
      simp only [hbuffer]
      rw [if_pos (by omega), Nat.add_sub_cancel]
    · intro i hi
      simp only [hbuffer]
      rw [if_neg (by omega)]

/-- The parts of an insertion make it up. -/
theorem inserted_of {s s' : Input} {t : List (BitVec 8)} (h : s.Inv) (ht : 0 ∉ t)
    (hfits : s.dataEnd + t.length ≤ inputCapacity) (hcursor : s'.cursor = s.cursor + t.length)
    (hdataEnd : s'.dataEnd = s.dataEnd + t.length)
    (hleft : ∀ i < s.cursor, s'.inputBuffer i = s.inputBuffer i)
    (htext : ∀ j (hj : j < t.length), s'.inputBuffer (s.cursor + j) = t[j])
    (hright : ∀ i, s.cursor ≤ i → i < s.dataEnd → s'.inputBuffer (i + t.length) = s.inputBuffer i)
    (hnul : s'.inputBuffer s'.dataEnd = 0) (hlog : InArray s'.accesses)
    (hbehind : ∀ i, s'.dataEnd < i → s'.inputBuffer i = s.inputBuffer i) :
    InsertedOnly s s' t := by
  have hle := h.cursor_le
  refine ⟨⟨⟨by omega, by omega, ?_, hnul, hlog⟩, hcursor, hdataEnd, hleft,
    segment_eq htext, hright⟩, hbehind⟩
  intro i hi
  -- a byte of the line is an old one to the left, one of the text, or an old one moved up
  by_cases h₁ : i < s.cursor
  · rw [hleft i h₁]
    exact h.nonNul i (by omega)
  · by_cases h₂ : i < s.cursor + t.length
    · have hbyte := htext (i - s.cursor) (by omega)
      rw [Nat.add_sub_cancel' (Nat.not_lt.mp h₁)] at hbyte
      rw [hbyte]
      exact fun hzero => ht (hzero ▸ List.getElem_mem _)
    · have hbyte := hright (i - t.length) (by omega) (by omega)
      rw [Nat.sub_add_cancel (by omega)] at hbyte
      rw [hbyte]
      exact h.nonNul _ (by omega)

/-- **`add_character`** inserts, unless the line is full. -/
theorem addCharacter_spec {s : Input} (h : s.Inv) {c : BitVec 8} (hc : c ≠ 0) :
    s.dataEnd = inputCapacity ∧ s.addCharacter c = (false, s) ∨
      s.dataEnd < inputCapacity ∧ (s.addCharacter c).1 = true ∧
        InsertedOnly s (s.addCharacter c).2 [c] := by
  have hdataEnd := h.dataEnd_le
  have hcursor := h.cursor_le
  by_cases hfull : s.dataEnd = inputCapacity
  · refine .inl ⟨hfull, ?_⟩
    unfold addCharacter bufferFull
    rw [decide_eq_true hfull, if_pos rfl]
  · have hfits : s.dataEnd < inputCapacity := by omega
    unfold inputCapacity at hfits
    obtain ⟨b, log, hin, heq, hleft, hright, hbehind⟩ := openGap h (s.touch s.cursor) 1
      (s.dataEnd - s.cursor) s.cursor s.dataEnd rfl rfl (.cons (by omega) h.accesses_in) (by omega)
      (by omega) (by omega) (by omega)
    -- the gap takes the character, and the NUL goes behind the longer line
    have hadd : s.addCharacter c = (true, { s with
        cursor := s.cursor + 1
        dataEnd := s.dataEnd + 1
        inputBuffer := setByte (setByte b s.cursor c) (s.dataEnd + 1) 0
        accesses := (s.dataEnd + 1 : ℕ) :: (s.cursor : ℤ) :: log }) := by
      unfold addCharacter bufferFull
      rw [decide_eq_false hfull, if_neg (by decide)]
      change (true, _) = _
      simp only [touch] at heq ⊢
      rw [heq]
      rfl
    rw [hadd]
    refine .inr ⟨hfits, rfl, inserted_of h ?_ hfits rfl rfl ?_ ?_ ?_ ?_ ?_ ?_⟩
    · exact fun hmem => hc (List.mem_singleton.mp hmem).symm
    · intro i hi
      simp only [setByte]
      rw [if_neg (by omega), if_neg (by omega)]
      exact hleft i hi
    · intro j hj
      obtain rfl : j = 0 := Nat.lt_one_iff.mp hj
      simp only [setByte]
      rw [if_neg (by omega), if_pos (by omega)]
      rfl
    · intro i h₁ h₂
      simp only [setByte, List.length_singleton]
      rw [if_neg (by omega), if_neg (by omega)]
      exact hright i h₁ h₂
    · exact if_pos rfl
    · exact .cons (by omega) (.cons (by omega) hin)
    · intro i hi
      simp only at hi
      simp only [setByte]
      rw [if_neg (by omega), if_neg (by omega)]
      exact hbehind i (by omega)

/-- The loop that writes a string at the cursor. -/
theorem writeString_eq (t : List (BitVec 8)) {s : Input} (hfits : s.cursor + t.length ≤ 128)
    (hlog : InArray s.accesses) :
    ∃ log, InArray log ∧ writeString t s = { s with
      cursor := s.cursor + t.length
      inputBuffer := fun x => if hx : s.cursor ≤ x ∧ x < s.cursor + t.length then
        t[x - s.cursor] else s.inputBuffer x
      accesses := log } := by
  induction t generalizing s with
  | nil =>
    refine ⟨s.accesses, hlog, ?_⟩
    have hnone : ∀ x, ¬ (s.cursor ≤ x ∧ x < s.cursor + ([] : List (BitVec 8)).length) := fun x => by
      rw [List.length_nil]
      omega
    simp only [writeString, dif_neg (hnone _)]
    rfl
  | cons c t ih =>
    rw [List.length_cons] at hfits
    obtain ⟨log, hin, heq⟩ := ih (s := { s.poke s.cursor c with cursor := s.cursor + 1 })
      (by simp only; omega) (.cons (by omega) hlog)
    refine ⟨log, hin, heq.trans ?_⟩
    simp only [poke, Int.toNat_natCast, List.length_cons]
    congr 1
    · omega
    · funext x
      -- the first character stands at the cursor, the others behind it
      by_cases hx : s.cursor = x
      · subst hx
        rw [dif_neg (by omega), dif_pos (by omega)]
        simp [setByte]
      · by_cases hlater : s.cursor + 1 ≤ x ∧ x < s.cursor + 1 + t.length
        · rw [dif_pos hlater, dif_pos (by omega)]
          simp only [show x - s.cursor = x - (s.cursor + 1) + 1 by omega, List.getElem_cons_succ]
        · rw [dif_neg hlater, dif_neg (by omega)]
          exact if_neg (Ne.symm hx)

/-- **`add_string`** inserts, unless the line would reach its capacity. -/
theorem addString_spec {s : Input} (h : s.Inv) {t : List (BitVec 8)} (ht : 0 ∉ t)
    (hlength : t.length < 2 ^ 8) :
    inputCapacity ≤ s.dataEnd + t.length ∧ s.addString t = (false, s) ∨
      s.dataEnd + t.length < inputCapacity ∧ (s.addString t).1 = true ∧
        InsertedOnly s (s.addString t).2 t := by
  have hcursor := h.cursor_le
  have hstringLength : stringLength t = t.length := Nat.mod_eq_of_lt hlength
  by_cases hfull : inputCapacity ≤ s.dataEnd + t.length
  · refine .inl ⟨hfull, ?_⟩
    unfold addString
    rw [hstringLength, if_pos hfull]
  · have hfits : s.dataEnd + t.length < inputCapacity := Nat.not_le.mp hfull
    unfold inputCapacity at hfits
    obtain ⟨b, log, hin, heq, hleft, hright, hbehind⟩ := openGap h
      (({ s with dataEnd := s.dataEnd + t.length } : Input).touch s.cursor) t.length
      (s.dataEnd + t.length + 1) (s.cursor + t.length - 1) (s.dataEnd + t.length : ℕ) rfl rfl
      (.cons (by omega) h.accesses_in) rfl (by omega) (by omega) (by omega)
    -- the line with its gap open and its NUL in place
    let gap : Input := { s with
      dataEnd := s.dataEnd + t.length
      inputBuffer := setByte b (s.dataEnd + t.length) 0
      accesses := (s.dataEnd + t.length : ℕ) :: log }
    obtain ⟨log', hin', hwrite⟩ := writeString_eq t (s := gap) (show s.cursor + _ ≤ _ by omega)
      (.cons (by omega) hin)
    have hadd : s.addString t = (true, writeString t gap) := by
      unfold addString
      rw [hstringLength, if_neg hfull]
      change (true, _) = _
      simp only [touch] at heq ⊢
      rw [heq]
      rfl
    rw [hadd]
    refine .inr ⟨hfits, rfl, ?_⟩
    rw [hwrite]
    -- the line is the gap with the text in it, and the NUL behind it untouched
    refine inserted_of h ht (Nat.le_of_lt hfits) rfl rfl ?_ ?_ ?_ ?_ hin' ?_
    · intro i hi
      simp only [gap, setByte]
      rw [dif_neg (by omega), if_neg (by omega)]
      exact hleft i hi
    · intro j hj
      simp only [gap]
      rw [dif_pos (by omega)]
      simp only [Nat.add_sub_cancel_left]
    · intro i h₁ h₂
      simp only [gap, setByte]
      rw [dif_neg (by omega), if_neg (by omega)]
      exact hright i h₁ h₂
    · simp only [gap]
      rw [dif_neg (by omega)]
      exact if_pos rfl
    · intro i hi
      simp only [gap] at hi
      simp only [gap, setByte]
      rw [dif_neg (by omega), if_neg (by omega)]
      exact hbehind i (by omega)

/-! ### Deletion and moves -/

/-- **`delete_character`** deletes, unless the cursor is at the start. -/
theorem deleteCharacter_spec {s : Input} (h : s.Inv) :
    s.cursor = 0 ∧ s.deleteCharacter = (false, s) ∨
      0 < s.cursor ∧ s.deleteCharacter.1 = true ∧ Deleted s s.deleteCharacter.2 := by
  have hdataEnd := h.dataEnd_le
  have hcursor := h.cursor_le
  unfold inputCapacity at hdataEnd
  by_cases hbegin : s.cursor = 0
  · refine .inl ⟨hbegin, ?_⟩
    unfold deleteCharacter bufferBegin
    rw [decide_eq_true hbegin, if_pos rfl]
  · obtain ⟨log, hin, heq⟩ := moveDataLeft_eq (s.cursor - 1 : ℕ) s.dataEnd
      (s.dataEnd - (s.cursor - 1)) { s with cursor := s.cursor - 1 } (by omega) (by omega)
      (by omega) h.accesses_in
    -- the bytes behind the cursor moved down over the one that is deleted
    have hdelete : s.deleteCharacter = (true, { s with
        cursor := s.cursor - 1
        dataEnd := s.dataEnd - 1
        inputBuffer := setByte (fun x =>
          if ((s.cursor - 1 : ℕ) : ℤ) ≤ x ∧ (x : ℤ) < s.dataEnd then s.inputBuffer (x + 1)
          else s.inputBuffer x) (s.dataEnd - 1) 0
        accesses := (s.dataEnd - 1 : ℕ) :: log }) := by
      unfold deleteCharacter bufferBegin
      rw [decide_eq_false hbegin, if_neg (by decide)]
      simp only [heq]
      rfl
    rw [hdelete]
    refine .inr ⟨Nat.pos_of_ne_zero hbegin, rfl, ⟨show s.cursor - 1 ≤ s.dataEnd - 1 by omega,
      show s.dataEnd - 1 ≤ 128 by omega, ?_, if_pos rfl,
      InArray.cons (by omega) hin⟩,
      Nat.sub_add_cancel (by omega), Nat.sub_add_cancel (by omega), ?_,
      ?_⟩
    · intro i hi
      -- each byte of the new line is a byte of the old one
      simp only at hi
      simp only [setByte]
      rw [if_neg (by omega)]
      split
      · exact h.nonNul _ (by omega)
      · exact h.nonNul _ (by omega)
    · intro i hi
      simp only at hi
      simp only [setByte]
      rw [if_neg (by omega), if_neg (by omega)]
    · intro i h₁ h₂
      simp only at h₁ h₂
      simp only [setByte]
      rw [if_neg (by omega), if_pos (by omega)]

/-- Moving the cursor inside the line. -/
theorem Inv.of_cursor {s : Input} (h : s.Inv) {c : ℕ} (hc : c ≤ s.dataEnd) :
    { s with cursor := c : Input }.Inv := ⟨hc, h.dataEnd_le, h.nonNul, h.terminated, h.accesses_in⟩

/-- **`reset_buffer`** gives the empty line, whatever was in the array. -/
theorem resetBuffer_inv {s : Input} (h : InArray s.accesses) : s.resetBuffer.Inv := by
  refine ⟨Nat.le_refl 0, Nat.zero_le _, fun _ hi => absurd hi (Nat.not_lt_zero _), ?_,
    InArray.cons (show (0 : ℤ) ≤ 0 ∧ (0 : ℤ) ≤ 128 by decide) h⟩
  change (if (0 : ℕ) = 0 then (0 : BitVec 8) else s.inputBuffer 0) = 0
  exact if_pos rfl

/-! ### The end of the line -/

/-- A C string is the segment up to the first NUL. -/
theorem cString_eq_segment {b : ByteMem} {lo n fuel : ℕ} (hfuel : n < fuel)
    (hbytes : ∀ i < n, b (lo + i) ≠ 0) (hnul : b (lo + n) = 0) :
    cString b fuel lo = segment b lo n := by
  induction n generalizing lo fuel with
  | zero =>
    obtain ⟨fuel, rfl⟩ := Nat.exists_eq_add_of_lt hfuel
    exact if_pos hnul
  | succ n ih =>
    obtain ⟨fuel, rfl⟩ : ∃ k, fuel = k + 1 := ⟨fuel - 1, by omega⟩
    -- the first byte is no NUL, so the string goes on behind it
    have htail : cString b fuel (lo + 1) = segment b (lo + 1) n := by
      refine ih (by omega) ?_ ?_
      · intro i hi
        rw [Nat.add_assoc, Nat.add_comm 1 i]
        exact hbytes (i + 1) (by omega)
      · rwa [Nat.add_assoc, Nat.add_comm 1 n]
    have hhead : b lo ≠ 0 := hbytes 0 (Nat.zero_lt_succ n)
    rw [cString, if_neg hhead, htail]
    rfl

/-- The loop of `trim_end` drops the spaces at the end. -/
theorem trimSpaces_eq (n : ℕ) {s : Input} (hn : n ≤ 128) (hend : s.dataEnd = n)
    (hlog : InArray s.accesses) :
    ∃ m log, m ≤ n ∧ InArray log ∧ trimSpaces n s = { s with dataEnd := m, accesses := log } ∧
      segment s.inputBuffer 0 m = (segment s.inputBuffer 0 n).rdropWhile (· == 0x20) := by
  induction n generalizing s with
  | zero => exact ⟨0, s.accesses, Nat.le_refl 0, hlog, by rw [trimSpaces, ← hend], rfl⟩
  | succ n ih =>
    have hpeek : (s.touch n).peek n = s.inputBuffer n :=
      congrArg s.inputBuffer (Int.toNat_natCast n)
    have hlog' : InArray (s.touch n).accesses := .cons (by omega) hlog
    rw [segment_succ, List.rdropWhile_concat, Nat.zero_add]
    unfold trimSpaces
    simp only [hpeek]
    -- a space is dropped and the loop goes on; anything else ends it
    by_cases hspace : s.inputBuffer n = 0x20
    · rw [if_pos hspace, if_pos (beq_iff_eq.mpr hspace)]
      obtain ⟨m, log, hm, hin, heq, hseg⟩ := ih (s := { s.touch n with dataEnd := n })
        (Nat.le_of_succ_le hn) rfl hlog'
      exact ⟨m, log, Nat.le_succ_of_le hm, hin, heq, hseg⟩
    · rw [if_neg hspace, if_neg (fun h => hspace (beq_iff_eq.mp h))]
      refine ⟨n + 1, _, Nat.le_refl _, hlog', ?_, ?_⟩
      · rw [← hend]
        rfl
      · rw [segment_succ, Nat.zero_add]

/-- **Enter** leaves the line without its trailing spaces to its reader. -/
theorem handleEnter_spec {s : Input} (h : s.Inv) (tier : Tier) (v : Vga) :
    (Console.handleEnter tier ⟨s, v⟩).input.readBuffer = s.line.text.rdropWhile (· == 0x20) ∧
      InArray (Console.handleEnter tier ⟨s, v⟩).input.accesses := by
  have hdataEnd := h.dataEnd_le
  unfold inputCapacity at hdataEnd
  have hcount : s.count = s.dataEnd := Nat.mod_eq_of_lt (by omega)
  have htext : s.line.text = segment s.inputBuffer 0 s.dataEnd := Zipper.text_ofBuffer h.cursor_le
  unfold Console.handleEnter
  simp only [hcount, htext]
  by_cases hpos : 0 < s.dataEnd
  · obtain ⟨m, log, hm, hin, heq, hseg⟩ := trimSpaces_eq s.dataEnd hdataEnd rfl h.accesses_in
    have htrim : s.trimEnd = { s with
        dataEnd := m
        inputBuffer := setByte s.inputBuffer m 0
        accesses := (m : ℤ) :: log } := by
      unfold trimEnd
      rw [if_neg (by omega), heq]
      rfl
    rw [if_pos hpos, htrim]
    refine ⟨?_, .cons (by omega) hin⟩
    -- the new NUL ends the string right behind the last byte that is no space
    have hsame : segment (setByte s.inputBuffer m 0) 0 m = segment s.inputBuffer 0 m :=
      segment_congr fun i hi => if_neg (by omega)
    refine (cString_eq_segment (n := m) (show m < 129 by omega) ?_ ?_).trans
      (hsame.trans hseg)
    · intro i hi
      simp only [setByte]
      rw [if_neg (by omega), Nat.zero_add]
      exact h.nonNul i (by omega)
    · exact if_pos (Nat.zero_add m)
  · have hzero : s.dataEnd = 0 := by omega
    have hnul := h.terminated
    rw [hzero] at hnul
    rw [if_neg hpos, hzero]
    exact ⟨if_pos hnul, h.accesses_in⟩

end Input

/-! ### The abstract editor -/

/-- The operations on the line. -/
inductive EditOp where
  | addCharacter (c : BitVec 8)
  | addTab
  | deleteCharacter
  | moveCursorLeft
  | moveCursorRight
  | home
  | endKey
  | resetBuffer
  deriving DecidableEq

/-- An editor of one line of at most 128 characters: an operation answers whether it did
anything, and a refused one does nothing. -/
def LineEditor.apply (z : Zipper (BitVec 8)) : EditOp → Bool × Zipper (BitVec 8)
  | .addCharacter c => if z.text.length = inputCapacity then (false, z) else (true, z.insert [c])
  | .addTab =>
    if inputCapacity ≤ z.text.length + tabSpaces.length then (false, z)
    else (true, z.insert tabSpaces)
  | .deleteCharacter => if z.left = [] then (false, z) else (true, z.delete)
  | .moveCursorLeft => if z.left = [] then (false, z) else (true, z.moveLeft)
  | .moveCursorRight => if z.right = [] then (false, z) else (true, z.moveRight)
  | .home => (true, z.toHome)
  | .endKey => (true, z.toEnd)
  | .resetBuffer => (true, .empty)

/-- The operations of the input object. `Home` and `End` are the assignments of their
handlers. -/
def Input.edit (s : Input) : EditOp → Bool × Input
  | .addCharacter c => s.addCharacter c
  | .addTab => s.addString tabSpaces
  | .deleteCharacter => s.deleteCharacter
  | .moveCursorLeft => s.moveCursorLeft
  | .moveCursorRight => s.moveCursorRight
  | .home => (true, { s with cursor := 0 })
  | .endKey => (true, { s with cursor := s.dataEnd })
  | .resetBuffer => (true, s.resetBuffer)

/-- The editor as a machine. -/
def lineEditor : Machine (Zipper (BitVec 8)) EditOp Bool where
  step := LineEditor.apply

/-- The input object as a machine: characters added are not NUL. -/
def inputMachine : Machine Input EditOp Bool where
  step := Input.edit
  enabled _ op := op ≠ .addCharacter 0

/-! ### The simulation -/

namespace Input

theorem Inv.text_eq {s : Input} (h : s.Inv) : s.line.text = segment s.inputBuffer 0 s.dataEnd :=
  Zipper.text_ofBuffer h.cursor_le

theorem Inv.length_text {s : Input} (h : s.Inv) : s.line.text.length = s.dataEnd := by
  rw [h.text_eq, length_segment]

theorem line_left_eq_nil (s : Input) : s.line.left = [] ↔ s.cursor = 0 := by
  rw [← List.length_eq_zero_iff, show s.line.left.length = s.cursor from length_segment _ _ _]

theorem Inv.line_right_eq_nil {s : Input} (h : s.Inv) :
    s.line.right = [] ↔ s.cursor = s.dataEnd := by
  have hcursor := h.cursor_le
  rw [← List.length_eq_zero_iff,
    show s.line.right.length = s.dataEnd - s.cursor from length_segment _ _ _]
  omega

theorem Inserted.line_eq {s s' : Input} {t : List (BitVec 8)} (h : s.Inv) (hi : Inserted s s' t) :
    s'.line = s.line.insert t := by
  unfold line
  rw [hi.cursor_eq, hi.dataEnd_eq]
  exact Zipper.ofBuffer_insert h.cursor_le hi.left hi.text hi.right

theorem Deleted.line_eq {s s' : Input} (hd : Deleted s s') : s'.line = s.line.delete := by
  have hcursor := hd.inv.cursor_le
  have hdataEnd := hd.dataEnd_eq
  unfold line
  rw [← hd.cursor_eq, ← hd.dataEnd_eq]
  refine Eq.trans ?_
    (Zipper.ofBuffer_delete (by omega) hd.left fun i h₁ h₂ => hd.right i h₁ (by omega))
  rw [Nat.add_sub_cancel]

/-- **One operation refines the editor's.** -/
theorem edit_refines {s : Input} (h : s.Inv) {op : EditOp} (hop : op ≠ .addCharacter 0) :
    (s.edit op).2.Inv ∧ LineEditor.apply s.line op = ((s.edit op).1, (s.edit op).2.line) := by
  have hcursor := h.cursor_le
  cases op with
  | addCharacter c =>
    have hc : c ≠ 0 := fun hzero => hop (hzero ▸ rfl)
    change (s.addCharacter c).2.Inv ∧
      (if _ then _ else _) = ((s.addCharacter c).1, (s.addCharacter c).2.line)
    rw [h.length_text]
    rcases addCharacter_spec h hc with ⟨hfull, hadd⟩ | ⟨hfits, htrue, hins⟩
    · rw [if_pos hfull, hadd]
      exact ⟨h, rfl⟩
    · rw [if_neg (by omega), htrue]
      exact ⟨hins.inv, congrArg _ (hins.line_eq h).symm⟩
  | addTab =>
    change (s.addString tabSpaces).2.Inv ∧
      (if _ then _ else _) = ((s.addString tabSpaces).1, (s.addString tabSpaces).2.line)
    rw [h.length_text]
    rcases addString_spec (t := tabSpaces) h (by decide) (by decide) with
      ⟨hfull, hadd⟩ | ⟨hfits, htrue, hins⟩
    · rw [if_pos hfull, hadd]
      exact ⟨h, rfl⟩
    · rw [if_neg (by omega), htrue]
      exact ⟨hins.inv, congrArg _ (hins.line_eq h).symm⟩
  | deleteCharacter =>
    change s.deleteCharacter.2.Inv ∧
      (if _ then _ else _) = (s.deleteCharacter.1, s.deleteCharacter.2.line)
    rcases deleteCharacter_spec h with ⟨hbegin, hdel⟩ | ⟨hpos, htrue, hdel⟩
    · rw [if_pos ((line_left_eq_nil s).mpr hbegin), hdel]
      exact ⟨h, rfl⟩
    · rw [if_neg (mt (line_left_eq_nil s).mp (by omega)), htrue]
      exact ⟨hdel.inv, congrArg _ hdel.line_eq.symm⟩
  | moveCursorLeft =>
    change s.moveCursorLeft.2.Inv ∧
      (if _ then _ else _) = (s.moveCursorLeft.1, s.moveCursorLeft.2.line)
    unfold moveCursorLeft
    by_cases hbegin : s.cursor = 0
    · rw [if_pos hbegin, if_pos ((line_left_eq_nil s).mpr hbegin)]
      exact ⟨h, rfl⟩
    · rw [if_neg hbegin, if_neg (mt (line_left_eq_nil s).mp hbegin)]
      refine ⟨h.of_cursor (by omega), congrArg _ ?_⟩
      -- the rule moves to `cursor - 1`, one below where the cursor is
      have hmove := Zipper.ofBuffer_moveLeft (b := s.inputBuffer)
        (show s.cursor - 1 < s.dataEnd by omega)
      rw [Nat.sub_add_cancel (Nat.pos_of_ne_zero hbegin)] at hmove
      exact hmove.symm
  | moveCursorRight =>
    change s.moveCursorRight.2.Inv ∧
      (if _ then _ else _) = (s.moveCursorRight.1, s.moveCursorRight.2.line)
    unfold moveCursorRight
    by_cases hend : s.cursor = s.dataEnd
    · rw [if_pos hend, if_pos (h.line_right_eq_nil.mpr hend)]
      exact ⟨h, rfl⟩
    · rw [if_neg hend, if_neg (mt h.line_right_eq_nil.mp hend)]
      exact ⟨h.of_cursor (by omega),
        congrArg _ (Zipper.ofBuffer_moveRight (b := s.inputBuffer) (by omega)).symm⟩
  | home => exact ⟨h.of_cursor (Nat.zero_le _), congrArg _ (Zipper.ofBuffer_toHome hcursor).symm⟩
  | endKey => exact ⟨h.of_cursor (Nat.le_refl _), congrArg _ (Zipper.ofBuffer_toEnd hcursor).symm⟩
  | resetBuffer => exact ⟨resetBuffer_inv h.accesses_in, rfl⟩

/-- An operation behind a guard changes nothing when the guard refuses it. -/
theorem eq_of_refused {p : Prop} [Decidable p] {s s' : Input}
    (h : (if p then (false, s) else (true, s')).1 = false) :
    (if p then (false, s) else (true, s')).2 = s := by
  by_cases hp : p
  · rw [if_pos hp]
  · rw [if_neg hp] at h
    exact absurd h Bool.noConfusion

/-- A refused operation changes nothing, the array and the record included. -/
theorem edit_refused (s : Input) {op : EditOp} (h : (s.edit op).1 = false) : (s.edit op).2 = s := by
  cases op with
  | addCharacter c => exact eq_of_refused h
  | addTab => exact eq_of_refused h
  | deleteCharacter => exact eq_of_refused h
  | moveCursorLeft => exact eq_of_refused h
  | moveCursorRight => exact eq_of_refused h
  -- the others are never refused
  | home | endKey | resetBuffer => exact absurd (show true = false from h) (by decide)

/-- Where a line starts: a fresh object, or any object after its `reset`, whatever
earlier lines left in the array. -/
def Started (s : Input) : Prop :=
  s = .init ∨ ∃ used : Input, used.accesses = [] ∧ s = used.resetBuffer

theorem Started.inv {s : Input} (h : s.Started) : s.Inv ∧ s.line = .empty := by
  rcases h with rfl | ⟨used, hlog, rfl⟩
  · exact ⟨⟨Nat.le_refl 0, Nat.zero_le _, fun _ hi => absurd hi (Nat.not_lt_zero _), rfl,
      fun _ ha => absurd ha List.not_mem_nil⟩, rfl⟩
  · refine ⟨resetBuffer_inv ?_, rfl⟩
    intro a ha
    rw [hlog] at ha
    exact absurd ha List.not_mem_nil

end Input

/-- **The input line is the abstract editor.** From a fresh or a reset object, every run of
operations is a run of the editor on the line read off the array, with the same
answers; a refused operation changes nothing; Enter leaves the line without its
trailing spaces; and no access is outside the 129 bytes. -/
theorem input_refines_lineEditor {s₀ s : Input} {h : List (EditOp × Bool)} (h₀ : s₀.Started)
    (hrun : inputMachine.Run s₀ h s) :
    lineEditor.Run .empty h s.line ∧
      (s.line.left.length = s.cursor ∧ s.line.text = segment s.inputBuffer 0 s.dataEnd ∧
        0 ∉ s.line.text ∧ s.inputBuffer s.dataEnd = 0 ∧ s.line.text.length ≤ 128) ∧
      (∀ op, (s.edit op).1 = false → (s.edit op).2 = s) ∧
      (∀ (tier : Tier) (v : Vga),
        (Console.handleEnter tier ⟨s, v⟩).input.readBuffer = s.line.text.rdropWhile (· == 0x20) ∧
          Input.InArray (Console.handleEnter tier ⟨s, v⟩).input.accesses) ∧
      Input.InArray s.accesses := by
  obtain ⟨hinv₀, hempty⟩ := h₀.inv
  -- the forward simulation along `line`
  obtain ⟨hinv, hsim⟩ : s.Inv ∧ lineEditor.Run s₀.line h s.line :=
    hrun.simulation Input.line hinv₀ fun s op hI hop => by
      obtain ⟨hinv, heq⟩ := Input.edit_refines hI hop
      exact ⟨hinv, trivial, heq⟩
  rw [hempty] at hsim
  refine ⟨hsim, ⟨length_segment _ _ _, hinv.text_eq, ?_, hinv.terminated, ?_⟩,
    fun op => s.edit_refused, fun tier v => Input.handleEnter_spec hinv tier v, hinv.accesses_in⟩
  · rw [hinv.text_eq, mem_segment]
    rintro ⟨i, hi, hzero⟩
    rw [Nat.zero_add] at hzero
    exact hinv.nonNul i hi hzero.symm
  · rw [hinv.length_text]
    exact hinv.dataEnd_le

/-- A line after an earlier one: two characters, one step back and a tab, on an array that
still holds the earlier line. -/
theorem input_refines_lineEditor_used :
    let used : Input := { Input.init with inputBuffer := fun _ => 0x58, cursor := 3, dataEnd := 7 }
    let s := (inputMachine.exec used.resetBuffer
      [.addCharacter 0x41, .addCharacter 0x20, .moveCursorLeft, .addTab]).2
    (Console.handleEnter .gpr ⟨s, .init (fun _ => 0) ⟨0, fun _ => 0⟩⟩).input.readBuffer
      = s.line.text.rdropWhile (· == 0x20) := by
  intro used s
  have hrun := Machine.Run.snoc (m := inputMachine) EditOp.addTab (.snoc EditOp.moveCursorLeft
    (.snoc (EditOp.addCharacter 0x20) (.snoc (EditOp.addCharacter 0x41)
      (.nil : inputMachine.Run used.resetBuffer [] used.resetBuffer)
      (show _ ≠ EditOp.addCharacter 0 by decide)) (show _ ≠ EditOp.addCharacter 0 by decide))
    (show _ ≠ EditOp.addCharacter 0 by decide)) (show _ ≠ EditOp.addCharacter 0 by decide)
  exact ((input_refines_lineEditor (.inr ⟨used, rfl, rfl⟩) hrun).2.2.2.1 .gpr
    (.init (fun _ => 0) ⟨0, fun _ => 0⟩)).1

end BareMetal
