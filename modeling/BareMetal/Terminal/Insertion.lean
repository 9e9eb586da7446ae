import BareMetal.Terminal.LineEditor

/-!
# A string and its characters

`add_string` inserts a text at once, shifting the rest of the line once; typing the text
shifts it once a character. Both end in the same line, byte by byte and with the bytes
behind it untouched (`InsertedOnly.unique`), as insertions compose (`InsertedOnly.cons`).

They differ in one case. `buffer_full` refuses a character when the line has 128, but
`add_string` refuses a text already when the line would reach 128, so a text that fills the
line exactly can be typed and not inserted (`addString_eq_addCharacters_iff`).

The statement is about every state in which the object edits a line. The object is driven
by the loop of `start_data_receiving`, which stops at Enter, and by `reset`.
-/

namespace BareMetal

open Framework

namespace Input

/-- Calls of `add_character`, one a character: whether all of them returned true, and the
state after them. -/
def addCharacters : List (BitVec 8) → Input → Bool × Input
  | [], s => (true, s)
  | c :: t, s =>
    let r := s.addCharacter c
    let rest := addCharacters t r.2
    (r.1 && rest.1, rest.2)

/-- What `handle_enter` does to the object. -/
def enter (s : Input) : Input :=
  { (if 0 < s.count then s.trimEnd else s) with inputReady := true }

theorem handleEnter_input (tier : Tier) (con : Console) :
    (con.handleEnter tier).input = con.input.enter := rfl

/-! ### Insertions compose -/

section Compose

variable {s s₁ s₂ s' : Input} {t : List (BitVec 8)}

/-- Nothing was inserted. -/
theorem insertedOnly_nil (h : s.Inv) : InsertedOnly s s [] where
  inv := h
  cursor_eq := rfl
  dataEnd_eq := rfl
  left _ _ := rfl
  text := rfl
  right _ _ _ := rfl
  behind _ _ := rfl

/-- A character, and then the rest of the text. -/
theorem InsertedOnly.cons {c : BitVec 8} (h : InsertedOnly s s₁ [c])
    (hrest : InsertedOnly s₁ s' t) : InsertedOnly s s' (c :: t) := by
  -- the rest comes in one place further to the right
  have hcursor : s₁.cursor = s.cursor + 1 := h.cursor_eq
  have hdataEnd : s₁.dataEnd = s.dataEnd + 1 := h.dataEnd_eq
  have hcursor' := hrest.cursor_eq
  have hdataEnd' := hrest.dataEnd_eq
  refine ⟨⟨hrest.inv, ?_, ?_, ?_, ?_, ?_⟩, ?_⟩
  · rw [List.length_cons]
    omega
  · rw [List.length_cons]
    omega
  · intro i hi
    rw [hrest.left i (by omega), h.left i hi]
  · -- the character is left of the cursor when the rest comes
    have hhead : s'.inputBuffer s.cursor = c := by
      rw [hrest.left _ (by omega)]
      exact List.singleton_inj.mp h.text
    have htail : segment s'.inputBuffer (s.cursor + 1) t.length = t := by
      rw [← hcursor]
      exact hrest.text
    rw [List.length_cons, Framework.segment, hhead, htail]
  · intro i h₁ h₂
    calc s'.inputBuffer (i + (c :: t).length)
        = s'.inputBuffer (i + 1 + t.length) := by
          rw [List.length_cons, Nat.add_right_comm, Nat.add_assoc i]
      _ = s₁.inputBuffer (i + 1) := hrest.right (i + 1) (by omega) (by omega)
      _ = s.inputBuffer i := h.right i h₁ h₂
  · intro i hi
    rw [hrest.behind i hi, h.behind i (by omega)]

/-- The lines of two objects are the same, byte for byte of the array. -/
structure SameLine (s₁ s₂ : Input) : Prop where
  inputBuffer_eq : s₁.inputBuffer = s₂.inputBuffer
  cursor_eq : s₁.cursor = s₂.cursor
  dataEnd_eq : s₁.dataEnd = s₂.dataEnd

/-- **The text determines the line.** -/
theorem InsertedOnly.unique (h₁ : InsertedOnly s s₁ t) (h₂ : InsertedOnly s s₂ t) (h : s.Inv) :
    SameLine s₁ s₂ := by
  have hdataEnd₁ := h₁.dataEnd_eq
  have hdataEnd₂ := h₂.dataEnd_eq
  have hle := h.cursor_le
  refine ⟨?_, h₁.cursor_eq.trans h₂.cursor_eq.symm, hdataEnd₁.trans hdataEnd₂.symm⟩
  ext1 i
  by_cases hleft : i < s.cursor
  · rw [h₁.left i hleft, h₂.left i hleft]
  by_cases htext : i < s.cursor + t.length
  · -- a byte of the text
    obtain ⟨j, rfl⟩ := Nat.exists_eq_add_of_le (not_lt.mp hleft)
    have hj : j < t.length := by omega
    have hsegments := congrArg (fun l : List (BitVec 8) => l[j]?) (h₁.text.trans h₂.text.symm)
    simp only [getElem?_segment hj] at hsegments
    exact Option.some.inj hsegments
  by_cases hright : i < s.dataEnd + t.length
  · obtain ⟨j, rfl⟩ := Nat.exists_eq_add_of_le' (show t.length ≤ i by omega)
    rw [h₁.right j (by omega) (by omega), h₂.right j (by omega) (by omega)]
  by_cases hend : i = s.dataEnd + t.length
  · -- the NUL
    have hnul₁ := h₁.inv.terminated
    have hnul₂ := h₂.inv.terminated
    rw [hdataEnd₁] at hnul₁
    rw [hdataEnd₂] at hnul₂
    rw [hend, hnul₁, hnul₂]
  · rw [h₁.behind i (by omega), h₂.behind i (by omega)]

end Compose

/-- **Typing a text** inserts it if it fits, and otherwise some character is refused. -/
theorem addCharacters_spec {s : Input} (h : s.Inv) {t : List (BitVec 8)} (ht : 0 ∉ t) :
    inputCapacity < s.dataEnd + t.length ∧ (addCharacters t s).1 = false ∨
      s.dataEnd + t.length ≤ inputCapacity ∧ (addCharacters t s).1 = true ∧
        InsertedOnly s (addCharacters t s).2 t := by
  induction t generalizing s with
  | nil => exact .inr ⟨h.dataEnd_le, rfl, insertedOnly_nil h⟩
  | cons c t ih =>
    rw [List.mem_cons, not_or] at ht
    obtain ⟨hc, ht⟩ := ht
    change inputCapacity < _ ∧ ((s.addCharacter c).1 && (addCharacters t (s.addCharacter c).2).1)
        = false ∨ _ ∧ ((s.addCharacter c).1 && (addCharacters t (s.addCharacter c).2).1) = true ∧
          InsertedOnly s (addCharacters t (s.addCharacter c).2).2 (c :: t)
    rw [List.length_cons]
    rcases addCharacter_spec h (Ne.symm hc) with ⟨hfull, hadd⟩ | ⟨hfits, htrue, hins⟩
    · -- the first character is refused
      rw [hadd]
      exact .inl ⟨by omega, rfl⟩
    · have hdataEnd : (s.addCharacter c).2.dataEnd = s.dataEnd + 1 := hins.dataEnd_eq
      rw [htrue, Bool.true_and]
      rcases ih hins.inv ht with ⟨hover, hfalse⟩ | ⟨hrest, hall, hinsRest⟩
      · exact .inl ⟨by omega, hfalse⟩
      · exact .inr ⟨by omega, hall, hins.cons hinsRest⟩

end Input

/-! ### The object in use -/

/-- What happens to an input object. -/
inductive ObjectOp where
  | edit (op : EditOp)
  | addString (string : List (BitVec 8))
  | enter
  | reset

/-- The object in use. Editing and Enter are steps of the loop `while(!input_ready)`, and
the characters it adds are not NUL; `reset` is always possible. -/
def inputObject : Machine Input ObjectOp Bool where
  step s
    | .edit op => s.edit op
    | .addString string => s.addString string
    | .enter => (true, s.enter)
    | .reset => (true, s.resetBuffer)
  enabled s
    | .edit op => s.inputReady = false ∧ op ≠ .addCharacter 0
    | .addString string => s.inputReady = false ∧ 0 ∉ string ∧ string.length < 2 ^ 8
    | .enter => s.inputReady = false
    | .reset => True

/-- While a line is edited, its invariant holds. After Enter the record still says that no
access left the array, which is what the next `reset` needs. -/
structure Input.InUse (s : Input) : Prop where
  inv : s.inputReady = false → s.Inv
  accesses_in : Input.InArray s.accesses

theorem Input.Inv.inUse {s : Input} (h : s.Inv) : s.InUse := ⟨fun _ => h, h.accesses_in⟩

theorem inUse_of_run {s : Input} {h : List (ObjectOp × Bool)}
    (hrun : inputObject.Run .init h s) : s.InUse := by
  refine hrun.invariant_state (Input.Started.inv (.inl rfl)).1.inUse ?_
  intro s op hs hen
  cases op with
  | edit op => exact (Input.edit_refines (hs.inv hen.1) hen.2).1.inUse
  | addString string =>
    have hinv := hs.inv hen.1
    change (s.addString string).2.InUse
    rcases Input.addString_spec hinv hen.2.1 hen.2.2 with ⟨-, heq⟩ | ⟨-, -, hins⟩
    · rw [heq]
      exact hinv.inUse
    · exact hins.inv.inUse
  | enter =>
    -- the line is over: nothing is promised until the next reset
    refine ⟨fun hready => absurd (show true = false from hready) (by decide), ?_⟩
    have hspec := (Input.handleEnter_spec (hs.inv hen) .gpr (.init (fun _ => 0) ⟨0, fun _ => 0⟩)).2
    rwa [Input.handleEnter_input] at hspec
  | reset => exact (Input.resetBuffer_inv hs.accesses_in).inUse

/-- **When a string is its characters.** In every reachable state in which a line is being
edited, and for every string of fewer than 256 characters: `add_string` succeeds exactly
when the characters fit, that is when as many calls of `add_character` all succeed, then
both leave the same line, and otherwise it changes nothing. All this holds exactly when the
string does not fill the line to its capacity. -/
theorem addString_eq_addCharacters_iff {s : Input} {h : List (ObjectOp × Bool)}
    (hrun : inputObject.Run .init h s) (hready : s.inputReady = false) {t : List (BitVec 8)}
    (ht : 0 ∉ t) (hlength : t.length < 2 ^ 8) :
    (((s.addString t).1 = true ↔ s.dataEnd + t.length ≤ inputCapacity) ∧
        ((s.addString t).1 = true ↔ (Input.addCharacters t s).1 = true) ∧
        ((s.addString t).1 = true →
          Input.SameLine (s.addString t).2 (Input.addCharacters t s).2) ∧
        ((s.addString t).1 = false → (s.addString t).2 = s)) ↔
      s.dataEnd + t.length ≠ inputCapacity := by
  have hinv := (inUse_of_run hrun).inv hready
  have hstring := Input.addString_spec hinv ht hlength
  have hchars := Input.addCharacters_spec hinv ht
  constructor
  · rintro ⟨hfits, -⟩ hfull
    -- the string that fills the line is refused
    rcases hstring with ⟨-, heq⟩ | ⟨hlt, -⟩
    · rw [heq] at hfits
      exact absurd (hfits.mpr (Nat.le_of_eq hfull)) Bool.noConfusion
    · exact absurd hfull (Nat.ne_of_lt hlt)
  · intro hne
    rcases hstring with ⟨hge, heq⟩ | ⟨hlt, htrue, hins⟩
    · rw [heq]
      rcases hchars with ⟨-, hfalse⟩ | ⟨hle, -⟩
      · rw [hfalse]
        exact ⟨iff_of_false Bool.noConfusion (by omega), Iff.rfl,
          fun h => absurd h Bool.noConfusion, fun _ => rfl⟩
      · exact absurd (le_antisymm hle hge) hne
    · rw [htrue]
      rcases hchars with ⟨hover, -⟩ | ⟨hle, hall, hins'⟩
      · exact absurd hover (by omega)
      · exact ⟨iff_of_true rfl hle, iff_of_true rfl hall, fun _ => hins.unique hins' hinv,
          fun h => absurd h Bool.noConfusion⟩

instance (s : Input) (op : ObjectOp) : Decidable (inputObject.enabled s op) :=
  match op with
  | .edit op => inferInstanceAs (Decidable (s.inputReady = false ∧ op ≠ .addCharacter 0))
  | .addString string =>
    inferInstanceAs (Decidable (s.inputReady = false ∧ 0 ∉ string ∧ string.length < 2 ^ 8))
  | .enter => inferInstanceAs (Decidable (s.inputReady = false))
  | .reset => isTrue trivial

/-- A word inserted before the last character. -/
theorem addString_eq_addCharacters_iff_word :
    let s := (inputObject.exec .init [.edit (.addCharacter 0x21), .edit .moveCursorLeft]).2
    Input.SameLine (s.addString [0x6F, 0x6B]).2 (Input.addCharacters [0x6F, 0x6B] s).2 := by
  intro s
  have hrun : inputObject.EnabledAlong .init
      [.edit (.addCharacter 0x21), .edit .moveCursorLeft] := by decide
  exact ((addString_eq_addCharacters_iff hrun.run rfl (by decide) (by decide)).mpr
    (by decide)).2.2.1 (by decide)

/-- **A string that fills the line is refused.** After 31 tabs the line has 124 characters.
Four spaces more can be typed, but the next tab is refused. -/
theorem addString_refuses_full_line :
    let tabs := List.replicate 31 (ObjectOp.edit .addTab)
    let s := (inputObject.exec .init tabs).2
    inputObject.Run .init (inputObject.exec .init tabs).1 s ∧ s.inputReady = false ∧
      s.dataEnd + tabSpaces.length = inputCapacity ∧ (s.addString tabSpaces).1 = false ∧
      (Input.addCharacters tabSpaces s).1 = true := by
  intro tabs s
  have hrun : inputObject.EnabledAlong .init tabs := by decide +kernel
  exact ⟨hrun.run, by decide +kernel, by decide +kernel, by decide +kernel, by decide +kernel⟩

end BareMetal
