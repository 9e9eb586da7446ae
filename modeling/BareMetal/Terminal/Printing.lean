import BareMetal.Terminal.Numbers

/-!
# Printing a sequence of items

Characters, strings, integers, booleans and pointers go to an `output` in any order, with
manipulators in between. Each item comes to the screen as some text: the buffer is left as
`operator<<` of that text leaves it, and so are the cursor and the hardware cursor
(`printAll_texts`). What the text of a number is, `BareMetal.Terminal.Decimal` and
`BareMetal.Terminal.Hexadecimal` say.
-/

namespace BareMetal

open Framework

/-- The characters of a string literal, which are ASCII ones. -/
def ascii (s : String) : List (BitVec 8) := s.toList.map fun c => BitVec.ofNat 8 c.toNat

/-- What can be sent to an `output`. -/
inductive Item where
  | char (c : BitVec 8)
  | string (text : List (BitVec 8))
  | unsigned (w : Width) (value : ℕ)
  | signed (w : Width) (value : ℤ)
  | bool (value : Bool)
  | pointer (value : ℕ)
  | dec
  | hex
  | boolAlpha
  | boolNoAlpha

namespace Output

variable (tier : Tier)

/-- `operator<<`, of whatever it is. -/
def print (clzZero : ℤ) (o : Output) : Item → Output
  | .char c => (o.putCharNoSync tier c).syncCursor
  | .string text => (o.writeStringNoSync tier text).syncCursor
  | .unsigned w value => o.printUnsigned tier w value
  | .signed w value => o.printSigned tier w value
  | .bool value => o.printBool tier value
  | .pointer value => o.printPointer tier clzZero value
  | .dec => o.dec
  | .hex => o.hex
  | .boolAlpha => o.boolAlpha
  | .boolNoAlpha => o.boolNoAlpha

/-- The items one after the other. -/
def printAll (clzZero : ℤ) (o : Output) (items : List Item) : Output :=
  items.foldl (fun o item => o.print tier clzZero item) o

/-! ### Every function prints a text -/

/-- `o'` is `o` after printing a text. -/
def Shows (o o' : Output) : Prop := ∃ text, Prints tier (fun _ => True) o o' text

variable {tier} {o o₁ o' : Output}

theorem shows_putChar (c : BitVec 8) : Shows tier o (o.putCharNoSync tier c) :=
  ⟨[c], prints_putChar c⟩

theorem Shows.trans (h₁ : Shows tier o o₁) (h : Shows tier o₁ o') : Shows tier o o' := by
  obtain ⟨text₁, hprints₁⟩ := h₁
  obtain ⟨text, hprints⟩ := h
  exact ⟨text₁ ++ text, hprints₁.trans hprints⟩

theorem shows_perform (op : PartialOp) : Shows tier o (o.perform op) :=
  ⟨[], prints_perform trivial⟩

theorem shows_fillDigits (size : ℕ) (value current : ℤ) (digits : List (BitVec 8)) (o : Output) :
    Shows tier o (fillDigits size value current digits o).2 := by
  fun_induction fillDigits size value current digits o with
  | case1 _ _ _ o _ _ _ _ _ ih => exact (shows_perform _).trans ih
  | case2 => exact shows_perform _

theorem shows_writeUnsigned (t : IntType) (value : ℤ) (o : Output) :
    Shows tier o (o.writeUnsignedNoSync tier t value) :=
  (shows_fillDigits _ _ _ _ o).trans ⟨_, prints_writeString _⟩

theorem shows_putNibbles (bits value : ℕ) (shift : ℤ) (o : Output) :
    Shows tier o (putNibbles tier bits value shift o) := by
  fun_induction putNibbles tier bits value shift o with
  | case1 shift o hshift ih => exact ((shows_perform _).trans (shows_putChar _)).trans ih
  | case2 => exact ⟨[], prints_nil⟩

theorem shows_hexPrefix : Shows tier o (o.putHexPrefix tier) :=
  (shows_putChar 0x30).trans (shows_putChar 0x78)

theorem shows_writeHex (w : Width) (value : ℕ) (o : Output) :
    Shows tier o (o.writeHexNoSync tier w value) := by
  rw [writeHexNoSync_eq, writeHexOf]
  by_cases hzero : value = 0
  · simp only [if_pos hzero]
    exact shows_hexPrefix.trans (shows_putChar _)
  · simp only [if_neg hzero]
    exact (shows_hexPrefix.trans (shows_perform _)).trans (shows_putNibbles _ _ _ _)

theorem shows_writeSigned (w : Width) (value : ℤ) (o : Output) :
    Shows tier o (o.writeSignedNoSync tier w value) := by
  rw [writeSignedNoSync_eq, writeSignedOf]
  split
  · exact (shows_putChar _).trans (shows_writeUnsigned _ _ _)
  · exact shows_writeUnsigned _ _ _

/-- `o'` is `o` after printing a text and moving the hardware cursor. -/
def ShowsSynced (tier : Tier) (o o' : Output) : Prop := ∃ o₁, Shows tier o o₁ ∧ o' = o₁.syncCursor

theorem printUnsigned_shows (w : Width) (value : ℕ) (o : Output) :
    ShowsSynced tier o (o.printUnsigned tier w value) := by
  unfold printUnsigned
  cases o.state with
  | dec => exact ⟨_, shows_writeUnsigned _ _ o, rfl⟩
  | hex => exact ⟨_, shows_writeHex w value o, rfl⟩

theorem printSigned_shows (w : Width) (value : ℤ) (o : Output) :
    ShowsSynced tier o (o.printSigned tier w value) := by
  unfold printSigned
  cases o.state with
  | dec => exact ⟨_, shows_writeSigned w value o, rfl⟩
  | hex =>
    by_cases hneg : value < 0
    · simp only [if_pos hneg]
      exact ⟨_, (shows_putChar _).trans (shows_writeHex _ _ _), rfl⟩
    · simp only [if_neg hneg]
      exact ⟨_, shows_writeHex _ _ o, rfl⟩

theorem printBool_shows (value : Bool) (o : Output) :
    ShowsSynced tier o (o.printBool tier value) := by
  unfold printBool
  split
  · exact ⟨_, ⟨_, prints_writeString _⟩, rfl⟩
  · exact ⟨_, shows_putChar _, rfl⟩

theorem printPointer_shows (clzZero : ℤ) (value : ℕ) (o : Output) :
    ShowsSynced tier o (o.printPointer tier clzZero value) :=
  ⟨_, (shows_hexPrefix.trans (shows_perform _)).trans (shows_putNibbles _ _ _ _), rfl⟩

/-! ### Items -/

/-- The texts that a stretch of items comes to the screen as. -/
structure Texts (tier : Tier) (o o' : Output) (texts : List (List (BitVec 8))) : Prop where
  buffer_eq : o'.buffer = texts.foldl (fun v text => v.printString tier text) o.buffer
  text_eq : o'.text = o.text ++ texts.flatten

theorem texts_nil (hbuffer : o'.buffer = o.buffer) (htext : o'.text = o.text) :
    Texts tier o o' [] where
  buffer_eq := hbuffer
  text_eq := htext.trans (List.append_nil _).symm

theorem ShowsSynced.texts (h : ShowsSynced tier o o') : ∃ text, Texts tier o o' [text] := by
  obtain ⟨o₁, ⟨text, hprints⟩, rfl⟩ := h
  refine ⟨text, congrArg Vga.syncCursor hprints.buffer_eq, ?_⟩
  rw [List.flatten_singleton]
  exact hprints.text_eq

/-- One item is one text, or none if it is a manipulator. -/
theorem print_texts (clzZero : ℤ) (o : Output) (item : Item) :
    ∃ texts, Texts tier o (o.print tier clzZero item) texts := by
  have hsynced {o' : Output} (h : ShowsSynced tier o o') : ∃ texts, Texts tier o o' texts := by
    obtain ⟨text, htext⟩ := h.texts
    exact ⟨[text], htext⟩
  cases item with
  | char c => exact hsynced ⟨_, shows_putChar c, rfl⟩
  | string text => exact hsynced ⟨_, ⟨text, prints_writeString text⟩, rfl⟩
  | unsigned w value => exact hsynced (printUnsigned_shows w value o)
  | signed w value => exact hsynced (printSigned_shows w value o)
  | bool value => exact hsynced (printBool_shows value o)
  | pointer value => exact hsynced (printPointer_shows clzZero value o)
  | dec | hex | boolAlpha | boolNoAlpha => exact ⟨[], texts_nil rfl rfl⟩

/-- **A sequence of items.** Whatever is sent, the screen is left as the texts of the items
leave it, printed one after the other. -/
theorem printAll_texts (clzZero : ℤ) (o : Output) (items : List Item) :
    ∃ texts, Texts tier o (o.printAll tier clzZero items) texts := by
  induction items generalizing o with
  | nil => exact ⟨[], texts_nil rfl rfl⟩
  | cons item items ih =>
    obtain ⟨first, hfirst⟩ : ∃ texts, Texts tier o (o.print tier clzZero item) texts :=
      print_texts clzZero o item
    obtain ⟨rest, hrest⟩ := ih (o.print tier clzZero item)
    refine ⟨first ++ rest, hrest.buffer_eq.trans ?_, hrest.text_eq.trans ?_⟩
    · rw [hfirst.buffer_eq, List.foldl_append]
    · rw [hfirst.text_eq, List.flatten_append, List.append_assoc]

end Output
end BareMetal
