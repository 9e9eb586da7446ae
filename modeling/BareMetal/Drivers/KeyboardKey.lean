import Mathlib.Data.List.Basic
import Mathlib.Logic.Basic

/-!
# Keys, events and characters

A keyboard event names the key, the code it came with, whether the key went down or
up, and the modifiers at that moment. The tables of the driver map key codes to keys
(one table for plain codes, one for codes after the prefix `0xE0`) and the values of
keys to characters (plain and shifted). Characters are written by their code.

The classification helpers decide what a key event means to the terminal: text, a
control key or a navigation key. `try_translate_text_event` picks the character of a
text event.
-/

namespace BareMetal

/-! ### Keys -/

/-- `keyboard_key`. -/
inductive KeyboardKey where
  | unknown | escape | digit1 | digit2 | digit3 | digit4 | digit5 | digit6 | digit7 | digit8
  | digit9 | digit0 | minus | equals | backspace | tab | q | w | e | r | t | y | u | i | o | p
  | leftBracket | rightBracket | enter | leftCtrl | a | s | d | f | g | h | j | k | l | semicolon
  | apostrophe | backtick | leftShift | backSlash | z | x | c | v | b | n | m | comma | period
  | slash | rightShift | leftAlt | space | capsLock | f1 | f2 | f3 | f4 | f5 | f6 | f7 | f8 | f9
  | f10 | f11 | f12 | rightCtrl | rightAlt | home | arrowUp | pageUp | arrowLeft | arrowRight
  | endKey | arrowDown | pageDown | insert | deleteKey
  deriving DecidableEq

namespace KeyboardKey

/-- The underlying value of a key. -/
def code : KeyboardKey → ℕ
  | .unknown => 0x00 | .escape => 0x01 | .digit1 => 0x02 | .digit2 => 0x03 | .digit3 => 0x04
  | .digit4 => 0x05 | .digit5 => 0x06 | .digit6 => 0x07 | .digit7 => 0x08 | .digit8 => 0x09
  | .digit9 => 0x0A | .digit0 => 0x0B | .minus => 0x0C | .equals => 0x0D | .backspace => 0x0E
  | .tab => 0x0F | .q => 0x10 | .w => 0x11 | .e => 0x12 | .r => 0x13 | .t => 0x14 | .y => 0x15
  | .u => 0x16 | .i => 0x17 | .o => 0x18 | .p => 0x19 | .leftBracket => 0x1A
  | .rightBracket => 0x1B | .enter => 0x1C | .leftCtrl => 0x1D | .a => 0x1E | .s => 0x1F
  | .d => 0x20 | .f => 0x21 | .g => 0x22 | .h => 0x23 | .j => 0x24 | .k => 0x25 | .l => 0x26
  | .semicolon => 0x27 | .apostrophe => 0x28 | .backtick => 0x29 | .leftShift => 0x2A
  | .backSlash => 0x2B | .z => 0x2C | .x => 0x2D | .c => 0x2E | .v => 0x2F | .b => 0x30
  | .n => 0x31 | .m => 0x32 | .comma => 0x33 | .period => 0x34 | .slash => 0x35
  | .rightShift => 0x36 | .leftAlt => 0x38 | .space => 0x39 | .capsLock => 0x3A | .f1 => 0x3B
  | .f2 => 0x3C | .f3 => 0x3D | .f4 => 0x3E | .f5 => 0x3F | .f6 => 0x40 | .f7 => 0x41
  | .f8 => 0x42 | .f9 => 0x43 | .f10 => 0x44 | .f11 => 0x57 | .f12 => 0x58 | .rightCtrl => 0xE01D
  | .rightAlt => 0xE038 | .home => 0xE047 | .arrowUp => 0xE048 | .pageUp => 0xE049
  | .arrowLeft => 0xE04B | .arrowRight => 0xE04D | .endKey => 0xE04F | .arrowDown => 0xE050
  | .pageDown => 0xE051 | .insert => 0xE052 | .deleteKey => 0xE053

/-- `DRIVER_KEYBOARD_KEY_LIST`, by key code. -/
def keyList : List (ℕ × KeyboardKey) :=
  [(0x01, .escape), (0x02, .digit1), (0x03, .digit2), (0x04, .digit3), (0x05, .digit4),
   (0x06, .digit5), (0x07, .digit6), (0x08, .digit7), (0x09, .digit8), (0x0A, .digit9),
   (0x0B, .digit0), (0x0C, .minus), (0x0D, .equals), (0x0E, .backspace), (0x0F, .tab), (0x10, .q),
   (0x11, .w), (0x12, .e), (0x13, .r), (0x14, .t), (0x15, .y), (0x16, .u), (0x17, .i), (0x18, .o),
   (0x19, .p), (0x1A, .leftBracket), (0x1B, .rightBracket), (0x1C, .enter), (0x1D, .leftCtrl),
   (0x1E, .a), (0x1F, .s), (0x20, .d), (0x21, .f), (0x22, .g), (0x23, .h), (0x24, .j), (0x25, .k),
   (0x26, .l), (0x27, .semicolon), (0x28, .apostrophe), (0x29, .backtick), (0x2A, .leftShift),
   (0x2B, .backSlash), (0x2C, .z), (0x2D, .x), (0x2E, .c), (0x2F, .v), (0x30, .b), (0x31, .n),
   (0x32, .m), (0x33, .comma), (0x34, .period), (0x35, .slash), (0x36, .rightShift),
   (0x38, .leftAlt), (0x39, .space), (0x3A, .capsLock), (0x3B, .f1), (0x3C, .f2), (0x3D, .f3),
   (0x3E, .f4), (0x3F, .f5), (0x40, .f6), (0x41, .f7), (0x42, .f8), (0x43, .f9), (0x44, .f10),
   (0x57, .f11), (0x58, .f12)]

/-- `DRIVER_KEYBOARD_EXTENDED_KEY_MAPPING`, by key code. -/
def extendedKeyMapping : List (ℕ × KeyboardKey) :=
  [(0x1D, .rightCtrl), (0x38, .rightAlt), (0x47, .home), (0x48, .arrowUp), (0x49, .pageUp),
   (0x4B, .arrowLeft), (0x4D, .arrowRight), (0x4F, .endKey), (0x50, .arrowDown),
   (0x51, .pageDown), (0x52, .insert), (0x53, .deleteKey)]

/-- `DRIVER_KEYBOARD_NORMAL_KEY_MAPPING`: characters by the value of the key. -/
def normalKeyMapping : List (ℕ × BitVec 8) :=
  [(0x01, 0x00), (0x02, 0x31), (0x03, 0x32), (0x04, 0x33), (0x05, 0x34), (0x06, 0x35),
   (0x07, 0x36), (0x08, 0x37), (0x09, 0x38), (0x0A, 0x39), (0x0B, 0x30), (0x0C, 0x2D),
   (0x0D, 0x3D), (0x0E, 0x00), (0x0F, 0x09), (0x10, 0x71), (0x11, 0x77), (0x12, 0x65),
   (0x13, 0x72), (0x14, 0x74), (0x15, 0x79), (0x16, 0x75), (0x17, 0x69), (0x18, 0x6F),
   (0x19, 0x70), (0x1A, 0x5B), (0x1B, 0x5D), (0x1C, 0x0A), (0x1D, 0x00), (0x1E, 0x61),
   (0x1F, 0x73), (0x20, 0x64), (0x21, 0x66), (0x22, 0x67), (0x23, 0x68), (0x24, 0x6A),
   (0x25, 0x6B), (0x26, 0x6C), (0x27, 0x3B), (0x28, 0x27), (0x29, 0x60), (0x2A, 0x00),
   (0x2B, 0x5C), (0x2C, 0x7A), (0x2D, 0x78), (0x2E, 0x63), (0x2F, 0x76), (0x30, 0x62),
   (0x31, 0x6E), (0x32, 0x6D), (0x33, 0x2C), (0x34, 0x2E), (0x35, 0x2F), (0x36, 0x00),
   (0x38, 0x00), (0x39, 0x20), (0x3A, 0x00)]

/-- `DRIVER_KEYBOARD_SHIFTED_KEY_MAPPING`: characters by the value of the key. -/
def shiftedKeyMapping : List (ℕ × BitVec 8) :=
  [(0x01, 0x00), (0x02, 0x21), (0x03, 0x40), (0x04, 0x23), (0x05, 0x24), (0x06, 0x25),
   (0x07, 0x5E), (0x08, 0x26), (0x09, 0x2A), (0x0A, 0x28), (0x0B, 0x29), (0x0C, 0x5F),
   (0x0D, 0x2B), (0x0E, 0x00), (0x0F, 0x00), (0x10, 0x51), (0x11, 0x57), (0x12, 0x45),
   (0x13, 0x52), (0x14, 0x54), (0x15, 0x59), (0x16, 0x55), (0x17, 0x49), (0x18, 0x4F),
   (0x19, 0x50), (0x1A, 0x7B), (0x1B, 0x7D), (0x1C, 0x0A), (0x1D, 0x00), (0x1E, 0x41),
   (0x1F, 0x53), (0x20, 0x44), (0x21, 0x46), (0x22, 0x47), (0x23, 0x48), (0x24, 0x4A),
   (0x25, 0x4B), (0x26, 0x4C), (0x27, 0x3A), (0x28, 0x22), (0x29, 0x7E), (0x2A, 0x00),
   (0x2B, 0x7C), (0x2C, 0x5A), (0x2D, 0x58), (0x2E, 0x43), (0x2F, 0x56), (0x30, 0x42),
   (0x31, 0x4E), (0x32, 0x4D), (0x33, 0x3C), (0x34, 0x3E), (0x35, 0x3F), (0x36, 0x00),
   (0x38, 0x00), (0x39, 0x20), (0x3A, 0x00)]

/-! ### Classification -/

/-- `is_modifier_key`. -/
def isModifierKey : KeyboardKey → Bool
  | .leftShift | .rightShift | .leftCtrl | .rightCtrl | .rightAlt | .leftAlt | .capsLock => true
  | _ => false

/-- The key's value lies between those of two keys. -/
def between (lo hi key : KeyboardKey) : Bool := lo.code ≤ key.code && key.code ≤ hi.code

/-- `is_letter_key`. -/
def isLetterKey (key : KeyboardKey) : Bool :=
  between .q .p key || between .a .l key || between .z .m key

/-- `is_digit_key`. -/
def isDigitKey (key : KeyboardKey) : Bool := between .digit1 .digit0 key

/-- `is_space_key`. -/
def isSpaceKey (key : KeyboardKey) : Bool := key = .space

/-- `is_symbol_key`. -/
def isSymbolKey (key : KeyboardKey) : Bool :=
  if between .semicolon .backtick key then true
  else if between .comma .slash key then true
  else match key with
    | .minus | .equals | .leftBracket | .rightBracket | .backSlash => true
    | _ => false

/-- `is_arrow_key`. -/
def isArrowKey : KeyboardKey → Bool
  | .arrowUp | .arrowDown | .arrowLeft | .arrowRight => true
  | _ => false

/-- `is_navigation_key`. -/
def isNavigationKey : KeyboardKey → Bool
  | .home | .pageUp | .endKey | .pageDown => true
  | key => isArrowKey key

/-- `is_text_key`. -/
def isTextKey (key : KeyboardKey) : Bool :=
  isLetterKey key || isDigitKey key || isSpaceKey key || isSymbolKey key

/-- `is_control_key`. -/
def isControlKey : KeyboardKey → Bool
  | .escape | .backspace | .tab | .enter => true
  | _ => false

/-- `get_normal_character`. -/
def normalCharacter (key : KeyboardKey) : BitVec 8 := (normalKeyMapping.lookup key.code).getD 0

/-- `get_shifted_character`. -/
def shiftedCharacter (key : KeyboardKey) : BitVec 8 := (shiftedKeyMapping.lookup key.code).getD 0

end KeyboardKey

/-- `map_scancode_set_1_key`. -/
def mapScancodeSet1Key (keyCode : BitVec 8) (extended : Bool) : KeyboardKey :=
  if extended then (KeyboardKey.extendedKeyMapping.lookup keyCode.toNat).getD .unknown
  else (KeyboardKey.keyList.lookup keyCode.toNat).getD .unknown

/-! ### Modifiers -/

/-- The bits of a `modifier_state`. -/
inductive KeyboardModifierState where
  | leftShiftDown | rightShiftDown | leftCtrlDown | rightCtrlDown | leftAltDown | rightAltDown
  | capsLockDown | capsLockOn
  deriving DecidableEq

/-- The mask of a modifier. -/
def KeyboardModifierState.mask : KeyboardModifierState → BitVec 8
  | .leftShiftDown => 1 <<< 0 | .rightShiftDown => 1 <<< 1 | .leftCtrlDown => 1 <<< 2
  | .rightCtrlDown => 1 <<< 3 | .leftAltDown => 1 <<< 4 | .rightAltDown => 1 <<< 5
  | .capsLockDown => 1 <<< 6 | .capsLockOn => 1 <<< 7

open KeyboardModifierState in
/-- `is_shift_active`. -/
def isShiftActive (mod : BitVec 8) : Bool :=
  mod &&& (leftShiftDown.mask ||| rightShiftDown.mask) ≠ 0

/-- `is_caps_down`. -/
def isCapsDown (mod : BitVec 8) : Bool := mod &&& KeyboardModifierState.capsLockDown.mask ≠ 0

/-- `is_caps_lock_active`. -/
def isCapsLockActive (mod : BitVec 8) : Bool := mod &&& KeyboardModifierState.capsLockOn.mask ≠ 0

/-! ### Events -/

/-- `key_state`. -/
inductive KeyState where
  | released
  | pressed
  deriving DecidableEq

/-- `keyboard_event`. -/
structure KeyboardEvent where
  key : KeyboardKey
  keyCode : BitVec 8
  state : KeyState
  extended : Bool
  modifiers : BitVec 8
  deriving DecidableEq

namespace KeyboardEvent

/-- `keyboard_event{}`. -/
def init : KeyboardEvent := ⟨.unknown, 0, .released, false, 0⟩

variable (event : KeyboardEvent)

/-- `is_input_candidate_event`. -/
def isInputCandidate : Bool := event.state = .pressed && !event.key.isModifierKey

/-- `is_text_input_candidate_event`. -/
def isTextInputCandidate : Bool := event.isInputCandidate && event.key.isTextKey

/-- `is_control_input_candidate_event`. -/
def isControlInputCandidate : Bool := event.isInputCandidate && event.key.isControlKey

/-- `is_navigation_input_candidate_event`. -/
def isNavigationInputCandidate : Bool := event.isInputCandidate && event.key.isNavigationKey

/-- `try_translate_text_event`. -/
def tryTranslateText : Option (BitVec 8) :=
  if !event.isTextInputCandidate then none
  else
    let shiftPressed := isShiftActive event.modifiers
    let capsOn := isCapsLockActive event.modifiers
    if event.key.isLetterKey then
      some (if shiftPressed ≠ capsOn then event.key.shiftedCharacter else event.key.normalCharacter)
    else
      some (if shiftPressed then event.key.shiftedCharacter else event.key.normalCharacter)

/-- **Text is printable.** A character that a text event stands for is between the space
and the tilde, so it is neither the end of a string nor a line break. -/
theorem tryTranslateText_printable {event : KeyboardEvent} {c : BitVec 8}
    (h : event.tryTranslateText = some c) : 0x20 ≤ c ∧ c ≤ 0x7E := by
  have hkeys : ∀ key : KeyboardKey, key.isTextKey = true →
      (0x20 ≤ key.normalCharacter ∧ key.normalCharacter ≤ 0x7E) ∧
        (0x20 ≤ key.shiftedCharacter ∧ key.shiftedCharacter ≤ 0x7E) := by
    intro key hkey
    -- a finite check over the keys
    cases key <;> first | decide | exact absurd hkey (by decide)
  unfold tryTranslateText at h
  by_cases htext : event.isTextInputCandidate = true
  · have hkey : event.key.isTextKey = true := by
      unfold isTextInputCandidate at htext
      exact (Bool.and_eq_true_iff.mp htext).2
    -- either table gives a printable character
    obtain ⟨hnormal, hshifted⟩ := hkeys event.key hkey
    rw [htext] at h
    simp only [Bool.not_true, Bool.false_eq_true, if_false] at h
    split at h
    · obtain rfl := Option.some.inj h
      split
      · exact hshifted
      · exact hnormal
    · obtain rfl := Option.some.inj h
      split
      · exact hshifted
      · exact hnormal
  · rw [Bool.not_eq_true] at htext
    rw [htext] at h
    exact absurd h (by simp)

end KeyboardEvent
end BareMetal
