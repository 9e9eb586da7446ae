import BareMetal.Drivers.KeyboardKey
import BareMetal.Tools.Builtin

/-!
# The keyboard driver

The interrupt handler decodes scancodes: the prefix `0xE0` selects the extended key
table for the next code, the top bit of a code tells a release from a press, and keys
that are modifiers update the modifier state. Each code becomes an event in a ring
of 64; the terminal takes events out by polling. The handler runs with interrupts
off and a poll turns them off, so both are single steps.

A state `Keyboard` holds the three globals of the driver.
-/

namespace BareMetal

/-! ### Constants -/

def outputBufferFull : BitVec 8 := 0x01
def releaseMask : BitVec 8 := 0x80
def keyCodeMask : BitVec 8 := 0x7F
def extendedPrefix : BitVec 8 := 0xE0
def keyboardEventQueueSize : ℕ := 64
def keyboardEventQueueMask : ℕ := keyboardEventQueueSize - 1

/-! ### Modifiers -/

/-- A modifier that is down while its key is. -/
def setModifier (modifier : KeyboardModifierState) (state : KeyState) (g : BitVec 8) : BitVec 8 :=
  if state = .pressed then g ||| modifier.mask else g &&& ~~~modifier.mask

/-- The caps lock key: the lock toggles when the key goes down, and not again while it
is held. -/
def setCapsLock (state : KeyState) (g : BitVec 8) : BitVec 8 :=
  if state = .pressed then
    if !isCapsDown g then
      let g := g ||| KeyboardModifierState.capsLockDown.mask
      if isCapsLockActive g then g &&& ~~~KeyboardModifierState.capsLockOn.mask
      else g ||| KeyboardModifierState.capsLockOn.mask
    else g
  else g &&& ~~~KeyboardModifierState.capsLockDown.mask

/-- `update_modifier_state`. -/
def updateModifierState (key : KeyboardKey) (state : KeyState) (g : BitVec 8) : BitVec 8 :=
  match key with
  | .leftShift => setModifier .leftShiftDown state g
  | .rightShift => setModifier .rightShiftDown state g
  | .leftCtrl => setModifier .leftCtrlDown state g
  | .rightCtrl => setModifier .rightCtrlDown state g
  | .leftAlt => setModifier .leftAltDown state g
  | .rightAlt => setModifier .rightAltDown state g
  | .capsLock => setCapsLock state g
  | _ => g

/-! ### The queue -/

/-- `keyboard_event_queue`. -/
structure KeyboardEventQueue where
  entries : ℕ → KeyboardEvent
  head : ℕ
  tail : ℕ
  count : ℕ

/-- `next_keyboard_event`. -/
def nextKeyboardEvent (index : ℕ) : ℕ := (index + 1) &&& keyboardEventQueueMask

/-- The fields of the entry at the tail are written, then `commit_keyboard_event`. -/
def KeyboardEventQueue.commit (q : KeyboardEventQueue) (event : KeyboardEvent) :
    KeyboardEventQueue where
  entries := Function.update q.entries q.tail event
  head := q.head
  tail := nextKeyboardEvent q.tail
  count := u8 (q.count + 1)

/-! ### The driver -/

/-- The globals of the driver. -/
structure Keyboard where
  extendedPending : Bool
  modifierState : BitVec 8
  queue : KeyboardEventQueue

namespace Keyboard

/-- The globals as they are initialised. -/
def init : Keyboard where
  extendedPending := false
  modifierState := 0
  queue :=
    { entries := fun _ => .init, head := 0, tail := 0, count := 0 }

variable (k : Keyboard)

/-- `handle_keyboard_interrupt`, with what the status port and the data port read. -/
def handleInterrupt (status scancode : BitVec 8) : Keyboard :=
  if status &&& outputBufferFull = 0 then k
  else if scancode = extendedPrefix then { k with extendedPending := true }
  -- a full queue: the handler leaves before it has looked at the code
  else if keyboardEventQueueSize ≤ k.queue.count then k
  else
    let extended := k.extendedPending
    let keyCode := scancode &&& keyCodeMask
    let key := mapScancodeSet1Key keyCode extended
    let state := if scancode &&& releaseMask = 0 then KeyState.pressed else .released
    let modifierState := updateModifierState key state k.modifierState
    { extendedPending := false
      modifierState := modifierState
      queue := k.queue.commit
        { key := key, keyCode := keyCode, state := state, extended := extended,
          modifiers := modifierState } }

/-- `poll_keyboard_event`, with the cell its argument points to. -/
def pollInto (outEvent : KeyboardEvent) : Bool × KeyboardEvent × Keyboard :=
  if k.queue.count = 0 then (false, outEvent, k)
  else (true, k.queue.entries k.queue.head,
    { k with queue :=
      { k.queue with
        head := nextKeyboardEvent k.queue.head
        count := u8Sub k.queue.count 1 } })

/-- `has_pending_keyboard_event`. -/
def hasPendingEvent : ℕ := k.queue.count

end Keyboard
end BareMetal
