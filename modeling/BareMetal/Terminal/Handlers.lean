import BareMetal.Drivers.KeyboardKey
import BareMetal.Terminal.Input
import BareMetal.Terminal.Output

/-!
# Key handlers

What `terminal::input` does with the events it polls. A text event inserts its
character, control and navigation keys have their handlers, everything else is
ignored. Each handler first edits the line and then repairs the screen: it prints the
rest of the line behind the cursor and jumps back, or moves the cursor along.

A `Console` is the input line with the screen it draws on.
-/

namespace BareMetal

/-- The input object with the text buffer behind its output object. -/
structure Console where
  input : Input
  screen : Vga

/-- The tab as text. -/
def tabSpaces : List (BitVec 8) := [0x20, 0x20, 0x20, 0x20]

namespace Input

variable (s : Input)

/-- The string from the cursor on. -/
def rest : List (BitVec 8) := cString s.inputBuffer (inputCapacity + 1) s.cursor

/-- `static_cast<uint8_t>(data_end - cursor)`. -/
def restCount : ℕ := u8OfInt (s.dataEnd - s.cursor)

end Input

namespace Console

variable (tier : Tier) (con : Console)

/-- The rest of the line is printed and the cursor jumps back over it. -/
def reprintRest : Console :=
  if con.input.cursor ≠ con.input.dataEnd then
    let screen := con.screen.writeStringNoSync tier con.input.rest
    { con with screen := (screen.moveCursorLeftN con.input.restCount).syncCursor }
  else con

/-- The branch of `start_data_receiving` for a text event. -/
def textInput (c : BitVec 8) : Console :=
  match con.input.addCharacter c with
  | (true, input) => reprintRest tier ⟨input, con.screen.printChar tier c⟩
  | (false, input) => { con with input := input }

/-- `handle_tab`. -/
def handleTab : Console :=
  match con.input.addString tabSpaces with
  | (true, input) => reprintRest tier ⟨input, con.screen.printString tier tabSpaces⟩
  | (false, input) => { con with input := input }

/-- `handle_backspace`. -/
def handleBackspace : Console :=
  match con.input.deleteCharacter with
  | (true, input) =>
    let screen := con.screen.removeLastChar
    let screen :=
      if input.cursor ≠ input.dataEnd then
        let screen := screen.writeStringNoSync tier input.rest
        let screen := screen.putCharNoSync tier 0x20
        screen.moveCursorLeftN (u8 (input.restCount + 1))
      else screen
    ⟨input, screen.syncCursor⟩
  | (false, input) => { con with input := input }

/-- The loop of `handle_escape`. -/
def deleteLastChars : ℕ → Vga → Vga
  | 0, v => v
  | steps + 1, v => deleteLastChars steps v.removeLastChar

/-- `handle_escape`. -/
def handleEscape : Console :=
  let screen := con.screen.moveCursorRightN con.input.restCount
  let screen := deleteLastChars con.input.count screen
  ⟨con.input.resetBuffer, screen.syncCursor⟩

/-- `handle_enter`. -/
def handleEnter : Console :=
  let input := if 0 < con.input.count then con.input.trimEnd else con.input
  ⟨{ input with inputReady := true }, con.screen.printChar tier 0x0A⟩

/-- `handle_home`. -/
def handleHome : Console :=
  let screen := con.screen.moveCursorLeftN (u8 con.input.cursor)
  ⟨{ con.input with cursor := 0 }, screen.syncCursor⟩

/-- `handle_end`. -/
def handleEnd : Console :=
  let screen := con.screen.moveCursorRightN con.input.restCount
  ⟨{ con.input with cursor := con.input.dataEnd }, screen.syncCursor⟩

/-- `handle_arrow_left`. -/
def handleArrowLeft : Console :=
  let moved := con.input.moveCursorLeft
  let screen := if moved.1 then con.screen.moveBackwards else con.screen
  ⟨moved.2, screen.syncCursor⟩

/-- `handle_arrow_right`. -/
def handleArrowRight : Console :=
  let moved := con.input.moveCursorRight
  let screen := if moved.1 then con.screen.moveForward tier else con.screen
  ⟨moved.2, screen.syncCursor⟩

/-- `control_key_dispatch`. -/
def controlKeyDispatch : KeyboardKey → Console
  | .escape => handleEscape con
  | .backspace => handleBackspace tier con
  | .tab => handleTab tier con
  | .enter => handleEnter tier con
  | _ => con

/-- `navigation_key_dispatch`. The handlers of the vertical arrows and the page keys
return at once. -/
def navigationKeyDispatch : KeyboardKey → Console
  | .home => handleHome con
  | .arrowLeft => handleArrowLeft con
  | .arrowRight => handleArrowRight tier con
  | .endKey => handleEnd con
  | _ => con

/-- What `start_data_receiving` does with one event. -/
def processEvent (event : KeyboardEvent) : Console :=
  match event.tryTranslateText with
  | some c => textInput tier con c
  | none =>
    if event.isControlInputCandidate then controlKeyDispatch tier con event.key
    else if event.isNavigationInputCandidate then navigationKeyDispatch tier con event.key
    else con

/-- `start_data_receiving`, on the events it polls: the loop ends with the Enter key. -/
def startDataReceiving : List KeyboardEvent → Console → Console
  | [], con => con
  | event :: events, con =>
    if con.input.inputReady then con else startDataReceiving events (processEvent tier con event)

end Console
end BareMetal
