import BareMetal.Terminal.Printing

/-!
# The logger

A `logger` prints to an output object of its own. Each message starts with a prefix in the
color of its kind; the color is set back before the message itself. `panic` leaves its color,
and does not return.
-/

namespace BareMetal

/-- `vga_color`. -/
inductive VgaColor where
  | black | blue | green | cyan | red | magenta | brown | lightGray
  | darkGray | lightBlue | lightGreen | lightCyan | lightRed | lightMagenta | yellow | white
  deriving DecidableEq

/-- `make_color`; the enumerators are numbered from zero. -/
def makeColor (foreground background : VgaColor) : BitVec 8 :=
  BitVec.ofNat 8 foreground.ctorIdx ||| (BitVec.ofNat 8 background.ctorIdx <<< 4)

namespace Output

variable (o : Output)

/-- `current_color_code`. -/
def currentColorCode : BitVec 8 := o.buffer.activeColor

/-- `set_color_code`. -/
def setColorCode (color : BitVec 8) : Output :=
  { o with buffer := { o.buffer with activeColor := color } }

/-- `set_color`. -/
def setColor (foreground background : VgaColor) : Output :=
  o.setColorCode (makeColor foreground background)

end Output

/-- The logger is its `m_terminal`. -/
abbrev Logger := Output

namespace Logger

variable (tier : Tier) (clzZero : ℤ) (log : Logger)

/-- `set_prefix_text_and_color`. -/
def setPrefixTextAndColor (errorType : List (BitVec 8)) (foreground background : VgaColor) :
    Logger :=
  let temp := Output.currentColorCode log
  let log := Output.setColor log foreground background
  let log := Output.print tier clzZero log (.string errorType)
  Output.setColorCode log temp

/-- `error`. -/
def error : Output := setPrefixTextAndColor tier clzZero log (ascii "[ERROR]: ") .lightRed .black

/-- `warning`. -/
def warning : Output :=
  setPrefixTextAndColor tier clzZero log (ascii "[WARNING]: ") .yellow .black

/-- `panic`, up to the loop of halts that ends it. -/
def panic (panicMessage : List (BitVec 8)) : Output :=
  let log := Output.setColor log .white .red
  Output.printAll tier clzZero log
    [.string (ascii "[PANIC]: "), .string panicMessage, .char 0x0A]

end Logger
end BareMetal
