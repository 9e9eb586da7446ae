import BareMetal.Kernel.Delivery
import BareMetal.Kernel.Vectors
import BareMetal.Terminal.Hexadecimal

/-!
# The crash dump

An exception of the list prints the registers of its frame in hexadecimal, each after its
name, between the line with the error and the line of the panic. Then the processor halts.

The dump is only good for something if the registers can be told from it. A number has no
leading zeros, so what ends it is the next name: no name starts with a digit, and no text
around the numbers has the `0` of the prefix in it. So the numbers in the dump are the registers
(`crash_dump`).
-/

namespace BareMetal

open Framework

/-- The hexadecimal numbers in a text. -/
def hexNumbers : List (BitVec 8) → List ℕ := scanNumerals 16 hexValue? 0x30 [0x78]

/-- A text that has no number in it. -/
def Plain (text : List (BitVec 8)) : Prop := (0x30 : BitVec 8) ∉ text

instance (text : List (BitVec 8)) : Decidable (Plain text) := inferInstanceAs (Decidable (_ ∉ _))

/-- A number before this text does not go on in it. -/
def EndsNumber (text : List (BitVec 8)) : Prop := ∀ c ∈ text.head?, hexValue? c = none

instance (text : List (BitVec 8)) : Decidable (EndsNumber text) :=
  inferInstanceAs (Decidable (∀ c ∈ text.head?, hexValue? c = none))

theorem EndsNumber.append {text : List (BitVec 8)} (h : EndsNumber text) (hne : text ≠ [])
    (rest : List (BitVec 8)) : EndsNumber (text ++ rest) := by
  unfold EndsNumber
  rw [List.head?_append_of_ne_nil _ hne]
  exact h

theorem hexNumbers_nil : hexNumbers [] = [] := by
  unfold hexNumbers scanNumerals
  rfl

theorem Plain.append {text text' : List (BitVec 8)} (h : Plain text) (h' : Plain text') :
    Plain (text ++ text') := fun hmem => (List.mem_append.mp hmem).elim h h'

theorem hexNumbers_plain {text : List (BitVec 8)} (h : Plain text) (rest : List (BitVec 8)) :
    hexNumbers (text ++ rest) = hexNumbers rest :=
  scanNumerals_label h rest

/-! ### What is printed -/

/-- The names that the dump gives to the words of a frame. -/
def dumpFields (frame : InterruptFrame) : List (List (BitVec 8) × BitVec 32) :=
  [(ascii "\nEIP:", frame.eip), (ascii "\nEFLAGS:", frame.eflags),
    (ascii "\nError Code:", frame.errorCode), (ascii "\nEAX:", frame.eax),
    (ascii "     ECX:", frame.ecx), (ascii "\nEDX:", frame.edx), (ascii " EBX:", frame.ebx),
    (ascii "\nESP:", frame.esp), (ascii " EBP:", frame.ebp), (ascii "\nESI:", frame.esi),
    (ascii "  EDI:", frame.edi), (ascii "\nVector:", frame.vector)]

/-- A word with its name. -/
def fieldItems (field : List (BitVec 8) × BitVec 32) : List Item :=
  [.string field.1, .unsigned .w32 field.2.toNat]

theorem exceptionItems_eq (name mnemonic : List (BitVec 8)) (frame : InterruptFrame) :
    InterruptState.exceptionItems name mnemonic frame =
      [.string (ascii "CPU exception: "), .string name, .char 0x20, .string mnemonic, .hex] ++
        ((dumpFields frame).flatMap fieldItems ++ [.char 0x0A]) := rfl

/-- A name that ends the number before it. -/
def IsLabel (label : List (BitVec 8)) : Prop := label ≠ [] ∧ EndsNumber label ∧ Plain label

instance (label : List (BitVec 8)) : Decidable (IsLabel label) :=
  inferInstanceAs (Decidable (_ ∧ _ ∧ _))

theorem dumpFields_labels (frame : InterruptFrame) :
    ∀ field ∈ dumpFields frame, IsLabel field.1 := by
  have hlabels : ∀ label ∈ (dumpFields frame).map Prod.fst, IsLabel label := by
    change ∀ label ∈ [ascii "\nEIP:", ascii "\nEFLAGS:", ascii "\nError Code:", ascii "\nEAX:",
      ascii "     ECX:", ascii "\nEDX:", ascii " EBX:", ascii "\nESP:", ascii " EBP:",
      ascii "\nESI:", ascii "  EDI:", ascii "\nVector:"], IsLabel label
    decide +kernel
  exact fun field hfield => hlabels _ (List.mem_map_of_mem hfield)

/-- `o'` is `o` after a text, with the same base. -/
structure Dumped (o o' : Output) (text : List (BitVec 8)) : Prop where
  text_eq : o'.text = o.text ++ text
  state_eq : o'.state = o.state

section Print

variable {tier : Tier} {clzZero : ℤ} {o o₁ o' : Output} {text₁ text : List (BitVec 8)}

theorem Dumped.trans (h₁ : Dumped o o₁ text₁) (h : Dumped o₁ o' text) :
    Dumped o o' (text₁ ++ text) where
  text_eq := by rw [h.text_eq, h₁.text_eq, List.append_assoc]
  state_eq := h.state_eq.trans h₁.state_eq

theorem dumped_string (text : List (BitVec 8)) :
    Dumped o (o.print tier clzZero (.string text)) text := by
  have hprints : Output.Prints tier (fun _ => True) o _ text := Output.prints_writeString text
  exact ⟨hprints.text_eq, hprints.state_eq⟩

theorem dumped_char (c : BitVec 8) : Dumped o (o.print tier clzZero (.char c)) [c] := ⟨rfl, rfl⟩

/-- A word in hexadecimal. -/
theorem dumped_word (hstate : o.state = .hex) (value : BitVec 32) :
    ∃ ds, IsNumeral 16 ds value.toNat ∧
      Dumped o (o.print tier clzZero (.unsigned .w32 value.toNat))
        (hexPrefix ++ ds.map hexDigit) := by
  obtain ⟨ds, hnumeral, hprints⟩ := Output.writeHex_defined tier (w := .w32) value.isLt o
  refine ⟨ds, hnumeral, ?_⟩
  change Dumped o (o.printUnsigned tier .w32 value.toNat) _
  rw [Output.printUnsigned, hstate]
  exact ⟨hprints.text_eq, hprints.state_eq⟩

/-- **Words with their names.** Before a text that ends a number, the words are the next
numbers to be found. -/
theorem dumped_fields {fields : List (List (BitVec 8) × BitVec 32)}
    (hlabels : ∀ field ∈ fields, IsLabel field.1) (hstate : o.state = .hex) :
    ∃ text, Dumped o (o.printAll tier clzZero (fields.flatMap fieldItems)) text ∧
      ∀ rest, EndsNumber rest → EndsNumber (text ++ rest) ∧
        hexNumbers (text ++ rest) = fields.map (·.2.toNat) ++ hexNumbers rest := by
  -- on the fields: each label stops the numeral before it
  induction fields generalizing o with
  | nil => exact ⟨[], ⟨(List.append_nil _).symm, rfl⟩, fun rest hrest => ⟨hrest, rfl⟩⟩
  | cons field fields ih =>
    obtain ⟨label, value⟩ := field
    obtain ⟨hne, hends, hplain⟩ : IsLabel label := hlabels _ List.mem_cons_self
    have hlabel : Dumped o (o.print tier clzZero (.string label)) label := dumped_string label
    obtain ⟨ds, hnumeral, hword⟩ :=
      @dumped_word tier clzZero _ (hlabel.state_eq.trans hstate) value
    obtain ⟨text, htext, hnumbers⟩ := ih (fun field hfield =>
      hlabels field (List.mem_cons_of_mem _ hfield))
      (hword.state_eq.trans (hlabel.state_eq.trans hstate))
    refine ⟨label ++ (hexPrefix ++ ds.map hexDigit) ++ text, (hlabel.trans hword).trans htext, ?_⟩
    intro rest hrest
    obtain ⟨hstop, hrestNumbers⟩ := hnumbers rest hrest
    rw [List.append_assoc, List.append_assoc]
    refine ⟨hends.append hne _, ?_⟩
    rw [hexNumbers_plain hplain]
    -- the numeral ends where the label of the next field begins
    have hfind : hexNumbers (hexPrefix ++ ds.map hexDigit ++ (text ++ rest)) = _ :=
      hnumeral.scanNumerals (fun d hd => hexValue?_hexDigit hd) hstop
    exact hfind.trans (congrArg (value.toNat :: ·) hrestNumbers)

/-- One item before the others. -/
theorem Dumped.cons {item : Item} {items : List Item}
    (h₁ : Dumped o (o.print tier clzZero item) text₁)
    (h : Dumped (o.print tier clzZero item)
      ((o.print tier clzZero item).printAll tier clzZero items) text) :
    Dumped o (o.printAll tier clzZero (item :: items)) (text₁ ++ text) :=
  h₁.trans h

/-- Colors are no text. -/
theorem Dumped.of_setColor {foreground background : VgaColor}
    (h : Dumped (o.setColor foreground background) o' text) : Dumped o o' text :=
  ⟨h.text_eq, h.state_eq⟩

theorem Dumped.setColorCode (h : Dumped o o' text) (color : BitVec 8) :
    Dumped o (o'.setColorCode color) text :=
  ⟨h.text_eq, h.state_eq⟩

/-- The prefix of an error. -/
theorem dumped_error (log : Logger) :
    Dumped log (Logger.error tier clzZero log) (ascii "[ERROR]: ") := by
  unfold Logger.error Logger.setPrefixTextAndColor
  exact (Dumped.of_setColor (dumped_string _)).setColorCode _

/-- The line of the exception. -/
theorem dumped_exception (title mnemonic : List (BitVec 8)) :
    Dumped o (o.printAll tier clzZero
        [.string (ascii "CPU exception: "), .string title, .char 0x20, .string mnemonic])
      (ascii "CPU exception: " ++ (title ++ ([0x20] ++ mnemonic))) :=
  (dumped_string _).cons ((dumped_string _).cons ((dumped_char _).cons
    (@dumped_string tier clzZero _ mnemonic)))

/-- The line of a panic. -/
theorem dumped_panic (log : Logger) (message : List (BitVec 8)) :
    Dumped log (Logger.panic tier clzZero log message)
      (ascii "[PANIC]: " ++ (message ++ [0x0A])) := by
  unfold Logger.panic
  exact .of_setColor ((dumped_string _).cons ((dumped_string _).cons
    (@dumped_char tier clzZero _ 0x0A)))

end Print

/-! ### The dump -/

/-- What is printed for an exception: the line of the error, the words after the change of the
base, and the line of the panic. -/
theorem dumped_handleException {tier : Tier} {clzZero : ℤ} (s : InterruptState)
    (title mnemonic : List (BitVec 8)) (frame : InterruptFrame) :
    ∃ words, (s.handleException tier clzZero title mnemonic frame).log.text = s.log.text ++
        (ascii "[ERROR]: " ++ (ascii "CPU exception: " ++ (title ++ ([0x20] ++ mnemonic))) ++
          (words ++ [0x0A] ++ (ascii "[PANIC]: " ++ (ascii "Unhandled CPU exception" ++ [0x0A])))) ∧
      ∀ rest, EndsNumber rest →
        hexNumbers (words ++ rest) = (dumpFields frame).map (·.2.toNat) ++ hexNumbers rest := by
  let line := (Logger.error tier clzZero s.log).printAll tier clzZero
    [.string (ascii "CPU exception: "), .string title, .char 0x20, .string mnemonic]
  -- the line with the title is printed before the numbers turn hexadecimal
  have hline : Dumped s.log line _ := (dumped_error s.log).trans (dumped_exception title mnemonic)
  obtain ⟨words, hwords, hnumbers⟩ :=
    @dumped_fields tier clzZero line.hex _ (dumpFields_labels frame) rfl
  have hend := (hwords.trans (@dumped_char tier clzZero _ 0x0A)).trans
    (@dumped_panic tier clzZero _ (ascii "Unhandled CPU exception"))
  refine ⟨words, ?_, fun rest hrest => (hnumbers rest hrest).2⟩
  -- the texts that were printed are put together, from the last one to the log's own
  rw [← List.append_assoc, ← hline.text_eq]
  refine Eq.trans ?_ hend.text_eq
  unfold InterruptState.handleException InterruptState.haltForever
  dsimp only
  rw [exceptionItems_eq]
  unfold Output.printAll
  rw [List.foldl_append, List.foldl_append]
  rfl

/-- **The crash dump.** For an exception of the list the dispatcher changes nothing but the
log, and halts. The log gets a text that starts with the title and ends with the panic, and
the numbers in it are the words of the frame. -/
theorem crash_dump {tier : Tier} {clzZero : ℤ} {s : InterruptState} {ports : KeyboardPorts}
    {frame : InterruptFrame} {x : CpuInterrupt} (hx : x ∈ cpuInterruptList)
    (hvector : frame.vector.toNat = x.vector.val) :
    let s' := s.interruptDispatcher tier clzZero ports frame
    s'.halted = true ∧ s'.pics = s.pics ∧ s'.timer = s.timer ∧ s'.keyboard = s.keyboard ∧
      ∃ dump, s'.log.text = s.log.text ++ dump ∧
        ascii "[ERROR]: CPU exception: " ++ x.title ++ 0x20 :: x.mnemonic <+: dump ∧
        ascii "[PANIC]: Unhandled CPU exception\n" <:+ dump ∧
        hexNumbers dump = [frame.eip.toNat, frame.eflags.toNat, frame.errorCode.toNat,
          frame.eax.toNat, frame.ecx.toNat, frame.edx.toNat, frame.ebx.toNat, frame.esp.toNat,
          frame.ebp.toNat, frame.esi.toNat, frame.edi.toNat, frame.vector.toNat] := by
  intro s'
  -- the handler of the vector is the one for the exception
  have hs' : s' = s.handleException tier clzZero x.title x.mnemonic frame :=
    InterruptState.dispatch_exception hx hvector
  -- without a zero there is no prefix of a numeral in them
  have hplain : ∀ x ∈ cpuInterruptList, Plain x.title ∧ Plain x.mnemonic := by decide
  obtain ⟨htitle, hmnemonic⟩ := hplain x hx
  obtain ⟨words, htext, hnumbers⟩ := dumped_handleException s x.title x.mnemonic frame
  rw [hs']
  unfold InterruptState.handleException InterruptState.haltForever at htext ⊢
  refine ⟨rfl, rfl, rfl, rfl, _, htext, ?_, ?_, ?_⟩
  · refine List.IsPrefix.trans ?_ (List.prefix_append _ _)
    exact List.prefix_refl _
  · refine List.IsSuffix.trans ?_ (List.suffix_append _ _)
    refine List.IsSuffix.trans ?_ (List.suffix_append _ _)
    exact List.suffix_refl _
  -- the words of the frame are between two texts without a numeral
  · let tail := [0x0A] ++ (ascii "[PANIC]: " ++ (ascii "Unhandled CPU exception" ++ [0x0A]))
    have hhead : Plain (ascii "[ERROR]: " ++
        (ascii "CPU exception: " ++ (x.title ++ ([0x20] ++ x.mnemonic)))) :=
      Plain.append (by decide) (Plain.append (by decide) (htitle.append
        (Plain.append (by decide) hmnemonic)))
    have htail : hexNumbers tail = [] := by
      have hplain := hexNumbers_plain (show Plain tail by decide) []
      rwa [List.append_nil, hexNumbers_nil] at hplain
    rw [hexNumbers_plain hhead, List.append_assoc, hnumbers tail (by decide), htail,
      List.append_nil]
    rfl

/-- A division by zero at `0x1400`, with an error code of zero. -/
theorem crash_dump_divide :
    let frame := savedFrame 0 0 (idleCpu 0x1F00)
    let s' := InterruptState.boot.interruptDispatcher .gpr 0 ⟨0, 0⟩ frame
    s'.halted = true ∧ ∃ dump, s'.log.text = dump ∧
      hexNumbers dump = [0x1400, 0x202, 0, 7, 6, 5, 4, 0x1EEC, 3, 2, 1, 0] := by
  intro frame s'
  obtain ⟨hhalted, -, -, -, dump, htext, -, -, hnumbers⟩ :=
    @crash_dump .gpr 0 InterruptState.boot ⟨0, 0⟩ frame _ List.mem_cons_self rfl
  exact ⟨hhalted, dump, htext, hnumbers⟩

end BareMetal
