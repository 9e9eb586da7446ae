import BareMetal.Kernel.Timer
import BareMetal.Pmm.Manager
import BareMetal.Terminal.LineEditor
import BareMetal.Terminal.Printing

/-!
# The shell

`app::shell` looks the line up in the array of command names by binary search and calls the
function at the same index of a second array.

A comparison is the difference of the first two characters that differ, as `int8_t`. It
wraps, so for a character beyond ASCII its sign may say the wrong thing. But it is zero for
equal strings alone, and the search then returns no index that is wrong, whatever half it
goes on in (`searchLoop_miss`). Between the names themselves it has the right sign, since they
are ASCII text, and there the search returns the index (`searchLoop_hit`). So it finds
exactly the command typed (`commandExists_exact`).
-/

namespace BareMetal

open Framework

/-! ### Comparing strings -/

/-- The difference of two characters, which are signed, as `str_compare` returns it. -/
def charDifference (c o : BitVec 8) : ℤ :=
  Width.w8.signed.wrap (Width.w8.signed.sub c.toInt o.toInt)

/-- `str_compare`, from an offset in both strings on; `fuel` bounds the number of characters. -/
def strCompare (comparer other : ByteMem) : (fuel : ℕ) → ℕ → Option ℤ
  | 0, _ => none
  | fuel + 1, i =>
    let c := comparer i
    let o := other i
    if c ≠ 0 ∧ c = o then strCompare comparer other fuel (i + 1) else some (charDifference c o)

/-- The memory of a string literal. -/
def literal (text : List (BitVec 8)) : ByteMem := fun i => text.getD i 0

/-! ### The tables -/

def commandListSize : ℕ := 7

/-- `COMMAND_LIST`. -/
def commandList : List (List (BitVec 8)) :=
  ["clear", "exit", "flag", "interrupt stack", "kernel stack", "pmm test", "ticks"].map ascii

/-- What the commands use beside the shell: globals of the kernel, and the addresses of four
symbols of the linker script. -/
structure Globals where
  /-- `_mm_flag`. -/
  mmFlag : ℕ
  timer : Timer
  pmm : Pmm
  interruptStackTop : ℕ
  interruptStackBottom : ℕ
  kernelStackTop : ℕ
  kernelStackBottom : ℕ

/-- `shell`, with the globals. -/
structure Shell where
  input : Input
  output : Output
  isRunning : Bool
  globals : Globals

namespace Shell

/-- The constructor. -/
def create (globals : Globals) : Shell := ⟨.init, .init, true, globals⟩

variable (tier : Tier) (clzZero : ℤ) (s : Shell)

/-- Items that are sent to `m_output`. -/
def send (items : List Item) : Shell :=
  { s with output := s.output.printAll tier clzZero items }

/-- `clear`. -/
def clear : Shell :=
  { s with
    input := s.input.resetBuffer
    output := { s.output with buffer := s.output.buffer.clear tier } }

/-- `exit`. -/
def exit : Shell := { s with isRunning := false }.send tier clzZero
  [.string (ascii "Program terminated\n")]

/-- `flag`. -/
def flag : Shell := s.send tier clzZero
  [.string (ascii "mm_flag: "), .unsigned .w8 s.globals.mmFlag, .char 0x0A]

/-- `ticks`. -/
def ticks : Shell := s.send tier clzZero
  [.string (ascii "Ticks: "), .unsigned .w32 s.globals.timer.ticks, .char 0x0A]

/-- `interrupt_stack`. -/
def interruptStack : Shell := s.send tier clzZero
  [.unsigned .w32 (usizeSub s.globals.interruptStackTop s.globals.interruptStackBottom),
    .string (ascii " bytes\n")]

/-- `kernel_stack`. -/
def kernelStack : Shell := s.send tier clzZero
  [.unsigned .w32 (usizeSub s.globals.kernelStackTop s.globals.kernelStackBottom),
    .string (ascii " bytes\n")]

/-- What `allocate_8_frames` prints about its search. -/
def searchReport (mem : ByteMem) (start frames : ℕ) (scan : Scan) : List Item :=
  let run := scan.run
  let last := usizeSub (usize (run.startFrame + frames)) 1
  [.string (ascii (if frames ≤ run.length then "Found\n" else "Not Found\n")),
    .string (ascii "Frames: "), .unsigned .w32 frames,
    .string (ascii "\nLength: "), .unsigned .w32 run.length,
    .string (ascii "\nStart value: "), .hex, .unsigned .w8 (mem start).toNat, .dec,
    .string (ascii "\nByte index: "), .unsigned .w32 (bitmapIndex run.startFrame),
    .string (ascii "\nBit index: "), .unsigned .w8 (bitPosition run.startFrame),
    .string (ascii "\n\nEnd value: "), .hex, .unsigned .w8 (mem (start + 1)).toNat, .dec,
    .string (ascii "\nByte end: "), .unsigned .w32 (bitmapIndex last),
    .string (ascii "\nBit end: "), .unsigned .w8 (bitPosition last),
    .string (ascii "\nCurrent Finished: "), .unsigned .w32 (usizeSub scan.start start)]

/-- `test_allocation`, which calls `allocate_8_frames`: a search for eight frames in the first
two bytes of the bitmap, which it overwrites. The report goes to an `output` of its own. -/
def testAllocation : Shell :=
  let start := s.globals.pmm.bitmap.start
  let mem := setByte (setByte s.globals.pmm.mem start 0x0F) (start + 1) 0xF0
  let frames := 8
  let scan := contiguous8Core mem start frames (start + 2) ⟨⟨0, 0⟩, start, []⟩
  let out := { Output.init with buffer := s.output.buffer }
  let out := out.printAll tier clzZero (searchReport mem start frames scan)
  { s with
    output := { s.output with buffer := out.buffer }
    globals := { s.globals with pmm := { s.globals.pmm with mem := mem } } }

/-- `COMMAND_FUNCTIONS`; the functions `execute_` call the methods. -/
def commandFunctions : List (Shell → Shell) :=
  [clear tier, exit tier clzZero, flag tier clzZero, interruptStack tier clzZero,
    kernelStack tier clzZero, testAllocation tier clzZero, ticks tier clzZero]

/-! ### The lookup -/

/-- The loop of `command_exists`, given the comparison of the line with an entry; `fuel` bounds
the number of comparisons. -/
def searchLoop (compare : ℕ → Option ℤ) : (fuel : ℕ) → (left right : ℕ) → Option ℤ
  | 0, _, _ => none
  | fuel + 1, left, right =>
    if left < right then do
      let mid := left + (right - left) / 2
      let result ← compare mid
      if result = 0 then some mid
      else if 0 < result then searchLoop compare fuel (u8 (mid + 1)) right
      else searchLoop compare fuel left mid
    else some (-1)

/-- The line compared with an entry of `g_command_list`. The line ends in the array. -/
def compareEntry (i : ℕ) : Option ℤ :=
  strCompare s.input.inputBuffer (literal (commandList.getD i [])) (inputCapacity + 1) 0

/-- `command_exists`. -/
def commandExists : Option ℤ := searchLoop s.compareEntry (commandListSize + 1) 0 commandListSize

/-- What `execute_command` does with the line: it calls an entry of `g_command_functions`, or
says that there is none. -/
inductive Dispatch where
  | entry (i : ℕ)
  | notFound

/-- The branch of `execute_command`. -/
def dispatch : Option Dispatch := do
  let index ← s.commandExists
  if index ≠ -1 then some (.entry index.toNat) else some .notFound

/-- The end of `execute_command`, for a line that is no command. -/
def commandNotFound : Shell := s.send tier clzZero [.string (ascii "Command not found\n")]

/-- `execute_command`. -/
def executeCommand : Option Shell := do
  match ← s.dispatch with
  | .entry i => (commandFunctions tier clzZero)[i]?.map fun function => function s
  | .notFound => some (s.commandNotFound tier clzZero)

end Shell

/-! ### What a comparison says -/

/-- The difference of the characters as numbers, wrapped. -/
theorem charDifference_eq (c o : BitVec 8) :
    charDifference c o = (c.toInt - o.toInt).bmod (2 ^ 8) := by
  have hc := c.toInt_lt
  have hc' := c.le_toInt
  have ho := o.toInt_lt
  have ho' := o.le_toInt
  -- the subtraction is one of `int` values
  have hint : IntType.int.InRange (c.toInt - o.toInt) := by
    change -2 ^ 31 ≤ c.toInt - o.toInt ∧ c.toInt - o.toInt < 2 ^ 31
    omega
  change Width.w8.signed.wrap (IntType.int.wrap (c.toInt - o.toInt)) = _
  rw [IntType.wrap_of_inRange hint]
  rfl

/-- The difference is zero for equal characters alone: it is less than the modulus. -/
theorem charDifference_eq_zero_iff {c o : BitVec 8} : charDifference c o = 0 ↔ c = o := by
  rw [charDifference_eq]
  refine ⟨?_, ?_⟩
  · intro h
    have hc := c.toInt_lt
    have hc' := c.le_toInt
    have ho := o.toInt_lt
    have ho' := o.le_toInt
    have hdvd : (2 ^ 8 : ℤ) ∣ c.toInt - o.toInt := Int.dvd_of_bmod_eq_zero h
    exact BitVec.eq_of_toInt_eq (by omega)
  · rintro rfl
    rw [Int.sub_self]
    rfl

/-- `str_compare` on strings, without the NUL. -/
def compareBytes : List (BitVec 8) → List (BitVec 8) → ℤ
  | [], other => charDifference 0 (other.headD 0)
  | c :: comparer, other =>
    if c = other.headD 0 then compareBytes comparer other.tail
    else charDifference c (other.headD 0)

/-- The loop ends within the string of the comparer, and compares the strings. -/
theorem strCompare_literal {comparer : ByteMem} (text : List (BitVec 8)) {fuel i n : ℕ}
    (hnul : comparer n = 0) (hi : i ≤ n) (hfuel : n < i + fuel) :
    strCompare comparer (literal text) fuel i
      = some (compareBytes (cString comparer fuel i) (text.drop i)) := by
  induction fuel generalizing i with
  | zero => omega
  | succ fuel ih =>
    have hother : literal text i = (text.drop i).headD 0 := by
      rw [List.headD_eq_head?_getD, List.head?_drop]
      exact List.getD_eq_getElem?_getD ..
    rw [strCompare, cString, hother]
    by_cases hend : comparer i = 0
    · rw [if_pos hend, hend, if_neg (fun h => h.1 rfl)]
      rfl
    · rw [if_neg hend, compareBytes]
      by_cases heq : comparer i = (text.drop i).headD 0
      · -- the next characters are compared
        have hlt : i ≠ n := by
          rintro rfl
          exact hend hnul
        rw [if_pos ⟨hend, heq⟩, if_pos heq, List.tail_drop, ih (by omega) (by omega)]
      · rw [if_neg (fun h => heq h.2), if_neg heq]

/-- **A comparison is zero for equal strings alone.** -/
theorem compareBytes_eq_zero_iff {comparer other : List (BitVec 8)} (hcomparer : 0 ∉ comparer)
    (hother : 0 ∉ other) : compareBytes comparer other = 0 ↔ comparer = other := by
  induction comparer generalizing other with
  | nil =>
    cases other with
    | nil => exact ⟨fun _ => rfl, fun _ => rfl⟩
    | cons o other =>
      -- a proper prefix: its NUL is compared with a character
      rw [compareBytes, charDifference_eq_zero_iff]
      refine ⟨?_, ?_⟩
      · rintro h
        exact absurd (h ▸ List.mem_cons_self) hother
      · exact fun h => absurd h.symm (List.cons_ne_nil o other)
  | cons c comparer ih =>
    have hc : c ≠ 0 := by
      rintro rfl
      exact hcomparer List.mem_cons_self
    cases other with
    | nil =>
      -- a proper extension
      rw [compareBytes, List.headD_nil, if_neg hc, charDifference_eq_zero_iff]
      exact ⟨fun h => absurd h hc, fun h => absurd h (List.cons_ne_nil c comparer)⟩
    | cons o other =>
      rw [compareBytes, List.headD_cons, List.tail_cons, List.cons.injEq]
      by_cases heq : c = o
      · rw [if_pos heq, ih (mt (List.mem_cons_of_mem c) hcomparer)
          (mt (List.mem_cons_of_mem o) hother), and_iff_right heq]
      · rw [if_neg heq, charDifference_eq_zero_iff]
        exact ⟨fun h => absurd h heq, fun h => absurd h.1 heq⟩

namespace Shell

/-! ### Binary search -/

section Search

variable {compare : ℕ → Option ℤ} {fuel left right : ℕ}

/-- **A search that hits.** If the comparison with entry `j` is zero and has the right sign on
both sides of it, the search returns `j`. -/
theorem searchLoop_hit {j : ℕ} (hj : compare j = some 0)
    (hbelow : ∀ i < j, ∃ d, compare i = some d ∧ 0 < d)
    (habove : ∀ i, j < i → i < right → ∃ d, compare i = some d ∧ d < 0)
    (hleft : left ≤ j) (hright : j < right) (hsize : right < 2 ^ 8)
    (hfuel : right - left < fuel) : searchLoop compare fuel left right = some (j : ℤ) := by
  induction fuel generalizing left right with
  | zero => omega
  | succ fuel ih =>
    rw [searchLoop, if_pos (by omega)]
    generalize hmid : left + (right - left) / 2 = mid
    rcases lt_trichotomy mid j with hlt | rfl | hgt
    · -- too low: the search goes on above the middle
      obtain ⟨d, hd, hpos⟩ := hbelow mid hlt
      have hnext : u8 (mid + 1) = mid + 1 := Nat.mod_eq_of_lt (by omega)
      simp only [hd, Option.bind_eq_bind, Option.bind_some, if_neg hpos.ne', if_pos hpos, hnext]
      exact ih habove (by omega) hright hsize (by omega)
    · simp only [hj, Option.bind_eq_bind, Option.bind_some, if_true]
    · -- too high: it goes on below
      obtain ⟨d, hd, hneg⟩ := habove mid hgt (by omega)
      simp only [hd, Option.bind_eq_bind, Option.bind_some, if_neg hneg.ne, if_neg hneg.le.not_gt]
      exact ih (fun i hi hlt => habove i hi (by omega)) hleft hgt (by omega) (by omega)

/-- **A search that misses.** If no comparison is zero, the search ends and returns -1, whatever
their signs are. -/
theorem searchLoop_miss (hne : ∀ i < right, ∃ d, compare i = some d ∧ d ≠ 0)
    (hsize : right < 2 ^ 8) (hfuel : right - left < fuel) :
    searchLoop compare fuel left right = some (-1) := by
  induction fuel generalizing left right with
  | zero => omega
  | succ fuel ih =>
    rw [searchLoop]
    by_cases hlt : left < right
    · rw [if_pos hlt]
      generalize hmid : left + (right - left) / 2 = mid
      obtain ⟨d, hd, hzero⟩ := hne mid (by omega)
      have hnext : u8 (mid + 1) = mid + 1 := Nat.mod_eq_of_lt (by omega)
      simp only [hd, Option.bind_eq_bind, Option.bind_some, if_neg hzero, hnext]
      -- both halves are shorter, and no entry of either is equal
      by_cases hpos : 0 < d
      · rw [if_pos hpos]
        exact ih hne hsize (by omega)
      · rw [if_neg hpos]
        exact ih (fun i hi => hne i (by omega)) (by omega) (by omega)
    · rw [if_neg hlt]

end Search

/-! ### The commands -/

/-- No name has a NUL in it. -/
theorem nul_notMem_of_mem {name : List (BitVec 8)} (h : name ∈ commandList) : 0 ∉ name := by
  have hall : ∀ name ∈ commandList, 0 ∉ name := by decide
  exact hall name h

/-- **The table is in the order of the comparison.** -/
theorem commandList_ordered :
    ∀ j < commandListSize, ∀ i < commandListSize,
      (i < j → 0 < compareBytes (commandList.getD j []) (commandList.getD i [])) ∧
        (j < i → compareBytes (commandList.getD j []) (commandList.getD i []) < 0) := by
  decide

/-- The line in the buffer is NUL-terminated. -/
def LineEnds (s : Shell) : Prop := ∃ n ≤ inputCapacity, s.input.inputBuffer n = 0

theorem nul_notMem_cString (b : ByteMem) (fuel i : ℕ) : 0 ∉ cString b fuel i := by
  induction fuel generalizing i with
  | zero => exact List.not_mem_nil
  | succ fuel ih =>
    rw [cString]
    by_cases hnul : b i = 0
    · rw [if_pos hnul]
      exact List.not_mem_nil
    · rw [if_neg hnul]
      exact fun h => (List.mem_cons.mp h).elim (fun h => hnul h.symm) (ih (i + 1))

section Commands

variable {s : Shell}

theorem compareEntry_eq (hline : s.LineEnds) (i : ℕ) :
    s.compareEntry i = some (compareBytes s.input.readBuffer (commandList.getD i [])) := by
  obtain ⟨n, hn, hnul⟩ := hline
  have h := strCompare_literal (commandList.getD i []) hnul (Nat.zero_le n)
    (by omega : n < 0 + (inputCapacity + 1))
  rwa [List.drop_zero] at h

theorem nul_notMem_readBuffer : 0 ∉ s.input.readBuffer := nul_notMem_cString _ _ _

theorem commandList_mem {i : ℕ} (hi : i < commandListSize) :
    commandList.getD i [] ∈ commandList := by
  rw [List.getD_eq_getElem _ _ hi]
  exact List.getElem_mem hi

/-- The index of a command that is typed. -/
theorem commandExists_of_command (hline : s.LineEnds) {j : ℕ}
    (hj : commandList[j]? = some s.input.readBuffer) : s.commandExists = some (j : ℤ) := by
  obtain ⟨hsize, hname⟩ := List.getElem?_eq_some_iff.mp hj
  have hentry : s.input.readBuffer = commandList.getD j [] := by
    rw [List.getD_eq_getElem _ _ hsize, hname]
  refine searchLoop_hit ?_ ?_ ?_ (Nat.zero_le j) hsize (by decide) (by decide)
  · rw [compareEntry_eq hline, (compareBytes_eq_zero_iff nul_notMem_readBuffer
      (nul_notMem_of_mem (commandList_mem hsize))).mpr hentry]
  · intro i hi
    refine ⟨_, compareEntry_eq hline i, ?_⟩
    rw [hentry]
    exact (commandList_ordered j hsize i (hi.trans hsize)).1 hi
  · intro i hi hlt
    refine ⟨_, compareEntry_eq hline i, ?_⟩
    rw [hentry]
    exact (commandList_ordered j hsize i hlt).2 hi

/-- No index for a line that is no command. -/
theorem commandExists_of_notMem (hline : s.LineEnds) (hmem : s.input.readBuffer ∉ commandList) :
    s.commandExists = some (-1) := by
  refine searchLoop_miss ?_ (by decide) (by decide)
  intro i hi
  refine ⟨_, compareEntry_eq hline i, ?_⟩
  have hentry := commandList_mem hi
  rw [Ne, compareBytes_eq_zero_iff nul_notMem_readBuffer (nul_notMem_of_mem hentry)]
  rintro heq
  exact hmem (heq ▸ hentry)

/-- **Exactly the command typed.** For every NUL-terminated line in the buffer the lookup ends.
It returns the index of the name that the line equals, and -1 if it equals none; so
`execute_command` calls entry `i` for the line that is name `i` and for no other. -/
theorem commandExists_exact (tier : Tier) (clzZero : ℤ) (hline : s.LineEnds) :
    ∃ index, s.commandExists = some index ∧
      (∀ i : ℕ, index = i ↔ commandList[i]? = some s.input.readBuffer) ∧
      (index = -1 ↔ s.input.readBuffer ∉ commandList) ∧
      (∀ i : ℕ, s.dispatch = some (.entry i) ↔ commandList[i]? = some s.input.readBuffer) ∧
      (∀ (i : ℕ) (function : Shell → Shell), commandList[i]? = some s.input.readBuffer →
        (commandFunctions tier clzZero)[i]? = some function →
          s.executeCommand tier clzZero = some (function s)) ∧
      (s.input.readBuffer ∉ commandList →
        s.executeCommand tier clzZero = some (s.commandNotFound tier clzZero)) := by
  have hfound {i : ℕ} (hi : commandList[i]? = some s.input.readBuffer) :
      s.dispatch = some (.entry i) := by
    unfold dispatch
    simp only [commandExists_of_command hline hi, Option.bind_eq_bind, Option.bind_some]
    rw [if_pos (by omega), Int.toNat_natCast]
  have hmissing (hmem : s.input.readBuffer ∉ commandList) : s.dispatch = some .notFound := by
    unfold dispatch
    rw [commandExists_of_notMem hline hmem]
    rfl
  by_cases hmem : s.input.readBuffer ∈ commandList
  · obtain ⟨j, hj⟩ := List.mem_iff_getElem?.mp hmem
    -- the names are distinct, since the lookup is a function
    have hunique : ∀ i : ℕ, commandList[i]? = some s.input.readBuffer ↔ i = j := by
      intro i
      refine ⟨?_, ?_⟩
      · intro hi
        have h := (commandExists_of_command hline hi).symm.trans (commandExists_of_command hline hj)
        exact Int.natCast_inj.mp (Option.some.inj h)
      · rintro rfl
        exact hj
    refine ⟨j, commandExists_of_command hline hj, ?_, ?_, ?_, ?_, fun h => absurd hmem h⟩
    · intro i
      rw [hunique i, Int.natCast_inj, eq_comm]
    · exact ⟨fun h => by omega, fun h => absurd hmem h⟩
    · intro i
      rw [hunique i, hfound hj, Option.some_inj, Dispatch.entry.injEq, eq_comm]
    · intro i function hi hfunction
      unfold executeCommand
      rw [hfound hi]
      change ((commandFunctions tier clzZero)[i]?).map _ = _
      rw [hfunction]
      rfl
  · have hnone : ∀ i : ℕ, commandList[i]? ≠ some s.input.readBuffer := by
      intro i hi
      exact hmem (List.mem_of_getElem? hi)
    refine ⟨-1, commandExists_of_notMem hline hmem, ?_, ?_, ?_, ?_, ?_⟩
    · intro i
      exact ⟨fun h => by omega, fun h => absurd h (hnone i)⟩
    · exact ⟨fun _ => hmem, fun _ => rfl⟩
    · intro i
      rw [hmissing hmem]
      exact ⟨fun h => Dispatch.noConfusion (Option.some.inj h), fun h => absurd h (hnone i)⟩
    · exact fun i _ hi => absurd hi (hnone i)
    · intro _
      unfold executeCommand
      rw [hmissing hmem]
      rfl

/-- A shell with a line in its buffer. -/
def withLine (text : List (BitVec 8)) (s : Shell) : Shell :=
  { s with input := { s.input with inputBuffer := literal text } }

/-- The line `exit`. -/
theorem commandExists_exact_exit :
    let s := (create
      ⟨0, ⟨0, 0⟩, ⟨fun _ => 0, 0, 0, ⟨0, 0, 0⟩, ⟨0, 0⟩, ⟨0, 0⟩⟩, 0, 0, 0, 0⟩).withLine
      (ascii "exit")
    s.executeCommand .gpr 0 = some (s.exit .gpr 0) := by
  intro s
  obtain ⟨_, -, -, -, -, hruns, -⟩ :=
    commandExists_exact (s := s) .gpr 0 ⟨4, by decide, by decide +kernel⟩
  exact hruns 1 (exit .gpr 0) (by decide +kernel) rfl

end Commands

end Shell
end BareMetal
