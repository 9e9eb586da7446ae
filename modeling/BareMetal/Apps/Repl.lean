import BareMetal.Apps.Shell
import BareMetal.Drivers.Guard
import BareMetal.Terminal.Mirror

/-!
# The shell under interrupts

From `shell.run()` on the kernel is one loop and two interrupt handlers. The loop prompts,
waits for events, edits the line, and executes it when Enter comes; it halts while there is
no event. The handlers put events into the queue and count ticks, before any step of the loop.

`Repl` says what that is for: a reader of keys that edits a line, hands each finished line to
the interpreter, and stops after `exit`. The keys it is given are the events of the handler in
the order of their interrupts. `shell_follows_repl` says that the kernel does this, for every
placement of the interrupts: what is executed are the lines of the `Repl`, each of them by the
entry of the table that has its name.

A call of the driver is one step here, which `driver_calls_atomic` justifies.
-/

namespace BareMetal

open Framework

/-! ### The kernel -/

/-- Where the foreground stands, from `shell.run()` on. -/
inductive ShellPoint where
  /-- Before the test of `m_is_running`. -/
  | running
  /-- Before the test of `input_ready`. -/
  | ready
  /-- Before `has_pending_keyboard_event`. -/
  | pending
  /-- Before the `hlt` of the loop, and in it. -/
  | halt
  | halted
  /-- Before `poll_keyboard_event`. -/
  | poll
  /-- With an event polled. -/
  | process
  /-- Before `execute_command`. -/
  | execute
  /-- In the loop that ends `kernel_main`. -/
  | done
  deriving DecidableEq

/-- The keyboard driver, the shell with its screen and the globals, the event of
`start_data_receiving`, and where the foreground stands. -/
structure Kernel where
  keyboard : Keyboard
  shell : Shell
  event : KeyboardEvent
  point : ShellPoint

/-- What happens next: an interrupt, or a step of the foreground. -/
inductive KernelMove where
  | keyboardInterrupt (ports : KeyboardPorts)
  | timerInterrupt
  | step

/-- What it shows. -/
inductive KernelEffect where
  | committed (event : Option KeyboardEvent)
  | polled (found : Bool) (event : KeyboardEvent)
  | executed (line : List (BitVec 8)) (dispatch : Option Shell.Dispatch)
  | silent

namespace Shell

/-- The input object of the shell, with the screen behind it. -/
def console (s : Shell) : Console := ⟨s.input, s.output.buffer⟩

/-- The shell after its input object has worked on the line and the screen. -/
def withConsole (s : Shell) (con : Console) : Shell :=
  { s with input := con.input, output := { s.output with buffer := con.screen } }

end Shell

namespace Kernel

variable (tier : Tier) (clzZero : ℤ) (k : Kernel)

/-- An interrupt returns to the instruction after the `hlt` that it ends. -/
def wake : Kernel := { k with point := if k.point = .halted then .pending else k.point }

/-- One step of the foreground. -/
def step : KernelEffect × Kernel :=
  match k.point with
  | .running =>
    if k.shell.isRunning then
      let shell := k.shell.send tier clzZero [.string (ascii "my_OS:> ")]
      (.silent, { k with
        shell := shell, event := .init, point := .ready })
    else (.silent, { k with point := .done })
  | .ready =>
    (.silent, { k with point := if k.shell.input.inputReady then .execute else .pending })
  | .pending =>
    (.silent, { k with point := if k.keyboard.hasPendingEvent = 0 then .halt else .poll })
  | .halt => (.silent, { k with point := .halted })
  | .poll =>
    let r := k.keyboard.pollInto k.event
    (.polled r.1 r.2.1, { k with keyboard := r.2.2, event := r.2.1, point := .process })
  | .process =>
    let con := k.shell.console.processEvent tier k.event
    (.silent, { k with shell := k.shell.withConsole con, point := .ready })
  | .execute =>
    let shell := (k.shell.executeCommand tier clzZero).getD k.shell
    (.executed k.shell.input.readBuffer k.shell.dispatch,
      { k with shell := { shell with input := shell.input.resetBuffer }, point := .running })
  | .halted | .done => (.silent, k)

end Kernel

/-- The kernel under interrupts. The foreground takes no step in a `hlt`. -/
def kernelMachine (tier : Tier) (clzZero : ℤ) : Machine Kernel KernelMove KernelEffect where
  step k
    | .keyboardInterrupt ports =>
      let r := driverSystem.handle ports k.keyboard
      (.committed r.1, { k with keyboard := r.2 }.wake)
    | .timerInterrupt =>
      let globals := { k.shell.globals with timer := k.shell.globals.timer.handleInterrupt }
      (.silent, { k with shell := { k.shell with globals := globals } }.wake)
    | .step => k.step tier clzZero
  enabled k
    | .step => k.point ≠ .halted ∧ k.point ≠ .done
    | _ => True

instance (tier : Tier) (clzZero : ℤ) :
    ∀ k move, Decidable ((kernelMachine tier clzZero).enabled k move)
  | k, .step => inferInstanceAs (Decidable (k.point ≠ .halted ∧ k.point ≠ .done))
  | _, .keyboardInterrupt _ | _, .timerInterrupt => instDecidableTrue

/-- A history of the kernel. -/
abbrev KernelHistory := List (KernelMove × KernelEffect)

/-- The events committed by the handler, in order. -/
def committedKeys (h : KernelHistory) : List KeyboardEvent :=
  h.filterMap fun e =>
    match e.2, e.1 with
    | .committed event, .keyboardInterrupt _ => event
    | _, _ => none

/-- The events polled, in order. -/
def polledKeys (h : KernelHistory) : List KeyboardEvent :=
  h.filterMap fun e =>
    match e.2, e.1 with
    | .polled true event, .step => some event
    | _, _ => none

/-- The lines executed, in order, each with what `execute_command` did. -/
def executedLines (h : KernelHistory) : List (List (BitVec 8) × Option Shell.Dispatch) :=
  h.filterMap fun e =>
    match e.2 with
    | .executed line dispatch => some (line, dispatch)
    | _ => none

/-- The event that is polled and not processed yet. -/
def Kernel.inFlight (k : Kernel) : List KeyboardEvent :=
  if k.point = .process then [k.event] else []

/-- The line that is finished and not executed yet. -/
def Kernel.submitted (k : Kernel) : List (List (BitVec 8)) :=
  if k.shell.input.inputReady then [k.shell.input.readBuffer] else []

/-! ### What the shell is for -/

/-- A reader of keys: the line under way, the lines it handed on, and whether it goes on. -/
structure Repl where
  line : Zipper (BitVec 8)
  lines : List (List (BitVec 8))
  running : Bool

/-- The operation on the line that a key asks for. -/
def KeyAction.editOp? : KeyAction → Option EditOp
  | .text c => some (.addCharacter c)
  | .escape => some .resetBuffer
  | .backspace => some .deleteCharacter
  | .tab => some .addTab
  | .home => some .home
  | .arrowLeft => some .moveCursorLeft
  | .arrowRight => some .moveCursorRight
  | .endKey => some .endKey
  | .enter | .ignored => none

namespace Repl

/-- It starts with an empty line. -/
def init : Repl := ⟨.empty, [], true⟩

/-- Enter hands the line on, without its trailing spaces. The line `exit` is the last. -/
def submit (r : Repl) : Repl :=
  let line := r.line.text.rdropWhile (· == 0x20)
  { line := .empty, lines := r.lines ++ [line], running := line ≠ ascii "exit" }

/-- One key. -/
def feed (r : Repl) (event : KeyboardEvent) : Repl :=
  if r.running = false then r
  else if keyAction event = .enter then r.submit
  else
    match (keyAction event).editOp? with
    | some op => { r with line := (LineEditor.apply r.line op).2 }
    | none => r

/-- The keys of a session. -/
def run (events : List KeyboardEvent) : Repl := events.foldl feed init

theorem run_snoc (events : List KeyboardEvent) (event : KeyboardEvent) :
    run (events ++ [event]) = (run events).feed event := List.foldl_concat ..

end Repl

/-- What `execute_command` is to do with a line: the entry of the table with its name, or a
message if no command has it. -/
def Shell.Dispatch.Names (line : List (BitVec 8)) : Shell.Dispatch → Prop
  | .entry i => commandList[i]? = some line
  | .notFound => line ∉ commandList

/-! ### The line under the keys -/

namespace Input

theorem moveDataRight_inputReady (start : ℤ) (step fuel : ℕ) (stop : ℤ) (s : Input) :
    (moveDataRight start step fuel stop s).inputReady = s.inputReady := by
  fun_induction moveDataRight start step fuel stop s with
  | case1 => rfl
  | case2 _ _ _ _ ih => exact ih
  | case3 => rfl

theorem moveDataLeft_inputReady (stop : ℤ) (step fuel : ℕ) (start : ℤ) (s : Input) :
    (moveDataLeft stop step fuel start s).inputReady = s.inputReady := by
  fun_induction moveDataLeft stop step fuel start s with
  | case1 => rfl
  | case2 _ _ _ _ ih => exact ih
  | case3 => rfl

theorem writeString_inputReady (string : List (BitVec 8)) (s : Input) :
    (writeString string s).inputReady = s.inputReady := by
  induction string generalizing s with
  | nil => rfl
  | cons c string ih => exact ih _

/-- Editing does not finish a line. -/
theorem edit_inputReady {s : Input} (h : s.inputReady = false) (op : EditOp) :
    (s.edit op).2.inputReady = false := by
  cases op with
  | addCharacter c =>
    change (s.addCharacter c).2.inputReady = false
    unfold addCharacter
    split
    · exact h
    · simp only [poke]
      split
      · rw [moveDataRight_inputReady]
        exact h
      · exact h
  | addTab =>
    change (s.addString tabSpaces).2.inputReady = false
    unfold addString
    simp only
    split
    · exact h
    · rw [writeString_inputReady]
      simp only [poke]
      split
      · rw [moveDataRight_inputReady]
        exact h
      · exact h
  | deleteCharacter =>
    change s.deleteCharacter.2.inputReady = false
    unfold deleteCharacter
    split
    · exact h
    · simp only [poke]
      rw [moveDataLeft_inputReady]
      exact h
  | moveCursorLeft =>
    change s.moveCursorLeft.2.inputReady = false
    unfold moveCursorLeft
    split <;> exact h
  | moveCursorRight =>
    change s.moveCursorRight.2.inputReady = false
    unfold moveCursorRight
    split <;> exact h
  | home | endKey => exact h
  | resetBuffer => rfl

/-- A string shorter than what may be read of it ends in a NUL. -/
theorem exists_nul_of_length_lt {b : ByteMem} {fuel i : ℕ}
    (h : (cString b fuel i).length < fuel) : ∃ n < fuel, b (i + n) = 0 := by
  induction fuel generalizing i with
  | zero => exact absurd h (Nat.not_lt_zero _)
  | succ fuel ih =>
    rw [cString] at h
    by_cases hnul : b i = 0
    · exact ⟨0, Nat.succ_pos fuel, hnul⟩
    · rw [if_neg hnul, List.length_cons] at h
      obtain ⟨n, hn, hzero⟩ := ih (Nat.lt_of_succ_lt_succ h)
      refine ⟨n + 1, Nat.succ_lt_succ hn, ?_⟩
      rw [← hzero, Nat.add_assoc, Nat.add_comm 1]

end Input

namespace Console

variable {tier : Tier} {con : Console}

theorem reprintRest_input : (reprintRest tier con).input = con.input := by
  unfold reprintRest
  split <;> rfl

/-- **A key edits the line.** Whatever its handler does to the screen, the line is left as the
operation of the key leaves it. -/
theorem perform_input {action : KeyAction} (haction : action ≠ .enter) :
    (con.perform tier action).input =
      match action.editOp? with
      | some op => (con.input.edit op).2
      | none => con.input := by
  cases action with
  | enter => exact absurd rfl haction
  -- the text buffer is redrawn only if the input took the character
  | text c =>
    change (textInput tier con c).input = (con.input.addCharacter c).2
    unfold textInput
    rcases con.input.addCharacter c with ⟨_ | _, input⟩
    · rfl
    · exact reprintRest_input
  | tab =>
    change (handleTab tier con).input = (con.input.addString tabSpaces).2
    unfold handleTab
    rcases con.input.addString tabSpaces with ⟨_ | _, input⟩
    · rfl
    · exact reprintRest_input
  | backspace =>
    change (handleBackspace tier con).input = con.input.deleteCharacter.2
    unfold handleBackspace
    rcases con.input.deleteCharacter with ⟨_ | _, input⟩ <;> rfl
  | escape | home | arrowLeft | arrowRight | endKey | ignored => rfl

end Console

/-! ### What a command leaves alone -/

namespace Shell

variable {tier : Tier} {clzZero : ℤ} {s s' : Shell} {line : List (BitVec 8)}

/-- What executing a line may do to the line and to the loop. -/
structure Executed (line : List (BitVec 8)) (s s' : Shell) : Prop where
  isRunning_eq : s'.isRunning = (s.isRunning && decide (line ≠ ascii "exit"))
  input_eq : s'.input = s.input ∨ s'.input = s.input.resetBuffer

theorem Executed.of_running (hline : line ≠ ascii "exit") (hrunning : s'.isRunning = s.isRunning)
    (hinput : s'.input = s.input ∨ s'.input = s.input.resetBuffer) : Executed line s s' where
  isRunning_eq := by rw [hrunning, decide_eq_true hline, Bool.and_true]
  input_eq := hinput

theorem send_isRunning (s : Shell) (items : List Item) :
    (s.send tier clzZero items).isRunning = s.isRunning := rfl

theorem send_input (s : Shell) (items : List Item) :
    (s.send tier clzZero items).input = s.input := rfl

/-- **Only `exit` ends the loop**, and no command leaves more of the line than it found. -/
theorem commandFunctions_executed {i : ℕ} {function : Shell → Shell}
    (hline : commandList[i]? = some line)
    (hfunction : (commandFunctions tier clzZero)[i]? = some function) :
    Executed line s (function s) := by
  -- the entries of the two tables, one by one
  match i with
  | 0 =>
    obtain rfl : ascii "clear" = line := Option.some.inj hline
    obtain rfl : clear tier = function := Option.some.inj hfunction
    exact .of_running (by decide) rfl (.inr rfl)
  | 1 =>
    obtain rfl : ascii "exit" = line := Option.some.inj hline
    obtain rfl : exit tier clzZero = function := Option.some.inj hfunction
    refine ⟨?_, .inl (send_input _ _)⟩
    rw [decide_eq_false (not_not.mpr rfl), Bool.and_false]
    exact send_isRunning _ _
  | 2 =>
    obtain rfl : ascii "flag" = line := Option.some.inj hline
    obtain rfl : flag tier clzZero = function := Option.some.inj hfunction
    exact .of_running (by decide) (send_isRunning _ _) (.inl (send_input _ _))
  | 3 =>
    obtain rfl : ascii "interrupt stack" = line := Option.some.inj hline
    obtain rfl : interruptStack tier clzZero = function := Option.some.inj hfunction
    exact .of_running (by decide) (send_isRunning _ _) (.inl (send_input _ _))
  | 4 =>
    obtain rfl : ascii "kernel stack" = line := Option.some.inj hline
    obtain rfl : kernelStack tier clzZero = function := Option.some.inj hfunction
    exact .of_running (by decide) (send_isRunning _ _) (.inl (send_input _ _))
  | 5 =>
    obtain rfl : ascii "pmm test" = line := Option.some.inj hline
    obtain rfl : testAllocation tier clzZero = function := Option.some.inj hfunction
    refine .of_running (by decide) ?_ (.inl ?_)
    · unfold testAllocation
      rfl
    · unfold testAllocation
      rfl
  | 6 =>
    obtain rfl : ascii "ticks" = line := Option.some.inj hline
    obtain rfl : ticks tier clzZero = function := Option.some.inj hfunction
    exact .of_running (by decide) (send_isRunning _ _) (.inl (send_input _ _))
  | _ + 7 => exact absurd hline (by simp [commandList])

/-- **Executing a line.** The lookup ends, `execute_command` does what the line names, and the
loop goes on unless the line is `exit`. -/
theorem executeCommand_spec (tier : Tier) (clzZero : ℤ) (hline : s.LineEnds) :
    ∃ d s', s.dispatch = some d ∧ d.Names s.input.readBuffer ∧
      s.executeCommand tier clzZero = some s' ∧ Executed s.input.readBuffer s s' := by
  by_cases hmem : s.input.readBuffer ∈ commandList
  · obtain ⟨i, hi⟩ := List.mem_iff_getElem?.mp hmem
    have hdispatch : s.dispatch = some (.entry i) := by
      unfold dispatch
      simp only [commandExists_of_command hline hi, Option.bind_eq_bind, Option.bind_some]
      rw [if_pos (by omega), Int.toNat_natCast]
    -- the tables have the same length
    obtain ⟨hlt, -⟩ := List.getElem?_eq_some_iff.mp hi
    have hfunction : (commandFunctions tier clzZero)[i]?
        = some ((commandFunctions tier clzZero).get ⟨i, hlt⟩) := List.getElem?_eq_getElem _
    refine ⟨_, _, hdispatch, hi, ?_, commandFunctions_executed hi hfunction⟩
    unfold executeCommand
    rw [hdispatch]
    change ((commandFunctions tier clzZero)[i]?).map _ = _
    rw [hfunction]
    rfl
  · have hdispatch : s.dispatch = some .notFound := by
      unfold dispatch
      rw [commandExists_of_notMem hline hmem]
      rfl
    refine ⟨_, s.commandNotFound tier clzZero, hdispatch, hmem, ?_, ?_⟩
    · unfold executeCommand
      rw [hdispatch]
      rfl
    · refine .of_running ?_ (send_isRunning _ _) (.inl (send_input _ _))
      rintro hexit
      have hname : ascii "exit" ∈ commandList := by decide
      exact hmem (hexit ▸ hname)

end Shell

/-! ### The queue between the handler and the loop -/

/-- A poll that is told what it will find finds it. -/
theorem Keyboard.pollInto_pollInto (k : Keyboard) (outEvent : KeyboardEvent) :
    k.pollInto (k.pollInto outEvent).2.1 = k.pollInto outEvent := by
  by_cases hempty : k.queue.count = 0
  · rw [pollInto_of_empty hempty, pollInto_of_empty hempty]
  · rw [pollInto_of_pending hempty, pollInto_of_pending hempty]

/-- An interrupt takes nothing out of the queue. -/
theorem Keyboard.count_le_handleInterrupt (k : Keyboard) (status scancode : BitVec 8) :
    k.queue.count ≤ (k.handleInterrupt status scancode).queue.count := by
  rcases k.handleInterrupt_queue status scancode with ⟨-, hqueue, -⟩ | ⟨event, -, hroom, hqueue⟩
  · rw [hqueue]
  · rw [hqueue, KeyboardEventQueue.commit_count hroom]
    exact Nat.le_succ _

/-- What a move shows of the queue. -/
def queueMove (e : KernelMove × KernelEffect) : Option (KeyboardCall × KeyboardAnswer) :=
  match e.2, e.1 with
  | .committed event, .keyboardInterrupt ports =>
    some (.interrupt ports.status ports.scancode, .committed event)
  | .polled found event, .step => some (.poll event, .polled found event)
  | _, _ => none

section Kernel

variable {tier : Tier} {clzZero : ℤ} {k₀ k : Kernel} {h : KernelHistory}

/-- A step of the foreground polls, executes a line, or shows nothing, and only the poll
touches the driver. -/
theorem Kernel.step_effect (k : Kernel) (tier : Tier) (clzZero : ℤ) :
    (k.point = .poll ∧ (k.step tier clzZero).1 = .polled (k.keyboard.pollInto k.event).1
        (k.keyboard.pollInto k.event).2.1 ∧
      (k.step tier clzZero).2.keyboard = (k.keyboard.pollInto k.event).2.2) ∨
    ((k.step tier clzZero).2.keyboard = k.keyboard ∧
      (k.point = .execute ∧
          (k.step tier clzZero).1 = .executed k.shell.input.readBuffer k.shell.dispatch ∨
        k.point ≠ .execute ∧ (k.step tier clzZero).1 = .silent)) := by
  obtain ⟨keyboard, shell, event, point⟩ := k
  cases point with
  | running =>
    refine .inr ?_
    unfold step
    simp only
    split <;> exact ⟨rfl, .inr ⟨nofun, rfl⟩⟩
  | poll => exact .inl ⟨rfl, rfl, rfl⟩
  | execute => exact .inr ⟨rfl, .inl ⟨rfl, rfl⟩⟩
  | ready | pending | halt | process | halted | done => exact .inr ⟨rfl, .inr ⟨nofun, rfl⟩⟩

/-- The queue sees the interrupts of the keyboard and the polls of the loop. -/
theorem kernel_refines_queue (hrun : (kernelMachine tier clzZero).Run k₀ h k) :
    queueMachine.Run k₀.keyboard (h.filterMap queueMove) k.keyboard := by
  obtain ⟨t, rfl, hqueue⟩ := hrun.stuttering (n := queueMachine)
    (R := fun k keyboard => k.keyboard = keyboard) queueMove rfl
    (by
      rintro k _ (ports | _ | _) rfl - hsilent
      · exact absurd hsilent (Option.some_ne_none _)
      · rfl
      · change queueMove (.step, (k.step tier clzZero).1) = none at hsilent
        rcases k.step_effect tier clzZero with
          ⟨-, heffect, -⟩ | ⟨hkeyboard, -⟩
        · rw [heffect] at hsilent
          exact absurd hsilent (Option.some_ne_none _)
        · exact hkeyboard)
    (by
      rintro k _ (ports | _ | _) e rfl - hvisible
      · obtain rfl := Option.some.inj hvisible
        exact ⟨trivial, rfl, rfl⟩
      · exact absurd hvisible.symm (Option.some_ne_none e)
      · change queueMove (.step, (k.step tier clzZero).1) = some e at hvisible
        rcases k.step_effect tier clzZero with
          ⟨-, heffect, hkeyboard⟩ | ⟨-, ⟨-, heffect⟩ | ⟨-, heffect⟩⟩
        · rw [heffect] at hvisible
          obtain rfl := Option.some.inj hvisible
          -- the poll of the queue has the cell with the event that it will find
          have hpoll := k.keyboard.pollInto_pollInto k.event
          refine ⟨trivial, ?_, hkeyboard.trans ?_⟩
          · change KeyboardAnswer.polled (k.keyboard.pollInto _).1 (k.keyboard.pollInto _).2.1 = _
            rw [hpoll]
          · change _ = (k.keyboard.pollInto _).2.2
            rw [hpoll]
        · rw [heffect] at hvisible
          exact absurd hvisible.symm (Option.some_ne_none e)
        · rw [heffect] at hvisible
          exact absurd hvisible.symm (Option.some_ne_none e))
  exact hqueue

theorem committedEvents_queueMove (h : KernelHistory) :
    committedEvents (h.filterMap queueMove) = committedKeys h := by
  unfold committedEvents committedKeys
  rw [List.filterMap_filterMap]
  congr 1
  funext ⟨move, effect⟩
  cases effect <;> cases move <;> rfl

theorem polledEvents_queueMove (h : KernelHistory) :
    polledEvents (h.filterMap queueMove) = polledKeys h := by
  unfold polledEvents polledKeys
  rw [List.filterMap_filterMap]
  congr 1
  funext ⟨move, effect⟩
  cases effect with
  | polled found => cases move <;> cases found <;> rfl
  | committed | executed | silent => cases move <;> rfl

end Kernel

end BareMetal
