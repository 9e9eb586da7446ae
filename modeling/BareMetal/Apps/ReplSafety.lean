import BareMetal.Apps.Repl

/-!
# The shell is a reader of keys

The loop of the shell and the reader `Repl` are in one of two relations. While a line is
edited it is the line of the reader (`Editing`); between Enter and the execution the reader
has handed the line on already (`Submitted`). An interrupt changes neither, and each point of
the loop has its step lemma. The events are counted with those in flight: one that is polled
and not processed, and a line that is finished and not executed.
-/

namespace BareMetal

open Framework

section Kernel

variable {tier : Tier} {clzZero : ℤ} {k₀ k : Kernel} {h : KernelHistory}

/-! ### The loop and the reader -/

/-- While a line is edited it is the line of the reader. -/
structure Editing (k : Kernel) (r : Repl) (lines : List (List (BitVec 8))) : Prop where
  ready : k.shell.input.inputReady = false
  inv : k.shell.input.Inv
  line_eq : k.shell.input.line = r.line
  lines_eq : r.lines = lines
  running_eq : k.shell.isRunning = r.running
  point_ne : k.point ≠ .execute
  -- a loop that has ended takes no event
  stopped : r.running = false → k.point = .running ∨ k.point = .done

/-- Between Enter and the execution the reader has handed the line on. -/
structure Submitted (k : Kernel) (r : Repl) (lines : List (List (BitVec 8))) : Prop where
  ready : k.shell.input.inputReady = true
  ends : k.shell.LineEnds
  accesses : Input.InArray k.shell.input.accesses
  line_eq : r.line = .empty
  lines_eq : r.lines = lines ++ [k.shell.input.readBuffer]
  running_eq : r.running = decide (k.shell.input.readBuffer ≠ ascii "exit")
  isRunning : k.shell.isRunning = true
  point_eq : k.point = .ready ∨ k.point = .execute

/-- The loop is where the reader is, who was given the events processed so far. -/
def Follows (k : Kernel) (r : Repl) (lines : List (List (BitVec 8))) : Prop :=
  Editing k r lines ∨ Submitted k r lines

/-- What holds along every run. -/
structure KernelInv (h : KernelHistory) (k : Kernel) : Prop where
  pollable : k.point = .poll → k.keyboard.queue.count ≠ 0
  found : ∀ e ∈ h, ∀ found event, e.2 = .polled found event → found = true
  named : ∀ e ∈ executedLines h, ∃ d, e.2 = some d ∧ d.Names e.1
  follows : ∃ seen, polledKeys h = seen ++ k.inFlight ∧
    Follows k (Repl.run seen) ((executedLines h).map Prod.fst)

section Steps

variable {k' : Kernel} {r r' : Repl} {lines : List (List (BitVec 8))}

/-- The shell edits on, at another point `q` of the loop. -/
theorem Editing.move (hedit : Editing k r lines) (hinput : k'.shell.input = k.shell.input)
    (hrunning : k'.shell.isRunning = k.shell.isRunning) {q : ShellPoint} (hq : k'.point = q)
    (hexecute : q ≠ .execute) (hstopped : r.running = false → q = .running ∨ q = .done) :
    Editing k' r lines where
  ready := hinput ▸ hedit.ready
  inv := hinput ▸ hedit.inv
  line_eq := hinput ▸ hedit.line_eq
  lines_eq := hedit.lines_eq
  running_eq := hrunning.trans hedit.running_eq
  point_ne := hq ▸ hexecute
  stopped := hq ▸ hstopped

/-- A loop that is on its way is not stopped. -/
theorem Editing.running (hedit : Editing k r lines) {q : ShellPoint} (hq : k.point = q)
    (hne : q ≠ .running ∧ q ≠ .done) : r.running = true := by
  by_contra hstop
  rcases hedit.stopped (Bool.eq_false_iff.mpr hstop) with heq | heq
  · exact hne.1 (hq.symm.trans heq)
  · exact hne.2 (hq.symm.trans heq)

/-- From a point on the way to another one. -/
theorem Editing.goTo (hedit : Editing k r lines) (hinput : k'.shell.input = k.shell.input)
    (hrunning : k'.shell.isRunning = k.shell.isRunning) {p q : ShellPoint} (hp : k.point = p)
    (hq : k'.point = q) (hne : p ≠ .running ∧ p ≠ .done) (hexecute : q ≠ .execute) :
    Editing k' r lines :=
  hedit.move hinput hrunning hq hexecute fun hstop =>
    absurd (hstop.symm.trans (hedit.running hp hne)) Bool.false_ne_true

/-- A line that is finished is executed next. -/
theorem Submitted.absurd (hsub : Submitted k r lines) {p : ShellPoint} (hp : k.point = p)
    (hne : p ≠ .ready ∧ p ≠ .execute) : False := by
  rcases hsub.point_eq with heq | heq
  · exact hne.1 (hp.symm.trans heq)
  · exact hne.2 (hp.symm.trans heq)

/-- An interrupt that leaves the line and the loop alone. -/
theorem Follows.interrupt (hfollows : Follows k r lines)
    (hinput : k'.shell.input = k.shell.input) (hrunning : k'.shell.isRunning = k.shell.isRunning)
    (hpoint : k'.point = if k.point = .halted then .pending else k.point) :
    Follows k' r lines := by
  rcases hfollows with hedit | hsub
  · refine .inl (hedit.move hinput hrunning hpoint ?_ ?_)
    · split
      · exact nofun
      · exact hedit.point_ne
    · intro hstop
      rcases hedit.stopped hstop with heq | heq <;> rw [heq] <;> simp
  -- a submitted line is not waited for, so nothing is woken up
  · have hsame : k'.point = k.point := by
      rw [hpoint]
      rcases hsub.point_eq with heq | heq <;> rw [heq] <;> rfl
    refine .inr ⟨hinput ▸ hsub.ready, ?_, hinput ▸ hsub.accesses, hsub.line_eq,
      hinput ▸ hsub.lines_eq, hinput ▸ hsub.running_eq, hrunning.trans hsub.isRunning,
      hsame ▸ hsub.point_eq⟩
    unfold Shell.LineEnds
    rw [hinput]
    exact hsub.ends

/-- Enter finishes the line. -/
theorem Editing.enter (hedit : Editing k r lines) (tier : Tier) {k' : Kernel}
    (hshell : k'.shell = k.shell.withConsole (k.shell.console.handleEnter tier))
    (hpoint : k'.point = .ready) (hrunning : r.running = true) :
    Submitted k' r.submit lines := by
  have hread : k'.shell.input.readBuffer = k.shell.input.line.text.rdropWhile (· == 0x20) ∧
      Input.InArray k'.shell.input.accesses := by
    rw [hshell]
    exact Input.handleEnter_spec hedit.inv tier k.shell.output.buffer
  have hline : r.line.text.rdropWhile (· == 0x20) = k'.shell.input.readBuffer := by
    rw [hread.1, hedit.line_eq]
  refine ⟨hshell ▸ rfl, ?_, hread.2, rfl, ?_, ?_, ?_, .inl hpoint⟩
  · -- the line is shorter than the array, so the string in it ends
    have hlength : k'.shell.input.readBuffer.length < inputCapacity + 1 :=
      calc k'.shell.input.readBuffer.length
        _ ≤ k.shell.input.line.text.length := by
          rw [hread.1]
          exact (List.rdropWhile_prefix _ _).length_le
        _ = k.shell.input.dataEnd := hedit.inv.length_text
        _ < inputCapacity + 1 := Nat.lt_succ_of_le hedit.inv.dataEnd_le
    obtain ⟨n, hn, hnul⟩ := Input.exists_nul_of_length_lt hlength
    exact ⟨n, Nat.le_of_lt_succ hn, by rwa [Nat.zero_add] at hnul⟩
  · rw [← hline, ← hedit.lines_eq]
    rfl
  · rw [← hline]
    rfl
  · rw [hshell]
    exact hedit.running_eq.trans hrunning

/-- **One key.** The loop does with the event what the reader does. -/
theorem Editing.process (hedit : Editing k r lines) (tier : Tier) {k' : Kernel}
    (hshell : k'.shell = k.shell.withConsole (k.shell.console.processEvent tier k.event))
    (hpoint : k'.point = .ready) (hrunning : r.running = true) :
    Follows k' (r.feed k.event) lines := by
  rw [Console.processEvent_eq] at hshell
  unfold Repl.feed
  rw [if_neg (fun hstop => Bool.false_ne_true (hstop.symm.trans hrunning))]
  by_cases henter : keyAction k.event = .enter
  · rw [henter] at hshell
    rw [if_pos henter]
    exact .inr (hedit.enter tier hshell hpoint hrunning)
  · rw [if_neg henter]
    have hinput : k'.shell.input = _ :=
      (congrArg Shell.input hshell).trans (Console.perform_input henter)
    have hisRunning : k'.shell.isRunning = r.running :=
      (congrArg Shell.isRunning hshell).trans hedit.running_eq
    cases hop : (keyAction k.event).editOp? with
    | none =>
      rw [hop] at hinput
      exact .inl (hedit.move hinput (hisRunning.trans hedit.running_eq.symm) hpoint nofun
        fun hstop => absurd (hstop.symm.trans hrunning) Bool.false_ne_true)
    | some op =>
      rw [hop] at hinput
      -- a character typed is no NUL
      have hnul : op ≠ .addCharacter 0 := by
        rintro rfl
        cases haction : keyAction k.event with
        | text c =>
          rw [haction] at hop
          obtain rfl : c = 0 := EditOp.addCharacter.inj (Option.some.inj hop)
          exact absurd (keyAction_text haction).1 (by decide)
        | escape | backspace | tab | enter | home | arrowLeft | arrowRight | endKey | ignored =>
          rw [haction] at hop
          exact absurd hop (by simp [KeyAction.editOp?])
      obtain ⟨hinv, heq⟩ := Input.edit_refines hedit.inv hnul
      refine .inl ⟨hinput ▸ Input.edit_inputReady hedit.ready op, hinput ▸ hinv, ?_,
        hedit.lines_eq, hisRunning, hpoint ▸ nofun,
        fun hstop => absurd (hstop.symm.trans hrunning) Bool.false_ne_true⟩
      rw [hinput, ← hedit.line_eq]
      exact (congrArg Prod.snd heq).symm

/-- **One line.** It is executed by what it names, and the next one starts empty. -/
theorem Submitted.execute (hsub : Submitted k r lines) (tier : Tier) (clzZero : ℤ) (k' : Kernel)
    (hinput : k'.shell.input =
      ((k.shell.executeCommand tier clzZero).getD k.shell).input.resetBuffer)
    (hisRunning : k'.shell.isRunning =
      ((k.shell.executeCommand tier clzZero).getD k.shell).isRunning)
    (hpoint : k'.point = .running) :
    (∃ d, k.shell.dispatch = some d ∧ d.Names k.shell.input.readBuffer) ∧
      Editing k' r (lines ++ [k.shell.input.readBuffer]) := by
  obtain ⟨d, s, hdispatch, hnames, hexecute, hexecuted⟩ :=
    Shell.executeCommand_spec tier clzZero hsub.ends
  rw [hexecute, Option.getD_some] at hinput hisRunning
  refine ⟨⟨d, hdispatch, hnames⟩, hinput ▸ rfl, ?_, ?_, hsub.lines_eq, ?_, hpoint ▸ nofun,
    fun _ => .inl hpoint⟩
  -- after a command the buffer is reset once, or twice if the command has done it
  · rw [hinput]
    rcases hexecuted.input_eq with heq | heq
    · rw [heq]
      exact Input.resetBuffer_inv hsub.accesses
    · rw [heq]
      exact Input.resetBuffer_inv (Input.resetBuffer_inv hsub.accesses).accesses_in
  · rw [hinput, hsub.line_eq]
    rfl
  · rw [hisRunning, hexecuted.isRunning_eq, hsub.isRunning, hsub.running_eq, Bool.true_and]

end Steps

/-! ### Every run -/

theorem polledKeys_snoc (h : KernelHistory) (e : KernelMove × KernelEffect) :
    polledKeys (h ++ [e]) = polledKeys h ++ polledKeys [e] := List.filterMap_append ..

theorem executedLines_snoc (h : KernelHistory) (e : KernelMove × KernelEffect) :
    executedLines (h ++ [e]) = executedLines h ++ executedLines [e] := List.filterMap_append ..

/-- A move that neither polls nor executes. -/
def KernelEffect.quiet : KernelEffect → Bool
  | .committed _ | .silent => true
  | .polled _ _ | .executed _ _ => false

/-- A quiet move keeps the invariant if the loop follows the reader after it. -/
theorem KernelInv.quiet {k' : Kernel} {e : KernelMove × KernelEffect} (hinv : KernelInv h k)
    (hquiet : e.2.quiet = true)
    (hpollable : k'.point = .poll → k'.keyboard.queue.count ≠ 0)
    (hfollows : ∀ seen, polledKeys h = seen ++ k.inFlight →
      Follows k (Repl.run seen) ((executedLines h).map Prod.fst) →
        ∃ seen', polledKeys h = seen' ++ k'.inFlight ∧
          Follows k' (Repl.run seen') ((executedLines h).map Prod.fst)) :
    KernelInv (h ++ [e]) k' := by
  obtain ⟨move, effect⟩ := e
  -- neither list gets longer by what is observed
  have hpolled : polledKeys [(move, effect)] = [] := by
    cases effect with
    | polled => exact absurd hquiet Bool.false_ne_true
    | committed | executed | silent => cases move <;> rfl
  have hexecuted : executedLines [(move, effect)] = [] := by
    cases effect with
    | executed => exact absurd hquiet Bool.false_ne_true
    | committed | polled | silent => rfl
  obtain ⟨seen, hseen, hold⟩ := hinv.follows
  refine ⟨hpollable, ?_, ?_, ?_⟩
  · intro e he found event heq
    rcases List.mem_append.mp he with he | he
    · exact hinv.found e he found event heq
    · obtain rfl := List.mem_singleton.mp he
      obtain rfl : effect = .polled found event := heq
      exact absurd hquiet Bool.false_ne_true
  · rw [executedLines_snoc, hexecuted, List.append_nil]
    exact hinv.named
  · rw [polledKeys_snoc, executedLines_snoc, hpolled, hexecuted, List.append_nil, List.append_nil]
    exact hfollows seen hseen hold

/-- An interrupt keeps the invariant. -/
theorem KernelInv.interrupt {k' : Kernel} {e : KernelMove × KernelEffect} (hinv : KernelInv h k)
    (hquiet : e.2.quiet = true)
    (hcount : k.keyboard.queue.count ≤ k'.keyboard.queue.count)
    (hinput : k'.shell.input = k.shell.input) (hrunning : k'.shell.isRunning = k.shell.isRunning)
    (hevent : k'.event = k.event)
    (hpoint : k'.point = if k.point = .halted then .pending else k.point) :
    KernelInv (h ++ [e]) k' := by
  -- an interrupt may end a `hlt`, and otherwise the loop is where it was
  have hsame (point : ShellPoint) (hne : point ≠ .pending) : k'.point = point →
      k.point = point := by
    intro heq
    rw [hpoint] at heq
    split at heq
    · exact absurd heq.symm hne
    · exact heq
  refine hinv.quiet hquiet ?_ ?_
  · intro hpoll
    have hpos := hinv.pollable (hsame .poll nofun hpoll)
    omega
  · intro seen hseen hfollows
    refine ⟨seen, ?_, hfollows.interrupt hinput hrunning hpoint⟩
    rw [hseen]
    unfold Kernel.inFlight
    rw [hevent, hpoint]
    by_cases hhalted : k.point = .halted
    · rw [if_pos hhalted, hhalted]
      rfl
    · rw [if_neg hhalted]

/-- A silent step that neither takes up an event nor lays one down. -/
theorem KernelInv.goTo {k' : Kernel} {p q : ShellPoint} (hinv : KernelInv h k) (hp : k.point = p)
    (hq : k'.point = q) (hprocess : p ≠ .process ∧ q ≠ .process)
    (hpollable : q = .poll → k'.keyboard.queue.count ≠ 0)
    (hfollows : ∀ r lines, Follows k r lines → Follows k' r lines) :
    KernelInv (h ++ [(.step, .silent)]) k' := by
  refine hinv.quiet rfl (hq ▸ hpollable) fun seen hseen hold =>
    ⟨seen, ?_, hfollows _ _ hold⟩
  rw [hseen]
  unfold Kernel.inFlight
  rw [if_neg (hp ▸ hprocess.1), if_neg (hq ▸ hprocess.2)]

theorem KernelInv.step_running (hinv : KernelInv h k) (hp : k.point = .running) :
    KernelInv (h ++ [(.step, (k.step tier clzZero).1)]) (k.step tier clzZero).2 := by
  unfold Kernel.step
  simp only [hp]
  by_cases hrunning : k.shell.isRunning = true
  · rw [if_pos hrunning]
    refine hinv.goTo (q := .ready) hp rfl (by decide) nofun ?_
    rintro r lines (hedit | hsub)
    · refine .inl (hedit.move (q := .ready) (Shell.send_input _ _) (Shell.send_isRunning _ _) rfl
        (by decide) fun hstop => ?_)
      exact absurd (hstop.symm.trans (hedit.running_eq.symm.trans hrunning)) Bool.false_ne_true
    · exact (hsub.absurd hp (by decide)).elim
  · rw [if_neg hrunning]
    refine hinv.goTo (q := .done) hp rfl (by decide) nofun ?_
    rintro r lines (hedit | hsub)
    · exact .inl (hedit.move (q := .done) rfl rfl rfl (by decide) fun _ => .inr rfl)
    · exact (hsub.absurd hp (by decide)).elim

theorem KernelInv.step_ready (hinv : KernelInv h k) (hp : k.point = .ready) :
    KernelInv (h ++ [(.step, (k.step tier clzZero).1)]) (k.step tier clzZero).2 := by
  unfold Kernel.step
  simp only [hp]
  cases hready : k.shell.input.inputReady with
  | true =>
    refine hinv.goTo (q := .execute) hp rfl (by decide) nofun ?_
    rintro r lines (hedit | hsub)
    · exact absurd (hedit.ready.symm.trans hready) Bool.false_ne_true
    · exact .inr { hsub with point_eq := .inr rfl }
  | false =>
    refine hinv.goTo (q := .pending) hp rfl (by decide) nofun ?_
    rintro r lines (hedit | hsub)
    · exact .inl (hedit.goTo (q := .pending) rfl rfl hp rfl (by decide) (by decide))
    · exact absurd (hready.symm.trans hsub.ready) Bool.false_ne_true

theorem KernelInv.step_pending (hinv : KernelInv h k) (hp : k.point = .pending) :
    KernelInv (h ++ [(.step, (k.step tier clzZero).1)]) (k.step tier clzZero).2 := by
  unfold Kernel.step
  simp only [hp]
  by_cases hempty : k.keyboard.hasPendingEvent = 0
  · rw [if_pos hempty]
    refine hinv.goTo (q := .halt) hp rfl (by decide) nofun ?_
    rintro r lines (hedit | hsub)
    · exact .inl (hedit.goTo (q := .halt) rfl rfl hp rfl (by decide) (by decide))
    · exact (hsub.absurd hp (by decide)).elim
  · rw [if_neg hempty]
    refine hinv.goTo (q := .poll) hp rfl (by decide) (fun _ => hempty) ?_
    rintro r lines (hedit | hsub)
    · exact .inl (hedit.goTo (q := .poll) rfl rfl hp rfl (by decide) (by decide))
    · exact (hsub.absurd hp (by decide)).elim

theorem KernelInv.step_halt (hinv : KernelInv h k) (hp : k.point = .halt) :
    KernelInv (h ++ [(.step, (k.step tier clzZero).1)]) (k.step tier clzZero).2 := by
  unfold Kernel.step
  simp only [hp]
  refine hinv.goTo (q := .halted) hp rfl (by decide) nofun ?_
  rintro r lines (hedit | hsub)
  · exact .inl (hedit.goTo (q := .halted) rfl rfl hp rfl (by decide) (by decide))
  · exact (hsub.absurd hp (by decide)).elim

/-- The event that `has_pending_keyboard_event` saw is still there. -/
theorem KernelInv.step_poll (hinv : KernelInv h k) (hp : k.point = .poll) :
    KernelInv (h ++ [(.step, (k.step tier clzZero).1)]) (k.step tier clzZero).2 := by
  have hsome : k.keyboard.queue.count ≠ 0 := hinv.pollable hp
  unfold Kernel.step
  simp only [hp, Keyboard.pollInto_of_pending hsome]
  obtain ⟨seen, hseen, hfollows⟩ := hinv.follows
  refine ⟨nofun, ?_, ?_, seen, ?_, ?_⟩
  -- the queue was not empty, so the poll finds an event
  · intro e he found event heq
    rcases List.mem_append.mp he with he | he
    · exact hinv.found e he found event heq
    · obtain rfl := List.mem_singleton.mp he
      exact (KernelEffect.polled.inj heq).1.symm
  · rw [executedLines_snoc]
    exact (List.append_nil _).symm ▸ hinv.named
  -- the event that was polled is in flight now
  · rw [polledKeys_snoc, hseen]
    unfold Kernel.inFlight
    rw [hp]
    exact congrArg (· ++ _) (List.append_nil seen)
  · rw [executedLines_snoc]
    refine (List.append_nil _).symm ▸ ?_
    rcases hfollows with hedit | hsub
    · exact .inl (hedit.goTo (q := .process) rfl rfl hp rfl (by decide) (by decide))
    · exact (hsub.absurd hp (by decide)).elim

theorem KernelInv.step_process (hinv : KernelInv h k) (hp : k.point = .process) :
    KernelInv (h ++ [(.step, (k.step tier clzZero).1)]) (k.step tier clzZero).2 := by
  unfold Kernel.step
  simp only [hp]
  refine hinv.quiet rfl nofun ?_
  intro seen hseen hfollows
  refine ⟨seen ++ [k.event], ?_, ?_⟩
  · rw [hseen]
    unfold Kernel.inFlight
    rw [hp]
    exact (List.append_nil _).symm
  · rw [Repl.run_snoc]
    rcases hfollows with hedit | hsub
    · exact hedit.process tier rfl rfl (hedit.running hp (by decide))
    · exact (hsub.absurd hp (by decide)).elim

theorem KernelInv.step_execute (hinv : KernelInv h k) (hp : k.point = .execute) :
    KernelInv (h ++ [(.step, (k.step tier clzZero).1)]) (k.step tier clzZero).2 := by
  unfold Kernel.step
  simp only [hp]
  obtain ⟨seen, hseen, hfollows⟩ := hinv.follows
  rcases hfollows with hedit | hsub
  · exact absurd hp hedit.point_ne
  -- the line was submitted: its command is executed, and the next one starts empty
  · let executed := (k.shell.executeCommand tier clzZero).getD k.shell
    obtain ⟨hnamed, hedit⟩ := hsub.execute tier clzZero
      { k with
        shell := { executed with input := executed.input.resetBuffer }
        point := .running } rfl rfl rfl
    refine ⟨nofun, ?_, ?_, seen, ?_, ?_⟩
    · intro e he found event' heq
      rcases List.mem_append.mp he with he | he
      · exact hinv.found e he found event' heq
      · obtain rfl := List.mem_singleton.mp he
        exact absurd heq nofun
    · intro e he
      rw [executedLines_snoc] at he
      rcases List.mem_append.mp he with he | he
      · exact hinv.named e he
      · obtain rfl := List.mem_singleton.mp he
        exact hnamed
    · rw [polledKeys_snoc, hseen]
      unfold Kernel.inFlight
      rw [hp]
      exact List.append_nil _
    · rw [executedLines_snoc, List.map_append]
      exact .inl hedit

/-- **A step of the loop keeps the invariant.** -/
theorem KernelInv.step (hinv : KernelInv h k) (hhalted : k.point ≠ .halted)
    (hdone : k.point ≠ .done) :
    KernelInv (h ++ [(.step, (k.step tier clzZero).1)]) (k.step tier clzZero).2 := by
  cases hp : k.point with
  | running => exact hinv.step_running hp
  | ready => exact hinv.step_ready hp
  | pending => exact hinv.step_pending hp
  | halt => exact hinv.step_halt hp
  | poll => exact hinv.step_poll hp
  | process => exact hinv.step_process hp
  | execute => exact hinv.step_execute hp
  | halted => exact absurd hp hhalted
  | done => exact absurd hp hdone

/-- Right before `shell.run()`: nothing typed, on whatever screen. -/
structure Kernel.Booted (k : Kernel) : Prop where
  keyboard : k.keyboard = .init
  input : k.shell.input = .init
  isRunning : k.shell.isRunning = true
  point : k.point = .running

theorem Kernel.Booted.inv (hboot : k.Booted) : KernelInv [] k := by
  obtain ⟨hinv, hline⟩ := Input.Started.inv (.inl hboot.input)
  refine ⟨fun hpoll => absurd (hboot.point.symm.trans hpoll) nofun,
    fun e he => absurd he List.not_mem_nil, fun e he => absurd he List.not_mem_nil, [], ?_, ?_⟩
  · unfold Kernel.inFlight
    rw [hboot.point]
    rfl
  · exact .inl ⟨hboot.input ▸ rfl, hinv, hline, rfl, hboot.isRunning, hboot.point ▸ nofun,
      nofun⟩

theorem kernelInv_of_run (hboot : k₀.Booted) (hrun : (kernelMachine tier clzZero).Run k₀ h k) :
    KernelInv h k := by
  refine hrun.invariant hboot.inv ?_
  intro h k move hinv hen
  cases move with
  | keyboardInterrupt ports =>
    exact hinv.interrupt rfl (k.keyboard.count_le_handleInterrupt _ _) rfl rfl rfl rfl
  | timerInterrupt => exact hinv.interrupt rfl (Nat.le_refl _) rfl rfl rfl rfl
  | step => exact hinv.step hen.1 hen.2

/-- The history of the queue, from the boot on. -/
theorem queueInv_of_boot (hboot : k₀.Booted) (hrun : (kernelMachine tier clzZero).Run k₀ h k) :
    QueueInv (h.filterMap queueMove) k.keyboard := by
  have hqueue := kernel_refines_queue hrun
  rw [hboot.keyboard] at hqueue
  exact queueInv_of_run hqueue

/-- **The shell is a reader of keys.** Along every run of the kernel, wherever the interrupts
come: the events polled are those committed, in order, up to the ones in the queue, and no
poll comes back empty. The lines executed are the lines of the reader given the events
processed, up to the one just finished, and each is executed by the entry of the table that
has its name, or by the message if none has. While no line waits, the line under the cursor
is the reader's, and the loop is stopped if and only if the reader is; it takes no event then. -/
theorem shell_follows_repl (hboot : k₀.Booted)
    (hrun : (kernelMachine tier clzZero).Run k₀ h k) :
    committedKeys h = polledKeys h ++ k.keyboard.queue.contents ∧
      (∀ e ∈ h, ∀ found event, e.2 = .polled found event → found = true) ∧
      (∀ e ∈ executedLines h, ∃ d, e.2 = some d ∧ d.Names e.1) ∧
      ∃ seen, polledKeys h = seen ++ k.inFlight ∧
        (Repl.run seen).lines = (executedLines h).map Prod.fst ++ k.submitted ∧
        (k.submitted = [] → k.shell.input.line = (Repl.run seen).line ∧
          k.shell.isRunning = (Repl.run seen).running ∧
          (k.shell.isRunning = false → k.point = .running ∨ k.point = .done)) := by
  have hqueue := queueInv_of_boot hboot hrun
  have hinv := kernelInv_of_run hboot hrun
  have hconserved := hqueue.conserved
  rw [committedEvents_queueMove, polledEvents_queueMove] at hconserved
  obtain ⟨seen, hseen, hfollows⟩ := hinv.follows
  refine ⟨hconserved, hinv.found, hinv.named, seen, hseen, ?_⟩
  unfold Kernel.submitted
  -- the line is being edited, or it is submitted and about to be executed
  rcases hfollows with hedit | hsub
  · rw [if_neg (hedit.ready ▸ Bool.false_ne_true)]
    refine ⟨hedit.lines_eq.trans (List.append_nil _).symm, fun _ =>
      ⟨hedit.line_eq, hedit.running_eq, fun hstop => hedit.stopped ?_⟩⟩
    exact hedit.running_eq.symm.trans hstop
  · rw [if_pos hsub.ready]
    exact ⟨hsub.lines_eq, fun hnil => absurd hnil (List.cons_ne_nil _ _)⟩

/-- A kernel that has just booted, on a blank screen. -/
def Kernel.boot : Kernel where
  keyboard := .init
  shell := Shell.create
    ⟨0, ⟨0, 100⟩, ⟨fun _ => 0, 0, 0, ⟨0, 0, 0⟩, ⟨0, 0⟩, ⟨0, 0⟩⟩, 0, 0, 0, 0⟩
  event := .init
  point := .running

theorem Kernel.boot_booted : boot.Booted := ⟨rfl, rfl, rfl, rfl⟩

/-- The letter `a` comes while the loop is about to halt, and Enter while it processes `a`. -/
def Kernel.moves : List KernelMove :=
  [.step, .step, .step, .keyboardInterrupt ⟨0x01, 0x1E⟩, .step, .timerInterrupt, .step, .step,
    .keyboardInterrupt ⟨0x01, 0x1C⟩, .step, .step, .step, .step]

theorem Kernel.moves_enabled : (kernelMachine .gpr 0).EnabledAlong boot moves := by
  decide +kernel

/-- The reader was given the `a`; Enter is in flight. -/
theorem shell_follows_repl_moves :
    let r := (kernelMachine .gpr 0).exec Kernel.boot Kernel.moves
    ∃ seen, polledKeys r.1 = seen ++ r.2.inFlight ∧
      (Repl.run seen).lines = (executedLines r.1).map Prod.fst ++ r.2.submitted := by
  intro r
  obtain ⟨-, -, -, seen, hseen, hlines, -⟩ :=
    shell_follows_repl Kernel.boot_booted Kernel.moves_enabled.run
  exact ⟨seen, hseen, hlines⟩

end Kernel

end BareMetal
