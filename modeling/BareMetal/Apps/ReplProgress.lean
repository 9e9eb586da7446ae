import BareMetal.Apps.ReplSafety

/-!
# The shell catches up

The loop tests the queue and then halts, with interrupts on in between. An event that comes
there is not seen: the processor halts with an event in the queue, until the next interrupt.
The timer brings one. So nothing typed is left behind, but it may wait for a tick
(`shell_catches_up`). The number of steps left is a measure of the queue and of the point of
the loop, and without interrupts every step makes it smaller.
-/

namespace BareMetal

open Framework

section Kernel

variable {tier : Tier} {clzZero : ℤ} {k₀ k : Kernel} {h : KernelHistory}

/-- How many steps are left before the loop halts or ends, without interrupts: an event takes
at most seven, with the line that it may finish. -/
def Kernel.stepsLeft (k : Kernel) : ℕ :=
  8 * k.keyboard.queue.count +
    match k.point with
    | .halted | .done => 0
    | .halt | .poll => 1
    | .pending => 2
    | .ready => if k.shell.input.inputReady then 6 else 3
    | .running => 4
    | .execute => 5
    | .process => 7

/-- The loop halts with an empty queue alone. An interrupt between the test of the queue and
the `hlt` breaks this. -/
def Kernel.HaltsEmpty (k : Kernel) : Prop :=
  k.point = .halt ∨ k.point = .halted → k.keyboard.queue.count = 0

/-- The queue bounds the steps. -/
theorem Kernel.stepsLeft_le (hring : k.keyboard.queue.Ring) : k.stepsLeft ≤ 519 := by
  have hcount := hring.count_le
  have hsize : keyboardEventQueueSize = 64 := rfl
  unfold stepsLeft
  cases k.point with
  | ready =>
    simp only
    split <;> omega
  | running | pending | halt | halted | poll | process | execute | done =>
    simp only
    omega

/-- Before the prompt no line waits. -/
theorem KernelInv.not_ready (hinv : KernelInv h k) {p : ShellPoint} (hp : k.point = p)
    (hne : p ≠ .ready ∧ p ≠ .execute) : k.shell.input.inputReady = false := by
  obtain ⟨seen, -, hedit | hsub⟩ := hinv.follows
  · exact hedit.ready
  · exact (hsub.absurd hp hne).elim

/-- **A step comes nearer to the halt**, and without interrupts the halt is one with an empty
queue. -/
theorem KernelInv.step_stepsLeft (hinv : KernelInv h k) (tier : Tier) (clzZero : ℤ)
    (hring : k.keyboard.queue.Ring) (hempty : k.HaltsEmpty) (hhalted : k.point ≠ .halted)
    (hdone : k.point ≠ .done) :
    (k.step tier clzZero).2.stepsLeft < k.stepsLeft ∧ (k.step tier clzZero).2.HaltsEmpty := by
  unfold Kernel.stepsLeft Kernel.HaltsEmpty Kernel.step
  cases hp : k.point with
  | running =>
    have hready := hinv.not_ready hp (by decide)
    simp only
    split
    · have hsame : (k.shell.send tier clzZero [.string (ascii "my_OS:> ")]).input.inputReady
          = false := (congrArg Input.inputReady (Shell.send_input _ _)).trans hready
      simp only [hsame]
      exact ⟨by simp, by simp⟩
    · exact ⟨by simp, by simp⟩
  | ready =>
    cases hready : k.shell.input.inputReady with
    | true => exact ⟨by simp, by simp⟩
    | false => exact ⟨by simp, by simp⟩
  | pending =>
    -- without an event the loop is about to halt, over an empty queue
    by_cases hnone : k.keyboard.hasPendingEvent = 0
    · have hcount : k.keyboard.queue.count = 0 := hnone
      exact ⟨by simp [hnone], by simp [hnone, hcount]⟩
    · exact ⟨by simp [hnone], by simp [hnone]⟩
  | halt =>
    have hcount : k.keyboard.queue.count = 0 := hempty (.inl hp)
    exact ⟨by simp, by simp [hcount]⟩
  | poll =>
    -- the poll takes an event away, which pays for its processing
    have hsome : k.keyboard.queue.count ≠ 0 := hinv.pollable hp
    have htake := KeyboardEventQueue.take_count hring hsome
    simp only [Keyboard.pollInto_of_pending hsome]
    exact ⟨by omega, by simp⟩
  | process =>
    refine ⟨?_, by simp⟩
    simp only
    split <;> omega
  | execute => exact ⟨by simp, by simp⟩
  | halted => exact absurd hp hhalted
  | done => exact absurd hp hdone

/-- Steps alone lead to the halt, or to the end. -/
theorem steps_to_halt (hboot : k₀.Booted) (hrun : (kernelMachine tier clzZero).Run k₀ h k)
    (hempty : k.HaltsEmpty) :
    ∃ n ≤ k.stepsLeft,
      (kernelMachine tier clzZero).EnabledAlong k (List.replicate n .step) ∧
      let k' := ((kernelMachine tier clzZero).exec k (List.replicate n .step)).2
      (k'.point = .done ∨ k'.point = .halted) ∧ k'.HaltsEmpty := by
  generalize hbound : k.stepsLeft = bound
  -- on the rank, which falls with each step
  induction bound using Nat.strong_induction_on generalizing h k with
  | h bound ih =>
    by_cases hstop : k.point = .done ∨ k.point = .halted
    · exact ⟨0, Nat.zero_le _, trivial, hstop, hempty⟩
    · have hen : k.point ≠ .halted ∧ k.point ≠ .done :=
        ⟨fun heq => hstop (.inr heq), fun heq => hstop (.inl heq)⟩
      obtain ⟨hless, hempty'⟩ := (kernelInv_of_run hboot hrun).step_stepsLeft tier clzZero
        (queueInv_of_boot hboot hrun).ring hempty hen.1 hen.2
      have hnext := Machine.Run.snoc (m := kernelMachine tier clzZero) KernelMove.step hrun hen
      obtain ⟨n, hn, hsteps, hend⟩ := ih _ (hbound ▸ hless) hnext hempty' rfl
      exact ⟨n + 1, Nat.lt_of_le_of_lt hn (hbound ▸ hless), ⟨hen, hsteps⟩, hend⟩

/-- A move that brings a key. -/
def KernelMove.isKey : KernelMove → Bool
  | .keyboardInterrupt _ => true
  | .timerInterrupt | .step => false

theorem committedKeys_of_noKey {moves : KernelHistory}
    (hmoves : ∀ e ∈ moves, e.1.isKey = false) : committedKeys moves = [] := by
  refine List.filterMap_eq_nil_iff.mpr fun ⟨move, effect⟩ he => ?_
  cases move with
  | keyboardInterrupt ports => exact absurd (hmoves _ he) Bool.true_eq_false.mp
  | timerInterrupt | step => cases effect <;> rfl

/-- A history that ends at a halt with an empty queue has executed all that was typed. -/
theorem executed_at_halt (hboot : k₀.Booted) (hrun : (kernelMachine tier clzZero).Run k₀ h k)
    (hhalted : k.point = .halted) (hcount : k.keyboard.queue.count = 0) :
    (executedLines h).map Prod.fst = (Repl.run (committedKeys h)).lines ∧
      k.shell.input.line = (Repl.run (committedKeys h)).line := by
  have hinv := kernelInv_of_run hboot hrun
  have hconserved := (queueInv_of_boot hboot hrun).conserved
  rw [committedEvents_queueMove, polledEvents_queueMove,
    List.eq_nil_of_length_eq_zero (KeyboardEventQueue.length_contents.trans hcount),
    List.append_nil] at hconserved
  obtain ⟨seen, hseen, hedit | hsub⟩ := hinv.follows
  · unfold Kernel.inFlight at hseen
    rw [if_neg (by rw [hhalted]; decide), List.append_nil] at hseen
    rw [hconserved, hseen]
    exact ⟨hedit.lines_eq.symm, hedit.line_eq⟩
  · exact (hsub.absurd hhalted (by decide)).elim

/-- Moves without a key that end at such a halt have executed all that was typed before them. -/
theorem executed_after {moves : List KernelMove} (hboot : k₀.Booted)
    (hrun : (kernelMachine tier clzZero).Run k₀ h k)
    (hen : (kernelMachine tier clzZero).EnabledAlong k moves)
    (hmoves : ∀ move ∈ moves, move.isKey = false)
    (hend : let k' := ((kernelMachine tier clzZero).exec k moves).2
      (k'.point = .done ∨ k'.point = .halted) ∧ k'.HaltsEmpty) :
    let r := (kernelMachine tier clzZero).exec k moves
    r.2.point = .done ∨ r.2.point = .halted ∧
      (executedLines (h ++ r.1)).map Prod.fst = (Repl.run (committedKeys h)).lines ∧
      r.2.shell.input.line = (Repl.run (committedKeys h)).line := by
  intro r
  obtain ⟨hdone | hhalted, hempty⟩ := hend
  · exact .inl hdone
  · have hall := executed_at_halt hboot (hrun.append hen.run) hhalted (hempty (.inr hhalted))
    -- nothing was typed in the meantime
    have hnone : committedKeys r.1 = [] := by
      refine committedKeys_of_noKey fun e he => hmoves e.1 ?_
      rw [← Machine.exec_map_fst (kernelMachine tier clzZero) k moves]
      exact List.mem_map_of_mem he
    have hsame : committedKeys (h ++ r.1) = committedKeys h := by
      unfold committedKeys at hnone ⊢
      rw [List.filterMap_append, hnone, List.append_nil]
    rw [hsame] at hall
    exact .inr ⟨hhalted, hall⟩

/-- The tick of the timer ends a halt with events in the queue, and the loop goes on. -/
theorem wake_to_halt (hboot : k₀.Booted) (hrun : (kernelMachine tier clzZero).Run k₀ h k)
    (hhalted : k.point = .halted) :
    ∃ n ≤ 519,
      (kernelMachine tier clzZero).EnabledAlong k (.timerInterrupt :: List.replicate n .step) ∧
      let k' := ((kernelMachine tier clzZero).exec k
        (.timerInterrupt :: List.replicate n .step)).2
      (k'.point = .done ∨ k'.point = .halted) ∧ k'.HaltsEmpty := by
  have hnext := Machine.Run.snoc (m := kernelMachine tier clzZero) KernelMove.timerInterrupt hrun
    trivial
  have hpending : ((kernelMachine tier clzZero).step k .timerInterrupt).2.point = .pending :=
    if_pos hhalted
  obtain ⟨n, hn, hsteps, hend⟩ := steps_to_halt hboot hnext (by
    intro hhalt
    rw [hpending] at hhalt
    exact absurd hhalt (by decide))
  refine ⟨n, hn.trans ?_, ⟨trivial, hsteps⟩, hend⟩
  exact Kernel.stepsLeft_le (queueInv_of_boot hboot hnext).ring

/-- **No key is left behind.** From every reachable state at most 520 steps and one tick of the
timer lead to the end of the loop or to a halt at which everything typed so far took effect.
The tick is for an event that came between the test of the queue and the `hlt`. -/
theorem shell_catches_up (hboot : k₀.Booted)
    (hrun : (kernelMachine tier clzZero).Run k₀ h k) :
    ∃ moves : List KernelMove, (∃ a b, a + b ≤ 520 ∧
        (moves = List.replicate a .step ∨
          moves = List.replicate a .step ++ .timerInterrupt :: List.replicate b .step)) ∧
      (kernelMachine tier clzZero).EnabledAlong k moves ∧
        let r := (kernelMachine tier clzZero).exec k moves
        r.2.point = .done ∨ r.2.point = .halted ∧
          (executedLines (h ++ r.1)).map Prod.fst = (Repl.run (committedKeys h)).lines ∧
          r.2.shell.input.line = (Repl.run (committedKeys h)).line := by
  by_cases hempty : k.HaltsEmpty
  -- the steps alone lead to a halt, with nothing in the queue
  · obtain ⟨n, hn, hen, hend⟩ := steps_to_halt hboot hrun hempty
    have hle := Kernel.stepsLeft_le (queueInv_of_boot hboot hrun).ring
    exact ⟨_, ⟨n, 0, by omega, .inl rfl⟩, hen,
      executed_after hboot hrun hen (by simp [KernelMove.isKey]) hend⟩
  · -- the loop is about to halt, or halted, over an event
    have hpoint : k.point = .halt ∨ k.point = .halted := by
      by_contra hother
      exact hempty fun hhalt => absurd hhalt hother
    rcases hpoint with hhalt | hhalted
    -- the `hlt` is still to come, and the tick after it wakes the loop
    · have hen : k.point ≠ .halted ∧ k.point ≠ .done := by
        rw [hhalt]
        decide
      have hnext := Machine.Run.snoc (m := kernelMachine tier clzZero) KernelMove.step hrun hen
      have hhalted : ((kernelMachine tier clzZero).step k .step).2.point = .halted := by
        change (k.step tier clzZero).2.point = _
        unfold Kernel.step
        rw [hhalt]
      obtain ⟨n, hn, hsteps, hend⟩ := wake_to_halt hboot hnext hhalted
      have hen' : (kernelMachine tier clzZero).EnabledAlong k
          (List.replicate 1 .step ++ .timerInterrupt :: List.replicate n .step) := ⟨hen, hsteps⟩
      exact ⟨_, ⟨1, n, by omega, .inr rfl⟩, hen',
        executed_after hboot hrun hen' (by simp [KernelMove.isKey]) hend⟩
    -- it has halted already
    · obtain ⟨n, hn, hsteps, hend⟩ := wake_to_halt hboot hrun hhalted
      have hen' : (kernelMachine tier clzZero).EnabledAlong k
          (List.replicate 0 .step ++ .timerInterrupt :: List.replicate n .step) := hsteps
      exact ⟨_, ⟨0, n, by omega, .inr rfl⟩, hen',
        executed_after hboot hrun hen' (by simp [KernelMove.isKey]) hend⟩

/-- Enter was in flight; at the halt the line is executed. -/
theorem shell_catches_up_moves :
    let r := (kernelMachine .gpr 0).exec Kernel.boot Kernel.moves
    ∃ moves : List KernelMove,
      let r' := (kernelMachine .gpr 0).exec r.2 moves
      r'.2.point = .done ∨ r'.2.point = .halted ∧
        (executedLines (r.1 ++ r'.1)).map Prod.fst = (Repl.run (committedKeys r.1)).lines ∧
        r'.2.shell.input.line = (Repl.run (committedKeys r.1)).line := by
  intro r
  obtain ⟨moves, -, -, hall⟩ := shell_catches_up Kernel.boot_booted Kernel.moves_enabled.run
  exact ⟨moves, hall⟩

end Kernel

end BareMetal
