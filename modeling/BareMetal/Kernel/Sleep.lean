import BareMetal.Framework.Machine
import BareMetal.Kernel.Timer

/-!
# Sleeping against the timer

`sleep_ticks` tests the count and then sets the interrupt flag and halts. The flag is set from
its first pass on, so that a tick may come between the test and the `hlt`, which then sleeps
over it. Here the loop is taken apart into its instructions, and interrupts come between any
two of them that the flag allows (`sleepMachine`).

A sleep never ends early, it always halts with interrupts on, and what the race costs is one
wake-up: when the ticks have passed, six more instructions and one interrupt end the sleep
(`sleep_on_time`). For that the count must not come to the start again: a sleep of `UINT32_MAX`
ticks that sleeps over the last one has the whole range of the counter before it.
-/

namespace BareMetal

open Framework

/-- Where `sleep_ticks` is, and what it has in its registers. -/
inductive SleepPoint where
  /-- `was_enabled{read_eflags() & interrupt_flag}`. -/
  | readFlags
  /-- The load of `g_timer_ticks`, and the comparison of what it loaded. -/
  | load
  | compare (snapshot : ℕ)
  /-- `sti; hlt`. -/
  | sti
  | hlt
  | asleep
  /-- `if(!was_enabled) cli`. -/
  | restore
  | done
  deriving DecidableEq

/-- The processor in `sleep_ticks`. `shadow` says that the flag was set by the last instruction:
interrupts wait for the end of the next one. -/
structure Sleeper where
  timer : Timer
  flag : Bool
  shadow : Bool
  point : SleepPoint
  start : ℕ
  ticks : ℕ
  wasEnabled : Bool

/-- `sleep_ticks`, when it has loaded `start`. -/
def Sleeper.enter (t : Timer) (flag : Bool) (ticks : ℕ) : Sleeper :=
  ⟨t, flag, false, .readFlags, t.ticks, ticks, false⟩

/-- One instruction of the sleeper, or an interrupt. -/
inductive SleepMove where
  | step
  | timerInterrupt
  | otherInterrupt
  deriving DecidableEq

namespace Sleeper

variable (s : Sleeper)

/-- One instruction. -/
def instruction : Sleeper :=
  match s.point with
  | .readFlags => { s with wasEnabled := s.flag, point := .load }
  | .load => { s with point := .compare s.timer.ticks }
  | .compare snapshot =>
    if usizeSub snapshot s.start < s.ticks then { s with point := .sti }
    else { s with point := .restore }
  | .sti => { s with flag := true, shadow := !s.flag, point := .hlt }
  | .hlt => { s with shadow := false, point := .asleep }
  | .restore => { s with flag := s.flag && s.wasEnabled, point := .done }
  | .asleep | .done => s

/-- The return of a handler: it ends a `hlt`. -/
def wake : Sleeper := { s with point := if s.point = .asleep then .load else s.point }

/-- An interrupt is accepted. -/
def Accepts : Prop := s.flag = true ∧ s.shadow = false

instance : Decidable s.Accepts := inferInstanceAs (Decidable (_ ∧ _))

/-- The processor has an instruction to execute. -/
def Executes : Prop := s.point ≠ .asleep ∧ s.point ≠ .done

instance : Decidable s.Executes := inferInstanceAs (Decidable (_ ∧ _))

end Sleeper

/-- `sleep_ticks` and the interrupts. A move answers whether it ended a `hlt`. -/
def sleepMachine : Machine Sleeper SleepMove Bool where
  step s
    | .step => (false, s.instruction)
    | .timerInterrupt =>
      (s.point = .asleep, { s with timer := s.timer.handleInterrupt }.wake)
    | .otherInterrupt => (s.point = .asleep, s.wake)
  enabled s
    | .step => s.Executes
    | .timerInterrupt | .otherInterrupt => s.Accepts

instance : ∀ s l, Decidable (sleepMachine.enabled s l)
  | s, .step => inferInstanceAs (Decidable s.Executes)
  | s, .timerInterrupt | s, .otherInterrupt => inferInstanceAs (Decidable s.Accepts)

/-! ### The history of a sleep -/

/-- The ticks since the load of `start`. -/
def elapsedTicks (h : List (SleepMove × Bool)) : ℕ := (h.map Prod.fst).count .timerInterrupt

/-- The instructions of the sleeper. -/
def sleepSteps (h : List (SleepMove × Bool)) : ℕ := (h.map Prod.fst).count .step

/-- How often a `hlt` ended. -/
def sleepWakes (h : List (SleepMove × Bool)) : ℕ := (h.map Prod.snd).count true

variable {t : Timer} {flag : Bool} {ticks : ℕ} {h : List (SleepMove × Bool)} {s : Sleeper}

theorem elapsedTicks_append (h h' : List (SleepMove × Bool)) :
    elapsedTicks (h ++ h') = elapsedTicks h + elapsedTicks h' := by
  unfold elapsedTicks
  rw [List.map_append, List.count_append]

theorem sleepSteps_append (h h' : List (SleepMove × Bool)) :
    sleepSteps (h ++ h') = sleepSteps h + sleepSteps h' := by
  unfold sleepSteps
  rw [List.map_append, List.count_append]

theorem sleepWakes_append (h h' : List (SleepMove × Bool)) :
    sleepWakes (h ++ h') = sleepWakes h + sleepWakes h' := by
  unfold sleepWakes
  rw [List.map_append, List.count_append]

/-- The move that ends a `hlt`. -/
theorem sleepWakes_singleton (l : SleepMove) (p : Prop) [Decidable p] :
    sleepWakes [(l, decide p)] = if p then 1 else 0 := by
  by_cases hp : p
  · rw [if_pos hp, decide_eq_true hp]
    rfl
  · rw [if_neg hp, decide_eq_false hp]
    rfl

/-! ### What holds along a sleep -/

/-- What `sleep_ticks` knows at a point: `elapsed` ticks have come, and a snapshot is of a time
before. -/
def Sleeper.AtPoint (t : Timer) (flag : Bool) (ticks elapsed : ℕ) (s : Sleeper) : Prop :=
  match s.point with
  | .readFlags => s.flag = flag ∧ s.shadow = false
  | .load | .sti => s.wasEnabled = flag ∧ (flag = true → s.flag = true) ∧ s.shadow = false
  | .compare snapshot => s.wasEnabled = flag ∧ (flag = true → s.flag = true) ∧
      s.shadow = false ∧ ∃ n ≤ elapsed, snapshot = usize (t.ticks + n)
  | .hlt => s.wasEnabled = flag ∧ s.flag = true
  | .asleep => s.wasEnabled = flag ∧ s.Accepts
  | .restore => s.wasEnabled = flag ∧ (flag = true → s.flag = true) ∧ s.shadow = false ∧
      ticks ≤ elapsed
  | .done => s.flag = flag ∧ s.shadow = false ∧ ticks ≤ elapsed

/-- The invariant of a sleep. -/
structure SleepInv (t : Timer) (flag : Bool) (ticks : ℕ) (elapsed : ℕ) (s : Sleeper) : Prop where
  timer_eq : s.timer = { t with ticks := usize (t.ticks + elapsed) }
  start_eq : s.start = t.ticks
  ticks_eq : s.ticks = ticks
  atPoint : s.AtPoint t flag ticks elapsed

/-- What is known at a point stays true when more ticks come, if the flag and the shadow stay
and the point does too. -/
theorem Sleeper.AtPoint.mono {elapsed elapsed' : ℕ} {s' : Sleeper}
    (hs : s.AtPoint t flag ticks elapsed) (hle : elapsed ≤ elapsed') (hpoint : s'.point = s.point)
    (hflag : s'.flag = s.flag) (hshadow : s'.shadow = s.shadow)
    (hwas : s'.wasEnabled = s.wasEnabled) : s'.AtPoint t flag ticks elapsed' := by
  unfold AtPoint at hs ⊢
  unfold Accepts at hs ⊢
  rw [hpoint]
  rw [hflag, hshadow, hwas]
  -- only three points say something about the ticks, and each for all later ones
  cases hp : s.point with
  | compare snapshot =>
    rw [hp] at hs
    obtain ⟨h₁, h₂, h₃, n, hn, hsnapshot⟩ := hs
    exact ⟨h₁, h₂, h₃, n, hn.trans hle, hsnapshot⟩
  | restore =>
    rw [hp] at hs
    exact ⟨hs.1, hs.2.1, hs.2.2.1, hs.2.2.2.trans hle⟩
  | done =>
    rw [hp] at hs
    exact ⟨hs.1, hs.2.1, hs.2.2.trans hle⟩
  | readFlags | load | sti | hlt | asleep =>
    rw [hp] at hs
    exact hs

/-- The return of a handler. -/
theorem Sleeper.AtPoint.wake {elapsed : ℕ} (hs : s.AtPoint t flag ticks elapsed) :
    s.wake.AtPoint t flag ticks elapsed := by
  by_cases hasleep : s.point = .asleep
  · have hload : s.wake.point = .load := if_pos hasleep
    unfold AtPoint at hs ⊢
    rw [hasleep] at hs
    rw [hload]
    exact ⟨hs.1, fun _ => hs.2.1, hs.2.2⟩
  · exact hs.mono le_rfl (if_neg hasleep) rfl rfl rfl

namespace SleepInv

variable {elapsed : ℕ}

theorem enter (t : Timer) (flag : Bool) (ticks : ℕ) (ht : t.ticks < 2 ^ 32) :
    SleepInv t flag ticks 0 (Sleeper.enter t flag ticks) where
  timer_eq := by
    rw [Nat.add_zero, usize_of_lt ht]
    rfl
  start_eq := rfl
  ticks_eq := rfl
  atPoint := ⟨rfl, rfl⟩

/-- An instruction. At the comparison the difference to the start is a number of ticks that
have come, up to turns of the counter. -/
theorem instruction (hs : SleepInv t flag ticks elapsed s) :
    SleepInv t flag ticks elapsed s.instruction := by
  obtain ⟨htimer, hstart, hticks, hpoint⟩ := hs
  obtain ⟨timer, f, shadow, point, start, n, was⟩ := s
  dsimp only at htimer hstart hticks
  subst hstart hticks
  cases point with
  | readFlags => exact ⟨htimer, rfl, rfl, hpoint.1, fun hf => hpoint.1.trans hf, hpoint.2⟩
  | load =>
    -- the snapshot is that of the ticks so far
    refine ⟨htimer, rfl, rfl, hpoint.1, hpoint.2.1, hpoint.2.2, elapsed, le_rfl, ?_⟩
    rw [htimer]
  | compare snapshot =>
    -- ticks may have come since the snapshot, which was `m` ticks after the start
    obtain ⟨hwas, hf, hshadow, m, hm, hsnapshot⟩ := hpoint
    unfold Sleeper.instruction
    by_cases hlt : usizeSub snapshot t.ticks < n
    · simp only [hlt, if_true]
      exact ⟨htimer, rfl, rfl, hwas, hf, hshadow⟩
    · simp only [hlt, if_false]
      refine ⟨htimer, rfl, rfl, hwas, hf, hshadow, ?_⟩
      have hle : usizeSub snapshot t.ticks ≤ m := by
        rw [hsnapshot]
        unfold usizeSub usize
        omega
      omega
  | sti => exact ⟨htimer, rfl, rfl, hpoint.1, rfl⟩
  | hlt => exact ⟨htimer, rfl, rfl, hpoint.1, hpoint.2, rfl⟩
  | asleep => exact ⟨htimer, rfl, rfl, hpoint⟩
  | restore =>
    -- the flag is turned off unless it was on before
    obtain ⟨hwas, hf, hshadow, hle⟩ := hpoint
    refine ⟨htimer, rfl, rfl, ?_, hshadow, hle⟩
    change (f && was) = flag
    dsimp only at hwas hf
    subst hwas
    cases was with
    | true => rw [hf rfl, Bool.true_and]
    | false => rw [Bool.and_false]
  | done => exact ⟨htimer, rfl, rfl, hpoint⟩

/-- A tick. -/
theorem tick (hs : SleepInv t flag ticks elapsed s) :
    SleepInv t flag ticks (elapsed + 1) { s with timer := s.timer.handleInterrupt }.wake where
  timer_eq := by
    change s.timer.handleInterrupt = _
    rw [hs.timer_eq]
    unfold Timer.handleInterrupt usize
    simp only [Timer.mk.injEq, and_true]
    omega
  start_eq := hs.start_eq
  ticks_eq := hs.ticks_eq
  atPoint := (hs.atPoint.mono (Nat.le_succ _) rfl rfl rfl rfl).wake

theorem wake (hs : SleepInv t flag ticks elapsed s) : SleepInv t flag ticks elapsed s.wake :=
  ⟨hs.timer_eq, hs.start_eq, hs.ticks_eq, hs.atPoint.wake⟩

/-- A move keeps the invariant. -/
theorem move (hs : SleepInv t flag ticks elapsed s) (l : SleepMove) (woke : Bool) :
    SleepInv t flag ticks (elapsed + elapsedTicks [(l, woke)]) (sleepMachine.step s l).2 := by
  cases l with
  | step => exact hs.instruction
  | timerInterrupt => exact hs.tick
  | otherInterrupt => exact hs.wake

end SleepInv

/-- The invariant along a run. -/
theorem sleepInv_of_run (ht : t.ticks < 2 ^ 32)
    (hrun : sleepMachine.Run (Sleeper.enter t flag ticks) h s) :
    SleepInv t flag ticks (elapsedTicks h) s := by
  refine hrun.invariant (P := fun h s => SleepInv t flag ticks (elapsedTicks h) s)
    (.enter t flag ticks ht) ?_
  intro h s l hs _
  rw [elapsedTicks_append]
  exact hs.move l _

/-! ### The end of a sleep -/

namespace Sleeper

variable (s : Sleeper)

/-- The instructions that are left once the ticks have passed. A comparison with a snapshot
from before goes once more through the `hlt`. -/
def stepsLeft : ℕ :=
  match s.point with
  | .compare snapshot => if usizeSub snapshot s.start < s.ticks then 6 else 2
  | .sti => 5
  | .readFlags | .hlt => 4
  | .asleep | .load => 3
  | .restore => 1
  | .done => 0

/-- The wake-ups that are left then. -/
def wakesLeft : ℕ :=
  match s.point with
  | .compare snapshot => if usizeSub snapshot s.start < s.ticks then 1 else 0
  | .sti | .hlt | .asleep => 1
  | .readFlags | .load | .restore | .done => 0

variable {s}

theorem stepsLeft_le : s.stepsLeft ≤ 6 := by
  unfold stepsLeft
  cases s.point with
  | compare snapshot =>
    dsimp only
    split <;> decide
  | _ => dsimp only; decide

theorem wakesLeft_le : s.wakesLeft ≤ 1 := by
  unfold wakesLeft
  cases s.point with
  | compare snapshot =>
    dsimp only
    split <;> decide
  | _ => dsimp only; decide

/-- A handler, whatever it does to the timer, uses up a wake-up if it ends a `hlt`, and no
instruction. -/
theorem left_wake (timer : Timer) : ({ s with timer := timer } : Sleeper).wake.stepsLeft
      = s.stepsLeft ∧
    ({ s with timer := timer } : Sleeper).wake.wakesLeft
      + (if s.point = .asleep then 1 else 0) = s.wakesLeft := by
  by_cases hasleep : s.point = .asleep
  · have hload : ({ s with timer := timer } : Sleeper).wake.point = .load := if_pos hasleep
    unfold stepsLeft wakesLeft
    rw [hload, hasleep]
    exact ⟨rfl, rfl⟩
  · have hwake : ({ s with timer := timer } : Sleeper).wake = { s with timer := timer } := by
      unfold wake
      rw [if_neg hasleep]
    rw [hwake, if_neg hasleep]
    exact ⟨rfl, rfl⟩

end Sleeper

/-- Once the ticks have passed, an instruction uses up one of those left: a fresh snapshot
passes the test. -/
theorem SleepInv.left_instruction {elapsed : ℕ} (hs : SleepInv t flag ticks elapsed s)
    (ht : t.ticks < 2 ^ 32) (hle : ticks ≤ elapsed) (hlt : elapsed < 2 ^ 32)
    (hexec : s.Executes) :
    s.instruction.stepsLeft + 1 ≤ s.stepsLeft ∧ s.instruction.wakesLeft ≤ s.wakesLeft := by
  obtain ⟨htimer, hstart, hticks, hpoint⟩ := hs
  obtain ⟨timer, f, shadow, point, start, n, was⟩ := s
  dsimp only at htimer hstart hticks
  subst hstart hticks
  cases point with
  | load =>
    -- a snapshot taken now is late enough, so the comparison is the last one
    have hfresh : ¬ usizeSub timer.ticks t.ticks < n := by
      rw [htimer]
      unfold usizeSub usize
      dsimp only
      omega
    refine ⟨?_, ?_⟩
    · change (if usizeSub timer.ticks t.ticks < n then 6 else 2) + 1 ≤ 3
      rw [if_neg hfresh]
    · change (if usizeSub timer.ticks t.ticks < n then 1 else 0) ≤ 0
      rw [if_neg hfresh]
  | compare snapshot =>
    -- an old one may lead to one more `hlt`, which the rank has counted
    by_cases hstale : usizeSub snapshot t.ticks < n
    · have hnext : Sleeper.instruction ⟨timer, f, shadow, .compare snapshot, t.ticks, n, was⟩
          = ⟨timer, f, shadow, .sti, t.ticks, n, was⟩ := if_pos hstale
      rw [hnext]
      exact ⟨(if_pos hstale).ge, (if_pos hstale).ge⟩
    · have hnext : Sleeper.instruction ⟨timer, f, shadow, .compare snapshot, t.ticks, n, was⟩
          = ⟨timer, f, shadow, .restore, t.ticks, n, was⟩ := if_neg hstale
      rw [hnext]
      exact ⟨(if_neg hstale).ge, (if_neg hstale).ge⟩
  | asleep => exact absurd rfl hexec.1
  | done => exact absurd rfl hexec.2
  | readFlags | sti | hlt | restore => exact ⟨le_rfl, le_rfl⟩

/-- Once the ticks have passed, a move uses up what it is of those left. -/
theorem SleepInv.left_move {elapsed : ℕ} (hs : SleepInv t flag ticks elapsed s)
    (ht : t.ticks < 2 ^ 32) (hle : ticks ≤ elapsed) (hlt : elapsed < 2 ^ 32) (l : SleepMove)
    (hen : sleepMachine.enabled s l) :
    let r := sleepMachine.step s l
    r.2.stepsLeft + sleepSteps [(l, r.1)] ≤ s.stepsLeft ∧
      r.2.wakesLeft + sleepWakes [(l, r.1)] ≤ s.wakesLeft := by
  cases l with
  | step => exact hs.left_instruction ht hle hlt hen
  | timerInterrupt =>
    obtain ⟨hstep, hwake⟩ := s.left_wake s.timer.handleInterrupt
    rw [← sleepWakes_singleton .timerInterrupt] at hwake
    exact ⟨hstep.le, hwake.le⟩
  | otherInterrupt =>
    obtain ⟨hstep, hwake⟩ := s.left_wake s.timer
    rw [← sleepWakes_singleton .otherInterrupt] at hwake
    exact ⟨hstep.le, hwake.le⟩

/-- Once the ticks have passed, what is left bounds every continuation. -/
theorem SleepInv.left_of_run {elapsed : ℕ} {s₁ : Sleeper} (hs : SleepInv t flag ticks elapsed s₁)
    (ht : t.ticks < 2 ^ 32) (hle : ticks ≤ elapsed) (hrun : sleepMachine.Run s₁ h s) :
    SleepInv t flag ticks (elapsed + elapsedTicks h) s ∧
      (elapsed + elapsedTicks h < 2 ^ 32 →
        s.stepsLeft + sleepSteps h ≤ s₁.stepsLeft ∧
          s.wakesLeft + sleepWakes h ≤ s₁.wakesLeft) := by
  refine hrun.invariant (P := fun h s => SleepInv t flag ticks (elapsed + elapsedTicks h) s ∧
      (elapsed + elapsedTicks h < 2 ^ 32 →
        s.stepsLeft + sleepSteps h ≤ s₁.stepsLeft ∧
          s.wakesLeft + sleepWakes h ≤ s₁.wakesLeft)) ?_ ?_
  -- the bounds add up along the run
  · exact ⟨hs, fun _ => ⟨le_rfl, le_rfl⟩⟩
  intro h s l ⟨hinv, hbound⟩ hen
  rw [elapsedTicks_append, ← Nat.add_assoc]
  refine ⟨hinv.move l _, fun hlt => ?_⟩
  obtain ⟨hsteps, hwakes⟩ := hbound (by omega)
  obtain ⟨hstep, hwake⟩ := hinv.left_move ht (by omega) (by omega) l hen
  rw [sleepSteps_append, sleepWakes_append]
  omega

/-- **A sleep is on time.** Wherever interrupts come in `sleep_ticks`, the counter has the ticks
that came, and the sleep ends only when they are enough, with the flag as it found it. Until
then it has an instruction to execute, or it halts with interrupts on. Once the ticks have
passed, six instructions and one wake-up are left of it, unless the counter goes round first. -/
theorem sleep_on_time (ht : t.ticks < 2 ^ 32)
    (hrun : sleepMachine.Run (Sleeper.enter t flag ticks) h s) :
    s.timer = { t with ticks := usize (t.ticks + elapsedTicks h) } ∧
      (s.point = .done → ticks ≤ elapsedTicks h ∧ s.flag = flag) ∧
      (s.point = .done ∨ s.Executes ∨ s.point = .asleep ∧ s.Accepts) ∧
      ∀ h₁ h₂, h = h₁ ++ h₂ → ticks ≤ elapsedTicks h₁ → elapsedTicks h < 2 ^ 32 →
        sleepSteps h₂ ≤ 6 ∧ sleepWakes h₂ ≤ 1 := by
  have hinv := sleepInv_of_run ht hrun
  have hpoint := hinv.atPoint
  unfold Sleeper.AtPoint at hpoint
  refine ⟨hinv.timer_eq, ?_, ?_, ?_⟩
  · intro hdone
    rw [hdone] at hpoint
    exact ⟨hpoint.2.2, hpoint.1⟩
  -- the sleep is never stuck: there is an instruction to execute, or a tick wakes it
  · by_cases hdone : s.point = .done
    · exact .inl hdone
    by_cases hasleep : s.point = .asleep
    · rw [hasleep] at hpoint
      exact .inr (.inr ⟨hasleep, hpoint.2⟩)
    · exact .inr (.inl ⟨hasleep, hdone⟩)
  -- the rank at the cut bounds what comes after it
  · rintro h₁ h₂ rfl hle hlt
    obtain ⟨s₁, hrun₁, hrun₂⟩ := hrun.append_inv
    rw [elapsedTicks_append] at hlt
    obtain ⟨-, hleft⟩ := (sleepInv_of_run ht hrun₁).left_of_run ht hle hrun₂
    obtain ⟨hsteps, hwakes⟩ := hleft hlt
    have hsteps_le := s₁.stepsLeft_le
    have hwakes_le := s₁.wakesLeft_le
    omega

/-- A sleep of two ticks from just before the wrap of the counter. The second tick comes between
the test and the `hlt`, and a key ends that. -/
def sleepRace : List SleepMove :=
  [.step, .step, .step, .step, .step, .timerInterrupt, .step, .step, .timerInterrupt, .step,
    .step, .otherInterrupt, .step, .step, .step]

theorem sleepRace_enabled :
    sleepMachine.EnabledAlong (Sleeper.enter ⟨2 ^ 32 - 1, 100⟩ false 2) sleepRace := by
  decide +kernel

/-- It ends when both have come, with the flag off again. -/
theorem sleep_on_time_race :
    let r := sleepMachine.exec (Sleeper.enter ⟨2 ^ 32 - 1, 100⟩ false 2) sleepRace
    r.2.point = .done ∧ 2 ≤ elapsedTicks r.1 ∧ r.2.flag = false := by
  have hdone : (sleepMachine.exec (Sleeper.enter ⟨2 ^ 32 - 1, 100⟩ false 2)
    sleepRace).2.point = .done := by decide +kernel
  obtain ⟨-, hend, -⟩ := sleep_on_time (by decide) sleepRace_enabled.run
  exact ⟨hdone, hend hdone⟩

end BareMetal
