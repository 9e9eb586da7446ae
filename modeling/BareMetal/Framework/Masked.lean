import BareMetal.Framework.Machine
import Mathlib.Logic.Function.Iterate

/-!
# Critical sections with interrupts masked

One processor runs a foreground program and, between any two of its instructions, an
interrupt handler. The foreground protects what it shares with the handler by a guard: it
reads the interrupt flag, clears it, does its accesses one by one, and sets the flag again
if it was set. The handler itself runs with the flag clear, so it is one step.

`MaskedSystem.machine` is the processor at this grain: an interrupt may come before every
access, as long as the flag is set. `MaskedSystem.atomic` has a whole call in one step.

* `MaskedSystem.run_atomic`: what the calls return and what the handler answers is a run of
  the atomic system, for every placement of the interrupts.
* The flag is as the foreground last set it whenever no call is under way, and a call that
  is under way gives it back within a bounded number of ticks.
-/

namespace Framework

/-- The body of a critical section: an access to the shared state leads to the next local
state or to the answer. -/
structure CriticalSection (Shared Local Answer : Type) where
  start : Local
  access : Shared → Local → Shared × (Local ⊕ Answer)

/-- The rest of the section without interruption; `fuel` bounds the number of accesses. -/
def CriticalSection.perform {Shared Local Answer : Type}
    (body : CriticalSection Shared Local Answer) :
    (fuel : ℕ) → Shared → Local → Option (Answer × Shared)
  | 0, _, _ => none
  | fuel + 1, s, l =>
    match body.access s l with
    | (s', .inl l') => body.perform fuel s' l'
    | (s', .inr answer) => some (answer, s')

section Perform

variable {Shared Local Answer : Type} {body : CriticalSection Shared Local Answer} {fuel : ℕ}
  {s s' : Shared} {l l' : Local}

theorem CriticalSection.perform_inl (h : body.access s l = (s', .inl l')) :
    body.perform (fuel + 1) s l = body.perform fuel s' l' := by
  rw [perform, h]

theorem CriticalSection.perform_inr {answer : Answer} (h : body.access s l = (s', .inr answer)) :
    body.perform (fuel + 1) s l = some (answer, s') := by
  rw [perform, h]

end Perform

/-- Where the foreground stands in a guarded call. -/
inductive GuardPhase (Call Local Answer : Type) where
  | outside
  /-- The flag is about to be read. -/
  | saving (call : Call)
  /-- The flag is about to be cleared. -/
  | masking (call : Call) (wasEnabled : Bool)
  | inside (call : Call) (wasEnabled : Bool) (l : Local)
  /-- The flag is about to be restored. -/
  | leaving (call : Call) (wasEnabled : Bool) (answer : Answer)

/-- The shared state, the interrupt flag, and where the foreground stands. -/
structure Masked (Shared Call Local Answer : Type) where
  shared : Shared
  flag : Bool
  phase : GuardPhase Call Local Answer

/-- The moves of the processor. -/
inductive MaskedMove (Irq Call : Type) where
  | interrupt (irq : Irq)
  /-- The foreground sets or clears the flag. -/
  | setFlag (on : Bool)
  | call (call : Call)
  /-- The call under way goes on by one instruction. -/
  | tick

/-- What a move shows. -/
inductive MaskedEffect (IrqAnswer Call Answer : Type) where
  | handled (answer : IrqAnswer)
  | returned (call : Call) (answer : Answer)
  | silent

/-- A handler and guarded calls on one shared state. -/
structure MaskedSystem (Shared Irq IrqAnswer Call Local Answer : Type) where
  handle : Irq → Shared → IrqAnswer × Shared
  body : Call → CriticalSection Shared Local Answer

namespace MaskedSystem

variable {Shared Irq IrqAnswer Call Local Answer : Type}
variable (sys : MaskedSystem Shared Irq IrqAnswer Call Local Answer)

/-- One instruction of the call under way. -/
def tick (p : Masked Shared Call Local Answer) :
    MaskedEffect IrqAnswer Call Answer × Masked Shared Call Local Answer :=
  match p.phase with
  | .outside => (.silent, p)
  | .saving call => (.silent, { p with phase := .masking call p.flag })
  | .masking call wasEnabled =>
    (.silent, { p with flag := false, phase := .inside call wasEnabled (sys.body call).start })
  | .inside call wasEnabled l =>
    match (sys.body call).access p.shared l with
    | (s, .inl l') => (.silent, { p with shared := s, phase := .inside call wasEnabled l' })
    | (s, .inr answer) =>
      (.silent, { p with shared := s, phase := .leaving call wasEnabled answer })
  | .leaving call wasEnabled answer =>
    (.returned call answer,
      { p with flag := if wasEnabled then true else p.flag, phase := .outside })

/-- The processor. An interrupt is taken while the flag is set, before any instruction. -/
def machine : Machine (Masked Shared Call Local Answer) (MaskedMove Irq Call)
    (MaskedEffect IrqAnswer Call Answer) where
  step p
    | .interrupt irq =>
      let r := sys.handle irq p.shared
      (.handled r.1, { p with shared := r.2 })
    | .setFlag on => (.silent, { p with flag := on })
    | .call call => (.silent, { p with phase := .saving call })
    | .tick => sys.tick p
  enabled p
    | .interrupt _ => p.flag = true
    | .setFlag _ | .call _ => p.phase = .outside
    | .tick => p.phase ≠ .outside

/-- The system whose calls are single steps. -/
def atomic (whole : Call → Shared → Answer × Shared) :
    Machine Shared (Irq ⊕ Call) (IrqAnswer ⊕ Answer) where
  step s
    | .inl irq => let r := sys.handle irq s; (.inl r.1, r.2)
    | .inr call => let r := whole call s; (.inr r.1, r.2)

/-- What a move shows of the atomic system. -/
def observe (e : MaskedMove Irq Call × MaskedEffect IrqAnswer Call Answer) :
    Option ((Irq ⊕ Call) × (IrqAnswer ⊕ Answer)) :=
  match e.2, e.1 with
  | .handled answer, .interrupt irq => some (.inl irq, .inl answer)
  | .returned call answer, _ => some (.inr call, .inr answer)
  | _, _ => none

/-- The flag as the foreground left it. -/
def flagAfter (on : Bool) (h : List (MaskedMove Irq Call × MaskedEffect IrqAnswer Call Answer)) :
    Bool :=
  h.foldl (fun on e => match e.1 with | .setFlag on' => on' | _ => on) on

/-! ### The refinement -/

/-- The processor `p` stands for the atomic state `t`, in which the call under way has not
happened yet; `on` is the flag as the foreground left it. -/
def Stands (whole : Call → Shared → Answer × Shared) (bound : ℕ) (on : Bool)
    (p : Masked Shared Call Local Answer) (t : Shared) : Prop :=
  match p.phase with
  | .outside | .saving _ => p.shared = t ∧ p.flag = on
  | .masking _ wasEnabled => p.shared = t ∧ p.flag = on ∧ wasEnabled = on
  -- no interrupt comes in between: the rest of the body is the rest of the whole call
  | .inside call wasEnabled l => p.flag = false ∧ wasEnabled = on ∧
      ∃ n ≤ bound, (sys.body call).perform n p.shared l = some (whole call t)
  | .leaving call wasEnabled answer => p.flag = false ∧ wasEnabled = on ∧
      (answer, p.shared) = whole call t

section Refinement

variable {sys} {whole : Call → Shared → Answer × Shared} {bound : ℕ} {on : Bool}
  {p : Masked Shared Call Local Answer} {t : Shared}

/-- The last instruction of a call is the step of the atomic system; the others are silent. -/
theorem tick_stands
    (hwhole : ∀ call s, (sys.body call).perform bound s (sys.body call).start
      = some (whole call s))
    (h : sys.Stands whole bound on p t) :
    (∃ call answer, (sys.tick p).1 = .returned call answer ∧ (whole call t).1 = answer ∧
        sys.Stands whole bound on (sys.tick p).2 (whole call t).2) ∨
      (sys.tick p).1 = .silent ∧ sys.Stands whole bound on (sys.tick p).2 t := by
  obtain ⟨shared, flag, phase⟩ := p
  cases phase with
  | outside => exact .inr ⟨rfl, h⟩
  | saving call => exact .inr ⟨rfl, h.1, h.2, h.2⟩
  | masking call wasEnabled =>
    -- from here on nothing comes between, and the whole body is to be performed
    obtain ⟨rfl, -, hwas⟩ := h
    exact .inr ⟨rfl, rfl, hwas, bound, Nat.le_refl _, hwhole call shared⟩
  | inside call wasEnabled l =>
    obtain ⟨hflag, hwas, n, hn, hperform⟩ := h
    cases n with
    | zero => exact absurd hperform (by simp [CriticalSection.perform])
    | succ n =>
      unfold tick
      simp only
      -- one access: the rest of the body is left, or the answer is there
      rcases haccess : (sys.body call).access shared l with ⟨s', l' | answer⟩
      · rw [CriticalSection.perform_inl haccess] at hperform
        exact .inr ⟨rfl, hflag, hwas, n, Nat.le_of_succ_le hn, hperform⟩
      · rw [CriticalSection.perform_inr haccess] at hperform
        exact .inr ⟨rfl, hflag, hwas, Option.some.inj hperform⟩
  | leaving call wasEnabled answer =>
    obtain ⟨hflag, rfl, hanswer⟩ := h
    refine .inl ⟨call, answer, rfl, congrArg Prod.fst hanswer.symm, ?_, ?_⟩
    · exact congrArg Prod.snd hanswer
    · -- the flag was cleared by the guard, or was clear before
      change (if wasEnabled = true then true else flag) = wasEnabled
      obtain rfl : flag = false := hflag
      cases wasEnabled with
      | false => rfl
      | true => rfl

/-- While the flag is set no call is between its guard and its return. -/
theorem Stands.interrupt (h : sys.Stands whole bound on p t) (hflag : p.flag = true) (irq : Irq) :
    p.shared = t ∧
      sys.Stands whole bound on { p with shared := (sys.handle irq p.shared).2 }
        (sys.handle irq t).2 := by
  obtain ⟨shared, flag, phase⟩ := p
  cases phase with
  | outside | saving _ =>
    obtain ⟨rfl, hon⟩ := h
    exact ⟨rfl, rfl, hon⟩
  | masking _ _ =>
    obtain ⟨rfl, hon, hwas⟩ := h
    exact ⟨rfl, rfl, hon, hwas⟩
  | inside _ _ _ | leaving _ _ _ => exact absurd (h.1.symm.trans hflag) Bool.false_ne_true

/-- Ticks of the call under way. -/
def ticks (sys : MaskedSystem Shared Irq IrqAnswer Call Local Answer) (n : ℕ)
    (p : Masked Shared Call Local Answer) : Masked Shared Call Local Answer :=
  (fun p => (sys.tick p).2)^[n] p

/-- The rest of a body takes as many ticks as it has accesses, and one more restores the
flag. -/
theorem ticks_of_inside (on : Bool) {call : Call} {l : Local} {n : ℕ} {result : Answer × Shared}
    {shared : Shared} (hperform : (sys.body call).perform n shared l = some result) :
    ∃ k ≤ n + 1, (sys.ticks k ⟨shared, false, .inside call on l⟩).phase = .outside ∧
      (sys.ticks k ⟨shared, false, .inside call on l⟩).flag = on := by
  -- on the accesses that are left of the body
  induction n generalizing shared l with
  | zero => exact absurd hperform (by simp [CriticalSection.perform])
  | succ n ih =>
    rcases haccess : (sys.body call).access shared l with ⟨s', l' | answer⟩
    · rw [CriticalSection.perform_inl haccess] at hperform
      obtain ⟨k, hk, hphase, hflag⟩ := ih hperform
      have htick : (sys.tick ⟨shared, false, .inside call on l⟩).2
          = ⟨s', false, .inside call on l'⟩ := by
        unfold tick
        simp only [haccess]
      refine ⟨k + 1, by omega, ?_⟩
      unfold ticks at hphase hflag ⊢
      rw [Function.iterate_succ_apply, htick]
      exact ⟨hphase, hflag⟩
    -- the last access, and the step that leaves the guard
    · have htick : (sys.tick ⟨shared, false, .inside call on l⟩).2
          = ⟨s', false, .leaving call on answer⟩ := by
        unfold tick
        simp only [haccess]
      refine ⟨2, by omega, ?_⟩
      unfold ticks
      rw [Function.iterate_succ_apply, htick]
      refine ⟨rfl, ?_⟩
      change (if on = true then true else false) = on
      cases on <;> rfl

/-- **A call gives the flag back.** From any point of it, at most `bound + 3` ticks lead out
of the call, and then the flag is as the foreground left it. -/
theorem Stands.ticks_outside
    (hwhole : ∀ call s, (sys.body call).perform bound s (sys.body call).start
      = some (whole call s))
    (h : sys.Stands whole bound on p t) :
    ∃ k ≤ bound + 3, (sys.ticks k p).phase = .outside ∧ (sys.ticks k p).flag = on := by
  obtain ⟨shared, flag, phase⟩ := p
  -- a phase before the body only adds ticks
  have hbody (call : Call) := ticks_of_inside on (hwhole call shared)
  cases phase with
  | outside => exact ⟨0, Nat.zero_le _, rfl, h.2⟩
  | saving call =>
    obtain ⟨k, hk, hphase, hflag⟩ := hbody call
    obtain ⟨-, rfl⟩ := h
    exact ⟨k + 2, by omega, hphase, hflag⟩
  | masking call wasEnabled =>
    obtain ⟨k, hk, hphase, hflag⟩ := hbody call
    obtain ⟨-, -, rfl⟩ := h
    exact ⟨k + 1, by omega, hphase, hflag⟩
  | inside call wasEnabled l =>
    obtain ⟨rfl, rfl, n, hn, hperform⟩ := h
    obtain ⟨k, hk, hphase, hflag⟩ := ticks_of_inside wasEnabled hperform
    exact ⟨k, by omega, hphase, hflag⟩
  | leaving call wasEnabled answer =>
    obtain ⟨rfl, rfl, -⟩ := h
    refine ⟨1, by omega, rfl, ?_⟩
    change (if wasEnabled = true then true else false) = wasEnabled
    cases wasEnabled <;> rfl

/-! ### Every run -/

variable {h : List (MaskedMove Irq Call × MaskedEffect IrqAnswer Call Answer)}

/-- A move that shows nothing keeps the atomic run. -/
theorem run_atomic_silent {p' : Masked Shared Call Local Answer} {on' : Bool} {s₀ : Shared}
    {e : MaskedMove Irq Call × MaskedEffect IrqAnswer Call Answer} (hsilent : observe e = none)
    (hrun : (sys.atomic whole).Run s₀ (h.filterMap observe) t)
    (hstands : sys.Stands whole bound on' p' t) :
    ∃ t, (sys.atomic whole).Run s₀ ((h ++ [e]).filterMap observe) t ∧
      sys.Stands whole bound on' p' t := by
  refine ⟨t, ?_, hstands⟩
  rw [List.filterMap_append, List.filterMap_cons_none hsilent, List.filterMap_nil,
    List.append_nil]
  exact hrun

/-- A move that shows a step of the atomic system extends the atomic run by it. -/
theorem run_atomic_visible {p' : Masked Shared Call Local Answer} {on' : Bool} {s₀ : Shared}
    {e : MaskedMove Irq Call × MaskedEffect IrqAnswer Call Answer} {l : Irq ⊕ Call}
    {answer : IrqAnswer ⊕ Answer} (hvisible : observe e = some (l, answer))
    (hrun : (sys.atomic whole).Run s₀ (h.filterMap observe) t)
    (hanswer : ((sys.atomic whole).step t l).1 = answer)
    (hstands : sys.Stands whole bound on' p' ((sys.atomic whole).step t l).2) :
    ∃ t, (sys.atomic whole).Run s₀ ((h ++ [e]).filterMap observe) t ∧
      sys.Stands whole bound on' p' t := by
  refine ⟨_, ?_, hstands⟩
  rw [List.filterMap_append, List.filterMap_cons_some hvisible, List.filterMap_nil, ← hanswer]
  exact Machine.Run.snoc l hrun trivial

/-- **A masked call is atomic.** Along every run, whatever the interrupts and wherever they
come, what the handler answered and what the calls returned is a run of the atomic system. -/
theorem run_atomic
    (hwhole : ∀ call s, (sys.body call).perform bound s (sys.body call).start
      = some (whole call s))
    {s₀ : Shared} (hrun : sys.machine.Run ⟨s₀, on, .outside⟩ h p) :
    ∃ t, (sys.atomic whole).Run s₀ (h.filterMap observe) t ∧
      sys.Stands whole bound (flagAfter on h) p t := by
  -- the atomic run gets longer with each observation, and waits for the next one else
  refine hrun.invariant (P := fun h p => ∃ t, (sys.atomic whole).Run s₀ (h.filterMap observe) t ∧
    sys.Stands whole bound (flagAfter on h) p t) ?_ ?_
  · exact ⟨s₀, .nil, show _ = s₀ ∧ on = on from ⟨rfl, rfl⟩⟩
  rintro h p move ⟨t, hatomic, hstands⟩ hen
  -- the flag outside the calls changes by `setFlag` alone
  have hflag (o : MaskedEffect IrqAnswer Call Answer) :
      flagAfter on (h ++ [(move, o)]) =
        match move with | .setFlag on' => on' | _ => flagAfter on h := by
    unfold flagAfter
    rw [List.foldl_append]
    cases move <;> rfl
  rw [hflag]
  cases move with
  | interrupt irq =>
    obtain ⟨hshared, hafter⟩ := hstands.interrupt hen irq
    exact run_atomic_visible rfl hatomic (hshared ▸ rfl) hafter
  | setFlag on' =>
    obtain ⟨shared, flag, phase⟩ := p
    obtain rfl : phase = .outside := hen
    exact run_atomic_silent rfl hatomic ⟨hstands.1, rfl⟩
  | call call =>
    obtain ⟨shared, flag, phase⟩ := p
    obtain rfl : phase = .outside := hen
    exact run_atomic_silent rfl hatomic hstands
  | tick =>
    -- a step of a call is silent but for the last one, which returns the answer
    rcases tick_stands hwhole hstands with ⟨call, answer, heffect, hanswer, hafter⟩ |
      ⟨heffect, hafter⟩
    · have hvisible : observe ((.tick : MaskedMove Irq Call), (sys.tick p).1)
          = some (.inr call, .inr answer) := by
        rw [heffect]
        rfl
      exact run_atomic_visible hvisible hatomic (congrArg Sum.inr hanswer) hafter
    · refine run_atomic_silent ?_ hatomic hafter
      change observe (_, (sys.tick p).1) = _
      rw [heffect]
      rfl

end Refinement

end MaskedSystem
end Framework
