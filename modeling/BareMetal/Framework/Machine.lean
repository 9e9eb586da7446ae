import Mathlib.Data.List.Induction

/-!
# Deterministic machines and their runs

A component that is driven by calls (an allocator, a screen, a line editor, an
interrupt handler) is a `Machine`: a step function that answers a call with an
output and a successor state, and a guard `enabled` that says which calls the
environment may make in which state.

`Machine.Run m s₀ h s` says that the history `h`, the list of calls made so far
with the outputs they received, leads from `s₀` to `s`. Histories grow at the
end, so a property of the past (what is owned now, which label came last) is a
fold over the list, and an invariant may mention it.

* `Run.invariant` is the induction rule: what holds initially and is preserved
  by every enabled step holds of every reachable state, histories included.
* `Run.append_inv` cuts a run at any point of its history; `Run.snoc_inv` is the
  cut before the last step. The history determines the state (`Run.unique`).
* `Run.simulation` is the forward simulation along an abstraction function,
  `Run.stuttering` the one along a relation, for a machine with finer steps.
* `Machine.exec` computes the run of a list of calls; it is one when the calls are
  enabled where they are made (`EnabledAlong.run`, `run_exec`).
-/

namespace Framework

/-- A deterministic machine. `step s l` answers the call `l` in state `s`;
`enabled s l` says that the environment may make it. -/
structure Machine (State Label Out : Type) where
  step : State → Label → Out × State
  /-- The calls the environment may make. -/
  enabled : State → Label → Prop := fun _ _ => True

namespace Machine

variable {State State' Label Out : Type}

/-- The history `h` leads from `s₀` to the given state. -/
inductive Run (m : Machine State Label Out) (s₀ : State) :
    List (Label × Out) → State → Prop
  | nil : Run m s₀ [] s₀
  | snoc {h : List (Label × Out)} {s : State} (l : Label) :
      Run m s₀ h s → m.enabled s l →
        Run m s₀ (h ++ [(l, (m.step s l).1)]) (m.step s l).2

variable {m : Machine State Label Out} {s₀ s : State} {h : List (Label × Out)}

/-- **The invariant rule.** A property of histories and states that holds at the
start and is preserved by every enabled step holds along every run. -/
theorem Run.invariant {P : List (Label × Out) → State → Prop} (h_init : P [] s₀)
    (h_step : ∀ h s l, P h s → m.enabled s l →
      P (h ++ [(l, (m.step s l).1)]) (m.step s l).2)
    (hrun : m.Run s₀ h s) : P h s := by
  induction hrun with
  | nil => exact h_init
  | snoc l _ hen ih => exact h_step _ _ l ih hen

/-- The invariant rule for a property of the state alone. -/
theorem Run.invariant_state {P : State → Prop} (h_init : P s₀)
    (h_step : ∀ s l, P s → m.enabled s l → P (m.step s l).2)
    (hrun : m.Run s₀ h s) : P s :=
  hrun.invariant (P := fun _ s => P s) h_init fun _ s l => h_step s l

/-- The empty history leads nowhere. -/
theorem Run.nil_inv (hrun : m.Run s₀ [] s) : s = s₀ := by
  generalize hh : ([] : List (Label × Out)) = h at hrun
  cases hrun with
  | nil => rfl
  | snoc l _ _ => exact absurd hh (by simp)

/-- A run whose history ends in the event `e` took that step last. -/
theorem Run.snoc_inv {e : Label × Out} (hrun : m.Run s₀ (h ++ [e]) s) :
    ∃ t, m.Run s₀ h t ∧ m.enabled t e.1 ∧ m.step t e.1 = (e.2, s) := by
  generalize hh : h ++ [e] = h' at hrun
  cases hrun with
  | nil => exact absurd hh (by simp)
  | @snoc h₁ t l hprev hen =>
    obtain ⟨rfl, he⟩ := List.append_inj' hh rfl
    obtain rfl : e = (l, (m.step t l).1) := by simpa using he
    exact ⟨t, hprev, hen, rfl⟩

/-- **Cutting a run.** A history `h₁ ++ h₂` passes through a state that `h₁`
reaches and that `h₂` starts from. -/
theorem Run.append_inv {h₁ h₂ : List (Label × Out)} (hrun : m.Run s₀ (h₁ ++ h₂) s) :
    ∃ t, m.Run s₀ h₁ t ∧ m.Run t h₂ s := by
  -- histories grow at the end, so the induction takes the last event off
  induction h₂ using List.reverseRecOn generalizing s with
  | nil => exact ⟨s, by simpa using hrun, .nil⟩
  | append_singleton h₂ e ih =>
    rw [← List.append_assoc] at hrun
    obtain ⟨t, hprev, hen, hstep⟩ := hrun.snoc_inv
    obtain ⟨u, hu, hut⟩ := ih hprev
    have hlast := Run.snoc e.1 hut hen
    rw [hstep] at hlast
    exact ⟨u, hu, hlast⟩

/-- A history leads to one state. -/
theorem Run.unique {t : State} (hs : m.Run s₀ h s) (ht : m.Run s₀ h t) : s = t := by
  induction h using List.reverseRecOn generalizing s t with
  | nil => rw [hs.nil_inv, ht.nil_inv]
  | append_singleton h e ih =>
    -- both runs took the same last step from the same state
    obtain ⟨s', hs', -, hstep⟩ := hs.snoc_inv
    obtain ⟨t', ht', -, htstep⟩ := ht.snoc_inv
    rw [ih ht' hs', hstep] at htstep
    exact congrArg Prod.snd htstep

/-- Runs compose. -/
theorem Run.append {t : State} {h₁ h₂ : List (Label × Out)} (h_fst : m.Run s₀ h₁ t)
    (h_snd : m.Run t h₂ s) : m.Run s₀ (h₁ ++ h₂) s := by
  induction h_snd with
  | nil => simpa using h_fst
  | snoc l _ hen ih => rw [← List.append_assoc]; exact .snoc l ih hen

/-- **Forward simulation.** If the abstraction function `α` carries every enabled
step of `m` from a state of the invariant `I` to the step of `m'` on the same
call, with the same answer, then `α` carries runs to runs and `I` is an invariant. -/
theorem Run.simulation {m' : Machine State' Label Out} {I : State → Prop} (α : State → State')
    (h_init : I s₀) (h_step : ∀ s l, I s → m.enabled s l → I (m.step s l).2 ∧
      m'.enabled (α s) l ∧ m'.step (α s) l = ((m.step s l).1, α (m.step s l).2))
    (hrun : m.Run s₀ h s) : I s ∧ m'.Run (α s₀) h (α s) := by
  induction hrun with
  | nil => exact ⟨h_init, .nil⟩
  | @snoc h s l _ hen ih =>
    obtain ⟨hI, hrun'⟩ := ih
    obtain ⟨hI', hen', heq⟩ := h_step s l hI hen
    -- the step of `m'` is the image of the step of `m`
    have hlast := Run.snoc l hrun' hen'
    rw [heq] at hlast
    exact ⟨hI', hlast⟩

/-- **Stuttering simulation along a relation.** `observe` says which steps of `m` are steps
of `n`, and which ones; during the others the state of `n` stays. If `R` is kept by both
kinds of steps, then what is observed of a run of `m` is a run of `n`. -/
theorem Run.stuttering {Label' Out' : Type} {n : Machine State' Label' Out'}
    {R : State → State' → Prop} {t₀ : State'} (observe : Label × Out → Option (Label' × Out'))
    (h_init : R s₀ t₀)
    (h_silent : ∀ s t l, R s t → m.enabled s l → observe (l, (m.step s l).1) = none →
      R (m.step s l).2 t)
    (h_visible : ∀ s t l e, R s t → m.enabled s l → observe (l, (m.step s l).1) = some e →
      n.enabled t e.1 ∧ (n.step t e.1).1 = e.2 ∧ R (m.step s l).2 (n.step t e.1).2)
    (hrun : m.Run s₀ h s) : ∃ t, R s t ∧ n.Run t₀ (h.filterMap observe) t := by
  induction hrun with
  | nil => exact ⟨t₀, h_init, .nil⟩
  | @snoc h s l _ hen ih =>
    obtain ⟨t, hR, hrun'⟩ := ih
    rw [List.filterMap_append]
    cases hobs : observe (l, (m.step s l).1) with
    | none =>
      refine ⟨t, h_silent s t l hR hen hobs, ?_⟩
      rw [List.filterMap_cons_none hobs, List.filterMap_nil, List.append_nil]
      exact hrun'
    | some e =>
      obtain ⟨hen', hout, hR'⟩ := h_visible s t l e hR hen hobs
      refine ⟨_, hR', ?_⟩
      rw [List.filterMap_cons_some hobs, List.filterMap_nil]
      -- the answer of `n` is the one that was observed
      have hlast := Run.snoc e.1 hrun' hen'
      rw [hout] at hlast
      exact hlast

/-! ### Executing a list of calls -/

/-- The outputs and the final state of the calls `ls`, made one after the other. -/
def exec (m : Machine State Label Out) (s : State) : List Label → List (Label × Out) × State
  | [] => ([], s)
  | l :: ls =>
    let r := m.step s l
    let rest := m.exec r.2 ls
    ((l, r.1) :: rest.1, rest.2)

/-- The history of an execution is that of its calls. -/
theorem exec_map_fst (m : Machine State Label Out) (s : State) (ls : List Label) :
    (m.exec s ls).1.map Prod.fst = ls := by
  induction ls generalizing s with
  | nil => rfl
  | cons l ls ih => exact congrArg (l :: ·) (ih (m.step s l).2)

/-- Each of the calls `ls`, made one after the other, is enabled. -/
def EnabledAlong (m : Machine State Label Out) (s : State) : List Label → Prop
  | [] => True
  | l :: ls => m.enabled s l ∧ m.EnabledAlong (m.step s l).2 ls

instance decidableEnabledAlong (m : Machine State Label Out)
    [∀ s l, Decidable (m.enabled s l)] : ∀ s ls, Decidable (m.EnabledAlong s ls)
  | _, [] => isTrue trivial
  | s, l :: ls =>
    have := decidableEnabledAlong m (m.step s l).2 ls
    inferInstanceAs (Decidable (m.enabled s l ∧ m.EnabledAlong (m.step s l).2 ls))

/-- What `exec` computes is a run, when each call is enabled where it is made. -/
theorem EnabledAlong.run {ls : List Label} (hen : m.EnabledAlong s ls) :
    m.Run s (m.exec s ls).1 (m.exec s ls).2 := by
  induction ls generalizing s with
  | nil => exact .nil
  | cons l ls ih =>
    obtain ⟨hfst, hrest⟩ := hen
    have hstep : m.Run s [(l, (m.step s l).1)] (m.step s l).2 := .snoc (h := []) l .nil hfst
    exact hstep.append (ih hrest)

/-- What `exec` computes is a run, when every call is enabled everywhere. -/
theorem run_exec (hen : ∀ s l, m.enabled s l) (s : State) (ls : List Label) :
    m.Run s (m.exec s ls).1 (m.exec s ls).2 := by
  apply EnabledAlong.run
  induction ls generalizing s with
  | nil => trivial
  | cons l ls ih => exact ⟨hen s l, ih _⟩

end Machine
end Framework
