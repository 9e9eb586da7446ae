import BareMetal.Drivers.Queue
import BareMetal.Framework.Masked

/-!
# The guarded calls of the driver

`poll_keyboard_event`, `has_pending_keyboard_event` and `current_keyboard_modifier_state`
hold an `interrupt_guard` while they look at the globals that the handler writes. Here they
are taken apart into the single loads and stores of these globals, and an interrupt may come
before each of them as long as the interrupt flag is set (`driverSystem`).

That is why the queue may be treated as a machine of whole calls: what is returned along a
run at this grain is a run of whole calls (`driver_calls_atomic`), and the queue is a FIFO at
this grain too. The guard masks interrupts for at most six accesses, and it leaves the flag
as it found it: a call made with interrupts off does not turn them on.
-/

namespace BareMetal

open Framework

/-! ### The calls, access by access -/

/-- A call of the foreground. A poll has a cell for the event, with what is in it. -/
inductive DriverCall where
  | pollKeyboardEvent (outEvent : KeyboardEvent)
  | hasPendingKeyboardEvent
  | currentKeyboardModifierState

/-- What a call returns. -/
inductive DriverAnswer where
  | polled (found : Bool) (outEvent : KeyboardEvent)
  | pending (count : ℕ)
  | modifiers (state : BitVec 8)

/-- What a call does next with the globals, and what it has in its registers. -/
inductive DriverAccess where
  /-- `count == 0`. -/
  | testCount (outEvent : KeyboardEvent)
  /-- `*out_event = entries[head]`. -/
  | loadEntry
  /-- `head = next_keyboard_event(head)`, a load and a store. -/
  | loadHead (outEvent : KeyboardEvent)
  | storeHead (outEvent : KeyboardEvent) (head : ℕ)
  /-- `--count`, a load and a store. -/
  | loadCount (outEvent : KeyboardEvent)
  | storeCount (outEvent : KeyboardEvent) (count : ℕ)
  | loadPending
  | loadModifiers

namespace DriverAccess

/-- One access. -/
def access (k : Keyboard) : DriverAccess → Keyboard × (DriverAccess ⊕ DriverAnswer)
  | .testCount outEvent =>
    (k, if k.queue.count = 0 then .inr (.polled false outEvent) else .inl .loadEntry)
  | .loadEntry => (k, .inl (.loadHead (k.queue.entries k.queue.head)))
  | .loadHead outEvent => (k, .inl (.storeHead outEvent (nextKeyboardEvent k.queue.head)))
  | .storeHead outEvent head =>
    ({ k with queue := { k.queue with head := head } }, .inl (.loadCount outEvent))
  | .loadCount outEvent => (k, .inl (.storeCount outEvent (u8Sub k.queue.count 1)))
  | .storeCount outEvent count =>
    ({ k with queue := { k.queue with count := count } }, .inr (.polled true outEvent))
  | .loadPending => (k, .inr (.pending k.queue.count))
  | .loadModifiers => (k, .inr (.modifiers k.modifierState))

end DriverAccess

/-- The body of a call, behind its guard. -/
def DriverCall.body (call : DriverCall) : CriticalSection Keyboard DriverAccess DriverAnswer where
  start :=
    match call with
    | .pollKeyboardEvent outEvent => .testCount outEvent
    | .hasPendingKeyboardEvent => .loadPending
    | .currentKeyboardModifierState => .loadModifiers
  access := DriverAccess.access

/-- A call as one step. -/
def DriverCall.whole (call : DriverCall) (k : Keyboard) : DriverAnswer × Keyboard :=
  match call with
  | .pollKeyboardEvent outEvent =>
    let r := k.pollInto outEvent
    (.polled r.1 r.2.1, r.2.2)
  | .hasPendingKeyboardEvent => (.pending k.hasPendingEvent, k)
  | .currentKeyboardModifierState => (.modifiers k.modifierState, k)

/-- What the status port and the data port read at an interrupt. -/
structure KeyboardPorts where
  status : BitVec 8
  scancode : BitVec 8

/-- The handler, which answers with the event it commits, and the calls. -/
def driverSystem : MaskedSystem Keyboard KeyboardPorts (Option KeyboardEvent) DriverCall
    DriverAccess DriverAnswer where
  handle ports k :=
    let k' := k.handleInterrupt ports.status ports.scancode
    (k.queued k' (.byte ports.scancode), k')
  body := DriverCall.body

/-- A history of the driver at this grain. -/
abbrev DriverHistory :=
  List (MaskedMove KeyboardPorts DriverCall ×
    MaskedEffect (Option KeyboardEvent) DriverCall DriverAnswer)

/-- The body of a call does what the call does, in at most six accesses. -/
theorem DriverCall.perform_body (call : DriverCall) (k : Keyboard) :
    (driverSystem.body call).perform 6 k (driverSystem.body call).start
      = some (call.whole k) := by
  cases call with
  | pollKeyboardEvent outEvent =>
    change _ = some (DriverAnswer.polled (k.pollInto outEvent).1 (k.pollInto outEvent).2.1,
      (k.pollInto outEvent).2.2)
    by_cases hempty : k.queue.count = 0
    · have htest : DriverAccess.access k (.testCount outEvent)
          = (k, .inr (.polled false outEvent)) := by
        rw [DriverAccess.access, if_pos hempty]
      rw [Keyboard.pollInto_of_empty hempty]
      exact CriticalSection.perform_inr htest
    · have htest : DriverAccess.access k (.testCount outEvent) = (k, .inl .loadEntry) := by
        rw [DriverAccess.access, if_neg hempty]
      rw [Keyboard.pollInto_of_pending hempty]
      -- the other five accesses do not branch
      exact (CriticalSection.perform_inl htest).trans rfl
  | hasPendingKeyboardEvent => rfl
  | currentKeyboardModifierState => rfl

/-! ### The queue at this grain -/

/-- The events that the handler committed along a history, in order. -/
def handledEvents (h : DriverHistory) : List KeyboardEvent :=
  h.filterMap fun e =>
    match e.2, e.1 with
    | .handled event, .interrupt _ => event
    | _, _ => none

/-- The events that the polls returned along a history, in order. -/
def returnedEvents (h : DriverHistory) : List KeyboardEvent :=
  h.filterMap fun e =>
    match e.2 with
    | .returned (.pollKeyboardEvent _) (.polled true event) => some event
    | _ => none

/-- A step of the atomic driver as a call of the queue. The modifiers are no part of it. -/
def queueCall : (KeyboardPorts ⊕ DriverCall) × (Option KeyboardEvent ⊕ DriverAnswer) →
    Option (KeyboardCall × KeyboardAnswer)
  | (.inl ports, .inl event) => some (.interrupt ports.status ports.scancode, .committed event)
  | (.inr (.pollKeyboardEvent outEvent), .inr (.polled found event)) =>
    some (.poll outEvent, .polled found event)
  | (.inr .hasPendingKeyboardEvent, .inr (.pending count)) => some (.hasPending, .pending count)
  | _ => none

/-- The atomic driver is the queue with interrupts and calls in any order. -/
theorem atomic_refines_queue {k : Keyboard}
    {h : List ((KeyboardPorts ⊕ DriverCall) × (Option KeyboardEvent ⊕ DriverAnswer))}
    (hrun : (driverSystem.atomic DriverCall.whole).Run .init h k) :
    queueMachine.Run .init (h.filterMap queueCall) k := by
  obtain ⟨t, rfl, hqueue⟩ := hrun.stuttering (n := queueMachine) (R := Eq) queueCall rfl
    (by
      -- only the call for the modifiers is not seen, and it changes nothing
      rintro k _ (ports | call) rfl - hsilent
      · exact absurd hsilent (Option.some_ne_none _)
      · cases call with
        | pollKeyboardEvent | hasPendingKeyboardEvent =>
          exact absurd hsilent (Option.some_ne_none _)
        | currentKeyboardModifierState => rfl)
    (by
      rintro k _ (ports | call) e rfl - hvisible
      · obtain rfl := Option.some.inj hvisible
        exact ⟨trivial, rfl, rfl⟩
      · cases call with
        | pollKeyboardEvent | hasPendingKeyboardEvent =>
          obtain rfl := Option.some.inj hvisible
          exact ⟨trivial, rfl, rfl⟩
        | currentKeyboardModifierState => exact absurd hvisible.symm (Option.some_ne_none e))
  exact hqueue

/-- The queue of a history: the moves that it takes notice of. -/
def queueHistory (h : DriverHistory) : List (KeyboardCall × KeyboardAnswer) :=
  (h.filterMap MaskedSystem.observe).filterMap queueCall

theorem committedEvents_queueHistory (h : DriverHistory) :
    committedEvents (queueHistory h) = handledEvents h := by
  unfold committedEvents queueHistory handledEvents
  rw [List.filterMap_filterMap, List.filterMap_filterMap]
  congr 1
  funext ⟨move, effect⟩
  cases effect with
  | handled event => cases move <;> rfl
  | returned call answer => cases call <;> cases answer <;> rfl
  | silent => rfl

theorem polledEvents_queueHistory (h : DriverHistory) :
    polledEvents (queueHistory h) = returnedEvents h := by
  unfold polledEvents queueHistory returnedEvents
  rw [List.filterMap_filterMap, List.filterMap_filterMap]
  congr 1
  funext ⟨move, effect⟩
  cases effect with
  | handled event => cases move <;> rfl
  | returned call answer =>
    cases call with
    | pollKeyboardEvent =>
      cases answer with
      | polled found => cases found <;> rfl
      | pending | modifiers => rfl
    | hasPendingKeyboardEvent | currentKeyboardModifierState => cases answer <;> rfl
  | silent => rfl

/-- **The guarded calls are atomic.** Interrupts come before any access, whenever the flag is
set. What the handler commits and what the calls return is then a run of whole calls; between
calls the globals are the ones of that run and the flag is as the foreground left it, and
nine instructions lead out of a call. So the events returned are a prefix of those committed,
with the pending ones in the ring between. -/
theorem driver_calls_atomic {on : Bool} {h : DriverHistory}
    {p : Masked Keyboard DriverCall DriverAccess DriverAnswer}
    (hrun : driverSystem.machine.Run ⟨.init, on, .outside⟩ h p) :
    ∃ k, (driverSystem.atomic DriverCall.whole).Run .init
        (h.filterMap MaskedSystem.observe) k ∧
      (p.phase = .outside → p.shared = k ∧ p.flag = MaskedSystem.flagAfter on h) ∧
      (∃ n ≤ 9, (driverSystem.ticks n p).phase = .outside ∧
        (driverSystem.ticks n p).flag = MaskedSystem.flagAfter on h) ∧
      handledEvents h = returnedEvents h ++ k.queue.contents ∧
      k.queue.contents.length = k.queue.count ∧ k.queue.count ≤ 64 := by
  obtain ⟨k, hatomic, hstands⟩ :=
    MaskedSystem.run_atomic DriverCall.perform_body hrun
  -- the run of whole calls is one of the queue
  have hinv := queueInv_of_run (atomic_refines_queue hatomic)
  refine ⟨k, hatomic, ?_, hstands.ticks_outside DriverCall.perform_body, ?_,
    KeyboardEventQueue.length_contents, hinv.ring.count_le⟩
  · intro houtside
    unfold MaskedSystem.Stands at hstands
    rw [houtside] at hstands
    exact hstands
  · rw [← committedEvents_queueHistory, ← polledEvents_queueHistory]
    exact hinv.conserved

/-- A poll with the flag set. A key comes after the guard has read the flag, and it is the
one returned. -/
theorem driver_calls_atomic_poll :
    let r := driverSystem.machine.exec ⟨.init, true, .outside⟩
      [.call (.pollKeyboardEvent .init), .tick,
        .interrupt ⟨0x01, 0x1E⟩, .tick, .tick, .tick, .tick, .tick, .tick, .tick, .tick]
    ∃ k : Keyboard, handledEvents r.1 = returnedEvents r.1 ++ k.queue.contents ∧
      (returnedEvents r.1).map (·.key) = [.a] ∧ r.2.shared = k ∧ r.2.flag = true := by
  intro r
  have hen : driverSystem.machine.EnabledAlong ⟨.init, true, .outside⟩
      [.call (.pollKeyboardEvent .init), .tick,
        .interrupt ⟨0x01, 0x1E⟩, .tick, .tick, .tick, .tick, .tick, .tick, .tick, .tick] :=
    ⟨rfl, nofun, rfl, nofun, nofun, nofun, nofun, nofun, nofun, nofun, nofun, trivial⟩
  obtain ⟨k, -, houtside, -, hevents, -⟩ := driver_calls_atomic hen.run
  exact ⟨k, hevents, by decide, houtside rfl⟩

end BareMetal
