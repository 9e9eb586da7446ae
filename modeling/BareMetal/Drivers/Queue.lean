import BareMetal.Drivers.Decoding
import BareMetal.Framework.Ring

/-!
# The event queue is a bounded FIFO

The interrupt handler puts events into the ring, the terminal takes them out. The two
move indices of their own around the ring and share one counter, and a handler may run
between any two calls of the terminal. The handler runs with interrupts off and the
calls of the terminal hold an `interrupt_guard`, so a run is a list of whole calls in
any order.

The invariant `QueueInv` is on histories: the events that were committed so far, in the
order of their commits, are the events that were polled so far followed by the contents
of the ring. Everything else about the queue is read off it (`queue_fifo`).
-/

namespace BareMetal

open Framework

/-! ### The calls -/

/-- A call of the driver. An interrupt finds a status and a scancode at the ports; a poll
has a cell for the event, with what is in it. -/
inductive KeyboardCall where
  | interrupt (status scancode : BitVec 8)
  | poll (outEvent : KeyboardEvent)
  | hasPending

/-- What a call returns, and for the handler the event that it committed. -/
inductive KeyboardAnswer where
  | committed (event : Option KeyboardEvent)
  | polled (found : Bool) (outEvent : KeyboardEvent)
  | pending (count : ℕ)

/-- The event of a commit. -/
def KeyboardAnswer.committed? : KeyboardAnswer → Option KeyboardEvent
  | .committed event => event
  | _ => none

/-- The event of a successful poll. -/
def KeyboardAnswer.polled? : KeyboardAnswer → Option KeyboardEvent
  | .polled true event => some event
  | _ => none

namespace Keyboard

/-- The driver answers a call. -/
def answer (k : Keyboard) : KeyboardCall → KeyboardAnswer × Keyboard
  | .interrupt status scancode =>
    let k' := k.handleInterrupt status scancode
    (.committed (k.queued k' (.byte scancode)), k')
  | .poll outEvent =>
    let r := k.pollInto outEvent
    (.polled r.1 r.2.1, r.2.2)
  | .hasPending => (.pending k.hasPendingEvent, k)

end Keyboard

/-- The driver under interrupts and calls in any order. -/
def queueMachine : Machine Keyboard KeyboardCall KeyboardAnswer where
  step := Keyboard.answer

/-- The events committed along a history, in order. -/
def committedEvents (h : List (KeyboardCall × KeyboardAnswer)) : List KeyboardEvent :=
  h.filterMap fun e => e.2.committed?

/-- The events returned by the successful polls of a history, in order. -/
def polledEvents (h : List (KeyboardCall × KeyboardAnswer)) : List KeyboardEvent :=
  h.filterMap fun e => e.2.polled?

theorem filterMap_snoc {α β : Type} (f : α → Option β) (as : List α) (a : α) :
    (as ++ [a]).filterMap f = as.filterMap f ++ (f a).toList := by
  rw [List.filterMap_append, List.filterMap_eq_flatMap_toList f [a], List.flatMap_singleton]

theorem committedEvents_snoc (h : List (KeyboardCall × KeyboardAnswer))
    (e : KeyboardCall × KeyboardAnswer) :
    committedEvents (h ++ [e]) = committedEvents h ++ e.2.committed?.toList :=
  filterMap_snoc _ h e

theorem polledEvents_snoc (h : List (KeyboardCall × KeyboardAnswer))
    (e : KeyboardCall × KeyboardAnswer) :
    polledEvents (h ++ [e]) = polledEvents h ++ e.2.polled?.toList :=
  filterMap_snoc _ h e

/-! ### The ring of the queue -/

/-- The pending events, oldest first. -/
def KeyboardEventQueue.contents (q : KeyboardEventQueue) : List KeyboardEvent :=
  ringContents keyboardEventQueueSize q.entries q.head q.count

/-- The indices of the queue fit its counter. -/
def KeyboardEventQueue.Ring (q : KeyboardEventQueue) : Prop :=
  RingInv keyboardEventQueueSize q.head q.tail q.count

/-- The mask is the remainder by the size, which is a power of two. -/
theorem nextKeyboardEvent_eq (index : ℕ) :
    nextKeyboardEvent index = (index + 1) % keyboardEventQueueSize :=
  Nat.and_two_pow_sub_one_eq_mod (index + 1) 6

namespace KeyboardEventQueue

variable {q : KeyboardEventQueue}

theorem Ring.count_le (hq : q.Ring) : q.count ≤ keyboardEventQueueSize :=
  RingInv.count_le hq

theorem length_contents : q.contents.length = q.count := length_ringContents

/-- The counter never wraps on a commit. -/
theorem commit_count (hroom : q.count < keyboardEventQueueSize) (event : KeyboardEvent) :
    (q.commit event).count = q.count + 1 := by
  have hsize : keyboardEventQueueSize = 64 := rfl
  change (q.count + 1) % 2 ^ 8 = q.count + 1
  omega

/-- A commit appends its event. -/
theorem contents_commit (hq : q.Ring) (hroom : q.count < keyboardEventQueueSize)
    (event : KeyboardEvent) : (q.commit event).contents = q.contents ++ [event] := by
  unfold contents
  rw [commit_count hroom]
  exact RingInv.contents_push hq hroom event

theorem Ring.commit (hq : q.Ring) (hroom : q.count < keyboardEventQueueSize)
    (event : KeyboardEvent) : (q.commit event).Ring := by
  unfold Ring
  rw [commit_count hroom]
  change RingInv _ q.head (nextKeyboardEvent q.tail) _
  rw [nextKeyboardEvent_eq]
  exact RingInv.push hq hroom

/-- The queue after the oldest event is taken. -/
def take (q : KeyboardEventQueue) : KeyboardEventQueue :=
  { q with head := nextKeyboardEvent q.head, count := u8Sub q.count 1 }

theorem take_count (hq : q.Ring) (hsome : q.count ≠ 0) : q.take.count + 1 = q.count := by
  have hle := hq.count_le
  have hsize : keyboardEventQueueSize = 64 := rfl
  change (q.count + 2 ^ 8 - 1) % 2 ^ 8 + 1 = q.count
  omega

/-- What is taken is the first of the contents, and the rest stays. -/
theorem contents_take (hq : q.Ring) (hsome : q.count ≠ 0) :
    q.contents = q.entries q.head :: q.take.contents := by
  unfold contents
  rw [← take_count hq hsome, ringContents_pop, Nat.mod_eq_of_lt (RingInv.head_lt hq)]
  change _ :: ringContents _ q.entries _ _ =
    _ :: ringContents _ q.entries (nextKeyboardEvent q.head) _
  rw [nextKeyboardEvent_eq]

theorem Ring.take (hq : q.Ring) (hsome : q.count ≠ 0) : q.take.Ring := by
  have hring : RingInv keyboardEventQueueSize q.head q.tail (q.take.count + 1) :=
    (take_count hq hsome).symm ▸ hq
  change RingInv _ (nextKeyboardEvent q.head) q.tail _
  rw [nextKeyboardEvent_eq]
  exact RingInv.pop hring

end KeyboardEventQueue

/-! ### What a call does -/

namespace Keyboard

variable {k : Keyboard}

/-- **An interrupt commits one event or leaves the queue alone.** With a full queue it
does the latter, and with data ready and no prefix only then. -/
theorem handleInterrupt_queue (k : Keyboard) (status scancode : BitVec 8) :
    let k' := k.handleInterrupt status scancode
    (k.queued k' (.byte scancode) = none ∧ k'.queue = k.queue ∧
        (status &&& outputBufferFull ≠ 0 → scancode ≠ extendedPrefix →
          keyboardEventQueueSize ≤ k.queue.count)) ∨
      ∃ event, k.queued k' (.byte scancode) = some event ∧
        k.queue.count < keyboardEventQueueSize ∧ k'.queue = k.queue.commit event := by
  unfold handleInterrupt queued
  by_cases hready : status &&& outputBufferFull = 0
  · simp only [if_pos hready, if_true]
    exact .inl ⟨trivial, trivial, fun h => absurd hready h⟩
  by_cases hlead : scancode = extendedPrefix
  · simp only [if_neg hready, if_pos hlead, if_true]
    exact .inl ⟨trivial, trivial, fun _ h => absurd hlead h⟩
  by_cases hfull : keyboardEventQueueSize ≤ k.queue.count
  · simp only [if_neg hready, if_neg hlead, if_pos hfull, if_true]
    exact .inl ⟨trivial, trivial, fun _ _ => hfull⟩
  · -- the counter moves, and the entry at the old tail is the event
    have hroom : k.queue.count < keyboardEventQueueSize := Nat.lt_of_not_le hfull
    simp only [if_neg hready, if_neg hlead, if_neg hfull]
    refine .inr ⟨_, ?_, hroom, rfl⟩
    rw [KeyboardEventQueue.commit_count hroom, if_neg (Nat.succ_ne_self _)]
    exact congrArg some (Function.update_self _ _ _)

theorem pollInto_of_empty (hempty : k.queue.count = 0) (outEvent : KeyboardEvent) :
    k.pollInto outEvent = (false, outEvent, k) :=
  if_pos hempty

theorem pollInto_of_pending (hsome : k.queue.count ≠ 0) (outEvent : KeyboardEvent) :
    k.pollInto outEvent =
      (true, k.queue.entries k.queue.head, { k with queue := k.queue.take }) :=
  if_neg hsome

end Keyboard

/-! ### Every run -/

/-- What holds along every run: the ring is one, and what was committed is what was
polled followed by what is pending. -/
structure QueueInv (h : List (KeyboardCall × KeyboardAnswer)) (k : Keyboard) : Prop where
  ring : k.queue.Ring
  conserved : committedEvents h = polledEvents h ++ k.queue.contents

theorem queueInv_init : QueueInv [] .init where
  ring := ⟨by decide, by decide, rfl⟩
  conserved := rfl

section Step

variable {h : List (KeyboardCall × KeyboardAnswer)} {k k' : Keyboard}

/-- A call keeps the invariant if what it commits and what it returns balance. -/
theorem QueueInv.snoc (hinv : QueueInv h k) (hring : k'.queue.Ring) {call : KeyboardCall}
    {answer : KeyboardAnswer}
    (hbalance : k.queue.contents ++ answer.committed?.toList =
      answer.polled?.toList ++ k'.queue.contents) :
    QueueInv (h ++ [(call, answer)]) k' := by
  refine ⟨hring, ?_⟩
  rw [committedEvents_snoc, polledEvents_snoc, hinv.conserved, List.append_assoc,
    List.append_assoc]
  exact congrArg (polledEvents h ++ ·) hbalance

theorem QueueInv.interrupt (hinv : QueueInv h k) (status scancode : BitVec 8) :
    QueueInv (h ++ [(.interrupt status scancode, (k.answer (.interrupt status scancode)).1)])
      (k.answer (.interrupt status scancode)).2 := by
  set k' := k.handleInterrupt status scancode with hk'
  have hanswer : k.answer (.interrupt status scancode) =
    (.committed (k.queued k' (.byte scancode)), k') := rfl
  rw [hanswer]
  rcases k.handleInterrupt_queue status scancode with
    ⟨hqueued, hqueue, -⟩ | ⟨event, hqueued, hroom, hqueue⟩
  · rw [← hk'] at hqueued hqueue
    refine hinv.snoc (hqueue ▸ hinv.ring) ?_
    rw [hqueued, hqueue]
    exact List.append_nil _
  · rw [← hk'] at hqueued hqueue
    refine hinv.snoc (hqueue ▸ hinv.ring.commit hroom event) ?_
    -- the committed event is now the last one pending
    rw [hqueued, hqueue, KeyboardEventQueue.contents_commit hinv.ring hroom]
    rfl

theorem QueueInv.poll (hinv : QueueInv h k) (outEvent : KeyboardEvent) :
    QueueInv (h ++ [(.poll outEvent, (k.answer (.poll outEvent)).1)])
      (k.answer (.poll outEvent)).2 := by
  have hanswer : k.answer (.poll outEvent) = (.polled (k.pollInto outEvent).1
    (k.pollInto outEvent).2.1, (k.pollInto outEvent).2.2) := rfl
  rw [hanswer]
  by_cases hempty : k.queue.count = 0
  · rw [Keyboard.pollInto_of_empty hempty]
    exact hinv.snoc hinv.ring (List.append_nil _)
  · rw [Keyboard.pollInto_of_pending hempty]
    -- the returned event was the first one pending
    exact hinv.snoc (hinv.ring.take hempty)
      ((List.append_nil _).trans (KeyboardEventQueue.contents_take hinv.ring hempty))

theorem QueueInv.hasPending (hinv : QueueInv h k) :
    QueueInv (h ++ [(.hasPending, (k.answer .hasPending).1)]) (k.answer .hasPending).2 :=
  hinv.snoc hinv.ring (List.append_nil _)

end Step

theorem queueInv_of_run {k : Keyboard} {h : List (KeyboardCall × KeyboardAnswer)}
    (hrun : queueMachine.Run .init h k) : QueueInv h k := by
  refine hrun.invariant queueInv_init ?_
  intro h k call hinv _
  cases call with
  | interrupt status scancode => exact hinv.interrupt status scancode
  | poll outEvent => exact hinv.poll outEvent
  | hasPending => exact hinv.hasPending

/-- **The queue is a bounded FIFO.** Along every run of interrupts and calls the events
polled are a prefix of the events committed, the counter is the number of those not yet
polled and at most 64, a poll fails only when there are none and then changes nothing,
and a key code is lost only when there are 64. -/
theorem queue_fifo {k : Keyboard} {h : List (KeyboardCall × KeyboardAnswer)}
    (hrun : queueMachine.Run .init h k) :
    polledEvents h <+: committedEvents h ∧
      k.hasPendingEvent + (polledEvents h).length = (committedEvents h).length ∧
      k.hasPendingEvent ≤ 64 ∧
      k.queue.tail = (k.queue.head + k.queue.count) % 64 ∧
      (∀ outEvent, (k.pollInto outEvent).1 = false →
        (committedEvents h).length = (polledEvents h).length ∧
          (k.pollInto outEvent).2 = (outEvent, k)) ∧
      ∀ status scancode, status &&& outputBufferFull ≠ 0 → scancode ≠ extendedPrefix →
        k.queued (k.handleInterrupt status scancode) (.byte scancode) = none →
          (committedEvents h).length = (polledEvents h).length + 64 := by
  have hinv := queueInv_of_run hrun
  have hlength : k.hasPendingEvent + (polledEvents h).length = (committedEvents h).length :=
    calc k.hasPendingEvent + (polledEvents h).length
      _ = (polledEvents h).length + k.queue.contents.length := by
        rw [KeyboardEventQueue.length_contents, Nat.add_comm]
        rfl
      _ = (committedEvents h).length := by rw [hinv.conserved, List.length_append]
  have hbound : k.hasPendingEvent ≤ 64 := hinv.ring.count_le
  refine ⟨⟨_, hinv.conserved.symm⟩, hlength, hbound, hinv.ring.tail_eq, ?_, ?_⟩
  -- a poll is in vain if all that was committed has been polled
  · intro outEvent hfalse
    by_cases hempty : k.queue.count = 0
    · have hzero : k.hasPendingEvent = 0 := hempty
      exact ⟨by omega, by rw [Keyboard.pollInto_of_empty hempty]⟩
    · rw [Keyboard.pollInto_of_pending hempty] at hfalse
      exact absurd hfalse (by simp)
  -- an event is lost if the ring is full
  · intro status scancode hready hlead hnone
    rcases k.handleInterrupt_queue status scancode with ⟨-, -, hfull⟩ | ⟨event, hsome, -, -⟩
    · have hle : 64 ≤ k.hasPendingEvent := hfull hready hlead
      omega
    · exact absurd (hnone.symm.trans hsome) (by simp)

/-- Two codes, one poll, and another code: the ring holds the last two. -/
theorem queue_fifo_three :
    let r := queueMachine.exec .init [.interrupt 0x01 0x1E, .interrupt 0x01 0x9E,
      .poll .init, .interrupt 0x01 0x30]
    r.2.hasPendingEvent = 2 ∧ polledEvents r.1 <+: committedEvents r.1 ∧
      r.2.hasPendingEvent + (polledEvents r.1).length = (committedEvents r.1).length := by
  intro r
  have hfifo := queue_fifo (Machine.run_exec (fun _ _ => trivial) Keyboard.init _ :
    queueMachine.Run _ r.1 r.2)
  exact ⟨by decide, hfifo.1, hfifo.2.1⟩

end BareMetal
