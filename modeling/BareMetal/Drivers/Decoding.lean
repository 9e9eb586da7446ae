import BareMetal.Drivers.Keyboard
import BareMetal.Framework.Machine
import Mathlib.Data.List.Forall2

/-!
# Decoding and the polling schedule

The bytes of the keyboard arrive at their own pace and the terminal polls at its own.
What a byte means should depend on the bytes before it alone. `decode` is that
meaning: the prefix flag and the modifiers, and the event of a byte, without a queue.

The handler computes it as long as the queue has room. A full queue makes it return
early, and then the byte leaves no trace in the prefix flag and the modifiers
either. That is harmless when the byte would have left none: no prefix is pending,
and the key is no modifier or has the state its modifier already shows
(`Harmless`). In runs whose dropped bytes are harmless the meaning of every byte is
independent of the schedule (`decoding_schedule_independent`); a dropped release of a
shift key is not harmless, and the shift stays down (`dropped_release_sticks`).
-/

namespace BareMetal

open Framework

/-! ### The meaning of a byte stream -/

/-- What the decoder keeps between bytes: the prefix flag and the modifiers. -/
abbrev DecoderState := Bool × BitVec 8

/-- The event of a byte, none for the prefix, and the state after it. -/
def decode (d : DecoderState) (scancode : BitVec 8) : Option KeyboardEvent × DecoderState :=
  if scancode = extendedPrefix then (none, (true, d.2))
  else
    let keyCode := scancode &&& keyCodeMask
    let key := mapScancodeSet1Key keyCode d.1
    let state := if scancode &&& releaseMask = 0 then KeyState.pressed else .released
    let modifiers := updateModifierState key state d.2
    (some ⟨key, keyCode, state, d.1, modifiers⟩, (false, modifiers))

/-- The events of a stream, byte by byte, and the state after it. -/
def decodeAll (d : DecoderState) : List (BitVec 8) → List (Option KeyboardEvent) × DecoderState
  | [] => ([], d)
  | b :: bs =>
    let r := decodeAll (decode d b).2 bs
    ((decode d b).1 :: r.1, r.2)

theorem decodeAll_snoc (d : DecoderState) (bs : List (BitVec 8)) (b : BitVec 8) :
    decodeAll d (bs ++ [b]) =
      ((decodeAll d bs).1 ++ [(decode (decodeAll d bs).2 b).1],
        (decode (decodeAll d bs).2 b).2) := by
  induction bs generalizing d with
  | nil => rfl
  | cons a bs ih =>
    rw [List.cons_append, decodeAll, ih]
    rfl

/-! ### The machine -/

/-- What happens to the driver: a byte with data ready, or a poll. -/
inductive Arrival where
  | byte (scancode : BitVec 8)
  | poll
  deriving DecidableEq

/-- The modifier that is down while a key is. -/
def KeyboardKey.modifier? : KeyboardKey → Option KeyboardModifierState
  | .leftShift => some .leftShiftDown
  | .rightShift => some .rightShiftDown
  | .leftCtrl => some .leftCtrlDown
  | .rightCtrl => some .rightCtrlDown
  | .leftAlt => some .leftAltDown
  | .rightAlt => some .rightAltDown
  | .capsLock => some .capsLockDown
  | _ => none

/-- If the key is a modifier, its bit says whether it is down. -/
def ModifierShows (key : KeyboardKey) (down : Prop) (g : BitVec 8) : Prop :=
  ∀ m, key.modifier? = some m → (g &&& m.mask ≠ 0 ↔ down)

instance (key : KeyboardKey) (down : Prop) [Decidable down] (g : BitVec 8) :
    Decidable (ModifierShows key down g) :=
  inferInstanceAs (Decidable (∀ m ∈ key.modifier?, (g &&& m.mask ≠ 0 ↔ down)))

/-- The update of the modifier of a key. -/
def updateModifier (m : KeyboardModifierState) (state : KeyState) (g : BitVec 8) : BitVec 8 :=
  if m = .capsLockDown then setCapsLock state g else setModifier m state g

theorem updateModifierState_eq (key : KeyboardKey) (state : KeyState) (g : BitVec 8) :
    updateModifierState key state g =
      match key.modifier? with
      | some m => updateModifier m state g
      | none => g := by
  cases key <;> rfl

/-- The update of one modifier changes nothing exactly when its bit is right. -/
theorem updateModifier_eq_iff (m : KeyboardModifierState) (state : KeyState) (g : BitVec 8) :
    updateModifier m state g = g ↔ (g &&& m.mask ≠ 0 ↔ state = .pressed) := by
  -- a finite check: eight modifiers, two states and 256 values
  revert g
  cases m <;> cases state <;> decide +kernel

/-- **An update that changes nothing.** The modifiers stay as they are exactly when they
already show the key. -/
theorem updateModifierState_eq_iff (key : KeyboardKey) (state : KeyState) (g : BitVec 8) :
    updateModifierState key state g = g ↔ ModifierShows key (state = .pressed) g := by
  rw [updateModifierState_eq]
  unfold ModifierShows
  cases key.modifier? with
  | none => exact iff_of_true rfl fun _ h => absurd h (by simp)
  | some m =>
    refine (updateModifier_eq_iff m state g).trans ⟨?_, fun h => h m rfl⟩
    intro h m' heq
    obtain rfl := Option.some.inj heq
    exact h

namespace Keyboard

/-- The driver after an arrival. -/
def arrive (k : Keyboard) : Arrival → Keyboard
  | .byte scancode => k.handleInterrupt outputBufferFull scancode
  | .poll => (k.pollInto .init).2.2

/-- The event that a step put into the queue, seen from outside. -/
def queued (k k' : Keyboard) : Arrival → Option KeyboardEvent
  | .byte _ => if k'.queue.count = k.queue.count then none else some (k'.queue.entries k.queue.tail)
  | .poll => none

/-- The prefix flag and the modifiers. -/
def decoder (k : Keyboard) : DecoderState := (k.extendedPending, k.modifierState)

/-- A byte that may be dropped at a full queue: it finds no pending prefix, and if its
key is a modifier then the modifier already shows whether the key is down. -/
def Harmless (k : Keyboard) : Arrival → Prop
  | .byte scancode => keyboardEventQueueSize ≤ k.queue.count → scancode ≠ extendedPrefix →
      k.extendedPending = false ∧ ModifierShows
        (mapScancodeSet1Key (scancode &&& keyCodeMask) false) (scancode &&& releaseMask = 0)
        k.modifierState
  | .poll => True

instance (k : Keyboard) : ∀ a, Decidable (k.Harmless a)
  | .byte scancode => inferInstanceAs (Decidable (keyboardEventQueueSize ≤ k.queue.count →
      scancode ≠ extendedPrefix → k.extendedPending = false ∧ ModifierShows
        (mapScancodeSet1Key (scancode &&& keyCodeMask) false) (scancode &&& releaseMask = 0)
        k.modifierState))
  | .poll => inferInstanceAs (Decidable True)

end Keyboard

/-- The driver under arrivals that satisfy `ok`, with the events queued as output. -/
def keyboardMachine (ok : Keyboard → Arrival → Prop) :
    Machine Keyboard Arrival (Option KeyboardEvent) where
  step k a := (k.queued (k.arrive a) a, k.arrive a)
  enabled := ok

instance : ∀ k a, Decidable ((keyboardMachine Keyboard.Harmless).enabled k a) :=
  fun k a => inferInstanceAs (Decidable (k.Harmless a))

/-- The byte of an arrival. -/
def Arrival.byte? : Arrival → Option (BitVec 8)
  | .byte scancode => some scancode
  | .poll => none

/-- The stream of a history: its bytes in order. -/
def stream (h : List (Arrival × Option KeyboardEvent)) : List (BitVec 8) :=
  h.filterMap fun e => e.1.byte?

/-- The events queued by the bytes of a history, one entry a byte. -/
def queuedEvents (h : List (Arrival × Option KeyboardEvent)) : List (Option KeyboardEvent) :=
  h.filterMap fun e => e.1.byte?.map fun _ => e.2

/-! ### One step -/

/-- A byte that finds room in the queue is decoded, and its event is queued. -/
theorem byte_accepted {k : Keyboard} (hroom : k.queue.count < keyboardEventQueueSize)
    (scancode : BitVec 8) :
    (k.arrive (.byte scancode)).decoder = (decode k.decoder scancode).2 ∧
      k.queued (k.arrive (.byte scancode)) (.byte scancode) = (decode k.decoder scancode).1 := by
  have hready : ¬ outputBufferFull &&& outputBufferFull = 0 := by decide
  unfold Keyboard.arrive Keyboard.handleInterrupt Keyboard.queued
  simp only [if_neg hready, if_neg (Nat.not_le.mpr hroom)]
  by_cases hlead : scancode = extendedPrefix
  · simp only [decode, if_pos hlead, if_true]
    exact ⟨rfl, trivial⟩
  · -- the counter moves, and the entry at the tail is the event
    simp only [if_neg hlead]
    have hcount : u8 (k.queue.count + 1) ≠ k.queue.count := by
      unfold keyboardEventQueueSize at hroom
      unfold u8
      omega
    have hdecode : decode k.decoder scancode = (some _, _) := if_neg hlead
    rw [hdecode]
    refine ⟨rfl, ?_⟩
    change (if u8 (k.queue.count + 1) = k.queue.count then none else
      some (Function.update k.queue.entries k.queue.tail _ k.queue.tail)) = _
    rw [if_neg hcount, Function.update_self]
    rfl

/-- **A byte is decoded or, harmlessly, dropped.** -/
theorem byte_decodes {k : Keyboard} {scancode : BitVec 8} (hk : k.Harmless (.byte scancode)) :
    (k.arrive (.byte scancode)).decoder = (decode k.decoder scancode).2 ∧
      (k.queued (k.arrive (.byte scancode)) (.byte scancode) = none ∨
        k.queued (k.arrive (.byte scancode)) (.byte scancode) = (decode k.decoder scancode).1) := by
  by_cases hfull : keyboardEventQueueSize ≤ k.queue.count
  · have hready : ¬ outputBufferFull &&& outputBufferFull = 0 := by decide
    unfold Keyboard.arrive Keyboard.handleInterrupt Keyboard.queued
    simp only [if_neg hready, if_pos hfull]
    by_cases hlead : scancode = extendedPrefix
    · simp only [decode, if_pos hlead, if_true]
      exact ⟨rfl, .inl trivial⟩
    · -- dropped: the state is what the decoder makes of the byte as well
      obtain ⟨hpending, hshows⟩ := hk hfull hlead
      simp only [if_neg hlead]
      have hstate : (scancode &&& releaseMask = 0) ↔
          (if scancode &&& releaseMask = 0 then KeyState.pressed else .released) = .pressed := by
        by_cases hpress : scancode &&& releaseMask = 0
        · exact iff_of_true hpress (if_pos hpress)
        · exact iff_of_false hpress (by rw [if_neg hpress]; decide)
      refine ⟨?_, .inl rfl⟩
      simp only [decode, if_neg hlead]
      refine Prod.ext hpending ?_
      change k.modifierState = updateModifierState (mapScancodeSet1Key _ k.extendedPending) _ _
      rw [hpending]
      exact ((updateModifierState_eq_iff _ _ _).mpr (propext hstate ▸ hshows)).symm
  · obtain ⟨hdecoder, hqueued⟩ := byte_accepted (Nat.not_le.mp hfull) scancode
    exact ⟨hdecoder, .inr hqueued⟩

/-- A poll leaves the decoder alone. -/
theorem poll_keeps_decoder (k : Keyboard) : (k.arrive .poll).decoder = k.decoder := by
  unfold Keyboard.arrive Keyboard.pollInto
  by_cases h : k.queue.count = 0
  · simp only [if_pos h]
  · simp only [if_neg h]
    rfl

/-! ### Runs -/

/-- The queued events are those of the stream, some of them lost. -/
def Lossy (queued decoded : List (Option KeyboardEvent)) : Prop :=
  List.Forall₂ (fun q e => q = none ∨ q = e) queued decoded

/-- **A run decodes its stream.** -/
theorem run_decodes {k₀ k : Keyboard} {h : List (Arrival × Option KeyboardEvent)}
    (hrun : (keyboardMachine Keyboard.Harmless).Run k₀ h k) :
    k.decoder = (decodeAll k₀.decoder (stream h)).2 ∧
      Lossy (queuedEvents h) (decodeAll k₀.decoder (stream h)).1 := by
  induction hrun with
  | nil => exact ⟨rfl, .nil⟩
  | @snoc h k a _ hen ih =>
    obtain ⟨hdecoder, hlossy⟩ := ih
    unfold stream queuedEvents
    rw [List.filterMap_append, List.filterMap_append]
    change _ ∧ Lossy (queuedEvents h ++ _) _
    cases a with
    | byte scancode =>
      -- the byte appends one entry to both lists
      obtain ⟨hstep, hqueued⟩ := byte_decodes hen
      rw [hdecoder] at hstep hqueued
      rw [show List.filterMap _ [(Arrival.byte scancode, _)] = [scancode] from rfl]
      change _ = (decodeAll _ (stream h ++ [scancode])).2 ∧
        Lossy _ (decodeAll _ (stream h ++ [scancode])).1
      rw [decodeAll_snoc]
      exact ⟨hstep, List.rel_append hlossy (.cons hqueued .nil)⟩
    | poll =>
      rw [show List.filterMap _ [(Arrival.poll, _)] = [] from rfl, List.append_nil]
      refine ⟨(poll_keeps_decoder k).trans hdecoder, ?_⟩
      rw [show List.filterMap _ [(Arrival.poll, _)] = [] from rfl, List.append_nil]
      exact hlossy

theorem Lossy.getElem? {queued decoded : List (Option KeyboardEvent)} (h : Lossy queued decoded)
    {i : ℕ} {e : KeyboardEvent} (hi : queued[i]? = some (some e)) :
    decoded[i]? = some (some e) := by
  unfold Lossy at h
  induction h generalizing i with
  | nil => exact absurd hi (by simp)
  | cons hqe _ ih =>
    cases i with
    | zero =>
      obtain rfl := Option.some.inj hi
      -- what was queued is an event, so it was not lost
      rcases hqe with hnone | heq
      · exact absurd hnone (by simp)
      · rw [← heq]
        rfl
    | succ i => exact ih hi

/-- **Decoding does not depend on the schedule.** Two runs over the same bytes, polled
at any times, in which every dropped byte is harmless, end with the same modifiers and
the same prefix flag, and a byte that produces an event in both produces the same. -/
theorem decoding_schedule_independent {k₀ k₁ k₂ : Keyboard}
    {h₁ h₂ : List (Arrival × Option KeyboardEvent)}
    (hrun₁ : (keyboardMachine Keyboard.Harmless).Run k₀ h₁ k₁)
    (hrun₂ : (keyboardMachine Keyboard.Harmless).Run k₀ h₂ k₂) (hstream : stream h₁ = stream h₂) :
    k₁.modifierState = k₂.modifierState ∧ k₁.extendedPending = k₂.extendedPending ∧
      ∀ (i : ℕ) (e₁ e₂ : KeyboardEvent), (queuedEvents h₁)[i]? = some (some e₁) →
        (queuedEvents h₂)[i]? = some (some e₂) → e₁ = e₂ := by
  obtain ⟨hdecoder₁, hlossy₁⟩ := run_decodes hrun₁
  obtain ⟨hdecoder₂, hlossy₂⟩ := run_decodes hrun₂
  rw [hstream] at hdecoder₁ hlossy₁
  have hdecoder : k₁.decoder = k₂.decoder := hdecoder₁.trans hdecoder₂.symm
  refine ⟨congrArg Prod.snd hdecoder, congrArg Prod.fst hdecoder, ?_⟩
  intro i e₁ e₂ h₁ h₂
  have he := (hlossy₁.getElem? h₁).symm.trans (hlossy₂.getElem? h₂)
  exact Option.some.inj (Option.some.inj he)

/-- Left shift and 63 presses of a letter fill the queue. The release of the letter is dropped
then, or it is not, if the terminal polls once before. -/
theorem decoding_schedule_independent_shift :
    let m := keyboardMachine Keyboard.Harmless
    let held := Arrival.byte 0x2A :: List.replicate 63 (Arrival.byte 0x1E)
    let dropped := m.exec .init (held ++ [.byte 0x9E])
    let kept := m.exec .init (held ++ [.poll, .byte 0x9E])
    (queuedEvents dropped.1)[64]? = some none ∧ (queuedEvents kept.1)[64]? ≠ some none ∧
      dropped.2.modifierState = kept.2.modifierState := by
  intro m held dropped kept
  have hdropped : m.EnabledAlong .init (held ++ [.byte 0x9E]) := by decide +kernel
  have hkept : m.EnabledAlong .init (held ++ [.poll, .byte 0x9E]) := by decide +kernel
  have hstream : stream dropped.1 = stream kept.1 := by decide +kernel
  exact ⟨by decide +kernel, by decide +kernel,
    (decoding_schedule_independent hdropped.run hkept.run hstream).1⟩

/-- **A dropped release sticks.** Left shift and 63 presses of a letter fill the queue. If
the release of the shift arrives now, it is lost and the shift stays down; if the
terminal polls once before, it does not. -/
theorem dropped_release_sticks :
    let m := keyboardMachine fun _ _ => True
    let held := Arrival.byte 0x2A :: List.replicate 63 (Arrival.byte 0x1E)
    let lost := m.exec .init (held ++ [.byte 0xAA])
    let kept := m.exec .init (held ++ [.poll, .byte 0xAA])
    m.Run .init lost.1 lost.2 ∧ m.Run .init kept.1 kept.2 ∧ stream lost.1 = stream kept.1 ∧
      lost.2.modifierState = 0x01 ∧ kept.2.modifierState = 0x00 := by
  intro m held lost kept
  refine ⟨Machine.run_exec (fun _ _ => trivial) _ _, Machine.run_exec (fun _ _ => trivial) _ _, ?_⟩
  decide +kernel

end BareMetal
