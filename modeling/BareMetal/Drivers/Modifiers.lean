import BareMetal.Drivers.Decoding
import BareMetal.Framework.Edges

/-!
# The modifiers of an event

Every event carries the modifiers at its moment. They should be a function of the bytes
that came before: a modifier is down when the last byte of its key was a press, and the
lock is on when the caps lock key went down an odd number of times, a key that is held
going down once.

`KeyboardModifierState.history` is the record of one key, read off the bytes by scan
code alone. `Tracks` compares the modifiers with the seven records. Each byte keeps it
(`Tracks.decode`), so in a run in which the queue has room for every byte it holds of
every queued event (`queued_modifiers_track`).
-/

namespace BareMetal

open Framework

/-! ### The record of a key -/

/-- The scan codes of the keys that are modifiers, after the prefix or without it. -/
def modifierScancodes : List ((Bool × BitVec 8) × KeyboardModifierState) :=
  [((false, 0x2A), .leftShiftDown), ((false, 0x36), .rightShiftDown),
   ((false, 0x1D), .leftCtrlDown), ((true, 0x1D), .rightCtrlDown),
   ((false, 0x38), .leftAltDown), ((true, 0x38), .rightAltDown), ((false, 0x3A), .capsLockDown)]

namespace KeyboardModifierState

variable (m : KeyboardModifierState)

/-- The byte comes from the key of the modifier; `prefixed` says that the byte before it
was the prefix. -/
def Owns (prefixed : Bool) (b : BitVec 8) : Prop :=
  modifierScancodes.lookup (prefixed, b &&& keyCodeMask) = some m

instance (prefixed : Bool) (b : BitVec 8) : Decidable (m.Owns prefixed b) :=
  inferInstanceAs (Decidable (_ = _))

/-- The presses (true) and releases of the key in a stream that follows a byte; `prefixed`
says that this byte was the prefix. -/
def historyAfter : Bool → List (BitVec 8) → List Bool
  | _, [] => []
  | prefixed, b :: bytes =>
    let rest := historyAfter (b = extendedPrefix) bytes
    if m.Owns prefixed b then decide (b &&& releaseMask = 0) :: rest else rest

/-- The presses and releases of the key in a stream. -/
def history (bytes : List (BitVec 8)) : List Bool := m.historyAfter false bytes

end KeyboardModifierState

/-- The stream ends with the prefix. -/
def endsPrefixed (bytes : List (BitVec 8)) : Bool := bytes.getLast? = some extendedPrefix

namespace KeyboardModifierState

variable (m : KeyboardModifierState)

theorem historyAfter_snoc (prefixed : Bool) (bytes : List (BitVec 8)) (b : BitVec 8) :
    m.historyAfter prefixed (bytes ++ [b]) = m.historyAfter prefixed bytes ++
      if m.Owns ((bytes.getLast?.map (decide <| · = extendedPrefix)).getD prefixed) b then
        [decide (b &&& releaseMask = 0)] else [] := by
  induction bytes generalizing prefixed with
  | nil => rfl
  | cons a bytes ih =>
    rw [List.cons_append, historyAfter, ih, historyAfter, List.getLast?_cons]
    -- the byte before `b` is the last one of `bytes`, or `a`
    have hlast : (bytes.getLast?.map (decide <| · = extendedPrefix)).getD (a = extendedPrefix)
        = ((some (bytes.getLast?.getD a)).map (decide <| · = extendedPrefix)).getD prefixed := by
      cases bytes.getLast? <;> rfl
    rw [hlast]
    by_cases hown : m.Owns prefixed a
    · rw [if_pos hown, if_pos hown, List.cons_append]
    · rw [if_neg hown, if_neg hown]

/-- One more byte. -/
theorem history_snoc (bytes : List (BitVec 8)) (b : BitVec 8) :
    m.history (bytes ++ [b]) = m.history bytes ++
      if m.Owns (endsPrefixed bytes) b then [decide (b &&& releaseMask = 0)] else [] := by
  have hends : endsPrefixed bytes
      = (bytes.getLast?.map (decide <| · = extendedPrefix)).getD false := by
    unfold endsPrefixed
    cases bytes.getLast? with
    | none => rfl
    | some a => exact decide_eq_decide.mpr Option.some_inj
  rw [hends]
  exact m.historyAfter_snoc false bytes b

/-- A byte comes from the key when the tables of the driver decode it to a key with the
modifier. -/
theorem modifier?_decoded (prefixed : Bool) (b : BitVec 8) :
    (mapScancodeSet1Key (b &&& keyCodeMask) prefixed).modifier? = some m ↔ m.Owns prefixed b := by
  have hcode : ∀ b : BitVec 8, b &&& keyCodeMask = (b.setWidth 7).setWidth 8 := by decide +kernel
  -- a finite check over the codes of 7 bits
  have htables : ∀ c : BitVec 7, (mapScancodeSet1Key (c.setWidth 8) prefixed).modifier?
      = modifierScancodes.lookup (prefixed, c.setWidth 8) := by
    cases prefixed <;> decide +kernel
  rw [Owns, hcode b, htables]

/-- The lock is no key of its own. -/
theorem not_owns_capsLockOn (prefixed : Bool) (b : BitVec 8) : ¬ Owns .capsLockOn prefixed b := by
  have hkeys (key : KeyboardKey) : key.modifier? ≠ some .capsLockOn := by cases key <;> decide
  exact fun h => hkeys _ ((modifier?_decoded _ prefixed b).mpr h)

/-- The prefix comes from no key. -/
theorem not_owns_prefix (prefixed : Bool) : ¬ m.Owns prefixed extendedPrefix := by
  cases m <;> cases prefixed <;> decide

end KeyboardModifierState

/-- Modifiers are bits of their own. -/
theorem KeyboardModifierState.mask_and_mask {m m' : KeyboardModifierState} (h : m ≠ m') :
    m.mask &&& m'.mask = 0 := by
  cases m <;> cases m' <;> first | decide | exact absurd rfl h

/-! ### One update -/

/-- Setting bits changes no other bit. -/
theorem or_and_of_disjoint {a b : BitVec 8} (h : a &&& b = 0) (g : BitVec 8) :
    (g ||| a) &&& b = g &&& b := by
  rw [BitVec.and_or_distrib_right, h]
  exact BitVec.or_zero

/-- Clearing bits changes no other bit. -/
theorem and_not_and_of_disjoint {a b : BitVec 8} (h : a &&& b = 0) (g : BitVec 8) :
    (g &&& ~~~a) &&& b = g &&& b := by
  have hb : ~~~a &&& b = b := by
    calc ~~~a &&& b = (a &&& b) ||| (~~~a &&& b) := by rw [h]; exact BitVec.zero_or.symm
      _ = (a ||| ~~~a) &&& b := BitVec.and_or_distrib_right.symm
      _ = b := by rw [BitVec.or_not_self, BitVec.allOnes_and]
  rw [BitVec.and_assoc, hb]

/-- An update touches the bit of its modifier, and for caps lock the bit of the lock. -/
theorem updateModifier_and {m : KeyboardModifierState} {mask : BitVec 8}
    (hdown : m.mask &&& mask = 0)
    (hlock : m = .capsLockDown → KeyboardModifierState.capsLockOn.mask &&& mask = 0)
    (state : KeyState) (g : BitVec 8) :
    updateModifier m state g &&& mask = g &&& mask := by
  unfold updateModifier
  by_cases hcaps : m = .capsLockDown
  · obtain rfl := hcaps
    have hlock := hlock rfl
    rw [if_pos rfl]
    unfold setCapsLock
    split
    · split
      · -- the key goes down: the lock turns over
        dsimp only
        split
        · rw [and_not_and_of_disjoint hlock, or_and_of_disjoint hdown]
        · rw [or_and_of_disjoint hlock, or_and_of_disjoint hdown]
      · rfl
    · exact and_not_and_of_disjoint hdown g
  · rw [if_neg hcaps]
    unfold setModifier
    split
    · exact or_and_of_disjoint hdown g
    · exact and_not_and_of_disjoint hdown g

/-- The bit of an updated modifier says whether its key was pressed. -/
theorem updateModifier_self (m : KeyboardModifierState) (state : KeyState) (g : BitVec 8) :
    updateModifier m state g &&& m.mask ≠ 0 ↔ state = .pressed := by
  -- a finite check: eight modifiers, two states and 256 values
  revert g
  cases m <;> cases state <;> decide +kernel

/-- Caps lock as a toggle. -/
def capsToggle (g : BitVec 8) : Toggle where
  seen := isCapsDown g
  value := isCapsLockActive g

/-- The update of caps lock is one sample of the toggle. -/
theorem capsToggle_setCapsLock (state : KeyState) (g : BitVec 8) :
    capsToggle (setCapsLock state g) = (capsToggle g).step (state = .pressed) := by
  revert g
  cases state <;> decide +kernel

/-! ### What the modifiers remember -/

/-- The modifiers are what the bytes so far make of them. -/
structure Tracks (bytes : List (BitVec 8)) (g : BitVec 8) : Prop where
  down_iff (m : KeyboardModifierState) (hm : m ≠ .capsLockOn) :
    g &&& m.mask ≠ 0 ↔ (m.history bytes).getLast? = some true
  capsLockOn_iff : g &&& KeyboardModifierState.capsLockOn.mask ≠ 0
    ↔ Odd (rises (KeyboardModifierState.capsLockDown.history bytes))

/-- Before the first byte. -/
theorem tracks_nil : Tracks [] 0 where
  down_iff m _ := iff_of_false (fun h => h BitVec.zero_and) (by rintro ⟨⟩)
  capsLockOn_iff := iff_of_false (fun h => h BitVec.zero_and) (by decide)

namespace Tracks

variable {bytes : List (BitVec 8)} {g : BitVec 8}

/-- The toggle of caps lock follows the record of its key. -/
theorem capsToggle_follows (h : Tracks bytes g) :
    (capsToggle g).Follows (KeyboardModifierState.capsLockDown.history bytes) where
  seen_eq := by
    have hdown := h.down_iff .capsLockDown (by decide)
    rw [Bool.eq_iff_iff]
    refine decide_eq_true_iff.trans (hdown.trans ?_)
    cases (KeyboardModifierState.capsLockDown.history bytes).getLast? <;> simp
  value_iff := decide_eq_true_iff.trans h.capsLockOn_iff

/-- A byte that comes from no key. -/
theorem skip (h : Tracks bytes g) {b : BitVec 8}
    (hb : ∀ m : KeyboardModifierState, ¬ m.Owns (endsPrefixed bytes) b) :
    Tracks (bytes ++ [b]) g := by
  have hhistory (m : KeyboardModifierState) : m.history (bytes ++ [b]) = m.history bytes := by
    rw [m.history_snoc, if_neg (hb m), List.append_nil]
  exact ⟨fun m hm => by rw [hhistory]; exact h.down_iff m hm,
    by rw [hhistory]; exact h.capsLockOn_iff⟩

/-- A byte that comes from the key of `m`. -/
theorem update (h : Tracks bytes g) {b : BitVec 8} {m : KeyboardModifierState} {state : KeyState}
    (hb : m.Owns (endsPrefixed bytes) b) (hstate : state = .pressed ↔ b &&& releaseMask = 0) :
    Tracks (bytes ++ [b]) (updateModifier m state g) := by
  -- the byte is in the history of its own key alone
  have hother {m' : KeyboardModifierState} (hne : m' ≠ m) :
      m'.history (bytes ++ [b]) = m'.history bytes := by
    have hnot : ¬ m'.Owns (endsPrefixed bytes) b := fun hm' =>
      hne (Option.some.inj (hm'.symm.trans hb))
    rw [m'.history_snoc, if_neg hnot, List.append_nil]
  have hself : m.history (bytes ++ [b]) = m.history bytes ++ [decide (state = .pressed)] := by
    rw [m.history_snoc, if_pos hb, decide_eq_decide.mpr hstate]
  refine ⟨fun m' hm' => ?_, ?_⟩
  -- the bit of `m` is the new sample, the others stay
  · by_cases heq : m' = m
    · obtain rfl := heq
      rw [hself, List.getLast?_concat, Option.some_inj, decide_eq_true_iff]
      exact updateModifier_self m' state g
    · rw [hother heq, updateModifier_and (KeyboardModifierState.mask_and_mask (Ne.symm heq))
        (fun _ => KeyboardModifierState.mask_and_mask (Ne.symm hm'))]
      exact h.down_iff m' hm'
  · by_cases hcaps : m = .capsLockDown
    · -- caps lock: the toggle takes one more sample
      obtain rfl := hcaps
      have hfollows := h.capsToggle_follows.step (state = .pressed)
      rw [← hself, ← capsToggle_setCapsLock] at hfollows
      exact decide_eq_true_iff.symm.trans hfollows.value_iff
    · have hlock : m ≠ .capsLockOn := by
        rintro rfl
        exact KeyboardModifierState.not_owns_capsLockOn _ _ hb
      rw [hother (Ne.symm hcaps), updateModifier_and (KeyboardModifierState.mask_and_mask hlock)
        (fun h => absurd h hcaps)]
      exact h.capsLockOn_iff

/-- **One byte.** -/
theorem decode (h : Tracks bytes g) (b : BitVec 8) :
    Tracks (bytes ++ [b]) (decode (endsPrefixed bytes, g) b).2.2 := by
  unfold BareMetal.decode
  by_cases hlead : b = extendedPrefix
  · rw [if_pos hlead]
    exact h.skip fun m hm => m.not_owns_prefix _ (hlead ▸ hm)
  · rw [if_neg hlead]
    change Tracks _ (updateModifierState (mapScancodeSet1Key _ (endsPrefixed bytes)) _ g)
    rw [updateModifierState_eq]
    have hkey (m : KeyboardModifierState) := m.modifier?_decoded (endsPrefixed bytes) b
    cases hmodifier : (mapScancodeSet1Key (b &&& keyCodeMask) (endsPrefixed bytes)).modifier? with
    | none => exact h.skip fun m hm => by simpa [hmodifier] using (hkey m).mpr hm
    | some m =>
      refine h.update ((hkey m).mp hmodifier) ?_
      by_cases hpress : b &&& releaseMask = 0
      · exact iff_of_true (if_pos hpress) hpress
      · exact iff_of_false (by rw [if_neg hpress]; decide) hpress

end Tracks

/-! ### Runs -/

/-- The queue has room for a byte that arrives. -/
def HasRoom (k : Keyboard) : Arrival → Prop
  | .byte _ => k.queue.count < keyboardEventQueueSize
  | .poll => True

instance (k : Keyboard) : ∀ a, Decidable ((keyboardMachine HasRoom).enabled k a)
  | .byte _ => inferInstanceAs (Decidable (_ < _))
  | .poll => isTrue trivial

/-- The flag after a byte. -/
theorem endsPrefixed_snoc (d : DecoderState) (bytes : List (BitVec 8)) (b : BitVec 8) :
    endsPrefixed (bytes ++ [b]) = (decode d b).2.1 := by
  unfold endsPrefixed decode
  rw [List.getLast?_concat, decide_eq_decide.mpr Option.some_inj]
  by_cases hlead : b = extendedPrefix
  · rw [if_pos hlead, decide_eq_true hlead]
  · rw [if_neg hlead, decide_eq_false hlead]

/-- An event carries the modifiers after its byte. -/
theorem modifiers_of_decode {d : DecoderState} {b : BitVec 8} {e : KeyboardEvent}
    (he : (decode d b).1 = some e) : e.modifiers = (decode d b).2.2 := by
  unfold decode at he ⊢
  by_cases hlead : b = extendedPrefix
  · rw [if_pos hlead] at he
    exact absurd he (by simp)
  · rw [if_neg hlead] at he ⊢
    obtain rfl := Option.some.inj he
    rfl

/-- **A run remembers its stream**: the prefix flag is that of the last byte, and the
modifiers track the bytes. -/
theorem run_tracks {k₀ k : Keyboard} {h : List (Arrival × Option KeyboardEvent)}
    (hpending : k₀.extendedPending = false) (hmodifiers : k₀.modifierState = 0)
    (hrun : (keyboardMachine HasRoom).Run k₀ h k) :
    ∃ g, k.decoder = (endsPrefixed (stream h), g) ∧ Tracks (stream h) g := by
  induction hrun with
  | nil => exact ⟨0, Prod.ext hpending hmodifiers, tracks_nil⟩
  | @snoc h k a _ hen ih =>
    obtain ⟨g, hdecoder, htracks⟩ := ih
    unfold stream
    rw [List.filterMap_append]
    cases a with
    | byte b =>
      refine ⟨(decode (endsPrefixed (stream h), g) b).2.2, ?_, htracks.decode b⟩
      refine (byte_accepted hen b).1.trans ?_
      rw [hdecoder]
      exact Prod.ext (endsPrefixed_snoc _ (stream h) b).symm rfl
    | poll =>
      rw [show List.filterMap _ [(Arrival.poll, _)] = [] from rfl, List.append_nil]
      exact ⟨g, (poll_keeps_decoder k).trans hdecoder, htracks⟩

/-- **The modifiers of an event.** The tables decode the bytes as the records read them,
and in a run in which the queue has room for every byte, from no modifiers and no pending
prefix, the modifiers of every queued event are what the bytes so far make of them. -/
theorem queued_modifiers_track {k₀ k : Keyboard} {h₁ h₂ : List (Arrival × Option KeyboardEvent)}
    {a : Arrival} {e : KeyboardEvent}
    (hpending : k₀.extendedPending = false) (hmodifiers : k₀.modifierState = 0)
    (hrun : (keyboardMachine HasRoom).Run k₀ (h₁ ++ (a, some e) :: h₂) k) :
    (∀ (m : KeyboardModifierState) (prefixed : Bool) (b : BitVec 8), m.Owns prefixed b ↔
        (mapScancodeSet1Key (b &&& keyCodeMask) prefixed).modifier? = some m) ∧
      (∀ b : BitVec 8, b &&& keyCodeMask = 0x2A ∨ b &&& keyCodeMask = 0x36 →
        mapScancodeSet1Key (b &&& keyCodeMask) true = .unknown) ∧
      Tracks (stream (h₁ ++ [(a, some e)])) e.modifiers := by
  refine ⟨fun m prefixed b => (m.modifier?_decoded prefixed b).symm, ?_, ?_⟩
  · rintro b (hb | hb)
    · rw [hb]
      rfl
    · rw [hb]
      rfl
  · -- cut the run at the event
    rw [List.append_cons] at hrun
    obtain ⟨t, hfst, -⟩ := hrun.append_inv
    obtain ⟨u, hu, hen, hstep⟩ := hfst.snoc_inv
    have hqueued : u.queued (u.arrive a) a = some e := congrArg Prod.fst hstep
    obtain ⟨g, hdecoder, htracks⟩ := run_tracks hpending hmodifiers hu
    cases a with
    | byte b =>
      have he := (byte_accepted hen b).2.symm.trans hqueued
      rw [hdecoder] at he
      rw [modifiers_of_decode he]
      unfold stream
      rw [List.filterMap_append]
      exact htracks.decode b
    | poll => exact absurd hqueued (by simp [Keyboard.queued])

/-- Caps lock goes down and repeats, then right ctrl goes down: the lock is on. -/
theorem queued_modifiers_track_held :
    let bytes : List (BitVec 8) := [0x3A, 0x3A, 0xE0, 0x1D]
    let r := (keyboardMachine HasRoom).exec .init (bytes.map .byte)
    let e : KeyboardEvent := ⟨.rightCtrl, 0x1D, .pressed, true, 0xC8⟩
    r.1.getLast? = some (.byte 0x1D, some e) ∧ Tracks bytes e.modifiers := by
  intro bytes r e
  have hen : (keyboardMachine HasRoom).EnabledAlong .init (bytes.map .byte) := by decide +kernel
  have hhistory : r.1 = r.1.take 3 ++ (.byte 0x1D, some e) :: [] := by decide +kernel
  refine ⟨by decide +kernel, ?_⟩
  have hrun := hen.run
  change (keyboardMachine HasRoom).Run .init r.1 r.2 at hrun
  rw [hhistory] at hrun
  exact (queued_modifiers_track rfl rfl hrun).2.2

end BareMetal
