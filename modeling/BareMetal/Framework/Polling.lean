import Mathlib.Data.List.Basic
import Mathlib.Data.Nat.Notation

/-!
# Polled devices

A device has a register for its status and one for data. A program waits for a bit of the
status before it touches the data register: it reads the status again and again, up to a bound,
with a pause after each vain attempt.

The accesses of such a program are its trace. In a guarded trace (`Guarded`) every access to the
data register comes right after a status that allows it. Programs that stop at the first failure
are put together by `Polled.andThen`, and their traces with them.
-/

namespace Framework

/-- A device. Reading a register may change it, as time does. -/
structure PolledDevice (D : Type) where
  readStatus : D → BitVec 8 × D
  readData : D → BitVec 8 × D
  writeData : BitVec 8 → D → D
  wait : D → D

/-- An access to a register, with the value, or a pause. -/
inductive PortAccess where
  | status (value : BitVec 8)
  | read (value : BitVec 8)
  | write (value : BitVec 8)
  | wait

/-- An access to the data register. -/
def PortAccess.data? : PortAccess → Option PortAccess
  | .status _ | .wait => none
  | access => some access

/-- What a program gets, the accesses that it makes, and the device after it. -/
structure Polled (D : Type) where
  ok : Bool
  trace : List PortAccess
  device : D

namespace Polled

variable {D : Type}

/-- The accesses come after others. -/
def after (trace : List PortAccess) (r : Polled D) : Polled D :=
  { r with trace := trace ++ r.trace }

theorem length_after (trace : List PortAccess) (r : Polled D) :
    (r.after trace).trace.length = trace.length + r.trace.length := List.length_append

/-- The next program, unless this one has failed. -/
def andThen (r : Polled D) (next : D → Polled D) : Polled D :=
  if r.ok then (next r.device).after r.trace else r

theorem andThen_of_ok {r : Polled D} (h : r.ok = true) (next : D → Polled D) :
    r.andThen next = (next r.device).after r.trace := if_pos h

theorem andThen_of_failed {r : Polled D} (h : r.ok = false) (next : D → Polled D) :
    r.andThen next = r := if_neg (Bool.eq_false_iff.mp h)

/-- What comes of a program after one that has not failed. -/
theorem andThen_ok {r : Polled D} (h : r.ok = true) {d : D} (hdevice : r.device = d)
    (next : D → Polled D) :
    (r.andThen next).ok = (next d).ok ∧ (r.andThen next).device = (next d).device := by
  subst hdevice
  rw [andThen_of_ok h]
  exact ⟨rfl, rfl⟩

end Polled

/-! ### Traces -/

/-- The accesses to the data register. -/
def dataAccesses (trace : List PortAccess) : List PortAccess := trace.filterMap PortAccess.data?

theorem dataAccesses_append (t t' : List PortAccess) :
    dataAccesses (t ++ t') = dataAccesses t ++ dataAccesses t' := List.filterMap_append ..

/-- Every access to the data register comes right after a status that allows it. -/
inductive Guarded (readable writable : BitVec 8 → Bool) : List PortAccess → Prop
  | nil : Guarded readable writable []
  | status {t} (v : BitVec 8) : Guarded readable writable t →
      Guarded readable writable (.status v :: t)
  | wait {t} : Guarded readable writable t → Guarded readable writable (.wait :: t)
  | read {t} {v : BitVec 8} (x : BitVec 8) (h : readable v = true) :
      Guarded readable writable t → Guarded readable writable (.status v :: .read x :: t)
  | write {t} {v : BitVec 8} (x : BitVec 8) (h : writable v = true) :
      Guarded readable writable t → Guarded readable writable (.status v :: .write x :: t)

theorem Guarded.append {readable writable : BitVec 8 → Bool} {t t' : List PortAccess}
    (h : Guarded readable writable t) (h' : Guarded readable writable t') :
    Guarded readable writable (t ++ t') := by
  induction h with
  | nil => exact h'
  | status v _ ih => exact .status v ih
  | wait _ ih => exact .wait ih
  | read x hv _ ih => exact .read x hv ih
  | write x hv _ ih => exact .write x hv ih

/-! ### Waiting -/

section Waiting

variable {D : Type} (dev : PolledDevice D) (ready : BitVec 8 → Bool)

/-- The status is read until it is as it should be. -/
def waitStatus : (attempts : ℕ) → D → Polled D
  | 0, d => ⟨false, [], d⟩
  | attempts + 1, d =>
    let r := dev.readStatus d
    if ready r.1 then ⟨true, [.status r.1], r.2⟩
    else (waitStatus attempts (dev.wait r.2)).after [.status r.1, .wait]

/-- Accesses without one to the data register. -/
def Quiet (trace : List PortAccess) : Prop := ∀ a ∈ trace, a.data? = none

variable {dev ready}

theorem waitStatus_of_ready {d : D} (h : ready (dev.readStatus d).1 = true) (attempts : ℕ) :
    waitStatus dev ready (attempts + 1) d
      = ⟨true, [.status (dev.readStatus d).1], (dev.readStatus d).2⟩ := if_pos h

theorem waitStatus_of_busy {d : D} (h : ready (dev.readStatus d).1 = false) (attempts : ℕ) :
    waitStatus dev ready (attempts + 1) d
      = (waitStatus dev ready attempts (dev.wait (dev.readStatus d).2)).after
          [.status (dev.readStatus d).1, .wait] := if_neg (Bool.eq_false_iff.mp h)

theorem Quiet.guarded {readable writable : BitVec 8 → Bool} {t t' : List PortAccess} (h : Quiet t)
    (h' : Guarded readable writable t') : Guarded readable writable (t ++ t') := by
  induction t with
  | nil => exact h'
  | cons a t ih =>
    obtain ⟨ha, ht⟩ := List.forall_mem_cons.mp h
    cases a with
    | status v => exact .status v (ih ht)
    | wait => exact .wait (ih ht)
    | read x => exact absurd ha (Option.some_ne_none _)
    | write x => exact absurd ha (Option.some_ne_none _)

theorem Quiet.dataAccesses_eq {t : List PortAccess} (h : Quiet t) : dataAccesses t = [] :=
  List.filterMap_eq_nil_iff.mpr h

/-- **A wait** that succeeds has read a status that is as it should be last. -/
theorem waitStatus_spec (dev : PolledDevice D) (ready : BitVec 8 → Bool) (attempts : ℕ) (d : D) :
    let r := waitStatus dev ready attempts d
    r.trace.length ≤ 2 * attempts ∧ Quiet r.trace ∧
      (r.ok = true → ∃ before v, r.trace = before ++ [.status v] ∧ ready v = true) := by
  -- on the attempts, each of which but the last has a pause
  induction attempts generalizing d with
  | zero =>
    exact ⟨Nat.le_refl 0, fun a ha => absurd ha List.not_mem_nil, fun h => Bool.noConfusion h⟩
  | succ attempts ih =>
    cases hready : ready (dev.readStatus d).1 with
    | true =>
      rw [waitStatus_of_ready hready]
      refine ⟨?_, List.forall_mem_singleton.mpr rfl, fun _ => ⟨[], _, rfl, hready⟩⟩
      change 1 ≤ 2 * (attempts + 1)
      omega
    | false =>
      obtain ⟨hlength, hquiet, hok⟩ := ih (dev.wait (dev.readStatus d).2)
      rw [waitStatus_of_busy hready]
      refine ⟨?_, List.forall_mem_cons.mpr ⟨rfl, List.forall_mem_cons.mpr ⟨rfl, hquiet⟩⟩, ?_⟩
      · calc ((waitStatus dev ready attempts (dev.wait (dev.readStatus d).2)).after _).trace.length
            = 2 + _ := Polled.length_after _ _
          _ ≤ 2 + 2 * attempts := Nat.add_le_add_left hlength 2
          _ = 2 * (attempts + 1) := Nat.add_comm 2 (2 * attempts)
      · intro h
        obtain ⟨before, v, htrace, hv⟩ := hok h
        refine ⟨[.status (dev.readStatus d).1, .wait] ++ before, v, ?_, hv⟩
        rw [Polled.after, htrace, List.append_assoc]

theorem waitStatus_ok {attempts : ℕ} {d : D} (h : (waitStatus dev ready attempts d).ok = true) :
    ∃ before v, (waitStatus dev ready attempts d).trace = before ++ [.status v] ∧ Quiet before ∧
      ready v = true := by
  obtain ⟨-, hquiet, hok⟩ := waitStatus_spec dev ready attempts d
  obtain ⟨before, v, htrace, hv⟩ := hok h
  rw [htrace] at hquiet
  exact ⟨before, v, htrace, fun a ha => hquiet a (List.mem_append_left _ ha), hv⟩

/-- After a wait for it the data register may be read. -/
theorem waitStatus_read {writable : BitVec 8 → Bool} {attempts : ℕ} {d : D} {t : List PortAccess}
    (h : (waitStatus dev ready attempts d).ok = true) (x : BitVec 8)
    (ht : Guarded ready writable t) :
    Guarded ready writable ((waitStatus dev ready attempts d).trace ++ .read x :: t) := by
  obtain ⟨before, v, htrace, hbefore, hv⟩ := waitStatus_ok h
  rw [htrace, List.append_assoc]
  exact hbefore.guarded (.read x hv ht)

/-- After a wait for that it may be written to. -/
theorem waitStatus_write {readable : BitVec 8 → Bool} {attempts : ℕ} {d : D} {t : List PortAccess}
    (h : (waitStatus dev ready attempts d).ok = true) (x : BitVec 8)
    (ht : Guarded readable ready t) :
    Guarded readable ready ((waitStatus dev ready attempts d).trace ++ .write x :: t) := by
  obtain ⟨before, v, htrace, hbefore, hv⟩ := waitStatus_ok h
  rw [htrace, List.append_assoc]
  exact hbefore.guarded (.write x hv ht)

end Waiting
end Framework
