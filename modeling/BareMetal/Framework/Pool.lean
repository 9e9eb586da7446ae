import BareMetal.Framework.Machine
import Mathlib.Data.Finset.Card

/-!
# Draining a pool

A call that hands out the members of a finite pool, one each time, and refuses when the
pool is empty: frames of an allocator, buffers of a driver, tickets. `Draws` says what one
call does. From it follows what any number of calls does (`Draws.drain`): as many calls
succeed as the pool has members, they hand out each member once, and the next one is
refused and changes nothing.

Which member a call picks is left open, so the picking rule may depend on anything in the
state (a hint, a free list, a rotating cursor).
-/

namespace Framework

variable {State Label Out α : Type} [DecidableEq α]

/-- The call `l` draws from `pool`: it is answered by `give a` for a member `a`, which
leaves the pool, or by `refuse` when the pool is empty. `Inv` is what the states have to
satisfy for it. -/
structure Draws (m : Machine State Label Out) (l : Label) (Inv : State → Prop)
    (pool : State → Finset α) (give : α → Out) (refuse : Out) : Prop where
  /-- From a pool with members. -/
  hit : ∀ s, Inv s → (pool s).Nonempty → ∃ a ∈ pool s, (m.step s l).1 = give a ∧
    Inv (m.step s l).2 ∧ pool (m.step s l).2 = (pool s).erase a
  /-- From an empty pool. -/
  miss : ∀ s, Inv s → pool s = ∅ → m.step s l = (refuse, s)

variable {m : Machine State Label Out} {l : Label} {Inv : State → Prop}
  {pool : State → Finset α} {give : α → Out} {refuse : Out}

/-- **Draining.** As many calls as the pool has members hand out each member once, and the
call after them is refused. -/
theorem Draws.drain (hdraws : Draws m l Inv pool give refuse) {s : State} (hs : Inv s) {n : ℕ}
    (hn : (pool s).card = n) :
    ∃ as : List α, (m.exec s (List.replicate n l)).1 = as.map (fun a => (l, give a)) ∧
      as.Nodup ∧ as.toFinset = pool s ∧
      m.step (m.exec s (List.replicate n l)).2 l
        = (refuse, (m.exec s (List.replicate n l)).2) := by
  -- each call lowers the number of members by one
  induction n generalizing s with
  | zero =>
    have hempty := Finset.card_eq_zero.mp hn
    exact ⟨[], rfl, List.nodup_nil, hempty.symm, hdraws.miss s hs hempty⟩
  | succ n ih =>
    obtain ⟨a, ha, hout, hinv, hpool⟩ := hdraws.hit s hs (Finset.card_pos.mp (by omega))
    have hcard : (pool (m.step s l).2).card = n := by
      rw [hpool, Finset.card_erase_of_mem ha, hn, Nat.add_sub_cancel]
    obtain ⟨as, hexec, hnodup, hset, hlast⟩ := ih hinv hcard
    refine ⟨a :: as, ?_, ?_, ?_, hlast⟩
    · change (l, (m.step s l).1) :: (m.exec (m.step s l).2 (List.replicate n l)).1 = _
      rw [hexec, hout]
      rfl
    · -- the rest is drawn from a pool without the first one
      refine List.nodup_cons.mpr ⟨?_, hnodup⟩
      intro hmem
      rw [← List.mem_toFinset, hset, hpool] at hmem
      exact Finset.notMem_erase a (pool s) hmem
    · rw [List.toFinset_cons, hset, hpool, Finset.insert_erase ha]

end Framework
