import Mathlib.Data.Finset.Card
import Mathlib.Data.List.MinMax
import Mathlib.Data.List.Perm.Basic
import Mathlib.Logic.Relation
import Mathlib.Order.Nat

/-!
# Finite acyclic call graphs

A tool that walks a call graph by plain recursion, from a function to its callees, comes
to an end exactly because no function can reach itself. How deep it gets is bounded by
the number of functions: `descendants` is the set of all functions that one can reach,
and it gets smaller along every call (`card_descendants_lt_of_calls`), since a callee
reaches no more than its caller and does not reach itself.

The second part is about the number such a walk computes, the largest of a list.
-/

namespace Framework

open Relation

/-! ### Descendants -/

section Descendants

variable {V : Type} {nodes : Finset V} {calls : V → V → Prop}

/-- No function reaches itself. -/
def Acyclic (calls : V → V → Prop) : Prop := ∀ v, ¬ TransGen calls v v

/-- The calls lead from `v` to a function that reaches itself. -/
def ReachesCycle (calls : V → V → Prop) (v : V) : Prop :=
  ∃ u, ReflTransGen calls v u ∧ TransGen calls u u

theorem ReachesCycle.head {v w : V} (h : ReachesCycle calls w) (hvw : ReflTransGen calls v w) :
    ReachesCycle calls v := by
  obtain ⟨u, hu, hcycle⟩ := h
  exact ⟨u, hvw.trans hu, hcycle⟩

theorem ReachesCycle.not_acyclic {v : V} (h : ReachesCycle calls v) : ¬ Acyclic calls := by
  obtain ⟨u, -, hcycle⟩ := h
  exact fun hacyclic => hacyclic u hcycle

/-- A rank that goes down along every call leaves no way back. -/
theorem acyclic_of_rank (rank : V → ℕ) (h : ∀ v w, calls v w → rank w < rank v) :
    Acyclic calls := by
  have hreach : ∀ v w, TransGen calls v w → rank w < rank v := by
    intro v w hvw
    induction hvw with
    | single hcall => exact h _ _ hcall
    | tail _ hcall ih => exact (h _ _ hcall).trans ih
  exact fun v hv => lt_irrefl _ (hreach v v hv)

/-- The functions that `v` reaches by one call or more. -/
noncomputable def descendants (nodes : Finset V) (calls : V → V → Prop) (v : V) : Finset V :=
  @Finset.filter V (TransGen calls v) (Classical.decPred _) nodes

theorem mem_descendants {v w : V} :
    w ∈ descendants nodes calls v ↔ w ∈ nodes ∧ TransGen calls v w := by
  let _ : DecidablePred (TransGen calls v) := Classical.decPred _
  exact Finset.mem_filter

/-- **Descendants get fewer along a call.** -/
theorem card_descendants_lt_of_calls (hacyclic : Acyclic calls) {v w : V} (hcall : calls v w)
    (hw : w ∈ nodes) : (descendants nodes calls w).card < (descendants nodes calls v).card := by
  refine Finset.card_lt_card ((Finset.ssubset_iff_of_subset ?_).mpr ⟨w, ?_, ?_⟩)
  · intro u hu
    obtain ⟨hnode, hreach⟩ := mem_descendants.mp hu
    exact mem_descendants.mpr ⟨hnode, .head hcall hreach⟩
  · exact mem_descendants.mpr ⟨hw, .single hcall⟩
  · -- the callee itself is what the callee does not reach
    exact fun hself => hacyclic w (mem_descendants.mp hself).2

/-- A function has fewer descendants than there are functions. -/
theorem card_descendants_lt (hacyclic : Acyclic calls) {v : V} (hv : v ∈ nodes) :
    (descendants nodes calls v).card < nodes.card := by
  refine Finset.card_lt_card ((Finset.ssubset_iff_of_subset ?_).mpr ⟨v, hv, ?_⟩)
  · intro u hu
    exact (mem_descendants.mp hu).1
  · exact fun hself => hacyclic v (mem_descendants.mp hself).2

end Descendants

/-! ### The largest of a list -/

/-- The largest number of a list, and zero if there is none. -/
def largest (ns : List ℕ) : ℕ := ns.foldr max 0

theorem le_largest {ns : List ℕ} {n : ℕ} (h : n ∈ ns) : n ≤ largest ns :=
  List.le_max_of_le' 0 h le_rfl

theorem largest_le {ns : List ℕ} {n : ℕ} (h : ∀ m ∈ ns, m ≤ n) : largest ns ≤ n :=
  List.max_le_of_forall_le ns n h

/-- The order does not matter. -/
theorem largest_perm {ns ms : List ℕ} (h : ns.Perm ms) : largest ns = largest ms :=
  h.foldr_eq 0

/-- The largest of a list is in it. -/
theorem largest_mem {ns : List ℕ} (h : ns ≠ []) : largest ns ∈ ns := by
  induction ns with
  | nil => exact absurd rfl h
  | cons n ns ih =>
    change max n (largest ns) ∈ n :: ns
    by_cases hns : ns = []
    · rw [hns]
      exact List.mem_singleton.mpr (Nat.max_zero n)
    · rcases max_choice n (largest ns) with hn | hl
      · rw [hn]
        exact List.mem_cons_self
      · rw [hl]
        exact List.mem_cons_of_mem n (ih hns)

/-- What the largest bounds, one of the list bounds. -/
theorem le_largest_map_iff {α : Type} {f : α → ℕ} {as : List α} (h : as ≠ []) {n : ℕ} :
    n ≤ largest (as.map f) ↔ ∃ a ∈ as, n ≤ f a := by
  constructor
  · intro hn
    obtain ⟨a, ha, heq⟩ := List.mem_map.mp (largest_mem (mt List.map_eq_nil_iff.mp h))
    exact ⟨a, ha, hn.trans_eq heq.symm⟩
  · rintro ⟨a, ha, hn⟩
    exact hn.trans (le_largest (List.mem_map_of_mem ha))

end Framework
