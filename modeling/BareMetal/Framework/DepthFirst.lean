import BareMetal.Framework.CallGraph
import Mathlib.Data.List.Nodup

/-!
# Depth-first search with three marks

A search visits the vertices of a graph. A vertex is unseen at first, active while its
successors are visited, and done when they are. Meeting an active one means that the search
has come back to a vertex it is still at, so there is a cycle, and the search gives up: all
visits that are under way return at once and leave their vertices active.

* `visit_isSome`: a visit returns. Every visit inside it has one vertex less that is
  unseen.
* `visit_spec`: while no cycle was met, the active vertices are those on the way to the
  present one, so meeting one closes a cycle; and each vertex that is done got so
  after its successors.
* `searchAll_found_iff`: the search finds a cycle exactly if there is one that a root leads
  to.
* `searchAll_ordered`: otherwise the vertices, latest first, are ordered, each before its
  successors.
-/

namespace Framework

open Relation

/-- How far a search is with a vertex. -/
inductive Mark where
  | unseen
  | active
  | done
  deriving DecidableEq

/-- A search: the marks, and the vertices that are done, latest first. -/
structure Search (V : Type) where
  mark : V → Mark
  finished : List V

section Search

variable {V : Type} [DecidableEq V] (succ : V → List V)

namespace Search

/-- Nothing is seen yet. -/
def init : Search V := ⟨fun _ => .unseen, []⟩

/-- A visit of `v` begins. -/
def enter (s : Search V) (v : V) : Search V := { s with mark := Function.update s.mark v .active }

/-- A visit of `v` ends. -/
def finish (s : Search V) (v : V) : Search V :=
  ⟨Function.update s.mark v .done, v :: s.finished⟩

@[simp] theorem enter_mark_self (s : Search V) (v : V) : (s.enter v).mark v = .active :=
  Function.update_self ..

@[simp] theorem enter_mark_of_ne (s : Search V) {u v : V} (h : u ≠ v) :
    (s.enter v).mark u = s.mark u := Function.update_of_ne h ..

@[simp] theorem finish_mark_self (s : Search V) (v : V) : (s.finish v).mark v = .done :=
  Function.update_self ..

@[simp] theorem finish_mark_of_ne (s : Search V) {u v : V} (h : u ≠ v) :
    (s.finish v).mark u = s.mark u := Function.update_of_ne h ..

end Search

/-- The successors of a vertex one after the other, given what a visit does. The flag says
that a cycle was met. -/
def visitSuccs (visit : V → Search V → Option (Bool × Search V)) :
    List V → Search V → Option (Bool × Search V)
  | [], s => some (false, s)
  | w :: ws, s =>
    match s.mark w with
    | .unseen => (visit w s).bind fun r => if r.1 then some r else visitSuccs visit ws r.2
    | .active => some (true, s)
    | .done => visitSuccs visit ws s

/-- A visit; `fuel` bounds the depth. -/
def visit : (fuel : ℕ) → V → Search V → Option (Bool × Search V)
  | 0, _, _ => none
  | fuel + 1, v, s => (visitSuccs (visit fuel) (succ v) (s.enter v)).bind fun r =>
      some (if r.1 then r else (false, r.2.finish v))

/-- Visits of the roots that are unseen when their turn comes. -/
def searchAll (fuel : ℕ) : List V → Bool × Search V → Option (Bool × Search V)
  | [], r => some r
  | v :: vs, r =>
    if r.2.mark v = .unseen then
      (visit succ fuel v r.2).bind fun r' => searchAll fuel vs (r.1 || r'.1, r'.2)
    else searchAll fuel vs r

variable {succ} {visit' : V → Search V → Option (Bool × Search V)}

/-! ### Induction over the successors -/

omit [DecidableEq V] in
/-- The next successor is unseen and visited, or it is active, or it is done. -/
theorem visitSuccs_cons_cases {w : V} {ws : List V} {s : Search V} {r : Bool × Search V}
    (h : visitSuccs visit' (w :: ws) s = some r) :
    (s.mark w = .unseen ∧ ∃ r', visit' w s = some r' ∧
        (r'.1 = true ∧ r = r' ∨ r'.1 = false ∧ visitSuccs visit' ws r'.2 = some r)) ∨
      (s.mark w = .active ∧ r = (true, s)) ∨
      (s.mark w = .done ∧ visitSuccs visit' ws s = some r) := by
  rw [visitSuccs] at h
  cases hw : s.mark w with
  | unseen =>
    rw [hw] at h
    obtain ⟨r', hr', hrest⟩ := Option.bind_eq_some_iff.mp h
    refine .inl ⟨rfl, r', hr', ?_⟩
    cases hfound : r'.1 with
    | true =>
      rw [if_pos hfound] at hrest
      exact .inl ⟨rfl, (Option.some.inj hrest).symm⟩
    | false =>
      rw [if_neg (by simp [hfound])] at hrest
      exact .inr ⟨rfl, hrest⟩
  | active =>
    rw [hw] at h
    exact .inr (.inl ⟨rfl, (Option.some.inj h).symm⟩)
  | done =>
    rw [hw] at h
    exact .inr (.inr ⟨rfl, h⟩)

/-- A visit enters its vertex, visits the successors, and finishes the vertex unless a cycle
was met. -/
theorem visit_succ_cases {fuel : ℕ} {v : V} {s : Search V} {r : Bool × Search V}
    (h : visit succ (fuel + 1) v s = some r) :
    ∃ r', visitSuccs (visit succ fuel) (succ v) (s.enter v) = some r' ∧
      (r'.1 = true ∧ r = r' ∨ r'.1 = false ∧ r = (false, r'.2.finish v)) := by
  obtain ⟨r', hr', hrest⟩ := Option.bind_eq_some_iff.mp h
  refine ⟨r', hr', ?_⟩
  rw [Option.some_inj] at hrest
  cases hfound : r'.1 with
  | true =>
    rw [if_pos hfound] at hrest
    exact .inl ⟨rfl, hrest.symm⟩
  | false =>
    rw [if_neg (by simp [hfound])] at hrest
    exact .inr ⟨rfl, hrest.symm⟩

/-! ### A visit returns -/

/-- What was seen stays seen, and only what was unseen gets done. -/
structure KeepsSeen (s s' : Search V) : Prop where
  unseen : ∀ u, s'.mark u = .unseen → s.mark u = .unseen
  finished : ∃ new, s'.finished = new ++ s.finished ∧ ∀ u ∈ new, s.mark u = .unseen

omit [DecidableEq V] in
theorem KeepsSeen.refl (s : Search V) : KeepsSeen s s :=
  ⟨fun _ hu => hu, [], rfl, fun _ hu => absurd hu List.not_mem_nil⟩

omit [DecidableEq V] in
theorem KeepsSeen.trans {s s₁ s' : Search V} (h₁ : KeepsSeen s s₁) (h : KeepsSeen s₁ s') :
    KeepsSeen s s' := by
  obtain ⟨new₁, heq₁, hnew₁⟩ := h₁.finished
  obtain ⟨new, heq, hnew⟩ := h.finished
  refine ⟨fun u hu => h₁.unseen u (h.unseen u hu), new ++ new₁, ?_, ?_⟩
  · rw [heq, heq₁, List.append_assoc]
  · intro u hu
    exact (List.mem_append.mp hu).elim (fun hu => h₁.unseen u (hnew u hu)) (hnew₁ u)

theorem keepsSeen_enter (s : Search V) (v : V) : KeepsSeen s (s.enter v) := by
  refine ⟨fun u hu => ?_, [], rfl, fun _ hu => absurd hu List.not_mem_nil⟩
  by_cases huv : u = v
  · rw [huv, Search.enter_mark_self] at hu
    exact absurd hu (by decide)
  · rwa [Search.enter_mark_of_ne s huv] at hu

/-- The end of the visit of a vertex that was unseen at its beginning. -/
theorem KeepsSeen.finish {s s' : Search V} {v : V} (h : KeepsSeen s s')
    (hunseen : s.mark v = .unseen) : KeepsSeen s (s'.finish v) := by
  obtain ⟨new, heq, hnew⟩ := h.finished
  refine ⟨fun u hu => ?_, v :: new, congrArg (v :: ·) heq, List.forall_mem_cons.mpr ⟨hunseen, hnew⟩⟩
  by_cases huv : u = v
  · rw [huv, Search.finish_mark_self] at hu
    exact absurd hu (by decide)
  · rw [Search.finish_mark_of_ne s' huv] at hu
    exact h.unseen u hu

omit [DecidableEq V] in
theorem visitSuccs_keepsSeen
    (hvisit : ∀ w s r, visit' w s = some r → s.mark w = .unseen → KeepsSeen s r.2)
    {ws : List V} {s : Search V} {r : Bool × Search V} (h : visitSuccs visit' ws s = some r) :
    KeepsSeen s r.2 := by
  induction ws generalizing s with
  | nil =>
    obtain rfl := Option.some.inj h
    exact .refl s
  | cons w ws ih =>
    rcases visitSuccs_cons_cases h with
      ⟨hw, r', hr', ⟨-, rfl⟩ | ⟨-, hrest⟩⟩ | ⟨-, rfl⟩ | ⟨-, hrest⟩
    · exact hvisit w s _ hr' hw
    · exact (hvisit w s r' hr' hw).trans (ih hrest)
    · exact .refl s
    · exact ih hrest

theorem visit_keepsSeen {fuel : ℕ} {v : V} {s : Search V} {r : Bool × Search V}
    (h : visit succ fuel v s = some r) (hunseen : s.mark v = .unseen) : KeepsSeen s r.2 := by
  induction fuel generalizing v s r with
  | zero => exact absurd h (by simp [visit])
  | succ fuel ih =>
    obtain ⟨r', hr', hcases⟩ := visit_succ_cases h
    have hseen : KeepsSeen s r'.2 :=
      (keepsSeen_enter s v).trans (visitSuccs_keepsSeen (fun w s r => ih) hr')
    rcases hcases with ⟨-, rfl⟩ | ⟨-, rfl⟩
    · exact hseen
    · exact hseen.finish hunseen

/-- A visit leaves its vertex seen. -/
theorem visit_seen {fuel : ℕ} {v : V} {s : Search V} {r : Bool × Search V}
    (h : visit succ fuel v s = some r) : r.2.mark v ≠ .unseen := by
  cases fuel with
  | zero => exact absurd h (by simp [visit])
  | succ fuel =>
    obtain ⟨r', hr', ⟨-, rfl⟩ | ⟨-, rfl⟩⟩ := visit_succ_cases h
    · have hseen := visitSuccs_keepsSeen (fun _ _ _ => visit_keepsSeen) hr'
      intro hmark
      have hactive := hseen.unseen v hmark
      rw [Search.enter_mark_self] at hactive
      exact absurd hactive (by decide)
    · change (r'.2.finish v).mark v ≠ .unseen
      rw [Search.finish_mark_self]
      decide

/-- A visit that met a cycle does not get its vertex done. -/
theorem visit_notMem_of_found {fuel : ℕ} {v : V} {s : Search V} {r : Bool × Search V}
    (h : visit succ fuel v s = some r) (hfound : r.1 = true) :
    ∃ new, r.2.finished = new ++ s.finished ∧ v ∉ new := by
  cases fuel with
  | zero => exact absurd h (by simp [visit])
  | succ fuel =>
    obtain ⟨r', hr', ⟨-, rfl⟩ | ⟨-, rfl⟩⟩ := visit_succ_cases h
    · have hseen := visitSuccs_keepsSeen (fun _ _ _ => visit_keepsSeen) hr'
      obtain ⟨new, heq, hnew⟩ := hseen.finished
      refine ⟨new, heq, fun hv => ?_⟩
      -- what is new was unseen, and the vertex was active
      have hmark := hnew v hv
      rw [Search.enter_mark_self] at hmark
      exact absurd hmark (by decide)
    · exact Bool.noConfusion hfound

theorem searchAll_keepsSeen {fuel : ℕ} {vs : List V} {r r' : Bool × Search V}
    (h : searchAll succ fuel vs r = some r') : KeepsSeen r.2 r'.2 := by
  induction vs generalizing r with
  | nil =>
    obtain rfl := Option.some.inj h
    exact .refl r.2
  | cons v vs ih =>
    rw [searchAll] at h
    split at h
    · rename_i hunseen
      obtain ⟨r₁, hr₁, hrest⟩ := Option.bind_eq_some_iff.mp h
      exact (visit_keepsSeen hr₁ hunseen).trans (ih (r := (r.1 || r₁.1, r₁.2)) hrest)
    · exact ih h

/-- The unseen ones among some vertices. -/
def Search.unseen (vertices : Finset V) (s : Search V) : Finset V :=
  vertices.filter fun v => s.mark v = .unseen

variable {vertices : Finset V}

omit [DecidableEq V] in
theorem KeepsSeen.unseen_subset {s s' : Search V} (h : KeepsSeen s s') :
    s'.unseen vertices ⊆ s.unseen vertices := by
  intro u hu
  obtain ⟨hmem, hunseen⟩ := Finset.mem_filter.mp hu
  exact Finset.mem_filter.mpr ⟨hmem, h.unseen u hunseen⟩

/-- Entering an unseen vertex makes the unseen ones fewer. -/
theorem card_unseen_enter_lt {s : Search V} {v : V} (hv : v ∈ vertices)
    (hunseen : s.mark v = .unseen) :
    ((s.enter v).unseen vertices).card < (s.unseen vertices).card := by
  refine Finset.card_lt_card ((Finset.ssubset_iff_of_subset
    (keepsSeen_enter s v).unseen_subset).mpr ⟨v, Finset.mem_filter.mpr ⟨hv, hunseen⟩, ?_⟩)
  intro hmem
  have hmark := (Finset.mem_filter.mp hmem).2
  rw [Search.enter_mark_self] at hmark
  exact absurd hmark (by decide)

/-- **A visit returns**, with a level of fuel for each unseen vertex. -/
theorem visit_isSome (hclosed : ∀ v ∈ vertices, ∀ w ∈ succ v, w ∈ vertices) {fuel : ℕ} {v : V}
    {s : Search V} (hv : v ∈ vertices) (hunseen : s.mark v = .unseen)
    (hfuel : (s.unseen vertices).card ≤ fuel) : ∃ r, visit succ fuel v s = some r := by
  induction fuel generalizing v s with
  | zero =>
    have hmem : v ∈ s.unseen vertices := Finset.mem_filter.mpr ⟨hv, hunseen⟩
    exact absurd (Finset.card_pos.mpr ⟨v, hmem⟩) (by omega)
  | succ fuel ih =>
    have hlt := card_unseen_enter_lt hv hunseen
    -- the loop over any of the successors
    have hloop : ∀ ws : List V, (∀ w ∈ ws, w ∈ vertices) → ∀ t : Search V,
        (t.unseen vertices).card ≤ fuel → ∃ r, visitSuccs (visit succ fuel) ws t = some r := by
      intro ws
      induction ws with
      | nil => exact fun _ t _ => ⟨(false, t), rfl⟩
      | cons w ws ihws =>
        intro hws t ht
        obtain ⟨hw, hws⟩ := List.forall_mem_cons.mp hws
        rw [visitSuccs]
        cases hmark : t.mark w with
        | unseen =>
          obtain ⟨r', hr'⟩ := ih hw hmark ht
          have hcard : (r'.2.unseen vertices).card ≤ (t.unseen vertices).card :=
            Finset.card_le_card (visit_keepsSeen hr' hmark).unseen_subset
          obtain ⟨r, hr⟩ := ihws hws r'.2 (hcard.trans ht)
          simp only [hr', Option.bind_some, hr]
          split
          · exact ⟨r', rfl⟩
          · exact ⟨r, rfl⟩
        | active => exact ⟨(true, t), rfl⟩
        | done => exact ihws hws t ht
    obtain ⟨r, hr⟩ := hloop (succ v) (hclosed v hv) (s.enter v) (by omega)
    exact ⟨_, by rw [visit, hr, Option.bind_some]⟩

theorem searchAll_isSome (hclosed : ∀ v ∈ vertices, ∀ w ∈ succ v, w ∈ vertices) {fuel : ℕ}
    {vs : List V} {r : Bool × Search V} (hvs : ∀ v ∈ vs, v ∈ vertices)
    (hfuel : (r.2.unseen vertices).card ≤ fuel) : ∃ r', searchAll succ fuel vs r = some r' := by
  induction vs generalizing r with
  | nil => exact ⟨r, rfl⟩
  | cons v vs ih =>
    obtain ⟨hv, hvs⟩ := List.forall_mem_cons.mp hvs
    rw [searchAll]
    by_cases hunseen : r.2.mark v = .unseen
    · obtain ⟨r', hr'⟩ := visit_isSome hclosed hv hunseen hfuel
      have hcard : (r'.2.unseen vertices).card ≤ (r.2.unseen vertices).card :=
        Finset.card_le_card (visit_keepsSeen hr' hunseen).unseen_subset
      rw [if_pos hunseen, hr', Option.bind_some]
      exact ih hvs (hcard.trans hfuel)
    · rw [if_neg hunseen]
      exact ih hvs hfuel

/-! ### Finishing order -/

/-- `v` has `w` among its successors. -/
def Edge (succ : V → List V) (v w : V) : Prop := w ∈ succ v

/-- Each vertex is listed once, and before its successors, which are all listed. -/
def Ordered (succ : V → List V) : List V → Prop
  | [] => True
  | v :: vs => v ∉ vs ∧ (∀ w ∈ succ v, w ∈ vs) ∧ Ordered succ vs

section Ordered

variable {vs : List V} {u v w : V}

omit [DecidableEq V] in
theorem Ordered.nodup (h : Ordered succ vs) : vs.Nodup := by
  induction vs with
  | nil => exact List.nodup_nil
  | cons v vs ih => exact List.nodup_cons.mpr ⟨h.1, ih h.2.2⟩

omit [DecidableEq V] in
theorem Ordered.succ_mem (h : Ordered succ vs) (hv : v ∈ vs) (hw : w ∈ succ v) : w ∈ vs := by
  induction vs with
  | nil => exact absurd hv List.not_mem_nil
  | cons u vs ih =>
    rcases List.mem_cons.mp hv with rfl | hv
    · exact List.mem_cons_of_mem v (h.2.1 w hw)
    · exact List.mem_cons_of_mem u (ih h.2.2 hv)

omit [DecidableEq V] in
theorem Ordered.reach_mem (h : Ordered succ vs) (hv : v ∈ vs)
    (hreach : ReflTransGen (Edge succ) v w) : w ∈ vs := by
  induction hreach with
  | refl => exact hv
  | tail _ hedge ih => exact h.succ_mem ih hedge

omit [DecidableEq V] in
/-- No listed vertex reaches itself: there is no way back up the list. -/
theorem Ordered.acyclic (h : Ordered succ vs) (hv : v ∈ vs) : ¬ TransGen (Edge succ) v v := by
  induction vs with
  | nil => exact absurd hv List.not_mem_nil
  | cons u vs ih =>
    rcases List.mem_cons.mp hv with rfl | hv
    · intro hcycle
      obtain ⟨w, hedge, hback⟩ := TransGen.head'_iff.mp hcycle
      exact h.1 (h.2.2.reach_mem (h.2.1 w hedge) hback)
    · exact ih h.2.2 hv

/-- A vertex is found earlier in the list than its successors. -/
theorem Ordered.idxOf_lt (h : Ordered succ vs) (hv : v ∈ vs) (hw : w ∈ succ v) :
    vs.idxOf v < vs.idxOf w := by
  induction vs with
  | nil => exact absurd hv List.not_mem_nil
  | cons u vs ih =>
    have hne {x : V} (hx : x ∈ vs) : u ≠ x := fun heq => h.1 (heq ▸ hx)
    rcases List.mem_cons.mp hv with rfl | hv
    · rw [List.idxOf_cons_self, List.idxOf_cons_ne _ (hne (h.2.1 w hw))]
      exact Nat.zero_lt_succ _
    · rw [List.idxOf_cons_ne _ (hne hv), List.idxOf_cons_ne _ (hne (h.2.2.succ_mem hv hw))]
      exact Nat.succ_lt_succ (ih h.2.2 hv)

end Ordered

/-! ### What a visit does -/

/-- The list has the vertices that are done, in order. -/
structure Search.Sound (succ : V → List V) (s : Search V) : Prop where
  done_iff : ∀ v, s.mark v = .done ↔ v ∈ s.finished
  ordered : Ordered succ s.finished

/-- `s'` comes after `s` in a search that has met no cycle: with the same vertices active, and
some more done, all of which have the property `P`. -/
structure Search.Grows (succ : V → List V) (P : V → Prop) (s s' : Search V) : Prop where
  sound : s'.Sound succ
  active_iff : ∀ u, s'.mark u = .active ↔ s.mark u = .active
  finished : ∃ new, s'.finished = new ++ s.finished ∧ ∀ u ∈ new, P u

namespace Search.Grows

variable {P Q : V → Prop} {s s₁ s' : Search V}

omit [DecidableEq V] in
theorem refl (h : s.Sound succ) : Grows succ P s s :=
  ⟨h, fun _ => Iff.rfl, [], rfl, fun _ hu => absurd hu List.not_mem_nil⟩

omit [DecidableEq V] in
theorem mono (h : Grows succ P s s') (hPQ : ∀ u, P u → Q u) : Grows succ Q s s' := by
  obtain ⟨new, heq, hnew⟩ := h.finished
  exact ⟨h.sound, h.active_iff, new, heq, fun u hu => hPQ u (hnew u hu)⟩

omit [DecidableEq V] in
theorem trans (h₁ : Grows succ P s s₁) (h : Grows succ P s₁ s') : Grows succ P s s' := by
  obtain ⟨new₁, heq₁, hnew₁⟩ := h₁.finished
  obtain ⟨new, heq, hnew⟩ := h.finished
  refine ⟨h.sound, fun u => (h.active_iff u).trans (h₁.active_iff u), new ++ new₁, ?_, ?_⟩
  · rw [heq, heq₁, List.append_assoc]
  · intro u hu
    exact (List.mem_append.mp hu).elim (hnew u) (hnew₁ u)

omit [DecidableEq V] in
/-- What is done stays done. -/
theorem done (h : Grows succ P s s') (hs : s.Sound succ) {v : V} (hv : s.mark v = .done) :
    s'.mark v = .done := by
  obtain ⟨new, heq, -⟩ := h.finished
  rw [h.sound.done_iff, heq]
  exact List.mem_append_right _ ((hs.done_iff v).mp hv)

end Search.Grows

/-- The vertices that are active lead to `v`. -/
def Search.Leads (succ : V → List V) (s : Search V) (v : V) : Prop :=
  ∀ u, s.mark u = .active → ReflTransGen (Edge succ) u v

/-- What a visit of `v` that returned has done: it met a cycle that `v` leads to, or it got `v`
done and nothing but what `v` reaches. -/
def VisitSpec (succ : V → List V) (v : V) (s : Search V) (r : Bool × Search V) : Prop :=
  (r.1 = true → ReachesCycle (Edge succ) v) ∧
    (r.1 = false → s.Grows succ (ReflTransGen (Edge succ) v) r.2 ∧ r.2.mark v = .done)

omit [DecidableEq V] in
/-- The successors of an active vertex, given that visits do what they should. -/
theorem visitSuccs_spec (hvisit : ∀ w s r, visit' w s = some r → s.mark w = .unseen →
      s.Sound succ → s.Leads succ w → VisitSpec succ w s r)
    {v : V} {ws : List V} {s : Search V} {r : Bool × Search V} (hws : ∀ w ∈ ws, w ∈ succ v)
    (hs : s.Sound succ) (hleads : s.Leads succ v) (h : visitSuccs visit' ws s = some r) :
    (r.1 = true → ReachesCycle (Edge succ) v) ∧
      (r.1 = false →
        s.Grows succ (TransGen (Edge succ) v) r.2 ∧ ∀ w ∈ ws, r.2.mark w = .done) := by
  -- on the successors that are left; the search grows with each of them
  induction ws generalizing s with
  | nil =>
    obtain rfl := Option.some.inj h
    refine ⟨fun hfound => Bool.noConfusion hfound, fun _ => ⟨.refl hs, ?_⟩⟩
    exact fun w hw => absurd hw List.not_mem_nil
  | cons w ws ih =>
    obtain ⟨hedge, hws⟩ := List.forall_mem_cons.mp hws
    rcases visitSuccs_cons_cases h with ⟨hw, r', hr', hcases⟩ | ⟨hw, rfl⟩ | ⟨hw, hrest⟩
    · -- a fresh successor is visited
      have hleadsw : s.Leads succ w := fun u hu => (hleads u hu).tail hedge
      obtain ⟨hcycle, hdone⟩ := hvisit w s r' hr' hw hs hleadsw
      rcases hcases with ⟨hfound, rfl⟩ | ⟨hfound, hrest⟩
      · exact ⟨fun h => (hcycle h).head (.single hedge),
          fun hnot => Bool.noConfusion (hfound.symm.trans hnot)⟩
      · obtain ⟨hgrows, hmark⟩ := hdone hfound
        have hgrows : s.Grows succ (TransGen (Edge succ) v) r'.2 :=
          hgrows.mono fun u hu => .head' hedge hu
        obtain ⟨hcycle', hdone'⟩ := ih hws hgrows.sound
          (fun u hu => hleads u ((hgrows.active_iff u).mp hu)) hrest
        refine ⟨hcycle', fun hnot => ?_⟩
        obtain ⟨hgrows', hall⟩ := hdone' hnot
        exact ⟨hgrows.trans hgrows',
          List.forall_mem_cons.mpr ⟨hgrows'.done hgrows.sound hmark, hall⟩⟩
    · -- an active successor leads back to the vertex
      exact ⟨fun _ => ⟨v, .refl, .head' hedge (hleads w hw)⟩, fun hnot => Bool.noConfusion hnot⟩
    · -- a successor that is done stays so
      obtain ⟨hcycle, hdone⟩ := ih hws hs hleads hrest
      refine ⟨hcycle, fun hnot => ?_⟩
      obtain ⟨hgrows, hall⟩ := hdone hnot
      exact ⟨hgrows, List.forall_mem_cons.mpr ⟨hgrows.done hs hw, hall⟩⟩

/-- Entering an unseen vertex keeps the list and the way to the present vertex. -/
theorem sound_enter {s : Search V} {v : V} (hs : s.Sound succ) (hunseen : s.mark v = .unseen) :
    (s.enter v).Sound succ := by
  refine ⟨fun u => ?_, hs.ordered⟩
  by_cases huv : u = v
  · subst huv
    rw [Search.enter_mark_self]
    refine ⟨fun h => absurd h (by decide), fun h => ?_⟩
    have hdone := (hs.done_iff u).mpr h
    rw [hunseen] at hdone
    exact absurd hdone (by decide)
  · rw [Search.enter_mark_of_ne s huv]
    exact hs.done_iff u

/-- Finishing a vertex whose successors are done. -/
theorem grows_finish {s s' : Search V} {v : V} (hunseen : s.mark v = .unseen)
    (h : (s.enter v).Grows succ (TransGen (Edge succ) v) s')
    (hdone : ∀ w ∈ succ v, s'.mark w = .done) :
    s.Grows succ (ReflTransGen (Edge succ) v) (s'.finish v) := by
  have hactive : s'.mark v = .active := (h.active_iff v).mpr (Search.enter_mark_self s v)
  obtain ⟨new, heq, hnew⟩ := h.finished
  refine ⟨⟨fun u => ?_, ?_, ?_, h.sound.ordered⟩, fun u => ?_, v :: new, ?_, ?_⟩
  · -- the vertex is the one that is marked and put on the list
    by_cases huv : u = v
    · subst huv
      exact ⟨fun _ => List.mem_cons_self, fun _ => Search.finish_mark_self s' u⟩
    · rw [Search.finish_mark_of_ne s' huv, h.sound.done_iff]
      exact ⟨List.mem_cons_of_mem v, fun hu => (List.mem_cons.mp hu).resolve_left huv⟩
  · -- it was active until now, so it is not on the list twice
    intro hmem
    have hmark := (h.sound.done_iff v).mpr hmem
    rw [hactive] at hmark
    exact absurd hmark (by decide)
  · exact fun w hw => (h.sound.done_iff w).mp (hdone w hw)
  · -- it is no longer active, as before the visit
    by_cases huv : u = v
    · subst huv
      rw [Search.finish_mark_self, hunseen]
      decide
    · rw [Search.finish_mark_of_ne s' huv, h.active_iff, Search.enter_mark_of_ne s huv]
  · exact congrArg (v :: ·) heq
  · exact List.forall_mem_cons.mpr ⟨.refl, fun u hu => (hnew u hu).to_reflTransGen⟩

/-- **A visit.** From an unseen vertex that all active ones lead to, it meets a cycle that the
vertex leads to, or it gets the vertex done with vertices that it reaches. -/
theorem visit_spec {fuel : ℕ} {v : V} {s : Search V} {r : Bool × Search V}
    (h : visit succ fuel v s = some r) (hunseen : s.mark v = .unseen) (hs : s.Sound succ)
    (hleads : s.Leads succ v) : VisitSpec succ v s r := by
  induction fuel generalizing v s r with
  | zero => exact absurd h (by simp [visit])
  | succ fuel ih =>
    obtain ⟨r', hr', hcases⟩ := visit_succ_cases h
    -- the vertex is active itself now, and leads to itself
    have hleads' : (s.enter v).Leads succ v := by
      intro u hu
      by_cases huv : u = v
      · rw [huv]
      · rw [Search.enter_mark_of_ne s huv] at hu
        exact hleads u hu
    obtain ⟨hcycle, hdone⟩ := visitSuccs_spec (fun w s r => ih) (fun _ hw => hw)
      (sound_enter hs hunseen) hleads' hr'
    rcases hcases with ⟨hfound, rfl⟩ | ⟨hfound, rfl⟩
    · exact ⟨hcycle, fun hnot => Bool.noConfusion (hfound.symm.trans hnot)⟩
    · obtain ⟨hgrows, hall⟩ := hdone hfound
      refine ⟨fun hnot => Bool.noConfusion hnot, fun _ => ⟨grows_finish hunseen hgrows hall, ?_⟩⟩
      exact Search.finish_mark_self r'.2 v

/-! ### Started from many roots -/

section Roots

variable {fuel : ℕ} {vs : List V} {s : Search V} {r : Bool × Search V}

/-- A cycle that was met is not forgotten. -/
theorem searchAll_found (h : searchAll succ fuel vs (true, s) = some r) : r.1 = true := by
  induction vs generalizing s with
  | nil => exact (congrArg Prod.fst (Option.some.inj h)).symm
  | cons v vs ih =>
    rw [searchAll] at h
    split at h
    · obtain ⟨r', -, hrest⟩ := Option.bind_eq_some_iff.mp h
      exact ih hrest
    · exact ih h

/-- **The roots.** With no vertex active, the visits of the roots meet a cycle that one of them
leads to, or they get the roots done, and nothing but what the roots reach. -/
theorem searchAll_spec (h : searchAll succ fuel vs (false, s) = some r) (hs : s.Sound succ)
    (hidle : ∀ u, s.mark u ≠ .active) :
    (r.1 = true → ∃ v ∈ vs, ReachesCycle (Edge succ) v) ∧
      (r.1 = false → s.Grows succ (fun u => ∃ v ∈ vs, ReflTransGen (Edge succ) v u) r.2 ∧
        ∀ v ∈ vs, r.2.mark v = .done) := by
  induction vs generalizing s with
  | nil =>
    obtain rfl := Option.some.inj h
    refine ⟨fun hfound => Bool.noConfusion hfound, fun _ => ⟨.refl hs, ?_⟩⟩
    exact fun v hv => absurd hv List.not_mem_nil
  | cons v vs ih =>
    rw [searchAll] at h
    cases hmark : s.mark v with
    | unseen =>
      rw [if_pos hmark] at h
      obtain ⟨r', hr', hrest⟩ := Option.bind_eq_some_iff.mp h
      obtain ⟨hcycle, hdone⟩ := visit_spec hr' hmark hs fun u hu => absurd hu (hidle u)
      rw [Bool.false_or] at hrest
      cases hfound : r'.1 with
      | true =>
        -- vertices are left active, but all that is still claimed is that the cycle is reported
        rw [hfound] at hrest
        exact ⟨fun _ => ⟨v, List.mem_cons_self, hcycle hfound⟩,
          fun hnot => Bool.noConfusion ((searchAll_found hrest).symm.trans hnot)⟩
      | false =>
        rw [hfound] at hrest
        obtain ⟨hgrows, hdonev⟩ := hdone hfound
        obtain ⟨hcycle', hdone'⟩ := ih hrest hgrows.sound
          fun u hu => hidle u ((hgrows.active_iff u).mp hu)
        refine ⟨fun h => List.exists_mem_cons_of_exists (hcycle' h), fun hnot => ?_⟩
        obtain ⟨hgrows', hall⟩ := hdone' hnot
        refine ⟨(hgrows.mono fun u hu => ⟨v, List.mem_cons_self, hu⟩).trans
          (hgrows'.mono ?_), List.forall_mem_cons.mpr ⟨hgrows'.done hgrows.sound hdonev, hall⟩⟩
        rintro u ⟨w, hw, hreach⟩
        exact ⟨w, List.mem_cons_of_mem v hw, hreach⟩
    | active => exact absurd hmark (hidle v)
    | done =>
      rw [if_neg (by rw [hmark]; decide)] at h
      obtain ⟨hcycle, hdone⟩ := ih h hs hidle
      refine ⟨fun h => List.exists_mem_cons_of_exists (hcycle h), fun hnot => ?_⟩
      obtain ⟨hgrows, hall⟩ := hdone hnot
      refine ⟨hgrows.mono ?_, List.forall_mem_cons.mpr ⟨hgrows.done hs hmark, hall⟩⟩
      rintro u ⟨w, hw, hreach⟩
      exact ⟨w, List.mem_cons_of_mem v hw, hreach⟩

omit [DecidableEq V] in
theorem sound_init : (Search.init : Search V).Sound succ :=
  ⟨fun _ => ⟨fun h => Mark.noConfusion h, fun h => absurd h List.not_mem_nil⟩, trivial⟩

/-- **The order.** A search that met no cycle leaves the roots and all that they reach, each
once and before its successors. -/
theorem searchAll_ordered (h : searchAll succ fuel vs (false, .init) = some r)
    (hfound : r.1 = false) :
    r.2.Sound succ ∧ ∀ u, u ∈ r.2.finished ↔ ∃ v ∈ vs, ReflTransGen (Edge succ) v u := by
  obtain ⟨-, hdone⟩ := searchAll_spec h sound_init fun _ hu => Mark.noConfusion hu
  obtain ⟨hgrows, hroots⟩ := hdone hfound
  refine ⟨hgrows.sound, fun u => ⟨fun hu => ?_, ?_⟩⟩
  · obtain ⟨new, heq, hnew⟩ := hgrows.finished
    rw [heq, Search.init, List.append_nil] at hu
    exact hnew u hu
  · rintro ⟨v, hv, hreach⟩
    exact hgrows.sound.ordered.reach_mem ((hgrows.sound.done_iff v).mp (hroots v hv)) hreach

/-- **Cycles.** The search finds a cycle exactly if a root leads to one. -/
theorem searchAll_found_iff (h : searchAll succ fuel vs (false, .init) = some r) :
    r.1 = true ↔ ∃ v ∈ vs, ReachesCycle (Edge succ) v := by
  refine ⟨(searchAll_spec h sound_init fun _ hu => Mark.noConfusion hu).1, ?_⟩
  rintro ⟨v, hv, u, hreach, hcycle⟩
  by_contra hfound
  obtain ⟨hsound, hmem⟩ := searchAll_ordered h (Bool.eq_false_iff.mpr hfound)
  -- a vertex that is listed reaches no cycle
  exact hsound.ordered.acyclic ((hmem u).mpr ⟨v, hv, hreach⟩) hcycle

/-- **The first root**: what gets done before it is only what it reaches, and it is not done
later. -/
theorem searchAll_first {v : V} (h : searchAll succ fuel (v :: vs) (false, .init) = some r) :
    ∃ first later, r.2.finished = later ++ first ∧ v ∉ later ∧
      ∀ u ∈ first, ReflTransGen (Edge succ) v u := by
  have hunseen : (Search.init : Search V).mark v = .unseen := rfl
  rw [searchAll, if_pos hunseen] at h
  obtain ⟨r', hr', hrest⟩ := Option.bind_eq_some_iff.mp h
  obtain ⟨later, heq, hlater⟩ := (searchAll_keepsSeen hrest).finished
  have hseen := visit_seen hr'
  cases hfound : r'.1 with
  | true =>
    -- the visit of the root met a cycle
    obtain ⟨new, hnew, hv⟩ := visit_notMem_of_found hr' hfound
    refine ⟨[], later ++ new, ?_, ?_, fun u hu => absurd hu List.not_mem_nil⟩
    · change r.2.finished = later ++ r'.2.finished at heq
      rw [heq, hnew, Search.init]
      simp only [List.append_nil]
    · intro hmem
      exact (List.mem_append.mp hmem).elim (fun hmem => hseen (hlater v hmem)) hv
  | false =>
    obtain ⟨-, hdone⟩ := visit_spec hr' hunseen sound_init fun _ hu => Mark.noConfusion hu
    obtain ⟨new, hnew, hreach⟩ := (hdone hfound).1.finished
    refine ⟨r'.2.finished, later, heq, fun hmem => hseen (hlater v hmem), ?_⟩
    rw [hnew, Search.init, List.append_nil]
    exact hreach

end Roots

end Search

end Framework
