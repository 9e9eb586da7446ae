import BareMetal.Framework.DepthFirst
import Mathlib.Algebra.BigOperators.Group.List.Basic
import Mathlib.Algebra.GroupWithZero.Nat
import Mathlib.Data.List.Chain
import Mathlib.Order.Bounds.Basic

/-!
# The heaviest path

Vertices have weights, and a path weighs what its vertices weigh together. In a finite acyclic
graph there are two ways to look for the heaviest path.

* From where it starts: the heaviest path from `v` is `v` and the heaviest one from any of its
  successors (`isGreatest_weightsFrom`).
* To where it ends: a table has for each vertex the weight of some path to it, at first of the
  vertex alone. Going through the vertices one after the other, every edge out of `v` carries
  the distance of `v` on to its end. With the vertices in an order that has each before its
  successors, the table is that of the heaviest paths in the end
  (`relaxAll_isGreatest_weightsInto`), and the largest distance met on the way is that of
  the heaviest path there is (`relaxAll_isGreatest`).

In any order, what the table has are weights of paths, whose vertices but the last have had
their turn, one after the other (`relaxAll_attained`).
-/

namespace Framework

open Relation

section Paths

variable {V : Type} (edge : V → V → Prop) (weight : V → ℕ)

/-- What the vertices of a path weigh together. -/
def pathWeight (path : List V) : ℕ := (path.map weight).sum

/-- The weights of the paths that end in `v`. -/
def weightsInto (v : V) : Set ℕ :=
  {n | ∃ path : List V, (path ++ [v]).IsChain edge ∧ n = pathWeight weight (path ++ [v])}

/-- The weights of the paths that start at `v`. -/
def weightsFrom (v : V) : Set ℕ :=
  {n | ∃ path : List V, (v :: path).IsChain edge ∧ n = pathWeight weight (v :: path)}

/-- The weights of the paths that start at one of several vertices. -/
def weightsFromAny (vs : List V) : Set ℕ := {n | ∃ v ∈ vs, n ∈ weightsFrom edge weight v}

variable {edge weight}

@[simp] theorem pathWeight_cons (v : V) (path : List V) :
    pathWeight weight (v :: path) = weight v + pathWeight weight path :=
  List.sum_cons

@[simp] theorem pathWeight_concat (path : List V) (v : V) :
    pathWeight weight (path ++ [v]) = pathWeight weight path + weight v := by
  unfold pathWeight
  rw [List.map_append, List.sum_append, List.map_singleton, List.sum_singleton]

@[simp] theorem pathWeight_zero (path : List V) : pathWeight (fun _ => 0) path = 0 := by
  induction path with
  | nil => rfl
  | cons v path ih => rw [pathWeight_cons, ih]

/-- Two weights at once. -/
theorem pathWeight_add (weight' : V → ℕ) (path : List V) :
    pathWeight (fun v => weight v + weight' v) path
      = pathWeight weight path + pathWeight weight' path :=
  List.sum_map_add

/-- Another weight for one vertex, which is at most once on a path, adds no more than that. -/
theorem pathWeight_update_le [DecidableEq V] {path : List V} (hpath : path.Nodup) (v : V) (n : ℕ) :
    pathWeight (Function.update weight v n) path ≤ pathWeight weight path + n := by
  induction path with
  | nil => exact Nat.zero_le _
  | cons u path ih =>
    obtain ⟨hu, hpath⟩ := List.nodup_cons.mp hpath
    rw [pathWeight_cons, pathWeight_cons]
    by_cases huv : u = v
    · subst huv
      -- it is not there again
      have hrest : pathWeight (Function.update weight u n) path = pathWeight weight path := by
        refine congrArg List.sum (List.map_congr_left fun w hw => ?_)
        exact Function.update_of_ne (ne_of_mem_of_not_mem hw hu) n weight
      rw [Function.update_self, hrest]
      omega
    · rw [Function.update_of_ne huv, Nat.add_assoc]
      exact Nat.add_le_add_left (ih hpath) _

/-- A path from a vertex without edges is that vertex. -/
theorem weightsFrom_of_forall_not {v : V} (h : ∀ w, ¬ edge v w) :
    weightsFrom edge weight v = {weight v} := by
  ext n
  refine ⟨?_, ?_⟩
  · rintro ⟨path, hpath, rfl⟩
    cases path with
    | nil => exact List.sum_singleton
    | cons w path => exact absurd (List.isChain_cons_cons.mp hpath).1 (h w)
  · rintro rfl
    exact ⟨[], List.isChain_singleton v, List.sum_singleton.symm⟩

/-- The heaviest path from one of several vertices. -/
theorem isGreatest_weightsFromAny {vs : List V} (hvs : vs ≠ []) {d : V → ℕ}
    (h : ∀ v ∈ vs, IsGreatest (weightsFrom edge weight v) (d v)) :
    IsGreatest (weightsFromAny edge weight vs) (largest (vs.map d)) := by
  refine ⟨?_, ?_⟩
  · obtain ⟨v, hv, heq⟩ := List.mem_map.mp (largest_mem (mt List.map_eq_nil_iff.mp hvs))
    exact ⟨v, hv, heq ▸ (h v hv).1⟩
  · rintro n ⟨v, hv, hn⟩
    exact ((h v hv).2 hn).trans (le_largest (List.mem_map_of_mem hv))

/-- A path with one more edge at its end. -/
theorem isChain_concat {path : List V} {v w : V} (hpath : (path ++ [v]).IsChain edge)
    (hedge : edge v w) : (path ++ [v] ++ [w]).IsChain edge := by
  rw [List.append_assoc]
  exact List.isChain_append_cons_cons.mpr ⟨hpath, hedge, List.isChain_singleton w⟩

/-- On a path of an acyclic graph every vertex reaches the later ones. -/
theorem pairwise_of_isChain {path : List V} (hpath : path.IsChain edge) :
    path.Pairwise (TransGen edge) :=
  List.isChain_iff_pairwise.mp (hpath.imp fun _ _ hedge => .single hedge)

theorem Acyclic.nodup_of_isChain (h : Acyclic edge) {path : List V} (hpath : path.IsChain edge) :
    path.Nodup := by
  refine (pairwise_of_isChain hpath).imp ?_
  rintro v w hreach rfl
  exact h v hreach

end Paths

section Graph

variable {V : Type} {succ : V → List V} {weight : V → ℕ}

/-! ### From the start -/

/-- **The heaviest path from `v`** goes on with the heaviest one from a successor. -/
theorem isGreatest_weightsFrom {v : V} {d : V → ℕ}
    (h : ∀ w ∈ succ v, IsGreatest (weightsFrom (Edge succ) weight w) (d w)) :
    IsGreatest (weightsFrom (Edge succ) weight v) (weight v + largest ((succ v).map d)) := by
  refine ⟨?_, ?_⟩
  -- a heaviest path goes on at a successor of the greatest weight, or stops if there is none
  · by_cases hnil : succ v = []
    · refine ⟨[], List.isChain_singleton v, ?_⟩
      rw [hnil]
      rfl
    · have hmem : largest ((succ v).map d) ∈ (succ v).map d :=
        largest_mem (mt List.map_eq_nil_iff.mp hnil)
      obtain ⟨w, hw, hmax⟩ := List.mem_map.mp hmem
      obtain ⟨path, hpath, hd⟩ := (h w hw).1
      refine ⟨w :: path, List.isChain_cons_cons.mpr ⟨hw, hpath⟩, ?_⟩
      rw [pathWeight_cons, ← hd, hmax]
  -- any other path takes some successor, whose weight is at most that
  · rintro n ⟨path, hpath, rfl⟩
    rw [pathWeight_cons]
    cases path with
    | nil => exact Nat.add_le_add_left (Nat.zero_le _) _
    | cons w path =>
      obtain ⟨hw, hpath⟩ := List.isChain_cons_cons.mp hpath
      refine Nat.add_le_add_left ?_ _
      calc pathWeight weight (w :: path)
          ≤ d w := (h w hw).2 ⟨path, hpath, rfl⟩
        _ ≤ largest ((succ v).map d) := le_largest (List.mem_map_of_mem hw)

/-! ### To the end -/

variable [DecidableEq V]

variable (weight) in
/-- The edges to some vertices carry on a distance. -/
def relaxEdges (n : ℕ) : List V → (V → ℕ) → V → ℕ
  | [], dist => dist
  | w :: ws, dist => relaxEdges n ws (Function.update dist w (max (dist w) (n + weight w)))

variable (succ weight) in
/-- One vertex after the other, with the largest distance so far. -/
def relaxAll : List V → (best : ℕ) → (dist : V → ℕ) → ℕ × (V → ℕ)
  | [], best, dist => (best, dist)
  | v :: vs, best, dist =>
    relaxAll vs (max best (dist v)) (relaxEdges weight (dist v) (succ v) dist)

theorem relaxEdges_apply (n : ℕ) (ws : List V) (dist : V → ℕ) (w : V) :
    relaxEdges weight n ws dist w = if w ∈ ws then max (dist w) (n + weight w) else dist w := by
  induction ws generalizing dist with
  | nil => rfl
  | cons u ws ih =>
    rw [relaxEdges, ih]
    by_cases hwu : w = u
    · subst hwu
      rw [Function.update_self, if_pos List.mem_cons_self, max_assoc, max_self, ite_self]
    · rw [Function.update_of_ne hwu]
      simp only [List.mem_cons, hwu, false_or]

theorem le_relaxEdges (n : ℕ) (ws : List V) (dist : V → ℕ) (w : V) :
    dist w ≤ relaxEdges weight n ws dist w := by
  rw [relaxEdges_apply]
  split
  · exact le_max_left _ _
  · exact le_rfl

/-! ### Any order -/

variable (succ weight) in
/-- What the table has for a vertex is the weight of a path to it, through vertices that have
had their turn, in this order. -/
def Attained (past : List V) (dist : V → ℕ) : Prop :=
  ∀ v, ∃ path : List V, path.Sublist past ∧ (path ++ [v]).IsChain (Edge succ) ∧
    dist v = pathWeight weight (path ++ [v])

omit [DecidableEq V] in
theorem attained_weight : Attained succ weight [] weight := fun v =>
  ⟨[], .slnil, List.isChain_singleton v, (List.sum_singleton).symm⟩

/-- One vertex more. -/
theorem Attained.relaxEdges {past : List V} {dist : V → ℕ} (h : Attained succ weight past dist)
    (u : V) : Attained succ weight (past ++ [u]) (relaxEdges weight (dist u) (succ u) dist) := by
  intro v
  have hold : ∃ path : List V, path.Sublist (past ++ [u]) ∧ (path ++ [v]).IsChain (Edge succ) ∧
      dist v = pathWeight weight (path ++ [v]) := by
    obtain ⟨path, hsub, hpath, hd⟩ := h v
    exact ⟨path, hsub.trans (List.sublist_append_left past [u]), hpath, hd⟩
  rw [relaxEdges_apply]
  split
  · rename_i hv
    rcases max_choice (dist v) (dist u + weight v) with heq | heq
    · rw [heq]
      exact hold
    · -- the path to `u` and the edge
      obtain ⟨path, hsub, hpath, hd⟩ := h u
      refine ⟨path ++ [u], hsub.append (.refl [u]), isChain_concat hpath hv, ?_⟩
      rw [heq, pathWeight_concat, hd]
  · exact hold

variable (succ weight) in
/-- The largest distance so far is the weight of a path through vertices that have had their
turn, in this order. -/
def BestAttained (past : List V) (best : ℕ) : Prop :=
  ∃ path : List V, path.Sublist past ∧ path.IsChain (Edge succ) ∧ best = pathWeight weight path

omit [DecidableEq V] in
theorem bestAttained_zero : BestAttained succ weight [] 0 := ⟨[], .slnil, .nil, rfl⟩

omit [DecidableEq V] in
theorem BestAttained.max {past : List V} {best : ℕ} {dist : V → ℕ}
    (hbest : BestAttained succ weight past best) (h : Attained succ weight past dist) (u : V) :
    BestAttained succ weight (past ++ [u]) (max best (dist u)) := by
  rcases max_choice best (dist u) with heq | heq
  · obtain ⟨path, hsub, hpath, hb⟩ := hbest
    exact ⟨path, hsub.trans (List.sublist_append_left past [u]), hpath, heq.trans hb⟩
  · obtain ⟨path, hsub, hpath, hd⟩ := h u
    exact ⟨path ++ [u], hsub.append (.refl [u]), hpath, heq.trans hd⟩

/-- **All is attained**, whatever the order. -/
theorem relaxAll_attained {past vs : List V} {best : ℕ} {dist : V → ℕ}
    (hbest : BestAttained succ weight past best) (h : Attained succ weight past dist) :
    BestAttained succ weight (past ++ vs) (relaxAll succ weight vs best dist).1 ∧
      Attained succ weight (past ++ vs) (relaxAll succ weight vs best dist).2 := by
  induction vs generalizing past best dist with
  | nil =>
    rw [List.append_nil]
    exact ⟨hbest, h⟩
  | cons v vs ih =>
    rw [List.append_cons, relaxAll]
    exact ih (hbest.max h v) (h.relaxEdges v)

theorem relaxAll_init_attained (vs : List V) :
    BestAttained succ weight vs (relaxAll succ weight vs 0 weight).1 ∧
      Attained succ weight vs (relaxAll succ weight vs 0 weight).2 :=
  relaxAll_attained bestAttained_zero attained_weight

/-! ### Each vertex before its successors -/

variable {vs : List V} {best : ℕ} {dist : V → ℕ} {u v w : V}

theorem le_relaxAll (vs : List V) (best : ℕ) (dist : V → ℕ) (v : V) :
    dist v ≤ (relaxAll succ weight vs best dist).2 v := by
  induction vs generalizing best dist with
  | nil => exact le_rfl
  | cons u vs ih => exact (le_relaxEdges _ _ _ v).trans (ih _ _)

theorem le_relaxAll_best (vs : List V) (best : ℕ) (dist : V → ℕ) :
    best ≤ (relaxAll succ weight vs best dist).1 := by
  induction vs generalizing best dist with
  | nil => exact le_rfl
  | cons u vs ih => exact (le_max_left _ _).trans (ih _ _)

/-- A vertex that is not to come is not the end of an edge to come. -/
theorem relaxAll_of_notMem (hvs : Ordered succ vs) (hv : v ∉ vs) :
    (relaxAll succ weight vs best dist).2 v = dist v := by
  induction vs generalizing best dist with
  | nil => rfl
  | cons u vs ih =>
    have hnot : v ∉ vs := fun hmem => hv (List.mem_cons_of_mem u hmem)
    have hsucc : v ∉ succ u := fun hmem => hnot (hvs.2.1 v hmem)
    rw [relaxAll, ih hvs.2.2 hnot, relaxEdges_apply, if_neg hsucc]

/-- The vertex whose turn it is has its last distance. -/
theorem relaxAll_head (hvs : Ordered succ (v :: vs)) :
    (relaxAll succ weight (v :: vs) best dist).2 v = dist v := by
  have hsucc : v ∉ succ v := fun hself => hvs.1 (hvs.2.1 v hself)
  rw [relaxAll, relaxAll_of_notMem hvs.2.2 hvs.1, relaxEdges_apply, if_neg hsucc]

/-- In the end every edge has carried on the distance. -/
theorem relaxAll_edge_le (hvs : Ordered succ vs) (hu : u ∈ vs) (hw : w ∈ succ u) :
    (relaxAll succ weight vs best dist).2 u + weight w
      ≤ (relaxAll succ weight vs best dist).2 w := by
  induction vs generalizing best dist with
  | nil => exact absurd hu List.not_mem_nil
  | cons v vs ih =>
    rcases List.mem_cons.mp hu with rfl | hu
    · -- its turn is the first: the edge carries on the distance, and none gets smaller later
      rw [relaxAll_head hvs, relaxAll]
      refine le_trans ?_ (le_relaxAll vs _ _ w)
      rw [relaxEdges_apply, if_pos hw]
      exact le_max_right _ _
    · exact ih hvs.2.2 hu

/-- In the end no distance of a vertex that had its turn is larger than the largest. -/
theorem relaxAll_le_best (hvs : Ordered succ vs) (hv : v ∈ vs) :
    (relaxAll succ weight vs best dist).2 v ≤ (relaxAll succ weight vs best dist).1 := by
  induction vs generalizing best dist with
  | nil => exact absurd hv List.not_mem_nil
  | cons u vs ih =>
    rcases List.mem_cons.mp hv with rfl | hv
    · rw [relaxAll_head hvs, relaxAll]
      exact (le_max_right _ _).trans (le_relaxAll_best vs _ _)
    · exact ih hvs.2.2 hv

/-- In the end no path is heavier than the distance of its end. -/
theorem pathWeight_le_relaxAll (hvs : Ordered succ vs) (hweight : ∀ v, weight v ≤ dist v)
    {path : List V} (hpath : (path ++ [v]).IsChain (Edge succ)) (hmem : ∀ u ∈ path, u ∈ vs) :
    pathWeight weight (path ++ [v]) ≤ (relaxAll succ weight vs best dist).2 v := by
  -- from the end of the path, edge by edge
  induction path using List.reverseRecOn generalizing v with
  | nil =>
    rw [List.nil_append, pathWeight_cons]
    exact (hweight v).trans (le_relaxAll vs best dist v)
  | append_singleton path u ih =>
    rw [List.append_assoc] at hpath
    obtain ⟨hpath, hedge, -⟩ := List.isChain_append_cons_cons.mp hpath
    have hle := ih hpath fun x hx => hmem x (List.mem_append_left _ hx)
    have hu : u ∈ vs := hmem u (List.mem_append_right _ (List.mem_singleton_self u))
    calc pathWeight weight (path ++ [u] ++ [v])
        = pathWeight weight (path ++ [u]) + weight v := pathWeight_concat _ v
      _ ≤ (relaxAll succ weight vs best dist).2 u + weight v := Nat.add_le_add_right hle _
      _ ≤ (relaxAll succ weight vs best dist).2 v := relaxAll_edge_le hvs hu hedge

omit [DecidableEq V] in
/-- All vertices of a path but the last have successors. -/
theorem succ_ne_nil_of_isChain {path : List V} (hpath : (path ++ [v]).IsChain (Edge succ))
    (hu : u ∈ path) : succ u ≠ [] := by
  obtain ⟨before, after, rfl⟩ := List.append_of_mem hu
  rw [List.append_assoc, List.cons_append] at hpath
  cases after with
  | nil => exact List.ne_nil_of_mem (List.isChain_append_cons_cons.mp hpath).2.1
  | cons w after => exact List.ne_nil_of_mem (List.isChain_append_cons_cons.mp hpath).2.1

/-- **The heaviest path to `v`**, if all vertices with successors are in the order. -/
theorem relaxAll_isGreatest_weightsInto (hvs : Ordered succ vs)
    (hall : ∀ v, succ v ≠ [] → v ∈ vs) (v : V) :
    IsGreatest (weightsInto (Edge succ) weight v) ((relaxAll succ weight vs 0 weight).2 v) := by
  refine ⟨?_, ?_⟩
  · obtain ⟨path, -, hpath, hd⟩ := (relaxAll_init_attained vs).2 v
    exact ⟨path, hpath, hd⟩
  · rintro n ⟨path, hpath, rfl⟩
    exact pathWeight_le_relaxAll hvs (fun _ => le_rfl) hpath
      fun u hu => hall u (succ_ne_nil_of_isChain hpath hu)

omit [DecidableEq V] in
/-- A path from a vertex of the order goes on in it. -/
theorem Ordered.path_mem (hvs : Ordered succ vs) {path : List V} (hv : v ∈ vs)
    (hpath : (v :: path).IsChain (Edge succ)) : ∀ u ∈ v :: path, u ∈ vs := by
  induction path generalizing v with
  | nil =>
    intro u hu
    rwa [List.mem_singleton.mp hu]
  | cons w path ih =>
    obtain ⟨hw, hpath⟩ := List.isChain_cons_cons.mp hpath
    exact List.forall_mem_cons.mpr ⟨hv, ih (hvs.succ_mem hv hw) hpath⟩

/-- **Both ways lead to the same path.** The largest distance met is the weight of the heaviest
path from any vertex. -/
theorem relaxAll_best_eq (hvs : Ordered succ vs) {d : V → ℕ}
    (hd : ∀ v ∈ vs, IsGreatest (weightsFrom (Edge succ) weight v) (d v)) :
    (relaxAll succ weight vs 0 weight).1 = largest (vs.map d) := by
  refine le_antisymm ?_ (largest_le ?_)
  · obtain ⟨path, hsub, hpath, hbest⟩ := (relaxAll_init_attained vs).1
    rw [hbest]
    cases path with
    | nil => exact Nat.zero_le _
    | cons v path =>
      have hv : v ∈ vs := hsub.subset List.mem_cons_self
      exact ((hd v hv).2 ⟨path, hpath, rfl⟩).trans (le_largest (List.mem_map_of_mem hv))
  · intro n hn
    obtain ⟨v, hv, rfl⟩ := List.mem_map.mp hn
    obtain ⟨path, hpath, heq⟩ := (hd v hv).1
    have hmem := hvs.path_mem hv hpath
    -- the same path, from its end
    obtain ⟨path', w, hconcat⟩ : ∃ path' w, v :: path = path' ++ [w] :=
      (List.eq_nil_or_concat' (v :: path)).resolve_left (List.cons_ne_nil v path)
    rw [hconcat] at hpath hmem heq
    obtain ⟨hpath', hw⟩ := List.forall_mem_append.mp hmem
    calc d v
        = pathWeight weight (path' ++ [w]) := heq
      _ ≤ (relaxAll succ weight vs 0 weight).2 w :=
          pathWeight_le_relaxAll hvs (fun _ => le_rfl) hpath hpath'
      _ ≤ (relaxAll succ weight vs 0 weight).1 :=
          relaxAll_le_best hvs (hw w (List.mem_singleton_self w))

end Graph
end Framework
