import BareMetal.DiagnosticTools.CycleCheck
import BareMetal.Framework.HeaviestPath

/-!
# The two worst cases

The tool computes the worst case of the stack twice. `main` goes through the functions in
topological order and adds up the frame sizes along the calls, in `dist`: it is the
relaxation of `BareMetal.Framework.HeaviestPath` (`relax_simulates`). And
`get_subtree_depth` goes from a function down to its callees
(`depthOf_isGreatest`). Both find the heaviest path, so the largest distance is the largest
depth, if the order is what it is meant to be and has all functions. That is so for all frame
sizes and every order of iteration exactly if no child's name has a NUL in it, and a function
that calls a name without a node leads to every function (`worstCase_correct_iff`).
-/

namespace BareMetal

open Framework Relation

/-! ### The relaxation -/

/-- A node that is called at the distance `topologicalDist`. -/
def GraphCi.relaxFrom (topologicalDist : ℕ) (tempChild : GraphCi) : GraphCi :=
  { tempChild with dist := max tempChild.dist (u32 (topologicalDist + tempChild.frameSize)) }

/-- The loop over the children of a function at the distance `topologicalDist`. A name that is
not in the map ends the program. -/
def relaxChildren (topologicalDist : ℕ) : List String → UMap → Option UMap
  | [], uMap => some uMap
  | child :: children, uMap =>
    if child ∈ uMap then
      relaxChildren topologicalDist children (uMap.update child (.relaxFrom topologicalDist))
    else none

/-- The relaxation in `main`, with `biggest_dist`. -/
def relax : List String → (biggestDist : ℕ) → UMap → Option (ℕ × UMap)
  | [], biggestDist, uMap => some (biggestDist, uMap)
  | graph :: order, biggestDist, uMap =>
    let topologicalDist := (uMap.node graph).dist
    (relaxChildren topologicalDist (uMap.node graph).children uMap).bind
      (relax order (max biggestDist topologicalDist))

namespace UMap

/-- What `main` computes before it asks for the stack sizes: `biggest_dist`, and the map with
the distances. -/
def worstCase (later : List String) (uMap : UMap) : Option (ℕ × UMap) :=
  (uMap.cycleCheck later).bind fun r => relax r.2.vec.reverse 0 r.2.uMap

/-- The callees of a function. -/
def children (uMap : UMap) (f : String) : List String := (uMap.node f).children

/-- The frame size of a function. -/
def frameSize (uMap : UMap) (f : String) : ℕ := (uMap.node f).frameSize

/-- The distance of a function. -/
def dist (uMap : UMap) (f : String) : ℕ := (uMap.node f).dist

theorem edge_children (uMap : UMap) : Edge uMap.children = uMap.Calls := by
  ext f g
  exact calls_iff.symm

/-- `uMap'` is `uMap` with other distances. -/
structure Redistanced (uMap uMap' : UMap) : Prop extends SameGraph uMap uMap' where
  mem_of : ∀ f ∈ uMap', f ∈ uMap

namespace Redistanced

variable {uMap uMap₁ uMap' : UMap}

theorem refl (uMap : UMap) : Redistanced uMap uMap := ⟨.refl uMap, fun _ hf => hf⟩

theorem trans (h₁ : Redistanced uMap uMap₁) (h : Redistanced uMap₁ uMap') :
    Redistanced uMap uMap' :=
  ⟨h₁.toSameGraph.trans h.toSameGraph, fun f hf => h₁.mem_of f (h.mem_of f hf)⟩

theorem mem_iff (h : Redistanced uMap uMap') {f : String} : f ∈ uMap' ↔ f ∈ uMap :=
  ⟨h.mem_of f, h.mem f⟩

end Redistanced

theorem redistanced_update (uMap : UMap) (topologicalDist : ℕ) (child : String) :
    Redistanced uMap (uMap.update child (.relaxFrom topologicalDist)) :=
  ⟨sameGraph_update rfl rfl, fun _ hf => mem_update.mp hf⟩

end UMap

section Relax

variable {uMap : UMap} {order : List String} {biggestDist topologicalDist : ℕ}

/-! ### Where it returns -/

/-- The loop over the children returns if they are all in the map. -/
theorem relaxChildren_isSome (topologicalDist : ℕ) {children : List String}
    (h : ∀ g ∈ children, g ∈ uMap) :
    ∃ uMap', relaxChildren topologicalDist children uMap = some uMap' ∧
      uMap.Redistanced uMap' := by
  induction children generalizing uMap with
  | nil => exact ⟨uMap, rfl, .refl uMap⟩
  | cons g children ih =>
    obtain ⟨hg, hchildren⟩ := List.forall_mem_cons.mp h
    have hstep := uMap.redistanced_update topologicalDist g
    obtain ⟨uMap', heq, hdist⟩ := ih fun g' hg' => hstep.mem g' (hchildren g' hg')
    exact ⟨uMap', by rw [relaxChildren, if_pos hg, heq], hstep.trans hdist⟩

theorem relaxChildren_mem {children : List String} {uMap' : UMap}
    (h : relaxChildren topologicalDist children uMap = some uMap') :
    ∀ g ∈ children, g ∈ uMap := by
  induction children generalizing uMap with
  | nil => exact fun g hg => absurd hg List.not_mem_nil
  | cons g children ih =>
    rw [relaxChildren] at h
    split at h
    · rename_i hg
      have hstep := uMap.redistanced_update topologicalDist g
      exact List.forall_mem_cons.mpr ⟨hg, fun g' hg' => hstep.mem_of g' (ih h g' hg')⟩
    · exact absurd h (Option.some_ne_none _).symm

/-- **The relaxation returns** if all callees of the functions in the order are in the map. -/
theorem relax_isSome (biggestDist : ℕ) (h : ∀ f ∈ order, ∀ g ∈ uMap.children f, g ∈ uMap) :
    ∃ r, relax order biggestDist uMap = some r ∧ uMap.Redistanced r.2 := by
  induction order generalizing biggestDist uMap with
  | nil => exact ⟨(biggestDist, uMap), rfl, .refl uMap⟩
  | cons f order ih =>
    obtain ⟨hf, horder⟩ := List.forall_mem_cons.mp h
    obtain ⟨uMap₁, heq₁, hdist₁⟩ := relaxChildren_isSome (uMap.dist f) hf
    have h₁ : ∀ f' ∈ order, ∀ g ∈ uMap₁.children f', g ∈ uMap₁ := by
      intro f' hf' g hg
      rw [UMap.children, hdist₁.children_eq] at hg
      exact hdist₁.mem g (horder f' hf' g hg)
    obtain ⟨r, heq, hdist⟩ := ih (max biggestDist (uMap.dist f)) h₁
    refine ⟨r, ?_, hdist₁.trans hdist⟩
    exact (congrArg (Option.bind · _) heq₁).trans heq

/-- One function of the order: its callees are in the map, and only distances change. -/
theorem relax_cons_cases {f : String} {r : ℕ × UMap}
    (h : relax (f :: order) biggestDist uMap = some r) :
    (∀ g ∈ uMap.children f, g ∈ uMap) ∧ ∃ uMap₁,
      relaxChildren (uMap.dist f) (uMap.children f) uMap = some uMap₁ ∧ uMap.Redistanced uMap₁ ∧
        relax order (max biggestDist (uMap.dist f)) uMap₁ = some r := by
  obtain ⟨uMap₁, heq, hrest⟩ := Option.bind_eq_some_iff.mp h
  have hmem : ∀ g ∈ uMap.children f, g ∈ uMap := relaxChildren_mem heq
  obtain ⟨uMap₁', heq', hdist⟩ := relaxChildren_isSome (uMap.dist f) hmem
  obtain rfl : uMap₁ = uMap₁' := Option.some.inj (heq.symm.trans heq')
  exact ⟨hmem, uMap₁, heq, hdist, hrest⟩

/-- And it returns only then. -/
theorem relax_mem {r : ℕ × UMap} (h : relax order biggestDist uMap = some r) :
    ∀ f ∈ order, ∀ g ∈ uMap.children f, g ∈ uMap := by
  induction order generalizing biggestDist uMap with
  | nil => exact fun f hf => absurd hf List.not_mem_nil
  | cons f order ih =>
    obtain ⟨hf, uMap₁, -, hdist, hrest⟩ := relax_cons_cases h
    refine List.forall_mem_cons.mpr ⟨hf, fun f' hf' g hg => hdist.mem_of g ?_⟩
    refine ih hrest f' hf' g ?_
    rwa [UMap.children, hdist.children_eq]

/-- Only distances change. -/
theorem relax_redistanced {r : ℕ × UMap} (h : relax order biggestDist uMap = some r) :
    uMap.Redistanced r.2 := by
  obtain ⟨r', hr', hdist⟩ := relax_isSome biggestDist (relax_mem h)
  obtain rfl : r = r' := Option.some.inj (h.symm.trans hr')
  exact hdist

/-! ### What it computes -/

/-- The loop over the children, where no sum is too large. -/
theorem relaxChildren_simulates {children : List String} {uMap' : UMap}
    (h : relaxChildren topologicalDist children uMap = some uMap')
    (hsmall : ∀ g ∈ children, topologicalDist + uMap.frameSize g < 2 ^ 32) :
    uMap'.dist = relaxEdges uMap.frameSize topologicalDist children uMap.dist := by
  -- on the children: an update leaves the frame sizes as they are
  induction children generalizing uMap with
  | nil =>
    obtain rfl := Option.some.inj h
    rfl
  | cons g children ih =>
    have hg := (List.forall_mem_cons.mp (relaxChildren_mem h)).1
    obtain ⟨hsmallg, hsmall⟩ := List.forall_mem_cons.mp hsmall
    rw [relaxChildren, if_pos hg] at h
    have hstep := uMap.redistanced_update topologicalDist g
    have hframe : (uMap.update g (.relaxFrom topologicalDist)).frameSize = uMap.frameSize :=
      funext hstep.frameSize_eq
    have hdist : (uMap.update g (.relaxFrom topologicalDist)).dist
        = Function.update uMap.dist g (max (uMap.dist g) (topologicalDist + uMap.frameSize g)) := by
      refine (UMap.field_update hg GraphCi.dist).trans (congrArg (Function.update uMap.dist g) ?_)
      exact congrArg (max (uMap.dist g)) (Nat.mod_eq_of_lt hsmallg)
    rw [ih h (by rwa [hframe]), hframe, hdist, relaxEdges]

/-- **The relaxation is the one of heaviest paths**, where no path is too heavy. -/
theorem relax_simulates {succ : String → List String} {weight : String → ℕ}
    (hsmall : ∀ path : List String, path.IsChain (Edge succ) → pathWeight weight path < 2 ^ 32)
    {past : List String} {r : ℕ × UMap} (h : relax order biggestDist uMap = some r)
    (hsucc : uMap.children = succ) (hweight : uMap.frameSize = weight)
    (hattained : Attained succ weight past uMap.dist) :
    (r.1, r.2.dist) = relaxAll succ weight order biggestDist uMap.dist := by
  induction order generalizing biggestDist uMap past with
  | nil =>
    obtain rfl := Option.some.inj h
    rfl
  | cons f order ih =>
    subst hsucc hweight
    obtain ⟨-, uMap₁, heq₁, hdist, hrest⟩ := relax_cons_cases h
    -- a sum is the weight of a path
    have hsum : ∀ g ∈ uMap.children f, uMap.dist f + uMap.frameSize g < 2 ^ 32 := by
      intro g hg
      obtain ⟨path, -, hpath, hd⟩ := hattained f
      rw [hd, ← pathWeight_concat]
      exact hsmall _ (isChain_concat hpath hg)
    have hdist₁ : uMap₁.dist
        = relaxEdges uMap.frameSize (uMap.dist f) (uMap.children f) uMap.dist :=
      relaxChildren_simulates heq₁ hsum
    rw [relaxAll, ← hdist₁]
    exact ih hrest (funext hdist.children_eq) (funext hdist.frameSize_eq)
      (hdist₁ ▸ hattained.relaxEdges f)

end Relax

/-- A node of another frame size, as it is read. -/
def GraphCi.weigh (node : GraphCi) (frameSize : ℕ) : GraphCi :=
  { node with frameSize := frameSize, dist := frameSize, col := .white }

/-! ### The depth -/

namespace UMap

variable {uMap : UMap}

/-- The depth is the frame size and the depth of the deepest callee. -/
theorem depthOf_eq (h : uMap.IsCallGraph) {f : String} (hf : f ∈ uMap) :
    uMap.depthOf f
      = u64 (uMap.frameSize f + largest ((uMap.children f).map uMap.depthOf)) := by
  have hlookup := lookup_eq_node hf
  have hchild : ∀ g ∈ (uMap.node f).children,
      (uMap.lookup g).bind (getSubtreeDepth uMap uMap.fuel) = some (uMap.depthOf g) :=
    fun g hg => subtreeDepth_eq h (h.closed f g (calls_iff.mpr hg))
  have hdepth : getSubtreeDepth uMap uMap.fuel (uMap.node f) = some (uMap.depthOf f) := by
    have hsub := subtreeDepth_eq h hf
    rwa [subtreeDepth, hlookup, Option.bind_some] at hsub
  -- one level of fuel more
  have hmore := getSubtreeDepth_mono (Nat.le_succ _) hdepth
  rw [getSubtreeDepth, maxDepth_eq hchild, Nat.zero_max] at hmore
  exact (Option.some.inj hmore).symm

/-- The loop returns only if it can tell the depth of every child. -/
theorem isSome_of_maxDepth {depth : String → Option ℕ} {children : List String}
    {kernelDist d : ℕ} (hd : maxDepth depth children kernelDist = some d) :
    ∀ g ∈ children, ∃ dg, depth g = some dg := by
  induction children generalizing kernelDist with
  | nil => exact fun g hg => absurd hg List.not_mem_nil
  | cons g children ih =>
    obtain ⟨dg, hdg, hrest⟩ := Option.bind_eq_some_iff.mp hd
    exact List.forall_mem_cons.mpr ⟨⟨dg, hdg⟩, ih hrest⟩

/-- The walk returns only if all callees are in the map. -/
theorem mem_of_subtreeDepth {f g : String} {d : ℕ} (hd : uMap.subtreeDepth f = some d)
    (hcall : uMap.Calls f g) : g ∈ uMap := by
  rw [subtreeDepth, lookup_eq_node (mem_of_calls hcall), Option.bind_some] at hd
  cases hfuel : uMap.fuel with
  | zero =>
    rw [hfuel] at hd
    exact absurd hd (Option.some_ne_none d).symm
  | succ fuel =>
    rw [hfuel] at hd
    obtain ⟨kernelDist, hmax, -⟩ := Option.bind_eq_some_iff.mp hd
    obtain ⟨dg, hdg⟩ := isSome_of_maxDepth hmax g (calls_iff.mp hcall)
    obtain ⟨node, hnode, -⟩ := Option.bind_eq_some_iff.mp hdg
    exact AList.lookup_isSome.mp (Option.isSome_iff_exists.mpr ⟨node, hnode⟩)

/-- **The depth is the weight of the heaviest path from a function**, where no path is too
heavy. -/
theorem depthOf_isGreatest (h : uMap.IsCallGraph)
    (hsmall : ∀ path : List String, path.IsChain uMap.Calls →
      pathWeight uMap.frameSize path < 2 ^ 32) {f : String} (hf : f ∈ uMap) :
    IsGreatest (weightsFrom uMap.Calls uMap.frameSize f) (uMap.depthOf f) := by
  -- on the number of functions that the function comes to
  induction hcard : (descendants uMap.functions uMap.Calls f).card using Nat.strong_induction_on
    generalizing f with
  | _ n ih =>
    subst hcard
    have hchild : ∀ g ∈ uMap.children f,
        IsGreatest (weightsFrom (Edge uMap.children) uMap.frameSize g) (uMap.depthOf g) := by
      intro g hg
      have hcall : uMap.Calls f g := calls_iff.mpr hg
      have hmem := h.closed f g hcall
      rw [edge_children]
      exact ih _ (card_descendants_lt_of_calls h.acyclic hcall (mem_functions.mpr hmem)) hmem rfl
    have hgreatest := isGreatest_weightsFrom hchild
    rw [edge_children] at hgreatest
    obtain ⟨path, hpath, hweight⟩ := hgreatest.1
    have hlt : uMap.frameSize f + largest ((uMap.children f).map uMap.depthOf) < 2 ^ 64 :=
      calc uMap.frameSize f + largest ((uMap.children f).map uMap.depthOf)
          = pathWeight uMap.frameSize (f :: path) := hweight
        _ < 2 ^ 32 := hsmall _ hpath
        _ < 2 ^ 64 := Nat.pow_lt_pow_right (by decide) (by decide)
    rw [depthOf_eq h hf, u64, Nat.mod_eq_of_lt hlt]
    exact hgreatest

/-! ### Both -/

/-- The map as the files are read, with paths that are not too heavy. -/
structure Sized (uMap : UMap) : Prop where
  white : uMap.AllWhite
  dist_eq : uMap.dist = uMap.frameSize
  small : ∀ path : List String, path.IsChain uMap.Calls →
    pathWeight uMap.frameSize path < 2 ^ 32

/-- What `main` should compute: every function has the distance of the heaviest path to it, and
the largest distance is the largest depth. The functions are those of the map in the end, in
which every walk from a function returns. -/
def WorstCaseCorrect (uMap : UMap) (later : List String) : Prop :=
  ∃ biggestDist uMap', uMap.worstCase later = some (biggestDist, uMap') ∧
    (∀ f ∈ uMap, f ∈ uMap') ∧
    (∀ f ∈ uMap', IsGreatest (weightsInto uMap.Calls uMap.frameSize f) (uMap'.dist f)) ∧
    (∀ f ∈ uMap', uMap'.subtreeDepth f = some (uMap'.depthOf f)) ∧
    biggestDist = largest (uMap'.keys.map uMap'.depthOf)

/-- The same functions with the same calls, in any order of iteration and of any sizes. -/
structure SameCalls (uMap uMap' : UMap) : Prop where
  keys_perm : uMap'.keys.Perm uMap.keys
  children_eq : uMap'.children = uMap.children

namespace SameCalls

variable {uMap' : UMap}

theorem calls_eq (h : SameCalls uMap uMap') : uMap'.Calls = uMap.Calls := by
  rw [← edge_children, ← edge_children, h.children_eq]

theorem mem_iff (h : SameCalls uMap uMap') {f : String} : f ∈ uMap' ↔ f ∈ uMap :=
  h.keys_perm.mem_iff

theorem trans {uMap₁ : UMap} (h₁ : SameCalls uMap uMap₁) (h : SameCalls uMap₁ uMap') :
    SameCalls uMap uMap' :=
  ⟨h.keys_perm.trans h₁.keys_perm, h.children_eq.trans h₁.children_eq⟩

end SameCalls

section Checked

variable {later roots : List String} {r : Bool × Walk}

/-- **The relaxation along the order of the check**, if all callees are there. -/
theorem Checked.worstCase_eq (h : uMap.Checked later roots r) (hsized : uMap.Sized)
    (hcallees : ∀ f g, uMap.Calls f g → g ∈ r.2.uMap) :
    ∃ biggestDist uMap', uMap.worstCase later = some (biggestDist, uMap') ∧
      r.2.uMap.Redistanced uMap' ∧
      (biggestDist, uMap'.dist)
        = relaxAll uMap.children uMap.frameSize r.2.search.finished 0 uMap.frameSize := by
  -- the check changes colours only
  have hgraph := h.recolored.sameGraph
  have hchildren : r.2.uMap.children = uMap.children := funext hgraph.children_eq
  have hframe : r.2.uMap.frameSize = uMap.frameSize := funext hgraph.frameSize_eq
  have hdist : r.2.uMap.dist = uMap.frameSize := by
    rw [← hsized.dist_eq]
    exact funext fun f => (congrArg GraphCi.dist (h.recolored.uncolored_eq f) :)
  have hmem : ∀ f ∈ r.2.vec.reverse, ∀ g ∈ r.2.uMap.children f, g ∈ r.2.uMap := by
    intro f _ g hg
    rw [hchildren] at hg
    exact hcallees f g (calls_iff.mpr hg)
  obtain ⟨⟨biggestDist, uMap'⟩, hrelax, hredist⟩ := relax_isSome 0 hmem
  have hsmall := hsized.small
  rw [← edge_children] at hsmall
  have hattained : Attained uMap.children uMap.frameSize [] r.2.uMap.dist :=
    hdist ▸ attained_weight
  have hsimulates := relax_simulates hsmall hrelax hchildren hframe hattained
  rw [hdist] at hsimulates
  exact ⟨biggestDist, uMap', by rw [worstCase, h.check]; exact hrelax, hredist, hsimulates⟩

/-- The relaxation gives a map with the calls and the sizes of the one it started with. -/
theorem Checked.sameGraph (h : uMap.Checked later roots r) {uMap' : UMap}
    (hdist : r.2.uMap.Redistanced uMap') : uMap.SameGraph uMap' :=
  h.recolored.sameGraph.trans hdist.toSameGraph

/-- A map with all callees is a call graph. -/
theorem Checked.isCallGraph (h : uMap.Checked later roots r) (hacyclic : Acyclic uMap.Calls)
    {uMap' : UMap} (hdist : r.2.uMap.Redistanced uMap')
    (hcallees : ∀ f g, uMap.Calls f g → g ∈ r.2.uMap) : uMap'.IsCallGraph := by
  have hcalls := (h.sameGraph hdist).calls_eq
  refine ⟨fun f g hcall => ?_, by rw [hcalls]; exact hacyclic⟩
  rw [hcalls] at hcall
  exact hdist.mem g (hcallees f g hcall)

/-- The depths in the map that the relaxation leaves. -/
theorem Checked.depthOf_isGreatest (h : uMap.Checked later roots r)
    (hacyclic : Acyclic uMap.Calls) (hsized : uMap.Sized) {uMap' : UMap}
    (hdist : r.2.uMap.Redistanced uMap') (hcallees : ∀ f g, uMap.Calls f g → g ∈ r.2.uMap)
    {f : String} (hf : f ∈ uMap') :
    IsGreatest (weightsFrom uMap.Calls uMap.frameSize f) (uMap'.depthOf f) := by
  have hgraph := h.sameGraph hdist
  have hframe : uMap'.frameSize = uMap.frameSize := funext hgraph.frameSize_eq
  have hdepth := UMap.depthOf_isGreatest (h.isCallGraph hacyclic hdist hcallees)
    (by rw [hgraph.calls_eq, hframe]; exact hsized.small) hf
  rwa [hgraph.calls_eq, hframe] at hdepth

end Checked

theorem NulFree.visitSucc_eq (hnul : uMap.NulFree) : uMap.visitSucc = uMap.children := by
  funext f
  refine (List.map_congr_left fun g hg => ?_).trans (List.map_id _)
  exact fromData_eq (hnul f g (calls_iff.mpr hg))

/-- Without NULs the two computations agree, if the check comes to every function. -/
theorem NulFree.worstCaseCorrect (hnul : uMap.NulFree) (hcovers : uMap.Covers)
    (hacyclic : Acyclic uMap.Calls) (hsized : uMap.Sized) (later : List String) :
    uMap.WorstCaseCorrect later := by
  obtain ⟨roots, r, h⟩ := exists_checked hsized.white later
  have hfound : r.1 = false := by
    refine Bool.eq_false_iff.mpr fun hfound => h.not_acyclic hfound ?_
    rwa [hnul.cutCalls_eq]
  -- the order is one of the functions, with each before its callees
  have hperm := h.finished_perm hcovers hfound
  have hordered := h.ordered hfound
  rw [hnul.visitSucc_eq] at hordered
  have hall : ∀ f, uMap.children f ≠ [] → f ∈ r.2.search.finished := by
    intro f hf
    obtain ⟨g, hg⟩ := List.exists_mem_of_ne_nil _ hf
    exact hperm.mem_iff.mpr (h.recolored.mem f (mem_of_calls (calls_iff.mpr hg)))
  have hcallees : ∀ f g, uMap.Calls f g → g ∈ r.2.uMap := by
    intro f g hcall
    have hg : g ∈ uMap.children f := calls_iff.mp hcall
    exact hperm.mem_iff.mp (hordered.succ_mem (hall f (List.ne_nil_of_mem hg)) hg)
  obtain ⟨biggestDist, uMap', hworst, hdist, heq⟩ := h.worstCase_eq hsized hcallees
  obtain ⟨rfl, hdist'⟩ := Prod.ext_iff.mp heq
  have hperm' : uMap'.keys.Perm r.2.search.finished :=
    ((List.perm_ext_iff_of_nodup uMap'.keys_nodup r.2.uMap.keys_nodup).mpr
      fun _ => hdist.mem_iff).trans hperm.symm
  have hgraph := h.isCallGraph hacyclic hdist hcallees
  refine ⟨_, uMap', hworst, (h.sameGraph hdist).mem, fun f _ => ?_,
    fun f hf => subtreeDepth_eq hgraph hf, ?_⟩
  · change uMap'.dist = _ at hdist'
    rw [hdist', ← edge_children]
    exact relaxAll_isGreatest_weightsInto hordered hall f
  · refine (relaxAll_best_eq hordered fun f hf => ?_).trans (largest_perm (hperm'.symm.map _))
    rw [edge_children]
    exact h.depthOf_isGreatest hacyclic hsized hdist hcallees (hperm'.mem_iff.mpr hf)

/-! ### What a right result says about the order -/

section Checked

variable {later roots : List String} {r : Bool × Walk}

/-- All callees are there, since the walks return. -/
theorem WorstCaseCorrect.callees (hcorrect : uMap.WorstCaseCorrect later)
    (h : uMap.Checked later roots r) : ∀ f g, uMap.Calls f g → g ∈ r.2.uMap := by
  obtain ⟨biggestDist, uMap', hworst, hmem, -, hdepth, -⟩ := hcorrect
  rw [worstCase, h.check, Option.bind_some] at hworst
  have hdist : r.2.uMap.Redistanced uMap' := relax_redistanced hworst
  intro f g hcall
  have hf : f ∈ uMap' := hmem f (mem_of_calls hcall)
  rw [← (h.sameGraph hdist).calls_eq] at hcall
  exact hdist.mem_of g (mem_of_subtreeDepth (hdepth f hf) hcall)

/-- **The order has the heaviest paths**: no path is heavier than one along the order. -/
theorem WorstCaseCorrect.exists_path (hcorrect : uMap.WorstCaseCorrect later)
    (h : uMap.Checked later roots r) (hacyclic : Acyclic uMap.Calls) (hsized : uMap.Sized)
    {f : String} {path : List String} (hf : f ∈ uMap) (hpath : (f :: path).IsChain uMap.Calls) :
    ∃ path' : List String, path'.Sublist r.2.search.finished ∧ path'.IsChain uMap.Calls ∧
      pathWeight uMap.frameSize (f :: path) ≤ pathWeight uMap.frameSize path' := by
  have hcallees := hcorrect.callees h
  obtain ⟨biggestDist, uMap', hworst, hmem, -, -, hbiggest⟩ := hcorrect
  obtain ⟨biggestDist', uMap₁, hworst', hdist, heq⟩ := h.worstCase_eq hsized hcallees
  obtain ⟨rfl, rfl⟩ := Prod.ext_iff.mp (Option.some.inj (hworst.symm.trans hworst'))
  -- the largest distance is the weight of a path along the order
  obtain ⟨hbest, -⟩ := Prod.ext_iff.mp heq
  change biggestDist = _ at hbest
  obtain ⟨path', hsub, hchain, hweight⟩ :
      BestAttained uMap.children uMap.frameSize r.2.search.finished biggestDist := by
    rw [hbest]
    exact (relaxAll_init_attained _).1
  rw [edge_children] at hchain
  refine ⟨path', hsub, hchain, ?_⟩
  have hf' : f ∈ uMap' := hmem f hf
  calc pathWeight uMap.frameSize (f :: path)
    _ ≤ uMap'.depthOf f :=
      (h.depthOf_isGreatest hacyclic hsized hdist hcallees hf').2 ⟨path, hpath, rfl⟩
    _ ≤ largest (uMap'.keys.map uMap'.depthOf) := le_largest (List.mem_map_of_mem hf')
    _ = biggestDist := hbiggest.symm
    _ = pathWeight uMap.frameSize path' := hweight

end Checked

/-! ### Weights that show a wrong order -/

/-- The map with other frame sizes. -/
def reweigh (uMap : UMap) (weight : String → ℕ) : UMap where
  entries := uMap.entries.map fun e => ⟨e.1, e.2.weigh (weight e.1)⟩
  nodupKeys := by
    change (List.keys _).Nodup
    rw [List.keys, List.map_map]
    exact uMap.keys_nodup

theorem keys_reweigh (uMap : UMap) (weight : String → ℕ) : (uMap.reweigh weight).keys = uMap.keys :=
  List.map_map

theorem node_reweigh {weight : String → ℕ} (hweight : ∀ f ∉ uMap, weight f = 0) (f : String) :
    (uMap.reweigh weight).node f = (uMap.node f).weigh (weight f) := by
  by_cases hf : f ∈ uMap
  · refine node_of_lookup (AList.mem_lookup_iff.mpr (List.mem_map.mpr ⟨⟨f, uMap.node f⟩, ?_, rfl⟩))
    exact AList.mem_lookup_iff.mp (lookup_eq_node hf)
  · have hf' : f ∉ uMap.reweigh weight := by
      change f ∉ (uMap.reweigh weight).keys
      rw [keys_reweigh]
      exact hf
    rw [node_of_notMem hf', node_of_notMem hf, hweight f hf]
    rfl

/-- One function weighs one, the others nothing. -/
def soleWeight (f h : String) : ℕ := if h = f then 1 else 0

/-- Two functions weigh one, the others nothing. -/
def pairWeight (f g h : String) : ℕ := soleWeight f h + soleWeight g h

variable {f g : String}

theorem pathWeight_soleWeight (path : List String) :
    pathWeight (soleWeight f) path = path.count f := by
  induction path with
  | nil => rfl
  | cons h path ih =>
    rw [pathWeight_cons, ih, List.count_cons, soleWeight]
    simp only [beq_iff_eq]
    omega

theorem pathWeight_pairWeight (path : List String) :
    pathWeight (pairWeight f g) path = path.count f + path.count g :=
  (pathWeight_add (soleWeight g) path).trans
    (congrArg₂ (· + ·) (pathWeight_soleWeight path) (pathWeight_soleWeight path))

theorem pathWeight_soleWeight_le {path : List String} (hpath : path.Nodup) :
    pathWeight (soleWeight f) path ≤ 1 := by
  rw [pathWeight_soleWeight]
  exact List.nodup_iff_count_le_one.mp hpath f

theorem pathWeight_pairWeight_le {path : List String} (hpath : path.Nodup) :
    pathWeight (pairWeight f g) path ≤ 2 := by
  have hf := List.nodup_iff_count_le_one.mp hpath f
  have hg := List.nodup_iff_count_le_one.mp hpath g
  rw [pathWeight_pairWeight]
  omega

/-- A path that weighs two goes through both. -/
theorem mem_of_two_le_pathWeight {path : List String} (hpath : path.Nodup)
    (h : 2 ≤ pathWeight (pairWeight f g) path) : f ∈ path ∧ g ∈ path := by
  have hf := List.nodup_iff_count_le_one.mp hpath f
  have hg := List.nodup_iff_count_le_one.mp hpath g
  rw [pathWeight_pairWeight] at h
  exact ⟨List.count_pos_iff.mp (by omega), List.count_pos_iff.mp (by omega)⟩

theorem soleWeight_of_notMem (hf : f ∈ uMap) : ∀ h ∉ uMap, soleWeight f h = 0 := by
  rintro h hh
  refine if_neg ?_
  rintro rfl
  exact hh hf

theorem pairWeight_of_notMem (hf : f ∈ uMap) (hg : g ∈ uMap) :
    ∀ h ∉ uMap, pairWeight f g h = 0 := by
  intro h hh
  rw [pairWeight, soleWeight_of_notMem hf h hh, soleWeight_of_notMem hg h hh]

/-- The map with other weights, which are small along every path. -/
theorem sized_reweigh (hacyclic : Acyclic uMap.Calls) {weight : String → ℕ}
    (hweight : ∀ f ∉ uMap, weight f = 0)
    (hsmall : ∀ path : List String, path.Nodup → pathWeight weight path < 2 ^ 32) :
    SameCalls uMap (uMap.reweigh weight) ∧ (uMap.reweigh weight).frameSize = weight ∧
      (uMap.reweigh weight).Sized := by
  have hnode := node_reweigh hweight
  have hframe : (uMap.reweigh weight).frameSize = weight :=
    funext fun h => congrArg GraphCi.frameSize (hnode h)
  have hsame : SameCalls uMap (uMap.reweigh weight) :=
    ⟨.of_eq (keys_reweigh uMap _), funext fun h => (congrArg GraphCi.children (hnode h) :)⟩
  refine ⟨hsame, hframe, fun h => congrArg GraphCi.col (hnode h), ?_, fun path hpath => ?_⟩
  · rw [hframe]
    exact funext fun h => congrArg GraphCi.dist (hnode h)
  · rw [hsame.calls_eq] at hpath
    rw [hframe]
    exact hsmall path (hacyclic.nodup_of_isChain hpath)

/-- The map in which a call is all that weighs. -/
theorem sized_reweigh_pair (hacyclic : Acyclic uMap.Calls) (hcall : uMap.Calls f g)
    (hg : g ∈ uMap) :
    SameCalls uMap (uMap.reweigh (pairWeight f g)) ∧
      (uMap.reweigh (pairWeight f g)).frameSize = pairWeight f g ∧
      (uMap.reweigh (pairWeight f g)).Sized :=
  sized_reweigh hacyclic (pairWeight_of_notMem (mem_of_calls hcall) hg)
    fun _ hpath => (pathWeight_pairWeight_le hpath).trans_lt (by decide)

/-- **A call of a name with a NUL is missed**, if the check comes to its caller first and the
call is all that weighs. -/
theorem not_worstCaseCorrect_of_nul (hacyclic : Acyclic uMap.Calls) {names : List String}
    (hkeys : uMap.keys = f :: names) (hcall : uMap.Calls f g) (hg : g ∈ uMap)
    (hnul : '\x00' ∈ g.toList) (later : List String) :
    ¬ (uMap.reweigh (pairWeight f g)).WorstCaseCorrect later := by
  obtain ⟨hsame, hframe, hsized⟩ := sized_reweigh_pair hacyclic hcall hg
  have hkeys' : (uMap.reweigh (pairWeight f g)).keys = f :: names :=
    (keys_reweigh uMap _).trans hkeys
  have hne : f ≠ g := by
    rintro rfl
    exact hacyclic f (.single hcall)
  have hf : f ∈ uMap.reweigh (pairWeight f g) := hsame.mem_iff.mpr (mem_of_calls hcall)
  rw [← hsame.calls_eq] at hacyclic hcall
  generalize uMap.reweigh (pairWeight f g) = uMap' at *
  intro hcorrect
  obtain ⟨roots, r, h⟩ := exists_checked hsized.white later
  -- a path along the order is as heavy as the call
  obtain ⟨path, hsub, hpath, hle⟩ :=
    hcorrect.exists_path h hacyclic hsized hf (List.isChain_pair.mpr hcall)
  have hpair : pathWeight uMap'.frameSize [f, g] = 2 := by
    rw [hframe, pathWeight_pairWeight]
    simp [hne, Ne.symm hne]
  rw [hpair, hframe] at hle
  obtain ⟨hf, hg⟩ := mem_of_two_le_pathWeight (hacyclic.nodup_of_isChain hpath) hle
  -- but the callee gets done later
  have hhead : roots.head? = some f := by rw [h.head, hkeys', List.head?_cons]
  obtain ⟨roots', rfl⟩ := List.head?_eq_some_iff.mp hhead
  obtain ⟨first, later, hfinished, hlater, hfirst⟩ := searchAll_first h.search
  rw [hfinished] at hsub
  obtain ⟨path₁, path₂, rfl, hsub₁, hsub₂⟩ := List.sublist_append_iff.mp hsub
  rw [edge_visitSucc] at hfirst
  have hf₂ : f ∈ path₂ :=
    (List.mem_append.mp hf).resolve_left fun hmem => hlater (hsub₁.subset hmem)
  have hg₁ : g ∈ path₁ :=
    (List.mem_append.mp hg).resolve_right fun hmem =>
      not_cutReach_of_nul hnul hne (hfirst g (hsub₂.subset hmem))
  have hback : TransGen uMap'.Calls g f :=
    (List.pairwise_append.mp (pairwise_of_isChain hpath)).2.2 g hg₁ f hf₂
  exact hacyclic f (.head hcall hback)

/-- **A function is missed**, if the check comes first to one that calls a name without a node
and does not lead to it, and the function is all that weighs. -/
theorem not_worstCaseCorrect_of_skipped (hacyclic : Acyclic uMap.Calls) (hnul : uMap.NulFree)
    {names : List String} (hkeys : uMap.keys = f :: names) (hcall : uMap.CutCalls f g)
    (hg : g ∉ uMap) {h : String} (hh : h ∈ uMap) (hreach : ¬ ReflTransGen uMap.CutCalls f h) :
    SameCalls uMap (uMap.reweigh (soleWeight h)) ∧ (uMap.reweigh (soleWeight h)).Sized ∧
      ¬ (uMap.reweigh (soleWeight h)).WorstCaseCorrect [] := by
  obtain ⟨hsame, hframe, hsized⟩ := sized_reweigh hacyclic (soleWeight_of_notMem hh)
    fun _ hpath => (pathWeight_soleWeight_le hpath).trans_lt (by decide)
  refine ⟨hsame, hsized, fun hcorrect => hreach ?_⟩
  have hkeys' : (uMap.reweigh (soleWeight h)).keys = f :: names :=
    (keys_reweigh uMap _).trans hkeys
  have hh' := hsame.mem_iff.mpr hh
  have hg' := mt hsame.mem_iff.mp hg
  have hnul' := hnul.congr hsame.calls_eq
  rw [← cutCalls_congr hsame.calls_eq] at hcall ⊢
  rw [← hsame.calls_eq] at hacyclic
  generalize uMap.reweigh (soleWeight h) = uMap' at *
  have hcycle : ¬ ReachesCycle uMap'.CutCalls f := by
    rw [hnul'.cutCalls_eq]
    exact fun hcycle => hcycle.not_acyclic hacyclic
  -- the loop ends with the first function
  obtain ⟨r, hchecked⟩ := checked_of_first hsized.white hkeys' hg' (.single hcall) hcycle
  have hfound : r.1 = false := by
    refine Bool.eq_false_iff.mpr fun hfound => hcycle ?_
    simpa using hchecked.found_iff.mp hfound
  obtain ⟨path, hsub, -, hle⟩ :=
    hcorrect.exists_path hchecked hacyclic hsized hh' (List.isChain_singleton h)
  rw [hframe, pathWeight_soleWeight, pathWeight_soleWeight, List.count_singleton_self] at hle
  simpa using (hchecked.mem_finished hfound).mp (hsub.subset (List.count_pos_iff.mp hle))

theorem SameCalls.of_perm {uMap' : UMap} (h : uMap'.entries.Perm uMap.entries) :
    SameCalls uMap uMap' :=
  ⟨keys_of_perm h, funext fun f => congrArg GraphCi.children (node_of_perm h f)⟩

/-- **When the two computations agree**, on an acyclic graph with any frame sizes, for every order
of iteration, also after an insertion: if no child's name has a NUL in it, and a function that
calls a name without a node leads to every function. -/
theorem worstCase_correct_iff (hacyclic : Acyclic uMap.Calls) :
    (∀ uMap' : UMap, SameCalls uMap uMap' → uMap'.Sized → ∀ later, uMap'.WorstCaseCorrect later) ↔
      uMap.NulFree ∧ uMap.Covers := by
  refine ⟨?_, ?_⟩
  · intro hcorrect
    have hnul : uMap.NulFree := by
      intro f g hcall hnul
      -- a callee with a NUL is not inserted, so it is a function
      have hg : g ∈ uMap := by
        have hzero : ∀ f ∉ uMap, (fun _ : String => 0) f = 0 := fun _ _ => rfl
        obtain ⟨hsame, -, hsized⟩ := sized_reweigh hacyclic hzero
          fun path _ => by rw [pathWeight_zero]; decide
        obtain ⟨roots, r, h⟩ := exists_checked hsized.white []
        have hcallees := (hcorrect _ hsame hsized []).callees h
        rw [hsame.calls_eq] at hcallees
        refine (h.recolored.mem_or g (hcallees f g hcall)).elim hsame.mem_iff.mp ?_
        rintro ⟨v, -, hreach⟩
        obtain ⟨u, -, child, -, rfl⟩ := TransGen.tail'_iff.mp hreach
        exact absurd hnul (nul_notMem_fromData child)
      -- an order of iteration in which the caller is the first
      obtain ⟨uMap₁, hperm, names, hkeys⟩ := exists_perm_cons (mem_of_calls hcall)
      have hsame : SameCalls uMap uMap₁ := .of_perm hperm
      rw [← hsame.calls_eq] at hacyclic hcall
      have hg₁ := hsame.mem_iff.mpr hg
      obtain ⟨hsame₁, -, hsized⟩ := sized_reweigh_pair hacyclic hcall hg₁
      exact not_worstCaseCorrect_of_nul hacyclic hkeys hcall hg₁ hnul []
        (hcorrect _ (hsame.trans hsame₁) hsized [])
    refine ⟨hnul, fun f g hcall hg h hh => ?_⟩
    by_contra hreach
    -- the caller of the name without a node is the first
    obtain ⟨uMap₁, hperm, names, hkeys⟩ := exists_perm_cons (mem_of_cutCalls hcall)
    have hsame : SameCalls uMap uMap₁ := .of_perm hperm
    rw [← hsame.calls_eq] at hacyclic
    rw [← cutCalls_congr hsame.calls_eq] at hcall hreach
    obtain ⟨hsame₁, hsized, hnot⟩ := not_worstCaseCorrect_of_skipped hacyclic
      (hnul.congr hsame.calls_eq) hkeys hcall (mt hsame.mem_iff.mp hg) (hsame.mem_iff.mpr hh) hreach
    exact hnot (hcorrect _ (hsame.trans hsame₁) hsized [])
  · rintro ⟨hnul, hcovers⟩ uMap' hsame hsized later
    have hcovers' : uMap'.Covers := hcovers.congr (fun _ => hsame.mem_iff) hsame.calls_eq
    refine (hnul.congr hsame.calls_eq).worstCaseCorrect hcovers' ?_ hsized later
    rwa [hsame.calls_eq]

/-! ### Two graphs -/

/-- One call of a name without a NUL. -/
theorem worstCase_correct_iff_call :
    (∀ uMap' : UMap, SameCalls (callOf "kernel_main" "print") uMap' → uMap'.Sized →
        ∀ later, uMap'.WorstCaseCorrect later) ↔
      (callOf "kernel_main" "print").NulFree ∧ (callOf "kernel_main" "print").Covers :=
  worstCase_correct_iff callOf_isCallGraph.acyclic

/-- **A callee that is missed.** With a frame of one byte for `m` and one for the callee, the
largest distance is one, and the depth of `m` is two. -/
theorem nul_call_missed :
    let uMap := nulMap.reweigh (pairWeight "m" "x\x00y")
    uMap.IsCallGraph ∧ uMap.Sized ∧ ((uMap.worstCase []).map fun r => r.1) = some 1 ∧
      largest (uMap.keys.map uMap.depthOf) = 2 ∧ ¬ uMap.WorstCaseCorrect [] := by
  have hmem : "x\x00y" ∈ nulMap := nulMap_isCallGraph.closed _ _ nulMap_calls
  obtain ⟨hsame, -, hsized⟩ := sized_reweigh_pair nulMap_isCallGraph.acyclic nulMap_calls hmem
  refine ⟨⟨fun f g hcall => ?_, ?_⟩, hsized, by decide +kernel, by decide +kernel,
    not_worstCaseCorrect_of_nul nulMap_isCallGraph.acyclic rfl nulMap_calls hmem (by decide) []⟩
  · rw [hsame.calls_eq] at hcall
    exact hsame.mem_iff.mpr (nulMap_isCallGraph.closed f g hcall)
  · rw [hsame.calls_eq]
    exact nulMap_isCallGraph.acyclic

end UMap

end BareMetal
