import BareMetal.DiagnosticTools.Nodes
import BareMetal.Framework.DepthFirst
import Mathlib.Data.List.TakeWhile

/-!
# The cycle check

`fdp_unorderd_map` colours the functions depth first and appends each to a vector when it is
black; `main` calls it for every function that is white. It is the depth-first search of
`BareMetal.Framework.DepthFirst` (`cycleCheck_eq_searchAll`), on a graph that is not quite the
call graph: it looks a child up by `data()`, a pointer to characters, and the
`std::string` that is made of it ends at the first NUL. The other loops of the tool look
the child up by its name.

A child that is no node is inserted while `main` goes over the map. That may rehash the map,
and then it is not specified which nodes the loop still comes to: from there on it goes over
a list of names that is arbitrary, `later`. What it does is a search from some roots, which are
all functions or include one that leads to a name without a node (`exists_checked`).

So the check is right for every order of iteration exactly if no child's name has a NUL in it,
or there is a cycle anyway, with the names as they are and with the names cut, that the check
comes to whatever it inserts (`cycleCheck_correct_iff`).
-/

namespace BareMetal

open Framework Relation

/-- The string that a pointer to the characters of a name is converted to. -/
def fromData (name : String) : String := String.ofList (name.toList.takeWhile (· ≠ '\x00'))

/-- The map and the vector of the nodes that are black; nodes are given by their names. -/
structure Walk where
  uMap : UMap
  vec : List String

namespace Walk

/-- The colour of a node is set. -/
def paint (s : Walk) (graph : String) (col : Color) : Walk :=
  { s with uMap := s.uMap.update graph fun node => { node with col := col } }

/-- `vec->emplace_back(graph)`. -/
def push (s : Walk) (graph : String) : Walk := { s with vec := s.vec ++ [graph] }

/-- The colour of a node. -/
def color (s : Walk) (graph : String) : Color := (s.uMap.node graph).col

end Walk

/-- The loop of `fdp_unorderd_map` over the children, given what it does with a white one. -/
def fdpChildren (visit : String → Walk → Option (Bool × Walk)) :
    List String → Walk → Option (Bool × Walk)
  | [], s => some (false, s)
  | child :: children, s =>
    let temp := fromData child
    let s := { s with uMap := s.uMap.touch temp }
    match s.color temp with
    | .white => (visit temp s).bind fun r => if r.1 then some r else fdpChildren visit children r.2
    | .gray => some (true, s)
    | .black => fdpChildren visit children s

/-- `fdp_unorderd_map`. -/
def fdpUnorderdMap : (fuel : ℕ) → String → Walk → Option (Bool × Walk)
  | 0, _, _ => none
  | fuel + 1, graph, s =>
    let s := s.paint graph .gray
    (fdpChildren (fdpUnorderdMap fuel) (s.uMap.node graph).children s).bind fun r =>
      if r.1 then some r else some (false, (r.2.paint graph .black).push graph)

namespace UMap

/-- The fuel of the walk: a level for each function and each call. -/
def walkFuel (uMap : UMap) : ℕ := (uMap.entries.map fun e => e.2.children.length + 1).sum

/-- All nodes of `uMap'` are in `uMap`. -/
def Kept (uMap uMap' : UMap) : Prop := ∀ f ∈ uMap'.keys, f ∈ uMap

instance (uMap uMap' : UMap) : Decidable (Kept uMap uMap') :=
  inferInstanceAs (Decidable (∀ f ∈ uMap'.keys, f ∈ uMap))

end UMap

/-- The loop of `main` after an insertion, over any names; those that are not in the map are no
nodes that it could come to. -/
def cycleLoopRehashed (fuel : ℕ) : List String → Bool × Walk → Option (Bool × Walk)
  | [], r => some r
  | graph :: graphs, r =>
    if graph ∈ r.2.uMap ∧ r.2.color graph = .white then
      (fdpUnorderdMap fuel graph r.2).bind fun r' =>
        cycleLoopRehashed fuel graphs (r.1 || r'.1, r'.2)
    else cycleLoopRehashed fuel graphs r

/-- The loop of `main` over the map, with `loop_found`. A call that inserts a node may rehash the
map, which leaves the iterator invalid: what the loop comes to from there on is not specified,
and is given by `later`. -/
def cycleLoop (later : List String) (fuel : ℕ) : List String → Bool × Walk → Option (Bool × Walk)
  | [], r => some r
  | graph :: graphs, r =>
    if r.2.color graph = .white then
      (fdpUnorderdMap fuel graph r.2).bind fun r' =>
        if r.2.uMap.Kept r'.2.uMap then cycleLoop later fuel graphs (r.1 || r'.1, r'.2)
        else cycleLoopRehashed fuel later (r.1 || r'.1, r'.2)
    else cycleLoop later fuel graphs r

namespace UMap

/-- The part of `main` that looks for cycles: `loop_found`, and the map with the vector. -/
def cycleCheck (later : List String) (uMap : UMap) : Option (Bool × Walk) :=
  cycleLoop later uMap.walkFuel uMap.keys (false, ⟨uMap, []⟩)

/-- The nodes that `fdp_unorderd_map` goes to from a node. -/
def visitSucc (uMap : UMap) (f : String) : List String := (uMap.node f).children.map fromData

/-- A function has a child whose name is cut to another one. -/
def CutCalls (uMap : UMap) (f g : String) : Prop := ∃ child, uMap.Calls f child ∧ g = fromData child

theorem cutCalls_congr {uMap uMap' : UMap} (h : uMap'.Calls = uMap.Calls) :
    uMap'.CutCalls = uMap.CutCalls := by
  unfold CutCalls
  rw [h]

theorem edge_visitSucc (uMap : UMap) : Edge uMap.visitSucc = uMap.CutCalls := by
  ext f g
  refine ⟨?_, ?_⟩
  · intro h
    obtain ⟨child, hchild, rfl⟩ := List.mem_map.mp h
    exact ⟨child, calls_iff.mpr hchild, rfl⟩
  · rintro ⟨child, hchild, rfl⟩
    exact List.mem_map_of_mem (calls_iff.mp hchild)

end UMap

/-! ### A depth-first search -/

/-- A colour as a mark. -/
def Color.mark : Color → Mark
  | .white => .unseen
  | .gray => .active
  | .black => .done

/-- A node without its colour. -/
def GraphCi.uncolored (node : GraphCi) : GraphCi := { node with col := .white }

/-- `uMap'` is `uMap` in other colours, and maybe with more empty nodes, all with the property
`P`. -/
structure UMap.Recolored (P : String → Prop) (uMap uMap' : UMap) : Prop where
  uncolored_eq : ∀ f, (uMap'.node f).uncolored = (uMap.node f).uncolored
  mem : ∀ f ∈ uMap, f ∈ uMap'
  mem_or : ∀ f ∈ uMap', f ∈ uMap ∨ P f

namespace UMap.Recolored

variable {uMap uMap₁ uMap' : UMap} {P Q : String → Prop}

theorem refl (uMap : UMap) : Recolored P uMap uMap :=
  ⟨fun _ => rfl, fun _ hf => hf, fun _ hf => .inl hf⟩

theorem mono (h : Recolored P uMap uMap') (hPQ : ∀ f, P f → Q f) : Recolored Q uMap uMap' :=
  ⟨h.uncolored_eq, h.mem, fun f hf => (h.mem_or f hf).imp_right (hPQ f)⟩

theorem sameGraph (h : Recolored P uMap uMap') : SameGraph uMap uMap' where
  children_eq f := (congrArg GraphCi.children (h.uncolored_eq f) :)
  frameSize_eq f := (congrArg GraphCi.frameSize (h.uncolored_eq f) :)
  mem := h.mem

theorem trans (h₁ : Recolored P uMap uMap₁) (h : Recolored P uMap₁ uMap') :
    Recolored P uMap uMap' where
  uncolored_eq f := (h.uncolored_eq f).trans (h₁.uncolored_eq f)
  mem f hf := h.mem f (h₁.mem f hf)
  mem_or f hf := (h.mem_or f hf).elim (h₁.mem_or f) .inr

theorem touch {g : String} (hg : P g) : Recolored P uMap (uMap.touch g) where
  uncolored_eq _ := by rw [node_touch]
  mem _ hf := mem_touch.mpr (.inr hf)
  mem_or h hh := by
    rcases mem_touch.mp hh with rfl | hh
    · exact .inr hg
    · exact .inl hh

end UMap.Recolored

namespace Walk

variable {s : Walk} {f g : String}

/-- The walk as a search. -/
def search (s : Walk) : Search String := ⟨fun f => (s.color f).mark, s.vec.reverse⟩

/-- A name that the walk has painted is in its map. -/
theorem mem_of_color (h : s.color f ≠ .white) : f ∈ s.uMap := by
  by_contra hf
  exact h (congrArg GraphCi.col (UMap.node_of_notMem hf))

theorem recolored_paint (P : String → Prop) (s : Walk) (g : String) (col : Color) :
    s.uMap.Recolored P (s.paint g col).uMap where
  uncolored_eq := UMap.field_update_eq GraphCi.uncolored rfl
  mem _ hf := UMap.mem_update.mpr hf
  mem_or _ hf := .inl (UMap.mem_update.mp hf)

/-- Painting a node marks it in the search. -/
theorem mark_paint (hg : g ∈ s.uMap) (col : Color) :
    (s.paint g col).search.mark = Function.update s.search.mark g col.mark :=
  UMap.field_update hg fun node => node.col.mark

/-- Inserting an empty node does not show in the search. -/
theorem search_touch (s : Walk) (g : String) :
    search { s with uMap := s.uMap.touch g } = s.search := by
  refine congrArg (Search.mk · s.vec.reverse) (funext fun f => ?_)
  exact congrArg (fun node => node.col.mark) UMap.node_touch

theorem search_paint_gray (hg : g ∈ s.uMap) : (s.paint g .gray).search = s.search.enter g :=
  congrArg (Search.mk · s.vec.reverse) (mark_paint hg .gray)

theorem search_paint_black (hg : g ∈ s.uMap) :
    ((s.paint g .black).push g).search = s.search.finish g :=
  congrArg₂ Search.mk (mark_paint hg .black) List.reverse_concat

end Walk

/-- The results of a walk from `s` are those of a search, and the walk changes colours only, and
inserts only names with the property `P`. -/
def Simulates (P : String → Prop) (s : Walk) (o : Option (Bool × Walk))
    (o' : Option (Bool × Search String)) : Prop :=
  o.map (fun r => (r.1, r.2.search)) = o' ∧ ∀ r, o = some r → s.uMap.Recolored P r.2.uMap

section Simulates

variable {P Q : String → Prop} {s s₁ : Walk} {o : Option (Bool × Walk)}
  {o' : Option (Bool × Search String)}

theorem simulates_some (hs : s.uMap.Recolored P s₁.uMap) (found : Bool) :
    Simulates P s (some (found, s₁)) (some (found, s₁.search)) := by
  refine ⟨rfl, fun r hr => ?_⟩
  obtain rfl := Option.some.inj hr
  exact hs

theorem Simulates.mono (h : Simulates P s o o') (hPQ : ∀ f, P f → Q f) : Simulates Q s o o' :=
  ⟨h.1, fun r hr => (h.2 r hr).mono hPQ⟩

/-- Walks one after the other. -/
theorem Simulates.bind {k : Bool × Walk → Option (Bool × Walk)}
    {k' : Bool × Search String → Option (Bool × Search String)} (h : Simulates P s o o')
    (hk : ∀ r, s.uMap.Recolored P r.2.uMap → Simulates P s (k r) (k' (r.1, r.2.search))) :
    Simulates P s (o.bind k) (o'.bind k') := by
  obtain ⟨rfl, hrec⟩ := h
  cases o with
  | none => exact ⟨rfl, fun r hr => absurd hr (Option.some_ne_none r).symm⟩
  | some r => exact hk r (hrec r rfl)

/-- A walk that starts later. -/
theorem Simulates.of_recolored (h : Simulates P s₁ o o') (hs : s.uMap.Recolored P s₁.uMap) :
    Simulates P s o o' :=
  ⟨h.1, fun r hr => hs.trans (h.2 r hr)⟩

end Simulates

section Simulation

variable {uMap : UMap} {s : Walk}

/-- The loop over the children, given visits that are simulated. -/
theorem fdpChildren_simulates {visitNode : String → Walk → Option (Bool × Walk)}
    {visitVertex : String → Search String → Option (Bool × Search String)}
    (hvisit : ∀ g (s : Walk), uMap.SameGraph s.uMap → g ∈ s.uMap →
      Simulates (TransGen uMap.CutCalls g) s (visitNode g s) (visitVertex g s.search))
    {graph : String} {children : List String}
    (hchildren : ∀ child ∈ children, uMap.CutCalls graph (fromData child))
    (hs : uMap.SameGraph s.uMap) :
    Simulates (TransGen uMap.CutCalls graph) s (fdpChildren visitNode children s)
      (visitSuccs visitVertex (children.map fromData) s.search) := by
  induction children generalizing s with
  | nil => exact simulates_some (.refl _) false
  | cons child children ih =>
    let temp := fromData child
    let s₁ : Walk := { s with uMap := s.uMap.touch temp }
    obtain ⟨htemp, hchildren⟩ := List.forall_mem_cons.mp hchildren
    -- `operator[]` comes first, and a node that it inserts does not show
    have htouch : s.uMap.Recolored (TransGen uMap.CutCalls graph) s₁.uMap := .touch (.single htemp)
    have hs₁ : uMap.SameGraph s₁.uMap := hs.trans htouch.sameGraph
    have hsearch : s₁.search = s.search := s.search_touch temp
    have hmark : s.search.mark temp = (s₁.color temp).mark := by
      rw [← hsearch]
      rfl
    rw [List.map_cons, visitSuccs, fdpChildren, hmark]
    change Simulates _ s (match s₁.color temp with
      | .white => (visitNode temp s₁).bind fun r =>
          if r.1 then some r else fdpChildren visitNode children r.2
      | .gray => some (true, s₁)
      | .black => fdpChildren visitNode children s₁) _
    refine .of_recolored ?_ htouch
    rw [← hsearch]
    cases s₁.color temp with
    | white =>
      -- what the child leads to, the function leads to
      have hchild := (hvisit temp s₁ hs₁ (UMap.mem_touch.mpr (.inl rfl))).mono
        fun _ => TransGen.head htemp
      refine hchild.bind ?_
      intro r hr
      change Simulates _ s₁ (if r.1 = true then some r else _) (if r.1 = true then _ else _)
      split
      · exact simulates_some hr r.1
      · exact (ih hchildren (hs₁.trans hr.sameGraph)).of_recolored hr
    | gray => exact simulates_some (.refl _) true
    | black => exact ih hchildren hs₁

/-- **`fdp_unorderd_map` is a depth-first visit**, of the graph with the names cut. -/
theorem fdpUnorderdMap_simulates (fuel : ℕ) {graph : String} (hs : uMap.SameGraph s.uMap)
    (hgraph : graph ∈ s.uMap) :
    Simulates (TransGen uMap.CutCalls graph) s (fdpUnorderdMap fuel graph s)
      (visit uMap.visitSucc fuel graph s.search) := by
  -- on the fuel, which both searches have the same of
  induction fuel generalizing graph s with
  | zero => exact ⟨rfl, fun r hr => absurd hr (Option.some_ne_none r).symm⟩
  | succ fuel ih =>
    have hpaint : s.uMap.Recolored (TransGen uMap.CutCalls graph) (s.paint graph .gray).uMap :=
      s.recolored_paint _ graph .gray
    have hs₁ : uMap.SameGraph (s.paint graph .gray).uMap := hs.trans hpaint.sameGraph
    have hchildren : ((s.paint graph .gray).uMap.node graph).children
        = (uMap.node graph).children :=
      hs₁.children_eq graph
    rw [fdpUnorderdMap, visit, UMap.visitSucc, ← Walk.search_paint_gray hgraph, hchildren]
    -- a call of the walk is one of the search, by the name that the data pointer gives
    have hcalls : ∀ child ∈ (uMap.node graph).children, uMap.CutCalls graph (fromData child) :=
      fun child hchild => ⟨child, UMap.calls_iff.mpr hchild, rfl⟩
    have hloop := fdpChildren_simulates (fun g s => ih) hcalls hs₁
    refine Simulates.bind (hloop.of_recolored hpaint) ?_
    -- what the walk has left when its children are done
    intro r hr
    have hgraph' : graph ∈ r.2.uMap := hr.mem graph hgraph
    change Simulates _ s (if r.1 = true then some r else _) (some (if r.1 = true then _ else _))
    split
    · exact simulates_some hr r.1
    · rw [← Walk.search_paint_black hgraph']
      have hdone : s.uMap.Recolored (TransGen uMap.CutCalls graph)
          ((r.2.paint graph .black).push graph).uMap :=
        hr.trans (r.2.recolored_paint _ graph .black)
      exact simulates_some hdone false

end Simulation

namespace UMap

variable {uMap uMap' : UMap}

/-! ### The fuel -/

/-- The names of the functions, and those that the children's names are cut to. -/
def vertices (uMap : UMap) : List String :=
  uMap.entries.flatMap fun e => e.1 :: e.2.children.map fromData

theorem length_vertices : uMap.vertices.length = uMap.walkFuel := by
  rw [vertices, List.length_flatMap, walkFuel]
  simp only [List.length_cons, List.length_map]

theorem mem_vertices_of_mem {f : String} (hf : f ∈ uMap) : f ∈ uMap.vertices :=
  List.mem_flatMap.mpr ⟨_, AList.mem_lookup_iff.mp (lookup_eq_node hf), List.mem_cons_self⟩

theorem mem_vertices_of_visitSucc {f g : String} (hg : g ∈ uMap.visitSucc f) :
    g ∈ uMap.vertices := by
  obtain ⟨child, hchild, rfl⟩ := List.mem_map.mp hg
  have hf : f ∈ uMap := mem_of_calls (calls_iff.mpr hchild)
  refine List.mem_flatMap.mpr ⟨_, AList.mem_lookup_iff.mp (lookup_eq_node hf), ?_⟩
  exact List.mem_cons_of_mem f (List.mem_map_of_mem hchild)

theorem mem_vertices_of_transGen {f g : String} (h : TransGen uMap.CutCalls f g) :
    g ∈ uMap.vertices := by
  obtain ⟨h, -, child, hcall, rfl⟩ := TransGen.tail'_iff.mp h
  exact mem_vertices_of_visitSucc (List.mem_map_of_mem (calls_iff.mp hcall))

/-- A level of fuel for every name that the search can come to. -/
theorem searchAll_visitSucc_isSome {roots : List String} (hroots : ∀ f ∈ roots, f ∈ uMap.vertices) :
    ∃ r, searchAll uMap.visitSucc uMap.walkFuel roots (false, .init) = some r := by
  have hcard : ((Search.init : Search String).unseen uMap.vertices.toFinset).card ≤ uMap.walkFuel :=
    calc ((Search.init : Search String).unseen uMap.vertices.toFinset).card
      _ ≤ uMap.vertices.toFinset.card := Finset.card_filter_le ..
      _ ≤ uMap.vertices.length := List.toFinset_card_le _
      _ = uMap.walkFuel := length_vertices
  have hclosed : ∀ f ∈ uMap.vertices.toFinset, ∀ g ∈ uMap.visitSucc f,
      g ∈ uMap.vertices.toFinset :=
    fun _ _ _ hg => List.mem_toFinset.mpr (mem_vertices_of_visitSucc hg)
  exact searchAll_isSome hclosed (fun f hf => List.mem_toFinset.mpr (hroots f hf)) hcard

/-! ### The roots -/

/-- One of the roots leads to the name. -/
def ReachedFrom (uMap : UMap) (roots : List String) (f : String) : Prop :=
  ∃ v ∈ roots, TransGen uMap.CutCalls v f

theorem ReachedFrom.cons {roots : List String} {f : String} (h : uMap.ReachedFrom roots f)
    (v : String) : uMap.ReachedFrom (v :: roots) f :=
  List.exists_mem_cons_of_exists h

/-- Neither loop leaves the names that the search can come to. -/
theorem mem_vertices_of_recolored {s : Walk} {r : Bool × Walk} {v : String}
    (hs : ∀ f ∈ s.uMap, f ∈ uMap.vertices)
    (hr : s.uMap.Recolored (TransGen uMap.CutCalls v) r.2.uMap) :
    ∀ f ∈ r.2.uMap, f ∈ uMap.vertices :=
  fun f hf => (hr.mem_or f hf).elim (hs f) mem_vertices_of_transGen

section NextRoot

variable {fuel : ℕ} {graph : String} {roots : List String} {r : Bool × Walk}

/-- A white node is the next root. -/
theorem simulates_searchAll_some {r' : Bool × Walk} {k : Bool × Walk → Option (Bool × Walk)}
    (hs : uMap.SameGraph r.2.uMap) (hgraph : graph ∈ r.2.uMap) (hwhite : r.2.color graph = .white)
    (hr' : fdpUnorderdMap fuel graph r.2 = some r')
    (hk : Simulates (uMap.ReachedFrom roots) r'.2 (k r')
      (searchAll uMap.visitSucc fuel roots (r.1 || r'.1, r'.2.search))) :
    Simulates (uMap.ReachedFrom (graph :: roots)) r.2 ((some r').bind k)
      (searchAll uMap.visitSucc fuel (graph :: roots) (r.1, r.2.search)) := by
  have hunseen : r.2.search.mark graph = .unseen := congrArg Color.mark hwhite
  obtain ⟨hvisit, hrec⟩ := fdpUnorderdMap_simulates fuel hs hgraph
  have hreached : r.2.uMap.Recolored (uMap.ReachedFrom (graph :: roots)) r'.2.uMap :=
    (hrec r' hr').mono fun f hf => ⟨graph, List.mem_cons_self, hf⟩
  rw [searchAll, if_pos hunseen, ← hvisit, hr']
  exact (hk.mono fun f hf => hf.cons graph).of_recolored hreached

/-- A visit that does not return. -/
theorem simulates_searchAll_none {P : String → Prop} (hs : uMap.SameGraph r.2.uMap)
    (hgraph : graph ∈ r.2.uMap) (hwhite : r.2.color graph = .white)
    (hr' : fdpUnorderdMap fuel graph r.2 = none) :
    Simulates P r.2 none
      (searchAll uMap.visitSucc fuel (graph :: roots) (r.1, r.2.search)) := by
  have hunseen : r.2.search.mark graph = .unseen := congrArg Color.mark hwhite
  have hvisit := (fdpUnorderdMap_simulates fuel hs hgraph).1
  rw [searchAll, if_pos hunseen, ← hvisit, hr']
  exact ⟨rfl, fun r hr => absurd hr (Option.some_ne_none r).symm⟩

/-- A node that is not white is passed over as a root. -/
theorem searchAll_cons_of_ne_white (h : r.2.color graph ≠ .white) :
    searchAll uMap.visitSucc fuel (graph :: roots) (r.1, r.2.search)
      = searchAll uMap.visitSucc fuel roots (r.1, r.2.search) := by
  refine if_neg ?_
  change (r.2.color graph).mark ≠ .unseen
  cases hcolor : r.2.color graph with
  | white => exact absurd hcolor h
  | gray => decide
  | black => decide

end NextRoot

/-- The loop over any names visits some roots. -/
theorem cycleLoopRehashed_simulates (fuel : ℕ) (graphs : List String) {r : Bool × Walk}
    (hs : uMap.SameGraph r.2.uMap) (hvertices : ∀ f ∈ r.2.uMap, f ∈ uMap.vertices) :
    ∃ roots, (∀ f ∈ roots, f ∈ uMap.vertices) ∧
      Simulates (uMap.ReachedFrom roots) r.2 (cycleLoopRehashed fuel graphs r)
        (searchAll uMap.visitSucc fuel roots (r.1, r.2.search)) := by
  induction graphs generalizing r with
  | nil => exact ⟨[], fun _ hf => absurd hf List.not_mem_nil, simulates_some (.refl _) r.1⟩
  | cons graph graphs ih =>
    rw [cycleLoopRehashed]
    split
    · rename_i hgraph
      have hroot : graph ∈ uMap.vertices := hvertices graph hgraph.1
      cases hr' : fdpUnorderdMap fuel graph r.2 with
      | none =>
        exact ⟨[graph], List.forall_mem_singleton.mpr hroot,
          simulates_searchAll_none hs hgraph.1 hgraph.2 hr'⟩
      | some r' =>
        have hrec := (fdpUnorderdMap_simulates fuel hs hgraph.1).2 r' hr'
        obtain ⟨roots, hroots, hsim⟩ := ih (r := (r.1 || r'.1, r'.2)) (hs.trans hrec.sameGraph)
          (mem_vertices_of_recolored hvertices hrec)
        exact ⟨graph :: roots, List.forall_mem_cons.mpr ⟨hroot, hroots⟩,
          simulates_searchAll_some hs hgraph.1 hgraph.2 hr' hsim⟩
    · exact ih hs hvertices

/-- The loop over the map visits all its nodes, unless a root led to a name that it has inserted. -/
theorem cycleLoop_simulates (later : List String) (fuel : ℕ) {graphs : List String}
    {r : Bool × Walk} (hs : uMap.SameGraph r.2.uMap) (hvertices : ∀ f ∈ r.2.uMap, f ∈ uMap.vertices)
    (hgraphs : ∀ f ∈ graphs, f ∈ r.2.uMap) :
    ∃ roots, (∀ f ∈ roots, f ∈ uMap.vertices) ∧
      Simulates (uMap.ReachedFrom roots) r.2 (cycleLoop later fuel graphs r)
        (searchAll uMap.visitSucc fuel roots (r.1, r.2.search)) ∧
      roots.head? = graphs.head? ∧
      (roots = graphs ∨ ∃ f ∉ r.2.uMap, uMap.ReachedFrom roots f) := by
  induction graphs generalizing r with
  | nil =>
    exact ⟨[], fun _ hf => absurd hf List.not_mem_nil, simulates_some (.refl _) r.1, rfl, .inl rfl⟩
  | cons graph graphs ih =>
    obtain ⟨hgraph, hgraphs⟩ := List.forall_mem_cons.mp hgraphs
    have hroot : graph ∈ uMap.vertices := hvertices graph hgraph
    rw [cycleLoop]
    split
    · rename_i hwhite
      cases hr' : fdpUnorderdMap fuel graph r.2 with
      | none =>
        exact ⟨graph :: graphs,
          List.forall_mem_cons.mpr ⟨hroot, fun f hf => hvertices f (hgraphs f hf)⟩,
          simulates_searchAll_none hs hgraph hwhite hr', rfl, .inl rfl⟩
      | some r' =>
        have hrec := (fdpUnorderdMap_simulates fuel hs hgraph).2 r' hr'
        have hs' := hs.trans hrec.sameGraph
        have hvertices' := mem_vertices_of_recolored hvertices hrec
        by_cases hkept : r.2.uMap.Kept r'.2.uMap
        · -- no node was inserted
          obtain ⟨roots, hroots, hsim, -, hall⟩ := ih (r := (r.1 || r'.1, r'.2)) hs' hvertices'
            fun f hf => hrec.mem f (hgraphs f hf)
          refine ⟨graph :: roots, List.forall_mem_cons.mpr ⟨hroot, hroots⟩, ?_, rfl, ?_⟩
          · exact simulates_searchAll_some hs hgraph hwhite hr' (by rwa [if_pos hkept])
          · refine hall.imp (congrArg (graph :: ·)) ?_
            rintro ⟨f, hf, hreached⟩
            exact ⟨f, fun hmem => hf (hrec.mem f hmem), hreached.cons graph⟩
        · -- the root leads to a node that was inserted
          obtain ⟨roots, hroots, hsim⟩ := cycleLoopRehashed_simulates fuel later
            (r := (r.1 || r'.1, r'.2)) hs' hvertices'
          refine ⟨graph :: roots, List.forall_mem_cons.mpr ⟨hroot, hroots⟩, ?_, rfl, .inr ?_⟩
          · exact simulates_searchAll_some hs hgraph hwhite hr' (by rwa [if_neg hkept])
          · obtain ⟨f, hf, hnew⟩ : ∃ f ∈ r'.2.uMap, f ∉ r.2.uMap := by
              simpa only [Kept, not_forall, exists_prop, AList.mem_keys] using hkept
            exact ⟨f, hnew, graph, List.mem_cons_self, (hrec.mem_or f hf).resolve_left hnew⟩
    · rename_i hcolor
      obtain ⟨roots, hroots, hsim, -, hall⟩ := ih hs hvertices hgraphs
      refine ⟨graph :: roots, List.forall_mem_cons.mpr ⟨hroot, hroots⟩, ?_, rfl, ?_⟩
      · rw [searchAll_cons_of_ne_white hcolor]
        exact hsim.mono fun f hf => hf.cons graph
      · refine hall.imp (congrArg (graph :: ·)) ?_
        rintro ⟨f, hf, hreached⟩
        exact ⟨f, hf, hreached.cons graph⟩

/-! ### What the check does -/

/-- All nodes are white, as the files are read. -/
def AllWhite (uMap : UMap) : Prop := ∀ f, (uMap.node f).col = .white

/-- The check returns `r`, and is a search from `roots`: the first function is the first root, and
all functions are roots, unless one of the roots leads to a name that is inserted. -/
structure Checked (uMap : UMap) (later roots : List String) (r : Bool × Walk) : Prop where
  check : uMap.cycleCheck later = some r
  recolored : uMap.Recolored (uMap.ReachedFrom roots) r.2.uMap
  search : searchAll uMap.visitSucc uMap.walkFuel roots (false, .init) = some (r.1, r.2.search)
  head : roots.head? = uMap.keys.head?
  all : roots = uMap.keys ∨ ∃ f ∉ uMap, uMap.ReachedFrom roots f

theorem AllWhite.search_init (hwhite : uMap.AllWhite) : (Walk.mk uMap []).search = .init :=
  congrArg (Search.mk · []) (funext fun f => congrArg Color.mark (hwhite f))

/-- **The check is a search**, which returns. -/
theorem exists_checked (hwhite : uMap.AllWhite) (later : List String) :
    ∃ roots r, uMap.Checked later roots r := by
  obtain ⟨roots, hroots, ⟨hmap, hrec⟩, hhead, hall⟩ :=
    cycleLoop_simulates later uMap.walkFuel (r := (false, ⟨uMap, []⟩)) (.refl uMap)
      (fun _ hf => mem_vertices_of_mem hf) fun f (hf : f ∈ uMap.keys) => hf
  rw [hwhite.search_init] at hmap
  obtain ⟨r', hr'⟩ := searchAll_visitSucc_isSome hroots
  rw [hr'] at hmap
  obtain ⟨r, hr, hfst⟩ := Option.map_eq_some_iff.mp hmap
  exact ⟨roots, r, hr, hrec r hr, hr'.trans (congrArg some hfst.symm), hhead, hall⟩

/-- A call in the search starts at a function. -/
theorem mem_of_cutCalls {f g : String} (h : uMap.CutCalls f g) : f ∈ uMap := by
  obtain ⟨child, hcall, -⟩ := h
  exact mem_of_calls hcall

/-- A function that calls a name without a node leads to every function: when the check inserts
the name it has come to all of them, or it will. -/
def Covers (uMap : UMap) : Prop :=
  ∀ f g, uMap.CutCalls f g → g ∉ uMap → ∀ h ∈ uMap, ReflTransGen uMap.CutCalls f h

namespace Checked

variable {later roots : List String} {r : Bool × Walk} {f : String}

/-- The check finds a cycle exactly if a root leads to one. -/
theorem found_iff (h : uMap.Checked later roots r) :
    r.1 = true ↔ ∃ v ∈ roots, ReachesCycle uMap.CutCalls v := by
  rw [← edge_visitSucc]
  exact searchAll_found_iff h.search

theorem not_acyclic (h : uMap.Checked later roots r) (hfound : r.1 = true) :
    ¬ Acyclic uMap.CutCalls := by
  obtain ⟨v, -, hcycle⟩ := h.found_iff.mp hfound
  exact hcycle.not_acyclic

theorem ordered (h : uMap.Checked later roots r) (hfound : r.1 = false) :
    Ordered uMap.visitSucc r.2.search.finished :=
  (searchAll_ordered h.search hfound).1.ordered

/-- What is finished is what the roots reach. -/
theorem mem_finished (h : uMap.Checked later roots r) (hfound : r.1 = false) :
    f ∈ r.2.search.finished ↔ ∃ v ∈ roots, ReflTransGen uMap.CutCalls v f := by
  rw [← edge_visitSucc]
  exact (searchAll_ordered h.search hfound).2 f

theorem mem_of_finished (h : uMap.Checked later roots r) (hfound : r.1 = false)
    (hf : f ∈ r.2.search.finished) : f ∈ r.2.uMap := by
  have hdone : (r.2.color f).mark = .done :=
    ((searchAll_ordered h.search hfound).1.done_iff f).mpr hf
  refine Walk.mem_of_color fun hcolor => ?_
  rw [hcolor] at hdone
  exact absurd hdone (by decide)

/-- The roots lead to every function, if the names to insert are called only where this does no
harm. -/
theorem reached (h : uMap.Checked later roots r) (hcovers : uMap.Covers) (hf : f ∈ uMap) :
    ∃ v ∈ roots, ReflTransGen uMap.CutCalls v f := by
  rcases h.all with hall | ⟨g, hg, v, hv, hreach⟩
  · exact ⟨f, hall ▸ hf, .refl⟩
  · -- the way to the name that was inserted ends with a call of it
    obtain ⟨u, hu, hcall⟩ := TransGen.tail'_iff.mp hreach
    exact ⟨v, hv, hu.trans (hcovers u g hcall hg f hf)⟩

theorem found_iff_of_covers (h : uMap.Checked later roots r) (hcovers : uMap.Covers) :
    r.1 = true ↔ ¬ Acyclic uMap.CutCalls := by
  refine ⟨h.not_acyclic, fun hcyclic => h.found_iff.mpr ?_⟩
  obtain ⟨u, hu⟩ : ∃ u, TransGen uMap.CutCalls u u := by
    simpa only [Acyclic, not_forall, not_not] using hcyclic
  obtain ⟨w, hcall, -⟩ := TransGen.head'_iff.mp hu
  obtain ⟨v, hv, hreach⟩ := h.reached hcovers (mem_of_cutCalls hcall)
  exact ⟨v, hv, u, hreach, hu⟩

/-- The order has all functions of the map that the check leaves. -/
theorem finished_perm (h : uMap.Checked later roots r) (hcovers : uMap.Covers)
    (hfound : r.1 = false) : r.2.search.finished.Perm r.2.uMap.keys := by
  refine (List.perm_ext_iff_of_nodup (h.ordered hfound).nodup r.2.uMap.keys_nodup).mpr fun f => ?_
  refine ⟨h.mem_of_finished hfound, fun hf => (h.mem_finished hfound).mpr ?_⟩
  rcases h.recolored.mem_or f hf with hf | ⟨v, hv, hreach⟩
  · exact h.reached hcovers hf
  · exact ⟨v, hv, hreach.to_reflTransGen⟩

end Checked

/-- **The check after an insertion.** If the first function leads to a name without a node, and
to no cycle, the loop may end with it. -/
theorem checked_of_first (hwhite : uMap.AllWhite) {f g : String} {names : List String}
    (hkeys : uMap.keys = f :: names) (hg : g ∉ uMap) (hreach : ReflTransGen uMap.CutCalls f g)
    (hcycle : ¬ ReachesCycle uMap.CutCalls f) : ∃ r, uMap.Checked [] [f] r := by
  have hf : f ∈ uMap := AList.mem_keys.mpr (hkeys ▸ List.mem_cons_self)
  obtain ⟨r', hr'⟩ : ∃ r', searchAll uMap.visitSucc uMap.walkFuel [f] (false, .init) = some r' :=
    searchAll_visitSucc_isSome (List.forall_mem_singleton.mpr (mem_vertices_of_mem hf))
  -- the visit of the function is all that the search does
  have hvisit := hr'
  have hunseen : (Search.init : Search String).mark f = .unseen := rfl
  rw [searchAll, if_pos hunseen] at hvisit
  obtain ⟨v, hv, hend⟩ := Option.bind_eq_some_iff.mp hvisit
  obtain rfl : (v.1, v.2) = r' := Option.some.inj hend
  have hnotFound : v.1 = false := by
    refine Bool.eq_false_iff.mpr fun hfound => hcycle ?_
    rw [← edge_visitSucc]
    simpa using (searchAll_found_iff hr').mp hfound
  have hdone : v.2.mark g = .done := by
    obtain ⟨hsound, hmem⟩ := searchAll_ordered hr' hnotFound
    rw [← edge_visitSucc] at hreach
    exact (hsound.done_iff g).mpr ((hmem g).mpr ⟨f, List.mem_singleton_self f, hreach⟩)
  obtain ⟨hsim, hrec⟩ := fdpUnorderdMap_simulates (s := ⟨uMap, []⟩) uMap.walkFuel (.refl uMap) hf
  rw [hwhite.search_init, hv] at hsim
  obtain ⟨r, hr, rfl⟩ := Option.map_eq_some_iff.mp hsim
  -- it has inserted the name, and there is nothing that the loop must come to
  have hkept : ¬ uMap.Kept r.2.uMap := by
    refine fun hkept => hg (hkept g (Walk.mem_of_color fun hcolor => ?_))
    change (r.2.color g).mark = .done at hdone
    rw [hcolor] at hdone
    exact absurd hdone (by decide)
  have hcheck : uMap.cycleCheck [] = some r := by
    have hcolor : (Walk.mk uMap []).color f = .white := hwhite f
    rw [cycleCheck, hkeys, cycleLoop]
    simp only [hcolor, hr, Option.bind_some, if_neg hkept]
    rfl
  have hfg : TransGen uMap.CutCalls f g :=
    (reflTransGen_iff_eq_or_transGen.mp hreach).resolve_left fun heq => hg (heq ▸ hf)
  have hreached : uMap.ReachedFrom [f] g := ⟨f, List.mem_singleton_self f, hfg⟩
  refine ⟨r, hcheck, ?_, hr', by rw [hkeys]; rfl, .inr ⟨g, hg, hreached⟩⟩
  exact (hrec r hr).mono fun h hh => ⟨f, List.mem_singleton_self f, hh⟩

/-! ### When the check is right -/

/-- Every function once, and each caller before all of its callees. -/
structure IsTopological (uMap : UMap) (order : List String) : Prop where
  perm : order.Perm uMap.keys
  before : ∀ f g, uMap.Calls f g → order.idxOf f < order.idxOf g

/-- What the check should do: `loop_found` says whether there is a cycle, and if there is none
the reversed `topological_order` is one. -/
def CheckCorrect (uMap : UMap) (later : List String) : Prop :=
  ∃ loopFound walk, uMap.cycleCheck later = some (loopFound, walk) ∧
    (loopFound = true ↔ ¬ Acyclic uMap.Calls) ∧
    (Acyclic uMap.Calls → uMap.IsTopological walk.vec.reverse)

/-- Every function that leads to a name without a node leads to a cycle. -/
def CyclesBeforeInsert (uMap : UMap) : Prop :=
  ∀ f ∈ uMap, (∃ g ∉ uMap, ReflTransGen uMap.CutCalls f g) → ReachesCycle uMap.CutCalls f

/-- The names of children have no NUL in them. -/
def NulFree (uMap : UMap) : Prop := ∀ f g, uMap.Calls f g → '\x00' ∉ g.toList

/-- A cut name has no NUL in it. -/
theorem nul_notMem_fromData (name : String) : '\x00' ∉ (fromData name).toList := by
  rw [fromData, String.toList_ofList]
  intro h
  exact absurd (List.mem_takeWhile_imp h) (by decide)

/-- A name without a NUL is not cut. -/
theorem fromData_eq {name : String} (h : '\x00' ∉ name.toList) : fromData name = name := by
  have hall : ∀ c ∈ name.toList, (decide (c ≠ '\x00')) = true := by
    intro c hc
    refine decide_eq_true ?_
    rintro rfl
    exact h hc
  rw [fromData, List.takeWhile_eq_self_iff.mpr hall, String.ofList_toList]

theorem NulFree.cutCalls_eq (h : uMap.NulFree) : uMap.CutCalls = uMap.Calls := by
  ext f g
  refine ⟨?_, ?_⟩
  · rintro ⟨child, hchild, rfl⟩
    rwa [fromData_eq (h f child hchild)]
  · intro hcall
    exact ⟨g, hcall, (fromData_eq (h f g hcall)).symm⟩

theorem NulFree.congr (hnul : uMap.NulFree) (h : uMap'.Calls = uMap.Calls) : uMap'.NulFree := by
  intro f g hcall
  rw [h] at hcall
  exact hnul f g hcall

theorem Covers.congr (hcovers : uMap.Covers) (hmem : ∀ f, f ∈ uMap' ↔ f ∈ uMap)
    (h : uMap'.Calls = uMap.Calls) : uMap'.Covers := by
  intro f g hcall hg
  rw [cutCalls_congr h] at hcall ⊢
  exact fun u hu => hcovers f g hcall (mt (hmem g).mpr hg) u ((hmem u).mp hu)

/-- Nothing is inserted if every child is a node and no name is cut. -/
theorem NulFree.covers (hnul : uMap.NulFree) (hclosed : ∀ f g, uMap.Calls f g → g ∈ uMap) :
    uMap.Covers := by
  intro f g hcall hg
  rw [hnul.cutCalls_eq] at hcall
  exact absurd (hclosed f g hcall) hg

/-- Without NULs the order is one of the call graph. -/
theorem NulFree.idxOf_lt (hnul : uMap.NulFree) {later roots : List String} {r : Bool × Walk}
    (h : uMap.Checked later roots r) (hcovers : uMap.Covers) (hfound : r.1 = false) {f g : String}
    (hcall : uMap.Calls f g) :
    r.2.search.finished.idxOf f < r.2.search.finished.idxOf g := by
  have hf : f ∈ r.2.search.finished :=
    (h.mem_finished hfound).mpr (h.reached hcovers (mem_of_calls hcall))
  rw [← hnul.cutCalls_eq, ← edge_visitSucc] at hcall
  exact (h.ordered hfound).idxOf_lt hf hcall

/-- A name with a NUL is not reached by calls of cut names. -/
theorem not_cutReach_of_nul {f g : String} (hg : '\x00' ∈ g.toList) (hne : f ≠ g) :
    ¬ ReflTransGen uMap.CutCalls f g := by
  intro hreach
  rcases ReflTransGen.cases_tail hreach with heq | ⟨h, -, child, -, rfl⟩
  · exact hne heq.symm
  · exact nul_notMem_fromData child hg

/-- **A call of a name with a NUL spoils the order** if its caller is the first function that
`main` comes to: the callee is not met on the way, so it is done later. -/
theorem not_isTopological_of_nul {f g : String} {names : List String}
    (hkeys : uMap.keys = f :: names) (hcall : uMap.Calls f g) (hmem : g ∈ uMap)
    (hg : '\x00' ∈ g.toList) (hne : f ≠ g) {later roots : List String} {r : Bool × Walk}
    (h : uMap.Checked later roots r) : ¬ uMap.IsTopological r.2.vec.reverse := by
  intro htopological
  have hhead : roots.head? = some f := by rw [h.head, hkeys, List.head?_cons]
  obtain ⟨roots', rfl⟩ := List.head?_eq_some_iff.mp hhead
  obtain ⟨first, later, heq, hnotLater, hreach⟩ := searchAll_first h.search
  change r.2.vec.reverse = later ++ first at heq
  rw [edge_visitSucc] at hreach
  have hbefore := htopological.before f g hcall
  rw [heq] at hbefore
  -- what got done with the caller has no NUL in its name
  have hnotFirst : g ∉ first := fun hmem => not_cutReach_of_nul hg hne (hreach g hmem)
  have hlater : g ∈ later := by
    have hlisted : g ∈ later ++ first := heq ▸ htopological.perm.mem_iff.mpr hmem
    exact (List.mem_append.mp hlisted).resolve_right hnotFirst
  rw [List.idxOf_append_of_mem hlater, List.idxOf_append_of_notMem hnotLater] at hbefore
  have hlt := List.idxOf_lt_length_of_mem hlater
  omega

theorem AllWhite.of_perm (hwhite : uMap.AllWhite) (h : uMap'.entries.Perm uMap.entries) :
    uMap'.AllWhite := by
  intro f
  rw [node_of_perm h]
  exact hwhite f

theorem CyclesBeforeInsert.of_perm (hcycles : uMap.CyclesBeforeInsert)
    (h : uMap'.entries.Perm uMap.entries) : uMap'.CyclesBeforeInsert := by
  have hmem {f : String} : f ∈ uMap' ↔ f ∈ uMap := (keys_of_perm h).mem_iff
  rintro f hf ⟨g, hg, hreach⟩
  rw [cutCalls_congr (calls_of_perm h)] at hreach ⊢
  exact hcycles f (hmem.mp hf) ⟨g, mt hmem.mpr hg, hreach⟩

/-- Without NULs the check is right. -/
theorem NulFree.checkCorrect (hnul : uMap.NulFree) (hwhite : uMap.AllWhite)
    (hclosed : ∀ f g, uMap.Calls f g → g ∈ uMap) (later : List String) :
    uMap.CheckCorrect later := by
  obtain ⟨roots, r, h⟩ := exists_checked hwhite later
  have hcovers := hnul.covers hclosed
  have hfound := h.found_iff_of_covers hcovers
  rw [hnul.cutCalls_eq] at hfound
  refine ⟨r.1, r.2, h.check, hfound, fun hacyclic => ?_⟩
  have hnotFound : r.1 = false := Bool.eq_false_iff.mpr fun htrue => hfound.mp htrue hacyclic
  refine ⟨(h.finished_perm hcovers hnotFound).trans ?_,
    fun f g hcall => hnul.idxOf_lt h hcovers hnotFound hcall⟩
  -- the check inserts nothing
  refine (List.perm_ext_iff_of_nodup r.2.uMap.keys_nodup uMap.keys_nodup).mpr fun f => ?_
  refine ⟨fun hf => (h.recolored.mem_or f hf).elim id ?_, h.recolored.mem f⟩
  rintro ⟨v, -, hreach⟩
  rw [hnul.cutCalls_eq] at hreach
  obtain ⟨u, -, hcall⟩ := TransGen.tail'_iff.mp hreach
  exact hclosed u f hcall

/-- Where both graphs have a cycle the check finds one, if it meets it whatever it inserts. -/
theorem checkCorrect_of_cyclic (hwhite : uMap.AllWhite) (hcyclic : ¬ Acyclic uMap.Calls)
    (hcut : ¬ Acyclic uMap.CutCalls) (hcycles : uMap.CyclesBeforeInsert) (later : List String) :
    uMap.CheckCorrect later := by
  obtain ⟨roots, r, h⟩ := exists_checked hwhite later
  refine ⟨r.1, r.2, h.check, ?_, fun hacyclic => absurd hacyclic hcyclic⟩
  refine iff_of_true (h.found_iff.mpr ?_) hcyclic
  rcases h.all with rfl | ⟨g, hg, v, hv, hreach⟩
  · -- all functions are roots, those on the cycle too
    obtain ⟨u, hu⟩ : ∃ u, TransGen uMap.CutCalls u u := by
      simpa only [Acyclic, not_forall, not_not] using hcut
    obtain ⟨w, hcall, -⟩ := TransGen.head'_iff.mp hu
    exact ⟨u, mem_of_cutCalls hcall, u, .refl, hu⟩
  · obtain ⟨w, hcall, -⟩ := TransGen.head'_iff.mp hreach
    exact ⟨v, hv, hcycles v (mem_of_cutCalls hcall) ⟨g, hg, hreach.to_reflTransGen⟩⟩

/-- What a correct check says of any walk that is its result. -/
theorem CheckCorrect.of_checked {later roots : List String} {r : Bool × Walk}
    (hcorrect : uMap.CheckCorrect later) (h : uMap.Checked later roots r) :
    (r.1 = true ↔ ¬ Acyclic uMap.Calls) ∧
      (Acyclic uMap.Calls → uMap.IsTopological r.2.vec.reverse) := by
  obtain ⟨loopFound, walk, hcheck, hfound, horder⟩ := hcorrect
  obtain rfl : r = (loopFound, walk) := Option.some.inj (h.check.symm.trans hcheck)
  exact ⟨hfound, horder⟩

/-- A check that is right in every order goes by no cut name if there is no cycle: else a caller
of a name with a NUL comes first in some order. -/
theorem nulFree_of_checkCorrect (hwhite : uMap.AllWhite)
    (hclosed : ∀ f g, uMap.Calls f g → g ∈ uMap) (hacyclic : Acyclic uMap.Calls)
    (hcorrect : ∀ uMap' : UMap, uMap'.entries.Perm uMap.entries → uMap'.CheckCorrect []) :
    uMap.NulFree := by
  intro f g hcall hg
  obtain ⟨uMap', hperm, names, hkeys⟩ := exists_perm_cons (mem_of_calls hcall)
  have hcalls := calls_of_perm hperm
  obtain ⟨roots, r, h⟩ := exists_checked (hwhite.of_perm hperm) []
  obtain ⟨-, horder⟩ := (hcorrect uMap' hperm).of_checked h
  rw [hcalls] at horder
  have hne : f ≠ g := by
    rintro rfl
    exact hacyclic f (.single hcall)
  have hmem : g ∈ uMap' := (keys_of_perm hperm).mem_iff.mpr (hclosed f g hcall)
  exact not_isTopological_of_nul hkeys (hcalls ▸ hcall) hmem hg hne h (horder hacyclic)

/-- A check that is right in every order meets a cycle from each function from which it inserts:
else such a function comes first, and no other. -/
theorem cyclesBeforeInsert_of_checkCorrect (hwhite : uMap.AllWhite)
    (hcyclic : ¬ Acyclic uMap.Calls)
    (hcorrect : ∀ uMap' : UMap, uMap'.entries.Perm uMap.entries → uMap'.CheckCorrect []) :
    uMap.CyclesBeforeInsert := by
  rintro f hf ⟨g, hg, hreach⟩
  by_contra hcycle
  obtain ⟨uMap', hperm, names, hkeys⟩ := exists_perm_cons hf
  rw [← cutCalls_congr (calls_of_perm hperm)] at hreach hcycle
  have hg' : g ∉ uMap' := mt (keys_of_perm hperm).mem_iff.mp hg
  obtain ⟨r, h⟩ := checked_of_first (hwhite.of_perm hperm) hkeys hg' hreach hcycle
  obtain ⟨hfound, -⟩ := (hcorrect uMap' hperm).of_checked h
  rw [calls_of_perm hperm] at hfound
  exact hcycle (by simpa using h.found_iff.mp (hfound.mpr hcyclic))

/-- **When the check is right**, for every order of iteration, also after an insertion: if no
child's name has a NUL in it, or if there is a cycle and one of cut names too, which is met
whatever is inserted. -/
theorem cycleCheck_correct_iff (hwhite : uMap.AllWhite)
    (hclosed : ∀ f g, uMap.Calls f g → g ∈ uMap) :
    (∀ uMap' : UMap, uMap'.entries.Perm uMap.entries → ∀ later, uMap'.CheckCorrect later) ↔
      uMap.NulFree ∨
        (¬ Acyclic uMap.Calls ∧ ¬ Acyclic uMap.CutCalls ∧ uMap.CyclesBeforeInsert) := by
  refine ⟨?_, ?_⟩
  · intro hcorrect
    have hempty : ∀ uMap' : UMap, uMap'.entries.Perm uMap.entries → uMap'.CheckCorrect [] :=
      fun uMap' hperm => hcorrect uMap' hperm []
    by_cases hacyclic : Acyclic uMap.Calls
    · exact .inl (nulFree_of_checkCorrect hwhite hclosed hacyclic hempty)
    · refine .inr ⟨hacyclic, ?_, cyclesBeforeInsert_of_checkCorrect hwhite hacyclic hempty⟩
      -- the cycle of calls that the check reports is one of cut names
      obtain ⟨roots, r, h⟩ := exists_checked hwhite []
      exact h.not_acyclic (((hempty uMap (.refl _)).of_checked h).1.mpr hacyclic)
  -- neither condition depends on the order of the entries
  · rintro (hnul | ⟨hcyclic, hcut, hcycles⟩) uMap' hperm later
    · refine (hnul.congr (calls_of_perm hperm)).checkCorrect (hwhite.of_perm hperm)
        (fun f g hcall => ?_) later
      rw [calls_of_perm hperm] at hcall
      exact (keys_of_perm hperm).mem_iff.mpr (hclosed f g hcall)
    · refine checkCorrect_of_cyclic (hwhite.of_perm hperm) ?_ ?_ ?_ later
      · rwa [calls_of_perm hperm]
      · rwa [cutCalls_congr (calls_of_perm hperm)]
      · exact hcycles.of_perm hperm

theorem allWhite_of_entries (h : ∀ e ∈ uMap.entries, e.2.col = .white) : uMap.AllWhite := by
  intro f
  by_cases hf : f ∈ uMap
  · exact h ⟨f, uMap.node f⟩ (AList.mem_lookup_iff.mp (lookup_eq_node hf))
  · rw [node_of_notMem hf]
    rfl

/-! ### Two graphs -/

/-- A caller and the function that is called. -/
def callOf (caller callee : String) : UMap :=
  List.toAList [⟨caller, { children := [callee], frameSize := 16 }⟩,
    ⟨callee, { children := [], frameSize := 8 }⟩]

theorem callOf_isCallGraph : (callOf "kernel_main" "print").IsCallGraph :=
  isCallGraph_of_rank (fun f => if f = "print" then 0 else 1) (by decide +kernel)

/-- One call of a name without a NUL. -/
theorem cycleCheck_correct_iff_call :
    (∀ uMap' : UMap, uMap'.entries.Perm (callOf "kernel_main" "print").entries →
        ∀ later, uMap'.CheckCorrect later) ↔
      (callOf "kernel_main" "print").NulFree ∨
        (¬ Acyclic (callOf "kernel_main" "print").Calls ∧
          ¬ Acyclic (callOf "kernel_main" "print").CutCalls ∧
          (callOf "kernel_main" "print").CyclesBeforeInsert) :=
  cycleCheck_correct_iff (allWhite_of_entries (by decide +kernel)) callOf_isCallGraph.closed

/-- The check goes to a function `x` instead of the one with the longer name. -/
def nulMap : UMap :=
  List.toAList [⟨"m", { children := ["x\x00y"], frameSize := 16 }⟩,
    ⟨"x", { children := [], frameSize := 8 }⟩, ⟨"x\x00y", { children := [], frameSize := 8 }⟩]

theorem nulMap_isCallGraph : nulMap.IsCallGraph :=
  isCallGraph_of_rank (fun f => if f = "m" then 1 else 0) (by decide +kernel)

theorem nulMap_calls : nulMap.Calls "m" "x\x00y" :=
  calls_iff.mpr (by decide +kernel : "x\x00y" ∈ (nulMap.node "m").children)

/-- **A callee before its caller.** The order of the check has `x\x00y` before `m`, which calls
it. -/
theorem nul_name_out_of_order :
    nulMap.IsCallGraph ∧ nulMap.AllWhite ∧ nulMap.Calls "m" "x\x00y" ∧
      ((nulMap.cycleCheck []).map fun r => (r.1, r.2.vec.reverse))
        = some (false, ["x\x00y", "m", "x"]) ∧
      ¬ nulMap.CheckCorrect [] := by
  have hcheck : ((nulMap.cycleCheck []).map fun r => (r.1, r.2.vec.reverse))
      = some (false, ["x\x00y", "m", "x"]) := by decide +kernel
  refine ⟨nulMap_isCallGraph, allWhite_of_entries (by decide +kernel), nulMap_calls, hcheck, ?_⟩
  rintro ⟨loopFound, walk, hr, -, horder⟩
  rw [hr] at hcheck
  have hvec : walk.vec.reverse = ["x\x00y", "m", "x"] :=
    congrArg Prod.snd (Option.some.inj hcheck)
  have hbefore := (horder nulMap_isCallGraph.acyclic).before _ _ nulMap_calls
  rw [hvec] at hbefore
  exact absurd hbefore (by decide)

end UMap
end BareMetal
