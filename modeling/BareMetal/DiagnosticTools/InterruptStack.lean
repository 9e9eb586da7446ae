import BareMetal.DiagnosticTools.StackCalculator
import BareMetal.Framework.CallGraph

/-!
# What the interrupt stack size bounds

On an acyclic call graph the walk `get_subtree_depth` returns (`subtreeDepth_isSome`), with
the same result for any fuel that is enough (`getSubtreeDepth_mono`), and a pass over
handlers computes the largest of their depths (`stackSizePass_eq`). So the stack size is
the larger of two maxima, and the question is over which handlers they are taken.

The bound of the first loop is a constant of its own, and the array has outgrown it: it
has eighteen names, the constant says thirteen. The frame allocators for SSE2 and AVX2 and
the three functions that free frames are never looked at. The stack size bounds all
handlers exactly if each of these five happens to be no deeper than a handler that is
looked at (`interruptStack_bounds_iff`).
-/

namespace BareMetal

open Framework

namespace UMap

variable {uMap : UMap}

/-! ### The graph in the map -/

/-- `f` has `g` among its callees. -/
def Calls (uMap : UMap) (f g : String) : Prop :=
  ∃ node, uMap.lookup f = some node ∧ g ∈ node.children

/-- The map is an acyclic call graph: calls are calls of its functions, and no function
reaches itself. -/
structure IsCallGraph (uMap : UMap) : Prop where
  closed : ∀ f g, uMap.Calls f g → g ∈ uMap
  acyclic : Acyclic uMap.Calls

/-- A call is an entry and a callee in it. -/
theorem calls_entry {f g : String} (h : uMap.Calls f g) :
    ∃ e ∈ uMap.entries, e.1 = f ∧ g ∈ e.2.children := by
  obtain ⟨node, hnode, hg⟩ := h
  exact ⟨⟨f, node⟩, AList.mem_lookup_iff.mp hnode, rfl, hg⟩

/-- There is no cycle if a rank goes down along the calls. -/
theorem acyclic_of_entries (rank : String → ℕ)
    (h : ∀ e ∈ uMap.entries, ∀ g ∈ e.2.children, rank g < rank e.1) : Acyclic uMap.Calls := by
  refine acyclic_of_rank rank fun f g hcall => ?_
  obtain ⟨e, he, rfl, hg⟩ := calls_entry hcall
  exact h e he g hg

/-- A map is a call graph if its callees are functions and a rank goes down along the calls. -/
theorem isCallGraph_of_rank (rank : String → ℕ)
    (h : ∀ e ∈ uMap.entries, ∀ g ∈ e.2.children, g ∈ uMap ∧ rank g < rank e.1) :
    uMap.IsCallGraph := by
  refine ⟨fun f g hcall => ?_, acyclic_of_entries rank fun e he g hg => (h e he g hg).2⟩
  obtain ⟨e, he, rfl, hg⟩ := calls_entry hcall
  exact (h e he g hg).1

theorem exists_lookup {f : String} (hf : f ∈ uMap) : ∃ node, uMap.lookup f = some node :=
  Option.isSome_iff_exists.mp (AList.lookup_isSome.mpr hf)

/-- The functions of the map. -/
def functions (uMap : UMap) : Finset String := uMap.keys.toFinset

theorem mem_functions {f : String} : f ∈ uMap.functions ↔ f ∈ uMap :=
  List.mem_toFinset

/-- There are as many functions as levels of fuel. -/
theorem card_functions : uMap.functions.card = uMap.fuel :=
  (List.toFinset_card_of_nodup uMap.nodupKeys).trans (List.length_map _)

/-! ### Writing to a node -/

theorem lookup_replace (f g : String) (new : GraphCi) :
    (uMap.replace f new).lookup g
      = (uMap.lookup g).map fun node => if f = g then new else node := by
  obtain ⟨entries, hnodup⟩ := uMap
  change (entries.kreplace f new).dlookup g = (entries.dlookup g).map _
  clear hnodup
  unfold List.kreplace
  -- on the entries: replacement and lookup both stop at the first match
  induction entries with
  | nil => rfl
  | cons e entries ih =>
    obtain ⟨k, node⟩ := e
    by_cases hf : f = k
    · -- the entry is replaced, and those after it are not looked at
      subst hf
      rw [List.lookmap_cons]
      simp only [if_true]
      by_cases hg : g = f
      · subst hg
        rw [List.dlookup_cons_eq, List.dlookup_cons_eq, Option.map_some, if_pos rfl]
      · rw [List.dlookup_cons_ne _ _ hg, List.dlookup_cons_ne _ _ hg]
        simp only [if_neg (Ne.symm hg), Option.map_id']
    · rw [List.lookmap_cons]
      simp only [if_neg hf]
      by_cases hg : g = k
      · subst hg
        rw [List.dlookup_cons_eq, List.dlookup_cons_eq, Option.map_some, if_neg hf]
      · rw [List.dlookup_cons_ne _ _ hg, List.dlookup_cons_ne _ _ hg]
        exact ih

/-- A write to a node, through a pointer to it. -/
def update (uMap : UMap) (name : String) (write : GraphCi → GraphCi) : UMap :=
  match uMap.lookup name with
  | some node => uMap.replace name (write node)
  | none => uMap

/-- Only one node changes. -/
theorem lookup_update (f g : String) (write : GraphCi → GraphCi) :
    (uMap.update g write).lookup f
      = (uMap.lookup f).map fun node => if g = f then write node else node := by
  unfold update
  cases hg : uMap.lookup g with
  | none =>
    -- nothing is written, and the function is not one of the map
    by_cases hgf : g = f
    · subst hgf
      change uMap.lookup g = _
      rw [hg]
      rfl
    · simp only [if_neg hgf, Option.map_id']
  | some node =>
    change (uMap.replace g _).lookup f = _
    rw [lookup_replace]
    by_cases hgf : g = f
    · subst hgf
      simp only [if_true, hg, Option.map_some]
    · simp only [if_neg hgf]

@[simp] theorem mem_update {f g : String} {write : GraphCi → GraphCi} :
    f ∈ uMap.update g write ↔ f ∈ uMap := by
  rw [← AList.lookup_isSome, lookup_update, Option.isSome_map, AList.lookup_isSome]

/-- Only the frame size of one function changes. -/
theorem lookup_setFrameSize (f g : String) (frameSize : ℕ) :
    (uMap.setFrameSize f frameSize).lookup g = (uMap.lookup g).map fun node =>
      if f = g then { node with frameSize := frameSize } else node :=
  lookup_update g f _

theorem lookup_setFrameSize_self {f : String} {node : GraphCi} (hf : uMap.lookup f = some node)
    (frameSize : ℕ) :
    (uMap.setFrameSize f frameSize).lookup f = some { node with frameSize := frameSize } := by
  rw [lookup_setFrameSize, hf, Option.map_some, if_pos rfl]

theorem mem_setFrameSize {f g : String} {frameSize : ℕ} :
    g ∈ uMap.setFrameSize f frameSize ↔ g ∈ uMap :=
  mem_update

theorem calls_setFrameSize (f : String) (frameSize : ℕ) :
    (uMap.setFrameSize f frameSize).Calls = uMap.Calls := by
  ext g h
  have hchildren : ∀ node : GraphCi,
      (if f = g then { node with frameSize := frameSize } else node).children = node.children :=
    fun node => by split <;> rfl
  unfold Calls
  rw [lookup_setFrameSize]
  cases uMap.lookup g with
  | none => exact Iff.rfl
  | some node =>
    refine ⟨?_, ?_⟩
    · rintro ⟨node', hnode', hmem⟩
      obtain rfl := Option.some.inj hnode'
      exact ⟨node, rfl, hchildren node ▸ hmem⟩
    · rintro ⟨node', hnode', hmem⟩
      obtain rfl := Option.some.inj hnode'
      exact ⟨_, rfl, (hchildren node).symm ▸ hmem⟩

theorem IsCallGraph.setFrameSize (h : uMap.IsCallGraph) (f : String) (frameSize : ℕ) :
    (uMap.setFrameSize f frameSize).IsCallGraph := by
  refine ⟨?_, ?_⟩
  · intro g g' hcall
    rw [calls_setFrameSize] at hcall
    exact mem_setFrameSize.mpr (h.closed g g' hcall)
  · rw [calls_setFrameSize]
    exact h.acyclic

/-! ### The depth of a function -/

/-- The loop over the children takes the maximum. -/
theorem maxDepth_eq {depth : String → Option ℕ} {d : String → ℕ} {children : List String}
    (h : ∀ g ∈ children, depth g = some (d g)) (kernelDist : ℕ) :
    maxDepth depth children kernelDist = some (max kernelDist (largest (children.map d))) := by
  induction children generalizing kernelDist with
  | nil => exact congrArg some (Nat.max_zero kernelDist).symm
  | cons g children ih =>
    have hrest : ∀ g' ∈ children, depth g' = some (d g') := by
      intro g' hg'
      exact h g' (List.mem_cons_of_mem g hg')
    calc maxDepth depth (g :: children) kernelDist
      _ = maxDepth depth children (max kernelDist (d g)) := by
        rw [maxDepth, h g List.mem_cons_self]
        rfl
      _ = some (max (max kernelDist (d g)) (largest (children.map d))) := ih hrest _
      _ = some (max kernelDist (max (d g) (largest (children.map d)))) := by rw [max_assoc]

/-- The loop does not mind being able to do more with a child. -/
theorem maxDepth_mono {depth depth' : String → Option ℕ}
    (h : ∀ g d, depth g = some d → depth' g = some d) {children : List String}
    {kernelDist d : ℕ} (hd : maxDepth depth children kernelDist = some d) :
    maxDepth depth' children kernelDist = some d := by
  induction children generalizing kernelDist with
  | nil => exact hd
  | cons g children ih =>
    change (depth g).bind _ = some d at hd
    change (depth' g).bind _ = some d
    obtain ⟨dg, hdg, hrest⟩ := Option.bind_eq_some_iff.mp hd
    rw [h g dg hdg]
    exact ih hrest

/-- **The depth does not depend on the fuel.** A walk that returns does so with more fuel as
well, and with the same result. -/
theorem getSubtreeDepth_mono {fuel fuel' : ℕ} (hle : fuel ≤ fuel') {node : GraphCi} {d : ℕ}
    (hd : getSubtreeDepth uMap fuel node = some d) : getSubtreeDepth uMap fuel' node = some d := by
  induction fuel generalizing fuel' node d with
  | zero => exact absurd hd (by simp [getSubtreeDepth])
  | succ fuel ih =>
    obtain ⟨fuel', rfl⟩ := Nat.exists_eq_add_one.mpr (Nat.zero_lt_of_lt hle)
    change (maxDepth _ node.children 0).bind _ = some d at hd
    change (maxDepth _ node.children 0).bind _ = some d
    obtain ⟨kernelDist, hmax, hsum⟩ := Option.bind_eq_some_iff.mp hd
    have hchild : ∀ g dg, (uMap.lookup g).bind (getSubtreeDepth uMap fuel) = some dg →
        (uMap.lookup g).bind (getSubtreeDepth uMap fuel') = some dg := by
      intro g dg hg
      obtain ⟨node', hnode', hdg⟩ := Option.bind_eq_some_iff.mp hg
      rw [hnode']
      exact ih (Nat.le_of_succ_le_succ hle) hdg
    rw [maxDepth_mono hchild hmax]
    exact hsum

/-- **The walk returns.** The fuel need only be more than the number of functions that
this one reaches. -/
theorem getSubtreeDepth_isSome (h : uMap.IsCallGraph) {fuel : ℕ} {f : String} {node : GraphCi}
    (hf : uMap.lookup f = some node)
    (hfuel : (descendants uMap.functions uMap.Calls f).card < fuel) :
    ∃ d, getSubtreeDepth uMap fuel node = some d := by
  induction fuel generalizing f node with
  | zero => exact absurd hfuel (Nat.not_lt_zero _)
  | succ fuel ih =>
    -- every callee is in the map and reaches fewer functions
    have hchild : ∀ g, ∃ d, g ∈ node.children →
        (uMap.lookup g).bind (getSubtreeDepth uMap fuel) = some d := by
      intro g
      by_cases hg : g ∈ node.children
      · have hcall : uMap.Calls f g := ⟨node, hf, hg⟩
        have hmem := h.closed f g hcall
        obtain ⟨node', hnode'⟩ := exists_lookup hmem
        have hlt := card_descendants_lt_of_calls h.acyclic hcall (mem_functions.mpr hmem)
        obtain ⟨d, hd⟩ := ih hnode' (by omega)
        exact ⟨d, fun _ => by rw [hnode']; exact hd⟩
      · exact ⟨0, fun hg' => absurd hg' hg⟩
    choose d hd using hchild
    refine ⟨u64 (node.frameSize + max 0 (largest (node.children.map d))), ?_⟩
    rw [getSubtreeDepth, maxDepth_eq hd]
    rfl

theorem subtreeDepth_isSome (h : uMap.IsCallGraph) {f : String} (hf : f ∈ uMap) :
    ∃ d, uMap.subtreeDepth f = some d := by
  obtain ⟨node, hnode⟩ := exists_lookup hf
  obtain ⟨d, hd⟩ := getSubtreeDepth_isSome h hnode
    (card_functions ▸ card_descendants_lt h.acyclic (mem_functions.mpr hf))
  exact ⟨d, by unfold subtreeDepth; rw [hnode]; exact hd⟩

/-- The depth of a function of a call graph. -/
def depthOf (uMap : UMap) (f : String) : ℕ := (uMap.subtreeDepth f).getD 0

theorem subtreeDepth_eq (h : uMap.IsCallGraph) {f : String} (hf : f ∈ uMap) :
    uMap.subtreeDepth f = some (uMap.depthOf f) := by
  obtain ⟨d, hd⟩ := subtreeDepth_isSome h hf
  unfold depthOf
  rw [hd]
  rfl

end UMap

/-! ### The passes -/

section Passes

variable {what : String} {uMap : UMap}

/-- **A pass takes the maximum.** With all handlers in the map nothing is printed. -/
theorem stackSizePass_eq (h : uMap.IsCallGraph) {names : List String}
    (hnames : ∀ f ∈ names, f ∈ uMap) (r : ℕ × String) :
    stackSizePass what uMap names r
      = some (max r.1 (largest (names.map uMap.depthOf)), r.2) := by
  induction names generalizing r with
  | nil => exact congrArg (fun n => some (n, r.2)) (Nat.max_zero r.1).symm
  | cons f names ih =>
    have hdepth := UMap.subtreeDepth_eq h (hnames f List.mem_cons_self)
    have hrest : ∀ g ∈ names, g ∈ uMap := by
      intro g hg
      exact hnames g (List.mem_cons_of_mem f hg)
    obtain ⟨node, hnode⟩ := UMap.exists_lookup (hnames f List.mem_cons_self)
    unfold UMap.subtreeDepth at hdepth
    rw [hnode, Option.bind_some] at hdepth
    calc stackSizePass what uMap (f :: names) r
      _ = (getSubtreeDepth uMap uMap.fuel node).bind fun d =>
          stackSizePass what uMap names (max r.1 d, r.2) := by
        rw [stackSizePass, hnode]
        rfl
      _ = stackSizePass what uMap names (max r.1 (uMap.depthOf f), r.2) := by
        rw [hdepth, Option.bind_some]
      _ = some (max (max r.1 (uMap.depthOf f)) (largest (names.map uMap.depthOf)), r.2) :=
        ih hrest _
      _ = some (max r.1 (max (uMap.depthOf f) (largest (names.map uMap.depthOf))), r.2) := by
        rw [max_assoc]

/-- The names that the first loop looks at. -/
def counted : List String := undependedInterruptMethods.take undependedInterruptMethodsSize

/-- The names that are in the first array but that no loop looks at. -/
def uncounted : List String := undependedInterruptMethods.drop undependedInterruptMethodsSize

/-- The map in which `__indirect_call` weighs as much as the deepest handler looked at. -/
def weighIndirectCall (uMap : UMap) : UMap :=
  uMap.setFrameSize indirectCall (u32 (largest (counted.map uMap.depthOf)))

theorem firstPass_eq (h : uMap.IsCallGraph) (hindirect : indirectCall ∈ uMap)
    (hnames : ∀ f ∈ undependedInterruptMethods, f ∈ uMap) :
    firstPass what uMap
      = some ⟨largest (counted.map uMap.depthOf), "", weighIndirectCall uMap⟩ := by
  obtain ⟨node, hnode⟩ := UMap.exists_lookup hindirect
  unfold firstPass
  rw [hnode]
  change (stackSizePass what uMap counted (0, "")).bind _ = _
  have hcounted : ∀ f ∈ counted, f ∈ uMap := fun f hf => hnames f (List.mem_of_mem_take hf)
  rw [stackSizePass_eq h hcounted, Option.bind_some, Nat.zero_max]
  rfl

/-- The larger of the two maxima. -/
def interruptStackSize (uMap : UMap) : ℕ :=
  max (largest (counted.map uMap.depthOf))
    (largest (dependedInterruptMethods.map (weighIndirectCall uMap).depthOf))

/-- **The stack size is the larger of the two maxima.** -/
theorem getInterruptStackSize_eq (h : uMap.IsCallGraph) (hindirect : indirectCall ∈ uMap)
    (hundepended : ∀ f ∈ undependedInterruptMethods, f ∈ uMap)
    (hdepended : ∀ f ∈ dependedInterruptMethods, f ∈ uMap) :
    getInterruptStackSize what uMap = some ⟨interruptStackSize uMap, "",
      (weighIndirectCall uMap).setFrameSize indirectCall (u32 (interruptStackSize uMap))⟩ := by
  have h' : (weighIndirectCall uMap).IsCallGraph := h.setFrameSize _ _
  have hdepended' : ∀ f ∈ dependedInterruptMethods, f ∈ weighIndirectCall uMap :=
    fun f hf => UMap.mem_setFrameSize.mpr (hdepended f hf)
  unfold getInterruptStackSize
  rw [firstPass_eq h hindirect hundepended, Option.bind_some]
  -- the second array has the size of its constant
  change (stackSizePass what _ dependedInterruptMethods _).bind _ = _
  rw [stackSizePass_eq h' hdepended']
  rfl

end Passes

/-! ### The bound -/

/-- The stack size `last` bounds the handlers of both arrays, those of the second one after
the first pass, which left `first`; and `__indirect_call` has it for its weight. -/
structure BoundsHandlers (uMap : UMap) (first last : StackSize) : Prop where
  undepended : ∀ f ∈ undependedInterruptMethods,
    ∃ d, uMap.subtreeDepth f = some d ∧ d ≤ last.stackSize
  depended : ∀ f ∈ dependedInterruptMethods,
    ∃ d, first.uMap.subtreeDepth f = some d ∧ d ≤ last.stackSize
  indirect : last.stackSize < 2 ^ 32 →
    ∃ node, last.uMap.lookup indirectCall = some node ∧ node.frameSize = last.stackSize

/-- Every handler that no loop looks at is no deeper than one that a loop looks at. -/
def UncountedCovered (uMap : UMap) : Prop :=
  ∀ g ∈ uncounted, (∃ f ∈ counted, uMap.depthOf g ≤ uMap.depthOf f) ∨
    ∃ f ∈ dependedInterruptMethods, uMap.depthOf g ≤ (weighIndirectCall uMap).depthOf f

theorem uncountedCovered_iff (uMap : UMap) :
    UncountedCovered uMap ↔ ∀ g ∈ uncounted, uMap.depthOf g ≤ interruptStackSize uMap := by
  apply forall₂_congr
  intro g _
  unfold interruptStackSize
  have hcounted : counted ≠ [] := by decide
  have hdepended : dependedInterruptMethods ≠ [] := by decide
  rw [le_max_iff, le_largest_map_iff hcounted, le_largest_map_iff hdepended]

/-- **When the stack size bounds the handlers.** On every acyclic call graph with all the
handlers it is computed, and it bounds the handlers of both arrays exactly if those that
the first loop stops short of are no deeper than the others. -/
theorem interruptStack_bounds_iff (what : String) {uMap : UMap} (hgraph : uMap.IsCallGraph)
    (hindirect : indirectCall ∈ uMap) (hundepended : ∀ f ∈ undependedInterruptMethods, f ∈ uMap)
    (hdepended : ∀ f ∈ dependedInterruptMethods, f ∈ uMap) :
    ∃ first last, firstPass what uMap = some first ∧
      getInterruptStackSize what uMap = some last ∧
      (BoundsHandlers uMap first last ↔ UncountedCovered uMap) := by
  refine ⟨_, _, firstPass_eq hgraph hindirect hundepended,
    getInterruptStackSize_eq hgraph hindirect hundepended hdepended, ?_⟩
  rw [uncountedCovered_iff]
  refine ⟨?_, ?_⟩
  · intro hbounds g hg
    obtain ⟨d, hd, hle⟩ := hbounds.undepended g (List.mem_of_mem_drop hg)
    rw [UMap.subtreeDepth_eq hgraph (hundepended g (List.mem_of_mem_drop hg))] at hd
    exact Option.some.inj hd ▸ hle
  · intro hcovered
    refine ⟨fun f hf => ⟨_, UMap.subtreeDepth_eq hgraph (hundepended f hf), ?_⟩,
      fun f hf => ⟨_, UMap.subtreeDepth_eq (hgraph.setFrameSize _ _)
        (UMap.mem_setFrameSize.mpr (hdepended f hf)), ?_⟩, ?_⟩
    · -- a name of the first array is one of the first thirteen or one of the last five
      rw [← List.take_append_drop undependedInterruptMethodsSize undependedInterruptMethods,
        List.mem_append] at hf
      rcases hf with hf | hf
      · exact le_max_of_le_left (le_largest (List.mem_map_of_mem hf))
      · exact hcovered f hf
    · exact le_max_of_le_right (le_largest (List.mem_map_of_mem hf))
    · intro hlt
      -- both writes went to the same node
      obtain ⟨node, hnode⟩ := UMap.exists_lookup hindirect
      exact ⟨_, UMap.lookup_setFrameSize_self (UMap.lookup_setFrameSize_self hnode _) _,
        Nat.mod_eq_of_lt hlt⟩

/-! ### Two graphs -/

/-- The functions that the tool asks for. -/
def handlers : List String :=
  undependedInterruptMethods ++ dependedInterruptMethods ++ [indirectCall]

/-- A handler without callees; the depended ones make calls through pointers. -/
def handlerNode (frameSize : String → ℕ) (f : String) : GraphCi where
  children := if f ∈ dependedInterruptMethods then [indirectCall] else []
  frameSize := frameSize f

/-- A graph with nothing but the handlers. -/
def handlersMap (frameSize : String → ℕ) : UMap :=
  List.toAList (handlers.map fun f => ⟨f, handlerNode frameSize f⟩)

section HandlersMap

variable {frameSize : String → ℕ} {f : String}

theorem mem_handlersMap : f ∈ handlersMap frameSize ↔ f ∈ handlers := by
  rw [← AList.lookup_isSome, handlersMap, AList.lookup_to_alist, List.dlookup_isSome]
  simp only [List.keys, List.map_map, Function.comp_def, List.map_id']

theorem eq_handlerNode {node : GraphCi} (h : (handlersMap frameSize).lookup f = some node) :
    node = handlerNode frameSize f := by
  rw [handlersMap, AList.lookup_to_alist] at h
  obtain ⟨g, -, hg⟩ := List.mem_map.mp (List.of_mem_dlookup h)
  cases hg
  rfl

theorem lookup_handlersMap (hf : f ∈ handlers) :
    (handlersMap frameSize).lookup f = some (handlerNode frameSize f) := by
  obtain ⟨node, hnode⟩ := UMap.exists_lookup (mem_handlersMap.mpr hf)
  rw [hnode, eq_handlerNode hnode]

theorem handlersMap_isCallGraph : (handlersMap frameSize).IsCallGraph := by
  refine UMap.isCallGraph_of_rank (fun f => if f = indirectCall then 0 else 1) ?_
  intro e he g hg
  rw [eq_handlerNode (AList.mem_lookup_iff.mpr he)] at hg
  -- the only callee there is has no callees
  change g ∈ (if e.1 ∈ dependedInterruptMethods then [indirectCall] else []) at hg
  by_cases hdepended : e.1 ∈ dependedInterruptMethods
  · rw [if_pos hdepended] at hg
    obtain rfl := List.mem_singleton.mp hg
    refine ⟨mem_handlersMap.mpr (List.mem_append_right _ hg), ?_⟩
    have hne : e.1 ≠ indirectCall := by
      rintro heq
      rw [heq] at hdepended
      exact absurd hdepended (by decide)
    rw [if_pos rfl, if_neg hne]
    exact Nat.zero_lt_one
  · rw [if_neg hdepended] at hg
    exact absurd hg List.not_mem_nil

theorem undepended_mem_handlersMap (hf : f ∈ undependedInterruptMethods) :
    f ∈ handlersMap frameSize :=
  mem_handlersMap.mpr (List.mem_append_left _ (List.mem_append_left _ hf))

theorem depended_mem_handlersMap (hf : f ∈ dependedInterruptMethods) :
    f ∈ handlersMap frameSize :=
  mem_handlersMap.mpr (List.mem_append_left _ (List.mem_append_right _ hf))

theorem indirectCall_mem_handlersMap : indirectCall ∈ handlersMap frameSize :=
  mem_handlersMap.mpr (List.mem_append_right _ (List.mem_singleton_self _))

end HandlersMap

/-- Equal frames: the five that are left out do not matter. -/
theorem interruptStack_bounds_iff_even :
    let uMap := handlersMap fun f => if f = indirectCall then 0 else 32
    ∃ first last, firstPass "" uMap = some first ∧ getInterruptStackSize "" uMap = some last ∧
      (BoundsHandlers uMap first last ↔ UncountedCovered uMap) :=
  interruptStack_bounds_iff "" handlersMap_isCallGraph indirectCall_mem_handlersMap
    (fun _ => undepended_mem_handlersMap) fun _ => depended_mem_handlersMap

/-- The last name of the first array. -/
def setFramesFreeAvx2 : String := "kernel/pmm.cpp:_ZN12_GLOBAL__N_1L20set_frames_free_avx2EPhPKh"

/-- The handlers with a large frame for one that no loop looks at. -/
def deepMap : UMap := handlersMap fun f =>
  if f = indirectCall then 0 else if f = setFramesFreeAvx2 then 512 else 32

/-- **A handler that the stack size leaves out.** With 512 bytes for a function that frees
frames, and 32 for each other, the interrupt stack gets 64. -/
theorem deep_handler_left_out :
    deepMap.IsCallGraph ∧ deepMap.lookup indirectCall = some { children := [], frameSize := 0 } ∧
      (∀ f ∈ undependedInterruptMethods, f ∈ deepMap) ∧
      (∀ f ∈ dependedInterruptMethods, f ∈ deepMap) ∧
      setFramesFreeAvx2 ∈ undependedInterruptMethods ∧
      (getInterruptStackSize "" deepMap).map (fun s => s.stackSize) = some 64 ∧
      deepMap.subtreeDepth setFramesFreeAvx2 = some 512 :=
  ⟨handlersMap_isCallGraph, lookup_handlersMap (by decide), fun _ => undepended_mem_handlersMap,
    fun _ => depended_mem_handlersMap, by decide, by decide +kernel, by decide +kernel⟩

end BareMetal
