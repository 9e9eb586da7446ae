import BareMetal.DiagnosticTools.InterruptStack

/-!
# Nodes of the map

The tool reads the map with `at`, which throws for a name that is not in it, and with
`operator[]`, which inserts an empty node for it. A name that is not there and one with an
empty node make the same graph. So everything about the graph is said in terms of `node`,
which reads a missing name as an empty node: inserting empty nodes does not show in it
(`node_touch`), and a write through a pointer to a node changes that node
(`node_update_self`, `node_update_of_ne`).
-/

namespace BareMetal

/-- The node that `operator[]` inserts. -/
def emptyNode : GraphCi := { children := [], frameSize := 0 }

namespace UMap

/-- The node of a name. -/
def node (uMap : UMap) (f : String) : GraphCi := (uMap.lookup f).getD emptyNode

/-- What `u_map[name]` does to the map. -/
def touch (uMap : UMap) (name : String) : UMap :=
  if name ∈ uMap then uMap else uMap.insert name emptyNode

variable {uMap uMap' : UMap} {f g : String} {write : GraphCi → GraphCi}

theorem lookup_eq_node (hf : f ∈ uMap) : uMap.lookup f = some (uMap.node f) := by
  obtain ⟨node, hnode⟩ := exists_lookup hf
  rw [UMap.node, hnode]
  rfl

theorem node_of_lookup {node : GraphCi} (h : uMap.lookup f = some node) : uMap.node f = node := by
  rw [UMap.node, h]
  rfl

theorem node_of_notMem (hf : f ∉ uMap) : uMap.node f = emptyNode := by
  rw [UMap.node, AList.lookup_eq_none.mpr hf]
  rfl

theorem calls_iff : uMap.Calls f g ↔ g ∈ (uMap.node f).children := by
  refine ⟨?_, ?_⟩
  · rintro ⟨node, hnode, hg⟩
    rwa [node_of_lookup hnode]
  · intro hg
    have hf : f ∈ uMap := by
      by_contra hf
      rw [node_of_notMem hf] at hg
      exact List.not_mem_nil hg
    exact ⟨_, lookup_eq_node hf, hg⟩

/-- A function with callees is in the map. -/
theorem mem_of_calls (h : uMap.Calls f g) : f ∈ uMap := by
  obtain ⟨node, hnode, -⟩ := h
  exact AList.lookup_isSome.mp (Option.isSome_iff_exists.mpr ⟨node, hnode⟩)

/-! ### Insertions -/

theorem mem_touch : f ∈ uMap.touch g ↔ f = g ∨ f ∈ uMap := by
  unfold touch
  split
  · rename_i hg
    exact ⟨.inr, fun h => h.elim (fun heq => heq ▸ hg) id⟩
  · exact AList.mem_insert _

@[simp] theorem node_touch : (uMap.touch g).node f = uMap.node f := by
  unfold touch
  split
  · rfl
  · rename_i hg
    by_cases hfg : f = g
    · subst hfg
      rw [node_of_notMem hg, UMap.node, AList.lookup_insert]
      rfl
    · rw [UMap.node, AList.lookup_insert_ne hfg]
      rfl

/-! ### Writes -/

theorem node_update_self (hf : f ∈ uMap) :
    (uMap.update f write).node f = write (uMap.node f) := by
  refine node_of_lookup ?_
  rw [lookup_update, lookup_eq_node hf, Option.map_some, if_pos rfl]

theorem node_update_of_ne (hne : f ≠ g) : (uMap.update g write).node f = uMap.node f := by
  rw [UMap.node, lookup_update]
  simp only [if_neg (Ne.symm hne), Option.map_id']
  rfl

/-- A write shows in one node, if at all. -/
theorem node_update_cases (uMap : UMap) (f g : String) (write : GraphCi → GraphCi) :
    (uMap.update g write).node f = uMap.node f ∨
      f = g ∧ (uMap.update g write).node f = write (uMap.node g) := by
  by_cases hfg : f = g
  · subst hfg
    by_cases hf : f ∈ uMap
    · exact .inr ⟨rfl, node_update_self hf⟩
    · exact .inl (by rw [node_of_notMem hf, node_of_notMem (mt mem_update.mp hf)])
  · exact .inl (node_update_of_ne hfg)

/-- A field of all nodes after a write. -/
theorem field_update {α : Type} (hg : g ∈ uMap) (field : GraphCi → α) :
    (fun f => field ((uMap.update g write).node f))
      = Function.update (fun f => field (uMap.node f)) g (field (write (uMap.node g))) := by
  ext f
  by_cases hfg : f = g
  · subst hfg
    rw [Function.update_self, node_update_self hg]
  · rw [Function.update_of_ne hfg, node_update_of_ne hfg]

/-- A field that a write leaves alone. -/
theorem field_update_eq {α : Type} (field : GraphCi → α)
    (h : field (write (uMap.node g)) = field (uMap.node g)) (f : String) :
    field ((uMap.update g write).node f) = field (uMap.node f) := by
  rcases node_update_cases uMap f g write with heq | ⟨rfl, heq⟩
  · rw [heq]
  · rw [heq, h]

/-! ### The same graph -/

/-- `uMap'` has the graph of `uMap`, with other colours and distances and maybe more empty
nodes. -/
structure SameGraph (uMap uMap' : UMap) : Prop where
  children_eq : ∀ f, (uMap'.node f).children = (uMap.node f).children
  frameSize_eq : ∀ f, (uMap'.node f).frameSize = (uMap.node f).frameSize
  mem : ∀ f ∈ uMap, f ∈ uMap'

theorem SameGraph.refl (uMap : UMap) : SameGraph uMap uMap :=
  ⟨fun _ => rfl, fun _ => rfl, fun _ hf => hf⟩

theorem SameGraph.trans {uMap₁ : UMap} (h₁ : SameGraph uMap uMap₁) (h : SameGraph uMap₁ uMap') :
    SameGraph uMap uMap' where
  children_eq f := (h.children_eq f).trans (h₁.children_eq f)
  frameSize_eq f := (h.frameSize_eq f).trans (h₁.frameSize_eq f)
  mem f hf := h.mem f (h₁.mem f hf)

theorem SameGraph.calls_eq (h : SameGraph uMap uMap') : uMap'.Calls = uMap.Calls := by
  ext f g
  rw [calls_iff, calls_iff, h.children_eq]

/-- A write that leaves the children and the frame size alone. -/
theorem sameGraph_update (hchildren : (write (uMap.node g)).children = (uMap.node g).children)
    (hframe : (write (uMap.node g)).frameSize = (uMap.node g).frameSize) :
    SameGraph uMap (uMap.update g write) where
  children_eq := field_update_eq GraphCi.children hchildren
  frameSize_eq := field_update_eq GraphCi.frameSize hframe
  mem _ hf := mem_update.mpr hf

/-! ### The order of iteration -/

theorem node_of_perm (h : uMap'.entries.Perm uMap.entries) (f : String) :
    uMap'.node f = uMap.node f := by
  rw [UMap.node, AList.perm_lookup h]
  rfl

theorem calls_of_perm (h : uMap'.entries.Perm uMap.entries) : uMap'.Calls = uMap.Calls := by
  ext f g
  rw [calls_iff, calls_iff, node_of_perm h]

theorem keys_of_perm (h : uMap'.entries.Perm uMap.entries) : uMap'.keys.Perm uMap.keys :=
  h.map _

/-- Any node of a map can come first. -/
theorem exists_perm_cons (hf : f ∈ uMap) : ∃ uMap' : UMap,
    uMap'.entries.Perm uMap.entries ∧ ∃ names, uMap'.keys = f :: names := by
  have hentry : ⟨f, uMap.node f⟩ ∈ uMap.entries := AList.mem_lookup_iff.mp (lookup_eq_node hf)
  obtain ⟨l₁, l₂, heq⟩ := List.append_of_mem hentry
  have hperm : (⟨f, uMap.node f⟩ :: (l₁ ++ l₂)).Perm uMap.entries := by
    rw [heq]
    exact List.perm_middle.symm
  exact ⟨⟨_, (List.perm_nodupKeys hperm).mpr uMap.nodupKeys⟩, hperm, (l₁ ++ l₂).keys, rfl⟩

end UMap
end BareMetal
