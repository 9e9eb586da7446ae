import BareMetal.DiagnosticTools.CallGraphText
import BareMetal.DiagnosticTools.FileOrder

/-!
# From the call-graph files to the linker

The compiler writes the call graph into files, the tool computes two numbers from them and writes
them to a file of its own, and the makefile gives the lines of that file that are not comments
to the linker.

For a call graph without cycles, in files that declare what they mention, the linker gets
the weight of the heaviest chain of calls from a handler, and of the heaviest one from
`kernel_main` where a call through a pointer weighs as much as a handler
(`report_heaviest`). That the frame sizes are read back is `itemOf_text`, that the map
has the graph of all files is `readFiles_spec`, that the walks find the heaviest chain is
`depthOf_isGreatest`; none of the sums wraps if three times all frames together are less
than `2 ^ 32`.
-/

namespace BareMetal

open Framework

/-! ### The graph of the files -/

namespace LineItem

/-- The frame size on a line. -/
def size? : LineItem → Option ℕ
  | .node _ frameSize => some frameSize
  | _ => none

/-- The call on a line. -/
def call? : LineItem → Option (String × String)
  | .edge sourceName (some targetName) => some (sourceName, targetName)
  | _ => none

/-- The calls that some lines have. -/
def calls (items : List LineItem) : List (String × String) := items.filterMap call?

/-- Which functions call which. -/
def Calls (items : List LineItem) (f g : String) : Prop := (f, g) ∈ calls items

/-- The frame size of a function, from all of its lines. -/
def frameSize (items : List LineItem) (f : String) : ℕ := (items.filterMap (sizeFor f)).sum

/-- All frame sizes together. -/
def total (items : List LineItem) : ℕ := (items.filterMap size?).sum

/-- The functions that have a line. -/
def functions (items : List LineItem) : List String := items.filterMap title?

/-- A line more in front. -/
theorem sum_filterMap_cons (p : LineItem → Option ℕ) (item : LineItem) (items : List LineItem) :
    ((item :: items).filterMap p).sum = (p item).getD 0 + (items.filterMap p).sum := by
  cases h : p item with
  | none => rw [List.filterMap_cons_none h, Option.getD_none, Nat.zero_add]
  | some n => rw [List.filterMap_cons_some h, List.sum_cons, Option.getD_some]

/-- On a path that a line's function is on at most once, the line counts at most once. -/
theorem pathWeight_sizeFor_le (item : LineItem) {path : List String} (hpath : path.Nodup) :
    pathWeight (fun f => (item.sizeFor f).getD 0) path ≤ item.size?.getD 0 := by
  cases item with
  | node title frameSize =>
    -- a path without repetition has the title at most once
    have hupdate : (fun f => ((node title frameSize).sizeFor f).getD 0)
        = Function.update (fun _ => 0) title frameSize := by
      ext f
      rw [Function.update_apply, sizeFor]
      by_cases hf : f = title
      · rw [if_pos hf, if_pos hf.symm]
        rfl
      · rw [if_neg hf, if_neg (Ne.symm hf)]
        rfl
    have hle := @pathWeight_update_le _ (fun _ => 0) _ path hpath title frameSize
    rw [pathWeight_zero, Nat.zero_add] at hle
    rw [hupdate]
    exact hle
  | edge source target => exact (pathWeight_zero path).le
  | other => exact (pathWeight_zero path).le

/-- **No path weighs more than all frames together**, if it is on no function twice. -/
theorem pathWeight_le_total (items : List LineItem) {path : List String} (hpath : path.Nodup) :
    pathWeight (frameSize items) path ≤ total items := by
  induction items with
  | nil => exact (pathWeight_zero path).le
  | cons item items ih =>
    have hsplit : frameSize (item :: items)
        = fun f => (item.sizeFor f).getD 0 + frameSize items f :=
      funext fun f => sum_filterMap_cons (sizeFor f) item items
    rw [hsplit, pathWeight_add, total, sum_filterMap_cons]
    exact Nat.add_le_add (pathWeight_sizeFor_le item hpath) ih

end LineItem

/-- What the lines of some files say. -/
def itemsOf (files : List (List CiLine)) : List LineItem := files.flatten.map CiLine.item

/-- **The call graph of a program** as the compiler writes it. In each file a function has its
line before those of its calls, and all functions that are called have lines, those for the
calls through pointers included. There is no recursion, and the frames are not too large. -/
structure CallGraphFiles where
  files : List (List CiLine)
  wellFormed : ∀ file ∈ files, ∀ line ∈ file, line.WellFormed
  callersFirst : ∀ file ∈ files, EdgesDeclared [] (file.map CiLine.text)
  closed : ∀ f g, LineItem.Calls (itemsOf files) f g → g ∈ LineItem.functions (itemsOf files)
  acyclic : Acyclic (LineItem.Calls (itemsOf files))
  indirectCall_mem : indirectCall ∈ LineItem.functions (itemsOf files)
  kernelMain_mem : kernelMain ∈ LineItem.functions (itemsOf files)
  total_lt : 3 * LineItem.total (itemsOf files) < 2 ^ 32

namespace CallGraphFiles

variable (p : CallGraphFiles)

/-- The text of the files, line by line. -/
def text : List CiFile := p.files.map fun file => file.map CiLine.text

def items : List LineItem := itemsOf p.files

def Calls : String → String → Prop := LineItem.Calls p.items

def frameSize : String → ℕ := LineItem.frameSize p.items

/-- The frame sizes, where a call through a pointer takes so much. -/
def frameSizeWith (n : ℕ) : String → ℕ := Function.update p.frameSize indirectCall n

def total : ℕ := LineItem.total p.items

/-- **The text is read back.** -/
theorem filterMap_itemOf : p.text.flatten.filterMap itemOf = p.items := by
  have hread : ∀ lines : List CiLine, (∀ line ∈ lines, line.WellFormed) →
      (lines.map CiLine.text).filterMap itemOf = lines.map CiLine.item := by
    intro lines hlines
    induction lines with
    | nil => rfl
    | cons line lines ih =>
      obtain ⟨hline, hlines⟩ := List.forall_mem_cons.mp hlines
      rw [List.map_cons, List.filterMap_cons_some (CiLine.itemOf_text hline), ih hlines,
        List.map_cons]
  have hwell : ∀ line ∈ p.files.flatten, line.WellFormed := by
    intro line hline
    obtain ⟨file, hfile, hmem⟩ := List.mem_flatten.mp hline
    exact p.wellFormed file hfile line hmem
  rw [text, ← List.map_flatten, hread _ hwell]
  rfl

/-- **The map** has the graph of all files. -/
theorem exists_described : ∃ uMap, UMap.readFiles p.text ∅ = some uMap ∧ Describes p.items uMap := by
  have hedges : ∀ file ∈ p.text, EdgesDeclared [] file := by
    intro file hfile
    obtain ⟨lines, hlines, rfl⟩ := List.mem_map.mp hfile
    exact p.callersFirst lines hlines
  rcases readFiles_spec hedges describes_empty with ⟨-, hnot⟩ | ⟨uMap, hsome, -, hdescribes⟩
  · refine absurd (fun line hline => ?_) hnot
    -- every line is one that the compiler writes
    obtain ⟨file, hfile, hmem⟩ := List.mem_flatten.mp hline
    obtain ⟨lines, hlines, rfl⟩ := List.mem_map.mp hfile
    obtain ⟨ciLine, hciLine, rfl⟩ := List.mem_map.mp hmem
    exact ⟨_, CiLine.itemOf_text (p.wellFormed lines hlines ciLine hciLine)⟩
  · rw [List.nil_append, p.filterMap_itemOf] at hdescribes
    exact ⟨uMap, hsome, hdescribes⟩

end CallGraphFiles

/-! ### The map of the files -/

theorem Describes.of_perm {items : List LineItem} {uMap u : UMap} (h : Describes items uMap)
    (hperm : u.entries.Perm uMap.entries) : Describes items u where
  mem_iff f := (UMap.keys_of_perm hperm).mem_iff.trans (h.mem_iff f)
  frameSize_eq f := (congrArg GraphCi.frameSize (UMap.node_of_perm hperm f)).trans (h.frameSize_eq f)
  children_eq f := (congrArg GraphCi.children (UMap.node_of_perm hperm f)).trans (h.children_eq f)
  dist_eq := by
    ext f
    rw [UMap.dist, UMap.frameSize, UMap.node_of_perm hperm f]
    exact congrFun h.dist_eq f
  white := h.white.of_perm hperm

theorem Describes.calls_eq {items : List LineItem} {uMap : UMap} (h : Describes items uMap) :
    uMap.Calls = LineItem.Calls items := by
  ext f g
  have hchildren := h.children_eq f
  rw [UMap.calls_iff]
  change g ∈ uMap.children f ↔ _
  rw [hchildren, LineItem.Calls, LineItem.calls, List.mem_filterMap, List.mem_filterMap]
  -- line by line
  refine exists_congr fun item => and_congr_right fun _ => ?_
  cases item with
  | node => exact iff_of_false (Option.some_ne_none g).symm (Option.some_ne_none _).symm
  | other => exact iff_of_false (Option.some_ne_none g).symm (Option.some_ne_none _).symm
  | edge source target =>
    cases target with
    | none => exact iff_of_false (Option.some_ne_none g).symm (Option.some_ne_none _).symm
    | some target =>
      rw [LineItem.calleeOf, LineItem.call?, Option.ite_none_right_eq_some, Option.some_inj,
        Option.some_inj, Prod.mk.injEq]

/-! ### Depths -/

namespace UMap

variable {uMap : UMap}

/-- The depth of a function, which may be missing. -/
theorem depthOf_isGreatest_of_any (h : uMap.IsCallGraph)
    (hsmall : ∀ path : List String, path.IsChain uMap.Calls →
      pathWeight uMap.frameSize path < 2 ^ 32) (f : String) :
    IsGreatest (weightsFrom uMap.Calls uMap.frameSize f) (uMap.depthOf f) := by
  by_cases hf : f ∈ uMap
  · exact depthOf_isGreatest h hsmall hf
  · rw [weightsFrom_of_forall_not fun g hcall => hf (mem_of_calls hcall), depthOf_of_notMem hf,
      frameSize, node_of_notMem hf]
    exact isGreatest_singleton

/-- Depths where the frame of one function is another. -/
theorem depthOf_setFrameSize_isGreatest (h : uMap.IsCallGraph) {g : String} (hg : g ∈ uMap) {n : ℕ}
    (hsmall : ∀ path : List String, path.IsChain uMap.Calls →
      pathWeight uMap.frameSize path + n < 2 ^ 32) (f : String) :
    IsGreatest (weightsFrom uMap.Calls (Function.update uMap.frameSize g n) f)
      ((uMap.setFrameSize g n).depthOf f) := by
  have hframe : (uMap.setFrameSize g n).frameSize = Function.update uMap.frameSize g n :=
    field_update hg GraphCi.frameSize
  have hgreatest := @depthOf_isGreatest_of_any (uMap.setFrameSize g n) (h.setFrameSize g n) ?_ f
  · rwa [calls_setFrameSize, hframe] at hgreatest
  · intro path hpath
    rw [calls_setFrameSize] at hpath
    rw [hframe]
    exact (pathWeight_update_le (h.acyclic.nodup_of_isChain hpath) g n).trans_lt (hsmall path hpath)

/-- Of two frames that are written the last one counts. -/
theorem depthOf_setFrameSize_twice (h : uMap.IsCallGraph) {g : String} (hg : g ∈ uMap) (m n : ℕ)
    (f : String) :
    ((uMap.setFrameSize g m).setFrameSize g n).depthOf f = (uMap.setFrameSize g n).depthOf f := by
  have hframe : ∀ {u : UMap} (n : ℕ), g ∈ u →
      (u.setFrameSize g n).frameSize = Function.update u.frameSize g n :=
    fun _ hg => field_update hg GraphCi.frameSize
  have hchildren : ∀ (u : UMap) (n : ℕ) f, (u.setFrameSize g n).children f = u.children f :=
    fun _ _ => field_update_eq GraphCi.children rfl
  refine depthOf_agree (h.setFrameSize g n) ((h.setFrameSize g m).setFrameSize g n) ?_ f
  refine ⟨?_, fun f => ?_⟩
  · rw [hframe n (mem_setFrameSize.mpr hg), hframe m hg, hframe n hg, Function.update_idem]
  · rw [hchildren, hchildren, hchildren]

end UMap

/-! ### What the stacks need -/

namespace CallGraphFiles

/-- **What the stacks need.** `handlers` is the weight of the heaviest chain of calls from a handler
that makes no calls through pointers, of those that the tool looks at. For the other handlers a
call through a pointer takes so much, and in the kernel as much as all handlers need. -/
structure StackNeeds (p : CallGraphFiles) (handlers interrupt kernel : ℕ) : Prop where
  handlers_greatest : IsGreatest (weightsFromAny p.Calls p.frameSize counted) handlers
  interrupt_greatest : IsGreatest (weightsFromAny p.Calls p.frameSize counted ∪
    weightsFromAny p.Calls (p.frameSizeWith handlers) dependedInterruptMethods) interrupt
  kernel_greatest : IsGreatest (weightsFrom p.Calls (p.frameSizeWith interrupt) kernelMain) kernel

variable {p : CallGraphFiles}

theorem StackNeeds.unique {handlers interrupt kernel handlers' interrupt' kernel' : ℕ}
    (h : p.StackNeeds handlers interrupt kernel) (h' : p.StackNeeds handlers' interrupt' kernel') :
    kernel' = kernel ∧ interrupt' = interrupt := by
  obtain rfl := h.handlers_greatest.unique h'.handlers_greatest
  obtain rfl := h.interrupt_greatest.unique h'.interrupt_greatest
  exact ⟨h'.kernel_greatest.unique h.kernel_greatest, rfl⟩

section Map

variable {u : UMap}

theorem isCallGraph (h : Describes p.items u) : u.IsCallGraph := by
  refine ⟨fun f g hcall => ?_, ?_⟩
  · rw [h.calls_eq] at hcall
    exact (h.mem_iff g).mpr (p.closed f g hcall)
  · rw [h.calls_eq]
    exact p.acyclic

/-- The sums of `uint32_t` did not wrap. -/
theorem frameSize_eq (h : Describes p.items u) : u.frameSize = p.frameSize := by
  ext f
  have hle : p.frameSize f ≤ p.total := by
    rw [← Nat.add_zero (p.frameSize f)]
    exact LineItem.pathWeight_le_total p.items (List.nodup_singleton f)
  have hlt : 3 * p.total < 2 ^ 32 := p.total_lt
  rw [h.frameSize_eq f]
  exact Nat.mod_eq_of_lt (a := p.frameSize f) (by omega)

theorem pathWeight_le (h : Describes p.items u) {path : List String}
    (hpath : path.IsChain u.Calls) : pathWeight u.frameSize path ≤ p.total := by
  rw [frameSize_eq h]
  exact LineItem.pathWeight_le_total p.items ((isCallGraph h).acyclic.nodup_of_isChain hpath)

/-- What the check inserts, if anything, is not asked for. -/
theorem report_eq (what : String) (later : List String) (h : Describes p.items u) :
    u.report what later = u.stackSizes what := by
  have hgraph := isCallGraph h
  obtain ⟨roots, r, hchecked⟩ := UMap.exists_checked h.white later
  have hin {f : String} (hf : f ∈ u) : f ∈ r.2.uMap := hchecked.recolored.mem f hf
  obtain ⟨r', hworst, hgraph', hagree, hmem⟩ := hchecked.worstCase_of_closed hgraph.acyclic
    fun f g hcall => hin (hgraph.closed f g hcall)
  have hkept : ∀ f ∈ LineItem.functions p.items, f ∈ r'.2 ↔ f ∈ u := by
    intro f hf
    have hu : f ∈ u := (h.mem_iff f).mpr hf
    exact iff_of_true ((hmem f).mpr (hin hu)) hu
  rw [UMap.report, hworst]
  exact UMap.stackSizes_agree what hgraph hgraph' hagree (hkept _ p.indirectCall_mem)
    (hkept _ p.kernelMain_mem)

/-- Depths in the map where a call through a pointer takes `n`. -/
theorem depthOf_with (h : Describes p.items u) {n : ℕ} (hn : p.total + n < 2 ^ 32) (f : String) :
    IsGreatest (weightsFrom p.Calls (p.frameSizeWith n) f)
      ((u.setFrameSize indirectCall n).depthOf f) := by
  have hindirect : indirectCall ∈ u := (h.mem_iff _).mpr p.indirectCall_mem
  have hcalls : u.Calls = p.Calls := h.calls_eq
  have hgreatest := UMap.depthOf_setFrameSize_isGreatest (isCallGraph h) hindirect (n := n)
    (fun path hpath => (Nat.add_le_add_right (pathWeight_le h hpath) n).trans_lt hn) f
  rwa [hcalls, frameSize_eq h] at hgreatest

/-- The handlers that make no calls through pointers. -/
theorem handlers_isGreatest (h : Describes p.items u) :
    IsGreatest (weightsFromAny p.Calls p.frameSize counted) (largest (counted.map u.depthOf)) := by
  have htotal : 3 * p.total < 2 ^ 32 := p.total_lt
  have hcalls : u.Calls = p.Calls := h.calls_eq
  rw [← frameSize_eq h, ← hcalls]
  refine isGreatest_weightsFromAny (by decide) fun f _ => ?_
  refine UMap.depthOf_isGreatest_of_any (isCallGraph h) (fun path hpath => ?_) f
  exact (pathWeight_le h hpath).trans_lt (by omega)

theorem largest_counted_le (h : Describes p.items u) :
    largest (counted.map u.depthOf) ≤ p.total := by
  obtain ⟨f, -, path, hpath, hweight⟩ := (handlers_isGreatest h).1
  have hcalls : u.Calls = p.Calls := h.calls_eq
  rw [← hcalls] at hpath
  rw [hweight, ← frameSize_eq h]
  exact pathWeight_le h hpath

theorem weighIndirectCall_eq (h : Describes p.items u) :
    weighIndirectCall u = u.setFrameSize indirectCall (largest (counted.map u.depthOf)) := by
  have hle := largest_counted_le h
  have htotal : 3 * p.total < 2 ^ 32 := p.total_lt
  rw [weighIndirectCall, u32, Nat.mod_eq_of_lt (by omega)]

/-- All handlers. -/
theorem interrupt_isGreatest (h : Describes p.items u) :
    IsGreatest (weightsFromAny p.Calls p.frameSize counted ∪ weightsFromAny p.Calls
      (p.frameSizeWith (largest (counted.map u.depthOf))) dependedInterruptMethods)
      (interruptStackSize u) := by
  have hle := largest_counted_le h
  have htotal : 3 * p.total < 2 ^ 32 := p.total_lt
  rw [interruptStackSize, weighIndirectCall_eq h]
  refine (handlers_isGreatest h).union (isGreatest_weightsFromAny (by decide) fun f _ => ?_)
  exact depthOf_with h (by omega) f

theorem interruptStackSize_le (h : Describes p.items u) : interruptStackSize u ≤ 2 * p.total := by
  have hle := largest_counted_le h
  have hcalls : u.Calls = p.Calls := h.calls_eq
  rcases (interrupt_isGreatest h).1 with hmem | ⟨f, -, path, hpath, hweight⟩
  · exact ((handlers_isGreatest h).2 hmem).trans (by omega)
  · rw [← hcalls] at hpath
    have hpathLe := pathWeight_le h hpath
    rw [frameSize_eq h] at hpathLe
    have hupdate := @pathWeight_update_le _ p.frameSize _ (f :: path)
      ((isCallGraph h).acyclic.nodup_of_isChain hpath) indirectCall
      (largest (counted.map u.depthOf))
    rw [← frameSizeWith, ← hweight] at hupdate
    omega

/-- The kernel, in the map that the handlers leave. -/
theorem kernel_isGreatest (h : Describes p.items u) :
    IsGreatest (weightsFrom p.Calls (p.frameSizeWith (interruptStackSize u)) kernelMain)
      (u.interruptMap.depthOf kernelMain) := by
  have hle := interruptStackSize_le h
  have htotal : 3 * p.total < 2 ^ 32 := p.total_lt
  have hindirect : indirectCall ∈ u := (h.mem_iff _).mpr p.indirectCall_mem
  rw [UMap.interruptMap, weighIndirectCall_eq h, u32, Nat.mod_eq_of_lt (by omega),
    UMap.depthOf_setFrameSize_twice (isCallGraph h) hindirect]
  exact depthOf_with h (by omega) kernelMain

/-- **The two numbers.** -/
theorem report_spec (what : String) (later : List String) (h : Describes p.items u) :
    ∃ handlers interrupt kernel, p.StackNeeds handlers interrupt kernel ∧
      u.report what later = some (kernel, interrupt) := by
  have hindirect : indirectCall ∈ u := (h.mem_iff _).mpr p.indirectCall_mem
  have hkernelMain : kernelMain ∈ u.interruptMap :=
    UMap.mem_setFrameSize.mpr (UMap.mem_setFrameSize.mpr ((h.mem_iff _).mpr p.kernelMain_mem))
  obtain ⟨out, hout⟩ := UMap.getInterruptStackSize_of_mem what (isCallGraph h) hindirect
  refine ⟨_, _, _, ⟨handlers_isGreatest h, interrupt_isGreatest h, kernel_isGreatest h⟩, ?_⟩
  rw [report_eq what later h, UMap.stackSizes, hout, Option.bind_some,
    UMap.subtreeDepth_eq (UMap.isCallGraph_interruptMap (isCallGraph h)) hkernelMain]
  rfl

end Map
end CallGraphFiles

/-! ### What the linker gets -/

/-- The lines of a text. The last one may have no newline. -/
def textLines : List Char → List (List Char)
  | [] => []
  | c :: cs =>
    if c = '\n' then [] :: textLines cs else
      match textLines cs with
      | [] => [[c]]
      | line :: lines => (c :: line) :: lines

/-- A line that `grep -v '^#'` lets through. -/
def isResult (line : List Char) : Bool := line.head? ≠ some '#'

/-- What `grep -v '^#'` prints. -/
def resultLines (text : String) : List (List Char) := (textLines text.toList).filter isResult

/-- `kernel_stack` of the rule for the kernel: `head -n 1` of those lines. -/
def kernelStackOption (text : String) : List Char := (resultLines text).head?.getD []

/-- `interrupt_stack` of the rule for the kernel: `tail -n 1` of those lines. -/
def interruptStackOption (text : String) : List Char := (resultLines text).getLast?.getD []

theorem textLines_append {line : List Char} (h : '\n' ∉ line) (rest : List Char) :
    textLines (line ++ '\n' :: rest) = line :: textLines rest := by
  induction line with
  | nil => rw [List.nil_append, textLines, if_pos rfl]
  | cons c line ih =>
    rw [List.mem_cons, not_or] at h
    rw [List.cons_append, textLines, if_neg (Ne.symm h.1), ih h.2]

theorem isDigit_of_mem_toString {n : ℕ} {c : Char} (hc : c ∈ (toString n).toList) :
    c.isDigit = true := by
  rw [Nat.toString_eq_repr, Nat.toList_repr] at hc
  exact Nat.isDigit_of_mem_toDigits (by decide) (by decide) hc

theorem toList_append_five (a b c d e : String) : (a ++ b ++ c ++ d ++ e).toList
    = a.toList ++ (b.toList ++ (c.toList ++ (d.toList ++ e.toList))) := by
  simp only [String.toList_append, List.append_assoc]

/-- The lines that are not comments are the two numbers. -/
theorem resultLines_resultText (sizes : ℕ × ℕ) : resultLines (resultText sizes)
    = [(toString sizes.1).toList, (toString sizes.2).toList] := by
  have hnewline : ∀ n : ℕ, '\n' ∉ (toString n).toList :=
    fun n hmem => absurd (isDigit_of_mem_toString hmem) (by decide)
  have hhash : ∀ n : ℕ, isResult (toString n).toList = true := by
    intro n
    refine decide_eq_true fun heq => ?_
    exact absurd (isDigit_of_mem_toString (List.mem_of_head? heq)) (by decide)
  have htext : (resultText sizes).toList = "#Kernel Stack".toList ++ '\n' ::
      ((toString sizes.1).toList ++ '\n' :: ("#Interrupt Stack".toList ++ '\n' ::
        ((toString sizes.2).toList ++ '\n' :: []))) :=
    toList_append_five "#Kernel Stack\n" (toString sizes.1) "\n#Interrupt Stack\n"
      (toString sizes.2) "\n"
  rw [resultLines, htext, textLines_append (by decide), textLines_append (hnewline _),
    textLines_append (by decide), textLines_append (hnewline _), textLines,
    List.filter_cons_of_neg (by decide), List.filter_cons_of_pos (hhash _),
    List.filter_cons_of_neg (by decide), List.filter_cons_of_pos (hhash _), List.filter_nil]

/-- **From the files to the linker.** The tool reads the files, and for every order of iteration
of its map it writes the text from which the linker gets, in decimal, what the stacks of
the kernel and of the interrupts need. -/
theorem report_heaviest (what : String) (p : CallGraphFiles) :
    ∃ handlers interrupt kernel uMap, p.StackNeeds handlers interrupt kernel ∧
      UMap.readFiles p.text ∅ = some uMap ∧
        ∀ (u : UMap) (later : List String), u.entries.Perm uMap.entries →
          ∃ text, u.main what later = some text ∧
            kernelStackOption text = (toString kernel).toList ∧
              interruptStackOption text = (toString interrupt).toList := by
  obtain ⟨uMap, hread, hdescribes⟩ := p.exists_described
  obtain ⟨handlers, interrupt, kernel, hneeds, -⟩ := p.report_spec what [] hdescribes
  refine ⟨handlers, interrupt, kernel, uMap, hneeds, hread, fun u later hu => ?_⟩
  -- in another order of iteration the numbers are the same, since the files say what they are
  obtain ⟨_, interrupt', kernel', hneeds', hreport⟩ :=
    p.report_spec what later (hdescribes.of_perm hu)
  obtain ⟨rfl, rfl⟩ := hneeds.unique hneeds'
  refine ⟨resultText (kernel', interrupt'), by rw [UMap.main, hreport]; rfl, ?_, ?_⟩
  · rw [kernelStackOption, resultLines_resultText]
    rfl
  · rw [interruptStackOption, resultLines_resultText]
    rfl

/-! ### Two files -/

/-- `kernel_main` prints a number, and makes a call through a pointer. -/
def mainLines : List CiLine :=
  [.graph "main.cpp", .function kernelMain "void kernel_main()" "main.cpp:9:33" 64 "static",
    .external "print" "print" (some "output.h:8:6") "ellipse", .edge kernelMain "print" "main:13",
    .external indirectCall "Indirect Call" none "ellipse", .edge kernelMain indirectCall "main:14"]

/-- What prints is a function of a handler too. -/
def outputLines : List CiLine :=
  [.function "print" "print" "output.cpp:9:6" 32 "static",
    .function "_ZN8terminal3decERNS_6outputE" "dec" "output.cpp:4:6" 8 "static",
    .edge "_ZN8terminal3decERNS_6outputE" "print" "output:6", .close]

/-- The callees come after their callers. -/
def callRank (f : String) : ℕ := if f = indirectCall ∨ f = "print" then 0 else 1

def twoFiles : CallGraphFiles where
  files := [mainLines, outputLines]
  wellFormed := by decide +kernel
  callersFirst := by decide +kernel
  closed := by
    have h : ∀ call ∈ LineItem.calls (itemsOf [mainLines, outputLines]),
        call.2 ∈ LineItem.functions (itemsOf [mainLines, outputLines]) := by decide +kernel
    exact fun f g hcall => h (f, g) hcall
  acyclic := by
    have h : ∀ call ∈ LineItem.calls (itemsOf [mainLines, outputLines]),
        callRank call.2 < callRank call.1 := by decide +kernel
    exact acyclic_of_rank callRank fun f g hcall => h (f, g) hcall
  indirectCall_mem := by decide +kernel
  kernelMain_mem := by decide +kernel
  total_lt := by decide +kernel

/-- The report on the two files. -/
theorem report_heaviest_two : ∃ handlers interrupt kernel uMap,
    twoFiles.StackNeeds handlers interrupt kernel ∧
      UMap.readFiles twoFiles.text ∅ = some uMap ∧
        ∀ (u : UMap) (later : List String), u.entries.Perm uMap.entries →
          ∃ text, u.main "" later = some text ∧
            kernelStackOption text = (toString kernel).toList ∧
              interruptStackOption text = (toString interrupt).toList :=
  report_heaviest "" twoFiles

end BareMetal
