import BareMetal.DiagnosticTools.CallGraphLines
import BareMetal.DiagnosticTools.Relaxation

/-!
# Reading the call-graph files

`main` goes through the files of a directory, in the order in which the iterator has them, and
puts what their lines say into `u_map`. The same function can have a node line in several
files: the sizes are added up. An edge is dropped if the caller is not in the map yet.

If in every file each edge line comes after a node line of its caller (`EdgesDeclared`), no edge
is dropped, and the map has what all the lines together say (`Describes`). So in another
order the files give the same functions with the same sizes, and the same callees up to
their order (`readFiles_agree`).
-/

namespace BareMetal

open Framework

/-! ### The loops -/

namespace Line

/-- A line of a file. What comes after it is not known, and there is no quotation mark in it: a
scan that leaves the line does not come to an end. -/
def inFile (text : List Char) : Line := ⟨text, fun _ => '\x00'⟩

end Line

/-- The lines of a file, as `getline` gives them. -/
abbrev CiFile := List (List Char)

namespace UMap

/-- The node of a node line. -/
def addNode (uMap : UMap) (title : String) (frameSize : ℕ) : UMap :=
  if title ∈ uMap then
    uMap.update title fun temp => { temp with
      frameSize := u32 (temp.frameSize + frameSize), dist := u32 (temp.frameSize + frameSize) }
  else uMap.insert title { children := [], frameSize, dist := frameSize, title }

/-- The callee of an edge line. -/
def addEdge (uMap : UMap) (sourceName targetName : String) : UMap :=
  uMap.update sourceName fun node => { node with children := node.children ++ [targetName] }

/-- What a line says goes into the map. -/
def add (uMap : UMap) : LineItem → UMap
  | .other => uMap
  | .node title frameSize => uMap.addNode title frameSize
  | .edge sourceName (some targetName) => uMap.addEdge sourceName targetName
  | .edge _ none => uMap

/-- One line. -/
def readLine (uMap : UMap) (text : List Char) : Option UMap :=
  ((Line.inFile text).scan (fun name => name ∈ uMap) (text.length + 1)).map fun r => uMap.add r.1

/-- The lines of a file. -/
def readFile : CiFile → UMap → Option UMap
  | [], uMap => some uMap
  | text :: file, uMap => (uMap.readLine text).bind (readFile file)

/-- The files of the directory. -/
def readFiles : List CiFile → UMap → Option UMap
  | [], uMap => some uMap
  | file :: files, uMap => (readFile file uMap).bind (readFiles files)

end UMap

/-- In a file, each edge line comes after a node line of its caller; the functions `declared`
have had theirs. -/
def EdgesDeclared : (declared : List String) → CiFile → Prop
  | _, [] => True
  | declared, text :: file =>
    (Line.startsWith "edge" text = true → firstName text ∈ declared) ∧
      EdgesDeclared (if Line.startsWith "node" text then firstName text :: declared else declared)
        file

instance decidableEdgesDeclared :
    (declared : List String) → (file : CiFile) → Decidable (EdgesDeclared declared file)
  | _, [] => inferInstanceAs (Decidable True)
  | declared, text :: file =>
    have := decidableEdgesDeclared
      (if Line.startsWith "node" text then firstName text :: declared else declared) file
    inferInstanceAs (Decidable (_ ∧ _))

/-! ### What a line says -/

/-- What a line says, to one who knows all functions. -/
def itemOf (text : List Char) : Option LineItem :=
  ((Line.inFile text).scan (fun _ => true) (text.length + 1)).map Prod.fst

namespace Line

variable {text : List Char} {fuel : ℕ} {s s' : LineScan} {name name' : List Char}

/-- A name that is copied ends at a quotation mark of the line. -/
theorem quote_mem_of_readName (h : (inFile text).readName fuel s name = some (name', s')) :
    quote ∈ s.rest (inFile text) := by
  induction fuel generalizing s name with
  | zero => exact absurd h (Option.some_ne_none _).symm
  | succ fuel ih =>
    rw [readName] at h
    split at h
    · have hnext := ih h
      change quote ∈ text.drop (s.current + 1) at hnext
      exact List.drop_subset_drop_left text (Nat.le_succ _) hnext
    · rename_i hquote
      rw [not_not] at hquote
      cases hrest : s.rest (inFile text) with
      | cons c cs =>
        obtain ⟨-, hc, -⟩ := LineScan.rest_eq_cons hrest
        rw [← hquote, hc]
        exact List.mem_cons_self
      | nil =>
        -- there are only NULs after the line
        have hge : (inFile text).size ≤ s.current := List.drop_eq_nil_iff.mp hrest
        rw [charAt, if_neg (Nat.not_lt.mpr hge)] at hquote
        change (if s.current = (inFile text).size then '\x00' else '\x00') = quote at hquote
        rw [ite_self] at hquote
        exact absurd hquote (by decide)

theorem two_le_of_nextName (h : (inFile text).nextName fuel s = some (name, s'))
    (hs : s.In (inFile text)) : 2 ≤ (s.rest (inFile text)).count quote := by
  obtain ⟨s₁, hgoes, hname⟩ := exists_readName h hs
  rw [← quote_mem_afterQuote, ← hgoes.rest_eq]
  exact quote_mem_of_readName hname

variable {known : String → Bool}

/-- The scan of an edge line of a known caller. -/
theorem scanEdge_inFile (hs : LineScan.start.In (inFile text))
    (hknown : known (firstName text) = true) :
    ((inFile text).scanEdge known (text.length + 1)).map Prod.fst
      = if 4 ≤ (text.drop 4).count quote then
          some (.edge (firstName text) (some (secondName text)))
        else none := by
  split
  · rename_i hfour
    have hquoted : EdgeQuoted known text := ⟨by omega, fun _ => hfour⟩
    obtain ⟨⟨item, s⟩, h⟩ := scanEdge_isSome hs hquoted (Nat.lt_succ_self text.length)
    have hitem := scanEdge_item h hs hquoted
    rw [h, Option.map_some, hitem]
    exact congrArg (fun target => some (LineItem.edge _ target)) (if_pos hknown)
  · rename_i hfour
    -- a scan that ends has come to all four quotation marks
    rw [Option.map_eq_none_iff, Option.eq_none_iff_forall_ne_some]
    rintro ⟨item, s⟩ h
    obtain ⟨source, s₁, hname, hcases⟩ := scanEdge_cases h
    have htwo := two_le_of_nextName hname hs
    obtain ⟨rfl, hgoes⟩ := goes_source hs hname htwo
    rcases hcases with ⟨-, target, htarget, -⟩ | ⟨hunknown, -⟩
    · have hmore := two_le_of_nextName htarget hgoes.in_line
      rw [hgoes.rest_eq] at hmore
      exact hfour (two_le_count_target.mp hmore)
    · exact Bool.noConfusion (hunknown.symm.trans hknown)

theorem scan_of_node {line : Line} (h : startsWith "node" line.text = true) :
    line.scan known fuel = line.scanNode fuel := if_pos h

theorem scan_of_edge {line : Line} (hnode : startsWith "node" line.text = false)
    (h : startsWith "edge" line.text = true) :
    line.scan known fuel = line.scanEdge known fuel :=
  (if_neg (Bool.eq_false_iff.mp hnode)).trans (if_pos h)

theorem scan_of_other {line : Line} (hnode : startsWith "node" line.text = false)
    (h : startsWith "edge" line.text = false) :
    line.scan known fuel = some (.other, ⟨0, []⟩) :=
  (if_neg (Bool.eq_false_iff.mp hnode)).trans (if_neg (Bool.eq_false_iff.mp h))

/-- It does not matter which functions are known besides the caller. -/
theorem scan_inFile (known : String → Bool)
    (hknown : startsWith "edge" text = true → known (firstName text) = true) :
    ((inFile text).scan known (text.length + 1)).map Prod.fst = itemOf text := by
  unfold itemOf
  cases hnode : startsWith "node" text with
  | true => rw [scan_of_node hnode, scan_of_node hnode]
  | false =>
    cases hedge : startsWith "edge" text with
    | true =>
      have hs : LineScan.start.In (inFile text) := start_in rfl hedge
      rw [scan_of_edge hnode hedge, scan_of_edge hnode hedge, scanEdge_inFile hs (hknown hedge),
        scanEdge_inFile hs rfl]
    | false => rw [scan_of_other hnode hedge, scan_of_other hnode hedge]

end Line

/-! ### What the lines say together -/

namespace LineItem

/-- The function of a node line. -/
def title? : LineItem → Option String
  | .node title _ => some title
  | _ => none

/-- What a line adds to the size of a function. -/
def sizeFor (f : String) : LineItem → Option ℕ
  | .node title frameSize => if title = f then some frameSize else none
  | _ => none

/-- The callee that a line gives to a function. -/
def calleeOf (f : String) : LineItem → Option String
  | .edge sourceName (some targetName) => if sourceName = f then some targetName else none
  | _ => none

end LineItem

/-- The map has what the lines say. -/
structure Describes (items : List LineItem) (uMap : UMap) : Prop where
  mem_iff : ∀ f, f ∈ uMap ↔ f ∈ items.filterMap LineItem.title?
  frameSize_eq : ∀ f, uMap.frameSize f = u32 (items.filterMap (LineItem.sizeFor f)).sum
  children_eq : ∀ f, uMap.children f = items.filterMap (LineItem.calleeOf f)
  dist_eq : uMap.dist = uMap.frameSize
  white : uMap.AllWhite

theorem describes_empty : Describes [] ∅ where
  mem_iff f := iff_of_false (AList.notMem_empty f) List.not_mem_nil
  frameSize_eq _ := rfl
  children_eq _ := rfl
  dist_eq := rfl
  white _ := rfl

section Add

variable {uMap : UMap} {f title sourceName targetName : String} {frameSize : ℕ}
  {items : List LineItem}

/-- A line that says nothing of a kind. -/
theorem filterMap_concat_none {α : Type} (p : LineItem → Option α) (item : LineItem)
    (h : p item = none) : (items ++ [item]).filterMap p = items.filterMap p := by
  rw [List.filterMap_append, List.filterMap_cons_none h, List.filterMap_nil, List.append_nil]

/-- A line that says something of a kind. -/
theorem filterMap_concat_some {α : Type} (p : LineItem → Option α) (item : LineItem) {a : α}
    (h : p item = some a) : (items ++ [item]).filterMap p = items.filterMap p ++ [a] := by
  rw [List.filterMap_append, List.filterMap_cons_some h, List.filterMap_nil]

theorem mem_addNode : f ∈ uMap.addNode title frameSize ↔ f = title ∨ f ∈ uMap := by
  unfold UMap.addNode
  split
  · rename_i htitle
    rw [UMap.mem_update]
    exact ⟨.inr, fun h => h.elim (fun heq => heq ▸ htitle) id⟩
  · exact AList.mem_insert _

theorem node_addNode_of_ne (hne : f ≠ title) :
    (uMap.addNode title frameSize).node f = uMap.node f := by
  unfold UMap.addNode
  split
  · exact UMap.node_update_of_ne hne
  · rw [UMap.node, AList.lookup_insert_ne hne]
    rfl

/-- The sizes are added up, and a function that is new had none. -/
theorem node_addNode_self (hwhite : (uMap.node title).col = .white)
    (hsize : frameSize < 2 ^ 32) :
    ∃ name, (uMap.addNode title frameSize).node title =
      { children := uMap.children title, frameSize := u32 (uMap.frameSize title + frameSize),
        dist := u32 (uMap.frameSize title + frameSize), title := name } := by
  unfold UMap.addNode
  split
  · rename_i htitle
    refine ⟨(uMap.node title).title, ?_⟩
    rw [UMap.node_update_self htitle]
    exact congrArg (fun col => GraphCi.mk _ _ _ col _) hwhite
  · rename_i htitle
    refine ⟨title, ?_⟩
    rw [UMap.children, UMap.frameSize, UMap.node_of_notMem htitle, emptyNode, Nat.zero_add, u32,
      Nat.mod_eq_of_lt hsize, UMap.node, AList.lookup_insert]
    rfl

/-- A node line more. -/
theorem Describes.addNode (h : Describes items uMap) (hsize : frameSize < 2 ^ 32) :
    Describes (items ++ [.node title frameSize]) (uMap.addNode title frameSize) := by
  obtain ⟨name, hself⟩ := node_addNode_self (h.white title) hsize
  refine ⟨fun f => ?_, fun f => ?_, fun f => ?_, funext fun f => ?_, fun f => ?_⟩
  · rw [filterMap_concat_some LineItem.title? (.node title frameSize) rfl, List.mem_append,
      ← h.mem_iff, mem_addNode, or_comm]
    exact or_congr_right List.mem_singleton.symm
  · by_cases hf : f = title
    · subst hf
      -- the remainder of a sum is that of the sum of remainders
      have hsum : u32 (items.filterMap (LineItem.sizeFor f) ++ [frameSize]).sum
          = u32 (uMap.frameSize f + frameSize) := by
        rw [List.sum_append, List.sum_singleton, h.frameSize_eq f]
        exact (Nat.mod_add_mod _ _ _).symm
      rw [filterMap_concat_some (LineItem.sizeFor f) (.node f frameSize) (if_pos rfl), hsum]
      exact congrArg GraphCi.frameSize hself
    · have hnone : LineItem.sizeFor f (.node title frameSize) = none := if_neg (Ne.symm hf)
      rw [filterMap_concat_none _ _ hnone, UMap.frameSize, node_addNode_of_ne hf]
      exact h.frameSize_eq f
  · rw [filterMap_concat_none (LineItem.calleeOf f) (.node title frameSize) rfl, ← h.children_eq f]
    by_cases hf : f = title
    · subst hf
      exact (congrArg GraphCi.children hself :)
    · exact congrArg GraphCi.children (node_addNode_of_ne hf)
  · by_cases hf : f = title
    · subst hf
      exact (congrArg GraphCi.dist hself).trans (congrArg GraphCi.frameSize hself).symm
    · rw [UMap.dist, UMap.frameSize, node_addNode_of_ne hf]
      exact congrFun h.dist_eq f
  · by_cases hf : f = title
    · subst hf
      exact congrArg GraphCi.col hself
    · rw [node_addNode_of_ne hf]
      exact h.white f

/-- An edge line more, of a function that is there. -/
theorem Describes.addEdge (h : Describes items uMap) (hsource : sourceName ∈ uMap) :
    Describes (items ++ [.edge sourceName (some targetName)])
      (uMap.addEdge sourceName targetName) := by
  let line : LineItem := .edge sourceName (some targetName)
  -- what is not about the callees is as it was
  have hframe : (uMap.addEdge sourceName targetName).frameSize = uMap.frameSize :=
    funext (UMap.field_update_eq GraphCi.frameSize rfl)
  have hdist : (uMap.addEdge sourceName targetName).dist = uMap.dist :=
    funext (UMap.field_update_eq GraphCi.dist rfl)
  have hcol : ∀ f, ((uMap.addEdge sourceName targetName).node f).col = (uMap.node f).col :=
    UMap.field_update_eq GraphCi.col rfl
  refine ⟨fun f => ?_, fun f => ?_, fun f => ?_, ?_, fun f => ?_⟩
  · rw [filterMap_concat_none LineItem.title? line rfl, ← h.mem_iff]
    exact UMap.mem_update
  · rw [filterMap_concat_none (LineItem.sizeFor f) line rfl, ← h.frameSize_eq f, hframe]
  · by_cases hf : f = sourceName
    · subst hf
      rw [filterMap_concat_some (LineItem.calleeOf f) line (if_pos rfl), ← h.children_eq f]
      exact congrArg GraphCi.children (UMap.node_update_self hsource)
    · have hnone : LineItem.calleeOf f line = none := if_neg (Ne.symm hf)
      rw [filterMap_concat_none _ _ hnone, ← h.children_eq f]
      exact congrArg GraphCi.children (UMap.node_update_of_ne hf)
  · rw [hdist, hframe, h.dist_eq]
  · exact (hcol f).trans (h.white f)

end Add

section Read

variable {uMap : UMap} {text : List Char} {item : LineItem} {items : List LineItem}

/-- What a line can say. -/
theorem itemOf_cases (h : itemOf text = some item) :
    (Line.startsWith "node" text = true ∧
        ∃ frameSize < 2 ^ 32, item = .node (firstName text) frameSize) ∨
      (Line.startsWith "node" text = false ∧ Line.startsWith "edge" text = true ∧
        item = .edge (firstName text) (some (secondName text))) ∨
      Line.startsWith "node" text = false ∧ item = .other := by
  unfold itemOf at h
  cases hnode : Line.startsWith "node" text with
  | true =>
    have hs : LineScan.start.In (Line.inFile text) := Line.start_in rfl hnode
    rw [Line.scan_of_node hnode] at h
    -- a scan that ended has found both quotes of the title
    obtain ⟨⟨item', s⟩, hscan, rfl⟩ := Option.map_eq_some_iff.mp h
    obtain ⟨⟨title, s₁⟩, hname, -⟩ := Option.bind_eq_some_iff.mp hscan
    obtain ⟨value, heq⟩ := Line.scanNode_item hscan hs (Line.two_le_of_nextName hname hs)
    exact .inl ⟨rfl, _, Line.frameSizeOf_lt value, heq⟩
  | false =>
    cases hedge : Line.startsWith "edge" text with
    | true =>
      have hs : LineScan.start.In (Line.inFile text) := Line.start_in rfl hedge
      rw [Line.scan_of_edge hnode hedge, Line.scanEdge_inFile hs rfl] at h
      split at h
      · exact .inr (.inl ⟨rfl, rfl, (Option.some.inj h).symm⟩)
      · exact absurd h (Option.some_ne_none item).symm
    | false =>
      rw [Line.scan_of_other hnode hedge] at h
      exact .inr (.inr ⟨rfl, (Option.some.inj h).symm⟩)

/-- The functions of the map stay in it, and that of a node line comes into it. -/
theorem mem_add (h : itemOf text = some item) {f : String}
    (hf : f ∈ uMap ∨ Line.startsWith "node" text = true ∧ f = firstName text) :
    f ∈ uMap.add item := by
  rcases itemOf_cases h with ⟨hnode, frameSize, -, rfl⟩ | ⟨hnode, -, rfl⟩ | ⟨hnode, rfl⟩
  · exact mem_addNode.mpr (hf.elim .inr fun hf => .inl hf.2)
  · refine UMap.mem_update.mpr (hf.resolve_right fun hf => ?_)
    exact Bool.noConfusion (hnode.symm.trans hf.1)
  · exact hf.resolve_right fun hf => Bool.noConfusion (hnode.symm.trans hf.1)

/-- A line more. -/
theorem Describes.add (h : Describes items uMap) (hitem : itemOf text = some item)
    (hsource : Line.startsWith "edge" text = true → firstName text ∈ uMap) :
    Describes (items ++ [item]) (uMap.add item) := by
  rcases itemOf_cases hitem with ⟨-, frameSize, hsize, rfl⟩ | ⟨-, hedge, rfl⟩ | ⟨-, rfl⟩
  · exact h.addNode hsize
  · exact h.addEdge (hsource hedge)
  · refine ⟨fun f => ?_, fun f => ?_, fun f => ?_, h.dist_eq, h.white⟩
    · rw [filterMap_concat_none LineItem.title? .other rfl]
      exact h.mem_iff f
    · rw [filterMap_concat_none (LineItem.sizeFor f) .other rfl]
      exact h.frameSize_eq f
    · rw [filterMap_concat_none (LineItem.calleeOf f) .other rfl]
      exact h.children_eq f

theorem readLine_eq (hsource : Line.startsWith "edge" text = true → firstName text ∈ uMap) :
    uMap.readLine text = (itemOf text).map uMap.add := by
  rw [← Line.scan_inFile (fun name => name ∈ uMap) fun hedge => decide_eq_true (hsource hedge),
    Option.map_map]
  rfl

/-- Every line says something: no scan leaves its line. -/
def Readable (file : CiFile) : Prop := ∀ text ∈ file, ∃ item, itemOf text = some item

/-- **One file.** It can be read exactly if all of its lines can, and then the map has what they
say besides. -/
theorem readFile_spec {file : CiFile} {declared : List String}
    (hedges : EdgesDeclared declared file) (hdeclared : ∀ f ∈ declared, f ∈ uMap)
    (h : Describes items uMap) :
    (UMap.readFile file uMap = none ∧ ¬ Readable file) ∨
      ∃ uMap', UMap.readFile file uMap = some uMap' ∧ Readable file ∧
        Describes (items ++ file.filterMap itemOf) uMap' := by
  induction file generalizing declared uMap items with
  | nil =>
    refine .inr ⟨uMap, rfl, fun _ htext => absurd htext List.not_mem_nil, ?_⟩
    rwa [List.filterMap_nil, List.append_nil]
  | cons text file ih =>
    obtain ⟨hsource, hedges⟩ := hedges
    have hline := readLine_eq fun hedge => hdeclared _ (hsource hedge)
    rw [UMap.readFile, hline]
    cases hitem : itemOf text with
    | none =>
      -- the scan of the line does not end
      refine .inl ⟨rfl, fun hreadable => ?_⟩
      obtain ⟨item, hsome⟩ := hreadable text List.mem_cons_self
      exact absurd (hitem.symm.trans hsome).symm (Option.some_ne_none item)
    | some item =>
      have hadd := h.add hitem fun hedge => hdeclared _ (hsource hedge)
      -- the functions that have had their line are in the map
      have hdeclared' : ∀ f ∈ (if Line.startsWith "node" text then firstName text :: declared
          else declared), f ∈ uMap.add item := by
        intro f hf
        refine mem_add hitem ?_
        split at hf
        · rename_i hnode
          exact (List.mem_cons.mp hf).elim (fun heq => .inr ⟨hnode, heq⟩)
            fun hmem => .inl (hdeclared f hmem)
        · exact .inl (hdeclared f hf)
      have hreadable : Readable (text :: file) ↔ Readable file :=
        List.forall_mem_cons.trans (and_iff_right ⟨item, hitem⟩)
      rw [Option.map_some, Option.bind_some, hreadable, List.filterMap_cons_some hitem,
        List.append_cons]
      exact ih hedges hdeclared' hadd

/-- **The files**, from what was read before. -/
theorem readFiles_spec {files : List CiFile} (hedges : ∀ file ∈ files, EdgesDeclared [] file)
    (h : Describes items uMap) :
    (UMap.readFiles files uMap = none ∧ ¬ Readable files.flatten) ∨
      ∃ uMap', UMap.readFiles files uMap = some uMap' ∧ Readable files.flatten ∧
        Describes (items ++ files.flatten.filterMap itemOf) uMap' := by
  -- on the files; the items add up as the files are read
  induction files generalizing uMap items with
  | nil =>
    refine .inr ⟨uMap, rfl, fun _ htext => absurd htext List.not_mem_nil, ?_⟩
    rwa [List.flatten_nil, List.filterMap_nil, List.append_nil]
  | cons file files ih =>
    obtain ⟨hfile, hedges⟩ := List.forall_mem_cons.mp hedges
    have hreadable : Readable (file :: files).flatten ↔ Readable file ∧ Readable files.flatten :=
      List.forall_mem_append
    rw [UMap.readFiles, hreadable]
    rcases readFile_spec hfile (fun f hf => absurd hf List.not_mem_nil) h with
      ⟨hnone, hnot⟩ | ⟨uMap₁, hsome, hread, hdescribes⟩
    · rw [hnone]
      exact .inl ⟨rfl, fun hboth => hnot hboth.1⟩
    · rw [hsome, Option.bind_some, List.flatten_cons, List.filterMap_append, ← List.append_assoc,
        and_iff_right hread]
      exact ih hedges hdescribes

end Read

/-! ### Another order -/

/-- The same sizes, and the same callees up to their order. -/
structure Agree (uMap uMap' : UMap) : Prop where
  frameSize_eq : uMap'.frameSize = uMap.frameSize
  children_perm : ∀ f, (uMap'.children f).Perm (uMap.children f)

theorem Agree.trans {uMap uMap₁ uMap' : UMap} (h₁ : Agree uMap uMap₁) (h : Agree uMap₁ uMap') :
    Agree uMap uMap' :=
  ⟨h.frameSize_eq.trans h₁.frameSize_eq, fun f => (h.children_perm f).trans (h₁.children_perm f)⟩

theorem Agree.symm {uMap uMap' : UMap} (h : Agree uMap uMap') : Agree uMap' uMap :=
  ⟨h.frameSize_eq.symm, fun f => (h.children_perm f).symm⟩

/-- The callees are the same. -/
theorem Agree.calls_eq {uMap uMap' : UMap} (h : Agree uMap uMap') : uMap'.Calls = uMap.Calls := by
  ext f g
  rw [UMap.calls_iff, UMap.calls_iff]
  exact (h.children_perm f).mem_iff

/-- What is described by the same lines in another order is the same. -/
theorem Describes.agree {items items' : List LineItem} {uMap uMap' : UMap}
    (hperm : items'.Perm items) (h : Describes items uMap) (h' : Describes items' uMap') :
    (∀ f, f ∈ uMap' ↔ f ∈ uMap) ∧ Agree uMap uMap' := by
  refine ⟨fun f => ?_, funext fun f => ?_, fun f => ?_⟩
  · rw [h.mem_iff, h'.mem_iff]
    exact (hperm.filterMap _).mem_iff
  · rw [h.frameSize_eq, h'.frameSize_eq, (hperm.filterMap _).sum_nat]
  · rw [h.children_eq, h'.children_eq]
    exact hperm.filterMap _

end BareMetal
