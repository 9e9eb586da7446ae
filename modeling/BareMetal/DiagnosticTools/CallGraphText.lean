import BareMetal.DiagnosticTools.CallGraphFiles

/-!
# The text of a call-graph file

The compiler writes a line for each function that a file defines, with its frame size, one for
each function that is called from there and defined elsewhere, and one for each call. `main`
gets back from the text of a line what the line is about (`itemOf_text`): the number that
it takes for the frame size of a function that has none is zero.
-/

namespace BareMetal

open Framework

/-- What a line of a call-graph file is about. A function that is defined elsewhere may have no
location, as the placeholder for indirect calls. -/
inductive CiLine where
  | graph (title : String)
  | function (title signature location : String) (frameSize : ℕ) (kind : String)
  | external (title signature : String) (location : Option String) (shape : String)
  | edge (sourceName targetName label : String)
  | close

namespace CiLine

/-- The text of a line. -/
def text : CiLine → List Char
  | .graph title => "graph: \x7b title: \x22".toList ++ (title.toList ++ "\x22".toList)
  | .function title signature location frameSize kind =>
    "node: \x7b title: \x22".toList ++ (title.toList ++ ("\x22 label: \x22".toList ++
      (signature.toList ++ ("\\n".toList ++ (location.toList ++ ("\\n".toList ++
        (Nat.toDigits 10 frameSize ++ (" bytes (".toList ++ (kind.toList ++
          ")\x22 \x7d".toList)))))))))
  | .external title signature location shape =>
    "node: \x7b title: \x22".toList ++ (title.toList ++ ("\x22 label: \x22".toList ++
      (signature.toList ++ (location.elim [] (fun location => "\\n".toList ++ location.toList) ++
        ("\x22 shape : ".toList ++ (shape.toList ++ " \x7d".toList))))))
  | .edge sourceName targetName label =>
    "edge: \x7b sourcename: \x22".toList ++ (sourceName.toList ++
      ("\x22 targetname: \x22".toList ++ (targetName.toList ++ ("\x22 label: \x22".toList ++
        (label.toList ++ "\x22 \x7d".toList)))))
  | .close => "\x7d".toList

/-- What the line says. -/
def item : CiLine → LineItem
  | .graph _ | .close => .other
  | .function title _ _ frameSize _ => .node title frameSize
  | .external title _ _ _ => .node title 0
  | .edge sourceName targetName _ => .edge sourceName (some targetName)

/-- Names have no quotation mark. Behind the last `\n` is the frame size or, in a line without
one, something that does not start with a digit. -/
def WellFormed : CiLine → Prop
  | .graph _ | .close => True
  | .function title _ _ frameSize kind =>
    quote ∉ title.toList ∧ frameSize < 2 ^ 32 ∧ '\\' ∉ kind.toList
  | .external title signature location shape =>
    quote ∉ title.toList ∧ '\\' ∉ shape.toList ∧
      match location with
      | some location =>
        '\\' ∉ location.toList ∧ (location.toList.head?.any Char.isDigit) = false
      | none => '\\' ∉ title.toList ∧ '\\' ∉ signature.toList
  | .edge sourceName targetName _ => quote ∉ sourceName.toList ∧ quote ∉ targetName.toList

instance : (line : CiLine) → Decidable line.WellFormed
  | .graph _ | .close => inferInstanceAs (Decidable True)
  | .function .. | .edge .. => inferInstanceAs (Decidable (_ ∧ _))
  | .external _ _ (some _) _ | .external _ _ none _ => inferInstanceAs (Decidable (_ ∧ _ ∧ _ ∧ _))

end CiLine

/-! ### Names -/

theorem afterQuote_append {before rest : List Char} (h : quote ∉ before) :
    afterQuote (before ++ quote :: rest) = rest := by
  unfold afterQuote
  rw [List.dropWhile_append_of_pos fun c hc => ?_, List.dropWhile_cons_of_neg (by simp)]
  · rfl
  · exact decide_eq_true fun heq => h (heq ▸ hc)

theorem untilQuote_append {name rest : List Char} (h : quote ∉ name) :
    untilQuote (name ++ quote :: rest) = name := by
  unfold untilQuote
  rw [List.takeWhile_append_of_pos fun c hc => ?_, List.takeWhile_cons_of_neg (by simp),
    List.append_nil]
  exact decide_eq_true fun heq => h (heq ▸ hc)

variable {text : List Char}

/-- The first name, in front of whatever follows. -/
theorem firstName_eq {before name rest : List Char} (hbefore : quote ∉ before)
    (hname : quote ∉ name) (h : text.drop 4 = before ++ quote :: (name ++ quote :: rest)) :
    firstName text = String.ofList name := by
  rw [firstName, h, afterQuote_append hbefore, untilQuote_append hname]

/-- The second name. -/
theorem secondName_eq {before name between name' rest : List Char} (hbefore : quote ∉ before)
    (hname : quote ∉ name) (hbetween : quote ∉ between) (hname' : quote ∉ name')
    (h : text.drop 4 = before ++ quote :: (name ++ quote ::
      (between ++ quote :: (name' ++ quote :: rest)))) :
    secondName text = String.ofList name' := by
  rw [secondName, h, afterQuote_append hbefore, afterQuote_append hname,
    afterQuote_append hbetween, untilQuote_append hname']

/-! ### The frame size -/

namespace Line

/-- The last `\n` of a text is the one behind which there is none. -/
theorem rfindNewLine_append (before : List Char) {after : List Char}
    (h : rfindNewLine after = none) :
    rfindNewLine (before ++ '\\' :: 'n' :: after) = some before.length := by
  induction before with
  | nil =>
    have hn : rfindNewLine ('n' :: after) = none := by
      rw [rfindNewLine, h]
      rfl
    rw [List.nil_append, rfindNewLine, hn]
    rfl
  | cons c before ih =>
    rw [List.cons_append, rfindNewLine, ih]
    rfl

theorem rfindNewLine_eq_none {text : List Char} (h : '\\' ∉ text) : rfindNewLine text = none := by
  induction text with
  | nil => rfl
  | cons c text ih =>
    rw [List.mem_cons, not_or] at h
    rw [rfindNewLine, ih h.2]
    exact if_neg fun hc => h.1 hc.1.symm

/-- What `main` takes for the frame size. -/
theorem drop_frameSizeStart {before after : List Char}
    (htext : text = before ++ '\\' :: 'n' :: after) (h : '\\' ∉ after) :
    text.drop (frameSizeStart text) = after := by
  have hstart : frameSizeStart text = (before ++ ['\\', 'n']).length := by
    rw [htext, frameSizeStart, rfindNewLine_append before (rfindNewLine_eq_none h),
      List.length_append]
    rfl
  have hassoc : text = before ++ ['\\', 'n'] ++ after := by
    rw [htext, List.append_assoc]
    rfl
  rw [hstart, hassoc]
  exact List.drop_left

variable {line : Line} {s s' : LineScan}

/-- **The digits** of a number, up to a character that is not one. -/
theorem readDigits_eq {ds cs : List Char} {fuel : ℕ} (hrest : s.rest line = ds ++ cs)
    (hds : ∀ c ∈ ds, c.isDigit = true) (hcs : ∀ c ∈ cs.head?, c.isDigit = false)
    (hfuel : ds.length < fuel) (value : Option ℕ) :
    (line.readDigits fuel s value).map Prod.fst
      = some (if ds = [] then value else some (Nat.ofDigitChars 10 ds (value.getD 0))) := by
  -- on the digits; the scan stops at the end of the line or at another character
  induction ds generalizing s fuel value with
  | nil =>
    obtain ⟨fuel, rfl⟩ := Nat.exists_eq_add_one_of_ne_zero (Nat.ne_of_gt hfuel)
    rw [readDigits, if_pos rfl]
    cases hcs' : cs with
    | nil =>
      rw [hcs'] at hrest
      have hge : ¬ s.current < line.size := Nat.not_lt.mpr (List.drop_eq_nil_iff.mp hrest)
      rw [if_neg hge]
      rfl
    | cons c cs =>
      rw [hcs'] at hrest hcs
      obtain ⟨hlt, hc, -⟩ := LineScan.rest_eq_cons hrest
      rw [if_pos hlt]
      simp only [hc, hcs c rfl]
      rfl
  | cons d ds ih =>
    obtain ⟨fuel, rfl⟩ := Nat.exists_eq_add_one_of_ne_zero (Nat.ne_of_gt (Nat.zero_lt_of_lt hfuel))
    obtain ⟨hlt, hd, hnext⟩ := LineScan.rest_eq_cons hrest
    obtain ⟨hdigit, hds⟩ := List.forall_mem_cons.mp hds
    rw [readDigits, if_pos hlt]
    simp only [hd, hdigit, if_true]
    rw [ih (s := s.read.next) hnext hds (Nat.lt_of_succ_lt_succ hfuel), if_neg (List.cons_ne_nil d ds),
      Nat.ofDigitChars_cons]
    -- from the first digit on there is a value
    by_cases hnil : ds = []
    · rw [if_pos hnil, hnil]
      rfl
    · rw [if_neg hnil]
      rfl

/-- A node line, by its name and what is behind its last `\n`. -/
theorem scanNode_eq {ds cs : List Char} (hs : LineScan.start.In line)
    (htwo : 2 ≤ (line.text.drop 4).count quote)
    (hrest : line.text.drop (frameSizeStart line.text) = ds ++ cs)
    (hds : ∀ c ∈ ds, c.isDigit = true) (hcs : ∀ c ∈ cs.head?, c.isDigit = false) :
    (line.scanNode (line.text.length + 1)).map Prod.fst = some (.node (firstName line.text)
      (frameSizeOf (if ds = [] then none else some (Nat.ofDigitChars 10 ds 0)))) := by
  obtain ⟨⟨title, s₁⟩, hname⟩ := nextName_isSome hs htwo (Nat.lt_succ_self line.text.length)
  obtain ⟨rfl, -⟩ := nextName_spec hname hs htwo
  have hlength : ds.length < line.text.length + 1 := by
    have hle := congrArg List.length hrest
    rw [List.length_drop, List.length_append] at hle
    omega
  obtain ⟨⟨value, s₂⟩, hdigits, rfl⟩ := Option.map_eq_some_iff.mp
    (@readDigits_eq line (s₁.jump (frameSizeStart line.text)) ds cs _ hrest hds hcs hlength none)
  rw [scanNode, hname, Option.bind_some, hdigits]
  rfl

end Line

/-! ### Every line is read back -/

/-- Two quotation marks are enough for a name. -/
theorem two_le_count {before name rest : List Char}
    (h : text.drop 4 = before ++ quote :: (name ++ quote :: rest)) :
    2 ≤ (text.drop 4).count quote := by
  rw [h, List.count_append, List.count_cons_self, List.count_append, List.count_cons_self]
  omega

/-- Four are enough for two. -/
theorem four_le_count {before name between name' rest : List Char}
    (h : text.drop 4 = before ++ quote :: (name ++ quote ::
      (between ++ quote :: (name' ++ quote :: rest)))) : 4 ≤ (text.drop 4).count quote := by
  rw [h]
  simp only [List.count_append, List.count_cons_self]
  omega

/-- A node line. -/
theorem itemOf_node {before name rest ds cs : List Char}
    (hnode : Line.startsWith "node" text = true) (hbefore : quote ∉ before) (hname : quote ∉ name)
    (h : text.drop 4 = before ++ quote :: (name ++ quote :: rest))
    (hrest : text.drop (Line.frameSizeStart text) = ds ++ cs)
    (hds : ∀ c ∈ ds, c.isDigit = true) (hcs : ∀ c ∈ cs.head?, c.isDigit = false) :
    itemOf text = some (.node (String.ofList name)
      (Line.frameSizeOf (if ds = [] then none else some (Nat.ofDigitChars 10 ds 0)))) := by
  have hs : LineScan.start.In (Line.inFile text) := Line.start_in rfl hnode
  rw [itemOf, Line.scan_of_node hnode, ← firstName_eq hbefore hname h]
  exact @Line.scanNode_eq (Line.inFile text) ds cs hs (two_le_count h) hrest hds hcs

namespace CiLine

/-- What is in front of a mark, put together. -/
theorem append_mark (a b c d e after : List Char) :
    a ++ (b ++ (c ++ (d ++ (e ++ ("\\n".toList ++ after)))))
      = a ++ (b ++ (c ++ (d ++ e))) ++ '\\' :: 'n' :: after := by
  have hmark : "\\n".toList ++ after = '\\' :: 'n' :: after := rfl
  rw [hmark]
  simp only [List.append_assoc]

/-- **Reading back.** What the compiler writes for a line says what the line is about. -/
theorem itemOf_text {line : CiLine} (h : line.WellFormed) : itemOf line.text = some line.item := by
  cases line with
  | graph title =>
    rw [itemOf, Line.scan_of_other rfl rfl]
    rfl
  | close =>
    rw [itemOf, Line.scan_of_other rfl rfl]
    rfl
  | function title signature location frameSize kind =>
    obtain ⟨htitle, hsize, hkind⟩ := h
    have hdrop : (function title signature location frameSize kind).text.drop 4
        = ": \x7b title: ".toList ++ quote :: (title.toList ++ quote ::
          (" label: \x22".toList ++ (signature.toList ++ ("\\n".toList ++ (location.toList ++
            ("\\n".toList ++ (Nat.toDigits 10 frameSize ++ (" bytes (".toList ++ (kind.toList ++
              ")\x22 \x7d".toList))))))))) := rfl
    have hsplit := append_mark "node: \x7b title: \x22".toList title.toList
      "\x22 label: \x22".toList signature.toList ("\\n".toList ++ location.toList)
      (Nat.toDigits 10 frameSize ++ (" bytes (".toList ++ (kind.toList ++ ")\x22 \x7d".toList)))
    rw [List.append_assoc] at hsplit
    have hdigits : ∀ c ∈ Nat.toDigits 10 frameSize, c.isDigit = true :=
      fun c hc => Nat.isDigit_of_mem_toDigits (by decide) (by decide) hc
    have hafter : '\\' ∉ Nat.toDigits 10 frameSize ++ (" bytes (".toList ++ (kind.toList ++
        ")\x22 \x7d".toList)) := by
      simp only [List.mem_append, not_or]
      exact ⟨fun hmem => absurd (hdigits _ hmem) (by decide), by decide, hkind, by decide⟩
    have hrest : (function title signature location frameSize kind).text.drop
        (Line.frameSizeStart (function title signature location frameSize kind).text) = _ :=
      Line.drop_frameSizeStart hsplit hafter
    rw [itemOf_node rfl (by decide) htitle hdrop hrest hdigits (by rintro c ⟨⟩; rfl),
      String.ofList_toList, if_neg Nat.toDigits_ne_nil, Nat.ofDigitChars_ten_toDigits,
      Line.frameSizeOf, if_pos hsize]
    rfl
  | external title signature location shape =>
    obtain ⟨htitle, hshape, hlocation⟩ := h
    have hdrop : (external title signature location shape).text.drop 4
        = ": \x7b title: ".toList ++ quote :: (title.toList ++ quote ::
          (" label: \x22".toList ++ (signature.toList ++
            (location.elim [] (fun location => "\\n".toList ++ location.toList) ++
              ("\x22 shape : ".toList ++ (shape.toList ++ " \x7d".toList)))))) := rfl
    -- there are no digits where the frame size would be
    obtain ⟨rest, hrest, hhead⟩ : ∃ rest, (external title signature location shape).text.drop
        (Line.frameSizeStart (external title signature location shape).text) = [] ++ rest ∧
        ∀ c ∈ rest.head?, c.isDigit = false := by
      cases location with
      | some location =>
        obtain ⟨hmark, hdigit⟩ := hlocation
        have hsplit := append_mark "node: \x7b title: \x22".toList title.toList
          "\x22 label: \x22".toList signature.toList []
          (location.toList ++ ("\x22 shape : ".toList ++ (shape.toList ++ " \x7d".toList)))
        have hafter : '\\' ∉ location.toList ++ ("\x22 shape : ".toList ++ (shape.toList ++
            " \x7d".toList)) := by
          simp only [List.mem_append, not_or]
          exact ⟨hmark, by decide, hshape, by decide⟩
        refine ⟨_, Line.drop_frameSizeStart hsplit hafter, ?_⟩
        cases hchars : location.toList with
        | nil => rintro c ⟨⟩; rfl
        | cons c chars =>
          rw [hchars] at hdigit
          rintro c ⟨⟩
          exact hdigit
      | none =>
        obtain ⟨htitle', hsignature⟩ := hlocation
        have hmark : '\\' ∉ (external title signature none shape).text := by
          change '\\' ∉ "node: \x7b title: \x22".toList ++ (title.toList ++
            ("\x22 label: \x22".toList ++ (signature.toList ++ ([] ++
              ("\x22 shape : ".toList ++ (shape.toList ++ " \x7d".toList))))))
          simp only [List.mem_append, not_or]
          exact ⟨by decide, htitle', by decide, hsignature, List.not_mem_nil, by decide, hshape,
            by decide⟩
        rw [Line.frameSizeStart, Line.rfindNewLine_eq_none hmark]
        exact ⟨_, rfl, by rintro c ⟨⟩; rfl⟩
    rw [itemOf_node rfl (by decide) htitle hdrop hrest (fun c hc => absurd hc List.not_mem_nil)
      hhead, String.ofList_toList]
    rfl
  | edge sourceName targetName label =>
    obtain ⟨hsource, htarget⟩ := h
    have hdrop : (edge sourceName targetName label).text.drop 4
        = ": \x7b sourcename: ".toList ++ quote :: (sourceName.toList ++ quote ::
          (" targetname: ".toList ++ quote :: (targetName.toList ++ quote ::
            (" label: \x22".toList ++ (label.toList ++ "\x22 \x7d".toList))))) := rfl
    have hedge : Line.startsWith "edge" (edge sourceName targetName label).text = true := rfl
    have hs : LineScan.start.In (Line.inFile (edge sourceName targetName label).text) :=
      Line.start_in rfl hedge
    rw [itemOf, Line.scan_of_edge rfl hedge, Line.scanEdge_inFile hs rfl,
      if_pos (four_le_count hdrop), firstName_eq (by decide) hsource hdrop,
      secondName_eq (by decide) hsource (by decide) htarget hdrop, String.ofList_toList,
      String.ofList_toList]
    rfl

end CiLine
end BareMetal
