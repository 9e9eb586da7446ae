import BareMetal.DiagnosticTools.StackCalculator
import Mathlib.Data.List.TakeWhile

/-!
# The lines of a call-graph file

A line that starts with `node` has the name of a function between its first two quotation
marks and its frame size after the last `\n`, which are two characters; one that starts with
`edge` has the names of the caller and of the callee between quotation marks. `main` goes
through a line with a pointer.

Some of its loops go on to the next quotation mark or to the end of the line. The loops
that copy a name go on to the next quotation mark wherever it is. So the model has the
memory that the line is in, and it keeps the positions that are read. The scan stays in the line
exactly if there are enough quotation marks for the names that it copies
(`neverLeaves_iff`).
-/

namespace BareMetal

/-! ### The scan -/

/-- A line in memory: its characters, a NUL, and what happens to be there after it. -/
structure Line where
  text : List Char
  beyond : ℕ → Char

namespace Line

def size (line : Line) : ℕ := line.text.length

/-- The character at a position, as a pointer reads it. -/
def charAt (line : Line) (i : ℕ) : Char :=
  if i < line.size then line.text.getD i '\x00'
  else if i = line.size then '\x00' else line.beyond (i - line.size - 1)

end Line

/-- The quotation mark. -/
def quote : Char := '\x22'

/-- `current_char`, as a position in the line, and the positions that were read. -/
structure LineScan where
  current : ℕ
  reads : List ℕ := []

namespace LineScan

/-- `*current_char` is read. -/
def read (s : LineScan) : LineScan := { s with reads := s.current :: s.reads }

/-- `++current_char`. -/
def next (s : LineScan) : LineScan := { s with current := s.current + 1 }

/-- `current_char` is set. -/
def jump (s : LineScan) (i : ℕ) : LineScan := { s with current := i }

/-- Behind the first word of a line. -/
def start : LineScan := ⟨4, []⟩

end LineScan

namespace Line

variable (line : Line)

/-- `while(current_char < end && *current_char != '\x22') ++current_char;` -/
def skipToQuote : (fuel : ℕ) → LineScan → Option LineScan
  | 0, _ => none
  | fuel + 1, s =>
    if s.current < line.size then
      if line.charAt s.current ≠ quote then skipToQuote fuel s.read.next else some s.read
    else some s

/-- `current_char += (current_char < end);` -/
def stepOver (s : LineScan) : LineScan := if s.current < line.size then s.next else s

/-- The loop that copies a name: `while(*current_char != '\x22')`. -/
def readName : (fuel : ℕ) → LineScan → (name : List Char) → Option (List Char × LineScan)
  | 0, _, _ => none
  | fuel + 1, s, name =>
    if line.charAt s.current ≠ quote then
      readName fuel s.read.next (name ++ [line.charAt s.current])
    else some (name, s.read)

/-- The next name: to the quotation mark, over it, and to the one after it. -/
def nextName (fuel : ℕ) (s : LineScan) : Option (List Char × LineScan) :=
  (line.skipToQuote fuel s).bind fun s => line.readName fuel (line.stepOver s) []

/-- `line.rfind("\\n")`. -/
def rfindNewLine : List Char → Option ℕ
  | [] => none
  | c :: cs =>
    match rfindNewLine cs with
    | some i => some (i + 1)
    | none => if c = '\\' ∧ cs.head? = some 'n' then some 0 else none

/-- Where `main` takes the frame size to start. If there is no `\n`, then `npos + 2` is 1. -/
def frameSizeStart (text : List Char) : ℕ :=
  match rfindNewLine text with
  | some i => i + 2
  | none => 1

/-- The loop of `from_chars` over the digits, and the value so far. -/
def readDigits : (fuel : ℕ) → LineScan → (value : Option ℕ) → Option (Option ℕ × LineScan)
  | 0, _, _ => none
  | fuel + 1, s, value =>
    if s.current < line.size then
      let c := line.charAt s.current
      if c.isDigit then
        readDigits fuel s.read.next (some (10 * value.getD 0 + (c.toNat - '0'.toNat)))
      else some (value, s.read)
    else some (value, s)

/-- The `uint32_t` that `from_chars` leaves, which was zero before: without digits, or when the
value is too large, it does not write it. -/
def frameSizeOf : Option ℕ → ℕ
  | some n => if n < 2 ^ 32 then n else 0
  | none => 0

theorem frameSizeOf_lt (value : Option ℕ) : frameSizeOf value < 2 ^ 32 := by
  unfold frameSizeOf
  split
  · split
    · assumption
    · decide
  · decide

end Line

/-- What a line says. The callee is not looked at if the caller is not known. -/
inductive LineItem where
  | other
  | node (title : String) (frameSize : ℕ)
  | edge (sourceName : String) (targetName : Option String)
  deriving DecidableEq, Repr

/-- The names that were copied. -/
def LineItem.names : LineItem → List String
  | .other => []
  | .node title _ => [title]
  | .edge sourceName targetName => sourceName :: targetName.toList

namespace Line

variable (line : Line)

/-- The branch for a line that starts with `node`. -/
def scanNode (fuel : ℕ) : Option (LineItem × LineScan) :=
  (line.nextName fuel .start).bind fun title =>
    (line.readDigits fuel (title.2.jump (frameSizeStart line.text)) none).map
      fun result => (.node (String.ofList title.1) (frameSizeOf result.1), result.2)

/-- The branch for a line that starts with `edge`. -/
def scanEdge (known : String → Bool) (fuel : ℕ) : Option (LineItem × LineScan) :=
  (line.nextName fuel .start).bind fun source =>
    let s := line.stepOver source.2
    let sourceName := String.ofList source.1
    if known sourceName then
      (line.nextName fuel s).map fun target =>
        (.edge sourceName (some (String.ofList target.1)), target.2)
    else some (.edge sourceName none, s)

/-- `line.starts_with(word)`. -/
def startsWith (word : String) (text : List Char) : Bool := word.toList.isPrefixOf text

/-- What `main` does with a line, given which functions `u_map` contains. -/
def scan (known : String → Bool) (fuel : ℕ) : Option (LineItem × LineScan) :=
  if startsWith "node" line.text then line.scanNode fuel
  else if startsWith "edge" line.text then line.scanEdge known fuel
  else some (.other, ⟨0, []⟩)

end Line

/-! ### Loops -/

namespace LineScan

variable {line : Line} {s s₁ s' : LineScan}

/-- The position is in the line or at its end. -/
def In (line : Line) (s : LineScan) : Prop := s.current ≤ line.size

/-- The characters of the line from the position on. -/
def rest (line : Line) (s : LineScan) : List Char := line.text.drop s.current

/-- Nothing was read but characters of the line and its NUL. -/
def Within (line : Line) (s : LineScan) : Prop := ∀ i ∈ s.reads, i ≤ line.size

theorem rest_eq_cons {c : Char} {cs : List Char} (h : s.rest line = c :: cs) :
    s.current < line.size ∧ line.charAt s.current = c ∧ s.next.rest line = cs := by
  have hlt : s.current < line.size := by
    by_contra hge
    rw [rest, List.drop_eq_nil_of_le (Nat.le_of_not_lt hge)] at h
    exact List.cons_ne_nil c cs h.symm
  rw [rest, List.drop_eq_getElem_cons hlt] at h
  obtain ⟨hc, hcs⟩ := List.cons.inj h
  refine ⟨hlt, ?_, hcs⟩
  rw [Line.charAt, if_pos hlt, List.getD_eq_getElem?_getD, List.getElem?_eq_getElem hlt, hc,
    Option.getD_some]

theorem rest_eq_nil (hs : s.In line) (h : s.rest line = []) :
    s.current = line.size ∧ line.charAt s.current = '\x00' := by
  have heq : s.current = line.size := Nat.le_antisymm hs (List.drop_eq_nil_iff.mp h)
  refine ⟨heq, ?_⟩
  rw [Line.charAt, if_neg (by omega), if_pos heq]

/-- From `s` to `s'` nothing was read but what the line has, and `cs` is left of it. -/
structure Goes (line : Line) (s : LineScan) (cs : List Char) (s' : LineScan) : Prop where
  in_line : s'.In line
  rest_eq : s'.rest line = cs
  within_iff : s'.Within line ↔ s.Within line

theorem Goes.refl (hs : s.In line) : Goes line s (s.rest line) s := ⟨hs, rfl, Iff.rfl⟩

theorem Goes.trans {cs cs' : List Char} (h₁ : Goes line s cs s₁) (h : Goes line s₁ cs' s') :
    Goes line s cs' s' :=
  ⟨h.in_line, h.rest_eq, h.within_iff.trans h₁.within_iff⟩

theorem within_read (hs : s.In line) : s.read.Within line ↔ s.Within line :=
  List.forall_mem_cons.trans (and_iff_right hs)

theorem goes_read (hs : s.In line) : Goes line s (s.rest line) s.read :=
  ⟨hs, rfl, within_read hs⟩

/-- A character is read, and the next one is next. -/
theorem goes_read_next {c : Char} {cs : List Char} (h : s.rest line = c :: cs) :
    Goes line s cs s.read.next := by
  obtain ⟨hlt, -, hcs⟩ := rest_eq_cons h
  exact ⟨hlt, hcs, within_read hlt.le⟩

end LineScan

/-- What is left after the next quotation mark. -/
def afterQuote (cs : List Char) : List Char := (cs.dropWhile (· ≠ quote)).tail

/-- What is there up to the next quotation mark. -/
def untilQuote (cs : List Char) : List Char := cs.takeWhile (· ≠ quote)

/-- The name between the first two quotation marks of a line. -/
def firstName (text : List Char) : String := String.ofList (untilQuote (afterQuote (text.drop 4)))

/-- The name between the third quotation mark and the fourth. -/
def secondName (text : List Char) : String :=
  String.ofList (untilQuote (afterQuote (afterQuote (afterQuote (text.drop 4)))))

theorem count_afterQuote (cs : List Char) :
    (afterQuote cs).count quote = cs.count quote - 1 := by
  induction cs with
  | nil => rfl
  | cons c cs ih =>
    by_cases hc : c = quote
    · subst hc
      rw [List.count_cons_self]
      simp [afterQuote]
    · rw [List.count_cons_of_ne hc, ← ih]
      simp [afterQuote, hc]

theorem quote_mem_afterQuote {cs : List Char} :
    quote ∈ afterQuote cs ↔ 2 ≤ cs.count quote := by
  rw [← List.count_pos_iff, count_afterQuote]
  omega

namespace Line

variable {line : Line} {s s' : LineScan} {fuel : ℕ} {name name' : List Char}

theorem skipToQuote_spec (h : line.skipToQuote fuel s = some s') (hs : s.In line) :
    s.Goes line ((s.rest line).dropWhile (· ≠ quote)) s' := by
  induction fuel generalizing s with
  | zero => exact absurd h (Option.some_ne_none s').symm
  | succ fuel ih =>
    cases hrest : s.rest line with
    | nil =>
      -- the test for the end stops the loop, and nothing is read
      obtain ⟨heq, -⟩ := LineScan.rest_eq_nil hs hrest
      rw [skipToQuote, if_neg (by omega)] at h
      obtain rfl := Option.some.inj h
      exact ⟨hs, hrest, Iff.rfl⟩
    | cons c cs =>
      obtain ⟨hlt, hc, -⟩ := LineScan.rest_eq_cons hrest
      have hnext := LineScan.goes_read_next hrest
      rw [skipToQuote, if_pos hlt, hc] at h
      by_cases hquote : c ≠ quote
      · rw [if_pos hquote] at h
        rw [List.dropWhile_cons_of_pos (by simpa using hquote), ← hnext.rest_eq]
        exact hnext.trans (ih h hnext.in_line)
      · rw [if_neg hquote] at h
        obtain rfl := Option.some.inj h
        rw [List.dropWhile_cons_of_neg (by simpa using hquote), ← hrest]
        exact LineScan.goes_read hs

theorem skipToQuote_keeps (h : line.skipToQuote fuel s = some s') :
    ∀ i ∈ s.reads, i ∈ s'.reads := by
  induction fuel generalizing s with
  | zero => exact absurd h (Option.some_ne_none s').symm
  | succ fuel ih =>
    rw [skipToQuote] at h
    split at h
    · split at h
      · exact (List.forall_mem_cons.mp (ih h)).2
      · obtain rfl := Option.some.inj h
        exact fun i hi => List.mem_cons_of_mem _ hi
    · obtain rfl := Option.some.inj h
      exact fun i hi => hi

theorem skipToQuote_isSome (hs : s.In line) (hfuel : (s.rest line).length < fuel) :
    ∃ s', line.skipToQuote fuel s = some s' := by
  induction fuel generalizing s with
  | zero => exact absurd hfuel (Nat.not_lt_zero _)
  | succ fuel ih =>
    rw [skipToQuote]
    cases hrest : s.rest line with
    | nil =>
      obtain ⟨heq, -⟩ := LineScan.rest_eq_nil hs hrest
      exact ⟨s, if_neg (by omega)⟩
    | cons c cs =>
      obtain ⟨hlt, -, -⟩ := LineScan.rest_eq_cons hrest
      have hnext := LineScan.goes_read_next hrest
      rw [hrest, List.length_cons] at hfuel
      rw [if_pos hlt]
      split
      · exact ih hnext.in_line (by rw [hnext.rest_eq]; omega)
      · exact ⟨s.read, rfl⟩

@[simp] theorem stepOver_reads (line : Line) (s : LineScan) :
    (line.stepOver s).reads = s.reads := by
  unfold stepOver
  split <;> rfl

theorem stepOver_spec (hs : s.In line) : s.Goes line (s.rest line).tail (line.stepOver s) := by
  unfold stepOver
  split
  · rename_i hlt
    exact ⟨hlt, (List.tail_drop).symm, Iff.rfl⟩
  · rename_i hge
    refine ⟨hs, ?_, Iff.rfl⟩
    rw [LineScan.rest, List.drop_eq_nil_of_le (Nat.le_of_not_lt hge)]
    rfl

/-- The loop that copies a name reads where it starts, and keeps what was read. -/
theorem readName_reads (h : line.readName fuel s name = some (name', s')) :
    s.current ∈ s'.reads ∧ ∀ i ∈ s.reads, i ∈ s'.reads := by
  induction fuel generalizing s name with
  | zero => exact absurd h (Option.some_ne_none _).symm
  | succ fuel ih =>
    rw [readName] at h
    split at h
    · obtain ⟨-, hkeep⟩ := ih h
      exact List.forall_mem_cons.mp hkeep
    · obtain ⟨-, rfl⟩ := Prod.mk.inj (Option.some.inj h)
      exact ⟨List.mem_cons_self, fun i hi => List.mem_cons_of_mem _ hi⟩

/-- **The loop that copies a name** leaves the line if there is no quotation mark to come. -/
theorem not_within_of_readName (h : line.readName fuel s name = some (name', s'))
    (hs : s.In line) (hquote : quote ∉ s.rest line) : ¬ s'.Within line := by
  induction fuel generalizing s name with
  | zero => exact absurd h (Option.some_ne_none _).symm
  | succ fuel ih =>
    cases hrest : s.rest line with
    | nil =>
      -- the NUL is copied, and then comes what is there after it
      obtain ⟨heq, hc⟩ := LineScan.rest_eq_nil hs hrest
      rw [readName, hc, if_pos (by decide)] at h
      intro hwithin
      have hle := hwithin _ (readName_reads h).1
      change s.current + 1 ≤ line.size at hle
      omega
    | cons c cs =>
      obtain ⟨-, hc, -⟩ := LineScan.rest_eq_cons hrest
      rw [hrest, List.mem_cons, not_or] at hquote
      have hnext := LineScan.goes_read_next hrest
      rw [readName, hc, if_pos (Ne.symm hquote.1)] at h
      exact ih h hnext.in_line (by rw [hnext.rest_eq]; exact hquote.2)

theorem readName_spec (h : line.readName fuel s name = some (name', s')) (hs : s.In line)
    (hquote : quote ∈ s.rest line) :
    name' = name ++ untilQuote (s.rest line) ∧
      s.Goes line ((s.rest line).dropWhile (· ≠ quote)) s' := by
  -- on the fuel: each character is copied, up to the quote
  induction fuel generalizing s name with
  | zero => exact absurd h (Option.some_ne_none _).symm
  | succ fuel ih =>
    cases hrest : s.rest line with
    | nil =>
      rw [hrest] at hquote
      exact absurd hquote List.not_mem_nil
    | cons c cs =>
      obtain ⟨-, hc, -⟩ := LineScan.rest_eq_cons hrest
      have hnext := LineScan.goes_read_next hrest
      rw [readName, hc] at h
      unfold untilQuote
      by_cases hne : c ≠ quote
      · rw [if_pos hne] at h
        rw [hrest] at hquote
        obtain ⟨rfl, hgoes⟩ := ih h hnext.in_line
          (by rw [hnext.rest_eq]; exact (List.mem_cons.mp hquote).resolve_left (Ne.symm hne))
        rw [hnext.rest_eq] at hgoes ⊢
        rw [List.dropWhile_cons_of_pos (by simpa using hne),
          List.takeWhile_cons_of_pos (by simpa using hne)]
        exact ⟨List.append_assoc .., hnext.trans hgoes⟩
      · rw [if_neg hne] at h
        obtain ⟨rfl, rfl⟩ := Prod.mk.inj (Option.some.inj h)
        rw [List.dropWhile_cons_of_neg (by simpa using hne),
          List.takeWhile_cons_of_neg (by simpa using hne), ← hrest]
        exact ⟨(List.append_nil _).symm, LineScan.goes_read hs⟩

theorem readName_isSome (hs : s.In line) (hquote : quote ∈ s.rest line)
    (hfuel : (s.rest line).length < fuel) (name : List Char) :
    ∃ r, line.readName fuel s name = some r := by
  -- on the fuel: the quote is still ahead after a character that is none
  induction fuel generalizing s name with
  | zero => exact absurd hfuel (Nat.not_lt_zero _)
  | succ fuel ih =>
    rw [readName]
    split
    · rename_i hne
      cases hrest : s.rest line with
      | nil =>
        rw [hrest] at hquote
        exact absurd hquote List.not_mem_nil
      | cons c cs =>
        obtain ⟨-, hc, -⟩ := LineScan.rest_eq_cons hrest
        have hnext := LineScan.goes_read_next hrest
        rw [hrest] at hquote hfuel
        rw [hc] at hne
        refine ih hnext.in_line ?_ ?_ _
        · rw [hnext.rest_eq]
          exact (List.mem_cons.mp hquote).resolve_left (Ne.symm hne)
        · rw [hnext.rest_eq]
          exact Nat.lt_of_succ_lt_succ hfuel
    · exact ⟨_, rfl⟩

/-! ### Names and numbers -/

/-- What was read stays read. -/
theorem nextName_keeps (h : line.nextName fuel s = some (name, s')) :
    ∀ i ∈ s.reads, i ∈ s'.reads := by
  obtain ⟨s₁, hs₁, hname⟩ := Option.bind_eq_some_iff.mp h
  intro i hi
  refine (readName_reads hname).2 i ?_
  rw [stepOver_reads]
  exact skipToQuote_keeps hs₁ i hi

theorem exists_readName (h : line.nextName fuel s = some (name, s')) (hs : s.In line) :
    ∃ s₁, s.Goes line (afterQuote (s.rest line)) s₁ ∧
      line.readName fuel s₁ [] = some (name, s') := by
  obtain ⟨s₁, hs₁, hname⟩ := Option.bind_eq_some_iff.mp h
  have hskip := skipToQuote_spec hs₁ hs
  have hover := stepOver_spec hskip.in_line
  rw [hskip.rest_eq] at hover
  exact ⟨_, hskip.trans hover, hname⟩

/-- **The next name**, where two quotation marks are to come. -/
theorem nextName_spec (h : line.nextName fuel s = some (name, s')) (hs : s.In line)
    (htwo : 2 ≤ (s.rest line).count quote) :
    name = untilQuote (afterQuote (s.rest line)) ∧
      s.Goes line ((afterQuote (s.rest line)).dropWhile (· ≠ quote)) s' := by
  obtain ⟨s₁, hgoes, hname⟩ := exists_readName h hs
  obtain ⟨rfl, hread⟩ := readName_spec hname hgoes.in_line
    (by rw [hgoes.rest_eq]; exact quote_mem_afterQuote.mpr htwo)
  rw [hgoes.rest_eq] at hread ⊢
  exact ⟨List.nil_append _, hgoes.trans hread⟩

/-- Where they are not, the scan leaves the line. -/
theorem not_within_of_nextName (h : line.nextName fuel s = some (name, s')) (hs : s.In line)
    (htwo : ¬ 2 ≤ (s.rest line).count quote) : ¬ s'.Within line := by
  obtain ⟨s₁, hgoes, hname⟩ := exists_readName h hs
  refine not_within_of_readName hname hgoes.in_line ?_
  rw [hgoes.rest_eq]
  exact mt quote_mem_afterQuote.mp htwo

theorem length_rest_lt (line : Line) (s : LineScan) : (s.rest line).length < line.size + 1 := by
  rw [LineScan.rest, List.length_drop]
  unfold size
  omega

theorem nextName_isSome (hs : s.In line) (htwo : 2 ≤ (s.rest line).count quote)
    (hfuel : line.size < fuel) : ∃ r, line.nextName fuel s = some r := by
  have hlength := fun s => (length_rest_lt line s).trans_le hfuel
  obtain ⟨s₁, hs₁⟩ := skipToQuote_isSome hs (hlength s)
  have hskip := skipToQuote_spec hs₁ hs
  have hover := stepOver_spec hskip.in_line
  obtain ⟨r, hr⟩ := readName_isSome hover.in_line
    (by rw [hover.rest_eq, hskip.rest_eq]; exact quote_mem_afterQuote.mpr htwo) (hlength _) []
  exact ⟨r, by rw [nextName, hs₁, Option.bind_some, hr]⟩

theorem readDigits_spec {value value' : Option ℕ}
    (h : line.readDigits fuel s value = some (value', s')) (hs : s.In line) :
    s'.Within line ↔ s.Within line := by
  induction fuel generalizing s value with
  | zero => exact absurd h (Option.some_ne_none _).symm
  | succ fuel ih =>
    rw [readDigits] at h
    split at h
    · rename_i hlt
      have hread : s.read.Within line ↔ s.Within line := LineScan.within_read hs
      simp only at h
      split at h
      · exact (ih (s := s.read.next) h hlt).trans hread
      · obtain ⟨-, rfl⟩ := Prod.mk.inj (Option.some.inj h)
        exact hread
    · obtain ⟨-, rfl⟩ := Prod.mk.inj (Option.some.inj h)
      exact Iff.rfl

theorem readDigits_isSome (hs : s.In line) (hfuel : line.size - s.current < fuel)
    (value : Option ℕ) : ∃ r, line.readDigits fuel s value = some r := by
  induction fuel generalizing s value with
  | zero => exact absurd hfuel (Nat.not_lt_zero _)
  | succ fuel ih =>
    rw [readDigits]
    split
    · rename_i hlt
      simp only
      split
      · refine ih (s := s.read.next) hlt ?_ _
        change line.size - (s.current + 1) < fuel
        omega
      · exact ⟨_, rfl⟩
    · exact ⟨_, rfl⟩

/-- The last `\n` and the two characters of it are in the line. -/
theorem add_two_le_of_rfindNewLine {text : List Char} {i : ℕ} (h : rfindNewLine text = some i) :
    i + 2 ≤ text.length := by
  induction text generalizing i with
  | nil => exact absurd h (Option.some_ne_none i).symm
  | cons c cs ih =>
    rw [rfindNewLine] at h
    cases hcs : rfindNewLine cs with
    | some j =>
      rw [hcs] at h
      obtain rfl := Option.some.inj h
      exact Nat.succ_le_succ (ih hcs)
    | none =>
      rw [hcs] at h
      simp only at h
      split at h
      · -- the line starts with the last `\n`
        rename_i hc
        obtain rfl := Option.some.inj h
        cases cs with
        | nil => exact absurd hc.2 (Option.some_ne_none _).symm
        | cons c' cs => exact Nat.le_add_left 2 cs.length
      · exact absurd h (Option.some_ne_none i).symm

theorem frameSizeStart_le {text : List Char} (h : 0 < text.length) :
    frameSizeStart text ≤ text.length := by
  unfold frameSizeStart
  split
  · rename_i i hi
    exact add_two_le_of_rfindNewLine hi
  · exact h

theorem afterQuote_suffix (cs : List Char) : afterQuote cs <:+ cs :=
  (List.tail_suffix _).trans (List.dropWhile_suffix _)

/-- The names of a line are parts of it. -/
theorem firstName_isInfix (text : List Char) : (firstName text).toList <:+: text := by
  rw [firstName, String.toList_ofList]
  refine (List.takeWhile_prefix _).isInfix.trans (List.IsSuffix.isInfix ?_)
  exact (afterQuote_suffix _).trans (List.drop_suffix 4 text)

theorem secondName_isInfix (text : List Char) : (secondName text).toList <:+: text := by
  rw [secondName, String.toList_ofList]
  refine (List.takeWhile_prefix _).isInfix.trans (List.IsSuffix.isInfix ?_)
  refine (afterQuote_suffix _).trans ((afterQuote_suffix _).trans ?_)
  exact (afterQuote_suffix _).trans (List.drop_suffix 4 text)

/-- A line that starts with a word of four letters. -/
theorem start_in {word : String} (hword : word.toList.length = 4)
    (h : startsWith word line.text = true) : LineScan.start.In line := by
  have hlength := (List.isPrefixOf_iff_prefix.mp h).length_le
  rwa [hword] at hlength

theorem start_within (line : Line) : LineScan.start.Within line :=
  fun _ hi => absurd hi List.not_mem_nil

variable {item : LineItem} {known : String → Bool}

theorem jump_in (hs : LineScan.start.In line) (s : LineScan) :
    (s.jump (frameSizeStart line.text)).In line :=
  frameSizeStart_le (Nat.lt_of_lt_of_le (by decide) hs)

theorem scanNode_within_iff (h : line.scanNode fuel = some (item, s'))
    (hs : LineScan.start.In line) : s'.Within line ↔ 2 ≤ (line.text.drop 4).count quote := by
  obtain ⟨⟨title, s₁⟩, hname, hdigits⟩ := Option.bind_eq_some_iff.mp h
  obtain ⟨⟨value, s₂⟩, hvalue, heq⟩ := Option.map_eq_some_iff.mp hdigits
  obtain ⟨-, rfl⟩ := Prod.mk.inj heq
  have hwithin := readDigits_spec hvalue (jump_in hs s₁)
  change s₂.Within line ↔ s₁.Within line at hwithin
  rw [hwithin]
  by_cases htwo : 2 ≤ (line.text.drop 4).count quote
  · exact iff_of_true ((nextName_spec hname hs htwo).2.within_iff.mpr (start_within line)) htwo
  · exact iff_of_false (not_within_of_nextName hname hs htwo) htwo

/-- What a node line says. -/
theorem scanNode_item (h : line.scanNode fuel = some (item, s')) (hs : LineScan.start.In line)
    (htwo : 2 ≤ (line.text.drop 4).count quote) :
    ∃ value, item = .node (firstName line.text) (frameSizeOf value) := by
  obtain ⟨⟨title, s₁⟩, hname, hdigits⟩ := Option.bind_eq_some_iff.mp h
  obtain ⟨⟨value, s₂⟩, -, heq⟩ := Option.map_eq_some_iff.mp hdigits
  obtain ⟨rfl, -⟩ := Prod.mk.inj heq
  obtain ⟨rfl, -⟩ := nextName_spec hname hs htwo
  exact ⟨value, rfl⟩

theorem scanNode_isSome (hs : LineScan.start.In line)
    (htwo : 2 ≤ (line.text.drop 4).count quote) (hfuel : line.size < fuel) :
    ∃ r, line.scanNode fuel = some r := by
  obtain ⟨⟨title, s₁⟩, hname⟩ := nextName_isSome hs htwo hfuel
  obtain ⟨r, hr⟩ := readDigits_isSome (jump_in hs s₁)
    (Nat.lt_of_le_of_lt (Nat.sub_le _ _) hfuel) none
  exact ⟨_, by rw [scanNode, hname, Option.bind_some, hr, Option.map_some]⟩

/-- Where the name of a caller ends. -/
theorem goes_source {source : List Char} {s₁ : LineScan} (hs : LineScan.start.In line)
    (hname : line.nextName fuel .start = some (source, s₁))
    (htwo : 2 ≤ (line.text.drop 4).count quote) :
    source = untilQuote (afterQuote (line.text.drop 4)) ∧
      LineScan.start.Goes line (afterQuote (afterQuote (line.text.drop 4))) (line.stepOver s₁) := by
  obtain ⟨rfl, hgoes⟩ := nextName_spec hname hs htwo
  have hover := stepOver_spec hgoes.in_line
  rw [hgoes.rest_eq] at hover
  exact ⟨rfl, hgoes.trans hover⟩

theorem two_le_count_target {cs : List Char} :
    2 ≤ (afterQuote (afterQuote cs)).count quote ↔ 4 ≤ cs.count quote := by
  rw [count_afterQuote, count_afterQuote]
  omega

/-- The quotation marks that an edge line needs. -/
def EdgeQuoted (known : String → Bool) (text : List Char) : Prop :=
  2 ≤ (text.drop 4).count quote ∧ (known (firstName text) = true → 4 ≤ (text.drop 4).count quote)

/-- The branch for an edge line, once the name of the caller is copied. -/
theorem scanEdge_cases (h : line.scanEdge known fuel = some (item, s')) :
    ∃ source s₁, line.nextName fuel .start = some (source, s₁) ∧
      ((known (String.ofList source) = true ∧ ∃ target,
          line.nextName fuel (line.stepOver s₁) = some (target, s') ∧
          item = .edge (String.ofList source) (some (String.ofList target))) ∨
        known (String.ofList source) = false ∧ s' = line.stepOver s₁ ∧
          item = .edge (String.ofList source) none) := by
  obtain ⟨⟨source, s₁⟩, hname, hrest⟩ := Option.bind_eq_some_iff.mp h
  refine ⟨source, s₁, hname, ?_⟩
  simp only at hrest
  split at hrest
  · rename_i hknown
    obtain ⟨⟨target, s₂⟩, htarget, heq⟩ := Option.map_eq_some_iff.mp hrest
    obtain ⟨rfl, rfl⟩ := Prod.mk.inj heq
    exact .inl ⟨hknown, target, htarget, rfl⟩
  · rename_i hknown
    obtain ⟨rfl, rfl⟩ := Prod.mk.inj (Option.some.inj hrest)
    exact .inr ⟨Bool.eq_false_iff.mpr hknown, rfl, rfl⟩

theorem scanEdge_within_iff (h : line.scanEdge known fuel = some (item, s'))
    (hs : LineScan.start.In line) : s'.Within line ↔ EdgeQuoted known line.text := by
  obtain ⟨source, s₁, hname, hcases⟩ := scanEdge_cases h
  by_cases htwo : 2 ≤ (line.text.drop 4).count quote
  · obtain ⟨rfl, hgoes⟩ := goes_source hs hname htwo
    have hstart := hgoes.within_iff.mpr (start_within line)
    have hfour : 2 ≤ ((line.stepOver s₁).rest line).count quote ↔
        4 ≤ (line.text.drop 4).count quote := by
      rw [hgoes.rest_eq]
      exact two_le_count_target
    rcases hcases with ⟨hknown, target, htarget, -⟩ | ⟨hknown, rfl, -⟩
    · -- a known caller: a second name is copied
      by_cases hmore : 2 ≤ ((line.stepOver s₁).rest line).count quote
      · obtain ⟨-, htgoes⟩ := nextName_spec htarget hgoes.in_line hmore
        exact iff_of_true (htgoes.within_iff.mpr hstart) ⟨htwo, fun _ => hfour.mp hmore⟩
      · refine iff_of_false (not_within_of_nextName htarget hgoes.in_line hmore) fun hquoted => ?_
        exact hmore (hfour.mpr (hquoted.2 hknown))
    · -- an unknown one: the rest of the line is not looked at
      refine iff_of_true hstart ⟨htwo, fun hknown' => ?_⟩
      exact Bool.noConfusion (hknown.symm.trans hknown')
  · -- the first name leaves the line, and what was read stays read
    have hleft : ¬ s₁.Within line := not_within_of_nextName hname hs htwo
    refine iff_of_false (fun hwithin => hleft fun i hi => hwithin i ?_)
      fun hquoted => htwo hquoted.1
    rw [← stepOver_reads line] at hi
    rcases hcases with ⟨-, target, htarget, -⟩ | ⟨-, rfl, -⟩
    · exact nextName_keeps htarget i hi
    · exact hi

/-- What an edge line says. -/
theorem scanEdge_item (h : line.scanEdge known fuel = some (item, s'))
    (hs : LineScan.start.In line) (hquoted : EdgeQuoted known line.text) :
    item = .edge (firstName line.text)
      (if known (firstName line.text) then some (secondName line.text) else none) := by
  obtain ⟨source, s₁, hname, hcases⟩ := scanEdge_cases h
  obtain ⟨rfl, hgoes⟩ := goes_source hs hname hquoted.1
  rcases hcases with ⟨hknown, target, htarget, rfl⟩ | ⟨hknown, -, rfl⟩
  · have hmore : 2 ≤ ((line.stepOver s₁).rest line).count quote := by
      rw [hgoes.rest_eq]
      exact two_le_count_target.mpr (hquoted.2 hknown)
    obtain ⟨rfl, -⟩ := nextName_spec htarget hgoes.in_line hmore
    rw [hgoes.rest_eq]
    exact congrArg (LineItem.edge _) (if_pos hknown).symm
  · exact congrArg (LineItem.edge _) (if_neg (Bool.eq_false_iff.mp hknown)).symm

theorem scanEdge_isSome (hs : LineScan.start.In line)
    (hquoted : EdgeQuoted known line.text) (hfuel : line.size < fuel) :
    ∃ r, line.scanEdge known fuel = some r := by
  obtain ⟨⟨source, s₁⟩, hname⟩ := nextName_isSome hs hquoted.1 hfuel
  obtain ⟨rfl, hgoes⟩ := goes_source hs hname hquoted.1
  rw [scanEdge, hname, Option.bind_some]
  simp only
  split
  · rename_i hknown
    have hmore : 2 ≤ ((line.stepOver s₁).rest line).count quote := by
      rw [hgoes.rest_eq]
      exact two_le_count_target.mpr (hquoted.2 hknown)
    obtain ⟨r, hr⟩ := nextName_isSome hgoes.in_line hmore hfuel
    exact ⟨_, by rw [hr, Option.map_some]⟩
  · exact ⟨_, rfl⟩

/-! ### The line -/

/-- A line has the quotation marks that its branch needs: two for the name of a function or of a
caller, four for a known caller and its callee. -/
def WellQuoted (known : String → Bool) (text : List Char) : Prop :=
  if startsWith "node" text then 2 ≤ (text.drop 4).count quote
  else if startsWith "edge" text then EdgeQuoted known text
  else True

/-- The scan comes to an end, it reads nothing but the line and its NUL, and the names are parts
of the line. -/
def NeverLeaves (known : String → Bool) (line : Line) : Prop :=
  ∃ fuel item s, line.scan known fuel = some (item, s) ∧ s.Within line ∧
    ∀ name ∈ item.names, name.toList <:+: line.text

/-- **When the scan stays in the line**: if the line has the quotation marks that its branch
needs. -/
theorem neverLeaves_iff (known : String → Bool) (line : Line) :
    NeverLeaves known line ↔ WellQuoted known line.text := by
  unfold NeverLeaves WellQuoted scan
  -- a node has one name to copy, an edge two if the caller is known
  split
  · rename_i hnode
    have hs : LineScan.start.In line := start_in rfl hnode
    refine ⟨?_, ?_⟩
    · rintro ⟨fuel, item, s, h, hwithin, -⟩
      exact (scanNode_within_iff h hs).mp hwithin
    · intro htwo
      obtain ⟨⟨item, s⟩, h⟩ := scanNode_isSome hs htwo (Nat.lt_succ_self _)
      refine ⟨_, item, s, h, (scanNode_within_iff h hs).mpr htwo, ?_⟩
      obtain ⟨value, rfl⟩ := scanNode_item h hs htwo
      exact List.forall_mem_singleton.mpr (firstName_isInfix line.text)
  · split
    · rename_i hedge
      have hs : LineScan.start.In line := start_in rfl hedge
      refine ⟨?_, ?_⟩
      · rintro ⟨fuel, item, s, h, hwithin, -⟩
        exact (scanEdge_within_iff h hs).mp hwithin
      · intro hquoted
        obtain ⟨⟨item, s⟩, h⟩ := scanEdge_isSome hs hquoted (Nat.lt_succ_self _)
        refine ⟨_, item, s, h, (scanEdge_within_iff h hs).mpr hquoted, ?_⟩
        rw [scanEdge_item h hs hquoted]
        refine List.forall_mem_cons.mpr ⟨firstName_isInfix line.text, fun name hname => ?_⟩
        split at hname
        · rw [List.mem_singleton.mp hname]
          exact secondName_isInfix line.text
        · exact absurd hname List.not_mem_nil
    · -- other lines are not scanned at all
      refine iff_of_true ⟨0, .other, ⟨0, []⟩, rfl, ?_, ?_⟩ trivial
      · exact fun i hi => absurd hi List.not_mem_nil
      · exact fun name hname => absurd hname List.not_mem_nil

/-- A line of four letters, with other characters after its NUL. -/
def bareNode : Line := ⟨"node".toList, fun i => if i = 3 then quote else 'x'⟩

/-- **A name from beyond the line.** The line has no quotation mark, so the name is the NUL and
what comes after it. -/
theorem bareNode_leaves :
    ¬ NeverLeaves (fun _ => false) bareNode ∧
      (bareNode.scan (fun _ => false) 20).map (fun r => r.1) = some (.node "\x00xxx" 0) := by
  refine ⟨?_, by decide +kernel⟩
  rintro ⟨fuel, item, s, h, hwithin, -⟩
  have hs : LineScan.start.In bareNode := Nat.le_refl 4
  exact absurd ((scanNode_within_iff (h : bareNode.scanNode fuel = some (item, s)) hs).mp hwithin)
    (by decide)

end Line

end BareMetal
