import Mathlib.Data.List.Basic
import Mathlib.Data.Nat.Digits.Defs

/-!
# Numerals

The numeral of a number in a base is the list of its digits, the most significant first,
without leading zeros; the numeral of zero is a single zero (`IsNumeral`). There are two
ways to produce one. Division by the base yields the digits from the last to the first
(`isNumeral_of_lt`, `IsNumeral.snoc`). Looking at the places of the number yields them from
the first to the last, if one starts at the highest place that is not empty
(`isNumeral_places`).

Written with one character a digit, a numeral reads back as its number
(`IsNumeral.readNumeral_map`), also from inside a text where it follows a mark
(`IsNumeral.scanNumerals`).
-/

namespace Framework

/-- `ds` is the numeral of `n` in base `b`. -/
structure IsNumeral (b : ℕ) (ds : List ℕ) (n : ℕ) : Prop where
  ne_nil : ds ≠ []
  lt_base : ∀ d ∈ ds, d < b
  /-- Only zero itself starts with a zero. -/
  leading : ds.head? = some 0 → ds = [0]
  value_eq : Nat.ofDigits b ds.reverse = n

variable {b n : ℕ} {ds : List ℕ}

/-! ### Uniqueness -/

/-- Without a leading zero the digits are those of `Nat.digits`. -/
theorem IsNumeral.digits_eq (h : IsNumeral b ds n) (hb : 1 < b) (hhead : ds.head? ≠ some 0) :
    Nat.digits b n = ds.reverse := by
  rw [← h.value_eq]
  refine Nat.digits_ofDigits b hb _ (fun d hd => h.lt_base d (List.mem_reverse.mp hd)) ?_
  intro hne hlast
  refine hhead ?_
  rw [← hlast, ← List.getLast?_reverse]
  exact List.getLast?_eq_getLast_of_ne_nil hne

/-- **A number has one numeral.** -/
theorem IsNumeral.unique {ds' : List ℕ} (h : IsNumeral b ds n) (h' : IsNumeral b ds' n)
    (hb : 1 < b) : ds = ds' := by
  -- the numeral of zero is the only one with a leading zero
  have hzero {es : List ℕ} (he : IsNumeral b es n) (hhead : es.head? = some 0) : n = 0 := by
    rw [← he.value_eq, he.leading hhead]
    exact Nat.ofDigits_singleton
  have hnonzero {es : List ℕ} (he : IsNumeral b es n) (hhead : es.head? ≠ some 0) : n ≠ 0 := by
    rintro rfl
    have hdigits := he.digits_eq hb hhead
    rw [Nat.digits_zero] at hdigits
    exact he.ne_nil (List.reverse_eq_nil_iff.mp hdigits.symm)
  by_cases hhead : ds.head? = some 0
  · by_cases hhead' : ds'.head? = some 0
    · rw [h.leading hhead, h'.leading hhead']
    · exact absurd (hzero h hhead) (hnonzero h' hhead')
  · by_cases hhead' : ds'.head? = some 0
    · exact absurd (hzero h' hhead') (hnonzero h hhead)
    · exact List.reverse_injective
        ((h.digits_eq hb hhead).symm.trans (h'.digits_eq hb hhead'))

/-! ### From the last digit to the first -/

/-- A number below the base is its own digit. -/
theorem isNumeral_of_lt (h : n < b) : IsNumeral b [n] n where
  ne_nil := List.cons_ne_nil n []
  lt_base _ hd := List.mem_singleton.mp hd ▸ h
  leading hzero := congrArg (· :: []) (Option.some.inj hzero)
  value_eq := Nat.ofDigits_singleton

/-- The quotient by the base, and then the remainder. -/
theorem IsNumeral.snoc (h : IsNumeral b ds (n / b)) (hb : 0 < b) (hn : b ≤ n) :
    IsNumeral b (ds ++ [n % b]) n where
  ne_nil := List.append_ne_nil_of_right_ne_nil ds (List.cons_ne_nil _ [])
  lt_base d hd := by
    rcases List.mem_append.mp hd with hmem | hlast
    · exact h.lt_base d hmem
    · rw [List.mem_singleton.mp hlast]
      exact Nat.mod_lt n hb
  leading hzero := by
    -- a quotient that starts with a zero is zero
    rw [List.head?_append_of_ne_nil _ h.ne_nil] at hzero
    have hvalue := h.value_eq
    rw [h.leading hzero, List.reverse_singleton, Nat.ofDigits_singleton] at hvalue
    exact absurd hvalue.symm (Nat.div_pos hn hb).ne'
  value_eq := by
    rw [List.reverse_append, List.reverse_singleton, List.singleton_append, Nat.ofDigits_cons,
      h.value_eq]
    exact Nat.mod_add_div n b

/-! ### From the first digit to the last -/

/-- The digits of `n` at the lowest `k` places, the highest place first. -/
def places (b n : ℕ) : (k : ℕ) → List ℕ
  | 0 => []
  | k + 1 => n / b ^ k % b :: places b n k

theorem length_places (k : ℕ) : (places b n k).length = k := by
  induction k with
  | zero => rfl
  | succ k ih => exact congrArg (· + 1) ih

theorem places_lt (hb : 0 < b) {k d : ℕ} (hd : d ∈ places b n k) : d < b := by
  induction k with
  | zero => exact absurd hd List.not_mem_nil
  | succ k ih =>
    rcases List.mem_cons.mp hd with rfl | hmem
    · exact Nat.mod_lt _ hb
    · exact ih hmem

/-- The lowest `k` places are worth the remainder by `b ^ k`. -/
theorem ofDigits_places (k : ℕ) : Nat.ofDigits b (places b n k).reverse = n % b ^ k := by
  induction k with
  | zero => rw [pow_zero, Nat.mod_one]; rfl
  | succ k ih =>
    calc Nat.ofDigits b (places b n (k + 1)).reverse
        = Nat.ofDigits b ((places b n k).reverse ++ [n / b ^ k % b]) := by
          rw [places, List.reverse_cons]
      _ = n % b ^ k + b ^ k * (n / b ^ k % b) := by
          rw [Nat.ofDigits_append, ih, List.length_reverse, length_places, Nat.ofDigits_singleton]
      _ = n % b ^ (k + 1) := by rw [pow_succ, Nat.mod_mul]

/-- **From the highest place down.** -/
theorem isNumeral_places {k : ℕ} (hlow : b ^ k ≤ n) (hhigh : n < b ^ (k + 1)) (hb : 0 < b) :
    IsNumeral b (places b n (k + 1)) n where
  ne_nil := List.cons_ne_nil _ _
  lt_base _ hd := places_lt hb hd
  leading hzero := by
    -- the digit at the highest place is the quotient by `b ^ k`, which is not zero
    have hdigit : n / b ^ k % b = 0 := Option.some.inj hzero
    have hlt : n / b ^ k < b := Nat.div_lt_of_lt_mul (lt_of_lt_of_eq hhigh (pow_succ b k))
    rw [Nat.mod_eq_of_lt hlt] at hdigit
    exact absurd hdigit (Nat.div_pos hlow (Nat.pow_pos hb)).ne'
  value_eq := (ofDigits_places (k + 1)).trans (Nat.mod_eq_of_lt hhigh)

/-! ### Reading back -/

section Read

variable {γ : Type}

/-- The number that a text of digits stands for, if `value?` knows all its characters. -/
def readNumeral (b : ℕ) (value? : γ → Option ℕ) (text : List γ) : Option ℕ :=
  text.foldlM (fun n c => (value? c).map (b * n + ·)) 0

/-- **Reading back.** -/
theorem IsNumeral.readNumeral_map (h : IsNumeral b ds n) {digit : ℕ → γ} {value? : γ → Option ℕ}
    (hdigit : ∀ d < b, value? (digit d) = some d) :
    readNumeral b value? (ds.map digit) = some n := by
  -- the accumulator stands for the digits read so far, above those to come
  have hfold (acc : ℕ) (l : List ℕ) (hl : ∀ d ∈ l, d < b) :
      (l.map digit).foldlM (fun n c => (value? c).map (b * n + ·)) acc
        = some (Nat.ofDigits b (l.reverse ++ [acc])) := by
    induction l generalizing acc with
    | nil => exact congrArg some Nat.ofDigits_singleton.symm
    | cons d l ih =>
      rw [List.map_cons, List.foldlM_cons, hdigit d (hl d List.mem_cons_self)]
      have hpair : Nat.ofDigits b [d, acc] = b * acc + d := by
        rw [Nat.ofDigits_cons, Nat.ofDigits_singleton, Nat.add_comm]
      calc (l.map digit).foldlM (fun n c => (value? c).map (b * n + ·)) (b * acc + d)
          = some (Nat.ofDigits b (l.reverse ++ [b * acc + d])) :=
            ih (b * acc + d) fun e he => hl e (List.mem_cons_of_mem d he)
        _ = some (Nat.ofDigits b (l.reverse ++ ([d] ++ [acc]))) := by
            rw [Nat.ofDigits_append, Nat.ofDigits_append, Nat.ofDigits_singleton, ← hpair]
            rfl
        _ = some (Nat.ofDigits b ((d :: l).reverse ++ [acc])) := by
            rw [List.reverse_cons, List.append_assoc]
  have hvalue := h.value_eq
  rw [← Nat.ofDigits_append_zero] at hvalue
  exact (hfold 0 ds h.lt_base).trans (congrArg some hvalue)

/-! ### Finding numerals in a text -/

variable [DecidableEq γ]

/-- The numbers in a text. Each stands after the mark `m :: ms`, and goes as far as there are
digits. -/
def scanNumerals (b : ℕ) (value? : γ → Option ℕ) (m : γ) (ms : List γ) : List γ → List ℕ
  | [] => []
  | c :: text =>
    if c = m ∧ ms <+: text then
      let digits := (text.drop ms.length).takeWhile fun c => (value? c).isSome
      (readNumeral b value? digits).toList ++
        scanNumerals b value? m ms ((text.drop ms.length).dropWhile fun c => (value? c).isSome)
    else scanNumerals b value? m ms text
termination_by text => text.length
decreasing_by
  · have hdrop := (List.dropWhile_suffix (l := text.drop ms.length)
      fun c => (value? c).isSome).length_le
    rw [List.length_drop] at hdrop
    rw [List.length_cons]
    omega
  · exact Nat.lt_succ_self _

variable {value? : γ → Option ℕ} {m : γ} {ms : List γ}

/-- No number starts in a text without the first character of the mark. -/
theorem scanNumerals_label {label : List γ} (h : m ∉ label) (rest : List γ) :
    scanNumerals b value? m ms (label ++ rest) = scanNumerals b value? m ms rest := by
  induction label with
  | nil => rfl
  | cons c label ih =>
    have hne : c ≠ m := fun heq => h (heq ▸ List.mem_cons_self)
    rw [List.cons_append, scanNumerals, if_neg fun hmark => hne hmark.1]
    exact ih fun hmem => h (List.mem_cons_of_mem c hmem)

/-- **A numeral is found**, if it does not go on. -/
theorem IsNumeral.scanNumerals (h : IsNumeral b ds n) {digit : ℕ → γ}
    (hdigit : ∀ d < b, value? (digit d) = some d) {rest : List γ}
    (hrest : ∀ c ∈ rest.head?, value? c = none) :
    Framework.scanNumerals b value? m ms (m :: (ms ++ ds.map digit) ++ rest)
      = n :: Framework.scanNumerals b value? m ms rest := by
  have hdigits : ∀ c ∈ ds.map digit, (value? c).isSome = true := by
    intro c hc
    obtain ⟨d, hd, rfl⟩ := List.mem_map.mp hc
    rw [hdigit d (h.lt_base d hd)]
    rfl
  -- the digits end where the rest begins
  have hstop : rest.takeWhile (fun c => (value? c).isSome) = [] ∧
      rest.dropWhile (fun c => (value? c).isSome) = rest := by
    cases rest with
    | nil => exact ⟨rfl, rfl⟩
    | cons c rest =>
      have hnone : ¬ (value? c).isSome = true := by rw [hrest c rfl]; exact Bool.false_ne_true
      exact ⟨List.takeWhile_cons_of_neg hnone, List.dropWhile_cons_of_neg hnone⟩
  rw [List.cons_append, List.append_assoc, Framework.scanNumerals,
    if_pos ⟨rfl, List.prefix_append _ _⟩]
  dsimp only
  rw [List.drop_left, List.takeWhile_append_of_pos hdigits, List.dropWhile_append_of_pos hdigits,
    hstop.1, hstop.2, List.append_nil, h.readNumeral_map hdigit]
  rfl

end Read

end Framework
