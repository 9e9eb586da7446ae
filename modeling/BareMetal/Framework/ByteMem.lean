import Mathlib.Data.Nat.Basic
import Mathlib.Logic.Basic

/-!
# Byte memory, little-endian words and runs of ones

A memory is a function from addresses to bytes. `load m k a` is the `k`-byte
little-endian word at address `a`, and `store m k a v` writes one.

The bits of a memory are numbered across byte borders: bit `x` is bit `x % 8` of
byte `x / 8` (`bitAt`). A little-endian word then shows the bits of the memory in
order, whatever its width (`getLsbD_load`), which is what lets scanners of
different widths be compared.

`overlay m lo hi f` is the memory with the bytes of `f` at the addresses of
`[lo, hi)`; `fillRange` is the case of a constant byte. Overlays of adjacent ranges
compose (`overlay_append`), and storing a word is an overlay by its bytes
(`store_eq_overlay`), so a bulk fill built from stores of several widths is one
overlay.

`BitsWritten m m' lo hi b` says that `m'` is `m` with the bits `[lo, hi)` equal to
`b`; masked byte updates and fills establish it, and adjacent ranges compose.

`RunMap v n x` says that bit `i` of `x` is set exactly when `v` has `n` ones from
bit `i` on. Shifting and masking adds lengths (`RunMap.shift_and`).
-/

namespace Framework

/-- A memory: the byte at every address. -/
abbrev ByteMem := ℕ → BitVec 8

/-- Bit `x` of the memory, counted across bytes. -/
def bitAt (m : ByteMem) (x : ℕ) : Bool := (m (x / 8)).getLsbD (x % 8)

/-- The `k`-byte little-endian word at address `a`. -/
def load (m : ByteMem) : (k : ℕ) → ℕ → BitVec (8 * k)
  | 0, _ => 0#0
  | k + 1, a => load m k (a + 1) ++ m a

/-- The memory after the `k`-byte little-endian word `v` is stored at `a`. -/
def store (m : ByteMem) (k a : ℕ) (v : BitVec (8 * k)) : ByteMem :=
  fun x => if a ≤ x ∧ x < a + k then v.extractLsb' (8 * (x - a)) 8 else m x

/-- The memory after the byte `v` is written at `a`. -/
def setByte (m : ByteMem) (a : ℕ) (v : BitVec 8) : ByteMem :=
  fun x => if x = a then v else m x

/-- The memory with the bytes of `f` at the addresses of `[lo, hi)`. -/
def overlay (m : ByteMem) (lo hi : ℕ) (f : ℕ → BitVec 8) : ByteMem :=
  fun x => if lo ≤ x ∧ x < hi then f x else m x

/-- The memory with the byte `v` at every address of `[lo, hi)`. -/
def fillRange (m : ByteMem) (lo hi : ℕ) (v : BitVec 8) : ByteMem := overlay m lo hi fun _ => v

/-! ### Bits of words -/

theorem bitAt_byte (m : ByteMem) (a : ℕ) {i : ℕ} (hi : i < 8) :
    bitAt m (8 * a + i) = (m a).getLsbD i := by
  unfold bitAt
  rw [show (8 * a + i) / 8 = a by omega, show (8 * a + i) % 8 = i by omega]

/-- **A little-endian word shows the memory's bits in order.** -/
theorem getLsbD_load (m : ByteMem) (k a i : ℕ) :
    (load m k a).getLsbD i = (decide (i < 8 * k) && bitAt m (8 * a + i)) := by
  induction k generalizing a i with
  | zero =>
    change (0#0).getLsbD i = _
    simp
  | succ k ih =>
    change (load m k (a + 1) ++ m a).getLsbD i = _
    rw [BitVec.getLsbD_append, ih]
    by_cases hi : i < 8
    · rw [if_pos hi, bitAt_byte m a hi]
      simp [show i < 8 * (k + 1) by omega]
    · -- from bit 8 on it is the word at the next address
      rw [if_neg hi, show 8 * (a + 1) + (i - 8) = 8 * a + i by omega]
      congr 1
      exact decide_eq_decide.mpr (by omega)

theorem getLsbD_load_of_lt (m : ByteMem) (a : ℕ) {k i : ℕ} (hi : i < 8 * k) :
    (load m k a).getLsbD i = bitAt m (8 * a + i) := by
  rw [getLsbD_load, decide_eq_true hi, Bool.true_and]

/-- A memory is determined by its bits. -/
theorem eq_of_bitAt_eq {m m' : ByteMem} (h : ∀ x, bitAt m x = bitAt m' x) : m = m' := by
  funext a
  apply BitVec.eq_of_getLsbD_eq
  intro i hi
  rw [← bitAt_byte m a hi, ← bitAt_byte m' a hi]
  exact h _

/-- A word is all ones exactly when every bit is set. -/
theorem eq_allOnes_iff_getLsbD {w : ℕ} {v : BitVec w} :
    v = BitVec.allOnes w ↔ ∀ i < w, v.getLsbD i = true := by
  constructor
  · rintro rfl i hi
    simp [hi]
  · intro h
    apply BitVec.eq_of_getLsbD_eq
    intro i hi
    rw [h i hi]
    simp [hi]

/-! ### Overlays and fills -/

theorem overlay_inside {m : ByteMem} {lo hi x : ℕ} {f : ℕ → BitVec 8} (h₁ : lo ≤ x) (h₂ : x < hi) :
    overlay m lo hi f x = f x := if_pos ⟨h₁, h₂⟩

theorem overlay_outside {m : ByteMem} {lo hi x : ℕ} {f : ℕ → BitVec 8} (h : x < lo ∨ hi ≤ x) :
    overlay m lo hi f x = m x := if_neg (by omega)

@[simp] theorem overlay_self (m : ByteMem) (a : ℕ) (f : ℕ → BitVec 8) : overlay m a a f = m := by
  funext x
  exact overlay_outside (by omega)

theorem overlay_congr {m : ByteMem} {lo hi : ℕ} {f g : ℕ → BitVec 8}
    (h : ∀ x, lo ≤ x → x < hi → f x = g x) : overlay m lo hi f = overlay m lo hi g := by
  funext x
  unfold overlay
  by_cases hx : lo ≤ x ∧ x < hi
  · rw [if_pos hx, if_pos hx, h x hx.1 hx.2]
  · rw [if_neg hx, if_neg hx]

/-- Overlays of adjacent ranges compose. -/
theorem overlay_append (m : ByteMem) {a b c : ℕ} (hab : a ≤ b) (hbc : b ≤ c)
    (f : ℕ → BitVec 8) : overlay (overlay m a b f) b c f = overlay m a c f := by
  funext x
  by_cases h₁ : b ≤ x ∧ x < c
  · rw [overlay_inside h₁.1 h₁.2, overlay_inside (by omega) h₁.2]
  · rw [overlay_outside (by omega)]
    by_cases h₂ : a ≤ x ∧ x < b
    · rw [overlay_inside h₂.1 h₂.2, overlay_inside h₂.1 (by omega)]
    · rw [overlay_outside (by omega), overlay_outside (by omega)]

/-- Storing a word is an overlay by its bytes. -/
theorem store_eq_overlay (m : ByteMem) (k a : ℕ) {v : BitVec (8 * k)} {f : ℕ → BitVec 8}
    (hv : ∀ j < k, v.extractLsb' (8 * j) 8 = f (a + j)) :
    store m k a v = overlay m a (a + k) f := by
  funext x
  unfold store overlay
  by_cases hx : a ≤ x ∧ x < a + k
  · rw [if_pos hx, if_pos hx, hv (x - a) (by omega), Nat.add_sub_cancel' hx.1]
  · rw [if_neg hx, if_neg hx]

/-- A byte of a loaded word. -/
theorem extractLsb'_load (m : ByteMem) (k a : ℕ) {j : ℕ} (hj : j < k) :
    (load m k a).extractLsb' (8 * j) 8 = m (a + j) := by
  apply BitVec.eq_of_getLsbD_eq
  intro i hi
  rw [BitVec.getLsbD_extractLsb', decide_eq_true hi, Bool.true_and,
    getLsbD_load_of_lt m a (by omega), ← Nat.add_assoc, ← Nat.mul_add]
  exact bitAt_byte m _ hi

/-- What is stored is loaded. -/
theorem load_store (m : ByteMem) (k a : ℕ) (v : BitVec (8 * k)) :
    load (store m k a v) k a = v := by
  apply BitVec.eq_of_getLsbD_eq
  intro i hi
  rw [getLsbD_load_of_lt _ _ hi]
  unfold bitAt store
  rw [if_pos (by omega), BitVec.getLsbD_extractLsb', decide_eq_true (Nat.mod_lt _ (by decide)),
    Bool.true_and, show 8 * ((8 * a + i) / 8 - a) + (8 * a + i) % 8 = i by omega]

/-- A word is its bytes. -/
theorem load_congr {m m' : ByteMem} {k a : ℕ} (h : ∀ x, a ≤ x → x < a + k → m' x = m x) :
    load m' k a = load m k a := by
  induction k generalizing a with
  | zero => rfl
  | succ k ih =>
    unfold load
    rw [h a (le_refl a) (by omega), ih fun x hx hx' => h x (by omega) (by omega)]

/-- A bit of a filled memory. -/
theorem bitAt_fillRange (m : ByteMem) (lo hi : ℕ) (v : BitVec 8) (x : ℕ) :
    bitAt (fillRange m lo hi v) x =
      if 8 * lo ≤ x ∧ x < 8 * hi then v.getLsbD (x % 8) else bitAt m x := by
  unfold bitAt fillRange overlay
  by_cases hx : 8 * lo ≤ x ∧ x < 8 * hi
  · rw [if_pos (by omega), if_pos hx]
  · rw [if_neg (by omega), if_neg hx]

/-- A bit of a memory after the byte at `a` was written. -/
theorem bitAt_setByte (m : ByteMem) (a : ℕ) (v : BitVec 8) (x : ℕ) :
    bitAt (setByte m a v) x =
      if 8 * a ≤ x ∧ x < 8 * a + 8 then v.getLsbD (x - 8 * a) else bitAt m x := by
  unfold bitAt setByte
  by_cases hx : 8 * a ≤ x ∧ x < 8 * a + 8
  · rw [if_pos (by omega), if_pos hx, show x % 8 = x - 8 * a by omega]
  · rw [if_neg (by omega), if_neg hx]

/-! ### Writing a range of bits -/

/-- `m'` is `m` with every bit of `[lo, hi)` equal to `b`. -/
def BitsWritten (m m' : ByteMem) (lo hi : ℕ) (b : Bool) : Prop :=
  ∀ x, bitAt m' x = if lo ≤ x ∧ x < hi then b else bitAt m x

section BitsWritten

variable {m m₁ m₂ : ByteMem} {lo mid hi : ℕ} {b : Bool}

theorem BitsWritten.inside {x : ℕ} (h : BitsWritten m m₁ lo hi b) (h₁ : lo ≤ x) (h₂ : x < hi) :
    bitAt m₁ x = b := by
  rw [h x, if_pos ⟨h₁, h₂⟩]

theorem BitsWritten.outside {x : ℕ} (h : BitsWritten m m₁ lo hi b) (hx : x < lo ∨ hi ≤ x) :
    bitAt m₁ x = bitAt m x := by
  rw [h x, if_neg (by omega)]

/-- The bits written determine the memory. -/
theorem BitsWritten.unique (h₁ : BitsWritten m m₁ lo hi b) (h₂ : BitsWritten m m₂ lo hi b) :
    m₁ = m₂ :=
  eq_of_bitAt_eq fun x => (h₁ x).trans (h₂ x).symm

/-- Writing back what was there before restores the memory. -/
theorem BitsWritten.restore {b' : Bool} (h₁ : BitsWritten m m₁ lo hi b')
    (h₂ : BitsWritten m₁ m₂ lo hi b) (hold : ∀ x, lo ≤ x → x < hi → bitAt m x = b) : m₂ = m := by
  apply eq_of_bitAt_eq
  intro x
  rw [h₂ x, h₁ x]
  split
  · next hx => exact (hold x hx.1 hx.2).symm
  · rfl

/-- Writing adjacent ranges is writing their union. -/
theorem BitsWritten.append (h₁ : BitsWritten m m₁ lo mid b) (h₂ : BitsWritten m₁ m₂ mid hi b)
    (hlo : lo ≤ mid) (hhi : mid ≤ hi) : BitsWritten m m₂ lo hi b := by
  intro x
  by_cases hx : mid ≤ x ∧ x < hi
  · rw [h₂.inside hx.1 hx.2, if_pos (by omega)]
  · rw [h₂.outside (by omega), h₁ x]
    by_cases hx' : lo ≤ x ∧ x < mid
    · rw [if_pos hx', if_pos (by omega)]
    · rw [if_neg hx', if_neg (by omega)]

theorem bitsWritten_fillRange {v : BitVec 8} (m : ByteMem) (lo hi : ℕ)
    (hv : ∀ i < 8, v.getLsbD i = b) : BitsWritten m (fillRange m lo hi v) (8 * lo) (8 * hi) b := by
  intro x
  rw [bitAt_fillRange, hv _ (Nat.mod_lt x (by decide))]

variable {i j : ℕ} (m) (a : ℕ) (mask : BitVec 8)

/-- Or-ing a byte with a mask of the bits `[i, j)` sets them. -/
theorem bitsWritten_or (hj : j ≤ 8)
    (hmask : ∀ t < 8, mask.getLsbD t = decide (i ≤ t ∧ t < j)) :
    BitsWritten m (setByte m a (m a ||| mask)) (8 * a + i) (8 * a + j) true := by
  intro x
  rw [bitAt_setByte]
  by_cases hx : 8 * a ≤ x ∧ x < 8 * a + 8
  · have hbyte := bitAt_byte m a (i := x - 8 * a) (by omega)
    rw [Nat.add_sub_cancel' hx.1] at hbyte
    rw [if_pos hx, BitVec.getLsbD_or, hmask _ (by omega), hbyte]
    by_cases hin : 8 * a + i ≤ x ∧ x < 8 * a + j
    · rw [if_pos hin, decide_eq_true (by omega), Bool.or_true]
    · rw [if_neg hin, decide_eq_false (by omega), Bool.or_false]
  · rw [if_neg hx, if_neg (by omega)]

/-- And-ing a byte with the complement of a mask of the bits `[i, j)` clears them. -/
theorem bitsWritten_and (hj : j ≤ 8)
    (hmask : ∀ t < 8, mask.getLsbD t = !decide (i ≤ t ∧ t < j)) :
    BitsWritten m (setByte m a (m a &&& mask)) (8 * a + i) (8 * a + j) false := by
  intro x
  rw [bitAt_setByte]
  by_cases hx : 8 * a ≤ x ∧ x < 8 * a + 8
  · have hbyte := bitAt_byte m a (i := x - 8 * a) (by omega)
    rw [Nat.add_sub_cancel' hx.1] at hbyte
    rw [if_pos hx, BitVec.getLsbD_and, hmask _ (by omega), hbyte]
    by_cases hin : 8 * a + i ≤ x ∧ x < 8 * a + j
    · rw [if_pos hin, decide_eq_true (by omega), Bool.not_true, Bool.and_false]
    · rw [if_neg hin, decide_eq_false (by omega), Bool.not_false, Bool.and_true]
  · rw [if_neg hx, if_neg (by omega)]

end BitsWritten

/-! ### Runs of ones in a word -/

/-- Bit `i` of `x` is set exactly when `v` has `n` ones from bit `i` on. -/
def RunMap {w : ℕ} (v : BitVec w) (n : ℕ) (x : BitVec w) : Prop :=
  ∀ i, x.getLsbD i = true ↔ ∀ j < n, v.getLsbD (i + j) = true

/-- A word is its own map of runs of length one. -/
theorem RunMap.self {w : ℕ} (v : BitVec w) : RunMap v 1 v := by
  intro i
  constructor
  · intro h j hj
    obtain rfl : j = 0 := by omega
    exact h
  · intro h
    exact h 0 (by omega)

/-- **Shift and mask adds lengths.** Two runs of length `n` that start `s ≤ n`
apart are one run of length `n + s`. -/
theorem RunMap.shift_and {w n s : ℕ} {v x : BitVec w} (h : RunMap v n x) (hs : s ≤ n) :
    RunMap v (n + s) (x &&& (x >>> s)) := by
  intro i
  rw [BitVec.getLsbD_and, BitVec.getLsbD_ushiftRight, Bool.and_eq_true, h i, h (s + i)]
  constructor
  · rintro ⟨h₁, h₂⟩ j hj
    by_cases hjn : j < n
    · -- the second run covers the positions past the first
      exact h₁ j hjn
    · have := h₂ (j - s) (by omega)
      rwa [show s + i + (j - s) = i + j by omega] at this
  · intro hall
    refine ⟨fun j hj => hall j (by omega), ?_⟩
    intro j hj
    have := hall (s + j) (by omega)
    rwa [show i + (s + j) = s + i + j by omega] at this

/-- A run of ones ends inside the word. -/
theorem RunMap.le_width {w n i : ℕ} {v x : BitVec w} (h : RunMap v n x) (hn : 0 < n)
    (hi : x.getLsbD i = true) : i + n ≤ w := by
  by_contra hlt
  -- its last one would be a bit past the end of the word
  have hlast := (h i).mp hi (n - 1) (by omega)
  rw [BitVec.getLsbD_of_ge _ _ (by omega)] at hlast
  exact absurd hlast (by simp)

end Framework
