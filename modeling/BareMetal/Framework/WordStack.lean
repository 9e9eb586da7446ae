import Mathlib.Algebra.Ring.Nat
import Mathlib.Data.List.Induction
import Mathlib.Data.Set.Basic

/-!
# A descending stack of words

A machine with 32-bit addresses keeps its stack in byte memory, from high addresses to low
ones. Pushing a word moves the pointer down by four and stores there, little-endian.
Addresses wrap around, so a range of bytes is given by the distance from its first
address: `region a n` are the addresses less than `n` above `a`.

`WordsAt m a ws` says that the words `ws` lie in memory one after the other from `a` on.
What is pushed lies at the new pointer, last word first (`wordsAt_pushAll`), and nothing
but the bytes between the new pointer and the old one changes (`mem_pushAll`). A list of
words stays where it is as long as its bytes do (`WordsAt.congr`).
-/

namespace Framework

/-- The bytes of a machine with 32-bit addresses. -/
abbrev Memory32 := BitVec 32 → BitVec 8

/-- The `n` bytes from `a` on. -/
def region (a : BitVec 32) (n : ℕ) : Set (BitVec 32) := {x | (x - a).toNat < n}

/-- The little-endian word at `a`. -/
def load32 (m : Memory32) (a : BitVec 32) : BitVec 32 := m (a + 3) ++ m (a + 2) ++ m (a + 1) ++ m a

/-- The memory after the word `v` is stored at `a`. -/
def store32 (m : Memory32) (a v : BitVec 32) : Memory32 :=
  fun x => if (x - a).toNat < 4 then v.extractLsb' (8 * (x - a).toNat) 8 else m x

variable {m m' : Memory32} {a v : BitVec 32} {n : ℕ}

theorem mem_region {x : BitVec 32} : x ∈ region a n ↔ (x - a).toNat < n := Iff.rfl

instance (x : BitVec 32) : Decidable (x ∈ region a n) := inferInstanceAs (Decidable (_ < n))

/-- An address of a region is its first address and a distance. -/
theorem toNat_add_sub_self {k : ℕ} (a : BitVec 32) (hk : k < 2 ^ 32) :
    (a + BitVec.ofNat 32 k - a).toNat = k := by
  rw [BitVec.add_comm, BitVec.add_sub_cancel, BitVec.toNat_ofNat, Nat.mod_eq_of_lt hk]

theorem region_mono {k : ℕ} (hk : k ≤ n) : region a k ⊆ region a n :=
  fun _ hx => Nat.lt_of_lt_of_le hx hk

/-- A part of a region. -/
theorem region_add_subset {k l : ℕ} (h : k + l ≤ n) (hn : n ≤ 2 ^ 32) :
    region (a + BitVec.ofNat 32 k) l ⊆ region a n := by
  intro x hx
  rw [mem_region] at hx ⊢
  bv_omega

/-- The bytes right below an address. -/
theorem region_sub_subset {k : ℕ} (hk : k ≤ n) :
    region (a - BitVec.ofNat 32 k) k ⊆ region (a - BitVec.ofNat 32 n) n := by
  intro x hx
  rw [mem_region] at hx ⊢
  bv_omega

/-! ### Words -/

theorem store32_of_notMem {x : BitVec 32} (hx : x ∉ region a 4) : store32 m a v x = m x :=
  if_neg hx

theorem store32_add {k : ℕ} (hk : k < 4) :
    store32 m a v (a + BitVec.ofNat 32 k) = v.extractLsb' (8 * k) 8 := by
  unfold store32
  rw [toNat_add_sub_self a (by omega), if_pos hk]

/-- A word is loaded from the bytes at four distances. -/
theorem load32_eq (m : Memory32) (a : BitVec 32) :
    load32 m a = m (a + BitVec.ofNat 32 3) ++ m (a + BitVec.ofNat 32 2) ++
      m (a + BitVec.ofNat 32 1) ++ m (a + BitVec.ofNat 32 0) := by
  rw [show a + BitVec.ofNat 32 0 = a from BitVec.add_zero a]
  rfl

theorem load32_congr (h : ∀ x ∈ region a 4, m' x = m x) : load32 m' a = load32 m a := by
  have hbyte : ∀ k < 4, m' (a + BitVec.ofNat 32 k) = m (a + BitVec.ofNat 32 k) := by
    intro k hk
    refine h _ ?_
    rw [mem_region, toNat_add_sub_self a (by omega)]
    exact hk
  rw [load32_eq, load32_eq, hbyte 0 (by decide), hbyte 1 (by decide), hbyte 2 (by decide),
    hbyte 3 (by decide)]

/-- A word is its four bytes. -/
theorem append_bytes (v : BitVec 32) :
    v.extractLsb' 24 8 ++ v.extractLsb' 16 8 ++ v.extractLsb' 8 8 ++ v.extractLsb' 0 8 = v := by
  apply BitVec.eq_of_getLsbD_eq
  intro i hi
  simp only [BitVec.getLsbD_append, BitVec.getLsbD_extractLsb']
  by_cases h₁ : i < 8
  · simp [h₁]
  · by_cases h₂ : i - 8 < 8
    · simp [h₁, h₂, show 8 + (i - 8) = i by omega]
    · by_cases h₃ : i - 8 - 8 < 8
      · simp [h₁, h₂, h₃, show 16 + (i - 8 - 8) = i by omega]
      · simp [h₁, h₂, h₃, show i - 8 - 8 - 8 < 8 by omega,
          show 24 + (i - 8 - 8 - 8) = i by omega]

/-- What is stored is loaded. -/
theorem load32_store32 (m : Memory32) (a v : BitVec 32) : load32 (store32 m a v) a = v := by
  rw [load32_eq, store32_add (by decide), store32_add (by decide), store32_add (by decide),
    store32_add (by decide)]
  exact append_bytes v

/-- The words `ws` lie from `a` on. -/
def WordsAt (m : Memory32) : BitVec 32 → List (BitVec 32) → Prop
  | _, [] => True
  | a, w :: ws => load32 m a = w ∧ WordsAt m (a + 4) ws

/-- Words stay where they are as long as their bytes do. -/
theorem WordsAt.congr {ws : List (BitVec 32)} (h : WordsAt m a ws) (hlen : 4 * ws.length ≤ 2 ^ 32)
    (hmem : ∀ x ∈ region a (4 * ws.length), m' x = m x) : WordsAt m' a ws := by
  induction ws generalizing a with
  | nil => trivial
  | cons w ws ih =>
    rw [List.length_cons] at hlen hmem
    refine ⟨(load32_congr fun x hx => hmem x (region_mono (by omega) hx)).trans h.1, ?_⟩
    refine ih h.2 (by omega) fun x hx => hmem x ?_
    exact region_add_subset (k := 4) (by omega) hlen hx

/-- A word of the list, at its place. -/
theorem WordsAt.load {ws : List (BitVec 32)} (h : WordsAt m a ws) {i : ℕ} (hi : i < ws.length) :
    load32 m (a + BitVec.ofNat 32 (4 * i)) = ws[i] := by
  induction ws generalizing a i with
  | nil => exact absurd hi (Nat.not_lt_zero i)
  | cons w ws ih =>
    cases i with
    | zero => rw [show a + BitVec.ofNat 32 (4 * 0) = a from BitVec.add_zero a]; exact h.1
    | succ i =>
      have hi' : i < ws.length := Nat.lt_of_succ_lt_succ hi
      rw [show a + BitVec.ofNat 32 (4 * (i + 1)) = a + 4 + BitVec.ofNat 32 (4 * i) by bv_omega]
      exact ih h.2 hi'

/-! ### The stack -/

/-- A memory with a stack pointer. -/
structure WordStack where
  mem : Memory32
  sp : BitVec 32

namespace WordStack

/-- The pointer moves down, then the word is stored. -/
def push (s : WordStack) (v : BitVec 32) : WordStack where
  mem := store32 s.mem (s.sp - 4) v
  sp := s.sp - 4

/-- Words are pushed one after the other. -/
def pushAll (s : WordStack) (vs : List (BitVec 32)) : WordStack := vs.foldl push s

variable {s : WordStack}

theorem pushAll_append (vs ws : List (BitVec 32)) :
    (s.pushAll vs).pushAll ws = s.pushAll (vs ++ ws) :=
  List.foldl_append.symm

theorem pushAll_snoc (vs : List (BitVec 32)) (v : BitVec 32) :
    s.pushAll (vs ++ [v]) = (s.pushAll vs).push v := by
  rw [← pushAll_append]
  rfl

theorem sp_pushAll (vs : List (BitVec 32)) :
    (s.pushAll vs).sp = s.sp - BitVec.ofNat 32 (4 * vs.length) := by
  induction vs using List.reverseRecOn with
  | nil => exact (BitVec.sub_zero s.sp).symm
  | append_singleton vs v ih =>
    rw [pushAll_snoc, List.length_append, List.length_singleton]
    change (s.pushAll vs).sp - 4 = _
    rw [ih]
    bv_omega

/-- **Only the bytes pushed change.** -/
theorem mem_pushAll (vs : List (BitVec 32)) (hlen : 4 * vs.length ≤ 2 ^ 32) {x : BitVec 32}
    (hx : x ∉ region (s.pushAll vs).sp (4 * vs.length)) : (s.pushAll vs).mem x = s.mem x := by
  induction vs using List.reverseRecOn with
  | nil => rfl
  | append_singleton vs v ih =>
    rw [sp_pushAll, mem_region] at hx
    rw [List.length_append, List.length_singleton] at hlen hx
    rw [pushAll_snoc]
    change store32 _ _ _ x = _
    rw [store32_of_notMem, ih (by omega)]
    · rw [sp_pushAll, mem_region]
      bv_omega
    · rw [sp_pushAll, mem_region]
      bv_omega

/-- **What is pushed lies at the new pointer**, last word first. -/
theorem wordsAt_pushAll (s : WordStack) (vs : List (BitVec 32)) (hlen : 4 * vs.length ≤ 2 ^ 32) :
    WordsAt (s.pushAll vs).mem (s.pushAll vs).sp vs.reverse := by
  induction vs using List.reverseRecOn with
  | nil => trivial
  | append_singleton vs v ih =>
    rw [List.length_append, List.length_singleton] at hlen
    rw [List.reverse_append, pushAll_snoc]
    refine ⟨load32_store32 _ _ _, ?_⟩
    change WordsAt _ ((s.pushAll vs).sp - 4 + 4) _
    rw [BitVec.sub_add_cancel]
    refine (ih (by omega)).congr (by rw [List.length_reverse]; omega) ?_
    intro x hx
    -- the word just pushed is below the others
    apply store32_of_notMem
    intro hx'
    rw [List.length_reverse, mem_region] at hx
    rw [mem_region] at hx'
    bv_omega

end WordStack
end Framework
