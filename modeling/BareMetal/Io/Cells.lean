import BareMetal.Io.VgaTextBuffer

/-!
# Cells of video memory

A cell is two bytes, a character and its colour. The fills and copies work in
stores of 4, 16 or 32 bytes, and none of this is visible at the level of cells:

* a fill of a whole number of rows with `blankEntry32` blanks these rows
  (`fillEntries_cells`);
* a copy of a whole number of rows to a disjoint place moves their cells
  (`copyEntries_cells`);
* the 16-bit store of `put` changes one cell (`writeCell_cells`).

Each statement is for every tier, and says where the accesses lie.
-/

namespace BareMetal

open Framework

/-- A character with its colour code. -/
structure Cell where
  char : BitVec 8
  color : BitVec 8
  deriving DecidableEq

/-- The cell with the given index in video memory. -/
def cellAt (m : ByteMem) (i : ℕ) : Cell := ⟨m (vgaBase + 2 * i), m (vgaBase + 2 * i + 1)⟩

/-- A space in the default colour. -/
def Cell.blank : Cell := ⟨0x20, defaultColor⟩

/-- The bytes a stored `uint32_t` repeats. -/
def entryByte (entry : BitVec 32) (x : ℕ) : BitVec 8 := entry.extractLsb' (8 * (x % 4)) 8

/-- The cells of an overlay. -/
theorem cellAt_overlay (m : ByteMem) (p q : ℕ) (f : ℕ → BitVec 8) (i : ℕ) :
    cellAt (overlay m (vgaBase + 2 * p) (vgaBase + 2 * q) f) i =
      if p ≤ i ∧ i < q then ⟨f (vgaBase + 2 * i), f (vgaBase + 2 * i + 1)⟩ else cellAt m i := by
  unfold cellAt
  by_cases hi : p ≤ i ∧ i < q
  · rw [if_pos hi, overlay_inside (by omega) (by omega), overlay_inside (by omega) (by omega)]
  · rw [if_neg hi, overlay_outside (by omega), overlay_outside (by omega)]

/-! ### Fills -/

section Fills

variable {dst bytes : ℕ} (m : ByteMem) (entry : BitVec 32)

/-- Shifting a byte count out and multiplying back loses nothing on whole chunks. -/
theorem mul_shiftRight {k bytes : ℕ} (h : 2 ^ k ∣ bytes) : 2 ^ k * (bytes >>> k) = bytes := by
  rw [Nat.shiftRight_eq_div_pow, Nat.mul_div_cancel' h]

/-- A chunk store of the repeated entry, `k` bytes wide, fills the range. -/
theorem storeLoop_entry {k : ℕ} {put : ByteMem → ℕ → ByteMem}
    (hput : ChunkStore put (2 ^ k) (entryByte entry)) (hk : k ≤ 5) (hdst : 32 ∣ dst)
    (hbytes : 32 ∣ bytes) :
    let filled := storeLoop put (2 ^ k) (dst + 2 ^ k * (bytes >>> k)) bytes ⟨m, dst, []⟩
    filled.mem = overlay m dst (dst + bytes) (entryByte entry) ∧
      AccessesIn dst (dst + bytes) filled.stores := by
  have hdvd : 2 ^ k ∣ 32 := Nat.pow_dvd_pow 2 hk
  rw [mul_shiftRight (Nat.dvd_trans hdvd hbytes)]
  have hspec := storeLoop_spec (m := m) hput
    (Nat.dvd_add (Nat.dvd_trans hdvd hdst) (Nat.dvd_trans hdvd hbytes)) (Nat.le_refl (dst + bytes))
    bytes ⟨m, dst, []⟩ (by simp only; omega) (fun _ => Nat.dvd_trans hdvd hdst)
    (overlay_self m dst _).symm (Nat.le_refl dst) (AccessesIn.nil _ _)
  simp only [Nat.max_eq_right (Nat.le_add_right dst bytes)] at hspec
  exact hspec.2

theorem chunkStore_entryWord : ChunkStore (fun m a => store m 4 a entry) 4 (entryByte entry) := by
  refine ⟨by decide, fun m a ha => store_eq_overlay m 4 a ?_⟩
  intro j hj
  unfold entryByte
  rw [show (a + j) % 4 = j by omega]

theorem chunkStore_entryVector {k : ℕ} (hk : 2 ≤ k) :
    ChunkStore (fun m a => mmStore m a (set1Epi32 (2 ^ k) entry)) (2 ^ k) (entryByte entry) := by
  refine ⟨Nat.two_pow_pos k, fun m a ha => mmStore_eq_overlay m (2 ^ k) a ?_⟩
  intro i
  have h4 : 4 ∣ a := Nat.dvd_trans (Nat.pow_dvd_pow 2 hk) ha
  unfold set1Epi32 entryByte
  rw [show (a + i) % 4 = i % 4 by omega]

/-- **The three fills do the same.** Each writes the repeated entry to its range, in
aligned stores inside it. -/
theorem fillEntries_spec (tier : Tier) (dst bytes : ℕ) (hdst : 32 ∣ dst) (hbytes : 32 ∣ bytes) :
    (fillEntries tier m dst bytes entry).mem
        = overlay m dst (dst + bytes) (entryByte entry) ∧
      AccessesIn dst (dst + bytes) (fillEntries tier m dst bytes entry).stores := by
  have hword := chunkStore_entryWord entry
  -- the three differ in the width of a store alone
  have hvector : ∀ k, 2 ≤ k → _ := fun k => chunkStore_entryVector (k := k) entry
  cases tier with
  | gpr => exact storeLoop_entry (k := 2) m entry hword (by decide) hdst hbytes
  | simd => exact storeLoop_entry m entry (hvector 4 (by decide)) (by decide) hdst hbytes
  | avx2 => exact storeLoop_entry m entry (hvector 5 (by decide)) (by decide) hdst hbytes

/-- The repeated blank entry has a space at every even address and the default
colour at every odd one. -/
theorem entryByte_blank (i : ℕ) :
    entryByte blankEntry32 (vgaBase + 2 * i) = 0x20 ∧
      entryByte blankEntry32 (vgaBase + 2 * i + 1) = defaultColor := by
  have hbytes : ∀ r < 2, entryByte blankEntry32 (2 * r) = 0x20 ∧
      entryByte blankEntry32 (2 * r + 1) = defaultColor := by decide
  -- the entry repeats every four bytes
  have hmod : ∀ x, entryByte blankEntry32 x = entryByte blankEntry32 (x % 4) := fun x => by
    unfold entryByte
    rw [Nat.mod_mod]
  rw [hmod, hmod (_ + 1), show (vgaBase + 2 * i) % 4 = 2 * (i % 2) by unfold vgaBase; omega,
    show (vgaBase + 2 * i + 1) % 4 = 2 * (i % 2) + 1 by unfold vgaBase; omega]
  exact hbytes (i % 2) (Nat.mod_lt i (by decide))

/-- **A fill of `n` rows from row `r` on blanks them.** -/
theorem fillEntries_cells (tier : Tier) (r n : ℕ) :
    let filled := fillEntries tier m (vgaBase + 160 * r) (160 * n) blankEntry32
    (∀ i, cellAt filled.mem i =
        if 80 * r ≤ i ∧ i < 80 * (r + n) then Cell.blank else cellAt m i) ∧
      AccessesIn (vgaBase + 160 * r) (vgaBase + 160 * (r + n)) filled.stores := by
  obtain ⟨hmem, hstores⟩ := fillEntries_spec m blankEntry32 tier (vgaBase + 160 * r) (160 * n)
    (by unfold vgaBase; omega) (by omega)
  rw [show vgaBase + 160 * r + 160 * n = vgaBase + 160 * (r + n) by omega] at hmem hstores
  refine ⟨?_, hstores⟩
  intro i
  rw [hmem, show vgaBase + 160 * r = vgaBase + 2 * (80 * r) by omega,
    show vgaBase + 160 * (r + n) = vgaBase + 2 * (80 * (r + n)) by omega, cellAt_overlay,
    (entryByte_blank i).1, (entryByte_blank i).2]
  rfl

end Fills

/-! ### Copies -/

section Copies

variable {src dst count : ℕ} (m : ByteMem)

theorem copyLoop_chunks {k : ℕ} {move : ByteMem → ℕ → ℕ → ByteMem}
    (hmove : ChunkMove move (2 ^ k)) (hk : k ≤ 5) (hsrc : 32 ∣ src) (hdst : 32 ∣ dst)
    (hcount : 32 ∣ count) (hdisj : dst + count ≤ src) :
    let copied := copyLoop move (2 ^ k) (src + 2 ^ k * (count >>> k)) count ⟨m, src, dst, [], []⟩
    copied.dst = dst + count ∧
      copied.mem = overlay m dst (dst + count) (fun x => m (src + (x - dst))) ∧
      AccessesIn src (src + count) copied.loads ∧ AccessesIn dst (dst + count) copied.stores := by
  have hdvd : 2 ^ k ∣ 32 := Nat.pow_dvd_pow 2 hk
  rw [mul_shiftRight (Nat.dvd_trans hdvd hcount)]
  exact copyLoop_spec hmove (Nat.dvd_trans hdvd hsrc) (Nat.dvd_trans hdvd hdst)
    (Nat.dvd_trans hdvd hcount) (.inl hdisj) count 0 (Nat.zero_le _) (Nat.dvd_zero _)
    (Nat.le_refl _) _ rfl rfl (overlay_self m dst _).symm (AccessesIn.nil _ _) (AccessesIn.nil _ _)

/-- **The three copies do the same.** Each moves its range down to a disjoint one, in
aligned accesses inside them. -/
theorem copyEntries_spec (tier : Tier) (src dst count : ℕ) (hsrc : 32 ∣ src) (hdst : 32 ∣ dst)
    (hcount : 32 ∣ count) (hdisj : dst + count ≤ src) :
    let copied := copyEntries tier m src dst count
    copied.dst = dst + count ∧
      copied.mem = overlay m dst (dst + count) (fun x => m (src + (x - dst))) ∧
      AccessesIn src (src + count) copied.loads ∧ AccessesIn dst (dst + count) copied.stores := by
  cases tier with
  | gpr => exact copyLoop_chunks (k := 2) m chunkMove_word (by decide) hsrc hdst hcount hdisj
  | simd => exact copyLoop_chunks m (chunkMove_vector 4) (by decide) hsrc hdst hcount hdisj
  | avx2 => exact copyLoop_chunks m (chunkMove_vector 5) (by decide) hsrc hdst hcount hdisj

/-- **A copy of `n` rows from row `s` to row `r` moves their cells.** -/
theorem copyEntries_cells (tier : Tier) {s r n : ℕ} (hdisj : r + n ≤ s) :
    let copied := copyEntries tier m (vgaBase + 160 * s) (vgaBase + 160 * r) (160 * n)
    copied.dst = vgaBase + 160 * (r + n) ∧
      (∀ i, cellAt copied.mem i =
        if 80 * r ≤ i ∧ i < 80 * (r + n) then cellAt m (80 * s + (i - 80 * r)) else cellAt m i) ∧
      AccessesIn (vgaBase + 160 * s) (vgaBase + 160 * (s + n)) copied.loads ∧
      AccessesIn (vgaBase + 160 * r) (vgaBase + 160 * (r + n)) copied.stores := by
  obtain ⟨hd, hmem, hloads, hstores⟩ := copyEntries_spec m tier (vgaBase + 160 * s)
    (vgaBase + 160 * r) (160 * n) (by unfold vgaBase; omega) (by unfold vgaBase; omega) (by omega)
    (by omega)
  rw [show vgaBase + 160 * s + 160 * n = vgaBase + 160 * (s + n) by omega] at hloads
  rw [show vgaBase + 160 * r + 160 * n = vgaBase + 160 * (r + n) by omega] at hd hmem hstores
  refine ⟨hd, ?_, hloads, hstores⟩
  intro i
  rw [hmem, show vgaBase + 160 * (r + n) = vgaBase + 2 * (80 * (r + n)) by omega,
    show vgaBase + 160 * r = vgaBase + 2 * (80 * r) by omega, cellAt_overlay]
  by_cases hi : 80 * r ≤ i ∧ i < 80 * (r + n)
  · -- the two bytes of a cell move together
    rw [if_pos hi, if_pos hi]
    unfold cellAt
    rw [show vgaBase + 160 * s + (vgaBase + 2 * i - (vgaBase + 2 * (80 * r)))
        = vgaBase + 2 * (80 * s + (i - 80 * r)) by omega,
      show vgaBase + 160 * s + (vgaBase + 2 * i + 1 - (vgaBase + 2 * (80 * r)))
        = vgaBase + 2 * (80 * s + (i - 80 * r)) + 1 by omega]
  · rw [if_neg hi, if_neg hi]

end Copies

/-! ### One cell -/

theorem extractLsb'_makeEntry (c color : BitVec 8) :
    (makeEntry c color).extractLsb' 0 8 = c ∧ (makeEntry c color).extractLsb' 8 8 = color := by
  constructor
  · ext i hi
    simp [makeEntry, hi, show i < 16 by omega]
  · ext i hi
    simp [makeEntry, hi, show 8 + i < 16 by omega, show ¬ 8 + i < 8 by omega]

/-- Storing an entry changes one cell. -/
theorem cellAt_store (m : ByteMem) (p : ℕ) (c color : BitVec 8) (i : ℕ) :
    cellAt (store m 2 (vgaBase + 2 * p) (makeEntry c color)) i =
      if i = p then ⟨c, color⟩ else cellAt m i := by
  obtain ⟨hlow, hhigh⟩ := extractLsb'_makeEntry c color
  unfold cellAt store
  by_cases hi : i = p
  · subst hi
    rw [if_pos rfl, if_pos (by omega), if_pos (by omega)]
    rw [show 8 * (vgaBase + 2 * i - (vgaBase + 2 * i)) = 0 by omega,
      show 8 * (vgaBase + 2 * i + 1 - (vgaBase + 2 * i)) = 8 by omega, hlow, hhigh]
  · rw [if_neg hi, if_neg (by omega), if_neg (by omega)]

end BareMetal
