import Mathlib.Data.Nat.Find
import Mathlib.Order.Basic

/-!
# First fit over a predicate, chunk by chunk

Searching a free run of `n` cells in a long row of cells, with the cells taken
in chunks of any width. A cell is a natural number and `free` says which cells
are free; nothing is assumed about it.

* `FreeRun free s n`: the `n` cells from `s` on are free.
* `HasRun free lo hi n`: some run of `n` free cells lies in `[lo, hi)`.
* `FirstFit free lo hi n s`: `s` is the lowest start of such a run.
* `Carry free lo hi n len`: `[lo, hi)` holds no run of `n` free cells, and its
  longest free suffix has length `len`.

A scanner that has seen `[lo, hi)` is in one of two situations: it has found a
`FirstFit`, or it carries the length of the free suffix to the next chunk. The
rules below say what a chunk `[hi, hi + w)` does to a carry. The carried run may
be completed by a free prefix of the chunk (`Carry.found`). Otherwise the chunk
is entirely free and the carry grows (`Carry.extend_free`), or it has a used
cell. A run across the chunk's lower border then ends at the first used cell, so
only the inside of the chunk is left to look at: its own first fit is the first
fit of the whole (`Carry.found_inside`), and if it has none the carry becomes the
chunk's free suffix (`Carry.extend_mixed`).

The rules do not mention how a chunk is represented or inspected, so scanners of
different widths compose: each stage starts from the carry the previous one left.
-/

namespace Framework

variable {free : ℕ → Prop} {lo hi n len w z s : ℕ}

/-- The `n` cells from `s` on are free. -/
def FreeRun (free : ℕ → Prop) (s n : ℕ) : Prop :=
  ∀ i, s ≤ i → i < s + n → free i

/-- Some `n` consecutive free cells lie in `[lo, hi)`. -/
def HasRun (free : ℕ → Prop) (lo hi n : ℕ) : Prop :=
  ∃ s, lo ≤ s ∧ s + n ≤ hi ∧ FreeRun free s n

/-- `s` is the lowest start of `n` consecutive free cells in `[lo, hi)`. -/
structure FirstFit (free : ℕ → Prop) (lo hi n s : ℕ) : Prop where
  lo_le : lo ≤ s
  le_hi : s + n ≤ hi
  run : FreeRun free s n
  first : ∀ t, lo ≤ t → t < s → ¬ FreeRun free t n

/-- `[lo, hi)` has no `n` consecutive free cells, and `len` is the length of its
longest free suffix. -/
structure Carry (free : ℕ → Prop) (lo hi n len : ℕ) : Prop where
  len_le : lo + len ≤ hi
  suffix : FreeRun free (hi - len) len
  /-- The suffix cannot be made longer inside `[lo, hi)`. -/
  maximal : lo < hi - len → ¬ free (hi - len - 1)
  noFit : ¬ HasRun free lo hi n

/-! ### Free runs -/

theorem FreeRun.sub {s' n' : ℕ} (h : FreeRun free s n) (hs : s ≤ s') (hn : s' + n' ≤ s + n) :
    FreeRun free s' n' :=
  fun i h₁ h₂ => h i (by omega) (by omega)

/-- Two adjacent free runs are one. -/
theorem FreeRun.append (h₁ : FreeRun free s n) (h₂ : FreeRun free (s + n) w) :
    FreeRun free s (n + w) := by
  intro i hi₁ hi₂
  by_cases h : i < s + n
  · exact h₁ i hi₁ h
  · exact h₂ i (by omega) (by omega)

theorem FirstFit.hasRun (h : FirstFit free lo hi n s) : HasRun free lo hi n :=
  ⟨s, h.lo_le, h.le_hi, h.run⟩

theorem HasRun.mono {lo' hi' : ℕ} (h : HasRun free lo hi n) (hlo : lo' ≤ lo) (hhi : hi ≤ hi') :
    HasRun free lo' hi' n := by
  obtain ⟨s, h₁, h₂, h₃⟩ := h
  exact ⟨s, by omega, by omega, h₃⟩

/-- The upper border only bounds a first fit from above. -/
theorem FirstFit.mono {hi' : ℕ} (h : FirstFit free lo hi n s) (hhi : hi ≤ hi') :
    FirstFit free lo hi' n s :=
  ⟨h.lo_le, h.le_hi.trans hhi, h.run, h.first⟩

/-- The lower border may move up to the fit. -/
theorem FirstFit.mono_lo {lo' : ℕ} (h : FirstFit free lo hi n s) (hlo : lo ≤ lo') (hs : lo' ≤ s) :
    FirstFit free lo' hi n s :=
  ⟨hs, h.le_hi, h.run, fun t ht => h.first t (hlo.trans ht)⟩

theorem FirstFit.unique {s' : ℕ} (h : FirstFit free lo hi n s) (h' : FirstFit free lo hi n s') :
    s = s' := by
  rcases lt_trichotomy s s' with hlt | heq | hgt
  · exact absurd h.run (h'.first s h.lo_le hlt)
  · exact heq
  · exact absurd h'.run (h.first s' h'.lo_le hgt)

/-! ### Other cells -/

section Congruence

variable {free' : ℕ → Prop}

theorem freeRun_congr (h : ∀ i, s ≤ i → i < s + n → (free i ↔ free' i)) :
    FreeRun free s n ↔ FreeRun free' s n :=
  forall_congr' fun i => forall_congr' fun hi => forall_congr' fun hi' => h i hi hi'

theorem hasRun_congr (h : ∀ i, lo ≤ i → i < hi → (free i ↔ free' i)) :
    HasRun free lo hi n ↔ HasRun free' lo hi n := by
  refine exists_congr fun s => and_congr_right fun hlo => and_congr_right fun hhi => ?_
  exact freeRun_congr fun i h₁ h₂ => h i (by omega) (by omega)

/-- Cells outside the borders do not matter. -/
theorem FirstFit.congr (h : ∀ i, lo ≤ i → i < hi → (free i ↔ free' i))
    (hfit : FirstFit free lo hi n s) : FirstFit free' lo hi n s := by
  have hlo := hfit.lo_le
  have hhi := hfit.le_hi
  refine ⟨hlo, hhi, ?_, ?_⟩
  · exact (freeRun_congr fun i h₁ h₂ => h i (by omega) (by omega)).mp hfit.run
  · intro t ht hts hrun
    exact hfit.first t ht hts
      ((freeRun_congr fun i h₁ h₂ => h i (by omega) (by omega)).mpr hrun)

end Congruence

/-! ### Renumbering the cells -/

theorem freeRun_shift (c : ℕ) :
    FreeRun free (c + s) n ↔ FreeRun (fun i => free (c + i)) s n := by
  constructor
  · exact fun h i h₁ h₂ => h (c + i) (by omega) (by omega)
  · intro h i h₁ h₂
    have hi : free (c + (i - c)) := h (i - c) (by omega) (by omega)
    rwa [Nat.add_sub_cancel' (by omega)] at hi

theorem hasRun_shift (c : ℕ) :
    HasRun free (c + lo) (c + hi) n ↔ HasRun (fun i => free (c + i)) lo hi n := by
  constructor
  · rintro ⟨s, h₁, h₂, hrun⟩
    obtain ⟨t, rfl⟩ := Nat.exists_eq_add_of_le (show c ≤ s by omega)
    exact ⟨t, by omega, by omega, (freeRun_shift c).mp hrun⟩
  · rintro ⟨s, h₁, h₂, hrun⟩
    exact ⟨c + s, by omega, by omega, (freeRun_shift c).mpr hrun⟩

theorem FirstFit.shift (c : ℕ) (h : FirstFit free (c + lo) (c + hi) n (c + s)) :
    FirstFit (fun i => free (c + i)) lo hi n s := by
  have h₁ := h.lo_le
  have h₂ := h.le_hi
  refine ⟨by omega, by omega, (freeRun_shift c).mp h.run, ?_⟩
  intro t ht hlt hrun
  exact h.first (c + t) (by omega) (by omega) ((freeRun_shift c).mpr hrun)

/-! ### Carries -/

/-- Nothing has been scanned yet. -/
theorem Carry.init (hn : 0 < n) : Carry free lo lo n 0 where
  len_le := le_refl _
  suffix := fun i h₁ h₂ => by omega
  maximal := fun h => by omega
  noFit := fun ⟨s, h₁, h₂, _⟩ => by omega

/-- The carry is too short for a fit. -/
theorem Carry.lt (h : Carry free lo hi n len) : len < n := by
  by_contra hge
  have hle := h.len_le
  exact h.noFit ⟨hi - n, by omega, by omega, h.suffix.sub (by omega) (by omega)⟩

theorem Carry.unique {len' : ℕ} (h : Carry free lo hi n len) (h' : Carry free lo hi n len') :
    len = len' := by
  -- a longer suffix would free the used cell before the shorter one
  have key : ∀ {a b : ℕ}, Carry free lo hi n a → Carry free lo hi n b → ¬ a < b := by
    intro a b ha hb hlt
    have hle := hb.len_le
    exact ha.maximal (by omega) (hb.suffix _ (by omega) (by omega))
  exact le_antisymm (not_lt.mp (key h' h)) (not_lt.mp (key h h'))

/-- A free run that reaches `hi` from below starts inside the carried suffix. -/
theorem Carry.le_of_run (h : Carry free lo hi n len) {t k : ℕ} (hlo : lo ≤ t)
    (hrun : FreeRun free t k) (hk : hi ≤ t + k) : hi - len ≤ t := by
  by_contra hlt
  have hle := h.len_le
  exact h.maximal (by omega) (hrun _ (by omega) (by omega))

/-- **The carried run is completed** by the `z` free cells that follow. -/
theorem Carry.found (h : Carry free lo hi n len) (hz : FreeRun free hi z) (hn : n ≤ len + z) :
    FirstFit free lo (hi + z) n (hi - len) := by
  have hle := h.len_le
  have hlt := h.lt
  -- the carried suffix and the new cells are one run
  have hwhole : FreeRun free (hi - len) (len + z) :=
    h.suffix.append (by rwa [Nat.sub_add_cancel (by omega)])
  refine ⟨by omega, by omega, hwhole.sub (le_refl _) (by omega), ?_⟩
  intro t ht hts hrun
  by_cases hin : t + n ≤ hi
  · exact h.noFit ⟨t, ht, hin, hrun⟩
  · -- a run across `hi` cannot start below the carried suffix
    have := h.le_of_run ht hrun (by omega)
    omega

/-- A chunk of free cells that does not complete the run makes the carry longer. -/
theorem Carry.extend_free (h : Carry free lo hi n len) (hw : FreeRun free hi w)
    (hn : len + w < n) : Carry free lo (hi + w) n (len + w) := by
  have hle := h.len_le
  have heq : hi + w - (len + w) = hi - len := by omega
  refine ⟨by omega, ?_, ?_, ?_⟩
  · rw [heq]
    exact h.suffix.append (by rwa [Nat.sub_add_cancel (by omega)])
  · rw [heq]
    exact h.maximal
  · rintro ⟨t, ht, hte, hrun⟩
    by_cases hin : t + n ≤ hi
    · exact h.noFit ⟨t, ht, hin, hrun⟩
    · -- a run across `hi` would start in the suffix and be too long
      have := h.le_of_run ht hrun (by omega)
      omega

/-- **Where a fit can lie once the chunk has a used cell.** The chunk is free up
to `hi + z`, which is used, and the carry with these `z` cells is too short. A
run of `n` free cells in `[lo, hi + w)` then lies inside the chunk. -/
theorem Carry.le_start (h : Carry free lo hi n len) (hused : ¬ free (hi + z))
    (hn : len + z < n) {t : ℕ} (ht : lo ≤ t) (hrun : FreeRun free t n) : hi ≤ t := by
  by_contra hlt
  by_cases hin : t + n ≤ hi
  · exact h.noFit ⟨t, ht, hin, hrun⟩
  · have hle := h.len_le
    have hstart := h.le_of_run ht hrun (by omega)
    -- the run would contain the used cell `hi + z`
    exact hused (hrun (hi + z) (by omega) (by omega))

/-- The first fit inside a chunk that has a used cell is the first fit overall. -/
theorem Carry.found_inside (h : Carry free lo hi n len) (hused : ¬ free (hi + z))
    (hn : len + z < n) (hfit : FirstFit free hi (hi + w) n s) :
    FirstFit free lo (hi + w) n s := by
  have hle := h.len_le
  have hlo := hfit.lo_le
  refine ⟨by omega, hfit.le_hi, hfit.run, ?_⟩
  intro t ht hts hrun
  exact hfit.first t (h.le_start hused hn ht hrun) hts hrun

/-- A chunk with a used cell and no fit leaves its own free suffix as the carry. -/
theorem Carry.extend_mixed (h : Carry free lo hi n len) (hz : z < w)
    (hused : ¬ free (hi + z)) (hn : len + z < n) (hchunk : Carry free hi (hi + w) n s) :
    Carry free lo (hi + w) n s := by
  have hle := h.len_le
  have hcle := hchunk.len_le
  refine ⟨by omega, hchunk.suffix, fun hlt => hchunk.maximal ?_, ?_⟩
  · by_contra hfull
    -- the suffix would fill the chunk, so `hi + z` would be free
    exact hused (hchunk.suffix (hi + z) (by omega) (by omega))
  · rintro ⟨t, ht, hte, hrun⟩
    exact hchunk.noFit ⟨t, h.le_start hused hn ht hrun, hte, hrun⟩

/-- A chunk of used cells leaves nothing to carry. -/
theorem Carry.extend_used (h : Carry free lo hi n len) (hw : 0 < w)
    (hused : ∀ i < w, ¬ free (hi + i)) : Carry free lo (hi + w) n 0 := by
  have hlt := h.lt
  -- the first cell of the chunk is used, so this is the mixed case with `z = 0`
  refine h.extend_mixed (z := 0) hw (hused 0 hw) (by omega)
    ⟨by omega, fun x h₁ h₂ => by omega, ?_, ?_⟩
  · intro _
    have := hused (w - 1) (by omega)
    rwa [show hi + w - 0 - 1 = hi + (w - 1) by omega]
  · rintro ⟨t, ht, hte, hrun⟩
    have := hused (t - hi) (by omega)
    rw [Nat.add_sub_cancel' ht] at this
    exact this (hrun t (le_refl _) (by omega))

end Framework
