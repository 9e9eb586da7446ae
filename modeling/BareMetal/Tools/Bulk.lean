import BareMetal.Tools.Simd
import Mathlib.Algebra.GroupWithZero.Nat

/-!
# Bulk loops

The loops `for(; current < end; ++current) *current = value;` over stores of one
width, and the copy loops that advance a source and a destination pointer together.
A store loop is an overlay if one store is (`storeLoop_spec`), a copy loop between
disjoint ranges moves the bytes of the source (`copyLoop_spec`). Both record the
accesses they issue.
-/

namespace BareMetal

open Framework

/-- A memory access: its address and its width in bytes. -/
structure Access where
  address : ℕ
  width : ℕ
  deriving DecidableEq

/-- The accesses stay in `[lo, hi)`, and those of vector width are aligned. -/
def AccessesIn (lo hi : ℕ) (accesses : List Access) : Prop :=
  ∀ a ∈ accesses, lo ≤ a.address ∧ a.address + a.width ≤ hi ∧
    (16 ≤ a.width → a.width ∣ a.address)

theorem AccessesIn.nil (lo hi : ℕ) : AccessesIn lo hi [] := fun _ ha => absurd ha List.not_mem_nil

theorem AccessesIn.cons {lo hi : ℕ} {a : Access} {accesses : List Access} (hlo : lo ≤ a.address)
    (hhi : a.address + a.width ≤ hi) (ha : 16 ≤ a.width → a.width ∣ a.address)
    (h : AccessesIn lo hi accesses) : AccessesIn lo hi (a :: accesses) := by
  intro b hb
  rcases List.mem_cons.mp hb with rfl | hb
  · exact ⟨hlo, hhi, ha⟩
  · exact h b hb

theorem AccessesIn.mono {lo hi lo' hi' : ℕ} {accesses : List Access}
    (h : AccessesIn lo hi accesses) (hlo : lo' ≤ lo) (hhi : hi ≤ hi') :
    AccessesIn lo' hi' accesses := by
  intro a ha
  obtain ⟨h₁, h₂, h₃⟩ := h a ha
  exact ⟨hlo.trans h₁, h₂.trans hhi, h₃⟩

theorem AccessesIn.append {lo hi : ℕ} {l₁ l₂ : List Access} (h₁ : AccessesIn lo hi l₁)
    (h₂ : AccessesIn lo hi l₂) : AccessesIn lo hi (l₁ ++ l₂) := by
  intro a ha
  rcases List.mem_append.mp ha with h | h
  · exact h₁ a h
  · exact h₂ a h

/-! ### Store loops -/

/-- What a store loop works on: the memory, the pointer, and the stores issued so
far. -/
structure Fill where
  mem : ByteMem
  start : ℕ
  stores : List Access

/-- The loop over chunks of `k` bytes written by `put`. `fuel` bounds the number of
chunks. -/
def storeLoop (put : ByteMem → ℕ → ByteMem) (k stop : ℕ) : ℕ → Fill → Fill
  | 0, s => s
  | fuel + 1, s =>
    if s.start < stop then
      storeLoop put k stop fuel ⟨put s.mem s.start, s.start + k, ⟨s.start, k⟩ :: s.stores⟩
    else s

/-- `put` writes the `k` bytes of `f` at its address. -/
def ChunkStore (put : ByteMem → ℕ → ByteMem) (k : ℕ) (f : ℕ → BitVec 8) : Prop :=
  0 < k ∧ ∀ m a, k ∣ a → put m a = overlay m a (a + k) f

theorem storeLoop_spec {m : ByteMem} {f : ℕ → BitVec 8} {lo hi k stop : ℕ}
    {put : ByteMem → ℕ → ByteMem} (hput : ChunkStore put k f) (hstop : k ∣ stop) (hle : stop ≤ hi)
    (fuel : ℕ) (s : Fill) (hfuel : stop - s.start ≤ fuel)
    (haligned : s.start < stop → k ∣ s.start) (hmem : s.mem = overlay m lo s.start f)
    (hlo : lo ≤ s.start) (hstores : AccessesIn lo hi s.stores) :
    (storeLoop put k stop fuel s).start = max s.start stop ∧
      (storeLoop put k stop fuel s).mem = overlay m lo (max s.start stop) f ∧
      AccessesIn lo hi (storeLoop put k stop fuel s).stores := by
  obtain ⟨hk, hput⟩ := hput
  induction fuel generalizing s with
  | zero =>
    rw [storeLoop, Nat.max_eq_left (by omega)]
    exact ⟨rfl, hmem, hstores⟩
  | succ fuel ih =>
    rw [storeLoop]
    by_cases hlt : s.start < stop
    · have hnext : k ∣ s.start + k := Nat.dvd_add (haligned hlt) (Nat.dvd_refl k)
      have hfits : s.start + k ≤ stop := Nat.le_of_lt_add_of_dvd (by omega) hnext hstop
      have hstores' : AccessesIn lo hi (⟨s.start, k⟩ :: s.stores) :=
        hstores.cons hlo (hfits.trans hle) fun _ => haligned hlt
      -- the store extends the overlaid range by one chunk
      have hmem' : put s.mem s.start = overlay m lo (s.start + k) f := by
        rw [hput _ _ (haligned hlt), hmem, overlay_append m hlo (by omega)]
      rw [if_pos hlt]
      have hrest := ih ⟨put s.mem s.start, s.start + k, ⟨s.start, k⟩ :: s.stores⟩
        (by simp only; omega) (fun _ => hnext) hmem' (by simp only; omega) hstores'
      simp only at hrest
      rwa [show max (s.start + k) stop = max s.start stop by omega] at hrest
    · rw [if_neg hlt, Nat.max_eq_left (by omega)]
      exact ⟨rfl, hmem, hstores⟩

/-! ### Copy loops -/

/-- What a copy loop works on: the memory, the two pointers, and the accesses issued
so far. -/
structure Copy where
  mem : ByteMem
  src : ℕ
  dst : ℕ
  loads : List Access
  stores : List Access

/-- The loop over chunks of `k` bytes moved by `move m src dst`. -/
def copyLoop (move : ByteMem → ℕ → ℕ → ByteMem) (k stop : ℕ) : ℕ → Copy → Copy
  | 0, s => s
  | fuel + 1, s =>
    if s.src < stop then
      copyLoop move k stop fuel ⟨move s.mem s.src s.dst, s.src + k, s.dst + k,
        ⟨s.src, k⟩ :: s.loads, ⟨s.dst, k⟩ :: s.stores⟩
    else s

/-- `move` copies `k` bytes. -/
def ChunkMove (move : ByteMem → ℕ → ℕ → ByteMem) (k : ℕ) : Prop :=
  0 < k ∧ ∀ m src dst, move m src dst = overlay m dst (dst + k) fun x => m (src + (x - dst))

/-- A copy of `[src, src + n)` to a disjoint range at `dst`. -/
theorem copyLoop_spec {m : ByteMem} {src dst k n : ℕ} {move : ByteMem → ℕ → ℕ → ByteMem}
    (hmove : ChunkMove move k) (hsrc : k ∣ src) (hdst : k ∣ dst) (hn : k ∣ n)
    (hdisj : dst + n ≤ src ∨ src + n ≤ dst) (fuel : ℕ) (t : ℕ) (ht : t ≤ n) (hkt : k ∣ t)
    (hfuel : n - t ≤ fuel) (s : Copy) (hs : s.src = src + t) (hd : s.dst = dst + t)
    (hmem : s.mem = overlay m dst (dst + t) fun x => m (src + (x - dst)))
    (hloads : AccessesIn src (src + n) s.loads) (hstores : AccessesIn dst (dst + n) s.stores) :
    (copyLoop move k (src + n) fuel s).dst = dst + n ∧
      (copyLoop move k (src + n) fuel s).mem
        = overlay m dst (dst + n) (fun x => m (src + (x - dst))) ∧
      AccessesIn src (src + n) (copyLoop move k (src + n) fuel s).loads ∧
      AccessesIn dst (dst + n) (copyLoop move k (src + n) fuel s).stores := by
  obtain ⟨hk, hmove⟩ := hmove
  induction fuel generalizing t s with
  | zero =>
    -- no fuel is left: everything is copied
    obtain rfl : t = n := by omega
    rw [copyLoop]
    exact ⟨hd, hmem, hloads, hstores⟩
  | succ fuel ih =>
    rw [copyLoop]
    by_cases hlt : s.src < src + n
    · have hnext : k ∣ t + k := Nat.dvd_add hkt (Nat.dvd_refl k)
      have hfits : t + k ≤ n := Nat.le_of_lt_add_of_dvd (by omega) hnext hn
      -- the chunk at offset `t` lies inside both ranges
      have hloads' : AccessesIn src (src + n) (⟨s.src, k⟩ :: s.loads) := by
        refine hloads.cons (by simp only; omega) (by simp only; omega) ?_
        intro _
        rw [hs]
        exact Nat.dvd_add hsrc hkt
      have hstores' : AccessesIn dst (dst + n) (⟨s.dst, k⟩ :: s.stores) := by
        refine hstores.cons (by simp only; omega) (by simp only; omega) ?_
        intro _
        rw [hd]
        exact Nat.dvd_add hdst hkt
      -- the chunk reads bytes of the source, which the copy has not touched
      have hmem' : move s.mem s.src s.dst
          = overlay m dst (dst + (t + k)) fun x => m (src + (x - dst)) := by
        rw [hmove, hmem, hs, hd, ← overlay_append m (b := dst + t) (c := dst + (t + k)) (by omega)
          (by omega), ← Nat.add_assoc]
        apply overlay_congr
        intro x h₁ h₂
        rw [overlay_outside (by omega)]
        exact congrArg m (by omega)
      rw [if_pos hlt]
      exact ih (t + k) hfits hnext (by omega) _ (by rw [← Nat.add_assoc, hs])
        (by rw [← Nat.add_assoc, hd]) hmem' hloads' hstores'
    · obtain rfl : t = n := by omega
      rw [if_neg hlt]
      exact ⟨hd, hmem, hloads, hstores⟩

theorem chunkMove_word : ChunkMove (fun m s d => store m 4 d (load m 4 s)) 4 := by
  refine ⟨by decide, fun m src dst => store_eq_overlay m 4 dst ?_⟩
  intro j hj
  rw [extractLsb'_load m 4 src hj, Nat.add_sub_cancel_left]

theorem chunkMove_vector (k : ℕ) :
    ChunkMove (fun m s d => mmStore m d (mmLoad m (2 ^ k) s)) (2 ^ k) := by
  refine ⟨Nat.two_pow_pos k, fun m src dst => mmStore_eq_overlay m (2 ^ k) dst ?_⟩
  intro i
  rw [Nat.add_sub_cancel_left]
  rfl

end BareMetal
