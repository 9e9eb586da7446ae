import BareMetal.Cpu.Features
import BareMetal.Framework.FirstFit
import BareMetal.Pmm.Shifts
import BareMetal.Tools.Bulk

/-!
# The scanning cores

A core walks `[*start, end)` in chunks of one width. It carries the length of the
free run that ends at the scan pointer, and stops at the first chunk that
completes a run of `frames` clear bits. The source has one core for each width,
8, 16 and 32 bits for the general purpose registers and 128 and 256 bits for the
vector units, and a `noinline` twin of each kept in sync by hand. They differ in
how a chunk is inspected, so the loop `contiguousCore` is written once and takes
the inspection as a parameter:

* `inspectWord` looks at one general purpose word: all clear, all set, or mixed,
  where the completed prefix, the run inside (`space`) and the free suffix are
  tried in this order;
* `inspectVector` compares a register with zero and with all ones, and hands a
  mixed register to the next narrower core over its own bytes.

A frame is free when its bit is clear. The correctness statement of a core is in
terms of `FirstFit` and `Carry` over `clearBit`, on absolute bit numbers (bit `x`
of the memory is bit `x % 8` of the byte at address `x / 8`). `InspectSound` says
what a chunk's inspection does to a carry, and `contiguousCore_spec` lifts it to
the loop. The loads a core issues are recorded, so that the same statement says
where it reads and with which alignment.
-/

namespace BareMetal

open Framework

/-! ### Constants -/

def byteSize : ℕ := 8
def bitsPerByteShift : ℕ := 3
def bitMask : ℕ := 7
def bitMaxPos : ℕ := 7

/-! ### Scans -/

/-- The `allocation_run` of a search. -/
structure AllocationRun where
  startFrame : ℕ
  length : ℕ
  deriving DecidableEq

/-- What a core works on: the run it reports to, the scan pointer `*start`, and
the loads issued so far. -/
structure Scan where
  run : AllocationRun
  start : ℕ
  loads : List Access

/-- The verdict on one chunk: a run starts at a frame, or a length is carried on. -/
inductive Inspect where
  | found (startFrame : ℕ)
  | carry (length : ℕ)

/-- `run_found`: the frame `length` bits before the byte at `ptr`. -/
def runFound (bitmapStart ptr length : ℕ) : ℕ :=
  usizeSub (usize ((ptr - bitmapStart) <<< bitsPerByteShift)) length

/-- The body of `contiguous_8_core`, `contiguous_16_core` and
`contiguous_32_core` on the word of `k` bytes at `current`. -/
def inspectWord (m : ByteMem) (bitmapStart k frames current length : ℕ) : Inspect :=
  let currentValue := load m k current
  if currentValue = 0#(8 * k) then
    let length := usize (length + 8 * k)
    if frames ≤ length then
      .found (runFound bitmapStart current (usizeSub length (8 * k)))
    else .carry length
  else if currentValue = BitVec.allOnes (8 * k) then .carry 0
  else if frames ≤ usize (length + trailingZeros currentValue) then
    .found (runFound bitmapStart current length)
  else
    let invertedValue := space (arrayOfShifts (8 * k) frames) (~~~currentValue)
    if frames ≤ 8 * k - 1 ∧ invertedValue ≠ 0#(8 * k) then
      .found (runFound bitmapStart current (usizeSub 0 (trailingZeros invertedValue)))
    else .carry (leadingZeros currentValue)

/-- The loop of every core, `for(; current < end; ++current)` over chunks of `k`
bytes. `fuel` bounds the number of chunks. -/
def contiguousLoop (inspect : ℕ → ℕ → Inspect × List Access) (k frames stop : ℕ) :
    ℕ → Scan → Scan
  | 0, s => s
  | fuel + 1, s =>
    if s.start < stop then
      match inspect s.start s.run.length with
      | (.found f, loads) =>
        { run := ⟨f, frames⟩, start := s.start, loads := loads ++ s.loads }
      | (.carry l, loads) =>
        contiguousLoop inspect k frames stop fuel
          { run := { s.run with length := l }, start := s.start + k, loads := loads ++ s.loads }
    else s

/-- A core over `[*start, stop)`: every chunk moves the pointer by at least one
byte, so the number of bytes left bounds the number of chunks. -/
def contiguousCore (inspect : ℕ → ℕ → Inspect × List Access) (k frames stop : ℕ)
    (s : Scan) : Scan :=
  contiguousLoop inspect k frames stop (stop - s.start) s

/-- The general purpose cores: one load of `k` bytes a chunk. -/
def contiguousGprCore (m : ByteMem) (bitmapStart k frames stop : ℕ) (s : Scan) : Scan :=
  contiguousCore (fun current length =>
    (inspectWord m bitmapStart k frames current length, [⟨current, k⟩])) k frames stop s

/-- `contiguous_8_core_inline` and its twin `contiguous_8_core`. -/
def contiguous8Core (m : ByteMem) (bitmapStart frames stop : ℕ) (s : Scan) : Scan :=
  contiguousGprCore m bitmapStart 1 frames stop s

/-- `contiguous_16_core_inline` and its twin `contiguous_16_core`. -/
def contiguous16Core (m : ByteMem) (bitmapStart frames stop : ℕ) (s : Scan) : Scan :=
  contiguousGprCore m bitmapStart 2 frames stop s

/-- `contiguous_32_core_inline` and its twin `contiguous_32_core`. -/
def contiguous32Core (m : ByteMem) (bitmapStart frames stop : ℕ) (s : Scan) : Scan :=
  contiguousGprCore m bitmapStart 4 frames stop s

/-- The body of the vector cores on the `n` bytes at `current`. `cmpeq` is the
comparison with all ones, `narrower` the core a mixed register is handed to. -/
def inspectVector (m : ByteMem) (bitmapStart n : ℕ) (cmpeq : Reg n → Reg n → Reg n)
    (narrower : ℕ → Scan → Scan) (frames current length : ℕ) : Inspect × List Access :=
  let currentValue := mmLoad m n current
  let cmp := setzero n
  let packedResult := movemaskEpi8 (cmpeqEpi32 currentValue cmp)
  let allOnes := cmpeqEpi32 cmp cmp
  let allOnesPacked := movemaskEpi8 (cmpeq currentValue allOnes)
  if packedResult = BitVec.allOnes n then
    let length := usize (length + 8 * n)
    if frames ≤ length then
      (.found (runFound bitmapStart current (usizeSub length (8 * n))), [⟨current, n⟩])
    else (.carry length, [⟨current, n⟩])
  else if allOnesPacked = BitVec.allOnes n then (.carry 0, [⟨current, n⟩])
  else
    let s := narrower (current + n) { run := ⟨0, length⟩, start := current, loads := [] }
    if frames ≤ s.run.length then (.found s.run.startFrame, s.loads ++ [⟨current, n⟩])
    else (.carry s.run.length, s.loads ++ [⟨current, n⟩])

/-- `contiguous_sse2_core_inline` and its twin `contiguous_sse2_core`. -/
def contiguousSse2Core (m : ByteMem) (bitmapStart frames stop : ℕ) (s : Scan) : Scan :=
  contiguousCore
    (inspectVector m bitmapStart 16 cmpeqEpi32 (contiguous32Core m bitmapStart frames) frames)
    16 frames stop s

/-- `contiguous_avx2_core_inline`. -/
def contiguousAvx2Core (m : ByteMem) (bitmapStart frames stop : ℕ) (s : Scan) : Scan :=
  contiguousCore
    (inspectVector m bitmapStart 32 cmpeqEpi8 (contiguousSse2Core m bitmapStart frames) frames)
    32 frames stop s

/-! ### What a core has to establish -/

/-- Bit `x` of the memory is clear: the frame it stands for is free. -/
def clearBit (m : ByteMem) (x : ℕ) : Prop := bitAt m x = false

instance (m : ByteMem) (x : ℕ) : Decidable (clearBit m x) := decEq (bitAt m x) false

/-- The scan reports `frames` and the first fit of `[lo, hi)`. Start frames are
counted from the first bit of the bitmap. -/
structure Found (m : ByteMem) (bitmapStart lo hi frames : ℕ) (run : AllocationRun) : Prop where
  length_eq : run.length = frames
  fit : FirstFit (clearBit m) lo hi frames (run.startFrame + 8 * bitmapStart)

/-- What the inspection of the chunk `[current, current + k)` does to a carry. -/
def InspectSound (m : ByteMem) (bitmapStart k frames : ℕ)
    (inspect : ℕ → ℕ → Inspect × List Access) : Prop :=
  ∀ lo current length, bitmapStart ≤ current → 8 * bitmapStart ≤ lo → k ∣ current →
    8 * (current + k - bitmapStart) < 2 ^ 32 →
    Carry (clearBit m) lo (8 * current) frames length →
    AccessesIn current (current + k) (inspect current length).2 ∧
    match (inspect current length).1 with
    | .found f =>
      FirstFit (clearBit m) lo (8 * current + 8 * k) frames (f + 8 * bitmapStart)
    | .carry l => Carry (clearBit m) lo (8 * current + 8 * k) frames l

end BareMetal
