import BareMetal.Pmm.Fill
import BareMetal.Pmm.Sweep

/-!
# The physical memory manager

One bit per frame, set when the frame is used. The bitmap lies in memory right
behind the kernel image; `start` and `end_` are the addresses of its first byte and
past its last one, and `searchBegin` is the hint where the next search starts. All
bits start out set, and `pmmInitialize` clears those of the frames that a usable
e820 entry wholly contains, outside the two reserved regions.

The SIMD tier is chosen once per machine, so every function that dispatches on
`cpu::features::get()` takes it as a parameter. Pointers are addresses, and
`nullptr` is the address zero; the two allocation functions return an optional
address instead, so that a frame address is never mistaken for a failure.
-/

namespace BareMetal

open Framework

/-! ### State -/

/-- The state of the bitmap's pointers. -/
structure Bitmap where
  start : ℕ
  end_ : ℕ
  searchBegin : ℕ
  deriving DecidableEq

/-- `reserved_vector`: the frames of one region that is never handed out. -/
structure ReservedVector where
  base : ℕ
  length : ℕ
  deriving DecidableEq

/-- The globals of the memory manager, with the memory the bitmap lies in. -/
structure Pmm where
  mem : ByteMem
  usedFrames : ℕ
  totalFrames : ℕ
  bitmap : Bitmap
  reserved0 : ReservedVector
  reserved1 : ReservedVector

/-- `pmm_result`. -/
inductive PmmResult where
  | success
  | failed
  | reserved
  | outOfRange
  | zeroFrames
  deriving DecidableEq

def nullptr : ℕ := 0

/-! ### Frames, bytes and bits -/

def frameSize : ℕ := 4096
def frameShift : ℕ := 12

/-- Converts a physical address to a frame index. -/
def frameIndex (address : ℕ) : ℕ := address >>> frameShift

/-- Converts a frame index to a physical address. -/
def frameAddress (index : ℕ) : ℕ := usize (index <<< frameShift)

/-- Converts a frame index to a bitmap index. -/
def bitmapIndex (frame : ℕ) : ℕ := frame >>> bitsPerByteShift

/-- The bit position of a frame inside its byte. -/
def bitPosition (frame : ℕ) : ℕ := frame &&& bitMask

/-- `0xFF << shift`, truncated to a byte. -/
def maskFrom (shift : ℕ) : BitVec 8 := 0xFF#8 <<< shift

/-- `0xFF >> shift`. -/
def maskTo (shift : ℕ) : BitVec 8 := 0xFF#8 >>> shift

/-- `set_frame_used`: the new value of the byte is returned as well. -/
def setFrameUsed (p : Pmm) (ptr : ℕ) (value : BitVec 8) (leftShift : ℕ) : BitVec 8 × Pmm :=
  let value := value ||| (1#8 <<< leftShift)
  (value, { p with mem := setByte p.mem ptr value, usedFrames := usize (p.usedFrames + 1) })

/-- `set_frame_free`. -/
def setFrameFree (p : Pmm) (ptr bitIndex : ℕ) : Pmm :=
  { p with
    mem := setByte p.mem ptr (p.mem ptr &&& ~~~(1#8 <<< bitIndex))
    usedFrames := usizeSub p.usedFrames 1 }

/-- `is_frame_used`. -/
def isFrameUsed (m : ByteMem) (ptr bitIndex : ℕ) : Bool := (m ptr &&& (1#8 <<< bitIndex)) ≠ 0

/-- The loop of `find_free_byte`; `fuel` bounds the number of bytes left. -/
def findFreeByteLoop (m : ByteMem) (stop : ℕ) : ℕ → ℕ → ℕ
  | 0, _ => nullptr
  | fuel + 1, begin =>
    if begin < stop then
      if m begin ≠ 0xFF then begin else findFreeByteLoop m stop fuel (begin + 1)
    else nullptr

/-- `find_free_byte`. -/
def findFreeByte (m : ByteMem) (begin stop : ℕ) : ℕ := findFreeByteLoop m stop (stop - begin) begin

/-! ### Ranges of frames -/

/-- `free_frame_range`. -/
def freeFrameRange (tier : Tier) (p : Pmm) (startFrame endFrame : ℕ) : Pmm :=
  let usedFrames := usizeSub p.usedFrames (usizeSub endFrame startFrame)
  let byteStart := bitmapIndex startFrame
  let incEndFrame := endFrame - 1
  let byteEnd := bitmapIndex incEndFrame
  if byteStart = byteEnd then
    let mask :=
      maskTo (byteSize - bitPosition startFrame) ||| maskFrom (bitPosition incEndFrame + 1)
    let ptr := p.bitmap.start + byteEnd
    { p with mem := setByte p.mem ptr (p.mem ptr &&& mask), usedFrames := usedFrames }
  else
    let start := p.bitmap.start + byteStart
    let end_ := p.bitmap.start + byteEnd
    let m := setByte p.mem start (p.mem start &&& maskTo (byteSize - bitPosition startFrame))
    let m := (setRange tier .allZeros m (start + 1) end_).mem
    let m := setByte m end_ (m end_ &&& maskFrom (bitPosition incEndFrame + 1))
    { p with mem := m, usedFrames := usedFrames }

/-- `is_frame_range_used`. -/
def isFrameRangeUsed (p : Pmm) (startFrame endFrame : ℕ) : Bool :=
  let startByte := bitmapIndex startFrame
  let incEndFrame := endFrame - 1
  let endByte := bitmapIndex incEndFrame
  if startByte = endByte then
    let mask := maskFrom (bitPosition startFrame) &&&
      maskTo (bitMaxPos - bitPosition incEndFrame)
    p.mem (p.bitmap.start + startByte) &&& mask = mask
  else
    let frontMask := maskFrom (bitPosition startFrame)
    if p.mem (p.bitmap.start + startByte) &&& frontMask ≠ frontMask then false
    else
      let end_ := p.bitmap.start + endByte
      if findFreeByte p.mem (p.bitmap.start + (startByte + 1)) end_ ≠ nullptr then false
      else
        let endMask := maskTo (bitMaxPos - bitPosition incEndFrame)
        p.mem end_ &&& endMask = endMask

/-- `find_contiguous_frames_32`, `find_contiguous_frames_sse2` and
`find_contiguous_frames_avx2`: one sweep from the hint to the end, and if it finds
nothing another one up to the hint, with the run length reset. -/
def findContiguousFrames (tier : Tier) (p : Pmm) (frames : ℕ) : AllocationRun :=
  let run := (sweep tier p.mem p.bitmap.start p.bitmap.searchBegin p.bitmap.end_ frames ⟨0, 0⟩).run
  if run.length < frames then
    (sweep tier p.mem p.bitmap.start p.bitmap.start p.bitmap.searchBegin frames
      { run with length := 0 }).run
  else run

/-! ### Initialization -/

/-- `e820_memory_type`. Firmware may report any 32-bit value. -/
inductive E820MemoryType where
  | usable
  | reserved
  | acpiReclaimable
  | acpiNvs
  | badMemory
  | unnamed (value : BitVec 32)
  deriving DecidableEq

/-- `e820_entry`. -/
structure E820Entry where
  base : BitVec 64
  length : BitVec 64
  type : E820MemoryType
  deriving DecidableEq

/-- The highest end of a usable entry. -/
def highestAddress (map : List E820Entry) : ℕ :=
  map.foldl (fun highest entry =>
    if entry.type = .usable then max highest (entry.base + entry.length).toNat else highest) 0

/-- All frames a 32-bit address can name, frame 0 included. -/
def accessableFrames : ℕ := ((2 ^ 32 - 1) >>> frameShift) + 1

/-- The value `pmm_initialize` gives `g_total_frames`. -/
def totalFramesOf (map : List E820Entry) : ℕ :=
  min (highestAddress map >>> frameShift) accessableFrames

/-- One turn of the loop over `g_reserved`: free the piece before the region, then
skip the region. -/
def freePiece (tier : Tier) (uEnd : ℕ) (s : Pmm × ℕ) (reserved : ReservedVector) : Pmm × ℕ :=
  let pieceEnd := min reserved.base uEnd
  let p := if s.2 < pieceEnd then freeFrameRange tier s.1 s.2 pieceEnd else s.1
  (p, max s.2 (usize (reserved.base + reserved.length)))

/-- The frames wholly inside an entry, `[startFrame, endFrame)`. -/
def entryFrames (totalFrames : ℕ) (entry : E820Entry) : ℕ × ℕ :=
  (min ((entry.base + BitVec.ofNat 64 (frameSize - 1)).toNat >>> frameShift) totalFrames,
    min ((entry.base + entry.length).toNat >>> frameShift) totalFrames)

/-- The body of the second loop of `pmm_initialize`: the frames of a usable entry
are freed, less the reserved regions. -/
def freeEntry (tier : Tier) (p : Pmm) (entry : E820Entry) : Pmm :=
  if entry.type = .usable then
    let (startFrame, endFrame) := entryFrames p.totalFrames entry
    if startFrame < endFrame then
      let s := [p.reserved0, p.reserved1].foldl (freePiece tier endFrame) (p, startFrame)
      if s.2 < endFrame then freeFrameRange tier s.1 s.2 endFrame else s.1
    else p
  else p

/-- The state of `pmm_initialize` before its second loop: every frame is used. -/
def initialBitmap (tier : Tier) (mem : ByteMem) (map : List E820Entry)
    (kernelStart kernelEnd : ℕ) : Pmm :=
  let totalFrames := totalFramesOf map
  let start := kernelEnd
  let end_ := usize (start + bitmapIndex (totalFrames + 7))
  let kernelStartIndex := frameIndex kernelStart
  let kernelEndIndex := frameIndex (usize (end_ + (frameSize - 1)))
  { mem := (setRange tier .allOnes mem start end_).mem
    usedFrames := totalFrames
    totalFrames := totalFrames
    bitmap := ⟨start, end_, start⟩
    -- the base of the first region is zero because `.bss` is cleared
    reserved0 := ⟨0, 1⟩
    reserved1 := ⟨kernelStartIndex, usizeSub kernelEndIndex kernelStartIndex⟩ }

/-- `pmm_initialize`. -/
def pmmInitialize (tier : Tier) (mem : ByteMem) (map : List E820Entry)
    (kernelStart kernelEnd : ℕ) : Pmm :=
  map.foldl (freeEntry tier) (initialBitmap tier mem map kernelStart kernelEnd)

/-! ### The public calls -/

/-- The branch-free choice of the lower of a candidate and the search hint. -/
def lowerHint (candidate hint : ℕ) : ℕ :=
  let mask : BitVec 32 := if candidate < hint then BitVec.allOnes 32 else 0
  ((BitVec.ofNat 32 candidate &&& mask) ||| (BitVec.ofNat 32 hint &&& ~~~mask)).toNat

/-- `pmm_allocate_frame`. -/
def pmmAllocateFrame (p : Pmm) : Option ℕ × Pmm :=
  let hint := p.bitmap.searchBegin
  let upper := findFreeByte p.mem hint p.bitmap.end_
  let bytePtr := if upper = nullptr then findFreeByte p.mem p.bitmap.start hint else upper
  if bytePtr = nullptr then (none, p)
  else
    let bitIndex := trailingZeros (~~~(p.mem bytePtr))
    let (value, p) := setFrameUsed p bytePtr (p.mem bytePtr) bitIndex
    let searchBegin := bytePtr + (if value = 0xFF then 1 else 0)
    let framePos := usize ((bytePtr - p.bitmap.start) <<< bitsPerByteShift)
    (some (frameAddress (framePos + bitIndex)),
      { p with bitmap := { p.bitmap with searchBegin := searchBegin } })

/-- `pmm_free_frame`. -/
def pmmFreeFrame (p : Pmm) (address : ℕ) : PmmResult × Pmm :=
  let index := frameIndex address
  if p.totalFrames ≤ index then (.outOfRange, p)
  else if usizeSub index p.reserved0.base < p.reserved0.length ∨
      usizeSub index p.reserved1.base < p.reserved1.length then (.reserved, p)
  else
    let bytePtr := p.bitmap.start + bitmapIndex index
    let bitIndex := bitPosition index
    if !isFrameUsed p.mem bytePtr bitIndex then (.failed, p)
    else
      let p := setFrameFree p bytePtr bitIndex
      (.success,
        { p with
          bitmap := { p.bitmap with searchBegin := lowerHint bytePtr p.bitmap.searchBegin } })

/-- `pmm_allocate_contiguous_frames`. -/
def pmmAllocateContiguousFrames (tier : Tier) (p : Pmm) (frames : ℕ) : Option ℕ × Pmm :=
  if frames = 0 then (none, p)
  else
    let run := findContiguousFrames tier p frames
    if run.length < frames then (none, p)
    else
      let byteStart := bitmapIndex run.startFrame
      let incEndFrame := run.startFrame + frames - 1
      let byteEnd := bitmapIndex incEndFrame
      let end_ := p.bitmap.start + byteEnd
      let frontMask := maskFrom (bitPosition run.startFrame)
      let endMask := maskTo (bitMaxPos - bitPosition incEndFrame)
      let (m, value) :=
        -- one byte, or the first byte, those between and the last one
        if byteStart = byteEnd then (p.mem, p.mem end_ ||| (frontMask &&& endMask))
        else
          let start := p.bitmap.start + byteStart
          let m := setByte p.mem start (p.mem start ||| frontMask)
          ((setRange tier .allOnes m (start + 1) end_).mem, p.mem end_ ||| endMask)
      -- the last byte written may be full now
      let searchBegin := end_ + (if value = 0xFF then 1 else 0)
      (some (frameAddress run.startFrame),
        { p with
          mem := setByte m end_ value
          usedFrames := usize (p.usedFrames + frames)
          bitmap := { p.bitmap with searchBegin := searchBegin } })

/-- `pmm_free_contiguous_frames`. -/
def pmmFreeContiguousFrames (tier : Tier) (p : Pmm) (address frames : ℕ) : PmmResult × Pmm :=
  if frames = 0 then (.zeroFrames, p)
  else
    let index := frameIndex address
    if p.totalFrames ≤ index ∨ usizeSub p.totalFrames index < frames then (.outOfRange, p)
    else if usizeSub index p.reserved0.base < p.reserved0.length ∨
        usizeSub p.reserved0.base index < frames ∨
        usizeSub index p.reserved1.base < p.reserved1.length ∨
        usizeSub p.reserved1.base index < frames then (.reserved, p)
    else
      let excludedEndFrame := index + frames
      if !isFrameRangeUsed p index excludedEndFrame then (.failed, p)
      else
        let p := freeFrameRange tier p index excludedEndFrame
        let searchCandidate := p.bitmap.start + bitmapIndex index
        (.success,
          { p with
            bitmap := { p.bitmap with
              searchBegin := lowerHint searchCandidate p.bitmap.searchBegin } })

/-- `pmm_free_frames`. -/
def pmmFreeFrames (p : Pmm) : ℕ := usizeSub p.totalFrames p.usedFrames

end BareMetal
