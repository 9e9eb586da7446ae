import BareMetal.Boot.KernelImage
import BareMetal.Pmm.Manager

/-!
# Memory detection

In real mode the second stage of the boot loader asks the firmware for the memory map, an
entry at a time: each reply has the value that asks for the next one. The entries go to fixed
low addresses with their number in front of them, which is where the kernel looks for them in
protected mode. Nothing but the size of the firmware's list keeps the table from the stack of
the boot loader, which is above it.

A `Firmware` is what answers the two interrupts of the boot loader; `Serves` is what is
documented of one with a given list. Then the kernel reads this list back
(`detectMemory_spec`), and the whole way from the disk to `kernel_main` is `kernel_booted`.
-/

namespace BareMetal

open Framework

/-- What `int $0x15` returns. -/
structure E820Reply where
  carry : Bool
  eax : BitVec 32
  ebx : BitVec 32
  mem : ByteMem

/-- The two services of the firmware: `int $0x13` by the number of sectors, the first sector
and `es:bx`, with the carry flag; `int $0x15` for `E820` by `ebx` and `es:di`. And whether it
leaves the gate of the address line 20 open. -/
structure Firmware where
  int13 : BitVec 8 → BitVec 8 → ℕ → ByteMem → Bool × ByteMem
  int15 : BitVec 32 → ℕ → ByteMem → E820Reply
  a20 : Bool

def e820Magic : BitVec 32 := 0x534D4150
def e820EntrySize : BitVec 16 := 20
def e820CountAddress : ℕ := 0x500
def e820EntriesAddress : ℕ := 0x502

/-- Where `call detect_memory` pushes the address to return to. -/
def sp16Stage2 : ℕ := 0x7A00 - 2

/-! ### The boot loader -/

section BootLoader

variable (bios : Firmware)

/-- `.e820_loop`, with `ebx` and `di`. -/
def e820Loop : ℕ → BitVec 32 → BitVec 16 → ByteMem → Option ByteMem
  | 0, _, _, _ => none
  | fuel + 1, ebx, di, m =>
    let r := bios.int15 ebx di.toNat m
    if r.carry then some r.mem
    else if r.eax ≠ e820Magic then some r.mem
    else
      let m := store r.mem 2 e820CountAddress (load r.mem 2 e820CountAddress + (1 : BitVec 16))
      let di := di + e820EntrySize
      if r.ebx = 0 then some m else e820Loop fuel r.ebx di m

/-- `detect_memory`. -/
def detectMemory (fuel : ℕ) (m : ByteMem) : Option ByteMem :=
  e820Loop bios fuel 0 (BitVec.ofNat 16 e820EntriesAddress)
    (store m 2 e820CountAddress (0 : BitVec 16))

/-- `_start_stage_2`, up to protected mode: the call returns if the address is still there. -/
def startStage2 (returnAddress : BitVec 16) (fuel : ℕ) (m : ByteMem) : Option ByteMem := do
  let m ← detectMemory bios fuel (store m 2 sp16Stage2 returnAddress)
  if load m 2 sp16Stage2 = returnAddress then some m else none

/-- `_start` of the first stage: without the sectors it ends in `disk_error`. -/
def startStage1 (sectors : BitVec 8) (m : ByteMem) : Option ByteMem :=
  let (carry, m) := bios.int13 sectors 2 0x7E00 m
  if carry then none else some m

end BootLoader

/-! ### The kernel -/

/-- `e820_memory_type`, by its value. -/
def E820MemoryType.ofValue (value : BitVec 32) : E820MemoryType :=
  if value = 1 then .usable
  else if value = 2 then .reserved
  else if value = 3 then .acpiReclaimable
  else if value = 4 then .acpiNvs
  else if value = 5 then .badMemory
  else .unnamed value

/-- An `e820_entry` in memory. -/
def e820EntryAt (m : ByteMem) (a : ℕ) : E820Entry :=
  ⟨load m 8 a, load m 8 (a + 8), .ofValue (load m 4 (a + 16))⟩

/-- `get_e820_memory_map`, as the entries that the map points to. -/
def getE820MemoryMap (m : ByteMem) : List E820Entry :=
  let count : BitVec 16 := load m 2 e820CountAddress
  (List.range count.toNat).map fun i => e820EntryAt m (e820EntriesAddress + 20 * i)

/-! ### The firmware -/

/-- The memory that the firmware leaves alone: what is between its data and its `stack`, and
what is from the stack of the boot loader up to `top`. -/
def BootMemory (stack top x : ℕ) : Prop := 0x500 ≤ x ∧ x < stack ∨ sp16Stage2 ≤ x ∧ x < top

/-- The firmware has this list of entries. It starts at the value zero; a reply has the
signature, the entry, and the value for the next one. The last reply has the value zero, or
there is one more that fails. -/
structure Firmware.Serves (bios : Firmware) (stack top : ℕ) (entries : List E820Entry) where
  next : ℕ → BitVec 32
  next_zero : next 0 = 0
  next_ne_zero : ∀ i, 0 < i → i < entries.length → next i ≠ 0
  reply : ∀ (i : ℕ) (h : i < entries.length) (a : ℕ) (m : ByteMem),
    (bios.int15 (next i) a m).carry = false ∧ (bios.int15 (next i) a m).eax = e820Magic ∧
      (bios.int15 (next i) a m).ebx = next (i + 1) ∧
      e820EntryAt (bios.int15 (next i) a m).mem a = entries[i]
  ends : (entries ≠ [] ∧ next entries.length = 0) ∨ ∀ a m,
    (bios.int15 (next entries.length) a m).carry = true ∨
      (bios.int15 (next entries.length) a m).eax ≠ e820Magic
  frame : ∀ ebx a m x, BootMemory stack top x → ¬ (a ≤ x ∧ x < a + 20) →
    (bios.int15 ebx a m).mem x = m x

/-! ### The table -/

/-- The first `i` entries are in the table. -/
structure Table (entries : List E820Entry) (i : ℕ) (m : ByteMem) : Prop where
  count : load m 2 e820CountAddress = BitVec.ofNat 16 i
  entry : ∀ (j : ℕ) (h : j < entries.length), j < i →
    e820EntryAt m (e820EntriesAddress + 20 * j) = entries[j]

theorem e820EntryAt_congr {m m' : ByteMem} {a : ℕ} (h : ∀ x, a ≤ x → x < a + 20 → m' x = m x) :
    e820EntryAt m' a = e820EntryAt m a := by
  unfold e820EntryAt
  rw [load_congr fun x hx hx' => h x hx (by omega),
    load_congr fun x hx hx' => h x (by omega) (by omega),
    load_congr fun x hx hx' => h x (by omega) (by omega)]

/-- A full table is read back. -/
theorem Table.getE820MemoryMap_eq {entries : List E820Entry} {m : ByteMem}
    (h : Table entries entries.length m) (hlt : entries.length < 2 ^ 16) :
    getE820MemoryMap m = entries := by
  unfold getE820MemoryMap
  simp only [h.count, BitVec.toNat_ofNat, Nat.mod_eq_of_lt hlt]
  apply List.ext_getElem
  · rw [List.length_map, List.length_range]
  · intro i hi hi'
    rw [List.getElem_map, List.getElem_range]
    exact h.entry i hi' hi'

/-- Only the bytes of the table matter. -/
theorem getE820MemoryMap_congr {m m' : ByteMem}
    (h : ∀ x, 0x500 ≤ x → x < 0x502 + 20 * (getE820MemoryMap m).length → m' x = m x) :
    getE820MemoryMap m' = getE820MemoryMap m := by
  have hcount : load m' 2 e820CountAddress = load m 2 e820CountAddress :=
    load_congr fun x hx hx' => h x hx (lt_of_lt_of_le hx' (Nat.le_add_right _ _))
  unfold getE820MemoryMap at h ⊢
  rw [hcount]
  rw [List.length_map, List.length_range] at h
  apply List.map_congr_left
  intro i hi
  have hi := List.mem_range.mp hi
  unfold e820EntriesAddress
  exact e820EntryAt_congr fun x hx hx' => h x (by omega) (by omega)

section Detection

variable {bios : Firmware} {stack top : ℕ} {entries : List E820Entry}
  (h : bios.Serves stack top entries) (hroom : 0x502 + 20 * (entries.length + 1) ≤ stack)

include h hroom

/-- A reply that fails leaves the table as it is. -/
theorem Table.reply_last {i : ℕ} {m : ByteMem} (ht : Table entries i m) (hi : i ≤ entries.length)
    (ebx : BitVec 32) :
    Table entries i (bios.int15 ebx (e820EntriesAddress + 20 * i) m).mem := by
  unfold e820EntriesAddress
  have hframe {x : ℕ} (hx : 0x500 ≤ x) (hx' : x < 0x502 + 20 * i) :
      (bios.int15 ebx (0x502 + 20 * i) m).mem x = m x :=
    h.frame ebx _ m x (.inl ⟨hx, by omega⟩) (by omega)
  refine ⟨?_, ?_⟩
  · rw [← ht.count]
    exact load_congr fun x hx hx' => hframe hx (by unfold e820CountAddress at hx'; omega)
  · intro j hj hji
    rw [← ht.entry j hj hji]
    unfold e820EntriesAddress
    exact e820EntryAt_congr fun x hx hx' => hframe (by omega) (by omega)

/-- A reply with an entry, and the new count, make the table longer. -/
theorem Table.reply_next {i : ℕ} {m : ByteMem} (ht : Table entries i m) (hi : i < entries.length) :
    let r := bios.int15 (h.next i) (e820EntriesAddress + 20 * i) m
    Table entries (i + 1)
      (store r.mem 2 e820CountAddress (load r.mem 2 e820CountAddress + (1 : BitVec 16))) := by
  intro r
  have hkept : Table entries i r.mem := ht.reply_last h hroom hi.le (h.next i)
  refine ⟨?_, ?_⟩
  · rw [load_store, hkept.count]
    exact (BitVec.ofNat_add i 1).symm
  · intro j hj hji
    -- the count is below the entries
    rw [e820EntryAt_congr (m := r.mem) fun x hx _ => store_outside _ (.inr (by
      unfold e820EntriesAddress at hx
      unfold e820CountAddress
      omega))]
    by_cases hlast : j = i
    · subst hlast
      exact (h.reply j hj _ m).2.2.2
    · exact hkept.entry j hj (by omega)

variable (hstack : stack ≤ sp16Stage2)
include hstack

/-- What the loop keeps: the stack of the boot loader and what is behind it. -/
theorem e820Loop_spec (fuel : ℕ) {i : ℕ} {m : ByteMem} (ht : Table entries i m)
    (hi : i ≤ entries.length) (hlast : i < entries.length ∨ h.next i ≠ 0 ∨ entries = [])
    (hfuel : entries.length - i < fuel) :
    ∃ m', e820Loop bios fuel (h.next i) (BitVec.ofNat 16 (e820EntriesAddress + 20 * i)) m
        = some m' ∧
      Table entries entries.length m' ∧ ∀ x, sp16Stage2 ≤ x → x < top → m' x = m x := by
  -- on the calls that are left; `ebx` and `di` are those of the entry to come
  induction fuel generalizing i m with
  | zero => omega
  | succ fuel ih =>
    have hstack' : stack ≤ 0x79FE := hstack
    have hdi : (BitVec.ofNat 16 (e820EntriesAddress + 20 * i)).toNat
        = e820EntriesAddress + 20 * i :=
      Nat.mod_eq_of_lt (by unfold e820EntriesAddress; omega)
    -- the firmware writes neither the stack nor anything from there to `top`
    have hframe {x : ℕ} (hx : sp16Stage2 ≤ x) (hx' : x < top) :
        (bios.int15 (h.next i) (e820EntriesAddress + 20 * i) m).mem x = m x := by
      refine h.frame _ _ m x (.inr ⟨hx, hx'⟩) ?_
      unfold sp16Stage2 at hx
      unfold e820EntriesAddress
      omega
    unfold e820Loop
    simp only [hdi]
    by_cases hmore : i < entries.length
    · obtain ⟨hcarry, heax, hebx, -⟩ := h.reply i hmore (e820EntriesAddress + 20 * i) m
      have htable := ht.reply_next h hroom hmore
      -- nor is the count there, which is stored after each call
      have hkept {x : ℕ} (hx : sp16Stage2 ≤ x) (v : BitVec 16) :
          store (bios.int15 (h.next i) (e820EntriesAddress + 20 * i) m).mem 2 e820CountAddress v x
            = (bios.int15 (h.next i) (e820EntriesAddress + 20 * i) m).mem x :=
        store_outside _ (.inr (le_trans (by decide) hx))
      rw [hcarry, if_neg Bool.false_ne_true, if_neg (not_not.mpr heax), hebx]
      by_cases hzero : h.next (i + 1) = 0
      · -- the last entry, since only its value is zero
        have hend : i + 1 = entries.length := by
          by_contra hne
          exact h.next_ne_zero (i + 1) (Nat.succ_pos i) (by omega) hzero
        rw [if_pos hzero]
        refine ⟨_, rfl, hend ▸ htable, ?_⟩
        intro x hx hx'
        rw [hkept hx, hframe hx hx']
      · rw [if_neg hzero]
        have hnext : BitVec.ofNat 16 (e820EntriesAddress + 20 * i) + e820EntrySize
            = BitVec.ofNat 16 (e820EntriesAddress + 20 * (i + 1)) := (BitVec.ofNat_add ..).symm
        rw [hnext]
        obtain ⟨m', hrun, hfull, hrest⟩ :=
          ih htable hmore (.inr (.inl hzero)) (by omega)
        refine ⟨m', hrun, hfull, ?_⟩
        intro x hx hx'
        rw [hrest x hx hx', hkept hx, hframe hx hx']
    · -- the reply behind the last entry fails
      obtain rfl : i = entries.length := by omega
      have hkept := ht.reply_last h hroom hi (h.next entries.length)
      -- the last value was not zero, so the end is told by the carry or by the signature
      have hfails : ∀ a m, (bios.int15 (h.next entries.length) a m).carry = true ∨
          (bios.int15 (h.next entries.length) a m).eax ≠ e820Magic := by
        refine h.ends.resolve_left ?_
        rintro ⟨hne, hzero⟩
        exact hlast.elim (absurd · (lt_irrefl _)) (·.elim (· hzero) hne)
      refine ⟨_, ?_, hkept, fun x hx hx' => hframe hx hx'⟩
      rcases hfails (e820EntriesAddress + 20 * entries.length) m with hcarry | heax
      · rw [hcarry, if_pos rfl]
      · rw [if_pos heax, ite_self]

/-- **The map is detected.** The table is the firmware's list, and the boot loader is as it
was. -/
theorem detectMemory_spec {fuel : ℕ} (hfuel : entries.length < fuel) (m : ByteMem) :
    ∃ m', detectMemory bios fuel m = some m' ∧ getE820MemoryMap m' = entries ∧
      ∀ x, sp16Stage2 ≤ x → x < top → m' x = m x := by
  have hempty : Table entries 0 (store m 2 e820CountAddress (0 : BitVec 16)) :=
    ⟨load_store m 2 e820CountAddress _, fun j _ hj => absurd hj (Nat.not_lt_zero j)⟩
  have hlast : 0 < entries.length ∨ h.next 0 ≠ 0 ∨ entries = [] := by
    cases entries with
    | nil => exact .inr (.inr rfl)
    | cons => exact .inl (Nat.succ_pos _)
  obtain ⟨m', hrun, hfull, hrest⟩ := e820Loop_spec h hroom hstack fuel hempty (Nat.zero_le _) hlast
    hfuel
  have hstack' : stack ≤ 0x79FE := hstack
  rw [h.next_zero] at hrun
  refine ⟨m', hrun, hfull.getE820MemoryMap_eq (by omega), ?_⟩
  intro x hx hx'
  rw [hrest x hx hx']
  exact store_outside _ (.inr (le_trans (by decide) hx))

end Detection

/-! ### From the disk to the kernel -/

/-- The disk is read: the sectors behind the first one are at `0x7E00`. -/
def Firmware.Reads (bios : Firmware) (disk : ℕ → BitVec 8) (sectors : BitVec 8) : Prop :=
  ∀ m, (bios.int13 sectors 2 0x7E00 m).1 = false ∧
    ∀ i < 512 * sectors.toNat, (bios.int13 sectors 2 0x7E00 m).2 (0x7E00 + i) = disk (512 + i)

/-- From `_start` to `kernel_main`. The memory is that before the boot; of the registers, which
are those at the jump to protected mode, only the control registers matter. The boot loader
does not open the gate of the address line 20. While that is closed the copy to one megabyte
goes to the address zero instead, over the memory map, and nothing is claimed. -/
def boot (bios : Firmware) (p : Processor) (l : Layout) (sectors : BitVec 8)
    (returnAddress : BitVec 16) (fuel : ℕ) (s : BootCpu) : Option BootCpu := do
  let m ← startStage1 bios sectors s.mem
  let m ← startStage2 bios returnAddress fuel m
  let s := { s with cr0 := s.cr0 ||| 0x00000001, mem := m }
  if bios.a20 then s.pmEntry l p fuel else none

/-- What `kernel_main` finds. -/
structure Booted (l : Layout) (tier : Tier) (disk : ℕ → BitVec 8) (entries : List E820Entry)
    (s : BootCpu) : Prop where
  image : ∀ i < l.kernelSize,
    s.mem (l.kernelStart + i) = disk (512 + (l.kernelSourceImage - 0x7E00) + i)
  bss : ∀ x, l.bssStart ≤ x → x < l.bssEnd → x ≠ l.mmFlag → s.mem x = 0
  mmFlag : s.mem l.mmFlag = BitVec.ofNat 8 tier.flag
  enabled : s.Enabled tier
  stack : s.esp.toNat = l.kernelStackTop - 4 ∧ load s.mem 4 s.esp.toNat = l.returnAddress
  map : getE820MemoryMap s.mem = entries

/-- **The kernel is booted.** If the firmware reads the disk, leaves the address line 20 on, and
its list of memory regions fits between its data and its stack, then `kernel_main` is called
with the image from the disk, and `get_e820_memory_map` returns the firmware's list. -/
theorem kernel_booted {bios : Firmware} {p : Processor} {l : Layout} {disk : ℕ → BitVec 8}
    {sectors : BitVec 8} {stack top : ℕ} {entries : List E820Entry} (hp : p.Documented)
    (ha20 : bios.a20 = true) (hreads : bios.Reads disk sectors)
    (himage : l.kernelSourceImage + l.kernelSize ≤ 0x7E00 + 512 * sectors.toNat)
    (h : bios.Serves stack top entries) (hroom : 0x502 + 20 * (entries.length + 1) ≤ stack)
    (hstack : stack ≤ sp16Stage2) (htop : l.kernelSourceImage + l.kernelSize ≤ top)
    (s : BootCpu) (hcr4 : s.cr4 &&& ~~~p.cr4Bits = 0) (returnAddress : BitVec 16) {fuel : ℕ}
    (hentries : entries.length < fuel) (hcopy : l.kernelSize ≤ fuel)
    (hbss : l.bssEnd - l.bssStart < fuel) :
    ∃ s', boot bios p l sectors returnAddress fuel s = some s' ∧
      Booted l p.tier disk entries s' := by
  have hsource := l.source_ge
  have hsource_le := l.source_end_le
  have hstart := l.start_eq
  have hbss_lt := l.bssStart_lt
  have hsize := l.start_add_size
  have hroom_stack := l.stack_ge
  have hlow : stack ≤ 0x79FE := hstack
  -- the first stage
  obtain ⟨hcarry, hdisk⟩ := hreads s.mem
  let m₁ := (bios.int13 sectors 2 0x7E00 s.mem).2
  have hfirst : startStage1 bios sectors s.mem = some m₁ := by
    unfold startStage1
    simp only [hcarry]
    rfl
  -- the second stage
  let m₂ := store m₁ 2 sp16Stage2 returnAddress
  obtain ⟨m₃, hdetect, hmap, hkept⟩ := detectMemory_spec h hroom hstack hentries m₂
  have hreturn : load m₃ 2 sp16Stage2 = returnAddress := by
    rw [load_congr fun x hx hx' => hkept x hx (by unfold sp16Stage2 at hx'; omega)]
    exact load_store m₁ 2 sp16Stage2 returnAddress
  have hsecond : startStage2 bios returnAddress fuel m₁ = some m₃ := by
    unfold startStage2
    change (detectMemory bios fuel m₂).bind _ = _
    rw [hdetect, Option.bind_some, if_pos hreturn]
  -- protected mode
  let t : BootCpu := { s with cr0 := s.cr0 ||| 0x00000001, mem := m₃ }
  obtain ⟨s', hrun, hloaded⟩ := kernel_loaded l hp t hcr4 hcopy hbss
  refine ⟨s', ?_, ?_, hloaded.bss, hloaded.mmFlag, hloaded.enabled,
    ⟨hloaded.esp, hloaded.returns⟩, ?_⟩
  · unfold boot
    rw [hfirst]
    change (startStage2 bios returnAddress fuel m₁).bind _ = _
    rw [hsecond, Option.bind_some, if_pos ha20]
    exact hrun
  · intro i hi
    have hoff : l.kernelSourceImage + i = 0x7E00 + (l.kernelSourceImage - 0x7E00 + i) := by omega
    have hpast : sp16Stage2 + 2 ≤ 0x7E00 + (l.kernelSourceImage - 0x7E00 + i) := by
      unfold sp16Stage2
      omega
    rw [hloaded.image i hi, hoff, Nat.add_assoc]
    change m₃ _ = _
    rw [hkept _ (by omega) (by omega)]
    rw [show m₂ _ = m₁ _ from store_outside m₁ (.inr hpast)]
    exact hdisk _ (by omega)
  · rw [← hmap]
    refine getE820MemoryMap_congr fun x hx hx' => ?_
    rw [hmap] at hx'
    exact hloaded.frame x (by omega) (by omega) (by omega)

/-- Writes a usable region. -/
def writeUsable (m : ByteMem) (a : ℕ) (base length : BitVec 64) : ByteMem :=
  store (store (store m 8 a base) 8 (a + 8) length) 4 (a + 16) (1 : BitVec 32)

theorem e820EntryAt_writeUsable (m : ByteMem) (a : ℕ) (base length : BitVec 64) :
    e820EntryAt (writeUsable m a base length) a = ⟨base, length, .usable⟩ := by
  have hbase : load (writeUsable m a base length) 8 a = base :=
    (load_congr fun x hx hx' => (store_outside _ (.inl (by omega))).trans
      (store_outside _ (.inl (by omega)))).trans (load_store m 8 a base)
  have hlength : load (writeUsable m a base length) 8 (a + 8) = length :=
    (load_congr fun x hx hx' => store_outside _ (.inl (by omega))).trans (load_store _ 8 _ _)
  have htype : load (writeUsable m a base length) 4 (a + 16) = (1 : BitVec 32) :=
    load_store _ 4 _ _
  unfold e820EntryAt
  rw [hbase, hlength, htype]
  rfl

theorem writeUsable_outside (m : ByteMem) {a x : ℕ} (base length : BitVec 64)
    (h : ¬ (a ≤ x ∧ x < a + 20)) : writeUsable m a base length x = m x := by
  unfold writeUsable
  rw [store_outside _ (by omega), store_outside _ (by omega), store_outside _ (by omega)]

/-- A firmware with low and high memory. -/
def twoRegions : Firmware where
  int13 sectors sector a m :=
    (false, overlay m a (a + 512 * sectors.toNat) fun x =>
      BitVec.ofNat 8 (512 * (sector.toNat - 1) + (x - a)))
  int15 ebx a m :=
    if ebx = 0 then ⟨false, e820Magic, 1, writeUsable m a 0 0x9F000⟩
    else ⟨false, e820Magic, 0, writeUsable m a 0x100000 0x7F00000⟩
  a20 := true

def twoRegions_serves : twoRegions.Serves 0x7000 0x18000
    [⟨0, 0x9F000, .usable⟩, ⟨0x100000, 0x7F00000, .usable⟩] where
  next i := if i = 1 then 1 else 0
  next_zero := rfl
  next_ne_zero := by
    intro i hi hi'
    obtain rfl : i = 1 := by
      change i < 2 at hi'
      omega
    decide
  reply := by
    intro i hi a m
    match i, hi with
    | 0, _ => exact ⟨rfl, rfl, rfl, e820EntryAt_writeUsable m a _ _⟩
    | 1, _ => exact ⟨rfl, rfl, rfl, e820EntryAt_writeUsable m a _ _⟩
  ends := .inl ⟨by decide, rfl⟩
  frame := by
    intro ebx a m x _ hx
    unfold twoRegions
    simp only
    split
    · exact writeUsable_outside m _ _ hx
    · exact writeUsable_outside m _ _ hx

theorem twoRegions_reads (sectors : BitVec 8) :
    twoRegions.Reads (fun x => BitVec.ofNat 8 x) sectors := by
  intro m
  refine ⟨rfl, ?_⟩
  intro i hi
  simp only [twoRegions]
  rw [overlay_inside (by omega) (by omega), Nat.add_sub_cancel_left]
  rfl

theorem kernel_booted_twoRegions :
    ∃ s', boot twoRegions vectorProcessor threeSectors 4 0x7E10 0x1000
        (protectedMode fun _ => 0) = some s' ∧
      Booted threeSectors .avx2 (fun x => BitVec.ofNat 8 x)
        [⟨0, 0x9F000, .usable⟩, ⟨0x100000, 0x7F00000, .usable⟩] s' :=
  kernel_booted vectorProcessor_documented rfl (twoRegions_reads 4) (by decide) twoRegions_serves
    (by decide) (by decide) (by decide) _ (by decide) _ (by decide) (by decide) (by decide)

end BareMetal
