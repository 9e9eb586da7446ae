import BareMetal.Tools.Builtin
import Mathlib.Data.List.AList

/-!
# The stack calculator

A host-side tool computes how much stack the kernel may need. It has the call graph in a
map `u_map` from the mangled name of a function to its node, the frame size and the names
of the callees, and walks it from the functions it has a list of.

The interrupt stack has to hold the deepest handler. Some handlers call others through
pointers, which the compiler's graph shows as calls of a node `__indirect_call`. So the
handlers come in two arrays. The first pass takes the maximum over those that do not
go through a pointer and makes it the frame size of `__indirect_call`; the second goes
on with those that do.

Every function here is `noexcept`, so an exception of `at` that nothing catches ends the
program. That is the result `none`. Neither does a recursion that runs out of `fuel`
return.
-/

namespace BareMetal

/-! ### The graph -/

/-- `color`. -/
inductive Color where
  | white
  | gray
  | black
  deriving DecidableEq, Repr

/-- `graph_ci`. -/
structure GraphCi where
  children : List String
  frameSize : ℕ
  dist : ℕ := 0
  col : Color := .white
  title : String := ""
  deriving DecidableEq, Repr

/-- The type of `u_map`, its entries in the order of iteration. -/
abbrev UMap := AList fun _ : String => GraphCi

/-! ### The handlers -/

def undependedInterruptMethodsSize : ℕ := 13

/-- `undepended_interrupt_methods`. -/
def undependedInterruptMethods : List String :=
  ["_ZN6kernel22handle_timer_interruptEPNS_15interrupt_frameE",
    "_ZN6driver8keyboard25handle_keyboard_interruptEPN6kernel15interrupt_frameE",
    "io/vga_text_buffer.cpp:_ZN12_GLOBAL__N_1L9use_sse_2EPVmtm",
    "io/vga_text_buffer.cpp:_ZN12_GLOBAL__N_1L9use_avx_2EPVmtm",
    "io/vga_text_buffer.cpp:_ZN12_GLOBAL__N_1L13fallback_fillEPVmtm",
    "io/vga_text_buffer.cpp:_ZN12_GLOBAL__N_1L14use_sse_2_copyEPVKmPVmt",
    "io/vga_text_buffer.cpp:_ZN12_GLOBAL__N_1L14use_avx_2_copyEPVKmPVmt",
    "io/vga_text_buffer.cpp:_ZN12_GLOBAL__N_1L13fallback_copyEPVKmPVmt",
    "_ZN8terminal3decERNS_6outputE",
    "_ZN8terminal3hexERNS_6outputE",
    "_ZN8terminal10bool_alphaERNS_6outputE",
    "_ZN8terminal13bool_no_alphaERNS_6outputE",
    "kernel/pmm.cpp:_ZN12_GLOBAL__N_1L25find_contiguous_frames_32EPNS_14allocation_runEm",
    "kernel/pmm.cpp:_ZN12_GLOBAL__N_1L27find_contiguous_frames_sse2EPNS_14allocation_runEm",
    "kernel/pmm.cpp:_ZN12_GLOBAL__N_1L27find_contiguous_frames_avx2EPNS_14allocation_runEm",
    "kernel/pmm.cpp:_ZN12_GLOBAL__N_1L18set_frames_free_32EPhPKh",
    "kernel/pmm.cpp:_ZN12_GLOBAL__N_1L20set_frames_free_sse2EPhPKh",
    "kernel/pmm.cpp:_ZN12_GLOBAL__N_1L20set_frames_free_avx2EPhPKh"]

def dependedInterruptMethodsSize : ℕ := 2

/-- `depended_interrupt_methods`. -/
def dependedInterruptMethods : List String :=
  ["kernel/exceptions.cpp:_ZN12_GLOBAL__N_1L20handle_cpu_exceptionEPN6kernel15interrupt_frameE",
   "kernel/exceptions.cpp:_ZN12_GLOBAL__N_1L25default_interrupt_handlerEPN6kernel15interrupt_frameE"]

def indirectCall : String := "__indirect_call"

/-! ### The depth of a function -/

/-- Truncation to `uint64_t`. -/
def u64 (x : ℕ) : ℕ := x % 2 ^ 64

/-- Truncation to `uint32_t`. -/
def u32 (x : ℕ) : ℕ := x % 2 ^ 32

/-- The loop of `get_subtree_depth` over the children, given what it does with one. -/
def maxDepth (depth : String → Option ℕ) : List String → (kernelDist : ℕ) → Option ℕ
  | [], kernelDist => some kernelDist
  | child :: children, kernelDist => do
    let d ← depth child
    maxDepth depth children (max kernelDist d)

/-- `get_subtree_depth`. -/
def getSubtreeDepth (uMap : UMap) : (fuel : ℕ) → GraphCi → Option ℕ
  | 0, _ => none
  | fuel + 1, node => do
    let kernelDist ← maxDepth (fun child => (uMap.lookup child).bind (getSubtreeDepth uMap fuel))
      node.children 0
    some (u64 (node.frameSize + kernelDist))

namespace UMap

/-- The fuel of a walk: as many levels as there are functions. -/
def fuel (uMap : UMap) : ℕ := uMap.entries.length

/-- `get_subtree_depth(&u_map.at(name))`. -/
def subtreeDepth (uMap : UMap) (name : String) : Option ℕ :=
  (uMap.lookup name).bind (getSubtreeDepth uMap uMap.fuel)

/-- The frame size of a node is overwritten, through a pointer to it. -/
def setFrameSize (uMap : UMap) (name : String) (frameSize : ℕ) : UMap :=
  match uMap.lookup name with
  | some node => uMap.replace name { node with frameSize := frameSize }
  | none => uMap

end UMap

/-! ### The interrupt stack -/

/-- What is printed for a handler that is not in the map; `what` is the text of the
exception of `at`. -/
def doesNotExist (what name : String) : String := what ++ "\n" ++ name ++ " does not exist\n\n"

/-- One pass over handlers: the stack size so far, and what was printed so far. -/
def stackSizePass (what : String) (uMap : UMap) : List String → ℕ × String → Option (ℕ × String)
  | [], r => some r
  | name :: names, r =>
    match uMap.lookup name with
    -- the exception of `at` is caught, one of `get_subtree_depth` never gets out of it
    | none => stackSizePass what uMap names (r.1, r.2 ++ doesNotExist what name)
    | some node => do
      let d ← getSubtreeDepth uMap uMap.fuel node
      stackSizePass what uMap names (max r.1 d, r.2)

/-- What a pass leaves: the stack size, what was printed, and the map with the weight of
`__indirect_call`. -/
structure StackSize where
  stackSize : ℕ
  out : String
  uMap : UMap

/-- The first pass, and the weight it gives to `__indirect_call`. -/
def firstPass (what : String) (uMap : UMap) : Option StackSize := do
  let _ ← uMap.lookup indirectCall
  let r ← stackSizePass what uMap
    (undependedInterruptMethods.take undependedInterruptMethodsSize) (0, "")
  some ⟨r.1, r.2, uMap.setFrameSize indirectCall (u32 r.1)⟩

/-- The second pass, from what the first one left. -/
def secondPass (what : String) (s : StackSize) : Option StackSize := do
  let r ← stackSizePass what s.uMap
    (dependedInterruptMethods.take dependedInterruptMethodsSize) (s.stackSize, s.out)
  some ⟨r.1, r.2, s.uMap.setFrameSize indirectCall (u32 r.1)⟩

/-- `get_interrupt_stack_size`: the value returned is `stackSize`. -/
def getInterruptStackSize (what : String) (uMap : UMap) : Option StackSize :=
  (firstPass what uMap).bind (secondPass what)

end BareMetal
