import Mathlib.Data.Nat.Basic

/-!
# CPU features

The kernel asks the processor once which vector units it has and keeps the answer
in a flag. Every dispatch table of the kernel is indexed by it, so a theorem for
every `Tier` is a theorem for every table entry.
-/

namespace BareMetal

/-- The tier that `cpu::features::get()` selects: `gpr_flag`, `simd_flag` or
`avx2_flag`. -/
inductive Tier where
  | gpr
  | simd
  | avx2
  deriving DecidableEq

end BareMetal
