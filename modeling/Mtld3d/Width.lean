import Mathlib.Data.Nat.Notation

namespace Mtld3d

def u32Max : ℕ := 4294967295

/-- Pointer width of a linkage unit; the same code runs in units of both kinds. -/
inductive PointerWidth
  | bits32
  | bits64
  deriving DecidableEq, Repr

namespace PointerWidth

def usizeMax : PointerWidth → ℕ
  | bits32 => 4294967295
  | bits64 => 18446744073709551615

def isizeMax : PointerWidth → ℕ
  | bits32 => 2147483647
  | bits64 => 9223372036854775807

theorem usizeMax_lt (t : PointerWidth) : t.usizeMax < 18446744073709551616 := by
  cases t <;> decide

end PointerWidth

end Mtld3d
