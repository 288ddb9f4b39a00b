import Mathlib.Algebra.Group.Nat.Defs
import Mtld3d.Lib.Guarded

namespace Mtld3d.GuestMem

open Lib

variable (g : Guard)

/-- The first and the last `k` of `n` bytes, both loaded before either is stored. -/
def copyEnds (k dst src n : ℕ) (m : Ram) : Option Ram := do
  let head ← g.load m src k
  let tail ← g.load m (src + (n - k)) k
  let m ← g.store m dst k head
  g.store m (dst + (n - k)) k tail

def copySmall (dst src n : ℕ) (m : Ram) : Option Ram :=
  if 32 ≤ n then copyEnds g 32 dst src n m
  else if 16 ≤ n then copyEnds g 16 dst src n m
  else if 8 ≤ n then copyEnds g 8 dst src n m
  else if 4 ≤ n then copyEnds g 4 dst src n m
  else if 2 ≤ n then copyEnds g 2 dst src n m
  else if n = 1 then copyEnds g 1 dst src n m
  else some m

/-- The loop's blocks are at 0, 64 and so on below `n - n % 64`. -/
def copyUp (dst src n : ℕ) (m : Ram) : Option Ram := do
  let m ← (List.range (n / 64)).foldlM (fun m i ↦ copyEnds g 32 (dst + 64 * i) (src + 64 * i) 64 m) m
  let fin := n - n % 64
  copySmall g (dst + fin) (src + fin) (n - fin) m

/-- The loop's blocks end at `n`, `n - 64` and so on down to `n % 64`. -/
def copyDown (dst src n : ℕ) (m : Ram) : Option Ram := do
  let m ← (List.range (n / 64)).foldlM
    (fun m i ↦ copyEnds g 32 (dst + (n - 64 * (i + 1))) (src + (n - 64 * (i + 1))) 64 m) m
  copySmall g dst src (n % 64) m

def copy (dst src n : ℕ) (m : Ram) : Option Ram :=
  if n ≤ 64 then copySmall g dst src n m else copyUp g dst src n m

def wrappingSub (a b : ℕ) : ℕ := (a + 2 ^ 64 - b) % 2 ^ 64

def copyOverlapping (dst src n : ℕ) (m : Ram) : Option Ram :=
  if n ≤ 64 then copySmall g dst src n m
  else if n ≤ wrappingSub dst src then copyUp g dst src n m
  else copyDown g dst src n m

def fillEnds (k dst : ℕ) (byte : UInt8) (n : ℕ) (m : Ram) : Option Ram := do
  let m ← g.store m dst k fun _ ↦ byte
  g.store m (dst + (n - k)) k fun _ ↦ byte

def fillSmall (dst : ℕ) (byte : UInt8) (n : ℕ) (m : Ram) : Option Ram :=
  if 32 ≤ n then fillEnds g 32 dst byte n m
  else if 16 ≤ n then fillEnds g 16 dst byte n m
  else if 8 ≤ n then fillEnds g 8 dst byte n m
  else if 4 ≤ n then fillEnds g 4 dst byte n m
  else if 2 ≤ n then fillEnds g 2 dst byte n m
  else if n = 1 then fillEnds g 1 dst byte n m
  else some m

def fill (dst : ℕ) (byte : UInt8) (n : ℕ) (m : Ram) : Option Ram := do
  let fin := if 64 < n then n - n % 64 else 0
  let m ← (List.range (fin / 64)).foldlM (fun m i ↦ fillEnds g 32 (dst + 64 * i) byte 64 m) m
  fillSmall g (dst + fin) byte (n - fin) m

def skipLines (m : Ram) (a b n : ℕ) : ℕ → ℕ → Option ℕ
  | 0, at_ => some at_
  | lines + 1, at_ =>
    if 16 ≤ n - at_ then do
      let lineA ← g.load m (a + at_) 16
      let lineB ← g.load m (b + at_) 16
      if (List.range 16).all fun i ↦ lineA i == lineB i then skipLines m a b n lines (at_ + 16) else some at_
    else some at_

def compareBytes (m : Ram) (a b : ℕ) : ℕ → ℕ → Option ℤ
  | 0, _ => some 0
  | left + 1, at_ => do
    let byteA ← g.load m (a + at_) 1
    let byteB ← g.load m (b + at_) 1
    if byteA 0 = byteB 0 then compareBytes m a b left (at_ + 1)
    else some (((byteA 0).toNat : ℤ) - ((byteB 0).toNat : ℤ))

def compare (a b n : ℕ) (m : Ram) : Option ℤ := do
  let at_ ← skipLines g m a b n (n / 16) 0
  compareBytes g m a b (n - at_) at_

end Mtld3d.GuestMem
