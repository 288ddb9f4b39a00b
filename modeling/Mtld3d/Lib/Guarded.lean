import Mathlib.Data.List.Basic

namespace Mtld3d.Lib

abbrev Ram := ℕ → UInt8

theorem foldlM_range {α : Type} {f : α → ℕ → Option α} {P : ℕ → α → Prop} {a : α} (hzero : P 0 a) {c : ℕ}
    (hstep : ∀ i < c, ∀ b, P i b → ∃ b', f b i = some b' ∧ P (i + 1) b') :
    ∃ b', (List.range c).foldlM f a = some b' ∧ P c b' := by
  induction c with
  | zero => exact ⟨a, rfl, hzero⟩
  | succ c ih =>
    obtain ⟨b, hb, hP⟩ := ih fun i hi ↦ hstep i (Nat.lt_succ_of_lt hi)
    obtain ⟨b', hb', hP'⟩ := hstep c (Nat.lt_succ_self c) b hP
    exact ⟨b', by simp [List.range_succ, hb, hb'], hP'⟩

/-- `m` is `m₀` with `bytes` at the positions `[lo, hi)` from `dst` on. -/
def Placed (m₀ : Ram) (dst : ℕ) (bytes : ℕ → UInt8) (lo hi : ℕ) (m : Ram) : Prop :=
  ∀ p, m p = if dst + lo ≤ p ∧ p < dst + hi then bytes (p - dst) else m₀ p

namespace Placed

variable {m₀ m m' : Ram} {dst lo hi lo' hi' b c : ℕ} {bytes block : ℕ → UInt8}

theorem none (m₀ : Ram) (dst : ℕ) (bytes : ℕ → UInt8) (at_ : ℕ) : Placed m₀ dst bytes at_ at_ m₀ := by
  intro p
  rw [if_neg (by omega)]

/-- A block placed against either end of what is there. -/
theorem join (h : Placed m₀ dst bytes lo hi m) (hblock : Placed m (dst + b) block 0 c m')
    (hends : lo ≤ b + c ∧ b ≤ hi ∧ lo' = min lo b ∧ hi' = max hi (b + c))
    (hbytes : ∀ i < c, block i = bytes (b + i)) : Placed m₀ dst bytes lo' hi' m' := by
  intro p
  rw [hblock p]
  by_cases hin : dst + b + 0 ≤ p ∧ p < dst + b + c
  · rw [if_pos hin, if_pos (by omega), hbytes _ (by omega)]
    congr 1
    omega
  · rw [if_neg hin, h]
    by_cases hold : dst + lo ≤ p ∧ p < dst + hi
    · rw [if_pos hold, if_pos (by omega)]
    · rw [if_neg hold, if_neg (by omega)]

end Placed

/-- The addresses an access may touch; any other access faults. -/
structure Guard where
  readable : ℕ → Bool
  writable : ℕ → Bool

namespace Guard

variable (g : Guard)

def load (m : Ram) (a k : ℕ) : Option (ℕ → UInt8) :=
  if (List.range k).all fun i ↦ g.readable (a + i) then some fun i ↦ m (a + i) else none

def store (m : Ram) (a k : ℕ) (bytes : ℕ → UInt8) : Option Ram :=
  if (List.range k).all fun i ↦ g.writable (a + i) then some fun p ↦ if a ≤ p ∧ p < a + k then bytes (p - a) else m p
  else none

def Reads (a n : ℕ) : Prop := ∀ i < n, g.readable (a + i) = true

def Writes (a n : ℕ) : Prop := ∀ i < n, g.writable (a + i) = true

variable {g} {m : Ram} {a n k b : ℕ}

theorem load_eq (h : g.Reads a k) : g.load m a k = some fun i ↦ m (a + i) :=
  if_pos (List.all_eq_true.mpr fun i hi ↦ h i (List.mem_range.mp hi))

theorem store_eq (h : g.Writes a k) (bytes : ℕ → UInt8) :
    g.store m a k bytes = some fun p ↦ if a ≤ p ∧ p < a + k then bytes (p - a) else m p :=
  if_pos (List.all_eq_true.mpr fun i hi ↦ h i (List.mem_range.mp hi))

theorem Reads.part (h : g.Reads a n) (hk : b + k ≤ n) : g.Reads (a + b) k := by
  intro i hi
  rw [Nat.add_assoc]
  exact h (b + i) (by omega)

theorem Writes.part (h : g.Writes a n) (hk : b + k ≤ n) : g.Writes (a + b) k := by
  intro i hi
  rw [Nat.add_assoc]
  exact h (b + i) (by omega)

theorem store_placed (h : g.Writes a k) (m : Ram) (bytes : ℕ → UInt8) :
    ∃ m', g.store m a k bytes = some m' ∧ Placed m a bytes 0 k m' := ⟨_, store_eq h bytes, fun _ ↦ rfl⟩

/-- Two stores that together cover `n` bytes, the first ones and the last. -/
theorem store_ends {bytes tail : ℕ → UInt8} (hk : k ≤ n) (hn : n ≤ 2 * k) (hw : g.Writes a n)
    (htail : ∀ i < k, tail i = bytes (n - k + i)) (m : Ram) :
    ∃ m', (g.store m a k bytes).bind (fun m ↦ g.store m (a + (n - k)) k tail) = some m' ∧ Placed m a bytes 0 n m' := by
  obtain ⟨mid, hmid, hfirst⟩ := store_placed (k := k) (fun i hi ↦ hw i (by omega)) m bytes
  obtain ⟨m', hm', hlast⟩ := store_placed (hw.part (b := n - k) (k := k) (by omega)) mid tail
  refine ⟨m', ?_, hfirst.join hlast (by omega) htail⟩
  rw [hmid]
  exact hm'

end Guard

end Mtld3d.Lib
