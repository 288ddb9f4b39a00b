import Mathlib.Data.List.Basic
import Mathlib.Tactic.Ring

namespace Mtld3d.Lib

open List

def toLe : ℕ → ℕ → List UInt8
  | 0, _ => []
  | w + 1, n => UInt8.ofNat n :: toLe w (n / 256)

def ofLe : List UInt8 → ℕ
  | [] => 0
  | b :: bs => b.toNat + 256 * ofLe bs

@[simp] theorem length_toLe (w n : ℕ) : (toLe w n).length = w := by
  induction w generalizing n with
  | zero => rfl
  | succ w ih => simp [toLe, ih]

theorem ofLe_toLe {w n : ℕ} (h : n < 256 ^ w) : ofLe (toLe w n) = n := by
  induction w generalizing n with
  | zero =>
    have h0 : n < 1 := by simpa using h
    simp only [toLe, ofLe]
    omega
  | succ w ih =>
    have hdiv : n / 256 < 256 ^ w := by
      rw [Nat.div_lt_iff_lt_mul (by omega)]
      simpa [pow_succ] using h
    have hbyte : (UInt8.ofNat n).toNat = n % 256 := by simp
    rw [toLe, ofLe, ih hdiv, hbyte]
    omega

variable {β : Type}

theorem slice_append {before field after : List β} {k n : ℕ} (hk : before.length = k)
    (hn : field.length = n) : ((before ++ (field ++ after)).drop k).take n = field := by
  rw [← hk, drop_left, ← hn, take_left]

def readRange (m : ℕ → β) (a n : ℕ) : List β := (List.range n).map fun i ↦ m (a + i)

def writeRange (m : ℕ → β) (a : ℕ) (bs : List β) (p : ℕ) : β :=
  if a ≤ p then (bs[p - a]?).getD (m p) else m p

@[simp] theorem length_readRange (m : ℕ → β) (a n : ℕ) : (readRange m a n).length = n := by
  simp [readRange]

theorem readRange_add (m : ℕ → β) (a n k : ℕ) :
    readRange m a (n + k) = readRange m a n ++ readRange m (a + n) k := by
  simp only [readRange, range_add, map_append, map_map]
  congr 1
  refine map_congr_left fun i _ ↦ ?_
  simp [add_assoc]

theorem readRange_congr {m m' : ℕ → β} {a n : ℕ} (h : ∀ p, a ≤ p → p < a + n → m p = m' p) :
    readRange m a n = readRange m' a n := by
  refine map_congr_left fun i hi ↦ ?_
  have hi := mem_range.mp hi
  exact h (a + i) (by omega) (by omega)

theorem writeRange_outside (m : ℕ → β) {a p : ℕ} {bs : List β} (h : p < a ∨ a + bs.length ≤ p) :
    writeRange m a bs p = m p := by
  unfold writeRange
  split_ifs with hp
  · rw [List.getElem?_eq_none (by omega)]
    rfl
  · rfl

theorem readRange_writeRange (m : ℕ → β) (a : ℕ) (bs : List β) :
    readRange (writeRange m a bs) a bs.length = bs := by
  refine ext_getElem (by simp) fun i h₁ h₂ ↦ ?_
  simp [readRange, writeRange, h₂]

theorem readRange_writeRange_outside (m : ℕ → β) {a b n : ℕ} {bs : List β}
    (h : b + n ≤ a ∨ a + bs.length ≤ b) : readRange (writeRange m a bs) b n = readRange m b n :=
  readRange_congr fun p h₁ h₂ ↦ writeRange_outside m (by omega)

end Mtld3d.Lib
