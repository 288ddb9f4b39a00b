import Mtld3d.Width
import Mathlib.Tactic.Common

namespace Mtld3d

def saturatingAdd (a b : ℕ) : ℕ := min (a + b) u32Max

structure DirtyRange where
  min : ℕ
  max : ℕ
  deriving DecidableEq, Repr

namespace DirtyRange

def empty : DirtyRange := ⟨0, 0⟩

def full (logicalLen : ℕ) : DirtyRange := ⟨0, logicalLen⟩

def isEmpty (r : DirtyRange) : Bool := decide (r.max ≤ r.min)

def span (r : DirtyRange) : Option (ℕ × ℕ) := if r.isEmpty then none else some (r.min, r.max)

def clear (_ : DirtyRange) : DirtyRange := ⟨0, 0⟩

def overlaps (r : DirtyRange) (off fin : ℕ) : Bool :=
  !r.isEmpty && decide (r.min < fin) && decide (off < r.max)

/-- Start and end of the region a `Lock` of `size` bytes at `offset` names, cut to the buffer. -/
def window (offset size logicalLen : ℕ) : ℕ × ℕ :=
  let start := if logicalLen < offset then logicalLen else offset
  let remaining := logicalLen - start
  let span := if size = 0 ∨ remaining < size then remaining else size
  (start, start + span)

def conjoin (r : DirtyRange) (offset size logicalLen : ℕ) : DirtyRange :=
  let w := window offset size logicalLen
  if w.2 ≤ w.1 then r
  else if r.isEmpty then ⟨w.1, w.2⟩
  else ⟨if w.1 < r.min then w.1 else r.min, if r.max < w.2 then w.2 else r.max⟩

def Contains (r : DirtyRange) (p : ℕ) : Prop := r.min ≤ p ∧ p < r.max

def InWindow (offset size logicalLen p : ℕ) : Prop :=
  (window offset size logicalLen).1 ≤ p ∧ p < (window offset size logicalLen).2

instance (r : DirtyRange) (p : ℕ) : Decidable (r.Contains p) := by
  unfold Contains; infer_instance

instance (offset size logicalLen p : ℕ) : Decidable (InWindow offset size logicalLen p) := by
  unfold InWindow; infer_instance

theorem window_le (offset size logicalLen : ℕ) : (window offset size logicalLen).2 ≤ logicalLen := by
  simp only [window]
  split_ifs <;> omega

variable {offset size logicalLen p : ℕ}

theorem InWindow.lt (h : InWindow offset size logicalLen p) : p < logicalLen :=
  Nat.lt_of_lt_of_le h.2 (window_le offset size logicalLen)

variable {r : DirtyRange}

theorem Contains.conjoin {p : ℕ} (h : r.Contains p) (offset size logicalLen : ℕ) :
    (r.conjoin offset size logicalLen).Contains p := by
  obtain ⟨h₁, h₂⟩ := h
  simp only [DirtyRange.conjoin, Contains, isEmpty, decide_eq_true_eq]
  split_ifs <;> constructor <;> (try dsimp only) <;> omega

theorem contains_conjoin (h : InWindow offset size logicalLen p)
    (r : DirtyRange) : (r.conjoin offset size logicalLen).Contains p := by
  obtain ⟨h₁, h₂⟩ := h
  simp only [DirtyRange.conjoin, Contains, isEmpty, decide_eq_true_eq]
  split_ifs <;> constructor <;> (try dsimp only) <;> omega

theorem conjoin_max_le {n : ℕ} (h : r.max ≤ n) {offset size logicalLen : ℕ}
    (hl : logicalLen ≤ n) : (r.conjoin offset size logicalLen).max ≤ n := by
  have hw := window_le offset size logicalLen
  simp only [DirtyRange.conjoin]
  split_ifs <;> (try dsimp only) <;> omega

theorem conjoin_of_forall_not_contains (h : ∀ p, ¬ r.Contains p) (hp : (r.conjoin offset size logicalLen).Contains p) :
    InWindow offset size logicalLen p := by
  have hempty : r.max ≤ r.min := by
    by_contra hlt
    exact h r.min ⟨Nat.le_refl _, by omega⟩
  simp only [DirtyRange.conjoin, isEmpty, hempty, decide_true, if_true] at hp
  split_ifs at hp
  · exact absurd hp (h p)
  · exact hp

theorem lt_of_contains_conjoin
    (h : ∀ q, r.Contains q → q < logicalLen) (hp : (r.conjoin offset size logicalLen).Contains p) :
    p < logicalLen := by
  by_cases hr : r.isEmpty = true
  · have hnone : ∀ q, ¬ r.Contains q := by
      rintro q ⟨h₁, h₂⟩
      simp only [isEmpty, decide_eq_true_eq] at hr
      omega
    exact (conjoin_of_forall_not_contains hnone hp).lt
  · simp only [isEmpty, decide_eq_true_eq, Nat.not_le] at hr
    have hmax : r.max ≤ logicalLen := by
      have := h (r.max - 1) ⟨by omega, by omega⟩
      omega
    exact Nat.lt_of_lt_of_le hp.2 (conjoin_max_le hmax (Nat.le_refl _))

theorem inWindow_whole {logicalLen p : ℕ} : InWindow 0 0 logicalLen p ↔ p < logicalLen := by
  simp [InWindow, window]

theorem overlaps_of_contains {p off fin : ℕ} (h : r.Contains p) (h₁ : off ≤ p)
    (h₂ : p < fin) : r.overlaps off fin = true := by
  obtain ⟨h₃, h₄⟩ := h
  simp only [overlaps, isEmpty, Bool.and_eq_true, Bool.not_eq_true', decide_eq_true_eq,
    decide_eq_false_iff_not]
  omega

theorem span_eq_some {lo hi : ℕ} (h : r.span = some (lo, hi)) : lo = r.min ∧ hi = r.max ∧ lo < hi := by
  simp only [span, isEmpty, decide_eq_true_eq] at h
  split_ifs at h with he
  · simp only [Option.some.injEq, Prod.mk.injEq] at h
    omega

theorem contains_of_span {lo hi : ℕ} (h : r.span = some (lo, hi)) (p : ℕ) : r.Contains p ↔ lo ≤ p ∧ p < hi := by
  obtain ⟨rfl, rfl, -⟩ := span_eq_some h
  rfl

theorem not_contains_of_span_none (h : r.span = none) (p : ℕ) : ¬ r.Contains p := by
  simp only [span, isEmpty, decide_eq_true_eq, ite_eq_left_iff, reduceCtorEq, imp_false, not_not] at h
  rintro ⟨h₁, h₂⟩
  omega

end DirtyRange

end Mtld3d
