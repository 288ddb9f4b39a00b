import Mathlib.Tactic.Common
import Mtld3d.Width

namespace Mtld3d

structure DirtyRect where
  x : ℕ
  y : ℕ
  w : ℕ
  h : ℕ
  deriving DecidableEq, Repr, Inhabited

/-- The extent of a texture level: both sides are 32-bit, and a level has at least one texel. -/
structure LevelExtent where
  w : ℕ
  h : ℕ
  w_pos : 0 < w
  h_pos : 0 < h
  w_le : w ≤ u32Max
  h_le : h ≤ u32Max

instance : Inhabited LevelExtent := ⟨⟨1, 1, Nat.one_pos, Nat.one_pos, by decide, by decide⟩⟩

namespace DirtyRect

def clamp (r : DirtyRect) (mipW mipH : ℕ) : Option DirtyRect :=
  let x := min r.x mipW
  let y := min r.y mipH
  let right := min (min (r.x + r.w) u32Max) mipW
  let bottom := min (min (r.y + r.h) u32Max) mipH
  if right ≤ x ∨ bottom ≤ y then none else some ⟨x, y, right - x, bottom - y⟩

def Has (r : DirtyRect) (i j : ℕ) : Prop := (r.x ≤ i ∧ i < r.x + r.w) ∧ r.y ≤ j ∧ j < r.y + r.h

instance (r : DirtyRect) (i j : ℕ) : Decidable (r.Has i j) := inferInstanceAs (Decidable (_ ∧ _))

def contains (outer inner : DirtyRect) : Bool :=
  decide (outer.x ≤ inner.x) && decide (outer.y ≤ inner.y) &&
    decide (inner.x + inner.w ≤ outer.x + outer.w) && decide (inner.y + inner.h ≤ outer.y + outer.h)

structure Inside (r : DirtyRect) (level : LevelExtent) : Prop where
  w_pos : 0 < r.w
  h_pos : 0 < r.h
  right : r.x + r.w ≤ level.w
  bottom : r.y + r.h ≤ level.h

variable {rect r : DirtyRect} {level : LevelExtent} {i j : ℕ}

theorem not_has_of_clamp (h : rect.clamp level.w level.h = none) (hi : i < level.w) (hj : j < level.h) :
    ¬ rect.Has i j := by
  have hw := level.w_le
  have hh := level.h_le
  unfold clamp at h
  simp only at h
  split at h
  · intro hhas
    unfold Has at hhas
    omega
  · cases h

theorem inside_of_clamp (h : rect.clamp level.w level.h = some r) : r.Inside level := by
  unfold clamp at h
  simp only at h
  split at h
  · cases h
  · cases h
    refine ⟨?_, ?_, ?_, ?_⟩ <;> simp only <;> omega

theorem has_of_clamp (h : rect.clamp level.w level.h = some r) :
    r.Has i j ↔ rect.Has i j ∧ i < level.w ∧ j < level.h := by
  have hw := level.w_le
  have hh := level.h_le
  unfold clamp at h
  simp only at h
  split at h
  · cases h
  · cases h
    simp only [Has]
    omega

theorem Has.of_contains {outer inner : DirtyRect} (h : outer.contains inner = true) (hhas : inner.Has i j) :
    outer.Has i j := by
  simp only [contains, Bool.and_eq_true, decide_eq_true_eq] at h
  unfold Has at hhas ⊢
  omega

end DirtyRect

end Mtld3d
