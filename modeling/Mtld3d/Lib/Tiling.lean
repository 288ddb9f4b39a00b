import Mathlib.Order.Monotone.Basic
import Mathlib.Tactic.Common

namespace Mtld3d.Lib

structure Box where
  left : ℕ
  top : ℕ
  right : ℕ
  bottom : ℕ

namespace Box

def Has (b : Box) (i j : ℕ) : Prop := (b.left ≤ i ∧ i < b.right) ∧ b.top ≤ j ∧ j < b.bottom

def Apart (b c : Box) : Prop := ∀ i j, b.Has i j → ¬ c.Has i j

def map (f g : ℕ → ℕ) (b : Box) : Box := ⟨f b.left, g b.top, f b.right, g b.bottom⟩

/-- The boxes fill `w` by `h` cells, none of them twice. -/
structure Tiles (boxes : List Box) (w h : ℕ) : Prop where
  inside : ∀ b ∈ boxes, b.right ≤ w ∧ b.bottom ≤ h
  cover : ∀ i < w, ∀ j < h, ∃ b ∈ boxes, b.Has i j
  apart : boxes.Pairwise Apart

variable {f g : ℕ → ℕ} {b c : Box} {i j n p q : ℕ}

theorem exists_cell (h0 : f 0 = 0) (hp : p < f n) : ∃ i < n, f i ≤ p ∧ p < f (i + 1) := by
  induction n with
  | zero => omega
  | succ n ih =>
    by_cases hn : p < f n
    · obtain ⟨i, hi, hcell⟩ := ih hn
      exact ⟨i, by omega, hcell⟩
    · exact ⟨n, by omega, by omega, hp⟩

theorem has_map (hf : Monotone f) (hg : Monotone g) (hb : b.Has i j) (hp : f i ≤ p ∧ p < f (i + 1))
    (hq : g j ≤ q ∧ q < g (j + 1)) : (b.map f g).Has p q := by
  obtain ⟨⟨hleft, hright⟩, htop, hbottom⟩ := hb
  exact ⟨⟨(hf hleft).trans hp.1, hp.2.trans_le (hf hright)⟩, (hg htop).trans hq.1, hq.2.trans_le (hg hbottom)⟩

theorem Apart.map (hf : Monotone f) (hg : Monotone g) (h : b.Apart c) : (b.map f g).Apart (c.map f g) := by
  intro p q hb hc
  have hleft : max b.left c.left < min b.right c.right := by
    refine max_lt (lt_min ?_ ?_) (lt_min ?_ ?_)
    · exact hf.reflect_lt (hb.1.1.trans_lt hb.1.2)
    · exact hf.reflect_lt (hb.1.1.trans_lt hc.1.2)
    · exact hf.reflect_lt (hc.1.1.trans_lt hb.1.2)
    · exact hf.reflect_lt (hc.1.1.trans_lt hc.1.2)
  have htop : max b.top c.top < min b.bottom c.bottom := by
    refine max_lt (lt_min ?_ ?_) (lt_min ?_ ?_)
    · exact hg.reflect_lt (hb.2.1.trans_lt hb.2.2)
    · exact hg.reflect_lt (hb.2.1.trans_lt hc.2.2)
    · exact hg.reflect_lt (hc.2.1.trans_lt hb.2.2)
    · exact hg.reflect_lt (hc.2.1.trans_lt hc.2.2)
  refine h (max b.left c.left) (max b.top c.top) ?_ ?_
  · exact ⟨⟨le_max_left _ _, hleft.trans_le (min_le_left _ _)⟩, le_max_left _ _, htop.trans_le (min_le_left _ _)⟩
  · exact ⟨⟨le_max_right _ _, hleft.trans_le (min_le_right _ _)⟩, le_max_right _ _,
      htop.trans_le (min_le_right _ _)⟩

theorem Tiles.map {boxes : List Box} {w h : ℕ} (hf : Monotone f) (hg : Monotone g) (hf0 : f 0 = 0) (hg0 : g 0 = 0)
    (ht : Tiles boxes w h) : Tiles (boxes.map (Box.map f g)) (f w) (g h) := by
  refine ⟨?_, fun p hp q hq ↦ ?_, ?_⟩
  · intro b' hb'
    obtain ⟨b, hb, rfl⟩ := List.mem_map.1 hb'
    exact ⟨hf (ht.inside b hb).1, hg (ht.inside b hb).2⟩
  · obtain ⟨i, hi, hcol⟩ := exists_cell hf0 hp
    obtain ⟨j, hj, hrow⟩ := exists_cell hg0 hq
    obtain ⟨b, hb, hhas⟩ := ht.cover i hi j hj
    exact ⟨b.map f g, List.mem_map_of_mem hb, has_map hf hg hhas hcol hrow⟩
  · exact List.pairwise_map.2 (ht.apart.imp fun h ↦ h.map hf hg)

end Box

end Mtld3d.Lib
