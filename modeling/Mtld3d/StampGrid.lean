import Mtld3d.DirtyRange
import Mtld3d.PipelineState
import Mtld3d.Lib.Writes

namespace Mtld3d

/-- The unit a pixel format addresses: its extent in pixels and its size. -/
structure BlockLayout where
  width : ℕ
  height : ℕ
  bytes : ℕ
  width_pos : 0 < width
  height_pos : 0 < height

namespace BlockLayout

def pixel (bytes : ℕ) : BlockLayout := ⟨1, 1, bytes, by decide, by decide⟩

def compressed (bytes : ℕ) : BlockLayout := ⟨4, 4, bytes, by decide, by decide⟩

end BlockLayout

def PixelFormat.blockLayout : PixelFormat → BlockLayout
  | a8Unorm | r8Unorm => .pixel 1
  | r16Unorm | r16Float | rg8Unorm | rg8Snorm | b5G6R5Unorm | abgr4Unorm | bgr5A1Unorm => .pixel 2
  | r32Float | rg16Unorm | rg16Snorm | rg16Float | rgba8Unorm | rgba8UnormSrgb | rgba8Snorm
  | bgra8Unorm | bgra8UnormSrgb | rgb10A2Unorm | bgr10A2Unorm | depth32Float => .pixel 4
  | rg32Float | rgba16Unorm | rgba16Snorm | rgba16Float | depth32FloatStencil8 => .pixel 8
  | rgba32Float => .pixel 16
  | bc1Rgba | bc1RgbaSrgb | bc4RUnorm => .compressed 8
  | bc2Rgba | bc2RgbaSrgb | bc3Rgba | bc3RgbaSrgb => .compressed 16

inductive StorageMode
  | shared | managed | «private» | memoryless
  deriving DecidableEq, Repr

inductive Swizzle
  | zero | one | red | green | blue | alpha
  deriving DecidableEq, Repr

structure TextureCreateFlags where
  hasSwizzle : Bool
  type3d : Bool
  typeCube : Bool
  clearOnCreate : Bool
  deriving DecidableEq, Repr

structure TextureUsage where
  renderTarget : Bool
  depthStencil : Bool
  deriving DecidableEq, Repr

/-- Every field of the creation descriptor but the texture id. -/
structure VersionShape where
  width : ℕ
  height : ℕ
  depth : ℕ
  levels : ℕ
  pixelFormat : PixelFormat
  storageMode : StorageMode
  flags : TextureCreateFlags
  usage : TextureUsage
  swizzle : Vector Swizzle 4
  width_le : width ≤ u32Max
  height_le : height ≤ u32Max
  deriving DecidableEq

def levelExtent (base level : ℕ) : ℕ := max (max base 1 >>> level) 1

def divCeil (a b : ℕ) : ℕ := (a + b - 1) / b

namespace VersionShape

def slices (s : VersionShape) : ℕ := if s.flags.typeCube then 6 else 1

def levelBytes (s : VersionShape) (level : ℕ) : ℕ :=
  let block := s.pixelFormat.blockLayout
  divCeil (levelExtent s.width level) block.width * divCeil (levelExtent s.height level) block.height *
    (if s.flags.type3d then levelExtent s.depth level else 1) * block.bytes

def bytes (s : VersionShape) : ℕ :=
  (List.range s.levels).foldl (fun total level ↦ total + s.levelBytes level) 0 * s.slices

end VersionShape

structure TexelRect where
  x : ℕ
  y : ℕ
  width : ℕ
  height : ℕ
  deriving DecidableEq, Repr

namespace TexelRect

def level (width height : ℕ) : TexelRect := ⟨0, 0, width, height⟩

def Covers (r : TexelRect) (x y : ℕ) : Prop :=
  r.x ≤ x ∧ x < r.x + r.width ∧ r.y ≤ y ∧ y < r.y + r.height

instance (r : TexelRect) (x y : ℕ) : Decidable (r.Covers x y) := inferInstanceAs (Decidable (_ ∧ _))

theorem level_covers {width height x y : ℕ} : (level width height).Covers x y ↔ x < width ∧ y < height := by
  simp [level, Covers]

end TexelRect

def minTileTexels : ℕ := 16

def maxTilesPerAxis : ℕ := 32

def nextMultipleOf (a b : ℕ) : ℕ := divCeil a b * b

theorem le_nextMultipleOf {a b : ℕ} (hb : 0 < b) : a ≤ nextMultipleOf a b := by
  have hdiv := Nat.lt_div_mul_add hb (a := a + b - 1)
  rw [nextMultipleOf, divCeil]
  omega

theorem nextMultipleOf_mod (a b : ℕ) : nextMultipleOf a b % b = 0 := Nat.mul_mod_left _ _

def tileEdge (extent block : ℕ) : ℕ :=
  nextMultipleOf (max (divCeil extent maxTilesPerAxis) minTileTexels) block

structure StampGrid where
  width : ℕ
  height : ℕ
  tileWidth : ℕ
  tileHeight : ℕ
  columns : ℕ
  rows : ℕ
  newest : ℕ
  stamps : ℕ → ℕ

/-- Subtraction of unsigned machine integers: `none` where it would underflow. -/
def checkedSub (a b : ℕ) : Option ℕ := if b ≤ a then some (a - b) else none

theorem checkedSub_of_le {a b : ℕ} (h : b ≤ a) : checkedSub a b = some (a - b) := if_pos h

namespace StampGrid

def new (width height : ℕ) (block : BlockLayout) : StampGrid :=
  let tileWidth := tileEdge width block.width
  let tileHeight := tileEdge height block.height
  { width, height, tileWidth, tileHeight
    columns := divCeil width tileWidth
    rows := divCeil height tileHeight
    newest := 0
    stamps := fun _ ↦ 0 }

def fill (first last stamp : ℕ) (i : ℕ) : Option ℕ := if first ≤ i ∧ i ≤ last then some stamp else none

def stamp (g : StampGrid) (rect : TexelRect) (stamp : ℕ) : StampGrid :=
  let xEnd := min (saturatingAdd rect.x rect.width) g.width
  let yEnd := min (saturatingAdd rect.y rect.height) g.height
  if rect.x ≥ xEnd ∨ rect.y ≥ yEnd then g
  else
    let firstColumn := rect.x / g.tileWidth
    let lastColumn := (xEnd - 1) / g.tileWidth
    let firstRow := rect.y / g.tileHeight
    let lastRow := (yEnd - 1) / g.tileHeight
    { g with
      stamps := Lib.writeAll ((List.range' firstRow (lastRow + 1 - firstRow)).map fun row ↦
        fill (row * g.columns + firstColumn) (row * g.columns + lastColumn) stamp) g.stamps
      newest := stamp }

def cells (g : StampGrid) : List (ℕ × ℕ) :=
  (List.range g.rows).flatMap fun row ↦ (List.range g.columns).map fun column ↦ (row, column)

structure Bounds where
  columns : ℕ × ℕ
  rows : ℕ × ℕ

def Bounds.include (b : Bounds) (cell : ℕ × ℕ) : Bounds where
  columns := (min b.columns.1 cell.2, max b.columns.2 cell.2)
  rows := (min b.rows.1 cell.1, max b.rows.2 cell.1)

def stampAt (g : StampGrid) (cell : ℕ × ℕ) : ℕ := g.stamps (cell.1 * g.columns + cell.2)

def scan (g : StampGrid) (held : ℕ) : Bounds :=
  g.cells.foldl (fun b cell ↦ if held < g.stampAt cell then b.include cell else b) ⟨(u32Max, 0), (u32Max, 0)⟩

/-- The outer `none` is an underflow, the inner one a level nothing wrote since. -/
def writtenSince (g : StampGrid) (held : ℕ) : Option (Option TexelRect) :=
  if g.newest ≤ held then some none
  else do
    let b := g.scan held
    let x := b.columns.1 * g.tileWidth
    let y := b.rows.1 * g.tileHeight
    let xEnd := min ((b.columns.2 + 1) * g.tileWidth) g.width
    let yEnd := min ((b.rows.2 + 1) * g.tileHeight) g.height
    let width ← checkedSub xEnd x
    let height ← checkedSub yEnd y
    some (some ⟨x, y, width, height⟩)

def tileOf (g : StampGrid) (x y : ℕ) : ℕ × ℕ := (y / g.tileHeight, x / g.tileWidth)

structure WellFormed (g : StampGrid) : Prop where
  width_le : g.width ≤ u32Max
  height_le : g.height ≤ u32Max
  tileWidth_pos : 0 < g.tileWidth
  tileHeight_pos : 0 < g.tileHeight
  columns_eq : g.columns = divCeil g.width g.tileWidth
  rows_eq : g.rows = divCeil g.height g.tileHeight
  stamps_le : ∀ i, g.stamps i ≤ g.newest
  newest_hit : g.newest = 0 ∨ ∃ cell ∈ g.cells, g.stampAt cell = g.newest

end StampGrid

theorem lt_divCeil_iff {a b c : ℕ} (hb : 0 < b) : c < divCeil a b ↔ c * b < a := by
  rw [divCeil, ← Nat.succ_le_iff, Nat.le_div_iff_mul_le hb, Nat.succ_mul]
  omega

theorem tileEdge_pos (extent : ℕ) {block : ℕ} (hb : 0 < block) : 0 < tileEdge extent block := by
  refine Nat.mul_pos ?_ hb
  rw [lt_divCeil_iff hb, Nat.zero_mul]
  exact lt_of_lt_of_le (by decide : 0 < minTileTexels) (le_max_right _ _)

namespace StampGrid

variable {g : StampGrid} {rect : TexelRect} {n held x y : ℕ}

theorem mem_cells {cell : ℕ × ℕ} : cell ∈ g.cells ↔ cell.1 < g.rows ∧ cell.2 < g.columns := by
  obtain ⟨row, column⟩ := cell
  simp [cells]

theorem WellFormed.tileOf_mem (h : g.WellFormed) (hx : x < g.width) (hy : y < g.height) :
    g.tileOf x y ∈ g.cells := by
  rw [mem_cells, h.rows_eq, h.columns_eq, lt_divCeil_iff h.tileHeight_pos, lt_divCeil_iff h.tileWidth_pos]
  exact ⟨lt_of_le_of_lt (Nat.div_mul_le_self _ _) hy, lt_of_le_of_lt (Nat.div_mul_le_self _ _) hx⟩

theorem new_wellFormed {width height : ℕ} (block : BlockLayout) (hw : width ≤ u32Max)
    (hh : height ≤ u32Max) : (new width height block).WellFormed where
  width_le := hw
  height_le := hh
  tileWidth_pos := tileEdge_pos width block.width_pos
  tileHeight_pos := tileEdge_pos height block.height_pos
  columns_eq := rfl
  rows_eq := rfl
  stamps_le _ := le_rfl
  newest_hit := .inl rfl

theorem stamps_stamp (i : ℕ) : (g.stamp rect n).stamps i = g.stamps i ∨ (g.stamp rect n).stamps i = n := by
  unfold stamp
  dsimp only
  split_ifs with hempty
  · exact .inl rfl
  · dsimp only
    set ws := (List.range' _ _).map fun row ↦ fill _ _ n with hws
    by_cases hhit : ∃ w ∈ ws, w i = some n
    · refine .inr (Lib.writeAll_agreed (fun w hw ↦ ?_) hhit g.stamps)
      obtain ⟨row, -, rfl⟩ := List.mem_map.mp hw
      unfold fill
      split_ifs with hi
      exacts [.inr rfl, .inl rfl]
    · refine .inl (Lib.writeAll_untouched (fun w hw ↦ ?_) g.stamps)
      by_contra hne
      obtain ⟨row, hrow, rfl⟩ := List.mem_map.mp hw
      refine hhit ⟨_, hw, ?_⟩
      unfold fill at hne ⊢
      split_ifs at hne ⊢ with hi
      exacts [rfl, absurd rfl hne]

theorem newest_stamp_le (h : g.newest ≤ n) : (g.stamp rect n).newest ≤ n := by
  unfold stamp
  dsimp only
  split_ifs
  exacts [h, le_rfl]

theorem stamp_eq : ∃ stamps newest, g.stamp rect n = { g with stamps, newest } := by
  unfold stamp
  dsimp only
  split_ifs
  exacts [⟨g.stamps, g.newest, rfl⟩, ⟨_, _, rfl⟩]

@[simp] theorem stamp_width : (g.stamp rect n).width = g.width := by
  obtain ⟨_, _, h⟩ := @stamp_eq g rect n; rw [h]

@[simp] theorem stamp_height : (g.stamp rect n).height = g.height := by
  obtain ⟨_, _, h⟩ := @stamp_eq g rect n; rw [h]

@[simp] theorem stamp_columns : (g.stamp rect n).columns = g.columns := by
  obtain ⟨_, _, h⟩ := @stamp_eq g rect n; rw [h]

@[simp] theorem stamp_tileOf : (g.stamp rect n).tileOf x y = g.tileOf x y := by
  obtain ⟨_, _, h⟩ := @stamp_eq g rect n; rw [h, tileOf, tileOf]

@[simp] theorem stamp_cells : (g.stamp rect n).cells = g.cells := by
  obtain ⟨_, _, h⟩ := @stamp_eq g rect n; rw [h, cells, cells]

theorem WellFormed.stampAt_of_covers (h : g.WellFormed) (hc : rect.Covers x y) (hx : x < g.width)
    (hy : y < g.height) : (g.stamp rect n).stampAt (g.tileOf x y) = n ∧ (g.stamp rect n).newest = n := by
  obtain ⟨hx₁, hx₂, hy₁, hy₂⟩ := hc
  have hxEnd : x < min (saturatingAdd rect.x rect.width) g.width :=
    lt_min (lt_min hx₂ (lt_of_lt_of_le hx h.width_le)) hx
  have hyEnd : y < min (saturatingAdd rect.y rect.height) g.height :=
    lt_min (lt_min hy₂ (lt_of_lt_of_le hy h.height_le)) hy
  have hsome : ¬(rect.x ≥ min (saturatingAdd rect.x rect.width) g.width ∨
      rect.y ≥ min (saturatingAdd rect.y rect.height) g.height) := by omega
  rw [stampAt, stamp_columns]
  unfold stamp
  dsimp only
  rw [if_neg hsome]
  refine ⟨Lib.writeAll_agreed (fun w hw ↦ ?_) ⟨_, List.mem_map.mpr ⟨y / g.tileHeight, ?_, rfl⟩, ?_⟩ g.stamps, rfl⟩
  · obtain ⟨row, -, rfl⟩ := List.mem_map.mp hw
    unfold fill
    split_ifs with hi
    exacts [.inr rfl, .inl rfl]
  · have hfirst : rect.y / g.tileHeight ≤ y / g.tileHeight := Nat.div_le_div_right hy₁
    have hlast : y / g.tileHeight ≤ (min (saturatingAdd rect.y rect.height) g.height - 1) / g.tileHeight :=
      Nat.div_le_div_right (by omega)
    rw [List.mem_range'_1]
    omega
  · have hfirst : rect.x / g.tileWidth ≤ x / g.tileWidth := Nat.div_le_div_right hx₁
    have hlast : x / g.tileWidth ≤ (min (saturatingAdd rect.x rect.width) g.width - 1) / g.tileWidth :=
      Nat.div_le_div_right (by omega)
    exact if_pos ⟨Nat.add_le_add_left hfirst _, Nat.add_le_add_left hlast _⟩

theorem stamp_unreached (h : ∀ x y, x < g.width → y < g.height → ¬rect.Covers x y) : g.stamp rect n = g := by
  unfold stamp
  dsimp only
  refine if_pos ?_
  by_contra hne
  have hx : rect.x < min (min (rect.x + rect.width) u32Max) g.width := by
    simp only [saturatingAdd] at hne; omega
  have hy : rect.y < min (min (rect.y + rect.height) u32Max) g.height := by
    simp only [saturatingAdd] at hne; omega
  exact h rect.x rect.y (by omega) (by omega) ⟨le_rfl, by omega, le_rfl, by omega⟩

theorem WellFormed.stamp (h : g.WellFormed) (hn : g.newest ≤ n) : (g.stamp rect n).WellFormed := by
  by_cases hreach : ∃ x y, x < g.width ∧ y < g.height ∧ rect.Covers x y
  · obtain ⟨x, y, hx, hy, hc⟩ := hreach
    obtain ⟨hat, hnew⟩ := h.stampAt_of_covers (n := n) hc hx hy
    obtain ⟨stamps, newest, heq⟩ := @stamp_eq g rect n
    have hle : ∀ i, (g.stamp rect n).stamps i ≤ n := fun i ↦ by
      rcases @stamps_stamp g rect n i with hi | hi
      · exact hi ▸ (h.stamps_le i).trans hn
      · exact hi.le
    refine { width_le := ?_, height_le := ?_, tileWidth_pos := ?_, tileHeight_pos := ?_, columns_eq := ?_,
             rows_eq := ?_, stamps_le := fun i ↦ (hle i).trans hnew.ge,
             newest_hit := .inr ⟨g.tileOf x y, ?_, hat.trans hnew.symm⟩ }
    · rw [stamp_width]; exact h.width_le
    · rw [stamp_height]; exact h.height_le
    · rw [heq]; exact h.tileWidth_pos
    · rw [heq]; exact h.tileHeight_pos
    · rw [heq]; exact h.columns_eq
    · rw [heq]; exact h.rows_eq
    · rw [stamp_cells]; exact h.tileOf_mem hx hy
  · rw [stamp_unreached fun x y hx hy hc ↦ hreach ⟨x, y, hx, hy, hc⟩]
    exact h

theorem Bounds.foldl_include (p : ℕ × ℕ → Prop) [DecidablePred p] (l : List (ℕ × ℕ)) (b : Bounds) :
    let r := l.foldl (fun b cell ↦ if p cell then b.include cell else b) b
    (r.columns.1 ≤ b.columns.1 ∧ b.columns.2 ≤ r.columns.2 ∧ r.rows.1 ≤ b.rows.1 ∧ b.rows.2 ≤ r.rows.2) ∧
    ∀ cell ∈ l, p cell →
      r.columns.1 ≤ cell.2 ∧ cell.2 ≤ r.columns.2 ∧ r.rows.1 ≤ cell.1 ∧ cell.1 ≤ r.rows.2 := by
  induction l generalizing b with
  | nil => simp
  | cons c l ih =>
    simp only [List.foldl_cons]
    by_cases hc : p c
    · simp only [if_pos hc]
      obtain ⟨hb, hl⟩ := ih (b.include c)
      simp only [Bounds.include, le_min_iff, max_le_iff] at hb
      refine ⟨⟨hb.1.1, hb.2.1.1, hb.2.2.1.1, hb.2.2.2.1⟩, fun cell hcell hp ↦ ?_⟩
      obtain rfl | hcell := List.mem_cons.mp hcell
      · exact ⟨hb.1.2, hb.2.1.2, hb.2.2.1.2, hb.2.2.2.2⟩
      · exact hl cell hcell hp
    · simp only [if_neg hc]
      obtain ⟨hb, hl⟩ := ih b
      refine ⟨hb, fun cell hcell hp ↦ ?_⟩
      obtain rfl | hcell := List.mem_cons.mp hcell
      · exact absurd hp hc
      · exact hl cell hcell hp

theorem scan_bounds {cell : ℕ × ℕ} (hcell : cell ∈ g.cells) (hs : held < g.stampAt cell) :
    (g.scan held).columns.1 ≤ cell.2 ∧ cell.2 ≤ (g.scan held).columns.2 ∧
      (g.scan held).rows.1 ≤ cell.1 ∧ cell.1 ≤ (g.scan held).rows.2 :=
  (Bounds.foldl_include (fun cell ↦ held < g.stampAt cell) g.cells _).2 cell hcell hs

theorem WellFormed.writtenSince (h : g.WellFormed) (held : ℕ) :
    ∃ dirty, g.writtenSince held = some dirty ∧ ∀ x y, x < g.width → y < g.height →
      (∀ r, dirty = some r → ¬r.Covers x y) → g.stampAt (g.tileOf x y) ≤ held := by
  unfold StampGrid.writtenSince
  by_cases hnew : g.newest ≤ held
  · exact ⟨none, if_pos hnew, fun x y _ _ _ ↦ (h.stamps_le _).trans hnew⟩
  · rw [if_neg hnew]
    -- The newest stamp is still on some tile, so the box is not empty.
    obtain ⟨cell, hcell, hat⟩ := h.newest_hit.resolve_left (by omega)
    have hsince : held < g.stampAt cell := by omega
    obtain ⟨hc₁, hc₂, hr₁, hr₂⟩ := scan_bounds hcell hsince
    obtain ⟨hrow, hcol⟩ := mem_cells.mp hcell
    rw [h.rows_eq, lt_divCeil_iff h.tileHeight_pos] at hrow
    rw [h.columns_eq, lt_divCeil_iff h.tileWidth_pos] at hcol
    have hx : (g.scan held).columns.1 * g.tileWidth ≤
        min (((g.scan held).columns.2 + 1) * g.tileWidth) g.width :=
      le_min (Nat.mul_le_mul_right _ (by omega)) ((Nat.mul_le_mul_right _ hc₁).trans hcol.le)
    have hy : (g.scan held).rows.1 * g.tileHeight ≤
        min (((g.scan held).rows.2 + 1) * g.tileHeight) g.height :=
      le_min (Nat.mul_le_mul_right _ (by omega)) ((Nat.mul_le_mul_right _ hr₁).trans hrow.le)
    simp only [checkedSub_of_le hx, checkedSub_of_le hy, Option.bind_eq_bind, Option.bind_some]
    refine ⟨_, rfl, fun x y hxw hyh hout ↦ ?_⟩
    by_contra hs
    obtain ⟨hb₁, hb₂, hb₃, hb₄⟩ := scan_bounds (h.tileOf_mem hxw hyh) (not_le.mp hs)
    simp only [tileOf] at hb₁ hb₂ hb₃ hb₄
    refine hout _ rfl ⟨?_, ?_, ?_, ?_⟩
    · exact (Nat.le_div_iff_mul_le h.tileWidth_pos).mp hb₁
    · have hlt := (Nat.div_lt_iff_lt_mul h.tileWidth_pos).mp (Nat.lt_succ_of_le hb₂)
      dsimp only
      rw [Nat.add_sub_cancel' hx]
      exact lt_min hlt hxw
    · exact (Nat.le_div_iff_mul_le h.tileHeight_pos).mp hb₃
    · have hlt := (Nat.div_lt_iff_lt_mul h.tileHeight_pos).mp (Nat.lt_succ_of_le hb₄)
      dsimp only
      rw [Nat.add_sub_cancel' hy]
      exact lt_min hlt hyh

end StampGrid

end Mtld3d
