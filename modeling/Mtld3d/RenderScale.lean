import Mathlib.Tactic.Ring
import Mtld3d.Lib.Tiling
import Mtld3d.Width

namespace Mtld3d

open Lib List

def i32Max : ℕ := 2147483647

structure RenderScale where
  percent : ℕ
  pos : 1 ≤ percent
  le : percent ≤ 100

structure ScaledRect where
  x : ℕ
  y : ℕ
  width : ℕ
  height : ℕ

structure RectEdges where
  x1 : ℤ
  y1 : ℤ
  x2 : ℤ
  y2 : ℤ
  deriving DecidableEq

def checkedDiff (a b : ℕ) : Option ℕ := if b ≤ a then some (a - b) else none

def rectOfEdges (edgeX edgeY : ℕ → ℕ) (x y width height : ℕ) : Option ScaledRect := do
  let w ← checkedDiff (edgeX (min (x + width) u32Max)) (edgeX x)
  let h ← checkedDiff (edgeY (min (y + height) u32Max)) (edgeY y)
  some ⟨edgeX x, edgeY y, w, h⟩

def signedEdge (edge : ℕ → ℕ) (v : ℤ) : ℤ := min (edge v.toNat) i32Max

namespace RenderScale

def fromPercent (percent : ℕ) : RenderScale where
  percent := if percent = 0 then 1 else if 100 < percent then 100 else percent
  pos := by split_ifs <;> omega
  le := by split_ifs <;> omega

def isIdentity (s : RenderScale) : Bool := s.percent == 100

def dimension (s : RenderScale) (logical : ℕ) : ℕ :=
  if s.isIdentity ∨ logical = 0 then logical
  else max (min ((logical * s.percent + 50) / 100) u32Max) 1

def rect (s : RenderScale) (x y width height : ℕ) : Option ScaledRect :=
  if s.isIdentity then some ⟨x, y, width, height⟩ else rectOfEdges s.dimension s.dimension x y width height

def rectEdgesI32 (s : RenderScale) (r : RectEdges) : RectEdges :=
  if s.isIdentity then r
  else ⟨signedEdge s.dimension r.x1, signedEdge s.dimension r.y1, signedEdge s.dimension r.x2,
    signedEdge s.dimension r.y2⟩

end RenderScale

/-- Pin a scaled edge of logical edge `v` against an axis's two extents. -/
def pinnedEdge (scaled v logical texture : ℕ) : ℕ :=
  if v < logical then min scaled texture else if v = logical then texture else max scaled texture

/-- The extent D3D9 reports for a bound target and the one Metal allocated; the identity scale allocates what is
reported. -/
structure TargetExtent where
  scale : RenderScale
  logical : ℕ × ℕ
  texture : ℕ × ℕ
  logical_pos : 0 < logical.1 ∧ 0 < logical.2
  texture_pos : 0 < texture.1 ∧ 0 < texture.2
  logical_le : logical.1 ≤ u32Max ∧ logical.2 ≤ u32Max
  texture_le : texture.1 ≤ u32Max ∧ texture.2 ≤ u32Max
  texture_eq : scale.isIdentity → texture = logical

namespace RenderScale

variable {s : RenderScale} {v w : ℕ}

theorem dimension_zero (s : RenderScale) : s.dimension 0 = 0 := by
  rw [dimension, if_pos (.inr rfl)]

theorem dimension_identity (h : s.isIdentity) (v : ℕ) : s.dimension v = v := by
  rw [dimension, if_pos (.inl h)]

theorem dimension_pos (h : 0 < v) : 0 < s.dimension v := by
  rw [dimension]
  split
  · exact h
  · exact lt_of_lt_of_le one_pos (le_max_right _ _)

theorem dimension_le (s : RenderScale) (h : v ≤ u32Max) : s.dimension v ≤ u32Max := by
  rw [dimension]
  split
  · exact h
  · exact Nat.max_le.2 ⟨min_le_right _ _, by decide⟩

theorem dimension_mono (s : RenderScale) : Monotone s.dimension := by
  intro v w h
  by_cases hid : s.isIdentity
  · rwa [dimension_identity hid, dimension_identity hid]
  · obtain rfl | hv := Nat.eq_zero_or_pos v
    · rw [dimension_zero]
      exact Nat.zero_le _
    · have hmul := Nat.mul_le_mul_right s.percent h
      rw [dimension, dimension, if_neg (not_or.2 ⟨hid, by omega⟩), if_neg (not_or.2 ⟨hid, by omega⟩)]
      omega

end RenderScale

theorem pinnedEdge_mono {scaled : ℕ → ℕ} (h : Monotone scaled) (logical texture : ℕ) :
    Monotone fun v ↦ pinnedEdge (scaled v) v logical texture := by
  intro v w hvw
  have hscaled := h hvw
  simp only [pinnedEdge]
  split_ifs <;> omega

theorem pinnedEdge_self {scaled : ℕ → ℕ} (h : Monotone scaled) (logical : ℕ) :
    (fun v ↦ pinnedEdge (scaled v) v logical (scaled logical)) = scaled := by
  funext v
  obtain hlt | rfl | hgt := lt_trichotomy v logical
  · rw [pinnedEdge, if_pos hlt, min_eq_left (h hlt.le)]
  · rw [pinnedEdge, if_neg (lt_irrefl v), if_pos rfl]
  · rw [pinnedEdge, if_neg hgt.le.not_gt, if_neg hgt.ne', max_eq_left (h hgt.le)]

namespace TargetExtent

def whole (scale : RenderScale) (logical : ℕ × ℕ) (pos : 0 < logical.1 ∧ 0 < logical.2)
    (le : logical.1 ≤ u32Max ∧ logical.2 ≤ u32Max) : TargetExtent where
  scale := scale
  logical := logical
  texture := (scale.dimension logical.1, scale.dimension logical.2)
  logical_pos := pos
  texture_pos := ⟨RenderScale.dimension_pos pos.1, RenderScale.dimension_pos pos.2⟩
  logical_le := le
  texture_le := ⟨scale.dimension_le le.1, scale.dimension_le le.2⟩
  texture_eq h := by rw [RenderScale.dimension_identity h, RenderScale.dimension_identity h]

def halve (base level : ℕ) : ℕ := max (if level < 32 then base / 2 ^ level else 0) 1

theorem halve_le {base : ℕ} (level : ℕ) (h : base ≤ u32Max) : halve base level ≤ u32Max := by
  have hdiv := Nat.div_le_self base (2 ^ level)
  have hone : 1 ≤ u32Max := by decide
  rw [halve]
  split <;> omega

/-- A level of a texture created at `base`; at the identity the reported level is halved like Metal's. -/
def mipLevel (scale : RenderScale) (logical base : ℕ × ℕ) (level : ℕ) (pos : 0 < logical.1 ∧ 0 < logical.2)
    (le : logical.1 ≤ u32Max ∧ logical.2 ≤ u32Max) (baseLe : base.1 ≤ u32Max ∧ base.2 ≤ u32Max)
    (reported : scale.isIdentity → (halve base.1 level, halve base.2 level) = logical) : TargetExtent where
  scale := scale
  logical := logical
  texture := (halve base.1 level, halve base.2 level)
  logical_pos := pos
  texture_pos := ⟨Nat.lt_of_lt_of_le Nat.one_pos (Nat.le_max_right _ _),
    Nat.lt_of_lt_of_le Nat.one_pos (Nat.le_max_right _ _)⟩
  logical_le := le
  texture_le := ⟨halve_le level baseLe.1, halve_le level baseLe.2⟩
  texture_eq := reported

def edgeX (e : TargetExtent) (v : ℕ) : ℕ := pinnedEdge (e.scale.dimension v) v e.logical.1 e.texture.1

def edgeY (e : TargetExtent) (v : ℕ) : ℕ := pinnedEdge (e.scale.dimension v) v e.logical.2 e.texture.2

def rect (e : TargetExtent) (x y width height : ℕ) : Option ScaledRect :=
  if e.scale.isIdentity then some ⟨x, y, width, height⟩ else rectOfEdges e.edgeX e.edgeY x y width height

def rectEdgesI32 (e : TargetExtent) (r : RectEdges) : RectEdges :=
  if e.scale.isIdentity then r
  else ⟨signedEdge e.edgeX r.x1, signedEdge e.edgeY r.y1, signedEdge e.edgeX r.x2, signedEdge e.edgeY r.y2⟩

variable {e : TargetExtent} {v x y width height : ℕ}

/-- A whole surface converts as its scale does: no edge is pinned away from where the scale puts it. -/
theorem rect_whole (scale : RenderScale) (logical : ℕ × ℕ) (pos : 0 < logical.1 ∧ 0 < logical.2)
    (le : logical.1 ≤ u32Max ∧ logical.2 ≤ u32Max) : (whole scale logical pos le).rect = scale.rect ∧
      (whole scale logical pos le).rectEdgesI32 = scale.rectEdgesI32 := by
  have hx : (whole scale logical pos le).edgeX = scale.dimension := pinnedEdge_self scale.dimension_mono logical.1
  have hy : (whole scale logical pos le).edgeY = scale.dimension := pinnedEdge_self scale.dimension_mono logical.2
  constructor
  · funext x y width height
    rw [rect, hx, hy]
    rfl
  · funext r
    rw [rectEdgesI32, hx, hy]
    rfl

theorem edgeX_mono (e : TargetExtent) : Monotone e.edgeX := pinnedEdge_mono e.scale.dimension_mono _ _

theorem edgeY_mono (e : TargetExtent) : Monotone e.edgeY := pinnedEdge_mono e.scale.dimension_mono _ _

theorem edgeX_zero (e : TargetExtent) : e.edgeX 0 = 0 := by
  rw [edgeX, RenderScale.dimension_zero, pinnedEdge, if_pos e.logical_pos.1, Nat.zero_min]

theorem edgeY_zero (e : TargetExtent) : e.edgeY 0 = 0 := by
  rw [edgeY, RenderScale.dimension_zero, pinnedEdge, if_pos e.logical_pos.2, Nat.zero_min]

theorem edgeX_logical (e : TargetExtent) : e.edgeX e.logical.1 = e.texture.1 := by
  rw [edgeX, pinnedEdge, if_neg (lt_irrefl _), if_pos rfl]

theorem edgeY_logical (e : TargetExtent) : e.edgeY e.logical.2 = e.texture.2 := by
  rw [edgeY, pinnedEdge, if_neg (lt_irrefl _), if_pos rfl]

theorem edgeX_identity (h : e.scale.isIdentity) (v : ℕ) : e.edgeX v = v := by
  rw [edgeX, RenderScale.dimension_identity h, e.texture_eq h, pinnedEdge]
  split_ifs <;> omega

theorem edgeY_identity (h : e.scale.isIdentity) (v : ℕ) : e.edgeY v = v := by
  rw [edgeY, RenderScale.dimension_identity h, e.texture_eq h, pinnedEdge]
  split_ifs <;> omega

end TargetExtent

def ScaledRect.box (r : ScaledRect) : Box := ⟨r.x, r.y, r.x + r.width, r.y + r.height⟩

def ScaledRect.Within (inner outer : ScaledRect) : Prop :=
  (outer.x ≤ inner.x ∧ inner.x + inner.width ≤ outer.x + outer.width) ∧
    outer.y ≤ inner.y ∧ inner.y + inner.height ≤ outer.y + outer.height

theorem rectOfEdges_eq {edgeX edgeY : ℕ → ℕ} (hx : Monotone edgeX) (hy : Monotone edgeY) {x y width height : ℕ}
    (fx : x ≤ u32Max) (fy : y ≤ u32Max) : rectOfEdges edgeX edgeY x y width height =
      some ⟨edgeX x, edgeY y, edgeX (min (x + width) u32Max) - edgeX x,
        edgeY (min (y + height) u32Max) - edgeY y⟩ := by
  have hright : edgeX x ≤ edgeX (min (x + width) u32Max) := hx (by omega)
  have hbottom : edgeY y ≤ edgeY (min (y + height) u32Max) := hy (by omega)
  rw [rectOfEdges, checkedDiff, checkedDiff, if_pos hright, if_pos hbottom]
  rfl

namespace TargetExtent

variable {e : TargetExtent}

theorem rect_eq_some (e : TargetExtent) {r : ScaledRect} (fx : r.x + r.width ≤ u32Max)
    (fy : r.y + r.height ≤ u32Max) :
    ∃ r', e.rect r.x r.y r.width r.height = some r' ∧ r'.box = r.box.map e.edgeX e.edgeY := by
  by_cases hid : e.scale.isIdentity
  · refine ⟨r, if_pos hid, ?_⟩
    simp [ScaledRect.box, Box.map, edgeX_identity hid, edgeY_identity hid]
  · have hx := e.edgeX_mono (Nat.le_add_right r.x r.width)
    have hy := e.edgeY_mono (Nat.le_add_right r.y r.height)
    refine ⟨_, (if_neg hid).trans (rectOfEdges_eq e.edgeX_mono e.edgeY_mono (by omega) (by omega)), ?_⟩
    simp [ScaledRect.box, Box.map, min_eq_left fx, min_eq_left fy, Nat.add_sub_cancel' hx,
      Nat.add_sub_cancel' hy]

theorem rect_ne_none (e : TargetExtent) {r : ScaledRect} (fx : r.x ≤ u32Max) (fy : r.y ≤ u32Max) :
    e.rect r.x r.y r.width r.height ≠ none := by
  rw [rect]
  split
  · exact Option.some_ne_none _
  · rw [rectOfEdges_eq e.edgeX_mono e.edgeY_mono fx fy]
    exact Option.some_ne_none _

theorem rect_within (e : TargetExtent) {inner outer inner' outer' : ScaledRect} (h : inner.Within outer)
    (fx : inner.x ≤ u32Max) (fy : inner.y ≤ u32Max)
    (hinner : e.rect inner.x inner.y inner.width inner.height = some inner')
    (houter : e.rect outer.x outer.y outer.width outer.height = some outer') : inner'.Within outer' := by
  obtain ⟨⟨hleft, hright⟩, htop, hbottom⟩ := h
  rw [rect] at hinner houter
  split at hinner
  · rename_i hid
    rw [if_pos hid] at houter
    cases hinner
    cases houter
    exact ⟨⟨hleft, hright⟩, htop, hbottom⟩
  · rename_i hid
    rw [if_neg hid, rectOfEdges_eq e.edgeX_mono e.edgeY_mono (by omega) (by omega)] at houter
    rw [rectOfEdges_eq e.edgeX_mono e.edgeY_mono fx fy] at hinner
    cases hinner
    cases houter
    have hx1 := e.edgeX_mono hleft
    have hy1 := e.edgeY_mono htop
    have hx2 : e.edgeX (min (inner.x + inner.width) u32Max) ≤ e.edgeX (min (outer.x + outer.width) u32Max) :=
      e.edgeX_mono (by omega)
    have hy2 : e.edgeY (min (inner.y + inner.height) u32Max) ≤ e.edgeY (min (outer.y + outer.height) u32Max) :=
      e.edgeY_mono (by omega)
    have hx3 : e.edgeX inner.x ≤ e.edgeX (min (inner.x + inner.width) u32Max) := e.edgeX_mono (by omega)
    have hy3 : e.edgeY inner.y ≤ e.edgeY (min (inner.y + inner.height) u32Max) := e.edgeY_mono (by omega)
    refine ⟨⟨hx1, ?_⟩, hy1, ?_⟩ <;> simp only <;> omega

theorem signedEdge_mono {edge : ℕ → ℕ} (h : Monotone edge) {v w : ℤ} (hvw : v ≤ w) :
    signedEdge edge v ≤ signedEdge edge w := by
  have hedge : edge v.toNat ≤ edge w.toNat := h (by omega)
  simp only [signedEdge]
  omega

theorem rectEdgesI32_mono (e : TargetExtent) (r r' : RectEdges) :
    (r.x1 ≤ r'.x1 → (e.rectEdgesI32 r).x1 ≤ (e.rectEdgesI32 r').x1) ∧
      (r.y1 ≤ r'.y1 → (e.rectEdgesI32 r).y1 ≤ (e.rectEdgesI32 r').y1) ∧
      (r.x2 ≤ r'.x2 → (e.rectEdgesI32 r).x2 ≤ (e.rectEdgesI32 r').x2) ∧
      (r.y2 ≤ r'.y2 → (e.rectEdgesI32 r).y2 ≤ (e.rectEdgesI32 r').y2) := by
  rw [rectEdgesI32, rectEdgesI32]
  split
  · exact ⟨id, id, id, id⟩
  · exact ⟨fun h ↦ signedEdge_mono e.edgeX_mono h, fun h ↦ signedEdge_mono e.edgeY_mono h,
      fun h ↦ signedEdge_mono e.edgeX_mono h, fun h ↦ signedEdge_mono e.edgeY_mono h⟩

theorem rectEdgesI32_ordered (e : TargetExtent) {r : RectEdges} (hx : r.x1 ≤ r.x2) (hy : r.y1 ≤ r.y2) :
    (e.rectEdgesI32 r).x1 ≤ (e.rectEdgesI32 r).x2 ∧ (e.rectEdgesI32 r).y1 ≤ (e.rectEdgesI32 r).y2 := by
  rw [rectEdgesI32]
  split
  · exact ⟨hx, hy⟩
  · exact ⟨signedEdge_mono e.edgeX_mono hx, signedEdge_mono e.edgeY_mono hy⟩

theorem rectEdgesI32_eq (e : TargetExtent) {r r' : ScaledRect} (fx : r.x + r.width ≤ i32Max)
    (fy : r.y + r.height ≤ i32Max) (h : e.rect r.x r.y r.width r.height = some r') :
    e.rectEdgesI32 ⟨r.x, r.y, (r.x + r.width : ℕ), (r.y + r.height : ℕ)⟩ =
      ⟨min r'.x i32Max, min r'.y i32Max, min (r'.x + r'.width : ℕ) i32Max, min (r'.y + r'.height : ℕ) i32Max⟩ := by
  have hmax : i32Max ≤ u32Max := by decide
  obtain ⟨r'', hsome, hbox⟩ := e.rect_eq_some (r := r) (by omega) (by omega)
  obtain rfl : r'' = r' := Option.some.inj (hsome.symm.trans h)
  simp only [ScaledRect.box, Box.map, Box.mk.injEq] at hbox
  obtain ⟨hx1, hy1, hx2, hy2⟩ := hbox
  rw [hx2, hy2, hx1, hy1, rectEdgesI32]
  split
  · rename_i hid
    rw [edgeX_identity hid, edgeX_identity hid, edgeY_identity hid, edgeY_identity hid, RectEdges.mk.injEq]
    omega
  · simp only [signedEdge, Int.toNat_natCast]

theorem mapM_rect (e : TargetExtent) {rects : List ScaledRect}
    (h : ∀ r ∈ rects, r.x + r.width ≤ u32Max ∧ r.y + r.height ≤ u32Max) :
    ∃ rects', rects.mapM (fun r ↦ e.rect r.x r.y r.width r.height) = some rects' ∧
      rects'.map ScaledRect.box = (rects.map ScaledRect.box).map (Box.map e.edgeX e.edgeY) := by
  induction rects with
  | nil => exact ⟨[], rfl, rfl⟩
  | cons r rects ih =>
    obtain ⟨fx, fy⟩ := h r mem_cons_self
    obtain ⟨r', hr, hbox⟩ := e.rect_eq_some fx fy
    obtain ⟨rects', hrects, hboxes⟩ := ih fun t ht ↦ h t (mem_cons_of_mem r ht)
    refine ⟨r' :: rects', ?_, ?_⟩
    · rw [mapM_cons, hr, hrects]
      rfl
    · rw [map_cons, hbox, hboxes, map_cons, map_cons]

theorem tiles_rects (e : TargetExtent) {rects : List ScaledRect}
    (h : Box.Tiles (rects.map ScaledRect.box) e.logical.1 e.logical.2) :
    ∃ rects', rects.mapM (fun r ↦ e.rect r.x r.y r.width r.height) = some rects' ∧
      Box.Tiles (rects'.map ScaledRect.box) e.texture.1 e.texture.2 := by
  have hfits : ∀ r ∈ rects, r.x + r.width ≤ u32Max ∧ r.y + r.height ≤ u32Max := by
    intro r hr
    obtain ⟨hright, hbottom⟩ := h.inside r.box (mem_map_of_mem hr)
    exact ⟨hright.trans e.logical_le.1, hbottom.trans e.logical_le.2⟩
  obtain ⟨rects', hmap, hboxes⟩ := e.mapM_rect hfits
  refine ⟨rects', hmap, ?_⟩
  rw [hboxes, ← e.edgeX_logical, ← e.edgeY_logical]
  exact h.map e.edgeX_mono e.edgeY_mono e.edgeX_zero e.edgeY_zero

theorem rect_inside (e : TargetExtent) {r r' : ScaledRect} (hx : r.x + r.width ≤ e.logical.1)
    (hy : r.y + r.height ≤ e.logical.2) (h : e.rect r.x r.y r.width r.height = some r') :
    r'.x + r'.width ≤ e.texture.1 ∧ r'.y + r'.height ≤ e.texture.2 := by
  obtain ⟨r'', hsome, hbox⟩ := e.rect_eq_some (hx.trans e.logical_le.1) (hy.trans e.logical_le.2)
  obtain rfl : r'' = r' := Option.some.inj (hsome.symm.trans h)
  simp only [ScaledRect.box, Box.map, Box.mk.injEq] at hbox
  obtain ⟨-, -, hx2, hy2⟩ := hbox
  rw [hx2, hy2, ← e.edgeX_logical, ← e.edgeY_logical]
  exact ⟨e.edgeX_mono hx, e.edgeY_mono hy⟩

theorem rectEdgesI32_inside (e : TargetExtent) {r : RectEdges} (hx : r.x2 ≤ e.logical.1) (hy : r.y2 ≤ e.logical.2) :
    (e.rectEdgesI32 r).x2 ≤ e.texture.1 ∧ (e.rectEdgesI32 r).y2 ≤ e.texture.2 := by
  rw [rectEdgesI32]
  split
  · rename_i hid
    rw [e.texture_eq hid]
    exact ⟨hx, hy⟩
  · have hright : e.edgeX r.x2.toNat ≤ e.texture.1 := by
      rw [← e.edgeX_logical]
      exact e.edgeX_mono (by omega)
    have hbottom : e.edgeY r.y2.toNat ≤ e.texture.2 := by
      rw [← e.edgeY_logical]
      exact e.edgeY_mono (by omega)
    simp only [signedEdge]
    omega

/-- The conversion into a target's texture is monotone and pinned at both ends, converts every rect, keeps rects
inside the target and inside each other, and sends a tiling of the target to a tiling of the texture. -/
theorem render_scale_keeps_tilings (e : TargetExtent) :
    (Monotone e.edgeX ∧ Monotone e.edgeY ∧ e.edgeX 0 = 0 ∧ e.edgeY 0 = 0 ∧
      e.edgeX e.logical.1 = e.texture.1 ∧ e.edgeY e.logical.2 = e.texture.2) ∧
    (∀ r : ScaledRect, r.x ≤ u32Max → r.y ≤ u32Max → e.rect r.x r.y r.width r.height ≠ none) ∧
    (∀ r : RectEdges, r.x1 ≤ r.x2 → r.y1 ≤ r.y2 →
      (e.rectEdgesI32 r).x1 ≤ (e.rectEdgesI32 r).x2 ∧ (e.rectEdgesI32 r).y1 ≤ (e.rectEdgesI32 r).y2) ∧
    (∀ r r' : ScaledRect, r.x + r.width ≤ e.logical.1 → r.y + r.height ≤ e.logical.2 →
      e.rect r.x r.y r.width r.height = some r' →
      r'.x + r'.width ≤ e.texture.1 ∧ r'.y + r'.height ≤ e.texture.2) ∧
    (∀ r : RectEdges, r.x2 ≤ e.logical.1 → r.y2 ≤ e.logical.2 →
      (e.rectEdgesI32 r).x2 ≤ e.texture.1 ∧ (e.rectEdgesI32 r).y2 ≤ e.texture.2) ∧
    (∀ inner outer inner' outer' : ScaledRect, inner.Within outer → inner.x ≤ u32Max → inner.y ≤ u32Max →
      e.rect inner.x inner.y inner.width inner.height = some inner' →
      e.rect outer.x outer.y outer.width outer.height = some outer' → inner'.Within outer') ∧
    (∀ r r' : RectEdges, (r.x1 ≤ r'.x1 → (e.rectEdgesI32 r).x1 ≤ (e.rectEdgesI32 r').x1) ∧
      (r.y1 ≤ r'.y1 → (e.rectEdgesI32 r).y1 ≤ (e.rectEdgesI32 r').y1) ∧
      (r.x2 ≤ r'.x2 → (e.rectEdgesI32 r).x2 ≤ (e.rectEdgesI32 r').x2) ∧
      (r.y2 ≤ r'.y2 → (e.rectEdgesI32 r).y2 ≤ (e.rectEdgesI32 r').y2)) ∧
    (∀ rects : List ScaledRect, Box.Tiles (rects.map ScaledRect.box) e.logical.1 e.logical.2 →
      ∃ rects', rects.mapM (fun r ↦ e.rect r.x r.y r.width r.height) = some rects' ∧
        Box.Tiles (rects'.map ScaledRect.box) e.texture.1 e.texture.2) ∧
    (∀ r r' : ScaledRect, r.x + r.width ≤ i32Max → r.y + r.height ≤ i32Max →
      e.rect r.x r.y r.width r.height = some r' →
      e.rectEdgesI32 ⟨r.x, r.y, (r.x + r.width : ℕ), (r.y + r.height : ℕ)⟩ =
        ⟨min r'.x i32Max, min r'.y i32Max, min (r'.x + r'.width : ℕ) i32Max,
          min (r'.y + r'.height : ℕ) i32Max⟩) :=
  ⟨⟨e.edgeX_mono, e.edgeY_mono, e.edgeX_zero, e.edgeY_zero, e.edgeX_logical, e.edgeY_logical⟩,
    fun _ fx fy ↦ e.rect_ne_none fx fy, fun _ hx hy ↦ e.rectEdgesI32_ordered hx hy,
    fun _ _ hx hy h ↦ e.rect_inside hx hy h, fun _ hx hy ↦ e.rectEdgesI32_inside hx hy,
    fun _ _ _ _ h fx fy hinner houter ↦ e.rect_within h fx fy hinner houter, e.rectEdgesI32_mono,
    fun _ h ↦ e.tiles_rects h, fun _ _ fx fy h ↦ e.rectEdgesI32_eq fx fy h⟩

end TargetExtent

end Mtld3d
