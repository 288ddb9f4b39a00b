import Mathlib.Tactic.Ring
import Mtld3d.DirtyRect

namespace Mtld3d

def gridFloor (block v : ℕ) : ℕ := v - v % max block 1

def gridCeil (block v len : ℕ) : ℕ :=
  min ((min (v + len) u32Max + max block 1 - 1) / max block 1 * max block 1) u32Max

namespace DirtyRect

def full (w h : ℕ) : DirtyRect := ⟨0, 0, w, h⟩

def clipToLevel (r : DirtyRect) (levelW levelH blockW blockH : ℕ) : Option DirtyRect :=
  let x := gridFloor blockW r.x
  let y := gridFloor blockH r.y
  let right := gridCeil blockW r.x r.w
  let bottom := gridCeil blockH r.y r.h
  (⟨x, y, right - x, bottom - y⟩ : DirtyRect).clamp levelW levelH

end DirtyRect

def clipCopyRegion (region : DirtyRect) (dstOrigin srcLevel dstLevel block : ℕ × ℕ) :
    Option (DirtyRect × DirtyRect) := do
  let src ← region.clipToLevel srcLevel.1 srcLevel.2 block.1 block.2
  let dst ← (⟨dstOrigin.1, dstOrigin.2, region.w, region.h⟩ : DirtyRect).clipToLevel dstLevel.1 dstLevel.2 block.1 block.2
  let w := min src.w dst.w
  let h := min src.h dst.h
  some ({ src with w := w, h := h }, { dst with w := w, h := h })

structure SignedRect where
  left : ℤ
  top : ℤ
  right : ℤ
  bottom : ℤ

def sourceRegion (srcRect : Option SignedRect) (srcLevel : ℕ × ℕ) : Option DirtyRect :=
  match srcRect with
  | none => some (.full srcLevel.1 srcLevel.2)
  | some r =>
    if r.left < 0 ∨ r.top < 0 ∨ r.right ≤ r.left ∨ r.bottom ≤ r.top then none
    else some ⟨r.left.toNat, r.top.toNat, (r.right - r.left).natAbs, (r.bottom - r.top).natAbs⟩

def updateSurfaceRegion (srcRect : Option SignedRect) (dstPoint : ℤ × ℤ) (srcLevel dstLevel block : ℕ × ℕ) :
    Option (DirtyRect × (ℕ × ℕ)) := do
  let region ← sourceRegion srcRect srcLevel
  if dstPoint.1 < 0 ∨ dstPoint.2 < 0 then none
  else
    let dx := dstPoint.1.toNat
    let dy := dstPoint.2.toNat
    if srcLevel.1 < min (region.x + region.w) u32Max ∨ srcLevel.2 < min (region.y + region.h) u32Max ∨
        dstLevel.1 < min (dx + region.w) u32Max ∨ dstLevel.2 < min (dy + region.h) u32Max then none
    else
      let bw := max block.1 1
      let bh := max block.2 1
      if (1 < bw ∨ 1 < bh) ∧
          (region.x % bw ≠ 0 ∨ region.y % bh ≠ 0 ∨ dx % bw ≠ 0 ∨ dy % bh ≠ 0 ∨
            (region.w % bw ≠ 0 ∧ (region.x + region.w ≠ srcLevel.1 ∨ dx + region.w ≠ dstLevel.1)) ∨
            (region.h % bh ≠ 0 ∧ (region.y + region.h ≠ srcLevel.2 ∨ dy + region.h ≠ dstLevel.2))) then none
      else some (region, (dx, dy))

variable {block v len level i : ℕ}

theorem gridFloor_of_aligned (h : v % max block 1 = 0) : gridFloor block v = v := by
  rw [gridFloor, h, Nat.sub_zero]

theorem gridCeil_le (block v len : ℕ) : gridCeil block v len ≤ u32Max := min_le_right _ _

theorem le_gridCeil (block v len : ℕ) : min (v + len) u32Max ≤ gridCeil block v len := by
  refine Nat.le_min.2 ⟨?_, Nat.min_le_right _ _⟩
  have hpos : 0 < max block 1 := by omega
  have hdiv := Nat.lt_div_mul_add hpos (a := min (v + len) u32Max + max block 1 - 1)
  omega

theorem gridFloor_le_gridCeil (hv : v ≤ u32Max) : gridFloor block v ≤ gridCeil block v len := by
  have hceil := le_gridCeil block v len
  have hfloor : gridFloor block v ≤ v := Nat.sub_le _ _
  omega

theorem gridCeil_aligned (hv : v + len ≤ u32Max) (h : (v + len) % max block 1 = 0) :
    gridCeil block v len = v + len := by
  have hpos : 0 < max block 1 := by omega
  obtain ⟨k, hk⟩ := Nat.dvd_of_mod_eq_zero h
  have hdiv : (v + len + max block 1 - 1) / max block 1 = k := by
    rw [hk]
    refine Nat.div_eq_of_lt_le ?_ ?_
    · rw [mul_comm]
      omega
    · rw [add_mul, mul_comm k]
      omega
  rw [gridCeil, min_eq_left hv, hdiv, mul_comm, ← hk, min_eq_left hv]

theorem gridCeil_zero (hv : v ≤ u32Max) (h : v % max block 1 = 0) : gridCeil block v 0 = v := gridCeil_aligned hv h

theorem min_gridCeil (hlevel : level ≤ u32Max) (hend : v + len ≤ level)
    (h : (v + len) % max block 1 = 0 ∨ v + len = level) : min (gridCeil block v len) level = v + len := by
  obtain hgrid | hedge := h
  · rw [gridCeil_aligned (hend.trans hlevel) hgrid, min_eq_left hend]
  · have hle := le_gridCeil block v len
    omega

theorem same_block_of_lt_gridCeil (hlen : 0 < len) (hv : v ≤ i) (hi : i < gridCeil block v len) :
    ∃ i', v ≤ i' ∧ i' < v + len ∧ i' / max block 1 = i / max block 1 := by
  by_cases hlt : i < v + len
  · exact ⟨i, hv, hlt, rfl⟩
  · refine ⟨v + len - 1, by omega, by omega, le_antisymm (Nat.div_le_div_right (by omega)) ?_⟩
    have hpos : 0 < max block 1 := by omega
    have hceil : i < (min (v + len) u32Max + max block 1 - 1) / max block 1 * max block 1 :=
      hi.trans_le (min_le_left _ _)
    have hblock : i / max block 1 < (min (v + len) u32Max + max block 1 - 1) / max block 1 :=
      (Nat.div_lt_iff_lt_mul hpos).2 hceil
    have hlast : (min (v + len) u32Max + max block 1 - 1) / max block 1 ≤ (v + len - 1) / max block 1 + 1 := by
      rw [← Nat.add_div_right _ hpos]
      exact Nat.div_le_div_right (by omega)
    omega

namespace DirtyRect

variable {r s : DirtyRect} {levelW levelH : ℕ} {grid : ℕ × ℕ}

/-- The origin lies on the block grid, at 32-bit coordinates. -/
structure OnGrid (r : DirtyRect) (grid : ℕ × ℕ) : Prop where
  x : r.x % max grid.1 1 = 0
  y : r.y % max grid.2 1 = 0
  x_le : r.x ≤ u32Max
  y_le : r.y ≤ u32Max

theorem clamp_of_ends {right bottom : ℕ} (hx : r.x + r.w = right) (hy : r.y + r.h = bottom) (hr : right ≤ u32Max)
    (hb : bottom ≤ u32Max) : r.clamp levelW levelH =
      if min right levelW ≤ min r.x levelW ∨ min bottom levelH ≤ min r.y levelH then none
      else some ⟨min r.x levelW, min r.y levelH, min right levelW - min r.x levelW,
        min bottom levelH - min r.y levelH⟩ := by
  rw [clamp, hx, hy, min_eq_left hr, min_eq_left hb]

theorem clipToLevel_of_onGrid (h : r.OnGrid grid) (levelW levelH : ℕ) :
    r.clipToLevel levelW levelH grid.1 grid.2 =
      if min (gridCeil grid.1 r.x r.w) levelW ≤ min r.x levelW ∨ min (gridCeil grid.2 r.y r.h) levelH ≤ min r.y levelH
      then none
      else some ⟨min r.x levelW, min r.y levelH, min (gridCeil grid.1 r.x r.w) levelW - min r.x levelW,
        min (gridCeil grid.2 r.y r.h) levelH - min r.y levelH⟩ := by
  have hx : r.x ≤ gridCeil grid.1 r.x r.w := by
    have hle := le_gridCeil grid.1 r.x r.w
    have hfit := h.x_le
    omega
  have hy : r.y ≤ gridCeil grid.2 r.y r.h := by
    have hle := le_gridCeil grid.2 r.y r.h
    have hfit := h.y_le
    omega
  simp only [clipToLevel, gridFloor_of_aligned h.x, gridFloor_of_aligned h.y]
  exact clamp_of_ends (Nat.add_sub_cancel' hx) (Nat.add_sub_cancel' hy) (gridCeil_le _ _ _) (gridCeil_le _ _ _)

def Misses (r : DirtyRect) (levelW levelH : ℕ) : Prop := ∀ i j, r.Has i j → ¬ (i < levelW ∧ j < levelH)

theorem misses_iff : r.Misses levelW levelH ↔ r.w = 0 ∨ levelW ≤ r.x ∨ r.h = 0 ∨ levelH ≤ r.y := by
  constructor
  · intro hmiss
    by_contra hnot
    refine hmiss r.x r.y ⟨⟨by omega, by omega⟩, by omega, by omega⟩ ?_
    omega
  · intro hout i j hhas
    unfold Has at hhas
    omega

theorem end_le_iff {block v len level : ℕ} (hv : v ≤ u32Max) (hgrid : v % max block 1 = 0) (hlevel : level ≤ u32Max) :
    min (gridCeil block v len) level ≤ min v level ↔ len = 0 ∨ level ≤ v := by
  obtain rfl | hlen := Nat.eq_zero_or_pos len
  · rw [gridCeil_zero hv hgrid]
    simp
  · have hle := le_gridCeil block v len
    omega

theorem clipToLevel_eq_none (h : r.OnGrid grid) (hw : levelW ≤ u32Max) (hh : levelH ≤ u32Max) :
    r.clipToLevel levelW levelH grid.1 grid.2 = none ↔ r.Misses levelW levelH := by
  rw [clipToLevel_of_onGrid h, misses_iff, ite_eq_left_iff, end_le_iff h.x_le h.x hw, end_le_iff h.y_le h.y hh]
  simp only [reduceCtorEq, imp_false, not_not, or_assoc]

theorem clipToLevel_eq_some (h : r.OnGrid grid) (hs : r.clipToLevel levelW levelH grid.1 grid.2 = some s) :
    s.x = r.x ∧ s.y = r.y ∧ 0 < s.w ∧ 0 < s.h ∧ r.x + s.w = min (gridCeil grid.1 r.x r.w) levelW ∧
      r.y + s.h = min (gridCeil grid.2 r.y r.h) levelH := by
  rw [clipToLevel_of_onGrid h] at hs
  split at hs
  · cases hs
  · cases hs
    simp only
    omega

end DirtyRect

open DirtyRect

variable {region src dst : DirtyRect} {dstOrigin srcLevel dstLevel grid : ℕ × ℕ}

def landing (region : DirtyRect) (dstOrigin : ℕ × ℕ) : DirtyRect := ⟨dstOrigin.1, dstOrigin.2, region.w, region.h⟩

theorem clipCopyRegion_eq_none (hsrc : region.OnGrid grid) (hdst : (landing region dstOrigin).OnGrid grid)
    (hs : srcLevel.1 ≤ u32Max ∧ srcLevel.2 ≤ u32Max) (hd : dstLevel.1 ≤ u32Max ∧ dstLevel.2 ≤ u32Max) :
    clipCopyRegion region dstOrigin srcLevel dstLevel grid = none ↔
      region.Misses srcLevel.1 srcLevel.2 ∨ (landing region dstOrigin).Misses dstLevel.1 dstLevel.2 := by
  rw [← clipToLevel_eq_none hsrc hs.1 hs.2, ← clipToLevel_eq_none hdst hd.1 hd.2, clipCopyRegion, landing]
  cases region.clipToLevel srcLevel.1 srcLevel.2 grid.1 grid.2 with
  | none => simp
  | some src =>
    cases (⟨dstOrigin.1, dstOrigin.2, region.w, region.h⟩ : DirtyRect).clipToLevel dstLevel.1 dstLevel.2 grid.1 grid.2
      <;> simp

theorem clipCopyRegion_eq_some (h : clipCopyRegion region dstOrigin srcLevel dstLevel grid = some (src, dst)) :
    ∃ s d, region.clipToLevel srcLevel.1 srcLevel.2 grid.1 grid.2 = some s ∧
      (landing region dstOrigin).clipToLevel dstLevel.1 dstLevel.2 grid.1 grid.2 = some d ∧
      src = ⟨s.x, s.y, min s.w d.w, min s.h d.h⟩ ∧ dst = ⟨d.x, d.y, min s.w d.w, min s.h d.h⟩ := by
  rw [clipCopyRegion] at h
  cases hs : region.clipToLevel srcLevel.1 srcLevel.2 grid.1 grid.2 with
  | none => rw [hs] at h; cases h
  | some s =>
    cases hd : (landing region dstOrigin).clipToLevel dstLevel.1 dstLevel.2 grid.1 grid.2 with
    | none =>
      rw [landing] at hd
      simp [hs, hd] at h
    | some d =>
      rw [landing] at hd
      obtain ⟨rfl, rfl⟩ : _ ∧ _ := by simpa [hs, hd] using h
      exact ⟨s, d, rfl, rfl, rfl, rfl⟩

/-- Two rects of one extent, each inside its level, that put the requested texels where they were asked to go: every
pair inside both levels, and nothing outside the blocks of the request. -/
structure Clipped (region : DirtyRect) (dstOrigin srcLevel dstLevel grid : ℕ × ℕ) (src dst : DirtyRect) : Prop where
  extent : src.w = dst.w ∧ src.h = dst.h
  srcInside : src.x + src.w ≤ srcLevel.1 ∧ src.y + src.h ≤ srcLevel.2
  dstInside : dst.x + dst.w ≤ dstLevel.1 ∧ dst.y + dst.h ≤ dstLevel.2
  corresponds : src.x = region.x ∧ src.y = region.y ∧ dst.x = dstOrigin.1 ∧ dst.y = dstOrigin.2
  keeps : ∀ i < region.w, ∀ j < region.h, region.x + i < srcLevel.1 → region.y + j < srcLevel.2 →
    dstOrigin.1 + i < dstLevel.1 → dstOrigin.2 + j < dstLevel.2 → i < src.w ∧ j < src.h
  srcBlocks : ∀ i j, src.Has i j → ∃ i' j', region.Has i' j' ∧
    i' / max grid.1 1 = i / max grid.1 1 ∧ j' / max grid.2 1 = j / max grid.2 1
  dstBlocks : ∀ i j, dst.Has i j → ∃ i' j', (landing region dstOrigin).Has i' j' ∧
    i' / max grid.1 1 = i / max grid.1 1 ∧ j' / max grid.2 1 = j / max grid.2 1

theorem DirtyRect.same_block {r s t : DirtyRect} {levelW levelH i j : ℕ} (h : r.OnGrid grid)
    (hs : r.clipToLevel levelW levelH grid.1 grid.2 = some s) (hhas : t.Has i j) (hx : t.x = s.x) (hy : t.y = s.y)
    (hw : t.w ≤ s.w) (hh : t.h ≤ s.h) :
    ∃ i' j', r.Has i' j' ∧ i' / max grid.1 1 = i / max grid.1 1 ∧ j' / max grid.2 1 = j / max grid.2 1 := by
  obtain ⟨hsx, hsy, hsw, hsh, hright, hbottom⟩ := clipToLevel_eq_some h hs
  unfold Has at hhas
  have hlenw : 0 < r.w := by
    refine Nat.pos_of_ne_zero fun hzero ↦ ?_
    rw [hzero, gridCeil_zero h.x_le h.x] at hright
    omega
  have hlenh : 0 < r.h := by
    refine Nat.pos_of_ne_zero fun hzero ↦ ?_
    rw [hzero, gridCeil_zero h.y_le h.y] at hbottom
    omega
  have hi : i < gridCeil grid.1 r.x r.w := by omega
  have hj : j < gridCeil grid.2 r.y r.h := by omega
  obtain ⟨i', hi1, hi2, hi3⟩ := same_block_of_lt_gridCeil hlenw (by omega) hi
  obtain ⟨j', hj1, hj2, hj3⟩ := same_block_of_lt_gridCeil hlenh (by omega) hj
  exact ⟨i', j', ⟨⟨hi1, hi2⟩, hj1, hj2⟩, hi3, hj3⟩

/-- Along one axis, a requested texel inside the level lies in the trimmed extent. -/
theorem lt_of_kept {extent : ℕ} (hlevel : level ≤ u32Max) (hend : v + extent = min (gridCeil block v len) level)
    (hi : i < len) (hin : v + i < level) : i < extent := by
  have hle := le_gridCeil block v len
  omega

theorem clipCopyRegion_clipped (hsrc : region.OnGrid grid) (hdst : (landing region dstOrigin).OnGrid grid)
    (hs : srcLevel.1 ≤ u32Max ∧ srcLevel.2 ≤ u32Max) (hd : dstLevel.1 ≤ u32Max ∧ dstLevel.2 ≤ u32Max)
    (h : clipCopyRegion region dstOrigin srcLevel dstLevel grid = some (src, dst)) :
    Clipped region dstOrigin srcLevel dstLevel grid src dst := by
  obtain ⟨s, d, hsome, dsome, rfl, rfl⟩ := clipCopyRegion_eq_some h
  obtain ⟨hsx, hsy, hsw, hsh, hsr, hsb⟩ := clipToLevel_eq_some hsrc hsome
  obtain ⟨hdx, hdy, hdw, hdh, hdr, hdb⟩ := clipToLevel_eq_some hdst dsome
  simp only [landing] at hdx hdy hdr hdb
  refine ⟨⟨rfl, rfl⟩, ?_, ?_, ⟨hsx, hsy, hdx, hdy⟩, fun i hi j hj hi1 hj1 hi2 hj2 ↦ ?_, fun i j hhas ↦ ?_,
    fun i j hhas ↦ ?_⟩
  · simp only
    omega
  · simp only
    omega
  · exact ⟨lt_min (lt_of_kept hs.1 hsr hi hi1) (lt_of_kept hd.1 hdr hi hi2),
      lt_min (lt_of_kept hs.2 hsb hj hj1) (lt_of_kept hd.2 hdb hj hj2)⟩
  · exact same_block hsrc hsome hhas rfl rfl (min_le_left _ _) (min_le_left _ _)
  · exact same_block hdst dsome hhas rfl rfl (min_le_right _ _) (min_le_right _ _)

def requested (srcRect : Option SignedRect) (srcLevel : ℕ × ℕ) : DirtyRect :=
  srcRect.elim (.full srcLevel.1 srcLevel.2) fun r ↦
    ⟨r.left.toNat, r.top.toNat, (r.right - r.left).toNat, (r.bottom - r.top).toNat⟩

structure Accepted (srcRect : Option SignedRect) (dstPoint : ℤ × ℤ) (srcLevel dstLevel grid : ℕ × ℕ) : Prop where
  rect : ∀ r, srcRect = some r → 0 ≤ r.left ∧ 0 ≤ r.top ∧ r.left < r.right ∧ r.top < r.bottom
  point : 0 ≤ dstPoint.1 ∧ 0 ≤ dstPoint.2
  srcInside : (requested srcRect srcLevel).x + (requested srcRect srcLevel).w ≤ srcLevel.1 ∧
    (requested srcRect srcLevel).y + (requested srcRect srcLevel).h ≤ srcLevel.2
  dstInside : dstPoint.1.toNat + (requested srcRect srcLevel).w ≤ dstLevel.1 ∧
    dstPoint.2.toNat + (requested srcRect srcLevel).h ≤ dstLevel.2
  origin : (requested srcRect srcLevel).x % max grid.1 1 = 0 ∧ (requested srcRect srcLevel).y % max grid.2 1 = 0 ∧
    dstPoint.1.toNat % max grid.1 1 = 0 ∧ dstPoint.2.toNat % max grid.2 1 = 0
  width : (requested srcRect srcLevel).w % max grid.1 1 = 0 ∨
    (requested srcRect srcLevel).x + (requested srcRect srcLevel).w = srcLevel.1 ∧
      dstPoint.1.toNat + (requested srcRect srcLevel).w = dstLevel.1
  height : (requested srcRect srcLevel).h % max grid.2 1 = 0 ∨
    (requested srcRect srcLevel).y + (requested srcRect srcLevel).h = srcLevel.2 ∧
      dstPoint.2.toNat + (requested srcRect srcLevel).h = dstLevel.2

variable {srcRect : Option SignedRect} {dstPoint : ℤ × ℤ}

theorem sourceRegion_eq_some : sourceRegion srcRect srcLevel = some region ↔
    (∀ r, srcRect = some r → 0 ≤ r.left ∧ 0 ≤ r.top ∧ r.left < r.right ∧ r.top < r.bottom) ∧
      region = requested srcRect srcLevel := by
  cases srcRect with
  | none => simp [sourceRegion, requested, eq_comm]
  | some r =>
    simp only [sourceRegion, requested, Option.some.injEq, forall_eq', Option.elim_some]
    by_cases hbad : r.left < 0 ∨ r.top < 0 ∨ r.right ≤ r.left ∨ r.bottom ≤ r.top
    · rw [if_pos hbad]
      simp only [reduceCtorEq, false_iff, not_and]
      omega
    · have hgood : 0 ≤ r.left ∧ 0 ≤ r.top ∧ r.left < r.right ∧ r.top < r.bottom := by omega
      have hw : (r.right - r.left).natAbs = (r.right - r.left).toNat := by omega
      have hh : (r.bottom - r.top).natAbs = (r.bottom - r.top).toNat := by omega
      rw [if_neg hbad, hw, hh, Option.some.injEq, eq_comm, and_iff_right hgood]

theorem updateSurfaceRegion_eq_some (hs : srcLevel.1 < 2 ^ 31 ∧ srcLevel.2 < 2 ^ 31)
    (hd : dstLevel.1 < 2 ^ 31 ∧ dstLevel.2 < 2 ^ 31) {result : DirtyRect × (ℕ × ℕ)} :
    updateSurfaceRegion srcRect dstPoint srcLevel dstLevel grid = some result ↔
      Accepted srcRect dstPoint srcLevel dstLevel grid ∧
        result = (requested srcRect srcLevel, (dstPoint.1.toNat, dstPoint.2.toNat)) := by
  have hmax : u32Max = 2 ^ 32 - 1 := rfl
  rw [updateSurfaceRegion, Option.bind_eq_bind, Option.bind_eq_some_iff]
  constructor
  · rintro ⟨region, hregion, h⟩
    obtain ⟨hrect, rfl⟩ := sourceRegion_eq_some.1 hregion
    split at h
    · cases h
    · rename_i hpoint
      simp only at h
      split at h
      · cases h
      · rename_i hinside
        split at h
        · cases h
        · rename_i hgrid
          cases h
          rw [not_and_or] at hgrid
          obtain hone | hgrid := hgrid
          · have hw : max grid.1 1 = 1 := by omega
            have hh : max grid.2 1 = 1 := by omega
            refine ⟨⟨hrect, by omega, by omega, by omega, ?_, ?_, ?_⟩, rfl⟩ <;>
              simp [hw, hh, Nat.mod_one]
          · refine ⟨⟨hrect, by omega, by omega, by omega, ?_, ?_, ?_⟩, rfl⟩ <;> omega
  · rintro ⟨⟨hrect, hpoint, hsrc, hdst, horigin, hwidth, hheight⟩, rfl⟩
    refine ⟨_, sourceRegion_eq_some.2 ⟨hrect, rfl⟩, ?_⟩
    rw [if_neg (by omega), if_neg (by omega), if_neg (by omega)]

theorem DirtyRect.clipToLevel_self {r : DirtyRect} {levelW levelH : ℕ} (h : r.OnGrid grid) (hlw : levelW ≤ u32Max)
    (hlh : levelH ≤ u32Max) (hw : 0 < r.w) (hh : 0 < r.h) (hx : r.x + r.w ≤ levelW) (hy : r.y + r.h ≤ levelH)
    (hgw : r.w % max grid.1 1 = 0 ∨ r.x + r.w = levelW) (hgh : r.h % max grid.2 1 = 0 ∨ r.y + r.h = levelH) :
    r.clipToLevel levelW levelH grid.1 grid.2 = some r := by
  have hright : min (gridCeil grid.1 r.x r.w) levelW = r.x + r.w := by
    refine min_gridCeil hlw hx (hgw.imp_left fun hgrid ↦ ?_)
    rw [Nat.add_mod, h.x, hgrid, zero_add, Nat.zero_mod]
  have hbottom : min (gridCeil grid.2 r.y r.h) levelH = r.y + r.h := by
    refine min_gridCeil hlh hy (hgh.imp_left fun hgrid ↦ ?_)
    rw [Nat.add_mod, h.y, hgrid, zero_add, Nat.zero_mod]
  rw [clipToLevel_of_onGrid h, hright, hbottom, if_neg (by omega), Option.some.injEq]
  cases r
  simp only [DirtyRect.mk.injEq] at hx hy ⊢
  omega

theorem Accepted.onGrid (h : Accepted srcRect dstPoint srcLevel dstLevel grid)
    (hs : srcLevel.1 < 2 ^ 31 ∧ srcLevel.2 < 2 ^ 31) : (requested srcRect srcLevel).OnGrid grid := by
  have hmax : u32Max = 2 ^ 32 - 1 := rfl
  obtain ⟨hx, hy, -, -⟩ := h.origin
  have hinside := h.srcInside
  exact ⟨hx, hy, by omega, by omega⟩

theorem Accepted.landing_onGrid (h : Accepted srcRect dstPoint srcLevel dstLevel grid)
    (hd : dstLevel.1 < 2 ^ 31 ∧ dstLevel.2 < 2 ^ 31) :
    (landing (requested srcRect srcLevel) (dstPoint.1.toNat, dstPoint.2.toNat)).OnGrid grid := by
  have hmax : u32Max = 2 ^ 32 - 1 := rfl
  obtain ⟨-, -, hx, hy⟩ := h.origin
  have hinside := h.dstInside
  refine ⟨hx, hy, ?_, ?_⟩ <;> simp only [landing] <;> omega

theorem clip_of_accepted (hs : srcLevel.1 < 2 ^ 31 ∧ srcLevel.2 < 2 ^ 31)
    (hd : dstLevel.1 < 2 ^ 31 ∧ dstLevel.2 < 2 ^ 31) (h : Accepted srcRect dstPoint srcLevel dstLevel grid)
    (hw : 0 < (requested srcRect srcLevel).w) (hh : 0 < (requested srcRect srcLevel).h) :
    clipCopyRegion (requested srcRect srcLevel) (dstPoint.1.toNat, dstPoint.2.toNat) srcLevel dstLevel grid =
      some (requested srcRect srcLevel,
        landing (requested srcRect srcLevel) (dstPoint.1.toNat, dstPoint.2.toNat)) := by
  have hmax : u32Max = 2 ^ 32 - 1 := rfl
  have honSrc := h.onGrid hs
  have honDst := h.landing_onGrid hd
  obtain ⟨-, -, hsrc, hdst, -, hwidth, hheight⟩ := h
  have hsome : (requested srcRect srcLevel).clipToLevel srcLevel.1 srcLevel.2 grid.1 grid.2 =
      some (requested srcRect srcLevel) :=
    clipToLevel_self honSrc (by omega) (by omega) hw hh hsrc.1 hsrc.2
      (hwidth.imp_right And.left) (hheight.imp_right And.left)
  have dsome : (landing (requested srcRect srcLevel) (dstPoint.1.toNat, dstPoint.2.toNat)).clipToLevel dstLevel.1
      dstLevel.2 grid.1 grid.2 = some (landing (requested srcRect srcLevel) (dstPoint.1.toNat, dstPoint.2.toNat)) :=
    clipToLevel_self honDst (by omega) (by omega) hw hh hdst.1 hdst.2 (hwidth.imp_right And.right)
      (hheight.imp_right And.right)
  rw [landing] at dsome
  rw [clipCopyRegion, hsome, dsome]
  simp only [Option.bind_eq_bind, Option.bind_some, min_self]
  rfl

theorem clip_of_empty (hs : srcLevel.1 < 2 ^ 31 ∧ srcLevel.2 < 2 ^ 31)
    (hd : dstLevel.1 < 2 ^ 31 ∧ dstLevel.2 < 2 ^ 31) (hsrc : region.OnGrid grid)
    (hdst : (landing region dstOrigin).OnGrid grid) (hempty : region.w = 0 ∨ region.h = 0) :
    clipCopyRegion region dstOrigin srcLevel dstLevel grid = none := by
  have hmax : u32Max = 2 ^ 32 - 1 := rfl
  refine (clipCopyRegion_eq_none hsrc hdst (by omega) (by omega)).2 (.inl (misses_iff.2 ?_))
  tauto

/-- Every region and point the calls take is a copy D3D9 takes, a copy on the block grid is clipped to exactly its
texels inside both levels and the rest of their blocks, and one that was taken is not clipped further. -/
theorem surface_copies_are_clipped (srcLevel dstLevel grid : ℕ × ℕ) (hs : srcLevel.1 < 2 ^ 31 ∧ srcLevel.2 < 2 ^ 31)
    (hd : dstLevel.1 < 2 ^ 31 ∧ dstLevel.2 < 2 ^ 31) :
    (∀ srcRect dstPoint result, updateSurfaceRegion srcRect dstPoint srcLevel dstLevel grid = some result ↔
      Accepted srcRect dstPoint srcLevel dstLevel grid ∧
        result = (requested srcRect srcLevel, (dstPoint.1.toNat, dstPoint.2.toNat))) ∧
    (∀ region dstOrigin, region.OnGrid grid → (landing region dstOrigin).OnGrid grid →
      (clipCopyRegion region dstOrigin srcLevel dstLevel grid = none ↔
        region.Misses srcLevel.1 srcLevel.2 ∨ (landing region dstOrigin).Misses dstLevel.1 dstLevel.2) ∧
      ∀ src dst, clipCopyRegion region dstOrigin srcLevel dstLevel grid = some (src, dst) →
        Clipped region dstOrigin srcLevel dstLevel grid src dst) ∧
    (∀ srcRect dstPoint region dstOrigin,
      updateSurfaceRegion srcRect dstPoint srcLevel dstLevel grid = some (region, dstOrigin) →
      (0 < region.w ∧ 0 < region.h → clipCopyRegion region dstOrigin srcLevel dstLevel grid =
        some (region, landing region dstOrigin)) ∧
      (¬ (0 < region.w ∧ 0 < region.h) → srcRect = none ∧ (srcLevel.1 = 0 ∨ srcLevel.2 = 0) ∧
        clipCopyRegion region dstOrigin srcLevel dstLevel grid = none)) ∧
    (∀ region : DirtyRect, region.x ≤ u32Max → region.y ≤ u32Max →
      gridFloor grid.1 region.x ≤ gridCeil grid.1 region.x region.w ∧ gridCeil grid.1 region.x region.w ≤ u32Max ∧
        gridFloor grid.2 region.y ≤ gridCeil grid.2 region.y region.h ∧
        gridCeil grid.2 region.y region.h ≤ u32Max) := by
  have hmax : u32Max = 2 ^ 32 - 1 := rfl
  refine ⟨fun _ _ _ ↦ updateSurfaceRegion_eq_some hs hd, fun region dstOrigin hsrc hdst ↦
    ⟨clipCopyRegion_eq_none hsrc hdst (by omega) (by omega), fun src dst h ↦
      clipCopyRegion_clipped hsrc hdst (by omega) (by omega) h⟩, fun srcRect dstPoint region dstOrigin h ↦ ?_,
    fun region hx hy ↦ ⟨gridFloor_le_gridCeil hx, gridCeil_le _ _ _, gridFloor_le_gridCeil hy, gridCeil_le _ _ _⟩⟩
  obtain ⟨haccepted, heq⟩ := (updateSurfaceRegion_eq_some hs hd).1 h
  obtain ⟨rfl, rfl⟩ := Prod.mk.inj heq
  refine ⟨fun hpos ↦ clip_of_accepted hs hd haccepted hpos.1 hpos.2, fun hempty ↦ ?_⟩
  have hdropped := clip_of_empty hs hd (haccepted.onGrid hs) (haccepted.landing_onGrid hd) (by omega)
  cases srcRect with
  | none =>
    simp only [requested, Option.elim_none, full] at hempty
    exact ⟨rfl, by omega, hdropped⟩
  | some r =>
    obtain ⟨-, -, hright, hbottom⟩ := haccepted.rect r rfl
    simp only [requested, Option.elim_some] at hempty
    omega

/-- A ragged compressed edge: the last two columns of a 6 by 4 level go to the last two of another. -/
theorem surface_copies_are_clipped_ragged :
    updateSurfaceRegion (some ⟨4, 0, 6, 4⟩) (4, 0) (6, 4) (6, 4) (4, 4) = some (⟨4, 0, 2, 4⟩, (4, 0)) ∧
      clipCopyRegion ⟨4, 0, 2, 4⟩ (4, 0) (6, 4) (6, 4) (4, 4) = some (⟨4, 0, 2, 4⟩, ⟨4, 0, 2, 4⟩) := by
  have htaken : updateSurfaceRegion (some ⟨4, 0, 6, 4⟩) (4, 0) (6, 4) (6, 4) (4, 4) = some (⟨4, 0, 2, 4⟩, (4, 0)) := by
    decide
  exact ⟨htaken, ((surface_copies_are_clipped (6, 4) (6, 4) (4, 4) (by decide) (by decide)).2.2.1 _ _ _ _ htaken).1
    (by decide)⟩

/-- The whole of a level without texels is taken, and then dropped by the clip. -/
theorem empty_level_copy_is_taken :
    updateSurfaceRegion none (0, 0) (0, 1) (0, 1) (1, 1) = some (⟨0, 0, 0, 1⟩, (0, 0)) ∧
      clipCopyRegion ⟨0, 0, 0, 1⟩ (0, 0) (0, 1) (0, 1) (1, 1) = none := by
  decide

end Mtld3d
