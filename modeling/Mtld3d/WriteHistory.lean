import Mtld3d.TextureVersions

namespace Mtld3d

open List StampGrid

theorem levelExtent_le {base : ℕ} (level : ℕ) (h : base ≤ u32Max) : levelExtent base level ≤ u32Max := by
  refine max_le ((Nat.shiftRight_le _ _).trans (max_le h ?_)) ?_ <;> decide

namespace WriteHistory

variable {h : WriteHistory} {shape : VersionShape} {slice level : ℕ} {g : StampGrid}

/-- The history's grids are those of the shape, and its counter is past every stamp on them. -/
structure Fits (h : WriteHistory) (shape : VersionShape) : Prop where
  slices_eq : h.slices = shape.slices
  levels_eq : h.levels = shape.levels
  length_eq : h.grids.length = shape.slices * shape.levels
  width_eq : ∀ slice level g, level < shape.levels → h.grid slice level = some g →
    g.width = levelExtent shape.width level
  height_eq : ∀ slice level g, level < shape.levels → h.grid slice level = some g →
    g.height = levelExtent shape.height level
  wellFormed : ∀ g ∈ h.grids, g.WellFormed
  newest_le : ∀ g ∈ h.grids, g.newest ≤ h.writes

theorem mem_of_grid (hg : h.grid slice level = some g) : g ∈ h.grids := mem_of_getElem? hg

theorem Fits.exists_grid (hf : h.Fits shape) (hslice : slice < shape.slices) (hlevel : level < shape.levels) :
    ∃ g, h.grid slice level = some g := by
  have hlt : slice * h.levels + level < h.grids.length := by
    rw [hf.length_eq, hf.levels_eq]
    calc slice * shape.levels + level < slice * shape.levels + shape.levels := by omega
      _ = (slice + 1) * shape.levels := (Nat.succ_mul _ _).symm
      _ ≤ shape.slices * shape.levels := Nat.mul_le_mul_right _ hslice
  exact ⟨_, getElem?_eq_getElem hlt⟩

theorem getElem?_flatMap_range (f : ℕ → StampGrid) (slices levels : ℕ) {slice : ℕ} {level : ℕ}
    (hlevel : level < levels) :
    ((range slices).flatMap fun _ ↦ (range levels).map f)[slice * levels + level]? =
      if slice < slices then some (f level) else none := by
  induction slices generalizing slice with
  | zero => simp
  | succ n ih =>
    rw [range_succ_eq_map, flatMap_cons, flatMap_map]
    cases slice with
    | zero =>
      rw [zero_mul, zero_add, getElem?_append_left (by simpa using hlevel)]
      simp [hlevel]
    | succ slice =>
      rw [getElem?_append_right (by simp only [length_map, length_range, Nat.succ_mul]; omega)]
      have hidx : (slice + 1) * levels + level - ((range levels).map f).length = slice * levels + level := by
        rw [length_map, length_range, Nat.succ_mul]
        omega
      rw [hidx]
      rw [ih]
      simp

theorem grid_new (hlevel : level < shape.levels) (hg : (new shape).grid slice level = some g) :
    g = .new (levelExtent shape.width level) (levelExtent shape.height level) shape.pixelFormat.blockLayout := by
  rw [grid, new, getElem?_flatMap_range _ _ _ hlevel] at hg
  split_ifs at hg
  exact (Option.some.inj hg).symm

theorem fits_new (shape : VersionShape) : (new shape).Fits shape where
  slices_eq := rfl
  levels_eq := rfl
  length_eq := by simp [new, length_flatMap]
  width_eq slice level g hlevel hg := by rw [grid_new hlevel hg]; rfl
  height_eq slice level g hlevel hg := by rw [grid_new hlevel hg]; rfl
  wellFormed g hg := by
    obtain ⟨_, _, hmap⟩ := mem_flatMap.mp hg
    obtain ⟨level, _, rfl⟩ := mem_map.mp hmap
    exact new_wellFormed _ (levelExtent_le level shape.width_le) (levelExtent_le level shape.height_le)
  newest_le g hg := by
    obtain ⟨_, _, hmap⟩ := mem_flatMap.mp hg
    obtain ⟨level, _, rfl⟩ := mem_map.mp hmap
    exact le_rfl

theorem Fits.stampSome (hf : h.Fits shape) {grids : List StampGrid} (hlength : grids.length = h.grids.length)
    (hstamp : ∀ (i : ℕ) (g' : StampGrid), grids[i]? = some g' → ∃ g : StampGrid, h.grids[i]? = some g ∧
      (g' = g ∨ ∃ rect, g' = g.stamp rect (h.writes + 1))) :
    { h with writes := h.writes + 1, grids }.Fits shape where
  slices_eq := hf.slices_eq
  levels_eq := hf.levels_eq
  length_eq := hlength.trans hf.length_eq
  width_eq slice level g' hlevel hg' := by
    obtain ⟨g, hg, rfl | ⟨rect, rfl⟩⟩ := hstamp _ g' hg'
    · exact hf.width_eq slice level g' hlevel hg
    · rw [stamp_width, hf.width_eq slice level g hlevel hg]
  height_eq slice level g' hlevel hg' := by
    obtain ⟨g, hg, rfl | ⟨rect, rfl⟩⟩ := hstamp _ g' hg'
    · exact hf.height_eq slice level g' hlevel hg
    · rw [stamp_height, hf.height_eq slice level g hlevel hg]
  wellFormed g' hg' := by
    obtain ⟨i, hi⟩ := mem_iff_getElem?.mp hg'
    obtain ⟨g, hg, rfl | ⟨rect, rfl⟩⟩ := hstamp i g' hi
    · exact hf.wellFormed g' (mem_of_getElem? hg)
    · have hmem := mem_of_getElem? hg
      exact (hf.wellFormed g hmem).stamp ((hf.newest_le g hmem).trans (Nat.le_succ _))
  newest_le g' hg' := by
    obtain ⟨i, hi⟩ := mem_iff_getElem?.mp hg'
    obtain ⟨g, hg, rfl | ⟨rect, rfl⟩⟩ := hstamp i g' hi
    · exact (hf.newest_le g' (mem_of_getElem? hg)).trans (Nat.le_succ _)
    · exact newest_stamp_le ((hf.newest_le g (mem_of_getElem? hg)).trans (Nat.le_succ _))

theorem Fits.noteWrite (hf : h.Fits shape) (slice level : ℕ) (rect : TexelRect) :
    (h.noteWrite slice level rect).Fits shape := by
  refine hf.stampSome (length_modify _ _ _) fun i g' hi ↦ ?_
  rw [getElem?_modify] at hi
  obtain ⟨g, hg, rfl⟩ := Option.map_eq_some_iff.mp hi
  refine ⟨g, hg, ?_⟩
  split_ifs
  exacts [.inr ⟨rect, rfl⟩, .inl rfl]

theorem Fits.noteMipRegeneration (hf : h.Fits shape) : h.noteMipRegeneration.Fits shape := by
  refine hf.stampSome length_mapIdx fun i g' hi ↦ ?_
  rw [getElem?_mapIdx] at hi
  obtain ⟨g, hg, rfl⟩ := Option.map_eq_some_iff.mp hi
  refine ⟨g, hg, ?_⟩
  split_ifs
  exacts [.inl rfl, .inr ⟨_, rfl⟩]

def stampOf (h : WriteHistory) (slice level x y : ℕ) : ℕ :=
  ((h.grid slice level).map fun g ↦ g.stampAt (g.tileOf x y)).getD 0

theorem stampOf_eq {x y : ℕ} (hg : h.grid slice level = some g) :
    h.stampOf slice level x y = g.stampAt (g.tileOf x y) := by rw [stampOf, hg]; rfl

theorem stampAt_stamp (g : StampGrid) (rect : TexelRect) (n x y : ℕ) :
    (g.stamp rect n).stampAt ((g.stamp rect n).tileOf x y) = g.stampAt (g.tileOf x y) ∨
      (g.stamp rect n).stampAt ((g.stamp rect n).tileOf x y) = n := by
  rw [stamp_tileOf, stampAt, stampAt, stamp_columns]
  exact stamps_stamp _

theorem grid_noteWrite (h : WriteHistory) (slice level : ℕ) (rect : TexelRect) (slice' level' : ℕ) :
    (h.noteWrite slice level rect).grid slice' level' = (h.grid slice' level').map fun g ↦
      if slice * h.levels + level = slice' * h.levels + level' then g.stamp rect (h.writes + 1) else g := by
  rw [grid, grid, noteWrite, getElem?_modify]
  rfl

theorem stampOf_noteWrite (h : WriteHistory) (slice level : ℕ) (rect : TexelRect) (slice' level' x y : ℕ) :
    (h.noteWrite slice level rect).stampOf slice' level' x y = h.stampOf slice' level' x y ∨
      (h.noteWrite slice level rect).stampOf slice' level' x y = h.writes + 1 := by
  rw [stampOf, stampOf, grid_noteWrite]
  cases h.grid slice' level' with
  | none => exact .inl rfl
  | some g =>
    simp only [Option.map_some, Option.getD_some]
    split_ifs
    · exact stampAt_stamp g rect _ x y
    · exact .inl rfl

theorem Fits.stampOf_noteWrite_of_covers (hf : h.Fits shape) {rect : TexelRect} {x y : ℕ}
    (hslice : slice < shape.slices) (hlevel : level < shape.levels) (hc : rect.Covers x y)
    (hx : x < levelExtent shape.width level) (hy : y < levelExtent shape.height level) :
    (h.noteWrite slice level rect).stampOf slice level x y = h.writes + 1 := by
  obtain ⟨g, hg⟩ := hf.exists_grid hslice hlevel
  rw [stampOf, grid_noteWrite, hg, Option.map_some, Option.map_some, if_pos rfl, Option.getD_some,
    stamp_tileOf]
  refine ((hf.wellFormed g (mem_of_grid hg)).stampAt_of_covers hc ?_ ?_).1
  · rwa [hf.width_eq slice level g hlevel hg]
  · rwa [hf.height_eq slice level g hlevel hg]

theorem grid_noteMipRegeneration (h : WriteHistory) (slice level : ℕ) :
    h.noteMipRegeneration.grid slice level = (h.grid slice level).map fun g ↦
      if (slice * h.levels + level) % max h.levels 1 = 0 then g
      else g.stamp (.level g.width g.height) (h.writes + 1) := by
  rw [grid, grid, noteMipRegeneration, getElem?_mapIdx]

theorem stampOf_noteMipRegeneration (h : WriteHistory) (slice level x y : ℕ) :
    h.noteMipRegeneration.stampOf slice level x y = h.stampOf slice level x y ∨
      h.noteMipRegeneration.stampOf slice level x y = h.writes + 1 := by
  rw [stampOf, stampOf, grid_noteMipRegeneration]
  cases h.grid slice level with
  | none => exact .inl rfl
  | some g =>
    simp only [Option.map_some, Option.getD_some]
    split_ifs
    · exact .inl rfl
    · exact stampAt_stamp g _ _ x y

theorem Fits.stampOf_noteMipRegeneration_of_pos (hf : h.Fits shape) {x y : ℕ} (hslice : slice < shape.slices)
    (hlevel : level < shape.levels) (hpos : level ≠ 0) (hx : x < levelExtent shape.width level)
    (hy : y < levelExtent shape.height level) :
    h.noteMipRegeneration.stampOf slice level x y = h.writes + 1 := by
  obtain ⟨g, hg⟩ := hf.exists_grid hslice hlevel
  have hfirst : ¬(slice * h.levels + level) % max h.levels 1 = 0 := by
    have hlt : level < h.levels := hf.levels_eq ▸ hlevel
    rw [max_eq_left (by omega), Nat.mul_add_mod_self_right, Nat.mod_eq_of_lt hlt]
    exact hpos
  rw [stampOf, grid_noteMipRegeneration, hg, Option.map_some, Option.map_some, if_neg hfirst, Option.getD_some,
    stamp_tileOf]
  rw [← hf.width_eq slice level g hlevel hg] at hx
  rw [← hf.height_eq slice level g hlevel hg] at hy
  exact ((hf.wellFormed g (mem_of_grid hg)).stampAt_of_covers (TexelRect.level_covers.mpr ⟨hx, hy⟩) hx hy).1

end WriteHistory

end Mtld3d
