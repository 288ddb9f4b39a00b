import Mtld3d.DirtyRect
import Mtld3d.UploadSnapshots

namespace Mtld3d

open Lib

structure MipShape where
  mipW : ℕ
  mipH : ℕ
  blockW : ℕ
  blockH : ℕ
  mipW_le : mipW ≤ u32Max
  mipH_le : mipH ≤ u32Max
  blockW_pos : 0 < blockW
  blockH_pos : 0 < blockH

def isWholeMip (rect : DirtyRect) (shape : MipShape) : Bool :=
  rect.x == 0 && rect.y == 0 && decide (shape.mipW ≤ rect.w) && decide (shape.mipH ≤ rect.h)

def rectBlockAligned (r : DirtyRect) (shape : MipShape) : Bool :=
  r.x % shape.blockW == 0 && r.y % shape.blockH == 0 &&
    (r.w % shape.blockW == 0 || r.x + r.w == shape.mipW) && (r.h % shape.blockH == 0 || r.y + r.h == shape.mipH)

/-- The byte of the box's first block in the staging, before it is taken as a `usize`. -/
def stagingOffset (r : DirtyRect) (shape : MipShape) (pitch blockBytes : ℕ) : ℕ :=
  r.y / shape.blockH * pitch + r.x / shape.blockW * blockBytes

def textureLockOffset (t : PointerWidth) (r : DirtyRect) (shape : MipShape) (pitch blockBytes : ℕ) : ℕ :=
  stagingOffset r shape pitch blockBytes % (t.usizeMax + 1)

structure SnapshotLayout where
  srcOffset : ℕ
  rowBytes : ℕ
  rows : ℕ
  pitch : ℕ
  len : ℕ

def u64Wrap : ℕ := 18446744073709551616

def SnapshotLayout.fitsSource (l : SnapshotLayout) (srcPitch srcLen : ℕ) : Bool :=
  let stop := l.srcOffset + (l.rows - 1) * srcPitch + l.rowBytes
  decide (stop < u64Wrap) && decide (stop ≤ srcLen)

inductive SnapshotBox
  | wholeLevel
  | declined
  | copy (layout : SnapshotLayout)

def boxCols (r : DirtyRect) (shape : MipShape) : ℕ := divCeil (r.x + r.w) shape.blockW - r.x / shape.blockW

def boxRows (r : DirtyRect) (shape : MipShape) : ℕ := divCeil (r.y + r.h) shape.blockH - r.y / shape.blockH

def snapshotBox (t : PointerWidth) (rect : DirtyRect) (shape : MipShape) (blockBytes srcPitch pitchAlign : ℕ) :
    SnapshotBox :=
  if isWholeMip rect shape then .wholeLevel
  else if rect.w = 0 ∨ rect.h = 0 ∨ pitchAlign = 0 ∨ rectBlockAligned rect shape = false then .declined
  else
    let rowBytes := boxCols rect shape * blockBytes % u64Wrap
    let pitch := nextMultipleOf rowBytes pitchAlign % u64Wrap
    let len := pitch * boxRows rect shape % u64Wrap
    if rowBytes = 0 ∨ UploadSnapshots.snapshotMaxBytes < len then .declined
    else if rowBytes ≤ u32Max ∧ boxRows rect shape ≤ u32Max ∧ pitch ≤ u32Max ∧ len ≤ u32Max then
      .copy ⟨textureLockOffset t rect shape srcPitch blockBytes, rowBytes, boxRows rect shape, pitch, len⟩
    else .declined

def copyRow (src : ℕ → UInt8) (srcOffset srcPitch dstPitch rowBytes : ℕ) (dst : ℕ → UInt8) (row : ℕ) : ℕ → UInt8 :=
  writeRange dst (row * dstPitch) (readRange src (srcOffset + row * srcPitch) rowBytes)

def copyRows (t : PointerWidth) (src : ℕ → UInt8) (srcLen srcOffset srcPitch : ℕ) (dst : ℕ → UInt8)
    (dstLen dstPitch rowBytes rows : ℕ) : Option (ℕ → UInt8) :=
  if rows = 0 then some dst
  else
    let srcEnd := (rows - 1) * srcPitch + srcOffset + rowBytes
    let dstEnd := (rows - 1) * dstPitch + rowBytes
    if srcEnd ≤ t.usizeMax ∧ srcEnd ≤ srcLen ∧ dstEnd ≤ t.usizeMax ∧ dstEnd ≤ dstLen then
      some ((List.range rows).foldl (copyRow src srcOffset srcPitch dstPitch rowBytes) dst)
    else none

def snapshotPassBase (sourceOffset : ℕ) (origin : ℕ × ℕ) (pitch bytesPerTexel : ℕ) : ℕ :=
  (sourceOffset + 2 ^ 32 - (origin.2 * pitch + origin.1 * bytesPerTexel) % 2 ^ 32) % 2 ^ 32

def passAddress (base x y pitch bytesPerTexel : ℕ) : ℕ := (base + y * pitch + x * bytesPerTexel) % 2 ^ 32

variable {t : PointerWidth} {rect : DirtyRect} {shape : MipShape} {blockBytes srcPitch pitchAlign : ℕ}
  {layout : SnapshotLayout}

theorem foldl_copyRow {src dst : ℕ → UInt8} {srcOffset dstPitch rowBytes rows j k : ℕ} (hpitch : rowBytes ≤ dstPitch)
    (hj : j < rows) (hk : k < rowBytes) :
    (List.range rows).foldl (copyRow src srcOffset srcPitch dstPitch rowBytes) dst (j * dstPitch + k) =
      src (srcOffset + j * srcPitch + k) := by
  induction rows with
  | zero => cases hj
  | succ rows ih =>
    rw [List.range_succ, List.foldl_concat, copyRow]
    obtain hlt | rfl := Nat.lt_succ_iff_lt_or_eq.1 hj
    · have hbefore : (j + 1) * dstPitch ≤ rows * dstPitch := Nat.mul_le_mul_right _ hlt
      rw [add_mul] at hbefore
      rw [writeRange_outside _ (.inl (by omega)), ih hlt]
    · rw [writeRange, if_pos (Nat.le_add_right _ _), Nat.add_sub_cancel_left, readRange, List.getElem?_map,
        List.getElem?_range hk]
      rfl

structure Laid (t : PointerWidth) (rect : DirtyRect) (shape : MipShape) (blockBytes srcPitch pitchAlign : ℕ)
    (layout : SnapshotLayout) : Prop where
  srcOffset : layout.srcOffset = stagingOffset rect shape srcPitch blockBytes % (t.usizeMax + 1)
  rowBytes : layout.rowBytes = boxCols rect shape * blockBytes
  rows : layout.rows = boxRows rect shape
  pitch : layout.pitch = nextMultipleOf (boxCols rect shape * blockBytes) pitchAlign
  len : layout.len = layout.pitch * layout.rows
  rowBytes_le : layout.rowBytes ≤ layout.pitch
  len_le : layout.len ≤ UploadSnapshots.chunkBytes
  rows_pos : 0 < layout.rows

theorem divCeil_le {a b : ℕ} (hb : 0 < b) : divCeil a b ≤ a := by
  have hmul : a ≤ a * b := Nat.le_mul_of_pos_right a hb
  refine Nat.lt_succ_iff.1 ((Nat.div_lt_iff_lt_mul hb).2 ?_)
  rw [Nat.succ_mul]
  omega

theorem nextMultipleOf_lt {a b : ℕ} (hb : 0 < b) : nextMultipleOf a b < a + b := by
  have hle := Nat.div_mul_le_self (a + b - 1) b
  rw [nextMultipleOf, divCeil]
  omega

/-- No size of a copied box wraps but the offset into the staging. -/
theorem laid_of_copy (hx : rect.x + rect.w ≤ shape.mipW) (hb : blockBytes ≤ u32Max) (ha : pitchAlign ≤ u32Max)
    (h : snapshotBox t rect shape blockBytes srcPitch pitchAlign = .copy layout) :
    Laid t rect shape blockBytes srcPitch pitchAlign layout := by
  rw [snapshotBox] at h
  split at h
  · cases h
  split at h
  · cases h
  rename_i hshape
  have hcols : boxCols rect shape ≤ u32Max :=
    (Nat.sub_le _ _).trans ((divCeil_le shape.blockW_pos).trans (hx.trans shape.mipW_le))
  have hprod : boxCols rect shape * blockBytes ≤ u32Max * u32Max := Nat.mul_le_mul hcols hb
  have hwrap : u32Max * u32Max + u32Max < u64Wrap := by decide
  have hrow : boxCols rect shape * blockBytes % u64Wrap = boxCols rect shape * blockBytes :=
    Nat.mod_eq_of_lt (by omega)
  have hnext := nextMultipleOf_lt (a := boxCols rect shape * blockBytes) (b := pitchAlign) (by omega)
  have hpitch : nextMultipleOf (boxCols rect shape * blockBytes) pitchAlign % u64Wrap =
      nextMultipleOf (boxCols rect shape * blockBytes) pitchAlign := Nat.mod_eq_of_lt (by omega)
  simp only [hrow, hpitch] at h
  split at h
  · cases h
  rename_i hsize
  split at h
  · rename_i hfits
    cases h
    have hlen : nextMultipleOf (boxCols rect shape * blockBytes) pitchAlign * boxRows rect shape < u64Wrap :=
      (Nat.mul_le_mul hfits.2.2.1 hfits.2.1).trans_lt (by omega)
    have hrows : 0 < boxRows rect shape := by
      have hpos := shape.blockH_pos
      rw [boxRows, Nat.sub_pos_iff_lt, lt_divCeil_iff hpos]
      have hdiv := Nat.div_mul_le_self rect.y shape.blockH
      omega
    rw [Nat.mod_eq_of_lt hlen] at hsize ⊢
    exact ⟨rfl, rfl, rfl, rfl, rfl, le_nextMultipleOf (by omega), not_lt.1 fun hlt ↦ hsize (.inr hlt), hrows⟩
  · cases h

/-- The copy of a laid-out box goes through exactly when the staging holds its rows. -/
theorem Laid.copyRows_isSome (h : Laid t rect shape blockBytes srcPitch pitchAlign layout) (src dst : ℕ → UInt8)
    {srcLen : ℕ} (hsrc : srcLen ≤ t.usizeMax) :
    (copyRows t src srcLen layout.srcOffset srcPitch dst layout.len layout.pitch layout.rowBytes layout.rows).isSome ↔
      layout.fitsSource srcPitch srcLen = true := by
  have hrows := h.rows_pos
  have hle := h.rowBytes_le
  have hlen : (layout.rows - 1) * layout.pitch + layout.rowBytes ≤ layout.len := by
    obtain ⟨n, hn⟩ := Nat.exists_eq_succ_of_ne_zero hrows.ne'
    rw [h.len, hn, Nat.succ_sub_one, Nat.mul_succ, mul_comm n]
    omega
  have hchunk : layout.len ≤ t.usizeMax := h.len_le.trans (by cases t <;> decide)
  have hmax : t.usizeMax < u64Wrap := t.usizeMax_lt
  rw [copyRows, if_neg hrows.ne', SnapshotLayout.fitsSource, Bool.and_eq_true, decide_eq_true_eq, decide_eq_true_eq]
  simp only
  split
  · simp only [Option.isSome_some, true_iff]
    omega
  · simp only [Option.isSome_none, Bool.false_eq_true, false_iff]
    omega

theorem Laid.copyRows_block (h : Laid t rect shape blockBytes srcPitch pitchAlign layout) {src dst out : ℕ → UInt8}
    {srcLen : ℕ} (hfits : stagingOffset rect shape srcPitch blockBytes ≤ t.usizeMax)
    (hcopy : copyRows t src srcLen layout.srcOffset srcPitch dst layout.len layout.pitch layout.rowBytes layout.rows =
      some out) {i j k : ℕ} (hi : i < boxCols rect shape) (hj : j < boxRows rect shape) (hk : k < blockBytes) :
    out (j * layout.pitch + i * blockBytes + k) =
      src ((rect.y / shape.blockH + j) * srcPitch + (rect.x / shape.blockW + i) * blockBytes + k) := by
  rw [copyRows, if_neg h.rows_pos.ne'] at hcopy
  simp only at hcopy
  split at hcopy
  · obtain rfl := Option.some.inj hcopy
    have hrow : i * blockBytes + k < layout.rowBytes := by
      have hnext : (i + 1) * blockBytes ≤ boxCols rect shape * blockBytes := Nat.mul_le_mul_right _ hi
      rw [add_mul] at hnext
      rw [h.rowBytes]
      omega
    rw [add_assoc, foldl_copyRow h.rowBytes_le (by rwa [h.rows]) hrow, h.srcOffset,
      Nat.mod_eq_of_lt (Nat.lt_succ_of_le hfits), stagingOffset]
    congr 1
    ring
  · cases hcopy

theorem passAddress_snapshot {offset pitch x y : ℕ} (hx : rect.x ≤ x) (hy : rect.y ≤ y)
    (hstop : offset + (y - rect.y) * pitch + (x - rect.x) * blockBytes < 2 ^ 32) :
    passAddress (snapshotPassBase offset (rect.x, rect.y) pitch blockBytes) x y pitch blockBytes =
      offset + (y - rect.y) * pitch + (x - rect.x) * blockBytes := by
  obtain ⟨i, rfl⟩ := Nat.exists_eq_add_of_le hx
  obtain ⟨j, rfl⟩ := Nat.exists_eq_add_of_le hy
  rw [Nat.add_sub_cancel_left, Nat.add_sub_cancel_left] at hstop ⊢
  simp only [passAddress, snapshotPassBase, add_mul]
  generalize rect.y * pitch = rowsBelow at *
  generalize rect.x * blockBytes = texelsBelow at *
  generalize j * pitch = rowsIn at *
  generalize i * blockBytes = texelsIn at *
  omega

/-- A texel of an uncompressed box ends inside the snapshot. -/
theorem Laid.texel_lt (h : Laid t rect shape blockBytes srcPitch pitchAlign layout) {i j : ℕ}
    (hi : i < boxCols rect shape) (hj : j < boxRows rect shape) :
    j * layout.pitch + i * blockBytes + blockBytes ≤ layout.len := by
  have hcol : (i + 1) * blockBytes ≤ layout.rowBytes := h.rowBytes ▸ Nat.mul_le_mul_right _ hi
  have hrow : (j + 1) * layout.pitch ≤ layout.rows * layout.pitch := Nat.mul_le_mul_right _ (by rw [h.rows]; exact hj)
  have hle := h.rowBytes_le
  rw [add_mul] at hcol hrow
  rw [h.len, mul_comm layout.pitch]
  omega

theorem boxCols_one (h : shape.blockW = 1) : boxCols rect shape = rect.w := by
  simp [boxCols, divCeil, h]

theorem boxRows_one (h : shape.blockH = 1) : boxRows rect shape = rect.h := by
  simp [boxRows, divCeil, h]

/-- A copied box inside its level: its sizes are exact, its offset is where the offset fits a `usize`; the copy goes
through exactly when the staging holds the box, and then every block is the staging's; and the upload pass addresses
every texel of an uncompressed box in the snapshot. -/
theorem snapshot_addresses_staging (t : PointerWidth) (rect : DirtyRect) (shape : MipShape)
    (blockBytes srcPitch pitchAlign : ℕ) (layout : SnapshotLayout) (hx : rect.x + rect.w ≤ shape.mipW)
    (hb : blockBytes ≤ u32Max) (ha : pitchAlign ≤ u32Max)
    (hcopy : snapshotBox t rect shape blockBytes srcPitch pitchAlign = .copy layout) :
    (layout.rowBytes = boxCols rect shape * blockBytes ∧ layout.rows = boxRows rect shape ∧
      layout.pitch = nextMultipleOf (boxCols rect shape * blockBytes) pitchAlign ∧
      layout.len = layout.pitch * layout.rows) ∧
    (layout.srcOffset = stagingOffset rect shape srcPitch blockBytes ↔
      stagingOffset rect shape srcPitch blockBytes ≤ t.usizeMax) ∧
    (∀ (src dst : ℕ → UInt8) (srcLen : ℕ), srcLen ≤ t.usizeMax →
      ((copyRows t src srcLen layout.srcOffset srcPitch dst layout.len layout.pitch layout.rowBytes
        layout.rows).isSome ↔ layout.fitsSource srcPitch srcLen = true)) ∧
    (stagingOffset rect shape srcPitch blockBytes ≤ t.usizeMax → ∀ (src dst out : ℕ → UInt8) (srcLen : ℕ),
      copyRows t src srcLen layout.srcOffset srcPitch dst layout.len layout.pitch layout.rowBytes layout.rows =
        some out → ∀ i < boxCols rect shape, ∀ j < boxRows rect shape, ∀ k < blockBytes,
          out (j * layout.pitch + i * blockBytes + k) =
            src ((rect.y / shape.blockH + j) * srcPitch + (rect.x / shape.blockW + i) * blockBytes + k)) ∧
    (shape.blockW = 1 → shape.blockH = 1 → ∀ offset, offset + layout.len ≤ UploadSnapshots.chunkBytes →
      ∀ x y, rect.Has x y →
        passAddress (snapshotPassBase offset (rect.x, rect.y) layout.pitch blockBytes) x y layout.pitch blockBytes =
          offset + (y - rect.y) * layout.pitch + (x - rect.x) * blockBytes ∧
        (y - rect.y) * layout.pitch + (x - rect.x) * blockBytes + blockBytes ≤ layout.len) := by
  have h := laid_of_copy hx hb ha hcopy
  refine ⟨⟨h.rowBytes, h.rows, h.pitch, h.len⟩, ?_, fun src dst srcLen hsrc ↦ h.copyRows_isSome src dst hsrc,
    fun hfits src dst out srcLen hout i hi j hj k hk ↦ h.copyRows_block hfits hout hi hj hk,
    fun hw hh offset hoffset x y hhas ↦ ?_⟩
  · rw [h.srcOffset]
    constructor
    · intro heq
      have hlt := Nat.mod_lt (stagingOffset rect shape srcPitch blockBytes) (Nat.succ_pos t.usizeMax)
      rw [Nat.succ_eq_add_one, heq] at hlt
      exact Nat.lt_succ_iff.1 hlt
    · intro hfits
      exact Nat.mod_eq_of_lt (Nat.lt_succ_of_le hfits)
  · obtain ⟨⟨hleft, hright⟩, htop, hbottom⟩ := hhas
    have htexel := h.texel_lt (i := x - rect.x) (j := y - rect.y) (by rw [boxCols_one hw]; omega)
      (by rw [boxRows_one hh]; omega)
    have hchunk : UploadSnapshots.chunkBytes < 2 ^ 32 := by decide
    exact ⟨passAddress_snapshot hleft htop (by omega), htexel⟩

def tallLevel : MipShape :=
  ⟨2, 65538, 1, 1, Nat.le_of_ble_eq_true rfl, Nat.le_of_ble_eq_true rfl, Nat.one_pos, Nat.one_pos⟩

theorem snapshot_addresses_staging_low_row :
    snapshotBox .bits32 ⟨1, 2, 1, 1⟩ tallLevel 4 16 4 = .copy ⟨36, 4, 1, 4, 4⟩ ∧
      (36 = stagingOffset ⟨1, 2, 1, 1⟩ tallLevel 16 4 ↔ stagingOffset ⟨1, 2, 1, 1⟩ tallLevel 16 4 ≤ 4294967295) := by
  have hcopy : snapshotBox .bits32 ⟨1, 2, 1, 1⟩ tallLevel 4 16 4 = .copy ⟨36, 4, 1, 4, 4⟩ := rfl
  exact ⟨hcopy, (snapshot_addresses_staging .bits32 ⟨1, 2, 1, 1⟩ tallLevel 4 16 4 ⟨36, 4, 1, 4, 4⟩ (by decide)
    (by decide) (by decide) hcopy).2.1⟩

/-- Row 65536 at a pitch of 65536 bytes: the offset wraps to the first texel, and four bytes hold the box. -/
theorem snapshot_offset_wraps :
    ∃ layout, snapshotBox .bits32 ⟨0, 65536, 1, 1⟩ tallLevel 4 65536 4 = .copy layout ∧
      layout.srcOffset ≠ stagingOffset ⟨0, 65536, 1, 1⟩ tallLevel 65536 4 ∧ layout.fitsSource 65536 4 = true :=
  ⟨⟨0, 4, 1, 4, 4⟩, rfl, by decide, by decide⟩

end Mtld3d
