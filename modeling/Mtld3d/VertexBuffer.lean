import Mtld3d.Lib.Patch
import Mtld3d.DirtyRange

namespace Mtld3d

open Lib

variable {β : Type}

def d3dPoolDefault : ℕ := 0
def d3dPoolManaged : ℕ := 1
def d3dUsageWriteOnly : ℕ := 8
def d3dUsageSoftwareProcessing : ℕ := 16
def d3dUsageDynamic : ℕ := 512
def d3dLockReadOnly : ℕ := 16
def d3dLockDiscard : ℕ := 8192

inductive BackingState
  | mirrors
  | released
  | partialCopy
  deriving DecidableEq, Repr

/-- CPU staging of a buffer, with how much of the device buffer's contents it still holds. -/
structure BufferBacking (β : Type) where
  pageBox : Option (ℕ → β)
  paddedLen : ℕ
  logicalLen : ℕ
  state : BackingState

namespace BufferBacking

def isReleased (b : BufferBacking β) : Bool := decide (b.state = .released)

def mayWidenUpload (b : BufferBacking β) : Bool := decide (b.state = .mirrors)

def restore (b : BufferBacking β) (page : ℕ → β) : BufferBacking β :=
  { b with pageBox := some page, state := .partialCopy }

def release (b : BufferBacking β) : BufferBacking β :=
  match b.pageBox with
  | none => b
  | some _ => { b with pageBox := none, state := .released }

def noteUpload (b : BufferBacking β) (min max : ℕ) : BufferBacking β :=
  if b.state = .partialCopy ∧ min = 0 ∧ b.logicalLen ≤ max then { b with state := .mirrors } else b

def hasPtrAt (b : BufferBacking β) (offset : ℕ) : Bool := b.pageBox.isSome && decide (offset ≤ b.paddedLen)

def snapshot (b : BufferBacking β) (min max : ℕ) : Option (Patch β) :=
  if b.hasPtrAt min then b.pageBox.map fun page ↦ ⟨min, max - min, fun i ↦ page (min + i)⟩ else none

variable (b : BufferBacking β) (lo hi : ℕ)

@[simp] theorem noteUpload_pageBox : (b.noteUpload lo hi).pageBox = b.pageBox := by
  unfold noteUpload; split_ifs <;> rfl

@[simp] theorem noteUpload_paddedLen : (b.noteUpload lo hi).paddedLen = b.paddedLen := by
  unfold noteUpload; split_ifs <;> rfl

@[simp] theorem noteUpload_logicalLen : (b.noteUpload lo hi).logicalLen = b.logicalLen := by
  unfold noteUpload; split_ifs <;> rfl

theorem noteUpload_state : (b.noteUpload lo hi).state = b.state ∨
    (b.noteUpload lo hi).state = .mirrors ∧ b.state = .partialCopy ∧ lo = 0 ∧ b.logicalLen ≤ hi := by
  unfold noteUpload
  split_ifs with h
  · exact .inr ⟨rfl, h⟩
  · exact .inl rfl

theorem noteUpload_released : (b.noteUpload lo hi).state = .released ↔ b.state = .released := by
  obtain h | ⟨h, h', -⟩ := b.noteUpload_state lo hi
  · rw [h]
  · rw [h, h']
    simp

end BufferBacking

def mayReleaseBacking (usage pool : ℕ) : Bool :=
  decide (pool = d3dPoolDefault) && decide (usage &&& d3dUsageWriteOnly ≠ 0) &&
    decide (usage &&& (d3dUsageDynamic ||| d3dUsageSoftwareProcessing) = 0)

def mayTrustLockBounds (flags sizeToLock : ℕ) (ignoreConfigured : Bool) : Bool :=
  !ignoreConfigured && decide (sizeToLock ≠ 0) && decide (flags &&& d3dLockDiscard = 0)

def recordsDirtyRange (flags pool : ℕ) : Bool :=
  !(decide (flags &&& d3dLockReadOnly ≠ 0) && decide (pool = d3dPoolManaged))

/-- A vertex buffer in the `Staged` map mode: the GPU reads a device buffer of its own. -/
structure VertexBuffer (β : Type) where
  length : ℕ
  usage : ℕ
  pool : ℕ
  ignoreLockBounds : Bool
  dirty : DirtyRange
  backing : BufferBacking β
  lockCount : ℕ

namespace VertexBuffer

/-- Range a lock adds to the dirty span: all of the buffer when the announced window is not to be
trusted and the backing holds what lies outside it, else the window. -/
def lockDirty (vb : VertexBuffer β) (offsetToLock sizeToLock flags : ℕ) : DirtyRange :=
  if recordsDirtyRange flags vb.pool then
    let trusted := mayTrustLockBounds flags sizeToLock vb.ignoreLockBounds
    let discard := decide (flags &&& d3dLockDiscard ≠ 0)
    let widen := !trusted && (vb.backing.mayWidenUpload || discard)
    if widen then vb.dirty.conjoin 0 0 vb.length
    else vb.dirty.conjoin offsetToLock sizeToLock vb.length
  else vb.dirty

section Zeroed

variable [Zero β]

def create (length paddedLen usage pool : ℕ) (ignoreLockBounds : Bool) : VertexBuffer β where
  length := length
  usage := usage
  pool := pool
  ignoreLockBounds := ignoreLockBounds
  dirty := DirtyRange.full length
  backing := ⟨some fun _ ↦ 0, paddedLen, length, .mirrors⟩
  lockCount := 0

def restoreBacking (vb : VertexBuffer β) : VertexBuffer β :=
  if vb.backing.isReleased then { vb with backing := vb.backing.restore fun _ ↦ 0 } else vb

/-- Part of a `ProcessVertices` result that fits the backing. -/
def clipProcessed (vb : VertexBuffer β) (bytes : Patch β) : Patch β :=
  let dstLen := if vb.restoreBacking.backing.pageBox.isSome then vb.restoreBacking.backing.paddedLen else 0
  { bytes with size := min (bytes.offset + bytes.size) dstLen - bytes.offset }

def writeProcessed (vb : VertexBuffer β) (bytes : Patch β) : VertexBuffer β × Option (Patch β) :=
  let clipped := vb.clipProcessed bytes
  let vb := vb.restoreBacking
  if clipped.size = 0 then (vb, none)
  else
    let fin := clipped.offset + clipped.size
    let backing := { vb.backing with pageBox := vb.backing.pageBox.map clipped.apply }
    match backing.snapshot clipped.offset fin with
    | none => ({ vb with backing := backing }, none)
    | some upload => ({ vb with backing := backing.noteUpload clipped.offset fin }, some upload)

/-- `false` is `D3DERR_INVALIDCALL`. -/
def vbLock (vb : VertexBuffer β) (offsetToLock sizeToLock flags : ℕ) : VertexBuffer β × Bool :=
  if vb.length < offsetToLock then (vb, false)
  else
    let vb := vb.restoreBacking
    let vb := { vb with dirty := vb.lockDirty offsetToLock sizeToLock flags }
    if vb.backing.hasPtrAt offsetToLock then
      ({ vb with lockCount := saturatingAdd vb.lockCount 1 }, true)
    else (vb, false)

end Zeroed

def flushMappedDirtySpan (vb : VertexBuffer β) : VertexBuffer β × Option (Patch β) :=
  match vb.dirty.span with
  | none => (vb, none)
  | some (min, max) =>
    match vb.backing.snapshot min max with
    | none => (vb, none)
    | some upload => ({ vb with backing := vb.backing.noteUpload min max }, some upload)

def flushStagedIfMapped (vb : VertexBuffer β) : VertexBuffer β × Option (Patch β) :=
  if vb.lockCount = 0 then (vb, none) else vb.flushMappedDirtySpan

def releaseBackingAfterUpload (vb : VertexBuffer β) : VertexBuffer β :=
  if vb.lockCount ≠ 0 ∨ vb.ignoreLockBounds = true ∨ mayReleaseBacking vb.usage vb.pool = false ∨
      vb.backing.mayWidenUpload = false then vb
  else { vb with backing := vb.backing.release }

def publish (vb : VertexBuffer β) : VertexBuffer β × Option (Patch β) :=
  match vb.dirty.span with
  | none => (vb, none)
  | some (min, max) =>
    match vb.backing.snapshot min max with
    | none => ({ vb with dirty := vb.dirty.clear }, none)
    | some upload =>
      (releaseBackingAfterUpload
        { vb with backing := vb.backing.noteUpload min max, dirty := vb.dirty.clear }, some upload)

def vbUnlock (vb : VertexBuffer β) : VertexBuffer β × Option (Patch β) :=
  if vb.lockCount = 0 then vb.publish
  else if vb.lockCount - 1 ≠ 0 then ({ vb with lockCount := vb.lockCount - 1 }, none)
  else publish { vb with lockCount := vb.lockCount - 1 }

section Length

variable (vb : VertexBuffer β)

theorem publish_length : vb.publish.1.length = vb.length := by
  unfold publish releaseBackingAfterUpload
  split
  · rfl
  · split
    · rfl
    · split_ifs <;> rfl

theorem vbUnlock_length : vb.vbUnlock.1.length = vb.length := by
  unfold vbUnlock
  split_ifs
  · exact vb.publish_length
  · rfl
  · exact publish_length _

theorem flushStagedIfMapped_length : vb.flushStagedIfMapped.1.length = vb.length := by
  unfold flushStagedIfMapped flushMappedDirtySpan
  split
  · rfl
  · split
    · rfl
    · split <;> rfl

variable [Zero β]

@[simp] theorem restoreBacking_length : vb.restoreBacking.length = vb.length := by
  unfold restoreBacking; split_ifs <;> rfl

theorem vbLock_length (offsetToLock sizeToLock flags : ℕ) :
    (vb.vbLock offsetToLock sizeToLock flags).1.length = vb.length := by
  simp only [vbLock]
  split_ifs
  · rfl
  · exact vb.restoreBacking_length
  · exact vb.restoreBacking_length

theorem writeProcessed_length (bytes : Patch β) : (vb.writeProcessed bytes).1.length = vb.length := by
  simp only [writeProcessed]
  split
  · exact vb.restoreBacking_length
  · split <;> exact vb.restoreBacking_length

end Length

end VertexBuffer

end Mtld3d
