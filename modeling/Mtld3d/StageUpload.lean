import Mtld3d.Lib.Patch
import Mtld3d.DirtyRange
import Mtld3d.UploadRecovery

namespace Mtld3d

open Lib

abbrev BufferId := ℕ

/-- A Metal buffer; `0` is the null handle. -/
abbrev BufferHandle := ℕ

variable {β : Type}

/-- Source end of a buffer copy. A transient wraps its snapshot without copying it and nothing
writes that snapshot again, so the snapshot stands for the wrapper. -/
inductive CopySource (β : Type)
  | transient (page : ℕ → β)
  | device (buffer : BufferHandle)

structure CopyBufferToBuffer (β : Type) where
  srcBuffer : CopySource β
  dstBuffer : BufferHandle
  srcOffset : ℕ
  dstOffset : ℕ
  byteSize : ℕ

structure StagedUploadRetry (β : Type) where
  bufferId : BufferId
  pageBox : ℕ → β
  dstOffset : ℕ
  size : ℕ

structure BufferState where
  deviceBuffer : BufferHandle
  length : ℕ
  isStaged : Bool
  deriving DecidableEq

structure FrameEncoder (β : Type) where
  bufferCache : BufferId → Option BufferState
  drawnRanges : BufferId → DirtyRange
  frameBlitCommands : List (CopyBufferToBuffer β)
  pendingStageUploads : UploadRecoveryQueue (StagedUploadRetry β)
  currentSubmitSeq : ℕ
  nextHandle : BufferHandle

/-- Bytes of one draw's recorded read. Offsets are 32-bit, so the buffer's length is too. -/
structure DrawRead where
  offset : ℕ
  size : ℕ
  logicalLen : ℕ
  logicalLen_le : logicalLen ≤ u32Max

def DrawRead.Reads (d : DrawRead) (p : ℕ) : Prop := DirtyRange.InWindow d.offset d.size d.logicalLen p

instance (d : DrawRead) (p : ℕ) : Decidable (d.Reads p) := by unfold DrawRead.Reads; infer_instance

def stageUploadNeedsPreserve (deviceLen offset size : ℕ) : Bool :=
  decide (offset ≠ 0) || decide (size ≠ deviceLen)

namespace FrameEncoder

def staged? (e : FrameEncoder β) (id : BufferId) : Option BufferState :=
  (e.bufferCache id).filter (·.isStaged)

def setDeviceBuffer (e : FrameEncoder β) (id : BufferId) (h : BufferHandle) : FrameEncoder β :=
  { e with bufferCache :=
      Function.update e.bufferCache id ((e.bufferCache id).map fun s ↦ { s with deviceBuffer := h }) }

def pushBlit (e : FrameEncoder β) (c : CopyBufferToBuffer β) : FrameEncoder β :=
  { e with frameBlitCommands := e.frameBlitCommands ++ [c] }

def allocFreshDeviceBuffer (e : FrameEncoder β) : BufferHandle × FrameEncoder β :=
  (e.nextHandle, { e with nextHandle := e.nextHandle + 1 })

def ensureDeviceBuffer (e : FrameEncoder β) (id : BufferId) (s : BufferState) :
    BufferHandle × FrameEncoder β :=
  if s.deviceBuffer = 0 then
    let (fresh, e) := e.allocFreshDeviceBuffer
    (fresh, e.setDeviceBuffer id fresh)
  else (s.deviceBuffer, e)

def renameDeviceBuffer (e : FrameEncoder β) (id : BufferId) (device : BufferHandle)
    (length dstOffset size : ℕ) : BufferHandle × FrameEncoder β :=
  let (fresh, e) := e.allocFreshDeviceBuffer
  let e := if stageUploadNeedsPreserve length dstOffset size then
      e.pushBlit ⟨.device device, fresh, 0, 0, length⟩
    else e
  let e := e.setDeviceBuffer id fresh
  (fresh, { e with drawnRanges := Function.update e.drawnRanges id DirtyRange.empty })

def drawnRangeOverlaps (e : FrameEncoder β) (id : BufferId) (dstOffset size : ℕ) : Bool :=
  (e.drawnRanges id).overlaps dstOffset (saturatingAdd dstOffset size)

def applyStageUpload (e : FrameEncoder β) (id : BufferId) (page : ℕ → β) (dstOffset size : ℕ) :
    FrameEncoder β :=
  match e.staged? id with
  | none => e
  | some s =>
    let (device, e) := e.ensureDeviceBuffer id s
    let (dst, e) := if e.drawnRangeOverlaps id dstOffset size then
        e.renameDeviceBuffer id device s.length dstOffset size
      else (device, e)
    let e := e.pushBlit ⟨.transient page, dst, 0, dstOffset, size⟩
    { e with pendingStageUploads :=
        e.pendingStageUploads.push id e.currentSubmitSeq ⟨id, page, dstOffset, size⟩ }

/-- `none` when the buffer has no live device buffer left to copy into. -/
def reissueStageUpload (e : FrameEncoder β) (retry : StagedUploadRetry β) : Option (FrameEncoder β) :=
  ((e.staged? retry.bufferId).filter fun s ↦ s.deviceBuffer ≠ 0).map fun s ↦
    e.pushBlit ⟨.transient retry.pageBox, s.deviceBuffer, 0, retry.dstOffset, retry.size⟩

def settleOne (e : FrameEncoder β) : UploadFate × PendingUpload (StagedUploadRetry β) → FrameEncoder β
  | (.reissue, entry) =>
    match e.reissueStageUpload entry.payload with
    | some e => { e with pendingStageUploads := e.pendingStageUploads.requeue entry e.currentSubmitSeq }
    | none => e
  | _ => e

def settleStageUploads (e : FrameEncoder β) (settled failed : ℕ) : FrameEncoder β :=
  let (out, queue) := e.pendingStageUploads.settle settled failed
  out.foldl settleOne { e with pendingStageUploads := queue }

def beginFrame (e : FrameEncoder β) (seq settled failed : ℕ) : FrameEncoder β :=
  settleStageUploads
    { e with frameBlitCommands := [], drawnRanges := fun _ ↦ DirtyRange.empty, currentSubmitSeq := seq }
    settled failed

def releaseAcknowledgedUploads (e : FrameEncoder β) (settled failed : ℕ) : FrameEncoder β :=
  { e with pendingStageUploads := (e.pendingStageUploads.releaseAcknowledged settled failed).2 }

def noteBufferDrawRange (e : FrameEncoder β) (id : BufferId) (d : DrawRead) : FrameEncoder β :=
  { e with drawnRanges :=
      Function.update e.drawnRanges id ((e.drawnRanges id).conjoin d.offset d.size d.logicalLen) }

@[simp] theorem staged?_setDeviceBuffer_self {e : FrameEncoder β} {id : BufferId} {s : BufferState}
    (hs : e.staged? id = some s) (h : BufferHandle) :
    (e.setDeviceBuffer id h).staged? id = some { s with deviceBuffer := h } := by
  simp only [staged?, Option.filter_eq_some_iff] at hs
  simp [staged?, setDeviceBuffer, hs.1, hs.2]

@[simp] theorem staged?_setDeviceBuffer_of_ne (e : FrameEncoder β) {id id' : BufferId} (hne : id' ≠ id)
    (h : BufferHandle) : (e.setDeviceBuffer id h).staged? id' = e.staged? id' := by
  simp [staged?, setDeviceBuffer, hne]

theorem applyStageUpload_cases {e : FrameEncoder β} {id : BufferId} {s : BufferState}
    (hs : e.staged? id = some s) (h0 : s.deviceBuffer ≠ 0) (page : ℕ → β) (dstOffset size : ℕ) :
    (e.drawnRangeOverlaps id dstOffset size = false ∧
      e.applyStageUpload id page dstOffset size =
        { e with
          frameBlitCommands :=
            e.frameBlitCommands ++ [⟨.transient page, s.deviceBuffer, 0, dstOffset, size⟩]
          pendingStageUploads :=
            e.pendingStageUploads.push id e.currentSubmitSeq ⟨id, page, dstOffset, size⟩ }) ∨
    (e.drawnRangeOverlaps id dstOffset size = true ∧
      e.applyStageUpload id page dstOffset size =
        { e with
          bufferCache := (e.setDeviceBuffer id e.nextHandle).bufferCache
          drawnRanges := Function.update e.drawnRanges id DirtyRange.empty
          nextHandle := e.nextHandle + 1
          frameBlitCommands := e.frameBlitCommands ++
            ((if stageUploadNeedsPreserve s.length dstOffset size then
                [⟨.device s.deviceBuffer, e.nextHandle, 0, 0, s.length⟩] else []) ++
              [⟨.transient page, e.nextHandle, 0, dstOffset, size⟩])
          pendingStageUploads :=
            e.pendingStageUploads.push id e.currentSubmitSeq ⟨id, page, dstOffset, size⟩ }) := by
  cases ho : e.drawnRangeOverlaps id dstOffset size with
  | false => left; simp [applyStageUpload, hs, ensureDeviceBuffer, h0, ho, pushBlit]
  | true =>
    right
    by_cases hp : stageUploadNeedsPreserve s.length dstOffset size = true <;>
      simp [applyStageUpload, hs, ensureDeviceBuffer, h0, ho, pushBlit, renameDeviceBuffer,
        allocFreshDeviceBuffer, setDeviceBuffer, hp]

end FrameEncoder

abbrev BufferMemory (β : Type) := BufferHandle → ℕ → β

def CopySource.read (m : BufferMemory β) : CopySource β → ℕ → β
  | .transient page => page
  | .device h => m h

namespace CopyBufferToBuffer

def patch (c : CopyBufferToBuffer β) (m : BufferMemory β) : Patch β :=
  ⟨c.dstOffset, c.byteSize, fun i ↦ c.srcBuffer.read m (c.srcOffset + i)⟩

def run (m : BufferMemory β) (c : CopyBufferToBuffer β) : BufferMemory β :=
  Function.update m c.dstBuffer ((c.patch m).apply (m c.dstBuffer))

def Writes (c : CopyBufferToBuffer β) (h : BufferHandle) (p : ℕ) : Prop :=
  c.dstBuffer = h ∧ c.dstOffset ≤ p ∧ p < c.dstOffset + c.byteSize

def runAll (cs : List (CopyBufferToBuffer β)) (m : BufferMemory β) : BufferMemory β := cs.foldl run m

@[simp] theorem runAll_nil (m : BufferMemory β) : runAll [] m = m := rfl

@[simp] theorem runAll_append (cs ds : List (CopyBufferToBuffer β)) (m : BufferMemory β) :
    runAll (cs ++ ds) m = runAll ds (runAll cs m) := List.foldl_append

@[simp] theorem runAll_singleton (c : CopyBufferToBuffer β) (m : BufferMemory β) :
    runAll [c] m = run m c := rfl

theorem run_of_ne {c : CopyBufferToBuffer β} {h : BufferHandle} (hne : h ≠ c.dstBuffer)
    (m : BufferMemory β) : run m c h = m h := by
  simp [run, hne]

theorem run_of_not_writes {c : CopyBufferToBuffer β} {h : BufferHandle} {p : ℕ} (hw : ¬ c.Writes h p)
    (m : BufferMemory β) : run m c h p = m h p := by
  by_cases hd : h = c.dstBuffer
  · subst hd
    have hc : ¬ (c.patch m).Covers p := fun hc ↦ hw ⟨rfl, hc⟩
    simp [run, Patch.apply_of_not_covers hc]
  · rw [run_of_ne hd]

theorem runAll_of_not_writes {cs : List (CopyBufferToBuffer β)} {h : BufferHandle} {p : ℕ}
    (hw : ∀ c ∈ cs, ¬ c.Writes h p) (m : BufferMemory β) : runAll cs m h p = m h p := by
  induction cs generalizing m with
  | nil => rfl
  | cons c cs ih =>
    have h₁ : runAll (c :: cs) m h p = runAll cs (run m c) h p := rfl
    rw [h₁, ih (fun d hd ↦ hw d (List.mem_cons_of_mem _ hd)),
      run_of_not_writes (hw c List.mem_cons_self)]

theorem run_transient (m : BufferMemory β) (page : ℕ → β) (h : BufferHandle) (dstOffset size : ℕ) :
    run m ⟨.transient page, h, 0, dstOffset, size⟩ h = (Patch.mk dstOffset size page).apply (m h) := by
  simp [run, patch, CopySource.read]

theorem run_preserve {m : BufferMemory β} {old fresh : BufferHandle} {length p : ℕ} (hp : p < length) :
    run m ⟨.device old, fresh, 0, 0, length⟩ fresh p = m old p := by
  have hc : (patch ⟨.device old, fresh, 0, 0, length⟩ m).Covers p := ⟨Nat.zero_le p, by simpa [patch]⟩
  rw [run, Function.update_self, Patch.apply_of_covers hc]
  simp [patch, CopySource.read]

end CopyBufferToBuffer

end Mtld3d
