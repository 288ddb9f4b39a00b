import Mtld3d.StageUpload
import Mathlib.Logic.Relation

namespace Mtld3d

open CopyBufferToBuffer Lib List

variable {β : Type}

/-- The encoder with the memory its submissions left and the uploads the API issued per buffer. -/
structure StageSystem (β : Type) where
  enc : FrameEncoder β
  memory : BufferMemory β
  recording : Bool
  submittedSeq : ℕ
  issued : BufferId → List (Patch β)

inductive StageAction (β : Type)
  | beginFrame (seq settled failed : ℕ)
  | upload (id : BufferId) (page : ℕ → β) (dstOffset size : ℕ)
  | draw (id : BufferId) (read : DrawRead)
  | release (settled failed : ℕ)
  | submit

/-- Retirement and failure counters as the device reports them: nothing is retired before it was
submitted, and a retirement is never seen before the failure it ended with. -/
structure Truthful (aborts : ℕ → Bool) (submitted settled failed : ℕ) : Prop where
  settled_le : settled ≤ submitted
  failed_aborted : failed = 0 ∨ failed ≤ submitted ∧ aborts failed = true
  complete : ∀ seq, seq ≤ settled → aborts seq = true → seq ≤ failed

namespace StageSystem

/-- `aborts` fixes the fate of every submission: an aborted one runs none of its copies. -/
def act (aborts : ℕ → Bool) (s : StageSystem β) : StageAction β → StageSystem β
  | .beginFrame seq settled failed =>
    { s with enc := s.enc.beginFrame seq settled failed, recording := true }
  | .upload id page dstOffset size =>
    { s with
      enc := s.enc.applyStageUpload id page dstOffset size
      issued := Function.update s.issued id (s.issued id ++ [⟨dstOffset, size, page⟩]) }
  | .draw id read => { s with enc := s.enc.noteBufferDrawRange id read }
  | .release settled failed => { s with enc := s.enc.releaseAcknowledgedUploads settled failed }
  | .submit =>
    { s with
      memory := if aborts s.enc.currentSubmitSeq then s.memory
        else runAll s.enc.frameBlitCommands s.memory
      enc := { s.enc with frameBlitCommands := [] }
      recording := false
      submittedSeq := s.enc.currentSubmitSeq }

def Enabled (aborts : ℕ → Bool) (s : StageSystem β) : StageAction β → Prop
  | .beginFrame seq settled failed =>
    s.recording = false ∧ s.enc.currentSubmitSeq < seq ∧ Truthful aborts s.submittedSeq settled failed ∧
      ∀ x ∈ (s.enc.pendingStageUploads.settle settled failed).1, x.1 ≠ .abandoned
  | .release settled failed => Truthful aborts s.submittedSeq settled failed
  | _ => s.recording = true

def CarriesByPreserve (s : StageSystem β) : StageAction β → Prop
  | .upload id _ dstOffset size => s.enc.drawnRangeOverlaps id dstOffset size = true ∧
      ∃ b, s.enc.staged? id = some b ∧ stageUploadNeedsPreserve b.length dstOffset size = true
  | _ => False

def Step (aborts : ℕ → Bool) (s t : StageSystem β) : Prop :=
  ∃ a, s.Enabled aborts a ∧ t = s.act aborts a

def SafeStep (aborts : ℕ → Bool) (s t : StageSystem β) : Prop :=
  ∃ a, s.Enabled aborts a ∧ (aborts s.enc.currentSubmitSeq = true → ¬ s.CarriesByPreserve a) ∧
    t = s.act aborts a

structure Initial (s : StageSystem β) : Prop where
  recording : s.recording = false
  blits : s.enc.frameBlitCommands = []
  pending : s.enc.pendingStageUploads.pending = []
  seq : s.enc.currentSubmitSeq = s.submittedSeq
  handles : ∀ id b, s.enc.staged? id = some b → b.deviceBuffer ≠ 0 ∧ b.deviceBuffer < s.enc.nextHandle
  distinct : ∀ id id' b b', s.enc.staged? id = some b → s.enc.staged? id' = some b' →
    b.deviceBuffer = b'.deviceBuffer → id = id'
  issued : s.issued = fun _ ↦ []

def settledMemory (aborts : ℕ → Bool) (s : StageSystem β) : BufferMemory β :=
  if aborts s.enc.currentSubmitSeq then s.memory else runAll s.enc.frameBlitCommands s.memory

end StageSystem

def PendingUpload.patch (e : PendingUpload (StagedUploadRetry β)) : Patch β :=
  ⟨e.payload.dstOffset, e.payload.size, e.payload.pageBox⟩

namespace FrameEncoder

def deviceOf (e : FrameEncoder β) (id : BufferId) : BufferHandle :=
  ((e.staged? id).map (·.deviceBuffer)).getD 0

def reissueCopy (e : FrameEncoder β) (entry : PendingUpload (StagedUploadRetry β)) : CopyBufferToBuffer β :=
  ⟨.transient entry.payload.pageBox, e.deviceOf entry.payload.bufferId, 0, entry.payload.dstOffset,
    entry.payload.size⟩

def requeued (e : FrameEncoder β) (entry : PendingUpload (StagedUploadRetry β)) :
    PendingUpload (StagedUploadRetry β) :=
  ⟨entry.key, e.currentSubmitSeq, min (entry.attempts + 1) 255, entry.payload⟩

def reissued (out : List (UploadFate × PendingUpload (StagedUploadRetry β))) :
    List (PendingUpload (StagedUploadRetry β)) :=
  (out.filter fun x ↦ x.1 = .reissue).map (·.2)

theorem foldl_settleOne (out : List (UploadFate × PendingUpload (StagedUploadRetry β))) (e : FrameEncoder β)
    (h : ∀ x ∈ out, ∃ b, e.staged? x.2.payload.bufferId = some b ∧ b.deviceBuffer ≠ 0) :
    out.foldl settleOne e =
      { e with
        frameBlitCommands := e.frameBlitCommands ++ (reissued out).map e.reissueCopy
        pendingStageUploads := ⟨e.pendingStageUploads.pending ++ (reissued out).map e.requeued⟩ } := by
  induction out generalizing e with
  | nil => simp [reissued]
  | cons x out ih =>
    obtain ⟨b, hb, h0⟩ := h x mem_cons_self
    have hrest := fun y hy ↦ h y (mem_cons_of_mem x hy)
    obtain ⟨fate, entry⟩ := x
    cases fate with
    | released =>
      have hx : e.settleOne (.released, entry) = e := rfl
      rw [foldl_cons, hx, ih e hrest]
      simp [reissued]
    | abandoned =>
      have hx : e.settleOne (.abandoned, entry) = e := rfl
      rw [foldl_cons, hx, ih e hrest]
      simp [reissued]
    | reissue =>
      have hx : e.settleOne (.reissue, entry) =
          { e with
            frameBlitCommands := e.frameBlitCommands ++ [e.reissueCopy entry]
            pendingStageUploads := ⟨e.pendingStageUploads.pending ++ [e.requeued entry]⟩ } := by
        simp only at hb
        simp [settleOne, reissueStageUpload, hb, h0, Option.filter_some, pushBlit, reissueCopy, deviceOf,
          requeued, UploadRecoveryQueue.requeue]
      have hstep := ih { e with
        frameBlitCommands := e.frameBlitCommands ++ [e.reissueCopy entry]
        pendingStageUploads := ⟨e.pendingStageUploads.pending ++ [e.requeued entry]⟩ } hrest
      rw [foldl_cons, hx, hstep]
      simp [reissued, reissueCopy, deviceOf, requeued, staged?, Function.comp_def]

theorem runAll_reissueCopy {e : FrameEncoder β} {id : BufferId} {b : BufferState} (hb : e.staged? id = some b)
    (distinct : ∀ id', (e.staged? id').isSome → e.deviceOf id' = b.deviceBuffer → id' = id)
    (entries : List (PendingUpload (StagedUploadRetry β)))
    (hk : ∀ x ∈ entries, x.payload.bufferId = x.key ∧ (e.staged? x.key).isSome) (m : BufferMemory β) :
    runAll (entries.map e.reissueCopy) m b.deviceBuffer =
      Patch.applyAll ((entries.filter fun x ↦ x.key = id).map (·.patch)) (m b.deviceBuffer) := by
  induction entries generalizing m with
  | nil => rfl
  | cons x entries ih =>
    obtain ⟨hx, hs⟩ := hk x mem_cons_self
    have hrest := fun y hy ↦ hk y (mem_cons_of_mem x hy)
    have hrun : runAll ((x :: entries).map e.reissueCopy) m =
        runAll (entries.map e.reissueCopy) (run m (e.reissueCopy x)) := rfl
    rw [hrun, ih hrest]
    by_cases hid : x.key = id
    · have hdev : e.reissueCopy x =
          ⟨.transient x.payload.pageBox, b.deviceBuffer, 0, x.payload.dstOffset, x.payload.size⟩ := by
        simp [reissueCopy, deviceOf, hx, hid, hb]
      rw [hdev, run_transient]
      simp [hid, Patch.applyAll, PendingUpload.patch]
    · have hne : b.deviceBuffer ≠ (e.reissueCopy x).dstBuffer := by
        intro hd
        exact hid (distinct x.key hs (by simpa [reissueCopy, hx] using hd.symm))
      rw [run_of_ne hne]
      simp [hid]

end FrameEncoder

end Mtld3d
