import Mtld3d.PassFrame
import Mtld3d.PassRefine
import Mtld3d.Lib.Select
import Mathlib.Data.Set.Piecewise

namespace Mtld3d

open List Lib Pass
open PassColorAttachment (isBound surface slice level)

variable {V : Type}

def blitWrittenTexture (blit : BlitCommand) : Option Handle :=
  match blit.cmd with
  | some .copyBufferToBuffer | some .notifyBufferDidModifyRange => none
  | some .copyBufferToTexture | some .copyBufferToDepth | some .copyBufferToStencil | some .transferDepth
  | some .copyTextureToTexture | some .generateMipmaps | none =>
    if blit.dstHandle = 0 then none else some blit.dstHandle

def blitReadTexture (blit : BlitCommand) : Option Handle :=
  let handle := match blit.cmd with
    | some .copyTextureToTexture | some .transferDepth => blit.srcHandle
    | some .generateMipmaps => blit.dstHandle
    | some .copyBufferToTexture | some .copyBufferToDepth | some .copyBufferToStencil | some .copyBufferToBuffer
    | some .notifyBufferDidModifyRange | none => 0
  if handle = 0 then none else some handle

def blitListWrites (blits : List BlitCommand) (target : Handle) : Bool :=
  decide (target ≠ 0) && blits.any fun b ↦ decide (blitWrittenTexture b = some target)

namespace Pass

def extras : List (Fin 4) := (finRange 4).filter fun i ↦ decide (i ≠ rt0)

variable (p : Pass)

def readsTexture (target : Handle) (views : ViewMap) (frameSampled : Handle → Bool) : Bool :=
  decide (target ≠ 0) && (p.samplesTexture target views frameSampled ||
    p.leadingBlits.any fun b ↦ match blitReadTexture b with
      | none => false
      | some texture => decide (texture = target) || decide (views texture = some target))

def attachesColor (texture : Handle) (subresource : ℕ) : Bool :=
  decide (texture ≠ 0) && (finRange 4).any fun i ↦
    decide ((p.color i).texture = texture) && decide ((p.color i).subresource = subresource)

def clearOnly : Bool := p.leadingBlits.isEmpty && !p.hasDraw

def needsColor : Bool :=
  p.clearOnly && ((p.color rt0).load.isClear || extras.any fun k ↦ (p.color k).isBound && (p.color k).load.isClear)

def needsDepth : Bool := p.clearOnly && p.depthLoad.isClear

def needsStencil : Bool := p.clearOnly && decide (p.depthTexture ≠ 0) && p.stencilLoad.isClear

end Pass

section Rule

variable (views : ViewMap) (frameSampled : Handle → Bool) (p cand : Pass)

def attachesTargetDepth : Bool :=
  decide (cand.depthTexture = p.depthTexture) && decide (cand.depthLevel = p.depthLevel)

def sameSet : Bool :=
  extras.all fun k ↦ decide ((cand.color k).texture = (p.color k).texture) &&
    decide ((cand.color k).subresource = (p.color k).subresource)

def touchesExtra : Bool :=
  extras.any fun k ↦ decide ((p.color k).texture ≠ 0) &&
    (finRange 4).any fun i ↦ decide ((cand.color i).texture = (p.color k).texture)

def colorConflict : Bool :=
  ((finRange 4).any fun i ↦ cand.readsTexture (p.color i).texture views frameSampled) ||
    ((finRange 4).any fun i ↦ blitListWrites cand.leadingBlits (p.color i).texture) ||
    ((finRange 4).any fun i ↦ cand.resolvesInto (p.color i).texture views) ||
    !sameSet p cand && touchesExtra p cand ||
    sameSet p cand && (extras.any fun k ↦ (cand.color k).isBound && decide ((cand.color k).load ≠ .load)) ||
    decide ((cand.color rt0).texture = (p.color rt0).texture) &&
      decide ((cand.color rt0).subresource = (p.color rt0).subresource) &&
      (cand.color rt0).load.isClear

def depthConflict : Bool :=
  blitListWrites cand.leadingBlits p.depthTexture || cand.readsTexture p.depthTexture views frameSampled ||
    attachesTargetDepth p cand &&
      (p.needsDepth && cand.depthLoad.isClear || p.needsStencil && cand.stencilLoad.isClear ||
        !cand.colorExtentCoversDepth)

def takesClear : Bool :=
  (!p.needsColor || sameSet p cand && decide ((cand.color rt0).texture = (p.color rt0).texture) &&
      decide ((cand.color rt0).srgbTexture = (p.color rt0).srgbTexture) &&
      decide ((cand.color rt0).subresource = (p.color rt0).subresource) &&
      decide ((cand.color rt0).load = .load)) &&
    (!p.needsDepth || attachesTargetDepth p cand && decide (cand.depthLoad = .load)) &&
    (!p.needsStencil || attachesTargetDepth p cand && decide (cand.stencilLoad = .load))

def consumesClear : Bool :=
  p.needsColor && ((finRange 4).any fun i ↦ cand.attachesColor (p.color i).texture (p.color i).subresource) ||
    p.needsDepth && attachesTargetDepth p cand && decide (cand.depthLoad = .load) ||
    p.needsStencil && attachesTargetDepth p cand && decide (cand.stencilLoad = .load)

def blocksClear : Bool :=
  p.needsColor && colorConflict views frameSampled p cand ||
    (p.needsDepth || p.needsStencil) && depthConflict views frameSampled p cand

/-- Position of the first of the passes that the clears of `p` may move into, `none` where one of those
before it stands in the way. -/
def findClearMergeTarget : List Pass → Option ℕ
  | [] => none
  | cand :: rest =>
    if blocksClear views frameSampled p cand then none
    else if takesClear p cand then some 0
    else if consumesClear p cand then none
    else (findClearMergeTarget rest).map (· + 1)

def Pass.takeLoads : Pass :=
  { cand with
    color := fun i ↦
      { cand.color i with
        load := if p.needsColor && (decide (i = rt0) || (cand.color i).isBound) then (p.color i).load
          else (cand.color i).load }
    depthLoad := if p.needsDepth then p.depthLoad else cand.depthLoad
    stencilLoad := if p.needsStencil then p.stencilLoad else cand.stencilLoad }

def clearMergeTarget (rest : List Pass) : Option ℕ :=
  if p.needsColor || p.needsDepth || p.needsStencil then findClearMergeTarget views frameSampled p rest else none

end Rule

def coalesceClearOnlyPasses (views : ViewMap) (frameSampled : Handle → Bool) : List Pass → List Pass
  | [] => []
  | p :: rest => match clearMergeTarget views frameSampled p rest with
    | some t => coalesceClearOnlyPasses views frameSampled (rest.modify t p.takeLoads)
    | none => p :: coalesceClearOnlyPasses views frameSampled rest
  termination_by passes => passes.length
  decreasing_by all_goals simp

/-- What the recorder keeps to between a pass and a later one: a companion belongs to one texture and a
texture to one companion, a subresource has one extent, the stencil plane is the depth texture's, and only
the first pass on a depth texture leaves its contents undefined. -/
structure RecordedBefore (p q : Pass) : Prop where
  owner : ∀ i j, (p.color i).msaaTexture ≠ 0 → (p.color i).msaaTexture = (q.color j).msaaTexture →
    (p.color i).texture = (q.color j).texture
  companion : ∀ i j, (p.color i).isBound = true → (p.color i).texture = (q.color j).texture →
    (p.color i).msaaTexture = (q.color j).msaaTexture ∧
      ((p.color i).srgbTexture = (q.color j).srgbTexture → (p.color i).msaaSrgbTexture = (q.color j).msaaSrgbTexture)
  extent : ∀ i j, (p.color i).isBound = true → (p.color i).texture = (q.color j).texture →
    (p.color i).subresource = (q.color j).subresource → (p.color i).size = (q.color j).size
  depthExtent : p.depthTexture ≠ 0 → p.depthTexture = q.depthTexture → p.depthLevel = q.depthLevel →
    p.depthSize = q.depthSize
  stencil : p.depthTexture ≠ 0 → p.depthTexture = q.depthTexture →
    p.depthFlags.hasStencil = q.depthFlags.hasStencil
  firstUse : p.depthTexture ≠ 0 → p.depthTexture = q.depthTexture →
    q.depthLoad ≠ .dontCare ∧ q.stencilLoad ≠ .dontCare

/-- The passes of a submission as Rule E finds them; blits go by the handle of the texture itself. -/
structure ClearsRecorded (views : ViewMap) (ps : List Pass) : Prop where
  blits : ∀ p ∈ ps, ∀ b ∈ p.leadingBlits, views b.dstHandle = none
  before : ps.Pairwise RecordedBefore

/-- The clears of `p` may move into `q`: no resolve is lost with `p`, and where colours are cleared `q` writes
each of them through the view `p` does. -/
structure MovesSafely (p q : Pass) : Prop where
  unresolved : ∀ i, (p.color i).resolveTexture = 0
  sameViews : p.needsColor = true → ∀ i, (p.color i).isBound = true →
    (q.color i).srgbTexture = (p.color i).srgbTexture

/-- Each merge that Rule E makes, in the order it makes them, moves its clears safely. -/
def MergesSafely (views : ViewMap) (frameSampled : Handle → Bool) : List Pass → Prop
  | [] => True
  | p :: rest => match clearMergeTarget views frameSampled p rest with
    | some t => (∃ q, rest[t]? = some q ∧ MovesSafely p q) ∧
        MergesSafely views frameSampled (rest.modify t p.takeLoads)
    | none => MergesSafely views frameSampled rest
  termination_by passes => passes.length
  decreasing_by all_goals simp

namespace Machine

def movesTarget (p : Pass) : Target → Bool
  | .color _ => p.needsColor
  | .depth => p.needsDepth
  | .stencil => p.needsStencil

variable {M : Machine V} {p q : Pass} {t : Target} {l : Loc} {m m' w : Loc → V}

def moved (M : Machine V) (p : Pass) : Set Loc :=
  {l | ∃ t, p.attaches t = true ∧ movesTarget p t = true ∧ l.sub = p.sub t ∧
    (M.loadAction p t = .dontCare ∨ (∃ v, M.loadAction p t = .clear v) ∧ p.ownArea t l.x l.y = true)}

/-- `w` holds the value of each clear of the pass. -/
def Cleared (M : Machine V) (p : Pass) (w : Loc → V) : Prop :=
  ∀ t l v, p.attaches t = true → l.sub = p.sub t → M.loadAction p t = .clear v → p.ownArea t l.x l.y = true →
    w l = v

theorem reaches_own (hM : M.confined = false) {x y : ℕ} :
    M.reaches p t x y = (p.attaches t && p.ownArea t x y) := by
  simp [reaches, area, hM]

theorem movesTarget_of_clear {v : V} (hp : p.clearOnly = true) (ht : p.attaches t = true)
    (hload : M.loadAction p t = .clear v) : movesTarget p t = true := by
  have hal : p.aliased t = false := by
    cases hal : p.aliased t with
    | false => rfl
    | true => simp [loadAction, hal] at hload
  simp only [loadAction, hal, Bool.false_eq_true, if_false] at hload
  cases t with
  | color i =>
    have hclear : (p.color i).load.isClear = true := by
      cases hc : (p.color i).load <;> simp_all [recordedLoad, ColorLoad.isClear]
    simp only [movesTarget, needsColor, hp, Bool.true_and, Bool.or_eq_true]
    by_cases hi : i = rt0
    · subst hi
      exact .inl hclear
    · have hmem : i ∈ extras := mem_filter.mpr ⟨mem_finRange i, by simpa using hi⟩
      have hb : (p.color i).isBound = true := ht
      exact .inr (any_eq_true.mpr ⟨i, hmem, by rw [hb, hclear]; rfl⟩)
  | depth => cases hc : p.depthLoad <;> simp_all [recordedLoad, movesTarget, needsDepth, DepthLoad.isClear]
  | stencil =>
    simp only [attaches, Bool.and_eq_true] at ht
    cases hc : p.stencilLoad <;> simp_all [recordedLoad, movesTarget, needsStencil, StencilLoad.isClear]

theorem op_of_cleared (hM : M.confined = false) (hp : p.clearOnly = true)
    (hres : ∀ i, (p.color i).resolveTexture = 0) (hoff : EqOff (M.moved p) m m') (hclear : M.Cleared p m') :
    ∃ o, M.op p m o m' ∧ o.blits = [] ∧ o.draws = [] := by
  simp only [clearOnly, Bool.and_eq_true, List.isEmpty_iff, Bool.not_eq_true'] at hp
  obtain ⟨hblits, hdraw⟩ := hp
  set g : Garbage V := ⟨fun t x y ↦ m' ⟨p.sub t, x, y⟩, m', m'⟩ with hg
  have hstores : targets.foldl (M.storeTarget p g (M.loadTile p g m)) m = m' := by
    refine stores_adopt (fun t l ht hsub hs ↦ ?_) fun l hl ↦ hoff ?_
    · have hl : (⟨p.sub t, l.x, l.y⟩ : Loc) = l := by rw [← hsub]
      have hal := not_aliased_of_store hs
      have hunmoved (hnot : M.loadAction p t ≠ .dontCare)
          (hout : ∀ v, M.loadAction p t = .clear v → p.ownArea t l.x l.y = false) : m l = m' l := by
        refine hoff fun hmem ↦ ?_
        obtain ⟨t', ht', -, hsub', hcase⟩ := hmem
        obtain rfl := eq_of_sub_eq p hal ht' (hsub'.symm.trans hsub)
        obtain hdont | ⟨⟨v, hv⟩, hown⟩ := hcase
        · exact hnot hdont
        · rw [hout v hv] at hown
          exact Bool.noConfusion hown
      cases hload : M.loadAction p t with
      | load =>
        have hsame := hunmoved (by simp [hload]) (by simp [hload])
        simp only [loadTile, loadTexel, around, hload, hl]
        split_ifs <;> exact hsame
      | dontCare =>
        simp only [loadTile, loadTexel, around, hload, hg, hl]
        split_ifs <;> rfl
      | clear v =>
        simp only [loadTile, loadTexel, around, hload, reaches_own hM, ht, Bool.true_and]
        cases hown : p.ownArea t l.x l.y with
        | true => exact (hclear t l v ht hsub hload hown).symm
        | false => exact hunmoved (by simp [hload]) fun _ _ ↦ hown
    · rintro ⟨t, ht, -, hsub, -⟩
      exact hl ⟨t, ht, hsub⟩
  have hres' (l : Loc) : ¬ M.Resolved p l := by
    rintro ⟨i, -, hne, -⟩
    exact hne (hres i)
  exact op_of_idle hdraw hblits hres' hstores

section Scan

variable {frameSampled : Handle → Bool} {b : BlitCommand} {texture : Handle}

theorem storage_zero : M.storage 0 = 0 := if_pos rfl

theorem readTexture_of_blitReads (h : M.blitReads b l = true) :
    ∃ read, blitReadTexture b = some read ∧ l.sub.surface = .texture (M.storage read) ∨
      l.sub.surface = .texture 0 := by
  have hread (handle : Handle) (hs : l.sub.surface = .texture (M.storage handle))
      (hb : blitReadTexture b = if handle = 0 then none else some handle) :
      ∃ read, blitReadTexture b = some read ∧ l.sub.surface = .texture (M.storage read) ∨
        l.sub.surface = .texture 0 := by
    by_cases hzero : handle = 0
    · rw [hzero, storage_zero] at hs
      exact ⟨0, .inr hs⟩
    · exact ⟨handle, .inl ⟨by rw [hb, if_neg hzero], hs⟩⟩
  unfold blitReads at h
  cases hcmd : b.cmd with
  | none => simp [hcmd] at h
  | some kind =>
    cases kind <;> simp only [hcmd, Bool.and_eq_true, decide_eq_true_eq, Bool.false_eq_true] at h
    · exact hread b.srcHandle h.1.1.1 (by simp [blitReadTexture, hcmd])
    · exact hread b.dstHandle h.1 (by simp [blitReadTexture, hcmd])
    · exact hread b.srcHandle h.1 (by simp [blitReadTexture, hcmd])

theorem writtenTexture_of_blitWrites (h : M.blitWrites b l = true) :
    l.sub.surface = .texture (M.storage b.dstHandle) ∧
      blitWrittenTexture b = if b.dstHandle = 0 then none else some b.dstHandle := by
  unfold blitWrites at h
  cases hcmd : b.cmd with
  | none => simp [hcmd] at h
  | some kind =>
    cases kind <;>
      simp only [hcmd, uploadWrites, Bool.and_eq_true, decide_eq_true_eq, Bool.false_eq_true] at h <;>
      exact ⟨by simp_all, by simp [blitWrittenTexture, hcmd]⟩

structure Untouched (M : Machine V) (frameSampled : Handle → Bool) (q : Pass) (texture : Handle) : Prop where
  reads : q.readsTexture texture M.views frameSampled = false
  writes : blitListWrites q.leadingBlits texture = false

theorem Untouched.blits (h : Untouched M frameSampled q texture) (ht : texture ≠ 0)
    (hl : l.sub.surface = .texture texture) (hbase : ∀ b ∈ q.leadingBlits, M.views b.dstHandle = none)
    (hb : b ∈ q.leadingBlits) : M.blitReads b l = false ∧ M.blitWrites b l = false := by
  refine ⟨?_, ?_⟩
  · cases hr : M.blitReads b l with
    | false => rfl
    | true =>
      obtain ⟨read, ⟨hread, hs⟩ | hs⟩ := readTexture_of_blitReads hr
      · have hstorage : M.storage read = texture := by
          rw [hl] at hs
          exact (Surface.texture.inj hs).symm
        have hne : read ≠ 0 := by
          rintro rfl
          exact ht (hstorage.symm.trans storage_zero)
        have hreads := h.reads
        simp only [readsTexture, ht, ne_eq, not_false_eq_true, decide_true, Bool.true_and,
          Bool.or_eq_false_iff] at hreads
        have hnot := any_eq_false.mp hreads.2 b hb
        obtain hsame | hview := names_of_storage hne hstorage
        · simp [hread, hsame] at hnot
        · simp [hread, hview] at hnot
      · rw [hl] at hs
        exact absurd (Surface.texture.inj hs) ht
  · cases hw : M.blitWrites b l with
    | false => rfl
    | true =>
      obtain ⟨hs, hwritten⟩ := writtenTexture_of_blitWrites hw
      have hstorage : M.storage b.dstHandle = texture := by
        rw [hl] at hs
        exact (Surface.texture.inj hs).symm
      have hne : b.dstHandle ≠ 0 := by
        intro hzero
        rw [hzero, storage_zero] at hstorage
        exact ht hstorage.symm
      have hdst : b.dstHandle = texture := by
        simpa [storage, hne, hbase b hb] using hstorage
      have hwrites := h.writes
      simp only [blitListWrites, ht, ne_eq, not_false_eq_true, decide_true, Bool.true_and] at hwrites
      have hnot := any_eq_false.mp hwrites b hb
      simp [hwritten, hdst, ht] at hnot

theorem Untouched.not_samples (h : Untouched M frameSampled q texture) (ht : texture ≠ 0)
    (hmarked : Marked M.views frameSampled [q]) (hl : l.sub.surface = .texture texture) : ¬ M.Samples q l := by
  intro hs
  have hsamples := samplesTexture_of_samples hmarked ht hs hl
  have hreads := h.reads
  simp [readsTexture, ht, hsamples] at hreads

theorem cases_of_moved (h : l ∈ M.moved p) :
    (∃ i, p.needsColor = true ∧ (p.color i).isBound = true ∧ l.sub = p.sub (.color i)) ∨
      ((p.needsDepth = true ∧ l.sub = p.sub .depth ∨ p.needsStencil = true ∧ l.sub = p.sub .stencil) ∧
        p.depthTexture ≠ 0) := by
  obtain ⟨t, ht, hmoves, hsub, -⟩ := h
  cases t with
  | color i => exact .inl ⟨i, hmoves, ht, hsub⟩
  | depth => exact .inr ⟨.inl ⟨hmoves, hsub⟩, by simpa [attaches] using ht⟩
  | stencil =>
    simp only [attaches, Bool.and_eq_true, decide_eq_true_eq] at ht
    exact .inr ⟨.inr ⟨hmoves, hsub⟩, ht.1⟩

/-- A pass that does not stop the scan leaves the moved clears alone, attachments apart. -/
theorem untouched_of_moved (hblock : blocksClear M.views frameSampled p q = false)
    (hmarked : Marked M.views frameSampled [q]) (hbase : ∀ b ∈ q.leadingBlits, M.views b.dstHandle = none)
    (hl : l ∈ M.moved p) :
    (∀ b ∈ q.leadingBlits, M.blitReads b l = false ∧ M.blitWrites b l = false) ∧ ¬ M.Samples q l ∧
      ¬ M.Resolved q l := by
  simp only [blocksClear, Bool.or_eq_false_iff] at hblock
  obtain ⟨i, hneeds, hb, hsub⟩ | ⟨hneeds, htex⟩ := cases_of_moved hl
  · simp only [hneeds, Bool.true_and, colorConflict, Bool.or_eq_false_iff] at hblock
    obtain ⟨⟨⟨⟨⟨⟨hreads, hwrites⟩, hres⟩, -⟩, -⟩, -⟩, -⟩ := hblock
    have ht : (p.color i).texture ≠ 0 := by simpa [isBound] using hb
    by_cases hms : (p.color i).msaaTexture = 0
    · have hsurf : l.sub.surface = .texture (p.color i).texture := by
        simp [hsub, sub, surface, hms]
      have huntouched : Untouched M frameSampled q (p.color i).texture :=
        ⟨by simpa using any_eq_false.mp hreads i (mem_finRange i),
          by simpa using any_eq_false.mp hwrites i (mem_finRange i)⟩
      refine ⟨fun b hb ↦ huntouched.blits ht hsurf hbase hb, huntouched.not_samples ht hmarked hsurf, fun hr ↦ ?_⟩
      have hinto := resolvesInto_of_resolved ht hr hsurf
      exact absurd hinto (any_eq_false.mp hres i (mem_finRange i))
    · have hsurf : l.sub.surface = .companion (p.color i).msaaTexture := by
        simp [hsub, sub, surface, hms]
      refine ⟨fun b _ ↦ ⟨?_, ?_⟩, ?_, ?_⟩
      · cases hr : M.blitReads b l with
        | false => rfl
        | true =>
          obtain ⟨read, ⟨-, hs⟩ | hs⟩ := readTexture_of_blitReads hr <;> simp [hsurf] at hs
      · cases hw : M.blitWrites b l with
        | false => rfl
        | true =>
          have hs := (writtenTexture_of_blitWrites hw).1
          simp [hsurf] at hs
      · rintro ⟨c, -, handle, -, hs⟩
        simp [hsurf] at hs
      · rintro ⟨j, -, -, hs⟩
        simp [hs] at hsurf
  · have hnd : (p.needsDepth || p.needsStencil) = true := by
      obtain ⟨h, -⟩ | ⟨h, -⟩ := hneeds <;> simp [h]
    simp only [hnd, Bool.true_and, depthConflict, Bool.or_eq_false_iff] at hblock
    obtain ⟨-, ⟨hwrites, hreads⟩, -⟩ := hblock
    have hsurf : l.sub.surface = .texture p.depthTexture := by
      obtain ⟨-, hsub⟩ | ⟨-, hsub⟩ := hneeds <;> rw [hsub] <;> rfl
    have huntouched : Untouched M frameSampled q p.depthTexture := ⟨hreads, hwrites⟩
    refine ⟨fun b hb ↦ huntouched.blits htex hsurf hbase hb, huntouched.not_samples htex hmarked hsurf, ?_⟩
    rintro ⟨j, -, -, hs⟩
    obtain ⟨-, hsub⟩ | ⟨-, hsub⟩ := hneeds <;> simp [hs, sub] at hsub

theorem subresource_eq {a b : PassColorAttachment} (hslice : a.slice = b.slice) (hlevel : a.level = b.level) :
    a.subresource = b.subresource := by
  simp only [slice, level] at hslice hlevel
  omega

theorem texture_eq_of_sub (hbefore : RecordedBefore p q) {i j : Fin 4} (h : p.sub (.color i) = q.sub (.color j)) :
    (q.color j).texture = (p.color i).texture ∧ (q.color j).subresource = (p.color i).subresource := by
  simp only [sub, Sub.mk.injEq, surface] at h
  obtain ⟨hsurf, hslice, hlevel, -⟩ := h
  refine ⟨?_, (subresource_eq hslice hlevel).symm⟩
  split_ifs at hsurf with hp hq hq
  · exact (Surface.texture.inj hsurf).symm
  · exact (hbefore.owner i j hp (Surface.companion.inj hsurf)).symm

/-- A pass the scan goes past attaches nothing the moved clears decide. -/
theorem not_attached_of_moved (hbefore : RecordedBefore p q)
    (hblock : blocksClear M.views frameSampled p q = false) (hconsumes : consumesClear p q = false)
    (hl : l ∈ M.moved p) : ¬ Attached q l := by
  rintro ⟨t', ht', hsub'⟩
  simp only [consumesClear, Bool.or_eq_false_iff] at hconsumes
  obtain ⟨⟨hcolor, hdepth⟩, hstencil⟩ := hconsumes
  obtain ⟨i, hneeds, hb, hsub⟩ | ⟨hneeds, htex⟩ := cases_of_moved hl
  · cases t' with
    | color j =>
      obtain ⟨htexture, hsubres⟩ := texture_eq_of_sub hbefore (hsub.symm.trans hsub')
      simp only [hneeds, Bool.true_and] at hcolor
      have hnot := any_eq_false.mp hcolor i (mem_finRange i)
      refine hnot ?_
      have ht : (p.color i).texture ≠ 0 := by simpa [isBound] using hb
      simp only [attachesColor, ht, ne_eq, not_false_eq_true, decide_true, Bool.true_and]
      exact any_eq_true.mpr ⟨j, mem_finRange j, by simp [htexture, hsubres]⟩
    | depth => simp [hsub, sub] at hsub'
    | stencil => simp [hsub, sub] at hsub'
  · simp only [blocksClear, Bool.or_eq_false_iff] at hblock
    have hattach (hd : q.depthTexture = p.depthTexture) (hlev : q.depthLevel = p.depthLevel) :
        attachesTargetDepth p q = true := by simp [attachesTargetDepth, hd, hlev]
    obtain ⟨hn, hsub⟩ | ⟨hn, hsub⟩ := hneeds
    · cases t' with
      | color j => simp [hsub, sub] at hsub'
      | stencil => simp [hsub, sub] at hsub'
      | depth =>
        simp only [hsub, sub, Sub.mk.injEq, Surface.texture.injEq] at hsub'
        have hat := hattach hsub'.1.symm hsub'.2.2.1.symm
        have hfirst := (hbefore.firstUse htex hsub'.1).1
        simp only [hn, hat, Bool.true_and, Bool.true_or, depthConflict, Bool.or_eq_false_iff,
          decide_eq_false_iff_not] at hblock hdepth
        cases hload : q.depthLoad with
        | load => exact hdepth hload
        | dontCare => exact hfirst hload
        | clear v => simp [hload, DepthLoad.isClear] at hblock
    · cases t' with
      | color j => simp [hsub, sub] at hsub'
      | depth => simp [hsub, sub] at hsub'
      | stencil =>
        simp only [hsub, sub, Sub.mk.injEq, Surface.texture.injEq] at hsub'
        have hat := hattach hsub'.1.symm hsub'.2.2.1.symm
        have hfirst := (hbefore.firstUse htex hsub'.1).2
        simp only [hn, hat, Bool.true_and, Bool.or_true, depthConflict, Bool.or_eq_false_iff,
          decide_eq_false_iff_not] at hblock hstencil
        cases hload : q.stencilLoad with
        | load => exact hstencil hload
        | dontCare => exact hfirst hload
        | clear v => simp [hload, StencilLoad.isClear] at hblock

end Scan

section Move

variable {D : Set Loc} {o : PassRecord V}

theorem runBlits_off {bs : List BlitCommand} (hoff : EqOff D m m')
    (hbs : ∀ b ∈ bs, ∀ l ∈ D, M.blitReads b l = false ∧ M.blitWrites b l = false) :
    M.blitRecords m bs = M.blitRecords m' bs ∧ EqOff D (M.runBlits m bs) (M.runBlits m' bs) ∧
      ∀ l ∈ D, M.runBlits m' bs l = m' l := by
  have hreads : ∀ b ∈ bs, ∀ l, M.blitReads b l = true → l ∉ D := by
    intro b hb l hr hl
    rw [(hbs b hb l hl).1] at hr
    exact Bool.noConfusion hr
  obtain ⟨hrecords, heq⟩ := runBlits_eqOff hoff hreads
  exact ⟨hrecords, heq, fun l hl ↦ runBlits_of_not_writes fun b hb ↦ (hbs b hb l hl).2⟩

theorem op_off (hop : M.op q m o w) (hoff : EqOff D m m')
    (hbs : ∀ b ∈ q.leadingBlits, ∀ l ∈ D, M.blitReads b l = false ∧ M.blitWrites b l = false)
    (hsamples : ∀ l ∈ D, ¬ M.Samples q l) (hattached : ∀ l ∈ D, ¬ Attached q l)
    (hresolved : ∀ l ∈ D, ¬ M.Resolved q l) : ∃ w', M.op q m' o w' ∧ EqOff D w w' ∧ ∀ l ∈ D, w' l = m' l := by
  obtain ⟨g, rfl, rfl⟩ := hop
  obtain ⟨hrecords, hblits, hkept⟩ := runBlits_off hoff hbs
  obtain ⟨hloads, hcommands, hbody⟩ := runBody_eqOff (g := g) hblits
    (fun l hl hD ↦ hattached l hD hl.attached) (fun l hl hD ↦ hsamples l hD hl)
  refine ⟨M.run q g m', ⟨g, ?_, rfl⟩, hbody, fun l hl ↦ ?_⟩
  · simp [record, hrecords, hloads, hcommands]
  · exact (runBody_untouched (hattached l hl) (hresolved l hl)).trans (hkept l hl)

end Move

section Target

/-- The pass that takes the clears attaches the same planes through the same views, and loads them. -/
structure Takes (M : Machine V) (p q : Pass) : Prop where
  attaches : ∀ t, movesTarget p t = true → q.attaches t = p.attaches t
  sub : ∀ t, movesTarget p t = true → p.attaches t = true → q.sub t = p.sub t
  size : ∀ t, movesTarget p t = true → p.attaches t = true → q.sizeOf t = p.sizeOf t
  load : ∀ t, movesTarget p t = true → p.attaches t = true → M.recordedLoad q t = .load
  taken : ∀ t, movesTarget p t = true → p.attaches t = true → M.recordedLoad (p.takeLoads q) t = M.recordedLoad p t
  kept : ∀ t, movesTarget p t = false → M.recordedLoad (p.takeLoads q) t = M.recordedLoad q t

theorem sameTargets_takeLoads (p q : Pass) : SameTargets (p.takeLoads q) q := by
  refine ⟨fun t ↦ ?_, fun t _ ↦ ?_, fun t _ ↦ ?_, rfl⟩ <;> cases t <;> rfl

theorem storeOf_takeLoads (t : Target) : (p.takeLoads q).storeOf t = q.storeOf t := by
  cases t <;> rfl

theorem resolveTarget_takeLoads (tile : Tile V) : M.resolveTarget (p.takeLoads q) tile = M.resolveTarget q tile := rfl

theorem color_of_takes {frameSampled : Handle → Bool} (hsafe : MovesSafely p q) (hneeds : p.needsColor = true)
    (hblock : blocksClear M.views frameSampled p q = false) (htakes : takesClear p q = true) (i : Fin 4) :
    (q.color i).texture = (p.color i).texture ∧ (q.color i).subresource = (p.color i).subresource ∧
      ((p.color i).isBound = true → (q.color i).srgbTexture = (p.color i).srgbTexture) ∧
      ((q.color i).isBound = true → (q.color i).load = .load) := by
  simp only [takesClear, hneeds, Bool.and_eq_true, Bool.or_eq_true, Bool.not_true, Bool.false_eq_true,
    false_or, decide_eq_true_eq] at htakes
  obtain ⟨⟨⟨⟨⟨⟨hset, htex⟩, -⟩, hsub⟩, hload⟩, -⟩, -⟩ := htakes
  by_cases hi : i = rt0
  · subst hi
    exact ⟨htex, hsub, hsafe.sameViews hneeds _, fun _ ↦ hload⟩
  · have hmem : i ∈ extras := mem_filter.mpr ⟨mem_finRange i, by simpa using hi⟩
    have hsame := all_eq_true.mp hset i hmem
    simp only [Bool.and_eq_true, decide_eq_true_eq] at hsame
    refine ⟨hsame.1, hsame.2, hsafe.sameViews hneeds i, fun hb ↦ ?_⟩
    simp only [blocksClear, hneeds, Bool.true_and, colorConflict, hset, Bool.or_eq_false_iff] at hblock
    simpa [hb] using any_eq_false.mp hblock.1.1.2 i hmem

theorem depth_of_takes (hbefore : RecordedBefore p q) (htakes : takesClear p q = true)
    (hneeds : p.needsDepth = true ∨ p.needsStencil = true) :
    q.depthTexture = p.depthTexture ∧ q.depthLevel = p.depthLevel ∧
      (p.depthTexture ≠ 0 →
        q.depthSize = p.depthSize ∧ q.depthFlags.hasStencil = p.depthFlags.hasStencil) ∧
      (p.needsDepth = true → q.depthLoad = .load) ∧ (p.needsStencil = true → q.stencilLoad = .load) := by
  simp only [takesClear, Bool.and_eq_true, Bool.or_eq_true, Bool.not_eq_true', decide_eq_true_eq,
    attachesTargetDepth] at htakes
  obtain ⟨⟨-, hdepth⟩, hstencil⟩ := htakes
  have hsame : q.depthTexture = p.depthTexture ∧ q.depthLevel = p.depthLevel := by
    obtain hn | hn := hneeds
    · obtain hno | hok := hdepth
      · rw [hn] at hno
        exact Bool.noConfusion hno
      · exact hok.1
    · obtain hno | hok := hstencil
      · rw [hn] at hno
        exact Bool.noConfusion hno
      · exact hok.1
  refine ⟨hsame.1, hsame.2, fun hne ↦ ⟨(hbefore.depthExtent hne hsame.1.symm hsame.2.symm).symm,
    (hbefore.stencil hne hsame.1.symm).symm⟩, fun hn ↦ ?_, fun hn ↦ ?_⟩
  · obtain hno | hok := hdepth
    · rw [hn] at hno
      exact Bool.noConfusion hno
    · exact hok.2
  · obtain hno | hok := hstencil
    · rw [hn] at hno
      exact Bool.noConfusion hno
    · exact hok.2

theorem attachmentTexture_eq {a b : PassColorAttachment} (htex : b.texture = a.texture)
    (hsrgb : b.srgbTexture = a.srgbTexture) (hmsaa : b.msaaTexture = a.msaaTexture)
    (hmsaaSrgb : b.msaaSrgbTexture = a.msaaSrgbTexture) : b.attachmentTexture = a.attachmentTexture := by
  simp [PassColorAttachment.attachmentTexture, htex, hsrgb, hmsaa, hmsaaSrgb]

theorem takes_of_rule {frameSampled : Handle → Bool} (hbefore : RecordedBefore p q) (hsafe : MovesSafely p q)
    (hblock : blocksClear M.views frameSampled p q = false) (htakes : takesClear p q = true) : Takes M p q := by
  have hcolor (h : p.needsColor = true) (i : Fin 4) := color_of_takes hsafe h hblock htakes i
  have hdepth (h : p.needsDepth = true ∨ p.needsStencil = true) := depth_of_takes hbefore htakes h
  refine ⟨fun t h ↦ ?_, fun t h ht ↦ ?_, fun t h ht ↦ ?_, fun t h ht ↦ ?_, fun t h ht ↦ ?_, fun t h ↦ ?_⟩
  · cases t with
    | color i => simp [attaches, isBound, (hcolor h i).1]
    | depth => simp [attaches, (hdepth (.inl h)).1]
    | stencil =>
      have hne : p.depthTexture ≠ 0 := by
        simp only [movesTarget, needsStencil, Bool.and_eq_true, decide_eq_true_eq] at h
        exact h.1.2
      simp [attaches, (hdepth (.inr h)).1, ((hdepth (.inr h)).2.2.1 hne).2]
  · cases t with
    | color i =>
      obtain ⟨htex, hsub, -⟩ := hcolor h i
      have hmsaa := (hbefore.companion i i ht htex.symm).1
      simp [sub, surface, slice, level, htex,
        hsub, ← hmsaa]
    | depth => simp [sub, (hdepth (.inl h)).1, (hdepth (.inl h)).2.1]
    | stencil => simp [sub, (hdepth (.inr h)).1, (hdepth (.inr h)).2.1]
  · cases t with
    | color i => exact (hbefore.extent i i ht (hcolor h i).1.symm (hcolor h i).2.1.symm).symm
    | depth => exact ((hdepth (.inl h)).2.2.1 (by simpa [attaches] using ht)).1
    | stencil =>
      simp only [attaches, Bool.and_eq_true, decide_eq_true_eq] at ht
      exact ((hdepth (.inr h)).2.2.1 ht.1).1
  · cases t with
    | color i =>
      obtain ⟨htex, -, -, hload⟩ := hcolor h i
      have hb : (q.color i).isBound = true := by
        simpa only [attaches, isBound, htex] using ht
      simp [recordedLoad, hload hb]
    | depth => simp [recordedLoad, (hdepth (.inl h)).2.2.2.1 h]
    | stencil => simp [recordedLoad, (hdepth (.inr h)).2.2.2.2 h]
  · cases t with
    | color i =>
      obtain ⟨htex, -, hsrgb, -⟩ := hcolor h i
      obtain ⟨hmsaa, hmsaaSrgb⟩ := hbefore.companion i i ht htex.symm
      have hview := attachmentTexture_eq htex (hsrgb ht) hmsaa.symm (hmsaaSrgb (hsrgb ht).symm).symm
      have hb : (q.color i).isBound = true := by
        simpa only [attaches, isBound, htex] using ht
      have hneeds : p.needsColor = true := h
      have hload : ((p.takeLoads q).color i).load = (p.color i).load := by
        simp [takeLoads, hneeds, hb]
      have hview' : ((p.takeLoads q).color i).attachmentTexture = (p.color i).attachmentTexture := hview
      simp [recordedLoad, hload, hview']
    | depth =>
      have hneeds : p.needsDepth = true := h
      simp [recordedLoad, takeLoads, hneeds]
    | stencil =>
      have hneeds : p.needsStencil = true := h
      simp [recordedLoad, takeLoads, hneeds]
  · cases t with
    | color i =>
      have hneeds : p.needsColor = false := h
      have hview : ((p.takeLoads q).color i).attachmentTexture = (q.color i).attachmentTexture := rfl
      have hload : ((p.takeLoads q).color i).load = (q.color i).load := by
        simp [takeLoads, hneeds]
      simp [recordedLoad, hload, hview]
    | depth =>
      have hneeds : p.needsDepth = false := h
      simp [recordedLoad, takeLoads, hneeds]
    | stencil =>
      have hneeds : p.needsStencil = false := h
      simp [recordedLoad, takeLoads, hneeds]

theorem color_of_sub_eq {t' : Target} (hne : t' ≠ t) (h : p.sub t' = p.sub t) :
    ∃ i j, t' = .color i ∧ t = .color j := by
  cases t <;> cases t' <;> simp_all [sub]

theorem Takes.aliased (h : Takes M p q) (hm : movesTarget p t = true) (ht : p.attaches t = true) :
    q.aliased t = p.aliased t := by
  rw [Bool.eq_iff_iff, Pass.aliased, Pass.aliased, any_eq_true, any_eq_true]
  refine exists_congr fun t' ↦ and_congr_right fun _ ↦ ?_
  simp only [Bool.and_eq_true, decide_eq_true_eq]
  constructor
  · rintro ⟨⟨hne, hq⟩, hsub⟩
    obtain ⟨i, j, rfl, rfl⟩ := color_of_sub_eq hne hsub
    have hp : p.attaches (.color i) = true := (h.attaches (.color i) hm).symm.trans hq
    exact ⟨⟨hne, hp⟩, by rw [← h.sub (.color i) hm hp, hsub, h.sub (.color j) hm ht]⟩
  · rintro ⟨⟨hne, hp⟩, hsub⟩
    obtain ⟨i, j, rfl, rfl⟩ := color_of_sub_eq hne hsub
    exact ⟨⟨hne, (h.attaches (.color i) hm).trans hp⟩, by rw [h.sub (.color i) hm hp, hsub, h.sub (.color j) hm ht]⟩

def entry (M : Machine V) (q : Pass) (g : Garbage V) (m : Loc → V) (l : Loc) : V :=
  match targets.find? fun t ↦ q.attaches t && decide (l.sub = q.sub t) with
  | some t => (M.loadTile q g m t l.x l.y).getD (M.around q g m t l)
  | none => m l

variable {g : Garbage V}

theorem entry_eq (hal : q.aliased t = false) (ht : q.attaches t = true) (hsub : l.sub = q.sub t) :
    M.entry q g m l = (M.loadTile q g m t l.x l.y).getD (M.around q g m t l) := by
  unfold entry
  cases hfind : targets.find? fun t ↦ q.attaches t && decide (l.sub = q.sub t) with
  | none => exact absurd (find?_eq_none.mp hfind t (mem_targets t)) (by simp [ht, hsub])
  | some t' =>
    have hfound := find?_some hfind
    simp only [Bool.and_eq_true, decide_eq_true_eq] at hfound
    obtain rfl := eq_of_sub_eq q hal hfound.1 (hfound.2.symm.trans hsub)
    rfl

section Step

variable (h : Takes M p q) (hM : M.confined = false)

include h

theorem Takes.loadAction (hm : movesTarget p t = true) (ht : p.attaches t = true) :
    M.loadAction (p.takeLoads q) t = M.loadAction p t ∧ (p.aliased t = false → M.loadAction q t = .load) := by
  have hq : q.attaches t = true := (h.attaches t hm).trans ht
  have hal : (p.takeLoads q).aliased t = q.aliased t :=
    (sameTargets_takeLoads p q).aliased_eq (((sameTargets_takeLoads p q).attaches t).trans hq)
  refine ⟨?_, fun hnot ↦ ?_⟩
  · simp [Machine.loadAction, hal, h.aliased hm ht, h.taken t hm ht]
  · simp [Machine.loadAction, h.aliased hm ht, hnot, h.load t hm ht]

theorem Takes.kept_loadAction (hq : q.attaches t = true) (hm : movesTarget p t = false) :
    M.loadAction (p.takeLoads q) t = M.loadAction q t := by
  have hal : (p.takeLoads q).aliased t = q.aliased t :=
    (sameTargets_takeLoads p q).aliased_eq (((sameTargets_takeLoads p q).attaches t).trans hq)
  simp [Machine.loadAction, hal, h.kept t hm]

theorem Takes.attached_of_moved (hl : l ∈ M.moved p) : Attached q l := by
  obtain ⟨t, ht, hm, hsub, -⟩ := hl
  exact ⟨t, (h.attaches t hm).trans ht, hsub.trans (h.sub t hm ht).symm⟩

theorem Takes.mem_moved (hq : q.attaches t = true) (hsub : l.sub = q.sub t) (hal : q.aliased t = false) :
    l ∈ M.moved p ↔ movesTarget p t = true ∧
      (M.loadAction p t = .dontCare ∨ (∃ v, M.loadAction p t = .clear v) ∧ p.ownArea t l.x l.y = true) := by
  constructor
  · rintro ⟨t', ht', hm', hsub', hcase⟩
    have hq' : q.attaches t' = true := (h.attaches t' hm').trans ht'
    obtain rfl := eq_of_sub_eq q hal hq' ((h.sub t' hm' ht').trans (hsub'.symm.trans hsub))
    exact ⟨hm', hcase⟩
  · rintro ⟨hm, hcase⟩
    have ht : p.attaches t = true := (h.attaches t hm).symm.trans hq
    exact ⟨t, ht, hm, hsub.trans (h.sub t hm ht), hcase⟩

omit h in
theorem reaches_takeLoads (x y : ℕ) : M.reaches (p.takeLoads q) t x y = M.reaches q t x y :=
  (sameTargets_takeLoads p q).reaches_eq M t x y

variable (hoff : EqOff (M.moved p) m m') (hon : ∀ l ∈ M.moved p, m' l = M.entry (p.takeLoads q) g m l)

include hM hoff hon

/-- Loaded from the memory the clears already are in, an attachment starts as the clears would have it. -/
theorem Takes.start_eq (hq : q.attaches t = true) (hal : q.aliased t = false) (hsub : l.sub = q.sub t) :
    (M.loadTile q g m' t l.x l.y).getD (M.around q g m' t l) =
      (M.loadTile (p.takeLoads q) g m t l.x l.y).getD (M.around (p.takeLoads q) g m t l) := by
  have hsame := sameTargets_takeLoads p q
  have hq' : (p.takeLoads q).attaches t = true := (hsame.attaches t).trans hq
  have hsub' : l.sub = (p.takeLoads q).sub t := hsub.trans (hsame.sub t hq').symm
  have hal' : (p.takeLoads q).aliased t = false := (hsame.aliased_eq hq').trans hal
  have hl : (⟨q.sub t, l.x, l.y⟩ : Loc) = l := by rw [← hsub]
  have hl' : (⟨(p.takeLoads q).sub t, l.x, l.y⟩ : Loc) = l := by rw [← hsub']
  cases hm : movesTarget p t with
  | false =>
    have hnot : l ∉ M.moved p := by
      rw [h.mem_moved hq hsub hal, hm]
      exact fun hc ↦ Bool.noConfusion hc.1
    have heq : m l = m' l := hoff hnot
    simp [loadTile, loadTexel, around, reaches_takeLoads, h.kept_loadAction hq hm, hl, hl', heq]
  | true =>
    have ht : p.attaches t = true := (h.attaches t hm).symm.trans hq
    obtain ⟨haction, hload⟩ := h.loadAction hm ht
    have hstart : (M.loadTile q g m' t l.x l.y).getD (M.around q g m' t l) = m' l := by
      simp only [loadTile, loadTexel, around, hload ((h.aliased hm ht).symm.trans hal), hl]
      split_ifs <;> rfl
    rw [hstart]
    by_cases hmem : l ∈ M.moved p
    · rw [hon l hmem, entry_eq hal' hq' hsub']
    · have heq : m l = m' l := hoff hmem
      rw [h.mem_moved hq hsub hal, hm] at hmem
      simp only [true_and, not_or] at hmem
      rw [← heq]
      cases hcase : M.loadAction p t with
      | dontCare => exact absurd hcase hmem.1
      | load =>
        simp only [loadTile, loadTexel, around, haction, hcase, hl']
        split_ifs <;> rfl
      | clear v =>
        -- Past its own area the clear wrote nothing, and the merged pass's load does not reach there either.
        have hown : q.ownArea t l.x l.y = false := by
          have hnot : ¬ p.ownArea t l.x l.y = true := fun hown ↦ hmem.2 ⟨⟨v, hcase⟩, hown⟩
          rw [ownArea_iff, ← h.size t hm ht, ← ownArea_iff] at hnot
          simpa using hnot
        have hreach : M.reaches (p.takeLoads q) t l.x l.y = false := by
          rw [reaches_takeLoads, reaches_own hM, hown, Bool.and_false]
        simp [loadTile, hreach, around, haction, hcase]

theorem Takes.loadTile_eq : M.loadTile q g m' = M.loadTile (p.takeLoads q) g m := by
  funext t x y
  cases hr : M.reaches q t x y with
  | false => simp [loadTile, reaches_takeLoads, hr]
  | true =>
    have hq : q.attaches t = true := (inside hr).1
    cases hal : q.aliased t with
    | false =>
      have hstart := h.start_eq hM hoff hon hq hal (l := ⟨q.sub t, x, y⟩) rfl
      simp only [loadTile, reaches_takeLoads, hr, if_true, Option.getD_some] at hstart ⊢
      rw [hstart]
    | true =>
      have hsame := sameTargets_takeLoads p q
      have hal' : (p.takeLoads q).aliased t = true :=
        (hsame.aliased_eq ((hsame.attaches t).trans hq)).trans hal
      simp [loadTile, reaches_takeLoads, hr, loadTexel, Machine.loadAction, hal, hal']

theorem Takes.runBody_eq (hsamples : ∀ l ∈ M.moved p, ¬ M.Samples q l) :
    M.runCommands q g m' = M.runCommands (p.takeLoads q) g m ∧
      M.runBody q g m' = M.runBody (p.takeLoads q) g m := by
  have hsame := sameTargets_takeLoads p q
  have hcommands : M.runCommands q g m' = M.runCommands (p.takeLoads q) g m := by
    unfold runCommands
    rw [h.loadTile_eq hM hoff hon, hsame.views]
    exact foldl_runCommand_eq (fun c hc ↦ hc) (fun k c hk ↦ by simp [EncoderState.fresh] at hk)
      fun l hl ↦ (hoff fun hmem ↦ hsamples l hmem hl).symm
  refine ⟨hcommands, funext fun l ↦ ?_⟩
  simp only [runBody, hcommands, storeTile, resolveTarget_takeLoads]
  refine foldl_pointwise _ (fun _ _ _ ↦ resolveTarget_congr) ?_
  by_cases ha : Attached q l
  · obtain ⟨t, hq, hsub⟩ := ha
    have hq' : (p.takeLoads q).attaches t = true := (hsame.attaches t).trans hq
    have hsub' : l.sub = (p.takeLoads q).sub t := hsub.trans (hsame.sub t hq').symm
    have hstore : storeAction (p.takeLoads q) t = storeAction q t := by
      simp [storeAction, hsame.aliased_eq hq', storeOf_takeLoads]
    cases hs : storeAction q t with
    | dontCare =>
      rw [stores_of_dontCare hq hsub hs, stores_of_dontCare hq' hsub' (hstore.trans hs)]
    | store =>
      rw [stores_of_store hq hsub hs, stores_of_store hq' hsub' (hstore.trans hs)]
      have hstart := h.start_eq hM hoff hon hq (not_aliased_of_store hs) hsub
      cases hv : (M.runCommands (p.takeLoads q) g m).tile t l.x l.y with
      | some v => rfl
      | none =>
        -- A texel outside the tile is stored as the load left it there.
        have hsome : ((M.runCommands (p.takeLoads q) g m).tile t l.x l.y).isSome =
            (M.loadTile (p.takeLoads q) g m t l.x l.y).isSome := foldl_runCommand_isSome t l.x l.y
        have hnone : M.loadTile (p.takeLoads q) g m t l.x l.y = none := by
          rw [hv] at hsome
          exact Option.isNone_iff_eq_none.mp (by simpa using hsome.symm)
        rw [h.loadTile_eq hM hoff hon, hnone] at hstart
        exact hstart
  · have ha' : ¬ Attached (p.takeLoads q) l := by
      rintro ⟨t, ht, hsub⟩
      exact ha ⟨t, (hsame.attaches t).symm.trans ht, hsub.trans (hsame.sub t ht)⟩
    rw [stores_untouched ha, stores_untouched ha']
    exact (hoff fun hmem ↦ ha (h.attached_of_moved hmem)).symm

omit hoff hon in
theorem Takes.op (hp : p.clearOnly = true) (hblits : ∀ b ∈ q.leadingBlits, ∀ l ∈ M.moved p,
      M.blitReads b l = false ∧ M.blitWrites b l = false) (hsamples : ∀ l ∈ M.moved p, ¬ M.Samples q l)
    {o : PassRecord V} {w₁ : Loc → V} (hop : M.op (p.takeLoads q) m o w₁) :
    ∃ w, M.Cleared p w ∧ ∀ m', EqOff (M.moved p) m m' → (∀ l ∈ M.moved p, m' l = w l) →
      ∃ o', M.op q m' o' w₁ ∧ o.blits = o'.blits ∧ o.draws = o'.draws := by
  obtain ⟨g, rfl, rfl⟩ := hop
  have hsame := sameTargets_takeLoads p q
  refine ⟨M.entry (p.takeLoads q) g (M.runBlits m q.leadingBlits), fun t l v ht hsub hload hown ↦ ?_,
    fun m' hoff hon ↦ ?_⟩
  · have hm := movesTarget_of_clear hp ht hload
    have hq : q.attaches t = true := (h.attaches t hm).trans ht
    have hq' : (p.takeLoads q).attaches t = true := (hsame.attaches t).trans hq
    have hal : (p.takeLoads q).aliased t = false := by
      rw [hsame.aliased_eq hq', h.aliased hm ht]
      cases hal : p.aliased t with
      | false => rfl
      | true => simp [Machine.loadAction, hal] at hload
    have hown' : q.ownArea t l.x l.y = true := by
      rwa [ownArea_iff, h.size t hm ht, ← ownArea_iff]
    rw [entry_eq hal hq' (hsub.trans ((hsame.sub t hq').trans (h.sub t hm ht)).symm)]
    have hreach : M.reaches (p.takeLoads q) t l.x l.y = true := by
      rw [reaches_takeLoads, reaches_own hM, hq, hown', Bool.and_self]
    simp [loadTile, hreach, loadTexel, (h.loadAction hm ht).1, hload]
  · obtain ⟨hrecords, hoff', hkept⟩ := runBlits_off hoff hblits
    obtain ⟨hcommands, hbody⟩ := h.runBody_eq hM hoff' (fun l hl ↦ (hkept l hl).trans (hon l hl)) hsamples
    refine ⟨_, ⟨g, rfl, hbody.symm⟩, hrecords, ?_⟩
    simp only [record]
    rw [hcommands]
    rfl

end Step

end Target

section Float

variable {frameSampled : Handle → Bool} {rest : List Pass} {k : ℕ}

/-- The clears of a pass, in memory ahead of the passes that run before the one taking them. -/
theorem behaves_of_merged (hM : M.confined = false) (hp : p.clearOnly = true)
    (hmarked : Marked M.views frameSampled rest) (hblits : ∀ q ∈ rest, ∀ b ∈ q.leadingBlits, M.views b.dstHandle = none)
    (hbefore : ∀ q ∈ rest, RecordedBefore p q) (hq : rest[k]? = some q) (hsafe : MovesSafely p q)
    (hfind : findClearMergeTarget M.views frameSampled p rest = some k) {os : List (PassRecord V)} {m₁ : Loc → V}
    (hrun : M.Behaves (rest.modify k p.takeLoads) m os m₁) :
    ∃ w, M.Cleared p w ∧ ∀ m', EqOff (M.moved p) m m' → (∀ l ∈ M.moved p, m' l = w l) →
      ∃ os', M.Behaves rest m' os' m₁ ∧ os.flatMap PassRecord.blits = os'.flatMap PassRecord.blits ∧
        os.flatMap PassRecord.draws = os'.flatMap PassRecord.draws := by
  induction rest generalizing k m os with
  | nil => simp [findClearMergeTarget] at hfind
  | cons a rest ih =>
    have hmarked₁ : Marked M.views frameSampled [a] := fun b hb ↦ by
      obtain rfl := mem_singleton.mp hb
      exact hmarked b mem_cons_self
    unfold findClearMergeTarget at hfind
    split_ifs at hfind with hblock htakes hconsumes
    · obtain rfl := Option.some.inj hfind
      obtain rfl := Option.some.inj hq
      rw [Bool.not_eq_true] at hblock
      have huntouched (l : Loc) (hl : l ∈ M.moved p) :=
        untouched_of_moved hblock hmarked₁ (hblits a mem_cons_self) hl
      have htake : Takes M p a := takes_of_rule (hbefore a mem_cons_self) hsafe hblock htakes
      rw [modify_zero_cons] at hrun
      cases hrun with
      | cons hop hrest =>
        obtain ⟨w, hclear, hold⟩ := htake.op hM hp (fun b hb l hl ↦ (huntouched l hl).1 b hb)
          (fun l hl ↦ (huntouched l hl).2.1) hop
        refine ⟨w, hclear, fun m' hoff hon ↦ ?_⟩
        obtain ⟨o', hop', hb, hd⟩ := hold m' hoff hon
        exact ⟨_, .cons hop' hrest, by simp [hb], by simp [hd]⟩
    · obtain ⟨k', hfind', rfl⟩ := Option.map_eq_some_iff.mp hfind
      rw [Bool.not_eq_true] at hblock hconsumes
      have huntouched (l : Loc) (hl : l ∈ M.moved p) :=
        untouched_of_moved hblock hmarked₁ (hblits a mem_cons_self) hl
      rw [modify_succ_cons] at hrun
      cases hrun with
      | cons hop hrest =>
        obtain ⟨w, hclear, hold⟩ := ih (fun b hb ↦ hmarked b (mem_cons_of_mem _ hb))
          (fun b hb ↦ hblits b (mem_cons_of_mem _ hb)) (fun b hb ↦ hbefore b (mem_cons_of_mem _ hb)) hq hfind' hrest
        refine ⟨w, hclear, fun m' hoff hon ↦ ?_⟩
        obtain ⟨w', hop', hoff', hkept⟩ := op_off hop hoff (fun b hb l hl ↦ (huntouched l hl).1 b hb)
          (fun l hl ↦ (huntouched l hl).2.1)
          (fun l hl ↦ not_attached_of_moved (hbefore a mem_cons_self) hblock hconsumes hl)
          (fun l hl ↦ (huntouched l hl).2.2)
        obtain ⟨os', hrun', hb, hd⟩ := hold w' hoff' fun l hl ↦ (hkept l hl).trans (hon l hl)
        exact ⟨_, .cons hop' hrun', by simp [hb], by simp [hd]⟩

theorem sameDraws_of_merged (hM : M.confined = false) (hp : p.clearOnly = true)
    (hmarked : Marked M.views frameSampled rest) (hblits : ∀ q ∈ rest, ∀ b ∈ q.leadingBlits, M.views b.dstHandle = none)
    (hbefore : ∀ q ∈ rest, RecordedBefore p q) (hq : rest[k]? = some q) (hsafe : MovesSafely p q)
    (hfind : findClearMergeTarget M.views frameSampled p rest = some k) :
    SameDraws M (rest.modify k p.takeLoads) (p :: rest) := by
  classical
  intro m os m₁ hrun
  obtain ⟨w, hclear, hold⟩ := behaves_of_merged hM hp hmarked hblits hbefore hq hsafe hfind hrun
  have hoff : EqOff (M.moved p) m ((M.moved p).piecewise w m) := fun l hl ↦
    (Set.piecewise_eq_of_notMem _ _ _ hl).symm
  have hon (l : Loc) (hl : l ∈ M.moved p) : (M.moved p).piecewise w m l = w l := Set.piecewise_eq_of_mem _ _ _ hl
  have hcleared : M.Cleared p ((M.moved p).piecewise w m) := by
    intro t l v ht hsub hload hown
    rw [hon l ⟨t, ht, movesTarget_of_clear hp ht hload, hsub, .inr ⟨⟨v, hload⟩, hown⟩⟩]
    exact hclear t l v ht hsub hload hown
  obtain ⟨o, hop, hob, hod⟩ := op_of_cleared hM hp hsafe.unresolved hoff hcleared
  obtain ⟨os', hrun', hb, hd⟩ := hold _ hoff hon
  exact ⟨o :: os', .cons hop hrun', by simp [hob, hb], by simp [hod, hd]⟩

end Float

end Machine

section Coalesce

variable {views : ViewMap} {frameSampled : Handle → Bool} {p : Pass} {ps : List Pass} {k : ℕ}

structure Coalescible (views : ViewMap) (frameSampled : Handle → Bool) (ps : List Pass) : Prop where
  marked : Marked views frameSampled ps
  recorded : ClearsRecorded views ps

theorem Coalescible.tail (h : Coalescible views frameSampled (p :: ps)) : Coalescible views frameSampled ps where
  marked q hq := h.marked q (mem_cons_of_mem _ hq)
  recorded := ⟨fun q hq ↦ h.recorded.blits q (mem_cons_of_mem _ hq), (pairwise_cons.mp h.recorded.before).2⟩

theorem Coalescible.modify (h : Coalescible views frameSampled ps) (p : Pass) :
    Coalescible views frameSampled (ps.modify k p.takeLoads) where
  marked q hq := by
    obtain hq | ⟨a, ha, rfl⟩ := mem_modify hq
    · exact h.marked q hq
    · exact h.marked a ha
  recorded := by
    refine ⟨fun q hq ↦ ?_, pairwise_modify (fun a b hab ↦ ?_) (fun a b hab ↦ ?_) h.recorded.before⟩
    · obtain hq | ⟨a, ha, rfl⟩ := mem_modify hq
      · exact h.recorded.blits q hq
      · exact h.recorded.blits a ha
    · exact ⟨hab.owner, hab.companion, hab.extent, hab.depthExtent, hab.stencil, hab.firstUse⟩
    · refine ⟨hab.owner, hab.companion, hab.extent, hab.depthExtent, hab.stencil, fun hne htex ↦ ?_⟩
      obtain ⟨hdepth, hstencil⟩ := hab.firstUse hne htex
      simp only [takeLoads]
      refine ⟨?_, ?_⟩
      · split_ifs with hn
        · intro hload
          simp [needsDepth, hload, DepthLoad.isClear] at hn
        · exact hdepth
      · split_ifs with hn
        · intro hload
          simp [needsStencil, hload, StencilLoad.isClear] at hn
        · exact hstencil

/-- Rule E keeps a submission's rendering where the passes it moves clears into write the cleared slots through
the views the clear-only passes do. -/
theorem coalesce_preserves_of_merges_safely (M : Machine V) (hM : M.confined = false) (S : Submission M.views)
    (hrec : ClearsRecorded M.views S.passes) (hsafe : MergesSafely M.views S.frameSampled S.passes) :
    SameDraws M (coalesceClearOnlyPasses M.views S.frameSampled S.passes) S.passes := by
  have hall : Coalescible M.views S.frameSampled S.passes := ⟨S.marked, hrec⟩
  generalize S.passes = ps at hall hsafe ⊢
  induction ps using coalesceClearOnlyPasses.induct M.views S.frameSampled with
  | case1 =>
    rw [coalesceClearOnlyPasses]
    exact SameDraws.refl M []
  | case2 p rest t ht ih =>
    rw [MergesSafely, ht] at hsafe
    rw [coalesceClearOnlyPasses, ht]
    -- The rule goes on with the shortened list, so what is left is that this one merge keeps the draws.
    refine (ih (hall.tail.modify p) hsafe.2).trans ?_
    unfold clearMergeTarget at ht
    split_ifs at ht with hneeds
    have hp : p.clearOnly = true := by
      cases hc : p.clearOnly with
      | true => rfl
      | false => simp [needsColor, needsDepth, needsStencil, hc] at hneeds
    obtain ⟨⟨q, hq, hmoves⟩, -⟩ := hsafe
    exact Machine.sameDraws_of_merged hM hp hall.tail.marked hall.tail.recorded.blits
      (pairwise_cons.mp hall.recorded.before).1 hq hmoves ht
  | case3 p rest hn ih =>
    rw [MergesSafely, hn] at hsafe
    rw [coalesceClearOnlyPasses, hn]
    exact (ih hall.tail hsafe).cons p

def viewGpu : Machine ℕ where
  clearColor view _ _ _ _ := view
  clearDepth value := value
  clearStencil value := value
  resolve _ v := v
  blit _ _ _ := 0
  transfersStencil _ := false
  reads _ _ _ := false
  draw _ _ _ _ tile t x y := (tile t x y).getD 0
  views handle := if handle = 12 then some 11 else none
  confined := false

def extraPass (action : ColorLoad) (encodes : Bool) : Pass :=
  { Pass.empty with color := fun i ↦
      if i = rt0 then
        { PassColorAttachment.none with texture := 1, size := (1, 1), load := action, store := .store }
      else if i = rt1 then
        { PassColorAttachment.none with texture := 11, srgbTexture := if encodes then 12 else 0, size := (1, 1)
                                        load := action, store := .store }
      else .none }

def clearedExtra (encodes : Bool) : Submission viewGpu.views where
  passes := [extraPass (.clear 0 0 0 0) true, extraPass .load encodes]
  frameSampled _ := false
  marked := by simp [Marked, extraPass, Pass.empty]
  base p hp := by
    simp only [mem_cons, not_mem_nil, or_false] at hp
    obtain rfl | rfl := hp <;> exact ⟨by decide +revert, by rfl⟩
  quads p hp := by
    simp only [mem_cons, not_mem_nil, or_false] at hp
    obtain rfl | rfl := hp <;> exact ⟨by simp [extraPass, Pass.empty], by simp [extraPass, Pass.empty]⟩

theorem clearedExtra_recorded (encodes : Bool) : ClearsRecorded viewGpu.views (clearedExtra encodes).passes where
  blits p hp := by
    simp only [clearedExtra, mem_cons, not_mem_nil, or_false] at hp
    obtain rfl | rfl := hp <;> simp [extraPass, Pass.empty]
  before := by
    refine pairwise_cons.mpr ⟨fun q hq ↦ ?_, pairwise_singleton _ _⟩
    obtain rfl := mem_singleton.mp hq
    exact ⟨by decide +revert, by decide +revert, by decide +revert, by decide +revert, by decide +revert,
      by decide +revert⟩

def extraTexel : Loc := ⟨⟨.texture 11, 0, 0, .color⟩, 0, 0⟩

theorem coalesce_keeps_clear_through_one_view :
    SameDraws viewGpu (coalesceClearOnlyPasses viewGpu.views (fun _ ↦ false) (clearedExtra true).passes)
      (clearedExtra true).passes := by
  have hfirst : clearMergeTarget viewGpu.views (clearedExtra true).frameSampled
      (extraPass (.clear 0 0 0 0) true) [extraPass .load true] = some 0 := by decide
  have hlast : clearMergeTarget viewGpu.views (clearedExtra true).frameSampled
      ((extraPass (.clear 0 0 0 0) true).takeLoads (extraPass .load true)) [] = none := by decide
  refine coalesce_preserves_of_merges_safely viewGpu rfl (clearedExtra true) (clearedExtra_recorded true) ?_
  simp only [clearedExtra] at hfirst hlast ⊢
  rw [MergesSafely, hfirst]
  refine ⟨⟨_, rfl, by decide, fun _ ↦ by decide⟩, ?_⟩
  rw [modify_zero_cons, MergesSafely, hlast]
  simp [MergesSafely]

theorem run_extraPass (action : ColorLoad) (encodes : Bool) (g : Garbage ℕ) (m : Loc → ℕ) :
    viewGpu.run (extraPass action encodes) g m extraTexel =
      (viewGpu.loadTile (extraPass action encodes) g m (.color rt1) 0 0).getD
        (viewGpu.around (extraPass action encodes) g m (.color rt1) extraTexel) := by
  have hsub : extraTexel.sub = (extraPass action encodes).sub (.color rt1) := by
    simp [extraTexel, extraPass, sub, surface, slice,
      level, PassColorAttachment.none]
  refine Machine.run_of_idle (t := .color rt1) rfl rfl ?_ rfl hsub ?_
  · rintro ⟨i, -, hne, -⟩
    refine hne ?_
    simp only [extraPass]
    split_ifs <;> rfl
  · rfl

/-- The clear of an extra through its sRGB view, moved into a pass that writes the linear one. -/
theorem coalesce_moves_clear_to_linear_view :
    viewGpu.Determined (clearedExtra false).passes (fun _ ↦ 0) extraTexel 12 ∧
      viewGpu.Determined
        (coalesceClearOnlyPasses viewGpu.views (clearedExtra false).frameSampled (clearedExtra false).passes)
        (fun _ ↦ 0) extraTexel 11 := by
  have hmerged : coalesceClearOnlyPasses viewGpu.views (clearedExtra false).frameSampled (clearedExtra false).passes =
      [extraPass (.clear 0 0 0 0) false] := by
    have hfirst : clearMergeTarget viewGpu.views (clearedExtra false).frameSampled
        (extraPass (.clear 0 0 0 0) true) [extraPass .load false] = some 0 := by decide
    have htaken : (extraPass (.clear 0 0 0 0) true).takeLoads (extraPass .load false) =
        extraPass (.clear 0 0 0 0) false := by
      have hcolor : ((extraPass (.clear 0 0 0 0) true).takeLoads (extraPass .load false)).color =
          (extraPass (.clear 0 0 0 0) false).color := by decide
      exact congrArg (fun color ↦ { extraPass .load false with color }) hcolor
    have hlast : clearMergeTarget viewGpu.views (clearedExtra false).frameSampled
        (extraPass (.clear 0 0 0 0) false) [] = none := by decide
    simp only [clearedExtra] at hfirst hlast ⊢
    rw [coalesceClearOnlyPasses, hfirst]
    simp only [modify_zero_cons, htaken]
    rw [coalesceClearOnlyPasses, hlast]
    simp [coalesceClearOnlyPasses]
  refine ⟨fun os m' hrun ↦ ?_, fun os m' hrun ↦ ?_⟩
  · cases hrun with
    | cons hclear hrest =>
      cases hrest with
      | cons hload hnil =>
        cases hnil
        obtain ⟨g, -, rfl⟩ := hclear
        obtain ⟨g', -, rfl⟩ := hload
        rw [run_extraPass]
        exact run_extraPass (.clear 0 0 0 0) true g _
  · rw [hmerged] at hrun
    cases hrun with
    | cons hclear hnil =>
      cases hnil
      obtain ⟨g, -, rfl⟩ := hclear
      exact run_extraPass (.clear 0 0 0 0) false g _

end Coalesce

end Mtld3d
