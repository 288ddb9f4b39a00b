import Mathlib.Data.Fintype.Basic

namespace Mtld3d

abbrev Handle := ℕ

inductive ColorLoad
  | load
  | clear (r g b a : ℕ)
  | dontCare
  deriving DecidableEq, Repr

inductive DepthLoad
  | load
  | clear (value : ℕ)
  | dontCare
  deriving DecidableEq, Repr

inductive StencilLoad
  | load
  | clear (value : ℕ)
  | dontCare
  deriving DecidableEq, Repr

inductive StoreAction
  | store
  | dontCare
  deriving DecidableEq, Repr

def ColorLoad.isClear : ColorLoad → Bool
  | .clear .. => true
  | _ => false

def DepthLoad.isClear : DepthLoad → Bool
  | .clear _ => true
  | _ => false

def StencilLoad.isClear : StencilLoad → Bool
  | .clear _ => true
  | _ => false

inductive CommandType
  | setRenderPipelineState
  | setViewport
  | setVertexBytes
  | drawPrimitives
  | setDepthStencilState
  | setCullMode
  | setFragmentTexture
  | setFragmentSamplerState
  | setVertexBytesAt
  | setFragmentBytesAt
  | setScissorRect
  | setVertexBuffer
  | drawIndexedPrimitives
  | setVisibilityResultMode
  | setBlendColor
  | setDepthBias
  | drawIndexedPrimitivesUp
  | setStencilReference
  | setFragmentNullTexture
  | setVertexTexture
  | setVertexSamplerState
  | setVertexNullTexture
  | setFragmentBuffer
  | pushDebugGroup
  | popDebugGroup
  | setTriangleFillMode
  deriving DecidableEq, Repr

structure Command where
  cmd : CommandType
  paramA : ℕ
  paramB : ℕ
  paramC : ℕ
  paramD : ℕ
  deriving DecidableEq, Repr

namespace Command

def isDraw (c : Command) : Bool :=
  decide (c.cmd = .drawPrimitives) || decide (c.cmd = .drawIndexedPrimitives) ||
    decide (c.cmd = .drawIndexedPrimitivesUp)

def sampledTexture (c : Command) : Option Handle :=
  if (c.cmd = .setFragmentTexture ∨ c.cmd = .setVertexTexture) ∧ c.paramB ≠ 0 then some c.paramB else none

end Command

inductive BlitCommandType
  | copyBufferToTexture
  | copyTextureToTexture
  | copyBufferToBuffer
  | notifyBufferDidModifyRange
  | generateMipmaps
  | copyBufferToDepth
  | copyBufferToStencil
  | transferDepth
  deriving DecidableEq, Repr

/-- A blit as it goes over the wire; `none` is a command number with no variant. -/
structure BlitCommand where
  cmd : Option BlitCommandType
  mipLevel : ℕ
  srcHandle : Handle
  dstHandle : Handle
  srcOffset : ℕ
  bytesPerRow : ℕ
  originX : ℕ
  originY : ℕ
  regionW : ℕ
  regionH : ℕ
  dstOffset : ℕ
  byteSize : ℕ
  depth : ℕ
  bytesPerImage : ℕ
  dstMipLevel : ℕ
  dstSlice : ℕ
  srcSlice : ℕ
  deriving DecidableEq, Repr

/-- Whether `outer` reaches at least as far as `inner` on both axes. -/
def extentCovers (outer inner : ℕ × ℕ) : Bool := decide (inner.1 ≤ outer.1) && decide (inner.2 ≤ outer.2)

def clearIsStored (clears : Bool) (kept : StoreAction) : Bool := clears && decide (kept = .store)

structure PassColorAttachment where
  texture : Handle
  srgbTexture : Handle
  msaaTexture : Handle
  msaaSrgbTexture : Handle
  resolveTexture : Handle
  subresource : ℕ
  size : ℕ × ℕ
  format : ℕ
  load : ColorLoad
  store : StoreAction
  deriving DecidableEq, Repr

namespace PassColorAttachment

def none : PassColorAttachment :=
  { texture := 0, srgbTexture := 0, msaaTexture := 0, msaaSrgbTexture := 0, resolveTexture := 0
    subresource := 0, size := (0, 0), format := 80, load := .dontCare, store := .dontCare }

variable (a : PassColorAttachment)

def isBound : Bool := decide (a.texture ≠ 0)

/-- View the render pass binds: the companion of a multisampled target, and the sRGB twin of either
where the pass encodes on write. -/
def attachmentTexture : Handle :=
  if a.msaaTexture = 0 then
    if a.srgbTexture = 0 then a.texture else a.srgbTexture
  else if a.msaaSrgbTexture = 0 then a.msaaTexture
  else a.msaaSrgbTexture

def slice : ℕ := a.subresource % 65536

def level : ℕ := a.subresource / 65536

def writtenWithoutDraws : Bool := clearIsStored a.load.isClear a.store || decide (a.resolveTexture ≠ 0)

end PassColorAttachment

structure PassDepthFlags where
  sampleable : Bool
  hasStencil : Bool
  used : Bool
  stencilWritten : Bool
  deriving DecidableEq, Repr

structure PassColorFlags where
  writesObserved : Bool
  firstDrawCovers : Bool
  deriving DecidableEq, Repr

/-- One Metal render pass. `color 0` is render target 0, the others are the extras. -/
structure Pass where
  color : Fin 4 → PassColorAttachment
  depthTexture : Handle
  depthLevel : ℕ
  depthSize : ℕ × ℕ
  depthLoad : DepthLoad
  stencilLoad : StencilLoad
  depthStore : StoreAction
  stencilStore : StoreAction
  commands : List Command
  leadingBlits : List BlitCommand
  hasCountingVisibility : Bool
  visibilityBuffer : ℕ
  depthFlags : PassDepthFlags
  colorFlags : PassColorFlags
  colorClearQuadRanges : List (ℕ × ℕ)
  deriving DecidableEq

namespace Pass

abbrev rt0 : Fin 4 := 0

abbrev rt1 : Fin 4 := 1

def empty : Pass where
  color := fun _ ↦ .none
  depthTexture := 0
  depthLevel := 0
  depthSize := (0, 0)
  depthLoad := .load
  stencilLoad := .load
  depthStore := .store
  stencilStore := .store
  commands := []
  leadingBlits := []
  hasCountingVisibility := false
  visibilityBuffer := 0
  depthFlags := ⟨false, false, false, false⟩
  colorFlags := ⟨false, false⟩
  colorClearQuadRanges := []

def withTarget (p : Pass) (a : PassColorAttachment) : Pass :=
  { p with color := fun i ↦ if i = 0 then a else .none }

variable (p : Pass)

def hasDraw : Bool := p.commands.any Command.isDraw

def boundColor : List (Fin 4) := (List.finRange 4).filter fun i ↦ (p.color i).isBound

def colorExtentCoversDepth : Bool :=
  decide (p.depthTexture = 0) || p.boundColor.all fun i ↦ extentCovers (p.color i).size p.depthSize

def colorWrittenWithoutDraws : Bool := (p.color rt0).isBound && (p.color rt0).writtenWithoutDraws

def depthWrittenWithoutDraws : Bool :=
  decide (p.depthTexture ≠ 0) &&
    (clearIsStored p.depthLoad.isClear p.depthStore ||
      p.depthFlags.hasStencil && clearIsStored p.stencilLoad.isClear p.stencilStore)

def inClearQuad (idx : ℕ) : Bool :=
  p.colorClearQuadRanges.any fun r ↦ decide (r.1 ≤ idx) && decide (idx < r.2)

/-- Some colour slot at any subresource, or the depth attachment, is `texture`. -/
def attachesTexture (texture : Handle) : Bool :=
  decide (texture ≠ 0) &&
    (decide (p.depthTexture = texture) || (List.finRange 4).any fun i ↦ decide ((p.color i).texture = texture))

end Pass

abbrev ViewMap := Handle → Option Handle

def handleNamesTexture (raw target : Handle) (views : ViewMap) : Bool :=
  decide (raw ≠ 0) && decide (target ≠ 0) && (decide (raw = target) || decide (views raw = some target))

namespace Pass

variable (p : Pass)

def commandsSampleTexture (target : Handle) (views : ViewMap) : Bool :=
  p.commands.any fun c ↦ match c.sampledTexture with
    | none => false
    | some texture => decide (texture = target) || decide (views texture = some target)

/-- A sampler bind of the pass reads `target` or a view of it; textures no bind marked are not scanned
for. -/
def samplesTexture (target : Handle) (views : ViewMap) (frameSampled : Handle → Bool) : Bool :=
  decide (target ≠ 0) && frameSampled target && p.commandsSampleTexture target views

def resolvesInto (target : Handle) (views : ViewMap) : Bool :=
  decide (target ≠ 0) && (List.finRange 4).any fun i ↦
    decide ((p.color i).resolveTexture ≠ 0) &&
      (decide ((p.color i).resolveTexture = target) || decide (views (p.color i).resolveTexture = some target))

end Pass

end Mtld3d
