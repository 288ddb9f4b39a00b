import Mathlib.Data.Fintype.Pi
import Mathlib.Data.Nat.Bitwise

namespace Mtld3d

inductive PixelFormat
  | a8Unorm | r8Unorm | r16Unorm | r16Float | rg8Unorm | rg8Snorm | b5G6R5Unorm | abgr4Unorm | bgr5A1Unorm
  | rg16Unorm | rg16Snorm | r32Float | rg16Float | rgba8Unorm | rgba8UnormSrgb | rgba8Snorm | bgra8Unorm
  | bgra8UnormSrgb | rgb10A2Unorm | bgr10A2Unorm | rg32Float | rgba16Unorm | rgba16Snorm | rgba16Float
  | rgba32Float | bc1Rgba | bc1RgbaSrgb | bc2Rgba | bc2RgbaSrgb | bc3Rgba | bc3RgbaSrgb | bc4RUnorm
  | depth32Float | depth32FloatStencil8
  deriving DecidableEq, Repr

inductive BlendFactor
  | zero | one | sourceColor | oneMinusSourceColor | sourceAlpha | oneMinusSourceAlpha | destinationAlpha
  | oneMinusDestinationAlpha | destinationColor | oneMinusDestinationColor | sourceAlphaSaturated
  | blendColor | oneMinusBlendColor
  deriving DecidableEq, Repr

inductive BlendOperation
  | add | subtract | reverseSubtract | min | max
  deriving DecidableEq, Repr

inductive VertexFormat
  | invalid | uChar4 | uChar4Normalized | uChar4NormalizedBgra | short2 | short4 | uShort2Normalized
  | uShort4Normalized | short2Normalized | short4Normalized | half2 | half4 | float | float2 | float3 | float4
  deriving DecidableEq, Repr

inductive VertexStepFunction
  | constant
  | perVertex
  | perInstance
  deriving DecidableEq, Repr

def VertexStepFunction.code : VertexStepFunction → ℕ
  | constant => 0
  | perVertex => 1
  | perInstance => 2

structure ColorWriteMask where
  red : Bool
  green : Bool
  blue : Bool
  alpha : Bool
  deriving DecidableEq, Repr

def ColorWriteMask.empty : ColorWriteMask := ⟨false, false, false, false⟩

structure VertexAttrDesc where
  attrIndex : ℕ
  bufferIndex : ℕ
  offset : ℕ
  format : VertexFormat
  deriving DecidableEq, Repr

structure VertexBufferLayoutDesc where
  bufferIndex : ℕ
  stride : ℕ
  stepFunction : VertexStepFunction
  stepRate : ℕ
  deriving DecidableEq, Repr

/-- Raw `D3DBLEND` values; anything unmapped reads as zero. -/
def d3dToMetalBlend : ℕ → BlendFactor
  | 1 => .zero
  | 2 => .one
  | 3 => .sourceColor
  | 4 => .oneMinusSourceColor
  | 5 => .sourceAlpha
  | 6 => .oneMinusSourceAlpha
  | 7 => .destinationAlpha
  | 8 => .oneMinusDestinationAlpha
  | 9 => .destinationColor
  | 10 => .oneMinusDestinationColor
  | 11 => .sourceAlphaSaturated
  | 12 => .sourceAlpha
  | 13 => .oneMinusSourceAlpha
  | 14 => .blendColor
  | 15 => .oneMinusBlendColor
  | _ => .zero

def d3dToMetalBlendRt (blend : ℕ) (rtHasAlpha : Bool) : BlendFactor :=
  if !rtHasAlpha && blend == 7 then .one
  else if !rtHasAlpha && blend == 8 then .zero
  else d3dToMetalBlend blend

def d3dToMetalBlendOp : ℕ → BlendOperation
  | 1 => .add
  | 2 => .subtract
  | 3 => .reverseSubtract
  | 4 => .min
  | 5 => .max
  | _ => .add

def d3dToMetalWriteMask (mask : ℕ) : ColorWriteMask :=
  ⟨mask.testBit 0, mask.testBit 1, mask.testBit 2, mask.testBit 3⟩

structure PipelineRsFlags where
  blendEnable : Bool
  separateAlphaBlend : Bool
  alphaToCoverage : Bool
  deriving DecidableEq, Repr

structure PipelineAttachFlags where
  hasDepth : Bool
  hasStencil : Bool
  hasColorOutput : Bool
  colorHasAlpha : Bool
  deriving DecidableEq, Repr

structure PipelineRsBits where
  flags : PipelineRsFlags
  srcBlend : ℕ
  dstBlend : ℕ
  blendOp : ℕ
  srcBlendAlpha : ℕ
  dstBlendAlpha : ℕ
  blendOpAlpha : ℕ
  colorWriteMask : ℕ
  colorWriteMaskExt : Fin 3 → ℕ
  deriving DecidableEq

structure ExtraColorAttachments where
  formats : Fin 3 → PixelFormat
  presentMask : ℕ
  hasAlphaMask : ℕ
  deriving DecidableEq

namespace ExtraColorAttachments

def none : ExtraColorAttachments := ⟨fun _ ↦ .bgra8Unorm, 0, 0⟩

def isPresent (e : ExtraColorAttachments) (i : Fin 3) : Bool := e.presentMask.testBit i.val

def hasAlpha (e : ExtraColorAttachments) (i : Fin 3) : Bool := e.hasAlphaMask.testBit i.val

end ExtraColorAttachments

namespace PipelineRsBits

def alphaToCoverage (rs : PipelineRsBits) (sampleCount : ℕ) : Bool :=
  decide (1 < sampleCount) && rs.flags.alphaToCoverage

def extraWriteMask (rs : PipelineRsBits) (extra : ExtraColorAttachments) (psColorOutMask : ℕ) (i : Fin 3) :
    ColorWriteMask :=
  if extra.isPresent i && psColorOutMask.testBit (i.val + 1) then d3dToMetalWriteMask (rs.colorWriteMaskExt i)
  else .empty

end PipelineRsBits

structure StreamLayout where
  stride : ℕ
  step : VertexStepFunction
  stepRate : ℕ
  deriving DecidableEq, Repr

def StreamLayout.isUsed (l : StreamLayout) : Bool := l.stride != 0

def maxStreams : ℕ := 16

structure PipelineSnapshot where
  vsFn : ℕ
  psFn : ℕ
  vdeclHash : ℕ
  streamLayouts : Fin maxStreams → StreamLayout
  colorFormat : PixelFormat
  attach : PipelineAttachFlags
  rs : PipelineRsBits
  extra : ExtraColorAttachments
  psColorOutMask : ℕ
  sampleCount : ℕ

namespace PipelineSnapshot

def extraWriteMask (s : PipelineSnapshot) (i : Fin 3) : ColorWriteMask :=
  s.rs.extraWriteMask s.extra s.psColorOutMask i

def extraFormat (s : PipelineSnapshot) (i : Fin 3) : PixelFormat :=
  if s.extra.isPresent i then s.extra.formats i else ExtraColorAttachments.none.formats i

end PipelineSnapshot

structure EffectiveBlend where
  enable : Bool
  src : ℕ
  dst : ℕ
  op : ℕ
  srcAlpha : ℕ
  dstAlpha : ℕ
  opAlpha : ℕ
  separateAlpha : Bool

/-- A `BOTH*` source factor stands for a pair of factors. -/
def bothSrcAlpha (src dst : ℕ) : ℕ × ℕ :=
  match src with
  | 12 => (5, 6)
  | 13 => (6, 5)
  | _ => (src, dst)

/-- `MIN` and `MAX` combine their operands unweighted. -/
def minMaxFactors (src dst op : ℕ) : ℕ × ℕ :=
  match op with
  | 4 | 5 => (2, 2)
  | _ => (src, dst)

def blendEquation (src dst op : ℕ) : ℕ × ℕ × ℕ :=
  let (src, dst) := bothSrcAlpha src dst
  let (src, dst) := minMaxFactors src dst op
  (src, dst, op)

def effectiveBlend (s : PipelineSnapshot) : EffectiveBlend :=
  if !s.rs.flags.blendEnable || !s.attach.hasColorOutput then ⟨false, 2, 1, 1, 2, 1, 1, false⟩
  else
    let (src, dst, op) := blendEquation s.rs.srcBlend s.rs.dstBlend s.rs.blendOp
    let (srcAlpha, dstAlpha, opAlpha) :=
      if s.rs.flags.separateAlphaBlend then
        blendEquation s.rs.srcBlendAlpha s.rs.dstBlendAlpha s.rs.blendOpAlpha
      else (src, dst, op)
    ⟨true, src, dst, op, srcAlpha, dstAlpha, opAlpha, (srcAlpha, dstAlpha, opAlpha) != (src, dst, op)⟩

structure PipelineKey (η : Type) where
  vsFn : ℕ
  psFn : ℕ
  vertexAttrsHash : η
  streamLayouts : Fin maxStreams → StreamLayout
  flags : PipelineRsFlags
  attach : PipelineAttachFlags
  srcBlend : BlendFactor
  dstBlend : BlendFactor
  blendOp : BlendOperation
  srcBlendAlpha : BlendFactor
  dstBlendAlpha : BlendFactor
  blendOpAlpha : BlendOperation
  colorWriteMask : ColorWriteMask
  colorFormat : PixelFormat
  extraPresentMask : ℕ
  extraHasAlphaMask : ℕ
  extraFormats : Fin 3 → PixelFormat
  extraWriteMasks : Fin 3 → ColorWriteMask
  sampleCount : ℕ
  deriving DecidableEq

def mrtBlend (s : PipelineSnapshot) : Bool := (effectiveBlend s).enable && s.extra.presentMask != 0

def keyFactor (s : PipelineSnapshot) (blend : ℕ) : BlendFactor :=
  if mrtBlend s then d3dToMetalBlend blend else d3dToMetalBlendRt blend s.attach.colorHasAlpha

def keyFromSnapshot {η : Type} (hash : List VertexAttrDesc → η) (s : PipelineSnapshot)
    (vertexAttrs : List VertexAttrDesc) : PipelineKey η :=
  let blend := effectiveBlend s
  let color := s.attach.hasColorOutput
  { vsFn := s.vsFn
    psFn := s.psFn
    vertexAttrsHash := hash vertexAttrs
    streamLayouts := s.streamLayouts
    flags := ⟨blend.enable, false, s.rs.alphaToCoverage s.sampleCount⟩
    attach := if mrtBlend s then s.attach else { s.attach with colorHasAlpha := false }
    srcBlend := keyFactor s blend.src
    dstBlend := keyFactor s blend.dst
    blendOp := d3dToMetalBlendOp blend.op
    srcBlendAlpha := keyFactor s blend.srcAlpha
    dstBlendAlpha := keyFactor s blend.dstAlpha
    blendOpAlpha := d3dToMetalBlendOp blend.opAlpha
    colorWriteMask := if color then d3dToMetalWriteMask s.rs.colorWriteMask else .empty
    colorFormat := if color then s.colorFormat else .bgra8Unorm
    extraPresentMask := s.extra.presentMask
    extraHasAlphaMask := if blend.enable then s.extra.hasAlphaMask &&& s.extra.presentMask else 0
    extraFormats := s.extraFormat
    extraWriteMasks := s.extraWriteMask
    sampleCount := max s.sampleCount 1 }

structure ExtraColorAttachmentDescription where
  format : PixelFormat
  writeMask : ColorWriteMask
  srcBlend : BlendFactor
  dstBlend : BlendFactor
  srcBlendAlpha : BlendFactor
  dstBlendAlpha : BlendFactor

structure PipelineDescription where
  vsFnHandle : ℕ
  psFnHandle : ℕ
  vertexAttrs : List VertexAttrDesc
  vertexLayouts : List VertexBufferLayoutDesc
  flags : PipelineRsFlags
  attach : PipelineAttachFlags
  srcBlend : BlendFactor
  dstBlend : BlendFactor
  blendOp : BlendOperation
  srcBlendAlpha : BlendFactor
  dstBlendAlpha : BlendFactor
  blendOpAlpha : BlendOperation
  colorWriteMask : ColorWriteMask
  colorFormat : PixelFormat
  extraPresentMask : ℕ
  sampleCount : ℕ
  extra : Fin 3 → ExtraColorAttachmentDescription

def vertexLayoutsFromSnapshot (s : PipelineSnapshot) : List VertexBufferLayoutDesc :=
  ((List.finRange maxStreams).filter fun i ↦ (s.streamLayouts i).isUsed).map fun i ↦
    ⟨i.val, (s.streamLayouts i).stride, (s.streamLayouts i).step, (s.streamLayouts i).stepRate⟩

def extraDescription (s : PipelineSnapshot) (blend : EffectiveBlend) (i : Fin 3) :
    ExtraColorAttachmentDescription :=
  let hasAlpha := s.extra.isPresent i && s.extra.hasAlpha i
  ⟨s.extraFormat i, s.extraWriteMask i, d3dToMetalBlendRt blend.src hasAlpha,
    d3dToMetalBlendRt blend.dst hasAlpha, d3dToMetalBlendRt blend.srcAlpha hasAlpha,
    d3dToMetalBlendRt blend.dstAlpha hasAlpha⟩

def descriptionFromSnapshot (s : PipelineSnapshot) (vertexAttrs : List VertexAttrDesc) :
    PipelineDescription :=
  let blend := effectiveBlend s
  let alpha := s.attach.colorHasAlpha
  { vsFnHandle := s.vsFn
    psFnHandle := s.psFn
    vertexAttrs := vertexAttrs
    vertexLayouts := vertexLayoutsFromSnapshot s
    flags := ⟨blend.enable, blend.separateAlpha, s.rs.alphaToCoverage s.sampleCount⟩
    attach := s.attach
    srcBlend := d3dToMetalBlendRt blend.src alpha
    dstBlend := d3dToMetalBlendRt blend.dst alpha
    blendOp := d3dToMetalBlendOp blend.op
    srcBlendAlpha := d3dToMetalBlendRt blend.srcAlpha alpha
    dstBlendAlpha := d3dToMetalBlendRt blend.dstAlpha alpha
    blendOpAlpha := d3dToMetalBlendOp blend.opAlpha
    colorWriteMask := d3dToMetalWriteMask s.rs.colorWriteMask
    colorFormat := s.colorFormat
    extraPresentMask := s.extra.presentMask
    sampleCount := max s.sampleCount 1
    extra := extraDescription s blend }

structure MetalBlend where
  sourceRgb : BlendFactor
  destinationRgb : BlendFactor
  rgbOperation : BlendOperation
  sourceAlpha : BlendFactor
  destinationAlpha : BlendFactor
  alphaOperation : BlendOperation
  deriving DecidableEq, Repr

structure MetalColorAttachment where
  format : PixelFormat
  writeMask : ColorWriteMask
  blend : Option MetalBlend
  deriving DecidableEq, Repr

@[ext]
structure MetalPipeline where
  vertexFunction : ℕ
  fragmentFunction : ℕ
  attributes : List VertexAttrDesc
  layouts : List VertexBufferLayoutDesc
  rasterSampleCount : ℕ
  alphaToCoverage : Bool
  color : Option MetalColorAttachment
  extra : Fin 3 → Option MetalColorAttachment
  depthFormat : Option PixelFormat
  stencilFormat : Option PixelFormat
  deriving DecidableEq

def depthAttachmentFormat (hasDepth hasStencil : Bool) : Option PixelFormat :=
  if hasDepth then some (if hasStencil then .depth32FloatStencil8 else .depth32Float) else none

def stencilAttachmentFormat (hasDepth hasStencil : Bool) : Option PixelFormat :=
  if hasDepth && hasStencil then some .depth32FloatStencil8 else none

def createRenderPipeline (d : PipelineDescription) : MetalPipeline where
  vertexFunction := d.vsFnHandle
  fragmentFunction := d.psFnHandle
  attributes := d.vertexAttrs
  layouts := d.vertexLayouts
  rasterSampleCount := max d.sampleCount 1
  alphaToCoverage := d.flags.alphaToCoverage
  color :=
    if d.attach.hasColorOutput then
      some ⟨d.colorFormat, d.colorWriteMask,
        if d.flags.blendEnable then
          some ⟨d.srcBlend, d.dstBlend, d.blendOp, d.srcBlendAlpha, d.dstBlendAlpha, d.blendOpAlpha⟩
        else none⟩
    else none
  extra i :=
    if d.extraPresentMask.testBit i.val then
      some ⟨(d.extra i).format, (d.extra i).writeMask,
        if d.flags.blendEnable then
          some ⟨(d.extra i).srcBlend, (d.extra i).dstBlend, d.blendOp, (d.extra i).srcBlendAlpha,
            (d.extra i).dstBlendAlpha, d.blendOpAlpha⟩
        else none⟩
    else none
  depthFormat := depthAttachmentFormat d.attach.hasDepth d.attach.hasStencil
  stencilFormat := stencilAttachmentFormat d.attach.hasDepth d.attach.hasStencil

def clampDestinationAlpha (rtHasAlpha : Bool) : BlendFactor → BlendFactor
  | .destinationAlpha => if rtHasAlpha then .destinationAlpha else .one
  | .oneMinusDestinationAlpha => if rtHasAlpha then .oneMinusDestinationAlpha else .zero
  | factor => factor

theorem d3dToMetalBlendRt_eq_clamp (blend : ℕ) (rtHasAlpha : Bool) :
    d3dToMetalBlendRt blend rtHasAlpha = clampDestinationAlpha rtHasAlpha (d3dToMetalBlend blend) := by
  by_cases h7 : blend = 7
  · subst h7
    cases rtHasAlpha <;> rfl
  by_cases h8 : blend = 8
  · subst h8
    cases rtHasAlpha <;> rfl
  have hrt : d3dToMetalBlendRt blend rtHasAlpha = d3dToMetalBlend blend := by
    simp [d3dToMetalBlendRt, h7, h8]
  rw [hrt]
  unfold d3dToMetalBlend
  split <;> first | rfl | contradiction

section KeySound

variable {η : Type} {hash : List VertexAttrDesc → η} {s s' : PipelineSnapshot}
  {attrs attrs' : List VertexAttrDesc}

theorem mrtBlend_eq (h : keyFromSnapshot hash s attrs = keyFromSnapshot hash s' attrs') :
    mrtBlend s = mrtBlend s' := by
  have hflags : (effectiveBlend s).enable = (effectiveBlend s').enable :=
    congrArg (fun k ↦ k.flags.blendEnable) h
  have hmask : s.extra.presentMask = s'.extra.presentMask := congrArg (·.extraPresentMask) h
  rw [mrtBlend, mrtBlend, hflags, hmask]

theorem attach_eq (h : keyFromSnapshot hash s attrs = keyFromSnapshot hash s' attrs') :
    s.attach.hasDepth = s'.attach.hasDepth ∧ s.attach.hasStencil = s'.attach.hasStencil ∧
      s.attach.hasColorOutput = s'.attach.hasColorOutput ∧
      (mrtBlend s = true → s.attach.colorHasAlpha = s'.attach.colorHasAlpha) := by
  have hmrt := mrtBlend_eq h
  have hattach : (if mrtBlend s then s.attach else { s.attach with colorHasAlpha := false }) =
      if mrtBlend s' then s'.attach else { s'.attach with colorHasAlpha := false } :=
    congrArg (·.attach) h
  rw [← hmrt] at hattach
  cases hm : mrtBlend s with
  | true =>
    rw [hm, if_pos rfl, if_pos rfl] at hattach
    rw [hattach]
    exact ⟨rfl, rfl, rfl, fun _ ↦ rfl⟩
  | false =>
    simp only [hm, Bool.false_eq_true, if_false, PipelineAttachFlags.mk.injEq] at hattach
    exact ⟨hattach.1, hattach.2.1, hattach.2.2.1, fun hf ↦ absurd hf Bool.noConfusion⟩

theorem target_factor_eq (h : keyFromSnapshot hash s attrs = keyFromSnapshot hash s' attrs')
    {blend blend' : ℕ} (hfactor : keyFactor s blend = keyFactor s' blend') :
    d3dToMetalBlendRt blend s.attach.colorHasAlpha = d3dToMetalBlendRt blend' s'.attach.colorHasAlpha := by
  have hmrt := mrtBlend_eq h
  cases hm : mrtBlend s with
  | true =>
    have halpha := (attach_eq h).2.2.2 hm
    rw [keyFactor, keyFactor, ← hmrt, hm, if_pos rfl, if_pos rfl] at hfactor
    rw [d3dToMetalBlendRt_eq_clamp, d3dToMetalBlendRt_eq_clamp, hfactor, halpha]
  | false =>
    rw [keyFactor, keyFactor, ← hmrt, hm] at hfactor
    simpa using hfactor

theorem extra_factor_eq (h : keyFromSnapshot hash s attrs = keyFromSnapshot hash s' attrs')
    {blend blend' : ℕ} (hfactor : keyFactor s blend = keyFactor s' blend')
    (henable : (effectiveBlend s).enable = true) {i : Fin 3} (hi : s.extra.isPresent i = true) :
    d3dToMetalBlendRt blend (s.extra.isPresent i && s.extra.hasAlpha i) =
      d3dToMetalBlendRt blend' (s'.extra.isPresent i && s'.extra.hasAlpha i) := by
  have hmrt := mrtBlend_eq h
  have hpresent : s.extra.presentMask = s'.extra.presentMask := congrArg (·.extraPresentMask) h
  have henable' : (effectiveBlend s').enable = true := by
    have hflags : (effectiveBlend s).enable = (effectiveBlend s').enable :=
      congrArg (fun k ↦ k.flags.blendEnable) h
    rw [← hflags, henable]
  have hm : mrtBlend s = true := by
    have hne : s.extra.presentMask ≠ 0 := fun h0 ↦ by
      simp [ExtraColorAttachments.isPresent, h0] at hi
    simp [mrtBlend, henable, hne]
  have hmask : s.extra.hasAlphaMask &&& s.extra.presentMask =
      s'.extra.hasAlphaMask &&& s'.extra.presentMask := by
    have hkey := congrArg (·.extraHasAlphaMask) h
    simpa [keyFromSnapshot, henable, henable'] using hkey
  have halpha : (s.extra.isPresent i && s.extra.hasAlpha i) =
      (s'.extra.isPresent i && s'.extra.hasAlpha i) := by
    have hbit := congrArg (fun m ↦ m.testBit i.val) hmask
    simp only [Nat.testBit_and] at hbit
    simp only [ExtraColorAttachments.isPresent, ExtraColorAttachments.hasAlpha]
    rw [Bool.and_comm, hbit, Bool.and_comm]
  rw [keyFactor, keyFactor, ← hmrt, hm, if_pos rfl, if_pos rfl] at hfactor
  rw [d3dToMetalBlendRt_eq_clamp, d3dToMetalBlendRt_eq_clamp, hfactor, halpha]

def metalPipeline (s : PipelineSnapshot) (attrs : List VertexAttrDesc) : MetalPipeline :=
  createRenderPipeline (descriptionFromSnapshot s attrs)

theorem blend_eq (h : keyFromSnapshot hash s attrs = keyFromSnapshot hash s' attrs') :
    (effectiveBlend s).enable = (effectiveBlend s').enable ∧
      d3dToMetalBlendOp (effectiveBlend s).op = d3dToMetalBlendOp (effectiveBlend s').op ∧
      d3dToMetalBlendOp (effectiveBlend s).opAlpha = d3dToMetalBlendOp (effectiveBlend s').opAlpha :=
  ⟨congrArg (fun k ↦ k.flags.blendEnable) h, congrArg (·.blendOp) h, congrArg (·.blendOpAlpha) h⟩

theorem color_eq (h : keyFromSnapshot hash s attrs = keyFromSnapshot hash s' attrs') :
    (metalPipeline s attrs).color = (metalPipeline s' attrs').color := by
  have hcolor := (attach_eq h).2.2.1
  obtain ⟨henable, hop, hopAlpha⟩ := blend_eq h
  have hsrc := target_factor_eq h (congrArg (·.srcBlend) h)
  have hdst := target_factor_eq h (congrArg (·.dstBlend) h)
  have hsrcAlpha := target_factor_eq h (congrArg (·.srcBlendAlpha) h)
  have hdstAlpha := target_factor_eq h (congrArg (·.dstBlendAlpha) h)
  have hmask := congrArg (·.colorWriteMask) h
  have hformat := congrArg (·.colorFormat) h
  simp only [keyFromSnapshot, ← hcolor] at hmask hformat
  cases hc : s.attach.hasColorOutput with
  | false => simp [metalPipeline, createRenderPipeline, descriptionFromSnapshot, ← hcolor, hc]
  | true =>
    simp only [hc, if_true] at hmask hformat
    cases hb : (effectiveBlend s).enable with
    | false =>
      simp [metalPipeline, createRenderPipeline, descriptionFromSnapshot, ← hcolor, hc, hmask, hformat, ← henable,
        hb]
    | true =>
      simp [metalPipeline, createRenderPipeline, descriptionFromSnapshot, ← hcolor, hc, hmask, hformat, ← henable,
        hb, hop, hopAlpha, hsrc, hdst, hsrcAlpha, hdstAlpha]

theorem extra_eq (h : keyFromSnapshot hash s attrs = keyFromSnapshot hash s' attrs') (i : Fin 3) :
    (metalPipeline s attrs).extra i = (metalPipeline s' attrs').extra i := by
  have hpresent : s.extra.presentMask = s'.extra.presentMask := congrArg (·.extraPresentMask) h
  obtain ⟨henable, hop, hopAlpha⟩ := blend_eq h
  have hformat : s.extraFormat i = s'.extraFormat i := congrArg (fun k ↦ k.extraFormats i) h
  have hmask : s.extraWriteMask i = s'.extraWriteMask i := congrArg (fun k ↦ k.extraWriteMasks i) h
  simp only [metalPipeline, createRenderPipeline, descriptionFromSnapshot, extraDescription, ← hpresent,
    hformat, hmask, hop, hopAlpha, ← henable]
  cases hi : s.extra.presentMask.testBit i.val with
  | false => simp
  | true =>
    cases hb : (effectiveBlend s).enable with
    | false => simp
    | true =>
      rw [extra_factor_eq h (congrArg (·.srcBlend) h) hb hi,
        extra_factor_eq h (congrArg (·.dstBlend) h) hb hi,
        extra_factor_eq h (congrArg (·.srcBlendAlpha) h) hb hi,
        extra_factor_eq h (congrArg (·.dstBlendAlpha) h) hb hi]

theorem metalPipeline_eq (hinj : Function.Injective hash)
    (h : keyFromSnapshot hash s attrs = keyFromSnapshot hash s' attrs') :
    metalPipeline s attrs = metalPipeline s' attrs' := by
  have hvs : s.vsFn = s'.vsFn := congrArg (·.vsFn) h
  have hps : s.psFn = s'.psFn := congrArg (·.psFn) h
  have hattrs : attrs = attrs' := hinj (congrArg (·.vertexAttrsHash) h)
  have hlayouts : s.streamLayouts = s'.streamLayouts := congrArg (·.streamLayouts) h
  have hcount : max s.sampleCount 1 = max s'.sampleCount 1 := congrArg (·.sampleCount) h
  have hcoverage : s.rs.alphaToCoverage s.sampleCount = s'.rs.alphaToCoverage s'.sampleCount :=
    congrArg (fun k ↦ k.flags.alphaToCoverage) h
  obtain ⟨hdepth, hstencil, -, -⟩ := attach_eq h
  have hlay : vertexLayoutsFromSnapshot s = vertexLayoutsFromSnapshot s' := by
    rw [vertexLayoutsFromSnapshot, vertexLayoutsFromSnapshot, hlayouts]
  refine MetalPipeline.ext hvs hps hattrs hlay (congrArg (max · 1) hcount) hcoverage (color_eq h)
    (funext (extra_eq h)) (congrArg₂ depthAttachmentFormat hdepth hstencil)
    (congrArg₂ stencilAttachmentFormat hdepth hstencil)

end KeySound

end Mtld3d
