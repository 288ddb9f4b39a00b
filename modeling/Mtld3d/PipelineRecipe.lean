import Mtld3d.PipelineState
import Mtld3d.ShaderSource

namespace Mtld3d

open Lib List Reader Reads

def PixelFormat.code : PixelFormat → ℕ
  | a8Unorm => 1
  | r8Unorm => 10
  | r16Unorm => 20
  | r16Float => 25
  | rg8Unorm => 30
  | rg8Snorm => 32
  | b5G6R5Unorm => 40
  | abgr4Unorm => 42
  | bgr5A1Unorm => 43
  | rg16Unorm => 60
  | rg16Snorm => 62
  | r32Float => 55
  | rg16Float => 65
  | rgba8Unorm => 70
  | rgba8UnormSrgb => 71
  | rgba8Snorm => 72
  | bgra8Unorm => 80
  | bgra8UnormSrgb => 81
  | rgb10A2Unorm => 90
  | bgr10A2Unorm => 94
  | rg32Float => 105
  | rgba16Unorm => 110
  | rgba16Snorm => 112
  | rgba16Float => 115
  | rgba32Float => 125
  | bc1Rgba => 130
  | bc1RgbaSrgb => 131
  | bc2Rgba => 132
  | bc2RgbaSrgb => 133
  | bc3Rgba => 134
  | bc3RgbaSrgb => 135
  | bc4RUnorm => 140
  | depth32Float => 252
  | depth32FloatStencil8 => 260

def PixelFormat.all : List PixelFormat :=
  [a8Unorm, r8Unorm, r16Unorm, r16Float, rg8Unorm, rg8Snorm, b5G6R5Unorm, abgr4Unorm, bgr5A1Unorm, rg16Unorm,
   rg16Snorm, r32Float, rg16Float, rgba8Unorm, rgba8UnormSrgb, rgba8Snorm, bgra8Unorm, bgra8UnormSrgb,
   rgb10A2Unorm, bgr10A2Unorm, rg32Float, rgba16Unorm, rgba16Snorm, rgba16Float, rgba32Float, bc1Rgba,
   bc1RgbaSrgb, bc2Rgba, bc2RgbaSrgb, bc3Rgba, bc3RgbaSrgb, bc4RUnorm, depth32Float, depth32FloatStencil8]

/-- The derived `from_repr`: the variant with that discriminant. -/
def PixelFormat.fromRepr (n : ℕ) : Option PixelFormat := PixelFormat.all.find? fun f ↦ f.code == n

def VertexFormat.code : VertexFormat → ℕ
  | invalid => 0
  | uChar4 => 3
  | uChar4Normalized => 9
  | uChar4NormalizedBgra => 42
  | short2 => 16
  | short4 => 17
  | uShort2Normalized => 20
  | uShort4Normalized => 21
  | short2Normalized => 22
  | short4Normalized => 23
  | half2 => 25
  | half4 => 27
  | float => 28
  | float2 => 29
  | float3 => 30
  | float4 => 31

def VertexFormat.all : List VertexFormat :=
  [invalid, uChar4, uChar4Normalized, uChar4NormalizedBgra, short2, short4, uShort2Normalized,
   uShort4Normalized, short2Normalized, short4Normalized, half2, half4, float, float2, float3, float4]

def VertexFormat.fromRepr (n : ℕ) : Option VertexFormat := VertexFormat.all.find? fun f ↦ f.code == n

def VertexStepFunction.fromRepr : ℕ → Option VertexStepFunction
  | 0 => some constant
  | 1 => some perVertex
  | 2 => some perInstance
  | _ => none

@[simp] theorem PixelFormat.fromRepr_code (f : PixelFormat) : fromRepr f.code = some f := by
  cases f <;> rfl

@[simp] theorem VertexFormat.fromRepr_code (f : VertexFormat) : fromRepr f.code = some f := by
  cases f <;> rfl

@[simp] theorem VertexStepFunction.fromRepr_code (f : VertexStepFunction) : fromRepr f.code = some f := by
  cases f <;> rfl

theorem PixelFormat.code_lt (f : PixelFormat) : f.code < 65536 := by
  cases f <;> decide

theorem VertexFormat.code_lt (f : VertexFormat) : f.code < 256 := by
  cases f <;> decide

theorem VertexStepFunction.code_lt (f : VertexStepFunction) : f.code < 256 := by
  cases f <;> decide

def PipelineAttachFlags.bits (f : PipelineAttachFlags) : UInt8 :=
  (if f.hasDepth then 1 else 0) + (if f.hasStencil then 2 else 0) + (if f.hasColorOutput then 4 else 0) +
    (if f.colorHasAlpha then 8 else 0)

def PipelineAttachFlags.fromBits (b : UInt8) : Option PipelineAttachFlags :=
  if b.toNat < 16 then some ⟨b.toNat.testBit 0, b.toNat.testBit 1, b.toNat.testBit 2, b.toNat.testBit 3⟩
  else none

def PipelineRsFlags.bits (f : PipelineRsFlags) : UInt8 :=
  (if f.blendEnable then 1 else 0) + (if f.separateAlphaBlend then 2 else 0) +
    (if f.alphaToCoverage then 4 else 0)

def PipelineRsFlags.fromBits (b : UInt8) : Option PipelineRsFlags :=
  if b.toNat < 8 then some ⟨b.toNat.testBit 0, b.toNat.testBit 1, b.toNat.testBit 2⟩ else none

@[simp] theorem PipelineAttachFlags.fromBits_bits (f : PipelineAttachFlags) : fromBits f.bits = some f := by
  obtain ⟨depth, stencil, color, alpha⟩ := f
  cases depth <;> cases stencil <;> cases color <;> cases alpha <;> rfl

@[simp] theorem PipelineRsFlags.fromBits_bits (f : PipelineRsFlags) : fromBits f.bits = some f := by
  obtain ⟨blend, separate, coverage⟩ := f
  cases blend <;> cases separate <;> cases coverage <;> rfl

def vertexAttributeSlots : ℕ := 31

/-- Stable reference from a recipe to one shader record. -/
structure ShaderRecordRef where
  kind : CachedKind
  key : UInt64
  deriving DecidableEq, Repr

/-- Persistent description of one pipeline; the stored snapshot has null function handles. -/
structure PipelineRecipe where
  vs : ShaderRecordRef
  ps : ShaderRecordRef
  snapshot : PipelineSnapshot
  vertexAttrs : List VertexAttrDesc

def StreamLayout.unused : StreamLayout := ⟨0, .perVertex, 0⟩

def StreamLayout.encode (l : StreamLayout) : List UInt8 :=
  toLe 4 l.stride ++ toLe 1 l.step.code ++ toLe 4 l.stepRate

def StreamLayout.decode : Reader StreamLayout := do
  let stride ← word 4
  let stepByte ← word 1
  let step ← lift (VertexStepFunction.fromRepr stepByte)
  let stepRate ← word 4
  pure ⟨stride, step, stepRate⟩

def VertexAttrDesc.encode (a : VertexAttrDesc) : List UInt8 :=
  toLe 1 a.attrIndex ++ toLe 1 a.bufferIndex ++ toLe 2 a.offset ++ toLe 1 a.format.code

def VertexAttrDesc.decode : Reader VertexAttrDesc := do
  let attrIndex ← word 1
  let bufferIndex ← word 1
  let offset ← word 2
  let formatByte ← word 1
  let format ← lift (VertexFormat.fromRepr formatByte)
  pure ⟨attrIndex, bufferIndex, offset, format⟩

def decodeFormat : Reader PixelFormat := do
  let code ← word 2
  lift (PixelFormat.fromRepr code)

def arrayOf {α : Type} (n : ℕ) (blank : α) (items : List α) (i : Fin n) : α := (items[i.val]?).getD blank

def PipelineRsBits.encode (rs : PipelineRsBits) : List UInt8 :=
  toLe 1 rs.srcBlend ++ toLe 1 rs.dstBlend ++ toLe 1 rs.blendOp ++ toLe 1 rs.srcBlendAlpha ++
    toLe 1 rs.dstBlendAlpha ++ toLe 1 rs.blendOpAlpha ++ toLe 1 rs.colorWriteMask ++
    (ofFn rs.colorWriteMaskExt).flatMap (toLe 1)

def PipelineRsBits.decode (flags : PipelineRsFlags) : Reader PipelineRsBits := do
  let srcBlend ← word 1
  let dstBlend ← word 1
  let blendOp ← word 1
  let srcBlendAlpha ← word 1
  let dstBlendAlpha ← word 1
  let blendOpAlpha ← word 1
  let colorWriteMask ← word 1
  let masksExt ← (word 1).times 3
  pure { flags, srcBlend, dstBlend, blendOp, srcBlendAlpha, dstBlendAlpha, blendOpAlpha, colorWriteMask,
         colorWriteMaskExt := arrayOf 3 0 masksExt }

def decodeAttrs : Reader (List VertexAttrDesc) := do
  let attrCount ← word 1
  check (decide (attrCount ≤ vertexAttributeSlots))
  VertexAttrDesc.decode.times attrCount

namespace PipelineRecipe

def encodeHead (r : PipelineRecipe) : List UInt8 :=
  [r.vs.kind.toByte] ++ [r.ps.kind.toByte] ++ [r.snapshot.attach.bits] ++ [r.snapshot.rs.flags.bits] ++
    le64 r.vs.key ++ le64 r.ps.key ++ toLe 8 r.snapshot.vdeclHash

def encode (r : PipelineRecipe) : List UInt8 :=
  let s := r.snapshot
  r.encodeHead ++ toLe 2 s.colorFormat.code ++ toLe 1 s.sampleCount ++ toLe 1 s.psColorOutMask ++
    toLe 1 s.extra.presentMask ++ toLe 1 s.extra.hasAlphaMask ++ s.rs.encode ++
    (ofFn s.extra.formats).flatMap (fun f ↦ toLe 2 f.code) ++
    (ofFn s.streamLayouts).flatMap StreamLayout.encode ++ toLe 1 r.vertexAttrs.length ++
    r.vertexAttrs.flatMap VertexAttrDesc.encode

def isValid (r : PipelineRecipe) : Bool :=
  let s := r.snapshot
  r.vs.kind.isVertex && r.ps.kind.isPixel &&
    (s.attach.hasDepth || s.attach.hasColorOutput || s.extra.presentMask != 0) && s.sampleCount != 0 &&
    s.psColorOutMask &&& 0xF0 == 0 && s.rs.colorWriteMask &&& 0xF0 == 0 &&
    (ofFn s.rs.colorWriteMaskExt).all (fun mask ↦ mask &&& 0xF0 == 0) &&
    s.extra.presentMask &&& 0xF8 == 0 && s.extra.hasAlphaMask &&& (0xFF ^^^ s.extra.presentMask) == 0 &&
    (ofFn s.streamLayouts).all (fun l ↦ l.stride != 0 || l == StreamLayout.unused) &&
    r.vertexAttrs.all fun a ↦ decide (a.attrIndex < vertexAttributeSlots) && a.format != .invalid &&
      if h : a.bufferIndex < maxStreams then (s.streamLayouts ⟨a.bufferIndex, h⟩).isUsed else false

structure Head where
  vs : ShaderRecordRef
  ps : ShaderRecordRef
  attach : PipelineAttachFlags
  rsFlags : PipelineRsFlags
  vdeclHash : ℕ

def decodeHead : Reader Head := do
  let vsByte ← u8
  let vsKind ← lift (CachedKind.fromByte vsByte)
  let psByte ← u8
  let psKind ← lift (CachedKind.fromByte psByte)
  let attachByte ← u8
  let attach ← lift (PipelineAttachFlags.fromBits attachByte)
  let rsByte ← u8
  let rsFlags ← lift (PipelineRsFlags.fromBits rsByte)
  let vsKey ← u64
  let psKey ← u64
  let vdeclHash ← word 8
  pure { vs := ⟨vsKind, vsKey⟩, ps := ⟨psKind, psKey⟩, attach, rsFlags, vdeclHash }

def decodeBody : Reader PipelineRecipe := do
  let head ← decodeHead
  let colorFormat ← decodeFormat
  let sampleCount ← word 1
  let psColorOutMask ← word 1
  let presentMask ← word 1
  let hasAlphaMask ← word 1
  let rs ← PipelineRsBits.decode head.rsFlags
  let formats ← decodeFormat.times 3
  let layouts ← StreamLayout.decode.times maxStreams
  let vertexAttrs ← decodeAttrs
  eof
  let snapshot : PipelineSnapshot :=
    { vsFn := 0, psFn := 0, vdeclHash := head.vdeclHash, rs, psColorOutMask, sampleCount, colorFormat,
      streamLayouts := arrayOf maxStreams StreamLayout.unused layouts, attach := head.attach,
      extra := ⟨arrayOf 3 .bgra8Unorm formats, presentMask, hasAlphaMask⟩ }
  pure ⟨head.vs, head.ps, snapshot, vertexAttrs⟩

def decode (bytes : List UInt8) : Option PipelineRecipe := do
  let recipe ← decodeBody.value bytes
  if recipe.isValid then some recipe else none

end PipelineRecipe

structure PipelineSnapshot.Fits (s : PipelineSnapshot) : Prop where
  vdeclHash : s.vdeclHash < 18446744073709551616
  sampleCount : s.sampleCount < 256
  psColorOutMask : s.psColorOutMask < 256
  presentMask : s.extra.presentMask < 256
  hasAlphaMask : s.extra.hasAlphaMask < 256
  srcBlend : s.rs.srcBlend < 256
  dstBlend : s.rs.dstBlend < 256
  blendOp : s.rs.blendOp < 256
  srcBlendAlpha : s.rs.srcBlendAlpha < 256
  dstBlendAlpha : s.rs.dstBlendAlpha < 256
  blendOpAlpha : s.rs.blendOpAlpha < 256
  colorWriteMask : s.rs.colorWriteMask < 256
  colorWriteMaskExt : ∀ i, s.rs.colorWriteMaskExt i < 256
  layouts : ∀ i, (s.streamLayouts i).stride < 4294967296 ∧ (s.streamLayouts i).stepRate < 4294967296

/-- A recipe as captured from a live pipeline, in the ranges the writer encodes and the reader accepts. -/
structure PipelineRecipe.Valid (r : PipelineRecipe) : Prop where
  vsFn : r.snapshot.vsFn = 0
  psFn : r.snapshot.psFn = 0
  fits : r.snapshot.Fits
  count : r.vertexAttrs.length ≤ vertexAttributeSlots
  offsets : ∀ a ∈ r.vertexAttrs, a.offset < 65536
  accepted : r.isValid = true

theorem arrayOf_ofFn {α : Type} {n : ℕ} (blank : α) (f : Fin n → α) : arrayOf n blank (ofFn f) = f := by
  funext i
  simp [arrayOf]

theorem PipelineSnapshot.null_handles {s : PipelineSnapshot} (hvs : s.vsFn = 0) (hps : s.psFn = 0) :
    { s with vsFn := 0, psFn := 0 } = s := by
  cases s
  cases hvs
  cases hps
  rfl

theorem StreamLayout.reads_decode {l : StreamLayout} (hstride : l.stride < 4294967296)
    (hrate : l.stepRate < 4294967296) (rest : List UInt8) : Reads StreamLayout.decode l.encode l rest := by
  have hstep : l.step.code < 256 ^ 1 := l.step.code_lt
  simp only [StreamLayout.encode, append_assoc]
  refine (word (w := 4) hstride).bind ((word hstep).bind ?_)
  refine lift_bind (VertexStepFunction.fromRepr_code _) ?_
  rw [← append_nil (toLe 4 l.stepRate)]
  exact (word (w := 4) hrate).bind pure

theorem VertexAttrDesc.reads_decode {a : VertexAttrDesc} (hattr : a.attrIndex < 256)
    (hbuffer : a.bufferIndex < 256) (hoffset : a.offset < 65536) (rest : List UInt8) :
    Reads VertexAttrDesc.decode a.encode a rest := by
  have hformat : a.format.code < 256 ^ 1 := a.format.code_lt
  simp only [VertexAttrDesc.encode, append_assoc]
  refine (word (w := 1) hattr).bind ((word (w := 1) hbuffer).bind ?_)
  refine (word (w := 2) hoffset).bind ?_
  rw [← append_nil (toLe 1 a.format.code)]
  exact (word hformat).bind (lift_bind (VertexFormat.fromRepr_code _) pure)

theorem reads_decodeFormat (f : PixelFormat) (rest : List UInt8) :
    Reads decodeFormat (toLe 2 f.code) f rest := by
  have hcode : f.code < 256 ^ 2 := f.code_lt
  have hread : Reads (lift (PixelFormat.fromRepr f.code)) [] f rest := by
    rw [PixelFormat.fromRepr_code]
    rfl
  rw [← append_nil (toLe 2 f.code)]
  exact (word hcode).bind hread

namespace PipelineRecipe

variable {r : PipelineRecipe}

theorem isValid_attr (h : r.isValid = true) {a : VertexAttrDesc} (ha : a ∈ r.vertexAttrs) :
    a.attrIndex < 256 ∧ a.bufferIndex < 256 := by
  simp only [isValid, Bool.and_eq_true, all_eq_true] at h
  obtain ⟨⟨hattr, -⟩, hbuffer⟩ := h.2 a ha
  have hattr : a.attrIndex < 31 := of_decide_eq_true hattr
  have hbuffer : a.bufferIndex < maxStreams := by
    by_contra hnot
    rw [dif_neg hnot] at hbuffer
    exact Bool.false_ne_true hbuffer
  have hstreams : maxStreams = 16 := rfl
  omega

theorem reads_times_ofFn {α : Type} {reader : Reader α} {encode : α → List UInt8} {n : ℕ} (f : Fin n → α)
    (h : ∀ i rest, Reads reader (encode (f i)) (f i) rest) (rest : List UInt8) :
    Reads (reader.times n) ((ofFn f).flatMap encode) (ofFn f) rest := by
  have hread : Reads (reader.times (ofFn f).length) ((ofFn f).flatMap encode) (ofFn f) rest := by
    refine times fun a ha rest ↦ ?_
    obtain ⟨i, rfl⟩ := mem_ofFn.mp ha
    exact h i rest
  rwa [length_ofFn] at hread

theorem reads_decodeRs {rs : PipelineRsBits} {s : PipelineSnapshot} (hf : s.Fits) (hrs : s.rs = rs)
    (rest : List UInt8) : Reads (PipelineRsBits.decode rs.flags) rs.encode rs rest := by
  subst hrs
  simp only [PipelineRsBits.encode, append_assoc]
  refine (word (w := 1) hf.srcBlend).bind ((word (w := 1) hf.dstBlend).bind ?_)
  refine (word (w := 1) hf.blendOp).bind ((word (w := 1) hf.srcBlendAlpha).bind ?_)
  refine (word (w := 1) hf.dstBlendAlpha).bind ((word (w := 1) hf.blendOpAlpha).bind ?_)
  refine (word (w := 1) hf.colorWriteMask).bind ?_
  rw [← append_nil ((ofFn s.rs.colorWriteMaskExt).flatMap _)]
  refine (reads_times_ofFn _ (fun i rest ↦ word (w := 1) (hf.colorWriteMaskExt i)) _).bind ?_
  rw [arrayOf_ofFn]
  exact pure

theorem reads_decodeAttrs (h : r.Valid) (rest : List UInt8) :
    Reads decodeAttrs (toLe 1 r.vertexAttrs.length ++ r.vertexAttrs.flatMap VertexAttrDesc.encode)
      r.vertexAttrs rest := by
  have hslots : r.vertexAttrs.length ≤ 31 := h.count
  have hcount : r.vertexAttrs.length < 256 ^ 1 := by omega
  refine (word hcount).bind (check_bind (decide_eq_true h.count) ?_)
  refine times fun a ha rest ↦ ?_
  obtain ⟨hattr, hbuffer⟩ := isValid_attr h.accepted ha
  exact VertexAttrDesc.reads_decode hattr hbuffer (h.offsets a ha) rest

def head (r : PipelineRecipe) : Head :=
  ⟨r.vs, r.ps, r.snapshot.attach, r.snapshot.rs.flags, r.snapshot.vdeclHash⟩

theorem reads_decodeHead (h : r.Valid) (rest : List UInt8) : Reads decodeHead r.encodeHead r.head rest := by
  simp only [encodeHead, append_assoc]
  refine (Reads.u8 _).bind (Reads.lift_bind (CachedKind.fromByte_toByte _) ?_)
  refine (Reads.u8 _).bind (Reads.lift_bind (CachedKind.fromByte_toByte _) ?_)
  refine (Reads.u8 _).bind (Reads.lift_bind (PipelineAttachFlags.fromBits_bits _) ?_)
  refine (Reads.u8 _).bind (Reads.lift_bind (PipelineRsFlags.fromBits_bits _) ?_)
  refine (Reads.u64 _).bind ((Reads.u64 _).bind ?_)
  rw [← append_nil (toLe 8 _)]
  exact (word (w := 8) h.fits.vdeclHash).bind pure

theorem reads_decodeBody (h : r.Valid) : Reads decodeBody r.encode r [] := by
  have hf := h.fits
  simp only [encode, append_assoc]
  refine (reads_decodeHead h _).bind ((reads_decodeFormat _ _).bind ?_)
  refine (word (w := 1) hf.sampleCount).bind ((word (w := 1) hf.psColorOutMask).bind ?_)
  refine (word (w := 1) hf.presentMask).bind ((word (w := 1) hf.hasAlphaMask).bind ?_)
  refine (reads_decodeRs hf rfl _).bind ?_
  refine (reads_times_ofFn _ (fun i rest ↦ reads_decodeFormat _ rest) _).bind ?_
  refine (reads_times_ofFn _
    (fun i rest ↦ StreamLayout.reads_decode (hf.layouts i).1 (hf.layouts i).2 rest) _).bind ?_
  rw [← append_nil (toLe 1 _ ++ _)]
  refine (reads_decodeAttrs h _).bind (eof_bind ?_)
  simp only [arrayOf_ofFn]
  change Reads (Pure.pure ⟨r.vs, r.ps, { r.snapshot with vsFn := 0, psFn := 0 }, r.vertexAttrs⟩) [] r []
  rw [PipelineSnapshot.null_handles h.vsFn h.psFn]
  exact pure

theorem decode_encode (h : r.Valid) : decode r.encode = some r := by
  have hbody : decodeBody.value r.encode = some r := (reads_decodeBody h).value
  simp [decode, hbody, h.accepted]

end PipelineRecipe

end Mtld3d
