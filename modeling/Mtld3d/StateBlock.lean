import Mathlib.Tactic.Common

namespace Mtld3d

abbrev Words := List UInt32

abbrev ComPtr := Option ℕ

inductive ConstantFile
  | vsFloat | vsInt | vsBool | psFloat | psInt | psBool
  deriving DecidableEq

def ConstantFile.rows : ConstantFile → ℕ
  | vsFloat | psFloat => 256
  | vsInt | vsBool | psInt | psBool => 16

inductive BlockKey
  | renderState (state : ℕ)
  | sampler (stage type : ℕ)
  | vertexSampler (slot type : ℕ)
  | textureStage (stage type : ℕ)
  | transform (state : ℕ)
  | material
  | light (index : ℕ)
  | lightEnable (index : ℕ)
  | viewport
  | scissorRect
  | clipPlane (slot : ℕ)
  | texture (stage : ℕ)
  | vertexTexture (slot : ℕ)
  | vertexDeclaration
  | vertexShader
  | pixelShader
  | constant (file : ConstantFile) (row : ℕ)
  | streamBuffer (stream : ℕ)
  | streamOffset (stream : ℕ)
  | streamStride (stream : ℕ)
  | streamFreq (stream : ℕ)
  | indices
  | pointSize
  | a2mEnabled
  | fetch4 (stage : ℕ)
  deriving DecidableEq

abbrev BlockKey.Value : BlockKey → Type
  | renderState _ | sampler .. | vertexSampler .. | textureStage .. => UInt32
  | streamOffset _ | streamStride _ | streamFreq _ | pointSize => UInt32
  | lightEnable _ | a2mEnabled | fetch4 _ => Bool
  | light _ => Option Words
  | texture _ | vertexTexture _ | vertexDeclaration | vertexShader | pixelShader => ComPtr
  | streamBuffer _ | indices => ComPtr
  | transform _ | material | viewport | scissorRect | clipPlane _ | constant .. => Words

/-- The device's states, with the latches that commands hidden in two of them set. -/
abbrev DeviceState := (k : BlockKey) → k.Value

def pointSizeState : ℕ := 154

def mipMapLodBias : ℕ := 8

def a2mControl (value : UInt32) : Option Bool :=
  if value = 0x314D3241 then some true else if value = 0x304D3241 then some false else none

def numericPointSize (value : UInt32) : Option UInt32 :=
  if value = 0x314D3241 ∨ value = 0x304D3241 ∨ value = 0x7fa05000 then none else some value

def fetch4Command (value : UInt32) : Option Bool :=
  if value = 0x34544547 then some true else if value = 0x31544547 then some false else none

def vertexSamplerSlot (stage : ℕ) : Option ℕ := if 257 ≤ stage ∧ stage ≤ 260 then some (stage - 257) else none

/-- Whether `SetTransform` honours the state: view, projection, texture and world matrices. -/
def isTransform (state : ℕ) : Bool :=
  state == 2 || state == 3 || (16 ≤ state && state ≤ 23) || (256 ≤ state && state ≤ 511)

/-- A directional light with white diffuse over the defaults, as `enable_default_light` makes it; its words
stand for the structure's fields in order. -/
def enableDefaultLight : Words :=
  [3, 0x3f800000, 0x3f800000, 0x3f800000, 0, 0, 0, 0, 0, 0, 0, 0, 0, 0, 0, 0, 0, 0, 0x3f800000, 0, 0, 0, 0, 0, 0, 0]

namespace DeviceState

variable (d : DeviceState)

def set (k : BlockKey) (v : k.Value) : DeviceState := Function.update d k v

def setIf (k : BlockKey) : Option k.Value → DeviceState
  | some v => d.set k v
  | none => d

def setPointSizeState (raw : UInt32) (numeric : Option UInt32) (coverage : Option Bool) : DeviceState :=
  ((d.set (.renderState pointSizeState) raw).setIf .pointSize numeric).setIf .a2mEnabled coverage

def setRenderState (index : ℕ) (value : UInt32) : DeviceState :=
  if index = pointSizeState then d.setPointSizeState value (numericPointSize value) (a2mControl value)
  else d.set (.renderState index) value

def setSamplerState (sampler type : ℕ) (value : UInt32) : DeviceState :=
  if d (.sampler sampler type) = value then d
  else
    (d.set (.sampler sampler type) value).setIf (.fetch4 sampler)
      (if type = mipMapLodBias then fetch4Command value else none)

def setTransform (state : ℕ) (matrix : Words) : DeviceState :=
  if isTransform state then d.set (.transform state) matrix else d

def setLightEnabledAt (index : ℕ) (enabled : Bool) : DeviceState :=
  (match d (.light index) with
    | none => d.set (.light index) (some enableDefaultLight)
    | some _ => d).set (.lightEnable index) enabled

def setClipPlane (index : ℕ) (plane : Words) : DeviceState := d.set (.clipPlane (min index 5)) plane

/-- `BoundBuffers::set_stream`: a NULL buffer leaves the offset and the stride as they are. -/
def setStream (stream : ℕ) (vb : ComPtr) (offset stride : UInt32) : DeviceState :=
  match vb with
  | none => d.set (.streamBuffer stream) none
  | some vb =>
    ((d.set (.streamBuffer stream) (some vb)).set (.streamOffset stream) offset).set (.streamStride stream) stride

def writeConstants (file : ConstantFile) (start : ℕ) (values : List Words) : DeviceState :=
  (values.zipIdx start).foldl (fun d row ↦ if row.2 < file.rows then d.set (.constant file row.2) row.1 else d) d

end DeviceState

inductive StateOp
  | pointSize (raw : UInt32) (numeric : Option UInt32) (coverage : Option Bool)
  | renderState (state : ℕ) (value : UInt32)
  | samplerState (sampler type : ℕ) (value : UInt32) (fetch4 : Option Bool)
  | textureStageState (stage type : ℕ) (value : UInt32)
  | transform (state : ℕ) (matrix : Words)
  | material (m : Words)
  | light (index : ℕ) (recorded : Words)
  | lightEnable (index : ℕ) (enable : Bool)
  | viewport (v : Words)
  | scissorRect (r : Words)
  | clipPlane (index : ℕ) (plane : Words)
  | texture (stage : ℕ) (tex : ComPtr)
  | vertexDeclaration (decl : ComPtr)
  | vertexShader (vs : ComPtr)
  | pixelShader (ps : ComPtr)
  | shaderConstants (file : ConstantFile) (start : ℕ) (values : List Words)
  | streamSource (stream : ℕ) (vb : ComPtr) (offset stride : UInt32)
  | streamSourceFreq (stream : ℕ) (setting : UInt32)
  | indices (ib : ComPtr)

namespace StateOp

/-- `capture_from` on one operation: its value is taken from the device, and what it names stays. -/
def capture (dev : DeviceState) : StateOp → StateOp
  | pointSize _ numeric coverage =>
    .pointSize (dev (.renderState pointSizeState)) (numeric.map fun _ ↦ dev .pointSize)
      (coverage.map fun _ ↦ dev .a2mEnabled)
  | renderState state _ => .renderState state (dev (.renderState state))
  | samplerState sampler type _ fetch4 =>
    .samplerState sampler type
      (match vertexSamplerSlot sampler with
        | some slot => dev (.vertexSampler slot type)
        | none => dev (.sampler sampler type))
      (fetch4.map fun latch ↦ if sampler < 16 then dev (.fetch4 sampler) else latch)
  | textureStageState stage type _ => .textureStageState stage type (dev (.textureStage stage type))
  | transform state matrix => .transform state (if isTransform state then dev (.transform state) else matrix)
  | material _ => .material (dev .material)
  | light index recorded => .light index ((dev (.light index)).getD recorded)
  | lightEnable index _ => .lightEnable index (dev (.lightEnable index))
  | viewport _ => .viewport (dev .viewport)
  | scissorRect _ => .scissorRect (dev .scissorRect)
  | clipPlane index _ => .clipPlane index (dev (.clipPlane (min index 5)))
  | texture stage _ =>
    .texture stage (match vertexSamplerSlot stage with
      | some slot => dev (.vertexTexture slot)
      | none => dev (.texture stage))
  | vertexDeclaration _ => .vertexDeclaration (dev .vertexDeclaration)
  | vertexShader _ => .vertexShader (dev .vertexShader)
  | pixelShader _ => .pixelShader (dev .pixelShader)
  | shaderConstants file start values =>
    .shaderConstants file start
      ((values.zipIdx start).map fun row ↦ if row.2 < file.rows then dev (.constant file row.2) else row.1)
  | streamSource stream _ _ _ =>
    .streamSource stream (dev (.streamBuffer stream)) (dev (.streamOffset stream))
      (dev (.streamStride stream))
  | streamSourceFreq stream _ => .streamSourceFreq stream (dev (.streamFreq stream))
  | indices _ => .indices (dev .indices)

def apply (d : DeviceState) : StateOp → DeviceState
  | pointSize raw numeric coverage => d.setPointSizeState raw numeric coverage
  | renderState state value => d.setRenderState state value
  | samplerState sampler type value fetch4 =>
    match vertexSamplerSlot sampler with
    | some slot => d.set (.vertexSampler slot type) value
    | none => (d.setSamplerState sampler type value).setIf (.fetch4 sampler) fetch4
  | textureStageState stage type value => d.set (.textureStage stage type) value
  | transform state matrix => d.setTransform state matrix
  | material m => d.set .material m
  | light index recorded => d.set (.light index) (some recorded)
  | lightEnable index enable => d.setLightEnabledAt index enable
  | viewport v => d.set .viewport v
  | scissorRect r => d.set .scissorRect r
  | clipPlane index plane => d.setClipPlane index plane
  | texture stage tex =>
    match vertexSamplerSlot stage with
    | some slot => d.set (.vertexTexture slot) tex
    | none => d.set (.texture stage) tex
  -- A NULL declaration leaves the device's own in place.
  | vertexDeclaration decl => d.setIf .vertexDeclaration (decl.map some)
  | vertexShader vs => d.set .vertexShader vs
  | pixelShader ps => d.set .pixelShader ps
  | shaderConstants file start values => d.writeConstants file start values
  | streamSource stream vb offset stride => d.setStream stream vb offset stride
  | streamSourceFreq stream setting => d.set (.streamFreq stream) setting
  | indices ib => d.set .indices ib

/-- What the device's setters record: `POINTSIZE` has an operation of its own, and only a command written to
`MIPMAPLODBIAS` carries the Fetch4 latch. -/
def recorded : StateOp → Bool
  | renderState state _ => state != pointSizeState
  | samplerState sampler type _ fetch4 =>
    (vertexSamplerSlot sampler).isSome || sampler < 16 && (fetch4.isNone || type == mipMapLodBias)
  | _ => true

end StateOp

abbrev RecordingStateBlock := List StateOp

namespace RecordingStateBlock

def recordLightEnable (ops : RecordingStateBlock) (index : ℕ) (enable : Bool) : RecordingStateBlock :=
  let hasLight := ops.any fun op ↦ match op with
    | .light set _ => set == index
    | _ => false
  (if enable && !hasLight then ops ++ [.light index enableDefaultLight] else ops) ++ [.lightEnable index enable]

def captureFrom (ops : RecordingStateBlock) (dev : DeviceState) : RecordingStateBlock := ops.map (·.capture dev)

def applyTo (ops : RecordingStateBlock) (dev : DeviceState) : DeviceState := ops.foldl StateOp.apply dev

end RecordingStateBlock

end Mtld3d
