import Mtld3d.Lib.Reader

namespace Mtld3d

open Lib Reads

inductive CachedKind
  | ffVs | ffPs | sm1Vs | sm1Ps | sm2Vs | sm2Ps | sm3Vs | sm3Ps
  deriving DecidableEq, Repr

namespace CachedKind

def toByte : CachedKind → UInt8
  | ffVs => 0
  | ffPs => 1
  | sm1Vs => 2
  | sm1Ps => 3
  | sm2Vs => 4
  | sm2Ps => 5
  | sm3Vs => 6
  | sm3Ps => 7

def fromByte (b : UInt8) : Option CachedKind :=
  match b.toNat with
  | 0 => some ffVs
  | 1 => some ffPs
  | 2 => some sm1Vs
  | 3 => some sm1Ps
  | 4 => some sm2Vs
  | 5 => some sm2Ps
  | 6 => some sm3Vs
  | 7 => some sm3Ps
  | _ => none

def isVertex : CachedKind → Bool
  | ffVs | sm1Vs | sm2Vs | sm3Vs => true
  | _ => false

def isPixel : CachedKind → Bool
  | ffPs | sm1Ps | sm2Ps | sm3Ps => true
  | _ => false

def isProgrammable : CachedKind → Bool
  | ffVs | ffPs => false
  | _ => true

def fromProgrammable (smMajor : ℕ) (pixel : Bool) : Option CachedKind :=
  match smMajor, pixel with
  | 1, false => some sm1Vs
  | 1, true => some sm1Ps
  | 2, false => some sm2Vs
  | 2, true => some sm2Ps
  | 3, false => some sm3Vs
  | 3, true => some sm3Ps
  | _, _ => none

@[simp] theorem fromByte_toByte (kind : CachedKind) : fromByte kind.toByte = some kind := by
  cases kind <;> rfl

end CachedKind

structure VsSamplerKinds where
  volumeMask : UInt8
  cubeMask : UInt8
  lodTable : Bool
  deriving DecidableEq, Repr

/-- The specialization inputs of a pixel shader; all eight flag bits are assigned. -/
structure VariantKey where
  alphaFunc : UInt8
  fogMode : UInt8
  fogTableMode : UInt8
  linkedInputMask : UInt8
  depthSamplerMask : UInt16
  depthFetchMask : UInt16
  fetch4Mask : UInt16
  fetch4AlphaMask : UInt16
  rawDepthRedMask : UInt16
  volumeSamplerMask : UInt16
  cubeSamplerMask : UInt16
  ttProjectedMask : UInt8
  colorOutMask : UInt8
  sampleMask : UInt8
  flags : UInt8
  deriving DecidableEq, Repr

inductive Specialization
  | vertex (providedInputMask : UInt16) (clipPlaneCount : UInt8) (samplerKinds : VsSamplerKinds)
  | pixel (variant : VariantKey)
  deriving DecidableEq, Repr

/-- Retained program tokens with every input of the emission. -/
structure ShaderSource where
  tokens : List UInt32
  specialization : Specialization
  deriving DecidableEq, Repr

def maxClipPlanes : ℕ := 6

def VsSamplerKinds.admits (kinds : VsSamplerKinds) (clipPlaneCount : UInt8) : Bool :=
  decide (clipPlaneCount.toNat ≤ maxClipPlanes) &&
    (kinds.volumeMask ||| kinds.cubeMask) &&& 0xF0 == 0 && kinds.volumeMask &&& kinds.cubeMask == 0

def byteOfBool (b : Bool) : UInt8 := if b then 1 else 0

def boolOfByte (b : UInt8) : Option Bool :=
  match b.toNat with
  | 0 => some false
  | 1 => some true
  | _ => none

@[simp] theorem boolOfByte_byteOfBool (b : Bool) : boolOfByte (byteOfBool b) = some b := by
  cases b <;> rfl

def encodeVariant (v : VariantKey) : List UInt8 :=
  [v.alphaFunc] ++ [v.fogMode] ++ [v.fogTableMode] ++ le16 v.depthSamplerMask ++ le16 v.depthFetchMask ++
    le16 v.fetch4Mask ++ le16 v.fetch4AlphaMask ++ le16 v.rawDepthRedMask ++ le16 v.volumeSamplerMask ++
    le16 v.cubeSamplerMask ++ [v.ttProjectedMask] ++ [v.colorOutMask] ++ [v.sampleMask] ++ [v.flags] ++
    [v.linkedInputMask]

def decodeVariant : Reader VariantKey := do
  let alphaFunc ← Reader.u8
  let fogMode ← Reader.u8
  let fogTableMode ← Reader.u8
  let depthSamplerMask ← Reader.u16
  let depthFetchMask ← Reader.u16
  let fetch4Mask ← Reader.u16
  let fetch4AlphaMask ← Reader.u16
  let rawDepthRedMask ← Reader.u16
  let volumeSamplerMask ← Reader.u16
  let cubeSamplerMask ← Reader.u16
  let ttProjectedMask ← Reader.u8
  let colorOutMask ← Reader.u8
  let sampleMask ← Reader.u8
  let flags ← Reader.u8
  let linkedInputMask ← Reader.u8
  pure { alphaFunc, fogMode, fogTableMode, linkedInputMask, depthSamplerMask, depthFetchMask, fetch4Mask,
         fetch4AlphaMask, rawDepthRedMask, volumeSamplerMask, cubeSamplerMask, ttProjectedMask,
         colorOutMask, sampleMask, flags }

namespace Specialization

def encode : Specialization → List UInt8
  | vertex providedInputMask clipPlaneCount kinds =>
    le16 providedInputMask ++ [clipPlaneCount] ++ [kinds.volumeMask] ++ [kinds.cubeMask] ++
      [byteOfBool kinds.lodTable]
  | pixel variant => encodeVariant variant

def decodeVertex : Reader Specialization := do
  let providedInputMask ← Reader.u16
  let clipPlaneCount ← Reader.u8
  let volumeMask ← Reader.u8
  let cubeMask ← Reader.u8
  let lodByte ← Reader.u8
  let lodTable ← Reader.lift (boolOfByte lodByte)
  let samplerKinds : VsSamplerKinds := ⟨volumeMask, cubeMask, lodTable⟩
  Reader.check (samplerKinds.admits clipPlaneCount)
  pure (vertex providedInputMask clipPlaneCount samplerKinds)

def decode (kind : CachedKind) : Reader Specialization :=
  if kind.isVertex then decodeVertex else pixel <$> decodeVariant

/-- The inputs belong to the stage of `kind` and lie in the ranges the decoder accepts. -/
def admits (kind : CachedKind) : Specialization → Bool
  | vertex _ clipPlaneCount kinds => kind.isVertex && kinds.admits clipPlaneCount
  | pixel _ => !kind.isVertex

end Specialization

def pixelStage (version : UInt32) : Option Bool :=
  match version.toNat with
  | 0xFFFE => some false
  | 0xFFFF => some true
  | _ => none

def programKind (tokens : List UInt32) : Option CachedKind := do
  let header ← tokens.head?
  let pixel ← pixelStage (header >>> 16)
  CachedKind.fromProgrammable ((header >>> 8) &&& 0xFF).toNat pixel

def endsProgram (tokens : List UInt32) : Bool :=
  match tokens.getLast? with
  | some last => last &&& 0xFFFF == 0xFFFF
  | none => false

namespace ShaderSource

def encode (source : ShaderSource) : List UInt8 :=
  source.specialization.encode ++ toLe 4 source.tokens.length ++ source.tokens.flatMap le32

def decode (kind : CachedKind) : Reader ShaderSource := do
  let specialization ← Specialization.decode kind
  let count ← Reader.word 4
  let tokens ← Reader.u32.times count
  Reader.check (programKind tokens == some kind && endsProgram tokens)
  pure ⟨tokens, specialization⟩

/-- What the decoder accepts under `kind`; the count is one the writer can encode. -/
structure WellFormed (kind : CachedKind) (source : ShaderSource) : Prop where
  specialization : source.specialization.admits kind = true
  program : programKind source.tokens = some kind
  ended : endsProgram source.tokens = true
  count : source.tokens.length < 4294967296

end ShaderSource

theorem reads_decodeVariant (v : VariantKey) (rest : List UInt8) :
    Reads decodeVariant (encodeVariant v) v rest := by
  simp only [encodeVariant, List.append_assoc]
  refine (u8 _).bind ((u8 _).bind ((u8 _).bind ?_))
  refine (u16 _).bind ((u16 _).bind ((u16 _).bind ?_))
  refine (u16 _).bind ((u16 _).bind ((u16 _).bind ((u16 _).bind ?_)))
  refine (u8 _).bind ((u8 _).bind ((u8 _).bind ((u8 _).bind ?_)))
  rw [← List.append_nil [v.linkedInputMask]]
  exact (u8 _).bind pure

namespace Specialization

theorem reads_decodeVertex {providedInputMask : UInt16} {clipPlaneCount : UInt8} {kinds : VsSamplerKinds}
    (h : kinds.admits clipPlaneCount = true) (rest : List UInt8) :
    Reads decodeVertex (encode (vertex providedInputMask clipPlaneCount kinds))
      (vertex providedInputMask clipPlaneCount kinds) rest := by
  simp only [encode, List.append_assoc]
  refine (u16 _).bind ((u8 _).bind ((u8 _).bind ((u8 _).bind ?_)))
  rw [← List.append_nil [byteOfBool kinds.lodTable]]
  refine (u8 _).bind (lift_bind (boolOfByte_byteOfBool _) ?_)
  exact check_bind h pure

theorem reads_decode {kind : CachedKind} {s : Specialization} (h : s.admits kind = true)
    (rest : List UInt8) : Reads (decode kind) s.encode s rest := by
  unfold decode
  cases s with
  | vertex providedInputMask clipPlaneCount kinds =>
    simp only [admits, Bool.and_eq_true] at h
    rw [if_pos h.1]
    exact reads_decodeVertex h.2 rest
  | pixel variant =>
    have hstage : kind.isVertex = false := by simpa [admits] using h
    rw [hstage, if_neg Bool.false_ne_true]
    exact (reads_decodeVariant variant rest).map

end Specialization

theorem ShaderSource.reads_decode {kind : CachedKind} {source : ShaderSource} (h : source.WellFormed kind)
    (rest : List UInt8) : Reads (ShaderSource.decode kind) source.encode source rest := by
  have hcount : source.tokens.length < 256 ^ 4 := h.count
  have hchecks : (programKind source.tokens == some kind && endsProgram source.tokens) = true := by
    simp [h.program, h.ended]
  simp only [ShaderSource.encode, List.append_assoc]
  refine (Specialization.reads_decode h.specialization _).bind ((word hcount).bind ?_)
  rw [← List.append_nil (source.tokens.flatMap le32)]
  refine (times fun token _ rest ↦ u32 token).bind ?_
  exact check_bind hchecks pure

end Mtld3d
