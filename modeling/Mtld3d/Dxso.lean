import Mtld3d.Lib.Ordered
import Mtld3d.ShaderLink

namespace Mtld3d.Dxso

open Lib

inductive Opcode
  | nop | mov | add | sub | mad | mul | rcp | rsq | dp3 | dp4 | min | max | slt | sge | exp | log | lit
  | dst | lrp | frc | m4x4 | m4x3 | m3x4 | m3x3 | m3x2 | call | callNz | loop | ret | endLoop | label | dcl
  | pow | crs | sgn | abs | nrm | sinCos | rep | endRep | if_ | ifc | else_ | endIf | break_ | breakC
  | movA | defB | defI | texCoord | texKill | texLd | texBem | texBemL | texReg2Ar | texReg2Gb | texM3x2Pad
  | texM3x2Tex | texM3x3Pad | texM3x3Tex | texM3x3Spec | texM3x3VSpec | expP | logP | cnd | def_
  | texReg2Rgb | texDp3Tex | texM3x2Depth | texDp3 | texM3x3 | texDepth | cmp | bem | dp2Add | dsx | dsy
  | texLdD | setP | texLdL | breakP | phase | comment | end_
  deriving DecidableEq, Repr

namespace Opcode

def ofCode : ℕ → Option Opcode
  | 0 => some nop
  | 1 => some mov
  | 2 => some add
  | 3 => some sub
  | 4 => some mad
  | 5 => some mul
  | 6 => some rcp
  | 7 => some rsq
  | 8 => some dp3
  | 9 => some dp4
  | 10 => some min
  | 11 => some max
  | 12 => some slt
  | 13 => some sge
  | 14 => some exp
  | 15 => some log
  | 16 => some lit
  | 17 => some dst
  | 18 => some lrp
  | 19 => some frc
  | 20 => some m4x4
  | 21 => some m4x3
  | 22 => some m3x4
  | 23 => some m3x3
  | 24 => some m3x2
  | 25 => some call
  | 26 => some callNz
  | 27 => some loop
  | 28 => some ret
  | 29 => some endLoop
  | 30 => some label
  | 31 => some dcl
  | 32 => some pow
  | 33 => some crs
  | 34 => some sgn
  | 35 => some abs
  | 36 => some nrm
  | 37 => some sinCos
  | 38 => some rep
  | 39 => some endRep
  | 40 => some if_
  | 41 => some ifc
  | 42 => some else_
  | 43 => some endIf
  | 44 => some break_
  | 45 => some breakC
  | 46 => some movA
  | 47 => some defB
  | 48 => some defI
  | 64 => some texCoord
  | 65 => some texKill
  | 66 => some texLd
  | 67 => some texBem
  | 68 => some texBemL
  | 69 => some texReg2Ar
  | 70 => some texReg2Gb
  | 71 => some texM3x2Pad
  | 72 => some texM3x2Tex
  | 73 => some texM3x3Pad
  | 74 => some texM3x3Tex
  | 76 => some texM3x3Spec
  | 77 => some texM3x3VSpec
  | 78 => some expP
  | 79 => some logP
  | 80 => some cnd
  | 81 => some def_
  | 82 => some texReg2Rgb
  | 83 => some texDp3Tex
  | 84 => some texM3x2Depth
  | 85 => some texDp3
  | 86 => some texM3x3
  | 87 => some texDepth
  | 88 => some cmp
  | 89 => some bem
  | 90 => some dp2Add
  | 91 => some dsx
  | 92 => some dsy
  | 93 => some texLdD
  | 94 => some setP
  | 95 => some texLdL
  | 96 => some breakP
  | 0xFFFD => some phase
  | 0xFFFE => some comment
  | 0xFFFF => some end_
  | _ => none

def hasDestination : Opcode → Bool
  | mov | movA | add | sub | mad | mul | rcp | rsq | dp3 | dp4 | min | max | slt | sge | exp | log
  | lit | dst | lrp | frc | m4x4 | m4x3 | m3x4 | m3x3 | m3x2 | pow | crs | sgn | abs | nrm | sinCos
  | cnd | cmp | dp2Add | dsx | dsy | texLd | texLdL | texLdD | texKill | texCoord | texBem
  | texBemL | texReg2Ar | texReg2Gb | texReg2Rgb | texM3x2Pad | texM3x2Tex | texM3x2Depth
  | texM3x3Pad | texM3x3Tex | texM3x3 | texM3x3Spec | texM3x3VSpec | texDp3 | texDp3Tex | texDepth
  | bem | expP | logP | setP => true
  | _ => false

end Opcode

structure Swizzle where
  x : ℕ
  y : ℕ
  z : ℕ
  w : ℕ
  deriving DecidableEq, Repr

inductive TextureType
  | unknown | texture2D | textureCube | texture3D
  deriving DecidableEq, Repr

inductive Declaration
  | semantic (usage : DeclUsage) (usageIndex : ℕ) (reg : Register) (mask : WriteMask)
  | sampler (textureType : TextureType) (reg : Register)
  deriving DecidableEq, Repr

/-- A `def` with the bit patterns of its four lanes. -/
structure DefConstant where
  reg : Register
  value : List ℕ
  deriving DecidableEq, Repr

structure DefIntConstant where
  reg : Register
  value : List ℤ
  deriving DecidableEq, Repr

structure DefBoolConstant where
  reg : Register
  value : Bool
  deriving DecidableEq, Repr

inductive SrcModifier
  | none | neg | bias | biasNeg | sign | signNeg | comp | x2 | x2Neg | dz | dw | abs | absNeg | not
  deriving DecidableEq, Repr

structure RelativeAddr where
  reg : Register
  swizzle : Swizzle
  deriving DecidableEq, Repr

structure DstMods where
  saturate : Bool
  partialPrecision : Bool
  centroid : Bool
  deriving DecidableEq, Repr

structure DstOperand where
  reg : Register
  writeMask : WriteMask
  mods : DstMods
  shiftScale : ℤ
  deriving DecidableEq, Repr

structure SrcOperand where
  reg : Register
  swizzle : Swizzle
  modifier : SrcModifier
  relAddr : Option RelativeAddr
  deriving DecidableEq, Repr

inductive CmpFunc
  | gt | eq | ge | lt | ne | le
  deriving DecidableEq, Repr

structure InstrFlags where
  predicated : Bool
  texProjected : Bool
  coissue : Bool
  texBiased : Bool
  deriving DecidableEq, Repr

structure Instruction where
  opcode : Opcode
  dst : Option DstOperand
  srcs : List SrcOperand
  flags : InstrFlags
  predicate : Option SrcOperand
  cmpFunc : Option CmpFunc
  deriving DecidableEq, Repr

/-- What the bytecode declares and runs, without the tokens it was parsed from. -/
structure Code where
  declarations : List Declaration
  defConstants : List DefConstant
  defIntConstants : List DefIntConstant
  defBoolConstants : List DefBoolConstant
  instructions : List Instruction
  subroutines : Entries (List Instruction)
  deriving DecidableEq, Repr

structure Program extends Code where
  bytecode : List ℕ
  shaderType : ShaderType
  major : ℕ
  minor : ℕ
  deriving DecidableEq, Repr

end Mtld3d.Dxso
