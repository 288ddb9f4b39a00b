import Mtld3d.Dxso

namespace Mtld3d.Dxso

open Lib

inductive DxsoError
  | truncated
  | invalidHeader
  | unsupportedShaderModel (major minor : ℕ)
  | unknownOpcode (code : ℕ)
  | unknownRegisterType (code : ℕ)
  | unknownDeclUsage (code : ℕ)
  | unsupportedRelativeAddressing
  deriving DecidableEq, Repr

def isOperand (token : ℕ) : Bool := token.testBit 31

def opcodeBits (token : ℕ) : ℕ := token % 65536

def lengthField (token : ℕ) : ℕ := token / 2 ^ 24 % 16

def commentLength (token : ℕ) : ℕ := token / 65536 % 32768

def operandTokenCount (major token : ℕ) (following : List ℕ) : ℕ :=
  if 2 ≤ major then lengthField token
  else
    match Opcode.ofCode (opcodeBits token) with
    | some .def_ | some .defI => 5
    | some .defB => 2
    | _ => (following.takeWhile isOperand).length

def regIndex (token : ℕ) : ℕ := token % 2048

def isRelative (token : ℕ) : Bool := token.testBit 13

def decodeRegType (token : ℕ) : Except DxsoError RegKind :=
  match token / 2 ^ 28 % 8 + 8 * (token / 2 ^ 11 % 4) with
  | 0 => .ok .temp
  | 1 => .ok .input
  | 2 => .ok .const
  | 3 => .ok .addr
  | 4 => .ok .rastOut
  | 5 => .ok .attrOut
  | 6 => .ok .texcoordOut
  | 7 => .ok .constInt
  | 8 => .ok .colorOut
  | 9 => .ok .depthOut
  | 10 => .ok .sampler
  | 11 => .ok .output
  | 14 => .ok .constBool
  | 15 => .ok .loop
  | 16 => .ok .tempFloat16
  | 17 => .ok .miscType
  | 18 => .ok .label
  | 19 => .ok .predicate
  | full => .error (.unknownRegisterType full)

def decodeRegister (token : ℕ) : Except DxsoError Register := do
  let kind ← decodeRegType token
  .ok ⟨kind, regIndex token⟩

def decodeSwizzleBits (bits : ℕ) : Swizzle := ⟨bits % 4, bits / 4 % 4, bits / 16 % 4, bits / 64 % 4⟩

def decodeSrcModifier : ℕ → SrcModifier
  | 1 => .neg
  | 2 => .bias
  | 3 => .biasNeg
  | 4 => .sign
  | 5 => .signNeg
  | 6 => .comp
  | 7 => .x2
  | 8 => .x2Neg
  | 9 => .dz
  | 10 => .dw
  | 11 => .abs
  | 12 => .absNeg
  | 13 => .not
  | _ => .none

def decodeDeclUsage (code : ℕ) : Except DxsoError DeclUsage :=
  if code ≤ 13 then .ok (.ofCode code) else .error (.unknownDeclUsage code)

def decodeTextureType : ℕ → TextureType
  | 2 => .texture2D
  | 3 => .textureCube
  | 4 => .texture3D
  | _ => .unknown

def CmpFunc.fromRaw : ℕ → Option CmpFunc
  | 1 => some .gt
  | 2 => some .eq
  | 3 => some .ge
  | 4 => some .lt
  | 5 => some .ne
  | 6 => some .le
  | _ => none

def decodeDst : List ℕ → Except DxsoError (DstOperand × List ℕ)
  | [] => .error .truncated
  | token :: rest =>
    if isRelative token then .error .unsupportedRelativeAddressing
    else do
      let reg ← decodeRegister token
      let shiftRaw : ℕ := token / 2 ^ 24 % 16
      let mods : DstMods := ⟨token.testBit 20, token.testBit 21, token.testBit 22⟩
      .ok (⟨reg, token / 2 ^ 16 % 16, mods, if shiftRaw < 8 then shiftRaw else (shiftRaw : ℤ) - 16⟩, rest)

def srcOperand (token : ℕ) (kind : RegKind) (relAddr : Option RelativeAddr) : SrcOperand :=
  ⟨⟨kind, regIndex token⟩, decodeSwizzleBits (token / 2 ^ 16 % 256), decodeSrcModifier (token / 2 ^ 24 % 16), relAddr⟩

/-- The operand, the number of tokens it took and what follows. Shader model 1 has no token for the index
register of a relative operand. -/
def decodeSrc (sm1 : Bool) : List ℕ → Except DxsoError (SrcOperand × ℕ × List ℕ)
  | [] => .error .truncated
  | token :: rest => do
    let kind ← decodeRegType token
    if isRelative token then
      if sm1 then .ok (srcOperand token kind (some ⟨⟨.addr, 0⟩, ⟨0, 0, 0, 0⟩⟩), 1, rest)
      else
        match rest with
        | [] => .error .truncated
        | relToken :: rest => do
          let reg ← decodeRegister relToken
          .ok (srcOperand token kind (some ⟨reg, decodeSwizzleBits (relToken / 2 ^ 16 % 256)⟩), 2, rest)
    else .ok (srcOperand token kind none, 1, rest)

def decodeSrcs (sm1 : Bool) : ℕ → List ℕ → Except DxsoError (List SrcOperand × List ℕ)
  | 0, rest => .ok ([], rest)
  | 1, rest => do
    let (src, consumed, rest) ← decodeSrc sm1 rest
    if consumed = 1 then .ok ([src], rest) else .error .truncated
  | n + 2, rest => do
    let (src, consumed, rest) ← decodeSrc sm1 rest
    let (srcs, rest) ← (if consumed = 1 then decodeSrcs sm1 (n + 1) rest else decodeSrcs sm1 n rest)
    .ok (src :: srcs, rest)

def instrFlags (major : ℕ) (opcode : Opcode) (token : ℕ) : InstrFlags where
  predicated := token.testBit 28
  texProjected := decide (2 ≤ major) && opcode == .texLd && token / 2 ^ 16 % 4 == 1
  coissue := token.testBit 30
  texBiased := decide (2 ≤ major) && opcode == .texLd && token / 2 ^ 16 % 4 == 2

def cmpFuncOf (opcode : Opcode) (token : ℕ) : Option CmpFunc :=
  match opcode with
  | .ifc | .breakC | .setP => CmpFunc.fromRaw (token / 2 ^ 16 % 256)
  | _ => none

def decodeDestination (opcode : Opcode) (remaining : ℕ) (rest : List ℕ) :
    Except DxsoError (Option DstOperand × ℕ × List ℕ) :=
  if opcode.hasDestination && decide (1 ≤ remaining) then do
    let (dst, rest) ← decodeDst rest
    .ok (some dst, remaining - 1, rest)
  else .ok (none, remaining, rest)

def decodePredicate (predicated : Bool) (remaining : ℕ) (rest : List ℕ) :
    Except DxsoError (Option SrcOperand × ℕ × List ℕ) :=
  if predicated && decide (0 < remaining) then do
    let (src, consumed, rest) ← decodeSrc false rest
    if remaining < consumed then .error .truncated else .ok (some src, remaining - consumed, rest)
  else .ok (none, remaining, rest)

def decodeInstruction (major : ℕ) (opcode : Opcode) (token : ℕ) (rest : List ℕ) :
    Except DxsoError (Instruction × List ℕ) := do
  let (dst, remaining, rest) ← decodeDestination opcode (operandTokenCount major token rest) rest
  let (predicate, remaining, rest) ← decodePredicate (token.testBit 28) remaining rest
  let (srcs, rest) ← decodeSrcs (decide (major < 2)) remaining rest
  .ok (⟨opcode, dst, srcs, instrFlags major opcode token, predicate, cmpFuncOf opcode token⟩, rest)

def decodeDcl (usageToken dstToken : ℕ) : Except DxsoError Declaration := do
  let kind ← decodeRegType dstToken
  if kind = .sampler then .ok (.sampler (decodeTextureType (usageToken / 2 ^ 27 % 16)) ⟨kind, regIndex dstToken⟩)
  else do
    let usage ← decodeDeclUsage (usageToken % 32)
    .ok (.semantic usage (usageToken / 2 ^ 16 % 16) ⟨kind, regIndex dstToken⟩ (dstToken / 2 ^ 16 % 16))

def castSigned (bits : ℕ) : ℤ := if bits < 2 ^ 31 then bits else (bits : ℤ) - 2 ^ 32

/-- The program so far; `currentLabel` names the subroutine the next instruction belongs to. -/
structure ParserState where
  code : Code
  currentLabel : Option ℕ
  deriving DecidableEq, Repr

namespace ParserState

def empty : ParserState := ⟨⟨[], [], [], [], [], []⟩, none⟩

def pushInstruction (st : ParserState) (inst : Instruction) : ParserState :=
  match st.currentLabel with
  | some label =>
    { st with code.subroutines := st.code.subroutines.upsert label fun body ↦ body.getD [] ++ [inst] }
  | none => { st with code.instructions := st.code.instructions ++ [inst] }

def openLabel (st : ParserState) (label : ℕ) : ParserState where
  code := { st.code with subroutines := st.code.subroutines.upsert label fun body ↦ body.getD [] }
  currentLabel := some label

end ParserState

/-- One token that is not END, with what it takes from the tokens behind it. -/
def parseStep (major : ℕ) (st : ParserState) (opcode : Opcode) (token : ℕ) (rest : List ℕ) :
    Except DxsoError (ParserState × List ℕ) :=
  match opcode with
  | .comment => if rest.length < commentLength token then .error .truncated else .ok (st, rest.drop (commentLength token))
  | .dcl =>
    match rest with
    | usageToken :: dstToken :: rest => do
      let decl ← decodeDcl usageToken dstToken
      .ok ({ st with code.declarations := st.code.declarations ++ [decl] }, rest)
    | _ => .error .truncated
  | .def_ =>
    match rest with
    | [] => .error .truncated
    | dstToken :: rest => do
      let reg ← decodeRegister dstToken
      match rest with
      | x :: y :: z :: w :: rest =>
        .ok ({ st with code.defConstants := st.code.defConstants ++ [⟨reg, [x, y, z, w]⟩] }, rest)
      | _ => .error .truncated
  | .defI =>
    match rest with
    | [] => .error .truncated
    | dstToken :: rest => do
      let reg ← decodeRegister dstToken
      match rest with
      | x :: y :: z :: w :: rest =>
        let value := [castSigned x, castSigned y, castSigned z, castSigned w]
        .ok ({ st with code.defIntConstants := st.code.defIntConstants ++ [⟨reg, value⟩] }, rest)
      | _ => .error .truncated
  | .defB =>
    match rest with
    | [] => .error .truncated
    | dstToken :: rest => do
      let reg ← decodeRegister dstToken
      match rest with
      | bits :: rest =>
        .ok ({ st with code.defBoolConstants := st.code.defBoolConstants ++ [⟨reg, bits != 0⟩] }, rest)
      | [] => .error .truncated
  | .phase => .ok (st, rest)
  | .label =>
    if lengthField token = 1 then do
      let (src, _, rest) ← decodeSrc false rest
      .ok (st.openLabel src.reg.index, rest)
    else .error .truncated
  | .ret => .ok ({ st with currentLabel := none }, rest)
  | opcode => do
    let (inst, rest) ← decodeInstruction major opcode token rest
    .ok (st.pushInstruction inst, rest)

/-- The token loop up to END; every round takes a token, so `fuel` past their number is never used up. -/
def parseLoop (major : ℕ) : ℕ → ParserState → List ℕ → Except DxsoError (ParserState × List ℕ)
  | 0, _, _ => .error .truncated
  | _ + 1, _, [] => .error .truncated
  | fuel + 1, st, token :: rest =>
    match Opcode.ofCode (opcodeBits token) with
    | none => .error (.unknownOpcode (opcodeBits token))
    | some opcode =>
      if opcode = .end_ then .ok (st, rest)
      else do
        let (st, rest) ← parseStep major st opcode token rest
        parseLoop major fuel st rest

def shaderTypeOf (version : ℕ) : Option ShaderType :=
  match version / 65536 % 65536 with
  | 0xFFFE => some .vertex
  | 0xFFFF => some .pixel
  | _ => none

def majorOf (version : ℕ) : ℕ := version / 256 % 256

def minorOf (version : ℕ) : ℕ := version % 256

def knownModel (shaderType : ShaderType) (major minor : ℕ) : Bool :=
  match shaderType, major with
  | _, 2 | _, 3 => true
  | .vertex, 1 => minor == 1
  | .pixel, 1 => decide (minor ≤ 4)
  | _, _ => false

def parseTokens (bytecode : List ℕ) : Except DxsoError (Program × List ℕ) :=
  match bytecode with
  | [] => .error .truncated
  | version :: tokens =>
    match shaderTypeOf version with
    | none => .error .invalidHeader
    | some shaderType =>
      if knownModel shaderType (majorOf version) (minorOf version) then do
        let (st, rest) ← parseLoop (majorOf version) (tokens.length + 1) .empty tokens
        .ok (⟨st.code, bytecode, shaderType, majorOf version, minorOf version⟩, rest)
      else .error (.unsupportedShaderModel (majorOf version) (minorOf version))

def parse (bytecode : List ℕ) : Except DxsoError Program := do
  let (program, _) ← parseTokens bytecode
  .ok program

def maxTokens : ℕ := 65536

/-- The guest tokens from `len` on that the walk may look at. -/
def window (memory : ℕ → ℕ) (len : ℕ) : List ℕ := (List.range (maxTokens - len)).map fun n ↦ memory (len + n)

def walk (memory : ℕ → ℕ) (major len : ℕ) : Option ℕ :=
  if maxTokens ≤ len then none
  else if opcodeBits (memory len) = 0xFFFF then some (len + 1)
  else if opcodeBits (memory len) = 0xFFFE then walk memory major (len + 1 + commentLength (memory len))
  else walk memory major (len + 1 + operandTokenCount major (memory len) (window memory (len + 1)))
termination_by maxTokens - len

def readShaderBytecode (memory : ℕ → ℕ) : Option (List ℕ) :=
  if (shaderTypeOf (memory 0)).isSome then
    (walk memory (majorOf (memory 0)) 1).map fun len ↦ (List.range len).map memory
  else none

end Mtld3d.Dxso
