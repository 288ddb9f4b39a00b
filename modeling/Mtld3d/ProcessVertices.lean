import Mtld3d.VertexDecl

namespace Mtld3d

structure FvfComponent where
  type : ℕ
  usage : ℕ
  usageIndex : ℕ
  deriving DecidableEq, Repr

namespace FvfComponent

def size (c : FvfComponent) : ℕ := (declTypeToMetalFormat c.type).byteSize

/-- The blend weights and indices of an `XYZBn` position. -/
def ofBetas (fvf pos : ℕ) : List FvfComponent :=
  let betas := (pos - 6) / 2 + 1
  let xyzb2Color := pos = 8 ∧ fvf &&& 0x8000 ≠ 0
  let lastBeta :=
    if xyzb2Color then some 5
    else if fvf &&& 0x8000 ≠ 0 then some 4
    else if fvf &&& 0x1000 ≠ 0 then some 5
    else if pos = 14 then some 0
    else none
  let betas := if lastBeta.isSome ∧ 0 < betas then betas - 1 else betas
  let weightType :=
    if xyzb2Color then 4
    else if betas = 1 then 0
    else if betas = 2 then 1
    else if betas = 3 then 2
    else 3
  (if 0 < betas then [⟨weightType, 1, 0⟩] else []) ++ lastBeta.toList.map fun type ↦ ⟨type, 2, 0⟩

def ofPosition (fvf : ℕ) : List FvfComponent :=
  let pos := fvf &&& 0xE
  if pos = 2 then
    if fvf &&& 0x4002 = 0x4002 then [⟨3, 0, 0⟩] else [⟨2, 0, 0⟩]
  else if pos = 4 then [⟨3, 9, 0⟩]
  else if 6 ≤ pos then ⟨2, 0, 0⟩ :: ofBetas fvf pos
  else []

def ofTexcoord (fvf i : ℕ) : FvfComponent :=
  let size := (fvf >>> (16 + i * 2)) &&& 3
  ⟨if size = 3 then 0 else if size = 1 then 2 else if size = 2 then 3 else 1, 5, i⟩

def ofFvf (fvf : ℕ) : List FvfComponent :=
  ofPosition fvf ++ (if fvf &&& 0x10 ≠ 0 then [⟨2, 3, 0⟩] else []) ++ (if fvf &&& 0x20 ≠ 0 then [⟨0, 4, 0⟩] else []) ++
    (if fvf &&& 0x40 ≠ 0 then [⟨4, 10, 0⟩] else []) ++ (if fvf &&& 0x80 ≠ 0 then [⟨4, 10, 1⟩] else []) ++
    (List.range (min ((fvf &&& 0xF00) >>> 8) 8)).map (ofTexcoord fvf)

end FvfComponent

def layOut : ℕ → List FvfComponent → List VertexElement × ℕ
  | offset, [] => ([], offset)
  | offset, c :: cs =>
    let rest := layOut (offset + c.size) cs
    (⟨0, offset, c.type, c.usage, c.usageIndex⟩ :: rest.1, rest.2)

def fvfToElements (fvf : ℕ) : List VertexElement × ℕ := layOut 0 (FvfComponent.ofFvf fvf)

namespace VertexElement

def size (e : VertexElement) : ℕ := e.format.byteSize

end VertexElement

/-- `screen` is the transform to screen space under the request's matrix and viewport, on the bytes of a position. -/
structure ProcessVerticesRequest where
  src : List UInt8
  srcStride : ℕ
  srcFvf : ℕ
  dstFvf : ℕ
  count : ℕ
  screen : List UInt8 → Vector UInt8 16

/-- What a call comes to; a slice outside its buffer panics. -/
inductive ProcessOutcome
  | panicked
  | declined
  | done (out : List UInt8)
  deriving DecidableEq

def readSlice (src : List UInt8) (start n : ℕ) : Option (List UInt8) :=
  if start + n ≤ src.length then some ((src.drop start).take n) else none

def writeSlice (out : List UInt8) (start : ℕ) (bytes : List UInt8) : Option (List UInt8) :=
  if start + bytes.length ≤ out.length then some (out.take start ++ bytes ++ out.drop (start + bytes.length)) else none

namespace ProcessVerticesRequest

variable (req : ProcessVerticesRequest)

def srcElems : List VertexElement := (fvfToElements req.srcFvf).1

def dstElems : List VertexElement := (fvfToElements req.dstFvf).1

def stride : ℕ := if req.srcStride ≠ 0 then req.srcStride else (fvfToElements req.srcFvf).2

def dstStride : ℕ := (fvfToElements req.dstFvf).2

def dstPos : Option VertexElement := req.dstElems.find? fun e ↦ decide (e.usage = 9)

def srcPos : Option VertexElement := req.srcElems.find? fun e ↦ decide (e.usage = 0) || decide (e.usage = 9)

def matching (de : VertexElement) : Option VertexElement :=
  req.srcElems.find? fun se ↦ decide (se.usage = de.usage) && decide (se.usageIndex = de.usageIndex)

def copyComponent (i : ℕ) (out : List UInt8) (de : VertexElement) : Option (List UInt8) :=
  if de.usage = 9 then some out
  else
    match req.matching de with
    | none => some out
    | some se =>
      match readSlice req.src (i * req.stride + se.offset) (min de.size se.size) with
      | none => none
      | some bytes => writeSlice out (i * req.dstStride + de.offset) bytes

def processVertex (srcPos dstPos : VertexElement) (out : List UInt8) (i : ℕ) : Option (List UInt8) :=
  match readSlice req.src (i * req.stride + srcPos.offset) 12 with
  | none => none
  | some pos =>
    match writeSlice out (i * req.dstStride + dstPos.offset) (req.screen pos).toList with
    | none => none
    | some out => req.dstElems.foldlM (req.copyComponent i) out

end ProcessVerticesRequest

def processVertices (req : ProcessVerticesRequest) : ProcessOutcome :=
  if req.stride = 0 ∨ req.dstStride = 0 then .declined
  else if req.src.length < req.count * req.stride then .declined
  else
    match req.dstPos with
    | none => .declined
    | some dstPos =>
      match req.srcPos with
      | none => .declined
      | some srcPos =>
        match (List.range req.count).foldlM (req.processVertex srcPos dstPos)
            (List.replicate (req.count * req.dstStride) 0) with
        | none => .panicked
        | some out => .done out

end Mtld3d
