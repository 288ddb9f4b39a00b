import Mtld3d.Lib.Reader
import Mtld3d.ScratchArena

namespace Mtld3d

open Lib Reader

inductive PrimitiveType
  | point
  | line
  | lineStrip
  | triangle
  | triangleStrip
  deriving DecidableEq, Repr

def PrimitiveType.repr : PrimitiveType → UInt8
  | point => 0
  | line => 1
  | lineStrip => 2
  | triangle => 3
  | triangleStrip => 4

def PrimitiveType.fromRepr (n : UInt8) : Option PrimitiveType :=
  [point, line, lineStrip, triangle, triangleStrip].find? (·.repr == n)

inductive IndexType
  | uint16
  | uint32
  deriving DecidableEq, Repr

def IndexType.repr : IndexType → UInt8
  | uint16 => 0
  | uint32 => 1

def IndexType.fromRepr (n : UInt8) : Option IndexType := [uint16, uint32].find? (·.repr == n)

structure ScratchSlice where
  address : UInt64
  length : UInt32
  deriving DecidableEq, Repr

structure StreamBinding where
  stream : UInt8
  bufferId : UInt64
  backingPtr : UInt64
  backingLen : UInt64
  backingGeneration : UInt64
  offset : UInt32
  stride : UInt32
  freq : UInt32
  deriving DecidableEq, Repr

inductive VertexSource
  | up (bytes : ScratchSlice) (size stride : UInt32)
  | bound (first : StreamBinding) (extra : List StreamBinding) (stream0Freq : UInt32)
  deriving DecidableEq, Repr

inductive IndexSource
  | none (startVertex vertexCount : UInt32)
  | bound (bufferId backingPtr backingLen backingGeneration : UInt64) (offset indexCount : UInt32)
      (indexType : IndexType) (baseVertex : Int32)
  | fan (startVertex primitiveCount : UInt32)
  | generated (data : ScratchSlice) (indexCount : UInt32) (indexType : IndexType) (minVertex maxVertex : UInt32)
  | up (bytes : ScratchSlice) (indexCount : UInt32) (indexType : IndexType)
  deriving DecidableEq

structure DrawOp where
  metalPrim : PrimitiveType
  vertexSource : VertexSource
  indexSource : IndexSource
  deriving DecidableEq

structure DrawPrefix where
  primitive : UInt8
  vertexKind : UInt8
  indexKind : UInt8
  streamCount : UInt8
  strideOrFrequency : UInt32
  firstOrBase : UInt32
  count : UInt32
  deriving DecidableEq, Repr

structure StreamRecord where
  buffer : UInt64
  address : UInt64
  length : UInt64
  generation : UInt64
  offset : UInt32
  stride : UInt32
  frequency : UInt32
  stream : UInt8
  deriving DecidableEq, Repr

structure VertexBytes where
  address : UInt64
  length : UInt32
  size : UInt32
  deriving DecidableEq, Repr

structure IndexBuffer where
  buffer : UInt64
  address : UInt64
  length : UInt64
  generation : UInt64
  offset : UInt32
  kind : UInt8
  deriving DecidableEq, Repr

structure IndexBytes where
  address : UInt64
  length : UInt32
  maximum : UInt32
  kind : UInt8
  deriving DecidableEq, Repr

namespace DrawPrefix

def nonindexed (primitive : PrimitiveType) (startVertex count : UInt32) : DrawPrefix :=
  ⟨primitive.repr, 1, 0, 0, 0, startVertex, count⟩

def indexed (primitive : PrimitiveType) (baseVertex : Int32) (count : UInt32) : DrawPrefix :=
  { nonindexed primitive 0 count with indexKind := 1, firstOrBase := baseVertex.toUInt32 }

def recordSize : ℕ := 16

def bytes (p : DrawPrefix) : List UInt8 :=
  [p.primitive] ++ ([p.vertexKind] ++ ([p.indexKind] ++ ([p.streamCount] ++
    (le32 p.strideOrFrequency ++ (le32 p.firstOrBase ++ le32 p.count)))))

def read : Reader DrawPrefix := do
  let primitive ← u8
  let vertexKind ← u8
  let indexKind ← u8
  let streamCount ← u8
  let strideOrFrequency ← u32
  let firstOrBase ← u32
  let count ← u32
  pure { primitive, vertexKind, indexKind, streamCount, strideOrFrequency, firstOrBase, count }

end DrawPrefix

namespace StreamRecord

def recordSize : ℕ := 48

def fromBinding (b : StreamBinding) : StreamRecord :=
  ⟨b.bufferId, b.backingPtr, b.backingLen, b.backingGeneration, b.offset, b.stride, b.freq, b.stream⟩

def bytes (r : StreamRecord) : List UInt8 :=
  le64 r.buffer ++ (le64 r.address ++ (le64 r.length ++ (le64 r.generation ++ (le32 r.offset ++
    (le32 r.stride ++ (le32 r.frequency ++ ([r.stream] ++ List.replicate 3 0)))))))

def read : Reader StreamRecord := do
  let buffer ← u64
  let address ← u64
  let length ← u64
  let generation ← u64
  let offset ← u32
  let stride ← u32
  let frequency ← u32
  let stream ← u8
  let _ ← take 3
  pure { buffer, address, length, generation, offset, stride, frequency, stream }

end StreamRecord

namespace VertexBytes

def recordSize : ℕ := 16

def bytes (r : VertexBytes) : List UInt8 := le64 r.address ++ (le32 r.length ++ le32 r.size)

def read : Reader VertexBytes := do
  let address ← u64
  let length ← u32
  let size ← u32
  pure { address, length, size }

end VertexBytes

namespace IndexBuffer

def recordSize : ℕ := 40

def bytes (r : IndexBuffer) : List UInt8 :=
  le64 r.buffer ++ (le64 r.address ++ (le64 r.length ++ (le64 r.generation ++ (le32 r.offset ++
    ([r.kind] ++ List.replicate 3 0)))))

def read : Reader IndexBuffer := do
  let buffer ← u64
  let address ← u64
  let length ← u64
  let generation ← u64
  let offset ← u32
  let kind ← u8
  let _ ← take 3
  pure { buffer, address, length, generation, offset, kind }

def indexType (r : IndexBuffer) : Except WireError IndexType :=
  (IndexType.fromRepr r.kind).elim (.error .invalidValue) .ok

end IndexBuffer

namespace IndexBytes

def recordSize : ℕ := 24

def bytes (r : IndexBytes) : List UInt8 :=
  le64 r.address ++ (le32 r.length ++ (le32 r.maximum ++ ([r.kind] ++ List.replicate 7 0)))

def read : Reader IndexBytes := do
  let address ← u64
  let length ← u32
  let maximum ← u32
  let kind ← u8
  let _ ← take 7
  pure { address, length, maximum, kind }

def indexType (r : IndexBytes) : Except WireError IndexType :=
  (IndexType.fromRepr r.kind).elim (.error .invalidValue) .ok

end IndexBytes

/-- A writer fails with an error its caller sees, or panics at a store past its destination. -/
inductive WriteFault
  | wire (error : WireError)
  | outOfBounds
  deriving DecidableEq, Repr

def put (destination : List UInt8 × ℕ) (record : List UInt8) : Except WriteFault (List UInt8 × ℕ) :=
  let (bytes, at_) := destination
  if at_ + record.length ≤ bytes.length then
    .ok (bytes.take at_ ++ (record ++ bytes.drop (at_ + record.length)), at_ + record.length)
  else .error .outOfBounds

/-- `finish_payload`: every byte of the reservation was written. -/
def finishPayload (destination : List UInt8 × ℕ) : Except WriteFault (List UInt8) :=
  if destination.2 ≠ destination.1.length then .error (.wire .invalidValue) else .ok destination.1

def putAll (destination : List UInt8) (records : List (List UInt8)) : Except WriteFault (List UInt8) := do
  finishPayload (← records.foldlM put (destination, 0))

namespace DrawOp

def vertexBytes : VertexSource → ℕ
  | .up .. => 16
  | .bound _ extra _ => (1 + extra.length) * 48

def indexBytes : IndexSource → ℕ
  | .none .. | .fan .. => 0
  | .bound .. => 40
  | .generated .. | .up .. => 24

def payloadSize (draw : DrawOp) : Except WireError ℕ :=
  match draw.vertexSource with
  | .bound _ extra _ =>
    if extra.length > 15 then .error .invalidValue
    else .ok (16 + vertexBytes draw.vertexSource + indexBytes draw.indexSource)
  | .up .. => .ok (16 + vertexBytes draw.vertexSource + indexBytes draw.indexSource)

def vertexHeader : VertexSource → Except WriteFault (UInt8 × UInt8 × UInt32)
  | .up _ _ stride => .ok (0, 0, stride)
  | .bound _ extra stream0Freq =>
    if extra.length + 1 < 256 then .ok (1, UInt8.ofNat (extra.length + 1), stream0Freq)
    else .error (.wire .invalidValue)

def indexHeader : IndexSource → UInt8 × UInt32 × UInt32
  | .none startVertex vertexCount => (0, startVertex, vertexCount)
  | .bound _ _ _ _ _ indexCount _ baseVertex => (1, baseVertex.toUInt32, indexCount)
  | .fan startVertex primitiveCount => (2, startVertex, primitiveCount)
  | .generated _ indexCount _ minVertex _ => (3, minVertex, indexCount)
  | .up _ indexCount _ => (4, 0, indexCount)

def vertexRecords : VertexSource → List (List UInt8)
  | .up bytes size _ => [VertexBytes.bytes ⟨bytes.address, bytes.length, size⟩]
  | .bound first extra _ => (first :: extra).map fun b ↦ (StreamRecord.fromBinding b).bytes

def indexRecords : IndexSource → List (List UInt8)
  | .none .. | .fan .. => []
  | .bound bufferId backingPtr backingLen backingGeneration offset _ indexType _ =>
    [IndexBuffer.bytes ⟨bufferId, backingPtr, backingLen, backingGeneration, offset, indexType.repr⟩]
  | .generated data _ indexType _ maxVertex =>
    [IndexBytes.bytes ⟨data.address, data.length, maxVertex, indexType.repr⟩]
  | .up bytes _ indexType => [IndexBytes.bytes ⟨bytes.address, bytes.length, 0, indexType.repr⟩]

def writeInto (draw : DrawOp) (destination : List UInt8) (payloadBytes : ℕ) : Except WriteFault (List UInt8) := do
  if destination.length ≠ payloadBytes then throw (.wire .invalidValue)
  let (vertexKind, streamCount, strideOrFrequency) ← vertexHeader draw.vertexSource
  let (indexKind, firstOrBase, count) := indexHeader draw.indexSource
  let head : DrawPrefix :=
    ⟨draw.metalPrim.repr, vertexKind, indexKind, streamCount, strideOrFrequency, firstOrBase, count⟩
  putAll destination (head.bytes :: (vertexRecords draw.vertexSource ++ indexRecords draw.indexSource))

end DrawOp

structure BoundVertices where
  first : StreamRecord
  extra : List StreamBinding
  stream0Freq : UInt32

namespace BoundVertices

def boundPayloadSize (vertices : BoundVertices) (indices : Option IndexBuffer) : Except WireError ℕ :=
  if vertices.extra.length > 15 then .error .invalidValue
  else .ok (DrawPrefix.recordSize + (1 + vertices.extra.length) * StreamRecord.recordSize +
    if indices.isSome then IndexBuffer.recordSize else 0)

def writeBoundInto (head : DrawPrefix) (vertices : BoundVertices) (indices : Option IndexBuffer)
    (destination : List UInt8) (payloadBytes : ℕ) : Except WriteFault (List UInt8) := do
  if destination.length ≠ payloadBytes ∨ (head.indexKind == 1) ≠ indices.isSome then throw (.wire .invalidValue)
  if ¬vertices.extra.length + 1 < 256 then throw (.wire .invalidValue)
  let head := { head with
    streamCount := UInt8.ofNat (vertices.extra.length + 1), strideOrFrequency := vertices.stream0Freq }
  putAll destination (head.bytes :: (vertices.first.bytes ::
    (vertices.extra.map fun b ↦ (StreamRecord.fromBinding b).bytes) ++ (indices.map IndexBuffer.bytes).toList))

def singleStreamPrefix (head : DrawPrefix) (stream0Freq : UInt32) : DrawPrefix :=
  { head with streamCount := 1, strideOrFrequency := stream0Freq }

/-- The bytes of a `SingleBoundPayload`; `none` when the prefix names an index tail. -/
def singleBoundPayload (head : DrawPrefix) (first : StreamRecord) (stream0Freq : UInt32) : Option (List UInt8) :=
  if head.indexKind == 1 then none
  else some ((singleStreamPrefix head stream0Freq).bytes ++ first.bytes)

def singleIndexedBoundPayload (head : DrawPrefix) (first : StreamRecord) (stream0Freq : UInt32)
    (index : IndexBuffer) : Option (List UInt8) :=
  if head.indexKind != 1 then none
  else some ((singleStreamPrefix head stream0Freq).bytes ++ (first.bytes ++ index.bytes))

def putSingle (payload : Option (List UInt8)) (destination : List UInt8) : Except WriteFault (List UInt8) := do
  let payload ← payload.elim (.error (.wire .invalidValue)) .ok
  let (bytes, _) ← put (destination, 0) payload
  pure bytes

end BoundVertices

/-- `record_draw`: the payload in a reservation of its size; `reserve` is what the arena hands out. -/
def recordDraw (reserve : ℕ → List UInt8) (draw : DrawOp) : Except WriteFault (List UInt8) :=
  match draw.payloadSize with
  | .error e => .error (.wire e)
  | .ok length => draw.writeInto (reserve length) length

/-- `record_bound_draw`: one stream goes straight into its fixed layout. -/
def recordBoundDraw (reserve : ℕ → List UInt8) (head : DrawPrefix) (vertices : BoundVertices)
    (indices : Option IndexBuffer) : Except WriteFault (List UInt8) :=
  if vertices.extra.isEmpty then
    match indices with
    | some index =>
      BoundVertices.putSingle
        (BoundVertices.singleIndexedBoundPayload head vertices.first vertices.stream0Freq index) (reserve 104)
    | none =>
      BoundVertices.putSingle
        (BoundVertices.singleBoundPayload head vertices.first vertices.stream0Freq) (reserve 64)
  else
    match vertices.boundPayloadSize indices with
    | .error e => .error (.wire e)
    | .ok length => vertices.writeBoundInto head indices (reserve length) length

inductive SingleStreamDraw
  | nonindexed (primitive : PrimitiveType) (startVertex vertexCount : UInt32)
  | indexed (primitive : PrimitiveType) (baseVertex : Int32) (indexCount : UInt32) (index : IndexBuffer)

namespace SingleStreamDraw

def head : SingleStreamDraw → DrawPrefix
  | nonindexed primitive startVertex vertexCount => .nonindexed primitive startVertex vertexCount
  | indexed primitive baseVertex indexCount _ => .indexed primitive baseVertex indexCount

def index : SingleStreamDraw → Option IndexBuffer
  | nonindexed .. => none
  | indexed _ _ _ index => some index

def payload (draw : SingleStreamDraw) (first : StreamRecord) (stream0Freq : UInt32) : List UInt8 :=
  (BoundVertices.singleStreamPrefix draw.head stream0Freq).bytes ++
    (first.bytes ++ (draw.index.map IndexBuffer.bytes).getD [])

end SingleStreamDraw

def tryAppendSingleStream (vertices : BoundVertices) (draw : SingleStreamDraw) : Option (List UInt8) :=
  if vertices.extra.isEmpty then some (draw.payload vertices.first vertices.stream0Freq) else none

inductive VertexView
  | up (record : VertexBytes) (stride : UInt32)
  | bound (records : List StreamRecord) (stream0Freq : UInt32)
  deriving DecidableEq, Repr

inductive IndexView
  | none (startVertex vertexCount : UInt32)
  | bound (record : IndexBuffer) (indexCount : UInt32) (baseVertex : Int32)
  | fan (startVertex primitiveCount : UInt32)
  | generated (record : IndexBytes) (indexCount minVertex : UInt32)
  | up (record : IndexBytes) (indexCount : UInt32)
  deriving DecidableEq

structure DrawView where
  primitive : PrimitiveType
  vertices : VertexView
  indices : IndexView
  deriving DecidableEq

structure ByteSlice where
  address : ℕ
  bytes : List UInt8

namespace ByteSlice

def splitAtChecked (s : ByteSlice) (n : ℕ) : Except WireError (ByteSlice × ByteSlice) :=
  if n ≤ s.bytes.length then .ok (⟨s.address, s.bytes.take n⟩, ⟨s.address + n, s.bytes.drop n⟩)
  else .error .truncated

def fixedRef {α : Type} (read : Reader α) (size : ℕ) (s : ByteSlice) : Except WireError α :=
  if s.bytes.length ≠ size ∨ ¬8 ∣ s.address then .error .invalidValue
  else (read.value s.bytes).elim (.error .invalidValue) .ok

def fixedRecords {α : Type} (read : Reader α) (size : ℕ) (s : ByteSlice) (count : ℕ) :
    Except WireError (List α × ByteSlice) := do
  let (records, rest) ← s.splitAtChecked (count * size)
  if ¬8 ∣ records.address then throw .invalidValue
  let records ← ((read.times count).value records.bytes).elim (.error .invalidValue) .ok
  pure (records, rest)

end ByteSlice

namespace DrawView

def vertexView (head : DrawPrefix) (rest : ByteSlice) : Except WireError (VertexView × ByteSlice) :=
  if head.vertexKind = 0 ∧ head.streamCount = 0 then do
    let (record, rest) ← rest.splitAtChecked VertexBytes.recordSize
    let record ← record.fixedRef VertexBytes.read VertexBytes.recordSize
    pure (.up record head.strideOrFrequency, rest)
  else if head.vertexKind = 1 ∧ 1 ≤ head.streamCount ∧ head.streamCount ≤ 16 then do
    let (records, rest) ← rest.fixedRecords StreamRecord.read StreamRecord.recordSize head.streamCount.toNat
    pure (.bound records head.strideOrFrequency, rest)
  else .error .invalidValue

def indexView (head : DrawPrefix) (indices : ByteSlice) : Except WireError IndexView :=
  if head.indexKind = 0 ∧ indices.bytes.isEmpty then .ok (.none head.firstOrBase head.count)
  else if head.indexKind = 1 then do
    let record ← indices.fixedRef IndexBuffer.read IndexBuffer.recordSize
    let _ ← record.indexType
    pure (.bound record head.count head.firstOrBase.toInt32)
  else if head.indexKind = 2 ∧ indices.bytes.isEmpty then .ok (.fan head.firstOrBase head.count)
  else if head.indexKind = 3 then do
    let record ← indices.fixedRef IndexBytes.read IndexBytes.recordSize
    let _ ← record.indexType
    pure (.generated record head.count head.firstOrBase)
  else if head.indexKind = 4 then do
    let record ← indices.fixedRef IndexBytes.read IndexBytes.recordSize
    let _ ← record.indexType
    pure (.up record head.count)
  else .error .invalidValue

def new (s : ByteSlice) : Except WireError DrawView := do
  let (head, rest) ← s.splitAtChecked DrawPrefix.recordSize
  let head ← head.fixedRef DrawPrefix.read DrawPrefix.recordSize
  let primitive ← (PrimitiveType.fromRepr head.primitive).elim (.error .invalidValue) .ok
  let (vertices, rest) ← vertexView head rest
  let indices ← indexView head rest
  pure ⟨primitive, vertices, indices⟩

end DrawView

end Mtld3d
