import Mtld3d.Width
import Mtld3d.Lib.Bytes

namespace Mtld3d

open Lib

inductive WireError
  | tooLarge
  | allocationFailed
  | invalidValue
  | truncated
  | other (code : ℕ)
  deriving DecidableEq, Repr

def commandAlignment : ℕ := 8

def commandHeaderBytes : ℕ := 8

def commandRegionBytes : ℕ := 16

structure CommandHeader where
  opcode : UInt16
  operand : UInt16
  recordBytes : ℕ

def CommandHeader.bytes (h : CommandHeader) : List UInt8 :=
  toLe 2 h.opcode.toNat ++ toLe 2 h.operand.toNat ++ toLe 4 h.recordBytes

structure CommandRegion where
  address : ℕ
  usedBytes : ℕ
  reserved : ℕ
  deriving DecidableEq, Repr

def CommandRegion.bytes (r : CommandRegion) : List UInt8 :=
  toLe 8 r.address ++ toLe 4 r.usedBytes ++ toLe 4 r.reserved

structure CommandRecord where
  opcode : UInt16
  operand : UInt16
  payload : List UInt8
  deriving DecidableEq

structure AlignedChunk where
  base : ℕ
  length : ℕ
  used : ℕ

def wordBytes (size : ℕ) : ℕ := max ((size + 15) / 16) 1 * 16

structure ScratchArena where
  heap : ℕ → UInt8
  chunks : List AlignedChunk
  nextChunk : ℕ
  payloadChunk : Option ℕ
  commandChunk : Option ℕ
  commandBase : ℕ
  commandCursor : ℕ
  commandLimit : ℕ
  commandRegions : List CommandRegion
  chunkSize : ℕ

namespace ScratchArena

def alignUp (t : PointerWidth) (n align : ℕ) : ℕ := (n + (align - 1)) % (t.usizeMax + 1) / align * align

/-- `fresh` is the address the allocator gives if it is asked. -/
def acquireChunk (s : ScratchArena) (required fresh : ℕ) : ℕ × ScratchArena :=
  let index := s.nextChunk
  let capacity := max required s.chunkSize
  let zeroed := writeRange s.heap fresh (List.replicate (wordBytes capacity) 0)
  match s.chunks[index]? with
  | none =>
    (index, { s with heap := zeroed, chunks := s.chunks ++ [⟨fresh, capacity, 0⟩], nextChunk := index + 1 })
  | some chunk =>
    if chunk.length < capacity then
      (index,
        { s with heap := zeroed, chunks := s.chunks.set index ⟨fresh, capacity, 0⟩, nextChunk := index + 1 })
    else
      (index, { s with chunks := s.chunks.set index { chunk with used := 0 }, nextChunk := index + 1 })

def setUsed (s : ScratchArena) (index used : ℕ) : ScratchArena :=
  { s with chunks := s.chunks.modify index fun chunk ↦ { chunk with used := used } }

def reserveSlow (s : ScratchArena) (aligned fresh : ℕ) : ℕ × ScratchArena :=
  let (index, s) := s.acquireChunk aligned fresh
  let s := if aligned ≤ s.chunkSize then { s with payloadChunk := some index } else s
  (((s.chunks[index]?).map (·.base)).getD 0, s.setUsed index aligned)

def payloadRoom (s : ScratchArena) (aligned : ℕ) : Option (ℕ × AlignedChunk) :=
  s.payloadChunk.bind fun index ↦ (s.chunks[index]?).bind fun chunk ↦
    if aligned ≤ chunk.length - chunk.used then some (index, chunk) else none

def reserve (t : PointerWidth) (s : ScratchArena) (size fresh : ℕ) : ℕ × ℕ × ScratchArena :=
  let aligned := alignUp t size 16
  match s.payloadRoom aligned with
  | some (index, chunk) => (chunk.base + chunk.used, aligned, s.setUsed index (chunk.used + aligned))
  | none => let (pointer, s) := s.reserveSlow aligned fresh; (pointer, aligned, s)

def commandReservation (t : PointerWidth) (payloadBound : ℕ) : Except WireError ℕ :=
  let bound := payloadBound + commandHeaderBytes
  if t.usizeMax < bound then .error .tooLarge
  else if u32Max < bound ∨ t.isizeMax < bound then .error .tooLarge
  else
    let padded := bound + (commandAlignment - 1)
    if t.usizeMax < padded then .error .tooLarge
    else .ok (padded / commandAlignment * commandAlignment)

def hasCommandRoom (s : ScratchArena) (reserved : ℕ) : Bool :=
  decide (reserved ≤ s.commandLimit - s.commandCursor)

def openCommandBytes (s : ScratchArena) : ℕ := s.commandCursor - s.commandBase

def publishCommandRegion (s : ScratchArena) : Except WireError ScratchArena :=
  if u32Max < s.openCommandBytes then .error .tooLarge
  else
    .ok { s with
      commandRegions := s.commandRegions.modify (s.commandRegions.length - 1)
        fun region ↦ { region with usedBytes := s.openCommandBytes } }

def commandDescriptorBytes (s : ScratchArena) : List UInt8 := s.commandRegions.flatMap (·.bytes)

def leaveCommandChunk (s : ScratchArena) : ScratchArena :=
  match s.commandChunk with
  | some index => s.setUsed index s.openCommandBytes
  | none => s

/-- `tableRoom` is whether the descriptor vector could grow. -/
def openCommandRegion (s : ScratchArena) (reserved fresh : ℕ) (tableRoom : Bool) :
    Except WireError ScratchArena :=
  if !tableRoom then .error .allocationFailed
  else
    match s.publishCommandRegion with
    | .error e => .error e
    | .ok s =>
      let (index, s) := s.leaveCommandChunk.acquireChunk reserved fresh
      let (base, length) := ((s.chunks[index]?).map fun chunk ↦ (chunk.base, chunk.length)).getD (0, 0)
      .ok { s with
        commandChunk := some index
        commandBase := base
        commandCursor := base
        commandLimit := base + length
        commandRegions := s.commandRegions ++ [⟨base, 0, 0⟩] }

/-- Room for one fixed command of `size` payload bytes, then its header and payload in place. -/
def slotWrite (s : ScratchArena) (opcode operand : UInt16) (payload : List UInt8) : Option ScratchArena :=
  let framed := commandHeaderBytes + payload.length
  if u32Max < framed then none
  else if s.commandLimit - s.commandCursor < framed then none
  else
    some { s with
      heap := writeRange s.heap s.commandCursor (CommandHeader.bytes ⟨opcode, operand, framed⟩ ++ payload)
      commandCursor := s.commandCursor + framed }

abbrev Fill := List UInt8 → List UInt8 × Except WireError ℕ

/-- The window after a callback that stored `bytes` from its start. -/
def filled (window bytes : List UInt8) : List UInt8 :=
  bytes.take window.length ++ window.drop bytes.length

def withCommandRoom (s : ScratchArena) (reserved fresh : ℕ) (tableRoom : Bool) :
    Except WireError ScratchArena :=
  if s.hasCommandRoom reserved then .ok s else s.openCommandRegion reserved fresh tableRoom

/-- The part of `write_command` that runs once the open region has room. -/
def fillCommand (s : ScratchArena) (opcode operand : UInt16) (payloadBound : ℕ) (fill : Fill) :
    Except WireError CommandRecord × ScratchArena :=
  let payload := s.commandCursor + commandHeaderBytes
  let window := readRange s.heap payload payloadBound
  let (bytes, result) := fill window
  let s := { s with heap := writeRange s.heap payload (filled window bytes) }
  match result with
  | .error e => (.error e, s)
  | .ok payloadUsed =>
    if payloadBound < payloadUsed then (.error .tooLarge, s)
    else
      let used := payloadUsed + commandHeaderBytes
      let alignedUsed := (used + (commandAlignment - 1)) / commandAlignment * commandAlignment
      let s := { s with
        heap := writeRange s.heap (s.commandCursor + used) (List.replicate (alignedUsed - used) 0) }
      if u32Max < used then (.error .tooLarge, s)
      else
        (.ok ⟨opcode, operand, (filled window bytes).take payloadUsed⟩,
          { s with
            heap := writeRange s.heap s.commandCursor (CommandHeader.bytes ⟨opcode, operand, used⟩)
            commandCursor := s.commandCursor + alignedUsed })

/-- The record a successful call leaves behind stands for its `CommandAllocation`. -/
def writeCommand (t : PointerWidth) (s : ScratchArena) (opcode operand : UInt16) (payloadBound : ℕ) (fill : Fill)
    (fresh : ℕ) (tableRoom : Bool) : Except WireError CommandRecord × ScratchArena :=
  match commandReservation t payloadBound with
  | .error e => (.error e, s)
  | .ok reserved =>
    match s.withCommandRoom reserved fresh tableRoom with
    | .error e => (.error e, s)
    | .ok s => s.fillCommand opcode operand payloadBound fill

def pushInitializedRecord (t : PointerWidth) (s : ScratchArena) (tag operand : UInt16) (bound : ℕ) (fill : Fill)
    (fresh : ℕ) (tableRoom : Bool) : Except WireError CommandRecord × ScratchArena :=
  s.writeCommand t tag operand bound fill fresh tableRoom

def pushFixedRecord (t : PointerWidth) (s : ScratchArena) (tag operand : UInt16) (payloadBytes : ℕ)
    (fill : List UInt8 → List UInt8 × Except WireError Unit) (fresh : ℕ) (tableRoom : Bool) :
    Except WireError CommandRecord × ScratchArena :=
  s.pushInitializedRecord t tag operand payloadBytes
    (fun window ↦ (fill window).map id fun result ↦ result.map fun _ ↦ payloadBytes) fresh tableRoom

def alloc (t : PointerWidth) (s : ScratchArena) (data : List UInt8) (fresh : ℕ) : ℕ × ℕ × ScratchArena :=
  let (pointer, aligned, s) := s.reserve t data.length fresh
  (pointer, aligned, { s with heap := writeRange s.heap pointer data })

def allocUninit (t : PointerWidth) (s : ScratchArena) (size fresh : ℕ) : ℕ × ℕ × ScratchArena :=
  s.reserve t size fresh

/-- `none` is the panic at a byte length that leaves `usize`. -/
def allocUninitSlice (t : PointerWidth) (s : ScratchArena) (count size fresh : ℕ) :
    Option (ℕ × ℕ × ScratchArena) :=
  if count * size ≤ t.usizeMax then some (s.reserve t (count * size) fresh) else none

def clear (s : ScratchArena) : ScratchArena :=
  { s with
    chunks := (s.chunks.filter fun chunk ↦ chunk.length ≤ s.chunkSize).map fun chunk ↦ { chunk with used := 0 }
    nextChunk := 0
    payloadChunk := none
    commandChunk := none
    commandBase := 0
    commandCursor := 0
    commandLimit := 0
    commandRegions := [] }

def withChunkSize (chunkSize : ℕ) (heap : ℕ → UInt8) : ScratchArena :=
  ⟨heap, [], 0, none, none, 0, 0, 0, [], chunkSize⟩

end ScratchArena

end Mtld3d
