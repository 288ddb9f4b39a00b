import Mtld3d.Lib.BitPairs
import Mtld3d.Lib.Slots
import Mtld3d.PipelineRecipe
import Mtld3d.VertexDecl

namespace Mtld3d

open Lib

structure VertexFetchBinding where
  stream : Fin maxStreams
  offset : ℕ
  deriving DecidableEq, Repr

inductive VertexFetchError
  | streamOutOfRange
  | attributeWiderThanStride
  | unalignedOffset
  | outsideBuffer
  | noFreeSlot
  deriving DecidableEq, Repr

abbrev StreamLayouts := Fin maxStreams → StreamLayout

namespace VertexAttrDesc

def fits (a : VertexAttrDesc) (stride : ℕ) : Bool :=
  decide (a.offset + a.format.byteSize < 2 ^ 32) && decide (a.offset + a.format.byteSize ≤ stride)

def stream (a : VertexAttrDesc) : Fin maxStreams := Fin.ofNat 16 a.bufferIndex

end VertexAttrDesc

structure StreamMasks where
  reserved : Finset (Fin maxStreams)
  read : Finset (Fin maxStreams)

namespace StreamMasks

def empty : StreamMasks := ⟨∅, ∅⟩

def scanAttr (original : StreamLayouts) (m : StreamMasks) (a : VertexAttrDesc) :
    Except VertexFetchError StreamMasks :=
  if h : a.bufferIndex < maxStreams then
    let index : Fin maxStreams := ⟨a.bufferIndex, h⟩
    if (original index).stride < a.format.byteSize then .error .attributeWiderThanStride
    else if a.fits (original index).stride then .ok ⟨insert index m.reserved, insert index m.read⟩
    else .ok ⟨m.reserved, insert index m.read⟩
  else .error .streamOutOfRange

def scan (original : StreamLayouts) : StreamMasks → List VertexAttrDesc → Except VertexFetchError StreamMasks
  | m, [] => .ok m
  | m, a :: attrs => do
    let m ← scanAttr original m a
    scan original m attrs

end StreamMasks

/-- The slot tables while crossing attributes are handed their slots. -/
structure Placement where
  reserved : Finset (Fin maxStreams)
  layouts : StreamLayouts
  bindings : Fin maxStreams → VertexFetchBinding

namespace Placement

def start (original : StreamLayouts) (reserved : Finset (Fin maxStreams)) : Placement where
  reserved := reserved
  layouts := fun i ↦ if i ∈ reserved then original i else .unused
  bindings := fun i ↦ ⟨i, 0⟩

def slotFor (read : Finset (Fin maxStreams)) (p : Placement) (index : Fin maxStreams) :
    Option (Fin maxStreams) :=
  if index ∈ p.reserved then lowestFree (p.reserved ∪ read) else some index

def take (original : StreamLayouts) (p : Placement) (a : VertexAttrDesc) (slot : Fin maxStreams) :
    Placement where
  reserved := insert slot p.reserved
  layouts := Function.update p.layouts slot (original a.stream)
  bindings := Function.update p.bindings slot ⟨a.stream, a.offset⟩

def placeAttr (original : StreamLayouts) (read : Finset (Fin maxStreams)) (p : Placement) (a : VertexAttrDesc) :
    Except VertexFetchError (Placement × VertexAttrDesc) :=
  if a.fits (original a.stream).stride then .ok (p, a)
  else
    match p.slotFor read a.stream with
    | none => .error .noFreeSlot
    | some slot => .ok (p.take original a slot, { a with bufferIndex := slot.val, offset := 0 })

def placeAttrs (original : StreamLayouts) (read : Finset (Fin maxStreams)) :
    Placement → List VertexAttrDesc → Except VertexFetchError (Placement × List VertexAttrDesc)
  | p, [] => .ok (p, [])
  | p, a :: attrs => do
    let (p, b) ← placeAttr original read p a
    let (p, rest) ← placeAttrs original read p attrs
    .ok (p, b :: rest)

end Placement

structure RemappedFetch where
  attrs : List VertexAttrDesc
  layouts : StreamLayouts
  bindings : Fin maxStreams → VertexFetchBinding

def remapCrossingAttributes (attrs : List VertexAttrDesc) (layouts : StreamLayouts) :
    Except VertexFetchError RemappedFetch := do
  let m ← StreamMasks.scan layouts .empty attrs
  let (p, remapped) ← Placement.placeAttrs layouts m.read (.start layouts m.reserved) attrs
  .ok ⟨remapped, p.layouts, p.bindings⟩

def offsetShift (offset : ℕ) : ℕ := offset &&& 3

def streamShifts (streams : List (Fin maxStreams × ℕ)) : ℕ :=
  streams.foldl (fun shifts s ↦ shifts ||| (offsetShift s.2 <<< (2 * s.1.val))) 0

def slotBindingOffset (streamOffset advance : ℕ) : ℕ :=
  (streamOffset - streamOffset % 4 + advance) % 2 ^ 32

structure CrossingFetch where
  attrs : List VertexAttrDesc
  layouts : StreamLayouts
  bindings : Fin maxStreams → VertexFetchBinding
  usedSlots : Finset (Fin maxStreams)
  shifts : ℕ
  streamLayouts : StreamLayouts
  source : Option (ℕ × ℕ)

namespace CrossingFetch

def empty : CrossingFetch where
  attrs := []
  layouts := fun _ ↦ .unused
  bindings := fun _ ↦ ⟨⟨0, by decide⟩, 0⟩
  usedSlots := ∅
  shifts := 0
  streamLayouts := fun _ ↦ .unused
  source := none

def shiftAttr (bindings : Fin maxStreams → VertexFetchBinding) (shifts : ℕ) (a : VertexAttrDesc) :
    VertexAttrDesc :=
  { a with offset := (a.offset + bitPair shifts (bindings a.stream).stream.val) % 2 ^ 32 }

def rebuild (f : CrossingFetch) (attrs : List VertexAttrDesc) (layouts : StreamLayouts) (shifts : ℕ) :
    Except VertexFetchError CrossingFetch :=
  if maxStreams < attrs.length then .error .noFreeSlot
  else do
    let r ← remapCrossingAttributes attrs layouts
    .ok { f with
      attrs := r.attrs.map (shiftAttr r.bindings shifts)
      layouts := r.layouts
      bindings := r.bindings
      usedSlots := Finset.univ.filter fun slot ↦ (r.layouts slot).isUsed
      shifts := shifts
      streamLayouts := layouts }

def reuseOrRebuild (f : CrossingFetch) (record : ℕ) (attrs : List VertexAttrDesc) (layouts : StreamLayouts)
    (shifts : ℕ) : Except VertexFetchError Unit × CrossingFetch :=
  if f.source = some (record, shifts) ∧ f.streamLayouts = layouts then (.ok (), f)
  else
    match f.rebuild attrs layouts shifts with
    | .error e => (.error e, { f with source := none })
    | .ok f => (.ok (), { f with source := some (record, shifts) })

def forgetSource (f : CrossingFetch) : CrossingFetch := { f with source := none }

def slotsOf (f : CrossingFetch) (stream : Fin maxStreams) : List (Fin maxStreams × ℕ) :=
  ((List.finRange maxStreams).filter fun slot ↦ slot ∈ f.usedSlots ∧ (f.bindings slot).stream = stream).map
    fun slot ↦ (slot, (f.bindings slot).offset)

end CrossingFetch

end Mtld3d
