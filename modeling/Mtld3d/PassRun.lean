import Mtld3d.Pass
import Mtld3d.Lib.Memory

namespace Mtld3d

open Lib

inductive Plane
  | color
  | depth
  | stencil
  deriving DecidableEq, Repr

/-- Storage a pass or a blit reaches: a texture, or the multisampled companion of one. -/
inductive Surface
  | texture (handle : Handle)
  | companion (handle : Handle)
  deriving DecidableEq, Repr

structure Sub where
  surface : Surface
  slice : ℕ
  level : ℕ
  plane : Plane
  deriving DecidableEq, Repr

structure Loc where
  sub : Sub
  x : ℕ
  y : ℕ
  deriving DecidableEq, Repr

inductive Target
  | color (slot : Fin 4)
  | depth
  | stencil
  deriving DecidableEq, Repr

abbrev Tile (V : Type) := Target → ℕ → ℕ → Option V

inductive StateKey
  | pipeline
  | viewport
  | depthStencil
  | cullMode
  | scissor
  | fillMode
  | depthBias
  | stencilReference
  | blendColor
  | visibility
  | vertexBuffer (index : ℕ)
  | fragmentBuffer (index : ℕ)
  | fragmentTexture (index : ℕ)
  | fragmentSampler (index : ℕ)
  | vertexTexture (index : ℕ)
  | vertexSampler (index : ℕ)
  deriving DecidableEq, Repr

namespace StateKey

def isFixed : StateKey → Bool
  | .pipeline | .viewport | .depthStencil | .cullMode | .scissor | .fillMode | .depthBias
  | .stencilReference | .blendColor | .visibility => true
  | _ => false

def textures : List StateKey := (List.range 128).flatMap fun i ↦ [.fragmentTexture i, .vertexTexture i]

end StateKey

namespace Command

def sets (c : Command) : List StateKey :=
  match c.cmd with
  | .setRenderPipelineState => [.pipeline]
  | .setViewport => [.viewport]
  | .setDepthStencilState => [.depthStencil]
  | .setCullMode => [.cullMode]
  | .setScissorRect => [.scissor]
  | .setTriangleFillMode => [.fillMode]
  | .setDepthBias => [.depthBias]
  | .setStencilReference => [.stencilReference]
  | .setBlendColor => [.blendColor]
  | .setVisibilityResultMode => [.visibility]
  | .setVertexBytes | .setVertexBytesAt | .setVertexBuffer => [.vertexBuffer c.paramA]
  | .setFragmentBytesAt | .setFragmentBuffer => [.fragmentBuffer c.paramA]
  | .setFragmentTexture => [.fragmentTexture c.paramA]
  | .setFragmentSamplerState => [.fragmentSampler c.paramA]
  | .setFragmentNullTexture => [.fragmentTexture c.paramA, .fragmentSampler c.paramA]
  | .setVertexTexture => [.vertexTexture c.paramA]
  | .setVertexSamplerState => [.vertexSampler c.paramA]
  | .setVertexNullTexture => [.vertexTexture c.paramA, .vertexSampler c.paramA]
  | .drawPrimitives | .drawIndexedPrimitives | .drawIndexedPrimitivesUp | .pushDebugGroup
  | .popDebugGroup => []

def freshBlendColorCommand : Command := ⟨.setBlendColor, 0, 0, 0, 0⟩

def setsFreshValue (c : Command) : Bool :=
  if c.cmd = .setVisibilityResultMode then decide (c.paramA = 0)
  else [⟨.setTriangleFillMode, 0, 0, 0, 0⟩, ⟨.setDepthBias, 0, 0, 0, 0⟩, ⟨.setStencilReference, 0, 0, 0, 0⟩,
    freshBlendColorCommand].any fun value ↦ decide (c = value)

end Command

abbrev EncoderState := StateKey → Option Command

def EncoderState.fresh : EncoderState := fun _ ↦ none

def EncoderState.step (σ : EncoderState) (c : Command) : EncoderState := fun k ↦
  if k ∈ c.sets then (if c.setsFreshValue then none else some c) else σ k

inductive LoadAction (V : Type)
  | load
  | clear (value : V)
  | dontCare

/-- What the GPU does, left open: the bits a clear and a resolve write through a view, and the effect
of a blit and of a draw on what they are given to read. -/
structure Gpu (V : Type) where
  clearColor : Handle → (r g b a : ℕ) → V
  clearDepth : ℕ → V
  clearStencil : ℕ → V
  resolve : Handle → V → V
  blit : BlitCommand → (Loc → Option V) → Loc → V
  /-- Both ends of a depth transfer are of the combined format. -/
  transfersStencil : BlitCommand → Bool
  /-- Bindings a draw reads, decided by its pipeline. -/
  reads : Command → Option Command → StateKey → Bool
  draw : Command → EncoderState → (Loc → Option V) → (Fin 4 → Handle) → Tile V → Target → ℕ → ℕ → V


structure DrawRecord (V : Type) where
  draw : Command
  state : EncoderState
  samples : Loc → Option V
  tile : Tile V

/-- What the parts of a pass read: each leading blit, each attachment it loads, and each draw. -/
structure PassRecord (V : Type) where
  blits : List (Loc → Option V)
  loads : Tile V
  draws : List (DrawRecord V)

/-- Undefined contents: what a discarding load finds in the tiles and leaves in the rest of the plane,
and what a discarding store leaves. -/
structure Garbage (V : Type) where
  tile : Target → ℕ → ℕ → V
  loads : Loc → V
  stores : Loc → V

namespace PassColorAttachment

def surface (a : PassColorAttachment) : Surface :=
  if a.msaaTexture = 0 then .texture a.texture else .companion a.msaaTexture

end PassColorAttachment

namespace Pass

variable (p : Pass)

def attaches : Target → Bool
  | .color i => (p.color i).isBound
  | .depth => decide (p.depthTexture ≠ 0)
  | .stencil => decide (p.depthTexture ≠ 0) && p.depthFlags.hasStencil

def sub : Target → Sub
  | .color i => ⟨(p.color i).surface, (p.color i).slice, (p.color i).level, .color⟩
  | .depth => ⟨.texture p.depthTexture, 0, p.depthLevel, .depth⟩
  | .stencil => ⟨.texture p.depthTexture, 0, p.depthLevel, .stencil⟩

def storeOf : Target → StoreAction
  | .color i => (p.color i).store
  | .depth => p.depthStore
  | .stencil => p.stencilStore

def attachedViews (i : Fin 4) : Handle := if (p.color i).isBound then (p.color i).attachmentTexture else 0

def targets : List Target := (List.finRange 4).map .color ++ [.depth, .stencil]

def aliased (t : Target) : Bool :=
  targets.any fun t' ↦ decide (t' ≠ t) && p.attaches t' && decide (p.sub t' = p.sub t)

def sizeOf : Target → ℕ × ℕ
  | .color i => (p.color i).size
  | .depth | .stencil => p.depthSize

def ownArea (t : Target) (x y : ℕ) : Bool := decide (x < (p.sizeOf t).1) && decide (y < (p.sizeOf t).2)

def smallestArea (_ : Target) (x y : ℕ) : Bool := targets.all fun t ↦ !p.attaches t || p.ownArea t x y

theorem ownArea_iff {t : Target} {x y : ℕ} :
    p.ownArea t x y = true ↔ x < (p.sizeOf t).1 ∧ y < (p.sizeOf t).2 := by
  simp [ownArea]

theorem mem_targets (t : Target) : t ∈ targets := by
  cases t with
  | color i => simp [targets]
  | depth => simp [targets]
  | stencil => simp [targets]

theorem eq_of_sub_eq {t t' : Target} (ht : p.aliased t = false) (ht' : p.attaches t' = true)
    (hsub : p.sub t' = p.sub t) : t' = t := by
  by_contra hne
  have := List.any_eq_false.mp ht t' (mem_targets t')
  simp [hne, ht', hsub] at this

theorem ownArea_of_smallestArea {t t' : Target} {x y : ℕ} (ht : p.attaches t = true)
    (h : p.smallestArea t' x y = true) : p.ownArea t x y = true := by
  have := List.all_eq_true.mp h t (mem_targets t)
  simpa [ht] using this

end Pass

/-- A GPU together with the views registered for the submission, and whether a pass is confined to the
smallest of its attachments. -/
structure Machine (V : Type) extends Gpu V where
  views : ViewMap
  confined : Bool

namespace BlitCommand

variable (b : BlitCommand)

def inRegion (x₀ y₀ x y : ℕ) : Bool :=
  decide (x₀ ≤ x) && decide (x < x₀ + b.regionW) && decide (y₀ ≤ y) && decide (y < y₀ + b.regionH)

def dstX : ℕ := b.dstOffset % 4294967296

def dstY : ℕ := b.dstOffset / 4294967296 % 4294967296

/-- Slices a copy from `first` spans; the planes of a volume count as slices. -/
def inSlices (first slice : ℕ) : Bool := decide (first ≤ slice) && decide (slice < first + max b.depth 1)

end BlitCommand

namespace Machine

variable {V : Type} (M : Machine V)

def storage (h : Handle) : Handle := if h = 0 then 0 else (M.views h).getD h

def blitReads (b : BlitCommand) (l : Loc) : Bool :=
  match b.cmd with
  | some .copyTextureToTexture =>
    decide (l.sub.surface = .texture (M.storage b.srcHandle)) && b.inSlices b.srcSlice l.sub.slice &&
      decide (l.sub.level = b.mipLevel) && b.inRegion b.originX b.originY l.x l.y
  | some .transferDepth =>
    decide (l.sub.surface = .texture (M.storage b.srcHandle)) && decide (l.sub.level = b.mipLevel)
  | some .generateMipmaps =>
    decide (l.sub.surface = .texture (M.storage b.dstHandle)) && decide (l.sub.level = 0)
  | _ => false

def uploadWrites (b : BlitCommand) (plane : Plane) (l : Loc) : Bool :=
  decide (l.sub.surface = .texture (M.storage b.dstHandle)) && b.inSlices b.dstOffset l.sub.slice &&
    decide (l.sub.level = b.mipLevel) && decide (l.sub.plane = plane) && b.inRegion b.originX b.originY l.x l.y

def blitWrites (b : BlitCommand) (l : Loc) : Bool :=
  match b.cmd with
  | some .copyTextureToTexture =>
    decide (l.sub.surface = .texture (M.storage b.dstHandle)) && b.inSlices b.dstSlice l.sub.slice &&
      decide (l.sub.level = b.dstMipLevel) && b.inRegion b.dstX b.dstY l.x l.y
  | some .transferDepth =>
    -- the whole level, whatever the region says; the stencil plane only between combined formats
    decide (l.sub.surface = .texture (M.storage b.dstHandle)) && decide (l.sub.slice = 0) &&
      decide (l.sub.level = b.dstMipLevel) &&
      (decide (l.sub.plane = .depth) || decide (l.sub.plane = .stencil) && M.transfersStencil b)
  | some .generateMipmaps =>
    decide (l.sub.surface = .texture (M.storage b.dstHandle)) && decide (l.sub.level ≠ 0)
  | some .copyBufferToTexture => M.uploadWrites b .color l
  | some .copyBufferToDepth => M.uploadWrites b .depth l
  | some .copyBufferToStencil => M.uploadWrites b .stencil l
  | some .copyBufferToBuffer | some .notifyBufferDidModifyRange | none => false

def seen (b : BlitCommand) (m : Loc → V) : Loc → Option V := restrict (M.blitReads b) m

def runBlit (m : Loc → V) (b : BlitCommand) : Loc → V :=
  overwrite (M.blitWrites b) (M.blit b (M.seen b m)) m

def runBlits (m : Loc → V) : List BlitCommand → Loc → V
  | [] => m
  | b :: bs => runBlits (M.runBlit m b) bs

def blitRecords (m : Loc → V) : List BlitCommand → List (Loc → Option V)
  | [] => []
  | b :: bs => M.seen b m :: blitRecords (M.runBlit m b) bs

def area (p : Pass) (t : Target) (x y : ℕ) : Bool :=
  if M.confined then p.smallestArea t x y else p.ownArea t x y

def reaches (p : Pass) (t : Target) (x y : ℕ) : Bool := p.attaches t && M.area p t x y

def recordedLoad (p : Pass) : Target → LoadAction V
  | .color i => match (p.color i).load with
    | .load => .load
    | .clear r g b a => .clear (M.clearColor (p.color i).attachmentTexture r g b a)
    | .dontCare => .dontCare
  | .depth => match p.depthLoad with
    | .load => .load
    | .clear value => .clear (M.clearDepth value)
    | .dontCare => .dontCare
  | .stencil => match p.stencilLoad with
    | .load => .load
    | .clear value => .clear (M.clearStencil value)
    | .dontCare => .dontCare

def loadAction (p : Pass) (t : Target) : LoadAction V := if p.aliased t then .dontCare else M.recordedLoad p t

def storeAction (p : Pass) (t : Target) : StoreAction := if p.aliased t then .dontCare else p.storeOf t

def loadTexel (p : Pass) (g : Garbage V) (m : Loc → V) (t : Target) (x y : ℕ) : V :=
  match M.loadAction p t with
  | .load => m ⟨p.sub t, x, y⟩
  | .clear value => value
  | .dontCare => g.tile t x y

def loadTile (p : Pass) (g : Garbage V) (m : Loc → V) : Tile V := fun t x y ↦
  if M.reaches p t x y then some (M.loadTexel p g m t x y) else none

def loadRecord (p : Pass) (m : Loc → V) : Tile V := fun t x y ↦
  match M.loadAction p t with
  | .load => if M.reaches p t x y then some (m ⟨p.sub t, x, y⟩) else none
  | _ => none

def visible (σ : EncoderState) (c : Command) : EncoderState := fun k ↦
  if k.isFixed || M.reads c (σ .pipeline) k then σ k else none

def sampleReads (σ : EncoderState) (l : Loc) : Bool :=
  StateKey.textures.any fun k ↦ match (σ k).bind Command.sampledTexture with
    | none => false
    | some h => decide (l.sub.surface = .texture (M.storage h))

end Machine

structure CommandState (V : Type) where
  state : EncoderState
  tile : Tile V
  draws : List (DrawRecord V)

namespace Machine

variable {V : Type} (M : Machine V)

def drawRecord (m : Loc → V) (s : CommandState V) (c : Command) : DrawRecord V :=
  let σ := M.visible s.state c
  ⟨c, σ, restrict (M.sampleReads σ) m, s.tile⟩

def drawTile (views : Fin 4 → Handle) (d : DrawRecord V) : Tile V := fun t x y ↦
  (d.tile t x y).map fun _ ↦ M.draw d.draw d.state d.samples views d.tile t x y

def runCommand (views : Fin 4 → Handle) (m : Loc → V) (s : CommandState V) (c : Command) : CommandState V :=
  if c.isDraw then
    let d := M.drawRecord m s c
    { s with tile := M.drawTile views d, draws := s.draws ++ [d] }
  else { s with state := s.state.step c }

def runCommands (p : Pass) (g : Garbage V) (m : Loc → V) : CommandState V :=
  p.commands.foldl (M.runCommand p.attachedViews m) ⟨.fresh, M.loadTile p g m, []⟩

def around (p : Pass) (g : Garbage V) (m : Loc → V) (t : Target) (l : Loc) : V :=
  match M.loadAction p t with
  | .dontCare => g.loads l
  | _ => m l

def storeTarget (p : Pass) (g : Garbage V) (tile : Tile V) (m : Loc → V) (t : Target) : Loc → V := fun l ↦
  if p.attaches t && decide (l.sub = p.sub t) then
    match storeAction p t with
    | .store => (tile t l.x l.y).getD (M.around p g m t l)
    | .dontCare => g.stores l
  else m l

def resolveTarget (p : Pass) (tile : Tile V) (m : Loc → V) (i : Fin 4) : Loc → V := fun l ↦
  let a := p.color i
  if a.isBound && decide (a.resolveTexture ≠ 0) &&
      decide (l.sub = ⟨.texture (M.storage a.resolveTexture), a.slice, a.level, .color⟩) then
    ((tile (.color i) l.x l.y).map (M.resolve a.resolveTexture)).getD (m l)
  else m l

def storeTile (p : Pass) (g : Garbage V) (tile : Tile V) (m : Loc → V) : Loc → V :=
  (List.finRange 4).foldl (M.resolveTarget p tile) (Pass.targets.foldl (M.storeTarget p g tile) m)

def runBody (p : Pass) (g : Garbage V) (m : Loc → V) : Loc → V :=
  M.storeTile p g (M.runCommands p g m).tile m

def run (p : Pass) (g : Garbage V) (m : Loc → V) : Loc → V := M.runBody p g (M.runBlits m p.leadingBlits)

def record (p : Pass) (g : Garbage V) (m : Loc → V) : PassRecord V :=
  let m' := M.runBlits m p.leadingBlits
  ⟨M.blitRecords m p.leadingBlits, M.loadRecord p m', (M.runCommands p g m').draws⟩

def op (p : Pass) : Op Loc V (PassRecord V) := fun m o m' ↦ ∃ g, o = M.record p g m ∧ m' = M.run p g m

/-- What a submission can do from `m`: what its passes read, in order, and what it leaves. -/
def Behaves (ps : List Pass) (m : Loc → V) (os : List (PassRecord V)) (m' : Loc → V) : Prop :=
  Runs (ps.map M.op) m os m'

end Machine

end Mtld3d
