import Mtld3d.Lib.Keyed
import Mtld3d.Lib.Run
import Mtld3d.Lib.Table
import Mtld3d.Pass

namespace Mtld3d

open Lib

def feedMemoryFrames : ℕ := 600

inductive ClearPlane
  | color | depth | stencil
  deriving DecidableEq, Repr

structure ClearPlanes where
  color : Bool
  depth : Bool
  stencil : Bool
  deriving DecidableEq, Repr

def ClearPlanes.iter (planes : ClearPlanes) : List ClearPlane :=
  (if planes.color then [.color] else []) ++ (if planes.depth then [.depth] else []) ++
    if planes.stencil then [.stencil] else []

structure ClearRecord where
  last : ℕ
  before : ℕ
  deriving DecidableEq, Repr

def ClearRecord.touch (frame : ℕ) (record : ClearRecord) : ClearRecord :=
  if record.last = frame then record else ⟨frame, record.last⟩

structure ClearKey where
  subresource : ℕ
  plane : ClearPlane
  deriving DecidableEq, Repr

abbrev ClearEntry := ClearKey × ClearRecord

def ClearEntry.touch (frame : ℕ) (entry : ClearEntry) : ClearEntry := (entry.1, entry.2.touch frame)

/-- One plane of the loop in `record`: the entry at its position, pushed first where there is none. -/
def recordPlane (frame : ℕ) (clears : List ClearEntry) (key : ClearKey) : List ClearEntry :=
  match clears.findIdx? fun entry ↦ entry.1 == key with
  | some index => clears.modify index (ClearEntry.touch frame)
  | none => (clears ++ [(key, ClearRecord.mk 0 0)]).modify clears.length (ClearEntry.touch frame)

structure TextureHistory where
  clears : List ClearEntry
  fedKept : ℕ
  deriving DecidableEq, Repr

namespace TextureHistory

def default : TextureHistory := ⟨[], 0⟩

def fedWithin (history : TextureHistory) (frame : ℕ) : Bool :=
  decide (history.fedKept ≠ 0) && decide (frame ≤ history.fedKept + feedMemoryFrames)

def prune (frame : ℕ) (history : TextureHistory) : Option TextureHistory :=
  let kept := { history with clears := history.clears.filter fun entry ↦ frame ≤ entry.2.last + 1 }
  if !kept.clears.isEmpty || kept.fedWithin frame then some kept else none

end TextureHistory

structure ClearHistory where
  frame : ℕ
  textures : Table Handle TextureHistory

namespace ClearHistory

def new : ClearHistory := ⟨1, ∅⟩

variable (h : ClearHistory)

def isEmpty : Bool := h.textures.entries.isEmpty

def beginFrame : ClearHistory :=
  let frame := h.frame + 1
  ⟨frame, h.textures.retain (TextureHistory.prune frame)⟩

def entry (texture : Handle) : TextureHistory := (h.textures.lookup texture).getD .default

def record (texture : Handle) (subresource : ℕ) (planes : ClearPlanes) : ClearHistory :=
  if texture = 0 then h
  else
    let history := h.entry texture
    let clears := (planes.iter.map (ClearKey.mk subresource)).foldl (recordPlane h.frame) history.clears
    { h with textures := h.textures.insert texture { history with clears := clears } }

def regenerated (texture : Handle) (subresource : ℕ) (plane : ClearPlane) : Bool :=
  match h.textures.lookup texture with
  | none => false
  | some history =>
    match lookup Prod.fst history.clears ⟨subresource, plane⟩ with
    | none => false
    | some found =>
      decide (found.2.last = h.frame) && decide (found.2.before ≠ 0) && decide (found.2.before + 1 = h.frame)

def tracks (texture : Handle) : Bool :=
  match h.textures.lookup texture with
  | none => false
  | some history => !history.clears.isEmpty

def markFeedsPersistent (texture : Handle) : ClearHistory × Bool :=
  if texture = 0 then (h, false)
  else
    let history := h.entry texture
    ({ h with textures := h.textures.insert texture { history with fedKept := h.frame } },
      !history.fedWithin h.frame)

def feedsPersistent (texture : Handle) : Bool :=
  match h.textures.lookup texture with
  | none => false
  | some history => history.fedWithin h.frame

def forget (texture : Handle) : ClearHistory := { h with textures := h.textures.erase texture }

def clear : ClearHistory := { h with textures := ∅ }

inductive Call
  | beginFrame
  | record (texture : Handle) (subresource : ℕ) (planes : ClearPlanes)
  | markFeedsPersistent (texture : Handle)
  | forget (texture : Handle)
  | clear

def call (h : ClearHistory) : Call → ClearHistory
  | .beginFrame => h.beginFrame
  | .record texture subresource planes => h.record texture subresource planes
  | .markFeedsPersistent texture => (h.markFeedsPersistent texture).1
  | .forget texture => h.forget texture
  | .clear => h.clear

def run (trace : List Call) : ClearHistory := trace.foldr (fun c h ↦ h.call c) new

namespace Call

def frameOf : List Call → ℕ
  | [] => 1
  | .beginFrame :: older => frameOf older + 1
  | _ :: older => frameOf older

def Forgets (texture : Handle) : Call → Prop
  | .forget t => t = texture
  | .clear => True
  | _ => False

/-- A clear of the plane in `frame`; a null handle names no texture, so nothing is on record for it. -/
def Clears (texture : Handle) (key : ClearKey) (frame : ℕ) (c : Call) (older : List Call) : Prop :=
  texture ≠ 0 ∧ frameOf older = frame ∧
    ∃ planes, c = .record texture key.subresource planes ∧ key.plane ∈ planes.iter

def Feeds (texture : Handle) (frame : ℕ) (c : Call) (older : List Call) : Prop :=
  texture ≠ 0 ∧ frameOf older = frame ∧ c = .markFeedsPersistent texture

/-- The plane was recorded in `frame`, and the texture has not been forgotten since. -/
def RecordedIn (trace : List Call) (texture : Handle) (key : ClearKey) (frame : ℕ) : Prop :=
  Since (Clears texture key frame) (Forgets texture) trace

def MarkedIn (trace : List Call) (texture : Handle) (frame : ℕ) : Prop :=
  Since (Feeds texture frame) (Forgets texture) trace

end Call

end ClearHistory

end Mtld3d
