import Mtld3d.GuestCompletions

namespace Mtld3d

open Function Lib

inductive PacketLease
  | page (slot : ℕ)
  | ownedPage (slot : ℕ)
  | query (slot : ℕ)
  | redirty (events finals : ℕ)
  deriving DecidableEq

abbrev CellStore := CellId → LeaseCompletion

namespace PacketLease

def slots : PacketLease → List ℕ
  | page slot | ownedPage slot | query slot => [slot]
  | redirty events finals => [events, finals]

def primary : PacketLease → ℕ
  | page slot | ownedPage slot | query slot => slot
  | redirty events _ => events

def reusable (cells : CellStore) (slot : ℕ) : Bool :=
  (cells (.slot slot true)).isComplete && (cells (.slot slot false)).isComplete

def maintain (cells : CellStore) : PacketLease → Bool
  | page slot | query slot => reusable cells slot
  | ownedPage slot => (cells (.slot slot true)).isComplete
  | redirty events finals => reusable cells finals && reusable cells events

/-- `into_slots`, or nothing where one of its assertions fails. -/
def intoSlots (cells : CellStore) : PacketLease → Option (List ℕ)
  | page slot | query slot => some [slot]
  | ownedPage slot => if (cells (.slot slot true)).isComplete then some [slot] else none
  | redirty events finals =>
    if reusable cells events && reusable cells finals then some [events, finals] else none

end PacketLease

structure FramePacket where
  /-- Names the packet's own replay completion cell. -/
  id : ℕ
  leases : List PacketLease
  admitted : Bool
  cancelled : Bool
  recordingError : Bool
  deriving DecidableEq

namespace FramePacket

def wasRejected (cells : CellStore) (p : FramePacket) : Bool := (cells (.packet p.id)).wasRejected

def replayConsumed (cells : CellStore) (p : FramePacket) : Bool := (cells (.packet p.id)).isComplete

def canRetireLeases (cells : CellStore) (p : FramePacket) : Bool :=
  !p.recordingError && p.replayConsumed cells && (p.cancelled || (p.admitted && !p.wasRejected cells))

def takeLeases (cells : CellStore) (p : FramePacket) : List PacketLease × FramePacket :=
  if p.admitted && p.canRetireLeases cells then (p.leases, { p with leases := [] }) else ([], p)

def maintain (cells : CellStore) (p : FramePacket) : List PacketLease × FramePacket × Bool :=
  if p.canRetireLeases cells then
    (p.leases.filter (·.maintain cells), { p with leases := p.leases.filter fun lease ↦ !lease.maintain cells },
      (p.leases.filter fun lease ↦ !lease.maintain cells).isEmpty)
  else ([], p, false)

end FramePacket

/-- The device's completion pool, its retained packets and its lease registry, with the leases of the frames
still recording, the packets on their way through submission, and a record of what went on. -/
structure RetirementWorld where
  cells : CellStore
  head : Option CellId
  /-- The top of the stack first. -/
  free : List ℕ
  allocated : ℕ
  recording : List PacketLease
  submitting : List FramePacket
  pending : List FramePacket
  entries : List (Option PacketLease)
  aliases : List (Option ℕ)
  /-- Slots retired and not recycled. -/
  retired : List ℕ
  packets : ℕ
  /-- The cells put in use for a notification, each time they were. -/
  opened : List CellId
  /-- The cells whose tokens the consumer was given. -/
  given : List CellId
  /-- The slots allocated, each time they were. -/
  leased : List ℕ
  /-- The slots of the leases retired. -/
  returned : List ℕ

namespace RetirementWorld

def new : RetirementWorld where
  cells := fun _ ↦ .new
  head := none
  free := []
  allocated := 0
  recording := []
  submitting := []
  pending := []
  entries := []
  aliases := []
  retired := []
  packets := 0
  opened := []
  given := []
  leased := []
  returned := []

variable (w : RetirementWorld)

def next (c : CellId) : Option CellId := (w.cells c).next

/-- `publish_state`: only the first publication of a cell takes effect. -/
def publish (c : CellId) (state : ℕ) : RetirementWorld :=
  if (w.cells c).complete ≠ 0 then w
  else if (w.cells c).queue then
    { w with
      cells := update w.cells c { w.cells c with complete := state, next := w.head }
      head := some c }
  else { w with cells := update w.cells c { w.cells c with complete := state } }

def reset (index : ℕ) (needsAcquire : Bool) : RetirementWorld :=
  let acquired := w.cells (.slot index false)
  let acquired := if needsAcquire then acquired.resetQueued (index * 2) else acquired.resetCompleted
  let cells := update w.cells (.slot index false) acquired
  { w with
    cells := update cells (.slot index true) ((cells (.slot index true)).resetQueued (index * 2 + 1))
    opened := .slot index true :: if needsAcquire then .slot index false :: w.opened else w.opened
    leased := index :: w.leased }

/-- `CompletionPool::allocate`; nothing where the address space holds no further slot. -/
def allocate (needsAcquire : Bool) : Option (ℕ × RetirementWorld) :=
  match w.free with
  | index :: free => some (index, { w with free := free }.reset index needsAcquire)
  | [] =>
    if w.allocated < maxSlots then
      some (w.allocated, { w with allocated := w.allocated + 1 }.reset w.allocated needsAcquire)
    else none

inductive LeaseKind
  | page | ownedPage | query | redirty

def capture : LeaseKind → Option RetirementWorld
  | .page => do
    let (slot, w) ← w.allocate true
    pure { w with recording := .page slot :: w.recording }
  | .ownedPage => do
    let (slot, w) ← w.allocate false
    pure { w with recording := .ownedPage slot :: w.recording }
  | .query => do
    let (slot, w) ← w.allocate false
    pure { w with recording := .query slot :: w.recording }
  | .redirty => do
    let (events, w) ← w.allocate true
    let (finals, w) ← w.allocate false
    pure { w with recording := .redirty events finals :: w.recording }

def sealFrame (leases rest : List PacketLease) (recordingError : Bool) : RetirementWorld :=
  { w with
    cells := update w.cells (.packet w.packets) (.queued replayCompletionToken)
    recording := rest
    submitting := ⟨w.packets, leases, false, false, recordingError⟩ :: w.submitting
    packets := w.packets + 1
    opened := .packet w.packets :: w.opened }

def addAliases (primary : ℕ) (aliases : List (Option ℕ)) (tokens : List ℕ) : Option (List (Option ℕ)) :=
  tokens.foldlM (fun aliases token ↦
    let aliases := grow aliases (token + 1)
    -- "completion alias is unique"
    if (slotAt aliases token).isSome then none else some (aliases.set token (some primary))) aliases

def clearAliases (aliases : List (Option ℕ)) (tokens : List ℕ) : Option (List (Option ℕ)) :=
  tokens.foldlM (fun aliases token ↦ if token < aliases.length then some (aliases.set token none) else none) aliases

def retire (slots : List ℕ) : RetirementWorld :=
  { w with retired := w.retired ++ slots, returned := slots ++ w.returned }

def insert (lease : PacketLease) : Option RetirementWorld :=
  if lease.maintain w.cells then (lease.intoSlots w.cells).map w.retire
  else
    let entries := grow w.entries (lease.primary + 1)
    -- "completion owner is unique"
    if (slotAt entries lease.primary).isSome then none
    else
      (addAliases lease.primary w.aliases lease.slots).map fun aliases ↦
        { w with entries := entries.set lease.primary (some lease), aliases := aliases }

def notify (event : ℕ) : Option RetirementWorld :=
  if event = replayCompletionToken then some w
  else
    match slotAt w.aliases (event / 2) with
    | none => some w
    | some primary =>
      match slotAt w.entries primary with
      | none => some w
      | some lease =>
        if lease.maintain w.cells then do
          let aliases ← clearAliases w.aliases lease.slots
          let slots ← lease.intoSlots w.cells
          pure ({ w with entries := w.entries.set primary none, aliases := aliases }.retire slots)
        else some w

/-- `CompletionQueue::requeue`; the walk to the last node passes no more nodes than there are cells. -/
def requeue (first : CellId) : Option RetirementWorld :=
  (lastNode w.next (2 * w.allocated + w.packets) first).map fun last ↦
    { w with
      cells := update w.cells last { w.cells last with next := w.head }
      head := some first }

def consume (c : CellId) : RetirementWorld :=
  { w with cells := update w.cells c (w.cells c).consumed, given := c :: w.given }

/-- The loop of `CompletionPool::drain` over a detached list. -/
def drainFrom : ℕ → Option CellId → RetirementWorld → Option RetirementWorld
  | _, none, w => some w
  | 0, some c, w => w.requeue c
  | budget + 1, some c, w => do
    let w' ← (w.consume c).notify (w.cells c).token
    drainFrom budget (w.cells c).next w'

def drain (budget : ℕ) : Option RetirementWorld := drainFrom budget w.head { w with head := none }

/-- `CompletionPool::recycle`, with its assertion. -/
def recycle (slot : ℕ) : Option RetirementWorld :=
  if PacketLease.reusable w.cells slot then some { w with free := slot :: w.free } else none

def recycleLease (lease : PacketLease) : Option RetirementWorld := do
  let slots ← lease.intoSlots w.cells
  slots.foldlM recycle { w with returned := slots ++ w.returned }

def recycleRetired : Option RetirementWorld :=
  if w.retired.all (PacketLease.reusable w.cells) then
    some { w with free := w.retired.reverse ++ w.free, retired := [] }
  else none

def visit (p : FramePacket) : Option RetirementWorld := do
  let w' ← (p.takeLeases w.cells).1.foldlM insert w
  let own := (p.takeLeases w.cells).2.maintain w'.cells
  let w' ← own.1.foldlM recycleLease w'
  pure (if own.2.2 then w' else { w' with pending := w'.pending ++ [own.2.1] })

def walk : ℕ → RetirementWorld → Option RetirementWorld
  | 0, w => some w
  | n + 1, w =>
    match w.pending with
    | [] => some w
    | p :: rest => do
      let w' ← { w with pending := rest }.visit p
      walk n w'

def maintain (budget : ℕ) : Option RetirementWorld := do
  let w ← w.drain budget
  let w ← walk w.pending.length w
  w.recycleRetired

def pushSubmitted (i : ℕ) (p : FramePacket) (synchronous : Bool) (budget : ℕ) : Option RetirementWorld :=
  let w' := { w with submitting := w.submitting.eraseIdx i, pending := w.pending ++ [p] }
  if synchronous || p.replayConsumed w.cells then w'.maintain budget else some w'

def markAdmitted (i : ℕ) : RetirementWorld :=
  { w with submitting := w.submitting.modify i fun p ↦ { p with admitted := true } }

def Exposed : CellId → Prop
  | .slot index _ => index < w.allocated ∧ index ∉ w.free
  | .packet id => ∃ p ∈ w.submitting ++ w.pending, p.id = id

inductive Step : RetirementWorld → RetirementWorld → Prop
  | capture {w w' : RetirementWorld} (kind : LeaseKind) : w.capture kind = some w' → Step w w'
  | sealFrame {w : RetirementWorld} {leases rest : List PacketLease} (recordingError : Bool) :
    w.recording.Perm (leases ++ rest) → Step w (w.sealFrame leases rest recordingError)
  | markAdmitted {w : RetirementWorld} (i : ℕ) : Step w (w.markAdmitted i)
  | submitted {w w' : RetirementWorld} {i : ℕ} {p : FramePacket} (synchronous : Bool) (budget : ℕ) :
    w.submitting[i]? = some p → w.pushSubmitted i p synchronous budget = some w' → Step w w'
  | publish {w : RetirementWorld} {c : CellId} (rejected : Bool) :
    w.Exposed c → Step w (w.publish c (if rejected then 2 else 1))
  | drain {w w' : RetirementWorld} (budget : ℕ) : w.drain budget = some w' → Step w w'
  | maintain {w w' : RetirementWorld} (budget : ℕ) : w.maintain budget = some w' → Step w w'

def Reached (w : RetirementWorld) : Prop := Relation.ReflTransGen Step new w

end RetirementWorld

end Mtld3d
