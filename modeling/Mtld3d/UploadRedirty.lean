import Mtld3d.DirtyRect
import Mtld3d.Lib.Reorder

namespace Mtld3d

def maxRedirtyAttempts : ℕ := 4

structure RedirtySubresource where
  textureId : ℕ
  index : ℕ
  deriving DecidableEq, Repr, Inhabited

structure RedirtyEntry where
  subresource : RedirtySubresource
  face : ℕ
  level : ℕ
  rect : DirtyRect
  deriving DecidableEq, Repr, Inhabited

structure EmittedUpload where
  subresource : RedirtySubresource
  level : ℕ
  generation : ℕ
  releasesStaging : Bool
  deriving DecidableEq, Repr, Inhabited

inductive UploadOutcome
  | declined
  | emitted
  deriving DecidableEq, Repr

inductive FeedbackEvent
  | emitted (upload : EmittedUpload)
  | declined (entry : RedirtyEntry)
  deriving DecidableEq, Repr, Inhabited

structure RedirtyQueue where
  declinedPending : Bool
  releasedPending : Bool
  tracked : ℕ
  pending : List RedirtyEntry
  released : List EmittedUpload
  attempts : List (RedirtySubresource × ℕ)
  deriving DecidableEq, Repr

namespace RedirtyQueue

def new : RedirtyQueue := ⟨false, false, 0, [], [], []⟩

def attemptsOf (q : RedirtyQueue) (s : RedirtySubresource) : ℕ :=
  ((Lib.lookup Prod.fst q.attempts s).map Prod.snd).getD 0

def forget (q : RedirtyQueue) (s : RedirtySubresource) : List (RedirtySubresource × ℕ) :=
  q.attempts.filter fun a ↦ a.1 ≠ s

/-- The attempt count is a `u32` that the production build lets wrap. -/
def decline (q : RedirtyQueue) (entry : RedirtyEntry) : RedirtyQueue × Bool :=
  let attempts := (q.attemptsOf entry.subresource + 1) % 4294967296
  let table := (entry.subresource, attempts) :: q.forget entry.subresource
  let retry := decide (attempts ≤ maxRedirtyAttempts)
  ({ q with
      released := q.released.filter fun r ↦ r.subresource ≠ entry.subresource
      attempts := table
      pending := if retry then q.pending ++ [entry] else q.pending
      tracked := table.length
      declinedPending := q.declinedPending || retry }, retry)

def noteEmitted (q : RedirtyQueue) (upload : EmittedUpload) : RedirtyQueue :=
  if !upload.releasesStaging && q.tracked == 0 then q
  else
    let hadRecord := (Lib.lookup Prod.fst q.attempts upload.subresource).isSome
    let table := q.forget upload.subresource
    if !upload.releasesStaging && !hadRecord then { q with attempts := table }
    else
      { q with
        attempts := table
        released := if upload.releasesStaging then q.released ++ [upload] else q.released
        tracked := table.length
        releasedPending := q.releasedPending || upload.releasesStaging }

def takePending (q : RedirtyQueue) : RedirtyQueue × List RedirtyEntry :=
  if q.declinedPending then ({ q with declinedPending := false, pending := [] }, q.pending) else (q, [])

def takeReleased (q : RedirtyQueue) : RedirtyQueue × List EmittedUpload :=
  if q.releasedPending then ({ q with releasedPending := false, released := [] }, q.released) else (q, [])

end RedirtyQueue

/-- The original queue: its event counter, its order of application, and each call made on it so far with
whether it queued its upload for re-dirtying. -/
structure RedirtyOwner where
  sequence : ℕ
  order : Lib.Reorder FeedbackEvent
  queue : RedirtyQueue
  calls : List (FeedbackEvent × Bool)

namespace RedirtyOwner

def new : RedirtyOwner := ⟨0, ⟨1, []⟩, .new, []⟩

def call (own : RedirtyOwner) : FeedbackEvent → RedirtyOwner
  | .emitted upload =>
    { own with queue := own.queue.noteEmitted upload, calls := own.calls ++ [(.emitted upload, false)] }
  | .declined entry =>
    { own with
      queue := (own.queue.decline entry).1
      calls := own.calls ++ [(.declined entry, (own.queue.decline entry).2)] }

def apply (own : RedirtyOwner) (sequence : ℕ) (event : FeedbackEvent) : RedirtyOwner :=
  let drained := (own.order.insert sequence event).drain
  drained.2.foldl call { own with order := drained.1 }

end RedirtyOwner

/-- One upload lease and its feedback cell: the event slots, the values not applied yet, and a number drawn by a
publication that has not reached its slot. -/
structure UploadLease where
  slot : UploadOutcome → ℕ
  held : UploadOutcome → Option FeedbackEvent
  drawn : Option (UploadOutcome × ℕ)

def UploadLease.new (declined : RedirtyEntry) (emitted : EmittedUpload) : UploadLease where
  slot := fun _ ↦ 0
  held
    | .declined => some (.declined declined)
    | .emitted => some (.emitted emitted)
  drawn := none

/-- A device's queue with its leases; `published` lists the events in the order they drew their numbers. -/
structure FeedbackWorld (ι : Type) where
  owner : RedirtyOwner
  leases : ι → UploadLease
  published : List (ι × UploadOutcome)

inductive FeedbackOp (ι : Type)
  /-- The first half of `publish`: the event takes its number. -/
  | draw (i : ι) (outcome : UploadOutcome)
  /-- The second half: the number reaches the event's slot. -/
  | store (i : ι)
  /-- The native proxy is dropped, and declines if nothing was answered. -/
  | dropNative (i : ι)
  /-- `maintain`; a load of a slot may have come before the slot's store. -/
  | maintain (i : ι) (missedEmitted missedDeclined : Bool)
  | takePending
  | takeReleased

namespace FeedbackWorld

variable {ι : Type} [DecidableEq ι]

def new (declined : ι → RedirtyEntry) (emitted : ι → EmittedUpload) : FeedbackWorld ι :=
  ⟨.new, fun i ↦ .new (declined i) (emitted i), []⟩

def setLease (w : FeedbackWorld ι) (i : ι) (lease : UploadLease) : FeedbackWorld ι :=
  { w with leases := Function.update w.leases i lease }

def draw (w : FeedbackWorld ι) (i : ι) (outcome : UploadOutcome) : FeedbackWorld ι :=
  if (w.leases i).drawn.isSome || (w.leases i).slot outcome != 0 then w
  else
    { w.setLease i { w.leases i with drawn := some (outcome, w.owner.sequence + 1) } with
      owner := { w.owner with sequence := w.owner.sequence + 1 }
      published := w.published ++ [(i, outcome)] }

def store (w : FeedbackWorld ι) (i : ι) : FeedbackWorld ι :=
  match (w.leases i).drawn with
  | none => w
  | some (outcome, n) =>
    w.setLease i { w.leases i with slot := Function.update (w.leases i).slot outcome n, drawn := none }

def dropNative (w : FeedbackWorld ι) (i : ι) : FeedbackWorld ι :=
  if (w.leases i).slot .emitted = 0 ∧ (w.leases i).slot .declined = 0 then w.draw i .declined else w

/-- One of `maintain`'s two events: applied once, when its slot was seen filled. -/
def applyEvent (w : FeedbackWorld ι) (i : ι) (missed : Bool) (outcome : UploadOutcome) : FeedbackWorld ι :=
  if missed || (w.leases i).slot outcome == 0 then w
  else
    match (w.leases i).held outcome with
    | none => w
    | some event =>
      { w.setLease i { w.leases i with held := Function.update (w.leases i).held outcome none } with
        owner := w.owner.apply ((w.leases i).slot outcome) event }

def step (w : FeedbackWorld ι) : FeedbackOp ι → FeedbackWorld ι
  | .draw i outcome => w.draw i outcome
  | .store i => w.store i
  | .dropNative i => w.dropNative i
  | .maintain i missedEmitted missedDeclined =>
    (w.applyEvent i missedEmitted .emitted).applyEvent i missedDeclined .declined
  | .takePending => { w with owner := { w.owner with queue := w.owner.queue.takePending.1 } }
  | .takeReleased => { w with owner := { w.owner with queue := w.owner.queue.takeReleased.1 } }

def run (w : FeedbackWorld ι) (ops : List (FeedbackOp ι)) : FeedbackWorld ι := ops.foldl step w

end FeedbackWorld

end Mtld3d
