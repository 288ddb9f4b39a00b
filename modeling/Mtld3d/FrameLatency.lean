import Mathlib.Data.List.Basic
import Mtld3d.Lib.Run

namespace Mtld3d

open List

def defaultFrameLatency : ℕ := 3

def maxFrameLatency : ℕ := 30

/-- Presents the ring keeps: the newest and the `MAX_FRAME_LATENCY` before it. -/
def latencyRing : ℕ := maxFrameLatency + 1

def enforcedFrameLatency (requested : Option ℕ) (configured : ℕ) : ℕ :=
  if configured ≠ 0 then configured else requested.getD defaultFrameLatency

def eventCompleted (endSeq coherentSeq : ℕ) : Prop := endSeq = 0 ∨ endSeq ≤ coherentSeq

instance (endSeq coherentSeq : ℕ) : Decidable (eventCompleted endSeq coherentSeq) :=
  inferInstanceAs (Decidable (_ ∨ _))

/-- Whether the frame submitted at `target` finished, from the draw counter and the paced floor. -/
def frameFinished (target drawRetired pacedRetired : ℕ) : Prop :=
  eventCompleted target drawRetired ∧ eventCompleted target pacedRetired

instance (target drawRetired pacedRetired : ℕ) : Decidable (frameFinished target drawRetired pacedRetired) :=
  inferInstanceAs (Decidable (_ ∧ _))

structure FrameLatency where
  requested : Option ℕ
  configured : ℕ
  presents : List ℕ
  newest : ℕ
  deriving DecidableEq, Repr

namespace FrameLatency

def new (configured : ℕ) : FrameLatency := ⟨none, configured, List.replicate latencyRing 0, 0⟩

def enforced (l : FrameLatency) : ℕ := enforcedFrameLatency l.requested l.configured

def set (l : FrameLatency) (requested : ℕ) : FrameLatency := { l with requested := some requested }

def recordPresent (l : FrameLatency) (seq : ℕ) : FrameLatency × Option ℕ :=
  let newest := (l.newest + 1) % latencyRing
  let presents := l.presents.set newest seq
  let target := presents.getD ((newest + latencyRing - l.enforced) % latencyRing) 0
  ({ l with presents, newest }, if target ≠ 0 then some target else none)

structure Rings (l : FrameLatency) (recorded : List ℕ) : Prop where
  length : l.presents.length = latencyRing
  newest_lt : l.newest < latencyRing
  back : ∀ b < latencyRing,
    l.presents.getD ((l.newest + latencyRing - b) % latencyRing) 0 = recorded.reverse.getD b 0

theorem rings_new (configured : ℕ) : (new configured).Rings [] where
  length := by simp [new]
  newest_lt := Nat.zero_lt_succ _
  back := fun b _ ↦ by
    simp only [new, reverse_nil, getD_nil]
    rw [getD_eq_getElem?_getD, List.getElem?_replicate]
    split_ifs <;> rfl

theorem Rings.recordPresent {l : FrameLatency} {recorded : List ℕ} (h : l.Rings recorded) (seq : ℕ) :
    (l.recordPresent seq).1.Rings (recorded ++ [seq]) where
  length := by simp [FrameLatency.recordPresent, h.length]
  newest_lt := Nat.mod_lt _ (by decide)
  back := fun b hb ↦ by
    have hlen := h.length
    have hnew := h.newest_lt
    have hback := h.back (b - 1)
    simp only [FrameLatency.recordPresent, reverse_append, reverse_singleton, singleton_append]
    simp only [latencyRing, maxFrameLatency, Nat.reduceAdd] at *
    cases b with
    | zero =>
      have hidx : ((l.newest + 1) % 31 + 31 - 0) % 31 = (l.newest + 1) % 31 := by omega
      rw [hidx, getD_cons_zero, getD_eq_getElem?_getD,
        List.getElem?_set_self (by rw [hlen]; exact Nat.mod_lt _ (by decide))]
      rfl
    | succ b =>
      rw [Nat.add_sub_cancel] at hback
      have hidx : ((l.newest + 1) % 31 + 31 - (b + 1)) % 31 = (l.newest + 31 - b) % 31 := by omega
      have hne : (l.newest + 1) % 31 ≠ (l.newest + 31 - b) % 31 := by omega
      rw [hidx, getD_cons_succ, ← hback (by omega), getD_eq_getElem?_getD,
        List.getElem?_set_ne hne, ← getD_eq_getElem?_getD]

theorem Rings.target {l : FrameLatency} {recorded : List ℕ} (h : l.Rings recorded) {seq target : ℕ}
    (hle : l.enforced ≤ latencyRing) (ht : (l.recordPresent seq).2 = some target) :
    target ≠ 0 ∧ target = (recorded ++ [seq]).reverse.getD (l.enforced % latencyRing) 0 := by
  have hback := (h.recordPresent seq).back (l.enforced % latencyRing) (Nat.mod_lt _ (by decide))
  have hidx : ((l.newest + 1) % latencyRing + latencyRing - l.enforced) % latencyRing =
      ((l.newest + 1) % latencyRing + latencyRing - l.enforced % latencyRing) % latencyRing := by
    simp only [latencyRing, maxFrameLatency, Nat.reduceAdd] at *
    omega
  simp only [FrameLatency.recordPresent] at hback ht
  rw [← hback, ← hidx]
  split_ifs at ht with hne
  · cases ht
    exact ⟨hne, rfl⟩

end FrameLatency

/-- The paced presents owed, oldest first, and what was noted last; `floor` says the counter is attached. -/
structure SignalState where
  paced : List ℕ
  latest : ℕ
  floor : Bool
  ended : Bool
  deriving DecidableEq, Repr

namespace SignalState

def new : SignalState := ⟨[], 0, false, true⟩

def attach (_ : SignalState) : SignalState := ⟨[], 0, true, false⟩

def noteSubmission (s : SignalState) (seq : ℕ) (paced : Bool) : SignalState :=
  if s.ended || seq == 0 then s
  else { s with latest := max s.latest seq, paced := if paced then s.paced ++ [seq] else s.paced }

def releasePaced (s : SignalState) : SignalState := { s with paced := [] }

def releaseThrough (s : SignalState) (seq : ℕ) : SignalState := { s with paced := s.paced.filter (seq < ·) }

def endSignal (s : SignalState) : SignalState := { s with ended := true, paced := [], floor := false }

def resolve (s : SignalState) (seq : ℕ) : SignalState :=
  if seq ∈ s.paced then { s with paced := s.paced.erase seq } else s

def floorOf (s : SignalState) : ℕ := s.paced.head?.elim s.latest (· - 1)

end SignalState

/-- A device: the signal, the counters of the encoder it serves, and what `Present` recorded.

`attachment` numbers the encoders served so far; `owed` are the paced presents of the current one that were
neither resolved by a mark of theirs nor released, and `marks` every mark handed out, with its attachment. -/
structure FrameWorld where
  signal : SignalState
  published : ℕ
  draw : ℕ
  latency : FrameLatency
  recorded : List ℕ
  waiting : Option (ℕ × ℕ)
  attachment : ℕ
  owed : List ℕ
  marks : List (ℕ × ℕ)
  deriving DecidableEq, Repr

inductive FrameOp
  /-- A new encoder, with counters and recorded presents of its own. -/
  | attach (configured : ℕ)
  | setLatency (requested : ℕ)
  | note (seq : ℕ) (paced : Bool)
  /-- A mark is resolved or dropped. -/
  | resolve (attachment seq : ℕ)
  | releasePaced
  | releaseThrough (seq : ℕ)
  | endSignal
  /-- The draw buffers up to `seq` ended. -/
  | retire (seq : ℕ)
  /-- `Present` records its submission and starts to wait. -/
  | present (seq : ℕ)
  /-- `Present` returns: its frame is finished by the counters or the signal, or the cap fired. -/
  | finish
  | giveUp
  deriving DecidableEq, Repr

namespace FrameWorld

def new : FrameWorld := ⟨.new, 0, 0, .new 0, [], none, 0, [], []⟩

def publish (w : FrameWorld) (signal : SignalState) : FrameWorld :=
  { w with signal, published := if signal.floor then max w.published signal.floorOf else w.published }

def releaseThrough (w : FrameWorld) (seq : ℕ) : FrameWorld :=
  { w.publish (w.signal.releaseThrough seq) with owed := w.owed.filter (seq < ·) }

/-- The wait of `Present` for `target` may end: the counters say so, or the signal under its lock. -/
def Finished (w : FrameWorld) (target : ℕ) : Prop :=
  frameFinished target w.draw w.published ∨
    w.signal.ended = false ∧ target ≤ w.draw ∧ target ≤ w.signal.floorOf

instance (w : FrameWorld) (target : ℕ) : Decidable (w.Finished target) := inferInstanceAs (Decidable (_ ∨ _))

def step (w : FrameWorld) : FrameOp → FrameWorld
  | .attach configured =>
    { w with
      signal := w.signal.attach, published := 0, draw := 0, latency := .new configured, recorded := []
      waiting := none, attachment := w.attachment + 1, owed := [] }
  | .setLatency requested => { w with latency := w.latency.set requested }
  | .note seq paced =>
    if w.signal.ended || seq == 0 then w
    else
      { w.publish (w.signal.noteSubmission seq paced) with
        owed := if paced then w.owed ++ [seq] else w.owed
        marks := if paced then w.marks ++ [(w.attachment, seq)] else w.marks }
  | .resolve attachment seq =>
    { if seq ∈ w.signal.paced then w.publish (w.signal.resolve seq) else w with
      owed := if attachment = w.attachment then w.owed.erase seq else w.owed }
  | .releasePaced => { w.publish w.signal.releasePaced with owed := [] }
  | .releaseThrough seq => w.releaseThrough seq
  | .endSignal => { w with signal := w.signal.endSignal }
  | .retire seq => { w with draw := max w.draw seq }
  | .present seq =>
    { w with
      latency := (w.latency.recordPresent seq).1
      recorded := w.recorded ++ [seq]
      waiting := (w.latency.recordPresent seq).2.map (·, w.latency.enforced) }
  | .finish => { w with waiting := none }
  | .giveUp =>
    match w.waiting with
    | some (target, _) => { w.releaseThrough target with waiting := none }
    | none => w

/-- What the callers and the other threads do: sequences grow within an encoder, marks are those handed out, a
submission is noted before its draw buffer commits, and the latency stays within the ring. -/
def Caller (w : FrameWorld) : FrameOp → Prop
  | .attach configured => configured ≤ latencyRing
  | .setLatency requested => requested ≤ latencyRing
  | .note seq _ => w.signal.latest < seq
  | .resolve attachment seq => (attachment, seq) ∈ w.marks
  | .retire seq => w.signal.ended = true ∨ seq ≤ w.signal.latest
  | .present seq => w.waiting = none ∧ ∀ past ∈ w.recorded, past < seq
  | .finish => ∃ wait ∈ w.waiting, w.Finished wait.1
  | .giveUp => w.signal.ended = false ∧ ∃ wait ∈ w.waiting, wait.1 ≤ w.draw
  | _ => True

instance (w : FrameWorld) (op : FrameOp) : Decidable (w.Caller op) := by
  cases op <;> unfold Caller <;> infer_instance

def OwnMark (w : FrameWorld) : FrameOp → Prop
  | .resolve attachment seq => attachment = w.attachment ∨ seq ∉ w.signal.paced
  | _ => True

end FrameWorld

end Mtld3d
