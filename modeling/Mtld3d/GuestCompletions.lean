import Mtld3d.Lib.Linked
import Mtld3d.Lib.Slots

namespace Mtld3d

open Lib

/-- Where a completion cell lives: in a slot of the pool (its acquisition or its final cell), or in a frame
packet of its own. -/
inductive CellId
  | slot (index : ℕ) (final : Bool)
  | packet (id : ℕ)
  deriving DecidableEq

def replayCompletionToken : ℕ := 18446744073709551615

def CellId.token : CellId → ℕ
  | slot index false => index * 2
  | slot index true => index * 2 + 1
  | packet _ => replayCompletionToken

def maxSlots : ℕ := 288230376151711744

structure LeaseCompletion where
  complete : ℕ
  /-- Whether the cell names the device's queue. -/
  queue : Bool
  next : Option CellId
  token : ℕ
  deriving DecidableEq

namespace LeaseCompletion

def new : LeaseCompletion := ⟨0, false, none, 0⟩

def queued (token : ℕ) : LeaseCompletion := ⟨0, true, none, token⟩

def resetQueued (_cell : LeaseCompletion) (token : ℕ) : LeaseCompletion := ⟨0, true, none, token⟩

def resetCompleted (cell : LeaseCompletion) : LeaseCompletion := { cell with queue := false, complete := 1 }

def isComplete (cell : LeaseCompletion) : Bool :=
  if cell.queue then cell.complete &&& 4 != 0 else cell.complete != 0

def wasRejected (cell : LeaseCompletion) : Bool := cell.isComplete && cell.complete &&& 3 == 2

def consumed (cell : LeaseCompletion) : LeaseCompletion := { cell with complete := cell.complete ||| 4 }

def Ready (cell : LeaseCompletion) : Prop := cell.queue = true ∧ (cell.complete = 1 ∨ cell.complete = 2)

def Open (cell : LeaseCompletion) : Prop := cell.queue = true ∧ cell.isComplete = false

instance (cell : LeaseCompletion) : Decidable cell.Open := inferInstanceAs (Decidable (_ ∧ _))

def Shape (cell : LeaseCompletion) : Prop :=
  cell.complete = 0 ∨ cell.complete = 1 ∨ cell.complete = 2 ∨ cell.complete = 5 ∨ cell.complete = 6

variable {cell : LeaseCompletion}

theorem Ready.isComplete (h : cell.Ready) : cell.isComplete = false := by
  obtain ⟨hqueue, hone | htwo⟩ := h
  · rw [LeaseCompletion.isComplete, if_pos hqueue, hone]
    rfl
  · rw [LeaseCompletion.isComplete, if_pos hqueue, htwo]
    rfl

theorem Ready.open (h : cell.Ready) : cell.Open := ⟨h.1, h.isComplete⟩

theorem Ready.consumed_complete (h : cell.Ready) : cell.consumed.complete = 5 ∨ cell.consumed.complete = 6 := by
  obtain ⟨-, hone | htwo⟩ := h
  · left
    show cell.complete ||| 4 = 5
    rw [hone]
    decide
  · right
    show cell.complete ||| 4 = 6
    rw [htwo]
    decide

theorem Ready.consumed_isComplete (h : cell.Ready) : cell.consumed.isComplete = true := by
  have hqueue : cell.consumed.queue = true := h.1
  rw [LeaseCompletion.isComplete, if_pos hqueue]
  obtain hfive | hsix := h.consumed_complete
  · rw [hfive]
    decide
  · rw [hsix]
    decide

theorem Ready.consumed_shape (h : cell.Ready) : cell.consumed.Shape :=
  .inr (.inr (.inr h.consumed_complete))

theorem not_ready_of_isComplete (h : cell.isComplete = true) : ¬cell.Ready := by
  intro hready
  rw [hready.isComplete] at h
  cases h

theorem not_open_of_isComplete (h : cell.isComplete = true) : ¬cell.Open := by
  intro hopen
  rw [hopen.2] at h
  cases h

theorem open_of_unpublished (hqueue : cell.queue = true) (h : cell.complete = 0) : cell.Open := by
  refine ⟨hqueue, ?_⟩
  rw [isComplete, if_pos hqueue, h]
  rfl

theorem Open.unpublished_or_ready (h : cell.Open) (hshape : cell.Shape) : cell.complete = 0 ∨ cell.Ready := by
  obtain ⟨hqueue, hdone⟩ := h
  rw [isComplete, if_pos hqueue] at hdone
  obtain h0 | h1 | h2 | h5 | h6 := hshape
  · exact .inl h0
  · exact .inr ⟨hqueue, .inl h1⟩
  · exact .inr ⟨hqueue, .inr h2⟩
  · rw [h5] at hdone
    cases hdone
  · rw [h6] at hdone
    cases hdone

end LeaseCompletion

end Mtld3d
