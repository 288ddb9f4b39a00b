import Mathlib.Data.List.Basic

namespace Mtld3d.Lib

variable {β : Type}

/-- A run of consecutive cells to be overwritten, starting at `offset`. -/
structure Patch (β : Type) where
  offset : ℕ
  size : ℕ
  bytes : ℕ → β

namespace Patch

def Covers (u : Patch β) (p : ℕ) : Prop := u.offset ≤ p ∧ p < u.offset + u.size

instance (u : Patch β) (p : ℕ) : Decidable (u.Covers p) := by
  unfold Covers; infer_instance

def value? (u : Patch β) (p : ℕ) : Option β :=
  if u.Covers p then some (u.bytes (p - u.offset)) else none

def apply (u : Patch β) (f : ℕ → β) : ℕ → β := fun p ↦ (u.value? p).getD (f p)

variable {u : Patch β} {p : ℕ}

theorem value?_of_covers (h : u.Covers p) : u.value? p = some (u.bytes (p - u.offset)) := if_pos h

theorem value?_of_not_covers (h : ¬ u.Covers p) : u.value? p = none := if_neg h

theorem apply_of_covers (h : u.Covers p) (f : ℕ → β) :
    u.apply f p = u.bytes (p - u.offset) := by simp [apply, value?_of_covers h]

theorem apply_of_not_covers (h : ¬ u.Covers p) (f : ℕ → β) :
    u.apply f p = f p := by simp [apply, value?_of_not_covers h]

def lastWrite : List (Patch β) → ℕ → Option β
  | [], _ => none
  | u :: us, p => (lastWrite us p).or (u.value? p)

def applyAll (us : List (Patch β)) (f : ℕ → β) : ℕ → β := us.foldl (fun g u ↦ u.apply g) f

@[simp] theorem lastWrite_nil (p : ℕ) : lastWrite ([] : List (Patch β)) p = none := rfl

@[simp] theorem lastWrite_append (us vs : List (Patch β)) (p : ℕ) :
    lastWrite (us ++ vs) p = (lastWrite vs p).or (lastWrite us p) := by
  induction us with
  | nil => simp
  | cons u us ih => simp [lastWrite, ih, Option.or_assoc]

@[simp] theorem lastWrite_singleton (u : Patch β) (p : ℕ) : lastWrite [u] p = u.value? p := by
  simp [lastWrite]

@[simp] theorem applyAll_nil (f : ℕ → β) : applyAll [] f = f := rfl

@[simp] theorem applyAll_append (us vs : List (Patch β)) (f : ℕ → β) :
    applyAll (us ++ vs) f = applyAll vs (applyAll us f) := List.foldl_append

@[simp] theorem applyAll_singleton (u : Patch β) (f : ℕ → β) : applyAll [u] f = u.apply f := rfl

theorem applyAll_eq (us : List (Patch β)) (f : ℕ → β) (p : ℕ) :
    applyAll us f p = (lastWrite us p).getD (f p) := by
  induction us generalizing f with
  | nil => rfl
  | cons u us ih =>
    have h : applyAll (u :: us) f p = applyAll us (u.apply f) p := rfl
    rw [h, ih, lastWrite, apply]
    cases lastWrite us p <;> rfl

theorem apply_congr (u : Patch β) {f g : ℕ → β} (h : f p = g p) : u.apply f p = u.apply g p := by
  simp [apply, h]

theorem apply_read_back (u : Patch β) (f g : ℕ → β) :
    (Patch.mk u.offset u.size fun i ↦ u.apply f (u.offset + i)).apply g = u.apply g := by
  funext p
  by_cases hc : u.Covers p
  · have hc' : (Patch.mk u.offset u.size fun i ↦ u.apply f (u.offset + i)).Covers p := hc
    have hp : u.offset + (p - u.offset) = p := Nat.add_sub_cancel' hc.1
    rw [apply_of_covers hc']
    simp [hp, apply_of_covers hc]
  · have hc' : ¬ (Patch.mk u.offset u.size fun i ↦ u.apply f (u.offset + i)).Covers p := hc
    rw [apply_of_not_covers hc, apply_of_not_covers hc']

end Patch

end Mtld3d.Lib
