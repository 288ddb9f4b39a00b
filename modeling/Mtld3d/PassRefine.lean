import Mtld3d.PassRun

namespace Mtld3d

open Lib List

variable {V : Type}

def Machine.Determined (M : Machine V) (ps : List Pass) (m : Loc → V) (l : Loc) (v : V) : Prop :=
  ∀ os m', M.Behaves ps m os m' → m' l = v

section SameDraws

variable {M : Machine V}

/-- The passes left do what the recorded ones can: the same blits see and the same draws run with the
same contents, in the same order, and the same memory is left. -/
def SameDraws (M : Machine V) (new old : List Pass) : Prop :=
  ∀ m os m', M.Behaves new m os m' → ∃ os', M.Behaves old m os' m' ∧
    os.flatMap PassRecord.blits = os'.flatMap PassRecord.blits ∧
    os.flatMap PassRecord.draws = os'.flatMap PassRecord.draws

theorem SameDraws.cons {new old : List Pass} (h : SameDraws M new old) (p : Pass) :
    SameDraws M (p :: new) (p :: old) := by
  intro m os m' hrun
  cases hrun with
  | cons hop hrest =>
    obtain ⟨os', hold, hblits, hdraws⟩ := h _ _ _ hrest
    exact ⟨_, .cons hop hold, by simp [hblits], by simp [hdraws]⟩

theorem SameDraws.refl (M : Machine V) (ps : List Pass) : SameDraws M ps ps := fun _ os _ h ↦ ⟨os, h, rfl, rfl⟩

theorem SameDraws.trans {ps qs rs : List Pass} (h : SameDraws M ps qs) (h' : SameDraws M qs rs) :
    SameDraws M ps rs := by
  intro m os m' hrun
  obtain ⟨os₁, hrun₁, hblits₁, hdraws₁⟩ := h m os m' hrun
  obtain ⟨os₂, hrun₂, hblits₂, hdraws₂⟩ := h' m os₁ m' hrun₁
  exact ⟨os₂, hrun₂, hblits₁.trans hblits₂, hdraws₁.trans hdraws₂⟩

theorem SameDraws.append {new old : List Pass} (h : SameDraws M new old) (ps : List Pass) :
    SameDraws M (ps ++ new) (ps ++ old) := by
  induction ps with
  | nil => exact h
  | cons p ps ih => exact ih.cons p

end SameDraws

def PassRecord.sampled (o : PassRecord V) : List (Command × (Loc → Option V)) :=
  o.draws.map fun d ↦ (d.draw, d.samples)

/-- Whatever the passes left do, the recorded ones can do: they leave the same memory, the same blits
see the same, and the draws that are left sample the same. -/
def Preserves (M : Machine V) (new old : List Pass) : Prop :=
  ∀ m os m', M.Behaves new m os m' → ∃ os', M.Behaves old m os' m' ∧
    os.flatMap PassRecord.blits = os'.flatMap PassRecord.blits ∧
    (os.flatMap PassRecord.sampled).Sublist (os'.flatMap PassRecord.sampled)

namespace Preserves

variable {M : Machine V} {ps qs rs : List Pass}

theorem refl (M : Machine V) (ps : List Pass) : Preserves M ps ps :=
  fun _ os _ h ↦ ⟨os, h, rfl, Sublist.refl _⟩

theorem trans (h : Preserves M ps qs) (h' : Preserves M qs rs) : Preserves M ps rs := by
  intro m os m' hrun
  obtain ⟨os₁, hrun₁, hblits₁, hsampled₁⟩ := h m os m' hrun
  obtain ⟨os₂, hrun₂, hblits₂, hsampled₂⟩ := h' m os₁ m' hrun₁
  exact ⟨os₂, hrun₂, hblits₁.trans hblits₂, hsampled₁.trans hsampled₂⟩

theorem cons {p q : Pass} (h : Preserves M ps qs)
    (hop : ∀ m o m', M.op p m o m' → ∃ o', M.op q m o' m' ∧ o.blits = o'.blits ∧ o.sampled.Sublist o'.sampled) :
    Preserves M (p :: ps) (q :: qs) := by
  intro m os m' hrun
  cases hrun with
  | cons hp hrest =>
    obtain ⟨o', hq, hblits, hsampled⟩ := hop _ _ _ hp
    obtain ⟨os', hrest', hblits', hsampled'⟩ := h _ _ _ hrest
    refine ⟨o' :: os', .cons hq hrest', ?_, ?_⟩
    · simp [hblits, hblits']
    · simpa only [flatMap_cons] using hsampled.append hsampled'

theorem drop {p : Pass} (h : Preserves M ps qs)
    (hop : ∀ m, ∃ o, M.op p m o m ∧ o.blits = [] ∧ o.sampled = []) : Preserves M ps (p :: qs) := by
  intro m os m' hrun
  obtain ⟨o, hp, hblits, hsampled⟩ := hop m
  obtain ⟨os', hrest, hblits', hsampled'⟩ := h m os m' hrun
  refine ⟨o :: os', .cons hp hrest, ?_, ?_⟩
  · simp [hblits, hblits']
  · simpa only [flatMap_cons, hsampled, nil_append] using hsampled'

end Preserves

end Mtld3d
