import Mathlib.Data.Set.Function
import Mathlib.Tactic.Common

namespace Mtld3d.Lib

section

variable {L V O : Type}

def restrict (S : L → Bool) (m : L → V) (l : L) : Option V := if S l then some (m l) else none

def overwrite (S : L → Bool) (v m : L → V) (l : L) : V := if S l then v l else m l

/-- Two memories agree on every location outside `D`. -/
abbrev EqOff (D : Set L) (m₁ m₂ : L → V) : Prop := Set.EqOn m₁ m₂ Dᶜ

variable {D : Set L} {S : L → Bool} {m₁ m₂ m₃ : L → V}

theorem EqOff.mono {D' : Set L} (h : EqOff D m₁ m₂) (hD : D ⊆ D') : EqOff D' m₁ m₂ :=
  Set.EqOn.mono (Set.compl_subset_compl.mpr hD) h

theorem EqOff.eq_of_empty (h : EqOff ∅ m₁ m₂) : m₁ = m₂ := by
  funext l
  exact h (Set.notMem_empty l)

theorem EqOff.restrict_eq (h : EqOff D m₁ m₂) (hS : ∀ l, S l = true → l ∉ D) :
    restrict S m₁ = restrict S m₂ := by
  funext l
  by_cases hl : S l = true
  · simp only [restrict, hl, if_true]
    exact congrArg some (h (hS l hl))
  · simp [restrict, hl]

theorem EqOff.overwrite (h : EqOff D m₁ m₂) (v : L → V) :
    EqOff (D \ {l | S l = true}) (Lib.overwrite S v m₁) (Lib.overwrite S v m₂) := by
  intro l hl
  by_cases hS : S l = true
  · simp [Lib.overwrite, hS]
  · simp only [Lib.overwrite, hS, Bool.false_eq_true, if_false]
    exact h fun hD ↦ hl ⟨hD, hS⟩

abbrev Op (L V O : Type) := (L → V) → O → (L → V) → Prop

inductive Runs : List (Op L V O) → (L → V) → List O → (L → V) → Prop
  | nil (m : L → V) : Runs [] m [] m
  | cons {op : Op L V O} {ops : List (Op L V O)} {m m₁ m' : L → V} {o : O} {os : List O} :
      op m o m₁ → Runs ops m₁ os m' → Runs (op :: ops) m (o :: os) m'

end

section

open List

variable {κ β : Type} [DecidableEq κ] {α : κ → Type} {g : (k : κ) → α k} {k : κ}

/-- `f` with the values of `g` at the keys of a list. -/
def overlay (ks : List κ) (g f : (k : κ) → α k) (k : κ) : α k := if k ∈ ks then g k else f k

theorem overlay_append (ks ls : List κ) (g f : (k : κ) → α k) :
    overlay (ks ++ ls) g f = overlay ls g (overlay ks g f) := by
  funext k
  unfold overlay
  by_cases hl : k ∈ ls
  · rw [if_pos (mem_append_right _ hl), if_pos hl]
  · rw [if_neg hl]
    exact if_congr (mem_append.trans (or_iff_left hl)) rfl rfl

theorem overlay_singleton (k : κ) (g f : (k : κ) → α k) : overlay [k] g f = Function.update f k (g k) := by
  funext j
  by_cases h : j = k
  · subst h
    rw [overlay, if_pos mem_cons_self, Function.update_self]
  · rw [overlay, if_neg fun hmem ↦ h (mem_singleton.mp hmem), Function.update_of_ne h]

/-- A loop whose steps each overlay their own keys overlays all of them. -/
theorem foldl_overlay {step : ((k : κ) → α k) → β → (k : κ) → α k} {keys : β → List κ} {l : List β}
    (h : ∀ b ∈ l, ∀ f, step f b k = overlay (keys b) g f k) (f : (k : κ) → α k) :
    l.foldl step f k = overlay (l.flatMap keys) g f k := by
  induction l generalizing f with
  | nil => rfl
  | cons b l ih =>
    rw [foldl_cons, ih fun c hc ↦ h c (mem_cons_of_mem b hc), flatMap_cons, overlay_append, overlay,
      h b mem_cons_self]
    rfl

end

section

variable {τ α : Type} {cells : τ → Prop} {stamp stamp' : τ → ℕ} {held : ℕ} {m live live' : τ → α}

/-- A copy taken when the write count was `held` still shows every cell that no later write stamped. -/
def Agrees (cells : τ → Prop) (stamp : τ → ℕ) (held : ℕ) (m live : τ → α) : Prop :=
  ∀ t, cells t → stamp t ≤ held → m t = live t

theorem Agrees.mono {cells' : τ → Prop} (h : Agrees cells stamp held m live) (hcells : ∀ t, cells' t → cells t) :
    Agrees cells' stamp held m live := fun t ht hs ↦ h t (hcells t ht) hs

theorem Agrees.write {next : ℕ} {cells' : τ → Prop} (h : Agrees cells stamp held m live) (hnext : held < next)
    (hstamp : ∀ t, cells' t → stamp' t = stamp t ∨ stamp' t = next)
    (hchange : ∀ t, cells' t → stamp' t ≠ next → cells t ∧ live' t = live t) :
    Agrees cells' stamp' held m live' := by
  intro t ht hs
  have hold : stamp' t ≠ next := by omega
  obtain ⟨hcell, hsame⟩ := hchange t ht hold
  rw [hsame]
  exact h t hcell ((hstamp t ht).resolve_right hold ▸ hs)

theorem Agrees.relive (h : Agrees cells stamp held m live) (hsame : ∀ t, cells t → live' t = live t) :
    Agrees cells stamp held m live' := fun t ht hs ↦ (h t ht hs).trans (hsame t ht).symm

end

end Mtld3d.Lib
