import Mathlib.Data.List.Basic

namespace Mtld3d.Lib

open List

variable {α β S : Type}

def sweep (step : S → α → Option β × S) : S → List α → List β
  | _, [] => []
  | s, a :: as => (step s a).1.toList ++ sweep step (step s a).2 as

/-- For each position and the end, how many of the items before it are kept, on top of `n`. -/
def keptCounts (step : S → α → Option β × S) : S → ℕ → List α → List ℕ
  | _, n, [] => [n]
  | s, n, a :: as => n :: keptCounts step (step s a).2 (n + (step s a).1.toList.length) as

/-- The kept items with the positions they came from, counted from `i`. -/
def survivors (step : S → α → Option β × S) : S → ℕ → List α → List (ℕ × β)
  | _, _, [] => []
  | s, i, a :: as => (step s a).1.toList.map (fun b ↦ (i, b)) ++ survivors step (step s a).2 (i + 1) as

theorem mapM_eq_map {f : α → Option β} {g : α → β} {as : List α} (h : ∀ a ∈ as, f a = some (g a)) :
    as.mapM f = some (as.map g) := by
  induction as with
  | nil => rfl
  | cons a as ih =>
    have htail := ih fun b hb ↦ h b (mem_cons_of_mem a hb)
    simp [mapM_cons, h a mem_cons_self, htail]

variable {step : S → α → Option β × S} {s : S} {as : List α} {i j k n c : ℕ} {b : β}

theorem map_snd_survivors : (survivors step s i as).map Prod.snd = sweep step s as := by
  induction as generalizing s i with
  | nil => rfl
  | cons a as ih =>
    rw [survivors, sweep, map_append, ih]
    cases (step s a).1 <;> rfl

theorem length_keptCounts : (keptCounts step s n as).length = as.length + 1 := by
  induction as generalizing s n with
  | nil => rfl
  | cons a as ih => rw [keptCounts, length_cons, ih, length_cons]

theorem le_keptCounts (h : (keptCounts step s n as)[k]? = some c) : n ≤ c := by
  induction as generalizing s n k with
  | nil =>
    cases k with
    | zero =>
      cases h
      exact Nat.le_refl _
    | succ k => cases h
  | cons a as ih =>
    cases k with
    | zero =>
      cases h
      exact Nat.le_refl _
    | succ k =>
      have htail := ih h
      omega

theorem le_survivors {p : ℕ × β} (h : p ∈ survivors step s i as) : i ≤ p.1 := by
  induction as generalizing s i with
  | nil => cases h
  | cons a as ih =>
    rcases mem_append.mp h with h | h
    · obtain ⟨b, -, rfl⟩ := mem_map.mp h
      exact Nat.le_refl _
    · have htail := ih h
      omega

theorem lt_keptCounts_iff {p : ℕ × β} (hc : (keptCounts step s n as)[k]? = some c)
    (hp : (survivors step s i as)[j]? = some p) : n + j < c ↔ p.1 < i + k := by
  induction as generalizing s n i j k with
  | nil => cases hp
  | cons a as ih =>
    cases k with
    | zero =>
      cases hc
      have hlow := le_survivors (mem_of_getElem? hp)
      omega
    | succ k =>
      rw [keptCounts, List.getElem?_cons_succ] at hc
      rw [survivors] at hp
      cases hstep : (step s a).1 with
      | none =>
        rw [hstep] at hc hp
        simp only [Option.toList_none, length_nil, Nat.add_zero] at hc
        have htail := ih hc hp
        omega
      | some b =>
        rw [hstep] at hc hp
        have hlow := le_keptCounts hc
        simp only [Option.toList_some, length_singleton] at hc hlow
        cases j with
        | zero =>
          cases hp
          simp only
          omega
        | succ j =>
          have htail := ih hc hp
          omega

end Mtld3d.Lib
