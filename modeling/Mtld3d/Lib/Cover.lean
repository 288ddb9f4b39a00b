import Mathlib.Data.List.Basic

namespace Mtld3d.Lib

open List

/-- How far intervals, walked in the order of the list, reach from `s` before the first gap. -/
def reach : ℕ → List (ℕ × ℕ) → ℕ
  | s, [] => s
  | s, p :: l => if s < p.1 then s else reach (max s p.2) l

theorem le_reach_iff {l : List (ℕ × ℕ)} (hsorted : l.Pairwise fun p q ↦ p.1 ≤ q.1) {n s : ℕ} :
    n ≤ reach s l ↔ ∀ i, s ≤ i → i < n → ∃ p ∈ l, p.1 ≤ i ∧ i < p.2 := by
  induction l generalizing s with
  | nil =>
    rw [reach]
    refine ⟨fun hn i hs hi ↦ absurd (Nat.lt_of_lt_of_le hi hn) (Nat.not_lt.mpr hs), fun h ↦ ?_⟩
    refine Nat.le_of_not_lt fun hlt ↦ ?_
    obtain ⟨p, hp, -⟩ := h s (Nat.le_refl s) hlt
    cases hp
  | cons p l ih =>
    obtain ⟨hhead, htail⟩ := pairwise_cons.mp hsorted
    rw [reach]
    by_cases hgap : s < p.1
    · rw [if_pos hgap]
      refine ⟨fun hn i hs hi ↦ absurd (Nat.lt_of_lt_of_le hi hn) (Nat.not_lt.mpr hs), fun h ↦ ?_⟩
      refine Nat.le_of_not_lt fun hlt ↦ ?_
      obtain ⟨q, hq, hle, -⟩ := h s (Nat.le_refl s) hlt
      obtain rfl | hq := mem_cons.mp hq
      · omega
      · have := hhead q hq
        omega
    · rw [if_neg hgap, ih htail]
      constructor
      · intro h i hs hi
        by_cases hin : i < p.2
        · exact ⟨p, mem_cons_self, by omega, hin⟩
        · obtain ⟨q, hq, hcover⟩ := h i (by omega) hi
          exact ⟨q, mem_cons_of_mem _ hq, hcover⟩
      · intro h i hs hi
        obtain ⟨q, hq, hcover⟩ := h i (by omega) hi
        obtain rfl | hq := mem_cons.mp hq
        · omega
        · exact ⟨q, hq, hcover⟩

def dedupAdjacent : List ℕ → List ℕ
  | a :: b :: l => if a = b then dedupAdjacent (b :: l) else a :: dedupAdjacent (b :: l)
  | l => l

variable {l : List ℕ}

theorem mem_dedupAdjacent {v : ℕ} : v ∈ dedupAdjacent l ↔ v ∈ l := by
  fun_induction dedupAdjacent l with
  | case1 a l ih => rw [ih]; simp
  | case2 a b l hne ih => rw [mem_cons, ih, mem_cons (a := v) (b := a)]
  | case3 l _ => rfl

theorem pairwise_dedupAdjacent (h : l.Pairwise (· ≤ ·)) : (dedupAdjacent l).Pairwise (· < ·) := by
  fun_induction dedupAdjacent l with
  | case1 a l ih => exact ih (pairwise_cons.mp h).2
  | case2 a b l hne ih =>
    obtain ⟨ha, hl⟩ := pairwise_cons.mp h
    refine pairwise_cons.mpr ⟨fun v hv ↦ ?_, ih hl⟩
    rw [mem_dedupAdjacent] at hv
    have hab := ha b mem_cons_self
    obtain rfl | hv := mem_cons.mp hv
    · omega
    · have := (pairwise_cons.mp hl).1 v hv
      omega
  | case3 l hshort =>
    cases l with
    | nil => exact .nil
    | cons a l =>
      cases l with
      | nil => exact pairwise_singleton _ _
      | cons b l => exact absurd rfl (hshort a b l)

def windows (l : List ℕ) : List (ℕ × ℕ) := l.zip l.tail

theorem windows_cons_cons (a b : ℕ) (l : List ℕ) : windows (a :: b :: l) = (a, b) :: windows (b :: l) := rfl

theorem windows_gap (h : l.Pairwise (· < ·)) {p : ℕ × ℕ} (hp : p ∈ windows l) :
    p.1 ∈ l ∧ p.2 ∈ l ∧ p.1 < p.2 ∧ ∀ v ∈ l, v ≤ p.1 ∨ p.2 ≤ v := by
  induction l with
  | nil => cases hp
  | cons a l ih =>
    obtain ⟨ha, hl⟩ := pairwise_cons.mp h
    cases l with
    | nil => cases hp
    | cons b l =>
      rw [windows_cons_cons] at hp
      obtain rfl | hp := mem_cons.mp hp
      · refine ⟨by simp, by simp, ha b (by simp), fun v hv ↦ ?_⟩
        obtain rfl | hv := mem_cons.mp hv
        · exact .inl (Nat.le_refl _)
        · obtain rfl | hv := mem_cons.mp hv
          · exact .inr (Nat.le_refl _)
          · exact .inr (Nat.le_of_lt ((pairwise_cons.mp hl).1 v hv))
      · obtain ⟨h₁, h₂, hlt, hgap⟩ := ih hl hp
        refine ⟨mem_cons_of_mem _ h₁, mem_cons_of_mem _ h₂, hlt, fun v hv ↦ ?_⟩
        obtain rfl | hv := mem_cons.mp hv
        · exact .inl (Nat.le_of_lt (ha p.1 h₁))
        · exact hgap v hv

theorem exists_window {a z y : ℕ} (hfirst : l.head? = some a) (hlast : l.getLast? = some z)
    (hy : a ≤ y) (hz : y < z) : ∃ p ∈ windows l, p.1 ≤ y ∧ y < p.2 := by
  induction l generalizing a with
  | nil => cases hfirst
  | cons b l ih =>
    cases hfirst
    cases l with
    | nil =>
      have hbz : b = z := Option.some.inj hlast
      omega
    | cons c l =>
      rw [windows_cons_cons]
      by_cases hc : y < c
      · exact ⟨(b, c), mem_cons_self, hy, hc⟩
      · obtain ⟨p, hp, hin⟩ := ih rfl (by simpa using hlast) (Nat.le_of_not_lt hc)
        exact ⟨p, mem_cons_of_mem _ hp, hin⟩

end Mtld3d.Lib
