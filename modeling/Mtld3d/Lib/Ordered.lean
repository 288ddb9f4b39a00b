import Mathlib.Data.List.Basic

namespace Mtld3d.Lib

open List

variable {α : Type}

abbrev Entries (α : Type) := List (ℕ × α)

namespace Entries

def Ascending (l : Entries α) : Prop := l.Pairwise fun p q ↦ p.1 < q.1

def get? : Entries α → ℕ → Option α
  | [], _ => none
  | p :: l, k => if p.1 = k then some p.2 else get? l k

/-- Puts `f` of the entry at `k`, or of nothing, at `k`. -/
def upsert (k : ℕ) (f : Option α → α) : Entries α → Entries α
  | [] => [(k, f none)]
  | p :: l =>
    if k < p.1 then (k, f none) :: p :: l
    else if p.1 = k then (k, f (some p.2)) :: l
    else p :: upsert k f l

variable {l : Entries α} {k : ℕ} {f : Option α → α}

theorem get?_of_lt (h : ∀ p ∈ l, k < p.1) : get? l k = none := by
  induction l with
  | nil => rfl
  | cons p l ih =>
    have hp := h p mem_cons_self
    rw [get?, if_neg (by omega)]
    exact ih fun q hq ↦ h q (mem_cons_of_mem p hq)

theorem get?_upsert (h : Ascending l) (j : ℕ) :
    get? (upsert k f l) j = if j = k then some (f (get? l k)) else get? l j := by
  induction l with
  | nil => simp [upsert, get?, eq_comm]
  | cons p l ih =>
    obtain ⟨hhead, htail⟩ := pairwise_cons.mp h
    rw [upsert]
    by_cases hlt : k < p.1
    · have habsent : get? (p :: l) k = none := get?_of_lt fun q hq ↦ by
        obtain rfl | hq := mem_cons.mp hq
        · exact hlt
        · have := hhead q hq
          omega
      rw [if_pos hlt, habsent, get?]
      by_cases hj : k = j
      · rw [if_pos hj, if_pos hj.symm]
      · rw [if_neg hj, if_neg (Ne.symm hj)]
    rw [if_neg hlt]
    by_cases heq : p.1 = k
    · rw [if_pos heq, get?, get?, get?, if_pos heq, heq]
      by_cases hj : k = j
      · rw [if_pos hj, if_pos hj.symm]
      · rw [if_neg hj, if_neg (Ne.symm hj)]
        rw [if_neg hj]
    · rw [if_neg heq, get?, get?, get?, if_neg heq, ih htail]
      by_cases hj : p.1 = j
      · rw [if_pos hj, if_pos hj, if_neg (by omega)]
      · rw [if_neg hj, if_neg hj]

theorem key_upsert {p : ℕ × α} (hp : p ∈ upsert k f l) : p.1 = k ∨ p ∈ l := by
  induction l with
  | nil =>
    rw [mem_singleton.mp hp]
    exact .inl rfl
  | cons q l ih =>
    rw [upsert] at hp
    split at hp
    · obtain rfl | hp := mem_cons.mp hp
      · exact .inl rfl
      · exact .inr hp
    · split at hp
      · obtain rfl | hp := mem_cons.mp hp
        · exact .inl rfl
        · exact .inr (mem_cons_of_mem q hp)
      · obtain rfl | hp := mem_cons.mp hp
        · exact .inr mem_cons_self
        · exact (ih hp).imp_right (mem_cons_of_mem q)

theorem ascending_upsert (h : Ascending l) (k : ℕ) (f : Option α → α) : Ascending (upsert k f l) := by
  induction l with
  | nil => exact pairwise_singleton _ _
  | cons p l ih =>
    obtain ⟨hhead, htail⟩ := pairwise_cons.mp h
    rw [upsert]
    split
    · rename_i hlt
      refine pairwise_cons.mpr ⟨fun q hq ↦ ?_, h⟩
      obtain rfl | hq := mem_cons.mp hq
      · exact hlt
      · exact Nat.lt_trans hlt (hhead q hq)
    · split
      · rename_i heq
        exact pairwise_cons.mpr ⟨fun q hq ↦ heq ▸ hhead q hq, htail⟩
      · refine pairwise_cons.mpr ⟨fun q hq ↦ ?_, ih htail⟩
        obtain hq | hq := key_upsert hq
        · omega
        · exact hhead q hq

theorem mem_iff_get? (h : Ascending l) {p : ℕ × α} : p ∈ l ↔ get? l p.1 = some p.2 := by
  induction l with
  | nil => simp [get?]
  | cons q l ih =>
    obtain ⟨hhead, htail⟩ := pairwise_cons.mp h
    rw [get?, mem_cons]
    by_cases hq : q.1 = p.1
    · rw [if_pos hq]
      constructor
      · rintro (rfl | hp)
        · rfl
        · have := hhead p hp
          omega
      · intro hvalue
        exact .inl (Prod.ext hq.symm (Option.some.inj hvalue).symm)
    · rw [if_neg hq, ← ih htail]
      refine or_iff_right fun heq ↦ hq ?_
      rw [heq]

end Entries

end Mtld3d.Lib
