import Mtld3d.Lib.Keyed

namespace Mtld3d.Lib

open List

/-- A buffer that hands numbered items on in order: the number due next and the items that came early. -/
structure Reorder (α : Type) where
  next : ℕ
  early : List (ℕ × α)

namespace Reorder

variable {α : Type}

def insert (r : Reorder α) (n : ℕ) (a : α) : Reorder α :=
  { r with early := (n, a) :: r.early.filter fun p ↦ p.1 ≠ n }

def advance (r : Reorder α) : Reorder α := ⟨r.next + 1, r.early.filter fun p ↦ p.1 ≠ r.next⟩

theorem length_advance {r : Reorder α} {p : ℕ × α} (h : lookup Prod.fst r.early r.next = some p) :
    r.advance.early.length < r.early.length := by
  refine length_filter_lt_length_iff_exists.2 ⟨p, mem_of_lookup h, ?_⟩
  simp [key_of_lookup h]

def drain (r : Reorder α) : Reorder α × List α :=
  match _h : lookup Prod.fst r.early r.next with
  | none => (r, [])
  | some p => (r.advance.drain.1, p.2 :: r.advance.drain.2)
termination_by r.early.length
decreasing_by all_goals exact length_advance _h

/-- Items `item first`, `item (first + 1)`, … of which those in `arrived` came in, and `out` went on. -/
structure Holds (first : ℕ) (item : ℕ → α) (arrived : ℕ → Prop) (r : Reorder α) (out : List α) : Prop where
  first_le : first ≤ r.next
  out_eq : out = (List.range' first (r.next - first)).map item
  early_iff : ∀ n a, (n, a) ∈ r.early ↔ arrived n ∧ r.next ≤ n ∧ a = item n
  arrived_of_lt : ∀ n, first ≤ n → n < r.next → arrived n

variable {first : ℕ} {item : ℕ → α} {arrived : ℕ → Prop} {r : Reorder α} {out : List α}

theorem Holds.congr (h : Holds first item arrived r out) {item' : ℕ → α} {arrived' : ℕ → Prop}
    (harrived : ∀ n, arrived' n ↔ arrived n) (hitem : ∀ n, arrived n → item' n = item n) :
    Holds first item' arrived' r out where
  first_le := h.first_le
  out_eq := by
    rw [h.out_eq]
    refine map_congr_left fun n hn ↦ (hitem n ?_).symm
    obtain ⟨hge, hlt⟩ := mem_range'_1.1 hn
    exact h.arrived_of_lt n hge (by have := h.first_le; omega)
  early_iff := fun n a ↦ by
    rw [h.early_iff, harrived]
    refine and_congr_right fun harr ↦ ?_
    rw [hitem n harr]
  arrived_of_lt := fun n hn hlt ↦ (harrived n).2 (h.arrived_of_lt n hn hlt)

theorem Holds.insert (h : Holds first item arrived r out) {n : ℕ} (hfirst : first ≤ n) (hn : ¬arrived n) :
    Holds first item (fun m ↦ m = n ∨ arrived m) (r.insert n (item n)) out where
  first_le := h.first_le
  out_eq := h.out_eq
  early_iff := fun m a ↦ by
    have hnext : r.next ≤ n := Nat.le_of_not_lt fun hlt ↦ hn (h.arrived_of_lt n hfirst hlt)
    simp only [Reorder.insert, mem_cons, Prod.mk.injEq, mem_filter, h.early_iff, decide_eq_true_eq]
    constructor
    · rintro (⟨rfl, rfl⟩ | ⟨⟨harr, hle, ha⟩, -⟩)
      · exact ⟨.inl rfl, hnext, rfl⟩
      · exact ⟨.inr harr, hle, ha⟩
    · rintro ⟨rfl | harr, hle, rfl⟩
      · exact .inl ⟨rfl, rfl⟩
      · refine .inr ⟨⟨harr, hle, rfl⟩, ?_⟩
        rintro rfl
        exact hn harr
  arrived_of_lt := fun m hm hlt ↦ .inr (h.arrived_of_lt m hm hlt)

theorem Holds.lookup_next (h : Holds first item arrived r out) {p : ℕ × α}
    (hp : lookup Prod.fst r.early r.next = some p) : arrived r.next ∧ p.2 = item r.next := by
  obtain ⟨n, a⟩ := p
  have hn : n = r.next := key_of_lookup hp
  obtain ⟨harr, -, ha⟩ := (h.early_iff n a).1 (mem_of_lookup hp)
  subst hn
  exact ⟨harr, ha⟩

theorem Holds.advance (h : Holds first item arrived r out) (hdue : arrived r.next) :
    Holds first item arrived r.advance (out ++ [item r.next]) where
  first_le := Nat.le_succ_of_le h.first_le
  out_eq := by
    have hlen : r.advance.next - first = (r.next - first) + 1 := by
      have := h.first_le
      simp only [Reorder.advance]
      omega
    have hlast : first + (r.next - first) = r.next := Nat.add_sub_cancel' h.first_le
    rw [hlen, List.range'_1_concat, map_append, ← h.out_eq, hlast]
    rfl
  early_iff := fun n a ↦ by
    simp only [Reorder.advance, mem_filter, h.early_iff, decide_eq_true_eq]
    constructor
    · rintro ⟨⟨harr, hle, ha⟩, hne⟩
      exact ⟨harr, by omega, ha⟩
    · rintro ⟨harr, hle, ha⟩
      exact ⟨⟨harr, by omega, ha⟩, by omega⟩
  arrived_of_lt := fun n hn hlt ↦ by
    by_cases heq : n = r.next
    · exact heq ▸ hdue
    · exact h.arrived_of_lt n hn (by simp only [Reorder.advance] at hlt; omega)

theorem Holds.drain (h : Holds first item arrived r out) :
    Holds first item arrived r.drain.1 (out ++ r.drain.2) ∧ ¬arrived r.drain.1.next := by
  fun_induction Reorder.drain r generalizing out with
  | case1 r hmissing =>
    rw [append_nil]
    refine ⟨h, fun harr ↦ ?_⟩
    exact lookup_eq_none.1 hmissing _ ((h.early_iff r.next _).2 ⟨harr, Nat.le_refl _, rfl⟩) rfl
  | case2 r p hdue ih =>
    obtain ⟨harr, hp⟩ := h.lookup_next hdue
    have hrest := ih (h.advance harr)
    rw [append_assoc, singleton_append, ← hp] at hrest
    exact hrest

theorem Holds.out_all (h : Holds first item arrived r out) (hdrained : ¬arrived r.next) {count : ℕ}
    (harrived : ∀ n, arrived n ↔ first ≤ n ∧ n < first + count) :
    out = (List.range' first count).map item := by
  have hle : r.next ≤ first + count := by
    by_contra hlt
    exact absurd ((harrived (first + count)).1 (h.arrived_of_lt _ (by omega) (by omega))) (by omega)
  have hge : first + count ≤ r.next := by
    by_contra hlt
    exact hdrained ((harrived r.next).2 ⟨h.first_le, by omega⟩)
  rw [h.out_eq, show r.next - first = count by omega]

end Reorder

end Mtld3d.Lib
