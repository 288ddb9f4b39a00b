import Mathlib.Data.Fintype.Card
import Mathlib.Data.List.Perm.Basic

namespace Mtld3d.Lib

open List

section

variable {α : Type} {xs : List (Option α)} {i j n : ℕ} {a : α} {v : Option α}

def slotAt (xs : List (Option α)) (i : ℕ) : Option α := (xs[i]?).join

/-- The table grown to at least `n` entries. -/
def grow (xs : List (Option α)) (n : ℕ) : List (Option α) := xs ++ replicate (n - xs.length) none

def items (xs : List (Option α)) : List α := xs.filterMap id

theorem lt_of_slotAt (h : slotAt xs i = some a) : i < xs.length := by
  by_contra hi
  rw [slotAt, getElem?_eq_none (Nat.le_of_not_lt hi)] at h
  cases h

theorem slotAt_set (hi : i < xs.length) : slotAt (xs.set i v) j = if j = i then v else slotAt xs j := by
  rw [slotAt, slotAt, getElem?_set]
  by_cases hji : j = i
  · rw [if_pos hji.symm, if_pos hji, if_pos hi]
    rfl
  · rw [if_neg (Ne.symm hji), if_neg hji]

@[simp] theorem slotAt_grow : slotAt (grow xs n) i = slotAt xs i := by
  rw [slotAt, slotAt, grow]
  by_cases hi : i < xs.length
  · rw [getElem?_append_left hi]
  · rw [getElem?_append_right (Nat.le_of_not_lt hi), getElem?_replicate,
      getElem?_eq_none (Nat.le_of_not_lt hi)]
    split <;> rfl

theorem lt_length_grow (h : i < n) : i < (grow xs n).length := by
  rw [grow, length_append, length_replicate]
  omega

theorem items_append (xs ys : List (Option α)) : items (xs ++ ys) = items xs ++ items ys := filterMap_append

@[simp] theorem items_grow : items (grow xs n) = items xs := by
  have hnone : ∀ m, items (replicate m (none : Option α)) = [] := by
    intro m
    rw [items, filterMap_eq_nil_iff]
    intro x hx
    rw [eq_of_mem_replicate hx]
    rfl
  rw [grow, items_append, hnone, append_nil]

theorem mem_items : a ∈ items xs ↔ ∃ i, slotAt xs i = some a := by
  rw [items, mem_filterMap]
  constructor
  · rintro ⟨x, hx, rfl⟩
    obtain ⟨i, hi⟩ := mem_iff_getElem?.1 hx
    refine ⟨i, ?_⟩
    rw [slotAt, hi]
    rfl
  · rintro ⟨i, hi⟩
    cases hget : xs[i]? with
    | none =>
      rw [slotAt, hget] at hi
      cases hi
    | some x =>
      rw [slotAt, hget] at hi
      exact ⟨x, mem_of_getElem? hget, hi⟩

theorem items_set_none (h : slotAt xs i = some a) : (items xs).Perm (a :: items (xs.set i none)) := by
  have hi := lt_of_slotAt h
  have hget : xs[i]? = some (some a) := by
    rw [slotAt, getElem?_eq_getElem hi] at h
    rw [getElem?_eq_getElem hi]
    exact congrArg some h
  obtain ⟨hlt, hval⟩ := List.getElem?_eq_some_iff.1 hget
  have hsplit : xs = xs.take i ++ some a :: xs.drop (i + 1) := by
    rw [← hval, getElem_cons_drop, take_append_drop]
  have hset : xs.set i none = xs.take i ++ none :: xs.drop (i + 1) :=
    set_eq_take_append_cons_drop.trans (if_pos hi)
  rw [hset]
  nth_rewrite 1 [hsplit]
  rw [items_append, items_append]
  exact perm_middle

theorem items_set_some (hi : i < xs.length) (h : slotAt xs i = none) :
    (items (xs.set i (some a))).Perm (a :: items xs) := by
  have hi' : i < (xs.set i (some a)).length := by rwa [length_set]
  have hnow : slotAt (xs.set i (some a)) i = some a := by rw [slotAt_set hi, if_pos rfl]
  have hback : (xs.set i (some a)).set i none = xs := by
    rw [set_set]
    rw [slotAt, getElem?_eq_getElem hi] at h
    have hval : xs[i] = none := h
    rw [← hval, set_getElem_self]
  have := items_set_none hnow
  rwa [hback] at this

end

section

variable {α : Type}

def swapRemove (l : List α) (i : ℕ) : List α :=
  match l.getLast? with
  | none => []
  | some last => (l.set i last).dropLast

theorem swapRemove_perm {l : List α} {i : ℕ} {a : α} (h : l[i]? = some a) : l.Perm (a :: swapRemove l i) := by
  obtain ⟨hi, rfl⟩ := List.getElem?_eq_some_iff.1 h
  obtain ⟨front, last, rfl⟩ : ∃ front last, l = front ++ [last] :=
    ⟨_, _, (dropLast_append_getLast (ne_nil_of_length_pos (by omega))).symm⟩
  rw [swapRemove, getLast?_concat]
  simp only
  by_cases hlt : i < front.length
  · rw [set_append_left _ _ hlt, dropLast_concat, getElem_append_left hlt]
    rw [set_eq_take_append_cons_drop, if_pos hlt]
    conv_lhs => rw [← take_append_drop i front, drop_eq_getElem_cons hlt]
    rw [append_assoc, cons_append]
    refine perm_middle.trans (.cons _ ?_)
    rw [← append_assoc]
    exact (perm_append_singleton last _).trans perm_middle.symm
  · obtain rfl : i = front.length := by
      rw [length_append, length_singleton] at hi
      omega
    rw [getElem_concat_length rfl, set_append_right _ _ (le_refl _), Nat.sub_self, set_cons_zero,
      dropLast_concat]
    exact perm_append_comm

theorem exists_set {l : List α} {i : ℕ} {a : α} (h : l[i]? = some a) :
    ∃ before after, l = before ++ a :: after ∧ ∀ b, l.set i b = before ++ b :: after := by
  obtain ⟨hi, rfl⟩ := List.getElem?_eq_some_iff.1 h
  refine ⟨l.take i, l.drop (i + 1), ?_, fun b ↦ ?_⟩
  · rw [← drop_eq_getElem_cons hi, take_append_drop]
  · rw [set_eq_take_append_cons_drop, if_pos hi]

end

section

variable {n : ℕ}

def lowestFree (used : Finset (Fin n)) : Option (Fin n) :=
  (finRange n).find? fun i ↦ decide (i ∉ used)

theorem not_mem_of_lowestFree {used : Finset (Fin n)} {i : Fin n} (h : lowestFree used = some i) :
    i ∉ used := by
  have hi := find?_some h
  simpa using hi

theorem exists_lowestFree {used : Finset (Fin n)} (h : used.card < n) : ∃ i, lowestFree used = some i := by
  have hne : used ≠ Finset.univ := by
    rintro rfl
    simp at h
  obtain ⟨i, hi⟩ : ∃ i, i ∉ used := by
    by_contra hall
    push Not at hall
    exact hne (Finset.eq_univ_iff_forall.2 hall)
  have hsome : (lowestFree used).isSome := by
    rw [lowestFree, find?_isSome]
    exact ⟨i, mem_finRange i, by simpa using hi⟩
  exact Option.isSome_iff_exists.1 hsome

end

end Mtld3d.Lib
