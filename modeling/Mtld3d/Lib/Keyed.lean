import Mathlib.Data.List.Nodup

namespace Mtld3d.Lib

open List

variable {α κ : Type} [DecidableEq κ] {key : α → κ} {l : List α} {a : α} {k : κ}

def lookup (key : α → κ) (l : List α) (k : κ) : Option α := l.find? fun a ↦ key a == k

@[simp] theorem lookup_nil : lookup key [] k = none := rfl

theorem lookup_cons : lookup key (a :: l) k = if key a = k then some a else lookup key l k := by
  unfold lookup
  by_cases h : key a = k <;> simp [h]

theorem lookup_append (l m : List α) (k : κ) :
    lookup key (l ++ m) k = (lookup key l k).or (lookup key m k) := by
  simp [lookup, find?_append]

theorem key_of_lookup (h : lookup key l k = some a) : key a = k := by
  simpa using find?_some h

theorem mem_of_lookup (h : lookup key l k = some a) : a ∈ l := mem_of_find?_eq_some h

theorem lookup_eq_none : lookup key l k = none ↔ ∀ a ∈ l, key a ≠ k := by
  simp [lookup]

theorem exists_lookup (key : α → κ) (h : a ∈ l) : ∃ b, lookup key l (key a) = some b := by
  cases hb : lookup key l (key a) with
  | none => exact absurd rfl (lookup_eq_none.mp hb a h)
  | some b => exact ⟨b, rfl⟩

theorem mem_iff_lookup (hnodup : (l.map key).Nodup) : a ∈ l ↔ lookup key l (key a) = some a := by
  refine ⟨fun h ↦ ?_, mem_of_lookup⟩
  obtain ⟨b, hb⟩ := exists_lookup key h
  have hsame : b = a := inj_on_of_nodup_map hnodup (mem_of_lookup hb) h (key_of_lookup hb)
  rw [hb, hsame]

theorem findIdx?_lookup {i : ℕ} (h : l.findIdx? (fun a ↦ key a == k) = some i) :
    ∃ a, lookup key l k = some a := by
  cases ha : lookup key l k with
  | some a => exact ⟨a, rfl⟩
  | none =>
    have hnone : l.findIdx? (fun a ↦ key a == k) = none := by
      simpa [findIdx?_eq_none_iff] using lookup_eq_none.mp ha
    rw [hnone] at h
    cases h

theorem findIdx?_none (h : l.findIdx? (fun a ↦ key a == k) = none) : lookup key l k = none := by
  simpa [lookup_eq_none, findIdx?_eq_none_iff] using h

theorem lookup_modify {i : ℕ} {f : α → α} (hi : l.findIdx? (fun a ↦ key a == k) = some i)
    (hf : ∀ a, key a = k → key (f a) = k) (k' : κ) :
    lookup key (l.modify i f) k' = if k' = k then (lookup key l k).map f else lookup key l k' := by
  induction l generalizing i with
  | nil => cases hi
  | cons a l ih =>
    rw [findIdx?_cons] at hi
    by_cases ha : key a = k
    · rw [if_pos (by simp [ha])] at hi
      cases hi
      rw [modify_zero_cons, lookup_cons, lookup_cons, lookup_cons, hf a ha, ha, if_pos rfl]
      by_cases hk : k' = k
      · rw [if_pos hk, if_pos hk.symm]
        rfl
      · rw [if_neg hk, if_neg (Ne.symm hk), if_neg (Ne.symm hk)]
    · rw [if_neg (by simp [ha])] at hi
      obtain ⟨j, hj, rfl⟩ := Option.map_eq_some_iff.mp hi
      rw [modify_succ_cons, lookup_cons, lookup_cons, lookup_cons, ih hj, if_neg ha]
      by_cases hk : k' = k
      · subst hk
        rw [if_pos rfl, if_neg ha, if_pos rfl]
      · rw [if_neg hk, if_neg hk]

theorem map_key_modify {i : ℕ} {f : α → α} (hi : l.findIdx? (fun a ↦ key a == k) = some i)
    (hf : ∀ a, key a = k → key (f a) = k) : (l.modify i f).map key = l.map key := by
  induction l generalizing i with
  | nil => cases hi
  | cons a l ih =>
    rw [findIdx?_cons] at hi
    by_cases ha : key a = k
    · rw [if_pos (by simp [ha])] at hi
      cases hi
      rw [modify_zero_cons, map_cons, map_cons, hf a ha, ha]
    · rw [if_neg (by simp [ha])] at hi
      obtain ⟨j, hj, rfl⟩ := Option.map_eq_some_iff.mp hi
      rw [modify_succ_cons, map_cons, map_cons, ih hj]

theorem nodup_keys_append (hnodup : (l.map key).Nodup) (h : lookup key l (key a) = none) :
    ((l ++ [a]).map key).Nodup := by
  rw [map_append, nodup_append]
  refine ⟨hnodup, by simp, ?_⟩
  intro x hx y hy hxy
  obtain ⟨b, hb, rfl⟩ := mem_map.mp hx
  simp only [map_cons, map_nil, mem_singleton] at hy
  exact lookup_eq_none.mp h b hb (hxy.trans hy)

end Mtld3d.Lib
