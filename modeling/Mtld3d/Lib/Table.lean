import Mathlib.Algebra.BigOperators.Group.List.Basic
import Mathlib.Data.List.AList

namespace Mtld3d.Lib

open List

abbrev Table (κ α : Type) := AList fun _ : κ ↦ α

namespace Table

variable {κ α M : Type} [AddCommMonoid M]

def total (f : α → M) (t : Table κ α) : M := (t.entries.map fun e ↦ f e.2).sum

variable [DecidableEq κ] {t : Table κ α} {k : κ} {a b : α}

theorem total_of_lookup (f : α → M) (h : t.lookup k = some a) : total f t = f a + total f (t.erase k) := by
  have hmem : k ∈ t.entries.keys := dlookup_isSome.mp (by
    show (t.lookup k).isSome
    rw [h]
    rfl)
  obtain ⟨b, l₁, l₂, hnot, hsplit, herase⟩ := exists_of_kerase hmem
  have hab : a = b := by
    have hb : b ∈ t.lookup k := mem_dlookup t.nodupKeys (by simp [hsplit])
    rw [h] at hb
    exact Option.some.inj hb
  subst hab
  have hentries : (t.erase k).entries = l₁ ++ l₂ := herase
  rw [total, total, hentries, hsplit]
  simp only [map_append, map_cons, sum_append, sum_cons]
  exact add_left_comm _ _ _

theorem total_insert (f : α → M) : total f (t.insert k a) = f a + total f (t.erase k) := rfl

theorem erase_of_lookup_none (h : t.lookup k = none) : t.erase k = t :=
  AList.ext (kerase_of_notMem_keys (dlookup_eq_none.mp h))

theorem total_insert_of_lookup_none (f : α → M) (h : t.lookup k = none) :
    total f (t.insert k a) = f a + total f t := by
  rw [total_insert, erase_of_lookup_none h]

theorem total_update (f : α → M) (h : t.lookup k = some a) (b : α) :
    total f (t.insert k b) + f a = total f t + f b := by
  rw [total_insert, total_of_lookup f h, add_right_comm, add_comm (f b), add_right_comm]

theorem total_update_eq (f : α → M) (h : t.lookup k = some a) (hf : f b = f a) :
    total f (t.insert k b) = total f t := by
  rw [total_insert, total_of_lookup f h, hf]

theorem total_insert_zero {f : α → M} (hb : f b = 0) (h : ∀ a, t.lookup k = some a → f a = 0) :
    total f (t.insert k b) = total f t := by
  cases hk : t.lookup k with
  | none => rw [total_insert_of_lookup_none f hk, hb, zero_add]
  | some a => exact total_update_eq f hk (hb.trans (h a hk).symm)

theorem total_eq_zero {f : α → M} (h : ∀ k a, t.lookup k = some a → f a = 0) : total f t = 0 := by
  refine sum_eq_zero fun x hx ↦ ?_
  obtain ⟨e, he, rfl⟩ := mem_map.mp hx
  exact h e.1 e.2 (mem_dlookup t.nodupKeys he)

/-- Keeps what `f` makes of each entry, dropping the entries it gives nothing for. -/
def retain (f : α → Option α) (t : Table κ α) : Table κ α where
  entries := t.entries.filterMap fun e ↦ (f e.2).map (Sigma.mk e.1)
  nodupKeys := by
    refine Nodup.sublist ?_ t.nodupKeys
    induction t.entries with
    | nil => exact .slnil
    | cons e l ih =>
      cases h : f e.2 with
      | none => simpa [List.keys, h] using ih.cons e.1
      | some a => simpa [List.keys, h] using ih.cons_cons e.1

theorem lookup_retain (f : α → Option α) (t : Table κ α) (k : κ) :
    (t.retain f).lookup k = (t.lookup k).bind f := by
  ext b
  rw [← Option.mem_def, ← Option.mem_def, AList.mem_lookup_iff, Option.mem_def, Option.bind_eq_some_iff]
  constructor
  · intro hb
    obtain ⟨e, he, hb⟩ := mem_filterMap.mp hb
    obtain ⟨a, ha, hab⟩ := Option.map_eq_some_iff.mp hb
    cases hab
    exact ⟨e.2, AList.mem_lookup_iff.mpr he, ha⟩
  · rintro ⟨a, ha, hb⟩
    refine mem_filterMap.mpr ⟨⟨k, a⟩, AList.mem_lookup_iff.mp ha, ?_⟩
    simp [hb]

end Table

end Mtld3d.Lib
