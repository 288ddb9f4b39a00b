import Mathlib.Data.Finset.Card

namespace Mtld3d.Lib

open List

variable {κ : Type*} [DecidableEq κ]

def recency : List κ → List κ
  | [] => []
  | k :: uses => k :: (recency uses).erase k

/-- What a least-recently-used cache of `n` keys holds after a history, newest first. -/
def lru (n : ℕ) : List κ → List κ
  | [] => []
  | k :: uses => (k :: (lru n uses).erase k).take n

/-- The keys used after the latest use of `k`. -/
def usedSince (uses : List κ) (k : κ) : Finset κ := (uses.takeWhile fun u ↦ decide (u ≠ k)).toFinset

variable {uses : List κ} {k u : κ} {n : ℕ}

@[simp] theorem mem_recency : k ∈ recency uses ↔ k ∈ uses := by
  induction uses with
  | nil => rfl
  | cons u uses ih =>
    rw [recency, mem_cons, mem_cons, ← ih]
    by_cases hu : k = u
    · simp [hu]
    · simp [hu, mem_erase_of_ne hu]

theorem nodup_recency (uses : List κ) : (recency uses).Nodup := by
  induction uses with
  | nil => exact nodup_nil
  | cons u uses ih =>
    rw [recency, nodup_cons]
    exact ⟨ih.not_mem_erase, ih.erase u⟩

theorem take_erase (l : List κ) (k : κ) (n : ℕ) : (l.erase k).take n = ((l.take (n + 1)).erase k).take n := by
  induction l generalizing n with
  | nil => simp
  | cons a l ih =>
    rw [take_succ_cons]
    by_cases ha : a = k
    · subst ha
      simp
    · rw [erase_cons_tail (by simpa using ha), erase_cons_tail (by simpa using ha)]
      cases n with
      | zero => rfl
      | succ n => rw [take_succ_cons, take_succ_cons, ih]

theorem lru_eq_take (n : ℕ) (uses : List κ) : lru n uses = (recency uses).take n := by
  induction uses with
  | nil => simp [lru, recency]
  | cons u uses ih =>
    rw [lru, recency, ih]
    cases n with
    | zero => rfl
    | succ n => rw [take_succ_cons, take_succ_cons, ← take_erase]

theorem mem_take_iff {l : List κ} : k ∈ l.take n ↔ k ∈ l ∧ (l.takeWhile fun u ↦ decide (u ≠ k)).length < n := by
  induction l generalizing n with
  | nil => simp
  | cons a l ih =>
    cases n with
    | zero => simp
    | succ n =>
      by_cases ha : a = k
      · simp [ha]
      · simp [ha, Ne.symm ha, ih]

theorem takeWhile_erase {l : List κ} (hk : k ∈ l) (hu : u ≠ k) :
    (l.erase u).takeWhile (fun v ↦ decide (v ≠ k)) = (l.takeWhile fun v ↦ decide (v ≠ k)).erase u := by
  induction l with
  | nil => cases hk
  | cons a l ih =>
    by_cases ha : a = k
    · subst ha
      rw [erase_cons_tail (by simpa using Ne.symm hu)]
      simp
    · have hmem : k ∈ l := (mem_cons.1 hk).resolve_left (Ne.symm ha)
      by_cases hau : a = u
      · subst hau
        simp [ha]
      · rw [erase_cons_tail (by simpa using hau), takeWhile_cons_of_pos (by simpa using ha),
          takeWhile_cons_of_pos (by simpa using ha), erase_cons_tail (by simpa using hau), ih hmem]

theorem toFinset_takeWhile_recency (hk : k ∈ uses) :
    ((recency uses).takeWhile fun u ↦ decide (u ≠ k)).toFinset = usedSince uses k := by
  induction uses with
  | nil => cases hk
  | cons u uses ih =>
    rw [recency, usedSince]
    by_cases hu : u = k
    · simp [hu]
    · have hmem : k ∈ uses := (mem_cons.1 hk).resolve_left (Ne.symm hu)
      rw [takeWhile_cons_of_pos (by simpa using hu), takeWhile_cons_of_pos (by simpa using hu),
        takeWhile_erase (mem_recency.2 hmem) hu, toFinset_cons, toFinset_cons]
      ext v
      have hset := congrArg (v ∈ ·) (ih hmem)
      simp only [usedSince, mem_toFinset, eq_iff_iff] at hset
      by_cases hv : v = u
      · simp [hv]
      · simp only [Finset.mem_insert, hv, false_or, mem_toFinset, hset, mem_erase_of_ne hv]

theorem mem_lru_iff : k ∈ lru n uses ↔ k ∈ uses ∧ (usedSince uses k).card < n := by
  rw [lru_eq_take, mem_take_iff, mem_recency]
  refine and_congr_right fun hk ↦ ?_
  rw [← toFinset_takeWhile_recency hk,
    toFinset_card_of_nodup ((nodup_recency uses).sublist (takeWhile_sublist _))]

theorem map_erase_of_nodup {α : Type*} [DecidableEq α] {f : α → κ} {l : List α} {a : α} (h : (l.map f).Nodup)
    (ha : a ∈ l) : (l.erase a).map f = (l.map f).erase (f a) := by
  induction l with
  | nil => cases ha
  | cons b l ih =>
    rw [map_cons, nodup_cons] at h
    by_cases hb : b = a
    · subst hb
      simp
    · have hmem : a ∈ l := (mem_cons.1 ha).resolve_left (Ne.symm hb)
      have hne : f b ≠ f a := fun heq ↦ h.1 (heq ▸ mem_map_of_mem hmem)
      rw [map_cons, erase_cons_tail (by simpa using hb), erase_cons_tail (by simpa using hne),
        map_cons, ih h.2 hmem]

end Mtld3d.Lib
