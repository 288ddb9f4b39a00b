import Mathlib.Data.List.Basic

namespace Mtld3d.Lib

open List

variable {α : Type}

def select : List Bool → List α → List α
  | true :: ks, a :: as => a :: select ks as
  | false :: ks, _ :: as => select ks as
  | _, _ => []

/-- Entries whose position, counted from `i`, satisfies `f`. -/
def keepIdx (f : ℕ → Bool) : ℕ → List α → List α
  | _, [] => []
  | i, a :: as => if f i then a :: keepIdx f (i + 1) as else keepIdx f (i + 1) as

/-- The list with `r` applied where the position, counted from `i`, satisfies `f`. -/
def mapWhere (f : ℕ → Bool) (r : α → α) : ℕ → List α → List α
  | _, [] => []
  | i, a :: as => (if f i then r a else a) :: mapWhere f r (i + 1) as

def drain (range : ℕ × ℕ) (as : List α) : List α := as.take range.1 ++ as.drop range.2

variable {f g : ℕ → Bool} {i : ℕ} {as bs : List α}

theorem keepIdx_append : keepIdx f i (as ++ bs) = keepIdx f i as ++ keepIdx f (i + as.length) bs := by
  induction as generalizing i with
  | nil => rfl
  | cons a as ih =>
    simp only [cons_append, keepIdx, ih, length_cons, Nat.add_assoc, Nat.add_comm 1]
    split_ifs <;> rfl

theorem keepIdx_congr (h : ∀ j, i ≤ j → j < i + as.length → f j = g j) : keepIdx f i as = keepIdx g i as := by
  induction as generalizing i with
  | nil => rfl
  | cons a as ih =>
    have hhead := h i (Nat.le_refl i) (by simp)
    have htail := ih (i := i + 1) fun j hj hlt ↦ h j (by omega) (by simp only [length_cons]; omega)
    simp [keepIdx, hhead, htail]

theorem keepIdx_shift (n : ℕ) : keepIdx f (i + n) as = keepIdx (fun j ↦ f (j + n)) i as := by
  induction as generalizing i with
  | nil => rfl
  | cons a as ih =>
    have htail := ih (i := i + 1)
    rw [Nat.add_right_comm] at htail
    simp [keepIdx, htail]

theorem keepIdx_eq_nil (h : ∀ j, i ≤ j → j < i + as.length → f j = false) : keepIdx f i as = [] := by
  induction as generalizing i with
  | nil => rfl
  | cons a as ih =>
    have hhead := h i (Nat.le_refl i) (by simp)
    have htail := ih (i := i + 1) fun j hj hlt ↦ h j (by omega) (by simp only [length_cons]; omega)
    simp [keepIdx, hhead, htail]

theorem keepIdx_eq_self (h : ∀ j, i ≤ j → j < i + as.length → f j = true) : keepIdx f i as = as := by
  induction as generalizing i with
  | nil => rfl
  | cons a as ih =>
    have hhead := h i (Nat.le_refl i) (by simp)
    have htail := ih (i := i + 1) fun j hj hlt ↦ h j (by omega) (by simp only [length_cons]; omega)
    simp [keepIdx, hhead, htail]

theorem keepIdx_mapWhere {r : α → α} : keepIdx f i (mapWhere f r i as) = (keepIdx f i as).map r := by
  induction as generalizing i with
  | nil => rfl
  | cons a as ih =>
    simp only [mapWhere, keepIdx, ih]
    split_ifs <;> rfl

theorem length_mapWhere {r : α → α} : (mapWhere f r i as).length = as.length := by
  induction as generalizing i with
  | nil => rfl
  | cons a as ih => simp [mapWhere, ih]

def outside (ranges : List (ℕ × ℕ)) (i : ℕ) : Bool := !ranges.any fun r ↦ decide (r.1 ≤ i) && decide (i < r.2)

theorem outside_cons {r : ℕ × ℕ} {ranges : List (ℕ × ℕ)} :
    outside (r :: ranges) i = (!(decide (r.1 ≤ i) && decide (i < r.2)) && outside ranges i) := by
  simp [outside]

theorem keepIdx_split (n : ℕ) (hn : n ≤ as.length) :
    keepIdx f i as = keepIdx f i (as.take n) ++ keepIdx f (i + n) (as.drop n) := by
  conv_lhs => rw [← take_append_drop n as]
  rw [keepIdx_append, length_take, Nat.min_eq_left hn]

theorem drain_ranges {ranges : List (ℕ × ℕ)} (hin : ∀ r ∈ ranges, r.1 ≤ r.2 ∧ r.2 ≤ as.length)
    (hord : ranges.Pairwise fun r s ↦ r.2 ≤ s.1) : ranges.foldr drain as = keepIdx (outside ranges) 0 as := by
  induction ranges with
  | nil => exact (keepIdx_eq_self fun _ _ _ ↦ rfl).symm
  | cons r rs ih =>
    obtain ⟨⟨hle, hlen⟩, hrs⟩ := forall_mem_cons.mp hin
    obtain ⟨hfirst, hord⟩ := pairwise_cons.mp hord
    have hbefore (j : ℕ) (hj : j < r.2) : outside rs j = true := by
      simp only [outside, Bool.not_eq_true', any_eq_false, Bool.and_eq_true, decide_eq_true_eq]
      intro s hs
      have := hfirst s hs
      omega
    have htake : (as.take r.2).length = r.2 := by
      rw [length_take]
      omega
    have hkeep : keepIdx (outside rs) 0 as = as.take r.2 ++ keepIdx (outside rs) r.2 (as.drop r.2) := by
      rw [keepIdx_split r.2 hlen, keepIdx_eq_self fun j _ hj ↦ hbefore j (by omega), Nat.zero_add]
    have hlast : keepIdx (outside (r :: rs)) r.2 (as.drop r.2) = keepIdx (outside rs) r.2 (as.drop r.2) := by
      refine keepIdx_congr fun j hj _ ↦ ?_
      have hout : ¬ j < r.2 := by omega
      simp [outside_cons, hout]
    have hfront : keepIdx (outside (r :: rs)) 0 (as.take r.2) = as.take r.1 := by
      have htwice : (as.take r.2).take r.1 = as.take r.1 := by rw [take_take, Nat.min_eq_left hle]
      rw [keepIdx_split r.1 (by omega), htwice, keepIdx_eq_self, keepIdx_eq_nil, append_nil]
      · intro j hj hlt
        simp only [length_drop] at hlt
        have hlow : r.1 ≤ j := by omega
        have hhigh : j < r.2 := by omega
        simp [outside_cons, hlow, hhigh]
      · intro j _ hj
        simp only [length_take] at hj
        have hout : ¬ r.1 ≤ j := by omega
        simp [outside_cons, hout, hbefore j (by omega)]
    rw [foldr_cons, ih hrs hord, hkeep, keepIdx_split r.2 hlen, hfront, Nat.zero_add, hlast, drain,
      take_append_of_le_length (by omega), take_take, Nat.min_eq_left hle, drop_append_of_le_length
      (by omega), drop_take, Nat.sub_self, take_zero, nil_append]

theorem mem_modify {f : α → α} {b : α} (h : b ∈ as.modify i f) : b ∈ as ∨ ∃ a ∈ as, b = f a := by
  induction as generalizing i with
  | nil => simp at h
  | cons a as ih =>
    cases i with
    | zero =>
      rw [modify_zero_cons] at h
      obtain rfl | h := mem_cons.mp h
      · exact .inr ⟨a, mem_cons_self, rfl⟩
      · exact .inl (mem_cons_of_mem _ h)
    | succ i =>
      rw [modify_succ_cons] at h
      obtain rfl | h := mem_cons.mp h
      · exact .inl mem_cons_self
      · obtain h | ⟨c, hc, rfl⟩ := ih h
        · exact .inl (mem_cons_of_mem _ h)
        · exact .inr ⟨c, mem_cons_of_mem _ hc, rfl⟩

theorem modify_concat {f : α → α} {a : α} : (as ++ [a]).modify as.length f = as ++ [f a] := by
  induction as with
  | nil => rfl
  | cons b as ih => simp [ih]

theorem pairwise_modify {R : α → α → Prop} {f : α → α} (hleft : ∀ a b, R a b → R (f a) b)
    (hright : ∀ a b, R a b → R a (f b)) (h : as.Pairwise R) : (as.modify i f).Pairwise R := by
  induction as generalizing i with
  | nil => simp
  | cons a as ih =>
    obtain ⟨hhead, htail⟩ := pairwise_cons.mp h
    cases i with
    | zero =>
      rw [modify_zero_cons]
      exact pairwise_cons.mpr ⟨fun b hb ↦ hleft a b (hhead b hb), htail⟩
    | succ i =>
      rw [modify_succ_cons]
      refine pairwise_cons.mpr ⟨fun b hb ↦ ?_, ih htail⟩
      obtain hb' | ⟨c, hc, rfl⟩ := mem_modify hb
      · exact hhead b hb'
      · exact hright a c (hhead c hc)

end Mtld3d.Lib
