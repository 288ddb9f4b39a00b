import Mtld3d.GuestMem

namespace Mtld3d.GuestMem

open Lib List Option

variable {g : Guard} {dst src n k a b : ℕ} {m : Ram} {byte : UInt8}

theorem copyEnds_placed (hk : k ≤ n) (hn : n ≤ 2 * k) (hr : g.Reads src n) (hw : g.Writes dst n) (m : Ram) :
    ∃ m', copyEnds g k dst src n m = some m' ∧ Placed m dst (fun i ↦ m (src + i)) 0 n m' := by
  have hhead : g.Reads src k := fun i hi ↦ hr i (by omega)
  have htail : g.Reads (src + (n - k)) k := hr.part (by omega)
  simp only [copyEnds, Guard.load_eq hhead, Guard.load_eq htail]
  exact Guard.store_ends hk hn hw (fun i _ ↦ by rw [add_assoc]) m

theorem copySmall_placed (hn : n ≤ 64) (hr : g.Reads src n) (hw : g.Writes dst n) (m : Ram) :
    ∃ m', copySmall g dst src n m = some m' ∧ Placed m dst (fun i ↦ m (src + i)) 0 n m' := by
  unfold copySmall
  split_ifs
  iterate 6 exact copyEnds_placed (by omega) (by omega) hr hw m
  obtain rfl : n = 0 := by omega
  exact ⟨m, rfl, .none m dst _ 0⟩

theorem copyUp_placed (hr : g.Reads src n) (hw : g.Writes dst n) (hclear : dst ≤ src ∨ src + n ≤ dst) (m : Ram) :
    ∃ m', copyUp g dst src n m = some m' ∧ Placed m dst (fun i ↦ m (src + i)) 0 n m' := by
  have hfin : n - n % 64 = 64 * (n / 64) := by omega
  -- What is still to be read lies past what has been written.
  have hsource {c b : ℕ} {mid : Ram} (h : Placed m dst (fun i ↦ m (src + i)) 0 b mid) (hc : b + c ≤ n) :
      ∀ i < c, mid (src + b + i) = m (src + (b + i)) := by
    intro i hi
    rw [h, if_neg (by omega), add_assoc]
  obtain ⟨mid, hmid, hblocks⟩ := foldlM_range (P := fun i ↦ Placed m dst (fun i ↦ m (src + i)) 0 (64 * i))
    (f := fun m i ↦ copyEnds g 32 (dst + 64 * i) (src + 64 * i) 64 m) (c := n / 64) (.none m dst _ 0)
    fun i hi mid hplaced ↦ by
      obtain ⟨m', hm', hblock⟩ := copyEnds_placed (k := 32) (n := 64) (by omega) (by omega)
        (hr.part (b := 64 * i) (by omega)) (hw.part (b := 64 * i) (by omega)) mid
      exact ⟨m', hm', hplaced.join hblock (by omega) (hsource hplaced (by omega))⟩
  obtain ⟨m', hm', hrest⟩ := copySmall_placed (n := n - 64 * (n / 64)) (by omega)
    (hr.part (b := 64 * (n / 64)) (by omega)) (hw.part (b := 64 * (n / 64)) (by omega)) mid
  refine ⟨m', ?_, hblocks.join hrest (by omega) (hsource hblocks (by omega))⟩
  simp only [copyUp, hmid, bind_eq_bind, bind_some, hfin]
  exact hm'

theorem copyDown_placed (hr : g.Reads src n) (hw : g.Writes dst n) (hle : src ≤ dst) (m : Ram) :
    ∃ m', copyDown g dst src n m = some m' ∧ Placed m dst (fun i ↦ m (src + i)) 0 n m' := by
  obtain ⟨mid, hmid, hblocks⟩ := foldlM_range (P := fun i ↦ Placed m dst (fun i ↦ m (src + i)) (n - 64 * i) n)
    (f := fun m i ↦ copyEnds g 32 (dst + (n - 64 * (i + 1))) (src + (n - 64 * (i + 1))) 64 m) (c := n / 64)
    (.none m dst _ n) fun i hi mid hplaced ↦ by
      obtain ⟨m', hm', hblock⟩ := copyEnds_placed (k := 32) (n := 64) (by omega) (by omega)
        (hr.part (b := n - 64 * (i + 1)) (by omega)) (hw.part (b := n - 64 * (i + 1)) (by omega)) mid
      -- What is still to be read lies below what has been written.
      refine ⟨m', hm', hplaced.join hblock (by omega) fun j hj ↦ ?_⟩
      rw [hplaced, if_neg (by omega), add_assoc]
  have hr' : g.Reads src (n % 64) := fun i hi ↦ hr i (by omega)
  have hw' : g.Writes dst (n % 64) := fun i hi ↦ hw i (by omega)
  obtain ⟨m', hm', hrest⟩ := copySmall_placed (by omega) hr' hw' mid
  refine ⟨m', ?_, hblocks.join (b := 0) hrest (by omega) fun i hi ↦ ?_⟩
  · simp only [copyDown, hmid, bind_eq_bind, bind_some]
    exact hm'
  · rw [hblocks, if_neg (by omega), zero_add]

theorem copy_placed (hr : g.Reads src n) (hw : g.Writes dst n) (hclear : dst + n ≤ src ∨ src + n ≤ dst) (m : Ram) :
    ∃ m', copy g dst src n m = some m' ∧ Placed m dst (fun i ↦ m (src + i)) 0 n m' := by
  unfold copy
  split
  · exact copySmall_placed (by omega) hr hw m
  · exact copyUp_placed hr hw (by omega) m

theorem copyOverlapping_placed (hsrc : src + n ≤ 2 ^ 64) (hdst : dst + n ≤ 2 ^ 64) (hr : g.Reads src n)
    (hw : g.Writes dst n) (m : Ram) :
    ∃ m', copyOverlapping g dst src n m = some m' ∧ Placed m dst (fun i ↦ m (src + i)) 0 n m' := by
  unfold copyOverlapping wrappingSub
  split
  · exact copySmall_placed (by omega) hr hw m
  · split
    · exact copyUp_placed hr hw (by omega) m
    · exact copyDown_placed hr hw (by omega) m

theorem fillEnds_placed (hk : k ≤ n) (hn : n ≤ 2 * k) (hw : g.Writes dst n) (byte : UInt8) (m : Ram) :
    ∃ m', fillEnds g k dst byte n m = some m' ∧ Placed m dst (fun _ ↦ byte) 0 n m' :=
  Guard.store_ends hk hn hw (fun _ _ ↦ rfl) m

theorem fillSmall_placed (hn : n ≤ 64) (hw : g.Writes dst n) (byte : UInt8) (m : Ram) :
    ∃ m', fillSmall g dst byte n m = some m' ∧ Placed m dst (fun _ ↦ byte) 0 n m' := by
  unfold fillSmall
  split_ifs
  iterate 6 exact fillEnds_placed (by omega) (by omega) hw byte m
  obtain rfl : n = 0 := by omega
  exact ⟨m, rfl, .none m dst _ 0⟩

theorem fill_placed (hw : g.Writes dst n) (byte : UInt8) (m : Ram) :
    ∃ m', fill g dst byte n m = some m' ∧ Placed m dst (fun _ ↦ byte) 0 n m' := by
  have hfin : ∃ c, (if 64 < n then n - n % 64 else 0) = 64 * c ∧ 64 * c ≤ n ∧ n - 64 * c ≤ 64 := by
    by_cases hlong : 64 < n
    · exact ⟨n / 64, by rw [if_pos hlong]; omega, by omega, by omega⟩
    · exact ⟨0, by rw [if_neg hlong], by omega, by omega⟩
  obtain ⟨c, hc, hle, hrest⟩ := hfin
  obtain ⟨mid, hmid, hblocks⟩ := foldlM_range (P := fun i ↦ Placed m dst (fun _ ↦ byte) 0 (64 * i))
    (f := fun m i ↦ fillEnds g 32 (dst + 64 * i) byte 64 m) (c := c) (.none m dst _ 0) fun i hi mid hplaced ↦ by
      obtain ⟨m', hm', hblock⟩ := fillEnds_placed (k := 32) (n := 64) (by omega) (by omega)
        (hw.part (b := 64 * i) (by omega)) byte mid
      exact ⟨m', hm', hplaced.join hblock (by omega) fun _ _ ↦ rfl⟩
  obtain ⟨m', hm', htail⟩ := fillSmall_placed hrest (hw.part (b := 64 * c) (by omega)) byte mid
  refine ⟨m', ?_, hblocks.join htail (by omega) fun _ _ ↦ rfl⟩
  simp only [fill, hc, Nat.mul_div_cancel_left c (by decide : 0 < 64), hmid, bind_eq_bind, bind_some]
  exact hm'

def EqualBelow (m : Ram) (a b at_ : ℕ) : Prop := ∀ i < at_, m (a + i) = m (b + i)

theorem skipLines_spec (ha : g.Reads a n) (hb : g.Reads b n) (lines : ℕ) {at_ : ℕ} (hat : at_ ≤ n)
    (hequal : EqualBelow m a b at_) :
    ∃ at', skipLines g m a b n lines at_ = some at' ∧ at' ≤ n ∧ EqualBelow m a b at' := by
  induction lines generalizing at_ with
  | zero => exact ⟨at_, rfl, hat, hequal⟩
  | succ lines ih =>
    rw [skipLines]
    split
    · have hra : g.Reads (a + at_) 16 := ha.part (by omega)
      have hrb : g.Reads (b + at_) 16 := hb.part (by omega)
      simp only [Guard.load_eq hra, Guard.load_eq hrb, bind_eq_bind, bind_some]
      split
      · rename_i hline
        refine ih (by omega) fun i hi ↦ ?_
        by_cases hold : i < at_
        · exact hequal i hold
        · have hbyte := all_eq_true.mp hline (i - at_) (mem_range.mpr (by omega))
          rw [beq_iff_eq, add_assoc, add_assoc, Nat.add_sub_cancel' (by omega)] at hbyte
          exact hbyte
      · exact ⟨at_, rfl, hat, hequal⟩
    · exact ⟨at_, rfl, hat, hequal⟩

/-- What a comparison of `n` bytes answers: nothing differs, or the difference of the first bytes that do. -/
def Compares (m : Ram) (a b n : ℕ) (r : ℤ) : Prop :=
  (r = 0 ∧ EqualBelow m a b n) ∨
    ∃ i < n, EqualBelow m a b i ∧ m (a + i) ≠ m (b + i) ∧ r = ((m (a + i)).toNat : ℤ) - ((m (b + i)).toNat : ℤ)

theorem compareBytes_spec (ha : g.Reads a n) (hb : g.Reads b n) (left : ℕ) {at_ : ℕ} (hat : at_ + left = n)
    (hequal : EqualBelow m a b at_) : ∃ r, compareBytes g m a b left at_ = some r ∧ Compares m a b n r := by
  induction left generalizing at_ with
  | zero =>
    rw [add_zero] at hat
    exact ⟨0, rfl, .inl ⟨rfl, hat ▸ hequal⟩⟩
  | succ left ih =>
    have hra : g.Reads (a + at_) 1 := ha.part (by omega)
    have hrb : g.Reads (b + at_) 1 := hb.part (by omega)
    simp only [compareBytes, Guard.load_eq hra, Guard.load_eq hrb, bind_eq_bind, bind_some, add_zero]
    split
    · rename_i hsame
      refine ih (by omega) fun i hi ↦ ?_
      by_cases hold : i < at_
      · exact hequal i hold
      · obtain rfl : i = at_ := by omega
        exact hsame
    · rename_i hdiffer
      exact ⟨_, rfl, .inr ⟨at_, by omega, hequal, hdiffer, rfl⟩⟩

theorem compare_spec (ha : g.Reads a n) (hb : g.Reads b n) (m : Ram) :
    ∃ r, compare g a b n m = some r ∧ Compares m a b n r := by
  obtain ⟨at_, hskip, hle, hequal⟩ := skipLines_spec ha hb (n / 16) (Nat.zero_le n) (m := m) (nofun)
  obtain ⟨r, hr, hcompares⟩ := compareBytes_spec ha hb (n - at_) (by omega) hequal
  refine ⟨r, ?_, hcompares⟩
  simp only [compare, hskip, bind_eq_bind, bind_some]
  exact hr

/-- Accesses may read only in the ranges of `reads` and write only in those of `writes`, each a start and a length. -/
def within (reads writes : List (ℕ × ℕ)) : Guard where
  readable := fun p ↦ reads.any fun r ↦ decide (r.1 ≤ p ∧ p < r.1 + r.2)
  writable := fun p ↦ writes.any fun r ↦ decide (r.1 ≤ p ∧ p < r.1 + r.2)

theorem reads_within {reads writes : List (ℕ × ℕ)} (h : (a, n) ∈ reads) : (within reads writes).Reads a n :=
  fun i hi ↦ any_eq_true.mpr ⟨(a, n), h, decide_eq_true ⟨Nat.le_add_right a i, Nat.add_lt_add_left hi a⟩⟩

theorem writes_within {reads writes : List (ℕ × ℕ)} (h : (a, n) ∈ writes) : (within reads writes).Writes a n :=
  fun i hi ↦ any_eq_true.mpr ⟨(a, n), h, decide_eq_true ⟨Nat.le_add_right a i, Nat.add_lt_add_left hi a⟩⟩

def Copied (m : Ram) (dst src n : ℕ) (m' : Ram) : Prop :=
  (∀ i < n, m' (dst + i) = m (src + i)) ∧ ∀ p, ¬ (dst ≤ p ∧ p < dst + n) → m' p = m p

theorem copied_of_placed {m' : Ram} (h : Placed m dst (fun i ↦ m (src + i)) 0 n m') : Copied m dst src n m' := by
  refine ⟨fun i hi ↦ ?_, fun p hp ↦ ?_⟩
  · rw [h, if_pos (by omega), Nat.add_sub_cancel_left]
  · rw [h, if_neg (by omega)]

theorem compares_zero {r : ℤ} (h : Compares m a b n r) : r = 0 ↔ EqualBelow m a b n := by
  obtain ⟨hr, hequal⟩ | ⟨i, hi, -, hdiffer, hr⟩ := h
  · exact ⟨fun _ ↦ hequal, fun _ ↦ hr⟩
  · have hne : (m (a + i)).toNat ≠ (m (b + i)).toNat := fun heq ↦ hdiffer (UInt8.toNat_inj.mp heq)
    refine ⟨fun hzero ↦ ?_, fun hequal ↦ absurd (hequal i hi) hdiffer⟩
    omega

theorem compares_sign {r : ℤ} (h : Compares m a b n r) {i : ℕ} (hi : i < n) (hequal : EqualBelow m a b i)
    (hdiffer : m (a + i) ≠ m (b + i)) : r = ((m (a + i)).toNat : ℤ) - ((m (b + i)).toNat : ℤ) := by
  obtain ⟨-, hall⟩ | ⟨j, hj, hequal', hdiffer', hr⟩ := h
  · exact absurd (hall i hi) hdiffer
  · obtain hlt | rfl | hlt := Nat.lt_trichotomy i j
    · exact absurd (hequal' i hlt) hdiffer
    · exact hr
    · exact absurd (hequal j hlt) hdiffer'

/-- The four routines do what C asks of them, and with accesses outside their ranges faulting none of them faults. -/
theorem memory_routines_correct :
    (∀ dst src n m, src + n ≤ 2 ^ 64 → dst + n ≤ 2 ^ 64 →
      ∃ m', copyOverlapping (within [(src, n)] [(dst, n)]) dst src n m = some m' ∧ Copied m dst src n m') ∧
    (∀ dst src n m, dst + n ≤ src ∨ src + n ≤ dst →
      ∃ m', copy (within [(src, n)] [(dst, n)]) dst src n m = some m' ∧ Copied m dst src n m') ∧
    (∀ dst byte n m, ∃ m', fill (within [] [(dst, n)]) dst byte n m = some m' ∧
      (∀ i < n, m' (dst + i) = byte) ∧ ∀ p, ¬ (dst ≤ p ∧ p < dst + n) → m' p = m p) ∧
    ∀ a b n m, ∃ r, compare (within [(a, n), (b, n)] []) a b n m = some r ∧ (r = 0 ↔ EqualBelow m a b n) ∧
      ∀ i < n, EqualBelow m a b i → m (a + i) ≠ m (b + i) →
        (r < 0 ↔ m (a + i) < m (b + i)) ∧ (0 < r ↔ m (b + i) < m (a + i)) := by
  refine ⟨fun dst src n m hsrc hdst ↦ ?_, fun dst src n m hclear ↦ ?_, fun dst byte n m ↦ ?_, fun a b n m ↦ ?_⟩
  · have hr : (within [(src, n)] [(dst, n)]).Reads src n := reads_within (by simp)
    have hw : (within [(src, n)] [(dst, n)]).Writes dst n := writes_within (by simp)
    obtain ⟨m', hm', hplaced⟩ := copyOverlapping_placed hsrc hdst hr hw m
    exact ⟨m', hm', copied_of_placed hplaced⟩
  · have hr : (within [(src, n)] [(dst, n)]).Reads src n := reads_within (by simp)
    have hw : (within [(src, n)] [(dst, n)]).Writes dst n := writes_within (by simp)
    obtain ⟨m', hm', hplaced⟩ := copy_placed hr hw hclear m
    exact ⟨m', hm', copied_of_placed hplaced⟩
  · have hw : (within [] [(dst, n)]).Writes dst n := writes_within (by simp)
    obtain ⟨m', hm', hplaced⟩ := fill_placed hw byte m
    refine ⟨m', hm', fun i hi ↦ ?_, fun p hp ↦ ?_⟩
    · rw [hplaced, if_pos (by omega)]
    · rw [hplaced, if_neg (by omega)]
  · have ha : (within [(a, n), (b, n)] []).Reads a n := reads_within (by simp)
    have hb : (within [(a, n), (b, n)] []).Reads b n := reads_within (by simp)
    obtain ⟨r, hr, hcompares⟩ := compare_spec ha hb m
    refine ⟨r, hr, compares_zero hcompares, fun i hi hequal hdiffer ↦ ?_⟩
    have hvalue := compares_sign hcompares hi hequal hdiffer
    rw [UInt8.lt_iff_toNat_lt, UInt8.lt_iff_toNat_lt]
    omega

end Mtld3d.GuestMem
