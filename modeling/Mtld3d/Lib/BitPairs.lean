import Mathlib.Data.Nat.Bitwise
import Mathlib.Data.List.Nodup

namespace Mtld3d.Lib

def bitPair (word k : ℕ) : ℕ := (word >>> (2 * k)) &&& 3

/-- The word with `value` or-ed into each bitPair a list names. -/
def packPairs (entries : List (ℕ × ℕ)) : ℕ :=
  entries.foldl (fun word e ↦ word ||| ((e.2 &&& 3) <<< (2 * e.1))) 0

theorem and_three (a : ℕ) : a &&& 3 = a % 4 := Nat.and_two_pow_sub_one_eq_mod a 2

theorem bitPair_or (v w k : ℕ) : bitPair (v ||| w) k = bitPair v k ||| bitPair w k := by
  rw [bitPair, Nat.shiftRight_or_distrib, Nat.and_or_distrib_right, bitPair, bitPair]

theorem bitPair_shift_self (a k : ℕ) : bitPair ((a &&& 3) <<< (2 * k)) k = a &&& 3 := by
  rw [bitPair, Nat.shiftLeft_shiftRight, Nat.and_assoc, Nat.and_self]

theorem bitPair_shift_of_ne {a j k : ℕ} (h : j ≠ k) : bitPair ((a &&& 3) <<< (2 * j)) k = 0 := by
  refine Nat.eq_of_testBit_eq fun b ↦ ?_
  have h3 : ∀ x c, (x &&& 3).testBit c = (decide (c < 2) && x.testBit c) := by
    intro x c
    rw [show (3 : ℕ) = 2 ^ 2 - 1 from rfl, Nat.and_two_pow_sub_one_eq_mod, Nat.testBit_mod_two_pow]
  rw [bitPair, h3, Nat.testBit_shiftRight, Nat.testBit_shiftLeft, h3, Nat.zero_testBit]
  by_cases hb : b < 2
  · by_cases hj : 2 * j ≤ 2 * k + b
    · have hfar : ¬ 2 * k + b - 2 * j < 2 := by omega
      simp [hfar]
    · simp [hj]
  · simp [hb]

theorem packPairs_cons (e : ℕ × ℕ) (entries : List (ℕ × ℕ)) : packPairs (e :: entries) =
    entries.foldl (fun word e ↦ word ||| ((e.2 &&& 3) <<< (2 * e.1))) ((e.2 &&& 3) <<< (2 * e.1)) := by
  rw [packPairs, List.foldl_cons, Nat.zero_or]

theorem bitPair_foldl (entries : List (ℕ × ℕ)) (word k : ℕ) :
    bitPair (entries.foldl (fun word e ↦ word ||| ((e.2 &&& 3) <<< (2 * e.1))) word) k =
      bitPair word k ||| bitPair (packPairs entries) k := by
  induction entries generalizing word with
  | nil => simp [packPairs, bitPair]
  | cons e entries ih =>
    rw [List.foldl_cons, ih, packPairs_cons, ih, bitPair_or, Nat.or_assoc]

theorem bitPair_packPairs_of_not_mem {entries : List (ℕ × ℕ)} {k : ℕ} (h : k ∉ entries.map Prod.fst) :
    bitPair (packPairs entries) k = 0 := by
  induction entries with
  | nil => simp [packPairs, bitPair]
  | cons e entries ih =>
    rw [List.map_cons, List.mem_cons, not_or] at h
    rw [packPairs_cons, bitPair_foldl, bitPair_shift_of_ne (Ne.symm h.1), ih h.2, Nat.zero_or]

theorem bitPair_packPairs {entries : List (ℕ × ℕ)} (hd : (entries.map Prod.fst).Nodup) {k a : ℕ}
    (h : (k, a) ∈ entries) : bitPair (packPairs entries) k = a &&& 3 := by
  induction entries with
  | nil => cases h
  | cons e entries ih =>
    rw [List.map_cons, List.nodup_cons] at hd
    rw [packPairs_cons, bitPair_foldl]
    rcases List.mem_cons.1 h with rfl | h
    · rw [bitPair_shift_self, bitPair_packPairs_of_not_mem hd.1, Nat.or_zero]
    · have hne : e.1 ≠ k := by
        rintro rfl
        exact hd.1 (List.mem_map.2 ⟨_, h, rfl⟩)
      rw [bitPair_shift_of_ne hne, Nat.zero_or, ih hd.2 h]

end Mtld3d.Lib
