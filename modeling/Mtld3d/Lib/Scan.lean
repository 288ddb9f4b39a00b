import Mathlib.Data.List.Nodup
import Mathlib.Data.Nat.Bitwise

namespace Mtld3d.Lib

variable {β γ : Type}

theorem testBit_foldl_or (p : β → Bool) (f : β → ℕ) (l : List β) (m i : ℕ) :
    (l.foldl (fun m x ↦ if p x then m ||| 1 <<< f x else m) m).testBit i =
      (m.testBit i || l.any fun x ↦ p x && f x == i) := by
  induction l generalizing m with
  | nil => simp
  | cons x l ih =>
    rw [List.foldl_cons, ih, List.any_cons]
    cases p x with
    | false => rw [if_neg (by decide), Bool.false_and, Bool.false_or]
    | true =>
      rw [if_pos rfl, Nat.testBit_or, Nat.one_shiftLeft, Nat.testBit_two_pow, Bool.true_and, Bool.or_assoc,
        beq_eq_decide]

variable [DecidableEq β] [DecidableEq γ]

def seen (acc : List β) (b : β) : List β := if b ∈ acc then acc else acc ++ [b]

def firstSeen (l : List β) : List β := l.foldl seen []

theorem foldl_seen_capped {f : β → γ} (hf : Function.Injective f) (n : ℕ) (l acc : List β) :
    l.foldl (fun codes b ↦ if f b ∈ codes then codes else if codes.length = n then codes else codes ++ [f b])
        ((acc.take n).map f) = ((l.foldl seen acc).take n).map f := by
  induction l generalizing acc with
  | nil => rfl
  | cons b l ih =>
    rw [List.foldl_cons, List.foldl_cons, ← ih]
    congr 1
    have hmap : f b ∈ (acc.take n).map f ↔ b ∈ acc.take n := List.mem_map_of_injective hf
    rw [List.length_map, List.length_take, seen]
    by_cases hmem : b ∈ acc.take n
    · rw [if_pos (hmap.mpr hmem), if_pos (List.mem_of_mem_take hmem)]
    · rw [if_neg (mt hmap.mp hmem)]
      by_cases hlen : n ≤ acc.length
      · rw [if_pos (min_eq_left hlen)]
        split_ifs
        · rfl
        · rw [List.take_append_of_le_length hlen]
      · have hlt : acc.length < n := not_le.mp hlen
        rw [List.take_of_length_le hlt.le] at hmem
        rw [if_neg (by omega), if_neg hmem, List.take_of_length_le hlt.le,
          List.take_of_length_le (by rw [List.length_append]; exact hlt), List.map_append]
        rfl

end Mtld3d.Lib
