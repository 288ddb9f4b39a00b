import Mathlib.Logic.Relation
import Mathlib.Tactic.Common

namespace Mtld3d.Lib

section

variable {σ α : Type} (enabled : σ → α → Prop) (act : σ → α → σ)

def Admissible : σ → List α → Prop
  | _, [] => True
  | s, a :: as => enabled s a ∧ Admissible (act s a) as

variable {enabled act}

theorem Admissible.reaches {s : σ} {as : List α} (h : Admissible enabled act s as) :
    Relation.ReflTransGen (fun s t ↦ ∃ a, enabled s a ∧ t = act s a) s (as.foldl act s) := by
  induction as generalizing s with
  | nil => exact .refl
  | cons a as ih => exact .head ⟨a, h.1, rfl⟩ (ih h.2)

end

section

variable {σ : Type} (round : σ → σ × Bool)

/-- Runs `round` until it answers that it changed nothing, at most `n` times. -/
def rounds : ℕ → σ → σ
  | 0, s => s
  | n + 1, s => if (round s).2 then rounds n (round s).1 else (round s).1

variable {round} {P : σ → Prop} {f : σ → ℕ}

theorem rounds_settle (hP : ∀ s, P s → P (round s).1)
    (hf : ∀ s, P s → (round s).2 = true → f (round s).1 < f s) {s : σ} (h : P s) {n : ℕ} (hn : f s < n) :
    ∃ s', P s' ∧ (round s').2 = false ∧ rounds round n s = (round s').1 := by
  induction n generalizing s with
  | zero => exact absurd hn (Nat.not_lt_zero _)
  | succ n ih =>
    rw [rounds]
    split
    · rename_i hchange
      exact ih (hP s h) (Nat.lt_of_lt_of_le (hf s h hchange) (Nat.le_of_lt_succ hn))
    · rename_i hsame
      exact ⟨s, h, by simpa using hsame, rfl⟩

theorem rounds_enough (hP : ∀ s, P s → P (round s).1)
    (hf : ∀ s, P s → (round s).2 = true → f (round s).1 < f s) {s : σ} (h : P s) {m n : ℕ} (hn : f s < n)
    (hm : n ≤ m) : rounds round m s = rounds round n s := by
  induction n generalizing s m with
  | zero => exact absurd hn (Nat.not_lt_zero _)
  | succ n ih =>
    cases m with
    | zero => exact absurd hm (Nat.not_succ_le_zero n)
    | succ m =>
      rw [rounds, rounds]
      split
      · rename_i hchange
        exact ih (hP s h) (Nat.lt_of_lt_of_le (hf s h hchange) (Nat.le_of_lt_succ hn)) (Nat.le_of_succ_le_succ hm)
      · rfl

end

section

variable {α : Type} {happened : α → List α → Prop} {forgets : α → Prop}

/-- In a trace, newest first, something happened that no later entry made forgotten. What happened may depend on
the entries before it. -/
def Since (happened : α → List α → Prop) (forgets : α → Prop) (trace : List α) : Prop :=
  ∃ newer a older, trace = newer ++ a :: older ∧ happened a older ∧ ∀ b ∈ newer, ¬ forgets b

theorem since_nil : ¬ Since happened forgets [] := by
  rintro ⟨newer, a, older, h, -⟩
  cases newer <;> cases h

theorem since_cons {a : α} {older : List α} :
    Since happened forgets (a :: older) ↔ happened a older ∨ ¬ forgets a ∧ Since happened forgets older := by
  constructor
  · rintro ⟨newer, b, rest, h, hb, hnewer⟩
    cases newer with
    | nil =>
      cases h
      exact .inl hb
    | cons c newer =>
      cases h
      exact .inr ⟨hnewer a (by simp), newer, b, rest, rfl, hb, fun d hd ↦ hnewer d (by simp [hd])⟩
  · rintro (ha | ⟨hforget, newer, b, rest, rfl, hb, hnewer⟩)
    · exact ⟨[], a, older, rfl, ha, by simp⟩
    · refine ⟨a :: newer, b, rest, rfl, hb, fun d hd ↦ ?_⟩
      obtain rfl | hd := List.mem_cons.mp hd
      · exact hforget
      · exact hnewer d hd

end

section

theorem ok_of_bind_eq_ok {ε α β : Type} {x : Except ε α} {f : α → Except ε β} {b : β}
    (h : x >>= f = .ok b) : ∃ a, x = .ok a ∧ f a = .ok b := by
  cases x with
  | error e => cases h
  | ok a => exact ⟨a, rfl, h⟩

theorem toOption_bind {ε α β : Type} (x : Except ε α) (f : α → Except ε β) :
    (x >>= f).toOption = x.toOption.bind fun a ↦ (f a).toOption := by
  cases x with
  | error e => rfl
  | ok a => rfl

end

end Mtld3d.Lib
