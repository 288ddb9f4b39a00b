import Mathlib.Data.List.Nodup

namespace Mtld3d.Lib

open Function List

variable {α : Type} {next next' : α → Option α} {head : Option α} {nodes rest : List α} {a b last : α}

/-- The nodes met from a head along the links of an intrusive list. -/
inductive Linked (next : α → Option α) : Option α → List α → Prop
  | nil : Linked next none []
  | cons {a : α} {rest : List α} : Linked next (next a) rest → Linked next (some a) (a :: rest)

namespace Linked

theorem of_none (h : Linked next none nodes) : nodes = [] := by
  cases h
  rfl

theorem of_some (h : Linked next (some a) nodes) : ∃ rest, nodes = a :: rest ∧ Linked next (next a) rest := by
  cases h with
  | cons h => exact ⟨_, rfl, h⟩

theorem unique (h : Linked next head nodes) (h' : Linked next head rest) : nodes = rest := by
  induction h generalizing rest with
  | nil => exact h'.of_none.symm
  | cons _ ih =>
    obtain ⟨rest', rfl, hrest⟩ := h'.of_some
    rw [ih hrest]

theorem congr (h : Linked next head nodes) (heq : ∀ a ∈ nodes, next' a = next a) : Linked next' head nodes := by
  induction h with
  | nil => exact .nil
  | cons h ih =>
    refine .cons ?_
    rw [heq _ mem_cons_self]
    exact ih fun a ha ↦ heq a (mem_cons_of_mem _ ha)

variable [DecidableEq α]

theorem push (h : Linked next head nodes) (ha : a ∉ nodes) :
    Linked (update next a head) (some a) (a :: nodes) := by
  refine .cons ?_
  rw [update_self]
  refine h.congr fun b hb ↦ update_of_ne ?_ _ _
  rintro rfl
  exact ha hb

end Linked

def lastNode (next : α → Option α) : ℕ → α → Option α
  | 0, _ => none
  | n + 1, a =>
    match next a with
    | none => some a
    | some b => lastNode next n b

theorem Linked.lastNode_eq {n : ℕ} (h : Linked next (some a) nodes) (hn : nodes.length ≤ n) :
    ∃ last, lastNode next n a = some last ∧ nodes.getLast? = some last := by
  induction n generalizing a nodes with
  | zero =>
    obtain ⟨rest, rfl, -⟩ := h.of_some
    simp at hn
  | succ n ih =>
    obtain ⟨rest, rfl, hrest⟩ := h.of_some
    rw [lastNode]
    cases hnext : next a with
    | none =>
      rw [hnext] at hrest
      obtain rfl := hrest.of_none
      exact ⟨a, rfl, rfl⟩
    | some b =>
      rw [hnext] at hrest
      obtain ⟨last, hlast, hget⟩ := ih hrest (by simpa using hn)
      refine ⟨last, hlast, ?_⟩
      rw [List.getLast?_cons, hget]
      rfl

theorem Linked.append [DecidableEq α] {front : Option α} {more : List α} (h : Linked next (some a) nodes)
    (hlast : nodes.getLast? = some last) (hmore : Linked next front more) (hnodup : (nodes ++ more).Nodup) :
    Linked (update next last front) (some a) (nodes ++ more) := by
  induction nodes generalizing a with
  | nil => cases hlast
  | cons b nodes ih =>
    obtain ⟨rest, hrest, hlinked⟩ := h.of_some
    obtain ⟨rfl, rfl⟩ := List.cons.inj hrest
    have hout : last ∉ more := fun hmem ↦
      (nodup_append'.1 hnodup).2.2 (mem_of_mem_getLast? hlast) hmem
    rw [cons_append] at hnodup ⊢
    refine .cons ?_
    cases nodes with
    | nil =>
      obtain rfl : b = last := Option.some.inj hlast
      rw [update_self]
      refine hmore.congr fun c hc ↦ update_of_ne ?_ _ _
      rintro rfl
      exact hout hc
    | cons c nodes =>
      have hlast' : (c :: nodes).getLast? = some last := by
        rwa [List.getLast?_cons_cons] at hlast
      have hne : b ≠ last := by
        rintro rfl
        exact (nodup_cons.1 hnodup).1 (mem_append_left _ (mem_of_mem_getLast? hlast'))
      rw [update_of_ne hne]
      cases hnext : next b with
      | none =>
        rw [hnext] at hlinked
        cases hlinked
      | some d =>
        rw [hnext] at hlinked
        exact ih hlinked hlast' (nodup_cons.1 hnodup).2

end Mtld3d.Lib
