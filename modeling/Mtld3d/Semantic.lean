import Mathlib.Data.Nat.Bitwise
import Mathlib.Data.Fintype.Basic
import Mathlib.Tactic.IntervalCases

namespace Mtld3d

inductive DeclUsage
  | position | blendWeight | blendIndices | normal | pSize | texcoord | tangent | binormal | tessFactor
  | positionT | color | fog | depth | sample
  deriving DecidableEq, Repr

namespace DeclUsage

def code : DeclUsage → ℕ
  | position => 0
  | blendWeight => 1
  | blendIndices => 2
  | normal => 3
  | pSize => 4
  | texcoord => 5
  | tangent => 6
  | binormal => 7
  | tessFactor => 8
  | positionT => 9
  | color => 10
  | fog => 11
  | depth => 12
  | sample => 13

def ofCode : ℕ → DeclUsage
  | 0 => position
  | 1 => blendWeight
  | 2 => blendIndices
  | 3 => normal
  | 4 => pSize
  | 5 => texcoord
  | 6 => tangent
  | 7 => binormal
  | 8 => tessFactor
  | 9 => positionT
  | 10 => color
  | 11 => fog
  | 12 => depth
  | _ => sample

theorem ofCode_code (usage : DeclUsage) : ofCode usage.code = usage := by
  cases usage <;> rfl

theorem code_le (usage : DeclUsage) : usage.code ≤ 13 := by
  cases usage <;> decide

theorem code_ofCode {n : ℕ} (h : n ≤ 13) : (ofCode n).code = n := by
  interval_cases n <;> rfl

end DeclUsage

/-- One declaration semantic; the usage index is a four-bit field. -/
structure Semantic where
  usage : DeclUsage
  index : Fin 16
  deriving DecidableEq, Repr

namespace Semantic

def new (usage : DeclUsage) (index : ℕ) : Semantic := ⟨usage, ⟨index % 16, Nat.mod_lt _ (by decide)⟩⟩

def code (s : Semantic) : ℕ := s.usage.code <<< 4 ||| s.index.val

def fromCode (code : ℕ) : Semantic := new (.ofCode (code >>> 4)) code

/-- The semantic of a vertex declaration element; none for a usage outside `D3DDECLUSAGE_*`. -/
def fromDecl (usage usageIndex : ℕ) : Option Semantic :=
  if DeclUsage.sample.code < usage then none else some (fromCode (usage <<< 4 ||| usageIndex % 16))

/-- Whether the semantic travels in a member outside the set every `Varyings` declares. -/
def isExtra (s : Semantic) : Bool :=
  match s.usage, s.index.val with
  | .texcoord, _ => false
  | .color, 0 | .color, 1 | .position, 0 | .position, 1 => false
  | .fog, 0 | .pSize, 0 => false
  | _, _ => true

def passesThrough (s : Semantic) : Bool :=
  match s.usage, s.index.val with
  | .positionT, 0 => false
  | .position, 1 | .fog, 0 => true
  | _, _ => s.isExtra

def usageName : DeclUsage → String
  | .position => "position"
  | .blendWeight => "blendweight"
  | .blendIndices => "blendindices"
  | .normal => "normal"
  | .pSize => "psize"
  | .texcoord => "texcoord"
  | .tangent => "tangent"
  | .binormal => "binormal"
  | .tessFactor => "tessfactor"
  | .positionT => "positiont"
  | .color => "color"
  | .fog => "fog"
  | .depth => "depth"
  | .sample => "sample"

def member (s : Semantic) : String :=
  match s.usage, s.index.val with
  | .position, 0 => "position"
  | .fog, 0 => "fog"
  | usage, index => usageName usage ++ toString index

def vertexDefault {α : Type} (zero one pointSize : α) (s : Semantic) : α :=
  match s.usage, s.index.val with
  | .color, 0 | .fog, 0 => one
  | .pSize, 0 => pointSize
  | _, _ => zero

theorem code_eq (s : Semantic) : s.code = 16 * s.usage.code + s.index.val := by
  have h : s.usage.code <<< 4 ||| s.index.val = s.usage.code <<< 4 + s.index.val :=
    (Nat.shiftLeft_add_eq_or_of_lt s.index.isLt _).symm
  rw [code, h, Nat.shiftLeft_eq]
  omega

theorem fromCode_eq (n : ℕ) : fromCode n = new (.ofCode (n / 16)) n := by
  rw [fromCode, Nat.shiftRight_eq_div_pow]

theorem fromCode_code (s : Semantic) : fromCode s.code = s := by
  rcases s with ⟨usage, index⟩
  have hlt := index.isLt
  rw [fromCode_eq, code_eq, new, Semantic.mk.injEq]
  refine ⟨?_, Fin.ext ?_⟩
  · rw [show (16 * usage.code + index.val) / 16 = usage.code by omega, DeclUsage.ofCode_code]
  · simp only
    omega

def bare (s : Semantic) : Prop := (s.usage = .position ∨ s.usage = .fog) ∧ s.index.val = 0

def memberDigits (s : Semantic) : List Char :=
  match s.usage, s.index.val with
  | .position, 0 | .fog, 0 => []
  | _, index => (toString index).toList

theorem memberDigits_bare {s : Semantic} (h : s.bare) : s.memberDigits = [] := by
  rcases s with ⟨usage, index⟩
  obtain ⟨rfl | rfl, hindex : index.val = 0⟩ := h <;> simp [memberDigits, hindex]

theorem memberDigits_of_not_bare {s : Semantic} (h : ¬ s.bare) : s.memberDigits = (toString s.index.val).toList := by
  rw [memberDigits]
  split
  · rename_i hu hi
    exact absurd ⟨Or.inl hu, hi⟩ h
  · rename_i hu hi
    exact absurd ⟨Or.inr hu, hi⟩ h
  · rfl

theorem member_toList (s : Semantic) : s.member.toList = (usageName s.usage).toList ++ s.memberDigits := by
  rcases s with ⟨usage, index⟩
  rw [member, memberDigits]
  split
  · rename_i hu _
    obtain rfl : usage = .position := hu
    exact (List.append_nil _).symm
  · rename_i hu _
    obtain rfl : usage = .fog := hu
    exact (List.append_nil _).symm
  · exact String.toList_append

theorem usageName_letters (usage : DeclUsage) : (usageName usage).toList.filter Char.isDigit = [] := by
  cases usage <;> decide

theorem usageName_injective {u v : DeclUsage} (h : (usageName u).toList = (usageName v).toList) : u = v := by
  revert h
  cases u <;> cases v <;> decide

theorem index_digits : ∀ i : Fin 16, (toString i.val).toList.filter Char.isDigit = (toString i.val).toList ∧
    (toString i.val).toList ≠ [] := by
  decide

theorem index_digits_injective : ∀ i j : Fin 16, (toString i.val).toList = (toString j.val).toList → i = j := by
  decide

theorem memberDigits_digits (s : Semantic) : s.memberDigits.filter Char.isDigit = s.memberDigits := by
  by_cases h : s.bare
  · rw [memberDigits_bare h, List.filter_nil]
  · rw [memberDigits_of_not_bare h]
    exact (index_digits s.index).1

theorem memberDigits_injective {usage : DeclUsage} {i j : Fin 16}
    (h : memberDigits ⟨usage, i⟩ = memberDigits ⟨usage, j⟩) : i = j := by
  by_cases hi : bare ⟨usage, i⟩ <;> by_cases hj : bare ⟨usage, j⟩
  · exact Fin.ext (hi.2.trans hj.2.symm)
  · rw [memberDigits_bare hi, memberDigits_of_not_bare hj] at h
    exact absurd h.symm (index_digits j).2
  · rw [memberDigits_of_not_bare hi, memberDigits_bare hj] at h
    exact absurd h (index_digits i).2
  · rw [memberDigits_of_not_bare hi, memberDigits_of_not_bare hj] at h
    exact index_digits_injective i j h

theorem member_injective {s t : Semantic} (h : s.member = t.member) : s = t := by
  rcases s with ⟨u, i⟩
  rcases t with ⟨v, j⟩
  have hlist := congrArg String.toList h
  rw [member_toList, member_toList] at hlist
  have hdigits := congrArg (List.filter Char.isDigit) hlist
  simp only [List.filter_append, usageName_letters, memberDigits_digits, List.nil_append] at hdigits
  rw [hdigits, List.append_cancel_right_eq] at hlist
  obtain rfl := usageName_injective hlist
  rw [memberDigits_injective hdigits]

theorem code_injective {s t : Semantic} (h : s.code = t.code) : s = t := by
  rw [← fromCode_code s, h, fromCode_code]

end Semantic

def maxLinkedInputs : ℕ := 8

def declPassthroughCode (usage usageIndex : ℕ) : Option ℕ :=
  match Semantic.fromDecl usage usageIndex with
  | some s => if s.passesThrough then some s.code else none
  | none => none

namespace Semantic

theorem shiftLeft_or_mod (usage index : ℕ) : usage <<< 4 ||| index % 16 = 16 * usage + index % 16 := by
  have hlt : index % 16 < 2 ^ 4 := Nat.mod_lt _ (by decide)
  rw [← Nat.shiftLeft_add_eq_or_of_lt hlt, Nat.shiftLeft_eq]
  omega

theorem fromDecl_eq_some_iff {usage usageIndex : ℕ} {s : Semantic} :
    fromDecl usage usageIndex = some s ↔ usage = s.usage.code ∧ usageIndex % 16 = s.index.val := by
  rw [fromDecl, Option.ite_none_left_eq_some, shiftLeft_or_mod, fromCode_eq, Option.some.injEq]
  have hdiv : (16 * usage + usageIndex % 16) / 16 = usage := by omega
  have hmod : (16 * usage + usageIndex % 16) % 16 = usageIndex % 16 := by omega
  rw [hdiv]
  constructor
  · rintro ⟨hle, rfl⟩
    refine ⟨(DeclUsage.code_ofCode (not_lt.mp hle)).symm, ?_⟩
    exact hmod.symm
  · rintro ⟨rfl, hindex⟩
    refine ⟨not_lt.mpr (DeclUsage.code_le s.usage), ?_⟩
    rcases s with ⟨usage, index⟩
    rw [new, Semantic.mk.injEq]
    exact ⟨DeclUsage.ofCode_code usage, Fin.ext (hmod.trans hindex)⟩

end Semantic

theorem declPassthroughCode_eq_some_iff {usage usageIndex c : ℕ} :
    declPassthroughCode usage usageIndex = some c ↔
      ∃ s : Semantic, c = s.code ∧ s.passesThrough = true ∧ usage = s.usage.code ∧ usageIndex % 16 = s.index.val := by
  rw [declPassthroughCode]
  constructor
  · intro h
    cases hs : Semantic.fromDecl usage usageIndex with
    | none => simp [hs] at h
    | some s =>
      rw [hs] at h
      simp only at h
      split_ifs at h with hp
      exact ⟨s, (Option.some.inj h).symm, hp, Semantic.fromDecl_eq_some_iff.mp hs⟩
  · rintro ⟨s, rfl, hp, hs⟩
    rw [Semantic.fromDecl_eq_some_iff.mpr hs]
    exact if_pos hp

end Mtld3d
