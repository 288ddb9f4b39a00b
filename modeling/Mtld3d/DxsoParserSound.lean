import Mathlib.Data.List.TakeWhile
import Mtld3d.DxsoParser
import Mtld3d.Lib.Run

namespace Mtld3d.Dxso

open List Lib

variable {major token : ℕ} {st st' : ParserState} {opcode : Opcode} {ops rest r : List ℕ}

theorem decodeSrc_spec {sm1 : Bool} {src : SrcOperand} {consumed : ℕ} {ts : List ℕ}
    (h : decodeSrc sm1 ts = .ok (src, consumed, r)) :
    (consumed = 1 ∨ consumed = 2) ∧ consumed ≤ ts.length ∧ r = ts.drop consumed ∧
      ∀ ts', ts'.take consumed = ts.take consumed → decodeSrc sm1 ts' = .ok (src, consumed, ts'.drop consumed) := by
  cases ts with
  | nil => cases h
  | cons t ts =>
    obtain ⟨kind, hkind, h⟩ := ok_of_bind_eq_ok h
    have hone : ∀ {ts' : List ℕ}, ts'.take 1 = (t :: ts).take 1 → ∃ tail, ts' = t :: tail := by
      intro ts' htake
      cases ts' with
      | nil => simp at htake
      | cons u tail =>
        obtain rfl : u = t := by simpa using htake
        exact ⟨tail, rfl⟩
    by_cases hrel : isRelative t
    · rw [if_pos hrel] at h
      cases sm1 with
      | true =>
        cases h
        refine ⟨.inl rfl, by simp, rfl, fun ts' htake ↦ ?_⟩
        obtain ⟨tail, rfl⟩ := hone htake
        simp [decodeSrc, hkind, hrel, bind, Except.bind]
      | false =>
        cases ts with
        | nil => cases h
        | cons u ts =>
          obtain ⟨reg, hreg, h⟩ := ok_of_bind_eq_ok h
          cases h
          refine ⟨.inr rfl, by simp, rfl, fun ts' htake ↦ ?_⟩
          match ts', htake with
          | v :: w :: tail, htake =>
            obtain ⟨rfl, rfl⟩ : v = t ∧ w = u := by simpa using htake
            simp [decodeSrc, hkind, hreg, hrel, bind, Except.bind]
    · rw [if_neg hrel] at h
      cases h
      refine ⟨.inl rfl, by simp, rfl, fun ts' htake ↦ ?_⟩
      obtain ⟨tail, rfl⟩ := hone htake
      simp [decodeSrc, hkind, hrel, bind, Except.bind]

theorem decodeSrc_append {sm1 : Bool} {src : SrcOperand} {consumed : ℕ} (hle : consumed ≤ ops.length)
    (h : decodeSrc sm1 (ops ++ rest) = .ok (src, consumed, r)) : r = ops.drop consumed ++ rest ∧
      ∀ rest', decodeSrc sm1 (ops ++ rest') = .ok (src, consumed, ops.drop consumed ++ rest') := by
  obtain ⟨-, -, hr, htransfer⟩ := decodeSrc_spec h
  refine ⟨hr.trans (drop_append_of_le_length hle), fun rest' ↦ ?_⟩
  rw [← drop_append_of_le_length hle]
  apply htransfer
  rw [take_append_of_le_length hle, take_append_of_le_length hle]

theorem decodeSrcs_append {sm1 : Bool} (n : ℕ) {srcs : List SrcOperand} (hn : ops.length = n)
    (h : decodeSrcs sm1 n (ops ++ rest) = .ok (srcs, r)) :
    r = rest ∧ ∀ rest', decodeSrcs sm1 n (ops ++ rest') = .ok (srcs, rest') := by
  induction n using Nat.strong_induction_on generalizing ops srcs with
  | _ n ih =>
    match n, hn, h with
    | 0, hn, h =>
      obtain rfl := length_eq_zero_iff.1 hn
      cases h
      exact ⟨rfl, fun rest' ↦ rfl⟩
    | 1, hn, h =>
      obtain ⟨⟨src, consumed, r'⟩, hsrc, h⟩ := ok_of_bind_eq_ok h
      by_cases hc : consumed = 1
      · subst hc
        obtain ⟨hr, htransfer⟩ := decodeSrc_append (le_of_eq hn.symm) hsrc
        have hdrop : ops.drop 1 = [] := drop_eq_nil_of_le (le_of_eq hn)
        rw [hdrop, nil_append] at hr
        cases h
        refine ⟨hr, fun rest' ↦ ?_⟩
        simp [decodeSrcs, htransfer rest', hdrop, bind, Except.bind]
      · simp only [if_neg hc] at h
        cases h
    | n + 2, hn, h =>
      obtain ⟨⟨src, consumed, r'⟩, hsrc, h⟩ := ok_of_bind_eq_ok h
      obtain ⟨⟨tail, r''⟩, htail, h⟩ := ok_of_bind_eq_ok h
      cases h
      obtain ⟨hcases, -⟩ := decodeSrc_spec hsrc
      obtain ⟨rfl, htransfer⟩ := decodeSrc_append (by omega) hsrc
      obtain rfl | rfl := hcases
      · simp only [if_pos] at htail
        obtain ⟨rfl, hrest⟩ := ih (n + 1) (by omega) (by simp [hn]) htail
        exact ⟨rfl, fun rest' ↦ by simp only [decodeSrcs, htransfer rest', hrest rest', bind, Except.bind, if_pos]⟩
      · have hne : ¬ (2 = 1) := by decide
        simp only [if_neg hne] at htail
        obtain ⟨rfl, hrest⟩ := ih n (by omega) (by simp [hn]) htail
        exact ⟨rfl, fun rest' ↦ by simp only [decodeSrcs, htransfer rest', hrest rest', bind, Except.bind, if_neg hne]⟩

def Steady {α : Type} (decoder : ℕ → List ℕ → Except DxsoError (α × ℕ × List ℕ)) : Prop :=
  ∀ (ops rest : List ℕ) (a : α) (remaining : ℕ) (r : List ℕ),
    decoder ops.length (ops ++ rest) = .ok (a, remaining, r) → ∃ ops', remaining = ops'.length ∧ r = ops' ++ rest ∧
      ∀ rest', decoder ops.length (ops ++ rest') = .ok (a, remaining, ops' ++ rest')

theorem decodeDestination_steady (opcode : Opcode) : Steady (decodeDestination opcode) := by
  intro ops rest a remaining r h
  rw [decodeDestination] at h
  split at h
  · rename_i hcond
    obtain ⟨⟨dst, r'⟩, hdst, h⟩ := ok_of_bind_eq_ok h
    cases h
    cases ops with
    | nil => simp at hcond
    | cons t ops =>
      rw [cons_append, decodeDst] at hdst
      split at hdst
      · cases hdst
      · rename_i hrel
        obtain ⟨reg, hreg, hdst⟩ := ok_of_bind_eq_ok hdst
        cases hdst
        refine ⟨ops, rfl, rfl, fun rest' ↦ ?_⟩
        simp only [decodeDestination, if_pos hcond, cons_append, decodeDst, if_neg hrel, hreg, bind,
          Except.bind]
  · rename_i hcond
    cases h
    exact ⟨ops, rfl, rfl, fun rest' ↦ by rw [decodeDestination, if_neg hcond]⟩

theorem decodePredicate_steady (predicated : Bool) : Steady (decodePredicate predicated) := by
  intro ops rest a remaining r h
  rw [decodePredicate] at h
  split at h
  · rename_i hcond
    obtain ⟨⟨src, consumed, r'⟩, hsrc, h⟩ := ok_of_bind_eq_ok h
    by_cases hlt : ops.length < consumed
    · simp only [if_pos hlt] at h
      cases h
    · obtain ⟨rfl, htransfer⟩ := decodeSrc_append (not_lt.1 hlt) hsrc
      simp only [if_neg hlt] at h
      cases h
      refine ⟨ops.drop consumed, length_drop.symm, rfl, fun rest' ↦ ?_⟩
      simp only [decodePredicate, if_pos hcond, htransfer rest', if_neg hlt, bind, Except.bind]
  · rename_i hcond
    cases h
    exact ⟨ops, rfl, rfl, fun rest' ↦ by rw [decodePredicate, if_neg hcond]⟩

theorem decodeInstruction_append {inst : Instruction} {rest' : List ℕ}
    (hcount : operandTokenCount major token (ops ++ rest) = ops.length)
    (hcount' : operandTokenCount major token (ops ++ rest') = ops.length)
    (h : decodeInstruction major opcode token (ops ++ rest) = .ok (inst, r)) :
    r = rest ∧ decodeInstruction major opcode token (ops ++ rest') = .ok (inst, rest') := by
  rw [decodeInstruction, hcount] at h
  obtain ⟨⟨dst, n, r₁⟩, hdst, h₁⟩ := ok_of_bind_eq_ok h
  obtain ⟨⟨predicate, m, r₂⟩, hpred, h₂⟩ := ok_of_bind_eq_ok h₁
  obtain ⟨⟨srcs, r₃⟩, hsrcs, h₃⟩ := ok_of_bind_eq_ok h₂
  obtain ⟨ops₁, rfl, rfl, hdst'⟩ := decodeDestination_steady opcode ops rest _ _ _ hdst
  obtain ⟨ops₂, rfl, rfl, hpred'⟩ := decodePredicate_steady _ ops₁ rest _ _ _ hpred
  obtain ⟨rfl, hsrcs'⟩ := decodeSrcs_append _ rfl hsrcs
  cases h₃
  refine ⟨rfl, ?_⟩
  simp only [decodeInstruction, hcount', hdst' rest', hpred' rest', hsrcs' rest', bind, Except.bind]

def Opcode.isInstruction : Opcode → Bool
  | .comment | .dcl | .def_ | .defI | .defB | .phase | .label | .ret | .end_ => false
  | _ => true

theorem Opcode.special_cases (h : opcode.isInstruction = false) :
    opcode = .comment ∨ opcode = .end_ ∨ opcode = .phase ∨ opcode = .ret ∨ opcode = .dcl ∨ opcode = .defB ∨
      opcode = .def_ ∨ opcode = .defI ∨ opcode = .label := by
  cases opcode <;> first | exact Bool.noConfusion h | simp

theorem parseStep_of_isInstruction (h : opcode.isInstruction = true) (rest : List ℕ) :
    parseStep major st opcode token rest = decodeInstruction major opcode token rest >>= fun decoded ↦
      .ok (st.pushInstruction decoded.1, decoded.2) := by
  cases opcode <;> first | rfl | cases h

/-- The operand tokens an instruction of the opcode has; `label` names its subroutine by one complete
source operand. -/
def Operands (opcode : Opcode) (ops : List ℕ) : Prop :=
  match opcode with
  | .dcl | .defB => ops.length = 2
  | .def_ | .defI => ops.length = 5
  | .phase | .ret => ops = []
  | .label => ∃ t, ops = [t] ∧ isRelative t = false ∨ ∃ u, ops = [t, u] ∧ isRelative t = true
  | _ => True

theorem length_eq_five {l : List ℕ} (h : l.length = 5) : ∃ d x y z w, l = [d, x, y, z, w] := by
  match l, h with
  | [d, x, y, z, w], _ => exact ⟨d, x, y, z, w, rfl⟩

theorem label_consumed {src : SrcOperand} {consumed : ℕ} (hops : Operands .label ops)
    (h : decodeSrc false (ops ++ rest) = .ok (src, consumed, r)) : consumed = ops.length := by
  obtain ⟨t, ⟨rfl, hrel⟩ | ⟨u, rfl, hrel⟩⟩ := hops
  · obtain ⟨kind, -, h⟩ := ok_of_bind_eq_ok h
    simp only [hrel] at h
    cases h
    rfl
  · obtain ⟨kind, -, h⟩ := ok_of_bind_eq_ok h
    simp only [hrel] at h
    obtain ⟨reg, -, h⟩ := ok_of_bind_eq_ok h
    cases h
    rfl

def Clear (major : ℕ) (rest : List ℕ) : Prop := major < 2 → ∀ t, rest.head? = some t → isOperand t = false

/-- A step over an instruction's own tokens is the same whatever follows them. -/
theorem parseStep_append (hops : Operands opcode ops) (hne : opcode ≠ .comment ∧ opcode ≠ .end_)
    (hcount : ∀ rest, Clear major rest → operandTokenCount major token (ops ++ rest) = ops.length)
    (hclear : Clear major rest) (h : parseStep major st opcode token (ops ++ rest) = .ok (st', r)) :
    r = rest ∧ ∀ rest', Clear major rest' → parseStep major st opcode token (ops ++ rest') = .ok (st', rest') := by
  cases hop : opcode.isInstruction with
  | true =>
    rw [parseStep_of_isInstruction hop] at h
    obtain ⟨⟨inst, r'⟩, hinst, h⟩ := ok_of_bind_eq_ok h
    cases h
    have hsame := decodeInstruction_append (hcount rest hclear) (hcount rest hclear) hinst
    refine ⟨hsame.1, fun rest' hclear' ↦ ?_⟩
    rw [parseStep_of_isInstruction hop, (decodeInstruction_append (hcount rest hclear) (hcount rest' hclear') hinst).2]
    rfl
  | false =>
    obtain rfl | rfl | rfl | rfl | rfl | rfl | rfl | rfl | rfl := Opcode.special_cases hop
    · exact absurd rfl hne.1
    · exact absurd rfl hne.2
    · obtain rfl : ops = [] := hops
      cases h
      exact ⟨rfl, fun rest' _ ↦ rfl⟩
    · obtain rfl : ops = [] := hops
      cases h
      exact ⟨rfl, fun rest' _ ↦ rfl⟩
    · obtain ⟨x, y, rfl⟩ := length_eq_two.1 hops
      obtain ⟨decl, hdecl, h⟩ := ok_of_bind_eq_ok h
      cases h
      exact ⟨rfl, fun rest' _ ↦ by simp [parseStep, hdecl, bind, Except.bind]⟩
    · obtain ⟨x, y, rfl⟩ := length_eq_two.1 hops
      obtain ⟨reg, hreg, h⟩ := ok_of_bind_eq_ok h
      cases h
      exact ⟨rfl, fun rest' _ ↦ by simp [parseStep, hreg, bind, Except.bind]⟩
    · obtain ⟨d, x, y, z, w, rfl⟩ : ∃ d x y z w, ops = [d, x, y, z, w] := length_eq_five hops
      obtain ⟨reg, hreg, h⟩ := ok_of_bind_eq_ok h
      cases h
      exact ⟨rfl, fun rest' _ ↦ by simp [parseStep, hreg, bind, Except.bind]⟩
    · obtain ⟨d, x, y, z, w, rfl⟩ : ∃ d x y z w, ops = [d, x, y, z, w] := length_eq_five hops
      obtain ⟨reg, hreg, h⟩ := ok_of_bind_eq_ok h
      cases h
      exact ⟨rfl, fun rest' _ ↦ by simp [parseStep, hreg, bind, Except.bind]⟩
    · simp only [parseStep] at h
      split at h
      · rename_i hfield
        obtain ⟨⟨src, consumed, r'⟩, hsrc, h⟩ := ok_of_bind_eq_ok h
        cases h
        have hconsumed : consumed = ops.length := label_consumed hops hsrc
        obtain ⟨hr, htransfer⟩ := decodeSrc_append (le_of_eq hconsumed) hsrc
        rw [hconsumed, drop_length] at hr htransfer
        refine ⟨hr, fun rest' _ ↦ ?_⟩
        simp [parseStep, if_pos hfield, htransfer rest', bind, Except.bind]
      · cases h

inductive Block
  | comment (token : ℕ) (payload : List ℕ)
  | instruction (token : ℕ) (operands : List ℕ)

namespace Block

def tokens : Block → List ℕ
  | comment token payload => token :: payload
  | instruction token operands => token :: operands

def isComment : Block → Bool
  | comment _ _ => true
  | instruction _ _ => false

def hasImmediates (token : ℕ) : Bool :=
  match Opcode.ofCode (opcodeBits token) with
  | some .def_ | some .defI | some .defB => true
  | _ => false

/-- The format of a block: the length field of shader model 2 and later is true; in shader model 1 operand
tokens have bit 31 set and the others have it clear. -/
inductive Valid (major : ℕ) : Block → Prop
  | comment {token : ℕ} {payload : List ℕ} (code : opcodeBits token = 0xFFFE)
      (length : commentLength token = payload.length) (clear : major < 2 → isOperand token = false) :
      Valid major (.comment token payload)
  | instruction {token : ℕ} {operands : List ℕ} (code : opcodeBits token ≠ 0xFFFE ∧ opcodeBits token ≠ 0xFFFF)
      (takes : ∀ opcode, Opcode.ofCode (opcodeBits token) = some opcode → Operands opcode operands)
      (length : 2 ≤ major → lengthField token = operands.length) (clear : major < 2 → isOperand token = false)
      (run : major < 2 → hasImmediates token = false → ∀ t ∈ operands, isOperand t = true) :
      Valid major (.instruction token operands)

theorem Valid.clear {b : Block} (h : b.Valid major) (rest : List ℕ) : Clear major (b.tokens ++ rest) := by
  intro hmajor t ht
  cases h with
  | comment _ _ hclear =>
    cases ht
    exact hclear hmajor
  | instruction _ _ _ hclear _ =>
    cases ht
    exact hclear hmajor

end Block

open Block

theorem takeWhile_run {p : ℕ → Bool} (hops : ∀ t ∈ ops, p t = true)
    (hrest : ∀ t, rest.head? = some t → p t = false) : (ops ++ rest).takeWhile p = ops := by
  rw [takeWhile_append_of_pos hops]
  cases rest with
  | nil => simp
  | cons t rest => rw [takeWhile_cons_of_neg (by simp [hrest t rfl]), append_nil]

theorem operandTokenCount_immediates (hmajor : ¬ 2 ≤ major) (himm : hasImmediates token = true)
    (htakes : ∀ opcode, Opcode.ofCode (opcodeBits token) = some opcode → Operands opcode ops) (following : List ℕ) :
    operandTokenCount major token following = ops.length := by
  rw [operandTokenCount, if_neg hmajor]
  rw [hasImmediates] at himm
  generalize Opcode.ofCode (opcodeBits token) = code at himm htakes ⊢
  cases code with
  | none => cases himm
  | some opcode => cases opcode <;> first | exact (htakes _ rfl).symm | exact absurd himm (by decide)

theorem operandTokenCount_run (hmajor : ¬ 2 ≤ major) (himm : hasImmediates token = false)
    (following : List ℕ) : operandTokenCount major token following = (following.takeWhile isOperand).length := by
  rw [operandTokenCount, if_neg hmajor]
  rw [hasImmediates] at himm
  generalize Opcode.ofCode (opcodeBits token) = code at himm ⊢
  cases code with
  | none => rfl
  | some opcode => cases opcode <;> first | rfl | exact absurd himm (by decide)

theorem operandTokenCount_append (h : (instruction token ops).Valid major) (hclear : Clear major rest) :
    operandTokenCount major token (ops ++ rest) = ops.length := by
  cases h with
  | instruction _ htakes hlength _ hrun =>
    by_cases hmajor : 2 ≤ major
    · rw [operandTokenCount, if_pos hmajor, hlength hmajor]
    · cases himm : hasImmediates token with
      | true => exact operandTokenCount_immediates hmajor himm htakes _
      | false =>
        have hlt := not_le.1 hmajor
        rw [operandTokenCount_run hmajor himm, takeWhile_run (hrun hlt himm) (hclear hlt)]

theorem ofCode_ne_comment {code : ℕ} (h : code ≠ 0xFFFE ∧ code ≠ 0xFFFF) (hcode : Opcode.ofCode code = some opcode) :
    opcode ≠ .comment ∧ opcode ≠ .end_ := by
  constructor
  · rintro rfl
    apply h.1
    unfold Opcode.ofCode at hcode
    split at hcode <;> first | rfl | cases hcode
  · rintro rfl
    apply h.2
    unfold Opcode.ofCode at hcode
    split at hcode <;> first | rfl | cases hcode

theorem clear_end : Clear major [0xFFFF] := by
  intro _ t ht
  cases ht
  decide

namespace Block

def step (major : ℕ) (st : ParserState) : Block → Option ParserState
  | comment _ _ => some st
  | instruction token operands =>
    match Opcode.ofCode (opcodeBits token) with
    | none => none
    | some opcode => (parseStep major st opcode token (operands ++ [0xFFFF])).toOption.map Prod.fst

def run (major : ℕ) : ParserState → List Block → Option ParserState
  | st, [] => some st
  | st, b :: blocks => (step major st b).bind fun st ↦ run major st blocks

def render (blocks : List Block) : List ℕ := blocks.flatMap tokens

theorem render_cons (b : Block) (blocks : List Block) : render (b :: blocks) = b.tokens ++ render blocks :=
  flatMap_cons

theorem run_filter (major : ℕ) (st : ParserState) (blocks : List Block) :
    run major st (blocks.filter fun b ↦ !b.isComment) = run major st blocks := by
  induction blocks generalizing st with
  | nil => rfl
  | cons b blocks ih =>
    cases b with
    | comment token payload => exact ih st
    | instruction token operands =>
      have hkeep : ((instruction token operands :: blocks).filter fun b ↦ !b.isComment) =
          instruction token operands :: blocks.filter fun b ↦ !b.isComment := rfl
      rw [hkeep, run, run]
      exact congrArg (Option.bind _) (funext ih)

end Block

theorem parseStep_block (st : ParserState) (h : (instruction token ops).Valid major) (hclear : Clear major rest)
    (hcode : Opcode.ofCode (opcodeBits token) = some opcode) :
    (parseStep major st opcode token (ops ++ rest)).toOption =
      ((instruction token ops).step major st).map fun st ↦ (st, rest) := by
  have hcount : ∀ rest, Clear major rest → operandTokenCount major token (ops ++ rest) = ops.length :=
    fun rest hclear ↦ operandTokenCount_append h hclear
  have hne : opcode ≠ .comment ∧ opcode ≠ .end_ := by
    cases h with
    | instruction hbits _ _ _ _ => exact ofCode_ne_comment hbits hcode
  have hops : Operands opcode ops := by
    cases h with
    | instruction _ htakes _ _ _ => exact htakes opcode hcode
  simp only [Block.step, hcode]
  cases hstep : parseStep major st opcode token (ops ++ rest) with
  | ok result =>
    obtain ⟨st', r⟩ := result
    obtain ⟨rfl, htransfer⟩ := parseStep_append hops hne hcount hclear hstep
    rw [htransfer _ clear_end]
    rfl
  | error e =>
    cases hend : parseStep major st opcode token (ops ++ [0xFFFF]) with
    | error e => rfl
    | ok result =>
      obtain ⟨st', r⟩ := result
      obtain ⟨-, htransfer⟩ := parseStep_append hops hne hcount clear_end hend
      rw [htransfer rest hclear] at hstep
      cases hstep

variable {blocks : List Block}

theorem clear_render {endToken : ℕ} (hv : ∀ b ∈ blocks, b.Valid major)
    (hend : major < 2 → isOperand endToken = false) : Clear major (render blocks ++ [endToken]) := by
  cases blocks with
  | nil =>
    intro hmajor t ht
    cases ht
    exact hend hmajor
  | cons b blocks =>
    rw [render_cons, append_assoc]
    exact (hv b mem_cons_self).clear _

theorem parseLoop_cons (hcode : Opcode.ofCode (opcodeBits token) = some opcode) (hne : opcode ≠ .end_) (fuel : ℕ) :
    parseLoop major (fuel + 1) st (token :: rest) =
      parseStep major st opcode token rest >>= fun next ↦ parseLoop major fuel next.1 next.2 := by
  rw [parseLoop]
  simp [hcode, if_neg hne]

theorem parseStep_comment {payload : List ℕ} (hlength : commentLength token = payload.length) :
    parseStep major st .comment token (payload ++ rest) = .ok (st, rest) := by
  have hlong : ¬ (payload ++ rest).length < commentLength token := by
    rw [hlength, length_append]
    omega
  rw [parseStep, if_neg hlong, hlength, drop_left]

theorem parseLoop_blocks (st : ParserState) {endToken : ℕ} (hv : ∀ b ∈ blocks, b.Valid major)
    (hcode : opcodeBits endToken = 0xFFFF) (hend : major < 2 → isOperand endToken = false) (fuel : ℕ)
    (hfuel : (render blocks).length + 1 ≤ fuel) :
    (parseLoop major fuel st (render blocks ++ [endToken])).toOption =
      (Block.run major st blocks).map fun st ↦ (st, []) := by
  induction blocks generalizing st fuel with
  | nil =>
    obtain ⟨fuel, rfl⟩ := Nat.exists_eq_add_of_le' hfuel
    simp only [render, flatMap_nil, nil_append, length_nil, parseLoop, hcode]
    rfl
  | cons b blocks ih =>
    have htail : ∀ c ∈ blocks, c.Valid major := fun c hc ↦ hv c (mem_cons_of_mem b hc)
    have hclear := clear_render htail hend
    have hb := hv b mem_cons_self
    rw [render_cons, length_append] at hfuel
    rw [render_cons, append_assoc]
    cases b with
    | comment token payload =>
      rw [tokens, length_cons] at hfuel
      obtain ⟨fuel, rfl⟩ : ∃ n, fuel = n + 1 := ⟨fuel - 1, by omega⟩
      cases hb with
      | comment hbits hlength _ =>
        have hopcode : Opcode.ofCode (opcodeBits token) = some .comment := by rw [hbits]; rfl
        rw [tokens, cons_append, parseLoop_cons hopcode (by decide), parseStep_comment hlength]
        exact ih st htail fuel (by omega)
    | instruction token operands =>
      rw [tokens, length_cons] at hfuel
      obtain ⟨fuel, rfl⟩ : ∃ n, fuel = n + 1 := ⟨fuel - 1, by omega⟩
      rw [tokens, cons_append, Block.run]
      cases hopcode : Opcode.ofCode (opcodeBits token) with
      | none => simp [parseLoop, Block.step, hopcode, Except.toOption]
      | some opcode =>
        have hne : opcode ≠ .end_ := by
          cases hb with
          | instruction hbits _ _ _ _ => exact (ofCode_ne_comment hbits hopcode).2
        rw [parseLoop_cons hopcode hne, toOption_bind, parseStep_block st hb hclear hopcode]
        cases (instruction token operands).step major st with
        | none => rfl
        | some st' => exact ih st' htail fuel (by omega)

def Holds (memory : ℕ → ℕ) (len : ℕ) (tokens : List ℕ) : Prop := ∀ i t, tokens[i]? = some t → memory (len + i) = t

section Walk

variable {memory : ℕ → ℕ} {len : ℕ}

theorem Holds.head {t : ℕ} (h : Holds memory len (t :: rest)) : memory len = t := h 0 t rfl

theorem Holds.left (h : Holds memory len (ops ++ rest)) : Holds memory len ops := by
  intro i t ht
  apply h i t
  obtain ⟨hi, -⟩ := List.getElem?_eq_some_iff.1 ht
  rwa [List.getElem?_append_left hi]

theorem Holds.right (h : Holds memory len (ops ++ rest)) : Holds memory (len + ops.length) rest := by
  intro i t ht
  rw [add_assoc]
  apply h
  rwa [getElem?_append_right (Nat.le_add_right _ _), Nat.add_sub_cancel_left]

theorem Holds.tail {t : ℕ} (h : Holds memory len (t :: rest)) : Holds memory (len + 1) rest := by
  have hcons : Holds memory len ([t] ++ rest) := h
  exact hcons.right

theorem Holds.map_range (h : Holds memory len ops) : ((range ops.length).map fun n ↦ memory (len + n)) = ops := by
  refine ext_getElem? fun i ↦ ?_
  rw [getElem?_map]
  by_cases hi : i < ops.length
  · rw [getElem?_range hi, Option.map_some, getElem?_eq_getElem hi, h i ops[i] (getElem?_eq_getElem hi)]
  · have hout : ops.length ≤ i := not_lt.1 hi
    rw [getElem?_eq_none (by simpa using hout), getElem?_eq_none hout]
    rfl

theorem window_split (h : Holds memory len ops) (hle : len + ops.length ≤ maxTokens) :
    window memory len = ops ++ window memory (len + ops.length) := by
  have hsum : maxTokens - len = ops.length + (maxTokens - (len + ops.length)) := by omega
  rw [window, hsum, range_add, map_append, h.map_range, map_map, window]
  congr 1
  refine map_congr_left fun n _ ↦ ?_
  rw [Function.comp_apply, add_assoc]

theorem clear_window (h : Holds memory len rest) (hne : rest ≠ []) (hclear : Clear major rest) :
    Clear major (window memory len) := by
  intro hmajor t ht
  obtain ⟨u, tail, rfl⟩ := exists_cons_of_ne_nil hne
  have hu := hclear hmajor u rfl
  rw [window] at ht
  cases hn : maxTokens - len with
  | zero => simp [hn] at ht
  | succ n =>
    rw [hn, range_succ_eq_map] at ht
    obtain rfl := Option.some.inj ht
    change isOperand (memory (len + 0)) = false
    rw [add_zero, h.head]
    exact hu

theorem le_operandTokenCount (hb : (instruction token ops).Valid major) (h : Holds memory len ops)
    (hlt : maxTokens < len + ops.length) : maxTokens ≤ len + operandTokenCount major token (window memory len) := by
  have hfixed : operandTokenCount major token (window memory len) = ops.length →
      maxTokens ≤ len + operandTokenCount major token (window memory len) := by omega
  cases hb with
  | instruction _ htakes hlength _ hrun =>
    by_cases hmajor : 2 ≤ major
    · apply hfixed
      rw [operandTokenCount, if_pos hmajor, hlength hmajor]
    · cases himm : hasImmediates token with
      | true => exact hfixed (operandTokenCount_immediates hmajor himm htakes _)
      | false =>
        have hall : ∀ t ∈ window memory len, isOperand t = true := by
          intro t ht
          obtain ⟨n, hn, rfl⟩ := mem_map.1 ht
          rw [mem_range] at hn
          have hlen : n < ops.length := by omega
          rw [h n ops[n] (getElem?_eq_getElem hlen)]
          exact hrun (not_le.1 hmajor) himm _ (getElem_mem hlen)
        rw [operandTokenCount_run hmajor himm, takeWhile_eq_self_iff.2 hall, window, length_map,
          length_range]
        omega

theorem walk_of_le (h : maxTokens ≤ len) : walk memory major len = none := by
  rw [walk, if_pos h]

theorem walk_blocks {endToken : ℕ} (hv : ∀ b ∈ blocks, b.Valid major)
    (hcode : opcodeBits endToken = 0xFFFF) (hend : major < 2 → isOperand endToken = false)
    (h : Holds memory len (render blocks ++ [endToken])) : walk memory major len =
      if len + (render blocks).length + 1 ≤ maxTokens then some (len + (render blocks).length + 1)
      else none := by
  induction blocks generalizing len with
  | nil =>
    have hhead : memory len = endToken := h.head
    by_cases hle : maxTokens ≤ len
    · rw [walk_of_le hle, if_neg (by simp [render]; omega)]
    · rw [walk, if_neg hle, hhead, if_pos hcode, if_pos (by simp [render]; omega)]
      simp [render]
  | cons b blocks ih =>
    have htail : ∀ c ∈ blocks, c.Valid major := fun c hc ↦ hv c (mem_cons_of_mem b hc)
    have hb := hv b mem_cons_self
    rw [render_cons, append_assoc] at h
    rw [render_cons, length_append]
    by_cases hle : maxTokens ≤ len
    · rw [walk_of_le hle, if_neg (by omega)]
    cases b with
    | comment token payload =>
      cases hb with
      | comment hbits hlength _ =>
        have hnext := ih htail h.tail.right
        have hne : ¬ opcodeBits (memory len) = 0xFFFF := by rw [h.head, hbits]; decide
        have heq : opcodeBits (memory len) = 0xFFFE := by rw [h.head, hbits]
        rw [walk, if_neg hle, if_neg hne, if_pos heq, h.head, hlength, hnext, tokens, length_cons,
          show len + 1 + payload.length + (render blocks).length + 1 =
            len + (payload.length + 1 + (render blocks).length) + 1 by omega]
    | instruction token operands =>
      have hbits : opcodeBits token ≠ 0xFFFE ∧ opcodeBits token ≠ 0xFFFF := by
        cases hb with
        | instruction hbits _ _ _ _ => exact hbits
      have htoken : memory len = token := h.head
      rw [walk, if_neg hle, htoken, if_neg hbits.2, if_neg hbits.1, tokens, length_cons]
      by_cases hcut : maxTokens < len + 1 + operands.length
      · rw [walk_of_le (le_operandTokenCount hb h.tail.left hcut), if_neg (by omega)]
      · have hrest : Holds memory (len + 1 + operands.length) (render blocks ++ [endToken]) := h.tail.right
        have hclear := clear_window hrest (by simp) (clear_render htail hend)
        rw [window_split h.tail.left (not_lt.1 hcut), operandTokenCount_append hb hclear, ih htail hrest,
          show len + 1 + operands.length + (render blocks).length + 1 =
            len + (operands.length + 1 + (render blocks).length) + 1 by omega]

end Walk

structure ShaderStream where
  version : ℕ
  blocks : List Block
  endToken : ℕ
  valid : ∀ b ∈ blocks, b.Valid (majorOf version)
  endCode : opcodeBits endToken = 0xFFFF
  endClear : majorOf version < 2 → isOperand endToken = false

/-- A vertex shader with one move behind a comment whose words look like END. -/
instance : Inhabited ShaderStream where
  default :=
    { version := 0xFFFE0200
      blocks := [.comment 0x0002FFFE [0x0000FFFF, 0x0000FFFF], .instruction 0x02000001 [0x800F0000, 0xA0E40000]]
      endToken := 0x0000FFFF
      valid := by
        intro b hb
        obtain rfl | hb := mem_cons.1 hb
        · exact .comment rfl rfl (by decide)
        · obtain rfl := mem_singleton.1 hb
          refine .instruction (by decide) (fun opcode hcode ↦ ?_) (fun _ ↦ rfl) (by decide) (by decide)
          obtain rfl := Option.some.inj hcode
          exact trivial
      endCode := rfl
      endClear := by decide }

namespace ShaderStream

def tokens (s : ShaderStream) : List ℕ := s.version :: (render s.blocks ++ [s.endToken])

def instructions (s : ShaderStream) : List Block := s.blocks.filter fun b ↦ !b.isComment

theorem readShaderBytecode_eq {memory : ℕ → ℕ} (s : ShaderStream) (h : Holds memory 0 s.tokens)
    {slice : List ℕ} (hread : readShaderBytecode memory = some slice) : slice = s.tokens := by
  have hversion : memory 0 = s.version := h.head
  have hwalk := walk_blocks s.valid s.endCode s.endClear h.tail
  rw [readShaderBytecode, hversion, hwalk] at hread
  split at hread
  · split at hread
    · have hlen : 1 + (render s.blocks).length + 1 = s.tokens.length := by
        simp only [tokens, length_cons, length_append, length_nil]
        omega
      have hmap := h.map_range
      simp only [zero_add] at hmap
      rw [zero_add, Option.map_some, hlen, hmap] at hread
      exact (Option.some.inj hread).symm
    · cases hread
  · cases hread

theorem parseTokens_toOption (s : ShaderStream) :
    (parseTokens s.tokens).toOption = (shaderTypeOf s.version).bind fun shaderType ↦
      if knownModel shaderType (majorOf s.version) (minorOf s.version) then
        (Block.run (majorOf s.version) .empty s.blocks).map fun st ↦
          (⟨st.code, s.tokens, shaderType, majorOf s.version, minorOf s.version⟩, []) else none := by
  rw [tokens, parseTokens]
  cases shaderTypeOf s.version with
  | none => rfl
  | some shaderType =>
    simp only [Option.bind_some]
    split
    · rw [toOption_bind, parseLoop_blocks .empty s.valid s.endCode s.endClear _ (by simp)]
      cases Block.run (majorOf s.version) .empty s.blocks with
      | none => rfl
      | some st => rfl
    · rfl

theorem readShaderBytecode_of_le {memory : ℕ → ℕ} (s : ShaderStream) (h : Holds memory 0 s.tokens)
    (htype : (shaderTypeOf s.version).isSome) (hlen : s.tokens.length ≤ maxTokens) :
    (readShaderBytecode memory).isSome := by
  have hversion : memory 0 = s.version := h.head
  have hle : 1 + (render s.blocks).length + 1 ≤ maxTokens := by
    simp only [tokens, length_cons, length_append, length_nil] at hlen
    omega
  have hwalk := walk_blocks s.valid s.endCode s.endClear h.tail
  rw [zero_add, if_pos hle] at hwalk
  rw [readShaderBytecode, hversion, if_pos htype, hwalk]
  rfl

/-- The walk over guest memory cuts out the stream, and a successful parse of it stops behind the END token
the walk stopped at; comments between the instructions change neither the program nor whether it parses. -/
theorem walk_and_parse_agree :
    (∀ (s : ShaderStream) (memory : ℕ → ℕ), Holds memory 0 s.tokens →
      ((shaderTypeOf s.version).isSome → s.tokens.length ≤ maxTokens → (readShaderBytecode memory).isSome) ∧
      ∀ slice, readShaderBytecode memory = some slice → slice = s.tokens ∧
        ∀ program rest, parseTokens slice = .ok (program, rest) → rest = []) ∧
    ∀ s s' : ShaderStream, s.version = s'.version → s.instructions = s'.instructions →
      ((parse s.tokens).toOption.map fun p ↦ { p with bytecode := [] }) =
        (parse s'.tokens).toOption.map fun p ↦ { p with bytecode := [] } := by
  constructor
  · intro s memory h
    refine ⟨s.readShaderBytecode_of_le h, fun slice hread ↦ ?_⟩
    obtain rfl := s.readShaderBytecode_eq h hread
    refine ⟨rfl, fun program rest hparse ↦ ?_⟩
    have hblocks := s.parseTokens_toOption
    rw [hparse] at hblocks
    cases hrun : Block.run (majorOf s.version) .empty s.blocks with
    | none =>
      rw [hrun] at hblocks
      cases htype : shaderTypeOf s.version <;> simp [htype, Except.toOption] at hblocks
    | some st =>
      rw [hrun] at hblocks
      cases htype : shaderTypeOf s.version with
      | none => simp [htype, Except.toOption] at hblocks
      | some shaderType =>
        simp only [htype, Except.toOption, Option.bind_some, Option.map_some] at hblocks
        split at hblocks
        · exact (Prod.mk.inj (Option.some.inj hblocks)).2
        · cases hblocks
  · intro s s' hversion hinst
    have hrun : Block.run (majorOf s'.version) .empty s.blocks = Block.run (majorOf s'.version) .empty s'.blocks := by
      rw [← run_filter, ← run_filter _ _ s'.blocks]
      exact congrArg _ hinst
    simp only [parse, toOption_bind, parseTokens_toOption, hversion, hrun]
    cases shaderTypeOf s'.version with
    | none => rfl
    | some shaderType =>
      simp only [Option.bind_some]
      split
      · cases Block.run (majorOf s'.version) .empty s'.blocks with
        | none => rfl
        | some st => rfl
      · rfl

end ShaderStream

end Mtld3d.Dxso
