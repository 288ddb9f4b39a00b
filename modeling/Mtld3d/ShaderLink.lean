import Mtld3d.Semantic
import Mtld3d.Lib.Writes
import Mathlib.Data.List.Sort

namespace Mtld3d

inductive RegKind
  | temp | input | const | addr | rastOut | attrOut | texcoordOut | constInt | colorOut | depthOut | sampler
  | output | constBool | loop | tempFloat16 | miscType | label | predicate
  deriving DecidableEq, Repr

structure Register where
  kind : RegKind
  index : ℕ
  deriving DecidableEq, Repr

abbrev Lane := Fin 4

abbrev WriteMask := ℕ

namespace WriteMask

def all : WriteMask := 15

def covers (mask : WriteMask) (c : Lane) : Bool := Nat.testBit mask c.val

def firstLaneIndex (mask : WriteMask) : ℕ := ((List.range 4).find? fun c ↦ Nat.testBit mask c).getD 0

end WriteMask

inductive Declaration
  | semantic (usage : DeclUsage) (usageIndex : ℕ) (reg : Register) (mask : WriteMask)
  | sampler (reg : Register)
  deriving DecidableEq, Repr

inductive ShaderType
  | vertex
  | pixel
  deriving DecidableEq, Repr

structure DxsoProgram where
  shaderType : ShaderType
  major : ℕ
  declarations : List Declaration

structure Element where
  semantic : Semantic
  reg : Register
  mask : WriteMask
  deriving DecidableEq, Repr

def elements (program : DxsoProgram) : List Element :=
  program.declarations.filterMap fun
    | .semantic usage usageIndex reg mask =>
      -- A dcl without a mask covers the whole register.
      some ⟨.new usage usageIndex, reg, if mask = 0 then .all else mask⟩
    | .sampler _ => none

def isOutputKind : RegKind → Bool
  | .rastOut | .attrOut | .texcoordOut | .output => true
  | _ => false

def vsOutputElements (vs : DxsoProgram) : List Element := (elements vs).filter fun e ↦ isOutputKind e.reg.kind

def psInputElements (ps : DxsoProgram) : List Element := (elements ps).filter fun e ↦ e.reg.kind == .input

abbrev SemanticSet := ℕ

namespace SemanticSet

def insert (set : SemanticSet) (s : Semantic) : SemanticSet := set ||| 1 <<< s.code

def contains (set : SemanticSet) (s : Semantic) : Bool := Nat.testBit set s.code

def iter (set : SemanticSet) : List Semantic :=
  ((List.range 256).filter fun code ↦ Nat.testBit set code).map .fromCode

def vsOutputs (vs : DxsoProgram) : SemanticSet :=
  if vs.shaderType ≠ .vertex ∨ vs.major ≠ 3 then 0
  else (vsOutputElements vs).foldl (fun set e ↦ if e.semantic.isExtra then set.insert e.semantic else set) 0

end SemanticSet

namespace LinkInputs

def add (codes : List ℕ) (e : Element) : List ℕ :=
  if !e.semantic.isExtra || decide (e.semantic.code ∈ codes) then codes
  else if codes.length = maxLinkedInputs then codes
  else codes ++ [e.semantic.code]

def psInputs (ps : DxsoProgram) : List ℕ :=
  if ps.shaderType ≠ .pixel ∨ ps.major ≠ 3 then [] else (psInputElements ps).foldl add []

/-- Bit `i` is set when the vertex shader outputs the `i`-th input. -/
def maskAgainst (codes : List ℕ) (outputs : SemanticSet) : ℕ :=
  codes.zipIdx.foldl (fun mask x ↦ if outputs.contains (.fromCode x.1) then mask ||| 1 <<< x.2 else mask) 0

def position (codes : List ℕ) (s : Semantic) : Option ℕ := codes.findIdx? (· == s.code)

end LinkInputs

/-- Where the emitted vertex function keeps an output register. -/
inductive WriteTarget
  | member (name : String)
  | pointSize
  | staging (n : ℕ)
  | discard
  deriving DecidableEq, Repr

def directTarget (e : Element) : Option WriteTarget :=
  match e.semantic.usage, e.semantic.index.val with
  | .pSize, 0 => if e.mask.firstLaneIndex ≠ 0 then none else some .pointSize
  | .fog, 0 => if e.mask.firstLaneIndex ≠ 0 then none else some (.member e.semantic.member)
  | _, _ => some (.member e.semantic.member)

namespace RegKind

/-- The order of the kinds in the source, which sorts registers. -/
def rank : RegKind → ℕ
  | temp => 0
  | input => 1
  | const => 2
  | addr => 3
  | rastOut => 4
  | attrOut => 5
  | texcoordOut => 6
  | constInt => 7
  | colorOut => 8
  | depthOut => 9
  | sampler => 10
  | output => 11
  | constBool => 12
  | loop => 13
  | tempFloat16 => 14
  | miscType => 15
  | label => 16
  | predicate => 17

end RegKind

def Register.le (a b : Register) : Bool :=
  decide (a.kind.rank < b.kind.rank) || a.kind.rank == b.kind.rank && decide (a.index ≤ b.index)

namespace VsOutputs

variable (vs : DxsoProgram)

def regs : List Register := ((vsOutputElements vs).map (·.reg)).dedup.insertionSort fun a b ↦ a.le b = true

def elementsOf (reg : Register) : List Element := (vsOutputElements vs).filter fun e ↦ e.reg == reg

def direct (reg : Register) : Option WriteTarget :=
  match elementsOf vs reg with
  | [only] => directTarget only
  | _ => none

def staged : List Register := (regs vs).filter fun reg ↦ (direct vs reg).isNone

def target (reg : Register) : Option WriteTarget :=
  if reg ∈ regs vs then some ((direct vs reg).getD (.staging ((staged vs).idxOf reg))) else none

def extras : List Semantic := (SemanticSet.vsOutputs vs).iter

end VsOutputs

/-- A store the vertex program executes, with the lanes its mask and predicate leave. -/
structure OutputStore (α : Type) where
  reg : Register
  mask : Lane → Bool
  value : Lane → α

section VertexFunction

variable {α : Type} (zero one pointSize : α) (vs : DxsoProgram)

abbrev Cell := WriteTarget × Lane

def splat (target : WriteTarget) (v : α) (cell : Cell) : Option α := if cell.1 = target then some v else none

def texcoordMember (i : ℕ) : String := "texcoord" ++ toString i

def basePrologue : List (Cell → Option α) :=
  [splat (.member "position") zero, splat (.member "position1") zero, splat (.member "color0") one,
    splat (.member "color1") zero]
    ++ (List.range 16).map (fun i ↦ splat (.member (texcoordMember i)) zero)
    ++ [splat (.member "fog") one, splat .pointSize pointSize, splat .discard zero]

def stagedDefault (reg : Register) (c : Lane) : α :=
  match (VsOutputs.elementsOf vs reg).find? fun e ↦ e.mask.covers c with
  | some e => e.semantic.vertexDefault zero one pointSize
  | none => zero

def stagedPrologue (slot : Register × ℕ) (cell : Cell) : Option α :=
  if cell.1 = .staging slot.2 then some (stagedDefault zero one pointSize vs slot.1 cell.2) else none

def writePrologue : List (Cell → Option α) :=
  (VsOutputs.extras vs).map (fun s ↦ splat (.member s.member) zero)
    ++ (VsOutputs.staged vs).zipIdx.map (stagedPrologue zero one pointSize vs)

def registerWriteTarget (reg : Register) : WriteTarget := (VsOutputs.target vs reg).getD .discard

def storeDst (store : OutputStore α) (cell : Cell) : Option α :=
  if cell.1 = registerWriteTarget vs store.reg ∧ store.mask cell.2 = true then some (store.value cell.2) else none

def lane (c : ℕ) : Lane := ⟨c % 4, Nat.mod_lt _ (by decide)⟩

def copyOut (n : ℕ) (e : Element) (m : Cell → α) (cell : Cell) : Option α :=
  let first := m (.staging n, lane e.mask.firstLaneIndex)
  match e.semantic.usage, e.semantic.index.val with
  | .pSize, 0 => if cell = (.pointSize, lane 0) then some first else none
  | .fog, 0 => if cell.1 = .member "fog" then some first else none
  | _, _ =>
    if cell.1 = .member e.semantic.member ∧ e.mask.covers cell.2 = true then some (m (.staging n, cell.2)) else none

def epilogueCopies : List (ℕ × Element) :=
  (VsOutputs.staged vs).zipIdx.flatMap fun x ↦ (VsOutputs.elementsOf vs x.1).map fun e ↦ (x.2, e)

def writeEpilogue (m : Cell → α) : Cell → α :=
  (epilogueCopies vs).foldl (fun m x ↦ Lib.write (copyOut x.1 x.2 m) m) m

def emitVsFunction (garbage : Cell → α) (stores : List (OutputStore α)) : Cell → α :=
  writeEpilogue vs (Lib.writeAll
    (basePrologue zero one pointSize ++ writePrologue zero one pointSize vs ++ stores.map (storeDst vs)) garbage)

end VertexFunction

/-- How the emitted pixel function reads an input register. -/
inductive PsRead
  | whole (member : Option String)
  | assembled (member : Lane → Option String)

namespace PsInputs

variable (ps : DxsoProgram) (linkedInputMask : ℕ)

def extras : List Semantic :=
  ((LinkInputs.psInputs ps).zipIdx.filter fun x ↦ linkedInputMask.testBit x.2).map fun x ↦ .fromCode x.1

def read (s : Semantic) : Option String :=
  match s.usage, s.index.val with
  | .position, 0 => some "position"
  | .pSize, 0 => none
  | _, _ =>
    if !s.isExtra then some s.member
    else if (LinkInputs.position (LinkInputs.psInputs ps) s).any (linkedInputMask.testBit ·) then some s.member
    else none

def elementsOf (index : ℕ) : List Element := (psInputElements ps).filter fun e ↦ e.reg.index == index

def reads (index : ℕ) : Option PsRead :=
  if ps.major ≠ 3 then
    if elementsOf ps index = [] then none else some (.whole (some ("color" ++ toString index)))
  else
    match elementsOf ps index with
    | [] => none
    | [only] => some (.whole (read ps linkedInputMask only.semantic))
    | first :: rest =>
      some (.assembled fun c ↦
        read ps linkedInputMask (((first :: rest).find? fun e ↦ e.mask.covers c).getD first).semantic)

end PsInputs

def PsRead.eval {α : Type} (zero : α) (varyings : String → Lane → α) : PsRead → Lane → α
  | .whole member, c => (member.map fun name ↦ varyings name c).getD zero
  | .assembled member, c => ((member c).map fun name ↦ varyings name c).getD zero

end Mtld3d
