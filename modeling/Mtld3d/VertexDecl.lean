import Mtld3d.Semantic
import Mtld3d.PipelineState

namespace Mtld3d

open DeclUsage

structure VertexElement where
  stream : ℕ
  offset : ℕ
  type : ℕ
  usage : ℕ
  usageIndex : ℕ
  deriving DecidableEq, Repr

def declTypeToMetalFormat : ℕ → VertexFormat
  | 0 => .float
  | 1 => .float2
  | 2 => .float3
  | 3 => .float4
  | 4 => .uChar4NormalizedBgra
  | 5 => .uChar4
  | 6 => .short2
  | 7 => .short4
  | 8 => .uChar4Normalized
  | 9 => .short2Normalized
  | 10 => .short4Normalized
  | 11 => .uShort2Normalized
  | 12 => .uShort4Normalized
  | 15 => .half2
  | 16 => .half4
  | _ => .invalid

def VertexFormat.byteSize : VertexFormat → ℕ
  | .invalid => 0
  | .uChar4 | .uChar4Normalized | .uChar4NormalizedBgra => 4
  | .short2 | .uShort2Normalized | .short2Normalized | .half2 | .float => 4
  | .short4 | .uShort4Normalized | .short4Normalized | .half4 | .float2 => 8
  | .float3 => 12
  | .float4 => 16

def declTypeDim : ℕ → ℕ
  | 0 => 1
  | 1 | 6 | 9 | 11 | 15 => 2
  | 2 | 13 | 14 => 3
  | 3 | 4 | 5 | 7 | 8 | 10 | 12 | 16 => 4
  | _ => 0

namespace VertexElement

def inRange (e : VertexElement) : Bool := decide (e.stream < maxStreams)

def format (e : VertexElement) : VertexFormat := declTypeToMetalFormat e.type

def fetched (e : VertexElement) : Bool := e.inRange && e.format != .invalid

def passthroughCode (e : VertexElement) : Option ℕ := declPassthroughCode e.usage e.usageIndex

end VertexElement

structure FfVsLayout where
  hasNormal : Bool
  hasColor0 : Bool
  hasColor1 : Bool
  hasRhw : Bool
  declaredIndices : Bool
  hasPsize : Bool
  texCoordCount : ℕ
  texCoordDims : ℕ → ℕ
  declaredWeightsCount : ℕ

structure FfVsLayoutScan where
  hasNormal : Bool
  hasColor0 : Bool
  hasColor1 : Bool
  hasRhw : Bool
  declaredIndices : Bool
  hasPsize : Bool
  maxTexcoordIndex : Option ℕ
  texCoordDims : ℕ → ℕ
  declaredWeightsCount : ℕ

namespace FfVsLayoutScan

def empty : FfVsLayoutScan := ⟨false, false, false, false, false, false, none, fun _ ↦ 0, 0⟩

def noteUsage (scan : FfVsLayoutScan) (e : VertexElement) : FfVsLayoutScan :=
  match ofCode e.usage with
  | .normal => { scan with hasNormal := true }
  | .color =>
    if e.usageIndex = 0 then { scan with hasColor0 := true }
    else if e.usageIndex = 1 then { scan with hasColor1 := true }
    else scan
  | .texcoord =>
    { scan with
      maxTexcoordIndex := some (match scan.maxTexcoordIndex with
        | some prev => max prev e.usageIndex
        | none => e.usageIndex)
      texCoordDims :=
        if e.usageIndex < 8 then Function.update scan.texCoordDims e.usageIndex (declTypeDim e.type)
        else scan.texCoordDims }
  | .positionT => { scan with hasRhw := true }
  | .blendWeight =>
    { scan with declaredWeightsCount := match e.type with
        | 0 => 1
        | 1 => 2
        | 2 => 3
        | _ => 4 }
  | .blendIndices => { scan with declaredIndices := true }
  | .pSize => { scan with hasPsize := true }
  | _ => scan

def note (scan : FfVsLayoutScan) (e : VertexElement) : FfVsLayoutScan :=
  if e.inRange then scan.noteUsage e else scan

end FfVsLayoutScan

def checkedTexCoordCount : Option ℕ → ℕ
  | some m => if 8 ≤ m then 8 else m + 1
  | none => 0

def ffVsLayoutFromElements (elements : List VertexElement) : FfVsLayout :=
  let scan := elements.foldl FfVsLayoutScan.note FfVsLayoutScan.empty
  { hasNormal := scan.hasNormal
    hasColor0 := scan.hasColor0
    hasColor1 := scan.hasColor1
    hasRhw := scan.hasRhw
    declaredIndices := scan.declaredIndices
    hasPsize := scan.hasPsize
    texCoordCount := checkedTexCoordCount scan.maxTexcoordIndex
    texCoordDims := scan.texCoordDims
    declaredWeightsCount := scan.declaredWeightsCount }

def addPassthrough (codes : List ℕ) (e : VertexElement) : List ℕ :=
  if !e.fetched then codes
  else
    match e.passthroughCode with
    | none => codes
    | some code => if code ∈ codes ∨ codes.length = maxLinkedInputs then codes else codes ++ [code]

def rhwPassthrough (elements : List VertexElement) : List ℕ :=
  if elements.any fun e ↦ e.usage == positionT.code && e.inRange then elements.foldl addPassthrough []
  else []

def ffAttrIndexForSemantic (usage usageIndex : ℕ) : Option ℕ :=
  match ofCode usage, usageIndex with
  | .position, 0 | .positionT, 0 => some 0
  | .normal, 0 => some 1
  | .color, 0 => some 2
  | .color, 1 => some 3
  | .texcoord, i => if i < 8 then some (4 + i) else none
  | .blendWeight, 0 => some 12
  | .blendIndices, 0 => some 13
  | .pSize, 0 => some 14
  | _, _ => none

structure ResolvedAttrs where
  attrs : List VertexAttrDesc
  extents : ℕ → ℕ
  usedStreams : ℕ → Bool

namespace ResolvedAttrs

def empty : ResolvedAttrs := ⟨[], fun _ ↦ 0, fun _ ↦ false⟩

def add (r : ResolvedAttrs) (attrFor : VertexElement → Option ℕ) (e : VertexElement) : ResolvedAttrs :=
  if !e.inRange then r
  else if e.format == .invalid then r
  else
    match attrFor e with
    | none => r
    | some reg =>
      { attrs := r.attrs ++ [⟨reg, e.stream, e.offset, e.format⟩]
        usedStreams := Function.update r.usedStreams e.stream true
        extents := Function.update r.extents e.stream
          (max (r.extents e.stream) (e.offset + e.format.byteSize)) }

end ResolvedAttrs

def resolveAttrs (elements : List VertexElement) (attrFor : VertexElement → Option ℕ) : ResolvedAttrs :=
  elements.foldl (fun r e ↦ r.add attrFor e) .empty

def ffPassthroughAttrBase : ℕ := 15

def ffAttrFor (passthrough : List ℕ) (e : VertexElement) : Option ℕ :=
  match e.passthroughCode.bind fun code ↦ passthrough.findIdx? (· == code) with
  | some k => some (ffPassthroughAttrBase + k)
  | none => ffAttrIndexForSemantic e.usage e.usageIndex

/-- A `D3DCOLOR` blend index is fetched as bytes in memory order. -/
def blendIndicesAsBytes (attr : VertexAttrDesc) : VertexAttrDesc :=
  if some attr.attrIndex = ffAttrIndexForSemantic blendIndices.code 0 ∧
      attr.format = .uChar4NormalizedBgra then
    { attr with format := .uChar4 }
  else attr

def resolveAttrsForFf (elements : List VertexElement) (passthrough : List ℕ) : ResolvedAttrs :=
  let resolved := resolveAttrs elements (ffAttrFor passthrough)
  { resolved with attrs := resolved.attrs.map blendIndicesAsBytes }

theorem DeclUsage.ofCode_eq_iff {usage : DeclUsage} (h : usage ≠ .sample) (n : ℕ) :
    ofCode n = usage ↔ n = usage.code := by
  constructor
  · intro hn
    by_cases hle : n ≤ 13
    · rw [← hn, code_ofCode hle]
    · have hsample : ofCode n = .sample := by
        unfold ofCode
        split <;> first | rfl | omega
      exact absurd (hn.symm.trans hsample) h
  · rintro rfl
    exact ofCode_code usage

def declares (elements : List VertexElement) (usage : DeclUsage) : Bool :=
  elements.any fun e ↦ e.inRange && e.usage == usage.code

namespace FfVsLayoutScan

variable (get : FfVsLayoutScan → Bool) (p : VertexElement → Bool)

theorem foldl_note_flag (h : ∀ scan e, get (noteUsage scan e) = (get scan || p e))
    (elements : List VertexElement) (scan : FfVsLayoutScan) :
    get (elements.foldl note scan) = (get scan || elements.any fun e ↦ e.inRange && p e) := by
  induction elements generalizing scan with
  | nil => simp
  | cons e elements ih =>
    rw [List.foldl_cons, ih, List.any_cons, note]
    cases hr : e.inRange with
    | true => rw [if_pos rfl, h, Bool.true_and, Bool.or_assoc]
    | false => rw [if_neg (by decide), Bool.false_and, Bool.false_or]

theorem foldl_note_usage {usage : DeclUsage} (hne : usage ≠ .sample)
    (h : ∀ scan e, get (noteUsage scan e) = (get scan || decide (ofCode e.usage = usage)))
    (elements : List VertexElement) (hempty : get empty = false) :
    get (elements.foldl note empty) = declares elements usage := by
  rw [foldl_note_flag get _ h, hempty, Bool.false_or, declares]
  congr 1
  funext e
  rw [beq_eq_decide, decide_eq_decide.mpr (ofCode_eq_iff hne e.usage)]

end FfVsLayoutScan

open FfVsLayoutScan in
theorem layout_flags (elements : List VertexElement) :
    (ffVsLayoutFromElements elements).hasNormal = declares elements .normal ∧
      (ffVsLayoutFromElements elements).hasRhw = declares elements .positionT ∧
      (ffVsLayoutFromElements elements).declaredIndices = declares elements .blendIndices ∧
      (ffVsLayoutFromElements elements).hasPsize = declares elements .pSize := by
  refine ⟨foldl_note_usage (·.hasNormal) (by decide) (fun scan e ↦ ?_) elements rfl,
    foldl_note_usage (·.hasRhw) (by decide) (fun scan e ↦ ?_) elements rfl,
    foldl_note_usage (·.declaredIndices) (by decide) (fun scan e ↦ ?_) elements rfl,
    foldl_note_usage (·.hasPsize) (by decide) (fun scan e ↦ ?_) elements rfl⟩
  all_goals
    simp only [noteUsage]
    cases ofCode e.usage <;> simp
    split_ifs <;> rfl

open FfVsLayoutScan in
theorem layout_color (elements : List VertexElement) : ((ffVsLayoutFromElements elements).hasColor0 =
        elements.any fun e ↦ e.inRange && (e.usage == color.code && e.usageIndex == 0)) ∧
      ((ffVsLayoutFromElements elements).hasColor1 =
        elements.any fun e ↦ e.inRange && (e.usage == color.code && e.usageIndex == 1)) := by
  have husage : ∀ e : VertexElement,
      (e.usage == color.code) = decide (ofCode e.usage = .color) := fun e ↦ by
    rw [beq_eq_decide, decide_eq_decide.mpr (ofCode_eq_iff (by decide) e.usage)]
  refine ⟨foldl_note_flag (·.hasColor0) _ (fun scan e ↦ ?_) elements empty,
    foldl_note_flag (·.hasColor1) _ (fun scan e ↦ ?_) elements empty⟩
  all_goals
    simp only [noteUsage, husage]
    cases ofCode e.usage <;> simp
    split_ifs <;> simp_all

theorem lt_texCoordCount_iff (elements : List VertexElement) (i : ℕ) :
    i < (ffVsLayoutFromElements elements).texCoordCount ↔
      i < 8 ∧ ∃ e ∈ elements, e.inRange = true ∧ e.usage = texcoord.code ∧ i ≤ e.usageIndex := by
  have hscan := FfVsLayoutScan.foldl_note_flag
    (fun scan ↦ scan.maxTexcoordIndex.any fun m ↦ decide (i ≤ m))
    (fun e ↦ decide (ofCode e.usage = .texcoord) && decide (i ≤ e.usageIndex))
    (fun scan e ↦ by
      simp only [FfVsLayoutScan.noteUsage]
      cases ofCode e.usage <;> simp
      · cases scan.maxTexcoordIndex <;> simp
      · split_ifs <;> rfl)
    elements .empty
  have hcount : ∀ o : Option ℕ, i < checkedTexCoordCount o ↔ i < 8 ∧ o.any (fun m ↦ decide (i ≤ m)) = true := by
    intro o
    cases o with
    | none => simp [checkedTexCoordCount]
    | some m =>
      simp only [checkedTexCoordCount, Option.any_some, decide_eq_true_eq]
      split_ifs <;> omega
  rw [ffVsLayoutFromElements, hcount, hscan]
  simp [FfVsLayoutScan.empty, ofCode_eq_iff]

theorem layout_weights (elements : List VertexElement) :
    0 < (ffVsLayoutFromElements elements).declaredWeightsCount ↔ declares elements .blendWeight = true := by
  have hscan := FfVsLayoutScan.foldl_note_usage (fun scan ↦ scan.declaredWeightsCount != 0)
    (by decide : blendWeight ≠ .sample)
    (fun scan e ↦ by
      simp only [FfVsLayoutScan.noteUsage]
      cases ofCode e.usage <;> simp
      · split <;> decide
      · split_ifs <;> rfl)
    elements rfl
  rw [← hscan, bne_iff_ne, ffVsLayoutFromElements]
  exact Nat.pos_iff_ne_zero

def fetchOf (attr : ℕ) (e : VertexElement) : VertexAttrDesc :=
  blendIndicesAsBytes ⟨attr, e.stream, e.offset, e.format⟩

def suppliers (elements : List VertexElement) (passthrough : List ℕ) (attr : ℕ) : List VertexElement :=
  elements.filter fun e ↦ e.fetched && ffAttrFor passthrough e == some attr

theorem resolveAttrs_attrs (attrFor : VertexElement → Option ℕ) (elements : List VertexElement) :
    (resolveAttrs elements attrFor).attrs = elements.filterMap fun e ↦
        if e.fetched then (attrFor e).map fun reg ↦ ⟨reg, e.stream, e.offset, e.format⟩ else none := by
  suffices h : ∀ r : ResolvedAttrs, (elements.foldl (fun r e ↦ r.add attrFor e) r).attrs = r.attrs ++
      elements.filterMap fun e ↦
        if e.fetched then (attrFor e).map fun reg ↦ ⟨reg, e.stream, e.offset, e.format⟩ else none from
    h .empty
  induction elements with
  | nil => simp
  | cons e elements ih =>
    intro r
    rw [List.foldl_cons, ih, List.filterMap_cons, ResolvedAttrs.add, VertexElement.fetched]
    cases e.inRange with
    | false => simp
    | true =>
      by_cases hf : e.format = .invalid
      · simp [hf]
      · cases attrFor e <;> simp [hf]

theorem attrs_at (elements : List VertexElement) (passthrough : List ℕ) (attr : ℕ) :
    (resolveAttrsForFf elements passthrough).attrs.filter (fun a ↦ a.attrIndex == attr) =
      (suppliers elements passthrough attr).map (fetchOf attr) := by
  have hindex : ∀ a : VertexAttrDesc, (blendIndicesAsBytes a).attrIndex = a.attrIndex := by
    intro a
    rw [blendIndicesAsBytes]
    split_ifs <;> rfl
  rw [resolveAttrsForFf, resolveAttrs_attrs, suppliers]
  induction elements with
  | nil => rfl
  | cons e elements ih =>
    simp only [List.filterMap_cons, List.filter_cons]
    cases e.fetched with
    | false => simpa using ih
    | true =>
      cases hreg : ffAttrFor passthrough e with
      | none => simpa [hreg] using ih
      | some reg =>
        by_cases hr : reg = attr
        · subst hr
          simpa [hindex, fetchOf] using ih
        · simpa [hindex, hr] using ih

end Mtld3d
