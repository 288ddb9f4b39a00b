import Mtld3d.VertexDecl

namespace Mtld3d

open List DeclUsage VertexElement

structure FogConfig where
  vertexMode : ℕ
  tableMode : ℕ
  deriving DecidableEq, Repr

/-- Render states by their `D3DRS_*` index. -/
abbrev RenderStates := ℕ → ℕ

namespace RenderState

def fogEnable : ℕ := 28

def specularEnable : ℕ := 29

def fogTableMode : ℕ := 35

def lighting : ℕ := 137

def fogVertexMode : ℕ := 140

def vertexBlend : ℕ := 151

def indexedVertexBlendEnable : ℕ := 167

end RenderState

open RenderState

def resolveFogConfig (rs : RenderStates) (hasRhw automaticFog : Bool) : FogConfig :=
  if !automaticFog || rs fogEnable == 0 then ⟨0, 0⟩
  else
    match rs fogTableMode with
    | 0 =>
      if hasRhw then ⟨4, 0⟩
      else
        match rs fogVertexMode with
        | 0 => ⟨4, 0⟩
        | 1 => ⟨1, 0⟩
        | 2 => ⟨2, 0⟩
        | 3 => ⟨3, 0⟩
        | _ => ⟨0, 0⟩
    | 1 => ⟨0, 1⟩
    | 2 => ⟨0, 2⟩
    | 3 => ⟨0, 3⟩
    | _ => ⟨0, 0⟩

/-- World matrices a `D3DVBF_*` mode blends; tweening and unknown modes fall back to one world matrix. -/
def blendMatrices : ℕ → ℕ
  | 1 => 2
  | 2 => 3
  | 3 => 4
  | 256 => 1
  | _ => 0

def resolveVertexBlendCount (mode : ℕ) (layout : FfVsLayout) (indexed : Bool) : ℕ :=
  if mode ≠ 256 ∧ layout.declaredWeightsCount = 0 then 0
  else if mode = 256 ∧ indexed = false then 0
  else blendMatrices mode

/-- The parts of the fixed-function vertex key its inputs and constant rows depend on. -/
structure FfVsKey where
  hasNormal : Bool
  hasColor0 : Bool
  hasColor1 : Bool
  lightingEnabled : Bool
  hasRhw : Bool
  specularEnable : Bool
  vertexBlendIndexed : Bool
  declaredIndices : Bool
  hasPsize : Bool
  inputTexCoordCount : ℕ
  lightActiveMask : ℕ
  fogMode : ℕ
  vertexBlendCount : ℕ
  declaredWeightsCount : ℕ
  passthrough : List ℕ

def activeLightMask (activeLights : ℕ) : ℕ := if activeLights = 0 then 0 else 255 >>> (8 - activeLights)

def buildVsKey (rs : RenderStates) (layout : FfVsLayout) (activeLights : ℕ) (passthrough : List ℕ) : FfVsKey :=
  let lightingEnabled := !layout.hasRhw && rs lighting != 0
  let vertexBlendIndexed := rs indexedVertexBlendEnable != 0 && layout.declaredIndices
  { hasNormal := layout.hasNormal
    hasColor0 := layout.hasColor0
    hasColor1 := layout.hasColor1
    lightingEnabled := lightingEnabled
    hasRhw := layout.hasRhw
    specularEnable := lightingEnabled && rs specularEnable != 0
    vertexBlendIndexed := vertexBlendIndexed
    declaredIndices := layout.declaredIndices
    hasPsize := layout.hasPsize
    inputTexCoordCount := layout.texCoordCount
    lightActiveMask := if lightingEnabled then activeLightMask activeLights else 0
    fogMode := (resolveFogConfig rs layout.hasRhw true).vertexMode
    vertexBlendCount := resolveVertexBlendCount (rs vertexBlend) layout vertexBlendIndexed
    declaredWeightsCount := layout.declaredWeightsCount
    passthrough := if layout.hasRhw then passthrough else [] }

/-- A member of the emitted `VertexIn` and the declaration semantic the shader reads it as. -/
structure StageInput where
  name : String
  attr : ℕ
  semantic : Semantic
  deriving DecidableEq, Repr

def inputWhen (declared : Bool) (input : StageInput) : List StageInput := if declared then [input] else []

def texcoordInput (i : ℕ) : StageInput := ⟨s!"v{4 + i}", 4 + i, .new .texcoord i⟩

def passthroughInput (entry : ℕ × ℕ) : StageInput :=
  ⟨s!"p{entry.2}", ffPassthroughAttrBase + entry.2, .fromCode entry.1⟩

def emitVertexIn (vs : FfVsKey) : List StageInput :=
  [⟨"v0", 0, .new (if vs.hasRhw then .positionT else .position) 0⟩]
    ++ inputWhen (vs.hasNormal && !vs.hasRhw) ⟨"v1", 1, .new .normal 0⟩
    ++ inputWhen vs.hasColor0 ⟨"v2", 2, .new .color 0⟩
    ++ inputWhen vs.hasColor1 ⟨"v3", 3, .new .color 1⟩
    ++ (List.range vs.inputTexCoordCount).map texcoordInput
    ++ inputWhen (decide (0 < vs.vertexBlendCount) && decide (0 < vs.declaredWeightsCount) && !vs.hasRhw)
      ⟨"blend_weight", 12, .new .blendWeight 0⟩
    ++ inputWhen (decide (0 < vs.vertexBlendCount) && vs.declaredIndices && !vs.hasRhw)
      ⟨"blend_indices", 13, .new .blendIndices 0⟩
    ++ inputWhen vs.hasPsize ⟨"psize", 14, .new .pSize 0⟩
    ++ vs.passthrough.zipIdx.map passthroughInput

def VertexElement.carries (e : VertexElement) (s : Semantic) : Bool :=
  e.usage == s.usage.code && e.usageIndex == s.index.val

def carriers (elements : List VertexElement) (s : Semantic) : ℕ :=
  elements.countP fun e ↦ e.fetched && e.carries s

def Supplied (elements : List VertexElement) (passthrough : List ℕ) (input : StageInput) : Prop :=
  ∃ e ∈ elements, e.carries input.semantic = true ∧
    (resolveAttrsForFf elements passthrough).attrs.filter (fun a ↦ a.attrIndex == input.attr) =
      [fetchOf input.attr e]

theorem fetchOf_fetched {attr : ℕ} {e e' : VertexElement} (h : fetchOf attr e = fetchOf attr e')
    (he : e'.fetched = true) : e.fetched = true := by
  have hstream : ∀ e, (fetchOf attr e).bufferIndex = e.stream := by
    intro e
    rw [fetchOf, blendIndicesAsBytes]
    split_ifs <;> rfl
  have hformat : ∀ e, (fetchOf attr e).format = .invalid ↔ e.format = .invalid := by
    intro e
    rw [fetchOf, blendIndicesAsBytes]
    split_ifs with hc
    · have hbgra : e.format = .uChar4NormalizedBgra := hc.2
      simp [hbgra]
    · rfl
  simp only [fetched, inRange, Bool.and_eq_true, decide_eq_true_eq, bne_iff_ne] at he ⊢
  refine ⟨by rw [← hstream e, h, hstream]; exact he.1, fun hinv ↦ he.2 ?_⟩
  rw [← hformat, ← h, hformat]
  exact hinv

variable {elements : List VertexElement} {passthrough : List ℕ} {input : StageInput}

/-- What an input needs of the declaration, once its semantic is known to land on its attribute. -/
theorem supplied_iff (hlands : ∀ e ∈ elements, e.fetched = true → e.carries input.semantic = true →
      ffAttrFor passthrough e = some input.attr) :
    Supplied elements passthrough input ↔ carriers elements input.semantic = 1 ∧
      ∀ e ∈ elements, e.fetched = true → ffAttrFor passthrough e = some input.attr →
        e.carries input.semantic = true := by
  have hmem : ∀ e, e ∈ suppliers elements passthrough input.attr ↔
      e ∈ elements ∧ e.fetched = true ∧ ffAttrFor passthrough e = some input.attr := by
    intro e
    simp [suppliers]
  have hsame : (∀ e ∈ elements, e.fetched = true → ffAttrFor passthrough e = some input.attr →
      e.carries input.semantic = true) →
      carriers elements input.semantic = (suppliers elements passthrough input.attr).length := by
    intro hall
    rw [carriers, suppliers, countP_eq_length_filter]
    congr 1
    refine filter_congr fun e he ↦ ?_
    cases hf : e.fetched with
    | false => rfl
    | true =>
      rw [Bool.true_and, Bool.true_and, Bool.eq_iff_iff, beq_iff_eq]
      exact ⟨hlands e he hf, hall e he hf⟩
  rw [Supplied]
  simp only [attrs_at]
  constructor
  · rintro ⟨e, he, hcarries, hmap⟩
    obtain ⟨e', hsup, hfetch⟩ := map_eq_singleton_iff.mp hmap
    have hmem' : e' ∈ suppliers elements passthrough input.attr := by simp [hsup]
    have hf : e.fetched = true := fetchOf_fetched hfetch.symm ((hmem e').mp hmem').2.1
    have hin := (hmem e).mpr ⟨he, hf, hlands e he hf hcarries⟩
    have hall : ∀ x ∈ elements, x.fetched = true → ffAttrFor passthrough x = some input.attr →
        x.carries input.semantic = true := by
      intro x hx hxf hxa
      have hx' := (hmem x).mpr ⟨hx, hxf, hxa⟩
      rw [hsup, mem_singleton] at hx' hin
      rw [hx', ← hin]
      exact hcarries
    exact ⟨by rw [hsame hall, hsup]; rfl, hall⟩
  · rintro ⟨hone, hall⟩
    obtain ⟨e, hsup⟩ := length_eq_one_iff.mp ((hsame hall).symm.trans hone)
    have he := (hmem e).mp (by simp [hsup])
    exact ⟨e, he.1, hall e he.1 he.2.1 he.2.2, by rw [hsup]; rfl⟩

theorem ffAttrIndexForSemantic_eq_some (usage index a : ℕ) : ffAttrIndexForSemantic usage index = some a ↔
      a = 0 ∧ (usage = position.code ∨ usage = positionT.code) ∧ index = 0 ∨
      a = 1 ∧ usage = normal.code ∧ index = 0 ∨ a = 2 ∧ usage = color.code ∧ index = 0 ∨
      a = 3 ∧ usage = color.code ∧ index = 1 ∨
      a = 4 + index ∧ usage = texcoord.code ∧ index < 8 ∨
      a = 12 ∧ usage = blendWeight.code ∧ index = 0 ∨
      a = 13 ∧ usage = blendIndices.code ∧ index = 0 ∨
      a = 14 ∧ usage = pSize.code ∧ index = 0 := by
  by_cases hle : usage ≤ 13
  · rcases index with _ | _ | index
    all_goals
      interval_cases usage <;> simp [ffAttrIndexForSemantic, ofCode, code] <;> omega
  · have hsample : ofCode usage = .sample := by
      unfold ofCode
      split <;> first | rfl | omega
    simp only [ffAttrIndexForSemantic, hsample, code]
    simp
    omega

variable {e : VertexElement}

theorem ffAttrFor_fixed {a : ℕ} (h : ffAttrFor passthrough e = some a) (ha : a < ffPassthroughAttrBase) :
    ffAttrIndexForSemantic e.usage e.usageIndex = some a := by
  rw [ffAttrFor] at h
  split at h
  · have := Option.some.inj h
    omega
  · exact h

theorem ffAttrFor_of_not_passed (h : passthrough = [] ∨ e.passthroughCode = none) :
    ffAttrFor passthrough e = ffAttrIndexForSemantic e.usage e.usageIndex := by
  have hnone : (e.passthroughCode.bind fun code ↦ passthrough.findIdx? (· == code)) = none := by
    rcases h with rfl | h
    · cases e.passthroughCode <;> rfl
    · rw [h, Option.bind_none]
  rw [ffAttrFor, hnone]

theorem VertexElement.carries_iff {s : Semantic} :
    e.carries s = true ↔ e.usage = s.usage.code ∧ e.usageIndex = s.index.val := by
  rw [carries, Bool.and_eq_true, beq_iff_eq, beq_iff_eq]

theorem supplied_fixed_iff (hattr : ∀ usage index, ffAttrIndexForSemantic usage index = some input.attr ↔
      usage = input.semantic.usage.code ∧ index = input.semantic.index.val)
    (hlt : input.attr < ffPassthroughAttrBase) (hpass : passthrough = [] ∨
      declPassthroughCode input.semantic.usage.code input.semantic.index.val = none) :
    Supplied elements passthrough input ↔ carriers elements input.semantic = 1 := by
  have hlands : ∀ e ∈ elements, e.fetched = true → e.carries input.semantic = true →
      ffAttrFor passthrough e = some input.attr := by
    intro e _ _ hc
    obtain ⟨husage, hindex⟩ := carries_iff.mp hc
    rw [ffAttrFor_of_not_passed, (hattr _ _).mpr ⟨husage, hindex⟩]
    rwa [passthroughCode, husage, hindex]
  rw [supplied_iff hlands]
  refine and_iff_left fun e _ _ he ↦ ?_
  exact carries_iff.mpr ((hattr _ _).mp (ffAttrFor_fixed he hlt))

theorem supplied_position_iff (hpass : declares elements .positionT = false → passthrough = []) :
    Supplied elements passthrough
        ⟨"v0", 0, .new (if declares elements .positionT then .positionT else .position) 0⟩ ↔
      carriers elements (.new (if declares elements .positionT then .positionT else .position) 0) = 1 ∧
        (declares elements .positionT = true → carriers elements (.new .position 0) = 0) := by
  have hzero : ∀ usage index, ffAttrIndexForSemantic usage index = some 0 ↔
      (usage = position.code ∨ usage = positionT.code) ∧ index = 0 := by
    intro usage index
    have hne : ¬ 0 = 4 + index := by omega
    simp [ffAttrIndexForSemantic_eq_some, hne]
  cases hr : declares elements .positionT with
  | false =>
    rw [hpass hr]
    have hnone : ∀ e ∈ elements, e.fetched = true → e.usage ≠ positionT.code := by
      intro e he hf hu
      rw [fetched, Bool.and_eq_true] at hf
      have hdecl : declares elements .positionT = true :=
        any_eq_true.mpr ⟨e, he, by rw [hf.1, hu, beq_self_eq_true, Bool.true_and]⟩
      simp [hdecl] at hr
    rw [supplied_iff fun e _ _ hc ↦ ?_]
    · refine and_congr_right fun _ ↦ ⟨fun _ h ↦ absurd h (by decide), fun _ e he hf ha ↦ ?_⟩
      obtain ⟨husage, hindex⟩ := (hzero _ _).mp (ffAttrFor_fixed ha (by decide))
      exact carries_iff.mpr ⟨husage.resolve_right (hnone e he hf), hindex⟩
    · obtain ⟨husage, hindex⟩ := carries_iff.mp hc
      rw [ffAttrFor_of_not_passed (Or.inl rfl), (hzero _ _).mpr ⟨Or.inl husage, hindex⟩]
  | true =>
    rw [supplied_iff fun e _ _ hc ↦ ?_]
    · refine and_congr_right fun _ ↦ ⟨fun hall _ ↦ ?_, fun hcount e he hf ha ↦ ?_⟩
      · rw [carriers, countP_eq_zero]
        intro e he hc
        rw [Bool.and_eq_true, carries_iff] at hc
        obtain ⟨hf, husage, hindex⟩ := hc
        have hnot : e.passthroughCode = none := by
          rw [passthroughCode, husage, hindex]
          rfl
        have hcarries := hall e he hf (by
          rw [ffAttrFor_of_not_passed (Or.inr hnot), (hzero _ _).mpr ⟨Or.inl husage, hindex⟩])
        have hrhw := (carries_iff.mp hcarries).1
        rw [husage] at hrhw
        exact absurd hrhw (by decide)
      · obtain ⟨husage, hindex⟩ := (hzero _ _).mp (ffAttrFor_fixed ha (by decide))
        refine carries_iff.mpr ⟨husage.resolve_left fun hpos ↦ ?_, hindex⟩
        refine countP_eq_zero.mp (hcount rfl) e he ?_
        rw [hf, carries_iff.mpr ⟨hpos, hindex⟩, Bool.and_self]
    · obtain ⟨husage, hindex⟩ := carries_iff.mp hc
      have hnot : e.passthroughCode = none := by
        rw [passthroughCode, husage, hindex]
        rfl
      rw [ffAttrFor_of_not_passed (Or.inr hnot), (hzero _ _).mpr ⟨Or.inr husage, hindex⟩]

theorem addPassthrough_spec {codes : List ℕ} (hnodup : codes.Nodup)
    (hcodes : ∀ c ∈ codes, ∃ s : Semantic, c = s.code ∧ s.passesThrough = true) :
    (addPassthrough codes e).Nodup ∧
      ∀ c ∈ addPassthrough codes e, ∃ s : Semantic, c = s.code ∧ s.passesThrough = true := by
  rw [addPassthrough]
  split_ifs
  · exact ⟨hnodup, hcodes⟩
  cases hcode : e.passthroughCode with
  | none => exact ⟨hnodup, hcodes⟩
  | some code =>
    simp only
    split_ifs with hkeep
    · exact ⟨hnodup, hcodes⟩
    · have hnew : code ∉ codes := fun h ↦ hkeep (Or.inl h)
      refine ⟨nodup_append.mpr ⟨hnodup, nodup_singleton _, ?_⟩, fun c hc ↦ ?_⟩
      · intro a ha b hb heq
        rw [mem_singleton.mp hb] at heq
        exact hnew (heq ▸ ha)
      · rcases mem_append.mp hc with hc | hc
        · exact hcodes c hc
        · rw [mem_singleton.mp hc]
          obtain ⟨s, hs, hp, -⟩ := declPassthroughCode_eq_some_iff.mp hcode
          exact ⟨s, hs, hp⟩

theorem rhwPassthrough_spec (elements : List VertexElement) : (rhwPassthrough elements).Nodup ∧
      ∀ c ∈ rhwPassthrough elements, ∃ s : Semantic, c = s.code ∧ s.passesThrough = true := by
  rw [rhwPassthrough]
  split_ifs with hrhw
  · clear hrhw
    suffices h : ∀ codes : List ℕ, codes.Nodup →
        (∀ c ∈ codes, ∃ s : Semantic, c = s.code ∧ s.passesThrough = true) →
        (elements.foldl addPassthrough codes).Nodup ∧
          ∀ c ∈ elements.foldl addPassthrough codes, ∃ s : Semantic, c = s.code ∧ s.passesThrough = true from
      h [] nodup_nil (by simp)
    induction elements with
    | nil => exact fun codes hn hc ↦ ⟨hn, hc⟩
    | cons e elements ih =>
      intro codes hn hc
      obtain ⟨hn', hc'⟩ := addPassthrough_spec (e := e) hn hc
      exact ih _ hn' hc'
  · exact ⟨nodup_nil, by simp⟩

theorem ffAttrFor_passed_iff (hnodup : passthrough.Nodup) {c k : ℕ}
    (hk : passthrough[k]? = some c) (e : VertexElement) :
    ffAttrFor passthrough e = some (ffPassthroughAttrBase + k) ↔ e.passthroughCode = some c := by
  have hfind : ∀ code, passthrough.findIdx? (· == code) = some k ↔ code = c := by
    intro code
    obtain ⟨hlt, hget⟩ := List.getElem?_eq_some_iff.mp hk
    rw [List.findIdx?_eq_some_iff_getElem]
    constructor
    · rintro ⟨_, heq, -⟩
      rw [beq_iff_eq, hget] at heq
      exact heq.symm
    · rintro rfl
      refine ⟨hlt, beq_iff_eq.mpr hget, fun j hj ↦ ?_⟩
      rw [beq_iff_eq]
      intro heq
      have := (hnodup.getElem_inj_iff).mp (heq.trans hget.symm)
      omega
  rw [ffAttrFor]
  constructor
  · intro h
    split at h
    · rename_i k' hbind
      have hkk : k' = k := by
        have := Option.some.inj h
        omega
      obtain ⟨code, hcode, hidx⟩ := Option.bind_eq_some_iff.mp hbind
      rw [hcode, (hfind code).mp (hkk ▸ hidx)]
    · rw [ffAttrIndexForSemantic_eq_some] at h
      simp only [ffPassthroughAttrBase] at h
      omega
  · intro h
    rw [h, Option.bind_some, (hfind c).mpr rfl]

theorem supplied_passed_iff (hnodup : passthrough.Nodup)
    {s : Semantic} (hs : s.passesThrough = true) {k : ℕ} (hk : passthrough[k]? = some s.code) :
    Supplied elements passthrough (passthroughInput (s.code, k)) ↔ carriers elements s = 1 ∧
      ∀ e ∈ elements, e.fetched = true → e.passthroughCode = some s.code → e.usageIndex < 16 := by
  have hsem : (passthroughInput (s.code, k)).semantic = s := Semantic.fromCode_code s
  have hcarried : ∀ e : VertexElement, e.carries s = true ↔
      e.passthroughCode = some s.code ∧ e.usageIndex < 16 := by
    intro e
    rw [carries_iff, passthroughCode, declPassthroughCode_eq_some_iff]
    constructor
    · rintro ⟨husage, hindex⟩
      have hlt : e.usageIndex < 16 := hindex ▸ s.index.isLt
      exact ⟨⟨s, rfl, hs, husage, (Nat.mod_eq_of_lt hlt).trans hindex⟩, hlt⟩
    · rintro ⟨⟨t, ht, -, husage, hindex⟩, hlt⟩
      rw [Semantic.code_injective ht]
      exact ⟨husage, (Nat.mod_eq_of_lt hlt).symm.trans hindex⟩
  rw [supplied_iff, hsem]
  · refine and_congr_right fun _ ↦ forall₃_congr fun e _ _ ↦ ?_
    rw [show (passthroughInput (s.code, k)).attr = ffPassthroughAttrBase + k from rfl,
      ffAttrFor_passed_iff hnodup hk, hcarried]
    exact ⟨fun h hp ↦ (h hp).2, fun h hp ↦ ⟨hp, h hp⟩⟩
  · rw [hsem]
    exact fun e _ _ hc ↦ (ffAttrFor_passed_iff hnodup hk e).mpr ((hcarried e).mp hc).1

def blends (rs : RenderStates) (elements : List VertexElement) : Bool :=
  decide (0 < blendMatrices (rs vertexBlend)) &&
    if rs vertexBlend = 256 then
      rs indexedVertexBlendEnable != 0 && declares elements .blendIndices
    else declares elements .blendWeight

theorem vertexBlendCount_pos_iff (rs : RenderStates) (elements : List VertexElement) (lights : ℕ) (p : List ℕ) :
    0 < (buildVsKey rs (ffVsLayoutFromElements elements) lights p).vertexBlendCount ↔
      blends rs elements = true := by
  have hweights := layout_weights elements
  obtain ⟨-, -, hindices, -⟩ := layout_flags elements
  simp only [buildVsKey, resolveVertexBlendCount, hindices, blends]
  by_cases hmode : rs vertexBlend = 256
  · cases rs indexedVertexBlendEnable != 0 && declares elements .blendIndices <;> simp [hmode]
  · cases hw : declares elements .blendWeight
    · have hzero : (ffVsLayoutFromElements elements).declaredWeightsCount = 0 := by
        rw [hw] at hweights
        simpa using hweights
      simp [hmode, hzero]
    · have hpos : (ffVsLayoutFromElements elements).declaredWeightsCount ≠ 0 :=
        Nat.pos_iff_ne_zero.mp (hweights.mpr hw)
      simp [hmode, hpos]

/-- Every semantic the emitted shader reads is carried by one element the descriptor can fetch. -/
structure FeedsFfVs (rs : RenderStates) (elements : List VertexElement) : Prop where
  position : carriers elements (.new (if declares elements .positionT then .positionT else .position) 0) = 1
  onePosition : declares elements .positionT = true → carriers elements (.new .position 0) = 0
  normal : declares elements .positionT = false → declares elements .normal = true →
    carriers elements (.new .normal 0) = 1
  color : ∀ i < 2, (∃ e ∈ elements, e.inRange = true ∧ e.usage = color.code ∧ e.usageIndex = i) →
    carriers elements (.new .color i) = 1
  texcoord : ∀ i < 8,
    (∃ e ∈ elements, e.inRange = true ∧ e.usage = texcoord.code ∧ i ≤ e.usageIndex) →
    carriers elements (.new .texcoord i) = 1
  blendWeight : declares elements .positionT = false → blends rs elements = true →
    declares elements .blendWeight = true → carriers elements (.new .blendWeight 0) = 1
  blendIndices : declares elements .positionT = false → blends rs elements = true →
    declares elements .blendIndices = true → carriers elements (.new .blendIndices 0) = 1
  pSize : declares elements .pSize = true → carriers elements (.new .pSize 0) = 1
  passed : ∀ code ∈ rhwPassthrough elements, carriers elements (.fromCode code) = 1 ∧
    ∀ e ∈ elements, e.fetched = true → e.passthroughCode = some code → e.usageIndex < 16

theorem forall_inputWhen {declared : Bool} {P : StageInput → Prop} :
    (∀ i ∈ inputWhen declared input, P i) ↔ (declared = true → P input) := by
  cases declared <;> simp [inputWhen]

theorem rhwPassthrough_eq_nil (h : declares elements .positionT = false) : rhwPassthrough elements = [] := by
  have hany : (elements.any fun e ↦ e.usage == positionT.code && e.inRange) = false := by
    rw [← h, declares]
    congr 1
    funext e
    exact Bool.and_comm _ _
  rw [rhwPassthrough, hany, if_neg (by decide)]

section FixedInputs

variable {elements : List VertexElement} {passthrough : List ℕ}

theorem supplied_color_iff {i : ℕ} (hi : i < 2) (name : String) :
    Supplied elements passthrough ⟨name, 2 + i, .new .color i⟩ ↔ carriers elements (.new .color i) = 1 := by
  refine supplied_fixed_iff (fun usage index ↦ ?_) ?_ (Or.inr ?_)
  · have hne : ¬ 2 + i = 4 + index := by omega
    interval_cases i <;> simp [ffAttrIndexForSemantic_eq_some, hne, Semantic.new]
  · simp only [ffPassthroughAttrBase]
    omega
  · change declPassthroughCode color.code (i % 16) = none
    interval_cases i <;> rfl

theorem supplied_texcoord_iff {i : ℕ} (hi : i < 8) :
    Supplied elements passthrough (texcoordInput i) ↔ carriers elements (.new .texcoord i) = 1 := by
  refine supplied_fixed_iff (fun usage index ↦ ?_) ?_ (Or.inr ?_)
  · interval_cases i <;> simp [texcoordInput, ffAttrIndexForSemantic_eq_some, Semantic.new] <;> omega
  · simp only [texcoordInput, ffPassthroughAttrBase]
    omega
  · interval_cases i <;> rfl

theorem supplied_pSize_iff :
    Supplied elements passthrough ⟨"psize", 14, .new .pSize 0⟩ ↔ carriers elements (.new .pSize 0) = 1 := by
  refine supplied_fixed_iff (fun usage index ↦ ?_) (by decide) (Or.inr rfl)
  simp [ffAttrIndexForSemantic_eq_some, Semantic.new]
  omega

theorem supplied_transformed_iff {name : String} {attr : ℕ} {usage : DeclUsage}
    (h : attr = 1 ∧ usage = .normal ∨ attr = 12 ∧ usage = .blendWeight ∨ attr = 13 ∧ usage = .blendIndices) :
    Supplied elements [] ⟨name, attr, .new usage 0⟩ ↔ carriers elements (.new usage 0) = 1 := by
  refine supplied_fixed_iff (fun code index ↦ ?_) ?_ (Or.inl rfl)
  · rcases h with ⟨rfl, rfl⟩ | ⟨rfl, rfl⟩ | ⟨rfl, rfl⟩ <;>
      simp [ffAttrIndexForSemantic_eq_some, Semantic.new] <;> omega
  · simp only [ffPassthroughAttrBase]
    omega

end FixedInputs

/-- The inputs the emitted shader declares, in terms of the declaration they are built from. -/
theorem forall_emitVertexIn_iff (rs : RenderStates) (activeLights : ℕ) (elements : List VertexElement)
    (P : StageInput → Prop) : (∀ input ∈ emitVertexIn
        (buildVsKey rs (ffVsLayoutFromElements elements) activeLights (rhwPassthrough elements)), P input) ↔
      P ⟨"v0", 0, .new (if declares elements .positionT then .positionT else .position) 0⟩ ∧
      (declares elements .positionT = false → declares elements .normal = true → P ⟨"v1", 1, .new .normal 0⟩) ∧
      ((∃ e ∈ elements, e.inRange = true ∧ e.usage = color.code ∧ e.usageIndex = 0) →
        P ⟨"v2", 2, .new .color 0⟩) ∧
      ((∃ e ∈ elements, e.inRange = true ∧ e.usage = color.code ∧ e.usageIndex = 1) →
        P ⟨"v3", 3, .new .color 1⟩) ∧
      (∀ i < 8, (∃ e ∈ elements, e.inRange = true ∧ e.usage = texcoord.code ∧ i ≤ e.usageIndex) →
        P (texcoordInput i)) ∧ (declares elements .positionT = false → blends rs elements = true →
        declares elements .blendWeight = true → P ⟨"blend_weight", 12, .new .blendWeight 0⟩) ∧
      (declares elements .positionT = false → blends rs elements = true →
        declares elements .blendIndices = true → P ⟨"blend_indices", 13, .new .blendIndices 0⟩) ∧
      (declares elements .pSize = true → P ⟨"psize", 14, .new .pSize 0⟩) ∧
      ∀ k c, (rhwPassthrough elements)[k]? = some c → P (passthroughInput (c, k)) := by
  have hblend := vertexBlendCount_pos_iff rs elements activeLights (rhwPassthrough elements)
  have hweights := layout_weights elements
  obtain ⟨hnormal, hrhw, hindices, hpsize⟩ := layout_flags elements
  obtain ⟨hcolor0, hcolor1⟩ := layout_color elements
  have hpassed : (if (ffVsLayoutFromElements elements).hasRhw then rhwPassthrough elements else []) =
      rhwPassthrough elements := by
    rw [hrhw]
    cases h : declares elements .positionT with
    | true => rfl
    | false => rw [rhwPassthrough_eq_nil h, if_neg (by decide)]
  simp only [emitVertexIn, forall_mem_append, forall_mem_singleton, forall_inputWhen, forall_mem_map,
    and_assoc]
  refine and_congr (by rw [← hrhw]; rfl) (and_congr ?_ (and_congr ?_ (and_congr ?_ (and_congr ?_ (and_congr ?_
    (and_congr ?_ (and_congr ?_ ?_)))))))
  · simp only [buildVsKey, hnormal, hrhw]
    cases declares elements .positionT <;> simp
  · simp only [buildVsKey, hcolor0]
    simp
  · simp only [buildVsKey, hcolor1]
    simp
  · simp only [mem_range]
    exact forall_congr' fun i ↦ by
      rw [show (buildVsKey rs (ffVsLayoutFromElements elements) activeLights
        (rhwPassthrough elements)).inputTexCoordCount = (ffVsLayoutFromElements elements).texCoordCount from rfl,
        lt_texCoordCount_iff, and_imp]
  · rw [Bool.and_eq_true, Bool.and_eq_true, decide_eq_true_eq, decide_eq_true_eq, hblend]
    simp only [buildVsKey, hweights, hrhw]
    cases declares elements .positionT <;> simp
  · rw [Bool.and_eq_true, Bool.and_eq_true, decide_eq_true_eq, hblend]
    simp only [buildVsKey, hindices, hrhw]
    cases declares elements .positionT <;> simp
  · simp [buildVsKey, hpsize]
  · simp only [buildVsKey, hpassed, Prod.forall, mem_zipIdx_iff_getElem?]
    exact forall_comm

/-- The emitted shader's inputs are supplied exactly for the declarations that feed them. -/
theorem ff_inputs_supplied_iff (rs : RenderStates) (activeLights : ℕ) (elements : List VertexElement) :
    (∀ input ∈ emitVertexIn
        (buildVsKey rs (ffVsLayoutFromElements elements) activeLights (rhwPassthrough elements)),
      Supplied elements (rhwPassthrough elements) input) ↔ FeedsFfVs rs elements := by
  obtain ⟨hnodup, hcodes⟩ := rhwPassthrough_spec elements
  have hpass : ∀ {k c}, (rhwPassthrough elements)[k]? = some c →
      (Supplied elements (rhwPassthrough elements) (passthroughInput (c, k)) ↔
        carriers elements (.fromCode c) = 1 ∧
          ∀ e ∈ elements, e.fetched = true → e.passthroughCode = some c → e.usageIndex < 16) := by
    intro k c hk
    obtain ⟨s, rfl, hs⟩ := hcodes c (mem_of_getElem? hk)
    rw [Semantic.fromCode_code]
    exact supplied_passed_iff hnodup hs hk
  rw [forall_emitVertexIn_iff, supplied_position_iff rhwPassthrough_eq_nil]
  constructor
  · rintro ⟨hpos, hnormal, hcolor0, hcolor1, htexcoord, hweight, hindices, hpsize, hpassed⟩
    refine ⟨hpos.1, hpos.2, fun hrhw hn ↦ ?_, fun i hi he ↦ ?_, fun i hi he ↦ ?_, fun hrhw hb hw ↦ ?_,
      fun hrhw hb hw ↦ ?_, fun hp ↦ supplied_pSize_iff.mp (hpsize hp), fun c hc ↦ ?_⟩
    · have := hnormal hrhw hn
      rw [rhwPassthrough_eq_nil hrhw] at this
      exact (supplied_transformed_iff (by simp)).mp this
    · rcases Nat.lt_succ_iff_lt_or_eq.mp hi with hi' | rfl
      · obtain rfl : i = 0 := by omega
        exact (supplied_color_iff hi _).mp (hcolor0 he)
      · exact (supplied_color_iff hi _).mp (hcolor1 he)
    · exact (supplied_texcoord_iff hi).mp (htexcoord i hi he)
    · have := hweight hrhw hb hw
      rw [rhwPassthrough_eq_nil hrhw] at this
      exact (supplied_transformed_iff (by simp)).mp this
    · have := hindices hrhw hb hw
      rw [rhwPassthrough_eq_nil hrhw] at this
      exact (supplied_transformed_iff (by simp)).mp this
    · obtain ⟨k, hk⟩ := mem_iff_getElem?.mp hc
      exact (hpass hk).mp (hpassed k c hk)
  · intro h
    refine ⟨⟨h.position, h.onePosition⟩, fun hrhw hn ↦ ?_,
      fun he ↦ (supplied_color_iff (by decide : 0 < 2) _).mpr (h.color 0 (by decide) he),
      fun he ↦ (supplied_color_iff (by decide : 1 < 2) _).mpr (h.color 1 (by decide) he),
      fun i hi he ↦ (supplied_texcoord_iff hi).mpr (h.texcoord i hi he), fun hrhw hb hw ↦ ?_,
      fun hrhw hb hw ↦ ?_, fun hp ↦ supplied_pSize_iff.mpr (h.pSize hp),
      fun k c hk ↦ (hpass hk).mpr (h.passed c (mem_of_getElem? hk))⟩
    · rw [rhwPassthrough_eq_nil hrhw]
      exact (supplied_transformed_iff (by simp)).mpr (h.normal hrhw hn)
    · rw [rhwPassthrough_eq_nil hrhw]
      exact (supplied_transformed_iff (by simp)).mpr (h.blendWeight hrhw hb hw)
    · rw [rhwPassthrough_eq_nil hrhw]
      exact (supplied_transformed_iff (by simp)).mpr (h.blendIndices hrhw hb hw)

example : FeedsFfVs (fun _ ↦ 0) [⟨0, 0, 2, 0, 0⟩, ⟨0, 12, 4, 10, 0⟩, ⟨0, 16, 1, 5, 0⟩] :=
  ⟨by decide, by decide, by decide, by decide, by decide, by decide, by decide, by decide, by decide⟩

def texcoordGap : List VertexElement := [⟨0, 0, 2, 0, 0⟩, ⟨0, 12, 1, 5, 1⟩]

/-- The shader declares attribute 4 for the set the declaration skips. -/
theorem texcoord_gap_unsupplied :
    texcoordInput 0 ∈ emitVertexIn
        (buildVsKey (fun _ ↦ 0) (ffVsLayoutFromElements texcoordGap) 0 (rhwPassthrough texcoordGap)) ∧
      (resolveAttrsForFf texcoordGap (rhwPassthrough texcoordGap)).attrs.filter (fun a ↦ a.attrIndex == 4) = [] ∧
      ¬ Supplied texcoordGap (rhwPassthrough texcoordGap) (texcoordInput 0) := by
  refine ⟨by decide, by decide, ?_⟩
  rintro ⟨e, -, -, h⟩
  have hempty : (resolveAttrsForFf texcoordGap (rhwPassthrough texcoordGap)).attrs.filter
      (fun a ↦ a.attrIndex == (texcoordInput 0).attr) = [] := by decide
  rw [hempty] at h
  exact cons_ne_nil _ _ h.symm

end Mtld3d
