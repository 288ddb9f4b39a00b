import Mtld3d.ShaderLink
import Mtld3d.Lib.Scan

namespace Mtld3d

open List VsOutputs Semantic SemanticSet LinkInputs

def DeclaredOnce (es : List Element) : Prop :=
  es.Pairwise fun a b ↦ ∀ c, a.mask.covers c = true → b.mask.covers c = true →
    a.semantic ≠ b.semantic ∧ a.reg ≠ b.reg

instance (es : List Element) : Decidable (DeclaredOnce es) :=
  inferInstanceAs (Decidable (Pairwise _ _))

def Semantic.isSpecial (s : Semantic) : Bool :=
  s == .new .position 0 || s == .new .pSize 0 || s == .new .fog 0

variable {s : Semantic}

theorem Semantic.isSpecial_of (hu : s.usage = .position ∨ s.usage = .pSize ∨ s.usage = .fog)
    (hi : s.index.val = 0) : s.isSpecial = true := by
  rcases s with ⟨usage, index⟩
  obtain rfl : index = (Semantic.new .position 0).index := Fin.ext hi
  rcases hu with rfl | rfl | rfl <;> rfl

def extraInputs (ps : DxsoProgram) : List Semantic :=
  Lib.firstSeen (((psInputElements ps).map (·.semantic)).filter (·.isExtra))

section Once

variable {es : List Element} {a b : Element} {c : Lane}

theorem DeclaredOnce.eq_of_shared (h : DeclaredOnce es) (ha : a ∈ es) (hb : b ∈ es)
    (hac : a.mask.covers c = true) (hbc : b.mask.covers c = true)
    (hshared : a.semantic = b.semantic ∨ a.reg = b.reg) : a = b := by
  by_contra hne
  rcases pairwise_iff_getElem.mp h with hget
  obtain ⟨i, hi, rfl⟩ := mem_iff_getElem.mp ha
  obtain ⟨j, hj, rfl⟩ := mem_iff_getElem.mp hb
  rcases lt_trichotomy i j with hij | rfl | hij
  · obtain ⟨hs, hr⟩ := hget i j hi hj hij c hac hbc
    exact hshared.elim hs hr
  · exact hne rfl
  · obtain ⟨hs, hr⟩ := hget j i hj hi hij c hbc hac
    exact hshared.elim (fun h ↦ hs h.symm) fun h ↦ hr h.symm

end Once

namespace LinkInputs

theorem psInputs_eq {ps : DxsoProgram} (htype : ps.shaderType = .pixel) (hmajor : ps.major = 3) :
    psInputs ps = ((extraInputs ps).take maxLinkedInputs).map code := by
  have hadd : ∀ (es : List Element) (codes : List ℕ), es.foldl add codes =
      ((es.map (·.semantic)).filter (·.isExtra)).foldl
        (fun codes s ↦ if s.code ∈ codes then codes
          else if codes.length = maxLinkedInputs then codes else codes ++ [s.code]) codes := by
    intro es
    induction es with
    | nil => exact fun _ ↦ rfl
    | cons e es ih =>
      intro codes
      rw [foldl_cons, ih, map_cons, filter_cons, add]
      cases he : e.semantic.isExtra with
      | false => rfl
      | true => simp
  rw [psInputs, if_neg (by simp [htype, hmajor]), hadd, extraInputs, Lib.firstSeen]
  exact Lib.foldl_seen_capped (fun _ _ ↦ code_injective) maxLinkedInputs _ []

theorem contains_vsOutputs {vs : DxsoProgram} (htype : vs.shaderType = .vertex) (hmajor : vs.major = 3)
    (s : Semantic) : (vsOutputs vs).contains s = true ↔
      s.isExtra = true ∧ ∃ e ∈ vsOutputElements vs, e.semantic = s := by
  rw [SemanticSet.vsOutputs, if_neg (by simp [htype, hmajor]), SemanticSet.contains]
  simp only [SemanticSet.insert]
  rw [Lib.testBit_foldl_or (fun e : Element ↦ e.semantic.isExtra) (fun e ↦ e.semantic.code)]
  simp only [Nat.zero_testBit, Bool.false_or, any_eq_true, Bool.and_eq_true, beq_iff_eq]
  constructor
  · rintro ⟨e, he, hextra, hcode⟩
    rw [← code_injective hcode]
    exact ⟨hextra, e, he, rfl⟩
  · rintro ⟨hextra, e, he, rfl⟩
    exact ⟨e, he, hextra, rfl⟩

theorem testBit_maskAgainst (codes : List ℕ) (outputs : SemanticSet) (i : ℕ) :
    (maskAgainst codes outputs).testBit i = true ↔
      ∃ code, codes[i]? = some code ∧ outputs.contains (.fromCode code) = true := by
  rw [maskAgainst, Lib.testBit_foldl_or (fun x : ℕ × ℕ ↦ outputs.contains (.fromCode x.1)) (fun x ↦ x.2)]
  simp only [Nat.zero_testBit, Bool.false_or, any_eq_true, Bool.and_eq_true, beq_iff_eq, Prod.exists,
    mem_zipIdx_iff_getElem?]
  constructor
  · rintro ⟨code, j, hj, hc, rfl⟩
    exact ⟨code, hj, hc⟩
  · rintro ⟨code, hi, hc⟩
    exact ⟨code, i, hi, hc, rfl⟩

theorem linked_iff {ps : DxsoProgram} (htype : ps.shaderType = .pixel) (hmajor : ps.major = 3)
    (outputs : SemanticSet) (s : Semantic) :
    ((position (psInputs ps) s).any fun i ↦ (maskAgainst (psInputs ps) outputs).testBit i) = true ↔
      s ∈ (extraInputs ps).take maxLinkedInputs ∧ outputs.contains s = true := by
  have hfind : ∀ i, position (psInputs ps) s = some i → (psInputs ps)[i]? = some s.code := by
    intro i hi
    obtain ⟨hlt, heq, -⟩ := findIdx?_eq_some_iff_getElem.mp hi
    exact List.getElem?_eq_some_iff.mpr ⟨hlt, beq_iff_eq.mp heq⟩
  have hmem : s.code ∈ psInputs ps ↔ s ∈ (extraInputs ps).take maxLinkedInputs := by
    rw [psInputs_eq htype hmajor]
    exact mem_map_of_injective fun _ _ ↦ code_injective
  rw [Option.any_eq_true]
  constructor
  · rintro ⟨i, hi, hbit⟩
    obtain ⟨code, hcode, hc⟩ := (testBit_maskAgainst _ _ i).mp hbit
    rw [hfind i hi, Option.some.injEq] at hcode
    rw [← hcode, fromCode_code] at hc
    exact ⟨hmem.mp (mem_of_getElem? (hfind i hi)), hc⟩
  · rintro ⟨hs, hc⟩
    have hsome : (position (psInputs ps) s).isSome = true := by
      rw [position, findIdx?_isSome]
      exact any_eq_true.mpr ⟨s.code, hmem.mpr hs, beq_self_eq_true s.code⟩
    obtain ⟨i, hi⟩ := Option.isSome_iff_exists.mp hsome
    refine ⟨i, hi, (testBit_maskAgainst _ _ i).mpr ⟨s.code, hfind i hi, ?_⟩⟩
    rwa [fromCode_code]

end LinkInputs

theorem Semantic.code_lt (s : Semantic) : s.code < 256 := by
  have husage := s.usage.code_le
  have hindex := s.index.isLt
  rw [code_eq]
  omega

theorem SemanticSet.mem_iter {set : SemanticSet} (h : set.contains s = true) : s ∈ set.iter := by
  refine mem_map.mpr ⟨s.code, mem_filter.mpr ⟨mem_range.mpr s.code_lt, h⟩, ?_⟩
  exact fromCode_code s

theorem VsOutputs.isExtra_of_mem_extras {vs : DxsoProgram} (h : s ∈ extras vs) :
    s.isExtra = true := by
  obtain ⟨code, hcode, rfl⟩ := mem_map.mp h
  have hbit := (mem_filter.mp hcode).2
  rw [vsOutputs] at hbit
  split_ifs at hbit
  · simp at hbit
  · simp only [SemanticSet.insert] at hbit
    rw [Lib.testBit_foldl_or (fun e : Element ↦ e.semantic.isExtra) (fun e ↦ e.semantic.code)] at hbit
    simp only [Nat.zero_testBit, Bool.false_or, any_eq_true, Bool.and_eq_true, beq_iff_eq] at hbit
    obtain ⟨e, -, hextra, rfl⟩ := hbit
    rwa [fromCode_code]

theorem extras_subset (vs ps : DxsoProgram)
    (h : s ∈ PsInputs.extras ps (maskAgainst (psInputs ps) (vsOutputs vs))) :
    s ∈ extras vs := by
  obtain ⟨⟨code, i⟩, hx, rfl⟩ := mem_map.mp h
  obtain ⟨hmem, hbit⟩ := mem_filter.mp hx
  obtain ⟨code', hcode', hc⟩ := (testBit_maskAgainst _ _ i).mp hbit
  rw [mem_zipIdx_iff_getElem?.mp hmem, Option.some.injEq] at hcode'
  rw [← hcode'] at hc
  exact mem_iter hc

section PixelRead

variable {ps : DxsoProgram} {e : Element} {c : Lane}

/-- A declared lane of an input register reads its own semantic, however the register is shared. -/
theorem eval_reads {α : Type} (zero : α) (varyings : String → Lane → α) (hmajor : ps.major = 3)
    (honce : DeclaredOnce (psInputElements ps)) (he : e ∈ psInputElements ps) (hc : e.mask.covers c = true)
    (mask : ℕ) : ∃ read, PsInputs.reads ps mask e.reg.index = some read ∧ read.eval zero varyings c =
      ((PsInputs.read ps mask e.semantic).map fun name ↦ varyings name c).getD zero := by
  have hkind : ∀ a ∈ psInputElements ps, a.reg.kind = .input := fun a ha ↦
    beq_iff_eq.mp (mem_filter.mp ha).2
  have hof : ∀ a, a ∈ PsInputs.elementsOf ps e.reg.index ↔ a ∈ psInputElements ps ∧ a.reg.index = e.reg.index := by
    intro a
    rw [PsInputs.elementsOf, mem_filter, beq_iff_eq]
  have hin := (hof e).mpr ⟨he, rfl⟩
  rw [PsInputs.reads, if_neg (by simp [hmajor])]
  cases hes : PsInputs.elementsOf ps e.reg.index with
  | nil => simp [hes] at hin
  | cons first rest =>
    cases rest with
    | nil =>
      rw [hes, mem_singleton] at hin
      exact ⟨_, rfl, by rw [hin]; rfl⟩
    | cons second rest =>
      refine ⟨_, rfl, ?_⟩
      have hfind : ((first :: second :: rest).find? fun a ↦ a.mask.covers c) = some e := by
        rw [← hes]
        obtain ⟨a, ha⟩ := Option.isSome_iff_exists.mp
          (find?_isSome.mpr ⟨e, hin, hc⟩ :
            ((PsInputs.elementsOf ps e.reg.index).find? fun a ↦ a.mask.covers c).isSome)
        obtain ⟨haps, haidx⟩ := (hof a).mp (mem_of_find?_eq_some ha)
        have hreg : a.reg = e.reg := by
          rcases hra : a.reg with ⟨ka, ia⟩
          rcases hre : e.reg with ⟨ke, ie⟩
          have hka := hkind a haps
          have hke := hkind e he
          rw [hra, hre] at haidx
          rw [hra] at hka
          rw [hre] at hke
          simp only at hka hke haidx
          rw [hka, hke, haidx]
        have hac : a.mask.covers c = true := by simpa using find?_some ha
        rw [ha, honce.eq_of_shared haps he hac hc (Or.inr hreg)]
      simp [PsRead.eval, hfind]

end PixelRead

namespace VsOutputs

variable {vs : DxsoProgram} {reg : Register} {e : Element}

theorem mem_regs : reg ∈ regs vs ↔ ∃ e ∈ vsOutputElements vs, e.reg = reg := by
  rw [regs, mem_insertionSort, mem_dedup, mem_map]

theorem nodup_staged : (staged vs).Nodup := by
  refine List.Nodup.filter _ ?_
  exact (perm_insertionSort _ _).nodup_iff.mpr (nodup_dedup _)

theorem mem_staged : reg ∈ staged vs ↔ reg ∈ regs vs ∧ direct vs reg = none := by
  rw [staged, mem_filter, Option.isNone_iff_eq_none]

theorem mem_elementsOf {a : Element} : a ∈ elementsOf vs reg ↔ a ∈ vsOutputElements vs ∧ a.reg = reg := by
  rw [elementsOf, mem_filter, beq_iff_eq]

theorem directTarget_eq_member {t : WriteTarget} (h : directTarget e = some t) :
    t = .pointSize ∨ t = .member e.semantic.member := by
  rw [directTarget] at h
  split at h
  · split_ifs at h
    exact Or.inl (Option.some.inj h).symm
  · split_ifs at h
    exact Or.inr (Option.some.inj h).symm
  · exact Or.inr (Option.some.inj h).symm

theorem directTarget_of_not_special (h : e.semantic.isSpecial = false) :
    directTarget e = some (.member e.semantic.member) := by
  rw [directTarget]
  split
  · rename_i hu hi
    simp [isSpecial_of (Or.inr (Or.inl hu)) hi] at h
  · rename_i hu hi
    simp [isSpecial_of (Or.inr (Or.inr hu)) hi] at h
  · rfl

theorem writeTarget_of_mem (h : reg ∈ regs vs) :
    registerWriteTarget vs reg = (direct vs reg).getD (.staging ((staged vs).idxOf reg)) := by
  rw [registerWriteTarget, target, if_pos h, Option.getD_some]

theorem writeTarget_eq_member {name : String} (h : registerWriteTarget vs reg = .member name) :
    ∃ only, elementsOf vs reg = [only] ∧ name = only.semantic.member := by
  by_cases hreg : reg ∈ regs vs
  · rw [writeTarget_of_mem hreg] at h
    cases hd : direct vs reg with
    | none => simp [hd] at h
    | some t =>
      rw [hd, Option.getD_some] at h
      rw [direct] at hd
      split at hd
      · rename_i only honly
        rcases directTarget_eq_member hd with rfl | rfl
        · cases h
        · exact ⟨only, honly, (WriteTarget.member.inj h).symm⟩
      · cases hd
  · rw [registerWriteTarget, target, if_neg hreg] at h
    cases h

theorem writeTarget_staged (h : reg ∈ staged vs) :
    registerWriteTarget vs reg = .staging ((staged vs).idxOf reg) := by
  obtain ⟨hreg, hd⟩ := mem_staged.mp h
  rw [writeTarget_of_mem hreg, hd, Option.getD_none]

theorem writeTarget_eq_staging {n : ℕ} (h : registerWriteTarget vs reg = .staging n) :
    reg ∈ staged vs ∧ n = (staged vs).idxOf reg := by
  by_cases hreg : reg ∈ regs vs
  · rw [writeTarget_of_mem hreg] at h
    cases hd : direct vs reg with
    | none =>
      rw [hd, Option.getD_none] at h
      exact ⟨mem_staged.mpr ⟨hreg, hd⟩, (WriteTarget.staging.inj h).symm⟩
    | some t =>
      rw [hd, Option.getD_some] at h
      rw [direct] at hd
      split at hd
      · rcases directTarget_eq_member hd with rfl | rfl <;> cases h
      · cases hd
  · rw [registerWriteTarget, target, if_neg hreg] at h
    cases h

theorem direct_or_staged (he : e ∈ vsOutputElements vs) (hs : e.semantic.isSpecial = false) :
    (elementsOf vs e.reg = [e] ∧ registerWriteTarget vs e.reg = .member e.semantic.member) ∨
      e.reg ∈ staged vs := by
  have hreg : e.reg ∈ regs vs := mem_regs.mpr ⟨e, he, rfl⟩
  cases hd : direct vs e.reg with
  | none => exact Or.inr (mem_staged.mpr ⟨hreg, hd⟩)
  | some t =>
    left
    rw [writeTarget_of_mem hreg, hd, Option.getD_some]
    rw [direct] at hd
    split at hd
    · rename_i only honly
      have hmem : e ∈ elementsOf vs e.reg := mem_elementsOf.mpr ⟨he, rfl⟩
      rw [honly, mem_singleton] at hmem
      subst hmem
      rw [directTarget_of_not_special hs] at hd
      exact ⟨honly, (Option.some.inj hd).symm⟩
    · cases hd

end VsOutputs

def baseSemantics : List Semantic :=
  [.new .position 0, .new .position 1, .new .color 0, .new .color 1]
    ++ (range 16).map (Semantic.new .texcoord) ++ [.new .fog 0]

section Prologue

variable {α : Type} {zero one pointSize : α} {vs : DxsoProgram} {s : Semantic} {c : Lane}

theorem basePrologue_eq : basePrologue zero one pointSize =
    baseSemantics.map (fun t ↦ splat (.member t.member) (t.vertexDefault zero one pointSize))
      ++ [splat .pointSize pointSize, splat .discard zero] := by
  have htex : (range 16).map (fun i ↦ splat (.member (texcoordMember i)) zero) =
      ((range 16).map (Semantic.new .texcoord)).map
        fun t ↦ splat (.member t.member) (t.vertexDefault zero one pointSize) := by
    rw [map_map]
    refine map_congr_left fun i hi ↦ ?_
    have hmod : i % 16 = i := Nat.mod_eq_of_lt (mem_range.mp hi)
    simp [Function.comp, texcoordMember, member, Semantic.new, vertexDefault, usageName,
      hmod]
  rw [basePrologue, baseSemantics, map_append, map_append, ← htex]
  simp only [append_assoc, map_cons, map_nil, cons_append, nil_append]
  rfl

theorem mem_baseSemantics (hbase : s.isExtra = false) (hspecial : s.isSpecial = false) : s ∈ baseSemantics := by
  rcases s with ⟨usage, index⟩
  revert index
  cases usage <;> decide

theorem vertexDefault_of_extra (h : s.isExtra = true) : s.vertexDefault zero one pointSize = zero := by
  rw [vertexDefault]
  split
  · rename_i hu hi
    simp [isExtra, hu, hi] at h
  · rename_i hu hi
    simp [isExtra, hu, hi] at h
  · rename_i hu hi
    simp [isExtra, hu, hi] at h
  · rfl

theorem splat_member {t : Semantic} {v : α} :
    splat (.member t.member) v ((.member s.member, c) : Cell) = if s = t then some v else none := by
  rw [splat]
  by_cases h : s = t
  · rw [if_pos (by rw [h]), if_pos h]
  · rw [if_neg h, if_neg fun heq ↦ h (member_injective (WriteTarget.member.inj heq))]

theorem prologue_member (garbage : Cell → α) (hspecial : s.isSpecial = false)
    (hdeclared : s.isExtra = true → s ∈ extras vs) :
    Lib.writeAll (basePrologue zero one pointSize ++ writePrologue zero one pointSize vs) garbage
      (.member s.member, c) = s.vertexDefault zero one pointSize := by
  have hextras : ∀ t ∈ extras vs, t.vertexDefault zero one pointSize = zero := fun t ht ↦
    vertexDefault_of_extra (isExtra_of_mem_extras ht)
  refine Lib.writeAll_agreed (fun w hw ↦ ?_) ?_ garbage
  · rw [basePrologue_eq, writePrologue] at hw
    simp only [mem_append, mem_map, mem_cons, not_mem_nil, or_false] at hw
    rcases hw with (⟨t, -, rfl⟩ | rfl | rfl) | ⟨t, ht, rfl⟩ | ⟨x, -, rfl⟩
    · rw [splat_member]
      split_ifs with h
      · exact Or.inr (by rw [h])
      · exact Or.inl rfl
    · exact Or.inl rfl
    · exact Or.inl rfl
    · rw [splat_member]
      split_ifs with h
      · exact Or.inr (by rw [h, hextras t ht])
      · exact Or.inl rfl
    · exact Or.inl rfl
  · rw [basePrologue_eq, writePrologue]
    cases hx : s.isExtra with
    | false =>
      refine ⟨splat (.member s.member) (s.vertexDefault zero one pointSize), ?_, by rw [splat_member, if_pos rfl]⟩
      simp only [mem_append]
      exact Or.inl (Or.inl (mem_map.mpr ⟨s, mem_baseSemantics hx hspecial, rfl⟩))
    | true =>
      refine ⟨splat (.member s.member) zero, ?_, by rw [splat_member, if_pos rfl, vertexDefault_of_extra hx]⟩
      simp only [mem_append]
      exact Or.inr (Or.inl (mem_map.mpr ⟨s, hdeclared hx, rfl⟩))

end Prologue

def Confined {α : Type} (vs : DxsoProgram) (stores : List (OutputStore α)) : Prop :=
  ∀ store ∈ stores, ∀ c, store.mask c = true → ∀ e, elementsOf vs store.reg = [e] →
    ∀ e' ∈ vsOutputElements vs, e'.semantic = e.semantic → e'.mask.covers c = true → e'.reg = e.reg

def lastWritten {α : Type} (stores : List (OutputStore α)) (reg : Register) (c : Lane) : Option α :=
  stores.reverse.findSome? fun store ↦ if store.reg = reg ∧ store.mask c = true then some (store.value c) else none

section Body

variable {α : Type} {zero one pointSize : α} {vs : DxsoProgram} {e : Element} {s : Semantic} {c : Lane}
  {stores : List (OutputStore α)}

theorem findSome?_congr {β γ : Type} {f g : β → Option γ} {l : List β} (h : ∀ b ∈ l, f b = g b) :
    l.findSome? f = l.findSome? g := by
  induction l with
  | nil => rfl
  | cons b l ih =>
    rw [findSome?_cons, findSome?_cons, h b mem_cons_self,
      ih fun b' hb' ↦ h b' (mem_cons_of_mem b hb')]

theorem stores_eq_lastWritten {t : WriteTarget} {reg : Register}
    (h : ∀ store ∈ stores, store.mask c = true → (registerWriteTarget vs store.reg = t ↔ store.reg = reg))
    (m : Cell → α) :
    Lib.writeAll (stores.map (storeDst vs)) m (t, c) = (lastWritten stores reg c).getD (m (t, c)) := by
  rw [Lib.writeAll_eq_lastWrite, Lib.lastWrite, ← map_reverse, findSome?_map, lastWritten]
  congr 1
  refine findSome?_congr fun store hstore ↦ ?_
  simp only [Function.comp, storeDst]
  cases hm : store.mask c with
  | false => simp
  | true =>
    have hiff := h store (mem_reverse.mp hstore) hm
    by_cases hr : store.reg = reg
    · rw [if_pos ⟨(hiff.mpr hr).symm, rfl⟩, if_pos ⟨hr, rfl⟩]
    · rw [if_neg fun heq ↦ hr (hiff.mp heq.1.symm), if_neg fun heq ↦ hr heq.1]

theorem stores_untouched {t : WriteTarget} (h : ∀ store ∈ stores, registerWriteTarget vs store.reg ≠ t)
    (m : Cell → α) : Lib.writeAll (stores.map (storeDst vs)) m (t, c) = m (t, c) := by
  refine Lib.writeAll_untouched (fun w hw ↦ ?_) m
  obtain ⟨store, hstore, rfl⟩ := mem_map.mp hw
  exact if_neg fun heq ↦ h store hstore heq.1.symm

theorem stores_direct (hconf : Confined vs stores) (he : e ∈ vsOutputElements vs)
    (hc : e.mask.covers c = true)
    (htarget : registerWriteTarget vs e.reg = .member e.semantic.member) (m : Cell → α) :
    Lib.writeAll (stores.map (storeDst vs)) m (.member e.semantic.member, c) =
      (lastWritten stores e.reg c).getD (m (.member e.semantic.member, c)) := by
  refine stores_eq_lastWritten (fun store hstore hm ↦ ⟨fun ht ↦ ?_, fun hr ↦ hr ▸ htarget⟩) m
  obtain ⟨only, honly, hname⟩ := writeTarget_eq_member ht
  have hsem := member_injective hname
  have hreg : only.reg = store.reg := (mem_elementsOf.mp (honly ▸ mem_singleton_self only)).2
  exact hreg.symm.trans (hconf store hstore c hm only honly e he hsem hc).symm

theorem stores_staged {reg : Register} (hreg : reg ∈ staged vs) (m : Cell → α) :
    Lib.writeAll (stores.map (storeDst vs)) m (.staging ((staged vs).idxOf reg), c) =
      (lastWritten stores reg c).getD (m (.staging ((staged vs).idxOf reg), c)) := by
  refine stores_eq_lastWritten (fun store _ _ ↦ ⟨fun ht ↦ ?_, fun hr ↦ ?_⟩) m
  · obtain ⟨hmem, hidx⟩ := writeTarget_eq_staging ht
    exact ((idxOf_inj hreg).mp hidx).symm
  · rw [hr, writeTarget_staged hreg]

theorem stagedDefault_eq (honce : DeclaredOnce (vsOutputElements vs)) (he : e ∈ vsOutputElements vs)
    (hc : e.mask.covers c = true) :
    stagedDefault zero one pointSize vs e.reg c = e.semantic.vertexDefault zero one pointSize := by
  have hmem : e ∈ elementsOf vs e.reg := mem_elementsOf.mpr ⟨he, rfl⟩
  obtain ⟨a, ha⟩ := Option.isSome_iff_exists.mp
    (find?_isSome.mpr ⟨e, hmem, hc⟩ :
      ((elementsOf vs e.reg).find? fun a ↦ a.mask.covers c).isSome)
  obtain ⟨haps, hareg⟩ := mem_elementsOf.mp (mem_of_find?_eq_some ha)
  have hac : a.mask.covers c = true := by simpa using find?_some ha
  rw [stagedDefault, ha, honce.eq_of_shared haps he hac hc (Or.inr hareg)]

theorem prologue_staged (honce : DeclaredOnce (vsOutputElements vs)) (he : e ∈ vsOutputElements vs)
    (hc : e.mask.covers c = true) (hreg : e.reg ∈ staged vs) (garbage : Cell → α) :
    Lib.writeAll (basePrologue zero one pointSize ++ writePrologue zero one pointSize vs) garbage
      (.staging ((staged vs).idxOf e.reg), c) = e.semantic.vertexDefault zero one pointSize := by
  have hidx : (staged vs)[(staged vs).idxOf e.reg]? = some e.reg :=
    getElem?_idxOf hreg
  refine Lib.writeAll_agreed (fun w hw ↦ ?_) ?_ garbage
  · rw [basePrologue_eq, writePrologue] at hw
    simp only [mem_append, mem_map, mem_cons, not_mem_nil, or_false] at hw
    rcases hw with (⟨t, -, rfl⟩ | rfl | rfl) | ⟨t, ht, rfl⟩ | ⟨⟨reg, n⟩, hx, rfl⟩
    · exact Or.inl rfl
    · exact Or.inl rfl
    · exact Or.inl rfl
    · exact Or.inl rfl
    · rw [stagedPrologue]
      split_ifs with h
      · have hn : (staged vs)[n]? = some reg := mem_zipIdx_iff_getElem?.mp hx
        have hkn : (staged vs).idxOf e.reg = n := WriteTarget.staging.inj h
        rw [← hkn, hidx, Option.some.injEq] at hn
        exact Or.inr (by rw [← hn, stagedDefault_eq honce he hc])
      · exact Or.inl rfl
  · refine ⟨stagedPrologue zero one pointSize vs (e.reg, (staged vs).idxOf e.reg), ?_, ?_⟩
    · rw [writePrologue]
      simp only [mem_append]
      exact Or.inr (Or.inr (mem_map.mpr ⟨_, mem_zipIdx_iff_getElem?.mpr hidx, rfl⟩))
    · rw [stagedPrologue, if_pos rfl, stagedDefault_eq honce he hc]

end Body

section Epilogue

variable {α : Type} {vs : DxsoProgram} {e : Element} {s : Semantic} {c : Lane}

theorem copyOut_staging (n k : ℕ) (m : Cell → α) : copyOut n e m (.staging k, c) = none := by
  simp only [copyOut]
  split <;> simp

theorem copyOut_congr {m m' : Cell → α} (h : ∀ k c, m (.staging k, c) = m' (.staging k, c)) (n : ℕ) :
    copyOut n e m = copyOut n e m' := by
  funext cell
  simp [copyOut, h]

theorem writeEpilogue_eq (m : Cell → α) :
    writeEpilogue vs m = Lib.writeAll ((epilogueCopies vs).map fun x ↦ copyOut x.1 x.2 m) m := by
  suffices h : ∀ (copies : List (ℕ × Element)) (m' : Cell → α),
      (∀ k c, m' (.staging k, c) = m (.staging k, c)) →
      copies.foldl (fun m x ↦ Lib.write (copyOut x.1 x.2 m) m) m' =
        Lib.writeAll (copies.map fun x ↦ copyOut x.1 x.2 m) m' from h _ m fun _ _ ↦ rfl
  intro copies
  induction copies with
  | nil => exact fun _ _ ↦ rfl
  | cons x copies ih =>
    intro m' hm'
    rw [foldl_cons, map_cons, Lib.writeAll_cons, ih, copyOut_congr hm']
    intro k c
    rw [Lib.write, copyOut_staging, Option.getD_none, hm']

theorem mem_epilogueCopies {n : ℕ} : (n, e) ∈ epilogueCopies vs ↔
    e ∈ vsOutputElements vs ∧ (staged vs)[n]? = some e.reg := by
  rw [epilogueCopies, mem_flatMap]
  constructor
  · rintro ⟨⟨reg, k⟩, hx, hmap⟩
    obtain ⟨e', he', heq⟩ := mem_map.mp hmap
    obtain ⟨rfl, rfl⟩ := Prod.mk.inj heq
    obtain ⟨hmem, rfl⟩ := mem_elementsOf.mp he'
    exact ⟨hmem, mem_zipIdx_iff_getElem?.mp hx⟩
  · rintro ⟨he, hn⟩
    exact ⟨(e.reg, n), mem_zipIdx_iff_getElem?.mpr hn,
      mem_map.mpr ⟨e, mem_elementsOf.mpr ⟨he, rfl⟩, rfl⟩⟩

theorem copyOut_member (hs : s.isSpecial = false) (n : ℕ) (m : Cell → α) :
    copyOut n e m (.member s.member, c) =
      if e.semantic = s ∧ e.mask.covers c = true then some (m (.staging n, c)) else none := by
  simp only [copyOut]
  split
  · rename_i hu hi
    have hne : e.semantic ≠ s := by
      rintro rfl
      simp [isSpecial_of (Or.inr (Or.inl hu)) hi] at hs
    simp [hne]
  · rename_i hu hi
    have hne : e.semantic ≠ s := by
      rintro rfl
      simp [isSpecial_of (Or.inr (Or.inr hu)) hi] at hs
    have hname : s.member ≠ "fog" := by
      intro h
      have hfog : s = .new .fog 0 := member_injective h
      rw [hfog] at hs
      exact absurd hs (by decide)
    simp [hne, hname]
  · by_cases h : e.semantic = s
    · simp [h]
    · have hname : s.member ≠ e.semantic.member := fun heq ↦ h (member_injective heq).symm
      simp [h, hname]

end Epilogue

section Member

variable {α : Type} {zero one pointSize : α} {vs : DxsoProgram} {e : Element} {s : Semantic} {c : Lane}
  {stores : List (OutputStore α)}

theorem member_declared (hV : vs.shaderType = .vertex ∧ vs.major = 3) (honce : DeclaredOnce (vsOutputElements vs))
    (hconf : Confined vs stores) (he : e ∈ vsOutputElements vs) (hc : e.mask.covers c = true)
    (hs : e.semantic.isSpecial = false) (garbage : Cell → α) :
    emitVsFunction zero one pointSize vs garbage stores (.member e.semantic.member, c) =
      (lastWritten stores e.reg c).getD (e.semantic.vertexDefault zero one pointSize) := by
  have hdeclared : e.semantic.isExtra = true → e.semantic ∈ extras vs := fun hx ↦
    mem_iter ((contains_vsOutputs hV.1 hV.2 _).mpr ⟨hx, e, he, rfl⟩)
  have hcopy : ∀ n e', (n, e') ∈ epilogueCopies vs → e'.semantic = e.semantic → e'.mask.covers c = true →
      (staged vs)[n]? = some e.reg := by
    intro n e' hmem hsem hc'
    obtain ⟨he', hn⟩ := mem_epilogueCopies.mp hmem
    rwa [honce.eq_of_shared he' he hc' hc (Or.inl hsem)] at hn
  rw [emitVsFunction, writeEpilogue_eq, Lib.writeAll_append]
  rcases direct_or_staged he hs with ⟨honly, htarget⟩ | hstaged
  · -- No copy reaches the member: its one supplier is not staged.
    rw [Lib.writeAll_untouched, stores_direct hconf he hc htarget, prologue_member garbage hs hdeclared]
    intro w hw
    obtain ⟨⟨n, e'⟩, hmem, rfl⟩ := mem_map.mp hw
    refine (copyOut_member hs n _).trans (if_neg fun h ↦ ?_)
    have hreg := mem_of_getElem? (hcopy n e' hmem h.1 h.2)
    rw [writeTarget_staged hreg] at htarget
    cases htarget
  · have hidx : (staged vs)[(staged vs).idxOf e.reg]? = some e.reg :=
      getElem?_idxOf hstaged
    refine Lib.writeAll_agreed (fun w hw ↦ ?_) ⟨_, mem_map.mpr
      ⟨((staged vs).idxOf e.reg, e), mem_epilogueCopies.mpr ⟨he, hidx⟩, rfl⟩, ?_⟩ _
    · obtain ⟨⟨n, e'⟩, hmem, rfl⟩ := mem_map.mp hw
      rw [copyOut_member hs]
      split_ifs with h
      · have hn := hcopy n e' hmem h.1 h.2
        have hkn : n = (staged vs).idxOf e.reg := by
          obtain ⟨hlt, hget⟩ := List.getElem?_eq_some_iff.mp hn
          rw [← hget, nodup_staged.idxOf_getElem]
        exact Or.inr (by rw [hkn, stores_staged hstaged, prologue_staged honce he hc hstaged])
      · exact Or.inl rfl
    · rw [copyOut_member hs, if_pos ⟨rfl, hc⟩, stores_staged hstaged, prologue_staged honce he hc hstaged]

theorem member_undeclared (hbase : s.isExtra = false) (hs : s.isSpecial = false)
    (hnone : ∀ e ∈ vsOutputElements vs, e.semantic ≠ s) (garbage : Cell → α) :
    emitVsFunction zero one pointSize vs garbage stores (.member s.member, c) =
      s.vertexDefault zero one pointSize := by
  rw [emitVsFunction, writeEpilogue_eq, Lib.writeAll_append, Lib.writeAll_untouched, stores_untouched,
    prologue_member garbage hs fun hx ↦ absurd hx (by simp [hbase])]
  · intro store _ ht
    obtain ⟨only, honly, hname⟩ := writeTarget_eq_member ht
    have hmem := (mem_elementsOf.mp (honly ▸ mem_singleton_self only)).1
    exact hnone only hmem (member_injective hname).symm
  · intro w hw
    obtain ⟨⟨n, e'⟩, hmem, rfl⟩ := mem_map.mp hw
    exact (copyOut_member hs n _).trans (if_neg fun h ↦ hnone e' (mem_epilogueCopies.mp hmem).1 h.1)

end Member

theorem vertexDefault_of_not_special {α : Type} {zero one pointSize : α} (hs : s.isSpecial = false) :
    s.vertexDefault zero one pointSize = if s = .new .color 0 then one else zero := by
  rcases s with ⟨usage, index⟩
  rw [vertexDefault]
  split
  · rename_i hu hi
    obtain rfl : usage = .color := hu
    obtain rfl : index = (Semantic.new .color 0).index := Fin.ext hi
    exact (if_pos rfl).symm
  · rename_i hu hi
    simp [isSpecial_of (Or.inr (Or.inr hu)) hi] at hs
  · rename_i hu hi
    simp [isSpecial_of (Or.inr (Or.inl hu)) hi] at hs
  · rename_i hcolor _ _
    refine (if_neg fun h ↦ ?_).symm
    obtain ⟨rfl, rfl⟩ := Semantic.mk.inj h
    exact hcolor rfl rfl

section PsRead

variable {ps : DxsoProgram} {s : Semantic} {mask : ℕ}

theorem read_of_base (hbase : s.isExtra = false) (hs : s.isSpecial = false) :
    PsInputs.read ps mask s = some s.member := by
  rw [PsInputs.read]
  split
  · rename_i hu hi
    simp [isSpecial_of (Or.inl hu) hi] at hs
  · rename_i hu hi
    simp [isSpecial_of (Or.inr (Or.inl hu)) hi] at hs
  · simp [hbase]

theorem read_of_extra (hextra : s.isExtra = true) : PsInputs.read ps mask s =
      if (position (psInputs ps) s).any (mask.testBit ·) then some s.member else none := by
  rw [PsInputs.read]
  split
  · rename_i hu hi
    simp [isExtra, hu, hi] at hextra
  · rename_i hu hi
    simp [isExtra, hu, hi] at hextra
  · simp [hextra]

end PsRead

def linkedRead {α : Type} (zero one pointSize : α) (vs ps : DxsoProgram) (garbage : Cell → α)
    (stores : List (OutputStore α)) (index : ℕ) (c : Lane) : Option α :=
  (PsInputs.reads ps (maskAgainst (psInputs ps) (vsOutputs vs)) index).map
    fun read ↦ read.eval zero (fun name c ↦ emitVsFunction zero one pointSize vs garbage stores (.member name, c)) c

/-- Linkage is by semantic and lane, for a vertex program that keeps its stores on the declared lanes. -/
theorem sm3_linkage (vs ps : DxsoProgram) (hvs : vs.shaderType = .vertex ∧ vs.major = 3)
    (hps : ps.shaderType = .pixel ∧ ps.major = 3) (hvsOnce : DeclaredOnce (vsOutputElements vs))
    (hpsOnce : DeclaredOnce (psInputElements ps)) :
    (∀ s ∈ PsInputs.extras ps (maskAgainst (psInputs ps) (vsOutputs vs)), s ∈ VsOutputs.extras vs) ∧
    ∀ (α : Type) (zero one pointSize : α) (garbage : Cell → α) (stores : List (OutputStore α)),
      Confined vs stores → ∀ e ∈ psInputElements ps, ∀ c, e.mask.covers c = true →
      e.semantic.isSpecial = false →
        (∀ e' ∈ vsOutputElements vs, e'.semantic = e.semantic → e'.mask.covers c = true →
          (e.semantic.isExtra = true → e.semantic ∈ (extraInputs ps).take maxLinkedInputs) →
          linkedRead zero one pointSize vs ps garbage stores e.reg.index c =
            some ((lastWritten stores e'.reg c).getD (e.semantic.vertexDefault zero one pointSize))) ∧
        ((∀ e' ∈ vsOutputElements vs, e'.semantic ≠ e.semantic) →
          linkedRead zero one pointSize vs ps garbage stores e.reg.index c =
            some (if e.semantic = .new .color 0 then one else zero)) ∧
        (e.semantic.isExtra = true → e.semantic ∉ (extraInputs ps).take maxLinkedInputs →
          linkedRead zero one pointSize vs ps garbage stores e.reg.index c = some zero) := by
  refine ⟨fun s hs ↦ extras_subset vs ps hs, ?_⟩
  intro α zero one pointSize garbage stores hconf e he c hc hspecial
  obtain ⟨read, hread, heval⟩ := eval_reads zero
    (fun name c ↦ emitVsFunction zero one pointSize vs garbage stores (.member name, c)) hps.2 hpsOnce he hc
    (maskAgainst (psInputs ps) (vsOutputs vs))
  have hlinked := linked_iff hps.1 hps.2 (vsOutputs vs) e.semantic
  have houtputs := contains_vsOutputs hvs.1 hvs.2 e.semantic
  rw [linkedRead, hread, Option.map_some, heval]
  refine ⟨fun e' he' hsem hc' hfirst ↦ ?_, fun hnone ↦ ?_, fun hextra hpast ↦ ?_⟩
  · have hmember : PsInputs.read ps
        (maskAgainst (psInputs ps) (vsOutputs vs)) e.semantic =
        some e.semantic.member := by
      cases hx : e.semantic.isExtra with
      | false => exact read_of_base hx hspecial
      | true => rw [read_of_extra hx, if_pos (hlinked.mpr ⟨hfirst hx, houtputs.mpr ⟨hx, e', he', hsem⟩⟩)]
    rw [hmember, Option.map_some, Option.getD_some, ← hsem,
      member_declared hvs hvsOnce hconf he' hc' (hsem ▸ hspecial)]
  · cases hx : e.semantic.isExtra with
    | false =>
      rw [read_of_base hx hspecial, Option.map_some, Option.getD_some, member_undeclared hx hspecial hnone,
        vertexDefault_of_not_special hspecial]
    | true =>
      have hnot : ¬ (vsOutputs vs).contains e.semantic = true := fun h ↦ by
        obtain ⟨-, e', he', hsem⟩ := houtputs.mp h
        exact hnone e' he' hsem
      have hne : e.semantic ≠ .new .color 0 := fun h ↦ by
        rw [h] at hx
        exact absurd hx (by decide)
      rw [read_of_extra hx, if_neg fun h ↦ hnot (hlinked.mp h).2, if_neg hne]
      rfl
  · rw [read_of_extra hextra, if_neg fun h ↦ hpast (hlinked.mp h).1]
    rfl

section Programs

def outputReg (index : ℕ) : Register := ⟨.output, index⟩

def inputReg (index : ℕ) : Register := ⟨.input, index⟩

def packedVs : DxsoProgram :=
  ⟨.vertex, 3, [.semantic .texcoord 0 (outputReg 1) 3, .semantic .normal 0 (outputReg 1) 12]⟩

def packedPs : DxsoProgram :=
  ⟨.pixel, 3, [.semantic .normal 0 (inputReg 0) 12, .semantic .texcoord 0 (inputReg 0) 3]⟩

def packedStores : List (OutputStore ℕ) := [⟨outputReg 1, fun _ ↦ true, fun c ↦ 10 + c.val⟩]

theorem sm3_linkage_packed :
    linkedRead 0 1 0 packedVs packedPs (fun _ ↦ 0) packedStores 0 (lane 2) = some 12 := by
  have honly : ∀ e, elementsOf packedVs (outputReg 1) ≠ [e] := by
    intro e h
    have hlen : (elementsOf packedVs (outputReg 1)).length = 1 := congrArg List.length h
    exact absurd hlen (by decide)
  have hconf : Confined packedVs packedStores := by
    intro store hstore c _ e he
    obtain rfl := mem_singleton.mp hstore
    exact absurd he (honly e)
  have hread := ((sm3_linkage packedVs packedPs (by decide) (by decide) (by decide) (by decide)).2 ℕ 0 1 0
    (fun _ ↦ 0) packedStores hconf ⟨.new .normal 0, inputReg 0, 12⟩ (by decide) (lane 2) (by decide)
    (by decide)).1 ⟨.new .normal 0, outputReg 1, 12⟩ (by decide) rfl (by decide) fun _ ↦ by decide
  exact hread.trans (by decide)

def splitVs : DxsoProgram :=
  ⟨.vertex, 3, [.semantic .texcoord 0 (outputReg 1) 3, .semantic .texcoord 0 (outputReg 2) 12]⟩

def plainPs : DxsoProgram :=
  ⟨.pixel, 3, [.semantic .texcoord 0 (inputReg 0) 15, .semantic .color 0 (inputReg 1) 15]⟩

def wideStores : List (OutputStore ℕ) :=
  [⟨outputReg 2, fun c ↦ decide (2 ≤ c.val), fun _ ↦ 5⟩, ⟨outputReg 1, fun _ ↦ true, fun _ ↦ 7⟩]

/-- A wide store to one register overwrites the lanes the other declares, and an undeclared diffuse reads white. -/
theorem sm3_linkage_wide_store :
    DeclaredOnce (vsOutputElements splitVs) ∧ DeclaredOnce (psInputElements plainPs) ∧
      ⟨.new .texcoord 0, outputReg 2, 12⟩ ∈ vsOutputElements splitVs ∧
      lastWritten wideStores (outputReg 2) (lane 2) = some 5 ∧
      linkedRead 0 1 0 splitVs plainPs (fun _ ↦ 0) wideStores 0 (lane 2) = some 7 ∧
      (∀ e ∈ vsOutputElements splitVs, e.semantic ≠ .new .color 0) ∧
      linkedRead 0 1 0 splitVs plainPs (fun _ ↦ 0) wideStores 1 (lane 0) = some 1 := by
  decide

end Programs

end Mtld3d
