import Mtld3d.Lib.Writes
import Mtld3d.ProcessVertices

namespace Mtld3d

open List Lib

def sliceWrite (start : ℕ) (bytes : List UInt8) (p : ℕ) : Option (Option UInt8) :=
  if start ≤ p ∧ p < start + bytes.length then some bytes[p - start]? else none

structure Wrote (ws : List (ℕ → Option (Option UInt8))) (out out' : List UInt8) : Prop where
  length : out'.length = out.length
  bytes : (fun p ↦ out'[p]?) = writeAll ws fun p ↦ out[p]?

theorem Wrote.nil (out : List UInt8) : Wrote [] out out := ⟨rfl, rfl⟩

theorem Wrote.append {ws vs : List (ℕ → Option (Option UInt8))} {out₁ out₂ out₃ : List UInt8} (h : Wrote ws out₁ out₂)
    (h' : Wrote vs out₂ out₃) : Wrote (ws ++ vs) out₁ out₃ := by
  refine ⟨h'.length.trans h.length, ?_⟩
  rw [writeAll_append, ← h.bytes]
  exact h'.bytes

theorem writeSlice_wrote {out bytes : List UInt8} {start : ℕ} (h : start + bytes.length ≤ out.length) :
    ∃ out', writeSlice out start bytes = some out' ∧ Wrote [sliceWrite start bytes] out out' := by
  refine ⟨_, if_pos h, ?_, funext fun p ↦ ?_⟩
  · simp only [length_append, length_take, length_drop]
    omega
  · simp only [writeAll_cons, writeAll_nil, write, sliceWrite]
    have htake : (out.take start ++ bytes).length = start + bytes.length := by
      rw [length_append, length_take]
      omega
    by_cases hbelow : p < start
    · rw [if_neg (by omega), append_assoc, getElem?_append_left (by rw [length_take]; omega),
        getElem?_take_of_lt hbelow]
      rfl
    · by_cases hin : p < start + bytes.length
      · rw [if_pos ⟨by omega, hin⟩, getElem?_append_left (by omega),
          getElem?_append_right (by rw [length_take]; omega), length_take, min_eq_left (by omega)]
        rfl
      · rw [if_neg (by omega), getElem?_append_right (by omega), htake, getElem?_drop]
        congr 1
        omega

theorem readSlice_some {src : List UInt8} {start n : ℕ} (h : start + n ≤ src.length) :
    ∃ bytes, readSlice src start n = some bytes ∧ bytes.length = n ∧ ∀ k < n, bytes[k]? = src[start + k]? := by
  refine ⟨_, if_pos h, ?_, fun k hk ↦ ?_⟩
  · rw [length_take, length_drop]
    omega
  · rw [getElem?_take_of_lt hk, getElem?_drop]

section Fold

variable {α : Type} {f : List UInt8 → α → Option (List UInt8)} {ws : α → List (ℕ → Option (Option UInt8))} {n : ℕ}

variable {out : List UInt8}

theorem foldlM_wrote {l : List α}
    (h : ∀ a ∈ l, ∀ out, out.length = n → ∃ out', f out a = some out' ∧ Wrote (ws a) out out')
    (hlen : out.length = n) : ∃ out', l.foldlM f out = some out' ∧ Wrote (l.flatMap ws) out out' := by
  induction l generalizing out with
  | nil => exact ⟨out, rfl, .nil out⟩
  | cons a l ih =>
    obtain ⟨mid, hmid, hwrote⟩ := h a mem_cons_self out hlen
    obtain ⟨out', hout, hrest⟩ := ih (fun b hb ↦ h b (mem_cons_of_mem a hb)) (hwrote.length.trans hlen)
    refine ⟨out', ?_, ?_⟩
    · rw [foldlM_cons, hmid]
      exact hout
    · rw [flatMap_cons]
      exact hwrote.append hrest

theorem foldlM_none {l : List α} {a : α} (ha : a ∈ l) (hfail : ∀ out, f out a = none) (out : List UInt8) :
    l.foldlM f out = none := by
  induction l generalizing out with
  | nil => cases ha
  | cons b l ih =>
    rw [foldlM_cons]
    obtain rfl | ha := mem_cons.mp ha
    · rw [hfail]
      rfl
    · cases f out b with
      | none => rfl
      | some mid => exact ih ha mid

end Fold

theorem layOut_bounds (offset : ℕ) (cs : List FvfComponent) :
    offset ≤ (layOut offset cs).2 ∧
      ∀ e ∈ (layOut offset cs).1, offset ≤ e.offset ∧ e.offset + e.size ≤ (layOut offset cs).2 := by
  induction cs generalizing offset with
  | nil => exact ⟨le_refl _, nofun⟩
  | cons c cs ih =>
    obtain ⟨hend, hall⟩ := ih (offset + c.size)
    have hsize : offset + c.size ≤ (layOut offset (c :: cs)).2 := hend
    refine ⟨by omega, fun e he ↦ ?_⟩
    obtain rfl | he := mem_cons.mp he
    · exact ⟨le_refl _, hsize⟩
    · obtain ⟨hlow, hhigh⟩ := hall e he
      exact ⟨by omega, hhigh⟩

theorem layOut_disjoint (offset : ℕ) (cs : List FvfComponent) :
    (layOut offset cs).1.Pairwise fun e e' ↦ e.offset + e.size ≤ e'.offset := by
  induction cs generalizing offset with
  | nil => exact .nil
  | cons c cs ih =>
    refine pairwise_cons.mpr ⟨fun e he ↦ ?_, ih _⟩
    exact ((layOut_bounds _ cs).2 e he).1

variable {e : VertexElement}

theorem mem_layOut {offset : ℕ} {cs : List FvfComponent} (he : e ∈ (layOut offset cs).1) :
    ⟨e.type, e.usage, e.usageIndex⟩ ∈ cs := by
  induction cs generalizing offset with
  | nil => cases he
  | cons c cs ih =>
    obtain rfl | he := mem_cons.mp he
    · exact mem_cons_self
    · exact mem_cons_of_mem c (ih he)

def FvfComponent.PositionWide (c : FvfComponent) : Prop :=
  (c.usage = 9 → c.type = 3) ∧ (c.usage = 0 → c.type = 2 ∨ c.type = 3)

variable {c : FvfComponent}

theorem FvfComponent.PositionWide.of_usage (h₉ : c.usage ≠ 9) (h₀ : c.usage ≠ 0) : c.PositionWide :=
  ⟨fun h ↦ absurd h h₉, fun h ↦ absurd h h₀⟩

theorem eq_of_mem_optional {p : Prop} [Decidable p] {c d : FvfComponent} (h : c ∈ if p then [d] else []) : c = d := by
  split at h
  · exact mem_singleton.mp h
  · cases h

theorem FvfComponent.usage_ofBetas {fvf pos : ℕ} (hc : c ∈ ofBetas fvf pos) : c.usage = 1 ∨ c.usage = 2 := by
  unfold ofBetas at hc
  obtain hc | hc := mem_append.mp hc
  · rw [eq_of_mem_optional hc]
    exact .inl rfl
  · obtain ⟨type, -, rfl⟩ := mem_map.mp hc
    exact .inr rfl

theorem FvfComponent.positionWide_ofPosition {fvf : ℕ} (hc : c ∈ ofPosition fvf) : c.PositionWide := by
  unfold ofPosition at hc
  simp only at hc
  split at hc
  · split at hc
    · rw [mem_singleton.mp hc]
      exact ⟨nofun, fun _ ↦ .inr rfl⟩
    · rw [mem_singleton.mp hc]
      exact ⟨nofun, fun _ ↦ .inl rfl⟩
  · split at hc
    · rw [mem_singleton.mp hc]
      exact ⟨fun _ ↦ rfl, nofun⟩
    · split at hc
      · obtain rfl | hc := mem_cons.mp hc
        · exact ⟨nofun, fun _ ↦ .inl rfl⟩
        · have := usage_ofBetas hc
          exact .of_usage (by omega) (by omega)
      · cases hc

theorem FvfComponent.positionWide_ofFvf {fvf : ℕ} (hc : c ∈ ofFvf fvf) : c.PositionWide := by
  unfold ofFvf at hc
  simp only [mem_append] at hc
  obtain ((((hc | hc) | hc) | hc) | hc) | hc := hc
  · exact positionWide_ofPosition hc
  · rw [eq_of_mem_optional hc]
    exact .of_usage nofun nofun
  · rw [eq_of_mem_optional hc]
    exact .of_usage nofun nofun
  · rw [eq_of_mem_optional hc]
    exact .of_usage nofun nofun
  · rw [eq_of_mem_optional hc]
    exact .of_usage nofun nofun
  · obtain ⟨i, -, rfl⟩ := mem_map.mp hc
    exact .of_usage nofun nofun

theorem size_of_positionT {fvf : ℕ} (he : e ∈ (fvfToElements fvf).1) (husage : e.usage = 9) : e.size = 16 := by
  have htype : e.type = 3 := (FvfComponent.positionWide_ofFvf (mem_layOut he)).1 husage
  rw [VertexElement.size, VertexElement.format, htype]
  rfl

theorem size_of_position {fvf : ℕ} (he : e ∈ (fvfToElements fvf).1)
    (husage : e.usage = 0 ∨ e.usage = 9) : 12 ≤ e.size := by
  obtain husage | husage := husage
  · have htype : e.type = 2 ∨ e.type = 3 := (FvfComponent.positionWide_ofFvf (mem_layOut he)).2 husage
    rw [VertexElement.size, VertexElement.format]
    obtain htype | htype := htype
    · rw [htype]
      decide
    · rw [htype]
      decide
  · rw [size_of_positionT he husage]
    decide

namespace ProcessVerticesRequest

variable {req : ProcessVerticesRequest} {srcPos dstPos : VertexElement} {i : ℕ}

def Declines (req : ProcessVerticesRequest) : Prop :=
  req.stride = 0 ∨ req.dstStride = 0 ∨ req.src.length < req.count * req.stride ∨ req.dstPos = none ∨ req.srcPos = none

def Copies (req : ProcessVerticesRequest) (de se : VertexElement) : Prop :=
  de ∈ req.dstElems ∧ de.usage ≠ 9 ∧ req.matching de = some se

/-- Everything read for vertex `i` lies inside the source. -/
structure VertexReadable (req : ProcessVerticesRequest) (i : ℕ) : Prop where
  position : ∀ e, req.srcPos = some e → i * req.stride + e.offset + 12 ≤ req.src.length
  component : ∀ de se, req.Copies de se → i * req.stride + se.offset + min de.size se.size ≤ req.src.length

/-- Where the reads for a vertex end, from its start. -/
def readEnds (req : ProcessVerticesRequest) : List ℕ :=
  (req.srcPos.toList.map fun e ↦ e.offset + 12) ++
    (req.dstElems.filter fun de ↦ de.usage ≠ 9).flatMap fun de ↦
      (req.matching de).toList.map fun se ↦ se.offset + min de.size se.size

/-- The furthest read for the last vertex ends inside the source. -/
def Readable (req : ProcessVerticesRequest) : Prop :=
  req.count = 0 ∨ (req.count - 1) * req.stride + req.readEnds.foldr max 0 ≤ req.src.length

instance (req : ProcessVerticesRequest) : Decidable req.Readable := inferInstanceAs (Decidable (_ ∨ _))

theorem add_foldr_max_le {a n : ℕ} (h : a ≤ n) (l : List ℕ) : a + l.foldr max 0 ≤ n ↔ ∀ o ∈ l, a + o ≤ n := by
  induction l with
  | nil => simpa using h
  | cons o l ih =>
    rw [foldr_cons, forall_mem_cons, ← ih]
    omega

theorem vertexReadable_iff : req.VertexReadable i ↔ ∀ o ∈ req.readEnds, i * req.stride + o ≤ req.src.length := by
  constructor
  · intro h o ho
    obtain ho | ho := mem_append.1 ho
    · obtain ⟨e, he, rfl⟩ := mem_map.1 ho
      have hposition := h.position e (Option.mem_toList.1 he)
      omega
    · obtain ⟨de, hde, ho⟩ := mem_flatMap.1 ho
      obtain ⟨se, hse, rfl⟩ := mem_map.1 ho
      obtain ⟨hmem, husage⟩ := mem_filter.1 hde
      have hcomponent := h.component de se ⟨hmem, of_decide_eq_true husage, Option.mem_toList.1 hse⟩
      omega
  · intro h
    refine ⟨fun e he ↦ ?_, fun de se hcopy ↦ ?_⟩
    · have hend := h (e.offset + 12) (mem_append_left _ (mem_map.2 ⟨e, Option.mem_toList.2 he, rfl⟩))
      omega
    · have hend := h (se.offset + min de.size se.size) (mem_append_right _ (mem_flatMap.2 ⟨de,
        mem_filter.2 ⟨hcopy.1, decide_eq_true hcopy.2.1⟩, mem_map.2 ⟨se, Option.mem_toList.2 hcopy.2.2, rfl⟩⟩))
      omega

theorem readable_iff (h : req.count * req.stride ≤ req.src.length) :
    req.Readable ↔ ∀ i < req.count, req.VertexReadable i := by
  have hle : ∀ i < req.count, i * req.stride ≤ (req.count - 1) * req.stride :=
    fun i hi ↦ Nat.mul_le_mul_right _ (Nat.le_sub_one_of_lt hi)
  rw [Readable, add_foldr_max_le ((Nat.mul_le_mul_right _ (Nat.sub_le _ 1)).trans h)]
  simp only [vertexReadable_iff]
  constructor
  · rintro (hzero | hlast) i hi o ho
    · omega
    · exact (Nat.add_le_add_right (hle i hi) o).trans (hlast o ho)
  · intro hall
    obtain hzero | hpos := Nat.eq_zero_or_pos req.count
    · exact .inl hzero
    · exact .inr (hall (req.count - 1) (Nat.sub_lt hpos one_pos))

/-- The bytes a copy of `de` puts into vertex `i`. -/
def componentWrite (req : ProcessVerticesRequest) (i : ℕ) (de : VertexElement) (p : ℕ) : Option (Option UInt8) :=
  if de.usage = 9 then none
  else
    match req.matching de with
    | none => none
    | some se =>
      let start := i * req.dstStride + de.offset
      if start ≤ p ∧ p < start + min de.size se.size then some req.src[i * req.stride + se.offset + (p - start)]?
      else none

theorem vertex_end (hi : i < req.count) {o : ℕ} (ho : o ≤ req.dstStride) :
    i * req.dstStride + o ≤ req.count * req.dstStride := by
  have h : (i + 1) * req.dstStride ≤ req.count * req.dstStride := Nat.mul_le_mul_right _ hi
  rw [add_mul, one_mul] at h
  omega

theorem dst_end (he : e ∈ req.dstElems) : e.offset + e.size ≤ req.dstStride :=
  ((layOut_bounds 0 _).2 e he).2

theorem copyComponent_wrote (hi : i < req.count) (hread : req.VertexReadable i) {de : VertexElement}
    (hde : de ∈ req.dstElems) (hlen : out.length = req.count * req.dstStride) :
    ∃ out', req.copyComponent i out de = some out' ∧ Wrote [req.componentWrite i de] out out' := by
  have hsame : ∀ {w : ℕ → Option (Option UInt8)}, (∀ p, w p = none) → Wrote [w] out out := by
    intro w hw
    refine ⟨rfl, funext fun p ↦ ?_⟩
    rw [writeAll_untouched]
    intro v hv
    rw [mem_singleton.mp hv]
    exact hw p
  unfold copyComponent
  by_cases husage : de.usage = 9
  · rw [if_pos husage]
    exact ⟨out, rfl, hsame fun p ↦ if_pos husage⟩
  rw [if_neg husage]
  cases hmatch : req.matching de with
  | none =>
    refine ⟨out, rfl, hsame fun p ↦ ?_⟩
    rw [componentWrite, if_neg husage, hmatch]
  | some se =>
    have hin := hread.component de se ⟨hde, husage, hmatch⟩
    obtain ⟨bytes, hbytes, hbyteslen, hvalues⟩ := readSlice_some hin
    simp only [hbytes]
    have hend := vertex_end hi (dst_end hde)
    have hfits : i * req.dstStride + de.offset + bytes.length ≤ out.length := by
      rw [hlen, hbyteslen]
      omega
    obtain ⟨out', hout, hwrote⟩ := writeSlice_wrote hfits
    refine ⟨out', hout, ?_⟩
    have hsamewrite : sliceWrite (i * req.dstStride + de.offset) bytes = req.componentWrite i de := by
      funext p
      rw [componentWrite, if_neg husage, hmatch, sliceWrite, hbyteslen]
      simp only
      split
      · rename_i hp
        rw [hvalues _ (by omega)]
      · rfl
    rw [← hsamewrite]
    exact hwrote

theorem copyComponent_none {de se : VertexElement} (hcopy : req.Copies de se)
    (hout : ¬ i * req.stride + se.offset + min de.size se.size ≤ req.src.length) (out : List UInt8) :
    req.copyComponent i out de = none := by
  unfold copyComponent
  rw [if_neg hcopy.2.1, hcopy.2.2]
  simp [readSlice, if_neg hout]

def positionWrite (req : ProcessVerticesRequest) (srcPos dstPos : VertexElement) (i : ℕ) : ℕ → Option (Option UInt8) :=
  sliceWrite (i * req.dstStride + dstPos.offset)
    (req.screen ((req.src.drop (i * req.stride + srcPos.offset)).take 12)).toList

def vertexWrites (req : ProcessVerticesRequest) (srcPos dstPos : VertexElement) (i : ℕ) :
    List (ℕ → Option (Option UInt8)) :=
  req.positionWrite srcPos dstPos i :: req.dstElems.map (req.componentWrite i)

theorem mem_of_dstPos (h : req.dstPos = some dstPos) : dstPos ∈ req.dstElems ∧ dstPos.usage = 9 :=
  ⟨mem_of_find?_eq_some h, by simpa using find?_some h⟩

theorem processVertex_wrote (hsrc : req.srcPos = some srcPos) (hdst : req.dstPos = some dstPos) (hi : i < req.count)
    (hread : req.VertexReadable i) (hlen : out.length = req.count * req.dstStride) :
    ∃ out', req.processVertex srcPos dstPos out i = some out' ∧ Wrote (req.vertexWrites srcPos dstPos i) out out' := by
  obtain ⟨hmem, husage⟩ := mem_of_dstPos hdst
  have hsize : dstPos.size = 16 := size_of_positionT hmem husage
  have hend := vertex_end hi (dst_end hmem)
  have hfits : i * req.dstStride + dstPos.offset +
      (req.screen ((req.src.drop (i * req.stride + srcPos.offset)).take 12)).toList.length ≤ out.length := by
    rw [Vector.length_toList, hlen]
    omega
  obtain ⟨mid, hmid, hposition⟩ := writeSlice_wrote hfits
  obtain ⟨out', hout, hcomponents⟩ := foldlM_wrote (f := req.copyComponent i)
    (fun de hde _ h ↦ copyComponent_wrote hi hread hde h) (hposition.length.trans hlen)
  refine ⟨out', ?_, ?_⟩
  · unfold processVertex
    simp [readSlice, if_pos (hread.position srcPos hsrc), hmid, hout]
  · have hall := hposition.append hcomponents
    rwa [← map_eq_flatMap] at hall

theorem processVertex_none (hsrc : req.srcPos = some srcPos) (hread : ¬ req.VertexReadable i) (out : List UInt8) :
    req.processVertex srcPos dstPos out i = none := by
  unfold processVertex
  by_cases hposition : i * req.stride + srcPos.offset + 12 ≤ req.src.length
  · simp only [readSlice, if_pos hposition]
    cases writeSlice out (i * req.dstStride + dstPos.offset) _ with
    | none => rfl
    | some mid =>
      have hcomponent : ∃ de se, req.Copies de se ∧
          ¬ i * req.stride + se.offset + min de.size se.size ≤ req.src.length := by
        by_contra hall
        refine hread ⟨fun e he ↦ ?_, fun de se hcopy ↦ ?_⟩
        · cases hsrc.symm.trans he
          exact hposition
        · by_contra hout
          exact hall ⟨de, se, hcopy, hout⟩
      obtain ⟨de, se, hcopy, hout⟩ := hcomponent
      exact foldlM_none hcopy.1 (copyComponent_none hcopy hout) mid
  · simp [readSlice, if_neg hposition]

theorem processVertices_cases (req : ProcessVerticesRequest) :
    (req.Declines ∧ processVertices req = .declined) ∨
    (¬ req.Declines ∧ ¬ req.Readable ∧ processVertices req = .panicked) ∨
    ∃ srcPos dstPos out, req.srcPos = some srcPos ∧ req.dstPos = some dstPos ∧ req.Readable ∧
      processVertices req = .done out ∧
      Wrote ((range req.count).flatMap (req.vertexWrites srcPos dstPos))
        (replicate (req.count * req.dstStride) 0) out := by
  unfold processVertices
  by_cases hstride : req.stride = 0 ∨ req.dstStride = 0
  · refine .inl ⟨?_, if_pos hstride⟩
    obtain h | h := hstride
    · exact .inl h
    · exact .inr (.inl h)
  rw [if_neg hstride]
  by_cases hshort : req.src.length < req.count * req.stride
  · exact .inl ⟨.inr (.inr (.inl hshort)), if_pos hshort⟩
  rw [if_neg hshort]
  cases hdst : req.dstPos with
  | none => exact .inl ⟨.inr (.inr (.inr (.inl hdst))), rfl⟩
  | some dstPos =>
    cases hsrc : req.srcPos with
    | none => exact .inl ⟨.inr (.inr (.inr (.inr hsrc))), rfl⟩
    | some srcPos =>
      simp only
      have hiff := readable_iff (not_lt.1 hshort)
      by_cases hread : req.Readable
      · obtain ⟨out, hout, hwrote⟩ := foldlM_wrote (f := req.processVertex srcPos dstPos)
          (fun i hi _ h ↦ processVertex_wrote hsrc hdst (mem_range.mp hi) (hiff.1 hread i (mem_range.mp hi)) h)
          (length_replicate (n := req.count * req.dstStride) (a := (0 : UInt8)))
        refine .inr (.inr ⟨srcPos, dstPos, out, rfl, rfl, hread, ?_, hwrote⟩)
        rw [hout]
      · obtain ⟨i, hi, hout⟩ : ∃ i < req.count, ¬ req.VertexReadable i := by
          simpa [hiff] using hread
        refine .inr (.inl ⟨?_, hread, ?_⟩)
        · unfold Declines
          rw [hdst, hsrc]
          simp only [reduceCtorEq, or_false]
          tauto
        · rw [foldlM_none (mem_range.mpr hi) (processVertex_none hsrc hout)]

/-- Each vertex holds its copied components, and zero in every other byte outside its position. -/
structure Placed (req : ProcessVerticesRequest) (out : List UInt8) : Prop where
  length : out.length = req.count * req.dstStride
  copied : ∀ i < req.count, ∀ de se, req.Copies de se → ∀ k < min de.size se.size,
    out[i * req.dstStride + de.offset + k]? = req.src[i * req.stride + se.offset + k]?
  zero : ∀ i < req.count, ∀ o < req.dstStride,
    (∀ e ∈ req.dstElems, e.usage = 9 → ¬ (e.offset ≤ o ∧ o < e.offset + e.size)) →
    (∀ de se, req.Copies de se → ¬ (de.offset ≤ o ∧ o < de.offset + min de.size se.size)) →
    out[i * req.dstStride + o]? = some 0
  apart : req.dstElems.Pairwise fun e e' ↦ e.offset + e.size ≤ e'.offset

theorem vertex_unique {n i i' o o' : ℕ} (h : i * n + o = i' * n + o') (ho : o < n) (ho' : o' < n) :
    i = i' ∧ o = o' := by
  have hmul : ∀ {a b : ℕ}, a < b → a * n + n ≤ b * n := by
    intro a b hab
    have := Nat.mul_le_mul_right n hab
    rwa [Nat.succ_mul] at this
  obtain hlt | rfl | hlt := lt_trichotomy i i'
  · have := hmul hlt
    omega
  · exact ⟨rfl, by omega⟩
  · have := hmul hlt
    omega

theorem eq_of_shared_byte {e e' : VertexElement} (he : e ∈ req.dstElems) (he' : e' ∈ req.dstElems) {o : ℕ}
    (ho : e.offset ≤ o ∧ o < e.offset + e.size) (ho' : e'.offset ≤ o ∧ o < e'.offset + e'.size) : e = e' := by
  have hapart : req.dstElems.Pairwise fun a b ↦ a.offset + a.size ≤ b.offset ∨ b.offset + b.size ≤ a.offset :=
    (layOut_disjoint 0 _).imp .inl
  have hsymm : Std.Symm fun a b : VertexElement ↦
      a.offset + a.size ≤ b.offset ∨ b.offset + b.size ≤ a.offset := ⟨fun _ _ h ↦ h.symm⟩
  by_contra hne
  have hcase := hapart.forall he he' hne
  omega

theorem componentWrite_some {de : VertexElement} (hde : de ∈ req.dstElems) {p : ℕ} {v : Option UInt8}
    (h : req.componentWrite i de p = some v) : ∃ se k, req.Copies de se ∧ k < min de.size se.size ∧
      p = i * req.dstStride + de.offset + k ∧ v = req.src[i * req.stride + se.offset + k]? := by
  unfold componentWrite at h
  split at h
  · cases h
  · rename_i husage
    cases hmatch : req.matching de with
    | none =>
      rw [hmatch] at h
      cases h
    | some se =>
      rw [hmatch] at h
      simp only at h
      split at h
      · rename_i hp
        refine ⟨se, p - (i * req.dstStride + de.offset), ⟨hde, husage, hmatch⟩, by omega, by omega, ?_⟩
        exact (Option.some.inj h).symm
      · cases h

theorem positionWrite_some {p : ℕ} {v : Option UInt8} (h : req.positionWrite srcPos dstPos i p = some v) :
    ∃ k < 16, p = i * req.dstStride + (dstPos.offset + k) := by
  unfold positionWrite sliceWrite at h
  rw [Vector.length_toList] at h
  split at h
  · rename_i hp
    exact ⟨p - (i * req.dstStride + dstPos.offset), by omega, by omega⟩
  · cases h

theorem write_at_component (hdst : req.dstPos = some dstPos) {de se : VertexElement} (hcopy : req.Copies de se) {k : ℕ}
    (hk : k < min de.size se.size) {w : ℕ → Option (Option UInt8)}
    (hw : w ∈ (range req.count).flatMap (req.vertexWrites srcPos dstPos)) :
    w (i * req.dstStride + de.offset + k) = none ∨
      w (i * req.dstStride + de.offset + k) = some req.src[i * req.stride + se.offset + k]? := by
  obtain ⟨i', -, hw⟩ := mem_flatMap.mp hw
  obtain ⟨hposmem, hposusage⟩ := mem_of_dstPos hdst
  have hpossize := size_of_positionT hposmem hposusage
  have hend := dst_end hcopy.1
  have hposend := dst_end hposmem
  cases hvalue : w (i * req.dstStride + de.offset + k) with
  | none => exact .inl rfl
  | some v =>
    refine .inr ?_
    obtain rfl | hw := mem_cons.mp hw
    · obtain ⟨k', hk', hp⟩ := positionWrite_some hvalue
      obtain ⟨-, ho⟩ := vertex_unique (by rw [← hp, add_assoc]) (o := de.offset + k) (by omega) (by omega)
      have hsame : de = dstPos := eq_of_shared_byte (o := de.offset + k) hcopy.1 hposmem ⟨by omega, by omega⟩
        ⟨by omega, by omega⟩
      exact absurd (hsame ▸ hposusage) hcopy.2.1
    · obtain ⟨de', hde', rfl⟩ := mem_map.mp hw
      obtain ⟨se', k', hcopy', hk', hp, hv⟩ := componentWrite_some hde' hvalue
      have hend' := dst_end hde'
      rw [add_assoc, add_assoc] at hp
      obtain ⟨rfl, ho⟩ := vertex_unique hp (by omega) (by omega)
      obtain rfl : de = de' := eq_of_shared_byte (o := de.offset + k) hcopy.1 hde' ⟨by omega, by omega⟩ ⟨by omega, by omega⟩
      obtain rfl : se = se' := Option.some.inj (hcopy.2.2.symm.trans hcopy'.2.2)
      obtain rfl : k = k' := by omega
      rw [hv]

theorem write_at_gap (hdst : req.dstPos = some dstPos) {o : ℕ} (ho : o < req.dstStride)
    (hposition : ∀ e ∈ req.dstElems, e.usage = 9 → ¬ (e.offset ≤ o ∧ o < e.offset + e.size))
    (hcomponent : ∀ de se, req.Copies de se → ¬ (de.offset ≤ o ∧ o < de.offset + min de.size se.size))
    {w : ℕ → Option (Option UInt8)} (hw : w ∈ (range req.count).flatMap (req.vertexWrites srcPos dstPos)) :
    w (i * req.dstStride + o) = none := by
  obtain ⟨i', -, hw⟩ := mem_flatMap.mp hw
  obtain ⟨hposmem, hposusage⟩ := mem_of_dstPos hdst
  have hpossize := size_of_positionT hposmem hposusage
  have hposend := dst_end hposmem
  cases hvalue : w (i * req.dstStride + o) with
  | none => rfl
  | some v =>
    obtain rfl | hw := mem_cons.mp hw
    · obtain ⟨k, hk, hp⟩ := positionWrite_some hvalue
      obtain ⟨-, hsame⟩ := vertex_unique hp ho (by omega)
      exact absurd ⟨by omega, by omega⟩ (hposition dstPos hposmem hposusage)
    · obtain ⟨de, hde, rfl⟩ := mem_map.mp hw
      obtain ⟨se, k, hcopy, hk, hp, -⟩ := componentWrite_some hde hvalue
      have hend := dst_end hde
      rw [add_assoc] at hp
      obtain ⟨-, hsame⟩ := vertex_unique hp ho (by omega)
      exact absurd ⟨by omega, by omega⟩ (hcomponent de se hcopy)

theorem placed_of_wrote (hdst : req.dstPos = some dstPos)
    (hwrote : Wrote ((range req.count).flatMap (req.vertexWrites srcPos dstPos))
      (replicate (req.count * req.dstStride) 0) out) : req.Placed out where
  length := by rw [hwrote.length, length_replicate]
  copied := by
    intro i hi de se hcopy k hk
    rw [congrFun hwrote.bytes]
    refine writeAll_agreed (fun w hw ↦ write_at_component hdst hcopy hk hw) ⟨req.componentWrite i de, ?_, ?_⟩ _
    · refine mem_flatMap.mpr ⟨i, mem_range.mpr hi, mem_cons_of_mem _ ?_⟩
      exact mem_map.mpr ⟨de, hcopy.1, rfl⟩
    · rw [componentWrite, if_neg hcopy.2.1, hcopy.2.2]
      simp only
      rw [if_pos ⟨by omega, by omega⟩, Nat.add_sub_cancel_left]
  zero := by
    intro i hi o ho hposition hcomponent
    have hend := vertex_end hi ho
    rw [congrFun hwrote.bytes, writeAll_untouched fun w hw ↦ write_at_gap hdst ho hposition hcomponent hw]
    rw [getElem?_replicate, if_pos (by omega)]
  apart := layOut_disjoint 0 _

def Meets (req : ProcessVerticesRequest) : Prop :=
  processVertices req = .declined ∨ ∃ out, processVertices req = .done out ∧ req.Placed out

theorem meets_iff (req : ProcessVerticesRequest) : req.Meets ↔ req.Declines ∨ req.Readable := by
  obtain ⟨hdeclines, hcall⟩ | ⟨hnot, hread, hcall⟩ | ⟨srcPos, dstPos, out, -, hdst, hread, hcall, hwrote⟩ :=
    processVertices_cases req
  · exact ⟨fun _ ↦ .inl hdeclines, fun _ ↦ .inl hcall⟩
  · constructor
    · rintro (hdeclined | ⟨out, hdone, -⟩)
      · exact absurd (hcall.symm.trans hdeclined) nofun
      · exact absurd (hcall.symm.trans hdone) nofun
    · exact fun h ↦ absurd h (not_or.2 ⟨hnot, hread⟩)
  · exact ⟨fun _ ↦ .inr hread, fun _ ↦ .inr ⟨out, hcall, placed_of_wrote hdst hwrote⟩⟩

theorem meets_of_stride (h : (fvfToElements req.srcFvf).2 ≤ req.stride) : req.Meets := by
  rw [meets_iff]
  by_cases hshort : req.src.length < req.count * req.stride
  · exact .inl (.inr (.inr (.inl hshort)))
  refine .inr ((readable_iff (not_lt.1 hshort)).2 fun i hi ↦ ?_)
  have hvertex : i * req.stride + req.stride ≤ req.count * req.stride := by
    rw [← Nat.succ_mul]
    exact Nat.mul_le_mul_right _ hi
  have hsrc : ∀ e ∈ req.srcElems, e.offset + e.size ≤ req.stride :=
    fun e he ↦ ((layOut_bounds 0 _).2 e he).2.trans h
  refine ⟨fun e he ↦ ?_, fun de se hcopy ↦ ?_⟩
  · have hmem : e ∈ req.srcElems := mem_of_find?_eq_some he
    have husage : e.usage = 0 ∨ e.usage = 9 := by simpa using find?_some he
    have hwide := size_of_position hmem husage
    have hend := hsrc e hmem
    omega
  · have hend := hsrc se (mem_of_find?_eq_some hcopy.2.2)
    omega

theorem process_vertices_meets (req : ProcessVerticesRequest) :
    (req.Meets ↔ req.Declines ∨ req.Readable) ∧
    ((fvfToElements req.srcFvf).2 ≤ req.stride → req.Meets) :=
  ⟨meets_iff req, meets_of_stride⟩

def shortStrideRequest : ProcessVerticesRequest where
  src := [0, 0, 0, 0]
  srcStride := 4
  srcFvf := 2
  dstFvf := 4
  count := 1
  screen := fun _ ↦ Vector.replicate 16 0

theorem shortStrideRequest_panics : processVertices shortStrideRequest = .panicked := by decide

end ProcessVerticesRequest

end Mtld3d
