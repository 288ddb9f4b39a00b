import Mtld3d.DirtyRange
import Mtld3d.PipelineState

namespace Mtld3d

def checked (n : ℕ) : Option ℕ := if n ≤ u32Max then some n else none

def nonindexedVbRange (streamOffset stride startVertex vertexCount : ℕ) : Option (ℕ × ℕ) :=
  if vertexCount = 0 then none
  else
    match checked (startVertex * stride) with
    | none => some (streamOffset, 0)
    | some skip =>
      match checked (streamOffset + skip) with
      | none => some (streamOffset, 0)
      | some start =>
        match checked (vertexCount * stride) with
        | some size => some (start, size)
        | none => some (start, 0)

def indexedVbRangeLowerBound (streamOffset stride : ℕ) (baseVertex : ℤ) (indexCount : ℕ) : Option (ℕ × ℕ) :=
  if indexCount = 0 then none
  else if baseVertex < 0 then some (streamOffset, 0)
  else
    match checked (baseVertex.natAbs * stride) with
    | none => some (streamOffset, 0)
    | some skip =>
      match checked (streamOffset + skip) with
      | some start => some (start, 0)
      | none => some (streamOffset, 0)

def instancedStreamReadBytes (instances : ℕ) (step : VertexStepFunction) (rate stride : ℕ) : ℕ :=
  let elements :=
    match step with
    | .constant => 1
    | .perVertex | .perInstance => if rate = 0 then 1 else (instances + (rate - 1)) / rate
  match checked (elements * stride) with
  | some bytes => bytes
  | none => u32Max

def crossingReadSize (size extent stride : ℕ) : ℕ :=
  if size = 0 then 0 else saturatingAdd size (extent - stride)

inductive StreamDraw
  | nonindexed (startVertex vertexCount : ℕ)
  | indexed (baseVertex : ℤ) (indices : List ℕ)
  | instanced (instances : ℕ) (step : VertexStepFunction) (rate : ℕ)

namespace StreamDraw

/-- The elements of the stream the draw reads. An index selects none where its sum with the base is negative, and a
rate of zero never advances. -/
def Takes : StreamDraw → ℕ → Prop
  | nonindexed startVertex vertexCount, s => startVertex ≤ s ∧ s < startVertex + vertexCount
  | indexed baseVertex indices, s => ∃ index ∈ indices, (s : ℤ) = baseVertex + index
  | instanced _ .constant _, s => s = 0
  | instanced instances _ rate, s => ∃ i < instances, s = i / rate

def readRange (streamOffset stride : ℕ) : StreamDraw → Option (ℕ × ℕ)
  | nonindexed startVertex vertexCount => nonindexedVbRange streamOffset stride startVertex vertexCount
  | indexed baseVertex indices => indexedVbRangeLowerBound streamOffset stride baseVertex indices.length
  | instanced instances step rate => some (streamOffset, instancedStreamReadBytes instances step rate stride)

end StreamDraw

open DirtyRange

theorem checked_eq_some {n m : ℕ} (h : checked n = some m) : n = m := by
  unfold checked at h
  split at h
  · exact Option.some.inj h
  · cases h

variable {offset size extent stride logicalLen p : ℕ}

theorem inWindow_crossing (hlen : logicalLen ≤ u32Max) (hoffset : offset ≤ p)
    (hend : size = 0 ∨ p < offset + (size + (extent - stride))) (hp : p < logicalLen) :
    InWindow offset (crossingReadSize size extent stride) logicalLen p := by
  have hstart : (if logicalLen < offset then logicalLen else offset) = offset := if_neg (by omega)
  simp only [InWindow, window, hstart]
  by_cases hzero : size = 0
  · rw [crossingReadSize, if_pos hzero, if_pos (.inl rfl)]
    omega
  · rw [crossingReadSize, if_neg hzero, saturatingAdd]
    split
    · omega
    · omega

theorem element_lt {first count s k : ℕ} (hs : s < first + count) (hk : k < extent) :
    s * stride + k < first * stride + (count * stride + (extent - stride)) := by
  have hmul : (s + 1) * stride ≤ (first + count) * stride := Nat.mul_le_mul_right _ hs
  rw [add_mul, add_mul, one_mul] at hmul
  omega

namespace StreamDraw

variable {streamOffset s k : ℕ} {draw : StreamDraw}

def Spans (range : ℕ × ℕ) (extent stride p : ℕ) : Prop :=
  range.1 ≤ p ∧ (range.2 = 0 ∨ p < range.1 + (range.2 + (extent - stride)))

theorem spans_nonindexed {startVertex vertexCount : ℕ} (hs : (nonindexed startVertex vertexCount).Takes s)
    (hk : k < extent) : ∃ range, nonindexedVbRange streamOffset stride startVertex vertexCount = some range ∧
      Spans range extent stride (streamOffset + s * stride + k) := by
  obtain ⟨hfirst, hlast⟩ := hs
  have hbelow : startVertex * stride ≤ s * stride := Nat.mul_le_mul_right _ hfirst
  have habove : s * stride + k < startVertex * stride + (vertexCount * stride + (extent - stride)) :=
    element_lt hlast hk
  have hopen : Spans (streamOffset, 0) extent stride (streamOffset + s * stride + k) :=
    ⟨by show streamOffset ≤ _; omega, .inl rfl⟩
  unfold nonindexedVbRange
  rw [if_neg (by omega)]
  cases hskip : checked (startVertex * stride) with
  | none => exact ⟨_, rfl, hopen⟩
  | some skip =>
    obtain rfl := checked_eq_some hskip
    simp only
    cases hstart : checked (streamOffset + startVertex * stride) with
    | none => exact ⟨_, rfl, hopen⟩
    | some start =>
      obtain rfl := checked_eq_some hstart
      simp only
      cases hsize : checked (vertexCount * stride) with
      | none => exact ⟨_, rfl, by show _ ≤ _; omega, .inl rfl⟩
      | some size =>
        obtain rfl := checked_eq_some hsize
        exact ⟨_, rfl, by show _ ≤ _; omega, .inr (by show _ < _; omega)⟩

theorem spans_indexed {baseVertex : ℤ} {indices : List ℕ} (hs : (indexed baseVertex indices).Takes s) :
    ∃ range, indexedVbRangeLowerBound streamOffset stride baseVertex indices.length = some range ∧
      Spans range extent stride (streamOffset + s * stride + k) := by
  obtain ⟨index, hindex, hs⟩ := hs
  have hopen : Spans (streamOffset, 0) extent stride (streamOffset + s * stride + k) :=
    ⟨by show streamOffset ≤ _; omega, .inl rfl⟩
  unfold indexedVbRangeLowerBound
  rw [if_neg (ne_of_gt (List.length_pos_of_mem hindex))]
  split
  · exact ⟨_, rfl, hopen⟩
  · rename_i hbase
    have hle : baseVertex.natAbs ≤ s := by omega
    have hbelow : baseVertex.natAbs * stride ≤ s * stride := Nat.mul_le_mul_right _ hle
    cases hskip : checked (baseVertex.natAbs * stride) with
    | none => exact ⟨_, rfl, hopen⟩
    | some skip =>
      obtain rfl := checked_eq_some hskip
      simp only
      cases hstart : checked (streamOffset + baseVertex.natAbs * stride) with
      | none => exact ⟨_, rfl, hopen⟩
      | some start =>
        obtain rfl := checked_eq_some hstart
        exact ⟨_, rfl, by show _ ≤ _; omega, .inl rfl⟩

theorem div_lt_divCeil {i instances rate : ℕ} (hi : i < instances) (hrate : rate ≠ 0) :
    i / rate < (instances + (rate - 1)) / rate := by
  have hpos : 0 < rate := Nat.pos_of_ne_zero hrate
  rw [Nat.lt_iff_add_one_le, ← Nat.add_div_right i hpos]
  exact Nat.div_le_div_right (by omega)

theorem instancedStreamReadBytes_eq (instances : ℕ) (step : VertexStepFunction) (rate stride : ℕ) :
    instancedStreamReadBytes instances step rate stride =
      (checked ((if step = .constant ∨ rate = 0 then 1 else (instances + (rate - 1)) / rate) * stride)).getD u32Max := by
  unfold instancedStreamReadBytes
  cases step <;> simp only [reduceCtorEq, false_or, true_or, if_true] <;>
    cases checked _ <;> rfl

theorem takes_instanced {instances rate : ℕ} {step : VertexStepFunction}
    (hs : (instanced instances step rate).Takes s) :
    s < if step = .constant ∨ rate = 0 then 1 else (instances + (rate - 1)) / rate := by
  by_cases hone : step = .constant ∨ rate = 0
  · rw [if_pos hone]
    cases step with
    | constant =>
      rw [show s = 0 from hs]
      exact one_pos
    | perVertex | perInstance =>
      obtain ⟨i, -, rfl⟩ := hs
      rw [hone.resolve_left nofun, Nat.div_zero]
      exact one_pos
  · rw [if_neg hone]
    obtain ⟨hstep, hrate⟩ := not_or.mp hone
    cases step with
    | constant => exact absurd rfl hstep
    | perVertex | perInstance =>
      obtain ⟨i, hi, rfl⟩ := hs
      exact div_lt_divCeil hi hrate

theorem spans_instanced {instances rate : ℕ} {step : VertexStepFunction} (hs : (instanced instances step rate).Takes s)
    (hk : k < extent) (hp : streamOffset + s * stride + k < u32Max) :
    Spans (streamOffset, instancedStreamReadBytes instances step rate stride) extent stride
      (streamOffset + s * stride + k) := by
  have hlt := takes_instanced hs
  rw [instancedStreamReadBytes_eq]
  generalize (if step = .constant ∨ rate = 0 then 1 else (instances + (rate - 1)) / rate) = elements at hlt
  have habove : s * stride + k < 0 * stride + (elements * stride + (extent - stride)) := element_lt (by omega) hk
  refine ⟨by show streamOffset ≤ _; omega, .inr ?_⟩
  show _ < streamOffset + ((checked (elements * stride)).getD u32Max + (extent - stride))
  cases hsize : checked (elements * stride) with
  | none =>
    rw [Option.getD_none]
    omega
  | some size =>
    obtain rfl := checked_eq_some hsize
    rw [Option.getD_some]
    omega

theorem spans_readRange (hs : draw.Takes s) (hk : k < extent) (hp : streamOffset + s * stride + k < u32Max) :
    ∃ range, draw.readRange streamOffset stride = some range ∧
      Spans range extent stride (streamOffset + s * stride + k) := by
  cases draw with
  | nonindexed startVertex vertexCount => exact spans_nonindexed hs hk
  | indexed baseVertex indices => exact spans_indexed hs
  | instanced instances step rate => exact ⟨_, rfl, spans_instanced hs hk hp⟩

theorem takes_of_readRange_none (h : draw.readRange streamOffset stride = none) (s : ℕ) : ¬ draw.Takes s := by
  intro hs
  cases draw with
  | nonindexed startVertex vertexCount =>
    obtain ⟨range, hrange, -⟩ := spans_nonindexed hs one_pos
    exact absurd (hrange.symm.trans h) nofun
  | indexed baseVertex indices =>
    obtain ⟨range, hrange, -⟩ : ∃ range, _ ∧ Spans range 1 stride (streamOffset + s * stride + 0) := spans_indexed hs
    exact absurd (hrange.symm.trans h) nofun
  | instanced instances step rate => cases h

/-- The recorded range never under-covers a draw, whatever was marked before. -/
theorem recorded_range_covers (draw : StreamDraw) (streamOffset stride : ℕ) :
    (draw.readRange streamOffset stride = none → ∀ s, ¬ draw.Takes s) ∧
    ∀ offset size, draw.readRange streamOffset stride = some (offset, size) →
      ∀ (marked : DirtyRange) (extent logicalLen s k : ℕ), logicalLen ≤ u32Max → draw.Takes s → k < extent →
        streamOffset + s * stride + k < logicalLen →
        (marked.conjoin offset (crossingReadSize size extent stride) logicalLen).Contains
          (streamOffset + s * stride + k) := by
  refine ⟨takes_of_readRange_none, fun offset size hrange marked extent logicalLen s k hlen hs hk hp ↦ ?_⟩
  obtain ⟨range, hread, hstart, hend⟩ := spans_readRange hs hk (show streamOffset + s * stride + k < u32Max by omega)
  obtain rfl : range = (offset, size) := Option.some.inj (hread.symm.trans hrange)
  exact contains_conjoin (inWindow_crossing hlen hstart hend hp) marked

end StreamDraw

end Mtld3d
