import Mtld3d.DrawRecord

namespace Mtld3d

open List Lib

inductive FanSource
  | sequential (startVertex : ℕ)
  | indexed (src : List UInt8) (indexSize : ℕ) (baseVertex : ℤ)

namespace FanSource

def narrowVertex (vertex : ℤ) : Option ℕ := if 0 ≤ vertex ∧ vertex < 2 ^ 32 then some vertex.toNat else none

def vertex : FanSource → ℕ → Option ℕ
  | sequential startVertex, k => if k < 2 ^ 32 ∧ startVertex + k < 2 ^ 32 then some (startVertex + k) else none
  | indexed src indexSize baseVertex, k =>
    if k * indexSize + indexSize ≤ src.length then
      let raw := (src.drop (k * indexSize)).take indexSize
      if indexSize = 2 ∨ indexSize = 4 then narrowVertex (ofLe raw + baseVertex) else none
    else none

def span (source : FanSource) : ℕ → Option (ℕ × ℕ)
  | 0 => some (2 ^ 32 - 1, 0)
  | k + 1 => do
    let (low, high) ← span source k
    let vertex ← source.vertex k
    some (min low vertex, max high vertex)

end FanSource

open FanSource

def IndexType.stride : IndexType → ℕ
  | uint16 => 2
  | uint32 => 4

structure FanRewrite where
  source : FanSource
  primitiveCount : ℕ
  indexCount : ℕ
  indexType : IndexType
  minVertex : ℕ
  maxVertex : ℕ

namespace FanRewrite

def new (source : FanSource) (primitiveCount : ℕ) : Option FanRewrite :=
  if primitiveCount + 2 < 2 ^ 32 then
    if 3 * primitiveCount < 2 ^ 32 then do
      let (low, high) ← source.span (primitiveCount + 2)
      some ⟨source, primitiveCount, 3 * primitiveCount, if 65535 < high then .uint32 else .uint16, low, high⟩
    else none
  else none

/-- Bytes of the whole list, in a `usize` of `width` bits. -/
def byteLen (width : ℕ) (f : FanRewrite) : ℕ := f.indexCount * f.indexType.stride % 2 ^ width

def putFanIndex (vertex : ℕ) : IndexType → Option (List UInt8)
  | .uint16 => if vertex < 2 ^ 16 then some (toLe 2 vertex) else none
  | .uint32 => some (toLe 4 vertex)

def writeTriangles (f : FanRewrite) (first : ℕ) : ℕ → ℕ → ℕ → Option (List UInt8)
  | 0, _, _ => some []
  | count + 1, i, prev => do
    let next ← f.source.vertex (i + 2)
    let a ← putFanIndex first f.indexType
    let b ← putFanIndex prev f.indexType
    let c ← putFanIndex next f.indexType
    let rest ← writeTriangles f first count (i + 1) next
    some (a ++ b ++ c ++ rest)

def write (f : FanRewrite) (out : List UInt8) : Option (List UInt8) := do
  let first ← f.source.vertex 0
  let prev ← f.source.vertex 1
  let bytes ← f.writeTriangles first (min (out.length / (f.indexType.stride * 3)) f.primitiveCount) 0 prev
  some (bytes ++ out.drop bytes.length)

end FanRewrite

def decodeIndices (stride count : ℕ) (bytes : List UInt8) : List ℕ :=
  (List.range count).map fun k ↦ ofLe ((bytes.drop (k * stride)).take stride)

theorem decodeIndices_flatMap {stride : ℕ} {indices : List ℕ} (h : ∀ v ∈ indices, v < 256 ^ stride) :
    decodeIndices stride indices.length (indices.flatMap (toLe stride)) = indices := by
  induction indices with
  | nil => rfl
  | cons v indices ih =>
    have hv := h v mem_cons_self
    have hrest := ih fun w hw ↦ h w (mem_cons_of_mem v hw)
    rw [decodeIndices] at hrest ⊢
    rw [length_cons, range_succ_eq_map, map_cons, map_map, flatMap_cons]
    congr 1
    · rw [zero_mul, drop_zero, take_left' (length_toLe stride v), ofLe_toLe hv]
    · refine (map_congr_left fun k _ ↦ ?_).trans hrest
      have hdrop : (k + 1) * stride = (toLe stride v).length + k * stride := by
        rw [length_toLe]
        ring
      rw [Function.comp_apply, Nat.succ_eq_add_one, hdrop, ← drop_drop, drop_left]

namespace FanSource

variable {source : FanSource} {k n low high v : ℕ}

def position : FanSource → ℕ → ℤ
  | sequential startVertex, k => startVertex + k
  | indexed src indexSize baseVertex, k => ofLe ((src.drop (k * indexSize)).take indexSize) + baseVertex

def InSource : FanSource → ℕ → Prop
  | sequential _, _ => True
  | indexed src indexSize _, k => k * indexSize + indexSize ≤ src.length

def KnownSize : FanSource → Prop
  | sequential _ => True
  | indexed _ indexSize _ => indexSize = 2 ∨ indexSize = 4

def InRange (vertex : ℤ) : Prop := 0 ≤ vertex ∧ vertex < 2 ^ 32

theorem vertex_eq_some (hk : k < 2 ^ 32) : source.vertex k = some v ↔
    source.KnownSize ∧ source.InSource k ∧ InRange (source.position k) ∧ source.position k = v := by
  cases source with
  | sequential startVertex =>
    simp only [vertex, KnownSize, InSource, InRange, position, Option.ite_none_right_eq_some, Option.some.injEq,
      true_and]
    omega
  | indexed src indexSize baseVertex =>
    simp only [vertex, narrowVertex, KnownSize, InSource, InRange, position, Option.ite_none_right_eq_some,
      Option.some.injEq]
    constructor
    · rintro ⟨hin, hsize, hrange, rfl⟩
      exact ⟨hsize, hin, hrange, by omega⟩
    · rintro ⟨hsize, hin, hrange, hv⟩
      exact ⟨hin, hsize, hrange, by omega⟩

theorem span_eq_none : source.span n = none ↔ ∃ k < n, source.vertex k = none := by
  induction n with
  | zero => simp [span]
  | succ n ih =>
    rw [span]
    cases hspan : source.span n with
    | none =>
      obtain ⟨k, hk, hnone⟩ := ih.1 hspan
      exact ⟨fun _ ↦ ⟨k, by omega, hnone⟩, fun _ ↦ rfl⟩
    | some bounds =>
      have hsome : ∀ k < n, source.vertex k ≠ none := by
        intro k hk hnone
        rw [ih.2 ⟨k, hk, hnone⟩] at hspan
        cases hspan
      cases hv : source.vertex n with
      | none => exact ⟨fun _ ↦ ⟨n, by omega, hv⟩, fun _ ↦ rfl⟩
      | some v =>
        constructor
        · intro h
          cases h
        · rintro ⟨k, hk, hnone⟩
          obtain hlt | rfl := Nat.lt_succ_iff_lt_or_eq.1 hk
          · exact absurd hnone (hsome k hlt)
          · rw [hv] at hnone
            cases hnone

theorem vertex_lt (h : source.vertex k = some v) : v < 2 ^ 32 := by
  cases source with
  | sequential startVertex =>
    simp only [vertex, Option.ite_none_right_eq_some, Option.some.injEq] at h
    omega
  | indexed src indexSize baseVertex =>
    simp only [vertex, narrowVertex, Option.ite_none_right_eq_some, Option.some.injEq] at h
    omega

theorem span_spec (h : source.span n = some (low, high)) :
    (∀ k < n, ∃ v, source.vertex k = some v ∧ low ≤ v ∧ v ≤ high) ∧
      (0 < n → (∃ k < n, source.vertex k = some low) ∧ ∃ k < n, source.vertex k = some high) := by
  induction n generalizing low high with
  | zero => exact ⟨fun k hk ↦ absurd hk (Nat.not_lt_zero k), fun hn ↦ absurd hn (lt_irrefl 0)⟩
  | succ n ih =>
    rw [span] at h
    cases hspan : source.span n with
    | none => rw [hspan] at h; cases h
    | some bounds =>
      obtain ⟨lo, hi⟩ := bounds
      cases hv : source.vertex n with
      | none => simp [hspan, hv] at h
      | some v =>
        have hbounds : min lo v = low ∧ max hi v = high := by simpa [hspan, hv] using h
        obtain ⟨rfl, rfl⟩ := hbounds
        obtain ⟨hall, hends⟩ := ih hspan
        refine ⟨fun k hk ↦ ?_, fun _ ↦ ?_⟩
        · obtain hlt | rfl := Nat.lt_succ_iff_lt_or_eq.1 hk
          · obtain ⟨u, hu, hlow, hhigh⟩ := hall k hlt
            exact ⟨u, hu, by omega, by omega⟩
          · exact ⟨v, hv, by omega, by omega⟩
        · have hbound := vertex_lt hv
          by_cases hn : 0 < n
          · obtain ⟨⟨i, hlt, hlow⟩, j, hlt', hhigh⟩ := hends hn
            constructor
            · obtain hmin | hmin := min_choice lo v
              · exact ⟨i, by omega, by rw [hmin, hlow]⟩
              · exact ⟨n, by omega, by rw [hmin, hv]⟩
            · obtain hmax | hmax := max_choice hi v
              · exact ⟨j, by omega, by rw [hmax, hhigh]⟩
              · exact ⟨n, by omega, by rw [hmax, hv]⟩
          · obtain rfl : n = 0 := by omega
            cases hspan
            have hmin : min (2 ^ 32 - 1) v = v := by omega
            have hmax : max 0 v = v := by omega
            exact ⟨⟨0, by omega, by rw [hmin, hv]⟩, 0, by omega, by rw [hmax, hv]⟩

end FanSource

namespace FanRewrite

variable {f : FanRewrite} {source : FanSource} {count : ℕ}

theorem new_eq_some (h : new source count = some f) :
    f.source = source ∧ f.primitiveCount = count ∧ f.indexCount = 3 * count ∧ 3 * count < 2 ^ 32 ∧
      source.span (count + 2) = some (f.minVertex, f.maxVertex) ∧
      f.indexType = if 65535 < f.maxVertex then .uint32 else .uint16 := by
  rw [new] at h
  split at h
  · split at h
    · rename_i hthree
      cases hspan : source.span (count + 2) with
      | none => rw [hspan] at h; cases h
      | some bounds =>
        rw [hspan] at h
        cases h
        exact ⟨rfl, rfl, rfl, hthree, rfl, rfl⟩
    · cases h
  · cases h

theorem putFanIndex_eq (htype : f.indexType = if 65535 < f.maxVertex then .uint32 else .uint16) {v : ℕ}
    (hv : v ≤ f.maxVertex) : putFanIndex v f.indexType = some (toLe f.indexType.stride v) := by
  rw [htype]
  split
  · rfl
  · have hfit : v < 2 ^ 16 := by omega
    exact if_pos hfit

def triangles (vertices : ℕ → ℕ) (i count : ℕ) : List ℕ :=
  (List.range count).flatMap fun j ↦ [vertices 0, vertices (i + j + 1), vertices (i + j + 2)]

theorem triangles_succ (vertices : ℕ → ℕ) (i count : ℕ) : triangles vertices i (count + 1) =
      [vertices 0, vertices (i + 1), vertices (i + 2)] ++ triangles vertices (i + 1) count := by
  rw [triangles, range_succ_eq_map, flatMap_cons, triangles, flatMap_map]
  congr 1
  refine flatMap_congr fun j _ ↦ ?_
  rw [show i + j.succ + 1 = i + 1 + j + 1 by omega, show i + j.succ + 2 = i + 1 + j + 2 by omega]

theorem length_triangles (vertices : ℕ → ℕ) (i count : ℕ) : (triangles vertices i count).length = 3 * count := by
  simp [triangles, mul_comm]

theorem writeTriangles_eq {vertices : ℕ → ℕ} {n i : ℕ}
    (hput : ∀ k < i + n + 2, f.source.vertex k = some (vertices k) ∧
      putFanIndex (vertices k) f.indexType = some (toLe f.indexType.stride (vertices k))) :
    f.writeTriangles (vertices 0) n i (vertices (i + 1)) =
      some ((triangles vertices i n).flatMap (toLe f.indexType.stride)) := by
  induction n generalizing i with
  | zero => rfl
  | succ n ih =>
    have hrest := ih (i := i + 1) fun k hk ↦ hput k (by omega)
    rw [writeTriangles, (hput (i + 2) (by omega)).1, (hput 0 (by omega)).2, (hput (i + 1) (by omega)).2,
      triangles_succ]
    simp only [Option.bind_eq_bind, Option.bind_some, (hput (i + 2) (by omega)).2]
    rw [show i + 1 + 1 = i + 2 by omega] at hrest
    rw [hrest]
    simp

def Fills (width : ℕ) (f : FanRewrite) : Prop :=
  ∀ out : List UInt8, out.length = f.byteLen width → ∃ bytes, f.write out = some bytes ∧
    bytes.length = f.indexCount * f.indexType.stride ∧
    (decodeIndices f.indexType.stride f.indexCount bytes).map (fun v : ℕ ↦ (v : ℤ)) =
      (List.range f.primitiveCount).flatMap fun i ↦
        [f.source.position 0, f.source.position (i + 1), f.source.position (i + 2)]

theorem stride_pos (type : IndexType) : 0 < type.stride := by
  cases type <;> decide

theorem vertex_of_new (h : new source count = some f) {k : ℕ} (hk : k < count + 2) :
    source.vertex k = some (source.position k).toNat ∧ (source.position k).toNat ≤ f.maxVertex ∧
      ((source.position k).toNat : ℤ) = source.position k := by
  obtain ⟨-, -, -, hthree, hspan, -⟩ := new_eq_some h
  obtain ⟨v, hv, -, hhigh⟩ := (span_spec hspan).1 k hk
  obtain ⟨-, -, hrange, hpos⟩ := (vertex_eq_some (by omega)).1 hv
  rw [hpos, Int.toNat_natCast]
  exact ⟨hv, hhigh, rfl⟩

def triangleBytes (f : FanRewrite) (source : FanSource) (n : ℕ) : List UInt8 :=
  (triangles (fun k ↦ (source.position k).toNat) 0 n).flatMap (toLe f.indexType.stride)

theorem length_triangleBytes (n : ℕ) : (f.triangleBytes source n).length = 3 * n * f.indexType.stride := by
  rw [triangleBytes, length_flatMap, ← length_triangles (fun k ↦ (source.position k).toNat) 0 n]
  simp

theorem write_eq (h : new source count = some f) (out : List UInt8) : f.write out =
      some (f.triangleBytes source (min (out.length / (f.indexType.stride * 3)) count) ++
        out.drop (f.triangleBytes source (min (out.length / (f.indexType.stride * 3)) count)).length) := by
  obtain ⟨hsource, hcount, -, -, -, htype⟩ := new_eq_some h
  have hput : ∀ k < 0 + min (out.length / (f.indexType.stride * 3)) count + 2,
      f.source.vertex k = some (source.position k).toNat ∧
        putFanIndex (source.position k).toNat f.indexType =
          some (toLe f.indexType.stride (source.position k).toNat) := by
    intro k hk
    obtain ⟨hv, hle, -⟩ := vertex_of_new h (k := k) (by omega)
    exact ⟨hsource ▸ hv, putFanIndex_eq htype hle⟩
  rw [write, (hput 0 (Nat.lt_add_left _ Nat.two_pos)).1, (hput 1 (Nat.lt_add_left _ Nat.one_lt_two)).1]
  simp only [Option.bind_eq_bind, Option.bind_some, hcount]
  rw [writeTriangles_eq hput, Option.bind_some, triangleBytes]

theorem length_write (h : new source count = some f) {out bytes : List UInt8} (hwrite : f.write out = some bytes) :
    bytes.length = out.length := by
  rw [write_eq h] at hwrite
  cases hwrite
  have hfit : 3 * min (out.length / (f.indexType.stride * 3)) count * f.indexType.stride ≤ out.length :=
    calc 3 * min (out.length / (f.indexType.stride * 3)) count * f.indexType.stride
        = min (out.length / (f.indexType.stride * 3)) count * (f.indexType.stride * 3) := by ring
      _ ≤ out.length / (f.indexType.stride * 3) * (f.indexType.stride * 3) :=
        Nat.mul_le_mul_right _ (min_le_left _ _)
      _ ≤ out.length := Nat.div_mul_le_self _ _
  rw [length_append, length_drop, length_triangleBytes]
  omega

theorem write_of_length (h : new source count = some f) {out : List UInt8}
    (hlen : out.length = f.indexCount * f.indexType.stride) : f.write out = some (f.triangleBytes source count) := by
  obtain ⟨-, -, hindex, -⟩ := new_eq_some h
  have hall : min (out.length / (f.indexType.stride * 3)) count = count := by
    rw [hlen, hindex, show 3 * count * f.indexType.stride = count * (f.indexType.stride * 3) by ring,
      Nat.mul_div_cancel _ (by have := stride_pos f.indexType; omega), min_self]
  rw [write_eq h, hall, length_triangleBytes, ← hindex, ← hlen, drop_length, append_nil]

theorem index_lt (h : new source count = some f) {k : ℕ} (hk : k < count + 2) :
    (source.position k).toNat < 256 ^ f.indexType.stride := by
  obtain ⟨-, -, -, -, -, htype⟩ := new_eq_some h
  obtain ⟨hv, hle, -⟩ := vertex_of_new h hk
  have hlt := vertex_lt hv
  rw [htype]
  split
  · simpa [IndexType.stride] using hlt
  · simp only [IndexType.stride]
    omega

theorem mem_triangles {vertices : ℕ → ℕ} {v : ℕ} (h : v ∈ triangles vertices 0 count) :
    ∃ k < count + 2, v = vertices k := by
  obtain ⟨j, hj, hv⟩ := mem_flatMap.1 h
  rw [mem_range] at hj
  simp only [mem_cons, not_mem_nil, or_false, zero_add] at hv
  obtain rfl | rfl | rfl := hv
  · exact ⟨0, by omega, rfl⟩
  · exact ⟨j + 1, by omega, rfl⟩
  · exact ⟨j + 2, by omega, rfl⟩

theorem decode_triangleBytes (h : new source count = some f) :
    (decodeIndices f.indexType.stride f.indexCount (f.triangleBytes source count)).map (fun v : ℕ ↦ (v : ℤ)) =
      (List.range count).flatMap fun i ↦ [source.position 0, source.position (i + 1), source.position (i + 2)] := by
  obtain ⟨-, -, hindex, -⟩ := new_eq_some h
  have hbound : ∀ v ∈ triangles (fun k ↦ (source.position k).toNat) 0 count, v < 256 ^ f.indexType.stride := by
    intro v hv
    obtain ⟨k, hk, rfl⟩ := mem_triangles hv
    exact index_lt h hk
  have hdecode := decodeIndices_flatMap hbound
  rw [length_triangles] at hdecode
  rw [hindex, triangleBytes, hdecode, triangles, map_flatMap]
  refine flatMap_congr fun i hi ↦ ?_
  rw [mem_range] at hi
  simp only [map_cons, map_nil, zero_add]
  rw [(vertex_of_new h (k := 0) (by omega)).2.2, (vertex_of_new h (k := i + 1) (by omega)).2.2,
    (vertex_of_new h (k := i + 2) (by omega)).2.2]

theorem fills_iff (h : new source count = some f) (width : ℕ) :
    f.Fills width ↔ f.indexCount * f.indexType.stride < 2 ^ width := by
  obtain ⟨hsource, hcount, hindex, -⟩ := new_eq_some h
  constructor
  · intro hfills
    obtain ⟨bytes, hwrite, hlen, -⟩ := hfills (List.replicate (f.byteLen width) 0) length_replicate
    rw [← hlen, length_write h hwrite, length_replicate, byteLen]
    exact Nat.mod_lt _ (Nat.two_pow_pos width)
  · intro hfit out hout
    rw [byteLen, Nat.mod_eq_of_lt hfit] at hout
    refine ⟨_, write_of_length h hout, ?_, ?_⟩
    · rw [length_triangleBytes, hindex]
    · rw [decode_triangleBytes h, hcount, hsource]

theorem fills_wide (h : new source count = some f) : f.Fills 64 := by
  obtain ⟨-, -, hindex, hthree, -⟩ := new_eq_some h
  rw [fills_iff h]
  have hstride : f.indexType.stride ≤ 4 := by cases f.indexType <;> decide
  calc f.indexCount * f.indexType.stride ≤ 2 ^ 32 * 4 := Nat.mul_le_mul (by omega) hstride
    _ < 2 ^ 64 := by decide

theorem new_eq_none : new source count = none ↔ ¬ source.KnownSize ∨ (∃ k < count + 2, ¬ source.InSource k) ∨
      (∃ k < count + 2, ¬ FanSource.InRange (source.position k)) ∨ 2 ^ 32 ≤ 3 * count := by
  by_cases hthree : 3 * count < 2 ^ 32
  · have hspan : new source count = none ↔ ∃ k < count + 2, source.vertex k = none := by
      rw [new, if_pos (by omega), if_pos hthree, ← span_eq_none]
      cases source.span (count + 2) <;> simp
    rw [hspan]
    constructor
    · rintro ⟨k, hk, hnone⟩
      by_contra hall
      simp only [not_or, not_exists, not_and, not_not] at hall
      obtain ⟨hsize, hin, hrange, -⟩ := hall
      have hnat : source.position k = (source.position k).toNat := (Int.toNat_of_nonneg (hrange k hk).1).symm
      rw [(vertex_eq_some (by omega)).2 ⟨hsize, hin k hk, hrange k hk, hnat⟩] at hnone
      cases hnone
    · intro hbad
      by_contra hall
      have hgood : ∀ k < count + 2, source.KnownSize ∧ source.InSource k ∧ FanSource.InRange (source.position k) := by
        intro k hk
        obtain ⟨v, hv⟩ := Option.ne_none_iff_exists'.1 fun hnone ↦ hall ⟨k, hk, hnone⟩
        obtain ⟨hsize, hin, hrange, -⟩ := (vertex_eq_some (by omega)).1 hv
        exact ⟨hsize, hin, hrange⟩
      obtain hsize | ⟨k, hk, hin⟩ | ⟨k, hk, hrange⟩ | hover := hbad
      · exact hsize (hgood 0 (by omega)).1
      · exact hin (hgood k hk).2.1
      · exact hrange (hgood k hk).2.2
      · omega
  · refine ⟨fun _ ↦ .inr (.inr (.inr (by omega))), fun _ ↦ ?_⟩
    rw [new, if_neg hthree, ite_self]

/-- A fan is declined for a size, an index, a vertex or a count out of range; otherwise the list is the fan's
triangles, filled whenever the byte count of the list fits a `usize`. -/
theorem fan_rewrite_draws_fan (width : ℕ) (source : FanSource) (count : ℕ) :
    (new source count = none ↔
      ¬ source.KnownSize ∨ (∃ k < count + 2, ¬ source.InSource k) ∨
        (∃ k < count + 2, ¬ FanSource.InRange (source.position k)) ∨ 2 ^ 32 ≤ 3 * count) ∧
    (∀ f, new source count = some f →
      f.source = source ∧ f.primitiveCount = count ∧ f.indexCount = 3 * count ∧
      (∀ k < count + 2, (f.minVertex : ℤ) ≤ source.position k ∧ source.position k ≤ f.maxVertex) ∧
      (∃ k < count + 2, source.position k = f.minVertex) ∧ (∃ k < count + 2, source.position k = f.maxVertex) ∧
      f.indexType = (if 65535 < f.maxVertex then .uint32 else .uint16) ∧
      (f.Fills width ↔ f.indexCount * f.indexType.stride < 2 ^ width) ∧ f.Fills 64) := by
  refine ⟨new_eq_none, fun f h ↦ ?_⟩
  obtain ⟨hsource, hcount, hindex, hthree, hspan, htype⟩ := new_eq_some h
  obtain ⟨hall, hends⟩ := span_spec hspan
  obtain ⟨⟨i, hi, hlow⟩, j, hj, hhigh⟩ := hends (by omega)
  refine ⟨hsource, hcount, hindex, fun k hk ↦ ?_, ⟨i, hi, ?_⟩, ⟨j, hj, ?_⟩, htype, fills_iff h width, fills_wide h⟩
  · obtain ⟨v, hv, hlow, hhigh⟩ := hall k hk
    rw [((vertex_eq_some (by omega)).1 hv).2.2.2]
    omega
  · exact ((vertex_eq_some (by omega)).1 hlow).2.2.2
  · exact ((vertex_eq_some (by omega)).1 hhigh).2.2.2

/-- With a 32-bit `usize` the bytes of a long accepted fan are counted short. -/
theorem fan_byte_len_wraps : ∃ f, new (.sequential 0) 357913942 = some f ∧ ¬ f.Fills 32 := by
  have hsome : new (.sequential 0) 357913942 ≠ none := by
    intro hnone
    obtain hsize | ⟨k, -, hin⟩ | ⟨k, hk, hrange⟩ | hover := new_eq_none.1 hnone
    · exact hsize trivial
    · exact hin trivial
    · refine hrange ?_
      rw [FanSource.InRange, position]
      omega
    · omega
  obtain ⟨f, h⟩ := Option.ne_none_iff_exists'.1 hsome
  obtain ⟨-, -, hindex, -, hspan, htype⟩ := new_eq_some h
  have hwide : 65535 < f.maxVertex := by
    have hlast := (vertex_of_new h (k := 357913943) (by omega)).2.1
    rw [position] at hlast
    omega
  refine ⟨f, h, fun hfills ↦ ?_⟩
  rw [fills_iff h, hindex, htype, if_pos hwide, IndexType.stride] at hfills
  omega

end FanRewrite

end Mtld3d
