import Mtld3d.DrawRecord
import Mtld3d.Lib.Run

namespace Mtld3d

open List Lib BoundVertices Mtld3d.ByteSlice

theorem put_ok {bytes record : List UInt8} {k : ℕ} (h : k + record.length ≤ bytes.length) :
    put (bytes, k) record =
      .ok (bytes.take k ++ (record ++ bytes.drop (k + record.length)), k + record.length) :=
  if_pos h

theorem foldlM_put {records : List (List UInt8)} (done : List UInt8) {bytes : List UInt8}
    (h : records.flatten.length ≤ bytes.length) : records.foldlM put (done ++ bytes, done.length) =
      .ok (done ++ (records.flatten ++ bytes.drop records.flatten.length),
        done.length + records.flatten.length) := by
  induction records generalizing done bytes with
  | nil => simp [pure, Except.pure]
  | cons record records ih =>
    rw [flatten_cons, length_append] at h ⊢
    have hput : put (done ++ bytes, done.length) record =
        .ok ((done ++ record) ++ bytes.drop record.length, (done ++ record).length) := by
      rw [put_ok (by rw [length_append]; omega), take_left, length_append, drop_append]
      simp
    rw [foldlM_cons, hput]
    refine (ih (done ++ record) (by rw [length_drop]; omega)).trans ?_
    rw [drop_drop, length_append]
    simp [add_assoc]

theorem putAll_exact {destination : List UInt8} {records : List (List UInt8)}
    (h : records.flatten.length = destination.length) : putAll destination records = .ok records.flatten := by
  have hfold := foldlM_put [] (le_of_eq h)
  simp only [nil_append, length_nil, zero_add] at hfold
  rw [putAll, hfold]
  simp [bind, Except.bind, finishPayload, h]

theorem DrawPrefix.length_bytes (p : DrawPrefix) : p.bytes.length = recordSize := by simp [bytes, recordSize]

theorem StreamRecord.length_bytes (r : StreamRecord) : r.bytes.length = recordSize := by simp [bytes, recordSize]

theorem VertexBytes.length_bytes (r : VertexBytes) : r.bytes.length = recordSize := by simp [bytes, recordSize]

theorem IndexBuffer.length_bytes (r : IndexBuffer) : r.bytes.length = recordSize := by simp [bytes, recordSize]

theorem IndexBytes.length_bytes (r : IndexBytes) : r.bytes.length = recordSize := by simp [bytes, recordSize]

section Reads

variable {rest : List UInt8}

theorem DrawPrefix.reads (p : DrawPrefix) : Reads read p.bytes p rest := by
  rw [bytes, ← append_nil (le32 p.count)]
  exact .bind (.u8 _) <| .bind (.u8 _) <| .bind (.u8 _) <| .bind (.u8 _) <| .bind (.u32 _) <|
    .bind (.u32 _) <| .bind (.u32 _) .pure

theorem StreamRecord.reads (r : StreamRecord) : Reads read r.bytes r rest := by
  rw [bytes, ← append_nil (List.replicate 3 0)]
  exact .bind (.u64 _) <| .bind (.u64 _) <| .bind (.u64 _) <| .bind (.u64 _) <| .bind (.u32 _) <|
    .bind (.u32 _) <| .bind (.u32 _) <| .bind (.u8 _) <| .bind (.take rfl) .pure

theorem VertexBytes.reads (r : VertexBytes) : Reads read r.bytes r rest := by
  rw [bytes, ← append_nil (le32 r.size)]
  exact .bind (.u64 _) <| .bind (.u32 _) <| .bind (.u32 _) .pure

theorem IndexBuffer.reads (r : IndexBuffer) : Reads read r.bytes r rest := by
  rw [bytes, ← append_nil (List.replicate 3 0)]
  exact .bind (.u64 _) <| .bind (.u64 _) <| .bind (.u64 _) <| .bind (.u64 _) <| .bind (.u32 _) <|
    .bind (.u8 _) <| .bind (.take rfl) .pure

theorem IndexBytes.reads (r : IndexBytes) : Reads read r.bytes r rest := by
  rw [bytes, ← append_nil (List.replicate 7 0)]
  exact .bind (.u64 _) <| .bind (.u32 _) <| .bind (.u32 _) <| .bind (.u8 _) <| .bind (.take rfl) .pure

end Reads

theorem PrimitiveType.fromRepr_repr (p : PrimitiveType) : fromRepr p.repr = some p := by
  cases p <;> rfl

theorem IndexType.fromRepr_repr (t : IndexType) : fromRepr t.repr = some t := by
  cases t <;> rfl

namespace ByteSlice

variable {α : Type} {read : Reader α} {a : α} {front back : List UInt8} {address n : ℕ}

theorem splitAtChecked_append (h : front.length = n) :
    splitAtChecked ⟨address, front ++ back⟩ n = .ok (⟨address, front⟩, ⟨address + n, back⟩) := by
  subst h
  rw [splitAtChecked, if_pos (by simp), take_left, drop_left]

theorem fixedRef_reads (hlen : front.length = n) (haligned : 8 ∣ address) (hread : Reads read front a []) :
    fixedRef read n ⟨address, front⟩ = .ok a := by
  rw [fixedRef, if_neg (by simp [hlen, haligned]), hread.value]
  rfl

theorem fixedRecords_reads {encode : α → List UInt8} {items : List α} (hlen : ∀ a, (encode a).length = n)
    (hread : ∀ a rest, Reads read (encode a) a rest) (haligned : 8 ∣ address) :
    fixedRecords read n ⟨address, items.flatMap encode ++ back⟩ items.length =
      .ok (items, ⟨address + items.length * n, back⟩) := by
  have hsize : (items.flatMap encode).length = items.length * n := by
    simp [length_flatMap, hlen]
  have htimes : (read.times items.length).value (items.flatMap encode) = some items :=
    (Reads.times fun a _ rest ↦ hread a rest).value
  rw [fixedRecords, splitAtChecked_append hsize]
  simp [bind, Except.bind, pure, Except.pure, haligned, htimes]

end ByteSlice

namespace DrawOp

def vertexViewOf : VertexSource → VertexView
  | .up bytes size stride => .up ⟨bytes.address, bytes.length, size⟩ stride
  | .bound first extra stream0Freq => .bound ((first :: extra).map StreamRecord.fromBinding) stream0Freq

def indexViewOf : IndexSource → IndexView
  | .none startVertex vertexCount => .none startVertex vertexCount
  | .bound bufferId backingPtr backingLen backingGeneration offset indexCount indexType baseVertex =>
    .bound ⟨bufferId, backingPtr, backingLen, backingGeneration, offset, indexType.repr⟩ indexCount baseVertex
  | .fan startVertex primitiveCount => .fan startVertex primitiveCount
  | .generated data indexCount indexType minVertex maxVertex =>
    .generated ⟨data.address, data.length, maxVertex, indexType.repr⟩ indexCount minVertex
  | .up bytes indexCount indexType => .up ⟨bytes.address, bytes.length, 0, indexType.repr⟩ indexCount

def view (draw : DrawOp) : DrawView :=
  ⟨draw.metalPrim, vertexViewOf draw.vertexSource, indexViewOf draw.indexSource⟩

def Streams (draw : DrawOp) : Prop :=
  match draw.vertexSource with
  | .up .. => True
  | .bound _ extra _ => extra.length ≤ 15

theorem flatten_streams (streams : List StreamBinding) :
    (streams.map fun b ↦ (StreamRecord.fromBinding b).bytes).flatten =
      (streams.map StreamRecord.fromBinding).flatMap StreamRecord.bytes := by
  rw [flatMap_def, map_map]
  rfl

theorem length_vertexRecords (v : VertexSource) : (vertexRecords v).flatten.length = vertexBytes v := by
  cases v with
  | up bytes size stride =>
    simp [vertexRecords, vertexBytes, VertexBytes.length_bytes, VertexBytes.recordSize]
  | bound first extra freq =>
    have hsum : ∀ records : List StreamRecord, (records.flatMap StreamRecord.bytes).length = records.length * 48 :=
      fun records ↦ by simp [length_flatMap, StreamRecord.length_bytes, StreamRecord.recordSize]
    rw [vertexRecords, flatten_streams, hsum, length_map, length_cons, vertexBytes, add_comm]

theorem length_indexRecords (i : IndexSource) : (indexRecords i).flatten.length = indexBytes i := by
  cases i <;> simp [indexRecords, indexBytes, IndexBuffer.length_bytes, IndexBytes.length_bytes,
    IndexBuffer.recordSize, IndexBytes.recordSize]

theorem dvd_vertexBytes (v : VertexSource) : 8 ∣ vertexBytes v := by
  cases v with
  | up bytes size stride => exact ⟨2, rfl⟩
  | bound first extra freq =>
    simp only [vertexBytes]
    omega

theorem vertexView_records {v : VertexSource} {head : DrawPrefix} {address : ℕ} {back : List UInt8}
    (hstreams : ∀ first extra freq, v = .bound first extra freq → extra.length ≤ 15)
    (hhead : vertexHeader v = .ok (head.vertexKind, head.streamCount, head.strideOrFrequency))
    (haligned : 8 ∣ address) : DrawView.vertexView head ⟨address, (vertexRecords v).flatten ++ back⟩ =
      .ok (vertexViewOf v, ⟨address + vertexBytes v, back⟩) := by
  cases v with
  | up bytes size stride =>
    simp only [vertexHeader, Except.ok.injEq, Prod.mk.injEq] at hhead
    obtain ⟨hkind, hcount, hstride⟩ := hhead
    have hflat : (vertexRecords (.up bytes size stride)).flatten =
        VertexBytes.bytes ⟨bytes.address, bytes.length, size⟩ := by simp [vertexRecords]
    rw [DrawView.vertexView, if_pos ⟨hkind.symm, hcount.symm⟩, hflat,
      splitAtChecked_append (VertexBytes.length_bytes _)]
    simp only [bind, Except.bind]
    rw [fixedRef_reads (VertexBytes.length_bytes _) haligned (VertexBytes.reads _), ← hstride]
    rfl
  | bound first extra freq =>
    have hle := hstreams first extra freq rfl
    rw [vertexHeader, if_pos (by omega)] at hhead
    simp only [Except.ok.injEq, Prod.mk.injEq] at hhead
    obtain ⟨hkind, hcount, hfreq⟩ := hhead
    have hnat : head.streamCount.toNat = extra.length + 1 := by
      rw [← hcount, UInt8.toNat_ofNat']
      exact Nat.mod_eq_of_lt (by omega)
    have hrange : 1 ≤ head.streamCount ∧ head.streamCount ≤ 16 := by
      rw [UInt8.le_iff_toNat_le, UInt8.le_iff_toNat_le, hnat]
      exact ⟨Nat.le_add_left 1 _, Nat.succ_le_succ hle⟩
    have hrecords : fixedRecords StreamRecord.read StreamRecord.recordSize
        ⟨address, ((first :: extra).map StreamRecord.fromBinding).flatMap StreamRecord.bytes ++ back⟩
          ((first :: extra).map StreamRecord.fromBinding).length = .ok (_, _) :=
      fixedRecords_reads StreamRecord.length_bytes (fun r _ ↦ r.reads) haligned
    rw [length_map, length_cons] at hrecords
    rw [DrawView.vertexView, if_neg (by rw [← hkind]; simp), if_pos ⟨hkind.symm, hrange⟩, hnat, vertexRecords,
      flatten_streams, hrecords, ← hfreq]
    simp [bind, Except.bind, pure, Except.pure, vertexViewOf, vertexBytes, StreamRecord.recordSize, add_comm]

theorem indexView_records {i : IndexSource} {head : DrawPrefix} {address : ℕ}
    (hhead : indexHeader i = (head.indexKind, head.firstOrBase, head.count)) (haligned : 8 ∣ address) :
    DrawView.indexView head ⟨address, (indexRecords i).flatten⟩ = .ok (indexViewOf i) := by
  cases i with
  | none start count =>
    simp only [indexHeader, Prod.mk.injEq] at hhead
    obtain ⟨hkind, hfirst, hcount⟩ := hhead
    rw [DrawView.indexView, if_pos ⟨hkind.symm, rfl⟩, ← hfirst, ← hcount, indexViewOf]
  | bound bufferId backingPtr backingLen backingGeneration offset indexCount indexType baseVertex =>
    simp only [indexHeader, Prod.mk.injEq] at hhead
    obtain ⟨hkind, hfirst, hcount⟩ := hhead
    rw [DrawView.indexView, if_neg (by rw [← hkind]; simp), if_pos hkind.symm, indexRecords, flatten_singleton,
      fixedRef_reads (IndexBuffer.length_bytes _) haligned (IndexBuffer.reads _), ← hfirst, ← hcount]
    simp [bind, Except.bind, pure, Except.pure, IndexBuffer.indexType, IndexType.fromRepr_repr, indexViewOf]
  | fan start count =>
    simp only [indexHeader, Prod.mk.injEq] at hhead
    obtain ⟨hkind, hfirst, hcount⟩ := hhead
    rw [DrawView.indexView, if_neg (by rw [← hkind]; simp), if_neg (by rw [← hkind]; decide),
      if_pos ⟨hkind.symm, rfl⟩, ← hfirst, ← hcount, indexViewOf]
  | generated data indexCount indexType minVertex maxVertex =>
    simp only [indexHeader, Prod.mk.injEq] at hhead
    obtain ⟨hkind, hfirst, hcount⟩ := hhead
    rw [DrawView.indexView, if_neg (by rw [← hkind]; simp), if_neg (by rw [← hkind]; decide),
      if_neg (by rw [← hkind]; simp), if_pos hkind.symm, indexRecords, flatten_singleton,
      fixedRef_reads (IndexBytes.length_bytes _) haligned (IndexBytes.reads _), ← hfirst, ← hcount]
    simp [bind, Except.bind, pure, Except.pure, IndexBytes.indexType, IndexType.fromRepr_repr, indexViewOf]
  | up bytes indexCount indexType =>
    simp only [indexHeader, Prod.mk.injEq] at hhead
    obtain ⟨hkind, hfirst, hcount⟩ := hhead
    rw [DrawView.indexView, if_neg (by rw [← hkind]; simp), if_neg (by rw [← hkind]; decide),
      if_neg (by rw [← hkind]; simp), if_neg (by rw [← hkind]; decide), if_pos hkind.symm, indexRecords,
      flatten_singleton,
      fixedRef_reads (IndexBytes.length_bytes _) haligned (IndexBytes.reads _), ← hcount]
    simp [bind, Except.bind, pure, Except.pure, IndexBytes.indexType, IndexType.fromRepr_repr, indexViewOf]

theorem payloadSize_streams {draw : DrawOp} (h : draw.Streams) :
    draw.payloadSize = .ok (16 + vertexBytes draw.vertexSource + indexBytes draw.indexSource) := by
  obtain ⟨prim, v, i⟩ := draw
  cases v with
  | up bytes size stride => rfl
  | bound first extra freq => exact if_neg (not_lt.2 h)

theorem vertexHeader_streams {draw : DrawOp} (h : draw.Streams) :
    ∃ kind count word, vertexHeader draw.vertexSource = .ok (kind, count, word) := by
  obtain ⟨prim, v, i⟩ := draw
  cases v with
  | up bytes size stride => exact ⟨_, _, _, rfl⟩
  | bound first extra freq =>
    have hle : extra.length ≤ 15 := h
    exact ⟨_, _, _, if_pos (by omega)⟩

theorem writeInto_eq (draw : DrawOp) {kind count : UInt8} {word : UInt32}
    (hhead : vertexHeader draw.vertexSource = .ok (kind, count, word)) {destination : List UInt8}
    (hdest : destination.length = 16 + vertexBytes draw.vertexSource + indexBytes draw.indexSource) :
    draw.writeInto destination destination.length =
      .ok ((⟨draw.metalPrim.repr, kind, (indexHeader draw.indexSource).1, count, word,
        (indexHeader draw.indexSource).2.1, (indexHeader draw.indexSource).2.2⟩ : DrawPrefix).bytes ++
          ((vertexRecords draw.vertexSource).flatten ++ (indexRecords draw.indexSource).flatten)) := by
  simp only [writeInto, hhead, ne_eq, not_true_eq_false, if_false, bind, Except.bind]
  rw [putAll_exact]
  · rw [flatten_cons, flatten_append]
  · rw [flatten_cons, flatten_append, length_append, length_append, length_vertexRecords,
      length_indexRecords, DrawPrefix.length_bytes, hdest, DrawPrefix.recordSize, add_assoc]

theorem payload_round_trip (draw : DrawOp) (hstreams : draw.Streams) (destination : List UInt8)
    (hdest : draw.payloadSize = .ok destination.length) (address : ℕ) (haligned : 8 ∣ address) :
    ∃ payload, draw.writeInto destination destination.length = .ok payload ∧
      payload.length = destination.length ∧ DrawView.new ⟨address, payload⟩ = .ok draw.view := by
  rw [payloadSize_streams hstreams, Except.ok.injEq] at hdest
  obtain ⟨kind, count, word, hhead⟩ := vertexHeader_streams hstreams
  refine ⟨_, writeInto_eq draw hhead hdest.symm, ?_, ?_⟩
  · rw [length_append, length_append, length_vertexRecords, length_indexRecords,
      DrawPrefix.length_bytes, ← hdest, DrawPrefix.recordSize, add_assoc]
  · have hdvd := dvd_vertexBytes draw.vertexSource
    have hbound : ∀ first extra freq, draw.vertexSource = .bound first extra freq → extra.length ≤ 15 := by
      intro first extra freq heq
      rw [Streams, heq] at hstreams
      exact hstreams
    generalize hp : (⟨draw.metalPrim.repr, kind, (indexHeader draw.indexSource).1, count, word,
      (indexHeader draw.indexSource).2.1, (indexHeader draw.indexSource).2.2⟩ : DrawPrefix) = head
    have hprim : head.primitive = draw.metalPrim.repr := by rw [← hp]
    have hvertex : vertexHeader draw.vertexSource =
        .ok (head.vertexKind, head.streamCount, head.strideOrFrequency) := by rw [← hp, hhead]
    have hindex : indexHeader draw.indexSource = (head.indexKind, head.firstOrBase, head.count) := by rw [← hp]
    have hrest : 8 ∣ address + DrawPrefix.recordSize := Nat.dvd_add haligned ⟨2, rfl⟩
    rw [DrawView.new, splitAtChecked_append (DrawPrefix.length_bytes head)]
    simp only [bind, Except.bind]
    rw [fixedRef_reads (DrawPrefix.length_bytes head) haligned head.reads]
    simp only [hprim, PrimitiveType.fromRepr_repr, Option.elim_some, vertexView_records hbound hvertex hrest,
      indexView_records hindex (Nat.dvd_add hrest hdvd)]
    rfl

end DrawOp

def IndexSource.record : IndexSource → Option IndexBuffer
  | .bound bufferId backingPtr backingLen backingGeneration offset _ indexType _ =>
    some ⟨bufferId, backingPtr, backingLen, backingGeneration, offset, indexType.repr⟩
  | _ => .none

def IndexSource.head (prim : PrimitiveType) : IndexSource → Option DrawPrefix
  | .none startVertex vertexCount => some (.nonindexed prim startVertex vertexCount)
  | .bound _ _ _ _ _ indexCount _ baseVertex => some (.indexed prim baseVertex indexCount)
  | _ => .none

section BoundDraws

variable {prim : PrimitiveType} {first : StreamBinding} {extra : List StreamBinding} {freq : UInt32}
  {indices : IndexSource} {head : DrawPrefix} {reserve : ℕ → List UInt8}

theorem head_indexKind (h : indices.head prim = some head) :
    (head.indexKind == 1) = indices.record.isSome := by
  cases indices <;> cases h <;> rfl

theorem head_eq (h : indices.head prim = some head) (count : UInt8) (freq : UInt32) :
    ({ head with streamCount := count, strideOrFrequency := freq } : DrawPrefix) =
      ⟨prim.repr, 1, (DrawOp.indexHeader indices).1, count, freq, (DrawOp.indexHeader indices).2.1,
        (DrawOp.indexHeader indices).2.2⟩ := by
  cases indices <;> cases h <;> rfl

theorem indexRecords_of_head (h : indices.head prim = some head) :
    DrawOp.indexRecords indices = (indices.record.map IndexBuffer.bytes).toList := by
  cases indices <;> cases h <;> rfl

def boundPayload (head : DrawPrefix) (first : StreamBinding) (extra : List StreamBinding) (freq : UInt32)
    (index : Option IndexBuffer) : List UInt8 :=
  ({ head with streamCount := UInt8.ofNat (extra.length + 1), strideOrFrequency := freq } : DrawPrefix).bytes ++
    (((first :: extra).map fun b ↦ (StreamRecord.fromBinding b).bytes).flatten ++
      (index.map IndexBuffer.bytes).toList.flatten)

theorem recordDraw_bound (hreserve : ∀ n, (reserve n).length = n) (h : indices.head prim = some head) :
    recordDraw reserve ⟨prim, .bound first extra freq, indices⟩ =
      if extra.length > 15 then .error (.wire .invalidValue)
      else .ok (boundPayload head first extra freq indices.record) := by
  by_cases hmany : extra.length > 15
  · have hsize : DrawOp.payloadSize ⟨prim, .bound first extra freq, indices⟩ = .error .invalidValue :=
      if_pos hmany
    rw [if_pos hmany, recordDraw, hsize]
  · have hstreams : DrawOp.Streams ⟨prim, .bound first extra freq, indices⟩ := not_lt.1 hmany
    have hhead : DrawOp.vertexHeader (.bound first extra freq) =
        .ok (1, UInt8.ofNat (extra.length + 1), freq) := if_pos (by omega)
    rw [if_neg hmany, recordDraw, DrawOp.payloadSize_streams hstreams]
    have hwrite := DrawOp.writeInto_eq ⟨prim, .bound first extra freq, indices⟩ hhead (hreserve _)
    rw [hreserve] at hwrite
    refine hwrite.trans ?_
    rw [boundPayload, head_eq h, DrawOp.vertexRecords, indexRecords_of_head h]

theorem length_boundPayload (first : StreamBinding) (extra : List StreamBinding) (freq : UInt32)
    (head : DrawPrefix) (index : Option IndexBuffer) : (boundPayload head first extra freq index).length =
      DrawPrefix.recordSize + (1 + extra.length) * StreamRecord.recordSize +
        if index.isSome then IndexBuffer.recordSize else 0 := by
  have hstreams := DrawOp.length_vertexRecords (.bound first extra freq)
  rw [DrawOp.vertexRecords, DrawOp.vertexBytes] at hstreams
  rw [boundPayload, length_append, length_append, hstreams, DrawPrefix.length_bytes, add_assoc]
  cases index with
  | none => rfl
  | some index => simp [IndexBuffer.length_bytes, StreamRecord.recordSize]

theorem putSingle_ok {payload destination : List UInt8} (h : destination.length = payload.length) :
    putSingle (some payload) destination = .ok payload := by
  simp [putSingle, bind, Except.bind, pure, Except.pure, put, h, drop_of_length_le]

/-- The bound-draw writer makes the generic writer's payload, and refuses the draws that one refuses. -/
theorem recordBoundDraw_eq (hreserve : ∀ n, (reserve n).length = n) (h : indices.head prim = some head) :
    recordBoundDraw reserve head ⟨StreamRecord.fromBinding first, extra, freq⟩ indices.record =
      recordDraw reserve ⟨prim, .bound first extra freq, indices⟩ := by
  have hkind := head_indexKind h
  rw [recordDraw_bound hreserve h]
  unfold recordBoundDraw
  have hlen := length_boundPayload first extra freq head indices.record
  cases extra with
  | nil =>
    have hfew : ¬([] : List StreamBinding).length > 15 := by simp
    rw [if_neg hfew]
    cases hrec : indices.record with
    | none =>
      rw [hrec] at hlen hkind
      have hpayload : singleBoundPayload head (StreamRecord.fromBinding first) freq =
          some (boundPayload head first [] freq none) := by
        rw [singleBoundPayload, hkind]
        simp [boundPayload, singleStreamPrefix]
      simp only [isEmpty_nil, if_true, hpayload]
      exact putSingle_ok ((hreserve 64).trans hlen.symm)
    | some index =>
      rw [hrec] at hlen hkind
      have hpayload : singleIndexedBoundPayload head (StreamRecord.fromBinding first) freq index =
          some (boundPayload head first [] freq (some index)) := by
        rw [singleIndexedBoundPayload, bne, hkind]
        simp [boundPayload, singleStreamPrefix]
      simp only [isEmpty_nil, if_true, hpayload]
      exact putSingle_ok ((hreserve 104).trans hlen.symm)
  | cons b extra =>
    simp only [isEmpty_cons, Bool.false_eq_true, if_false]
    by_cases hmany : (b :: extra).length > 15
    · simp only [boundPayloadSize, if_pos hmany]
    · simp only [boundPayloadSize, if_neg hmany, ← hlen]
      have hfit : (b :: extra).length + 1 < 256 := by omega
      rw [writeBoundInto]
      simp only [hreserve, hkind, hfit, not_true_eq_false, ne_eq, or_self, if_false, bind, Except.bind]
      refine (putAll_exact ?_).trans ?_
      · rw [hreserve, flatten_cons, boundPayload, length_append, length_append]
        simp [add_assoc]
      · simp [boundPayload]

theorem tryAppendSingleStream_eq (hreserve : ∀ n, (reserve n).length = n) {draw : SingleStreamDraw}
    (hhead : indices.head prim = some draw.head) (hindex : indices.record = draw.index) {payload : List UInt8}
    (h : tryAppendSingleStream ⟨StreamRecord.fromBinding first, extra, freq⟩ draw = some payload) :
    recordDraw reserve ⟨prim, .bound first extra freq, indices⟩ = .ok payload := by
  cases extra with
  | cons b extra => cases h
  | nil =>
    cases h
    rw [recordDraw_bound hreserve hhead, if_neg (by simp), hindex, SingleStreamDraw.payload, boundPayload]
    cases draw.index <;> simp [singleStreamPrefix]

end BoundDraws

namespace ByteSlice

theorem splitAtChecked_spec {s a b : ByteSlice} {n : ℕ} (h : s.splitAtChecked n = .ok (a, b)) :
    n ≤ s.bytes.length ∧ a.bytes = s.bytes.take n ∧ b.bytes = s.bytes.drop n := by
  rw [splitAtChecked] at h
  split at h
  · next hle =>
    cases h
    exact ⟨hle, rfl, rfl⟩
  · cases h

theorem fixedRef_spec {α : Type} {read : Reader α} {size : ℕ} {s : ByteSlice} {a : α}
    (h : s.fixedRef read size = .ok a) : s.bytes.length = size ∧ read.value s.bytes = some a := by
  rw [fixedRef] at h
  by_cases hbad : s.bytes.length ≠ size ∨ ¬8 ∣ s.address
  · rw [if_pos hbad] at h
    cases h
  · rw [if_neg hbad] at h
    push Not at hbad
    cases hread : read.value s.bytes with
    | none =>
      rw [hread] at h
      cases h
    | some a' =>
      rw [hread] at h
      cases h
      exact ⟨hbad.1, rfl⟩

theorem fixedRecords_length {α : Type} {read : Reader α} {size count : ℕ} {s rest : ByteSlice}
    {records : List α} (h : s.fixedRecords read size count = .ok (records, rest)) :
    s.bytes.length = count * size + rest.bytes.length := by
  obtain ⟨⟨taken, dropped⟩, hsplit, h⟩ := ok_of_bind_eq_ok h
  obtain ⟨hle, -, hdrop⟩ := splitAtChecked_spec hsplit
  dsimp only at h
  by_cases haligned : ¬8 ∣ taken.address
  · rw [if_pos haligned] at h
    cases h
  rw [if_neg haligned] at h
  obtain ⟨_, -, h⟩ := ok_of_bind_eq_ok h
  cases h
  rw [hdrop, length_drop]
  omega

end ByteSlice

namespace DrawPrefix

def impliedVertexBytes (head : DrawPrefix) : ℕ :=
  if head.vertexKind = 0 then VertexBytes.recordSize else head.streamCount.toNat * StreamRecord.recordSize

def impliedIndexBytes (head : DrawPrefix) : ℕ :=
  if head.indexKind = 1 then IndexBuffer.recordSize
  else if head.indexKind = 3 ∨ head.indexKind = 4 then IndexBytes.recordSize
  else 0

end DrawPrefix

namespace DrawView

theorem vertexView_length {head : DrawPrefix} {s rest : ByteSlice} {vertices : VertexView}
    (h : vertexView head s = .ok (vertices, rest)) :
    s.bytes.length = head.impliedVertexBytes + rest.bytes.length := by
  rw [vertexView] at h
  rw [DrawPrefix.impliedVertexBytes]
  by_cases hup : head.vertexKind = 0 ∧ head.streamCount = 0
  · rw [if_pos hup] at h
    obtain ⟨⟨record, rest'⟩, hsplit, h⟩ := ok_of_bind_eq_ok h
    obtain ⟨_, -, h⟩ := ok_of_bind_eq_ok h
    cases h
    obtain ⟨hle, -, hdrop⟩ := splitAtChecked_spec hsplit
    rw [if_pos hup.1, hdrop, length_drop]
    omega
  · rw [if_neg hup] at h
    by_cases hbound : head.vertexKind = 1 ∧ 1 ≤ head.streamCount ∧ head.streamCount ≤ 16
    · rw [if_pos hbound] at h
      obtain ⟨⟨records, rest'⟩, hrecords, h⟩ := ok_of_bind_eq_ok h
      cases h
      rw [if_neg (by simp [hbound.1]), fixedRecords_length hrecords]
    · rw [if_neg hbound] at h
      cases h

theorem indexView_length {head : DrawPrefix} {s : ByteSlice} {indices : IndexView}
    (h : indexView head s = .ok indices) : s.bytes.length = head.impliedIndexBytes := by
  rw [indexView] at h
  rw [DrawPrefix.impliedIndexBytes]
  split at h
  · next hnone => simp_all
  split at h
  · next hbound =>
    obtain ⟨record, hrecord, -⟩ := ok_of_bind_eq_ok h
    rw [if_pos hbound, (fixedRef_spec hrecord).1]
  split at h
  · next hfan => simp_all
  split at h
  · next hgenerated =>
    obtain ⟨record, hrecord, -⟩ := ok_of_bind_eq_ok h
    rw [if_neg (by simp [hgenerated]), if_pos (.inl hgenerated), (fixedRef_spec hrecord).1]
  split at h
  · next hup =>
    obtain ⟨record, hrecord, -⟩ := ok_of_bind_eq_ok h
    rw [if_neg (by simp [hup]), if_pos (.inr hup), (fixedRef_spec hrecord).1]
  · cases h

theorem new_length {s : ByteSlice} {view : DrawView} (h : new s = .ok view) :
    ∃ head, DrawPrefix.read.value (s.bytes.take DrawPrefix.recordSize) = some head ∧
      s.bytes.length = DrawPrefix.recordSize + head.impliedVertexBytes + head.impliedIndexBytes := by
  obtain ⟨⟨first, rest⟩, hsplit, h⟩ := ok_of_bind_eq_ok h
  obtain ⟨head, hhead, h⟩ := ok_of_bind_eq_ok h
  obtain ⟨primitive, -, h⟩ := ok_of_bind_eq_ok h
  obtain ⟨⟨vertices, tail⟩, hvertices, h⟩ := ok_of_bind_eq_ok h
  obtain ⟨indices, hindices, -⟩ := ok_of_bind_eq_ok h
  obtain ⟨hle, htake, hdrop⟩ := splitAtChecked_spec hsplit
  refine ⟨head, htake ▸ (fixedRef_spec hhead).2, ?_⟩
  have hrest := vertexView_length hvertices
  rw [hdrop, length_drop, indexView_length hindices] at hrest
  omega

end DrawView

/-- The three writers and the reader of a draw payload agree: what `writeInto` writes reads back as the draw it
was given, both bound-draw writers make the bytes the generic one makes, and the reader accepts no payload of
another length than its header announces. -/
theorem draw_payload_agrees :
    (∀ draw : DrawOp, draw.Streams → ∀ destination, draw.payloadSize = .ok destination.length →
      ∀ address, 8 ∣ address →
        ∃ payload, draw.writeInto destination destination.length = .ok payload ∧
          payload.length = destination.length ∧ DrawView.new ⟨address, payload⟩ = .ok draw.view) ∧
    (∀ (reserve : ℕ → List UInt8), (∀ n, (reserve n).length = n) →
      ∀ (prim : PrimitiveType) (first : StreamBinding) (extra : List StreamBinding) (freq : UInt32)
        (indices : IndexSource),
        (∀ head, indices.head prim = some head →
          recordBoundDraw reserve head ⟨StreamRecord.fromBinding first, extra, freq⟩ indices.record =
            recordDraw reserve ⟨prim, .bound first extra freq, indices⟩) ∧
        ∀ single : SingleStreamDraw, indices.head prim = some single.head → indices.record = single.index →
          ∀ payload, tryAppendSingleStream ⟨StreamRecord.fromBinding first, extra, freq⟩ single = some payload →
            recordDraw reserve ⟨prim, .bound first extra freq, indices⟩ = .ok payload) ∧
    ∀ (s : ByteSlice) (view : DrawView), DrawView.new s = .ok view →
      ∃ head, DrawPrefix.read.value (s.bytes.take DrawPrefix.recordSize) = some head ∧
        s.bytes.length = DrawPrefix.recordSize + head.impliedVertexBytes + head.impliedIndexBytes := by
  refine ⟨fun draw hstreams destination hdest address haligned ↦
    draw.payload_round_trip hstreams destination hdest address haligned, ?_, fun s view ↦ DrawView.new_length⟩
  intro reserve hreserve prim first extra freq indices
  exact ⟨fun head hhead ↦ recordBoundDraw_eq hreserve hhead,
    fun single hhead hindex payload ↦ tryAppendSingleStream_eq hreserve hhead hindex⟩

end Mtld3d
