import Mtld3d.ShaderCacheSelect

namespace Mtld3d

open List Lib

def CacheEntry.Valid (L : CacheLibraries) (e : CacheEntry) : Prop :=
  ∀ source, e.source = some source →
    e.kind.isProgrammable = true ∧ source.WellFormed e.kind ∧ L.sourceKey source = e.key

def PlainRecord.Valid (L : CacheLibraries) : PlainRecord → Prop
  | shader entry => entry.Valid L
  | pipeline recipe => recipe.Valid

namespace CacheEntry

variable {L : CacheLibraries} {e : CacheEntry}

theorem reads_decodeSource (h : e.Valid L) (rest : List UInt8) :
    Reads (decodeSource L e.kind e.key e.source.isSome) ((e.source.map ShaderSource.encode).getD []) e.source
      rest := by
  unfold decodeSource
  cases hsource : e.source with
  | none => exact Reads.pure
  | some source =>
    obtain ⟨hkind, hformed, hkey⟩ := h source hsource
    rw [Option.isSome_some, if_pos rfl]
    refine Reads.check_bind hkind ?_
    rw [Option.map_some, Option.getD_some, ← append_nil source.encode]
    refine (ShaderSource.reads_decode hformed _).bind ?_
    exact Reads.check_bind (beq_iff_eq.mpr hkey) Reads.pure

theorem decode_encode (h : e.Valid L) : decode L e.kind e.key e.encode = some e := by
  have hbody : Reads (decodeBody L e.kind e.key) e.encode e [] := by
    simp only [encode, append_assoc]
    refine (Reads.u64 _).bind ((Reads.u8 _).bind (Reads.lift_bind (boolOfByte_byteOfBool _) ?_))
    refine (reads_decodeSource h _).bind ?_
    rw [← append_nil (asBytes e.msl)]
    exact Reads.all.bind (Reads.lift_bind (fromUtf8_asBytes _) Reads.pure)
  exact hbody.value

end CacheEntry

namespace ShaderCache

variable {L : CacheLibraries} {kind : UInt8} {key : UInt64} {body frame rest : List UInt8}

def recordKind : PlainRecord → UInt8
  | .shader entry => entry.kind.toByte
  | .pipeline _ => recordKindPipeline

def recordKey (L : CacheLibraries) : PlainRecord → UInt64
  | .shader entry => entry.key
  | .pipeline recipe => recipe.diskKey L

def recordBody : PlainRecord → List UInt8
  | .shader entry => entry.encode
  | .pipeline recipe => recipe.encode

variable {record : PlainRecord}

theorem decodeRecord_body (h : record.Valid L) :
    decodeRecord L (recordKind record) (recordKey L record) (recordBody record) = some record := by
  cases record with
  | shader entry =>
    have hkind : entry.kind.toByte ≠ recordKindPipeline := by
      cases entry.kind <;> decide
    have hentry : CacheEntry.decode L entry.kind entry.key entry.encode = some entry :=
      CacheEntry.decode_encode h
    simp [decodeRecord, recordKind, recordKey, recordBody, hkind, hentry]
  | pipeline recipe =>
    simp [decodeRecord, recordKind, recordKey, recordBody, PipelineRecipe.decode_encode h]

section Frames

theorem field_append (before : List UInt8) {after : List UInt8} {off w n : ℕ} (hoff : before.length = off)
    (hn : n < 256 ^ w) :
    field (before ++ (toLe w n ++ after)) off w = n := by
  rw [field, slice_append hoff (length_toLe w n), ofLe_toLe hn]

@[simp] theorem length_buildHeader16 (kind : UInt8) (key : UInt64) (n : ℕ) :
    (buildHeader16 kind key n).length = 16 := by
  simp [buildHeader16]

theorem keyField_header (kind : UInt8) (key : UInt64) (n : ℕ) (rest : List UInt8) :
    keyField (buildHeader16 kind key n ++ rest) = key := by
  have hkey : key.toNat < 256 ^ 8 := key.toNat_lt
  have hfield : field (buildHeader16 kind key n ++ rest) 4 8 = key.toNat := by
    simp only [buildHeader16, append_assoc, le64]
    exact field_append [kind, 0, 0, 0] rfl hkey
  rw [keyField, hfield, UInt64.ofNat_toNat]

theorem lenField_header {n : ℕ} (hn : n < 4294967296) (kind : UInt8) (key : UInt64) (rest : List UInt8) :
    lenField (buildHeader16 kind key n ++ rest) = n := by
  have hn : n < 256 ^ 4 := hn
  have hlen : ([kind, 0, 0, 0] ++ le64 key).length = 12 := by simp
  simp only [lenField, buildHeader16, append_assoc]
  rw [← append_assoc]
  exact field_append _ hlen hn

theorem framed_header (gap : List UInt8) {start : ℕ} (hstart : 16 + gap.length = start)
    (hlen : body.length < 4294967296) :
    framed start (buildHeader16 kind key body.length ++ (gap ++ (body ++ rest))) = ⟨kind, key, body, rest⟩ := by
  have hfront : (buildHeader16 kind key body.length ++ gap).length = start := by simp [hstart]
  have hdrop : (buildHeader16 kind key body.length ++ (gap ++ (body ++ rest))).drop start = body ++ rest := by
    rw [← append_assoc, ← hfront, drop_left]
  unfold framed
  rw [lenField_header hlen, keyField_header, hdrop, take_left, ← drop_drop, hdrop, drop_left]
  rfl

theorem nextPlain_header (hlen : body.length < 4294967296) :
    nextPlain (buildHeader16 kind key body.length ++ (body ++ rest)) = some ⟨kind, key, body, rest⟩ := by
  have hrecord : recordHeaderLen = 16 := rfl
  have hframed : framed recordHeaderLen (buildHeader16 kind key body.length ++ (body ++ rest)) =
      ⟨kind, key, body, rest⟩ := framed_header [] rfl hlen
  unfold nextPlain
  rw [if_neg (by simp [hrecord]), if_neg, hframed]
  rw [lenField_header hlen]
  simp only [length_append, length_buildHeader16]
  omega

theorem take_ne_magic (hkind : kind ≠ 0x4D) (rest : List UInt8) : (kind :: rest).take 8 ≠ magic := by
  intro h
  simp only [take_succ_cons, magic, List.cons.injEq] at h
  exact hkind h.1

theorem nextChunk_chunkBytes (hkind : kind ≠ 0x4D) (hlen : frame.length < 4294967296) :
    nextChunk L (chunkBytes L kind key frame ++ rest) = .chunk ⟨kind, key, frame, rest⟩ := by
  have hheader : chunkHeaderLen = 24 := rfl
  let header16 := buildHeader16 kind key frame.length
  let sum := chunkXxh3 L header16 frame
  have hbytes : chunkBytes L kind key frame ++ rest = header16 ++ (le64 sum ++ (frame ++ rest)) := by
    simp [chunkBytes, header16, sum]
  have hframed : framed chunkHeaderLen (header16 ++ (le64 sum ++ (frame ++ rest))) =
      ⟨kind, key, frame, rest⟩ := framed_header _ (by simp [hheader]) hlen
  have hfirst : (header16 ++ (le64 sum ++ (frame ++ rest))).take 16 = header16 := by
    rw [← length_buildHeader16 kind key frame.length]
    exact take_left
  have hsum : field (header16 ++ (le64 sum ++ (frame ++ rest))) 16 8 = sum.toNat :=
    field_append _ (length_buildHeader16 _ _ _) sum.toNat_lt
  have hlength : (header16 ++ (le64 sum ++ (frame ++ rest))).length = 24 + frame.length + rest.length := by
    simp only [header16, length_append, length_buildHeader16, length_le64]
    omega
  rw [hbytes]
  unfold nextChunk
  rw [if_neg (by omega), if_neg, if_neg, hframed, hfirst, hsum, if_neg (by simp [sum])]
  · rw [lenField_header hlen]
    omega
  · exact take_ne_magic hkind _

theorem length_chunkBytes (L : CacheLibraries) (kind : UInt8) (key : UInt64) (frame : List UInt8) :
    (chunkBytes L kind key frame).length = 24 + frame.length := by
  simp only [chunkBytes, length_append, length_buildHeader16, length_le64]

theorem nextChunk_torn (hkind : kind ≠ 0x4D) (hlen : frame.length < 4294967296) {written : ℕ}
    (hwritten : written < (chunkBytes L kind key frame).length) :
    nextChunk L ((chunkBytes L kind key frame).take written) = .incomplete := by
  have hheader : chunkHeaderLen = 24 := rfl
  have hlength : ((chunkBytes L kind key frame).take written).length = written := by
    rw [length_take]
    omega
  rw [length_chunkBytes] at hwritten
  unfold nextChunk
  by_cases hshort : written < 24
  · rw [if_pos (by omega)]
  · obtain ⟨rest, hrest⟩ : ∃ rest, (chunkBytes L kind key frame).take written =
        buildHeader16 kind key frame.length ++ rest := by
      let header16 := buildHeader16 kind key frame.length
      refine ⟨(le64 (chunkXxh3 L header16 frame) ++ frame).take (written - 16), ?_⟩
      rw [chunkBytes, append_assoc, take_append, take_of_length_le, length_buildHeader16]
      rw [length_buildHeader16]
      omega
    rw [if_neg (by omega), if_neg, if_pos]
    · rw [hlength, hrest, lenField_header hlen]
      omega
    · rw [hrest]
      exact take_ne_magic hkind _

end Frames

inductive Chunk
  | single (record : PlainRecord)
  | bundle (shaders : List CacheEntry) (pipelines : List PipelineRecipe)

namespace Chunk

def records : Chunk → List PlainRecord
  | single record => [record]
  | bundle shaders pipelines => shaders.map .shader ++ pipelines.map .pipeline

def write (L : CacheLibraries) : Chunk → Option (List UInt8)
  | single (.shader entry) => writeRecord L entry
  | single (.pipeline recipe) => writePipelineRecord L recipe
  | bundle shaders pipelines => writeBundle L shaders pipelines

end Chunk

def writePlain (L : CacheLibraries) (record : PlainRecord) : Option (List UInt8) :=
  plainBytes (recordKind record) (recordKey L record) (recordBody record)

theorem writePlain_comp_shader : writePlain L ∘ PlainRecord.shader = writePlainRecord := by
  funext e
  simp [writePlain, writePlainRecord, recordKind, recordKey, recordBody]

theorem writePlain_comp_pipeline : writePlain L ∘ PlainRecord.pipeline = writePlainPipelineRecord L := by
  funext recipe
  simp [writePlain, writePlainPipelineRecord, recordKind, recordKey, recordBody]

theorem parsePlainRecords_cons {blob : List UInt8} (h : record.Valid L)
    (hw : writePlain L record = some blob) (rest : List UInt8) : parsePlainRecords L (blob ++ rest) =
      (record :: (parsePlainRecords L rest).1, (parsePlainRecords L rest).2) := by
  unfold writePlain plainBytes at hw
  split at hw
  · rename_i hlen
    cases hw
    have hnext : nextPlain (buildHeader16 (recordKind record) (recordKey L record) (recordBody record).length ++
        recordBody record ++ rest) = some ⟨recordKind record, recordKey L record, recordBody record, rest⟩ := by
      rw [append_assoc]
      exact nextPlain_header hlen
    rw [parsePlainRecords]
    split
    · rename_i hnone
      rw [hnext] at hnone
      cases hnone
    · rename_i f hsome
      rw [hnext] at hsome
      cases hsome
      rw [decodeRecord_body h]
  · cases hw

theorem parsePlainRecords_append {records : List PlainRecord} {blobs : List (List UInt8)}
    (h : ∀ r ∈ records, r.Valid L) (hw : records.mapM (writePlain L) = some blobs) (rest : List UInt8) :
    parsePlainRecords L (blobs.flatten ++ rest) =
      (records ++ (parsePlainRecords L rest).1, (parsePlainRecords L rest).2) := by
  induction records generalizing blobs with
  | nil =>
    cases hw
    rfl
  | cons record records ih =>
    simp only [mapM_cons, Option.bind_eq_bind, Option.bind_eq_some_iff, Option.pure_def,
      Option.some.injEq] at hw
    obtain ⟨blob, hblob, blobs, hblobs, rfl⟩ := hw
    have htail := ih (fun r hr ↦ h r (mem_cons_of_mem record hr)) hblobs
    rw [flatten_cons, append_assoc, parsePlainRecords_cons (h record mem_cons_self) hblob,
      htail]
    rfl

theorem parsePlainRecords_nil : parsePlainRecords L [] = ([], false) := by
  rw [parsePlainRecords]
  rfl

def ParseState.counted (st : ParseState) : Chunk → ParseState
  | .single _ => { st with singleCount := st.singleCount + 1 }
  | .bundle _ _ => { st with bundleCount := st.bundleCount + 1 }

/-- The chunk `c` as one frame, with what the reader makes of it. -/
structure Chunk.Frame (L : CacheLibraries) (c : Chunk) where
  kind : UInt8
  key : UInt64
  frame : List UInt8
  kind_ne : kind ≠ 0x4D
  length_lt : frame.length < 4294967296
  absorbed : ∀ mode emitter st rest, ParseState.absorb L mode emitter st ⟨kind, key, frame, rest⟩ =
    (st.counted c).pushAll L mode emitter c.records

theorem absorb_single (h : record.Valid L) (level : ℕ) (mode : RecordMode)
    (emitter : UInt64) (st : ParseState) (rest : List UInt8) :
    st.absorb L mode emitter ⟨recordKind record, recordKey L record, L.compress level (recordBody record), rest⟩ =
      (st.counted (.single record)).pushAll L mode emitter [record] := by
  have hkind : recordKind record ≠ recordKindBundle := by
    cases record with
    | shader e => cases he : e.kind <;> simp [recordKind, he] <;> decide
    | pipeline recipe =>
      change recordKindPipeline ≠ recordKindBundle
      decide
  have hsingle : recordKind record = recordKindPipeline ∨ (CachedKind.fromByte (recordKind record)).isSome = true := by
    cases record with
    | shader e => exact .inr (by simp [recordKind])
    | pipeline recipe => exact .inl rfl
  have hdecoded : (L.decompress (L.compress level (recordBody record)) >>=
      decodeRecord L (recordKind record) (recordKey L record)) = some record := by
    rw [L.decompress_compress]
    exact decodeRecord_body h
  unfold ParseState.absorb
  rw [if_neg hkind, if_pos hsingle]
  simp only [hdecoded]
  rfl

theorem absorb_bundle {shaders : List CacheEntry} {pipelines : List PipelineRecipe} {plain : List UInt8}
    (hplain : parsePlainRecords L plain = ((Chunk.bundle shaders pipelines).records, false)) (level : ℕ)
    (mode : RecordMode) (emitter : UInt64) (st : ParseState) (rest : List UInt8) :
    st.absorb L mode emitter ⟨recordKindBundle, 0, L.compress level plain, rest⟩ =
      (st.counted (.bundle shaders pipelines)).pushAll L mode emitter (Chunk.bundle shaders pipelines).records := by
  unfold ParseState.absorb
  rw [if_pos rfl]
  simp only [L.decompress_compress, hplain, Bool.or_false]
  rfl

variable {bytes : List UInt8}

theorem pushChunk_eq_some (h : pushChunk L kind key frame = some bytes) :
    bytes = chunkBytes L kind key frame ∧ frame.length < 4294967296 := by
  unfold pushChunk at h
  split at h
  · rename_i hlen
    cases h
    exact ⟨rfl, hlen⟩
  · cases h

theorem Chunk.exists_frame {c : Chunk} (hv : ∀ r ∈ c.records, r.Valid L)
    (hw : c.write L = some bytes) : ∃ f : c.Frame L, bytes = chunkBytes L f.kind f.key f.frame := by
  cases c with
  | single record =>
    have hw : pushChunk L (recordKind record) (recordKey L record)
        (L.compress zstdAppendLevel (recordBody record)) = some bytes := by
      cases record <;> exact hw
    have hkind : recordKind record ≠ 0x4D := by
      cases record with
      | shader e => cases he : e.kind <;> simp [recordKind, he] <;> decide
      | pipeline recipe =>
        change recordKindPipeline ≠ 0x4D
        decide
    obtain ⟨hbytes, hlen⟩ := pushChunk_eq_some hw
    have hrecord : record.Valid L := hv record (mem_singleton_self record)
    exact ⟨⟨_, _, _, hkind, hlen, absorb_single hrecord _⟩, hbytes⟩
  | bundle shaders pipelines =>
    simp only [Chunk.write, writeBundle, Option.bind_eq_bind, Option.bind_eq_some_iff] at hw
    obtain ⟨shaderBlobs, hshaders, pipelineBlobs, hpipelines, hw⟩ := hw
    obtain ⟨hbytes, hlen⟩ := pushChunk_eq_some hw
    have hshaders : (shaders.map PlainRecord.shader).mapM (writePlain L) = some shaderBlobs := by
      rw [mapM_map, writePlain_comp_shader, hshaders]
    have hpipelines : (pipelines.map PlainRecord.pipeline).mapM (writePlain L) = some pipelineBlobs := by
      rw [mapM_map, writePlain_comp_pipeline, hpipelines]
    have hplain : parsePlainRecords L (shaderBlobs.flatten ++ pipelineBlobs.flatten) =
        ((Chunk.bundle shaders pipelines).records, false) := by
      rw [parsePlainRecords_append (fun r hr ↦ hv r (mem_append_left _ hr)) hshaders,
        ← append_nil pipelineBlobs.flatten,
        parsePlainRecords_append (fun r hr ↦ hv r (mem_append_right _ hr)) hpipelines,
        parsePlainRecords_nil, append_nil]
      rfl
    exact ⟨⟨_, _, _, by decide, hlen, absorb_bundle hplain _⟩, hbytes⟩

section Chunks

variable {mode : RecordMode} {emitter : UInt64} {st : ParseState} {chunks : List Chunk}
  {blobs : List (List UInt8)} {tail : List UInt8}

def readChunks (L : CacheLibraries) (mode : RecordMode) (emitter : UInt64) (st : ParseState)
    (chunks : List Chunk) : ParseState :=
  chunks.foldl (fun st c ↦ (st.counted c).pushAll L mode emitter c.records) st

def recordsOf (chunks : List Chunk) : List PlainRecord := chunks.flatMap Chunk.records

theorem parseChunks_incomplete (h : nextChunk L bytes = .incomplete) :
    parseChunks L mode emitter bytes st = (st, bytes) := by
  rw [parseChunks]
  split <;> rename_i hnext <;> rw [h] at hnext <;> cases hnext

theorem parseChunks_chunk {f : Framed} (h : nextChunk L bytes = .chunk f) :
    parseChunks L mode emitter bytes st = parseChunks L mode emitter f.rest (st.absorb L mode emitter f) := by
  rw [parseChunks]
  split <;> rename_i hnext <;> rw [h] at hnext <;> cases hnext
  rfl

theorem parseChunks_written (hv : ∀ c ∈ chunks, ∀ r ∈ c.records, r.Valid L)
    (hw : chunks.mapM (Chunk.write L) = some blobs) (htail : nextChunk L tail = .incomplete) :
    parseChunks L mode emitter (blobs.flatten ++ tail) st = (readChunks L mode emitter st chunks, tail) := by
  induction chunks generalizing blobs st with
  | nil =>
    cases hw
    exact parseChunks_incomplete htail
  | cons c chunks ih =>
    simp only [mapM_cons, Option.bind_eq_bind, Option.bind_eq_some_iff, Option.pure_def,
      Option.some.injEq] at hw
    obtain ⟨blob, hblob, blobs, hblobs, rfl⟩ := hw
    obtain ⟨frame, rfl⟩ := Chunk.exists_frame (hv c mem_cons_self) hblob
    rw [flatten_cons, append_assoc,
      parseChunks_chunk (nextChunk_chunkBytes frame.kind_ne frame.length_lt), frame.absorbed]
    exact ih (fun c hc ↦ hv c (mem_cons_of_mem _ hc)) hblobs

theorem readChunks_selection : (readChunks L mode emitter st chunks).selection =
    (recordsOf chunks).foldl (Selection.pushRecord L mode emitter) st.selection := by
  induction chunks generalizing st with
  | nil => rfl
  | cons c chunks ih =>
    have hselection : ((st.counted c).pushAll L mode emitter c.records).selection =
        c.records.foldl (Selection.pushRecord L mode emitter) st.selection := by
      cases c <;> rfl
    change (readChunks L mode emitter ((st.counted c).pushAll L mode emitter c.records) chunks).selection = _
    rw [ih, hselection, ← foldl_append]
    rfl

theorem nextChunk_nil : nextChunk L [] = .incomplete := rfl

theorem length_writeHeader : writeHeader.length = headerLen := rfl

theorem isCurrent_header (rest : List UInt8) : isCurrent (writeHeader ++ rest) = true := by
  have hread : readHeader (writeHeader ++ rest) = some CacheHeader.current := by
    unfold readHeader
    rw [if_neg]
    · rfl
    · rintro (hshort | hmagic)
      · rw [length_append, length_writeHeader] at hshort
        omega
      · exact hmagic rfl
  simp [isCurrent, hread]

theorem parseRecords_written (mode : RecordMode) (emitter : UInt64) (hv : ∀ c ∈ chunks, ∀ r ∈ c.records, r.Valid L)
    (hw : chunks.mapM (Chunk.write L) = some blobs) (htail : nextChunk L tail = .incomplete) :
    parseRecords L mode emitter (writeHeader ++ (blobs.flatten ++ tail)) =
      (readChunks L mode emitter ParseState.start chunks).finish
        (writeHeader ++ (blobs.flatten ++ tail)).length tail := by
  have hdrop : (writeHeader ++ (blobs.flatten ++ tail)).drop headerLen = blobs.flatten ++ tail := by
    rw [← length_writeHeader, drop_left]
  unfold parseRecords
  rw [if_neg, hdrop, parseChunks_written hv hw htail]
  rw [length_append, length_writeHeader]
  omega

end Chunks

end ShaderCache

end Mtld3d
