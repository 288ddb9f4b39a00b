import Mtld3d.ShaderCacheFormat

namespace Mtld3d.ShaderCache

open Lib List

variable {L : CacheLibraries} {emitter : UInt64} {records : List PlainRecord} {sel : Selection}
  {chunks : List Chunk} {blobs : List (List UInt8)} {bytes : List UInt8}

def writeFile (L : CacheLibraries) (chunks : List Chunk) : Option (List UInt8) := do
  let blobs ← chunks.mapM (Chunk.write L)
  some (writeHeader ++ blobs.flatten)

/-- `out` holds one entry for each reference with a usable record, and one recipe for each disk key whose
    recipe finds both its shaders among those entries. -/
structure Returns (L : CacheLibraries) (emitter : UInt64) (records : List PlainRecord) (out : CacheRecords) :
    Prop where
  shaders_nodup : (out.shaders.map CacheEntry.reference).Nodup
  mem_shaders : ∀ e, e ∈ out.shaders ↔ winner emitter (entriesOf records) e.reference = some e
  pipelines_nodup : (out.pipelines.map (PipelineRecipe.diskKey L)).Nodup
  mem_pipelines : ∀ p, p ∈ out.pipelines ↔
    lookup (PipelineRecipe.diskKey L) (recipesOf records) (p.diskKey L) = some p ∧
      (∃ e ∈ out.shaders, e.reference = p.vs) ∧ ∃ e ∈ out.shaders, e.reference = p.ps

theorem Selection.hasShader_iff (sel : Selection) (r : ShaderRecordRef) :
    sel.hasShader r = true ↔ ∃ e ∈ sel.shaders, e.reference = r := by
  simp [Selection.hasShader]

theorem mem_resolved {recipe : PipelineRecipe} : recipe ∈ sel.resolved ↔ recipe ∈ sel.pipelines ∧
    (∃ e ∈ sel.shaders, e.reference = recipe.vs) ∧ ∃ e ∈ sel.shaders, e.reference = recipe.ps := by
  rw [Selection.resolved, mem_filter, Bool.and_eq_true, Selection.hasShader_iff, Selection.hasShader_iff]

theorem selected_readChunks (chunks : List Chunk) : Selected L emitter (recordsOf chunks)
    (readChunks L .currentEmitter emitter ParseState.start chunks).selection := by
  rw [readChunks_selection]
  exact Selected.empty.pushAll (recordsOf chunks)

variable {out : CacheRecords}

theorem Selected.returns (h : Selected L emitter records sel)
    (hshaders : out.shaders = sel.shaders) (hpipelines : out.pipelines = sel.resolved) :
    Returns L emitter records out where
  shaders_nodup := hshaders ▸ h.shaders_nodup
  mem_shaders := fun e ↦ by rw [hshaders, h.mem_shaders]
  pipelines_nodup := by
    rw [hpipelines]
    exact h.pipelines_nodup.sublist (filter_sublist.map _)
  mem_pipelines := fun p ↦ by rw [hpipelines, hshaders, mem_resolved, h.mem_pipelines]

theorem writeFile_eq_some (h : writeFile L chunks = some bytes) :
    ∃ blobs, chunks.mapM (Chunk.write L) = some blobs ∧ bytes = writeHeader ++ blobs.flatten := by
  simp only [writeFile, Option.bind_eq_bind, Option.bind_eq_some_iff, Option.some.injEq] at h
  obtain ⟨blobs, hblobs, rfl⟩ := h
  exact ⟨blobs, hblobs, rfl⟩

theorem readRecords_writeFile (emitter : UInt64) (hv : ∀ c ∈ chunks, ∀ r ∈ c.records, r.Valid L)
    (hw : writeFile L chunks = some bytes) : readRecords L emitter bytes =
      (readChunks L .currentEmitter emitter ParseState.start chunks).finish bytes.length [] := by
  obtain ⟨blobs, hblobs, rfl⟩ := writeFile_eq_some hw
  have hread := parseRecords_written .currentEmitter emitter hv hblobs nextChunk_nil
  rwa [append_nil] at hread

theorem mem_entriesOf {e : CacheEntry} : e ∈ entriesOf records ↔ .shader e ∈ records := by
  simp only [entriesOf, mem_filterMap]
  constructor
  · rintro ⟨record, hmem, hrecord⟩
    cases record with
    | shader e' =>
      cases hrecord
      exact hmem
    | pipeline recipe => cases hrecord
  · exact fun h ↦ ⟨_, h, rfl⟩

theorem mem_recipesOf {recipe : PipelineRecipe} : recipe ∈ recipesOf records ↔ .pipeline recipe ∈ records := by
  simp only [recipesOf, mem_filterMap]
  constructor
  · rintro ⟨record, hmem, hrecord⟩
    cases record with
    | shader e => cases hrecord
    | pipeline recipe' =>
      cases hrecord
      exact hmem
  · exact fun h ↦ ⟨_, h, rfl⟩

theorem Returns.subset (h : Returns L emitter records out) :
    ∀ r ∈ (Chunk.bundle out.shaders out.pipelines).records, r ∈ records := by
  intro r hr
  rcases mem_append.mp hr with hr | hr
  · obtain ⟨e, he, rfl⟩ := mem_map.mp hr
    exact mem_entriesOf.mp (mem_of_winner ((h.mem_shaders e).mp he))
  · obtain ⟨p, hp, rfl⟩ := mem_map.mp hr
    exact mem_recipesOf.mp (mem_of_lookup ((h.mem_pipelines p).mp hp).1)

theorem Returns.rebundle (h : Returns L emitter records out) (len : ℕ) :
    (readChunks L .currentEmitter emitter ParseState.start [.bundle out.shaders out.pipelines]).finish len [] =
      ⟨out.shaders, out.pipelines, false, len⟩ := by
  have hselection : (readChunks L .currentEmitter emitter ParseState.start
      [.bundle out.shaders out.pipelines]).selection = ⟨out.shaders, out.pipelines, false⟩ := by
    rw [readChunks_selection]
    change ((out.shaders.map PlainRecord.shader ++ out.pipelines.map PlainRecord.pipeline) ++ []).foldl _ _ = _
    rw [append_nil, foldl_append, foldl_shaders, foldl_pipelines]
    · rfl
    · exact h.pipelines_nodup
    · exact fun e he ↦ usable_of_winner ((h.mem_shaders e).mp he)
    · exact h.shaders_nodup
  have hresolved : (Selection.mk out.shaders out.pipelines false).resolved = out.pipelines := by
    refine filter_eq_self.mpr fun p hp ↦ ?_
    rw [Bool.and_eq_true, Selection.hasShader_iff, Selection.hasShader_iff]
    exact ((h.mem_pipelines p).mp hp).2
  unfold ParseState.finish
  rw [hselection, hresolved]
  simp [readChunks, ParseState.counted, ParseState.pushAll, ParseState.start]

theorem compact_of_needs (hcurrent : isCurrent bytes = true)
    (hneeds : (readRecords L emitter bytes).needsCompaction = true) {bundle : List UInt8}
    (hb : writeBundle L (readRecords L emitter bytes).shaders (readRecords L emitter bytes).pipelines =
      some bundle) : compact L emitter bytes = some (writeHeader ++ bundle) := by
  simp [compact, hcurrent, hneeds, hb]

/-- Reading a file of written chunks reaches its end and returns one entry per usable reference and the
    recipes whose shaders are there; the compacted file reads the same and asks for no compaction. -/
theorem round_trip_compact (hv : ∀ c ∈ chunks, ∀ r ∈ c.records, r.Valid L)
    (hw : writeFile L chunks = some bytes) :
    (readRecords L emitter bytes).validLen = bytes.length ∧
      Returns L emitter (recordsOf chunks) (readRecords L emitter bytes) ∧
      ∀ bundle, writeBundle L (readRecords L emitter bytes).shaders (readRecords L emitter bytes).pipelines =
          some bundle →
        ∃ compacted, compact L emitter bytes = some compacted ∧
          (readRecords L emitter compacted).shaders = (readRecords L emitter bytes).shaders ∧
          (readRecords L emitter compacted).pipelines = (readRecords L emitter bytes).pipelines ∧
          (readRecords L emitter compacted).needsCompaction = false := by
  have hread := readRecords_writeFile emitter hv hw
  have hreturns : Returns L emitter (recordsOf chunks) (readRecords L emitter bytes) := by
    rw [hread]
    exact (selected_readChunks chunks).returns rfl rfl
  have hvalid : ∀ r ∈ recordsOf chunks, r.Valid L := by
    intro r hr
    obtain ⟨c, hc, hr⟩ := mem_flatMap.mp hr
    exact hv c hc r hr
  refine ⟨by rw [hread]; rfl, hreturns, fun bundle hb ↦ ?_⟩
  by_cases hneeds : (readRecords L emitter bytes).needsCompaction = true
  · obtain ⟨blobs, -, hbytes⟩ := writeFile_eq_some hw
    have hcurrent : isCurrent bytes = true := hbytes ▸ isCurrent_header _
    have hfile : writeFile L [.bundle (readRecords L emitter bytes).shaders
        (readRecords L emitter bytes).pipelines] = some (writeHeader ++ bundle) := by
      simp [writeFile, Chunk.write, hb]
    have hagain := readRecords_writeFile emitter (fun c hc r hr ↦ by
      cases mem_singleton.mp hc
      exact hvalid r (hreturns.subset r hr)) hfile
    rw [hreturns.rebundle] at hagain
    exact ⟨_, compact_of_needs hcurrent hneeds hb, by rw [hagain], by rw [hagain], by rw [hagain]⟩
  · have hcompact : compact L emitter bytes = some bytes := by
      simp [compact, hneeds]
    exact ⟨bytes, hcompact, rfl, rfl, by simpa using hneeds⟩

def plainLibraries : CacheLibraries where
  compress _ plain := plain
  decompress := some
  decompress_compress _ _ := rfl
  xxh3 _ := 0
  sourceKey _ := 0

def fixedFunctionEntry : CacheEntry := ⟨.ffVs, 7, "", none, 1⟩

theorem fixedFunctionEntry_valid : ∀ c ∈ [Chunk.single (.shader fixedFunctionEntry)], ∀ r ∈ c.records,
    r.Valid plainLibraries := by
  intro c hc r hr
  cases mem_singleton.mp hc
  cases mem_singleton.mp hr
  intro source hsource
  cases hsource

def vertexSource : ShaderSource := ⟨[0xFFFE0200, 0xFFFF], .vertex 0 0 ⟨0, 0, false⟩⟩

def vertexEntry (emitter : UInt64) : CacheEntry := ⟨.sm2Vs, 0, "", some vertexSource, emitter⟩

def pixelEntry : CacheEntry := ⟨.ffPs, 9, "", none, 1⟩

def blendRecipe : PipelineRecipe where
  vs := ⟨.sm2Vs, 0⟩
  ps := ⟨.ffPs, 9⟩
  snapshot := ⟨0, 0, 7, fun _ ↦ .unused, .bgra8Unorm, ⟨true, false, true, false⟩,
    ⟨⟨true, false, false⟩, 2, 1, 1, 2, 1, 1, 15, fun _ ↦ 15⟩, .none, 1, 1⟩
  vertexAttrs := []

theorem vertexEntry_valid (emitter : UInt64) : (PlainRecord.shader (vertexEntry emitter)).Valid plainLibraries := by
  intro source hsource
  obtain rfl := Option.some.inj hsource
  exact ⟨rfl, ⟨rfl, rfl, rfl, by decide⟩, rfl⟩

theorem pixelEntry_valid : (PlainRecord.shader pixelEntry).Valid plainLibraries := by
  intro source hsource
  cases hsource

theorem blendRecipe_valid : (PlainRecord.pipeline blendRecipe).Valid plainLibraries := by
  refine ⟨rfl, rfl, ?_, by decide, by decide, by decide⟩
  constructor <;> decide

/-- A vertex shader of an older emitter, a bundle of its current record with a recipe, and the pixel shader. -/
def mixedChunks : List Chunk :=
  [.single (.shader (vertexEntry 0)), .bundle [vertexEntry 1] [blendRecipe], .single (.shader pixelEntry)]

theorem round_trip_compact_mixed :
    ∃ bytes compacted, writeFile plainLibraries mixedChunks = some bytes ∧
      (readRecords plainLibraries 1 bytes).validLen = bytes.length ∧
      (readRecords plainLibraries 1 bytes).shaders = [vertexEntry 1, pixelEntry] ∧
      (readRecords plainLibraries 1 bytes).pipelines = [blendRecipe] ∧
      compact plainLibraries 1 bytes = some compacted ∧
      (readRecords plainLibraries 1 compacted).shaders = [vertexEntry 1, pixelEntry] ∧
      (readRecords plainLibraries 1 compacted).pipelines = [blendRecipe] ∧
      (readRecords plainLibraries 1 compacted).needsCompaction = false := by
  have hvalid : ∀ c ∈ mixedChunks, ∀ r ∈ c.records, r.Valid plainLibraries := by
    simp [mixedChunks, Chunk.records, vertexEntry_valid, pixelEntry_valid, blendRecipe_valid]
  obtain ⟨bytes, hbytes⟩ : ∃ bytes, writeFile plainLibraries mixedChunks = some bytes :=
    Option.isSome_iff_exists.mp (by decide +kernel)
  obtain ⟨bundle, hbundle⟩ : ∃ bundle, writeBundle plainLibraries [vertexEntry 1, pixelEntry] [blendRecipe] =
      some bundle := Option.isSome_iff_exists.mp (by decide +kernel)
  have hread := readRecords_writeFile 1 hvalid hbytes
  have hshaders : (readRecords plainLibraries 1 bytes).shaders = [vertexEntry 1, pixelEntry] := by
    rw [hread]
    rfl
  have hpipelines : (readRecords plainLibraries 1 bytes).pipelines = [blendRecipe] := by
    rw [hread]
    rfl
  obtain ⟨hlen, -, hcompact⟩ := @round_trip_compact _ 1 _ _ hvalid hbytes
  rw [hshaders, hpipelines] at hcompact
  obtain ⟨compacted, hrewrite, hsame⟩ := hcompact bundle hbundle
  exact ⟨bytes, compacted, hbytes, hlen, hshaders, hpipelines, hrewrite, hsame⟩

/-- Under a later emitter the same valid record is read past and dropped. -/
theorem stale_record_dropped :
    ∃ bytes, writeFile plainLibraries [.single (.shader fixedFunctionEntry)] = some bytes ∧
      (readRecords plainLibraries 2 bytes).validLen = bytes.length ∧
      (readRecords plainLibraries 2 bytes).shaders = [] := by
  refine ⟨_, rfl, ?_⟩
  rw [readRecords_writeFile 2 fixedFunctionEntry_valid rfl]
  exact ⟨rfl, rfl⟩

end Mtld3d.ShaderCache
