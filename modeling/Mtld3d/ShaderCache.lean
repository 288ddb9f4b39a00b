import Mtld3d.PipelineRecipe

namespace Mtld3d

open Lib

/-- What the cache calls outside itself: the compressor, the hash, and the hash of a retained source. -/
structure CacheLibraries where
  compress : ℕ → List UInt8 → List UInt8
  decompress : List UInt8 → Option (List UInt8)
  decompress_compress : ∀ level plain, decompress (compress level plain) = some plain
  xxh3 : List UInt8 → UInt64
  sourceKey : ShaderSource → UInt64

def asBytes (s : String) : List UInt8 := s.toUTF8.data.toList

def fromUtf8 (bytes : List UInt8) : Option String := String.fromUTF8? ⟨bytes.toArray⟩

theorem fromUtf8_asBytes (s : String) : fromUtf8 (asBytes s) = some s := by
  obtain ⟨bytes, hvalid⟩ := s
  simp only [fromUtf8, asBytes, String.toUTF8, Array.toArray_toList]
  unfold String.fromUTF8?
  rw [dif_pos hvalid]
  rfl

structure CacheEntry where
  kind : CachedKind
  key : UInt64
  msl : String
  source : Option ShaderSource
  emitterVersion : UInt64
  deriving DecidableEq, Repr

namespace CacheEntry

def reference (e : CacheEntry) : ShaderRecordRef := ⟨e.kind, e.key⟩

def needsRegeneration (emitter : UInt64) (e : CacheEntry) : Bool := e.emitterVersion != emitter

def encode (e : CacheEntry) : List UInt8 :=
  le64 e.emitterVersion ++ [byteOfBool e.source.isSome] ++ (e.source.map ShaderSource.encode).getD [] ++
    asBytes e.msl

def decodeSource (L : CacheLibraries) (kind : CachedKind) (key : UInt64) (present : Bool) :
    Reader (Option ShaderSource) :=
  if present then do
    Reader.check kind.isProgrammable
    let source ← ShaderSource.decode kind
    Reader.check (L.sourceKey source == key)
    pure (some source)
  else pure none

def decodeBody (L : CacheLibraries) (kind : CachedKind) (key : UInt64) : Reader CacheEntry := do
  let emitterVersion ← Reader.u64
  let presentByte ← Reader.u8
  let present ← Reader.lift (boolOfByte presentByte)
  let source ← decodeSource L kind key present
  let bytes ← Reader.rest
  let msl ← Reader.lift (fromUtf8 bytes)
  pure { kind, key, msl, source, emitterVersion }

def decode (L : CacheLibraries) (kind : CachedKind) (key : UInt64) (bytes : List UInt8) : Option CacheEntry :=
  (decodeBody L kind key).value bytes

end CacheEntry

def PipelineRecipe.diskKey (L : CacheLibraries) (r : PipelineRecipe) : UInt64 := L.xxh3 r.encode

inductive PlainRecord
  | shader (entry : CacheEntry)
  | pipeline (recipe : PipelineRecipe)

namespace ShaderCache

def magic : List UInt8 := [0x4D, 0x54, 0x4C, 0x44, 0x33, 0x44, 0x53, 0x48]

def cacheFormatVersion : ℕ := 21

def shaderCacheSchemaVersion : ℕ := 81

def headerLen : ℕ := 16

def chunkHeaderLen : ℕ := 24

def recordHeaderLen : ℕ := 16

def recordKindBundle : UInt8 := 0xFF

def recordKindPipeline : UInt8 := 0xFE

def zstdAppendLevel : ℕ := 3

def zstdBundleLevel : ℕ := 19

structure CacheHeader where
  formatVersion : ℕ
  shaderSchemaVersion : ℕ
  deriving DecidableEq, Repr

def CacheHeader.current : CacheHeader := ⟨cacheFormatVersion, shaderCacheSchemaVersion⟩

def writeHeader : List UInt8 := magic ++ toLe 4 cacheFormatVersion ++ toLe 4 shaderCacheSchemaVersion

/-- `none` is the wrong-magic error. -/
def readHeader (bytes : List UInt8) : Option CacheHeader :=
  if bytes.length < headerLen ∨ bytes.take 8 ≠ magic then none
  else some ⟨ofLe ((bytes.drop 8).take 4), ofLe ((bytes.drop 12).take 4)⟩

def isCurrent (bytes : List UInt8) : Bool := readHeader bytes == some CacheHeader.current

/-- `kind | pad | key | length`, the first sixteen bytes of a chunk and of a plain record. -/
def buildHeader16 (kind : UInt8) (key : UInt64) (len : ℕ) : List UInt8 :=
  [kind, 0, 0, 0] ++ le64 key ++ toLe 4 len

def chunkXxh3 (L : CacheLibraries) (header16 frame : List UInt8) : UInt64 := L.xxh3 (header16 ++ frame)

def chunkBytes (L : CacheLibraries) (kind : UInt8) (key : UInt64) (frame : List UInt8) : List UInt8 :=
  let header16 := buildHeader16 kind key frame.length
  header16 ++ le64 (chunkXxh3 L header16 frame) ++ frame

/-- `none` is the panic on a frame of 4 GiB or more. -/
def pushChunk (L : CacheLibraries) (kind : UInt8) (key : UInt64) (frame : List UInt8) : Option (List UInt8) :=
  if frame.length < 4294967296 then some (chunkBytes L kind key frame) else none

def writeRecord (L : CacheLibraries) (entry : CacheEntry) : Option (List UInt8) :=
  pushChunk L entry.kind.toByte entry.key (L.compress zstdAppendLevel entry.encode)

def writePipelineRecord (L : CacheLibraries) (recipe : PipelineRecipe) : Option (List UInt8) :=
  pushChunk L recordKindPipeline (recipe.diskKey L) (L.compress zstdAppendLevel recipe.encode)

def plainBytes (kind : UInt8) (key : UInt64) (body : List UInt8) : Option (List UInt8) :=
  if body.length < 4294967296 then some (buildHeader16 kind key body.length ++ body) else none

def writePlainRecord (entry : CacheEntry) : Option (List UInt8) :=
  plainBytes entry.kind.toByte entry.key entry.encode

def writePlainPipelineRecord (L : CacheLibraries) (recipe : PipelineRecipe) : Option (List UInt8) :=
  plainBytes recordKindPipeline (recipe.diskKey L) recipe.encode

def writeBundle (L : CacheLibraries) (shaders : List CacheEntry) (pipelines : List PipelineRecipe) :
    Option (List UInt8) := do
  let shaderRecords ← shaders.mapM writePlainRecord
  let pipelineRecords ← pipelines.mapM (writePlainPipelineRecord L)
  pushChunk L recordKindBundle 0
    (L.compress zstdBundleLevel (shaderRecords.flatten ++ pipelineRecords.flatten))

def decodeRecord (L : CacheLibraries) (kindByte : UInt8) (key : UInt64) (body : List UInt8) :
    Option PlainRecord :=
  if kindByte = recordKindPipeline then do
    let recipe ← PipelineRecipe.decode body
    if recipe.diskKey L = key then some (.pipeline recipe) else none
  else do
    let kind ← CachedKind.fromByte kindByte
    let entry ← CacheEntry.decode L kind key body
    some (.shader entry)

def field (bytes : List UInt8) (off n : ℕ) : ℕ := ofLe ((bytes.drop off).take n)

def keyField (bytes : List UInt8) : UInt64 := UInt64.ofNat (field bytes 4 8)

def lenField (bytes : List UInt8) : ℕ := field bytes 12 4

structure Framed where
  kindByte : UInt8
  key : UInt64
  body : List UInt8
  rest : List UInt8

/-- The record or chunk at the front, whose body starts after `start` header bytes. -/
def framed (start : ℕ) (bytes : List UInt8) : Framed where
  kindByte := bytes.headD 0
  key := keyField bytes
  body := (bytes.drop start).take (lenField bytes)
  rest := bytes.drop (start + lenField bytes)

def nextPlain (bytes : List UInt8) : Option Framed :=
  if bytes.length < recordHeaderLen then none
  else if bytes.length < recordHeaderLen + lenField bytes then none
  else some (framed recordHeaderLen bytes)

theorem nextPlain_length {bytes : List UInt8} {f : Framed} (h : nextPlain bytes = some f) :
    f.rest.length < bytes.length := by
  unfold nextPlain at h
  split at h
  · cases h
  · split at h
    · cases h
    · rename_i hlen _
      cases h
      have hpos : recordHeaderLen = 16 := rfl
      simp only [framed, List.length_drop]
      omega

def parsePlainRecords (L : CacheLibraries) (bytes : List UInt8) : List PlainRecord × Bool :=
  match _h : nextPlain bytes with
  | none => ([], !bytes.isEmpty)
  | some f =>
    let tail := parsePlainRecords L f.rest
    match decodeRecord L f.kindByte f.key f.body with
    | some record => (record :: tail.1, tail.2)
    | none => (tail.1, true)
termination_by bytes.length
decreasing_by exact nextPlain_length _h

inductive RecordMode
  | currentEmitter
  | storedInventory
  deriving DecidableEq, Repr

/-- Records kept so far. The reader's two lookup maps hold the references and the disk keys of these
    two lists. -/
structure Selection where
  shaders : List CacheEntry
  pipelines : List PipelineRecipe
  duplicates : Bool

def Selection.empty : Selection := ⟨[], [], false⟩

def Selection.pushShader (mode : RecordMode) (emitter : UInt64) (sel : Selection) (entry : CacheEntry) :
    Selection :=
  if mode = .currentEmitter ∧ entry.needsRegeneration emitter = true ∧ entry.source.isNone = true then
    { sel with duplicates := true }
  else
    match sel.shaders.findIdx? fun old ↦ old.reference == entry.reference with
    | some index =>
      -- A refreshed append wins over an older emitter, in either record order.
      let replaced := sel.shaders.modify index fun old ↦
        if !entry.needsRegeneration emitter && old.needsRegeneration emitter then entry else old
      { sel with shaders := replaced, duplicates := true }
    | none => { sel with shaders := sel.shaders ++ [entry] }

def Selection.pushPipeline (L : CacheLibraries) (sel : Selection) (recipe : PipelineRecipe) : Selection :=
  if sel.pipelines.any fun old ↦ old.diskKey L == recipe.diskKey L then { sel with duplicates := true }
  else { sel with pipelines := sel.pipelines ++ [recipe] }

def Selection.pushRecord (L : CacheLibraries) (mode : RecordMode) (emitter : UInt64) (sel : Selection) :
    PlainRecord → Selection
  | .shader entry => sel.pushShader mode emitter entry
  | .pipeline recipe => sel.pushPipeline L recipe

inductive ChunkRead
  | incomplete
  | strayHeader (rest : List UInt8)
  | damaged
  | chunk (f : Framed)

def nextChunk (L : CacheLibraries) (bytes : List UInt8) : ChunkRead :=
  if bytes.length < chunkHeaderLen then .incomplete
  else if bytes.take 8 = magic then .strayHeader (bytes.drop headerLen)
  else if bytes.length < chunkHeaderLen + lenField bytes then .incomplete
  else if (chunkXxh3 L (bytes.take 16) (framed chunkHeaderLen bytes).body).toNat ≠ field bytes 16 8 then .damaged
  else .chunk (framed chunkHeaderLen bytes)

structure ParseState where
  selection : Selection
  singleCount : ℕ
  bundleCount : ℕ
  otherChunk : Bool

def ParseState.start : ParseState := ⟨Selection.empty, 0, 0, false⟩

def ParseState.pushAll (L : CacheLibraries) (mode : RecordMode) (emitter : UInt64) (st : ParseState)
    (records : List PlainRecord) : ParseState :=
  { st with selection := records.foldl (Selection.pushRecord L mode emitter) st.selection }

def ParseState.absorb (L : CacheLibraries) (mode : RecordMode) (emitter : UInt64) (st : ParseState)
    (f : Framed) : ParseState :=
  if f.kindByte = recordKindBundle then
    let st := { st with bundleCount := st.bundleCount + 1 }
    match L.decompress f.body with
    | some plain =>
      let parsed := parsePlainRecords L plain
      { st with otherChunk := st.otherChunk || parsed.2 }.pushAll L mode emitter parsed.1
    | none => { st with otherChunk := true }
  else if f.kindByte = recordKindPipeline ∨ (CachedKind.fromByte f.kindByte).isSome = true then
    let st := { st with singleCount := st.singleCount + 1 }
    match L.decompress f.body >>= decodeRecord L f.kindByte f.key with
    | some record => st.pushAll L mode emitter [record]
    | none => { st with otherChunk := true }
  else { st with otherChunk := true }

theorem nextChunk_stray_length {L : CacheLibraries} {bytes rest : List UInt8}
    (h : nextChunk L bytes = .strayHeader rest) : rest.length < bytes.length := by
  have hlen : chunkHeaderLen = 24 := rfl
  have hheader : headerLen = 16 := rfl
  unfold nextChunk at h
  split at h
  · cases h
  · split at h
    · cases h
      simp only [List.length_drop]
      omega
    · split at h
      · cases h
      · split at h <;> cases h

theorem nextChunk_chunk_length {L : CacheLibraries} {bytes : List UInt8} {f : Framed}
    (h : nextChunk L bytes = .chunk f) : f.rest.length < bytes.length := by
  have hlen : chunkHeaderLen = 24 := rfl
  unfold nextChunk at h
  split at h
  · cases h
  · split at h
    · cases h
    · split at h
      · cases h
      · split at h
        · cases h
        · cases h
          simp only [framed, List.length_drop]
          omega

/-- The chunk loop; the second component is what lies past the last chunk it could traverse. -/
def parseChunks (L : CacheLibraries) (mode : RecordMode) (emitter : UInt64) (bytes : List UInt8)
    (st : ParseState) : ParseState × List UInt8 :=
  match _h : nextChunk L bytes with
  | .incomplete => (st, bytes)
  | .strayHeader rest => parseChunks L mode emitter rest { st with otherChunk := true }
  | .damaged => ({ st with otherChunk := true }, bytes)
  | .chunk f => parseChunks L mode emitter f.rest (st.absorb L mode emitter f)
termination_by bytes.length
decreasing_by
  · exact nextChunk_stray_length _h
  · exact nextChunk_chunk_length _h

structure CacheRecords where
  shaders : List CacheEntry
  pipelines : List PipelineRecipe
  needsCompaction : Bool
  validLen : ℕ

def Selection.hasShader (sel : Selection) (r : ShaderRecordRef) : Bool :=
  sel.shaders.any fun e ↦ e.reference == r

def Selection.resolved (sel : Selection) : List PipelineRecipe :=
  sel.pipelines.filter fun recipe ↦ sel.hasShader recipe.vs && sel.hasShader recipe.ps

def ParseState.finish (st : ParseState) (len : ℕ) (rest : List UInt8) : CacheRecords :=
  let dangling := st.selection.resolved.length != st.selection.pipelines.length
  let alreadyOptimal := st.bundleCount == 1 && st.singleCount == 0 && !st.otherChunk &&
    !st.selection.duplicates && !dangling && rest.isEmpty
  { shaders := st.selection.shaders
    pipelines := st.selection.resolved
    needsCompaction := !alreadyOptimal
    validLen := len - rest.length }

def parseRecords (L : CacheLibraries) (mode : RecordMode) (emitter : UInt64) (bytes : List UInt8) :
    CacheRecords :=
  if bytes.length < headerLen then ⟨[], [], false, 0⟩
  else
    let parsed := parseChunks L mode emitter (bytes.drop headerLen) ParseState.start
    parsed.1.finish bytes.length parsed.2

def readRecords (L : CacheLibraries) (emitter : UInt64) (bytes : List UInt8) : CacheRecords :=
  parseRecords L .currentEmitter emitter bytes

inductive CacheLoad
  | missing
  | current (records : CacheRecords)
  | invalidatedVersion (header : CacheHeader)
  | invalidatedWrongMagic

/-- The data file; `none` while it does not exist. -/
abbrev DataFile := Option (List UInt8)

def load (L : CacheLibraries) (emitter : UInt64) : DataFile → CacheLoad × DataFile
  | none => (.missing, none)
  | some bytes =>
    match readHeader bytes with
    | none => (.invalidatedWrongMagic, none)
    | some header =>
      if header = CacheHeader.current then
        let records := readRecords L emitter bytes
        (.current records, some (bytes.take records.validLen))
      else (.invalidatedVersion header, none)

/-- The file a compaction leaves when its rename goes through; `none` is the panic on 4 GiB. -/
def compact (L : CacheLibraries) (emitter : UInt64) (bytes : List UInt8) : Option (List UInt8) :=
  if isCurrent bytes then
    let records := readRecords L emitter bytes
    if records.needsCompaction then do
      let bundle ← writeBundle L records.shaders records.pipelines
      some (writeHeader ++ bundle)
    else some bytes
  else some bytes

/-- How one append ends: refused before the file is opened, torn after some bytes, or complete. -/
inductive WriteEnd
  | refused
  | torn (written : ℕ)
  | complete
  deriving DecidableEq, Repr

def WriteEnd.reached (data : List UInt8) : WriteEnd → List UInt8
  | refused => []
  | torn written => data.take written
  | complete => data

/-- The file an append leaves and whether it returned success. An empty file gets the header first; any
    other file is only asked for its header. -/
def appendBytes (chunk : List UInt8) (outcome : WriteEnd) (file : DataFile) : DataFile × Bool :=
  if outcome = .refused then (file, false)
  else
    let bytes := file.getD []
    if bytes.isEmpty then (some (outcome.reached (writeHeader ++ chunk)), outcome == .complete)
    else if isCurrent (bytes.take headerLen) then
      (some (bytes ++ outcome.reached chunk), outcome == .complete)
    else (some bytes, false)

end ShaderCache

end Mtld3d
