import Mtld3d.ShaderCacheCompact

namespace Mtld3d.ShaderCache

open List Lib Chunk ShaderCache

inductive CacheOp
  | append (record : PlainRecord) (outcome : WriteEnd)
  | load
  | compact (renamed : Bool)

/-- One call, by a process whose translator has fingerprint `emitter`. -/
structure CacheCall where
  emitter : UInt64
  op : CacheOp

/-- The file, the records whose chunks it holds whole, and those of them whose append returned success and that no
compaction has removed since. -/
structure CacheRun where
  file : DataFile
  held : List PlainRecord
  acked : List PlainRecord

def CacheRun.start : CacheRun := ⟨none, [], []⟩

def WriteEnd.whole (data : List UInt8) : WriteEnd → Bool
  | refused => false
  | torn written => data.length ≤ written
  | complete => true

/-- The append leaves its whole chunk in the file, whether or not it returns success. -/
def landed (chunk : List UInt8) (outcome : WriteEnd) (file : DataFile) : Bool :=
  let bytes := file.getD []
  if bytes.isEmpty then outcome.whole (writeHeader ++ chunk)
  else isCurrent (bytes.take headerLen) && outcome.whole chunk

def CacheOp.record? : CacheOp → Option PlainRecord
  | append record _ => some record
  | _ => none

def currentRef (emitter : UInt64) (acked : List PlainRecord) (r : ShaderRecordRef) : Bool :=
  (entriesOf acked).any fun e ↦ e.reference == r && !e.needsRegeneration emitter

def isLive (emitter : UInt64) (acked : List PlainRecord) : PlainRecord → Bool
  | .shader e => !e.needsRegeneration emitter
  | .pipeline recipe => currentRef emitter acked recipe.vs && currentRef emitter acked recipe.ps

def stillCurrent (emitter : UInt64) (acked : List PlainRecord) : List PlainRecord :=
  acked.filter (isLive emitter acked)

/-- The records of the one bundle a compaction writes. -/
def rewritten (L : CacheLibraries) (emitter : UInt64) (held : List PlainRecord) : List PlainRecord :=
  let sel := held.foldl (Selection.pushRecord L .currentEmitter emitter) Selection.empty
  (bundle sel.shaders sel.resolved).records

/-- What a compaction leaves: a shader while an entry of its version stands for its identity, and a recipe while
some entry stands for each of its shaders. -/
def keeps (emitter : UInt64) (held : List PlainRecord) : PlainRecord → Bool
  | .shader e => (winner emitter (entriesOf held) e.reference).any fun w ↦ w.emitterVersion == e.emitterVersion
  | .pipeline recipe =>
    (winner emitter (entriesOf held) recipe.vs).isSome && (winner emitter (entriesOf held) recipe.ps).isSome

def CacheRun.step (L : CacheLibraries) (run : CacheRun) (call : CacheCall) : CacheRun :=
  match call.op with
  | .append record outcome =>
    match (single record).write L with
    | some chunk =>
      let after := appendBytes chunk outcome run.file
      { file := after.1
        held := if landed chunk outcome run.file then run.held ++ [record] else run.held
        acked := if after.2 then run.acked ++ [record] else run.acked }
    | none => run
  | .load => { run with file := (load L call.emitter run.file).2 }
  | .compact renamed =>
    let file := if renamed then run.file.map fun bytes ↦ (compact L call.emitter bytes).getD bytes else run.file
    if file = run.file then run
    else ⟨file, rewritten L call.emitter run.held, run.acked.filter (keeps call.emitter run.held)⟩

def Traversable (L : CacheLibraries) (emitter : UInt64) (file : DataFile) : Prop :=
  ∀ bytes, file = some bytes → isCurrent bytes = true → (readRecords L emitter bytes).validLen = bytes.length

def AppendsTraversable (L : CacheLibraries) : CacheRun → List CacheCall → Prop
  | _, [] => True
  | run, call :: calls =>
    (call.op.record?.isSome = true → Traversable L call.emitter run.file) ∧
      AppendsTraversable L (run.step L call) calls

/-- The next load returns the record; for a shader, one that was appended with its identity and its version. -/
def Returned (L : CacheLibraries) (emitter : UInt64) (appended : List PlainRecord) (record : PlainRecord)
    (file : DataFile) : Prop :=
  ∃ out, (load L emitter file).1 = .current out ∧
    match record with
    | .shader e => ∃ w ∈ out.shaders, .shader w ∈ appended ∧ w.reference = e.reference ∧
        w.emitterVersion = e.emitterVersion
    | .pipeline recipe => recipe ∈ out.pipelines

/-- The file holds `records`: nothing yet, a header cut short, or whole chunks and a torn tail. -/
inductive Holds (L : CacheLibraries) : DataFile → List PlainRecord → Prop
  | missing : Holds L none []
  | header {n : ℕ} (hn : n < headerLen) : Holds L (some (writeHeader.take n)) []
  | body {chunks : List Chunk} {blobs : List (List UInt8)} {tail : List UInt8}
      (hv : ∀ c ∈ chunks, ∀ r ∈ c.records, r.Valid L) (hw : chunks.mapM (Chunk.write L) = some blobs)
      (htail : nextChunk L tail = .incomplete) :
      Holds L (some (writeHeader ++ (blobs.flatten ++ tail))) (recordsOf chunks)

variable {L : CacheLibraries} {emitter : UInt64} {records : List PlainRecord} {record : PlainRecord}
  {chunks : List Chunk} {blobs : List (List UInt8)} {chunk : List UInt8} {file : DataFile}

theorem readHeader_short {n : ℕ} (hn : n < headerLen) : readHeader (writeHeader.take n) = none := by
  have hlen : (writeHeader.take n).length < headerLen := by
    rw [length_take]
    omega
  rw [readHeader, if_pos (.inl hlen)]

theorem mapM_snoc {c : Chunk} (hw : chunks.mapM (Chunk.write L) = some blobs) (hc : c.write L = some chunk) :
    (chunks ++ [c]).mapM (Chunk.write L) = some (blobs ++ [chunk]) := by
  simp [mapM_append, hw, hc]

theorem Holds.write (hv : ∀ c ∈ chunks, ∀ r ∈ c.records, r.Valid L)
    (hw : chunks.mapM (Chunk.write L) = some blobs) (hrecord : record.Valid L)
    (hchunk : (single record).write L = some chunk) (n : ℕ) :
    Holds L (some (writeHeader ++ (blobs.flatten ++ chunk.take n)))
      (if chunk.length ≤ n then recordsOf chunks ++ [record] else recordsOf chunks) := by
  have hone : ∀ r ∈ (single record).records, r.Valid L := by
    intro r hr
    cases mem_singleton.mp hr
    exact hrecord
  by_cases hn : chunk.length ≤ n
  · have hall : ∀ c ∈ chunks ++ [single record], ∀ r ∈ c.records, r.Valid L := by
      intro c hc
      rcases mem_append.mp hc with hc | hc
      · exact hv c hc
      · cases mem_singleton.mp hc
        exact hone
    have hbody := Holds.body hall (mapM_snoc hw hchunk) nextChunk_nil
    have hbytes : (blobs ++ [chunk]).flatten ++ [] = blobs.flatten ++ chunk.take n := by
      simp [take_of_length_le hn]
    rw [hbytes] at hbody
    have hrecords : recordsOf (chunks ++ [single record]) = recordsOf chunks ++ [record] := by
      simp [recordsOf, records]
    rw [hrecords] at hbody
    rwa [if_pos hn]
  · obtain ⟨frame, rfl⟩ := exists_frame hone hchunk
    rw [if_neg hn]
    exact .body hv hw (nextChunk_torn frame.kind_ne frame.length_lt (Nat.lt_of_not_le hn))

theorem reached_eq_take (data : List UInt8) {outcome : WriteEnd} (h : outcome ≠ .refused) :
    ∃ n, outcome.reached data = data.take n ∧ (outcome.whole data = true ↔ data.length ≤ n) := by
  cases outcome with
  | refused => exact absurd rfl h
  | torn n => exact ⟨n, rfl, decide_eq_true_iff⟩
  | complete => exact ⟨data.length, (take_length).symm, iff_of_true rfl le_rfl⟩

theorem Holds.create (hrecord : record.Valid L) (hchunk : (single record).write L = some chunk) (n : ℕ) :
    Holds L (some ((writeHeader ++ chunk).take n))
      (if (writeHeader ++ chunk).length ≤ n then [] ++ [record] else []) := by
  by_cases hn : n < headerLen
  · have hbytes : (writeHeader ++ chunk).take n = writeHeader.take n := by
      rw [take_append_of_le_length (by rw [length_writeHeader]; omega)]
    rw [hbytes, if_neg (by rw [length_append, length_writeHeader]; omega)]
    exact .header hn
  · have hbytes : (writeHeader ++ chunk).take n = writeHeader ++ ([].flatten ++ chunk.take (n - headerLen)) := by
      rw [take_append, take_of_length_le (by rw [length_writeHeader]; omega), length_writeHeader]
      rfl
    have hwhole : (writeHeader ++ chunk).length ≤ n ↔ chunk.length ≤ n - headerLen := by
      rw [length_append, length_writeHeader]
      omega
    have hnone : ∀ c ∈ ([] : List Chunk), ∀ r ∈ c.records, r.Valid L := fun c hc ↦ by cases hc
    simp only [hbytes, hwhole]
    exact Holds.write hnone rfl hrecord hchunk (n - headerLen)

theorem appendBytes_header (rest chunk : List UInt8) {outcome : WriteEnd} (h : outcome ≠ .refused) :
    appendBytes chunk outcome (some (writeHeader ++ rest)) =
        (some (writeHeader ++ (rest ++ outcome.reached chunk)), outcome == .complete) ∧
      landed chunk outcome (some (writeHeader ++ rest)) = outcome.whole chunk := by
  have hnonempty : (writeHeader ++ rest).isEmpty = false := rfl
  have htake : (writeHeader ++ rest).take headerLen = writeHeader ++ [] := by
    rw [← length_writeHeader, take_left, append_nil]
  constructor
  · simp only [appendBytes, if_neg h, Option.getD_some, hnonempty, htake, isCurrent_header, Bool.false_eq_true,
      if_false, if_true, append_assoc]
  · simp only [landed, Option.getD_some, hnonempty, htake, isCurrent_header, Bool.false_eq_true, if_false,
      Bool.true_and]

theorem landed_of_success {outcome : WriteEnd} (h : (appendBytes chunk outcome file).2 = true) :
    landed chunk outcome file = true := by
  unfold appendBytes at h
  unfold landed
  dsimp only at h ⊢
  split_ifs at h with hrefused hempty hcurrent
  · rw [if_pos hempty, beq_iff_eq.mp h]
    rfl
  · rw [if_neg hempty, hcurrent, beq_iff_eq.mp h]
    rfl

theorem validLen_body {tail : List UInt8} (emitter : UInt64) (hv : ∀ c ∈ chunks, ∀ r ∈ c.records, r.Valid L)
    (hw : chunks.mapM (Chunk.write L) = some blobs) (htail : nextChunk L tail = .incomplete) :
    (readRecords L emitter (writeHeader ++ (blobs.flatten ++ tail))).validLen =
      (writeHeader ++ blobs.flatten).length := by
  rw [readRecords, parseRecords_written _ _ hv hw htail]
  simp only [ParseState.finish, length_append]
  omega

theorem Holds.append (h : Holds L file records) (ht : Traversable L emitter file) (hrecord : record.Valid L)
    (hchunk : (single record).write L = some chunk) (outcome : WriteEnd) :
    Holds L (appendBytes chunk outcome file).1
      (if landed chunk outcome file then records ++ [record] else records) := by
  by_cases hrefused : outcome = .refused
  · subst hrefused
    have hnone : landed chunk .refused file = false := by simp [landed, WriteEnd.whole]
    rw [appendBytes, if_pos rfl, hnone]
    exact h
  · obtain ⟨n, hreached, hwhole⟩ := reached_eq_take (writeHeader ++ chunk) hrefused
    have hcreated := Holds.create hrecord hchunk n
    simp only [← hreached, ← hwhole] at hcreated
    cases h with
    | missing =>
      rw [appendBytes, if_neg hrefused]
      exact hcreated
    | @header k hk =>
      rw [appendBytes, landed, if_neg hrefused]
      by_cases hempty : (writeHeader.take k).isEmpty = true
      · simp only [Option.getD_some, if_pos hempty]
        exact hcreated
      · have hold : isCurrent ((writeHeader.take k).take headerLen) = false := by
          rw [take_take, min_eq_right hk.le]
          simp [isCurrent, readHeader_short hk]
        simp only [Option.getD_some, if_neg hempty, hold, Bool.false_and, Bool.false_eq_true, if_false]
        exact .header hk
    | @body chunks blobs tail hv hw htail =>
      have hlen := (validLen_body emitter hv hw htail).symm.trans (ht _ rfl (isCurrent_header _))
      have hnil : tail = [] := by
        rw [length_append, length_append, length_append] at hlen
        exact eq_nil_of_length_eq_zero (by omega)
      subst hnil
      obtain ⟨m, hpart, hwhole⟩ := reached_eq_take chunk hrefused
      obtain ⟨hbytes, hlanded⟩ := appendBytes_header blobs.flatten chunk hrefused
      simp only [append_nil, hbytes, hlanded, hwhole, hpart]
      exact Holds.write hv hw hrecord hchunk m

theorem Holds.load (h : Holds L file records) (emitter : UInt64) :
    Holds L (load L emitter file).2 records := by
  cases h with
  | missing => exact .missing
  | @header n hn =>
    simp only [load, readHeader_short hn]
    exact .missing
  | @body chunks blobs tail hv hw htail =>
    have hcut : (writeHeader ++ (blobs.flatten ++ tail)).take (writeHeader ++ blobs.flatten).length =
        writeHeader ++ (blobs.flatten ++ []) := by
      rw [← append_assoc, take_left, append_nil]
    have hread : readHeader (writeHeader ++ (blobs.flatten ++ tail)) = some CacheHeader.current :=
      beq_iff_eq.mp (isCurrent_header _)
    simp only [load, hread, if_true, validLen_body emitter hv hw htail, hcut]
    exact .body hv hw nextChunk_nil

theorem Holds.returns (h : Holds L file records) (hne : records ≠ []) (emitter : UInt64) :
    ∃ bytes, file = some bytes ∧ isCurrent bytes = true ∧
      (ShaderCache.load L emitter file).1 = .current (readRecords L emitter bytes) ∧
      Returns L emitter records (readRecords L emitter bytes) := by
  cases h with
  | missing => exact absurd rfl hne
  | header hn => exact absurd rfl hne
  | @body chunks blobs tail hv hw htail =>
    have hread : readHeader (writeHeader ++ (blobs.flatten ++ tail)) = some CacheHeader.current :=
      beq_iff_eq.mp (isCurrent_header _)
    refine ⟨_, rfl, isCurrent_header _, ?_, ?_⟩
    · simp [ShaderCache.load, hread]
    · rw [readRecords, parseRecords_written _ _ hv hw htail]
      exact (selected_readChunks chunks).returns rfl rfl

theorem Holds.valid (h : Holds L file records) : ∀ r ∈ records, r.Valid L := by
  cases h with
  | missing => exact fun r hr ↦ by cases hr
  | header hn => exact fun r hr ↦ by cases hr
  | body hv hw htail =>
    intro r hr
    obtain ⟨c, hc, hr⟩ := mem_flatMap.mp hr
    exact hv c hc r hr

def NoCollision (L : CacheLibraries) (records : List PlainRecord) : Prop :=
  ∀ p q, .pipeline p ∈ records → .pipeline q ∈ records → p.diskKey L = q.diskKey L → p = q

theorem NoCollision.mono {records' : List PlainRecord} (h : NoCollision L records') (hsub : records ⊆ records') :
    NoCollision L records := fun p q hp hq ↦ h p q (hsub hp) (hsub hq)

/-- What the file holds stands for every acknowledged record. -/
structure Covers (records acked : List PlainRecord) : Prop where
  shaders : ∀ e, .shader e ∈ acked →
    ∃ w, .shader w ∈ records ∧ w.reference = e.reference ∧ w.emitterVersion = e.emitterVersion
  pipelines : ∀ p, .pipeline p ∈ acked → .pipeline p ∈ records

variable {acked : List PlainRecord}

theorem Covers.mono {records' : List PlainRecord} (h : Covers records acked) (hsub : records ⊆ records') :
    Covers records' acked where
  shaders := fun e he ↦ by
    obtain ⟨w, hw, hsame⟩ := h.shaders e he
    exact ⟨w, hsub hw, hsame⟩
  pipelines := fun p hp ↦ hsub (h.pipelines p hp)

theorem Covers.snoc (h : Covers records acked) (hr : record ∈ records) : Covers records (acked ++ [record]) where
  shaders := fun e he ↦ by
    rcases mem_append.mp he with he | he
    · exact h.shaders e he
    · cases mem_singleton.mp he
      exact ⟨e, hr, rfl, rfl⟩
  pipelines := fun p hp ↦ by
    rcases mem_append.mp hp with hp | hp
    · exact h.pipelines p hp
    · cases mem_singleton.mp hp
      exact hr

variable {out : CacheRecords}

theorem Covers.returned_shader (h : Covers records acked)
    (hout : Returns L emitter records out) {e : CacheEntry} (he : .shader e ∈ acked)
    (hcur : e.needsRegeneration emitter = false) :
    ∃ w ∈ out.shaders, .shader w ∈ records ∧ w.reference = e.reference ∧ w.emitterVersion = e.emitterVersion := by
  obtain ⟨v, hv, href, hversion⟩ := h.shaders e he
  have hvcur : v.needsRegeneration emitter = false := by
    rw [CacheEntry.needsRegeneration, hversion]
    exact hcur
  obtain ⟨w, hw, hwcur⟩ := exists_winner_current (mem_entriesOf.mpr hv) hvcur
  have hwref := reference_of_winner hw
  refine ⟨w, (hout.mem_shaders w).mpr (by rw [hwref]; exact hw), mem_entriesOf.mp (mem_of_winner hw),
    hwref.trans href, ?_⟩
  have hsame : ∀ a : CacheEntry, a.needsRegeneration emitter = false → a.emitterVersion = emitter := by
    intro a ha
    simpa [CacheEntry.needsRegeneration] using ha
  rw [hsame w hwcur, hsame e hcur]

theorem Covers.returned_ref (h : Covers records acked)
    (hout : Returns L emitter records out) {r : ShaderRecordRef} (hr : currentRef emitter acked r = true) :
    ∃ w ∈ out.shaders, w.reference = r := by
  obtain ⟨e, he, hlive⟩ := any_eq_true.mp hr
  rw [Bool.and_eq_true, beq_iff_eq] at hlive
  obtain ⟨w, hw, -, href, -⟩ := h.returned_shader hout (mem_entriesOf.mp he) (by simpa using hlive.2)
  exact ⟨w, hw, href.trans hlive.1⟩

theorem Covers.returned_pipeline (h : Covers records acked) (hcol : NoCollision L records)
    (hout : Returns L emitter records out) {p : PipelineRecipe} (hp : .pipeline p ∈ acked)
    (hvs : ∃ w ∈ out.shaders, w.reference = p.vs) (hps : ∃ w ∈ out.shaders, w.reference = p.ps) :
    p ∈ out.pipelines := by
  have hmem := h.pipelines p hp
  obtain ⟨q, hq⟩ := exists_lookup (PipelineRecipe.diskKey L) (mem_recipesOf.mpr hmem)
  have hsame : q = p := hcol q p (mem_recipesOf.mp (mem_of_lookup hq)) hmem (key_of_lookup hq)
  exact (hout.mem_pipelines p).mpr ⟨by rw [hq, hsame], hvs, hps⟩

theorem rewritten_returns (L : CacheLibraries) (emitter : UInt64) (held : List PlainRecord) :
    ∃ out, Returns L emitter held out ∧ rewritten L emitter held = (bundle out.shaders out.pipelines).records :=
  ⟨⟨_, _, false, 0⟩, (Selected.empty.pushAll held).returns rfl rfl, rfl⟩

/-- A compaction makes up no record, and leaves one for every acknowledged record it keeps. -/
theorem Covers.rewritten (h : Covers records acked) (hcol : NoCollision L records) (emitter : UInt64) :
    rewritten L emitter records ⊆ records ∧
      Covers (rewritten L emitter records) (acked.filter (keeps emitter records)) := by
  obtain ⟨out, hout, hrewritten⟩ := rewritten_returns L emitter records
  have href {r : ShaderRecordRef} {w : CacheEntry} (hw : winner emitter (entriesOf records) r = some w) :
      w ∈ out.shaders ∧ w.reference = r := by
    have hwref := reference_of_winner hw
    exact ⟨(hout.mem_shaders w).mpr (by rw [hwref]; exact hw), hwref⟩
  rw [hrewritten]
  refine ⟨hout.subset, fun e he ↦ ?_, fun p hp ↦ ?_⟩
  · obtain ⟨w, hw, hversion⟩ := (Option.any_eq_true _ _).mp (mem_filter.mp he).2
    exact ⟨w, mem_append_left _ (mem_map_of_mem (href hw).1), (href hw).2, beq_iff_eq.mp hversion⟩
  · obtain ⟨hp, hkept⟩ := mem_filter.mp hp
    obtain ⟨hvs, hps⟩ := Bool.and_eq_true_iff.mp hkept
    obtain ⟨v, hv⟩ := Option.isSome_iff_exists.mp hvs
    obtain ⟨w, hw⟩ := Option.isSome_iff_exists.mp hps
    exact mem_append_right _ (mem_map_of_mem (h.returned_pipeline hcol hout hp ⟨v, href hv⟩ ⟨w, href hw⟩))

theorem recordsOf_singleton (c : Chunk) : recordsOf [c] = c.records := by
  simp [recordsOf]

/-- A compaction leaves the file as it is, or with the records of its bundle. -/
theorem Holds.compact (h : Holds L file records) (emitter : UInt64) :
    (file.map fun bytes ↦ (compact L emitter bytes).getD bytes) = file ∨
      Holds L (file.map fun bytes ↦ (compact L emitter bytes).getD bytes)
        (rewritten L emitter records) := by
  cases h with
  | missing => exact .inl rfl
  | @header n hn =>
    have hcurrent : isCurrent (writeHeader.take n) = false := by simp [isCurrent, readHeader_short hn]
    simp [compact, hcurrent]
  | @body chunks blobs tail hv hw htail =>
    have hbody := Holds.body hv hw htail
    have hcurrent := isCurrent_header (blobs.flatten ++ tail)
    have hread : (bundle (readRecords L emitter (writeHeader ++ (blobs.flatten ++ tail))).shaders
        (readRecords L emitter (writeHeader ++ (blobs.flatten ++ tail))).pipelines).records =
          rewritten L emitter (recordsOf chunks) := by
      rw [readRecords, parseRecords_written _ _ hv hw htail, rewritten]
      simp only [ParseState.finish, readChunks_selection]
      rfl
    rw [Option.map_some]
    generalize writeHeader ++ (blobs.flatten ++ tail) = bytes at hbody hcurrent hread
    by_cases hneeds : (readRecords L emitter bytes).needsCompaction = true
    · cases hbundle : writeBundle L (readRecords L emitter bytes).shaders (readRecords L emitter bytes).pipelines with
      | none => simp [compact, hcurrent, hneeds, hbundle]
      | some bundle =>
        rw [compact_of_needs hcurrent hneeds hbundle]
        obtain ⟨out, hout, hrewritten⟩ := rewritten_returns L emitter (recordsOf chunks)
        have hvalid : ∀ c ∈ [Chunk.bundle (readRecords L emitter bytes).shaders
            (readRecords L emitter bytes).pipelines], ∀ r ∈ c.records, r.Valid L := by
          intro c hc r hr
          cases mem_singleton.mp hc
          rw [hread, hrewritten] at hr
          exact hbody.valid r (hout.subset r hr)
        have hwrite : [Chunk.bundle (readRecords L emitter bytes).shaders
            (readRecords L emitter bytes).pipelines].mapM (Chunk.write L) = some [bundle] := by
          simp [Chunk.write, hbundle]
        have hnew := Holds.body hvalid hwrite nextChunk_nil
        rw [recordsOf_singleton, hread, flatten_singleton, append_nil] at hnew
        exact .inr hnew
    · simp [compact, hneeds]

structure RunInv (L : CacheLibraries) (all : List PlainRecord) (run : CacheRun) : Prop where
  holds : Holds L run.file run.held
  subset : run.held ⊆ all
  covers : Covers run.held run.acked

variable {all : List PlainRecord} {run : CacheRun}

theorem RunInv.start : RunInv L all CacheRun.start :=
  ⟨.missing, nil_subset _, ⟨(fun _ he ↦ nomatch he), fun _ hp ↦ nomatch hp⟩⟩

theorem RunInv.append (h : RunInv L all run) (ht : Traversable L emitter run.file) (hvalid : record.Valid L)
    (hmem : record ∈ all) (outcome : WriteEnd) : RunInv L all (run.step L ⟨emitter, .append record outcome⟩) := by
  simp only [CacheRun.step]
  split
  · rename_i chunk hchunk
    have hgrown : run.held ⊆ run.held ++ [record] := subset_append_left _ _
    refine ⟨h.holds.append ht hvalid hchunk outcome, ?_, ?_⟩
    · dsimp only
      split_ifs
      · exact append_subset.mpr ⟨h.subset, by simpa using hmem⟩
      · exact h.subset
    · dsimp only
      split_ifs with hlanded hdone hdone
      · exact (h.covers.mono hgrown).snoc (mem_append_right _ (mem_singleton_self _))
      · exact h.covers.mono hgrown
      · exact absurd (landed_of_success hdone) hlanded
      · exact h.covers
  · exact h

theorem RunInv.load (h : RunInv L all run) (emitter : UInt64) : RunInv L all (run.step L ⟨emitter, .load⟩) :=
  ⟨h.holds.load emitter, h.subset, h.covers⟩

theorem RunInv.compact (h : RunInv L all run) (hcol : NoCollision L all) (emitter : UInt64) (renamed : Bool) :
    RunInv L all (run.step L ⟨emitter, .compact renamed⟩) := by
  cases renamed with
  | false =>
    simp only [CacheRun.step, Bool.false_eq_true, if_false, if_true]
    exact h
  | true =>
    simp only [CacheRun.step, if_true]
    split_ifs with hsame
    · exact h
    · obtain ⟨hsub, hcovers⟩ := h.covers.rewritten (hcol.mono h.subset) emitter
      exact ⟨(h.holds.compact emitter).resolve_left hsame, fun r hr ↦ h.subset (hsub hr), hcovers⟩

def appended (calls : List CacheCall) : List PlainRecord := calls.filterMap fun call ↦ call.op.record?

theorem RunInv.calls {calls : List CacheCall} (h : RunInv L all run) (hcol : NoCollision L all)
    (hvalid : ∀ r ∈ all, r.Valid L) (hsub : appended calls ⊆ all) (ht : AppendsTraversable L run calls) :
    RunInv L all (calls.foldl (CacheRun.step L) run) := by
  induction calls generalizing run with
  | nil => exact h
  | cons call calls ih =>
    obtain ⟨emitter, op⟩ := call
    have hrest : appended calls ⊆ all := fun r hr ↦ hsub (by
      obtain ⟨c, hc, hr⟩ := mem_filterMap.mp hr
      exact mem_filterMap.mpr ⟨c, mem_cons_of_mem _ hc, hr⟩)
    refine ih ?_ hrest ht.2
    cases op with
    | append record outcome =>
      have hmem : record ∈ all := hsub (mem_filterMap.mpr ⟨_, mem_cons_self, rfl⟩)
      exact h.append (ht.1 rfl) (hvalid record hmem) hmem outcome
    | load => exact h.load emitter
    | compact renamed => exact h.compact hcol emitter renamed

/-- In a run whose appends all start on a traversable file, the next load returns every acknowledged record that is
still current and that no compaction has removed. -/
theorem acknowledged_returned (calls : List CacheCall) (hvalid : ∀ r ∈ appended calls, r.Valid L)
    (hcol : NoCollision L (appended calls)) (ht : AppendsTraversable L CacheRun.start calls) (emitter : UInt64) :
    ∀ r ∈ stillCurrent emitter (calls.foldl (CacheRun.step L) CacheRun.start).acked,
      Returned L emitter (appended calls) r (calls.foldl (CacheRun.step L) CacheRun.start).file := by
  intro r hr
  have hinv := RunInv.calls RunInv.start hcol hvalid (fun r hr ↦ hr) ht
  generalize calls.foldl (CacheRun.step L) CacheRun.start = run at hinv hr ⊢
  obtain ⟨hr, hlive⟩ := mem_filter.mp hr
  -- An acknowledged record is covered by a held one, so the file is not the empty cache.
  have hne : run.held ≠ [] := by
    intro hnil
    have hcovers := hinv.covers
    rw [hnil] at hcovers
    cases r with
    | shader e =>
      obtain ⟨w, hw, -⟩ := hcovers.shaders e hr
      cases hw
    | pipeline p => cases hcovers.pipelines p hr
  obtain ⟨bytes, -, -, hload, hreturns⟩ := hinv.holds.returns hne emitter
  refine ⟨_, hload, ?_⟩
  cases r with
  | shader e =>
    obtain ⟨w, hw, hheld, hsame⟩ := hinv.covers.returned_shader hreturns hr (by simpa [isLive] using hlive)
    exact ⟨w, hw, hinv.subset hheld, hsame⟩
  | pipeline p =>
    obtain ⟨hvs, hps⟩ := Bool.and_eq_true_iff.mp hlive
    exact hinv.covers.returned_pipeline (hcol.mono hinv.subset) hreturns hr
      (hinv.covers.returned_ref hreturns hvs) (hinv.covers.returned_ref hreturns hps)

def tornRun : List CacheCall :=
  [⟨1, .append (.shader fixedFunctionEntry) (.torn 17)⟩, ⟨1, .append (.shader fixedFunctionEntry) .complete⟩]

/-- The file after `tornRun`: one byte of the first chunk, then the second chunk. -/
def tornBytes : List UInt8 :=
  let chunk := chunkBytes plainLibraries CachedKind.ffVs.toByte 7 fixedFunctionEntry.encode
  writeHeader ++ (chunk.take 1 ++ chunk)

theorem tornRun_file : tornRun.foldl (CacheRun.step plainLibraries) CacheRun.start =
    ⟨some tornBytes, [.shader fixedFunctionEntry], [.shader fixedFunctionEntry]⟩ := by
  rfl

theorem tornRun_lost :
    .shader fixedFunctionEntry ∈
        stillCurrent 1 (tornRun.foldl (CacheRun.step plainLibraries) CacheRun.start).acked ∧
      ¬Returned plainLibraries 1 (appended tornRun) (.shader fixedFunctionEntry)
        (tornRun.foldl (CacheRun.step plainLibraries) CacheRun.start).file := by
  have hstop : nextChunk plainLibraries (tornBytes.drop headerLen) = .incomplete := by
    rfl
  have hread : (readRecords plainLibraries 1 tornBytes).shaders = [] := by
    unfold readRecords parseRecords
    rw [if_neg (by decide), parseChunks_incomplete hstop]
    rfl
  have hload : (load plainLibraries 1 (some tornBytes)).1 = .current (readRecords plainLibraries 1 tornBytes) := by
    rfl
  rw [tornRun_file]
  refine ⟨mem_singleton_self _, ?_⟩
  rintro ⟨out, hout, w, hw, -⟩
  rw [hload] at hout
  cases hout
  rw [hread] at hw
  cases hw

theorem traversable_body (emitter : UInt64) (hv : ∀ c ∈ chunks, ∀ r ∈ c.records, r.Valid L)
    (hw : chunks.mapM (Chunk.write L) = some blobs) : Traversable L emitter (some (writeHeader ++ blobs.flatten)) := by
  intro bytes hbytes _
  obtain rfl := Option.some.inj hbytes
  have hlen := validLen_body emitter hv hw nextChunk_nil
  rwa [append_nil] at hlen

theorem step_complete (hchunk : (single record).write L = some chunk) (emitter : UInt64) (rest : List UInt8)
    (held acked : List PlainRecord) :
    CacheRun.step L ⟨some (writeHeader ++ rest), held, acked⟩ ⟨emitter, .append record .complete⟩ =
      ⟨some (writeHeader ++ (rest ++ chunk)), held ++ [record], acked ++ [record]⟩ := by
  obtain ⟨hbytes, hlanded⟩ := appendBytes_header rest chunk (by decide : WriteEnd.complete ≠ .refused)
  simp only [CacheRun.step, hchunk, hbytes, hlanded]
  rfl

def drawRun : List CacheCall :=
  [⟨1, .append (.shader (vertexEntry 1)) .complete⟩, ⟨1, .append (.shader pixelEntry) .complete⟩,
    ⟨1, .append (.pipeline blendRecipe) .complete⟩, ⟨1, .append (.shader pixelEntry) (.torn 30)⟩]

/-- Two shaders and a recipe of them are returned after an append that fails. -/
theorem acknowledged_returned_draw :
    [PlainRecord.shader (vertexEntry 1), .shader pixelEntry, .pipeline blendRecipe].Forall fun r ↦
      Returned plainLibraries 1 (appended drawRun) r
        (drawRun.foldl (CacheRun.step plainLibraries) CacheRun.start).file := by
  have hvalid : ∀ r ∈ appended drawRun, r.Valid plainLibraries := by
    simp [appended, drawRun, CacheOp.record?, vertexEntry_valid, pixelEntry_valid, blendRecipe_valid]
  obtain ⟨a, ha⟩ : ∃ a, (single (.shader (vertexEntry 1))).write plainLibraries = some a :=
    Option.isSome_iff_exists.mp (by decide +kernel)
  obtain ⟨b, hb⟩ : ∃ b, (single (.shader pixelEntry)).write plainLibraries = some b :=
    Option.isSome_iff_exists.mp (by decide +kernel)
  obtain ⟨c, hc⟩ : ∃ c, (single (.pipeline blendRecipe)).write plainLibraries = some c :=
    Option.isSome_iff_exists.mp (by decide +kernel)
  have hfirst : CacheRun.step plainLibraries CacheRun.start ⟨1, .append (.shader (vertexEntry 1)) .complete⟩ =
      ⟨some (writeHeader ++ a), [.shader (vertexEntry 1)], [.shader (vertexEntry 1)]⟩ := by
    simp only [CacheRun.step, ha]
    rfl
  have hone : [single (.shader (vertexEntry 1))].mapM (Chunk.write plainLibraries) = some [a] := by simp [ha]
  have htwo := mapM_snoc hone hb
  have ht : AppendsTraversable plainLibraries CacheRun.start drawRun := by
    refine ⟨(fun _ _ h ↦ nomatch h), ?_⟩
    rw [hfirst]
    refine ⟨fun _ ↦ ?_, ?_⟩
    · simpa using traversable_body 1 (by simp [records, vertexEntry_valid]) hone
    rw [step_complete hb]
    refine ⟨fun _ ↦ ?_, ?_⟩
    · simpa using traversable_body 1 (by simp [records, vertexEntry_valid, pixelEntry_valid]) htwo
    rw [step_complete hc]
    refine ⟨fun _ ↦ ?_, trivial⟩
    simpa using traversable_body 1
      (by simp [records, vertexEntry_valid, pixelEntry_valid, blendRecipe_valid]) (mapM_snoc htwo hc)
  have hacked : (drawRun.foldl (CacheRun.step plainLibraries) CacheRun.start).acked =
      [.shader (vertexEntry 1), .shader pixelEntry, .pipeline blendRecipe] := by
    simp only [drawRun, foldl_cons, foldl_nil, hfirst, step_complete hb, step_complete hc]
    simp only [CacheRun.step, hb, appendBytes_header _ b (by decide : WriteEnd.torn 30 ≠ .refused)]
    rfl
  refine forall_iff_forall_mem.mpr fun r hr ↦ ?_
  refine acknowledged_returned drawRun hvalid ?_ ht 1 r ?_
  · intro p q hp hq _
    simp only [appended, drawRun, filterMap_cons, filterMap_nil, CacheOp.record?, mem_cons, reduceCtorEq, false_or,
      not_mem_nil, or_false, PlainRecord.pipeline.injEq] at hp hq
    rw [hp, hq]
  · rwa [hacked]

end Mtld3d.ShaderCache
