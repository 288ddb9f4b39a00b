import Mtld3d.Lib.Run
import Mtld3d.UploadRing

namespace Mtld3d

open List Lib Relation

structure RingRead where
  slice : Slice UInt8
  kind : CommandKind
  seq : ℕ

/-- The ring, the bytes of every buffer, all payloads handed out, the retirement counters and the command buffers
that have finished; buffers are numbered as they are allocated. -/
structure RingWorld where
  ring : UploadRing
  memory : ℕ → ℕ → UInt8
  reads : List RingRead
  counters : CommandKind → ℕ
  finished : List (CommandKind × ℕ)
  lastSeq : ℕ
  allocated : ℕ

inductive RingOp
  | write (stamp : SubmitStamp) (bytes : List UInt8) (align : ℕ) (allocates : Bool)
  | endSubmission (stamp : SubmitStamp)
  | finish (kind : CommandKind) (seq : ℕ)
  | publish (kind : CommandKind) (seq : ℕ)

namespace RingWorld

def new (memory : ℕ → ℕ → UInt8) : RingWorld := ⟨.new, memory, [], fun _ ↦ 0, [], 0, 0⟩

def tryWrite (w : RingWorld) (stamp : SubmitStamp) (len align : ℕ) (allocates : Bool) :
    Option (ℕ × ℕ) × UploadRing :=
  w.ring.write stamp w.counters (if allocates then some w.allocated else none) len align

def step (w : RingWorld) : RingOp → RingWorld
  | .write stamp bytes align allocates =>
    match w.tryWrite stamp bytes.length align allocates with
    | (none, ring) =>
      { w with
        ring := ring
        lastSeq := stamp.seq
        allocated := w.allocated + 1 }
    | (some (buffer, offset), ring) =>
      { w with
        ring := ring
        memory := writeChunk w.memory buffer offset bytes
        reads := ⟨⟨buffer, offset, bytes⟩, stamp.kind, stamp.seq⟩ :: w.reads
        lastSeq := stamp.seq
        allocated := w.allocated + 1 }
  | .endSubmission stamp => { w with ring := w.ring.endSubmission stamp w.counters }
  | .finish kind seq => { w with finished := (kind, seq) :: w.finished }
  | .publish kind seq =>
    { w with counters := Function.update w.counters kind (max (w.counters kind) seq) }

/-- Sequences do not decrease, a command buffer is written for until it finishes, payloads are addressable, and a
counter reaches a sequence once every command buffer up to it has finished, but never that of a submission without
counters. -/
def Enabled (w : RingWorld) : RingOp → Prop
  | .write stamp bytes align _ =>
    w.lastSeq ≤ stamp.seq ∧ 0 < stamp.seq ∧ (stamp.kind, stamp.seq) ∉ w.finished ∧
      bytes.length ≤ PointerWidth.bits64.isizeMax ∧ ∃ k, align = 2 ^ k
  | .endSubmission _ => True
  | .finish _ _ => True
  | .publish kind seq => seq < seqNever ∧ ∀ s, 0 < s → s ≤ seq → (kind, s) ∈ w.finished

def Reaches (memory : ℕ → ℕ → UInt8) (w : RingWorld) : Prop :=
  ReflTransGen (fun w w' ↦ ∃ op, w.Enabled op ∧ w' = w.step op) (new memory) w

def live (w : RingWorld) : List RingRead := w.reads.filter fun r ↦ decide (w.counters r.kind < r.seq)

variable {w : RingWorld} {stamp : SubmitStamp} {r : RingRead} {c : RingChunk}

theorem mem_live : r ∈ w.live ↔ r ∈ w.reads ∧ w.counters r.kind < r.seq := by
  simp [live]

/-- Live payloads lie behind the cursor of a chunk that remembers a use as late as theirs, unchanged and apart. -/
structure Inv (w : RingWorld) : Prop where
  nodup : w.ring.buffers.Nodup
  lt : ∀ b ∈ w.ring.buffers, b < w.allocated
  bytes : w.ring.chunkBytes ≤ UploadRing.maxChunkBytes
  held : ∀ r ∈ w.live, r.slice.chunk ∈ w.ring.buffers
  used : ∀ c ∈ w.ring.chunks, ∀ r ∈ w.live, r.slice.chunk = c.buffer →
    r.slice.stop ≤ c.cursor ∧ r.seq ≤ c.lastUse.of r.kind
  intact : Intact w.memory (w.live.map RingRead.slice)
  seqs : ∀ r ∈ w.reads, 0 < r.seq ∧ r.seq ≤ w.lastSeq
  counted : ∀ kind, w.counters kind < seqNever ∧ ∀ s, 0 < s → s ≤ w.counters kind → (kind, s) ∈ w.finished

theorem inv_new (memory : ℕ → ℕ → UInt8) : (new memory).Inv := by
  refine ⟨nodup_nil, ?_, Nat.zero_le _, ?_, ?_, .nil memory, ?_, fun kind ↦ ⟨Nat.zero_lt_succ _, fun s hs hle ↦ ?_⟩⟩
  · intro b hb
    cases hb
  · intro r hr
    cases hr
  · intro c hc
    cases hc
  · intro r hr
    cases hr
  · exact absurd hs (not_lt.2 hle)

theorem retired_le (stamp : SubmitStamp) (counters : CommandKind → ℕ) (kind : CommandKind) :
    stamp.retired counters kind ≤ counters kind := by
  cases kind <;> rw [SubmitStamp.retired] <;> split <;> omega

theorem le_of_retired {u : LastUse} {counters : CommandKind → ℕ} (h : u.retired stamp counters = true)
    (kind : CommandKind) : u.of kind ≤ counters kind := by
  rw [LastUse.retired, Bool.and_eq_true, Bool.or_eq_true, Bool.or_eq_true, beq_iff_eq, beq_iff_eq,
    decide_eq_true_eq, decide_eq_true_eq] at h
  have hle := retired_le stamp counters kind
  cases kind <;> rw [LastUse.of] <;> omega

theorem Inv.retired (h : w.Inv) (hc : c ∈ w.ring.chunks) (hretired : c.lastUse.retired stamp w.counters = true)
    (hr : r ∈ w.live) : r.slice.chunk ≠ c.buffer := by
  intro hchunk
  have hseq := (h.used c hc r hr hchunk).2.trans (le_of_retired hretired r.kind)
  exact absurd (mem_live.1 hr).2 (not_lt.2 hseq)

theorem Inv.endSubmission (h : w.Inv) (stamp : SubmitStamp) : (w.step (.endSubmission stamp)).Inv := by
  have hsub : (w.ring.endSubmission stamp w.counters).chunks.Sublist w.ring.chunks :=
    (List.Sublist.refl _).append (UploadRing.retainSpares_sublist _ _ _ _ _)
  refine ⟨h.nodup.sublist (hsub.map _), fun b hb ↦ h.lt b ((hsub.map _).subset hb), ?_, fun r hr ↦ ?_,
    fun c hc ↦ h.used c (hsub.subset hc), h.intact, h.seqs, h.counted⟩
  · have hle := h.bytes
    simp only [step, UploadRing.endSubmission]
    omega
  · obtain ⟨c, hc, hbuffer⟩ := mem_map.1 (h.held r hr)
    refine mem_map.2 ⟨c, ?_, hbuffer⟩
    obtain hactive | hspare := mem_append.1 hc
    · exact mem_append_left _ hactive
    · refine mem_append_right _ ?_
      by_contra hout
      exact h.retired hc (UploadRing.retired_of_dropped hspare hout) hr hbuffer.symm

theorem Inv.publish (h : w.Inv) {kind : CommandKind} {seq : ℕ} (hen : w.Enabled (.publish kind seq)) :
    (w.step (.publish kind seq)).Inv := by
  have hle : ∀ k, w.counters k ≤ (w.step (.publish kind seq)).counters k := by
    intro k
    simp only [step]
    by_cases hk : k = kind
    · rw [hk, Function.update_self]
      exact le_max_left _ _
    · rw [Function.update_of_ne hk]
  have hsub : (w.step (.publish kind seq)).live.Sublist w.live := by
    refine monotone_filter_right _ fun r hr ↦ ?_
    rw [decide_eq_true_eq] at hr ⊢
    exact (hle r.kind).trans_lt hr
  refine ⟨h.nodup, h.lt, h.bytes, fun r hr ↦ h.held r (hsub.subset hr), fun c hc r hr ↦ h.used c hc r (hsub.subset hr),
    h.intact.sublist (hsub.map _), h.seqs, fun k ↦ ?_⟩
  simp only [step]
  by_cases hk : k = kind
  · subst hk
    rw [Function.update_self]
    refine ⟨max_lt (h.counted k).1 hen.1, fun s hs hsle ↦ ?_⟩
    obtain hold | hnew := le_max_iff.1 hsle
    · exact (h.counted k).2 s hs hold
    · exact hen.2 s hs hnew
  · rw [Function.update_of_ne hk]
    exact h.counted k

theorem Inv.finish (h : w.Inv) (kind : CommandKind) (seq : ℕ) : (w.step (.finish kind seq)).Inv :=
  ⟨h.nodup, h.lt, h.bytes, h.held, h.used, h.intact, h.seqs, fun k ↦ ⟨(h.counted k).1, fun s hs hle ↦
    mem_cons_of_mem _ ((h.counted k).2 s hs hle)⟩⟩

theorem of_record_self (u : LastUse) (stamp : SubmitStamp) : (u.record stamp).of stamp.kind = stamp.seq := by
  cases h : stamp.kind <;> simp [LastUse.record, LastUse.of, h]

theorem of_record_of_ne (u : LastUse) {kind : CommandKind} (h : kind ≠ stamp.kind) :
    (u.record stamp).of kind = u.of kind := by
  cases kind <;> cases hk : stamp.kind <;> simp_all [LastUse.record, LastUse.of]

/-- A payload was placed: in the active chunk, behind every live payload there, with its use recorded; the chunks set
aside are as they were. -/
structure Placed (w : RingWorld) (stamp : SubmitStamp) (len buffer offset : ℕ) (ring : UploadRing) : Prop where
  buffers : ring.buffers.Perm w.ring.buffers ∨ ring.buffers.Perm (w.allocated :: w.ring.buffers)
  bytes : ring.chunkBytes = w.ring.chunkBytes
  active : ∃ c, ring.active = some c ∧ c.buffer = buffer ∧ c.cursor = offset + len ∧ offset + len ≤ c.capacity ∧
    c.lastUse.of stamp.kind = stamp.seq ∧ ∀ r ∈ w.live, r.slice.chunk = buffer →
      r.slice.stop ≤ offset ∧ r.seq ≤ c.lastUse.of r.kind
  spare : ∀ c ∈ ring.spare, c ∈ w.ring.chunks
  origin : (∃ c, w.ring.active = some c ∧ c.buffer = buffer ∧ c.cursor ≤ offset) ∨
    ∀ r ∈ w.live, r.slice.chunk ≠ buffer

variable {allocates : Bool}

theorem Inv.not_live_of_takes (h : w.Inv) {len : ℕ} {next : RingChunk} {rest : List RingChunk}
    (htakes : w.ring.Takes (if allocates then some w.allocated else none) stamp w.counters len next rest)
    (hr : r ∈ w.live) : r.slice.chunk ≠ next.buffer := by
  obtain ⟨hperm, hretired⟩ | ⟨hfresh, -⟩ := htakes.origin
  · have hnext : next ∈ w.ring.chunks := mem_append_right _ (hperm.mem_iff.2 mem_cons_self)
    exact h.retired hnext hretired hr
  · have hbuffer : w.allocated = next.buffer := by
      cases allocates with
      | true => exact Option.some.inj hfresh
      | false => cases hfresh
    rw [← hbuffer]
    exact (h.lt _ (h.held r hr)).ne

theorem Inv.placed_takes (h : w.Inv) {len : ℕ} {next : RingChunk} {rest : List RingChunk}
    (htakes : w.ring.Takes (if allocates then some w.allocated else none) stamp w.counters len next rest)
    (written : ℕ) : w.Placed stamp len next.buffer 0
      ⟨some ⟨next.buffer, next.capacity, len, LastUse.unused.record stamp⟩, rest ++ w.ring.active.toList,
        w.ring.chunkBytes, written⟩ := by
  refine ⟨?_, rfl, ⟨_, rfl, rfl, (zero_add len).symm, ?_, of_record_self _ stamp, fun r hr hchunk ↦ ?_⟩, ?_,
    .inr fun r hr ↦ h.not_live_of_takes htakes hr⟩
  · simp only [UploadRing.buffers, UploadRing.chunks, Option.toList_some, singleton_append, map_cons]
    obtain ⟨hperm, -⟩ | ⟨hfresh, rfl⟩ := htakes.origin
    · left
      have hmap := hperm.map RingChunk.buffer
      rw [map_append, map_append, ← cons_append]
      refine perm_append_comm.trans (.append_left _ ?_)
      rw [← map_cons]
      exact hmap.symm
    · right
      have hbuffer : w.allocated = next.buffer := by
        cases allocates with
        | true => exact Option.some.inj hfresh
        | false => cases hfresh
      rw [hbuffer]
      exact (perm_append_comm.map _).cons _
  · rw [zero_add]
    exact htakes.fits
  · exact absurd hchunk (h.not_live_of_takes htakes hr)
  · intro c hc
    obtain hrest | hactive := mem_append.1 hc
    · obtain ⟨hperm, -⟩ | ⟨-, rfl⟩ := htakes.origin
      · exact mem_append_right _ (hperm.mem_iff.2 (mem_cons_of_mem _ hrest))
      · exact mem_append_right _ hrest
    · exact mem_append_left _ hactive

variable {bytes : List UInt8}

theorem Inv.tryWrite_cases (h : w.Inv) {align : ℕ} (hen : w.Enabled (.write stamp bytes align allocates)) :
    (∃ written, w.tryWrite stamp bytes.length align allocates = (none, { w.ring with written := written })) ∨
    ∃ buffer offset ring, offset % align = 0 ∧ w.Placed stamp bytes.length buffer offset ring ∧
      w.tryWrite stamp bytes.length align allocates = (some (buffer, offset), ring) := by
  obtain ⟨hseq, -, -, hlen, k, rfl⟩ := hen
  have hsmall : bytes.length ≤ 2 ^ 63 := hlen.trans (by decide)
  obtain ⟨written, ⟨c, hc, hfits, heq⟩ | ⟨next, rest, htakes, heq⟩ | heq⟩ :=
    UploadRing.write_cases hsmall h.bytes stamp w.counters (if allocates then some w.allocated else none) (2 ^ k)
  · have hmem : c ∈ w.ring.chunks := mem_append_left _ (by rw [hc]; exact mem_cons_self)
    refine .inr ⟨_, _, _, nextMultipleOf_mod _ _, ?_, heq⟩
    refine ⟨.inl ?_, rfl, ⟨_, rfl, rfl, rfl, hfits, of_record_self _ stamp, fun r hr hchunk ↦ ?_⟩, fun d hd ↦ ?_,
      .inl ⟨c, hc, rfl, le_nextMultipleOf (Nat.two_pow_pos k)⟩⟩
    · rw [UploadRing.buffers, UploadRing.buffers, UploadRing.chunks, UploadRing.chunks, hc]
      exact .refl _
    · obtain ⟨hstop, huse⟩ := h.used c hmem r hr hchunk
      refine ⟨hstop.trans (le_nextMultipleOf (Nat.two_pow_pos k)), ?_⟩
      by_cases hkind : r.kind = stamp.kind
      · rw [hkind, of_record_self]
        exact (h.seqs r (mem_live.1 hr).1).2.trans hseq
      · rwa [of_record_of_ne _ hkind]
    · exact mem_append_right _ hd
  · exact .inr ⟨_, _, _, Nat.zero_mod _, h.placed_takes htakes written, heq⟩
  · exact .inl ⟨written, heq⟩

theorem Inv.counters_lt (h : w.Inv) {align : ℕ}
    (hen : w.Enabled (.write stamp bytes align allocates)) : w.counters stamp.kind < stamp.seq := by
  obtain ⟨-, hpos, hrunning, -⟩ := hen
  by_contra hle
  exact hrunning ((h.counted stamp.kind).2 stamp.seq hpos (not_lt.1 hle))

theorem Inv.place (h : w.Inv) {align : ℕ}
    (hen : w.Enabled (.write stamp bytes align allocates)) {buffer offset : ℕ} {ring : UploadRing}
    (hplaced : w.Placed stamp bytes.length buffer offset ring) :
    Inv ⟨ring, writeChunk w.memory buffer offset bytes, ⟨⟨buffer, offset, bytes⟩, stamp.kind, stamp.seq⟩ :: w.reads,
      w.counters, w.finished, stamp.seq, w.allocated + 1⟩ := by
  obtain ⟨c, hc, rfl, hcursor, hfits, hown, hbelow⟩ := hplaced.active
  have hchunks : ring.chunks = c :: ring.spare := by rw [UploadRing.chunks, hc]; rfl
  have hnew : w.allocated ∉ w.ring.buffers := fun hmem ↦ lt_irrefl _ (h.lt _ hmem)
  have hnodup : ring.buffers.Nodup := by
    obtain hperm | hperm := hplaced.buffers
    · exact hperm.nodup_iff.2 h.nodup
    · exact hperm.nodup_iff.2 (nodup_cons.2 ⟨hnew, h.nodup⟩)
  have hspare : ∀ d ∈ ring.spare, d.buffer ≠ c.buffer := by
    intro d hd heq
    rw [UploadRing.buffers, hchunks, map_cons, nodup_cons] at hnodup
    exact hnodup.1 (heq ▸ mem_map_of_mem hd)
  have hkept : ∀ b ∈ w.ring.buffers, b ∈ ring.buffers := by
    intro b hb
    obtain hperm | hperm := hplaced.buffers
    · exact hperm.mem_iff.2 hb
    · exact hperm.mem_iff.2 (mem_cons_of_mem _ hb)
  have hlive : live ⟨ring, writeChunk w.memory c.buffer offset bytes,
      ⟨⟨c.buffer, offset, bytes⟩, stamp.kind, stamp.seq⟩ :: w.reads, w.counters, w.finished, stamp.seq,
      w.allocated + 1⟩ = ⟨⟨c.buffer, offset, bytes⟩, stamp.kind, stamp.seq⟩ :: w.live :=
    filter_cons_of_pos (decide_eq_true (h.counters_lt hen))
  refine ⟨hnodup, fun b hb ↦ ?_, hplaced.bytes ▸ h.bytes, ?_, fun d hd ↦ ?_, ?_, ?_, h.counted⟩
  · obtain hperm | hperm := hplaced.buffers
    · exact Nat.lt_succ_of_lt (h.lt b (hperm.mem_iff.1 hb))
    · obtain rfl | hold := mem_cons.1 (hperm.mem_iff.1 hb)
      · exact Nat.lt_succ_self _
      · exact Nat.lt_succ_of_lt (h.lt b hold)
  · rw [hlive]
    refine forall_mem_cons.2 ⟨?_, fun r hr ↦ hkept _ (h.held r hr)⟩
    rw [UploadRing.buffers, hchunks, map_cons]
    exact mem_cons_self
  · rw [hlive]
    simp only [hchunks, mem_cons] at hd
    obtain rfl | hd := hd
    · refine forall_mem_cons.2 ⟨fun _ ↦ ⟨hcursor.ge, hown.ge⟩, fun r hr hchunk ↦ ?_⟩
      obtain ⟨hstop, huse⟩ := hbelow r hr hchunk
      exact ⟨hcursor ▸ hstop.trans (Nat.le_add_right _ _), huse⟩
    · refine forall_mem_cons.2 ⟨fun hchunk ↦ absurd hchunk.symm (hspare d hd), ?_⟩
      exact h.used d (hplaced.spare d hd)
  · rw [hlive, map_cons]
    refine h.intact.push (fun s hs hchunk ↦ ?_) bytes
    obtain ⟨r, hr, rfl⟩ := mem_map.1 hs
    exact (hbelow r hr hchunk).1
  · refine forall_mem_cons.2 ⟨⟨hen.2.1, le_refl _⟩, fun r hr ↦ ?_⟩
    exact ⟨(h.seqs r hr).1, (h.seqs r hr).2.trans hen.1⟩

theorem Inv.step (h : w.Inv) {op : RingOp} (hen : w.Enabled op) : (w.step op).Inv := by
  cases op with
  | write stamp bytes align allocates =>
    obtain ⟨written, heq⟩ | ⟨buffer, offset, ring, -, hplaced, heq⟩ := h.tryWrite_cases hen
    · simp only [RingWorld.step, heq]
      exact ⟨h.nodup, fun b hb ↦ Nat.lt_succ_of_lt (h.lt b hb), h.bytes, h.held, h.used, h.intact,
        fun r hr ↦ ⟨(h.seqs r hr).1, (h.seqs r hr).2.trans hen.1⟩, h.counted⟩
    · simp only [RingWorld.step, heq]
      exact h.place hen hplaced
  | endSubmission stamp => exact h.endSubmission stamp
  | finish kind seq => exact h.finish kind seq
  | publish kind seq => exact h.publish hen

theorem Inv.run {memory : ℕ → ℕ → UInt8} (h : Reaches memory w) : w.Inv := by
  induction h with
  | refl => exact inv_new memory
  | tail _ hstep ih =>
    obtain ⟨op, hen, rfl⟩ := hstep
    exact ih.step hen

/-- Every payload handed out of the chunk on buffer `b` belongs to a command buffer that has retired. -/
def AllRetired (w : RingWorld) (b : ℕ) : Prop :=
  ∀ r ∈ w.reads, r.slice.chunk = b → r.seq ≤ w.counters r.kind ∧ (r.kind, r.seq) ∈ w.finished

theorem Inv.allRetired (h : w.Inv) {b : ℕ} (hnone : ∀ r ∈ w.live, r.slice.chunk ≠ b) : w.AllRetired b := by
  intro r hr hchunk
  have hle : r.seq ≤ w.counters r.kind := by
    by_contra hlt
    exact hnone r (mem_live.2 ⟨hr, not_le.1 hlt⟩) hchunk
  exact ⟨hle, (h.counted r.kind).2 r.seq (h.seqs r hr).1 hle⟩

theorem Inv.allRetired_of_dropped (h : w.Inv) {op : RingOp} (hen : w.Enabled op) {b : ℕ} (hb : b ∈ w.ring.buffers)
    (hout : b ∉ (w.step op).ring.buffers) : w.AllRetired b := by
  cases op with
  | write stamp bytes align allocates =>
    obtain ⟨written, heq⟩ | ⟨buffer, offset, ring, -, hplaced, heq⟩ := h.tryWrite_cases hen
    · simp only [RingWorld.step, heq] at hout
      exact absurd hb hout
    · simp only [RingWorld.step, heq] at hout
      refine absurd ?_ hout
      obtain hperm | hperm := hplaced.buffers
      · exact hperm.mem_iff.2 hb
      · exact hperm.mem_iff.2 (mem_cons_of_mem _ hb)
  | endSubmission stamp =>
    obtain ⟨c, hc, rfl⟩ := mem_map.1 hb
    have hgone : c ∉ (w.ring.endSubmission stamp w.counters).chunks := fun hmem ↦ hout (mem_map_of_mem hmem)
    obtain hactive | hspare := mem_append.1 hc
    · exact absurd (mem_append_left _ hactive) hgone
    · have hretired := UploadRing.retired_of_dropped hspare fun hmem ↦ hgone (mem_append_right _ hmem)
      exact h.allRetired fun r hr ↦ h.retired hc hretired hr
  | finish kind seq => exact absurd hb hout
  | publish kind seq => exact absurd hb hout

/-- In every run a payload keeps its bytes until its command buffer has retired, never if none of its counters can
reach it; a write goes aligned behind the active chunk's cursor, or into a chunk all of whose users have retired, and
inside it; and a chunk is dropped once all of its users have retired. -/
theorem ring_keeps_unretired_bytes {memory : ℕ → ℕ → UInt8} {w : RingWorld} (h : Reaches memory w) :
    (∀ r ∈ w.reads, w.counters r.kind < r.seq ∨ (r.kind, r.seq) ∉ w.finished ∨ r.seq = seqNever →
      readRange (w.memory r.slice.chunk) r.slice.offset r.slice.bytes.length = r.slice.bytes) ∧
    (w.live.map RingRead.slice).Pairwise Slice.Apart ∧
    (∀ stamp bytes align allocates, w.Enabled (.write stamp bytes align allocates) →
      ∀ buffer offset ring, w.tryWrite stamp bytes.length align allocates = (some (buffer, offset), ring) →
        offset % align = 0 ∧
        (∃ c, ring.active = some c ∧ c.buffer = buffer ∧ offset + bytes.length ≤ c.capacity) ∧
        ((∃ c, w.ring.active = some c ∧ c.buffer = buffer ∧ c.cursor ≤ offset) ∨ w.AllRetired buffer)) ∧
    ∀ op, w.Enabled op → ∀ b ∈ w.ring.buffers, b ∉ (w.step op).ring.buffers → w.AllRetired b := by
  have hinv := Inv.run h
  refine ⟨fun r hr hpending ↦ ?_, hinv.intact.apart, fun stamp bytes align allocates hen buffer offset ring heq ↦ ?_,
    fun op hen b hb hout ↦ hinv.allRetired_of_dropped hen hb hout⟩
  · have hlive : r ∈ w.live := by
      refine mem_live.2 ⟨hr, ?_⟩
      -- A submission that has not finished is above its kind's published counter.
      obtain hlt | hrunning | hnever := hpending
      · exact hlt
      · by_contra hle
        exact hrunning ((hinv.counted r.kind).2 r.seq (hinv.seqs r hr).1 (not_lt.1 hle))
      · rw [hnever]
        exact (hinv.counted r.kind).1
    exact hinv.intact.held r.slice (mem_map_of_mem hlive)
  · obtain ⟨written, hnone⟩ | ⟨buffer', offset', ring', haligned, hplaced, hsome⟩ := hinv.tryWrite_cases hen
    · rw [hnone] at heq
      cases heq
    · rw [hsome] at heq
      cases heq
      obtain ⟨c, hc, hbuffer, -, hfits, -⟩ := hplaced.active
      exact ⟨haligned, ⟨c, hc, hbuffer, hfits⟩, hplaced.origin.imp_right hinv.allRetired⟩

/-- Two submissions in two chunks; the first retires, and the third starts its chunk over. -/
def restartOps : List RingOp :=
  [.write (.new 1 true true) [7] 4 true, .endSubmission (.new 1 true true),
    .write (.new 2 true true) [3, 4] 65536 true, .finish .render 1, .publish .render 1,
    .endSubmission (.new 2 true true), .write (.new 3 true true) [9] 65536 true]

def restarted : RingWorld := restartOps.foldl step (new fun _ _ ↦ 0)

theorem ring_keeps_unretired_bytes_restarted :
    Reaches (fun _ _ ↦ 0) restarted ∧
      restarted.reads.map (fun r ↦ (r.slice.chunk, r.slice.offset, r.seq)) = [(0, 0, 3), (1, 0, 2), (0, 0, 1)] ∧
      readRange (restarted.memory 1) 0 2 = [3, 4] ∧ readRange (restarted.memory 0) 0 1 = [9] := by
  have hrun : Admissible Enabled step (new fun _ _ ↦ 0) restartOps := by
    refine ⟨⟨by decide, by decide, by decide, by decide, 2, rfl⟩, trivial,
      ⟨by decide, by decide, by decide, by decide, 16, rfl⟩, trivial, ⟨by decide, fun s hs hle ↦ ?_⟩, trivial,
      ⟨by decide, by decide, by decide, by decide, 16, rfl⟩, trivial⟩
    obtain rfl : s = 1 := by omega
    exact mem_cons_self
  have hkept := (ring_keeps_unretired_bytes hrun.reaches).1
  have hsecond : ⟨⟨1, 0, [3, 4]⟩, .render, 2⟩ ∈ restarted.reads := mem_cons_of_mem _ mem_cons_self
  have hthird : ⟨⟨0, 0, [9]⟩, .render, 3⟩ ∈ restarted.reads := mem_cons_self
  exact ⟨hrun.reaches, rfl, hkept _ hsecond (.inl (by decide)), hkept _ hthird (.inl (by decide))⟩

end RingWorld

end Mtld3d
