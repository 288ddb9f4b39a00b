import Mtld3d.StageUploadRuns
import Mtld3d.Lib.Run

namespace Mtld3d

open List Lib CopyBufferToBuffer UploadRecoveryQueue FrameEncoder Patch

variable {β : Type} {aborts : ℕ → Bool}

namespace StageSystem

def expected (s₀ s : StageSystem β) (id : BufferId) (b₀ : BufferState) : ℕ → β :=
  applyAll (s.issued id) (s₀.memory b₀.deviceBuffer)

/-- Replaying what is queued for a buffer, or any part of it that follows only executed entries,
gives the buffer the bytes of API order. -/
def Recoverable (aborts : ℕ → Bool) (s₀ s : StageSystem β) (id : BufferId) (b₀ b : BufferState) : Prop :=
  ∀ p < b.length, ∀ gone rest, s.enc.pendingStageUploads.forKey id = gone ++ rest →
    (∀ e ∈ gone, aborts e.seq = false) →
    (Patch.lastWrite (rest.map (·.patch)) p).getD (s.settledMemory aborts b.deviceBuffer p) =
      s₀.expected s id b₀ p

structure Inv (aborts : ℕ → Bool) (s₀ s : StageSystem β) : Prop where
  idle : s.recording = false →
    s.enc.frameBlitCommands = [] ∧ s.enc.currentSubmitSeq = s.submittedSeq
  live : s.recording = true → s.submittedSeq < s.enc.currentSubmitSeq
  ordered : s.enc.pendingStageUploads.Ordered
  seqs : ∀ e ∈ s.enc.pendingStageUploads.pending, 0 < e.seq ∧ e.seq ≤ s.enc.currentSubmitSeq
  keys : ∀ e ∈ s.enc.pendingStageUploads.pending,
    e.payload.bufferId = e.key ∧ (s.enc.staged? e.key).isSome
  handles : ∀ id b, s.enc.staged? id = some b → b.deviceBuffer ≠ 0 ∧ b.deviceBuffer < s.enc.nextHandle
  distinct : ∀ id id' b b', s.enc.staged? id = some b → s.enc.staged? id' = some b' →
    b.deviceBuffer = b'.deviceBuffer → id = id'
  same : ∀ id b₀, s₀.enc.staged? id = some b₀ → ∃ b, s.enc.staged? id = some b ∧ b.length = b₀.length
  quiet : ∀ id b, s.enc.staged? id = some b →
    (∀ e ∈ s.enc.pendingStageUploads.forKey id, e.seq ≠ s.enc.currentSubmitSeq) →
    ∀ c ∈ s.enc.frameBlitCommands, c.dstBuffer ≠ b.deviceBuffer
  content : ∀ id b₀ b, s₀.enc.staged? id = some b₀ → s.enc.staged? id = some b →
    Recoverable aborts s₀ s id b₀ b

theorem Initial.inv {s : StageSystem β} (h : s.Initial) (aborts : ℕ → Bool) : Inv aborts s s where
  idle _ := ⟨h.blits, h.seq⟩
  live hr := by simp [h.recording] at hr
  ordered := by simp [Ordered, h.pending]
  seqs := by simp [h.pending]
  keys := by simp [h.pending]
  handles := h.handles
  distinct := h.distinct
  same id b hb := ⟨b, hb, rfl⟩
  quiet := by simp [h.blits]
  content := by
    intro id b₀ b hb₀ hb p hp gone rest hsplit hgone
    have hnil : gone ++ rest = [] := by rw [← hsplit]; simp [forKey, h.pending]
    obtain ⟨rfl, rfl⟩ := append_eq_nil_iff.mp hnil
    obtain rfl : b₀ = b := by simpa [hb] using hb₀.symm
    simp [settledMemory, h.blits, expected, h.issued]

theorem settledMemory_of_idle {s : StageSystem β} (h : s.enc.frameBlitCommands = []) :
    s.settledMemory aborts = s.memory := by
  simp [settledMemory, h]

section Settle

variable {s₀ s : StageSystem β} {settled failed : ℕ}

theorem Inv.mem_pending_of_settle (h : Inv aborts s₀ s) {x : UploadFate × PendingUpload (StagedUploadRetry β)}
    (hx : x ∈ (s.enc.pendingStageUploads.settle settled failed).1) :
    x.2 ∈ s.enc.pendingStageUploads.pending := by
  rw [settle_eq h.ordered] at hx
  obtain ⟨e, he, rfl⟩ := mem_map.mp hx
  exact (mem_filter.mp he).1

theorem Inv.staged_of_mem (h : Inv aborts s₀ s) {e : PendingUpload (StagedUploadRetry β)}
    (he : e ∈ s.enc.pendingStageUploads.pending) :
    ∃ b, s.enc.staged? e.payload.bufferId = some b ∧ b.deviceBuffer ≠ 0 := by
  obtain ⟨hk, hs⟩ := h.keys e he
  obtain ⟨b, hb⟩ := Option.isSome_iff_exists.mp hs
  exact ⟨b, hk ▸ hb, (h.handles _ _ hb).1⟩

theorem Inv.beginFrame_enc (h : Inv aborts s₀ s) (seq settled failed : ℕ) :
    s.enc.beginFrame seq settled failed =
      { s.enc with
        currentSubmitSeq := seq
        drawnRanges := fun _ ↦ DirtyRange.empty
        frameBlitCommands := (reissued
          (s.enc.pendingStageUploads.settle settled failed).1).map s.enc.reissueCopy
        pendingStageUploads := ⟨(s.enc.pendingStageUploads.settle settled failed).2.pending ++
          (reissued (s.enc.pendingStageUploads.settle settled failed).1).map fun e ↦
            ⟨e.key, seq, min (e.attempts + 1) 255, e.payload⟩⟩ } := by
  rw [beginFrame, settleStageUploads]
  simp only
  rw [foldl_settleOne]
  · rfl
  · intro x hx
    exact h.staged_of_mem (h.mem_pending_of_settle hx)

/-- What a key's owed entries are: none while it is clean, all of them once it is poisoned. -/
theorem Inv.settle_cases (h : Inv aborts s₀ s)
    (hnone : ∀ x ∈ (s.enc.pendingStageUploads.settle settled failed).1, x.1 ≠ .abandoned) (id : BufferId) :
    ((∃ gone, s.enc.pendingStageUploads.forKey id =
          gone ++ (s.enc.pendingStageUploads.settle settled failed).2.forKey id ∧
        ∀ e ∈ gone, e.seq ≤ settled ∧ (failed ≠ 0 → failed < e.seq)) ∧
      (reissued (s.enc.pendingStageUploads.settle settled failed).1).filter
        (fun e ↦ e.key = id) = []) ∨ ((s.enc.pendingStageUploads.settle settled failed).2.forKey id = [] ∧
      (reissued (s.enc.pendingStageUploads.settle settled failed).1).filter
        (fun e ↦ e.key = id) = s.enc.pendingStageUploads.forKey id) := by
  by_cases hk : id ∈ s.enc.pendingStageUploads.poisonedKeys failed
  · right
    obtain ⟨h₁, h₂⟩ := settle_forKey_poisoned h.ordered settled hk
    refine ⟨h₁, ?_⟩
    have hall : ∀ x ∈ (s.enc.pendingStageUploads.settle settled failed).1.filter (fun x ↦ x.2.key = id),
        x.1 = .reissue := by
      intro x hx
      have hx' := hx
      rw [h₂] at hx'
      obtain ⟨e, -, rfl⟩ := mem_map.mp hx'
      have hna := hnone _ (mem_filter.mp hx).1
      simp only [fate, Bool.not_true, Bool.false_eq_true, if_false] at hna ⊢
      split_ifs at hna ⊢ <;> simp_all
    have hcomm : (reissued (s.enc.pendingStageUploads.settle settled failed).1).filter
          (fun e ↦ e.key = id) =
        (((s.enc.pendingStageUploads.settle settled failed).1.filter fun x ↦ x.2.key = id).filter
          fun x ↦ x.1 = .reissue).map (·.2) := by
      rw [reissued, filter_map, filter_filter, filter_filter]
      congr 2
      funext x
      exact Bool.and_comm _ _
    rw [hcomm, filter_eq_self.mpr (fun x hx ↦ by simpa using hall x hx), h₂, map_map]
    exact map_id _
  · left
    obtain ⟨h₁, h₂⟩ := settle_forKey_clean h.ordered settled hk
    refine ⟨h₁, filter_eq_nil_iff.mpr fun e he hid ↦ ?_⟩
    obtain ⟨x, hx, rfl⟩ := mem_map.mp he
    obtain ⟨hx, hr⟩ := mem_filter.mp hx
    have := h₂ x hx (by simpa using hid)
    simp [this] at hr

end Settle

variable {s₀ s : StageSystem β}

theorem aborts_of_settled {submitted settled failed : ℕ} (ht : Truthful aborts submitted settled failed)
    {seq : ℕ} (h0 : 0 < seq) (hs : seq ≤ settled) (hf : failed ≠ 0 → failed < seq) : aborts seq = false := by
  by_contra hab
  have hle := ht.complete seq hs (by simpa using hab)
  by_cases hz : failed = 0
  · omega
  · exact absurd hle (by have := hf hz; omega)

variable {id : BufferId} {b₀ b : BufferState}

theorem Inv.beginFrame_recoverable (h : Inv aborts s₀ s) {seq settled failed : ℕ}
    (he : s.Enabled aborts (.beginFrame seq settled failed))
    (hb₀ : s₀.enc.staged? id = some b₀) (hb : s.enc.staged? id = some b) :
    Recoverable aborts s₀ (s.act aborts (.beginFrame seq settled failed)) id b₀ b := by
  obtain ⟨hidle, -, ht, hnone⟩ := he
  intro p hp gone rest hsplit hgone
  have hexp : s₀.expected (s.act aborts (.beginFrame seq settled failed)) id b₀ = s₀.expected s id b₀ := rfl
  rw [hexp]
  have hcontent := h.content id b₀ b hb₀ hb p hp
  rw [settledMemory_of_idle (h.idle hidle).1] at hcontent
  set owed := reissued (s.enc.pendingStageUploads.settle settled failed).1 with howed
  have henc := h.beginFrame_enc seq settled failed
  have hkey : (s.act aborts (.beginFrame seq settled failed)).enc.pendingStageUploads.forKey id =
      (s.enc.pendingStageUploads.settle settled failed).2.forKey id ++
        (owed.filter fun e ↦ e.key = id).map fun e ↦ ⟨e.key, seq, min (e.attempts + 1) 255, e.payload⟩ := by
    simp only [act, henc, forKey, filter_append, filter_map]
    rfl
  have hmem : (s.act aborts (.beginFrame seq settled failed)).settledMemory aborts b.deviceBuffer =
      if aborts seq then s.memory b.deviceBuffer
      else applyAll ((owed.filter fun e ↦ e.key = id).map (·.patch)) (s.memory b.deviceBuffer) := by
    simp only [settledMemory, act, henc]
    split_ifs
    · rfl
    · refine runAll_reissueCopy hb (fun id' hs hd ↦ ?_) owed (fun x hx ↦ ?_) s.memory
      · obtain ⟨b', hb'⟩ := Option.isSome_iff_exists.mp hs
        exact h.distinct id' id b' b hb' hb (by simpa [deviceOf, hb'] using hd)
      · obtain ⟨y, hy, rfl⟩ := mem_map.mp hx
        exact h.keys _ (h.mem_pending_of_settle (mem_filter.mp hy).1)
  rw [hkey] at hsplit
  rw [hmem]
  obtain ⟨⟨old, hold, hclean⟩, hnil⟩ | ⟨hnil, howe⟩ := h.settle_cases hnone id
  · -- nothing is owed for this buffer: the released prefix was executed
    rw [hnil, map_nil, append_nil] at hsplit
    rw [hnil, map_nil, applyAll_nil, ite_self]
    refine hcontent (old ++ gone) rest (by rw [hold, hsplit, append_assoc]) fun e hmem ↦ ?_
    obtain hmem | hmem := mem_append.mp hmem
    · obtain ⟨h₁, h₂⟩ := hclean e hmem
      have hpend : e ∈ s.enc.pendingStageUploads.forKey id := by rw [hold]; exact mem_append_left _ hmem
      exact aborts_of_settled ht (h.seqs e (mem_forKey.mp hpend).1).1 h₁ h₂
    · exact hgone e hmem
  · -- everything queued for this buffer is replayed in order
    rw [hnil, nil_append, howe] at hsplit
    rw [howe]
    have hwhole := hcontent [] (s.enc.pendingStageUploads.forKey id) rfl (by simp)
    obtain ⟨old, kept, hok, hold, rfl⟩ := map_eq_append_iff.mp hsplit
    have hpatch : (kept.map fun e ↦ (⟨e.key, seq, min (e.attempts + 1) 255, e.payload⟩ :
        PendingUpload (StagedUploadRetry β))).map (·.patch) = kept.map (·.patch) := by
      rw [map_map]; rfl
    rw [hpatch]
    cases hab : aborts seq with
    | true =>
      have hempty : old = [] := by
        cases old with
        | nil => rfl
        | cons x xs =>
          have := hgone _ (by rw [← hold]; exact mem_cons_self)
          simp [hab] at this
      rw [hok, hempty, nil_append] at hwhole
      simpa using hwhole
    | false =>
      simp only [Bool.false_eq_true, if_false]
      rw [applyAll_eq, hwhole]
      rw [hok, map_append, Patch.lastWrite_append] at hwhole
      cases hl : Patch.lastWrite (kept.map (·.patch)) p with
      | none => rfl
      | some v => rw [hl] at hwhole; simpa using hwhole

theorem Inv.beginFrame (h : Inv aborts s₀ s) {seq settled failed : ℕ}
    (he : s.Enabled aborts (.beginFrame seq settled failed)) :
    Inv aborts s₀ (s.act aborts (.beginFrame seq settled failed)) := by
  have henc := h.beginFrame_enc seq settled failed
  obtain ⟨hidle, hseq, ht, hnone⟩ := id he
  have hstaged : ∀ id, (s.act aborts (.beginFrame seq settled failed)).enc.staged? id = s.enc.staged? id := by
    intro id; simp only [act, henc]; rfl
  have hsub := settle_sublist h.ordered settled failed
  refine ⟨?_, ?_, ?_, ?_, ?_, ?_, ?_, ?_, ?_, ?_⟩
  · intro hr; simp [act] at hr
  · intro _
    have := (h.idle hidle).2
    simp only [act, henc]
    omega
  · simp only [act, henc, Ordered, pairwise_append]
    refine ⟨h.ordered.sublist hsub, ?_, ?_⟩
    · rw [pairwise_map]
      exact pairwise_of_forall fun _ _ ↦ le_rfl
    · intro a ha b hb
      obtain ⟨e, -, rfl⟩ := mem_map.mp hb
      exact ((h.seqs a (hsub.subset ha)).2.trans_lt hseq).le
  · intro e hm
    simp only [act, henc, mem_append, mem_map] at hm
    simp only [act, henc]
    obtain hm | ⟨e', -, rfl⟩ := hm
    · obtain ⟨h₁, h₂⟩ := h.seqs e (hsub.subset hm)
      omega
    · exact ⟨by simp only; omega, le_rfl⟩
  · intro e hm
    rw [hstaged]
    simp only [act, henc, mem_append, mem_map] at hm
    obtain hm | ⟨e', hm, rfl⟩ := hm
    · exact h.keys e (hsub.subset hm)
    · obtain ⟨x, hx, rfl⟩ := mem_map.mp hm
      exact h.keys x.2 (h.mem_pending_of_settle (mem_filter.mp hx).1)
  · intro id b hb
    rw [hstaged] at hb
    simpa only [act, henc] using h.handles id b hb
  · intro id id' b b' hb hb'
    rw [hstaged] at hb hb'
    exact h.distinct id id' b b' hb hb'
  · intro id b₀ hb₀
    rw [hstaged]
    exact h.same id b₀ hb₀
  · intro id b hb hquiet c hc hd
    rw [hstaged] at hb
    simp only [act, henc, mem_map] at hc
    obtain ⟨e, hm, rfl⟩ := hc
    have hpend : e ∈ s.enc.pendingStageUploads.pending := by
      obtain ⟨x, hx, rfl⟩ := mem_map.mp hm
      exact h.mem_pending_of_settle (mem_filter.mp hx).1
    obtain ⟨hk, hs⟩ := h.keys e hpend
    obtain ⟨b', hb'⟩ := Option.isSome_iff_exists.mp hs
    have hid : e.key = id := by
      refine h.distinct e.key id b' b hb' hb ?_
      simpa [reissueCopy, deviceOf, hk, hb'] using hd
    refine hquiet ⟨e.key, seq, min (e.attempts + 1) 255, e.payload⟩ ?_ ?_
    · simp only [act, henc, mem_forKey, mem_append, mem_map]
      exact ⟨.inr ⟨e, hm, rfl⟩, hid⟩
    · simp [act, henc]
  · intro id b₀ b hb₀ hb
    rw [hstaged] at hb
    exact h.beginFrame_recoverable he hb₀ hb

variable {t : StageSystem β}

theorem Recoverable.upload {b₀ b b' : BufferState}
    (h : Recoverable aborts s₀ s id b₀ b) (entry : PendingUpload (StagedUploadRetry β))
    (hlen : b'.length = b.length)
    (hqueue : t.enc.pendingStageUploads.forKey id = s.enc.pendingStageUploads.forKey id ++ [entry])
    (hissued : t.issued id = s.issued id ++ [entry.patch]) (hrun : aborts entry.seq = false → ∀ p < b.length,
      t.settledMemory aborts b'.deviceBuffer p = entry.patch.apply (s.settledMemory aborts b.deviceBuffer) p)
    (habort : aborts entry.seq = true → ∀ p < b.length, ¬ entry.patch.Covers p →
      t.settledMemory aborts b'.deviceBuffer p = s.settledMemory aborts b.deviceBuffer p) :
    Recoverable aborts s₀ t id b₀ b' := by
  intro p hp gone rest hsplit hgone
  rw [hlen] at hp
  have hexp : s₀.expected t id b₀ p = entry.patch.apply (s₀.expected s id b₀) p := by
    simp [expected, hissued]
  rw [hexp]
  rw [hqueue] at hsplit
  obtain rfl | ⟨rest', last, rfl⟩ := eq_nil_or_concat rest
  · have hall := hgone entry (by rw [append_nil] at hsplit; simp [← hsplit])
    have hold := h p hp _ [] (append_nil _).symm fun e he ↦ hgone e (by
      rw [append_nil] at hsplit
      rw [← hsplit]
      exact mem_append_left _ he)
    simp only [map_nil, Patch.lastWrite_nil, Option.getD_none] at hold ⊢
    rw [hrun hall p hp]
    exact apply_congr _ hold
  · rw [concat_eq_append, ← append_assoc] at hsplit
    obtain ⟨hinit, hlast⟩ := append_inj' hsplit rfl
    obtain rfl : entry = last := by simpa using hlast
    have hold := h p hp gone rest' hinit hgone
    rw [concat_eq_append, map_append, Patch.lastWrite_append]
    by_cases hc : entry.patch.Covers p
    · simp [Patch.value?_of_covers hc, apply_of_covers hc]
    · have hsame : t.settledMemory aborts b'.deviceBuffer p = s.settledMemory aborts b.deviceBuffer p := by
        cases hab : aborts entry.seq with
        | true => exact habort hab p hp hc
        | false => rw [hrun hab p hp, apply_of_not_covers hc]
      simpa [Patch.value?_of_not_covers hc, apply_of_not_covers hc, hsame] using hold

theorem Recoverable.of_untouched (h : Recoverable aborts s₀ s id b₀ b)
    (hqueue : t.enc.pendingStageUploads.forKey id = s.enc.pendingStageUploads.forKey id)
    (hissued : t.issued id = s.issued id)
    (hmem : t.settledMemory aborts b.deviceBuffer = s.settledMemory aborts b.deviceBuffer) :
    Recoverable aborts s₀ t id b₀ b := by
  intro p hp gone rest hsplit hgone
  rw [hmem, expected, hissued]
  exact h p hp gone rest (hqueue ▸ hsplit) hgone

theorem covers_of_not_needsPreserve {length dstOffset size p : ℕ} (page : ℕ → β)
    (h : stageUploadNeedsPreserve length dstOffset size = false) (hp : p < length) :
    (Patch.mk dstOffset size page).Covers p := by
  simp only [stageUploadNeedsPreserve, Bool.or_eq_false_iff, decide_eq_false_iff_not, not_not] at h
  obtain ⟨rfl, rfl⟩ := h
  exact ⟨Nat.zero_le p, by simpa using hp⟩

theorem runAll_renamed {m : BufferMemory β} {old fresh : BufferHandle} {length dstOffset size p : ℕ}
    {page : ℕ → β} (hp : p < length) : runAll ((if stageUploadNeedsPreserve length dstOffset size then
        [⟨.device old, fresh, 0, 0, length⟩] else []) ++ [⟨.transient page, fresh, 0, dstOffset, size⟩]) m
      fresh p = (Patch.mk dstOffset size page).apply (m old) p := by
  rw [runAll_append, runAll_singleton, run_transient]
  split_ifs with hpres
  · exact apply_congr _ (run_preserve hp)
  · have hc := covers_of_not_needsPreserve page (by simpa using hpres) hp
    rw [apply_of_covers hc, apply_of_covers hc]

section Upload

variable {id : BufferId} {page : ℕ → β} {dstOffset size : ℕ}

theorem upload_enc_of_unstaged (aborts : ℕ → Bool) (page : ℕ → β) (dstOffset size : ℕ)
    (h : s.enc.staged? id = none) : (s.act aborts (.upload id page dstOffset size)).enc = s.enc := by
  simp [act, applyStageUpload, h]

theorem Inv.upload_unstaged (h : Inv aborts s₀ s) (hn : s.enc.staged? id = none) :
    Inv aborts s₀ (s.act aborts (.upload id page dstOffset size)) := by
  have henc := upload_enc_of_unstaged aborts page dstOffset size hn
  refine ⟨?_, ?_, ?_, ?_, ?_, ?_, ?_, ?_, ?_, ?_⟩
  · rw [henc]; exact h.idle
  · rw [henc]; exact h.live
  · rw [henc]; exact h.ordered
  · rw [henc]; exact h.seqs
  · rw [henc]; exact h.keys
  · rw [henc]; exact h.handles
  · rw [henc]; exact h.distinct
  · rw [henc]; exact h.same
  · rw [henc]; exact h.quiet
  · intro id' b₀ b hb₀ hb
    have hne : id' ≠ id := by
      rintro rfl
      obtain ⟨b', hb', -⟩ := h.same id' b₀ hb₀
      simp [hn] at hb'
    rw [henc] at hb
    refine (h.content id' b₀ b hb₀ hb).of_untouched (by rw [henc]) (by simp [act, hne]) ?_
    simp only [settledMemory, henc]
    rfl

theorem upload_pending (aborts : ℕ → Bool) (page : ℕ → β) (dstOffset size : ℕ) {b : BufferState}
    (hb : s.enc.staged? id = some b) (h0 : b.deviceBuffer ≠ 0) :
    (s.act aborts (.upload id page dstOffset size)).enc.pendingStageUploads =
        s.enc.pendingStageUploads.push id s.enc.currentSubmitSeq ⟨id, page, dstOffset, size⟩ ∧
      (s.act aborts (.upload id page dstOffset size)).enc.currentSubmitSeq = s.enc.currentSubmitSeq := by
  obtain ⟨-, h⟩ | ⟨-, h⟩ := applyStageUpload_cases hb h0 page dstOffset size <;>
    simp [act, h]

/-- Effect of an upload on device buffers and copies: the named buffer alone may move to a fresh
one, and only its buffer is written. -/
structure UploadEffect (s t : StageSystem β) (id : BufferId) (u : Patch β) (b b' : BufferState)
    (new : List (CopyBufferToBuffer β)) : Prop where
  staged : t.enc.staged? id = some b'
  length : b'.length = b.length
  blits : t.enc.frameBlitCommands = s.enc.frameBlitCommands ++ new
  next : s.enc.nextHandle ≤ t.enc.nextHandle
  others : ∀ id' ≠ id, t.enc.staged? id' = s.enc.staged? id'
  dst : ∀ c ∈ new, c.dstBuffer = b'.deviceBuffer
  kept : b' = b ∨ s.CarriesByPreserve (.upload id u.bytes u.offset u.size) ∨ ∀ p < b.length, u.Covers p
  fresh : b' = b ∨ b'.deviceBuffer = s.enc.nextHandle ∧ b'.deviceBuffer < t.enc.nextHandle
  run : ∀ m : BufferMemory β, ∀ p < b.length,
    runAll new m b'.deviceBuffer p = u.apply (m b.deviceBuffer) p

theorem Inv.upload_effect (h : Inv aborts s₀ s) (page : ℕ → β) (dstOffset size : ℕ) {b : BufferState}
    (hb : s.enc.staged? id = some b) :
    ∃ b' new, UploadEffect s (s.act aborts (.upload id page dstOffset size)) id ⟨dstOffset, size, page⟩
      b b' new := by
  obtain ⟨h0, hlt⟩ := h.handles id b hb
  obtain ⟨ho, he⟩ | ⟨ho, he⟩ := applyStageUpload_cases hb h0 page dstOffset size
  · refine ⟨b, [⟨.transient page, b.deviceBuffer, 0, dstOffset, size⟩], ?_, rfl, ?_, ?_, ?_, ?_, .inl rfl,
      .inl rfl, ?_⟩
    · simp only [act, he]; exact hb
    · simp [act, he]
    · simp [act, he]
    · intro id' _; simp only [act, he]; rfl
    · simp
    · intro m p _
      rw [runAll_singleton, run_transient]
  · refine ⟨{ b with deviceBuffer := s.enc.nextHandle }, _, ?_, rfl, by simp only [act, he]; rfl, ?_, ?_,
      ?_, ?_, .inr ⟨rfl, ?_⟩, ?_⟩
    · simp only [act, he]
      exact staged?_setDeviceBuffer_self hb _
    · simp only [act, he]
      exact Nat.le_succ _
    · intro id' hne
      simp only [act, he]
      exact staged?_setDeviceBuffer_of_ne s.enc hne _
    · intro c hc
      obtain hc | hc := mem_append.mp hc
      · split_ifs at hc
        · simp only [mem_singleton] at hc; rw [hc]
        · simp at hc
      · simp only [mem_singleton] at hc; rw [hc]
    · right
      cases hpres : stageUploadNeedsPreserve b.length dstOffset size with
      | true => exact .inl ⟨ho, b, hb, hpres⟩
      | false => exact .inr fun p hp ↦ covers_of_not_needsPreserve page hpres hp
    · simp only [act, he]
      exact Nat.lt_succ_self _
    · intro m p hp
      exact runAll_renamed hp

theorem UploadEffect.ne_of_other (h : Inv aborts s₀ s) {u : Patch β}
    {b b' : BufferState} {new : List (CopyBufferToBuffer β)} (he : UploadEffect s t id u b b' new)
    (hb : s.enc.staged? id = some b) {id' : BufferId} {c : BufferState} (hne : id' ≠ id)
    (hc : s.enc.staged? id' = some c) : c.deviceBuffer ≠ b'.deviceBuffer := by
  intro heq
  obtain rfl | ⟨hf, -⟩ := he.fresh
  · exact hne (h.distinct id' id c b' hc hb heq)
  · exact ne_of_lt (h.handles id' c hc).2 (heq.trans hf)

theorem Inv.upload_recoverable (h : Inv aborts s₀ s)
    (hsafe : aborts s.enc.currentSubmitSeq = true → ¬ s.CarriesByPreserve (.upload id page dstOffset size))
    {b b' : BufferState} (hb : s.enc.staged? id = some b) {new : List (CopyBufferToBuffer β)}
    (he : UploadEffect s (s.act aborts (.upload id page dstOffset size)) id ⟨dstOffset, size, page⟩ b b' new)
    {id' : BufferId} {b₀ c : BufferState} (hb₀ : s₀.enc.staged? id' = some b₀)
    (hc : (s.act aborts (.upload id page dstOffset size)).enc.staged? id' = some c) :
    Recoverable aborts s₀ (s.act aborts (.upload id page dstOffset size)) id' b₀ c := by
  obtain ⟨hqueue, hseq⟩ := upload_pending aborts page dstOffset size hb (h.handles id b hb).1
  by_cases hid : id' = id
  · subst hid
    obtain rfl : c = b' := by simpa [he.staged] using hc.symm
    refine (h.content id' b₀ b hb₀ hb).upload ⟨id', s.enc.currentSubmitSeq, 0,
      ⟨id', page, dstOffset, size⟩⟩ he.length (by simp [hqueue]) (by simp [act, PendingUpload.patch]) ?_ ?_
    · intro hab p hp
      simp only [settledMemory, hseq] at hab ⊢
      simp only [hab, Bool.false_eq_true, if_false, he.blits, runAll_append]
      exact he.run _ p hp
    · intro hab p hp hcov
      simp only [settledMemory, hseq] at hab ⊢
      simp only [hab, if_true]
      obtain rfl | hpres | hall := he.kept
      · rfl
      · exact absurd hpres (hsafe hab)
      · exact absurd (hall p hp) hcov
  · have hc' : s.enc.staged? id' = some c := by rw [← he.others id' hid]; exact hc
    refine (h.content id' b₀ c hb₀ hc').of_untouched ?_ (by simp [act, hid]) ?_
    · rw [hqueue, forKey_push, if_neg (fun h ↦ hid h.symm), append_nil]
    · simp only [settledMemory, hseq, he.blits, runAll_append]
      split_ifs
      · rfl
      · funext p
        refine runAll_of_not_writes (fun d hd hw ↦ ?_) _
        exact UploadEffect.ne_of_other h he hb hid hc' ((he.dst d hd).symm.trans hw.1).symm

theorem Inv.upload (h : Inv aborts s₀ s) (hrec : s.recording = true)
    (hsafe : aborts s.enc.currentSubmitSeq = true → ¬ s.CarriesByPreserve (.upload id page dstOffset size)) :
    Inv aborts s₀ (s.act aborts (.upload id page dstOffset size)) := by
  cases hb : s.enc.staged? id with
  | none => exact h.upload_unstaged hb
  | some b =>
    obtain ⟨hqueue, hseq⟩ := upload_pending aborts page dstOffset size hb (h.handles id b hb).1
    obtain ⟨b', new, he⟩ := h.upload_effect page dstOffset size hb
    have hpos := h.live hrec
    refine ⟨?_, ?_, ?_, ?_, ?_, ?_, ?_, ?_, ?_, ?_⟩
    · intro hr
      simp [act, hrec] at hr
    · intro _
      rw [hseq]
      exact hpos
    · rw [hqueue, Ordered, push, pairwise_append]
      refine ⟨h.ordered, pairwise_singleton _ _, fun x hx y hy ↦ ?_⟩
      obtain rfl := mem_singleton.mp hy
      exact (h.seqs x hx).2
    · intro e hm
      rw [hqueue, push, mem_append, mem_singleton] at hm
      rw [hseq]
      obtain hm | rfl := hm
      · exact h.seqs e hm
      · exact ⟨by simp only; omega, le_rfl⟩
    · intro e hm
      rw [hqueue, push, mem_append, mem_singleton] at hm
      obtain hm | rfl := hm
      · refine ⟨(h.keys e hm).1, ?_⟩
        by_cases hid : e.key = id
        · rw [hid, he.staged]; rfl
        · rw [he.others _ hid]; exact (h.keys e hm).2
      · exact ⟨rfl, by rw [he.staged]; rfl⟩
    · intro id' c hc
      by_cases hid : id' = id
      · subst hid
        obtain rfl : c = b' := by simpa [he.staged] using hc.symm
        obtain rfl | ⟨hf, hlt⟩ := he.fresh
        · exact ⟨(h.handles id' c hb).1, (h.handles id' c hb).2.trans_le he.next⟩
        · refine ⟨?_, hlt⟩
          rw [hf]
          exact Nat.ne_zero_of_lt (h.handles id' b hb).2
      · rw [he.others id' hid] at hc
        exact ⟨(h.handles id' c hc).1, (h.handles id' c hc).2.trans_le he.next⟩
    · intro i j c d hc hd heq
      by_cases hi : i = id <;> by_cases hj : j = id
      · rw [hi, hj]
      · subst hi
        obtain rfl : c = b' := by simpa [he.staged] using hc.symm
        rw [he.others j hj] at hd
        exact absurd heq.symm (UploadEffect.ne_of_other h he hb hj hd)
      · subst hj
        obtain rfl : d = b' := by simpa [he.staged] using hd.symm
        rw [he.others i hi] at hc
        exact absurd heq (UploadEffect.ne_of_other h he hb hi hc)
      · rw [he.others i hi] at hc
        rw [he.others j hj] at hd
        exact h.distinct i j c d hc hd heq
    · intro id' b₀ hb₀
      obtain ⟨c, hc, hlen⟩ := h.same id' b₀ hb₀
      by_cases hid : id' = id
      · subst hid
        obtain rfl : b = c := by simpa [hb] using hc
        exact ⟨b', he.staged, he.length.trans hlen⟩
      · exact ⟨c, by rw [he.others id' hid]; exact hc, hlen⟩
    · intro id' c hc hquiet d hd heq
      by_cases hid : id' = id
      · subst hid
        exact hquiet ⟨id', s.enc.currentSubmitSeq, 0, ⟨id', page, dstOffset, size⟩⟩
          (by simp [hqueue]) hseq.symm
      · rw [he.others id' hid] at hc
        rw [he.blits, mem_append] at hd
        obtain hd | hd := hd
        · refine h.quiet id' c hc (fun e hm ↦ ?_) d hd heq
          rw [← hseq]
          exact hquiet e (by rw [hqueue, forKey_push]; exact mem_append_left _ hm)
        · exact UploadEffect.ne_of_other h he hb hid hc (heq.symm.trans (he.dst d hd))
    · intro id' b₀ c hb₀ hc
      exact h.upload_recoverable hsafe hb he hb₀ hc

end Upload

theorem Inv.draw (h : Inv aborts s₀ s) (id : BufferId) (read : DrawRead) :
    Inv aborts s₀ (s.act aborts (.draw id read)) :=
  ⟨h.idle, h.live, h.ordered, h.seqs, h.keys, h.handles, h.distinct, h.same, h.quiet, h.content⟩

theorem Inv.release (h : Inv aborts s₀ s) {settled failed : ℕ}
    (ht : Truthful aborts s.submittedSeq settled failed) :
    Inv aborts s₀ (s.act aborts (.release settled failed)) := by
  have hsub := s.enc.pendingStageUploads.releaseAcknowledged_sublist settled failed
  refine ⟨h.idle, h.live, h.ordered.sublist hsub, fun e he ↦ h.seqs e (hsub.subset he),
    fun e he ↦ h.keys e (hsub.subset he), h.handles, h.distinct, h.same, ?_, ?_⟩
  · intro id b hb hquiet c hc
    have hrec : s.recording = true := by
      by_contra hr
      have hnil := (h.idle (by simpa using hr)).1
      have hc' : c ∈ s.enc.frameBlitCommands := hc
      simp [hnil] at hc'
    refine h.quiet id b hb (fun e he ↦ ?_) c hc
    obtain ⟨gone, hsplit, hgone⟩ := s.enc.pendingStageUploads.releaseAcknowledged_forKey settled failed id
    rw [hsplit, mem_append] at he
    obtain he | he := he
    · have h₁ := (hgone e he).1
      have h₂ := ht.settled_le
      have h₃ := h.live hrec
      omega
    · exact hquiet e he
  · intro id b₀ b hb₀ hb p hp gone rest hsplit hgone
    obtain ⟨old, hold, hclean⟩ := s.enc.pendingStageUploads.releaseAcknowledged_forKey settled failed id
    have hrest : (s.enc.pendingStageUploads.releaseAcknowledged settled failed).2.forKey id = gone ++ rest := hsplit
    refine h.content id b₀ b hb₀ hb p hp (old ++ gone) rest
      (by rw [hold, hrest, append_assoc]) fun e he ↦ ?_
    obtain he | he := mem_append.mp he
    · have hpend : e ∈ s.enc.pendingStageUploads.forKey id := by rw [hold]; exact mem_append_left _ he
      obtain ⟨h₁, h₂⟩ := hclean e he
      exact aborts_of_settled ht (h.seqs e (mem_forKey.mp hpend).1).1 h₁ fun _ ↦ h₂
    · exact hgone e he

theorem Inv.submit (h : Inv aborts s₀ s) : Inv aborts s₀ (s.act aborts .submit) := by
  refine ⟨fun _ ↦ ⟨rfl, rfl⟩, fun hr ↦ by simp [act] at hr, h.ordered, h.seqs, h.keys, h.handles, h.distinct,
    h.same, fun _ _ _ _ c hc ↦ by simp [act] at hc, ?_⟩
  intro id b₀ b hb₀ hb p hp gone rest hsplit hgone
  have hmem : (s.act aborts .submit).settledMemory aborts = s.settledMemory aborts := by
    simp only [settledMemory, act, runAll_nil]
    split_ifs <;> rfl
  rw [hmem]
  exact h.content id b₀ b hb₀ hb p hp gone rest hsplit hgone

theorem Inv.step (h : Inv aborts s₀ s) (hstep : SafeStep aborts s t) : Inv aborts s₀ t := by
  obtain ⟨a, he, hsafe, rfl⟩ := hstep
  cases a with
  | beginFrame seq settled failed => exact h.beginFrame he
  | upload id page dstOffset size => exact h.upload he hsafe
  | draw id read => exact h.draw id read
  | release settled failed => exact h.release he
  | submit => exact h.submit

theorem Inv.run (h₀ : s₀.Initial) (hr : Relation.ReflTransGen (SafeStep aborts) s₀ s) : Inv aborts s₀ s := by
  induction hr with
  | refl => exact h₀.inv aborts
  | tail _ hstep ih => exact ih.step hstep

theorem Step.safe (hn : ∀ seq, aborts seq = false) (h : Step aborts s t) : SafeStep aborts s t := by
  obtain ⟨a, he, rfl⟩ := h
  exact ⟨a, he, fun hab ↦ by simp [hn] at hab, rfl⟩

theorem reaches_safe (hn : ∀ seq, aborts seq = false)
    (h : Relation.ReflTransGen (Step aborts) s t) : Relation.ReflTransGen (SafeStep aborts) s t :=
  Relation.ReflTransGen.mono (fun _ _ hstep ↦ Step.safe hn hstep) _ _ h

theorem Inv.memory_eq (h : Inv aborts s₀ s) (hb₀ : s₀.enc.staged? id = some b₀) (hb : s.enc.staged? id = some b)
    (hq : s.enc.pendingStageUploads.forKey id = []) {p : ℕ} (hp : p < b.length) :
    s.memory b.deviceBuffer p = s₀.expected s id b₀ p := by
  have hcontent := h.content id b₀ b hb₀ hb p hp [] [] hq (by simp)
  have hquiet := h.quiet id b hb (by simp [hq])
  have hmem : s.settledMemory aborts b.deviceBuffer p = s.memory b.deviceBuffer p := by
    unfold settledMemory
    split_ifs
    · rfl
    · exact runAll_of_not_writes (fun c hc hw ↦ hquiet c hc hw.1) _
  rw [← hmem]
  simpa using hcontent

/-- In every run that puts no preserve copy into a submission that aborts, a buffer with no queued
upload holds, byte for byte, all its uploads in API order over its first contents. -/
theorem staged_bytes_recovered (h₀ : s₀.Initial) (hr : Relation.ReflTransGen (SafeStep aborts) s₀ s)
    {id : BufferId} {b₀ : BufferState} (hb₀ : s₀.enc.staged? id = some b₀) :
    ∃ b, s.enc.staged? id = some b ∧ b.length = b₀.length ∧
      (s.enc.pendingStageUploads.forKey id = [] → ∀ p < b.length,
        s.memory b.deviceBuffer p = applyAll (s.issued id) (s₀.memory b₀.deviceBuffer) p) := by
  have h := Inv.run h₀ hr
  obtain ⟨b, hb, hlen⟩ := h.same id b₀ hb₀
  exact ⟨b, hb, hlen, fun hq p hp ↦ h.memory_eq hb₀ hb hq hp⟩

def twoByteBuffer : StageSystem ℕ where
  enc :=
    { bufferCache := fun id ↦ if id = 1 then some ⟨1, 2, true⟩ else none
      drawnRanges := fun _ ↦ DirtyRange.empty
      frameBlitCommands := []
      pendingStageUploads := ⟨[]⟩
      currentSubmitSeq := 0
      nextHandle := 2 }
  memory := fun _ _ ↦ 0
  recording := false
  submittedSeq := 0
  issued := fun _ ↦ []

theorem twoByteBuffer_initial : twoByteBuffer.Initial where
  recording := rfl
  blits := rfl
  pending := rfl
  seq := rfl
  handles id b hb := by
    by_cases h : id = 1
    · simp [twoByteBuffer, staged?, h, Option.filter_some] at hb
      simp [← hb, twoByteBuffer]
    · simp [twoByteBuffer, staged?, h] at hb
  distinct id id' b b' hb hb' _ := by
    by_cases h : id = 1
    · by_cases h' : id' = 1
      · rw [h, h']
      · simp [twoByteBuffer, staged?, h'] at hb'
    · simp [twoByteBuffer, staged?, h] at hb
  issued := rfl

def lostPreserveRun : List (StageAction ℕ) :=
  [.beginFrame 1 0 0, .upload 1 (fun _ ↦ 7) 0 2, .submit,
    .beginFrame 2 1 0, .draw 1 ⟨0, 2, 2, by decide⟩, .upload 1 (fun _ ↦ 9) 0 1, .submit,
    .beginFrame 3 2 2, .submit, .beginFrame 4 3 2]

theorem lostPreserveRun_admissible : Admissible (Enabled (· == 2)) (act (· == 2)) twoByteBuffer lostPreserveRun := by
  refine ⟨⟨rfl, by decide, ⟨by decide, by decide, ?_⟩, by decide⟩, rfl, rfl,
    ⟨rfl, by decide, ⟨by decide, by decide, ?_⟩, by decide⟩, rfl, rfl, rfl,
    ⟨rfl, by decide, ⟨by decide, by decide, ?_⟩, by decide⟩, rfl,
    ⟨rfl, by decide, ⟨by decide, by decide, ?_⟩, by decide⟩, trivial⟩ <;>
  · intro seq hs hab
    simp only [beq_iff_eq] at hab
    omega

/-- The replay restores the overwritten byte alone: the preserve copy was lost with its frame. -/
theorem preserved_byte_lost :
    ¬ ∀ (aborts : ℕ → Bool) (s₀ s : StageSystem ℕ), s₀.Initial →
      Relation.ReflTransGen (Step aborts) s₀ s → ∀ id b₀ b, s₀.enc.staged? id = some b₀ →
        s.enc.staged? id = some b → s.enc.pendingStageUploads.forKey id = [] → ∀ p < b.length,
          s.memory b.deviceBuffer p = applyAll (s.issued id) (s₀.memory b₀.deviceBuffer) p := by
  intro h
  have hlost := h (· == 2) twoByteBuffer _ twoByteBuffer_initial lostPreserveRun_admissible.reaches 1
    ⟨1, 2, true⟩ ⟨2, 2, true⟩ rfl rfl rfl 1 (by decide)
  exact absurd hlost (by decide)

def keptPreserveRun : List (StageAction ℕ) :=
  [.beginFrame 1 0 0, .upload 1 (fun _ ↦ 7) 0 2, .submit,
    .beginFrame 2 1 0, .draw 1 ⟨0, 2, 2, by decide⟩, .upload 1 (fun _ ↦ 9) 0 1, .submit, .beginFrame 3 2 0]

theorem keptPreserveRun_admissible :
    Admissible (Enabled fun _ ↦ false) (act fun _ ↦ false) twoByteBuffer keptPreserveRun := by
  refine ⟨⟨rfl, by decide, ⟨by decide, by decide, ?_⟩, by decide⟩, rfl, rfl,
    ⟨rfl, by decide, ⟨by decide, by decide, ?_⟩, by decide⟩, rfl, rfl, rfl,
    ⟨rfl, by decide, ⟨by decide, by decide, ?_⟩, by decide⟩, trivial⟩ <;>
  · intro seq hs hab
    exact absurd hab (by decide)

theorem staged_bytes_recovered_kept :
    ∃ b, (keptPreserveRun.foldl (act fun _ ↦ false) twoByteBuffer).enc.staged? 1 = some b ∧ b.length = 2 ∧
      ((keptPreserveRun.foldl (act fun _ ↦ false) twoByteBuffer).enc.pendingStageUploads.forKey 1 = [] →
        ∀ p < b.length, (keptPreserveRun.foldl (act fun _ ↦ false) twoByteBuffer).memory b.deviceBuffer p =
          applyAll [⟨0, 2, fun _ ↦ 7⟩, ⟨0, 1, fun _ ↦ 9⟩] (fun _ ↦ 0) p) :=
  have hb₀ : twoByteBuffer.enc.staged? 1 = some ⟨1, 2, true⟩ := rfl
  staged_bytes_recovered twoByteBuffer_initial
    (reaches_safe (fun _ ↦ rfl) keptPreserveRun_admissible.reaches) hb₀

end StageSystem

end Mtld3d
