import Mtld3d.StageUploadRecovery

namespace Mtld3d

open CopyBufferToBuffer Lib List UploadRecoveryQueue

variable {β : Type}

def StageAction.InFrame : StageAction β → Prop
  | .upload .. | .draw .. | .release .. => True
  | .beginFrame .. | .submit => False

namespace StageSystem

def noAborts : ℕ → Bool := fun _ ↦ false

def FrameStep (s t : StageSystem β) : Prop :=
  ∃ a : StageAction β, a.InFrame ∧ s.Enabled noAborts a ∧ t = s.act noAborts a

variable {s₀ s t : StageSystem β}

theorem FrameStep.step (h : FrameStep s t) : Step noAborts s t := by
  obtain ⟨a, -, he, rfl⟩ := h
  exact ⟨a, he, rfl⟩

theorem Inv.of_reaches (h₀ : s₀.Initial) (h : Relation.ReflTransGen (Step noAborts) s₀ s) :
    Inv noAborts s₀ s :=
  Inv.run h₀ (reaches_safe (fun _ ↦ rfl) h)

theorem Inv.copies_eq (h : Inv noAborts s₀ s) {id : BufferId} {b₀ b : BufferState}
    (hb₀ : s₀.enc.staged? id = some b₀) (hb : s.enc.staged? id = some b) {p : ℕ} (hp : p < b.length) :
    runAll s.enc.frameBlitCommands s.memory b.deviceBuffer p = s₀.expected s id b₀ p := by
  have hcontent := h.content id b₀ b hb₀ hb p hp _ [] (append_nil _).symm (fun _ _ ↦ rfl)
  simpa [settledMemory, noAborts] using hcontent

/-- Byte `p` of device buffer `buf`, bound by a draw of buffer `id`: copies recorded since then
leave it alone, because it is still noted as drawn or its buffer belongs to nobody. -/
structure Snapshot (base : List (CopyBufferToBuffer β)) (id : BufferId) (buf : BufferHandle) (p : ℕ)
    (m : BufferMemory β) (t : StageSystem β) : Prop where
  copies : ∃ new, t.enc.frameBlitCommands = base ++ new ∧ ∀ c ∈ new, ¬ c.Writes buf p
  held : (∃ b, t.enc.staged? id = some b ∧ b.deviceBuffer = buf ∧ (t.enc.drawnRanges id).Contains p) ∨
    ∀ id' b', t.enc.staged? id' = some b' → b'.deviceBuffer ≠ buf
  lt : buf < t.enc.nextHandle
  memory : t.memory = m

variable {base : List (CopyBufferToBuffer β)} {id : BufferId} {buf : BufferHandle} {p : ℕ}
  {m : BufferMemory β}

theorem Snapshot.append (h : Snapshot base id buf p m s) (new : List (CopyBufferToBuffer β))
    (hblits : t.enc.frameBlitCommands = s.enc.frameBlitCommands ++ new) (hnew : ∀ c ∈ new, ¬ c.Writes buf p) :
    ∃ new, t.enc.frameBlitCommands = base ++ new ∧ ∀ c ∈ new, ¬ c.Writes buf p := by
  obtain ⟨old, hold, hskip⟩ := h.copies
  refine ⟨old ++ new, by rw [hblits, hold, append_assoc], fun c hc ↦ ?_⟩
  obtain hc | hc := mem_append.mp hc
  · exact hskip c hc
  · exact hnew c hc

theorem not_overlap_of_contains {e : FrameEncoder β} {dstOffset size : ℕ}
    (h : e.drawnRangeOverlaps id dstOffset size = false) (hc : (e.drawnRanges id).Contains p)
    (hp : p < u32Max) : ¬ (dstOffset ≤ p ∧ p < dstOffset + size) := by
  rintro ⟨h₁, h₂⟩
  have hover := DirtyRange.overlaps_of_contains hc h₁
    (show p < saturatingAdd dstOffset size from lt_min h₂ hp)
  rw [FrameEncoder.drawnRangeOverlaps, hover] at h
  exact Bool.noConfusion h

theorem Snapshot.upload (hi : Inv noAborts s₀ s) (h : Snapshot base id buf p m s) (hp : p < u32Max)
    (id' : BufferId) (page : ℕ → β) (dstOffset size : ℕ) :
    Snapshot base id buf p m (s.act noAborts (.upload id' page dstOffset size)) := by
  cases hb : s.enc.staged? id' with
  | none =>
    have henc := upload_enc_of_unstaged noAborts page dstOffset size hb
    exact ⟨by rw [henc]; exact h.copies, by rw [henc]; exact h.held, by rw [henc]; exact h.lt, h.memory⟩
  | some b =>
    obtain ⟨h0, hlt⟩ := hi.handles id' b hb
    obtain ⟨ho, he⟩ | ⟨ho, he⟩ := FrameEncoder.applyStageUpload_cases hb h0 page dstOffset size
    · refine ⟨h.append [⟨.transient page, b.deviceBuffer, 0, dstOffset, size⟩]
        (by simp [act, he]) ?_, ?_, ?_, h.memory⟩
      · intro c hc hw
        obtain rfl := mem_singleton.mp hc
        obtain ⟨hdst, hcov⟩ := hw
        obtain ⟨b', hb', hbuf, hdrawn⟩ | hfree := h.held
        · have hid : id' = id := hi.distinct id' id b b' hb hb' (hdst.trans hbuf.symm)
          subst hid
          exact not_overlap_of_contains ho hdrawn hp hcov
        · exact hfree id' b hb hdst
      · simp only [act, he]
        exact h.held
      · simp only [act, he]
        exact h.lt
    · refine ⟨h.append _ (by simp only [act, he]; rfl) ?_, ?_, ?_, h.memory⟩
      · intro c hc hw
        have hdst : c.dstBuffer = s.enc.nextHandle := by
          obtain hc | hc := mem_append.mp hc
          · split_ifs at hc
            · rw [mem_singleton.mp hc]
            · simp at hc
          · rw [mem_singleton.mp hc]
        exact ne_of_lt h.lt (hw.1.symm.trans hdst)
      · -- after the rename nobody else owns the drawn buffer
        have hstaged (j : BufferId) (hj : j ≠ id') :
            (s.act noAborts (.upload id' page dstOffset size)).enc.staged? j = s.enc.staged? j := by
          simp only [act, he]
          exact FrameEncoder.staged?_setDeviceBuffer_of_ne s.enc hj _
        have hself : (s.act noAborts (.upload id' page dstOffset size)).enc.staged? id' =
            some { b with deviceBuffer := s.enc.nextHandle } := by
          simp only [act, he]
          exact FrameEncoder.staged?_setDeviceBuffer_self hb _
        obtain ⟨b', hb', hbuf, hdrawn⟩ | hfree := h.held
        · by_cases hid : id = id'
          · right
            intro j c hc
            by_cases hj : j = id'
            · rw [hj, hself, Option.some.injEq] at hc
              rw [← hc]
              exact (ne_of_lt h.lt).symm
            · rw [hstaged j hj] at hc
              intro heq
              exact hj (hid ▸ hi.distinct j id c b' hc hb' (heq.trans hbuf.symm))
          · left
            refine ⟨b', by rw [hstaged id hid]; exact hb', hbuf, ?_⟩
            simp only [act, he, Function.update_of_ne hid]
            exact hdrawn
        · right
          intro j c hc
          by_cases hj : j = id'
          · rw [hj, hself, Option.some.injEq] at hc
            rw [← hc]
            exact (ne_of_lt h.lt).symm
          · rw [hstaged j hj] at hc
            exact hfree j c hc
      · simp only [act, he]
        exact h.lt.trans (Nat.lt_succ_self _)

theorem Snapshot.draw (h : Snapshot base id buf p m s) (id' : BufferId) (read : DrawRead) :
    Snapshot base id buf p m (s.act noAborts (.draw id' read)) := by
  refine ⟨h.copies, ?_, h.lt, h.memory⟩
  obtain ⟨b, hb, hbuf, hdrawn⟩ | hfree := h.held
  · refine .inl ⟨b, hb, hbuf, ?_⟩
    by_cases hid : id = id'
    · subst hid
      simpa [act, FrameEncoder.noteBufferDrawRange] using hdrawn.conjoin read.offset read.size read.logicalLen
    · simpa [act, FrameEncoder.noteBufferDrawRange, hid] using hdrawn
  · exact .inr hfree

theorem Snapshot.frameStep (hi : Inv noAborts s₀ s) (h : Snapshot base id buf p m s) (hp : p < u32Max)
    (hstep : FrameStep s t) : Snapshot base id buf p m t := by
  obtain ⟨a, hin, he, rfl⟩ := hstep
  cases a with
  | upload id' page dstOffset size => exact h.upload hi hp id' page dstOffset size
  | draw id' read => exact h.draw id' read
  | release settled failed => exact ⟨h.copies, h.held, h.lt, h.memory⟩
  | beginFrame seq settled failed => exact hin.elim
  | submit => exact hin.elim

theorem FrameStep.blits_grow (hi : Inv noAborts s₀ s) (hstep : FrameStep s t) :
    s.enc.frameBlitCommands <+: t.enc.frameBlitCommands := by
  obtain ⟨a, hin, he, rfl⟩ := hstep
  cases a with
  | upload id page dstOffset size =>
    cases hb : s.enc.staged? id with
    | none => exact ⟨[], by rw [upload_enc_of_unstaged noAborts page dstOffset size hb, append_nil]⟩
    | some b =>
      obtain ⟨b', new, hnew⟩ := hi.upload_effect page dstOffset size hb
      exact ⟨new, hnew.blits.symm⟩
  | draw id read => exact prefix_refl _
  | release settled failed => exact prefix_refl _
  | beginFrame seq settled failed => exact hin.elim
  | submit => exact hin.elim

theorem frameSteps_blits_grow (hi : Inv noAborts s₀ s) (hf : Relation.ReflTransGen FrameStep s t) :
    s.enc.frameBlitCommands <+: t.enc.frameBlitCommands := by
  suffices h : Inv noAborts s₀ t ∧ s.enc.frameBlitCommands <+: t.enc.frameBlitCommands from h.2
  induction hf with
  | refl => exact ⟨hi, prefix_refl _⟩
  | tail _ hstep ih =>
    obtain ⟨hu, hpre⟩ := ih
    exact ⟨hu.step (hstep.step.safe fun _ ↦ rfl), hpre.trans (hstep.blits_grow hu)⟩

theorem Inv.snapshot_draw (hi : Inv noAborts s₀ s) {b : BufferState} (hb : s.enc.staged? id = some b)
    {d : DrawRead} (hd : d.Reads p) :
    Snapshot s.enc.frameBlitCommands id b.deviceBuffer p s.memory (s.act noAborts (.draw id d)) := by
  refine ⟨⟨[], (append_nil _).symm, by simp⟩, .inl ⟨b, hb, rfl, ?_⟩, (hi.handles id b hb).2, rfl⟩
  simpa [act, FrameEncoder.noteBufferDrawRange] using DirtyRange.contains_conjoin hd _

theorem Snapshot.run (h₀ : s₀.Initial) (hr : Relation.ReflTransGen (Step noAborts) s₀ s)
    (h : Snapshot base id buf p m s) (hp : p < u32Max) (hf : Relation.ReflTransGen FrameStep s t) :
    Snapshot base id buf p m t := by
  induction hf with
  | refl => exact h
  | @tail u v hu hstep ih =>
    have hreach : Relation.ReflTransGen (Step noAborts) s₀ u :=
      hr.trans (Relation.ReflTransGen.mono (fun _ _ hs ↦ FrameStep.step hs) _ _ hu)
    exact ih.frameStep (Inv.of_reaches h₀ hreach) hp hstep

/-- Every byte a draw fetches inside its recorded range is the API-order value of the uploads issued
before it, however many uploads and renames follow in its frame, and none of the copies recorded
after it writes that byte of the buffer it bound. -/
theorem draw_fetches_api_order (h₀ : s₀.Initial) (hr : Relation.ReflTransGen (Step noAborts) s₀ s)
    (hrec : s.recording = true) {b₀ b : BufferState} (hb₀ : s₀.enc.staged? id = some b₀)
    (hb : s.enc.staged? id = some b) (d : DrawRead)
    (hf : Relation.ReflTransGen FrameStep (s.act noAborts (.draw id d)) t) :
    ∃ new, t.enc.frameBlitCommands = s.enc.frameBlitCommands ++ new ∧
      ∀ p < b.length, d.Reads p →
        (t.act noAborts .submit).memory b.deviceBuffer p =
            Patch.applyAll (s.issued id) (s₀.memory b₀.deviceBuffer) p ∧
          ∀ c ∈ new, ¬ c.Writes b.deviceBuffer p := by
  have hi := Inv.of_reaches h₀ hr
  have hdraw : Step noAborts s (s.act noAborts (.draw id d)) := ⟨.draw id d, hrec, rfl⟩
  have hsnap (p : ℕ) (hd : d.Reads p) :
      Snapshot s.enc.frameBlitCommands id b.deviceBuffer p s.memory t := by
    have hp : p < u32Max := hd.lt.trans_le d.logicalLen_le
    exact (hi.snapshot_draw hb hd).run h₀ (hr.tail hdraw) hp hf
  have hgrow : s.enc.frameBlitCommands <+: t.enc.frameBlitCommands := by
    by_cases hany : ∃ p, d.Reads p
    · obtain ⟨p, hd⟩ := hany
      obtain ⟨new, hnew, -⟩ := (hsnap p hd).copies
      exact ⟨new, hnew.symm⟩
    · have hgo := frameSteps_blits_grow (hi.step (hdraw.safe fun _ ↦ rfl)) hf
      exact hgo
  obtain ⟨new, hnew⟩ := hgrow
  refine ⟨new, hnew.symm, fun p hp hd ↦ ?_⟩
  obtain ⟨new', hnew', hskip⟩ := (hsnap p hd).copies
  obtain rfl : new' = new := append_cancel_left (hnew'.symm.trans hnew.symm)
  refine ⟨?_, hskip⟩
  calc (t.act noAborts .submit).memory b.deviceBuffer p
      = runAll t.enc.frameBlitCommands t.memory b.deviceBuffer p := by simp [act, noAborts]
    _ = runAll s.enc.frameBlitCommands s.memory b.deviceBuffer p := by
      rw [hnew', runAll_append, runAll_of_not_writes hskip, (hsnap p hd).memory]
    _ = s₀.expected s id b₀ p := hi.copies_eq hb₀ hb hp

def drawRun : List (StageAction ℕ) :=
  [.beginFrame 1 0 0, .upload 1 (fun _ ↦ 7) 0 2, .submit, .beginFrame 2 1 0]

theorem drawRun_admissible : Admissible (Enabled noAborts) (act noAborts) twoByteBuffer drawRun := by
  refine ⟨⟨rfl, by decide, ⟨by decide, by decide, ?_⟩, by decide⟩, rfl, rfl,
    ⟨rfl, by decide, ⟨by decide, by decide, ?_⟩, by decide⟩, trivial⟩ <;>
  · intro seq hs hab
    simp [noAborts] at hab

theorem draw_fetches_api_order_renamed :
    ∃ new, (((drawRun.foldl (act noAborts) twoByteBuffer).act noAborts
          (.draw 1 ⟨0, 2, 2, by decide⟩)).act noAborts
            (.upload 1 (fun _ ↦ 9) 0 1)).enc.frameBlitCommands =
        (drawRun.foldl (act noAborts) twoByteBuffer).enc.frameBlitCommands ++ new ∧
      ∀ p < 2, (DrawRead.mk 0 2 2 (by decide)).Reads p →
        ((((drawRun.foldl (act noAborts) twoByteBuffer).act noAborts
          (.draw 1 ⟨0, 2, 2, by decide⟩)).act noAborts
            (.upload 1 (fun _ ↦ 9) 0 1)).act noAborts .submit).memory 1 p =
            Patch.applyAll [⟨0, 2, fun _ ↦ 7⟩] (fun _ ↦ 0) p ∧
          ∀ c ∈ new, ¬ c.Writes 1 p :=
  have hb₀ : twoByteBuffer.enc.staged? 1 = some ⟨1, 2, true⟩ := rfl
  have hb : (drawRun.foldl (act noAborts) twoByteBuffer).enc.staged? 1 = some ⟨1, 2, true⟩ := rfl
  draw_fetches_api_order twoByteBuffer_initial drawRun_admissible.reaches rfl hb₀ hb _
    (.single ⟨.upload 1 (fun _ ↦ 9) 0 1, trivial, rfl, rfl⟩)

end StageSystem

end Mtld3d
