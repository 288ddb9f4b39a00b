import Mtld3d.Lib.Sweep
import Mtld3d.PassRun

namespace Mtld3d

open Lib List

def pendingPipelineBit : ℕ := 9223372036854775808

abbrev PipelineHandle := { raw : ℕ // raw < pendingPipelineBit }

def isPlaceholder (raw : ℕ) : Bool := decide (raw / pendingPipelineBit % 2 ≠ 0)

/-- The record a pipeline bind names, `none` for a real handle. -/
def fromPlaceholder (raw : ℕ) : Option ℕ :=
  if isPlaceholder raw then
    if raw % pendingPipelineBit < 4294967296 then some (raw % pendingPipelineBit) else none
  else none

def placeholder (id : ℕ) : ℕ := pendingPipelineBit + id

def resolveCommand (answer : ℕ → Option PipelineHandle) (dropping : Bool) (c : Command) :
    Option Command × Bool :=
  if c.cmd = .setRenderPipelineState then
    match fromPlaceholder c.paramB with
    | none => (some c, false)
    | some id =>
      match answer id with
      | some pipeline => (some { c with paramB := pipeline.val }, false)
      | none => (none, true)
  else if dropping && c.isDraw then (none, dropping)
  else (some c, dropping)

/-- Where a range moves when `kept` counts what stays before each position. -/
def moveRange (kept : List ℕ) (r : ℕ × ℕ) : Option (ℕ × ℕ) := do
  let start ← kept[r.1]?
  let stop ← kept[r.2]?
  some (start, stop)

/-- The pass with every placeholder bind resolved; `none` where a clear-quad range points past the
    commands. -/
def Pass.resolvePendingPipelines (answer : ℕ → Option PipelineHandle) (p : Pass) : Option Pass :=
  if p.commands.any fun c ↦ decide (c.cmd = .setRenderPipelineState) && isPlaceholder c.paramB then do
    let kept := keptCounts (resolveCommand answer) false 0 p.commands
    let ranges ← p.colorClearQuadRanges.mapM (moveRange kept)
    some { p with
      commands := sweep (resolveCommand answer) false p.commands
      colorClearQuadRanges := ranges }
  else some p

def drawsFrom (σ : EncoderState) : List Command → List (Command × EncoderState)
  | [] => []
  | c :: cs => if c.isDraw then (c, σ) :: drawsFrom (σ.step c) cs else drawsFrom (σ.step c) cs

/-- The pipeline bind a draw runs with once placeholders are answered; `none` without an answer. -/
def resolvedBind (answer : ℕ → Option PipelineHandle) : Option Command → Option (Option Command)
  | none => some none
  | some bind =>
    match fromPlaceholder bind.paramB with
    | none => some (some bind)
    | some id => (answer id).map fun pipeline ↦ some { bind with paramB := pipeline.val }

def resolvedDraw (answer : ℕ → Option PipelineHandle) (d : Command × EncoderState) :
    Option (Command × EncoderState) :=
  (resolvedBind answer (d.2 .pipeline)).map fun bind ↦
    (d.1, fun k ↦ if k = .pipeline then bind else d.2 k)

variable {answer : ℕ → Option PipelineHandle} {c : Command} {σ τ : EncoderState} {dropping : Bool}

theorem fromPlaceholder_handle (pipeline : PipelineHandle) : fromPlaceholder pipeline.val = none := by
  have hreal : isPlaceholder pipeline.val = false := by
    simp [isPlaceholder, Nat.div_eq_of_lt pipeline.property]
  simp [fromPlaceholder, hreal]

/-- The encoder of the resolved list agrees off the pipeline, and on it up to the answer while draws
    are kept. -/
structure Follows (answer : ℕ → Option PipelineHandle) (dropping : Bool) (σ τ : EncoderState) : Prop where
  others : ∀ k, k ≠ .pipeline → τ k = σ k
  pipeline : resolvedBind answer (σ .pipeline) = if dropping then none else some (τ .pipeline)

theorem Follows.resolvedDraw (h : Follows answer dropping σ τ) (d : Command) :
    resolvedDraw answer (d, σ) = if dropping then none else some (d, τ) := by
  unfold Mtld3d.resolvedDraw
  rw [h.pipeline]
  cases dropping with
  | true => rfl
  | false =>
    have hstate : (fun k ↦ if k = StateKey.pipeline then τ .pipeline else σ k) = τ := by
      funext k
      by_cases hk : k = .pipeline
      · rw [if_pos hk, hk]
      · rw [if_neg hk, h.others k hk]
    simp [hstate]

theorem step_bind_pipeline (h : c.cmd = .setRenderPipelineState) : σ.step c .pipeline = some c := by
  have hsets : c.sets = [.pipeline] := by simp [Command.sets, h]
  have hfresh : c.setsFreshValue = false := by
    obtain ⟨cmd, a, b, c, d⟩ := c
    cases h
    rfl
  simp [EncoderState.step, hsets, hfresh]

theorem step_bind_other (h : c.cmd = .setRenderPipelineState) {k : StateKey} (hk : k ≠ .pipeline) :
    σ.step c k = σ k := by
  have hsets : c.sets = [.pipeline] := by simp [Command.sets, h]
  simp [EncoderState.step, hsets, hk]

theorem step_other_pipeline (h : c.cmd ≠ .setRenderPipelineState) : σ.step c .pipeline = σ .pipeline := by
  have hsets : StateKey.pipeline ∉ c.sets := by
    unfold Command.sets
    split <;> simp_all
  simp [EncoderState.step, hsets]

theorem Follows.step_other (h : Follows answer dropping σ τ) (hc : c.cmd ≠ .setRenderPipelineState) :
    Follows answer dropping (σ.step c) (τ.step c) where
  others := fun k hk ↦ by
    unfold EncoderState.step
    rw [h.others k hk]
  pipeline := by
    rw [step_other_pipeline hc, step_other_pipeline hc, h.pipeline]

theorem resolveCommand_bind (answer : ℕ → Option PipelineHandle) (hc : c.cmd = .setRenderPipelineState)
    (dropping : Bool) :
    (fromPlaceholder c.paramB = none ∧ resolveCommand answer dropping c = (some c, false)) ∨
      ∃ id, fromPlaceholder c.paramB = some id ∧
        ((answer id = none ∧ resolveCommand answer dropping c = (none, true)) ∨
          ∃ pipeline : PipelineHandle, answer id = some pipeline ∧
            resolveCommand answer dropping c = (some { c with paramB := pipeline.val }, false)) := by
  unfold resolveCommand
  rw [if_pos hc]
  cases hid : fromPlaceholder c.paramB with
  | none => exact .inl ⟨rfl, rfl⟩
  | some id =>
    refine .inr ⟨id, rfl, ?_⟩
    cases hanswer : answer id with
    | none => exact .inl ⟨rfl, by simp [hanswer]⟩
    | some pipeline => exact .inr ⟨pipeline, rfl, by simp [hanswer]⟩

theorem Follows.step_bind (h : Follows answer dropping σ τ) (hc : c.cmd = .setRenderPipelineState) :
    Follows answer (resolveCommand answer dropping c).2 (σ.step c)
      ((resolveCommand answer dropping c).1.toList.foldl EncoderState.step τ) := by
  obtain ⟨hid, hstep⟩ | ⟨id, hid, ⟨hanswer, hstep⟩ | ⟨pipeline, hanswer, hstep⟩⟩ :=
    resolveCommand_bind answer hc dropping
  · rw [hstep]
    refine ⟨fun k hk ↦ ?_, ?_⟩
    · change τ.step c k = σ.step c k
      rw [step_bind_other hc hk, step_bind_other hc hk, h.others k hk]
    · change resolvedBind answer (σ.step c .pipeline) = some (τ.step c .pipeline)
      rw [step_bind_pipeline hc, step_bind_pipeline hc]
      simp [resolvedBind, hid]
  · rw [hstep]
    refine ⟨fun k hk ↦ ?_, ?_⟩
    · change τ k = σ.step c k
      rw [step_bind_other hc hk, h.others k hk]
    · change resolvedBind answer (σ.step c .pipeline) = none
      rw [step_bind_pipeline hc]
      simp [resolvedBind, hid, hanswer]
  · rw [hstep]
    have hc' : ({ c with paramB := pipeline.val } : Command).cmd = .setRenderPipelineState := hc
    refine ⟨fun k hk ↦ ?_, ?_⟩
    · change τ.step { c with paramB := pipeline.val } k = σ.step c k
      rw [step_bind_other hc' hk, step_bind_other hc hk, h.others k hk]
    · change resolvedBind answer (σ.step c .pipeline) =
        some (τ.step { c with paramB := pipeline.val } .pipeline)
      rw [step_bind_pipeline hc, step_bind_pipeline hc']
      simp [resolvedBind, hid, hanswer]

theorem isDraw_ne_bind (h : c.isDraw = true) : c.cmd ≠ .setRenderPipelineState := by
  intro hc
  simp [Command.isDraw, hc] at h

theorem drawsFrom_append (as bs : List Command) :
    drawsFrom σ (as ++ bs) = drawsFrom σ as ++ drawsFrom (as.foldl EncoderState.step σ) bs := by
  induction as generalizing σ with
  | nil => rfl
  | cons a as ih =>
    rw [cons_append, drawsFrom, drawsFrom, ih]
    split <;> rfl

theorem step_draw (h : c.isDraw = true) : σ.step c = σ := by
  have hsets : c.sets = [] := by
    unfold Command.sets
    unfold Command.isDraw at h
    split <;> simp_all
  funext k
  simp [EncoderState.step, hsets]

/-- The sweep keeps, in order, the draws whose bind is real or answered, each with its own state and the
    answered handle. -/
theorem drawsFrom_sweep (h : Follows answer dropping σ τ) (cs : List Command) :
    drawsFrom τ (sweep (resolveCommand answer) dropping cs) =
      (drawsFrom σ cs).filterMap (resolvedDraw answer) := by
  induction cs generalizing σ τ dropping with
  | nil => rfl
  | cons c cs ih =>
    rw [sweep, drawsFrom_append]
    by_cases hc : c.cmd = .setRenderPipelineState
    · have hdraw : c.isDraw = false := by
        by_contra hnot
        exact isDraw_ne_bind (by simpa using hnot) hc
      have hnone : drawsFrom τ (resolveCommand answer dropping c).1.toList = [] := by
        obtain ⟨-, hstep⟩ | ⟨id, -, ⟨-, hstep⟩ | ⟨pipeline, -, hstep⟩⟩ := resolveCommand_bind answer hc dropping
        · simp [hstep, drawsFrom, hdraw]
        · simp [hstep, drawsFrom]
        · have hdraw' : ({ c with paramB := pipeline.val } : Command).isDraw = false := hdraw
          simp [hstep, drawsFrom, hdraw']
      rw [hnone, ih (h.step_bind hc), drawsFrom, hdraw]
      rfl
    · by_cases hdrop : (dropping && c.isDraw) = true
      · obtain ⟨hd, hdraw⟩ := Bool.and_eq_true _ _ ▸ hdrop
        have hstep : resolveCommand answer dropping c = (none, dropping) := by
          simp [resolveCommand, hc, hd, hdraw]
        have hgone : resolvedDraw answer (c, σ) = none := by
          rw [h.resolvedDraw, hd, if_pos rfl]
        rw [hstep, drawsFrom, if_pos hdraw, step_draw hdraw, filterMap_cons_none hgone, ← ih h]
        rfl
      · have hstep : resolveCommand answer dropping c = (some c, dropping) := by
          simp only [resolveCommand, if_neg hc, if_neg hdrop]
        rw [hstep]
        change drawsFrom τ [c] ++ drawsFrom (τ.step c) (sweep (resolveCommand answer) dropping cs) = _
        rw [ih (h.step_other hc), drawsFrom, drawsFrom, drawsFrom]
        by_cases hdraw : c.isDraw = true
        · have hd : dropping = false := by simpa [hdraw] using hdrop
          have hkept : resolvedDraw answer (c, σ) = some (c, τ) := by
            rw [h.resolvedDraw, hd]
            rfl
          rw [if_pos hdraw, if_pos hdraw, filterMap_cons_some hkept]
          rfl
        · rw [if_neg hdraw, if_neg hdraw]
          rfl

def Pass.RangesInBounds (p : Pass) : Prop :=
  ∀ r ∈ p.colorClearQuadRanges, r.1 ≤ p.commands.length ∧ r.2 ≤ p.commands.length

def keptBefore (answer : ℕ → Option PipelineHandle) (cs : List Command) (k : ℕ) : ℕ :=
  ((keptCounts (resolveCommand answer) false 0 cs)[k]?).getD 0

variable {cs : List Command}

theorem keptCounts_keptBefore (answer : ℕ → Option PipelineHandle) {k : ℕ} (h : k ≤ cs.length) :
    (keptCounts (resolveCommand answer) false 0 cs)[k]? = some (keptBefore answer cs k) := by
  have hlen : k < (keptCounts (resolveCommand answer) false 0 cs).length := by
    rw [length_keptCounts]
    omega
  rw [keptBefore, List.getElem?_eq_getElem hlen]
  rfl

theorem resolveCommand_real (hreal : c.cmd = .setRenderPipelineState → fromPlaceholder c.paramB = none) :
    resolveCommand answer false c = (some c, false) := by
  by_cases hc : c.cmd = .setRenderPipelineState
  · simp [resolveCommand, hc, hreal hc]
  · simp [resolveCommand, hc]

theorem sweep_real (hreal : ∀ c ∈ cs, c.cmd = .setRenderPipelineState → fromPlaceholder c.paramB = none) :
    sweep (resolveCommand answer) false cs = cs := by
  induction cs with
  | nil => rfl
  | cons c cs ih =>
    rw [sweep, resolveCommand_real (hreal c mem_cons_self)]
    exact congrArg (c :: ·) (ih fun c hc ↦ hreal c (mem_cons_of_mem _ hc))

theorem keptCounts_real {n k : ℕ}
    (hreal : ∀ c ∈ cs, c.cmd = .setRenderPipelineState → fromPlaceholder c.paramB = none) (hk : k ≤ cs.length) :
    (keptCounts (resolveCommand answer) false n cs)[k]? = some (n + k) := by
  induction cs generalizing n k with
  | nil =>
    cases Nat.le_zero.mp hk
    rfl
  | cons c cs ih =>
    rw [keptCounts, resolveCommand_real (hreal c mem_cons_self)]
    cases k with
    | zero => rfl
    | succ k =>
      have htail := ih (n := n + 1) (fun c hc ↦ hreal c (mem_cons_of_mem _ hc)) (Nat.le_of_succ_le_succ hk)
      rw [List.getElem?_cons_succ]
      refine htail.trans ?_
      congr 1
      omega

def Pass.resolved (answer : ℕ → Option PipelineHandle) (p : Pass) : Pass :=
  { p with
    commands := sweep (resolveCommand answer) false p.commands
    colorClearQuadRanges := p.colorClearQuadRanges.map fun r ↦
      (keptBefore answer p.commands r.1, keptBefore answer p.commands r.2) }

theorem Pass.resolvePendingPipelines_eq {p : Pass} (h : p.RangesInBounds) :
    p.resolvePendingPipelines answer = some (p.resolved answer) := by
  unfold Pass.resolvePendingPipelines
  split
  · have hranges : p.colorClearQuadRanges.mapM (moveRange (keptCounts (resolveCommand answer) false 0 p.commands)) =
        some (p.resolved answer).colorClearQuadRanges := by
      refine mapM_eq_map fun r hr ↦ ?_
      obtain ⟨hstart, hstop⟩ := h r hr
      simp [moveRange, keptCounts_keptBefore answer hstart, keptCounts_keptBefore answer hstop]
    simp only [hranges]
    rfl
  · rename_i hnone
    have hreal : ∀ c ∈ p.commands, c.cmd = .setRenderPipelineState → fromPlaceholder c.paramB = none := by
      intro c hc hbind
      have hplace : isPlaceholder c.paramB = false := by
        by_contra hyes
        exact hnone (any_eq_true.mpr ⟨c, hc, by simp [hbind, hyes]⟩)
      simp [fromPlaceholder, hplace]
    have hkept : ∀ k, k ≤ p.commands.length → keptBefore answer p.commands k = k := by
      intro k hk
      rw [keptBefore, keptCounts_real hreal hk, Nat.zero_add]
      rfl
    have hranges : (p.resolved answer).colorClearQuadRanges = p.colorClearQuadRanges := by
      refine (map_congr_left fun r hr ↦ ?_).trans (map_id _)
      obtain ⟨hstart, hstop⟩ := h r hr
      rw [hkept _ hstart, hkept _ hstop]
      rfl
    have hcommands : (p.resolved answer).commands = p.commands := sweep_real hreal
    have hsame : p.resolved answer =
        { p with commands := (p.resolved answer).commands
                 colorClearQuadRanges := (p.resolved answer).colorClearQuadRanges } := rfl
    rw [hsame, hcommands, hranges]

theorem mem_sweep_resolved (h : c ∈ sweep (resolveCommand answer) dropping cs)
    (hc : c.cmd = .setRenderPipelineState) : fromPlaceholder c.paramB = none := by
  induction cs generalizing dropping with
  | nil => cases h
  | cons a cs ih =>
    rcases mem_append.mp h with h | h
    · by_cases ha : a.cmd = .setRenderPipelineState
      · obtain ⟨hid, hstep⟩ | ⟨id, -, ⟨-, hstep⟩ | ⟨pipeline, -, hstep⟩⟩ := resolveCommand_bind answer ha dropping
        · rw [hstep] at h
          cases mem_singleton.mp h
          exact hid
        · rw [hstep] at h
          cases h
        · rw [hstep] at h
          cases mem_singleton.mp h
          exact fromPlaceholder_handle pipeline
      · have hsame : c = a := by
          simp only [resolveCommand, if_neg ha] at h
          split at h
          · cases h
          · exact mem_singleton.mp h
        exact absurd (hsame ▸ hc) ha
    · exact ih h

structure Resolves (answer : ℕ → Option PipelineHandle) (p p' : Pass) : Prop where
  /-- No placeholder bind is left. -/
  bound : ∀ c ∈ p'.commands, c.cmd = .setRenderPipelineState → fromPlaceholder c.paramB = none
  /-- The draws left are, in order, those whose bind was real or answered, run with the answered handle
      and every other state as before. -/
  draws : drawsFrom .fresh p'.commands = (drawsFrom .fresh p.commands).filterMap (resolvedDraw answer)
  /-- The commands left are the survivors of the old ones. -/
  commands : p'.commands = (survivors (resolveCommand answer) false 0 p.commands).map Prod.snd
  /-- Each clear-quad range marks the survivors it marked before. -/
  ranges : List.Forall₂ (fun r r' ↦ ∀ j q, (survivors (resolveCommand answer) false 0 p.commands)[j]? = some q →
    (r'.1 ≤ j ∧ j < r'.2 ↔ r.1 ≤ q.1 ∧ q.1 < r.2)) p.colorClearQuadRanges p'.colorClearQuadRanges
  /-- Nothing else of the pass changes. -/
  frame : p' = { p with commands := p'.commands, colorClearQuadRanges := p'.colorClearQuadRanges }

theorem follows_fresh : Follows answer false EncoderState.fresh EncoderState.fresh := ⟨fun _ _ ↦ rfl, rfl⟩

theorem Pass.resolves_resolved {p : Pass} (h : p.RangesInBounds) : Resolves answer p (p.resolved answer) where
  bound := fun _ hmem hc ↦ mem_sweep_resolved hmem hc
  draws := drawsFrom_sweep follows_fresh p.commands
  commands := map_snd_survivors.symm
  ranges := by
    refine List.forall₂_map_right_iff.mpr (List.forall₂_same.mpr fun r hr j q hq ↦ ?_)
    obtain ⟨hstart, hstop⟩ := h r hr
    have hlow := lt_keptCounts_iff (keptCounts_keptBefore answer hstart) hq
    have hhigh := lt_keptCounts_iff (keptCounts_keptBefore answer hstop) hq
    simp only [Nat.zero_add] at hlow hhigh
    rw [hhigh, ← not_lt, hlow, not_lt]
  frame := rfl

/-- Resolving the placeholders of a pass list. -/
theorem resolve_pending_pipelines (answer : ℕ → Option PipelineHandle) (passes : List Pass)
    (h : ∀ p ∈ passes, p.RangesInBounds) :
    ∃ passes', passes.mapM (Pass.resolvePendingPipelines answer) = some passes' ∧
      List.Forall₂ (Resolves answer) passes passes' := by
  refine ⟨_, mapM_eq_map fun p hp ↦ Pass.resolvePendingPipelines_eq (h p hp), ?_⟩
  exact List.forall₂_map_right_iff.mpr (List.forall₂_same.mpr fun p hp ↦ Pass.resolves_resolved (h p hp))

def pendingPass : Pass :=
  { Pass.empty with
    commands := [⟨.setRenderPipelineState, 0, placeholder 3, 0, 0⟩, ⟨.drawPrimitives, 0, 0, 0, 0⟩,
      ⟨.setRenderPipelineState, 0, 7, 0, 0⟩, ⟨.drawPrimitives, 0, 0, 0, 0⟩]
    colorClearQuadRanges := [(2, 4)] }

theorem resolve_pending_pipelines_unanswered :
    (∀ p ∈ [pendingPass], p.RangesInBounds) ∧
      ∃ passes', [pendingPass].mapM (Pass.resolvePendingPipelines fun _ ↦ none) = some passes' ∧
        List.Forall₂ (Resolves fun _ ↦ none) [pendingPass] passes' := by
  have hranges : ∀ p ∈ [pendingPass], p.RangesInBounds := by
    intro p hp
    cases mem_singleton.mp hp
    intro r hr
    cases mem_singleton.mp hr
    decide
  exact ⟨hranges, resolve_pending_pipelines _ _ hranges⟩

end Mtld3d
