import Mtld3d.StripPasses

namespace Mtld3d

open List Lib Machine Command

variable {V : Type}

def Command.toNoColor (alt : Handle → Option Handle) (c : Command) : Command :=
  if c.cmd = .setRenderPipelineState then
    match alt c.paramB with
    | some noColor => { c with paramB := noColor }
    | none => c
  else c

namespace Pass

variable (p : Pass) (alt : Handle → Option Handle)

def hasRealDraw : Bool := (keepIdx (fun idx ↦ !p.inClearQuad idx) 0 p.commands).any isDraw

def allResolvable : Bool :=
  (keepIdx (fun idx ↦ !p.inClearQuad idx) 0 p.commands).all fun c ↦
    decide (c.cmd ≠ .setRenderPipelineState) || (alt c.paramB).isSome

def keepsColor : Bool :=
  p.colorFlags.writesObserved || !(p.color rt0).isBound || decide (p.depthTexture = 0) ||
    !p.colorExtentCoversDepth || p.colorWrittenWithoutDraws ||
    (List.finRange 4).any fun i ↦ decide (i ≠ rt0) && (p.color i).writtenWithoutDraws

def noColorCommands : List Command :=
  p.colorClearQuadRanges.reverse.foldl (fun commands range ↦ drain range commands)
    (mapWhere (fun idx ↦ !p.inClearQuad idx) (toNoColor alt) 0 p.commands)

def toNoColor : Pass :=
  { p with
    color := fun i ↦ if i = rt0 then (p.color i).drop else .none
    commands := p.noColorCommands alt
    colorClearQuadRanges := [] }

def stripColor : Pass :=
  if p.keepsColor || !p.hasRealDraw || !p.allResolvable alt ||
      !p.colorClearQuadRanges.isEmpty && p.boundColor.any fun i ↦ decide ((p.color i).store = .store) then p
  else p.toNoColor alt

def stateAt (n : ℕ) : EncoderState := (p.commands.take n).foldl EncoderState.step .fresh

def ownStateAt (n : ℕ) : EncoderState :=
  (keepIdx (fun idx ↦ !p.inClearQuad idx) 0 (p.commands.take n)).foldl EncoderState.step .fresh

/-- After every command of a clear-quad block that sets the slot, one of the first `n` commands outside the
blocks sets it again. -/
def SetsAgain (n : ℕ) (k : StateKey) : Prop :=
  ∀ i a, i < n → p.commands[i]? = some a → p.inClearQuad i = true → k ∈ a.sets →
    ∃ j b, i < j ∧ j < n ∧ p.commands[j]? = some b ∧ p.inClearQuad j = false ∧ k ∈ b.sets

end Pass

def stripColorFromNoColorDrawPasses (alt : Handle → Option Handle) (ps : List Pass) : List Pass :=
  ps.map (Pass.stripColor · alt)

/-- Every mapped pipeline reads the bindings of its original and has its effect on depth and stencil. -/
structure Twins (M : Machine V) (alt : Handle → Option Handle) : Prop where
  reads : ∀ c pipeline noColor, pipeline.cmd = .setRenderPipelineState → alt pipeline.paramB = some noColor →
    M.reads c (some { pipeline with paramB := noColor }) = M.reads c (some pipeline)
  effect : ∀ c σ pipeline noColor samples views views' tile tile', pipeline.cmd = .setRenderPipelineState →
    alt pipeline.paramB = some noColor → σ .pipeline = some pipeline →
    tile .depth = tile' .depth → tile .stencil = tile' .stencil → ∀ t, t = .depth ∨ t = .stencil → ∀ x y,
      M.draw c (Function.update σ .pipeline (some { pipeline with paramB := noColor })) samples views' tile' t x y =
        M.draw c σ samples views tile t x y

structure DrawsRecorded (M : Machine V) (p : Pass) : Prop where
  quads : p.QuadsOrdered
  /-- A draw runs with a pipeline bound. -/
  bound : ∀ n c, p.commands[n]? = some c → c.isDraw = true → p.inClearQuad n = false →
    ∃ pipeline, p.stateAt n .pipeline = some pipeline
  /-- What a clear-quad block sets is set again after it for each draw that reads it. -/
  reemitted : ∀ n c, p.commands[n]? = some c → c.isDraw = true → p.inClearQuad n = false →
    ∀ k, (k.isFixed || M.reads c (p.stateAt n .pipeline) k) = true → p.SetsAgain n k
  /-- Without the colour-write flag no draw outside the clear-quad blocks changes a colour attachment. -/
  noColor : p.colorFlags.writesObserved = false → ∀ n c, p.commands[n]? = some c → c.isDraw = true →
    p.inClearQuad n = false → ∀ samples tile i x y v, tile (.color i) x y = some v →
      M.draw c (M.visible (p.stateAt n) c) samples p.attachedViews tile (.color i) x y = v
  /-- A clear quad runs with the inert depth-stencil state. -/
  inert : ∀ n c, p.commands[n]? = some c → c.isDraw = true → p.inClearQuad n = true →
    ∀ samples tile t x y v, t = .depth ∨ t = .stencil → tile t x y = some v →
      M.draw c (M.visible (p.stateAt n) c) samples p.attachedViews tile t x y = v

namespace Pass

variable {p : Pass} {n : ℕ} {c : Command} {k : StateKey}

theorem own_succ (hc : p.commands[n]? = some c) :
    keepIdx (fun idx ↦ !p.inClearQuad idx) 0 (p.commands.take (n + 1)) =
      keepIdx (fun idx ↦ !p.inClearQuad idx) 0 (p.commands.take n) ++ if p.inClearQuad n then [] else [c] := by
  have hn : n < p.commands.length := (List.getElem?_eq_some_iff.mp hc).1
  rw [take_add_one, hc, Option.toList_some, keepIdx_append, length_take, Nat.min_eq_left hn.le, Nat.zero_add]
  cases hq : p.inClearQuad n <;> simp [keepIdx, hq]

theorem stateAt_succ (hc : p.commands[n]? = some c) : p.stateAt (n + 1) = (p.stateAt n).step c := by
  rw [stateAt, take_add_one, hc, Option.toList_some, foldl_append]
  rfl

theorem ownStateAt_succ (hc : p.commands[n]? = some c) :
    p.ownStateAt (n + 1) = if p.inClearQuad n then p.ownStateAt n else (p.ownStateAt n).step c := by
  rw [ownStateAt, own_succ hc, foldl_append]
  cases p.inClearQuad n <;> rfl

theorem ownStateAt_eq (hn : n ≤ p.commands.length) (h : p.SetsAgain n k) : p.ownStateAt n k = p.stateAt n k := by
  induction n with
  | zero => rfl
  | succ n ih =>
    have hc : p.commands[n]? = some (p.commands.get ⟨n, hn⟩) := List.getElem?_eq_getElem hn
    rw [stateAt_succ hc, ownStateAt_succ hc]
    by_cases hk : k ∈ (p.commands.get ⟨n, hn⟩).sets
    · cases hq : p.inClearQuad n with
      | true =>
        obtain ⟨j, b, hlt, hlt', -⟩ := h n _ (by omega) hc hq hk
        omega
      | false => simp only [Bool.false_eq_true, if_false, EncoderState.step, hk, if_true]
    · have hprev : p.SetsAgain n k := by
        intro i a hi ha hqi hka
        obtain ⟨j, b, hij, hj, hb, hqj, hkb⟩ := h i a (by omega) ha hqi hka
        refine ⟨j, b, hij, ?_, hb, hqj, hkb⟩
        by_contra hlt
        obtain rfl : j = n := by omega
        rw [hc] at hb
        exact hk (Option.some.inj hb ▸ hkb)
      have hstep := ih (by omega) hprev
      cases p.inClearQuad n with
      | true => simpa only [if_true, EncoderState.step, hk, if_false] using hstep
      | false => simpa only [Bool.false_eq_true, EncoderState.step, hk, if_false] using hstep

end Pass

section RuleH

variable {M : Machine V} {p : Pass} {alt : Handle → Option Handle} {n : ℕ} {c : Command}

theorem DrawsRecorded.visible_eq (h : DrawsRecorded M p) (hc : p.commands[n]? = some c) (hd : c.isDraw = true)
    (hq : p.inClearQuad n = false) :
    p.ownStateAt n .pipeline = p.stateAt n .pipeline ∧ M.visible (p.ownStateAt n) c = M.visible (p.stateAt n) c := by
  have hn : n ≤ p.commands.length := (List.getElem?_eq_some_iff.mp hc).1.le
  have hpipe : p.ownStateAt n .pipeline = p.stateAt n .pipeline :=
    Pass.ownStateAt_eq hn (h.reemitted n c hc hd hq .pipeline rfl)
  refine ⟨hpipe, funext fun k ↦ ?_⟩
  simp only [visible, hpipe]
  split_ifs with hk
  · exact Pass.ownStateAt_eq hn (h.reemitted n c hc hd hq k hk)
  · rfl

theorem toNoColor_of_cmd (h : c.cmd ≠ .setRenderPipelineState) : c.toNoColor alt = c := if_neg h

theorem toNoColor_spec (alt : Handle → Option Handle) (c : Command) :
    (c.toNoColor alt).sets = c.sets ∧ (c.toNoColor alt).setsFreshValue = c.setsFreshValue ∧
      (c.toNoColor alt).isDraw = c.isDraw := by
  by_cases h : c.cmd = .setRenderPipelineState
  · have hcmd : (c.toNoColor alt).cmd = .setRenderPipelineState := by
      simp only [toNoColor, h, if_true]
      cases alt c.paramB with
      | none => exact h
      | some noColor => rfl
    have hvalue (c' : Command) (h' : c'.cmd = .setRenderPipelineState) : c'.setsFreshValue = false := by
      obtain ⟨cmd, a, b, x, y⟩ := c'
      obtain rfl := h'
      simp [setsFreshValue, freshBlendColorCommand]
    refine ⟨by simp [sets, h, hcmd], by rw [hvalue _ h, hvalue _ hcmd], by simp [isDraw, h, hcmd]⟩
  · rw [toNoColor_of_cmd h]
    exact ⟨rfl, rfl, rfl⟩

theorem foldl_step_toNoColor (cs : List Command) (σ : EncoderState) (k : StateKey) :
    (cs.map (toNoColor alt)).foldl EncoderState.step (fun k ↦ (σ k).map (toNoColor alt)) k =
      (cs.foldl EncoderState.step σ k).map (toNoColor alt) := by
  induction cs generalizing σ with
  | nil => rfl
  | cons c cs ih =>
    have hstep : EncoderState.step (fun k ↦ (σ k).map (toNoColor alt)) (c.toNoColor alt) =
        fun k ↦ (σ.step c k).map (toNoColor alt) := by
      obtain ⟨hsets, hfresh, -⟩ := toNoColor_spec alt c
      funext k
      simp only [EncoderState.step, hsets, hfresh]
      split_ifs <;> rfl
    rw [map_cons, foldl_cons, foldl_cons, hstep]
    exact ih _

theorem ownStateAt_spec (hn : n ≤ p.commands.length) {k : StateKey} (h : p.ownStateAt n k = some c) :
    k ∈ c.sets ∧ c ∈ keepIdx (fun idx ↦ !p.inClearQuad idx) 0 p.commands := by
  rw [Pass.ownStateAt, foldl_step_eq] at h
  cases hfind : (keepIdx (fun idx ↦ !p.inClearQuad idx) 0 (p.commands.take n)).reverse.find?
      fun c ↦ decide (k ∈ c.sets) with
  | none => simp [hfind, EncoderState.fresh] at h
  | some c' =>
    simp only [hfind] at h
    split_ifs at h
    obtain rfl := Option.some.inj h
    have hmem := mem_reverse.mp (mem_of_find?_eq_some hfind)
    refine ⟨by simpa using List.find?_some hfind, ?_⟩
    rw [keepIdx_split n hn]
    exact mem_append_left _ hmem

theorem visible_toNoColor (htwins : Twins M alt) (hn : n ≤ p.commands.length) (hres : p.allResolvable alt = true)
    {pipeline : Command} (hpipe : p.ownStateAt n .pipeline = some pipeline) :
    ∃ noColor, pipeline.cmd = .setRenderPipelineState ∧ alt pipeline.paramB = some noColor ∧
      M.visible (fun k ↦ (p.ownStateAt n k).map (toNoColor alt)) c =
        Function.update (M.visible (p.ownStateAt n) c) .pipeline (some { pipeline with paramB := noColor }) := by
  obtain ⟨hsets, hmem⟩ := ownStateAt_spec hn hpipe
  have hcmd : pipeline.cmd = .setRenderPipelineState := by
    obtain ⟨cmd, a, b, x, y⟩ := pipeline
    cases cmd <;> simp_all [sets]
  have hsome := all_eq_true.mp hres pipeline hmem
  simp only [hcmd, ne_eq, not_true_eq_false, decide_false, Bool.false_or] at hsome
  obtain ⟨noColor, halt⟩ := Option.isSome_iff_exists.mp hsome
  have htwin : pipeline.toNoColor alt = { pipeline with paramB := noColor } := by
    simp [toNoColor, hcmd, halt]
  refine ⟨noColor, hcmd, halt, funext fun k ↦ ?_⟩
  simp only [visible, hpipe, Option.map_some, htwin, htwins.reads c pipeline noColor hcmd halt]
  by_cases hk : k = .pipeline
  · subst hk
    simp [StateKey.isFixed, hpipe, htwin]
  · simp only [Function.update_of_ne hk, visible, hpipe]
    split_ifs
    · cases hown : p.ownStateAt n k with
      | none => rfl
      | some c' =>
        have hset := (ownStateAt_spec hn hown).1
        have hother : c'.cmd ≠ .setRenderPipelineState := by
          intro h
          simp only [sets, h, mem_singleton] at hset
          exact hk hset
        rw [Option.map_some, toNoColor_of_cmd hother]
    · rfl

def recordedAt (M : Machine V) (p : Pass) (m : Loc → V) (tile : Tile V) (n : ℕ) : CommandState V :=
  (p.commands.take n).foldl (M.runCommand p.attachedViews m) ⟨.fresh, tile, []⟩

def strippedAt (M : Machine V) (p : Pass) (alt : Handle → Option Handle) (views : Fin 4 → Handle) (m : Loc → V)
    (tile : Tile V) (n : ℕ) : CommandState V :=
  ((keepIdx (fun idx ↦ !p.inClearQuad idx) 0 (p.commands.take n)).map (toNoColor alt)).foldl
    (M.runCommand views m) ⟨.fresh, tile, []⟩

def CommandState.sampled (s : CommandState V) : List (Command × (Loc → Option V)) :=
  s.draws.map fun d ↦ (d.draw, d.samples)

variable {views : Fin 4 → Handle} {m : Loc → V} {tile tile' : Tile V}

theorem recordedAt_succ (hc : p.commands[n]? = some c) :
    recordedAt M p m tile (n + 1) = M.runCommand p.attachedViews m (recordedAt M p m tile n) c := by
  rw [recordedAt, take_add_one, hc, Option.toList_some, foldl_append]
  rfl

theorem strippedAt_succ (hc : p.commands[n]? = some c) :
    strippedAt M p alt views m tile (n + 1) = if p.inClearQuad n then strippedAt M p alt views m tile n
      else M.runCommand views m (strippedAt M p alt views m tile n) (c.toNoColor alt) := by
  rw [strippedAt, Pass.own_succ hc, map_append, foldl_append]
  cases p.inClearQuad n <;> rfl

theorem recordedAt_state : (recordedAt M p m tile n).state = p.stateAt n := foldl_runCommand_state

theorem strippedAt_state : (strippedAt M p alt views m tile n).state =
    fun k ↦ (p.ownStateAt n k).map (toNoColor alt) := by
  funext k
  rw [strippedAt, foldl_runCommand_state]
  exact foldl_step_toNoColor _ .fresh k

/-- The two passes agree on depth and stencil, the recorded one leaves colour alone outside clear quads, and
what the stripped one samples the recorded one does too. -/
structure InStep (p : Pass) (tile : Tile V) (s s' : CommandState V) : Prop where
  depth : s.tile .depth = s'.tile .depth
  stencil : s.tile .stencil = s'.tile .stencil
  color : p.colorClearQuadRanges = [] → ∀ i, s.tile (.color i) = tile (.color i)
  sampled : s'.sampled.Sublist s.sampled

variable {s : CommandState V}

theorem drawTile_keeps {d : DrawRecord V} {t : Target} (hd : d.tile = s.tile)
    (h : ∀ x y v, s.tile t x y = some v → M.draw d.draw d.state d.samples views d.tile t x y = v) :
    M.drawTile views d t = s.tile t := by
  funext x y
  simp only [drawTile, hd]
  cases hv : s.tile t x y with
  | none => rfl
  | some v =>
    have := h x y v hv
    rw [hd] at this
    rw [Option.map_some, this]

theorem runCommand_of_not_draw (hd : c.isDraw = false) :
    (M.runCommand views m s c).tile = s.tile ∧ (M.runCommand views m s c).sampled = s.sampled := by
  simp only [runCommand, hd, Bool.false_eq_true, if_false]
  exact ⟨trivial, rfl⟩

theorem runCommand_of_draw (hd : c.isDraw = true) :
    (M.runCommand views m s c).tile = M.drawTile views (M.drawRecord m s c) ∧
      (M.runCommand views m s c).sampled = s.sampled ++ [(c, (M.drawRecord m s c).samples)] := by
  simp only [runCommand, hd, if_true, CommandState.sampled, map_append, map_singleton]
  exact ⟨trivial, rfl⟩

section Step

variable {s' : CommandState V} (hrec : DrawsRecorded M p)

include hrec

theorem InStep.quad (h : InStep p tile (recordedAt M p m tile n) s') (hc : p.commands[n]? = some c)
    (hq : p.inClearQuad n = true) : InStep p tile (recordedAt M p m tile (n + 1)) s' := by
  rw [recordedAt_succ hc]
  have hranges : p.colorClearQuadRanges ≠ [] := by
    intro hnil
    simp [Pass.inClearQuad, hnil] at hq
  cases hd : c.isDraw with
  | false =>
    obtain ⟨htile, hsampled⟩ := runCommand_of_not_draw (M := M) (m := m) (s := recordedAt M p m tile n) hd
    exact ⟨by rw [htile, h.depth], by rw [htile, h.stencil], fun hnil ↦ absurd hnil hranges, by
      rw [hsampled]
      exact h.sampled⟩
  | true =>
    obtain ⟨htile, hsampled⟩ := runCommand_of_draw (M := M) (m := m) (s := recordedAt M p m tile n) hd
    have hkeeps (t : Target) (ht : t = .depth ∨ t = .stencil) :
        M.drawTile p.attachedViews (M.drawRecord m (recordedAt M p m tile n) c) t =
          (recordedAt M p m tile n).tile t := by
      refine drawTile_keeps rfl fun x y v hv ↦ ?_
      simp only [drawRecord, recordedAt_state]
      exact hrec.inert n c hc hd hq _ _ t x y v ht hv
    refine ⟨?_, ?_, fun hnil ↦ absurd hnil hranges, ?_⟩
    · rw [htile, hkeeps .depth (.inl rfl), h.depth]
    · rw [htile, hkeeps .stencil (.inr rfl), h.stencil]
    · rw [hsampled]
      exact h.sampled.trans (sublist_append_left _ _)

variable (htwins : Twins M alt) (hres : p.allResolvable alt = true) (hflag : p.colorFlags.writesObserved = false)

include htwins hres hflag

theorem InStep.draw (h : InStep p tile (recordedAt M p m tile n) (strippedAt M p alt views m tile' n))
    (hc : p.commands[n]? = some c) (hq : p.inClearQuad n = false) (hd : c.isDraw = true) :
    InStep p tile (M.runCommand p.attachedViews m (recordedAt M p m tile n) c)
      (M.runCommand views m (strippedAt M p alt views m tile' n) c) := by
  obtain ⟨htile, hsampled⟩ := runCommand_of_draw (M := M) (m := m) (s := recordedAt M p m tile n) hd
  obtain ⟨htile', hsampled'⟩ := runCommand_of_draw (M := M) (m := m) (s := strippedAt M p alt views m tile' n) hd
  have hn : n ≤ p.commands.length := (List.getElem?_eq_some_iff.mp hc).1.le
  obtain ⟨hown, hvisible⟩ := hrec.visible_eq hc hd hq
  obtain ⟨pipeline, hpipe⟩ := hrec.bound n c hc hd hq
  obtain ⟨noColor, hcmd, halt, htwin⟩ := visible_toNoColor (c := c) htwins hn hres (hown.trans hpipe)
  rw [hvisible] at htwin
  have hpipe' : M.visible (p.stateAt n) c .pipeline = some pipeline := by
    simp [visible, StateKey.isFixed, hpipe]
  have hsamples : (M.drawRecord m (strippedAt M p alt views m tile' n) c).samples =
      (M.drawRecord m (recordedAt M p m tile n) c).samples := by
    have hreads : M.sampleReads (Function.update (M.visible (p.stateAt n) c) .pipeline
        (some { pipeline with paramB := noColor })) = M.sampleReads (M.visible (p.stateAt n) c) := by
      funext l
      rw [Bool.eq_iff_iff, sampleReads, sampleReads, any_eq_true, any_eq_true]
      refine exists_congr fun k ↦ and_congr_right fun hk ↦ ?_
      have hne : k ≠ .pipeline := by
        rintro rfl
        simp [StateKey.textures] at hk
      rw [Function.update_of_ne hne]
    simp [drawRecord, strippedAt_state, recordedAt_state, htwin, hreads]
  have hdepth (t : Target) (ht : t = .depth ∨ t = .stencil)
      (heq : (recordedAt M p m tile n).tile t = (strippedAt M p alt views m tile' n).tile t) :
      M.drawTile p.attachedViews (M.drawRecord m (recordedAt M p m tile n) c) t =
        M.drawTile views (M.drawRecord m (strippedAt M p alt views m tile' n) c) t := by
    funext x y
    have heffect := htwins.effect c (M.visible (p.stateAt n) c) pipeline noColor
      (M.drawRecord m (recordedAt M p m tile n) c).samples p.attachedViews views _ _ hcmd halt hpipe'
      h.depth h.stencil t ht x y
    simp only [drawTile]
    rw [hsamples]
    simp only [drawRecord, strippedAt_state, recordedAt_state, htwin] at heffect ⊢
    rw [← heq, heffect]
  refine ⟨?_, ?_, fun hnil i ↦ ?_, ?_⟩
  · rw [htile, htile', hdepth .depth (.inl rfl) h.depth]
  · rw [htile, htile', hdepth .stencil (.inr rfl) h.stencil]
  · rw [htile, ← h.color hnil i]
    refine drawTile_keeps rfl fun x y v hv ↦ ?_
    simp only [drawRecord, recordedAt_state]
    exact hrec.noColor hflag n c hc hd hq _ _ i x y v hv
  · rw [hsampled, hsampled', hsamples]
    exact h.sampled.append (List.Sublist.refl _)

theorem InStep.run (h : InStep p tile ⟨.fresh, tile, []⟩ ⟨.fresh, tile', []⟩) (hn : n ≤ p.commands.length) :
    InStep p tile (recordedAt M p m tile n) (strippedAt M p alt views m tile' n) := by
  induction n with
  | zero => exact h
  | succ n ih =>
    obtain ⟨c, hc⟩ : ∃ c, p.commands[n]? = some c := ⟨_, List.getElem?_eq_getElem hn⟩
    have hprev := ih (by omega)
    rw [strippedAt_succ hc]
    cases hq : p.inClearQuad n with
    | true => exact hprev.quad hrec hc hq
    | false =>
      simp only [Bool.false_eq_true, if_false]
      rw [recordedAt_succ hc]
      cases hd : c.isDraw with
      | true =>
        have hsame : c.toNoColor alt = c := by
          refine toNoColor_of_cmd fun hcmd ↦ ?_
          simp [isDraw, hcmd] at hd
        rw [hsame]
        exact hprev.draw hrec htwins hres hflag hc hq hd
      | false =>
        have hd' := (toNoColor_spec alt c).2.2.trans hd
        obtain ⟨htile, hsampled⟩ := runCommand_of_not_draw (M := M) (m := m) (s := recordedAt M p m tile n) hd
        obtain ⟨htile', hsampled'⟩ :=
          runCommand_of_not_draw (M := M) (m := m) (s := strippedAt M p alt views m tile' n) hd'
        exact ⟨by rw [htile, htile', hprev.depth], by rw [htile, htile', hprev.stencil],
          fun hnil i ↦ by rw [htile, hprev.color hnil i], by rw [hsampled, hsampled']; exact hprev.sampled⟩

end Step

theorem noColorCommands_eq (hquads : p.QuadsOrdered) : p.noColorCommands alt =
    (keepIdx (fun idx ↦ !p.inClearQuad idx) 0 p.commands).map (toNoColor alt) := by
  rw [Pass.noColorCommands, foldl_reverse, ← keepIdx_mapWhere]
  exact drain_ranges (fun r hr ↦ by rw [length_mapWhere]; exact hquads.inside r hr) hquads.ordered

structure NoColorPass (p : Pass) (alt : Handle → Option Handle) : Prop where
  flag : p.colorFlags.writesObserved = false
  covers : p.colorExtentCoversDepth = true
  unwritten : ∀ i, (p.color i).isBound = true → (p.color i).writtenWithoutDraws = false
  resolvable : p.allResolvable alt = true
  stores : ∀ i, (p.color i).isBound = true → (p.color i).store = .store → p.colorClearQuadRanges = []

theorem stripColor_cases (p : Pass) (alt : Handle → Option Handle) :
    p.stripColor alt = p ∨ p.stripColor alt = p.toNoColor alt ∧ NoColorPass p alt := by
  unfold Pass.stripColor
  split_ifs with h
  · exact .inl rfl
  · refine .inr ⟨rfl, ?_⟩
    rw [Bool.not_eq_true] at h
    simp only [Bool.or_eq_false_iff, Bool.not_eq_false', Pass.keepsColor] at h
    obtain ⟨⟨⟨⟨⟨⟨⟨⟨hflag, hrt0⟩, -⟩, hcov⟩, hwritten⟩, hextra⟩, -⟩, hres⟩, hstores⟩ := h
    refine ⟨hflag, hcov, fun i hb ↦ ?_, hres, fun i hb hs ↦ ?_⟩
    · by_cases hi : i = Pass.rt0
      · subst hi
        simpa [Pass.colorWrittenWithoutDraws, hb] using hwritten
      · simpa [hi] using any_eq_false.mp hextra i (mem_finRange i)
    · by_contra hne
      have hany : (p.boundColor.any fun i ↦ decide ((p.color i).store = .store)) = true :=
        any_eq_true.mpr ⟨i, mem_filter.mpr ⟨mem_finRange i, hb⟩, by simp [hs]⟩
      have hnonempty : p.colorClearQuadRanges.isEmpty = false := by simpa using hne
      rw [hany, hnonempty] at hstores
      exact Bool.noConfusion hstores

theorem toNoColor_unbound (i : Fin 4) : ((p.toNoColor alt).color i).isBound = false := by
  simp only [Pass.toNoColor]
  split_ifs <;> rfl

section Strip

variable {g : Garbage V} {t : Target} {x y : ℕ} {l : Loc} (h : NoColorPass p alt) (hM : M.confined = true)

theorem attaches_toNoColor (ht : (p.toNoColor alt).attaches t = true) :
    (t = .depth ∨ t = .stencil) ∧ p.attaches t = true ∧ (p.toNoColor alt).sub t = p.sub t := by
  cases t with
  | color i =>
    rw [Pass.attaches, toNoColor_unbound] at ht
    exact Bool.noConfusion ht
  | depth => exact ⟨.inl rfl, ht, rfl⟩
  | stencil => exact ⟨.inr rfl, ht, rfl⟩

theorem loadAction_toNoColor (ht : t = .depth ∨ t = .stencil) :
    M.loadAction (p.toNoColor alt) t = M.loadAction p t ∧
      storeAction (p.toNoColor alt) t = storeAction p t := by
  obtain rfl | rfl := ht
  · simp only [loadAction, storeAction, Pass.aliased_depth, Bool.false_eq_true, if_false]
    exact ⟨rfl, rfl⟩
  · simp only [loadAction, storeAction, Pass.aliased_stencil, Bool.false_eq_true, if_false]
    exact ⟨rfl, rfl⟩

theorem runBody_toNoColor (m : Loc → V) (l : Loc) : M.runBody (p.toNoColor alt) g m l =
    Pass.targets.foldl (M.storeTarget (p.toNoColor alt) g (M.runCommands (p.toNoColor alt) g m).tile) m l := by
  refine resolves_untouched ?_
  rintro ⟨i, hb, -⟩
  rw [toNoColor_unbound] at hb
  exact Bool.noConfusion hb

def noColorGarbage (M : Machine V) (p : Pass) (alt : Handle → Option Handle) (g : Garbage V) (m : Loc → V) :
    Garbage V where
  tile t x y := match t with
    | .color _ => M.runBody (p.toNoColor alt) g m ⟨p.sub t, x, y⟩
    | _ => g.tile t x y
  loads := M.runBody (p.toNoColor alt) g m
  stores := M.runBody (p.toNoColor alt) g m

include h hM

theorem loadTile_toNoColor (ht : t = .depth ∨ t = .stencil) :
    M.loadTile p (noColorGarbage M p alt g m) m t = M.loadTile (p.toNoColor alt) g m t := by
  funext x y
  have hreach : M.reaches (p.toNoColor alt) t x y = M.reaches p t x y := by
    have hattach : (p.toNoColor alt).attaches t = p.attaches t := by
      obtain rfl | rfl := ht <;> rfl
    rw [reaches_confined hM, reaches_confined hM, hattach]
    cases hp : p.attaches t with
    | false => rfl
    | true =>
      have hcov : (p.toNoColor alt).colorExtentCoversDepth = true :=
        Pass.covers_of_no_color (Pass.boundColor_isEmpty.mpr toNoColor_unbound)
      rw [Bool.true_and, Bool.true_and, Bool.eq_iff_iff, Pass.smallestArea_of_covers h.covers ht hp,
        Pass.smallestArea_of_covers hcov ht (hattach.trans hp)]
      rfl
  have hload : M.loadAction (p.toNoColor alt) t = M.loadAction p t := (loadAction_toNoColor ht).1
  simp only [loadTile, loadTexel, hreach, hload]
  obtain rfl | rfl := ht <;> rfl

theorem runCommands_toNoColor (hrec : DrawsRecorded M p) (htwins : Twins M alt) :
    InStep p (M.loadTile p (noColorGarbage M p alt g m) m) (M.runCommands p (noColorGarbage M p alt g m) m)
      (M.runCommands (p.toNoColor alt) g m) := by
  have hstart : InStep p (M.loadTile p (noColorGarbage M p alt g m) m)
      ⟨.fresh, M.loadTile p (noColorGarbage M p alt g m) m, []⟩ ⟨.fresh, M.loadTile (p.toNoColor alt) g m, []⟩ :=
    ⟨loadTile_toNoColor h hM (.inl rfl), loadTile_toNoColor h hM (.inr rfl), fun _ _ ↦ rfl, List.Sublist.refl _⟩
  have hend : InStep p _ (recordedAt M p m _ p.commands.length)
      (strippedAt M p alt (p.toNoColor alt).attachedViews m _ p.commands.length) :=
    hstart.run hrec htwins h.resolvable h.flag (le_refl _)
  rw [recordedAt, strippedAt, take_length, ← noColorCommands_eq hrec.quads] at hend
  exact hend

/-- An attachment the recorded pass stores holds what the stripped pass leaves. -/
theorem stored_toNoColor (hrec : DrawsRecorded M p) (htwins : Twins M alt) (hp : p.attaches t = true)
    (hsub : l.sub = p.sub t) (hs : storeAction p t = .store) :
    ((M.runCommands p (noColorGarbage M p alt g m) m).tile t l.x l.y).getD
      (M.around p (noColorGarbage M p alt g m) m t l) = M.runBody (p.toNoColor alt) g m l := by
  have hstep := runCommands_toNoColor h hM hrec htwins (g := g) (m := m)
  have hl : (⟨p.sub t, l.x, l.y⟩ : Loc) = l := by rw [← hsub]
  have hdepth (ht : t = .depth ∨ t = .stencil) (htile : (M.runCommands p (noColorGarbage M p alt g m) m).tile t =
      (M.runCommands (p.toNoColor alt) g m).tile t) :
      ((M.runCommands p (noColorGarbage M p alt g m) m).tile t l.x l.y).getD
        (M.around p (noColorGarbage M p alt g m) m t l) = M.runBody (p.toNoColor alt) g m l := by
    have hattach : (p.toNoColor alt).attaches t = true := by
      obtain rfl | rfl := ht <;> exact hp
    have hsub' : l.sub = (p.toNoColor alt).sub t := by
      obtain rfl | rfl := ht <;> exact hsub
    obtain ⟨hload, hstore⟩ : M.loadAction (p.toNoColor alt) t = M.loadAction p t ∧ _ := loadAction_toNoColor ht
    have hnew := (runBody_toNoColor (M := M) (g := g) m l).trans (stores_of_store hattach hsub' (hstore.trans hs))
    rw [htile]
    cases hv : (M.runCommands (p.toNoColor alt) g m).tile t l.x l.y with
    | some v => rw [hnew, hv, Option.getD_some, Option.getD_some]
    | none =>
      rw [hv, Option.getD_none] at hnew
      simp only [Option.getD_none]
      cases haction : M.loadAction p t with
      | dontCare => simp [around, haction, noColorGarbage]
      | load => simp [hnew, around, haction, hload]
      | clear v => simp [hnew, around, haction, hload]
  cases t with
  | depth => exact hdepth (.inl rfl) hstep.depth
  | stencil => exact hdepth (.inr rfl) hstep.stencil
  | color i =>
    have hal := not_aliased_of_store hs
    have hstore : (p.color i).store = .store := by
      simpa only [storeAction, hal, Bool.false_eq_true, if_false, Pass.storeOf] using hs
    rw [hstep.color (h.stores i hp hstore) i]
    have hkept : M.runBody (p.toNoColor alt) g m l = m l := by
      refine (runBody_toNoColor m l).trans (Machine.stores_untouched ?_)
      rintro ⟨t', ht', hsub'⟩
      obtain ⟨hdep, -, hsub''⟩ := attaches_toNoColor ht'
      rw [hsub, hsub''] at hsub'
      obtain rfl | rfl := hdep <;> simp [Pass.sub] at hsub'
    cases haction : M.loadAction p (.color i) with
    | load =>
      simp only [loadTile, loadTexel, around, haction, hl, hkept]
      split_ifs <;> rfl
    | dontCare =>
      simp only [loadTile, loadTexel, around, haction, noColorGarbage, hl]
      split_ifs <;> rfl
    | clear v =>
      have hw := h.unwritten i hp
      simp only [loadAction, hal, Bool.false_eq_true, if_false, recordedLoad] at haction
      cases hc : (p.color i).load <;>
        simp_all [PassColorAttachment.writtenWithoutDraws, clearIsStored, ColorLoad.isClear]

theorem op_toNoColor (hrec : DrawsRecorded M p) (htwins : Twins M alt) {o : PassRecord V} {m' : Loc → V}
    (hop : M.op (p.toNoColor alt) m o m') :
    ∃ o', M.op p m o' m' ∧ o.blits = o'.blits ∧ o.sampled.Sublist o'.sampled := by
  obtain ⟨g, rfl, rfl⟩ := hop
  set m₀ := M.runBlits m p.leadingBlits with hm₀
  refine ⟨_, ⟨noColorGarbage M p alt g m₀, rfl, ?_⟩, rfl, ?_⟩
  · have hstores : Pass.targets.foldl (M.storeTarget p (noColorGarbage M p alt g m₀)
        (M.runCommands p (noColorGarbage M p alt g m₀) m₀).tile) m₀ = M.runBody (p.toNoColor alt) g m₀ := by
      refine stores_adopt (fun t l hp hsub hs ↦ stored_toNoColor h hM hrec htwins hp hsub hs) fun l hl ↦ ?_
      refine ((runBody_toNoColor m₀ l).trans (Machine.stores_untouched ?_)).symm
      rintro ⟨t, ht, hsub⟩
      obtain ⟨-, hp, hsub'⟩ := attaches_toNoColor ht
      exact hl ⟨t, hp, hsub.trans hsub'⟩
    have hres (l : Loc) : ¬ M.Resolved p l := by
      rintro ⟨i, hb, hne, -⟩
      have hw := h.unwritten i hb
      simp only [PassColorAttachment.writtenWithoutDraws, Bool.or_eq_false_iff, decide_eq_false_iff_not] at hw
      exact hw.2 hne
    funext l
    have hold : M.run p (noColorGarbage M p alt g m₀) m l = M.runBody (p.toNoColor alt) g m₀ l := by
      refine (resolves_untouched (hres l)).trans ?_
      exact congrFun hstores l
    exact hold.symm
  · exact (runCommands_toNoColor h hM hrec htwins).sampled

end Strip

theorem strip_color_preserves {ps : List Pass} (hM : M.confined = true) (hrec : ∀ p ∈ ps, DrawsRecorded M p)
    (htwins : Twins M alt) : Preserves M (stripColorFromNoColorDrawPasses alt ps) ps := by
  induction ps with
  | nil => exact Preserves.refl M []
  | cons p ps ih =>
    obtain ⟨hp, hps⟩ := forall_mem_cons.mp hrec
    refine (ih hps).cons fun m o m' hop ↦ ?_
    obtain hsame | ⟨hstrip, hshape⟩ := stripColor_cases p alt
    · replace hop : M.op (p.stripColor alt) m o m' := hop
      rw [hsame] at hop
      exact ⟨o, hop, rfl, List.Sublist.refl _⟩
    · replace hop : M.op (p.stripColor alt) m o m' := hop
      rw [hstrip] at hop
      exact op_toNoColor hshape hM hp htwins hop

end RuleH

structure Recorded (M : Machine V) (alt : Handle → Option Handle) (ps : List Pass) : Prop where
  confined : M.confined = true
  extents : ∀ p ∈ ps, p.Extents
  repeats : RepeatsClears none ps
  /-- The stencil plane is the depth texture's. -/
  stencil : ∀ p ∈ ps, ∀ q ∈ ps, p.depthTexture = q.depthTexture → p.depthFlags.hasStencil = q.depthFlags.hasStencil
  draws : ∀ p ∈ ps, DrawsRecorded M p
  twins : Twins M alt

theorem DrawsRecorded.stripDeadColor {M : Machine V} {p : Pass} (h : DrawsRecorded M p) :
    DrawsRecorded M p.stripDeadColor := by
  unfold Pass.stripDeadColor
  split_ifs with hbusy
  · exact h
  · rw [Bool.not_eq_true, Bool.or_eq_false_iff] at hbusy
    have hdraw (n : ℕ) (c : Command) (hc : p.commands[n]? = some c) (hd : c.isDraw = true) : False :=
      any_eq_false.mp hbusy.1 c (mem_of_getElem? hc) hd
    exact ⟨⟨h.quads.inside, h.quads.ordered⟩, fun n c hc hd ↦ (hdraw n c hc hd).elim,
      fun n c hc hd ↦ (hdraw n c hc hd).elim, fun _ n c hc hd ↦ (hdraw n c hc hd).elim,
      fun n c hc hd ↦ (hdraw n c hc hd).elim⟩

def stripAndCull (alt : Handle → Option Handle) (ps : List Pass) : List Pass :=
  cullDeadClearOnlyPasses (stripColorFromNoColorDrawPasses alt (stripDeadColorInClearOnlyPasses ps))

/-- Rules G, H and F keep rendering: whatever the passes left do, the recorded passes can do as well, so
every value the recorded passes determine is left as it was. -/
theorem strip_and_cull_preserves (M : Machine V) (alt : Handle → Option Handle) (ps : List Pass)
    (h : Recorded M alt ps) : Preserves M (stripAndCull alt ps) ps ∧
      ∀ m l v, M.Determined ps m l v → M.Determined (stripAndCull alt ps) m l v := by
  have hdraws : ∀ p ∈ stripDeadColorInClearOnlyPasses ps, DrawsRecorded M p := by
    intro p hp
    obtain ⟨q, hq, rfl⟩ := mem_map.mp hp
    exact (h.draws q hq).stripDeadColor
  have hpreserves : Preserves M (stripAndCull alt ps) ps :=
    (cull_preserves M _).trans ((strip_color_preserves h.confined hdraws h.twins).trans
      (strip_dead_color_preserves h.confined h.extents h.repeats h.stencil))
  refine ⟨hpreserves, fun m l v hv os m' hrun ↦ ?_⟩
  obtain ⟨os', hrun', -⟩ := hpreserves m os m' hrun
  exact hv os' m' hrun'

def depthGpu : Machine ℕ where
  clearColor _ r _ _ _ := r
  clearDepth value := value
  clearStencil value := value
  resolve _ v := v
  blit _ _ _ := 0
  transfersStencil _ := false
  reads _ _ _ := false
  draw _ _ _ _ tile t x y := match t with
    | .color _ => (tile t x y).getD 0
    | _ => (tile t x y).getD 0 + 1
  views _ := none
  confined := true

def shadowPasses : List Pass :=
  [{ (Pass.empty.withTarget { PassColorAttachment.none with texture := 1, size := (2, 2), load := .load
                                                            store := .store }) with
      depthTexture := 2
      depthSize := (2, 2)
      depthLoad := .clear 1
      commands := [⟨.setRenderPipelineState, 0, 7, 0, 0⟩, ⟨.drawPrimitives, 0, 0, 0, 0⟩] },
    Pass.empty.withTarget { PassColorAttachment.none with texture := 3, size := (4, 4), load := .load
                                                          store := .store }]

def shadowTwins (pipeline : Handle) : Option Handle := if pipeline = 7 then some 8 else none

theorem shadowPasses_recorded : Recorded depthGpu shadowTwins shadowPasses := by
  have hquads : ∀ p ∈ shadowPasses, p.colorClearQuadRanges = [] := by decide
  have hdraw : ∀ p ∈ shadowPasses, ∀ n < 2, (p.commands[n]?.any isDraw) = true →
      n = 1 ∧ p.stateAt 1 .pipeline = some ⟨.setRenderPipelineState, 0, 7, 0, 0⟩ := by decide
  have hlength : ∀ p ∈ shadowPasses, p.commands.length ≤ 2 := by decide
  refine ⟨rfl, fun p hp ↦ ⟨?_, ?_⟩, ?_, by decide, fun p hp ↦ ?_, ?_, ?_⟩
  · revert p
    decide
  · revert p
    decide
  · exact ⟨by decide, by decide, trivial⟩
  · have hq (n : ℕ) : p.inClearQuad n = false := by simp [Pass.inClearQuad, hquads p hp]
    have hbound (n : ℕ) (c : Command) (hc : p.commands[n]? = some c) (hd : c.isDraw = true) :
        n = 1 ∧ p.stateAt 1 .pipeline = some ⟨.setRenderPipelineState, 0, 7, 0, 0⟩ := by
      have hn := (List.getElem?_eq_some_iff.mp hc).1
      have hlen := hlength p hp
      exact hdraw p hp n (by omega) (by simp [hc, hd])
    refine ⟨⟨by simp [hquads p hp], by simp [hquads p hp]⟩, fun n c hc hd _ ↦ ?_, fun n c hc hd _ k hk i a _ _ h ↦ ?_,
      fun _ n c hc hd _ samples tile i x y v hv ↦ ?_, fun n c hc hd h ↦ ?_⟩
    · obtain ⟨rfl, hpipe⟩ := hbound n c hc hd
      exact ⟨_, hpipe⟩
    · rw [hq i] at h
      exact Bool.noConfusion h
    · simp [depthGpu, hv]
    · rw [hq n] at h
      exact Bool.noConfusion h
  · intro c pipeline noColor _ _
    rfl
  · intro c σ pipeline noColor samples views views' tile tile' _ _ _ hdepth hstencil t ht x y
    obtain rfl | rfl := ht
    · simp [depthGpu, hdepth]
    · simp [depthGpu, hstencil]

theorem strip_and_cull_keeps_shadow :
    ((stripAndCull shadowTwins shadowPasses).map fun p ↦ (p.boundColor, p.commands.map paramB)) =
        [([], [8, 0])] ∧
      Preserves depthGpu (stripAndCull shadowTwins shadowPasses) shadowPasses :=
  ⟨by decide, (strip_and_cull_preserves depthGpu shadowTwins shadowPasses shadowPasses_recorded).1⟩

end Mtld3d
