import Mtld3d.PassFrame
import Mtld3d.PassRefine
import Mtld3d.Lib.Select

namespace Mtld3d

open List Lib Machine Pass

variable {V : Type}

def joinStates : List CommandType :=
  [.setRenderPipelineState, .setViewport, .setDepthStencilState, .setCullMode, .setScissorRect,
    .setTriangleFillMode, .setDepthBias, .setStencilReference, .setBlendColor, .setVisibilityResultMode]

/-- The command that puts the state `last` set back to a fresh encoder's value, where there is one. -/
def freshStateCommand (last : Command) : Option Command :=
  match last.cmd with
  | .setTriangleFillMode => some ⟨.setTriangleFillMode, 0, 0, 0, 0⟩
  | .setDepthBias => some ⟨.setDepthBias, 0, 0, 0, 0⟩
  | .setStencilReference => some ⟨.setStencilReference, 0, 0, 0, 0⟩
  | .setBlendColor => some Command.freshBlendColorCommand
  | .setVisibilityResultMode => some ⟨.setVisibilityResultMode, 0, last.paramB, 0, 0⟩
  | _ => none

def PassColorAttachment.sameViews (a b : PassColorAttachment) : Bool :=
  decide (a.texture = b.texture) &&
    (decide (a.texture = 0) ||
      decide (a.srgbTexture = b.srgbTexture) && decide (a.msaaTexture = b.msaaTexture) &&
        decide (a.msaaSrgbTexture = b.msaaSrgbTexture) && decide (a.subresource = b.subresource) &&
        decide (a.size = b.size) && decide (a.format = b.format))

def attachmentsMatch (a b : Pass) : Bool :=
  ((finRange 4).all fun i ↦ (a.color i).sameViews (b.color i)) &&
    (decide (a.depthTexture = b.depthTexture) &&
      (decide (a.depthTexture = 0) ||
        decide (a.depthLevel = b.depthLevel) && decide (a.depthSize = b.depthSize) &&
          decide (a.depthFlags.sampleable = b.depthFlags.sampleable) &&
          decide (a.depthFlags.hasStencil = b.depthFlags.hasStencil))) &&
    (decide (a.depthTexture ≠ 0) || (finRange 4).any fun i ↦ (a.color i).isBound)

/-- `prev` stores every colour attachment unresolved and `next` loads it. -/
def colorCarriesOver (prev next : Pass) : Bool :=
  (finRange 4).all fun i ↦ decide ((prev.color i).texture = 0) ||
    decide ((prev.color i).store = .store) && decide ((prev.color i).resolveTexture = 0) &&
      decide ((next.color i).load = .load)

def planeCarriesOver (kept : StoreAction) (loads discards : Bool) : Bool :=
  discards || loads && decide (kept = .store)

def depthCarriesOver (prev next : Pass) : Bool :=
  decide (prev.depthTexture = 0) ||
    planeCarriesOver prev.depthStore (decide (next.depthLoad = .load)) (decide (next.depthLoad = .dontCare)) &&
      (!prev.depthFlags.hasStencil ||
        planeCarriesOver prev.stencilStore (decide (next.stencilLoad = .load))
          (decide (next.stencilLoad = .dontCare)))

/-- The commands `next` runs ahead of its first draw. -/
def beforeDraw (next : Pass) : List Command := next.commands.takeWhile fun c ↦ !c.isDraw

/-- The command that last set `state` in `prev`, unless `next` sets it ahead of its first draw. -/
def lastSet (prev next : Pass) (state : CommandType) : Option Command :=
  if (beforeDraw next).any fun c ↦ decide (c.cmd = state) then none
  else prev.commands.reverse.find? fun c ↦ decide (c.cmd = state)

/-- The fresh values for the states that `lasts` leave changed, `none` where one has no such command. -/
def restoreFresh : List Command → Option (List Command)
  | [] => some []
  | last :: lasts =>
    if last.setsFreshValue then restoreFresh lasts
    else match freshStateCommand last with
      | none => none
      | some fresh => (restoreFresh lasts).map (fresh :: ·)

def joinCommands (prev next : Pass) : Option (List Command) :=
  if next.hasDraw then restoreFresh (joinStates.filterMap (lastSet prev next)) else some []

def attachedTextures (p : Pass) : List Handle :=
  p.depthTexture :: (finRange 4).map fun i ↦ (p.color i).texture

/-- The join that fuses `next` into `prev`, `none` where the two must stay apart. -/
def mergeJoin (prev next : Pass) (views : ViewMap) (frameSampled : Handle → Bool) : Option (List Command) :=
  if !attachmentsMatch prev next || decide (prev.visibilityBuffer ≠ next.visibilityBuffer) ||
      !next.leadingBlits.isEmpty || !colorCarriesOver prev next || !depthCarriesOver prev next then none
  else if (attachedTextures prev).any fun texture ↦ next.samplesTexture texture views frameSampled then none
  else joinCommands prev next

/-- Take `next`'s work into the pass: its stores and resolves, and its commands after the join's. -/
def Pass.absorb (p next : Pass) (join : List Command) : Pass :=
  let offset := p.commands.length + join.length
  { p with
    commands := p.commands ++ join ++ next.commands
    colorClearQuadRanges := p.colorClearQuadRanges ++
      next.colorClearQuadRanges.map fun r ↦ (r.1 + offset, r.2 + offset)
    color := fun i ↦ { p.color i with
      store := (next.color i).store, resolveTexture := (next.color i).resolveTexture }
    depthStore := next.depthStore
    stencilStore := next.stencilStore
    depthFlags := { p.depthFlags with
      used := p.depthFlags.used || next.depthFlags.used
      stencilWritten := p.depthFlags.stencilWritten || next.depthFlags.stencilWritten }
    hasCountingVisibility := p.hasCountingVisibility || next.hasCountingVisibility
    colorFlags := { p.colorFlags with
      writesObserved := p.colorFlags.writesObserved || next.colorFlags.writesObserved } }

section Rule

variable (views : ViewMap) (frameSampled : Handle → Bool)

/-- The passes from `cur` on, each joined onto the one before it where it can be. -/
def mergeFrom (cur : Pass) : List Pass → List Pass
  | [] => [cur]
  | next :: rest => match mergeJoin cur next views frameSampled with
    | none => cur :: mergeFrom next rest
    | some join => mergeFrom (cur.absorb next join) rest

/-- Rule J; the first `start` passes are the upload passes, submitted on their own. -/
def mergeAdjacentIdenticalPasses (start : ℕ) (passes : List Pass) : List Pass :=
  match passes.drop start with
  | [] => passes
  | cur :: rest => passes.take start ++ mergeFrom views frameSampled cur rest

end Rule


section State

variable {M : Machine V} {σ σ₁ σ₂ : EncoderState} {c : Command} {cs : List Command} {k : StateKey}

def StateKey.setter : StateKey → Option CommandType
  | .pipeline => some .setRenderPipelineState
  | .viewport => some .setViewport
  | .depthStencil => some .setDepthStencilState
  | .cullMode => some .setCullMode
  | .scissor => some .setScissorRect
  | .fillMode => some .setTriangleFillMode
  | .depthBias => some .setDepthBias
  | .stencilReference => some .setStencilReference
  | .blendColor => some .setBlendColor
  | .visibility => some .setVisibilityResultMode
  | _ => none

theorem exists_setter (h : k.isFixed = true) : ∃ state ∈ joinStates, k.setter = some state := by
  cases k with
  | vertexBuffer _ | fragmentBuffer _ | fragmentTexture _ | fragmentSampler _ | vertexTexture _
  | vertexSampler _ => exact Bool.noConfusion h
  | _ => exact ⟨_, by simp only [joinStates, mem_cons]; tauto, rfl⟩

theorem mem_sets_iff {state : CommandType} (h : k.setter = some state) : k ∈ c.sets ↔ c.cmd = state := by
  obtain ⟨cmd, a, b, c', d⟩ := c
  cases k with
  | vertexBuffer _ | fragmentBuffer _ | fragmentTexture _ | fragmentSampler _ | vertexTexture _
  | vertexSampler _ => simp [StateKey.setter] at h
  | _ =>
    obtain rfl := Option.some.inj h
    cases cmd <;> simp [Command.sets]

theorem freshStateCommand_spec {last fresh : Command} (h : freshStateCommand last = some fresh) :
    fresh.cmd = last.cmd ∧ fresh.setsFreshValue = true := by
  unfold freshStateCommand at h
  split at h
  case h_6 => simp at h
  all_goals
    rename_i hcmd
    obtain rfl := Option.some.inj h
    exact ⟨hcmd.symm, rfl⟩

theorem restoreFresh_spec {lasts join : List Command} (h : restoreFresh lasts = some join) :
    (∀ f ∈ join, f.isDraw = false ∧ f.setsFreshValue = true) ∧
      ∀ c ∈ lasts, c.setsFreshValue = false → ∃ f ∈ join, f.cmd = c.cmd := by
  induction lasts generalizing join with
  | nil =>
    obtain rfl := Option.some.inj h
    simp
  | cons last lasts ih =>
    unfold restoreFresh at h
    split_ifs at h with hfresh
    · obtain ⟨hall, hex⟩ := ih h
      refine ⟨hall, fun c hc hn ↦ ?_⟩
      obtain rfl | hc := mem_cons.mp hc
      · exact absurd hfresh (by simp [hn])
      · exact hex c hc hn
    · cases hcmd : freshStateCommand last with
      | none => simp [hcmd] at h
      | some fresh =>
        simp only [hcmd, Option.map_eq_some_iff] at h
        obtain ⟨rest, hrest, rfl⟩ := h
        obtain ⟨hall, hex⟩ := ih hrest
        obtain ⟨hsame, hset⟩ := freshStateCommand_spec hcmd
        refine ⟨forall_mem_cons.mpr ⟨⟨?_, hset⟩, hall⟩, fun c hc hn ↦ ?_⟩
        · unfold freshStateCommand at hcmd
          split at hcmd
          case h_6 => simp at hcmd
          all_goals
            obtain rfl := Option.some.inj hcmd
            rfl
        · obtain rfl | hc := mem_cons.mp hc
          · exact ⟨fresh, mem_cons_self, hsame⟩
          · obtain ⟨f, hf, heq⟩ := hex c hc hn
            exact ⟨f, mem_cons_of_mem _ hf, heq⟩

theorem joinCommands_spec {prev next : Pass} {join : List Command} (h : joinCommands prev next = some join) :
    ∀ f ∈ join, f.isDraw = false ∧ f.setsFreshValue = true := by
  unfold joinCommands at h
  split_ifs at h
  · exact (restoreFresh_spec h).1
  · obtain rfl := Option.some.inj h
    simp

theorem fixed_fresh_at_join {prev next : Pass} {join : List Command}
    (hjoin : joinCommands prev next = some join) (hdraw : next.hasDraw = true) (hk : k.isFixed = true)
    (hset : ∀ c ∈ beforeDraw next, k ∉ c.sets) :
    (prev.commands ++ join).foldl EncoderState.step .fresh k = none := by
  obtain ⟨state, hstate, hsetter⟩ := exists_setter hk
  have hmem (c : Command) : k ∈ c.sets ↔ c.cmd = state := mem_sets_iff hsetter
  have hlast : lastSet prev next state = prev.commands.reverse.find? fun c ↦ decide (c.cmd = state) := by
    refine if_neg fun hany ↦ ?_
    obtain ⟨c, hc, hcmd⟩ := any_eq_true.mp hany
    exact hset c hc ((hmem c).mpr (of_decide_eq_true hcmd))
  simp only [joinCommands, hdraw, if_true] at hjoin
  obtain ⟨hall, hex⟩ := restoreFresh_spec hjoin
  rw [foldl_append, foldl_step_eq]
  simp only [hmem]
  cases hfind : join.reverse.find? fun c ↦ decide (c.cmd = state) with
  | some f =>
    have hf : f ∈ join := mem_reverse.mp (mem_of_find?_eq_some hfind)
    simp [(hall f hf).2]
  | none =>
    -- no command of the join sets the slot, so `prev` leaves it fresh already
    simp only [foldl_step_eq, hmem]
    cases hprev : prev.commands.reverse.find? fun c ↦ decide (c.cmd = state) with
    | none => rfl
    | some last =>
      have hcmd : last.cmd = state := by simpa using find?_some hprev
      have hin : last ∈ joinStates.filterMap (lastSet prev next) :=
        mem_filterMap.mpr ⟨state, hstate, hlast.trans hprev⟩
      cases hfresh : last.setsFreshValue with
      | true => simp [hfresh]
      | false =>
        obtain ⟨f, hf, heq⟩ := hex last hin hfresh
        have hnone := find?_eq_none.mp hfind f (mem_reverse.mpr hf)
        simp [heq, hcmd] at hnone

/-- Each draw of the commands finds every binding it reads among those in `S` or set before it. -/
def BindsBefore (M : Machine V) : EncoderState → Set StateKey → List Command → Prop
  | _, _, [] => True
  | σ, S, c :: cs =>
    (c.isDraw = true → ∀ k, k.isFixed = false → M.reads c (σ .pipeline) k = true → k ∈ S) ∧
      BindsBefore M (σ.step c) (S ∪ {k | k ∈ c.sets}) cs

def SelfContained (M : Machine V) (p : Pass) : Prop := BindsBefore M .fresh ∅ p.commands

/-- Encoder states that differ only in slots no draw of the commands gets to read. -/
structure AgreeFor (M : Machine V) (σ₁ σ₂ : EncoderState) (S : Set StateKey) (cs : List Command) : Prop where
  set : ∀ k ∈ S, σ₁ k = σ₂ k
  binds : BindsBefore M σ₂ S cs
  fixed : cs.any Command.isDraw = true → ∀ k, k.isFixed = true →
    σ₁ k = σ₂ k ∨ ∃ c ∈ cs.takeWhile fun c ↦ !c.isDraw, k ∈ c.sets

theorem AgreeFor.tail {S : Set StateKey} (h : AgreeFor M σ₁ σ₂ S (c :: cs)) :
    AgreeFor M (σ₁.step c) (σ₂.step c) (S ∪ {k | k ∈ c.sets}) cs where
  set k hk := by
    obtain hk | hk := hk
    · simp [EncoderState.step, h.set k hk]
    · have hk' : k ∈ c.sets := hk
      simp [EncoderState.step, hk']
  binds := h.binds.2
  fixed hany k hk := by
    have hstep (heq : σ₁ k = σ₂ k) : σ₁.step c k = σ₂.step c k := by
      simp [EncoderState.step, heq]
    obtain heq | ⟨c', hc', hset⟩ := h.fixed (by simp [hany]) k hk
    · exact .inl (hstep heq)
    · cases hd : c.isDraw with
      | true => simp [hd] at hc'
      | false =>
        simp only [takeWhile_cons, hd, Bool.not_false, if_true, mem_cons] at hc'
        obtain rfl | hc' := hc'
        · left
          simp [EncoderState.step, hset]
        · exact .inr ⟨c', hc', hset⟩

theorem AgreeFor.visible_eq {S : Set StateKey} (h : AgreeFor M σ₁ σ₂ S (c :: cs)) (hd : c.isDraw = true) :
    M.visible σ₁ c = M.visible σ₂ c := by
  have hfixed (k : StateKey) (hk : k.isFixed = true) : σ₁ k = σ₂ k := by
    obtain heq | ⟨c', hc', -⟩ := h.fixed (by simp [hd]) k hk
    · exact heq
    · simp [hd] at hc'
  funext k
  simp only [visible, hfixed .pipeline rfl]
  split_ifs with hcond
  · cases hk : k.isFixed with
    | true => exact hfixed k hk
    | false =>
      simp only [hk, Bool.false_or] at hcond
      exact h.set k (h.binds.1 hd k hk hcond)
  · rfl

theorem AgreeFor.foldl_eq {views : Fin 4 → Handle} {m₁ m₂ : Loc → V} {S : Set StateKey} {tile : Tile V}
    {d₀ d₁ d₂ : List (DrawRecord V)} {cs' : List Command} (h : AgreeFor M σ₁ σ₂ S cs) (hd : d₁ = d₀ ++ d₂)
    (hsub : ∀ c ∈ cs, c ∈ cs') (hwithin : Machine.EncoderState.Within σ₂ cs')
    (hm : ∀ l, (∃ c ∈ cs', ∃ h, c.sampledTexture = some h ∧ l.sub.surface = .texture (M.storage h)) →
      m₁ l = m₂ l) :
    let r₁ := cs.foldl (M.runCommand views m₁) ⟨σ₁, tile, d₁⟩
    let r₂ := cs.foldl (M.runCommand views m₂) ⟨σ₂, tile, d₂⟩
    r₁.tile = r₂.tile ∧ r₁.draws = d₀ ++ r₂.draws := by
  induction cs generalizing σ₁ σ₂ S tile d₁ d₂ with
  | nil => exact ⟨rfl, hd⟩
  | cons c cs ih =>
    obtain ⟨hhead, htail⟩ := forall_mem_cons.mp hsub
    have hnext : Machine.EncoderState.Within (M.runCommand views m₂ ⟨σ₂, tile, d₂⟩ c).state cs' :=
      runCommand_within hwithin hhead
    cases hdraw : c.isDraw with
    | false =>
      simp only [runCommand, hdraw, Bool.false_eq_true, if_false] at hnext
      simp only [foldl_cons, runCommand, hdraw, Bool.false_eq_true, if_false]
      exact ih h.tail hd htail hnext
    | true =>
      have hrec : M.drawRecord m₁ ⟨σ₁, tile, d₁⟩ c = M.drawRecord m₂ ⟨σ₂, tile, d₂⟩ c := by
        have hrec' := drawRecord_eq (M := M) (s := ⟨σ₂, tile, d₂⟩) (c := c) hwithin hm
        simp only [drawRecord, h.visible_eq hdraw] at hrec' ⊢
        exact hrec'
      have htail' := h.tail
      rw [step_of_sets_nil (sets_of_isDraw hdraw), step_of_sets_nil (sets_of_isDraw hdraw)] at htail'
      simp only [foldl_cons, runCommand, hdraw, if_true, hrec]
      exact ih htail' (by rw [hd, append_assoc]) htail hwithin

end State

section Join

variable {M : Machine V} {p q : Pass} {join : List Command} {frameSampled : Handle → Bool}

theorem sameViews_spec {a b : PassColorAttachment} (h : a.sameViews b = true) :
    a.texture = b.texture ∧ (a.isBound = true → a.surface = b.surface ∧ a.subresource = b.subresource ∧
      a.size = b.size ∧ a.attachmentTexture = b.attachmentTexture) := by
  simp only [PassColorAttachment.sameViews, Bool.and_eq_true, Bool.or_eq_true, decide_eq_true_eq] at h
  obtain ⟨htex, hnull | ⟨⟨⟨⟨⟨hsrgb, hmsaa⟩, hms⟩, hsubr⟩, hsize⟩, -⟩⟩ := h
  · refine ⟨htex, fun hb ↦ ?_⟩
    simp [PassColorAttachment.isBound, hnull] at hb
  · refine ⟨htex, fun _ ↦ ⟨?_, hsubr, hsize, ?_⟩⟩
    · simp [PassColorAttachment.surface, htex, hmsaa]
    · simp [PassColorAttachment.attachmentTexture, htex, hsrgb, hmsaa, hms]

theorem sameTargets_of_match (h : attachmentsMatch p q = true) : SameTargets p q := by
  simp only [attachmentsMatch, Bool.and_eq_true] at h
  obtain ⟨⟨hcolor, hdepth⟩, -⟩ := h
  have hslot (i : Fin 4) := sameViews_spec (all_eq_true.mp hcolor i (mem_finRange i))
  simp only [Bool.or_eq_true, Bool.and_eq_true, decide_eq_true_eq] at hdepth
  obtain ⟨hdtex, hdepth⟩ := hdepth
  have hbound (i : Fin 4) : (p.color i).isBound = (q.color i).isBound := by
    simp [PassColorAttachment.isBound, (hslot i).1]
  have hplane : p.depthTexture ≠ 0 → p.depthLevel = q.depthLevel ∧ p.depthSize = q.depthSize ∧
      p.depthFlags.hasStencil = q.depthFlags.hasStencil := by
    intro hne
    obtain hzero | ⟨⟨⟨hlevel, hsize⟩, -⟩, hst⟩ := hdepth
    · exact absurd hzero hne
    · exact ⟨hlevel, hsize, hst⟩
  refine ⟨fun t ↦ ?_, fun t ht ↦ ?_, fun t ht ↦ ?_, ?_⟩
  · cases t with
    | color i => exact hbound i
    | depth => simp [attaches, hdtex]
    | stencil =>
      by_cases hne : p.depthTexture = 0
      · simp [attaches, ← hdtex, hne]
      · simp [attaches, ← hdtex, (hplane hne).2.2]
  · cases t with
    | color i =>
      obtain ⟨hsurf, hsubr, -, -⟩ := (hslot i).2 ht
      simp [sub, hsurf, PassColorAttachment.slice, PassColorAttachment.level, hsubr]
    | depth => simp [sub, hdtex, (hplane (by simpa [attaches] using ht)).1]
    | stencil =>
      simp only [attaches, Bool.and_eq_true, decide_eq_true_eq] at ht
      simp [sub, hdtex, (hplane ht.1).1]
  · cases t with
    | color i => exact ((hslot i).2 ht).2.2.1
    | depth => exact (hplane (by simpa [attaches] using ht)).2.1
    | stencil =>
      simp only [attaches, Bool.and_eq_true, decide_eq_true_eq] at ht
      exact (hplane ht.1).2.1
  · funext i
    simp only [attachedViews, ← hbound i]
    split_ifs with hb
    · exact ((hslot i).2 hb).2.2.2
    · rfl

structure Joins (M : Machine V) (frameSampled : Handle → Bool) (p q : Pass) (join : List Command) : Prop where
  same : SameTargets p q
  blits : q.leadingBlits = []
  color : ∀ i, (p.color i).isBound = true →
    (p.color i).store = .store ∧ (p.color i).resolveTexture = 0 ∧ (q.color i).load = .load
  depth : p.attaches .depth = true → q.depthLoad = .dontCare ∨ q.depthLoad = .load ∧ p.depthStore = .store
  stencil : p.attaches .stencil = true →
    q.stencilLoad = .dontCare ∨ q.stencilLoad = .load ∧ p.stencilStore = .store
  unsampled : ∀ texture ∈ attachedTextures p, q.samplesTexture texture M.views frameSampled = false
  commands : joinCommands p q = some join

theorem joins_of_mergeJoin (h : mergeJoin p q M.views frameSampled = some join) : Joins M frameSampled p q join := by
  unfold mergeJoin at h
  split_ifs at h with hno hsample
  rw [Bool.not_eq_true] at hno
  simp only [Bool.or_eq_false_iff, Bool.not_eq_false'] at hno
  obtain ⟨⟨⟨⟨hmatch, -⟩, hblits⟩, hcolor⟩, hdepth⟩ := hno
  rw [Bool.not_eq_true] at hsample
  refine ⟨sameTargets_of_match hmatch, isEmpty_iff.mp hblits, fun i hb ↦ ?_, fun ha ↦ ?_, fun ha ↦ ?_,
    fun texture ht ↦ ?_, h⟩
  · have hi := all_eq_true.mp hcolor i (mem_finRange i)
    simp only [PassColorAttachment.isBound, decide_eq_true_eq] at hb
    simp only [Bool.or_eq_true, Bool.and_eq_true, decide_eq_true_eq] at hi
    obtain hzero | ⟨⟨hs, hr⟩, hl⟩ := hi
    · exact absurd hzero hb
    · exact ⟨hs, hr, hl⟩
  · have hne : p.depthTexture ≠ 0 := by simpa [attaches] using ha
    simp only [depthCarriesOver, planeCarriesOver, hne, decide_false, Bool.false_or, Bool.and_eq_true,
      Bool.or_eq_true, decide_eq_true_eq] at hdepth
    exact hdepth.1
  · simp only [attaches, Bool.and_eq_true, decide_eq_true_eq] at ha
    simp only [depthCarriesOver, planeCarriesOver, ha.1, decide_false, Bool.false_or, Bool.and_eq_true,
      Bool.or_eq_true, decide_eq_true_eq, ha.2, Bool.not_true] at hdepth
    exact hdepth.2
  · simpa using any_eq_false.mp hsample texture ht

variable {g : Garbage V} {m : Loc → V}

theorem Joins.not_resolved (h : Joins M frameSampled p q join) (l : Loc) : ¬ M.Resolved p l := by
  rintro ⟨i, hb, hne, -⟩
  exact hne (h.color i hb).2.1

/-- What the attachments of `p` hold around the render area, and memory elsewhere. -/
def surround (M : Machine V) (p : Pass) (g : Garbage V) (m : Loc → V) (l : Loc) : V :=
  match targets.find? fun t ↦ p.attaches t && decide (l.sub = p.sub t) with
  | some t => M.around p g m t l
  | none => m l

/-- What `p` stores before `q` runs, with its discarded planes holding what its loads left them. -/
def midMemory (M : Machine V) (p : Pass) (g : Garbage V) (m : Loc → V) : Loc → V :=
  M.runBody p ⟨g.tile, g.loads, surround M p g m⟩ m

/-- The undefined contents that make `q` start from what `p` left in the tiles. -/
def carried (M : Machine V) (p : Pass) (g : Garbage V) (m : Loc → V) : Garbage V where
  tile := fun t x y ↦ ((M.runCommands p g m).tile t x y).getD (m ⟨p.sub t, x, y⟩)
  loads := surround M p g m
  stores := g.stores

variable {t : Target} {l : Loc}

theorem surround_eq (ht : p.attaches t = true) (hsub : l.sub = p.sub t) :
    surround M p g m l = M.around p g m t l := by
  unfold surround
  cases hfind : targets.find? fun t ↦ p.attaches t && decide (l.sub = p.sub t) with
  | none => exact absurd (find?_eq_none.mp hfind t (mem_targets t)) (by simp [ht, hsub])
  | some t' =>
    have hfound := find?_some hfind
    simp only [Bool.and_eq_true, decide_eq_true_eq] at hfound
    by_cases heq : t' = t
    · rw [heq]
    · have hshared (a b : Target) (hne : b ≠ a) (hb : p.attaches b = true) (hsub : p.sub b = p.sub a) :
          M.around p g m a l = g.loads l := by
        have halias : p.aliased a = true :=
          any_eq_true.mpr ⟨b, mem_targets b, by simp [hne, hb, hsub]⟩
        simp [around, loadAction, halias]
      have hsubs : p.sub t' = p.sub t := hfound.2.symm.trans hsub
      simp [hshared t t' heq hfound.1 hsubs, hshared t' t (Ne.symm heq) ht hsubs.symm]

theorem tile_isSome_eq (t : Target) (x y : ℕ) :
    ((M.runCommands p g m).tile t x y).isSome = M.reaches p t x y := by
  unfold runCommands
  rw [foldl_runCommand_isSome]
  simp only [loadTile]
  split_ifs with hr
  · exact hr.symm
  · simp [hr]

theorem Joins.midMemory_of_not_attached (h : Joins M frameSampled p q join)
    (hl : ¬ Machine.Attached p l) : midMemory M p g m l = m l :=
  runBody_untouched hl (h.not_resolved l)

theorem Joins.midMemory_of_store (h : Joins M frameSampled p q join)
    (ht : p.attaches t = true) (hsub : l.sub = p.sub t) (hs : storeAction p t = .store) :
    midMemory M p g m l = ((M.runCommands p g m).tile t l.x l.y).getD (M.around p g m t l) :=
  (resolves_untouched (h.not_resolved l)).trans (stores_of_store ht hsub hs)

theorem Joins.midMemory_of_not_reached (h : Joins M frameSampled p q join)
    (ht : p.attaches t = true) (hsub : l.sub = p.sub t) (hr : (M.runCommands p g m).tile t l.x l.y = none) :
    midMemory M p g m l = M.around p g m t l := by
  cases hs : storeAction p t with
  | store => rw [h.midMemory_of_store ht hsub hs, hr, Option.getD_none]
  | dontCare =>
    rw [← surround_eq ht hsub]
    exact (resolves_untouched (h.not_resolved l)).trans (stores_of_dontCare ht hsub hs)

theorem Joins.load_cases (h : Joins M frameSampled p q join) (ht : p.attaches t = true) :
    M.loadAction q t = .dontCare ∨ M.loadAction q t = .load ∧ storeAction p t = .store := by
  have halias := h.same.aliased_eq ht
  simp only [loadAction, storeAction, ← halias]
  cases hal : p.aliased t with
  | true => exact .inl rfl
  | false =>
    simp only [Bool.false_eq_true, if_false]
    cases t with
    | color i =>
      obtain ⟨hs, -, hl⟩ := h.color i ht
      exact .inr ⟨by simp [recordedLoad, hl], hs⟩
    | depth =>
      obtain hl | ⟨hl, hs⟩ := h.depth ht
      · exact .inl (by simp [recordedLoad, hl])
      · exact .inr ⟨by simp [recordedLoad, hl], hs⟩
    | stencil =>
      obtain hl | ⟨hl, hs⟩ := h.stencil ht
      · exact .inl (by simp [recordedLoad, hl])
      · exact .inr ⟨by simp [recordedLoad, hl], hs⟩

theorem Joins.loadTile_eq (h : Joins M frameSampled p q join) :
    M.loadTile q (carried M p g m) (midMemory M p g m) = (M.runCommands p g m).tile := by
  funext t x y
  have hsome := tile_isSome_eq (M := M) (p := p) (g := g) (m := m) t x y
  rw [h.same.reaches_eq M t x y] at hsome
  simp only [loadTile]
  split_ifs with hr
  · rw [hr] at hsome
    obtain ⟨v, hv⟩ := Option.isSome_iff_exists.mp hsome
    have ht : p.attaches t = true := by
      rw [h.same.attaches t]
      exact (inside hr).1
    rw [hv]
    simp only [loadTexel]
    obtain hl | ⟨hl, hs⟩ := h.load_cases ht
    · simp [hl, carried, hv]
    · have hmid := h.midMemory_of_store (g := g) (m := m) (l := ⟨q.sub t, x, y⟩) ht (h.same.sub t ht).symm hs
      simp only [hv, Option.getD_some] at hmid
      simp [hl, hmid]
  · rw [Bool.not_eq_true] at hr
    rw [hr] at hsome
    exact (Option.isNone_iff_eq_none.mp (by simpa using hsome)).symm

theorem mem_attachedTextures (i : Fin 4) : (p.color i).texture ∈ attachedTextures p := by
  simp [attachedTextures]

theorem Joins.midMemory_of_sampled (h : Joins M frameSampled p q join)
    (hmarked : Marked M.views frameSampled [q]) (hl : M.Samples q l) : m l = midMemory M p g m l := by
  refine (h.midMemory_of_not_attached fun ha ↦ ?_).symm
  obtain ⟨c, hc, handle, hh, hsurf⟩ := hl
  have hatt := ha
  obtain ⟨t, ht, hsub⟩ := ha
  have htex : ∃ texture ∈ attachedTextures p, texture ≠ 0 ∧ l.sub.surface = .texture texture := by
    rw [hsub] at hsurf
    cases t with
    | color i =>
      refine ⟨_, mem_attachedTextures i, by simpa [attaches, PassColorAttachment.isBound] using ht, ?_⟩
      simp only [sub, PassColorAttachment.surface] at hsurf
      split_ifs at hsurf with hms
      simp [hsub, sub, PassColorAttachment.surface, hms]
    | depth =>
      exact ⟨p.depthTexture, by simp [attachedTextures], by simpa [attaches] using ht, by rw [hsub]; rfl⟩
    | stencil =>
      simp only [attaches, Bool.and_eq_true, decide_eq_true_eq] at ht
      exact ⟨p.depthTexture, by simp [attachedTextures], ht.1, by rw [hsub]; rfl⟩
  obtain ⟨texture, hmem, hne, hsurf'⟩ := htex
  have := samplesTexture_of_samples hmarked hne ⟨c, hc, handle, hh, hsurf⟩ hsurf'
  rw [h.unsampled texture hmem] at this
  exact Bool.noConfusion this

theorem loadTile_absorb : M.loadTile (p.absorb q join) g m = M.loadTile p g m := rfl

theorem foldl_runCommand_of_not_draws {views : Fin 4 → Handle} {s : CommandState V} {cs : List Command}
    (hcs : ∀ c ∈ cs, c.isDraw = false) :
    cs.foldl (M.runCommand views m) s = ⟨cs.foldl EncoderState.step s.state, s.tile, s.draws⟩ := by
  have hstate : (cs.foldl (M.runCommand views m) s).state = cs.foldl EncoderState.step s.state :=
    foldl_runCommand_state
  have hkept : (cs.foldl (M.runCommand views m) s).tile = s.tile ∧ _ := foldl_runCommand_of_not_draw hcs
  obtain ⟨htile, hdraws⟩ := hkept
  rw [← hstate, ← htile, ← hdraws]

theorem Joins.commands_eq (h : Joins M frameSampled p q join) (hself : SelfContained M q)
    (hmarked : Marked M.views frameSampled [q]) : (M.runCommands (p.absorb q join) g m).tile =
        (M.runCommands q (carried M p g m) (midMemory M p g m)).tile ∧
      (M.runCommands (p.absorb q join) g m).draws = (M.runCommands p g m).draws ++
        (M.runCommands q (carried M p g m) (midMemory M p g m)).draws := by
  have hsplit : M.runCommands (p.absorb q join) g m = q.commands.foldl (M.runCommand q.attachedViews m)
      ⟨join.foldl EncoderState.step (M.runCommands p g m).state, (M.runCommands p g m).tile,
        (M.runCommands p g m).draws⟩ := by
    have hviews : (p.absorb q join).attachedViews = q.attachedViews := h.same.views
    have hjoin : join.foldl (M.runCommand p.attachedViews m) (M.runCommands p g m) = _ :=
      foldl_runCommand_of_not_draws fun c hc ↦ (joinCommands_spec h.commands c hc).1
    simp only [runCommands, loadTile_absorb, hviews]
    simp only [absorb, foldl_append, ← h.same.views]
    exact congrArg (q.commands.foldl (M.runCommand p.attachedViews m)) hjoin
  have hagree : AgreeFor M (join.foldl EncoderState.step (M.runCommands p g m).state) .fresh ∅ q.commands := by
    refine ⟨fun k hk ↦ absurd hk (Set.notMem_empty k), hself, fun hany k hk ↦ ?_⟩
    by_cases hset : ∃ c ∈ beforeDraw q, k ∈ c.sets
    · exact .inr hset
    · left
      have hfresh := fixed_fresh_at_join h.commands hany hk fun c hc hk' ↦ hset ⟨c, hc, hk'⟩
      rw [foldl_append] at hfresh
      unfold runCommands
      rw [foldl_runCommand_state]
      exact hfresh
  rw [hsplit]
  unfold runCommands
  rw [h.loadTile_eq]
  exact hagree.foldl_eq (append_nil _).symm (fun _ hc ↦ hc)
    (fun k c hk ↦ by simp [EncoderState.fresh] at hk) fun l hl ↦ h.midMemory_of_sampled hmarked hl

theorem Joins.sameTargets_absorb (h : Joins M frameSampled p q join) : SameTargets (p.absorb q join) q :=
  ⟨h.same.attaches, h.same.sub, h.same.size, h.same.views⟩

theorem Joins.storeAction_absorb (h : Joins M frameSampled p q join) (ht : q.attaches t = true) :
    storeAction (p.absorb q join) t = storeAction q t := by
  have hsame := h.sameTargets_absorb
  have ht' : (p.absorb q join).attaches t = true := by rw [hsame.attaches, ht]
  unfold storeAction
  rw [hsame.aliased_eq ht']
  cases t <;> rfl

theorem Joins.resolveTarget_absorb (h : Joins M frameSampled p q join) (tile : Tile V) :
    M.resolveTarget (p.absorb q join) tile = M.resolveTarget q tile := by
  funext m' i l
  have hb : ((p.absorb q join).color i).isBound = (q.color i).isBound := h.same.attaches (.color i)
  simp only [resolveTarget]
  cases hbound : (q.color i).isBound with
  | false => simp [hb, hbound]
  | true =>
    rw [hbound] at hb
    have hsub := h.sameTargets_absorb.sub (.color i) hb
    simp only [sub, Sub.mk.injEq] at hsub
    simp only [hb, hsub.2.1, hsub.2.2.1]
    rfl

theorem Joins.stores_absorb (h : Joins M frameSampled p q join) {tile : Tile V}
    (hsome : ∀ t x y, (tile t x y).isSome = M.reaches q t x y) (l : Loc) :
    targets.foldl (M.storeTarget (p.absorb q join) g tile) m l =
      targets.foldl (M.storeTarget q (carried M p g m) tile) (midMemory M p g m) l := by
  have hsame := h.sameTargets_absorb
  by_cases ha : Machine.Attached q l
  · obtain ⟨t, ht, hsub⟩ := ha
    have htp : p.attaches t = true := by rw [h.same.attaches, ht]
    have hsub' : l.sub = p.sub t := hsub.trans (h.same.sub t htp).symm
    have hstore := h.storeAction_absorb ht
    cases hs : storeAction q t with
    | dontCare =>
      rw [stores_of_dontCare ht hsub hs]
      exact stores_of_dontCare htp hsub' (hstore.trans hs)
    | store =>
      rw [stores_of_store ht hsub hs]
      refine (stores_of_store (p := p.absorb q join) htp hsub' (hstore.trans hs)).trans ?_
      cases hv : tile t l.x l.y with
      | some v => rfl
      | none =>
        -- outside the render area neither pass writes
        have hr := hsome t l.x l.y
        rw [hv, ← h.same.reaches_eq M, ← tile_isSome_eq (g := g) (m := m)] at hr
        have hn : (M.runCommands p g m).tile t l.x l.y = none := by simpa using hr.symm
        refine Eq.trans (b := M.around p g m t l) rfl ?_
        obtain hl | ⟨hl, -⟩ := h.load_cases htp
        · simp only [Option.getD_none, around, hl]
          exact (surround_eq htp hsub').symm
        · simp only [Option.getD_none, around, hl]
          exact (h.midMemory_of_not_reached htp hsub' hn).symm
  · have ha' : ¬ Machine.Attached p l := by
      rintro ⟨t, ht, hsub⟩
      exact ha ⟨t, by rw [← h.same.attaches, ht], hsub.trans (h.same.sub t ht)⟩
    rw [stores_untouched ha, h.midMemory_of_not_attached ha']
    exact stores_untouched (p := p.absorb q join) ha'

theorem Joins.runBody_eq (h : Joins M frameSampled p q join) (hself : SelfContained M q)
    (hmarked : Marked M.views frameSampled [q]) :
    M.runBody (p.absorb q join) g m = M.runBody q (carried M p g m) (midMemory M p g m) := by
  funext l
  simp only [runBody, storeTile, (h.commands_eq hself hmarked).1, h.resolveTarget_absorb]
  exact foldl_pointwise _ (fun _ _ _ ↦ resolveTarget_congr) (h.stores_absorb tile_isSome_eq l)

theorem Joins.op (h : Joins M frameSampled p q join) (hself : SelfContained M q)
    (hmarked : Marked M.views frameSampled [q]) {o : PassRecord V} {m' : Loc → V}
    (hop : M.op (p.absorb q join) m o m') :
    ∃ o₁ o₂ m₁, M.op p m o₁ m₁ ∧ M.op q m₁ o₂ m' ∧ o.blits = o₁.blits ++ o₂.blits ∧
      o.draws = o₁.draws ++ o₂.draws := by
  obtain ⟨g, rfl, rfl⟩ := hop
  set m₀ := M.runBlits m p.leadingBlits with hm₀
  refine ⟨_, _, _, ⟨⟨g.tile, g.loads, surround M p g m₀⟩, rfl, rfl⟩, ⟨carried M p g m₀, rfl, ?_⟩, ?_, ?_⟩
  · have hbody := h.runBody_eq (g := g) (m := m₀) hself hmarked
    simp only [Machine.run, h.blits, runBlits]
    exact hbody
  · simp [record, h.blits, blitRecords, absorb]
  · have hdraws := (h.commands_eq (g := g) (m := m₀) hself hmarked).2
    simp only [record, Machine.run, h.blits, runBlits]
    exact hdraws

end Join

namespace Pass

variable {p q : Pass} {join : List Command}

def quadCommands (p : Pass) : List Command := keepIdx p.inClearQuad 0 p.commands

theorem QuadsOrdered.absorb (hp : p.QuadsOrdered) (hq : q.QuadsOrdered) : (p.absorb q join).QuadsOrdered where
  inside r hr := by
    simp only [Pass.absorb, mem_append, mem_map, length_append] at hr ⊢
    obtain hr | ⟨s, hs, rfl⟩ := hr
    · have := hp.inside r hr
      omega
    · have := hq.inside s hs
      dsimp only
      omega
  ordered := by
    simp only [Pass.absorb]
    refine pairwise_append.mpr ⟨hp.ordered, ?_, fun r hr s hs ↦ ?_⟩
    · rw [pairwise_map]
      exact hq.ordered.imp fun h ↦ Nat.add_le_add_right h _
    · obtain ⟨s', -, rfl⟩ := mem_map.mp hs
      have := (hp.inside r hr).2
      dsimp only
      omega

theorem inClearQuad_of_length_le (hp : p.QuadsOrdered) {idx : ℕ} (h : p.commands.length ≤ idx) :
    p.inClearQuad idx = false := by
  refine any_eq_false.mpr fun r hr ↦ ?_
  have := (hp.inside r hr).2
  simp only [Bool.and_eq_true, decide_eq_true_eq]
  omega

theorem inClearQuad_absorb (idx : ℕ) : (p.absorb q join).inClearQuad idx = (p.inClearQuad idx ||
      decide (p.commands.length + join.length ≤ idx) &&
        q.inClearQuad (idx - (p.commands.length + join.length))) := by
  simp only [inClearQuad, absorb, any_append, any_map]
  congr 1
  by_cases h : p.commands.length + join.length ≤ idx
  · simp only [h, decide_true, Bool.true_and]
    congr 1
    funext r
    simp only [Function.comp]
    congr 1 <;> simp only [decide_eq_decide] <;> omega
  · simp only [h, decide_false, Bool.false_and]
    refine any_eq_false.mpr fun r _ ↦ ?_
    simp only [Function.comp, Bool.and_eq_true, decide_eq_true_eq]
    omega

theorem quadCommands_absorb (hp : p.QuadsOrdered) :
    (p.absorb q join).quadCommands = p.quadCommands ++ q.quadCommands := by
  have hsplit : (p.absorb q join).commands = p.commands ++ join ++ q.commands := rfl
  have hfirst : keepIdx (p.absorb q join).inClearQuad 0 p.commands = p.quadCommands := by
    refine keepIdx_congr fun idx _ hlt ↦ ?_
    have h : ¬ p.commands.length + join.length ≤ idx := by omega
    simp [inClearQuad_absorb, h]
  have hjoin : keepIdx (p.absorb q join).inClearQuad (0 + p.commands.length) join = [] := by
    refine keepIdx_eq_nil fun idx hle hlt ↦ ?_
    have h : ¬ p.commands.length + join.length ≤ idx := by omega
    have hout : p.inClearQuad idx = false := inClearQuad_of_length_le hp (by omega)
    simp [inClearQuad_absorb, h, hout]
  have hlast : keepIdx (p.absorb q join).inClearQuad (0 + (p.commands ++ join).length) q.commands =
      q.quadCommands := by
    rw [keepIdx_shift]
    refine keepIdx_congr fun idx _ _ ↦ ?_
    rw [inClearQuad_absorb, inClearQuad_of_length_le hp (by simp only [length_append]; omega)]
    simp
  rw [quadCommands, hsplit, keepIdx_append, keepIdx_append, hfirst, hjoin, hlast, append_nil]

end Pass

section Merge

variable {M : Machine V} {frameSampled : Handle → Bool}

theorem mergeFrom_quads {cur : Pass} {rest : List Pass} (hcur : cur.QuadsOrdered)
    (hrest : ∀ p ∈ rest, p.QuadsOrdered) :
    (mergeFrom M.views frameSampled cur rest).flatMap quadCommands =
      (cur :: rest).flatMap quadCommands := by
  induction rest generalizing cur with
  | nil => rfl
  | cons next rest ih =>
    obtain ⟨hnext, hrest⟩ := forall_mem_cons.mp hrest
    unfold mergeFrom
    cases hjoin : mergeJoin cur next M.views frameSampled with
    | none => simp [ih hnext hrest]
    | some join =>
      simp [ih (hcur.absorb hnext) hrest, quadCommands_absorb hcur]

theorem mergeFrom_sameDraws {cur : Pass} {rest : List Pass} (hmarked : Marked M.views frameSampled rest)
    (hself : ∀ p ∈ rest, SelfContained M p) :
    SameDraws M (mergeFrom M.views frameSampled cur rest) (cur :: rest) := by
  induction rest generalizing cur with
  | nil => exact fun m os m' hrun ↦ ⟨os, hrun, rfl, rfl⟩
  | cons next rest ih =>
    obtain ⟨hnext, hrest⟩ := forall_mem_cons.mp hself
    have hone : Marked M.views frameSampled [next] := fun p hp ↦ by
      obtain rfl := mem_singleton.mp hp
      exact hmarked p mem_cons_self
    have hmarked' : Marked M.views frameSampled rest := fun p hp ↦ hmarked p (mem_cons_of_mem _ hp)
    unfold mergeFrom
    cases hjoin : mergeJoin cur next M.views frameSampled with
    | none => exact (ih hmarked' hrest).cons cur
    | some join =>
      intro m os m' hrun
      obtain ⟨os', hold, hblits, hdraws⟩ := ih hmarked' hrest m os m' hrun
      cases hold with
      | cons hop htail =>
        obtain ⟨o₁, o₂, m₁, hcur, hnext', hb, hd⟩ := (joins_of_mergeJoin hjoin).op hnext hone hop
        refine ⟨_, .cons hcur (.cons hnext' htail), ?_, ?_⟩
        · rw [hblits]
          simp [hb]
        · rw [hdraws]
          simp [hd]

/-- Rule J keeps every draw of a submission: its order, the encoder state and attachment contents it
runs with and what it samples, with the memory left at the end and the commands marked as clear quads. -/
theorem merge_adjacent_passes_preserves (M : Machine V) (S : Submission M.views) (start : ℕ)
    (hself : ∀ p ∈ S.passes, SelfContained M p) :
    SameDraws M (mergeAdjacentIdenticalPasses M.views S.frameSampled start S.passes) S.passes ∧
      (mergeAdjacentIdenticalPasses M.views S.frameSampled start S.passes).flatMap quadCommands =
        S.passes.flatMap quadCommands := by
  have hsplit := take_append_drop start S.passes
  unfold mergeAdjacentIdenticalPasses
  cases hdrop : S.passes.drop start with
  | nil => exact ⟨fun m os m' hrun ↦ ⟨os, hrun, rfl, rfl⟩, rfl⟩
  | cons cur rest =>
    rw [hdrop] at hsplit
    have hmem (p : Pass) (hp : p ∈ cur :: rest) : p ∈ S.passes := by
      rw [← hsplit]
      exact mem_append_right _ hp
    simp only
    refine ⟨?_, ?_⟩
    · have hmerged : SameDraws M (mergeFrom M.views S.frameSampled cur rest) (cur :: rest) := mergeFrom_sameDraws
        (fun p hp ↦ S.marked p (hmem p (mem_cons_of_mem _ hp)))
        (fun p hp ↦ hself p (hmem p (mem_cons_of_mem _ hp)))
      have happ := hmerged.append (S.passes.take start)
      rwa [hsplit] at happ
    · have hquads : (mergeFrom M.views S.frameSampled cur rest).flatMap quadCommands = _ := mergeFrom_quads
        (S.quads cur (hmem cur mem_cons_self))
        (fun p hp ↦ S.quads p (hmem p (mem_cons_of_mem _ hp)))
      rw [flatMap_append, hquads, ← flatMap_append, hsplit]

def countingGpu : Machine ℕ where
  clearColor _ r _ _ _ := r
  clearDepth value := value
  clearStencil value := value
  resolve _ v := v
  blit _ _ _ := 0
  transfersStencil _ := false
  reads _ _ _ := false
  draw _ _ _ _ tile t x y := (tile t x y).getD 0 + 1
  views _ := none
  confined := true

def oneTexel : PassColorAttachment :=
  { PassColorAttachment.none with texture := 1, size := (1, 1), load := .load, store := .store }

def wireThenFill : Submission countingGpu.views where
  passes := [
    { Pass.empty.withTarget oneTexel with
      commands := [⟨.setTriangleFillMode, 1, 0, 0, 0⟩, ⟨.drawPrimitives, 3, 0, 3, 0⟩] },
    { Pass.empty.withTarget oneTexel with commands := [⟨.drawPrimitives, 3, 0, 3, 0⟩] }]
  frameSampled _ := false
  marked := by simp [Marked, Command.sampledTexture]
  base p _ := ⟨fun _ ↦ rfl, rfl⟩
  quads := by
    simp only [forall_mem_cons, not_mem_nil, false_imp_iff, implies_true, and_true]
    exact ⟨⟨by simp [withTarget, Pass.empty], .nil⟩, ⟨by simp [withTarget, Pass.empty], .nil⟩⟩

theorem merge_keeps_wire_then_fill :
    (mergeAdjacentIdenticalPasses countingGpu.views wireThenFill.frameSampled 0 wireThenFill.passes).length = 1 ∧
      SameDraws countingGpu
        (mergeAdjacentIdenticalPasses countingGpu.views wireThenFill.frameSampled 0 wireThenFill.passes)
        wireThenFill.passes := by
  refine ⟨by decide, (merge_adjacent_passes_preserves countingGpu wireThenFill 0 ?_).1⟩
  simp [wireThenFill, SelfContained, BindsBefore, countingGpu]

end Merge

end Mtld3d
