import Mtld3d.PassFrame
import Mtld3d.Lib.Select

namespace Mtld3d

open List Lib

variable {V : Type}

structure ClearedTarget where
  texture : Handle
  slice : ℕ
  level : ℕ
  size : ℕ × ℕ
  depth : Bool
  deriving DecidableEq, Repr

inductive BlitEffect
  | reads
  | overwrites
  | neither
  deriving DecidableEq, Repr

def blitEffectOn (blit : BlitCommand) (target : ClearedTarget) (views : ViewMap) : BlitEffect :=
  match blit.cmd with
  | some .copyTextureToTexture =>
    if handleNamesTexture blit.srcHandle target.texture views then .reads
    else if handleNamesTexture blit.dstHandle target.texture views ∧ blit.dstMipLevel = target.level ∧
        blit.dstSlice = target.slice ∧ blit.dstOffset = 0 ∧ blit.depth ≤ 1 ∧
        (blit.regionW, blit.regionH) = target.size then .overwrites
    else .neither
  | some .transferDepth =>
    if handleNamesTexture blit.srcHandle target.texture views then .reads
    else if target.depth ∧ target.slice = 0 ∧ handleNamesTexture blit.dstHandle target.texture views ∧
        blit.dstMipLevel = target.level then .overwrites
    else .neither
  | some .generateMipmaps =>
    if handleNamesTexture blit.dstHandle target.texture views then .reads else .neither
  | some .copyBufferToTexture | some .copyBufferToDepth | some .copyBufferToStencil
  | some .copyBufferToBuffer | some .notifyBufferDidModifyRange => .neither
  | none => if blit.srcHandle = target.texture ∨ blit.dstHandle = target.texture then .reads else .neither

/-- What the leading blits decide about `target`, if they touch it. -/
def scanBlits (target : ClearedTarget) (views : ViewMap) : List BlitCommand → Option Bool
  | [] => none
  | blit :: blits => match blitEffectOn blit target views with
    | .reads => some false
    | .overwrites => some true
    | .neither => scanBlits target views blits

def clearedTargets (pass : Pass) : List ClearedTarget :=
  (List.finRange 4).filterMap (fun i ↦
    if (pass.color i).isBound && (pass.color i).load.isClear then
      some ⟨(pass.color i).texture, (pass.color i).slice, (pass.color i).level, (pass.color i).size, false⟩
    else none) ++
  if decide (pass.depthTexture ≠ 0) && pass.depthLoad.isClear then
    [⟨pass.depthTexture, 0, pass.depthLevel, pass.depthSize, true⟩] else []

def deadClearCandidate (pass : Pass) : Option (List ClearedTarget) :=
  if !pass.leadingBlits.isEmpty || pass.hasCountingVisibility || pass.hasDraw ||
      (List.finRange 4).any (fun i ↦
        decide ((pass.color i).resolveTexture ≠ 0) || decide ((pass.color i).msaaTexture ≠ 0)) ||
      (decide (pass.depthTexture ≠ 0) && pass.stencilLoad.isClear) then none
  else if (clearedTargets pass).isEmpty then none
  else some (clearedTargets pass)

section Rule

variable (views : ViewMap) (frameSampled : Handle → Bool)

def scanPasses (target : ClearedTarget) : List Pass → Bool
  | [] => false
  | cand :: rest => match scanBlits target views cand.leadingBlits with
    | some decided => decided
    | none =>
      if cand.samplesTexture target.texture views frameSampled || cand.attachesTexture target.texture ||
          cand.resolvesInto target.texture views then false
      else scanPasses target rest

def overwrittenBeforeRead (later : List Pass) (target : ClearedTarget) : Bool :=
  if target.size.1 = 0 ∨ target.size.2 = 0 then false else scanPasses views frameSampled target later

def dropOverwrittenClearOnlyPasses : List Pass → List Pass
  | [] => []
  | pass :: passes =>
    let later := dropOverwrittenClearOnlyPasses passes
    match deadClearCandidate pass with
    | none => pass :: later
    | some targets =>
      if targets.all (overwrittenBeforeRead views frameSampled later) then later else pass :: later

end Rule

def ClearedTarget.region (t : ClearedTarget) : Set Loc :=
  {l | l.sub = ⟨.texture t.texture, t.slice, t.level, if t.depth then .depth else .color⟩ ∧
    l.x < t.size.1 ∧ l.y < t.size.2}

def regions (ts : List ClearedTarget) : Set Loc := {l | ∃ t ∈ ts, l ∈ t.region}

namespace Machine

variable {M : Machine V} {p : Pass} {g : Garbage V} {m m₁ m₂ : Loc → V} {t : ClearedTarget}
  {ts : List ClearedTarget} {frameSampled : Handle → Bool}

theorem handleNamesTexture_of_storage {h texture : Handle} (ht : texture ≠ 0) (hs : M.storage h = texture) :
    handleNamesTexture h texture M.views = true := by
  have hh : h ≠ 0 := by
    rintro rfl
    exact ht (by simpa [storage] using hs.symm)
  simpa [handleNamesTexture, hh, ht] using names_of_storage hh hs

theorem storage_of_not_view {h texture : Handle} (hn : handleNamesTexture h texture M.views = true)
    (hb : M.views texture = none) : M.storage h = texture := by
  simp only [handleNamesTexture, Bool.and_eq_true, decide_eq_true_eq, Bool.or_eq_true] at hn
  obtain ⟨⟨hh, -⟩, rfl | hv⟩ := hn
  · simp [storage, hh, hb]
  · simp [storage, hh, hv]

variable {l : Loc}

theorem blitEffectOn_of_reads {b : BlitCommand} (ht : t.texture ≠ 0) (hl : l ∈ t.region)
    (hr : M.blitReads b l = true) : blitEffectOn b t M.views = .reads := by
  have hsurf : l.sub.surface = .texture t.texture := by rw [hl.1]
  unfold blitReads at hr
  cases hcmd : b.cmd with
  | none => simp [hcmd] at hr
  | some kind =>
    cases kind with
    | copyTextureToTexture =>
      simp only [hcmd, Bool.and_eq_true, decide_eq_true_eq, hsurf] at hr
      have hn := handleNamesTexture_of_storage ht (Surface.texture.inj hr.1.1.1).symm
      simp [blitEffectOn, hcmd, hn]
    | transferDepth =>
      simp only [hcmd, Bool.and_eq_true, decide_eq_true_eq, hsurf] at hr
      have hn := handleNamesTexture_of_storage ht (Surface.texture.inj hr.1).symm
      simp [blitEffectOn, hcmd, hn]
    | generateMipmaps =>
      simp only [hcmd, Bool.and_eq_true, decide_eq_true_eq, hsurf] at hr
      have hn := handleNamesTexture_of_storage ht (Surface.texture.inj hr.1).symm
      simp [blitEffectOn, hcmd, hn]
    | copyBufferToTexture => simp [hcmd] at hr
    | copyBufferToBuffer => simp [hcmd] at hr
    | notifyBufferDidModifyRange => simp [hcmd] at hr
    | copyBufferToDepth => simp [hcmd] at hr
    | copyBufferToStencil => simp [hcmd] at hr

theorem blitWrites_of_overwrites {b : BlitCommand} (hb : M.views t.texture = none)
    (he : blitEffectOn b t M.views = .overwrites) (hl : l ∈ t.region) : M.blitWrites b l = true := by
  obtain ⟨hsub, hx, hy⟩ := hl
  unfold blitEffectOn at he
  split at he
  · rename_i hcmd
    split_ifs at he with hsrc hdst
    obtain ⟨hname, hlevel, hslice, hoff, hdepth, hsize⟩ := hdst
    have hstorage := storage_of_not_view hname hb
    have hw : b.regionW = t.size.1 := congrArg Prod.fst hsize
    have hh : b.regionH = t.size.2 := congrArg Prod.snd hsize
    simp [blitWrites, hcmd, hsub, hstorage, hlevel, hslice, BlitCommand.inSlices, BlitCommand.inRegion,
      BlitCommand.dstX, BlitCommand.dstY, hoff, hw, hh, hx, hy]
  · rename_i hcmd
    split_ifs at he with hsrc hdst
    obtain ⟨hdepth, hslice, hname, hlevel⟩ := hdst
    have hstorage := storage_of_not_view hname hb
    simp [blitWrites, hcmd, hsub, hstorage, hlevel, hslice, hdepth]
  · split_ifs at he
  all_goals first | exact BlitEffect.noConfusion he | split_ifs at he

variable {bs : List BlitCommand}

theorem runBlits_scanned (hbase : ∀ t ∈ ts, t.texture ≠ 0 ∧ M.views t.texture = none)
    (hscan : ∀ t ∈ ts, scanBlits t M.views bs ≠ some false) (h : EqOff (regions ts) m₁ m₂) :
    M.blitRecords m₁ bs = M.blitRecords m₂ bs ∧
      EqOff (regions (ts.filter fun t ↦ scanBlits t M.views bs = none)) (M.runBlits m₁ bs)
        (M.runBlits m₂ bs) := by
  induction bs generalizing ts m₁ m₂ with
  | nil =>
    refine ⟨rfl, ?_⟩
    simpa [scanBlits, runBlits] using h
  | cons b bs ih =>
    have hread (l : Loc) (hl : M.blitReads b l = true) : l ∉ regions ts := by
      rintro ⟨t, ht, hlt⟩
      refine hscan t ht ?_
      simp [scanBlits, blitEffectOn_of_reads (hbase t ht).1 hlt hl]
    set left := ts.filter fun t ↦ blitEffectOn b t M.views ≠ .overwrites with hleft
    have hmem {t : ClearedTarget} (ht : t ∈ left) :
        t ∈ ts ∧ blitEffectOn b t M.views = .neither := by
      obtain ⟨hts, hne⟩ := mem_filter.mp ht
      refine ⟨hts, ?_⟩
      have hscan' := hscan t hts
      cases he : blitEffectOn b t M.views with
      | reads => simp [scanBlits, he] at hscan'
      | overwrites => simp [he] at hne
      | neither => rfl
    have hoff : EqOff (regions left) (M.runBlit m₁ b) (M.runBlit m₂ b) := by
      refine (runBlit_eqOff h hread).mono ?_
      rintro l ⟨⟨t, ht, hlt⟩, hw⟩
      refine ⟨t, mem_filter.mpr ⟨ht, ?_⟩, hlt⟩
      simp only [ne_eq, decide_not, Bool.not_eq_eq_eq_not, Bool.not_true, decide_eq_false_iff_not]
      exact fun he ↦ hw (blitWrites_of_overwrites (hbase t ht).2 he hlt)
    obtain ⟨hrec, htail⟩ := ih (fun t ht ↦ hbase t (hmem ht).1) (fun t ht ↦ by
      have hscan' := hscan t (hmem ht).1
      simpa [scanBlits, (hmem ht).2] using hscan') hoff
    refine ⟨congrArg₂ List.cons (seen_eq h hread) hrec, htail.mono ?_⟩
    rintro l ⟨t, ht, hlt⟩
    obtain ⟨htl, hnone⟩ := mem_filter.mp ht
    refine ⟨t, mem_filter.mpr ⟨(hmem htl).1, ?_⟩, hlt⟩
    simpa [scanBlits, (hmem htl).2] using hnone

theorem not_touched (hmarked : Marked M.views frameSampled [p]) (ht : t.texture ≠ 0) (hl : l ∈ t.region)
    (hpast : (p.samplesTexture t.texture M.views frameSampled || p.attachesTexture t.texture ||
      p.resolvesInto t.texture M.views) = false) :
    ¬ M.Samples p l ∧ ¬ Attached p l ∧ ¬ M.Resolved p l := by
  have hsurf : l.sub.surface = .texture t.texture := by rw [hl.1]
  simp only [Bool.or_eq_false_iff] at hpast
  obtain ⟨⟨hs, ha⟩, hr⟩ := hpast
  refine ⟨fun h ↦ ?_, fun h ↦ ?_, fun h ↦ ?_⟩
  · exact Bool.false_ne_true (hs.symm.trans (samplesTexture_of_samples hmarked ht h hsurf))
  · exact Bool.false_ne_true (ha.symm.trans (attachesTexture_of_attached ht h hsurf))
  · exact Bool.false_ne_true (hr.symm.trans (resolvesInto_of_resolved ht h hsurf))

theorem Marked.of_cons {ps : List Pass} (h : Marked M.views frameSampled (p :: ps)) :
    Marked M.views frameSampled [p] ∧ Marked M.views frameSampled ps := by
  refine ⟨fun q hq ↦ ?_, fun q hq ↦ h q (mem_cons_of_mem _ hq)⟩
  obtain rfl := mem_singleton.mp hq
  exact h q mem_cons_self

/-- Passes that overwrite every target before reading it cannot tell its contents. -/
theorem behaves_of_scanned {ps : List Pass} {os : List (PassRecord V)} {m' : Loc → V}
    (hmarked : Marked M.views frameSampled ps) (hbase : ∀ t ∈ ts, t.texture ≠ 0 ∧ M.views t.texture = none)
    (hscan : ∀ t ∈ ts, scanPasses M.views frameSampled t ps = true) (h : EqOff (regions ts) m₁ m₂)
    (hrun : M.Behaves ps m₁ os m') : M.Behaves ps m₂ os m' := by
  induction ps generalizing ts m₁ m₂ os with
  | nil =>
    have hnil : ts = [] := eq_nil_iff_forall_not_mem.mpr fun t ht ↦ by
      simpa [scanPasses] using hscan t ht
    subst hnil
    have heq : m₁ = m₂ := by
      refine EqOff.eq_of_empty (h.mono ?_)
      rintro l ⟨t, ht, -⟩
      exact absurd ht (not_mem_nil)
    rwa [← heq]
  | cons p ps ih =>
    obtain ⟨hp, hps⟩ := Marked.of_cons hmarked
    cases hrun with
    | cons hop hrest =>
      obtain ⟨g, rfl, rfl⟩ := hop
      have hblits (t : ClearedTarget) (ht : t ∈ ts) : scanBlits t M.views p.leadingBlits ≠ some false := by
        intro hfalse
        have hscan' := hscan t ht
        simp [scanPasses, hfalse] at hscan'
      obtain ⟨hrec, hoff⟩ := runBlits_scanned hbase hblits h
      set left := ts.filter fun t ↦ scanBlits t M.views p.leadingBlits = none with hleft
      have hpast (t : ClearedTarget) (ht : t ∈ left) : t ∈ ts ∧
          (p.samplesTexture t.texture M.views frameSampled || p.attachesTexture t.texture ||
            p.resolvesInto t.texture M.views) = false ∧ scanPasses M.views frameSampled t ps = true := by
        obtain ⟨hts, hnone⟩ := mem_filter.mp ht
        have hscan' := hscan t hts
        simp only [decide_eq_true_eq] at hnone
        simp only [scanPasses, hnone] at hscan'
        split_ifs at hscan' with hcond
        exact ⟨hts, Bool.eq_false_iff.mpr hcond, hscan'⟩
      have hfree (l : Loc) (hl : l ∈ regions left) : ¬ M.Samples p l ∧ ¬ Attached p l ∧ ¬ M.Resolved p l := by
        obtain ⟨t, ht, hlt⟩ := hl
        exact not_touched hp (hbase t (hpast t ht).1).1 hlt (hpast t ht).2.1
      obtain ⟨hload, hcommands, hbody⟩ := runBody_eqOff (g := g) hoff
        (fun l hl hD ↦ (hfree l hD).2.1 hl.attached) (fun l hs hD ↦ (hfree l hD).1 hs)
      refine .cons ⟨g, ?_, rfl⟩ (ih hps (fun t ht ↦ hbase t (hpast t ht).1)
        (fun t ht ↦ (hpast t ht).2.2) hbody hrest)
      simp [record, hrec, hload, hcommands]

section Candidate

theorem mem_of_candidate (h : deadClearCandidate p = some ts) :
    (∀ i, (p.color i).isBound = true → (p.color i).load.isClear = true →
      ⟨(p.color i).texture, (p.color i).slice, (p.color i).level, (p.color i).size, false⟩ ∈ ts) ∧
    (p.depthTexture ≠ 0 → p.depthLoad.isClear = true →
      ⟨p.depthTexture, 0, p.depthLevel, p.depthSize, true⟩ ∈ ts) ∧
    (∀ t ∈ ts, (∃ i, (p.color i).isBound = true ∧ t.texture = (p.color i).texture) ∨
      p.depthTexture ≠ 0 ∧ t.texture = p.depthTexture) := by
  unfold deadClearCandidate at h
  split_ifs at h with hno hempty
  obtain rfl := Option.some.inj h
  unfold clearedTargets
  refine ⟨fun i hb hc ↦ ?_, fun hd hc ↦ ?_, fun t ht ↦ ?_⟩
  · refine mem_append_left _ (mem_filterMap.mpr ⟨i, mem_finRange i, ?_⟩)
    simp [hb, hc]
  · refine mem_append_right _ ?_
    simp [hd, hc]
  · obtain ht | ht := mem_append.mp ht
    · obtain ⟨i, -, hi⟩ := mem_filterMap.mp ht
      simp only [Option.ite_none_right_eq_some, Bool.and_eq_true] at hi
      obtain ⟨⟨hb, -⟩, hi⟩ := hi
      exact .inl ⟨i, hb, by rw [← Option.some.inj hi]⟩
    · split_ifs at ht with hd
      · simp only [Bool.and_eq_true, decide_eq_true_eq] at hd
        obtain rfl := mem_singleton.mp ht
        exact .inr ⟨hd.1, rfl⟩
      · exact absurd ht not_mem_nil

theorem idle_of_candidate (h : deadClearCandidate p = some ts) : p.leadingBlits = [] ∧ p.hasDraw = false ∧
      (∀ i, (p.color i).resolveTexture = 0 ∧ (p.color i).msaaTexture = 0) ∧
      (p.depthTexture ≠ 0 → p.stencilLoad.isClear = false) := by
  unfold deadClearCandidate at h
  split_ifs at h with hno hempty
  rw [Bool.not_eq_true] at hno
  simp only [Bool.or_eq_false_iff, Bool.not_eq_false'] at hno
  obtain ⟨⟨⟨⟨hblits, -⟩, hdraw⟩, hcolor⟩, hstencil⟩ := hno
  refine ⟨isEmpty_iff.mp hblits, hdraw, fun i ↦ ?_, fun hd ↦ ?_⟩
  · have hi := any_eq_false.mp hcolor i (mem_finRange i)
    simpa using hi
  · simpa [hd] using hstencil

theorem mem_regions_of_clear (h : deadClearCandidate p = some ts) {t : Target}
    (hsub : l.sub = p.sub t) (hr : M.reaches p t l.x l.y = true) {v : V} (hc : M.loadAction p t = .clear v) :
    l ∈ regions ts := by
  obtain ⟨hcolor, hdepth, -⟩ := mem_of_candidate h
  obtain ⟨-, -, hplain, hstencil⟩ := idle_of_candidate h
  obtain ⟨hatt, hin⟩ := inside hr
  unfold loadAction at hc
  split_ifs at hc
  cases t with
  | color i =>
    have hclear : (p.color i).load.isClear = true := by
      unfold recordedLoad at hc
      cases hload : (p.color i).load <;> simp_all [ColorLoad.isClear]
    refine ⟨_, hcolor i hatt hclear, ?_, hin.1, hin.2⟩
    simp [hsub, Pass.sub, PassColorAttachment.surface, (hplain i).2]
  | depth =>
    have hclear : p.depthLoad.isClear = true := by
      unfold recordedLoad at hc
      cases hload : p.depthLoad <;> simp_all [DepthLoad.isClear]
    have hne : p.depthTexture ≠ 0 := by simpa [Pass.attaches] using hatt
    exact ⟨_, hdepth hne hclear, by simp [hsub, Pass.sub], hin.1, hin.2⟩
  | stencil =>
    simp only [Pass.attaches, Bool.and_eq_true, decide_eq_true_eq] at hatt
    have hclear := hstencil hatt.1
    unfold recordedLoad at hc
    cases hload : p.stencilLoad <;> simp_all [StencilLoad.isClear]

theorem run_candidate (h : deadClearCandidate p = some ts) (m : Loc → V) :
    EqOff (regions ts) m (M.run p ⟨fun t x y ↦ m ⟨p.sub t, x, y⟩, m, m⟩ m) := by
  obtain ⟨hblits, hdraw, hplain, -⟩ := idle_of_candidate h
  intro l hl
  have htile : (M.runCommands p ⟨fun t x y ↦ m ⟨p.sub t, x, y⟩, m, m⟩ m).tile =
      M.loadTile p ⟨fun t x y ↦ m ⟨p.sub t, x, y⟩, m, m⟩ m := by
    refine (foldl_runCommand_of_not_draw fun c hc ↦ ?_).1
    simpa using any_eq_false.mp hdraw c hc
  simp only [run, hblits, runBlits, runBody, storeTile, htile]
  refine (foldl_keeps _ (fun m' hm' i _ ↦ ?_) (foldl_keeps _ (fun m' hm' t _ ↦ ?_) rfl)).symm
  · simpa [resolveTarget, (hplain i).1] using hm'
  · simp only [storeTarget]
    split_ifs with hatt
    · simp only [Bool.and_eq_true, decide_eq_true_eq] at hatt
      cases storeAction p t with
      | dontCare => rfl
      | store =>
        simp only [loadTile]
        split_ifs with hr
        · simp only [Option.getD_some, loadTexel]
          cases hload : M.loadAction p t with
          | load => simp [← hatt.2]
          | clear v => exact absurd (mem_regions_of_clear h hatt.2 hr hload) hl
          | dontCare => simp [← hatt.2]
        · simp only [Option.getD_none, around]
          cases M.loadAction p t with
          | load => exact hm'
          | clear v => exact hm'
          | dontCare => rfl
    · exact hm'

end Candidate

def Clears (M : Machine V) (p : Pass) (l : Loc) : Prop :=
  ∃ t v, l.sub = p.sub t ∧ M.reaches p t l.x l.y = true ∧ M.loadAction p t = .clear v

def BlitsOverwrite (M : Machine V) (l : Loc) : List BlitCommand → Prop
  | [] => False
  | b :: bs => M.blitReads b l = false ∧ (M.blitWrites b l = true ∨ BlitsOverwrite M l bs)

def OverwrittenFirst (M : Machine V) (l : Loc) : List Pass → Prop
  | [] => False
  | p :: ps => M.BlitsOverwrite l p.leadingBlits ∨
    (∀ b ∈ p.leadingBlits, M.blitReads b l = false) ∧ ¬ M.Loads p l ∧ ¬ M.Samples p l ∧ OverwrittenFirst M l ps

theorem blitReads_eq_false {b : BlitCommand} (ht : t.texture ≠ 0) (hl : l ∈ t.region)
    (he : blitEffectOn b t M.views ≠ .reads) : M.blitReads b l = false :=
  Bool.eq_false_iff.mpr fun hr ↦ he (blitEffectOn_of_reads ht hl hr)

theorem blitsOverwrite_of_scan (ht : t.texture ≠ 0)
    (hbase : M.views t.texture = none) (hl : l ∈ t.region) (h : scanBlits t M.views bs = some true) :
    M.BlitsOverwrite l bs := by
  induction bs with
  | nil => simp [scanBlits] at h
  | cons b bs ih =>
    unfold scanBlits at h
    cases he : blitEffectOn b t M.views with
    | reads => simp [he] at h
    | overwrites =>
      exact ⟨blitReads_eq_false ht hl (by simp [he]), .inl (blitWrites_of_overwrites hbase he hl)⟩
    | neither =>
      rw [he] at h
      exact ⟨blitReads_eq_false ht hl (by simp [he]), .inr (ih h)⟩

theorem not_reads_of_scan (ht : t.texture ≠ 0) (hl : l ∈ t.region)
    (h : scanBlits t M.views bs = none) : ∀ b ∈ bs, M.blitReads b l = false := by
  induction bs with
  | nil => simp
  | cons b bs ih =>
    unfold scanBlits at h
    cases he : blitEffectOn b t M.views with
    | reads => simp [he] at h
    | overwrites => simp [he] at h
    | neither =>
      rw [he] at h
      exact forall_mem_cons.mpr ⟨blitReads_eq_false ht hl (by simp [he]), ih h⟩

theorem overwrittenFirst_of_scan {ps : List Pass} (hmarked : Marked M.views frameSampled ps)
    (ht : t.texture ≠ 0) (hbase : M.views t.texture = none) (hl : l ∈ t.region)
    (h : scanPasses M.views frameSampled t ps = true) : M.OverwrittenFirst l ps := by
  induction ps with
  | nil => simp [scanPasses] at h
  | cons p ps ih =>
    obtain ⟨hp, hps⟩ := Marked.of_cons hmarked
    unfold scanPasses at h
    cases hscan : scanBlits t M.views p.leadingBlits with
    | some decided =>
      simp only [hscan] at h
      subst h
      exact .inl (blitsOverwrite_of_scan ht hbase hl hscan)
    | none =>
      simp only [hscan] at h
      split_ifs at h with hcond
      obtain ⟨hs, ha, -⟩ := not_touched hp ht hl (Bool.eq_false_iff.mpr hcond)
      exact .inr ⟨not_reads_of_scan ht hl hscan, fun hload ↦ ha hload.attached, hs, ih hps h⟩

section Drop

variable {ps : List Pass}

theorem mem_of_mem_drop {q : Pass} (h : q ∈ dropOverwrittenClearOnlyPasses M.views frameSampled ps) : q ∈ ps := by
  induction ps with
  | nil => exact h
  | cons p ps ih =>
    simp only [dropOverwrittenClearOnlyPasses] at h
    split at h
    · obtain rfl | h := mem_cons.mp h
      · exact mem_cons_self
      · exact mem_cons_of_mem _ (ih h)
    · split_ifs at h
      · exact mem_cons_of_mem _ (ih h)
      · obtain rfl | h := mem_cons.mp h
        · exact mem_cons_self
        · exact mem_cons_of_mem _ (ih h)

structure Dropped (M : Machine V) (ps later : List Pass) (kept : List Bool) : Prop where
  length : kept.length = ps.length
  passes : later = select kept ps
  blits : later.flatMap Pass.leadingBlits = ps.flatMap Pass.leadingBlits
  overwritten : ∀ i p, ps[i]? = some p → kept[i]? = some false → ∀ l, M.Clears p l →
    M.OverwrittenFirst l (select (kept.drop (i + 1)) (ps.drop (i + 1)))
  behaves : ∀ m os m', M.Behaves later m os m' → ∃ os', M.Behaves ps m os' m' ∧ os = select kept os'

theorem Dropped.keep {later : List Pass} {kept : List Bool} (h : Dropped M ps later kept) (p : Pass) :
    Dropped M (p :: ps) (p :: later) (true :: kept) where
  length := by simp [h.length]
  passes := by simp [select, h.passes]
  blits := by simp [h.blits]
  overwritten i q hq hi l hl := by
    cases i with
    | zero => simp at hi
    | succ i => exact h.overwritten i q (by simpa using hq) (by simpa using hi) l hl
  behaves m os m' hrun := by
    cases hrun with
    | cons hop hrest =>
      obtain ⟨os', hold, rfl⟩ := h.behaves _ _ _ hrest
      exact ⟨_, .cons hop hold, rfl⟩

theorem Dropped.drop {later : List Pass} {kept : List Bool} (h : Dropped M ps later kept) {p : Pass}
    (hmarked : Marked M.views frameSampled later) (hbase : BaseAttached M.views [p])
    (hcand : deadClearCandidate p = some ts)
    (hscan : ∀ t ∈ ts, scanPasses M.views frameSampled t later = true) :
    Dropped M (p :: ps) later (false :: kept) := by
  obtain ⟨hblits, -, -, -⟩ := idle_of_candidate hcand
  have htargets (t : ClearedTarget) (ht : t ∈ ts) : t.texture ≠ 0 ∧ M.views t.texture = none := by
    obtain ⟨hcolor, hdepth⟩ := hbase p (mem_singleton_self p)
    obtain ⟨i, hb, heq⟩ | ⟨hd, heq⟩ := (mem_of_candidate hcand).2.2 t ht
    · rw [heq]
      exact ⟨by simpa [PassColorAttachment.isBound] using hb, hcolor i⟩
    · rw [heq]
      exact ⟨hd, hdepth⟩
  refine ⟨by simp [h.length], by simp [select, h.passes], by simp [h.blits, hblits], ?_, ?_⟩
  · intro i q hq hi l hl
    cases i with
    | zero =>
      obtain rfl : p = q := by simpa using hq
      obtain ⟨t, v, hsub, hr, hc⟩ := hl
      obtain ⟨t', ht', hlt⟩ := mem_regions_of_clear hcand hsub hr hc
      have hfirst := overwrittenFirst_of_scan hmarked (htargets t' ht').1 (htargets t' ht').2 hlt (hscan t' ht')
      simpa [← h.passes] using hfirst
    | succ i => exact h.overwritten i q (by simpa using hq) (by simpa using hi) l hl
  · intro m os m' hrun
    obtain ⟨os', hold, hos⟩ := h.behaves _ _ _
      (behaves_of_scanned hmarked htargets hscan (run_candidate hcand m) hrun)
    exact ⟨_, .cons ⟨_, rfl, rfl⟩ hold, by rw [hos]; rfl⟩

theorem dropped_of_rule (hmarked : Marked M.views frameSampled ps) (hbase : BaseAttached M.views ps) :
    ∃ kept, Dropped M ps (dropOverwrittenClearOnlyPasses M.views frameSampled ps) kept := by
  induction ps with
  | nil =>
    refine ⟨[], rfl, rfl, rfl, fun i q hq ↦ by simp at hq, fun m os m' hrun ↦ ?_⟩
    cases hrun
    exact ⟨[], .nil m, rfl⟩
  | cons p ps ih =>
    obtain ⟨-, hps⟩ := Marked.of_cons hmarked
    obtain ⟨kept, h⟩ := ih hps fun q hq ↦ hbase q (mem_cons_of_mem _ hq)
    simp only [dropOverwrittenClearOnlyPasses]
    cases hcand : deadClearCandidate p with
    | none => exact ⟨_, h.keep p⟩
    | some ts =>
      simp only
      split_ifs with hall
      · refine ⟨_, h.drop (fun q hq ↦ hps q (mem_of_mem_drop hq)) (fun q hq ↦ ?_) hcand fun t ht ↦ ?_⟩
        · obtain rfl := mem_singleton.mp hq
          exact hbase q mem_cons_self
        · have hover := all_eq_true.mp hall t ht
          unfold overwrittenBeforeRead at hover
          split_ifs at hover
          exact hover
      · exact ⟨_, h.keep p⟩

end Drop

end Machine

/-- Rule I keeps every value of a submission: each dropped pass cleared texels that the passes kept
after it overwrite before reading, the leading blits run unchanged, and whatever the kept passes can
read and leave behind, the full list can as well. -/
theorem drop_overwritten_clears_preserves (M : Machine V) (S : Submission M.views) :
    ∃ kept, Machine.Dropped M S.passes
      (dropOverwrittenClearOnlyPasses M.views S.frameSampled S.passes) kept :=
  Machine.dropped_of_rule S.marked S.base

end Mtld3d
