import Mtld3d.PassRun

namespace Mtld3d

open List Lib

variable {V : Type}

section State

variable {M : Machine V} {σ : EncoderState} {c : Command} {cs : List Command} {k : StateKey}

theorem sets_of_isDraw (h : c.isDraw = true) : c.sets = [] := by
  simp only [Command.isDraw, Bool.or_eq_true, decide_eq_true_eq] at h
  obtain (h | h) | h := h <;> simp [Command.sets, h]

theorem step_of_sets_nil (h : c.sets = []) : σ.step c = σ := by
  funext k
  simp [EncoderState.step, h]

theorem foldl_runCommand_state {views : Fin 4 → Handle} {m : Loc → V} {s : CommandState V} :
    (cs.foldl (M.runCommand views m) s).state = cs.foldl EncoderState.step s.state := by
  induction cs generalizing s with
  | nil => rfl
  | cons c cs ih =>
    rw [foldl_cons, foldl_cons, ih]
    congr 1
    unfold Machine.runCommand
    split_ifs with hd
    · exact (step_of_sets_nil (sets_of_isDraw hd)).symm
    · rfl

theorem foldl_step_eq : cs.foldl EncoderState.step σ k =
    match cs.reverse.find? fun c ↦ decide (k ∈ c.sets) with
    | none => σ k
    | some c => if c.setsFreshValue then none else some c := by
  induction cs using List.reverseRecOn with
  | nil => rfl
  | append_singleton cs c ih =>
    rw [foldl_append, foldl_cons, foldl_nil, reverse_append, reverse_singleton,
      singleton_append]
    by_cases hk : k ∈ c.sets
    · simp [EncoderState.step, hk]
    · simp [EncoderState.step, hk, ih]

end State

namespace Machine

variable {M : Machine V} {p : Pass} {g : Garbage V} {m m₁ m₂ : Loc → V} {D : Set Loc}

def Samples (M : Machine V) (p : Pass) (l : Loc) : Prop :=
  ∃ c ∈ p.commands, ∃ h, c.sampledTexture = some h ∧ l.sub.surface = .texture (M.storage h)

/-- A location the pass brings in with a `Load`. -/
def Loads (M : Machine V) (p : Pass) (l : Loc) : Prop :=
  ∃ t, l.sub = p.sub t ∧ M.loadAction p t = .load ∧ M.reaches p t l.x l.y = true

def Attached (p : Pass) (l : Loc) : Prop := ∃ t, p.attaches t = true ∧ l.sub = p.sub t

def Resolved (M : Machine V) (p : Pass) (l : Loc) : Prop :=
  ∃ i, (p.color i).isBound = true ∧ (p.color i).resolveTexture ≠ 0 ∧
    l.sub = ⟨.texture (M.storage (p.color i).resolveTexture), (p.color i).slice, (p.color i).level, .color⟩

section Blits

variable {b : BlitCommand}

theorem seen_eq (h : EqOff D m₁ m₂) (hb : ∀ l, M.blitReads b l = true → l ∉ D) :
    M.seen b m₁ = M.seen b m₂ := h.restrict_eq hb

theorem runBlit_eqOff (h : EqOff D m₁ m₂) (hb : ∀ l, M.blitReads b l = true → l ∉ D) :
    EqOff (D \ {l | M.blitWrites b l = true}) (M.runBlit m₁ b) (M.runBlit m₂ b) := by
  simp only [runBlit, seen_eq h hb]
  exact h.overwrite _

variable {l : Loc}

theorem runBlit_of_not_writes (hb : M.blitWrites b l = false) : M.runBlit m b l = m l := by
  simp [runBlit, overwrite, hb]

theorem runBlits_of_not_writes {bs : List BlitCommand}
    (hb : ∀ b ∈ bs, M.blitWrites b l = false) : M.runBlits m bs l = m l := by
  induction bs generalizing m with
  | nil => rfl
  | cons b bs ih =>
    obtain ⟨hhead, htail⟩ := forall_mem_cons.mp hb
    exact (ih htail).trans (runBlit_of_not_writes hhead)

theorem runBlits_eqOff {bs : List BlitCommand} (h : EqOff D m₁ m₂)
    (hb : ∀ b ∈ bs, ∀ l, M.blitReads b l = true → l ∉ D) :
    M.blitRecords m₁ bs = M.blitRecords m₂ bs ∧ EqOff D (M.runBlits m₁ bs) (M.runBlits m₂ bs) := by
  induction bs generalizing m₁ m₂ with
  | nil => exact ⟨rfl, h⟩
  | cons b bs ih =>
    obtain ⟨hhead, htail⟩ := forall_mem_cons.mp hb
    have hnext := (runBlit_eqOff h hhead).mono Set.sdiff_subset
    obtain ⟨hrec, hoff⟩ := ih hnext htail
    exact ⟨congrArg₂ List.cons (seen_eq h hhead) hrec, hoff⟩

end Blits

section Commands

variable {views : Fin 4 → Handle} {s : CommandState V} {c : Command} {cs : List Command}

def EncoderState.Within (σ : EncoderState) (cs : List Command) : Prop := ∀ k c, σ k = some c → c ∈ cs

theorem visible_eq_some {σ : EncoderState} {k : StateKey} {c' : Command} (h : M.visible σ c k = some c') :
    σ k = some c' := by
  unfold visible at h
  split_ifs at h
  exact h

theorem exists_of_sampleReads {σ : EncoderState} (h : M.sampleReads σ l = true) :
    ∃ k c h, σ k = some c ∧ c.sampledTexture = some h ∧ l.sub.surface = .texture (M.storage h) := by
  obtain ⟨k, -, hk⟩ := any_eq_true.mp h
  cases hbind : (σ k).bind Command.sampledTexture with
  | none => simp [hbind] at hk
  | some h' =>
    obtain ⟨c', hc, hs⟩ := Option.bind_eq_some_iff.mp hbind
    simp only [hbind, decide_eq_true_eq] at hk
    exact ⟨k, c', h', hc, hs, hk⟩

variable {cs' : List Command}

theorem runCommand_within (h : EncoderState.Within s.state cs') (hc : c ∈ cs') :
    EncoderState.Within (M.runCommand views m s c).state cs' := by
  unfold runCommand
  split_ifs
  · exact h
  · intro k c' hk
    simp only [EncoderState.step] at hk
    split_ifs at hk with hset hfresh
    · obtain rfl := Option.some.inj hk
      exact hc
    · exact h k c' hk

theorem drawRecord_eq (h : EncoderState.Within s.state cs')
    (hm : ∀ l, (∃ c ∈ cs', ∃ h, c.sampledTexture = some h ∧ l.sub.surface = .texture (M.storage h)) →
      m₁ l = m₂ l) : M.drawRecord m₁ s c = M.drawRecord m₂ s c := by
  have hr : restrict (M.sampleReads (M.visible s.state c)) m₁ =
      restrict (M.sampleReads (M.visible s.state c)) m₂ := by
    funext l
    by_cases hl : M.sampleReads (M.visible s.state c) l = true
    · obtain ⟨k, c', h', hk, hs, hsurf⟩ := exists_of_sampleReads hl
      have heq := hm l ⟨c', h k c' (visible_eq_some hk), h', hs, hsurf⟩
      simp [restrict, hl, heq]
    · simp [restrict, hl]
  simp [drawRecord, hr]

theorem foldl_runCommand_eq (hsub : ∀ c ∈ cs, c ∈ cs') (h : EncoderState.Within s.state cs')
    (hm : ∀ l, (∃ c ∈ cs', ∃ h, c.sampledTexture = some h ∧ l.sub.surface = .texture (M.storage h)) →
      m₁ l = m₂ l) : cs.foldl (M.runCommand views m₁) s = cs.foldl (M.runCommand views m₂) s := by
  induction cs generalizing s with
  | nil => rfl
  | cons c cs ih =>
    obtain ⟨hhead, htail⟩ := forall_mem_cons.mp hsub
    have hone : M.runCommand views m₁ s c = M.runCommand views m₂ s c := by
      simp [runCommand, drawRecord_eq h hm]
    rw [foldl_cons, foldl_cons, hone]
    exact ih htail (runCommand_within h hhead)

theorem foldl_runCommand_of_not_draw (hcs : ∀ c ∈ cs, c.isDraw = false) :
    (cs.foldl (M.runCommand views m) s).tile = s.tile ∧ (cs.foldl (M.runCommand views m) s).draws = s.draws := by
  induction cs generalizing s with
  | nil => exact ⟨rfl, rfl⟩
  | cons c cs ih =>
    obtain ⟨hhead, htail⟩ := forall_mem_cons.mp hcs
    obtain ⟨htile, hdraws⟩ := ih (s := M.runCommand views m s c) htail
    rw [foldl_cons, htile, hdraws]
    simp [runCommand, hhead]

theorem foldl_runCommand_isSome (t : Target) (x y : ℕ) :
    ((cs.foldl (M.runCommand views m) s).tile t x y).isSome = (s.tile t x y).isSome := by
  induction cs generalizing s with
  | nil => rfl
  | cons c cs ih =>
    rw [foldl_cons, ih]
    unfold runCommand
    split_ifs
    · simp [drawTile, drawRecord]
    · rfl

end Commands

theorem loadTile_eq (hm : ∀ l, M.Loads p l → m₁ l = m₂ l) : M.loadTile p g m₁ = M.loadTile p g m₂ := by
  funext t x y
  simp only [loadTile]
  split_ifs with hr
  · simp only [loadTexel]
    cases hload : M.loadAction p t with
    | load => simp [hm ⟨p.sub t, x, y⟩ ⟨t, rfl, hload, hr⟩]
    | clear value => rfl
    | dontCare => rfl
  · rfl

theorem loadRecord_eq (hm : ∀ l, M.Loads p l → m₁ l = m₂ l) : M.loadRecord p m₁ = M.loadRecord p m₂ := by
  funext t x y
  simp only [loadRecord]
  cases hload : M.loadAction p t with
  | load =>
    simp only
    split_ifs with hr
    · rw [hm ⟨p.sub t, x, y⟩ ⟨t, rfl, hload, hr⟩]
    · rfl
  | clear value => rfl
  | dontCare => rfl

theorem runCommands_eq (hl : ∀ l, M.Loads p l → m₁ l = m₂ l) (hs : ∀ l, M.Samples p l → m₁ l = m₂ l) :
    M.runCommands p g m₁ = M.runCommands p g m₂ := by
  unfold runCommands
  rw [loadTile_eq hl]
  exact foldl_runCommand_eq (fun _ hc ↦ hc) (fun k c hk ↦ by simp [EncoderState.fresh] at hk) hs

theorem foldl_pointwise {α : Type} {f : (Loc → V) → α → Loc → V} (as : List α)
    (hf : ∀ m₁ m₂ a, m₁ l = m₂ l → f m₁ a l = f m₂ a l) (h : m₁ l = m₂ l) :
    as.foldl f m₁ l = as.foldl f m₂ l := by
  induction as generalizing m₁ m₂ with
  | nil => exact h
  | cons a as ih => exact ih (hf _ _ a h)

theorem foldl_invariant {α : Type} {f : (Loc → V) → α → Loc → V} (P : V → Prop) {as : List α}
    (hf : ∀ m, P (m l) → ∀ a ∈ as, P (f m a l)) (h : P (m l)) : P (as.foldl f m l) := by
  induction as generalizing m with
  | nil => exact h
  | cons a as ih =>
    exact ih (fun m hm a ha ↦ hf m hm a (mem_cons_of_mem _ ha)) (hf m h a mem_cons_self)

theorem foldl_keeps {α : Type} {f : (Loc → V) → α → Loc → V} {v : V} (as : List α)
    (hf : ∀ m, m l = v → ∀ a ∈ as, f m a l = v) (h : m l = v) : as.foldl f m l = v :=
  foldl_invariant (fun v' ↦ v' = v) hf h

variable {t : Target} {tile : Tile V}

theorem storeTarget_congr (h : m₁ l = m₂ l) :
    M.storeTarget p g tile m₁ t l = M.storeTarget p g tile m₂ t l := by
  simp [storeTarget, around, h]

theorem resolveTarget_congr {i : Fin 4} (h : m₁ l = m₂ l) :
    M.resolveTarget p tile m₁ i l = M.resolveTarget p tile m₂ i l := by
  simp [resolveTarget, h]

theorem storeTile_congr (h : m₁ l = m₂ l) : M.storeTile p g tile m₁ l = M.storeTile p g tile m₂ l :=
  foldl_pointwise _ (fun _ _ _ h ↦ resolveTarget_congr h)
    (foldl_pointwise _ (fun _ _ _ h ↦ storeTarget_congr h) h)

theorem foldl_of_mem {α : Type} {f : (Loc → V) → α → Loc → V} {v : V} {as : List α} {a : α}
    (ha : a ∈ as) (hact : ∀ m', m' l = m l → f m' a l = v)
    (hagain : ∀ m', m' l = v → ∀ b ∈ as, f m' b l = v ∨ f m' b l = m' l)
    (hpass : ∀ m', m' l = m l → ∀ b ∈ as, f m' b l = v ∨ f m' b l = m' l)
    (hset : ∀ m', m' l = v → f m' a l = v) : as.foldl f m l = v := by
  obtain ⟨pre, post, rfl⟩ := append_of_mem ha
  have hpre : pre.foldl f m l = m l ∨ pre.foldl f m l = v := by
    refine foldl_invariant (fun v' ↦ v' = m l ∨ v' = v) (fun m' hm' b hb ↦ ?_) (.inl rfl)
    have hb' : b ∈ pre ++ a :: post := mem_append_left _ hb
    obtain hm' | hm' := hm'
    · obtain h | h := hpass m' hm' b hb'
      · exact .inr h
      · exact .inl (h.trans hm')
    · obtain h | h := hagain m' hm' b hb'
      · exact .inr h
      · exact .inr (h.trans hm')
  rw [foldl_append, foldl_cons]
  refine foldl_invariant (fun v' ↦ v' = v) (fun m' hm' b hb ↦ ?_) (hpre.elim (hact _) (hset _))
  obtain h | h := hagain m' hm' b (mem_append_right _ (mem_cons_of_mem _ hb))
  · exact h
  · exact h.trans hm'

theorem not_aliased_of_store (hs : storeAction p t = .store) : p.aliased t = false := by
  unfold storeAction at hs
  split_ifs at hs with hal
  exact Bool.eq_false_iff.mpr hal

theorem stores_of_store (ha : p.attaches t = true) (hsub : l.sub = p.sub t) (hs : storeAction p t = .store) :
    Pass.targets.foldl (M.storeTarget p g tile) m l = (tile t l.x l.y).getD (M.around p g m t l) := by
  have halias := not_aliased_of_store hs
  have haround (m' : Loc → V) (hm' : m' l = m l ∨ m' l = (tile t l.x l.y).getD (M.around p g m t l)) :
      M.storeTarget p g tile m' t l = (tile t l.x l.y).getD (M.around p g m t l) := by
    simp only [storeTarget, ha, hsub, decide_true, Bool.and_self, if_true, hs]
    cases htile : tile t l.x l.y with
    | some v => rfl
    | none =>
      simp only [htile, Option.getD_none, around] at hm' ⊢
      cases hload : M.loadAction p t <;> simp_all
  have hother (m' : Loc → V) (hm' : m' l = m l ∨ m' l = (tile t l.x l.y).getD (M.around p g m t l))
      (t' : Target) : M.storeTarget p g tile m' t' l = (tile t l.x l.y).getD (M.around p g m t l) ∨
        M.storeTarget p g tile m' t' l = m' l := by
    by_cases hc : p.attaches t' = true ∧ l.sub = p.sub t'
    · obtain rfl := Pass.eq_of_sub_eq p halias hc.1 (hc.2.symm.trans hsub)
      exact .inl (haround m' hm')
    · right
      exact if_neg fun hc' ↦ hc (by simpa using hc')
  exact foldl_of_mem (Pass.mem_targets t) (fun m' hm' ↦ haround m' (.inl hm'))
    (fun m' hm' t' _ ↦ hother m' (.inr hm') t') (fun m' hm' t' _ ↦ hother m' (.inl hm') t')
    fun m' hm' ↦ haround m' (.inr hm')

theorem stores_of_dontCare (ha : p.attaches t = true)
    (hsub : l.sub = p.sub t) (hs : storeAction p t = .dontCare) :
    Pass.targets.foldl (M.storeTarget p g tile) m l = g.stores l := by
  have hact (m' : Loc → V) : M.storeTarget p g tile m' t l = g.stores l := by
    simp [storeTarget, ha, hsub, hs]
  have hother (m' : Loc → V) (t' : Target) :
      M.storeTarget p g tile m' t' l = g.stores l ∨ M.storeTarget p g tile m' t' l = m' l := by
    simp only [storeTarget]
    split_ifs with hc
    · simp only [Bool.and_eq_true, decide_eq_true_eq] at hc
      left
      by_cases heq : t' = t
      · rw [heq, hs]
      · -- a second target on the plane makes both undefined
        have halias : p.aliased t' = true := any_eq_true.mpr
          ⟨t, Pass.mem_targets t, by simp [Ne.symm heq, ha, ← hsub, hc.2]⟩
        simp [storeAction, halias]
    · exact .inr rfl
  exact foldl_of_mem (Pass.mem_targets t) (fun m' _ ↦ hact m') (fun m' _ t' _ ↦ hother m' t')
    (fun m' _ t' _ ↦ hother m' t') fun m' _ ↦ hact m'

theorem stores_untouched (ha : ¬ Attached p l) : Pass.targets.foldl (M.storeTarget p g tile) m l = m l := by
  refine foldl_keeps _ (fun m hm t _ ↦ (if_neg fun hc ↦ ha ⟨t, ?_⟩).trans hm) rfl
  simpa using hc

theorem resolves_untouched (hr : ¬ M.Resolved p l) :
    (List.finRange 4).foldl (M.resolveTarget p tile) m l = m l := by
  refine foldl_keeps _ (fun m hm i _ ↦ (if_neg fun hc ↦ hr ⟨i, ?_⟩).trans hm) rfl
  simpa [and_assoc] using hc

theorem stores_adopt {contents : Target → ℕ → ℕ → V} {ms : Loc → V}
    (hstore : ∀ t l, p.attaches t = true → l.sub = p.sub t → storeAction p t = .store →
      (tile t l.x l.y).getD (M.around p ⟨contents, ms, ms⟩ m t l) = ms l)
    (hrest : ∀ l, ¬ Attached p l → m l = ms l) :
    Pass.targets.foldl (M.storeTarget p ⟨contents, ms, ms⟩ tile) m = ms := by
  funext l
  by_cases ha : Attached p l
  · obtain ⟨t, ht, hsub⟩ := ha
    cases hs : storeAction p t with
    | store => exact (stores_of_store ht hsub hs).trans (hstore t l ht hsub hs)
    | dontCare => exact stores_of_dontCare ht hsub hs
  · exact (stores_untouched ha).trans (hrest l ha)

theorem storeTile_untouched (ha : ¬ Attached p l) (hr : ¬ M.Resolved p l) : M.storeTile p g tile m l = m l :=
  (resolves_untouched hr).trans (stores_untouched ha)

theorem runBody_untouched (ha : ¬ Attached p l) (hr : ¬ M.Resolved p l) :
    M.runBody p g m l = m l := storeTile_untouched ha hr

theorem runBody_of_not_draw (g : Garbage V) (m : Loc → V) (hdraw : p.hasDraw = false) :
    M.runBody p g m = M.storeTile p g (M.loadTile p g m) m ∧ (M.runCommands p g m).draws = [] := by
  have hkept : (M.runCommands p g m).tile = _ ∧ (M.runCommands p g m).draws = _ :=
    foldl_runCommand_of_not_draw fun c hc ↦ by simpa using any_eq_false.mp hdraw c hc
  exact ⟨by rw [runBody, hkept.1], hkept.2⟩

theorem op_of_idle {m' : Loc → V} (hdraw : p.hasDraw = false) (hblits : p.leadingBlits = [])
    (hres : ∀ l, ¬ M.Resolved p l) (hstores : Pass.targets.foldl (M.storeTarget p g (M.loadTile p g m)) m = m') :
    ∃ o, M.op p m o m' ∧ o.blits = [] ∧ o.draws = [] := by
  refine ⟨_, ⟨g, rfl, ?_⟩, ?_, ?_⟩
  · funext l
    simp only [run, hblits, runBlits, (runBody_of_not_draw _ _ hdraw).1, storeTile, hstores]
    exact (resolves_untouched (hres l)).symm
  · simp [record, hblits, blitRecords]
  · simp [record, (runBody_of_not_draw _ _ hdraw).2]

theorem run_of_idle (hdraw : p.hasDraw = false) (hblits : p.leadingBlits = [])
    (hres : ¬ M.Resolved p l) (ht : p.attaches t = true) (hsub : l.sub = p.sub t) (hs : storeAction p t = .store) :
    M.run p g m l = (M.loadTile p g m t l.x l.y).getD (M.around p g m t l) := by
  simp only [run, hblits, runBlits, (runBody_of_not_draw _ _ hdraw).1]
  exact (resolves_untouched hres).trans (stores_of_store ht hsub hs)

theorem runBody_eqOff (h : EqOff D m₁ m₂) (hl : ∀ l, M.Loads p l → l ∉ D) (hs : ∀ l, M.Samples p l → l ∉ D) :
    M.loadRecord p m₁ = M.loadRecord p m₂ ∧ M.runCommands p g m₁ = M.runCommands p g m₂ ∧
      EqOff D (M.runBody p g m₁) (M.runBody p g m₂) := by
  have hcommands : M.runCommands p g m₁ = M.runCommands p g m₂ :=
    runCommands_eq (fun l hl' ↦ h (hl l hl')) fun l hs' ↦ h (hs l hs')
  refine ⟨loadRecord_eq fun l hl' ↦ h (hl l hl'), hcommands, fun l hD ↦ ?_⟩
  simp only [runBody, hcommands]
  exact storeTile_congr (h hD)

end Machine

structure SameTargets (p q : Pass) : Prop where
  attaches : ∀ t, p.attaches t = q.attaches t
  sub : ∀ t, p.attaches t = true → p.sub t = q.sub t
  size : ∀ t, p.attaches t = true → p.sizeOf t = q.sizeOf t
  views : p.attachedViews = q.attachedViews

namespace SameTargets

variable {p q : Pass} (h : SameTargets p q)

include h

theorem aliased_eq (ht : p.attaches t = true) : p.aliased t = q.aliased t := by
  unfold Pass.aliased
  congr 1
  funext t'
  rw [← h.attaches t', ← h.sub t ht]
  cases ht' : p.attaches t' with
  | true => rw [h.sub t' ht']
  | false => simp

theorem ownArea_eq (ht : p.attaches t = true) (x y : ℕ) : p.ownArea t x y = q.ownArea t x y := by
  simp [Pass.ownArea, h.size t ht]

theorem reaches_eq (M : Machine V) (t : Target) (x y : ℕ) : M.reaches p t x y = M.reaches q t x y := by
  have hsmall : p.smallestArea t x y = q.smallestArea t x y := by
    unfold Pass.smallestArea
    congr 1
    funext t'
    rw [← h.attaches t']
    cases ht' : p.attaches t' with
    | true => rw [h.ownArea_eq ht']
    | false => rfl
  simp only [Machine.reaches, Machine.area, ← h.attaches t, hsmall]
  cases ht : p.attaches t with
  | true => simp [h.ownArea_eq ht]
  | false => rfl

end SameTargets

def Marked (views : ViewMap) (frameSampled : Handle → Bool) (ps : List Pass) : Prop :=
  ∀ p ∈ ps, ∀ c ∈ p.commands, ∀ h, c.sampledTexture = some h →
    frameSampled h = true ∧ ∀ b, views h = some b → frameSampled b = true

def BaseAttached (views : ViewMap) (ps : List Pass) : Prop :=
  ∀ p ∈ ps, (∀ i, views (p.color i).texture = none) ∧ views p.depthTexture = none

structure Pass.QuadsOrdered (p : Pass) : Prop where
  inside : ∀ r ∈ p.colorClearQuadRanges, r.1 ≤ r.2 ∧ r.2 ≤ p.commands.length
  ordered : p.colorClearQuadRanges.Pairwise fun r s ↦ r.2 ≤ s.1

structure Submission (views : ViewMap) where
  passes : List Pass
  frameSampled : Handle → Bool
  marked : Marked views frameSampled passes
  base : BaseAttached views passes
  quads : ∀ p ∈ passes, p.QuadsOrdered

namespace Machine

variable {M : Machine V} {p : Pass} {l : Loc} {texture : Handle} {frameSampled : Handle → Bool}

theorem sampledTexture_ne_zero {c : Command} {h : Handle} (hc : c.sampledTexture = some h) : h ≠ 0 := by
  unfold Command.sampledTexture at hc
  split_ifs at hc with hcond
  obtain rfl := Option.some.inj hc
  exact hcond.2

theorem names_of_storage {h : Handle} (hh : h ≠ 0) (hs : M.storage h = texture) :
    h = texture ∨ M.views h = some texture := by
  simp only [storage, hh, if_false] at hs
  cases hv : M.views h with
  | none =>
    rw [hv] at hs
    exact .inl hs
  | some b =>
    rw [hv] at hs
    exact .inr (congrArg some hs)

theorem samplesTexture_of_samples (hmarked : Marked M.views frameSampled [p]) (ht : texture ≠ 0)
    (hs : M.Samples p l) (hl : l.sub.surface = .texture texture) :
    p.samplesTexture texture M.views frameSampled = true := by
  obtain ⟨c, hc, h, hh, hsurf⟩ := hs
  have hstorage : M.storage h = texture := by
    rw [hl] at hsurf
    exact (Surface.texture.inj hsurf).symm
  have hnames := names_of_storage (sampledTexture_ne_zero hh) hstorage
  obtain ⟨hmark, hbase⟩ := hmarked p (mem_singleton_self p) c hc h hh
  have hframe : frameSampled texture = true := by
    obtain rfl | hv := hnames
    · exact hmark
    · exact hbase texture hv
  simp only [Pass.samplesTexture, ne_eq, ht, not_false_eq_true, decide_true, hframe, Bool.and_self,
    Bool.true_and]
  refine any_eq_true.mpr ⟨c, hc, ?_⟩
  simpa [hh] using hnames

theorem attachesTexture_of_attached (ht : texture ≠ 0) (ha : Attached p l)
    (hl : l.sub.surface = .texture texture) : p.attachesTexture texture = true := by
  obtain ⟨t, -, hsub⟩ := ha
  have hsurf : (p.sub t).surface = .texture texture := by rw [← hsub, hl]
  cases t with
  | color i =>
    simp only [Pass.sub, PassColorAttachment.surface] at hsurf
    split_ifs at hsurf
    have htex := Surface.texture.inj hsurf
    simp only [Pass.attachesTexture, Bool.and_eq_true, Bool.or_eq_true, decide_eq_true_eq]
    exact ⟨ht, .inr (any_eq_true.mpr ⟨i, mem_finRange i, by simpa using htex⟩)⟩
  | depth =>
    have htex := Surface.texture.inj hsurf
    simp [Pass.attachesTexture, ht, htex]
  | stencil =>
    have htex := Surface.texture.inj hsurf
    simp [Pass.attachesTexture, ht, htex]

theorem resolvesInto_of_resolved (ht : texture ≠ 0) (hr : M.Resolved p l)
    (hl : l.sub.surface = .texture texture) : p.resolvesInto texture M.views = true := by
  obtain ⟨i, -, hne, hsub⟩ := hr
  have hstorage : M.storage (p.color i).resolveTexture = texture := by
    rw [hsub] at hl
    exact Surface.texture.inj hl
  have hnames := names_of_storage hne hstorage
  simp only [Pass.resolvesInto, Bool.and_eq_true, decide_eq_true_eq]
  refine ⟨ht, any_eq_true.mpr ⟨i, mem_finRange i, ?_⟩⟩
  simpa [hne] using hnames

theorem inside {x y : ℕ} (h : M.reaches p t x y = true) :
    p.attaches t = true ∧ x < (p.sizeOf t).1 ∧ y < (p.sizeOf t).2 := by
  simp only [reaches, area, Bool.and_eq_true] at h
  obtain ⟨ha, harea⟩ := h
  have hown : p.ownArea t x y = true := by
    split_ifs at harea
    · exact p.ownArea_of_smallestArea ha harea
    · exact harea
  simpa [ha, Pass.ownArea] using hown

theorem Loads.attached (h : M.Loads p l) : Attached p l := by
  obtain ⟨t, hsub, -, hr⟩ := h
  exact ⟨t, (inside hr).1, hsub⟩

end Machine

end Mtld3d
