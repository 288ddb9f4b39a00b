import Mtld3d.PassFrame
import Mtld3d.PassRefine
import Mtld3d.Lib.Select

namespace Mtld3d

open List Lib Pass Machine

variable {V : Type}

namespace PassColorAttachment

def drop (a : PassColorAttachment) : PassColorAttachment :=
  { PassColorAttachment.none with size := a.size, format := a.format }

end PassColorAttachment

namespace Pass

variable (p : Pass)

def withColor (color : Fin 4 → PassColorAttachment) : Pass := { p with color }

def clearsDepthPastItsArea : Bool :=
  (p.depthLoad.isClear || p.stencilLoad.isClear) && !p.colorExtentCoversDepth

/-- The pass repeats the depth and stencil clears of `prev`, a depth-only clear pass. -/
def repeatsDepthClearOf (prev : Pass) : Bool :=
  prev.boundColor.isEmpty && !prev.hasDraw && decide (prev.depthTexture = p.depthTexture) &&
    decide (prev.depthLevel = p.depthLevel) && decide (prev.depthSize = p.depthSize) &&
    (!p.depthLoad.isClear || decide (prev.depthLoad = p.depthLoad)) &&
    (!p.stencilLoad.isClear || decide (prev.stencilLoad = p.stencilLoad))

/-- The colour attachments of a draw-free pass without those it leaves unchanged; render target 0 stays
where the pass has no depth attachment. -/
def liveColor (i : Fin 4) : PassColorAttachment :=
  if i = rt0 then
    if (p.color i).isBound && !p.colorWrittenWithoutDraws && decide (p.depthTexture ≠ 0) then (p.color i).drop
    else p.color i
  else if (p.color i).isBound && !(p.color i).writtenWithoutDraws then .none
  else p.color i

def stripDeadColor : Pass :=
  if p.hasDraw || !p.leadingBlits.isEmpty then p else p.withColor p.liveColor

def doesWork : Bool :=
  p.hasDraw || !p.leadingBlits.isEmpty || p.colorWrittenWithoutDraws ||
    ((List.finRange 4).any fun i ↦ decide (i ≠ rt0) && (p.color i).isBound && (p.color i).writtenWithoutDraws) ||
    p.depthWrittenWithoutDraws

end Pass

def stripDeadColorInClearOnlyPasses (ps : List Pass) : List Pass := ps.map stripDeadColor

def cullDeadClearOnlyPasses (ps : List Pass) : List Pass := ps.filter doesWork

def RepeatsClears : Option Pass → List Pass → Prop
  | _, [] => True
  | prev, p :: ps =>
    (p.clearsDepthPastItsArea = true → ∃ q, prev = some q ∧ p.repeatsDepthClearOf q = true) ∧
      RepeatsClears (some p) ps

namespace Pass

/-- The extents the recorder binds together: no colour attachment is larger than the depth attachment,
and the colour attachments share one extent. -/
structure Extents (p : Pass) : Prop where
  depth : p.depthTexture ≠ 0 → ∀ i, (p.color i).isBound = true → extentCovers p.depthSize (p.color i).size = true
  color : ∀ i j, (p.color i).isBound = true → (p.color j).isBound = true → (p.color i).size = (p.color j).size

/-- `color` keeps each colour attachment of the pass or drops one that nothing but draws would write. -/
def Strips (p : Pass) (color : Fin 4 → PassColorAttachment) : Prop :=
  ∀ i, color i = p.color i ∨
    (color i).isBound = false ∧ ((p.color i).isBound = true → (p.color i).writtenWithoutDraws = false)

variable {p : Pass} {color : Fin 4 → PassColorAttachment} {t : Target} {x y : ℕ}

@[simp]
theorem color_withColor : (p.withColor color).color = color := rfl

theorem aliased_depth : p.aliased .depth = false := by
  refine any_eq_false.mpr fun t _ ↦ ?_
  cases t <;> simp [sub]

theorem aliased_stencil : p.aliased .stencil = false := by
  refine any_eq_false.mpr fun t _ ↦ ?_
  cases t <;> simp [sub]

theorem Extents.smallestArea_eq (h : p.Extents) {i : Fin 4} (hi : (p.color i).isBound = true) :
    p.smallestArea t x y = p.ownArea (.color i) x y := by
  rw [Bool.eq_iff_iff]
  refine ⟨ownArea_of_smallestArea p hi, fun hown ↦ all_eq_true.mpr fun t' _ ↦ ?_⟩
  rw [ownArea_iff] at hown
  have hdepth (hd : p.depthTexture ≠ 0) : x < p.depthSize.1 ∧ y < p.depthSize.2 := by
    have := h.depth hd i hi
    simp only [extentCovers, Bool.and_eq_true, decide_eq_true_eq] at this
    simp only [sizeOf] at hown
    omega
  cases ht' : p.attaches t' with
  | false => rfl
  | true =>
    simp only [Bool.not_true, Bool.false_or, ownArea_iff]
    cases t' with
    | color j => simpa only [sizeOf, h.color j i ht' hi] using hown
    | depth => exact hdepth (by simpa [attaches] using ht')
    | stencil =>
      simp only [attaches, Bool.and_eq_true, decide_eq_true_eq] at ht'
      exact hdepth ht'.1

namespace Strips

variable (h : p.Strips color)

include h

theorem color_eq {i : Fin 4} (hi : (color i).isBound = true) : color i = p.color i := by
  obtain heq | ⟨hoff, -⟩ := h i
  · exact heq
  · rw [hi] at hoff
    exact Bool.noConfusion hoff

theorem attaches (ht : (p.withColor color).attaches t = true) :
    p.attaches t = true ∧ (p.withColor color).sub t = p.sub t ∧ (p.withColor color).sizeOf t = p.sizeOf t := by
  cases t with
  | color i =>
    have heq := h.color_eq ht
    simp only [attaches, sub, sizeOf, color_withColor, heq] at ht ⊢
    exact ⟨ht, trivial, trivial⟩
  | depth => exact ⟨ht, rfl, rfl⟩
  | stencil => exact ⟨ht, rfl, rfl⟩

theorem aliased (ht : (p.withColor color).attaches t = true) (hal : p.aliased t = false) :
    (p.withColor color).aliased t = false := by
  refine any_eq_false.mpr fun t' ht' ↦ ?_
  have hother := any_eq_false.mp hal t' ht'
  cases ha : (p.withColor color).attaches t' with
  | false => simp
  | true =>
    obtain ⟨hp, hsub, -⟩ := h.attaches ha
    simpa [hp, hsub, (h.attaches ht).2.1] using hother

theorem extents (hext : p.Extents) : (p.withColor color).Extents where
  depth hd i hi := by
    have heq := h.color_eq hi
    simp only [color_withColor, heq] at hi ⊢
    exact hext.depth hd i hi
  color i j hi hj := by
    have heqi := h.color_eq hi
    have heqj := h.color_eq hj
    simp only [color_withColor, heqi, heqj] at hi hj ⊢
    exact hext.color i j hi hj

theorem smallestArea (harea : p.smallestArea t x y = true) : (p.withColor color).smallestArea t x y = true := by
  refine all_eq_true.mpr fun t' ht' ↦ ?_
  cases ha : (p.withColor color).attaches t' with
  | false => rfl
  | true =>
    obtain ⟨hp, -, hsize⟩ := h.attaches ha
    have hown := (ownArea_iff p).mp (ownArea_of_smallestArea p hp harea)
    rw [← hsize] at hown
    simp [ownArea_iff, hown]

end Strips

theorem strips_liveColor (p : Pass) : p.Strips p.liveColor := by
  intro i
  unfold liveColor
  split_ifs with hi hdrop hdrop
  · subst hi
    simp only [colorWrittenWithoutDraws, Bool.and_eq_true, Bool.not_eq_true', Bool.and_eq_false_iff] at hdrop
    refine .inr ⟨rfl, fun hb ↦ ?_⟩
    obtain hoff | hoff := hdrop.1.2
    · rw [hb] at hoff
      exact Bool.noConfusion hoff
    · exact hoff
  · exact .inl rfl
  · simp only [Bool.and_eq_true, Bool.not_eq_true'] at hdrop
    exact .inr ⟨rfl, fun _ ↦ hdrop.2⟩
  · exact .inl rfl

def widens (p : Pass) : Bool := p.clearsDepthPastItsArea && p.stripDeadColor.boundColor.isEmpty

theorem boundColor_isEmpty : p.boundColor.isEmpty = true ↔ ∀ i, (p.color i).isBound = false := by
  simp [boundColor, filter_eq_nil_iff]

theorem depthTexture_ne_zero (ht : t = .depth ∨ t = .stencil) (hp : p.attaches t = true) : p.depthTexture ≠ 0 := by
  obtain rfl | rfl := ht
  · simpa [attaches] using hp
  · simp only [attaches, Bool.and_eq_true, decide_eq_true_eq] at hp
    exact hp.1

theorem smallestArea_of_covers (hcov : p.colorExtentCoversDepth = true) (ht : t = .depth ∨ t = .stencil)
    (hp : p.attaches t = true) : p.smallestArea t x y = true ↔ x < p.depthSize.1 ∧ y < p.depthSize.2 := by
  have hown : p.ownArea t x y = true ↔ x < p.depthSize.1 ∧ y < p.depthSize.2 := by
    rw [ownArea_iff]
    obtain rfl | rfl := ht <;> rfl
  refine ⟨fun hsmall ↦ hown.mp (ownArea_of_smallestArea p hp hsmall), fun hdepth ↦ ?_⟩
  refine all_eq_true.mpr fun t' _ ↦ ?_
  cases ht' : p.attaches t' with
  | false => rfl
  | true =>
    simp only [Bool.not_true, Bool.false_or, ownArea_iff]
    cases t' with
    | color i =>
      simp only [colorExtentCoversDepth, depthTexture_ne_zero ht hp, decide_false, Bool.false_or,
        all_eq_true] at hcov
      have := hcov i (mem_filter.mpr ⟨mem_finRange i, ht'⟩)
      simp only [extentCovers, Bool.and_eq_true, decide_eq_true_eq] at this
      simp only [sizeOf]
      omega
    | depth => exact hdepth
    | stencil => exact hdepth

theorem covers_of_no_color (hnone : p.boundColor.isEmpty = true) : p.colorExtentCoversDepth = true := by
  simp [colorExtentCoversDepth, isEmpty_iff.mp hnone]

end Pass

def Plane.target : Plane → Target
  | .color => .color rt0
  | .depth => .depth
  | .stencil => .stencil

namespace Machine

variable {M : Machine V} {p : Pass} {color : Fin 4 → PassColorAttachment} {t : Target} {x y : ℕ}

def widenedTo (M : Machine V) (p : Pass) (l : Loc) : Option V :=
  if p.widens && decide (l.sub.plane ≠ .color) && p.attaches l.sub.plane.target &&
      decide (l.sub = p.sub l.sub.plane.target) && p.ownArea l.sub.plane.target l.x l.y then
    match M.loadAction p l.sub.plane.target with
    | .clear v => some v
    | _ => none
  else none

def ahead (M : Machine V) : List Pass → (Loc → V) → Loc → V
  | [], m => m
  | p :: _, m => fun l ↦ (M.widenedTo p l).getD (m l)

theorem reaches_confined (hM : M.confined = true) :
    M.reaches p t x y = (p.attaches t && p.smallestArea t x y) := by
  simp [reaches, area, hM]

section Strips

variable (h : p.Strips color)

include h

theorem loadAction_strips (ht : (p.withColor color).attaches t = true) (hal : p.aliased t = false) :
    M.loadAction (p.withColor color) t = M.loadAction p t := by
  simp only [loadAction, hal, h.aliased ht hal, Bool.false_eq_true, if_false]
  cases t with
  | color i => simp [recordedLoad, color_withColor, h.color_eq ht]
  | depth => rfl
  | stencil => rfl

theorem storeAction_strips (ht : (p.withColor color).attaches t = true) (hal : p.aliased t = false) :
    storeAction (p.withColor color) t = storeAction p t := by
  simp only [storeAction, hal, h.aliased ht hal, Bool.false_eq_true, if_false]
  cases t with
  | color i => simp [storeOf, color_withColor, h.color_eq ht]
  | depth => rfl
  | stencil => rfl

theorem reaches_strips (hM : M.confined = true) (ht : (p.withColor color).attaches t = true)
    (hr : M.reaches p t x y = true) : M.reaches (p.withColor color) t x y = true := by
  rw [reaches_confined hM, Bool.and_eq_true] at hr ⊢
  exact ⟨ht, h.smallestArea hr.2⟩

theorem reaches_strips_color (hM : M.confined = true) (hext : p.Extents) {i : Fin 4}
    (hi : (color i).isBound = true) : M.reaches (p.withColor color) t x y =
      ((p.withColor color).attaches t && p.smallestArea t x y) := by
  have heq := h.color_eq hi
  have hi' : (p.color i).isBound = true := by rwa [← heq]
  have hown : (p.withColor color).ownArea (.color i) x y = p.ownArea (.color i) x y := by
    rw [Bool.eq_iff_iff, ownArea_iff, ownArea_iff]
    simp [Pass.sizeOf, Pass.color_withColor, heq]
  rw [reaches_confined hM, (h.extents hext).smallestArea_eq hi, hext.smallestArea_eq hi', hown]

theorem widens_of_reaches (hM : M.confined = true) (hext : p.Extents) (ht : t = .depth ∨ t = .stencil)
    (hp : p.attaches t = true) (hr' : M.reaches (p.withColor color) t x y = true)
    (hr : M.reaches p t x y = false) :
    p.colorExtentCoversDepth = false ∧ (p.withColor color).boundColor.isEmpty = true := by
  have hsmall : p.smallestArea t x y = false := by
    rw [reaches_confined hM, hp] at hr
    simpa using hr
  have hnone : (p.withColor color).boundColor.isEmpty = true := by
    refine boundColor_isEmpty.mpr fun i ↦ ?_
    by_contra hi
    rw [Bool.not_eq_false] at hi
    rw [reaches_strips_color h hM hext hi, hsmall, Bool.and_false] at hr'
    exact Bool.noConfusion hr'
  refine ⟨?_, hnone⟩
  by_contra hcov
  rw [Bool.not_eq_false] at hcov
  obtain ⟨-, hin⟩ := inside hr'
  have hall : p.smallestArea t x y = true := by
    refine (smallestArea_of_covers hcov ht hp).mpr ?_
    obtain rfl | rfl := ht <;> exact hin
  rw [hall] at hsmall
  exact Bool.noConfusion hsmall

end Strips

section Widened

variable {l : Loc}

theorem widenedTo_of_not_widens (h : p.widens = false) : M.widenedTo p l = none := by
  simp [widenedTo, h]

theorem widenedTo_eq_some {v : V} (h : M.widenedTo p l = some v) :
    p.widens = true ∧ ∃ t, (t = .depth ∨ t = .stencil) ∧ p.attaches t = true ∧ l.sub = p.sub t ∧
      p.ownArea t l.x l.y = true ∧ M.loadAction p t = .clear v := by
  unfold widenedTo at h
  split_ifs at h with hc
  simp only [Bool.and_eq_true, decide_eq_true_eq] at hc
  obtain ⟨⟨⟨⟨hw, hplane⟩, ht⟩, hsub⟩, hown⟩ := hc
  refine ⟨hw, l.sub.plane.target, ?_, ht, hsub, hown, ?_⟩
  · cases hpl : l.sub.plane with
    | color => exact absurd hpl hplane
    | depth => exact .inl rfl
    | stencil => exact .inr rfl
  · cases hload : M.loadAction p l.sub.plane.target with
    | load => simp [hload] at h
    | dontCare => simp [hload] at h
    | clear v' =>
      simp only [hload, Option.some.injEq] at h
      rw [h]

theorem widenedTo_of_clear {v : V} (hw : p.widens = true) (ht : t = .depth ∨ t = .stencil)
    (ha : p.attaches t = true) (hsub : l.sub = p.sub t) (hown : p.ownArea t l.x l.y = true)
    (hload : M.loadAction p t = .clear v) : M.widenedTo p l = some v := by
  obtain rfl | rfl := ht
  · have htarget : l.sub.plane.target = .depth := by rw [hsub]; rfl
    have hplane : l.sub.plane ≠ .color := by simp [hsub, sub]
    simp [widenedTo, htarget, hw, hplane, ha, ← hsub, hown, hload]
  · have htarget : l.sub.plane.target = .stencil := by rw [hsub]; rfl
    have hplane : l.sub.plane ≠ .color := by simp [hsub, sub]
    simp [widenedTo, htarget, hw, hplane, ha, ← hsub, hown, hload]

theorem widenedTo_of_sub (ha : p.attaches t = true) (hsub : l.sub = p.sub t) (hal : p.aliased t = false)
    (hload : ∀ v, M.loadAction p t ≠ .clear v) : M.widenedTo p l = none := by
  cases hw : M.widenedTo p l with
  | none => rfl
  | some v =>
    obtain ⟨-, t', -, ha', hsub', -, hclear⟩ := widenedTo_eq_some hw
    obtain rfl := eq_of_sub_eq p hal ha' (hsub'.symm.trans hsub)
    exact absurd hclear (hload v)

theorem widenedTo_of_not_attached (ha : ¬ Attached p l) : M.widenedTo p l = none := by
  cases hw : M.widenedTo p l with
  | none => rfl
  | some v =>
    obtain ⟨-, t, -, ht, hsub, -⟩ := widenedTo_eq_some hw
    exact absurd ⟨t, ht, hsub⟩ ha

end Widened

section RuleG

def storedBy (M : Machine V) (p : Pass) (g : Garbage V) (m : Loc → V) : Loc → V :=
  targets.foldl (M.storeTarget p g (M.loadTile p g m)) m

def stripGarbage (M : Machine V) (p p' : Pass) (g : Garbage V) (m : Loc → V) : Garbage V where
  tile t x y := if p'.attaches t then M.loadTexel p' g m t x y else M.storedBy p' g m ⟨p.sub t, x, y⟩
  loads := M.storedBy p' g m
  stores := M.storedBy p' g m

variable {g : Garbage V} {m : Loc → V} (h : p.Strips color) (hM : M.confined = true) (hext : p.Extents)
  (hstrip : p.stripDeadColor = p.withColor color)

include h hM hext hstrip

theorem widenedTo_eq {l : Loc} {v : V} (ht : (p.withColor color).attaches t = true) (hal : p.aliased t = false)
    (hsub : l.sub = p.sub t) (hload : M.loadAction p t = .clear v) (hr : M.reaches p t l.x l.y = false) :
    M.widenedTo p l = if M.reaches (p.withColor color) t l.x l.y then some v else none := by
  obtain ⟨hp, -, -⟩ := h.attaches ht
  split_ifs with hr'
  · have hdepth : t = .depth ∨ t = .stencil := by
      cases t with
      | color i =>
        rw [reaches_strips_color h hM hext ht, ht, Bool.true_and] at hr'
        rw [reaches_confined hM, hp, hr'] at hr
        exact Bool.noConfusion hr
      | depth => exact .inl rfl
      | stencil => exact .inr rfl
    obtain ⟨hcov, hnone⟩ := widens_of_reaches h hM hext hdepth hp hr' hr
    have hclear : (p.depthLoad.isClear || p.stencilLoad.isClear) = true := by
      obtain rfl | rfl := hdepth
      · cases hd : p.depthLoad <;> simp_all [loadAction, recordedLoad, DepthLoad.isClear]
      · cases hd : p.stencilLoad <;> simp_all [loadAction, recordedLoad, StencilLoad.isClear]
    have hw : p.widens = true := by
      simp [widens, clearsDepthPastItsArea, hclear, hcov, hstrip, hnone]
    have hown : p.ownArea t l.x l.y = true := by
      rw [ownArea_iff]
      obtain ⟨-, hin⟩ := inside hr'
      obtain rfl | rfl := hdepth <;> exact hin
    exact widenedTo_of_clear hw hdepth hp hsub hown hload
  · cases hw : M.widenedTo p l with
    | none => rfl
    | some v' =>
      obtain ⟨hwid, t', ht', ha', hsub', hown, -⟩ := widenedTo_eq_some hw
      obtain rfl := eq_of_sub_eq p hal ha' (hsub'.symm.trans hsub)
      simp only [widens, hstrip, Bool.and_eq_true] at hwid
      refine absurd ?_ hr'
      rw [reaches_confined hM, ht, Bool.true_and, smallestArea_of_covers (covers_of_no_color hwid.2) ht' ht]
      rw [ownArea_iff] at hown
      obtain rfl | rfl := ht' <;> exact hown

theorem stored_of_kept {l : Loc} (ht : (p.withColor color).attaches t = true) (hal : p.aliased t = false)
    (hsub : l.sub = p.sub t) (hs : storeAction p t = .store) :
    (M.loadTile p (M.stripGarbage p (p.withColor color) g m) (M.ahead [p] m) t l.x l.y).getD
      (M.around p (M.stripGarbage p (p.withColor color) g m) (M.ahead [p] m) t l) =
      M.storedBy (p.withColor color) g m l := by
  obtain ⟨hp, hsub', -⟩ := h.attaches ht
  have hload : M.loadAction (p.withColor color) t = M.loadAction p t := loadAction_strips h ht hal
  have hnew : M.storedBy (p.withColor color) g m l =
      (M.loadTile (p.withColor color) g m t l.x l.y).getD (M.around (p.withColor color) g m t l) :=
    stores_of_store ht (hsub.trans hsub'.symm) ((storeAction_strips h ht hal).trans hs)
  have hl : (⟨p.sub t, l.x, l.y⟩ : Loc) = l := by rw [← hsub]
  have hl' : (⟨(p.withColor color).sub t, l.x, l.y⟩ : Loc) = l := by rw [hsub', ← hsub]
  cases haction : M.loadAction p t with
  | load =>
    have hnot : M.widenedTo p l = none := widenedTo_of_sub hp hsub hal fun v ↦ by simp [haction]
    have hsame : M.ahead [p] m l = m l := by simp [ahead, hnot]
    rw [haction] at hload
    simp only [hnew, loadTile, loadTexel, around, haction, hload, hl, hl', hsame]
    split_ifs <;> rfl
  | dontCare =>
    rw [haction] at hload
    cases hr : M.reaches p t l.x l.y with
    | false => simp [loadTile, hr, around, haction, stripGarbage]
    | true =>
      have hr' := reaches_strips h hM ht hr
      simp [hnew, loadTile, loadTexel, hr, hr', haction, hload, stripGarbage, ht]
  | clear v =>
    rw [haction] at hload
    cases hr : M.reaches p t l.x l.y with
    | true =>
      have hr' := reaches_strips h hM ht hr
      simp [hnew, loadTile, loadTexel, hr, hr', haction, hload]
    | false =>
      simp [hnew, loadTile, loadTexel, hr, around, haction, hload, ahead,
        widenedTo_eq h hM hext hstrip ht hal hsub haction hr]

omit hM hext hstrip in
theorem stored_of_dropped {l : Loc} (hp : p.attaches t = true) (ht : (p.withColor color).attaches t = false)
    (hal : p.aliased t = false) (hsub : l.sub = p.sub t) (hs : storeAction p t = .store) :
    (M.loadTile p (M.stripGarbage p (p.withColor color) g m) (M.ahead [p] m) t l.x l.y).getD
      (M.around p (M.stripGarbage p (p.withColor color) g m) (M.ahead [p] m) t l) =
      M.storedBy (p.withColor color) g m l := by
  have hl : (⟨p.sub t, l.x, l.y⟩ : Loc) = l := by rw [← hsub]
  have hunread : ¬ Attached (p.withColor color) l := by
    rintro ⟨t', ht', hsub'⟩
    obtain ⟨hp', hsub'', -⟩ := h.attaches ht'
    obtain rfl := eq_of_sub_eq p hal hp' ((hsub''.symm.trans hsub'.symm).trans hsub)
    rw [ht] at ht'
    exact Bool.noConfusion ht'
  have hnew : M.storedBy (p.withColor color) g m l = m l := stores_untouched hunread
  have hclear (v : V) : M.loadAction p t ≠ .clear v := by
    intro hload
    cases t with
    | color i =>
      obtain heq | ⟨-, hwritten⟩ := h i
      · simp only [attaches, color_withColor, heq] at hp ht
        rw [hp] at ht
        exact Bool.noConfusion ht
      · have hw := hwritten hp
        simp only [PassColorAttachment.writtenWithoutDraws, Bool.or_eq_false_iff] at hw
        have hstored : (p.color i).store = .store := by
          simpa only [storeAction, hal, Bool.false_eq_true, if_false, storeOf] using hs
        cases hc : (p.color i).load <;> simp_all [loadAction, recordedLoad, clearIsStored, ColorLoad.isClear]
    | depth =>
      rw [show p.attaches .depth = (p.withColor color).attaches .depth from rfl, ht] at hp
      exact Bool.noConfusion hp
    | stencil =>
      rw [show p.attaches .stencil = (p.withColor color).attaches .stencil from rfl, ht] at hp
      exact Bool.noConfusion hp
  have hnot : M.widenedTo p l = none := widenedTo_of_sub hp hsub hal hclear
  have hsame : M.ahead [p] m l = m l := by simp [ahead, hnot]
  cases haction : M.loadAction p t with
  | clear v => exact absurd haction (hclear v)
  | load =>
    simp only [hnew, loadTile, loadTexel, around, haction, hl, hsame]
    split_ifs <;> rfl
  | dontCare =>
    simp only [loadTile, loadTexel, around, haction, stripGarbage, ht, Bool.false_eq_true, if_false, hl]
    split_ifs <;> rfl

theorem storedBy_strips : M.storedBy p (M.stripGarbage p (p.withColor color) g m) (M.ahead [p] m) =
    M.storedBy (p.withColor color) g m := by
  refine stores_adopt (fun t l hp hsub hs ↦ ?_) fun l hl ↦ ?_
  · have hal := not_aliased_of_store hs
    cases ht : (p.withColor color).attaches t with
    | true => exact stored_of_kept h hM hext hstrip ht hal hsub hs
    | false => exact stored_of_dropped h hp ht hal hsub hs
  · have hunread : ¬ Attached (p.withColor color) l := by
      rintro ⟨t, ht, hsub⟩
      obtain ⟨hp, hsub', -⟩ := h.attaches ht
      exact hl ⟨t, hp, hsub.trans hsub'⟩
    have hnew : M.storedBy (p.withColor color) g m l = m l := stores_untouched hunread
    simp [hnew, ahead, widenedTo_of_not_attached hl]

omit hstrip in
theorem loadTile_strips {i : Fin 4} (hi : (color i).isBound = true) :
    M.loadTile p (M.stripGarbage p (p.withColor color) g m) (M.ahead [p] m) (.color i) x y =
      M.loadTile (p.withColor color) g m (.color i) x y := by
  obtain ⟨hp, hsub, -⟩ := h.attaches (t := .color i) hi
  have hreach : M.reaches (p.withColor color) (.color i) x y = M.reaches p (.color i) x y := by
    have hi' : (p.withColor color).attaches (.color i) = true := hi
    rw [reaches_strips_color h hM hext hi, reaches_confined hM, hi', hp]
  have hcolor (l : Loc) (hl : l.sub = p.sub (.color i)) : M.ahead [p] m l = m l := by
    have hnot : M.widenedTo p l = none := by simp [widenedTo, hl, sub]
    simp [ahead, hnot]
  have hattach : (p.withColor color).attaches (.color i) = true := hi
  simp only [loadTile, hreach]
  split_ifs with hr
  · cases hal : p.aliased (.color i) with
    | true => simp [loadTexel, loadAction, hal, stripGarbage, hattach]
    | false =>
      have hload : M.loadAction (p.withColor color) (.color i) = M.loadAction p (.color i) :=
        loadAction_strips h hi hal
      simp only [loadTexel, hload, hsub, hcolor ⟨p.sub (.color i), x, y⟩ rfl]
      cases haction : M.loadAction p (.color i) with
      | load => rfl
      | clear v => rfl
      | dontCare => simp [stripGarbage, hattach, loadTexel, hload, haction]
  · rfl

theorem storeTile_strips : M.storeTile p (M.stripGarbage p (p.withColor color) g m)
        (M.loadTile p (M.stripGarbage p (p.withColor color) g m) (M.ahead [p] m)) (M.ahead [p] m) =
      M.storeTile (p.withColor color) g (M.loadTile (p.withColor color) g m) m := by
  have hstores := storedBy_strips h hM hext hstrip (g := g) (m := m)
  simp only [storedBy] at hstores
  have hresolve : M.resolveTarget p (M.loadTile p (M.stripGarbage p (p.withColor color) g m) (M.ahead [p] m)) =
      M.resolveTarget (p.withColor color) (M.loadTile (p.withColor color) g m) := by
    funext m' i l
    cases hi : (color i).isBound with
    | true =>
      have heq := h.color_eq hi
      have htile := loadTile_strips h hM hext (g := g) (m := m) (x := l.x) (y := l.y) hi
      simp [resolveTarget, color_withColor, heq, htile]
    | false =>
      obtain heq | ⟨-, hwritten⟩ := h i
      · rw [heq] at hi
        simp [resolveTarget, heq, hi]
      · cases hb : (p.color i).isBound with
        | false => simp [resolveTarget, hb, hi]
        | true =>
          have hw := hwritten hb
          simp only [PassColorAttachment.writtenWithoutDraws, Bool.or_eq_false_iff] at hw
          simp [resolveTarget, hi, hw.2]
  simp [storeTile, hstores, hresolve]

end RuleG

section RepeatedClear

variable {q : Pass} {m m' : Loc → V} {o : PassRecord V}

theorem loadAction_repeats (h : q.repeatsDepthClearOf p = true)
    (hstencil : p.depthTexture = q.depthTexture → p.depthFlags.hasStencil = q.depthFlags.hasStencil)
    (ht : t = .depth ∨ t = .stencil) (hq : q.attaches t = true) :
    p.attaches t = true ∧ p.sub t = q.sub t ∧ p.sizeOf t = q.sizeOf t ∧
      ∀ v, M.loadAction q t = .clear v → M.loadAction p t = .clear v := by
  simp only [repeatsDepthClearOf, Bool.and_eq_true, Bool.or_eq_true, decide_eq_true_eq,
    Bool.not_eq_true'] at h
  obtain ⟨⟨⟨⟨⟨-, htex⟩, hlevel⟩, hsize⟩, hdepth⟩, hst⟩ := h
  obtain rfl | rfl := ht
  · refine ⟨by simpa [Pass.attaches, htex] using hq, by simp [Pass.sub, htex, hlevel], by simp [Pass.sizeOf, hsize],
      fun v hv ↦ ?_⟩
    simp only [loadAction, aliased_depth, Bool.false_eq_true, if_false, recordedLoad] at hv ⊢
    obtain hno | heq := hdepth
    · cases hl : q.depthLoad <;> simp_all [DepthLoad.isClear]
    · rw [heq]
      exact hv
  · refine ⟨by simpa [attaches, htex, hstencil htex] using hq, by simp [sub, htex, hlevel],
      by simp [Pass.sizeOf, hsize], fun v hv ↦ ?_⟩
    simp only [loadAction, Pass.aliased_stencil, Bool.false_eq_true, if_false, recordedLoad] at hv ⊢
    obtain hno | heq := hst
    · cases hl : q.stencilLoad <;> simp_all [StencilLoad.isClear]
    · rw [heq]
      exact hv

theorem run_of_no_color (g : Garbage V) (hnone : p.boundColor.isEmpty = true) (hdraw : p.hasDraw = false)
    (l : Loc) : M.run p g m l = M.storedBy p g (M.runBlits m p.leadingBlits) l := by
  have hres : ¬ M.Resolved p l := by
    rintro ⟨i, hb, -⟩
    rw [boundColor_isEmpty.mp hnone i] at hb
    exact Bool.noConfusion hb
  rw [run, (runBody_of_not_draw _ _ hdraw).1]
  exact resolves_untouched hres

theorem loadTile_repeats (hM : M.confined = true) (hnone : p.boundColor.isEmpty = true)
    (h : q.repeatsDepthClearOf p = true)
    (hstencil : p.depthTexture = q.depthTexture → p.depthFlags.hasStencil = q.depthFlags.hasStencil)
    {l : Loc} {v : V} (hv : M.widenedTo q l = some v) (g : Garbage V) (m : Loc → V) :
    ∃ t, p.attaches t = true ∧ l.sub = p.sub t ∧ M.loadTile p g m t l.x l.y = some v := by
  obtain ⟨-, t, ht, hq, hsub, hown, hload⟩ := widenedTo_eq_some hv
  obtain ⟨hp, hsub', hsize, hclear⟩ := loadAction_repeats (M := M) h hstencil ht hq
  refine ⟨t, hp, hsub.trans hsub'.symm, ?_⟩
  have harea : p.smallestArea t l.x l.y = true := by
    rw [ownArea_iff, ← hsize] at hown
    refine (smallestArea_of_covers (covers_of_no_color hnone) ht hp).mpr ?_
    obtain rfl | rfl := ht <;> exact hown
  simp [loadTile, reaches_confined hM, hp, harea, loadTexel, hclear v hload]

theorem op_ahead (hM : M.confined = true) (h : q.repeatsDepthClearOf p = true)
    (hstencil : p.depthTexture = q.depthTexture → p.depthFlags.hasStencil = q.depthFlags.hasStencil)
    (hop : M.op p m o m') :
    ∃ o', M.op p m o' (M.ahead [q] m') ∧ o.blits = o'.blits ∧ o.sampled.Sublist o'.sampled := by
  obtain ⟨g, rfl, rfl⟩ := hop
  have hshape := h
  simp only [repeatsDepthClearOf, Bool.and_eq_true, Bool.not_eq_true'] at hshape
  obtain ⟨hnone, hdraw⟩ := hshape.1.1.1.1.1
  set g' : Garbage V := ⟨g.tile, g.loads, M.ahead [q] (M.run p g m)⟩ with hg'
  refine ⟨M.record p g' m, ⟨g', rfl, ?_⟩, rfl, ?_⟩
  · funext l
    refine Eq.symm ((run_of_no_color g' hnone hdraw l).trans ?_)
    have hold := run_of_no_color (M := M) (m := m) g hnone hdraw l
    by_cases ha : Attached p l
    · obtain ⟨t, ht, hsub⟩ := ha
      cases hs : storeAction p t with
      | dontCare => exact stores_of_dontCare ht hsub hs
      | store =>
        refine (stores_of_store ht hsub hs).trans ?_
        cases hv : M.widenedTo q l with
        | none =>
          simp only [ahead, hv, Option.getD_none]
          exact (hold.trans (stores_of_store ht hsub hs)).symm
        | some v =>
          obtain ⟨t', ht', hsub', htile⟩ := loadTile_repeats hM hnone h hstencil hv g' (M.runBlits m p.leadingBlits)
          obtain rfl := eq_of_sub_eq p (not_aliased_of_store hs) ht' (hsub'.symm.trans hsub)
          simp [ahead, hv, htile]
    · refine (stores_untouched ha).trans ?_
      cases hv : M.widenedTo q l with
      | none =>
        simp only [ahead, hv, Option.getD_none]
        exact (hold.trans (stores_untouched ha)).symm
      | some v =>
        obtain ⟨t, ht, hsub, -⟩ := loadTile_repeats hM hnone h hstencil hv g m
        exact absurd ⟨t, ht, hsub⟩ ha
  · have hdraws (g : Garbage V) : (M.record p g m).sampled = [] := by
      simp [PassRecord.sampled, record, (runBody_of_not_draw _ _ hdraw).2]
    rw [hdraws, hdraws]

end RepeatedClear

section Widening

theorem ahead_of_not_widens {ps : List Pass} {m : Loc → V} (h : ∀ p ∈ ps.head?, p.widens = false) :
    M.ahead ps m = m := by
  cases ps with
  | nil => rfl
  | cons p ps =>
    funext l
    simp [ahead, widenedTo_of_not_widens (h p rfl)]

theorem not_widens_of_no_color (hnone : p.boundColor.isEmpty = true) : p.widens = false := by
  simp [widens, clearsDepthPastItsArea, covers_of_no_color hnone]

theorem not_widens_of_busy (hbusy : (p.hasDraw || !p.leadingBlits.isEmpty) = true) : p.widens = false := by
  cases hw : p.widens with
  | false => rfl
  | true =>
    have hnone := hw
    simp only [widens, stripDeadColor, hbusy, if_true, Bool.and_eq_true] at hnone
    rw [← hw]
    exact not_widens_of_no_color hnone.2

theorem stripDeadColor_of_no_color (hnone : p.boundColor.isEmpty = true) : p.stripDeadColor = p := by
  have hlive : p.liveColor = p.color := by
    funext i
    simp [liveColor, boundColor_isEmpty.mp hnone]
  unfold stripDeadColor
  rw [hlive]
  split_ifs <;> rfl

theorem op_stripDeadColor (hM : M.confined = true) (hext : p.Extents) {m m' : Loc → V} {o : PassRecord V}
    (hop : M.op p.stripDeadColor m o m') :
    ∃ o', M.op p (M.ahead [p] m) o' m' ∧ o.blits = o'.blits ∧ o.sampled.Sublist o'.sampled := by
  cases hbusy : p.hasDraw || !p.leadingBlits.isEmpty with
  | true =>
    simp only [stripDeadColor, hbusy, if_true] at hop
    rw [ahead_of_not_widens (by simpa using not_widens_of_busy hbusy)]
    exact ⟨o, hop, rfl, List.Sublist.refl _⟩
  | false =>
    have hstrip : p.stripDeadColor = p.withColor p.liveColor := by
      simp [stripDeadColor, hbusy]
    simp only [Bool.or_eq_false_iff, Bool.not_eq_false', List.isEmpty_iff] at hbusy
    obtain ⟨hdraw, hblits⟩ := hbusy
    rw [hstrip] at hop
    obtain ⟨g, rfl, rfl⟩ := hop
    have hdraw' : (p.withColor p.liveColor).hasDraw = false := hdraw
    have hblits' : (p.withColor p.liveColor).leadingBlits = [] := hblits
    refine ⟨_, ⟨M.stripGarbage p (p.withColor p.liveColor) g m, rfl, ?_⟩, ?_, ?_⟩
    · simp only [run, hblits, hblits', runBlits, (runBody_of_not_draw _ _ hdraw).1,
        (runBody_of_not_draw _ _ hdraw').1]
      exact (storeTile_strips (strips_liveColor p) hM hext hstrip).symm
    · simp [record, hblits, hblits', blitRecords]
    · simp only [PassRecord.sampled, record, (runBody_of_not_draw _ _ hdraw').2, List.map_nil]
      exact List.nil_sublist _

end Widening

end Machine

variable {M : Machine V}

theorem strip_dead_color_ahead {ps : List Pass} {prev : Option Pass} (hM : M.confined = true)
    (hext : ∀ p ∈ ps, p.Extents) (hrep : RepeatsClears prev ps)
    (hstencil : ∀ p ∈ ps, ∀ q ∈ ps, p.depthTexture = q.depthTexture →
      p.depthFlags.hasStencil = q.depthFlags.hasStencil) (m : Loc → V) (os : List (PassRecord V)) (m' : Loc → V)
    (hrun : M.Behaves (stripDeadColorInClearOnlyPasses ps) m os m') :
    ∃ os', M.Behaves ps (M.ahead ps m) os' m' ∧ os.flatMap PassRecord.blits = os'.flatMap PassRecord.blits ∧
      (os.flatMap PassRecord.sampled).Sublist (os'.flatMap PassRecord.sampled) := by
  induction ps generalizing prev m os with
  | nil => exact ⟨os, hrun, rfl, List.Sublist.refl _⟩
  | cons p ps ih =>
    obtain ⟨hp, hps⟩ := forall_mem_cons.mp hext
    cases hrun with
    | @cons _ _ _ m₁ _ o os hop hrest =>
      obtain ⟨os', hold, hblits, hsampled⟩ := ih hps hrep.2
        (fun a ha b hb ↦ hstencil a (mem_cons_of_mem _ ha) b (mem_cons_of_mem _ hb)) _ _ hrest
      have hstep : ∃ o', M.op p (M.ahead (p :: ps) m) o' (M.ahead ps m₁) ∧ o.blits = o'.blits ∧
          o.sampled.Sublist o'.sampled := by
        by_cases hnext : ∀ q ∈ ps.head?, q.widens = false
        · rw [ahead_of_not_widens hnext]
          exact op_stripDeadColor hM hp hop
        · cases ps with
          | nil => exact absurd (by simp) hnext
          | cons q qs =>
            have hw : q.widens = true := by simpa using hnext
            simp only [widens, Bool.and_eq_true] at hw
            obtain ⟨a, ha, hrepeat⟩ := hrep.2.1 hw.1
            obtain rfl := Option.some.inj ha
            have hnone : p.boundColor.isEmpty = true := by
              simp only [repeatsDepthClearOf, Bool.and_eq_true] at hrepeat
              exact hrepeat.1.1.1.1.1.1
            rw [stripDeadColor_of_no_color hnone] at hop
            have hself : ∀ a ∈ (p :: q :: qs).head?, a.widens = false := by
              simpa using not_widens_of_no_color hnone
            rw [ahead_of_not_widens hself]
            exact op_ahead hM hrepeat (hstencil p (by simp) q (by simp)) hop
      obtain ⟨o', hop', hb, hs⟩ := hstep
      refine ⟨o' :: os', .cons hop' hold, ?_, ?_⟩
      · simp [hb, hblits]
      · simpa only [flatMap_cons] using hs.append hsampled

theorem strip_dead_color_preserves {ps : List Pass} (hM : M.confined = true)
    (hext : ∀ p ∈ ps, p.Extents) (hrep : RepeatsClears none ps)
    (hstencil : ∀ p ∈ ps, ∀ q ∈ ps, p.depthTexture = q.depthTexture →
      p.depthFlags.hasStencil = q.depthFlags.hasStencil) :
    Preserves M (stripDeadColorInClearOnlyPasses ps) ps := by
  intro m os m' hrun
  have hfirst : ∀ p ∈ ps.head?, p.widens = false := by
    intro p hp
    cases ps with
    | nil => simp at hp
    | cons q qs =>
      obtain rfl := Option.some.inj hp
      cases hw : q.widens with
      | false => rfl
      | true =>
        simp only [widens, Bool.and_eq_true] at hw
        obtain ⟨a, ha, -⟩ := hrep.1 hw.1
        cases ha
  have hold := strip_dead_color_ahead hM hext hrep hstencil m os m' hrun
  rwa [ahead_of_not_widens hfirst] at hold

section RuleF

variable {p : Pass} {t : Target}

theorem writes_nothing (h : p.doesWork = false) : p.hasDraw = false ∧ p.leadingBlits = [] ∧
      (∀ i, (p.color i).isBound = true → (p.color i).writtenWithoutDraws = false) ∧
      p.depthWrittenWithoutDraws = false := by
  simp only [doesWork, Bool.or_eq_false_iff, Bool.not_eq_false', List.isEmpty_iff] at h
  obtain ⟨⟨⟨⟨hdraw, hblits⟩, hrt0⟩, hextra⟩, hdepth⟩ := h
  refine ⟨hdraw, hblits, fun i hb ↦ ?_, hdepth⟩
  by_cases hi : i = rt0
  · subst hi
    simpa [colorWrittenWithoutDraws, hb] using hrt0
  · simpa [hi, hb] using any_eq_false.mp hextra i (mem_finRange i)

theorem not_clear_of_stored (h : p.doesWork = false) (ht : p.attaches t = true)
    (hs : storeAction p t = .store) (v : V) : M.loadAction p t ≠ .clear v := by
  obtain ⟨-, -, hcolor, hdepth⟩ := writes_nothing h
  have hal := not_aliased_of_store hs
  intro hload
  simp only [storeAction, loadAction, hal, Bool.false_eq_true, if_false] at hs hload
  cases t with
  | color i =>
    have hw := hcolor i ht
    simp only [storeOf, recordedLoad] at hs hload
    cases hl : (p.color i).load <;>
      simp_all [PassColorAttachment.writtenWithoutDraws, clearIsStored, ColorLoad.isClear]
  | depth =>
    simp only [storeOf, recordedLoad, attaches] at hs hload ht
    cases hl : p.depthLoad <;> simp_all [depthWrittenWithoutDraws, clearIsStored, DepthLoad.isClear]
  | stencil =>
    simp only [storeOf, recordedLoad, attaches] at hs hload ht
    cases hl : p.stencilLoad <;> simp_all [depthWrittenWithoutDraws, clearIsStored, StencilLoad.isClear]

theorem op_of_no_work (h : p.doesWork = false) (m : Loc → V) :
    ∃ o, M.op p m o m ∧ o.blits = [] ∧ o.sampled = [] := by
  obtain ⟨hdraw, hblits, hcolor, -⟩ := writes_nothing h
  set g : Garbage V := ⟨fun t x y ↦ m ⟨p.sub t, x, y⟩, m, m⟩ with hg
  have hstores : targets.foldl (M.storeTarget p g (M.loadTile p g m)) m = m := by
    refine stores_adopt (fun t l ht hsub hs ↦ ?_) fun l _ ↦ rfl
    have hl : (⟨p.sub t, l.x, l.y⟩ : Loc) = l := by rw [← hsub]
    cases hload : M.loadAction p t with
    | clear v => exact absurd hload (not_clear_of_stored h ht hs v)
    | load =>
      simp only [loadTile, loadTexel, around, hload, hl]
      split_ifs <;> rfl
    | dontCare =>
      simp only [loadTile, loadTexel, around, hload, hg, hl]
      split_ifs <;> rfl
  have hres (l : Loc) : ¬ M.Resolved p l := by
    rintro ⟨i, hb, hne, -⟩
    have hw := hcolor i hb
    simp only [PassColorAttachment.writtenWithoutDraws, Bool.or_eq_false_iff, decide_eq_false_iff_not] at hw
    exact hw.2 hne
  obtain ⟨o, hop, hblits', hdraws⟩ := op_of_idle hdraw hblits hres hstores
  exact ⟨o, hop, hblits', by rw [PassRecord.sampled, hdraws, map_nil]⟩

theorem cull_preserves (M : Machine V) (ps : List Pass) : Preserves M (cullDeadClearOnlyPasses ps) ps := by
  induction ps with
  | nil => exact Preserves.refl M []
  | cons p ps ih =>
    unfold cullDeadClearOnlyPasses at ih ⊢
    cases hw : p.doesWork with
    | true =>
      rw [filter_cons_of_pos hw]
      exact ih.cons fun m o m' hop ↦ ⟨o, hop, rfl, List.Sublist.refl _⟩
    | false =>
      rw [filter_cons_of_neg (by simp [hw])]
      exact ih.drop (op_of_no_work hw)

end RuleF

end Mtld3d
