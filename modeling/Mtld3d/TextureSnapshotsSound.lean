import Mtld3d.TextureSnapshots
import Mathlib.Data.List.ReduceOption

namespace Mtld3d

open Option TextureVersions

open Function List

namespace VersionShape

variable {slice level : ℕ}

theorem mem_subresources {s : VersionShape} :
    (slice, level) ∈ s.subresources ↔ slice < s.slices ∧ level < s.levels := by
  simp [subresources]

end VersionShape

theorem mapM_of_forall_some {β γ : Type} {f : β → Option γ} {xs : List β} (h : ∀ x ∈ xs, (f x).isSome) :
    ∃ ys, xs.mapM f = some ys ∧ ∀ x ∈ xs, ∀ y, f x = some y → y ∈ ys := by
  induction xs with
  | nil => exact ⟨[], rfl, by simp⟩
  | cons x xs ih =>
    obtain ⟨y, hy⟩ := isSome_iff_exists.mp (h x mem_cons_self)
    obtain ⟨ys, hys, hmem⟩ := ih fun x' hx' ↦ h x' (mem_cons_of_mem x hx')
    refine ⟨y :: ys, by simp [mapM_cons, hy, hys], fun x' hx' y' hy' ↦ ?_⟩
    obtain rfl | hx' := mem_cons.mp hx'
    · exact Option.some.inj (hy.symm.trans hy') ▸ mem_cons_self
    · exact mem_cons_of_mem y (hmem x' hx' y' hy')

namespace TextureVersions

variable {V : Type} {tv : TextureVersions V} {id : TextureId} {state : VersionState V}
  {upload : UploadFootprint} {held : Option ℕ} {t : Texel}

def UpToDate (state : VersionState V) (held : Option ℕ) (t : Texel) : Prop :=
  ∃ h w, state.history = some h ∧ held = some w ∧ h.stampOf t.slice t.level t.x t.y ≤ w

def Suffices (copy : Option PreserveCopy) (shape : VersionShape) (upload : UploadFootprint) (slice level : ℕ)
    (upToDate : Texel → Prop) : Prop :=
  ∀ t : Texel, t.In shape → t.slice = slice → t.level = level → ¬t.CoveredBy upload →
    (∃ c ∈ copy, c.Reaches t) ∨ upToDate t

variable {shape : VersionShape}

theorem suffices_covered {upToDate : Texel → Prop}
    (hcover : slice = upload.slice ∧ level = upload.level ∧ upload.fullCover) :
    Suffices none shape upload slice level upToDate := fun _ _ hts htl hnot ↦
  absurd ⟨hcover.2.2, hts.trans hcover.1, htl.trans hcover.2.1⟩ hnot

theorem planCopy_none (shape : VersionShape) (upload : UploadFootprint) (slice level : ℕ)
    (upToDate : Texel → Prop) :
    ∃ copy, planCopy none upload slice level = some copy ∧ Suffices copy shape upload slice level upToDate := by
  by_cases hcover : slice = upload.slice ∧ level = upload.level ∧ upload.fullCover
  · exact ⟨none, if_pos hcover, suffices_covered hcover⟩
  · exact ⟨_, if_neg hcover, fun t _ hts htl _ ↦ .inl ⟨_, rfl, hts, htl, by simp⟩⟩

theorem planCopy_some {h : WriteHistory} (hf : h.Fits shape) (w : ℕ)
    (upload : UploadFootprint) (hslice : slice < shape.slices) (hlevel : level < shape.levels) :
    ∃ copy, planCopy (some (h, w)) upload slice level = some copy ∧
      Suffices copy shape upload slice level fun t ↦ h.stampOf t.slice t.level t.x t.y ≤ w := by
  by_cases hcover : slice = upload.slice ∧ level = upload.level ∧ upload.fullCover
  · exact ⟨none, if_pos hcover, suffices_covered hcover⟩
  · obtain ⟨g, hg⟩ := hf.exists_grid hslice hlevel
    obtain ⟨dirty, hdirty, hout⟩ := (hf.wellFormed g (WriteHistory.mem_of_grid hg)).writtenSince w
    unfold planCopy
    simp only [if_neg hcover, hg, hdirty, bind_eq_bind, bind_some]
    refine ⟨_, rfl, fun t ht hts htl _ ↦ ?_⟩
    subst hts htl
    have hx : t.x < g.width := hf.width_eq _ _ g hlevel hg ▸ ht.x_lt
    have hy : t.y < g.height := hf.height_eq _ _ g hlevel hg ▸ ht.y_lt
    by_cases hreach : ∃ r, dirty = some r ∧ r.Covers t.x t.y
    · obtain ⟨r, rfl, hr⟩ := hreach
      refine .inl ⟨_, rfl, rfl, rfl, fun r' hr' ↦ ?_⟩
      dsimp only at hr'
      split_ifs at hr' with hwhole
      · exact Option.some.inj hr' ▸ hr
      · cases hr'
    · refine .inr ?_
      dsimp only
      rw [WriteHistory.stampOf_eq hg]
      exact hout t.x t.y hx hy fun r hr hc ↦ hreach ⟨r, hr, hc⟩

theorem Inv.planCopy (h : tv.Inv) (hs : tv.textures.lookup id = some state) (held : Option ℕ)
    (upload : UploadFootprint) {sub : ℕ × ℕ} (hsub : sub ∈ state.shape.subresources) :
    ∃ copy, planCopy (tv.since id held) upload sub.1 sub.2 = some copy ∧
      Suffices copy state.shape upload sub.1 sub.2 (UpToDate state held) := by
  obtain ⟨slice, level⟩ := sub
  obtain ⟨hslice, hlevel⟩ := VersionShape.mem_subresources.mp hsub
  cases hh : state.history with
  | none =>
    rw [since, hs, bind_some, hh]
    exact planCopy_none _ _ _ _ _
  | some history =>
    cases held with
    | none =>
      rw [since, hs, bind_some, hh]
      exact planCopy_none _ _ _ _ _
    | some w =>
      rw [since, hs, bind_some, hh]
      obtain ⟨copy, hcopy, hreach⟩ := planCopy_some (h.fits id state history hs hh) w upload hslice hlevel
      refine ⟨copy, hcopy, fun t ht hts htl hnot ↦ ?_⟩
      exact (hreach t ht hts htl hnot).imp_right fun hle ↦ ⟨history, w, hh, rfl, hle⟩

theorem Inv.preservePlan (h : tv.Inv) (hs : tv.textures.lookup id = some state) (held : Option ℕ)
    (upload : UploadFootprint) :
    ∃ plan, tv.preservePlan id state.shape held upload = some plan ∧ ∀ t : Texel, t.In state.shape →
      ¬t.CoveredBy upload → (∃ c ∈ plan, c.Reaches t) ∨ UpToDate state held t := by
  obtain ⟨copies, hcopies, hmem⟩ := mapM_of_forall_some
    (f := fun sub : ℕ × ℕ ↦ TextureVersions.planCopy (tv.since id held) upload sub.1 sub.2) fun sub hsub ↦ by
      obtain ⟨copy, hcopy, -⟩ := h.planCopy hs held upload hsub
      rw [hcopy]
      rfl
  refine ⟨_, by rw [TextureVersions.preservePlan, hcopies, map_some], fun t ht hnot ↦ ?_⟩
  have hsub := VersionShape.mem_subresources.mpr ⟨ht.slice_lt, ht.level_lt⟩
  obtain ⟨copy, hcopy, hreach⟩ := h.planCopy hs held upload hsub
  refine (hreach t ht rfl rfl hnot).imp_left fun ⟨c, hc, hr⟩ ↦ ⟨c, ?_, hr⟩
  exact reduceOption_mem_iff.mpr (hc ▸ hmem _ hsub copy hcopy)

end TextureVersions

namespace Snapshots

variable {α : Type} {s s' : Snapshots α} {id : TextureId} {state : VersionState Version}
  {left : TextureId → Texel → Prop}

def entries (s : Snapshots α) : List (Retiring Version) := s.pool.retiring ++ s.hands

def held (s : Snapshots α) : Multiset Version :=
  s.pool.views + (s.hands.map Retiring.views : List Version)

def Known (s : Snapshots α) (id : TextureId) (state : VersionState Version) (v : Version) (w : ℕ) : Prop :=
  (∃ spare ∈ state.spares, spare.views = v ∧ spare.heldWrites = some w) ∨
    ∃ e ∈ s.entries, e.id = id ∧ e.epoch = state.epoch ∧ e.views = v ∧ e.heldWrites = w

def Shows (s : Snapshots α) (left : TextureId → Texel → Prop) (id : TextureId) (shape : VersionShape)
    (h : WriteHistory) (v : Version) (w : ℕ) : Prop :=
  w ≤ h.writes ∧ Lib.Agrees (fun t ↦ t.In shape ∧ ¬left id t) (fun t ↦ h.stampOf t.slice t.level t.x t.y) w
    (s.memory v) (s.memory (s.live id))

/-- `left` names the texels of a rename whose upload has not run yet. -/
structure Inv (left : TextureId → Texel → Prop) (s : Snapshots α) : Prop where
  pool : s.pool.Inv
  held_nodup : s.held.Nodup
  live_free : ∀ id, s.live id ∉ s.held
  live_injective : Injective s.live
  allocated_lt : ∀ n, Version.allocated n ∈ s.held → n < s.allocated
  live_lt : ∀ id n, s.live id = .allocated n → n < s.allocated
  birth_le : ∀ id state, s.pool.textures.lookup id = some state → state.liveBirthSeq ≤ s.bornAt (s.live id)
  entry_birth_le : ∀ e ∈ s.entries, e.birthSeq ≤ s.bornAt e.views
  entry_epoch_lt : ∀ e ∈ s.entries, e.epoch < s.pool.nextEpoch
  shows : ∀ id state h v w, s.pool.textures.lookup id = some state → state.history = some h →
    s.Known id state v w → s.Shows left id state.shape h v w

theorem mem_held_of_spare {spare : Spare Version} (hs : s.pool.textures.lookup id = some state)
    (hspare : spare ∈ state.spares) : spare.views ∈ s.held := by
  have hviews : spare.views ∈ state.spareViews := Multiset.mem_coe.mpr (mem_map_of_mem hspare)
  rw [held, views, Lib.Table.total_of_lookup VersionState.spareViews hs]
  simp [hviews]

theorem mem_held_of_entry {e : Retiring Version} (he : e ∈ s.entries) : e.views ∈ s.held := by
  rw [held, views]
  rcases mem_append.mp he with he | he
  · have : e.views ∈ s.pool.retiring.map Retiring.views := mem_map_of_mem he
    simp only [Multiset.mem_add, Multiset.mem_coe]
    tauto
  · have : e.views ∈ s.hands.map Retiring.views := mem_map_of_mem he
    simp only [Multiset.mem_add, Multiset.mem_coe]
    tauto

theorem Known.mem_held {v : Version} {w : ℕ} (hs : s.pool.textures.lookup id = some state)
    (hk : s.Known id state v w) : v ∈ s.held := by
  rcases hk with ⟨spare, hspare, rfl, -⟩ | ⟨e, he, -, -, rfl, -⟩
  · exact mem_held_of_spare hs hspare
  · exact mem_held_of_entry he

def Continues (pool pool' : TextureVersions Version) : Prop :=
  ∀ id state', pool'.textures.lookup id = some state' →
    (∃ state, pool.textures.lookup id = some state ∧ TextureVersions.Keeps state state') ∨
      state'.spares = [] ∧ pool.nextEpoch ≤ state'.epoch ∧ state'.liveBirthSeq = 0

theorem Continues.of_kept {pool pool' : TextureVersions Version} (h : pool.Kept pool') : Continues pool pool' :=
  fun id state' hs' ↦ .inl (h id state' hs')

variable {pool : TextureVersions Version}

theorem Inv.continue (h : Inv left s) (hpool : pool.Inv)
    (hviews : pool.views ≤ s.pool.views) (hstates : Continues s.pool pool)
    (hretiring : pool.retiring ⊆ s.pool.retiring) (hnext : s.pool.nextEpoch ≤ pool.nextEpoch) :
    Inv left { s with pool } := by
  have hheld : { s with pool }.held ≤ s.held := add_le_add_left hviews _
  have hentries : ∀ e ∈ { s with pool }.entries, e ∈ s.entries := fun e he ↦
    (mem_append.mp he).elim (fun he ↦ mem_append_left _ (hretiring he)) (mem_append_right _)
  exact
    { pool := hpool
      held_nodup := Multiset.nodup_of_le hheld h.held_nodup
      live_free := fun id hmem ↦ h.live_free id (Multiset.mem_of_le hheld hmem)
      live_injective := h.live_injective
      allocated_lt := fun n hmem ↦ h.allocated_lt n (Multiset.mem_of_le hheld hmem)
      live_lt := h.live_lt
      birth_le := fun id state' hs' ↦ by
        rcases hstates id state' hs' with ⟨state, hs, hk⟩ | ⟨-, -, hzero⟩
        · rw [hk.liveBirthSeq]
          exact h.birth_le id state hs
        · rw [hzero]
          exact Nat.zero_le _
      entry_birth_le := fun e he ↦ h.entry_birth_le e (hentries e he)
      entry_epoch_lt := fun e he ↦ (h.entry_epoch_lt e (hentries e he)).trans_le hnext
      shows := fun id state' history v w hs' hh hknown ↦ by
        rcases hstates id state' hs' with ⟨state, hs, hk⟩ | ⟨hnil, hepoch, -⟩
        · rw [hk.shape]
          refine h.shows id state history v w hs (hk.history ▸ hh) ?_
          refine hknown.imp (fun ⟨spare, hspare, hv⟩ ↦ ⟨spare, hk.spares hspare, hv⟩) ?_
          rintro ⟨e, he, hid, heq, hv⟩
          exact ⟨e, hentries e he, hid, heq.trans hk.epoch, hv⟩
        · rcases hknown with ⟨spare, hspare, -⟩ | ⟨e, he, -, heq, -⟩
          · rw [hnil] at hspare
            cases hspare
          · have := h.entry_epoch_lt e (hentries e he)
            omega }

theorem takes_continues (hinv : s.pool.Inv) {records : Bool}
    {seq : ℕ} {spare : Option (Spare Version)} (ht : s.pool.Takes id shape records seq pool spare) :
    Continues s.pool pool := by
  cases ht with
  | starts hstarts hrun hempty =>
    have hreclaimed := hinv.reclaimed_run TextureVersions.Inv.givesBack hrun
    intro id' state' hs'
    by_cases heq : id' = id
    · subst heq
      rw [afterStart, AList.lookup_insert] at hs'
      obtain rfl := Option.some.inj hs'
      exact .inr ⟨rfl, hreclaimed.nextEpoch.ge, rfl⟩
    · rw [afterStart, AList.lookup_insert_ne heq] at hs'
      exact .inl (hreclaimed.kept id' state' hs')
  | takes hstarts hs hshape => exact .of_kept (kept_afterTake hs)

theorem Inv.takes (h : Inv left s) {records : Bool}
    {seq : ℕ} {spare : Option (Spare Version)} (ht : s.pool.Takes id shape records seq pool spare) :
    Inv left { s with pool } := by
  obtain ⟨hinv, hviews, hretiring, hnext⟩ := h.pool.takes ht
  refine h.continue hinv ?_ (takes_continues h.pool ht) (by rw [hretiring]; exact List.Subset.refl _) ?_
  · rw [← hviews]
    exact Multiset.le_add_right _ _
  · omega

/-- A report that reached a state's history, and the texels the writes behind it may have changed. -/
structure Heard (left left' : TextureId → Texel → Prop) (s : Snapshots α) (id : TextureId) (texels : Texel → α)
    (pool : TextureVersions Version) : Prop where
  inv : pool.Inv
  views : pool.views = s.pool.views
  retiring : pool.retiring = s.pool.retiring
  nextEpoch : pool.nextEpoch = s.pool.nextEpoch
  other : ∀ id', id' ≠ id → pool.textures.lookup id' = s.pool.textures.lookup id'
  left_other : ∀ id', id' ≠ id → ∀ t, left id' t → left' id' t
  state : ∀ state', pool.textures.lookup id = some state' → ∃ state, s.pool.textures.lookup id = some state ∧
    state'.shape = state.shape ∧ state'.epoch = state.epoch ∧ state'.liveBirthSeq = state.liveBirthSeq ∧
    state'.spares = state.spares ∧ ∀ h', state'.history = some h' → ∃ h, state.history = some h ∧
      h'.writes = h.writes + 1 ∧ ∀ t : Texel, t.In state.shape →
        (h'.stampOf t.slice t.level t.x t.y = h.stampOf t.slice t.level t.x t.y ∨
          h'.stampOf t.slice t.level t.x t.y = h.writes + 1) ∧
        (h'.stampOf t.slice t.level t.x t.y ≠ h.writes + 1 →
          (left id t → left' id t) ∧ texels t = s.memory (s.live id) t)

theorem Inv.heard {left' : TextureId → Texel → Prop} (h : Inv left s) {texels : Texel → α}
    (hr : Heard left left' s id texels pool) :
    Inv left' { s with pool, memory := update s.memory (s.live id) texels } := by
  set s' : Snapshots α := { s with pool, memory := update s.memory (s.live id) texels } with hs'
  have hheld : s'.held = s.held := congrArg (· + _) hr.views
  have hentries : s'.entries = s.entries := congrArg (· ++ _) hr.retiring
  refine
    { pool := hr.inv, held_nodup := hheld ▸ h.held_nodup, live_free := fun id' ↦ hheld ▸ h.live_free id',
      live_injective := h.live_injective, allocated_lt := fun n ↦ hheld ▸ h.allocated_lt n,
      live_lt := h.live_lt, birth_le := fun id' state' hlookup ↦ ?_,
      entry_birth_le := fun e he ↦ h.entry_birth_le e (hentries ▸ he),
      entry_epoch_lt := fun e he ↦ hr.nextEpoch ▸ h.entry_epoch_lt e (hentries ▸ he),
      shows := fun id' state' history v w hlookup hh hknown ↦ ?_ }
  · by_cases heq : id' = id
    · subst heq
      obtain ⟨state, hs, -, -, hbirth, -⟩ := hr.state state' hlookup
      rw [hbirth]
      exact h.birth_le id' state hs
    · exact h.birth_le id' state' (hr.other id' heq ▸ hlookup)
  · by_cases heq : id' = id
    · subst heq
      obtain ⟨state, hs, hshape, hepoch, -, hspares, hhistory⟩ := hr.state state' hlookup
      obtain ⟨was, hwas, hwrites, hstamps⟩ := hhistory history hh
      have hwasKnown : s.Known id' state v w := by
        refine hknown.imp (fun ⟨spare, hspare, hv⟩ ↦ ⟨spare, hspares ▸ hspare, hv⟩) ?_
        rintro ⟨e, he, hid, hsame, hv⟩
        exact ⟨e, hentries ▸ he, hid, hsame.trans hepoch, hv⟩
      have hne : v ≠ s.live id' := fun hv ↦ h.live_free id' (hv ▸ hwasKnown.mem_held hs)
      obtain ⟨hle, hagrees⟩ := h.shows id' state was v w hs hwas hwasKnown
      refine ⟨by omega, ?_⟩
      rw [hs', hshape]
      dsimp only
      rw [update_of_ne hne, update_self]
      refine hagrees.write (Nat.lt_succ_of_le hle) (fun t ht ↦ (hstamps t ht.1).1) fun t ht hne' ↦ ?_
      obtain ⟨hleft, hsame⟩ := (hstamps t ht.1).2 hne'
      exact ⟨⟨ht.1, fun hl ↦ ht.2 (hleft hl)⟩, hsame⟩
    · have hlookup' : s.pool.textures.lookup id' = some state' := hr.other id' heq ▸ hlookup
      have hwasKnown : s.Known id' state' v w := by
        refine hknown.imp_right ?_
        rintro ⟨e, he, hrest⟩
        exact ⟨e, hentries ▸ he, hrest⟩
      have hne : v ≠ s.live id := fun hv ↦ h.live_free id (hv ▸ hwasKnown.mem_held hlookup')
      have hlive : s.live id' ≠ s.live id := fun hl ↦ heq (h.live_injective hl)
      obtain ⟨hle, hagrees⟩ := h.shows id' state' history v w hlookup' hh hwasKnown
      refine ⟨hle, ?_⟩
      rw [hs']
      dsimp only
      rw [update_of_ne hne, update_of_ne hlive]
      exact hagrees.mono fun t ht ↦ ⟨ht.1, fun hl ↦ ht.2 (hr.left_other id' heq t hl)⟩

theorem reports_retiring (hr : s.pool.Reports id pool) :
    pool.retiring = s.pool.retiring ∧ pool.nextEpoch = s.pool.nextEpoch ∧
      ∀ id', id' ≠ id → pool.textures.lookup id' = s.pool.textures.lookup id' := by
  cases hr with
  | unheard => exact ⟨rfl, rfl, fun _ _ ↦ rfl⟩
  | heard hs => exact ⟨rfl, rfl, fun id' hne ↦ AList.lookup_insert_ne hne⟩

theorem Inv.write (h : Inv left s) (id : TextureId) (slice level : ℕ) (upload : Upload α) :
    Inv (fun id' t ↦ left id' t ∧
      ¬(id' = id ∧ t.slice = slice ∧ t.level = level ∧ upload.rect.Covers t.x t.y))
      (s.write id slice level upload) := by
  have hreports := noteWrite_reports s.pool id slice level upload.rect
  obtain ⟨hretiring, hnext, hother⟩ := reports_retiring hreports
  refine h.heard ⟨h.pool.noteWrite id slice level upload.rect, views_reports hreports, hretiring,
    hnext, hother, fun id' hne t hl ↦ ⟨hl, fun hc ↦ hne hc.1⟩, fun state' hs' ↦ ?_⟩
  unfold noteWrite at hs'
  cases hs : s.pool.textures.lookup id with
  | none =>
    simp only [hs] at hs'
    cases hs'
  | some state =>
    refine ⟨state, rfl, ?_⟩
    cases hwas : state.history with
    | none =>
      simp only [hs, hwas, Option.some.injEq] at hs'
      subst hs'
      refine ⟨rfl, rfl, rfl, rfl, fun h' hh' ↦ ?_⟩
      cases hwas.symm.trans hh'
    | some was =>
      simp only [hs, hwas, AList.lookup_insert, Option.some.injEq] at hs'
      subst hs'
      refine ⟨rfl, rfl, rfl, rfl, fun h' hh' ↦ ?_⟩
      dsimp only at hh'
      split_ifs at hh' with hout
      obtain rfl := Option.some.inj hh'
      have hfits := h.pool.fits id state was hs hwas
      refine ⟨was, rfl, rfl, fun t ht ↦ ⟨was.stampOf_noteWrite slice level upload.rect _ _ _ _, fun hold ↦ ?_⟩⟩
      have hmiss : ¬(t.slice = slice ∧ t.level = level ∧ upload.rect.Covers t.x t.y) := by
        rintro ⟨rfl, rfl, hc⟩
        exact hold (hfits.stampOf_noteWrite_of_covers ht.slice_lt ht.level_lt hc ht.x_lt ht.y_lt)
      exact ⟨fun hl ↦ ⟨hl, fun hc ↦ hmiss hc.2⟩, if_neg hmiss⟩

theorem Inv.regenerate (h : Inv left s) (id : TextureId) (texels : Texel → α) :
    Inv left (s.regenerate id texels) := by
  have hreports := noteMipRegeneration_reports s.pool id
  obtain ⟨hretiring, hnext, hother⟩ := reports_retiring hreports
  refine h.heard ⟨h.pool.noteMipRegeneration id, views_reports hreports, hretiring, hnext, hother,
    fun _ _ _ hl ↦ hl, fun state' hs' ↦ ?_⟩
  unfold noteMipRegeneration at hs'
  cases hs : s.pool.textures.lookup id with
  | none =>
    simp only [hs] at hs'
    cases hs'
  | some state =>
    simp only [hs, AList.lookup_insert, Option.some.injEq] at hs'
    subst hs'
    refine ⟨state, rfl, rfl, rfl, rfl, rfl, fun h' hh' ↦ ?_⟩
    obtain ⟨was, hwas, rfl⟩ := map_eq_some_iff.mp hh'
    have hfits := h.pool.fits id state was hs hwas
    refine ⟨was, hwas, rfl, fun t ht ↦ ⟨was.stampOf_noteMipRegeneration _ _ _ _, fun hold ↦ ⟨fun hl ↦ hl, ?_⟩⟩⟩
    refine if_pos ?_
    by_contra hpos
    exact hold (hfits.stampOf_noteMipRegeneration_of_pos ht.slice_lt ht.level_lt hpos ht.x_lt ht.y_lt)


theorem Inv.popRetired (h : Inv left s) (settled : ℕ) :
    Inv left { s with
      pool := (s.pool.popRetired settled).1
      hands := s.hands ++ (s.pool.popRetired settled).2.toList } := by
  set s' : Snapshots α := { s with
    pool := (s.pool.popRetired settled).1
    hands := s.hands ++ (s.pool.popRetired settled).2.toList } with hs'
  have htextures : s'.pool.textures = s.pool.textures := popRetired_textures settled
  have hheld : s'.held = s.held := by
    rw [held, held, ← s.pool.views_popRetired settled, hs', map_append, ← Multiset.coe_add]
    abel
  have hentries : ∀ e, e ∈ s'.entries ↔ e ∈ s.entries := by
    intro e
    simp only [entries, hs', mem_append]
    unfold TextureVersions.popRetired
    split
    · next hq => simp
    · next front rest hq =>
      split_ifs
      · simp
      · simp only [hq, toList_some, mem_cons]
        tauto
  have hnext : s'.pool.nextEpoch = s.pool.nextEpoch := by
    rw [hs']
    dsimp only
    unfold TextureVersions.popRetired
    split
    · rfl
    · split_ifs <;> rfl
  exact
    { pool := h.pool.popRetired settled
      held_nodup := hheld ▸ h.held_nodup
      live_free := fun id ↦ hheld ▸ h.live_free id
      live_injective := h.live_injective
      allocated_lt := fun n ↦ hheld ▸ h.allocated_lt n
      live_lt := h.live_lt
      birth_le := fun id state hs ↦ h.birth_le id state (htextures ▸ hs)
      entry_birth_le := fun e he ↦ h.entry_birth_le e ((hentries e).mp he)
      entry_epoch_lt := fun e he ↦ hnext ▸ h.entry_epoch_lt e ((hentries e).mp he)
      shows := fun id state history v w hs hh hknown ↦
        h.shows id state history v w (htextures ▸ hs) hh
          (hknown.imp_right fun hexists ↦ hexists.imp fun e he ↦ ⟨(hentries e).mp he.1, he.2⟩) }

theorem held_eraseIdx {popped : ℕ} {entry : Retiring Version} (hentry : s.hands[popped]? = some entry) :
    s.held = { s with hands := s.hands.eraseIdx popped }.held + {entry.views} := by
  have hhands : ((s.hands.map Retiring.views : List Version) : Multiset Version) =
      ((s.hands.eraseIdx popped).map Retiring.views : List Version) + {entry.views} := by
    obtain ⟨hlt, rfl⟩ := List.getElem?_eq_some_iff.mp hentry
    rw [add_comm, Multiset.singleton_add, Multiset.cons_coe, Multiset.coe_eq_coe, ← map_cons]
    exact (getElem_cons_eraseIdx_perm hlt).symm.map _
  rw [held, held, hhands, add_assoc]

theorem Inv.park (h : Inv left s) (popped failed now : ℕ) (garbled : Texel → α) :
    Inv left (s.park popped failed now garbled) := by
  unfold Snapshots.park
  cases hentry : s.hands[popped]? with
  | none => exact h
  | some entry =>
    dsimp only
    set rest : Snapshots α := { s with hands := s.hands.eraseIdx popped } with hrest
    have hmem : entry ∈ s.entries := mem_append_right _ (mem_of_getElem? hentry)
    have hheld := held_eraseIdx hentry
    have hparks := s.pool.park_parks entry failed now
    have hviews : (s.pool.park entry failed now).views + (rest.hands.map Retiring.views : List Version) = s.held := by
      rw [views_parks hparks, hheld, held]
      exact add_right_comm _ _ _
    have hentries : ∀ e, e ∈ rest.entries → e ∈ s.entries := fun e he ↦
      (mem_append.mp he).elim (mem_append_left _)
        fun he ↦ mem_append_right _ ((eraseIdx_sublist _ _).subset he)
    -- No other version known, and none that is live, is the one being parked.
    have hne : ∀ {id state v w}, s.pool.textures.lookup id = some state → rest.Known id state v w →
        v ≠ entry.views := by
      rintro id state v w hs hknown rfl
      have hnodup := h.held_nodup
      rw [hheld, Multiset.nodup_add] at hnodup
      exact Multiset.disjoint_left.mp hnodup.2.2 (hknown.mem_held (s := rest) hs) (Multiset.mem_singleton_self _)
    have hlive : ∀ id, s.live id ≠ entry.views := fun id heq ↦ h.live_free id (heq ▸ mem_held_of_entry hmem)
    set memory := if failed ≠ 0 ∧ s.bornAt entry.views ≤ failed then update s.memory entry.views garbled
      else s.memory with hmemory
    have hsame : ∀ v, v ≠ entry.views → memory v = s.memory v := fun v hv ↦ by
      rw [hmemory]
      split_ifs
      exacts [update_of_ne hv _ _, rfl]
    have hshows : ∀ {id state history v w}, s.pool.textures.lookup id = some state →
        state.history = some history → rest.Known id state v w →
        w ≤ history.writes ∧ Lib.Agrees (fun t ↦ t.In state.shape ∧ ¬left id t)
          (fun t ↦ history.stampOf t.slice t.level t.x t.y) w (memory v) (memory (s.live id)) := by
      intro id state history v w hs hh hknown
      rw [hsame v (hne hs hknown), hsame _ (hlive id)]
      exact h.shows id state history v w hs hh
        (hknown.imp_right fun ⟨e, he, hrest⟩ ↦ ⟨e, hentries e he, hrest⟩)
    refine
      { pool := h.pool.parks hparks, held_nodup := by rw [held, hviews]; exact h.held_nodup,
        live_free := fun id ↦ by rw [held, hviews]; exact h.live_free id,
        live_injective := h.live_injective,
        allocated_lt := fun n ↦ by rw [held, hviews]; exact h.allocated_lt n,
        live_lt := h.live_lt, birth_le := ?_, entry_birth_le := ?_, entry_epoch_lt := ?_, shows := ?_ }
    all_goals generalize s.pool.park entry failed now = pool at hparks
    · intro id state' hs'
      cases hparks with
      | dooms bytes => exact h.birth_le id state' hs'
      | @spares state hs =>
        by_cases heq : id = entry.id
        · subst heq
          rw [AList.lookup_insert] at hs'
          obtain rfl := Option.some.inj hs'
          exact h.birth_le _ state hs
        · exact h.birth_le id state' (by rwa [AList.lookup_insert_ne heq] at hs')
    · intro e he
      refine h.entry_birth_le e (hentries e ?_)
      cases hparks <;> exact he
    · intro e he
      have hlt : e ∈ rest.entries → e.epoch < s.pool.nextEpoch := fun he ↦ h.entry_epoch_lt e (hentries e he)
      cases hparks <;> exact hlt he
    · intro id state' history v w hs' hh hknown
      cases hparks with
      | dooms bytes => exact hshows hs' hh hknown
      | @spares state hs hepoch =>
        by_cases heq : id = entry.id
        · subst heq
          rw [AList.lookup_insert] at hs'
          obtain rfl := Option.some.inj hs'
          rcases hknown with ⟨spare, hspare, hv, hw⟩ | hknown
          · obtain hspare | hspare := mem_append.mp hspare
            · have hold : rest.Known entry.id state v w := .inl ⟨spare, hspare, hv, hw⟩
              have hkept := hshows hs hh hold
              exact hkept
            · obtain rfl := mem_singleton.mp hspare
              -- A known count means that no submission the version was live through aborted.
              dsimp only [Retiring.spare] at hv hw
              split_ifs at hw with haborted
              obtain rfl := Option.some.inj hw
              subst hv
              have hwhole : memory = s.memory := if_neg fun hg ↦
                haborted ⟨hg.1, (h.entry_birth_le entry hmem).trans hg.2⟩
              rw [Shows]
              dsimp only
              rw [hwhole]
              exact h.shows _ state history _ _ hs hh (.inr ⟨entry, hmem, rfl, hepoch.symm, rfl, rfl⟩)
          · have hold : rest.Known entry.id state v w := .inr hknown
            have hkept := hshows hs hh hold
            exact hkept
        · rw [AList.lookup_insert_ne heq] at hs'
          exact hshows hs' hh hknown

section Rename

variable {pool : TextureVersions Version} {shape : VersionShape} {records : Bool} {seq : ℕ}
  {spare : Option (Spare Version)}

theorem takes_state (ht : s.pool.Takes id shape records seq pool spare) :
    ∃ state', pool.textures.lookup id = some state' ∧ state'.shape = shape ∧ ∀ taken, spare = some taken →
      ∃ state, s.pool.textures.lookup id = some state ∧ taken ∈ state.spares ∧ state.shape = shape ∧
        state.history = state'.history := by
  cases ht with
  | starts hstarts hrun hempty =>
    refine ⟨_, AList.lookup_insert _, rfl, fun taken htaken ↦ ?_⟩
    cases htaken
  | @takes state hstarts hs hshape =>
    exact ⟨_, AList.lookup_insert _, hshape, fun taken htaken ↦
      ⟨state, hs, mem_of_getLast? htaken, hshape, rfl⟩⟩

def target (s : Snapshots α) (spare : Option (Spare Version)) : Version :=
  (spare.map Spare.views).getD (.allocated s.allocated)

theorem Inv.target_free (h : Inv left s) (ht : s.pool.Takes id shape records seq pool spare) :
    s.target spare ∉ { s with pool }.held ∧ ∀ id', s.live id' ≠ s.target spare := by
  obtain ⟨-, hviews, -, -⟩ := h.pool.takes ht
  cases spare with
  | none =>
    have hfresh : Version.allocated s.allocated ∉ s.held := fun hmem ↦ (h.allocated_lt _ hmem).false
    refine ⟨fun hmem ↦ hfresh ?_, fun id' heq ↦ (h.live_lt id' _ heq).false⟩
    rw [held, ← hviews]
    simpa [held, target] using hmem
  | some taken =>
    have hheld : s.held = { s with pool }.held + {taken.views} := by
      rw [held, held, ← hviews, toList_some, map_singleton, Multiset.coe_singleton]
      exact add_right_comm _ _ _
    have hnodup := h.held_nodup
    rw [hheld, Multiset.nodup_add] at hnodup
    refine ⟨fun hmem ↦ ?_, fun id' heq ↦ h.live_free id' ?_⟩
    · exact Multiset.disjoint_left.mp hnodup.2.2 hmem (Multiset.mem_singleton_self _)
    · rw [heq, hheld]
      exact Multiset.mem_add.mpr (.inr (Multiset.mem_singleton_self _))

theorem Inv.target_lt (h : Inv left s) (ht : s.pool.Takes id shape records seq pool spare) {n : ℕ}
    (hn : s.target spare = .allocated n) : n < if spare.isSome then s.allocated else s.allocated + 1 := by
  cases spare with
  | none =>
    have hn' : s.allocated = n := Version.allocated.inj hn
    simp [← hn']
  | some taken =>
    obtain ⟨state', -, -, hfrom⟩ := takes_state ht
    obtain ⟨state, hs, hmem, -, -⟩ := hfrom taken rfl
    exact h.allocated_lt n (hn ▸ mem_held_of_spare hs hmem)

theorem preserve_complete (h : Inv (fun _ _ ↦ False) s) (ht : s.pool.Takes id shape records seq pool spare)
    {state' : VersionState Version} (hs' : pool.textures.lookup id = some state') {plan : List PreserveCopy}
    {t : Texel} (hin : t.In shape)
    (hplan : (∃ c ∈ plan, c.Reaches t) ∨ TextureVersions.UpToDate state' (spare.bind Spare.heldWrites) t) :
    preserve plan (s.memory (s.live id)) (s.memory (s.target spare)) t = s.memory (s.live id) t := by
  unfold preserve
  by_cases hreach : ∃ c ∈ plan, c.Reaches t
  · obtain ⟨c, hc, hr⟩ := hreach
    refine Lib.writeAll_agreed (fun w hw ↦ ?_) ⟨_, mem_map_of_mem hc, if_pos hr⟩ _
    obtain ⟨c', -, rfl⟩ := mem_map.mp hw
    dsimp only
    split_ifs
    exacts [.inr rfl, .inl rfl]
  · rw [Lib.writeAll_untouched]
    · obtain ⟨history, w, hh, hheld, hstamp⟩ := hplan.resolve_left hreach
      obtain ⟨taken, rfl, hw⟩ := bind_eq_some_iff.mp hheld
      obtain ⟨state'', hlookup, -, hfrom⟩ := takes_state ht
      obtain rfl : state'' = state' := Option.some.inj (hlookup.symm.trans hs')
      obtain ⟨state, hs, hmem, hshape, hhistory⟩ := hfrom taken rfl
      have hshows := h.shows id state history taken.views w hs (hhistory.trans hh) (.inl ⟨taken, hmem, rfl, hw⟩)
      exact hshows.2 t ⟨hshape ▸ hin, not_false⟩ hstamp
    · intro w hw
      obtain ⟨c, hc, rfl⟩ := mem_map.mp hw
      exact if_neg fun hr ↦ hreach ⟨c, hc, hr⟩

theorem Inv.live_injective_update {left : TextureId → Texel → Prop} (h : Inv left s) {new : Version}
    (hnew : ∀ id', s.live id' ≠ new) : Injective (update s.live id new) := by
  intro a b hab
  by_cases ha : a = id <;> by_cases hb : b = id
  · rw [ha, hb]
  · rw [ha, update_self, update_of_ne hb] at hab
    exact absurd hab.symm (hnew b)
  · rw [hb, update_self, update_of_ne ha] at hab
    exact absurd hab (hnew a)
  · rw [update_of_ne ha, update_of_ne hb] at hab
    exact h.live_injective hab

/-- What the list of retiring versions remembers of the one that was live. -/
def retiredEntry (id : TextureId) (v : Version) (seq : ℕ) (state : VersionState Version) : Retiring Version where
  id := id
  views := v
  seq := seq
  epoch := state.epoch
  birthSeq := state.liveBirthSeq
  heldWrites := (state.history.map WriteHistory.writes).getD 0
  bytes := state.bytes

/-- The live version of `id` retires, and the target is live in its place. -/
def replaceLive (s : Snapshots α) (pool : TextureVersions Version) (id : TextureId) (seq : ℕ)
    (spare : Option (Spare Version)) (texels : Texel → α) : Snapshots α :=
  { s with
    pool := pool.retire id (s.live id) seq
    live := update s.live id (s.target spare)
    memory := update s.memory (s.target spare) texels
    allocated := if spare.isSome then s.allocated else s.allocated + 1
    bornAt := update s.bornAt (s.target spare) seq }

section ReplaceLive

variable {state' st : VersionState Version} {texels : Texel → α} {pending : Texel → Prop} {id' : TextureId}
  {history : WriteHistory} {v : Version} {w : ℕ}

theorem retire_eq (hs' : pool.textures.lookup id = some state') (v : Version) : pool.retire id v seq =
    { pool with
      textures := pool.textures.insert id { state' with liveBirthSeq := seq }
      retiring := pool.retiring ++ [retiredEntry id v seq state'] } := by
  unfold retire
  rw [hs']
  rfl

theorem entries_replaceLive (hs' : pool.textures.lookup id = some state') {e : Retiring Version}
    (he : e ∈ (s.replaceLive pool id seq spare texels).entries) :
    e ∈ { s with pool }.entries ∨ e = retiredEntry id (s.live id) seq state' := by
  simp only [entries, replaceLive, retire_eq hs', mem_append, mem_singleton] at he ⊢
  tauto

theorem held_replaceLive : (s.replaceLive pool id seq spare texels).held = { s with pool }.held + {s.live id} := by
  rw [held, replaceLive, views_retire]
  exact add_right_comm _ _ _

theorem Inv.shows_replaced (h : Inv (fun _ _ ↦ False) s) (ht : s.pool.Takes id shape records seq pool spare)
    (hs' : pool.textures.lookup id = some state')
    (htexels : ∀ t : Texel, t.In state'.shape → ¬pending t → texels t = s.memory (s.live id) t)
    (hh : state'.history = some history)
    (hknown : (s.replaceLive pool id seq spare texels).Known id { state' with liveBirthSeq := seq } v w) :
    (s.replaceLive pool id seq spare texels).Shows (fun id' t ↦ id' = id ∧ pending t) id state'.shape history v w := by
  have h₁ := h.takes ht
  obtain ⟨hfree, hlive⟩ := h.target_free ht
  have hsettled : ∀ t : Texel, t.In state'.shape ∧ ¬(id = id ∧ pending t) → texels t = s.memory (s.live id) t :=
    fun t ht ↦ htexels t ht.1 fun hp ↦ ht.2 ⟨rfl, hp⟩
  have hcase : { s with pool }.Known id state' v w ∨ v = s.live id ∧ w = history.writes := by
    rcases hknown with hspare | ⟨e, he, hid, hepoch, hv, hw⟩
    · exact .inl (.inl hspare)
    · rcases entries_replaceLive hs' he with he | rfl
      · exact .inl (.inr ⟨e, he, hid, hepoch, hv, hw⟩)
      · refine .inr ⟨hv.symm, ?_⟩
        rw [← hw, retiredEntry, hh]
        rfl
  unfold Shows replaceLive
  dsimp only
  rw [update_self, update_self]
  rcases hcase with hknown | ⟨rfl, rfl⟩
  · have hne : v ≠ s.target spare := fun hv ↦ hfree (hv ▸ hknown.mem_held hs')
    obtain ⟨hle, hagrees⟩ := h₁.shows id state' history v w hs' hh hknown
    rw [update_of_ne hne]
    refine ⟨hle, Lib.Agrees.relive ?_ hsettled⟩
    exact hagrees.mono fun t ht ↦ ⟨ht.1, not_false⟩
  · rw [update_of_ne (hlive id)]
    exact ⟨le_rfl, fun t ht _ ↦ (hsettled t ht).symm⟩

theorem Inv.shows_other (h : Inv (fun _ _ ↦ False) s) (ht : s.pool.Takes id shape records seq pool spare)
    (hs' : pool.textures.lookup id = some state') (hne : id' ≠ id) (hst : pool.textures.lookup id' = some st)
    (hh : st.history = some history) (hknown : (s.replaceLive pool id seq spare texels).Known id' st v w) :
    (s.replaceLive pool id seq spare texels).Shows (fun id' t ↦ id' = id ∧ pending t) id' st.shape history v w := by
  obtain ⟨hfree, hlive⟩ := h.target_free ht
  have hbefore : { s with pool }.Known id' st v w := by
    rcases hknown with hspare | ⟨e, he, hid, hrest⟩
    · exact .inl hspare
    · rcases entries_replaceLive hs' he with he | rfl
      · exact .inr ⟨e, he, hid, hrest⟩
      · exact absurd hid.symm hne
  have hold : v ≠ s.target spare := fun hv ↦ hfree (hv ▸ hbefore.mem_held hst)
  obtain ⟨hle, hagrees⟩ := (h.takes ht).shows id' st history v w hst hh hbefore
  simp only [Shows, replaceLive]
  rw [update_of_ne hne, update_of_ne hold, update_of_ne (hlive id')]
  exact ⟨hle, hagrees.mono fun t ht ↦ ⟨ht.1, not_false⟩⟩

/-- The old version retires with the count it shows, and the new one is live in its place. -/
theorem Inv.retire (h : Inv (fun _ _ ↦ False) s) (ht : s.pool.Takes id shape records seq pool spare)
    (hs' : pool.textures.lookup id = some state')
    (htexels : ∀ t : Texel, t.In state'.shape → ¬pending t → texels t = s.memory (s.live id) t) :
    Inv (fun id' t ↦ id' = id ∧ pending t) (s.replaceLive pool id seq spare texels) := by
  have h₁ := h.takes ht
  obtain ⟨hfree, hlive⟩ := h.target_free ht
  have hkeep : ∀ {e : Retiring Version}, e ∈ { s with pool }.entries → e.views ≠ s.target spare := fun he heq ↦
    hfree (heq ▸ mem_held_of_entry he)
  refine
    { pool := h₁.pool.retire id (s.live id) seq
      held_nodup := ?_, live_free := fun id' ↦ ?_, live_injective := h.live_injective_update hlive
      allocated_lt := fun n hn ↦ ?_, live_lt := fun id' n hn ↦ ?_, birth_le := fun id' st hst ↦ ?_
      entry_birth_le := fun e he ↦ ?_, entry_epoch_lt := fun e he ↦ ?_
      shows := fun id' st history v w hst hh hknown ↦ ?_ }
  · rw [held_replaceLive, Multiset.nodup_add]
    refine ⟨h₁.held_nodup, Multiset.nodup_singleton _, ?_⟩
    exact Multiset.disjoint_singleton.mpr (h₁.live_free id)
  · rw [held_replaceLive, Multiset.mem_add, Multiset.mem_singleton]
    by_cases heq : id' = id
    · simp only [heq, replaceLive, update_self]
      exact fun hmem ↦ hmem.elim hfree (hlive id).symm
    · simp only [replaceLive, update_of_ne heq]
      exact fun hmem ↦ hmem.elim (h₁.live_free id') fun hl ↦ heq (h.live_injective hl)
  · rw [held_replaceLive, Multiset.mem_add, Multiset.mem_singleton] at hn
    have hlt : n < s.allocated := hn.elim (h₁.allocated_lt n) fun hl ↦ h.live_lt id n hl.symm
    simp only [replaceLive]
    split_ifs <;> omega
  · simp only [replaceLive] at hn ⊢
    by_cases heq : id' = id
    · rw [heq, update_self] at hn
      exact h.target_lt ht hn
    · rw [update_of_ne heq] at hn
      have hlt := h.live_lt id' n hn
      split_ifs <;> omega
  · simp only [replaceLive, retire_eq hs'] at hst ⊢
    by_cases heq : id' = id
    · rw [heq, AList.lookup_insert] at hst
      obtain rfl := Option.some.inj hst
      rw [heq, update_self, update_self]
    · rw [AList.lookup_insert_ne heq] at hst
      rw [update_of_ne heq, update_of_ne (hlive id')]
      exact h₁.birth_le id' st hst
  · rcases entries_replaceLive hs' he with he | rfl
    · exact (h₁.entry_birth_le e he).trans_eq (update_of_ne (hkeep he) _ _).symm
    · exact (h₁.birth_le id state' hs').trans_eq (update_of_ne (hlive id) _ _).symm
  · rw [replaceLive, retire_eq hs']
    rcases entries_replaceLive hs' he with he | rfl
    · exact h₁.entry_epoch_lt e he
    · exact h₁.pool.tracked.epoch_lt id state' hs'
  · simp only [replaceLive, retire_eq hs'] at hst
    by_cases heq : id' = id
    · subst heq
      rw [AList.lookup_insert] at hst
      obtain rfl := Option.some.inj hst
      have hshows := h.shows_replaced ht hs' htexels hh hknown
      exact hshows
    · rw [AList.lookup_insert_ne heq] at hst
      exact h.shows_other ht hs' heq hst hh hknown

end ReplaceLive

theorem Inv.rename (h : Inv (fun _ _ ↦ False) s) (id : TextureId) (shape : VersionShape) (records : Bool)
    (seq : ℕ) (upload : UploadFootprint) : ∃ s', s.rename id shape records seq upload = some s' ∧
      (∀ t : Texel, t.In shape → ¬t.CoveredBy upload → s'.memory (s'.live id) t = s.memory (s.live id) t) ∧
      Inv (fun id' t ↦ id' = id ∧ t.In shape ∧ t.CoveredBy upload) s' := by
  obtain ⟨pool, spare, heq, ht⟩ := h.pool.counted.takeSpare id shape records seq
  obtain ⟨state', hs', rfl, -⟩ := takes_state ht
  obtain ⟨plan, hplan, hcovers⟩ := (h.pool.takes ht).1.preservePlan hs' (spare.bind Spare.heldWrites) upload
  have hcomplete : ∀ t : Texel, t.In state'.shape → ¬t.CoveredBy upload →
      preserve plan (s.memory (s.live id)) (s.memory (s.target spare)) t = s.memory (s.live id) t :=
    fun t hin hnot ↦ preserve_complete h ht hs' hin (hcovers t hin hnot)
  refine ⟨_, by simp only [Snapshots.rename, heq, hplan, bind_eq_bind, bind_some]; rfl,
    fun t hin hnot ↦ ?_, h.retire ht hs' fun t hin hnot ↦ hcomplete t hin fun hc ↦ hnot ⟨hin, hc⟩⟩
  rw [replaceLive]
  dsimp only
  rw [update_self]
  exact (congrFun (update_self _ _ _) t).trans (hcomplete t hin hnot)

end Rename

theorem new_inv (budget : VersionBudget) (memory : Version → Texel → α) :
    Inv (fun _ _ ↦ False) (new budget memory) where
  pool := TextureVersions.new_inv budget
  held_nodup := Multiset.nodup_zero
  live_free _ := Multiset.notMem_zero _
  live_injective _ _ heq := Version.created.inj heq
  allocated_lt _ hn := absurd hn (Multiset.notMem_zero _)
  live_lt _ _ hn := by cases hn
  birth_le _ _ hs := by simp [new, TextureVersions.new] at hs
  entry_birth_le _ he := by simp [new, TextureVersions.new, entries] at he
  entry_epoch_lt _ he := by simp [new, TextureVersions.new, entries] at he
  shows _ _ _ _ _ hs := by simp [new, TextureVersions.new] at hs

/-- The texture is gone from the pool, so whatever comes back under its id may start from anything. -/
theorem Inv.recreate (h : Inv left s) (hs : s.pool.textures.lookup id = none) :
    Inv left { s with
      live := update s.live id (.allocated s.allocated)
      allocated := s.allocated + 1 } := by
  have hfresh : Version.allocated s.allocated ∉ s.held := fun hmem ↦ (h.allocated_lt _ hmem).false
  have hlive : ∀ id', s.live id' ≠ .allocated s.allocated := fun id' heq ↦ (h.live_lt id' _ heq).false
  have hother : ∀ {id' state}, s.pool.textures.lookup id' = some state →
      update s.live id (.allocated s.allocated) id' = s.live id' := fun {id' _} hs' ↦ by
    have hne : id' ≠ id := by
      rintro rfl
      cases hs.symm.trans hs'
    exact update_of_ne hne _ _
  refine { h with live_free := fun id' ↦ ?_, live_injective := fun a b hab ↦ ?_, allocated_lt := fun n hn ↦ ?_,
                  live_lt := fun id' n hn ↦ ?_, birth_le := fun id' state hs' ↦ ?_, shows := ?_ }
  · dsimp only
    by_cases heq : id' = id
    · rw [heq, update_self]
      exact hfresh
    · rw [update_of_ne heq]
      exact h.live_free id'
  · exact h.live_injective_update hlive hab
  · exact (h.allocated_lt n hn).trans (Nat.lt_succ_self _)
  · dsimp only at hn ⊢
    by_cases heq : id' = id
    · rw [heq, update_self] at hn
      have := Version.allocated.inj hn
      omega
    · rw [update_of_ne heq] at hn
      exact (h.live_lt id' n hn).trans (Nat.lt_succ_self _)
  · dsimp only
    rw [hother hs']
    exact h.birth_le id' state hs'
  · intro id' state history v w hs' hh hknown
    rw [Shows]
    dsimp only
    rw [hother hs']
    exact h.shows id' state history v w hs' hh hknown

theorem Inv.reclaimed (h : Inv left s) (hr : s.pool.Reclaimed pool) : Inv left { s with pool } :=
  h.continue hr.inv hr.views.le (.of_kept hr.kept) (by rw [hr.retiring]; exact List.Subset.refl _)
    hr.nextEpoch.ge

def Op.CarriesOut : Op α → Prop
  | .rename _ shape _ _ footprint upload => footprint.fullCover = true → ∃ u, upload = some u ∧
      u.rect.x = 0 ∧ u.rect.y = 0 ∧ levelExtent shape.width footprint.level ≤ u.rect.width ∧
      levelExtent shape.height footprint.level ≤ u.rect.height
  | _ => True

theorem Inv.settle {left' : TextureId → Texel → Prop} (h : Inv left s) (hleft : ∀ id t, ¬left id t) :
    Inv left' s :=
  { h with
    shows := fun id state history v w hs hh hknown ↦
      ⟨(h.shows id state history v w hs hh hknown).1,
        (h.shows id state history v w hs hh hknown).2.mono fun t ht ↦ ⟨ht.1, hleft id t⟩⟩ }

theorem Inv.step (h : Inv (fun _ _ ↦ False) s) {op : Op α} (hop : op.CarriesOut) :
    ∃ s', s.step op = some s' ∧ Inv (fun _ _ ↦ False) s' := by
  cases op with
  | rename id shape records seq footprint upload =>
    obtain ⟨s', heq, -, h'⟩ := h.rename id shape records seq footprint
    refine ⟨_, by rw [Snapshots.step, heq, bind_eq_bind, bind_some], ?_⟩
    cases upload with
    | none =>
      refine h'.settle fun id' t hleft ↦ ?_
      obtain ⟨u, hu, -⟩ := hop hleft.2.2.1
      cases hu
    | some u =>
      refine (h'.write id footprint.slice footprint.level u).settle fun id' t hleft ↦ hleft.2 ?_
      obtain ⟨⟨hid, hin, hcover, hslice, hlevel⟩, -⟩ := hleft
      obtain ⟨u', hu', hx, hy, hw, hh⟩ := hop hcover
      obtain rfl := Option.some.inj hu'
      have hxlt := hin.x_lt
      have hylt := hin.y_lt
      rw [hlevel] at hxlt hylt
      exact ⟨hid, hslice, hlevel, by omega, by omega, by omega, by omega⟩
  | abandon id shape records seq =>
    obtain ⟨pool, spare, heq, ht⟩ := h.pool.counted.takeSpare id shape records seq
    exact ⟨_, by rw [Snapshots.step, heq, bind_eq_bind, bind_some], h.takes ht⟩
  | write id slice level upload =>
    exact ⟨_, rfl, (h.write id slice level upload).settle fun _ _ hleft ↦ hleft.1⟩
  | regenerate id texels => exact ⟨_, rfl, h.regenerate id texels⟩
  | popRetired settled => exact ⟨_, rfl, h.popRetired settled⟩
  | park popped failed now garbled => exact ⟨_, rfl, h.park popped failed now garbled⟩
  | noteAllocated bytes order =>
    obtain ⟨pool, heq, hr⟩ := h.pool.noteAllocated bytes order
    exact ⟨_, by rw [Snapshots.step, heq, bind_eq_bind, bind_some], h.reclaimed hr⟩
  | takeDoomed =>
    obtain ⟨pool, taken, heq, hinv, hviews, hkept, hretiring, hnext⟩ := h.pool.takeDoomed
    refine ⟨_, by rw [Snapshots.step, heq, bind_eq_bind, bind_some], ?_⟩
    refine h.continue hinv ?_ (.of_kept hkept) (by rw [hretiring]; exact List.Subset.refl _) hnext.ge
    rw [← hviews]
    exact Multiset.le_add_right _ _
  | trim now order =>
    obtain ⟨pool, heq, hr⟩ := h.pool.trim now order
    exact ⟨_, by rw [Snapshots.step, heq, bind_eq_bind, bind_some], h.reclaimed hr⟩
  | forgetTexture id =>
    obtain ⟨pool, heq, -, -, htextures, -⟩ := h.pool.counted.forgetTexture id
    obtain ⟨pool', heq', hr⟩ := h.pool.forgetTexture id
    obtain rfl : pool' = pool := Option.some.inj (heq'.symm.trans heq)
    refine ⟨_, by rw [Snapshots.step, heq, bind_eq_bind, bind_some], ?_⟩
    exact (h.reclaimed hr).recreate (by rw [htextures]; exact AList.lookup_erase _ _)
  | drainVersions order =>
    obtain ⟨hinv, hkept, hnext⟩ := h.pool.drainVersions order
    obtain ⟨-, hviews, -⟩ := h.pool.counted.drainVersions order
    refine ⟨_, rfl, h.continue hinv (by rw [hviews]; exact Multiset.zero_le _) (.of_kept hkept) ?_ hnext.ge⟩
    rw [drainVersions_retiring]
    exact nil_subset _

theorem Inv.run (h : Inv (fun _ _ ↦ False) s) {ops : List (Op α)} (hops : ∀ op ∈ ops, op.CarriesOut) :
    ∃ s', ops.foldlM Snapshots.step s = some s' ∧ Inv (fun _ _ ↦ False) s' := by
  induction ops generalizing s with
  | nil => exact ⟨s, rfl, h⟩
  | cons op ops ih =>
    obtain ⟨s₁, hstep, h₁⟩ := h.step (hops op mem_cons_self)
    obtain ⟨s', hrun, h'⟩ := ih h₁ fun op' hop' ↦ hops op' (mem_cons_of_mem op hop')
    exact ⟨s', by rw [foldlM_cons, hstep]; exact hrun, h'⟩

/-- Wherever a run leads in which the uploads declared to cover their subresource are carried out, a rename
leaves a complete snapshot of the texture: the new live version shows every texel of every slice and level
that the old one does, but for the subresource its own upload covers. -/
theorem rename_complete (budget : VersionBudget) (memory : Version → Texel → α) (ops : List (Op α))
    (hops : ∀ op ∈ ops, op.CarriesOut) :
    ∃ s, run budget memory ops = some s ∧
      ∀ (id : TextureId) (shape : VersionShape) (records : Bool) (seq : ℕ) (upload : UploadFootprint),
        ∃ s', s.rename id shape records seq upload = some s' ∧ ∀ t : Texel, t.In shape →
          ¬t.CoveredBy upload → s'.memory (s'.live id) t = s.memory (s.live id) t := by
  obtain ⟨s, hrun, h⟩ := (new_inv budget memory).run hops
  refine ⟨s, hrun, fun id shape records seq upload ↦ ?_⟩
  obtain ⟨s', heq, hcomplete, -⟩ := h.rename id shape records seq upload
  exact ⟨s', heq, hcomplete⟩

def scratchShape : VersionShape where
  width := 16
  height := 16
  depth := 1
  levels := 1
  pixelFormat := .abgr4Unorm
  storageMode := .private
  flags := ⟨false, false, false, false⟩
  usage := ⟨false, false⟩
  swizzle := #v[.red, .green, .blue, .alpha]
  width_le := by decide
  height_le := by decide

/-- The first rename's upload declares the level covered and then declines: its version is live with the
storage's old texels, and the second rename, into the version the first one replaced, copies nothing. -/
theorem declined_cover_incomplete :
    ∃ s s', run (.fromWorkingSet 0) (fun v _ ↦ v)
        [.rename 0 scratchShape true 1 ⟨0, 0, true⟩ none, .popRetired 1, .park 0 0 2 fun _ ↦ .created 0] = some s ∧
      s.rename 0 scratchShape true 2 ⟨0, 0, false⟩ = some s' ∧
      (Texel.mk 0 0 0 0 0).In scratchShape ∧ ¬(Texel.mk 0 0 0 0 0).CoveredBy ⟨0, 0, false⟩ ∧
      s'.memory (s'.live 0) ⟨0, 0, 0, 0, 0⟩ ≠ s.memory (s.live 0) ⟨0, 0, 0, 0, 0⟩ := by
  refine ⟨_, _, rfl, rfl, ⟨by decide, by decide, by decide, by decide, by decide⟩, by decide, by decide⟩

/-- Carried out, the upload is stamped, and the second rename copies it over. -/
theorem rename_complete_carried :
    ∃ s, run (.fromWorkingSet 0) (fun v _ ↦ v)
        [.rename 0 scratchShape true 1 ⟨0, 0, true⟩ (some ⟨⟨0, 0, 16, 16⟩, fun _ ↦ .created 1⟩), .popRetired 1,
          .park 0 0 2 fun _ ↦ .created 0] = some s ∧
      ∃ s', s.rename 0 scratchShape true 2 ⟨0, 0, false⟩ = some s' ∧ ∀ t : Texel, t.In scratchShape →
        s'.memory (s'.live 0) t = s.memory (s.live 0) t := by
  obtain ⟨s, hrun, h⟩ := rename_complete (.fromWorkingSet 0) (fun v _ ↦ v)
    [.rename 0 scratchShape true 1 ⟨0, 0, true⟩ (some ⟨⟨0, 0, 16, 16⟩, fun _ ↦ .created 1⟩), .popRetired 1,
      .park 0 0 2 fun _ ↦ .created 0] (by
      simp only [mem_cons, not_mem_nil, or_false, forall_eq_or_imp, forall_eq]
      exact ⟨fun _ ↦ ⟨_, rfl, by decide, by decide, by decide, by decide⟩, trivial, trivial⟩)
  obtain ⟨s', heq, hall⟩ := h 0 scratchShape true 2 ⟨0, 0, false⟩
  exact ⟨s, hrun, s', heq, fun t ht ↦ hall t ht (by simp [Texel.CoveredBy])⟩

end Snapshots

end Mtld3d
