import Mtld3d.TextureVersionsRuns
import Mtld3d.WriteHistory

namespace Mtld3d

open List

namespace TextureVersions

variable {V : Type} {tv tv' : TextureVersions V} {id : TextureId} {state : VersionState V}

open VersionState (heldBytes spareViews)
open Relation (ReflTransGen)

theorem lookup_afterGiveBack_ne {id' : TextureId} {count : ℕ} (h : id' ≠ id) :
    (tv.afterGiveBack id state count).textures.lookup id' = tv.textures.lookup id' :=
  AList.lookup_insert_ne h

theorem countOldest_le (excess : ℕ) (ages : List (ℕ × TextureId × ℕ)) (freed : ℕ) (counts : TextureId → ℕ)
    (id : TextureId) :
    countOldest excess ages freed counts id ≤ counts id + ages.countP fun age ↦ age.2.1 = id := by
  induction ages generalizing freed counts with
  | nil => exact Nat.le_add_right _ _
  | cons age ages ih =>
    obtain ⟨seq, id', bytes⟩ := age
    rw [countOldest, countP_cons]
    by_cases hfreed : freed ≥ excess
    · rw [if_pos hfreed]
      omega
    · rw [if_neg hfreed]
      refine (ih _ _).trans ?_
      by_cases hid : id' = id
      · subst hid
        simp only [Function.update_self, decide_true, if_true]
        omega
      · rw [Function.update_of_ne (Ne.symm hid)]
        omega

theorem countP_flatMap_le {α β : Type} (f : α → List β) (p : β → Bool) (a : α)
    (hother : ∀ b, b ≠ a → (f b).countP p = 0) {ids : List α} (hnodup : ids.Nodup) :
    (ids.flatMap f).countP p ≤ (f a).countP p := by
  induction ids with
  | nil => exact Nat.zero_le _
  | cons b ids ih =>
    obtain ⟨hnot, htail⟩ := nodup_cons.mp hnodup
    rw [flatMap_cons, countP_append]
    by_cases heq : b = a
    · subst heq
      have hrest : (ids.flatMap f).countP p = 0 := by
        rw [countP_eq_zero]
        intro x hx
        obtain ⟨c, hc, hxc⟩ := mem_flatMap.mp hx
        have hne : c ≠ b := fun hcb ↦ hnot (hcb ▸ hc)
        exact countP_eq_zero.mp (hother c hne) x hxc
      omega
    · rw [hother b heq, zero_add]
      exact ih htail

theorem countP_spareAges_le (hs : tv.textures.lookup id = some state) (order : HashOrder) :
    (tv.spareAges order).countP (fun age ↦ age.2.1 = id) ≤ state.spares.length := by
  have hid : (state.spares.map fun spare ↦ (spare.parkedSeq, id, state.bytes)).countP
      (fun age ↦ age.2.1 = id) ≤ state.spares.length :=
    countP_le_length.trans (le_of_eq (length_map _))
  unfold spareAges
  refine (countP_flatMap_le _ _ id (fun b hb ↦ ?_) (order.nodup_visit _)).trans ?_
  · rw [countP_eq_zero]
    intro age hage
    cases hl : tv.textures.lookup b with
    | none =>
      rw [hl] at hage
      cases hage
    | some s =>
      rw [hl] at hage
      obtain ⟨spare, -, rfl⟩ := mem_map.mp hage
      simpa using hb
  · rw [hs]
    exact hid

theorem Counted.foldlM_giveBack (h : tv.Counted) {ids : List TextureId} (hnodup : ids.Nodup)
    (counts : TextureId → ℕ)
    (hcounts : ∀ id ∈ ids, ∀ state, tv.textures.lookup id = some state → counts id ≤ state.spares.length) :
    ∃ tv', ids.foldlM (fun tv id ↦ match tv.textures.lookup id with
        | none => some tv
        | some state => tv.giveBack id state (counts id)) tv = some tv' ∧
      ReflTransGen GivesBack tv tv' := by
  induction ids generalizing tv with
  | nil => exact ⟨tv, rfl, .refl⟩
  | cons id ids ih =>
    obtain ⟨hnot, hnodup⟩ := nodup_cons.mp hnodup
    rw [foldlM_cons]
    cases hs : tv.textures.lookup id with
    | none => exact ih h hnodup fun id' hid' ↦ hcounts id' (mem_cons_of_mem id hid')
    | some state =>
      have hcount := hcounts id mem_cons_self state hs
      have hgives : tv.GivesBack (tv.afterGiveBack id state (counts id)) := ⟨id, state, _, hs, hcount, rfl⟩
      dsimp only
      rw [h.giveBack_eq hs hcount, Option.bind_eq_bind, Option.bind_some]
      obtain ⟨tv', hfold, hrun⟩ := ih (h.givesBack hgives) hnodup fun id' hid' s hs' ↦ by
        have hne : id' ≠ id := fun heq ↦ hnot (heq ▸ hid')
        rw [lookup_afterGiveBack_ne hne] at hs'
        exact hcounts id' (mem_cons_of_mem id hid') s hs'
      exact ⟨tv', hfold, .head hgives hrun⟩

theorem Counted.relieve (h : tv.Counted) (order : HashOrder) :
    ∃ tv', tv.relieve order = some tv' ∧ ReflTransGen GivesBack tv tv' := by
  refine h.foldlM_giveBack (order.nodup_visit _) _ fun id _ state hs ↦ ?_
  refine (countOldest_le _ _ _ _ id).trans ?_
  rw [zero_add, (perm_insertionSort _ _).countP_eq]
  exact countP_spareAges_le hs order

theorem Counted.trimSpares (h : tv.Counted) (now : ℕ) (ids : List TextureId) :
    ∃ tv', ids.foldlM (TextureVersions.trimSpares now) tv = some tv' ∧ ReflTransGen GivesBack tv tv' := by
  induction ids generalizing tv with
  | nil => exact ⟨tv, rfl, .refl⟩
  | cons id ids ih =>
    rw [foldlM_cons, TextureVersions.trimSpares]
    cases hs : tv.textures.lookup id with
    | none =>
      have hnot : id ∉ tv.withSpares := by
        rw [h.withSpares]
        simp [hs]
      dsimp only
      rw [Finset.erase_eq_of_notMem hnot, Option.bind_eq_bind, Option.bind_some]
      exact ih h
    | some state =>
      set count := (state.spares.takeWhile fun spare ↦ spareAged now spare.parkedSeq).length
      have hcount : count ≤ state.spares.length := (List.takeWhile_prefix _).length_le
      have hgives : tv.GivesBack (tv.afterGiveBack id state count) := ⟨id, state, _, hs, hcount, rfl⟩
      dsimp only
      rw [h.giveBack_eq hs hcount, Option.bind_eq_bind, Option.bind_some]
      obtain ⟨tv', hfold, hrun⟩ := ih (h.givesBack hgives)
      exact ⟨tv', hfold, .head hgives hrun⟩

/-- An entry popped from the set of idle states, and what became of its state. -/
def LooksAt (now : ℕ) (tv tv' : TextureVersions V) : Prop := ∃ e ∈ tv.idle, tv' = tv.visitIdle now e

theorem trimIdle_run (now : ℕ) (tv : TextureVersions V) : ReflTransGen (LooksAt now) tv (tv.trimIdle now) := by
  induction tv using trimIdle.induct now with
  | case1 tv hfirst =>
    rw [trimIdle]
    split
    · exact .refl
    · next e he => cases hfirst.symm.trans he
  | case2 tv e hfirst hdue ih =>
    rw [trimIdle]
    split
    · next hnone => cases hfirst.symm.trans hnone
    · next e' he =>
      obtain rfl : e = e' := Option.some.inj (hfirst.symm.trans he)
      rw [dif_pos hdue]
      exact .head ⟨e, firstIdle_mem hfirst, rfl⟩ ih
  | case3 tv e hfirst hdue =>
    rw [trimIdle]
    split
    · exact .refl
    · next e' he =>
      obtain rfl : e = e' := Option.some.inj (hfirst.symm.trans he)
      rw [dif_neg hdue]

theorem Tracked.entry_eq (h : tv.Tracked) {e : IdleEntry} (he : e ∈ tv.idle)
    (hs : tv.textures.lookup id = some state) (hepoch : e.epoch = state.epoch) :
    tv.idle.filter (fun e ↦ e.epoch = state.epoch) = {e} ∧ e.id = id := by
  obtain ⟨e', hset, hid⟩ := h.idle id state hs
  have hmem : e ∈ tv.idle.filter fun e ↦ e.epoch = state.epoch := Finset.mem_filter.mpr ⟨he, hepoch⟩
  rw [hset, Finset.mem_singleton] at hmem
  exact hmem ▸ ⟨hset, hid⟩

theorem Tracked.eraseIdle (h : tv.Tracked) {e : IdleEntry}
    (hstale : ∀ id state, tv.textures.lookup id = some state → state.epoch ≠ e.epoch) :
    { tv with idle := tv.idle.erase e }.Tracked where
  idle id state hs := by
    obtain ⟨e', hset, hid⟩ := h.idle id state hs
    refine ⟨e', ?_, hid⟩
    rw [Finset.filter_erase, hset, Finset.erase_eq_of_notMem]
    intro hmem
    rw [← hset, Finset.mem_filter] at hmem
    exact hstale id state hs hmem.2.symm
  epoch_lt := h.epoch_lt
  idle_lt e' he' := h.idle_lt e' (Finset.mem_of_mem_erase he')

theorem Tracked.reenter (h : tv.Tracked) {e : IdleEntry} (he : e ∈ tv.idle) (again : ℕ) :
    { tv with idle := insert (IdleEntry.new again e.id e.epoch) (tv.idle.erase e) }.Tracked where
  idle id state hs := by
    by_cases hsame : state.epoch = e.epoch
    · obtain ⟨hset, hid⟩ := h.entry_eq he hs hsame.symm
      refine ⟨IdleEntry.new again e.id e.epoch, ?_, hid⟩
      rw [Finset.filter_insert, if_pos (by rw [IdleEntry.epoch_new, hsame]), Finset.filter_erase, hset,
        Finset.erase_singleton, insert_empty_eq]
    · obtain ⟨e', hset, hid⟩ := h.idle id state hs
      refine ⟨e', ?_, hid⟩
      rw [Finset.filter_insert, if_neg (by rw [IdleEntry.epoch_new]; exact Ne.symm hsame),
        Finset.filter_erase, hset, Finset.erase_eq_of_notMem]
      intro hmem
      rw [← hset, Finset.mem_filter] at hmem
      exact hsame hmem.2.symm
  epoch_lt := h.epoch_lt
  idle_lt e' he' := by
    obtain rfl | he' := Finset.mem_insert.mp he'
    · exact h.idle_lt e he
    · exact h.idle_lt e' (Finset.mem_of_mem_erase he')

variable {now : ℕ}

theorem Tracked.looksAt (h : tv.Tracked) (hl : LooksAt now tv tv') : tv'.Tracked := by
  obtain ⟨e, he, rfl⟩ := hl
  unfold visitIdle
  dsimp only
  cases hs : tv.textures.lookup e.id with
  | none =>
    refine h.eraseIdle fun id state hstate hepoch ↦ ?_
    rw [(h.entry_eq he hstate hepoch.symm).2, hstate] at hs
    cases hs
  | some state =>
    dsimp only
    by_cases hepoch : state.epoch ≠ e.epoch
    · rw [if_pos hepoch]
      refine h.eraseIdle fun id state' hstate' hepoch' ↦ hepoch ?_
      rw [(h.entry_eq he hstate' hepoch'.symm).2, hstate'] at hs
      rw [← Option.some.inj hs, hepoch']
    · rw [if_neg hepoch]
      split_ifs with hgone
      · -- The state goes with its entry.
        have hother : ∀ id s, (tv.textures.erase e.id).lookup id = some s →
            id ≠ e.id ∧ tv.textures.lookup id = some s := by
          intro id s hlookup
          have hne : id ≠ e.id := by
            rintro rfl
            rw [AList.lookup_erase] at hlookup
            cases hlookup
          exact ⟨hne, by rwa [AList.lookup_erase_ne hne] at hlookup⟩
        have hgone : Tracked { tv with textures := tv.textures.erase e.id } :=
          { idle := fun id s hlookup ↦ h.idle id s (hother id s hlookup).2
            epoch_lt := fun id s hlookup ↦ h.epoch_lt id s (hother id s hlookup).2
            idle_lt := h.idle_lt }
        exact hgone.eraseIdle fun id s hlookup hsame ↦
          (hother id s hlookup).1 (h.entry_eq he (hother id s hlookup).2 hsame.symm).2.symm
      all_goals exact h.reenter he _

theorem Counted.looksAt (h : tv.Counted) (hl : LooksAt now tv tv') : tv'.Counted := by
  obtain ⟨e, he, rfl⟩ := hl
  unfold visitIdle
  dsimp only
  cases hs : tv.textures.lookup e.id with
  | none => exact { h with }
  | some state =>
    dsimp only
    split_ifs with hepoch hgone hold
    · exact { h with }
    · have hnil : state.spares = [] := isEmpty_iff.mp hgone.2
      refine { h with parked := ?_, withSpares := fun id ↦ ?_ }
      · have htotal := Lib.Table.total_of_lookup heldBytes hs
        rw [heldBytes, hnil, length_nil, mul_zero, zero_add] at htotal
        exact h.parked.trans htotal
      · have hnot : e.id ∉ tv.withSpares := by simp [h.mem_iff hs, hnil]
        rw [← Finset.erase_eq_of_notMem hnot]
        exact mem_withSpares_erase h.withSpares id
    · exact { h with }
    · exact { h with }

theorem views_looksAt (hl : LooksAt now tv tv') : tv'.views = tv.views := by
  obtain ⟨e, he, rfl⟩ := hl
  unfold visitIdle
  dsimp only
  cases hs : tv.textures.lookup e.id with
  | none => rfl
  | some state =>
    dsimp only
    split_ifs with hepoch hgone hold
    · rfl
    · have htotal := Lib.Table.total_of_lookup spareViews hs
      rw [spareViews, isEmpty_iff.mp hgone.2, map_nil, Multiset.coe_nil, zero_add] at htotal
      rw [views, views, htotal]
    · rfl
    · rfl

theorem foldlM_checkedSub (doomed : List (V × ℕ)) {left : ℕ} (h : (doomed.map Prod.snd).sum ≤ left) :
    doomed.foldlM (fun left d ↦ checkedSub left d.2) left = some (left - (doomed.map Prod.snd).sum) := by
  induction doomed generalizing left with
  | nil => rfl
  | cons d doomed ih =>
    rw [map_cons, sum_cons] at h
    rw [foldlM_cons, checkedSub_of_le (by omega), Option.bind_eq_bind, Option.bind_some, ih (by omega),
      map_cons, sum_cons, Nat.sub_sub]

theorem Counted.takeDoomed (h : tv.Counted) : ∃ tv' taken, tv.takeDoomed = some (tv', taken) ∧ tv'.Counted ∧
    tv'.views + (taken : Multiset V) = tv.views ∧ tv'.textures = tv.textures ∧ tv'.retiring = tv.retiring ∧
      tv'.idle = tv.idle ∧ tv'.nextEpoch = tv.nextEpoch := by
  have hsplit : ∀ batch, ((tv.doomed.take batch).map Prod.snd).sum + ((tv.doomed.drop batch).map Prod.snd).sum =
      tv.doomedBytes := fun batch ↦ by
    rw [h.doomed, ← sum_append, ← map_append, take_append_drop]
  rw [TextureVersions.takeDoomed]
  generalize coverExcess tv.relieveBytes _ _ _ = batch
  rw [foldlM_checkedSub _ (by have := hsplit batch; omega), Option.bind_eq_bind, Option.bind_some]
  refine ⟨_, _, rfl, { h with doomed := ?_ }, ?_, rfl, rfl, rfl, rfl⟩
  · have := hsplit batch
    dsimp only
    omega
  · have hqueue : ((tv.doomed.map Prod.fst : List V) : Multiset V) =
        ((tv.doomed.take batch).map Prod.fst : List V) + ((tv.doomed.drop batch).map Prod.fst : List V) := by
      rw [Multiset.coe_add, ← map_append, take_append_drop]
    rw [views, views, hqueue]
    abel

theorem foldl_doom (tv : TextureVersions V) (spares : List (Spare V)) (bytes : ℕ) :
    spares.foldl (fun tv spare ↦ tv.doom spare.views bytes) tv =
      { tv with
        doomedBytes := tv.doomedBytes + bytes * spares.length
        doomedSinceTake := tv.doomedSinceTake + spares.length
        doomed := tv.doomed ++ spares.map fun spare ↦ (spare.views, bytes) } := by
  induction spares generalizing tv with
  | nil => simp
  | cons spare spares ih =>
    rw [foldl_cons, ih]
    simp [doom, Nat.mul_succ, add_assoc, add_comm bytes, add_comm 1]

theorem Counted.forgetTexture (h : tv.Counted) (id : TextureId) : ∃ tv', tv.forgetTexture id = some tv' ∧
    tv'.Counted ∧ tv'.views = tv.views ∧ tv'.textures = tv.textures.erase id ∧ tv'.retiring = tv.retiring ∧
      tv'.idle = tv.idle ∧ tv'.nextEpoch = tv.nextEpoch := by
  unfold TextureVersions.forgetTexture
  cases hs : tv.textures.lookup id with
  | none => exact ⟨tv, rfl, h, rfl, (Lib.Table.erase_of_lookup_none hs).symm, rfl, rfl, rfl⟩
  | some state =>
    have hheld : state.bytes * state.spares.length ≤ tv.parkedBytes := h.heldBytes_le hs
    simp only [checkedSub_of_le hheld, Option.bind_eq_bind, Option.bind_some, foldl_doom]
    refine ⟨_, rfl, ⟨?_, (Nat.sub_le _ _).trans h.capped, ?_, mem_withSpares_erase h.withSpares⟩, ?_, rfl, rfl, rfl, rfl⟩
    · have htotal := Lib.Table.total_of_lookup heldBytes hs
      have hparked := h.parked
      rw [heldBytes] at htotal
      dsimp only
      omega
    · dsimp only
      rw [sum_doomed_append, h.doomed]
    · have htotal := Lib.Table.total_of_lookup spareViews hs
      rw [views, views, htotal, spareViews]
      simp only [map_append, map_map, Function.comp_def, ← Multiset.coe_add]
      abel

theorem drainSpares_run (ids : List TextureId) (tv : TextureVersions V) (all : List V) :
    let drained := ids.foldl drainSpares (tv, all)
    drained.1 = { tv with textures := drained.1.textures } ∧
    Lib.Table.total spareViews drained.1.textures + (drained.2 : Multiset V) =
      tv.textures.total spareViews + (all : Multiset V) ∧
    ∀ id state', drained.1.textures.lookup id = some state' → ∃ state,
      tv.textures.lookup id = some state ∧
        (state' = state ∧ id ∉ ids ∨ state' = { state with spares := [] }) := by
  induction ids generalizing tv all with
  | nil => exact ⟨rfl, rfl, fun id state' hs ↦ ⟨state', hs, .inl ⟨rfl, not_mem_nil⟩⟩⟩
  | cons id ids ih =>
    rw [foldl_cons]
    cases hs : tv.textures.lookup id with
    | none =>
      have hskip : drainSpares (tv, all) id = (tv, all) := by simp [drainSpares, hs]
      rw [hskip]
      obtain ⟨hrest, hviews, hstates⟩ := ih tv all
      refine ⟨hrest, hviews, fun id' state' hs' ↦ ?_⟩
      obtain ⟨state, hstate, hcase⟩ := hstates id' state' hs'
      refine ⟨state, hstate, hcase.imp_left fun ⟨heq, hnot⟩ ↦ ⟨heq, ?_⟩⟩
      rintro hmem
      obtain rfl | hmem := mem_cons.mp hmem
      · cases hs.symm.trans hstate
      · exact hnot hmem
    | some state =>
      have hdrain : drainSpares (tv, all) id =
          ({ tv with textures := tv.textures.insert id { state with spares := [] } },
            all ++ state.spares.map Spare.views) := by simp [drainSpares, hs]
      rw [hdrain]
      obtain ⟨hrest, hviews, hstates⟩ := ih _ _
      refine ⟨hrest, hviews.trans ?_, fun id' state' hs' ↦ ?_⟩
      · rw [Lib.Table.total_insert, Lib.Table.total_of_lookup spareViews hs, ← Multiset.coe_add]
        simp only [spareViews, map_nil, Multiset.coe_nil, zero_add]
        abel
      · obtain ⟨s, hstate, hcase⟩ := hstates id' state' hs'
        by_cases heq : id' = id
        · subst heq
          rw [AList.lookup_insert] at hstate
          obtain rfl := Option.some.inj hstate
          exact ⟨state, hs, .inr (hcase.elim And.left fun h ↦ h)⟩
        · rw [AList.lookup_insert_ne heq] at hstate
          exact ⟨s, hstate, hcase.imp_left fun ⟨hsame, hnot⟩ ↦ ⟨hsame, by simp [heq, hnot]⟩⟩

theorem drainVersions_states (h : tv.Counted) (order : HashOrder) (id : TextureId) (state' : VersionState V)
    (hs' : (tv.drainVersions order).1.textures.lookup id = some state') :
    ∃ state, tv.textures.lookup id = some state ∧ state' = { state with spares := [] } := by
  obtain ⟨-, -, hstates⟩ := drainSpares_run (order.visit tv.withSpares) tv.drainQueues
    (tv.retiring.map Retiring.views ++ tv.doomed.map Prod.fst)
  obtain ⟨state, hs, ⟨rfl, hnot⟩ | hdrained⟩ := hstates id state' hs'
  · have hnil : state'.spares = [] := by
      by_contra hne
      exact hnot ((order.mem_visit _ id).mpr ((h.withSpares id).mpr ⟨state', hs, hne⟩))
    exact ⟨state', hs, by rw [← hnil]⟩
  · exact ⟨state, hs, hdrained⟩

theorem Counted.drainVersions (h : tv.Counted) (order : HashOrder) :
    (tv.drainVersions order).1.Counted ∧ (tv.drainVersions order).1.views = 0 ∧
      ((tv.drainVersions order).2 : Multiset V) = tv.views := by
  have hempty : ∀ id state, (tv.drainVersions order).1.textures.lookup id = some state →
      state.spares = [] := fun id state hs ↦ by
    obtain ⟨_, _, rfl⟩ := drainVersions_states h order id state hs
    rfl
  obtain ⟨hrest, hviews, -⟩ := drainSpares_run (order.visit tv.withSpares) tv.drainQueues
    (tv.retiring.map Retiring.views ++ tv.doomed.map Prod.fst)
  have hspares : (tv.drainVersions order).1.textures.total spareViews = 0 :=
    Lib.Table.total_eq_zero fun id state hs ↦ by
      rw [spareViews, hempty id state hs]
      rfl
  have hheld : (tv.drainVersions order).1.textures.total heldBytes = 0 :=
    Lib.Table.total_eq_zero fun id state hs ↦ by rw [heldBytes, hempty id state hs]; rfl
  rw [TextureVersions.drainVersions] at hempty hspares hheld ⊢
  dsimp only at hempty hspares hheld ⊢
  refine ⟨⟨hheld.symm, Nat.zero_le _, ?_, fun id ↦ ?_⟩, ?_, ?_⟩
  · rw [hrest]
    rfl
  · rw [hrest]
    refine ⟨fun hmem ↦ absurd hmem (Finset.notMem_empty id), fun hspare ↦ ?_⟩
    obtain ⟨state, hs, hne⟩ := hspare
    exact absurd (hempty id state hs) hne
  · rw [views, hrest]
    exact (add_zero _).trans ((zero_add _).trans hspares)
  · rw [hspares, zero_add] at hviews
    rw [hviews, views, ← Multiset.coe_add, show tv.drainQueues.textures = tv.textures from rfl]
    abel

structure Inv (tv : TextureVersions V) : Prop where
  counted : tv.Counted
  tracked : tv.Tracked
  fits : ∀ id state h, tv.textures.lookup id = some state → state.history = some h → h.Fits state.shape

/-- A state as it was, but for spares it no longer has and the time of its last rename. -/
structure Keeps (state state' : VersionState V) : Prop where
  shape : state'.shape = state.shape
  epoch : state'.epoch = state.epoch
  history : state'.history = state.history
  liveBirthSeq : state'.liveBirthSeq = state.liveBirthSeq
  spares : state'.spares ⊆ state.spares

def Kept (tv tv' : TextureVersions V) : Prop :=
  ∀ id state', tv'.textures.lookup id = some state' → ∃ state, tv.textures.lookup id = some state ∧
    Keeps state state'

theorem Keeps.refl (state : VersionState V) : Keeps state state := ⟨rfl, rfl, rfl, rfl, List.Subset.refl _⟩

theorem Kept.refl (tv : TextureVersions V) : Kept tv tv := fun _ state hs ↦ ⟨state, hs, .refl state⟩

theorem Kept.trans {tv'' : TextureVersions V} (h : Kept tv tv') (h' : Kept tv' tv'') : Kept tv tv'' := by
  intro id state'' hs''
  obtain ⟨state', hs', hk'⟩ := h' id state'' hs''
  obtain ⟨state, hs, hk⟩ := h id state' hs'
  exact ⟨state, hs, hk'.shape.trans hk.shape, hk'.epoch.trans hk.epoch, hk'.history.trans hk.history,
    hk'.liveBirthSeq.trans hk.liveBirthSeq, List.Subset.trans hk'.spares hk.spares⟩

theorem Kept.insert {state' : VersionState V} (hs : tv.textures.lookup id = some state)
    (hk : Keeps state state') (htextures : tv'.textures = tv.textures.insert id state') : Kept tv tv' := by
  intro id' s hs'
  rw [htextures] at hs'
  by_cases heq : id' = id
  · subst heq
    rw [AList.lookup_insert] at hs'
    exact ⟨state, hs, Option.some.inj hs' ▸ hk⟩
  · rw [AList.lookup_insert_ne heq] at hs'
    exact ⟨s, hs', .refl s⟩

theorem Kept.erase (htextures : tv'.textures = tv.textures.erase id) : Kept tv tv' := by
  intro id' s hs'
  rw [htextures] at hs'
  have hne : id' ≠ id := by
    rintro rfl
    rw [AList.lookup_erase] at hs'
    cases hs'
  rw [AList.lookup_erase_ne hne] at hs'
  exact ⟨s, hs', .refl s⟩

theorem GivesBack.kept (h : tv.GivesBack tv') : Kept tv tv' := by
  obtain ⟨id, state, count, hs, -, rfl⟩ := h
  refine Kept.insert hs ?_ rfl
  exact ⟨rfl, rfl, rfl, rfl, drop_subset count state.spares⟩

theorem LooksAt.kept (h : LooksAt now tv tv') : Kept tv tv' := by
  obtain ⟨e, -, rfl⟩ := h
  unfold visitIdle
  dsimp only
  split
  · exact .refl tv
  · split_ifs
    exacts [.refl tv, .erase rfl, .refl tv, .refl tv]

theorem Inv.fits_of_kept (h : tv.Inv) (hk : Kept tv tv') (id : TextureId) (state' : VersionState V)
    (history : WriteHistory) (hs' : tv'.textures.lookup id = some state')
    (hh : state'.history = some history) : history.Fits state'.shape := by
  obtain ⟨state, hs, hkeeps⟩ := hk id state' hs'
  rw [hkeeps.shape]
  exact h.fits id state history hs (hkeeps.history ▸ hh)

theorem Inv.fits_insert (h : tv.Inv) {state' : VersionState V}
    (hnew : ∀ history, state'.history = some history → history.Fits state'.shape) (id' : TextureId)
    (s : VersionState V) (history : WriteHistory) (hs' : (tv.textures.insert id state').lookup id' = some s)
    (hh : s.history = some history) : history.Fits s.shape := by
  by_cases heq : id' = id
  · subst heq
    rw [AList.lookup_insert] at hs'
    obtain rfl := Option.some.inj hs'
    exact hnew history hh
  · rw [AList.lookup_insert_ne heq] at hs'
    exact h.fits id' s history hs' hh

/-- Versions moved, at most, from the spares to the destroy queue. -/
structure Reclaimed (tv tv' : TextureVersions V) : Prop where
  inv : tv'.Inv
  views : tv'.views = tv.views
  kept : Kept tv tv'
  retiring : tv'.retiring = tv.retiring
  nextEpoch : tv'.nextEpoch = tv.nextEpoch

theorem Reclaimed.refl (h : tv.Inv) : Reclaimed tv tv := ⟨h, rfl, .refl tv, rfl, rfl⟩

theorem Reclaimed.trans {tv'' : TextureVersions V} (h : Reclaimed tv tv') (h' : Reclaimed tv' tv'') :
    Reclaimed tv tv'' :=
  ⟨h'.inv, h'.views.trans h.views, h.kept.trans h'.kept, h'.retiring.trans h.retiring,
    h'.nextEpoch.trans h.nextEpoch⟩

theorem Inv.givesBack (h : tv.Inv) (hg : tv.GivesBack tv') : Reclaimed tv tv' where
  inv := ⟨h.counted.givesBack hg, h.tracked.givesBack hg, h.fits_of_kept hg.kept⟩
  views := views_givesBack hg
  kept := hg.kept
  retiring := by obtain ⟨_, _, _, _, _, rfl⟩ := hg; rfl
  nextEpoch := by obtain ⟨_, _, _, _, _, rfl⟩ := hg; rfl

theorem Inv.looksAt (h : tv.Inv) (hl : LooksAt now tv tv') : Reclaimed tv tv' where
  inv := ⟨h.counted.looksAt hl, h.tracked.looksAt hl, h.fits_of_kept hl.kept⟩
  views := views_looksAt hl
  kept := hl.kept
  retiring := by
    obtain ⟨e, -, rfl⟩ := hl
    unfold visitIdle
    dsimp only
    split
    · rfl
    · split_ifs <;> rfl
  nextEpoch := by
    obtain ⟨e, -, rfl⟩ := hl
    unfold visitIdle
    dsimp only
    split
    · rfl
    · split_ifs <;> rfl

theorem Inv.reclaimed_run (h : tv.Inv) {step : TextureVersions V → TextureVersions V → Prop}
    (hstep : ∀ {tv tv' : TextureVersions V}, tv.Inv → step tv tv' → Reclaimed tv tv')
    (hrun : ReflTransGen step tv tv') : Reclaimed tv tv' := by
  induction hrun with
  | refl => exact .refl h
  | tail _ hs ih => exact ih.trans (hstep ih.inv hs)

theorem Inv.noteAllocated (h : tv.Inv) (allocated : ℕ) (order : HashOrder) :
    ∃ tv', tv.noteAllocated allocated order = some tv' ∧ Reclaimed tv tv' := by
  have hnoted : ∀ relieveBytes pressed, Reclaimed tv { tv with relieveBytes, pressed } := fun _ _ ↦
    ⟨⟨{ h.counted with }, { h.tracked with }, h.fits⟩, rfl, .refl tv, rfl, rfl⟩
  unfold TextureVersions.noteAllocated
  dsimp only
  split
  · exact ⟨_, rfl, hnoted _ _⟩
  · split
    · exact ⟨_, rfl, hnoted _ _⟩
    · obtain ⟨tv', hrelieve, hrun⟩ := (hnoted _ _).inv.counted.relieve order
      exact ⟨tv', hrelieve, (hnoted _ _).trans ((hnoted _ _).inv.reclaimed_run Inv.givesBack hrun)⟩

theorem Inv.trim (h : tv.Inv) (now : ℕ) (order : HashOrder) :
    ∃ tv', tv.trim now order = some tv' ∧ Reclaimed tv tv' := by
  obtain ⟨tv', hspares, hrun⟩ := h.counted.trimSpares now (order.visit tv.withSpares)
  have hgiven := h.reclaimed_run Inv.givesBack hrun
  refine ⟨tv'.trimIdle now, ?_, hgiven.trans (hgiven.inv.reclaimed_run (fun hi ↦ hi.looksAt) (trimIdle_run now tv'))⟩
  rw [TextureVersions.trim, hspares, Option.bind_eq_bind, Option.bind_some]

theorem Inv.forgetTexture (h : tv.Inv) (id : TextureId) :
    ∃ tv', tv.forgetTexture id = some tv' ∧ Reclaimed tv tv' := by
  obtain ⟨tv', heq, hcounted, hviews, htextures, hretiring, hidle, hnext⟩ := h.counted.forgetTexture id
  have hkept : Kept tv tv' := .erase htextures
  refine ⟨tv', heq, ⟨hcounted, ?_, h.fits_of_kept hkept⟩, hviews, hkept, hretiring, hnext⟩
  refine h.tracked.of_states (fun id' state' hs' ↦ ?_) hidle hnext
  obtain ⟨state, hs, hk⟩ := hkept id' state' hs'
  exact ⟨state, hs, hk.epoch⟩

theorem Inv.takeDoomed (h : tv.Inv) : ∃ tv' taken, tv.takeDoomed = some (tv', taken) ∧ tv'.Inv ∧
    tv'.views + (taken : Multiset V) = tv.views ∧ Kept tv tv' ∧ tv'.retiring = tv.retiring ∧
      tv'.nextEpoch = tv.nextEpoch := by
  obtain ⟨tv', taken, heq, hcounted, hviews, htextures, hretiring, hidle, hnext⟩ := h.counted.takeDoomed
  have hkept : Kept tv tv' := fun id state hs ↦ ⟨state, htextures ▸ hs, .refl state⟩
  refine ⟨tv', taken, heq, ⟨hcounted, ?_, h.fits_of_kept hkept⟩, hviews, hkept, hretiring, hnext⟩
  exact h.tracked.of_states (fun _ state hs ↦ ⟨state, htextures ▸ hs, rfl⟩) hidle hnext

theorem drainVersions_retiring (tv : TextureVersions V) (order : HashOrder) :
    (tv.drainVersions order).1.retiring = [] := by
  obtain ⟨hrest, -, -⟩ := drainSpares_run (order.visit tv.withSpares) tv.drainQueues
    (tv.retiring.map Retiring.views ++ tv.doomed.map Prod.fst)
  rw [TextureVersions.drainVersions]
  dsimp only
  rw [hrest]
  rfl

theorem Inv.drainVersions (h : tv.Inv) (order : HashOrder) : (tv.drainVersions order).1.Inv ∧
    Kept tv (tv.drainVersions order).1 ∧ (tv.drainVersions order).1.nextEpoch = tv.nextEpoch := by
  obtain ⟨hrest, -, -⟩ := drainSpares_run (order.visit tv.withSpares) tv.drainQueues
    (tv.retiring.map Retiring.views ++ tv.doomed.map Prod.fst)
  have hkept : Kept tv (tv.drainVersions order).1 := fun id state' hs' ↦ by
    obtain ⟨state, hs, rfl⟩ := drainVersions_states h.counted order id state' hs'
    exact ⟨state, hs, rfl, rfl, rfl, rfl, nil_subset _⟩
  have hnext : (tv.drainVersions order).1.nextEpoch = tv.nextEpoch := by
    rw [TextureVersions.drainVersions]
    dsimp only
    rw [hrest]
    rfl
  have hidle : (tv.drainVersions order).1.idle = tv.idle := by
    rw [TextureVersions.drainVersions]
    dsimp only
    rw [hrest]
    rfl
  refine ⟨⟨(h.counted.drainVersions order).1, ?_, h.fits_of_kept hkept⟩, hkept, hnext⟩
  refine h.tracked.of_states (fun id state' hs' ↦ ?_) hidle hnext
  obtain ⟨state, hs, hk⟩ := hkept id state' hs'
  exact ⟨state, hs, hk.epoch⟩

section TakeSpare

variable {shape : VersionShape} {records : Bool} {seq : ℕ}

/-- A rename starts its texture's state over, once no spare is left of it, or takes its newest spare. -/
inductive Takes (tv : TextureVersions V) (id : TextureId) (shape : VersionShape) (records : Bool) (seq : ℕ) :
    TextureVersions V → Option (Spare V) → Prop
  | starts {emptied : TextureVersions V} (hstarts : tv.startsState id shape = true)
      (hrun : ReflTransGen GivesBack tv emptied)
      (hempty : ∀ state, emptied.textures.lookup id = some state → state.spares = []) :
      Takes tv id shape records seq (emptied.afterStart id shape records seq) none
  | takes {state : VersionState V} (hstarts : tv.startsState id shape = false)
      (hs : tv.textures.lookup id = some state) (hshape : state.shape = shape) :
      Takes tv id shape records seq (tv.afterTake id state seq) state.spares.getLast?

theorem Counted.takeSpare (h : tv.Counted) (id : TextureId) (shape : VersionShape) (records : Bool) (seq : ℕ) :
    ∃ tv' spare, tv.takeSpare id shape records seq = some (tv', spare) ∧
      Takes tv id shape records seq tv' spare := by
  cases hs : tv.textures.lookup id with
  | none =>
    refine ⟨_, _, takeSpare_vacant hs, .starts (by simp [startsState, hs]) .refl fun state hs' ↦ ?_⟩
    cases hs.symm.trans hs'
  | some state =>
    by_cases hshape : state.shape = shape
    · exact ⟨_, _, h.takeSpare_kept hs hshape, .takes (by simp [startsState, hs, hshape]) hs hshape⟩
    · refine ⟨_, _, h.takeSpare_reshaped hs hshape, .starts (by simp [startsState, hs, hshape]) ?_ ?_⟩
      · exact .single ⟨id, state, _, hs, le_rfl, rfl⟩
      · exact fun s hs' ↦ lookup_afterGiveBack_all hs'

theorem Inv.afterStart (h : tv.Inv)
    (hempty : ∀ state, tv.textures.lookup id = some state → state.spares = []) :
    (tv.afterStart id shape records seq).Inv where
  counted := h.counted.afterStart hempty
  tracked := h.tracked.start rfl rfl rfl rfl
  fits := h.fits_insert fun history hh ↦ by
    dsimp only [VersionState.new] at hh
    split_ifs at hh
    exact Option.some.inj hh ▸ WriteHistory.fits_new shape

theorem kept_afterTake (hs : tv.textures.lookup id = some state) : Kept tv (tv.afterTake id state seq) := by
  refine Kept.insert hs ?_ rfl
  exact ⟨rfl, rfl, rfl, rfl, dropLast_subset state.spares⟩

theorem Inv.takes (h : tv.Inv) {spare : Option (Spare V)} (ht : Takes tv id shape records seq tv' spare) :
    tv'.Inv ∧ tv'.views + (spare.toList.map Spare.views : List V) = tv.views ∧ tv'.retiring = tv.retiring ∧
      tv'.nextEpoch = tv.nextEpoch + if tv.startsState id shape then 1 else 0 := by
  cases ht with
  | starts hstarts hrun hempty =>
    have hreclaimed := h.reclaimed_run Inv.givesBack hrun
    refine ⟨hreclaimed.inv.afterStart hempty, ?_, hreclaimed.retiring, ?_⟩
    · rw [views_afterStart hempty, hreclaimed.views]
      exact add_zero _
    · rw [hstarts, if_pos rfl, ← hreclaimed.nextEpoch]
      rfl
  | takes hstarts hs hshape =>
    have hinv : (tv.afterTake id _ seq).Inv :=
      ⟨h.counted.afterTake hs, h.tracked.afterTake hs, h.fits_of_kept (kept_afterTake hs)⟩
    exact ⟨hinv, views_afterTake hs, rfl, by rw [hstarts]; rfl⟩

end TakeSpare

theorem Inv.noteWrite (h : tv.Inv) (id : TextureId) (slice level : ℕ) (rect : TexelRect) :
    (tv.noteWrite id slice level rect).Inv where
  counted := h.counted.reports (noteWrite_reports tv id slice level rect)
  tracked := h.tracked.reports (noteWrite_reports tv id slice level rect)
  fits := by
    unfold TextureVersions.noteWrite
    split
    · exact h.fits
    · next state hs =>
      split
      · exact h.fits
      · next was hwas =>
        refine h.fits_insert fun history hh ↦ ?_
        dsimp only at hh ⊢
        split_ifs at hh
        exact Option.some.inj hh ▸ (h.fits id state was hs hwas).noteWrite slice level rect

theorem Inv.noteMipRegeneration (h : tv.Inv) (id : TextureId) : (tv.noteMipRegeneration id).Inv where
  counted := h.counted.reports (noteMipRegeneration_reports tv id)
  tracked := h.tracked.reports (noteMipRegeneration_reports tv id)
  fits := by
    unfold TextureVersions.noteMipRegeneration
    split
    · exact h.fits
    · next state hs =>
      refine h.fits_insert fun history hh ↦ ?_
      obtain ⟨was, hwas, rfl⟩ := Option.map_eq_some_iff.mp hh
      exact (h.fits id state was hs hwas).noteMipRegeneration

theorem Inv.parks (h : tv.Inv) {entry : Retiring V} {failed now : ℕ} (hp : Parks tv entry failed now tv') :
    tv'.Inv where
  counted := h.counted.parks hp
  tracked := h.tracked.parks hp
  fits := by
    cases hp with
    | dooms bytes => exact h.fits
    | @spares state hs => exact h.fits_insert fun history hh ↦ h.fits _ state history hs hh

theorem Inv.retire (h : tv.Inv) (id : TextureId) (views : V) (seq : ℕ) : (tv.retire id views seq).Inv where
  counted := h.counted.retire id views seq
  tracked := h.tracked.retire id views seq
  fits := by
    unfold TextureVersions.retire
    split
    · exact h.fits
    · next state hs => exact h.fits_insert fun history hh ↦ h.fits _ state history hs hh

theorem popRetired_textures (settled : ℕ) : (tv.popRetired settled).1.textures = tv.textures := by
  unfold TextureVersions.popRetired
  split
  · rfl
  · split_ifs <;> rfl

theorem Inv.popRetired (h : tv.Inv) (settled : ℕ) : (tv.popRetired settled).1.Inv where
  counted := h.counted.popRetired settled
  tracked := h.tracked.popRetired settled
  fits := by
    rw [popRetired_textures]
    exact h.fits

theorem new_inv (budget : VersionBudget) : (new budget : TextureVersions V).Inv where
  counted := ⟨rfl, Nat.zero_le _, rfl, fun id ↦ by simp [new]⟩
  tracked := ⟨fun _ _ hs ↦ by simp [new] at hs, fun _ _ hs ↦ by simp [new] at hs, fun e he ↦ by simp [new] at he⟩
  fits _ _ _ hs := by simp [new] at hs

end TextureVersions

end Mtld3d
