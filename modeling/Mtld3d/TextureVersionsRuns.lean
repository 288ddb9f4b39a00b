import Mtld3d.TextureVersions
import Mathlib.Tactic.Abel

namespace Mtld3d

open List

namespace VersionState

variable {V : Type}

def heldBytes (state : VersionState V) : ℕ := state.bytes * state.spares.length

def spareViews (state : VersionState V) : Multiset V := state.spares.map Spare.views

end VersionState

namespace TextureVersions

variable {V : Type} {tv : TextureVersions V} {id : TextureId} {state : VersionState V}

open VersionState (heldBytes spareViews)

def views (tv : TextureVersions V) : Multiset V :=
  (tv.retiring.map Retiring.views : Multiset V) + tv.textures.total spareViews +
    (tv.doomed.map Prod.fst : Multiset V)

/-- The counters and the set of textures with spares agree with what is held. -/
structure Counted (tv : TextureVersions V) : Prop where
  parked : tv.parkedBytes = tv.textures.total heldBytes
  capped : tv.parkedBytes ≤ tv.budget.spareCap
  doomed : tv.doomedBytes = (tv.doomed.map Prod.snd).sum
  withSpares : ∀ id, id ∈ tv.withSpares ↔ ∃ state, tv.textures.lookup id = some state ∧ state.spares ≠ []

/-- The states are told apart by their epochs, and each is due for a look exactly once. -/
structure Tracked (tv : TextureVersions V) : Prop where
  idle : ∀ id state, tv.textures.lookup id = some state →
    ∃ e, tv.idle.filter (fun e ↦ e.epoch = state.epoch) = {e} ∧ e.id = id
  epoch_lt : ∀ id state, tv.textures.lookup id = some state → state.epoch < tv.nextEpoch
  idle_lt : ∀ e ∈ tv.idle, e.epoch < tv.nextEpoch

variable {state' : VersionState V}

theorem Tracked.id_eq (h : tv.Tracked) {id' : TextureId}
    (hs : tv.textures.lookup id = some state) (hs' : tv.textures.lookup id' = some state')
    (he : state.epoch = state'.epoch) : id = id' := by
  obtain ⟨e, hset, rfl⟩ := h.idle id state hs
  obtain ⟨e', hset', rfl⟩ := h.idle id' state' hs'
  rw [he, hset'] at hset
  rw [Finset.singleton_inj.mp hset]

theorem Counted.heldBytes_le (h : tv.Counted) (hs : tv.textures.lookup id = some state) :
    state.heldBytes ≤ tv.parkedBytes := by
  rw [h.parked, Lib.Table.total_of_lookup heldBytes hs]
  exact Nat.le_add_right _ _

theorem mem_withSpares_insert {textures : Lib.Table TextureId (VersionState V)} {was now : Finset TextureId}
    (h : ∀ id, id ∈ was ↔ ∃ state, textures.lookup id = some state ∧ state.spares ≠ [])
    (hid : id ∈ now ↔ state.spares ≠ []) (hne : ∀ id' ≠ id, id' ∈ now ↔ id' ∈ was) (id' : TextureId) :
    id' ∈ now ↔ ∃ s, (textures.insert id state).lookup id' = some s ∧ s.spares ≠ [] := by
  by_cases heq : id' = id
  · subst heq
    rw [hid, AList.lookup_insert]
    simp
  · rw [hne id' heq, h, AList.lookup_insert_ne heq]

theorem Counted.mem_iff (h : tv.Counted) (hs : tv.textures.lookup id = some state) :
    id ∈ tv.withSpares ↔ state.spares ≠ [] := by
  rw [h.withSpares]
  simp [hs]

/-- A state that loses spares leaves the set when none is left. -/
theorem Counted.mem_emptied (h : tv.Counted) (hs : tv.textures.lookup id = some state)
    (state' : VersionState V) (hnil : state.spares = [] → state'.spares = []) (id' : TextureId) :
    id' ∈ (if state'.spares.isEmpty then tv.withSpares.erase id else tv.withSpares) ↔
      ∃ s, (tv.textures.insert id state').lookup id' = some s ∧ s.spares ≠ [] := by
  refine mem_withSpares_insert h.withSpares ?_ (fun id' hne ↦ ?_) id'
  · split_ifs with hempty
    · simpa using hempty
    · rw [h.mem_iff hs]
      exact ⟨fun _ ↦ by simpa using hempty, mt hnil⟩
  · split_ifs
    exacts [Finset.mem_erase.trans (and_iff_right hne), Iff.rfl]

theorem mem_withSpares_erase {textures : Lib.Table TextureId (VersionState V)} {was : Finset TextureId}
    (h : ∀ id, id ∈ was ↔ ∃ state, textures.lookup id = some state ∧ state.spares ≠ []) (id' : TextureId) :
    id' ∈ was.erase id ↔ ∃ s, (textures.erase id).lookup id' = some s ∧ s.spares ≠ [] := by
  by_cases heq : id' = id
  · subst heq
    simp
  · rw [Finset.mem_erase, AList.lookup_erase_ne heq, h]
    simp [heq]

def afterGiveBack (tv : TextureVersions V) (id : TextureId) (state : VersionState V) (count : ℕ) :
    TextureVersions V :=
  { tv with
    parkedBytes := tv.parkedBytes - state.bytes * count
    doomedBytes := tv.doomedBytes + state.bytes * count
    doomedSinceTake := tv.doomedSinceTake + count
    doomed := tv.doomed ++ (state.spares.take count).map fun spare ↦ (spare.views, state.bytes)
    textures := tv.textures.insert id { state with spares := state.spares.drop count }
    withSpares := if (state.spares.drop count).isEmpty then tv.withSpares.erase id else tv.withSpares }

theorem Counted.giveBack_eq (h : tv.Counted) (hs : tv.textures.lookup id = some state) {count : ℕ}
    (hcount : count ≤ state.spares.length) :
    tv.giveBack id state count = some (tv.afterGiveBack id state count) := by
  have hbytes : state.bytes * count ≤ tv.parkedBytes :=
    (Nat.mul_le_mul_left _ hcount).trans (h.heldBytes_le hs)
  simp only [giveBack, doomOldest, checkedSub_of_le hbytes, checkedSub_of_le hcount, Option.bind_eq_bind,
    Option.bind_some]
  rfl

theorem sum_doomed_append (doomed : List (V × ℕ)) (spares : List (Spare V)) (bytes : ℕ) :
    ((doomed ++ spares.map fun spare ↦ (spare.views, bytes)).map Prod.snd).sum =
      (doomed.map Prod.snd).sum + bytes * spares.length := by
  simp [Function.comp_def, mul_comm]

theorem Counted.afterGiveBack (h : tv.Counted) (hs : tv.textures.lookup id = some state) {count : ℕ}
    (hcount : count ≤ state.spares.length) : (tv.afterGiveBack id state count).Counted where
  parked := by
    have hupdate := Lib.Table.total_update heldBytes hs { state with spares := state.spares.drop count }
    have hheld : heldBytes { state with spares := state.spares.drop count } + state.bytes * count =
        state.heldBytes := by
      simp [heldBytes, ← mul_add, Nat.sub_add_cancel hcount]
    have hparked := h.parked
    simp only [TextureVersions.afterGiveBack]
    omega
  capped := (Nat.sub_le _ _).trans h.capped
  doomed := by
    simp only [TextureVersions.afterGiveBack]
    rw [sum_doomed_append, length_take, min_eq_left hcount, h.doomed]
  withSpares := h.mem_emptied hs { state with spares := state.spares.drop count } (by simp +contextual)

theorem views_afterGiveBack (hs : tv.textures.lookup id = some state) (count : ℕ) :
    (tv.afterGiveBack id state count).views = tv.views := by
  have hsplit : spareViews state = (((state.spares.take count).map Spare.views : List V) : Multiset V) +
      spareViews { state with spares := state.spares.drop count } := by
    rw [spareViews, spareViews, Multiset.coe_add, ← map_append, take_append_drop]
  rw [views, views, TextureVersions.afterGiveBack]
  simp only [map_append, map_map, Function.comp_def, ← Multiset.coe_add]
  rw [Lib.Table.total_insert, Lib.Table.total_of_lookup spareViews hs, hsplit]
  abel

variable {tv' : TextureVersions V}

theorem Tracked.of_states (h : tv.Tracked) (hstates : ∀ id state', tv'.textures.lookup id = some state' →
      ∃ state, tv.textures.lookup id = some state ∧ state'.epoch = state.epoch)
    (hidle : tv'.idle = tv.idle) (hnext : tv'.nextEpoch = tv.nextEpoch) : tv'.Tracked where
  idle id state' hs' := by
    obtain ⟨state, hs, he⟩ := hstates id state' hs'
    rw [hidle, he]
    exact h.idle id state hs
  epoch_lt id state' hs' := by
    obtain ⟨state, hs, he⟩ := hstates id state' hs'
    rw [hnext, he]
    exact h.epoch_lt id state hs
  idle_lt := by
    rw [hidle, hnext]
    exact h.idle_lt

theorem lookup_insert_epoch {state' s : VersionState V} {id' : TextureId}
    (hs : tv.textures.lookup id = some state) (he : state'.epoch = state.epoch)
    (h : (tv.textures.insert id state').lookup id' = some s) :
    ∃ state, tv.textures.lookup id' = some state ∧ s.epoch = state.epoch := by
  by_cases heq : id' = id
  · subst heq
    rw [AList.lookup_insert] at h
    exact ⟨state, hs, Option.some.inj h ▸ he⟩
  · rw [AList.lookup_insert_ne heq] at h
    exact ⟨s, h, rfl⟩

theorem Tracked.afterGiveBack (h : tv.Tracked) (hs : tv.textures.lookup id = some state) (count : ℕ) :
    (tv.afterGiveBack id state count).Tracked :=
  h.of_states (fun _ _ ↦ lookup_insert_epoch hs rfl) rfl rfl

theorem Tracked.start (h : tv.Tracked) {seq : ℕ}
    (htextures : tv'.textures = tv.textures.insert id state) (hepoch : state.epoch = tv.nextEpoch)
    (hidle : tv'.idle = insert (.new seq id tv.nextEpoch) tv.idle)
    (hnext : tv'.nextEpoch = tv.nextEpoch + 1) : tv'.Tracked where
  idle id' state' hs' := by
    rw [htextures] at hs'
    by_cases heq : id' = id
    · subst heq
      rw [AList.lookup_insert] at hs'
      obtain rfl := Option.some.inj hs'
      refine ⟨.new seq id' tv.nextEpoch, ?_, rfl⟩
      have hnone : tv.idle.filter (fun e ↦ e.epoch = tv.nextEpoch) = ∅ :=
        Finset.filter_eq_empty_iff.mpr fun e he ↦ (h.idle_lt e he).ne
      rw [hidle, hepoch, Finset.filter_insert, if_pos (IdleEntry.epoch_new _ _ _), hnone]
      rfl
    · rw [AList.lookup_insert_ne heq] at hs'
      rw [hidle, Finset.filter_insert, if_neg]
      · exact h.idle id' state' hs'
      · exact (h.epoch_lt id' state' hs').ne'
  epoch_lt id' state' hs' := by
    rw [htextures] at hs'
    by_cases heq : id' = id
    · subst heq
      rw [AList.lookup_insert] at hs'
      obtain rfl := Option.some.inj hs'
      omega
    · rw [AList.lookup_insert_ne heq] at hs'
      have := h.epoch_lt id' state' hs'
      omega
  idle_lt e he := by
    rw [hidle, Finset.mem_insert] at he
    obtain rfl | he := he
    · rw [IdleEntry.epoch_new]; omega
    · have := h.idle_lt e he
      omega

section TakeSpare

variable {shape : VersionShape} {records : Bool} {seq : ℕ}

def afterStart (tv : TextureVersions V) (id : TextureId) (shape : VersionShape) (records : Bool) (seq : ℕ) :
    TextureVersions V :=
  { tv with
    nextEpoch := tv.nextEpoch + 1
    idle := insert (.new seq id tv.nextEpoch) tv.idle
    textures := tv.textures.insert id { VersionState.new shape tv.nextEpoch records with lastRenameSeq := seq }
    withSpares := tv.withSpares.erase id }

def afterTake (tv : TextureVersions V) (id : TextureId) (state : VersionState V) (seq : ℕ) :
    TextureVersions V :=
  { tv with
    textures := tv.textures.insert id { state with lastRenameSeq := seq, spares := state.spares.dropLast }
    parkedBytes := tv.parkedBytes - if state.spares.isEmpty then 0 else state.bytes
    withSpares := if state.spares.dropLast.isEmpty then tv.withSpares.erase id else tv.withSpares }

theorem takeSpare_vacant (hs : tv.textures.lookup id = none) :
    tv.takeSpare id shape records seq = some (tv.afterStart id shape records seq, none) := by
  simp only [takeSpare, entry, hs, Option.bind_eq_bind, Option.bind_some]
  rfl

theorem Counted.takeSpare_reshaped (h : tv.Counted) (hs : tv.textures.lookup id = some state)
    (hshape : state.shape ≠ shape) : tv.takeSpare id shape records seq =
      some ((tv.afterGiveBack id state state.spares.length).afterStart id shape records seq, none) := by
  have hbytes : state.bytes * state.spares.length ≤ tv.parkedBytes := h.heldBytes_le hs
  simp only [takeSpare, entry, hs, doomOldest, checkedSub_of_le hbytes, checkedSub_of_le le_rfl,
    Option.bind_eq_bind, Option.bind_some, bne_iff_ne, ne_eq, hshape, not_false_eq_true, if_true,
    Option.map_some, AList.insert_insert, afterStart, TextureVersions.afterGiveBack]
  simp [VersionState.new]

theorem Counted.takeSpare_kept (h : tv.Counted) (hs : tv.textures.lookup id = some state)
    (hshape : state.shape = shape) :
    tv.takeSpare id shape records seq = some (tv.afterTake id state seq, state.spares.getLast?) := by
  have hentry : tv.entry id shape records seq = some (tv, state) := by
    simp [entry, hs, hshape]
  rw [takeSpare, hentry, Option.bind_eq_bind, Option.bind_some]
  by_cases hnil : state.spares = []
  · simp [hnil, afterTake]
  · have hbytes : state.bytes ≤ tv.parkedBytes := by
      refine le_trans ?_ (h.heldBytes_le hs)
      exact Nat.le_mul_of_pos_right _ (length_pos_iff.mpr hnil)
    have hlast : state.spares.getLast?.isSome = true := by simpa using hnil
    simp [hlast, checkedSub_of_le hbytes, afterTake, hnil]

theorem Counted.afterStart (h : tv.Counted)
    (hempty : ∀ state, tv.textures.lookup id = some state → state.spares = []) :
    (tv.afterStart id shape records seq).Counted where
  parked := h.parked.trans (Lib.Table.total_insert_zero (f := heldBytes) rfl fun state hs ↦ by
    rw [heldBytes, hempty state hs, length_nil, mul_zero]).symm
  capped := h.capped
  doomed := h.doomed
  withSpares := by
    refine mem_withSpares_insert h.withSpares ?_ fun id' hne ↦ ?_
    · simp [TextureVersions.afterStart, VersionState.new]
    · exact Finset.mem_erase.trans (and_iff_right hne)

theorem views_afterStart (hempty : ∀ state, tv.textures.lookup id = some state → state.spares = []) :
    (tv.afterStart id shape records seq).views = tv.views := by
  have htotal : (tv.afterStart id shape records seq).textures.total spareViews =
      tv.textures.total spareViews :=
    Lib.Table.total_insert_zero (f := spareViews) rfl fun state hs ↦ by
      rw [spareViews, hempty state hs]
      rfl
  rw [views, views, htotal, TextureVersions.afterStart]

theorem lookup_afterGiveBack_all {s : VersionState V}
    (h : (tv.afterGiveBack id state state.spares.length).textures.lookup id = some s) : s.spares = [] := by
  simp only [TextureVersions.afterGiveBack, AList.lookup_insert, Option.some.injEq] at h
  rw [← h]
  exact drop_length

theorem Counted.afterTake (h : tv.Counted) (hs : tv.textures.lookup id = some state) :
    (tv.afterTake id state seq).Counted where
  parked := by
    have hupdate := Lib.Table.total_update heldBytes hs
      { state with lastRenameSeq := seq, spares := state.spares.dropLast }
    have hheld : heldBytes { state with lastRenameSeq := seq, spares := state.spares.dropLast } +
        (if state.spares.isEmpty then 0 else state.bytes) = state.heldBytes := by
      simp only [heldBytes, length_dropLast]
      split_ifs with hnil
      · simp [isEmpty_iff.mp hnil]
      · have hpos : 0 < state.spares.length := length_pos_iff.mpr fun hl ↦ hnil (by simp [hl])
        rw [← Nat.mul_succ, Nat.succ_eq_add_one, Nat.sub_add_cancel hpos]
    have hparked := h.parked
    simp only [TextureVersions.afterTake]
    omega
  capped := (Nat.sub_le _ _).trans h.capped
  doomed := h.doomed
  withSpares :=
    h.mem_emptied hs { state with lastRenameSeq := seq, spares := state.spares.dropLast } (by simp +contextual)

theorem views_afterTake (hs : tv.textures.lookup id = some state) :
    (tv.afterTake id state seq).views + (state.spares.getLast?.toList.map Spare.views : List V) = tv.views := by
  have hsplit : spareViews state =
      spareViews { state with lastRenameSeq := seq, spares := state.spares.dropLast } +
        (state.spares.getLast?.toList.map Spare.views : List V) := by
    rw [spareViews, spareViews, Multiset.coe_add, ← map_append]
    cases hlast : state.spares.getLast? with
    | none => simp [List.getLast?_eq_none_iff.mp hlast]
    | some spare => rw [Option.toList_some, dropLast_append_getLast? spare hlast]
  rw [views, views, TextureVersions.afterTake]
  rw [Lib.Table.total_insert, Lib.Table.total_of_lookup spareViews hs, hsplit]
  abel

theorem Tracked.afterTake (h : tv.Tracked) (hs : tv.textures.lookup id = some state) :
    (tv.afterTake id state seq).Tracked :=
  h.of_states (fun _ _ ↦ lookup_insert_epoch hs rfl) rfl rfl

end TakeSpare

theorem Counted.doom (h : tv.Counted) (views : V) (bytes : ℕ) : (tv.doom views bytes).Counted :=
  { h with doomed := by simp [TextureVersions.doom, h.doomed] }

theorem Tracked.doom (h : tv.Tracked) (views : V) (bytes : ℕ) : (tv.doom views bytes).Tracked :=
  { h with }

theorem views_doom (views : V) (bytes : ℕ) : (tv.doom views bytes).views = tv.views + {views} := by
  simp only [TextureVersions.views, TextureVersions.doom, map_append, ← Multiset.coe_add]
  simp [add_assoc]

theorem Counted.setState (h : tv.Counted) (hs : tv.textures.lookup id = some state)
    (hbytes : state'.bytes = state.bytes) (hspares : state'.spares = state.spares)
    (retiring : List (Retiring V)) :
    { tv with textures := tv.textures.insert id state', retiring }.Counted := by
  refine { h with parked := ?_, withSpares := ?_ }
  · refine h.parked.trans (Lib.Table.total_update_eq heldBytes hs ?_).symm
    rw [heldBytes, heldBytes, hbytes, hspares]
  · refine mem_withSpares_insert h.withSpares ?_ fun _ _ ↦ Iff.rfl
    rw [h.mem_iff hs, hspares]

theorem Tracked.setState (h : tv.Tracked) (hs : tv.textures.lookup id = some state)
    (hepoch : state'.epoch = state.epoch) (retiring : List (Retiring V)) :
    { tv with textures := tv.textures.insert id state', retiring }.Tracked :=
  h.of_states (fun _ _ ↦ lookup_insert_epoch hs hepoch) rfl rfl

theorem total_setState (hs : tv.textures.lookup id = some state) (hspares : state'.spares = state.spares) :
    Lib.Table.total spareViews (tv.textures.insert id state') = tv.textures.total spareViews :=
  Lib.Table.total_update_eq spareViews hs (by rw [spareViews, spareViews, hspares])

theorem Counted.retire (h : tv.Counted) (id : TextureId) (views : V) (seq : ℕ) :
    (tv.retire id views seq).Counted := by
  unfold TextureVersions.retire
  split
  · exact { h with }
  · next state hs => refine h.setState hs ?_ ?_ _ <;> rfl

theorem Tracked.retire (h : tv.Tracked) (id : TextureId) (views : V) (seq : ℕ) :
    (tv.retire id views seq).Tracked := by
  unfold TextureVersions.retire
  split
  · exact { h with }
  · next state hs => refine h.setState hs ?_ _; rfl

theorem views_retire (id : TextureId) (views : V) (seq : ℕ) :
    (tv.retire id views seq).views = tv.views + {views} := by
  have hretiring : ((tv.retire id views seq).retiring.map Retiring.views : List V) =
      tv.retiring.map Retiring.views ++ [views] := by
    unfold TextureVersions.retire
    split <;> simp
  have hspares : (tv.retire id views seq).textures.total spareViews = tv.textures.total spareViews := by
    unfold TextureVersions.retire
    split
    · rfl
    · next state hs => exact total_setState hs rfl
  have hdoomed : (tv.retire id views seq).doomed = tv.doomed := by
    unfold TextureVersions.retire
    split <;> rfl
  rw [TextureVersions.views, TextureVersions.views, hretiring, hspares, hdoomed, ← Multiset.coe_add,
    Multiset.coe_singleton]
  abel

/-- Reports of writes reach one state's history and leave the rest of the pool alone. -/
inductive Reports (tv : TextureVersions V) (id : TextureId) : TextureVersions V → Prop
  | unheard : Reports tv id tv
  | heard {state : VersionState V} {history : Option WriteHistory}
      (hs : tv.textures.lookup id = some state) :
      Reports tv id { tv with textures := tv.textures.insert id { state with history } }

theorem noteWrite_reports (tv : TextureVersions V) (id : TextureId) (slice level : ℕ) (rect : TexelRect) :
    Reports tv id (tv.noteWrite id slice level rect) := by
  unfold noteWrite
  split
  · exact .unheard
  · next state hs =>
    split
    · exact .unheard
    · exact .heard hs

theorem noteMipRegeneration_reports (tv : TextureVersions V) (id : TextureId) :
    Reports tv id (tv.noteMipRegeneration id) := by
  unfold noteMipRegeneration
  split
  · exact .unheard
  · next state hs => exact .heard hs

theorem Counted.reports (h : tv.Counted) (hr : Reports tv id tv') : tv'.Counted := by
  cases hr with
  | unheard => exact h
  | heard hs => refine h.setState hs ?_ ?_ tv.retiring <;> rfl

theorem Tracked.reports (h : tv.Tracked) (hr : Reports tv id tv') : tv'.Tracked := by
  cases hr with
  | unheard => exact h
  | heard hs => refine h.setState hs ?_ tv.retiring; rfl

theorem views_reports (hr : Reports tv id tv') : tv'.views = tv.views := by
  cases hr with
  | unheard => rfl
  | heard hs => exact congrArg (_ + · + _) (total_setState hs rfl)

theorem Counted.popRetired (h : tv.Counted) (settled : ℕ) : (tv.popRetired settled).1.Counted := by
  unfold TextureVersions.popRetired
  split
  · exact h
  · split_ifs
    exacts [h, { h with }]

theorem Tracked.popRetired (h : tv.Tracked) (settled : ℕ) : (tv.popRetired settled).1.Tracked := by
  unfold TextureVersions.popRetired
  split
  · exact h
  · split_ifs
    exacts [h, { h with }]

theorem views_popRetired (settled : ℕ) : (tv.popRetired settled).1.views +
    ((tv.popRetired settled).2.toList.map Retiring.views : List V) = tv.views := by
  unfold TextureVersions.popRetired
  split
  · simp
  · next front rest hq =>
    split_ifs
    · simp
    · simp only [views, hq, map_cons, Option.toList_some, map_nil, ← Multiset.cons_coe, ← Multiset.singleton_add]
      abel

/-- A popped version becomes its texture's newest spare or joins the destroy queue. -/
inductive Parks (tv : TextureVersions V) (entry : Retiring V) (failed now : ℕ) : TextureVersions V → Prop
  | dooms (bytes : ℕ) : Parks tv entry failed now (tv.doom entry.views bytes)
  | spares {state : VersionState V} (hs : tv.textures.lookup entry.id = some state)
      (hepoch : state.epoch = entry.epoch) (hcap : tv.parkedBytes + state.bytes ≤ tv.budget.spareCap) :
      Parks tv entry failed now
        { tv with
          parkedBytes := tv.parkedBytes + state.bytes
          withSpares := if state.spares.isEmpty then insert entry.id tv.withSpares else tv.withSpares
          textures := tv.textures.insert entry.id { state with
            spares := state.spares ++ [entry.spare failed now] } }

theorem park_parks (tv : TextureVersions V) (entry : Retiring V) (failed now : ℕ) :
    Parks tv entry failed now (tv.park entry failed now) := by
  unfold park
  split
  · exact .dooms _
  · next state hs =>
    split
    · exact .dooms _
    · next hepoch =>
      split
      · exact .dooms _
      · split
        · exact .dooms _
        · next hcap => exact .spares hs (not_not.mp hepoch) (not_lt.mp hcap)

section Parks

variable {entry : Retiring V} {failed now : ℕ} {tv' : TextureVersions V}

theorem Counted.parks (h : tv.Counted) (hp : Parks tv entry failed now tv') : tv'.Counted := by
  cases hp with
  | dooms bytes => exact h.doom entry.views bytes
  | @spares state hs hepoch hcap =>
    refine { h with parked := ?_, capped := hcap, withSpares := ?_ }
    · set parked := { state with spares := state.spares ++ [_] } with hparked
      have hupdate := Lib.Table.total_update heldBytes hs parked
      have hheld : heldBytes parked = state.heldBytes + state.bytes := by
        simp [heldBytes, hparked, Nat.mul_succ]
      have := h.parked
      dsimp only
      omega
    · refine mem_withSpares_insert h.withSpares ?_ fun id' hne ↦ ?_
      · split_ifs with hempty
        · simp
        · simpa [h.mem_iff hs] using hempty
      · split_ifs
        exacts [Finset.mem_insert.trans (or_iff_right hne), Iff.rfl]

theorem Tracked.parks (h : tv.Tracked) (hp : Parks tv entry failed now tv') : tv'.Tracked := by
  cases hp with
  | dooms bytes => exact h.doom entry.views bytes
  | spares hs => exact h.of_states (fun _ _ ↦ lookup_insert_epoch hs rfl) rfl rfl

theorem views_parks (hp : Parks tv entry failed now tv') : tv'.views = tv.views + {entry.views} := by
  cases hp with
  | dooms bytes => exact views_doom entry.views bytes
  | @spares state hs =>
    set parked := { state with spares := state.spares ++ [_] } with hparked
    have hspares : spareViews parked = state.spareViews + {entry.views} := by
      simp [spareViews, hparked, ← Multiset.coe_add, Retiring.spare]
    rw [views, views, Lib.Table.total_insert, Lib.Table.total_of_lookup spareViews hs, hspares]
    abel

end Parks

def GivesBack (tv tv' : TextureVersions V) : Prop :=
  ∃ id state count, tv.textures.lookup id = some state ∧ count ≤ state.spares.length ∧
    tv' = tv.afterGiveBack id state count

theorem Counted.givesBack (h : tv.Counted) (hg : tv.GivesBack tv') : tv'.Counted := by
  obtain ⟨id, state, count, hs, hcount, rfl⟩ := hg
  exact h.afterGiveBack hs hcount

theorem Tracked.givesBack (h : tv.Tracked) (hg : tv.GivesBack tv') : tv'.Tracked := by
  obtain ⟨id, state, count, hs, hcount, rfl⟩ := hg
  exact h.afterGiveBack hs count

theorem views_givesBack (hg : tv.GivesBack tv') : tv'.views = tv.views := by
  obtain ⟨id, state, count, hs, hcount, rfl⟩ := hg
  exact views_afterGiveBack hs count

end TextureVersions

end Mtld3d
