import Mtld3d.TextureVersionsLedger

namespace Mtld3d

open List TextureVersions

/-- Views as `retire` received them, numbered by the handovers before it. -/
structure Handed (U : Type) where
  serial : ℕ
  views : U

/-- Every operation that changes the pool; a copy plan and the query for a history only read it. -/
inductive VersionOp (U : Type)
  | takeSpare (id : TextureId) (shape : VersionShape) (recordsWrites : Bool) (seq : ℕ)
  | retire (id : TextureId) (views : U) (seq : ℕ)
  | noteWrite (id : TextureId) (slice level : ℕ) (rect : TexelRect)
  | noteMipRegeneration (id : TextureId)
  | popRetired (settled : ℕ)
  | park (popped : ℕ) (failed now : ℕ)
  | noteAllocated (allocated : ℕ) (order : HashOrder)
  | takeDoomed
  | trim (now : ℕ) (order : HashOrder)
  | forgetTexture (id : TextureId)
  | drainVersions (order : HashOrder)

/-- The pool, with what its caller holds and has been given back, and the epochs ever handed out. -/
structure VersionLedger (U : Type) where
  pool : TextureVersions (Handed U)
  handed : ℕ
  hands : List (Retiring (Handed U))
  returned : List (Handed U)
  issued : List ℕ

namespace VersionLedger

variable {U : Type} {l l' : VersionLedger U}

def new (budget : VersionBudget) : VersionLedger U := ⟨.new budget, 0, [], [], []⟩

/-- `none` is an underflow. A position past the popped entries parks nothing. -/
def step (l : VersionLedger U) : VersionOp U → Option (VersionLedger U)
  | .takeSpare id shape recordsWrites seq => do
    let (pool, spare) ← l.pool.takeSpare id shape recordsWrites seq
    some { l with
      pool
      returned := l.returned ++ spare.toList.map Spare.views
      issued := l.issued ++ if l.pool.startsState id shape then [l.pool.nextEpoch] else [] }
  | .retire id views seq =>
    some { l with pool := l.pool.retire id ⟨l.handed, views⟩ seq, handed := l.handed + 1 }
  | .noteWrite id slice level rect => some { l with pool := l.pool.noteWrite id slice level rect }
  | .noteMipRegeneration id => some { l with pool := l.pool.noteMipRegeneration id }
  | .popRetired settled =>
    some { l with
      pool := (l.pool.popRetired settled).1
      hands := l.hands ++ (l.pool.popRetired settled).2.toList }
  | .park popped failed now =>
    match l.hands[popped]? with
    | none => some l
    | some entry => some { l with pool := l.pool.park entry failed now, hands := l.hands.eraseIdx popped }
  | .noteAllocated allocated order => do
    let pool ← l.pool.noteAllocated allocated order
    some { l with pool }
  | .takeDoomed => do
    let (pool, taken) ← l.pool.takeDoomed
    some { l with pool, returned := l.returned ++ taken }
  | .trim now order => do
    let pool ← l.pool.trim now order
    some { l with pool }
  | .forgetTexture id => do
    let pool ← l.pool.forgetTexture id
    some { l with pool }
  | .drainVersions order =>
    some { l with
      pool := (l.pool.drainVersions order).1
      returned := l.returned ++ (l.pool.drainVersions order).2 }

def run (budget : VersionBudget) (ops : List (VersionOp U)) : Option (VersionLedger U) :=
  ops.foldlM step (new budget)

def serials (views : Multiset (Handed U)) : Multiset ℕ := views.map Handed.serial

/-- What holds of the pool and of the versions handed to it, whatever was called before. -/
structure Bookkept (l : VersionLedger U) : Prop where
  parkedBytes_eq : l.pool.parkedBytes =
    l.pool.textures.total fun state ↦ state.bytes * state.spares.length
  parkedBytes_le : l.pool.parkedBytes ≤ l.pool.budget.spareCap
  doomedBytes_eq : l.pool.doomedBytes = (l.pool.doomed.map Prod.snd).sum
  mem_withSpares : ∀ id, id ∈ l.pool.withSpares ↔
    ∃ state, l.pool.textures.lookup id = some state ∧ state.spares ≠ []
  one_idle : ∀ id state, l.pool.textures.lookup id = some state →
    ∃! e, e ∈ l.pool.idle ∧ e.epoch = state.epoch
  idle_id : ∀ id state, l.pool.textures.lookup id = some state →
    ∀ e ∈ l.pool.idle, e.epoch = state.epoch → e.id = id
  issued_nodup : l.issued.Nodup
  epoch_issued : ∀ id state, l.pool.textures.lookup id = some state → state.epoch ∈ l.issued
  epoch_inj : ∀ id id' state state', l.pool.textures.lookup id = some state →
    l.pool.textures.lookup id' = some state' → state.epoch = state'.epoch → id = id'
  scans : ∀ id state history, l.pool.textures.lookup id = some state → state.history = some history →
    ∀ grid ∈ history.grids, ∀ held, (grid.writtenSince held).isSome
  one_place :
    serials (U := U) (l.pool.retiring.map Retiring.views) + serials (U := U) (l.hands.map Retiring.views) +
      serials (U := U) (l.pool.textures.total VersionState.spareViews) +
      serials (U := U) (l.pool.doomed.map Prod.fst) + serials (U := U) l.returned =
    Multiset.range l.handed

structure Inv (l : VersionLedger U) : Prop where
  pool : l.pool.Inv
  places : serials (l.pool.views + (l.hands.map Retiring.views : Multiset (Handed U)) +
    (l.returned : Multiset (Handed U))) = Multiset.range l.handed
  nodup : l.issued.Nodup
  issued_lt : ∀ e ∈ l.issued, e < l.pool.nextEpoch
  epoch_issued : ∀ id state, l.pool.textures.lookup id = some state → state.epoch ∈ l.issued

theorem Inv.bookkept (h : l.Inv) : l.Bookkept where
  parkedBytes_eq := h.pool.counted.parked
  parkedBytes_le := h.pool.counted.capped
  doomedBytes_eq := h.pool.counted.doomed
  mem_withSpares := h.pool.counted.withSpares
  one_idle id state hs := by
    obtain ⟨e, hset, -⟩ := h.pool.tracked.idle id state hs
    have hmem : ∀ e', e' ∈ l.pool.idle ∧ e'.epoch = state.epoch ↔ e' = e := fun e' ↦
      Finset.mem_filter.symm.trans (hset ▸ Finset.mem_singleton)
    exact ⟨e, (hmem e).mpr rfl, fun e' he' ↦ (hmem e').mp he'⟩
  idle_id id state hs e he hepoch := (h.pool.tracked.entry_eq he hs hepoch).2
  issued_nodup := h.nodup
  epoch_issued := h.epoch_issued
  epoch_inj _ _ _ _ hs hs' := h.pool.tracked.id_eq hs hs'
  scans id state history hs hh grid hgrid held := by
    obtain ⟨dirty, heq, -⟩ := ((h.pool.fits id state history hs hh).wellFormed grid hgrid).writtenSince held
    rw [heq]
    rfl
  one_place := by
    rw [← h.places, views]
    simp only [serials, Multiset.map_add]
    abel

theorem Inv.pools (h : l.Inv) {pool : TextureVersions (Handed U)} (hr : l.pool.Reclaimed pool) :
    { l with pool }.Inv where
  pool := hr.inv
  places := by
    rw [← h.places, ← hr.views]
  nodup := h.nodup
  issued_lt := by
    rw [hr.nextEpoch]
    exact h.issued_lt
  epoch_issued id state' hs' := by
    obtain ⟨state, hs, hk⟩ := hr.kept id state' hs'
    rw [hk.epoch]
    exact h.epoch_issued id state hs

theorem new_inv (budget : VersionBudget) : (new budget : VersionLedger U).Inv where
  pool := TextureVersions.new_inv budget
  places := rfl
  nodup := nodup_nil
  issued_lt _ he := by simp [new] at he
  epoch_issued _ _ hs := by simp [new, TextureVersions.new] at hs

theorem Inv.of_pool (h : l.Inv) {l' : VersionLedger U} (hpool : l'.pool.Inv)
    (hplaces : serials (l'.pool.views + (l'.hands.map Retiring.views : Multiset (Handed U)) +
      (l'.returned : Multiset (Handed U))) = Multiset.range l'.handed)
    (hissued : l'.issued = l.issued) (hnext : l'.pool.nextEpoch = l.pool.nextEpoch)
    (hstates : ∀ id state', l'.pool.textures.lookup id = some state' →
      ∃ state, l.pool.textures.lookup id = some state ∧ state'.epoch = state.epoch) : l'.Inv where
  pool := hpool
  places := hplaces
  nodup := hissued ▸ h.nodup
  issued_lt := by
    rw [hissued, hnext]
    exact h.issued_lt
  epoch_issued id state' hs' := by
    obtain ⟨state, hs, hepoch⟩ := hstates id state' hs'
    rw [hissued, hepoch]
    exact h.epoch_issued id state hs

theorem Inv.takeSpare (h : l.Inv) (id : TextureId) (shape : VersionShape) (records : Bool) (seq : ℕ) :
    ∃ l', l.step (.takeSpare id shape records seq) = some l' ∧ l'.Inv := by
  obtain ⟨pool, spare, heq, ht⟩ := h.pool.counted.takeSpare id shape records seq
  obtain ⟨hinv, hviews, -, hnext⟩ := h.pool.takes ht
  rw [step, heq, Option.bind_eq_bind, Option.bind_some]
  refine ⟨_, rfl, hinv, ?_, ?_, ?_, ?_⟩
  · rw [← h.places, ← hviews, ← Multiset.coe_add]
    simp only [serials, Multiset.map_add]
    abel
  · refine nodup_append.mpr ⟨h.nodup, by split_ifs <;> simp, fun e he e' he' ↦ ?_⟩
    split_ifs at he' with hstarts
    · rw [mem_singleton.mp he']
      exact (h.issued_lt e he).ne
    · cases he'
  · intro e he
    dsimp only at he ⊢
    rw [hnext]
    obtain he | he := mem_append.mp he
    · exact Nat.lt_add_right _ (h.issued_lt e he)
    · split_ifs at he ⊢ with hstarts
      · rw [mem_singleton.mp he]
        omega
      · cases he
  · intro id' state' hs'
    dsimp only at hs' ⊢
    cases ht with
    | starts hstarts hrun hempty =>
      have hreclaimed := h.pool.reclaimed_run TextureVersions.Inv.givesBack hrun
      rw [if_pos hstarts]
      by_cases hid : id' = id
      · subst hid
        rw [afterStart, AList.lookup_insert] at hs'
        obtain rfl := Option.some.inj hs'
        refine mem_append_right _ (mem_singleton.mpr ?_)
        exact hreclaimed.nextEpoch
      · rw [afterStart, AList.lookup_insert_ne hid] at hs'
        obtain ⟨state, hs, hk⟩ := hreclaimed.kept id' state' hs'
        rw [hk.epoch]
        exact mem_append_left _ (h.epoch_issued id' state hs)
    | takes hstarts hs hshape =>
      obtain ⟨state, hs, hk⟩ := kept_afterTake hs id' state' hs'
      rw [hk.epoch]
      exact mem_append_left _ (h.epoch_issued id' state hs)

theorem Inv.retire (h : l.Inv) (id : TextureId) (views : U) (seq : ℕ) :
    { l with pool := l.pool.retire id ⟨l.handed, views⟩ seq, handed := l.handed + 1 }.Inv := by
  refine h.of_pool (h.pool.retire id _ seq) ?_ rfl ?_ fun id' state' hs' ↦ ?_
  · dsimp only
    rw [views_retire, Multiset.range_succ, ← h.places]
    simp only [serials, Multiset.map_add, Multiset.map_singleton, ← Multiset.singleton_add]
    abel
  · dsimp only
    unfold TextureVersions.retire
    split <;> rfl
  · dsimp only at hs'
    unfold TextureVersions.retire at hs'
    split at hs'
    · exact ⟨state', hs', rfl⟩
    · next state hs => exact lookup_insert_epoch hs (by rfl) hs'

theorem Inv.reports (h : l.Inv) {id : TextureId} {pool : TextureVersions (Handed U)} (hinv : pool.Inv)
    (hr : l.pool.Reports id pool) : { l with pool }.Inv := by
  refine h.of_pool hinv ?_ rfl ?_ fun id' state' hs' ↦ ?_
  · dsimp only
    rw [views_reports hr, h.places]
  · cases hr <;> rfl
  · cases hr with
    | unheard => exact ⟨state', hs', rfl⟩
    | heard hs => exact lookup_insert_epoch hs (by rfl) hs'


theorem Inv.popRetired (h : l.Inv) (settled : ℕ) :
    { l with
      pool := (l.pool.popRetired settled).1
      hands := l.hands ++ (l.pool.popRetired settled).2.toList }.Inv := by
  refine h.of_pool (h.pool.popRetired settled) ?_ rfl ?_ fun id' state' hs' ↦ ?_
  · rw [← h.places, ← l.pool.views_popRetired settled, map_append, ← Multiset.coe_add]
    simp only [serials, Multiset.map_add]
    abel
  · dsimp only
    unfold TextureVersions.popRetired
    split
    · rfl
    · split_ifs <;> rfl
  · exact ⟨state', popRetired_textures settled ▸ hs', rfl⟩

theorem Inv.park (h : l.Inv) {popped : ℕ} {entry : Retiring (Handed U)} (hentry : l.hands[popped]? = some entry)
    (failed now : ℕ) :
    { l with pool := l.pool.park entry failed now, hands := l.hands.eraseIdx popped }.Inv := by
  have hparks := l.pool.park_parks entry failed now
  refine h.of_pool (h.pool.parks hparks) ?_ rfl ?_ fun id' state' hs' ↦ ?_
  · have hhands : ((l.hands.map Retiring.views : List (Handed U)) : Multiset (Handed U)) =
        {entry.views} + ((l.hands.eraseIdx popped).map Retiring.views : List (Handed U)) := by
      obtain ⟨hlt, rfl⟩ := List.getElem?_eq_some_iff.mp hentry
      rw [Multiset.singleton_add, Multiset.cons_coe, Multiset.coe_eq_coe, ← map_cons]
      exact (getElem_cons_eraseIdx_perm hlt).symm.map _
    rw [← h.places, hhands, views_parks hparks]
    simp only [serials, Multiset.map_add]
    abel
  · generalize l.pool.park entry failed now = pool at hparks
    cases hparks <;> rfl
  · generalize l.pool.park entry failed now = pool at hparks hs'
    cases hparks with
    | dooms bytes => exact ⟨state', hs', rfl⟩
    | spares hs => exact lookup_insert_epoch hs (by rfl) hs'

/-- No operation underflows, and each keeps the books. -/
theorem Inv.step (h : l.Inv) (op : VersionOp U) : ∃ l', l.step op = some l' ∧ l'.Inv := by
  cases op with
  | takeSpare id shape records seq => exact h.takeSpare id shape records seq
  | retire id views seq => exact ⟨_, rfl, h.retire id views seq⟩
  | noteWrite id slice level rect =>
    exact ⟨_, rfl, h.reports (h.pool.noteWrite id slice level rect)
      (noteWrite_reports l.pool id slice level rect)⟩
  | noteMipRegeneration id =>
    exact ⟨_, rfl, h.reports (h.pool.noteMipRegeneration id)
      (noteMipRegeneration_reports l.pool id)⟩
  | popRetired settled => exact ⟨_, rfl, h.popRetired settled⟩
  | park popped failed now =>
    rw [VersionLedger.step]
    cases hentry : l.hands[popped]? with
    | none => exact ⟨l, rfl, h⟩
    | some entry => exact ⟨_, rfl, h.park hentry failed now⟩
  | noteAllocated allocated order =>
    obtain ⟨pool, heq, hr⟩ := h.pool.noteAllocated allocated order
    exact ⟨_, by rw [VersionLedger.step, heq, Option.bind_eq_bind, Option.bind_some], h.pools hr⟩
  | takeDoomed =>
    obtain ⟨pool, taken, heq, hinv, hviews, hkept, -, hnext⟩ := h.pool.takeDoomed
    refine ⟨_, by rw [VersionLedger.step, heq, Option.bind_eq_bind, Option.bind_some], ?_⟩
    refine h.of_pool hinv ?_ rfl hnext fun id state' hs' ↦ ?_
    · rw [← h.places, ← hviews, ← Multiset.coe_add]
      simp only [serials, Multiset.map_add]
      abel
    · obtain ⟨state, hs, hk⟩ := hkept id state' hs'
      exact ⟨state, hs, hk.epoch⟩
  | trim now order =>
    obtain ⟨pool, heq, hr⟩ := h.pool.trim now order
    exact ⟨_, by rw [VersionLedger.step, heq, Option.bind_eq_bind, Option.bind_some], h.pools hr⟩
  | forgetTexture id =>
    obtain ⟨pool, heq, hr⟩ := h.pool.forgetTexture id
    exact ⟨_, by rw [VersionLedger.step, heq, Option.bind_eq_bind, Option.bind_some], h.pools hr⟩
  | drainVersions order =>
    obtain ⟨hinv, hkept, hnext⟩ := h.pool.drainVersions order
    obtain ⟨-, hviews, hall⟩ := h.pool.counted.drainVersions order
    refine ⟨_, rfl, h.of_pool hinv ?_ rfl hnext fun id state' hs' ↦ ?_⟩
    · dsimp only
      rw [← h.places, hviews, ← hall, ← Multiset.coe_add]
      simp only [serials, Multiset.map_add, Multiset.map_zero]
      abel
    · obtain ⟨state, hs, hk⟩ := hkept id state' hs'
      exact ⟨state, hs, hk.epoch⟩

theorem Inv.run (h : l.Inv) (ops : List (VersionOp U)) :
    ∃ l', ops.foldlM VersionLedger.step l = some l' ∧ l'.Inv := by
  induction ops generalizing l with
  | nil => exact ⟨l, rfl, h⟩
  | cons op ops ih =>
    obtain ⟨l₁, hstep, h₁⟩ := h.step op
    obtain ⟨l', hrun, h'⟩ := ih h₁
    exact ⟨l', by rw [foldlM_cons, hstep]; exact hrun, h'⟩

/-- Whatever is called, and in whatever order, no subtraction underflows, the counters agree with the
queues, each state waits for one look under an epoch of its own, and every version handed to `retire`
stands in exactly one place. -/
theorem bookkept_run (budget : VersionBudget) (ops : List (VersionOp U)) :
    ∃ l, run budget ops = some l ∧ l.Bookkept := by
  obtain ⟨l, hrun, h⟩ := (new_inv budget).run ops
  exact ⟨l, hrun, h.bookkept⟩

end VersionLedger

end Mtld3d
