import Mtld3d.UploadRedirtyRuns

namespace Mtld3d.FeedbackWorld

open List

variable {ι : Type} [DecidableEq ι] (declined : ι → RedirtyEntry) (emitted : ι → EmittedUpload)

def eventOf : ι × UploadOutcome → FeedbackEvent
  | (i, .declined) => .declined (declined i)
  | (i, .emitted) => .emitted (emitted i)

def numbered (published : List (ι × UploadOutcome)) (n : ℕ) : FeedbackEvent :=
  ((published[n - 1]?).map (eventOf declined emitted)).getD default

/-- Number `n` reached its slot, and the event was taken from its lease. -/
def Arrived (w : FeedbackWorld ι) (n : ℕ) : Prop :=
  ∃ i o, (w.leases i).slot o = n ∧ n ≠ 0 ∧ (w.leases i).held o = none

structure Ordered (w : FeedbackWorld ι) : Prop where
  sequence : w.owner.sequence = w.published.length
  slot_published : ∀ i o, (w.leases i).slot o ≠ 0 → w.published[(w.leases i).slot o - 1]? = some (i, o)
  drawn_published : ∀ i o n, (w.leases i).drawn = some (o, n) →
    n ≠ 0 ∧ w.published[n - 1]? = some (i, o) ∧ (w.leases i).slot o = 0
  published_slot : ∀ k i o, w.published[k]? = some (i, o) →
    (w.leases i).slot o = k + 1 ∨ (w.leases i).drawn = some (o, k + 1)
  held : ∀ i o event, (w.leases i).held o = some event → event = eventOf declined emitted (i, o)
  taken : ∀ i o, (w.leases i).held o = none → (w.leases i).slot o ≠ 0
  settled : w.owner.Settled
  order : Lib.Reorder.Holds 1 (numbered declined emitted w.published) w.Arrived w.owner.order w.owner.events
  drained : ¬w.Arrived w.owner.order.next

variable {declined emitted} {w : FeedbackWorld ι}

omit [DecidableEq ι] in
theorem ordered_new : (new declined emitted).Ordered declined emitted where
  sequence := rfl
  slot_published := fun _ _ h ↦ absurd rfl h
  drawn_published := nofun
  published_slot := nofun
  held := fun i o event h ↦ by
    cases o <;> exact (Option.some.inj h).symm
  taken := fun i o h ↦ by
    cases o <;> cases h
  settled := RedirtyOwner.settled_new
  order := by
    have hnone : ∀ n, ¬(new declined emitted).Arrived n := by
      rintro n ⟨i, o, hslot, hn, -⟩
      exact hn hslot.symm
    exact ⟨Nat.le_refl 1, rfl, fun n a ↦ ⟨nofun, fun h ↦ absurd h.1 (hnone n)⟩,
      fun n hn hlt ↦ absurd hn (Nat.not_le_of_lt hlt)⟩
  drained := by
    rintro ⟨i, o, hslot, hn, -⟩
    exact hn hslot.symm

omit [DecidableEq ι] in
theorem arrived_published (h : w.Ordered declined emitted) {n : ℕ} (hn : w.Arrived n) :
    0 < n ∧ n - 1 < w.published.length := by
  obtain ⟨i, o, rfl, hne, -⟩ := hn
  have := h.slot_published i o hne
  exact ⟨Nat.pos_of_ne_zero hne, (List.getElem?_eq_some_iff.1 this).1⟩

@[simp]
theorem leases_setLease (w : FeedbackWorld ι) (i j : ι) (lease : UploadLease) :
    (w.setLease i lease).leases j = if j = i then lease else w.leases j := by
  unfold setLease
  by_cases h : j = i
  · subst h
    simp
  · simp [h]

theorem leases_draw (w : FeedbackWorld ι) (i : ι) (o : UploadOutcome) (j : ι) :
    ((w.draw i o).leases j).slot = (w.leases j).slot ∧ ((w.draw i o).leases j).held = (w.leases j).held := by
  unfold draw
  split_ifs
  · exact ⟨rfl, rfl⟩
  · by_cases hj : j = i
    · subst hj
      simp
    · simp [hj]

omit [DecidableEq ι] in
theorem arrived_congr {w w' : FeedbackWorld ι} (hslot : ∀ j, (w'.leases j).slot = (w.leases j).slot)
    (hheld : ∀ j, (w'.leases j).held = (w.leases j).held) (n : ℕ) : w'.Arrived n ↔ w.Arrived n := by
  simp [Arrived, hslot, hheld]

theorem Ordered.draw (h : w.Ordered declined emitted) (i : ι) (o : UploadOutcome) :
    (w.draw i o).Ordered declined emitted := by
  have harr : ∀ n, (w.draw i o).Arrived n ↔ w.Arrived n :=
    arrived_congr (fun j ↦ (leases_draw w i o j).1) fun j ↦ (leases_draw w i o j).2
  have hslot : ∀ j, ((w.draw i o).leases j).slot = (w.leases j).slot := fun j ↦ (leases_draw w i o j).1
  have hheld : ∀ j, ((w.draw i o).leases j).held = (w.leases j).held := fun j ↦ (leases_draw w i o j).2
  by_cases hskip : ((w.leases i).drawn.isSome || (w.leases i).slot o != 0) = true
  · rw [FeedbackWorld.draw, if_pos hskip]
    exact h
  have hidle : (w.leases i).drawn = none ∧ (w.leases i).slot o = 0 := by simpa using hskip
  have hpub : (w.draw i o).published = w.published ++ [(i, o)] := by rw [FeedbackWorld.draw, if_neg hskip]
  have hown : (w.draw i o).owner = { w.owner with sequence := w.owner.sequence + 1 } := by
    rw [FeedbackWorld.draw, if_neg hskip]
  have hdrawn : ∀ j, ((w.draw i o).leases j).drawn =
      if j = i then some (o, w.published.length + 1) else (w.leases j).drawn := by
    intro j
    rw [FeedbackWorld.draw, if_neg hskip]
    simp only [leases_setLease, h.sequence]
    split_ifs <;> rfl
  -- the numbers given out before still name the same events
  have hgrow : ∀ {k : ℕ} {e : ι × UploadOutcome}, w.published[k]? = some e →
      (w.published ++ [(i, o)])[k]? = some e := by
    intro k e hk
    rw [List.getElem?_append_left (List.getElem?_eq_some_iff.1 hk).1, hk]
  refine ⟨?_, ?_, ?_, ?_, ?_, ?_, ?_, ?_, ?_⟩
  · rw [hown, hpub, length_append, h.sequence]
    rfl
  · intro j p hne
    rw [hslot] at hne ⊢
    rw [hpub]
    exact hgrow (h.slot_published j p hne)
  · intro j p n hj
    rw [hdrawn] at hj
    rw [hpub, hslot]
    split_ifs at hj with hji
    · cases hj
      subst hji
      refine ⟨Nat.succ_ne_zero _, ?_, hidle.2⟩
      rw [Nat.add_sub_cancel, getElem?_concat_length]
    · obtain ⟨hn, hget, hzero⟩ := h.drawn_published j p n hj
      exact ⟨hn, hgrow hget, hzero⟩
  · intro k j p hk
    rw [hpub] at hk
    rw [hslot, hdrawn]
    rcases Nat.lt_or_ge k w.published.length with hlt | hge
    · rw [getElem?_append_left hlt] at hk
      rcases h.published_slot k j p hk with hs | hd
      · exact .inl hs
      · refine .inr ?_
        rw [if_neg (fun hji ↦ by rw [hji, hidle.1] at hd; cases hd)]
        exact hd
    · have hk' : k = w.published.length := by
        have := (List.getElem?_eq_some_iff.1 hk).1
        rw [length_append, length_singleton] at this
        omega
      subst hk'
      rw [getElem?_concat_length] at hk
      cases hk
      exact .inr (if_pos rfl)
  · intro j p event hj
    rw [hheld] at hj
    exact h.held j p event hj
  · intro j p hj
    rw [hheld] at hj
    rw [hslot]
    exact h.taken j p hj
  · rw [hown]
    exact h.settled.congr rfl rfl
  · rw [hown, hpub]
    refine h.order.congr harr fun n hn ↦ ?_
    obtain ⟨-, hlt⟩ := arrived_published h hn
    simp [numbered, getElem?_append_left hlt]
  · rw [hown, harr]
    exact h.drained

theorem leases_store (w : FeedbackWorld ι) (i j : ι) : ((w.store i).leases j).held = (w.leases j).held := by
  unfold store
  cases (w.leases i).drawn with
  | none => rfl
  | some d =>
    simp only [leases_setLease]
    split_ifs with hj
    · rw [hj]
    · rfl

theorem Ordered.store (h : w.Ordered declined emitted) (i : ι) : (w.store i).Ordered declined emitted := by
  cases hd : (w.leases i).drawn with
  | none =>
    rw [FeedbackWorld.store, hd]
    exact h
  | some d =>
    obtain ⟨o, n⟩ := d
    obtain ⟨hn, hget, hzero⟩ := h.drawn_published i o n hd
    have hpub : (w.store i).published = w.published := by rw [FeedbackWorld.store, hd]; rfl
    have hown : (w.store i).owner = w.owner := by rw [FeedbackWorld.store, hd]; rfl
    have hheld := leases_store w i
    have hslot : ∀ j p, ((w.store i).leases j).slot p =
        if j = i ∧ p = o then n else (w.leases j).slot p := by
      intro j p
      rw [FeedbackWorld.store, hd]
      by_cases hj : j = i
      · subst hj
        by_cases hp : p = o <;> simp [hp]
      · simp [hj]
    have hdrawn : ∀ j, ((w.store i).leases j).drawn = if j = i then none else (w.leases j).drawn := by
      intro j
      rw [FeedbackWorld.store, hd]
      simp only [leases_setLease]
      split_ifs <;> rfl
    -- the event just stored is still in its lease
    have hunheld : (w.leases i).held o ≠ none := fun hnone ↦ h.taken i o hnone hzero
    have harr : ∀ m, (w.store i).Arrived m ↔ w.Arrived m := by
      intro m
      simp only [Arrived, hheld, hslot]
      refine exists_congr fun j ↦ exists_congr fun p ↦ ?_
      by_cases hjp : j = i ∧ p = o
      · obtain ⟨rfl, rfl⟩ := hjp
        simp [hunheld]
      · rw [if_neg hjp]
    refine ⟨?_, ?_, ?_, ?_, ?_, ?_, ?_, ?_, ?_⟩
    · rw [hown, hpub]
      exact h.sequence
    · intro j p hne
      rw [hslot] at hne ⊢
      rw [hpub]
      split_ifs at hne ⊢ with hjp
      · obtain ⟨rfl, rfl⟩ := hjp
        exact hget
      · exact h.slot_published j p hne
    · intro j p m hj
      rw [hdrawn] at hj
      split_ifs at hj with hji
      rw [hpub, hslot, if_neg fun hjp ↦ hji hjp.1]
      exact h.drawn_published j p m hj
    · intro k j p hk
      rw [hpub] at hk
      rw [hslot, hdrawn]
      rcases h.published_slot k j p hk with hs | hdr
      · refine .inl ?_
        rw [if_neg ?_]
        · exact hs
        · rintro ⟨rfl, rfl⟩
          omega
      · by_cases hj : j = i
        · subst hj
          rw [hd] at hdr
          cases hdr
          exact .inl (if_pos ⟨rfl, rfl⟩)
        · rw [if_neg fun hjp ↦ hj hjp.1, if_neg hj]
          exact .inr hdr
    · intro j p event hj
      rw [hheld] at hj
      exact h.held j p event hj
    · intro j p hj
      rw [hheld] at hj
      rw [hslot]
      split_ifs
      · exact hn
      · exact h.taken j p hj
    · rw [hown]
      exact h.settled
    · rw [hown, hpub]
      exact h.order.congr harr fun _ _ ↦ rfl
    · rw [hown, harr]
      exact h.drained

theorem leases_applyEvent (w : FeedbackWorld ι) (i : ι) (missed : Bool) (o : UploadOutcome) (j : ι) :
    ((w.applyEvent i missed o).leases j).slot = (w.leases j).slot ∧
      ((w.applyEvent i missed o).leases j).drawn = (w.leases j).drawn := by
  unfold applyEvent
  split_ifs
  · exact ⟨rfl, rfl⟩
  · cases (w.leases i).held o with
    | none => exact ⟨rfl, rfl⟩
    | some event =>
      simp only [leases_setLease]
      split_ifs with hj
      · rw [hj]
        exact ⟨rfl, rfl⟩
      · exact ⟨rfl, rfl⟩

theorem published_applyEvent (w : FeedbackWorld ι) (i : ι) (missed : Bool) (o : UploadOutcome) :
    (w.applyEvent i missed o).published = w.published := by
  unfold applyEvent
  split_ifs
  · rfl
  · cases (w.leases i).held o <;> rfl

theorem Ordered.applyEvent (h : w.Ordered declined emitted) (i : ι) (missed : Bool) (o : UploadOutcome) :
    (w.applyEvent i missed o).Ordered declined emitted := by
  by_cases hskip : (missed || (w.leases i).slot o == 0) = true
  · rw [FeedbackWorld.applyEvent, if_pos hskip]
    exact h
  cases hev : (w.leases i).held o with
  | none =>
    rw [FeedbackWorld.applyEvent, if_neg hskip, hev]
    exact h
  | some event =>
    have hslot0 : (w.leases i).slot o ≠ 0 := by simp at hskip; exact hskip.2
    have hslot := fun j ↦ (leases_applyEvent w i missed o j).1
    have hdrawn := fun j ↦ (leases_applyEvent w i missed o j).2
    have hpub := published_applyEvent w i missed o
    have hown : (w.applyEvent i missed o).owner = w.owner.apply ((w.leases i).slot o) event := by
      rw [FeedbackWorld.applyEvent, if_neg hskip, hev]
    have hheld : ∀ j p, ((w.applyEvent i missed o).leases j).held p =
        if j = i ∧ p = o then none else (w.leases j).held p := by
      intro j p
      rw [FeedbackWorld.applyEvent, if_neg hskip, hev]
      by_cases hj : j = i
      · subst hj
        by_cases hp : p = o <;> simp [hp]
      · simp [hj]
    have hget := h.slot_published i o hslot0
    have hevent : event = numbered declined emitted w.published ((w.leases i).slot o) := by
      rw [h.held i o event hev, numbered, hget]
      rfl
    have hfresh : ¬w.Arrived ((w.leases i).slot o) := by
      rintro ⟨j, p, heq, -, hnone⟩
      have hget' := h.slot_published j p (heq ▸ hslot0)
      rw [heq, hget] at hget'
      cases hget'
      rw [hev] at hnone
      cases hnone
    have harr : ∀ n, (w.applyEvent i missed o).Arrived n ↔ n = (w.leases i).slot o ∨ w.Arrived n := by
      intro n
      simp only [Arrived, hslot, hheld]
      constructor
      · rintro ⟨j, p, heq, hn, hnone⟩
        by_cases hjp : j = i ∧ p = o
        · obtain ⟨rfl, rfl⟩ := hjp
          exact .inl heq.symm
        · rw [if_neg hjp] at hnone
          exact .inr ⟨j, p, heq, hn, hnone⟩
      · rintro (rfl | ⟨j, p, heq, hn, hnone⟩)
        · exact ⟨i, o, rfl, hslot0, if_pos ⟨rfl, rfl⟩⟩
        · refine ⟨j, p, heq, hn, ?_⟩
          split_ifs
          · rfl
          · exact hnone
    obtain ⟨hsettled, hevents, horder, hseq⟩ := h.settled.apply ((w.leases i).slot o) event
    obtain ⟨hholds, hdrained⟩ := (h.order.insert (Nat.pos_of_ne_zero hslot0) hfresh).drain
    rw [← hevent] at hholds hdrained
    refine ⟨?_, ?_, ?_, ?_, ?_, ?_, ?_, ?_, ?_⟩
    · rw [hown, hpub, hseq]
      exact h.sequence
    · intro j p hne
      rw [hslot] at hne ⊢
      rw [hpub]
      exact h.slot_published j p hne
    · intro j p n hj
      rw [hdrawn] at hj
      rw [hpub, hslot]
      exact h.drawn_published j p n hj
    · intro k j p hk
      rw [hpub] at hk
      rw [hslot, hdrawn]
      exact h.published_slot k j p hk
    · intro j p ev hj
      rw [hheld] at hj
      split_ifs at hj
      exact h.held j p ev hj
    · intro j p hj
      rw [hheld] at hj
      rw [hslot]
      split_ifs at hj with hjp
      · obtain ⟨rfl, rfl⟩ := hjp
        exact hslot0
      · exact h.taken j p hj
    · rw [hown]
      exact hsettled
    · rw [hown, hpub, hevents, horder]
      exact hholds.congr harr fun _ _ ↦ rfl
    · rw [hown, horder, harr]
      exact hdrained

theorem Ordered.step (h : w.Ordered declined emitted) (op : FeedbackOp ι) :
    (w.step op).Ordered declined emitted := by
  cases op with
  | draw i o => exact h.draw i o
  | store i => exact h.store i
  | dropNative i =>
    rw [FeedbackWorld.step, dropNative]
    split_ifs
    · exact h.draw i .declined
    · exact h
  | maintain i missedEmitted missedDeclined =>
    exact (h.applyEvent i missedEmitted .emitted).applyEvent i missedDeclined .declined
  | takePending => exact { h with settled := h.settled.takePending }
  | takeReleased => exact { h with settled := h.settled.takeReleased }

theorem Ordered.run (ops : List (FeedbackOp ι)) {w : FeedbackWorld ι} (h : w.Ordered declined emitted) :
    (w.run ops).Ordered declined emitted := by
  induction ops generalizing w with
  | nil => exact h
  | cons op ops ih => exact ih (h.step op)

omit [DecidableEq ι] in
theorem range'_numbered (published : List (ι × UploadOutcome)) {n : ℕ} (hn : n ≤ published.length) :
    (range' 1 n).map (numbered declined emitted published) =
      (published.take n).map (eventOf declined emitted) := by
  apply ext_getElem
  · simp [hn]
  · intro k hk hk'
    have hlt : k < published.length := by
      simp only [length_map, length_range'] at hk
      omega
    simp [numbered, hlt, Nat.add_comm 1 k]

omit [DecidableEq ι] in
theorem Ordered.events_eq (h : w.Ordered declined emitted) :
    w.owner.events = (w.published.map (eventOf declined emitted)).take (w.owner.order.next - 1) := by
  have hle : w.owner.order.next - 1 ≤ w.published.length := by
    by_contra hgt
    obtain ⟨-, hlt⟩ := arrived_published h
      (h.order.arrived_of_lt (w.owner.order.next - 1) (by omega) (by omega))
    omega
  rw [h.order.out_eq, range'_numbered w.published hle, map_take]

omit [DecidableEq ι] in
theorem Ordered.events_all (h : w.Ordered declined emitted)
    (htaken : ∀ i o, (i, o) ∈ w.published → (w.leases i).slot o ≠ 0 ∧ (w.leases i).held o = none) :
    w.owner.events = w.published.map (eventOf declined emitted) := by
  have harrived : ∀ n, w.Arrived n ↔ 1 ≤ n ∧ n < 1 + w.published.length := by
    intro n
    constructor
    · intro hn
      obtain ⟨hpos, hlt⟩ := arrived_published h hn
      omega
    · rintro ⟨hpos, hlt⟩
      have hk : n - 1 < w.published.length := by omega
      obtain ⟨⟨i, o⟩, hio⟩ : ∃ e, w.published[n - 1] = e := ⟨_, rfl⟩
      obtain ⟨hslot, hheld⟩ := htaken i o (hio ▸ getElem_mem hk)
      refine ⟨i, o, ?_, by omega, hheld⟩
      rcases h.published_slot (n - 1) i o (by rw [getElem?_eq_getElem hk, hio]) with hs | hd
      · omega
      · exact absurd (h.drawn_published i o _ hd).2.2 hslot
  rw [h.order.out_all h.drained harrived, range'_numbered w.published (Nat.le_refl _), take_length]

omit [DecidableEq ι] in
theorem Ordered.published_nodup (h : w.Ordered declined emitted) : w.published.Nodup := by
  rw [nodup_iff_injective_get]
  rintro ⟨k, hk⟩ ⟨l, hl⟩ heq
  obtain ⟨⟨i, o⟩, hio⟩ : ∃ e, w.published[k] = e := ⟨_, rfl⟩
  have hkget : w.published[k]? = some (i, o) := by rw [getElem?_eq_getElem hk, hio]
  have hlget : w.published[l]? = some (i, o) := by
    rw [getElem?_eq_getElem hl, ← hio]
    exact congrArg some heq.symm
  rw [Fin.mk.injEq]
  rcases h.published_slot k i o hkget with hs | hd <;> rcases h.published_slot l i o hlget with hs' | hd'
  · omega
  · exact absurd (h.drawn_published i o _ hd').2.2 (by omega)
  · exact absurd (h.drawn_published i o _ hd).2.2 (by omega)
  · rw [hd] at hd'
    cases hd'
    rfl

end Mtld3d.FeedbackWorld

namespace Mtld3d

variable {ι : Type} [DecidableEq ι]

/-- Operations that publish an event of lease `i`. -/
def FeedbackOp.Publishes (i : ι) : FeedbackOp ι → Prop
  | .draw j _ => j = i
  | .store j => j = i
  | .dropNative j => j = i
  | _ => False

/-- Lease `i` is maintained, seeing both slots, after its last publication. -/
def MaintainedAfter (i : ι) (ops : List (FeedbackOp ι)) : Prop :=
  ∃ before after, ops = before ++ .maintain i false false :: after ∧ ∀ op ∈ after, ¬op.Publishes i

namespace FeedbackWorld

variable {w : FeedbackWorld ι} {i : ι}

variable {p : UploadOutcome}

theorem applyEvent_held (w : FeedbackWorld ι) (i : ι) (missed : Bool) (o : UploadOutcome) {j : ι}
    (h : (w.leases j).held p = none) : ((w.applyEvent i missed o).leases j).held p = none := by
  unfold applyEvent
  split_ifs
  · exact h
  · cases hev : (w.leases i).held o with
    | none => exact h
    | some event =>
      simp only [leases_setLease]
      split_ifs with hj
      · subst hj
        by_cases hp : p = o
        · subst hp
          simp
        · simpa [hp] using h
      · exact h

theorem applyEvent_takes (w : FeedbackWorld ι) (i : ι) (o : UploadOutcome) (h : (w.leases i).slot o ≠ 0) :
    ((w.applyEvent i false o).leases i).held o = none := by
  unfold applyEvent
  rw [if_neg (by simpa using h)]
  cases hev : (w.leases i).held o with
  | none => exact hev
  | some event => simp

theorem step_held (op : FeedbackOp ι) (h : (w.leases i).held p = none) :
    ((w.step op).leases i).held p = none := by
  cases op with
  | draw j o => exact (congrFun (leases_draw w j o i).2 p).trans h
  | store j => exact (congrFun (leases_store w j i) p).trans h
  | dropNative j =>
    rw [step, dropNative]
    split_ifs
    · exact (congrFun (leases_draw w j .declined i).2 p).trans h
    · exact h
  | maintain j missedEmitted missedDeclined => exact applyEvent_held _ j _ _ (applyEvent_held w j _ _ h)
  | takePending => exact h
  | takeReleased => exact h

theorem draw_of_ne {j : ι} (hj : j ≠ i) (o : UploadOutcome) : (w.draw j o).leases i = w.leases i := by
  unfold draw
  split_ifs
  · rfl
  · simp [Ne.symm hj]

theorem step_cell {op : FeedbackOp ι} (hop : ¬op.Publishes i) :
    ((w.step op).leases i).slot = (w.leases i).slot ∧ ((w.step op).leases i).drawn = (w.leases i).drawn := by
  cases op with
  | draw j o =>
    rw [step, draw_of_ne hop]
    exact ⟨rfl, rfl⟩
  | store j =>
    have hij : i ≠ j := Ne.symm hop
    rw [step, store]
    cases (w.leases j).drawn with
    | none => exact ⟨rfl, rfl⟩
    | some d => simp [hij]
  | dropNative j =>
    rw [step, dropNative]
    split_ifs
    · rw [draw_of_ne hop]
      exact ⟨rfl, rfl⟩
    · exact ⟨rfl, rfl⟩
  | maintain j missedEmitted missedDeclined =>
    obtain ⟨hs, hd⟩ := leases_applyEvent w j missedEmitted .emitted i
    obtain ⟨hs', hd'⟩ := leases_applyEvent (w.applyEvent j missedEmitted .emitted) j missedDeclined .declined i
    exact ⟨hs'.trans hs, hd'.trans hd⟩
  | takePending => exact ⟨rfl, rfl⟩
  | takeReleased => exact ⟨rfl, rfl⟩

theorem run_quiet {ops : List (FeedbackOp ι)} (hops : ∀ op ∈ ops, ¬op.Publishes i) {w : FeedbackWorld ι} :
    ((w.run ops).leases i).slot = (w.leases i).slot ∧ ((w.run ops).leases i).drawn = (w.leases i).drawn ∧
      ∀ p, (w.leases i).held p = none → ((w.run ops).leases i).held p = none := by
  induction ops generalizing w with
  | nil => exact ⟨rfl, rfl, fun _ h ↦ h⟩
  | cons op ops ih =>
    obtain ⟨hs, hd⟩ := step_cell (w := w) (hops op List.mem_cons_self)
    obtain ⟨hs', hd', hheld⟩ := ih (fun op' h ↦ hops op' (List.mem_cons_of_mem _ h)) (w := w.step op)
    exact ⟨hs'.trans hs, hd'.trans hd, fun p hp ↦ hheld p (step_held op hp)⟩

theorem maintain_takes (w : FeedbackWorld ι) (i : ι) (h : (w.leases i).slot p ≠ 0) :
    ((w.step (.maintain i false false)).leases i).held p = none := by
  cases p with
  | emitted => exact applyEvent_held _ i _ _ (applyEvent_takes w i .emitted h)
  | declined =>
    refine applyEvent_takes _ i .declined ?_
    rw [(leases_applyEvent w i false .emitted i).1]
    exact h

theorem taken_of_maintainedAfter {ops : List (FeedbackOp ι)} (hops : MaintainedAfter i ops)
    (hslot : ((w.run ops).leases i).slot p ≠ 0) : ((w.run ops).leases i).held p = none := by
  obtain ⟨before, after, rfl, hafter⟩ := hops
  rw [run, List.foldl_append, List.foldl_cons, ← run, ← run] at hslot ⊢
  obtain ⟨hs, -, hheld⟩ := run_quiet hafter (w := (w.run before).step (.maintain i false false))
  have hquiet : ¬(FeedbackOp.maintain i false false).Publishes i := id
  obtain ⟨hs', -⟩ := step_cell (w := w.run before) hquiet
  refine hheld p (maintain_takes _ i ?_)
  rwa [hs, hs'] at hslot

/-- What the queue of world `w`, reached by `ops`, has seen of the published events. -/
structure AppliedInOrder (declined : ι → RedirtyEntry) (emitted : ι → EmittedUpload) (ops : List (FeedbackOp ι))
    (w : FeedbackWorld ι) : Prop where
  published_once : w.published.Nodup
  calls_prefix : w.owner.calls.map Prod.fst <+: w.published.map (eventOf declined emitted)
  calls_all : (∀ i, (w.leases i).drawn = none) → (∀ i o, (i, o) ∈ w.published → MaintainedAfter i ops) →
    w.owner.calls.map Prod.fst = w.published.map (eventOf declined emitted)
  /-- Between two emitted uploads of a subresource at most the budget is queued, unless its attempts wrap. -/
  within_budget : NoWrap (w.published.map (eventOf declined emitted)) →
    ∀ s before seg after, w.owner.calls = before ++ seg ++ after →
      (∀ upload queued, (.emitted upload, queued) ∈ seg → upload.subresource ≠ s) →
      seg.countP (Requeues s) ≤ maxRedirtyAttempts
  released : ∀ upload ∈ w.owner.queue.takeReleased.2, ∃ before after,
    w.owner.calls.map Prod.fst = before ++ .emitted upload :: after ∧
      ∀ entry, .declined entry ∈ after → entry.subresource ≠ upload.subresource

theorem feedback_in_order (declined : ι → RedirtyEntry) (emitted : ι → EmittedUpload)
    (ops : List (FeedbackOp ι)) : AppliedInOrder declined emitted ops ((new declined emitted).run ops) := by
  have h : ((new declined emitted).run ops).Ordered declined emitted := ordered_new.run ops
  have hpre := h.events_eq ▸ List.take_prefix _ _
  refine ⟨h.published_nodup, hpre, fun hidle hmaintained ↦ ?_, fun hwrap s before seg after hcalls hseg ↦ ?_,
    fun upload hupload ↦ ?_⟩
  · refine h.events_all fun i o hio ↦ ?_
    obtain ⟨k, hk, hget⟩ := List.getElem_of_mem hio
    have hslot : (((new declined emitted).run ops).leases i).slot o ≠ 0 := by
      rcases h.published_slot k i o (by rw [List.getElem?_eq_getElem hk, hget]) with hs | hd
      · omega
      · rw [hidle i] at hd
        cases hd
    exact ⟨hslot, taken_of_maintainedAfter (hmaintained i o hio) hslot⟩
  · exact h.settled.requeued_le (hwrap.of_prefix hpre) hcalls hseg
  · refine h.settled.releases upload ?_
    unfold RedirtyQueue.takeReleased at hupload
    split_ifs at hupload
    · exact hupload
    · cases hupload

section Wrapped

/-- `n` uploads of one subresource, each declined and maintained. -/
def declineRun (n : ℕ) : List (FeedbackOp ℕ) :=
  (List.range n).flatMap fun i ↦ [.draw i .declined, .store i, .maintain i false false]

theorem applyEvent_of_ne {j : ι} (hj : j ≠ i) (missed : Bool) (o : UploadOutcome) :
    (w.applyEvent j missed o).leases i = w.leases i := by
  unfold applyEvent
  split_ifs
  · rfl
  · cases (w.leases j).held o with
    | none => rfl
    | some event => simp [Ne.symm hj]

theorem store_of_ne {j : ι} (hj : j ≠ i) : (w.store j).leases i = w.leases i := by
  unfold store
  cases (w.leases j).drawn with
  | none => rfl
  | some d => simp [Ne.symm hj]

variable (declined : ℕ → RedirtyEntry) (emitted : ℕ → EmittedUpload)

theorem run_declineRun (n : ℕ) : ∃ w, w = (new declined emitted).run (declineRun n) ∧
    w.published = (List.range n).map (·, .declined) ∧
    (∀ k, n ≤ k → w.leases k = .new (declined k) (emitted k)) ∧
    ∀ k < n, (w.leases k).slot .declined ≠ 0 ∧ (w.leases k).held .declined = none := by
  induction n with
  | zero => exact ⟨_, rfl, rfl, fun _ _ ↦ rfl, nofun⟩
  | succ n ih =>
    obtain ⟨w, hw, hpub, hfresh, htaken⟩ := ih
    have hidle : ¬((w.leases n).drawn.isSome || (w.leases n).slot .declined != 0) = true := by
      simp [hfresh n (Nat.le_refl n), UploadLease.new]
    have hrun : (new declined emitted).run (declineRun (n + 1)) =
        ((w.draw n .declined).store n).step (.maintain n false false) := by
      have hw' : (declineRun n).foldl step (new declined emitted) = w := hw.symm
      rw [declineRun, List.range_succ, List.flatMap_append, run, List.foldl_append, ← declineRun, hw']
      rfl
    have hdrawn : (w.draw n .declined).published = w.published ++ [(n, .declined)] ∧
        ((w.draw n .declined).leases n).drawn = some (.declined, w.owner.sequence + 1) := by
      rw [draw, if_neg hidle]
      simp
    have hslot : (((w.draw n .declined).store n).leases n).slot .declined ≠ 0 := by
      rw [store, hdrawn.2]
      simp
    have hframe : ∀ k, n ≠ k →
        (((w.draw n .declined).store n).step (.maintain n false false)).leases k = w.leases k := by
      intro k hk
      rw [step, applyEvent_of_ne hk, applyEvent_of_ne hk, store_of_ne hk, draw_of_ne hk]
    refine ⟨_, hrun.symm, ?_, fun k hk ↦ ?_, fun k hk ↦ ?_⟩
    · rw [step, published_applyEvent, published_applyEvent, List.range_succ, List.map_append, ← hpub]
      rw [store, hdrawn.2]
      exact hdrawn.1
    · rw [hframe k (by omega)]
      exact hfresh k (by omega)
    · by_cases hkn : n = k
      · subst hkn
        have hquiet : ¬(FeedbackOp.maintain n false false).Publishes n := id
        refine ⟨?_, maintain_takes _ n hslot⟩
        rw [(step_cell hquiet).1]
        exact hslot
      · rw [hframe k hkn]
        exact htaken k (by omega)

end Wrapped

end FeedbackWorld

theorem declineStreak_replicate (entry : RedirtyEntry) (n : ℕ) :
    declineStreak entry.subresource (List.replicate n (.declined entry)) = n := by
  induction n with
  | zero => rfl
  | succ n ih => rw [List.replicate_succ', declineStreak_declined, if_pos rfl, ih]

theorem countP_replicate_succ (entry : RedirtyEntry) (n : ℕ) :
    (annotated (List.replicate (n + 1) (.declined entry))).countP (Requeues entry.subresource) =
      (annotated (List.replicate n (.declined entry))).countP (Requeues entry.subresource) +
        if (n + 1) % 4294967296 ≤ maxRedirtyAttempts then 1 else 0 := by
  rw [List.replicate_succ', annotated_concat, List.countP_append, List.countP_singleton]
  simp [Requeues, queues, declineStreak_replicate]

theorem countP_replicate (entry : RedirtyEntry) {n : ℕ} (h : 4 ≤ n) (hlt : n < 4294967296) :
    (annotated (List.replicate n (.declined entry))).countP (Requeues entry.subresource) = 4 := by
  obtain ⟨m, rfl⟩ := Nat.exists_eq_add_of_le h
  clear h
  induction m with
  | zero =>
    simp only [Nat.add_zero, countP_replicate_succ, maxRedirtyAttempts]
    rfl
  | succ m ih =>
    rw [← Nat.add_assoc, countP_replicate_succ, ih (by omega), Nat.mod_eq_of_lt (by omega),
      if_neg (by unfold maxRedirtyAttempts; omega)]

namespace FeedbackWorld

theorem calls_declineRun (entry : RedirtyEntry) (upload : EmittedUpload) (n : ℕ) :
    ((new (fun _ : ℕ ↦ entry) fun _ ↦ upload).run (declineRun n)).owner.calls =
      annotated (List.replicate n (.declined entry)) := by
  have h : ((new (fun _ : ℕ ↦ entry) fun _ ↦ upload).run (declineRun n)).Ordered _ _ := ordered_new.run _
  obtain ⟨w, rfl, hpub, -, htaken⟩ := run_declineRun (fun _ ↦ entry) (fun _ ↦ upload) n
  have hevents := h.events_all fun i o hio ↦ by
    rw [hpub, List.mem_map] at hio
    obtain ⟨k, hk, heq⟩ := hio
    obtain ⟨rfl, rfl⟩ := Prod.mk.inj heq
    exact htaken _ (List.mem_range.1 hk)
  rw [h.settled.calls_eq, hevents, hpub, List.map_map]
  congr 1
  exact List.eq_replicate_iff.2 ⟨by simp, by simp [eventOf]⟩

/-- A subresource declined 2^32 times in a row, with no emitted upload of it, is queued a fifth time. -/
theorem wrapped_attempts_requeue :
    ((new (fun _ : ℕ ↦ (default : RedirtyEntry)) fun _ ↦ default).run (declineRun 4294967296)).owner.calls.countP
      (Requeues default) = 5 ∧ maxRedirtyAttempts < 5 := by
  refine ⟨?_, by decide⟩
  rw [calls_declineRun]
  have hspent := countP_replicate default (n := 4294967295) (by decide) (by decide)
  rw [show (4294967296 : ℕ) = 4294967295 + 1 from rfl]
  refine (countP_replicate_succ default 4294967295).trans ?_
  rw [hspent]
  rfl

end FeedbackWorld

end Mtld3d
