import Mathlib.Data.List.GetD
import Mtld3d.FrameLatency

namespace Mtld3d

open List

namespace SignalState

/-- Paced presents in ascending order, none after the latest submission. -/
structure Ascending (s : SignalState) : Prop where
  sorted : s.paced.Pairwise (· < ·)
  bounds : ∀ seq ∈ s.paced, 0 < seq ∧ seq ≤ s.latest

variable {s : SignalState}

theorem Ascending.floorOf_le (h : s.Ascending) : s.floorOf ≤ s.latest := by
  obtain ⟨paced, latest, floor, ended⟩ := s
  cases paced with
  | nil => exact Nat.le_refl _
  | cons oldest rest =>
    have := (h.bounds oldest mem_cons_self).2
    simp only [floorOf, List.head?_cons, Option.elim_some]
    simp only at this
    omega

theorem Ascending.floorOf_lt (h : s.Ascending) {seq : ℕ} (hseq : seq ∈ s.paced) : s.floorOf < seq := by
  obtain ⟨paced, latest, floor, ended⟩ := s
  cases paced with
  | nil => cases hseq
  | cons oldest rest =>
    have hpos := (h.bounds oldest mem_cons_self).1
    simp only [floorOf, List.head?_cons, Option.elim_some]
    rcases mem_cons.1 hseq with rfl | hseq
    · omega
    · have := rel_of_pairwise_cons h.sorted hseq
      omega

theorem le_floorOf {n : ℕ} (hlatest : n ≤ s.latest) (hbelow : ∀ seq ∈ s.paced, n < seq) : n ≤ s.floorOf := by
  obtain ⟨paced, latest, floor, ended⟩ := s
  cases paced with
  | nil => exact hlatest
  | cons oldest rest =>
    have := hbelow oldest mem_cons_self
    simp only [floorOf, List.head?_cons, Option.elim_some]
    omega

theorem Ascending.of_sublist (h : s.Ascending) {paced : List ℕ} (hsub : paced.Sublist s.paced) :
    Ascending { s with paced } :=
  ⟨h.sorted.sublist hsub, fun seq hseq ↦ h.bounds seq (hsub.subset hseq)⟩

theorem Ascending.noteSubmission (h : s.Ascending) {seq : ℕ} (hseq : s.latest < seq) (paced : Bool) :
    (s.noteSubmission seq paced).Ascending := by
  by_cases hskip : (s.ended || seq == 0) = true
  · rw [SignalState.noteSubmission, if_pos hskip]
    exact h
  rw [SignalState.noteSubmission, if_neg hskip]
  have hold : ∀ past ∈ s.paced, 0 < past ∧ past ≤ max s.latest seq := fun past hpast ↦
    ⟨(h.bounds past hpast).1, Nat.le_trans (h.bounds past hpast).2 (Nat.le_max_left _ _)⟩
  cases paced with
  | false => exact ⟨h.sorted, hold⟩
  | true =>
    refine ⟨pairwise_append.2 ⟨h.sorted, pairwise_singleton _ _, fun a ha b hb ↦ ?_⟩, fun past hpast ↦ ?_⟩
    · rw [mem_singleton.1 hb]
      exact Nat.lt_of_le_of_lt (h.bounds a ha).2 hseq
    · rcases mem_append.1 hpast with hpast | hpast
      · exact hold past hpast
      · rw [mem_singleton.1 hpast]
        exact ⟨by omega, Nat.le_max_right _ _⟩

end SignalState

namespace FrameWorld

structure Inv (w : FrameWorld) : Prop where
  ascending : w.signal.Ascending
  live : w.signal.ended = false → w.signal.floor = true ∧ w.signal.paced = w.owed ∧
    w.published = w.signal.floorOf
  closed : w.signal.ended = true → w.signal.floor = false ∧ w.signal.paced = []
  below : ∀ seq ∈ w.owed, w.published < seq
  rings : w.latency.Rings w.recorded
  recorded : w.recorded.Pairwise (· < ·)
  requested : ∀ requested, w.latency.requested = some requested → requested ≤ latencyRing
  configured : w.latency.configured ≤ latencyRing
  waiting : ∀ target latency, w.waiting = some (target, latency) →
    target ≠ 0 ∧ target = w.recorded.reverse.getD (latency % latencyRing) 0

theorem inv_new : new.Inv where
  ascending := ⟨Pairwise.nil, nofun⟩
  live := nofun
  closed := fun _ ↦ ⟨rfl, rfl⟩
  below := nofun
  rings := FrameLatency.rings_new 0
  recorded := Pairwise.nil
  requested := nofun
  configured := Nat.zero_le _
  waiting := nofun

variable {w : FrameWorld}

theorem Inv.enforced_le (h : w.Inv) : w.latency.enforced ≤ latencyRing := by
  unfold FrameLatency.enforced enforcedFrameLatency
  split_ifs
  · exact h.configured
  · cases hreq : w.latency.requested with
    | none => decide
    | some requested => exact h.requested requested hreq

theorem publish_mono (w : FrameWorld) (signal : SignalState) : w.published ≤ (w.publish signal).published := by
  unfold publish
  dsimp only
  split_ifs
  · exact Nat.le_max_left _ _
  · exact Nat.le_refl _

theorem Inv.publish (h : w.Inv) {signal : SignalState} {owed : List ℕ} (marks : List (ℕ × ℕ))
    (hasc : signal.Ascending) (hended : signal.ended = w.signal.ended) (hfloor : signal.floor = w.signal.floor)
    (hlive : w.signal.ended = false → signal.paced = owed ∧ w.published ≤ signal.latest)
    (hover : w.signal.ended = true → signal.paced = []) (hbelow : ∀ seq ∈ owed, w.published < seq) :
    Inv { w.publish signal with owed, marks } := by
  have hfl : w.signal.ended = false → (w.publish signal).published = signal.floorOf := by
    intro hon
    obtain ⟨hsame, hle⟩ := hlive hon
    rw [FrameWorld.publish, hfloor, (h.live hon).1]
    exact Nat.max_eq_right (SignalState.le_floorOf hle (hsame ▸ hbelow))
  have hstop : w.signal.ended = true → (w.publish signal).published = w.published := fun hend ↦ by
    rw [FrameWorld.publish, hfloor, (h.closed hend).1]
    rfl
  refine ⟨hasc, fun hon ↦ ?_, fun hend ↦ ?_, fun seq hseq ↦ ?_, h.rings, h.recorded, h.requested, h.configured,
    h.waiting⟩
  · have hon' : w.signal.ended = false := hended ▸ hon
    exact ⟨hfloor.trans (h.live hon').1, (hlive hon').1, hfl hon'⟩
  · have hend' : w.signal.ended = true := hended ▸ hend
    exact ⟨hfloor.trans (h.closed hend').1, hover hend'⟩
  · show (w.publish signal).published < seq
    cases hend : w.signal.ended with
    | true =>
      rw [hstop hend]
      exact hbelow seq hseq
    | false =>
      rw [hfl hend]
      exact hasc.floorOf_lt ((hlive hend).1 ▸ hseq)

theorem Inv.published_le (h : w.Inv) (hon : w.signal.ended = false) : w.published ≤ w.signal.latest := by
  rw [(h.live hon).2.2]
  exact h.ascending.floorOf_le

theorem Inv.note (h : w.Inv) {seq : ℕ} (hseq : w.signal.latest < seq) (paced : Bool) :
    (w.step (.note seq paced)).Inv := by
  by_cases hskip : (w.signal.ended || seq == 0) = true
  · rw [FrameWorld.step, if_pos hskip]
    exact h
  rw [FrameWorld.step, if_neg hskip]
  have hon : w.signal.ended = false := by
    cases he : w.signal.ended
    · rfl
    · simp [he] at hskip
  have hnote : w.signal.noteSubmission seq paced =
      { w.signal with latest := max w.signal.latest seq
                      paced := if paced then w.signal.paced ++ [seq] else w.signal.paced } := by
    rw [SignalState.noteSubmission, if_neg hskip]
  have hle := h.published_le hon
  refine h.publish _ (h.ascending.noteSubmission hseq paced) ?_ ?_ (fun _ ↦ ?_) (fun hend ↦ ?_) fun past hpast ↦ ?_
  · rw [hnote]
  · rw [hnote]
  · rw [hnote, (h.live hon).2.1]
    exact ⟨rfl, Nat.le_trans hle (Nat.le_max_left _ _)⟩
  · rw [hon] at hend
    cases hend
  · split_ifs at hpast
    · rcases mem_append.1 hpast with hpast | hpast
      · exact h.below past hpast
      · rw [mem_singleton.1 hpast]
        omega
    · exact h.below past hpast

theorem Inv.resolved (h : w.Inv) {paced owed : List ℕ} (hpaced : paced.Sublist w.signal.paced)
    (howed : owed.Sublist w.owed) (hlive : w.signal.ended = false → paced = owed) :
    Inv { w.publish { w.signal with paced } with owed } :=
  h.publish w.marks (h.ascending.of_sublist hpaced) rfl rfl
    (fun hon ↦ ⟨hlive hon, h.published_le hon⟩)
    (fun hend ↦ sublist_nil.1 ((h.closed hend).2 ▸ hpaced)) fun seq hseq ↦ h.below seq (howed.subset hseq)

theorem Inv.releaseThrough (h : w.Inv) (seq : ℕ) : (w.releaseThrough seq).Inv :=
  h.resolved filter_sublist filter_sublist fun hon ↦ by rw [(h.live hon).2.1]

theorem Inv.resolve (h : w.Inv) {attachment seq : ℕ} (hown : attachment = w.attachment ∨ seq ∉ w.signal.paced) :
    (w.step (.resolve attachment seq)).Inv := by
  rw [step]
  by_cases hmem : seq ∈ w.signal.paced
  · have hatt : attachment = w.attachment := hown.resolve_right fun hnot ↦ hnot hmem
    rw [if_pos hmem, if_pos hatt, SignalState.resolve, if_pos hmem]
    exact h.resolved erase_sublist erase_sublist fun hon ↦ by rw [(h.live hon).2.1]
  · rw [if_neg hmem]
    refine ⟨h.ascending, fun hon ↦ ?_, h.closed, fun past hpast ↦ h.below past ?_, h.rings, h.recorded, h.requested,
      h.configured, h.waiting⟩
    · obtain ⟨hfloor, hpaced, hpub⟩ := h.live hon
      refine ⟨hfloor, ?_, hpub⟩
      dsimp only
      split_ifs
      · rw [erase_of_not_mem (hpaced ▸ hmem)]
        exact hpaced
      · exact hpaced
    · dsimp only at hpast
      split_ifs at hpast
      · exact mem_of_mem_erase hpast
      · exact hpast

theorem Inv.present (h : w.Inv) {seq : ℕ} (hseq : ∀ past ∈ w.recorded, past < seq) :
    (w.step (.present seq)).Inv where
  ascending := h.ascending
  live := h.live
  closed := h.closed
  below := h.below
  rings := h.rings.recordPresent seq
  recorded := pairwise_append.2 ⟨h.recorded, pairwise_singleton _ _, fun a ha b hb ↦ by
    rw [mem_singleton.1 hb]
    exact hseq a ha⟩
  requested := h.requested
  configured := h.configured
  waiting := fun target latency hwait ↦ by
    obtain ⟨t, ht, heq⟩ := Option.map_eq_some_iff.1 hwait
    cases heq
    exact h.rings.target h.enforced_le ht

theorem Inv.step (h : w.Inv) {op : FrameOp} (hcaller : w.Caller op) (hown : w.OwnMark op) : (w.step op).Inv := by
  cases op with
  | attach configured =>
    exact ⟨⟨Pairwise.nil, nofun⟩, fun _ ↦ ⟨rfl, rfl, rfl⟩, nofun, nofun, FrameLatency.rings_new configured,
      Pairwise.nil, nofun, hcaller, nofun⟩
  | setLatency requested =>
    refine ⟨h.ascending, h.live, h.closed, h.below, ⟨h.rings.length, h.rings.newest_lt, h.rings.back⟩, h.recorded,
      fun r hr ↦ ?_, h.configured, h.waiting⟩
    cases hr
    exact hcaller
  | note seq paced => exact h.note hcaller paced
  | resolve attachment seq => exact h.resolve hown
  | releasePaced => exact h.resolved (nil_sublist _) (nil_sublist _) fun _ ↦ rfl
  | releaseThrough seq => exact h.releaseThrough seq
  | endSignal =>
    exact ⟨⟨Pairwise.nil, nofun⟩, nofun, fun _ ↦ ⟨rfl, rfl⟩, h.below, h.rings, h.recorded, h.requested,
      h.configured, h.waiting⟩
  | retire seq => exact ⟨h.ascending, h.live, h.closed, h.below, h.rings, h.recorded, h.requested, h.configured, h.waiting⟩
  | present seq => exact h.present hcaller.2
  | finish => exact ⟨h.ascending, h.live, h.closed, h.below, h.rings, h.recorded, h.requested, h.configured, nofun⟩
  | giveUp =>
    rw [FrameWorld.step]
    cases hwait : w.waiting with
    | none => exact h
    | some wait =>
      have hr := h.releaseThrough wait.1
      exact ⟨hr.ascending, hr.live, hr.closed, hr.below, hr.rings, hr.recorded, hr.requested, hr.configured, nofun⟩

theorem Inv.run {ops : List FrameOp} {w : FrameWorld} (h : w.Inv)
    (hops : Lib.Admissible (fun w op ↦ w.Caller op ∧ w.OwnMark op) FrameWorld.step w ops) :
    (ops.foldl FrameWorld.step w).Inv := by
  induction ops generalizing w with
  | nil => exact h
  | cons op ops ih => exact ih (h.step hops.1.1 hops.1.2) hops.2

def unfinished (w : FrameWorld) : List ℕ := w.recorded.filter fun seq ↦ w.draw < seq ∨ seq ∈ w.owed

theorem length_filter_above {l : List ℕ} (hl : l.Pairwise (· < ·)) {b t : ℕ} (ht : t ≠ 0)
    (hget : t = l.reverse.getD b 0) : (l.filter (t < ·)).length ≤ b := by
  have hb : b < l.reverse.length := by
    by_contra hge
    rw [getD_eq_default _ _ (Nat.le_of_not_lt hge)] at hget
    exact ht hget
  rw [getD_eq_getElem _ _ hb] at hget
  have hrev : l.reverse.Pairwise (fun x y ↦ y < x) := pairwise_reverse.2 hl
  have hsplit : (l.reverse.filter (t < ·)).length ≤ (l.reverse.take b).length := by
    rw [← take_append_drop b l.reverse] at hrev
    have hdrop : (l.reverse.drop b).filter (t < ·) = [] := by
      rw [filter_eq_nil_iff]
      intro x hx
      rw [drop_eq_getElem_cons hb, ← hget] at hx hrev
      rcases mem_cons.1 hx with rfl | hx
      · simp
      · have := rel_of_pairwise_cons (pairwise_append.1 hrev).2.1 hx
        simp only [decide_eq_true_eq]
        omega
    calc (l.reverse.filter (t < ·)).length
        = (((l.reverse.take b).filter (t < ·)) ++ ((l.reverse.drop b).filter (t < ·))).length := by
          rw [← filter_append, take_append_drop]
      _ ≤ (l.reverse.take b).length := by
          rw [hdrop, append_nil]
          exact length_filter_le _ _
  calc (l.filter (t < ·)).length
      = (l.reverse.filter (t < ·)).length := by rw [filter_reverse, length_reverse]
    _ ≤ (l.reverse.take b).length := hsplit
    _ ≤ b := length_take_le _ _

variable {target latency : ℕ}

theorem Inv.unfinished_le (h : w.Inv) (w' : FrameWorld) (hrecorded : w'.recorded = w.recorded)
    (hwait : w.waiting = some (target, latency)) (hdraw : target ≤ w'.draw)
    (howed : ∀ seq ∈ w'.owed, target < seq) : w'.unfinished.length ≤ latency := by
  obtain ⟨hne, htarget⟩ := h.waiting target latency hwait
  have habove := length_filter_above h.recorded hne htarget
  have hsub : w'.unfinished.length ≤ (w.recorded.filter (target < ·)).length := by
    unfold unfinished
    rw [hrecorded]
    refine Sublist.length_le (monotone_filter_right _ fun seq hseq ↦ ?_)
    simp only [decide_eq_true_eq] at hseq ⊢
    rcases hseq with hseq | hseq
    · omega
    · exact howed seq hseq
  exact Nat.le_trans hsub (Nat.le_trans habove (Nat.mod_le _ _))

theorem Inv.finish_bound (h : w.Inv) (hwait : w.waiting = some (target, latency))
    (hfin : w.Finished target) : (w.step .finish).unfinished.length ≤ latency := by
  have hne := (h.waiting target latency hwait).1
  refine h.unfinished_le (w.step .finish) rfl hwait ?_ fun seq hseq ↦ ?_
  · rcases hfin with ⟨hdraw, -⟩ | ⟨-, hdraw, -⟩
    · exact hdraw.resolve_left hne
    · exact hdraw
  · have hbelow := h.below seq hseq
    rcases hfin with ⟨-, hpub⟩ | ⟨hon, -, hfloor⟩
    · have := hpub.resolve_left hne
      omega
    · have := (h.live hon).2.2
      omega

theorem Inv.giveUp_bound (h : w.Inv) (hwait : w.waiting = some (target, latency))
    (hdraw : target ≤ w.draw) : (w.step .giveUp).unfinished.length ≤ latency := by
  have hstep : w.step .giveUp = { w.releaseThrough target with waiting := none } := by
    rw [FrameWorld.step, hwait]
  rw [hstep]
  refine h.unfinished_le { w.releaseThrough target with waiting := none } rfl hwait hdraw
    fun seq hseq ↦ ?_
  exact of_decide_eq_true (mem_filter.1 hseq).2

theorem published_mono (w : FrameWorld) {op : FrameOp} (hop : ∀ configured, op ≠ .attach configured) :
    w.published ≤ (w.step op).published := by
  cases op with
  | attach configured => exact absurd rfl (hop configured)
  | note seq paced =>
    rw [step]
    by_cases hskip : (w.signal.ended || seq == 0) = true
    · refine Nat.le_of_eq ?_
      rw [if_pos hskip]
    · rw [if_neg hskip]
      exact publish_mono w _
  | resolve attachment seq =>
    rw [step]
    by_cases hmem : seq ∈ w.signal.paced
    · rw [if_pos hmem]
      exact publish_mono w _
    · refine Nat.le_of_eq ?_
      rw [if_neg hmem]
  | releasePaced => exact publish_mono w _
  | releaseThrough seq => exact publish_mono w _
  | giveUp =>
    rw [step]
    cases w.waiting with
    | none => exact Nat.le_refl _
    | some wait => exact publish_mono w _
  | _ => exact Nat.le_refl _

structure Bounded (w : FrameWorld) : Prop where
  /-- The published floor is the largest sequence up to the latest noted with nothing owed at or below it. -/
  floor : w.signal.ended = false → w.published ≤ w.signal.latest ∧ (∀ seq ∈ w.owed, w.published < seq) ∧
    ∀ n ≤ w.signal.latest, (∀ seq ∈ w.owed, n < seq) → n ≤ w.published
  grows : ∀ op, (∀ configured, op ≠ .attach configured) → w.published ≤ (w.step op).published
  /-- A mark of an earlier encoder leaves the presents of this one owed, and the floor where it is. -/
  foreign : ∀ attachment seq, attachment ≠ w.attachment → w.OwnMark (.resolve attachment seq) →
    w.step (.resolve attachment seq) = w
  finished : ∀ target latency, w.waiting = some (target, latency) → w.Finished target →
    (w.step .finish).unfinished.length ≤ latency
  gaveUp : ∀ target latency, w.waiting = some (target, latency) → target ≤ w.draw →
    (w.step .giveUp).unfinished.length ≤ latency

theorem frame_latency_bounded (ops : List FrameOp)
    (hops : Lib.Admissible (fun w op ↦ w.Caller op ∧ w.OwnMark op) step new ops) :
    (ops.foldl step new).Bounded := by
  have h := inv_new.run hops
  generalize ops.foldl step new = w at h
  refine ⟨fun hon ↦ ⟨h.published_le hon, h.below, fun n hn hbelow ↦ ?_⟩, fun op hop ↦ published_mono w hop,
    fun attachment seq hatt hown ↦ ?_, fun target latency hwait hfin ↦ h.finish_bound hwait hfin,
    fun target latency hwait hdraw ↦ h.giveUp_bound hwait hdraw⟩
  · obtain ⟨-, hpaced, hpub⟩ := h.live hon
    rw [hpub]
    exact SignalState.le_floorOf hn (hpaced ▸ hbelow)
  · have hnot : seq ∉ w.signal.paced := hown.resolve_left hatt
    rw [step, if_neg hnot, if_neg hatt]

/-- Two paced presents under a latency of one: the second waits for the first to be shown. -/
theorem frame_latency_bounded_two :
    Lib.Admissible (fun w op ↦ w.Caller op ∧ w.OwnMark op) step new
        [.attach 1, .present 1, .note 1 true, .present 2, .note 2 true, .retire 2, .resolve 1 1] ∧
      ([FrameOp.attach 1, .present 1, .note 1 true, .present 2, .note 2 true, .retire 2, .resolve 1 1].foldl
        step new).Bounded := by
  have hops : Lib.Admissible (fun w op ↦ w.Caller op ∧ w.OwnMark op) step new
      [.attach 1, .present 1, .note 1 true, .present 2, .note 2 true, .retire 2, .resolve 1 1] := by
    refine ⟨⟨?_, trivial⟩, ⟨⟨rfl, nofun⟩, trivial⟩, ⟨?_, trivial⟩, ⟨⟨rfl, ?_⟩, trivial⟩, ⟨?_, trivial⟩,
      ⟨.inr ?_, trivial⟩, ⟨?_, .inl rfl⟩, trivial⟩ <;> decide
  exact ⟨hops, frame_latency_bounded _ hops⟩

/-- A mark of the first encoder, dropped after the second was attached, resolves the second's present of the same
sequence: the floor passes a present that is still owed. -/
theorem stale_mark_resolves :
    Lib.Admissible Caller step new
        [.attach 3, .note 1 true, .endSignal, .attach 3, .note 1 true, .resolve 1 1] ∧
      (([FrameOp.attach 3, .note 1 true, .endSignal, .attach 3, .note 1 true, .resolve 1 1].foldl step new).owed,
        ([FrameOp.attach 3, .note 1 true, .endSignal, .attach 3, .note 1 true, .resolve 1 1].foldl
          step new).published) = ([1], 1) := by
  refine ⟨⟨?_, ?_, trivial, ?_, ?_, ?_, trivial⟩, by decide⟩ <;> decide

end FrameWorld

end Mtld3d
