import Mathlib.Algebra.GroupWithZero.Nat
import Mtld3d.PacketRetirementRuns

namespace Mtld3d

open List Lib

namespace RetirementWorld

variable {w w' : RetirementWorld} {nodes : List CellId}

def AllPublished (w : RetirementWorld) : Prop := ∀ c, (w.cells c).queue = true → (w.cells c).complete &&& 3 ≠ 0

def stuck (w : RetirementWorld) (p : FramePacket) : Bool :=
  p.recordingError || !p.admitted || (w.cells (.packet p.id)).complete &&& 3 == 2

theorem stuck_not_canRetire {p : FramePacket} (hcancelled : p.cancelled = false) (h : w.stuck p = true) :
    p.canRetireLeases w.cells = false := by
  rw [stuck, Bool.or_eq_true, Bool.or_eq_true] at h
  rw [FramePacket.canRetireLeases, hcancelled, Bool.false_or]
  obtain (herror | hadmitted) | hrejected := h
  · rw [herror]
    rfl
  · rw [Bool.not_eq_true'] at hadmitted
    rw [hadmitted, Bool.false_and, Bool.and_false]
  · rw [FramePacket.wasRejected, FramePacket.replayConsumed, LeaseCompletion.wasRejected, hrejected, Bool.and_true]
    cases (w.cells (.packet p.id)).isComplete <;> simp

theorem canRetire_of_consumed {p : FramePacket} (hcancelled : p.cancelled = false)
    (hconsumed : (w.cells (.packet p.id)).isComplete = true) : p.canRetireLeases w.cells = !w.stuck p := by
  rw [FramePacket.canRetireLeases, stuck, hcancelled, Bool.false_or, FramePacket.wasRejected,
    FramePacket.replayConsumed, LeaseCompletion.wasRejected, hconsumed, Bool.true_and, Bool.and_true, Bool.not_or,
    Bool.not_or, Bool.not_not, Bool.and_assoc]

theorem Inv.all_consumed (h : Inv w.head [] w) (hpublished : w.AllPublished) (hlinked : Linked w.next w.head [])
    {c : CellId} (hc : (w.cells c).queue = true) : (w.cells c).isComplete = true := by
  obtain ⟨nodes, hnodes, -, hready⟩ := h.queue.linked
  obtain rfl := hnodes.unique hlinked
  by_contra hopen
  obtain hzero | hr := (LeaseCompletion.Open.unpublished_or_ready ⟨hc, Bool.not_eq_true _ ▸ hopen⟩
    (h.queue.shape c hc).1)
  · exact hpublished c hc (by rw [hzero]; rfl)
  · exact absurd ((hready c).2 hr) not_mem_nil

theorem Inv.no_entries (h : Inv w.head [] w) (hpublished : w.AllPublished) (hlinked : Linked w.next w.head []) :
    items w.entries = [] := by
  rw [eq_nil_iff_forall_not_mem]
  intro lease hmem
  obtain ⟨p, hentry⟩ := mem_items.1 hmem
  have hbusy := (h.registry.entry p lease hentry).2.1
  have hdone : lease.maintain w.cells = true := by
    refine PacketLease.maintain_of_reusable fun s hs ↦ PacketLease.reusable_iff.2 fun final ↦ ?_
    have hlive : s ∈ w.live := mem_flatMap.2
      ⟨lease, mem_append_right _ (mem_append_right _ hmem), hs⟩
    cases hqueue : (w.cells (.slot s final)).queue with
    | true => exact h.all_consumed hpublished hlinked hqueue
    | false => exact h.cell.idle s final (h.lt_allocated (mem_append_left _ hlive)) hqueue
  rw [hdone] at hbusy
  cases hbusy

theorem Passed.allPublished {budget : ℕ} (hpassed : Passed budget nodes w w') (h : w.AllPublished) :
    w'.AllPublished := by
  intro c hc
  rw [hpassed.published]
  exact h c (hpassed.queue c ▸ hc)

theorem Passed.stuck_iff {budget : ℕ} (hpassed : Passed budget nodes w w') (p : FramePacket) :
    w'.stuck p = w.stuck p := by
  rw [stuck, stuck, hpassed.published]

/-- Passes that together may consume the whole queue leave no lease but those of frames still to be submitted
and of the packets the code keeps. -/
theorem Inv.passes {budgets : List ℕ} (hbudgets : budgets ≠ []) (h : Inv w.head [] w) (hpublished : w.AllPublished)
    (hlinked : Linked w.next w.head nodes) (henough : nodes.length ≤ budgets.sum) :
    ∃ w', budgets.foldlM RetirementWorld.maintain w = some w' ∧ Inv w'.head [] w' ∧ w'.retired = [] ∧
      w'.allocated = w.allocated ∧
      w'.leases = w.recording ++ (w.submitting ++ w.pending.filter w.stuck).flatMap (·.leases) := by
  induction budgets generalizing w nodes with
  | nil => exact absurd rfl hbudgets
  | cons budget budgets ih =>
    obtain ⟨w₁, hmaintain, hpassed⟩ := h.maintain budget hlinked
    have hpublished₁ := hpassed.allPublished hpublished
    by_cases hlast : budgets = []
    · subst hlast
      have hempty : Linked w₁.next w₁.head [] := by
        have hdrop : nodes.drop budget = [] := drop_eq_nil_of_le (by simpa using henough)
        exact hdrop ▸ hpassed.linked
      refine ⟨w₁, ?_, hpassed.inv, hpassed.retired, hpassed.allocated, ?_⟩
      · rw [foldlM_cons, hmaintain]
        rfl
      · have hstay : w₁.pending = w.pending.filter w.stuck := by
          rw [hpassed.pending]
          refine filter_congr fun p hp ↦ ?_
          obtain ⟨-, hqueue, hcancelled⟩ := h.packet.known p (mem_append_right _ hp)
          have hconsumed := hpassed.inv.all_consumed hpublished₁ hempty ((hpassed.queue _).trans hqueue)
          rw [canRetire_of_consumed hcancelled hconsumed, Bool.not_not, hpassed.stuck_iff]
        rw [leases, hpassed.inv.no_entries hpublished₁ hempty, append_nil, hpassed.recording,
          hpassed.submitting, hstay]
    · have hmore : (nodes.drop budget).length ≤ budgets.sum := by
        rw [length_drop]
        rw [sum_cons] at henough
        omega
      obtain ⟨w₂, hfold, hinv, hretired, hallocated, hleases⟩ := ih hlast hpassed.inv hpublished₁ hpassed.linked hmore
      refine ⟨w₂, ?_, hinv, hretired, hallocated.trans hpassed.allocated, hleases.trans ?_⟩
      · rw [foldlM_cons, hmaintain]
        exact hfold
      · have hstay : w₁.pending.filter w₁.stuck = w.pending.filter w.stuck := by
          rw [hpassed.pending, filter_filter]
          refine filter_congr fun p hp ↦ ?_
          rw [hpassed.stuck_iff]
          cases hstuck : w.stuck p with
          | false => rfl
          | true =>
            have hcancelled := (h.packet.known p (mem_append_right _ hp)).2.2
            rw [stuck_not_canRetire hcancelled ((hpassed.stuck_iff p).trans hstuck)]
            rfl
        rw [hpassed.recording, hpassed.submitting, hstay]

theorem Inv.rejected_stays (h : Inv w.head [] w) {p : FramePacket} (hp : p ∈ w.pending) (hstuck : w.stuck p = true)
    {budgets : List ℕ} (hfold : budgets.foldlM RetirementWorld.maintain w = some w') : p ∈ w'.pending := by
  induction budgets generalizing w with
  | nil =>
    cases hfold
    exact hp
  | cons budget budgets ih =>
    obtain ⟨nodes, hlinked, -⟩ := h.queue.linked
    obtain ⟨w₁, hmaintain, hpassed⟩ := h.maintain budget hlinked
    rw [foldlM_cons, hmaintain] at hfold
    have hstuck₁ := (hpassed.stuck_iff p).trans hstuck
    refine ih hpassed.inv ?_ hstuck₁ hfold
    rw [hpassed.pending]
    refine mem_filter.2 ⟨hp, ?_⟩
    rw [stuck_not_canRetire (h.packet.known p (mem_append_right _ hp)).2.2 hstuck₁]
    rfl

def rejectedPacket : FramePacket := ⟨0, [.query 0], true, false, false⟩

def recordedFrame : RetirementWorld :=
  { { new with allocated := 1 }.reset 0 false with recording := [.query 0] }

def rejectedFrame : RetirementWorld :=
  { (((recordedFrame.sealFrame [.query 0] [] false).markAdmitted 0).publish (.slot 0 true) 1).publish (.packet 0) 2 with
    submitting := []
    pending := [rejectedPacket] }

theorem rejectedFrame_reached : rejectedFrame.Reached := by
  have hrecorded : recordedFrame.Reached := .tail .refl (.capture .query rfl)
  have hseal : Step recordedFrame (recordedFrame.sealFrame [.query 0] [] false) := .sealFrame false (.refl _)
  have hsealed := hrecorded.tail hseal
  have hadmitted := hsealed.tail (.markAdmitted 0)
  have hfinal := hadmitted.tail (.publish (c := .slot 0 true) false ⟨by decide, by decide⟩)
  have hreplay := hfinal.tail (.publish (c := .packet 0) true ⟨rejectedPacket, mem_cons_self, rfl⟩)
  exact hreplay.tail (.submitted (i := 0) (p := rejectedPacket) false 4096 rfl rfl)

theorem rejectedFrame_published : rejectedFrame.AllPublished := by
  intro c hc
  by_cases hpacket : c = .packet 0
  · subst hpacket
    decide
  · by_cases hfinal : c = .slot 0 true
    · subst hfinal
      decide
    · exfalso
      cases c with
      | packet id =>
        cases id with
        | zero => exact hpacket rfl
        | succ id => cases hc
      | slot s final =>
        cases s with
        | zero =>
          cases final with
          | true => exact hfinal rfl
          | false => cases hc
        | succ s => cases hc

/-- Every notification of this frame is published, and no number of passes retires its lease. -/
theorem rejected_lease_remains : rejectedFrame.Reached ∧ rejectedFrame.AllPublished ∧ rejectedFrame.recording = [] ∧
    rejectedFrame.submitting = [] ∧
      ∀ (budgets : List ℕ) (w' : RetirementWorld),
        budgets.foldlM RetirementWorld.maintain rejectedFrame = some w' → w'.leases ≠ [] := by
  refine ⟨rejectedFrame_reached, rejectedFrame_published, rfl, rfl, fun budgets w' hfold hnone ↦ ?_⟩
  have hstays : rejectedPacket ∈ w'.pending :=
    rejectedFrame_reached.inv.rejected_stays mem_cons_self (by decide) hfold
  have hlease : PacketLease.query 0 ∈ w'.leases :=
    mem_append_right _ (mem_append_left _
      (mem_flatMap.2 ⟨rejectedPacket, mem_append_right _ hstays, mem_cons_self⟩))
  rw [hnone] at hlease
  cases hlease

/-- In every state any interleaving reaches: the queue links exactly the cells published and not consumed, each
under its own token; a cell was given to the consumer once for each time it was put in use, but for one not yet
consumed; a drain of any budget hands out the front of the queue and keeps the rest; a slot was retired once
for each allocation, but for one some lease still holds, and only with both its cells consumed, so that no slot
is allocated with a cell unpublished or queued; no assertion of a drain, a pass or a submission fails; and once
every notification is published, passes whose budgets cover the queue leave no lease and no slot in use but
those of frames still to be submitted and of packets that failed in recording, were not admitted or were
rejected. -/
theorem completions_exactly_once (h : w.Reached) :
    (∃ nodes, Linked w.next w.head nodes ∧ nodes.Nodup ∧ (∀ c, c ∈ nodes ↔ (w.cells c).Ready) ∧
      (∀ c ∈ nodes, (w.cells c).token = c.token) ∧
      (∀ budget, ∃ w', w.drain budget = some w' ∧ Linked w'.next w'.head (nodes.drop budget) ∧
        w'.given = (nodes.take budget).reverse ++ w.given) ∧
      (w.AllPublished → ∀ budgets : List ℕ, budgets ≠ [] → nodes.length ≤ budgets.sum →
        ∃ w', budgets.foldlM RetirementWorld.maintain w = some w' ∧
          w'.leases = w.recording ++ (w.submitting ++ w.pending.filter w.stuck).flatMap (·.leases) ∧
          ∀ s < w.allocated, s ∈ w'.free ∨ s ∈ w'.live)) ∧
    (∀ c, w.given.count c + (if (w.cells c).Open then 1 else 0) = w.opened.count c) ∧
    (∀ s, w.returned.count s + w.live.count s = w.leased.count s) ∧
    (∀ s, s ∈ w.retired ∨ s ∈ w.free → ∀ final, (w.cells (.slot s final)).isComplete = true) ∧
    (∀ needsAcquire index w', w.allocate needsAcquire = some (index, w') →
      ∀ final, ¬(w.cells (.slot index final)).Open) ∧
    (∀ budget, ∃ w', w.maintain budget = some w') ∧
    ∀ i p synchronous budget, w.submitting[i]? = some p → ∃ w', w.pushSubmitted i p synchronous budget = some w' := by
  have hinv := h.inv
  obtain ⟨nodes, hlinked, hnodup, hready⟩ := hinv.queue.linked
  refine ⟨⟨nodes, hlinked, hnodup, hready, fun c hc ↦ (hinv.queue.shape c ((hready c).1 hc).1).2, fun budget ↦ ?_,
    fun hpublished budgets hbudgets henough ↦ ?_⟩, hinv.log.given, fun s ↦ ?_, fun s hs final ↦ ?_,
    fun needsAcquire index w' hallocate final ↦ ?_, fun budget ↦ ?_, fun i p synchronous budget hp ↦ ?_⟩
  · obtain ⟨w', hdrain, -, -, hrest, hgiven⟩ := hinv.drain budget hlinked
    exact ⟨w', hdrain, hrest, hgiven⟩
  · obtain ⟨w', hfold, hinv', hretired, hallocated, hleases⟩ := hinv.passes hbudgets hpublished hlinked henough
    refine ⟨w', hfold, hleases, fun s hs ↦ ?_⟩
    have hcount := hinv'.slot.count s
    rw [hretired, hallocated, if_pos hs, append_nil, count_nil] at hcount
    by_cases hfree : s ∈ w'.free
    · exact .inl hfree
    · rw [count_eq_zero_of_not_mem hfree] at hcount
      exact .inr (count_pos_iff.1 (by omega))
  · have hreturned := hinv.log.returned s
    rwa [append_nil] at hreturned
  · exact PacketLease.reusable_iff.1 (hinv.slot.consumed s hs.symm) final
  · exact hinv.allocate_quiet hallocate final
  · obtain ⟨w', hmaintain, -⟩ := hinv.maintain budget hlinked
    exact ⟨w', hmaintain⟩
  · obtain ⟨w', hpush, -⟩ := hinv.pushSubmitted hp synchronous budget
    exact ⟨w', hpush⟩

theorem completions_exactly_once_rejected : rejectedFrame.Reached ∧
    ∀ s, rejectedFrame.returned.count s + rejectedFrame.live.count s = rejectedFrame.leased.count s :=
  ⟨rejectedFrame_reached, (completions_exactly_once rejectedFrame_reached).2.2.1⟩

end RetirementWorld

end Mtld3d
