import Mtld3d.PacketRetirementPass

namespace Mtld3d

open Function List Lib

namespace RetirementWorld

variable {w w' : RetirementWorld} {head : Option CellId} {loose : List ℕ}

theorem QueueInv.reset {cells : CellStore} {c : CellId} {cell : LeaseCompletion} (h : QueueInv cells head)
    (hc : ¬(cells c).Ready) (hcell : ¬cell.Ready)
    (hshape : cell.queue = true → cell.Shape ∧ cell.token = c.token) : QueueInv (update cells c cell) head := by
  obtain ⟨nodes, hlinked, hnodup, hready⟩ := h.linked
  refine ⟨⟨nodes, hlinked.congr fun a ha ↦ ?_, hnodup, fun a ↦ ?_⟩, fun a ha ↦ ?_⟩
  · rw [update_of_ne]
    rintro rfl
    exact hc ((hready a).1 ha)
  · by_cases hac : a = c
    · rw [hac, update_self, hready]
      exact iff_of_false hc hcell
    · rw [update_of_ne hac, hready]
  · by_cases hac : a = c
    · rw [hac, update_self] at ha ⊢
      exact hshape ha
    · rw [update_of_ne hac] at ha ⊢
      exact h.shape a ha

def acquiredCell (w : RetirementWorld) (index : ℕ) (needsAcquire : Bool) : LeaseCompletion :=
  if needsAcquire then (w.cells (.slot index false)).resetQueued (index * 2)
  else (w.cells (.slot index false)).resetCompleted

theorem reset_final (w : RetirementWorld) (index : ℕ) (needsAcquire : Bool) :
    (w.reset index needsAcquire).cells (.slot index true) = .queued (index * 2 + 1) := update_self _ _ _

theorem reset_acquired (w : RetirementWorld) (index : ℕ) (needsAcquire : Bool) :
    (w.reset index needsAcquire).cells (.slot index false) = w.acquiredCell index needsAcquire := by
  have hne : CellId.slot index false ≠ .slot index true := nofun
  exact (update_of_ne hne _ _).trans (update_self _ _ _)

theorem reset_of_ne (w : RetirementWorld) {index : ℕ} (needsAcquire : Bool) {c : CellId}
    (hc : ∀ final, c ≠ .slot index final) : (w.reset index needsAcquire).cells c = w.cells c :=
  (update_of_ne (hc true) _ _).trans (update_of_ne (hc false) _ _)

theorem reset_slot_of_ne (w : RetirementWorld) {index s : ℕ} (needsAcquire : Bool) (hs : s ≠ index) (final : Bool) :
    (w.reset index needsAcquire).cells (.slot s final) = w.cells (.slot s final) := by
  refine reset_of_ne w needsAcquire fun final' h ↦ hs ?_
  cases h
  rfl

theorem acquiredCell_not_ready (w : RetirementWorld) (index : ℕ) (needsAcquire : Bool) :
    ¬(w.acquiredCell index needsAcquire).Ready := by
  rintro ⟨hqueue, hword⟩
  cases needsAcquire with
  | false => cases hqueue
  | true =>
    obtain hword | hword := hword
    · cases hword
    · cases hword

theorem acquiredCell_open (w : RetirementWorld) (index : ℕ) (needsAcquire : Bool) :
    (w.acquiredCell index needsAcquire).Open ↔ needsAcquire = true := by
  cases needsAcquire with
  | false => exact ⟨fun h ↦ h.1, nofun⟩
  | true => exact ⟨fun _ ↦ rfl, fun _ ↦ LeaseCompletion.open_of_unpublished rfl rfl⟩

section Reset

variable {index allocated : ℕ} {needsAcquire : Bool}

theorem QueueInv.resetSlot (h : QueueInv w.cells head) (hready : ∀ final, ¬(w.cells (.slot index final)).Ready) :
    QueueInv (w.reset index needsAcquire).cells head := by
  have hacquired : QueueInv (update w.cells (.slot index false) (w.acquiredCell index needsAcquire)) head := by
    refine h.reset (hready false) (acquiredCell_not_ready w index needsAcquire) fun hq ↦ ?_
    cases needsAcquire with
    | false => cases hq
    | true => exact ⟨.inl rfl, rfl⟩
  refine hacquired.reset ?_ ?_ fun _ ↦ ⟨.inl rfl, rfl⟩
  · have hne : CellId.slot index true ≠ .slot index false := nofun
    rw [update_of_ne hne]
    exact hready true
  · rintro ⟨-, hword | hword⟩
    · cases hword
    · cases hword

theorem CellInv.resetSlot (h : CellInv w.cells w.allocated w.packets) (hone : index < allocated)
    (hle : w.allocated ≤ allocated) (hbound : allocated ≤ maxSlots)
    (hnew : ∀ s, w.allocated ≤ s → s < allocated → s = index) :
    CellInv (w.reset index needsAcquire).cells allocated w.packets := by
  refine ⟨hbound, fun s final hlt hq ↦ ?_, fun s final hge ↦ ?_, h.freshPacket⟩
  · by_cases hs : s = index
    · subst hs
      cases final with
      | true =>
        rw [reset_final] at hq
        cases hq
      | false =>
        rw [reset_acquired] at hq ⊢
        cases needsAcquire with
        | true => cases hq
        | false => rfl
    · rw [reset_slot_of_ne _ _ hs] at hq ⊢
      refine h.idle s final ?_ hq
      by_contra hge
      exact hs (hnew s (Nat.le_of_not_lt hge) hlt)
  · have hs : s ≠ index := by
      rintro rfl
      exact absurd hone (not_lt.2 hge)
    rw [reset_slot_of_ne _ _ hs]
    exact h.fresh s final (le_trans hle hge)

/-- The reset opens the final cell, and the other if it is to be acquired. -/
theorem LogInv.reset_given {leased returned held : List ℕ}
    (h : LogInv w.cells w.opened w.given leased returned held) (hquiet : ∀ final, ¬(w.cells (.slot index final)).Open)
    (c : CellId) : w.given.count c + (if ((w.reset index needsAcquire).cells c).Open then 1 else 0) =
      (w.reset index needsAcquire).opened.count c := by
  have hgiven := h.given c
  show w.given.count c + _ = (CellId.slot index true :: if needsAcquire = true then .slot index false :: w.opened
    else w.opened).count c
  by_cases hfinal : c = .slot index true
  · subst hfinal
    have hopen : LeaseCompletion.Open (.queued (index * 2 + 1)) :=
      LeaseCompletion.open_of_unpublished rfl rfl
    rw [if_neg (hquiet true)] at hgiven
    rw [reset_final, if_pos hopen, count_cons_self]
    cases needsAcquire with
    | false => exact congrArg (· + 1) hgiven
    | true =>
      have hne : CellId.slot index false ≠ .slot index true := nofun
      rw [if_pos rfl, count_cons_of_ne hne]
      exact congrArg (· + 1) hgiven
  · by_cases hacquired : c = .slot index false
    · subst hacquired
      rw [if_neg (hquiet false)] at hgiven
      rw [reset_acquired, count_cons_of_ne (Ne.symm hfinal)]
      cases needsAcquire with
      | false =>
        rw [if_neg fun hopen ↦ Bool.false_ne_true ((acquiredCell_open _ _ _).1 hopen)]
        exact hgiven
      | true =>
        rw [if_pos ((acquiredCell_open _ _ _).2 rfl), if_pos rfl, count_cons_self]
        exact congrArg (· + 1) hgiven
    · have hc : ∀ final, c ≠ .slot index final := by
        rintro (_ | _)
        · exact hacquired
        · exact hfinal
      rw [reset_of_ne _ _ hc, count_cons_of_ne (Ne.symm hfinal)]
      refine hgiven.trans ?_
      cases needsAcquire with
      | false => rfl
      | true =>
        rw [if_pos rfl, count_cons_of_ne (Ne.symm hacquired)]

/-- A slot nobody holds, whose cells nobody waits for, is reset and in hand. -/
theorem Inv.reset (h : Inv w.head loose w) {free : List ℕ} (needsAcquire : Bool)
    (hcount : ∀ s, free.count s + (if s = index then 1 else 0) + w.retired.count s + (w.live ++ loose).count s =
      if s < allocated then 1 else 0)
    (hfree : ∀ s ∈ free, s ∈ w.free) (hquiet : ∀ final, ¬(w.cells (.slot index final)).Open)
    (hle : w.allocated ≤ allocated) (hbound : allocated ≤ maxSlots)
    (hnew : ∀ s, w.allocated ≤ s → s < allocated → s = index) :
    Inv w.head (index :: loose) ({ w with free := free, allocated := allocated }.reset index needsAcquire) := by
  have hone : index < allocated := by
    have := hcount index
    rw [if_pos rfl] at this
    by_contra hge
    rw [if_neg hge] at this
    omega
  have halone : free.count index = 0 ∧ w.retired.count index = 0 ∧ (w.live ++ loose).count index = 0 := by
    have := hcount index
    rw [if_pos rfl, if_pos hone] at this
    omega
  have hlive : index ∉ w.live := fun hmem ↦
    count_eq_zero.1 halone.2.2 (mem_append_left _ hmem)
  have hlease : ∀ lease ∈ w.leases, index ∉ lease.slots := fun lease hmem hs ↦
    hlive (mem_flatMap.2 ⟨lease, hmem, hs⟩)
  have hsame : ∀ (v : RetirementWorld) s, s ≠ index → ∀ final,
      (v.reset index needsAcquire).cells (.slot s final) = v.cells (.slot s final) :=
    fun v s hs final ↦ reset_slot_of_ne v needsAcquire hs final
  refine ⟨h.queue.resetSlot fun final hr ↦ hquiet final hr.open, h.cell.resetSlot hone hle hbound hnew,
    ⟨h.packet.known, h.packet.retained⟩, ⟨fun s ↦ ?_, fun s hs ↦ ?_⟩, ⟨fun p lease hentry ↦ ?_, h.registry.owner⟩,
    fun s hs ↦ ?_, ⟨h.log.reset_given hquiet, fun s ↦ ?_⟩⟩
  · have := hcount s
    show free.count s + w.retired.count s + (w.live ++ index :: loose).count s = if s < allocated then 1 else 0
    rw [← this, count_append, count_append]
    by_cases hs : s = index
    · rw [hs, count_cons_self, if_pos rfl]
      omega
    · rw [count_cons_of_ne (Ne.symm hs), if_neg hs]
      omega
  · have hne : s ≠ index := by
      rintro rfl
      obtain hs | hs := hs
      · exact count_eq_zero.1 halone.1 hs
      · exact count_eq_zero.1 halone.2.1 hs
    refine (PacketLease.reusable_congr fun final ↦ ?_).trans (h.slot.consumed s (hs.imp (hfree s) id))
    rw [hsame _ s hne]
  · obtain ⟨hprimary, hbusy, haliases⟩ := h.registry.entry p lease hentry
    have hmem : lease ∈ w.leases :=
      mem_append_right _ (mem_append_right _ (mem_items.2 ⟨p, hentry⟩))
    refine ⟨hprimary, (PacketLease.maintain_congr fun s hs final ↦ ?_).trans hbusy, haliases⟩
    rw [hsame]
    rintro rfl
    exact hlease lease hmem hs
  · have hne : s ≠ index := by
      rintro rfl
      exact hlease _ hs mem_cons_self
    rw [hsame _ s hne]
    exact h.owned s hs
  · have := h.log.returned s
    show w.returned.count s + (w.live ++ index :: loose).count s = (index :: w.leased).count s
    rw [count_cons, ← this, count_append, count_append, count_cons]
    omega

end Reset

theorem Inv.allocate_quiet (h : Inv head loose w) {needsAcquire : Bool} {index : ℕ}
    (hallocate : w.allocate needsAcquire = some (index, w')) (final : Bool) :
    ¬(w.cells (.slot index final)).Open := by
  rw [RetirementWorld.allocate] at hallocate
  cases hfree : w.free with
  | cons i free =>
    rw [hfree] at hallocate
    cases hallocate
    have hmem : index ∈ w.free := by
      rw [hfree]
      exact mem_cons_self
    exact LeaseCompletion.not_open_of_isComplete (PacketLease.reusable_iff.1 (h.slot.consumed index (.inl hmem)) final)
  | nil =>
    rw [hfree] at hallocate
    dsimp only at hallocate
    by_cases hroom : w.allocated < maxSlots
    · rw [if_pos hroom] at hallocate
      cases hallocate
      intro hopen
      have hqueue := h.cell.fresh w.allocated final (le_refl _)
      rw [hopen.1] at hqueue
      cases hqueue
    · rw [if_neg hroom] at hallocate
      cases hallocate

theorem Inv.allocate (h : Inv w.head loose w) {needsAcquire : Bool} {index : ℕ}
    (hallocate : w.allocate needsAcquire = some (index, w')) :
    Inv w'.head (index :: loose) w' ∧ w'.recording = w.recording ∧
      (needsAcquire = false → (w'.cells (.slot index false)).queue = false) := by
  have hquiet := fun final ↦ h.allocate_quiet hallocate final
  rw [RetirementWorld.allocate] at hallocate
  cases hfree : w.free with
  | cons i free =>
    rw [hfree] at hallocate
    cases hallocate
    refine ⟨h.reset needsAcquire (fun s ↦ ?_) (fun s hs ↦ ?_) hquiet (le_refl _) h.cell.bound
      fun s hge hlt ↦ absurd hlt (not_lt.2 hge), rfl, fun hno ↦ ?_⟩
    · have hcount := h.slot.count s
      rw [hfree] at hcount
      rw [← hcount]
      by_cases hs : s = index
      · rw [hs, if_pos rfl, count_cons_self]
      · rw [if_neg hs, count_cons_of_ne (Ne.symm hs)]
        rfl
    · rw [hfree]
      exact mem_cons_of_mem _ hs
    · rw [reset_acquired, hno]
      rfl
  | nil =>
    rw [hfree] at hallocate
    dsimp only at hallocate
    by_cases hroom : w.allocated < maxSlots
    · rw [if_pos hroom] at hallocate
      cases hallocate
      have hcount : ∀ s, w.free.count s + (if s = w.allocated then 1 else 0) + w.retired.count s +
          (w.live ++ loose).count s = if s < w.allocated + 1 then 1 else 0 := by
        intro s
        have hslot := h.slot.count s
        by_cases hs : s = w.allocated
        · subst hs
          rw [if_neg (lt_irrefl _)] at hslot
          rw [if_pos rfl, if_pos (Nat.lt_succ_self _)]
          omega
        · have hiff : s < w.allocated + 1 ↔ s < w.allocated := by omega
          rw [if_neg hs, if_congr hiff rfl rfl, ← hslot]
          omega
      have hnew := h.reset needsAcquire hcount (fun s hs ↦ hs) hquiet (Nat.le_succ _) hroom
        fun s hge hlt ↦ by omega
      rw [hfree] at hnew
      refine ⟨hnew, rfl, fun hno ↦ ?_⟩
      rw [reset_acquired, hno]
      rfl
    · rw [if_neg hroom] at hallocate
      cases hallocate

theorem Inv.record (lease : PacketLease) (h : Inv head (lease.slots ++ loose) w)
    (howned : ∀ s, lease = .ownedPage s → (w.cells (.slot s false)).queue = false) :
    Inv head loose { w with recording := lease :: w.recording } := by
  have hheld : (w.live ++ (lease.slots ++ loose)).Perm ({ w with recording := lease :: w.recording }.live ++ loose) := by
    rw [← append_assoc]
    exact perm_append_comm.append_right _
  refine ⟨h.queue, h.cell, h.packet, h.slot.perm hheld, h.registry, fun s hs ↦ ?_, h.log.perm hheld⟩
  obtain hs | hs := mem_cons.1 hs
  · exact howned s hs.symm
  · exact h.owned s hs

theorem Inv.capture (h : Inv w.head [] w) {kind : LeaseKind} (hcapture : w.capture kind = some w') :
    Inv w'.head [] w' := by
  cases kind with
  | page =>
    obtain ⟨⟨slot, w₁⟩, hallocate, hw⟩ := Option.bind_eq_some_iff.1 hcapture
    cases hw
    exact (h.allocate hallocate).1.record (.page slot) nofun
  | ownedPage =>
    obtain ⟨⟨slot, w₁⟩, hallocate, hw⟩ := Option.bind_eq_some_iff.1 hcapture
    cases hw
    obtain ⟨hinv, -, hqueue⟩ := h.allocate hallocate
    refine hinv.record (.ownedPage slot) fun s hs ↦ ?_
    cases hs
    exact hqueue rfl
  | query =>
    obtain ⟨⟨slot, w₁⟩, hallocate, hw⟩ := Option.bind_eq_some_iff.1 hcapture
    cases hw
    exact (h.allocate hallocate).1.record (.query slot) nofun
  | redirty =>
    obtain ⟨⟨events, w₁⟩, hallocate, hw⟩ := Option.bind_eq_some_iff.1 hcapture
    obtain ⟨⟨finals, w₂⟩, hallocate', hw⟩ := Option.bind_eq_some_iff.1 hw
    cases hw
    have hboth := ((h.allocate hallocate).1.allocate hallocate').1
    have hswap : Inv w₂.head ((PacketLease.redirty events finals).slots ++ []) w₂ :=
      ⟨hboth.queue, hboth.cell, hboth.packet, hboth.slot.perm ((List.Perm.swap _ _ _).append_left _), hboth.registry,
        hboth.owned, hboth.log.perm ((List.Perm.swap _ _ _).append_left _)⟩
    exact hswap.record (.redirty events finals) nofun

theorem Inv.sealFrame (h : Inv w.head [] w) {leases rest : List PacketLease} (recordingError : Bool)
    (hperm : w.recording.Perm (leases ++ rest)) : Inv w.head [] (w.sealFrame leases rest recordingError) := by
  have hfresh := h.cell.freshPacket w.packets (le_refl _)
  have hshut : ¬(w.cells (.packet w.packets)).Open := by
    intro hopen
    rw [hopen.1] at hfresh
    cases hfresh
  have hslot : ∀ s final, (w.sealFrame leases rest recordingError).cells (.slot s final) = w.cells (.slot s final) :=
    fun s final ↦ by
      have hne : CellId.slot s final ≠ .packet w.packets := nofun
      exact update_of_ne hne (LeaseCompletion.queued replayCompletionToken) w.cells
  have hother : ∀ id, id ≠ w.packets →
      (w.sealFrame leases rest recordingError).cells (.packet id) = w.cells (.packet id) := by
    intro id hid
    refine update_of_ne (fun heq ↦ hid ?_) _ _
    cases heq
    rfl
  have hself : (w.sealFrame leases rest recordingError).cells (.packet w.packets) =
      .queued replayCompletionToken := update_self _ _ _
  have hleases : w.leases.Perm (w.sealFrame leases rest recordingError).leases := by
    refine perm_iff_count.2 fun lease ↦ ?_
    have hcount := hperm.count_eq lease
    simp only [RetirementWorld.leases, RetirementWorld.sealFrame, cons_append, flatMap_cons,
      count_append] at hcount ⊢
    omega
  have hheld := (hleases.flatMap_right (·.slots)).append_right []
  refine ⟨?_, ⟨h.cell.bound, fun s final hlt hq ↦ ?_, fun s final hge ↦ ?_, fun id hge ↦ ?_⟩, ⟨fun p hp ↦ ?_,
    fun id hopen ↦ ?_⟩, ⟨(h.slot.perm hheld).count, fun s hs ↦ ?_⟩, ⟨fun p lease hentry ↦ ?_, h.registry.owner⟩,
    fun s hs ↦ ?_, ⟨fun c ↦ ?_, (h.log.perm hheld).returned⟩⟩
  · refine h.queue.reset (fun hready ↦ hshut hready.open) ?_ fun _ ↦ ⟨.inl rfl, rfl⟩
    rintro ⟨-, hword | hword⟩
    · cases hword
    · cases hword
  · rw [hslot] at hq ⊢
    exact h.cell.idle s final hlt hq
  · rw [hslot]
    exact h.cell.fresh s final hge
  · rw [hother id (by rintro rfl; exact absurd hge (Nat.not_succ_le_self _))]
    exact h.cell.freshPacket id (Nat.le_of_succ_le hge)
  · obtain rfl | hp := mem_cons.1 hp
    · exact ⟨Nat.lt_succ_self _, by rw [hself]; rfl, rfl⟩
    · obtain ⟨hlt, hqueue, hcancelled⟩ := h.packet.known p hp
      refine ⟨Nat.lt_succ_of_lt hlt, ?_, hcancelled⟩
      rw [hother p.id (ne_of_lt hlt)]
      exact hqueue
  · by_cases hid : id = w.packets
    · exact ⟨_, mem_cons_self, hid.symm⟩
    · rw [hother id hid] at hopen
      obtain ⟨p, hp, hpid⟩ := h.packet.retained id hopen
      exact ⟨p, mem_cons_of_mem _ hp, hpid⟩
  · exact (PacketLease.reusable_congr fun final ↦ by rw [hslot]).trans (h.slot.consumed s hs)
  · obtain ⟨hprimary, hbusy, haliases⟩ := h.registry.entry p lease hentry
    exact ⟨hprimary, (PacketLease.maintain_congr fun s _ final ↦ by rw [hslot]).trans hbusy, haliases⟩
  · rw [hslot]
    exact h.owned s (hleases.mem_iff.2 hs)
  · have hgiven := h.log.given c
    show w.given.count c + _ = (CellId.packet w.packets :: w.opened).count c
    by_cases hc : c = .packet w.packets
    · subst hc
      rw [if_neg hshut] at hgiven
      rw [hself, if_pos (LeaseCompletion.open_of_unpublished rfl rfl), count_cons_self]
      exact congrArg (· + 1) hgiven
    · rw [count_cons_of_ne (Ne.symm hc), ← hgiven]
      have hcell : (w.sealFrame leases rest recordingError).cells c = w.cells c := update_of_ne hc _ _
      rw [hcell]

theorem Inv.packets (h : Inv head loose w) {submitting pending : List FramePacket}
    (hleases : ((w.submitting ++ w.pending).flatMap (·.leases)).Perm ((submitting ++ pending).flatMap (·.leases)))
    (hknown : ∀ p ∈ submitting ++ pending, ∃ q ∈ w.submitting ++ w.pending, p.id = q.id ∧ p.cancelled = q.cancelled)
    (hkept : ∀ q ∈ w.submitting ++ w.pending, ∃ p ∈ submitting ++ pending, p.id = q.id) :
    Inv head loose { w with submitting := submitting, pending := pending } := by
  have hperm : w.leases.Perm { w with submitting := submitting, pending := pending }.leases :=
    (hleases.append_right _).append_left _
  have hheld := (hperm.flatMap_right (·.slots)).append_right loose
  refine ⟨h.queue, h.cell, ⟨fun p hp ↦ ?_, fun id hopen ↦ ?_⟩, h.slot.perm hheld, h.registry,
    fun s hs ↦ h.owned s (hperm.mem_iff.2 hs), h.log.perm hheld⟩
  · obtain ⟨q, hq, hid, hcancelled⟩ := hknown p hp
    rw [hid, hcancelled]
    exact h.packet.known q hq
  · obtain ⟨q, hq, rfl⟩ := h.packet.retained id hopen
    exact hkept q hq

theorem Inv.packets_perm (h : Inv head loose w) {submitting pending : List FramePacket}
    (hperm : (w.submitting ++ w.pending).Perm (submitting ++ pending)) :
    Inv head loose { w with submitting := submitting, pending := pending } :=
  h.packets (hperm.flatMap_right _) (fun p hp ↦ ⟨p, hperm.mem_iff.2 hp, rfl, rfl⟩)
    fun q hq ↦ ⟨q, hperm.mem_iff.1 hq, rfl⟩

theorem admit_map {β : Type} (f : FramePacket → β) (hf : ∀ p, f { p with admitted := true } = f p)
    (ps : List FramePacket) (i : ℕ) : (ps.modify i fun p ↦ { p with admitted := true }).map f = ps.map f := by
  induction ps generalizing i with
  | nil => rw [modify_nil]
  | cons p ps ih =>
    cases i with
    | zero =>
      rw [modify_zero_cons, map_cons, map_cons, hf]
    | succ i =>
      rw [modify_succ_cons, map_cons, map_cons, ih]

theorem Inv.markAdmitted (h : Inv head loose w) (i : ℕ) : Inv head loose (w.markAdmitted i) := by
  have hleases : ((w.submitting.modify i fun p ↦ { p with admitted := true }) ++ w.pending).flatMap (·.leases) =
      (w.submitting ++ w.pending).flatMap (·.leases) := by
    rw [flatMap_def, flatMap_def, map_append, map_append,
      admit_map (fun p ↦ p.leases) (fun _ ↦ rfl)]
  have hkeys : ((w.submitting.modify i fun p ↦ { p with admitted := true }) ++ w.pending).map
      (fun p ↦ (p.id, p.cancelled)) = (w.submitting ++ w.pending).map fun p ↦ (p.id, p.cancelled) := by
    rw [map_append, map_append, admit_map (fun p ↦ (p.id, p.cancelled)) (fun _ ↦ rfl)]
  refine h.packets (.of_eq hleases.symm) (fun p hp ↦ ?_) fun q hq ↦ ?_
  · have hmem := mem_map_of_mem (f := fun p : FramePacket ↦ (p.id, p.cancelled)) hp
    rw [hkeys] at hmem
    obtain ⟨q, hq, heq⟩ := mem_map.1 hmem
    exact ⟨q, hq, (congrArg Prod.fst heq).symm, (congrArg Prod.snd heq).symm⟩
  · have hmem := mem_map_of_mem (f := fun p : FramePacket ↦ (p.id, p.cancelled)) hq
    rw [← hkeys] at hmem
    obtain ⟨p, hp, heq⟩ := mem_map.1 hmem
    exact ⟨p, hp, congrArg Prod.fst heq⟩

theorem Inv.pushSubmitted (h : Inv w.head [] w) {i : ℕ} {p : FramePacket} (hp : w.submitting[i]? = some p)
    (synchronous : Bool) (budget : ℕ) :
    ∃ w', w.pushSubmitted i p synchronous budget = some w' ∧ Inv w'.head [] w' := by
  obtain ⟨hlt, hget⟩ := List.getElem?_eq_some_iff.1 hp
  have hperm : (w.submitting ++ w.pending).Perm (w.submitting.eraseIdx i ++ (w.pending ++ [p])) := by
    have hout : w.submitting.Perm (p :: w.submitting.eraseIdx i) := by
      rw [← hget]
      exact (getElem_cons_eraseIdx_perm hlt).symm
    refine (hout.append_right _).trans ?_
    rw [← append_assoc]
    exact (perm_append_singleton p _).symm
  have hmoved := h.packets_perm hperm
  rw [RetirementWorld.pushSubmitted]
  by_cases hpass : (synchronous || p.replayConsumed w.cells) = true
  · obtain ⟨nodes, hlinked, -⟩ := hmoved.queue.linked
    obtain ⟨w', hmaintain, hpassed⟩ := hmoved.maintain budget hlinked
    exact ⟨w', (if_pos hpass).trans hmaintain, hpassed.inv⟩
  · exact ⟨_, if_neg hpass, hmoved⟩

theorem Step.inv (hstep : Step w w') (h : Inv w.head [] w) : Inv w'.head [] w' := by
  cases hstep with
  | capture kind hcapture => exact h.capture hcapture
  | sealFrame recordingError hperm => exact h.sealFrame recordingError hperm
  | markAdmitted i => exact h.markAdmitted i
  | submitted synchronous budget hp hpush =>
    obtain ⟨w₁, hpush', hinv⟩ := h.pushSubmitted hp synchronous budget
    rw [hpush] at hpush'
    exact Option.some.inj hpush' ▸ hinv
  | publish rejected hexposed =>
    refine h.publish hexposed ?_
    cases rejected with
    | true => exact .inr rfl
    | false => exact .inl rfl
  | drain budget hdrain =>
    obtain ⟨nodes, hlinked, -⟩ := h.queue.linked
    obtain ⟨w₁, hdrain', hinv, -⟩ := h.drain budget hlinked
    rw [hdrain] at hdrain'
    exact Option.some.inj hdrain' ▸ hinv
  | maintain budget hmaintain =>
    obtain ⟨nodes, hlinked, -⟩ := h.queue.linked
    obtain ⟨w₁, hmaintain', hpassed⟩ := h.maintain budget hlinked
    rw [hmaintain] at hmaintain'
    exact Option.some.inj hmaintain' ▸ hpassed.inv

theorem Reached.inv (h : w.Reached) : Inv w.head [] w := by
  induction h with
  | refl => exact inv_new
  | tail _ hstep ih => exact hstep.inv ih

end RetirementWorld

end Mtld3d
