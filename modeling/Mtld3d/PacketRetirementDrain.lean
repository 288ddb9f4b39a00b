import Mtld3d.PacketRetirementInv

namespace Mtld3d

open List Lib

namespace RetirementWorld

variable {w : RetirementWorld} {head : Option CellId} {loose : List ℕ} {c : CellId}

theorem Inv.remove (h : Inv head loose w) {p : ℕ} {lease : PacketLease} (hentry : slotAt w.entries p = some lease) :
    ∃ aliases, clearAliases w.aliases lease.slots = some aliases ∧
      Inv head (lease.slots ++ loose) { w with entries := w.entries.set p none, aliases := aliases } ∧
      ∀ q other, slotAt (w.entries.set p none) q = some other → q ≠ p ∧ slotAt w.entries q = some other := by
  obtain ⟨hprimary, -, haliases⟩ := h.registry.entry p lease hentry
  have hmem : lease ∈ w.leases :=
    mem_append_right _ (mem_append_right _ (mem_items.2 ⟨p, hentry⟩))
  have hperm : w.leases.Perm (lease :: { w with entries := w.entries.set p none }.leases) :=
    leases_setEntries { w with entries := w.entries.set p none } (items_set_none hentry)
  have hlive : w.live.Perm (lease.slots ++ { w with entries := w.entries.set p none }.live) := live_perm hperm
  have hnodup : lease.slots.Nodup :=
    ((hlive.nodup_iff.1 (h.nodup_held.sublist (sublist_append_left _ _))).sublist
      (sublist_append_left _ _))
  obtain ⟨aliases, hclear, hat⟩ := clearAliases_spec hnodup fun t ht ↦ ⟨p, haliases t ht⟩
  have hset : ∀ q, slotAt (w.entries.set p none) q = if q = p then none else slotAt w.entries q :=
    fun q ↦ slotAt_set (lt_of_slotAt hentry)
  have hother : ∀ q other, slotAt (w.entries.set p none) q = some other →
      q ≠ p ∧ slotAt w.entries q = some other := by
    intro q other hq
    rw [hset] at hq
    by_cases hqp : q = p
    · rw [if_pos hqp] at hq
      cases hq
    · rw [if_neg hqp] at hq
      exact ⟨hqp, hq⟩
  have hmoved : (w.live ++ loose).Perm
      ({ w with entries := w.entries.set p none }.live ++ (lease.slots ++ loose)) := by
    refine (hlive.append_right loose).trans ?_
    rw [← append_assoc]
    exact perm_append_comm.append_right _
  refine ⟨aliases, hclear, ⟨h.queue, h.cell, h.packet, h.slot.perm hmoved, ⟨fun q other hq ↦ ?_, fun s q hq ↦ ?_⟩,
    fun s hs ↦ h.owned s (hperm.mem_iff.2 (mem_cons_of_mem _ hs)), h.log.perm hmoved⟩, hother⟩
  · obtain ⟨hqp, hq⟩ := hother q other hq
    obtain ⟨hprimary', hbusy, haliases'⟩ := h.registry.entry q other hq
    refine ⟨hprimary', hbusy, fun s hs ↦ (hat s).trans ((if_neg fun hmem ↦ hqp ?_).trans (haliases' s hs))⟩
    have hboth := haliases s hmem
    rw [haliases' s hs] at hboth
    exact Option.some.inj hboth
  · have hq : (if s ∈ lease.slots then none else slotAt w.aliases s) = some q := (hat s).symm.trans hq
    by_cases hs : s ∈ lease.slots
    · rw [if_pos hs] at hq
      cases hq
    · rw [if_neg hs] at hq
      obtain ⟨other, hentry', hmem'⟩ := h.registry.owner s q hq
      refine ⟨other, (hset q).trans ((if_neg ?_).trans hentry'), hmem'⟩
      rintro rfl
      rw [hentry] at hentry'
      exact hs (Option.some.inj hentry' ▸ hmem')

theorem Inv.head_ready (h : Inv (some c) loose w) : (w.cells c).Ready := by
  obtain ⟨nodes, hlinked, -, hready⟩ := h.queue.linked
  obtain ⟨rest, rfl, -⟩ := hlinked.of_some
  exact (hready c).1 mem_cons_self

theorem consume_of_ne {a : CellId} (ha : a ≠ c) : (w.consume c).cells a = w.cells a := Function.update_of_ne ha _ _

theorem consume_self : (w.consume c).cells c = (w.cells c).consumed := Function.update_self _ _ _

theorem consume_queue (w : RetirementWorld) (c a : CellId) :
    ((w.consume c).cells a).queue = (w.cells a).queue := by
  by_cases ha : a = c
  · rw [ha, consume_self]
    rfl
  · rw [consume_of_ne ha]

theorem consume_isComplete (hready : (w.cells c).Ready) {a : CellId} (ha : (w.cells a).isComplete = true) :
    ((w.consume c).cells a).isComplete = true := by
  by_cases hac : a = c
  · rw [hac, consume_self]
    exact hready.consumed_isComplete
  · rwa [consume_of_ne hac]

theorem consume_open (hready : (w.cells c).Ready) (a : CellId) :
    ((w.consume c).cells a).Open ↔ a ≠ c ∧ (w.cells a).Open := by
  by_cases hac : a = c
  · rw [hac, consume_self]
    exact ⟨fun hopen ↦ absurd hopen (LeaseCompletion.not_open_of_isComplete hready.consumed_isComplete),
      fun hopen ↦ absurd rfl hopen.1⟩
  · rw [consume_of_ne hac]
    exact ⟨fun hopen ↦ ⟨hac, hopen⟩, fun hopen ↦ hopen.2⟩

theorem QueueInv.consume (h : QueueInv w.cells (some c)) : QueueInv (w.consume c).cells (w.cells c).next := by
  obtain ⟨nodes, hlinked, hnodup, hready⟩ := h.linked
  obtain ⟨rest, rfl, hrest⟩ := hlinked.of_some
  obtain ⟨hout, hnodup⟩ := nodup_cons.1 hnodup
  have hc := (hready c).1 mem_cons_self
  refine ⟨⟨rest, hrest.congr fun a ha ↦ ?_, hnodup, fun a ↦ ?_⟩, fun a ha ↦ ?_⟩
  · rw [consume_of_ne]
    rintro rfl
    exact hout ha
  · by_cases hac : a = c
    · rw [hac, consume_self]
      exact ⟨fun hmem ↦ absurd hmem hout, fun hmem ↦
        absurd hmem (LeaseCompletion.not_ready_of_isComplete hc.consumed_isComplete)⟩
    · rw [consume_of_ne hac, ← hready, mem_cons]
      exact ⟨.inr, fun hmem ↦ hmem.resolve_left hac⟩
  · by_cases hac : a = c
    · rw [hac, consume_self]
      exact ⟨hc.consumed_shape, (h.shape c hc.1).2⟩
    · rw [consume_of_ne hac] at ha ⊢
      exact h.shape a ha

theorem Inv.consume (h : Inv (some c) loose w) (hregistry : RegistryInv (w.consume c).cells w.entries w.aliases) :
    Inv (w.cells c).next loose (w.consume c) := by
  have hready := h.head_ready
  refine ⟨h.queue.consume, ⟨h.cell.bound, fun s final hlt hq ↦ ?_, fun s final hge ↦ ?_, fun id hge ↦ ?_⟩,
    ⟨fun p hp ↦ ?_, fun id hopen ↦ ?_⟩, ⟨h.slot.count, fun s hs ↦ ?_⟩, hregistry, fun s hs ↦ ?_,
    ⟨fun a ↦ ?_, h.log.returned⟩⟩
  · exact consume_isComplete hready (h.cell.idle s final hlt ((consume_queue w c _).symm.trans hq))
  · exact (consume_queue w c _).trans (h.cell.fresh s final hge)
  · exact (consume_queue w c _).trans (h.cell.freshPacket id hge)
  · obtain ⟨hlt, hq, hcancelled⟩ := h.packet.known p hp
    exact ⟨hlt, (consume_queue w c _).trans hq, hcancelled⟩
  · exact h.packet.retained id ((consume_open hready _).1 hopen).2
  · rw [PacketLease.reusable_iff]
    exact fun final ↦ consume_isComplete hready (PacketLease.reusable_iff.1 (h.slot.consumed s hs) final)
  · exact (consume_queue w c _).trans (h.owned s hs)
  · have hlog := h.log.given a
    show (c :: w.given).count a + _ = w.opened.count a
    rw [← hlog]
    by_cases hac : a = c
    · have hshut : ¬((w.consume c).cells a).Open := fun hopen ↦ ((consume_open hready a).1 hopen).1 hac
      rw [if_neg hshut, hac, if_pos hready.open, count_cons_self]
    · rw [count_cons_of_ne (Ne.symm hac)]
      congr 1
      refine if_congr ?_ rfl rfl
      rw [consume_open hready]
      exact ⟨fun hopen ↦ hopen.2, fun hopen ↦ ⟨hac, hopen⟩⟩

theorem slot_token (s : ℕ) (final : Bool) : (CellId.slot s final).token / 2 = s := by
  cases final with
  | false => exact Nat.mul_div_cancel s (by decide)
  | true =>
    show (s * 2 + 1) / 2 = s
    omega

theorem Inv.slot_token_ne {s : ℕ} {final : Bool} (h : Inv (some (.slot s final)) loose w) :
    (CellId.slot s final).token ≠ replayCompletionToken := by
  have hlt : s < w.allocated := by
    by_contra hge
    have hqueue := h.head_ready.1
    rw [h.cell.fresh s final (Nat.le_of_not_lt hge)] at hqueue
    cases hqueue
  have hbound := h.cell.bound
  have hle : (CellId.slot s final).token ≤ s * 2 + 1 := by
    cases final with
    | false => exact Nat.le_succ _
    | true => exact le_refl _
  rw [maxSlots] at hbound
  rw [replayCompletionToken]
  omega

theorem consume_maintain {lease : PacketLease} (h : ∀ s final, c = .slot s final → s ∉ lease.slots) :
    lease.maintain (w.consume c).cells = lease.maintain w.cells := by
  refine PacketLease.maintain_congr fun s hs final ↦ ?_
  rw [consume_of_ne]
  rintro rfl
  exact h s final rfl hs

theorem RegistryInv.consume {entries : List (Option PacketLease)} {aliases : List (Option ℕ)}
    (h : RegistryInv w.cells entries aliases)
    (hother : ∀ p lease, slotAt entries p = some lease → ∀ s final, c = .slot s final → s ∉ lease.slots) :
    RegistryInv (w.consume c).cells entries aliases := by
  refine ⟨fun p lease hentry ↦ ?_, h.owner⟩
  obtain ⟨hprimary, hbusy, haliases⟩ := h.entry p lease hentry
  exact ⟨hprimary, (consume_maintain (hother p lease hentry)).trans hbusy, haliases⟩

/-- One turn of the drain: the head's token goes to the consumer, and a lease it completes is retired. -/
theorem Inv.notify (h : Inv (some c) loose w) :
    ∃ w', (w.consume c).notify (w.cells c).token = some w' ∧ Inv (w.cells c).next loose w' ∧
      w'.cells = (w.consume c).cells ∧ w'.given = c :: w.given ∧ w'.head = w.head ∧ Frame (w.consume c) w' := by
  have hready := h.head_ready
  rw [(h.queue.shape c hready.1).2, RetirementWorld.notify]
  cases c with
  | packet id =>
    refine ⟨_, if_pos rfl, h.consume (h.registry.consume fun p lease _ s final hc ↦ ?_), rfl, rfl, rfl, Frame.refl _⟩
    cases hc
  | slot s final =>
    rw [if_neg h.slot_token_ne, slot_token]
    have hsame : ∀ t f, CellId.slot s final = .slot t f → t = s := by
      rintro t f ⟨⟩
      rfl
    cases halias : slotAt w.aliases s with
    | none =>
      have hnotify : slotAt (w.consume (.slot s final)).aliases s = none := halias
      rw [hnotify]
      refine ⟨_, rfl, h.consume (h.registry.consume fun p lease hentry t f hc hmem ↦ ?_), rfl, rfl, rfl, Frame.refl _⟩
      obtain rfl := hsame t f hc
      rw [(h.registry.entry p lease hentry).2.2 t hmem] at halias
      cases halias
    | some p =>
      obtain ⟨lease, hentry, hs⟩ := h.registry.owner s p halias
      have hnotify : slotAt (w.consume (.slot s final)).aliases s = some p := halias
      have hfound : slotAt (w.consume (.slot s final)).entries p = some lease := hentry
      simp only [hnotify, hfound]
      have helse : ∀ q other, slotAt w.entries q = some other → q ≠ p → s ∉ other.slots := by
        intro q other hq hqp hmem
        rw [(h.registry.entry q other hq).2.2 s hmem] at halias
        exact hqp (Option.some.inj halias)
      cases hm : lease.maintain (w.consume (.slot s final)).cells with
      | false =>
        rw [if_neg Bool.false_ne_true]
        refine ⟨_, rfl, h.consume ⟨fun q other hq ↦ ?_, h.registry.owner⟩, rfl, rfl, rfl, Frame.refl _⟩
        obtain ⟨hprimary, hbusy, haliases⟩ := h.registry.entry q other hq
        refine ⟨hprimary, ?_, haliases⟩
        by_cases hqp : q = p
        · subst hqp
          rw [hentry] at hq
          exact Option.some.inj hq ▸ hm
        · refine (consume_maintain fun t f hc hmem ↦ ?_).trans hbusy
          obtain rfl := hsame t f hc
          exact helse q other hq hqp hmem
      | true =>
        rw [if_pos rfl]
        obtain ⟨aliases, hclear, hremoved, hother⟩ := h.remove hentry
        have hclear' : clearAliases (w.consume (.slot s final)).aliases lease.slots = some aliases := hclear
        rw [hclear', PacketLease.intoSlots_of_maintain hm]
        have hconsumed : Inv (w.cells (.slot s final)).next (lease.slots ++ loose)
            ({ w with entries := w.entries.set p none, aliases := aliases }.consume (.slot s final)) := by
          refine hremoved.consume (hremoved.registry.consume fun q other hq t f hc hmem ↦ ?_)
          obtain ⟨hqp, hq⟩ := hother q other hq
          obtain rfl := hsame t f hc
          exact helse q other hq hqp hmem
        have hlease : lease ∈ w.leases :=
          mem_append_right _ (mem_append_right _ (mem_items.2 ⟨p, hentry⟩))
        have hunacquired : lease.Unacquired (w.consume (.slot s final)).cells := fun t ht ↦
          consume_isComplete hready (h.unacquired hlease t ht)
        exact ⟨_, rfl, hconsumed.retire (PacketLease.reusable_of_maintain hunacquired hm), rfl, rfl, rfl,
          ⟨rfl, rfl, rfl, rfl, rfl, rfl, fun _ ↦ rfl, fun _ ↦ rfl⟩⟩

theorem Inv.frame_consume (h : Inv (some c) loose w) : Frame w (w.consume c) := by
  refine ⟨rfl, rfl, rfl, rfl, rfl, rfl, consume_queue w c, fun a ↦ ?_⟩
  by_cases ha : a = c
  · obtain ⟨-, hone | htwo⟩ := h.head_ready
    · rw [ha, consume_self]
      show ((w.cells c).complete ||| 4) &&& 3 = (w.cells c).complete &&& 3
      rw [hone]
      decide
    · rw [ha, consume_self]
      show ((w.cells c).complete ||| 4) &&& 3 = (w.cells c).complete &&& 3
      rw [htwo]
      decide
  · rw [consume_of_ne ha]

/-- A drain of a detached list gives the consumer as many cells as its budget allows, in order, and leaves
the others on the queue. -/
theorem Inv.drainFrom (budget : ℕ) {nodes : List CellId} (h : Inv head loose w) (hhead : w.head = none)
    (hlinked : Linked w.next head nodes) :
    ∃ w', drainFrom budget head w = some w' ∧ Inv w'.head loose w' ∧ Frame w w' ∧
      Linked w'.next w'.head (nodes.drop budget) ∧ w'.given = (nodes.take budget).reverse ++ w.given := by
  induction budget generalizing w head nodes with
  | zero =>
    cases head with
    | none =>
      obtain rfl := hlinked.of_none
      refine ⟨w, rfl, hhead ▸ h, Frame.refl w, ?_, rfl⟩
      rw [hhead]
      exact .nil
    | some c =>
      obtain ⟨w', hrequeue, hinv, hframe, hgiven, hnodes⟩ := h.requeue hhead
      exact ⟨w', hrequeue, hinv, hframe, hnodes nodes hlinked, hgiven⟩
  | succ budget ih =>
    cases head with
    | none =>
      obtain rfl := hlinked.of_none
      refine ⟨w, rfl, hhead ▸ h, Frame.refl w, ?_, rfl⟩
      rw [hhead]
      exact .nil
    | some c =>
      obtain ⟨rest, rfl, hrest⟩ := hlinked.of_some
      obtain ⟨w', hnotify, hinv, hcells, hgiven, hhead', hframe⟩ := h.notify
      have hnext : w'.next = w.next := by
        funext a
        rw [RetirementWorld.next, RetirementWorld.next, hcells]
        by_cases ha : a = c
        · rw [ha, consume_self]
          rfl
        · rw [consume_of_ne ha]
      have hrest' : Linked w'.next (w.cells c).next rest := by
        rw [hnext]
        exact hrest
      obtain ⟨w'', hdrain, hinv', hframe', hlinked', hgiven'⟩ := ih hinv (hhead'.trans hhead) hrest'
      refine ⟨w'', ?_, hinv', (h.frame_consume.trans hframe).trans hframe', hlinked', ?_⟩
      · rw [RetirementWorld.drainFrom, hnotify]
        exact hdrain
      · rw [hgiven', hgiven, take_succ_cons, reverse_cons, append_assoc]
        rfl

theorem Inv.drain (budget : ℕ) {nodes : List CellId} (h : Inv w.head loose w) (hlinked : Linked w.next w.head nodes) :
    ∃ w', w.drain budget = some w' ∧ Inv w'.head loose w' ∧ Frame w w' ∧
      Linked w'.next w'.head (nodes.drop budget) ∧ w'.given = (nodes.take budget).reverse ++ w.given := by
  have hdetached : Inv w.head loose { w with head := none } :=
    ⟨h.queue, h.cell, h.packet, h.slot, h.registry, h.owned, h.log⟩
  obtain ⟨w', hdrain, hinv, hframe, hlinked', hgiven⟩ := hdetached.drainFrom budget rfl hlinked
  exact ⟨w', hdrain, hinv, ⟨hframe.recording, hframe.submitting, hframe.pending, hframe.packets, hframe.allocated,
    hframe.free, hframe.queue, hframe.published⟩, hlinked', hgiven⟩

theorem Inv.recycleRetired (h : Inv head loose w) :
    w.recycleRetired = some { w with free := w.retired.reverse ++ w.free, retired := [] } ∧
      Inv head loose { w with free := w.retired.reverse ++ w.free, retired := [] } := by
  have hall : w.retired.all (PacketLease.reusable w.cells) = true :=
    all_eq_true.2 fun s hs ↦ h.slot.consumed s (.inr hs)
  refine ⟨if_pos hall, h.queue, h.cell, h.packet, ⟨fun s ↦ ?_, fun s hs ↦ ?_⟩, h.registry, h.owned, h.log⟩
  · have hcount := h.slot.count s
    show (w.retired.reverse ++ w.free).count s + ([] : List ℕ).count s + (w.live ++ loose).count s =
      if s < w.allocated then 1 else 0
    rw [← hcount, count_append, count_reverse, count_nil]
    omega
  · obtain hs | hs := hs
    · obtain hs | hs := mem_append.1 hs
      · exact h.slot.consumed s (.inr (mem_reverse.1 hs))
      · exact h.slot.consumed s (.inl hs)
    · cases hs

theorem Inv.insertAll {leases : List PacketLease} (h : Inv head (leases.flatMap (·.slots) ++ loose) w)
    (howned : ∀ s, .ownedPage s ∈ leases → (w.cells (.slot s false)).queue = false) :
    ∃ w', leases.foldlM RetirementWorld.insert w = some w' ∧ Inv head loose w' ∧ Frame w w' ∧ w'.cells = w.cells ∧
      w'.given = w.given ∧ w'.head = w.head := by
  induction leases generalizing w with
  | nil => exact ⟨w, rfl, h, Frame.refl w, rfl, rfl, rfl⟩
  | cons lease leases ih =>
    rw [flatMap_cons, append_assoc] at h
    obtain ⟨w₁, hinsert, hinv, hframe, hcells, hgiven, hhead⟩ :=
      h.insert fun s hs ↦ howned s (hs ▸ mem_cons_self)
    obtain ⟨w₂, hfold, hinv', hframe', hcells', hgiven', hhead'⟩ := ih hinv fun s hs ↦ by
      rw [hcells]
      exact howned s (mem_cons_of_mem _ hs)
    refine ⟨w₂, ?_, hinv', hframe.trans hframe', hcells'.trans hcells, hgiven'.trans hgiven, hhead'.trans hhead⟩
    rw [foldlM_cons, hinsert]
    exact hfold

end RetirementWorld

end Mtld3d
