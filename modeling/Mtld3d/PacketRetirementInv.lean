import Mtld3d.PacketRetirement

namespace Mtld3d

open Function List Lib

namespace PacketLease

variable {cells cells' : CellStore} {lease : PacketLease} {s : ℕ}

theorem primary_mem (lease : PacketLease) : lease.primary ∈ lease.slots := by
  cases lease <;> exact mem_cons_self

theorem reusable_iff : reusable cells s = true ↔ ∀ final, (cells (.slot s final)).isComplete = true := by
  rw [reusable, Bool.and_eq_true]
  constructor
  · rintro ⟨hfinal, hacquired⟩ (_ | _)
    · exact hacquired
    · exact hfinal
  · exact fun h ↦ ⟨h true, h false⟩

theorem reusable_congr (h : ∀ final, (cells' (.slot s final)).isComplete = (cells (.slot s final)).isComplete) :
    reusable cells' s = reusable cells s := by
  rw [reusable, reusable, h, h]

theorem maintain_congr (h : ∀ s ∈ lease.slots, ∀ final,
    (cells' (.slot s final)).isComplete = (cells (.slot s final)).isComplete) :
    lease.maintain cells' = lease.maintain cells := by
  cases lease with
  | page slot => exact reusable_congr (h slot mem_cons_self)
  | query slot => exact reusable_congr (h slot mem_cons_self)
  | ownedPage slot => exact h slot mem_cons_self true
  | redirty events finals =>
    rw [maintain, maintain, reusable_congr (h events mem_cons_self),
      reusable_congr (h finals (mem_cons_of_mem _ mem_cons_self))]

def Unacquired (cells : CellStore) (lease : PacketLease) : Prop :=
  ∀ slot, lease = .ownedPage slot → (cells (.slot slot false)).isComplete = true

theorem reusable_of_maintain (howned : lease.Unacquired cells) (h : lease.maintain cells = true) :
    ∀ s ∈ lease.slots, reusable cells s = true := by
  intro s hs
  cases lease with
  | page slot =>
    obtain rfl := mem_singleton.1 hs
    exact h
  | query slot =>
    obtain rfl := mem_singleton.1 hs
    exact h
  | ownedPage slot =>
    obtain rfl := mem_singleton.1 hs
    rw [reusable, Bool.and_eq_true]
    exact ⟨h, howned s rfl⟩
  | redirty events finals =>
    rw [maintain, Bool.and_eq_true] at h
    obtain rfl | hs := mem_cons.1 hs
    · exact h.2
    · obtain rfl := mem_singleton.1 hs
      exact h.1

theorem maintain_of_reusable (h : ∀ s ∈ lease.slots, reusable cells s = true) : lease.maintain cells = true := by
  cases lease with
  | page slot => exact h slot mem_cons_self
  | query slot => exact h slot mem_cons_self
  | ownedPage slot => exact reusable_iff.1 (h slot mem_cons_self) true
  | redirty events finals =>
    rw [maintain, Bool.and_eq_true]
    exact ⟨h finals (mem_cons_of_mem _ mem_cons_self), h events mem_cons_self⟩

theorem intoSlots_of_maintain (h : lease.maintain cells = true) : lease.intoSlots cells = some lease.slots := by
  cases lease with
  | page slot => rfl
  | query slot => rfl
  | ownedPage slot => exact if_pos h
  | redirty events finals =>
    rw [maintain, Bool.and_comm] at h
    exact if_pos h

end PacketLease

namespace RetirementWorld

def leases (w : RetirementWorld) : List PacketLease :=
  w.recording ++ ((w.submitting ++ w.pending).flatMap (·.leases) ++ items w.entries)

def live (w : RetirementWorld) : List ℕ := w.leases.flatMap (·.slots)

/-- From `head` the links lead through exactly the cells published and not consumed. -/
structure QueueInv (cells : CellStore) (head : Option CellId) : Prop where
  linked : ∃ nodes, Linked (fun c ↦ (cells c).next) head nodes ∧ nodes.Nodup ∧ ∀ c, c ∈ nodes ↔ (cells c).Ready
  shape : ∀ c, (cells c).queue = true → (cells c).Shape ∧ (cells c).token = c.token

structure CellInv (cells : CellStore) (allocated packets : ℕ) : Prop where
  bound : allocated ≤ maxSlots
  idle : ∀ s final, s < allocated → (cells (.slot s final)).queue = false →
    (cells (.slot s final)).isComplete = true
  fresh : ∀ s final, allocated ≤ s → (cells (.slot s final)).queue = false
  freshPacket : ∀ id, packets ≤ id → (cells (.packet id)).queue = false

/-- A replay completion still to be consumed belongs to a packet that exists. -/
structure PacketInv (cells : CellStore) (packets : ℕ) (ps : List FramePacket) : Prop where
  known : ∀ p ∈ ps, p.id < packets ∧ (cells (.packet p.id)).queue = true ∧ p.cancelled = false
  retained : ∀ id, (cells (.packet id)).Open → ∃ p ∈ ps, p.id = id

/-- Each slot has one holder, and one that is free or about to be has both cells consumed. -/
structure SlotInv (cells : CellStore) (allocated : ℕ) (free retired held : List ℕ) : Prop where
  count : ∀ s, free.count s + retired.count s + held.count s = if s < allocated then 1 else 0
  consumed : ∀ s, s ∈ free ∨ s ∈ retired → PacketLease.reusable cells s = true

/-- The registry holds leases that are not done, under the tokens of all their slots. -/
structure RegistryInv (cells : CellStore) (entries : List (Option PacketLease)) (aliases : List (Option ℕ)) :
    Prop where
  entry : ∀ p lease, slotAt entries p = some lease →
    lease.primary = p ∧ lease.maintain cells = false ∧ ∀ s ∈ lease.slots, slotAt aliases s = some p
  owner : ∀ s p, slotAt aliases s = some p → ∃ lease, slotAt entries p = some lease ∧ s ∈ lease.slots

/-- Each cell was given to the consumer once for each use of it but one still open, and each slot was retired
once for each allocation but one still held. -/
structure LogInv (cells : CellStore) (opened given : List CellId) (leased returned held : List ℕ) : Prop where
  given : ∀ c, given.count c + (if (cells c).Open then 1 else 0) = opened.count c
  returned : ∀ s, returned.count s + held.count s = leased.count s

/-- What holds between any two steps of a pass, with `head` the list in hand and `loose` the slots of a lease
on its way from one owner to the next. -/
structure Inv (head : Option CellId) (loose : List ℕ) (w : RetirementWorld) : Prop where
  queue : QueueInv w.cells head
  cell : CellInv w.cells w.allocated w.packets
  packet : PacketInv w.cells w.packets (w.submitting ++ w.pending)
  slot : SlotInv w.cells w.allocated w.free w.retired (w.live ++ loose)
  registry : RegistryInv w.cells w.entries w.aliases
  owned : ∀ s, .ownedPage s ∈ w.leases → (w.cells (.slot s false)).queue = false
  log : LogInv w.cells w.opened w.given w.leased w.returned (w.live ++ loose)

theorem inv_new : Inv none [] new where
  queue := ⟨⟨[], .nil, nodup_nil, fun c ↦ ⟨nofun, fun h ↦ absurd h.1 Bool.false_ne_true⟩⟩,
    fun c h ↦ absurd h Bool.false_ne_true⟩
  cell := ⟨Nat.zero_le _, nofun, fun _ _ _ ↦ rfl, fun _ _ ↦ rfl⟩
  packet := ⟨nofun, fun id h ↦ absurd h.1 Bool.false_ne_true⟩
  slot := ⟨fun _ ↦ rfl, by simp [new]⟩
  registry := ⟨nofun, nofun⟩
  owned := nofun
  log := ⟨fun c ↦ by simp [new, LeaseCompletion.Open, LeaseCompletion.new], fun _ ↦ rfl⟩

section Status

variable {cells cells' : CellStore} {allocated packets : ℕ} {free retired held held' : List ℕ}

/-- Two stores that agree on which cells are queued and which are complete. -/
structure SameStatus (cells cells' : CellStore) : Prop where
  queue : ∀ c, (cells' c).queue = (cells c).queue
  isComplete : ∀ c, (cells' c).isComplete = (cells c).isComplete

theorem SameStatus.open_iff (h : SameStatus cells cells') (c : CellId) : (cells' c).Open ↔ (cells c).Open := by
  rw [LeaseCompletion.Open, LeaseCompletion.Open, h.queue, h.isComplete]

theorem SameStatus.update {c : CellId} {cell : LeaseCompletion} (hqueue : cell.queue = (cells c).queue)
    (hcomplete : cell.isComplete = (cells c).isComplete) : SameStatus cells (update cells c cell) := by
  constructor
  · intro c'
    by_cases hc : c' = c
    · rw [hc, update_self, hqueue]
    · rw [update_of_ne hc]
  · intro c'
    by_cases hc : c' = c
    · rw [hc, update_self, hcomplete]
    · rw [update_of_ne hc]

theorem SlotInv.perm (h : SlotInv cells allocated free retired held) (hperm : held.Perm held') :
    SlotInv cells allocated free retired held' :=
  ⟨fun s ↦ hperm.count_eq s ▸ h.count s, h.consumed⟩

theorem LogInv.perm {opened given : List CellId} {leased returned : List ℕ}
    (h : LogInv cells opened given leased returned held) (hperm : held.Perm held') :
    LogInv cells opened given leased returned held' :=
  ⟨h.given, fun s ↦ hperm.count_eq s ▸ h.returned s⟩

variable {w : RetirementWorld} {head : Option CellId} {loose : List ℕ}

theorem Inv.lt_allocated (h : Inv head loose w) {s : ℕ} (hs : s ∈ w.live ++ loose) : s < w.allocated := by
  have hcount := h.slot.count s
  have hpos := count_pos_iff.2 hs
  by_contra hlt
  rw [if_neg hlt] at hcount
  omega

variable {lease : PacketLease}

theorem Inv.unacquired (h : Inv head loose w) (hlease : lease ∈ w.leases) : lease.Unacquired w.cells := by
  rintro s rfl
  refine h.cell.idle s false (h.lt_allocated (mem_append_left _ ?_)) (h.owned s hlease)
  exact mem_flatMap.2 ⟨_, hlease, mem_cons_self⟩

theorem Inv.sameStatus (h : Inv head loose w) (hs : SameStatus w.cells cells') {head' : Option CellId}
    (hqueue : QueueInv cells' head') (hd : Option CellId) :
    Inv head' loose { w with cells := cells', head := hd } where
  queue := hqueue
  cell := by
    refine ⟨h.cell.bound, fun s final hlt hq ↦ ?_, fun s final hge ↦ ?_, fun id hge ↦ ?_⟩
    · rw [hs.isComplete]
      exact h.cell.idle s final hlt ((hs.queue _).symm.trans hq)
    · exact (hs.queue _).trans (h.cell.fresh s final hge)
    · exact (hs.queue _).trans (h.cell.freshPacket id hge)
  packet := by
    refine ⟨fun p hp ↦ ?_, fun id hopen ↦ h.packet.retained id ((hs.open_iff _).1 hopen)⟩
    obtain ⟨hlt, hq, hc⟩ := h.packet.known p hp
    exact ⟨hlt, (hs.queue _).trans hq, hc⟩
  slot := ⟨h.slot.count, fun s hmem ↦
    (PacketLease.reusable_congr fun final ↦ hs.isComplete _).trans (h.slot.consumed s hmem)⟩
  registry := by
    refine ⟨fun p lease hentry ↦ ?_, h.registry.owner⟩
    obtain ⟨hp, hm, ha⟩ := h.registry.entry p lease hentry
    exact ⟨hp, (PacketLease.maintain_congr fun s _ final ↦ hs.isComplete _).trans hm, ha⟩
  owned := fun s hmem ↦ (hs.queue _).trans (h.owned s hmem)
  log := by
    refine ⟨fun c ↦ ?_, h.log.returned⟩
    rw [← h.log.given c]
    congr 1
    exact if_congr (hs.open_iff c) rfl rfl

end Status

section Queue

variable {w : RetirementWorld} {head : Option CellId} {loose : List ℕ} {c : CellId} {state : ℕ}

theorem update_next (cells : CellStore) (c : CellId) (cell : LeaseCompletion) :
    (fun a ↦ (update cells c cell a).next) = update (fun a ↦ (cells a).next) c cell.next := by
  funext a
  by_cases ha : a = c
  · rw [ha, update_self, update_self]
  · rw [update_of_ne ha, update_of_ne ha]

theorem Inv.queued_of_exposed (h : Inv head loose w) (hc : w.Exposed c) (hzero : (w.cells c).complete = 0) :
    (w.cells c).queue = true := by
  cases c with
  | slot s final =>
    by_contra hq
    have hdone := h.cell.idle s final hc.1 (Bool.not_eq_true _ ▸ hq)
    rw [LeaseCompletion.isComplete, if_neg hq, hzero] at hdone
    cases hdone
  | packet id =>
    obtain ⟨p, hp, rfl⟩ := hc
    exact (h.packet.known p hp).2.1

theorem QueueInv.publish {cells : CellStore} (h : QueueInv cells head) (hqueue : (cells c).queue = true)
    (hzero : (cells c).complete = 0) (hstate : state = 1 ∨ state = 2) :
    QueueInv (update cells c { cells c with complete := state, next := head }) (some c) := by
  obtain ⟨nodes, hlinked, hnodup, hready⟩ := h.linked
  have hout : c ∉ nodes := by
    intro hc
    obtain ⟨-, hone | htwo⟩ := (hready c).1 hc
    · omega
    · omega
  refine ⟨⟨c :: nodes, ?_, nodup_cons.2 ⟨hout, hnodup⟩, fun a ↦ ?_⟩, fun a ha ↦ ?_⟩
  · rw [update_next]
    exact hlinked.push hout
  · by_cases ha : a = c
    · rw [ha, update_self]
      exact ⟨fun _ ↦ ⟨hqueue, hstate⟩, fun _ ↦ mem_cons_self⟩
    · rw [update_of_ne ha, mem_cons, hready]
      exact ⟨fun h ↦ h.resolve_left ha, .inr⟩
  · by_cases hac : a = c
    · rw [hac, update_self]
      refine ⟨?_, (h.shape c hqueue).2⟩
      obtain rfl | rfl := hstate
      · exact .inr (.inl rfl)
      · exact .inr (.inr (.inl rfl))
    · rw [update_of_ne hac] at ha ⊢
      exact h.shape a ha

theorem Inv.publish (h : Inv w.head loose w) (hc : w.Exposed c) (hstate : state = 1 ∨ state = 2) :
    Inv (w.publish c state).head loose (w.publish c state) := by
  rw [RetirementWorld.publish]
  by_cases hdone : (w.cells c).complete ≠ 0
  · rw [if_pos hdone]
    exact h
  have hzero : (w.cells c).complete = 0 := not_not.1 hdone
  have hqueue := h.queued_of_exposed hc hzero
  rw [if_neg hdone, if_pos hqueue]
  have hstatus : SameStatus w.cells
      (update w.cells c { w.cells c with complete := state, next := w.head }) := by
    refine .update rfl ?_
    have hready : LeaseCompletion.Ready { w.cells c with complete := state, next := w.head } := ⟨hqueue, hstate⟩
    exact hready.isComplete.trans (LeaseCompletion.open_of_unpublished hqueue hzero).2.symm
  exact h.sameStatus hstatus (h.queue.publish hqueue hzero hstate) _

theorem Inv.length_le (h : Inv head loose w) {nodes : List CellId} (hnodup : nodes.Nodup)
    (hready : ∀ c ∈ nodes, (w.cells c).Ready) : nodes.length ≤ 2 * w.allocated + w.packets := by
  let all : List CellId := (List.range w.allocated).map (CellId.slot · false) ++
    ((List.range w.allocated).map (CellId.slot · true) ++ (List.range w.packets).map CellId.packet)
  have hsub : nodes ⊆ all := by
    intro c hc
    have hqueue := (hready c hc).1
    cases c with
    | slot s final =>
      have hs : s ∈ List.range w.allocated := by
        rw [mem_range]
        by_contra hge
        rw [h.cell.fresh s final (Nat.le_of_not_lt hge)] at hqueue
        cases hqueue
      cases final with
      | false => exact mem_append_left _ (mem_map_of_mem hs)
      | true => exact mem_append_right _ (mem_append_left _ (mem_map_of_mem hs))
    | packet id =>
      have hid : id ∈ List.range w.packets := by
        rw [mem_range]
        by_contra hge
        rw [h.cell.freshPacket id (Nat.le_of_not_lt hge)] at hqueue
        cases hqueue
      exact mem_append_right _ (mem_append_right _ (mem_map_of_mem hid))
  have hle := (subperm_of_subset hnodup hsub).length_le
  have hlen : all.length = w.allocated + (w.allocated + w.packets) := by simp [all]
  omega

structure Frame (w w' : RetirementWorld) : Prop where
  recording : w'.recording = w.recording
  submitting : w'.submitting = w.submitting
  pending : w'.pending = w.pending
  packets : w'.packets = w.packets
  allocated : w'.allocated = w.allocated
  free : w'.free = w.free
  queue : ∀ c, (w'.cells c).queue = (w.cells c).queue
  published : ∀ c, (w'.cells c).complete &&& 3 = (w.cells c).complete &&& 3

theorem Frame.refl (w : RetirementWorld) : Frame w w := ⟨rfl, rfl, rfl, rfl, rfl, rfl, fun _ ↦ rfl, fun _ ↦ rfl⟩

theorem Frame.trans {w₁ w₂ w₃ : RetirementWorld} (h : Frame w₁ w₂) (h' : Frame w₂ w₃) : Frame w₁ w₃ where
  recording := h'.recording.trans h.recording
  submitting := h'.submitting.trans h.submitting
  pending := h'.pending.trans h.pending
  packets := h'.packets.trans h.packets
  allocated := h'.allocated.trans h.allocated
  free := h'.free.trans h.free
  queue := fun c ↦ (h'.queue c).trans (h.queue c)
  published := fun c ↦ (h'.published c).trans (h.published c)

theorem Inv.requeue (h : Inv (some c) loose w) (hhead : w.head = none) :
    ∃ w', w.requeue c = some w' ∧ Inv w'.head loose w' ∧ Frame w w' ∧ w'.given = w.given ∧
      ∀ nodes, Linked w.next (some c) nodes → Linked w'.next w'.head nodes := by
  obtain ⟨nodes, hlinked, hnodup, hready⟩ := h.queue.linked
  obtain ⟨last, hwalk, hlast⟩ := hlinked.lastNode_eq (h.length_le hnodup fun a ha ↦ (hready a).1 ha)
  have hend : Linked (update (fun a ↦ (w.cells a).next) last none) (some c) nodes := by
    have happend := hlinked.append hlast (.nil) (by rwa [append_nil])
    rwa [append_nil] at happend
  have hsame : ∀ a, (update w.cells last { w.cells last with next := none } a).complete =
        (w.cells a).complete ∧
      (update w.cells last { w.cells last with next := none } a).queue = (w.cells a).queue ∧
      (update w.cells last { w.cells last with next := none } a).token = (w.cells a).token := by
    intro a
    by_cases ha : a = last
    · rw [ha, update_self]
      exact ⟨rfl, rfl, rfl⟩
    · rw [update_of_ne ha]
      exact ⟨rfl, rfl, rfl⟩
  have hqueue : QueueInv (update w.cells last { w.cells last with next := none }) (some c) := by
    refine ⟨⟨nodes, update_next w.cells last _ ▸ hend, hnodup, fun a ↦ ?_⟩, fun a ha ↦ ?_⟩
    · rw [hready, LeaseCompletion.Ready, LeaseCompletion.Ready, (hsame a).1, (hsame a).2.1]
    · rw [(hsame a).2.1] at ha
      rw [LeaseCompletion.Shape, (hsame a).1, (hsame a).2.2]
      exact h.queue.shape a ha
  have hstatus : SameStatus w.cells (update w.cells last { w.cells last with next := none }) :=
    .update rfl rfl
  refine ⟨{ w with cells := update w.cells last { w.cells last with next := none }, head := some c },
    ?_, h.sameStatus hstatus hqueue _, ⟨rfl, rfl, rfl, rfl, rfl, rfl, fun a ↦ (hsame a).2.1,
      fun a ↦ congrArg (· &&& 3) (hsame a).1⟩, rfl, fun nodes' hnodes ↦ ?_⟩
  · have hsought : lastNode w.next (2 * w.allocated + w.packets) c = some last := hwalk
    rw [RetirementWorld.requeue, hsought, hhead]
    rfl
  · obtain rfl := hnodes.unique hlinked
    have hlinks : RetirementWorld.next { w with
        cells := update w.cells last { w.cells last with next := none }, head := some c } =
        update (fun a ↦ (w.cells a).next) last none := update_next w.cells last _
    rw [hlinks]
    exact hend

end Queue

section Registry

variable {w : RetirementWorld} {head : Option CellId} {loose : List ℕ} {aliases : List (Option ℕ)}

theorem addAliases_spec (primary : ℕ) {tokens : List ℕ} (hnodup : tokens.Nodup)
    (hnone : ∀ t ∈ tokens, slotAt aliases t = none) :
    ∃ aliases', addAliases primary aliases tokens = some aliases' ∧
      ∀ s, slotAt aliases' s = if s ∈ tokens then some primary else slotAt aliases s := by
  induction tokens generalizing aliases with
  | nil => exact ⟨aliases, rfl, fun s ↦ rfl⟩
  | cons t tokens ih =>
    obtain ⟨hout, hnodup⟩ := nodup_cons.1 hnodup
    have hset : ∀ s, slotAt ((grow aliases (t + 1)).set t (some primary)) s =
        if s = t then some primary else slotAt aliases s := by
      intro s
      rw [slotAt_set (lt_length_grow (Nat.lt_succ_self t)), slotAt_grow]
    have hrest : ∀ u ∈ tokens, slotAt ((grow aliases (t + 1)).set t (some primary)) u = none := by
      intro u hu
      have hne : u ≠ t := by
        rintro rfl
        exact hout hu
      rw [hset, if_neg hne]
      exact hnone u (mem_cons_of_mem _ hu)
    obtain ⟨aliases', hadd, hat⟩ := ih hnodup hrest
    refine ⟨aliases', ?_, fun s ↦ ?_⟩
    · rw [addAliases, foldlM_cons]
      dsimp only
      rw [slotAt_grow, hnone t mem_cons_self]
      exact hadd
    · rw [hat, hset]
      by_cases hs : s = t
      · rw [if_pos hs, hs, if_neg hout, if_pos mem_cons_self]
      · rw [if_neg hs]
        exact if_congr ⟨mem_cons_of_mem _, fun h ↦ (mem_cons.1 h).resolve_left hs⟩ rfl rfl

theorem clearAliases_spec {tokens : List ℕ} (hnodup : tokens.Nodup)
    (hsome : ∀ t ∈ tokens, ∃ p, slotAt aliases t = some p) :
    ∃ aliases', clearAliases aliases tokens = some aliases' ∧
      ∀ s, slotAt aliases' s = if s ∈ tokens then none else slotAt aliases s := by
  induction tokens generalizing aliases with
  | nil => exact ⟨aliases, rfl, fun s ↦ rfl⟩
  | cons t tokens ih =>
    obtain ⟨hout, hnodup⟩ := nodup_cons.1 hnodup
    obtain ⟨p, hp⟩ := hsome t mem_cons_self
    have hlt := lt_of_slotAt hp
    have hrest : ∀ u ∈ tokens, ∃ p, slotAt (aliases.set t none) u = some p := by
      intro u hu
      have hne : u ≠ t := by
        rintro rfl
        exact hout hu
      rw [slotAt_set hlt, if_neg hne]
      exact hsome u (mem_cons_of_mem _ hu)
    obtain ⟨aliases', hclear, hat⟩ := ih hnodup hrest
    refine ⟨aliases', ?_, fun s ↦ ?_⟩
    · rw [clearAliases, foldlM_cons, if_pos hlt]
      exact hclear
    · rw [hat, slotAt_set hlt]
      by_cases hs : s = t
      · rw [if_pos hs, hs, if_neg hout, if_pos mem_cons_self]
      · rw [if_neg hs]
        exact if_congr ⟨mem_cons_of_mem _, fun h ↦ (mem_cons.1 h).resolve_left hs⟩ rfl rfl

theorem leases_setEntries (w : RetirementWorld) {entries : List (Option PacketLease)}
    (h : (items entries).Perm (lease :: items w.entries)) :
    { w with entries := entries }.leases.Perm (lease :: w.leases) := by
  refine ((h.append_left _).append_left _).trans ?_
  rw [leases, ← append_assoc, ← append_assoc]
  exact perm_middle

theorem live_perm {w w' : RetirementWorld} (h : w'.leases.Perm (lease :: w.leases)) :
    w'.live.Perm (lease.slots ++ w.live) := h.flatMap_right _

theorem Inv.retire {slots : List ℕ} (h : Inv head (slots ++ loose) w)
    (hdone : ∀ s ∈ slots, PacketLease.reusable w.cells s = true) : Inv head loose (w.retire slots) where
  queue := h.queue
  cell := h.cell
  packet := h.packet
  slot := by
    refine ⟨fun s ↦ ?_, fun s hs ↦ ?_⟩
    · have hcount := h.slot.count s
      show w.free.count s + (w.retired ++ slots).count s + (w.live ++ loose).count s = if s < w.allocated then 1 else 0
      simp only [count_append] at hcount ⊢
      omega
    · obtain hs | hs := hs
      · exact h.slot.consumed s (.inl hs)
      · obtain hs | hs := mem_append.1 hs
        · exact h.slot.consumed s (.inr hs)
        · exact hdone s hs
  registry := h.registry
  owned := h.owned
  log := by
    refine ⟨h.log.given, fun s ↦ ?_⟩
    have hcount := h.log.returned s
    show (slots ++ w.returned).count s + (w.live ++ loose).count s = w.leased.count s
    simp only [count_append] at hcount ⊢
    omega

theorem Inv.nodup_held (h : Inv head loose w) : (w.live ++ loose).Nodup := by
  rw [nodup_iff_count_le_one]
  intro s
  have hcount := h.slot.count s
  split_ifs at hcount <;> omega

theorem Inv.not_registered (h : Inv head loose w) {s p : ℕ} (hs : s ∈ loose)
    (hentry : slotAt w.entries p = some lease) : s ∉ lease.slots := by
  intro hmem
  have hlive : s ∈ w.live := by
    refine mem_flatMap.2 ⟨lease, ?_, hmem⟩
    exact mem_append_right _ (mem_append_right _ (mem_items.2 ⟨p, hentry⟩))
  exact (nodup_append'.1 h.nodup_held).2.2 hlive hs

/-- A lease handed over is retired at once or registered, and no assertion fails. -/
theorem Inv.insert (h : Inv head (lease.slots ++ loose) w)
    (howned : ∀ s, lease = .ownedPage s → (w.cells (.slot s false)).queue = false) :
    ∃ w', w.insert lease = some w' ∧ Inv head loose w' ∧ Frame w w' ∧ w'.cells = w.cells ∧ w'.given = w.given ∧
      w'.head = w.head := by
  have hloose : ∀ s ∈ lease.slots, s ∈ lease.slots ++ loose := fun s hs ↦ mem_append_left _ hs
  have hunacquired : lease.Unacquired w.cells := by
    intro s hs
    refine h.cell.idle s false (h.lt_allocated (mem_append_right _ (hloose s ?_))) (howned s hs)
    rw [hs]
    exact mem_cons_self
  rw [RetirementWorld.insert]
  cases hm : lease.maintain w.cells with
  | true =>
    refine ⟨w.retire lease.slots, ?_, h.retire (PacketLease.reusable_of_maintain hunacquired hm),
      ⟨rfl, rfl, rfl, rfl, rfl, rfl, fun _ ↦ rfl, fun _ ↦ rfl⟩, rfl, rfl, rfl⟩
    rw [if_pos rfl, PacketLease.intoSlots_of_maintain hm]
    rfl
  | false =>
    have hnodup : lease.slots.Nodup :=
      ((h.nodup_held.sublist (sublist_append_right _ _)).sublist (sublist_append_left _ _))
    have hempty : slotAt w.entries lease.primary = none := by
      cases hentry : slotAt w.entries lease.primary with
      | none => rfl
      | some other =>
        have hprimary := (h.registry.entry _ other hentry).1
        exact absurd (hprimary ▸ other.primary_mem)
          (h.not_registered (hloose _ lease.primary_mem) hentry)
    have hnone : ∀ t ∈ lease.slots, slotAt w.aliases t = none := by
      intro t ht
      cases halias : slotAt w.aliases t with
      | none => rfl
      | some p =>
        obtain ⟨other, hentry, hmem⟩ := h.registry.owner t p halias
        exact absurd hmem (h.not_registered (hloose t ht) hentry)
    obtain ⟨aliases', hadd, hat⟩ := addAliases_spec lease.primary hnodup hnone
    have hlt : lease.primary < (grow w.entries (lease.primary + 1)).length := lt_length_grow (Nat.lt_succ_self _)
    have hset : ∀ p, slotAt ((grow w.entries (lease.primary + 1)).set lease.primary (some lease)) p =
        if p = lease.primary then some lease else slotAt w.entries p := by
      intro p
      rw [slotAt_set hlt, slotAt_grow]
    have hperm : ({ w with
          entries := (grow w.entries (lease.primary + 1)).set lease.primary (some lease)
          aliases := aliases' } : RetirementWorld).leases.Perm (lease :: w.leases) := by
      refine leases_setEntries w ?_
      have hitems := items_set_some (a := lease) hlt (slotAt_grow.trans hempty)
      rwa [items_grow] at hitems
    have hheld := (live_perm hperm).append_right loose
    have hmoved : (w.live ++ (lease.slots ++ loose)).Perm ((lease.slots ++ w.live) ++ loose) := by
      rw [← append_assoc]
      exact perm_append_comm.append_right _
    refine ⟨{ w with
        entries := (grow w.entries (lease.primary + 1)).set lease.primary (some lease)
        aliases := aliases' }, ?_, ?_, ⟨rfl, rfl, rfl, rfl, rfl, rfl, fun _ ↦ rfl, fun _ ↦ rfl⟩, rfl, rfl, rfl⟩
    · have hfresh : (slotAt (grow w.entries (lease.primary + 1)) lease.primary).isSome = false := by
        rw [slotAt_grow, hempty]
        rfl
      simp only [Bool.false_eq_true, if_false, hfresh, hadd]
      rfl
    · refine ⟨h.queue, h.cell, h.packet, h.slot.perm (hmoved.trans hheld.symm), ⟨fun p other hentry ↦ ?_,
        fun s p halias ↦ ?_⟩, fun s hs ↦ ?_, h.log.perm (hmoved.trans hheld.symm)⟩
      · have hentry : (if p = lease.primary then some lease else slotAt w.entries p) = some other :=
          (hset p).symm.trans hentry
        by_cases hp : p = lease.primary
        · rw [if_pos hp] at hentry
          obtain rfl := Option.some.inj hentry
          refine ⟨hp.symm, hm, fun s hs ↦ ?_⟩
          exact (hat s).trans ((if_pos hs).trans (congrArg some hp.symm))
        · rw [if_neg hp] at hentry
          obtain ⟨hprimary, hbusy, haliases⟩ := h.registry.entry p other hentry
          refine ⟨hprimary, hbusy, fun s hs ↦ ?_⟩
          have hout : s ∉ lease.slots := fun hmem ↦ h.not_registered (hloose s hmem) hentry hs
          exact (hat s).trans ((if_neg hout).trans (haliases s hs))
      · have halias : (if s ∈ lease.slots then some lease.primary else slotAt w.aliases s) = some p :=
          (hat s).symm.trans halias
        by_cases hs : s ∈ lease.slots
        · rw [if_pos hs] at halias
          obtain rfl := Option.some.inj halias
          exact ⟨lease, (hset _).trans (if_pos rfl), hs⟩
        · rw [if_neg hs] at halias
          obtain ⟨other, hentry, hmem⟩ := h.registry.owner s p halias
          refine ⟨other, (hset p).trans ((if_neg ?_).trans hentry), hmem⟩
          rintro rfl
          rw [hempty] at hentry
          cases hentry
      · obtain hs | hs := mem_cons.1 (hperm.mem_iff.1 hs)
        · exact howned s hs.symm
        · exact h.owned s hs

end Registry

end RetirementWorld

end Mtld3d
