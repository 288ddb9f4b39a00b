import Mtld3d.PacketRetirementDrain

namespace Mtld3d

open List Lib

namespace RetirementWorld

variable {w : RetirementWorld} {head : Option CellId} {loose : List ℕ} {p : FramePacket} {rest : List FramePacket}

theorem leases_pending (w : RetirementWorld) (p : FramePacket) (rest : List FramePacket) :
    { w with pending := p :: rest }.leases.Perm (p.leases ++ { w with pending := rest }.leases) := by
  simp only [leases, flatMap_append, flatMap_cons]
  refine perm_iff_count.2 fun lease ↦ ?_
  simp only [count_append]
  omega

theorem canRetireLeases_admitted (hcancelled : p.cancelled = false) {cells : CellStore}
    (h : p.canRetireLeases cells = true) : p.admitted = true := by
  rw [FramePacket.canRetireLeases, hcancelled] at h
  simp only [Bool.false_or, Bool.and_eq_true] at h
  exact h.2.1

/-- A packet that may retire its leases hands them over and goes; another one stays as it is. -/
theorem Inv.visit (hpending : w.pending = p :: rest) (h : Inv w.head loose w) :
    ∃ w', { w with pending := rest }.visit p = some w' ∧ Inv w'.head loose w' ∧
      Frame { w with pending := rest ++ if p.canRetireLeases w.cells then [] else [p] } w' ∧
      w'.cells = w.cells ∧ w'.given = w.given ∧ w'.head = w.head := by
  have hp : p ∈ w.submitting ++ w.pending := by
    rw [hpending]
    exact mem_append_right _ mem_cons_self
  have hcancelled := (h.packet.known p hp).2.2
  have hw : w = { w with pending := p :: rest } := by rw [← hpending]
  have hperm : w.leases.Perm (p.leases ++ { w with pending := rest }.leases) := by
    rw [hw]
    exact leases_pending w p rest
  have hlive : w.live.Perm (p.leases.flatMap (·.slots) ++ { w with pending := rest }.live) := by
    refine (hperm.flatMap_right _).trans ?_
    rw [flatMap_append]
    rfl
  rw [RetirementWorld.visit]
  cases hcan : p.canRetireLeases w.cells with
  | true =>
    have hadmitted := canRetireLeases_admitted hcancelled hcan
    have hconsumed : (w.cells (.packet p.id)).isComplete = true := by
      rw [FramePacket.canRetireLeases] at hcan
      simp only [Bool.and_eq_true] at hcan
      exact hcan.1.2
    have htake : p.takeLeases w.cells = (p.leases, { p with leases := [] }) := by
      rw [FramePacket.takeLeases, hadmitted, hcan]
      rfl
    have hmoved : (w.live ++ loose).Perm
        ({ w with pending := rest }.live ++ (p.leases.flatMap (·.slots) ++ loose)) := by
      refine (hlive.append_right loose).trans ?_
      rw [← append_assoc]
      exact perm_append_comm.append_right _
    have hout : Inv w.head (p.leases.flatMap (·.slots) ++ loose) { w with pending := rest } := by
      refine ⟨h.queue, h.cell, ⟨fun q hq ↦ h.packet.known q ?_, fun id hopen ↦ ?_⟩, h.slot.perm hmoved, h.registry,
        fun s hs ↦ h.owned s (hperm.mem_iff.2 (mem_append_right _ hs)), h.log.perm hmoved⟩
      · rw [hpending]
        obtain hq | hq := mem_append.1 hq
        · exact mem_append_left _ hq
        · exact mem_append_right _ (mem_cons_of_mem _ hq)
      · obtain ⟨q, hq, rfl⟩ := h.packet.retained id hopen
        rw [hpending] at hq
        refine ⟨q, ?_, rfl⟩
        obtain hq | hq := mem_append.1 hq
        · exact mem_append_left _ hq
        · obtain rfl | hq := mem_cons.1 hq
          · exact absurd hopen (LeaseCompletion.not_open_of_isComplete hconsumed)
          · exact mem_append_right _ hq
    obtain ⟨w', hfold, hinv, hframe, hcells, hgiven, hhead⟩ :=
      hout.insertAll fun s hs ↦ h.owned s (hperm.mem_iff.2 (mem_append_left _ hs))
    have hown : (p.takeLeases w.cells).2.maintain w'.cells = ([], { p with leases := [] }, true) := by
      have hcan' : FramePacket.canRetireLeases w.cells { p with leases := [] } = true := hcan
      rw [htake, hcells, FramePacket.maintain, if_pos hcan']
      rfl
    refine ⟨w', ?_, hhead ▸ hinv, ?_, hcells, hgiven, hhead⟩
    · have hinsert : (p.takeLeases w.cells).1.foldlM RetirementWorld.insert { w with pending := rest } =
          some w' := by
        rw [htake]
        exact hfold
      show ((p.takeLeases w.cells).1.foldlM RetirementWorld.insert { w with pending := rest } >>= _) = _
      rw [hinsert]
      show ((((p.takeLeases w.cells).2.maintain w'.cells).1.foldlM recycleLease w') >>= _) = _
      rw [hown]
      rfl
    · rw [if_pos rfl, append_nil]
      exact hframe
  | false =>
    have htake : p.takeLeases w.cells = ([], p) := by
      rw [FramePacket.takeLeases, hcan, Bool.and_false]
      rfl
    have hown : p.maintain w.cells = ([], p, false) := by
      rw [FramePacket.maintain, hcan]
      rfl
    have hturn : w.leases.Perm { w with pending := rest ++ [p] }.leases := by
      refine perm_iff_count.2 fun lease ↦ ?_
      simp only [leases, hpending, flatMap_append, flatMap_cons, flatMap_nil, count_append,
        count_nil]
      omega
    have hheld : (w.live ++ loose).Perm ({ w with pending := rest ++ [p] }.live ++ loose) :=
      (hturn.flatMap_right _).append_right loose
    have hmem : ∀ q, q ∈ w.submitting ++ (rest ++ [p]) ↔ q ∈ w.submitting ++ w.pending := by
      intro q
      rw [hpending]
      simp only [mem_append, mem_cons, not_mem_nil, or_false]
      exact or_congr_right or_comm
    refine ⟨{ w with pending := rest ++ [p] }, ?_, ?_, ?_, rfl, rfl, rfl⟩
    · show ((p.takeLeases w.cells).1.foldlM RetirementWorld.insert { w with pending := rest } >>= _) = _
      rw [htake]
      show ((p.maintain w.cells).1.foldlM recycleLease { w with pending := rest } >>= _) = _
      rw [hown]
      rfl
    · exact ⟨h.queue, h.cell, ⟨fun q hq ↦ h.packet.known q ((hmem q).1 hq), fun id hopen ↦
        (h.packet.retained id hopen).imp fun q hq ↦ ⟨(hmem q).2 hq.1, hq.2⟩⟩, h.slot.perm hheld, h.registry,
        fun s hs ↦ h.owned s (hturn.mem_iff.2 hs), h.log.perm hheld⟩
    · exact Frame.refl _

theorem Inv.walk {todo kept : List FramePacket} (hpending : w.pending = todo ++ kept) (h : Inv w.head loose w) :
    ∃ w', walk todo.length w = some w' ∧ Inv w'.head loose w' ∧
      Frame { w with pending := kept ++ todo.filter fun p ↦ !p.canRetireLeases w.cells } w' ∧
      w'.cells = w.cells ∧ w'.given = w.given ∧ w'.head = w.head := by
  induction todo generalizing w kept with
  | nil =>
    refine ⟨w, rfl, h, ?_, rfl, rfl, rfl⟩
    rw [filter_nil, append_nil, ← nil_append kept, ← hpending]
    exact Frame.refl w
  | cons p todo ih =>
    have hfront : w.pending = p :: (todo ++ kept) := hpending
    obtain ⟨w₁, hvisit, hinv, hframe, hcells, hgiven, hhead⟩ := h.visit hfront
    have hpending' : w₁.pending = todo ++ (kept ++ if p.canRetireLeases w.cells then [] else [p]) :=
      hframe.pending.trans (append_assoc _ _ _)
    obtain ⟨w₂, hwalk, hinv', hframe', hcells', hgiven', hhead'⟩ := ih hpending' hinv
    refine ⟨w₂, ?_, hinv', ?_, hcells'.trans hcells, hgiven'.trans hgiven, hhead'.trans hhead⟩
    · rw [length_cons, RetirementWorld.walk, hfront]
      show ({ w with pending := todo ++ kept }.visit p >>= _) = _
      rw [hvisit]
      exact hwalk
    · have hfilter : kept ++ (p :: todo).filter (fun p ↦ !p.canRetireLeases w.cells) =
          (kept ++ if p.canRetireLeases w.cells then [] else [p]) ++
            todo.filter fun p ↦ !p.canRetireLeases w.cells := by
        cases hcan : p.canRetireLeases w.cells with
        | true => simp [hcan]
        | false => simp [hcan]
      rw [hcells] at hframe'
      exact ⟨hframe'.recording.trans hframe.recording, hframe'.submitting.trans hframe.submitting,
        hframe'.pending.trans hfilter.symm, hframe'.packets.trans hframe.packets,
        hframe'.allocated.trans hframe.allocated, hframe'.free.trans hframe.free, hframe'.queue, hframe'.published⟩

/-- What a whole pass does: it consumes up to its budget, hands over the leases of every packet whose replay
was consumed, and leaves nothing waiting to be recycled. -/
structure Passed (budget : ℕ) (nodes : List CellId) (w w' : RetirementWorld) : Prop where
  inv : Inv w'.head [] w'
  recording : w'.recording = w.recording
  submitting : w'.submitting = w.submitting
  allocated : w'.allocated = w.allocated
  pending : w'.pending = w.pending.filter fun p ↦ !p.canRetireLeases w'.cells
  retired : w'.retired = []
  queue : ∀ c, (w'.cells c).queue = (w.cells c).queue
  published : ∀ c, (w'.cells c).complete &&& 3 = (w.cells c).complete &&& 3
  linked : Linked w'.next w'.head (nodes.drop budget)
  given : w'.given = (nodes.take budget).reverse ++ w.given

theorem Inv.maintain (budget : ℕ) {nodes : List CellId} (h : Inv w.head [] w) (hlinked : Linked w.next w.head nodes) :
    ∃ w', w.maintain budget = some w' ∧ Passed budget nodes w w' := by
  obtain ⟨w₁, hdrain, hinv, hframe, hlinked', hgiven⟩ := h.drain budget hlinked
  obtain ⟨w₂, hwalk, hinv', hframe', hcells, hgiven', hhead⟩ := hinv.walk (append_nil w₁.pending).symm
  obtain ⟨hrecycle, hinv''⟩ := hinv'.recycleRetired
  refine ⟨{ w₂ with free := w₂.retired.reverse ++ w₂.free, retired := [] }, ?_, hinv'',
    hframe'.recording.trans hframe.recording, hframe'.submitting.trans hframe.submitting,
    hframe'.allocated.trans hframe.allocated, ?_, rfl, fun c ↦ (hframe'.queue c).trans (hframe.queue c),
    fun c ↦ (hframe'.published c).trans (hframe.published c), ?_, hgiven'.trans hgiven⟩
  · rw [RetirementWorld.maintain, hdrain]
    show (RetirementWorld.walk w₁.pending.length w₁ >>= _) = _
    rw [hwalk]
    exact hrecycle
  · refine hframe'.pending.trans ?_
    rw [nil_append, hframe.pending, ← hcells]
  · show Linked (fun c ↦ (w₂.cells c).next) w₂.head _
    rw [hcells, hhead]
    exact hlinked'

end RetirementWorld

end Mtld3d
