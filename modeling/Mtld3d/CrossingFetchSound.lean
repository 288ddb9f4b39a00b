import Mtld3d.CrossingFetch

namespace Mtld3d

open List Lib VertexAttrDesc StreamMasks

namespace VertexAttrDesc

/-- The attribute names a stream of the table and is no wider than its stride. -/
structure Valid (layouts : StreamLayouts) (a : VertexAttrDesc) : Prop where
  inRange : a.bufferIndex < maxStreams
  narrow : a.format.byteSize ≤ (layouts a.stream).stride

variable {a : VertexAttrDesc}

theorem stream_val (h : a.bufferIndex < maxStreams) : a.stream.val = a.bufferIndex :=
  Nat.mod_eq_of_lt h

theorem stream_of_slot (a : VertexAttrDesc) (slot : Fin maxStreams) (offset : ℕ) :
    ({ a with bufferIndex := slot.val, offset := offset } : VertexAttrDesc).stream = slot :=
  Fin.ext (Nat.mod_eq_of_lt slot.isLt)

end VertexAttrDesc

section Remap

variable {original : StreamLayouts} {read : Finset (Fin maxStreams)} {attrs : List VertexAttrDesc}

def fitting (original : StreamLayouts) (attrs : List VertexAttrDesc) : Finset (Fin maxStreams) :=
  ((attrs.filter fun a ↦ a.fits (original a.stream).stride).map stream).toFinset

def crossing (original : StreamLayouts) (attrs : List VertexAttrDesc) : Finset (Fin maxStreams) :=
  ((attrs.filter fun a ↦ !a.fits (original a.stream).stride).map stream).toFinset

def crossings (original : StreamLayouts) (attrs : List VertexAttrDesc) : ℕ :=
  attrs.countP fun a ↦ !a.fits (original a.stream).stride

theorem crossing_card_le (original : StreamLayouts) (attrs : List VertexAttrDesc) :
    (crossing original attrs).card ≤ crossings original attrs := by
  refine (toFinset_card_le _).trans ?_
  rw [length_map, crossings, countP_eq_length_filter]

theorem fitting_card_le (original : StreamLayouts) (attrs : List VertexAttrDesc) :
    (fitting original attrs).card + crossings original attrs ≤ attrs.length := by
  have hfit := toFinset_card_le
    ((attrs.filter fun a ↦ a.fits (original a.stream).stride).map stream)
  have hsum := length_eq_countP_add_countP (fun a : VertexAttrDesc ↦ a.fits (original a.stream).stride)
    (l := attrs)
  rw [length_map, ← countP_eq_length_filter] at hfit
  simp only [crossings, fitting]
  simp only [Bool.not_eq_true, Bool.decide_eq_false] at hsum
  omega

theorem mem_fitting (ha : a ∈ attrs) (hf : a.fits (original a.stream).stride = true) :
    a.stream ∈ fitting original attrs := by
  rw [fitting, mem_toFinset]
  exact mem_map_of_mem (mem_filter.2 ⟨ha, hf⟩)

theorem crossing_cons_of_fits (attrs : List VertexAttrDesc) (hf : a.fits (original a.stream).stride = true) :
    crossing original (a :: attrs) = crossing original attrs ∧
      crossings original (a :: attrs) = crossings original attrs := by
  constructor
  · simp [crossing, hf]
  · simp [crossings, hf]

theorem crossing_cons (attrs : List VertexAttrDesc) (hf : a.fits (original a.stream).stride = false) :
    crossing original (a :: attrs) = insert a.stream (crossing original attrs) ∧
      crossings original (a :: attrs) = crossings original attrs + 1 := by
  constructor
  · simp [crossing, hf]
  · simp [crossings, hf]

theorem scan_eq (hv : ∀ a ∈ attrs, a.Valid original) (m : StreamMasks) : scan original m attrs =
      .ok ⟨m.reserved ∪ fitting original attrs, m.read ∪ (attrs.map stream).toFinset⟩ := by
  induction attrs generalizing m with
  | nil => simp [scan, fitting]
  | cons a attrs ih =>
    have ha := hv a mem_cons_self
    have hidx : (⟨a.bufferIndex, ha.inRange⟩ : Fin maxStreams) = a.stream :=
      Fin.ext (stream_val ha.inRange).symm
    have hnarrow : ¬ (original a.stream).stride < a.format.byteSize := not_lt.2 ha.narrow
    have hrest := ih fun b hb ↦ hv b (mem_cons_of_mem a hb)
    by_cases hf : a.fits (original a.stream).stride = true
    · have hstep : scanAttr original m a =
          .ok ⟨insert a.stream m.reserved, insert a.stream m.read⟩ := by
        simp [scanAttr, dif_pos ha.inRange, hidx, if_neg hnarrow, if_pos hf]
      rw [scan, hstep]
      refine (hrest _).trans ?_
      simp [fitting, hf, Finset.insert_union, Finset.union_insert]
    · have hstep : scanAttr original m a = .ok ⟨m.reserved, insert a.stream m.read⟩ := by
        simp [scanAttr, dif_pos ha.inRange, hidx, if_neg hnarrow, if_neg hf]
      rw [scan, hstep]
      refine (hrest _).trans ?_
      simp [fitting, hf, Finset.insert_union, Finset.union_insert]

def Placement.Room (original : StreamLayouts) (read : Finset (Fin maxStreams)) (p : Placement)
    (attrs : List VertexAttrDesc) : Prop :=
  (p.reserved ∪ read).card + crossings original attrs ≤
    maxStreams + (crossing original attrs \ p.reserved).card

namespace Placement

variable {p : Placement} {a : VertexAttrDesc} {slot : Fin maxStreams}

theorem slotFor_spec (h : p.slotFor read a.stream = some slot) :
    slot ∉ p.reserved ∧ (slot = a.stream ∧ a.stream ∉ p.reserved ∨ slot ∉ read ∧ a.stream ∈ p.reserved) := by
  rw [slotFor] at h
  by_cases hr : a.stream ∈ p.reserved
  · rw [if_pos hr] at h
    have hfree := not_mem_of_lowestFree h
    rw [Finset.mem_union, not_or] at hfree
    exact ⟨hfree.1, .inr ⟨hfree.2, hr⟩⟩
  · rw [if_neg hr] at h
    obtain rfl := Option.some.inj h
    exact ⟨hr, .inl ⟨rfl, hr⟩⟩

theorem Room.tail_of_fits (h : p.Room original read (a :: attrs)) (hf : a.fits (original a.stream).stride = true) :
    p.Room original read attrs := by
  obtain ⟨hset, hcount⟩ := crossing_cons_of_fits attrs hf
  rwa [Room, hset, hcount] at h

theorem Room.exists_slot (h : p.Room original read (a :: attrs))
    (hf : a.fits (original a.stream).stride = false) : ∃ slot, p.slotFor read a.stream = some slot := by
  rw [slotFor]
  by_cases hr : a.stream ∈ p.reserved
  · rw [if_pos hr]
    apply exists_lowestFree
    obtain ⟨hset, hcount⟩ := crossing_cons attrs hf
    rw [Room, hset, hcount, Finset.insert_sdiff_of_mem _ hr] at h
    have hle := (Finset.card_le_card (Finset.sdiff_subset (s := crossing original attrs) (t := p.reserved))).trans
      (crossing_card_le original attrs)
    omega
  · exact ⟨a.stream, if_neg hr⟩

theorem Room.take (h : p.Room original read (a :: attrs)) (hf : a.fits (original a.stream).stride = false)
    (hread : a.stream ∈ read) (hsub : crossing original attrs ⊆ read)
    (hslot : p.slotFor read a.stream = some slot) : (p.take original a slot).Room original read attrs := by
  obtain ⟨hset, hcount⟩ := crossing_cons attrs hf
  obtain ⟨hfree, ⟨rfl, hr⟩ | ⟨hout, hr⟩⟩ := slotFor_spec hslot
  · have hunion : insert a.stream p.reserved ∪ read = p.reserved ∪ read := by
      rw [Finset.insert_union, Finset.insert_eq_of_mem (Finset.mem_union_right _ hread)]
    have hcard : (insert a.stream (crossing original attrs) \ p.reserved).card ≤
        (crossing original attrs \ insert a.stream p.reserved).card + 1 := by
      rw [Finset.insert_sdiff_of_notMem _ hr]
      refine (Finset.card_le_card ?_).trans (Finset.card_insert_le a.stream _)
      intro s hs
      rw [Finset.mem_insert, Finset.mem_sdiff] at hs
      rw [Finset.mem_insert, Finset.mem_sdiff, Finset.mem_insert]
      tauto
    rw [Room, hset, hcount] at h
    simp only [Room, Placement.take, hunion]
    omega
  · have hkeep : crossing original attrs \ insert slot p.reserved = crossing original attrs \ p.reserved := by
      ext s
      rw [Finset.mem_sdiff, Finset.mem_sdiff, Finset.mem_insert]
      constructor
      · intro hs
        exact ⟨hs.1, fun h ↦ hs.2 (.inr h)⟩
      · intro hs
        refine ⟨hs.1, ?_⟩
        rintro (rfl | h)
        · exact hout (hsub hs.1)
        · exact hs.2 h
    have hcard : (insert slot p.reserved ∪ read).card ≤ (p.reserved ∪ read).card + 1 := by
      rw [Finset.insert_union]
      exact Finset.card_insert_le _ _
    rw [Room, hset, hcount, Finset.insert_sdiff_of_mem _ hr] at h
    simp only [Room, Placement.take, hkeep]
    omega

variable {b : VertexAttrDesc} {p' : Placement}

theorem placeAttr_cases (h : placeAttr original read p a = .ok (p', b)) :
    a.fits (original a.stream).stride = true ∧ p' = p ∧ b = a ∨
      a.fits (original a.stream).stride = false ∧ ∃ slot, p.slotFor read a.stream = some slot ∧
        p' = p.take original a slot ∧ b = { a with bufferIndex := slot.val, offset := 0 } := by
  rw [placeAttr] at h
  by_cases hf : a.fits (original a.stream).stride = true
  · rw [if_pos hf] at h
    cases h
    exact .inl ⟨hf, rfl, rfl⟩
  · rw [if_neg hf] at h
    cases hs : p.slotFor read a.stream with
    | none => rw [hs] at h; cases h
    | some slot =>
      rw [hs] at h
      cases h
      exact .inr ⟨Bool.eq_false_iff.2 hf, slot, rfl, rfl, rfl⟩

variable {bs : List VertexAttrDesc} {q : Placement}

theorem placeAttrs_cons (h : placeAttrs original read p (a :: attrs) = .ok (q, bs)) :
    ∃ p' b rest, placeAttr original read p a = .ok (p', b) ∧
      placeAttrs original read p' attrs = .ok (q, rest) ∧ bs = b :: rest := by
  rw [placeAttrs] at h
  cases hstep : placeAttr original read p a with
  | error e => rw [hstep] at h; cases h
  | ok step =>
    obtain ⟨p', b⟩ := step
    rw [hstep] at h
    cases hrest : placeAttrs original read p' attrs with
    | error e => simp [hrest, bind, Except.bind] at h
    | ok rest =>
      obtain ⟨q', rest⟩ := rest
      simp only [hrest, bind, Except.bind, Except.ok.injEq, Prod.mk.injEq] at h
      obtain ⟨rfl, rfl⟩ := h
      exact ⟨p', b, rest, rfl, hrest, rfl⟩

theorem placeAttrs_of_step {rest : List VertexAttrDesc} {p' q : Placement}
    (hstep : placeAttr original read p a = .ok (p', b)) (hrest : placeAttrs original read p' attrs = .ok (q, rest)) :
    placeAttrs original read p (a :: attrs) = .ok (q, b :: rest) := by
  simp [placeAttrs, hstep, hrest, bind, Except.bind]

theorem placeAttr_of_fits (hf : a.fits (original a.stream).stride = true) :
    placeAttr original read p a = .ok (p, a) := by
  rw [placeAttr, if_pos hf]

theorem placeAttr_of_slot (hf : a.fits (original a.stream).stride = false)
    (hslot : p.slotFor read a.stream = some slot) : placeAttr original read p a =
      .ok (p.take original a slot, { a with bufferIndex := slot.val, offset := 0 }) := by
  rw [placeAttr, if_neg (Bool.eq_false_iff.1 hf), hslot]

theorem placeAttrs_ok (hroom : p.Room original read attrs) (hread : ∀ a ∈ attrs, a.stream ∈ read) :
    ∃ q bs, placeAttrs original read p attrs = .ok (q, bs) := by
  induction attrs generalizing p with
  | nil => exact ⟨p, [], rfl⟩
  | cons a attrs ih =>
    have htail : ∀ b ∈ attrs, b.stream ∈ read := fun b hb ↦ hread b (mem_cons_of_mem a hb)
    have hsub : crossing original attrs ⊆ read := by
      intro s hs
      rw [crossing, mem_toFinset] at hs
      obtain ⟨b, hb, rfl⟩ := mem_map.1 hs
      exact htail b (mem_of_mem_filter hb)
    by_cases hf : a.fits (original a.stream).stride = true
    · obtain ⟨q, bs, h⟩ := ih (hroom.tail_of_fits hf) htail
      exact ⟨q, a :: bs, placeAttrs_of_step (placeAttr_of_fits hf) h⟩
    · have hf' := Bool.eq_false_iff.2 hf
      obtain ⟨slot, hslot⟩ := hroom.exists_slot hf'
      obtain ⟨q, bs, h⟩ := ih (hroom.take hf' (hread a mem_cons_self) hsub hslot) htail
      exact ⟨q, _ :: bs, placeAttrs_of_step (placeAttr_of_slot hf' hslot) h⟩

structure Keeps (p q : Placement) : Prop where
  reserved : p.reserved ⊆ q.reserved
  layouts : ∀ s ∈ p.reserved, q.layouts s = p.layouts s
  bindings : ∀ s ∈ p.reserved, q.bindings s = p.bindings s

theorem Keeps.refl (p : Placement) : p.Keeps p := ⟨subset_rfl, fun _ _ ↦ rfl, fun _ _ ↦ rfl⟩

theorem Keeps.trans {q r : Placement} (h : p.Keeps q) (h' : q.Keeps r) : p.Keeps r where
  reserved := h.reserved.trans h'.reserved
  layouts s hs := (h'.layouts s (h.reserved hs)).trans (h.layouts s hs)
  bindings s hs := (h'.bindings s (h.reserved hs)).trans (h.bindings s hs)

theorem keeps_take (hfree : slot ∉ p.reserved) : p.Keeps (p.take original a slot) where
  reserved := Finset.subset_insert _ _
  layouts _ hs := Function.update_of_ne (ne_of_mem_of_not_mem hs hfree) _ _
  bindings _ hs := Function.update_of_ne (ne_of_mem_of_not_mem hs hfree) _ _

theorem placeAttr_keeps (h : placeAttr original read p a = .ok (p', b)) : p.Keeps p' := by
  obtain ⟨-, rfl, -⟩ | ⟨-, slot, hslot, rfl, -⟩ := placeAttr_cases h
  · exact .refl _
  · exact keeps_take (slotFor_spec hslot).1

theorem placeAttrs_keeps (h : placeAttrs original read p attrs = .ok (q, bs)) : p.Keeps q := by
  induction attrs generalizing p bs with
  | nil =>
    cases h
    exact .refl _
  | cons a attrs ih =>
    obtain ⟨p', b, rest, hstep, hrest, -⟩ := placeAttrs_cons h
    exact (placeAttr_keeps hstep).trans (ih hrest)

/-- Where an attribute ended up: its slot steps as its stream does, and advance plus offset is the element's. -/
structure Placed (original : StreamLayouts) (p : Placement) (a b : VertexAttrDesc) : Prop where
  reserved : b.stream ∈ p.reserved
  inRange : b.bufferIndex < maxStreams
  attrIndex : b.attrIndex = a.attrIndex
  format : b.format = a.format
  layout : p.layouts b.stream = original a.stream
  stream : (p.bindings b.stream).stream = a.stream
  offset : (p.bindings b.stream).offset + b.offset = a.offset

theorem Placed.keeps (h : Placed original p a b) (hk : p.Keeps q) : Placed original q a b where
  reserved := hk.reserved h.reserved
  inRange := h.inRange
  attrIndex := h.attrIndex
  format := h.format
  layout := (hk.layouts _ h.reserved).trans h.layout
  stream := by rw [hk.bindings _ h.reserved, h.stream]
  offset := by rw [hk.bindings _ h.reserved, h.offset]

def Own (original : StreamLayouts) (p : Placement) (attrs : List VertexAttrDesc) : Prop :=
  ∀ a ∈ attrs, a.fits (original a.stream).stride = true → a.stream ∈ p.reserved ∧
    p.layouts a.stream = original a.stream ∧ p.bindings a.stream = ⟨a.stream, 0⟩

theorem Own.keeps (h : p.Own original attrs) (hk : p.Keeps q) : q.Own original attrs := by
  intro a ha hf
  obtain ⟨hr, hl, hb⟩ := h a ha hf
  exact ⟨hk.reserved hr, (hk.layouts _ hr).trans hl, (hk.bindings _ hr).trans hb⟩

theorem start_own (original : StreamLayouts) (attrs : List VertexAttrDesc) :
    (start original (fitting original attrs)).Own original attrs := by
  intro a ha hf
  have hmem := mem_fitting ha hf
  exact ⟨hmem, if_pos hmem, rfl⟩

theorem take_layouts (p : Placement) (a : VertexAttrDesc) (slot : Fin maxStreams) :
    (p.take original a slot).layouts slot = original a.stream :=
  Function.update_self ..

theorem take_bindings (p : Placement) (a : VertexAttrDesc) (slot : Fin maxStreams) :
    (p.take original a slot).bindings slot = ⟨a.stream, a.offset⟩ :=
  Function.update_self ..

theorem placed_take (a : VertexAttrDesc) (slot : Fin maxStreams) :
    Placed original (p.take original a slot) a { a with bufferIndex := slot.val, offset := 0 } where
  reserved := by
    rw [stream_of_slot]
    exact Finset.mem_insert_self _ _
  inRange := slot.isLt
  attrIndex := rfl
  format := rfl
  layout := by rw [stream_of_slot, take_layouts]
  stream := by rw [stream_of_slot, take_bindings]
  offset := by rw [stream_of_slot, take_bindings, add_zero]

theorem placeAttr_placed (h : placeAttr original read p a = .ok (p', b))
    (hown : p.Own original (a :: attrs)) (ha : a.bufferIndex < maxStreams) : Placed original p' a b := by
  obtain ⟨hf, rfl, rfl⟩ | ⟨-, slot, -, rfl, rfl⟩ := placeAttr_cases h
  · obtain ⟨hr, hl, hb⟩ := hown b mem_cons_self hf
    exact ⟨hr, ha, rfl, rfl, hl, by rw [hb], by rw [hb, zero_add]⟩
  · exact placed_take a slot

theorem placeAttrs_placed (h : placeAttrs original read p attrs = .ok (q, bs)) (hown : p.Own original attrs)
    (hv : ∀ a ∈ attrs, a.bufferIndex < maxStreams) : List.Forall₂ (Placed original q) attrs bs := by
  induction attrs generalizing p bs with
  | nil =>
    cases h
    exact .nil
  | cons a attrs ih =>
    obtain ⟨p', b, rest, hstep, hrest, rfl⟩ := placeAttrs_cons h
    have hplaced := placeAttr_placed hstep hown (hv a mem_cons_self)
    refine .cons (hplaced.keeps (placeAttrs_keeps hrest)) (ih hrest ?_ ?_)
    · have htail : p.Own original attrs := fun b hb ↦ hown b (mem_cons_of_mem a hb)
      exact htail.keeps (placeAttr_keeps hstep)
    · exact fun b hb ↦ hv b (mem_cons_of_mem a hb)

def OwnLayouts (original : StreamLayouts) (read : Finset (Fin maxStreams)) (p : Placement) : Prop :=
  ∀ s ∈ read, s ∈ p.reserved → p.layouts s = original s

theorem OwnLayouts.take (h : p.OwnLayouts original read) (hslot : p.slotFor read a.stream = some slot) :
    (p.take original a slot).OwnLayouts original read := by
  intro s hs hr
  obtain rfl | hne := eq_or_ne s slot
  · obtain ⟨-, ⟨rfl, -⟩ | ⟨hout, -⟩⟩ := slotFor_spec hslot
    · exact take_layouts p a a.stream
    · exact absurd hs hout
  · rw [Placement.take, Finset.mem_insert] at hr
    exact (Function.update_of_ne hne _ _).trans (h s hs (hr.resolve_left hne))

theorem placeAttr_ownSlot (h : placeAttr original read p a = .ok (p', b))
    (hown : p.Own original (a :: attrs)) : a.stream ∈ p'.reserved := by
  obtain ⟨hf, rfl, rfl⟩ | ⟨-, slot, hslot, rfl, -⟩ := placeAttr_cases h
  · exact (hown b mem_cons_self hf).1
  · obtain ⟨-, ⟨rfl, -⟩ | ⟨-, hr⟩⟩ := slotFor_spec hslot
    · exact Finset.mem_insert_self _ _
    · exact Finset.mem_insert_of_mem hr

theorem placeAttrs_layouts (h : placeAttrs original read p attrs = .ok (q, bs)) (hown : p.Own original attrs)
    (hlay : p.OwnLayouts original read) (hread : ∀ a ∈ attrs, a.stream ∈ read) :
    ∀ a ∈ attrs, q.layouts a.stream = original a.stream := by
  induction attrs generalizing p bs with
  | nil => simp
  | cons a attrs ih =>
    obtain ⟨p', b, rest, hstep, hrest, rfl⟩ := placeAttrs_cons h
    have hlay' : p'.OwnLayouts original read := by
      obtain ⟨-, rfl, -⟩ | ⟨-, slot, hslot, rfl, -⟩ := placeAttr_cases hstep
      · exact hlay
      · exact hlay.take hslot
    have htail : p.Own original attrs := fun b hb ↦ hown b (mem_cons_of_mem a hb)
    intro c hc
    rcases mem_cons.1 hc with rfl | hc
    · have hslot := placeAttr_ownSlot hstep hown
      rw [(placeAttrs_keeps hrest).layouts _ hslot]
      exact hlay' _ (hread c mem_cons_self) hslot
    · exact ih hrest (htail.keeps (placeAttr_keeps hstep)) hlay'
        (fun b hb ↦ hread b (mem_cons_of_mem a hb)) c hc

theorem placeAttrs_congr {other : StreamLayouts} {q q' p' : Placement} {bs bs' : List VertexAttrDesc}
    (hsame : ∀ a ∈ attrs, original a.stream = other a.stream) (hres : p.reserved = p'.reserved)
    (h : placeAttrs original read p attrs = .ok (q, bs)) (h' : placeAttrs other read p' attrs = .ok (q', bs')) :
    bs = bs' := by
  induction attrs generalizing p p' bs bs' with
  | nil =>
    cases h
    cases h'
    rfl
  | cons a attrs ih =>
    obtain ⟨r, b, rest, hstep, hrest, rfl⟩ := placeAttrs_cons h
    obtain ⟨r', b', rest', hstep', hrest', rfl⟩ := placeAttrs_cons h'
    have hfits := congrArg (fun l : StreamLayout ↦ a.fits l.stride) (hsame a mem_cons_self)
    have hslots : p.slotFor read a.stream = p'.slotFor read a.stream := by rw [slotFor, slotFor, hres]
    have hhead : b = b' ∧ r.reserved = r'.reserved := by
      obtain ⟨hf, rfl, rfl⟩ | ⟨hf, slot, hslot, rfl, rfl⟩ := placeAttr_cases hstep
      · obtain ⟨-, rfl, rfl⟩ | ⟨hf', -⟩ := placeAttr_cases hstep'
        · exact ⟨rfl, hres⟩
        · simp [hf, hf'] at hfits
      · obtain ⟨hf', -⟩ | ⟨-, slot', hslot', rfl, rfl⟩ := placeAttr_cases hstep'
        · simp [hf, hf'] at hfits
        · obtain rfl := Option.some.inj (hslot.symm.trans (hslots.trans hslot'))
          exact ⟨rfl, congrArg (insert slot) hres⟩
    rw [hhead.1, ih (fun b hb ↦ hsame b (mem_cons_of_mem a hb)) hhead.2 hrest hrest']

theorem start_room (original : StreamLayouts) (hlen : attrs.length ≤ maxStreams) :
    (start original (fitting original attrs)).Room original (attrs.map stream).toFinset attrs := by
  have hcover : fitting original attrs ∪ (attrs.map stream).toFinset ⊆
      fitting original attrs ∪ (crossing original attrs \ fitting original attrs) := by
    refine Finset.union_subset Finset.subset_union_left ?_
    intro s hs
    rw [mem_toFinset] at hs
    obtain ⟨a, ha, rfl⟩ := mem_map.1 hs
    rw [Finset.union_sdiff_self_eq_union, Finset.mem_union]
    cases hf : a.fits (original a.stream).stride with
    | true => exact .inl (mem_fitting ha hf)
    | false =>
      right
      rw [crossing, mem_toFinset]
      exact mem_map_of_mem (mem_filter.2 ⟨ha, by rw [hf]; rfl⟩)
  have hcard := (Finset.card_le_card hcover).trans (Finset.card_union_le _ _)
  have hfit := fitting_card_le original attrs
  simp only [Room, start]
  omega

end Placement

theorem scan_valid {m m' : StreamMasks} (h : scan original m attrs = .ok m') :
    ∀ a ∈ attrs, a.Valid original := by
  induction attrs generalizing m with
  | nil => simp
  | cons a attrs ih =>
    rw [scan] at h
    cases hstep : scanAttr original m a with
    | error e => rw [hstep] at h; cases h
    | ok n =>
      rw [hstep] at h
      intro c hc
      rcases mem_cons.1 hc with rfl | hc
      · rw [scanAttr] at hstep
        split at hstep
        · rename_i hr
          have hidx : (⟨c.bufferIndex, hr⟩ : Fin maxStreams) = c.stream :=
            Fin.ext (stream_val hr).symm
          refine ⟨hr, ?_⟩
          by_contra hwide
          rw [not_le] at hwide
          simp only [hidx, if_pos hwide] at hstep
          cases hstep
        · cases hstep
      · exact ih h c hc

open Placement in
theorem remap_of_place (hv : ∀ a ∈ attrs, a.Valid original)
    (h : placeAttrs original (attrs.map stream).toFinset
      (start original (fitting original attrs)) attrs = .ok (q, bs)) :
    remapCrossingAttributes attrs original = .ok ⟨bs, q.layouts, q.bindings⟩ := by
  simp [remapCrossingAttributes, scan_eq hv, StreamMasks.empty, bind, Except.bind, h]

open Placement in
theorem place_of_remap {r : RemappedFetch} (h : remapCrossingAttributes attrs original = .ok r) :
    (∀ a ∈ attrs, a.Valid original) ∧ ∃ q, placeAttrs original (attrs.map stream).toFinset
      (start original (fitting original attrs)) attrs = .ok (q, r.attrs) ∧
        r.layouts = q.layouts ∧ r.bindings = q.bindings := by
  rw [remapCrossingAttributes] at h
  cases hscan : scan original .empty attrs with
  | error e => rw [hscan] at h; cases h
  | ok m =>
    have hv := scan_valid hscan
    simp only [scan_eq hv, StreamMasks.empty, Finset.empty_union, bind, Except.bind] at h
    split at h
    · cases h
    · rename_i placed hplace
      cases h
      exact ⟨hv, placed.1, hplace, rfl, rfl⟩

theorem mem_streams (ha : a ∈ attrs) : a.stream ∈ (attrs.map stream).toFinset :=
  mem_toFinset.2 (mem_map_of_mem ha)

theorem remap_ok (hv : ∀ a ∈ attrs, a.Valid original) (hlen : attrs.length ≤ maxStreams) :
    ∃ r, remapCrossingAttributes attrs original = .ok r := by
  obtain ⟨q, bs, h⟩ := Placement.placeAttrs_ok (Placement.start_room original hlen)
    fun a ha ↦ mem_streams ha
  exact ⟨_, remap_of_place hv h⟩

theorem remap_layouts {r : RemappedFetch} (h : remapCrossingAttributes attrs original = .ok r) :
    ∀ a ∈ attrs, r.layouts a.stream = original a.stream := by
  obtain ⟨-, q, hplace, hlay, -⟩ := place_of_remap h
  rw [hlay]
  refine Placement.placeAttrs_layouts hplace (Placement.start_own _ _) ?_ fun a ha ↦ mem_streams ha
  intro s _ hs
  exact if_pos hs

theorem remap_attrs_of_layouts {other : StreamLayouts} {r r' : RemappedFetch}
    (h : remapCrossingAttributes attrs original = .ok r) (h' : remapCrossingAttributes attrs other = .ok r')
    (hl : r.layouts = r'.layouts) : r.attrs = r'.attrs := by
  have hsame : ∀ a ∈ attrs, original a.stream = other a.stream := by
    intro a ha
    rw [← remap_layouts h a ha, hl, remap_layouts h' a ha]
  have hfit : fitting original attrs = fitting other attrs := by
    rw [fitting, fitting, filter_congr fun a ha ↦ by rw [hsame a ha]]
  obtain ⟨-, q, hplace, -⟩ := place_of_remap h
  obtain ⟨-, q', hplace', -⟩ := place_of_remap h'
  exact Placement.placeAttrs_congr hsame hfit hplace hplace'

end Remap

/-- The streams a draw reads from a vertex buffer, each once with its offset. -/
structure StreamOffsets where
  bound : List (Fin maxStreams × ℕ)
  nodup : (bound.map Prod.fst).Nodup

instance : Inhabited StreamOffsets :=
  ⟨⟨(List.finRange maxStreams).map fun s ↦ (s, 16), by simp [Function.comp_def, nodup_finRange]⟩⟩

namespace StreamOffsets

def offset (b : StreamOffsets) (s : Fin maxStreams) : ℕ :=
  match b.bound.find? fun e ↦ e.1 = s with
  | some e => e.2
  | none => 0

theorem streamShifts_eq (streams : List (Fin maxStreams × ℕ)) :
    streamShifts streams = packPairs (streams.map fun e ↦ (e.1.val, e.2)) := by
  rw [streamShifts, packPairs, foldl_map]
  rfl

theorem bitPair_shifts (b : StreamOffsets) (s : Fin maxStreams) :
    bitPair (streamShifts b.bound) s.val = b.offset s % 4 := by
  have hfst : (b.bound.map fun e ↦ (e.1.val, e.2)).map Prod.fst = (b.bound.map Prod.fst).map Fin.val := by
    rw [map_map, map_map]
    rfl
  rw [streamShifts_eq, offset]
  cases hfind : b.bound.find? fun e ↦ e.1 = s with
  | some e =>
    have hs : e.1 = s := by simpa using List.find?_some hfind
    have hmem : (s.val, e.2) ∈ b.bound.map fun e ↦ (e.1.val, e.2) :=
      mem_map.2 ⟨e, mem_of_find?_eq_some hfind, by rw [hs]⟩
    rw [bitPair_packPairs (hfst ▸ b.nodup.map Fin.val_injective) hmem, and_three]
  | none =>
    rw [List.find?_eq_none] at hfind
    apply bitPair_packPairs_of_not_mem
    rw [hfst]
    intro hmem
    obtain ⟨t, ht, hts⟩ := mem_map.1 hmem
    obtain ⟨e, he, rfl⟩ := mem_map.1 ht
    exact hfind e he (by simpa using Fin.ext hts)

end StreamOffsets

structure FetchDraw where
  record : ℕ
  layouts : StreamLayouts
  offsets : StreamOffsets

/-- At most sixteen attributes, on streams of the table and no wider than their strides, with offset sums
that fit 32 bits. -/
structure FetchDraw.Supported (d : FetchDraw) (attrs : List VertexAttrDesc) : Prop where
  few : attrs.length ≤ maxStreams
  valid : ∀ a ∈ attrs, a.Valid d.layouts
  sums : ∀ a ∈ attrs, d.offsets.offset a.stream + a.offset < 2 ^ 32

namespace CrossingFetch

def Built (f : CrossingFetch) (attrs : List VertexAttrDesc) (layouts : StreamLayouts) (shifts : ℕ) : Prop :=
  ∃ r, remapCrossingAttributes attrs layouts = .ok r ∧ f.attrs = r.attrs.map (shiftAttr r.bindings shifts) ∧
    f.layouts = r.layouts ∧ f.bindings = r.bindings ∧
      f.usedSlots = Finset.univ.filter fun slot ↦ (r.layouts slot).isUsed

variable {attrs : List VertexAttrDesc}

theorem rebuild_built {f g : CrossingFetch} {layouts : StreamLayouts} {shifts : ℕ}
    (h : f.rebuild attrs layouts shifts = .ok g) : g.Built attrs layouts shifts ∧ g.streamLayouts = layouts := by
  rw [rebuild] at h
  split at h
  · cases h
  · cases hr : remapCrossingAttributes attrs layouts with
    | error e => rw [hr] at h; cases h
    | ok r =>
      rw [hr] at h
      cases h
      exact ⟨⟨r, hr, rfl, rfl, rfl, rfl⟩, rfl⟩

theorem rebuild_ok (f : CrossingFetch) {layouts : StreamLayouts} (shifts : ℕ)
    (hlen : attrs.length ≤ maxStreams) (hv : ∀ a ∈ attrs, a.Valid layouts) :
    ∃ g, f.rebuild attrs layouts shifts = .ok g := by
  obtain ⟨r, hr⟩ := remap_ok hv hlen
  rw [rebuild, if_neg (not_lt.2 hlen), hr]
  exact ⟨_, rfl⟩

/-- The fetch of an attribute through its slot is D3D9's: same step, and the same byte at every step index. -/
structure Reads (d : FetchDraw) (f : CrossingFetch) (a b : VertexAttrDesc) : Prop where
  attrIndex : b.attrIndex = a.attrIndex
  format : b.format = a.format
  inRange : b.bufferIndex < maxStreams
  step : (f.layouts b.stream).step = (d.layouts a.stream).step
  stepRate : (f.layouts b.stream).stepRate = (d.layouts a.stream).stepRate
  stream : (f.bindings b.stream).stream = a.stream
  bound : (d.layouts a.stream).stride ≠ 0 → (b.stream, (f.bindings b.stream).offset) ∈ f.slotsOf a.stream
  address : ∀ i, slotBindingOffset (d.offsets.offset a.stream) (f.bindings b.stream).offset +
    i * (f.layouts b.stream).stride + b.offset =
      d.offsets.offset a.stream + i * (d.layouts a.stream).stride + a.offset

variable {f : CrossingFetch}

theorem mem_slotsOf {s slot : Fin maxStreams} {advance : ℕ} : (slot, advance) ∈ f.slotsOf s ↔
      slot ∈ f.usedSlots ∧ (f.bindings slot).stream = s ∧ (f.bindings slot).offset = advance := by
  simp only [slotsOf, mem_map, mem_filter, mem_finRange, true_and, decide_eq_true_eq,
    Prod.mk.injEq]
  constructor
  · rintro ⟨t, ⟨hu, hs⟩, rfl, ho⟩
    exact ⟨hu, hs, ho⟩
  · rintro ⟨hu, hs, ho⟩
    exact ⟨slot, ⟨hu, hs⟩, rfl, ho⟩

theorem slotsOf_nodup (f : CrossingFetch) (s : Fin maxStreams) : (f.slotsOf s).Nodup := by
  refine List.Nodup.map ?_ ((nodup_finRange maxStreams).filter _)
  intro x y h
  exact (Prod.mk.inj h).1

theorem slotsOf_unique {s t slot : Fin maxStreams} {advance advance' : ℕ}
    (h : (slot, advance) ∈ f.slotsOf s) (h' : (slot, advance') ∈ f.slotsOf t) : s = t ∧ advance = advance' := by
  obtain ⟨-, hs, ho⟩ := mem_slotsOf.1 h
  obtain ⟨-, ht, ho'⟩ := mem_slotsOf.1 h'
  exact ⟨hs.symm.trans ht, ho.symm.trans ho'⟩

theorem slot_address {offset advance rest element shift : ℕ} (i stride : ℕ) (hoff : advance + rest = element)
    (hshift : shift = offset % 4) (hsum : offset + element < 2 ^ 32) :
    slotBindingOffset offset advance + i * stride + (rest + shift) % 2 ^ 32 = offset + i * stride + element := by
  have hbind : offset - offset % 4 + advance < 2 ^ 32 := by omega
  have hattr : rest + shift < 2 ^ 32 := by omega
  rw [slotBindingOffset, Nat.mod_eq_of_lt hbind, Nat.mod_eq_of_lt hattr]
  omega

theorem reads_of_placed {d : FetchDraw} {a b : VertexAttrDesc}
    (hp : Placement.Placed d.layouts q a b) (hsum : d.offsets.offset a.stream + a.offset < 2 ^ 32)
    (hlay : f.layouts = q.layouts) (hbind : f.bindings = q.bindings)
    (hused : f.usedSlots = Finset.univ.filter fun slot ↦ (q.layouts slot).isUsed) :
    Reads d f a (shiftAttr q.bindings (streamShifts d.offsets.bound) b) where
  attrIndex := hp.attrIndex
  format := hp.format
  inRange := hp.inRange
  step := by rw [hlay]; exact congrArg StreamLayout.step hp.layout
  stepRate := by rw [hlay]; exact congrArg StreamLayout.stepRate hp.layout
  stream := by rw [hbind]; exact hp.stream
  bound := by
    intro hs
    refine mem_slotsOf.2 ⟨?_, by rw [hbind]; exact hp.stream, rfl⟩
    have hlayout : q.layouts b.stream = d.layouts a.stream := hp.layout
    rw [hused, Finset.mem_filter]
    refine ⟨Finset.mem_univ _, ?_⟩
    change (q.layouts b.stream).isUsed = true
    rw [hlayout, StreamLayout.isUsed]
    exact bne_iff_ne.2 hs
  address := by
    intro i
    have hoff := hp.offset
    have hstride := congrArg StreamLayout.stride hp.layout
    have hpair := d.offsets.bitPair_shifts a.stream
    rw [← hp.stream] at hpair
    rw [hlay, hbind]
    change slotBindingOffset _ (q.bindings b.stream).offset + i * (q.layouts b.stream).stride +
      (b.offset + bitPair _ (q.bindings b.stream).stream.val) % 2 ^ 32 = _
    rw [hstride]
    exact slot_address i _ hoff (hp.stream ▸ hpair) hsum

theorem reads_of_built {d : FetchDraw}
    (hb : f.Built attrs d.layouts (streamShifts d.offsets.bound)) (hd : d.Supported attrs) :
    List.Forall₂ (Reads d f) attrs f.attrs := by
  obtain ⟨r, hr, hattrs, hlay, hbind, hused⟩ := hb
  obtain ⟨hv, q, hplace, hql, hqb⟩ := place_of_remap hr
  have hplaced := Placement.placeAttrs_placed hplace (Placement.start_own _ _) fun a ha ↦ (hv a ha).inRange
  rw [hql] at hlay hused
  rw [hqb] at hattrs hbind
  rw [hattrs, List.forall₂_map_right_iff]
  have hmem : List.Forall₂ (fun a b ↦ a ∈ attrs ∧ Placement.Placed d.layouts q a b) attrs r.attrs :=
    (List.forall₂_and_left attrs r.attrs).2 ⟨fun a ha ↦ ha, hplaced⟩
  refine hmem.imp ?_
  intro a b hab
  exact reads_of_placed hab.2 (hd.sums a hab.1) hlay hbind hused

end CrossingFetch

/-- A packet's replay: the fetch it carries and the attribute list each record address names. -/
structure FetchSession where
  fetch : CrossingFetch
  lists : ℕ → List VertexAttrDesc

inductive FetchOp
  | draw (d : FetchDraw)
  | beginPacket (lists : ℕ → List VertexAttrDesc)

namespace FetchSession

def drawResult (s : FetchSession) (d : FetchDraw) : Except VertexFetchError Unit × CrossingFetch :=
  s.fetch.reuseOrRebuild d.record (s.lists d.record) d.layouts (streamShifts d.offsets.bound)

def step (s : FetchSession) : FetchOp → FetchSession
  | .draw d => ⟨(s.drawResult d).2, s.lists⟩
  | .beginPacket lists => ⟨s.fetch.forgetSource, lists⟩

def run (lists : ℕ → List VertexAttrDesc) (ops : List FetchOp) : FetchSession :=
  ops.foldl step ⟨.empty, lists⟩

def Remembers (s : FetchSession) : Prop :=
  ∀ record shifts, s.fetch.source = some (record, shifts) →
    s.fetch.Built (s.lists record) s.fetch.streamLayouts shifts

theorem drawResult_cases (s : FetchSession) (d : FetchDraw) :
    s.fetch.source = some (d.record, streamShifts d.offsets.bound) ∧ s.fetch.streamLayouts = d.layouts ∧
        s.drawResult d = (.ok (), s.fetch) ∨
      (∃ e, s.fetch.rebuild (s.lists d.record) d.layouts (streamShifts d.offsets.bound) = .error e ∧
        s.drawResult d = (.error e, { s.fetch with source := none })) ∨
      ∃ g, s.fetch.rebuild (s.lists d.record) d.layouts (streamShifts d.offsets.bound) = .ok g ∧
        s.drawResult d = (.ok (), { g with source := some (d.record, streamShifts d.offsets.bound) }) := by
  rw [drawResult, CrossingFetch.reuseOrRebuild]
  by_cases hreuse : s.fetch.source = some (d.record, streamShifts d.offsets.bound) ∧
      s.fetch.streamLayouts = d.layouts
  · exact .inl ⟨hreuse.1, hreuse.2, if_pos hreuse⟩
  · rw [if_neg hreuse]
    cases hr : s.fetch.rebuild (s.lists d.record) d.layouts (streamShifts d.offsets.bound) with
    | error e => exact .inr (.inl ⟨e, rfl, rfl⟩)
    | ok g => exact .inr (.inr ⟨g, rfl, rfl⟩)

theorem Remembers.draw {s : FetchSession} (h : s.Remembers) (d : FetchDraw) : (s.step (.draw d)).Remembers := by
  intro record shifts hsource
  rw [step] at hsource ⊢
  obtain ⟨-, -, hres⟩ | ⟨e, -, hres⟩ | ⟨g, hg, hres⟩ := s.drawResult_cases d
  · rw [hres] at hsource ⊢
    exact h record shifts hsource
  · rw [hres] at hsource
    cases hsource
  · rw [hres] at hsource ⊢
    cases hsource
    obtain ⟨hbuilt, hlay⟩ := CrossingFetch.rebuild_built hg
    rw [← hlay] at hbuilt
    exact hbuilt

theorem Remembers.step {s : FetchSession} (h : s.Remembers) (op : FetchOp) : (s.step op).Remembers := by
  cases op with
  | draw d => exact h.draw d
  | beginPacket lists =>
    intro record shifts hsource
    cases hsource

theorem run_remembers (lists : ℕ → List VertexAttrDesc) (ops : List FetchOp) : (run lists ops).Remembers := by
  have hrun : ∀ (ops : List FetchOp) (s : FetchSession), s.Remembers → (ops.foldl FetchSession.step s).Remembers := by
    intro ops
    induction ops with
    | nil => exact fun s hs ↦ hs
    | cons op ops ih => exact fun s hs ↦ ih _ (hs.step op)
  refine hrun ops _ ?_
  intro record shifts hsource
  cases hsource

theorem Remembers.draw_built {s : FetchSession} (h : s.Remembers) {d : FetchDraw}
    (hd : d.Supported (s.lists d.record)) : ∃ f, s.drawResult d = (.ok (), f) ∧
      f.Built (s.lists d.record) d.layouts (streamShifts d.offsets.bound) := by
  obtain ⟨hsource, hlay, hres⟩ | ⟨e, he, -⟩ | ⟨g, hg, hres⟩ := s.drawResult_cases d
  · refine ⟨_, hres, ?_⟩
    rw [← hlay]
    exact h _ _ hsource
  · obtain ⟨g, hg⟩ := s.fetch.rebuild_ok (streamShifts d.offsets.bound) hd.few hd.valid
    rw [hg] at he
    cases he
  · exact ⟨_, hres, (CrossingFetch.rebuild_built hg).1⟩

/-- After any draws and packets, a supported draw succeeds and every attribute reads D3D9's bytes with its
stream's step; the placement is a function of the attributes and the remapped layouts. -/
theorem crossing_fetch_reads_d3d9 :
    (∀ (lists : ℕ → List VertexAttrDesc) (ops : List FetchOp) (d : FetchDraw),
      d.Supported ((run lists ops).lists d.record) → ∃ f, (run lists ops).drawResult d = (.ok (), f) ∧
        List.Forall₂ (CrossingFetch.Reads d f) ((run lists ops).lists d.record) f.attrs ∧
        (∀ s t slot advance advance', (slot, advance) ∈ f.slotsOf s → (slot, advance') ∈ f.slotsOf t →
          s = t ∧ advance = advance') ∧
        ∀ s, (f.slotsOf s).Nodup) ∧
    ∀ (attrs : List VertexAttrDesc) (layouts layouts' : StreamLayouts) (r r' : RemappedFetch),
      remapCrossingAttributes attrs layouts = .ok r → remapCrossingAttributes attrs layouts' = .ok r' →
        r.layouts = r'.layouts → r.attrs = r'.attrs := by
  constructor
  · intro lists ops d hd
    obtain ⟨f, hres, hbuilt⟩ := (run_remembers lists ops).draw_built hd
    refine ⟨f, hres, CrossingFetch.reads_of_built hbuilt hd, ?_, f.slotsOf_nodup⟩
    intro s t slot advance advance' hs ht
    exact CrossingFetch.slotsOf_unique hs ht
  · intro attrs layouts layouts' r r' h h' hl
    exact remap_attrs_of_layouts h h' hl

end FetchSession

end Mtld3d
