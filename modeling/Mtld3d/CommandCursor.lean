import Mtld3d.ScratchArena

namespace Mtld3d

open List Lib

def validateRange (t : PointerWidth) (address length alignment : ℕ) : Except WireError Unit :=
  if t.usizeMax < address ∨ t.usizeMax < length then .error .invalidValue
  else if address = 0 ∨ address % alignment ≠ 0 ∨ t.usizeMax < address + length then .error .invalidValue
  else .ok ()

def CommandRegion.ofBytes (bs : List UInt8) : CommandRegion :=
  ⟨ofLe (bs.take 8), ofLe ((bs.drop 8).take 4), ofLe ((bs.drop 12).take 4)⟩

def CommandHeader.ofBytes (bs : List UInt8) : CommandHeader :=
  ⟨UInt16.ofNat (ofLe (bs.take 2)), UInt16.ofNat (ofLe ((bs.drop 2).take 2)), ofLe ((bs.drop 4).take 4)⟩

structure CommandCursor where
  table : List UInt8
  tableOffset : ℕ
  regionAddress : ℕ
  regionBytes : ℕ
  regionOffset : ℕ

namespace CommandCursor

def new (tableAddress : ℕ) (table : List UInt8) : Except WireError CommandCursor :=
  if (table ≠ [] ∧ tableAddress % 8 ≠ 0) ∨ table.length % commandRegionBytes ≠ 0 then .error .invalidValue
  else .ok ⟨table, 0, 0, 0, 0⟩

def isComplete (c : CommandCursor) : Bool :=
  c.tableOffset == c.table.length && c.regionOffset == c.regionBytes

def nextRegion (t : PointerWidth) (c : CommandCursor) : Except WireError CommandCursor :=
  let descriptor := CommandRegion.ofBytes ((c.table.drop c.tableOffset).take commandRegionBytes)
  if descriptor.reserved ≠ 0 ∨ descriptor.usedBytes = 0 ∨ descriptor.usedBytes % commandAlignment ≠ 0 then
    .error .invalidValue
  else
    match validateRange t descriptor.address descriptor.usedBytes commandAlignment with
    | .error e => .error e
    | .ok () =>
      .ok { c with
        tableOffset := c.tableOffset + commandRegionBytes
        regionAddress := descriptor.address
        regionBytes := descriptor.usedBytes
        regionOffset := 0 }

def recordHere (heap : ℕ → UInt8) (c : CommandCursor) : Except WireError (CommandRecord × CommandCursor) :=
  let remaining := c.regionBytes - c.regionOffset
  if remaining < commandHeaderBytes then .error .truncated
  else
    let address := c.regionAddress + c.regionOffset
    let header := CommandHeader.ofBytes (readRange heap address commandHeaderBytes)
    let length := header.recordBytes
    if length < commandHeaderBytes then .error .invalidValue
    else if u32Max < length + (commandAlignment - 1) then .error .tooLarge
    else
      let stride := (length + (commandAlignment - 1)) / commandAlignment * commandAlignment
      if remaining < stride then .error .truncated
      else
        .ok (⟨header.opcode, header.operand,
            readRange heap (address + commandHeaderBytes) (length - commandHeaderBytes)⟩,
          { c with regionOffset := c.regionOffset + stride })

def nextRecord (t : PointerWidth) (heap : ℕ → UInt8) (c : CommandCursor) :
    Except WireError (Option CommandRecord × CommandCursor) :=
  if c.regionOffset = c.regionBytes then
    if c.tableOffset = c.table.length then .ok (none, c)
    else
      match c.nextRegion t with
      | .error e => .error e
      | .ok c => (c.recordHere heap).map fun (record, c) ↦ (some record, c)
  else (c.recordHere heap).map fun (record, c) ↦ (some record, c)

/-- Records in order until the cursor reports the end, within `fuel` calls. -/
def drain (t : PointerWidth) (heap : ℕ → UInt8) :
    ℕ → CommandCursor → Except WireError (List CommandRecord × Option CommandCursor)
  | 0, _ => .ok ([], none)
  | fuel + 1, c =>
    match c.nextRecord t heap with
    | .error e => .error e
    | .ok (none, c) => .ok ([], some c)
    | .ok (some record, c) => (drain t heap fuel c).map fun (records, last) ↦ (record :: records, last)

end CommandCursor

def CommandRecord.recordBytes (r : CommandRecord) : ℕ := r.payload.length + commandHeaderBytes

def CommandRecord.stride (r : CommandRecord) : ℕ :=
  (r.recordBytes + (commandAlignment - 1)) / commandAlignment * commandAlignment

def CommandRecord.frame (r : CommandRecord) : List UInt8 :=
  CommandHeader.bytes ⟨r.opcode, r.operand, r.recordBytes⟩ ++ r.payload ++
    List.replicate (r.stride - r.recordBytes) 0

def frames (records : List CommandRecord) : List UInt8 := records.flatMap (·.frame)

theorem CommandHeader.length_bytes (h : CommandHeader) : h.bytes.length = commandHeaderBytes := by
  simp [CommandHeader.bytes, commandHeaderBytes]

theorem CommandRegion.length_bytes (r : CommandRegion) : r.bytes.length = commandRegionBytes := by
  simp [CommandRegion.bytes, commandRegionBytes]

namespace CommandRecord

theorem recordBytes_le_stride (r : CommandRecord) : r.recordBytes ≤ r.stride := by
  simp only [stride, commandAlignment]
  omega

theorem length_frame (r : CommandRecord) : r.frame.length = r.stride := by
  have h := r.recordBytes_le_stride
  simp only [frame, length_append, CommandHeader.length_bytes, length_replicate]
  simp only [recordBytes] at h ⊢
  omega

theorem stride_mod (r : CommandRecord) : r.stride % commandAlignment = 0 := by
  simp [stride]

theorem header_le_stride (r : CommandRecord) : commandHeaderBytes ≤ r.stride := by
  have h := r.recordBytes_le_stride
  simp only [recordBytes] at h
  omega

end CommandRecord

theorem length_frames_cons (r : CommandRecord) (rs : List CommandRecord) :
    (frames (r :: rs)).length = r.stride + (frames rs).length := by
  rw [← r.length_frame]
  simp [frames]

theorem CommandHeader.ofBytes_append (h : CommandHeader) (hlen : h.recordBytes ≤ u32Max) (rest : List UInt8) :
    CommandHeader.ofBytes (h.bytes ++ rest) = h := by
  have hop : ofLe (toLe 2 h.opcode.toNat) = h.opcode.toNat := ofLe_toLe h.opcode.toNat_lt
  have hoperand : ofLe (toLe 2 h.operand.toNat) = h.operand.toNat := ofLe_toLe h.operand.toNat_lt
  have hbytes : ofLe (toLe 4 h.recordBytes) = h.recordBytes :=
    ofLe_toLe (hlen.trans_lt (by decide))
  have hfirst : (h.bytes ++ rest).take 2 = toLe 2 h.opcode.toNat := by
    simp [CommandHeader.bytes]
  have hsecond : ((h.bytes ++ rest).drop 2).take 2 = toLe 2 h.operand.toNat := by
    simp only [CommandHeader.bytes, append_assoc]
    exact slice_append (length_toLe _ _) (length_toLe _ _)
  have hthird : ((h.bytes ++ rest).drop 4).take 4 = toLe 4 h.recordBytes := by
    rw [CommandHeader.bytes, append_assoc]
    exact slice_append (by simp) (length_toLe _ _)
  rw [CommandHeader.ofBytes, hfirst, hsecond, hthird, hop, hoperand, hbytes, UInt16.ofNat_toNat,
    UInt16.ofNat_toNat]

theorem CommandRegion.ofBytes_append (r : CommandRegion) (ha : r.address < 18446744073709551616)
    (hu : r.usedBytes ≤ u32Max) (hr : r.reserved ≤ u32Max) (rest : List UInt8) :
    CommandRegion.ofBytes ((r.bytes ++ rest).take commandRegionBytes) = r := by
  have haddress : ofLe (toLe 8 r.address) = r.address := ofLe_toLe ha
  have hused : ofLe (toLe 4 r.usedBytes) = r.usedBytes := ofLe_toLe (hu.trans_lt (by decide))
  have hreserved : ofLe (toLe 4 r.reserved) = r.reserved := ofLe_toLe (hr.trans_lt (by decide))
  have hfirst : r.bytes.take 8 = toLe 8 r.address := by
    simp [CommandRegion.bytes]
  have hsecond : (r.bytes.drop 8).take 4 = toLe 4 r.usedBytes := by
    rw [CommandRegion.bytes, append_assoc]
    exact slice_append (length_toLe _ _) (length_toLe _ _)
  have hthird : (r.bytes.drop 12).take 4 = toLe 4 r.reserved := by
    rw [CommandRegion.bytes, ← append_nil (toLe 4 r.reserved)]
    exact slice_append (by simp) (length_toLe _ _)
  rw [← r.length_bytes, take_left, CommandRegion.ofBytes, hfirst, hsecond, hthird, haddress, hused,
    hreserved]

def FramedAt (heap : ℕ → UInt8) (address : ℕ) (records : List CommandRecord) : Prop :=
  readRange heap address (frames records).length = frames records

variable {r : CommandRecord} {rs : List CommandRecord}

theorem FramedAt.head {heap : ℕ → UInt8} {address : ℕ} (h : FramedAt heap address (r :: rs)) :
    readRange heap address r.stride = r.frame ∧ FramedAt heap (address + r.stride) rs := by
  have hcons : frames (r :: rs) = r.frame ++ frames rs := rfl
  have hlen := r.length_frame
  rw [FramedAt, hcons, length_append, readRange_add] at h
  obtain ⟨h₁, h₂⟩ := append_inj h (by simp)
  rw [hlen] at h₁ h₂
  exact ⟨h₁, h₂⟩

theorem FramedAt.concat {heap : ℕ → UInt8} {address : ℕ} (h : FramedAt heap address rs)
    (hr : readRange heap (address + (frames rs).length) r.stride = r.frame) :
    FramedAt heap address (rs ++ [r]) := by
  have hframes : frames (rs ++ [r]) = frames rs ++ r.frame := by simp [frames]
  rw [FramedAt, hframes, length_append, r.length_frame, readRange_add, h, hr]

namespace CommandCursor

variable {t : PointerWidth} {heap : ℕ → UInt8}

variable {c : CommandCursor}

theorem recordHere_eq (hframed : FramedAt heap (c.regionAddress + c.regionOffset) (r :: rs))
    (hbytes : c.regionBytes = c.regionOffset + (frames (r :: rs)).length) (hmax : c.regionBytes ≤ u32Max) :
    c.recordHere heap = .ok (r, { c with regionOffset := c.regionOffset + r.stride }) := by
  have hstride := length_frames_cons r rs
  have hle := r.recordBytes_le_stride
  have hheader := r.header_le_stride
  obtain ⟨hr, -⟩ := hframed.head
  -- The first frame read in three parts: header, payload, padding.
  have hsplit : r.stride = commandHeaderBytes + (r.payload.length + (r.stride - r.recordBytes)) := by
    simp only [CommandRecord.recordBytes] at hle ⊢
    omega
  rw [hsplit, readRange_add, readRange_add, CommandRecord.frame, append_assoc] at hr
  obtain ⟨hhead, htail⟩ := append_inj hr (by simp [CommandHeader.length_bytes])
  obtain ⟨hpayload, -⟩ := append_inj htail (by simp)
  have hlength : r.recordBytes ≤ u32Max := by omega
  have hparsed := CommandHeader.ofBytes_append ⟨r.opcode, r.operand, r.recordBytes⟩ hlength []
  rw [append_nil] at hparsed
  have hround : r.stride = (r.recordBytes + (commandAlignment - 1)) / commandAlignment * commandAlignment := rfl
  have hpay : r.recordBytes - commandHeaderBytes = r.payload.length := by
    simp [CommandRecord.recordBytes]
  have h₁ : ¬ c.regionBytes - c.regionOffset < commandHeaderBytes := by omega
  have h₂ : ¬ r.recordBytes < commandHeaderBytes := by simp [CommandRecord.recordBytes]
  have h₃ : ¬ u32Max < r.recordBytes + (commandAlignment - 1) := by
    have hmod := r.stride_mod
    simp only [commandAlignment, u32Max] at hmod hmax ⊢
    omega
  have h₄ : ¬ c.regionBytes - c.regionOffset < r.stride := by omega
  simp [recordHere, hhead, hparsed, ← hround, hpay, hpayload, h₁, h₂, h₃, h₄]

/-- A descriptor that names its records, as a sealed frame leaves it. -/
structure Published (t : PointerWidth) (heap : ℕ → UInt8) (region : CommandRegion)
    (records : List CommandRecord) : Prop where
  positive : 0 < region.address
  aligned : region.address % commandAlignment = 0
  bounded : region.address + region.usedBytes ≤ t.usizeMax
  used : region.usedBytes = (frames records).length
  small : region.usedBytes ≤ u32Max
  reserved : region.reserved = 0
  nonempty : records ≠ []
  framed : FramedAt heap region.address records

theorem length_frames_mod (records : List CommandRecord) :
    (frames records).length % commandAlignment = 0 := by
  induction records with
  | nil => rfl
  | cons r rs ih =>
    have hr := r.stride_mod
    rw [length_frames_cons]
    simp only [commandAlignment] at *
    omega

variable {records : List CommandRecord}

theorem length_frames_pos (h : records ≠ []) : commandHeaderBytes ≤ (frames records).length := by
  cases records with
  | nil => exact absurd rfl h
  | cons r rs =>
    have hr := r.header_le_stride
    rw [length_frames_cons]
    omega

theorem nextRegion_eq {region : CommandRegion} {rest : List UInt8} (h : Published t heap region records)
    (htable : c.table.drop c.tableOffset = region.bytes ++ rest) :
    c.nextRegion t = .ok { c with
      tableOffset := c.tableOffset + commandRegionBytes
      regionAddress := region.address
      regionBytes := region.usedBytes
      regionOffset := 0 } := by
  have hmax := t.usizeMax_lt
  have hbounded := h.bounded
  have hparsed := CommandRegion.ofBytes_append region (by omega) h.small (h.reserved ▸ Nat.zero_le _) rest
  have hpos := length_frames_pos h.nonempty
  have hused := h.used
  have hmod : region.usedBytes % commandAlignment = 0 := h.used ▸ length_frames_mod records
  have h₁ : ¬ (region.reserved ≠ 0 ∨ region.usedBytes = 0 ∨ region.usedBytes % commandAlignment ≠ 0) := by
    simp only [commandHeaderBytes] at hpos
    have hr := h.reserved
    omega
  have hvalid : validateRange t region.address region.usedBytes commandAlignment = .ok () := by
    have hp := h.positive
    have ha := h.aligned
    unfold validateRange
    rw [if_neg (by omega), if_neg (by omega)]
  simp [nextRegion, htable, hparsed, h₁, hvalid]

/-- What is left to read: records of the current region, then the regions the table still names. -/
structure Pending (t : PointerWidth) (heap : ℕ → UInt8) (c : CommandCursor) (records : List CommandRecord)
    (logs : List (CommandRegion × List CommandRecord)) : Prop where
  framed : FramedAt heap (c.regionAddress + c.regionOffset) records
  bytes : c.regionBytes = c.regionOffset + (frames records).length
  small : c.regionBytes ≤ u32Max
  offset : c.tableOffset ≤ c.table.length
  table : c.table.drop c.tableOffset = logs.flatMap (·.1.bytes)
  published : ∀ log ∈ logs, Published t heap log.1 log.2

variable {logs : List (CommandRegion × List CommandRecord)}

theorem Pending.step (h : Pending t heap c (r :: rs) logs) :
    c.recordHere heap = .ok (r, { c with regionOffset := c.regionOffset + r.stride }) ∧
      Pending t heap { c with regionOffset := c.regionOffset + r.stride } rs logs := by
  have hcons := length_frames_cons r rs
  have hframed := h.framed.head.2
  have hbytes := h.bytes
  refine ⟨recordHere_eq h.framed h.bytes h.small, ⟨?_, ?_, h.small, h.offset, h.table, h.published⟩⟩
  · rw [← add_assoc]
    exact hframed
  · change c.regionBytes = c.regionOffset + r.stride + (frames rs).length
    omega

theorem Pending.nextRegion {region : CommandRegion} (h : Pending t heap c [] ((region, records) :: logs)) :
    ∃ c', c.nextRegion t = .ok c' ∧ Pending t heap c' records logs := by
  have hp := h.published _ mem_cons_self
  have htable : c.table.drop c.tableOffset = region.bytes ++ logs.flatMap (·.1.bytes) := h.table
  have hlen := congrArg List.length htable
  rw [length_drop, length_append, region.length_bytes] at hlen
  refine ⟨_, nextRegion_eq hp htable, ?_⟩
  refine ⟨hp.framed, ?_, hp.small, ?_, ?_, fun log hlog ↦ h.published log (mem_cons_of_mem _ hlog)⟩
  · change region.usedBytes = 0 + (frames records).length
    rw [zero_add, hp.used]
  · change c.tableOffset + commandRegionBytes ≤ c.table.length
    simp only [commandRegionBytes] at hlen ⊢
    omega
  · change c.table.drop (c.tableOffset + commandRegionBytes) = _
    rw [← drop_drop, htable, ← region.length_bytes, drop_left]

/-- A call of `nextRecord` either reports the end or takes the next record. -/
theorem Pending.nextRecord (h : Pending t heap c records logs) :
    (records ++ logs.flatMap (·.2) = [] ∧ c.nextRecord t heap = .ok (none, c) ∧ c.isComplete = true) ∨
      ∃ r c' records' logs', records ++ logs.flatMap (·.2) = r :: (records' ++ logs'.flatMap (·.2)) ∧
        c.nextRecord t heap = .ok (some r, c') ∧ Pending t heap c' records' logs' := by
  have hbytes := h.bytes
  cases records with
  | cons r rs =>
    right
    obtain ⟨hhere, hrest⟩ := h.step
    have hpos := length_frames_pos (cons_ne_nil r rs)
    have hne : c.regionOffset ≠ c.regionBytes := by
      simp only [commandHeaderBytes] at hpos
      omega
    refine ⟨r, _, rs, logs, rfl, ?_, hrest⟩
    simp only [CommandCursor.nextRecord, hne, if_false, hhere]
    rfl
  | nil =>
    have heq : c.regionOffset = c.regionBytes := hbytes.symm
    cases logs with
    | nil =>
      left
      have hend : c.tableOffset = c.table.length := by
        have hdrop := congrArg List.length h.table
        have hle := h.offset
        rw [length_drop] at hdrop
        simp only [flatMap_nil, length_nil] at hdrop
        omega
      refine ⟨rfl, ?_, ?_⟩
      · simp [CommandCursor.nextRecord, heq, hend]
      · simp [isComplete, hend, heq]
    | cons log logs =>
      right
      obtain ⟨region, records⟩ := log
      have hp := h.published _ mem_cons_self
      obtain ⟨c', hregion, hpending⟩ := h.nextRegion
      have hend : c.tableOffset ≠ c.table.length := by
        have hdrop := congrArg List.length h.table
        rw [length_drop, flatMap_cons, length_append, CommandRegion.length_bytes] at hdrop
        simp only [commandRegionBytes] at hdrop
        omega
      cases records with
      | nil => exact absurd rfl hp.nonempty
      | cons r rs =>
        obtain ⟨hhere, hrest⟩ := hpending.step
        refine ⟨r, _, rs, logs, rfl, ?_, hrest⟩
        simp only [CommandCursor.nextRecord, heq, hend, if_true, if_false, hregion, hhere]
        rfl

theorem Pending.drain (h : Pending t heap c records logs) {fuel : ℕ}
    (hfuel : (records ++ logs.flatMap (·.2)).length < fuel) :
    ∃ last, c.drain t heap fuel = .ok (records ++ logs.flatMap (·.2), some last) ∧
      last.nextRecord t heap = .ok (none, last) ∧ last.isComplete = true := by
  induction fuel generalizing c records logs with
  | zero => omega
  | succ fuel ih =>
    obtain ⟨hnil, hnext, hdone⟩ | ⟨r, c', records', logs', hsplit, hnext, hrest⟩ := h.nextRecord
    · exact ⟨c, by simp [CommandCursor.drain, hnext, hnil], hnext, hdone⟩
    · rw [hsplit, length_cons] at hfuel
      obtain ⟨last, hdrain, hend⟩ := ih hrest (by omega)
      refine ⟨last, ?_, hend⟩
      simp only [CommandCursor.drain, hnext, hdrain, hsplit]
      rfl

end CommandCursor

end Mtld3d
