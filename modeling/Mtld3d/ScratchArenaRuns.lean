import Mtld3d.CommandCursor
import Mtld3d.Lib.Run
import Mtld3d.Lib.Select

namespace Mtld3d

open List Option CommandRecord

open List Lib Relation

/-- A recording frame: its arena, the payload ranges handed out and the commands recorded so far. -/
structure ScratchRun where
  arena : ScratchArena
  granted : List (ℕ × ℕ)
  recorded : List CommandRecord

inductive ScratchAction
  | writeCommand (opcode operand : UInt16) (payloadBound : ℕ) (fill : ScratchArena.Fill) (fresh : ℕ)
      (tableRoom : Bool)
  | pushInitializedRecord (tag operand : UInt16) (bound : ℕ) (fill : ScratchArena.Fill) (fresh : ℕ)
      (tableRoom : Bool)
  | pushFixedRecord (tag operand : UInt16) (payloadBytes : ℕ)
      (fill : List UInt8 → List UInt8 × Except WireError Unit) (fresh : ℕ) (tableRoom : Bool)
  | slotWrite (opcode operand : UInt16) (payload : List UInt8)
  | alloc (data : List UInt8) (fresh : ℕ)
  | allocUninit (size fresh : ℕ)
  | allocUninitSlice (count size fresh : ℕ)
  | writePayload (address : ℕ) (bytes : List UInt8)

namespace ScratchArena

def block (s : ScratchArena) (i : ℕ) : Option (ℕ × ℕ) := (s.chunks[i]?).map fun c ↦ (c.base, c.length)

/-- An address range the global allocator may return. -/
structure Placed (t : PointerWidth) (b : ℕ × ℕ) : Prop where
  aligned : b.1 % 16 = 0
  positive : 0 < b.1
  bounded : b.1 + wordBytes b.2 ≤ t.usizeMax

def Apart (b b' : ℕ × ℕ) : Prop := b.1 + wordBytes b.2 ≤ b'.1 ∨ b'.1 + wordBytes b'.2 ≤ b.1

/-- If a chunk is needed for `required` bytes, `fresh` is where a sound allocator can put it. -/
def Supplies (t : PointerWidth) (s : ScratchArena) (required fresh : ℕ) : Prop :=
  (∀ c, s.chunks[s.nextChunk]? = some c → c.length < max required s.chunkSize) →
    Placed t (fresh, max required s.chunkSize) ∧
      ∀ i b, s.block i = some b → Apart (fresh, max required s.chunkSize) b

end ScratchArena

namespace ScratchRun

open ScratchArena

def record (r : ScratchRun) (out : Except WireError CommandRecord × ScratchArena) : ScratchRun :=
  match out.1 with
  | .ok command => { r with arena := out.2, recorded := r.recorded ++ [command] }
  | .error _ => { r with arena := out.2 }

def grant (r : ScratchRun) (out : ℕ × ℕ × ScratchArena) : ScratchRun :=
  { r with arena := out.2.2, granted := r.granted ++ [(out.1, out.2.1)] }

def act (t : PointerWidth) (r : ScratchRun) : ScratchAction → ScratchRun
  | .writeCommand opcode operand bound fill fresh room =>
    r.record (r.arena.writeCommand t opcode operand bound fill fresh room)
  | .pushInitializedRecord tag operand bound fill fresh room =>
    r.record (r.arena.pushInitializedRecord t tag operand bound fill fresh room)
  | .pushFixedRecord tag operand bytes fill fresh room =>
    r.record (r.arena.pushFixedRecord t tag operand bytes fill fresh room)
  | .slotWrite opcode operand payload =>
    match r.arena.slotWrite opcode operand payload with
    | some arena => { r with arena := arena, recorded := r.recorded ++ [⟨opcode, operand, payload⟩] }
    | none => r
  | .alloc data fresh => r.grant (r.arena.alloc t data fresh)
  | .allocUninit size fresh => r.grant (r.arena.allocUninit t size fresh)
  -- The check that panics comes before anything is reserved.
  | .allocUninitSlice count size fresh => ((r.arena.allocUninitSlice t count size fresh).map r.grant).getD r
  | .writePayload address bytes =>
    { r with arena := { r.arena with heap := writeRange r.arena.heap address bytes } }

def CommandSupplied (t : PointerWidth) (s : ScratchArena) (payloadBound fresh : ℕ) : Prop :=
  ∀ reserved, commandReservation t payloadBound = .ok reserved → s.hasCommandRoom reserved = false →
    s.Supplies t reserved fresh

def PayloadSupplied (t : PointerWidth) (s : ScratchArena) (size fresh : ℕ) : Prop :=
  s.payloadRoom (alignUp t size 16) = none → s.Supplies t (alignUp t size 16) fresh

/-- The allocator keeps its contract, a fixed record has the size its type asserts, slices are as
long as slices can be, and payload memory is only written where it was handed out. -/
def Enabled (t : PointerWidth) (r : ScratchRun) : ScratchAction → Prop
  | .writeCommand _ _ bound _ fresh _ => CommandSupplied t r.arena bound fresh
  | .pushInitializedRecord _ _ bound _ fresh _ => CommandSupplied t r.arena bound fresh
  | .pushFixedRecord _ _ bytes _ fresh _ => CommandSupplied t r.arena bytes fresh
  | .slotWrite _ _ payload => payload.length % commandAlignment = 0
  | .alloc data fresh => PayloadSupplied t r.arena data.length fresh ∧ data.length ≤ t.isizeMax
  | .allocUninit size fresh => PayloadSupplied t r.arena size fresh
  | .allocUninitSlice count size fresh => PayloadSupplied t r.arena (count * size) fresh
  | .writePayload address bytes =>
    ∃ g ∈ r.granted, g.1 ≤ address ∧ address + bytes.length ≤ g.1 + g.2

def Step (t : PointerWidth) (r r' : ScratchRun) : Prop := ∃ a, r.Enabled t a ∧ r' = r.act t a

end ScratchRun

/-- What one descriptor stands for: the chunk it lies in and the commands committed there. -/
structure RegionLog where
  region : CommandRegion
  chunk : ℕ
  records : List CommandRecord

namespace ScratchArena

variable {t : PointerWidth} {s s' : ScratchArena}

structure Storage (t : PointerWidth) (s : ScratchArena) : Prop where
  placed : ∀ i b, s.block i = some b → Placed t b
  apart : ∀ i j b b', i ≠ j → s.block i = some b → s.block j = some b' → Apart b b'
  next : s.nextChunk ≤ s.chunks.length

structure Logged (s : ScratchArena) (log : RegionLog) : Prop where
  block : ∃ length, s.block log.chunk = some (log.region.address, length) ∧
    (frames log.records).length ≤ length
  taken : log.chunk < s.nextChunk
  reserved : log.region.reserved = 0
  framed : FramedAt s.heap log.region.address log.records

/-- Taking the next chunk of the pool leaves the chunks already in use alone. -/
structure Acquired (t : PointerWidth) (s : ScratchArena) (required : ℕ) (out : ℕ × ScratchArena) : Prop where
  index : out.1 = s.nextChunk
  others : out.2 = { s with heap := out.2.heap, chunks := out.2.chunks, nextChunk := s.nextChunk + 1 }
  block : ∃ b, out.2.block s.nextChunk = some b ∧ required ≤ b.2
  kept : ∀ i < s.nextChunk, out.2.chunks[i]? = s.chunks[i]?
  heap : ∀ i b p, i < s.nextChunk → s.block i = some b → b.1 ≤ p → p < b.1 + wordBytes b.2 →
    out.2.heap p = s.heap p
  storage : Storage t out.2

theorem zeroed_outside {fresh capacity p : ℕ} {b : ℕ × ℕ} (h : Apart (fresh, capacity) b) (h₁ : b.1 ≤ p)
    (h₂ : p < b.1 + wordBytes b.2) (m : ℕ → UInt8) :
    writeRange m fresh (replicate (wordBytes capacity) 0) p = m p := by
  refine writeRange_outside m ?_
  rw [length_replicate]
  unfold Apart at h
  simp only at h
  omega

variable {m : ℕ → UInt8}

theorem Storage.replaced (hs : Storage t s) {index fresh capacity : ℕ} {chunks : List AlignedChunk}
    (hplaced : Placed t (fresh, capacity))
    (hapart : ∀ i b, s.block i = some b → Apart (fresh, capacity) b) (hlen : index < chunks.length)
    (hnew : chunks[index]? = some ⟨fresh, capacity, 0⟩) (hold : ∀ i, i ≠ index → chunks[i]? = s.chunks[i]?) :
    Storage t { s with heap := m, chunks := chunks, nextChunk := index + 1 } := by
  have hblock : ∀ i b, ScratchArena.block { s with heap := m, chunks := chunks, nextChunk := index + 1 } i =
      some b → i = index ∧ b = (fresh, capacity) ∨ i ≠ index ∧ s.block i = some b := by
    intro i b hb
    simp only [ScratchArena.block] at hb ⊢
    by_cases hi : i = index
    · rw [hi, hnew] at hb
      exact .inl ⟨hi, by simpa using hb.symm⟩
    · rw [hold i hi] at hb
      exact .inr ⟨hi, hb⟩
  refine ⟨fun i b hb ↦ ?_, fun i j b b' hij hb hb' ↦ ?_, hlen⟩
  · obtain ⟨-, rfl⟩ | ⟨-, hb⟩ := hblock i b hb
    · exact hplaced
    · exact hs.placed i b hb
  · obtain ⟨hi, rfl⟩ | ⟨hi, hold₁⟩ := hblock i b hb
    · obtain ⟨hj, -⟩ | ⟨-, hold₂⟩ := hblock j b' hb'
      · exact absurd (hi.trans hj.symm) hij
      · exact hapart j b' hold₂
    · obtain ⟨-, rfl⟩ | ⟨-, hold₂⟩ := hblock j b' hb'
      · exact (hapart i b hold₁).symm
      · exact hs.apart i j b b' hij hold₁ hold₂

variable {required fresh : ℕ}

theorem acquireChunk_spec (hs : Storage t s) (h : s.Supplies t required fresh) :
    Acquired t s required (s.acquireChunk required fresh) := by
  have hnext := hs.next
  rcases hc : s.chunks[s.nextChunk]? with _ | chunk
  · have hlen : s.nextChunk = s.chunks.length := by
      have hle := getElem?_eq_none_iff.mp hc
      omega
    obtain ⟨hplaced, hapart⟩ := h fun c hc' ↦ by simp [hc] at hc'
    simp only [acquireChunk, hc]
    have hnew : (s.chunks ++ [⟨fresh, max required s.chunkSize, 0⟩])[s.nextChunk]? =
        some ⟨fresh, max required s.chunkSize, 0⟩ := by simp [hlen]
    refine ⟨rfl, rfl, ⟨_, by simp only [block, hnew]; rfl, le_max_left _ _⟩, fun i hi ↦ ?_,
      fun i b p hi hb h₁ h₂ ↦ zeroed_outside (hapart i b hb) h₁ h₂ _, ?_⟩
    · exact getElem?_append_left (by omega)
    · refine hs.replaced hplaced hapart (by simp [hlen]) hnew fun i hi ↦ ?_
      rw [getElem?_append]
      split_ifs with hlt
      · rfl
      · have hnone : s.chunks[i]? = none := getElem?_eq_none_iff.mpr (by omega)
        rw [hnone]
        refine getElem?_eq_none_iff.mpr ?_
        rw [length_singleton]
        omega
  · have hlen : s.nextChunk < s.chunks.length := (List.getElem?_eq_some_iff.mp hc).1
    by_cases hlt : chunk.length < max required s.chunkSize
    · obtain ⟨hplaced, hapart⟩ := h fun c hc' ↦ by
        rw [hc] at hc'
        rwa [← Option.some.inj hc']
      simp only [acquireChunk, hc, hlt, if_true]
      have hnew : (s.chunks.set s.nextChunk ⟨fresh, max required s.chunkSize, 0⟩)[s.nextChunk]? =
          some ⟨fresh, max required s.chunkSize, 0⟩ := getElem?_set_self hlen
      refine ⟨rfl, rfl, ⟨_, by simp only [block, hnew]; rfl, le_max_left _ _⟩, fun i hi ↦ ?_,
        fun i b p hi hb h₁ h₂ ↦ zeroed_outside (hapart i b hb) h₁ h₂ _, ?_⟩
      · exact getElem?_set_ne (by omega)
      · exact hs.replaced hplaced hapart (by simpa using hlen) hnew fun i hi ↦
          getElem?_set_ne (Ne.symm hi)
    · simp only [acquireChunk, hc, hlt, if_false]
      have hblock : ∀ i, ScratchArena.block
          { s with chunks := s.chunks.set s.nextChunk { chunk with used := 0 }, nextChunk := s.nextChunk + 1 }
            i = s.block i := by
        intro i
        simp only [block]
        by_cases hi : s.nextChunk = i
        · rw [← hi, getElem?_set_self hlen, hc]
          rfl
        · rw [getElem?_set_ne hi]
      refine ⟨rfl, rfl, ⟨(chunk.base, chunk.length), by rw [hblock]; simp [block, hc], ?_⟩, fun i hi ↦ ?_,
        fun _ _ _ _ _ _ _ ↦ rfl, ⟨fun i b hb ↦ ?_, fun i j b b' hij hb hb' ↦ ?_, ?_⟩⟩
      · simp only
        omega
      · exact getElem?_set_ne (by omega)
      · exact hs.placed i b (hblock i ▸ hb)
      · exact hs.apart i j b b' hij (hblock i ▸ hb) (hblock j ▸ hb')
      · simpa using Nat.succ_le_of_lt hlen

theorem length_le_wordBytes (n : ℕ) : n ≤ wordBytes n := by
  simp only [wordBytes]
  omega

theorem Logged.keep {log : RegionLog} (h : s.Logged log) (hblock : s'.block log.chunk = s.block log.chunk)
    (hnext : s.nextChunk ≤ s'.nextChunk)
    (hheap : ∀ b p, s.block log.chunk = some b → b.1 ≤ p → p < b.1 + wordBytes b.2 → s'.heap p = s.heap p) :
    s'.Logged log := by
  obtain ⟨length, hlog, hle⟩ := h.block
  refine ⟨⟨length, hblock.trans hlog, hle⟩, h.taken.trans_le hnext, h.reserved, ?_⟩
  refine Eq.trans (readRange_congr fun p h₁ h₂ ↦ ?_) h.framed
  have hword := length_le_wordBytes length
  exact hheap _ p hlog h₁ (by simp only; omega)

def Opened (s : ScratchArena) : Option RegionLog → Prop
  | none => s.commandBase = 0 ∧ s.commandCursor = 0 ∧ s.commandLimit = 0 ∧ s.commandChunk = none
  | some log => s.commandBase = log.region.address ∧
      s.commandCursor = log.region.address + (frames log.records).length ∧
      s.commandChunk = some log.chunk ∧
      ∃ length, s.block log.chunk = some (log.region.address, length) ∧
        s.commandLimit = log.region.address + length

def Outside (s : ScratchArena) (logs : List RegionLog) (g : ℕ × ℕ) : Prop :=
  ∃ i b, i < s.nextChunk ∧ s.block i = some b ∧ b.1 ≤ g.1 ∧ g.1 + g.2 ≤ b.1 + wordBytes b.2 ∧
    ∀ log ∈ logs, log.chunk ≠ i

theorem block_setUsed (s : ScratchArena) (index used i : ℕ) : (s.setUsed index used).block i = s.block i := by
  simp only [block, setUsed, getElem?_modify]
  cases s.chunks[i]? with
  | none => rfl
  | some c => by_cases h : index = i <;> simp [h]

theorem Storage.setUsed (hs : Storage t s) (index used : ℕ) : Storage t (s.setUsed index used) := by
  refine ⟨fun i b hb ↦ hs.placed i b (block_setUsed s index used i ▸ hb), fun i j b b' hij hb hb' ↦ ?_, ?_⟩
  · rw [block_setUsed] at hb hb'
    exact hs.apart i j b b' hij hb hb'
  · simpa [ScratchArena.setUsed] using hs.next

end ScratchArena

namespace ScratchRun

open ScratchArena

variable {t : PointerWidth} {r : ScratchRun} {closed : List RegionLog} {cur : Option RegionLog}

/-- The invariant of a recording frame: `closed` regions, then the one being written. -/
structure Recording (t : PointerWidth) (r : ScratchRun) (closed : List RegionLog) (cur : Option RegionLog) :
    Prop where
  storage : Storage t r.arena
  logged : ∀ log ∈ closed ++ cur.toList, r.arena.Logged log
  distinct : (closed ++ cur.toList).Pairwise fun a b ↦ a.chunk ≠ b.chunk
  lengths : ∀ log ∈ closed,
    log.region.usedBytes = (frames log.records).length ∧ log.region.usedBytes ≤ u32Max
  regions : r.arena.commandRegions = (closed ++ cur.toList).map (·.region)
  opened : r.arena.Opened cur
  start : cur = none → closed = []
  payload : ∀ i, r.arena.payloadChunk = some i → i < r.arena.nextChunk ∧
    (∀ c, r.arena.chunks[i]? = some c → c.used ≤ c.length) ∧ ∀ log ∈ closed ++ cur.toList, log.chunk ≠ i
  granted : ∀ g ∈ r.granted, r.arena.Outside (closed ++ cur.toList) g
  recorded : r.recorded = (closed ++ cur.toList).flatMap (·.records)

theorem Opened.keep {s s' : ScratchArena} (h : s.Opened cur)
    (hcommands : s'.commandChunk = s.commandChunk ∧ s'.commandBase = s.commandBase ∧
      s'.commandCursor = s.commandCursor ∧ s'.commandLimit = s.commandLimit)
    (hblock : ∀ log, cur = some log → s'.block log.chunk = s.block log.chunk) : s'.Opened cur := by
  obtain ⟨h₁, h₂, h₃, h₄⟩ := hcommands
  cases cur with
  | none => exact ⟨h₂.trans h.1, h₃.trans h.2.1, h₄.trans h.2.2.1, h₁.trans h.2.2.2⟩
  | some log =>
    obtain ⟨hb, hc, hk, length, hblk, hlim⟩ := h
    exact ⟨h₂.trans hb, h₃.trans hc, h₁.trans hk, length, (hblock log rfl).trans hblk, h₄.trans hlim⟩

variable {s' : ScratchArena}

theorem Recording.payloadStep (h : Recording t r closed cur) {granted : List (ℕ × ℕ)}
    (hstorage : Storage t s') (hblock : ∀ i < r.arena.nextChunk, s'.block i = r.arena.block i)
    (hnext : r.arena.nextChunk ≤ s'.nextChunk)
    (hheap : ∀ log ∈ closed ++ cur.toList, ∀ b p, r.arena.block log.chunk = some b → b.1 ≤ p →
      p < b.1 + wordBytes b.2 → s'.heap p = r.arena.heap p)
    (hcommands : s'.commandChunk = r.arena.commandChunk ∧ s'.commandBase = r.arena.commandBase ∧
      s'.commandCursor = r.arena.commandCursor ∧ s'.commandLimit = r.arena.commandLimit)
    (hregions : s'.commandRegions = r.arena.commandRegions)
    (hpayload : ∀ i, s'.payloadChunk = some i → i < s'.nextChunk ∧
      (∀ c, s'.chunks[i]? = some c → c.used ≤ c.length) ∧ ∀ log ∈ closed ++ cur.toList, log.chunk ≠ i)
    (hgranted : ∀ g ∈ granted, s'.Outside (closed ++ cur.toList) g) :
    Recording t { r with arena := s', granted := granted } closed cur := by
  have htaken : ∀ log ∈ closed ++ cur.toList, s'.block log.chunk = r.arena.block log.chunk :=
    fun log hlog ↦ hblock _ (h.logged log hlog).taken
  refine ⟨hstorage, fun log hlog ↦ ?_, h.distinct, h.lengths, hregions.trans h.regions, ?_, h.start,
    hpayload, hgranted, h.recorded⟩
  · exact (h.logged log hlog).keep (htaken log hlog) hnext (hheap log hlog)
  · refine Opened.keep h.opened hcommands fun log hlog ↦ htaken log ?_
    rw [hlog]
    exact mem_append_right _ (mem_singleton.mpr rfl)

theorem Outside.keep {s s' : ScratchArena} {logs : List RegionLog} {g : ℕ × ℕ} (h : s.Outside logs g)
    (hblock : ∀ i < s.nextChunk, s'.block i = s.block i) (hnext : s.nextChunk ≤ s'.nextChunk) :
    s'.Outside logs g := by
  obtain ⟨i, b, hi, hb, h₁, h₂, hne⟩ := h
  exact ⟨i, b, hi.trans_le hnext, (hblock i hi).trans hb, h₁, h₂, hne⟩

theorem Recording.writePayload (h : Recording t r closed cur) {g : ℕ × ℕ} {address : ℕ} {bytes : List UInt8}
    (hg : g ∈ r.granted) (h₁ : g.1 ≤ address) (h₂ : address + bytes.length ≤ g.1 + g.2) :
    Recording t { r with arena := { r.arena with heap := writeRange r.arena.heap address bytes } } closed
      cur := by
  obtain ⟨i, b, hi, hb, hlo, hhi, hne⟩ := h.granted g hg
  refine h.payloadStep ⟨h.storage.placed, h.storage.apart, h.storage.next⟩ (fun _ _ ↦ rfl) le_rfl
    (fun log hlog b' p hb' hp₁ hp₂ ↦ ?_) ⟨rfl, rfl, rfl, rfl⟩ rfl h.payload h.granted
  have hapart := h.storage.apart i log.chunk b b' (hne log hlog).symm hb hb'
  refine writeRange_outside _ ?_
  unfold Apart at hapart
  omega

variable {s : ScratchArena}

theorem payloadRoom_eq_some {aligned index : ℕ} {chunk : AlignedChunk}
    (h : s.payloadRoom aligned = some (index, chunk)) :
    s.payloadChunk = some index ∧ s.chunks[index]? = some chunk ∧ aligned ≤ chunk.length - chunk.used := by
  simp only [payloadRoom, bind_eq_some_iff] at h
  obtain ⟨i, hi, c, hc, hif⟩ := h
  split_ifs at hif with hle
  obtain ⟨rfl, rfl⟩ := Prod.mk.inj (Option.some.inj hif)
  exact ⟨hi, hc, hle⟩

theorem chunks_setUsed {index used i : ℕ} {c : AlignedChunk} (h : (s.setUsed index used).chunks[i]? = some c) :
    ∃ c', s.chunks[i]? = some c' ∧ c.length = c'.length ∧ c.used = if index = i then used else c'.used := by
  simp only [setUsed, getElem?_modify] at h
  rcases hc : s.chunks[i]? with _ | c'
  · simp [hc] at h
  · refine ⟨c', rfl, ?_⟩
    by_cases hi : index = i
    · simp only [hc, hi, if_true, Option.map_eq_map, Option.map_some, Option.some.injEq] at h
      simp [← h, hi]
    · simp only [hc, hi, if_false, Option.map_eq_map, Option.map_some, Option.some.injEq] at h
      simp [← h, hi]

theorem Recording.reserveFast (h : Recording t r closed cur) {aligned index : ℕ} {chunk : AlignedChunk}
    (hroom : r.arena.payloadRoom aligned = some (index, chunk)) :
    Recording t (r.grant (chunk.base + chunk.used, aligned, r.arena.setUsed index (chunk.used + aligned)))
      closed cur := by
  obtain ⟨hindex, hchunk, hle⟩ := payloadRoom_eq_some hroom
  obtain ⟨hlt, hfits, hne⟩ := h.payload index hindex
  have hused := hfits chunk hchunk
  have hblock := block_setUsed r.arena index (chunk.used + aligned)
  have hword := length_le_wordBytes chunk.length
  refine h.payloadStep (h.storage.setUsed _ _) (fun i _ ↦ hblock i) le_rfl (fun _ _ _ _ _ _ _ ↦ rfl)
    ⟨rfl, rfl, rfl, rfl⟩ rfl (fun i hi ↦ ?_) fun g hg ↦ ?_
  · obtain rfl : index = i := Option.some.inj (hindex.symm.trans hi)
    refine ⟨hlt, fun c hc ↦ ?_, hne⟩
    obtain ⟨c', hc', hlen, husd⟩ := chunks_setUsed hc
    rw [hchunk] at hc'
    obtain rfl := Option.some.inj hc'
    rw [if_pos rfl] at husd
    omega
  · obtain hg | hg := mem_append.mp hg
    · exact Outside.keep (h.granted g hg) (fun i _ ↦ hblock i) le_rfl
    · rw [mem_singleton.mp hg]
      refine ⟨index, (chunk.base, chunk.length), hlt, ?_, ?_, ?_, hne⟩
      · rw [hblock, block, hchunk]
        rfl
      · simp only
        omega
      · simp only
        omega

theorem Recording.reserveSlow (h : Recording t r closed cur) {aligned fresh : ℕ}
    (hs : r.arena.Supplies t aligned fresh) : Recording t
      (r.grant ((r.arena.reserveSlow aligned fresh).1, aligned, (r.arena.reserveSlow aligned fresh).2))
      closed cur := by
  have hacq := acquireChunk_spec h.storage hs
  obtain ⟨b, hb, hle⟩ := hacq.block
  rcases hout : r.arena.acquireChunk aligned fresh with ⟨index, s₁⟩
  rw [hout] at hacq hb
  obtain rfl : index = r.arena.nextChunk := hacq.index
  have hothers := hacq.others
  simp only at hothers hb
  have htaken : ∀ log ∈ closed ++ cur.toList, log.chunk ≠ r.arena.nextChunk :=
    fun log hlog ↦ (h.logged log hlog).taken.ne
  have hnext₁ : s₁.nextChunk = r.arena.nextChunk + 1 := by rw [hothers]
  have hkept : ∀ i < r.arena.nextChunk, s₁.block i = r.arena.block i := fun i hi ↦ by
    rw [block, block, hacq.kept i hi]
  have hword := length_le_wordBytes b.2
  -- The two outcomes differ only in which chunk later payloads are taken from.
  obtain ⟨payload, hslow, hchoice⟩ : ∃ payload, r.arena.reserveSlow aligned fresh =
      (b.1, { s₁ with payloadChunk := payload }.setUsed r.arena.nextChunk aligned) ∧
        (payload = some r.arena.nextChunk ∨ payload = r.arena.payloadChunk) := by
    have hbase : ((s₁.chunks[r.arena.nextChunk]?).map (·.base)).getD 0 = b.1 := by
      obtain ⟨c, hc, rfl⟩ := map_eq_some_iff.mp hb
      simp [hc]
    by_cases hsmall : aligned ≤ s₁.chunkSize
    · refine ⟨some r.arena.nextChunk, ?_, .inl rfl⟩
      simp [ScratchArena.reserveSlow, hout, hsmall, hbase]
    · refine ⟨r.arena.payloadChunk, ?_, .inr rfl⟩
      have hsame : s₁.payloadChunk = r.arena.payloadChunk := by rw [hothers]
      simp [ScratchArena.reserveSlow, hout, hsmall, hbase, ← hsame]
  have hblock : ∀ i, ({ s₁ with payloadChunk := payload }.setUsed r.arena.nextChunk aligned).block i =
      s₁.block i := fun i ↦ block_setUsed _ _ _ i
  have hwith : Storage t { s₁ with payloadChunk := payload } :=
    ⟨hacq.storage.placed, hacq.storage.apart, hacq.storage.next⟩
  rw [hslow]
  refine h.payloadStep (hwith.setUsed _ _) (fun i hi ↦ (hblock i).trans (hkept i hi)) ?_ ?_ ?_ ?_ ?_
    fun g hg ↦ ?_
  · change r.arena.nextChunk ≤ s₁.nextChunk
    omega
  · intro log hlog b' p hb' h₁ h₂
    exact hacq.heap log.chunk b' p (h.logged log hlog).taken hb' h₁ h₂
  · change s₁.commandChunk = _ ∧ s₁.commandBase = _ ∧ s₁.commandCursor = _ ∧ s₁.commandLimit = _
    rw [hothers]
    exact ⟨rfl, rfl, rfl, rfl⟩
  · change s₁.commandRegions = _
    rw [hothers]
  · intro i hi
    have hi : payload = some i := hi
    change i < s₁.nextChunk ∧ _
    obtain rfl | rfl := hchoice
    · obtain rfl : r.arena.nextChunk = i := Option.some.inj hi
      refine ⟨by omega, fun c hc ↦ ?_, htaken⟩
      obtain ⟨c', hc', hlen, hused⟩ := chunks_setUsed hc
      have hfit : s₁.block r.arena.nextChunk = some (c'.base, c'.length) := congrArg (Option.map _) hc'
      rw [hb] at hfit
      obtain rfl := Option.some.inj hfit
      rw [if_pos rfl] at hused
      simp only at hle
      omega
    · obtain ⟨hlt, hfits, hne⟩ := h.payload i hi
      refine ⟨by omega, fun c hc ↦ ?_, hne⟩
      obtain ⟨c', hc', hlen, hused⟩ := chunks_setUsed hc
      have hold := hfits c' ((hacq.kept i hlt).symm.trans hc')
      rw [if_neg hlt.ne'] at hused
      omega
  · obtain hg | hg := mem_append.mp hg
    · refine Outside.keep (h.granted g hg) (fun i hi ↦ (hblock i).trans (hkept i hi)) ?_
      change r.arena.nextChunk ≤ s₁.nextChunk
      omega
    · rw [mem_singleton.mp hg]
      refine ⟨r.arena.nextChunk, b, ?_, (hblock _).trans hb, le_rfl, ?_, htaken⟩
      · change _ < s₁.nextChunk
        omega
      · simp only
        omega

theorem Recording.reserve (h : Recording t r closed cur) {size fresh : ℕ}
    (hs : PayloadSupplied t r.arena size fresh) :
    Recording t (r.grant (r.arena.reserve t size fresh)) closed cur := by
  rcases hroom : r.arena.payloadRoom (alignUp t size 16) with _ | ⟨index, chunk⟩
  · simp only [ScratchArena.reserve, hroom]
    exact h.reserveSlow (hs hroom)
  · simp only [ScratchArena.reserve, hroom]
    exact h.reserveFast hroom

theorem length_le_alignUp {n : ℕ} (h : n ≤ t.isizeMax) : n ≤ alignUp t n 16 := by
  have hmax : t.isizeMax + 16 ≤ t.usizeMax := by cases t <;> decide
  rw [alignUp, Nat.mod_eq_of_lt (by omega)]
  omega

theorem reserve_aligned (t : PointerWidth) (s : ScratchArena) (size fresh : ℕ) :
    (s.reserve t size fresh).2.1 = alignUp t size 16 := by
  rcases hroom : s.payloadRoom (alignUp t size 16) with _ | ⟨index, chunk⟩ <;>
    simp [ScratchArena.reserve, hroom]

theorem Recording.alloc (h : Recording t r closed cur) {data : List UInt8} {fresh : ℕ}
    (hs : PayloadSupplied t r.arena data.length fresh) (hlen : data.length ≤ t.isizeMax) :
    Recording t (r.grant (r.arena.alloc t data fresh)) closed cur := by
  have hgrant := h.reserve hs
  have hfits := length_le_alignUp hlen
  rw [← reserve_aligned t r.arena data.length fresh] at hfits
  exact hgrant.writePayload (mem_append_right _ (mem_singleton.mpr rfl)) le_rfl
    (Nat.add_le_add_left hfits _)

variable {log : RegionLog}

theorem mem_open (closed : List RegionLog) (log : RegionLog) : log ∈ closed ++ (some log).toList :=
  mem_append_right _ (mem_singleton.mpr rfl)

theorem chunk_ne_of_open {log' : RegionLog} {i : ℕ} (h : ∀ l ∈ closed ++ (some log).toList, l.chunk ≠ i)
    (hlog : log'.chunk = log.chunk) : ∀ l ∈ closed ++ (some log').toList, l.chunk ≠ i := by
  intro l hl
  obtain hl | hl := mem_append.mp hl
  · exact h l (mem_append_left _ hl)
  · rw [mem_singleton.mp hl, hlog]
    exact h log (mem_open closed log)

theorem distinct_of_open {log' : RegionLog}
    (h : (closed ++ (some log).toList).Pairwise fun a b ↦ a.chunk ≠ b.chunk) (hlog : log'.chunk = log.chunk) :
    (closed ++ (some log').toList).Pairwise fun a b ↦ a.chunk ≠ b.chunk := by
  obtain ⟨hclosed, -, hcross⟩ := pairwise_append.mp h
  refine pairwise_append.mpr ⟨hclosed, pairwise_singleton _ _, fun a ha b hb ↦ ?_⟩
  rw [mem_singleton.mp hb, hlog]
  exact hcross a ha log (mem_singleton.mpr rfl)

theorem Recording.framed_of_scribble (h : Recording t r closed (some log))
    (hm : ∀ p, p < r.arena.commandCursor ∨ r.arena.commandLimit ≤ p → m p = r.arena.heap p) :
    ∀ l ∈ closed ++ (some log).toList, FramedAt m l.region.address l.records := by
  obtain ⟨hbase, hcursor, hchunk, length, hblock, hlimit⟩ := h.opened
  intro l hl
  refine Eq.trans (readRange_congr fun p h₁ h₂ ↦ hm p ?_) (h.logged l hl).framed
  obtain ⟨length', hblock', hle'⟩ := (h.logged l hl).block
  have hw := length_le_wordBytes length
  have hw' := length_le_wordBytes length'
  by_cases hsame : l.chunk = log.chunk
  · rw [hsame, hblock] at hblock'
    obtain ⟨haddr, -⟩ := Prod.mk.inj (Option.some.inj hblock')
    have hrecords : l.records = log.records := by
      obtain hl | hl := mem_append.mp hl
      · have hne := (pairwise_append.mp h.distinct).2.2 l hl log (mem_singleton.mpr rfl)
        exact absurd hsame hne
      · rw [mem_singleton.mp hl]
    rw [hrecords] at h₂
    omega
  · have hapart := h.storage.apart l.chunk log.chunk _ _ hsame hblock' hblock
    unfold Apart at hapart
    simp only at hapart
    omega

theorem Recording.scribble (h : Recording t r closed (some log))
    (hm : ∀ p, p < r.arena.commandCursor ∨ r.arena.commandLimit ≤ p → m p = r.arena.heap p) :
    Recording t { r with arena := { r.arena with heap := m } } closed (some log) := by
  have hframed := h.framed_of_scribble hm
  refine ⟨⟨h.storage.placed, h.storage.apart, h.storage.next⟩, fun l hl ↦ ?_, h.distinct, h.lengths,
    h.regions, h.opened, h.start, h.payload, h.granted, h.recorded⟩
  have hlog := h.logged l hl
  exact ⟨hlog.block, hlog.taken, hlog.reserved, hframed l hl⟩

theorem Recording.commit (h : Recording t r closed (some log)) {command : CommandRecord}
    (hm : ∀ p, p < r.arena.commandCursor ∨ r.arena.commandLimit ≤ p → m p = r.arena.heap p)
    (hframe : readRange m r.arena.commandCursor command.stride = command.frame)
    (hfits : command.stride ≤ r.arena.commandLimit - r.arena.commandCursor) :
    Recording t
      { r with
        arena := { r.arena with heap := m, commandCursor := r.arena.commandCursor + command.stride }
        recorded := r.recorded ++ [command] }
      closed (some { log with records := log.records ++ [command] }) := by
  have hframed := h.framed_of_scribble hm
  obtain ⟨hbase, hcursor, hchunk, length, hblock, hlimit⟩ := h.opened
  have hnew : (frames (log.records ++ [command])).length =
      (frames log.records).length + command.stride := by
    simp [frames, command.length_frame]
  constructor
  · exact ⟨h.storage.placed, h.storage.apart, h.storage.next⟩
  · intro l hl
    refine (mem_append.mp hl).elim (fun hl ↦ ?_) fun hl ↦ ?_
    · have hlog := h.logged l (mem_append_left _ hl)
      exact ⟨hlog.block, hlog.taken, hlog.reserved, hframed l (mem_append_left _ hl)⟩
    · rw [mem_singleton.mp hl]
      have hlog := h.logged log (mem_open closed log)
      refine ⟨⟨length, hblock, ?_⟩, hlog.taken, hlog.reserved, ?_⟩
      · obtain ⟨length', hblock', hle⟩ := hlog.block
        rw [hblock] at hblock'
        obtain rfl := (Prod.mk.inj (Option.some.inj hblock')).2
        rw [hnew]
        omega
      · exact (hframed log (mem_open closed log)).concat (hcursor ▸ hframe)
  · exact distinct_of_open h.distinct rfl
  · exact h.lengths
  · have hregions := h.regions
    simpa using hregions
  · refine ⟨hbase, ?_, hchunk, length, hblock, hlimit⟩
    change r.arena.commandCursor + command.stride = log.region.address + _
    rw [hnew]
    omega
  · intro hnone
    exact absurd hnone (by simp)
  · intro i hi
    obtain ⟨hlt, hfit, hne⟩ := h.payload i hi
    exact ⟨hlt, hfit, chunk_ne_of_open hne rfl⟩
  · intro g hg
    obtain ⟨i, b, hi, hb, h₁, h₂, hne⟩ := h.granted g hg
    exact ⟨i, b, hi, hb, h₁, h₂, chunk_ne_of_open hne rfl⟩
  · have hrecorded := h.recorded
    simp only [toList_some, flatMap_append, flatMap_singleton] at hrecorded ⊢
    rw [hrecorded, append_assoc]

theorem length_filled (window bytes : List UInt8) : (filled window bytes).length = window.length := by
  simp only [filled, length_append, length_take, length_drop]
  omega

theorem reservation_eq {bound reserved : ℕ} (h : commandReservation t bound = .ok reserved) :
    bound + commandHeaderBytes ≤ u32Max ∧
      reserved = (bound + commandHeaderBytes + (commandAlignment - 1)) / commandAlignment * commandAlignment := by
  simp only [commandReservation] at h
  split_ifs at h with h₁ h₂ h₃
  obtain rfl := Except.ok.inj h
  exact ⟨by omega, rfl⟩

theorem readRange_written (heap : ℕ → UInt8) (cursor : ℕ) (opcode operand : UInt16) (window : List UInt8)
    {used : ℕ} (hused : used ≤ window.length) :
    let command : CommandRecord := ⟨opcode, operand, window.take used⟩
    readRange
      (writeRange
        (writeRange (writeRange heap (cursor + commandHeaderBytes) window) (cursor + command.recordBytes)
          (replicate (command.stride - command.recordBytes) 0))
        cursor (CommandHeader.bytes ⟨opcode, operand, command.recordBytes⟩))
      cursor command.stride = command.frame := by
  intro command
  have hpayload : command.payload.length = used := by simp [command, hused]
  have hrecord : command.recordBytes = used + commandHeaderBytes := by
    rw [recordBytes, hpayload]
  have hle := command.recordBytes_le_stride
  have hsplit : command.stride =
      commandHeaderBytes + (used + (command.stride - command.recordBytes)) := by omega
  have hheader := CommandHeader.length_bytes ⟨opcode, operand, command.recordBytes⟩
  rw [hsplit, readRange_add, readRange_add, frame, append_assoc]
  refine congrArg₂ (· ++ ·) ?_ (congrArg₂ (· ++ ·) ?_ ?_)
  · rw [← hheader]
    exact readRange_writeRange _ _ _
  · rw [readRange_writeRange_outside _ (by omega), readRange_writeRange_outside _ (by omega)]
    have hall := readRange_writeRange heap (cursor + commandHeaderBytes) window
    obtain ⟨rest, hrest⟩ := Nat.exists_eq_add_of_le hused
    rw [hrest, readRange_add] at hall
    have htake := congrArg (List.take used) hall
    rwa [take_left' (length_readRange _ _ _)] at htake
  · rw [readRange_writeRange_outside _ (by omega)]
    have hpad := readRange_writeRange (writeRange heap (cursor + commandHeaderBytes) window)
      (cursor + command.recordBytes) (replicate (command.stride - command.recordBytes) (0 : UInt8))
    rw [length_replicate] at hpad
    have haddr : cursor + commandHeaderBytes + used = cursor + command.recordBytes := by omega
    have hcount : commandHeaderBytes + (used + (command.stride - command.recordBytes)) -
        command.recordBytes = command.stride - command.recordBytes := by omega
    rw [haddr]
    simpa only [hcount] using hpad

theorem Recording.fillCommand (h : Recording t r closed (some log)) {bound reserved : ℕ}
    (hres : commandReservation t bound = .ok reserved)
    (hroom : reserved ≤ r.arena.commandLimit - r.arena.commandCursor) (opcode operand : UInt16) (fill : Fill) :
    ∃ log', Recording t (r.record (r.arena.fillCommand opcode operand bound fill)) closed (some log') := by
  obtain ⟨hsmall, hreserved⟩ := reservation_eq hres
  have hbound : bound + commandHeaderBytes ≤ reserved := by
    rw [hreserved]
    simp only [commandAlignment]
    omega
  obtain ⟨window, hwindow⟩ : ∃ window, window =
    readRange r.arena.heap (r.arena.commandCursor + commandHeaderBytes) bound := ⟨_, rfl⟩
  rcases hfill : fill window with ⟨bytes, result⟩
  have hlen : (filled window bytes).length = bound := by
    rw [length_filled, hwindow, length_readRange]
  have hscribble : ∀ p, p < r.arena.commandCursor ∨ r.arena.commandLimit ≤ p →
      writeRange r.arena.heap (r.arena.commandCursor + commandHeaderBytes) (filled window bytes) p =
        r.arena.heap p := by
    intro p hp
    refine writeRange_outside _ ?_
    simp only [commandHeaderBytes] at *
    omega
  cases result with
  | error e =>
    refine ⟨log, ?_⟩
    simp only [ScratchArena.fillCommand, ← hwindow, hfill, record]
    exact h.scribble hscribble
  | ok used =>
    by_cases hover : bound < used
    · refine ⟨log, ?_⟩
      simp only [ScratchArena.fillCommand, ← hwindow, hfill, hover, if_true, record]
      exact h.scribble hscribble
    · have hfit : ¬ u32Max < used + commandHeaderBytes := by omega
      have hpayload : ((filled window bytes).take used).length = used := by
        rw [length_take]
        omega
      have hrecord : recordBytes ⟨opcode, operand, (filled window bytes).take used⟩ =
          used + commandHeaderBytes := by rw [recordBytes, hpayload]
      have hstride : stride ⟨opcode, operand, (filled window bytes).take used⟩ =
          (used + commandHeaderBytes + (commandAlignment - 1)) / commandAlignment * commandAlignment := by
        rw [stride, hrecord]
      have hle : (used + commandHeaderBytes + (commandAlignment - 1)) / commandAlignment * commandAlignment ≤
          reserved := by
        rw [hreserved]
        simp only [commandAlignment]
        omega
      have hframe := readRange_written r.arena.heap r.arena.commandCursor opcode operand (filled window bytes)
        (by omega : used ≤ (filled window bytes).length)
      simp only [hrecord, hstride] at hframe
      simp only [ScratchArena.fillCommand, ← hwindow, hfill, hover, hfit, if_false, record]
      rw [← hstride] at hframe ⊢
      refine ⟨_, h.commit (fun p hp ↦ ?_) hframe (by omega)⟩
      have hheader := CommandHeader.length_bytes ⟨opcode, operand, used + commandHeaderBytes⟩
      rw [writeRange_outside, writeRange_outside, hscribble p hp]
      · rw [length_replicate]
        omega
      · simp only [commandHeaderBytes] at *
        omega

theorem Recording.slotWrite (h : Recording t r closed cur) {opcode operand : UInt16} {payload : List UInt8}
    (hmod : payload.length % commandAlignment = 0) :
    ∃ cur', Recording t (r.act t (.slotWrite opcode operand payload)) closed cur' := by
  by_cases hbig : u32Max < commandHeaderBytes + payload.length
  · refine ⟨cur, ?_⟩
    simp only [act, ScratchArena.slotWrite, hbig, if_true]
    exact h
  by_cases hroom : r.arena.commandLimit - r.arena.commandCursor < commandHeaderBytes + payload.length
  · refine ⟨cur, ?_⟩
    simp only [act, ScratchArena.slotWrite, hbig, hroom, if_true, if_false]
    exact h
  cases cur with
  | none =>
    obtain ⟨-, hc, hl, -⟩ := h.opened
    simp only [hc, hl, commandHeaderBytes] at hroom
    omega
  | some log =>
    have hrecord : recordBytes ⟨opcode, operand, payload⟩ =
        commandHeaderBytes + payload.length := add_comm _ _
    have hstride : stride ⟨opcode, operand, payload⟩ = commandHeaderBytes + payload.length := by
      rw [stride, hrecord]
      simp only [commandHeaderBytes, commandAlignment] at hmod ⊢
      omega
    have hframe : frame ⟨opcode, operand, payload⟩ =
        CommandHeader.bytes ⟨opcode, operand, commandHeaderBytes + payload.length⟩ ++ payload := by
      rw [frame, hstride, hrecord, Nat.sub_self, replicate_zero, append_nil]
    have hlen := length_frame ⟨opcode, operand, payload⟩
    have hread := readRange_writeRange r.arena.heap r.arena.commandCursor
      (frame ⟨opcode, operand, payload⟩)
    rw [hlen] at hread
    have hcommit := h.commit (fun p hp ↦ writeRange_outside _ (by omega)) hread (by omega)
    refine ⟨some { log with records := log.records ++ [⟨opcode, operand, payload⟩] }, ?_⟩
    simp only [act, ScratchArena.slotWrite, hbig, hroom, if_false]
    rw [hframe, hstride] at hcommit
    exact hcommit

def close (log : RegionLog) : RegionLog :=
  { log with region := { log.region with usedBytes := (frames log.records).length } }

theorem openCommandBytes_eq (h : r.arena.Opened cur) :
    r.arena.openCommandBytes = ((cur.map fun log ↦ (frames log.records).length).getD 0) := by
  cases cur with
  | none => simp [openCommandBytes, h.1, h.2.1]
  | some log =>
    obtain ⟨hbase, hcursor, -⟩ := h
    simp only [openCommandBytes, hbase, hcursor, map_some, getD_some]
    omega

theorem Recording.publish (h : Recording t r closed cur) (hs : r.arena.publishCommandRegion = .ok s') :
    Recording t { r with arena := s' } closed (cur.map close) ∧
      s' = { r.arena with commandRegions := s'.commandRegions } ∧
      ∀ log ∈ cur, (frames log.records).length ≤ u32Max := by
  have hbytes := openCommandBytes_eq h.opened
  unfold publishCommandRegion at hs
  split_ifs at hs with hbig
  obtain rfl := Except.ok.inj hs
  cases cur with
  | none =>
    have hregions : r.arena.commandRegions = [] := by
      rw [h.regions, h.start rfl]
      rfl
    refine ⟨?_, rfl, by simp⟩
    simp only [hregions, modify_nil]
    rw [← hregions]
    exact h
  | some log =>
    rw [map_some, getD_some] at hbytes
    have hregions : r.arena.commandRegions = closed.map (·.region) ++ [log.region] := by
      rw [h.regions]
      simp
    have hlast : r.arena.commandRegions.modify (r.arena.commandRegions.length - 1)
        (fun region ↦ { region with usedBytes := r.arena.openCommandBytes }) =
          (closed ++ (some (close log)).toList).map (·.region) := by
      have hlen : (closed.map (·.region) ++ [log.region]).length - 1 = (closed.map (·.region)).length := by
        simp
      rw [hregions, hlen, modify_concat, hbytes]
      simp [close]
    refine ⟨?_, rfl, fun l hl ↦ ?_⟩
    · rw [hlast]
      constructor
      · exact ⟨h.storage.placed, h.storage.apart, h.storage.next⟩
      · intro l hl
        refine (mem_append.mp hl).elim (fun hl ↦ ?_) fun hl ↦ ?_
        · have hlog := h.logged l (mem_append_left _ hl)
          exact ⟨hlog.block, hlog.taken, hlog.reserved, hlog.framed⟩
        · rw [mem_singleton.mp hl]
          have hlog := h.logged log (mem_open closed log)
          exact ⟨hlog.block, hlog.taken, hlog.reserved, hlog.framed⟩
      · exact distinct_of_open h.distinct rfl
      · exact h.lengths
      · rfl
      · exact h.opened
      · intro hnone
        exact absurd hnone (by simp)
      · intro i hi
        obtain ⟨hlt, hfit, hne⟩ := h.payload i hi
        exact ⟨hlt, hfit, chunk_ne_of_open hne rfl⟩
      · intro g hg
        obtain ⟨i, b, hi, hb, h₁, h₂, hne⟩ := h.granted g hg
        exact ⟨i, b, hi, hb, h₁, h₂, chunk_ne_of_open hne rfl⟩
      · have hrecorded := h.recorded
        simpa [close] using hrecorded
    · obtain rfl := Option.some.inj hl
      rw [hbytes] at hbig
      omega

theorem Supplies.setUsed (h : s.Supplies t required fresh)
    (index used : ℕ) : (s.setUsed index used).Supplies t required fresh := by
  intro hsmall
  obtain ⟨hplaced, hapart⟩ := h fun c hc ↦ by
    have hblock := block_setUsed s index used s.nextChunk
    simp only [block, hc, map_some] at hblock
    obtain ⟨c', hc', heq⟩ := map_eq_some_iff.mp hblock
    have hlt := hsmall c' hc'
    rw [(Prod.mk.inj heq).2] at hlt
    exact hlt
  exact ⟨hplaced, fun i b hb ↦ hapart i b (block_setUsed s index used i ▸ hb)⟩

theorem Recording.setUsed (h : Recording t r closed cur) {index used : ℕ}
    (hindex : r.arena.payloadChunk ≠ some index) :
    Recording t { r with arena := r.arena.setUsed index used } closed cur := by
  have hblock := block_setUsed r.arena index used
  refine h.payloadStep (h.storage.setUsed _ _) (fun i _ ↦ hblock i) le_rfl (fun _ _ _ _ _ _ _ ↦ rfl)
    ⟨rfl, rfl, rfl, rfl⟩ rfl (fun i hi ↦ ?_) fun g hg ↦ Outside.keep (h.granted g hg) (fun i _ ↦ hblock i) le_rfl
  have hi : r.arena.payloadChunk = some i := hi
  obtain ⟨hlt, hfit, hne⟩ := h.payload i hi
  refine ⟨hlt, fun c hc ↦ ?_, hne⟩
  obtain ⟨c', hc', hlen, hused⟩ := chunks_setUsed hc
  have hdiff : ¬ index = i := fun heq ↦ hindex (heq ▸ hi)
  rw [if_neg hdiff] at hused
  have hold := hfit c' hc'
  omega

/-- The next region starts empty in a chunk of its own. -/
theorem Recording.acquireRegion (h : Recording t r closed cur) (hlast : ∀ l ∈ cur, l.region.usedBytes =
      (frames l.records).length ∧ l.region.usedBytes ≤ u32Max) {reserved fresh : ℕ}
    (hs : r.arena.Supplies t reserved fresh) {index : ℕ}
    (hout : r.arena.acquireChunk reserved fresh = (index, s')) {base length : ℕ}
    (hblock : s'.block index = some (base, length)) :
    Recording t
      { r with
        arena := { s' with
          commandChunk := some index
          commandBase := base
          commandCursor := base
          commandLimit := base + length
          commandRegions := s'.commandRegions ++ [⟨base, 0, 0⟩] } }
      (closed ++ cur.toList) (some ⟨⟨base, 0, 0⟩, index, []⟩) := by
  have hacq := acquireChunk_spec h.storage hs
  rw [hout] at hacq
  obtain rfl : index = r.arena.nextChunk := hacq.index
  have hothers := hacq.others
  simp only at hothers
  have hnext : s'.nextChunk = r.arena.nextChunk + 1 := by rw [hothers]
  have hkept : ∀ i < r.arena.nextChunk, s'.block i = r.arena.block i := fun i hi ↦ by
    rw [block, block, hacq.kept i hi]
  have htaken : ∀ l ∈ closed ++ cur.toList, l.chunk < r.arena.nextChunk :=
    fun l hl ↦ (h.logged l hl).taken
  have hne : ∀ i < r.arena.nextChunk, (∀ l ∈ closed ++ cur.toList, l.chunk ≠ i) →
      ∀ l ∈ closed ++ cur.toList ++ (some (⟨⟨base, 0, 0⟩, r.arena.nextChunk, []⟩ : RegionLog)).toList,
        l.chunk ≠ i := by
    intro i hi hold l hl
    obtain hl | hl := mem_append.mp hl
    · exact hold l hl
    · rw [mem_singleton.mp hl]
      exact hi.ne'
  constructor
  · exact ⟨hacq.storage.placed, hacq.storage.apart, hacq.storage.next⟩
  · intro l hl
    refine (mem_append.mp hl).elim (fun hl ↦ ?_) fun hl ↦ ?_
    · refine (h.logged l hl).keep (hkept _ (htaken l hl)) ?_ fun b p hb h₁ h₂ ↦
        hacq.heap l.chunk b p (htaken l hl) hb h₁ h₂
      change r.arena.nextChunk ≤ s'.nextChunk
      omega
    · rw [mem_singleton.mp hl]
      refine ⟨⟨length, hblock, Nat.zero_le _⟩, ?_, rfl, rfl⟩
      change r.arena.nextChunk < s'.nextChunk
      omega
  · refine pairwise_append.mpr ⟨h.distinct, pairwise_singleton _ _, fun a ha b hb ↦ ?_⟩
    rw [mem_singleton.mp hb]
    exact (htaken a ha).ne
  · intro l hl
    obtain hl | hl := mem_append.mp hl
    · exact h.lengths l hl
    · exact hlast l (mem_toList.mp hl)
  · have hregions := h.regions
    have hsame : s'.commandRegions = r.arena.commandRegions := by rw [hothers]
    simp only [hsame, hregions]
    simp
  · exact ⟨rfl, rfl, rfl, length, hblock, rfl⟩
  · intro hnone
    exact absurd hnone (by simp)
  · intro i hi
    have hi : r.arena.payloadChunk = some i := by
      have hsame : s'.payloadChunk = r.arena.payloadChunk := by rw [hothers]
      exact hsame ▸ hi
    obtain ⟨hlt, hfit, hold⟩ := h.payload i hi
    refine ⟨?_, fun c hc ↦ hfit c ((hacq.kept i hlt).symm.trans hc), hne i hlt hold⟩
    change i < s'.nextChunk
    omega
  · intro g hg
    obtain ⟨i, b, hi, hb, h₁, h₂, hold⟩ := h.granted g hg
    refine ⟨i, b, ?_, (hkept i hi).trans hb, h₁, h₂, hne i hi hold⟩
    change i < s'.nextChunk
    omega
  · rw [h.recorded]
    simp

theorem Recording.leaveCommandChunk (h : Recording t r closed cur) :
    Recording t { r with arena := r.arena.leaveCommandChunk } closed cur := by
  rcases hc : r.arena.commandChunk with _ | index
  · simp only [ScratchArena.leaveCommandChunk, hc]
    exact h
  · simp only [ScratchArena.leaveCommandChunk, hc]
    refine h.setUsed fun hp ↦ ?_
    obtain ⟨-, -, hne⟩ := h.payload index hp
    cases cur with
    | none => exact absurd (hc.symm.trans h.opened.2.2.2) (by simp)
    | some log =>
      obtain ⟨-, -, hchunk, -⟩ := h.opened
      exact hne log (mem_open closed log) (Option.some.inj (hchunk.symm.trans hc))

theorem Supplies.leaveCommandChunk (h : s.Supplies t required fresh) :
    s.leaveCommandChunk.Supplies t required fresh := by
  rcases hc : s.commandChunk with _ | index
  · simp only [ScratchArena.leaveCommandChunk, hc]
    exact h
  · simp only [ScratchArena.leaveCommandChunk, hc]
    exact Supplies.setUsed h _ _

theorem Recording.openCommandRegion (h : Recording t r closed cur) {reserved fresh : ℕ} {tableRoom : Bool}
    (hs : r.arena.Supplies t reserved fresh)
    (hopen : r.arena.openCommandRegion reserved fresh tableRoom = .ok s') :
    ∃ closed' log, Recording t { r with arena := s' } closed' (some log) ∧
      reserved ≤ s'.commandLimit - s'.commandCursor := by
  cases tableRoom with
  | false => simp [ScratchArena.openCommandRegion] at hopen
  | true =>
    rcases hpub : r.arena.publishCommandRegion with e | s₁
    · simp [ScratchArena.openCommandRegion, hpub] at hopen
    obtain ⟨hrec, hsame, hsmall⟩ := h.publish hpub
    have hs₁ : s₁.Supplies t reserved fresh := by
      rw [hsame]
      exact hs
    have hleft := hrec.leaveCommandChunk
    have hacq := acquireChunk_spec hleft.storage (Supplies.leaveCommandChunk hs₁)
    rcases hout : s₁.leaveCommandChunk.acquireChunk reserved fresh with ⟨index, s₂⟩
    rw [hout] at hacq
    obtain ⟨⟨base, length⟩, hblock, hle⟩ := hacq.block
    rw [← hacq.index] at hblock
    have hget : ((s₂.chunks[index]?).map fun chunk ↦ (chunk.base, chunk.length)).getD (0, 0) = (base, length) := by
      rw [show (s₂.chunks[index]?).map (fun chunk ↦ (chunk.base, chunk.length)) = some (base, length) from hblock]
      rfl
    have hfinal : s' = { s₂ with
        commandChunk := some index
        commandBase := base
        commandCursor := base
        commandLimit := base + length
        commandRegions := s₂.commandRegions ++ [⟨base, 0, 0⟩] } := by
      simp only [ScratchArena.openCommandRegion, hpub, Bool.not_true, Bool.false_eq_true, if_false, hout,
        hget] at hopen
      exact (Except.ok.inj hopen).symm
    have hclosedLast : ∀ l ∈ cur.map close, l.region.usedBytes = (frames l.records).length ∧
        l.region.usedBytes ≤ u32Max := by
      intro l hl
      obtain ⟨log, hlog, rfl⟩ := map_eq_some_iff.mp hl
      exact ⟨rfl, hsmall log hlog⟩
    have hnew := hleft.acquireRegion hclosedLast (Supplies.leaveCommandChunk hs₁) hout hblock
    rw [hfinal]
    refine ⟨_, _, hnew, ?_⟩
    simp only
    simp only at hle
    omega

theorem Recording.writeCommand (h : Recording t r closed cur) {opcode operand : UInt16} {bound : ℕ} {fill : Fill}
    {fresh : ℕ} {tableRoom : Bool} (hs : CommandSupplied t r.arena bound fresh) : ∃ closed' cur',
      Recording t (r.record (r.arena.writeCommand t opcode operand bound fill fresh tableRoom)) closed' cur' := by
  rcases hres : commandReservation t bound with e | reserved
  · refine ⟨closed, cur, ?_⟩
    simp only [ScratchArena.writeCommand, hres, record]
    exact h
  have hpositive : 0 < reserved := by
    rw [(reservation_eq hres).2]
    simp only [commandHeaderBytes, commandAlignment]
    omega
  cases hroom : r.arena.hasCommandRoom reserved with
  | true =>
    have hle : reserved ≤ r.arena.commandLimit - r.arena.commandCursor := by simpa [hasCommandRoom] using hroom
    cases cur with
    | none =>
      obtain ⟨-, hc, hl, -⟩ := h.opened
      omega
    | some log =>
      obtain ⟨log', hlog⟩ := h.fillCommand hres hle opcode operand fill
      refine ⟨closed, some log', ?_⟩
      simp only [ScratchArena.writeCommand, hres, withCommandRoom, hroom, if_true]
      exact hlog
  | false =>
    rcases hopen : r.arena.openCommandRegion reserved fresh tableRoom with e | s₁
    · refine ⟨closed, cur, ?_⟩
      simp only [ScratchArena.writeCommand, hres, withCommandRoom, hroom, Bool.false_eq_true, if_false, hopen,
        record]
      exact h
    · obtain ⟨closed', log, hrec, hle⟩ := h.openCommandRegion (hs reserved hres hroom) hopen
      obtain ⟨log', hlog⟩ := hrec.fillCommand hres hle opcode operand fill
      refine ⟨closed', some log', ?_⟩
      simp only [ScratchArena.writeCommand, hres, withCommandRoom, hroom, Bool.false_eq_true, if_false, hopen]
      exact hlog

theorem Recording.step {r' : ScratchRun} (h : Recording t r closed cur) (hstep : Step t r r') :
    ∃ closed' cur', Recording t r' closed' cur' := by
  obtain ⟨a, ha, rfl⟩ := hstep
  cases a with
  | writeCommand opcode operand bound fill fresh room => exact h.writeCommand ha
  | pushInitializedRecord tag operand bound fill fresh room => exact h.writeCommand ha
  | pushFixedRecord tag operand bytes fill fresh room => exact h.writeCommand ha
  | slotWrite opcode operand payload => exact ⟨closed, h.slotWrite ha⟩
  | alloc data fresh => exact ⟨closed, cur, h.alloc ha.1 ha.2⟩
  | allocUninit size fresh => exact ⟨closed, cur, h.reserve ha⟩
  | allocUninitSlice count size fresh =>
    by_cases hsize : count * size ≤ t.usizeMax
    · rw [act, allocUninitSlice, if_pos hsize]
      exact ⟨closed, cur, h.reserve ha⟩
    · rw [act, allocUninitSlice, if_neg hsize]
      exact ⟨closed, cur, h⟩
  | writePayload address bytes =>
    obtain ⟨g, hg, h₁, h₂⟩ := ha
    exact ⟨closed, cur, h.writePayload hg h₁ h₂⟩

/-- A frame about to record, over whatever pool earlier frames left. -/
structure Fresh (t : PointerWidth) (r : ScratchRun) : Prop where
  storage : Storage t r.arena
  cleared : r.arena.payloadChunk = none ∧ r.arena.commandChunk = none ∧ r.arena.commandBase = 0 ∧
    r.arena.commandCursor = 0 ∧ r.arena.commandLimit = 0 ∧ r.arena.commandRegions = []
  granted : r.granted = []
  recorded : r.recorded = []

theorem Fresh.recording (h : r.Fresh t) : Recording t r [] none := by
  obtain ⟨hpayload, hchunk, hbase, hcursor, hlimit, hregions⟩ := h.cleared
  refine ⟨h.storage, by simp, by simp, by simp, by simp [hregions], ⟨hbase, hcursor, hlimit, hchunk⟩,
    fun _ ↦ rfl, by simp [hpayload], by simp [h.granted], by simp [h.recorded]⟩

theorem fresh_withChunkSize (t : PointerWidth) (chunkSize : ℕ) (heap : ℕ → UInt8) :
    Fresh t ⟨withChunkSize chunkSize heap, [], []⟩ := by
  refine ⟨⟨?_, ?_, le_rfl⟩, ⟨rfl, rfl, rfl, rfl, rfl, rfl⟩, rfl, rfl⟩
  · simp [block, withChunkSize]
  · simp [block, withChunkSize]

theorem fresh_clear (h : Recording t r closed cur) : Fresh t ⟨r.arena.clear, [], []⟩ := by
  have hpairs : r.arena.chunks.Pairwise fun c d ↦ Apart (c.base, c.length) (d.base, d.length) := by
    refine pairwise_iff_getElem.mpr fun i j hi hj hij ↦ ?_
    exact h.storage.apart i j _ _ hij.ne (by simp [block, hi]) (by simp [block, hj])
  have hkept : r.arena.clear.chunks.Pairwise fun c d ↦ Apart (c.base, c.length) (d.base, d.length) :=
    pairwise_map.mpr (hpairs.filter _)
  refine ⟨⟨fun i b hb ↦ ?_, fun i j b b' hij hb hb' ↦ ?_, Nat.zero_le _⟩, ⟨rfl, rfl, rfl, rfl, rfl, rfl⟩,
    rfl, rfl⟩
  · obtain ⟨c, hc, rfl⟩ := map_eq_some_iff.mp hb
    obtain ⟨d, hd, rfl⟩ := mem_map.mp (mem_of_getElem? hc)
    obtain ⟨k, hk, hdk⟩ := getElem_of_mem (mem_of_mem_filter hd)
    exact h.storage.placed k _ (by simp [block, hk, hdk])
  · obtain ⟨c, hc, rfl⟩ := map_eq_some_iff.mp hb
    obtain ⟨d, hd, rfl⟩ := map_eq_some_iff.mp hb'
    obtain ⟨hi, rfl⟩ := List.getElem?_eq_some_iff.mp hc
    obtain ⟨hj, rfl⟩ := List.getElem?_eq_some_iff.mp hd
    obtain hlt | hlt := Nat.lt_or_gt_of_ne hij
    · exact pairwise_iff_getElem.mp hkept i j hi hj hlt
    · exact (pairwise_iff_getElem.mp hkept j i hj hi hlt).symm

theorem recording_of_reaches {r' : ScratchRun} (h : r.Fresh t) (hrun : ReflTransGen (Step t) r r') :
    ∃ closed cur, Recording t r' closed cur := by
  induction hrun with
  | refl => exact ⟨[], none, h.recording⟩
  | tail _ hstep ih =>
    obtain ⟨closed, cur, hrec⟩ := ih
    exact hrec.step hstep

theorem Recording.published {t' : PointerWidth} (ht : t.usizeMax ≤ t'.usizeMax) (h : Recording t r closed cur)
    {log : RegionLog} (hlog : log ∈ closed ++ cur.toList)
    (hlen : log.region.usedBytes = (frames log.records).length) (hsmall : log.region.usedBytes ≤ u32Max)
    (hused : log.region.usedBytes ≠ 0) : CommandCursor.Published t' r.arena.heap log.region log.records := by
  have hl := h.logged log hlog
  obtain ⟨length, hblock, hle⟩ := hl.block
  have hplaced := h.storage.placed _ _ hblock
  have haligned := hplaced.aligned
  have hbounded := hplaced.bounded
  have hword := length_le_wordBytes length
  simp only at haligned hbounded
  refine ⟨hplaced.positive, ?_, by omega, hlen, hsmall, hl.reserved, fun hnil ↦ ?_, hl.framed⟩
  · simp only [commandAlignment]
    omega
  · rw [hnil] at hlen
    exact hused hlen

/-- Replay reads back exactly the recorded commands, in order, and then reports the end. -/
theorem command_region_round_trip {t' : PointerWidth} (ht : t.usizeMax ≤ t'.usizeMax) {r' : ScratchRun}
    (h : r.Fresh t) (hrun : ReflTransGen (Step t) r r') {s' : ScratchArena}
    (hpub : r'.arena.publishCommandRegion = .ok s')
    (hused : ∀ region ∈ s'.commandRegions, region.usedBytes ≠ 0) {tableAddress : ℕ}
    (haligned : tableAddress % 8 = 0) :
    ∃ c last, CommandCursor.new tableAddress s'.commandDescriptorBytes = .ok c ∧
      c.drain t' s'.heap (r'.recorded.length + 1) = .ok (r'.recorded, some last) ∧
      last.nextRecord t' s'.heap = .ok (none, last) ∧ last.isComplete = true := by
  obtain ⟨closed, cur, hrec⟩ := recording_of_reaches h hrun
  obtain ⟨hsealed, -, hsmall⟩ := hrec.publish hpub
  have hregions : s'.commandRegions = (closed ++ (cur.map close).toList).map (·.region) := hsealed.regions
  have hlengths : ∀ log ∈ closed ++ (cur.map close).toList,
      log.region.usedBytes = (frames log.records).length ∧ log.region.usedBytes ≤ u32Max := by
    intro log hlog
    obtain hlog | hlog := mem_append.mp hlog
    · exact hsealed.lengths log hlog
    · obtain ⟨l, hl, rfl⟩ := map_eq_some_iff.mp (mem_toList.mp hlog)
      exact ⟨rfl, hsmall l hl⟩
  have hbytes : s'.commandDescriptorBytes =
      ((closed ++ (cur.map close).toList).map fun log ↦ (log.region, log.records)).flatMap (·.1.bytes) := by
    rw [commandDescriptorBytes, hregions, flatMap_map, flatMap_map]
  have htotal : s'.commandDescriptorBytes.length % commandRegionBytes = 0 := by
    have hlen : ∀ regions : List CommandRegion,
        (regions.flatMap (·.bytes)).length = commandRegionBytes * regions.length := by
      intro regions
      induction regions with
      | nil => rfl
      | cons region regions ih =>
        rw [flatMap_cons, length_append, region.length_bytes, ih, length_cons, Nat.mul_succ,
          add_comm]
    rw [commandDescriptorBytes, hlen, Nat.mul_mod_right]
  have hpending : CommandCursor.Pending t' s'.heap ⟨s'.commandDescriptorBytes, 0, 0, 0, 0⟩ []
      ((closed ++ (cur.map close).toList).map fun log ↦ (log.region, log.records)) := by
    refine ⟨rfl, rfl, Nat.zero_le _, Nat.zero_le _, hbytes, fun pair hpair ↦ ?_⟩
    obtain ⟨log, hlog, rfl⟩ := mem_map.mp hpair
    obtain ⟨hlen, hle⟩ := hlengths log hlog
    exact hsealed.published ht hlog hlen hle (hused _ (hregions ▸ mem_map_of_mem hlog))
  have hall : [] ++ ((closed ++ (cur.map close).toList).map
      fun log ↦ (log.region, log.records)).flatMap (·.2) = r'.recorded := by
    rw [nil_append, flatMap_map]
    exact hsealed.recorded.symm
  obtain ⟨last, hdrain, hend⟩ := hpending.drain (Nat.lt_succ_self _)
  rw [hall] at hdrain
  refine ⟨_, last, ?_, hdrain, hend⟩
  rw [CommandCursor.new, if_neg]
  rintro (⟨-, hne⟩ | hne)
  · exact hne haligned
  · exact hne htotal

def blankRun : ScratchRun := ⟨withChunkSize 64 fun _ ↦ 0, [], []⟩

def mixedActions : List ScratchAction :=
  [.writeCommand 1 2 5 (fun _ ↦ ([1, 2, 3], .ok 3)) 4096 true, .alloc [9] 8192,
    .writeCommand 3 0 8 (fun _ ↦ ([5], .error .truncated)) 0 true, .slotWrite 4 0 [0, 0, 0, 0, 0, 0, 0, 7]]

theorem mixedActions_admissible : Admissible (Enabled .bits32) (act .bits32) blankRun mixedActions := by
  refine ⟨fun reserved hres _ _ ↦ ?_, ⟨fun _ _ ↦ ?_, by decide⟩, fun reserved hres hroom ↦ ?_, rfl,
    trivial⟩
  · obtain rfl : 16 = reserved := Except.ok.inj hres
    exact ⟨⟨by decide, by decide, by decide⟩, fun i b hb ↦ absurd hb (by simp [block, blankRun, withChunkSize])⟩
  · refine ⟨⟨by decide, by decide, by decide⟩, fun i b hb ↦ ?_⟩
    cases i with
    | zero =>
      obtain rfl : (4096, 64) = b := Option.some.inj hb
      exact .inr (by decide)
    | succ i => exact absurd hb.symm (some_ne_none b)
  · obtain rfl : 16 = reserved := Except.ok.inj hres
    exact absurd hroom (by decide)

theorem command_region_round_trip_mixed :
    ∃ c last, CommandCursor.new 8 (CommandRegion.bytes ⟨4096, 32, 0⟩) = .ok c ∧
      c.drain .bits64 (mixedActions.foldl (act .bits32) blankRun).arena.heap 3 =
        .ok ([⟨1, 2, [1, 2, 3]⟩, ⟨4, 0, [0, 0, 0, 0, 0, 0, 0, 7]⟩], some last) ∧
      last.isComplete = true := by
  obtain ⟨c, last, hnew, hdrain, -, hdone⟩ := command_region_round_trip
    (by decide : PointerWidth.bits32.usizeMax ≤ PointerWidth.bits64.usizeMax)
    (fresh_withChunkSize .bits32 64 fun _ ↦ 0) mixedActions_admissible.reaches rfl (by decide) (by decide : 8 % 8 = 0)
  exact ⟨c, last, hnew, hdrain, hdone⟩

/-- A call of the frame that records, or the clear ahead of the next one. -/
def FrameStep (t : PointerWidth) (r r' : ScratchRun) : Prop := Step t r r' ∨ r' = ⟨r.arena.clear, [], []⟩

/-- However many frames an arena has recorded, the commands of the current one lie framed in regions that none of
its payloads touches, and a clear leaves the arena ready for the next. -/
theorem frames_keep_regions {chunkSize : ℕ} {heap : ℕ → UInt8}
    (h : ReflTransGen (FrameStep t) ⟨withChunkSize chunkSize heap, [], []⟩ r) :
    (∃ closed cur, Recording t r closed cur) ∧ Fresh t ⟨r.arena.clear, [], []⟩ := by
  have hrec : ∃ closed cur, Recording t r closed cur := by
    induction h with
    | refl => exact ⟨[], none, (fresh_withChunkSize t chunkSize heap).recording⟩
    | tail _ hstep ih =>
      obtain ⟨closed, cur, hrec⟩ := ih
      obtain hstep | rfl := hstep
      · exact hrec.step hstep
      · exact ⟨[], none, (fresh_clear hrec).recording⟩
  obtain ⟨closed, cur, hrec⟩ := hrec
  exact ⟨⟨closed, cur, hrec⟩, fresh_clear hrec⟩

/-- A frame of commands and a payload, the clear behind it, and a command of the next frame. -/
def secondFrame : ScratchRun :=
  act .bits32 ⟨(mixedActions.foldl (act .bits32) blankRun).arena.clear, [], []⟩
    (.writeCommand 9 0 4 (fun _ ↦ ([6], .ok 1)) 12288 true)

theorem frames_keep_regions_second :
    secondFrame.recorded = [⟨9, 0, [6]⟩] ∧ (∃ closed cur, Recording .bits32 secondFrame closed cur) ∧
      Fresh .bits32 ⟨secondFrame.arena.clear, [], []⟩ := by
  have hcall : Step .bits32 ≤ FrameStep .bits32 := fun _ _ ↦ .inl
  have hfirst := ReflTransGen.mono hcall _ _ mixedActions_admissible.reaches
  have hcommand : Enabled .bits32 ⟨(mixedActions.foldl (act .bits32) blankRun).arena.clear, [], []⟩
      (.writeCommand 9 0 4 (fun _ ↦ ([6], .ok 1)) 12288 true) := by
    -- the pool still has the first frame's chunk, so the allocator is not asked
    intro reserved hres _ hgrows
    obtain rfl : 16 = reserved := Except.ok.inj hres
    exact absurd (hgrows _ rfl) (by decide)
  exact ⟨rfl, frames_keep_regions ((hfirst.tail (.inr rfl)).tail (.inl ⟨_, hcommand, rfl⟩))⟩

end ScratchRun

end Mtld3d
