import Mtld3d.Lib.Chunks
import Mtld3d.StampGrid

namespace Mtld3d

open Option

open List Lib

/-- One arena chunk and the submit sequence of its newest snapshot. -/
structure SnapshotChunk where
  pages : ℕ
  lastSeq : ℕ
  deriving DecidableEq, Repr

structure UploadSnapshots where
  active : Option SnapshotChunk
  cursor : ℕ
  full : List SnapshotChunk
  waitedThrough : ℕ

namespace UploadSnapshots

def chunkBytes : ℕ := 262144

def snapshotMaxBytes : ℕ := chunkBytes

def maxChunks : ℕ := 64

def snapshotAlign : ℕ := 16

def new : UploadSnapshots := ⟨none, 0, [], 0⟩

def chunkCount (a : UploadSnapshots) : ℕ := a.full.length + if a.active.isSome then 1 else 0

def retireActive (a : UploadSnapshots) : UploadSnapshots :=
  { a with
    active := none
    full := a.full ++ a.active.toList }

def allocateChunk (fresh : Option ℕ) (a : UploadSnapshots) : Option ℕ × UploadSnapshots :=
  if a.chunkCount < maxChunks then
    match fresh with
    | some pages =>
      (some 0, { a with
        active := some ⟨pages, 0⟩
        cursor := 0 })
    | none => (none, a)
  else (none, a)

def nextChunk (hasReaders : ℕ → Bool) (fresh : Option ℕ) (a : UploadSnapshots) : Option ℕ × UploadSnapshots :=
  match a.full with
  | [] => a.allocateChunk fresh
  | chunk :: rest =>
    if !hasReaders chunk.pages then
      (some 0, { a with
        active := some chunk
        cursor := 0
        full := rest })
    else a.allocateChunk fresh

def roomFor (hasReaders : ℕ → Bool) (fresh : Option ℕ) (len : ℕ) (a : UploadSnapshots) :
    Option ℕ × UploadSnapshots :=
  let start := nextMultipleOf a.cursor snapshotAlign
  if a.active.isSome && start + len ≤ chunkBytes then (some start, a)
  else nextChunk hasReaders fresh a.retireActive

/-- How a write ended: without room, with room that `fill` declined, or with a snapshot. -/
inductive Outcome
  | refused
  | declined (pages offset : ℕ)
  | taken (pages offset : ℕ)
  deriving DecidableEq, Repr

def write (hasReaders : ℕ → Bool) (fresh : Option ℕ) (len seq : ℕ) (fills : Bool) (a : UploadSnapshots) :
    Outcome × UploadSnapshots :=
  if len = 0 ∨ snapshotMaxBytes < len then (.refused, a)
  else
    match a.roomFor hasReaders fresh len with
    | (none, a) => (.refused, a)
    | (some start, a) =>
      match a.active with
      | none => (.refused, a)
      | some chunk =>
        if fills then
          (.taken chunk.pages start, { a with
            active := some { chunk with lastSeq := seq }
            cursor := start + len })
        else (.declined chunk.pages start, a)

def waitTarget (hasReaders : ℕ → Bool) (a : UploadSnapshots) : Option ℕ :=
  if a.chunkCount < maxChunks then none
  else
    match a.full with
    | [] => none
    | oldest :: _ =>
      if hasReaders oldest.pages && a.waitedThrough < oldest.lastSeq then some oldest.lastSeq else none

def noteWait (seq : ℕ) (a : UploadSnapshots) : UploadSnapshots :=
  { a with waitedThrough := max a.waitedThrough seq }

def pages (a : UploadSnapshots) : List ℕ := (a.active.toList ++ a.full).map SnapshotChunk.pages

variable {a : UploadSnapshots} {hasReaders : ℕ → Bool} {fresh : Option ℕ} {len seq : ℕ}

def NeedsChunk (a : UploadSnapshots) (len : ℕ) : Prop :=
  a.active = none ∨ chunkBytes < nextMultipleOf a.cursor snapshotAlign + len

theorem roomFor_of_needs (h : a.NeedsChunk len) :
    a.roomFor hasReaders fresh len = nextChunk hasReaders fresh a.retireActive := by
  have hnot : ¬ ((a.active.isSome && decide (nextMultipleOf a.cursor snapshotAlign + len ≤ chunkBytes)) = true) := by
    obtain hnone | hlt := h
    · simp [hnone]
    · simp [not_le.2 hlt]
  exact if_neg hnot

theorem allocateChunk_cases (fresh : Option ℕ) (a : UploadSnapshots) :
    (∃ pages, fresh = some pages ∧ a.chunkCount < maxChunks ∧
      a.allocateChunk fresh = (some 0, ⟨some ⟨pages, 0⟩, 0, a.full, a.waitedThrough⟩)) ∨
    (a.allocateChunk fresh = (none, a) ∧ (fresh = none ∨ maxChunks ≤ a.chunkCount)) := by
  unfold allocateChunk
  by_cases hcount : a.chunkCount < maxChunks
  · rw [if_pos hcount]
    cases fresh with
    | none => exact .inr ⟨rfl, .inl rfl⟩
    | some pages => exact .inl ⟨pages, rfl, hcount, rfl⟩
  · rw [if_neg hcount]
    exact .inr ⟨rfl, .inr (not_lt.1 hcount)⟩

theorem roomFor_cases (hasReaders : ℕ → Bool) (fresh : Option ℕ) (len : ℕ) (a : UploadSnapshots) :
    (∃ c, a.active = some c ∧ nextMultipleOf a.cursor snapshotAlign + len ≤ chunkBytes ∧
      a.roomFor hasReaders fresh len = (some (nextMultipleOf a.cursor snapshotAlign), a)) ∨
    (∃ c rest, a.full ++ a.active.toList = c :: rest ∧ hasReaders c.pages = false ∧
      a.roomFor hasReaders fresh len = (some 0, ⟨some c, 0, rest, a.waitedThrough⟩)) ∨
    (∃ pages, fresh = some pages ∧ a.retireActive.chunkCount < maxChunks ∧ a.roomFor hasReaders fresh len =
      (some 0, ⟨some ⟨pages, 0⟩, 0, a.full ++ a.active.toList, a.waitedThrough⟩)) ∨
    a.roomFor hasReaders fresh len = (none, a.retireActive) := by
  by_cases hneeds : a.NeedsChunk len
  · right
    rw [roomFor_of_needs hneeds, nextChunk]
    have hfull : a.retireActive.full = a.full ++ a.active.toList := rfl
    have hallocate := allocateChunk_cases fresh a.retireActive
    cases hlist : a.full ++ a.active.toList with
    | nil =>
      rw [hlist] at hfull
      rw [hfull]
      obtain ⟨pages, hpages, hcount, heq⟩ | ⟨heq, -⟩ := hallocate
      · rw [hfull] at heq
        exact .inr (.inl ⟨pages, hpages, hcount, heq⟩)
      · exact .inr (.inr heq)
    | cons c rest =>
      rw [hlist] at hfull
      rw [hfull]
      simp only
      cases hread : hasReaders c.pages with
      | false => exact .inl ⟨c, rest, rfl, hread, rfl⟩
      | true =>
        obtain ⟨pages, hpages, hcount, heq⟩ | ⟨heq, -⟩ := hallocate
        · rw [hfull] at heq
          exact .inr (.inl ⟨pages, hpages, hcount, heq⟩)
        · exact .inr (.inr heq)
  · left
    rw [NeedsChunk, not_or, not_lt] at hneeds
    obtain ⟨c, hc⟩ := ne_none_iff_exists'.1 hneeds.1
    refine ⟨c, hc, hneeds.2, if_pos ?_⟩
    simp [hc, hneeds.2]

end UploadSnapshots

structure SnapshotWorld where
  arena : UploadSnapshots
  memory : ℕ → ℕ → UInt8
  reads : List (Slice UInt8)
  /-- Allocations are numbered from here on. -/
  allocated : ℕ

/-- A write whose slice ends up holding `bytes`, whether `fill` keeps it or declines; a read dropped; a wait noted. -/
inductive SnapshotOp
  | write (seq : ℕ) (bytes : List UInt8) (fills allocates : Bool)
  | drop (k : ℕ)
  | noteWait (seq : ℕ)

namespace SnapshotWorld

open UploadSnapshots

def new (memory : ℕ → ℕ → UInt8) : SnapshotWorld := ⟨.new, memory, [], 0⟩

def hasReaders (w : SnapshotWorld) (pages : ℕ) : Bool := w.reads.any fun s ↦ s.chunk == pages

def tryWrite (w : SnapshotWorld) (len seq : ℕ) (fills allocates : Bool) : Outcome × UploadSnapshots :=
  w.arena.write w.hasReaders (if allocates then some w.allocated else none) len seq fills

def step (w : SnapshotWorld) : SnapshotOp → SnapshotWorld
  | .write seq bytes fills allocates =>
    match w.tryWrite bytes.length seq fills allocates with
    | (.refused, arena) => ⟨arena, w.memory, w.reads, w.allocated + 1⟩
    | (.declined pages offset, arena) =>
      ⟨arena, writeChunk w.memory pages offset bytes, w.reads, w.allocated + 1⟩
    | (.taken pages offset, arena) =>
      ⟨arena, writeChunk w.memory pages offset bytes, ⟨pages, offset, bytes⟩ :: w.reads, w.allocated + 1⟩
  | .drop k => { w with reads := w.reads.eraseIdx k }
  | .noteWait seq => { w with arena := w.arena.noteWait seq }

def run (w : SnapshotWorld) (ops : List SnapshotOp) : SnapshotWorld := ops.foldl step w

variable {w : SnapshotWorld} {op : SnapshotOp} {len seq : ℕ} {fills allocates : Bool}

theorem hasReaders_eq_false {pages : ℕ} : w.hasReaders pages = false ↔ ∀ s ∈ w.reads, s.chunk ≠ pages := by
  simp [hasReaders]

/-- Chunks are distinct allocations, at most the limit; live snapshots lie in them, aligned, intact and, in the
active one, behind the cursor. -/
structure Inv (w : SnapshotWorld) : Prop where
  nodup : w.arena.pages.Nodup
  lt : ∀ p ∈ w.arena.pages, p < w.allocated
  count : w.arena.chunkCount ≤ maxChunks
  intact : Intact w.memory w.reads
  placed : ∀ s ∈ w.reads, s.chunk ∈ w.arena.pages ∧ s.offset % snapshotAlign = 0 ∧ s.stop ≤ chunkBytes
  below : ∀ c, w.arena.active = some c → ∀ s ∈ w.reads, s.chunk = c.pages → s.stop ≤ w.arena.cursor

theorem inv_new (memory : ℕ → ℕ → UInt8) : (new memory).Inv :=
  ⟨nodup_nil, fun p hp ↦ (not_mem_nil hp).elim, Nat.zero_le _, .nil memory,
    fun s hs ↦ (not_mem_nil hs).elim, fun c hc ↦ by cases hc⟩

theorem length_pages (a : UploadSnapshots) : a.pages.length = a.chunkCount := by
  rw [pages, chunkCount, length_map, length_append]
  cases a.active <;> simp [add_comm]

theorem pages_retireActive (a : UploadSnapshots) : a.retireActive.pages.Perm a.pages := by
  simp only [pages, retireActive, toList_none, nil_append]
  exact (perm_append_comm).map _

/-- Room was found: the active chunk takes `len` bytes at `start`, behind every live snapshot in it. -/
structure Room (w : SnapshotWorld) (len start : ℕ) (arena : UploadSnapshots) : Prop where
  pages : (arena.pages.Perm w.arena.pages) ∨ arena.pages.Perm (w.allocated :: w.arena.pages)
  count : arena.chunkCount ≤ maxChunks
  aligned : start % snapshotAlign = 0
  fits : start + len ≤ chunkBytes
  below : ∃ c, arena.active = some c ∧ ∀ s ∈ w.reads, s.chunk = c.pages → s.stop ≤ start ∧ s.stop ≤ arena.cursor

theorem Inv.room (h : w.Inv) (hlen : len ≤ chunkBytes) {start : ℕ} {arena : UploadSnapshots}
    (hroom : w.arena.roomFor w.hasReaders (if allocates then some w.allocated else none) len = (some start, arena)) :
    w.Room len start arena := by
  obtain ⟨c, hc, hfits, heq⟩ | ⟨c, rest, hfull, hread, heq⟩ | ⟨pages, hfresh, hcount, heq⟩ | heq :=
    roomFor_cases w.hasReaders (if allocates then some w.allocated else none) len w.arena
  · rw [heq] at hroom
    cases hroom
    refine ⟨.inl (.refl _), h.count, nextMultipleOf_mod _ _, hfits, c, hc, fun s hs hchunk ↦ ?_⟩
    have hcursor := h.below c hc s hs hchunk
    exact ⟨hcursor.trans (le_nextMultipleOf (by decide)), hcursor⟩
  · rw [heq] at hroom
    cases hroom
    have hperm : (UploadSnapshots.mk (some c) 0 rest w.arena.waitedThrough).pages.Perm w.arena.pages := by
      refine List.Perm.trans ?_ (pages_retireActive w.arena)
      simp only [UploadSnapshots.pages, retireActive, toList_some, toList_none, nil_append]
      rw [hfull]
      exact .refl _
    refine ⟨.inl hperm, ?_, rfl, by omega, c, rfl, fun s hs hchunk ↦ ?_⟩
    · rw [← length_pages, hperm.length_eq, length_pages]
      exact h.count
    · exact absurd hchunk (hasReaders_eq_false.1 hread s hs)
  · rw [heq] at hroom
    cases hroom
    have hpages : pages = w.allocated := by
      cases allocates with
      | true => exact (Option.some.inj hfresh).symm
      | false => cases hfresh
    subst hpages
    refine ⟨.inr ?_, ?_, rfl, by omega, _, rfl, fun s hs hchunk ↦ ?_⟩
    · exact (pages_retireActive w.arena).cons w.allocated
    · simp only [chunkCount, retireActive, isSome_none, isSome_some, Bool.false_eq_true, if_false,
        if_true] at hcount ⊢
      omega
    · exact absurd hchunk (h.lt s.chunk (h.placed s hs).1).ne
  · rw [heq] at hroom
    cases hroom

theorem Inv.tryWrite_cases (h : w.Inv) (len seq : ℕ) (fills allocates : Bool) :
    (w.tryWrite len seq fills allocates = (.refused, w.arena) ∨
      w.tryWrite len seq fills allocates = (.refused, w.arena.retireActive)) ∨
    ∃ start arena c, w.Room len start arena ∧ arena.active = some c ∧
      w.tryWrite len seq fills allocates = if fills then
        (.taken c.pages start, { arena with
          active := some { c with lastSeq := seq }
          cursor := start + len })
        else (.declined c.pages start, arena) := by
  rw [tryWrite, UploadSnapshots.write]
  by_cases hlen : len = 0 ∨ snapshotMaxBytes < len
  · rw [if_pos hlen]
    exact .inl (.inl rfl)
  · rw [if_neg hlen]
    rw [not_or, not_lt] at hlen
    rcases hroom : w.arena.roomFor w.hasReaders (if allocates then some w.allocated else none) len with
      ⟨_ | start, arena⟩
    · obtain ⟨c, hc, hfits, heq⟩ | ⟨c, rest, hfull, hread, heq⟩ | ⟨pages, hfresh, hcount, heq⟩ | heq :=
        roomFor_cases w.hasReaders (if allocates then some w.allocated else none) len w.arena
      · rw [heq] at hroom; cases hroom
      · rw [heq] at hroom; cases hroom
      · rw [heq] at hroom; cases hroom
      · rw [heq] at hroom
        cases hroom
        exact .inl (.inr rfl)
    · have hplace := h.room hlen.2 hroom
      obtain ⟨c, hc, -⟩ := hplace.below
      refine .inr ⟨start, arena, c, hplace, hc, ?_⟩
      simp [hc]

theorem Inv.retire (h : w.Inv) : Inv ⟨w.arena.retireActive, w.memory, w.reads, w.allocated + 1⟩ := by
  have hperm := pages_retireActive w.arena
  refine ⟨hperm.nodup_iff.2 h.nodup, fun p hp ↦ ?_, ?_, h.intact, fun s hs ↦ ?_, fun c hc ↦ by cases hc⟩
  · exact Nat.lt_succ_of_lt (h.lt p (hperm.mem_iff.1 hp))
  · rw [← length_pages, hperm.length_eq, length_pages]
    exact h.count
  · obtain ⟨hmem, haligned, hstop⟩ := h.placed s hs
    exact ⟨hperm.mem_iff.2 hmem, haligned, hstop⟩

theorem Inv.of_room (h : w.Inv) {start : ℕ} {arena arena' : UploadSnapshots} {c c' : SnapshotChunk}
    {memory : ℕ → ℕ → UInt8} {reads : List (Slice UInt8)} (hroom : w.Room len start arena)
    (hactive' : arena'.active = some c') (hpages : arena'.pages = arena.pages) (hc : c'.pages = c.pages)
    (hintact : Intact memory reads)
    (hplaced : ∀ s ∈ reads, s ∈ w.reads ∨
      s.chunk = c.pages ∧ s.offset % snapshotAlign = 0 ∧ s.stop ≤ chunkBytes)
    (hbelow : ∀ s ∈ reads, s.chunk = c.pages → s.stop ≤ arena'.cursor) :
    Inv ⟨arena', memory, reads, w.allocated + 1⟩ := by
  have hcount : arena'.chunkCount ≤ maxChunks := by
    rw [← length_pages, hpages, length_pages]
    exact hroom.count
  have hnew : w.allocated ∉ w.arena.pages := fun hmem ↦ lt_irrefl _ (h.lt _ hmem)
  have hkept : ∀ p ∈ w.arena.pages, p ∈ arena'.pages := by
    intro p hp
    rw [hpages]
    obtain hperm | hperm := hroom.pages
    · exact hperm.mem_iff.2 hp
    · exact hperm.mem_iff.2 (mem_cons_of_mem _ hp)
  have hown : c.pages ∈ arena'.pages := by
    rw [← hc, pages, hactive']
    simp
  refine ⟨?_, fun p hp ↦ ?_, hcount, hintact, fun s hs ↦ ?_, fun c'' hc'' s hs hchunk ↦ ?_⟩
  · rw [hpages]
    obtain hperm | hperm := hroom.pages
    · exact hperm.nodup_iff.2 h.nodup
    · exact hperm.nodup_iff.2 (nodup_cons.2 ⟨hnew, h.nodup⟩)
  · simp only [hpages] at hp
    obtain hperm | hperm := hroom.pages
    · exact Nat.lt_succ_of_lt (h.lt p (hperm.mem_iff.1 hp))
    · obtain rfl | hmem := mem_cons.1 (hperm.mem_iff.1 hp)
      · exact Nat.lt_succ_self _
      · exact Nat.lt_succ_of_lt (h.lt p hmem)
  · obtain hold | ⟨hchunk, haligned, hstop⟩ := hplaced s hs
    · obtain ⟨hmem, haligned, hstop⟩ := h.placed s hold
      exact ⟨hkept _ hmem, haligned, hstop⟩
    · exact ⟨hchunk ▸ hown, haligned, hstop⟩
  · obtain rfl : c' = c'' := Option.some.inj (hactive'.symm.trans hc'')
    exact hbelow s hs (hchunk.trans hc)

theorem Inv.write (h : w.Inv) (seq : ℕ) (bytes : List UInt8) (fills allocates : Bool) :
    (w.step (.write seq bytes fills allocates)).Inv := by
  obtain (heq | heq) | ⟨start, arena, c, hroom, hc, heq⟩ := h.tryWrite_cases bytes.length seq fills allocates
  · simp only [step, heq]
    exact ⟨h.nodup, fun p hp ↦ Nat.lt_succ_of_lt (h.lt p hp), h.count, h.intact, h.placed, h.below⟩
  · simp only [step, heq]
    exact h.retire
  · obtain ⟨c', hc', hbelow⟩ := hroom.below
    obtain rfl : c = c' := Option.some.inj (hc.symm.trans hc')
    have hstops : ∀ s ∈ w.reads, s.chunk = c.pages → s.stop ≤ start := fun s hs hchunk ↦ (hbelow s hs hchunk).1
    cases fills with
    | false =>
      simp only [step, heq, Bool.false_eq_true, if_false]
      exact h.of_room hroom hc rfl rfl (h.intact.write hstops bytes) (fun s hs ↦ .inl hs)
        fun s hs hchunk ↦ (hbelow s hs hchunk).2
    | true =>
      simp only [step, heq, if_true]
      refine h.of_room hroom rfl ?_ rfl (h.intact.push hstops bytes) ?_ ?_
      · simp [pages, hc]
      · intro s hs
        obtain rfl | hold := mem_cons.1 hs
        · exact .inr ⟨rfl, hroom.aligned, hroom.fits⟩
        · exact .inl hold
      · intro s hs hchunk
        obtain rfl | hold := mem_cons.1 hs
        · exact le_refl _
        · exact (hstops s hold hchunk).trans (Nat.le_add_right _ _)

theorem Inv.step (h : w.Inv) (op : SnapshotOp) : (w.step op).Inv := by
  cases op with
  | write seq bytes fills allocates => exact h.write seq bytes fills allocates
  | drop k =>
    have hsub : (w.reads.eraseIdx k).Sublist w.reads := eraseIdx_sublist _ _
    exact ⟨h.nodup, h.lt, h.count, h.intact.sublist hsub, fun s hs ↦ h.placed s (hsub.subset hs),
      fun c hc s hs ↦ h.below c hc s (hsub.subset hs)⟩
  | noteWait seq => exact ⟨h.nodup, h.lt, h.count, h.intact, h.placed, h.below⟩

theorem Inv.run (h : w.Inv) (ops : List SnapshotOp) : (w.run ops).Inv := by
  induction ops generalizing w with
  | nil => exact h
  | cons op ops ih => exact ih (h.step op)

theorem Inv.pages_step (h : w.Inv) (op : SnapshotOp) : w.arena.pages ⊆ (w.step op).arena.pages := by
  cases op with
  | write seq bytes fills allocates =>
    obtain (heq | heq) | ⟨start, arena, c, hroom, hc, heq⟩ := h.tryWrite_cases bytes.length seq fills allocates
    · simp only [SnapshotWorld.step, heq]
      exact List.Subset.refl _
    · simp only [SnapshotWorld.step, heq]
      exact (pages_retireActive w.arena).symm.subset
    · have hkept : w.arena.pages ⊆ arena.pages := by
        obtain hperm | hperm := hroom.pages
        · exact hperm.symm.subset
        · exact List.Subset.trans (subset_cons_self _ _) hperm.symm.subset
      cases fills with
      | false => simpa only [SnapshotWorld.step, heq, Bool.false_eq_true, if_false] using hkept
      | true =>
        simp only [SnapshotWorld.step, heq, if_true]
        simpa only [pages, hc, toList_some, singleton_append, map_cons] using hkept
  | drop k => exact List.Subset.refl _
  | noteWait seq => exact List.Subset.refl _

structure Stuck (w : SnapshotWorld) (pages : ℕ) : Prop where
  full : maxChunks ≤ w.arena.chunkCount
  oldest : ∃ c rest, w.arena.full = c :: rest ∧ c.pages = pages
  read : w.hasReaders pages = true

variable {pages : ℕ}

theorem Stuck.roomFor (h : w.Stuck pages) (hneeds : w.arena.NeedsChunk len) (fresh : Option ℕ) :
    w.arena.roomFor w.hasReaders fresh len = (none, w.arena.retireActive) := by
  obtain ⟨c, rest, hfull, hc⟩ := h.oldest
  have hcount : maxChunks ≤ w.arena.retireActive.chunkCount := by
    rw [← length_pages, (pages_retireActive w.arena).length_eq, length_pages]
    exact h.full
  have hlist : w.arena.retireActive.full = c :: (rest ++ w.arena.active.toList) := by
    rw [retireActive, hfull, cons_append]
  rw [roomFor_of_needs hneeds, nextChunk, hlist]
  simp only [hc, h.read, Bool.not_true, Bool.false_eq_true, if_false]
  unfold allocateChunk
  rw [if_neg (not_lt.2 hcount)]

theorem Stuck.refused (h : w.Stuck pages) (hneeds : w.arena.NeedsChunk len) (seq : ℕ) (fills allocates : Bool) :
    (w.tryWrite len seq fills allocates).1 = .refused := by
  rw [tryWrite, UploadSnapshots.write, h.roomFor hneeds]
  split <;> rfl

theorem step_arena (seq : ℕ) (bytes : List UInt8) (fills allocates : Bool) :
    (w.step (.write seq bytes fills allocates)).arena = (w.tryWrite bytes.length seq fills allocates).2 := by
  rw [SnapshotWorld.step]
  rcases w.tryWrite bytes.length seq fills allocates with ⟨_ | _ | _, arena⟩ <;> rfl

theorem Stuck.tryWrite_arena (h : w.Stuck pages) (len seq : ℕ) (fills allocates : Bool) :
    (w.tryWrite len seq fills allocates).2.chunkCount = w.arena.chunkCount ∧
      ∃ tail, (w.tryWrite len seq fills allocates).2.full = w.arena.full ++ tail := by
  rw [tryWrite, UploadSnapshots.write]
  split
  · exact ⟨rfl, [], (append_nil _).symm⟩
  · by_cases hneeds : w.arena.NeedsChunk len
    · rw [h.roomFor hneeds]
      refine ⟨?_, w.arena.active.toList, rfl⟩
      rw [← length_pages, (pages_retireActive w.arena).length_eq, length_pages]
    · rw [NeedsChunk, not_or, not_lt] at hneeds
      obtain ⟨c, hc⟩ := ne_none_iff_exists'.1 hneeds.1
      have hroom : w.arena.roomFor w.hasReaders (if allocates then some w.allocated else none) len =
          (some (nextMultipleOf w.arena.cursor snapshotAlign), w.arena) := by
        refine if_pos ?_
        simp [hc, hneeds.2]
      simp only [hroom, hc]
      cases fills with
      | false => exact ⟨rfl, [], (append_nil _).symm⟩
      | true =>
        refine ⟨?_, [], (append_nil _).symm⟩
        simp [chunkCount, hc]

theorem Stuck.step (h : w.Stuck pages) (op : SnapshotOp) (hread : (w.step op).hasReaders pages = true) :
    (w.step op).Stuck pages := by
  obtain ⟨c, rest, hfull, hc⟩ := h.oldest
  cases op with
  | write seq bytes fills allocates =>
    obtain ⟨hcount, tail, htail⟩ := h.tryWrite_arena bytes.length seq fills allocates
    rw [← step_arena seq bytes fills allocates] at hcount htail
    exact ⟨hcount ▸ h.full, ⟨c, rest ++ tail, by rw [htail, hfull, cons_append], hc⟩, hread⟩
  | drop k => exact ⟨h.full, h.oldest, hread⟩
  | noteWait seq => exact ⟨h.full, h.oldest, hread⟩

theorem stuck_of_waitTarget (h : w.arena.waitTarget w.hasReaders = some seq) :
    ∃ c rest, w.arena.full = c :: rest ∧ c.lastSeq = seq ∧ w.Stuck c.pages := by
  rw [waitTarget] at h
  split at h
  · cases h
  · rename_i hcount
    cases hfull : w.arena.full with
    | nil => rw [hfull] at h; cases h
    | cons c rest =>
      rw [hfull] at h
      simp only at h
      split at h
      · rename_i hread
        obtain rfl := Option.some.inj h
        rw [Bool.and_eq_true] at hread
        exact ⟨c, rest, rfl, rfl, not_lt.1 hcount, ⟨c, rest, hfull, rfl⟩, hread.1⟩
      · cases h

theorem Stuck.run (h : w.Stuck pages) (ops : List SnapshotOp)
    (hread : ∀ k, (w.run (ops.take k)).hasReaders pages = true) : (w.run ops).Stuck pages := by
  induction ops generalizing w with
  | nil => exact h
  | cons op ops ih =>
    refine ih (h.step op (hread 1)) fun k ↦ ?_
    exact hread (k + 1)

/-- After any writes, drops and waits every snapshot whose read is live lies aligned in its chunk with the bytes it
was handed out with, apart from the others; chunks are bounded and kept; and the arena asks for a wait only when a
write that needs a chunk is refused for as long as the chunk it names is read. -/
theorem snapshots_never_overwritten (memory : ℕ → ℕ → UInt8) (ops : List SnapshotOp) :
    (∀ s ∈ ((new memory).run ops).reads, s.chunk ∈ ((new memory).run ops).arena.pages ∧
      s.offset % snapshotAlign = 0 ∧ s.stop ≤ chunkBytes ∧
      readRange (((new memory).run ops).memory s.chunk) s.offset s.bytes.length = s.bytes) ∧
    ((new memory).run ops).reads.Pairwise Slice.Apart ∧
    ((new memory).run ops).arena.pages.Nodup ∧ ((new memory).run ops).arena.chunkCount ≤ maxChunks ∧
    (∀ op, ((new memory).run ops).arena.pages ⊆ (((new memory).run ops).step op).arena.pages) ∧
    ∀ seq, ((new memory).run ops).arena.waitTarget ((new memory).run ops).hasReaders = some seq →
      ∃ c rest, ((new memory).run ops).arena.full = c :: rest ∧ c.lastSeq = seq ∧
        ∀ later, (∀ k, (((new memory).run ops).run (later.take k)).hasReaders c.pages = true) →
          ∀ len seq fills allocates, (((new memory).run ops).run later).arena.NeedsChunk len →
            ((((new memory).run ops).run later).tryWrite len seq fills allocates).1 = .refused := by
  have h := (inv_new memory).run ops
  refine ⟨fun s hs ↦ ?_, h.intact.apart, h.nodup, h.count, h.pages_step, fun seq hseq ↦ ?_⟩
  · obtain ⟨hmem, haligned, hstop⟩ := h.placed s hs
    exact ⟨hmem, haligned, hstop, h.intact.held s hs⟩
  · obtain ⟨c, rest, hfull, hlast, hstuck⟩ := stuck_of_waitTarget hseq
    refine ⟨c, rest, hfull, hlast, fun later hread len seq fills allocates hneeds ↦ ?_⟩
    exact (hstuck.run later hread).refused hneeds seq fills allocates

end SnapshotWorld

end Mtld3d
