import Mathlib.Data.Nat.Log
import Mtld3d.Lib.Chunks
import Mtld3d.Lib.Slots
import Mtld3d.StampGrid

namespace Mtld3d

open Lib

/-- The two command buffers of a submission; each retires on a counter of its own. -/
inductive CommandKind
  | render
  | upload
  deriving DecidableEq, Repr

def seqNever : ℕ := 18446744073709551615

/-- The command buffer an encode goes into, and which counters its submission has. -/
structure SubmitStamp where
  seq : ℕ
  kind : CommandKind
  drawPresent : Bool
  uploadPresent : Bool

namespace SubmitStamp

def new (submitSeq : ℕ) (drawPresent uploadPresent : Bool) : SubmitStamp where
  seq := if submitSeq ≠ 0 ∧ drawPresent then submitSeq else seqNever
  kind := .render
  drawPresent := drawPresent
  uploadPresent := uploadPresent

def upload (s : SubmitStamp) : SubmitStamp := { s with kind := .upload }

def retired (s : SubmitStamp) (counters : CommandKind → ℕ) : CommandKind → ℕ
  | .render => if s.drawPresent then counters .render else 0
  | .upload => if s.uploadPresent then counters .upload else 0

end SubmitStamp

/-- The newest submission that uses a resource, per retirement counter; zero for none. -/
structure LastUse where
  draw : ℕ
  upload : ℕ

namespace LastUse

def unused : LastUse := ⟨0, 0⟩

def of (u : LastUse) : CommandKind → ℕ
  | .render => u.draw
  | .upload => u.upload

def record (u : LastUse) (s : SubmitStamp) : LastUse :=
  match s.kind with
  | .upload => { u with upload := s.seq }
  | .render => { u with draw := s.seq }

def retired (u : LastUse) (s : SubmitStamp) (counters : CommandKind → ℕ) : Bool :=
  (u.draw == 0 || decide (u.draw ≤ s.retired counters .render)) &&
    (u.upload == 0 || decide (u.upload ≤ s.retired counters .upload))

end LastUse

structure RingChunk where
  buffer : ℕ
  capacity : ℕ
  cursor : ℕ
  lastUse : LastUse

/-- The chunk written to, the chunks set aside, the size chunks grow to and what this submission wrote. -/
structure UploadRing where
  active : Option RingChunk
  spare : List RingChunk
  chunkBytes : ℕ
  written : ℕ

namespace UploadRing

def firstChunkBytes : ℕ := 65536

def maxChunkBytes : ℕ := 16777216

def spareChunks : ℕ := 2

def usizeWrap : ℕ := 18446744073709551616

def nextPowerOfTwo (n : ℕ) : ℕ := 2 ^ Nat.clog 2 n % usizeWrap

def new : UploadRing := ⟨none, [], 0, 0⟩

def need (r : UploadRing) (len : ℕ) : ℕ :=
  max (max (max len r.chunkBytes) (min r.written maxChunkBytes)) firstChunkBytes

def place (r : UploadRing) (next : RingChunk) (spare : List RingChunk) (len : ℕ) : UploadRing :=
  { r with
    active := some { next with
      cursor := len
      lastUse := .unused }
    spare := spare ++ r.active.toList }

/-- A retired spare that is large enough, or a new chunk, takes over. -/
def moveOn (stamp : SubmitStamp) (counters : CommandKind → ℕ) (fresh : Option ℕ) (len : ℕ) (r : UploadRing) :
    Option ℕ × UploadRing :=
  let r := { r with written := (r.written + len) % usizeWrap }
  match r.spare.findIdx? fun c ↦ decide (r.need len ≤ c.capacity) && c.lastUse.retired stamp counters with
  | some i =>
    match r.spare[i]? with
    | some next => (some 0, r.place next (swapRemove r.spare i) len)
    | none => (none, r)
  | none =>
    match fresh with
    | some buffer => (some 0, r.place ⟨buffer, nextPowerOfTwo (r.need len), 0, .unused⟩ r.spare len)
    | none => (none, r)

/-- Room for `len` bytes behind the active chunk's cursor, or in the chunk that takes over. -/
def reserve (stamp : SubmitStamp) (counters : CommandKind → ℕ) (fresh : Option ℕ) (len align : ℕ) (r : UploadRing) :
    Option ℕ × UploadRing :=
  match r.active with
  | some c =>
    let offset := nextMultipleOf c.cursor align
    if offset + len < usizeWrap ∧ offset + len ≤ c.capacity then
      (some offset, { r with
        active := some { c with cursor := offset + len }
        written := (r.written + (offset + len - c.cursor)) % usizeWrap })
    else r.moveOn stamp counters fresh len
  | none => r.moveOn stamp counters fresh len

def write (stamp : SubmitStamp) (counters : CommandKind → ℕ) (fresh : Option ℕ) (len align : ℕ) (r : UploadRing) :
    Option (ℕ × ℕ) × UploadRing :=
  match r.reserve stamp counters fresh len align with
  | (none, r) => (none, r)
  | (some offset, r) =>
    match r.active with
    | none => (none, r)
    | some c =>
      (some (c.buffer, offset), { r with active := some { c with lastUse := c.lastUse.record stamp } })

def retainSpares (stamp : SubmitStamp) (counters : CommandKind → ℕ) (chunkBytes : ℕ) :
    ℕ → List RingChunk → List RingChunk
  | _, [] => []
  | kept, c :: rest =>
    if !c.lastUse.retired stamp counters then c :: retainSpares stamp counters chunkBytes kept rest
    else if c.capacity < chunkBytes ∨ kept = spareChunks then retainSpares stamp counters chunkBytes kept rest
    else c :: retainSpares stamp counters chunkBytes (kept + 1) rest

def endSubmission (stamp : SubmitStamp) (counters : CommandKind → ℕ) (r : UploadRing) : UploadRing :=
  let chunkBytes := max r.chunkBytes (min (nextPowerOfTwo r.written) maxChunkBytes)
  { r with
    chunkBytes := chunkBytes
    written := 0
    spare := retainSpares stamp counters chunkBytes 0 r.spare }

def chunks (r : UploadRing) : List RingChunk := r.active.toList ++ r.spare

def buffers (r : UploadRing) : List ℕ := r.chunks.map RingChunk.buffer

variable {stamp : SubmitStamp} {counters : CommandKind → ℕ} {fresh : Option ℕ} {len align : ℕ} {r : UploadRing}

theorem le_nextPowerOfTwo {n : ℕ} (h : n ≤ 2 ^ 63) : n ≤ nextPowerOfTwo n := by
  have hclog : Nat.clog 2 n ≤ 63 := Nat.clog_le_of_le_pow h
  have hlt : 2 ^ Nat.clog 2 n < usizeWrap := (Nat.pow_le_pow_right (by decide) hclog).trans_lt (by decide)
  rw [nextPowerOfTwo, Nat.mod_eq_of_lt hlt]
  exact Nat.le_pow_clog (by decide) n

theorem le_need (r : UploadRing) (len : ℕ) : len ≤ r.need len := by
  rw [need]
  omega

theorem need_le (hlen : len ≤ 2 ^ 63) (hbytes : r.chunkBytes ≤ maxChunkBytes) : r.need len ≤ 2 ^ 63 := by
  have hmax : maxChunkBytes ≤ 2 ^ 63 := by decide
  have hfirst : firstChunkBytes ≤ 2 ^ 63 := by decide
  rw [need]
  omega

/-- A chunk that starts over or is new: where it came from, and what is left aside. -/
structure Takes (r : UploadRing) (fresh : Option ℕ) (stamp : SubmitStamp) (counters : CommandKind → ℕ) (len : ℕ)
    (next : RingChunk) (rest : List RingChunk) : Prop where
  origin : (r.spare.Perm (next :: rest) ∧ next.lastUse.retired stamp counters = true) ∨
    (fresh = some next.buffer ∧ rest = r.spare)
  fits : len ≤ next.capacity

theorem moveOn_cases (hlen : len ≤ 2 ^ 63) (hbytes : r.chunkBytes ≤ maxChunkBytes) (stamp : SubmitStamp)
    (counters : CommandKind → ℕ) (fresh : Option ℕ) : ∃ written,
    (∃ next rest, r.Takes fresh stamp counters len next rest ∧ r.moveOn stamp counters fresh len =
      (some 0, { r with written := written }.place next rest len)) ∨
    r.moveOn stamp counters fresh len = (none, { r with written := written }) := by
  refine ⟨(r.written + len) % usizeWrap, ?_⟩
  unfold moveOn
  simp only
  generalize hr : { r with written := (r.written + len) % usizeWrap } = r'
  have hneed : r'.need len ≤ 2 ^ 63 := need_le hlen (by rw [← hr]; exact hbytes)
  cases hfind : r.spare.findIdx? fun c ↦ decide (r'.need len ≤ c.capacity) && c.lastUse.retired stamp counters with
  | some i =>
    obtain ⟨hi, hprop, -⟩ := List.findIdx?_eq_some_iff_getElem.1 hfind
    rw [Bool.and_eq_true, decide_eq_true_eq] at hprop
    have hget : r.spare[i]? = some r.spare[i] := List.getElem?_eq_getElem hi
    simp only [hget]
    exact .inl ⟨_, _, ⟨.inl ⟨swapRemove_perm hget, hprop.2⟩, (le_need r' len).trans hprop.1⟩, rfl⟩
  | none =>
    cases fresh with
    | none => exact .inr rfl
    | some buffer =>
      refine .inl ⟨⟨buffer, nextPowerOfTwo (r'.need len), 0, .unused⟩, r.spare, ⟨.inr ⟨rfl, rfl⟩, ?_⟩, rfl⟩
      exact (le_need r' len).trans (le_nextPowerOfTwo hneed)

theorem write_cases (hlen : len ≤ 2 ^ 63) (hbytes : r.chunkBytes ≤ maxChunkBytes) (stamp : SubmitStamp)
    (counters : CommandKind → ℕ) (fresh : Option ℕ) (align : ℕ) : ∃ written,
    (∃ c, r.active = some c ∧ nextMultipleOf c.cursor align + len ≤ c.capacity ∧
      r.write stamp counters fresh len align = (some (c.buffer, nextMultipleOf c.cursor align),
        ⟨some ⟨c.buffer, c.capacity, nextMultipleOf c.cursor align + len, c.lastUse.record stamp⟩, r.spare,
          r.chunkBytes, written⟩)) ∨ (∃ next rest, r.Takes fresh stamp counters len next rest ∧
      r.write stamp counters fresh len align = (some (next.buffer, 0),
        ⟨some ⟨next.buffer, next.capacity, len, LastUse.unused.record stamp⟩, rest ++ r.active.toList, r.chunkBytes,
          written⟩)) ∨ r.write stamp counters fresh len align = (none, { r with written := written }) := by
  have hmove : r.reserve stamp counters fresh len align = r.moveOn stamp counters fresh len → ∃ written,
      (∃ next rest, r.Takes fresh stamp counters len next rest ∧
        r.write stamp counters fresh len align = (some (next.buffer, 0),
          ⟨some ⟨next.buffer, next.capacity, len, LastUse.unused.record stamp⟩, rest ++ r.active.toList,
            r.chunkBytes, written⟩)) ∨
      r.write stamp counters fresh len align = (none, { r with written := written }) := by
    intro heq
    obtain ⟨written, ⟨next, rest, htakes, hmoved⟩ | hmoved⟩ := moveOn_cases hlen hbytes stamp counters fresh
    · exact ⟨written, .inl ⟨next, rest, htakes, by rw [write, heq, hmoved]; rfl⟩⟩
    · exact ⟨written, .inr (by rw [write, heq, hmoved])⟩
  cases hactive : r.active with
  | none =>
    rw [← hactive]
    obtain ⟨written, h⟩ := hmove (by rw [reserve, hactive])
    exact ⟨written, .inr h⟩
  | some c =>
    rw [← hactive]
    by_cases hfits : nextMultipleOf c.cursor align + len < usizeWrap ∧
        nextMultipleOf c.cursor align + len ≤ c.capacity
    · refine ⟨(r.written + (nextMultipleOf c.cursor align + len - c.cursor)) % usizeWrap,
        .inl ⟨c, hactive, hfits.2, ?_⟩⟩
      rw [write, reserve, hactive]
      simp [if_pos hfits]
    · obtain ⟨written, h⟩ := hmove (by rw [reserve, hactive]; exact if_neg hfits)
      exact ⟨written, .inr h⟩

theorem retainSpares_sublist (stamp : SubmitStamp) (counters : CommandKind → ℕ) (chunkBytes kept : ℕ)
    (spare : List RingChunk) : (retainSpares stamp counters chunkBytes kept spare).Sublist spare := by
  induction spare generalizing kept with
  | nil => exact .slnil
  | cons c rest ih =>
    rw [retainSpares]
    split
    · exact (ih kept).cons_cons c
    · split
      · exact (ih kept).cons c
      · exact (ih (kept + 1)).cons_cons c

theorem retired_of_dropped {chunkBytes kept : ℕ} {spare : List RingChunk} {c : RingChunk} (hc : c ∈ spare)
    (hout : c ∉ retainSpares stamp counters chunkBytes kept spare) : c.lastUse.retired stamp counters = true := by
  induction spare generalizing kept with
  | nil => cases hc
  | cons d rest ih =>
    rw [retainSpares] at hout
    by_cases hd : d.lastUse.retired stamp counters = true
    · obtain rfl | hrest := List.mem_cons.1 hc
      · exact hd
      · rw [hd] at hout
        simp only [Bool.not_true, Bool.false_eq_true, if_false] at hout
        split at hout
        · exact ih hrest hout
        · exact ih hrest fun hmem ↦ hout (List.mem_cons_of_mem d hmem)
    · rw [Bool.not_eq_true] at hd
      rw [hd] at hout
      simp only [Bool.not_false, if_true, List.mem_cons, not_or] at hout
      exact ih ((List.mem_cons.1 hc).resolve_left hout.1) hout.2

end UploadRing

end Mtld3d
