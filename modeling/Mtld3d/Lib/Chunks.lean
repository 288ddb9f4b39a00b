import Mtld3d.Lib.Bytes

namespace Mtld3d.Lib

variable {β : Type}

structure Slice (β : Type) where
  chunk : ℕ
  offset : ℕ
  bytes : List β

namespace Slice

def stop (s : Slice β) : ℕ := s.offset + s.bytes.length

def Apart (s t : Slice β) : Prop := s.chunk = t.chunk → s.stop ≤ t.offset ∨ t.stop ≤ s.offset

end Slice

def writeChunk (memory : ℕ → ℕ → β) (chunk offset : ℕ) (bytes : List β) : ℕ → ℕ → β :=
  Function.update memory chunk (writeRange (memory chunk) offset bytes)

/-- The slices still hold the bytes they were handed out with, and share none of them. -/
structure Intact (memory : ℕ → ℕ → β) (slices : List (Slice β)) : Prop where
  held : ∀ s ∈ slices, readRange (memory s.chunk) s.offset s.bytes.length = s.bytes
  apart : slices.Pairwise Slice.Apart

variable {memory : ℕ → ℕ → β} {slices slices' : List (Slice β)} {chunk offset : ℕ} {bytes : List β}

theorem Intact.nil (memory : ℕ → ℕ → β) : Intact memory [] := ⟨fun _ hs ↦ absurd hs List.not_mem_nil, .nil⟩

theorem Intact.sublist (h : Intact memory slices) (hsub : slices'.Sublist slices) : Intact memory slices' :=
  ⟨fun s hs ↦ h.held s (hsub.subset hs), h.apart.sublist hsub⟩

theorem Intact.write (h : Intact memory slices) (hbelow : ∀ s ∈ slices, s.chunk = chunk → s.stop ≤ offset)
    (bytes : List β) : Intact (writeChunk memory chunk offset bytes) slices := by
  refine ⟨fun s hs ↦ ?_, h.apart⟩
  by_cases hchunk : s.chunk = chunk
  · have hstop := hbelow s hs hchunk
    rw [writeChunk, hchunk, Function.update_self,
      readRange_writeRange_outside _ (.inl hstop), ← hchunk, h.held s hs]
  · rw [writeChunk, Function.update_of_ne hchunk, h.held s hs]

theorem Intact.push (h : Intact memory slices) (hbelow : ∀ s ∈ slices, s.chunk = chunk → s.stop ≤ offset)
    (bytes : List β) : Intact (writeChunk memory chunk offset bytes) (⟨chunk, offset, bytes⟩ :: slices) := by
  have hkept := h.write hbelow bytes
  refine ⟨List.forall_mem_cons.2 ⟨?_, hkept.held⟩, List.pairwise_cons.2 ⟨fun s hs hchunk ↦ ?_, h.apart⟩⟩
  · rw [writeChunk, Function.update_self, readRange_writeRange]
  · exact .inr (hbelow s hs hchunk.symm)

end Mtld3d.Lib
