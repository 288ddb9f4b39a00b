import Mtld3d.VertexBuffer
import Mtld3d.Lib.Run
import Mathlib.Algebra.Ring.Nat
import Mathlib.Order.Nat

namespace Mtld3d

open Lib DirtyRange VertexBuffer BufferBacking

variable {β : Type}

/-- An upload with the state of the backing it was taken from and the bytes announced by then. -/
structure VertexUpload (β : Type) where
  bytes : Patch β
  state : BackingState
  announced : ℕ → Bool

/-- A staged vertex buffer, its device buffer and what the application did to it: the last value
written to each byte, the bytes announced since the backing was re-created, those of the locks now
out, and those the application still has to write. -/
structure VertexSystem (β : Type) where
  vb : VertexBuffer β
  device : ℕ → β
  last : ℕ → β
  announced : ℕ → Bool
  window : ℕ → Bool
  owed : ℕ → Bool
  uploads : List (VertexUpload β)

inductive VertexAction (β : Type)
  | lock (offsetToLock sizeToLock flags : ℕ)
  | write (p : ℕ) (v : β)
  | unlock
  | draw
  | process (bytes : Patch β)

namespace VertexSystem

def kept (s : VertexSystem β) (p : ℕ) : Bool := !s.vb.backing.isReleased && s.announced p

def lockWindow (s : VertexSystem β) (offsetToLock sizeToLock flags p : ℕ) : Bool :=
  recordsDirtyRange flags s.vb.pool && decide (InWindow offsetToLock sizeToLock s.vb.length p)

def deliver (s : VertexSystem β) (state : BackingState) : Option (Patch β) → VertexSystem β
  | none => s
  | some u => { s with device := u.apply s.device, uploads := s.uploads ++ [⟨u, state, s.announced⟩] }

/-- The application locks without `D3DLOCK_DISCARD`, writes only inside the windows of the locks
that are out, and has written all of them when the last lock ends. -/
def Enabled (s : VertexSystem β) : VertexAction β → Prop
  | .lock _ _ flags => flags &&& d3dLockDiscard = 0
  | .write p _ => s.window p = true
  | .unlock => s.vb.lockCount ≤ 1 → ∀ p, s.owed p = false
  | .draw | .process _ => True

def SpanAnnounced (s : VertexSystem β) : VertexAction β → Prop
  | .lock offsetToLock sizeToLock flags => s.vb.lockCount < u32Max ∧
      (s.vb.backing.state = .partialCopy → ∀ p, (s.vb.lockDirty offsetToLock sizeToLock flags).Contains p →
        s.announced p = true ∨ InWindow offsetToLock sizeToLock s.vb.length p)
  | _ => True

def Valid (s : VertexSystem β) (p : ℕ) : Prop := s.vb.backing.state = .mirrors ∨ s.announced p = true

structure Inv (s : VertexSystem β) : Prop where
  padded : s.vb.length ≤ s.vb.backing.paddedLen
  logical : s.vb.backing.logicalLen = s.vb.length
  released : s.vb.backing.state = .released ↔ s.vb.backing.pageBox = none
  idle : s.vb.backing.state = .released → ∀ p, ¬ s.vb.dirty.Contains p
  inside : ∀ p, s.vb.dirty.Contains p → p < s.vb.length
  sync : ∀ p < s.vb.length, ¬ s.vb.dirty.Contains p → s.device p = s.last p
  valid : ∀ p, s.vb.dirty.Contains p → s.Valid p
  held : ∀ page, s.vb.backing.pageBox = some page → ∀ p < s.vb.length, s.Valid p → s.owed p = false →
    page p = s.last p
  window : ∀ p, s.window p = true → s.vb.dirty.Contains p ∧ s.vb.lockCount ≠ 0
  owed : ∀ p, s.owed p = true → s.window p = true
  uploads : ∀ u ∈ s.uploads, u.state = .partialCopy → ∀ p, u.bytes.Covers p → u.announced p = true

section Span

variable {s : VertexSystem β} {lo hi p : ℕ}

theorem Inv.snapshot_span (h : Inv s) (hspan : s.vb.dirty.span = some (lo, hi)) :
    ∃ page, s.vb.backing.pageBox = some page ∧
      s.vb.backing.snapshot lo hi = some ⟨lo, hi - lo, fun i ↦ page (lo + i)⟩ := by
  obtain ⟨-, -, hlt⟩ := span_eq_some hspan
  have hlo : s.vb.dirty.Contains lo := (contains_of_span hspan lo).mpr ⟨le_rfl, hlt⟩
  have hne : s.vb.backing.pageBox ≠ none := fun hn ↦ h.idle (h.released.mpr hn) lo hlo
  obtain ⟨page, hpage⟩ := Option.ne_none_iff_exists'.mp hne
  refine ⟨page, hpage, ?_⟩
  have hptr : lo ≤ s.vb.backing.paddedLen := ((h.inside lo hlo).trans_le h.padded).le
  simp [snapshot, hasPtrAt, hpage, hptr]

theorem covers_span (hspan : s.vb.dirty.span = some (lo, hi)) (f : ℕ → β) :
    (Patch.mk lo (hi - lo) f).Covers p ↔ s.vb.dirty.Contains p := by
  obtain ⟨-, -, hlt⟩ := span_eq_some hspan
  rw [contains_of_span hspan]
  simp only [Patch.Covers]
  omega

theorem apply_span_of_contains (hspan : s.vb.dirty.span = some (lo, hi)) (page f : ℕ → β)
    (hp : s.vb.dirty.Contains p) : (Patch.mk lo (hi - lo) fun i ↦ page (lo + i)).apply f p = page p := by
  have hc := (covers_span hspan fun i ↦ page (lo + i)).mpr hp
  rw [Patch.apply_of_covers hc]
  exact congrArg page (Nat.add_sub_cancel' hc.1)

theorem apply_span_of_not_contains (hspan : s.vb.dirty.span = some (lo, hi)) (page f : ℕ → β)
    (hp : ¬ s.vb.dirty.Contains p) : (Patch.mk lo (hi - lo) fun i ↦ page (lo + i)).apply f p = f p :=
  Patch.apply_of_not_covers (fun hc ↦ hp ((covers_span hspan _).mp hc)) f

end Span

end VertexSystem


namespace VertexSystem

variable {s : VertexSystem β}

variable {p : ℕ}

theorem Inv.valid_noteUpload (h : Inv s) {lo hi : ℕ} (hspan : s.vb.dirty.span = some (lo, hi))
    (hp : p < s.vb.length)
    (hv : (s.vb.backing.noteUpload lo hi).state = .mirrors ∨ s.announced p = true) : s.Valid p := by
  obtain hstate | ⟨-, -, hlo, hhi⟩ := s.vb.backing.noteUpload_state lo hi
  · rw [hstate] at hv
    exact hv
  · refine h.valid p ((contains_of_span hspan p).mpr ⟨by omega, ?_⟩)
    rw [h.logical] at hhi
    omega

theorem Inv.uploads_span (h : Inv s) {lo hi : ℕ} (hspan : s.vb.dirty.span = some (lo, hi)) (page : ℕ → β) :
    ∀ u ∈ s.uploads ++ [⟨⟨lo, hi - lo, fun i ↦ page (lo + i)⟩, s.vb.backing.state, s.announced⟩],
      u.state = .partialCopy → ∀ p, u.bytes.Covers p → u.announced p = true := by
  intro u hu hstate p hc
  obtain hu | hu := List.mem_append.mp hu
  · exact h.uploads u hu hstate p hc
  · obtain rfl := List.mem_singleton.mp hu
    obtain hv | hv := h.valid p ((covers_span hspan _).mp hc)
    · simp only at hstate
      rw [hv] at hstate
      exact BackingState.noConfusion hstate
    · exact hv

/-- The buffer with no lock out and every announced byte written, before its span is published. -/
theorem Inv.publish (h : Inv s) (hall : ∀ p, s.owed p = false) {n : ℕ} (hn : n = 0) :
    let r := publish { s.vb with lockCount := n }
    Inv { s.deliver s.vb.backing.state r.2 with
        vb := r.1, window := fun p ↦ decide (r.1.lockCount ≠ 0) && s.window p } ∧
      r.1.lockCount = 0 ∧ ∀ p, ¬ r.1.dirty.Contains p := by
  subst hn
  intro r
  cases hspan : s.vb.dirty.span with
  | none =>
    have hr : r = ({ s.vb with lockCount := 0 }, none) := by
      simp [r, VertexBuffer.publish, hspan]
    have hclean := not_contains_of_span_none hspan
    rw [hr]
    refine ⟨⟨h.padded, h.logical, h.released, h.idle, h.inside, h.sync, h.valid, h.held, ?_, ?_, h.uploads⟩,
      rfl, hclean⟩
    · intro p hp
      simp at hp
    · intro p hp
      have := hall p
      simp_all [deliver]
  | some span =>
    obtain ⟨lo, hi⟩ := span
    obtain ⟨page, hpage, hsnap⟩ := h.snapshot_span hspan
    have hupload : r.2 = some ⟨lo, hi - lo, fun i ↦ page (lo + i)⟩ := by
      simp [r, VertexBuffer.publish, hspan, hsnap]
    have hvb : r.1 = releaseBackingAfterUpload
        { s.vb with lockCount := 0, backing := s.vb.backing.noteUpload lo hi, dirty := s.vb.dirty.clear } := by
      simp [r, VertexBuffer.publish, hspan, hsnap]
    have hempty (p : ℕ) : ¬ s.vb.dirty.clear.Contains p := by
      simp [DirtyRange.clear, Contains]
    have hsync (p : ℕ) (hp : p < s.vb.length) :
        (Patch.mk lo (hi - lo) fun i ↦ page (lo + i)).apply s.device p = s.last p := by
      by_cases hc : s.vb.dirty.Contains p
      · rw [apply_span_of_contains hspan page s.device hc]
        exact h.held page hpage p hp (h.valid p hc) (hall p)
      · rw [apply_span_of_not_contains hspan page s.device hc]
        exact h.sync p hp hc
    have huploads := h.uploads_span hspan page
    rw [hupload, hvb]
    unfold releaseBackingAfterUpload
    split_ifs with hkeep
    · refine ⟨⟨?_, ?_, ?_, fun _ ↦ hempty, fun p hp ↦ absurd hp (hempty p), fun p hp _ ↦ hsync p hp,
        fun p hp ↦ absurd hp (hempty p), ?_, fun p hp ↦ by simp at hp, ?_, huploads⟩, rfl, hempty⟩
      · simpa using h.padded
      · simpa using h.logical
      · simpa [noteUpload_released] using h.released
      · intro page' hpage' p hp hv ho
        exact h.held page' ((noteUpload_pageBox _ _ _).symm.trans hpage') p hp
          (h.valid_noteUpload hspan hp hv) ho
      · intro p hp
        have := hall p
        simp_all [deliver]
    · have hrel : (s.vb.backing.noteUpload lo hi).release =
          { s.vb.backing.noteUpload lo hi with pageBox := none, state := .released } := by
        simp [release, hpage]
      rw [hrel]
      refine ⟨⟨?_, ?_, by simp, fun _ ↦ hempty, fun p hp ↦ absurd hp (hempty p), fun p hp _ ↦ hsync p hp,
        fun p hp ↦ absurd hp (hempty p), fun page' hpage' ↦ by simp at hpage', fun p hp ↦ by simp at hp, ?_,
        huploads⟩, rfl, hempty⟩
      · simpa using h.padded
      · simpa using h.logical
      · intro p hp
        have := hall p
        simp_all [deliver]

variable [Zero β]

def start (length paddedLen usage pool : ℕ) (ignoreLockBounds : Bool) (device : ℕ → β) : VertexSystem β where
  vb := VertexBuffer.create length paddedLen usage pool ignoreLockBounds
  device := device
  last := fun _ ↦ 0
  announced := fun _ ↦ false
  window := fun _ ↦ false
  owed := fun _ ↦ false
  uploads := []

def act (s : VertexSystem β) : VertexAction β → VertexSystem β
  | .lock offsetToLock sizeToLock flags =>
    let (vb, ok) := s.vb.vbLock offsetToLock sizeToLock flags
    if ok then
      let mark := s.lockWindow offsetToLock sizeToLock flags
      { s with
        vb := vb
        announced := fun p ↦ s.kept p || mark p
        window := fun p ↦ s.window p || mark p
        owed := fun p ↦ s.owed p || mark p }
    else { s with vb := vb }
  | .write p v =>
    { s with
      vb := { s.vb with backing := { s.vb.backing with
        pageBox := s.vb.backing.pageBox.map fun page ↦ Function.update page p v } }
      last := Function.update s.last p v
      owed := Function.update s.owed p false }
  | .unlock =>
    let (vb, upload) := s.vb.vbUnlock
    { s.deliver s.vb.backing.state upload with
      vb := vb, window := fun p ↦ decide (vb.lockCount ≠ 0) && s.window p }
  | .draw =>
    let (vb, upload) := s.vb.flushStagedIfMapped
    { s.deliver s.vb.backing.state upload with vb := vb }
  | .process bytes =>
    let clipped := s.vb.clipProcessed bytes
    let (vb, upload) := s.vb.writeProcessed bytes
    { deliver { s with announced := fun p ↦ s.kept p || decide (clipped.Covers p) }
        s.vb.restoreBacking.backing.state upload with
      vb := vb, last := clipped.apply s.last }

def Step (s t : VertexSystem β) : Prop := ∃ a, s.Enabled a ∧ t = s.act a

def SafeStep (s t : VertexSystem β) : Prop := ∃ a, s.Enabled a ∧ s.SpanAnnounced a ∧ t = s.act a

theorem inv_start {length paddedLen : ℕ} (h : length ≤ paddedLen) (usage pool : ℕ)
    (ignoreLockBounds : Bool) (device : ℕ → β) :
    Inv (start length paddedLen usage pool ignoreLockBounds device) where
  padded := h
  logical := rfl
  released := by simp [start, VertexBuffer.create]
  idle hs := by simp [start, VertexBuffer.create] at hs
  inside p hp := hp.2
  sync p hp hn := absurd ⟨Nat.zero_le p, hp⟩ hn
  valid p _ := .inl rfl
  held page hpage p _ _ _ := by
    simp only [start, VertexBuffer.create, Option.some.injEq] at hpage
    rw [← hpage]
    rfl
  window p hw := by simp [start] at hw
  owed p ho := by simp [start] at ho
  uploads := by simp [start]

theorem Inv.draw (h : Inv s) : Inv (s.act .draw) := by
  by_cases hl : s.vb.lockCount = 0
  · have hact : s.act .draw = s := by
      simp [act, flushStagedIfMapped, hl, deliver]
    rw [hact]
    exact h
  · cases hspan : s.vb.dirty.span with
    | none =>
      have hact : s.act .draw = s := by
        simp [act, flushStagedIfMapped, hl, flushMappedDirtySpan, hspan, deliver]
      rw [hact]
      exact h
    | some r =>
      obtain ⟨lo, hi⟩ := r
      obtain ⟨page, hpage, hsnap⟩ := h.snapshot_span hspan
      have hact : s.act .draw =
          { s with
            vb := { s.vb with backing := s.vb.backing.noteUpload lo hi }
            device := (Patch.mk lo (hi - lo) fun i ↦ page (lo + i)).apply s.device
            uploads := s.uploads ++ [⟨⟨lo, hi - lo, fun i ↦ page (lo + i)⟩, s.vb.backing.state, s.announced⟩] } := by
        simp [act, flushStagedIfMapped, hl, flushMappedDirtySpan, hspan, hsnap,
          deliver]
      rw [hact]
      refine ⟨?_, ?_, ?_, ?_, h.inside, ?_, ?_, ?_, h.window, h.owed, ?_⟩
      · simpa using h.padded
      · simpa using h.logical
      · simpa [noteUpload_released] using h.released
      · intro hs
        exact h.idle ((noteUpload_released _ _ _).mp hs)
      · intro p hp hn
        exact (apply_span_of_not_contains hspan page s.device hn).trans (h.sync p hp hn)
      · intro p hp
        obtain hstate | ⟨hm, -⟩ := s.vb.backing.noteUpload_state lo hi
        · obtain hv | hv := h.valid p hp
          · exact .inl (hstate.trans hv)
          · exact .inr hv
        · exact .inl hm
      · intro page' hpage' p hp hv ho
        exact h.held page' ((noteUpload_pageBox _ _ _).symm.trans hpage') p hp
          (h.valid_noteUpload hspan hp hv) ho
      · exact h.uploads_span hspan page

theorem Inv.write (h : Inv s) (v : β) (hw : s.window p = true) : Inv (s.act (.write p v)) := by
  refine ⟨h.padded, h.logical, ?_, h.idle, h.inside, ?_, h.valid, ?_, h.window, ?_, h.uploads⟩
  · simpa [act] using h.released
  · intro q hq hn
    have hne : q ≠ p := by
      rintro rfl
      exact hn (h.window q hw).1
    have hlast : (s.act (.write p v)).last q = s.last q := Function.update_of_ne hne _ _
    exact (h.sync q hq hn).trans hlast.symm
  · intro page' hpage q hq hv ho
    obtain ⟨page, hbox, rfl⟩ := Option.map_eq_some_iff.mp hpage
    by_cases hqp : q = p
    · subst hqp
      simp [act]
    · have ho' : s.owed q = false := by simpa [act, hqp] using ho
      simpa [act, hqp] using h.held page hbox q hq hv ho'
  · intro q hq
    by_cases hqp : q = p
    · subst hqp
      exact hw
    · exact h.owed q (by simpa [act, hqp] using hq)

theorem act_unlock_nested (hl : 1 < s.vb.lockCount) :
    s.act .unlock = { s with vb := { s.vb with lockCount := s.vb.lockCount - 1 } } := by
  have h₀ : s.vb.lockCount ≠ 0 := by omega
  have h₁ : s.vb.lockCount - 1 ≠ 0 := by omega
  simp [act, vbUnlock, h₀, h₁, deliver]

theorem act_unlock_outermost (hl : s.vb.lockCount ≤ 1) :
    let r := publish { s.vb with lockCount := s.vb.lockCount - 1 }
    s.act .unlock = { s.deliver s.vb.backing.state r.2 with
        vb := r.1, window := fun p ↦ decide (r.1.lockCount ≠ 0) && s.window p } := by
  have hun : s.vb.vbUnlock = publish { s.vb with lockCount := s.vb.lockCount - 1 } := by
    unfold vbUnlock
    split_ifs with h₀ h₁
    · have hsame : s.vb.lockCount - 1 = s.vb.lockCount := by omega
      rw [hsame]
    · omega
    · rfl
  simp [act, hun]

theorem Inv.unlock_outermost (h : Inv s) (hl : s.vb.lockCount ≤ 1) (hall : ∀ p, s.owed p = false) :
    Inv (s.act .unlock) ∧ (s.act .unlock).vb.lockCount = 0 ∧ ∀ p, ¬ (s.act .unlock).vb.dirty.Contains p := by
  have hpub := h.publish hall (n := s.vb.lockCount - 1) (by omega)
  rw [act_unlock_outermost hl]
  exact hpub

theorem Inv.unlock (h : Inv s) (he : s.Enabled .unlock) : Inv (s.act .unlock) := by
  by_cases hl : s.vb.lockCount ≤ 1
  · exact (h.unlock_outermost hl (he hl)).1
  · rw [act_unlock_nested (by omega)]
    refine ⟨h.padded, h.logical, h.released, h.idle, h.inside, h.sync, h.valid, h.held, ?_, h.owed, h.uploads⟩
    intro p hp
    refine ⟨(h.window p hp).1, ?_⟩
    simp only
    omega

theorem Inv.restore (h : Inv s) : ∃ page, s.vb.restoreBacking.backing.pageBox = some page ∧
    (s.vb.backing.state = .released ∧ s.vb.restoreBacking.backing.state = .partialCopy ∧ page = (fun _ ↦ 0) ∨
      s.vb.backing.state ≠ .released ∧ s.vb.restoreBacking = s.vb) := by
  by_cases hr : s.vb.backing.state = .released
  · refine ⟨fun _ ↦ 0, ?_, .inl ⟨hr, ?_, rfl⟩⟩ <;>
      simp [restoreBacking, BufferBacking.isReleased, hr, BufferBacking.restore]
  · have hne : s.vb.backing.pageBox ≠ none := fun hn ↦ hr (h.released.mpr hn)
    obtain ⟨page, hpage⟩ := Option.ne_none_iff_exists'.mp hne
    have heq : s.vb.restoreBacking = s.vb := by
      simp [restoreBacking, isReleased, hr]
    exact ⟨page, by rw [heq]; exact hpage, .inr ⟨hr, heq⟩⟩

end VertexSystem

namespace VertexBuffer

variable [Zero β] (vb : VertexBuffer β)

@[simp] theorem restoreBacking_pool : vb.restoreBacking.pool = vb.pool := by
  unfold restoreBacking; split_ifs <;> rfl

@[simp] theorem restoreBacking_dirty : vb.restoreBacking.dirty = vb.dirty := by
  unfold restoreBacking; split_ifs <;> rfl

@[simp] theorem restoreBacking_lockCount : vb.restoreBacking.lockCount = vb.lockCount := by
  unfold restoreBacking; split_ifs <;> rfl

@[simp] theorem restoreBacking_paddedLen : vb.restoreBacking.backing.paddedLen = vb.backing.paddedLen := by
  unfold restoreBacking; split_ifs <;> rfl

@[simp] theorem restoreBacking_logicalLen : vb.restoreBacking.backing.logicalLen = vb.backing.logicalLen := by
  unfold restoreBacking; split_ifs <;> rfl

end VertexBuffer

namespace VertexBuffer

variable (vb : VertexBuffer β) (offsetToLock sizeToLock flags : ℕ)

theorem contains_lockDirty_of_contains (h : vb.dirty.Contains p) :
    (vb.lockDirty offsetToLock sizeToLock flags).Contains p := by
  simp only [lockDirty]
  split_ifs
  · exact h.conjoin _ _ _
  · exact h.conjoin _ _ _
  · exact h

theorem contains_lockDirty_of_window (hrec : recordsDirtyRange flags vb.pool = true)
    (h : InWindow offsetToLock sizeToLock vb.length p) :
    (vb.lockDirty offsetToLock sizeToLock flags).Contains p := by
  simp only [lockDirty, hrec, if_true]
  split_ifs
  · exact contains_conjoin (inWindow_whole.mpr h.lt) _
  · exact contains_conjoin h _

theorem lockDirty_inside (h : ∀ p, vb.dirty.Contains p → p < vb.length)
    (hp : (vb.lockDirty offsetToLock sizeToLock flags).Contains p) : p < vb.length := by
  simp only [lockDirty] at hp
  split_ifs at hp
  · exact lt_of_contains_conjoin h hp
  · exact lt_of_contains_conjoin h hp
  · exact h p hp

theorem lockDirty_of_not_mirrors (hm : vb.backing.state ≠ .mirrors) (hd : flags &&& d3dLockDiscard = 0) :
    vb.lockDirty offsetToLock sizeToLock flags =
      if recordsDirtyRange flags vb.pool then vb.dirty.conjoin offsetToLock sizeToLock vb.length
      else vb.dirty := by
  unfold lockDirty
  simp [mayWidenUpload, hm, hd]

end VertexBuffer

namespace VertexSystem

variable {s : VertexSystem β} [Zero β] {offsetToLock sizeToLock flags : ℕ}

theorem Inv.act_lock (h : Inv s) (ho : offsetToLock ≤ s.vb.length) :
    s.act (.lock offsetToLock sizeToLock flags) =
      { s with
        vb := { s.vb.restoreBacking with
          dirty := s.vb.restoreBacking.lockDirty offsetToLock sizeToLock flags
          lockCount := saturatingAdd s.vb.lockCount 1 }
        announced := fun p ↦ s.kept p || s.lockWindow offsetToLock sizeToLock flags p
        window := fun p ↦ s.window p || s.lockWindow offsetToLock sizeToLock flags p
        owed := fun p ↦ s.owed p || s.lockWindow offsetToLock sizeToLock flags p } := by
  obtain ⟨page, hpage, -⟩ := h.restore
  have hlt : ¬ s.vb.length < offsetToLock := by omega
  have hptr : offsetToLock ≤ s.vb.backing.paddedLen := ho.trans h.padded
  simp [act, vbLock, hlt, hasPtrAt, hpage, hptr]

omit [Zero β] in
theorem lockWindow_eq_true : s.lockWindow offsetToLock sizeToLock flags p = true ↔
    recordsDirtyRange flags s.vb.pool = true ∧ InWindow offsetToLock sizeToLock s.vb.length p := by
  simp [lockWindow]

theorem Inv.lock_valid (h : Inv s) (hd : flags &&& d3dLockDiscard = 0)
    (hs : s.SpanAnnounced (.lock offsetToLock sizeToLock flags))
    (hp : (s.vb.restoreBacking.lockDirty offsetToLock sizeToLock flags).Contains p) :
    s.vb.restoreBacking.backing.state = .mirrors ∨
      (s.kept p || s.lockWindow offsetToLock sizeToLock flags p) = true := by
  obtain ⟨page, -, ⟨hrel, hpart, -⟩ | ⟨hrel, hsame⟩⟩ := h.restore
  · right
    have hclean := h.idle hrel
    rw [lockDirty_of_not_mirrors _ _ _ _ (by rw [hpart]; decide) hd] at hp
    simp only [restoreBacking_pool, restoreBacking_dirty,
      restoreBacking_length] at hp
    split_ifs at hp with hrec
    · have hwin := conjoin_of_forall_not_contains hclean hp
      rw [Bool.or_eq_true]
      exact .inr (lockWindow_eq_true.mpr ⟨hrec, hwin⟩)
    · exact absurd hp (hclean p)
  · rw [hsame] at hp ⊢
    cases hstate : s.vb.backing.state with
    | mirrors => exact .inl rfl
    | released => exact absurd hstate hrel
    | partialCopy =>
      right
      have hkept : s.kept p = s.announced p := by simp [kept, isReleased, hstate]
      rw [Bool.or_eq_true, hkept]
      obtain hann | hwin := hs.2 hstate p hp
      · exact .inl hann
      · rw [lockDirty_of_not_mirrors _ _ _ _ (by rw [hstate]; decide) hd] at hp
        split_ifs at hp with hrec
        · exact .inr (lockWindow_eq_true.mpr ⟨hrec, hwin⟩)
        · obtain hv | hv := h.valid p hp
          · rw [hstate] at hv
            exact BackingState.noConfusion hv
          · exact .inl hv

theorem Inv.lock (h : Inv s) (hd : flags &&& d3dLockDiscard = 0)
    (hs : s.SpanAnnounced (.lock offsetToLock sizeToLock flags)) :
    Inv (s.act (.lock offsetToLock sizeToLock flags)) := by
  by_cases ho : offsetToLock ≤ s.vb.length
  · rw [h.act_lock ho]
    obtain ⟨page, hpage, hcases⟩ := h.restore
    refine ⟨?_, ?_, ?_, ?_, ?_, ?_, ?_, ?_, ?_, ?_, h.uploads⟩
    · simpa using h.padded
    · simpa using h.logical
    · obtain ⟨-, hpart, -⟩ | ⟨-, hsame⟩ := hcases
      · simp [hpart, hpage]
      · simp only [hsame]
        exact h.released
    · intro hrel
      obtain ⟨-, hpart, -⟩ | ⟨hne, hsame⟩ := hcases
      · simp [hpart] at hrel
      · simp only [hsame] at hrel
        exact absurd hrel hne
    · intro p hp
      have hlen := lockDirty_inside _ _ _ _ (by simpa using h.inside) hp
      simpa using hlen
    · intro p hp hn
      refine h.sync p (by simpa using hp) fun hc ↦ hn ?_
      exact contains_lockDirty_of_contains _ _ _ _ (by simpa using hc)
    · intro p hp
      exact h.lock_valid hd hs hp
    · intro page' hpage' p hp hv hown
      simp only [Bool.or_eq_false_iff] at hown
      simp only [restoreBacking_length] at hp
      obtain ⟨hrel, hpart, -⟩ | ⟨hne, hsame⟩ := hcases
      · -- nothing written to the previous backing counts for the new one
        simp only [Valid, hpart, reduceCtorEq, false_or, kept, isReleased, hrel, decide_true,
          Bool.not_true, Bool.false_and, Bool.false_or] at hv
        rw [hown.2] at hv
        exact Bool.noConfusion hv
      · simp only [hsame] at hpage'
        refine h.held page' hpage' p hp ?_ hown.1
        simpa [Valid, hsame, kept, isReleased, hne, hown.2] using hv
    · intro p hp
      rw [Bool.or_eq_true] at hp
      have hcount : saturatingAdd s.vb.lockCount 1 ≠ 0 := by simp [saturatingAdd, u32Max]
      refine ⟨?_, hcount⟩
      obtain hp | hp := hp
      · exact contains_lockDirty_of_contains _ _ _ _ (by simpa using (h.window p hp).1)
      · obtain ⟨hrec, hwin⟩ := lockWindow_eq_true.mp hp
        exact contains_lockDirty_of_window _ _ _ _ (by simpa using hrec) (by simpa using hwin)
    · intro p hp
      simp only [Bool.or_eq_true] at hp ⊢
      exact hp.imp_left (h.owed p)
  · have hact : s.act (.lock offsetToLock sizeToLock flags) = s := by
      simp [act, vbLock, Nat.lt_of_not_le ho]
    rw [hact]
    exact h

theorem Inv.restored (h : Inv s) : Inv { s with vb := s.vb.restoreBacking, announced := s.kept } := by
  obtain ⟨page, hpage, ⟨hrel, hpart, -⟩ | ⟨hne, hsame⟩⟩ := h.restore
  · have hclean := h.idle hrel
    have hkept (p : ℕ) : s.kept p = false := by simp [kept, isReleased, hrel]
    refine ⟨?_, ?_, ?_, ?_, ?_, ?_, ?_, ?_, ?_, h.owed, h.uploads⟩
    · simpa using h.padded
    · simpa using h.logical
    · simp [hpart, hpage]
    · simp [hpart]
    · simpa using h.inside
    · simpa using h.sync
    · intro p hp
      exact absurd (by simpa using hp) (hclean p)
    · intro _ _ p _ hv
      simp [Valid, hpart, hkept] at hv
    · simpa using h.window
  · have hkept : s.kept = s.announced := by
      funext p
      simp [kept, isReleased, hne]
    rw [hsame, hkept]
    exact h

/-- Processed vertices reach the backing and the device buffer together. -/
theorem Inv.process (h : Inv s) (bytes : Patch β) : Inv (s.act (.process bytes)) := by
  obtain ⟨page, hpage, -⟩ := h.restore
  have hr := h.restored
  set clip := s.vb.clipProcessed bytes with hclip
  by_cases hsize : clip.size = 0
  · have hcov (p : ℕ) : ¬ clip.Covers p := by
      simp only [Patch.Covers, hsize]
      omega
    have hlast : clip.apply s.last = s.last := funext fun p ↦ Patch.apply_of_not_covers (hcov p) _
    have hact : s.act (.process bytes) = { s with vb := s.vb.restoreBacking, announced := s.kept } := by
      simp [act, writeProcessed, ← hclip, hsize, deliver, hcov, hlast]
    rw [hact]
    exact hr
  · have hfit : clip.offset + clip.size ≤ s.vb.backing.paddedLen := by
      simp only [hclip, clipProcessed, hpage] at hsize ⊢
      simp at hsize ⊢
      omega
    set fin := clip.offset + clip.size with hfin
    set box : BufferBacking β := { s.vb.restoreBacking.backing with pageBox := some (clip.apply page) } with hbox
    have hsnap : box.snapshot clip.offset fin =
        some ⟨clip.offset, clip.size, fun i ↦ clip.apply page (clip.offset + i)⟩ := by
      have hptr : clip.offset ≤ s.vb.backing.paddedLen := by omega
      simp [snapshot, hasPtrAt, hbox, hptr, hfin]
    have hwrite : s.vb.writeProcessed bytes =
        ({ s.vb.restoreBacking with backing := box.noteUpload clip.offset fin },
          some ⟨clip.offset, clip.size, fun i ↦ clip.apply page (clip.offset + i)⟩) := by
      simp only [writeProcessed, ← hclip, if_neg hsize, hpage, Option.map_some]
      rw [← hfin, hsnap]
    have hact : s.act (.process bytes) =
        { s with
          vb := { s.vb.restoreBacking with backing := box.noteUpload clip.offset fin }
          announced := fun p ↦ s.kept p || decide (clip.Covers p)
          device := clip.apply s.device
          last := clip.apply s.last
          uploads := s.uploads ++ [⟨⟨clip.offset, clip.size, fun i ↦ clip.apply page (clip.offset + i)⟩,
            s.vb.restoreBacking.backing.state, fun p ↦ s.kept p || decide (clip.Covers p)⟩] } := by
      simp [act, hwrite, deliver, ← hclip, Patch.apply_read_back]
    rw [hact]
    refine ⟨?_, ?_, ?_, ?_, hr.inside, ?_, ?_, ?_, hr.window, h.owed, ?_⟩
    · simpa [hbox] using h.padded
    · simpa [hbox] using h.logical
    · have := hr.released
      simp only [hpage, reduceCtorEq, iff_false] at this
      simp [noteUpload_released, hbox, this]
    · intro hrel
      exact hr.idle ((noteUpload_released box _ _).mp hrel)
    · intro p hp hn
      by_cases hc : clip.Covers p
      · exact (Patch.apply_of_covers hc s.device).trans (Patch.apply_of_covers hc s.last).symm
      · have hsync := hr.sync p hp hn
        exact (Patch.apply_of_not_covers hc s.device).trans
          (hsync.trans (Patch.apply_of_not_covers hc s.last).symm)
    · intro p hp
      obtain hv | hv := hr.valid p hp
      · left
        obtain hstate | ⟨hm, -⟩ := box.noteUpload_state clip.offset fin
        · exact hstate.trans hv
        · exact hm
      · right
        simp only at hv
        simp [hv]
    · intro page' hpage' p hp hv ho
      obtain rfl : clip.apply page = page' :=
        Option.some.inj ((noteUpload_pageBox box _ _).symm.trans hpage')
      by_cases hc : clip.Covers p
      · exact (Patch.apply_of_covers hc page).trans (Patch.apply_of_covers hc s.last).symm
      · refine (Patch.apply_of_not_covers hc page).trans
          ((hr.held page hpage p hp ?_ ho).trans (Patch.apply_of_not_covers hc s.last).symm)
        obtain hstate | ⟨-, -, hlo, hhi⟩ := box.noteUpload_state clip.offset fin
        · simpa [Valid, hstate, hc] using hv
        · -- a span that completes the backing covers every byte of the buffer
          refine absurd ⟨by omega, ?_⟩ hc
          have hlog : s.vb.length ≤ fin := by
            rw [← h.logical]
            simpa [hbox] using hhi
          simp only [restoreBacking_length] at hp
          omega
    · intro u hu hstate p hc
      obtain hu | hu := List.mem_append.mp hu
      · exact h.uploads u hu hstate p hc
      · obtain rfl := List.mem_singleton.mp hu
        have hc' : clip.Covers p := hc
        simp [hc']

@[simp] theorem act_length (s : VertexSystem β) (a : VertexAction β) : (s.act a).vb.length = s.vb.length := by
  cases a with
  | lock offsetToLock sizeToLock flags =>
    have hvb : (s.act (.lock offsetToLock sizeToLock flags)).vb =
        (s.vb.vbLock offsetToLock sizeToLock flags).1 := by
      simp only [act]
      split_ifs <;> rfl
    rw [hvb]
    exact s.vb.vbLock_length offsetToLock sizeToLock flags
  | write p v => rfl
  | unlock => exact s.vb.vbUnlock_length
  | draw => exact s.vb.flushStagedIfMapped_length
  | process bytes => exact s.vb.writeProcessed_length bytes

theorem Inv.step {t : VertexSystem β} (h : Inv s) (hst : SafeStep s t) : Inv t := by
  obtain ⟨a, he, hs, rfl⟩ := hst
  cases a with
  | lock offsetToLock sizeToLock flags => exact h.lock he hs
  | write p v => exact h.write v he
  | unlock => exact h.unlock he
  | draw => exact h.draw
  | process bytes => exact h.process bytes

section Runs

variable {length paddedLen : ℕ} (hlen : length ≤ paddedLen) (usage pool : ℕ) (ignoreLockBounds : Bool)
  (device : ℕ → β)

include hlen in
theorem inv_of_run
    (h : Relation.ReflTransGen SafeStep (start length paddedLen usage pool ignoreLockBounds device) s) :
    Inv s := by
  induction h with
  | refl => exact inv_start hlen usage pool ignoreLockBounds device
  | tail _ hst ih => exact ih.step hst

theorem length_of_run
    (h : Relation.ReflTransGen SafeStep (start length paddedLen usage pool ignoreLockBounds device) s) :
    s.vb.length = length := by
  induction h with
  | refl => rfl
  | tail _ hst ih =>
    obtain ⟨a, -, -, rfl⟩ := hst
    rw [act_length, ih]

include hlen in
/-- In every run whose locks keep the span of a re-created backing within the announced bytes, the
outermost unlock leaves the device buffer holding the last value written to every byte, and no upload
from a re-created backing carries a byte it was not told about. -/
theorem unlock_publishes_last_written
    (h : Relation.ReflTransGen SafeStep (start length paddedLen usage pool ignoreLockBounds device) s) :
    (s.vb.lockCount ≤ 1 → s.Enabled .unlock →
      (s.act .unlock).vb.lockCount = 0 ∧ ∀ p < length, (s.act .unlock).device p = (s.act .unlock).last p) ∧
    ∀ u ∈ s.uploads, u.state = .partialCopy → ∀ p, u.bytes.Covers p → u.announced p = true := by
  have hinv := inv_of_run hlen usage pool ignoreLockBounds device h
  refine ⟨fun hl he ↦ ?_, hinv.uploads⟩
  obtain ⟨hinv', hcount, hclean⟩ := hinv.unlock_outermost hl (he hl)
  refine ⟨hcount, fun p hp ↦ hinv'.sync p ?_ (hclean p)⟩
  rwa [act_length, length_of_run usage pool ignoreLockBounds device h]

end Runs

def fourBytes : VertexSystem ℕ := start 4 16384 d3dUsageWriteOnly d3dPoolDefault false fun _ ↦ 0

def distantWindows : List (VertexAction ℕ) :=
  [.lock 0 4 0, .write 0 1, .write 1 1, .write 2 1, .write 3 1, .unlock,
    .lock 0 1 0, .lock 3 1 0, .write 0 2, .write 3 2, .unlock]

theorem distantWindows_admissible : Admissible Enabled act fourBytes distantWindows := by
  refine ⟨rfl, rfl, rfl, rfl, rfl, fun _ p ↦ ?_, rfl, rfl, rfl, rfl, fun h ↦ absurd h (by decide), trivial⟩
  obtain _ | _ | _ | _ | p := p
  · rfl
  · rfl
  · rfl
  · rfl
  · rfl

/-- The span conjoined from the two windows covers the bytes between them, which the re-created
backing does not hold: the unlock publishes its zeros over them. -/
theorem distant_windows_clobber_gap :
    ∃ s : VertexSystem ℕ, Relation.ReflTransGen Step fourBytes s ∧ s.vb.lockCount ≤ 1 ∧ s.Enabled .unlock ∧
      (s.act .unlock).last 1 = 1 ∧ (s.act .unlock).device 1 = 0 ∧
      ∃ u ∈ (s.act .unlock).uploads, u.state = .partialCopy ∧ u.bytes.Covers 1 ∧ u.announced 1 = false := by
  refine ⟨_, distantWindows_admissible.reaches, by decide, fun _ p ↦ ?_, rfl, rfl,
    ⟨⟨0, 4, _⟩, .partialCopy, _⟩, List.mem_append_right _ (List.mem_singleton_self _), rfl, by decide, rfl⟩
  obtain _ | _ | _ | _ | p := p <;> rfl

def overlappingWindows : List (VertexAction ℕ) :=
  [.lock 0 4 0, .write 0 1, .write 1 1, .write 2 1, .write 3 1, .unlock,
    .lock 0 2 0, .lock 1 2 0, .write 0 2, .write 1 2, .write 2 2, .unlock]

theorem overlappingWindows_admissible :
    Admissible (fun s a ↦ s.Enabled a ∧ s.SpanAnnounced a) act fourBytes overlappingWindows := by
  refine ⟨⟨rfl, by decide, fun h ↦ absurd h (by decide)⟩, ⟨rfl, trivial⟩, ⟨rfl, trivial⟩, ⟨rfl, trivial⟩,
    ⟨rfl, trivial⟩, ⟨fun _ p ↦ ?_, trivial⟩, ⟨rfl, by decide, fun h ↦ absurd h (by decide)⟩,
    ⟨rfl, by decide, fun _ p hp ↦ ?_⟩, ⟨rfl, trivial⟩, ⟨rfl, trivial⟩, ⟨rfl, trivial⟩,
    ⟨fun h ↦ absurd h (by decide), trivial⟩, trivial⟩
  · obtain _ | _ | _ | _ | p := p <;> rfl
  · obtain _ | _ | _ | p := p
    · exact .inl rfl
    · exact .inl rfl
    · exact .inr (by decide)
    · have hlt : p + 3 < 3 := hp.2
      omega

theorem unlock_publishes_overlapping_windows :
    ∃ s : VertexSystem ℕ, s = overlappingWindows.foldl act fourBytes ∧ s.vb.lockCount = 1 ∧
      ((s.act .unlock).vb.lockCount = 0 ∧ ∀ p < 4, (s.act .unlock).device p = (s.act .unlock).last p) := by
  have hrun : Relation.ReflTransGen SafeStep fourBytes (overlappingWindows.foldl act fourBytes) :=
    Relation.ReflTransGen.mono (fun _ _ ⟨a, ha, ht⟩ ↦ ⟨a, ha.1, ha.2, ht⟩) _ _ overlappingWindows_admissible.reaches
  refine ⟨_, rfl, rfl, (unlock_publishes_last_written (by decide) _ _ _ _ hrun).1 (by decide) fun _ p ↦ ?_⟩
  obtain _ | _ | _ | _ | p := p <;> rfl

end VertexSystem

end Mtld3d
