import Mathlib.Order.Bounds.Basic
import Mtld3d.ClearHistoryRuns
import Mtld3d.Lib.Run

namespace Mtld3d

open Lib List

inductive BackbufferContents
  | undefined | preserved
  deriving DecidableEq, Repr

/-- The part of the pass state the marking reads: the recorded passes, the texture binds recorded with them, and
the frame's back buffer. -/
structure PassReads where
  passes : List Pass
  uploadPassEnd : ℕ
  reads : List (ℕ × Handle)
  backbufferTexture : Handle
  backbufferContents : BackbufferContents

def Pass.extraColor (pass : Pass) : List PassColorAttachment := (List.finRange 4).tail.map pass.color

namespace PassReads

variable (p : PassReads)

def passOfRead (index : ℕ) : Option Pass := p.passes[p.uploadPassEnd + index]?

def isDiscardedBackBuffer (texture : Handle) : Bool :=
  decide (texture ≠ 0) && decide (texture = p.backbufferTexture) && decide (p.backbufferContents = .undefined)

/-- Whether a colour target is rebuilt every frame, when the textures of `feeds` are read into kept content. -/
def colorRebuilt (history : ClearHistory) (feeds : Handle → Bool) (a : PassColorAttachment) : Bool :=
  (p.isDiscardedBackBuffer a.texture || history.regenerated a.texture (a.slice ||| a.level <<< 16) .color) &&
    !feeds a.texture

/-- `pass_is_kept`, with the textures marked as feeding kept content given apart. -/
def passIsKeptUnder (history : ClearHistory) (feeds : Handle → Bool) (index : ℕ) : Bool :=
  match p.passOfRead index with
  | none => true
  | some pass =>
    let rt0 := pass.color Pass.rt0
    if rt0.isBound && !p.colorRebuilt history feeds rt0 then true
    else
      let extraKept := (pass.extraColor.filter PassColorAttachment.isBound).any
        fun a ↦ !p.colorRebuilt history feeds a
      let depth := pass.depthTexture
      let depthRebuilt := depth == 0 || (history.regenerated depth pass.depthLevel .depth && !feeds depth)
      let stencilRebuilt := depth == 0 || !pass.depthFlags.stencilWritten ||
        (history.regenerated depth pass.depthLevel .stencil && !feeds depth)
      extraKept || !depthRebuilt || !stencilRebuilt

def passIsKept (history : ClearHistory) (index : ℕ) : Bool :=
  p.passIsKeptUnder history history.feedsPersistent index

/-- Where a walk over the reads stands: the history, whether it marked something new, and the last verdict. -/
structure Walk where
  history : ClearHistory
  marked : Bool
  verdict : Option (ℕ × Bool)

def judge (w : Walk) (pass : ℕ) : Bool :=
  match w.verdict with
  | none => p.passIsKept w.history pass
  | some (judged, kept) => if judged = pass then kept else p.passIsKept w.history pass

def visit (w : Walk) (read : ℕ × Handle) : Walk :=
  if w.history.tracks read.2 then
    let kept := p.judge w read.1
    if kept then
      let mark := w.history.markFeedsPersistent read.2
      ⟨mark.1, w.marked || mark.2, some (read.1, kept)⟩
    else { w with verdict := some (read.1, kept) }
  else w

def markRound (history : ClearHistory) : ClearHistory × Bool :=
  let w := p.reads.foldl p.visit ⟨history, false, none⟩
  (w.history, w.marked)

def markKeptReads (history : ClearHistory) : ClearHistory :=
  if p.reads.isEmpty || history.isEmpty then history
  else rounds p.markRound (p.reads.length + 1) history

def ClosedMarks (history : ClearHistory) : Set (Handle → Bool) :=
  {feeds | history.feedsPersistent ≤ feeds ∧
    ∀ read ∈ p.reads, history.tracks read.2 = true → p.passIsKeptUnder history feeds read.1 = true →
      feeds read.2 = true}

variable {p} {history other : ClearHistory} {feeds wider : Handle → Bool}

theorem colorRebuilt_anti (h : feeds ≤ wider) {a : PassColorAttachment}
    (ha : p.colorRebuilt history wider a = true) : p.colorRebuilt history feeds a = true := by
  rw [colorRebuilt, Bool.and_eq_true, Bool.not_eq_true'] at ha ⊢
  refine ⟨ha.1, Bool.eq_false_iff.mpr fun hfeeds ↦ ?_⟩
  exact Bool.eq_false_iff.mp ha.2 (h a.texture hfeeds)

theorem passIsKeptUnder_iff {index : ℕ} {pass : Pass} (hpass : p.passOfRead index = some pass) :
    p.passIsKeptUnder history feeds index = true ↔
      (∃ a ∈ pass.color Pass.rt0 :: pass.extraColor, a.isBound = true ∧ p.colorRebuilt history feeds a = false) ∨
      pass.depthTexture ≠ 0 ∧ ∃ plane, (plane = .depth ∨ plane = .stencil ∧ pass.depthFlags.stencilWritten = true) ∧
        (history.regenerated pass.depthTexture pass.depthLevel plane = true → feeds pass.depthTexture = true) := by
  simp only [passIsKeptUnder, hpass, Bool.if_true_left, Bool.or_eq_true, Bool.and_eq_true, Bool.not_eq_true',
    decide_eq_true_eq, any_eq_true, mem_filter, Bool.or_eq_false_iff, Bool.and_eq_false_iff,
    Bool.not_eq_false', beq_eq_false_iff_ne, mem_cons, or_and_right, exists_or, and_or_left,
    exists_eq_left, and_assoc, and_left_comm]
  grind

theorem passIsKeptUnder_mono (h : feeds ≤ wider) {index : ℕ} (hkept : p.passIsKeptUnder history feeds index = true) :
    p.passIsKeptUnder history wider index = true := by
  cases hpass : p.passOfRead index with
  | none => rw [passIsKeptUnder, hpass]
  | some pass =>
    rw [passIsKeptUnder_iff hpass] at hkept ⊢
    obtain ⟨a, hmem, hbound, hrebuilt⟩ | ⟨hdepth, plane, hplane, hlost⟩ := hkept
    · refine .inl ⟨a, hmem, hbound, Bool.eq_false_iff.mpr fun hwider ↦ ?_⟩
      exact Bool.eq_false_iff.mp hrebuilt (colorRebuilt_anti h hwider)
    · exact .inr ⟨hdepth, plane, hplane, fun hregenerated ↦ h _ (hlost hregenerated)⟩

structure SameClears (h h' : ClearHistory) : Prop where
  frame : h'.frame = h.frame
  tracks : h'.tracks = h.tracks
  regenerated : h'.regenerated = h.regenerated

theorem SameClears.refl (h : ClearHistory) : SameClears h h := ⟨rfl, rfl, rfl⟩

theorem SameClears.trans {h₁ h₂ h₃ : ClearHistory} (h : SameClears h₁ h₂) (h' : SameClears h₂ h₃) :
    SameClears h₁ h₃ :=
  ⟨h'.frame.trans h.frame, h'.tracks.trans h.tracks, h'.regenerated.trans h.regenerated⟩

theorem SameClears.passIsKeptUnder (h : SameClears history other) (p : PassReads) (feeds : Handle → Bool) (index : ℕ) :
    p.passIsKeptUnder other feeds index = p.passIsKeptUnder history feeds index := by
  unfold PassReads.passIsKeptUnder colorRebuilt
  rw [h.regenerated]

end PassReads

namespace ClearHistory

variable {h : ClearHistory} {t : Handle}

theorem sameClears_mark (h : ClearHistory) (t : Handle) : PassReads.SameClears h (h.markFeedsPersistent t).1 := by
  unfold markFeedsPersistent
  split
  · exact .refl h
  · have hclears : ∀ t', (({ h with textures := h.textures.insert t { h.entry t with fedKept := h.frame } } :
        ClearHistory).entry t').clears = (h.entry t').clears := by
      intro t'
      rw [entry_insert]
      split
      · rename_i ht
        rw [ht]
      · rfl
    refine ⟨rfl, funext fun t' ↦ ?_, funext fun t' ↦ funext fun subresource ↦ funext fun plane ↦ ?_⟩
    · rw [tracks_eq, tracks_eq, hclears]
    · rw [Bool.eq_iff_iff, regenerated_eq, regenerated_eq, hclears]

theorem feedsPersistent_mark (hframe : 0 < h.frame) (ht : t ≠ 0) (t' : Handle) :
    (h.markFeedsPersistent t).1.feedsPersistent t' = (decide (t' = t) || h.feedsPersistent t') := by
  rw [markFeedsPersistent, if_neg ht, feedsPersistent_eq, feedsPersistent_eq, entry_insert]
  by_cases heq : t' = t
  · rw [if_pos heq, heq]
    simp [TextureHistory.fedWithin, Nat.pos_iff_ne_zero.mp hframe]
  · rw [if_neg heq]
    simp [heq]

theorem newly_mark (ht : t ≠ 0) : (h.markFeedsPersistent t).2 = !h.feedsPersistent t := by
  rw [markFeedsPersistent, if_neg ht, feedsPersistent_eq]

end ClearHistory

namespace PassReads

variable {p : PassReads} {start history : ClearHistory} {w : Walk} {done : List (ℕ × Handle)}

/-- A walk from `start`, after the reads of `done`. A verdict that stands is right; while nothing new was marked it is
also the verdict the pass had at the start, and every read so far already obeys the rule. -/
structure WalkInv (p : PassReads) (start : ClearHistory) (done : List (ℕ × Handle)) (w : Walk) : Prop where
  same : SameClears start w.history
  grows : start.feedsPersistent ≤ w.history.feedsPersistent
  least : ∀ feeds, start.feedsPersistent ≤ feeds →
    (∀ read ∈ p.reads, start.tracks read.2 = true → p.passIsKeptUnder start feeds read.1 = true →
      feeds read.2 = true) → w.history.feedsPersistent ≤ feeds
  verdict : ∀ pass, w.verdict = some (pass, true) →
    p.passIsKeptUnder start w.history.feedsPersistent pass = true
  quiet : w.marked = false → w.history.feedsPersistent = start.feedsPersistent ∧
    (∀ pass kept, w.verdict = some (pass, kept) →
      kept = p.passIsKeptUnder start start.feedsPersistent pass) ∧
    ∀ read ∈ done, start.tracks read.2 = true →
      p.passIsKeptUnder start start.feedsPersistent read.1 = true → start.feedsPersistent read.2 = true
  loud : w.marked = true → ∃ read ∈ done, start.feedsPersistent read.2 = false ∧
    w.history.feedsPersistent read.2 = true

theorem WalkInv.fresh (p : PassReads) (start : ClearHistory) : WalkInv p start [] ⟨start, false, none⟩ where
  same := .refl start
  grows := le_refl _
  least := fun _ h _ ↦ h
  verdict := nofun
  quiet := fun _ ↦ ⟨rfl, nofun, nofun⟩
  loud := nofun

theorem WalkInv.judge (hw : WalkInv p start done w) (pass : ℕ) (hkept : p.judge w pass = true) :
    p.passIsKeptUnder start w.history.feedsPersistent pass = true := by
  have hfresh : p.passIsKept w.history pass = p.passIsKeptUnder start w.history.feedsPersistent pass :=
    hw.same.passIsKeptUnder p _ pass
  unfold PassReads.judge at hkept
  cases hverdict : w.verdict with
  | none =>
    rw [hverdict] at hkept
    exact hfresh.symm.trans hkept
  | some found =>
    obtain ⟨judged, kept⟩ := found
    rw [hverdict] at hkept
    simp only at hkept
    split at hkept
    · rename_i heq
      rw [← heq]
      exact hw.verdict judged (by rw [hverdict, hkept])
    · exact hfresh.symm.trans hkept

theorem WalkInv.judge_quiet (hw : WalkInv p start done w) (hquiet : w.marked = false) (pass : ℕ) :
    p.judge w pass = p.passIsKeptUnder start start.feedsPersistent pass := by
  obtain ⟨hsame, hverdicts, -⟩ := hw.quiet hquiet
  have hfresh : p.passIsKept w.history pass = p.passIsKeptUnder start start.feedsPersistent pass := by
    rw [passIsKept, hw.same.passIsKeptUnder, hsame]
  unfold PassReads.judge
  cases hverdict : w.verdict with
  | none => exact hfresh
  | some found =>
    obtain ⟨judged, kept⟩ := found
    simp only
    split
    · rename_i heq
      rw [← heq]
      exact hverdicts judged kept hverdict
    · exact hfresh

theorem mem_concat {α : Type} {a b : α} {l : List α} : a ∈ l ++ [b] ↔ a ∈ l ∨ a = b := by simp

theorem WalkInv.mark (hframe : 0 < start.frame) (hnull : start.tracks 0 = false) (hw : WalkInv p start done w)
    {read : ℕ × Handle} (hread : read ∈ p.reads) (htracks : start.tracks read.2 = true)
    (hkept : p.judge w read.1 = true) :
    WalkInv p start (done ++ [read]) ⟨(w.history.markFeedsPersistent read.2).1,
      w.marked || (w.history.markFeedsPersistent read.2).2, some (read.1, true)⟩ := by
  have hne : read.2 ≠ 0 := by
    intro hzero
    rw [hzero, hnull] at htracks
    cases htracks
  have hfeeds := ClearHistory.feedsPersistent_mark (h := w.history) (by rw [hw.same.frame]; exact hframe) hne
  have hmore : w.history.feedsPersistent ≤ (w.history.markFeedsPersistent read.2).1.feedsPersistent := by
    intro t ht
    rw [hfeeds, ht, Bool.or_true]
  have hrule := hw.judge read.1 hkept
  refine ⟨hw.same.trans (w.history.sameClears_mark read.2), hw.grows.trans hmore, fun feeds hbase hclosed t ht ↦ ?_,
    fun pass hpass ↦ ?_, fun hquiet ↦ ?_, fun hloud ↦ ?_⟩
  · rw [hfeeds, Bool.or_eq_true, decide_eq_true_eq] at ht
    have hold := hw.least feeds hbase hclosed
    obtain rfl | ht := ht
    · exact hclosed read hread htracks (passIsKeptUnder_mono hold hrule)
    · exact hold t ht
  · cases hpass
    exact passIsKeptUnder_mono hmore hrule
  · obtain ⟨hmarked, hnewly⟩ := Bool.or_eq_false_iff.mp hquiet
    obtain ⟨hsame, hverdicts, hdone⟩ := hw.quiet hmarked
    rw [ClearHistory.newly_mark hne, Bool.not_eq_false', hsame] at hnewly
    refine ⟨funext fun t ↦ ?_, fun pass kept hpass ↦ ?_, fun r hr htr hkr ↦ ?_⟩
    · rw [hfeeds, hsame]
      by_cases ht : t = read.2
      · rw [ht, hnewly, Bool.or_true]
      · rw [decide_eq_false ht, Bool.false_or]
    · cases hpass
      rw [← hw.judge_quiet hmarked, hkept]
    · obtain hr | rfl := mem_concat.mp hr
      · exact hdone r hr htr hkr
      · exact hnewly
  · obtain hmarked | hnewly := Bool.or_eq_true_iff.mp hloud
    · obtain ⟨r, hr, hbefore, hafter⟩ := hw.loud hmarked
      exact ⟨r, mem_concat.mpr (.inl hr), hbefore, hmore r.2 hafter⟩
    · rw [ClearHistory.newly_mark hne, Bool.not_eq_true'] at hnewly
      refine ⟨read, mem_concat.mpr (.inr rfl), Bool.eq_false_iff.mpr fun hstart ↦ ?_, by rw [hfeeds]; simp⟩
      exact Bool.eq_false_iff.mp hnewly (hw.grows read.2 hstart)

theorem WalkInv.visit (hframe : 0 < start.frame) (hnull : start.tracks 0 = false) (hw : WalkInv p start done w)
    {read : ℕ × Handle} (hread : read ∈ p.reads) : WalkInv p start (done ++ [read]) (p.visit w read) := by
  have hloud : w.marked = true → ∃ r ∈ done ++ [read], start.feedsPersistent r.2 = false ∧
      w.history.feedsPersistent r.2 = true := by
    intro hmarked
    obtain ⟨r, hr, hrest⟩ := hw.loud hmarked
    exact ⟨r, mem_concat.mpr (.inl hr), hrest⟩
  unfold PassReads.visit
  rw [hw.same.tracks]
  by_cases htracks : start.tracks read.2 = true
  · rw [if_pos htracks]
    by_cases hkept : p.judge w read.1 = true
    · simp only [hkept, if_true]
      exact hw.mark hframe hnull hread htracks hkept
    · rw [Bool.not_eq_true] at hkept
      simp only [hkept, Bool.false_eq_true, if_false]
      refine ⟨hw.same, hw.grows, hw.least, nofun, fun hquiet ↦ ?_, hloud⟩
      obtain ⟨hsame, hverdicts, hdone⟩ := hw.quiet hquiet
      have hexact := hw.judge_quiet hquiet read.1
      refine ⟨hsame, fun pass kept hpass ↦ ?_, fun r hr htr hkr ↦ ?_⟩
      · cases hpass
        rw [← hexact, hkept]
      · obtain hr | rfl := mem_concat.mp hr
        · exact hdone r hr htr hkr
        · rw [← hexact, hkept] at hkr
          cases hkr
  · rw [if_neg htracks]
    refine ⟨hw.same, hw.grows, hw.least, hw.verdict, fun hquiet ↦ ?_, hloud⟩
    obtain ⟨hsame, hverdicts, hdone⟩ := hw.quiet hquiet
    refine ⟨hsame, hverdicts, fun r hr htr hkr ↦ ?_⟩
    obtain hr | rfl := mem_concat.mp hr
    · exact hdone r hr htr hkr
    · exact absurd htr htracks

theorem WalkInv.walk (hframe : 0 < start.frame) (hnull : start.tracks 0 = false) (hw : WalkInv p start done w)
    {reads : List (ℕ × Handle)} (hreads : ∀ read ∈ reads, read ∈ p.reads) :
    WalkInv p start (done ++ reads) (reads.foldl p.visit w) := by
  induction reads generalizing done w with
  | nil => rwa [append_nil]
  | cons read reads ih =>
    have hstep := hw.visit hframe hnull (hreads read (by simp))
    have hrest := ih hstep fun r hr ↦ hreads r (by simp [hr])
    rwa [append_assoc] at hrest

theorem markRound_inv (hframe : 0 < start.frame) (hnull : start.tracks 0 = false) :
    WalkInv p start p.reads (p.reads.foldl p.visit ⟨start, false, none⟩) :=
  (WalkInv.fresh p start).walk hframe hnull fun _ h ↦ h

def unmarked (p : PassReads) (history : ClearHistory) : ℕ :=
  p.reads.countP fun read ↦ !history.feedsPersistent read.2

theorem unmarked_markRound (hframe : 0 < start.frame) (hnull : start.tracks 0 = false)
    (hmarked : (p.markRound start).2 = true) : p.unmarked (p.markRound start).1 < p.unmarked start := by
  have hw := markRound_inv (p := p) hframe hnull
  obtain ⟨read, hread, hbefore, hafter⟩ := hw.loud hmarked
  have hmono : (fun r : ℕ × Handle ↦ !(p.markRound start).1.feedsPersistent r.2) ≤
      fun r ↦ !start.feedsPersistent r.2 := by
    intro r hr
    rw [Bool.not_eq_true'] at hr ⊢
    exact Bool.eq_false_iff.mpr fun hstart ↦ Bool.eq_false_iff.mp hr (hw.grows r.2 hstart)
  have hsub := monotone_filter_right p.reads hmono
  rw [unmarked, unmarked, countP_eq_length_filter, countP_eq_length_filter]
  refine Nat.lt_of_not_le fun hle ↦ ?_
  have hin : read ∈ p.reads.filter fun r ↦ !start.feedsPersistent r.2 := by
    rw [mem_filter, hbefore]
    exact ⟨hread, rfl⟩
  rw [← hsub.eq_of_length_le hle, mem_filter, Bool.not_eq_true'] at hin
  exact Bool.eq_false_iff.mp hin.2 hafter

/-- What stays true of the history from round to round, all rounds starting from `h₀`. -/
structure RoundInv (p : PassReads) (h₀ h : ClearHistory) : Prop where
  same : SameClears h₀ h
  grows : h₀.feedsPersistent ≤ h.feedsPersistent
  least : ∀ feeds ∈ p.ClosedMarks h₀, h.feedsPersistent ≤ feeds

variable {h₀ h : ClearHistory}

theorem RoundInv.round (hframe : 0 < h₀.frame) (hnull : h₀.tracks 0 = false) (hinv : RoundInv p h₀ h) :
    RoundInv p h₀ (p.markRound h).1 := by
  have hw : WalkInv p h p.reads (p.reads.foldl p.visit ⟨h, false, none⟩) :=
    markRound_inv (by rw [hinv.same.frame]; exact hframe) (by rw [hinv.same.tracks]; exact hnull)
  refine ⟨hinv.same.trans hw.same, hinv.grows.trans hw.grows, fun feeds hfeeds ↦ ?_⟩
  refine hw.least feeds (hinv.least feeds hfeeds) fun read hread htracks hkept ↦ ?_
  rw [hinv.same.tracks] at htracks
  rw [hinv.same.passIsKeptUnder] at hkept
  exact hfeeds.2 read hread htracks hkept

theorem RoundInv.settled (hframe : 0 < h₀.frame) (hnull : h₀.tracks 0 = false) (hinv : RoundInv p h₀ h)
    (hquiet : (p.markRound h).2 = false) : IsLeast (p.ClosedMarks h₀) (p.markRound h).1.feedsPersistent := by
  have hw : WalkInv p h p.reads (p.reads.foldl p.visit ⟨h, false, none⟩) :=
    markRound_inv (by rw [hinv.same.frame]; exact hframe) (by rw [hinv.same.tracks]; exact hnull)
  have hdone := hinv.round hframe hnull
  obtain ⟨hsame, -, hclosed⟩ := hw.quiet hquiet
  refine ⟨⟨hdone.grows, fun read hread htracks hkept ↦ ?_⟩, hdone.least⟩
  have hfeeds : (p.markRound h).1.feedsPersistent = h.feedsPersistent := hsame
  rw [hfeeds] at hkept ⊢
  refine hclosed read hread ?_ ?_
  · rw [hinv.same.tracks]
    exact htracks
  · rw [hinv.same.passIsKeptUnder]
    exact hkept

theorem RoundInv.refl (p : PassReads) (h : ClearHistory) : RoundInv p h h :=
  ⟨.refl h, le_refl _, fun _ hfeeds ↦ hfeeds.1⟩

theorem unmarked_round (hframe : 0 < h₀.frame) (hnull : h₀.tracks 0 = false) (hinv : RoundInv p h₀ h)
    (hmarked : (p.markRound h).2 = true) : p.unmarked (p.markRound h).1 < p.unmarked h :=
  unmarked_markRound (by rw [hinv.same.frame]; exact hframe) (by rw [hinv.same.tracks]; exact hnull) hmarked

theorem unmarked_lt (p : PassReads) (h : ClearHistory) : p.unmarked h < p.reads.length + 1 :=
  Nat.lt_succ_of_le countP_le_length

theorem tracks_of_isEmpty (hempty : h.isEmpty = true) (t : Handle) : h.tracks t = false := by
  have hnone : h.textures.lookup t = none :=
    AList.lookup_eq_none.mpr fun hmem ↦ by
      have hkeys : t ∈ h.textures.entries.keys := hmem
      rw [isEmpty_iff.mp hempty] at hkeys
      cases hkeys
  rw [ClearHistory.tracks, hnone]

theorem isLeast_markKeptReads (p : PassReads) (hframe : 0 < h.frame) (hnull : h.tracks 0 = false) :
    IsLeast (p.ClosedMarks h) (p.markKeptReads h).feedsPersistent := by
  unfold markKeptReads
  split
  · rename_i hnothing
    refine ⟨⟨le_refl _, fun read hread htracks _ ↦ ?_⟩, fun feeds hfeeds ↦ hfeeds.1⟩
    obtain hreads | hempty := Bool.or_eq_true_iff.mp hnothing
    · rw [isEmpty_iff.mp hreads] at hread
      cases hread
    · rw [tracks_of_isEmpty hempty] at htracks
      cases htracks
  · obtain ⟨h', hinv, hquiet, hend⟩ := rounds_settle (P := RoundInv p h) (f := p.unmarked)
      (fun _ hinv ↦ hinv.round hframe hnull) (fun _ hinv ↦ unmarked_round hframe hnull hinv) (RoundInv.refl p h)
      (unmarked_lt p h)
    rw [hend]
    exact hinv.settled hframe hnull hquiet

end PassReads

open PassReads in
theorem mark_kept_reads_least (p : PassReads) (trace : List ClearHistory.Call) :
    let history := ClearHistory.run trace
    IsLeast (p.ClosedMarks history) (p.markKeptReads history).feedsPersistent ∧
    (∀ reads, reads.Perm p.reads →
      (({ p with reads := reads } : PassReads).markKeptReads history).feedsPersistent =
        (p.markKeptReads history).feedsPersistent) ∧
    ∀ n, p.reads.length + 1 ≤ n →
      rounds p.markRound n history = rounds p.markRound (p.reads.length + 1) history := by
  intro history
  have hagrees := ClearHistory.Agrees.run trace
  have hframe : 0 < history.frame := hagrees.pos
  have hnull : history.tracks 0 = false := by
    rw [← Bool.not_eq_true, hagrees.tracks_iff]
    rintro ⟨key, f, ⟨newer, c, older, -, ⟨hne, -⟩, -⟩, -⟩
    exact hne rfl
  have hleast := isLeast_markKeptReads p hframe hnull
  refine ⟨hleast, fun reads hperm ↦ ?_, fun n hn ↦ ?_⟩
  · have hother := isLeast_markKeptReads { p with reads := reads } hframe hnull
    have hsame : ({ p with reads := reads } : PassReads).ClosedMarks history = p.ClosedMarks history := by
      ext feeds
      refine and_congr_right fun _ ↦ ?_
      constructor
      · exact fun hclosed read hread ↦ hclosed read (hperm.mem_iff.mpr hread)
      · exact fun hclosed read hread ↦ hclosed read (hperm.mem_iff.mp hread)
    rw [hsame] at hother
    exact hother.unique hleast
  · exact rounds_enough (P := RoundInv p history) (f := p.unmarked) (fun _ hinv ↦ hinv.round hframe hnull)
      (fun _ hinv ↦ unmarked_round hframe hnull hinv) (RoundInv.refl p history) (unmarked_lt p history) hn

end Mtld3d
