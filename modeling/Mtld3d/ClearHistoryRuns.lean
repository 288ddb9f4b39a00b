import Mtld3d.ClearHistory
import Mtld3d.Lib.Select

namespace Mtld3d

open Lib

variable {oldest frame : ℕ} {clears : List ClearEntry} {recorded : ClearKey → ℕ → Prop}

theorem ClearRecord.last_touch (frame : ℕ) (record : ClearRecord) : (record.touch frame).last = frame := by
  unfold ClearRecord.touch
  split
  · assumption
  · rfl

theorem ClearRecord.before_touch (frame : ℕ) (record : ClearRecord) :
    (record.touch frame).before = if record.last = frame then record.before else record.last := by
  unfold ClearRecord.touch
  split <;> rfl

theorem lookup_recordPlane (frame : ℕ) (clears : List ClearEntry) (key k : ClearKey) :
    lookup Prod.fst (recordPlane frame clears key) k =
      if k = key then some (key, (((lookup Prod.fst clears key).map Prod.snd).getD ⟨0, 0⟩).touch frame)
      else lookup Prod.fst clears k := by
  unfold recordPlane
  cases hpos : clears.findIdx? fun entry ↦ entry.1 == key with
  | some index =>
    obtain ⟨found, hfound⟩ := findIdx?_lookup hpos
    have hkey : found.1 = key := key_of_lookup hfound
    simp only
    rw [lookup_modify (f := ClearEntry.touch frame) hpos (fun _ h ↦ h), hfound, Option.map_some, Option.map_some,
      Option.getD_some, ClearEntry.touch, hkey]
  | none =>
    have hnone : lookup Prod.fst clears key = none := findIdx?_none hpos
    simp only
    rw [modify_concat, lookup_append, hnone, lookup_cons, lookup_nil, ClearEntry.touch]
    by_cases hk : k = key
    · rw [if_pos hk, if_pos hk.symm, hk, hnone]
      rfl
    · rw [if_neg hk, if_neg (Ne.symm hk), Option.or_none]

theorem nodup_recordPlane (frame : ℕ) (hnodup : (clears.map Prod.fst).Nodup) (key : ClearKey) :
    ((recordPlane frame clears key).map Prod.fst).Nodup := by
  unfold recordPlane
  cases hpos : clears.findIdx? fun entry ↦ entry.1 == key with
  | some index =>
    simp only
    rw [map_key_modify (f := ClearEntry.touch frame) hpos (fun _ h ↦ h)]
    exact hnodup
  | none =>
    simp only
    rw [modify_concat]
    exact nodup_keys_append hnodup (findIdx?_none hpos)

/-- One texture's clears against all the frames that recorded it: what is kept is true and was touched in the frame
before `oldest` or later, and the records of this frame and of the one before are kept. -/
structure ClearsAgree (oldest frame : ℕ) (recorded : ClearKey → ℕ → Prop) (clears : List ClearEntry) : Prop where
  nodup : (clears.map Prod.fst).Nodup
  past : ∀ k f, recorded k f → 0 < f ∧ f ≤ frame
  last : ∀ entry ∈ clears, recorded entry.1 entry.2.last ∧ oldest ≤ entry.2.last + 1
  before : ∀ entry ∈ clears, entry.2.before < entry.2.last ∧ (entry.2.before ≠ 0 → recorded entry.1 entry.2.before)
  complete : ∀ k f, recorded k f → frame ≤ f + 1 →
    ∃ entry, lookup Prod.fst clears k = some entry ∧ (f = entry.2.last ∨ f = entry.2.before)

namespace ClearsAgree

theorem nothing (oldest frame : ℕ) (h : ∀ k f, ¬ recorded k f) : ClearsAgree oldest frame recorded [] where
  nodup := List.nodup_nil
  past := fun k f hf ↦ absurd hf (h k f)
  last := by simp
  before := by simp
  complete := fun k f hf ↦ absurd hf (h k f)

theorem congr {other : ClearKey → ℕ → Prop} (h : ClearsAgree oldest frame recorded clears)
    (hsame : ∀ k f, other k f ↔ recorded k f) : ClearsAgree oldest frame other clears := by
  have heq : other = recorded := by
    funext k f
    exact propext (hsame k f)
  rw [heq]
  exact h

theorem found (hframe : 0 < frame) (h : ClearsAgree oldest frame recorded clears) (key : ClearKey) :
    let record := ((lookup Prod.fst clears key).map Prod.snd).getD ⟨0, 0⟩
    record.last ≤ frame ∧ record.before < frame ∧ (record.last ≠ 0 → recorded key record.last) ∧
      (record.before ≠ 0 → recorded key record.before) := by
  cases hold : lookup Prod.fst clears key with
  | none => exact ⟨Nat.zero_le _, hframe, fun hne ↦ absurd rfl hne, fun hne ↦ absurd rfl hne⟩
  | some old =>
    have hmem := mem_of_lookup hold
    have hkey : old.1 = key := key_of_lookup hold
    obtain ⟨hlast, -⟩ := h.last old hmem
    obtain ⟨hbefore, hrec⟩ := h.before old hmem
    have hpast := (h.past _ _ hlast).2
    rw [hkey] at hlast hrec
    exact ⟨hpast, lt_of_lt_of_le hbefore hpast, fun _ ↦ hlast, hrec⟩

theorem recordPlane (hframe : 0 < frame) (hold : oldest ≤ frame) (h : ClearsAgree oldest frame recorded clears)
    (key : ClearKey) :
    ClearsAgree oldest frame (fun k f ↦ recorded k f ∨ k = key ∧ f = frame) (recordPlane frame clears key) := by
  have hnodup := nodup_recordPlane frame h.nodup key
  obtain ⟨hle, hlt, hreclast, hrecbefore⟩ := h.found hframe key
  have hentry : ∀ entry ∈ Mtld3d.recordPlane frame clears key,
      entry ∈ clears ∨ entry.1 = key ∧ entry.2.last = frame ∧ entry.2.before < frame ∧
        (entry.2.before ≠ 0 → recorded key entry.2.before) := by
    intro entry hmem
    have hlook := (mem_iff_lookup hnodup).mp hmem
    rw [lookup_recordPlane] at hlook
    by_cases hk : entry.1 = key
    · rw [if_pos hk] at hlook
      obtain rfl := Option.some.inj hlook
      refine .inr ⟨rfl, ClearRecord.last_touch _ _, ?_⟩
      rw [ClearRecord.before_touch]
      split
      · exact ⟨hlt, hrecbefore⟩
      · exact ⟨by omega, hreclast⟩
    · rw [if_neg hk] at hlook
      exact .inl (mem_of_lookup hlook)
  refine ⟨hnodup, ?_, fun entry hmem ↦ ?_, fun entry hmem ↦ ?_, ?_⟩
  · rintro k f (hf | ⟨-, rfl⟩)
    · exact h.past k f hf
    · exact ⟨hframe, le_refl _⟩
  · obtain hold | ⟨hkey, hlast, -⟩ := hentry entry hmem
    · exact ⟨.inl (h.last entry hold).1, (h.last entry hold).2⟩
    · exact ⟨.inr ⟨hkey, hlast⟩, by omega⟩
  · obtain hold | ⟨hkey, hlast, hbefore, hrec⟩ := hentry entry hmem
    · exact ⟨(h.before entry hold).1, fun hne ↦ .inl ((h.before entry hold).2 hne)⟩
    · rw [hlast, hkey]
      exact ⟨hbefore, fun hne ↦ .inl (hrec hne)⟩
  · intro k f hf hrecent
    rw [lookup_recordPlane]
    by_cases hk : k = key
    · subst hk
      rw [if_pos rfl]
      refine ⟨_, rfl, ?_⟩
      rw [ClearRecord.last_touch, ClearRecord.before_touch]
      obtain hf | ⟨-, rfl⟩ := hf
      · obtain ⟨old, hold, hcase⟩ := h.complete k f hf hrecent
        have hpast := (h.past k f hf).2
        rw [hold, Option.map_some, Option.getD_some]
        rw [hold, Option.map_some, Option.getD_some] at hle hlt
        have hbefore := (h.before old (mem_of_lookup hold)).1
        split <;> omega
      · exact .inl rfl
    · rw [if_neg hk]
      obtain hf | ⟨heq, -⟩ := hf
      · exact h.complete k f hf hrecent
      · exact absurd heq hk

theorem record (hframe : 0 < frame) (hold : oldest ≤ frame) (h : ClearsAgree oldest frame recorded clears)
    (keys : List ClearKey) :
    ClearsAgree oldest frame (fun k f ↦ recorded k f ∨ k ∈ keys ∧ f = frame)
      (keys.foldl (Mtld3d.recordPlane frame) clears) := by
  induction keys generalizing clears recorded with
  | nil => exact h.congr fun k f ↦ by simp
  | cons key keys ih =>
    refine (ih (h.recordPlane hframe hold key)).congr fun k f ↦ ?_
    rw [List.mem_cons]
    tauto

theorem advance (h : ClearsAgree oldest frame recorded clears) :
    ClearsAgree (frame + 1) (frame + 1) recorded (clears.filter fun entry ↦ frame + 1 ≤ entry.2.last + 1) := by
  have hmem : ∀ {entry}, entry ∈ clears.filter (fun entry ↦ frame + 1 ≤ entry.2.last + 1) ↔
      entry ∈ clears ∧ frame ≤ entry.2.last := by
    intro entry
    rw [List.mem_filter, decide_eq_true_eq, Nat.succ_le_succ_iff]
  have hnodup : ((clears.filter fun entry ↦ frame + 1 ≤ entry.2.last + 1).map Prod.fst).Nodup :=
    h.nodup.sublist (List.Sublist.map _ List.filter_sublist)
  refine ⟨hnodup, fun k f hf ↦ ?_, fun entry he ↦ ?_, fun entry he ↦ ?_, fun k f hf hrecent ↦ ?_⟩
  · exact ⟨(h.past k f hf).1, Nat.le_succ_of_le (h.past k f hf).2⟩
  · exact ⟨(h.last entry (hmem.mp he).1).1, Nat.succ_le_succ (hmem.mp he).2⟩
  · exact h.before entry (hmem.mp he).1
  · obtain ⟨entry, hlook, hcase⟩ := h.complete k f hf (by omega)
    have hin := mem_of_lookup hlook
    have hkey : entry.1 = k := key_of_lookup hlook
    have hpast := (h.past _ _ (h.last entry hin).1).2
    have hbefore := (h.before entry hin).1
    refine ⟨entry, ?_, hcase⟩
    rw [← hkey]
    exact (mem_iff_lookup hnodup).mp (hmem.mpr ⟨hin, by omega⟩)

theorem keep (h : ClearsAgree 0 frame recorded clears) : ClearsAgree 0 (frame + 1) recorded clears :=
  ⟨h.nodup, fun k f hf ↦ ⟨(h.past k f hf).1, Nat.le_succ_of_le (h.past k f hf).2⟩, h.last, h.before,
    fun k f hf hrecent ↦ h.complete k f hf (by omega)⟩

end ClearsAgree

namespace ClearHistory

open Call

variable {h : ClearHistory} {trace : List Call} {t : Handle}

theorem regenerated_eq (h : ClearHistory) (t : Handle) (subresource : ℕ) (plane : ClearPlane) :
    h.regenerated t subresource plane = true ↔
      ∃ found, lookup Prod.fst (h.entry t).clears ⟨subresource, plane⟩ = some found ∧
        found.2.last = h.frame ∧ found.2.before ≠ 0 ∧ found.2.before + 1 = h.frame := by
  unfold regenerated entry
  cases h.textures.lookup t with
  | none => simp [TextureHistory.default]
  | some history => cases hfound : lookup Prod.fst history.clears ⟨subresource, plane⟩ <;> simp [hfound, and_assoc]

theorem tracks_eq (h : ClearHistory) (t : Handle) : h.tracks t = !(h.entry t).clears.isEmpty := by
  unfold tracks entry
  cases h.textures.lookup t <;> rfl

theorem feedsPersistent_eq (h : ClearHistory) (t : Handle) : h.feedsPersistent t = (h.entry t).fedWithin h.frame := by
  unfold feedsPersistent entry
  cases h.textures.lookup t <;> rfl

theorem fedWithin_iff {history : TextureHistory} {frame : ℕ} :
    history.fedWithin frame = true ↔ history.fedKept ≠ 0 ∧ frame ≤ history.fedKept + feedMemoryFrames := by
  simp [TextureHistory.fedWithin]

theorem entry_insert (history : TextureHistory) (t' : Handle) :
    ({ h with textures := h.textures.insert t history } : ClearHistory).entry t' =
      if t' = t then history else h.entry t' := by
  unfold entry
  by_cases ht : t' = t
  · rw [if_pos ht, ht]
    simp
  · rw [if_neg ht]
    simp [AList.lookup_insert_ne ht]

theorem entry_forget (t' : Handle) : (h.forget t).entry t' = if t' = t then .default else h.entry t' := by
  unfold entry forget
  by_cases ht : t' = t
  · rw [if_pos ht, ht]
    simp
  · rw [if_neg ht]
    simp [AList.lookup_erase_ne ht]

theorem entry_beginFrame (h : ClearHistory) (t : Handle) :
    h.beginFrame.entry t = ((h.textures.lookup t).bind (TextureHistory.prune (h.frame + 1))).getD .default := by
  show ((h.textures.retain (TextureHistory.prune (h.frame + 1))).lookup t).getD .default = _
  rw [Table.lookup_retain]

theorem clears_beginFrame (h : ClearHistory) (t : Handle) :
    (h.beginFrame.entry t).clears = (h.entry t).clears.filter fun e ↦ h.frame + 1 ≤ e.2.last + 1 := by
  rw [entry_beginFrame, entry]
  cases h.textures.lookup t with
  | none => rfl
  | some history =>
    rw [Option.bind_some, TextureHistory.prune]
    split
    · rfl
    · rename_i hdrop
      simp only [Bool.or_eq_true, Bool.not_eq_true', not_or, Bool.not_eq_false] at hdrop
      exact (List.isEmpty_iff.mp hdrop.1).symm

theorem fedKept_beginFrame (h : ClearHistory) (t : Handle) :
    (h.beginFrame.entry t).fedKept = (h.entry t).fedKept ∨
      (h.beginFrame.entry t).fedKept = 0 ∧ (h.entry t).fedWithin (h.frame + 1) = false := by
  rw [entry_beginFrame, entry]
  cases h.textures.lookup t with
  | none => exact .inl rfl
  | some history =>
    rw [Option.bind_some, TextureHistory.prune]
    split
    · exact .inl rfl
    · rename_i hdrop
      simp only [Bool.or_eq_true, not_or, Bool.not_eq_true] at hdrop
      exact .inr ⟨rfl, hdrop.2⟩

theorem recordedIn_cons {c : Call} {key : ClearKey} {f : ℕ} :
    RecordedIn (c :: trace) t key f ↔ Clears t key f c trace ∨ ¬ Forgets t c ∧ RecordedIn trace t key f :=
  since_cons

theorem markedIn_cons {c : Call} {f : ℕ} :
    MarkedIn (c :: trace) t f ↔ Feeds t f c trace ∨ ¬ Forgets t c ∧ MarkedIn trace t f :=
  since_cons

/-- The latest mark is the one kept, unless it lies too far back to count. -/
structure FedAgrees (frame : ℕ) (marked : ℕ → Prop) (fedKept : ℕ) : Prop where
  past : ∀ f, marked f → 0 < f ∧ f ≤ frame
  sound : fedKept ≠ 0 → marked fedKept
  complete : ∀ f, marked f → f ≤ fedKept ∨ f + feedMemoryFrames < frame

theorem FedAgrees.nothing (frame : ℕ) {marked : ℕ → Prop} (h : ∀ f, ¬ marked f) : FedAgrees frame marked 0 where
  past := fun f hf ↦ absurd hf (h f)
  sound := fun hne ↦ absurd rfl hne
  complete := fun f hf ↦ absurd hf (h f)

theorem FedAgrees.congr {frame fedKept : ℕ} {marked other : ℕ → Prop} (h : FedAgrees frame marked fedKept)
    (hsame : ∀ f, other f ↔ marked f) : FedAgrees frame other fedKept := by
  have heq : other = marked := funext fun f ↦ propext (hsame f)
  rw [heq]
  exact h

structure Agrees (pruned : Bool) (trace : List Call) (h : ClearHistory) : Prop where
  frame : h.frame = frameOf trace
  pos : 0 < h.frame
  clears : ∀ t, ClearsAgree (if pruned then h.frame else 0) h.frame (RecordedIn trace t) (h.entry t).clears
  fed : ∀ t, FedAgrees h.frame (MarkedIn trace t) (h.entry t).fedKept

/-- The next frame with nothing pruned. -/
def advance (h : ClearHistory) : ClearHistory := { h with frame := h.frame + 1 }

def unpruned (trace : List Call) : ClearHistory :=
  trace.foldr (fun c h ↦ match c with
    | .beginFrame => h.advance
    | c => h.call c) ClearHistory.new

namespace Agrees

variable {pruned : Bool}

theorem new : Agrees pruned [] new where
  frame := rfl
  pos := one_pos
  clears := fun _ ↦ .nothing _ _ fun _ _ ↦ since_nil
  fed := fun _ ↦ .nothing _ fun _ ↦ since_nil

theorem beginFrame (hag : Agrees true trace h) : Agrees true (.beginFrame :: trace) h.beginFrame where
  frame := congrArg (· + 1) hag.frame
  pos := Nat.succ_pos _
  clears := by
    intro t
    rw [clears_beginFrame]
    refine (hag.clears t).advance.congr fun k f ↦ ?_
    rw [recordedIn_cons]
    simp [Clears, Forgets]
  fed := by
    intro t
    have hold := hag.fed t
    have hsame : ∀ f, MarkedIn (.beginFrame :: trace) t f ↔ MarkedIn trace t f := by
      intro f
      rw [markedIn_cons]
      simp [Feeds, Forgets]
    refine FedAgrees.congr ?_ hsame
    refine ⟨fun f hf ↦ ⟨(hold.past f hf).1, Nat.le_succ_of_le (hold.past f hf).2⟩, fun hne ↦ ?_, fun f hf ↦ ?_⟩
    · obtain hkept | ⟨hzero, -⟩ := fedKept_beginFrame h t
      · rw [hkept] at hne ⊢
        exact hold.sound hne
      · exact absurd hzero hne
    · show _ ∨ _ < h.frame + 1
      have hpos := (hold.past f hf).1
      obtain hkept | ⟨-, hout⟩ := fedKept_beginFrame h t
      · rw [hkept]
        exact (hold.complete f hf).imp_right Nat.lt_succ_of_lt
      · refine .inr ?_
        simp only [TextureHistory.fedWithin, Bool.and_eq_false_iff, decide_eq_false_iff_not] at hout
        obtain hle | hlt := hold.complete f hf <;> omega

theorem advance (hag : Agrees false trace h) : Agrees false (.beginFrame :: trace) h.advance where
  frame := congrArg (· + 1) hag.frame
  pos := Nat.succ_pos _
  clears := by
    refine fun t ↦ (hag.clears t).keep.congr fun k f ↦ ?_
    rw [recordedIn_cons]
    simp [Clears, Forgets]
  fed := by
    intro t
    have hold := hag.fed t
    refine FedAgrees.congr ⟨fun f hf ↦ ?_, hold.sound, fun f hf ↦ ?_⟩ fun f ↦ ?_
    · exact ⟨(hold.past f hf).1, Nat.le_succ_of_le (hold.past f hf).2⟩
    · exact (hold.complete f hf).imp_right Nat.lt_succ_of_lt
    · rw [markedIn_cons]
      simp [Feeds, Forgets]

theorem record (hag : Agrees pruned trace h) (texture : Handle) (subresource : ℕ) (planes : ClearPlanes) :
    Agrees pruned (.record texture subresource planes :: trace) (h.record texture subresource planes) := by
  have hmarked : ∀ t f, MarkedIn (.record texture subresource planes :: trace) t f ↔ MarkedIn trace t f := by
    intro t f
    rw [markedIn_cons]
    simp [Feeds, Forgets]
  have hrecorded : ∀ t k f, RecordedIn (.record texture subresource planes :: trace) t k f ↔
      RecordedIn trace t k f ∨
        texture = t ∧ t ≠ 0 ∧ k ∈ planes.iter.map (ClearKey.mk subresource) ∧ f = h.frame := by
    intro t k f
    rw [recordedIn_cons, hag.frame]
    constructor
    · rintro (⟨hne, hf, _, hc, hplane⟩ | ⟨-, hold⟩)
      · cases hc
        exact .inr ⟨rfl, hne, List.mem_map.mpr ⟨k.plane, hplane, rfl⟩, hf.symm⟩
      · exact .inl hold
    · rintro (hold | ⟨rfl, hne, hk, rfl⟩)
      · exact .inr ⟨not_false, hold⟩
      · obtain ⟨plane, hplane, rfl⟩ := List.mem_map.mp hk
        exact .inl ⟨hne, rfl, planes, rfl, hplane⟩
  unfold ClearHistory.record
  by_cases hnull : texture = 0
  · rw [if_pos hnull]
    refine ⟨hag.frame, hag.pos, fun t ↦ (hag.clears t).congr fun k f ↦ ?_, fun t ↦ (hag.fed t).congr (hmarked t)⟩
    rw [hrecorded]
    constructor
    · rintro (hold | ⟨rfl, hne, -⟩)
      · exact hold
      · exact absurd hnull hne
    · exact .inl
  · rw [if_neg hnull]
    refine ⟨hag.frame, hag.pos, fun t ↦ ?_, fun t ↦ ?_⟩
    · rw [entry_insert]
      by_cases ht : t = texture
      · subst ht
        rw [if_pos rfl]
        refine ((hag.clears t).record hag.pos (by split <;> omega) _).congr fun k f ↦ ?_
        rw [hrecorded]
        tauto
      · rw [if_neg ht]
        refine (hag.clears t).congr fun k f ↦ ?_
        rw [hrecorded]
        tauto
    · rw [entry_insert]
      by_cases ht : t = texture
      · subst ht
        rw [if_pos rfl]
        exact (hag.fed t).congr (hmarked t)
      · rw [if_neg ht]
        exact (hag.fed t).congr (hmarked t)

theorem markFeedsPersistent (hag : Agrees pruned trace h) (texture : Handle) :
    Agrees pruned (.markFeedsPersistent texture :: trace) (h.markFeedsPersistent texture).1 := by
  have hrecorded : ∀ t k f, RecordedIn (.markFeedsPersistent texture :: trace) t k f ↔ RecordedIn trace t k f := by
    intro t k f
    rw [recordedIn_cons]
    simp [Clears, Forgets]
  have hmarked : ∀ t f, MarkedIn (.markFeedsPersistent texture :: trace) t f ↔
      MarkedIn trace t f ∨ texture = t ∧ t ≠ 0 ∧ f = h.frame := by
    intro t f
    rw [markedIn_cons, hag.frame]
    simp only [Feeds, Forgets, Call.markFeedsPersistent.injEq]
    tauto
  unfold ClearHistory.markFeedsPersistent
  by_cases hnull : texture = 0
  · rw [if_pos hnull]
    refine ⟨hag.frame, hag.pos, fun t ↦ (hag.clears t).congr (hrecorded t), fun t ↦ (hag.fed t).congr fun f ↦ ?_⟩
    rw [hmarked]
    constructor
    · rintro (hold | ⟨rfl, hne, -⟩)
      · exact hold
      · exact absurd hnull hne
    · exact .inl
  · rw [if_neg hnull]
    refine ⟨hag.frame, hag.pos, fun t ↦ ?_, fun t ↦ ?_⟩
    · rw [entry_insert]
      by_cases ht : t = texture
      · subst ht
        rw [if_pos rfl]
        exact (hag.clears t).congr (hrecorded t)
      · rw [if_neg ht]
        exact (hag.clears t).congr (hrecorded t)
    · rw [entry_insert]
      by_cases ht : t = texture
      · subst ht
        rw [if_pos rfl]
        have hnow : MarkedIn (.markFeedsPersistent t :: trace) t h.frame := (hmarked t _).mpr (.inr ⟨rfl, hnull, rfl⟩)
        have hpast : ∀ f, MarkedIn (.markFeedsPersistent t :: trace) t f → 0 < f ∧ f ≤ h.frame := by
          intro f hf
          obtain hold | ⟨-, -, rfl⟩ := (hmarked t f).mp hf
          · exact (hag.fed t).past f hold
          · exact ⟨hag.pos, le_refl _⟩
        exact ⟨hpast, fun _ ↦ hnow, fun f hf ↦ .inl (hpast f hf).2⟩
      · rw [if_neg ht]
        refine (hag.fed t).congr fun f ↦ ?_
        rw [hmarked]
        tauto

theorem forget (hag : Agrees pruned trace h) (texture : Handle) :
    Agrees pruned (.forget texture :: trace) (h.forget texture) := by
  have hrecorded : ∀ t k f, RecordedIn (.forget texture :: trace) t k f ↔ texture ≠ t ∧ RecordedIn trace t k f := by
    intro t k f
    rw [recordedIn_cons]
    simp [Clears, Forgets]
  have hmarked : ∀ t f, MarkedIn (.forget texture :: trace) t f ↔ texture ≠ t ∧ MarkedIn trace t f := by
    intro t f
    rw [markedIn_cons]
    simp [Feeds, Forgets]
  refine ⟨hag.frame, hag.pos, fun t ↦ ?_, fun t ↦ ?_⟩
  · rw [entry_forget]
    by_cases ht : t = texture
    · subst ht
      rw [if_pos rfl]
      exact .nothing _ _ fun k f hf ↦ ((hrecorded t k f).mp hf).1 rfl
    · rw [if_neg ht]
      exact (hag.clears t).congr fun k f ↦ (hrecorded t k f).trans (and_iff_right (Ne.symm ht))
  · rw [entry_forget]
    by_cases ht : t = texture
    · subst ht
      rw [if_pos rfl]
      exact .nothing _ fun f hf ↦ ((hmarked t f).mp hf).1 rfl
    · rw [if_neg ht]
      exact (hag.fed t).congr fun f ↦ (hmarked t f).trans (and_iff_right (Ne.symm ht))

theorem clear (hag : Agrees pruned trace h) : Agrees pruned (.clear :: trace) h.clear where
  frame := hag.frame
  pos := hag.pos
  clears := by
    refine fun t ↦ .nothing _ _ fun k f hf ↦ ?_
    rw [recordedIn_cons] at hf
    simp [Clears, Forgets] at hf
  fed := by
    refine fun t ↦ .nothing _ fun f hf ↦ ?_
    rw [markedIn_cons] at hf
    simp [Feeds, Forgets] at hf

theorem call (hag : Agrees pruned trace h) {c : Call} (hc : c ≠ .beginFrame) :
    Agrees pruned (c :: trace) (h.call c) := by
  cases c with
  | beginFrame => exact absurd rfl hc
  | record texture subresource planes => exact hag.record texture subresource planes
  | markFeedsPersistent texture => exact hag.markFeedsPersistent texture
  | forget texture => exact hag.forget texture
  | clear => exact hag.clear

theorem run (trace : List Call) : Agrees true trace (run trace) := by
  induction trace with
  | nil => exact .new
  | cons c trace ih =>
    cases c with
    | beginFrame => exact ih.beginFrame
    | _ => exact ih.call (by simp)

theorem unpruned (trace : List Call) : Agrees false trace (unpruned trace) := by
  induction trace with
  | nil => exact .new
  | cons c trace ih =>
    cases c with
    | beginFrame => exact ih.advance
    | _ => exact ih.call (by simp)

theorem regenerated_iff (hag : Agrees pruned trace h) (t : Handle) (subresource : ℕ) (plane : ClearPlane) :
    h.regenerated t subresource plane = true ↔
      RecordedIn trace t ⟨subresource, plane⟩ (frameOf trace) ∧
        ∃ f, f + 1 = frameOf trace ∧ RecordedIn trace t ⟨subresource, plane⟩ f := by
  have hclears := hag.clears t
  rw [regenerated_eq, ← hag.frame]
  constructor
  · rintro ⟨found, hfound, hlast, hne, hbefore⟩
    have hkey : found.1 = ⟨subresource, plane⟩ := key_of_lookup hfound
    have hmem := mem_of_lookup hfound
    have hreclast := (hclears.last found hmem).1
    have hrecbefore := (hclears.before found hmem).2 hne
    rw [hkey] at hreclast hrecbefore
    exact ⟨hlast ▸ hreclast, found.2.before, hbefore, hrecbefore⟩
  · rintro ⟨hnow, f, hf, hthen⟩
    obtain ⟨found, hfound, hlast⟩ := hclears.complete _ _ hnow (Nat.le_succ _)
    obtain ⟨found', hfound', hbefore⟩ := hclears.complete _ _ hthen (le_of_eq hf.symm)
    obtain rfl : found = found' := Option.some.inj (hfound.symm.trans hfound')
    have hmem := mem_of_lookup hfound
    have hpast := (hclears.past _ _ (hclears.last found hmem).1).2
    have hlt := (hclears.before found hmem).1
    have hpos := (hclears.past _ _ hthen).1
    exact ⟨found, hfound, by omega, by omega, by omega⟩

/-- The recent records that the history still holds, pruned or not. -/
theorem exists_recent_iff (hag : Agrees pruned trace h) (t : Handle) :
    (∃ found ∈ (h.entry t).clears, frameOf trace ≤ found.2.last + 1) ↔
      ∃ key f, RecordedIn trace t key f ∧ frameOf trace ≤ f + 1 := by
  have hclears := hag.clears t
  constructor
  · rintro ⟨found, hmem, hrecent⟩
    exact ⟨found.1, found.2.last, (hclears.last found hmem).1, hrecent⟩
  · rintro ⟨key, f, hrec, hrecent⟩
    obtain ⟨found, hfound, hlast⟩ := hclears.complete key f hrec (hag.frame ▸ hrecent)
    have hmem := mem_of_lookup hfound
    have hbefore := (hclears.before found hmem).1
    exact ⟨found, hmem, by omega⟩

theorem tracks_iff (hag : Agrees true trace h) (t : Handle) :
    h.tracks t = true ↔ ∃ key f, RecordedIn trace t key f ∧ frameOf trace ≤ f + 1 := by
  rw [tracks_eq, Bool.not_eq_true', List.isEmpty_eq_false_iff_exists_mem, ← hag.exists_recent_iff t]
  refine exists_congr fun found ↦ (and_iff_left_of_imp fun hmem ↦ ?_).symm
  rw [← hag.frame]
  exact ((hag.clears t).last found hmem).2

theorem feedsPersistent_iff (hag : Agrees pruned trace h) (t : Handle) : h.feedsPersistent t = true ↔
      ∃ f, MarkedIn trace t f ∧ frameOf trace ≤ f + feedMemoryFrames := by
  have hfed := hag.fed t
  rw [feedsPersistent_eq, ← hag.frame, fedWithin_iff]
  constructor
  · rintro ⟨hne, hwithin⟩
    exact ⟨_, hfed.sound hne, hwithin⟩
  · rintro ⟨f, hmarked, hwithin⟩
    have hpos := (hfed.past f hmarked).1
    obtain hle | hlt := hfed.complete f hmarked <;> omega

end Agrees

/-- Two answers are those of the run that never prunes; `tracks` is what that run has left once the records older than
the frame before are put aside. -/
theorem answers_from_whole_trace (trace : List Call) (t : Handle) :
    (∀ subresource plane, (run trace).regenerated t subresource plane = true ↔
      RecordedIn trace t ⟨subresource, plane⟩ (frameOf trace) ∧
        ∃ f, f + 1 = frameOf trace ∧ RecordedIn trace t ⟨subresource, plane⟩ f) ∧
    ((run trace).tracks t = true ↔ ∃ key f, RecordedIn trace t key f ∧ frameOf trace ≤ f + 1) ∧
    ((run trace).feedsPersistent t = true ↔ ∃ f, MarkedIn trace t f ∧ frameOf trace ≤ f + feedMemoryFrames) ∧
    (∀ subresource plane,
      (run trace).regenerated t subresource plane = (unpruned trace).regenerated t subresource plane) ∧
    ((run trace).tracks t = true ↔
      ∃ found ∈ ((unpruned trace).entry t).clears, frameOf trace ≤ found.2.last + 1) ∧
    (run trace).feedsPersistent t = (unpruned trace).feedsPersistent t := by
  -- Both runs agree with the trace on every recent record, and the answers read no older one.
  have hrun := Agrees.run trace
  have hall := Agrees.unpruned trace
  refine ⟨hrun.regenerated_iff t, hrun.tracks_iff t, hrun.feedsPersistent_iff t, fun subresource plane ↦ ?_,
    (hrun.tracks_iff t).trans (hall.exists_recent_iff t).symm, ?_⟩
  · exact Bool.eq_iff_iff.mpr ((hrun.regenerated_iff t _ _).trans (hall.regenerated_iff t _ _).symm)
  · exact Bool.eq_iff_iff.mpr ((hrun.feedsPersistent_iff t).trans (hall.feedsPersistent_iff t).symm)

/-- Without the pruning a texture last cleared two frames ago is still tracked. -/
theorem tracks_rests_on_pruning :
    let trace := [.beginFrame, .beginFrame, .record 1 0 ⟨true, false, false⟩]
    (run trace).tracks 1 = false ∧ (unpruned trace).tracks 1 = true := by
  decide

end ClearHistory

end Mtld3d
