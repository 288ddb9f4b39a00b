import Mathlib.Data.List.Induction
import Mtld3d.UploadRedirty

namespace Mtld3d

open List RedirtyQueue

/-- Consecutive declines of `s` at the end of a list of events, counting from the last emitted upload of it. -/
def declineStreak (s : RedirtySubresource) (events : List FeedbackEvent) : ℕ :=
  events.foldl (fun n event ↦ match event with
    | .emitted upload => if upload.subresource = s then 0 else n
    | .declined entry => if entry.subresource = s then n + 1 else n) 0

/-- A call that queued a declined upload of `s` for re-dirtying. -/
def Requeues (s : RedirtySubresource) : FeedbackEvent × Bool → Bool
  | (.declined entry, queued) => queued && entry.subresource == s
  | (.emitted _, _) => false

/-- Uploads of `s` queued for re-dirtying since the last emitted upload of it. -/
def requeuedStreak (s : RedirtySubresource) (n : ℕ) (calls : List (FeedbackEvent × Bool)) : ℕ :=
  calls.foldl (fun n c ↦ match c.1 with
    | .emitted upload => if upload.subresource = s then 0 else n
    | .declined _ => if Requeues s c then n + 1 else n) n

theorem declineStreak_emitted (s : RedirtySubresource) (events : List FeedbackEvent) (upload : EmittedUpload) :
    declineStreak s (events ++ [.emitted upload]) =
      if upload.subresource = s then 0 else declineStreak s events := by
  simp [declineStreak]

theorem declineStreak_declined (s : RedirtySubresource) (events : List FeedbackEvent) (entry : RedirtyEntry) :
    declineStreak s (events ++ [.declined entry]) =
      if entry.subresource = s then declineStreak s events + 1 else declineStreak s events := by
  simp [declineStreak]

theorem requeuedStreak_concat (s : RedirtySubresource) (n : ℕ) (calls : List (FeedbackEvent × Bool))
    (c : FeedbackEvent × Bool) : requeuedStreak s n (calls ++ [c]) = match c.1 with
      | .emitted upload => if upload.subresource = s then 0 else requeuedStreak s n calls
      | .declined _ => if Requeues s c then requeuedStreak s n calls + 1 else requeuedStreak s n calls := by
  simp [requeuedStreak]

variable {s : RedirtySubresource}

theorem countP_le_requeuedStreak {seg : List (FeedbackEvent × Bool)}
    (hseg : ∀ upload queued, (.emitted upload, queued) ∈ seg → upload.subresource ≠ s) (n : ℕ) :
    n + seg.countP (Requeues s) = requeuedStreak s n seg := by
  induction seg generalizing n with
  | nil => rfl
  | cons c seg ih =>
    have hrest := ih fun upload queued h ↦ hseg upload queued (mem_cons_of_mem _ h)
    obtain ⟨event, queued⟩ := c
    cases event with
    | emitted upload =>
      have hne := hseg upload queued mem_cons_self
      rw [countP_cons_of_neg (by simp [Requeues]), hrest]
      simp [requeuedStreak, hne]
    | declined entry =>
      by_cases hq : Requeues s (.declined entry, queued) = true
      · rw [countP_cons_of_pos hq, Nat.add_comm _ 1, ← Nat.add_assoc, hrest]
        simp [requeuedStreak, hq]
      · rw [countP_cons_of_neg hq, hrest]
        simp [requeuedStreak, hq]

/-- Whether a call queues its upload for re-dirtying, from the calls before it; the attempt count is a `u32`. -/
def queues (past : List FeedbackEvent) : FeedbackEvent → Bool
  | .emitted _ => false
  | .declined entry => decide ((declineStreak entry.subresource past + 1) % 4294967296 ≤ maxRedirtyAttempts)

def annotated (events : List FeedbackEvent) : List (FeedbackEvent × Bool) :=
  events.mapIdx fun k event ↦ (event, queues (events.take k) event)

theorem annotated_concat (events : List FeedbackEvent) (event : FeedbackEvent) :
    annotated (events ++ [event]) = annotated events ++ [(event, queues events event)] := by
  apply ext_getElem
  · simp [annotated]
  · intro k hk hk'
    simp only [annotated, length_mapIdx, length_append, length_singleton] at hk
    rcases Nat.lt_or_ge k events.length with hlt | hge
    · simp [annotated, getElem_append_left, hlt, take_append_of_le_length (Nat.le_of_lt hlt)]
    · obtain rfl : k = events.length := by omega
      simp [annotated]

theorem prefix_annotated {events : List FeedbackEvent} {past : List (FeedbackEvent × Bool)}
    (h : past <+: annotated events) : ∃ sofar, sofar <+: events ∧ past = annotated sofar := by
  induction events using List.reverseRecOn with
  | nil => exact ⟨[], prefix_refl _, prefix_nil.1 h⟩
  | append_singleton events event ih =>
    rw [annotated_concat] at h
    rcases prefix_concat_iff.1 h with rfl | h
    · exact ⟨events ++ [event], prefix_refl _, (annotated_concat events event).symm⟩
    · obtain ⟨sofar, hsofar, rfl⟩ := ih h
      exact ⟨sofar, hsofar.trans (prefix_append _ _), rfl⟩

def NoWrap (events : List FeedbackEvent) : Prop :=
  ∀ s past, past <+: events → declineStreak s past < 4294967296

theorem NoWrap.of_prefix {events sofar : List FeedbackEvent} (h : NoWrap events) (hsofar : sofar <+: events) :
    NoWrap sofar :=
  fun s past hpast ↦ h s past (hpast.trans hsofar)

theorem requeuedStreak_le {events : List FeedbackEvent} (hwrap : NoWrap events) (s : RedirtySubresource) :
    requeuedStreak s 0 (annotated events) ≤ declineStreak s events ∧
      requeuedStreak s 0 (annotated events) ≤ maxRedirtyAttempts := by
  induction events using List.reverseRecOn with
  | nil => exact ⟨Nat.le_refl _, Nat.zero_le _⟩
  | append_singleton events event ih =>
    obtain ⟨hstreak, hbudget⟩ := ih (hwrap.of_prefix (prefix_append _ _))
    have hlt := hwrap s _ (prefix_refl _)
    rw [annotated_concat, requeuedStreak_concat]
    cases event with
    | emitted upload =>
      rw [declineStreak_emitted]
      dsimp only
      split_ifs
      · exact ⟨Nat.le_refl _, Nat.zero_le _⟩
      · exact ⟨hstreak, hbudget⟩
    | declined entry =>
      rw [declineStreak_declined] at hlt ⊢
      dsimp only
      by_cases hs : entry.subresource = s
      · rw [if_pos hs] at hlt ⊢
        split_ifs with hq
        · -- a call that queues the upload found fewer than the budget's declines before it
          simp only [Requeues, queues, hs, Nat.mod_eq_of_lt hlt, Bool.and_eq_true, decide_eq_true_eq] at hq
          exact ⟨Nat.succ_le_succ hstreak, Nat.le_trans (Nat.succ_le_succ hstreak) hq.1⟩
        · exact ⟨Nat.le_succ_of_le hstreak, hbudget⟩
      · rw [if_neg hs, if_neg (by simp [Requeues, hs])]
        exact ⟨hstreak, hbudget⟩

namespace RedirtyQueue

theorem lookup_forget (q : RedirtyQueue) (s s' : RedirtySubresource) :
    Lib.lookup Prod.fst (q.forget s) s' = if s = s' then none else Lib.lookup Prod.fst q.attempts s' := by
  unfold forget
  induction q.attempts with
  | nil => simp
  | cons a l ih =>
    by_cases ha : a.1 = s
    · rw [filter_cons_of_neg (by simpa using ha), ih, Lib.lookup_cons, ha]
      split_ifs <;> rfl
    · rw [filter_cons_of_pos (by simpa using ha), Lib.lookup_cons, ih, Lib.lookup_cons]
      split_ifs with h₁ h₂ <;> simp_all

theorem attemptsOf_decline (q : RedirtyQueue) (entry : RedirtyEntry) (s : RedirtySubresource) :
    (q.decline entry).1.attemptsOf s =
      if entry.subresource = s then (q.attemptsOf s + 1) % 4294967296 else q.attemptsOf s := by
  unfold decline attemptsOf
  simp only [Lib.lookup_cons, lookup_forget]
  split_ifs with h
  · subst h
    rfl
  · rfl

def Tracked (q : RedirtyQueue) : Prop := q.tracked = q.attempts.length

theorem tracked_decline (q : RedirtyQueue) (entry : RedirtyEntry) : (q.decline entry).1.Tracked := rfl

theorem forget_of_lookup_none {q : RedirtyQueue}
    (h : Lib.lookup Prod.fst q.attempts s = none) : q.forget s = q.attempts :=
  filter_eq_self.2 fun a ha ↦ by simpa using Lib.lookup_eq_none.1 h a ha

theorem noteEmitted_spec {q : RedirtyQueue} (h : q.Tracked) (upload : EmittedUpload) :
    (q.noteEmitted upload).attempts = q.forget upload.subresource ∧ (q.noteEmitted upload).Tracked ∧
      (q.noteEmitted upload).released =
        if upload.releasesStaging then q.released ++ [upload] else q.released := by
  unfold noteEmitted
  by_cases hidle : (!upload.releasesStaging && q.tracked == 0) = true
  · rw [if_pos hidle]
    rw [Bool.and_eq_true, beq_iff_eq, h, Bool.not_eq_true'] at hidle
    have hnil : q.attempts = [] := length_eq_zero_iff.1 hidle.2
    exact ⟨(forget_of_lookup_none (by rw [hnil]; rfl)).symm, h, by simp [hidle.1]⟩
  rw [if_neg hidle]
  dsimp only
  by_cases hnone : (!upload.releasesStaging &&
      !(Lib.lookup Prod.fst q.attempts upload.subresource).isSome) = true
  · rw [if_pos hnone]
    rw [Bool.and_eq_true, Bool.not_eq_true'] at hnone
    have hforget : q.forget upload.subresource = q.attempts :=
      forget_of_lookup_none (by simpa using hnone.2)
    exact ⟨rfl, h.trans (congrArg List.length hforget.symm), by simp [hnone.1]⟩
  · rw [if_neg hnone]
    exact ⟨rfl, rfl, rfl⟩

theorem attemptsOf_noteEmitted {q : RedirtyQueue} (h : q.Tracked) (upload : EmittedUpload)
    (s : RedirtySubresource) :
    (q.noteEmitted upload).attemptsOf s = if upload.subresource = s then 0 else q.attemptsOf s := by
  rw [attemptsOf, (noteEmitted_spec h upload).1, lookup_forget]
  split_ifs <;> rfl

end RedirtyQueue

namespace RedirtyOwner

def events (own : RedirtyOwner) : List FeedbackEvent := own.calls.map Prod.fst

def ReleasesSound (own : RedirtyOwner) : Prop :=
  ∀ upload ∈ own.queue.released, ∃ before after, own.events = before ++ .emitted upload :: after ∧
    ∀ entry, .declined entry ∈ after → entry.subresource ≠ upload.subresource

/-- The attempts stored are the declines since the last emitted upload, and settle what each call did. -/
structure Settled (own : RedirtyOwner) : Prop where
  tracked : own.queue.Tracked
  releases : own.ReleasesSound
  attempts : ∀ s, own.queue.attemptsOf s = declineStreak s own.events % 4294967296
  calls_eq : own.calls = annotated own.events

theorem settled_new : new.Settled where
  tracked := rfl
  releases := nofun
  attempts := fun _ ↦ rfl
  calls_eq := rfl

theorem events_call (own : RedirtyOwner) (event : FeedbackEvent) : (own.call event).events = own.events ++ [event] := by
  cases event <;> simp [call, events]

variable {own : RedirtyOwner}

theorem ReleasesSound.call (htracked : own.queue.Tracked) (h : own.ReleasesSound)
    (event : FeedbackEvent) : (own.call event).ReleasesSound := by
  intro upload hupload
  rw [events_call]
  have hold : upload ∈ own.queue.released →
      (∀ entry, event = .declined entry → entry.subresource ≠ upload.subresource) →
      ∃ before after, own.events ++ [event] = before ++ .emitted upload :: after ∧
        ∀ entry, .declined entry ∈ after → entry.subresource ≠ upload.subresource := by
    intro hmem hne
    obtain ⟨before, after, heq, hafter⟩ := h upload hmem
    refine ⟨before, after ++ [event], by rw [heq, append_assoc, cons_append], fun entry hentry ↦ ?_⟩
    rcases mem_append.1 hentry with hentry | hentry
    · exact hafter entry hentry
    · exact hne entry (mem_singleton.1 hentry).symm
  cases event with
  | emitted emitted =>
    have hreleased : upload ∈ (own.queue.noteEmitted emitted).released := hupload
    rw [(noteEmitted_spec htracked emitted).2.2] at hreleased
    split_ifs at hreleased with hrel
    · rcases mem_append.1 hreleased with hmem | hmem
      · exact hold hmem nofun
      · rw [mem_singleton.1 hmem]
        exact ⟨own.events, [], rfl, nofun⟩
    · exact hold hreleased nofun
  | declined declined =>
    have hreleased : upload ∈ own.queue.released.filter fun r ↦ r.subresource ≠ declined.subresource := hupload
    rw [mem_filter, decide_eq_true_eq] at hreleased
    exact hold hreleased.1 fun entry heq ↦ by
      cases heq
      exact fun h ↦ hreleased.2 h.symm

theorem Settled.call (h : own.Settled) (event : FeedbackEvent) : (own.call event).Settled := by
  cases event with
  | emitted upload =>
    refine ⟨(noteEmitted_spec h.tracked upload).2.1, h.releases.call h.tracked _, fun s ↦ ?_, ?_⟩
    · rw [events_call, declineStreak_emitted]
      refine (attemptsOf_noteEmitted h.tracked upload s).trans ?_
      split_ifs
      · rfl
      · exact h.attempts s
    · rw [events_call, annotated_concat, ← h.calls_eq]
      rfl
  | declined entry =>
    have hattempts : (own.queue.attemptsOf entry.subresource + 1) % 4294967296 =
        (declineStreak entry.subresource own.events + 1) % 4294967296 := by
      rw [h.attempts, Nat.mod_add_mod]
    refine ⟨tracked_decline own.queue entry, h.releases.call h.tracked _, fun s ↦ ?_, ?_⟩
    · rw [events_call, declineStreak_declined]
      refine (attemptsOf_decline own.queue entry s).trans ?_
      split_ifs with hs
      · subst hs
        exact hattempts
      · exact h.attempts s
    · have hqueued : (own.queue.decline entry).2 = queues own.events (.declined entry) := by
        rw [decline, queues, hattempts]
      rw [events_call, annotated_concat, ← h.calls_eq, ← hqueued]
      rfl

theorem Settled.calls {delivered : List FeedbackEvent} (h : own.Settled) :
    (delivered.foldl RedirtyOwner.call own).Settled ∧
      (delivered.foldl RedirtyOwner.call own).events = own.events ++ delivered ∧
      (delivered.foldl RedirtyOwner.call own).order = own.order ∧
      (delivered.foldl RedirtyOwner.call own).sequence = own.sequence := by
  induction delivered generalizing own with
  | nil => exact ⟨h, (append_nil _).symm, rfl, rfl⟩
  | cons event rest ih =>
    obtain ⟨hset, hevents, horder, hseq⟩ := ih (h.call event)
    rw [foldl_cons]
    refine ⟨hset, ?_, horder.trans (by cases event <;> rfl), hseq.trans (by cases event <;> rfl)⟩
    rw [hevents, events_call, append_assoc, singleton_append]

theorem Settled.congr {own own' : RedirtyOwner} (h : own.Settled) (hqueue : own'.queue = own.queue)
    (hcalls : own'.calls = own.calls) : own'.Settled := by
  obtain ⟨sequence, order, queue, calls⟩ := own
  obtain ⟨sequence', order', queue', calls'⟩ := own'
  cases hqueue
  cases hcalls
  exact ⟨h.tracked, h.releases, h.attempts, h.calls_eq⟩

theorem Settled.takePending (h : own.Settled) : Settled { own with queue := own.queue.takePending.1 } := by
  unfold RedirtyQueue.takePending
  split_ifs
  · exact ⟨h.tracked, h.releases, h.attempts, h.calls_eq⟩
  · exact h

theorem Settled.takeReleased (h : own.Settled) : Settled { own with queue := own.queue.takeReleased.1 } := by
  unfold RedirtyQueue.takeReleased
  split_ifs
  · exact ⟨h.tracked, nofun, h.attempts, h.calls_eq⟩
  · exact h

theorem Settled.apply (h : own.Settled) (n : ℕ) (event : FeedbackEvent) : (own.apply n event).Settled ∧
      (own.apply n event).events = own.events ++ (own.order.insert n event).drain.2 ∧
      (own.apply n event).order = (own.order.insert n event).drain.1 ∧
      (own.apply n event).sequence = own.sequence :=
  Settled.calls (h.congr rfl rfl)

theorem Settled.requeued_le (h : own.Settled) (hwrap : NoWrap own.events)
    {before seg after : List (FeedbackEvent × Bool)} (hcalls : own.calls = before ++ seg ++ after)
    (hseg : ∀ upload queued, (.emitted upload, queued) ∈ seg → upload.subresource ≠ s) :
    seg.countP (Requeues s) ≤ maxRedirtyAttempts := by
  have hpast : before ++ seg <+: annotated own.events := by
    rw [← h.calls_eq, hcalls]
    exact prefix_append _ _
  obtain ⟨sofar, hsofar, heq⟩ := prefix_annotated hpast
  have hle := (requeuedStreak_le (hwrap.of_prefix hsofar) s).2
  rw [← heq, requeuedStreak, foldl_append, ← requeuedStreak, ← requeuedStreak,
    ← countP_le_requeuedStreak hseg] at hle
  omega

end RedirtyOwner

end Mtld3d
